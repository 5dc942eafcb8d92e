import OxKv.Format.FooterJson
import OxKv.Format.Reference
import OxKv.Format.SstScan

/-!
Which SST objects can be read without a trap.

`parse` never traps, whatever the bytes and whatever footer the JSON decodes to. Every reader
walks over the block index and adds offset and length of a block before it compares the sum with
the end of the block area. So a block whose end is not a `u64` traps the reader that comes to it,
and only an earlier block at which the reader gives up can keep it away.

* `SstView.Guarded`: every overflowing entry of the index is shielded in that way;
* `SstView.verify_returns_iff`, `SstView.scan_returns`, `SstView.get_returns`: the readers;
* `hostile_sst_iff`: an object is read without a trap exactly when its index is guarded.
-/

namespace OxKv

/-- The end of the block does not fit into a `u64`. -/
def BlockMeta.Overflows (b : BlockMeta) : Prop := 2 ^ 64 ≤ b.offset + b.len

/-- A record whose key is not UTF-8 stands before the records break off. -/
def badKeyIn : Nat → Bytes → Bool
  | 0, _ => false
  | fuel + 1, bytes =>
    match takeRecord bytes with
    | .truncated => false
    | .badKey => true
    | .entry _ _ rest => badKeyIn fuel rest

namespace SstView

variable (crc32 : Bytes → UInt32) (v : SstView)

def between (b : BlockMeta) : Bytes := (v.data.bytes.drop b.offset).take b.len

/-- The block is not inside the block area or has another checksum. -/
def Refused (b : BlockMeta) : Prop :=
  b.offset + b.len < 2 ^ 64 ∧ (v.footerOffset < b.offset + b.len ∨ crc32 (v.between b) ≠ b.crc)

/-- A scan gives up at the block. -/
def GivesUp (b : BlockMeta) : Prop :=
  v.Refused crc32 b ∨ b.offset + b.len < 2 ^ 64 ∧ badKeyIn (v.between b).length (v.between b) = true

/-- Before every entry of the index that overflows stand a block that is refused, and a block
that covers its keys and at which a scan gives up. -/
def Guarded : Prop :=
  ∀ pre m post, v.footer.index = pre ++ m :: post → m.Overflows →
    (∃ b ∈ pre, v.Refused crc32 b) ∧
      ∃ b ∈ pre, (b.minKey ≤ m.minKey ∧ m.maxKey ≤ b.maxKey) ∧ v.GivesUp crc32 b

structure ReadersReturn : Prop where
  verify : (v.verifyFileCrc crc32).Returns
  get : ∀ key, (v.getOption crc32 key).Returns
  scan : ∀ start stop limit, (v.scanWithTombstones crc32 start stop limit).Returns
  iter : ∀ start stop, ((v.scanIter start stop).collect crc32).Returns

end SstView

/-! ## The record loops -/

variable {data : Bytes} {n : Nat}

theorem badKeyIn_fuel {m : Nat} (hn : data.length ≤ n) (hm : data.length ≤ m) :
    badKeyIn n data = badKeyIn m data := by
  refine record_fuel (fun _ => false) (fun _ => true) (fun _ _ r => r) ?_ ?_ hn hm
  · intro n data
    rw [badKeyIn]
    cases takeRecord data <;> rfl
  · intro n
    cases n <;> rfl

theorem badKeyIn_eq (hn : data.length ≤ n) :
    badKeyIn n data =
      match takeRecord data with
      | .truncated => false
      | .badKey => true
      | .entry _ _ rest => badKeyIn n rest := by
  rw [badKeyIn_fuel hn (Nat.le_succ_of_le hn), badKeyIn]

variable {start stop : Option Key}

theorem scanBlock_of_good (h : badKeyIn n data = false) :
    ∃ rows, scanBlock start stop n data = .ok rows := by
  induction n generalizing data with
  | zero => exact ⟨_, rfl⟩
  | succ n ih =>
    rw [badKeyIn] at h
    rw [scanBlock]
    cases ht : takeRecord data with
    | truncated => exact ⟨_, rfl⟩
    | badKey =>
      rw [ht] at h
      cases h
    | entry k v rest =>
      rw [ht] at h
      obtain ⟨rows, hrows⟩ := ih h
      simp only [hrows]
      exact ⟨_, rfl⟩

theorem findInBlock_of_bad {key : Key} (h : badKeyIn n data = true) :
    findInBlock key n data ≠ .ok none := by
  induction n generalizing data with
  | zero => cases h
  | succ n ih =>
    rw [badKeyIn] at h
    rw [findInBlock]
    cases ht : takeRecord data with
    | truncated =>
      rw [ht] at h
      cases h
    | badKey =>
      intro hnone
      cases hnone
    | entry k v rest =>
      rw [ht] at h
      dsimp only
      split
      · intro hnone
        cases hnone
      · exact ih h

/-- What one round of a scan with any limit can do. -/
theorem scanStep_cases (limit : Option Nat) {bytes : Bytes} {pos : Nat} (out : List Op)
    (hlen : bytes.length < 2 ^ 63) (hpos : pos ≤ bytes.length) :
    ∃ r, scanStep start stop limit bytes (out, pos) = .ok r ∧
      ((∃ k v rest out', takeRecord (bytes.drop pos) = .entry k v rest ∧
          r = .inl (out', bytes.length - rest.length)) ∨
        (takeRecord (bytes.drop pos) = .truncated ∧ r = .inr (.ok (out, false))) ∨
        r = .inr (.error utf8Error) ∨ ∃ out', r = .inr (.ok (out', true))) := by
  rw [scanStep, entryAt_u64 hlen hpos, Checked.ok_bind]
  cases takeRecord (bytes.drop pos) with
  | truncated => exact ⟨_, rfl, .inr (.inl ⟨rfl, rfl⟩)⟩
  | badKey => exact ⟨_, rfl, .inr (.inr (.inl rfl))⟩
  | entry k v rest =>
    dsimp only [RecordHead.at]
    split
    · split
      · exact ⟨_, rfl, .inr (.inr (.inr ⟨_, rfl⟩))⟩
      · exact ⟨_, rfl, .inl ⟨k, v, rest, _, rfl, rfl⟩⟩
    · exact ⟨_, rfl, .inl ⟨k, v, rest, _, rfl, rfl⟩⟩

/-- A scan with any limit comes to the end of a block, and not beyond a bad key. -/
theorem scanLoop_returns (limit : Option Nat) {bytes : Bytes} (hlen : bytes.length < 2 ^ 63)
    (out : List Op) :
    ∃ r, Checked.loop (scanStep start stop limit bytes) (bytes.length + 1) (out, 0) = .ok r ∧
      (badKeyIn bytes.length bytes = true → ∀ out', r ≠ .ok (out', false)) := by
  have hloop : (∃ r, Checked.loop (scanStep start stop limit bytes) (bytes.length + 1) (out, 0) =
        .ok r ∧ (badKeyIn bytes.length bytes = true → ∀ out', r ≠ .ok (out', false))) ∨
      ∃ e, Checked.loop (scanStep start stop limit bytes) (bytes.length + 1) (out, 0) = .error e ∧
        False :=
    Checked.loop_rule
      (fun s => s.2 ≤ bytes.length ∧ badKeyIn bytes.length (bytes.drop s.2) =
        badKeyIn bytes.length bytes) (fun s => bytes.length - s.2)
      ?_ ?_ ?_ ⟨Nat.zero_le _, rfl⟩ (Nat.lt_succ_self _)
  · rcases hloop with h | ⟨e, -, hfalse⟩
    · exact h
    · exact hfalse.elim
  · rintro ⟨out, pos⟩ s' ⟨hpos, hbad⟩ hstep
    have hdrop : (bytes.drop pos).length ≤ bytes.length := by
      rw [List.length_drop]
      omega
    obtain ⟨r, heq, hr⟩ := scanStep_cases limit out hlen hpos
    cases heq.symm.trans hstep
    obtain ⟨k, v, rest, out', ht, hr⟩ | ⟨-, hr⟩ | hr | ⟨out', hr⟩ := hr
    · cases hr
      obtain ⟨hnext, hlt⟩ := drop_next ht
      rw [badKeyIn_eq hdrop, ht] at hbad
      refine ⟨⟨Nat.sub_le _ _, ?_⟩, by dsimp only; omega⟩
      rw [hnext, ← hbad]
    · cases hr
    · cases hr
    · cases hr
  · rintro ⟨out, pos⟩ b ⟨hpos, hbad⟩ hstep hall out'
    have hdrop : (bytes.drop pos).length ≤ bytes.length := by
      rw [List.length_drop]
      omega
    obtain ⟨r, heq, hr⟩ := scanStep_cases limit out hlen hpos
    cases heq.symm.trans hstep
    obtain ⟨k, v, rest, out', -, hr⟩ | ⟨ht, hr⟩ | hr | ⟨out', hr⟩ := hr
    · cases hr
    · rw [badKeyIn_eq hdrop, ht, hall] at hbad
      cases hbad
    · cases hr
      exact nofun
    · cases hr
      exact nofun
  · rintro ⟨out, pos⟩ e ⟨hpos, -⟩ hstep
    obtain ⟨r, heq, -⟩ := scanStep_cases limit out hlen hpos
    cases heq.symm.trans hstep

/-! ## The walks over the index -/

namespace SstView

variable {crc32 : Bytes → UInt32} {v : SstView}

theorem between_length_lt (b : BlockMeta) : (v.between b).length < 2 ^ 63 := by
  have hdata := v.data.length_lt
  rw [between, List.length_take, List.length_drop]
  omega

theorem blockBytes_of_refused {b : BlockMeta} (h : v.Refused crc32 b) :
    ∃ e, v.blockBytes crc32 b = .ok (.error e) := by
  obtain ⟨hfit, hout | hcrc⟩ := h
  · rw [SstView.blockBytes, Word.add_of_lt (t := u64) hfit, Checked.ok_bind, if_pos hout]
    exact ⟨_, rfl⟩
  · have hinside := v.inside
    rw [SstView.blockBytes, Word.add_of_lt (t := u64) hfit, Checked.ok_bind]
    split
    · exact ⟨_, rfl⟩
    · rw [Checked.slice_of_le (by omega) (by omega), Checked.ok_bind, Nat.add_sub_cancel_left]
      exact ⟨_, if_pos hcrc⟩

theorem blockBytes_of_read {b : BlockMeta} (hover : ¬ b.Overflows) (h : ¬ v.Refused crc32 b) :
    v.blockBytes crc32 b = .ok (.ok (v.between b)) := by
  have hinside := v.inside
  have hfit : b.offset + b.len < 2 ^ 64 := Nat.lt_of_not_le hover
  have hin : ¬ v.footerOffset < b.offset + b.len := fun hout => h ⟨hfit, .inl hout⟩
  have hcrc : ¬ crc32 (v.between b) ≠ b.crc := fun hcrc => h ⟨hfit, .inr hcrc⟩
  rw [SstView.blockBytes, Word.add_of_lt (t := u64) hfit, Checked.ok_bind, if_neg hin,
    Checked.slice_of_le (by omega) (by omega), Checked.ok_bind, Nat.add_sub_cancel_left]
  exact if_neg hcrc

/-- The checksum loop returns when an overflowing block never comes before a refused one. -/
theorem allBlocks_returns_iff (hashed : Bytes) : (v.allBlocks crc32 v.footer.index hashed).Returns ↔
    Checked.Shielded BlockMeta.Overflows (v.Refused crc32) v.footer.index := by
  have hgo : ∀ (b : BlockMeta) l s, ¬ b.Overflows → ¬ v.Refused crc32 b →
      ∃ s', v.allBlocks crc32 (b :: l) s = v.allBlocks crc32 l s' := by
    intro b l s hover href
    refine ⟨s ++ v.between b, ?_⟩
    rw [allBlocks, blockBytes_of_read hover href]
    rfl
  constructor
  · refine Checked.shielded_of_returns (f := v.allBlocks crc32) ?_ hgo
    intro b l s hb
    rw [allBlocks, blockBytes_overflow hb]
    exact Checked.not_returns_error _
  · intro h
    refine Checked.returns_of_shielded (f := v.allBlocks crc32) (fun s => ⟨_, rfl⟩) ?_ h hashed
    intro b l s hb
    by_cases href : v.Refused crc32 b
    · obtain ⟨e, he⟩ := blockBytes_of_refused href
      rw [allBlocks, he]
      exact .inl ⟨_, rfl⟩
    · exact .inr ⟨href, hgo b l s hb href⟩

theorem verify_returns_iff : (v.verifyFileCrc crc32).Returns ↔
    Checked.Shielded BlockMeta.Overflows (v.Refused crc32) v.footer.index := by
  rw [← allBlocks_returns_iff [], verifyFileCrc]
  rcases v.allBlocks crc32 v.footer.index [] with e | e | hashed
  · exact ⟨nofun, nofun⟩
  · exact ⟨fun _ => ⟨_, rfl⟩, fun _ => ⟨_, rfl⟩⟩
  · refine ⟨fun _ => ⟨_, rfl⟩, fun _ => ?_⟩
    rw [Checked.ok_bind]
    dsimp only
    split
    · exact ⟨_, rfl⟩
    · exact ⟨_, rfl⟩

/-- A scan comes to the block and the block overflows. -/
def ScanTraps (start stop : Option Key) (b : BlockMeta) : Prop :=
  overlaps start stop b.minKey b.maxKey = true ∧ b.Overflows

/-- A scan comes to the block and gives up there. -/
def ScanEnds (crc32 : Bytes → UInt32) (v : SstView) (start stop : Option Key) (b : BlockMeta) : Prop :=
  overlaps start stop b.minKey b.maxKey = true ∧ v.GivesUp crc32 b

theorem scan_returns {start stop : Option Key} (limit : Option Nat)
    (h : Checked.Shielded (ScanTraps start stop) (v.ScanEnds crc32 start stop) v.footer.index) :
    (v.scanWithTombstones crc32 start stop limit).Returns := by
  refine Checked.returns_of_shielded (f := v.scanBlocks crc32 start stop limit)
    (fun s => ⟨_, rfl⟩) ?_ h []
  intro b l s hb
  by_cases hreach : overlaps start stop b.minKey b.maxKey = true
  · have hover : ¬ b.Overflows := fun hover => hb ⟨hreach, hover⟩
    rw [scanBlocks, if_pos hreach]
    by_cases href : v.Refused crc32 b
    · obtain ⟨e, he⟩ := blockBytes_of_refused href
      rw [he]
      exact .inl ⟨_, rfl⟩
    · rw [blockBytes_of_read hover href, Checked.ok_bind]
      obtain ⟨r, hr, hbad⟩ := scanLoop_returns limit (between_length_lt b) s
      dsimp only
      rw [hr, Checked.ok_bind]
      rcases r with e | ⟨out, _ | _⟩
      · exact .inl ⟨_, rfl⟩
      · refine .inr ⟨?_, out, rfl⟩
        rintro ⟨-, href' | ⟨-, hbadKey⟩⟩
        · exact href href'
        · exact hbad hbadKey out rfl
      · exact .inl ⟨_, rfl⟩
  · refine .inr ⟨fun hends => hreach hends.1, s, ?_⟩
    rw [scanBlocks, if_neg hreach]

/-- An unlimited scan returns only then. -/
theorem shielded_of_scan {start stop : Option Key}
    (h : (v.scanWithTombstones crc32 start stop none).Returns) :
    Checked.Shielded (ScanTraps start stop) (v.ScanEnds crc32 start stop) v.footer.index := by
  refine Checked.shielded_of_returns (f := v.scanBlocks crc32 start stop none) ?_ ?_ h
  · rintro b l s ⟨hreach, hover⟩
    rw [scanBlocks, if_pos hreach, blockBytes_overflow hover]
    exact Checked.not_returns_error _
  · intro b l s htraps hends
    by_cases hreach : overlaps start stop b.minKey b.maxKey = true
    · have hover : ¬ b.Overflows := fun hover => htraps ⟨hreach, hover⟩
      have href : ¬ v.Refused crc32 b := fun href => hends ⟨hreach, .inl href⟩
      have hgood : badKeyIn (v.between b).length (v.between b) = false :=
        Bool.eq_false_iff.mpr fun hbad => hends ⟨hreach, .inr ⟨Nat.lt_of_not_le hover, hbad⟩⟩
      obtain ⟨rows, hrows⟩ := scanBlock_of_good hgood
      refine ⟨s ++ rows, ?_⟩
      rw [scanBlocks, if_pos hreach, blockBytes_of_read hover href, Checked.ok_bind]
      dsimp only
      rw [scanBlockAt_eq (between_length_lt b), hrows]
      rfl
    · refine ⟨s, ?_⟩
      rw [scanBlocks, if_neg hreach]

/-- The point lookup comes to the block. -/
def KeyIn (key : Key) (b : BlockMeta) : Prop := ¬ (key < b.minKey ∨ b.maxKey < key)

theorem mayContain_returns (key : Key) : (v.mayContain crc32 key).Returns := by
  have hprobes : ∀ (bits : Bytes) (m : Nat), m ≠ 0 → ∀ is, (probesAt crc32 bits m key is).Returns := by
    intro bits m hm is
    induction is with
    | nil => exact ⟨_, rfl⟩
    | cons i is ih =>
      rw [probesAt, Checked.rem_of_ne hm, Checked.ok_bind]
      split
      · exact ih
      · exact ⟨_, rfl⟩
  rw [mayContain]
  split
  · exact ⟨_, rfl⟩
  · split
    · exact ⟨_, rfl⟩
    · rename_i hm
      split
      · exact ⟨_, rfl⟩
      · exact hprobes _ _ hm _

theorem get_returns {key : Key}
    (h : Checked.Shielded (fun b => KeyIn key b ∧ b.Overflows)
      (fun b => KeyIn key b ∧ v.GivesUp crc32 b) v.footer.index) :
    (v.getOption crc32 key).Returns := by
  have hwalk : (v.findInBlocks crc32 key v.footer.index).Returns := by
    refine Checked.returns_of_shielded (f := fun l (_ : Unit) => v.findInBlocks crc32 key l)
      (fun s => ⟨_, rfl⟩) ?_ h ()
    intro b l _ hb
    by_cases hreach : KeyIn key b
    · have hover : ¬ b.Overflows := fun hover => hb ⟨hreach, hover⟩
      rw [findInBlocks, if_neg hreach]
      by_cases href : v.Refused crc32 b
      · obtain ⟨e, he⟩ := blockBytes_of_refused href
        rw [he]
        exact .inl ⟨_, rfl⟩
      · rw [blockBytes_of_read hover href, Checked.ok_bind]
        dsimp only
        rw [findInBlockAt_eq (between_length_lt b), Checked.ok_bind]
        rcases hfind : findInBlock key (v.between b).length (v.between b) with e | _ | found
        · exact .inl ⟨_, rfl⟩
        · refine .inr ⟨?_, (), rfl⟩
          rintro ⟨-, href' | ⟨-, hbad⟩⟩
          · exact href href'
          · exact findInBlock_of_bad hbad hfind
        · exact .inl ⟨_, rfl⟩
    · refine .inr ⟨fun hends => hreach hends.1, (), ?_⟩
      rw [findInBlocks, if_pos (not_not.mp hreach)]
  obtain ⟨may, hmay⟩ := mayContain_returns (v := v) key
  rw [getOption, hmay, Checked.ok_bind]
  split
  · exact hwalk
  · exact ⟨_, rfl⟩

theorem collect_returns_iff (start stop : Option Key) :
    ((v.scanIter start stop).collect crc32).Returns ↔
      (v.scanWithTombstones crc32 start stop none).Returns := by
  have hin : (v.scanIter start stop).Inside := ⟨rfl, nofun, nofun⟩
  rw [SstScan.collect_eq_rows hin, SstScan.rows_closed crc32 rfl, scanWithTombstones, scanBlocks_eq,
    Checked.returns_map]
  rfl

/-! ## All readers -/

theorem overlaps_iff (start stop : Option Key) (minKey maxKey : Key) :
    overlaps start stop minKey maxKey = true ↔
      (∀ s ∈ start, s ≤ maxKey) ∧ ∀ e ∈ stop, minKey ≤ e := by
  cases start <;> cases stop <;> simp [overlaps]

theorem readers_return_iff : v.ReadersReturn crc32 ↔ v.Guarded crc32 := by
  constructor
  · intro h pre m post hsplit hm
    refine ⟨verify_returns_iff.mp h.verify pre m post hsplit hm, ?_⟩
    -- the narrowest range that comes to the block
    have hreach : overlaps (some m.maxKey) (some m.minKey) m.minKey m.maxKey = true := by
      rw [overlaps_iff]
      simp
    obtain ⟨b, hmem, hover, hends⟩ :=
      shielded_of_scan (h.scan (some m.maxKey) (some m.minKey) none) pre m post hsplit ⟨hreach, hm⟩
    rw [overlaps_iff] at hover
    exact ⟨b, hmem, ⟨hover.2 _ rfl, hover.1 _ rfl⟩, hends⟩
  · intro h
    have hscan : ∀ start stop, Checked.Shielded (ScanTraps start stop)
        (v.ScanEnds crc32 start stop) v.footer.index := by
      rintro start stop pre m post hsplit ⟨hreach, hm⟩
      obtain ⟨b, hmem, ⟨hmin, hmax⟩, hb⟩ := (h pre m post hsplit hm).2
      rw [overlaps_iff] at hreach
      refine ⟨b, hmem, ?_, hb⟩
      rw [overlaps_iff]
      exact ⟨fun s hs => le_trans (hreach.1 s hs) hmax, fun e he => le_trans hmin (hreach.2 e he)⟩
    refine ⟨?_, ?_, fun start stop limit => scan_returns limit (hscan start stop), ?_⟩
    · exact verify_returns_iff.mpr fun pre m post hsplit hm => (h pre m post hsplit hm).1
    · refine fun key => get_returns ?_
      rintro pre m post hsplit ⟨hreach, hm⟩
      obtain ⟨b, hmem, ⟨hmin, hmax⟩, hb⟩ := (h pre m post hsplit hm).2
      rw [KeyIn, not_or, not_lt, not_lt] at hreach
      refine ⟨b, hmem, ?_, hb⟩
      rw [KeyIn, not_or, not_lt, not_lt]
      exact ⟨le_trans hmin hreach.1, le_trans hreach.2 hmax⟩
    · exact fun start stop => (collect_returns_iff start stop).mpr
        (scan_returns none (hscan start stop))

end SstView

/-- `parse` returns on the bytes, and if it accepts them every reader returns on the result. -/
def SafeToRead (codec : FooterCodec) (crc32 : Bytes → UInt32) (data : ByteVec) : Prop :=
  (SstView.parse codec data).Returns ∧
    ∀ v, SstView.parse codec data = .ok (.ok v) → v.ReadersReturn crc32

/-- An object can be read without a trap exactly when its index is guarded. -/
theorem hostile_sst_iff (codec : FooterCodec) (crc32 : Bytes → UInt32) (data : ByteVec) :
    SafeToRead codec crc32 data ↔
      ∀ v, SstView.parse codec data = .ok (.ok v) → v.Guarded crc32 := by
  constructor
  · rintro ⟨-, hread⟩ v hv
    exact SstView.readers_return_iff.mp (hread v hv)
  · intro h
    exact ⟨SstView.parse_returns codec data, fun v hv => SstView.readers_return_iff.mpr (h v hv)⟩

/-- One block at the last offset of all. -/
def hostileFooter : SstFooter := ⟨[⟨"a", "a", 2 ^ 64 - 1, 1, 0⟩], [], 3, 0, 0⟩

/-- The footer as JSON with a correct trailer, and no block. -/
def hostileObject : ByteVec := ⟨sstTail hostileFooter.json, by decide +kernel⟩

def hostileView : SstView := ⟨hostileObject, hostileFooter, 0, Nat.zero_le _⟩

theorem parse_hostileObject :
    SstView.parse footerJson.toFooterCodec hostileObject = .ok (.ok hostileView) := by
  have hread : footerJson.fromSlice hostileFooter.json = .ok hostileFooter := by
    decide +kernel
  have hbytes : hostileObject.bytes = [] ++ sstTail hostileFooter.json := rfl
  rw [SstView.parse_of_tail footerJson.toFooterCodec hbytes (by decide +kernel), hread]
  rfl

/-- The object is parsed, and then the checksum of the file overflows. -/
theorem hostile_offset_traps : ¬ SafeToRead footerJson.toFooterCodec crc32 hostileObject := by
  rintro ⟨-, hread⟩
  have htrap : hostileView.verifyFileCrc crc32 = .error .overflow := by decide +kernel
  have hverify := (hread hostileView parse_hostileObject).verify
  exact Checked.not_returns_error _ hverify

end OxKv
