import OxKv.Format.SstView

/-!
`SstScan`, the lazy scan of an SST file: an iterator that remembers the open block and the
position in it.

* `SstScan.rows`: what the iterator still has to give, by the eager reading of the blocks;
* `SstScan.round_spec`: one round of `next` keeps it, or gives its first row;
* `lazy_scan_eq_eager`: so collecting the iterator is `scan_with_tombstones`.
-/

namespace OxKv

/-! ## The code -/

structure SstScan where
  file : SstView
  start : Option Key
  stop : Option Key
  blockIdx : Nat
  block : Option Bytes
  pos : Nat
  done : Bool

def SstView.scanIter (v : SstView) (start stop : Option Key) : SstScan :=
  ⟨v, start, stop, 0, none, 0, false⟩

namespace SstScan

/-- The part of a round of `next` behind the choice of a block. -/
def pull (s : SstScan) : Checked (SstScan ⊕ (Option (Res Op) × SstScan)) := do
  match ← decodeEntry u64 (s.block.getD []) s.pos with
  | .error e => .ok (.inr (some (.error e), { s with done := true }))
  | .ok none => .ok (.inl { s with block := none })
  | .ok (some (key, value, next)) =>
    if inRange s.start s.stop key then
      .ok (.inr (some (.ok (key, value)), { s with pos := next }))
    else .ok (.inl { s with pos := next })

def opened (s : SstScan) (bytes : Bytes) : SstScan :=
  { s with blockIdx := s.blockIdx + 1, block := some bytes, pos := 0 }

section Next

variable (crc32 : Bytes → UInt32)

/-- One round of the loop of `next`. -/
def round (s : SstScan) : Checked (SstScan ⊕ (Option (Res Op) × SstScan)) :=
  match s.block with
  | some _ => s.pull
  | none =>
    match s.file.footer.index[s.blockIdx]? with
    | none => .ok (.inr (none, s))
    | some b =>
      if overlaps s.start s.stop b.minKey b.maxKey then do
        match ← s.file.blockBytes crc32 b with
        | .error e =>
          .ok (.inr (some (.error e), { s with blockIdx := s.blockIdx + 1, done := true }))
        | .ok bytes => (s.opened bytes).pull
      else .ok (.inl { s with blockIdx := s.blockIdx + 1 })

def roundBound (v : SstView) : Nat := (v.footer.index.length + 1) * (v.footerOffset + 2)

def next (s : SstScan) : Checked (Option (Res Op) × SstScan) :=
  if s.done then .ok (none, s) else Checked.loop (round crc32) (roundBound s.file) s

def collectStep (c : List Op × SstScan) : Checked ((List Op × SstScan) ⊕ Res (List Op)) := do
  match ← c.2.next crc32 with
  | (none, _) => .ok (.inr (.ok c.1))
  | (some (.error e), _) => .ok (.inr (.error e))
  | (some (.ok row), s) => .ok (.inl (c.1 ++ [row], s))

/-- The rows of an iterator up to its end or its first error. -/
def collect (s : SstScan) : Checked (Res (List Op)) :=
  Checked.loop (collectStep crc32) (roundBound s.file) ([], s)

end Next

end SstScan

/-! ## What is still to come -/

/-- The rows of one block and then those of the others. -/
def thenRows (found : Res (List Op)) (others : Checked (Res (List Op))) : Checked (Res (List Op)) :=
  match found with
  | .error e => .ok (.error e)
  | .ok rows => others.map (Except.map (rows ++ ·))

section Rows

variable (crc32 : Bytes → UInt32)

/-- The rows of the blocks from a place of the index on. -/
def SstView.rowsOf (v : SstView) (start stop : Option Key) : List BlockMeta → Checked (Res (List Op))
  | [] => .ok (.ok [])
  | b :: bs =>
    if overlaps start stop b.minKey b.maxKey then do
      match ← v.blockBytes crc32 b with
      | .error e => .ok (.error e)
      | .ok bytes => thenRows (scanBlock start stop bytes.length bytes) (v.rowsOf start stop bs)
    else v.rowsOf start stop bs

def SstScan.rows (s : SstScan) : Checked (Res (List Op)) :=
  let others := s.file.rowsOf crc32 s.start s.stop (s.file.footer.index.drop s.blockIdx)
  match s.block with
  | none => others
  | some bytes => thenRows (scanBlock s.start s.stop bytes.length (bytes.drop s.pos)) others

end Rows

/-! ## The eager scan -/

theorem map_thenRows (found : Res (List Op)) (others : Checked (Res (List Op))) (out : List Op) :
    (thenRows found others).map (Except.map (out ++ ·)) =
      match found with
      | .error e => .ok (.error e)
      | .ok rows => others.map (Except.map (out ++ rows ++ ·)) := by
  rcases found with e | rows
  · rfl
  · rcases others with e | e | rest
    · rfl
    · rfl
    · simp [thenRows, Except.map]

theorem map_nil_append (rows : Checked (Res (List Op))) :
    rows.map (Except.map ([] ++ ·)) = rows := by
  rcases rows with e | e | rows <;> rfl

theorem SstView.scanBlocks_eq {crc32 : Bytes → UInt32} (v : SstView) (start stop : Option Key)
    (bs : List BlockMeta) (out : List Op) :
    v.scanBlocks crc32 start stop none bs out =
      (v.rowsOf crc32 start stop bs).map (Except.map (out ++ ·)) := by
  induction bs generalizing out with
  | nil => simp [SstView.scanBlocks, SstView.rowsOf, Except.map]
  | cons b bs ih =>
    rw [SstView.scanBlocks, SstView.rowsOf]
    split
    · rcases Nat.lt_or_ge (b.offset + b.len) (2 ^ 64) with hlt | hge
      · rw [SstView.blockBytes_of_lt hlt, Checked.ok_bind, Checked.ok_bind]
        cases hbytes : v.file.blockBytes crc32 b with
        | error e => rfl
        | ok bytes =>
          have hlen : bytes.length < 2 ^ 63 :=
            Nat.lt_of_le_of_lt (SstFile.blockBytes_length hbytes) v.file_length_lt
          dsimp only
          rw [scanBlockAt_eq hlen, Checked.ok_bind, map_thenRows]
          cases scanBlock start stop bytes.length bytes with
          | error e => rfl
          | ok rows => exact ih (out ++ rows)
      · rw [SstView.blockBytes_overflow hge]
        rfl
    · exact ih out

/-! ## One round -/

theorem scanBlock_fuel {start stop : Option Key} {n m : Nat} {data : Bytes} (hn : data.length ≤ n)
    (hm : data.length ≤ m) : scanBlock start stop n data = scanBlock start stop m data := by
  refine record_fuel (fun _ => .ok []) (fun _ => .error utf8Error) (fun key value r => r.map fun out =>
    if inRange start stop key then (key, value) :: out else out) ?_ ?_ hn hm
  · intro n data
    rw [scanBlock]
    cases takeRecord data with
    | truncated | badKey => rfl
    | entry key value rest =>
      dsimp only [RecordHead.round]
      cases scanBlock start stop n rest <;> rfl
  · intro n
    cases n <;> rfl

theorem scanBlock_eq {start stop : Option Key} {n : Nat} {data : Bytes} (hn : data.length ≤ n) :
    scanBlock start stop n data =
      match takeRecord data with
      | .truncated => .ok []
      | .badKey => .error utf8Error
      | .entry key value rest =>
        match scanBlock start stop n rest with
        | .error e => .error e
        | .ok out => .ok (if inRange start stop key then (key, value) :: out else out) := by
  exact (scanBlock_fuel hn (Nat.le_succ_of_le hn)).trans rfl

theorem decodeEntry_u64 {bytes : Bytes} {pos : Nat} (hlen : bytes.length < 2 ^ 63)
    (hpos : pos ≤ bytes.length) :
    decodeEntry u64 bytes pos = .ok (match takeRecord (bytes.drop pos) with
      | .truncated => .ok none
      | .badKey => .error utf8Error
      | .entry key value rest => .ok (some (key, value, bytes.length - rest.length))) :=
  decodeEntry_of_fit hpos (show bytes.length + 4 < 2 ^ 64 by omega)
    (lengthsFit_of_wide (show pos + 2 ^ 34 ≤ 2 ^ 64 by omega) _)

namespace SstScan

/-- The open block is a part of the file and the position is inside it. -/
structure Inside (s : SstScan) : Prop where
  done : s.done = false
  short : ∀ bytes, s.block = some bytes → bytes.length ≤ s.file.footerOffset
  pos : ∀ bytes, s.block = some bytes → s.pos ≤ bytes.length

/-- Rounds that are still to come, at most. -/
def left (s : SstScan) : Nat :=
  (s.file.footer.index.length - s.blockIdx) * (s.file.footerOffset + 2) +
    match s.block with
    | none => 0
    | some _ => s.file.footerOffset + 1 - s.pos

variable {crc32 : Bytes → UInt32}

/-- What a round says about the rows that are still to come. -/
def Tells (crc32 : Bytes → UInt32) (s : SstScan) : Option (Res Op) × SstScan → Prop
  | (none, _) => s.rows crc32 = .ok (.ok [])
  | (some (.error e), _) => s.rows crc32 = .ok (.error e)
  | (some (.ok row), s') => s'.Inside ∧ s'.left < s.left ∧ s'.file = s.file ∧
      s.rows crc32 = (s'.rows crc32).map (Except.map (row :: ·))

/-- The round goes on without an item. -/
def GoesOn (crc32 : Bytes → UInt32) (s s' : SstScan) : Prop :=
  s'.Inside ∧ s'.left < s.left ∧ s'.file = s.file ∧ s'.rows crc32 = s.rows crc32

variable {s : SstScan} {bytes : Bytes}

theorem rows_open (crc32 : Bytes → UInt32) (hblock : s.block = some bytes) :
    s.rows crc32 = thenRows (scanBlock s.start s.stop bytes.length (bytes.drop s.pos))
      (s.file.rowsOf crc32 s.start s.stop (s.file.footer.index.drop s.blockIdx)) := by
  rw [rows, hblock]

theorem rows_closed (crc32 : Bytes → UInt32) (hblock : s.block = none) :
    s.rows crc32 = s.file.rowsOf crc32 s.start s.stop (s.file.footer.index.drop s.blockIdx) := by
  rw [rows, hblock]

/-- A step to the next position of the open block. -/
theorem Inside.advance (h : s.Inside) (hblock : s.block = some bytes) {next : Nat}
    (hlt : s.pos < next) (hle : next ≤ bytes.length) :
    ({ s with pos := next } : SstScan).Inside ∧ ({ s with pos := next } : SstScan).left < s.left := by
  have hshort := h.short bytes hblock
  refine ⟨⟨h.done, h.short, ?_⟩, ?_⟩
  · rintro bytes' hblock'
    cases hblock.symm.trans hblock'
    exact hle
  · simp only [left, hblock]
    omega

/-- `decode_entry` never traps inside a block. -/
theorem pull_spec (h : s.Inside) (hblock : s.block = some bytes) :
    (∃ s', s.pull = .ok (.inl s') ∧ GoesOn crc32 s s') ∨
      ∃ out, s.pull = .ok (.inr out) ∧ Tells crc32 s out := by
  have hshort := h.short bytes hblock
  have hpos := h.pos bytes hblock
  have hlen : bytes.length < 2 ^ 63 := by
    have h1 := s.file.inside
    have h2 := s.file.data.length_lt
    omega
  have hdrop : (bytes.drop s.pos).length ≤ bytes.length := by
    rw [List.length_drop]
    omega
  have hrows := rows_open crc32 hblock
  rw [scanBlock_eq hdrop] at hrows
  have hget : s.block.getD [] = bytes := by
    rw [hblock]
    rfl
  rw [pull, hget, decodeEntry_u64 hlen hpos, Checked.ok_bind]
  cases ht : takeRecord (bytes.drop s.pos) with
  | truncated =>
    rw [ht] at hrows
    refine .inl ⟨{ s with block := none }, rfl, ⟨h.done, nofun, nofun⟩, ?_, rfl, ?_⟩
    · simp only [left, hblock]
      omega
    · rw [rows_closed crc32 rfl, hrows]
      generalize s.file.rowsOf crc32 s.start s.stop (s.file.footer.index.drop s.blockIdx) = others
      rcases others with e | e | rest <;> rfl
  | badKey =>
    rw [ht] at hrows
    exact .inr ⟨_, rfl, hrows⟩
  | entry key value rest =>
    rw [ht] at hrows
    obtain ⟨hnext, hlt⟩ := drop_next ht
    have hadvance := h.advance hblock (show s.pos < bytes.length - rest.length by omega) (by omega)
    have hrows' := rows_open (s := { s with pos := bytes.length - rest.length }) crc32 hblock
    dsimp only at hrows' hrows
    rw [hnext] at hrows'
    dsimp only
    by_cases hin : inRange s.start s.stop key = true
    · rw [if_pos hin]
      refine .inr ⟨_, rfl, hadvance.1, hadvance.2, rfl, ?_⟩
      rw [hrows, hrows']
      cases scanBlock s.start s.stop bytes.length rest with
      | error e => rfl
      | ok rows =>
        simp only [if_pos hin]
        exact (map_thenRows (.ok rows) _ [(key, value)]).symm
    · rw [if_neg hin]
      refine .inl ⟨_, rfl, hadvance.1, hadvance.2, rfl, ?_⟩
      rw [hrows, hrows']
      cases scanBlock s.start s.stop bytes.length rest with
      | error e => rfl
      | ok rows => simp only [if_neg hin]

theorem Inside.opened (h : s.Inside) (hblock : s.block = none)
    (hidx : s.blockIdx < s.file.footer.index.length) (hbytes : bytes.length ≤ s.file.footerOffset) :
    (s.opened bytes).Inside ∧ (s.opened bytes).left < s.left := by
  refine ⟨⟨h.done, ?_, ?_⟩, ?_⟩
  · rintro bytes' ⟨⟩
    exact hbytes
  · exact fun _ _ => Nat.zero_le _
  · obtain ⟨k, hk⟩ := Nat.exists_eq_add_of_lt hidx
    have h1 : s.file.footer.index.length - s.blockIdx = k + 1 := by omega
    have h2 : s.file.footer.index.length - (s.blockIdx + 1) = k := by omega
    simp only [left, SstScan.opened, hblock, h1, h2, Nat.succ_mul]
    omega

theorem GoesOn.trans {s' s'' : SstScan} (h : GoesOn crc32 s s') (h' : GoesOn crc32 s' s'') :
    GoesOn crc32 s s'' :=
  ⟨h'.1, h'.2.1.trans h.2.1, h'.2.2.1.trans h.2.2.1, h'.2.2.2.trans h.2.2.2⟩

/-- What is told later about the same rows is told now. -/
theorem Tells.of_rows {s' : SstScan} (hrows : s'.rows crc32 = s.rows crc32)
    (hleft : s'.left ≤ s.left) (hfile : s'.file = s.file) {out : Option (Res Op) × SstScan}
    (h : Tells crc32 s' out) : Tells crc32 s out := by
  obtain ⟨_ | _ | row, s''⟩ := out
  · exact hrows.symm.trans h
  · exact hrows.symm.trans h
  · obtain ⟨hin, hlt, hsame, hs⟩ := h
    exact ⟨hin, Nat.lt_of_lt_of_le hlt hleft, hsame.trans hfile, hrows.symm.trans hs⟩

theorem round_spec (h : s.Inside) :
    (∃ s', s.round crc32 = .ok (.inl s') ∧ GoesOn crc32 s s') ∨
      (∃ out, s.round crc32 = .ok (.inr out) ∧ Tells crc32 s out) ∨
      ∃ e, s.round crc32 = .error e ∧ s.rows crc32 = .error e := by
  cases hblock : s.block with
  | some bytes =>
    rw [round, hblock]
    exact (pull_spec h hblock).imp_right .inl
  | none =>
    have hrows := rows_closed crc32 hblock
    rw [round, hblock]
    cases hidx : s.file.footer.index[s.blockIdx]? with
    | none =>
      rw [List.drop_eq_nil_of_le (List.getElem?_eq_none_iff.mp hidx)] at hrows
      exact .inr (.inl ⟨_, rfl, hrows⟩)
    | some b =>
      obtain ⟨hlt, hget⟩ := List.getElem?_eq_some_iff.mp hidx
      rw [List.drop_eq_getElem_cons hlt, hget, SstView.rowsOf] at hrows
      dsimp only
      by_cases hover : overlaps s.start s.stop b.minKey b.maxKey = true
      · rw [if_pos hover] at hrows ⊢
        rcases Nat.lt_or_ge (b.offset + b.len) (2 ^ 64) with hfit | hbig
        · rw [SstView.blockBytes_of_lt hfit, Checked.ok_bind] at hrows ⊢
          cases hbytes : s.file.file.blockBytes crc32 b with
          | error e =>
            rw [hbytes] at hrows
            exact .inr (.inl ⟨_, rfl, hrows⟩)
          | ok bytes =>
            rw [hbytes] at hrows
            have hlen := SstFile.blockBytes_length hbytes
            rw [s.file.length_file_data] at hlen
            obtain ⟨hin, hless⟩ := h.opened hblock hlt hlen
            have hopen : (s.opened bytes).rows crc32 = s.rows crc32 := by
              rw [hrows]
              exact rows_open crc32 rfl
            rcases pull_spec hin rfl with ⟨s', hpull, hon⟩ | ⟨out, hpull, htells⟩
            · exact .inl ⟨s', hpull, GoesOn.trans ⟨hin, hless, rfl, hopen⟩ hon⟩
            · exact .inr (.inl ⟨out, hpull, htells.of_rows hopen (Nat.le_of_lt hless) rfl⟩)
        · rw [SstView.blockBytes_overflow hbig] at hrows ⊢
          exact .inr (.inr ⟨_, rfl, hrows⟩)
      · rw [if_neg hover] at hrows ⊢
        refine .inl ⟨_, rfl, ⟨h.done, nofun, nofun⟩, ?_, rfl, ?_⟩
        · obtain ⟨k, hk⟩ := Nat.exists_eq_add_of_lt hlt
          have h1 : s.file.footer.index.length - s.blockIdx = k + 1 := by omega
          have h2 : s.file.footer.index.length - (s.blockIdx + 1) = k := by omega
          simp only [left, hblock, h1, h2, Nat.succ_mul]
          omega
        · rw [hrows]
          exact rows_closed crc32 rfl

theorem left_lt_bound (h : s.Inside) : s.left < roundBound s.file := by
  have hmul : (s.file.footer.index.length - s.blockIdx) * (s.file.footerOffset + 2) ≤
      s.file.footer.index.length * (s.file.footerOffset + 2) :=
    Nat.mul_le_mul_right _ (Nat.sub_le _ _)
  rw [roundBound, Nat.succ_mul, left]
  cases hblock : s.block with
  | none =>
    dsimp only
    omega
  | some bytes =>
    have hpos := h.pos bytes hblock
    dsimp only
    omega

/-- `next` gives the first of the rows that are still to come. -/
theorem next_spec (h : s.Inside) :
    (∃ out, s.next crc32 = .ok out ∧ Tells crc32 s out) ∨
      ∃ e, s.next crc32 = .error e ∧ s.rows crc32 = .error e := by
  rw [next, h.done, if_neg Bool.false_ne_true]
  refine Checked.loop_rule (fun s' => s'.Inside ∧ s'.left ≤ s.left ∧ s'.file = s.file ∧
    s'.rows crc32 = s.rows crc32) left ?_ ?_ ?_ ⟨h, Nat.le_refl _, rfl, rfl⟩ (left_lt_bound h)
  · rintro s1 s2 ⟨hin, hleft, hfile, hrows⟩ hround
    rcases round_spec hin with ⟨s', heq, hon⟩ | ⟨out, heq, -⟩ | ⟨e, heq, -⟩
    · cases heq.symm.trans hround
      exact ⟨⟨hon.1, Nat.le_trans (Nat.le_of_lt hon.2.1) hleft, hon.2.2.1.trans hfile,
        hon.2.2.2.trans hrows⟩, hon.2.1⟩
    · cases heq.symm.trans hround
    · cases heq.symm.trans hround
  · rintro s1 out ⟨hin, hleft, hfile, hrows⟩ hround
    rcases round_spec hin with ⟨s', heq, -⟩ | ⟨out', heq, htells⟩ | ⟨e, heq, -⟩
    · cases heq.symm.trans hround
    · cases heq.symm.trans hround
      exact htells.of_rows hrows hleft hfile
    · cases heq.symm.trans hround
  · rintro s1 e ⟨hin, hleft, hfile, hrows⟩ hround
    rcases round_spec hin with ⟨s', heq, -⟩ | ⟨out, heq, -⟩ | ⟨e', heq, htrap⟩
    · cases heq.symm.trans hround
    · cases heq.symm.trans hround
    · cases heq.symm.trans hround
      exact hrows.symm.trans htrap

/-- One more item of a collection, from what `next` says. -/
theorem collectStep_spec (out : List Op) (h : s.Inside) :
    (∃ row s', collectStep crc32 (out, s) = .ok (.inl (out ++ [row], s')) ∧ s'.Inside ∧
        s'.left < s.left ∧ s.rows crc32 = (s'.rows crc32).map (Except.map (row :: ·))) ∨
      (∃ r, collectStep crc32 (out, s) = .ok (.inr r) ∧
        (s.rows crc32).map (Except.map (out ++ ·)) = .ok r) ∨
      ∃ e, collectStep crc32 (out, s) = .error e ∧ s.rows crc32 = .error e := by
  rcases @next_spec crc32 s h with ⟨⟨_ | e | row, s'⟩, hnext, htells⟩ | ⟨e, hnext, htrap⟩
  · refine .inr (.inl ⟨.ok out, ?_, ?_⟩)
    · simp only [collectStep, hnext, Checked.ok_bind]
    · rw [show s.rows crc32 = .ok (.ok []) from htells]
      exact congrArg (fun rows => Except.ok (Except.ok rows)) (List.append_nil out)
  · refine .inr (.inl ⟨.error e, ?_, ?_⟩)
    · simp only [collectStep, hnext, Checked.ok_bind]
    · rw [show s.rows crc32 = .ok (.error e) from htells]
      rfl
  · obtain ⟨hin, hless, -, hrows⟩ := htells
    refine .inl ⟨row, s', ?_, hin, hless, hrows⟩
    simp only [collectStep, hnext, Checked.ok_bind]
  · refine .inr (.inr ⟨e, ?_, htrap⟩)
    simp only [collectStep, hnext, Checked.error_bind]

/-- Collecting an iterator gives all rows that are still to come. -/
theorem collect_eq_rows (h : s.Inside) : s.collect crc32 = s.rows crc32 := by
  have hloop : (∃ r, s.collect crc32 = .ok r ∧ s.rows crc32 = .ok r) ∨
      ∃ e, s.collect crc32 = .error e ∧ s.rows crc32 = .error e :=
    Checked.loop_rule
      (fun c => c.2.Inside ∧ (c.2.rows crc32).map (Except.map (c.1 ++ ·)) = s.rows crc32)
      (fun c => c.2.left) ?_ ?_ ?_ ⟨h, map_nil_append _⟩ (left_lt_bound h)
  · rcases hloop with ⟨r, heq, hr⟩ | ⟨e, heq, hr⟩
    · exact heq.trans hr.symm
    · exact heq.trans hr.symm
  · rintro ⟨out, s1⟩ c ⟨hin, hrows⟩ hstep
    rcases collectStep_spec out hin with
      ⟨row, s', heq, hin', hless, hs'⟩ | ⟨r, heq, -⟩ | ⟨e, heq, -⟩
    · cases heq.symm.trans hstep
      refine ⟨⟨hin', ?_⟩, hless⟩
      rw [← hrows]
      rw [hs']
      rcases s'.rows crc32 with e | e | rows
      · rfl
      · rfl
      · exact congrArg (fun rows => Except.ok (Except.ok rows)) (List.append_assoc out [row] rows)
    · cases heq.symm.trans hstep
    · cases heq.symm.trans hstep
  · rintro ⟨out, s1⟩ r ⟨hin, hrows⟩ hstep
    rcases collectStep_spec out hin with
      ⟨row, s', heq, -⟩ | ⟨r', heq, hr'⟩ | ⟨e, heq, -⟩
    · cases heq.symm.trans hstep
    · cases heq.symm.trans hstep
      exact hrows.symm.trans hr'
    · cases heq.symm.trans hstep
  · rintro ⟨out, s1⟩ e ⟨hin, hrows⟩ hstep
    rcases collectStep_spec out hin with
      ⟨row, s', heq, -⟩ | ⟨r', heq, -⟩ | ⟨e', heq, htrap⟩
    · cases heq.symm.trans hstep
    · cases heq.symm.trans hstep
    · cases heq.symm.trans hstep
      rw [← hrows]
      rw [htrap]
      rfl

end SstScan

/-- Collecting the lazy scan is the eager scan, on every file that can be parsed: the same rows,
or the same error, or the same trap. -/
theorem lazy_scan_eq_eager (crc32 : Bytes → UInt32) (v : SstView) (start stop : Option Key) :
    (v.scanIter start stop).collect crc32 = v.scanWithTombstones crc32 start stop none := by
  have hin : (v.scanIter start stop).Inside := ⟨rfl, nofun, nofun⟩
  rw [SstScan.collect_eq_rows hin, SstView.scanWithTombstones, SstView.scanBlocks_eq,
    map_nil_append]
  exact SstScan.rows_closed crc32 rfl

end OxKv
