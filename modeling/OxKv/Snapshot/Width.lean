import OxKv.Format.SstScan
import OxKv.Snapshot.Load

/-!
The three decoders of length-prefixed records on a machine with 32-bit words.

`next_record`, `decode_wal_records` and `decode_entry` add lengths of up to `u32::MAX`, which they
have just read, to positions, and compare afterwards. On a 64-bit target the sums always fit. On a
32-bit target they fit exactly as long as the bytes behind the last whole record announce lengths
that fit: a whole record is no longer than the input.

* `RecordDecoder.nextRecordAt_of_fit`, `RecordDecoder.nextRecordAt_overflow`: one record;
* `loadStreamAt_of_fit`, `loadStreamAt_overflow`: `load_stream` over any chunks;
* `narrow_decoders_iff`: when the three decoders work at 32 bits as they do at 64.
-/

namespace OxKv.Snapshot

/-! ## The code -/

namespace RecordDecoder

/-- `&self.buf[self.pos..]`. -/
def availAt (d : RecordDecoder) : Checked Bytes := .slice d.buf d.pos d.buf.length

def validateHeaderAt (t : Word) (d : RecordDecoder) : Checked (Res (Bool × RecordDecoder)) := do
  let avail ← d.availAt
  if magic.length ≤ avail.length ∧ avail.take magic.length ≠ magic then .ok (.error missingMagic)
  else if avail.length < headerLen then .ok (.ok (false, d))
  else do
    let found ← readU32At t avail magic.length
    if found ≠ version then .ok (.error (unsupportedVersion found))
    else do
      let pos ← t.add d.pos headerLen
      .ok (.ok (true, { d with pos := pos, headerValidated := true }))

def nextRecordAt (t : Word) (utf8Text : Bytes → String) (d : RecordDecoder) :
    Checked (Res (Option KeyValue × RecordDecoder)) := do
  let avail ← d.availAt
  if avail.length < 4 then .ok (.ok (none, d))
  else do
    let keyLen ← readU32At t avail 0
    let valueStart ← t.add 4 keyLen
    if avail.length < valueStart then .ok (.ok (none, d))
    else do
      let valueEnd ← t.add valueStart 4
      if avail.length < valueEnd then .ok (.ok (none, d))
      else do
        let valLen ← readU32At t avail valueStart
        let stop ← t.add valueEnd valLen
        if avail.length < stop then .ok (.ok (none, d))
        else do
          let keyPart ← Checked.slice avail 4 valueStart
          match keyOfBytes keyPart with
          | none => .ok (.error (.utf8Slice (utf8Text keyPart)))
          | some key => do
            let value ← Checked.slice avail valueEnd stop
            let pos ← t.add d.pos stop
            .ok (.ok (some (key, value), { d with pos := pos }))

def compactAt (t : Word) (d : RecordDecoder) : Checked RecordDecoder :=
  if 0 < d.pos then do
    -- `self.pos * 2`
    let twice ← t.add d.pos d.pos
    if d.buf.length ≤ twice then do
      let rest ← d.availAt
      .ok { d with buf := rest, pos := 0 }
    else .ok d
  else .ok d

end RecordDecoder

section Code

variable (t : Word) (utf8Text : Bytes → String) (map : BTreeStore)

/-- One round of the inner loop. -/
def drainStep (l : Loading) : Checked (Loading ⊕ Res Loading) := do
  match ← l.decoder.nextRecordAt t utf8Text with
  | .error e => .ok (.inr (.error e))
  | .ok (none, d) => .ok (.inr (.ok { l with decoder := d }))
  | .ok (some (key, value), d) =>
    match l.tx.setBytes map key value with
    | (.error e, _) => .ok (.inr (.error e))
    | (.ok _, tx) => do
      let count ← t.add l.count 1
      .ok (.inl ⟨d, tx, count⟩)

def drainAndCompactAt (l : Loading) : Checked (Res Loading) := do
  match ← Checked.loop (drainStep t utf8Text map) (l.decoder.buf.length + 1) l with
  | .error e => .ok (.error e)
  | .ok l => do
    let d ← l.decoder.compactAt t
    .ok (.ok { l with decoder := d })

/-- One round of the outer loop. -/
def loadChunkAt (l : Loading) (chunk : Bytes) : Checked (Res Loading) :=
  let d := l.decoder.push chunk
  if d.headerValidated then drainAndCompactAt t utf8Text map { l with decoder := d }
  else do
    match ← d.validateHeaderAt t with
    | .error e => .ok (.error e)
    | .ok (false, d) => .ok (.ok { l with decoder := d })
    | .ok (true, d) => drainAndCompactAt t utf8Text map { l with decoder := d }

def loadChunksAt : List (Res Bytes) → Loading → Checked (Res Loading)
  | [], l => .ok (.ok l)
  | .error e :: _, _ => .ok (.error e)
  | .ok chunk :: items, l => do
    match ← loadChunkAt t utf8Text map l chunk with
    | .error e => .ok (.error e)
    | .ok l => loadChunksAt items l

end Code

/-- `load_stream` into a `BTreeStore`. -/
def loadStreamAt (t : Word) (utf8Text : Bytes → String) (s : BTree) (items : List (Res Bytes)) :
    Checked (Res Nat × BTree) := do
  match ← loadChunksAt t utf8Text s.map items ⟨.new, s.beginTx, 0⟩ with
  | .error e => .ok (.error e, s)
  | .ok l =>
    if !l.decoder.headerValidated then .ok (.error truncatedHeader, s)
    else if !l.decoder.isEmpty then .ok (.error truncatedRecord, s)
    else
      match l.tx.commit s with
      | (.error e, s) => .ok (.error e, s)
      | (.ok (), s) => .ok (.ok l.count, s)

/-! ## One record -/

/-- The lengths at the front of some bytes fit, as far as they are looked at. -/
def HeadFits (bits : Nat) (rest : Bytes) : Prop :=
  4 ≤ rest.length → 4 + readU32 rest < 2 ^ bits ∧
    (4 + readU32 rest + 4 ≤ rest.length →
      4 + readU32 rest + 4 + readU32 (rest.drop (4 + readU32 rest)) < 2 ^ bits)

variable {data : Bytes}

/-- Fewer bytes are looked at less closely. -/
theorem HeadFits.of_append {bits : Nat} (more : Bytes) (h : HeadFits bits (data ++ more)) :
    HeadFits bits data := by
  intro h4
  have hread := readU32_append h4 more
  obtain ⟨hk, hv⟩ := h (by rw [List.length_append]; omega)
  rw [hread] at hk hv
  refine ⟨hk, fun hin => ?_⟩
  have hvalue := hv (by rw [List.length_append]; omega)
  rwa [List.drop_append_of_le_length (by omega),
    readU32_append (by rw [List.length_drop]; omega)] at hvalue

namespace RecordDecoder

variable {t : Word} {utf8Text : Bytes → String} {d : RecordDecoder}

theorem availAt_eq (h : d.Fits) : d.availAt = .ok d.avail := by
  rw [availAt, Checked.slice_of_le h (Nat.le_refl _), avail, List.take_of_length_le]
  rw [List.length_drop]

theorem validateHeaderAt_eq (h : d.Fits) (ht : d.buf.length < 2 ^ t.bits) :
    d.validateHeaderAt t = .ok d.validateHeader := by
  have hlen : d.avail.length = d.buf.length - d.pos := List.length_drop
  have hpos : d.pos ≤ d.buf.length := h
  rw [validateHeaderAt, availAt_eq h, Checked.ok_bind, validateHeader]
  split
  · rfl
  · split
    · rfl
    · have h8 : headerLen = magic.length + 4 := rfl
      rw [readU32At_of_le (by omega) (by omega), Checked.ok_bind]
      dsimp only
      split
      · rfl
      · rw [Word.add_of_lt (by omega), Checked.ok_bind]

theorem compactAt_eq (h : d.Fits) (ht : d.buf.length + d.buf.length < 2 ^ t.bits) :
    d.compactAt t = .ok d.compact := by
  have hpos : d.pos ≤ d.buf.length := h
  rw [compactAt, compact]
  by_cases h0 : 0 < d.pos
  · rw [if_pos h0, Word.add_of_lt (by omega), Checked.ok_bind]
    by_cases h2 : d.buf.length ≤ d.pos + d.pos
    · rw [if_pos h2, if_pos ⟨h0, by omega⟩, availAt_eq h]
      rfl
    · rw [if_neg h2, if_neg (by omega)]
  · rw [if_neg h0, if_neg (by omega)]

theorem nextRecordAt_of_fit (h : d.Fits) (ht : d.buf.length + 4 < 2 ^ t.bits)
    (hfit : HeadFits t.bits d.avail) :
    d.nextRecordAt t utf8Text = .ok (d.nextRecord utf8Text) := by
  have hlen : d.avail.length = d.buf.length - d.pos := List.length_drop
  have hpos : d.pos ≤ d.buf.length := h
  rw [nextRecordAt, availAt_eq h, Checked.ok_bind, nextRecord]
  by_cases h4 : d.avail.length < 4
  · rw [if_pos h4, if_pos h4]
  · obtain ⟨hk, hv⟩ := hfit (by omega)
    rw [if_neg h4, if_neg h4, readU32At_of_le (by omega) (by omega), List.drop_zero, Checked.ok_bind,
      Word.add_of_lt hk, Checked.ok_bind]
    by_cases hkey : d.avail.length < 4 + readU32 d.avail
    · rw [if_pos hkey, if_pos hkey]
    · rw [if_neg hkey, if_neg hkey, Word.add_of_lt (by omega), Checked.ok_bind]
      by_cases hval : d.avail.length < 4 + readU32 d.avail + 4
      · rw [if_pos hval, if_pos hval]
      · have hstop := hv (by omega)
        rw [if_neg hval, if_neg hval, readU32At_of_le (by omega) (by omega), Checked.ok_bind,
          Word.add_of_lt hstop, Checked.ok_bind]
        by_cases hcut : d.avail.length < 4 + readU32 d.avail + 4 +
            readU32 (d.avail.drop (4 + readU32 d.avail))
        · rw [if_pos hcut, if_pos hcut]
        · rw [if_neg hcut, if_neg hcut, Checked.slice_of_le (by omega) (by omega), Checked.ok_bind,
            Nat.add_sub_cancel_left]
          dsimp only
          cases keyOfBytes ((d.avail.drop 4).take (readU32 d.avail)) with
          | none => rfl
          | some key =>
            dsimp only
            rw [Checked.slice_of_le (by omega) (by omega), Checked.ok_bind,
              Word.add_of_lt (by omega), Checked.ok_bind, Nat.add_sub_cancel_left]

theorem nextRecordAt_overflow (htrap : t.wraps = false) (h : d.Fits)
    (ht : d.buf.length + 4 < 2 ^ t.bits) (hfit : ¬ HeadFits t.bits d.avail) :
    d.nextRecordAt t utf8Text = .error .overflow := by
  have hlen : d.avail.length = d.buf.length - d.pos := List.length_drop
  have hpos : d.pos ≤ d.buf.length := h
  have h4 : 4 ≤ d.avail.length := by
    by_contra h4
    exact hfit fun h => absurd h h4
  rw [nextRecordAt, availAt_eq h, Checked.ok_bind, if_neg (by omega),
    readU32At_of_le (by omega) (by omega), List.drop_zero, Checked.ok_bind]
  rcases Nat.lt_or_ge (4 + readU32 d.avail) (2 ^ t.bits) with hk | hk
  · -- the value length is the one that does not fit
    have hv : 4 + readU32 d.avail + 4 ≤ d.avail.length ∧ 2 ^ t.bits ≤ 4 + readU32 d.avail + 4 +
        readU32 (d.avail.drop (4 + readU32 d.avail)) := by
      by_contra hno
      refine hfit fun _ => ⟨hk, fun hin => ?_⟩
      by_contra hlt
      exact hno ⟨hin, Nat.le_of_not_lt hlt⟩
    rw [Word.add_of_lt hk, Checked.ok_bind, if_neg (by omega), Word.add_of_lt (by omega),
      Checked.ok_bind, if_neg (by omega), readU32At_of_le (by omega) (by omega), Checked.ok_bind,
      Word.add_of_le htrap hv.2, Checked.error_bind]
  · rw [Word.add_of_le htrap hk, Checked.error_bind]

end RecordDecoder

/-! ## Streams of records -/

section Streams

variable {utf8Text : Bytes → String}

variable {data : Bytes}

/-- A record that is whole, or has a bad key, is inside the bytes. -/
theorem takeEntry_inside (h : takeEntry utf8Text data ≠ .ok none) :
    4 + readU32 data + 4 + readU32 (data.drop (4 + readU32 data)) ≤ data.length := by
  unfold takeEntry at h
  split at h
  · exact absurd rfl h
  · omega

variable {bits : Nat}

/-- The lengths of a whole record fit wherever its bytes do. -/
theorem headFits_of_takeEntry {more : Bytes} (h : takeEntry utf8Text (data ++ more) ≠ .ok none)
    (hlen : (data ++ more).length < 2 ^ bits) : HeadFits bits data := by
  have hin := takeEntry_inside h
  refine HeadFits.of_append more fun _ => ⟨by omega, fun _ => by omega⟩

/-- The lengths behind the whole records fit. -/
def StreamFits (utf8Text : Bytes → String) (bits : Nat) (data : Bytes) : Prop :=
  ∀ kvs rest, entries utf8Text data = .ok (kvs, rest) → HeadFits bits rest

theorem StreamFits.next {rest : Bytes} {kv : KeyValue}
    (h : takeEntry utf8Text data = .ok (some (kv, rest))) :
    StreamFits utf8Text bits data ↔ StreamFits utf8Text bits rest := by
  have hentries := @entries_eq utf8Text data
  rw [h] at hentries
  dsimp only at hentries
  constructor
  · intro hfits kvs rest' hrest
    rw [hrest] at hentries
    exact hfits _ _ hentries
  · intro hfits kvs rest' hdata
    rw [hdata] at hentries
    rcases hrest : entries utf8Text rest with e | x <;> rw [hrest] at hentries
    · cases hentries
    · cases hentries
      exact hfits _ _ hrest

/-- The front of a stream fits, whether or not its first record has arrived. -/
theorem StreamFits.head {more : Bytes} (h : StreamFits utf8Text bits (data ++ more))
    (hlen : (data ++ more).length < 2 ^ bits) : HeadFits bits data := by
  by_cases htake : takeEntry utf8Text (data ++ more) = .ok none
  · refine HeadFits.of_append more (h [] _ ?_)
    rw [entries_eq, htake]
  · exact headFits_of_takeEntry htake hlen

end Streams

/-! ## `load_stream` -/

section Load

variable {utf8Text : Bytes → String} {map : BTreeStore}

theorem avail_length_le (d : RecordDecoder) : d.avail.length ≤ d.buf.length := by
  rw [RecordDecoder.avail, List.length_drop]
  omega

/-- What the inner loop keeps while `more` is still to come: the counters stay below the number of
bytes, and the lengths of the stream that is left fit. -/
structure OnTrack (utf8Text : Bytes → String) (bits total : Nat) (more : Bytes) (l : Loading) :
    Prop where
  cursor : l.decoder.Fits
  validated : l.decoder.headerValidated = true
  buffer : l.decoder.buf.length + more.length ≤ total
  count : l.count + l.decoder.avail.length + more.length ≤ total
  stream : StreamFits utf8Text bits (l.decoder.avail ++ more)

/-- One round of the inner loop without machine words. -/
def drainRound (utf8Text : Bytes → String) (map : BTreeStore) (l : Loading) : Loading ⊕ Res Loading :=
  match l.decoder.nextRecord utf8Text with
  | .error e => .inr (.error e)
  | .ok (none, d) => .inr (.ok { l with decoder := d })
  | .ok (some (key, value), d) =>
    match l.tx.setBytes map key value with
    | (.error e, _) => .inr (.error e)
    | (.ok _, tx) => .inl ⟨d, tx, l.count + 1⟩

theorem drain_succ (fuel : Nat) (l : Loading) :
    drain utf8Text map (fuel + 1) l =
      match drainRound utf8Text map l with
      | .inl l' => drain utf8Text map fuel l'
      | .inr r => r := by
  rw [drain, drainRound]
  rcases l.decoder.nextRecord utf8Text with e | ⟨_ | ⟨key, value⟩, d⟩
  · rfl
  · rfl
  · dsimp only
    rcases l.tx.setBytes map key value with ⟨e | _, tx⟩ <;> rfl

section Step

variable {t : Word} {total : Nat} {more : Bytes} {l : Loading}

/-- A machine word has room for twice the number of bytes. -/
structure Roomy (t : Word) (total : Nat) : Prop where
  twice : 2 * total < 2 ^ t.bits
  some : 3 ≤ t.bits

theorem Roomy.four {total' : Nat} (h : Roomy t total) (hle : total' ≤ total) :
    total' + 4 < 2 ^ t.bits := by
  have htwice := h.twice
  have hpow : 2 ^ 3 ≤ 2 ^ t.bits := Nat.pow_le_pow_right (by decide) h.some
  omega

theorem drainStep_eq (ht : Roomy t total) (h : OnTrack utf8Text t.bits total more l) :
    drainStep t utf8Text map l = .ok (drainRound utf8Text map l) := by
  have hbuffer := h.buffer
  have hcount := h.count
  have havail := avail_length_le l.decoder
  have hroom := ht.four (Nat.le_refl total)
  have hhead : HeadFits t.bits l.decoder.avail :=
    h.stream.head (by rw [List.length_append]; omega)
  rw [drainStep, RecordDecoder.nextRecordAt_of_fit h.cursor (by omega) hhead, Checked.ok_bind,
    drainRound]
  rcases l.decoder.nextRecord utf8Text with e | ⟨_ | ⟨key, value⟩, d⟩
  · rfl
  · rfl
  · dsimp only
    rcases l.tx.setBytes map key value with ⟨e | _, tx⟩
    · rfl
    · dsimp only
      rw [Word.add_of_lt (by omega), Checked.ok_bind]

variable {bits : Nat}

/-- A round that goes on has taken a record off the stream; one that ends the inner loop leaves the
decoder where it is. -/
theorem OnTrack.round (h : OnTrack utf8Text bits total more l) :
    match drainRound utf8Text map l with
    | .inl l' => OnTrack utf8Text bits total more l' ∧
        l'.decoder.avail.length < l.decoder.avail.length
    | .inr (.ok l') => OnTrack utf8Text bits total more l'
    | .inr (.error _) => True := by
  have hcount := h.count
  rw [drainRound, RecordDecoder.nextRecord_eq]
  rcases htake : takeEntry utf8Text l.decoder.avail with e | _ | ⟨⟨key, value⟩, rest⟩
  · trivial
  · exact h
  · dsimp only
    obtain ⟨hlen, hrest⟩ := takeEntry_rest htake
    obtain ⟨hfit, havail⟩ := RecordDecoder.advance_spec hlen h.cursor
    rw [← hrest] at havail
    have hshort := takeEntry_length utf8Text htake
    have happend := takeEntry_append more (by rw [htake]; nofun : takeEntry utf8Text _ ≠ .ok none)
    rw [htake] at happend
    rcases l.tx.setBytes map key value with ⟨e | _, tx⟩
    · trivial
    · refine ⟨⟨hfit, h.validated, h.buffer, ?_, ?_⟩, ?_⟩ <;> dsimp only <;> rw [havail]
      · omega
      · exact (StreamFits.next happend).mp h.stream
      · exact hshort

theorem loop_drainStep (ht : Roomy t total) {fuel n : Nat}
    (h : OnTrack utf8Text t.bits total more l) (hfuel : l.decoder.avail.length < fuel)
    (hn : l.decoder.avail.length ≤ n) :
    Checked.loop (drainStep t utf8Text map) fuel l = .ok (drain utf8Text map n l) ∧
      ∀ l', drain utf8Text map n l = .ok l' → OnTrack utf8Text t.bits total more l' := by
  induction n generalizing fuel l with
  | zero =>
    obtain ⟨fuel, rfl⟩ := Nat.exists_eq_add_of_lt hfuel
    have hnil : l.decoder.avail = [] := List.eq_nil_of_length_eq_zero (by omega)
    have hround : drainRound utf8Text map l = .inr (.ok l) := by
      rw [drainRound, RecordDecoder.nextRecord_eq, hnil]
      rfl
    refine ⟨Checked.loop_done ((drainStep_eq ht h).trans (by rw [hround]; rfl)), ?_⟩
    rintro l' ⟨⟩
    exact h
  | succ n ih =>
    obtain ⟨fuel, rfl⟩ : ∃ k, fuel = k + 1 := ⟨fuel - 1, by omega⟩
    have hstep : drainStep t utf8Text map l = .ok (drainRound utf8Text map l) :=
      drainStep_eq ht h
    have hnext := @OnTrack.round utf8Text map _ _ _ _ h
    rw [drain_succ]
    rcases hround : drainRound utf8Text map l with l' | r <;> rw [hround] at hstep hnext
    · rw [Checked.loop_next hstep]
      exact ih hnext.1 (by omega) (by omega)
    · refine ⟨Checked.loop_done hstep, ?_⟩
      rintro l' rfl
      exact hnext

theorem OnTrack.compact (h : OnTrack utf8Text bits total more l) :
    OnTrack utf8Text bits total more { l with decoder := l.decoder.compact } := by
  obtain ⟨hfit, havail, hvalid⟩ := RecordDecoder.compact_spec h.cursor
  have hbuf : l.decoder.compact.buf.length ≤ l.decoder.buf.length := by
    rw [RecordDecoder.compact]
    split
    · rw [List.length_drop]
      omega
    · exact Nat.le_refl _
  have hbuffer := h.buffer
  refine ⟨hfit, hvalid.trans h.validated, ?_, ?_, ?_⟩
  · dsimp only
    omega
  · rw [havail]
    exact h.count
  · rw [havail]
    exact h.stream

theorem drainAndCompactAt_eq (ht : Roomy t total) (h : OnTrack utf8Text t.bits total more l) :
    drainAndCompactAt t utf8Text map l = .ok (drainAndCompact utf8Text map l) ∧
      ∀ l', drainAndCompact utf8Text map l = .ok l' → OnTrack utf8Text t.bits total more l' := by
  have havail := avail_length_le l.decoder
  obtain ⟨hloop, htrack⟩ := loop_drainStep ht h (Nat.lt_succ_of_le havail) havail
  rw [drainAndCompactAt, hloop, Checked.ok_bind, drainAndCompact]
  cases hdrain : drain utf8Text map l.decoder.buf.length l with
  | error e => exact ⟨rfl, fun _ h => (by cases h)⟩
  | ok l1 =>
    have h1 := htrack l1 hdrain
    have hbuffer := h1.buffer
    have htwice := ht.twice
    dsimp only
    rw [RecordDecoder.compactAt_eq h1.cursor (by omega), Checked.ok_bind]
    refine ⟨rfl, ?_⟩
    rintro l' ⟨⟩
    exact h1.compact

/-- The lengths behind the whole records of a snapshot fit. -/
def SnapshotFits (utf8Text : Bytes → String) (bits : Nat) (data : Bytes) : Prop :=
  ∀ kvs rest, parse utf8Text data = .ok (some (kvs, rest)) → HeadFits bits rest

theorem streamFits_iff {data : Bytes} (h : checkHeader data = .ok true) :
    SnapshotFits utf8Text bits data ↔ StreamFits utf8Text bits (data.drop headerLen) := by
  constructor
  · intro hfits kvs rest hentries
    refine hfits kvs rest ?_
    rw [parse, h, hentries]
    rfl
  · exact fun hfits kvs rest hdata => hfits kvs rest (parse_some hdata).2

/-- What the outer loop keeps between two chunks while `more` is still to come. -/
structure Between (utf8Text : Bytes → String) (bits total : Nat) (more : Bytes) (l : Loading) :
    Prop where
  cursor : l.decoder.Fits
  buffer : l.decoder.buf.length + more.length ≤ total
  count : l.count + l.decoder.avail.length + more.length ≤ total
  waiting : l.decoder.headerValidated = false →
    SnapshotFits utf8Text bits (l.decoder.avail ++ more)
  stream : l.decoder.headerValidated = true → StreamFits utf8Text bits (l.decoder.avail ++ more)

theorem OnTrack.between (h : OnTrack utf8Text bits total more l) :
    Between utf8Text bits total more l :=
  ⟨h.cursor, h.buffer, h.count, fun hnot => absurd (h.validated.symm.trans hnot) nofun,
    fun _ => h.stream⟩

/-- One more chunk. -/
theorem loadChunkAt_eq (ht : Roomy t total) {chunk : Bytes}
    (h : Between utf8Text t.bits total (chunk ++ more) l) :
    loadChunkAt t utf8Text map l chunk = .ok (loadChunk utf8Text map l chunk) ∧
      ∀ l', loadChunk utf8Text map l chunk = .ok l' → Between utf8Text t.bits total more l' := by
  have hpush := RecordDecoder.avail_push h.cursor chunk
  have hbuf : (l.decoder.push chunk).buf.length = l.decoder.buf.length + chunk.length :=
    List.length_append
  have hbuffer := h.buffer
  have hcount := h.count
  rw [List.length_append] at hbuffer hcount
  rw [loadChunkAt, loadChunk]
  cases hvalid : (l.decoder.push chunk).headerValidated with
  | true =>
    have htrack : OnTrack utf8Text t.bits total more { l with decoder := l.decoder.push chunk } := by
      refine ⟨h.cursor.push chunk, hvalid, ?_, ?_, ?_⟩
      · dsimp only
        omega
      · dsimp only
        rw [hpush, List.length_append]
        omega
      · rw [hpush, List.append_assoc]
        exact h.stream hvalid
    obtain ⟨heq, hnext⟩ := drainAndCompactAt_eq ht htrack
    rw [if_pos rfl, if_pos rfl]
    exact ⟨heq, fun l' hl' => (hnext l' hl').between⟩
  | false =>
    have hwaiting := h.waiting hvalid
    rw [← List.append_assoc, ← hpush] at hwaiting
    have hroom := ht.four (Nat.le_refl total)
    rw [if_neg Bool.false_ne_true, if_neg Bool.false_ne_true,
      RecordDecoder.validateHeaderAt_eq (h.cursor.push chunk) (by omega), Checked.ok_bind,
      RecordDecoder.validateHeader_eq]
    cases hcheck : checkHeader (l.decoder.push chunk).avail with
    | error e => exact ⟨rfl, nofun⟩
    | ok valid =>
      cases valid with
      | false =>
        refine ⟨rfl, ?_⟩
        rintro l' ⟨⟩
        refine ⟨h.cursor.push chunk, ?_, ?_, fun _ => hwaiting, fun hv => ?_⟩
        · dsimp only
          omega
        · dsimp only
          rw [hpush, List.length_append]
          omega
        · cases hvalid.symm.trans hv
      | true =>
        have hlen := headerLen_le hcheck
        obtain ⟨hfit, hdrop⟩ := RecordDecoder.advance_spec hlen (h.cursor.push chunk)
        have hall : checkHeader ((l.decoder.push chunk).avail ++ more) = .ok true :=
          (checkHeader_append more (by rw [hcheck]; nofun)).trans hcheck
        rw [streamFits_iff hall, List.drop_append_of_le_length hlen] at hwaiting
        have htrack : OnTrack utf8Text t.bits total more { l with decoder :=
            { (l.decoder.push chunk).advance headerLen with headerValidated := true } } := by
          refine ⟨hfit, rfl, ?_, ?_, ?_⟩
          · show (l.decoder.push chunk).buf.length + more.length ≤ total
            omega
          · show l.count + ((l.decoder.push chunk).advance headerLen).avail.length + more.length ≤ total
            rw [hdrop, List.length_drop, hpush, List.length_append]
            omega
          · show StreamFits utf8Text t.bits (((l.decoder.push chunk).advance headerLen).avail ++ more)
            rw [hdrop]
            exact hwaiting
        obtain ⟨heq, hnext⟩ := drainAndCompactAt_eq ht htrack
        exact ⟨heq, fun l' hl' => (hnext l' hl').between⟩

theorem loadChunksAt_eq (ht : Roomy t total) {chunks : List Bytes}
    (h : Between utf8Text t.bits total chunks.flatten l) :
    loadChunksAt t utf8Text map (chunks.map .ok) l =
      .ok (loadChunks utf8Text map (chunks.map .ok) l) := by
  induction chunks generalizing l with
  | nil => rfl
  | cons chunk chunks ih =>
    obtain ⟨heq, hnext⟩ := loadChunkAt_eq ht h
    rw [List.map_cons, loadChunksAt, heq, Checked.ok_bind, loadChunks]
    cases hchunk : loadChunk utf8Text map l chunk with
    | error e => rfl
    | ok l' => exact ih (hnext l' hchunk)

end Step

theorem loadStreamAt_of_fit {t : Word} {chunks : List Bytes} (ht : Roomy t chunks.flatten.length)
    (hfit : SnapshotFits utf8Text t.bits chunks.flatten) (s : BTree) :
    loadStreamAt t utf8Text s (chunks.map .ok) = .ok (loadStream utf8Text s (chunks.map .ok)) := by
  have hstart : Between utf8Text t.bits chunks.flatten.length chunks.flatten
      ⟨.new, s.beginTx, 0⟩ := by
    refine ⟨Nat.le_refl _, ?_, ?_, fun _ => hfit, nofun⟩
    · exact Nat.le_of_eq (Nat.zero_add _)
    · exact Nat.le_of_eq (Nat.zero_add _)
  rw [loadStreamAt, loadChunksAt_eq ht hstart, Checked.ok_bind, loadStream]
  cases loadChunks utf8Text s.map (chunks.map .ok) ⟨.new, s.beginTx, 0⟩ with
  | error e => rfl
  | ok l =>
    dsimp only
    split
    · rfl
    · split
      · rfl
      · rcases l.tx.commit s with ⟨e | _, s'⟩ <;> rfl

/-- On a machine that traps, the inner loop comes to the lengths that do not fit. -/
theorem loop_drainStep_overflow (map : BTreeStore) {t : Word} (htrap : t.wraps = false) {total : Nat}
    (ht : Roomy t total) {l : Loading} (hv : l.tx.validators = []) (hcursor : l.decoder.Fits)
    (hbuffer : l.decoder.buf.length ≤ total) (hcount : l.count + l.decoder.avail.length ≤ total)
    {kvs : List KeyValue} {rest : Bytes}
    (hentries : entries utf8Text l.decoder.avail = .ok (kvs, rest)) (hfit : ¬ HeadFits t.bits rest)
    {fuel : Nat} (hfuel : l.decoder.avail.length < fuel) :
    Checked.loop (drainStep t utf8Text map) fuel l = .error .overflow := by
  induction fuel generalizing l kvs with
  | zero => omega
  | succ fuel ih =>
    have hroom := ht.four hbuffer
    have htotal := ht.four (Nat.le_refl total)
    have havail := avail_length_le l.decoder
    rw [entries_eq] at hentries
    rcases htake : takeEntry utf8Text l.decoder.avail with e | _ | ⟨⟨key, value⟩, next⟩ <;>
      rw [htake] at hentries
    · cases hentries
    · cases hentries
      refine Checked.loop_trap ?_
      rw [drainStep, RecordDecoder.nextRecordAt_overflow htrap hcursor hroom hfit,
        Checked.error_bind]
    · dsimp only at hentries
      have htake' : takeEntry utf8Text (l.decoder.avail ++ []) ≠ .ok none := by
        rw [List.append_nil, htake]
        nofun
      have hhead : HeadFits t.bits l.decoder.avail :=
        headFits_of_takeEntry htake' (by rw [List.append_nil]; omega)
      obtain ⟨hlen, hnext⟩ := takeEntry_rest htake
      obtain ⟨hcursor', havail'⟩ := RecordDecoder.advance_spec hlen hcursor
      rw [← hnext] at havail'
      have hshort := takeEntry_length utf8Text htake
      have hstep : drainStep t utf8Text map l = .ok (.inl ⟨l.decoder.advance
          (4 + readU32 l.decoder.avail + 4 +
            readU32 (l.decoder.avail.drop (4 + readU32 l.decoder.avail))),
          l.tx.record ⟨key, .set, l.tx.getBytes map key, some value⟩, l.count + 1⟩) := by
        rw [drainStep, RecordDecoder.nextRecordAt_of_fit hcursor hroom hhead, Checked.ok_bind,
          RecordDecoder.nextRecord_eq, htake]
        dsimp only
        rw [setBytes_unvalidated hv]
        dsimp only
        rw [Word.add_of_lt (by omega), Checked.ok_bind]
      rcases hmore : entries utf8Text next with e | x <;> rw [hmore] at hentries
      · cases hentries
      · cases hentries
        rw [Checked.loop_next hstep]
        refine ih hv hcursor' hbuffer ?_ (by rw [havail']; exact hmore) ?_ <;> dsimp only <;>
          rw [havail'] <;> omega

theorem loadStreamAt_overflow {t : Word} (htrap : t.wraps = false) {data : Bytes}
    (ht : Roomy t data.length) (hfit : ¬ SnapshotFits utf8Text t.bits data) {s : BTree}
    (hv : s.validators = []) :
    loadStreamAt t utf8Text s [.ok data] = .error .overflow := by
  obtain ⟨kvs, hfit⟩ := not_forall.mp hfit
  obtain ⟨rest, hfit⟩ := not_forall.mp hfit
  obtain ⟨hparse, hrest⟩ := Classical.not_imp.mp hfit
  have hroom := ht.four (Nat.le_refl _)
  obtain ⟨hcheck, hentries⟩ := parse_some hparse
  have hlen := headerLen_le hcheck
  have hloop := loop_drainStep_overflow s.map htrap ht
    (l := ⟨⟨data, headerLen, true⟩, s.beginTx, 0⟩) hv hlen (Nat.le_refl _)
    (by
      show 0 + (data.drop headerLen).length ≤ data.length
      rw [List.length_drop]
      omega) hentries hrest
    (show (data.drop headerLen).length < data.length + 1 by
      rw [List.length_drop]
      omega)
  have hheader : RecordDecoder.validateHeaderAt t ⟨data, 0, false⟩ =
      .ok (.ok (true, ⟨data, headerLen, true⟩)) := by
    rw [RecordDecoder.validateHeaderAt_eq (d := ⟨data, 0, false⟩) (Nat.zero_le _)
      (show data.length < 2 ^ t.bits by omega), RecordDecoder.validateHeader_eq,
      show RecordDecoder.avail ⟨data, 0, false⟩ = data from rfl, hcheck]
    rfl
  have hchunk : loadChunkAt t utf8Text s.map ⟨.new, s.beginTx, 0⟩ data = .error .overflow := by
    show ((do
      match ← RecordDecoder.validateHeaderAt t ⟨data, 0, false⟩ with
      | .error e => .ok (.error e)
      | .ok (false, d) => .ok (.ok ⟨d, s.beginTx, 0⟩)
      | .ok (true, d) => drainAndCompactAt t utf8Text s.map ⟨d, s.beginTx, 0⟩) :
        Checked (Res Loading)) = _
    rw [hheader, Checked.ok_bind]
    dsimp only
    rw [drainAndCompactAt, hloop, Checked.error_bind]
  rw [loadStreamAt, loadChunksAt, hchunk, Checked.error_bind, Checked.error_bind]

end Load

/-! ## The three decoders -/

theorem roomy_narrow (w : Bool) {n : Nat} (h : n < 2 ^ 31) : Roomy ⟨32, w⟩ n :=
  ⟨show 2 * n < 2 ^ 32 by omega, show 3 ≤ 32 by decide⟩

theorem roomy_u64 {n : Nat} (h : n < 2 ^ 31) : Roomy u64 n :=
  ⟨show 2 * n < 2 ^ 64 by omega, show 3 ≤ 64 by decide⟩

theorem headFits_u64 (rest : Bytes) : HeadFits u64.bits rest := by
  have hk := readU32_lt rest
  have hv := readU32_lt (rest.drop (4 + readU32 rest))
  exact fun _ => ⟨show 4 + readU32 rest < 2 ^ 64 by omega, fun _ => show 4 + readU32 rest + 4 +
    readU32 (rest.drop (4 + readU32 rest)) < 2 ^ 64 by omega⟩

theorem decodeWal_agree_iff (hlen : data.length < 2 ^ 31) :
    (∀ w, Checked.Agree (decodeWalAt ⟨32, w⟩ data) (decodeWalAt u64 data)) ↔ WalFits 32 data 0 :=
  Checked.agree_iff
    (decodeWalAt_of_fit (show data.length + 4 < 2 ^ 64 by omega)
      (lengthsFit_of_wide (show _ + 2 ^ 34 ≤ 2 ^ 64 by omega) _))
    (fun hfit w => decodeWalAt_of_fit (t := ⟨32, w⟩) (show data.length + 4 < 2 ^ 32 by omega) hfit)
    fun hfit => decodeWalAt_overflow (t := ⟨32, false⟩) rfl
      (show data.length + 4 < 2 ^ 32 by omega) hfit

theorem decodeEntry_agree_iff (hlen : data.length < 2 ^ 31) {pos : Nat} (hpos : pos ≤ data.length) :
    (∀ w, Checked.Agree (decodeEntry ⟨32, w⟩ data pos) (decodeEntry u64 data pos)) ↔
      LengthsFit 32 pos (data.drop pos) := by
  refine Checked.agree_iff (e := .overflow) (decodeEntry_u64 (show data.length < 2 ^ 63 by omega) hpos)
    (fun hfit w => decodeEntry_of_fit (t := ⟨32, w⟩) hpos
      (show data.length + 4 < 2 ^ 32 by omega) hfit) (fun hfit => ?_)
  rw [decodeEntry, entryAt_overflow (t := ⟨32, false⟩) rfl hpos
    (show data.length + 4 < 2 ^ 32 by omega) hfit, Checked.error_bind]

theorem loadStream_agree_iff (hlen : data.length < 2 ^ 31) (utf8Text : Bytes → String) :
    (∀ (s : BTree) (chunks : List Bytes), chunks.flatten = data → ∀ w,
        Checked.Agree (loadStreamAt ⟨32, w⟩ utf8Text s (chunks.map .ok))
          (loadStreamAt u64 utf8Text s (chunks.map .ok))) ↔ SnapshotFits utf8Text 32 data := by
  constructor
  · intro h
    by_contra hfit
    obtain ⟨_, hok, -⟩ := h ⟨SortedMap.empty, [], Subscribers.new⟩ [data] (List.flatten_singleton ..)
      false
    rw [List.map_singleton, loadStreamAt_overflow (t := ⟨32, false⟩) rfl (roomy_narrow false hlen)
      hfit rfl] at hok
    cases hok
  · rintro hfit s chunks rfl w
    exact ⟨_, loadStreamAt_of_fit (t := ⟨32, w⟩) (roomy_narrow w hlen) hfit s,
      loadStreamAt_of_fit (roomy_u64 hlen) (fun _ rest _ => headFits_u64 rest) s⟩

/-- With 32-bit words, wrapping or trapping, the decoders return what they return with 64-bit
words exactly when the lengths behind the last whole record fit. -/
theorem narrow_decoders_iff (data : Bytes) (hlen : data.length < 2 ^ 31)
    (utf8Text : Bytes → String) :
    ((∀ (s : BTree) (chunks : List Bytes), chunks.flatten = data → ∀ w,
        Checked.Agree (loadStreamAt ⟨32, w⟩ utf8Text s (chunks.map .ok))
          (loadStreamAt u64 utf8Text s (chunks.map .ok))) ↔ SnapshotFits utf8Text 32 data) ∧
      ((∀ w, Checked.Agree (decodeWalAt ⟨32, w⟩ data) (decodeWalAt u64 data)) ↔
        WalFits 32 data 0) ∧
      ∀ pos ≤ data.length,
        ((∀ w, Checked.Agree (decodeEntry ⟨32, w⟩ data pos) (decodeEntry u64 data pos)) ↔
          LengthsFit 32 pos (data.drop pos)) :=
  ⟨loadStream_agree_iff hlen utf8Text, decodeWal_agree_iff hlen,
    fun _ hpos => decodeEntry_agree_iff hlen hpos⟩

/-- A record whose value is missing. -/
def tornRecord : Bytes := (recordBytes ("b", some [2])).take 9

/-- A log or a block that ends in the torn record. -/
def tornLog : Bytes := recordBytes ("a", some [1]) ++ tornRecord

theorem narrow_decoders_iff_torn :
    (∀ (s : BTree) (chunks : List Bytes), chunks.flatten = header ++ tornLog → ∀ w,
        Checked.Agree (loadStreamAt ⟨32, w⟩ (fun _ => "") s (chunks.map .ok))
          (loadStreamAt u64 (fun _ => "") s (chunks.map .ok))) ∧
      (∀ w, Checked.Agree (decodeWalAt ⟨32, w⟩ tornLog) (decodeWalAt u64 tornLog)) ∧
      ∀ w, Checked.Agree (decodeEntry ⟨32, w⟩ tornLog 10) (decodeEntry u64 tornLog 10) := by
  have hall := narrow_decoders_iff tornLog (by decide +kernel) fun _ => ""
  refine ⟨(narrow_decoders_iff (header ++ tornLog) (by decide +kernel) fun _ => "").1.mpr ?_,
    hall.2.1.mpr fun _ => by decide +kernel, (hall.2.2 10 (by decide +kernel)).mpr fun _ => by
      decide +kernel⟩
  intro kvs rest h
  have hparse : parse (fun _ => "") (header ++ tornLog) =
      .ok (some ([("a", [1])], tornRecord)) := by
    decide +kernel
  cases hparse.symm.trans h
  exact fun _ => by decide +kernel

/-- A key length of `2^32 - 4`, and nothing more. -/
def longKeyLen : Bytes := [0xfc, 0xff, 0xff, 0xff]

/-- The length wraps around to zero or traps, and none of the decoders returns. -/
theorem longKeyLen_not_decoded :
    (∀ w, ¬ Checked.Agree (decodeWalAt ⟨32, w⟩ longKeyLen) (decodeWalAt u64 longKeyLen)) ∧
      (∀ w, ¬ Checked.Agree (decodeEntry ⟨32, w⟩ longKeyLen 0) (decodeEntry u64 longKeyLen 0)) ∧
      ∀ w, ¬ Checked.Agree
        (loadStreamAt ⟨32, w⟩ (fun _ => "") ⟨SortedMap.empty, [], Subscribers.new⟩
          [.ok (header ++ longKeyLen)])
        (loadStreamAt u64 (fun _ => "") ⟨SortedMap.empty, [], Subscribers.new⟩
          [.ok (header ++ longKeyLen)]) := by
  refine ⟨?_, ?_, ?_⟩
  · rintro (_ | _) ⟨_, h, -⟩
    · cases h
    · cases h
  · rintro (_ | _) ⟨_, h, -⟩
    · cases h
    · cases h
  · rintro (_ | _) ⟨_, h, -⟩
    · cases h
    · cases h

end OxKv.Snapshot
