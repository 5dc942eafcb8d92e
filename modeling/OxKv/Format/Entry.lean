import OxKv.Lib.Checked
import OxKv.Format.Wal

/-!
Records at positions of a buffer, with the machine arithmetic of the source.

`entryAt` is the text that `decode_entry`, `decode_wal_records` and the record loops of the
SST readers share. `LengthsFit` says that none of its additions leaves the machine word.

* `entryAt_of_fit`: then it reads what `takeRecord` finds in the bytes from the position on;
* `entryAt_overflow`: otherwise a machine that traps stops there;
* `decodeWalAt_of_fit`, `decodeWalAt_overflow`: so a WAL file is decoded without a trap exactly
  when the lengths of the record at which decoding stops fit.
-/

namespace OxKv

/-! ## The code -/

/-- `u32::from_le_bytes` of the four bytes at `pos`. -/
def readU32At (t : Word) (bytes : Bytes) (pos : Nat) : Checked Nat := do
  let b₀ ← Checked.index bytes pos
  let b₁ ← Checked.index bytes (← t.add pos 1)
  let b₂ ← Checked.index bytes (← t.add pos 2)
  let b₃ ← Checked.index bytes (← t.add pos 3)
  .ok (readU32 [b₀, b₁, b₂, b₃])

inductive EntryHead where
  | truncated
  | badKey
  | entry (key : Key) (value : Option Bytes) (next : Nat)
  deriving DecidableEq

def valueAt (t : Word) (bytes : Bytes) (key : Key) (vStart vEnd : Nat) : Checked EntryHead := do
  let vlen ← readU32At t bytes vStart
  if vlen = tombstoneVlen then .ok (.entry key none vEnd)
  else do
    let next ← t.add vEnd vlen
    if bytes.length < next then .ok .truncated
    else do
      let value ← Checked.slice bytes vEnd next
      .ok (.entry key (some value) next)

def entryAt (t : Word) (bytes : Bytes) (pos : Nat) : Checked EntryHead := do
  let kStart ← t.add pos 4
  if bytes.length < kStart then .ok .truncated
  else do
    let klen ← readU32At t bytes pos
    let vStart ← t.add kStart klen
    let vEnd ← t.add vStart 4
    if bytes.length < vEnd then .ok .truncated
    else do
      let keyPart ← Checked.slice bytes kStart vStart
      match keyOfBytes keyPart with
      | none => .ok .badKey
      | some key => valueAt t bytes key vStart vEnd

def decodeEntry (t : Word) (bytes : Bytes) (pos : Nat) :
    Checked (Res (Option (Key × Option Bytes × Nat))) := do
  match ← entryAt t bytes pos with
  | .truncated => .ok (.ok none)
  | .badKey => .ok (.error utf8Error)
  | .entry key value next => .ok (.ok (some (key, value, next)))

/-- One round of `decode_wal_records`. -/
def walStep (t : Word) (data : Bytes) (s : List Op × Nat) : Checked ((List Op × Nat) ⊕ List Op) := do
  match ← entryAt t data s.2 with
  | .entry key value next => .ok (.inl (s.1 ++ [(key, value)], next))
  | _ => .ok (.inr s.1)

/-- `decode_wal_records`. -/
def decodeWalAt (t : Word) (data : Bytes) : Checked (List Op) :=
  Checked.loop (walStep t data) (data.length + 1) ([], 0)

/-! ## Lengths that fit -/

theorem readU32At_of_le {t : Word} {bytes : Bytes} {pos : Nat} (h4 : pos + 4 ≤ bytes.length)
    (ht : bytes.length < 2 ^ t.bits) : readU32At t bytes pos = .ok (readU32 (bytes.drop pos)) := by
  obtain ⟨b0, b1, b2, b3, rest, h0⟩ : ∃ b0 b1 b2 b3 rest,
      bytes.drop pos = b0 :: b1 :: b2 :: b3 :: rest := by
    have hlen : 4 ≤ (bytes.drop pos).length := by rw [List.length_drop]; omega
    match bytes.drop pos, hlen with
    | b0 :: b1 :: b2 :: b3 :: rest, _ => exact ⟨b0, b1, b2, b3, rest, rfl⟩
  have h1 : bytes.drop (pos + 1) = b1 :: b2 :: b3 :: rest := by rw [← List.drop_drop, h0]; rfl
  have h2 : bytes.drop (pos + 2) = b2 :: b3 :: rest := by rw [← List.drop_drop, h0]; rfl
  have h3 : bytes.drop (pos + 3) = b3 :: rest := by rw [← List.drop_drop, h0]; rfl
  simp only [readU32At, Word.add_of_lt (show pos + 1 < 2 ^ t.bits by omega),
    Word.add_of_lt (show pos + 2 < 2 ^ t.bits by omega),
    Word.add_of_lt (show pos + 3 < 2 ^ t.bits by omega), Checked.index_of_drop h0,
    Checked.index_of_drop h1, Checked.index_of_drop h2, Checked.index_of_drop h3,
    Checked.ok_bind, h0]
  rfl

/-- No addition made while the record at the front of `rest`, which stands at `pos`, is read
leaves the machine word. -/
def LengthsFit (bits pos : Nat) (rest : Bytes) : Prop :=
  4 ≤ rest.length →
    pos + 4 + readU32 rest + 4 < 2 ^ bits ∧
    (4 + readU32 rest + 4 ≤ rest.length → keyOfBytes ((rest.drop 4).take (readU32 rest)) ≠ none →
      readU32 (rest.drop (4 + readU32 rest)) ≠ tombstoneVlen →
      pos + 4 + readU32 rest + 4 + readU32 (rest.drop (4 + readU32 rest)) < 2 ^ bits)

/-- The head of a run of records, in positions of a buffer of `total` bytes. -/
def RecordHead.at (total : Nat) : RecordHead → EntryHead
  | .truncated => .truncated
  | .badKey => .badKey
  | .entry key value rest => .entry key value (total - rest.length)

section Fit

variable {t : Word} {bytes : Bytes} {pos : Nat}

theorem valueAt_of_fit {key : Key} {vStart : Nat} (hv : vStart + 4 ≤ bytes.length)
    (ht : bytes.length < 2 ^ t.bits)
    (hfit : readU32 (bytes.drop vStart) ≠ tombstoneVlen →
      vStart + 4 + readU32 (bytes.drop vStart) < 2 ^ t.bits) :
    valueAt t bytes key vStart (vStart + 4) = .ok (RecordHead.at bytes.length
      (if readU32 (bytes.drop vStart) = tombstoneVlen then
        .entry key none ((bytes.drop vStart).drop 4)
      else if (bytes.drop vStart).length < 4 + readU32 (bytes.drop vStart) then .truncated
      else .entry key (some (((bytes.drop vStart).drop 4).take (readU32 (bytes.drop vStart))))
        ((bytes.drop vStart).drop (4 + readU32 (bytes.drop vStart))))) := by
  simp only [valueAt, readU32At_of_le hv ht, Checked.ok_bind]
  by_cases htomb : readU32 (bytes.drop vStart) = tombstoneVlen
  · simp only [if_pos htomb, RecordHead.at, List.length_drop]
    congr 2
    omega
  · simp only [if_neg htomb, Word.add_of_lt (hfit htomb), Checked.ok_bind]
    by_cases hcut : bytes.length < vStart + 4 + readU32 (bytes.drop vStart)
    · have hcut' : (bytes.drop vStart).length < 4 + readU32 (bytes.drop vStart) := by
        rw [List.length_drop]; omega
      rw [if_pos hcut, if_pos hcut', RecordHead.at]
    · have hcut' : ¬ (bytes.drop vStart).length < 4 + readU32 (bytes.drop vStart) := by
        rw [List.length_drop]; omega
      rw [if_neg hcut, if_neg hcut', Checked.slice_of_le (by omega) (by omega), Checked.ok_bind,
        RecordHead.at, Nat.add_sub_cancel_left, List.drop_drop, List.drop_drop, List.length_drop]
      congr 2
      omega

theorem entryAt_of_fit (hpos : pos ≤ bytes.length) (ht : bytes.length + 4 < 2 ^ t.bits)
    (hfit : LengthsFit t.bits pos (bytes.drop pos)) :
    entryAt t bytes pos = .ok ((takeRecord (bytes.drop pos)).at bytes.length) := by
  have hlen : (bytes.drop pos).length = bytes.length - pos := List.length_drop
  simp only [entryAt, takeRecord, Word.add_of_lt (show pos + 4 < 2 ^ t.bits by omega),
    Checked.ok_bind]
  by_cases h4 : bytes.length < pos + 4
  · rw [if_pos h4, if_pos (by omega), RecordHead.at]
  · rw [if_neg h4, if_neg (by omega)]
    obtain ⟨hk, hv⟩ := hfit (by omega)
    simp only [readU32At_of_le (t := t) (show pos + 4 ≤ bytes.length by omega) (by omega),
      Checked.ok_bind,
      Word.add_of_lt (show pos + 4 + readU32 (bytes.drop pos) < 2 ^ t.bits by omega),
      Word.add_of_lt hk]
    by_cases hcut : bytes.length < pos + 4 + readU32 (bytes.drop pos) + 4
    · rw [if_pos hcut, if_pos (by omega), RecordHead.at]
    · have hdrop : (bytes.drop pos).drop (4 + readU32 (bytes.drop pos)) =
          bytes.drop (pos + 4 + readU32 (bytes.drop pos)) := by
        rw [List.drop_drop, Nat.add_assoc]
      rw [if_neg hcut, if_neg (by omega), Checked.slice_of_le (by omega) (by omega),
        Checked.ok_bind, Nat.add_sub_cancel_left, ← List.drop_drop]
      cases hkey : keyOfBytes (((bytes.drop pos).drop 4).take (readU32 (bytes.drop pos))) with
      | none => rfl
      | some key =>
        rw [hdrop]
        refine valueAt_of_fit (by omega) (by omega) fun htomb => ?_
        rw [← hdrop] at htomb ⊢
        exact hv (by omega) (by rw [hkey]; nofun) htomb

/-- `decode_entry` then reads the first record from there on. -/
theorem decodeEntry_of_fit (hpos : pos ≤ bytes.length) (ht : bytes.length + 4 < 2 ^ t.bits)
    (hfit : LengthsFit t.bits pos (bytes.drop pos)) :
    decodeEntry t bytes pos = .ok (match takeRecord (bytes.drop pos) with
      | .truncated => .ok none
      | .badKey => .error utf8Error
      | .entry key value rest => .ok (some (key, value, bytes.length - rest.length))) := by
  rw [decodeEntry, entryAt_of_fit hpos ht hfit]
  cases takeRecord (bytes.drop pos) <;> rfl

theorem entryAt_overflow (htrap : t.wraps = false) (hpos : pos ≤ bytes.length)
    (ht : bytes.length + 4 < 2 ^ t.bits) (hfit : ¬ LengthsFit t.bits pos (bytes.drop pos)) :
    entryAt t bytes pos = .error .overflow := by
  have hlen : (bytes.drop pos).length = bytes.length - pos := List.length_drop
  have h4 : 4 ≤ (bytes.drop pos).length := by
    by_contra h4
    exact hfit fun h => absurd h h4
  simp only [entryAt, Word.add_of_lt (show pos + 4 < 2 ^ t.bits by omega), Checked.ok_bind]
  rw [if_neg (by omega), readU32At_of_le (by omega) (by omega), Checked.ok_bind]
  by_cases hk : pos + 4 + readU32 (bytes.drop pos) + 4 < 2 ^ t.bits
  · -- the value length is the one that does not fit
    have hv : 4 + readU32 (bytes.drop pos) + 4 ≤ (bytes.drop pos).length ∧
        keyOfBytes (((bytes.drop pos).drop 4).take (readU32 (bytes.drop pos))) ≠ none ∧
        readU32 ((bytes.drop pos).drop (4 + readU32 (bytes.drop pos))) ≠ tombstoneVlen ∧
        2 ^ t.bits ≤ pos + 4 + readU32 (bytes.drop pos) + 4 +
          readU32 ((bytes.drop pos).drop (4 + readU32 (bytes.drop pos))) := by
      by_contra hno
      refine hfit fun _ => ⟨hk, fun h1 h2 h3 => ?_⟩
      by_contra hlt
      exact hno ⟨h1, h2, h3, Nat.le_of_not_lt hlt⟩
    obtain ⟨hin, hkey, htomb, hbig⟩ := hv
    have hdrop : (bytes.drop pos).drop (4 + readU32 (bytes.drop pos)) =
        bytes.drop (pos + 4 + readU32 (bytes.drop pos)) := by
      rw [List.drop_drop, Nat.add_assoc]
    rw [hdrop] at htomb hbig
    rw [Word.add_of_lt (by omega), Checked.ok_bind, Word.add_of_lt hk, Checked.ok_bind,
      if_neg (by omega), Checked.slice_of_le (by omega) (by omega), Checked.ok_bind,
      Nat.add_sub_cancel_left, ← List.drop_drop]
    obtain ⟨key, hkey⟩ := Option.ne_none_iff_exists'.mp hkey
    rw [hkey]
    dsimp only
    rw [valueAt, readU32At_of_le (by omega) (by omega), Checked.ok_bind, if_neg htomb,
      Word.add_of_le htrap hbig, Checked.error_bind]
  · rcases Nat.lt_or_ge (pos + 4 + readU32 (bytes.drop pos)) (2 ^ t.bits) with hs | hs
    · rw [Word.add_of_lt hs, Checked.ok_bind, Word.add_of_le htrap (by omega), Checked.error_bind]
    · rw [Word.add_of_le htrap hs, Checked.error_bind]

/-- The lengths of a whole record fit wherever its bytes do. -/
theorem lengthsFit_of_entry {rest rest' : Bytes} {key : Key} {value : Option Bytes}
    (h : takeRecord rest = .entry key value rest') (ht : pos + rest.length < 2 ^ t.bits) :
    LengthsFit t.bits pos rest := by
  unfold takeRecord at h
  split at h
  · cases h
  · dsimp only at h
    split at h
    · cases h
    · refine fun _ => ⟨by omega, fun _ hkey htomb => ?_⟩
      split at h
      · exact absurd ‹_› hkey
      · rw [if_neg htomb] at h
        split at h
        · cases h
        · rename_i hv
          rw [List.length_drop] at hv
          omega

theorem drop_next {key : Key} {value : Option Bytes} {rest : Bytes}
    (h : takeRecord (bytes.drop pos) = .entry key value rest) :
    bytes.drop (bytes.length - rest.length) = rest ∧ rest.length < bytes.length - pos := by
  have hlen : (bytes.drop pos).length = bytes.length - pos := List.length_drop
  have hlt := takeRecord_entry_length h
  have hsuf := (takeRecord_entry_suffix h).trans (List.drop_suffix pos bytes)
  exact ⟨(List.suffix_iff_eq_drop.mp hsuf).symm, by omega⟩

/-- A word of more than 34 bits has room for all lengths. -/
theorem lengthsFit_of_wide {bits : Nat} (h : pos + 2 ^ 34 ≤ 2 ^ bits) (rest : Bytes) :
    LengthsFit bits pos rest := by
  have hk := readU32_lt rest
  have hv := readU32_lt (rest.drop (4 + readU32 rest))
  exact fun _ => ⟨by omega, fun _ _ _ => by omega⟩

end Fit

/-! ## WAL files -/

/-- The bytes at which `decode_wal_records` stops. -/
def walRestFrom : Nat → Bytes → Bytes
  | 0, data => data
  | fuel + 1, data =>
    match takeRecord data with
    | .entry _ _ rest => walRestFrom fuel rest
    | _ => data

def walRest (data : Bytes) : Bytes := walRestFrom data.length data

variable {data : Bytes}

theorem walRestFrom_fuel {n : Nat} (hn : data.length ≤ n) : walRestFrom n data = walRest data := by
  refine record_fuel id id (fun _ _ r => r) ?_ ?_ hn (Nat.le_refl _)
  · intro n data
    rw [walRestFrom]
    cases takeRecord data <;> rfl
  · intro n
    cases n <;> rfl

theorem walRest_entry {rest : Bytes} {key : Key} {value : Option Bytes}
    (h : takeRecord data = .entry key value rest) : walRest data = walRest rest := by
  have hlt := takeRecord_entry_length h
  rw [← walRestFrom_fuel (Nat.le_succ data.length), walRestFrom]
  simp only [h]
  exact walRestFrom_fuel (by omega)

theorem walRest_stop (h : ∀ key value rest, takeRecord data ≠ .entry key value rest) :
    walRest data = data := by
  rw [← walRestFrom_fuel (Nat.le_succ data.length), walRestFrom]
  cases ht : takeRecord data with
  | truncated | badKey => rfl
  | entry key value rest => exact absurd ht (h key value rest)

theorem decodeWalRecords_stop (h : ∀ key value rest, takeRecord data ≠ .entry key value rest) :
    decodeWalRecords data = [] := by
  rw [← decodeRecords_fuel (Nat.le_succ data.length), decodeRecords]
  cases ht : takeRecord data with
  | truncated | badKey => rfl
  | entry key value rest => exact absurd ht (h key value rest)

section Wal

variable {t : Word} {data : Bytes}

/-- The lengths at the bytes where decoding from `pos` on stops. -/
def WalFits (bits : Nat) (data : Bytes) (pos : Nat) : Prop :=
  LengthsFit bits (data.length - (walRest (data.drop pos)).length) (walRest (data.drop pos))

variable {pos : Nat}

/-- A round that finds a record. -/
theorem walStep_entry (recs : List Op) (hpos : pos ≤ data.length)
    (ht : data.length + 4 < 2 ^ t.bits) {key : Key} {value : Option Bytes} {rest : Bytes}
    (h : takeRecord (data.drop pos) = .entry key value rest) :
    walStep t data (recs, pos) =
      .ok (.inl (recs ++ [(key, value)], data.length - rest.length)) := by
  have hlen : (data.drop pos).length = data.length - pos := List.length_drop
  have hfit : LengthsFit t.bits pos (data.drop pos) := lengthsFit_of_entry h (by omega)
  rw [walStep, entryAt_of_fit hpos ht hfit, h]
  rfl

theorem walRest_drop_stop (hpos : pos ≤ data.length)
    (h : ∀ key value rest, takeRecord (data.drop pos) ≠ .entry key value rest) :
    WalFits t.bits data pos ↔ LengthsFit t.bits pos (data.drop pos) := by
  unfold WalFits
  rw [walRest_stop h, List.length_drop, Nat.sub_sub_self hpos]

variable {recs : List Op}

theorem walStep_stop (hpos : pos ≤ data.length) (ht : data.length + 4 < 2 ^ t.bits)
    (hfit : LengthsFit t.bits pos (data.drop pos))
    (h : ∀ key value rest, takeRecord (data.drop pos) ≠ .entry key value rest) :
    walStep t data (recs, pos) = .ok (.inr recs) := by
  rw [walStep, entryAt_of_fit hpos ht hfit]
  cases hr : takeRecord (data.drop pos) with
  | truncated | badKey => rfl
  | entry key value rest => exact absurd hr (h key value rest)

theorem walStep_trap (htrap : t.wraps = false) (hpos : pos ≤ data.length)
    (ht : data.length + 4 < 2 ^ t.bits) (hfit : ¬ LengthsFit t.bits pos (data.drop pos)) :
    walStep t data (recs, pos) = .error .overflow := by
  rw [walStep, entryAt_overflow htrap hpos ht hfit]
  rfl

theorem loop_walStep (ht : data.length + 4 < 2 ^ t.bits) {fuel : Nat} (hpos : pos ≤ data.length)
    (hfuel : data.length - pos < fuel) :
    (WalFits t.bits data pos → Checked.loop (walStep t data) fuel (recs, pos) =
      .ok (recs ++ decodeWalRecords (data.drop pos))) ∧
    (t.wraps = false → ¬ WalFits t.bits data pos →
      Checked.loop (walStep t data) fuel (recs, pos) = .error .overflow) := by
  induction fuel generalizing recs pos with
  | zero => omega
  | succ fuel ih =>
    by_cases hentry : ∃ key value rest, takeRecord (data.drop pos) = .entry key value rest
    · obtain ⟨key, value, rest, h⟩ := hentry
      obtain ⟨hdrop, hlt⟩ := drop_next h
      have hfits : WalFits t.bits data pos ↔ WalFits t.bits data (data.length - rest.length) := by
        unfold WalFits
        rw [hdrop, walRest_entry h]
      have hnext := @ih (data.length - rest.length) (recs ++ [(key, value)]) (by omega) (by omega)
      obtain ⟨hok, htrap⟩ := hnext
      rw [Checked.loop_next (walStep_entry recs hpos ht h), hfits, decodeWalRecords_entry h]
      rw [hdrop, List.append_assoc, List.singleton_append] at hok
      exact ⟨hok, htrap⟩
    · have hstop : ∀ key value rest, takeRecord (data.drop pos) ≠ .entry key value rest :=
        fun key value rest h => hentry ⟨key, value, rest, h⟩
      rw [walRest_drop_stop hpos hstop]
      constructor
      · intro hfit
        rw [Checked.loop_done (walStep_stop hpos ht hfit hstop), decodeWalRecords_stop hstop,
          List.append_nil]
      · intro htrap hfit
        exact Checked.loop_trap (walStep_trap htrap hpos ht hfit)

theorem decodeWalAt_of_fit (ht : data.length + 4 < 2 ^ t.bits) (hfit : WalFits t.bits data 0) :
    decodeWalAt t data = .ok (decodeWalRecords data) :=
  (loop_walStep ht (Nat.zero_le _) (Nat.lt_succ_self _)).1 hfit

theorem decodeWalAt_overflow (htrap : t.wraps = false) (ht : data.length + 4 < 2 ^ t.bits)
    (hfit : ¬ WalFits t.bits data 0) : decodeWalAt t data = .error .overflow :=
  (loop_walStep ht (Nat.zero_le _) (Nat.lt_succ_self _)).2 htrap hfit

end Wal

end OxKv
