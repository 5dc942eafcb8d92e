import OxKv.Error

/-!
The length-prefixed record format shared by WAL files and SST blocks:
`[u32 key len][key][u32 value len][value]`, lengths in little endian, with the
value length `u32::MAX` marking a tombstone.

* `takeRecord_recordBytes`: the first record of an encoding is read back, whatever
  bytes follow it;
* `decodeWalRecords_encodeOps`: replaying an encoded batch gives the batch, as
  long as no value is `u32::MAX` bytes long.
-/

namespace OxKv

abbrev Bytes := List UInt8

abbrev Key := String

/-- One staged operation: a value, or `none` for a tombstone. -/
abbrev Op := Key × Option Bytes

/-- `TOMBSTONE_VLEN`: a value length of `u32::MAX` means deleted. -/
def tombstoneVlen : Nat := 2 ^ 32 - 1

/-! ## Little-endian lengths and UTF-8 keys -/

/-- `u32::to_le_bytes`. -/
def u32le (n : Nat) : Bytes :=
  [UInt8.ofNat n, UInt8.ofNat (n / 2 ^ 8), UInt8.ofNat (n / 2 ^ 16), UInt8.ofNat (n / 2 ^ 24)]

def readU32 : Bytes → Nat
  | a :: b :: c :: d :: _ => a.toNat + 2 ^ 8 * b.toNat + 2 ^ 16 * c.toNat + 2 ^ 24 * d.toNat
  | _ => 0

@[simp] theorem length_u32le (n : Nat) : (u32le n).length = 4 := rfl

theorem readU32_u32le_append (n : Nat) (h : n < 2 ^ 32) (rest : Bytes) :
    readU32 (u32le n ++ rest) = n := by
  simp only [u32le, List.cons_append, List.nil_append, readU32, UInt8.toNat_ofNat']
  omega

theorem readU32_lt (data : Bytes) : readU32 data < 2 ^ 32 := by
  unfold readU32
  split
  · rename_i a b c d rest
    have ha := a.toNat_lt
    have hb := b.toNat_lt
    have hc := c.toNat_lt
    have hd := d.toNat_lt
    omega
  · decide

theorem u32le_readU32 {data : Bytes} (h : 4 ≤ data.length) : u32le (readU32 data) = data.take 4 := by
  match data, h with
  | a :: b :: c :: d :: rest, _ =>
    have ha := a.toNat_lt
    have hb := b.toNat_lt
    have hc := c.toNat_lt
    have hd := d.toNat_lt
    have hbyte : ∀ (x : UInt8) (n : Nat), n % 2 ^ 8 = x.toNat → UInt8.ofNat n = x := by
      intro x n hn
      apply UInt8.toNat_inj.mp
      rw [UInt8.toNat_ofNat', hn]
    simp only [u32le, readU32, List.take_succ_cons, List.take_zero]
    rw [hbyte a _ (by omega), hbyte b _ (by omega), hbyte c _ (by omega), hbyte d _ (by omega)]

/-- `str::as_bytes`. -/
def keyBytes (k : Key) : Bytes := k.toUTF8.data.toList

/-- `str::from_utf8`. -/
def keyOfBytes (b : Bytes) : Option Key := String.fromUTF8? ⟨b.toArray⟩

theorem keyOfBytes_keyBytes (k : Key) : keyOfBytes (keyBytes k) = some k := by
  unfold keyOfBytes keyBytes String.fromUTF8?
  simp only [Array.toArray_toList, String.toUTF8_eq_toByteArray]
  rw [dif_pos k.isValidUTF8]
  rfl

theorem keyBytes_of_keyOfBytes {b : Bytes} {k : Key} (h : keyOfBytes b = some k) :
    keyBytes k = b := by
  unfold keyOfBytes String.fromUTF8? at h
  split at h
  · cases h
    rfl
  · cases h

/-! ## Encoding -/

/-- The bytes of one record, lengths in range or not. -/
def recordBytes : Op → Bytes
  | (key, some v) => u32le (keyBytes key).length ++ keyBytes key ++ (u32le v.length ++ v)
  | (key, none) => u32le (keyBytes key).length ++ keyBytes key ++ u32le tombstoneVlen

def tryFromIntText : String := "out of range integral type conversion attempted"

/-- `encode_record`: fails when a length does not fit `u32`. -/
def encodeRecord (key : Key) (value : Bytes) : Res Bytes :=
  if 2 ^ 32 ≤ (keyBytes key).length then
    .error (.serialization ("key too long: " ++ tryFromIntText))
  else if 2 ^ 32 ≤ value.length then
    .error (.serialization ("value too long: " ++ tryFromIntText))
  else
    .ok (recordBytes (key, some value))

def encodeTombstone (key : Key) : Res Bytes :=
  if 2 ^ 32 ≤ (keyBytes key).length then
    .error (.storage ("key too long: " ++ tryFromIntText))
  else
    .ok (recordBytes (key, none))

def encodeOp : Op → Res Bytes
  | (key, some value) =>
    (encodeRecord key value).mapError fun e => .storage ("encode wal: " ++ e.text)
  | (key, none) => encodeTombstone key

/-- `encode_ops`: the records of a batch, one after the other. -/
def encodeOps : List Op → Res Bytes
  | [] => .ok []
  | op :: ops =>
    match encodeOp op with
    | .error e => .error e
    | .ok b =>
      match encodeOps ops with
      | .error e => .error e
      | .ok bs => .ok (b ++ bs)

/-! ## Decoding -/

/-- What stands at the front of a run of records. -/
inductive RecordHead where
  | truncated
  | badKey
  | entry (key : Key) (value : Option Bytes) (rest : Bytes)
  deriving DecidableEq

/-- The loop body that `decode_wal_records`, `get_option`, `scan_with_tombstones`
and `decode_entry` share, on the bytes from `pos` on. -/
def takeRecord (data : Bytes) : RecordHead :=
  if data.length < 4 then .truncated
  else
    let klen := readU32 data
    if data.length < 4 + klen + 4 then .truncated
    else
      match keyOfBytes ((data.drop 4).take klen) with
      | none => .badKey
      | some key =>
        let vpart := data.drop (4 + klen)
        let vlen := readU32 vpart
        if vlen = tombstoneVlen then .entry key none (vpart.drop 4)
        else if vpart.length < 4 + vlen then .truncated
        else .entry key (some ((vpart.drop 4).take vlen)) (vpart.drop (4 + vlen))

/-- `decode_wal_records` with the bytes still to read; decoding stops at the
first truncated record or invalid key. The fuel bounds the number of records. -/
def decodeRecords : Nat → Bytes → List Op
  | 0, _ => []
  | fuel + 1, data =>
    match takeRecord data with
    | .entry key value rest => (key, value) :: decodeRecords fuel rest
    | _ => []

def decodeWalRecords (data : Bytes) : List Op := decodeRecords data.length data

/-! ## Round trip -/

/-- Operations whose tombstone marker is unambiguous. -/
def Op.plainLength (op : Op) : Prop := ∀ v, op.2 = some v → v.length < tombstoneVlen

theorem encodeOp_ok {op : Op} {b : Bytes} (h : encodeOp op = .ok b) :
    (keyBytes op.1).length < 2 ^ 32 ∧ b = recordBytes op := by
  obtain ⟨key, value⟩ := op
  cases value with
  | none =>
    simp only [encodeOp, encodeTombstone] at h
    split at h
    · cases h
    · rename_i hk
      cases h
      exact ⟨Nat.lt_of_not_le hk, rfl⟩
  | some v =>
    simp only [encodeOp, encodeRecord] at h
    split at h
    · cases h
    · rename_i hk
      split at h
      · cases h
      · cases h
        exact ⟨Nat.lt_of_not_le hk, rfl⟩

/-- Reading the key of a record leaves the bytes of its value. -/
theorem takeRecord_key (key : Key) (vpart : Bytes) (hk : (keyBytes key).length < 2 ^ 32)
    (hv : 4 ≤ vpart.length) :
    takeRecord (u32le (keyBytes key).length ++ (keyBytes key ++ vpart)) =
      if readU32 vpart = tombstoneVlen then .entry key none (vpart.drop 4)
      else if vpart.length < 4 + readU32 vpart then .truncated
      else .entry key (some ((vpart.drop 4).take (readU32 vpart)))
        (vpart.drop (4 + readU32 vpart)) := by
  have hlen : (u32le (keyBytes key).length ++ (keyBytes key ++ vpart)).length
      = 4 + (keyBytes key).length + vpart.length := by
    simp only [List.length_append, length_u32le]; omega
  have htake : ((u32le (keyBytes key).length ++ (keyBytes key ++ vpart)).drop 4).take
      (keyBytes key).length = keyBytes key := by
    rw [List.drop_left' (length_u32le _), List.take_left' rfl]
  have hdrop : (u32le (keyBytes key).length ++ (keyBytes key ++ vpart)).drop
      (4 + (keyBytes key).length) = vpart := by
    rw [← List.append_assoc]
    exact List.drop_left' (by simp)
  have h1 : ¬ 4 + (keyBytes key).length + vpart.length < 4 := by omega
  have h2 : ¬ 4 + (keyBytes key).length + vpart.length < 4 + (keyBytes key).length + 4 := by omega
  simp only [takeRecord, readU32_u32le_append _ hk, hlen, if_neg h1, if_neg h2, htake,
    keyOfBytes_keyBytes, hdrop]

theorem takeRecord_recordBytes {op : Op} (hk : (keyBytes op.1).length < 2 ^ 32)
    (hlen : op.plainLength) (rest : Bytes) :
    takeRecord (recordBytes op ++ rest) = .entry op.1 op.2 rest := by
  obtain ⟨key, value⟩ := op
  cases value with
  | none =>
    have hv : readU32 (u32le tombstoneVlen ++ rest) = tombstoneVlen :=
      readU32_u32le_append _ (by decide) rest
    simp only [recordBytes, List.append_assoc]
    rw [takeRecord_key key _ hk (by simp), hv, if_pos rfl, List.drop_left' (length_u32le _)]
  | some v =>
    have hvlen : v.length < tombstoneVlen := hlen v rfl
    have hv : readU32 (u32le v.length ++ (v ++ rest)) = v.length :=
      readU32_u32le_append _ (by unfold tombstoneVlen at hvlen; omega) _
    have hfit : ¬ (u32le v.length ++ (v ++ rest)).length < 4 + v.length := by
      simp only [List.length_append, length_u32le]; omega
    simp only [recordBytes, List.append_assoc]
    rw [takeRecord_key key _ hk (by simp), hv, if_neg (Nat.ne_of_lt hvlen), if_neg hfit,
      List.drop_left' (length_u32le _), List.take_left' rfl, ← List.append_assoc,
      List.drop_left' (by simp)]

variable {ops : List Op} {bs : Bytes}

theorem encodeOps_cons {op : Op} (h : encodeOps (op :: ops) = .ok bs) :
    ∃ b bs', encodeOp op = .ok b ∧ encodeOps ops = .ok bs' ∧ bs = b ++ bs' := by
  simp only [encodeOps] at h
  cases hb : encodeOp op with
  | error e => rw [hb] at h; cases h
  | ok b =>
    cases hbs : encodeOps ops with
    | error e => rw [hb, hbs] at h; cases h
    | ok bs' =>
      rw [hb, hbs] at h
      cases h
      exact ⟨b, bs', rfl, rfl, rfl⟩

theorem length_recordBytes (op : Op) : 8 ≤ (recordBytes op).length := by
  obtain ⟨key, value⟩ := op
  cases value <;> simp only [recordBytes, List.length_append, length_u32le] <;> omega

/-- An encoded batch is read back record by record, with any fuel that covers
its bytes. -/
theorem decodeRecords_encodeOps (h : encodeOps ops = .ok bs) (hlen : ∀ op ∈ ops, op.plainLength)
    (fuel : Nat) (hf : bs.length ≤ fuel) : decodeRecords fuel bs = ops := by
  induction ops generalizing bs fuel with
  | nil =>
    cases h
    cases fuel <;> rfl
  | cons op ops ih =>
    obtain ⟨b, bs', hb, hbs', rfl⟩ := encodeOps_cons h
    obtain ⟨hk, rfl⟩ := encodeOp_ok hb
    have h8 := length_recordBytes op
    cases fuel with
    | zero => simp only [List.length_append] at hf; omega
    | succ fuel =>
      simp only [decodeRecords, takeRecord_recordBytes hk (hlen op (by simp)) bs']
      rw [ih hbs' (fun o ho => hlen o (by simp [ho])) fuel
        (by simp only [List.length_append] at hf; omega)]

theorem decodeWalRecords_encodeOps (h : encodeOps ops = .ok bs) (hlen : ∀ op ∈ ops, op.plainLength) :
    decodeWalRecords bs = ops :=
  decodeRecords_encodeOps h hlen _ (Nat.le_refl _)

end OxKv
