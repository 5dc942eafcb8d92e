import OxKv.Format.SstContent

/-!
WAL files as byte strings.

* `accepted_writes_survive`: a batch that was encoded is decoded as it was, exactly when no
  value is `u32::MAX` bytes long;
* `torn_wal_is_prefix`: cutting a file loses whole records at its end and nothing else.
-/

namespace OxKv

/-! ## One record at a time -/

variable {value : Option Bytes} {data rest : Bytes} {key : Key}

theorem takeRecord_entry_length (h : takeRecord data = .entry key value rest) :
    rest.length < data.length := by
  unfold takeRecord at h
  split at h
  · cases h
  · dsimp only at h
    split at h
    · cases h
    · split at h
      · cases h
      · split at h
        · cases h
          simp only [List.length_drop]
          omega
        · split at h
          · cases h
          · cases h
            simp only [List.length_drop]
            omega

theorem takeRecord_entry_suffix (h : takeRecord data = .entry key value rest) : rest <:+ data := by
  unfold takeRecord at h
  split at h
  · cases h
  · dsimp only at h
    split at h
    · cases h
    · split at h
      · cases h
      · split at h
        · cases h
          rw [List.drop_drop]
          exact List.drop_suffix _ _
        · split at h
          · cases h
          · cases h
            rw [List.drop_drop]
            exact List.drop_suffix _ _

/-- One round of a loop over records, which goes on with what follows the first one. -/
def RecordHead.round {α : Type} (truncated badKey : α) (entry : Key → Option Bytes → α → α)
    (loop : Bytes → α) : RecordHead → α
  | .truncated => truncated
  | .badKey => badKey
  | .entry key value rest => entry key value (loop rest)

/-- A loop over records needs no more fuel than there are bytes. -/
theorem record_fuel {α : Type} {f : Nat → Bytes → α} (truncated badKey : Bytes → α)
    (entry : Key → Option Bytes → α → α) (hsucc : ∀ n data, f (n + 1) data =
      (takeRecord data).round (truncated data) (badKey data) entry (f n))
    (hnil : ∀ n, f n [] = f 0 []) {n m : Nat} (hn : data.length ≤ n) (hm : data.length ≤ m) :
    f n data = f m data := by
  induction n generalizing m data with
  | zero =>
    rw [List.eq_nil_of_length_eq_zero (Nat.le_zero.mp hn), hnil m]
  | succ n ih =>
    cases m with
    | zero => rw [List.eq_nil_of_length_eq_zero (Nat.le_zero.mp hm), hnil (n + 1)]
    | succ m =>
      rw [hsucc, hsucc]
      cases ht : takeRecord data with
      | truncated | badKey => rfl
      | entry key value rest =>
        have hlt := takeRecord_entry_length ht
        exact congrArg (entry key value) (ih (by omega) (by omega))

/-- Fuel beyond the number of bytes changes nothing. -/
theorem decodeRecords_fuel {fuel : Nat} (h : data.length ≤ fuel) :
    decodeRecords fuel data = decodeWalRecords data := by
  refine record_fuel (fun _ => []) (fun _ => []) (fun key value out => (key, value) :: out) ?_ ?_ h
    (Nat.le_refl _)
  · intro n data
    rw [decodeRecords]
    cases takeRecord data <;> rfl
  · intro n
    cases n <;> rfl

theorem decodeWalRecords_entry (h : takeRecord data = .entry key value rest) :
    decodeWalRecords data = (key, value) :: decodeWalRecords rest := by
  have hlt := takeRecord_entry_length h
  rw [← decodeRecords_fuel (Nat.le_succ data.length), decodeRecords]
  simp only [h]
  rw [decodeRecords_fuel (by omega)]

theorem decodeWalRecords_truncated (h : takeRecord data = .truncated) :
    decodeWalRecords data = [] := by
  rw [← decodeRecords_fuel (Nat.le_succ data.length), decodeRecords]
  simp only [h]

/-! ## Encodings -/

@[simp] theorem groupBytes_nil : groupBytes [] = [] := rfl

@[simp] theorem groupBytes_cons (op : Op) (ops : List Op) :
    groupBytes (op :: ops) = recordBytes op ++ groupBytes ops := rfl

theorem encodeRecord_ok {value b : Bytes} (h : encodeRecord key value = .ok b) :
    Op.Fits (key, some value) ∧ b = recordBytes (key, some value) := by
  unfold encodeRecord at h
  split at h
  · cases h
  · rename_i hk
    split at h
    · cases h
    · rename_i hv
      cases h
      exact ⟨⟨Nat.lt_of_not_le hk, Nat.lt_of_not_le hv⟩, rfl⟩

theorem encodeOp_fits {op : Op} {b : Bytes} (h : encodeOp op = .ok b) :
    op.Fits ∧ b = recordBytes op := by
  obtain ⟨key, value⟩ := op
  cases value with
  | none =>
    obtain ⟨hk, rfl⟩ := encodeOp_ok h
    exact ⟨⟨hk, Nat.two_pow_pos 32⟩, rfl⟩
  | some v =>
    cases hr : encodeRecord key v with
    | error e =>
      simp only [encodeOp, hr] at h
      cases h
    | ok b' =>
      simp only [encodeOp, hr] at h
      cases h
      exact encodeRecord_ok hr

variable {ops : List Op}

theorem encodeOps_fits {bs : Bytes} (h : encodeOps ops = .ok bs) :
    (∀ op ∈ ops, Op.Fits op) ∧ bs = groupBytes ops := by
  induction ops generalizing bs with
  | nil =>
    cases h
    exact ⟨nofun, rfl⟩
  | cons op ops ih =>
    obtain ⟨b, bs', hb, hbs, rfl⟩ := encodeOps_cons h
    obtain ⟨hop, rfl⟩ := encodeOp_fits hb
    obtain ⟨hops, rfl⟩ := ih hbs
    exact ⟨List.forall_mem_cons.mpr ⟨hop, hops⟩, rfl⟩

theorem encodeOp_of_fits {op : Op} (h : op.Fits) : encodeOp op = .ok (recordBytes op) := by
  obtain ⟨key, value⟩ := op
  cases value with
  | none => simp only [encodeOp, encodeTombstone, if_neg (Nat.not_le_of_lt h.1)]
  | some v =>
    simp only [encodeOp, encodeRecord, if_neg (Nat.not_le_of_lt h.1),
      if_neg (Nat.not_le_of_lt (show v.length < 2 ^ 32 from h.2))]
    rfl

theorem encodeOps_of_fits (h : ∀ op ∈ ops, Op.Fits op) : encodeOps ops = .ok (groupBytes ops) := by
  induction ops with
  | nil => rfl
  | cons op ops ih =>
    obtain ⟨hop, hops⟩ := List.forall_mem_cons.mp h
    simp only [encodeOps, encodeOp_of_fits hop, ih hops, groupBytes_cons]

/-! ## What decodes as it was -/

/-- A value of `u32::MAX` bytes is taken for a tombstone. -/
theorem takeRecord_longValue {v : Bytes} (hk : (keyBytes key).length < 2 ^ 32)
    (hv : v.length = tombstoneVlen) (rest : Bytes) :
    takeRecord (recordBytes (key, some v) ++ rest) = .entry key none (v ++ rest) := by
  have hread : readU32 (u32le v.length ++ (v ++ rest)) = tombstoneVlen := by
    rw [readU32_u32le_append _ (by rw [hv]; decide), hv]
  simp only [recordBytes, List.append_assoc]
  rw [takeRecord_key key _ hk (by simp), hread, if_pos rfl, List.drop_left' (length_u32le _)]

theorem decodeWalRecords_groupBytes_iff (h : ∀ op ∈ ops, Op.Fits op) :
    decodeWalRecords (groupBytes ops) = ops ↔
      ∀ op ∈ ops, ∀ v, op.2 = some v → v.length ≠ tombstoneVlen := by
  induction ops with
  | nil => exact ⟨fun _ => nofun, fun _ => rfl⟩
  | cons op ops ih =>
    obtain ⟨hop, hops⟩ := List.forall_mem_cons.mp h
    rw [groupBytes_cons, List.forall_mem_cons]
    by_cases hlong : ∃ v, op.2 = some v ∧ v.length = tombstoneVlen
    · obtain ⟨v, hv, hlen⟩ := hlong
      obtain ⟨key, value⟩ := op
      cases hv
      rw [decodeWalRecords_entry (takeRecord_longValue hop.1 hlen _)]
      exact ⟨fun heq => absurd (congrArg (fun l => l.head?.map Prod.snd) heq) (by simp),
        fun hne => absurd hlen (hne.1 v rfl)⟩
    · have hplain : ∀ v, op.2 = some v → v.length ≠ tombstoneVlen :=
        fun v hv hlen => hlong ⟨v, hv, hlen⟩
      have hlt : op.plainLength := by
        intro v hv
        have h1 : v.length < 2 ^ 32 := by simpa [hv] using hop.2
        have h2 := hplain v hv
        unfold tombstoneVlen at h2 ⊢
        omega
      rw [decodeWalRecords_entry (takeRecord_recordBytes hop.1 hlt _), List.cons.injEq, ih hops]
      exact ⟨fun heq => ⟨hplain, heq.2⟩, fun hne => ⟨rfl, hne.2⟩⟩

/-- What the encoders accept is decoded as it was exactly when no value has the length that
marks a tombstone. -/
theorem accepted_writes_survive (ops : List Op) :
    (∀ bs, encodeOps ops = .ok bs → (decodeWalRecords bs = ops ↔
      ∀ op ∈ ops, ∀ v, op.2 = some v → v.length ≠ tombstoneVlen)) ∧
    ∀ parts, List.Forall₂ (fun op b => ∃ v, op.2 = some v ∧ encodeRecord op.1 v = .ok b) ops parts →
      (decodeWalRecords parts.flatten = ops ↔
        ∀ op ∈ ops, ∀ v, op.2 = some v → v.length ≠ tombstoneVlen) := by
  constructor
  · intro bs h
    obtain ⟨hops, rfl⟩ := encodeOps_fits h
    exact decodeWalRecords_groupBytes_iff hops
  · intro parts h
    have hparts : (∀ op ∈ ops, Op.Fits op) ∧ parts.flatten = groupBytes ops := by
      induction h with
      | nil => exact ⟨nofun, rfl⟩
      | cons hop _ ih =>
        obtain ⟨v, hv, hb⟩ := hop
        obtain ⟨hacc, rfl⟩ := encodeRecord_ok hb
        rw [← hv] at hacc ⊢
        refine ⟨List.forall_mem_cons.mpr ⟨hacc, ih.1⟩, ?_⟩
        rw [List.flatten_cons, ih.2, groupBytes_cons]
    rw [hparts.2]
    exact decodeWalRecords_groupBytes_iff hparts.1

theorem accepted_writes_survive_small :
    decodeWalRecords (groupBytes [("k", some [1]), ("t", none), ("e", some [])]) =
      [("k", some [1]), ("t", none), ("e", some [])] ∧
    decodeWalRecords ([recordBytes ("k", some [1]), recordBytes ("e", some [])].flatten) =
      [("k", some [1]), ("e", some [])] := by
  constructor
  · refine ((accepted_writes_survive _).1 _ (by decide +kernel)).mpr ?_
    simp [tombstoneVlen]
  · refine ((accepted_writes_survive _).2 _ ?_).mpr ?_
    · refine .cons ⟨[1], rfl, by decide +kernel⟩ (.cons ⟨[], rfl, by decide +kernel⟩ .nil)
    · simp [tombstoneVlen]

/-- A value as long as the mark of a tombstone. -/
def longValue : Bytes := List.replicate tombstoneVlen 0

/-- The long value is accepted by both encoders and read back as a deletion. -/
theorem long_value_lost :
    encodeOps [("k", some longValue)] = .ok (recordBytes ("k", some longValue)) ∧
    encodeRecord "k" longValue = .ok (recordBytes ("k", some longValue)) ∧
    (decodeWalRecords (recordBytes ("k", some longValue))).head? = some ("k", none) := by
  have hlen : longValue.length = tombstoneVlen := List.length_replicate
  have hk : (keyBytes "k").length < 2 ^ 32 := by decide
  have hv : longValue.length < 2 ^ 32 := by rw [hlen]; decide
  have hacc : Op.Fits ("k", some longValue) := ⟨hk, hv⟩
  refine ⟨?_, ?_, ?_⟩
  · rw [encodeOps_of_fits (List.forall_mem_singleton.mpr hacc), groupBytes_cons, groupBytes_nil,
      List.append_nil]
  · rw [encodeRecord, if_neg (Nat.not_le_of_lt hk), if_neg (Nat.not_le_of_lt hv)]
  · have ht := takeRecord_longValue hk hlen []
    rw [List.append_nil] at ht
    rw [decodeWalRecords_entry ht, List.head?_cons]

/-! ## Torn files -/

/-- A record that misses its end is truncated, wherever the cut is. -/
theorem takeRecord_take {op : Op} (hk : (keyBytes op.1).length < 2 ^ 32) (hlen : op.plainLength)
    {n : Nat} (hn : n < (recordBytes op).length) :
    takeRecord ((recordBytes op).take n) = .truncated := by
  obtain ⟨key, value⟩ := op
  -- the part after the key, whole and cut
  obtain ⟨vpart, hrec, h4, hread⟩ : ∃ vpart : Bytes,
      recordBytes (key, value) = u32le (keyBytes key).length ++ (keyBytes key ++ vpart) ∧
      4 ≤ vpart.length ∧ ∀ m, 4 ≤ m → m < vpart.length →
        readU32 (vpart.take m) ≠ tombstoneVlen ∧ m < 4 + readU32 (vpart.take m) := by
    cases value with
    | none => exact ⟨u32le tombstoneVlen, List.append_assoc _ _ _, by simp, fun m h4 hm => by
        rw [length_u32le] at hm; omega⟩
    | some v =>
      have hv : v.length < tombstoneVlen := hlen v rfl
      refine ⟨u32le v.length ++ v, List.append_assoc _ _ _, by simp, fun m h4 hm => ?_⟩
      rw [List.length_append, length_u32le] at hm
      have htake : (u32le v.length ++ v).take m = u32le v.length ++ v.take (m - 4) := by
        rw [List.take_append, length_u32le, List.take_of_length_le (by simpa using h4)]
      rw [htake, readU32_u32le_append _ (by unfold tombstoneVlen at hv; omega)]
      exact ⟨Nat.ne_of_lt hv, hm⟩
  rw [hrec] at hn ⊢
  simp only [List.length_append, length_u32le] at hn
  rcases Nat.lt_or_ge n (4 + (keyBytes key).length + 4) with hshort | hlong
  · -- the cut is before the value
    unfold takeRecord
    split
    · rfl
    · rename_i h4n
      simp only [List.length_take, List.length_append, length_u32le] at h4n
      have hklen : readU32 ((u32le (keyBytes key).length ++ (keyBytes key ++ vpart)).take n) =
          (keyBytes key).length := by
        rw [List.take_append, length_u32le, List.take_of_length_le (by simp; omega)]
        exact readU32_u32le_append _ hk _
      rw [if_pos (by simp only [List.length_take, List.length_append, length_u32le]; omega)]
  · obtain ⟨m, rfl⟩ := Nat.exists_eq_add_of_le (Nat.le_trans (Nat.le_add_right _ 4) hlong)
    have htake : (u32le (keyBytes key).length ++ (keyBytes key ++ vpart)).take
        (4 + (keyBytes key).length + m) =
        u32le (keyBytes key).length ++ (keyBytes key ++ vpart.take m) := by
      have h1 : 4 + (keyBytes key).length + m - 4 = (keyBytes key).length + m := by omega
      have h2 : (keyBytes key).length + m - (keyBytes key).length = m := by omega
      rw [List.take_append, length_u32le, h1, List.take_append, h2,
        List.take_of_length_le (by simp; omega), List.take_of_length_le (by omega)]
    obtain ⟨hne, hlt⟩ := hread m (by omega) (by omega)
    have hm : (vpart.take m).length = m := by rw [List.length_take]; omega
    rw [htake, takeRecord_key key _ hk (by omega), if_neg hne, if_pos (by omega)]

/-- The number of records of a batch that fit in `n` bytes. -/
def fitting : List Op → Nat → Nat
  | [], _ => 0
  | op :: ops, n =>
    if (recordBytes op).length ≤ n then fitting ops (n - (recordBytes op).length) + 1 else 0

theorem decodeWalRecords_take (h : ∀ op ∈ ops, Op.Fits op) (hlen : ∀ op ∈ ops, op.plainLength)
    {n : Nat} (hn : n ≤ (groupBytes ops).length) :
    decodeWalRecords ((groupBytes ops).take n) = ops.take (fitting ops n) := by
  induction ops generalizing n with
  | nil => rw [List.take_nil, groupBytes_nil, List.take_nil]; rfl
  | cons op ops ih =>
    obtain ⟨hop, hops⟩ := List.forall_mem_cons.mp h
    obtain ⟨hol, hols⟩ := List.forall_mem_cons.mp hlen
    rw [groupBytes_cons, List.length_append] at hn
    rw [groupBytes_cons, List.take_append, fitting]
    split
    · rename_i hfit
      rw [List.take_of_length_le hfit, List.take_succ_cons,
        decodeWalRecords_entry (takeRecord_recordBytes hop.1 hol _), ih hops hols (by omega)]
    · have hzero : n - (recordBytes op).length = 0 := by omega
      rw [hzero, List.take_zero, List.append_nil, List.take_zero]
      exact decodeWalRecords_truncated (takeRecord_take hop.1 hol (by omega))

/-- The records that fit are the longest prefix whose encoding does. -/
theorem fitting_isGreatest (ops : List Op) (n : Nat) :
    IsGreatest {k | k ≤ ops.length ∧ (groupBytes (ops.take k)).length ≤ n} (fitting ops n) := by
  induction ops generalizing n with
  | nil =>
    refine ⟨⟨Nat.le_refl _, Nat.zero_le _⟩, ?_⟩
    rintro k ⟨hk, -⟩
    exact hk
  | cons op ops ih =>
    rw [fitting]
    split
    · obtain ⟨⟨hle, hbytes⟩, hmax⟩ := ih (n - (recordBytes op).length)
      refine ⟨⟨Nat.succ_le_succ hle, ?_⟩, ?_⟩
      · rw [List.take_succ_cons, groupBytes_cons, List.length_append]
        omega
      · rintro k ⟨hk, hkb⟩
        cases k with
        | zero => exact Nat.zero_le _
        | succ k =>
          rw [List.take_succ_cons, groupBytes_cons, List.length_append] at hkb
          exact Nat.succ_le_succ (hmax ⟨Nat.le_of_succ_le_succ hk, by omega⟩)
    · refine ⟨⟨Nat.zero_le _, Nat.zero_le _⟩, ?_⟩
      rintro k ⟨hk, hkb⟩
      cases k with
      | zero => exact Nat.zero_le _
      | succ k =>
        rw [List.take_succ_cons, groupBytes_cons, List.length_append] at hkb
        omega

/-- A file cut after `n` bytes decodes to the longest prefix of the batch whose encoding fits
in `n` bytes, and files joined end to end decode to the batches joined. -/
theorem torn_wal_is_prefix (ops : List Op) (bs : Bytes) (h : encodeOps ops = .ok bs)
    (hlen : ∀ op ∈ ops, op.plainLength) :
    (∀ n ≤ bs.length, ∃ k,
      IsGreatest {k | k ≤ ops.length ∧ ∃ b, encodeOps (ops.take k) = .ok b ∧ b.length ≤ n} k ∧
      decodeWalRecords (bs.take n) = ops.take k) ∧
    ∀ ops' bs', encodeOps ops' = .ok bs' → (∀ op ∈ ops', op.plainLength) →
      decodeWalRecords (bs ++ bs') = ops ++ ops' := by
  obtain ⟨hops, rfl⟩ := encodeOps_fits h
  constructor
  · intro n hn
    have hset : {k | k ≤ ops.length ∧ ∃ b, encodeOps (ops.take k) = .ok b ∧ b.length ≤ n} =
        {k | k ≤ ops.length ∧ (groupBytes (ops.take k)).length ≤ n} := by
      ext k
      have hk : encodeOps (ops.take k) = .ok (groupBytes (ops.take k)) :=
        encodeOps_of_fits fun op hop => hops op (List.mem_of_mem_take hop)
      rw [Set.mem_ofPred_eq, Set.mem_ofPred_eq, hk]
      simp
    refine ⟨fitting ops n, ?_, decodeWalRecords_take hops hlen hn⟩
    rw [hset]
    exact fitting_isGreatest ops n
  · intro ops' bs' h' hlen'
    obtain ⟨hops', rfl⟩ := encodeOps_fits h'
    rw [← groupBytes_append]
    refine decodeWalRecords_encodeOps (encodeOps_of_fits ?_) ?_
    · exact List.forall_mem_append.mpr ⟨hops, hops'⟩
    · exact List.forall_mem_append.mpr ⟨hlen, hlen'⟩

def tornOps : List Op := [("a", none), ("b", some [1, 2])]

/-- The cut falls into the value of the second record. -/
theorem torn_wal_is_prefix_in_value :
    (∃ k, IsGreatest {k | k ≤ 2 ∧ ∃ b, encodeOps (tornOps.take k) = .ok b ∧ b.length ≤ 19} k ∧
      decodeWalRecords ((groupBytes tornOps).take 19) = tornOps.take k) ∧
    decodeWalRecords (groupBytes tornOps ++ groupBytes [("c", none)]) = tornOps ++ [("c", none)] := by
  have hplain : ∀ op ∈ tornOps, op.plainLength := by simp [tornOps, Op.plainLength, tombstoneVlen]
  obtain ⟨hcut, hjoin⟩ :=
    torn_wal_is_prefix tornOps (groupBytes tornOps) (by decide +kernel) hplain
  refine ⟨hcut 19 (by decide +kernel), hjoin [("c", none)] (groupBytes [("c", none)]) ?_ ?_⟩
  · decide +kernel
  · simp [Op.plainLength]

end OxKv
