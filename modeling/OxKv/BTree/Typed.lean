import OxKv.BTree.Events
import OxKv.BTree.Scan

/-!
`GetSetExt::set`: the value is serialised, written as bytes, and the previous bytes are
decoded for the answer. A previous value of another type fails this last step, when the
write has happened (`failed_set_unchanged`, `failed_set_writes`).
-/

namespace OxKv

/-- `serde_json` for one type; an error is its text. -/
structure Codec (T : Type) where
  toVec : T → Except String Bytes
  fromSlice : Bytes → Except String T

/-- `GetSetExt::set` over the `set_bytes` of a store. -/
def typedSet {T σ : Type} (codec : Codec T) (setBytes : σ → Key → Bytes → Res (Option Bytes) × σ)
    (s : σ) (key : Key) (value : T) : Res (Option T) × σ :=
  match codec.toVec value with
  | .error msg => (.error (.json msg), s)
  | .ok json =>
    match setBytes s key json with
    | (.error e, s) => (.error e, s)
    | (.ok none, s) => (.ok none, s)
    | (.ok (some prev), s) =>
      match codec.fromSlice prev with
      | .ok old => (.ok (some old), s)
      | .error msg => (.error (.json msg), s)

def BTree.set {T : Type} (codec : Codec T) (s : BTree) (key : Key) (value : T) :
    Res (Option T) × BTree :=
  typedSet codec BTree.setBytes s key value

def BTreeTx.set {T : Type} (codec : Codec T) (tx : BTreeTx) (map : BTreeStore) (key : Key)
    (value : T) : Res (Option T) × BTreeTx :=
  typedSet codec (fun tx => tx.setBytes map) tx key value

/-- Two views that answer `get_bytes` and `gets_bytes` alike. -/
def SameReads (v v' : StoreView Res) : Prop :=
  (∀ k, v'.get k = v.get k) ∧ ∀ limit d c, v'.getsBytes limit d c = v.getsBytes limit d c

/-- A failed `set` keeps a property of the state, if the write that comes before a failed
decoding does. -/
theorem typedSet_failed {T σ : Type} {codec : Codec T}
    {setBytes : σ → Key → Bytes → Res (Option Bytes) × σ} {s : σ} {key : Key} {value : T}
    {verdict : Bytes → Res Unit} {prev : Option Bytes} {next : Bytes → σ}
    (hset : ∀ json, setBytes s key json =
      match verdict json with
      | .error e => (.error e, s)
      | .ok () => (.ok prev, next json))
    {P : σ → Prop} (hs : P s) :
    ((∃ e, (typedSet codec setBytes s key value).1 = .error e) →
        P (typedSet codec setBytes s key value).2) ↔
      ∀ json p msg, codec.toVec value = .ok json → verdict json = .ok () → prev = some p →
        codec.fromSlice p = .error msg → P (next json) := by
  constructor
  · intro h json p msg hjson hverdict hprev hold
    have heq : typedSet codec setBytes s key value = (.error (.json msg), next json) := by
      unfold typedSet
      rw [hjson]
      dsimp only
      rw [hset, hverdict, hprev]
      dsimp only
      rw [hold]
    rw [heq] at h
    exact h ⟨_, rfl⟩
  · intro h herr
    unfold typedSet at herr ⊢
    cases hjson : codec.toVec value with
    | error msg => exact hs
    | ok json =>
      rw [hjson] at herr
      dsimp only at herr ⊢
      rw [hset] at herr ⊢
      cases hverdict : verdict json with
      | error e => exact hs
      | ok u =>
        rw [hverdict] at herr
        cases hprev : prev with
        | none =>
          rw [hprev] at herr
          obtain ⟨e, he⟩ := herr
          cases he
        | some p =>
          rw [hprev] at herr
          dsimp only at herr ⊢
          cases hold : codec.fromSlice p with
          | ok old =>
            rw [hold] at herr
            obtain ⟨e, he⟩ := herr
            cases he
          | error msg => exact h json p msg hjson hverdict hprev hold

/-- Writing what is there already changes no read of the transaction. -/
theorem BTreeTx.sameReads_record (tx : BTreeTx) (map : BTreeStore) {e : ChangeEvent}
    (h : tx.getBytes map e.key = e.newValue) :
    SameReads (tx.view map) ((tx.record e).view map) := by
  have hget : ∀ k, (tx.record e).getBytes map k = tx.getBytes map k := by
    intro k
    rw [getBytes_record]
    split
    · rename_i hk
      rw [hk, h]
    · rfl
  refine ⟨fun k => congrArg Except.ok (hget k), fun limit d c => congrArg Except.ok ?_⟩
  rw [getsBytes_eq, getsBytes_eq]
  refine Plain.gets_congr fun k _ => ?_
  rw [← getBytes_eq, ← getBytes_eq, hget]

/-- A failed `set` leaves the contents and the event log as they were exactly when the
write was not reached or the previous value decodes; in a transaction also when the write
repeats the bytes that were there. -/
theorem failed_set_unchanged {T : Type} (codec : Codec T) (s : BTree) (key : Key) (value : T) :
    (((∃ e, (s.set codec key value).1 = .error e) →
        SameReads s.view (s.set codec key value).2.view ∧
        (s.set codec key value).2.subscribers.log = s.subscribers.log) ↔
      ¬ ∃ json prev msg, codec.toVec value = .ok json ∧
        Validator.validateKey s.validators s.view key json = .ok () ∧
        s.map.get? key = some prev ∧ codec.fromSlice prev = .error msg) ∧
    ∀ tx : BTreeTx, ((∃ e, (tx.set codec s.map key value).1 = .error e) →
        SameReads (tx.view s.map) ((tx.set codec s.map key value).2.view s.map)) ↔
      ¬ ∃ json prev msg, codec.toVec value = .ok json ∧
        Validator.validateKey tx.validators (tx.view s.map) key json = .ok () ∧
        tx.getBytes s.map key = some prev ∧ codec.fromSlice prev = .error msg ∧ prev ≠ json := by
  constructor
  · have hset : ∀ json, s.setBytes key json =
        match Validator.validateKey s.validators s.view key json with
        | .error e => (.error e, s)
        | .ok () => (.ok (s.map.get? key), { s with map := s.map.insert key json }.notify
            ⟨key, .set, s.map.get? key, some json⟩) := fun _ => rfl
    refine (typedSet_failed (P := fun s' => SameReads s.view s'.view ∧
      s'.subscribers.log = s.subscribers.log) hset ⟨⟨fun _ => rfl, fun _ _ _ => rfl⟩, rfl⟩).trans ?_
    constructor
    · rintro h ⟨json, prev, msg, hjson, hverdict, hprev, hold⟩
      have hlog := (h json prev msg hjson hverdict hprev hold).2
      rw [BTree.notify, Subscribers.log_notify] at hlog
      exact absurd hlog (by simp)
    · intro h json prev msg hjson hverdict hprev hold
      exact absurd ⟨json, prev, msg, hjson, hverdict, hprev, hold⟩ h
  · intro tx
    have hset : ∀ json, tx.setBytes s.map key json =
        match Validator.validateKey tx.validators (tx.view s.map) key json with
        | .error e => (.error e, tx)
        | .ok () => (.ok (tx.getBytes s.map key),
            tx.record ⟨key, .set, tx.getBytes s.map key, some json⟩) := fun _ => rfl
    refine (typedSet_failed (P := fun tx' : BTreeTx => SameReads (tx.view s.map) (tx'.view s.map)) hset
      ⟨fun _ => rfl, fun _ _ _ => rfl⟩).trans ?_
    constructor
    · rintro h ⟨json, prev, msg, hjson, hverdict, hprev, hold, hne⟩
      have hget : Except.ok _ = Except.ok _ := (h json prev msg hjson hverdict hprev hold).1 key
      rw [BTreeTx.getBytes_record, if_pos rfl, hprev] at hget
      cases hget
      exact hne rfl
    · intro h json prev msg hjson hverdict hprev hold
      have hsame : prev = json := by
        by_contra hne
        exact h ⟨json, prev, msg, hjson, hverdict, hprev, hold, hne⟩
      exact tx.sameReads_record s.map (hprev.trans (congrArg some hsame))

/-- `serde_json` for `bool`, on the texts of the two values. -/
def boolCodec : Codec Bool where
  toVec b := .ok (if b then [0x74, 0x72, 0x75, 0x65] else [0x66, 0x61, 0x6c, 0x73, 0x65])
  fromSlice bytes :=
    if bytes = [0x74, 0x72, 0x75, 0x65] then .ok true
    else if bytes = [0x66, 0x61, 0x6c, 0x73, 0x65] then .ok false
    else .error "expected value at line 1 column 1"

/-- A key holds a byte that is no JSON. -/
def rawStore : BTree := ⟨SortedMap.empty.insert "k" [0xff], [], Subscribers.new⟩

/-- The `set` of a `bool` over it fails, and has replaced the value and published it; in a
transaction it has replaced the value. -/
theorem failed_set_writes :
    (rawStore.set boolCodec "k" true).1 = .error (.json "expected value at line 1 column 1") ∧
      (rawStore.set boolCodec "k" true).2.map.get? "k" = some [0x74, 0x72, 0x75, 0x65] ∧
      (rawStore.set boolCodec "k" true).2.subscribers.log =
        [⟨⟨"k", .set, some [0xff], some [0x74, 0x72, 0x75, 0x65]⟩, 0⟩] ∧
      (rawStore.beginTx.set boolCodec rawStore.map "k" true).1 =
        .error (.json "expected value at line 1 column 1") ∧
      (rawStore.beginTx.set boolCodec rawStore.map "k" true).2.getBytes rawStore.map "k" =
        some [0x74, 0x72, 0x75, 0x65] := by
  decide +kernel

end OxKv
