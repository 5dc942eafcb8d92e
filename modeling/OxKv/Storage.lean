import OxKv.Format.Sst

/-!
Object storage as `MemStorage` implements it: objects under paths, every write
with a fresh entity tag, conditional writes on absence or on the current tag.

Paths are kept relative to the store's prefix and structured; `ObjectPath.name`
renders them as the engine formats them. An object holds the value its JSON or
SST bytes decode to.
-/

namespace OxKv

/-! ## Paths -/

/-- The objects of one prefix. -/
inductive ObjectPath where
  | ownership
  | manifest
  | canary
  | wal (epoch seq : Nat)
  | sst (epoch level num : Nat)
  | blob (epoch : Nat) (hash : String)
  deriving DecidableEq, Repr

/-- Decimal digits, padded with zeros to at least `width`. -/
def padded (width n : Nat) : String :=
  String.ofList (List.replicate (width - (toString n).length) '0') ++ toString n

def formatEpoch (epoch : Nat) : String := "e" ++ padded 6 epoch

def ObjectPath.name : ObjectPath → String
  | .ownership => "ownership.json"
  | .manifest => "manifest.json"
  | .canary => "probe/canary"
  | .wal epoch seq => formatEpoch epoch ++ "/wal/" ++ padded 8 seq ++ ".log"
  | .sst epoch level num =>
    formatEpoch epoch ++ "/sst/L" ++ toString level ++ "/" ++ padded 9 num ++ ".sst"
  | .blob epoch hash => formatEpoch epoch ++ "/blob/" ++ hash

/-! ## Stored values -/

/-- `SstMeta`: one SST listed in the manifest. -/
structure SstMeta where
  id : ObjectPath
  seq : Nat
  level : Nat
  minKey : Key
  maxKey : Key
  size : Nat
  deriving DecidableEq

/-- The manifest; `version` is a `u64`. -/
structure Manifest where
  version : Nat
  epoch : Nat
  wal : List ObjectPath
  sst : List SstMeta
  deriving DecidableEq

def Manifest.empty (epoch : Nat) : Manifest := ⟨0, epoch, [], []⟩

/-- `wrapping_add(1)` on the version. -/
def Manifest.bump (m : Manifest) : Manifest := { m with version := (m.version + 1) % 2 ^ 64 }

structure OwnershipRecord where
  epoch : Nat
  ownerSession : String
  deriving DecidableEq

inductive Obj where
  | manifest (m : Manifest)
  | ownership (r : OwnershipRecord)
  | sst (f : SstFile)
  | bytes (b : Bytes)
  deriving DecidableEq

/-- Entity tags; `0` is the empty tag that no stored object has. -/
abbrev Etag := Nat

inductive PutMode where
  | create
  | update (etag : Etag)
  deriving DecidableEq

/-! ## Storage calls -/

structure Storage where
  objects : AList (fun _ : ObjectPath => Obj × Etag)
  seq : Nat

namespace Storage

def empty : Storage := ⟨∅, 0⟩

def lookup (st : Storage) (p : ObjectPath) : Option (Obj × Etag) := st.objects.lookup p

def get (st : Storage) (p : ObjectPath) : Res (Obj × Etag) :=
  match st.lookup p with
  | some x => .ok x
  | none => .error (.storage ("not found: " ++ p.name))

/-- `get_opts` with `if_none_match`. -/
def getOpts (st : Storage) (p : ObjectPath) (etag : Etag) : Res (Obj × Etag) :=
  match st.get p with
  | .ok (o, e) => if e = etag then .error .notModified else .ok (o, e)
  | .error err => .error err

def insert (st : Storage) (p : ObjectPath) (o : Obj) : Storage :=
  ⟨st.objects.insert p (o, st.seq + 1), st.seq + 1⟩

/-- `put_opts`: the outcome and the storage afterwards. -/
def putOpts (st : Storage) (p : ObjectPath) (o : Obj) (mode : PutMode) : Res Etag × Storage :=
  match mode, st.lookup p with
  | .create, some _ => (.error (.casConflict (p.name ++ ": already exists")), st)
  | .create, none => (.ok (st.seq + 1), st.insert p o)
  | .update _, none => (.error (.casConflict (p.name ++ ": missing for update")), st)
  | .update etag, some (_, cur) =>
    if etag = cur then (.ok (st.seq + 1), st.insert p o)
    else (.error (.casConflict (p.name ++ ": etag mismatch")), st)

/-- `delete`: a missing object is not an error. -/
def delete (st : Storage) (p : ObjectPath) : Storage := ⟨st.objects.erase p, st.seq⟩

/-- `list`: the stored paths in name order. -/
def list (st : Storage) : List ObjectPath :=
  st.objects.keys.insertionSort fun a b => a.name ≤ b.name

@[simp] theorem lookup_insert (st : Storage) (p : ObjectPath) (o : Obj) :
    (st.insert p o).lookup p = some (o, st.seq + 1) := by
  simp [lookup, insert]

variable {p : ObjectPath}

theorem lookup_insert_ne (st : Storage) {q : ObjectPath} (o : Obj) (h : q ≠ p) :
    (st.insert p o).lookup q = st.lookup q := by
  simp [lookup, insert, AList.lookup_insert_ne h]

@[simp] theorem seq_insert (st : Storage) (p : ObjectPath) (o : Obj) :
    (st.insert p o).seq = st.seq + 1 := rfl

@[simp] theorem lookup_delete (st : Storage) (p : ObjectPath) : (st.delete p).lookup p = none := by
  simp [lookup, delete]

theorem lookup_delete_ne (st : Storage) {q : ObjectPath} (h : q ≠ p) :
    (st.delete p).lookup q = st.lookup q := by
  simp [lookup, delete, AList.lookup_erase_ne h]

@[simp] theorem seq_delete (st : Storage) (p : ObjectPath) : (st.delete p).seq = st.seq := rfl

theorem mem_list (st : Storage) (p : ObjectPath) :
    p ∈ st.list ↔ ∃ x, st.lookup p = some x := by
  unfold list lookup
  rw [List.mem_insertionSort, ← AList.mem_keys, ← AList.lookup_isSome, Option.isSome_iff_exists]

variable {st : Storage}

theorem get_ok {x : Obj × Etag} : st.get p = .ok x ↔ st.lookup p = some x := by
  unfold get
  cases st.lookup p with
  | none | some y => simp

theorem getOpts_ok {etag : Etag} {x : Obj × Etag} (h : st.getOpts p etag = .ok x) :
    st.lookup p = some x := by
  unfold getOpts at h
  cases hg : st.get p with
  | error err => rw [hg] at h; cases h
  | ok y =>
    rw [hg] at h
    simp only at h
    split at h
    · cases h
    · cases h
      exact get_ok.mp hg

def Admits (st : Storage) (p : ObjectPath) : PutMode → Prop
  | .create => st.lookup p = none
  | .update etag => ∃ o, st.lookup p = some (o, etag)

/-- A successful conditional write stores the object under the next tag, and its
precondition held. -/
theorem putOpts_ok {st' : Storage} {o : Obj} {mode : PutMode} {e : Etag}
    (h : st.putOpts p o mode = (.ok e, st')) :
    e = st.seq + 1 ∧ st' = st.insert p o ∧ st.Admits p mode := by
  unfold putOpts at h
  cases mode with
  | create =>
    cases hl : st.lookup p with
    | none =>
      rw [hl] at h
      obtain ⟨h1, h2⟩ := Prod.mk.inj h
      exact ⟨(Except.ok.inj h1).symm, h2.symm, hl⟩
    | some x =>
      rw [hl] at h
      cases (Prod.mk.inj h).1
  | update etag =>
    cases hl : st.lookup p with
    | none =>
      rw [hl] at h
      cases (Prod.mk.inj h).1
    | some x =>
      obtain ⟨o', cur⟩ := x
      rw [hl] at h
      simp only at h
      split at h
      · rename_i he
        obtain ⟨h1, h2⟩ := Prod.mk.inj h
        exact ⟨(Except.ok.inj h1).symm, h2.symm, o', by rw [hl, he]⟩
      · cases (Prod.mk.inj h).1

end Storage

end OxKv
