import OxKv.Levels
import OxKv.Format.SstContent

/-!
What a store contains, as a plain map, and how stored objects show it.

* `KMap`, `applyOps`: the abstract contents and the effect of operations on them;
* `stores`, `archive`: the objects ever written, read off the history; WAL, SST and
  blob objects are never rewritten;
* `content`, `resolve`, `walHit`: what the archived objects say about a key;
* `Shows`: a raw entry shows a value of the contents.
-/

namespace OxKv

open Layers

/-! ## Abstract contents -/

abbrev KMap := Key → Option Bytes

def KMap.empty : KMap := fun _ => none

def applyOps (m : KMap) (ops : List Op) : KMap :=
  ops.foldl (fun m op => Function.update m op.1 op.2) m

@[simp] theorem applyOps_nil (m : KMap) : applyOps m [] = m := rfl

@[simp] theorem applyOps_cons (m : KMap) (op : Op) (ops : List Op) :
    applyOps m (op :: ops) = applyOps (Function.update m op.1 op.2) ops := rfl

theorem applyOps_append (m : KMap) (a b : List Op) :
    applyOps m (a ++ b) = applyOps (applyOps m a) b := List.foldl_append

/-- The last operation on a key decides. -/
theorem applyOps_apply (m : KMap) (ops : List Op) (k : Key) :
    applyOps m ops k = (ops.reverse.lookup k).getD (m k) := by
  induction ops using List.reverseRecOn with
  | nil => rfl
  | append_singleton ops op ih =>
    obtain ⟨key, value⟩ := op
    rw [applyOps_append, List.reverse_append, List.reverse_singleton, List.singleton_append,
      SortedMap.lookup_cons_ite]
    by_cases hk : k = key
    · simp [hk]
    · simp only [applyOps_cons, applyOps_nil, Function.update_of_ne hk, ih]
      rw [if_neg hk]

/-- The contents after the writes of instance `i` in a history (newest first). -/
def liveFrom (base : KMap) (i : Nat) : History → KMap
  | [] => base
  | (who, .wrote ops) :: h =>
    if who.inst = i then applyOps (liveFrom base i h) ops else liveFrom base i h
  | _ :: h => liveFrom base i h

/-! ## Objects ever written -/

/-- The successful writes of a history, newest first. -/
def stores (h : History) : List (Who × ObjectPath × Obj × Etag) :=
  h.filterMap fun
    | (who, .stored p o e) => some (who, p, o, e)
    | _ => none

/-- WAL, SST and blob objects. -/
def ObjectPath.isData : ObjectPath → Bool
  | .wal _ _ => true
  | .sst _ _ _ => true
  | .blob _ _ => true
  | _ => false

/-- The object last written under a data path. -/
def archived : List (Who × ObjectPath × Obj × Etag) → ObjectPath → Option Obj
  | [], _ => none
  | (_, q, o, _) :: S, p => if q = p ∧ p.isData then some o else archived S p

abbrev Objects := ObjectPath → Option Obj

def World.archive (w : World) : Objects := archived (stores w.hist)

def Grows (a b : Objects) : Prop := ∀ p o, a p = some o → b p = some o

theorem Grows.refl (a : Objects) : Grows a a := fun _ _ h => h

theorem Grows.trans {a b c : Objects} (h : Grows a b) (h' : Grows b c) : Grows a c :=
  fun p o hp => h' p o (h p o hp)

variable {p : ObjectPath} {o : Obj}

theorem archived_isData {S : List (Who × ObjectPath × Obj × Etag)} (h : archived S p = some o) :
    p.isData = true := by
  induction S with
  | nil => cases h
  | cons x S ih =>
    obtain ⟨who, q, o', e⟩ := x
    simp only [archived] at h
    split at h
    · rename_i hq
      exact hq.2
    · exact ih h

theorem mem_of_archived {S : List (Who × ObjectPath × Obj × Etag)} (h : archived S p = some o) :
    ∃ who e, (who, p, o, e) ∈ S := by
  induction S with
  | nil => cases h
  | cons x S ih =>
    obtain ⟨who, q, o', e⟩ := x
    simp only [archived] at h
    split at h
    · rename_i hq
      cases h
      exact ⟨who, e, by simp [hq.1]⟩
    · obtain ⟨who', e', hm⟩ := ih h
      exact ⟨who', e', by simp [hm]⟩

/-! ## What the objects say -/

def SstFile.rows (crc32 : Bytes → UInt32) (f : SstFile) : MemMap :=
  match f.scanWithTombstones crc32 none none with
  | .ok rows => SortedMap.empty.insertAll rows
  | .error _ => SortedMap.empty

theorem insertAll_toList (m : MemMap) : SortedMap.empty.insertAll m.toList = m := by
  apply SortedMap.ext_get
  intro k
  rw [SortedMap.get?_insertAll]
  simp only [SortedMap.get?_empty, Option.or_none]
  have hasc := m.ascending
  cases hm : m.get? k with
  | none =>
    apply SortedMap.lookup_eq_none_of_forall_ne
    intro e he hek
    obtain ⟨key, v⟩ := e
    have := (m.mem_toList key v).mp (List.mem_reverse.mp he)
    simp only at hek
    rw [hek, hm] at this
    cases this
  | some v =>
    cases hl : m.toList.reverse.lookup k with
    | none =>
      have hmem := (m.mem_toList k v).mpr hm
      have hnone := List.lookup_eq_none_iff.mp hl (k, v) (List.mem_reverse.mpr hmem)
      simp at hnone
    | some u =>
      have hmem := List.mem_reverse.mp (SortedMap.mem_of_lookup hl)
      rw [(m.mem_toList k u).mp hmem] at hm
      exact hm

/-- The newest entry of an overlay is its only one. -/
theorem lookup_reverse_toList (upper : MemMap) (k : Key) :
    upper.toList.reverse.lookup k = upper.get? k := by
  have h := SortedMap.get?_insertAll SortedMap.empty upper.toList k
  rw [insertAll_toList] at h
  rw [h, show (SortedMap.empty : MemMap).get? k = none from rfl, Option.or_none]

theorem SstFile.Holds.rows_eq {crc32 : Bytes → UInt32} {f : SstFile} {m : MemMap}
    (h : f.Holds crc32 m) : f.rows crc32 = m := by
  have hall : (m.toList.filter fun op => inRange none none op.1) = m.toList := by
    apply List.filter_eq_self.mpr
    simp [inRange]
  unfold SstFile.rows
  rw [h.scan none none, hall]
  exact insertAll_toList m

/-- The entries of the SST file archived under a path. -/
def content (cr : Crates) (ob : Objects) (p : ObjectPath) : MemMap :=
  match ob p with
  | some (.sst f) => f.rows cr.crc32
  | _ => SortedMap.empty

/-- The value behind a raw entry: itself, or the blob it points to. -/
def resolve (cr : Crates) (ob : Objects) (raw : Bytes) : Option Bytes :=
  match tryDecodeBlobPointer cr raw with
  | none => some raw
  | some ptr =>
    match ptr.blob, ob ptr.blob with
    | .blob _ _, some (.bytes b) => if b.length = ptr.len ∧ cr.crc32 b = ptr.crc then some b else none
    | _, _ => none

/-- The operations of the WAL file archived under a path. -/
def walOps (ob : Objects) (p : ObjectPath) : List Op :=
  match ob p with
  | some (.bytes b) => decodeWalRecords b
  | _ => []

/-- The newest entry for a key in the listed WAL files. -/
def walHit (ob : Objects) (ids : List ObjectPath) (k : Key) : Option (Option Bytes) :=
  (ids.flatMap (walOps ob)).reverse.lookup k

variable {ob ob' : Objects}

theorem content_mono {cr : Crates} (h : Grows ob ob') (hp : ob p = some o) :
    content cr ob' p = content cr ob p := by
  simp only [content, hp, h p o hp]

theorem walOps_mono (h : Grows ob ob') (hp : ob p = some o) : walOps ob' p = walOps ob p := by
  simp only [walOps, hp, h p o hp]

theorem resolve_mono {cr : Crates} (h : Grows ob ob') {raw v : Bytes}
    (hr : resolve cr ob raw = some v) : resolve cr ob' raw = some v := by
  unfold resolve at hr ⊢
  cases hd : tryDecodeBlobPointer cr raw with
  | none => rw [hd] at hr; exact hr
  | some ptr =>
    rw [hd] at hr
    simp only at hr ⊢
    cases ho : ob ptr.blob with
    | none => rw [ho] at hr; cases hp : ptr.blob <;> rw [hp] at hr <;> cases hr
    | some o => rw [ho] at hr; rw [h _ _ ho]; exact hr

theorem walHit_mono (h : Grows ob ob') {ids : List ObjectPath}
    (hids : ∀ p ∈ ids, ∃ o, ob p = some o) (k : Key) : walHit ob' ids k = walHit ob ids k := by
  have hrows : ids.flatMap (walOps ob') = ids.flatMap (walOps ob) := by
    apply List.flatMap_congr
    intro p hp
    obtain ⟨o, ho⟩ := hids p hp
    exact walOps_mono h ho
  unfold walHit
  rw [hrows]

theorem walHit_append (ob : Objects) (ids : List ObjectPath) (id : ObjectPath) (k : Key) :
    walHit ob (ids ++ [id]) k = ((walOps ob id).reverse.lookup k).or (walHit ob ids k) := by
  unfold walHit
  rw [List.flatMap_append, List.reverse_append, List.lookup_append]
  simp only [List.flatMap_cons, List.flatMap_nil, List.append_nil]

@[simp] theorem walHit_nil (ob : Objects) (k : Key) : walHit ob [] k = none := rfl

/-! ## Raw entries and the values they show -/

/-- A raw entry shows the contents of its key: nothing for an absent entry or a
tombstone, otherwise some value, and if `strict` the one the entry resolves to. -/
def Shows (strict : Prop) (cr : Crates) (ob : Objects) (x : Option (Option Bytes))
    (y : Option Bytes) : Prop :=
  match x with
  | some (some raw) => ∃ v, y = some v ∧ (strict → resolve cr ob raw = some v)
  | _ => y = none

section Shows

variable {strict : Prop} {cr : Crates} {ob : Objects}

variable {y : Option Bytes}

@[simp] theorem shows_none : Shows strict cr ob none y ↔ y = none := .rfl

@[simp] theorem shows_tombstone : Shows strict cr ob (some none) y ↔ y = none := .rfl

variable {x : Option (Option Bytes)}

theorem Shows.mono {ob' : Objects} (hg : Grows ob ob') (h : Shows strict cr ob x y) :
    Shows strict cr ob' x y := by
  match x, h with
  | none, h => exact h
  | some none, h => exact h
  | some (some raw), ⟨v, hv, hr⟩ => exact ⟨v, hv, fun hs => resolve_mono hg (hr hs)⟩

/-- A strict entry shows only one value. -/
theorem Shows.unique (hs : strict) {y' : Option Bytes} (h : Shows strict cr ob x y)
    (h' : Shows strict cr ob x y') : y = y' := by
  match x, h, h' with
  | none, h, h' => exact h.trans h'.symm
  | some none, h, h' => exact h.trans h'.symm
  | some (some raw), ⟨v, hv, hr⟩, ⟨v', hv', hr'⟩ =>
    have heq := (hr hs).symm.trans (hr' hs)
    rw [hv, hv', heq]

/-- Whether a key is present does not depend on `strict`. -/
theorem Shows.isSome (h : Shows strict cr ob x y) : y.isSome = (x.getD none).isSome := by
  match x, h with
  | none, h => rw [h]; rfl
  | some none, h => rw [h]; rfl
  | some (some raw), ⟨v, hv, _⟩ => rw [hv]; rfl

/-- A value that is no blob pointer shows itself. -/
theorem shows_plain {x : Option Bytes}
    (h : strict → ∀ v, x = some v → tryDecodeBlobPointer cr v = none) :
    Shows strict cr ob (some x) x := by
  cases x with
  | none => rfl
  | some v =>
    refine ⟨v, rfl, fun hs => ?_⟩
    unfold resolve
    rw [h hs v rfl]

def SameShows (strict : Prop) (cr : Crates) (ob : Objects) (x x' : Option (Option Bytes)) : Prop :=
  ∀ y, Shows strict cr ob x y → Shows strict cr ob x' y

end Shows

end OxKv
