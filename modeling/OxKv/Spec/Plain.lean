import OxKv.Spec.Contents

/-!
A plain ordered map: what the store is for. Writes insert or erase one key, a scan
lists the rows inside inclusive bounds in key order, or backwards.
-/

namespace OxKv

/-- The contents of a store as an ordered map. -/
abbrev Plain := SortedMap Key Bytes

namespace Plain

def apply (m : Plain) (op : Op) : Plain :=
  match op.2 with
  | some v => m.insert op.1 v
  | none => m.erase op.1

def applyAll (m : Plain) (ops : List Op) : Plain := ops.foldl apply m

/-- The rows of a scan: both cursors inclusive, backwards only from a start. -/
def gets (m : Plain) (limit : Option Nat) (d : Direction) (c : Cursor) : List KeyValue :=
  match d with
  | .next => cut limit (m.toList.filter fun kv => inRange c.1 c.2 kv.1)
  | .prev =>
    match c.1 with
    | none => []
    | some _ => cut limit (m.toList.filter fun kv => inRange c.2 c.1 kv.1).reverse

theorem get?_apply (m : Plain) (op : Op) (k : Key) :
    (m.apply op).get? k = Function.update m.get? op.1 op.2 k := by
  obtain ⟨key, value⟩ := op
  cases value with
  | none =>
    rw [apply, SortedMap.get?_erase, Function.update_apply]
  | some v =>
    rw [apply, SortedMap.get?_insert, Function.update_apply]

theorem get?_applyAll (m : Plain) (ops : List Op) : (m.applyAll ops).get? = applyOps m.get? ops := by
  induction ops generalizing m with
  | nil => rfl
  | cons op ops ih =>
    show (applyAll (m.apply op) ops).get? = applyOps (Function.update m.get? op.1 op.2) ops
    rw [ih, show (m.apply op).get? = Function.update m.get? op.1 op.2 from funext (m.get?_apply op)]

/-- An overlay decides about the keys it holds. -/
theorem get?_applyAll_toList (m : Plain) (overlay : MemMap) (k : Key) :
    (m.applyAll overlay.toList).get? k = (overlay.get? k).getD (m.get? k) := by
  rw [get?_applyAll, applyOps_apply, lookup_reverse_toList]

variable {m : Plain}

/-- A scan depends only on the keys inside its bounds. -/
theorem filter_congr {m' : Plain} {p : Key → Bool} (h : ∀ k, p k → m.get? k = m'.get? k) :
    m.toList.filter (fun kv => p kv.1) = m'.toList.filter fun kv => p kv.1 := by
  have heq : (m.filter fun k _ => p k) = m'.filter fun k _ => p k := by
    apply SortedMap.ext_get
    intro k
    rw [SortedMap.get?_filter, SortedMap.get?_filter]
    cases hp : p k with
    | true => rw [h k hp]
    | false => cases m.get? k <;> cases m'.get? k <;> simp [Option.filter]
  exact congrArg SortedMap.toList heq

variable {d : Direction} {c : Cursor}

theorem gets_congr {m' : Plain} {limit : Option Nat}
    (h : ∀ k, inRange (scanBounds d c).1 (scanBounds d c).2 k → m.get? k = m'.get? k) :
    m.gets limit d c = m'.gets limit d c := by
  obtain ⟨start, stop⟩ := c
  cases d with
  | next =>
    have hrows := filter_congr (p := inRange start stop) h
    simp only [gets, hrows]
  | prev =>
    cases start with
    | none => rfl
    | some k =>
      have hrows := filter_congr (p := inRange stop (some k)) h
      simp only [gets, hrows]

/-- `a` comes before `b` in a scan. -/
def precedes (d : Direction) (a b : Key) : Prop :=
  match d with
  | .next => a < b
  | .prev => b < a

theorem precedes_trans {a b c : Key} (h1 : precedes d a b) (h2 : precedes d b c) :
    precedes d a c := by
  cases d with
  | next => exact lt_trans h1 h2
  | prev => exact lt_trans h2 h1

/-- The keys a scan may list: backwards only from a start. -/
def inScan (d : Direction) (c : Cursor) (k : Key) : Bool :=
  !(d = .prev ∧ c.1 = none) && inRange (scanBounds d c).1 (scanBounds d c).2 k

/-- The rows of a scan without a limit. -/
theorem mem_gets {kv : KeyValue} :
    kv ∈ m.gets none d c ↔ inScan d c kv.1 ∧ m.get? kv.1 = some kv.2 := by
  rw [← SortedMap.mem_toList, and_comm]
  obtain ⟨start, stop⟩ := c
  cases d with
  | next => simp [gets, inScan, scanBounds, cut]
  | prev => cases start <;> simp [gets, inScan, scanBounds, cut]

theorem mem_of_mem_gets {limit : Option Nat} {kv : KeyValue} (h : kv ∈ m.gets limit d c) :
    kv ∈ m.toList := by
  obtain ⟨start, stop⟩ := c
  cases d with
  | next => exact (List.mem_filter.mp (mem_of_mem_cut h)).1
  | prev =>
    cases start with
    | none => cases h
    | some k => exact (List.mem_filter.mp (List.mem_reverse.mp (mem_of_mem_cut h))).1

theorem gets_ordered (m : Plain) (d : Direction) (c : Cursor) :
    (m.gets none d c).Pairwise fun a b => precedes d a.1 b.1 := by
  obtain ⟨start, stop⟩ := c
  cases d with
  | next => exact m.ascending.filter _
  | prev =>
    cases start with
    | none => exact .nil
    | some k => exact List.pairwise_reverse.mpr (m.ascending.filter _)

/-- Rows in the order of the scan that list its keys with their values are the scan. -/
theorem gets_eq_cut {rows : List KeyValue} (hord : rows.Pairwise fun a b => precedes d a.1 b.1)
    (hmem : ∀ kv, kv ∈ rows ↔ inScan d c kv.1 ∧ m.get? kv.1 = some kv.2) (limit : Option Nat) :
    m.gets limit d c = cut limit rows := by
  have hfilter : ∀ (lo hi : Option Key) {l : List KeyValue}, l.Pairwise (fun a b => a.1 < b.1) →
      (∀ kv, kv ∈ l ↔ inRange lo hi kv.1 ∧ m.get? kv.1 = some kv.2) →
      (m.toList.filter fun kv => inRange lo hi kv.1) = l := by
    intro lo hi l hl hm
    refine SortedMap.ascending_unique (m.ascending.filter _) hl fun kv => ?_
    rw [List.mem_filter, hm, and_comm, ← SortedMap.mem_toList]
  obtain ⟨start, stop⟩ := c
  cases d with
  | next =>
    rw [gets, hfilter start stop hord]
    simpa [inScan, scanBounds] using hmem
  | prev =>
    cases start with
    | none =>
      have hnil : rows = [] := List.eq_nil_iff_forall_not_mem.mpr fun kv hkv => by
        simpa [inScan] using ((hmem kv).mp hkv).1
      rw [hnil]
      cases limit <;> simp [gets, cut]
    | some k =>
      have hrev := hfilter stop (some k) (List.pairwise_reverse.mpr hord) (by
        simpa [inScan, scanBounds] using hmem)
      show cut limit (m.toList.filter fun kv => inRange stop (some k) kv.1).reverse = _
      rw [hrev, List.reverse_reverse]

end Plain

end OxKv
