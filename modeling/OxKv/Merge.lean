import OxKv.Lib.Layers
import OxKv.Format.Sst

/-!
Newest-wins merging of read sources: the materialised merge behind backward
scans and compaction, and the pull merge behind forward scans.

* `mem_mergeSources`: the materialised merge lists the live entries of the layers, the
  newest entry of each key;
* `pullMergeNext_eq`: on error-free ascending sources the pull merge returns the
  first `limit` rows of the materialised merge;
* `pull_merge_streams`: and reads each source at most one entry past the last row.
-/

namespace OxKv

open Layers

inductive Direction where
  | next
  | prev
  deriving DecidableEq, Repr

abbrev KeyValue := Key × Bytes

abbrev Cursor := Option Key × Option Key

/-- `filter_rows`: the rows of a table inside the bounds of a scan. -/
def filterRows (m : MemMap) (d : Direction) (c : Cursor) : List Op :=
  match d with
  | .next => m.toList.filter fun e => inRange c.1 c.2 e.1
  | .prev => m.toList.filter fun e => inRange c.2 c.1 e.1

def cut {α : Type} : Option Nat → List α → List α
  | none, l => l
  | some n, l => l.take n

/-! ## Materialised merge -/

def liveRows (m : MemMap) : List KeyValue :=
  m.toList.filterMap fun e => e.2.map (e.1, ·)

/-- `merge_sources`: sources newest first. -/
def mergeSources (sources : List (List Op)) : List KeyValue := liveRows (mergeAll sources)

def mergedGetsBytes (sources : List (List Op)) (limit : Option Nat) (d : Direction) (c : Cursor) :
    List KeyValue :=
  match d with
  | .next => cut limit ((mergeSources sources).filter fun kv => inRange c.1 c.2 kv.1)
  | .prev =>
    match c.1 with
    | none => []
    | some _ => cut limit ((mergeSources sources).filter fun kv => inRange c.2 c.1 kv.1).reverse

/-! ## Pull merge -/

/-- `MergeHeapEntry`; the rank is the position of the source, newest first. -/
structure HeapEntry where
  key : Key
  rank : Nat
  value : Option Bytes
  deriving DecidableEq

/-- The heap order: ascending key, then the newer source. -/
def HeapEntry.Before (a b : HeapEntry) : Prop := a.key < b.key ∨ a.key = b.key ∧ a.rank < b.rank

instance (a b : HeapEntry) : Decidable (a.Before b) := by unfold HeapEntry.Before; infer_instance

/-- The binary heap as the list of its entries in pop order. -/
def heapPush (e : HeapEntry) : List HeapEntry → List HeapEntry
  | [] => [e]
  | x :: xs => if e.Before x then e :: x :: xs else x :: heapPush e xs

structure PullState where
  sources : List (List (Res Op))
  heap : List HeapEntry

/-- Pull the next item of one source into the heap; an error item ends the merge. -/
def PullState.pull (st : PullState) (rank : Nat) : Res PullState :=
  match st.sources[rank]? with
  | some (.ok (k, v) :: rest) => .ok ⟨st.sources.set rank rest, heapPush ⟨k, rank, v⟩ st.heap⟩
  | some (.error e :: _) => .error e
  | _ => .ok st

/-- Pull the first item of every source. -/
def PullState.pullEach : PullState → List Nat → Res PullState
  | st, [] => .ok st
  | st, r :: rs =>
    match st.pull r with
    | .error e => .error e
    | .ok st => st.pullEach rs

/-- Drop the older entries of `key` from the top of the heap, refilling from
their sources. -/
def PullState.dropDups (key : Key) : Nat → PullState → Res PullState
  | 0, st => .ok st
  | fuel + 1, st =>
    match st.heap with
    | [] => .ok st
    | top :: heap =>
      if top.key ≠ key then .ok st
      else
        match PullState.pull ⟨st.sources, heap⟩ top.rank with
        | .error e => .error e
        | .ok st => st.dropDups key fuel

/-- The main loop; `out` are the rows found so far. The result are all rows and the state
in which the loop stopped. -/
def PullState.loop (limit : Option Nat) :
    Nat → PullState → List KeyValue → Res (List KeyValue × PullState)
  | 0, st, out => .ok (out, st)
  | fuel + 1, st, out =>
    match st.heap with
    | [] => .ok (out, st)
    | entry :: heap =>
      match PullState.dropDups entry.key fuel ⟨st.sources, heap⟩ with
      | .error e => .error e
      | .ok st =>
        match st.pull entry.rank with
        | .error e => .error e
        | .ok st =>
          match entry.value with
          | none => st.loop limit fuel out
          | some v =>
            let out := out ++ [(entry.key, v)]
            if limit.any (fun lim => decide (lim ≤ out.length)) then .ok (out, st)
            else st.loop limit fuel out

/-- `pull_merge_next` with what it leaves of the borrowed sources; every round uses up an
item, so their number is enough fuel. -/
def pullMerge (sources : List (List (Res Op))) (limit : Option Nat) :
    Res (List KeyValue × List (List (Res Op))) :=
  if limit = some 0 then .ok ([], sources)
  else
    match PullState.pullEach ⟨sources, []⟩ (List.range sources.length) with
    | .error e => .error e
    | .ok st =>
      (st.loop limit ((sources.map List.length).sum + 1) []).map fun x => (x.1, x.2.sources)

/-- `pull_merge_next`: the merged rows. -/
def pullMergeNext (sources : List (List (Res Op))) (limit : Option Nat) : Res (List KeyValue) :=
  (pullMerge sources limit).map Prod.fst

/-! ## The heap -/

theorem HeapEntry.Before.trans {a b c : HeapEntry} (h1 : a.Before b) (h2 : b.Before c) :
    a.Before c := by
  rcases h1 with h1 | ⟨h1, r1⟩ <;> rcases h2 with h2 | ⟨h2, r2⟩
  · exact .inl (h1.trans h2)
  · exact .inl (h2 ▸ h1)
  · exact .inl (h1 ▸ h2)
  · exact .inr ⟨h1.trans h2, r1.trans r2⟩

theorem HeapEntry.before_of_not {a b : HeapEntry} (h : ¬ a.Before b) (hr : a.rank ≠ b.rank) :
    b.Before a := by
  rcases lt_trichotomy a.key b.key with hk | hk | hk
  · exact absurd (.inl hk) h
  · right
    refine ⟨hk.symm, ?_⟩
    have : ¬ a.rank < b.rank := fun hlt => h (.inr ⟨hk, hlt⟩)
    omega
  · exact .inl hk

theorem mem_heapPush (e x : HeapEntry) (h : List HeapEntry) :
    x ∈ heapPush e h ↔ x = e ∨ x ∈ h := by
  induction h with
  | nil => simp [heapPush]
  | cons y ys ih =>
    simp only [heapPush]
    split
    · simp
    · simp only [List.mem_cons, ih]
      tauto

variable {e : HeapEntry}

theorem heapPush_sorted {h : List HeapEntry} (hs : h.Pairwise HeapEntry.Before)
    (hr : ∀ x ∈ h, e.rank ≠ x.rank) : (heapPush e h).Pairwise HeapEntry.Before := by
  induction h with
  | nil => simp [heapPush]
  | cons y ys ih =>
    obtain ⟨hy, hys⟩ := List.pairwise_cons.mp hs
    simp only [heapPush]
    split
    · rename_i hb
      refine List.pairwise_cons.mpr ⟨?_, hs⟩
      intro x hx
      rcases List.mem_cons.mp hx with rfl | hx
      · exact hb
      · exact hb.trans (hy x hx)
    · rename_i hb
      refine List.pairwise_cons.mpr ⟨?_, ih hys fun x hx => hr x (by simp [hx])⟩
      intro x hx
      rcases (mem_heapPush e x ys).mp hx with rfl | hx
      · exact HeapEntry.before_of_not hb (hr y (by simp))
      · exact hy x hx

/-! ## Refinement to lists of rows

`W` are the rows each source still has to deliver; `P i` says that the first of
them is already in the heap. -/

structure PullState.Rep (st : PullState) (W : List (List Op)) (P : Nat → Bool) : Prop where
  sources : st.sources = W.mapIdx fun i l => (if P i then l.tail else l).map .ok
  sorted : st.heap.Pairwise HeapEntry.Before
  mem : ∀ e, e ∈ st.heap ↔ P e.rank = true ∧ ∃ t, W[e.rank]? = some ((e.key, e.value) :: t)

def Ascending (W : List (List Op)) : Prop := ∀ l ∈ W, l.Pairwise (fun a b => a.1 < b.1)

variable {W : List (List Op)} {st : PullState} {P : Nat → Bool}

/-- The first row of a source is in the heap. -/
theorem PullState.Rep.front (h : st.Rep W P) (hasc : Ascending W) {i : Nat} (hi : i < W.length)
    (hP : P i = true) {q : Op} (hq : q ∈ W[i]) : ∃ x ∈ st.heap, x.rank = i ∧ x.key ≤ q.1 := by
  have hWi : W[i]? = some W[i] := List.getElem?_eq_getElem hi
  cases hrow : W[i] with
  | nil => rw [hrow] at hq; cases hq
  | cons p t =>
    rw [hrow] at hWi hq
    refine ⟨⟨p.1, i, p.2⟩, (h.mem _).mpr ⟨hP, t, hWi⟩, rfl, ?_⟩
    rcases List.mem_cons.mp hq with rfl | hq
    · exact le_rfl
    · exact le_of_lt ((List.pairwise_cons.mp (hasc _ (List.mem_of_getElem? hWi))).1 q hq)

/-- Popping an entry takes its row out of `W`. -/
theorem PullState.Rep.pop {heap : List HeapEntry} (h : st.Rep W P) (hh : st.heap = e :: heap) :
    ∃ t, W[e.rank]? = some ((e.key, e.value) :: t) ∧ P e.rank = true ∧
      PullState.Rep ⟨st.sources, heap⟩ (W.set e.rank t) (Function.update P e.rank false) := by
  obtain ⟨hP, t, hW⟩ := (h.mem e).mp (by simp [hh])
  have hsorted := h.sorted
  rw [hh, List.pairwise_cons] at hsorted
  refine ⟨t, hW, hP, ⟨?_, hsorted.2, ?_⟩⟩
  · rw [h.sources]
    apply List.ext_getElem?
    intro i
    by_cases hi : e.rank = i
    · subst hi
      obtain ⟨hlt, hrow⟩ := List.getElem?_eq_some_iff.mp hW
      simp [hrow, hP, hlt]
    · simp [hi, Function.update_of_ne (Ne.symm hi)]
  · intro x
    have hx := h.mem x
    rw [hh, List.mem_cons] at hx
    by_cases hr : x.rank = e.rank
    · -- at most one entry of a source is in the heap
      have hne : x ∉ heap := by
        intro hmem
        obtain ⟨_, t', hW'⟩ := hx.mp (.inr hmem)
        rw [hr, hW] at hW'
        obtain ⟨h1, h2⟩ := Prod.mk.inj (List.cons.inj (Option.some.inj hW')).1
        have hb := hsorted.1 x hmem
        unfold HeapEntry.Before at hb
        rw [← h1, hr] at hb
        simp at hb
      simp [hne, hr]
    · have hxe : x ≠ e := fun h => hr (h ▸ rfl)
      simp only [hxe, false_or] at hx
      rw [hx, Function.update_of_ne hr, List.getElem?_set_ne (Ne.symm hr)]

variable {r : Nat}

/-- A source without rows has nothing to put into the heap. -/
theorem PullState.Rep.exhausted (h : st.Rep W P) (hr : W[r]?.getD [] = []) :
    st.Rep W (Function.update P r true) := by
  refine ⟨?_, h.sorted, ?_⟩
  · rw [h.sources]
    apply List.ext_getElem?
    intro i
    simp only [List.getElem?_mapIdx]
    by_cases hi : i = r
    · subst hi
      cases hW : W[i]? with
      | none => rfl
      | some l =>
        have hl : l = [] := by simpa [hW] using hr
        simp [hl]
    · rw [Function.update_of_ne hi]
  · intro x
    rw [h.mem x]
    by_cases hx : x.rank = r
    · have hno : ¬ ∃ t, W[x.rank]? = some ((x.key, x.value) :: t) := by
        rintro ⟨t, ht⟩
        rw [← hx, ht] at hr
        cases hr
      simp [hno]
    · rw [Function.update_of_ne hx]

/-- Pulling a source whose first row is not in the heap puts it there. -/
theorem PullState.Rep.pull (h : st.Rep W P) (hP : P r = false) :
    ∃ st', st.pull r = .ok st' ∧ st'.Rep W (Function.update P r true) := by
  have hsrc : st.sources[r]? = W[r]?.map fun l => l.map .ok := by
    rw [h.sources, List.getElem?_mapIdx]
    simp [hP]
  have hheap : ∀ x ∈ st.heap, r ≠ x.rank := by
    rintro x hx rfl
    rw [((h.mem x).mp hx).1] at hP
    cases hP
  unfold PullState.pull
  rw [hsrc]
  match hW : W[r]? with
  | none => exact ⟨st, rfl, h.exhausted (by simp [hW])⟩
  | some [] => exact ⟨st, rfl, h.exhausted (by simp [hW])⟩
  | some ((k, v) :: t) =>
    obtain ⟨hlt, hrow⟩ := List.getElem?_eq_some_iff.mp hW
    refine ⟨_, rfl, ⟨?_, heapPush_sorted h.sorted hheap, ?_⟩⟩
    · apply List.ext_getElem?
      intro i
      simp only [h.sources, List.getElem?_set, List.getElem?_mapIdx, List.length_mapIdx]
      by_cases hi : r = i
      · subst hi; simp [hrow, hlt]
      · simp [hi, Function.update_of_ne (Ne.symm hi)]
    · intro x
      rw [mem_heapPush]
      by_cases hr : x.rank = r
      · have hnot : x ∉ st.heap := fun hx => hheap x hx hr.symm
        simp only [hnot, or_false, hr, Function.update_self, hW, true_and]
        constructor
        · rintro rfl
          exact ⟨t, rfl⟩
        · rintro ⟨t', ht'⟩
          obtain ⟨h1, h2⟩ := Prod.mk.inj (List.cons.inj (Option.some.inj ht')).1
          cases x
          simp_all
      · have hne : x ≠ ⟨k, r, v⟩ := fun he => hr (he ▸ rfl)
        rw [Function.update_of_ne hr, ← h.mem x]
        simp [hne]

/-- Pulling every source fills the heap. -/
theorem PullState.Rep.pullEach (h : st.Rep W P) (rs : List Nat) (hnd : rs.Nodup)
    (hP : ∀ r ∈ rs, P r = false) :
    ∃ st', st.pullEach rs = .ok st' ∧ st'.Rep W fun i => P i || decide (i ∈ rs) := by
  induction rs generalizing st P with
  | nil => exact ⟨st, rfl, by simpa using h⟩
  | cons r rs ih =>
    obtain ⟨hr, hnd⟩ := List.nodup_cons.mp hnd
    obtain ⟨st1, h1, hrep1⟩ := h.pull (hP r (by simp))
    have hP1 : ∀ r' ∈ rs, Function.update P r true r' = false := by
      intro r' hr'
      have hne : r' ≠ r := by
        rintro rfl
        exact hr hr'
      rw [Function.update_of_ne hne]
      exact hP r' (by simp [hr'])
    obtain ⟨st2, h2, hrep2⟩ := ih hrep1 hnd hP1
    refine ⟨st2, by simp only [PullState.pullEach, h1, h2], ?_⟩
    have hfun : (fun i => Function.update P r true i || decide (i ∈ rs))
        = fun i => P i || decide (i ∈ r :: rs) := by
      funext i
      by_cases hi : i = r
      · subst hi; simp
      · simp [hi]
    rwa [hfun] at hrep2

/-! ## One round of the merge -/

def total (W : List (List Op)) : Nat := (W.map List.length).sum

variable {t : List Op} {k : Key} {p : Op}

/-- Taking the head of one source away keeps every other key. -/
theorem firstHit_set_tail (hW : W[r]? = some (p :: t)) (hk : k ≠ p.1) :
    firstHit (W.set r t) k = firstHit W k := by
  induction W generalizing r with
  | nil => rfl
  | cons l W ih =>
    cases r with
    | zero =>
      simp only [List.getElem?_cons_zero, Option.some.injEq] at hW
      subst hW
      rw [List.set_cons_zero, firstHit_cons, firstHit_cons, SortedMap.lookup_cons_ite, if_neg hk]
    | succ r =>
      rw [List.set_cons_succ, firstHit_cons, firstHit_cons, ih hW]

theorem total_set_tail (hW : W[r]? = some (p :: t)) : total (W.set r t) + 1 = total W := by
  induction W generalizing r with
  | nil => cases hW
  | cons l W ih =>
    cases r with
    | zero =>
      simp only [List.getElem?_cons_zero, Option.some.injEq] at hW
      subst hW
      simp [total]; omega
    | succ r =>
      have := ih hW
      simp only [total, List.set_cons_succ, List.map_cons, List.sum_cons] at this ⊢
      omega

theorem Ascending.set_tail (h : Ascending W) (hW : W[r]? = some (p :: t)) :
    Ascending (W.set r t) := by
  intro l hl
  rcases List.mem_or_eq_of_mem_set hl with hl | rfl
  · exact h l hl
  · exact (List.pairwise_cons.mp (h _ (List.mem_of_getElem? hW))).2

theorem forall_set_tail {B : Op → Prop} (hW : W[r]? = some (p :: t)) (h : ∀ l ∈ W, ∀ q ∈ l, B q) :
    ∀ l ∈ W.set r t, ∀ q ∈ l, B q := by
  intro l hl q hq
  rcases List.mem_or_eq_of_mem_set hl with hl | rfl
  · exact h l hl q hq
  · exact h _ (List.mem_of_getElem? hW) q (by simp [hq])

/-- What is left of the sources after rows with keys up to `k` were taken from their
fronts. -/
def PastAll (k : Key) (W W' : List (List Op)) : Prop :=
  W'.length = W.length ∧ ∀ (i : Nat) (l' : List Op), W'[i]? = some l' →
    ∃ pre : List Op, W[i]? = some (pre ++ l') ∧ ∀ q ∈ pre, q.1 ≤ k

theorem PastAll.refl (k : Key) (W : List (List Op)) : PastAll k W W :=
  ⟨rfl, fun _ _ hl => ⟨[], hl, by simp⟩⟩

theorem PastAll.trans {k' : Key} {W' W'' : List (List Op)} (h : PastAll k W W')
    (h' : PastAll k' W' W'') (hk : k ≤ k') : PastAll k' W W'' := by
  refine ⟨h'.1.trans h.1, fun i l'' hl'' => ?_⟩
  obtain ⟨pre', hl', hpre'⟩ := h'.2 i l'' hl''
  obtain ⟨pre, hl, hpre⟩ := h.2 i _ hl'
  refine ⟨pre ++ pre', by rw [hl, List.append_assoc], fun q hq => ?_⟩
  rcases List.mem_append.mp hq with hq | hq
  · exact (hpre q hq).trans hk
  · exact hpre' q hq

theorem PastAll.set_tail (hW : W[r]? = some (p :: t)) (hk : p.1 ≤ k) : PastAll k W (W.set r t) := by
  refine ⟨List.length_set, fun i l' hl' => ?_⟩
  by_cases hi : r = i
  · subst hi
    rw [List.getElem?_set_self (List.getElem?_eq_some_iff.mp hW).1, Option.some.injEq] at hl'
    subst hl'
    exact ⟨[p], hW, by simpa using hk⟩
  · rw [List.getElem?_set_ne hi] at hl'
    exact ⟨[], hl', by simp⟩

/-- Dropping the duplicates of the least key `k` leaves sources without it; the
source `r` that delivered the deciding entry is not touched. -/
theorem PullState.Rep.dropDups (h : st.Rep W (Function.update (fun _ => true) r false)) (fuel : Nat)
    (hasc : Ascending W) (hmin : ∀ l ∈ W, ∀ q ∈ l, k ≤ q.1)
    (hr : ∀ l, W[r]? = some l → ∀ q ∈ l, k < q.1) (hf : total W ≤ fuel) :
    ∃ st' W', st.dropDups k fuel = .ok st' ∧
      st'.Rep W' (Function.update (fun _ => true) r false) ∧ Ascending W' ∧
      (∀ k', k' ≠ k → firstHit W' k' = firstHit W k') ∧ (∀ l ∈ W', ∀ q ∈ l, k < q.1) ∧
      total W' ≤ total W ∧ PastAll k W W' := by
  induction fuel generalizing st W with
  | zero =>
    refine ⟨st, W, rfl, h, hasc, fun _ _ => rfl, ?_, Nat.le_refl _, .refl k W⟩
    intro l hl q hq
    have hpos : 0 < l.length := List.length_pos_of_mem hq
    have : l.length ≤ total W := List.le_sum_of_mem (List.mem_map_of_mem hl)
    omega
  | succ fuel ih =>
    -- the state is final when no source but `r` can still hold `k`
    have final : (∀ e ∈ st.heap, e.key ≠ k) → ∀ l ∈ W, ∀ q ∈ l, k < q.1 := by
      intro hheap l hl q hq
      obtain ⟨i, hi, rfl⟩ := List.getElem_of_mem hl
      by_cases hir : i = r
      · exact hr _ (hir ▸ List.getElem?_eq_getElem hi) q hq
      · obtain ⟨x, hx, -, hle⟩ := h.front hasc hi (Function.update_of_ne hir ..) hq
        obtain ⟨-, t, hWt⟩ := (h.mem x).mp hx
        have hge := hmin _ (List.mem_of_getElem? hWt) _ List.mem_cons_self
        exact (lt_of_le_of_ne hge (Ne.symm (hheap x hx))).trans_le hle
    cases hh : st.heap with
    | nil =>
      refine ⟨st, W, by simp only [PullState.dropDups, hh], h, hasc, fun _ _ => rfl, ?_,
        Nat.le_refl _, .refl k W⟩
      exact final (by simp [hh])
    | cons top heap =>
      by_cases hk : top.key = k
      · obtain ⟨t, hWt, hP, hpop⟩ := h.pop hh
        have hne : top.rank ≠ r := by
          intro e
          rw [e, Function.update_self] at hP
          cases hP
        obtain ⟨st1, h1, hrep1⟩ := hpop.pull (Function.update_self ..)
        have hfun : Function.update (Function.update (Function.update (fun _ => true) r false)
            top.rank false) top.rank true = Function.update (fun _ => true) r false := by
          rw [Function.update_idem, Function.update_eq_self_iff, hP]
        rw [hfun] at hrep1
        have htot := total_set_tail hWt
        obtain ⟨st', W', h', hrep', hasc', hoth, hgone, hle, hpast⟩ := ih hrep1 (hasc.set_tail hWt)
          (forall_set_tail hWt hmin)
          (fun l hl => hr l (by rwa [List.getElem?_set_ne hne] at hl))
          (by omega)
        refine ⟨st', W', ?_, hrep', hasc', ?_, hgone, by omega,
          (PastAll.set_tail hWt (le_of_eq hk)).trans hpast (le_refl k)⟩
        · simp only [PullState.dropDups, hh, hk, ne_eq, not_true_eq_false, if_false, h1, h']
        · intro k' hk'
          rw [hoth k' hk', firstHit_set_tail hWt (by rw [hk]; exact hk')]
      · refine ⟨st, W, by simp only [PullState.dropDups, hh, ne_eq, hk, not_false_eq_true, if_true],
          h, hasc, fun _ _ => rfl, ?_, Nat.le_refl _, .refl k W⟩
        apply final
        intro e he hek
        rw [hh] at he
        rcases List.mem_cons.mp he with rfl | he
        · exact hk hek
        · -- the top is the least entry, and its key is at least `k`
          have hsort := h.sorted
          rw [hh, List.pairwise_cons] at hsort
          obtain ⟨_, t, hWt⟩ := (h.mem top).mp (by simp [hh])
          have hge := hmin _ (List.mem_of_getElem? hWt) _ (List.mem_cons_self ..)
          rcases hsort.1 e he with hb | ⟨hb, _⟩
          · exact absurd hb (not_lt.mpr (hek ▸ hge))
          · exact hk (hb.trans hek)

/-- The top of the heap is the newest entry of the least key. -/
theorem PullState.Rep.top {heap : List HeapEntry} (h : st.Rep W fun _ => true) (hasc : Ascending W)
    (hh : st.heap = e :: heap) :
    (∀ l ∈ W, ∀ q ∈ l, e.key ≤ q.1) ∧ firstHit W e.key = some e.value := by
  have hsort := h.sorted
  rw [hh, List.pairwise_cons] at hsort
  obtain ⟨_, t, hWt⟩ := (h.mem e).mp (by simp [hh])
  have hmin : ∀ l ∈ W, ∀ q ∈ l, e.key ≤ q.1 := by
    intro l hl q hq
    obtain ⟨i, hi, rfl⟩ := List.getElem_of_mem hl
    obtain ⟨x, hx, -, hle⟩ := h.front hasc hi rfl hq
    rw [hh] at hx
    rcases List.mem_cons.mp hx with rfl | hx
    · exact hle
    · rcases hsort.1 x hx with hb | ⟨hb, _⟩
      · exact (le_of_lt hb).trans hle
      · exact (le_of_eq hb).trans hle
  refine ⟨hmin, ?_⟩
  -- no newer source holds the key
  have hnewer : ∀ i < e.rank, ∀ l, W[i]? = some l → l.lookup e.key = none := by
    intro i hi l hl
    obtain ⟨hlt, rfl⟩ := List.getElem?_eq_some_iff.mp hl
    refine SortedMap.lookup_eq_none_of_forall_ne fun q hq heq => ?_
    obtain ⟨x, hx, rfl, hle⟩ := h.front hasc hlt rfl hq
    rw [heq] at hle
    rw [hh] at hx
    rcases List.mem_cons.mp hx with rfl | hx
    · exact lt_irrefl _ hi
    · rcases hsort.1 x hx with hb | ⟨_, hb⟩
      · exact absurd hle (not_le.mpr hb)
      · exact absurd hb (not_lt.mpr (le_of_lt hi))
  clear h hh hsort hmin hasc
  revert hnewer hWt
  generalize e.rank = r
  intro hWt hnewer
  induction W generalizing r with
  | nil => cases hWt
  | cons l W ih =>
    cases r with
    | zero =>
      simp only [List.getElem?_cons_zero, Option.some.injEq] at hWt
      rw [firstHit_cons, hWt, SortedMap.lookup_cons_ite, if_pos rfl]
      rfl
    | succ r =>
      rw [firstHit_cons, hnewer 0 (Nat.succ_pos r) l rfl, Option.none_or]
      exact ih r hWt fun i hi l' hl' => hnewer (i + 1) (Nat.succ_lt_succ hi) l' hl'

/-- The rows still to be returned when `n` are already out. -/
def restLimit (limit : Option Nat) (n : Nat) : Option Nat := limit.map (· - n)

/-- A live row of the merge is a row of some source. -/
theorem mem_sources_of_live {kv : KeyValue} (h : kv ∈ liveRows (mergeAll W)) :
    ∃ l ∈ W, (kv.1, some kv.2) ∈ l := by
  obtain ⟨⟨k, x⟩, hm, hx⟩ := List.mem_filterMap.mp h
  obtain ⟨v, rfl, rfl⟩ := Option.map_eq_some_iff.mp hx
  rw [SortedMap.mem_toList, get?_mergeAll] at hm
  obtain ⟨l, hl, hv⟩ := List.exists_of_findSome?_eq_some hm
  exact ⟨l, hl, SortedMap.mem_of_lookup hv⟩

theorem mem_of_mem_cut {α : Type} {limit : Option Nat} {l : List α} {x : α}
    (h : x ∈ cut limit l) : x ∈ l := by
  cases limit with
  | none => exact h
  | some n => exact List.mem_of_mem_take h

theorem append_cut_cons {limit : Option Nat} {out rows : List KeyValue} {kv : KeyValue}
    (h : ∀ n, limit = some n → out.length < n) :
    out ++ cut (restLimit limit out.length) (kv :: rows) =
      (out ++ [kv]) ++ cut (restLimit limit (out ++ [kv]).length) rows := by
  cases limit with
  | none => simp [cut, restLimit]
  | some n =>
    have hn := h n rfl
    have hrest : n - out.length = (n - (out.length + 1)) + 1 := by omega
    simp [cut, restLimit, hrest]

theorem cut_restLimit_done {α : Type} {limit : Option Nat} {n : Nat} (rows : List α)
    (h : limit.any (fun lim => decide (lim ≤ n)) = true) : cut (restLimit limit n) rows = [] := by
  cases limit with
  | none => cases h
  | some lim =>
    have hle : lim ≤ n := by simpa using h
    simp [cut, restLimit, Nat.sub_eq_zero_of_le hle]

/-- What a round of the loop does to the sources: the entry of the least key leaves them. -/
structure PullState.Round (e : HeapEntry) (W W' : List (List Op)) : Prop where
  ascending : Ascending W'
  fewer : total W' < total W
  past : PastAll e.key W W'
  later : ∀ l ∈ W', ∀ q ∈ l, e.key < q.1
  rows : liveRows (mergeAll W) = (e.value.map (Prod.mk e.key)).toList ++ liveRows (mergeAll W')

theorem PullState.Rep.round {heap : List HeapEntry} {fuel : Nat} (h : st.Rep W fun _ => true)
    (hasc : Ascending W) (hh : st.heap = e :: heap) (hf : total W ≤ fuel) :
    ∃ st1 st2 W', PullState.dropDups e.key fuel ⟨st.sources, heap⟩ = .ok st1 ∧
      st1.pull e.rank = .ok st2 ∧ st2.Rep W' (fun _ => true) ∧ PullState.Round e W W' := by
  obtain ⟨hmin, hhit⟩ := h.top hasc hh
  obtain ⟨t, hWt, -, hpop⟩ := h.pop hh
  have htot := total_set_tail hWt
  have hpw := List.pairwise_cons.mp (hasc _ (List.mem_of_getElem? hWt))
  have hlt : e.rank < W.length := (List.getElem?_eq_some_iff.mp hWt).1
  obtain ⟨st1, W1, h₁, hrep1, hasc1, hoth, hgone, hle, hpast1⟩ :=
    hpop.dropDups fuel (hasc.set_tail hWt) (forall_set_tail hWt hmin)
      (fun l hl q hq => by
        rw [List.getElem?_set_self hlt, Option.some.injEq] at hl
        subst hl
        exact hpw.1 q hq)
      (by omega)
  obtain ⟨st2, h2, hrep2⟩ := hrep1.pull (Function.update_self ..)
  rw [Function.update_idem, Function.update_eq_self_iff.mpr rfl] at hrep2
  have hstep : (mergeAll W).toList = (e.key, e.value) :: (mergeAll W1).toList := by
    refine toList_mergeAll_step hhit ?_ ?_ ?_
    · intro k' hk'
      rw [hoth k' hk', firstHit_set_tail hWt hk']
    · rw [firstHit_eq_none]
      intro l hl
      exact SortedMap.lookup_eq_none_of_forall_ne fun q hq => ne_of_gt (hgone l hl q hq)
    · intro k' v' hk'
      obtain ⟨l, hl, hv⟩ := List.exists_of_findSome?_eq_some hk'
      exact hgone l hl (k', v') (SortedMap.mem_of_lookup hv)
  refine ⟨st1, st2, W1, h₁, h2, hrep2, hasc1, by omega,
    (PastAll.set_tail hWt (le_refl e.key)).trans hpast1 (le_refl e.key), hgone, ?_⟩
  unfold liveRows
  rw [hstep, List.filterMap_cons]
  cases e.value <;> rfl

/-- The rows of the later rounds come after the entry. -/
theorem PullState.Round.le_last {W' : List (List Op)} {limit : Option Nat}
    {out rows : List KeyValue} {kv : KeyValue} (h : PullState.Round e W W')
    (hlim : ∀ n, limit = some n → out.length < n) (hrows : ∀ x ∈ rows, x ∈ liveRows (mergeAll W'))
    (hfull : limit = some (out ++ rows).length) (hlast : (out ++ rows).getLast? = some kv) :
    e.key ≤ kv.1 := by
  have hne : rows ≠ [] := by
    rintro rfl
    have := hlim _ hfull
    simp at this
  rw [List.getLast?_append_of_ne_nil _ hne] at hlast
  obtain ⟨l, hl, hq⟩ := mem_sources_of_live (hrows kv (List.mem_of_getLast? hlast))
  exact le_of_lt (h.later l hl _ hq)

theorem PullState.Rep.done (h : st.Rep W fun _ => true) (hasc : Ascending W) (hh : st.heap = []) :
    liveRows (mergeAll W) = [] := by
  have hnil : ∀ l ∈ W, l = [] := by
    intro l hl
    obtain ⟨i, hi, rfl⟩ := List.getElem_of_mem hl
    refine List.eq_nil_iff_forall_not_mem.mpr fun q hq => ?_
    obtain ⟨x, hx, -⟩ := h.front hasc hi rfl hq
    rw [hh] at hx
    cases hx
  simp [liveRows, toList_mergeAll_nil hnil]

/-- The loop adds the rows of the merge up to the limit. When the limit stops it, only
rows up to the last one were taken from the sources. -/
theorem PullState.Rep.loop {limit : Option Nat} {fuel : Nat} {out : List KeyValue}
    (h : st.Rep W fun _ => true) (hasc : Ascending W) (hf : total W < fuel)
    (hlim : ∀ n, limit = some n → out.length < n) :
    ∃ st' W', st.loop limit fuel out =
        .ok (out ++ cut (restLimit limit out.length) (liveRows (mergeAll W)), st') ∧
      st'.Rep W' (fun _ => true) ∧ W'.length = W.length ∧
      ∀ kv, limit = some (out ++ cut (restLimit limit out.length) (liveRows (mergeAll W))).length →
        (out ++ cut (restLimit limit out.length) (liveRows (mergeAll W))).getLast? = some kv →
        PastAll kv.1 W W' := by
  induction fuel generalizing st W out with
  | zero => omega
  | succ fuel ih =>
    cases hh : st.heap with
    | nil =>
      refine ⟨st, W, ?_, h, rfl, fun kv _ _ => .refl kv.1 W⟩
      rw [h.done hasc hh]
      cases limit <;> simp [PullState.loop, hh, cut, restLimit]
    | cons e heap =>
      obtain ⟨st1, st2, W1, h₁, h2, hrep2, hround⟩ := h.round hasc hh (Nat.le_of_lt_succ hf)
      have hf1 : total W1 < fuel := lt_of_lt_of_le hround.fewer (Nat.le_of_lt_succ hf)
      cases hv : e.value with
      | none =>
        obtain ⟨st', W', h', hrep', hlen', hpast'⟩ := ih hrep2 hround.ascending hf1 hlim
        rw [hround.rows, hv, Option.map_none, Option.toList_none, List.nil_append]
        refine ⟨st', W', ?_, hrep', hlen'.trans hround.past.1, fun kv hfull hlast => ?_⟩
        · simp only [PullState.loop, hh, h₁, h2, hv]
          exact h'
        · exact hround.past.trans (hpast' kv hfull hlast)
            (hround.le_last hlim (fun _ hx => mem_of_mem_cut hx) hfull hlast)
      | some v =>
        rw [hround.rows, hv, Option.map_some, Option.toList_some, List.singleton_append,
          append_cut_cons hlim]
        by_cases hdone : limit.any (fun lim => decide (lim ≤ (out ++ [(e.key, v)]).length)) = true
        · rw [cut_restLimit_done _ hdone, List.append_nil]
          refine ⟨st2, W1, ?_, hrep2, hround.past.1, fun kv _ hlast => ?_⟩
          · simp only [PullState.loop, hh, h₁, h2, hv]
            rw [if_pos hdone]
          · rw [List.getLast?_concat] at hlast
            cases hlast
            exact hround.past
        · have hlim' : ∀ n, limit = some n → (out ++ [(e.key, v)]).length < n := by
            rintro n rfl
            simpa using hdone
          obtain ⟨st', W', h', hrep', hlen', hpast'⟩ := ih hrep2 hround.ascending hf1 hlim'
          refine ⟨st', W', ?_, hrep', hlen'.trans hround.past.1, fun kv hfull hlast => ?_⟩
          · simp only [PullState.loop, hh, h₁, h2, hv]
            rw [if_neg hdone]
            exact h'
          · exact hround.past.trans (hpast' kv hfull hlast)
              (hround.le_last hlim' (fun _ hx => mem_of_mem_cut hx) hfull hlast)

/-- The rows of the pull merge, and what it leaves of the sources: without the rows of the
heap, of which each source has at most one. -/
theorem pullMerge_eq (W : List (List Op)) (hasc : Ascending W) (limit : Option Nat) :
    ∃ left : List (List Op), pullMerge (W.map fun l => l.map .ok) limit =
        .ok (cut limit (mergeSources W), left.map fun l => l.map .ok) ∧
      left.length = W.length ∧ (limit = some 0 → left = W) ∧
      ∀ kv, limit = some (cut limit (mergeSources W)).length →
        (cut limit (mergeSources W)).getLast? = some kv →
        ∃ W', PastAll kv.1 W W' ∧ left = W'.map List.tail := by
  unfold pullMerge
  by_cases h0 : limit = some 0
  · subst h0
    refine ⟨W, by simp [cut], rfl, fun _ => rfl, fun kv _ hlast => ?_⟩
    simp [cut] at hlast
  · rw [if_neg h0]
    have hstart : PullState.Rep ⟨W.map fun l => l.map .ok, []⟩ W fun _ => false := by
      refine ⟨?_, List.Pairwise.nil, by simp⟩
      apply List.ext_getElem?
      intro i
      simp
    obtain ⟨st, hst, hrep⟩ := hstart.pullEach (List.range W.length)
      List.nodup_range (by simp)
    rw [List.length_map, hst]
    have hrep' : st.Rep W fun _ => true := by
      refine ⟨?_, hrep.sorted, ?_⟩
      · rw [hrep.sources]
        apply List.ext_getElem?
        intro i
        by_cases hi : i < W.length
        · simp [hi]
        · simp [List.getElem?_eq_none (Nat.le_of_not_lt hi)]
      · intro x
        rw [hrep.mem x]
        constructor
        · rintro ⟨_, hx⟩
          exact ⟨rfl, hx⟩
        · rintro ⟨_, t, ht⟩
          have hlt := (List.getElem?_eq_some_iff.mp ht).1
          exact ⟨by simp [hlt], t, ht⟩
    have hfuel :
        total W < ((W.map fun l => l.map (Except.ok : Op → Res Op)).map List.length).sum + 1 := by
      simp [total, Function.comp_def]
    have hlim : ∀ n, limit = some n → ([] : List KeyValue).length < n := by
      rintro n rfl
      rw [List.length_nil]
      exact Nat.pos_of_ne_zero fun e => h0 (by rw [e])
    obtain ⟨st', W', hloop, hrep'', hlen, hpast⟩ := hrep'.loop hasc hfuel hlim
    have hcut : [] ++ cut (restLimit limit ([] : List KeyValue).length) (liveRows (mergeAll W)) =
        cut limit (mergeSources W) := by
      cases limit <;> simp [restLimit, mergeSources]
    rw [hcut] at hloop hpast
    refine ⟨W'.map List.tail, ?_, by rw [List.length_map, hlen], fun h => absurd h h0,
      fun kv hfull hlast => ⟨W', hpast kv hfull hlast, rfl⟩⟩
    have hleft : st'.sources = (W'.map List.tail).map fun l => l.map .ok := by
      rw [hrep''.sources]
      apply List.ext_getElem?
      intro i
      simp [Function.comp_def]
    simp only [hloop, Except.map, hleft]

theorem pullMergeNext_eq (W : List (List Op)) (hasc : Ascending W) (limit : Option Nat) :
    pullMergeNext (W.map fun l => l.map .ok) limit = .ok (cut limit (mergeSources W)) := by
  obtain ⟨left, h, -⟩ := pullMerge_eq W hasc limit
  rw [pullMergeNext, h]
  rfl

theorem mem_mergeSources {kv : KeyValue} :
    kv ∈ mergeSources W ↔ firstHit W kv.1 = some (some kv.2) := by
  unfold mergeSources liveRows
  rw [List.mem_filterMap, ← get?_mergeAll, ← SortedMap.mem_toList]
  constructor
  · rintro ⟨⟨k', x⟩, hm, hx⟩
    obtain ⟨v', rfl, heq⟩ := Option.map_eq_some_iff.mp hx
    cases heq
    exact hm
  · intro hm
    exact ⟨_, hm, rfl⟩

theorem mergeSources_ascending (W : List (List Op)) :
    (mergeSources W).Pairwise fun a b => a.1 < b.1 :=
  ((mergeAll W).filterMap fun _ x => x).ascending

/-- The streaming merge is the materialised merge cut at the limit, and when the limit
stops it no source was read more than one entry past the last row. -/
theorem pull_merge_streams (W : List (List Op)) (hasc : Ascending W) (limit : Option Nat) :
    ∃ left : List (List Op), pullMerge (W.map fun l => l.map .ok) limit =
        .ok (cut limit (mergeSources W), left.map fun l => l.map .ok) ∧
      left.length = W.length ∧ (limit = some 0 → left = W) ∧
      (∀ kv, limit = some (cut limit (mergeSources W)).length →
        (cut limit (mergeSources W)).getLast? = some kv →
        ∀ (i : Nat) (l l' : List Op), W[i]? = some l → left[i]? = some l' →
          ∃ n ≤ (l.filter fun q => q.1 ≤ kv.1).length + 1, l' = l.drop n) ∧
      (mergeSources W).Pairwise (fun a b => a.1 < b.1) ∧
      ∀ k v, (k, v) ∈ mergeSources W ↔ firstHit W k = some (some v) := by
  obtain ⟨left, h, hlen, hzero, hpast⟩ := pullMerge_eq W hasc limit
  refine ⟨left, h, hlen, hzero, fun kv hfull hlast i l l' hl hl' => ?_,
    mergeSources_ascending W, fun _ _ => mem_mergeSources⟩
  obtain ⟨W', htaken, rfl⟩ := hpast kv hfull hlast
  rw [List.getElem?_map] at hl'
  obtain ⟨rest, hrest, rfl⟩ := Option.map_eq_some_iff.mp hl'
  obtain ⟨pre, hpre, hle⟩ := htaken.2 i rest hrest
  obtain rfl := Option.some.inj (hl.symm.trans hpre)
  refine ⟨pre.length + 1, ?_, ?_⟩
  · have hall : pre.filter (fun q => q.1 ≤ kv.1) = pre :=
      List.filter_eq_self.mpr fun q hq => by simpa using hle q hq
    rw [List.filter_append, hall, List.length_append]
    omega
  · rw [← List.drop_drop, List.drop_left, List.drop_one]

/-- Two sources with a shadowed tombstone, cut at one row. -/
theorem pull_merge_streams_shadowed :
    ∃ left : List (List Op), pullMerge ([[("a", none), ("b", some [1])],
        [("a", some [2]), ("b", some [3]), ("c", some [4]), ("d", some [5])]].map
          fun l => l.map .ok) (some 1) = .ok ([("b", [1])], left.map fun l => l.map .ok) ∧
      ∃ n ≤ 3, left[1]? = some ([("a", some [2]), ("b", some [3]), ("c", some [4]),
        ("d", some [5])].drop n) := by
  have hrows : cut (some 1) (mergeSources [[("a", none), ("b", some [1])],
      [("a", some [2]), ("b", some [3]), ("c", some [4]), ("d", some [5])]]) = [("b", [1])] := by
    decide
  obtain ⟨left, h, hlen, -, hlazy, -⟩ := pull_merge_streams
    [[("a", none), ("b", some [1])],
      [("a", some [2]), ("b", some [3]), ("c", some [4]), ("d", some [5])]]
    (by unfold Ascending; decide) (some 1)
  obtain ⟨rest, hrest⟩ : ∃ rest, left[1]? = some rest :=
    ⟨_, List.getElem?_eq_getElem (by rw [hlen]; decide)⟩
  obtain ⟨n, hn, rfl⟩ := hlazy ("b", [1]) rfl rfl 1 _ rest rfl hrest
  exact ⟨left, h, n, hn.trans (by decide), hrest⟩

end OxKv
