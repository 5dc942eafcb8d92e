import OxKv.Lib.SortedMap

/-!
Newest-first layers of ordered rows. The first layer that holds a key decides
it; `mergeAll` flattens the layers into one ordered map.
-/

namespace Layers

variable {α β γ : Type} [LinearOrder α]

/-- The entry of the newest layer that holds `k`. -/
def firstHit (ls : List (List (α × β))) (k : α) : Option β :=
  ls.findSome? (·.lookup k)

@[simp] theorem firstHit_nil (k : α) : firstHit ([] : List (List (α × β))) k = none := rfl

theorem firstHit_cons (l : List (α × β)) (ls : List (List (α × β))) (k : α) :
    firstHit (l :: ls) k = (l.lookup k).or (firstHit ls k) := by
  unfold firstHit
  rw [List.findSome?_cons]
  cases l.lookup k <;> rfl

theorem firstHit_append (ls1 ls2 : List (List (α × β))) (k : α) :
    firstHit (ls1 ++ ls2) k = (firstHit ls1 k).or (firstHit ls2 k) := by
  induction ls1 with
  | nil => simp
  | cons l ls1 ih => simp only [List.cons_append, firstHit_cons, ih, Option.or_assoc]

variable {ls : List (List (α × β))}

theorem firstHit_eq_none {k : α} : firstHit ls k = none ↔ ∀ l ∈ ls, l.lookup k = none := by
  simp [firstHit, List.findSome?_eq_none_iff]

/-- Rows that are related one by one have related entries. -/
theorem lookup_rel {R : β → γ → Prop} {l : List (α × β)} {l' : List (α × γ)}
    (h : List.Forall₂ (fun a b => a.1 = b.1 ∧ R a.2 b.2) l l') (k : α) :
    Option.Rel R (l.lookup k) (l'.lookup k) := by
  induction h with
  | nil => exact .none
  | @cons a b l l' hab _ ih =>
    obtain ⟨key, x⟩ := a
    obtain ⟨key', x'⟩ := b
    obtain ⟨rfl, hx⟩ := hab
    simp only [SortedMap.lookup_cons_ite]
    by_cases hk : k = key
    · simp only [hk, if_true]
      exact .some hx
    · simp only [if_neg hk]
      exact ih

theorem firstHit_rel {R : β → γ → Prop} {ls' : List (List (α × γ))}
    (h : List.Forall₂ (List.Forall₂ fun a b => a.1 = b.1 ∧ R a.2 b.2) ls ls') (k : α) :
    Option.Rel R (firstHit ls k) (firstHit ls' k) := by
  induction h with
  | nil => exact .none
  | @cons l l' ls ls' hl _ ih =>
    rw [firstHit_cons, firstHit_cons]
    have hrel := lookup_rel hl k
    generalize l.lookup k = x at hrel ⊢
    generalize l'.lookup k = x' at hrel ⊢
    cases hrel with
    | none => simpa using ih
    | some hx => exact .some hx

/-- Insert the rows of one layer below what the map already holds. -/
def underlay (m : SortedMap α β) (l : List (α × β)) : SortedMap α β :=
  l.foldl (fun m e => m.insertNew e.1 e.2) m

/-- All layers in one map, the newest entry of each key. -/
def mergeAll (ls : List (List (α × β))) : SortedMap α β := ls.foldl underlay SortedMap.empty

theorem get?_underlay (m : SortedMap α β) (l : List (α × β)) (k : α) :
    (underlay m l).get? k = (m.get? k).or (l.lookup k) := by
  unfold underlay
  induction l generalizing m with
  | nil => simp
  | cons e l ih =>
    rw [List.foldl_cons, ih, SortedMap.get?_insertNew, SortedMap.lookup_cons_ite, Option.or_assoc]
    congr 1
    split <;> simp

theorem get?_foldl_underlay (m : SortedMap α β) (ls : List (List (α × β))) (k : α) :
    (ls.foldl underlay m).get? k = (m.get? k).or (firstHit ls k) := by
  induction ls generalizing m with
  | nil => simp
  | cons l ls ih => rw [List.foldl_cons, ih, get?_underlay, firstHit_cons, Option.or_assoc]

theorem get?_mergeAll (ls : List (List (α × β))) (k : α) :
    (mergeAll ls).get? k = firstHit ls k := by
  rw [mergeAll, get?_foldl_underlay, SortedMap.get?_empty, Option.none_or]

/-- Restricting every layer to the keys of a set restricts the hits. -/
theorem lookup_filter_keys (p : α → Bool) (l : List (α × β)) (k : α) :
    (l.filter fun e => p e.1).lookup k = if p k then l.lookup k else none := by
  induction l with
  | nil => simp
  | cons e l ih =>
    obtain ⟨a, b⟩ := e
    by_cases hp : p a = true
    · simp only [List.filter_cons, hp, if_true, SortedMap.lookup_cons_ite, ih]
      by_cases hk : k = a
      · subst hk; simp [hp]
      · simp [hk]
    · simp only [List.filter_cons, hp, Bool.false_eq_true, if_false, SortedMap.lookup_cons_ite, ih]
      by_cases hk : k = a
      · subst hk; simp [hp]
      · simp [hk]

theorem firstHit_filter_keys (p : α → Bool) (ls : List (List (α × β))) (k : α) :
    firstHit (ls.map fun l => l.filter fun e => p e.1) k = if p k then firstHit ls k else none := by
  induction ls with
  | nil => simp
  | cons l ls ih =>
    rw [List.map_cons, firstHit_cons, firstHit_cons, ih, lookup_filter_keys]
    by_cases hp : p k = true <;> simp [hp]

/-- If the least key of the layers is decided and every layer is advanced past
it, the merged rows are that entry followed by the merge of the rest. -/
theorem toList_mergeAll_step {ls' : List (List (α × β))} {k : α} {v : β}
    (hk : firstHit ls k = some v) (hother : ∀ k', k' ≠ k → firstHit ls k' = firstHit ls' k')
    (hgone : firstHit ls' k = none) (hmin : ∀ k' v', firstHit ls' k' = some v' → k < k') :
    (mergeAll ls).toList = (k, v) :: (mergeAll ls').toList := by
  refine SortedMap.ascending_unique (mergeAll ls).ascending ?_ ?_
  · refine List.pairwise_cons.mpr ⟨?_, (mergeAll ls').ascending⟩
    rintro ⟨k', v'⟩ hm
    rw [SortedMap.mem_toList, get?_mergeAll] at hm
    exact hmin k' v' hm
  · rintro ⟨k', v'⟩
    rw [List.mem_cons, SortedMap.mem_toList, SortedMap.mem_toList, get?_mergeAll, get?_mergeAll]
    by_cases hkk : k' = k
    · subst hkk
      simp [hk, hgone, eq_comm]
    · simp [hkk, hother k' hkk]

theorem toList_mergeAll_nil (h : ∀ l ∈ ls, l = []) : (mergeAll ls).toList = [] := by
  have hemp : (mergeAll ls).isEmpty = true := by
    rw [SortedMap.isEmpty_iff]
    intro k
    rw [get?_mergeAll, firstHit_eq_none]
    intro l hl
    rw [h l hl]
    rfl
  simpa [SortedMap.isEmpty] using hemp

end Layers
