import Mathlib.Data.List.Basic

/-!
The edit distance of two lists, where inserting, deleting and replacing an element cost one each.

* `EditDistance.map_le`: changing elements in place costs at most one for each;
* `EditDistance.countP_notMem_le`: an element that the other list does not have costs at least one.
-/

variable {α : Type} [DecidableEq α]

/-- The distance from `x :: xs` to a list, from those `d` of `xs`, which has `n` elements. -/
def nextDistance (x : α) (n : Nat) (d : List α → Nat) : List α → Nat
  | [] => n + 1
  | y :: ys =>
    min (d (y :: ys) + 1) (min (nextDistance x n d ys + 1) (d ys + if x = y then 0 else 1))

def editDistance : List α → List α → Nat
  | [] => List.length
  | x :: xs => nextDistance x xs.length (editDistance xs)

namespace EditDistance

theorem cons_cons (x y : α) (xs ys : List α) : editDistance (x :: xs) (y :: ys) =
    min (editDistance xs (y :: ys) + 1) (min (editDistance (x :: xs) ys + 1)
      (editDistance xs ys + if x = y then 0 else 1)) := rfl

theorem map_le (f : α → α) (ys : List α) :
    editDistance (ys.map f) ys ≤ ys.countP fun y => f y ≠ y := by
  induction ys with
  | nil => exact Nat.le_refl 0
  | cons y ys ih =>
    rw [List.map_cons, cons_cons, List.countP_cons]
    refine Nat.le_trans (Nat.min_le_right _ _) (Nat.le_trans (Nat.min_le_right _ _) ?_)
    exact Nat.add_le_add ih (by by_cases h : f y = y <;> simp [h])

theorem self (ys : List α) : editDistance ys ys = 0 := by
  have h := map_le id ys
  rw [List.map_id, List.countP_eq_zero.mpr (by simp)] at h
  exact Nat.le_zero.mp h

theorem eq_of_eq_zero {xs ys : List α} (h : editDistance xs ys = 0) : xs = ys := by
  induction xs generalizing ys with
  | nil => exact (List.eq_nil_of_length_eq_zero h).symm
  | cons x xs ih =>
    cases ys with
    | nil => cases h
    | cons y ys =>
      rw [cons_cons] at h
      -- only a replacement can be free
      by_cases hxy : x = y
      · rw [if_pos hxy] at h
        have htail : editDistance xs ys = 0 := by omega
        rw [hxy, ih htail]
      · rw [if_neg hxy] at h
        omega

theorem countP_notMem_le (xs ys : List α) : ys.countP (· ∉ xs) ≤ editDistance xs ys := by
  induction xs generalizing ys with
  | nil => exact List.countP_le_length
  | cons x xs ih =>
    have hmono : ∀ zs : List α, zs.countP (· ∉ x :: xs) ≤ editDistance xs zs := fun zs =>
      Nat.le_trans (List.countP_mono_left fun z _ hz => by
        simp only [decide_eq_true_eq, List.mem_cons, not_or] at hz ⊢
        exact hz.2) (ih zs)
    induction ys with
    | nil => exact Nat.zero_le _
    | cons y ys ihy =>
      rw [cons_cons, Nat.le_min, Nat.le_min]
      refine ⟨Nat.le_succ_of_le (hmono _), ?_, ?_⟩
      · rw [List.countP_cons]
        exact Nat.add_le_add ihy (by split <;> decide)
      · rw [List.countP_cons]
        refine Nat.add_le_add (hmono ys) ?_
        by_cases hxy : x = y
        · simp [hxy]
        · rw [if_neg hxy]
          split <;> decide

end EditDistance
