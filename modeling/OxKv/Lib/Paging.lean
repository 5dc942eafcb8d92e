import Mathlib.Data.List.Basic

/-!
Reading a sorted list in pages. Every page starts at the last element of the page
before, so a reader that wants each element once has to leave that one out.
-/

namespace Paging

variable {α κ : Type} {key : α → κ} {lt : κ → κ → Prop} [Std.Asymm lt]

/-- The elements of a sorted list have different keys. -/
theorem key_ne {a b : List α} {x y : α} (h : (a ++ x :: b).Pairwise fun u v => lt (key u) (key v))
    (hy : y ∈ a ∨ y ∈ b) : key y ≠ key x := by
  obtain ⟨-, hxb, hcross⟩ := List.pairwise_append.mp h
  have hirr : ∀ k, ¬ lt k k := fun k hk => Std.Asymm.asymm k k hk hk
  intro heq
  rcases hy with hy | hy
  · have := hcross y hy x List.mem_cons_self
    rw [heq] at this
    exact hirr _ this
  · have := (List.pairwise_cons.mp hxb).1 y hy
    rw [heq] at this
    exact hirr _ this

/-- Reading from an element of the list goes on from there. -/
theorem filter_from [DecidableRel lt] {a b : List α} {x : α}
    (h : (a ++ x :: b).Pairwise fun u v => lt (key u) (key v)) :
    ((a ++ x :: b).filter fun y => ¬ lt (key y) (key x)) = x :: b := by
  obtain ⟨-, hxb, hcross⟩ := List.pairwise_append.mp h
  have hbefore : a.filter (fun y => ¬ lt (key y) (key x)) = [] := by
    refine List.filter_eq_nil_iff.mpr fun y hy => ?_
    simpa using hcross y hy x List.mem_cons_self
  have hafter : (x :: b).filter (fun y => ¬ lt (key y) (key x)) = x :: b := by
    refine List.filter_eq_self.mpr fun y hy => ?_
    rcases List.mem_cons.mp hy with rfl | hy
    · simpa using fun hk => Std.Asymm.asymm _ _ hk hk
    · simpa using Std.Asymm.asymm _ _ ((List.pairwise_cons.mp hxb).1 y hy)
  rw [List.filter_append, hbefore, hafter, List.nil_append]

/-- A full page and the element the next one starts with. -/
theorem take_succ_append {l : List α} {n : Nat} (h : n < l.length) :
    ∃ a x b, l = a ++ x :: b ∧ l.take (n + 1) = a ++ [x] ∧ a.length = n := by
  refine ⟨l.take n, l[n], l.drop (n + 1), ?_, ?_, ?_⟩
  · rw [List.getElem_cons_drop, List.take_append_drop]
  · exact (List.take_append_getElem h).symm
  · rw [List.length_take, Nat.min_eq_left (Nat.le_of_lt h)]

end Paging
