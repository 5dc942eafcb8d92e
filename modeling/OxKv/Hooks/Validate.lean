import OxKv.Hooks.Publish
import OxKv.Hooks.View
import OxKv.Spec.Plain

/-!
When a view answers as one map, and the validators of stores in memory.
-/

namespace OxKv

universe u

section Coherence

variable {F : Type → Type u} [Pure F]

/-- The view answers as one map: `gives` says what a read returns. -/
structure StoreView.Answers (gives : {α : Type} → F α → α → Prop) (view : StoreView F)
    (m : Plain) : Prop where
  get : ∀ k, gives (view.get k) (m.get? k)
  has : ∀ k, gives (view.has k) (m.get? k).isSome
  getsBytes : ∀ limit d c, gives (view.getsBytes limit d c) (m.gets limit d c)

/-- A `RevalidateView` is the inner map with the key put back only if the key has its old
value there anyway: the scans list the inner one. -/
theorem revalidateView_answers {gives : {α : Type} → F α → α → Prop}
    (hpure : ∀ {α : Type} (a : α), gives (pure a) a)
    (hsame : ∀ {α : Type} {p : F α} {a b : α}, gives p a → gives p b → a = b)
    {inner : StoreView F} {m : Plain} (h : inner.Answers gives m) (key : Key)
    (oldValue : Option Bytes) :
    (revalidateView inner key oldValue).Answers gives (m.apply (key, oldValue)) ↔
      m.get? key = oldValue := by
  have hkey : (m.apply (key, oldValue)).get? key = oldValue := by
    rw [Plain.get?_apply, Function.update_self]
  constructor
  · intro hview
    have hscan := hsame (h.getsBytes none .next (none, none))
      (hview.getsBytes none .next (none, none))
    rw [← hkey]
    refine Option.ext fun v => ?_
    have hrow : ∀ m' : Plain, (key, v) ∈ m'.gets none .next (none, none) ↔ m'.get? key = some v :=
      fun m' => Plain.mem_gets.trans (by simp [Plain.inScan, scanBounds, inRange])
    rw [← hrow, ← hrow, hscan]
  · intro heq
    have hm : m.apply (key, oldValue) = m := by
      refine SortedMap.ext_get fun k => ?_
      rw [Plain.get?_apply, Function.update_apply]
      split
      · rw [‹k = key›, heq]
      · rfl
    rw [hm]
    refine ⟨fun k => ?_, fun k => ?_, h.getsBytes⟩
    · show gives (if k = key then pure oldValue else inner.get k) _
      split
      · rw [‹k = key›, heq]
        exact hpure oldValue
      · exact h.get k
    · show gives (if k = key then pure oldValue.isSome else inner.has k) _
      split
      · rw [‹k = key›, heq]
        exact hpure oldValue.isSome
      · exact h.has k

end Coherence

/-- A validator over a store that is read in memory. -/
structure Validator where
  scope : Scope
  validate : StoreView Res → Key → Bytes → Res Unit

namespace Validator

/-- `validate_key`: the first rejection of a validator whose scope matches. -/
def validateKey : List Validator → StoreView Res → Key → Bytes → Res Unit
  | [], _, _, _ => .ok ()
  | v :: vs, view, key, value =>
    if v.scope.matches key then
      match v.validate view key value with
      | .ok () => validateKey vs view key value
      | .error e => .error e
    else validateKey vs view key value

end Validator

end OxKv
