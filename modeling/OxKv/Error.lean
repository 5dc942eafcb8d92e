import Mathlib.Data.String.Basic

/-!
`StoreError` with its display texts. The engine tells a missing object from any
other failure by the words "not found" in the text, so texts are part of the
model.
-/

namespace OxKv

/-- The variants of `StoreError` that the modelled code builds. -/
inductive StoreError where
  | storage (msg : String)
  | casConflict (msg : String)
  | serialization (msg : String)
  | json (msg : String)
  | utf8Slice (msg : String)
  | rejected (key reason : String)
  | fenced (msg : String)
  | other (msg : String)
  | notModified
  deriving DecidableEq, Repr

abbrev Res (α : Type) := Except StoreError α

instance {α : Type} [DecidableEq α] : DecidableEq (Res α)
  | .ok a, .ok b => decidable_of_iff (a = b) (by simp)
  | .error a, .error b => decidable_of_iff (a = b) (by simp)
  | .ok _, .error _ => isFalse (by simp)
  | .error _, .ok _ => isFalse (by simp)

def StoreError.text : StoreError → String
  | .storage msg => "storage error: " ++ msg
  | .casConflict msg => "CAS conflict: " ++ msg
  | .serialization msg => "serialization error: " ++ msg
  | .json msg => "JSON error: " ++ msg
  | .utf8Slice msg => "UTF-8 error: " ++ msg
  | .rejected key reason => "rejected `" ++ key ++ "`: " ++ reason
  | .fenced msg => "fenced: " ++ msg
  | .other msg => msg
  | .notModified => "not modified"

/-! ## Recognising a missing object -/

def occursIn (needle : List Char) : List Char → Bool
  | [] => needle.isEmpty
  | c :: cs => needle.isPrefixOf (c :: cs) || occursIn needle cs

/-- `str::contains("not found")`. -/
def saysNotFound (text : String) : Bool := occursIn "not found".toList text.toList

/-- `is_not_found`: a storage error whose text says so. -/
def isNotFound : StoreError → Bool
  | .storage msg => saysNotFound msg
  | _ => false

theorem occursIn_append_right (needle pre l : List Char) (h : occursIn needle l = true) :
    occursIn needle (pre ++ l) = true := by
  induction pre with
  | nil => exact h
  | cons c pre ih => simp [occursIn, ih]

theorem occursIn_append_left (needle l post : List Char) (h : occursIn needle l = true) :
    occursIn needle (l ++ post) = true := by
  induction l with
  | nil =>
    have hn : needle = [] := by simpa [occursIn] using h
    subst hn
    cases post <;> simp [occursIn]
  | cons c l ih =>
    simp only [occursIn, Bool.or_eq_true, List.cons_append] at h ⊢
    rcases h with h | h
    · left
      rw [List.isPrefixOf_iff_prefix] at h ⊢
      exact h.trans (List.prefix_append (c :: l) post)
    · exact .inr (ih h)

theorem saysNotFound_append (pre msg : String) (h : saysNotFound msg = true) :
    saysNotFound (pre ++ msg) = true := by
  unfold saysNotFound at h ⊢
  rw [String.toList_append]
  exact occursIn_append_right _ _ _ h

end OxKv
