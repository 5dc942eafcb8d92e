import Mathlib.Data.List.Basic

/-!
The syntax trees of queries (`query/mod.rs`). Texts are lists of characters. A boost factor is kept
as the text it was written with: no modelled function reads it.
-/

namespace OxKv.Lucene

abbrev Text := List Char

def Ascii (text : Text) : Prop := ∀ c ∈ text, c.toNat < 128

/-- What is true of the character with each code below 128 is true of every ASCII character. -/
theorem forall_ascii {p : Char → Prop} (h : ∀ n < 128, p (Char.ofNat n)) (c : Char)
    (hc : c.toNat < 128) : p c := by
  rw [← Char.ofNat_toNat c]
  exact h c.toNat hc

inductive Prefix where
  | must
  | mustNot
  | not
  deriving DecidableEq, Repr

inductive BinaryOp where
  | and
  | or
  deriving DecidableEq, Repr

structure TermExpr where
  value : Text
  isQuoted : Bool
  isRegex : Bool
  fuzzySlop : Option Nat
  boost : Option Text
  deriving DecidableEq, Repr

def TermExpr.plain (value : Text) : TermExpr := ⟨value, false, false, none, none⟩

/-- An item over some kind of expression; `op` connects it to the next item. -/
structure Item (ε : Type) where
  pfx : Option Prefix
  expr : ε
  op : Option BinaryOp
  deriving DecidableEq, Repr

inductive Group (ε : Type) where
  | group (items : List (Item ε))
  deriving DecidableEq, Repr

inductive Expression where
  | term (t : TermExpr)
  | field (field : Text) (expr : Expression)
  | range (start stop : Text) (inclusive : Bool) (boost : Option Text)
  | subQuery (query : Group Expression) (boost : Option Text)
  deriving Repr

abbrev QueryItem := Item Expression

abbrev Query := Group Expression

/-- The query of one item without prefix and operator. -/
def Query.single (e : Expression) : Query := .group [⟨none, e, none⟩]

end OxKv.Lucene
