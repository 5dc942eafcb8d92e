import OxKv.Merge

/-!
The read-only view of a store that validators are handed, and validators as trees of reads.
-/

namespace OxKv

universe u

/-- `StoreView`, for stores whose reads are computed in `F`. -/
structure StoreView (F : Type → Type u) where
  get : Key → F (Option Bytes)
  has : Key → F Bool
  getsBytes : Option Nat → Direction → Cursor → F (List KeyValue)

/-- `RevalidateView`: the key under validation shows its value from before the
transaction. Scans go to the inner view as they are. -/
def revalidateView {F : Type → Type u} [Pure F] (inner : StoreView F) (key : Key)
    (oldValue : Option Bytes) : StoreView F where
  get k := if k = key then pure oldValue else inner.get k
  has k := if k = key then pure oldValue.isSome else inner.has k
  getsBytes := inner.getsBytes

/-- Every read of the view is of this kind. -/
structure StoreView.All {F : Type → Type u} (Q : {α : Type} → F α → Prop) (view : StoreView F) :
    Prop where
  get : ∀ k, Q (view.get k)
  has : ∀ k, Q (view.has k)
  getsBytes : ∀ limit d c, Q (view.getsBytes limit d c)

theorem StoreView.All.revalidate {F : Type → Type u} [Pure F] {Q : {α : Type} → F α → Prop}
    {view : StoreView F} (h : view.All Q) (hpure : ∀ {α : Type} (a : α), Q (pure a : F α))
    (key : Key)
    (oldValue : Option Bytes) : (revalidateView view key oldValue).All Q := by
  refine ⟨fun k => ?_, fun k => ?_, h.getsBytes⟩
  · show Q (if k = key then pure oldValue else view.get k)
    split
    · exact hpure _
    · exact h.get k
  · show Q (if k = key then pure oldValue.isSome else view.has k)
    split
    · exact hpure _
    · exact h.has k

/-- What validators do with a write: they read their view, look at the answers, and end with a
verdict. -/
inductive Check where
  | done (r : Res Unit)
  | get (key : Key) (next : Res (Option Bytes) → Check)
  | has (key : Key) (next : Res Bool → Check)
  | gets (limit : Option Nat) (d : Direction) (c : Cursor) (next : Res (List KeyValue) → Check)

/-- Some answers lead to this verdict. -/
def Check.MayEnd (verdict : Res Unit) : Check → Prop
  | .done r => r = verdict
  | .get _ next => ∃ r, (next r).MayEnd verdict
  | .has _ next => ∃ r, (next r).MayEnd verdict
  | .gets _ _ _ next => ∃ r, (next r).MayEnd verdict

def Check.MayReject (c : Check) : Prop := ∃ e, c.MayEnd (.error e)

/-- The validators may reject something. -/
def Picky (check : Key → Bytes → Check) : Prop := ∃ key value, (check key value).MayReject

/-- The verdict of validators that look at key and value only. -/
def Check.ofReason (key : Key) : Option String → Check
  | none => .done (.ok ())
  | some reason => .done (.error (.rejected key reason))

theorem Check.ofReason_mayEnd_ok {key : Key} {reason : Option String}
    (h : (ofReason key reason).MayEnd (.ok ())) : reason = none := by
  cases reason with
  | none => rfl
  | some reason => cases h

end OxKv
