import Mathlib.Algebra.GroupWithZero.Nat
import Mathlib.Data.List.Basic

/-!
Machine arithmetic, slices and loops that may go wrong.

A `Checked` computation returns a value or stops with a `Trap`. A `Word` says how wide an
unsigned machine word is and whether an addition that does not fit wraps around or traps.

* `Word.add_of_lt`, `Checked.slice_of_le`, `Checked.index_of_lt`: nothing goes wrong;
* `Checked.loop`: a loop with fuel, which stops with `Trap.endless` when the fuel is used up;
* `Checked.loop_rule`: invariant and measure of a loop;
* `Checked.returns_of_shielded`, `Checked.shielded_of_returns`: when a walk over a list returns;
* `Checked.Agree`: two machines return the same value.
-/

/-- Why a computation stops without a result. -/
inductive Trap where
  | overflow
  | outOfRange
  | zeroDivisor
  | endless
  deriving DecidableEq

abbrev Checked (α : Type) := Except Trap α

structure Word where
  bits : Nat
  wraps : Bool

namespace Word

def add (t : Word) (a b : Nat) : Checked Nat :=
  if a + b < 2 ^ t.bits then .ok (a + b)
  else if t.wraps then .ok ((a + b) % 2 ^ t.bits)
  else .error .overflow

theorem add_of_lt {t : Word} {a b : Nat} (h : a + b < 2 ^ t.bits) : t.add a b = .ok (a + b) :=
  if_pos h

/-- A trapping addition that does not fit. -/
theorem add_of_le {t : Word} {a b : Nat} (ht : t.wraps = false) (h : 2 ^ t.bits ≤ a + b) :
    t.add a b = .error .overflow := by
  unfold add
  rw [if_neg (Nat.not_lt_of_le h), ht]
  rfl

end Word

namespace Checked

variable {α β σ : Type}

@[simp] theorem ok_bind (a : α) (f : α → Checked β) : ((.ok a : Checked α) >>= f) = f a := rfl

@[simp] theorem error_bind (e : Trap) (f : α → Checked β) :
    ((.error e : Checked α) >>= f) = .error e := rfl

/-- `a - b` on a machine that traps. -/
def sub (a b : Nat) : Checked Nat := if b ≤ a then .ok (a - b) else .error .overflow

theorem sub_of_le {a b : Nat} (h : b ≤ a) : sub a b = .ok (a - b) := if_pos h

def rem (a b : Nat) : Checked Nat := if b = 0 then .error .zeroDivisor else .ok (a % b)

theorem rem_of_ne {a b : Nat} (h : b ≠ 0) : rem a b = .ok (a % b) := if_neg h

def slice (data : List β) (i j : Nat) : Checked (List β) :=
  if i ≤ j ∧ j ≤ data.length then .ok ((data.drop i).take (j - i)) else .error .outOfRange

theorem slice_of_le {data : List β} {i j : Nat} (hij : i ≤ j) (hj : j ≤ data.length) :
    slice data i j = .ok ((data.drop i).take (j - i)) :=
  if_pos ⟨hij, hj⟩

def index (data : List β) (i : Nat) : Checked β :=
  match data[i]? with
  | some b => .ok b
  | none => .error .outOfRange

theorem index_of_drop {data rest : List β} {i : Nat} {b : β} (h : data.drop i = b :: rest) :
    index data i = .ok b := by
  have hget : data[i]? = some b := by
    rw [← List.head?_drop, h, List.head?_cons]
  simp only [index, hget]

/-- Repeat a step that goes on with a new state or leaves the loop with a result. -/
def loop (body : σ → Checked (σ ⊕ β)) : Nat → σ → Checked β
  | 0, _ => .error .endless
  | fuel + 1, s =>
    match body s with
    | .error e => .error e
    | .ok (.inl s) => loop body fuel s
    | .ok (.inr b) => .ok b

section Loop

variable {body : σ → Checked (σ ⊕ β)} {fuel : Nat} {s s' : σ}

theorem loop_next (h : body s = .ok (.inl s')) : loop body (fuel + 1) s = loop body fuel s' := by
  simp only [loop, h]

theorem loop_done {b : β} (h : body s = .ok (.inr b)) : loop body (fuel + 1) s = .ok b := by
  simp only [loop, h]

theorem loop_trap {e : Trap} (h : body s = .error e) : loop body (fuel + 1) s = .error e := by
  simp only [loop, h]

/-- What every step keeps while a measure goes down, the loop keeps, and it comes to an end. -/
theorem loop_rule (inv : σ → Prop) (measure : σ → Nat) {Q : β → Prop} {E : Trap → Prop}
    (hnext : ∀ s s', inv s → body s = .ok (.inl s') → inv s' ∧ measure s' < measure s)
    (hdone : ∀ s b, inv s → body s = .ok (.inr b) → Q b)
    (htrap : ∀ s e, inv s → body s = .error e → E e) (hs : inv s) (hfuel : measure s < fuel) :
    (∃ b, loop body fuel s = .ok b ∧ Q b) ∨ ∃ e, loop body fuel s = .error e ∧ E e := by
  induction fuel generalizing s with
  | zero => omega
  | succ fuel ih =>
    rcases hb : body s with e | s' | b
    · exact .inr ⟨e, loop_trap hb, htrap s e hs hb⟩
    · obtain ⟨hs', hlt⟩ := hnext s s' hs hb
      rw [loop_next hb]
      exact ih hs' (by omega)
    · exact .inl ⟨b, loop_done hb, hdone s b hs hb⟩

end Loop

def Returns (c : Checked α) : Prop := ∃ a, c = .ok a

theorem returns_ok (a : α) : Returns (.ok a) := ⟨a, rfl⟩

theorem not_returns_error (e : Trap) : ¬ Returns (.error e : Checked α) := nofun

theorem returns_map {c : Checked α} (f : α → β) : Returns (c.map f) ↔ Returns c := by
  cases c with
  | error e => exact ⟨nofun, nofun⟩
  | ok a => exact ⟨fun _ => returns_ok a, fun _ => returns_ok (f a)⟩

/-! A walk visits the elements of a list one after the other. An element can trap the walk, end
it, or hand a state on to the next one. -/

section Walk

variable {ι : Type} {traps ends : ι → Prop}

/-- Before every element that traps stands one that ends the walk. -/
def Shielded (traps ends : ι → Prop) (l : List ι) : Prop :=
  ∀ pre m post, l = pre ++ m :: post → traps m → ∃ b ∈ pre, ends b

variable {l : List ι}

theorem Shielded.head {b : ι} (h : Shielded traps ends (b :: l)) : ¬ traps b := by
  intro hb
  obtain ⟨_, hmem, -⟩ := h [] b l rfl hb
  exact List.not_mem_nil hmem

theorem Shielded.tail {b : ι} (h : Shielded traps ends (b :: l)) (hb : ¬ ends b) :
    Shielded traps ends l := by
  rintro pre m post rfl hm
  obtain ⟨c, hmem, hc⟩ := h (b :: pre) m post rfl hm
  rcases List.mem_cons.mp hmem with rfl | hmem
  · exact absurd hc hb
  · exact ⟨c, hmem, hc⟩

theorem Shielded.cons {b : ι} (hb : ¬ traps b) (h : ends b ∨ Shielded traps ends l) :
    Shielded traps ends (b :: l) := by
  rintro (_ | ⟨c, pre⟩) m post heq hm
  · cases heq
    exact absurd hm hb
  · cases heq
    rcases h with hends | h
    · exact ⟨b, List.mem_cons_self, hends⟩
    · obtain ⟨d, hmem, hd⟩ := h pre m post rfl hm
      exact ⟨d, List.mem_cons_of_mem _ hmem, hd⟩

variable {f : List ι → σ → Checked β}

theorem returns_of_shielded (hnil : ∀ s, Returns (f [] s)) (hcons : ∀ b l s, ¬ traps b →
      Returns (f (b :: l) s) ∨ ¬ ends b ∧ ∃ s', f (b :: l) s = f l s') (h : Shielded traps ends l)
    (s : σ) : Returns (f l s) := by
  induction l generalizing s with
  | nil => exact hnil s
  | cons b l ih =>
    rcases hcons b l s h.head with hret | ⟨hends, s', heq⟩
    · exact hret
    · rw [heq]
      exact ih (h.tail hends) s'

theorem shielded_of_returns (htrap : ∀ b l s, traps b → ¬ Returns (f (b :: l) s))
    (hgo : ∀ b l s, ¬ traps b → ¬ ends b → ∃ s', f (b :: l) s = f l s') {s : σ}
    (h : Returns (f l s)) : Shielded traps ends l := by
  induction l generalizing s with
  | nil =>
    rintro (_ | ⟨c, pre⟩) m post heq
    · cases heq
    · cases heq
  | cons b l ih =>
    have hb : ¬ traps b := fun hb => htrap b l s hb h
    by_cases hends : ends b
    · exact .cons hb (.inl hends)
    · obtain ⟨s', heq⟩ := hgo b l s hb hends
      rw [heq] at h
      exact .cons hb (.inr (ih h))

end Walk

def Agree (c c' : Checked α) : Prop := ∃ a, c = .ok a ∧ c' = .ok a

/-- A machine that traps exactly where the lengths do not fit. -/
theorem agree_iff {f : Bool → Checked α} {c : Checked α} {a : α} {e : Trap} {P : Prop}
    (hc : c = .ok a) (hfit : P → ∀ w, f w = .ok a) (htrap : ¬ P → f false = .error e) :
    (∀ w, Agree (f w) c) ↔ P := by
  constructor
  · intro h
    by_contra hnot
    obtain ⟨_, hok, -⟩ := h false
    rw [htrap hnot] at hok
    cases hok
  · exact fun hP w => ⟨a, hfit hP w, hc⟩

end Checked
