import Mathlib.Data.List.Basic
import Mathlib.Logic.Relation

/-!
Parsing expression grammars with implicit blanks, as the parser generator `pest` runs them.

A rule is normal, silent, atomic or compound. Between the parts of a sequence and between the
rounds of a repetition blanks are skipped, unless the rule is run inside an atomic or a compound
one. A rule leaves a node in the tree, unless it is silent, is run inside an atomic one or is only
looked ahead at.

* `run`: the interpreter, with fuel;
* `Eval`: some fuel gives this outcome; `Eval.unique`: there is at most one;
* one rule for each operator and outcome, for example `Eval.seq`, `Eval.seq_left`, `Eval.alt_right`,
  and the way back for a match, for example `Eval.seq_inv`;
* `look`: what the next character alone tells about an expression, `Eval.of_fails` and
  `Eval.of_idle`;
* `Eval.star_of_steps`: a repetition without blanks.
-/

namespace Peg

inductive Atomicity where
  | nonAtomic
  | compound
  | atomic
  deriving DecidableEq

inductive Kind where
  | normal
  | silent
  | atomic
  | compound

inductive Expr (ρ : Type) where
  | str (s : List Char)
  | cls (p : Char → Bool)
  | rule (r : ρ)
  | seq (a b : Expr ρ)
  | alt (a b : Expr ρ)
  | opt (a : Expr ρ)
  | star (a : Expr ρ)
  /-- The rounds of a repetition after the first one. -/
  | more (a : Expr ρ)
  | not (a : Expr ρ)
  | skip
  | soi
  | eoi

def Expr.any {ρ : Type} : Expr ρ := .cls fun _ => true

def Expr.plus {ρ : Type} (a : Expr ρ) : Expr ρ := .seq a (.star a)

structure Grammar (ρ : Type) where
  kind : ρ → Kind
  body : ρ → Expr ρ
  /-- One blank. -/
  blank : Expr ρ

structure Cursor where
  pos : Nat
  rest : List Char
  deriving DecidableEq

def Cursor.start (input : List Char) : Cursor := ⟨0, input⟩

def Cursor.advance (c : Cursor) (n : Nat) : Cursor := ⟨c.pos + n, c.rest.drop n⟩

inductive ParseTree (ρ : Type) where
  | node (rule : ρ) (text : List Char) (children : List (ParseTree ρ))

def ParseTree.rule {ρ : Type} : ParseTree ρ → ρ
  | .node r _ _ => r

def ParseTree.text {ρ : Type} : ParseTree ρ → List Char
  | .node _ text _ => text

def ParseTree.children {ρ : Type} : ParseTree ρ → List (ParseTree ρ)
  | .node _ _ ts => ts

structure Mode where
  atomicity : Atomicity
  /-- Inside a lookahead. -/
  quiet : Bool

/-- The place behind the match and the nodes it left, or no match. -/
abbrev Outcome (ρ : Type) := Option (Cursor × List (ParseTree ρ))

section Run

variable {ρ : Type}

/-- The mode in which the body of a rule is run. -/
def Mode.inside (m : Mode) : Kind → Mode
  | .normal => m
  | .silent => m
  | .atomic => { m with atomicity := .atomic }
  | .compound => { m with atomicity := .compound }

/-- Whether a rule of some kind leaves a node when it is run in a mode. -/
def Mode.leaves (m : Mode) : Kind → Bool
  | .silent => false
  | .compound => !m.quiet
  | _ => !m.quiet && m.atomicity != .atomic

def wrap (m : Mode) (k : Kind) (r : ρ) (c : Cursor) (x : Cursor × List (ParseTree ρ)) :
    Cursor × List (ParseTree ρ) :=
  if m.leaves k then (x.1, [.node r (c.rest.take (c.rest.length - x.1.rest.length)) x.2]) else x

/-- Nodes that come before the others. -/
def after (ts : List (ParseTree ρ)) (x : Cursor × List (ParseTree ρ)) : Cursor × List (ParseTree ρ) :=
  (x.1, ts ++ x.2)

/-- `none` when the fuel does not suffice. -/
def run (G : Grammar ρ) : Nat → Mode → Expr ρ → Cursor → Option (Outcome ρ)
  | 0, _, _, _ => none
  | _ + 1, _, .str s, c => some (if s <+: c.rest then some (c.advance s.length, []) else none)
  | _ + 1, _, .cls p, c =>
    some (if c.rest.head?.any p then some (c.advance 1, []) else none)
  | n + 1, m, .rule r, c =>
    (run G n (m.inside (G.kind r)) (G.body r) c).map (Option.map (wrap m (G.kind r) r c))
  | n + 1, m, .seq a b, c =>
    (run G n m a c).bind fun
      | none => some none
      | some (c₁, t₁) => (run G n m .skip c₁).bind fun
        | none => some none
        | some (c₂, _) => (run G n m b c₂).map (Option.map (after t₁))
  | n + 1, m, .alt a b, c =>
    (run G n m a c).bind fun
      | none => run G n m b c
      | some x => some (some x)
  | n + 1, m, .opt a, c =>
    (run G n m a c).map fun
      | none => some (c, [])
      | some x => some x
  | n + 1, m, .star a, c =>
    (run G n m a c).bind fun
      | none => some (some (c, []))
      | some (c₁, t₁) => (run G n m (.more a) c₁).map (Option.map (after t₁))
  | n + 1, m, .more a, c =>
    (run G n m .skip c).bind fun
      | none => some none
      | some (c₁, _) => (run G n m a c₁).bind fun
        -- the blanks belong to a round that did not take place
        | none => some (some (c, []))
        | some (c₂, t₂) => (run G n m (.more a) c₂).map (Option.map (after t₂))
  | n + 1, m, .not a, c =>
    (run G n { m with quiet := true } a c).map fun
      | none => some (c, [])
      | some _ => none
  | n + 1, m, .skip, c =>
    if m.atomicity = .nonAtomic then
      (run G n m G.blank c).bind fun
        | none => some (some (c, []))
        | some (c₁, _) => run G n m .skip c₁
    else some (some (c, []))
  | _ + 1, _, .soi, c => some (if c.pos = 0 then some (c, []) else none)
  | _ + 1, _, .eoi, c => some (if c.rest = [] then some (c, []) else none)

end Run

/-! ## Fuel -/

section Fuel

variable {α β : Type}

/-- The second computation has every result of the first. -/
def Extends (x y : Option α) : Prop := ∀ a, x = some a → y = some a

theorem Extends.refl (x : Option α) : Extends x x := fun _ h => h

variable {x y : Option α}

theorem Extends.bind {f g : α → Option β} (h : Extends x y) (hf : ∀ a, Extends (f a) (g a)) :
    Extends (x.bind f) (y.bind g) := by
  intro b hb
  obtain ⟨a, ha, hfa⟩ := Option.bind_eq_some_iff.mp hb
  exact Option.bind_eq_some_iff.mpr ⟨a, h a ha, hf a b hfa⟩

theorem Extends.map (h : Extends x y) (f : α → β) : Extends (x.map f) (y.map f) := by
  intro b hb
  obtain ⟨a, ha, rfl⟩ := Option.map_eq_some_iff.mp hb
  rw [h a ha, Option.map_some]

theorem Extends.ite {x' y' : Option α} (p : Prop) [Decidable p] (h : Extends x y)
    (h' : Extends x' y') : Extends (if p then x else x') (if p then y else y') := by
  split
  · exact h
  · exact h'

variable {ρ : Type} {G : Grammar ρ}

theorem run_extends (n : Nat) (m : Mode) (e : Expr ρ) (c : Cursor) :
    Extends (run G n m e c) (run G (n + 1) m e c) := by
  induction n generalizing m e c with
  | zero => exact nofun
  | succ n ih =>
    cases e with
    | str s | cls p => exact .refl _
    | rule r => exact (ih _ _ _).map _
    | seq a b =>
      refine (ih _ _ _).bind ?_
      rintro (_ | ⟨c₁, t₁⟩)
      · exact .refl _
      · refine (ih _ _ _).bind ?_
        rintro (_ | ⟨c₂, t₂⟩)
        · exact .refl _
        · exact (ih _ _ _).map _
    | alt a b =>
      refine (ih _ _ _).bind ?_
      rintro (_ | x)
      · exact ih _ _ _
      · exact .refl _
    | opt a => exact (ih _ _ _).map _
    | star a =>
      refine (ih _ _ _).bind ?_
      rintro (_ | ⟨c₁, t₁⟩)
      · exact .refl _
      · exact (ih _ _ _).map _
    | more a =>
      refine (ih _ _ _).bind ?_
      rintro (_ | ⟨c₁, t₁⟩)
      · exact .refl _
      · refine (ih _ _ _).bind ?_
        rintro (_ | ⟨c₂, t₂⟩)
        · exact .refl _
        · exact (ih _ _ _).map _
    | not a => exact (ih _ _ _).map _
    | skip =>
      refine .ite _ ?_ (.refl _)
      refine (ih _ _ _).bind ?_
      rintro (_ | ⟨c₁, t₁⟩)
      · exact .refl _
      · exact ih _ _ _
    | soi | eoi => exact .refl _

theorem run_le {n k : Nat} (h : n ≤ k) (m : Mode) (e : Expr ρ) (c : Cursor) :
    Extends (run G n m e c) (run G k m e c) := by
  induction h with
  | refl => exact .refl _
  | step _ ih => exact fun a ha => run_extends _ m e c a (ih a ha)

end Fuel

/-! ## Outcomes -/

section Eval

variable {ρ : Type}

/-- With enough fuel this is the outcome. -/
def Eval (G : Grammar ρ) (m : Mode) (e : Expr ρ) (c : Cursor) (out : Outcome ρ) : Prop :=
  ∃ n, run G n m e c = some out

variable {G : Grammar ρ} {m : Mode} {a b : Expr ρ} {c c₁ c₂ c₃ : Cursor} {t₁ t₂ t₃ : List (ParseTree ρ)}
  {out out' : Outcome ρ}

theorem Eval.unique (h : Eval G m a c out) (h' : Eval G m a c out') : out = out' := by
  obtain ⟨n, hn⟩ := h
  obtain ⟨k, hk⟩ := h'
  have hn' := run_le (Nat.le_max_left n k) m a c _ hn
  have hk' := run_le (Nat.le_max_right n k) m a c _ hk
  exact Option.some.inj (hn'.symm.trans hk')

/-- Fuel for two outcomes. -/
theorem Eval.both {m' : Mode} (h : Eval G m a c out) (h' : Eval G m' b c₁ out') :
    ∃ n, run G n m a c = some out ∧ run G n m' b c₁ = some out' := by
  obtain ⟨n, hn⟩ := h
  obtain ⟨k, hk⟩ := h'
  exact ⟨max n k, run_le (Nat.le_max_left n k) m a c _ hn,
    run_le (Nat.le_max_right n k) m' b c₁ _ hk⟩

theorem Eval.str (s : List Char) (k : Nat) (r : List Char) :
    Eval G m (.str s) ⟨k, s ++ r⟩ (some (⟨k + s.length, r⟩, [])) := by
  refine ⟨1, congrArg some ((if_pos (List.prefix_append s r)).trans ?_)⟩
  rw [Cursor.advance, List.drop_left]

theorem Eval.str_fail {s : List Char} (h : ¬ s <+: c.rest) : Eval G m (.str s) c none :=
  ⟨1, congrArg some (if_neg h)⟩

theorem Eval.cls {p : Char → Bool} {x : Char} (h : p x = true) (k : Nat) (r : List Char) :
    Eval G m (.cls p) ⟨k, x :: r⟩ (some (⟨k + 1, r⟩, [])) :=
  ⟨1, congrArg some (if_pos h)⟩

theorem Eval.cls_fail {p : Char → Bool} (h : ¬ c.rest.head?.any p = true) :
    Eval G m (.cls p) c none :=
  ⟨1, congrArg some (if_neg h)⟩

variable {r : ρ}

theorem Eval.rule (h : Eval G (m.inside (G.kind r)) (G.body r) c out) :
    Eval G m (.rule r) c (out.map (wrap m (G.kind r) r c)) := by
  obtain ⟨n, hn⟩ := h
  exact ⟨n + 1, Option.map_eq_some_iff.mpr ⟨out, hn, rfl⟩⟩

theorem Eval.rule_fail (h : Eval G (m.inside (G.kind r)) (G.body r) c none) :
    Eval G m (.rule r) c none := Eval.rule h

theorem Eval.silent (hm : m.leaves (G.kind r) = false)
    (h : Eval G (m.inside (G.kind r)) (G.body r) c (some (c₁, t₁))) :
    Eval G m (.rule r) c (some (c₁, t₁)) := by
  have h' := Eval.rule h
  rwa [Option.map_some, wrap, hm, if_neg Bool.false_ne_true] at h'

theorem wrap_node {k : Kind} (hm : m.leaves k = true) (p q : Nat) (u v : List Char)
    (ts : List (ParseTree ρ)) : wrap m k r ⟨p, u ++ v⟩ (⟨q, v⟩, ts) = (⟨q, v⟩, [.node r u ts]) := by
  have hlen : (u ++ v).length - v.length = u.length := by rw [List.length_append]; omega
  rw [wrap, if_pos hm]
  rw [hlen, List.take_left]

/-- A rule that leaves a node, at a place from which it reads `u`. -/
theorem Eval.node {p q : Nat} {u v : List Char} (hm : m.leaves (G.kind r) = true)
    (h : Eval G (m.inside (G.kind r)) (G.body r) ⟨p, u ++ v⟩ (some (⟨q, v⟩, t₁))) :
    Eval G m (.rule r) ⟨p, u ++ v⟩ (some (⟨q, v⟩, [.node r u t₁])) := by
  have h' := Eval.rule h
  rwa [Option.map_some, wrap_node hm] at h'

/-- A rule that leaves a node and reads up to the end. -/
theorem Eval.node_end {p q : Nat} {u : List Char} (hm : m.leaves (G.kind r) = true)
    (h : Eval G (m.inside (G.kind r)) (G.body r) ⟨p, u⟩ (some (⟨q, []⟩, t₁))) :
    Eval G m (.rule r) ⟨p, u⟩ (some (⟨q, []⟩, [.node r u t₁])) := by
  have h' := Eval.node (u := u) (v := []) hm (by rwa [List.append_nil])
  rwa [List.append_nil] at h'

theorem Eval.rule_inv {x : Cursor × List (ParseTree ρ)} (h : Eval G m (.rule r) c (some x)) :
    ∃ y, Eval G (m.inside (G.kind r)) (G.body r) c (some y) ∧ x = wrap m (G.kind r) r c y := by
  obtain ⟨_ | n, hn⟩ := h
  · cases hn
  · obtain ⟨_ | y, hout, hy⟩ := Option.map_eq_some_iff.mp hn
    · cases hy
    · exact ⟨y, ⟨n, hout⟩, (Option.some.inj hy).symm⟩

theorem Eval.seq (h1 : Eval G m a c (some (c₁, t₁))) (hs : Eval G m .skip c₁ (some (c₂, t₂)))
    (h2 : Eval G m b c₂ out) : Eval G m (.seq a b) c (out.map (after t₁)) := by
  obtain ⟨n, hn⟩ := h1
  obtain ⟨k, hk, hk'⟩ := hs.both h2
  have ha := run_le (Nat.le_max_left n k) m a c _ hn
  have hskip := run_le (Nat.le_max_right n k) m .skip c₁ _ hk
  have hb := run_le (Nat.le_max_right n k) m b c₂ _ hk'
  exact ⟨max n k + 1, Option.bind_eq_some_iff.mpr ⟨_, ha,
    Option.bind_eq_some_iff.mpr ⟨_, hskip, Option.map_eq_some_iff.mpr ⟨_, hb, rfl⟩⟩⟩⟩

theorem Eval.seq_left (h : Eval G m a c none) : Eval G m (.seq a b) c none := by
  obtain ⟨n, hn⟩ := h
  exact ⟨n + 1, Option.bind_eq_some_iff.mpr ⟨_, hn, rfl⟩⟩

theorem Eval.seq_inv (h : Eval G m (.seq a b) c (some (c₃, t₃))) :
    ∃ c₁ t₁ c₂ t₂ t, Eval G m a c (some (c₁, t₁)) ∧ Eval G m .skip c₁ (some (c₂, t₂)) ∧
      Eval G m b c₂ (some (c₃, t)) ∧ t₃ = t₁ ++ t := by
  obtain ⟨_ | n, hn⟩ := h
  · cases hn
  · obtain ⟨_ | ⟨c₁, t₁⟩, ha, hn⟩ := Option.bind_eq_some_iff.mp hn
    · cases hn
    · obtain ⟨_ | ⟨c₂, t₂⟩, hs, hn⟩ := Option.bind_eq_some_iff.mp hn
      · cases hn
      · obtain ⟨_ | ⟨c₃, t⟩, hb, hout⟩ := Option.map_eq_some_iff.mp hn
        · cases hout
        · cases hout
          exact ⟨c₁, t₁, c₂, t₂, t, ⟨n, ha⟩, ⟨n, hs⟩, ⟨n, hb⟩, rfl⟩

theorem Eval.alt_left (h : Eval G m a c (some (c₁, t₁))) :
    Eval G m (.alt a b) c (some (c₁, t₁)) := by
  obtain ⟨n, hn⟩ := h
  exact ⟨n + 1, Option.bind_eq_some_iff.mpr ⟨_, hn, rfl⟩⟩

theorem Eval.alt_right (h : Eval G m a c none) (h' : Eval G m b c out) :
    Eval G m (.alt a b) c out := by
  obtain ⟨n, hn, hn'⟩ := h.both h'
  exact ⟨n + 1, Option.bind_eq_some_iff.mpr ⟨_, hn, hn'⟩⟩

theorem Eval.alt_inv {x : Cursor × List (ParseTree ρ)} (h : Eval G m (.alt a b) c (some x)) :
    Eval G m a c (some x) ∨ Eval G m a c none ∧ Eval G m b c (some x) := by
  obtain ⟨_ | n, hn⟩ := h
  · cases hn
  · obtain ⟨_ | y, ha, hn⟩ := Option.bind_eq_some_iff.mp hn
    · exact .inr ⟨⟨n, ha⟩, ⟨n, hn⟩⟩
    · cases hn
      exact .inl ⟨n, ha⟩

theorem Eval.opt_some (h : Eval G m a c (some (c₁, t₁))) : Eval G m (.opt a) c (some (c₁, t₁)) := by
  obtain ⟨n, hn⟩ := h
  exact ⟨n + 1, Option.map_eq_some_iff.mpr ⟨_, hn, rfl⟩⟩

theorem Eval.opt_none (h : Eval G m a c none) : Eval G m (.opt a) c (some (c, [])) := by
  obtain ⟨n, hn⟩ := h
  exact ⟨n + 1, Option.map_eq_some_iff.mpr ⟨_, hn, rfl⟩⟩

theorem Eval.star_nil (h : Eval G m a c none) : Eval G m (.star a) c (some (c, [])) := by
  obtain ⟨n, hn⟩ := h
  exact ⟨n + 1, Option.bind_eq_some_iff.mpr ⟨_, hn, rfl⟩⟩

theorem Eval.star_cons (h : Eval G m a c (some (c₁, t₁))) (h' : Eval G m (.more a) c₁ out) :
    Eval G m (.star a) c (out.map (after t₁)) := by
  obtain ⟨n, hn, hn'⟩ := h.both h'
  exact ⟨n + 1, Option.bind_eq_some_iff.mpr
    ⟨_, hn, Option.map_eq_some_iff.mpr ⟨_, hn', rfl⟩⟩⟩

theorem Eval.more_nil (hs : Eval G m .skip c (some (c₁, t₁))) (h : Eval G m a c₁ none) :
    Eval G m (.more a) c (some (c, [])) := by
  obtain ⟨n, hn, hn'⟩ := hs.both h
  exact ⟨n + 1, Option.bind_eq_some_iff.mpr
    ⟨_, hn, Option.bind_eq_some_iff.mpr ⟨_, hn', rfl⟩⟩⟩

theorem Eval.more_cons (hs : Eval G m .skip c (some (c₁, t₁)))
    (h : Eval G m a c₁ (some (c₂, t₂))) (h' : Eval G m (.more a) c₂ out) :
    Eval G m (.more a) c (out.map (after t₂)) := by
  obtain ⟨n, hn⟩ := hs
  obtain ⟨k, hk, hk'⟩ := h.both h'
  have hskip := run_le (Nat.le_max_left n k) m .skip c _ hn
  have ha := run_le (Nat.le_max_right n k) m a c₁ _ hk
  have hmore := run_le (Nat.le_max_right n k) m (.more a) c₂ _ hk'
  exact ⟨max n k + 1, Option.bind_eq_some_iff.mpr ⟨_, hskip,
    Option.bind_eq_some_iff.mpr ⟨_, ha, Option.map_eq_some_iff.mpr ⟨_, hmore, rfl⟩⟩⟩⟩

theorem Eval.not_some (h : Eval G { m with quiet := true } a c none) :
    Eval G m (.not a) c (some (c, [])) := by
  obtain ⟨n, hn⟩ := h
  exact ⟨n + 1, Option.map_eq_some_iff.mpr ⟨_, hn, rfl⟩⟩

theorem Eval.not_none (h : Eval G { m with quiet := true } a c (some (c₁, t₁))) :
    Eval G m (.not a) c none := by
  obtain ⟨n, hn⟩ := h
  exact ⟨n + 1, Option.map_eq_some_iff.mpr ⟨_, hn, rfl⟩⟩

theorem Eval.skip_atomic (h : m.atomicity ≠ .nonAtomic) : Eval G m .skip c (some (c, [])) :=
  ⟨1, if_neg h⟩

theorem Eval.skip_none (h : Eval G m G.blank c none) : Eval G m .skip c (some (c, [])) := by
  by_cases hm : m.atomicity = .nonAtomic
  · obtain ⟨n, hn⟩ := h
    exact ⟨n + 1, (if_pos hm).trans (Option.bind_eq_some_iff.mpr ⟨_, hn, rfl⟩)⟩
  · exact .skip_atomic hm

theorem Eval.soi (h : c.pos = 0) : Eval G m .soi c (some (c, [])) :=
  ⟨1, congrArg some (if_pos h)⟩

theorem Eval.eoi (h : c.rest = []) : Eval G m .eoi c (some (c, [])) :=
  ⟨1, congrArg some (if_pos h)⟩

theorem Eval.eoi_fail (h : c.rest ≠ []) : Eval G m .eoi c none :=
  ⟨1, congrArg some (if_neg h)⟩

end Eval

/-! ## What the next character tells -/

section Look

variable {ρ : Type}

/-- An expression fails, it matches nothing and leaves nothing, or it takes more to tell. -/
inductive Verdict where
  | fails
  | idle
  | unknown
  deriving DecidableEq

/-- What holds of an expression at every place with this next character, in every mode; `none` is
the end of the input. -/
def look (G : Grammar ρ) : Nat → Expr ρ → Option Char → Verdict
  | 0, _, _ => .unknown
  | _ + 1, .str s, o =>
    match s with
    | [] => .idle
    | x :: _ => if o = some x then .unknown else .fails
  | _ + 1, .cls p, o => if o.any p then .unknown else .fails
  | n + 1, .rule r, o =>
    match look G n (G.body r) o, G.kind r with
    | .fails, _ => .fails
    | .idle, .silent => .idle
    | _, _ => .unknown
  | n + 1, .seq a b, o =>
    match look G n a o with
    | .fails => .fails
    | .idle => if look G n G.blank o = .fails then look G n b o else .unknown
    | .unknown => .unknown
  | n + 1, .alt a b, o =>
    match look G n a o with
    | .fails => look G n b o
    | .idle => .idle
    | .unknown => .unknown
  | n + 1, .opt a, o => if look G n a o = .unknown then .unknown else .idle
  | n + 1, .star a, o => if look G n a o = .fails then .idle else .unknown
  | _ + 1, .more _, _ => .unknown
  | n + 1, .not a, o =>
    match look G n a o with
    | .fails => .idle
    | .idle => .fails
    | .unknown => .unknown
  | n + 1, .skip, o => if look G n G.blank o = .fails then .idle else .unknown
  | _ + 1, .soi, _ => .unknown
  | _ + 1, .eoi, o => if o = none then .idle else .fails

/-- A verdict is right at a place. -/
def Verdict.Right (G : Grammar ρ) (m : Mode) (e : Expr ρ) (c : Cursor) : Verdict → Prop
  | .fails => Eval G m e c none
  | .idle => Eval G m e c (some (c, []))
  | .unknown => True

variable {G : Grammar ρ} {m : Mode} {e : Expr ρ} {c : Cursor}

theorem look_right (n : Nat) (m : Mode) (e : Expr ρ) (c : Cursor) :
    (look G n e c.rest.head?).Right G m e c := by
  induction n generalizing m e with
  | zero => trivial
  | succ n ih =>
    -- the verdict on a part, in the mode the part is run in
    have fails {m : Mode} {a : Expr ρ} (h : look G n a c.rest.head? = .fails) :
        Eval G m a c none := by
      have := ih m a
      rwa [h] at this
    have idle {m : Mode} {a : Expr ρ} (h : look G n a c.rest.head? = .idle) :
        Eval G m a c (some (c, [])) := by
      have := ih m a
      rwa [h] at this
    cases e with
    | str s =>
      cases s with
      | nil => exact .str [] c.pos c.rest
      | cons x s =>
        rw [look]
        split
        · trivial
        · rename_i h
          refine .str_fail fun ⟨r, hr⟩ => h ?_
          rw [← hr, List.cons_append, List.head?_cons]
    | cls p =>
      rw [look]
      split
      · trivial
      · rename_i h
        exact .cls_fail h
    | rule r =>
      rw [look]
      split
      · rename_i h
        exact .rule_fail (fails h)
      · rename_i h hk
        refine .silent ?_ (idle h)
        rw [hk]
        rfl
      · trivial
    | seq a b =>
      rw [look]
      split
      · rename_i h
        exact .seq_left (fails h)
      · rename_i h
        split
        · rename_i hb
          cases hv : look G n b c.rest.head? with
          | fails => exact .seq (idle h) (.skip_none (fails hb)) (fails hv)
          | idle => exact .seq (idle h) (.skip_none (fails hb)) (idle hv)
          | unknown => trivial
        · trivial
      · trivial
    | alt a b =>
      rw [look]
      split
      · rename_i h
        cases hv : look G n b c.rest.head? with
        | fails => exact .alt_right (fails h) (fails hv)
        | idle => exact .alt_right (fails h) (idle hv)
        | unknown => trivial
      · rename_i h
        exact .alt_left (idle h)
      · trivial
    | opt a =>
      rw [look]
      cases hv : look G n a c.rest.head? with
      | fails => exact .opt_none (fails hv)
      | idle => exact .opt_some (idle hv)
      | unknown => trivial
    | star a =>
      rw [look]
      split
      · rename_i h
        exact .star_nil (fails h)
      · trivial
    | more a => trivial
    | not a =>
      rw [look]
      split
      · rename_i h
        exact .not_some (fails h)
      · rename_i h
        exact .not_none (idle h)
      · trivial
    | skip =>
      rw [look]
      split
      · rename_i h
        exact .skip_none (fails h)
      · trivial
    | soi => trivial
    | eoi =>
      rw [look]
      split
      · rename_i h
        exact .eoi (List.head?_eq_none_iff.mp h)
      · rename_i h
        exact .eoi_fail fun hr => h (List.head?_eq_none_iff.mpr hr)

theorem Eval.of_fails (n : Nat) {o : Option Char} (ho : c.rest.head? = o)
    (h : look G n e o = .fails) : Eval G m e c none := by
  have hr := look_right (G := G) n m e c
  rwa [ho, h] at hr

theorem Eval.of_idle (n : Nat) {o : Option Char} (ho : c.rest.head? = o)
    (h : look G n e o = .idle) : Eval G m e c (some (c, [])) := by
  have hr := look_right (G := G) n m e c
  rwa [ho, h] at hr

end Look

/-! ## Repetitions without blanks -/

section Steps

variable {ρ : Type} {G : Grammar ρ} {m : Mode} {a : Expr ρ} {c d : Cursor}

/-- A match that leaves nothing. -/
def Step (G : Grammar ρ) (m : Mode) (a : Expr ρ) (c d : Cursor) : Prop :=
  Eval G m a c (some (d, []))

theorem Eval.more_of_steps (hm : m.atomicity ≠ .nonAtomic)
    (h : Relation.ReflTransGen (Step G m a) c d) (hd : Eval G m a d none) :
    Eval G m (.more a) c (some (d, [])) := by
  induction h using Relation.ReflTransGen.head_induction_on with
  | refl => exact .more_nil (.skip_atomic hm) hd
  | head hstep _ ih => exact .more_cons (.skip_atomic hm) hstep ih

theorem Eval.star_of_steps (hm : m.atomicity ≠ .nonAtomic)
    (h : Relation.ReflTransGen (Step G m a) c d) (hd : Eval G m a d none) :
    Eval G m (.star a) c (some (d, [])) := by
  obtain rfl | ⟨c₁, hstep, hrest⟩ := h.cases_head
  · exact .star_nil hd
  · exact .star_cons hstep (.more_of_steps hm hrest hd)

theorem Eval.plus_of_steps {c₁ : Cursor} (hm : m.atomicity ≠ .nonAtomic) (h1 : Step G m a c c₁)
    (h : Relation.ReflTransGen (Step G m a) c₁ d) (hd : Eval G m a d none) :
    Eval G m (.plus a) c (some (d, [])) :=
  .seq h1 (.skip_atomic hm) (.star_of_steps hm h hd)

/-- A text is read step by step when each of its characters is, wherever it stands. -/
theorem steps_of_text (w r : List Char) (k : Nat)
    (h : ∀ u x v, w = u ++ x :: v →
      Step G m a ⟨k + u.length, x :: (v ++ r)⟩ ⟨k + u.length + 1, v ++ r⟩) :
    Relation.ReflTransGen (Step G m a) ⟨k, w ++ r⟩ ⟨k + w.length, r⟩ := by
  induction w generalizing k with
  | nil => exact .refl
  | cons x w ih =>
    refine .head (h [] x w rfl) ?_
    have hlen : k + (x :: w).length = k + 1 + w.length := by rw [List.length_cons]; omega
    rw [hlen]
    refine ih (k + 1) fun u y v huv => ?_
    have := h (x :: u) y v (by rw [huv, List.cons_append])
    have hpos : k + (x :: u).length = k + 1 + u.length := by rw [List.length_cons]; omega
    rwa [hpos] at this

end Steps

end Peg
