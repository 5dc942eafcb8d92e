import Mathlib.Logic.Relation

/-!
Programs over atomic actions and the three ways of running them: alone, alone
until a crash, and interleaved in a pool of threads.

A `Machine` executes one atomic action of one actor at a time; a `Choice`
resolves whatever the environment decides (a fault, a cache eviction). An action
that cannot proceed (a held lock) returns `none`.
-/

/-- A program: a result, or an atomic action followed by a program. -/
inductive Prog (Act : Type → Type) (α : Type) : Type 1 where
  | ret (a : α)
  | act {β : Type} (a : Act β) (k : β → Prog Act α)

namespace Prog

variable {Act : Type → Type} {α β γ : Type}

def bind (p : Prog Act α) (f : α → Prog Act β) : Prog Act β :=
  match p with
  | ret a => f a
  | act a k => act a fun r => (k r).bind f

def perform (a : Act α) : Prog Act α := act a ret

instance : Monad (Prog Act) where
  pure := ret
  bind := bind

@[simp] theorem pure_eq (a : α) : (pure a : Prog Act α) = ret a := rfl

@[simp] theorem bind_eq (p : Prog Act α) (f : α → Prog Act β) : p >>= f = p.bind f := rfl

@[simp] theorem ret_bind (a : α) (f : α → Prog Act β) : (ret a).bind f = f a := rfl

@[simp] theorem act_bind {δ : Type} (a : Act δ) (k : δ → Prog Act α) (f : α → Prog Act β) :
    (act a k).bind f = act a fun r => (k r).bind f := rfl

theorem bind_assoc (p : Prog Act α) (f : α → Prog Act β) (g : β → Prog Act γ) :
    (p.bind f).bind g = p.bind fun a => (f a).bind g := by
  induction p with
  | ret a => rfl
  | act a k ih => simp only [act_bind, ih]

end Prog

/-- How an actor's atomic actions change the shared state. -/
structure Machine (Act : Type → Type) where
  State : Type
  Choice : Type
  Who : Type
  exec : {β : Type} → Who → Choice → Act β → State → Option (β × State)

namespace Machine

variable {Act : Type → Type} (M : Machine Act) {α β : Type}

abbrev Oracle := Nat → M.Choice

def rest (o : M.Oracle) : M.Oracle := fun n => o (n + 1)

/-- Run a program alone; `none` when an action cannot proceed. -/
def run (w : M.Who) : Prog Act α → M.Oracle → M.State → Option (α × M.Oracle × M.State)
  | .ret a, o, s => some (a, o, s)
  | .act a k, o, s =>
    match M.exec w (o 0) a s with
    | none => none
    | some (r, s') => run w (k r) (M.rest o) s'

/-- Run a program alone for at most `n` actions: the state a crash after them
leaves behind, and what was still to be done. -/
def runFor (w : M.Who) : Nat → Prog Act α → M.Oracle → M.State → Prog Act α × M.Oracle × M.State
  | 0, p, o, s => (p, o, s)
  | _ + 1, .ret a, o, s => (.ret a, o, s)
  | n + 1, .act a k, o, s =>
    match M.exec w (o 0) a s with
    | none => (.act a k, o, s)
    | some (r, s') => runFor w n (k r) (M.rest o) s'

/-- A pool of threads over one state. -/
structure Pool where
  state : M.State
  threads : List (M.Who × Prog Act Unit)

def step (j : Nat) (c : M.Choice) (P : M.Pool) : Option M.Pool :=
  match P.threads[j]? with
  | some (w, .act a k) =>
    match M.exec w c a P.state with
    | none => none
    | some (r, s) => some ⟨s, P.threads.set j (w, k r)⟩
  | _ => none

def runPool : List (Nat × M.Choice) → M.Pool → Option M.Pool
  | [], P => some P
  | (j, c) :: sched, P =>
    match M.step j c P with
    | none => none
    | some P' => runPool sched P'

/-- A condition on single actions: who acts, on which state, with which outcome. -/
abbrev StepCond := {β : Type} → M.Who → Act β → M.State → β → M.State → Prop

/-- The next action of thread `j`, if it can proceed, meets the condition. -/
def StepMeets (cond : M.StepCond) (j : Nat) (c : M.Choice) (P : M.Pool) : Prop :=
  match P.threads[j]? with
  | some (w, .act a _) => ∀ r s, M.exec w c a P.state = some (r, s) → cond w a P.state r s
  | _ => True

/-- Every action of the scheduled run meets the condition. -/
def RunMeets (cond : M.StepCond) : List (Nat × M.Choice) → M.Pool → Prop
  | [], _ => True
  | (j, c) :: sched, P =>
    M.StepMeets cond j c P ∧ ∀ P', M.step j c P = some P' → RunMeets cond sched P'

variable {M} in
/-- A condition that every action meets. -/
theorem RunMeets.of_all {cond : M.StepCond}
    (h : ∀ {γ : Type} (w : M.Who) (a : Act γ) (s : M.State) (r : γ) (s' : M.State),
      cond w a s r s') (sched : List (Nat × M.Choice)) (P : M.Pool) : M.RunMeets cond sched P := by
  induction sched generalizing P with
  | nil => trivial
  | cons jc sched ih =>
    refine ⟨?_, fun P' _ => ih P'⟩
    unfold StepMeets
    split
    · exact fun r s _ => h _ _ _ r s
    · trivial

/-! ## Running compound programs -/

theorem run_bind (w : M.Who) (p : Prog Act α) (f : α → Prog Act β) (o : M.Oracle) (s : M.State) :
    M.run w (p.bind f) o s =
      match M.run w p o s with
      | none => none
      | some (a, o', s') => M.run w (f a) o' s' := by
  induction p generalizing o s with
  | ret a => rfl
  | act a k ih =>
    simp only [Prog.act_bind, run]
    cases M.exec w (o 0) a s with
    | none => rfl
    | some x => exact ih x.1 (M.rest o) x.2

end Machine
