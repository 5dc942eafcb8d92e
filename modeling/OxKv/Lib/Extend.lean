import OxKv.Lib.Logic

/-!
Fallible programs, and machines inside larger machines.

`Machine.extend` adds state and actions to a machine. A program of the machine runs
in the larger one as it did before and leaves the added state alone.

* `Prog.Only`: the actions that a program may perform;
* `Machine.Ends`, `Machine.Returns`: partial and total correctness of lone runs;
* `Machine.Keeps`: an invariant that every single action keeps;
* `Machine.passes`: a scheduled run that is checked action by action;
* `Fallible`: programs with an outcome, sequenced up to the first error;
* `Machine.run_lift`: a lone run of a lifted program.
-/

/-! ## The actions of a program -/

namespace Prog

variable {Act : Type → Type} {α β : Type} {A B : {β : Type} → Act β → Prop}

def Only (A : {β : Type} → Act β → Prop) : Prog Act α → Prop
  | .ret _ => True
  | .act a k => A a ∧ ∀ r, (k r).Only A

theorem Only.bind {p : Prog Act α} {f : α → Prog Act β} (hp : p.Only A) (hf : ∀ a, (f a).Only A) :
    (p.bind f).Only A := by
  induction p with
  | ret a => exact hf a
  | act a k ih => exact ⟨hp.1, fun r => ih r (hp.2 r)⟩

theorem Only.mono {p : Prog Act α} (hp : p.Only A) (h : ∀ {β : Type} (a : Act β), A a → B a) :
    p.Only B := by
  induction p with
  | ret a => trivial
  | act a k ih => exact ⟨h a hp.1, fun r => ih r (hp.2 r)⟩

end Prog

/-! ## Lone runs -/

namespace Machine

variable {Act : Type → Type} {M : Machine Act} {α β : Type} {w : M.Who}

/-- Every lone run of the program that returns ends in the postcondition. -/
def Ends (M : Machine Act) (w : M.Who) (p : Prog Act α) (Q : α → M.State → Prop) (s : M.State) :
    Prop :=
  ∀ o a o' s', M.run w p o s = some (a, o', s') → Q a s'

namespace Ends

variable {Q : α → M.State → Prop} {p : Prog Act α} {s : M.State}

theorem mono {Q' : α → M.State → Prop} (h : M.Ends w p Q s) (hQ : ∀ a s', Q a s' → Q' a s') :
    M.Ends w p Q' s :=
  fun o a o' s' hrun => hQ a s' (h o a o' s' hrun)

theorem and {Q' : α → M.State → Prop} (h : M.Ends w p Q s) (h' : M.Ends w p Q' s) :
    M.Ends w p (fun a s' => Q a s' ∧ Q' a s') s :=
  fun o a o' s' hrun => ⟨h o a o' s' hrun, h' o a o' s' hrun⟩

theorem ret {a : α} (h : Q a s) : M.Ends w (.ret a) Q s := by
  intro o a' o' s' hrun
  cases hrun
  exact h

theorem act {a : Act β} {k : β → Prog Act α}
    (h : ∀ c r t, M.exec w c a s = some (r, t) → M.Ends w (k r) Q t) : M.Ends w (.act a k) Q s := by
  intro o a' o' s' hrun
  simp only [run] at hrun
  cases hx : M.exec w (o 0) a s with
  | none =>
    rw [hx] at hrun
    cases hrun
  | some x =>
    rw [hx] at hrun
    exact h (o 0) x.1 x.2 hx (M.rest o) a' o' s' hrun

theorem bind {f : α → Prog Act β} {Q : β → M.State → Prop}
    (h : M.Ends w p (fun a s' => M.Ends w (f a) Q s') s) : M.Ends w (p.bind f) Q s := by
  intro o b o' s' hrun
  rw [run_bind] at hrun
  cases hx : M.run w p o s with
  | none =>
    rw [hx] at hrun
    cases hrun
  | some x =>
    rw [hx] at hrun
    exact h o x.1 x.2.1 x.2.2 hx x.2.1 b o' s' hrun

/-- What every single action keeps, the program keeps. -/
theorem only {A : {β : Type} → Act β → Prop} {R : M.State → M.State → Prop} (refl : ∀ s, R s s)
    (trans : ∀ s1 s2 s3, R s1 s2 → R s2 s3 → R s1 s3)
    (step : ∀ {β : Type} (c : M.Choice) (a : Act β) s r t, A a → M.exec w c a s = some (r, t) → R s t)
    (hp : p.Only A) (s : M.State) : M.Ends w p (fun _ s' => R s s') s := by
  induction p generalizing s with
  | ret a => exact .ret (refl s)
  | act a k ih =>
    refine .act fun c r t hx => (ih r (hp.2 r) t).mono fun _ s' hs' => ?_
    exact trans s t s' (step c a s r t hp.1 hx) hs'

end Ends

/-- Every lone run from a state of the invariant returns, with the given choices of the
environment; it keeps the invariant and its result is in `P`. -/
def Returns (M : Machine Act) (ok : M.Choice → Prop) (J : M.State → Prop) (w : M.Who)
    (p : Prog Act α) (P : α → Prop) : Prop :=
  ∀ o s, (∀ n, ok (o n)) → J s →
    ∃ a o' s', M.run w p o s = some (a, o', s') ∧ (∀ n, ok (o' n)) ∧ J s' ∧ P a

namespace Returns

variable {ok : M.Choice → Prop} {J : M.State → Prop}

variable {P : α → Prop}

theorem ret {a : α} (h : P a) : M.Returns ok J w (.ret a) P :=
  fun o s ho hJ => ⟨a, o, s, rfl, ho, hJ, h⟩

theorem act {a : Act β} {k : β → Prog Act α}
    (h : ∀ c s, ok c → J s → ∃ r t, M.exec w c a s = some (r, t) ∧ J t ∧
      M.Returns ok J w (k r) P) : M.Returns ok J w (.act a k) P := by
  intro o s ho hJ
  obtain ⟨r, t, hx, ht, hk⟩ := h (o 0) s (ho 0) hJ
  obtain ⟨a', o', s', hrun, hend⟩ := hk (M.rest o) t (fun n => ho (n + 1)) ht
  refine ⟨a', o', s', ?_, hend⟩
  rw [run, hx]
  exact hrun

theorem bind {p : Prog Act α} {f : α → Prog Act β} {Q : β → Prop} (hp : M.Returns ok J w p P)
    (hf : ∀ a, P a → M.Returns ok J w (f a) Q) : M.Returns ok J w (p.bind f) Q := by
  intro o s ho hJ
  obtain ⟨a, o', s', hrun, ho', hJ', ha⟩ := hp o s ho hJ
  obtain ⟨b, o'', s'', hrun', hend⟩ := hf a ha o' s' ho' hJ'
  refine ⟨b, o'', s'', ?_, hend⟩
  rw [run_bind, hrun]
  exact hrun'

end Returns

/-- Every action of the program keeps the invariant, from whatever state of it, and the
result is in `Q`. -/
def Keeps (M : Machine Act) (J : M.State → Prop) (w : M.Who) :
    Prog Act α → (α → Prop) → Prop
  | .ret a, Q => Q a
  | .act a k, Q => ∀ c s r t, J s → M.exec w c a s = some (r, t) → J t ∧ M.Keeps J w (k r) Q

namespace Keeps

variable {J : M.State → Prop}

variable {p : Prog Act α}

theorem mono {Q Q' : α → Prop} (h : M.Keeps J w p Q) (hQ : ∀ a, Q a → Q' a) : M.Keeps J w p Q' := by
  induction p with
  | ret a => exact hQ a h
  | act a k ih =>
    intro c s r t hs hx
    obtain ⟨ht, hk⟩ := h c s r t hs hx
    exact ⟨ht, ih r hk⟩

theorem bind {f : α → Prog Act β} {P : α → Prop} {Q : β → Prop} (hp : M.Keeps J w p P)
    (hf : ∀ a, P a → M.Keeps J w (f a) Q) : M.Keeps J w (p.bind f) Q := by
  induction p with
  | ret a => exact hf a hp
  | act a k ih =>
    intro c s r t hs hx
    obtain ⟨ht, hk⟩ := hp c s r t hs hx
    exact ⟨ht, ih r hk⟩

theorem ends {Q : α → Prop} {s : M.State} (h : M.Keeps J w p Q) (hs : J s) :
    M.Ends w p (fun a s' => J s' ∧ Q a) s := by
  induction p generalizing s with
  | ret a => exact .ret ⟨hs, h⟩
  | act a k ih =>
    refine .act fun c r t hx => ?_
    obtain ⟨ht, hk⟩ := h c s r t hs hx
    exact ih r hk ht

end Keeps

end Machine

/-! ## Checking a scheduled run -/

namespace Machine

variable {Act : Type → Type} {M : Machine Act}

def passes (M : Machine Act) (test : {β : Type} → M.Who → Act β → M.State → Bool) :
    List (Nat × M.Choice) → M.Pool → Bool
  | [], _ => true
  | (j, c) :: sched, P =>
    (match P.threads[j]? with
      | some (w, .act a _) => test w a P.state
      | _ => true) &&
    match M.step j c P with
    | none => true
    | some P' => M.passes test sched P'

theorem RunMeets.of_passes {test : {β : Type} → M.Who → Act β → M.State → Bool}
    {cond : M.StepCond}
    (h : ∀ {β : Type} (w : M.Who) (a : Act β) (s : M.State) (r : β) (s' : M.State),
      test w a s = true → cond w a s r s')
    {sched : List (Nat × M.Choice)} {P : M.Pool} (hp : M.passes test sched P = true) :
    M.RunMeets cond sched P := by
  induction sched generalizing P with
  | nil => trivial
  | cons jc sched ih =>
    obtain ⟨j, c⟩ := jc
    simp only [passes, Bool.and_eq_true] at hp
    refine ⟨?_, fun P' hP' => ?_⟩
    · unfold StepMeets
      split
      · rename_i w β a k hj
        rw [hj] at hp
        exact fun r s _ => h w a _ r s hp.1
      · trivial
    · rw [hP'] at hp
      exact ih hp.2

end Machine

/-! ## Programs with an outcome -/

def Fallible (Act : Type → Type) (ε α : Type) : Type 1 := Prog Act (Except ε α)

namespace Fallible

variable {Act : Type → Type} {ε α β : Type}

/-- An error ends the program. -/
def bind (p : Fallible Act ε α) (f : α → Fallible Act ε β) : Fallible Act ε β :=
  Prog.bind p fun
    | .ok a => f a
    | .error e => Prog.ret (.error e)

instance : Monad (Fallible Act ε) where
  pure a := Prog.ret (.ok a)
  bind := bind

def act (a : Act α) : Fallible Act ε α := Prog.act a fun r => Prog.ret (.ok r)

def fail (e : ε) : Fallible Act ε α := Prog.ret (.error e)

/-- Run a program and look at its outcome. -/
def attempt (p : Fallible Act ε α) : Fallible Act ε (Except ε α) :=
  Prog.bind p fun r => Prog.ret (.ok r)

def ofExcept (r : Except ε α) : Fallible Act ε α := Prog.ret r

end Fallible

/-- Safety of a program that may fail. -/
def FSafe {Act : Type → Type} {M : Machine Act} {ε α : Type} (L : Rules M) (w : M.Who)
    (p : Fallible Act ε α) (Q : Except ε α → M.State × L.Ghost → Prop) (s : M.State × L.Ghost) :
    Prop :=
  Safe L w p Q s

namespace FSafe

variable {Act : Type → Type} {M : Machine Act} {ε α β : Type} {L : Rules M} {w : M.Who}

variable {s : M.State × L.Ghost} {p : Fallible Act ε α}

theorem mono {Q Q' : Except ε α → M.State × L.Ghost → Prop} (h : FSafe L w p Q s)
    (hQ : ∀ r s, L.inv s → Q r s → Q' r s) : FSafe L w p Q' s :=
  Safe.mono h hQ

/-- Sequencing: what follows has to be safe after a success, and an error is the
outcome of the whole. -/
theorem bind {f : α → Fallible Act ε β} {Q : Except ε β → M.State × L.Ghost → Prop}
    (h : FSafe L w p (fun r s' => match r with
      | .ok a => FSafe L w (f a) Q s'
      | .error e => Q (.error e) s') s) : FSafe L w (p >>= f) Q s := by
  induction p generalizing s with
  | ret r =>
    cases r with
    | error e => exact h
    | ok a => exact .bind (p := Prog.ret a) (f := f) h
  | act a k ih => exact .actNext h ih

theorem attempt {Q : Except ε (Except ε α) → M.State × L.Ghost → Prop}
    (h : FSafe L w p (fun r s' => Q (.ok r) s') s) : FSafe L w (.attempt p) Q s :=
  Safe.map h

theorem attemptBind {f : Except ε α → Fallible Act ε β} {Q : Except ε β → M.State × L.Ghost → Prop}
    (h : FSafe L w p (fun r s' => FSafe L w (f r) Q s') s) :
    FSafe L w (.attempt p >>= f) Q s :=
  bind (attempt h)

end FSafe

/-! ## Machines inside machines -/

inductive Plus (Act Ext : Type → Type) (β : Type) : Type where
  | core (a : Act β)
  | ext (b : Ext β)

namespace Prog

variable {Act Ext : Type → Type} {α β : Type}

/-- A program of a machine as a program of the larger one. -/
def lift (p : Prog Act α) : Prog (Plus Act Ext) α :=
  match p with
  | ret a => ret a
  | act a k => act (.core a) fun r => (k r).lift

@[simp] theorem lift_ret (a : α) : (ret a : Prog Act α).lift = (ret a : Prog (Plus Act Ext) α) := rfl

@[simp] theorem lift_act {γ : Type} (a : Act γ) (k : γ → Prog Act α) :
    (act a k).lift = (act (.core a) fun r => (k r).lift : Prog (Plus Act Ext) α) := rfl

end Prog

/-! ## The added actions of a program -/

namespace Prog

variable {Act Ext : Type → Type} {α β : Type}

theorem Only.lift {A : {β : Type} → Act β → Prop} {B : {β : Type} → Plus Act Ext β → Prop}
    {p : Prog Act α} (hp : p.Only A) (h : ∀ {β : Type} (a : Act β), A a → B (.core a)) :
    (p.lift : Prog (Plus Act Ext) α).Only B := by
  induction p with
  | ret a => trivial
  | act a k ih => exact ⟨h a hp.1, fun r => ih r (hp.2 r)⟩

theorem only_true (p : Prog Act α) : p.Only fun _ => True := by
  induction p with
  | ret a => trivial
  | act a k ih => exact ⟨trivial, ih⟩

end Prog

namespace Machine

variable {Act Ext : Type → Type} {α : Type}

/-- A machine with more state and more actions. The added actions may read and change
the whole state; the old ones keep the added part. -/
def extend (M : Machine Act) (E : Type)
    (f : {β : Type} → M.Who → M.Choice → Ext β → M.State × E → Option (β × (M.State × E))) :
    Machine (Plus Act Ext) where
  State := M.State × E
  Choice := M.Choice
  Who := M.Who
  exec w c a s :=
    match a with
    | .core a =>
      match M.exec w c a s.1 with
      | none => none
      | some (r, t) => some (r, (t, s.2))
    | .ext b => f w c b s

variable {M : Machine Act} {E : Type}
  {f : {β : Type} → M.Who → M.Choice → Ext β → M.State × E → Option (β × (M.State × E))}

theorem exec_core {β : Type} {w : M.Who} {c : M.Choice} {a : Act β} {s s' : M.State × E} {r : β}
    (h : (M.extend E f).exec w c (.core a) s = some (r, s')) :
    M.exec w c a s.1 = some (r, s'.1) ∧ s'.2 = s.2 := by
  simp only [extend] at h
  split at h
  · cases h
  · rename_i hx
    cases h
    exact ⟨hx, rfl⟩

theorem run_lift (w : M.Who) (p : Prog Act α) (o : M.Oracle) (s : M.State) (e : E) :
    (M.extend E f).run w p.lift o (s, e) =
      (M.run w p o s).map fun x => (x.1, x.2.1, (x.2.2, e)) := by
  induction p generalizing o s with
  | ret a => rfl
  | act a k ih =>
    simp only [Prog.lift_act, run, extend]
    cases hx : M.exec w (o 0) a s with
    | none => rfl
    | some x => exact ih x.1 (M.rest o) x.2

end Machine

variable {Act Ext : Type → Type}

/-- A lifted program ends as it did and keeps the added state. -/
theorem Machine.Ends.lift {M : Machine Act} {E α : Type}
    {f : {β : Type} → M.Who → M.Choice → Ext β → M.State × E → Option (β × (M.State × E))}
    {w : M.Who} {p : Prog Act α} {Q : α → M.State → Prop} {s : M.State × E} (h : M.Ends w p Q s.1) :
    (M.extend E f).Ends w p.lift (fun a s' => Q a s'.1 ∧ s'.2 = s.2) s := by
  intro o a o' s' hrun
  have hcore := (run_lift (f := f) w p o s.1 s.2).symm.trans hrun
  obtain ⟨x, hx, heq⟩ := Option.map_eq_some_iff.mp hcore
  cases heq
  exact ⟨h o x.1 x.2.1 x.2.2 hx, rfl⟩

/-- An invariant of a machine and one of the added state. -/
theorem Machine.Keeps.lift {M : Machine Act} {E α : Type}
    {f : {β : Type} → M.Who → M.Choice → Ext β → M.State × E → Option (β × (M.State × E))}
    {w : M.Who} {J : M.State → Prop} {K : E → Prop} {p : Prog Act α} {Q : α → Prop}
    (h : M.Keeps J w p Q) : (M.extend E f).Keeps (fun s => J s.1 ∧ K s.2) w p.lift Q := by
  induction p with
  | ret a => exact h
  | act a k ih =>
    intro c s r t hs hx
    obtain ⟨hcore, he⟩ := exec_core hx
    obtain ⟨ht, hk⟩ := h c s.1 r t.1 hs.1 hcore
    exact ⟨⟨ht, he ▸ hs.2⟩, ih r hk⟩

/-! ## Rules about the added state -/

/-- An invariant, rely and guarantee over the added state alone. -/
structure Outer (Who E : Type) where
  inv : E → Prop
  rely : Who → E → E → Prop
  guar : Who → E → E → Prop
  rely_refl : ∀ w e, rely w e e
  rely_trans : ∀ w e₁ e₂ e₃, rely w e₁ e₂ → rely w e₂ e₃ → rely w e₁ e₃
  guar_refl : ∀ w e, guar w e e

namespace Outer

variable {Act Ext : Type → Type} {M : Machine Act} {E α β : Type}
  {f : {β : Type} → M.Who → M.Choice → Ext β → M.State × E → Option (β × (M.State × E))}

def rules (O : Outer M.Who E) (allow : (M.extend E f).StepCond) : Rules (M.extend E f) where
  Ghost := Unit
  inv x := O.inv x.1.2
  rely w x x' := O.rely w x.1.2 x'.1.2
  guar w x x' := O.guar w x.1.2 x'.1.2
  ok _ := True
  allow := allow
  live := False
  rely_refl w x := O.rely_refl w x.1.2
  rely_trans w x₁ x₂ x₃ := O.rely_trans w x₁.1.2 x₂.1.2 x₃.1.2

variable {O : Outer M.Who E} {allow : (M.extend E f).StepCond} {w : M.Who}

/-- A program of the machine inside does nothing that the rules are about. -/
theorem lift (p : Prog Act α) (x : (M.State × E) × Unit) :
    Safe (O.rules allow) w (p.lift : Prog (Plus Act Ext) α) (fun _ x' => O.rely w x.1.2 x'.1.2) x := by
  suffices ∀ x0 : (M.State × E) × Unit, O.rely w x0.1.2 x.1.2 →
      Safe (O.rules allow) w (p.lift : Prog (Plus Act Ext) α)
      (fun _ x' => O.rely w x0.1.2 x'.1.2) x from
    this x (O.rely_refl w _)
  intro x0 h0
  induction p generalizing x with
  | ret a => exact fun x' hr _ => O.rely_trans w _ _ _ h0 hr
  | act a k ih =>
    intro x' hr hi
    refine ⟨nofun, fun c r t _ hx _ => ?_⟩
    obtain ⟨-, he⟩ := Machine.exec_core hx
    refine ⟨(), ?_, ?_, ih r (t, ()) ?_⟩
    · show O.inv t.2
      rw [he]
      exact hi
    · show O.guar w x'.1.2 t.2
      rw [he]
      exact O.guar_refl w _
    · rw [he]
      exact O.rely_trans w _ _ _ h0 hr

theorem act {b : Ext β} {k : β → Prog (Plus Act Ext) α} {Q : α → (M.State × E) × Unit → Prop}
    {x : (M.State × E) × Unit}
    (h : ∀ (s : M.State × E) c r t, O.rely w x.1.2 s.2 → O.inv s.2 → f w c b s = some (r, t) →
      allow w (.ext b) s r t →
      O.inv t.2 ∧ O.guar w s.2 t.2 ∧ Safe (O.rules allow) w (k r) Q (t, ())) :
    Safe (O.rules allow) w (.act (.ext b) k) Q x := by
  intro x' hr hi
  refine ⟨nofun, fun c r t _ hx hal => ⟨(), ?_⟩⟩
  exact h x'.1 c r t hr hi hx hal

/-- The invariant holds in every pool that is reached. -/
theorem runPool (hc : ∀ w w' e e', w ≠ w' → O.guar w e e' → O.rely w' e e')
    {sched : List (Nat × M.Choice)} {P P' : (M.extend E f).Pool}
    (hd : Rules.Distinct P.threads) (hi : O.inv P.state.2)
    (hp : ∀ w p, (w, p) ∈ P.threads →
      Safe (O.rules allow) w p (fun _ _ => True) (P.state, ()))
    (hrun : (M.extend E f).runPool sched P = some P')
    (hm : (M.extend E f).RunMeets allow sched P) : O.inv P'.state.2 := by
  obtain ⟨_, hsafe, -⟩ := (O.rules allow).runPool_safe (Q := fun _ _ => True)
    (fun w w' x x' hne hg => hc w w' x.1.2 x'.1.2 hne hg) sched hd
    ⟨hi, fun j w p hj => hp w p (List.mem_of_getElem? hj)⟩ (fun _ _ => trivial) hrun hm
  exact hsafe.1

end Outer
