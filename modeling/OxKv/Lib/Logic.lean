import OxKv.Lib.Prog

/-!
Rely/guarantee rules for programs over a `Machine`, with a ghost state that the
proof chooses.

`Safe L w p Q s`: whatever the environment of `w` does within its rely, every
action of `p` keeps the invariant and stays within the guarantee of `w`, and if
`p` returns, its postcondition `Q` holds.

* `Safe.bind`, `Safe.mono`, `Safe.stable`, `Safe.trail`: the structural rules;
* `Rules.run_safe`: a program that is `Safe` returns when run alone;
* `Rules.runFor_safe`: and a crash at any point leaves a state of the invariant;
* `Rules.runPool_safe`: in a pool of `Safe` threads with compatible guarantees
  every reachable state satisfies the invariant and the postconditions of the
  finished threads.
-/

/-- The parameters of a rely/guarantee argument over the machine `M`. -/
structure Rules {Act : Type → Type} (M : Machine Act) where
  Ghost : Type
  /-- holds between any two actions -/
  inv : M.State × Ghost → Prop
  /-- what the actor's environment may do between two of its actions -/
  rely : M.Who → M.State × Ghost → M.State × Ghost → Prop
  /-- what one action of the actor may do -/
  guar : M.Who → M.State × Ghost → M.State × Ghost → Prop
  /-- the choices the environment may make -/
  ok : M.Choice → Prop
  /-- the actions under consideration -/
  allow : M.StepCond
  /-- every action has to be able to proceed -/
  live : Prop
  rely_refl : ∀ w s, rely w s s
  rely_trans : ∀ w s₁ s₂ s₃, rely w s₁ s₂ → rely w s₂ s₃ → rely w s₁ s₃

variable {Act : Type → Type} {M : Machine Act} {α β : Type}

def Safe (L : Rules M) (w : M.Who) :
    Prog Act α → (α → M.State × L.Ghost → Prop) → M.State × L.Ghost → Prop
  | .ret a, Q, s => ∀ s', L.rely w s s' → L.inv s' → Q a s'
  | .act a k, Q, s => ∀ s', L.rely w s s' → L.inv s' →
      (L.live → ∀ c, L.ok c → (M.exec w c a s'.1).isSome) ∧
      ∀ c r t, L.ok c → M.exec w c a s'.1 = some (r, t) → L.allow w a s'.1 r t →
        ∃ g, L.inv (t, g) ∧ L.guar w s' (t, g) ∧ Safe L w (k r) Q (t, g)

/-- The states that may follow: steps of the actor and of its environment. -/
def Trail (L : Rules M) (w : M.Who) : M.State × L.Ghost → M.State × L.Ghost → Prop :=
  Relation.ReflTransGen fun s s' => L.rely w s s' ∨ L.guar w s s'

namespace Safe

variable {L : Rules M} {w : M.Who}

variable {Q : α → M.State × L.Ghost → Prop} {s : M.State × L.Ghost} {p : Prog Act α}

/-- The same action with another continuation. -/
theorem actNext {γ : Type} {a : Act γ} {k : γ → Prog Act α} {k' : γ → Prog Act β}
    {Q' : β → M.State × L.Ghost → Prop} (h : Safe L w (.act a k) Q s)
    (hk : ∀ r {s}, Safe L w (k r) Q s → Safe L w (k' r) Q' s) : Safe L w (.act a k') Q' s := by
  intro s' hr hi
  refine ⟨(h s' hr hi).1, fun c r t hc hx hal => ?_⟩
  obtain ⟨g, hg, hG, hsafe⟩ := (h s' hr hi).2 c r t hc hx hal
  exact ⟨g, hg, hG, hk r hsafe⟩

theorem mono {Q' : α → M.State × L.Ghost → Prop} (h : Safe L w p Q s)
    (hQ : ∀ a s, L.inv s → Q a s → Q' a s) : Safe L w p Q' s := by
  induction p generalizing s with
  | ret a => exact fun s' hr hi => hQ a s' hi (h s' hr hi)
  | act a k ih => exact actNext h ih

theorem trail (h : Safe L w p Q s) : Safe L w p (fun a s' => Q a s' ∧ Trail L w s s') s := by
  suffices ∀ s0, Trail L w s0 s → Safe L w p (fun a s' => Q a s' ∧ Trail L w s0 s') s from
    this s .refl
  intro s0 ht
  induction p generalizing s with
  | ret a => exact fun s' hr hi => ⟨h s' hr hi, ht.tail (.inl hr)⟩
  | act a k ih =>
    intro s' hr hi
    refine ⟨(h s' hr hi).1, ?_⟩
    intro c r t hc hx hal
    obtain ⟨g, hg, hG, hk⟩ := (h s' hr hi).2 c r t hc hx hal
    exact ⟨g, hg, hG, ih r hk ((ht.tail (.inl hr)).tail (.inr hG))⟩

theorem guar_mono {guar : M.Who → M.State × L.Ghost → M.State × L.Ghost → Prop}
    (hguar : ∀ s s', L.inv s → guar w s s' → L.guar w s s')
    (h : @Safe Act M α { L with guar := guar } w p Q s) : Safe L w p Q s := by
  induction p generalizing s with
  | ret a => exact h
  | act a k ih =>
    intro s' hr hi
    refine ⟨(h s' hr hi).1, ?_⟩
    intro c r t hc hx hal
    obtain ⟨g, hg, hG, hk⟩ := (h s' hr hi).2 c r t hc hx hal
    exact ⟨g, hg, hguar s' (t, g) hi hG, ih r hk⟩

theorem stable {s' : M.State × L.Ghost} (h : Safe L w p Q s) (hr : L.rely w s s') :
    Safe L w p Q s' := by
  cases p with
  | ret a | act a k => exact fun s'' hr' => h s'' (L.rely_trans w _ _ _ hr hr')

theorem bind {f : α → Prog Act β} {Q : β → M.State × L.Ghost → Prop}
    (h : Safe L w p (fun a s' => Safe L w (f a) Q s') s) : Safe L w (p.bind f) Q s := by
  induction p generalizing s with
  | ret a =>
    -- the environment may act before the first action of `f a`
    have hs : ∀ s', L.rely w s s' → L.inv s' → Safe L w (f a) Q s' := h
    show Safe L w (f a) Q s
    cases hf : f a with
    | ret b | act b k =>
      intro s' hr hi
      have h' := hs s' hr hi
      rw [hf] at h'
      exact h' s' (L.rely_refl w s') hi
  | act a k ih => exact actNext h ih

theorem map {f : α → β} {Q : β → M.State × L.Ghost → Prop}
    (h : Safe L w p (fun a s' => Q (f a) s') s) : Safe L w (p.bind fun a => .ret (f a)) Q s := by
  induction p generalizing s with
  | ret a => exact h
  | act a k ih => exact actNext h ih

/-- An action after a program: the postcondition holds right before it. -/
theorem bindAct {γ : Type} {b : α → Act γ} {k : α → γ → Prog Act β}
    {Q : β → M.State × L.Ghost → Prop}
    (h : Safe L w p (fun a s' => (L.live → ∀ c, L.ok c → (M.exec w c (b a) s'.1).isSome) ∧
      ∀ c r t, L.ok c → M.exec w c (b a) s'.1 = some (r, t) → L.allow w (b a) s'.1 r t →
        ∃ g, L.inv (t, g) ∧ L.guar w s' (t, g) ∧ Safe L w (k a r) Q (t, g)) s) :
    Safe L w (p.bind fun a => .act (b a) (k a)) Q s := by
  induction p generalizing s with
  | ret a => exact h
  | act a k' ih => exact actNext h ih

theorem ret {a : α} (h : ∀ s', L.rely w s s' → L.inv s' → Q a s') : Safe L w (.ret a) Q s := h

/-- One action: state what holds before it after any interference. -/
theorem act {a : Act β} {k : β → Prog Act α} (h : ∀ s', L.rely w s s' → L.inv s' →
      (L.live → ∀ c, L.ok c → (M.exec w c a s'.1).isSome) ∧
      ∀ c r t, L.ok c → M.exec w c a s'.1 = some (r, t) → L.allow w a s'.1 r t →
        ∃ g, L.inv (t, g) ∧ L.guar w s' (t, g) ∧ Safe L w (k r) Q (t, g)) :
    Safe L w (.act a k) Q s := h

end Safe

namespace Rules

variable (L : Rules M)

/-- Every action of a lone run meets the condition of the rules. -/
def Permits (w : M.Who) : Prog Act α → M.Oracle → M.State → Prop
  | .ret _, _, _ => True
  | .act a k, o, s => ∀ r s', M.exec w (o 0) a s = some (r, s') →
      L.allow w a s r s' ∧ Permits w (k r) (M.rest o) s'

/-- Steps of one actor within its guarantee. -/
abbrev Steps (w : M.Who) : M.State × L.Ghost → M.State × L.Ghost → Prop :=
  Relation.ReflTransGen fun s s' => L.inv s ∧ L.guar w s s' ∧ L.inv s'

variable {g : L.Ghost}

/-- A safe program that runs alone ends in its postcondition; if the rules are
live, it does end. -/
theorem run_safe {w : M.Who} {p : Prog Act α} {Q : α → M.State × L.Ghost → Prop} {o : M.Oracle}
    {s : M.State} (hi : L.inv (s, g)) (h : Safe L w p Q (s, g)) (ho : ∀ n, L.ok (o n))
    (hp : L.Permits w p o s) :
    (L.live → (M.run w p o s).isSome) ∧
    ∀ a o' s', M.run w p o s = some (a, o', s') →
      (∀ n, L.ok (o' n)) ∧ ∃ g', L.inv (s', g') ∧ Q a (s', g') ∧ L.Steps w (s, g) (s', g') := by
  induction p generalizing o s g with
  | ret a =>
    refine ⟨fun _ => rfl, ?_⟩
    rintro a' o' s' hrun
    cases hrun
    exact ⟨ho, g, hi, h (s, g) (L.rely_refl w _) hi, .refl⟩
  | act a k ih =>
    obtain ⟨hlive, hstep⟩ := h (s, g) (L.rely_refl w _) hi
    simp only [Machine.run]
    cases hx : M.exec w (o 0) a s with
    | none =>
      refine ⟨fun hl => ?_, by simp⟩
      have := hlive hl (o 0) (ho 0)
      simp [hx] at this
    | some x =>
      obtain ⟨r, t⟩ := x
      obtain ⟨hal, hp'⟩ := hp r t hx
      obtain ⟨g', hi', hG, hk⟩ := hstep (o 0) r t (ho 0) hx hal
      obtain ⟨hsome, hend⟩ := ih r hi' hk (fun n => ho (n + 1)) hp'
      refine ⟨hsome, fun a' o' s' hrun => ?_⟩
      obtain ⟨ho', g'', hi'', hQ, hsteps⟩ := hend a' o' s' hrun
      exact ⟨ho', g'', hi'', hQ, .head ⟨hi, hG, hi'⟩ hsteps⟩

theorem runFor_safe {w : M.Who} {p : Prog Act α} {Q : α → M.State × L.Ghost → Prop} {o : M.Oracle}
    {s : M.State} (n : Nat) (hi : L.inv (s, g)) (h : Safe L w p Q (s, g)) (ho : ∀ n, L.ok (o n))
    (hp : L.Permits w p o s) :
    ∃ g', L.inv ((M.runFor w n p o s).2.2, g') ∧
      L.Steps w (s, g) ((M.runFor w n p o s).2.2, g') ∧
      Safe L w (M.runFor w n p o s).1 Q ((M.runFor w n p o s).2.2, g') ∧
      L.Permits w (M.runFor w n p o s).1 (M.runFor w n p o s).2.1 (M.runFor w n p o s).2.2 ∧
      ∀ n', L.ok ((M.runFor w n p o s).2.1 n') := by
  induction n generalizing p o s g with
  | zero => exact ⟨g, hi, .refl, h, hp, ho⟩
  | succ n ih =>
    cases p with
    | ret a => exact ⟨g, hi, .refl, h, hp, ho⟩
    | act a k =>
      simp only [Machine.runFor]
      cases hx : M.exec w (o 0) a s with
      | none => exact ⟨g, hi, .refl, h, hp, ho⟩
      | some x =>
        obtain ⟨r, t⟩ := x
        obtain ⟨hal, hp'⟩ := hp r t hx
        obtain ⟨g', hi', hG, hk⟩ := (h (s, g) (L.rely_refl w _) hi).2 (o 0) r t (ho 0) hx hal
        obtain ⟨g'', hi'', hsteps, hrest⟩ := ih hi' hk (fun n => ho (n + 1)) hp'
        exact ⟨g'', hi'', .head ⟨hi, hG, hi'⟩ hsteps, hrest⟩

def PoolSafe (Q : Nat → M.State × L.Ghost → Prop) (P : M.Pool) (g : L.Ghost) : Prop :=
  L.inv (P.state, g) ∧ ∀ j w p, P.threads[j]? = some (w, p) →
    Safe L w p (fun _ s => Q j s) (P.state, g)

/-- The guarantee of each actor is part of every other actor's rely. -/
def Compatible : Prop := ∀ w w' s s', w ≠ w' → L.guar w s s' → L.rely w' s s'

def Distinct (threads : List (M.Who × Prog Act Unit)) : Prop := (threads.map Prod.fst).Nodup

theorem step_safe (hc : L.Compatible) {Q : Nat → M.State × L.Ghost → Prop} {P P' : M.Pool} {j : Nat}
    {c : M.Choice} (hd : Distinct P.threads) (h : L.PoolSafe Q P g) (hok : L.ok c)
    (hs : M.step j c P = some P') (hm : M.StepMeets L.allow j c P) :
    Distinct P'.threads ∧ P'.threads.map Prod.fst = P.threads.map Prod.fst ∧
      ∃ g', L.PoolSafe Q P' g' ∧ ∃ w, (∃ p, P.threads[j]? = some (w, p)) ∧
      L.guar w (P.state, g) (P'.state, g') := by
  unfold Machine.step at hs
  unfold Machine.StepMeets at hm
  match hj : P.threads[j]? with
  | none => rw [hj] at hs; cases hs
  | some (w, .ret _) => rw [hj] at hs; cases hs
  | some (w, .act a k) =>
    rw [hj] at hs hm
    simp only at hs hm
    cases hx : M.exec w c a P.state with
    | none => rw [hx] at hs; cases hs
    | some x =>
      obtain ⟨r, t⟩ := x
      rw [hx] at hs
      cases hs
      obtain ⟨g', hi', hG, hk⟩ := (h.2 j w _ hj (P.state, g) (L.rely_refl w _) h.1).2 c r t hok hx
        (hm r t hx)
      obtain ⟨hlt, hget⟩ := List.getElem?_eq_some_iff.mp hj
      have hfst : (P.threads.set j (w, k r)).map Prod.fst = P.threads.map Prod.fst := by
        apply List.ext_getElem?
        intro i
        by_cases hij : j = i
        · subst hij; simp [hget, hlt]
        · simp [hij]
      refine ⟨by unfold Distinct; rw [hfst]; exact hd, hfst, g', ⟨hi', ?_⟩, w, ⟨_, rfl⟩, hG⟩
      intro i w' p' hi
      by_cases hij : j = i
      · subst hij
        rw [List.getElem?_set_self hlt, Option.some.injEq, Prod.mk.injEq] at hi
        obtain ⟨rfl, rfl⟩ := hi
        exact hk
      · rw [List.getElem?_set_ne hij] at hi
        refine (h.2 i w' p' hi).stable (hc w w' _ _ ?_ hG)
        rintro rfl
        -- two positions with the same actor are the same position
        have h1 : (P.threads.map Prod.fst)[j]? = some w := by simp [hj]
        have h2 : (P.threads.map Prod.fst)[i]? = some w := by simp [hi]
        exact hij ((List.getElem?_inj (by simpa using hlt) hd).mp (h1.trans h2.symm))

/-- Steps of the actors of a pool within their guarantees. -/
abbrev PoolSteps (threads : List (M.Who × Prog Act Unit)) :
    M.State × L.Ghost → M.State × L.Ghost → Prop :=
  Relation.ReflTransGen fun s s' =>
    L.inv s ∧ (∃ w ∈ threads.map Prod.fst, L.guar w s s') ∧ L.inv s'

theorem runPool_safe (hc : L.Compatible) {Q : Nat → M.State × L.Ghost → Prop}
    (sched : List (Nat × M.Choice)) {P P' : M.Pool} (hd : Distinct P.threads) (h : L.PoolSafe Q P g)
    (hok : ∀ jc ∈ sched, L.ok jc.2) (hs : M.runPool sched P = some P')
    (hm : M.RunMeets L.allow sched P) :
    ∃ g', L.PoolSafe Q P' g' ∧ L.PoolSteps P.threads (P.state, g) (P'.state, g') ∧
      ∀ j w, P'.threads[j]? = some (w, .ret ()) → Q j (P'.state, g') := by
  induction sched generalizing P g with
  | nil =>
    cases hs
    exact ⟨g, h, .refl, fun j w hj => h.2 j w _ hj _ (L.rely_refl w _) h.1⟩
  | cons jc sched ih =>
    obtain ⟨j, c⟩ := jc
    simp only [Machine.runPool] at hs
    cases hstep : M.step j c P with
    | none => rw [hstep] at hs; cases hs
    | some P1 =>
      rw [hstep] at hs
      obtain ⟨hd1, hfst, g1, h1, w, ⟨p, hw⟩, hG⟩ :=
        L.step_safe hc hd h (hok (j, c) (by simp)) hstep hm.1
      obtain ⟨g', h', hsteps, hdone⟩ :=
        ih hd1 h1 (fun x hx => hok x (by simp [hx])) hs (hm.2 P1 hstep)
      rw [PoolSteps, hfst] at hsteps
      refine ⟨g', h', .head ⟨h.1, ⟨w, ?_, hG⟩, h1.1⟩ hsteps, hdone⟩
      exact List.mem_map.mpr ⟨(w, p), List.mem_of_getElem? hw, rfl⟩

end Rules
