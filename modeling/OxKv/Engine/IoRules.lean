import OxKv.Engine.Manifest

/-!
The rely/guarantee rules of `Safe` for engine procedures: sequencing stops at the
first error, `attempt` and `mapErr` act on the outcome.
-/

namespace OxKv

theorem Io.bind_assoc {α β γ : Type} (p : Io α) (f : α → Io β) (g : β → Io γ) :
    p >>= f >>= g = p >>= fun a => f a >>= g := by
  refine (Prog.bind_assoc _ _ _).trans (congrArg (Prog.bind p) ?_)
  funext r
  cases r <;> rfl

variable {L : Rules engine} {w : Who} {α β : Type}

def IoSafe (L : Rules engine) (w : Who) (p : Io α) (Q : Res α → World × L.Ghost → Prop)
    (s : World × L.Ghost) : Prop :=
  @Safe Act engine (Res α) L w p Q s

namespace IoSafe

variable {Q : Res α → World × L.Ghost → Prop} {s : World × L.Ghost} {p : Io α}

theorem mono {Q' : Res α → World × L.Ghost → Prop} (h : IoSafe L w p Q s)
    (hQ : ∀ r s, L.inv s → Q r s → Q' r s) : IoSafe L w p Q' s :=
  Safe.mono h hQ

/-- Weaken the postcondition, knowing how the final state was reached. -/
theorem follow {Q' : Res α → World × L.Ghost → Prop} (h : IoSafe L w p Q s)
    (hQ : ∀ r s', L.inv s' → Trail L w s s' → Q r s' → Q' r s') : IoSafe L w p Q' s :=
  Safe.mono (.trail h) fun r s' hi hq => hQ r s' hi hq.2 hq.1

theorem pure {a : α} (h : ∀ s', L.rely w s s' → L.inv s' → Q (.ok a) s') :
    IoSafe L w (Pure.pure a : Io α) Q s := h

theorem fail {e : StoreError} (h : ∀ s', L.rely w s s' → L.inv s' → Q (.error e) s') :
    IoSafe L w (Io.fail e : Io α) Q s := h

theorem ofRes {r : Res α} (h : ∀ s', L.rely w s s' → L.inv s' → Q r s') :
    IoSafe L w (Io.ofRes r) Q s := h

/-- Sequencing: what follows has to be safe after a success, and an error is the
outcome of the whole. -/
theorem bind {f : α → Io β} {Q : Res β → World × L.Ghost → Prop}
    (h : IoSafe L w p (fun r s' => match r with
      | .ok a => IoSafe L w (f a) Q s'
      | .error e => Q (.error e) s') s) : IoSafe L w (p >>= f) Q s := by
  induction p generalizing s with
  | ret r =>
    cases r with
    | error e => exact h
    | ok a => exact .bind (p := Prog.ret a) h
  | act a k ih => exact .actNext h ih

theorem map {f : Res α → Res β} {Q : Res β → World × L.Ghost → Prop}
    (h : IoSafe L w p (fun r s' => Q (f r) s') s) :
    IoSafe L w (Prog.bind p fun r => Prog.ret (f r)) Q s :=
  Safe.map h

theorem attempt {Q : Res (Res α) → World × L.Ghost → Prop}
    (h : IoSafe L w p (fun r s' => Q (.ok r) s') s) : IoSafe L w (Io.attempt p) Q s :=
  map h

theorem mapErr {f : StoreError → StoreError} (h : IoSafe L w p (fun r s' => Q (r.mapError f) s') s) :
    IoSafe L w (Io.mapErr f p) Q s := by
  have heq : Io.mapErr f p = Prog.bind p fun r => Prog.ret (r.mapError f) := by
    unfold Io.mapErr
    congr 1
    funext r
    cases r <;> rfl
  rw [heq]
  exact map h

theorem attemptBind {f : Res α → Io β} {Q : Res β → World × L.Ghost → Prop}
    (h : IoSafe L w p (fun r s' => IoSafe L w (f r) Q s') s) :
    IoSafe L w (Io.attempt p >>= f) Q s :=
  bind (attempt h)

/-- One action: what it does from every state the environment may leave. -/
def Step (L : Rules engine) (w : Who) (a : Act β) (Q : β → World × L.Ghost → Prop)
    (s : World × L.Ghost) : Prop :=
  ∀ s', L.rely w s s' → L.inv s' →
    (L.live → ∀ c, L.ok c → (exec w c a s'.1).isSome) ∧
    ∀ c r t, L.ok c → exec w c a s'.1 = some (r, t) → L.allow w a s'.1 r t →
      ∃ g, L.inv (t, g) ∧ L.guar w s' (t, g) ∧
        ∀ s'', L.rely w (t, g) s'' → L.inv s'' → Q r s''

theorem act {a : Act α} (h : Step L w a (fun r s' => Q (.ok r) s') s) :
    IoSafe L w (Io.act a) Q s := h

theorem call {a : Act (Res α)} (h : Step L w a Q s) : IoSafe L w (Io.call a) Q s := h

end IoSafe

end OxKv
