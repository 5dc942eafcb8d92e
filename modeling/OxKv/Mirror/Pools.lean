import OxKv.Mirror.Calls

/-!
Rely and guarantee for clones of a cached store when only the mirrors matter: the durable
core may do anything.

`Cached.Holds` is safety of a procedure under such rules; `Cached.pool_inv` says that the
invariant holds in every pool of safe threads.
-/

namespace OxKv

/-- A condition on the actions on mirrors. -/
abbrev MirrorCond := {β : Type} → Who → MirrorAct β → Mirrors → Prop

def MirrorCond.step (C : MirrorCond) : cachedEngine.StepCond := fun who a s _ _ =>
  match a with
  | .core _ => True
  | .ext b => C who b s.2

namespace Cached

variable (O : Outer Who Mirrors) (C : MirrorCond)

def mirrorRules : Rules cachedEngine :=
  @Outer.rules Act MirrorAct engine Mirrors @execMirror O C.step

def Secure {α : Type} (who : Who) (p : CachedProg α) (Q : α → Mirrors → Prop) (e : Mirrors) :
    Prop :=
  ∀ w : World, Safe (mirrorRules O C) who p (fun r x => Q r x.1.2) ((w, e), ())

def Holds {α : Type} (who : Who) (p : CachedIo α) (Q : Res α → Mirrors → Prop) (e : Mirrors) :
    Prop :=
  Secure O C who p Q e

variable {O} {C} {who : Who} {α β : Type} {e : Mirrors}

namespace Secure

variable {Q : α → Mirrors → Prop}

theorem mono {p : CachedProg α} {Q' : α → Mirrors → Prop} (h : Secure O C who p Q e)
    (hQ : ∀ r e', O.inv e' → Q r e' → Q' r e') : Secure O C who p Q' e :=
  fun w => .mono (h w) fun r x hi hq => hQ r x.1.2 hi hq

theorem ret {a : α} (h : ∀ e', O.rely who e e' → O.inv e' → Q a e') : Secure O C who (.ret a) Q e :=
  fun _ x hr hi => h x.1.2 hr hi

theorem bind {p : CachedProg α} {f : α → CachedProg β} {Q : β → Mirrors → Prop}
    (h : Secure O C who p (fun a e' => Secure O C who (f a) Q e') e) :
    Secure O C who (p.bind f) Q e :=
  fun w => .bind (.mono (h w) fun _ x _ hf => hf x.1.1)

theorem act {a : MirrorAct β} {k : β → CachedProg α} (h : ∀ e' c r y, O.rely who e e' → O.inv e' →
      (e'.inst who.inst).exec who.thread e'.hist.length c a = some (r, y) → C who a e' →
      O.inv ((e'.set who.inst y).log who a.mark?) ∧
        O.guar who e' ((e'.set who.inst y).log who a.mark?) ∧
        Secure O C who (k r) Q ((e'.set who.inst y).log who a.mark?)) :
    Secure O C who (.act (.ext a) k) Q e := by
  intro w
  refine @Outer.act Act MirrorAct engine Mirrors _ _ @execMirror _ _ _ _ _ _ _
    fun s c r t hr hi hx hal => ?_
  unfold execMirror at hx
  split at hx
  · cases hx
  · rename_i hy
    cases hx
    obtain ⟨hinv, hguar, hk⟩ := h s.2 c _ _ hr hi hy hal
    exact ⟨hinv, hguar, hk s.1⟩

theorem coreAct {a : Act β} {k : β → CachedProg α}
    (h : ∀ e' r, O.rely who e e' → O.inv e' → Secure O C who (k r) Q e') :
    Secure O C who (.act (.core a) k) Q e := by
  intro w x hr hi
  refine ⟨nofun, fun c r t _ hx _ => ⟨(), ?_⟩⟩
  obtain ⟨-, he⟩ := @Machine.exec_core Act MirrorAct engine Mirrors @execMirror _ _ _ _ _ _ _ hx
  obtain ⟨w', e'⟩ := t
  obtain rfl : e' = x.1.2 := he
  exact ⟨hi, O.guar_refl who _, h x.1.2 r hr hi w'⟩

theorem lift (p : Prog Act α) : Secure O C who p.lift (fun _ e' => O.rely who e e') e :=
  fun w => @Outer.lift Act MirrorAct engine Mirrors _ @execMirror _ _ _ p ((w, e), ())

end Secure

namespace Holds

variable {Q : Res α → Mirrors → Prop} {p : CachedIo α}

theorem mono {Q' : Res α → Mirrors → Prop} (h : Holds O C who p Q e)
    (hQ : ∀ r e', O.inv e' → Q r e' → Q' r e') : Holds O C who p Q' e :=
  Secure.mono h hQ

theorem ret {r : Res α} (h : ∀ e', O.rely who e e' → O.inv e' → Q r e') :
    Holds O C who (Prog.ret r : CachedIo α) Q e :=
  Secure.ret h

theorem pure {a : α} (h : ∀ e', O.rely who e e' → O.inv e' → Q (.ok a) e') :
    Holds O C who (Pure.pure a : CachedIo α) Q e :=
  Secure.ret h

theorem fail {err : StoreError} (h : ∀ e', O.rely who e e' → O.inv e' → Q (.error err) e') :
    Holds O C who (.fail err : CachedIo α) Q e :=
  Secure.ret h

theorem bind {f : α → CachedIo β} {Q : Res β → Mirrors → Prop}
    (h : Holds O C who p (fun r e' => match r with
      | .ok a => Holds O C who (f a) Q e'
      | .error err => Q (.error err) e') e) : Holds O C who (p >>= f) Q e :=
  fun w => FSafe.bind (FSafe.mono (h w) fun r x _ hr => by
    cases r with
    | ok a => exact hr x.1.1
    | error err => exact hr)

theorem attemptBind {f : Res α → CachedIo β} {Q : Res β → Mirrors → Prop}
    (h : Holds O C who p (fun r e' => Holds O C who (f r) Q e') e) :
    Holds O C who (.attempt p >>= f) Q e :=
  fun w => FSafe.attemptBind (FSafe.mono (h w) fun _ x _ hr => hr x.1.1)

/-- One action: the invariant and the guarantee, and the postcondition after it. -/
theorem act {a : MirrorAct α} (hm : a.mark? = none) (h : ∀ e' c r y, O.rely who e e' → O.inv e' →
      (e'.inst who.inst).exec who.thread e'.hist.length c a = some (r, y) → C who a e' →
      O.inv (e'.set who.inst y) ∧ O.guar who e' (e'.set who.inst y) ∧
        ∀ e'', O.rely who (e'.set who.inst y) e'' → O.inv e'' → Q (.ok r) e'') :
    Holds O C who (CachedIo.act a) Q e := by
  refine Secure.act fun e' c r y hr hi hx hal => ?_
  obtain ⟨hinv, hguar, hQ⟩ := h e' c r y hr hi hx hal
  rw [hm, Mirrors.log_none]
  exact ⟨hinv, hguar, Secure.ret hQ⟩

theorem core {p : Io α} (h : ∀ r e', O.rely who e e' → O.inv e' → Q r e') :
    Holds O C who (CachedIo.core p) Q e :=
  (Secure.lift p).mono fun r e' hi hr => h r e' hr hi

theorem coreAct {a : Act α} (h : ∀ v e', O.rely who e e' → O.inv e' → Q (.ok v) e') :
    Holds O C who (CachedIo.core (Io.act a)) Q e :=
  Secure.coreAct fun _ v hr _ => Secure.ret fun e'' hr' hi' =>
    h v e'' (O.rely_trans who _ _ _ hr hr') hi'

end Holds

/-- The invariant holds in every pool that safe threads reach. -/
theorem pool_inv (hc : ∀ w w' e e', w ≠ w' → O.guar w e e' → O.rely w' e e')
    {jobs : List CachedJob} {sched : List (Nat × Choice)} {w : World}
    {P' : cachedEngine.Pool} (hi : O.inv e)
    (hp : ∀ j job, jobs[j]? = some job →
      Secure O C ⟨j, job.inst⟩ job.prog (fun _ _ => True) e)
    (hrun : cachedEngine.runPool sched ⟨(w, e), cachedSpawn jobs⟩ = some P')
    (hm : cachedEngine.RunMeets C.step sched ⟨(w, e), cachedSpawn jobs⟩) :
    O.inv P'.state.2 := by
  refine @Outer.runPool Act MirrorAct engine Mirrors @execMirror O C.step hc sched
    ⟨(w, e), cachedSpawn jobs⟩ P' (cachedSpawn_distinct jobs) hi ?_ hrun hm
  intro who p hmem
  obtain ⟨j, hj⟩ := List.getElem?_of_mem hmem
  obtain ⟨job, hjob, rfl, rfl⟩ := getElem?_cachedSpawn hj
  exact hp j job hjob w

end Cached

end OxKv
