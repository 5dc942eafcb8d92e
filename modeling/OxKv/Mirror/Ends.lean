import OxKv.Mirror.Uses
import OxKv.Spec.State

/-!
Lone runs of the procedures of a cached store, from any state and whatever the
environment chooses.

`Cached.Ends` is partial correctness; its rules follow the shape of the procedures.
`Cached.Peeks` says that a procedure changes neither storage nor the epoch of its
mirror: it holds of the scans that a refresh consists of.
-/

namespace OxKv

/-- The manifest that a load from storage gives. -/
def World.loaded (w : World) (cx : Ctx) : Manifest :=
  match w.st.lookup .manifest with
  | some (.manifest m, _) => m
  | _ => Manifest.empty cx.epoch

theorem attemptGet_ends (who : Who) (p : ObjectPath) (w : World) :
    engine.Ends who (Io.attempt (Io.call (.get p))) (fun r w' => w'.st = w.st ∧
      (r = .ok (.error Fault.backend.error) ∨ r = .ok (w.st.get p))) w := by
  refine .bind (.act fun c r w' hx => .ret (.ret ?_))
  obtain ⟨hw, hr⟩ := exec_get_cases (show exec who c (.get p) w = some (r, w') from hx)
  refine ⟨by rcases hw with rfl | rfl <;> rfl, ?_⟩
  rcases hr with ⟨-, rfl⟩ | rfl
  · exact .inl rfl
  · exact .inr rfl

theorem readManifest_loaded (who : Who) (cx : Ctx) (w : World) :
    engine.Ends who readManifest (fun r w' => w'.st = w.st ∧
      ∀ x, r = .ok x → (x.map Prod.fst).getD (Manifest.empty cx.epoch) = w.loaded cx) w := by
  refine .bind ((attemptGet_ends who .manifest w).mono fun r w' ⟨hst, hr⟩ => ?_)
  rcases hr with rfl | rfl
  · exact .ret ⟨hst, fun x hr => by cases hr⟩
  unfold World.loaded
  simp only [Storage.get]
  cases w.st.lookup .manifest with
  | none =>
    simp only
    split <;> exact .ret ⟨hst, fun x hr => by cases hr <;> rfl⟩
  | some x =>
    obtain ⟨o, t⟩ := x
    cases o <;> exact .ret ⟨hst, fun x hr => by cases hr <;> rfl⟩

/-- A load past the cache gives the stored manifest. -/
theorem loadManifest_loaded (who : Who) (cx : Ctx) (w : World) :
    engine.Ends who (loadManifest cx false)
      (fun r w' => w'.st = w.st ∧ ∀ m t, r = .ok (m, t) → m = w.loaded cx) w := by
  refine .bind (.act fun c r w' hx => .ret ?_)
  cases hx
  refine .bind ((readManifest_loaded who cx _).mono fun r w' ⟨hst, hr⟩ => ?_)
  cases r with
  | error e => exact .ret ⟨hst, fun m t h => by cases h⟩
  | ok x =>
    cases x <;> refine .bind (.act fun c r w'' hx => .ret (.ret ⟨?_, fun m t h => ?_⟩)) <;> cases hx
    · exact hst
    · cases h
      exact hr none rfl
    · exact hst
    · cases h
      exact hr (some _) rfl

/-- An ownership read gives the stored record. -/
theorem readOwnership_owner (who : Who) (w : World) :
    engine.Ends who readOwnership
      (fun r w' => w'.st = w.st ∧ ∀ x, r = .ok x → x = w.st.owner) w := by
  refine .bind ((attemptGet_ends who .ownership w).mono fun r w' ⟨hst, hr⟩ => ?_)
  rcases hr with rfl | rfl
  · exact .ret ⟨hst, fun x hr => by cases hr⟩
  unfold Storage.owner
  simp only [Storage.get]
  cases w.st.lookup .ownership with
  | none =>
    simp only
    split <;> exact .ret ⟨hst, fun x hr => by cases hr <;> rfl⟩
  | some x =>
    obtain ⟨o, t⟩ := x
    cases o <;> exact .ret ⟨hst, fun x hr => by cases hr <;> rfl⟩

/-! ## Rules -/

namespace Cached

def Ends {α : Type} (who : Who) (p : CachedIo α) (Q : Res α → World × Mirrors → Prop)
    (s : World × Mirrors) : Prop :=
  cachedEngine.Ends who p Q s

namespace Ends

variable {α β : Type} {who : Who} {s : World × Mirrors}

variable {Q : Res α → World × Mirrors → Prop} {p : CachedIo α}

theorem mono {Q' : Res α → World × Mirrors → Prop} (h : Ends who p Q s)
    (hQ : ∀ r s', Q r s' → Q' r s') : Ends who p Q' s :=
  Machine.Ends.mono h hQ

theorem ret {r : Res α} (h : Q r s) : Ends who (Prog.ret r : CachedIo α) Q s :=
  Machine.Ends.ret h

theorem pure {a : α} (h : Q (.ok a) s) : Ends who (Pure.pure a : CachedIo α) Q s :=
  Machine.Ends.ret h

theorem fail {e : StoreError} (h : Q (.error e) s) : Ends who (.fail e : CachedIo α) Q s :=
  Machine.Ends.ret h

theorem act {a : MirrorAct α} (hm : a.mark? = none)
    (h : ∀ c r y, (s.2.inst who.inst).exec who.thread s.2.hist.length c a = some (r, y) →
      Q (.ok r) (s.1, s.2.set who.inst y)) : Ends who (CachedIo.act a) Q s := by
  refine Machine.Ends.act fun c r t hx => Machine.Ends.ret ?_
  simp only [cachedEngine, Machine.extend, execMirror, hm, Mirrors.log_none] at hx
  split at hx
  · cases hx
  · rename_i hy
    cases hx
    exact h c _ _ hy

theorem core {p : Io α} (h : engine.Ends who p (fun r w => Q r (w, s.2)) s.1) :
    Ends who (CachedIo.core p) Q s := by
  refine (Machine.Ends.lift h).mono fun r s' hr => ?_
  obtain ⟨w, e⟩ := s'
  obtain ⟨hq, rfl⟩ := hr
  exact hq

theorem bind {f : α → CachedIo β} {Q : Res β → World × Mirrors → Prop}
    (h : Ends who p (fun r s' => match r with
      | .ok a => Ends who (f a) Q s'
      | .error e => Q (.error e) s') s) : Ends who (p >>= f) Q s := by
  refine Machine.Ends.bind (h.mono fun r s' hr => ?_)
  cases r with
  | ok a => exact hr
  | error e => exact Machine.Ends.ret hr

end Ends

/-! ## Procedures that leave storage and the epoch alone -/

/-- Neither storage nor the epoch of the mirror changes. -/
def Peeks {α : Type} (p : CachedIo α) : Prop :=
  ∀ who s, Ends who p (fun _ s' => s'.1.st = s.1.st ∧
    (s'.2.inst who.inst).state.epoch = (s.2.inst who.inst).state.epoch) s

theorem Mirror.epoch_kept {β : Type} {a : MirrorAct β} {thread now : Nat} {c : Choice}
    {x y : Mirror} {r : β} (ha : a.rank ≤ 1) (hx : Mirror.exec thread now c a x = some (r, y)) :
    y.state.epoch = x.state.epoch := by
  cases a with
  | «open» | adopt | catchUp | mark => exact absurd ha (by simp [MirrorAct.rank])
  | scanGate =>
    dsimp only [Mirror.exec] at hx
    split at hx <;> cases hx
    rfl
  | _ =>
    cases hx
    rfl

/-- A program that only looks at the core and does not end a refresh. -/
theorem peeks_of_scans {α : Type} {p : CachedIo α} (h : Scans 1 p) : Peeks p := by
  intro who s
  induction p generalizing s with
  | ret r => exact .ret ⟨rfl, rfl⟩
  | act a k ih =>
    refine Machine.Ends.act fun c r t hx => ?_
    obtain ⟨hst, hepoch⟩ : t.1.st = s.1.st ∧
        (t.2.inst who.inst).state.epoch = (s.2.inst who.inst).state.epoch := by
      cases a with
      | core a =>
        obtain ⟨hx, he⟩ := Machine.exec_core hx
        exact ⟨exec_looks h.1 hx, by rw [he]⟩
      | ext b =>
        have hrank : b.rank ≤ 1 := h.1
        simp only [cachedEngine, Machine.extend, execMirror,
          mark?_of_rank (hrank.trans (Nat.le_succ 1)), Mirrors.log_none] at hx
        split at hx
        · cases hx
        · rename_i hy
          cases hx
          exact ⟨rfl, by rw [Mirrors.set_inst_self]; exact Mirror.epoch_kept hrank hy⟩
    exact (ih r (h.2 r) t).mono fun _ _ h' => ⟨h'.1.trans hst, h'.2.trans hepoch⟩

end Cached

end OxKv
