import OxKv.Proc.Append

/-!
The write paths under the rules of the engine: staging, the write gate, group
commit and deletes.

* `drainStagedLocked_safe`: staged operations are listed as one batch, or stay;
* `Acted`: what a thread did between two moments at which it does not hold the gate;
* `withGate_safe`: the rule of a procedure under the write gate;
* `persistBatch_safe`, `commitLoop_safe`, `putBytes_safe`: group commit;
* `deleteLocked_safe`, `commitLocked_safe`: the other gated writers.
-/

namespace OxKv

variable {M : Mode} {who : Who} {s s' s'' : State} {cx : Ctx}

/-! ## The staging buffer -/

theorem encodeOps_of_short (hs : M.short) (ops : List Op) (h : ∀ op ∈ ops, M.OkOp op) :
    ∃ b, encodeOps ops = .ok b := by
  induction ops with
  | nil => exact ⟨[], rfl⟩
  | cons op ops ih =>
    obtain ⟨b, hb⟩ := ih fun op hop => h op (by simp [hop])
    obtain ⟨key, value⟩ := op
    have hop := h (key, value) (by simp)
    have hkey : ¬ 2 ^ 32 ≤ (keyBytes key).length := Nat.not_le.mpr (hop.2 hs)
    cases value with
    | none =>
      exact ⟨recordBytes (key, none) ++ b, by
        simp only [encodeOps, encodeOp, encodeTombstone, if_neg hkey, hb]⟩
    | some v =>
      have hst := M.short_strict hs
      have hlen : ¬ 2 ^ 32 ≤ v.length := by
        have := M.length hst v (hop.1 hst v rfl)
        unfold tombstoneVlen at this
        omega
      exact ⟨recordBytes (key, some v) ++ b, by
        simp only [encodeOps, encodeOp, encodeRecord, if_neg hkey, if_neg hlen, hb,
          Except.mapError]⟩

/-- The holder of the gate changes the staging buffer. -/
theorem Gated.buffer (h : Gated M who cx s) {b : List Op} (hok : ∀ op ∈ b, M.OkOp op)
    (hst : ¬ M.staging → b = [])
    (hs' : s' = (s.1.setInst who.inst { s.1.inst who.inst with walBuffer := b }, s.2)) :
    Effect M who s s' ∧ Gated M who cx s' ∧ Did M who [] [] s s' := by
  subst hs'
  have he : Effect M who s
      (s.1.setInst who.inst { s.1.inst who.inst with walBuffer := b }, s.2) :=
    .tune _ ⟨rfl, rfl, rfl, rfl, rfl, rfl, le_refl _, le_refl _, Or.inr ⟨rfl, rfl⟩,
      fun _ _ => h.inv.handle.cache, fun _ _ => h.inv.handle.sstCache, hok, hst⟩
  refine ⟨he, ?_, .own he h.inv h.ready ⟨[], rfl, by simp⟩ ⟨[], by simp, rfl, by simp⟩
    (fun _ => rfl) rfl (by simp)⟩
  refine { toUsing := h.toUsing.own he (by simp) rfl rfl, held := ?_, win := h.win }
  show ((World.setInst _ _ _).inst _).gate = _
  rw [World.setInst_inst_self]
  exact h.held

def drainedEntries (ops : List Op) : List (List Nat × List Op) :=
  if ops.isEmpty then [] else [([], ops)]

/-- The outcome of a drain: the staged operations are listed, or stay. -/
def Drained (M : Mode) (who : Who) (cx : Ctx) (s : State) (r : Res Unit)
    (s' : State) : Prop :=
  Gated M who cx s' ∧ match r with
    | .ok _ => ∃ ops, Did M who (drainedEntries ops) [] s s' ∧ (¬ M.staging → ops = []) ∧
        (M.solo → ops = (s.1.inst who.inst).walBuffer ∧ (s'.1.inst who.inst).walBuffer = [])
    | .error _ => Did M who [] [] s s' ∧
        (M.solo → (s'.1.inst who.inst).walBuffer = (s.1.inst who.inst).walBuffer) ∧
        (M.faults ∨ M.multi ∨ ¬ M.short)

theorem bufferTake_safe (h : Gated M who cx s) :
    IoSafe (rules M) who (Io.act .bufferTake) (fun r s' => ∃ ops, r = .ok ops ∧
      Gated M who cx s' ∧ Did M who [] [] s s' ∧ (∀ op ∈ ops, M.OkOp op) ∧
      (¬ M.staging → ops = []) ∧
      (M.solo → ops = (s.1.inst who.inst).walBuffer ∧ (s'.1.inst who.inst).walBuffer = [])) s := by
  refine .act (ownStep h (fun _ _ _ => rfl) fun s1 hk h1 c r t _ hx _ => ?_)
  dsimp only [exec] at hx
  obtain ⟨rfl, rfl⟩ := hx
  obtain ⟨he, h2, hd⟩ := h1.buffer (b := []) (by simp) (fun _ => rfl) rfl
  refine ⟨s1.2, he, fun s2 ho _ => ?_⟩
  have hk2 := h2.kept ho.calm
  refine ⟨_, rfl, h2.others ho, (hk.tended.did.trans hd).trans hk2.tended.did,
    h1.inv.handle.bufferOk _, fun hst => h1.inv.handle.buffer hst _,
    fun hs => ⟨(hk.tended.alone hs).1, ?_⟩⟩
  rw [(hk2.tended.alone hs).1]
  simp

theorem bufferRestore_safe (h : Gated M who cx s) {ops : List Op} (hok : ∀ op ∈ ops, M.OkOp op)
    (hst : ¬ M.staging → ops = []) :
    IoSafe (rules M) who (Io.act (.bufferRestore ops)) (fun r s' => r = .ok () ∧
      Gated M who cx s' ∧ Did M who [] [] s s' ∧
      (M.solo → (s'.1.inst who.inst).walBuffer = ops ++ (s.1.inst who.inst).walBuffer)) s := by
  refine .act (ownStep h (fun _ _ _ => rfl) fun s1 hk h1 c r t _ hx _ => ?_)
  cases hx
  obtain ⟨he, h2, hd⟩ := h1.buffer (b := ops ++ (s1.1.inst who.inst).walBuffer)
    (fun op hop => (List.mem_append.mp hop).elim (hok op) (h1.inv.handle.bufferOk _ op))
    (fun hs => by rw [hst hs, h1.inv.handle.buffer hs]; rfl) rfl
  refine ⟨s1.2, he, fun s2 ho _ => ?_⟩
  have hk2 := h2.kept ho.calm
  refine ⟨rfl, h2.others ho, (hk.tended.did.trans hd).trans hk2.tended.did, fun hs => ?_⟩
  rw [(hk2.tended.alone hs).1, ← (hk.tended.alone hs).1]
  simp

/-- Put the staged operations back after a failure. -/
theorem restore_safe {s0 : State} {ops : List Op} {e : StoreError} (h : Gated M who cx s)
    (hd : Did M who [] [] s0 s) (hok : ∀ op ∈ ops, M.OkOp op) (hst : ¬ M.staging → ops = [])
    (hops : M.solo → ops = (s0.1.inst who.inst).walBuffer ∧ (s.1.inst who.inst).walBuffer = [])
    (hwhy : M.faults ∨ M.multi ∨ ¬ M.short) :
    IoSafe (rules M) who (do Io.act (.bufferRestore ops); Io.fail e : Io Unit)
      (Drained M who cx s0) s := by
  refine .bind ((bufferRestore_safe h hok hst).mono ?_)
  rintro r s1 - ⟨rfl, h1, hd1, hb⟩
  refine .fail fun s2 ho _ => ?_
  have hk := h1.kept ho.calm
  refine ⟨h1.others ho, (hd.trans hd1).trans hk.tended.did, fun hs => ?_, hwhy⟩
  rw [(hk.tended.alone hs).1, hb hs, (hops hs).2, List.append_nil, (hops hs).1]

theorem drainStagedLocked_safe (h : Gated M who cx s) :
    IoSafe (rules M) who (drainStagedLocked cx) (Drained M who cx s) s := by
  refine .bind ((bufferTake_safe h).mono ?_)
  rintro r s1 - ⟨ops, rfl, h1, hd1, hok, hst, hops⟩
  show IoSafe _ _ (if ops.isEmpty then _ else _) _ _
  split
  · rename_i hempty
    obtain rfl := List.isEmpty_iff.mp hempty
    refine .pure fun s2 ho _ => ?_
    have hk := h1.kept ho.calm
    refine ⟨h1.others ho, [], hd1.trans hk.tended.did, fun _ => rfl, fun hs => ?_⟩
    rw [(hk.tended.alone hs).1]
    exact hops hs
  · rename_i hne
    have hstaging : M.staging := by
      by_contra hcon
      exact hne (by rw [hst hcon]; rfl)
    match hp : encodeOps ops with
    | .error e =>
      refine restore_safe h1 hd1 hok hst hops (.inr (.inr fun hshort => ?_))
      obtain ⟨b, hb⟩ := encodeOps_of_short hshort _ hok
      rw [hp] at hb
      cases hb
    | .ok payload =>
      have hap : Appendable M who payload [] ops [] s1 :=
        { encoded := hp
          ok := hok
          upd := .inr rfl
          same := fun hcon => absurd hstaging hcon
          drained := fun hne => absurd rfl hne
          batch := fun _ => .inl rfl
          size := by simp }
      refine .attemptBind ((appendWalLocked_safe h1 hap).mono ?_)
      rintro r s2 - ⟨h2, hb2, hr⟩
      have hops2 : M.solo → ops = (s.1.inst who.inst).walBuffer ∧
          (s2.1.inst who.inst).walBuffer = [] := fun hs =>
        ⟨(hops hs).1, (hb2 hs).trans (hops hs).2⟩
      match r, hr with
      | .error e, ⟨hd2, hwhy⟩ =>
        exact restore_safe h2 (hd1.trans hd2) hok hst hops2 (hwhy.imp id Or.inl)
      | .ok _, hd2 =>
        refine .pure fun s3 ho _ => ?_
        have hk := h2.kept ho.calm
        refine ⟨h2.others ho, ops, ?_, hst, fun hs => ?_⟩
        · have hne' : ops.isEmpty = false := by simpa using hne
          rw [drainedEntries, hne', if_neg (by simp)]
          have := (hd1.trans hd2).trans hk.tended.did
          simpa using this
        · rw [(hk.tended.alone hs).1]
          exact hops2 hs

/-! ## The write gate -/

/-- No write of the handle is in the batch of a leader. -/
def NoOpened (who : Who) (s : State) : Prop := ∀ id pw, s.2.slot id ≠ .opened who.inst pw

/-- What passes while a thread waits for the gate, takes it or leaves it. -/
structure Passed (M : Mode) (who : Who) (s s' : State) : Prop
    extends Along (·.isClient = false) who s s' where
  lin : ListedBeside who M.solo s.2.lin s'.2.lin
  settled : ∀ id pw r, s.2.slot id = .settled pw r → s'.2.slot id = .settled pw r
  waits : ∀ pw bound, Waits who.inst pw bound s → Waits who.inst pw bound s'
  live : M.solo → ∀ b, liveFrom b who.inst s'.1.hist = liveFrom b who.inst s.1.hist
  alone : M.solo → (s'.1.inst who.inst).walBuffer = (s.1.inst who.inst).walBuffer ∧
    (s'.1.inst who.inst).pending = (s.1.inst who.inst).pending ∧
    (s'.1.inst who.inst).mem = (s.1.inst who.inst).mem ∧
    s'.1.st = s.1.st ∧ s'.2.slot = s.2.slot

theorem Follows.passed (h : Follows M who s s') : Passed M who s s' where
  toAlong := h.toAlong.mono fun e he => by rcases he with rfl | rfl <;> rfl
  lin := h.lin
  settled := h.settled
  waits := h.waits
  live hs b := (h.solo hs).live b _
  alone hs := by
    obtain ⟨c, f, hc⟩ := (h.solo hs).inst who.inst
    rw [hc, (h.solo hs).ghost, (h.solo hs).st]
    exact ⟨rfl, rfl, rfl, rfl, rfl⟩

theorem Passed.trans (h : Passed M who s s') (h' : Passed M who s' s'') : Passed M who s s'' where
  toAlong := h.toAlong.trans h'.toAlong
  lin := h.lin.trans h'.lin
  settled id pw r hs := h'.settled id pw r (h.settled id pw r hs)
  waits pw bound hw := h'.waits pw bound (h.waits pw bound hw)
  live hs b := (h'.live hs b).trans (h.live hs b)
  alone hs := by
    obtain ⟨h1, h2, h3, h4, h5⟩ := h.alone hs
    obtain ⟨h1', h2', h3', h4', h5'⟩ := h'.alone hs
    exact ⟨h1'.trans h1, h2'.trans h2, h3'.trans h3, h4'.trans h4, h5'.trans h5⟩

/-- An own step that changes the gate. -/
theorem Passed.gate (he : Effect M who s s') (hi : Inv M.toTrack s.1 s.2)
    (hr : s.2.ready who.inst) {g : Option Nat}
    (hinst : s'.1.inst who.inst = { s.1.inst who.inst with gate := g })
    (hhist : ∃ t, s'.1.hist = t ++ s.1.hist ∧ ∀ x ∈ t, x.2 = .unlocked)
    (hst : s'.1.st = s.1.st) (hlin : s'.2.lin = s.2.lin) (hslot : s'.2.slot = s.2.slot) :
    Passed M who s s' where
  toAlong := by
    obtain ⟨t, ht, hall⟩ := hhist
    exact he.along hr ⟨t, ht, fun x hx => by rw [hall x hx]; rfl⟩ hslot
  lin := hlin ▸ .refl _
  settled id pw r hs := by rw [hslot, hs]
  waits pw bound := he.waits hi
  live _ b := by
    obtain ⟨t, ht, hall⟩ := hhist
    rw [ht, liveFrom_append fun x hx => by simp [hall x hx]]
  alone _ := by
    rw [hinst, hst, hslot]
    exact ⟨rfl, rfl, rfl, rfl, rfl⟩

theorem withGate_safe {α : Type} {p : Io α} {Q : Res α → State → Prop}
    (h : Using M who cx s) (hfree : M.solo → (s.1.inst who.inst).gate = none)
    (hp : ∀ s1, Passed M who s s1 → Gated M who cx s1 → NoOpened who s1 →
      IoSafe (rules M) who p (fun r s2 => Gated M who cx s2 ∧ NoOpened who s2 ∧
        ∀ s3, Passed M who s2 s3 → Using M who cx s3 →
          (M.solo → (s3.1.inst who.inst).gate = none) → Q r s3) s1) :
    IoSafe (rules M) who (withGate p) Q s := by
  refine .bind (.act (useStep h (fun s1 ho hs c => ?_) fun s1 ho h1 c r t _ hx _ => ?_))
  · rw [ho.1 hs]
    simp [exec, hfree hs]
  · dsimp only [exec] at hx
    split at hx
    · cases hx
    rename_i hgate
    cases hx
    have he : Effect M who s1 (s1.1.setInst who.inst { s1.1.inst who.inst with
        gate := some who.thread }, s1.2) := .lock hgate
    have hlive := (h1.inv.live _ h1.ready).free hgate
    have h2 : Gated M who cx (s1.1.setInst who.inst { s1.1.inst who.inst with
        gate := some who.thread }, s1.2) := by
      refine { toUsing := h1.own he (by simp) rfl rfl, held := ?_, win := hlive.1 }
      show ((World.setInst _ _ _).inst _).gate = _
      rw [World.setInst_inst_self]
    refine ⟨s1.2, he, fun s2 ho2 _ => ?_⟩
    have hpass : Passed M who s s2 :=
      ((ho.follows h.inv h.ready).passed.trans
        (Passed.gate (g := some who.thread) he h1.inv h1.ready (by simp)
        ⟨[], rfl, by simp⟩ rfl rfl rfl)).trans (ho2.follows h2.inv h2.ready).passed
    have hno : NoOpened who s2 := fun id pw hop =>
      h1.inv.queue.gate (((h2.kept ho2.calm).opened id pw).mp hop) hgate
    refine .attemptBind ((hp s2 hpass (h2.others ho2) hno).mono ?_)
    rintro r s3 - ⟨h3, hno3, hQ⟩
    refine .bind (.act (ownStep h3 (fun _ _ _ => rfl)
      fun s4 hk h4 c r' t _ hx _ => ?_))
    cases hx
    have hno4 : NoOpened who s4 := fun id pw hop => hno3 id pw ((hk.opened id pw).mp hop)
    have he4 : Effect M who s4 ((s4.1.setInst who.inst { s4.1.inst who.inst with
        gate := none }).log who .unlocked, { s4.2 with
          flight := Function.update s4.2.flight who.inst none }) :=
      .unlock h4.held h4.win hno4
    have h5 : Using M who cx ((s4.1.setInst who.inst { s4.1.inst who.inst with
        gate := none }).log who .unlocked, { s4.2 with
          flight := Function.update s4.2.flight who.inst none }) :=
      h4.toUsing.own he4 (by simp) rfl rfl
    refine ⟨_, he4, fun s5 ho5 _ => .ofRes fun s6 ho6 _ => ?_⟩
    have hf5 := ho5.follows h5.inv h5.ready
    have hu5 := h5.others ho5
    have hf6 := ho6.follows hu5.inv hu5.ready
    refine hQ s6 ?_ (hu5.others ho6) fun hs => ?_
    · exact ((hk.toFollows.passed.trans (Passed.gate (g := none) he4 h4.inv h4.ready (by simp)
        ⟨[_], rfl, by simp⟩ rfl rfl rfl)).trans hf5.passed).trans hf6.passed
    · rw [ho6.1 hs, ho5.1 hs]
      simp

end OxKv
