import OxKv.Proc.Write

/-!
Group commit: `put_bytes`, its leader loop and the batches it persists.

* `Acted`: what a thread did between two moments, whether it held the gate or not;
* `persistBatch_safe`: a batch is listed after the staged operations, or not at all;
* `sendAll_safe`: the leader answers every write of its batch;
* `commitLoop_safe`, `putBytes_safe`: a put returns the outcome of the batch that
  contains its own write.
-/

namespace OxKv

variable {M : Mode} {who : Who} {s s' s'' : State} {cx : Ctx}

/-! ## Steps of a thread -/

/-- The batches `es` were listed and, alone, the writes `us` applied. -/
structure Acted (M : Mode) (who : Who) (es : List (List Nat × List Op)) (us : List Op)
    (s s' : State) : Prop extends Since (fun e => ∀ m, e ≠ .mark m) who s s' where
  lin : ListedBatches who M.solo s.1.hist.length es s.2.lin s'.2.lin
  live : M.solo → ∀ b,
    liveFrom b who.inst s'.1.hist = applyOps (liveFrom b who.inst s.1.hist) us

theorem not_mark_of_not_client (e : What) (h : e.isClient = false) (m : Mark) : e ≠ .mark m := by
  rintro rfl
  cases h

variable {es : List (List Nat × List Op)} {us : List Op}

theorem Did.acted (h : Did M who es us s s') : Acted M who es us s s' where
  toSince := h.toSince.mono not_mark_of_not_client
  lin := h.lin
  live hs := h.live (.inl hs)

theorem Passed.acted (h : Passed M who s s') : Acted M who [] [] s s' where
  toSince := h.toSince.mono not_mark_of_not_client
  lin := h.lin.batches
  live hs b := h.live hs b

theorem Acted.trans {es' : List (List Nat × List Op)} {us' : List Op} (h : Acted M who es us s s')
    (h' : Acted M who es' us' s' s'') : Acted M who (es ++ es') (us ++ us') s s'' where
  toSince := h.toSince.trans h'.toSince
  lin := h.lin.trans h'.lin h.length_le
  live hs b := by rw [h'.live hs b, h.live hs b, applyOps_append]

/-- An own step on the queue. -/
theorem Acted.own (he : Effect M who s s') (hr : s.2.ready who.inst) {e : What}
    (hhist : s'.1.hist = (who, e) :: s.1.hist ∨ s'.1.hist = s.1.hist)
    (hmark : ∀ m, e ≠ .mark m) (hwrote : ∀ ops, e ≠ .wrote ops) (hlin : s'.2.lin = s.2.lin) :
    Acted M who [] [] s s' where
  toSince := by
    rcases hhist with hh | hh
    · exact he.since hr ⟨[(who, e)], hh, by simpa using hmark⟩
    · exact he.since hr ⟨[], hh, by simp⟩
  lin := ⟨[], by simp [hlin], rfl, by simp, by simp⟩
  live _ b := by
    rcases hhist with hh | hh
    · rw [hh, liveFrom_log hwrote]
      rfl
    · rw [hh]
      rfl

theorem Acted.of_others (h : Using M who cx s) (ho : Others M who s s') :
    Acted M who [] [] s s' :=
  (ho.follows h.inv h.ready).passed.acted

/-! ## Persisting a batch -/

/-- The writes of a batch that its leader took from the queue. -/
structure Leads (M : Mode) (who : Who) (batch : List PendingWrite) (s : State) : Prop where
  nodup : (batch.map PendingWrite.id).Nodup
  opened : ∀ pw ∈ batch, s.2.slot pw.id = .opened who.inst pw
  unlisted : ∀ pw ∈ batch, ¬ ∃ e ∈ s.2.lin, pw.id ∈ e.ids
  taken : (who, .drained (batch.map PendingWrite.id)) ∈ s.1.hist
  drained : ¬ M.staging → batchOf who s.1.hist = batch.map PendingWrite.id
  size : batch.length ≤ maxGroupWrites

variable {batch : List PendingWrite}

theorem Leads.did (h : Leads M who batch s) (hd : Did M who es us s s') (hes : ∀ x ∈ es, x.1 = []) :
    Leads M who batch s' where
  nodup := h.nodup
  opened pw hpw := (hd.opened _ _).mpr (h.opened pw hpw)
  unlisted pw hpw hl := by
    rcases hd.listedId _ _ (h.opened pw hpw) hl with hl | ⟨x, hx, hid⟩
    · exact h.unlisted pw hpw hl
    · rw [hes x hx] at hid
      cases hid
  taken := by
    obtain ⟨t, ht, -⟩ := hd.hist
    rw [ht]
    exact List.mem_append_right _ h.taken
  drained hst := by
    obtain ⟨t, ht, hall⟩ := hd.hist
    rw [ht, batchOf_append hall]
    exact h.drained hst
  size := h.size

theorem encodeOps_batch (h : ∀ pw ∈ batch, encodeRecord pw.key pw.value = .ok pw.encoded) :
    encodeOps (batchOps batch) = .ok (batch.flatMap PendingWrite.encoded) := by
  induction batch with
  | nil => rfl
  | cons pw batch ih =>
    have ih := ih fun pw hpw => h pw (by simp [hpw])
    unfold batchOps at ih ⊢
    simp only [List.map_cons, encodeOps, encodeOp, h pw (by simp), Except.mapError, ih,
      List.flatMap_cons]

theorem mem_drainedEntries {ops : List Op} {x : List Nat × List Op} (h : x ∈ drainedEntries ops) :
    x.1 = [] := by
  unfold drainedEntries at h
  split at h
  · cases h
  · rw [List.mem_singleton.mp h]

def Persisted (M : Mode) (who : Who) (cx : Ctx) (ids : List Nat) (updates : List Op)
    (s : State) (r : Res Unit) (s' : State) : Prop :=
  Gated M who cx s' ∧ ∃ ops, (¬ M.staging → ops = []) ∧
    (M.solo → ops ++ (s'.1.inst who.inst).walBuffer = (s.1.inst who.inst).walBuffer) ∧
    match r with
      | .ok _ => Did M who (drainedEntries ops ++ [(ids, updates)]) updates s s' ∧
          (M.solo → (s'.1.inst who.inst).walBuffer = [])
      | .error _ => Did M who (drainedEntries ops) [] s s' ∧ (M.faults ∨ M.multi ∨ ¬ M.short)

/-- Staged operations first, then the batch. -/
theorem drainAppend_safe (h : Gated M who cx s) (payload : Bytes) (ids : List Nat)
    (updates : List Op)
    (hap : ∀ s1 ops, Gated M who cx s1 → Did M who (drainedEntries ops) [] s s1 →
      Appendable M who payload ids updates updates s1) :
    IoSafe (rules M) who (do drainStagedLocked cx; appendWalLocked cx payload updates)
      (Persisted M who cx ids updates s) s := by
  refine .bind ((drainStagedLocked_safe h).mono ?_)
  rintro r s1 - ⟨h1, hr⟩
  match r, hr with
  | .error e, ⟨hd1, hb1, hwhy⟩ => exact ⟨h1, [], fun _ => rfl, hb1, hd1, hwhy⟩
  | .ok _, ⟨ops, hd1, hst, hb1⟩ =>
    refine (appendWalLocked_safe h1 (hap s1 ops h1 hd1)).mono ?_
    rintro r s2 - ⟨h2, hb2, hr⟩
    refine ⟨h2, ops, hst, fun hs => ?_, ?_⟩
    · rw [hb2 hs, (hb1 hs).2, List.append_nil]
      exact (hb1 hs).1
    · match r, hr with
      | .error e, ⟨hd2, hwhy⟩ =>
        have := hd1.trans hd2
        simp only [List.append_nil] at this
        exact ⟨this, hwhy.imp id Or.inl⟩
      | .ok _, hd2 => exact ⟨hd1.trans hd2, fun hs => (hb2 hs).trans (hb1 hs).2⟩

theorem persistBatch_safe (hne : batch ≠ []) (h : Gated M who cx s) (hb : Leads M who batch s) :
    IoSafe (rules M) who (persistBatch cx batch)
      (Persisted M who cx (batch.map PendingWrite.id) (batchOps batch) s) s := by
  have hempty : batch.isEmpty = false := by simpa using hne
  unfold persistBatch
  simp only [hempty, Bool.false_eq_true, if_false]
  refine drainAppend_safe h _ _ _ fun s1 ops h1 hd1 => ?_
  have hb1 := hb.did hd1 fun x hx => mem_drainedEntries hx
  have hpushed : ∀ pw ∈ batch, PushedOk M.toTrack s1.1.hist pw := fun pw hpw =>
    (h1.inv.queue.write (by rw [hb1.opened pw hpw]; rfl)).2
  exact {
    encoded := encodeOps_batch fun pw hpw => (hpushed pw hpw).encoded
    ok := fun op hop => by
      obtain ⟨pw, hpw, rfl⟩ := List.mem_map.mp hop
      exact (hpushed pw hpw).op
    upd := .inl rfl
    same := fun hst => ⟨rfl, (hb1.drained hst).symm⟩
    drained := fun _ => hb1.taken
    batch := fun _ => .inr ⟨batch, rfl, rfl, hb1.nodup, hb1.opened, fun e he id hid hide => by
      obtain ⟨pw, hpw, rfl⟩ := List.mem_map.mp hid
      exact hb1.unlisted pw hpw ⟨e, he, hide⟩⟩
    size := by rw [List.length_map]; exact hb1.size }

/-! ## Answers -/

/-- The leader answered the writes of its batch. -/
structure Sent (M : Mode) (who : Who) (batch : List PendingWrite) (r : Res Unit)
    (s s' : State) : Prop where
  acted : Acted M who [] [] s s'
  answered : ∀ pw ∈ batch, s'.2.slot pw.id = .settled pw r
  settled : ∀ id pw r, s.2.slot id = .settled pw r → s'.2.slot id = .settled pw r
  opened : ∀ id pw, s'.2.slot id = .opened who.inst pw →
    s.2.slot id = .opened who.inst pw ∧ ∀ x ∈ batch, x.id ≠ id
  queue : (s.1.inst who.inst).pending <+: (s'.1.inst who.inst).pending
  alone : M.solo → (s'.1.inst who.inst).walBuffer = (s.1.inst who.inst).walBuffer ∧
    (s'.1.inst who.inst).pending = (s.1.inst who.inst).pending

theorem Kept.sent (h : Kept M who s s') (r : Res Unit) : Sent M who [] r s s' where
  acted := h.tended.did.acted
  answered := by simp
  settled := h.settled
  opened id pw ho := ⟨(h.opened id pw).mp ho, by simp⟩
  queue := h.queue
  alone hs := ⟨(h.tended.alone hs).1, (h.tended.alone hs).2.1⟩

variable {pw : PendingWrite} {r : Res Unit}

/-- Answer one write. -/
theorem send_safe (h : Gated M who cx s) (hopen : s.2.slot pw.id = .opened who.inst pw)
    (hr : r = .ok () ↔ ∃ e ∈ s.2.lin, pw.id ∈ e.ids) :
    IoSafe (rules M) who (Io.act (.send pw.id r))
      (fun r' s' => r' = .ok () ∧ Gated M who cx s' ∧ Sent M who [pw] r s s' ∧
        (∀ id, id ≠ pw.id → ∀ pw', s.2.slot id = .opened who.inst pw' →
          s'.2.slot id = .opened who.inst pw' ∧
            ((∃ e ∈ s'.2.lin, id ∈ e.ids) ↔ ∃ e ∈ s.2.lin, id ∈ e.ids))) s := by
  refine .act (ownStep h (fun _ _ _ => rfl) fun s1 hk h₁ c r' t _ hx _ => ?_)
  cases hx
  have hlisted : ∀ {a b : State}, Kept M who a b → ∀ id pw',
      a.2.slot id = .opened who.inst pw' →
      ((∃ e ∈ b.2.lin, id ∈ e.ids) ↔ ∃ e ∈ a.2.lin, id ∈ e.ids) := by
    intro a b hk id pw' ho
    refine ⟨hk.listedId id pw' ho, ?_⟩
    rintro ⟨e, he, hid⟩
    obtain ⟨t, ht, -⟩ := hk.lin
    exact ⟨e, by rw [ht]; exact List.mem_append_left _ he, hid⟩
  have he : Effect M who s1 ({ s1.1 with answers := Function.update s1.1.answers pw.id (some r) }.log
      who (.sent pw.id r), { s1.2 with slot := Function.update s1.2.slot pw.id (.settled pw r) }) :=
    .send pw r h₁.held ((hk.opened _ _).mpr hopen) (hr.trans (hlisted hk _ _ hopen).symm)
  have h₂ : Gated M who cx ({ s1.1 with
      answers := Function.update s1.1.answers pw.id (some r) }.log who (.sent pw.id r),
      { s1.2 with slot := Function.update s1.2.slot pw.id (.settled pw r) }) :=
    { toUsing := h₁.toUsing.own he rfl rfl rfl, held := h₁.held, win := h₁.win }
  refine ⟨_, he, fun s2 ho _ => ⟨rfl, h₂.others ho, ?_, fun id hid pw' hop => ?_⟩⟩
  · have hk2 := h₂.kept ho.calm
    have hown : Acted M who [] [] s1 _ := .own he h₁.ready (.inl rfl) (by simp) (by simp) rfl
    have hs2 : s2.2.slot pw.id = .settled pw r :=
      hk2.settled _ _ _ (by simp)
    constructor
    · exact (hk.tended.did.acted.trans hown).trans hk2.tended.did.acted
    · simpa using hs2
    · intro id pw' r' hset
      refine hk2.settled _ _ _ ?_
      have hset1 := hk.settled _ _ _ hset
      by_cases hid : id = pw.id
      · rw [hid, hopen] at hset
        cases hset
      · simpa [Function.update_of_ne hid] using hset1
    · intro id pw' hop
      have hop1 := (hk2.opened _ _).mp hop
      by_cases hid : id = pw.id
      · rw [hid, hs2] at hop
        cases hop
      · simp only [Function.update_of_ne hid] at hop1
        exact ⟨(hk.opened _ _).mp hop1, by simpa using Ne.symm hid⟩
    · exact hk.queue.trans hk2.queue
    · intro hs
      have h1 := hk.tended.alone hs
      have h2 := hk2.tended.alone hs
      exact ⟨h2.1.trans h1.1, h2.2.1.trans h1.2.1⟩
  · have hk2 := h₂.kept ho.calm
    have hop1 := (hk.opened _ _).mpr hop
    have hop2 : Function.update s1.2.slot pw.id (.settled pw r) id = .opened who.inst pw' := by
      rw [Function.update_of_ne hid]
      exact hop1
    exact ⟨(hk2.opened _ _).mpr hop2,
      (hlisted hk2 _ _ hop2).trans (hlisted hk _ _ hop)⟩

theorem sendAll_safe (h : Gated M who cx s) (hnodup : (batch.map PendingWrite.id).Nodup)
    (hopen : ∀ pw ∈ batch, s.2.slot pw.id = .opened who.inst pw)
    (hr : ∀ pw ∈ batch, (r = .ok () ↔ ∃ e ∈ s.2.lin, pw.id ∈ e.ids)) :
    IoSafe (rules M) who (sendAll r batch)
      (fun r' s' => r' = .ok () ∧ Gated M who cx s' ∧ Sent M who batch r s s') s := by
  induction batch generalizing s with
  | nil =>
    exact .pure fun s' ho _ => ⟨rfl, h.others ho, (h.kept ho.calm).sent r⟩
  | cons pw batch ih =>
    obtain ⟨hnot, hnodup⟩ := List.nodup_cons.mp hnodup
    have hne : ∀ x ∈ batch, x.id ≠ pw.id := fun x hx heq =>
      hnot (heq ▸ List.mem_map_of_mem hx)
    refine .bind ((send_safe h (hopen pw (by simp)) (hr pw (by simp))).mono ?_)
    rintro r' s1 - ⟨rfl, h1, hsent, hrest⟩
    refine (ih h1 hnodup (fun x hx => ?_) fun x hx => ?_).mono ?_
    · exact (hrest _ (hne x hx) x (hopen x (by simp [hx]))).1
    · exact (hr x (by simp [hx])).trans (hrest _ (hne x hx) x (hopen x (by simp [hx]))).2.symm
    · rintro r' s2 - ⟨rfl, h2, hsent2⟩
      refine ⟨rfl, h2, hsent.acted.trans hsent2.acted, fun x hx => ?_, fun id pw' r' hset => ?_,
        fun id pw' hop => ?_, hsent.queue.trans hsent2.queue, fun hs => ?_⟩
      · rcases List.mem_cons.mp hx with rfl | hx
        · exact hsent2.settled _ _ _ (hsent.answered x (by simp))
        · exact hsent2.answered x hx
      · exact hsent2.settled _ _ _ (hsent.settled _ _ _ hset)
      · obtain ⟨hop1, hne1⟩ := hsent2.opened id pw' hop
        obtain ⟨hop0, hne0⟩ := hsent.opened id pw' hop1
        refine ⟨hop0, fun x hx => ?_⟩
        rcases List.mem_cons.mp hx with rfl | hx
        · exact hne0 x (by simp)
        · exact hne1 x hx
      · exact ⟨(hsent2.alone hs).1.trans (hsent.alone hs).1,
          (hsent2.alone hs).2.trans (hsent.alone hs).2⟩

/-! ## The leader -/

/-- A queued write was not listed. -/
theorem Inv.queued_unlisted {T : Track} {w : World} {g : Ghost} (h : Inv T w g) {i : Nat}
    (hq : g.slot pw.id = .queued i pw) : ¬ ∃ e ∈ g.lin, pw.id ∈ e.ids := by
  rintro ⟨e, he, hid⟩
  obtain ⟨batch, hids, -, hall⟩ := h.lin.batch e he (List.ne_nil_of_mem hid)
  rw [hids] at hid
  obtain ⟨x, hx, hxid⟩ := List.mem_map.mp hid
  rcases hall x hx with ⟨j, hj⟩ | ⟨r, hr⟩
  · rw [hxid, hq] at hj
    cases hj
  · rw [hxid, hq] at hr
    cases hr

/-- What the leader knows of its handle after it took a batch. -/
structure Taken (M : Mode) (who : Who) (batch rest : List PendingWrite) (s : State) :
    Prop where
  leads : Leads M who batch s
  opened : ∀ id pw, s.2.slot id = .opened who.inst pw → pw ∈ batch ∧ pw.id = id
  queue : rest <+: (s.1.inst who.inst).pending

theorem Taken.kept {rest : List PendingWrite} (h : Taken M who batch rest s) (hk : Kept M who s s') :
    Taken M who batch rest s' where
  leads := h.leads.did hk.tended.did (by simp)
  opened id pw ho := h.opened id pw ((hk.opened id pw).mp ho)
  queue := h.queue.trans hk.queue

/-- The holder of the gate takes the front of the queue. -/
theorem Gated.drain (h : Gated M who cx s) (hno : NoOpened who s)
    (hs' : s' = ((s.1.setInst who.inst { s.1.inst who.inst with
        pending := (s.1.inst who.inst).pending.drop maxGroupWrites }).log who
          (.drained (((s.1.inst who.inst).pending.take maxGroupWrites).map PendingWrite.id)),
      { s.2 with
        slot := drainSlots s.2.slot who.inst
          ((s.1.inst who.inst).pending.take maxGroupWrites) })) :
    Effect M who s s' ∧ Gated M who cx s' ∧ Acted M who [] [] s s' ∧
      Taken M who ((s.1.inst who.inst).pending.take maxGroupWrites)
        ((s.1.inst who.inst).pending.drop maxGroupWrites) s' := by
  have he : Effect M who s s' := by
    rw [hs']
    exact .drain maxGroupWrites h.held
  have hcases := drainSlots_cases h.inv.queue (i := who.inst)
    ((s.1.inst who.inst).pending.take maxGroupWrites) fun pw hpw => List.mem_of_mem_take hpw
  have hqueued : ∀ pw ∈ (s.1.inst who.inst).pending.take maxGroupWrites,
      s.2.slot pw.id = .queued who.inst pw := fun pw hpw =>
    (h.inv.queue.queued _ _).mp (List.mem_of_mem_take hpw)
  subst hs'
  refine ⟨he, ?_, .own he h.ready (.inl rfl) (by simp) (by simp) rfl, ?_, ?_, ?_⟩
  · refine { toUsing := h.toUsing.own he (by simp) rfl rfl, held := ?_, win := h.win }
    show ((World.setInst _ _ _).inst _).gate = _
    rw [World.setInst_inst_self]
    exact h.held
  · constructor
    · exact (h.inv.queue.nodup who.inst).sublist ((List.take_sublist _ _).map _)
    · intro pw hpw
      rcases hcases pw.id with ⟨x, -, -, hx, hx'⟩ | ⟨hne, -⟩
      · rw [hqueued pw hpw] at hx
        cases hx
        exact hx'
      · exact absurd rfl (hne pw hpw)
    · exact fun pw hpw => h.inv.queued_unlisted (hqueued pw hpw)
    · exact List.mem_cons_self ..
    · intro _
      simp [batchOf, What.isClient]
    · exact List.length_take_le ..
  · intro id pw hop
    rcases hcases id with ⟨x, hx, hid, -, hx'⟩ | ⟨-, hsame⟩
    · rw [show drainSlots _ _ _ id = _ from hop] at hx'
      cases hx'
      exact ⟨hx, hid⟩
    · rw [show drainSlots _ _ _ id = _ from hop] at hsame
      exact absurd hsame.symm (hno id pw)
  · simp

theorem drainPending_safe (h : Gated M who cx s) (hno : NoOpened who s) :
    IoSafe (rules M) who (Io.act (.drainPending maxGroupWrites))
      (fun r s' => ∃ queue, (s.1.inst who.inst).pending <+: queue ∧
        r = .ok (queue.take maxGroupWrites) ∧ Gated M who cx s' ∧ Acted M who [] [] s s' ∧
        Taken M who (queue.take maxGroupWrites) (queue.drop maxGroupWrites) s' ∧
        (M.solo → queue = (s.1.inst who.inst).pending ∧
          (s'.1.inst who.inst).pending = queue.drop maxGroupWrites ∧
          (s'.1.inst who.inst).walBuffer = (s.1.inst who.inst).walBuffer)) s := by
  refine .act (ownStep h (fun _ _ _ => rfl) fun s1 hk h₁ c r t _ hx _ => ?_)
  dsimp only [exec] at hx
  obtain ⟨rfl, rfl⟩ := hx
  have hno1 : NoOpened who s1 := fun id pw hop => hno id pw ((hk.opened id pw).mp hop)
  obtain ⟨he, h₂, hact, htaken⟩ := h₁.drain hno1 rfl
  refine ⟨_, he, fun s2 ho _ => ?_⟩
  have hk2 := h₂.kept ho.calm
  refine ⟨(s1.1.inst who.inst).pending, hk.queue, rfl, h₂.others ho,
    (hk.tended.did.acted.trans hact).trans hk2.tended.did.acted, htaken.kept hk2, fun hs => ?_⟩
  have h1 := hk.tended.alone hs
  have h2 := hk2.tended.alone hs
  refine ⟨h1.2.1, ?_, ?_⟩
  · rw [h2.2.1]
    simp
  · rw [h2.1, ← h1.1]
    simp

/-- The outcome of a write of one batch as its caller sees it. -/
def Wrote (M : Mode) (who : Who) (ids : List Nat) (updates : List Op) (s : State)
    {α : Type} (r : Res α) (s' : State) : Prop :=
  ∃ ops, (¬ M.staging → ops = []) ∧
    (M.solo → ops ++ (s'.1.inst who.inst).walBuffer = (s.1.inst who.inst).walBuffer) ∧
    match r with
      | .ok _ => Acted M who (drainedEntries ops ++ [(ids, updates)]) updates s s' ∧
          (M.solo → (s'.1.inst who.inst).walBuffer = [])
      | .error _ => Acted M who (drainedEntries ops) [] s s' ∧ (M.faults ∨ M.multi ∨ ¬ M.short)

theorem Persisted.wrote {ids : List Nat} {updates : List Op}
    (h : Persisted M who cx ids updates s r s') : Wrote M who ids updates s r s' := by
  obtain ⟨-, ops, hst, hb, hr⟩ := h
  refine ⟨ops, hst, hb, ?_⟩
  match r, hr with
  | .ok _, ⟨hd, hb'⟩ => exact ⟨hd.acted, hb'⟩
  | .error _, ⟨hd, hwhy⟩ => exact ⟨hd.acted, hwhy⟩

/-- A write between other steps of the thread. -/
theorem Wrote.within {ids : List Nat} {updates : List Op} {α : Type} {r : Res α}
    {s1 s2 : State} (h : Wrote M who ids updates s1 r s2) (hs : Acted M who [] [] s s1)
    (hs' : Acted M who [] [] s2 s')
    (hb : M.solo → (s1.1.inst who.inst).walBuffer = (s.1.inst who.inst).walBuffer)
    (hb' : M.solo → (s'.1.inst who.inst).walBuffer = (s2.1.inst who.inst).walBuffer) :
    Wrote M who ids updates s r s' := by
  obtain ⟨ops, hst, hbuf, hr⟩ := h
  refine ⟨ops, hst, fun hso => by rw [hb' hso, ← hb hso]; exact hbuf hso, ?_⟩
  match r, hr with
  | .ok _, ⟨hact, hnil⟩ =>
    refine ⟨?_, fun hso => (hb' hso).trans (hnil hso)⟩
    simpa using (hs.trans hact).trans hs'
  | .error _, ⟨hact, hwhy⟩ =>
    refine ⟨?_, hwhy⟩
    simpa using (hs.trans hact).trans hs'

/-- Whether the batch was listed decides the answer. -/
theorem Persisted.listed (hb : Leads M who batch s)
    (h : Persisted M who cx (batch.map PendingWrite.id) (batchOps batch) s r s') :
    ∀ pw ∈ batch, (r = .ok () ↔ ∃ e ∈ s'.2.lin, pw.id ∈ e.ids) := by
  intro pw hpw
  obtain ⟨-, ops, -, -, hr⟩ := h
  match r, hr with
  | .ok _, ⟨hd, _⟩ =>
    refine iff_of_true rfl ?_
    obtain ⟨t, ht, hes, -⟩ := hd.lin
    have hmem : (batch.map PendingWrite.id, batchOps batch) ∈
        (t.filter fun e => e.who = who).map (fun e => (e.ids, e.ops)) := by
      rw [hes]
      simp
    obtain ⟨e, he, heq⟩ := List.mem_map.mp hmem
    refine ⟨e, by rw [ht]; exact List.mem_append_right _ (List.mem_of_mem_filter he), ?_⟩
    rw [show e.ids = batch.map PendingWrite.id from congrArg Prod.fst heq]
    exact List.mem_map_of_mem hpw
  | .error e, ⟨hd, _⟩ =>
    refine iff_of_false (by simp) fun hl => ?_
    rcases hd.listedId _ _ (hb.opened pw hpw) hl with hl | ⟨x, hx, hid⟩
    · exact hb.unlisted pw hpw hl
    · rw [mem_drainedEntries hx] at hid
      cases hid

/-! ## The leader loop -/

/-- The write is answered, or among the next in the queue. -/
def Awaits (who : Who) (pw : PendingWrite) (fuel : Nat) (s : State) : Prop :=
  (0 < fuel ∧ ∃ r, s.2.slot pw.id = .settled pw r) ∨
    ∃ j < fuel, (s.1.inst who.inst).pending[j]? = some pw

/-- The write was answered with `r`. -/
structure Served (M : Mode) (who : Who) (pw : PendingWrite) (s : State) (r : Res Unit)
    (s' : State) : Prop where
  settled : s'.2.slot pw.id = .settled pw r
  acted : ∃ es us, Acted M who es us s s'
  alone : M.solo → (s.1.inst who.inst).pending = [pw] →
    Wrote M who [pw.id] [(pw.key, some pw.value)] s r s' ∧ (s'.1.inst who.inst).pending = []

theorem getElem?_of_prefix {α : Type} {l l' : List α} (h : l <+: l') {j : Nat} {a : α}
    (hj : l[j]? = some a) : l'[j]? = some a := by
  obtain ⟨t, rfl⟩ := h
  rw [List.getElem?_append_left (List.getElem?_eq_some_iff.mp hj).1]
  exact hj

/-- Look for an answer. -/
theorem tryRecv_safe {fuel : Nat} (h : Gated M who cx s) (hw : Awaits who pw fuel s) :
    IoSafe (rules M) who (Io.act (.tryRecv pw.id)) (fun r s' => Kept M who s s' ∧
      Gated M who cx s' ∧ ∃ o, r = .ok o ∧ match o with
        | some a => s'.2.slot pw.id = .settled pw a
        | none => ∃ j < fuel, (s'.1.inst who.inst).pending[j]? = some pw) s := by
  refine .act (ownStep h (fun _ _ _ => rfl) fun s1 hk h1 c r t _ hx _ => ?_)
  dsimp only [exec] at hx
  obtain ⟨rfl, rfl⟩ := hx
  refine ⟨s1.2, .idle, fun s2 ho _ => ?_⟩
  have hk2 := h1.kept ho.calm
  refine ⟨hk.trans hk2, h1.others ho, _, rfl, ?_⟩
  have hsettled : ∀ {r}, s.2.slot pw.id = .settled pw r → s1.1.answers pw.id = some r :=
    fun hs => (h1.inv.queue.answers _ _).mpr ⟨pw, hk.settled _ _ _ hs⟩
  cases ha : s1.1.answers pw.id with
  | some a =>
    obtain ⟨pw', hs⟩ := (h1.inv.queue.answers _ _).mp ha
    -- the answered write is this one
    have hsame : pw' = pw := by
      rcases hw with ⟨-, r, hr⟩ | ⟨j, -, hj⟩
      · have hr1 := hk.settled _ _ _ hr
        rw [hs] at hr1
        cases hr1
        rfl
      · have hq := (h.inv.queue.queued _ _).mp (List.mem_of_getElem? hj)
        have hw1 := hk.write pw.id pw (by rw [hq]; rfl)
        rw [hs] at hw1
        cases hw1
        rfl
    subst hsame
    exact hk2.settled _ _ _ hs
  | none =>
    rcases hw with ⟨-, r, hr⟩ | ⟨j, hj, hget⟩
    · rw [hsettled hr] at ha
      cases ha
    · exact ⟨j, hj, getElem?_of_prefix (hk.trans hk2).queue hget⟩

/-- A round of the leader: it took the front of the queue, persisted and answered it. -/
structure LeadRound (M : Mode) (who : Who) (cx : Ctx) (queue : List PendingWrite)
    (s : State) (r : Res Unit) (s' : State) : Prop where
  gated : Gated M who cx s'
  noOpened : NoOpened who s'
  grown : (s.1.inst who.inst).pending <+: queue
  answered : ∀ pw ∈ queue.take maxGroupWrites, s'.2.slot pw.id = .settled pw r
  distinct : ∀ x ∈ queue.take maxGroupWrites, ∀ pw ∈ queue.drop maxGroupWrites, x.id ≠ pw.id
  rest : queue.drop maxGroupWrites <+: (s'.1.inst who.inst).pending
  acted : ∃ es us, Acted M who es us s s'
  alone : M.solo → queue = (s.1.inst who.inst).pending ∧
    Wrote M who ((queue.take maxGroupWrites).map PendingWrite.id)
      (batchOps (queue.take maxGroupWrites)) s r s' ∧
    (s'.1.inst who.inst).pending = queue.drop maxGroupWrites

theorem leadRound_safe {id : Nat} {k : List PendingWrite → Res Unit → Io Unit}
    {Q : Res Unit → State → Prop} (h : Gated M who cx s) (hno : NoOpened who s)
    (hpend : (s.1.inst who.inst).pending ≠ [])
    (hnext : ∀ queue r s', LeadRound M who cx queue s r s' →
      IoSafe (rules M) who (k (queue.take maxGroupWrites) r) Q s') :
    IoSafe (rules M) who (do
      let batch ← Io.act (.drainPending maxGroupWrites)
      if batch.isEmpty then Io.call (.recv id)
      else
        let result ← Io.attempt (persistBatch cx batch)
        sendAll result batch
        k batch result) Q s := by
  refine .bind ((drainPending_safe h hno).mono ?_)
  rintro r s2 - ⟨queue, hpre, rfl, h2, hact2, htaken, hsolo⟩
  have hne : queue.take maxGroupWrites ≠ [] := by
    intro hnil
    rcases List.take_eq_nil_iff.mp hnil with hmax | rfl
    · cases hmax
    · exact hpend (List.prefix_nil.mp hpre)
  show IoSafe _ _ (if (queue.take maxGroupWrites).isEmpty then _ else _) _ _
  rw [if_neg (by simpa using hne)]
  refine .attemptBind ((persistBatch_safe hne h2 htaken.leads).mono ?_)
  rintro r s3 - hpers
  have hwrote := hpers.wrote
  obtain ⟨es, us, hd⟩ : ∃ es us, Did M who es us s2 s3 := by
    obtain ⟨-, ops, -, -, hr⟩ := hpers
    match r, hr with
    | .ok _, ⟨hd, _⟩ => exact ⟨_, _, hd⟩
    | .error _, ⟨hd, _⟩ => exact ⟨_, _, hd⟩
  refine .bind ((sendAll_safe hpers.1 htaken.leads.nodup
    (fun x hx => (hd.opened _ _).mpr (htaken.leads.opened x hx))
    (hpers.listed htaken.leads)).mono ?_)
  rintro r' s4 - ⟨rfl, h4, hsent⟩
  refine hnext queue r s4 ⟨h4, fun id x hop => ?_, hpre, hsent.answered, fun x hx pw hpw heq => ?_,
    (htaken.queue.trans hd.queue).trans hsent.queue,
    ⟨_, _, (hact2.trans hd.acted).trans hsent.acted⟩,
    fun hs => ?_⟩
  · obtain ⟨hop3, hout⟩ := hsent.opened id x hop
    obtain ⟨hx, hid⟩ := htaken.opened id x ((hd.opened _ _).mp hop3)
    exact hout x hx hid
  · have hop := htaken.leads.opened x hx
    rw [heq, (h2.inv.queue.queued who.inst pw).mp (htaken.queue.subset hpw)] at hop
    cases hop
  · obtain ⟨hq, hrest, hbuf⟩ := hsolo hs
    refine ⟨hq, hwrote.within hact2 hsent.acted (fun _ => hbuf) fun _ => (hsent.alone hs).1, ?_⟩
    rw [(hsent.alone hs).2, (hd.alone hs).1, hrest]

/-- The own write is in the batch of the round. -/
theorem LeadRound.served {queue : List PendingWrite} {j : Nat} {s0 s1 s2 : State}
    (h : LeadRound M who cx queue s1 r s2) (hk1 : Kept M who s0 s1) (hin : j < maxGroupWrites)
    (hget : queue[j]? = some pw) :
    (queue.take maxGroupWrites).any (fun x => x.id = pw.id) = true ∧
      IoSafe (rules M) who (Io.ofRes r) (fun r s' => Gated M who cx s' ∧ NoOpened who s' ∧
        Served M who pw s0 r s') s2 := by
  have hmem : pw ∈ queue.take maxGroupWrites := by
    refine List.mem_of_getElem? (i := j) ?_
    rw [List.getElem?_take_of_lt hin]
    exact hget
  refine ⟨List.any_eq_true.mpr ⟨pw, hmem, by simp⟩, .ofRes fun s3 ho _ => ?_⟩
  have hk3 := h.gated.kept ho.calm
  obtain ⟨es, us, hact⟩ := h.acted
  refine ⟨h.gated.others ho, fun id x hop => h.noOpened id x ((hk3.opened id x).mp hop),
    hk3.settled _ _ _ (h.answered pw hmem),
    ⟨_, _, (hk1.tended.did.acted.trans hact).trans hk3.tended.did.acted⟩, fun hs hpend => ?_⟩
  obtain ⟨hq, hwrote, hrest⟩ := h.alone hs
  have hqueue : queue = [pw] := by rw [hq, (hk1.tended.alone hs).2.1, hpend]
  subst hqueue
  refine ⟨hwrote.within hk1.tended.did.acted hk3.tended.did.acted
    (fun _ => (hk1.tended.alone hs).1) fun _ => (hk3.tended.alone hs).1, ?_⟩
  rw [(hk3.tended.alone hs).2.1, hrest]
  rfl

/-- The own write is behind the batch of the round, closer to the front than before. -/
theorem LeadRound.awaits {queue : List PendingWrite} {j fuel : Nat} {s1 s2 : State}
    (h : LeadRound M who cx queue s1 r s2) (hin : ¬ j < maxGroupWrites) (hj : j < fuel + 1)
    (hget : queue[j]? = some pw) :
    (queue.take maxGroupWrites).any (fun x => x.id = pw.id) = false ∧ Awaits who pw fuel s2 := by
  have hrest : (queue.drop maxGroupWrites)[j - maxGroupWrites]? = some pw := by
    rw [List.getElem?_drop, Nat.add_sub_cancel' (Nat.le_of_not_lt hin)]
    exact hget
  have hlt : j - maxGroupWrites < fuel := by
    unfold maxGroupWrites at hin ⊢
    omega
  refine ⟨List.any_eq_false.mpr fun x hx hid => ?_,
    .inr ⟨_, hlt, getElem?_of_prefix h.rest hrest⟩⟩
  exact h.distinct x hx pw (List.mem_of_getElem? hrest) (of_decide_eq_true hid)

theorem commitLoop_safe (pw : PendingWrite) (fuel : Nat) (h : Gated M who cx s)
    (hno : NoOpened who s) (hw : Awaits who pw fuel s) :
    IoSafe (rules M) who (commitLoop cx pw.id fuel) (fun r s' => Gated M who cx s' ∧
      NoOpened who s' ∧ Served M who pw s r s') s := by
  induction fuel generalizing s with
  | zero =>
    rcases hw with ⟨hlt, -⟩ | ⟨j, hlt, -⟩
    · exact absurd hlt (lt_irrefl 0)
    · exact absurd hlt (Nat.not_lt_zero j)
  | succ fuel ih =>
    refine .bind ((tryRecv_safe h hw).mono ?_)
    rintro r s1 - ⟨hk1, h1, o, rfl, ho1⟩
    have hno1 : NoOpened who s1 := fun id x hop => hno id x ((hk1.opened id x).mp hop)
    match o, ho1 with
    | some a, hset =>
      refine .ofRes fun s2 ho _ => ?_
      have hk2 := h1.kept ho.calm
      refine ⟨h1.others ho, fun id x hop => hno1 id x ((hk2.opened id x).mp hop),
        hk2.settled _ _ _ hset, ⟨_, _, (hk1.trans hk2).tended.did.acted⟩, fun hs hpend => ?_⟩
      -- alone, a queued write has no answer
      have hq := (h.inv.queue.queued who.inst pw).mp (by simp [hpend])
      rw [(hk1.tended.alone hs).2.2, hq] at hset
      cases hset
    | none, ⟨j, hj, hget⟩ =>
      refine leadRound_safe (k := fun batch result =>
        if batch.any (fun w => w.id = pw.id) then Io.ofRes result else commitLoop cx pw.id fuel)
        h1 hno1 (List.ne_nil_of_mem (List.mem_of_getElem? hget)) fun queue r s4 hround => ?_
      have hgetq := getElem?_of_prefix hround.grown hget
      by_cases hin : j < maxGroupWrites
      · obtain ⟨hany, hserved⟩ := hround.served hk1 hin hgetq
        simp only [hany, if_true]
        exact hserved
      · obtain ⟨hany, hawaits⟩ := hround.awaits hin hj hgetq
        simp only [hany, Bool.false_eq_true, if_false]
        refine (ih hround.gated hround.noOpened hawaits).mono ?_
        rintro r' s5 - ⟨h5, hno5, hserved⟩
        obtain ⟨es, us, hact4⟩ := hround.acted
        obtain ⟨es', us', hact5⟩ := hserved.acted
        refine ⟨h5, hno5, hserved.settled,
          ⟨_, _, (hk1.tended.did.acted.trans hact4).trans hact5⟩, fun hs hpend => ?_⟩
        -- alone, the queue holds just this write
        exfalso
        have hjlt := (List.getElem?_eq_some_iff.mp hgetq).1
        rw [(hround.alone hs).1, (hk1.tended.alone hs).2.1, hpend, List.length_singleton] at hjlt
        unfold maxGroupWrites at hin
        omega

/-! ## Puts -/

/-- A thread between two calls. -/
structure Outside (M : Mode) (who : Who) (cx : Ctx) (s : State) : Prop
    extends Using M who cx s where
  free : M.solo → (s.1.inst who.inst).gate = none
  empty : M.solo → (s.1.inst who.inst).pending = []

theorem Outside.others (h : Outside M who cx s) (ho : Others M who s s') : Outside M who cx s' where
  toUsing := h.toUsing.others ho
  free hs := by rw [ho.1 hs]; exact h.free hs
  empty hs := by rw [ho.1 hs]; exact h.empty hs

theorem nextPendingId_safe (h : Outside M who cx s) :
    IoSafe (rules M) who (Io.act .nextPendingId) (fun r s' => ∃ id, r = .ok id ∧
      Outside M who cx s' ∧ Acted M who [] [] s s' ∧ s'.2.slot id = .taken who ∧
      (M.solo → (s'.1.inst who.inst).walBuffer = (s.1.inst who.inst).walBuffer)) s := by
  refine .act (useStep h.toUsing (fun _ _ _ _ => rfl) fun s1 ho h1 c r t _ hx _ => ?_)
  dsimp only [exec] at hx
  obtain ⟨rfl, rfl⟩ := hx
  have he : Effect M who s1 ({ s1.1 with pendingCtr := s1.1.pendingCtr + 1 },
      { s1.2 with slot := Function.update s1.2.slot s1.1.pendingCtr (.taken who) }) := .take
  have h2 : Outside M who cx ({ s1.1 with pendingCtr := s1.1.pendingCtr + 1 },
      { s1.2 with slot := Function.update s1.2.slot s1.1.pendingCtr (.taken who) }) :=
    { toUsing := h1.own he rfl rfl rfl
      free := (h.others ho).free
      empty := (h.others ho).empty }
  have hact : Acted M who [] [] s1 _ :=
    .own (e := .polled) he h1.ready (.inr rfl) (by simp) (by simp) rfl
  refine ⟨_, he, fun s2 ho2 _ => ⟨_, rfl, h2.others ho2,
    ((Acted.of_others h.toUsing ho).trans hact).trans (.of_others h2.toUsing ho2), ?_, fun hs => ?_⟩⟩
  · exact (ho2.follows h2.inv h2.ready).taken _ (by simp)
  · rw [ho2.1 hs, ho.1 hs]

theorem pushPending_safe (pw : PendingWrite) (h : Outside M who cx s)
    (htaken : s.2.slot pw.id = .taken who) (henc : encodeRecord pw.key pw.value = .ok pw.encoded)
    (hop : M.OkOp (pw.key, some pw.value)) :
    IoSafe (rules M) who (Io.act (.pushPending pw)) (fun r s' => ∃ n, r = .ok (n + 1) ∧
      Using M who cx s' ∧ Acted M who [] [] s s' ∧ Waits who.inst pw (n + 1) s' ∧
      (∃ t h, s'.1.hist = t ++ (who, .pushed pw) :: h ∧ s.1.hist <:+ h) ∧
      (M.solo → (s'.1.inst who.inst).gate = none ∧ (s'.1.inst who.inst).pending = [pw] ∧
        (s'.1.inst who.inst).walBuffer = (s.1.inst who.inst).walBuffer)) s := by
  refine .act (useStep h.toUsing (fun _ _ _ _ => rfl) fun s1 ho h1 c r t _ hx _ => ?_)
  dsimp only [exec] at hx
  obtain ⟨rfl, rfl⟩ := hx
  have hf := ho.follows h.inv h.ready
  have he : Effect M who s1 ((s1.1.setInst who.inst { s1.1.inst who.inst with
      pending := (s1.1.inst who.inst).pending ++ [pw] }).log who (.pushed pw),
      { s1.2 with slot := Function.update s1.2.slot pw.id (.queued who.inst pw) }) :=
    .push pw (hf.taken _ htaken) henc hop
  have h2 := h1.own he (by simp) rfl rfl
  have hact : Acted M who [] [] s1 _ := .own he h1.ready (.inl rfl) (by simp) (by simp) rfl
  refine ⟨_, he, fun s2 ho2 _ => ⟨_, rfl, h2.others ho2,
    ((Acted.of_others h.toUsing ho).trans hact).trans (.of_others h2 ho2), ?_, ?_, fun hs => ?_⟩⟩
  · refine (ho2.follows h2.inv h2.ready).waits pw _ (.inl ⟨by simp, _, Nat.lt_succ_self _, ?_⟩)
    simp
  · obtain ⟨t, ht, -⟩ := (ho2.follows h2.inv h2.ready).hist
    obtain ⟨t', ht', -⟩ := hf.hist
    exact ⟨t, s1.1.hist, ht, t', ht'.symm⟩
  · have hempty := (h.others ho).empty hs
    have hfree := (h.others ho).free hs
    rw [ho2.1 hs]
    refine ⟨by simpa using hfree, by simp [hempty], ?_⟩
    rw [← ho.1 hs]
    simp

theorem Waits.awaits {n : Nat} (h : Waits who.inst pw (n + 1) s) (hno : NoOpened who s) :
    Awaits who pw (n + 1) s := by
  rcases h with ⟨-, hj⟩ | hop | hset
  · exact .inr hj
  · exact absurd hop (hno _ _)
  · exact .inl ⟨Nat.succ_pos n, hset⟩

structure Put (M : Mode) (who : Who) (cx : Ctx) (key : Key) (value : Bytes) (s : State)
    (r : Res Unit) (s' : State) : Prop where
  outside : Outside M who cx s'
  acted : ∃ es us, Acted M who es us s s'
  /-- the answer is the one of the own queued write -/
  answer : (∃ e d, encodeRecord key value = .error e ∧ r = .error d ∧ Acted M who [] [] s s') ∨
    ∃ pw t h, pw.key = key ∧ pw.value = value ∧ s'.1.hist = t ++ (who, .pushed pw) :: h ∧
      s.1.hist <:+ h ∧ s'.2.slot pw.id = .settled pw r
  alone : M.solo → ∃ ids, Wrote M who ids [(key, some value)] s r s'

theorem Track.OkOp.encodeRecord_ok {key : Key} {value : Bytes} (h : M.OkOp (key, some value))
    (hs : M.short) : ∃ b, encodeRecord key value = .ok b := by
  obtain ⟨b, hb⟩ := encodeOps_of_short hs [(key, some value)] (by simpa using h)
  cases he : encodeRecord key value with
  | ok b => exact ⟨b, rfl⟩
  | error e => simp [encodeOps, encodeOp, he, Except.mapError] at hb

theorem putBytes_safe (h : Outside M who cx s) {key : Key} {value : Bytes}
    (hop : M.OkOp (key, some value)) :
    IoSafe (rules M) who (putBytes cx key value) (Put M who cx key value s) s := by
  unfold putBytes
  cases henc : encodeRecord key value with
  | error e =>
    refine .bind (.ofRes fun s' ho _ => ?_)
    have hact := Acted.of_others h.toUsing ho
    refine ⟨h.others ho, ⟨_, _, hact⟩, Or.inl ⟨_, _, henc, rfl, hact⟩, fun hs => ⟨[], [], fun _ => rfl,
      fun _ => by rw [ho.1 hs]; rfl, hact, Or.inr (.inr fun hshort => ?_)⟩⟩
    obtain ⟨b, hb⟩ := hop.encodeRecord_ok hshort
    rw [henc] at hb
    cases hb
  | ok encoded =>
    refine .bind (.ofRes fun s0 ho0 _ => ?_)
    refine .bind ((nextPendingId_safe (h.others ho0)).mono ?_)
    rintro r s1 - ⟨id, rfl, h1, hact1, htaken, hbuf1⟩
    refine .bind ((pushPending_safe ⟨id, key, value, encoded⟩ h1 htaken henc hop).mono ?_)
    rintro r s2 - ⟨n, rfl, h2, hact2, hwaits, ⟨t, hd, hhist, hsuf⟩, hsolo⟩
    have hact := ((Acted.of_others h.toUsing ho0).trans hact1).trans hact2
    refine withGate_safe h2 (fun hs => (hsolo hs).1) fun s3 hpass h3 hno => ?_
    refine (commitLoop_safe ⟨id, key, value, encoded⟩ (n + 1) h3 hno
      ((hpass.waits _ _ hwaits).awaits hno)).mono ?_
    rintro r s4 - ⟨h4, hno4, hserved⟩
    refine ⟨h4, hno4, fun s5 hpass5 h5 hfree => ?_⟩
    obtain ⟨es, us, hact4⟩ := hserved.acted
    have hall := ((hact.trans hpass.acted).trans hact4).trans hpass5.acted
    have halone := fun hs => hserved.alone hs
      (((hpass.alone hs).2.1).trans (hsolo hs).2.1)
    refine ⟨⟨h5, hfree, fun hs => ?_⟩, ⟨_, _, hall⟩, Or.inr ?_, fun hs => ⟨[id], ?_⟩⟩
    · rw [(hpass5.alone hs).2.1]
      exact (halone hs).2
    · obtain ⟨t5, ht5, -⟩ := hpass5.hist
      obtain ⟨t4, ht4, -⟩ := hact4.hist
      obtain ⟨t3, ht3, -⟩ := hpass.hist
      obtain ⟨t1, ht1, -⟩ := ((Acted.of_others h.toUsing ho0).trans hact1).hist
      refine ⟨⟨id, key, value, encoded⟩, t5 ++ (t4 ++ (t3 ++ t)), hd, rfl, rfl, ?_, ?_,
        hpass5.settled _ _ _ hserved.settled⟩
      · rw [ht5, ht4, ht3, hhist]
        simp only [List.append_assoc]
      · exact .trans ⟨t1, ht1.symm⟩ hsuf
    · refine (halone hs).1.within (hact.trans hpass.acted) hpass5.acted (fun _ => ?_) fun _ =>
        (hpass5.alone hs).1
      rw [(hpass.alone hs).1, (hsolo hs).2.2, hbuf1 hs, ho0.1 hs]

end OxKv
