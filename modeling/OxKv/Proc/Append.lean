import OxKv.Proc.Compact

/-!
The durable append of a batch and the automatic maintenance after it.

* `Did`: what the holder of the gate did: the batches it listed and the writes it
  applied;
* `maintainAfterWrite_safe`: maintenance does nothing of that kind;
* `appendWalLocked_safe`: a successful append lists its batch and applies its
  updates, a failed one does nothing.
-/

namespace OxKv

variable {M : Mode} {who : Who} {s s' s'' : State} {cx : Ctx}

/-! ## Maintenance -/

theorem maintainWal_safe (h : Gated M who cx s) (walLen : Nat) :
    IoSafe (rules M) who (maintainWal cx walLen)
      (fun r s' => r = .ok () ∧ Maintained M who cx s s') s := by
  unfold maintainWal
  split
  · exact .pure fun s' ho _ => ⟨rfl, (h.kept ho.calm).tended.toWorked, h.others ho⟩
  refine .attemptBind ((flushMemToSstInner_safe h true).mono ?_)
  rintro r s1 - ⟨hm1, hfl⟩
  match r with
  | .error e => exact .pure fun s2 ho _ => ⟨rfl, hm1.others ho⟩
  | .ok x =>
    -- the MemTable is empty, so the listed files cover it
    have hcov : M.durable → ¬ M.multi → Covered M s1.1 who.inst := fun hd _ =>
      Covered.of_empty (hfl x rfl rfl (.inr (M.durable_staging hd)))
    refine .attemptBind ((gcWalInner_safe hm1.2 hcov).mono ?_)
    rintro r s2 - hm2
    refine .attemptBind ((gcOrphansInner_safe hm2.2).mono ?_)
    rintro r s3 - ⟨ht3, h3⟩
    exact .pure fun s4 ho _ =>
      ⟨rfl, (hm1.then (hm2.then ⟨ht3.toWorked, h3⟩)).others ho⟩

theorem maintainAfterWrite_safe (h : Gated M who cx s) (walLen : Nat) :
    IoSafe (rules M) who (maintainAfterWrite cx walLen)
      (fun r s' => r = .ok () ∧ Maintained M who cx s s') s := by
  refine .attemptBind ((flushMemToSstInner_safe h false).mono ?_)
  rintro r s1 - ⟨hm1, -⟩
  refine .attemptBind ((compactInner_safe hm1.2).mono ?_)
  rintro r s2 - hm2
  refine (maintainWal_safe hm2.2 walLen).mono ?_
  rintro r s3 - ⟨rfl, hm3⟩
  exact ⟨rfl, hm1.then (hm2.then hm3)⟩

/-! ## What was written -/

/-- The batches `es` were listed and the writes `us` applied by the holder of the
gate. -/
structure Did (M : Mode) (who : Who) (es : List (List Nat × List Op)) (us : List Op)
    (s s' : State) : Prop extends Along (·.isClient = false) who s s' where
  lin : ListedBatches who M.solo s.1.hist.length es s.2.lin s'.2.lin
  owns : Owns s'.1 who.inst → Owns s.1 who.inst
  live : M.solo ∨ ¬ M.staging → ∀ b,
    liveFrom b who.inst s'.1.hist = applyOps (liveFrom b who.inst s.1.hist) us
  opened : ∀ id pw, s'.2.slot id = .opened who.inst pw ↔ s.2.slot id = .opened who.inst pw
  listedId : ∀ id pw, s.2.slot id = .opened who.inst pw → (∃ e ∈ s'.2.lin, id ∈ e.ids) →
    (∃ e ∈ s.2.lin, id ∈ e.ids) ∨ ∃ x ∈ es, id ∈ x.1
  queue : (s.1.inst who.inst).pending <+: (s'.1.inst who.inst).pending
  alone : M.solo → (s'.1.inst who.inst).pending = (s.1.inst who.inst).pending ∧
    s'.2.slot = s.2.slot

theorem Worked.did (h : Worked M who s s') : Did M who [] [] s s' where
  toAlong := h.toAlong
  lin := h.lin.batches
  owns := h.owns
  live hor b := h.live hor b
  opened := h.opened
  listedId id pw ho hl := .inl (h.listedId id pw ho hl)
  queue := h.queue
  alone hs := (h.alone hs).2

theorem Did.trans {es es' : List (List Nat × List Op)} {us us' : List Op}
    (h : Did M who es us s s') (h' : Did M who es' us' s' s'') :
    Did M who (es ++ es') (us ++ us') s s'' where
  toAlong := h.toAlong.trans h'.toAlong
  lin := h.lin.trans h'.lin h.length_le
  owns ho := h.owns (h'.owns ho)
  live hor b := by rw [h'.live hor b, h.live hor b, applyOps_append]
  opened id pw := (h'.opened id pw).trans (h.opened id pw)
  listedId id pw ho hl := by
    rcases h'.listedId id pw ((h.opened id pw).mpr ho) hl with hl | ⟨x, hx, hid⟩
    · rcases h.listedId id pw ho hl with hl | ⟨x, hx, hid⟩
      · exact .inl hl
      · exact .inr ⟨x, by simp [hx], hid⟩
    · exact .inr ⟨x, by simp [hx], hid⟩
  queue := h.queue.trans h'.queue
  alone hs := ⟨(h'.alone hs).1.trans (h.alone hs).1, (h'.alone hs).2.trans (h.alone hs).2⟩

/-- Own events that are no client events leave the batch of a thread alone. -/
theorem batchOf_append {t h : History}
    (ht : ∀ x ∈ t, x.1 = who → x.2.isClient = false) : batchOf who (t ++ h) = batchOf who h := by
  induction t with
  | nil => rfl
  | cons x t ih =>
    obtain ⟨who', e⟩ := x
    have ih := ih fun y hy => ht y (by simp [hy])
    rw [List.cons_append]
    simp only [batchOf]
    rw [if_neg, ih]
    rintro ⟨rfl, he⟩
    rw [ht (who', e) (by simp) rfl] at he
    cases he

/-! ## Listing a batch -/

/-- A batch that may be listed while the gate is held. -/
structure Appendable (M : Mode) (who : Who) (payload : Bytes) (ids : List Nat)
    (ops updates : List Op) (s : State) : Prop where
  encoded : encodeOps ops = .ok payload
  ok : ∀ op ∈ ops, M.OkOp op
  upd : updates = ops ∨ updates = []
  same : ¬ M.staging → updates = ops ∧ ids = batchOf who s.1.hist
  drained : ids ≠ [] → (who, .drained ids) ∈ s.1.hist
  batch : M.solo ∨ Owns s.1 who.inst → ids = [] ∨ ∃ batch, BatchOk who s.2 ids ops batch
  size : ids.length ≤ maxGroupWrites

section Appendable

variable {payload : Bytes} {ids : List Nat} {ops updates : List Op}

section Appendable

variable (h : Appendable M who payload ids ops updates s)

include h

theorem Appendable.tended (ht : Tended M who s s') :
    Appendable M who payload ids ops updates s' where
  encoded := h.encoded
  ok := h.ok
  upd := h.upd
  same hst := by
    obtain ⟨t, heq, hall⟩ := ht.hist
    rw [heq, batchOf_append hall]
    exact h.same hst
  drained hne := by
    obtain ⟨t, heq, -⟩ := ht.hist
    rw [heq]
    exact List.mem_append_right _ (h.drained hne)
  batch ho := by
    refine (h.batch (ho.imp id ht.owns)).imp id fun ⟨batch, hb⟩ => ⟨batch, ?_⟩
    exact ⟨hb.idsEq, hb.opsEq, hb.nodup, fun pw hpw => (ht.opened _ _).mpr (hb.opened pw hpw),
      by rw [(ht.manifest ho).2]; exact hb.fresh⟩
  size := h.size

/-- Strictly, the payload is read back as the operations. -/
theorem Appendable.decode (hs : M.strict) : decodeWalRecords payload = ops :=
  decodeWalRecords_encodeOps h.encoded fun op hop v hv => M.length hs v ((h.ok op hop).1 hs v hv)

theorem Appendable.decodeOk : ∀ op ∈ decodeWalRecords payload, M.OkOp op := by
  by_cases hs : M.strict
  · rw [h.decode hs]
    exact h.ok
  · exact fun op _ => ⟨fun hs' => absurd hs' hs, fun hsh => absurd (M.short_strict hsh) hs⟩

theorem Appendable.okUpdates : ∀ op ∈ updates, M.OkOp op := by
  rcases h.upd with rfl | rfl
  · exact h.ok
  · simp

theorem Appendable.listable {n : Nat}
    (hun : Unlisted M who s (.wal (s.1.inst who.inst).epoch n) (.bytes payload))
    (ho : Owns s.1 who.inst) :
    Listable M who s.1 s.2 (.wal (s.1.inst who.inst).epoch n) ids ops updates where
  pathEq := ⟨n, rfl⟩
  present := hun.present (.inr ho)
  fresh := hun.fresh
  payload := ⟨payload, hun.object, h.encoded⟩
  decode hd := by
    unfold walOps
    rw [hun.object]
    exact h.decode (M.durable_strict hd)
  ok := h.ok
  same := h.same
  drained := h.drained
  batch := h.batch (.inr ho)
  size := h.size

end Appendable

/-- A WAL file that no manifest lists is not found in one. -/
theorem Unlisted.not_mem {p : ObjectPath} {o : Obj} (h : Unlisted M who s p o) {m : Manifest}
    {e : Etag} (hm : KnownManifest (stores s.1.hist) m e) : p ∉ m.wal := by
  intro hp
  rcases hm with ⟨-, hnil, -⟩ | ⟨who', hm⟩
  · rw [hnil] at hp; cases hp
  · exact h.fresh ⟨who', m, e, hm, Or.inl hp⟩

/-- The outcome of an append: all or nothing. -/
def Appended (M : Mode) (who : Who) (cx : Ctx) (ids : List Nat) (ops updates : List Op)
    (s : State) (r : Res Unit) (s' : State) : Prop :=
  Gated M who cx s' ∧
  (M.solo → (s'.1.inst who.inst).walBuffer = (s.1.inst who.inst).walBuffer) ∧
  match r with
    | .ok _ => Did M who [(ids, ops)] updates s s'
    | .error _ => Did M who [] [] s s' ∧ (M.faults ∨ M.multi)

/-- An append after other work of the holder of the gate. -/
theorem Appended.after {r : Res Unit} (h : Appended M who cx ids ops updates s' r s'')
    (hw : Worked M who s s') : Appended M who cx ids ops updates s r s'' := by
  refine ⟨h.1, fun hs => (h.2.1 hs).trans (hw.alone hs).1, ?_⟩
  match r, h.2.2 with
  | .ok _, hd => exact hw.did.trans hd
  | .error _, ⟨hd, hf⟩ => exact ⟨hw.did.trans hd, hf⟩

theorem Appended.failed {e : StoreError} (hm : Maintained M who cx s s')
    (hf : M.faults ∨ M.multi) : Appended M who cx ids ops updates s (.error e) s' :=
  ⟨hm.2, fun hs => (hm.1.alone hs).1, hm.1.did, hf⟩

theorem Did.own {es : List (List Nat × List Op)} {us : List Op} (he : Effect M who s s')
    (hi : Inv M.toTrack s.1 s.2) (hr : s.2.ready who.inst)
    (hhist : ∃ t, s'.1.hist = t ++ s.1.hist ∧ ∀ x ∈ t, x.2.isClient = false)
    (hlin : ∃ t, s'.2.lin = s.2.lin ++ t ∧ t.map (fun e => (e.ids, e.ops)) = es ∧
      ∀ x ∈ t, x.who = who ∧ s.1.hist.length ≤ x.pos)
    (hlive : ∀ b, liveFrom b who.inst s'.1.hist = applyOps (liveFrom b who.inst s.1.hist) us)
    (hslot : s'.2.slot = s.2.slot)
    (hpending : (s'.1.inst who.inst).pending = (s.1.inst who.inst).pending) :
    Did M who es us s s' where
  toAlong := he.along hr hhist hslot
  lin := by
    obtain ⟨t, ht, hes, hall⟩ := hlin
    refine ⟨t, ht, ?_, fun x hx _ => (hall x hx).2, fun _ x hx => (hall x hx).1⟩
    rw [List.filter_eq_self.mpr (by simpa using fun x hx => (hall x hx).1), hes]
  owns := he.owns hi hr
  live _ b := hlive b
  opened id pw := by rw [hslot]
  listedId id pw _ hl := by
    obtain ⟨t, ht, hes, -⟩ := hlin
    obtain ⟨e, he, hid⟩ := hl
    rw [ht] at he
    rcases List.mem_append.mp he with he | he
    · exact .inl ⟨e, he, hid⟩
    · exact .inr ⟨_, hes ▸ List.mem_map_of_mem he, hid⟩
  queue := hpending ▸ List.prefix_refl _
  alone _ := ⟨hpending, hslot⟩

/-- The listed updates reach the MemTable. -/
theorem applyMem_safe (h : Using M who cx s) (hh : Held who s.1) (hwin : s.2.win who.inst = updates)
    (hok : ∀ op ∈ updates, M.OkOp op) :
    IoSafe (rules M) who (applyMem updates) (fun r s' => r = .ok () ∧ Gated M who cx s' ∧
      Did M who [] updates s s' ∧
      (M.solo → (s'.1.inst who.inst).walBuffer = (s.1.inst who.inst).walBuffer)) s := by
  unfold applyMem
  split
  · rename_i hempty
    obtain rfl := List.isEmpty_iff.mp hempty
    have hg : Gated M who cx s := { toUsing := h, held := hh, win := hwin }
    refine .pure fun s1 ho _ => ?_
    have hk := hg.kept ho.calm
    exact ⟨rfl, hg.others ho, hk.tended.toWorked.did, fun hs => (hk.tended.alone hs).1⟩
  · refine .act (useStep h (fun _ _ _ _ => rfl) fun s1 ho h1 c r t _ hx _ => ?_)
    have hk1 := ho.kept h.inv h.ready hh
    cases hx
    have he : Effect M who s1 ((s1.1.setInst who.inst { s1.1.inst who.inst with
        mem := (s1.1.inst who.inst).mem.insertAll updates }).log who (.wrote updates),
        { s1.2 with
          win := Function.update s1.2.win who.inst []
          flight := Function.update s1.2.flight who.inst none }) :=
      .apply updates hk1.held h1.ready (hk1.work.win.trans hwin) hok
    refine ⟨_, he, fun s2 ho2 _ => ?_⟩
    have h2 : Gated M who cx ((s1.1.setInst who.inst { s1.1.inst who.inst with
        mem := (s1.1.inst who.inst).mem.insertAll updates }).log who (.wrote updates),
        { s1.2 with
          win := Function.update s1.2.win who.inst []
          flight := Function.update s1.2.flight who.inst none }) := by
      refine { toUsing := h1.own he (by simp) rfl rfl, held := ?_, win := Function.update_self .. }
      show ((World.setInst _ _ _).inst _).gate = _
      rw [World.setInst_inst_self]
      exact hk1.held
    have hk2 := h2.kept ho2.calm
    have hd : Did M who [] updates s1 _ := .own he h1.inv h1.ready ⟨[_], rfl, by simp [What.isClient]⟩
      ⟨[], by simp, rfl, by simp⟩ (fun b => liveFrom_wrote ..) rfl (by simp)
    refine ⟨rfl, h2.others ho2, ?_, fun hs => ?_⟩
    · have := (hk1.tended.toWorked.did.trans hd).trans hk2.tended.toWorked.did
      simpa using this
    · rw [(hk2.tended.alone hs).1, ← (hk1.tended.alone hs).1]
      simp

theorem listWal_safe {seq : Nat} (n : Nat) (h : Gated M who cx s)
    (hap : Appendable M who payload ids ops updates s)
    (hun : Unlisted M who s (.wal cx.epoch seq) (.bytes payload)) :
    IoSafe (rules M) who (listWal cx (.wal cx.epoch seq) updates (n + 1))
      (Appended M who cx ids ops updates s) s := by
  induction n generalizing s with
  | zero | succ n ih =>
    refine h.readBind (loadManifest_safe true h.toReading)
      (fun _ _ hk1 h1 hf => .failed (.ofKept hk1 h1) (.inl hf)) fun x s1 hk1 h1 hat => ?_
    obtain ⟨m, e⟩ := x
    have hnot : m.wal.contains (.wal cx.epoch seq) = false := by
      simpa using (hun.kept hk1).not_mem hat.known.1
    simp only [hnot, Bool.false_eq_true, if_false]
    refine casBind (P := fun s2 g' => g' = { s2.2 with
        lin := s2.2.lin ++ [⟨who, s2.1.hist.length, .wal cx.epoch seq, ids, ops⟩]
        win := Function.update s2.2.win who.inst updates }) h1 hat.known.1
      (hat.current h) (fun s2 hk2 h2 hcur hperm => ?_) (fun _ => rfl)
      (fun s2 g' s3 hk2 h2 hcur hg he hcalm hu => ?_) (fun err s2 hwhy hk2 h2 => ?_)
    · have howns : Owns s2.1 who.inst := h2.owner hperm.owner
      have hun2 := (hun.kept hk1).kept hk2
      have hap2 := hap.tended (hk1.trans hk2).tended
      have hep := h2.epoch
      refine ⟨_, .list _ (.wal cx.epoch seq) ids ops updates h2.held howns h2.ready h2.win
        (by rw [hcur.lists.1]; rfl) hcur.lists.2.symm ?_, rfl⟩
      rw [hep] at hun2 ⊢
      exact hap2.listable hun2 howns
    · subst hg
      have hi' := he.inv h2.inv
      have hr' := (he.use h2.ready).ready
      have hk3 := hcalm.kept hi' hr' h2.held
      have hd3 : Did M who [(ids, ops)] [] s s3 := by
        have hd : Did M who [(ids, ops)] [] s2 _ := .own he h2.inv h2.ready
          ⟨[_], rfl, by simp [What.isClient]⟩
          ⟨[_], rfl, rfl, by simp⟩ (fun b => liveFrom_log (by simp) _) rfl rfl
        have := ((hk1.trans hk2).tended.toWorked.did.trans hd).trans hk3.tended.toWorked.did
        simpa using this
      have hb3 : M.solo → (s3.1.inst who.inst).walBuffer = (s.1.inst who.inst).walBuffer :=
        fun hs => (hk3.tended.alone hs).1.trans ((hk1.trans hk2).tended.alone hs).1
      have hwin3 : s3.2.win who.inst = updates :=
        hk3.work.win.trans (Function.update_self ..)
      refine .bind ((applyMem_safe hu hk3.held hwin3 hap.okUpdates).mono ?_)
      rintro r s4 - ⟨rfl, h4, hd4, hb4⟩
      refine (maintainAfterWrite_safe h4 _).mono ?_
      rintro r s5 - ⟨rfl, hm5⟩
      refine ⟨hm5.2, fun hs => ?_, ?_⟩
      · exact ((hm5.1.alone hs).1.trans (hb4 hs)).trans (hb3 hs)
      · have := (hd3.trans hd4).trans hm5.1.did
        simpa using this
    · have hm2 : Maintained M who cx s s2 := .ofKept (hk1.trans hk2) h2
      have hf : M.faults ∨ M.multi := hwhy.imp id And.left
      cases err with
      | casConflict d =>
        refine h2.readBind (cacheClear_safe h2.toReading) (fun _ _ _ _ => False.elim)
          fun _ s3 hk3 h3 _ => ?_
        have hk := (hk1.trans hk2).trans hk3
        first
          | exact .fail fun s4 ho _ => .failed (.others (.ofKept hk h3) ho) hf
          | exact (ih h3 (hap.tended hk.tended) (hun.kept hk)).mono
              fun _ s4 _ hp => hp.after hk.tended.toWorked
      | _ => exact .fail fun s3 ho _ => .failed (hm2.others ho) hf

theorem appendWalLocked_safe (h : Gated M who cx s)
    (hap : Appendable M who payload ids ops updates s) :
    IoSafe (rules M) who (appendWalLocked cx payload updates)
      (Appended M who cx ids ops updates s) s := by
  refine .bind ((nextWalSeq_safe h).mono ?_)
  rintro r s1 - ⟨n, rfl, ht1, h1, hlt, hfree⟩
  have hobj : ∀ s2, Kept M who s1 s2 →
      NewObject M who s2.1 (.wal cx.epoch n) (.bytes payload) := fun s2 hk2 => by
    rw [h1.epoch, ← hk2.use.epoch]
    exact .wal n payload (by rw [hk2.work.walSeq]; exact hlt) hap.decodeOk
  refine .bind ((createVerified_safe h1 "wal" n hfree hobj).mono ?_)
  rintro r s2 - ⟨ht2, h2, hr⟩
  have ht2' := ht1.trans ht2
  match r, hr with
  | .error e, hf => exact .failed ⟨ht2'.toWorked, h2⟩ (.inl hf)
  | .ok _, ⟨hun, _⟩ =>
    refine h2.readBind (checkOwnership_safe h2.toUsing _)
      (fun _ _ hk3 h3 hf => .failed ⟨(ht2'.trans hk3.tended).toWorked, h3⟩ hf)
      fun _ s3 hk3 h3 _ => ?_
    have ht3 := ht2'.trans hk3.tended
    exact (listWal_safe 3 h3 (hap.tended ht3) (hun.kept hk3)).mono
      fun _ s4 _ hp => hp.after ht3.toWorked

end Appendable

end OxKv
