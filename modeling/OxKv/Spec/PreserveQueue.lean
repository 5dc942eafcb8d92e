import OxKv.Spec.PreserveLive

/-!
The effects on the group-commit queue and the reports of callers keep the
invariant.
-/

namespace OxKv

variable {T : Track} {M : Mode} {w w' : World} {g g' : Ghost} {who : Who}

/-- Only queue, answers and reports change. -/
theorem Inv.sameContents (h : Inv T w g) (hsuf : w.hist <:+ w'.hist) (hst : w'.st = w.st)
    (hS : stores w'.hist = stores w.hist) (hlive : ∀ b i, liveFrom b i w'.hist = liveFrom b i w.hist)
    (hepoch : ∀ j, (w'.inst j).epoch = (w.inst j).epoch)
    (hmem : ∀ j, (w'.inst j).mem = (w.inst j).mem)
    (hseq : ∀ j, (w'.inst j).sstSeq = (w.inst j).sstSeq)
    (hgate : ∀ j, (w'.inst j).gate = (w.inst j).gate)
    (hghost : ∃ slot, g' = { g with slot := slot })
    (hslot : ∀ pw : PendingWrite, ((∃ i, g.slot pw.id = .opened i pw) ∨
        ∃ r, g.slot pw.id = .settled pw r) →
      (∃ i, g'.slot pw.id = .opened i pw) ∨ ∃ r, g'.slot pw.id = .settled pw r)
    (hhandle : HandleInv T w.st (stores w.hist) w'.inst) (hqueue : QueueInv T w' g')
    (hreplies : ReplyInv T w' g')
    (hwrote : ∀ {who ops}, (who, What.wrote ops) ∈ w'.hist → (who, What.wrote ops) ∈ w.hist) :
    Inv T w' g' := by
  obtain ⟨slot, rfl⟩ := hghost
  refine h.sameStore hsuf hst hS rfl rfl hslot hhandle (fun j hj => ?_) hqueue hreplies
    (fun hm => h.wrote (hwrote hm)) h.idle
  exact (h.live j hj).keep h.store ⟨keepsHits_of_inst hst hsuf hS (fun b => hlive b j) (hepoch j)
    (hmem j) (le_of_eq (hseq j).symm) rfl rfl rfl, fun hg => by rw [hgate] at hg; exact hg, rfl⟩

/-! ## The slot of one id -/

/-- What the queue invariant says about the slot `s` of one id. -/
structure SlotInv (T : Track) (w : World) (lin : List LinEntry) (id : Nat) (s : Slot) : Prop where
  free : w.pendingCtr ≤ id ↔ s = .free
  queued : ∀ i pw, pw.id = id → (pw ∈ (w.inst i).pending ↔ s = .queued i pw)
  gate : ∀ {i pw}, s = .opened i pw → (w.inst i).gate ≠ none
  answers : ∀ r, w.answers id = some r ↔ ∃ pw, s = .settled pw r
  write : ∀ {pw}, s.write? = some pw → pw.id = id ∧ PushedOk T w.hist pw
  pushedSlot : ∀ {who pw}, pw.id = id → (who, .pushed pw) ∈ w.hist → s.write? = some pw
  settled : ∀ {pw r}, s = .settled pw r → (r = .ok () ↔ ∃ e ∈ lin, id ∈ e.ids)

theorem QueueInv.slotInv (hq : QueueInv T w g) (id : Nat) : SlotInv T w g.lin id (g.slot id) where
  free := hq.free id
  queued i pw hid := hid ▸ hq.queued i pw
  gate := hq.gate
  answers := hq.answers id
  write := hq.write
  pushedSlot hid hm := hid ▸ hq.pushedSlot hm
  settled := hq.settled

theorem QueueInv.of_slots (hs : ∀ id, SlotInv T w g.lin id (g.slot id))
    (hnodup : ∀ i, ((w.inst i).pending.map PendingWrite.id).Nodup)
    (hpushed : ∀ {who who' pw pw'}, (who, .pushed pw) ∈ w.hist → (who', .pushed pw') ∈ w.hist →
      pw.id = pw'.id → who = who' ∧ pw = pw') : QueueInv T w g where
  free id := (hs id).free
  queued i pw := (hs pw.id).queued i pw rfl
  nodup := hnodup
  gate := (hs _).gate
  answers id := (hs id).answers
  write := (hs _).write
  pushed := hpushed
  pushedSlot := (hs _).pushedSlot rfl
  settled := (hs _).settled

/-- An effect that does not touch an id. -/
theorem SlotInv.keep {lin : List LinEntry} {id : Nat} {s : Slot} (h : SlotInv T w lin id s)
    (hsuf : w.hist <:+ w'.hist) (hctr : w'.pendingCtr ≤ id ↔ w.pendingCtr ≤ id)
    (hpend : ∀ i pw, pw.id = id → (pw ∈ (w'.inst i).pending ↔ pw ∈ (w.inst i).pending))
    (hgate : ∀ i, (w'.inst i).gate = (w.inst i).gate) (hans : w'.answers id = w.answers id)
    (hpush : ∀ {who pw}, pw.id = id → (who, What.pushed pw) ∈ w'.hist →
      (who, What.pushed pw) ∈ w.hist) : SlotInv T w' lin id s where
  free := hctr.trans h.free
  queued i pw hid := (hpend i pw hid).trans (h.queued i pw hid)
  gate hs := hgate _ ▸ h.gate hs
  answers r := hans ▸ h.answers r
  write hw := ⟨(h.write hw).1, (h.write hw).2.mono hsuf⟩
  pushedSlot hid hm := h.pushedSlot hid (hpush hid hm)
  settled := h.settled

/-! ## Taking an id -/

theorem Inv.take (h : Inv M.toTrack w g) :
    Inv M.toTrack { w with pendingCtr := w.pendingCtr + 1 }
      { g with slot := Function.update g.slot w.pendingCtr (.taken who) } := by
  have hfree : g.slot w.pendingCtr = .free := (h.queue.free _).mp (le_refl _)
  refine h.sameContents (List.suffix_refl _) rfl rfl (fun _ _ => rfl) (fun _ => rfl) (fun _ => rfl)
    (fun _ => rfl) (fun _ => rfl) ⟨_, rfl⟩ ?_ h.handle ?_
    (h.replies.keep (List.prefix_refl _) (fun _ _ _ _ => id)) id
  · intro pw hpw
    have hid : pw.id ≠ w.pendingCtr := by
      intro hid
      simp [hid, hfree] at hpw
    simpa only [Function.update_of_ne hid] using hpw
  · refine .of_slots (fun n => ?_) h.queue.nodup h.queue.pushed
    by_cases hn : n = w.pendingCtr
    · subst hn
      have hold := h.queue.slotInv w.pendingCtr
      rw [hfree] at hold
      simp only [Function.update_self]
      exact {
        free := by simp
        queued := by simpa using hold.queued
        gate := by simp
        answers := by simpa using hold.answers
        write := by simp [Slot.write?]
        pushedSlot := hold.pushedSlot
        settled := by simp }
    · simp only [Function.update_of_ne hn]
      refine (h.queue.slotInv n).keep (List.suffix_refl _) ?_ (fun _ _ _ => .rfl) (fun _ => rfl) rfl
        (fun _ => id)
      show w.pendingCtr + 1 ≤ n ↔ w.pendingCtr ≤ n
      omega

/-! ## Joining the queue -/

theorem Inv.push {pw : PendingWrite} (h : Inv M.toTrack w g) (htaken : g.slot pw.id = .taken who)
    (henc : encodeRecord pw.key pw.value = .ok pw.encoded) (hop : M.OkOp (pw.key, some pw.value)) :
    Inv M.toTrack
      ((w.setInst who.inst { w.inst who.inst with
        pending := (w.inst who.inst).pending ++ [pw] }).log who (.pushed pw))
      { g with slot := Function.update g.slot pw.id (.queued who.inst pw) } := by
  have hsuf : w.hist <:+ (who, What.pushed pw) :: w.hist := List.suffix_cons _ _
  have hnew : ∀ i, ∀ x ∈ (w.inst i).pending, x.id ≠ pw.id := by
    intro i x hx hid
    have := (h.queue.queued i x).mp hx
    rw [hid, htaken] at this
    cases this
  have hfresh : ∀ {who' x}, (who', What.pushed x) ∈ w.hist → x.id ≠ pw.id := by
    intro who' x hx hid
    have := h.queue.pushedSlot hx
    rw [hid, htaken] at this
    cases this
  refine h.sameContents hsuf rfl rfl (fun b i => liveFrom_log (by simp) w.hist)
    (World.setInst_field Inst.epoch rfl) (World.setInst_field Inst.mem rfl)
    (World.setInst_field Inst.sstSeq rfl) (World.setInst_field Inst.gate rfl)
    ⟨_, rfl⟩ ?_ (h.handle.setFields (le_refl _) (le_refl _) (h.handle.memOk _)) ?_
    (h.replies.keep (List.prefix_refl _) ?_) ?_
  · intro x hx
    have hid : x.id ≠ pw.id := by
      intro hid
      rw [hid, htaken] at hx
      simp at hx
    simpa only [Function.update_of_ne hid] using hx
  · have hq := h.queue
    have hpend : ∀ i x, x ∈ (((w.setInst who.inst { w.inst who.inst with
        pending := (w.inst who.inst).pending ++ [pw] }).log who (.pushed pw)).inst i).pending ↔
        x ∈ (w.inst i).pending ∨ i = who.inst ∧ x = pw := by
      intro i x
      by_cases hi : i = who.inst
      · subst hi
        simp
      · rw [World.log_inst, World.setInst_inst_ne _ _ _ hi]
        simp [hi]
    refine .of_slots (fun n => ?_) (fun i => ?_) ?_
    · by_cases hn : n = pw.id
      · subst hn
        have hold := hq.slotInv pw.id
        rw [htaken] at hold
        simp only [Function.update_self]
        exact {
          free := by simpa using hold.free
          queued := by
            intro i x hid
            rw [hpend, Slot.queued.injEq]
            constructor
            · rintro (hx | ⟨rfl, rfl⟩)
              · exact absurd hid (hnew i x hx)
              · exact ⟨rfl, rfl⟩
            · rintro ⟨rfl, rfl⟩
              exact .inr ⟨rfl, rfl⟩
          gate := by simp
          answers := by simpa using hold.answers
          write := by
            rintro x ⟨⟩
            exact ⟨rfl, henc, hop, who, List.mem_cons_self ..⟩
          pushedSlot := by
            intro who' x hid hx
            rcases List.mem_cons.mp hx with heq | hx
            · cases heq
              rfl
            · exact absurd hid (hfresh hx)
          settled := by simp }
      · simp only [Function.update_of_ne hn]
        refine (hq.slotInv n).keep hsuf .rfl ?_ (World.setInst_field Inst.gate rfl) rfl ?_
        · intro i x hid
          rw [hpend]
          exact or_iff_left fun he => hn (by rw [← hid, he.2])
        · intro who' x hid hx
          rcases List.mem_cons.mp hx with heq | hx
          · cases heq
            exact absurd hid.symm hn
          · exact hx
    · by_cases hi : i = who.inst
      · subst hi
        rw [World.log_inst, World.setInst_inst_self]
        simp only [List.map_append, List.map_cons, List.map_nil]
        refine .append (hq.nodup _) (List.nodup_singleton _) ?_
        intro id hid hid'
        obtain ⟨x, hx, rfl⟩ := List.mem_map.mp hid
        exact hnew _ x hx (List.mem_singleton.mp hid')
      · rw [World.log_inst, World.setInst_inst_ne _ _ _ hi]
        exact hq.nodup i
    · intro who1 who2 x y hx hy hid
      rcases List.mem_cons.mp hx with heq1 | hx <;> rcases List.mem_cons.mp hy with heq2 | hy
      · cases heq1; cases heq2; exact ⟨rfl, rfl⟩
      · cases heq1; exact absurd hid.symm (hfresh hy)
      · cases heq2; exact absurd hid (hfresh hx)
      · exact hq.pushed hx hy hid
  · intro h0 who' n r hs
    rcases List.suffix_cons_iff.mp hs with heq | hs
    · cases heq
    · exact hs
  · intro who' ops hm
    rcases List.mem_cons.mp hm with heq | hm
    · cases heq
    · exact hm

/-! ## Taking a batch -/

/-- A slot after a drain: its write is in the batch, or nothing changed. -/
theorem drainSlots_cases (hq : QueueInv T w g) {i : Nat} (batch : List PendingWrite)
    (hbatch : ∀ pw ∈ batch, pw ∈ (w.inst i).pending) (id : Nat) :
    (∃ pw ∈ batch, pw.id = id ∧ g.slot id = .queued i pw ∧
      drainSlots g.slot i batch id = .opened i pw) ∨
    ((∀ pw ∈ batch, pw.id ≠ id) ∧ drainSlots g.slot i batch id = g.slot id) := by
  unfold drainSlots
  cases hf : batch.find? (fun pw => pw.id = id) with
  | none =>
    refine .inr ⟨fun pw hpw hid => ?_, rfl⟩
    have := List.find?_eq_none.mp hf pw hpw
    simp [hid] at this
  | some pw =>
    have hpw := List.mem_of_find?_eq_some hf
    have hid : pw.id = id := by simpa using List.find?_some hf
    exact .inl ⟨pw, hpw, hid, hid ▸ (hq.queued i pw).mp (hbatch pw hpw), rfl⟩

theorem Inv.drain {max : Nat} (h : Inv M.toTrack w g) (hheld : Held who w) :
    Inv M.toTrack
      ((w.setInst who.inst { w.inst who.inst with
        pending := (w.inst who.inst).pending.drop max }).log who
          (.drained (((w.inst who.inst).pending.take max).map PendingWrite.id)))
      { g with slot := drainSlots g.slot who.inst ((w.inst who.inst).pending.take max) } := by
  have hquiet : HistQuiet w.hist
      ((who, What.drained (((w.inst who.inst).pending.take max).map PendingWrite.id)) :: w.hist) :=
    HistQuiet.cons _ (by simp) (by simp) (by simp)
  have hq := h.queue
  have hcases := drainSlots_cases hq (i := who.inst) ((w.inst who.inst).pending.take max)
    fun pw hpw => List.mem_of_mem_take hpw
  -- the ids of the queue are split between the batch and the rest
  have hsplit : ∀ {x y}, x ∈ (w.inst who.inst).pending.take max →
      y ∈ (w.inst who.inst).pending.drop max → x.id ≠ y.id := by
    intro x y hx hy
    have hnodup := hq.nodup who.inst
    rw [← List.take_append_drop max (w.inst who.inst).pending, List.map_append] at hnodup
    intro hid
    exact (List.nodup_append.mp hnodup).2.2 x.id (List.mem_map_of_mem hx) y.id
      (List.mem_map_of_mem hy) hid
  refine h.sameContents hquiet.suffix rfl rfl hquiet.live (World.setInst_field Inst.epoch rfl)
    (World.setInst_field Inst.mem rfl) (World.setInst_field Inst.sstSeq rfl)
    (World.setInst_field Inst.gate rfl) ⟨_, rfl⟩ ?_
    (h.handle.setFields (le_refl _) (le_refl _) (h.handle.memOk _)) ?_
    (h.replies.keep (List.prefix_refl _) hquiet.returned) hquiet.wrote
  · intro x hx
    rcases hcases x.id with ⟨pw, -, -, hs, -⟩ | ⟨-, hs⟩
    · simp [hs] at hx
    · simpa only [hs] using hx
  · refine .of_slots (fun n => ?_) (fun i => ?_)
      fun hx hy => hq.pushed (hquiet.pushed hx) (hquiet.pushed hy)
    · have hold := hq.slotInv n
      show SlotInv _ _ _ n (drainSlots _ _ _ n)
      rcases hcases n with ⟨pw, hpw, rfl, hs, hs'⟩ | ⟨hno, hs⟩
      · rw [hs] at hold
        rw [hs']
        exact {
          free := by simpa using hold.free
          queued := by
            intro i x hid
            simp only [reduceCtorEq, iff_false]
            by_cases hi : i = who.inst
            · subst hi
              rw [World.log_inst, World.setInst_inst_self]
              exact fun hx => hsplit hpw hx hid.symm
            · rw [World.log_inst, World.setInst_inst_ne _ _ _ hi, hold.queued i x hid]
              simp [Ne.symm hi]
          gate := by
            rintro i x ⟨⟩
            rw [World.log_inst, World.setInst_inst_self, show (w.inst who.inst).gate = _ from hheld]
            simp
          answers := by simpa using hold.answers
          write := fun hw => ⟨(hold.write hw).1, (hold.write hw).2.mono hquiet.suffix⟩
          pushedSlot := fun hid hx => hold.pushedSlot hid (hquiet.pushed hx)
          settled := by simp }
      · rw [hs]
        refine hold.keep hquiet.suffix .rfl ?_ (World.setInst_field Inst.gate rfl) rfl fun _ =>
          hquiet.pushed
        intro i x hid
        by_cases hi : i = who.inst
        · subst hi
          rw [World.log_inst, World.setInst_inst_self]
          refine ⟨fun hx => List.mem_of_mem_drop hx, fun hx => ?_⟩
          rw [← List.take_append_drop max (w.inst who.inst).pending] at hx
          exact (List.mem_append.mp hx).resolve_left fun hx => hno x hx hid
        · rw [World.log_inst, World.setInst_inst_ne _ _ _ hi]
    · by_cases hi : i = who.inst
      · subst hi
        rw [World.log_inst, World.setInst_inst_self]
        exact (hq.nodup _).sublist ((List.drop_sublist _ _).map _)
      · rw [World.log_inst, World.setInst_inst_ne _ _ _ hi]
        exact hq.nodup i

/-! ## Answering a write -/

theorem Inv.send {pw : PendingWrite} {r : Res Unit} (h : Inv M.toTrack w g)
    (hopen : g.slot pw.id = .opened who.inst pw) (hr : r = .ok () ↔ ∃ e ∈ g.lin, pw.id ∈ e.ids) :
    Inv M.toTrack
      ({ w with answers := Function.update w.answers pw.id (some r) }.log who (.sent pw.id r))
      { g with slot := Function.update g.slot pw.id (.settled pw r) } := by
  have hquiet : HistQuiet w.hist ((who, What.sent pw.id r) :: w.hist) :=
    HistQuiet.cons _ (by simp) (by simp) (by simp)
  have hq := h.queue
  refine h.sameContents hquiet.suffix rfl rfl hquiet.live (fun _ => rfl) (fun _ => rfl)
    (fun _ => rfl) (fun _ => rfl) ⟨_, rfl⟩ ?_ h.handle ?_
    (h.replies.keep (List.prefix_refl _) hquiet.returned) hquiet.wrote
  · intro x hx
    by_cases hid : x.id = pw.id
    · have hxeq : x = pw := by
        rw [hid, hopen] at hx
        rcases hx with ⟨i, hx⟩ | ⟨r', hx⟩
        · injection hx with _ hx
          exact hx.symm
        · cases hx
      subst hxeq
      exact .inr ⟨r, by simp⟩
    · simpa only [Function.update_of_ne hid] using hx
  · refine .of_slots (fun n => ?_) hq.nodup
      fun hx hy => hq.pushed (hquiet.pushed hx) (hquiet.pushed hy)
    by_cases hn : n = pw.id
    · subst hn
      have hold := hq.slotInv pw.id
      rw [hopen] at hold
      simp only [Function.update_self]
      exact {
        free := by simpa using hold.free
        queued := by simpa using hold.queued
        gate := by simp
        answers := by simp [World.log]
        write := fun hw => ⟨(hold.write hw).1, (hold.write hw).2.mono hquiet.suffix⟩
        pushedSlot := fun hid hx => hold.pushedSlot hid (hquiet.pushed hx)
        settled := by
          rintro x r' ⟨⟩
          exact hr }
    · simp only [Function.update_of_ne hn]
      exact (hq.slotInv n).keep hquiet.suffix .rfl (fun _ _ _ => .rfl) (fun _ => rfl)
        (Function.update_of_ne hn _ _) fun _ => hquiet.pushed

/-! ## Reports -/

theorem Inv.mark {m : Mark} (h : Inv M.toTrack w g)
    (hm : ∀ n r, m = .returned n r → M.R w.hist g.lin who n r) :
    Inv M.toTrack (w.log who (.mark m)) g := by
  have hsuf : w.hist <:+ (who, What.mark m) :: w.hist := List.suffix_cons _ _
  have hold : ∀ {who' e}, (who', e) ∈ (who, What.mark m) :: w.hist → (∀ m, e ≠ .mark m) →
      (who', e) ∈ w.hist := by
    intro who' e he hne
    rcases List.mem_cons.mp he with heq | he
    · cases heq
      exact absurd rfl (hne m)
    · exact he
  refine h.sameContents hsuf rfl rfl (fun b i => liveFrom_log (by simp) w.hist) (fun _ => rfl)
    (fun _ => rfl) (fun _ => rfl) (fun _ => rfl) ⟨g.slot, rfl⟩ (fun _ => id) h.handle
    (h.queue.keep hsuf (fun hx => hold hx (by simp)) rfl rfl (fun _ => rfl) (fun _ _ => id) rfl
      (fun _ _ _ _ => .rfl))
    ?_ (fun hx => hold hx (by simp))
  intro h0 who' n r hs
  rcases List.suffix_cons_iff.mp hs with heq | hs
  · cases heq
    exact ⟨g.lin, List.prefix_refl _, hm n r rfl⟩
  · exact h.replies h0 who' n r hs

end OxKv
