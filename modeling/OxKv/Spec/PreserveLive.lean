import OxKv.Spec.Preserve

/-!
The effects on the contents of one handle keep the invariant: opening a handle and
its replay, writes to the MemTable, and the snapshot and discard of a flush.
-/

namespace OxKv

variable {T : Track} {M : Mode} {w w' : World} {g g' : Ghost} {who : Who}

/-! ## Handles that are not in use yet -/

theorem Inv.unready {y : Inst} {i : Nat} (h : Inv T w g) (hready : ¬ g.ready i)
    (hhandle : HandleInv T w.st (stores w.hist) (w.setInst i y).inst)
    (hpending : y.pending = (w.inst i).pending) (hgate : (w.inst i).gate ≠ none → y.gate ≠ none) :
    Inv T (w.setInst i y) g := by
  refine h.sameStore (List.suffix_refl _) rfl rfl rfl rfl (fun _ => id) hhandle ?_ ?_
    (h.replies.keep (List.prefix_refl _) (fun _ _ _ _ => id)) h.wrote h.idle
  · intro j hj
    have hji : j ≠ i := by
      rintro rfl
      exact hready hj
    exact (h.live j hj).keep h.store (keepsLive_other hji rfl rfl (List.suffix_refl _) rfl
      (fun _ => rfl) rfl rfl rfl rfl)
  · exact h.queue.keepInst rfl (List.suffix_refl _) id rfl rfl hpending (fun _ => hgate) rfl rfl

theorem Inv.handle' {epoch : Nat} {session : String} {skip : Bool} (h : Inv M.toTrack w g)
    (hepoch : epoch ≤ w.st.topEpoch)
    (hfresh : ∀ who' p o t, (who', p, o, t) ∈ stores w.hist → who'.inst = who.inst →
      p.epoch? = none)
    (hready : ¬ g.ready who.inst) (hgate : (w.inst who.inst).gate = none)
    (hpending : (w.inst who.inst).pending = []) :
    Inv M.toTrack (w.setInst who.inst (Inst.new epoch session skip)) g :=
  h.unready hready
    (h.handle.setInst hepoch (fun hm hi he => by cases (hfresh _ _ _ _ hm hi).symm.trans he)
      nofun nofun nofun nofun fun _ => rfl)
    hpending.symm (fun hg => absurd hgate hg)

variable {mem : MemMap}

theorem Inv.replay (h : Inv M.toTrack w g) (hready : ¬ g.ready who.inst)
    (hmem : ∀ op ∈ mem.toList, M.OkOp op) :
    Inv M.toTrack (w.setInst who.inst { w.inst who.inst with mem := mem }) g :=
  h.unready hready (h.handle.setFields (le_refl _) (le_refl _) hmem) rfl id

/-- A handle whose MemTable shows its contents is ready. -/
theorem Inv.ready' {walSeq sstSeq : Nat} {m : KMap} (h : Inv M.toTrack w g)
    (hready : ¬ g.ready who.inst)
    (hwriter : Writer w who.inst) (hwal : (w.inst who.inst).walSeq ≤ walSeq)
    (hsst : (w.inst who.inst).sstSeq ≤ sstSeq)
    (hm : ¬ M.staging → m = g.dur)
    (hshows : Owns w who.inst → ∀ k, M.Shows w (liveHit M.cr w who.inst k) (m k))
    (hseq : Owns w who.inst → ∀ x ∈ w.manifest.sst, x.seq < sstSeq) :
    Inv M.toTrack
      (w.setInst who.inst { w.inst who.inst with walSeq := walSeq, sstSeq := sstSeq })
      { g with
        ready := Function.update g.ready who.inst True
        base := Function.update g.base who.inst m } := by
  have hclean := h.idle _ hready
  refine h.sameStore (List.suffix_refl _) rfl rfl rfl rfl (fun _ => id)
    (h.handle.setFields hwal hsst (h.handle.memOk _)) ?_ ?_
    (h.replies.keep (List.prefix_refl _) (fun _ _ _ _ => id)) ?_ ?_
  · intro j hj
    by_cases hji : j = who.inst
    · subst hji
      -- no write of this handle is in the history yet
      have hlive : OxKv.live (w.setInst who.inst { w.inst who.inst with
          walSeq := walSeq, sstSeq := sstSeq })
          { g with
            ready := Function.update g.ready who.inst True
            base := Function.update g.base who.inst m } who.inst = m := by
        simp only [OxKv.live, Function.update_self]
        apply liveFrom_base
        intro who' ops hm heq
        exact hready (heq ▸ h.wrote hm)
      have howns : Owns (w.setInst who.inst { w.inst who.inst with
          walSeq := walSeq, sstSeq := sstSeq }) who.inst → Owns w who.inst := fun ho =>
        ho.of_inst rfl rfl (by simp)
      exact {
        writer := hwriter.mono (List.suffix_refl _) (by simp)
        hit := fun ho k => by
          rw [hlive]
          have := hshows (howns ho) k
          unfold liveHit at this ⊢
          rw [World.setInst_inst_self]
          exact this
        seq := fun ho x hx => by
          rw [World.setInst_inst_self]
          exact hseq (howns ho) x hx
        link := fun hst _ => by
          rw [hlive, hm hst]
          rw [hclean.1]
          rfl
        flight := fun snap n hn => by
          have hn : g.flight who.inst = some (snap, n) := hn
          rw [hclean.2] at hn
          cases hn
        free := fun _ => hclean }
    · simp only [Function.update_of_ne hji] at hj
      exact (h.live j hj).keep h.store (keepsLive_other hji rfl rfl (List.suffix_refl _) rfl
        (fun _ => rfl) (by simp [hji]) rfl rfl rfl)
  · exact h.queue.keepInst rfl (List.suffix_refl _) id rfl rfl rfl (fun _ => id) rfl rfl
  · intro who' ops hm
    by_cases hi : who'.inst = who.inst
    · simp [hi]
    · simp only [Function.update_of_ne hi]
      exact h.wrote hm
  · intro i hi
    have hne : i ≠ who.inst := by
      rintro rfl
      simp at hi
    simp only [Function.update_of_ne hne] at hi
    exact h.idle i hi

/-! ## Writes to the MemTable -/

variable {ops : List Op}

/-- Inserted operations show their values. -/
theorem shows_insertAll {ob : Objects} {m : KMap} {rest : Option (Option Bytes)} {k : Key}
    (hops : ∀ op ∈ ops, T.OkOp op) (h : Shows T.strict T.cr ob ((mem.get? k).or rest) (m k)) :
    Shows T.strict T.cr ob (((mem.insertAll ops).get? k).or rest) (applyOps m ops k) := by
  rw [SortedMap.get?_insertAll, applyOps_apply]
  cases hl : ops.reverse.lookup k with
  | none => simpa using h
  | some x =>
    have hmem := List.mem_reverse.mp (SortedMap.mem_of_lookup hl)
    exact shows_plain fun hs v hv => T.plain hs v ((hops _ hmem).1 hs v hv)

theorem okOp_insertAll (hmem : ∀ op ∈ mem.toList, T.OkOp op) (hops : ∀ op ∈ ops, T.OkOp op) :
    ∀ op ∈ (mem.insertAll ops).toList, T.OkOp op := by
  rintro ⟨k, x⟩ hop
  rw [SortedMap.mem_toList, SortedMap.get?_insertAll] at hop
  cases hl : ops.reverse.lookup k with
  | none =>
    rw [hl] at hop
    exact hmem _ ((SortedMap.mem_toList ..).mpr hop)
  | some y =>
    rw [hl] at hop
    cases hop
    exact hops _ (List.mem_reverse.mp (SortedMap.mem_of_lookup hl))

theorem isSome_insertAll (ops : List Op) {k : Key} (h : (mem.get? k).isSome) :
    ((mem.insertAll ops).get? k).isSome := by
  rw [SortedMap.get?_insertAll]
  cases ops.reverse.lookup k with
  | none => exact h
  | some y => rfl

/-- Operations reach the MemTable and the contents together. -/
theorem Inv.insert (win : List Op) (h : Inv M.toTrack w g) (hready : g.ready who.inst)
    (hops : ∀ op ∈ ops, M.OkOp op) (hlink : ¬ M.staging → g.win who.inst = ops ∧ win = [])
    (hfree : (w.inst who.inst).gate = none → win = []) :
    Inv M.toTrack
      ((w.setInst who.inst { w.inst who.inst with
        mem := (w.inst who.inst).mem.insertAll ops }).log who (.wrote ops))
      { g with win := Function.update g.win who.inst win } := by
  have hsuf : w.hist <:+ (who, What.wrote ops) :: w.hist := List.suffix_cons _ _
  have hret : ∀ h0 who' n r, ((who', What.mark (.returned n r)) :: h0) <:+
      (who, What.wrote ops) :: w.hist → ((who', What.mark (.returned n r)) :: h0) <:+ w.hist := by
    intro h0 who' n r hs
    rcases List.suffix_cons_iff.mp hs with heq | hs
    · cases heq
    · exact hs
  have hl := h.live _ hready
  refine h.sameStore hsuf rfl rfl rfl rfl (fun _ => id)
    (h.handle.setFields (le_refl _) (le_refl _) (okOp_insertAll (h.handle.memOk _) hops))
    ?_ (h.queue.keepInst rfl hsuf (fun hm => ?_) rfl rfl rfl (fun _ => id) rfl rfl)
    (h.replies.keep (List.prefix_refl _) hret) ?_ (fun i hi => ?_)
  · intro j hj
    by_cases hji : j = who.inst
    · subst hji
      exact {
        writer := hl.writer.mono hsuf (by simp)
        hit := fun ho k => by
          have := hl.hit (ho.of_inst rfl rfl (by simp)) k
          unfold liveHit at this ⊢
          unfold OxKv.live
          rw [World.log_inst, World.setInst_inst_self, World.log_hist, liveFrom_wrote]
          exact shows_insertAll hops this
        seq := fun ho x hx => by
          rw [World.log_inst, World.setInst_inst_self]
          exact hl.seq (ho.of_inst rfl rfl (by simp)) x hx
        link := fun hst ho => by
          unfold OxKv.live
          rw [World.log_hist, liveFrom_wrote]
          simp only [Function.update_self, (hlink hst).2, applyOps_nil]
          rw [← (hlink hst).1]
          exact hl.link hst (ho.of_inst rfl rfl (by simp))
        flight := fun snap n hn => by
          obtain ⟨h0, hs, hlen, hk⟩ := hl.flight snap n hn
          refine ⟨h0, hs.trans hsuf, hlen, fun k x hx => ?_⟩
          rw [World.log_inst, World.setInst_inst_self]
          exact ⟨isSome_insertAll ops (hk k x hx).1,
            fun ho => (hk k x hx).2 (ho.of_inst rfl rfl (by simp))⟩
        free := fun hg => by
          rw [World.log_inst, World.setInst_inst_self] at hg
          exact ⟨by simp [hfree hg], (hl.free hg).2⟩ }
    · exact (h.live j hj).keep h.store (keepsLive_other hji rfl rfl hsuf rfl
        (fun b => liveFrom_wrote_ne hji b ops w.hist) rfl (by simp [hji]) rfl rfl)
  · rcases List.mem_cons.mp hm with heq | hm
    · cases heq
    · exact hm
  · intro who' ops' hm
    rcases List.mem_cons.mp hm with heq | hm
    · cases heq
      exact hready
    · exact h.wrote hm
  · have hne : i ≠ who.inst := by
      rintro rfl
      exact hi hready
    simp only [Function.update_of_ne hne]
    exact h.idle i hi

theorem Inv.stage (h : Inv M.toTrack w g) (hstaging : M.staging) (hready : g.ready who.inst)
    (hops : ∀ op ∈ ops, M.OkOp op) :
    Inv M.toTrack
      ((w.setInst who.inst { w.inst who.inst with
        mem := (w.inst who.inst).mem.insertAll ops }).log who (.wrote ops)) g := by
  have := Inv.insert (g.win who.inst) h hready hops (fun hs => absurd hstaging hs)
    (fun hg => ((h.live _ hready).free hg).1)
  rwa [Function.update_eq_self] at this

/-- A flush that is given up. -/
theorem Inv.forget (h : Inv M.toTrack w g) (i : Nat) :
    Inv M.toTrack w { g with flight := Function.update g.flight i none } := by
  have hnone : ∀ j, g.flight j = none → Function.update g.flight i none j = none := fun j hj => by
    by_cases hji : j = i
    · rw [hji, Function.update_self]
    · rw [Function.update_of_ne hji, hj]
  refine { h with
    live := fun j hj => ?_
    queue := { h.queue with }
    lin := { h.lin with }
    idle := fun j hj => ⟨(h.idle j hj).1, hnone j (h.idle j hj).2⟩ }
  have hl := h.live j hj
  refine ⟨hl.writer, hl.hit, hl.seq, hl.link, fun snap n hn => ?_,
    fun hg => ⟨(hl.free hg).1, hnone j (hl.free hg).2⟩⟩
  refine hl.flight snap n ?_
  by_cases hji : j = i
  · subst hji
    simp at hn
  · simpa [Function.update_of_ne hji] using hn

theorem Inv.apply (h : Inv M.toTrack w g) (hready : g.ready who.inst) (hwin : g.win who.inst = ops)
    (hops : ∀ op ∈ ops, M.OkOp op) :
    Inv M.toTrack
      ((w.setInst who.inst { w.inst who.inst with
        mem := (w.inst who.inst).mem.insertAll ops }).log who (.wrote ops))
      { g with
        win := Function.update g.win who.inst []
        flight := Function.update g.flight who.inst none } :=
  (Inv.insert [] h hready hops (fun _ => ⟨hwin, rfl⟩) (fun _ => rfl)).forget who.inst

/-! ## Flush -/

theorem Inv.snapshot (h : Inv M.toTrack w g) (hheld : Held who w) (hready : g.ready who.inst) :
    Inv M.toTrack (w.log who .snapshot)
      { g with
        flight := Function.update g.flight who.inst
          (some ((w.inst who.inst).mem, w.hist.length)) } := by
  have hq : HistQuiet w.hist ((who, What.snapshot) :: w.hist) :=
    HistQuiet.cons _ (by simp) (by simp) (by simp)
  refine h.sameStore hq.suffix rfl rfl rfl rfl (fun _ => id) h.handle ?_
    (h.queue.keep hq.suffix hq.pushed rfl rfl (fun _ => rfl) (fun _ _ => id) rfl
      (fun _ _ _ _ => .rfl))
    (h.replies.keep (List.prefix_refl _) hq.returned) (fun hm => h.wrote (hq.wrote hm))
    (fun i hi => by
      have hne : i ≠ who.inst := by
        rintro rfl
        exact hi hready
      simp only [Function.update_of_ne hne]
      exact h.idle i hi)
  intro j hj
  have hl := h.live j hj
  have hkeep : ∀ g' : Ghost, g'.base = g.base → g'.win = g.win → g'.dur = g.dur →
      KeepsHits w g (w.log who .snapshot) g' j := fun g' hb hw hd =>
    keepsHits_of_inst rfl hq.suffix rfl (fun b => hq.live b j) rfl rfl (le_refl _) (by rw [hb])
      (by rw [hw]) hd
  by_cases hji : j = who.inst
  · subst hji
    refine hl.keepHits h.store (hkeep _ rfl rfl rfl) ?_ (fun hg => ?_)
    · intro snap n hn
      simp only [Function.update_self, Option.some.injEq, Prod.mk.injEq] at hn
      obtain ⟨rfl, rfl⟩ := hn
      refine ⟨w.hist, hq.suffix, rfl, fun k x hx => ?_⟩
      refine ⟨by rw [World.log_inst, hx]; rfl, fun ho => ?_⟩
      have := hl.hit (ho.of_inst rfl rfl rfl) k
      unfold liveHit at this
      rw [hx] at this
      exact this
    · rw [World.log_inst, show (w.inst who.inst).gate = some who.thread from hheld] at hg
      cases hg
  · exact hl.keep h.store ⟨hkeep _ rfl rfl rfl, id, by simp [hji]⟩

theorem get?_discardFlushed (mem snap : MemMap) (k : Key) :
    (discardFlushed mem snap).get? k = if snap.get? k = mem.get? k then none else mem.get? k := by
  unfold discardFlushed
  rw [SortedMap.get?_filter]
  cases hm : mem.get? k with
  | none => simp
  | some x => by_cases hs : snap.get? k = some x <;> simp [Option.filter, hs]

theorem Inv.discard {snap : MemMap} (h : Inv M.toTrack w g) (hheld : Held who w)
    (hready : g.ready who.inst)
    (hsnap : Owns w who.inst → ∀ k x, snap.get? k = some x →
      M.Same w (some x) (sstHit M.cr w k)) :
    Inv M.toTrack
      (w.setInst who.inst { w.inst who.inst with
        mem := discardFlushed (w.inst who.inst).mem snap })
      { g with flight := Function.update g.flight who.inst none } := by
  have hl := h.live _ hready
  refine h.sameStore (List.suffix_refl _) rfl rfl rfl rfl (fun _ => id)
    (h.handle.setFields (le_refl _) (le_refl _) ?_)
    ?_ (h.queue.keepInst rfl (List.suffix_refl _) id rfl rfl rfl (fun _ => id) rfl rfl)
    (h.replies.keep (List.prefix_refl _) (fun _ _ _ _ => id)) h.wrote
    (fun i hi => ⟨(h.idle i hi).1, by simp [Function.update_apply, (h.idle i hi).2]⟩)
  · rintro ⟨k, x⟩ hop
    rw [SortedMap.mem_toList, get?_discardFlushed] at hop
    split at hop
    · cases hop
    · exact h.handle.memOk _ _ ((SortedMap.mem_toList ..).mpr hop)
  intro j hj
  by_cases hji : j = who.inst
  · subst hji
    exact {
      writer := hl.writer.mono (List.suffix_refl _) (by simp)
      hit := fun ho k => by
        have ho : Owns w who.inst := ho.of_inst rfl rfl (by simp)
        have hk := hl.hit ho k
        unfold liveHit at hk ⊢
        rw [World.setInst_inst_self]
        rw [get?_discardFlushed]
        split
        · rename_i heq
          -- a discarded entry is the one the flush has published
          cases hm : (w.inst who.inst).mem.get? k with
          | none =>
            rw [hm] at hk
            exact hk
          | some x =>
            rw [hm] at hk heq
            exact hsnap ho k x heq _ hk
        · exact hk
      seq := fun ho x hx => by
        rw [World.setInst_inst_self]
        exact hl.seq (ho.of_inst rfl rfl (by simp)) x hx
      link := fun hst ho => hl.link hst (ho.of_inst rfl rfl (by simp))
      flight := fun snap n hn => by simp at hn
      free := fun hg => by
        rw [World.setInst_inst_self] at hg
        rw [show (w.inst who.inst).gate = some who.thread from hheld] at hg
        cases hg }
  · exact (h.live j hj).keep h.store (keepsLive_other hji rfl rfl (List.suffix_refl _) rfl
      (fun _ => rfl) rfl rfl (by simp [hji]) rfl)

end OxKv
