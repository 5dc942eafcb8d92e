import OxKv.Spec.PreserveManifest

/-!
What an effect leaves alone: one lemma for each part of the state, over all
effects.
-/

namespace OxKv

variable {M : Mode} {who : Who} {s s' : State}

namespace Effect

/-! ## History and objects -/

section Effect

variable (h : Effect M who s s')

include h

theorem hist_eq : ∃ t, s'.1.hist = t ++ s.1.hist ∧ ∀ x ∈ t, x.1 = who := by
  cases h <;> first
    | exact ⟨[], rfl, by simp⟩
    | exact ⟨[_], rfl, by simp⟩

theorem hist : s.1.hist <:+ s'.1.hist := by
  obtain ⟨t, ht, -⟩ := h.hist_eq
  exact ⟨t, ht.symm⟩

/-- Objects of a path change only by a write of the holder of the gate. -/
theorem archive (p : ObjectPath) :
    s'.1.archive p = s.1.archive p ∨ Held who s.1 ∧ Writer s.1 who.inst ∧ s.1.archive p = none ∧
      p.epoch? = some (s.1.inst who.inst).epoch := by
  cases h with
  | look e he => exact .inl (by rcases he with rfl | rfl <;> rfl)
  | create q o hheld hwriter hnew hobj =>
    rw [archive_write]
    split
    · rename_i hq
      obtain ⟨rfl, hd⟩ := hq
      refine .inr ⟨hheld, hwriter, hnew, ?_⟩
      cases hobj <;> rfl
    · exact .inl rfl
  | canary o | acquire r => exact .inl (by rw [archive_write_other rfl])
  | list | flush | clear | drop | merge => exact .inl (by rw [archive_publish])
  | _ => exact .inl rfl

theorem grows : Grows s.1.archive s'.1.archive := by
  intro p o hp
  rcases h.archive p with heq | ⟨-, -, hnone, -⟩
  · rw [heq]
    exact hp
  · rw [hnone] at hp
    cases hp

end Effect

/-! ## Handles -/

/-- Another handle is not touched. -/
structure SameHandle (s s' : State) (j : Nat) : Prop where
  inst : s'.1.inst j = s.1.inst j
  win : s'.2.win j = s.2.win j
  flight : s'.2.flight j = s.2.flight j
  base : s'.2.base j = s.2.base j
  ready : s'.2.ready j = s.2.ready j
  live : ∀ b, liveFrom b j s'.1.hist = liveFrom b j s.1.hist

theorem other (h : Effect M who s s') {j : Nat} (hj : j ≠ who.inst) : SameHandle s s' j := by
  have hne : ∀ (w : World) (y : Inst), (w.setInst who.inst y).inst j = w.inst j :=
    fun w y => World.setInst_inst_ne _ _ _ hj
  cases h with
  | look e he =>
    exact ⟨rfl, rfl, rfl, rfl, rfl, fun _ => liveFrom_log (by rcases he with rfl | rfl <;> simp) _⟩
  | tune | lock => exact ⟨hne _ _, rfl, rfl, rfl, rfl, fun _ => rfl⟩
  | unlock =>
    exact ⟨hne _ _, rfl, Function.update_of_ne hj .., rfl, rfl, fun _ => liveFrom_log (by simp) _⟩
  | handle | replay => exact ⟨hne _ _, rfl, rfl, rfl, rfl, fun _ => rfl⟩
  | ready =>
    exact ⟨hne _ _, rfl, rfl, Function.update_of_ne hj .., Function.update_of_ne hj .., fun _ => rfl⟩
  | list =>
    exact ⟨rfl, Function.update_of_ne hj .., rfl, rfl, rfl, fun _ => liveFrom_log (by simp) _⟩
  | stage => exact ⟨hne _ _, rfl, rfl, rfl, rfl, fun _ => liveFrom_wrote_ne hj ..⟩
  | apply =>
    exact ⟨hne _ _, Function.update_of_ne hj .., Function.update_of_ne hj .., rfl, rfl,
      fun _ => liveFrom_wrote_ne hj ..⟩
  | snapshot =>
    exact ⟨rfl, rfl, Function.update_of_ne hj .., rfl, rfl, fun _ => liveFrom_log (by simp) _⟩
  | discard => exact ⟨hne _ _, rfl, Function.update_of_ne hj .., rfl, rfl, fun _ => rfl⟩
  | push | drain => exact ⟨hne _ _, rfl, rfl, rfl, rfl, fun _ => liveFrom_log (by simp) _⟩
  | idle | uncanary | erase | take => exact ⟨rfl, rfl, rfl, rfl, rfl, fun _ => rfl⟩
  | _ => exact ⟨rfl, rfl, rfl, rfl, rfl, fun _ => liveFrom_log (by simp) _⟩

/-- What stays of a handle in use. -/
structure SameUse (s s' : State) (i : Nat) : Prop where
  epoch : (s'.1.inst i).epoch = (s.1.inst i).epoch
  session : (s'.1.inst i).session = (s.1.inst i).session
  skip : (s'.1.inst i).skipRevalidation = (s.1.inst i).skipRevalidation
  base : s'.2.base i = s.2.base i
  ready : s'.2.ready i

theorem SameUse.trans {s'' : State} {i : Nat} (h : SameUse s s' i)
    (h' : SameUse s' s'' i) : SameUse s s'' i :=
  ⟨h'.epoch.trans h.epoch, h'.session.trans h.session, h'.skip.trans h.skip,
    h'.base.trans h.base, h'.ready⟩

theorem use (h : Effect M who s s') {i : Nat} (hr : s.2.ready i) : SameUse s s' i := by
  by_cases hi : i = who.inst
  · subst hi
    cases h with
    | tune y hy => exact ⟨by simp [hy.epoch], by simp [hy.session], by simp [hy.skip], rfl, hr⟩
    | handle _ _ _ _ _ _ hready | replay _ _ hready | ready _ _ _ _ hready =>
      exact absurd hr hready
    | lock | unlock | stage | apply | discard | push | drain =>
      exact ⟨by simp, by simp, by simp, rfl, hr⟩
    | _ => exact ⟨rfl, rfl, rfl, rfl, hr⟩
  · have := h.other hi
    exact ⟨by rw [this.inst], by rw [this.inst], by rw [this.inst], this.base, this.ready ▸ hr⟩

/-- What a thread without the gate leaves alone in a handle in use. -/
structure SameWork (M : Mode) (s s' : State) (i : Nat) : Prop where
  walSeq : (s'.1.inst i).walSeq = (s.1.inst i).walSeq
  sstSeq : (s'.1.inst i).sstSeq = (s.1.inst i).sstSeq
  win : s'.2.win i = s.2.win i
  flight : s'.2.flight i = s.2.flight i
  gate : (s.1.inst i).gate ≠ none → (s'.1.inst i).gate = (s.1.inst i).gate
  mem : ¬ M.staging → (s'.1.inst i).mem = (s.1.inst i).mem
  live : ¬ M.staging → ∀ b, liveFrom b i s'.1.hist = liveFrom b i s.1.hist

section Effect

variable (h : Effect M who s s')

include h

theorem work {i : Nat} (hr : s.2.ready i) (hno : i = who.inst → ¬ Held who s.1) :
    SameWork M s s' i := by
  by_cases hi : i = who.inst
  · subst hi
    have hno := hno rfl
    cases h with
    | look e he =>
      exact ⟨rfl, rfl, rfl, rfl, fun _ => rfl, fun _ => rfl,
        fun _ _ => liveFrom_log (by rcases he with rfl | rfl <;> simp) _⟩
    | tune y hy =>
      have hcnt := hy.held.resolve_left fun hc => hno hc.1
      exact ⟨by simp [hcnt.1], by simp [hcnt.2], rfl, rfl, by simp [hy.gate], by simp [hy.mem],
        fun _ _ => rfl⟩
    | lock hgate =>
      exact ⟨by simp, by simp, rfl, rfl, fun hg => absurd hgate hg, by simp, fun _ _ => rfl⟩
    | unlock hheld | create p o hheld | erase p hheld => exact absurd hheld hno
    | handle _ _ _ _ _ _ hready | replay _ _ hready | ready _ _ _ _ hready =>
      exact absurd hr hready
    | list _ _ _ _ _ hheld | flush _ _ _ _ hheld | clear _ hheld | drop _ _ _ hheld
    | merge _ _ _ _ hheld => exact absurd hheld hno
    | stage ops hstaging =>
      exact ⟨by simp, by simp, rfl, rfl, by simp, fun hs => absurd hstaging hs,
        fun hs => absurd hstaging hs⟩
    | apply _ hheld | snapshot hheld | discard _ hheld => exact absurd hheld hno
    | push =>
      exact ⟨by simp, by simp, rfl, rfl, by simp, by simp, fun _ _ => liveFrom_log (by simp) _⟩
    | drain _ hheld | send _ _ hheld => exact absurd hheld hno
    | idle | uncanary | take =>
      exact ⟨rfl, rfl, rfl, rfl, fun _ => rfl, fun _ => rfl, fun _ _ => rfl⟩
    | _ =>
      exact ⟨rfl, rfl, rfl, rfl, fun _ => rfl, fun _ => rfl, fun _ _ => liveFrom_log (by simp) _⟩
  · have := h.other hi
    exact ⟨by rw [this.inst], by rw [this.inst], this.win, this.flight, fun _ => by rw [this.inst],
      fun _ => by rw [this.inst], fun _ => this.live⟩

/-! ## Ownership -/

theorem topEpoch : s.1.st.topEpoch ≤ s'.1.st.topEpoch ∧
      (M.solo ∨ M.multi ∨ s'.1.st.topEpoch = s.1.st.topEpoch) := by
  have hwrite : ∀ {w : World} {p : ObjectPath} {o : Obj}, p ≠ .ownership →
      (w.write who p o).st.topEpoch = w.st.topEpoch := fun hp =>
    topEpoch_eq (lookup_write_ne (Ne.symm hp) _ _ _)
  have hdel : ∀ {w : World} {p : ObjectPath}, p ≠ .ownership →
      (w.st.delete p).topEpoch = w.st.topEpoch := fun hp =>
    topEpoch_eq (Storage.lookup_delete_ne _ (Ne.symm hp))
  have hsame : s'.1.st.topEpoch = s.1.st.topEpoch → s.1.st.topEpoch ≤ s'.1.st.topEpoch ∧
      (M.solo ∨ M.multi ∨ s'.1.st.topEpoch = s.1.st.topEpoch) := fun heq =>
    ⟨le_of_eq heq.symm, Or.inr (.inr heq)⟩
  cases h with
  | create p o _ _ _ hobj =>
    refine hsame (hwrite ?_)
    cases hobj <;> nofun
  | canary o => exact hsame (hwrite nofun)
  | uncanary => exact hsame (hdel nofun)
  | erase p _ _ hp =>
    refine hsame (hdel ?_)
    cases hp <;> nofun
  | acquire r hmode hr =>
    rename_i w g
    have hle : w.st.topEpoch ≤ (w.write who .ownership (.ownership r)).st.topEpoch := by
      rw [topEpoch_write_owner, hr]
      exact Nat.le_succ _
    exact ⟨hle, hmode.imp id Or.inl⟩
  | list | flush | clear | drop | merge => exact hsame (hwrite nofun)
  | _ => exact hsame rfl

/-- Ownership of a handle in use is only lost. -/
theorem owns (hi : Inv M.toTrack s.1 s.2) {i : Nat} (hr : s.2.ready i) (ho : Owns s'.1 i) :
    Owns s.1 i := by
  have hw := (hi.live i hr).writer
  refine ⟨hw, le_antisymm ?_ (hi.handle.epochLe i)⟩
  have hle := h.topEpoch.1
  rw [ho.2, (h.use hr).epoch] at hle
  exact hle

/-- It is lost only to a takeover. -/
theorem owns_of_single (hs : ¬ M.solo) (hm : ¬ M.multi)
    {i : Nat} (hr : s.2.ready i) (ho : Owns s.1 i) : Owns s'.1 i := by
  have htop := (h.topEpoch.2.resolve_left hs).resolve_left hm
  refine ⟨ho.1.mono h.hist (h.use hr).epoch, ?_⟩
  rw [htop, (h.use hr).epoch]
  exact ho.2

/-! ## Manifest -/

theorem manifest : s'.1.st.lookup .manifest = s.1.st.lookup .manifest ∧ s'.2.lin = s.2.lin ∨
      Held who s.1 ∧ (M.solo ∨ Owns s.1 who.inst) := by
  cases h with
  | create p o _ _ _ hobj =>
    refine .inl ⟨lookup_write_ne ?_ _ _ _, rfl⟩
    cases hobj <;> nofun
  | canary o => exact .inl ⟨lookup_write_ne (p := .canary) (q := .manifest) nofun _ _ _, rfl⟩
  | uncanary => exact .inl ⟨Storage.lookup_delete_ne _ nofun, rfl⟩
  | erase p _ _ hp =>
    refine .inl ⟨Storage.lookup_delete_ne _ ?_, rfl⟩
    cases hp <;> nofun
  | acquire r => exact .inl ⟨lookup_write_ne (p := .ownership) (q := .manifest) nofun _ _ _, rfl⟩
  | list _ _ _ _ _ hheld howns | flush _ _ _ _ hheld howns => exact .inr ⟨hheld, Or.inr howns⟩
  | clear _ hheld howns | drop _ _ _ hheld howns => exact .inr ⟨hheld, howns⟩
  | merge _ _ _ _ hheld howns => exact .inr ⟨hheld, Or.inr howns⟩
  | _ => exact .inl ⟨rfl, rfl⟩

/-- The listing order grows by entries of the acting thread. -/
theorem lin : ∃ t, s'.2.lin = s.2.lin ++ t ∧ ∀ e ∈ t, e.who = who := by
  cases h with
  | list => exact ⟨[_], rfl, by simp⟩
  | _ => exact ⟨[], by simp, by simp⟩

/-- A newly listed write was in the batch of the acting leader. -/
theorem listedId {id : Nat} (hid : ∃ e ∈ s'.2.lin, id ∈ e.ids) :
    (∃ e ∈ s.2.lin, id ∈ e.ids) ∨ Held who s.1 ∧ ∃ pw, s.2.slot id = .opened who.inst pw := by
  cases h with
  | list _ _ _ _ _ hheld _ _ _ _ _ hok =>
    obtain ⟨e, he, hide⟩ := hid
    rcases List.mem_append.mp he with he | he
    · exact .inl ⟨e, he, hide⟩
    · rw [List.mem_singleton.mp he] at hide
      rcases hok.batch with hnil | ⟨batch, hb⟩
      · simp [hnil] at hide
      · simp only [hb.idsEq, List.mem_map] at hide
        obtain ⟨pw, hpw, rfl⟩ := hide
        exact .inr ⟨hheld, pw, hb.opened pw hpw⟩
  | _ => exact .inl hid

end Effect

/-! ## Listed files -/

/-- The files a new manifest lists beside the old ones: new files of the acting
thread. -/
structure NewFile (who : Who) (w : World) (p : ObjectPath) : Prop where
  held : Held who w
  owns : Owns w who.inst
  epoch : p.epoch? = some (w.inst who.inst).epoch
  fresh : ¬ WasListed (stores w.hist) p

theorem files (h : Effect M who s s') :
    (∀ p ∈ s'.1.manifest.wal, p ∈ s.1.manifest.wal ∨ NewFile who s.1 p) ∧
      ∀ x ∈ s'.1.manifest.sst, x ∈ s.1.manifest.sst ∨ NewFile who s.1 x.id := by
  have keep (hm : s'.1.manifest = s.1.manifest) :
      (∀ p ∈ s'.1.manifest.wal, p ∈ s.1.manifest.wal ∨ NewFile who s.1 p) ∧
        ∀ x ∈ s'.1.manifest.sst, x ∈ s.1.manifest.sst ∨ NewFile who s.1 x.id := by
    rw [hm]
    exact ⟨fun _ => .inl, fun _ => .inl⟩
  cases h with
  | create q o _ _ _ hobj => exact keep (manifest_write_ne (by cases hobj <;> nofun) ..)
  | canary o | acquire r => exact keep (manifest_write_ne (by simp) ..)
  | uncanary => exact keep (manifest_eq (Storage.lookup_delete_ne _ nofun))
  | erase q _ _ hq => exact keep (manifest_eq (Storage.lookup_delete_ne _ (by cases hq <;> nofun)))
  | list m path ids ops updates hheld howns hready hwin hwal hsst hok =>
    simp only [manifest_write, hwal, hsst, List.mem_append, List.mem_singleton]
    refine ⟨?_, fun _ => .inl⟩
    rintro p (hp | rfl)
    · exact .inl hp
    · obtain ⟨n, rfl⟩ := hok.pathEq
      exact .inr ⟨hheld, howns, rfl, hok.fresh⟩
  | flush m entry snap n hheld howns hready hwin hwal hsst hentry =>
    simp only [manifest_write, hwal, hsst, List.mem_append, List.mem_singleton]
    refine ⟨fun _ => .inl, ?_⟩
    rintro x (hx | rfl)
    · exact .inl hx
    · exact .inr ⟨hheld, howns, by rw [hentry.idEq]; rfl, hentry.fresh⟩
  | clear m _ _ hwal hsst =>
    simp only [manifest_write, hwal, hsst]
    exact ⟨nofun, fun _ => .inl⟩
  | drop m _ _ _ _ hwal _ hsst =>
    simp only [manifest_write, hwal, hsst]
    exact ⟨fun _ => .inl, fun _ hx => .inl (List.mem_of_mem_filter hx)⟩
  | merge m l0 l1 entry hheld howns hready hwal hin hsst hentry =>
    simp only [manifest_write, hwal, hsst, installed, List.mem_insertionSort, List.mem_append,
      List.mem_singleton]
    refine ⟨fun _ => .inl, ?_⟩
    rintro x (hx | rfl)
    · exact .inl (List.mem_of_mem_filter hx)
    · exact .inr ⟨hheld, howns, by rw [hentry.idEq]; rfl, hentry.fresh⟩
  | _ => exact keep rfl

end Effect

/-- What the current manifest lists was listed. -/
theorem Inv.wasListed {T : Track} {w : World} {g : Ghost} (h : Inv T w g) {p : ObjectPath}
    (hp : p ∈ w.manifest.wal ∨ ∃ x ∈ w.manifest.sst, x.id = p) : WasListed (stores w.hist) p := by
  unfold World.manifest at hp
  split at hp
  · rename_i m e hl
    obtain ⟨who, hm⟩ := h.store.held hl
    exact ⟨who, m, e, hm, hp⟩
  · simp [Manifest.empty] at hp

namespace Effect

/-- A stored manifest is an old one or the current one. -/
theorem stored (h : Effect M who s s') {who' : Who} {m : Manifest} {t : Etag}
    (hm : (who', ObjectPath.manifest, Obj.manifest m, t) ∈ stores s'.1.hist) :
    (who', ObjectPath.manifest, Obj.manifest m, t) ∈ stores s.1.hist ∨ s'.1.manifest = m := by
  have hne : ∀ {w : World} {q : ObjectPath} {o : Obj}, q ≠ .manifest →
      (who', ObjectPath.manifest, Obj.manifest m, t) ∈ stores (w.write who q o).hist →
      (who', ObjectPath.manifest, Obj.manifest m, t) ∈ stores w.hist := fun hq hm => by
    rcases List.mem_cons.mp hm with heq | hm
    · cases heq
      exact absurd rfl hq
    · exact hm
  have hman : ∀ {w : World} {m' : Manifest},
      (who', ObjectPath.manifest, Obj.manifest m, t) ∈
        stores (w.write who .manifest (.manifest m')).hist →
      (who', ObjectPath.manifest, Obj.manifest m, t) ∈ stores w.hist ∨
        (w.write who .manifest (.manifest m')).manifest = m := fun hm => by
    rcases List.mem_cons.mp hm with heq | hm
    · cases heq
      exact .inr (manifest_write ..)
    · exact .inl hm
  cases h with
  | look e he => exact .inl (by rcases he with rfl | rfl <;> exact hm)
  | create q o _ _ _ hobj => exact .inl (hne (by cases hobj <;> nofun) hm)
  | canary o | acquire r => exact .inl (hne (by simp) hm)
  | list | flush | clear | drop | merge => exact hman hm
  | _ => exact .inl hm

theorem wasListed (h : Effect M who s s') (hi : Inv M.toTrack s.1 s.2) {p : ObjectPath}
    (hp : WasListed (stores s'.1.hist) p) :
    WasListed (stores s.1.hist) p ∨ NewFile who s.1 p := by
  obtain ⟨who', m, t, hm, hp⟩ := hp
  rcases h.stored hm with hm | rfl
  · exact .inl ⟨who', m, t, hm, hp⟩
  · rcases hp with hp | ⟨x, hx, rfl⟩
    · exact (h.files.1 _ hp).imp (fun hp => hi.wasListed (.inl hp)) id
    · exact (h.files.2 _ hx).imp (fun hx => hi.wasListed (.inr ⟨x, hx, rfl⟩)) id

/-! ## Objects in storage -/

/-- An object in storage stays unless it is deleted by a thread that may. -/
theorem present (h : Effect M who s s') {p : ObjectPath} (hp : ∃ y, s.1.st.lookup p = some y)
    (hc : p ≠ .canary) :
    (∃ y, s'.1.st.lookup p = some y) ∨
      Held who s.1 ∧ Writer s.1 who.inst ∧ Erasable M who s.1 p := by
  cases h with
  | create q o | canary o => exact .inl (PresentInv.lookup_write hp)
  | uncanary =>
    obtain ⟨y, hy⟩ := hp
    exact .inl ⟨y, by rw [← hy]; exact Storage.lookup_delete_ne _ hc⟩
  | erase q hheld hwriter hq =>
    by_cases hqp : p = q
    · subst hqp
      exact .inr ⟨hheld, hwriter, hq⟩
    · obtain ⟨y, hy⟩ := hp
      exact .inl ⟨y, by rw [← hy]; exact Storage.lookup_delete_ne _ hqp⟩
  | acquire r | list | flush | clear | drop | merge => exact .inl (PresentInv.lookup_write hp)
  | _ => exact .inl hp

/-! ## Group commit -/

/-- How a slot may change. -/
inductive SlotStep (who : Who) (w : World) : Slot → Slot → Prop where
  | same {x y : Slot} (h : y = x) : SlotStep who w x y
  | take : SlotStep who w .free (.taken who)
  | push (pw : PendingWrite) : SlotStep who w (.taken who) (.queued who.inst pw)
  | drain (pw : PendingWrite) (hheld : Held who w) :
    SlotStep who w (.queued who.inst pw) (.opened who.inst pw)
  | send (pw : PendingWrite) (r : Res Unit) (hheld : Held who w) :
    SlotStep who w (.opened who.inst pw) (.settled pw r)

theorem slot (h : Effect M who s s') (hi : Inv M.toTrack s.1 s.2) (id : Nat) :
    SlotStep who s.1 (s.2.slot id) (s'.2.slot id) := by
  cases h with
  | take =>
    rename_i w g
    by_cases hid : id = w.pendingCtr
    · dsimp only
      rw [hid, (hi.queue.free _).mp (le_refl _), Function.update_self]
      exact .take
    · exact .same (Function.update_of_ne hid ..)
  | push pw htaken =>
    by_cases hid : id = pw.id
    · dsimp only
      rw [hid, htaken, Function.update_self]
      exact .push pw
    · exact .same (Function.update_of_ne hid ..)
  | drain max hheld =>
    rename_i w g
    rcases drainSlots_cases hi.queue (i := who.inst) ((w.inst who.inst).pending.take max)
      (fun pw hpw => List.mem_of_mem_take hpw) id with ⟨pw, -, -, hs, hs'⟩ | ⟨-, hs⟩
    · dsimp only at hs hs' ⊢
      rw [hs, hs']
      exact .drain pw hheld
    · exact .same hs
  | send pw r hheld hopen =>
    by_cases hid : id = pw.id
    · dsimp only
      rw [hid, hopen, Function.update_self]
      exact .send pw r hheld
    · exact .same (Function.update_of_ne hid ..)
  | _ => exact .same rfl

/-- Queues grow at the end; the holder of the gate takes from the front. -/
theorem pending (h : Effect M who s s') (i : Nat) :
    ∃ d t, (s'.1.inst i).pending = (s.1.inst i).pending.drop d ++ t ∧
      (d = 0 ∨ t = [] ∧ Held who s.1 ∧ who.inst = i) := by
  by_cases hi : i = who.inst
  · subst hi
    cases h with
    | tune y hy => exact ⟨0, [], by simp [hy.pending], Or.inl rfl⟩
    | handle _ _ _ _ _ _ _ _ hpending => exact ⟨0, [], by simp [hpending, Inst.new], Or.inl rfl⟩
    | push pw => exact ⟨0, [pw], by simp, Or.inl rfl⟩
    | drain max hheld => exact ⟨max, [], by simp, Or.inr ⟨rfl, hheld, rfl⟩⟩
    | _ => exact ⟨0, [], by simp, Or.inl rfl⟩
  · exact ⟨0, [], by rw [(h.other hi).inst]; simp, Or.inl rfl⟩

end Effect

/-! ## The listed files -/

/-- How the list of files may change. -/
inductive Relists (M : Mode) (who : Who) (w : World) (g : Ghost) : List SstMeta → Prop where
  | same : Relists M who w g w.manifest.sst
  | flush (entry : SstMeta) (snap : MemMap) (n : Nat) (howns : Owns w who.inst)
      (hentry : NewEntry M who w 0 entry)
      (hflight : g.flight who.inst = some (snap, n)) (hsnap : HoldsSnapshot M w entry.id snap) :
      Relists M who w g (w.manifest.sst ++ [entry])
  | drop (l0 l1 : List SstMeta) (hin : compactionInputs w.manifest.sst = some (l0, l1)) :
      Relists M who w g (withoutInputs (l0 ++ l1) w.manifest.sst)
  | merge (l0 l1 : List SstMeta) (entry : SstMeta)
      (hin : compactionInputs w.manifest.sst = some (l0, l1)) (hentry : NewEntry M who w 1 entry)
      (hmerge : HoldsMerge M w entry.id l0 l1) :
      Relists M who w g (installed (l0 ++ l1) entry w.manifest.sst)

/-- An event other than the publication of a manifest. -/
def What.Unlisting (e : What) : Prop := ∀ o t, e ≠ .stored .manifest o t

/-- An effect publishes a manifest or leaves it alone. -/
theorem Effect.relists (h : Effect M who s s') :
    (s'.1.st.lookup .manifest = s.1.st.lookup .manifest ∧
      ∃ t, s'.1.hist = t ++ s.1.hist ∧ ∀ x ∈ t, x.2.Unlisting) ∨
    ∃ m, s'.1 = s.1.write who .manifest (.manifest m) ∧ s'.2.flight = s.2.flight ∧
      Relists M who s.1 s.2 m.sst := by
  have hcons : ∀ {w : World} {e : What}, e.Unlisting →
      ∃ t, (who, e) :: w.hist = t ++ w.hist ∧ ∀ x ∈ t, x.2.Unlisting :=
    fun {_ e} he => ⟨[(who, e)], rfl, by simpa using he⟩
  cases h with
  | look e he => exact .inl ⟨rfl, hcons (by rcases he with rfl | rfl <;> nofun)⟩
  | create p o _ _ _ hobj =>
    refine .inl ⟨lookup_write_ne (by cases hobj <;> nofun) _ _ _, hcons ?_⟩
    cases hobj <;> nofun
  | canary o =>
    exact .inl ⟨lookup_write_ne (p := .canary) (q := .manifest) nofun _ _ _, hcons nofun⟩
  | uncanary => exact .inl ⟨Storage.lookup_delete_ne _ nofun, [], rfl, by simp⟩
  | erase p _ _ hp =>
    exact .inl ⟨Storage.lookup_delete_ne _ (by cases hp <;> nofun), [], rfl, by simp⟩
  | acquire r =>
    exact .inl ⟨lookup_write_ne (p := .ownership) (q := .manifest) nofun _ _ _, hcons nofun⟩
  | list m path ids ops updates hheld howns hready hwin hwal hsst hok =>
    exact .inr ⟨m, rfl, rfl, hsst ▸ .same⟩
  | flush m entry snap n hheld howns hready hwin hwal hsst hentry hflight hsnap hmem hgap =>
    exact .inr ⟨m, rfl, rfl, hsst ▸ .flush entry snap n howns hentry hflight hsnap⟩
  | clear m hheld howns hwal hsst hcovered => exact .inr ⟨m, rfl, rfl, hsst ▸ .same⟩
  | drop m l0 l1 hheld howns hwal hin hsst hdead =>
    exact .inr ⟨m, rfl, rfl, hsst ▸ .drop l0 l1 hin⟩
  | merge m l0 l1 entry hheld howns hready hwal hin hsst hentry hmerge =>
    exact .inr ⟨m, rfl, rfl, hsst ▸ .merge l0 l1 entry hin hentry hmerge⟩
  | unlock | stage | apply | snapshot | push | drain | send | mark =>
    exact .inl ⟨rfl, hcons nofun⟩
  | _ => exact .inl ⟨rfl, [], rfl, by simp⟩

end OxKv
