import OxKv.Proc.Manifest

/-!
The holder of a write gate: what it knows, what it keeps while it writes data
objects, and the specifications of the steps it is made of.

* `Using`, `Gated`: a thread on an open handle, and one that holds its gate;
* `Worked`, `Tended`: what is kept while the holder of the gate maintains the store,
  and while it only prepares an update;
* `checkOwnership_safe`, `nextSstSeq_safe`, `createVerified_safe`;
* `casBind`: the rule of a conditional manifest write.
-/

namespace OxKv

variable {M : Mode} {who : Who} {s s' s'' : State} {cx : Ctx}

/-! ## Threads on an open handle -/

/-- A thread that uses an open handle. -/
structure Using (M : Mode) (who : Who) (cx : Ctx) (s : State) : Prop
    extends Reading M who s where
  ready : s.2.ready who.inst
  crates : cx.crates = M.cr
  epoch : cx.epoch = (s.1.inst who.inst).epoch
  record : ∃ who' t, who'.inst = who.inst ∧
    (who', ObjectPath.ownership, Obj.ownership ⟨cx.epoch, cx.session⟩, t) ∈ stores s.1.hist
  owns : ¬ M.multi → Owns s.1 who.inst

/-- A thread that holds the gate and has no listed write to apply. -/
structure Gated (M : Mode) (who : Who) (cx : Ctx) (s : State) : Prop
    extends Using M who cx s where
  held : Held who s.1
  win : s.2.win who.inst = []

namespace Using

theorem writer (h : Using M who cx s) : Writer s.1 who.inst := (h.inv.live _ h.ready).writer

theorem calm (h : Using M who cx s) (hc : Calm M who s s') (hr : Reading M who s') :
    Using M who cx s' := by
  have hf := hc.follows h.inv h.ready
  obtain ⟨who', t, hi, hm⟩ := h.record
  exact {
    toReading := hr
    ready := hf.use.ready
    crates := h.crates
    epoch := h.epoch.trans hf.use.epoch.symm
    record := ⟨who', t, hi, hc.stores h.inv _ hm⟩
    owns := fun hm => hf.single hm (h.owns hm) }

theorem others (h : Using M who cx s) (ho : Others M who s s') : Using M who cx s' :=
  h.calm ho.calm (h.toReading.others ho)

/-- An own step that leaves the cache, the manifest and the ownership record alone. -/
theorem own (h : Using M who cx s) (he : Effect M who s s')
    (hcache : (s'.1.inst who.inst).cache = (s.1.inst who.inst).cache)
    (hman : s'.1.st.lookup .manifest = s.1.st.lookup .manifest)
    (hown : s'.1.st.lookup .ownership = s.1.st.lookup .ownership) : Using M who cx s' := by
  have huse := he.use h.ready
  obtain ⟨who', t, hi, hm⟩ := h.record
  refine {
    inv := he.inv h.inv
    mine := .inl huse.ready
    sync := fun hskip => ?_
    ready := huse.ready
    crates := h.crates
    epoch := h.epoch.trans huse.epoch.symm
    record := ⟨who', t, hi, (stores_suffix he.hist).subset hm⟩
    owns := fun hm => ?_ }
  · rw [huse.skip] at hskip
    obtain ⟨hs, hc⟩ := h.sync hskip
    refine ⟨hs, fun m e heq => ?_⟩
    rw [hcache] at heq
    exact (hc m e heq).congr hman
  · have ho := h.owns hm
    refine ⟨ho.1.mono he.hist huse.epoch, ?_⟩
    rw [topEpoch_eq hown, huse.epoch]
    exact ho.2

end Using

namespace Gated

theorem kept (h : Gated M who cx s) (hc : Calm M who s s') : Kept M who s s' :=
  hc.kept h.inv h.ready h.held

theorem calm (h : Gated M who cx s) (hc : Calm M who s s') (hr : Reading M who s') :
    Gated M who cx s' :=
  have hk := h.kept hc
  { toUsing := h.toUsing.calm hc hr, held := hk.held, win := hk.work.win.trans h.win }

theorem others (h : Gated M who cx s) (ho : Others M who s s') : Gated M who cx s' :=
  h.calm ho.calm (h.toReading.others ho)

/-- In a run of one instance, or alone, the owner is this one. -/
theorem owner (h : Gated M who cx s) (hm : M.multi → s.1.st.topEpoch = (s.1.inst who.inst).epoch) :
    Owns s.1 who.inst := by
  by_cases hmulti : M.multi
  · exact ⟨h.writer, hm hmulti⟩
  · exact h.owns hmulti

end Gated

/-! ## What the holder of the gate keeps -/

/-- What is kept while the holder of the gate maintains the store and the others
act: nothing is written or answered. -/
structure Worked (M : Mode) (who : Who) (s s' : State) : Prop
    extends Along (·.isClient = false) who s s' where
  lin : ListedBeside who M.solo s.2.lin s'.2.lin
  owns : Owns s'.1 who.inst → Owns s.1 who.inst
  win : s'.2.win who.inst = s.2.win who.inst
  live : M.solo ∨ ¬ M.staging → ∀ b,
    liveFrom b who.inst s'.1.hist = liveFrom b who.inst s.1.hist
  opened : ∀ id pw, s'.2.slot id = .opened who.inst pw ↔ s.2.slot id = .opened who.inst pw
  listedId : ∀ id pw, s.2.slot id = .opened who.inst pw → (∃ e ∈ s'.2.lin, id ∈ e.ids) →
    ∃ e ∈ s.2.lin, id ∈ e.ids
  queue : (s.1.inst who.inst).pending <+: (s'.1.inst who.inst).pending
  alone : M.solo → (s'.1.inst who.inst).walBuffer = (s.1.inst who.inst).walBuffer ∧
    (s'.1.inst who.inst).pending = (s.1.inst who.inst).pending ∧ s'.2.slot = s.2.slot

/-- What is kept while it only writes data objects and takes sequence numbers. -/
structure Tended (M : Mode) (who : Who) (s s' : State) : Prop
    extends Worked M who s s' where
  flight : s'.2.flight who.inst = s.2.flight who.inst
  mem : M.solo ∨ ¬ M.staging → (s'.1.inst who.inst).mem = (s.1.inst who.inst).mem
  manifest : M.solo ∨ Owns s'.1 who.inst →
    s'.1.st.lookup .manifest = s.1.st.lookup .manifest ∧ s'.2.lin = s.2.lin
  wal : ∀ e n, e ≤ (s.1.inst who.inst).epoch → .wal e n ∈ s'.1.manifest.wal →
    .wal e n ∈ s.1.manifest.wal
  sst : ∀ x ∈ s'.1.manifest.sst, x ∈ s.1.manifest.sst ∨ ¬ WasListed (stores s.1.hist) x.id

theorem Kept.tended (h : Kept M who s s') : Tended M who s s' where
  toAlong := h.toAlong.mono fun e he => by rcases he with rfl | rfl <;> rfl
  lin := h.lin
  owns := h.owns
  win := h.work.win
  flight := h.work.flight
  mem hor := hor.elim
    (fun hs => by obtain ⟨c, f, hc⟩ := (h.solo hs).inst who.inst; rw [hc]) h.work.mem
  live hor := hor.elim (fun hs b => (h.solo hs).live b _) h.work.live
  manifest := h.manifest
  wal := h.wal
  sst := h.sst
  opened := h.opened
  listedId := h.listedId
  queue := h.queue
  alone hs := by
    obtain ⟨c, f, hc⟩ := (h.solo hs).inst who.inst
    rw [hc, (h.solo hs).ghost]
    exact ⟨rfl, rfl, rfl⟩

theorem Worked.trans (h : Worked M who s s') (h' : Worked M who s' s'') : Worked M who s s'' where
  toAlong := h.toAlong.trans h'.toAlong
  lin := h.lin.trans h'.lin
  owns ho := h.owns (h'.owns ho)
  win := h'.win.trans h.win
  live hor b := (h'.live hor b).trans (h.live hor b)
  opened id pw := (h'.opened id pw).trans (h.opened id pw)
  listedId id pw ho hl := h.listedId id pw ho (h'.listedId id pw ((h.opened id pw).mpr ho) hl)
  queue := h.queue.trans h'.queue
  alone hs := ⟨(h'.alone hs).1.trans (h.alone hs).1, (h'.alone hs).2.1.trans (h.alone hs).2.1,
    (h'.alone hs).2.2.trans (h.alone hs).2.2⟩

/-- An own step that writes and answers nothing. -/
theorem Worked.own (he : Effect M who s s') (hi : Inv M.toTrack s.1 s.2) (hr : s.2.ready who.inst)
    (hhist : ∃ t, s'.1.hist = t ++ s.1.hist ∧
      ∀ x ∈ t, x.2.isClient = false ∧ ∀ ops, x.2 ≠ .wrote ops)
    (hlin : s'.2.lin = s.2.lin) (hwin : s'.2.win = s.2.win) (hslot : s'.2.slot = s.2.slot)
    (hpending : (s'.1.inst who.inst).pending = (s.1.inst who.inst).pending)
    (hbuffer : (s'.1.inst who.inst).walBuffer = (s.1.inst who.inst).walBuffer) :
    Worked M who s s' where
  toAlong := by
    obtain ⟨t, ht, hall⟩ := hhist
    exact he.along hr ⟨t, ht, fun x hx => (hall x hx).1⟩ hslot
  lin := hlin ▸ .refl _
  owns := he.owns hi hr
  win := by rw [hwin]
  live _ b := by
    obtain ⟨t, ht, hall⟩ := hhist
    rw [ht, liveFrom_append fun x hx => (hall x hx).2]
  opened id pw := by rw [hslot]
  listedId id pw _ hl := by rw [hlin] at hl; exact hl
  queue := hpending ▸ List.prefix_refl _
  alone _ := ⟨hbuffer, hpending, hslot⟩

namespace Tended

theorem refl (hr : s.2.ready who.inst) (hh : Held who s.1) : Tended M who s s :=
  (Kept.refl hr hh).tended

theorem trans (h : Tended M who s s') (h' : Tended M who s' s'') : Tended M who s s'' where
  toWorked := h.toWorked.trans h'.toWorked
  flight := h'.flight.trans h.flight
  mem hor := (h'.mem hor).trans (h.mem hor)
  manifest ho := by
    have h1 := h'.manifest ho
    have h2 := h.manifest (ho.imp id h'.owns)
    exact ⟨h1.1.trans h2.1, h1.2.trans h2.2⟩
  wal e n he hp := h.wal e n he (h'.wal e n (by rw [h.use.epoch]; exact he) hp)
  sst x hx := by
    obtain ⟨t, ht, -⟩ := h.hist
    rcases h'.sst x hx with hx | hx
    · exact h.sst x hx
    · exact .inr fun hw => hx (hw.mono fun y hy => (stores_suffix ⟨t, ht.symm⟩).subset hy)

theorem own (he : Effect M who s s') (hi : Inv M.toTrack s.1 s.2) (hr : s.2.ready who.inst)
    (hghost : s'.2 = s.2)
    (hhist : ∃ t, s'.1.hist = t ++ s.1.hist ∧
      ∀ x ∈ t, x.2.isClient = false ∧ ∀ ops, x.2 ≠ .wrote ops)
    (hmem : (s'.1.inst who.inst).mem = (s.1.inst who.inst).mem)
    (hpending : (s'.1.inst who.inst).pending = (s.1.inst who.inst).pending)
    (hbuffer : (s'.1.inst who.inst).walBuffer = (s.1.inst who.inst).walBuffer)
    (hman : s'.1.st.lookup .manifest = s.1.st.lookup .manifest) : Tended M who s s' where
  toWorked := .own he hi hr hhist (by rw [hghost]) (by rw [hghost]) (by rw [hghost])
    hpending hbuffer
  flight := by rw [hghost]
  mem _ := hmem
  manifest _ := ⟨hman, by rw [hghost]⟩
  wal e n _ hp := by rw [manifest_eq hman] at hp; exact hp
  sst x hx := by rw [manifest_eq hman] at hx; exact .inl hx

end Tended

theorem useStep {β : Type} {a : Act β} {Q : β → State → Prop} (h : Using M who cx s)
    (hlive : ∀ s1, Others M who s s1 → M.solo → ∀ c, (exec who c a s1.1).isSome)
    (hstep : ∀ s1, Others M who s s1 → Using M who cx s1 → ∀ c r t, (rules M).ok c →
      exec who c a s1.1 = some (r, t) → Allowed M who a s1.1 r →
      ∃ g, Effect M who s1 (t, g) ∧ ∀ s2, Others M who (t, g) s2 → Inv M.toTrack s2.1 s2.2 →
        Q r s2) :
    IoSafe.Step (rules M) who a Q s := by
  intro s1 hr hi
  have hr : Others M who s s1 := hr
  refine ⟨fun hs c _ => hlive s1 hr hs c, fun c r t hc hx hal => ?_⟩
  obtain ⟨g, he, hQ⟩ := hstep s1 hr (h.others hr) c r t hc hx hal
  exact ⟨g, he.inv hi, he, fun s2 hr2 hi2 => hQ s2 hr2 hi2⟩

theorem ownStep {β : Type} {a : Act β} {Q : β → State → Prop} (h : Gated M who cx s)
    (hlive : ∀ w c, Held who w → (exec who c a w).isSome)
    (hstep : ∀ s1, Kept M who s s1 → Gated M who cx s1 → ∀ c r t, (rules M).ok c →
      exec who c a s1.1 = some (r, t) → Allowed M who a s1.1 r →
      ∃ g, Effect M who s1 (t, g) ∧ ∀ s2, Others M who (t, g) s2 → Inv M.toTrack s2.1 s2.2 →
        Q r s2) :
    IoSafe.Step (rules M) who a Q s :=
  useStep h.toUsing (fun s1 ho _ c => hlive s1.1 c (h.others ho).held)
    fun s1 ho _ => hstep s1 (h.kept ho.calm) (h.others ho)

/-- Weaken the postcondition of a reading procedure of the gate's holder. -/
theorem Gated.read {α : Type} {p : Io α} {Q Q' : Res α → State → Prop}
    (h : Gated M who cx s) (hp : IoSafe (readRules M) who p Q s)
    (hread : ∀ r s', Q r s' → Reading M who s')
    (hQ : ∀ r s', Kept M who s s' → Gated M who cx s' → Q r s' → Q' r s') :
    IoSafe (rules M) who p Q' s :=
  (hp.calm fun r s' _ hc hq => hQ r s' (h.kept hc) (h.calm hc (hread r s' hq)) hq).ofReads

theorem Gated.readBind {α β : Type} {p : Io α} {f : α → Io β} {F : Prop}
    {P : α → State → Prop} {Q : Res β → State → Prop} (h : Gated M who cx s)
    (hp : IoSafe (readRules M) who p (ReadEnds M who F P) s)
    (herr : ∀ e s', Kept M who s s' → Gated M who cx s' → F → Q (.error e) s')
    (hf : ∀ a s', Kept M who s s' → Gated M who cx s' → P a s' →
      IoSafe (rules M) who (f a) Q s') : IoSafe (rules M) who (p >>= f) Q s := by
  refine .bind (h.read hp (fun _ _ hq => hq.1) ?_)
  rintro (e | a) s' hk h' ⟨-, hr⟩
  · exact herr e s' hk h' hr
  · exact hf a s' hk h' hr

variable {m : Manifest} {e : Etag}

/-- A manifest that was current while the gate was held still is, unless the prefix
was taken over. -/
theorem At.current (h : At M who s s' fun s1 => Current s1.1 m e) (hg : Gated M who cx s)
    (hor : M.solo ∨ ¬ M.multi) : Current s'.1 m e := by
  obtain ⟨s1, h1, hs1, hs', hcur⟩ := h
  have hg1 := hg.calm hs1 h1
  have hk := hg1.kept hs'
  refine hcur.congr (hk.manifest ?_).1
  exact hor.imp id fun hm => hk.single hm (hg1.owns hm)

/-! ## Ownership -/

theorem readOwnership_safe (h : Reading M who s) :
    IoSafe (readRules M) who readOwnership
      (ReadEnds M who M.faults fun o s' => At M who s s' fun s1 => s1.1.st.owner = o) s := by
  refine .attemptBind ((get_safe .ownership h).mono ?_)
  rintro r s' - ⟨h', s1, h1, hs1, hs', hgot⟩
  have hat : ∀ s'' o, Others M who s' s'' → s1.1.st.owner = o →
      At M who s s'' fun s1 => s1.1.st.owner = o :=
    fun s'' o ho hp => ⟨s1, h1, hs1, hs'.trans ho.calm, hp⟩
  match r, hgot with
  | .ok (o, e), hgot =>
    have hgot : s1.1.st.lookup .ownership = some (o, e) := hgot
    obtain ⟨who', hm⟩ := h1.inv.store.held hgot
    obtain ⟨r, rfl⟩ := h1.inv.store.ownerObj hm
    have howner : s1.1.st.owner = some r := by
      unfold Storage.owner
      rw [hgot]
    exact .pure fun s'' ho _ => ⟨h'.others ho, hat s'' _ ho howner⟩
  | .error err, hgot =>
    rcases hgot with ⟨hf, rfl⟩ | ⟨hnone, rfl⟩
    · exact .fail fun s'' ho _ => ⟨h'.others ho, hf⟩
    · have howner : s1.1.st.owner = none := by
        unfold Storage.owner
        rw [hnone]
      exact .pure fun s'' ho _ => ⟨h'.others ho, hat s'' _ ho howner⟩

/-- The owner finds its own record. -/
theorem Using.ownerRecord (h : Using M who cx s) (ho : Owns s.1 who.inst) :
    s.1.st.owner = some ⟨cx.epoch, cx.session⟩ := by
  obtain ⟨who', t, hi, hm⟩ := h.record
  have hpos : 1 ≤ cx.epoch := (h.inv.handle.ownerTop hm).1
  have htop := ho.2
  rw [← h.epoch] at htop
  unfold Storage.topEpoch at htop
  cases hown : s.1.st.owner with
  | none => simp only [hown, Option.map_none, Option.getD_none] at htop; omega
  | some r =>
    simp only [hown, Option.map_some, Option.getD_some] at htop
    unfold Storage.owner at hown
    split at hown
    · rename_i r' e hl
      cases hown
      obtain ⟨who'', hm'⟩ := h.inv.store.held hl
      rw [(h.inv.handle.ownerInj hm' hm htop).2]
    · cases hown

/-- The owner passes its ownership checks. -/
theorem checkOwnership_safe (h : Using M who cx s) (missing : String) :
    IoSafe (readRules M) who (checkOwnership cx missing)
      (ReadEnds M who (M.faults ∨ M.multi) fun _ _ => True) s := by
  refine .readBind (readOwnership_safe h.toReading) .inl
    fun o s' _ h' ⟨s1, h1, hs1, _, howner⟩ => ?_
  have hfound : ¬ M.multi → o = some ⟨cx.epoch, cx.session⟩ := fun hm => by
    have hu := h.calm hs1 h1
    rw [← howner]
    exact hu.ownerRecord (hu.owns hm)
  match o with
  | none => exact .fail fun s'' ho _ => ⟨h'.others ho, by
      by_contra hc
      exact absurd (hfound fun hm => hc (.inr hm)) (by simp)⟩
  | some r =>
    show IoSafe _ _ (if r.epoch = cx.epoch ∧ r.ownerSession = cx.session then _ else _) _ _
    split
    · exact .pure fun s'' ho _ => ⟨h'.others ho, trivial⟩
    · rename_i hne
      refine .fail fun s'' ho _ => ⟨h'.others ho, ?_⟩
      by_contra hc
      obtain rfl := Option.some.inj (hfound fun hm => hc (.inr hm))
      exact hne ⟨rfl, rfl⟩

/-! ## Sequence numbers -/

variable {p : ObjectPath}

/-- The numbers of a handle that were not handed out name no object. -/
theorem Using.fresh (h : Using M who cx s)
    (hp : (∃ n, p = .wal (s.1.inst who.inst).epoch n ∧ (s.1.inst who.inst).walSeq ≤ n) ∨
      ∃ l n, p = .sst (s.1.inst who.inst).epoch l n ∧ (s.1.inst who.inst).sstSeq ≤ n) :
    s.1.archive p = none := by
  by_contra hne
  obtain ⟨o, ho⟩ := Option.ne_none_iff_exists'.mp hne
  obtain ⟨who', t, hm⟩ := mem_of_archived ho
  have hwriter := h.writer
  have hsame : ∀ {e}, p.epoch? = some e → e = (s.1.inst who.inst).epoch → who'.inst = who.inst := by
    intro e he heq
    obtain ⟨hep, hown⟩ := h.inv.handle.storedBy hm he
    exact h.inv.handle.writer_unique (by unfold Writer; rw [hep]; exact hown) hwriter
      (hep.trans heq)
  rcases hp with ⟨n, rfl, hn⟩ | ⟨l, n, rfl, hn⟩
  · have := h.inv.handle.walNum hm
    rw [hsame rfl rfl] at this
    omega
  · have := h.inv.handle.sstNum hm
    rw [hsame rfl rfl] at this
    omega

/-- The holder of the gate takes sequence numbers. -/
theorem Gated.count (h : Gated M who cx s) {walSeq sstSeq : Nat}
    (hw : (s.1.inst who.inst).walSeq ≤ walSeq) (hs : (s.1.inst who.inst).sstSeq ≤ sstSeq)
    (hs' : s' = (s.1.setInst who.inst
      { s.1.inst who.inst with walSeq := walSeq, sstSeq := sstSeq }, s.2)) :
    Effect M who s s' ∧ Gated M who cx s' ∧ Tended M who s s' := by
  subst hs'
  have he : Effect M who s (s.1.setInst who.inst
      { s.1.inst who.inst with walSeq := walSeq, sstSeq := sstSeq }, s.2) :=
    .tune _ ⟨rfl, rfl, rfl, rfl, rfl, rfl, hw, hs, Or.inl ⟨h.held, h.ready⟩,
      fun _ _ => h.inv.handle.cache, fun _ _ => h.inv.handle.sstCache,
      h.inv.handle.bufferOk _, fun hs => h.inv.handle.buffer hs _⟩
  refine ⟨he, ?_, .own he h.inv h.ready rfl ⟨[], rfl, by simp⟩ (by simp) (by simp) (by simp) rfl⟩
  refine { toUsing := h.toUsing.own he (by simp) rfl rfl, held := ?_, win := h.win }
  show ((World.setInst _ _ _).inst _).gate = _
  rw [World.setInst_inst_self]
  exact h.held

/-- A new SST number: above those of the listed files, and its paths are free. -/
theorem nextSstSeq_safe (h : Gated M who cx s) :
    IoSafe (rules M) who (Io.act .nextSstSeq) (fun r s' => ∃ n, r = .ok n ∧
      Tended M who s s' ∧ Gated M who cx s' ∧ n < (s'.1.inst who.inst).sstSeq ∧
      (Owns s'.1 who.inst → ∀ x ∈ s'.1.manifest.sst, x.seq < n) ∧
      ∀ l, s'.1.archive (.sst cx.epoch l n) = none) s := by
  refine .act (ownStep h (fun _ _ _ => rfl) fun s1 hk h1 c r t _ hx _ => ?_)
  dsimp only [exec] at hx
  obtain ⟨rfl, rfl⟩ := hx
  obtain ⟨he, h2, htend⟩ := h1.count (le_refl _) (Nat.le_succ _) rfl
  refine ⟨s1.2, he, fun s2 ho _ => ?_⟩
  have hk2 := h2.kept ho.calm
  refine ⟨_, rfl, (hk.tended.trans htend).trans hk2.tended, h2.others ho, ?_, ?_, ?_⟩
  · rw [hk2.work.sstSeq]
    simp
  · intro hown x hx
    rw [manifest_eq (hk2.manifest (.inr hown)).1] at hx
    exact (h1.inv.live _ h1.ready).seq (htend.owns (hk2.owns hown)) x hx
  · intro l
    rw [h1.epoch, hk2.objects _ (by simp [ObjectPath.epoch?])]
    exact h1.toUsing.fresh (.inr ⟨l, _, rfl, le_refl _⟩)

/-- A new WAL number: its path is free. -/
theorem nextWalSeq_safe (h : Gated M who cx s) :
    IoSafe (rules M) who (Io.act .nextWalSeq) (fun r s' => ∃ n, r = .ok n ∧
      Tended M who s s' ∧ Gated M who cx s' ∧ n < (s'.1.inst who.inst).walSeq ∧
      s'.1.archive (.wal cx.epoch n) = none) s := by
  refine .act (ownStep h (fun _ _ _ => rfl) fun s1 hk h1 c r t _ hx _ => ?_)
  dsimp only [exec] at hx
  obtain ⟨rfl, rfl⟩ := hx
  obtain ⟨he, h2, htend⟩ := h1.count (Nat.le_succ _) (le_refl _) rfl
  refine ⟨s1.2, he, fun s2 ho _ => ?_⟩
  have hk2 := h2.kept ho.calm
  refine ⟨_, rfl, (hk.tended.trans htend).trans hk2.tended, h2.others ho, ?_, ?_⟩
  · rw [hk2.work.walSeq]
    simp
  · rw [h1.epoch, hk2.objects _ (by simp [ObjectPath.epoch?])]
    exact h1.toUsing.fresh (.inl ⟨_, rfl, le_refl _⟩)

/-! ## Writing data objects -/

variable {w : World} {o : Obj}

theorem exec_putOpts {c : Choice} {mode : PutMode} {t : World} {r : Res Etag} (hc : (rules M).ok c)
    (h : exec who c (.putOpts p o mode) w = some (r, t)) :
    (r = .ok (w.st.seq + 1) ∧ t = w.write who p o ∧ w.st.Admits p mode) ∨
    ∃ err, r = .error err ∧ t = w ∧ (M.faults ∧ (M.strict → err = Fault.backend.error) ∨
      ¬ w.st.Admits p mode ∧ ∃ d, err = .casConflict d) := by
  dsimp only [exec] at h
  split at h
  · rename_i f hf
    cases h
    refine .inr ⟨_, rfl, rfl, Or.inl ?_⟩
    rcases hc with hc | ⟨hfaults, hkind⟩
    · rw [hf] at hc; cases hc
    · refine ⟨hfaults, fun hs => ?_⟩
      cases f with
      | backend => rfl
      | conflict => exact absurd hf (hkind hs)
  · split at h
    · rename_i e st' hput
      cases h
      obtain ⟨rfl, rfl, hadm⟩ := Storage.putOpts_ok hput
      exact .inl ⟨rfl, rfl, hadm⟩
    · rename_i err st' hput
      cases h
      refine .inr ⟨err, rfl, rfl, Or.inr ?_⟩
      unfold Storage.putOpts at hput
      unfold Storage.Admits
      cases mode with
      | create =>
        cases hl : w.st.lookup p with
        | none => rw [hl] at hput; cases hput
        | some x => rw [hl] at hput; cases hput; exact ⟨by simp, _, rfl⟩
      | update e =>
        cases hl : w.st.lookup p with
        | none => rw [hl] at hput; cases hput; exact ⟨by simp, _, rfl⟩
        | some x =>
          obtain ⟨o', cur⟩ := x
          rw [hl] at hput
          simp only at hput
          split at hput
          · cases hput
          · rename_i hne
            cases hput
            refine ⟨?_, _, rfl⟩
            rintro ⟨o'', heq⟩
            cases heq
            exact hne rfl

theorem exec_putOpts_isSome (w : World) (c : Choice) (p : ObjectPath) (o : Obj) (mode : PutMode) :
    (exec who c (.putOpts p o mode) w).isSome := by
  dsimp only [exec]
  split
  · rfl
  · split <;> rfl

theorem NewObject.isData (h : NewObject M who w p o) :
    p.isData = true ∧ p.epoch? = some (w.inst who.inst).epoch := by
  cases h <;> exact ⟨rfl, rfl⟩

/-- The holder of the gate writes a new object. -/
theorem Gated.create (h : Gated M who cx s) (hnew : s.1.archive p = none)
    (hobj : NewObject M who s.1 p o) (hs' : s' = (s.1.write who p o, s.2)) :
    Effect M who s s' ∧ Gated M who cx s' ∧ Tended M who s s' := by
  subst hs'
  have he : Effect M who s (s.1.write who p o, s.2) := .create p o h.held h.writer hnew hobj
  have hman : ObjectPath.manifest ≠ p := by rintro rfl; cases hobj
  have hown : ObjectPath.ownership ≠ p := by rintro rfl; cases hobj
  refine ⟨he, ?_, .own he h.inv h.ready rfl ⟨[_], rfl, by simp [What.isClient]⟩ rfl rfl rfl
    (lookup_write_ne hman ..)⟩
  exact {
    toUsing := h.toUsing.own he rfl (lookup_write_ne hman ..) (lookup_write_ne hown ..)
    held := h.held
    win := h.win }

variable {g : Ghost}

/-- Listed files were written before. -/
theorem Inv.unlisted {T : Track} (h : Inv T w g) (hnew : w.archive p = none) :
    ¬ WasListed (stores w.hist) p := by
  rintro ⟨who, m, t, hm, hp⟩
  have hl := h.store.lists hm
  rcases hp with hp | ⟨x, hx, rfl⟩
  · obtain ⟨e, n, b, -, hb⟩ := hl.wals p hp
    rw [show archived (stores w.hist) p = none from hnew] at hb
    cases hb
  · obtain ⟨f, hf⟩ := hl.ssts x hx
    rw [show archived (stores w.hist) x.id = none from hnew] at hf
    cases hf

/-- A path without an archived object is free. -/
theorem Inv.lookup_none {T : Track} (h : Inv T w g) (hp : p.isData = true)
    (hnew : w.archive p = none) : w.st.lookup p = none := by
  by_contra hne
  obtain ⟨⟨o, e⟩, hl⟩ := Option.ne_none_iff_exists'.mp hne
  obtain ⟨who, hm⟩ := h.store.held hl
  have := h.store.data hp hm
  rw [show archived (stores w.hist) p = none from hnew] at this
  cases this

/-- A data object that was written but never listed. -/
structure Unlisted (M : Mode) (who : Who) (s : State) (p : ObjectPath) (o : Obj) : Prop where
  epoch : p.epoch? = some (s.1.inst who.inst).epoch
  object : s.1.archive p = some o
  fresh : ¬ WasListed (stores s.1.hist) p
  present : M.solo ∨ Owns s.1 who.inst → ∃ y, s.1.st.lookup p = some y

theorem Unlisted.kept (h : Unlisted M who s p o) (hk : Kept M who s s') :
    Unlisted M who s' p o where
  epoch := h.epoch.trans (by rw [hk.use.epoch])
  object := hk.grows p o h.object
  fresh hw := h.fresh (hk.listed p h.epoch hw)
  present ho := hk.present ho p h.epoch h.fresh (h.present (ho.imp id hk.owns))

/-- Creating an object under a free path. -/
theorem createVerified_safe (h : Gated M who cx s) (what : String) (n : Nat)
    (hnew : s.1.archive p = none) (hobj : ∀ s1, Kept M who s s1 → NewObject M who s1.1 p o) :
    IoSafe (rules M) who (createVerified p o what n) (fun r s' => Tended M who s s' ∧
      Gated M who cx s' ∧ match r with
        | .ok _ => Unlisted M who s' p o ∧
            (s'.1.inst who.inst).sstSeq = (s.1.inst who.inst).sstSeq
        | .error _ => M.faults) s := by
  have hdata := hobj s (.refl h.ready h.held)
  refine .attemptBind (.call (ownStep h (fun _ _ _ => exec_putOpts_isSome ..)
    fun s1 hk h1 c r t hc hx _ => ?_))
  have hnew1 : s1.1.archive p = none := by rw [hk.objects p hdata.isData.2]; exact hnew
  have hnone := h1.inv.lookup_none hdata.isData.1 hnew1
  rcases exec_putOpts hc hx with ⟨rfl, rfl, -⟩ | ⟨err, rfl, rfl, herr⟩
  · obtain ⟨he, h2, ht⟩ := h1.create hnew1 (hobj s1 hk) rfl
    refine ⟨s1.2, he, fun s2 ho _ => ?_⟩
    have hk2 := h2.kept ho.calm
    refine .pure fun s3 ho3 _ => ?_
    have hk3 := (h2.others ho).kept ho3.calm
    have hun : Unlisted M who (s1.1.write who p o, s1.2) p o :=
      ⟨hdata.isData.2.trans (by rw [inst_write, hk.use.epoch]),
        archive_write_self hdata.isData.1 .., fun hw => ?_, fun _ => ⟨_, lookup_write ..⟩⟩
    · refine ⟨((hk.tended.trans ht).trans hk2.tended).trans hk3.tended,
        (h2.others ho).others ho3, (hun.kept hk2).kept hk3, ?_⟩
      rw [hk3.work.sstSeq, hk2.work.sstSeq, inst_write, hk.work.sstSeq]
    · -- the new event is no manifest
      refine h1.inv.unlisted hnew1 ?_
      obtain ⟨who', m, t, hm, hp⟩ := hw
      rcases List.mem_cons.mp hm with heq | hm
      · cases heq
        cases hdata.isData.1
      · exact ⟨who', m, t, hm, hp⟩
  · refine ⟨s1.2, .idle, fun s2 ho _ => ?_⟩
    have h2 := h1.others ho
    have hk2 := h1.kept ho.calm
    have hf : M.faults := herr.elim And.left fun hne => absurd hnone hne.1
    have hend : ∀ s3, Others M who s2 s3 → Tended M who s s3 ∧ Gated M who cx s3 := fun s3 ho3 =>
      ⟨(hk.trans (hk2.trans (h2.kept ho3.calm))).tended, h2.others ho3⟩
    cases err with
    | casConflict d =>
      -- a reported conflict; the read back fails as well
      refine .bind (.mapErr (h2.read (get_safe p h2.toReading)
        (fun _ _ hq => hq.1) fun r s3 hk3 h3 hq => ?_))
      have hend' : Tended M who s s3 := (hk.trans (hk2.trans hk3)).tended
      cases r with
      | error e => exact ⟨hend', h3, hf⟩
      | ok x =>
        -- nobody else writes under this path
        obtain ⟨-, s4, h4, hs4, -, hgot⟩ := hq
        have hfree : s4.1.st.lookup p = none := by
          refine h4.inv.lookup_none hdata.isData.1 ?_
          rw [((hk.trans hk2).trans (h2.kept hs4)).objects p hdata.isData.2]
          exact hnew
        rw [show s4.1.st.lookup p = some x from hgot] at hfree
        cases hfree
    | _ => exact .fail fun s3 ho3 _ => ⟨(hend s3 ho3).1, (hend s3 ho3).2, hf⟩

/-! ## Blobs -/

/-- The blob of a value is there. -/
theorem putBlob_safe (h : Gated M who cx s) {v : Bytes} (hv : M.strict → v ∈ M.V) :
    IoSafe (rules M) who (putBlob cx v) (fun r s' => Tended M who s s' ∧ Gated M who cx s' ∧
      match r with
        | .ok p => (∃ e h, p = .blob e h) ∧ (M.strict → s'.1.archive p = some (.bytes v))
        | .error _ => M.faults) s := by
  have hpath : cx.crates.blobHash v = M.cr.blobHash v := by rw [h.crates]
  refine .attemptBind (.call (ownStep h (fun _ _ _ => exec_putOpts_isSome ..)
    fun s1 hk h1 c r t hc hx _ => ?_))
  have hobj : NewObject M who s1.1 (.blob cx.epoch (cx.crates.blobHash v)) (.bytes v) := by
    rw [h1.epoch, hpath]
    exact .blob _ v fun hs => ⟨hv hs, rfl⟩
  rcases exec_putOpts hc hx with ⟨rfl, rfl, hadm⟩ | ⟨err, rfl, rfl, herr⟩
  · have hnew : s1.1.archive (.blob cx.epoch (cx.crates.blobHash v)) = none := by
      by_contra hne
      obtain ⟨o, ho⟩ := Option.ne_none_iff_exists'.mp hne
      obtain ⟨b, t, -, hl⟩ := h1.inv.store.blobObj ho
      rw [show s1.1.st.lookup _ = none from hadm] at hl
      cases hl
    obtain ⟨he, h2, ht⟩ := h1.create hnew hobj rfl
    refine ⟨s1.2, he, fun s2 ho _ => .pure fun s3 ho3 _ => ?_⟩
    have hk2 := h2.kept ho.calm
    have hk3 := (h2.others ho).kept ho3.calm
    refine ⟨((hk.tended.trans ht).trans hk2.tended).trans hk3.tended,
      (h2.others ho).others ho3, ⟨_, _, rfl⟩, fun _ => ?_⟩
    exact hk3.grows _ _ (hk2.grows _ _ (archive_write_self rfl ..))
  · refine ⟨s1.2, .idle, fun s2 ho _ => ?_⟩
    have h2 := h1.others ho
    have hk2 := hk.trans (h1.kept ho.calm)
    have hend : ∀ s3, Others M who s2 s3 → Tended M who s s3 ∧ Gated M who cx s3 := fun s3 ho3 =>
      ⟨(hk2.trans (h2.kept ho3.calm)).tended, h2.others ho3⟩
    have hfault : ∀ e, (∀ d, e ≠ .casConflict d) → err = e → M.faults := fun e hne heq =>
      herr.elim And.left fun ⟨_, d, hd⟩ => absurd (heq.symm.trans hd) (hne d)
    cases err with
    | casConflict d =>
      refine .pure fun s3 ho3 _ =>
        ⟨(hend s3 ho3).1, (hend s3 ho3).2, ⟨_, _, rfl⟩, fun hs => ?_⟩
      -- the blob exists, and its name determines the value
      rcases herr with ⟨-, hback⟩ | ⟨hex, -⟩
      · cases hback hs
      · obtain ⟨⟨o, e⟩, hl⟩ := Option.ne_none_iff_exists'.mp hex
        obtain ⟨who', hm⟩ := h1.inv.store.held hl
        have harch := h1.inv.store.data rfl hm
        obtain ⟨b, _, rfl, -⟩ := h1.inv.store.blobObj harch
        obtain ⟨hb, hhash⟩ := h1.inv.store.blobVal hs harch
        rw [hpath] at hhash
        rw [M.inj hs hb (hv hs) hhash] at harch
        exact ((h1.kept ho.calm).trans (h2.kept ho3.calm)).grows _ _ harch
    | _ =>
      exact .fail fun s3 ho3 _ => ⟨(hend s3 ho3).1, (hend s3 ho3).2,
        hfault _ (by simp) rfl⟩

/-- A row as `spill` leaves it: the same key, and a value that resolves to the old
one. -/
def Spilled (M : Mode) (ob : Objects) (a b : Op) : Prop :=
  a.1 = b.1 ∧ match a.2 with
    | none => b.2 = none
    | some v => ∃ raw, b.2 = some raw ∧ raw.length ≠ tombstoneVlen ∧
        (M.strict → resolve M.cr ob raw = some v)

variable {ob : Objects}

theorem Spilled.mono {ob' : Objects} (hg : Grows ob ob') {a b : Op} (h : Spilled M ob a b) :
    Spilled M ob' a b := by
  obtain ⟨key, value⟩ := a
  refine ⟨h.1, ?_⟩
  cases value with
  | none => exact h.2
  | some v =>
    obtain ⟨raw, hraw, hlen, hres⟩ := h.2
    exact ⟨raw, hraw, hlen, fun hs => resolve_mono hg (hres hs)⟩

theorem resolve_pointer {cr : Crates} {e : Nat} {hash : String} {v : Bytes}
    (h : ob (.blob e hash) = some (.bytes v)) :
    resolve cr ob (encodeBlobPointer cr ⟨.blob e hash, v.length, cr.crc32 v⟩) = some v := by
  unfold resolve
  rw [tryDecode_encode]
  simp [h]

theorem resolve_plain {cr : Crates} {v : Bytes} (h : tryDecodeBlobPointer cr v = none) :
    resolve cr ob v = some v := by
  unfold resolve
  rw [h]

/-- The outcome of spilling rows: every key and value is kept. -/
def SpillsTo (M : Mode) (who : Who) (cx : Ctx) (rows : List Op) (s : State)
    (r : Res (List Op)) (s' : State) : Prop :=
  Tended M who s s' ∧ Gated M who cx s' ∧ match r with
    | .ok rows' => List.Forall₂ (Spilled M s'.1.archive) rows rows'
    | .error _ => M.faults

/-- One more row in front of the others. -/
theorem spill_cons {blockSize : Nat} {key : Key} {value value' : Option Bytes} {rows : List Op}
    (ih : ∀ {s}, Gated M who cx s →
      IoSafe (rules M) who (spill cx blockSize rows) (SpillsTo M who cx rows s) s)
    (ht : Tended M who s s') (h : Gated M who cx s')
    (hsp : Spilled M s'.1.archive (key, value) (key, value')) :
    IoSafe (rules M) who (do return (key, value') :: (← spill cx blockSize rows))
      (SpillsTo M who cx ((key, value) :: rows) s) s' := by
  refine .bind ((ih h).mono ?_)
  rintro r s1 - ⟨ht1, h1, hr⟩
  match r, hr with
  | .error e, hf => exact ⟨ht.trans ht1, h1, hf⟩
  | .ok rows', hall =>
    refine .pure fun s2 ho _ => ?_
    have hk := h1.kept ho.calm
    refine ⟨(ht.trans ht1).trans hk.tended, h1.others ho, .cons ?_ ?_⟩
    · exact hsp.mono (ht1.grows.trans hk.grows)
    · exact hall.imp fun _ _ hp => hp.mono hk.grows

theorem spill_safe {blockSize : Nat} (hbs : blockSize < tombstoneVlen) {rows : List Op}
    (hrows : ∀ op ∈ rows, M.OkOp op) (h : Gated M who cx s) :
    IoSafe (rules M) who (spill cx blockSize rows) (SpillsTo M who cx rows s) s := by
  induction rows generalizing s with
  | nil =>
    exact .pure fun s' ho _ => ⟨(h.kept ho.calm).tended, h.others ho, .nil⟩
  | cons op rows ih =>
    have ih : ∀ {s}, Gated M who cx s →
        IoSafe (rules M) who (spill cx blockSize rows) (SpillsTo M who cx rows s) s :=
      ih fun op hop => hrows op (by simp [hop])
    have hrefl : Tended M who s s := .refl h.ready h.held
    obtain ⟨key, value⟩ := op
    cases value with
    | none => exact spill_cons ih hrefl h ⟨rfl, rfl⟩
    | some v =>
      have hv : M.strict → v ∈ M.V := fun hs => (hrows (key, some v) (by simp)).1 hs v rfl
      simp only [spill]
      split
      · refine .bind ((putBlob_safe h hv).mono ?_)
        rintro r s1 - ⟨ht1, h1, hr⟩
        match r, hr with
        | .error e, hf => exact ⟨ht1, h1, hf⟩
        | .ok _, ⟨⟨e, hash, rfl⟩, hb⟩ =>
          refine spill_cons ih ht1 h1 ⟨rfl, _, rfl, ?_, fun hs => ?_⟩
          · rw [h.crates]
            exact M.cr.pointer_length _
          · rw [h.crates]
            exact resolve_pointer (hb hs)
      · rename_i hfits
        refine spill_cons ih hrefl h ⟨rfl, v, rfl, ?_, fun hs => ?_⟩
        · simp only [isOverflow, decide_eq_true_eq, not_lt] at hfits
          omega
        · exact resolve_plain (M.plain hs v (hv hs))

/-- Looking up a spilled row. -/
theorem lookup_spilled {l l' : List Op} (h : List.Forall₂ (Spilled M ob) l l') (k : Key) :
    match l.lookup k with
      | none => l'.lookup k = none
      | some x => ∃ x', l'.lookup k = some x' ∧ Spilled M ob (k, x) (k, x') := by
  induction h with
  | nil => rfl
  | @cons a b l l' hab _ ih =>
    obtain ⟨key, x⟩ := a
    obtain ⟨key', x'⟩ := b
    obtain rfl : key = key' := hab.1
    simp only [SortedMap.lookup_cons_ite]
    by_cases hk : k = key
    · subst hk
      simp only [if_true]
      exact ⟨x', rfl, hab⟩
    · simp only [if_neg hk]
      exact ih

/-- The entries of the file that is built from spilled rows. -/
theorem get?_spilled {l l' : List Op} (h : List.Forall₂ (Spilled M ob) l l') (k : Key) :
    match (SortedMap.empty.insertAll l).get? k with
      | none => (SortedMap.empty.insertAll l').get? k = none
      | some x => ∃ x', (SortedMap.empty.insertAll l').get? k = some x' ∧
          Spilled M ob (k, x) (k, x') := by
  simp only [SortedMap.get?_insertAll, SortedMap.get?_empty, Option.or_none]
  exact lookup_spilled (List.rel_reverse h) k

/-! ## Publishing -/

/-- The condition under which the manifest is replaced by `m`. -/
structure Permit (M : Mode) (who : Who) (w : World) (m : Manifest) : Prop where
  owner : M.multi → w.st.topEpoch = (w.inst who.inst).epoch
  covered : M.multi → m.wal = [] → Covered M w who.inst
  gap : w.manifest.sst.length < m.sst.length → M.gap w.hist

theorem Current.admits (h : Current w m e) (hi : Inv M.toTrack w g) :
    w.st.Admits .manifest (if e = 0 then .create else .update e) := by
  rcases h with h | ⟨h, rfl, -⟩
  · obtain ⟨who, hm⟩ := hi.store.held h
    rw [if_neg (Nat.ne_of_gt (hi.store.tag hm).1)]
    exact ⟨_, h⟩
  · exact h

theorem KnownManifest.of_admits (h : KnownManifest (stores w.hist) m e) (hi : Inv M.toTrack w g)
    (hadm : w.st.Admits .manifest (if e = 0 then .create else .update e)) : Current w m e := by
  by_cases he : e = 0
  · rw [if_pos he] at hadm
    rcases h with ⟨-, hw, hs⟩ | ⟨who, hm⟩
    · exact .inr ⟨hadm, he, hw, hs⟩
    · rw [he] at hm
      exact absurd (hi.store.tag hm).1 (Nat.lt_irrefl 0)
  · rw [if_neg he] at hadm
    obtain ⟨o, hl⟩ := hadm
    exact h.current hi hl

/-- The cache takes the manifest that was just written. -/
theorem cachePublished_safe {t : State} (hi : Inv M.toTrack t.1 t.2)
    (hr : t.2.ready who.inst) (hs : Others M who t s)
    (hl : t.1.st.lookup .manifest = some (.manifest m, e))
    (hskip : (t.1.inst who.inst).skipRevalidation = true → M.solo) :
    IoSafe (rules M) who (Io.act (.cacheUpdate m e))
      (fun r s' => r = .ok () ∧ Calm M who t s' ∧ Reading M who s') s := by
  refine .ofReads (.act (readStep (fun _ _ => rfl) fun s1 hs1 hi1 c r t' _ hx => ?_))
  cases hx
  have hmine : Mine M who t := .inl hr
  have hc1 : Calm M who t s1 := hs.calm.trans hs1.calm
  have hin : Inert who s1 (s1.1.setInst who.inst { s1.1.inst who.inst with cache := some (m, e) },
      s1.2) := by
    refine .cache (some (m, e)) (s1.1.inst who.inst).sstCache (fun m' e' heq => ?_)
      (fun _ _ => hi1.handle.sstCache)
    cases heq
    exact .inr ((hi.store.held hl).imp fun _ hm => hc1.stores hi _ hm)
  refine ⟨hin, fun s2 hs2 _ => ⟨rfl, (hc1.trans hin.calm).trans hs2.calm, ?_⟩⟩
  refine .others ⟨(hin.effect hi1).inv hi1, hin.calm.mine hi1 (hc1.mine hi hmine),
    Sync.update fun hskip' => ?_⟩ hs2
  rw [(hc1.params hi hmine).skip] at hskip'
  have hso := hskip hskip'
  exact ⟨hso, Or.inl (by rw [(hc1.still hi hso).st]; exact hl)⟩

/-- A conditional write of the manifest by the holder of the gate, which loaded
`m` before. A success is followed by the cache update. -/
theorem casBind {β : Type} {m' : Manifest} {f : Res Etag → Io β} {g : Io β}
    {Q : Res β → State → Prop} {P : State → Ghost → Prop} (h : Gated M who cx s)
    (hk : KnownManifest (stores s.1.hist) m e) (hcur : M.solo ∨ ¬ M.multi → Current s.1 m e)
    (heff : ∀ s1, Kept M who s s1 → Gated M who cx s1 → Current s1.1 m e →
      Permit M who s1.1 m' →
      ∃ g', Effect M who s1 (s1.1.write who .manifest (.manifest m'), g') ∧ P s1 g')
    (hok : ∀ e', f (.ok e') = (do Io.act (.cacheUpdate m' e'); g))
    (hg : ∀ s1 g' s2, Kept M who s s1 → Gated M who cx s1 → Current s1.1 m e → P s1 g' →
      Effect M who s1 (s1.1.write who .manifest (.manifest m'), g') →
      Calm M who (s1.1.write who .manifest (.manifest m'), g') s2 → Using M who cx s2 →
      IoSafe (rules M) who g Q s2)
    (herr : ∀ err s2, M.faults ∨ M.multi ∧ ¬ M.solo → Kept M who s s2 → Gated M who cx s2 →
      IoSafe (rules M) who (f (.error err)) Q s2) :
    IoSafe (rules M) who (Io.attempt (casManifest m' e) >>= f) Q s := by
  refine .attemptBind (.mapErr (.call (ownStep h
    (fun _ _ _ => exec_putOpts_isSome ..) fun s1 hk1 h1 c r t hc hx hal => ?_)))
  have hsuf : ∀ x ∈ stores s.1.hist, x ∈ stores s1.1.hist := by
    obtain ⟨t, ht, -⟩ := hk1.hist
    exact fun x hx => (stores_suffix ⟨t, ht.symm⟩).subset hx
  rcases exec_putOpts hc hx with ⟨rfl, rfl, hadm⟩ | ⟨err, rfl, rfl, hfail⟩
  · have hcur1 := (hk.mono hsuf).of_admits h1.inv hadm
    have hperm : Permit M who s1.1 m' := ⟨hal.1, hal.2.1, hal.2.2⟩
    obtain ⟨g', he, hpost⟩ := heff s1 hk1 h1 hcur1 hperm
    refine ⟨g', he, fun s2 ho _ => ?_⟩
    show IoSafe _ _ (f (.ok _)) _ _
    have hi' := he.inv h1.inv
    have hr' := (he.use h1.ready).ready
    rw [hok]
    refine .bind ((cachePublished_safe hi' hr' ho (lookup_write ..) fun hskip =>
      (h1.sync hskip).1).mono ?_)
    rintro r s3 - ⟨rfl, hcalm, hread⟩
    refine hg s1 g' s3 hk1 h1 hcur1 hpost he hcalm ?_
    have hf := hcalm.follows hi' hr'
    obtain ⟨who', t, hwi, hm⟩ := h1.record
    exact {
      toReading := hread
      ready := hf.use.ready
      crates := h.crates
      epoch := h1.epoch.trans hf.use.epoch.symm
      record := ⟨who', t, hwi, hcalm.stores hi' _ ((stores_suffix he.hist).subset hm)⟩
      owns := fun hm => hf.single hm ⟨h1.writer.mono he.hist rfl, by
        rw [topEpoch_eq (lookup_write_ne (by simp) ..)]
        exact (h1.owns hm).2⟩ }
  · refine ⟨s1.2, .idle, fun s2 ho _ => ?_⟩
    have hwhy : M.faults ∨ M.multi ∧ ¬ M.solo := by
      rcases hfail with ⟨hf, -⟩ | ⟨hnot, -⟩
      · exact .inl hf
      · by_contra hcon
        have hor : M.solo ∨ ¬ M.multi := by tauto
        have hown : M.solo ∨ Owns s1.1 who.inst := hor.imp id h1.owns
        exact hnot (((hcur hor).congr (hk1.manifest hown).1).admits h1.inv)
    exact herr _ s2 hwhy (hk1.trans (h1.kept ho.calm)) (h1.others ho)

end OxKv
