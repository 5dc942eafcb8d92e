import OxKv.Spec.Effect

/-!
Consequences of the invariant, and the frame rules: which parts survive a change
of the world that does not touch what they speak about.
-/

namespace OxKv

variable {T : Track} {w w' : World} {g g' : Ghost} {who : Who}

/-! ## Histories -/

section Growth

variable {α : Type} {P : α → Prop} {l l' l'' : List α}

/-- A list that grows at its front, twice. -/
theorem grown_front (h : ∃ t, l' = t ++ l ∧ ∀ x ∈ t, P x) (h' : ∃ t, l'' = t ++ l' ∧ ∀ x ∈ t, P x) :
    ∃ t, l'' = t ++ l ∧ ∀ x ∈ t, P x := by
  obtain ⟨t, rfl, ht⟩ := h
  obtain ⟨t', rfl, ht'⟩ := h'
  exact ⟨t' ++ t, (List.append_assoc ..).symm, List.forall_mem_append.mpr ⟨ht', ht⟩⟩

/-- Only other threads listed batches, and nobody under `A`. -/
def ListedBeside (who : Who) (A : Prop) (l l' : List LinEntry) : Prop :=
  ∃ t, l' = l ++ t ∧ (∀ e ∈ t, e.who ≠ who) ∧ (A → t = [])

/-- The thread listed the batches `es`, none before event `n`, and under `A` nobody else did. -/
def ListedBatches (who : Who) (A : Prop) (n : Nat) (es : List (List Nat × List Op))
    (l l' : List LinEntry) : Prop :=
  ∃ t, l' = l ++ t ∧ (t.filter fun e => e.who = who).map (fun e => (e.ids, e.ops)) = es ∧
    (∀ e ∈ t, e.who = who → n ≤ e.pos) ∧ (A → ∀ e ∈ t, e.who = who)

theorem ListedBatches.trans {A : Prop} {n n' : Nat} {es es' : List (List Nat × List Op)}
    {l l' l'' : List LinEntry} (h : ListedBatches who A n es l l')
    (h' : ListedBatches who A n' es' l' l'') (hn : n ≤ n') :
    ListedBatches who A n (es ++ es') l l'' := by
  obtain ⟨t, rfl, rfl, hpos, hA⟩ := h
  obtain ⟨t', rfl, rfl, hpos', hA'⟩ := h'
  refine ⟨t ++ t', List.append_assoc .., by rw [List.filter_append, List.map_append], ?_, ?_⟩
  · exact List.forall_mem_append.mpr ⟨hpos, fun e he hw => hn.trans (hpos' e he hw)⟩
  · exact fun a => List.forall_mem_append.mpr ⟨hA a, hA' a⟩

theorem ListedBeside.refl {A : Prop} (l : List LinEntry) : ListedBeside who A l l :=
  ⟨[], (List.append_nil l).symm, nofun, fun _ => rfl⟩

theorem ListedBeside.trans {A : Prop} {l l' l'' : List LinEntry} (h : ListedBeside who A l l')
    (h' : ListedBeside who A l' l'') : ListedBeside who A l l'' := by
  obtain ⟨t, rfl, ht, hA⟩ := h
  obtain ⟨t', rfl, ht', hA'⟩ := h'
  refine ⟨t ++ t', List.append_assoc .., List.forall_mem_append.mpr ⟨ht, ht'⟩, fun a => ?_⟩
  rw [hA a, hA' a, List.append_nil]

theorem ListedBeside.batches {A : Prop} {n : Nat} {l l' : List LinEntry}
    (h : ListedBeside who A l l') : ListedBatches who A n [] l l' := by
  obtain ⟨t, ht, hne, hs⟩ := h
  refine ⟨t, ht, ?_, fun e he hw => absurd hw (hne e he), fun hso => by simp [hs hso]⟩
  rw [List.map_eq_nil_iff, List.filter_eq_nil_iff]
  simpa using hne

end Growth

@[simp] theorem stores_write (w : World) (who : Who) (p : ObjectPath) (o : Obj) :
    stores (w.write who p o).hist = (who, p, o, w.st.seq + 1) :: stores w.hist := rfl

variable {h : History}

theorem stores_suffix {h' : History} (hs : h <:+ h') : stores h <:+ stores h' :=
  hs.filterMap _

variable {i : Nat}

theorem liveFrom_log {b : KMap} {e : What} (he : ∀ ops, e ≠ .wrote ops) (h : History) :
    liveFrom b i ((who, e) :: h) = liveFrom b i h := by
  cases e <;> first | rfl | exact absurd rfl (he _)

theorem liveFrom_append {b : KMap} {t : History} (ht : ∀ x ∈ t, ∀ ops, x.2 ≠ .wrote ops)
    (h : History) : liveFrom b i (t ++ h) = liveFrom b i h := by
  induction t with
  | nil => rfl
  | cons x t ih =>
    obtain ⟨hx, ht⟩ := List.forall_mem_cons.mp ht
    exact (liveFrom_log hx _).trans (ih ht)

theorem liveFrom_wrote (b : KMap) (ops : List Op) (h : History) :
    liveFrom b who.inst ((who, .wrote ops) :: h) = applyOps (liveFrom b who.inst h) ops := by
  simp [liveFrom]

theorem liveFrom_wrote_ne (hi : i ≠ who.inst) (b : KMap) (ops : List Op) (h : History) :
    liveFrom b i ((who, .wrote ops) :: h) = liveFrom b i h := by
  simp [liveFrom, Ne.symm hi]

/-- Without a write of its own an instance still has its base contents. -/
theorem liveFrom_base {b : KMap} (hno : ∀ who ops, (who, .wrote ops) ∈ h → who.inst ≠ i) :
    liveFrom b i h = b := by
  induction h with
  | nil => rfl
  | cons x h ih =>
    have ih := ih fun who ops hm => hno who ops (by simp [hm])
    obtain ⟨who, e⟩ := x
    cases e with
    | wrote ops =>
      rw [liveFrom_wrote_ne (Ne.symm (hno who ops (by simp))), ih]
    | _ => exact ih

/-! ## Objects -/

theorem archive_write (w : World) (who : Who) (p : ObjectPath) (o : Obj) (q : ObjectPath) :
    (w.write who p o).archive q = if p = q ∧ q.isData then some o else w.archive q := rfl

variable {p : ObjectPath}

theorem archive_write_other (hp : p.isData = false) (w : World) (who : Who) (o : Obj) :
    (w.write who p o).archive = w.archive := by
  funext q
  rw [archive_write, if_neg]
  rintro ⟨rfl, hq⟩
  rw [hp] at hq
  cases hq

theorem grows_write (hnew : w.archive p = none) (o : Obj) :
    Grows w.archive (w.write who p o).archive := by
  intro q o' hq
  rw [archive_write, if_neg]
  · exact hq
  · rintro ⟨rfl, -⟩
    rw [hnew] at hq
    cases hq

theorem archive_write_self (hp : p.isData = true) (w : World) (who : Who) (o : Obj) :
    (w.write who p o).archive p = some o := by
  rw [archive_write, if_pos ⟨rfl, hp⟩]

theorem manifest_eq (h : w'.st.lookup .manifest = w.st.lookup .manifest) :
    w'.manifest = w.manifest := by
  unfold World.manifest
  rw [h]

theorem topEpoch_eq {st st' : Storage} (h : st'.lookup .ownership = st.lookup .ownership) :
    st'.topEpoch = st.topEpoch := by
  unfold Storage.topEpoch Storage.owner
  rw [h]

theorem lookup_write_ne {q : ObjectPath} (h : q ≠ p) (w : World) (who : Who) (o : Obj) :
    (w.write who p o).st.lookup q = w.st.lookup q :=
  Storage.lookup_insert_ne _ _ h

@[simp] theorem lookup_write (w : World) (who : Who) (p : ObjectPath) (o : Obj) :
    (w.write who p o).st.lookup p = some (o, w.st.seq + 1) :=
  Storage.lookup_insert _ _ _

@[simp] theorem inst_write (w : World) (who : Who) (p : ObjectPath) (o : Obj) :
    (w.write who p o).inst = w.inst := rfl

@[simp] theorem manifest_write (w : World) (who : Who) (m : Manifest) :
    (w.write who .manifest (.manifest m)).manifest = m := by
  unfold World.manifest
  rw [lookup_write]

theorem manifest_write_ne (h : p ≠ .manifest) (w : World) (who : Who) (o : Obj) :
    (w.write who p o).manifest = w.manifest :=
  manifest_eq (lookup_write_ne (Ne.symm h) w who o)

/-! ## The current manifest -/

theorem StoreInv.listOk (h : StoreInv T w.st (stores w.hist)) :
    ListOk T.cr w.archive w.manifest := by
  have hempty : ListOk T.cr w.archive (Manifest.empty 0) :=
    ⟨Levels.nil, by simp [Manifest.empty], by simp [Manifest.empty]⟩
  unfold World.manifest
  split
  · rename_i m e hl
    obtain ⟨who, hm⟩ := h.held hl
    exact h.lists hm
  · exact hempty

theorem ListOk.mono {cr : Crates} {ob ob' : Objects} {m : Manifest} (h : ListOk cr ob m)
    (hg : Grows ob ob') : ListOk cr ob' m where
  levels := h.levels.congr fun x hx => by
    obtain ⟨f, hf⟩ := h.ssts x hx
    exact (content_mono hg hf).symm
  ssts x hx := (h.ssts x hx).imp fun f hf => hg _ _ hf
  wals p hp := by
    obtain ⟨e, n, b, he, hb⟩ := h.wals p hp
    exact ⟨e, n, b, he, hg _ _ hb⟩

/-- What the listed files say does not change when objects are added. -/
theorem view_grows {cr : Crates} {ob ob' : Objects} {sst : List SstMeta} (hg : Grows ob ob')
    (hf : ∀ x ∈ sst, ∃ f, ob x.id = some (.sst f)) (k : Key) :
    view (content cr ob') sst k = view (content cr ob) sst k := by
  apply view_congr
  intro x hx
  obtain ⟨f, hf⟩ := hf x hx
  exact content_mono hg hf

/-! ## Owners -/

variable {j : Nat}

theorem HandleInv.owns_unique (h : HandleInv T w.st (stores w.hist) w.inst) (hi : Owns w i)
    (hj : Owns w j) : i = j := by
  obtain ⟨⟨who, s, t, rfl, hm⟩, htop⟩ := hi
  obtain ⟨⟨who', s', t', rfl, hm'⟩, htop'⟩ := hj
  obtain ⟨rfl, -⟩ := h.ownerInj hm hm' (htop.symm.trans htop')
  rfl

theorem Writer.mono (h : Writer w i) (hs : w.hist <:+ w'.hist)
    (he : (w'.inst i).epoch = (w.inst i).epoch) : Writer w' i := by
  obtain ⟨who, s, t, hi, hm⟩ := h
  exact ⟨who, s, t, hi, by rw [he]; exact (stores_suffix hs).subset hm⟩

/-- Without a new ownership record nobody becomes a writer or an owner. -/
theorem writer_of_same (hS : ∀ x ∈ stores w'.hist, x.2.1 = .ownership → x ∈ stores w.hist)
    (he : (w'.inst i).epoch = (w.inst i).epoch) (h : Writer w' i) : Writer w i := by
  obtain ⟨who, s, t, hi, hm⟩ := h
  exact ⟨who, s, t, hi, by rw [← he]; exact hS _ hm rfl⟩

theorem owns_of_same (hS : ∀ x ∈ stores w'.hist, x.2.1 = .ownership → x ∈ stores w.hist)
    (htop : w'.st.topEpoch = w.st.topEpoch) (he : (w'.inst i).epoch = (w.inst i).epoch)
    (h : Owns w' i) : Owns w i :=
  ⟨writer_of_same hS he h.1, by rw [← htop, ← he]; exact h.2⟩

/-- Storage stays, and the epoch of the handle. -/
theorem Owns.of_inst (h : Owns w' i) (hst : w'.st = w.st) (hS : stores w'.hist = stores w.hist)
    (he : (w'.inst i).epoch = (w.inst i).epoch) : Owns w i :=
  owns_of_same (fun x hx _ => by rw [hS] at hx; exact hx) (by rw [hst]) he h

/-! ## Frame rule for the contents of an instance -/

/-- Nothing that the contents of instance `j` depend on has changed. -/
structure KeepsHits (w : World) (g : Ghost) (w' : World) (g' : Ghost) (j : Nat) : Prop where
  grows : Grows w.archive w'.archive
  sst : w'.manifest.sst = w.manifest.sst
  hist : w.hist <:+ w'.hist
  live : ∀ b, liveFrom b j w'.hist = liveFrom b j w.hist
  epoch : (w'.inst j).epoch = (w.inst j).epoch
  owns : Owns w' j → Owns w j
  mem : (w'.inst j).mem = (w.inst j).mem
  seq : (w.inst j).sstSeq ≤ (w'.inst j).sstSeq
  base : g'.base j = g.base j
  win : g'.win j = g.win j
  dur : g'.dur = g.dur

/-- Neither has the flush under way. -/
structure KeepsLive (w : World) (g : Ghost) (w' : World) (g' : Ghost) (j : Nat) : Prop
    extends KeepsHits w g w' g' j where
  gate : (w'.inst j).gate = none → (w.inst j).gate = none
  flight : g'.flight j = g.flight j

namespace KeepsHits

variable {j : Nat}

theorem sstHit (h : KeepsHits w g w' g' j) (hs : StoreInv T w.st (stores w.hist)) (k : Key) :
    OxKv.sstHit T.cr w' k = OxKv.sstHit T.cr w k := by
  unfold OxKv.sstHit
  rw [h.sst]
  exact view_grows h.grows hs.listOk.ssts k

theorem liveHit (h : KeepsHits w g w' g' j) (hs : StoreInv T w.st (stores w.hist)) (k : Key) :
    OxKv.liveHit T.cr w' j k = OxKv.liveHit T.cr w j k := by
  unfold OxKv.liveHit
  rw [h.mem, h.sstHit hs]

theorem live_eq (h : KeepsHits w g w' g' j) : OxKv.live w' g' j = OxKv.live w g j := by
  unfold OxKv.live
  rw [h.base, h.live]

end KeepsHits

/-- The contents of an instance survive; what is left concerns its flush. -/
theorem LiveInv.keepHits (hl : LiveInv T w g j) (hs : StoreInv T w.st (stores w.hist))
    (h : KeepsHits w g w' g' j) (hflight : FlightOk T w' g' j)
    (hfree : (w'.inst j).gate = none → g'.win j = [] ∧ g'.flight j = none) :
    LiveInv T w' g' j where
  writer := hl.writer.mono h.hist h.epoch
  hit ho k := by
    rw [h.liveHit hs, h.live_eq]
    exact (hl.hit (h.owns ho) k).mono h.grows
  seq ho x hx := by
    rw [h.sst] at hx
    exact lt_of_lt_of_le (hl.seq (h.owns ho) x hx) h.seq
  link hst ho := by
    rw [h.dur, h.live_eq, h.win]
    exact hl.link hst (h.owns ho)
  flight := hflight
  free := hfree

theorem FlightOk.keep (hf : FlightOk T w g j) (h : KeepsLive w g w' g' j) : FlightOk T w' g' j := by
  intro snap n hn
  rw [h.flight] at hn
  obtain ⟨h0, hsuf, hlen, hk⟩ := hf snap n hn
  refine ⟨h0, hsuf.trans h.hist, hlen, fun k x hx => ?_⟩
  obtain ⟨hsome, hshow⟩ := hk k x hx
  rw [h.mem, h.base]
  exact ⟨hsome, fun ho => (hshow (h.owns ho)).mono h.grows⟩

theorem LiveInv.keep (hl : LiveInv T w g j) (hs : StoreInv T w.st (stores w.hist))
    (h : KeepsLive w g w' g' j) : LiveInv T w' g' j :=
  hl.keepHits hs h.toKeepsHits (hl.flight.keep h) fun hg => by
    rw [h.win, h.flight]
    exact hl.free (h.gate hg)

/-! ## Frame rules for the other parts -/

theorem DurableInv.keep (hd : DurableInv T w g) (hs : StoreInv T w.st (stores w.hist))
    (hg : Grows w.archive w'.archive) (hm : w'.manifest.wal = w.manifest.wal)
    (hsst : w'.manifest.sst = w.manifest.sst) (hdur : g'.dur = g.dur) : DurableInv T w' g' := by
  intro ht k
  have hwal : walHit w'.archive w'.manifest.wal k = walHit w.archive w.manifest.wal k := by
    rw [hm]
    apply walHit_mono hg
    intro p hp
    obtain ⟨e, n, b, -, hb⟩ := hs.listOk.wals p hp
    exact ⟨_, hb⟩
  have hview : sstHit T.cr w' k = sstHit T.cr w k := by
    unfold sstHit
    rw [hsst]
    exact view_grows hg hs.listOk.ssts k
  unfold durableHit
  rw [hwal, hview, hdur]
  exact (hd ht k).mono hg

theorem LinInv.keep (hl : LinInv T w g) (hh : w.hist <:+ w'.hist)
    (hman : ∀ {who m t}, (who, ObjectPath.manifest, Obj.manifest m, t) ∈ stores w'.hist →
      (who, ObjectPath.manifest, Obj.manifest m, t) ∈ stores w.hist)
    (hg : Grows w.archive w'.archive) (hlin : g'.lin = g.lin)
    (hslot : ∀ pw : PendingWrite, ((∃ i, g.slot pw.id = .opened i pw) ∨
        ∃ r, g.slot pw.id = .settled pw r) →
      (∃ i, g'.slot pw.id = .opened i pw) ∨ ∃ r, g'.slot pw.id = .settled pw r) :
    LinInv T w' g' where
  event e he := by
    rw [hlin] at he
    obtain ⟨h, m, t, hsuf, hrest⟩ := hl.event e he
    exact ⟨h, m, t, hsuf.trans hh, hrest⟩
  order := hlin ▸ hl.order
  paths := hlin ▸ hl.paths
  listed hm p hp := by
    rw [hlin]
    exact hl.listed (hman hm) p hp
  payload e he := by
    rw [hlin] at he
    obtain ⟨b, hb, henc⟩ := hl.payload e he
    exact ⟨b, hg _ _ hb, henc⟩
  batch e he hne := by
    rw [hlin] at he
    obtain ⟨batch, h1, h2, h3⟩ := hl.batch e he hne
    exact ⟨batch, h1, h2, fun pw hpw => hslot pw (h3 pw hpw)⟩
  once := hlin ▸ hl.once

theorem PushedOk.mono {h' : History} {pw : PendingWrite} (hp : PushedOk T h pw)
    (hs : h <:+ h') : PushedOk T h' pw :=
  ⟨hp.encoded, hp.op, hp.pushed.imp fun _ hm => hs.subset hm⟩

theorem QueueInv.keep (hq : QueueInv T w g) (hh : w.hist <:+ w'.hist)
    (hpush : ∀ {who pw}, (who, What.pushed pw) ∈ w'.hist → (who, What.pushed pw) ∈ w.hist)
    (hctr : w'.pendingCtr = w.pendingCtr) (hans : w'.answers = w.answers)
    (hpend : ∀ i, (w'.inst i).pending = (w.inst i).pending)
    (hgate : ∀ i, (∃ id pw, g.slot id = .opened i pw) → (w.inst i).gate ≠ none →
      (w'.inst i).gate ≠ none)
    (hslot : g'.slot = g.slot)
    (hlin : ∀ id pw r, g.slot id = .settled pw r →
      ((∃ e ∈ g'.lin, id ∈ e.ids) ↔ ∃ e ∈ g.lin, id ∈ e.ids)) : QueueInv T w' g' where
  free id := by rw [hctr, hslot]; exact hq.free id
  queued i pw := by rw [hpend, hslot]; exact hq.queued i pw
  nodup i := by rw [hpend]; exact hq.nodup i
  gate hs := by
    rw [hslot] at hs
    exact hgate _ ⟨_, _, hs⟩ (hq.gate hs)
  answers id r := by rw [hans, hslot]; exact hq.answers id r
  write hw := by
    rw [hslot] at hw
    exact ⟨(hq.write hw).1, (hq.write hw).2.mono hh⟩
  pushed h1 h2 := hq.pushed (hpush h1) (hpush h2)
  pushedSlot h1 := by rw [hslot]; exact hq.pushedSlot (hpush h1)
  settled hs := by
    rw [hslot] at hs
    rw [hlin _ _ _ hs]
    exact hq.settled hs

theorem ReplyInv.keep (hr : ReplyInv T w g) (hlin : g.lin <+: g'.lin)
    (hmark : ∀ h who n r, ((who, What.mark (.returned n r)) :: h) <:+ w'.hist →
      ((who, What.mark (.returned n r)) :: h) <:+ w.hist) : ReplyInv T w' g' := by
  intro h who n r hs
  obtain ⟨l, hl, hR⟩ := hr h who n r (hmark h who n r hs)
  exact ⟨l, hl.trans hlin, hR⟩

end OxKv
