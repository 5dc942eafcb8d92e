import OxKv.Spec.Frame

/-!
The rely/guarantee rules of the engine, and what a thread may rely on.

* `rules`: every action has an `Effect`, and so do the actions of the others;
* `readRules`: the stronger guarantee of procedures that only read and fill caches;
* `Follows`: what a thread keeps while it reads and others act;
* `Kept`: what the holder of a write gate keeps beside that.
-/

namespace OxKv

/-! ## The rules -/

/-- Steps of the other threads; none in a lone run. -/
def Others (M : Mode) (who : Who) (s s' : State) : Prop :=
  (M.solo → s' = s) ∧ Relation.ReflTransGen (fun a b => ∃ who', who' ≠ who ∧ Effect M who' a b) s s'

/-- Every entry of the MemTable of `i` shows what the listed files show. -/
def Covered (M : Mode) (w : World) (i : Nat) : Prop :=
  ∀ k x, (w.inst i).mem.get? k = some x →
    Shows M.strict M.cr w.archive (sstHit M.cr w k) x

/-- The condition on single actions under which the rules are used: with several
instances the manifest is replaced only by the owner, its WAL list is cleared only
when the files cover the MemTable, and nobody deletes WAL files of later epochs. -/
def Allowed (M : Mode) {β : Type} (who : Who) (a : Act β) (w : World) (r : β) : Prop :=
  match a, r with
  | .putOpts .manifest (.manifest m) _, .ok _ =>
    (M.multi → w.st.topEpoch = (w.inst who.inst).epoch) ∧
    (M.multi → m.wal = [] → Covered M w who.inst) ∧
    (w.manifest.sst.length < m.sst.length → M.gap w.hist)
  | .delete (.wal e _), _ => M.multi → e ≤ (w.inst who.inst).epoch
  | _, _ => True

@[reducible] def rules (M : Mode) : Rules engine where
  Ghost := Ghost
  inv s := Inv M.toTrack s.1 s.2
  rely := Others M
  guar := Effect M
  ok c := c.fault = none ∨ M.faults ∧ (M.strict → c.fault ≠ some .conflict)
  allow who a w r _ := Allowed M who a w r
  live := M.solo
  rely_refl _ _ := ⟨fun _ => rfl, .refl⟩
  rely_trans _ _ _ _ h h' := ⟨fun hs => (h'.1 hs).trans (h.1 hs), h.2.trans h'.2⟩

variable {M : Mode} {who : Who} {s s' s'' : State}

theorem Others.inv (h : Others M who s s') (hi : Inv M.toTrack s.1 s.2) :
    Inv M.toTrack s'.1 s'.2 := by
  obtain ⟨-, h⟩ := h
  induction h with
  | refl => exact hi
  | tail _ hstep ih =>
    obtain ⟨_, _, he⟩ := hstep
    exact he.inv ih

/-- Facts that every foreign step keeps hold after any number of them. -/
theorem Others.induct {R : State → Prop} (h : Others M who s s')
    (hi : Inv M.toTrack s.1 s.2) (h0 : R s)
    (hstep : ¬ M.solo → ∀ a b who', Inv M.toTrack a.1 a.2 → R a → who' ≠ who →
      Effect M who' a b → R b) : R s' := by
  by_cases hs : M.solo
  · rw [h.1 hs]
    exact h0
  · suffices Inv M.toTrack s'.1 s'.2 ∧ R s' from this.2
    obtain ⟨-, h⟩ := h
    induction h with
    | refl => exact ⟨hi, h0⟩
    | tail _ hb ih =>
      obtain ⟨who', hne, he⟩ := hb
      exact ⟨he.inv ih.1, hstep hs _ _ who' ih.1 ih.2 hne he⟩

/-! ## Reading -/

/-- The effect of an action that only reads or fills a cache. -/
inductive Inert (who : Who) : State → State → Prop where
  | idle {w : World} {g : Ghost} : Inert who (w, g) (w, g)
  | look {w : World} {g : Ghost} (e : What) (he : e = .polled ∨ e = .copied) :
      Inert who (w, g) (w.log who e, g)
  | cache {w : World} {g : Ghost} (c : Option (Manifest × Etag)) (f : ObjectPath → Option SstFile)
      (hc : ∀ m e, c = some (m, e) → KnownManifest (stores w.hist) m e)
      (hf : ∀ p x, f p = some x → w.archive p = some (.sst x)) :
      Inert who (w, g)
        (w.setInst who.inst { w.inst who.inst with cache := c, sstCache := f }, g)

theorem Inert.effect (h : Inert who s s') (hi : Inv M.toTrack s.1 s.2) : Effect M who s s' := by
  cases h with
  | idle => exact .idle
  | look e he => exact .look e he
  | cache c f hc hf =>
    exact .tune _ ⟨rfl, rfl, rfl, rfl, rfl, rfl, le_refl _, le_refl _, Or.inr ⟨rfl, rfl⟩, hc, hf,
      hi.handle.bufferOk _, fun hs => hi.handle.buffer hs _⟩

@[reducible] def readRules (M : Mode) : Rules engine := { rules M with guar := fun who => Inert who }

/-- Steps of the others and own reading steps. -/
abbrev Calm (M : Mode) (who : Who) : State → State → Prop :=
  @Trail Act engine (readRules M) who

/-- Nothing but caches and reading events changed. -/
structure Still (s s' : State) : Prop where
  ghost : s'.2 = s.2
  st : s'.1.st = s.1.st
  inst : ∀ j, ∃ c f, s'.1.inst j = { s.1.inst j with cache := c, sstCache := f }
  answers : s'.1.answers = s.1.answers
  ctr : s'.1.pendingCtr = s.1.pendingCtr
  live : ∀ b j, liveFrom b j s'.1.hist = liveFrom b j s.1.hist

theorem Still.refl (s : State) : Still s s :=
  ⟨rfl, rfl, fun _ => ⟨_, _, rfl⟩, rfl, rfl, fun _ _ => rfl⟩

theorem Still.trans (h : Still s s') (h' : Still s' s'') : Still s s'' where
  ghost := h'.ghost.trans h.ghost
  st := h'.st.trans h.st
  inst j := by
    obtain ⟨c, f, hc⟩ := h.inst j
    obtain ⟨c', f', hc'⟩ := h'.inst j
    exact ⟨c', f', by rw [hc', hc]⟩
  answers := h'.answers.trans h.answers
  ctr := h'.ctr.trans h.ctr
  live b j := (h'.live b j).trans (h.live b j)

theorem Inert.still (h : Inert who s s') : Still s s' := by
  cases h with
  | idle => exact Still.refl _
  | look e he =>
    exact ⟨rfl, rfl, fun _ => ⟨_, _, rfl⟩, rfl, rfl,
      fun _ _ => liveFrom_log (by rcases he with rfl | rfl <;> simp) _⟩
  | cache c f =>
    refine ⟨rfl, rfl, fun j => ?_, rfl, rfl, fun _ _ => rfl⟩
    by_cases hj : j = who.inst
    · subst hj
      exact ⟨c, f, World.setInst_inst_self ..⟩
    · exact ⟨_, _, by rw [World.setInst_inst_ne _ _ _ hj]⟩

theorem Inert.hist (h : Inert who s s') :
    ∃ t, s'.1.hist = t ++ s.1.hist ∧ ∀ x ∈ t, x.2 = .polled ∨ x.2 = .copied := by
  cases h with
  | idle => exact ⟨[], rfl, by simp⟩
  | look e he => exact ⟨[_], rfl, by simpa using he⟩
  | cache c f => exact ⟨[], rfl, by simp⟩

theorem Inert.stores (h : Inert who s s') : stores s'.1.hist = stores s.1.hist := by
  cases h with
  | idle => rfl
  | look e he => rcases he with rfl | rfl <;> rfl
  | cache c f => rfl

theorem Others.calm (h : Others M who s s') : Calm M who s s' := .single (.inl h)

theorem Inert.calm (h : Inert who s s') : Calm M who s s' := .single (.inr h)

/-- Facts that foreign steps and own reading steps keep. -/
theorem Calm.induct {R : State → Prop} (h : Calm M who s s')
    (hi : Inv M.toTrack s.1 s.2) (h0 : R s)
    (hstep : ¬ M.solo → ∀ a b who', Inv M.toTrack a.1 a.2 → R a → who' ≠ who →
      Effect M who' a b → R b)
    (hread : ∀ a b, Inv M.toTrack a.1 a.2 → R a → Inert who a b → R b) :
    Inv M.toTrack s'.1 s'.2 ∧ R s' := by
  induction h with
  | refl => exact ⟨hi, h0⟩
  | tail _ hb ih =>
    rcases hb with hb | hb
    · have hb : Others M who _ _ := hb
      exact ⟨hb.inv ih.1, hb.induct ih.1 ih.2 hstep⟩
    · have hb : Inert who _ _ := hb
      exact ⟨(hb.effect ih.1).inv ih.1, hread _ _ ih.1 ih.2 hb⟩

/-! ## Any thread -/

/-- A pushed write: among the first `bound` of the queue of `i`, in the batch of
its leader, or answered. -/
def Waits (i : Nat) (pw : PendingWrite) (bound : Nat) (s : State) : Prop :=
  (s.2.slot pw.id = .queued i pw ∧ ∃ j < bound, (s.1.inst i).pending[j]? = some pw) ∨
    s.2.slot pw.id = .opened i pw ∨ ∃ r, s.2.slot pw.id = .settled pw r

theorem Effect.waits {i : Nat} {pw : PendingWrite} {bound : Nat} (h : Effect M who s s')
    (hi : Inv M.toTrack s.1 s.2) (hw : Waits i pw bound s) : Waits i pw bound s' := by
  have hslot := h.slot hi pw.id
  generalize hnew : s'.2.slot pw.id = y at hslot
  rcases hw with ⟨hq, j, hj, hget⟩ | ho | ⟨r, hr⟩
  · rw [hq] at hslot
    cases hslot with
    | drain => exact .inr (.inl hnew)
    | same heq =>
      -- still queued: whatever left the queue was in front of it
      have heq := hnew.trans heq
      refine .inl ⟨heq, ?_⟩
      have hmem := ((h.inv hi).queue.queued i pw).mpr heq
      obtain ⟨d, t, ht, hd⟩ := h.pending i
      rcases hd with rfl | ⟨rfl, -, -⟩
      · refine ⟨j, hj, ?_⟩
        rw [ht, List.drop_zero, List.getElem?_append_left (List.getElem?_eq_some_iff.mp hget).1]
        exact hget
      · rw [List.append_nil] at ht
        rw [ht] at hmem ⊢
        obtain ⟨n, hn⟩ := List.mem_iff_getElem?.mp hmem
        refine ⟨n, lt_of_le_of_lt ?_ hj, hn⟩
        rw [List.getElem?_drop] at hn
        have hlt : ((s.1.inst i).pending.map PendingWrite.id).length > d + n := by
          rw [List.length_map]
          exact (List.getElem?_eq_some_iff.mp hn).1
        have hinj := (List.getElem?_inj hlt (hi.queue.nodup i)).mp
          (show _ = ((s.1.inst i).pending.map PendingWrite.id)[j]? by
            rw [List.getElem?_map, List.getElem?_map, hn, hget])
        omega
  · rw [ho] at hslot
    cases hslot with
    | same heq => exact .inr (.inl (hnew.trans heq))
    | send _ r => exact .inr (.inr ⟨r, hnew⟩)
  · rw [hr] at hslot
    cases hslot with
    | same heq => exact .inr (.inr ⟨r, hnew.trans heq⟩)

/-- Between two moments of a call: its own events are in `A`, objects are only added, and
the handle stays in use. -/
structure Since (A : What → Prop) (who : Who) (s s' : State) : Prop where
  hist : ∃ t, s'.1.hist = t ++ s.1.hist ∧ ∀ x ∈ t, x.1 = who → A x.2
  grows : Grows s.1.archive s'.1.archive
  use : Effect.SameUse s s' who.inst

/-- And the thread keeps its queued writes. -/
structure Along (A : What → Prop) (who : Who) (s s' : State) : Prop
    extends Since A who s s' where
  taken : ∀ id, s.2.slot id = .taken who → s'.2.slot id = .taken who
  write : ∀ id pw, (s.2.slot id).write? = some pw → (s'.2.slot id).write? = some pw

section Since

variable {A B : What → Prop}

theorem Since.mono (h : Since A who s s') (hAB : ∀ e, A e → B e) : Since B who s s' := by
  obtain ⟨⟨t, ht, hall⟩, hgrows, huse⟩ := h
  exact ⟨⟨t, ht, fun x hx hw => hAB _ (hall x hx hw)⟩, hgrows, huse⟩

theorem Since.trans (h : Since A who s s') (h' : Since A who s' s'') : Since A who s s'' :=
  ⟨grown_front h.hist h'.hist, h.grows.trans h'.grows, h.use.trans h'.use⟩

theorem Since.length_le (h : Since A who s s') : s.1.hist.length ≤ s'.1.hist.length := by
  obtain ⟨t, ht, -⟩ := h.hist
  exact ht ▸ (List.suffix_append t _).length_le

theorem Along.mono (h : Along A who s s') (hAB : ∀ e, A e → B e) : Along B who s s' :=
  { h with toSince := h.toSince.mono hAB }

theorem Along.trans (h : Along A who s s') (h' : Along A who s' s'') : Along A who s s'' where
  toSince := h.toSince.trans h'.toSince
  taken id ht := h'.taken id (h.taken id ht)
  write id pw hw := h'.write id pw (h.write id pw hw)

theorem Effect.since (he : Effect M who s s') (hr : s.2.ready who.inst)
    (hhist : ∃ t, s'.1.hist = t ++ s.1.hist ∧ ∀ x ∈ t, A x.2) : Since A who s s' := by
  obtain ⟨t, ht, hall⟩ := hhist
  exact ⟨⟨t, ht, fun x hx _ => hall x hx⟩, he.grows, he.use hr⟩

theorem Effect.along (he : Effect M who s s') (hr : s.2.ready who.inst)
    (hhist : ∃ t, s'.1.hist = t ++ s.1.hist ∧ ∀ x ∈ t, A x.2) (hslot : s'.2.slot = s.2.slot) :
    Along A who s s' where
  toSince := he.since hr hhist
  taken id ht := by rw [hslot, ht]
  write id pw hw := by rw [hslot]; exact hw

end Since

/-- What a thread keeps while it reads and others act: their listed files are not its own,
and its queued write makes progress. -/
structure Follows (M : Mode) (who : Who) (s s' : State) : Prop
    extends Along (fun e => e = .polled ∨ e = .copied) who s s' where
  solo : M.solo → Still s s'
  lin : ListedBeside who M.solo s.2.lin s'.2.lin
  owns : Owns s'.1 who.inst → Owns s.1 who.inst
  single : ¬ M.multi → Owns s.1 who.inst → Owns s'.1 who.inst
  settled : ∀ id pw r, s.2.slot id = .settled pw r → s'.2.slot id = .settled pw r
  waits : ∀ pw bound, Waits who.inst pw bound s → Waits who.inst pw bound s'

namespace Follows

theorem refl (hr : s.2.ready who.inst) : Follows M who s s where
  hist := ⟨[], rfl, by simp⟩
  grows := .refl _
  use := ⟨rfl, rfl, rfl, rfl, hr⟩
  taken _ := id
  write _ _ := id
  solo _ := Still.refl s
  lin := .refl _
  owns := id
  single _ := id
  settled _ _ _ := id
  waits _ _ := id

theorem trans (h : Follows M who s s') (h' : Follows M who s' s'') : Follows M who s s'' where
  toAlong := h.toAlong.trans h'.toAlong
  solo hso := (h.solo hso).trans (h'.solo hso)
  lin := h.lin.trans h'.lin
  owns ho := h.owns (h'.owns ho)
  single hm ho := h'.single hm (h.single hm ho)
  settled id pw r hs := h'.settled id pw r (h.settled id pw r hs)
  waits pw bound hw := h'.waits pw bound (h.waits pw bound hw)

end Follows

/-- A step of another thread. -/
theorem Effect.follows {who' : Who} (h : Effect M who' s s') (hi : Inv M.toTrack s.1 s.2)
    (hs : ¬ M.solo) (hne : who' ≠ who) (hr : s.2.ready who.inst) : Follows M who s s' := by
  refine ⟨⟨⟨?_, h.grows, h.use hr⟩, fun id ht => ?_, fun id pw hw => ?_⟩,
    fun hso => absurd hso hs, ?_, h.owns hi hr, fun hm => h.owns_of_single hs hm hr,
    fun id pw r hse => ?_, fun pw bound => h.waits hi⟩
  · obtain ⟨t, ht, hall⟩ := h.hist_eq
    exact ⟨t, ht, fun x hx heq => absurd ((hall x hx).symm.trans heq) hne⟩
  · have hslot := h.slot hi id
    generalize s'.2.slot id = y at hslot
    rw [ht] at hslot
    cases hslot with
    | same heq => exact heq
    | push => exact absurd rfl hne
  · have hslot := h.slot hi id
    generalize s.2.slot id = x, s'.2.slot id = y at hw hslot ⊢
    cases hslot with
    | same heq => rw [heq, hw]
    | take => cases hw
    | push => cases hw
    | drain | send => exact hw
  · obtain ⟨t, ht, hall⟩ := h.lin
    exact ⟨t, ht, fun x hx heq => hne ((hall x hx).symm.trans heq), fun hso => absurd hso hs⟩
  · have hslot := h.slot hi id
    generalize s'.2.slot id = y at hslot
    rw [hse] at hslot
    cases hslot with
    | same heq => exact heq

theorem Inert.follows (h : Inert who s s') (hi : Inv M.toTrack s.1 s.2)
    (hr : s.2.ready who.inst) : Follows M who s s' := by
  have hst := h.still
  have he : Effect M who s s' := h.effect hi
  refine ⟨he.along hr h.hist (by rw [hst.ghost]), fun _ => hst, hst.ghost ▸ .refl _, he.owns hi hr,
    fun _ ho => ?_, fun id pw r hse => by rw [hst.ghost, hse], fun pw bound => he.waits hi⟩
  exact ⟨ho.1.mono he.hist (he.use hr).epoch, by rw [hst.st, (he.use hr).epoch]; exact ho.2⟩

theorem Calm.follows (h : Calm M who s s') (hi : Inv M.toTrack s.1 s.2)
    (hr : s.2.ready who.inst) : Follows M who s s' := by
  refine (h.induct (R := fun x => Follows M who s x) hi (Follows.refl hr) ?_ ?_).2
  · intro hs a b who' hia ha hne he
    exact ha.trans (he.follows hia hs hne ha.use.ready)
  · intro a b hia ha hb
    exact ha.trans (hb.follows hia ha.use.ready)

theorem Others.follows (h : Others M who s s') (hi : Inv M.toTrack s.1 s.2)
    (hr : s.2.ready who.inst) : Follows M who s s' :=
  h.calm.follows hi hr

/-! ## The holder of a write gate -/

/-- What the holder of the gate keeps beside that: counters and flush of its
handle, its unlisted files, and as long as it owns the prefix the manifest. -/
structure Kept (M : Mode) (who : Who) (s s' : State) : Prop extends Follows M who s s' where
  held : Held who s'.1
  work : Effect.SameWork M s s' who.inst
  manifest : M.solo ∨ Owns s'.1 who.inst →
    s'.1.st.lookup .manifest = s.1.st.lookup .manifest ∧ s'.2.lin = s.2.lin
  objects : ∀ p, p.epoch? = some (s.1.inst who.inst).epoch → s'.1.archive p = s.1.archive p
  present : M.solo ∨ Owns s'.1 who.inst → ∀ p, p.epoch? = some (s.1.inst who.inst).epoch →
    ¬ WasListed (stores s.1.hist) p → (∃ y, s.1.st.lookup p = some y) →
    ∃ y, s'.1.st.lookup p = some y
  listed : ∀ p, p.epoch? = some (s.1.inst who.inst).epoch → WasListed (stores s'.1.hist) p →
    WasListed (stores s.1.hist) p
  wal : ∀ e n, e ≤ (s.1.inst who.inst).epoch → .wal e n ∈ s'.1.manifest.wal →
    .wal e n ∈ s.1.manifest.wal
  sst : ∀ x ∈ s'.1.manifest.sst, x ∈ s.1.manifest.sst ∨ ¬ WasListed (stores s.1.hist) x.id
  opened : ∀ id pw, s'.2.slot id = .opened who.inst pw ↔ s.2.slot id = .opened who.inst pw
  listedId : ∀ id pw, s.2.slot id = .opened who.inst pw → (∃ e ∈ s'.2.lin, id ∈ e.ids) →
    ∃ e ∈ s.2.lin, id ∈ e.ids
  queue : (s.1.inst who.inst).pending <+: (s'.1.inst who.inst).pending

/-- Two writers with the same epoch are the same. -/
theorem HandleInv.writer_unique {T : Track} {w : World}
    (h : HandleInv T w.st (stores w.hist) w.inst) {i j : Nat} (hi : Writer w i) (hj : Writer w j)
    (he : (w.inst i).epoch = (w.inst j).epoch) : i = j := by
  obtain ⟨who, s, t, rfl, hm⟩ := hi
  obtain ⟨who', s', t', rfl, hm'⟩ := hj
  obtain ⟨rfl, -⟩ := h.ownerInj hm hm' he
  rfl

theorem Held.unique {w : World} {who who' : Who} (h : Held who w) (h' : Held who' w)
    (hi : who'.inst = who.inst) : who' = who := by
  unfold Held at h h'
  rw [hi, h] at h'
  cases who
  cases who'
  simp only [Option.some.injEq] at h'
  simp only at hi
  rw [h', hi]

theorem WasListed.mono {S S' : Stores} (hs : ∀ x ∈ S, x ∈ S') {p : ObjectPath}
    (h : WasListed S p) : WasListed S' p := by
  obtain ⟨who, m, t, hm, hp⟩ := h
  exact ⟨who, m, t, hs _ hm, hp⟩

namespace Kept

theorem refl (hr : s.2.ready who.inst) (hh : Held who s.1) : Kept M who s s where
  toFollows := Follows.refl hr
  held := hh
  work := ⟨rfl, rfl, rfl, rfl, fun _ => rfl, fun _ => rfl, fun _ _ => rfl⟩
  manifest _ := ⟨rfl, rfl⟩
  objects _ _ := rfl
  present _ _ _ _ := id
  listed _ _ := id
  wal _ _ _ := id
  sst _ := .inl
  opened _ _ := .rfl
  listedId _ _ _ := id
  queue := List.prefix_refl _

theorem trans (h : Kept M who s s') (h' : Kept M who s' s'') : Kept M who s s'' := by
  have hsuf : ∀ x ∈ stores s.1.hist, x ∈ stores s'.1.hist := by
    obtain ⟨t, ht, -⟩ := h.hist
    exact fun x hx => (stores_suffix ⟨t, ht.symm⟩).subset hx
  exact {
    toFollows := h.toFollows.trans h'.toFollows
    held := h'.held
    work := ⟨h'.work.walSeq.trans h.work.walSeq, h'.work.sstSeq.trans h.work.sstSeq,
      h'.work.win.trans h.work.win, h'.work.flight.trans h.work.flight,
      fun hg => (h'.work.gate (by rw [h.work.gate hg]; exact hg)).trans (h.work.gate hg),
      fun hst => (h'.work.mem hst).trans (h.work.mem hst),
      fun hst b => (h'.work.live hst b).trans (h.work.live hst b)⟩
    manifest := fun ho => by
      have h1 := h'.manifest ho
      have h2 := h.manifest (ho.imp id h'.owns)
      exact ⟨h1.1.trans h2.1, h1.2.trans h2.2⟩
    objects := fun p hp => (h'.objects p (by rw [h.use.epoch]; exact hp)).trans (h.objects p hp)
    present := fun ho p hp hl hy =>
      h'.present ho p (by rw [h.use.epoch]; exact hp) (fun hw => hl (h.listed p hp hw))
        (h.present (ho.imp id h'.owns) p hp hl hy)
    listed := fun p hp hw => h.listed p hp (h'.listed p (by rw [h.use.epoch]; exact hp) hw)
    wal := fun e n he hp => h.wal e n he (h'.wal e n (by rw [h.use.epoch]; exact he) hp)
    sst := fun x hx => by
      rcases h'.sst x hx with hx | hx
      · exact h.sst x hx
      · exact .inr fun hw => hx (hw.mono hsuf)
    opened := fun id pw => (h'.opened id pw).trans (h.opened id pw)
    listedId := fun id pw ho hl =>
      h.listedId id pw ho (h'.listedId id pw ((h.opened id pw).mpr ho) hl)
    queue := h.queue.trans h'.queue }

end Kept

/-- A step of another thread beside the holder of the gate. -/
theorem Effect.kept {who' : Who} (h : Effect M who' s s') (hi : Inv M.toTrack s.1 s.2)
    (hs : ¬ M.solo) (hne : who' ≠ who) (hr : s.2.ready who.inst) (hh : Held who s.1) :
    Kept M who s s' := by
  have hw : Writer s.1 who.inst := (hi.live _ hr).writer
  -- who holds a gate works on another handle, of another epoch
  have hinst : Held who' s.1 → who'.inst ≠ who.inst := fun hh' heq => hne (hh.unique hh' heq)
  have hepoch : Held who' s.1 → Writer s.1 who'.inst →
      (s.1.inst who'.inst).epoch ≠ (s.1.inst who.inst).epoch := fun hh' hw' heq =>
    hinst hh' (hi.handle.writer_unique hw' hw heq)
  have hnew : ∀ {p}, Effect.NewFile who' s.1 p →
      p.epoch? ≠ some (s.1.inst who.inst).epoch ∧ ¬ Owns s.1 who.inst := by
    intro p hp
    refine ⟨fun he => ?_, fun ho => hinst hp.held (hi.handle.owns_unique hp.owns ho)⟩
    rw [hp.epoch] at he
    exact hepoch hp.held hp.owns.1 (Option.some.inj he)
  have hwork := h.work hr fun heq hh' => hinst hh' heq.symm
  refine {
    toFollows := h.follows hi hs hne hr
    held := ?_
    work := hwork
    manifest := fun ho => ?_
    objects := fun p hp => ?_
    present := fun ho p hp hl hy => ?_
    listed := fun p hp hl => ?_
    wal := fun e n he hp => ?_
    sst := fun x hx => ?_
    opened := fun id pw => ?_
    listedId := fun id pw ho hl => ?_
    queue := ?_ }
  · unfold Held at hh ⊢
    rw [hwork.gate (by rw [hh]; simp), hh]
  · refine h.manifest.resolve_right fun hp => ?_
    have ho' := hp.2.resolve_left hs
    exact hinst hp.1 (hi.handle.owns_unique ho' (h.owns hi hr (ho.resolve_left hs)))
  · rcases h.archive p with heq | ⟨hh', hw', -, hp'⟩
    · exact heq
    · rw [hp] at hp'
      exact absurd (Option.some.inj hp').symm (hepoch hh' hw')
  · have ho := h.owns hi hr (ho.resolve_left hs)
    have hc : p ≠ .canary := by
      rintro rfl
      cases hp
    rcases h.present hy hc with hy | ⟨hh', hw', he⟩
    · exact hy
    · cases he with
      | wal e n hnl hle =>
        -- the epoch of a thread that may delete it would be the current one
        have hle := hle.resolve_left hs
        have htop := hi.handle.epochLe who'.inst
        have heq : e = (s.1.inst who.inst).epoch := Option.some.inj hp
        have hown := ho.2
        exact absurd (by omega) (hepoch hh' hw')
      | sst e l n hwas _ => exact absurd hwas hl
  · exact (h.wasListed hi hl).resolve_right fun hn => (hnew hn).1 hp
  · refine (h.files.1 _ hp).resolve_right fun hn => ?_
    -- the current owner has a larger epoch
    have he' : e = (s.1.inst who'.inst).epoch := Option.some.inj hn.epoch
    have htop := hi.handle.epochLe who.inst
    have hown := hn.owns.2
    exact hepoch hn.held hn.owns.1 (by omega)
  · exact (h.files.2 _ hx).imp id fun hn => hn.fresh
  · have hslot := h.slot hi id
    generalize s.2.slot id = x, s'.2.slot id = y at hslot
    cases hslot with
    | same heq => rw [heq]
    | take | push => simp
    | drain _ hh' | send _ _ hh' => simp [hinst hh']
  · refine (h.listedId hl).resolve_right ?_
    rintro ⟨hh', pw', ho'⟩
    rw [ho, Slot.opened.injEq] at ho'
    exact hinst hh' ho'.1.symm
  · obtain ⟨d, t, ht, hd⟩ := h.pending who.inst
    rw [hd.resolve_right fun hp => hinst hp.2.1 hp.2.2, List.drop_zero] at ht
    exact ⟨t, ht.symm⟩

theorem Inert.kept (h : Inert who s s') (hi : Inv M.toTrack s.1 s.2) (hr : s.2.ready who.inst)
    (hh : Held who s.1) : Kept M who s s' := by
  have hst := h.still
  have hS := h.stores
  have harch : s'.1.archive = s.1.archive := by
    unfold World.archive
    rw [hS]
  have hman : s'.1.manifest = s.1.manifest := manifest_eq (by rw [hst.st])
  obtain ⟨c, f, hc⟩ := hst.inst who.inst
  exact {
    toFollows := h.follows hi hr
    held := by
      unfold Held at hh ⊢
      rw [hc]
      exact hh
    work := ⟨by rw [hc], by rw [hc], by rw [hst.ghost], by rw [hst.ghost], fun _ => by rw [hc],
      fun _ => by rw [hc], fun _ b => hst.live b _⟩
    manifest := fun _ => ⟨by rw [hst.st], by rw [hst.ghost]⟩
    objects := fun p _ => by rw [harch]
    present := fun _ p _ _ hy => by rw [hst.st]; exact hy
    listed := fun p _ hw => by rw [hS] at hw; exact hw
    wal := fun e n _ hp => by rw [hman] at hp; exact hp
    sst := fun x hx => by rw [hman] at hx; exact .inl hx
    opened := fun id pw => by rw [hst.ghost]
    listedId := fun id pw _ hl => by rw [hst.ghost] at hl; exact hl
    queue := hc ▸ List.prefix_refl _ }

theorem Calm.kept (h : Calm M who s s') (hi : Inv M.toTrack s.1 s.2) (hr : s.2.ready who.inst)
    (hh : Held who s.1) : Kept M who s s' := by
  refine (h.induct (R := fun x => Kept M who s x) hi (.refl hr hh) ?_ ?_).2
  · intro hs a b who' hia ha hne he
    exact ha.trans (he.kept hia hs hne ha.use.ready ha.held)
  · intro a b hia ha hb
    exact ha.trans (hb.kept hia ha.use.ready ha.held)

theorem Others.kept (h : Others M who s s') (hi : Inv M.toTrack s.1 s.2)
    (hr : s.2.ready who.inst) (hh : Held who s.1) : Kept M who s s' :=
  h.calm.kept hi hr hh

end OxKv
