import OxKv.Spec.PreserveQueue

/-!
The effects that replace the manifest keep the invariant: listing a WAL file,
publishing a flush, clearing the WAL list, and the two ends of a compaction.
-/

namespace OxKv

variable {T : Track} {M : Mode} {w : World} {g g' : Ghost} {who : Who} {m : Manifest}

/-! ## Frame rules for a new manifest -/

@[simp] theorem archive_publish (w : World) (who : Who) (m : Manifest) :
    (w.write who .manifest (.manifest m)).archive = w.archive :=
  archive_write_other rfl w who _

theorem live_publish (w : World) (g : Ghost) (who : Who) (m : Manifest) (j : Nat) :
    live (w.write who .manifest (.manifest m)) g j = live w g j :=
  liveFrom_log (by simp) w.hist

theorem owns_publish {j : Nat} (h : Owns (w.write who .manifest (.manifest m)) j) : Owns w j :=
  owns_write (p := .manifest) nofun h

/-- The contents of an instance after a new manifest: the entries found have to
show the same contents. -/
theorem LiveInv.publish {j : Nat} (hl : LiveInv T w g j)
    (hhit : Owns w j → ∀ k, T.Shows w
      (((w.inst j).mem.get? k).or (view (content T.cr w.archive) m.sst k)) (live w g j k))
    (hseq : Owns w j → ∀ x ∈ m.sst, x.seq < (w.inst j).sstSeq)
    (hlink : ¬ T.staging → Owns w j → g'.dur = applyOps (live w g j) (g'.win j))
    (hbase : g'.base = g.base) (hflight : g'.flight = g.flight)
    (hwin : (w.inst j).gate = none → g'.win j = []) :
    LiveInv T (w.write who .manifest (.manifest m)) g' j := by
  have hsuf := (histQuiet_write w who .manifest (.manifest m)).suffix
  have hlive : live (w.write who .manifest (.manifest m)) g' j = live w g j := by
    unfold OxKv.live
    rw [hbase]
    exact live_publish w g who m j
  refine ⟨hl.writer.mono hsuf rfl, fun ho k => ?_, fun ho x hx => ?_, fun hst ho => ?_, ?_,
    fun hg => ⟨hwin hg, by rw [hflight]; exact (hl.free hg).2⟩⟩
  · unfold liveHit sstHit
    rw [hlive, archive_publish, manifest_write]
    unfold Track.Shows
    rw [archive_publish]
    exact hhit (owns_publish ho) k
  · exact hseq (owns_publish ho) x hx
  · rw [hlive]
    exact hlink hst (owns_publish ho)
  · intro snap n hn
    rw [hflight] at hn
    obtain ⟨h0, hs, hlen, hk⟩ := hl.flight snap n hn
    refine ⟨h0, hs.trans hsuf, hlen, fun k x hx => ⟨(hk k x hx).1, fun ho => ?_⟩⟩
    unfold Track.Shows
    rw [archive_publish, hbase]
    exact (hk k x hx).2 (owns_publish ho)

/-- A new manifest: its files are there and in order, and the contents survive. -/
theorem Inv.publish (h : Inv M.toTrack w g) (hlist : ListOk M.cr w.archive m)
    (hssts : ∀ x ∈ m.sst, ∃ y, w.st.lookup x.id = some y)
    (hwals : ∀ p ∈ m.wal, ∃ y, w.st.lookup p = some y) (hslot : g'.slot = g.slot)
    (hpre : g.lin <+: g'.lin) (hsizes : ∀ e ∈ g'.lin, e.ids.length ≤ maxGroupWrites)
    (hready : g'.ready = g.ready)
    (hlive : ∀ i, g.ready i → LiveInv M.toTrack (w.write who .manifest (.manifest m)) g' i)
    (hdur : M.durable → ∀ k, M.Shows w ((walHit w.archive m.wal k).or
      (view (content M.cr w.archive) m.sst k)) (g'.dur k))
    (hlin : LinInv M.toTrack (w.write who .manifest (.manifest m)) g')
    (hsettled : ∀ id pw r, g.slot id = .settled pw r →
      ((∃ e ∈ g'.lin, id ∈ e.ids) ↔ ∃ e ∈ g.lin, id ∈ e.ids))
    (hidle : ∀ i, ¬ g.ready i → g'.win i = [] ∧ g'.flight i = none) :
    Inv M.toTrack (w.write who .manifest (.manifest m)) g' := by
  have hq := histQuiet_write w who .manifest (.manifest m)
  have hw : Writable M w who .manifest (.manifest m) := ⟨nofun, fun _ => ⟨m, rfl, hlist⟩, nofun⟩
  have hne : ObjectPath.manifest ≠ .ownership := nofun
  constructor
  · exact h.store.write hw
  · exact h.handle.write hw hne nofun
  · constructor
    · rw [manifest_write]
      exact fun x hx => PresentInv.lookup_write (hssts x hx)
    · rw [manifest_write]
      exact fun p hp => PresentInv.lookup_write (hwals p hp)
  · rw [hready]
    exact hlive
  · intro hd k
    unfold durableHit sstHit Track.Shows
    rw [archive_publish, manifest_write]
    exact hdur hd k
  · exact h.queue.keep hq.suffix hq.pushed rfl rfl (fun _ => rfl) (fun _ _ => id) hslot hsettled
  · exact hlin
  · exact hsizes
  · exact h.replies.keep hpre hq.returned
  · rw [hready]
    exact fun hm => h.wrote (hq.wrote hm)
  · rw [hready]
    exact hidle

/-- The current manifest lists only files of the listing order. -/
theorem Inv.listed (h : Inv T w g) {p : ObjectPath} (hp : p ∈ w.manifest.wal) :
    ∃ e ∈ g.lin, e.path = p := by
  unfold World.manifest at hp
  split at hp
  · rename_i m e hl
    obtain ⟨who, hm⟩ := h.store.held hl
    exact h.lin.listed hm p hp
  · cases hp

section Inv

variable (h : Inv M.toTrack w g)

include h

/-- No WAL file is added: the ghost state stays. -/
theorem Inv.republish (hlist : ListOk M.cr w.archive m)
    (hssts : ∀ x ∈ m.sst, ∃ y, w.st.lookup x.id = some y)
    (hsub : ∀ p ∈ m.wal, p ∈ w.manifest.wal)
    (hlive : ∀ i, g.ready i → LiveInv M.toTrack (w.write who .manifest (.manifest m)) g i)
    (hdur : M.durable → ∀ k, M.Shows w ((walHit w.archive m.wal k).or
      (view (content M.cr w.archive) m.sst k)) (g.dur k)) :
    Inv M.toTrack (w.write who .manifest (.manifest m)) g := by
  have hq := histQuiet_write w who .manifest (.manifest m)
  refine h.publish hlist hssts (fun p hp => h.present.wals p (hsub p hp)) rfl (List.prefix_refl _)
    h.sizes rfl hlive hdur ?_ (fun _ _ _ _ => .rfl) h.idle
  have hl := h.lin
  exact {
    event := fun e he => by
      obtain ⟨h0, m', t, hs, hrest⟩ := hl.event e he
      exact ⟨h0, m', t, hs.trans hq.suffix, hrest⟩
    order := hl.order
    paths := hl.paths
    listed := fun hm p hp => by
      rcases List.mem_cons.mp hm with heq | hm
      · cases heq
        exact h.listed (hsub p hp)
      · exact hl.listed hm p hp
    payload := fun e he => by
      rw [archive_publish]
      exact hl.payload e he
    batch := hl.batch
    once := hl.once }

/-! ## WAL collection -/

theorem Inv.clear (hwal : m.wal = []) (hsst : m.sst = w.manifest.sst)
    (hcovered : M.durable → ∀ k, M.Shows w (sstHit M.cr w k) (g.dur k)) :
    Inv M.toTrack (w.write who .manifest (.manifest m)) g := by
  have hold := h.store.listOk
  refine h.republish ⟨hsst ▸ hold.levels, hsst ▸ hold.ssts, by simp [hwal]⟩
    (hsst ▸ h.present.ssts) (by simp [hwal]) (fun i hi => ?_) (fun hd k => ?_)
  · have hl := h.live i hi
    exact hl.publish (by rw [hsst]; exact hl.hit) (by rw [hsst]; exact hl.seq) hl.link rfl rfl
      fun hg => (hl.free hg).1
  · rw [hwal, hsst, walHit_nil, Option.none_or]
    exact hcovered hd k

/-! ## Compaction -/

/-- The same contents are shown by different files. -/
theorem Inv.resst (hlist : ListOk M.cr w.archive m)
    (hssts : ∀ x ∈ m.sst, ∃ y, w.st.lookup x.id = some y) (hwal : m.wal = w.manifest.wal)
    (hsame : ∀ k, M.Same w (sstHit M.cr w k) (view (content M.cr w.archive) m.sst k))
    (hseq : ∀ i, g.ready i → Owns w i → ∀ x ∈ m.sst, x.seq < (w.inst i).sstSeq) :
    Inv M.toTrack (w.write who .manifest (.manifest m)) g := by
  -- the files decide only where the newer layer has no entry
  have hor : ∀ (x : Option (Option Bytes)) k y, M.Shows w (x.or (sstHit M.cr w k)) y →
      M.Shows w (x.or (view (content M.cr w.archive) m.sst k)) y := by
    intro x k y hx
    cases x with
    | none => exact hsame k y hx
    | some x => exact hx
  refine h.republish hlist hssts (by simp [hwal]) (fun i hi => ?_) (fun hd k => ?_)
  · have hl := h.live i hi
    exact hl.publish (fun ho k => hor _ k _ (hl.hit ho k)) (hseq i hi) hl.link rfl rfl
      fun hg => (hl.free hg).1
  · rw [hwal]
    exact hor _ k _ (h.durable hd k)

theorem Inv.drop {l0 l1 : List SstMeta} (hwal : m.wal = w.manifest.wal)
    (hin : compactionInputs w.manifest.sst = some (l0, l1))
    (hsst : m.sst = withoutInputs (l0 ++ l1) w.manifest.sst)
    (hdead : ∀ k raw, hit (content M.cr w.archive) l0 l1 k ≠ some (some raw)) :
    Inv M.toTrack (w.write who .manifest (.manifest m)) g := by
  have hold := h.store.listOk
  have hsub : ∀ x ∈ m.sst, x ∈ w.manifest.sst := by
    rw [hsst]
    exact fun x hx => List.mem_of_mem_filter hx
  refine h.resst ⟨?_, fun x hx => hold.ssts x (hsub x hx), by rw [hwal]; exact hold.wals⟩
    (fun x hx => h.present.ssts x (hsub x hx)) hwal (fun k y hy => ?_)
    (fun i hi ho x hx => (h.live i hi).seq ho x (hsub x hx))
  · rw [hsst]
    exact hold.levels.rest _
  · unfold sstHit at hy
    rw [view_eq_hit hold.levels hin] at hy
    rw [hsst]
    cases hh : hit (content M.cr w.archive) l0 l1 k with
    | none =>
      rw [hh] at hy
      exact hy
    | some v =>
      rw [view_rest_of_hit hold.levels hin hh]
      cases v with
      | none =>
        rw [hh] at hy
        exact hy
      | some raw => exact absurd hh (hdead k raw)

theorem Inv.merge {l0 l1 : List SstMeta} {entry : SstMeta} (howns : Owns w who.inst)
    (hwal : m.wal = w.manifest.wal)
    (hin : compactionInputs w.manifest.sst = some (l0, l1))
    (hsst : m.sst = installed (l0 ++ l1) entry w.manifest.sst)
    (hentry : NewEntry M who w 1 entry) (hmerge : HoldsMerge M w entry.id l0 l1) :
    Inv M.toTrack (w.write who .manifest (.manifest m)) g := by
  have hold := h.store.listOk
  have heq : installed (l0 ++ l1) entry w.manifest.sst =
      withoutInputs (l0 ++ l1) w.manifest.sst ++ [entry] := installed_eq hold.levels hentry.above
  have hsub : ∀ x ∈ m.sst, x ∈ w.manifest.sst ∨ x = entry := by
    intro x hx
    rw [hsst, heq] at hx
    rcases List.mem_append.mp hx with hx | hx
    · exact .inl (List.mem_of_mem_filter hx)
    · exact .inr (List.mem_singleton.mp hx)
  have hkeys : ∀ k v, (content M.cr w.archive entry.id).get? k = some v →
      hit (content M.cr w.archive) l0 l1 k ≠ none := by
    intro k v hv hnone
    have := hmerge k
    rw [hnone, hv] at this
    cases this
  refine h.resst ⟨?_, fun x hx => ?_, by rw [hwal]; exact hold.wals⟩ (fun x hx => ?_) hwal
    (fun k y hy => ?_) (fun i hi ho x hx => ?_)
  · rw [hsst]
    exact hold.levels.installed hin hentry.above hentry.levelEq
      ⟨_, by rw [hentry.levelEq]; exact hentry.idEq⟩ hentry.minKey hentry.maxKey hkeys
  · rcases hsub x hx with hx | rfl
    · exact hold.ssts x hx
    · exact hentry.file
  · rcases hsub x hx with hx | rfl
    · exact h.present.ssts x hx
    · exact hentry.present
  · unfold sstHit at hy
    rw [view_eq_hit hold.levels hin] at hy
    rw [hsst, view_installed hold.levels hentry.above]
    have hk := hmerge k
    cases hh : hit (content M.cr w.archive) l0 l1 k with
    | none =>
      rw [hh] at hy hk
      rw [hk]
      exact hy
    | some v =>
      rw [hh] at hy hk
      cases v with
      | none =>
        rw [hk, view_rest_of_hit hold.levels hin hh]
        exact hy
      | some raw =>
        obtain ⟨raw', hraw, hsame⟩ := hk
        rw [hraw]
        exact hsame y hy
  · rcases hsub x hx with hx | rfl
    · exact (h.live i hi).seq ho x hx
    · rw [h.handle.owns_unique ho howns]
      exact hentry.below

/-! ## Flush -/

theorem Inv.flush {entry : SstMeta} {snap : MemMap} {n : Nat} (howns : Owns w who.inst)
    (hready : g.ready who.inst) (hwin : g.win who.inst = [])
    (hwal : m.wal = w.manifest.wal) (hsst : m.sst = w.manifest.sst ++ [entry])
    (hentry : NewEntry M who w 0 entry) (hflight : g.flight who.inst = some (snap, n))
    (hsnap : HoldsSnapshot M w entry.id snap)
    (hmem : ¬ M.staging → (w.inst who.inst).mem = snap) :
    Inv M.toTrack (w.write who .manifest (.manifest m)) g := by
  have hold := h.store.listOk
  have hl := h.live _ hready
  have hsub : ∀ x ∈ m.sst, x ∈ w.manifest.sst ∨ x = entry := by
    intro x hx
    rw [hsst] at hx
    exact (List.mem_append.mp hx).imp id List.mem_singleton.mp
  have hview : ∀ k, view (content M.cr w.archive) m.sst k =
      ((content M.cr w.archive entry.id).get? k).or (sstHit M.cr w k) := by
    intro k
    rw [hsst]
    exact view_append_singleton ..
  refine h.republish ⟨?_, fun x hx => ?_, by rw [hwal]; exact hold.wals⟩ (fun x hx => ?_)
    (by simp [hwal]) (fun i hi => ?_) (fun hd k => ?_)
  · rw [hsst]
    exact hold.levels.push hentry.above hentry.levelEq
      ⟨_, by rw [hentry.levelEq]; exact hentry.idEq⟩ hentry.minKey hentry.maxKey
  · rcases hsub x hx with hx | rfl
    · exact hold.ssts x hx
    · exact hentry.file
  · rcases hsub x hx with hx | rfl
    · exact h.present.ssts x hx
    · exact hentry.present
  · have hli := h.live i hi
    refine hli.publish (fun ho k => ?_) (fun ho x hx => ?_) hli.link rfl rfl
      fun hg => (hli.free hg).1
    · obtain rfl := h.handle.owns_unique ho howns
      have hk := hl.hit ho k
      unfold liveHit at hk
      rw [hview]
      cases hm : (w.inst who.inst).mem.get? k with
      | some x =>
        rw [hm] at hk
        exact hk
      | none =>
        -- the snapshot has only keys that the MemTable still has
        have hnone : snap.get? k = none := by
          cases hs : snap.get? k with
          | none => rfl
          | some x =>
            obtain ⟨h0, -, -, hall⟩ := hl.flight snap n hflight
            have := (hall k x hs).1
            rw [hm] at this
            cases this
        have hc := hsnap k
        rw [hnone] at hc
        rw [hm] at hk
        rw [hc]
        exact hk
    · rcases hsub x hx with hx | rfl
      · exact hli.seq ho x hx
      · rw [h.handle.owns_unique ho howns]
        exact hentry.below
  · have hns := M.durable_staging hd
    have hdurable : M.Shows w ((walHit w.archive w.manifest.wal k).or (sstHit M.cr w k))
        (g.dur k) := h.durable hd k
    rw [hwal, hview]
    cases hw : walHit w.archive w.manifest.wal k with
    | some y =>
      rw [hw] at hdurable
      exact hdurable
    | none =>
      rw [hw] at hdurable
      have hc := hsnap k
      cases hs : snap.get? k with
      | none =>
        rw [hs] at hc
        rw [hc]
        exact hdurable
      | some x =>
        rw [hs] at hc
        obtain ⟨x', hx', hsame⟩ := hc
        have hk := hl.hit howns k
        unfold liveHit at hk
        rw [hmem hns, hs] at hk
        rw [hl.link hns howns, hwin, hx']
        exact hsame _ hk

end Inv

/-! ## Listing a WAL file -/

/-- A listed file is older than the history. -/
theorem LinInv.pos_lt (h : LinInv T w g) {e : LinEntry} (he : e ∈ g.lin) :
    e.pos < w.hist.length := by
  obtain ⟨h0, m, t, hs, hlen, -⟩ := h.event e he
  have := hs.length_le
  simp only [List.length_cons] at this
  omega

theorem mem_stores {h : History} {who : Who} {p : ObjectPath} {o : Obj} {t : Etag} :
    (who, p, o, t) ∈ stores h ↔ (who, What.stored p o t) ∈ h := by
  simp only [stores, List.mem_filterMap]
  constructor
  · rintro ⟨⟨who', e⟩, hm, he⟩
    cases e <;> cases he
    exact hm
  · exact fun hm => ⟨_, hm, rfl⟩

theorem LinInv.wasListed (h : LinInv T w g) {e : LinEntry} (he : e ∈ g.lin) :
    WasListed (stores w.hist) e.path := by
  obtain ⟨h0, m, t, hs, -, hp, -⟩ := h.event e he
  exact ⟨e.who, m, t, mem_stores.mpr (hs.subset (List.mem_cons_self ..)), Or.inl hp⟩

theorem LinInv.list {path : ObjectPath} {ids : List Nat} {ops updates : List Op}
    (h : Inv M.toTrack w g) (hwal : m.wal = w.manifest.wal ++ [path])
    (hok : Listable M who w g path ids ops updates) (hlin : g'.lin = g.lin ++
      [⟨who, w.hist.length, path, ids, ops⟩]) (hslot : g'.slot = g.slot) :
    LinInv M.toTrack (w.write who .manifest (.manifest m)) g' := by
  have hl := h.lin
  have hsuf := (histQuiet_write w who .manifest (.manifest m)).suffix
  constructor
  · intro e he
    rw [hlin] at he
    rcases List.mem_append.mp he with he | he
    · obtain ⟨h0, m', t, hs, hrest⟩ := hl.event e he
      exact ⟨h0, m', t, hs.trans hsuf, hrest⟩
    · rw [List.mem_singleton.mp he]
      exact ⟨w.hist, m, w.st.seq + 1, List.suffix_refl _, rfl, by simp [hwal],
        hok.drained, fun hst => (hok.same hst).2⟩
  · rw [hlin]
    exact List.pairwise_append.mpr ⟨hl.order, by simp, fun e he _ hx => by
      rw [List.mem_singleton.mp hx]
      exact hl.pos_lt he⟩
  · rw [hlin, List.map_append]
    refine .append hl.paths (List.nodup_singleton _) ?_
    intro p hp hp'
    obtain ⟨e, he, rfl⟩ := List.mem_map.mp hp
    simp only [List.map_cons, List.map_nil, List.mem_singleton] at hp'
    exact hok.fresh (hp' ▸ hl.wasListed he)
  · intro who' m' t hm p hp
    rw [hlin]
    have hcur : p ∈ m.wal → ∃ e ∈ g.lin ++ [⟨who, w.hist.length, path, ids, ops⟩],
        e.path = p := by
      intro hp
      rw [hwal] at hp
      rcases List.mem_append.mp hp with hp | hp
      · obtain ⟨e, he, hpe⟩ := h.listed hp
        exact ⟨e, by simp [he], hpe⟩
      · exact ⟨_, List.mem_append_right _ (List.mem_singleton_self _),
          (List.mem_singleton.mp hp).symm⟩
    rcases List.mem_cons.mp hm with heq | hm
    · cases heq
      exact hcur hp
    · obtain ⟨e, he, hpe⟩ := hl.listed hm p hp
      exact ⟨e, by simp [he], hpe⟩
  · intro e he
    rw [archive_publish]
    rw [hlin] at he
    rcases List.mem_append.mp he with he | he
    · exact hl.payload e he
    · rw [List.mem_singleton.mp he]
      exact hok.payload
  · intro e he hne
    rw [hslot]
    rw [hlin] at he
    rcases List.mem_append.mp he with he | he
    · exact hl.batch e he hne
    · obtain rfl := List.mem_singleton.mp he
      rcases hok.batch with hnil | ⟨batch, hb⟩
      · exact absurd hnil hne
      · exact ⟨batch, hb.idsEq, hb.opsEq, fun pw hpw => .inl ⟨_, hb.opened pw hpw⟩⟩
  · rw [hlin, List.flatMap_append]
    simp only [List.flatMap_cons, List.flatMap_nil, List.append_nil]
    rcases hok.batch with rfl | ⟨batch, hb⟩
    · simpa using hl.once
    · refine .append hl.once hb.nodup ?_
      intro id hid hid'
      obtain ⟨e, he, hide⟩ := List.mem_flatMap.mp hid
      exact hb.fresh e he id hid' hide

theorem Inv.list {path : ObjectPath} {ids : List Nat} {ops updates : List Op}
    (h : Inv M.toTrack w g) (hheld : Held who w) (howns : Owns w who.inst)
    (hready : g.ready who.inst) (hwin : g.win who.inst = [])
    (hwal : m.wal = w.manifest.wal ++ [path]) (hsst : m.sst = w.manifest.sst)
    (hok : Listable M who w g path ids ops updates) :
    Inv M.toTrack (w.write who .manifest (.manifest m))
      { g with
        lin := g.lin ++ [⟨who, w.hist.length, path, ids, ops⟩]
        win := Function.update g.win who.inst updates } := by
  have hold := h.store.listOk
  have hdur : ({ g with
      lin := g.lin ++ [⟨who, w.hist.length, path, ids, ops⟩]
      win := Function.update g.win who.inst updates } : Ghost).dur = applyOps g.dur ops := by
    simp [Ghost.dur]
  refine h.publish ⟨by rw [hsst]; exact hold.levels, by rw [hsst]; exact hold.ssts, fun p hp => ?_⟩
    (by rw [hsst]; exact h.present.ssts) (fun p hp => ?_) rfl (List.prefix_append ..) ?_ rfl
    (fun i hi => ?_) (fun hd k => ?_) (LinInv.list h hwal hok rfl rfl) (fun id pw r hs => ?_)
    (fun i hi => ?_)
  · rw [hwal] at hp
    rcases List.mem_append.mp hp with hp | hp
    · exact hold.wals p hp
    · rw [List.mem_singleton.mp hp]
      obtain ⟨n, hn⟩ := hok.pathEq
      obtain ⟨b, hb, -⟩ := hok.payload
      exact ⟨_, n, b, hn, hb⟩
  · rw [hwal] at hp
    rcases List.mem_append.mp hp with hp | hp
    · exact h.present.wals p hp
    · rw [List.mem_singleton.mp hp]
      exact hok.present
  · intro e he
    rcases List.mem_append.mp he with he | he
    · exact h.sizes e he
    · rw [List.mem_singleton.mp he]
      exact hok.size
  · have hl := h.live i hi
    refine hl.publish (by rw [hsst]; exact hl.hit) (by rw [hsst]; exact hl.seq) ?_ rfl rfl
      (fun hg => ?_)
    · intro hst ho
      obtain rfl := h.handle.owns_unique ho howns
      rw [hdur, hl.link hst ho, hwin]
      simp [(hok.same hst).1]
    · by_cases hiw : i = who.inst
      · subst hiw
        rw [show (w.inst who.inst).gate = some who.thread from hheld] at hg
        cases hg
      · simp only [Function.update_of_ne hiw]
        exact (hl.free hg).1
  · rw [hdur, hwal, hsst, walHit_append, hok.decode hd, applyOps_apply]
    cases hlk : ops.reverse.lookup k with
    | none => exact h.durable hd k
    | some x =>
      have hmem := List.mem_reverse.mp (SortedMap.mem_of_lookup hlk)
      exact shows_plain fun hs v hv => M.plain hs v ((hok.ok _ hmem).1 hs v hv)
  · refine ⟨fun ⟨e, he, hid⟩ => ?_, fun ⟨e, he, hid⟩ => ⟨e, by simp [he], hid⟩⟩
    rcases List.mem_append.mp he with he | he
    · exact ⟨e, he, hid⟩
    · obtain rfl := List.mem_singleton.mp he
      rcases hok.batch with rfl | ⟨batch, hb⟩
      · cases hid
      · have hid : id ∈ ids := hid
        rw [hb.idsEq] at hid
        obtain ⟨pw', hpw', rfl⟩ := List.mem_map.mp hid
        rw [hb.opened pw' hpw'] at hs
        cases hs
  · have hne : i ≠ who.inst := by
      rintro rfl
      exact hi hready
    simp only [Function.update_of_ne hne]
    exact h.idle i hi

/-! ## All effects -/

/-- Every effect keeps the invariant. -/
theorem Effect.inv {s s' : State} (he : Effect M who s s')
    (h : Inv M.toTrack s.1 s.2) : Inv M.toTrack s'.1 s'.2 := by
  cases he with
  | idle => exact h
  | look e he => exact h.look he
  | tune y hy => exact h.tune hy
  | lock hgate => exact h.lock
  | unlock hheld hwin hopen => exact h.unlock hwin hopen
  | create p o hheld hwriter hnew hobj => exact h.create hwriter hnew hobj
  | canary o => exact h.canary
  | uncanary => exact h.uncanary
  | erase p hheld hwriter hp => exact h.erase hp
  | acquire r hmode hr => exact h.acquire hr
  | handle epoch session skip hepoch hfresh hopener hready hgate hpending =>
    exact h.handle' hepoch hfresh hready hgate hpending
  | replay mem hopener hready hmem => exact h.replay hready hmem
  | ready walSeq sstSeq m hopener hready hwriter hwal hsst hm hshows hseq =>
    exact h.ready' hready hwriter hwal hsst hm hshows hseq
  | list m path ids ops updates hheld howns hready hwin hwal hsst hok =>
    exact h.list hheld howns hready hwin hwal hsst hok
  | flush m entry snap n hheld howns hready hwin hwal hsst hentry hflight hsnap hmem hgap =>
    exact h.flush howns hready hwin hwal hsst hentry hflight hsnap hmem
  | clear m hheld howns hwal hsst hcovered => exact h.clear hwal hsst hcovered
  | drop m l0 l1 hheld howns hwal hin hsst hdead => exact h.drop hwal hin hsst hdead
  | merge m l0 l1 entry hheld howns hready hwal hin hsst hentry hmerge =>
    exact h.merge howns hwal hin hsst hentry hmerge
  | stage ops hstaging _ hready hops => exact h.stage hstaging hready hops
  | apply ops hheld hready hwin hops => exact h.apply hready hwin hops
  | snapshot hheld hready => exact h.snapshot hheld hready
  | discard snap hheld hready hsnap => exact h.discard hheld hready hsnap
  | take => exact h.take
  | push pw htaken henc hop => exact h.push htaken henc hop
  | drain max hheld => exact h.drain hheld
  | send pw r hheld hopen hr => exact h.send hopen hr
  | mark m hm => exact h.mark hm

end OxKv
