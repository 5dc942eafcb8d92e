import OxKv.Proc.Collect

/-!
`compact_inner` under the rules of the engine.

* `resolveOps_safe`, `compactionSources_safe`: the rows of the inputs, resolved;
* `MergedTo`: the entries of the merged file against the inputs;
* `removeLoop_safe`, `installLoop_safe`: the two outcomes are `drop` and `merge`
  effects, and only files that are not listed any more are deleted;
* `compactInner_safe`: a compaction changes no contents.
-/

namespace OxKv

open Layers

variable {M : Mode} {who : Who} {s s' s'' : State} {cx : Ctx}

/-! ## Reading the inputs -/

/-- A row with its raw value resolved. -/
def Resolved (M : Mode) (ob : Objects) (a b : Op) : Prop :=
  a.1 = b.1 ∧ Shows M.strict M.cr ob (some a.2) b.2

variable {ob ob' : Objects}

theorem Resolved.mono (hg : Grows ob ob') {a b : Op} (h : Resolved M ob a b) : Resolved M ob' a b :=
  ⟨h.1, h.2.mono hg⟩

/-- A resolved row holds a tracked value. -/
theorem Resolved.okOp {a b : Op} (h : Resolved M ob a b) (hs : M.StoredOp ob a) : M.OkOp b := by
  obtain ⟨key, raw⟩ := a
  obtain ⟨key', value⟩ := b
  obtain ⟨rfl, hshow⟩ := h
  refine ⟨fun hst v hv => ?_, hs.2⟩
  cases raw with
  | none => rw [show value = none from hshow] at hv; cases hv
  | some raw =>
    obtain ⟨v', hv', hres⟩ := hshow
    obtain ⟨u, hu, hru⟩ := hs.1 hst raw rfl
    rw [show value = some v' from hv'] at hv
    cases hv
    rw [hres hst] at hru
    cases hru
    exact hu

theorem resolveOps_safe (hcr : cx.crates = M.cr) {rows : List Op} (h : Reading M who s)
    (hrows : ∀ op ∈ rows, Readable M s.1.archive (some op.2)) :
    IoSafe (readRules M) who (resolveOps cx rows) (ReadEnds M who (M.faults ∨ ¬ M.strict)
      fun rows' s' => List.Forall₂ (Resolved M s'.1.archive) rows rows') s := by
  induction rows generalizing s with
  | nil => exact .pure fun s' ho _ => ⟨h.others ho, .nil⟩
  | cons op rows ih =>
    obtain ⟨key, raw⟩ := op
    have hraw := hrows (key, raw) (by simp)
    refine .readBind (resolveHit_safe hcr h hraw) id fun v s1 hs1 h1 hv => ?_
    have hg1 := hs1.grows h.inv
    refine .readBind (ih h1 fun op hop => (hrows op (by simp [hop])).mono hg1) id
      fun rows' s2 hs2 h2 hall => .pure fun s3 ho _ => ⟨h2.others ho, .cons ?_ ?_⟩
    · have hc : Calm M who s s3 := (hs1.trans hs2).trans ho.calm
      exact ⟨rfl, hv.mono (hc.grows h.inv)⟩
    · exact hall.imp fun _ _ hp => hp.mono (ho.calm.grows h2.inv)

def Sources (M : Mode) (ob : Objects) (ms : List SstMeta) (sources : List (List Op)) : Prop :=
  List.Forall₂ (fun m src => List.Forall₂ (Resolved M ob) (content M.cr ob m.id).toList src)
    ms sources

variable {ms : List SstMeta} {sources : List (List Op)}

theorem Sources.mono (hg : Grows ob ob') (hf : ∀ x ∈ ms, ∃ f, ob x.id = some (.sst f))
    (h : Sources M ob ms sources) : Sources M ob' ms sources := by
  induction h with
  | nil => exact .nil
  | @cons m src ms sources hm _ ih =>
    obtain ⟨f, hfm⟩ := hf m (by simp)
    refine .cons ?_ (ih fun x hx => hf x (by simp [hx]))
    rw [content_mono hg hfm]
    exact hm.imp fun _ _ hp => hp.mono hg

variable {p : ObjectPath} {f : SstFile}

theorem Inv.storedOp {w : World} {g : Ghost} (h : Inv M.toTrack w g)
    (hf : w.archive p = some (.sst f)) :
    ∀ op ∈ (content M.cr w.archive p).toList, M.StoredOp w.archive op := by
  intro op hop
  unfold content at hop
  rw [hf] at hop
  exact h.store.sstVal hf op hop

theorem compactionSources_safe (hcr : cx.crates = M.cr) (h : Reading M who s) (hl : Listing M s ms) :
    IoSafe (readRules M) who (compactionSources cx ms)
      (ReadResult M who fun sources s' => Sources M s'.1.archive ms sources) s := by
  induction ms generalizing s with
  | nil => exact .pure fun s' ho _ => ⟨h.others ho, .nil⟩
  | cons x ms ih =>
    obtain ⟨f, hf⟩ := hl.files x (by simp)
    refine .readBind (fetchSst_safe hcr h hf fun hs => hl.present hs x (by simp)) (.imp id .inr)
      fun f' s1 hs1 h1 heq => ?_
    subst heq
    have hall : ((content M.cr s.1.archive x.id).toList.filter fun op => inRange none none op.1) =
        (content M.cr s.1.archive x.id).toList :=
      List.filter_eq_self.mpr (by simp [inRange])
    refine .bind (.ofRes fun s2 ho2 _ => ?_)
    rw [hcr, (h.inv.holds hf).scan none none, hall]
    have hc2 : Calm M who s s2 := hs1.trans ho2.calm
    refine .readBind (resolveOps_safe hcr (h1.others ho2) fun op hop =>
      (h.inv.readable_row hf hop).mono (hc2.grows h.inv)) (.imp id .inl)
      fun src s3 hs3 h3 hsrc => ?_
    have hc3 : Calm M who s s3 := hc2.trans hs3
    refine .readBind (ih h3 (hl.tail.calm hc3 h.inv)) id fun sources s4 hs4 h4 hsources =>
      .pure fun s5 ho5 _ => ⟨h4.others ho5, .cons ?_ ?_⟩
    · have hc5 : Calm M who s3 s5 := hs4.trans ho5.calm
      rw [content_mono ((hc3.grows h.inv).trans (hc5.grows h3.inv)) hf]
      exact hsrc.imp fun _ _ hp => hp.mono (hc5.grows h3.inv)
    · have hc4 : Calm M who s s4 := hc3.trans hs4
      exact Sources.mono (ho5.calm.grows h4.inv)
        (fun y hy => (hl.tail.files y hy).imp fun _ hf => hc4.grows h.inv _ _ hf) hsources

/-! ## The merged rows -/

theorem forall₂_mem_right {α β : Type} {R : α → β → Prop} {l : List α} {l' : List β}
    (h : List.Forall₂ R l l') {b : β} (hb : b ∈ l') : ∃ a ∈ l, R a b := by
  induction h with
  | nil => cases hb
  | cons hr _ ih =>
    rcases List.mem_cons.mp hb with rfl | hb
    · exact ⟨_, by simp, hr⟩
    · obtain ⟨a, ha, hra⟩ := ih hb
      exact ⟨a, by simp [ha], hra⟩

/-- The newest resolved row of a key shows what the newest raw row shows. -/
theorem Sources.firstHit (h : Sources M ob ms sources) (k : Key) :
    Option.Rel (fun x y => Shows M.strict M.cr ob (some x) y)
      (Layers.firstHit (ms.map fun m => (content M.cr ob m.id).toList) k)
      (Layers.firstHit sources k) := by
  refine firstHit_rel ?_ k
  rw [List.forall₂_map_left_iff]
  exact h

/-- The rows of the merged table. -/
theorem liveOps_eq (sources : List (List Op)) :
    SortedMap.empty.insertAll ((mergeSources sources).map fun kv => (kv.1, some kv.2)) =
      (mergeAll sources).filter fun _ v => v.isSome := by
  have hrows : ((mergeSources sources).map fun kv => (kv.1, some kv.2)) =
      ((mergeAll sources).filter fun _ v => v.isSome).toList := by
    show List.map _ (List.filterMap _ (mergeAll sources).toList) =
      List.filter (fun e => e.2.isSome) (mergeAll sources).toList
    generalize (mergeAll sources).toList = l
    induction l with
    | nil => rfl
    | cons e l ih =>
      obtain ⟨key, value⟩ := e
      cases value with
      | none | some v => simpa using ih
  rw [hrows, insertAll_toList]

/-- The live rows hold tracked values. -/
theorem Sources.okOps {w : World} {g : Ghost} (h : Sources M w.archive ms sources)
    (hi : Inv M.toTrack w g) (hf : ∀ x ∈ ms, ∃ f, w.archive x.id = some (.sst f)) :
    ∀ op ∈ (mergeSources sources).map (fun kv => (kv.1, some kv.2)), M.OkOp op := by
  have hall : ∀ src ∈ sources, ∀ op ∈ src, M.OkOp op := by
    induction h with
    | nil => simp
    | @cons m src ms sources hm _ ih =>
      obtain ⟨f, hfm⟩ := hf m (by simp)
      intro l hl op hop
      rcases List.mem_cons.mp hl with rfl | hl
      · obtain ⟨a, ha, hres⟩ := forall₂_mem_right hm hop
        exact hres.okOp (hi.storedOp hfm a ha)
      · exact ih (fun x hx => hf x (by simp [hx])) l hl op hop
  intro op hop
  obtain ⟨kv, hkv, rfl⟩ := List.mem_map.mp hop
  obtain ⟨⟨k, x⟩, hx, heq⟩ := List.mem_filterMap.mp hkv
  cases x with
  | none => cases heq
  | some v =>
    cases heq
    rw [SortedMap.mem_toList, get?_mergeAll] at hx
    obtain ⟨src, hsrc, hlook⟩ := List.exists_of_findSome?_eq_some hx
    exact hall src hsrc _ (SortedMap.mem_of_lookup hlook)

def MergedTo (M : Mode) (ob : Objects) (l0 l1 : List SstMeta) (entries : MemMap) : Prop :=
  ∀ k, match hit (content M.cr ob) l0 l1 k with
    | some (some raw) => ∃ v raw', entries.get? k = some (some raw') ∧
        (M.strict → resolve M.cr ob raw = some v ∧ resolve M.cr ob raw' = some v)
    | _ => entries.get? k = none

def Archived (ob : Objects) (ms : List SstMeta) : Prop := ∀ x ∈ ms, ∃ f, ob x.id = some (.sst f)

theorem Archived.mono (hg : Grows ob ob') (h : Archived ob ms) : Archived ob' ms :=
  fun x hx => (h x hx).imp fun _ hf => hg _ _ hf

variable {l0 l1 : List SstMeta}

theorem hit_grows (hg : Grows ob ob') (hf : Archived ob (l1 ++ l0)) (k : Key) :
    hit (content M.cr ob') l0 l1 k = hit (content M.cr ob) l0 l1 k := by
  rw [hit_eq, hit_eq, view_grows hg hf]

variable {entries : MemMap}

theorem MergedTo.mono (hg : Grows ob ob') (hf : Archived ob (l1 ++ l0))
    (h : MergedTo M ob l0 l1 entries) : MergedTo M ob' l0 l1 entries := by
  intro k
  have hk := h k
  rw [hit_grows hg hf]
  match hh : hit (content M.cr ob) l0 l1 k with
  | none => rw [hh] at hk; exact hk
  | some none => rw [hh] at hk; exact hk
  | some (some raw) =>
    rw [hh] at hk
    obtain ⟨v, raw', hget, hres⟩ := hk
    exact ⟨v, raw', hget, fun hs => ⟨resolve_mono hg (hres hs).1, resolve_mono hg (hres hs).2⟩⟩

/-- Merging the resolved sources and spilling the live rows. -/
theorem mergedTo {rows : List Op} (hsrc : Sources M ob (l0.reverse ++ l1.reverse) sources)
    (hsp : List.Forall₂ (Spilled M ob)
      ((mergeSources sources).map fun kv => (kv.1, some kv.2)) rows) :
    MergedTo M ob l0 l1 (SortedMap.empty.insertAll rows) := by
  intro k
  have hrel := hsrc.firstHit k
  have hget := get?_spilled hsp k
  rw [liveOps_eq, SortedMap.get?_filter, get?_mergeAll] at hget
  change Option.Rel _ (hit (content M.cr ob) l0 l1 k) _ at hrel
  match hh : hit (content M.cr ob) l0 l1 k, hf : firstHit sources k, hrel with
  | none, none, _ => rw [hf] at hget; simpa using hget
  | some x, some y, hrel' =>
    have hshow : Shows M.strict M.cr ob (some x) y := by
      rw [hh, hf] at hrel
      cases hrel with
      | some h => exact h
    rw [hf] at hget
    cases x with
    | none =>
      obtain rfl : y = none := hshow
      exact hget
    | some raw =>
      obtain ⟨v, rfl, hres⟩ := hshow
      obtain ⟨x', hx', -, raw', hraw', -, hres'⟩ := hget
      obtain rfl : x' = some raw' := hraw'
      exact ⟨v, raw', hx', fun hs => ⟨hres hs, hres' hs⟩⟩

theorem MergedTo.holdsMerge {w : World} {id : ObjectPath} (h : MergedTo M w.archive l0 l1 entries)
    (hc : content M.cr w.archive id = entries) : HoldsMerge M w id l0 l1 := by
  intro k
  have hk := h k
  rw [hc]
  match hh : hit (content M.cr w.archive) l0 l1 k with
  | none => rw [hh] at hk; exact hk
  | some none => rw [hh] at hk; exact hk
  | some (some raw) =>
    rw [hh] at hk
    obtain ⟨v, raw', hget, hres⟩ := hk
    refine ⟨raw', hget, ?_⟩
    rintro y ⟨u, rfl, hu⟩
    refine ⟨u, rfl, fun hs => ?_⟩
    rw [← hu hs, (hres hs).1, (hres hs).2]

/-- Without entries every key of the inputs is dead. -/
theorem MergedTo.dead (h : MergedTo M ob l0 l1 entries) (hempty : entries.isEmpty = true) (k : Key)
    (raw : Bytes) : hit (content M.cr ob) l0 l1 k ≠ some (some raw) := by
  intro hh
  have hk := h k
  rw [hh] at hk
  obtain ⟨v, raw', hget, -⟩ := hk
  rw [(SortedMap.isEmpty_iff entries).mp hempty k] at hget
  cases hget

/-! ## Deleting the inputs -/

/-- An SST file that was listed and is not any more; nobody lists it again. -/
structure Retired (s : State) (p : ObjectPath) : Prop where
  path : ∃ e l n, p = .sst e l n
  was : WasListed (stores s.1.hist) p
  gone : ∀ x ∈ s.1.manifest.sst, x.id ≠ p

theorem Retired.tended (h : Retired s p) (ht : Tended M who s s') : Retired s' p where
  path := h.path
  was := by
    obtain ⟨t, ht, -⟩ := ht.hist
    exact h.was.mono fun x hx => (stores_suffix ⟨t, ht.symm⟩).subset hx
  gone x hx hid := by
    rcases ht.sst x hx with hx | hnew
    · exact h.gone x hx hid
    · exact hnew (hid ▸ h.was)

theorem Retired.erasable (h : Retired s p) : Erasable M who s.1 p := by
  obtain ⟨e, l, n, rfl⟩ := h.path
  exact .sst e l n h.was h.gone

theorem deleteAll_safe {ps : List ObjectPath} (h : Gated M who cx s)
    (hps : ∀ p ∈ ps, Retired s p) :
    IoSafe (rules M) who (deleteAll ps) (fun _ s' => Tended M who s s' ∧ Gated M who cx s') s := by
  induction ps generalizing s with
  | nil => exact .pure fun s' ho _ => ⟨(h.kept ho.calm).tended, h.others ho⟩
  | cons p ps ih =>
    refine .attemptBind ((erase_safe h fun s1 ht _ =>
      ((hps p (by simp)).tended ht).erasable).mono ?_)
    rintro r s1 - ⟨ht, h1⟩
    refine (ih h1 fun q hq => (hps q (by simp [hq])).tended ht).mono ?_
    exact fun _ s2 _ ⟨ht2, h2⟩ => ⟨ht.trans ht2, h2⟩

theorem sstCacheRemove_safe (p : ObjectPath) (h : Reading M who s) :
    IoSafe (readRules M) who (Io.act (.sstCacheRemove p))
      (ReadEnds M who False fun _ _ => True) s := by
  refine .act (readStep (fun _ _ => rfl) fun s1 hs1 hi1 c r t _ hx => ?_)
  cases hx
  have hin : Inert who s1 (s1.1.setInst who.inst { s1.1.inst who.inst with
      sstCache := Function.update (s1.1.inst who.inst).sstCache p none }, s1.2) :=
    .sstCache hi1 p nofun
  exact ⟨hin, fun s2 hs2 _ => ⟨((h.others hs1).inert hin (by simp)).others hs2, trivial⟩⟩

theorem dropInputs_safe {ps : List ObjectPath} (h : Gated M who cx s)
    (hps : ∀ p ∈ ps, Retired s p) :
    IoSafe (rules M) who (dropInputs ps) (fun _ s' => Tended M who s s' ∧ Gated M who cx s') s := by
  induction ps generalizing s with
  | nil => exact .pure fun s' ho _ => ⟨(h.kept ho.calm).tended, h.others ho⟩
  | cons p ps ih =>
    refine h.readBind (sstCacheRemove_safe p h.toReading) (fun _ _ _ _ => False.elim)
      fun _ s1 hk1 h1 _ => ?_
    refine .attemptBind ((erase_safe h1 fun s2 ht _ =>
      ((hps p (by simp)).tended (hk1.tended.trans ht)).erasable).mono ?_)
    rintro r s2 - ⟨ht, h2⟩
    have ht' := hk1.tended.trans ht
    refine (ih h2 fun q hq => (hps q (by simp [hq])).tended ht').mono ?_
    exact fun _ s3 _ ⟨ht3, h3⟩ => ⟨ht'.trans ht3, h3⟩

/-! ## Publishing -/

/-- The plan of a compaction: the listed files have not changed since they were
loaded, unless the prefix was taken over. -/
structure Plan (M : Mode) (who : Who) (l0 l1 : List SstMeta) (s : State) : Prop where
  inputs : M.solo ∨ Owns s.1 who.inst → compactionInputs s.1.manifest.sst = some (l0, l1)
  files : Archived s.1.archive (l1 ++ l0)

theorem Plan.tended (h : Plan M who l0 l1 s) (ht : Tended M who s s') : Plan M who l0 l1 s' where
  inputs ho := by
    rw [manifest_eq (ht.manifest ho).1]
    exact h.inputs (ho.imp id ht.owns)
  files := h.files.mono ht.grows

variable {m : Manifest}

/-- The files of the current manifest were listed. -/
theorem Gated.wasListed (h : Gated M who cx s) {e : Etag} (hcur : Current s.1 m e) {y : SstMeta}
    (hy : y ∈ s.1.manifest.sst) : WasListed (stores s.1.hist) y.id := by
  unfold World.manifest at hy
  rcases hcur with hl | ⟨hnone, -⟩
  · rw [hl] at hy
    obtain ⟨who', hm⟩ := h.inv.store.held hl
    exact ⟨who', m, e, hm, Or.inr ⟨y, hy, rfl⟩⟩
  · rw [hnone] at hy
    cases hy

/-- The inputs that a replaced manifest listed are retired if the new one does not
list them. -/
theorem Gated.retired (h : Gated M who cx s) {m' : Manifest} {e : Etag} (hcur : Current s.1 m e)
    (hin : compactionInputs s.1.manifest.sst = some (l0, l1)) {g' : Ghost}
    (hsst : ∀ x ∈ m'.sst, ∀ y ∈ l0 ++ l1, x.id ≠ y.id) (hp : p ∈ (l0 ++ l1).map SstMeta.id) :
    Retired (s.1.write who .manifest (.manifest m'), g') p := by
  obtain ⟨y, hy, rfl⟩ := List.mem_map.mp hp
  have hys : y ∈ s.1.manifest.sst := inputs_subset hin (by
    rw [List.mem_append] at hy ⊢
    exact hy.symm)
  obtain ⟨ep, hid⟩ := h.inv.store.listOk.levels.ids y hys
  refine ⟨⟨ep, _, _, hid⟩, ?_, fun x hx => ?_⟩
  · rw [stores_write]
    exact (h.wasListed hcur hys).mono fun x hx => List.mem_cons_of_mem _ hx
  · refine hsst x ?_ y hy
    simpa [World.manifest] using hx

theorem withoutInputs_id {inputs sst : List SstMeta} {x y : SstMeta}
    (hx : x ∈ withoutInputs inputs sst) (hy : y ∈ inputs) : x.id ≠ y.id := by
  simp only [withoutInputs, List.mem_filter, List.any_eq_true, decide_eq_true_eq, not_exists,
    not_and] at hx
  exact fun heq => hx.2 y hy heq.symm

theorem removeLoop_safe (n : Nat) (h : Gated M who cx s) (hplan : Plan M who l0 l1 s)
    (hdead : ∀ k raw, hit (content M.cr s.1.archive) l0 l1 k ≠ some (some raw)) :
    IoSafe (rules M) who (removeLoop cx (l0 ++ l1) n) (fun _ s' => Maintained M who cx s s') s := by
  rw [removeLoop_eq]
  refine casLoop_safe (J := fun s => Plan M who l0 l1 s ∧
      ∀ k raw, hit (content M.cr s.1.archive) l0 l1 k ≠ some (some raw)) n h ⟨hplan, hdead⟩
    (fun ⟨hplan, hdead⟩ _ _ hk => ⟨hplan.tended hk.tended, fun k raw => ?_⟩)
    (fun ⟨hplan, hdead⟩ h howns hcur hedit _ => ?_) (fun ⟨hplan, _⟩ h howns hcur hedit _ ht h' => ?_)
  · rw [hit_grows hk.grows hplan.files]
    exact hdead k raw
  · split at hedit <;> cases hedit
    refine .drop _ l0 l1 h.held (.inr howns) hcur.lists.1.symm (hplan.inputs (.inr howns)) ?_ hdead
    rw [hcur.lists.2]
    rfl
  · split at hedit <;> cases hedit
    refine Maintained.ofTended (deleteAll_safe h' fun p hp => ?_)
    exact (h.retired hcur (hplan.inputs (.inr howns)) (fun x hx y hy => withoutInputs_id hx hy)
      hp).tended ht

/-- The merged file of a compaction, before it is listed. -/
structure Ready (M : Mode) (who : Who) (cx : Ctx) (l0 l1 : List SstMeta) (n : Nat)
    (entries : MemMap) (f : SstFile) (s : State) : Prop where
  plan : Plan M who l0 l1 s
  unlisted : Unlisted M who s (.sst cx.epoch 1 n) (.sst f)
  below : n < (s.1.inst who.inst).sstSeq
  above : Owns s.1 who.inst → ∀ x ∈ s.1.manifest.sst, x.seq < n
  built : ∃ snap, BuiltFrom M s.1.archive snap entries f
  merged : MergedTo M s.1.archive l0 l1 entries
  nonempty : entries.isEmpty = false

theorem Ready.kept {n : Nat} (h : Ready M who cx l0 l1 n entries f s) (hk : Kept M who s s') :
    Ready M who cx l0 l1 n entries f s' where
  plan := h.plan.tended hk.tended
  unlisted := h.unlisted.kept hk
  below := by rw [hk.work.sstSeq]; exact h.below
  above := hk.tended.above h.above
  built := h.built.imp fun _ hb => hb.mono hk.grows
  merged := h.merged.mono hk.grows h.plan.files
  nonempty := h.nonempty

/-- Installing the merged file is a `merge` effect. -/
theorem Ready.effect {n : Nat} (hr : Ready M who cx l0 l1 n entries f s) (h : Gated M who cx s)
    (howns : Owns s.1 who.inst) {e : Etag} (hcur : Current s.1 m e) :
    Effect M who s (s.1.write who .manifest (.manifest { m with
      sst := installed (l0 ++ l1) (newMeta cx (.sst cx.epoch 1 n) n 1 entries f) m.sst }.bump),
      s.2) := by
  obtain ⟨snap, hb⟩ := hr.built
  refine .merge _ l0 l1 (newMeta cx (.sst cx.epoch 1 n) n 1 entries f) h.held howns h.ready
    hcur.lists.1.symm (hr.plan.inputs (.inr howns)) (by rw [hcur.lists.2]; rfl)
    (newEntry h.epoch hr.unlisted howns hb hr.nonempty (hr.above howns) hr.below) ?_
  exact hr.merged.holdsMerge (hb.content_eq hr.unlisted.object)

theorem installLoop_safe {seq : Nat} (n : Nat) (h : Gated M who cx s)
    (hr : Ready M who cx l0 l1 seq entries f s) :
    IoSafe (rules M) who
      (installLoop cx (l0 ++ l1) (newMeta cx (.sst cx.epoch 1 seq) seq 1 entries f) n)
      (fun _ s' => Maintained M who cx s s') s := by
  rw [installLoop_eq]
  refine casLoop_safe (J := Ready M who cx l0 l1 seq entries f) n h hr (fun hr _ _ hk => hr.kept hk)
    (fun hr h howns hcur hedit _ => ?_) (fun hr h howns hcur hedit _ ht h' => ?_)
  · split at hedit <;> cases hedit
    exact hr.effect h howns hcur
  · split at hedit <;> cases hedit
    have hin := hr.plan.inputs (.inr howns)
    refine Maintained.ofTended (dropInputs_safe h' fun p hp => ?_)
    refine (h.retired hcur hin (fun x hx y hy => ?_) hp).tended ht
    -- the new file was never listed, the inputs were
    simp only [Manifest.bump, installed, List.mem_insertionSort, List.mem_append,
      List.mem_singleton] at hx
    rcases hx with hx | rfl
    · exact withoutInputs_id hx hy
    · intro heq
      refine hr.unlisted.fresh ?_
      rw [show ObjectPath.sst cx.epoch 1 seq = y.id from heq]
      exact h.wasListed hcur (inputs_subset hin (by
        rw [List.mem_append] at hy ⊢
        exact hy.symm))

/-! ## The compaction -/

theorem compactInner_safe (h : Gated M who cx s) :
    IoSafe (rules M) who (compactInner cx) (fun _ s' => Maintained M who cx s s') s := by
  refine h.readBind (loadManifest_safe true h.toReading) (fun _ _ hk1 h1 _ => .ofKept hk1 h1)
    fun x s1 hk1 h1 ⟨s0, h0, hs0, hs1, hcur⟩ => ?_
  have hm1 : Maintained M who cx s s1 := .ofKept hk1 h1
  obtain ⟨m, e⟩ := x
  simp only
  match hin : compactionInputs m.sst with
  | none => exact .pure fun s2 ho _ => hm1.others ho
  | some (l0, l1) =>
    have hg0 := h.calm hs0 h0
    have hk0 := hg0.kept hs1
    have hlist := hcur.listing h0.inv
    have hmem : ∀ x ∈ l1 ++ l0, x ∈ m.sst := fun x hx => inputs_subset hin hx
    have hplan : Plan M who l0 l1 s1 := Plan.tended ⟨fun _ => by rw [hcur.lists.2]; exact hin,
      fun x hx => hlist.files x (hmem x hx)⟩ hk0.tended
    have hsub : ∀ x ∈ l0.reverse ++ l1.reverse, x ∈ m.sst := fun x hx => hmem x (by
      simpa [or_comm] using hx)
    have hl1 : Listing M s1 (l0.reverse ++ l1.reverse) :=
      have := hlist.calm hs1 h0.inv
      ⟨fun x hx => this.files x (hsub x hx), fun x hx => this.bounds x (hsub x hx),
        fun hs x hx => this.present hs x (hsub x hx)⟩
    refine h1.readBind (compactionSources_safe h.crates h1.toReading hl1)
      (fun _ _ hk2 h2 _ => hm1.kept hk2 h2) fun sources s2 hk2 h2 hsrc => ?_
    have hm2 := hm1.kept hk2 h2
    have hops := hsrc.okOps h2.inv fun x hx =>
      (hl1.files x hx).imp fun _ hf => hk2.grows _ _ hf
    refine .bind ((spill_safe (by decide) hops h2).mono ?_)
    rintro r s3 - ⟨ht3, h3, hr⟩
    have hm3 := hm2.tended ht3 h3
    match r, hr with
    | .error e, _ => exact hm3
    | .ok rows, hsp =>
      have hplan3 := (hplan.tended hk2.tended).tended ht3
      have hmerged : MergedTo M s3.1.archive l0 l1 (SortedMap.empty.insertAll rows) :=
        mergedTo (hsrc.mono ht3.grows fun x hx =>
          (hl1.files x hx).imp fun _ hf => hk2.grows _ _ hf) hsp
      simp only
      split
      · rename_i hempty
        exact (removeLoop_safe 4 h3 hplan3 (hmerged.dead hempty)).mono
          fun _ s4 _ hm => hm3.then hm
      · rename_i hne
        refine .bind (.ofRes fun s4 ho4 _ => ?_)
        have h4 := h3.others ho4
        have hk4 := h3.kept ho4.calm
        match hf : buildSst cx.crates.crc32 (SortedMap.empty.insertAll rows)
            compactionBlockSize with
        | .error e => exact hm3.others ho4
        | .ok f =>
          rw [h.crates] at hf
          have hb := (builtFrom hsp hops hf).mono hk4.grows
          refine .bind ((nextSstSeq_safe h4).mono ?_)
          rintro r s5 - ⟨n, rfl, ht5, h5, hlt, habove, hfree⟩
          have hb5 := hb.mono ht5.grows
          refine .bind ((createVerified_safe h5 "L1 sst" n (hfree 1) fun s6 hk6 =>
            newSst h5 hk6 hlt hb5).mono ?_)
          rintro r s6 - ⟨ht6, h6, hr⟩
          have ht6' := (hk4.tended.trans ht5).trans ht6
          have hm6 := hm3.tended ht6' h6
          match r, hr with
          | .error e, _ => exact hm6
          | .ok _, ⟨hun, hseq⟩ =>
            refine h6.readBind (checkOwnership_safe h6.toUsing _)
              (fun _ _ hk7 h7 _ => hm6.kept hk7 h7) fun _ s7 hk7 h7 _ => ?_
            have hready : Ready M who cx l0 l1 n (SortedMap.empty.insertAll rows) f s6 :=
              { plan := hplan3.tended ht6'
                unlisted := hun
                below := by rw [hseq]; exact hlt
                above := ht6.above habove
                built := ⟨_, hb5.mono ht6.grows⟩
                merged := hmerged.mono ht6'.grows hplan3.files
                nonempty := by simpa using hne }
            exact (installLoop_safe 4 h7 (hready.kept hk7)).mono
              fun _ s8 _ hm => (hm6.kept hk7 h7).then hm

end OxKv
