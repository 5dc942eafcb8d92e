import OxKv.Proc.Gate
import OxKv.Proc.Read

/-!
`flush_mem_to_sst_inner` under the rules of the engine: it publishes a snapshot of
the MemTable as a level-0 file and then drops from the MemTable what it flushed.

* `flushPublish`: publishing the file is a `flush` effect;
* `flushMemToSstInner_safe`: a flush changes no contents; after a forced flush that
  succeeds the MemTable is empty unless writes are staged meanwhile.
-/

namespace OxKv

variable {M : Mode} {who : Who} {s s' s'' : State} {cx : Ctx}

/-! ## The file of a snapshot -/

/-- The file built from the spilled rows of a table. -/
structure BuiltFrom (M : Mode) (ob : Objects) (snap entries : MemMap) (f : SstFile) : Prop where
  holds : f.Holds M.cr.crc32 entries
  stored : ∀ op ∈ entries.toList, M.StoredOp ob op
  rows : ∀ k, match snap.get? k with
    | none => entries.get? k = none
    | some x => ∃ x', entries.get? k = some x' ∧ Spilled M ob (k, x) (k, x') ∧
        (M.strict → ∀ v, x = some v → tryDecodeBlobPointer M.cr v = none)

variable {ob : Objects}

theorem Spilled.same {k : Key} {x x' : Option Bytes} (h : Spilled M ob (k, x) (k, x'))
    (hplain : M.strict → ∀ v, x = some v → tryDecodeBlobPointer M.cr v = none) :
    SameShows M.strict M.cr ob (some x) (some x') := by
  intro y hy
  cases x with
  | none =>
    obtain rfl : x' = none := h.2
    exact hy
  | some v =>
    obtain ⟨raw, hraw, -, hres⟩ := h.2
    obtain rfl : x' = some raw := hraw
    obtain ⟨v', rfl, hv'⟩ := hy
    refine ⟨v', rfl, fun hs => ?_⟩
    rw [← hv' hs, resolve_plain (hplain hs v rfl)]
    exact hres hs

variable {f : SstFile}

/-- The rows of a table whose values are tracked, spilled and built into a file. -/
theorem builtFrom {rows rows' : List Op} {bs : Nat} (hsp : List.Forall₂ (Spilled M ob) rows rows')
    (hrows : ∀ op ∈ rows, M.OkOp op)
    (hf : buildSst M.cr.crc32 (SortedMap.empty.insertAll rows') bs = .ok f) :
    BuiltFrom M ob (SortedMap.empty.insertAll rows) (SortedMap.empty.insertAll rows') f := by
  have hmem : ∀ {k x}, (SortedMap.empty.insertAll rows : MemMap).get? k = some x →
      (k, x) ∈ rows := by
    intro k x hx
    rw [SortedMap.get?_insertAll, SortedMap.get?_empty, Option.or_none] at hx
    exact List.mem_reverse.mp (SortedMap.mem_of_lookup hx)
  -- every entry comes from a row
  have hback : ∀ {k x'}, (SortedMap.empty.insertAll rows' : MemMap).get? k = some x' →
      ∃ x, (k, x) ∈ rows ∧ Spilled M ob (k, x) (k, x') := by
    intro k x' hx'
    have hsp := get?_spilled hsp k
    cases hx : (SortedMap.empty.insertAll rows : MemMap).get? k with
    | none => rw [hx] at hsp; simp only at hsp; rw [hsp] at hx'; cases hx'
    | some x =>
      rw [hx] at hsp
      obtain ⟨x'', hx'', hspx⟩ := hsp
      rw [hx''] at hx'
      cases hx'
      exact ⟨x, hmem hx, hspx⟩
  constructor
  · refine buildSst_holds hf fun k v hv => ?_
    obtain ⟨x, -, -, hsp⟩ := hback hv
    cases x with
    | none => cases hsp
    | some u =>
      obtain ⟨raw, heq, hlen, -⟩ := hsp
      cases heq
      exact hlen
  · rintro ⟨k, x'⟩ hop
    obtain ⟨x, hx, -, hsp⟩ := hback ((SortedMap.mem_toList _ _ _).mp hop)
    have hok := hrows _ hx
    refine ⟨fun hs raw hraw => ?_, hok.2⟩
    cases x with
    | none => rw [show x' = none from hsp] at hraw; cases hraw
    | some v =>
      obtain ⟨raw', heq, -, hres⟩ := hsp
      rw [show x' = some raw' from heq] at hraw
      cases hraw
      exact ⟨v, hok.1 hs v rfl, hres hs⟩
  · intro k
    have hsp := get?_spilled hsp k
    cases hx : (SortedMap.empty.insertAll rows : MemMap).get? k with
    | none => rw [hx] at hsp; exact hsp
    | some x =>
      rw [hx] at hsp
      obtain ⟨x', hx', hspx⟩ := hsp
      exact ⟨x', hx', hspx, fun hs v hv => M.plain hs v ((hrows _ (hmem hx)).1 hs v hv)⟩

variable {snap entries : MemMap}

theorem BuiltFrom.mono {ob' : Objects} (hg : Grows ob ob') (h : BuiltFrom M ob snap entries f) :
    BuiltFrom M ob' snap entries f where
  holds := h.holds
  stored op hop := (h.stored op hop).mono hg
  rows k := by
    have hk := h.rows k
    cases hx : snap.get? k with
    | none => rw [hx] at hk; exact hk
    | some x =>
      rw [hx] at hk
      obtain ⟨x', hx', hsp, hplain⟩ := hk
      exact ⟨x', hx', hsp.mono hg, hplain⟩

/-- The new file shows what the table showed. -/
theorem BuiltFrom.shows (h : BuiltFrom M ob snap entries f) {k : Key} {x : Option Bytes}
    (hx : snap.get? k = some x) :
    ∃ x', entries.get? k = some x' ∧ SameShows M.strict M.cr ob (some x) (some x') := by
  have hk := h.rows k
  rw [hx] at hk
  obtain ⟨x', hx', hsp, hplain⟩ := hk
  exact ⟨x', hx', hsp.same hplain⟩

theorem BuiltFrom.nonempty (h : BuiltFrom M ob snap entries f) (hne : snap.isEmpty = false) :
    entries.isEmpty = false := by
  obtain ⟨a, v, -, hv⟩ := snap.firstKey?_isSome hne
  obtain ⟨x', hx', -⟩ := h.shows hv
  by_contra hcon
  rw [Bool.not_eq_false, SortedMap.isEmpty_iff] at hcon
  rw [hcon a] at hx'
  cases hx'

/-- The contents of the built file, once it is archived. -/
theorem BuiltFrom.content_eq {ob' : Objects} (h : BuiltFrom M ob snap entries f) {p : ObjectPath}
    (hp : ob' p = some (.sst f)) : content M.cr ob' p = entries := by
  unfold content
  rw [hp]
  exact h.holds.rows_eq

variable {n : Nat}

theorem newEntry {level : Nat} (hcx : cx.epoch = (s.1.inst who.inst).epoch)
    (hun : Unlisted M who s (.sst cx.epoch level n) (.sst f)) (howns : Owns s.1 who.inst)
    (hb : BuiltFrom M ob snap entries f) (hne : entries.isEmpty = false)
    (habove : ∀ x ∈ s.1.manifest.sst, x.seq < n) (hbelow : n < (s.1.inst who.inst).sstSeq) :
    NewEntry M who s.1 level (newMeta cx (.sst cx.epoch level n) n level entries f) := by
  have hc : content M.cr s.1.archive (.sst cx.epoch level n) = entries := hb.content_eq hun.object
  obtain ⟨a, _, ha, -⟩ := entries.firstKey?_isSome hne
  obtain ⟨b, _, hb', -⟩ := entries.lastKey?_isSome hne
  refine ⟨rfl, by rw [← hcx]; rfl, hun.present (.inr howns), hun.fresh, ⟨f, hun.object⟩, habove,
    hbelow, ?_, ?_⟩
  · show (content M.cr s.1.archive (.sst cx.epoch level n)).firstKey? = some (entries.firstKey?.getD "")
    rw [hc, ha]
    rfl
  · show (content M.cr s.1.archive (.sst cx.epoch level n)).lastKey? = some (entries.lastKey?.getD "")
    rw [hc, hb']
    rfl

theorem newSst {level : Nat} (h : Gated M who cx s) (hk : Kept M who s s')
    (hlt : n < (s.1.inst who.inst).sstSeq) (hb : BuiltFrom M s.1.archive snap entries f) :
    NewObject M who s'.1 (.sst cx.epoch level n) (.sst f) := by
  rw [h.epoch, ← hk.use.epoch]
  exact .sst level n f entries (by rw [hk.work.sstSeq]; exact hlt) hb.holds
    fun op hop => (hb.stored op hop).mono hk.grows

/-- The numbers of the listed files stay below a new one. -/
theorem Tended.above (ht : Tended M who s s')
    (h : Owns s.1 who.inst → ∀ x ∈ s.1.manifest.sst, x.seq < n) :
    Owns s'.1 who.inst → ∀ x ∈ s'.1.manifest.sst, x.seq < n := fun ho => by
  rw [manifest_eq (ht.manifest (.inr ho)).1]
  exact h (ht.owns ho)

/-! ## The flush -/

/-- What holds when a maintenance procedure is done. -/
def Maintained (M : Mode) (who : Who) (cx : Ctx) (s s' : State) : Prop :=
  Worked M who s s' ∧ Gated M who cx s'

theorem Maintained.then (h : Maintained M who cx s s') (h' : Maintained M who cx s' s'') :
    Maintained M who cx s s'' :=
  ⟨h.1.trans h'.1, h'.2⟩

theorem Maintained.tended (h : Maintained M who cx s s') (ht : Tended M who s' s'')
    (h'' : Gated M who cx s'') : Maintained M who cx s s'' :=
  ⟨h.1.trans ht.toWorked, h''⟩

theorem Maintained.kept (h : Maintained M who cx s s') (hk : Kept M who s' s'')
    (h'' : Gated M who cx s'') : Maintained M who cx s s'' :=
  h.tended hk.tended h''

theorem Maintained.ofKept (hk : Kept M who s s') (h' : Gated M who cx s') :
    Maintained M who cx s s' :=
  ⟨hk.tended.toWorked, h'⟩

theorem Maintained.others (h : Maintained M who cx s s') (ho : Others M who s' s'') :
    Maintained M who cx s s'' :=
  ⟨h.1.trans (h.2.kept ho.calm).tended.toWorked, h.2.others ho⟩

/-- After a successful forced flush nothing is left to flush. -/
def Flushed (M : Mode) (who : Who) (force : Bool) (s : State) : Prop :=
  force = true → M.solo ∨ ¬ M.staging → (s.1.inst who.inst).mem.isEmpty = true

/-- A file that no manifest lists is not found in one. -/
theorem Unlisted.find_none {p : ObjectPath} {o : Obj} (h : Unlisted M who s p o) {m : Manifest}
    {e : Etag} (hm : KnownManifest (stores s.1.hist) m e) :
    m.sst.find? (fun x => x.id = p) = none := by
  rw [List.find?_eq_none]
  intro x hx hid
  simp only [decide_eq_true_eq] at hid
  rcases hm with ⟨-, -, hnil⟩ | ⟨who', hm⟩
  · rw [hnil] at hx; cases hx
  · exact h.fresh ⟨who', m, e, hm, Or.inr ⟨x, hx, hid⟩⟩

/-- A finished flush drops what it flushed from the MemTable. -/
theorem memDiscard_safe (h : Gated M who cx s)
    (hsnap : ∀ s1, Kept M who s s1 → Owns s1.1 who.inst → ∀ k x, snap.get? k = some x →
      M.Same s1.1 (some x) (sstHit M.cr s1.1 k)) :
    IoSafe (rules M) who (Io.act (.memDiscard snap)) (fun r s' => r = .ok () ∧
      Maintained M who cx s s' ∧ (M.solo ∨ ¬ M.staging →
        (s'.1.inst who.inst).mem = discardFlushed (s.1.inst who.inst).mem snap)) s := by
  refine .act (ownStep h (fun _ _ _ => rfl) fun s1 hk h1 c r t _ hx _ => ?_)
  cases hx
  have he : Effect M who s1 (s1.1.setInst who.inst { s1.1.inst who.inst with
      mem := discardFlushed (s1.1.inst who.inst).mem snap },
      { s1.2 with flight := Function.update s1.2.flight who.inst none }) :=
    .discard snap h1.held h1.ready fun ho => hsnap s1 hk ho
  have h2 : Gated M who cx (s1.1.setInst who.inst { s1.1.inst who.inst with
      mem := discardFlushed (s1.1.inst who.inst).mem snap },
      { s1.2 with flight := Function.update s1.2.flight who.inst none }) := by
    refine { toUsing := h1.toUsing.own he (by simp) rfl rfl, held := ?_, win := h1.win }
    show ((World.setInst _ _ _).inst _).gate = _
    rw [World.setInst_inst_self]
    exact h1.held
  refine ⟨_, he, fun s2 ho _ => ⟨rfl, ?_, fun hor => ?_⟩⟩
  · have hw : Worked M who s1 _ := .own he h1.inv h1.ready ⟨[], rfl, by simp⟩ rfl rfl rfl
      (by simp) (by simp)
    exact ⟨(hk.tended.toWorked.trans hw).trans (h2.kept ho.calm).tended.toWorked, h2.others ho⟩
  · rw [(h2.kept ho.calm).tended.mem hor, ← hk.tended.mem hor]
    simp

theorem discardFlushed_self (m : MemMap) : (discardFlushed m m).isEmpty = true := by
  rw [SortedMap.isEmpty_iff]
  intro k
  unfold discardFlushed
  rw [SortedMap.get?_filter]
  cases m.get? k <;> simp

/-- The flush of `snap` is under way. -/
structure InFlight (M : Mode) (who : Who) (snap : MemMap) (s : State) : Prop where
  flight : ∃ n, s.2.flight who.inst = some (snap, n)
  mem : M.solo ∨ ¬ M.staging → (s.1.inst who.inst).mem = snap

theorem InFlight.tended (h : InFlight M who snap s) (ht : Tended M who s s') :
    InFlight M who snap s' where
  flight := h.flight.imp fun _ hn => ht.flight.trans hn
  mem hor := (ht.mem hor).trans (h.mem hor)

/-- The snapshot of a flush. -/
theorem memSnapshot_safe (h : Gated M who cx s) (force : Bool) :
    IoSafe (rules M) who (Io.act (.memSnapshot force)) (fun r s' => Maintained M who cx s s' ∧
      ∃ o, r = .ok o ∧ match o with
        | none => Flushed M who force s'
        | some snap => snap.isEmpty = false ∧ InFlight M who snap s' ∧
            ∀ op ∈ snap.toList, M.OkOp op) s := by
  refine .act (ownStep h (fun w c _ => ?_) fun s1 hk h1 c r t _ hx _ => ?_)
  · dsimp only [exec]
    split
    · rfl
    · split <;> rfl
  have hnone : Maintained M who cx s s1 := ⟨hk.tended.toWorked, h1⟩
  dsimp only [exec] at hx
  split at hx
  · rename_i hempty
    cases hx
    refine ⟨s1.2, .idle, fun s2 ho _ => ⟨hnone.others ho, none, rfl, fun _ hor => ?_⟩⟩
    rw [(h1.kept ho.calm).tended.mem hor]
    exact hempty
  · rename_i hne
    split at hx
    · rename_i hsmall
      cases hx
      refine ⟨s1.2, .idle, fun s2 ho _ => ⟨hnone.others ho, none, rfl, fun hforce _ => ?_⟩⟩
      simp [hforce] at hsmall
    · cases hx
      have he : Effect M who s1 (s1.1.log who .snapshot, { s1.2 with
          flight := Function.update s1.2.flight who.inst
            (some ((s1.1.inst who.inst).mem, s1.1.hist.length)) }) :=
        .snapshot h1.held h1.ready
      have h2 : Gated M who cx (s1.1.log who .snapshot, { s1.2 with
          flight := Function.update s1.2.flight who.inst
            (some ((s1.1.inst who.inst).mem, s1.1.hist.length)) }) :=
        { toUsing := h1.toUsing.own he rfl rfl rfl, held := h1.held, win := h1.win }
      refine ⟨_, he, fun s2 ho _ => ⟨?_, _, rfl, by simpa using hne, ?_, ?_⟩⟩
      · have hw : Worked M who s1 _ := .own he h1.inv h1.ready
          ⟨[_], rfl, by simp [What.isClient]⟩ rfl rfl rfl rfl rfl
        exact ⟨(hk.tended.toWorked.trans hw).trans (h2.kept ho.calm).tended.toWorked,
          h2.others ho⟩
      · refine InFlight.tended ?_ (h2.kept ho.calm).tended
        exact ⟨⟨_, Function.update_self ..⟩, fun _ => rfl⟩
      · exact h1.inv.handle.memOk who.inst

/-- A manifest that lists the file of the snapshot may be published. -/
theorem flushEffect {m : Manifest} {e : Etag} (h : Gated M who cx s) (hfl : InFlight M who snap s)
    (hne : snap.isEmpty = false) (hb : BuiltFrom M s.1.archive snap entries f)
    (hun : Unlisted M who s (.sst cx.epoch 0 n) (.sst f)) (hlt : n < (s.1.inst who.inst).sstSeq)
    (howns : Owns s.1 who.inst) (habove : ∀ x ∈ s.1.manifest.sst, x.seq < n)
    (hcur : Current s.1 m e) (hgap : M.gap s.1.hist) :
    Effect M who s (s.1.write who .manifest (.manifest
      { m with sst := m.sst ++ [newMeta cx (.sst cx.epoch 0 n) n 0 entries f] }.bump), s.2) := by
  obtain ⟨len, hflight⟩ := hfl.flight
  refine .flush _ _ snap len h.held howns h.ready h.win hcur.lists.1.symm
    (by rw [hcur.lists.2]; rfl) (newEntry h.epoch hun howns hb (hb.nonempty hne) habove hlt) hflight
    (fun k => ?_) (fun hst => hfl.mem (.inr hst)) hgap
  show match snap.get? k with
    | none => (content M.cr s.1.archive (.sst cx.epoch 0 n)).get? k = none
    | some x => ∃ x', (content M.cr s.1.archive (.sst cx.epoch 0 n)).get? k = some x' ∧ _
  rw [hb.content_eq hun.object]
  cases hx : snap.get? k with
  | none =>
    have := hb.rows k
    rw [hx] at this
    exact this
  | some x => exact hb.shows hx

/-- The newest listed file decides. -/
theorem sstHit_newest {sst : List SstMeta} {k : Key} {x : Option Bytes}
    (hb : BuiltFrom M s.1.archive snap entries f)
    (hobj : s.1.archive (.sst cx.epoch 0 n) = some (.sst f))
    (hsst : s.1.manifest.sst = sst ++ [newMeta cx (.sst cx.epoch 0 n) n 0 entries f])
    (hx : snap.get? k = some x) : M.Same s.1 (some x) (sstHit M.cr s.1 k) := by
  obtain ⟨x', hx', hsame⟩ := hb.shows hx
  unfold sstHit
  rw [hsst, view_append_singleton,
    show (newMeta cx (.sst cx.epoch 0 n) n 0 entries f).id = .sst cx.epoch 0 n from rfl,
    hb.content_eq hobj, hx', Option.some_or]
  exact hsame

theorem Maintained.flush_fail {force : Bool} {err : StoreError} {s0 : State}
    (hm : Maintained M who cx s0 s) :
    IoSafe (rules M) who (Io.fail err : Io (Option SstMeta))
      (fun r s' => Maintained M who cx s0 s' ∧ ∀ x, r = .ok x → Flushed M who force s') s :=
  .fail fun _ ho _ => ⟨hm.others ho, nofun⟩

/-- After a conflict the file is not found in the manifest that is loaded. -/
theorem flushConflict_safe {force : Bool} {detail : String} {s0 : State}
    (hm : Maintained M who cx s0 s) (hun : Unlisted M who s (.sst cx.epoch 0 n) (.sst f)) :
    IoSafe (rules M) who (do
        Io.act .cacheClear
        let (reloaded, _) ← loadManifest cx false
        match reloaded.sst.find? (fun x => x.id = .sst cx.epoch 0 n) with
        | some existing =>
          Io.act (.memDiscard snap)
          return some existing
        | none => Io.fail (.storage ("manifest CAS conflict after backoff retry: " ++ detail)))
      (fun r s' => Maintained M who cx s0 s' ∧ ∀ x, r = .ok x → Flushed M who force s') s := by
  refine hm.2.readBind (cacheClear_safe hm.2.toReading) (fun _ _ _ _ => False.elim)
    fun _ s2 hk2 h2 _ => ?_
  refine h2.readBind (loadManifest_safe false h2.toReading)
    (fun _ _ hk3 h3 _ => ⟨hm.kept (hk2.trans hk3) h3, nofun⟩) fun x s3 hk3 h3 hat => ?_
  obtain ⟨m3, e3⟩ := x
  simp only [((hun.kept hk2).kept hk3).find_none hat.known.1]
  exact (hm.kept (hk2.trans hk3) h3).flush_fail

theorem flushPublish {m : Manifest} {e : Etag} {force : Bool} {s0 : State}
    (h : Gated M who cx s) (hm : Maintained M who cx s0 s) (hfl : InFlight M who snap s)
    (hne : snap.isEmpty = false) (hb : BuiltFrom M s.1.archive snap entries f)
    (hun : Unlisted M who s (.sst cx.epoch 0 n) (.sst f)) (hlt : n < (s.1.inst who.inst).sstSeq)
    (habove : Owns s.1 who.inst → ∀ x ∈ s.1.manifest.sst, x.seq < n)
    (hk : KnownManifest (stores s.1.hist) m e) (hcur : M.solo ∨ ¬ M.multi → Current s.1 m e) :
    IoSafe (rules M) who (do
        match ← Io.attempt (casManifest
          { m with sst := m.sst ++ [newMeta cx (.sst cx.epoch 0 n) n 0 entries f] }.bump e) with
        | .ok newEtag =>
          Io.act (.cacheUpdate
            { m with sst := m.sst ++ [newMeta cx (.sst cx.epoch 0 n) n 0 entries f] }.bump newEtag)
          Io.act (.memDiscard snap)
          return some (newMeta cx (.sst cx.epoch 0 n) n 0 entries f)
        | .error (.casConflict detail) =>
          Io.act .cacheClear
          let (reloaded, _) ← loadManifest cx false
          match reloaded.sst.find? (fun x => x.id = .sst cx.epoch 0 n) with
          | some existing =>
            Io.act (.memDiscard snap)
            return some existing
          | none =>
            Io.fail (.storage ("manifest CAS conflict after backoff retry: " ++ detail))
        | .error e => Io.fail e)
      (fun r s' => Maintained M who cx s0 s' ∧ ∀ x, r = .ok x → Flushed M who force s') s := by
  refine casBind (P := fun s1 g' => g' = s1.2) h hk hcur (fun s1 hk1 h1 hcur1 hperm => ?_)
    (fun _ => rfl) (fun s1 g' s2 hk1 h1 hcur1 hg he hcalm hu => ?_)
    (fun err s1 _ hk1 h1 => ?_)
  · have howns : Owns s1.1 who.inst := h1.owner hperm.owner
    refine ⟨s1.2, flushEffect h1 (hfl.tended hk1.tended) hne (hb.mono hk1.grows) (hun.kept hk1)
      (by rw [hk1.work.sstSeq]; exact hlt) howns (hk1.tended.above habove howns) hcur1
      (hperm.gap ?_), rfl⟩
    rw [hcur1.lists.2]
    simp [Manifest.bump]
  · -- the MemTable after the publication
    subst hg
    have hi' := he.inv h1.inv
    have hr' := (he.use h1.ready).ready
    have hk2 := hcalm.kept hi' hr' h1.held
    have h2 : Gated M who cx s2 :=
      { toUsing := hu, held := hk2.held, win := hk2.work.win.trans h1.win }
    have hm2 : Maintained M who cx s0 s2 := by
      refine ⟨((hm.1.trans hk1.tended.toWorked).trans ?_).trans hk2.tended.toWorked, h2⟩
      exact .own he h1.inv h1.ready ⟨[_], rfl, by simp [What.isClient]⟩ rfl rfl rfl rfl rfl
    refine .bind ((memDiscard_safe h2 fun s3 hk3 ho k x hx => ?_).mono ?_)
    · have hgr : Grows s1.1.archive s3.1.archive := by
        refine .trans ?_ (hk2.grows.trans hk3.grows)
        rw [archive_write_other rfl]
        exact .refl _
      have hman : s3.1.manifest.sst =
          m.sst ++ [newMeta cx (.sst cx.epoch 0 n) n 0 entries f] := by
        have hl := (hk3.manifest (.inr ho)).1.trans
          (hk2.manifest (.inr (hk3.owns ho))).1
        unfold World.manifest
        rw [hl]
        rfl
      exact sstHit_newest ((hb.mono hk1.grows).mono hgr) (hgr _ _ (hun.kept hk1).object) hman hx
    · rintro r s3 - ⟨rfl, hm3, hmem⟩
      refine .pure fun s4 ho _ => ⟨(hm2.then hm3).others ho, fun x _ _ hor => ?_⟩
      have hmem2 : (s2.1.inst who.inst).mem = snap := by
        rw [hk2.tended.mem hor]
        exact (hfl.tended hk1.tended).mem hor
      rw [(hm3.2.kept ho.calm).tended.mem hor, hmem hor, hmem2]
      exact discardFlushed_self snap
  · have hm1 : Maintained M who cx s0 s1 := ⟨hm.1.trans hk1.tended.toWorked, h1⟩
    cases err with
    | casConflict d => exact flushConflict_safe hm1 (hun.kept hk1)
    | _ => exact hm1.flush_fail

theorem flushMemToSstInner_safe (h : Gated M who cx s) (force : Bool) :
    IoSafe (rules M) who (flushMemToSstInner cx force) (fun r s' => Maintained M who cx s s' ∧
      ∀ x, r = .ok x → Flushed M who force s') s := by
  refine .bind ((memSnapshot_safe h force).mono ?_)
  rintro r s1 - ⟨hm1, o, rfl, ho⟩
  match o, ho with
  | none, hfl =>
    refine .pure fun s2 ho _ => ⟨hm1.others ho, fun _ _ hforce hor => ?_⟩
    rw [(hm1.2.kept ho.calm).tended.mem hor]
    exact hfl hforce hor
  | some snap, ⟨hne, hfl, hops⟩ =>
    have hrest : ∀ {s2}, Tended M who s1 s2 → Gated M who cx s2 →
        Maintained M who cx s s2 ∧ InFlight M who snap s2 := fun ht h2 =>
      ⟨⟨hm1.1.trans ht.toWorked, h2⟩, hfl.tended ht⟩
    refine .bind ((spill_safe (by decide) hops hm1.2).mono ?_)
    rintro r s2 - ⟨ht2, h2, hr⟩
    match r, hr with
    | .error e, _ => exact ⟨(hrest ht2 h2).1, nofun⟩
    | .ok rows, hsp =>
      refine .bind (.ofRes fun s3 ho3 _ => ?_)
      have h3 := h2.others ho3
      have ht3 := ht2.trans (h2.kept ho3.calm).tended
      match hf : buildSst cx.crates.crc32 (SortedMap.empty.insertAll rows) defaultBlockSize with
      | .error e => exact ⟨(hrest ht3 h3).1, nofun⟩
      | .ok f =>
        rw [h.crates] at hf
        have hb := builtFrom hsp hops hf
        rw [insertAll_toList] at hb
        have hb3 := hb.mono (h2.kept ho3.calm).grows
        refine .bind ((nextSstSeq_safe h3).mono ?_)
        rintro r s4 - ⟨n, rfl, ht4, h4, hlt, habove, hfree⟩
        have hb4 := hb3.mono ht4.grows
        refine .bind ((createVerified_safe h4 "sst" n (hfree 0) fun s5 hk5 =>
          newSst h4 hk5 hlt hb4).mono ?_)
        rintro r s5 - ⟨ht5, h5, hr⟩
        have ht5' := (ht3.trans ht4).trans ht5
        match r, hr with
        | .error e, _ => exact ⟨(hrest ht5' h5).1, nofun⟩
        | .ok _, ⟨hun, hseq⟩ =>
          refine h5.readBind (checkOwnership_safe h5.toUsing _)
            (fun _ _ hk6 h6 _ => ⟨(hrest (ht5'.trans hk6.tended) h6).1, nofun⟩)
            fun _ s6 hk6 h6 _ => ?_
          refine h6.readBind (loadManifest_safe true h6.toReading)
            (fun _ _ hk7 h7 _ => ⟨(hrest (ht5'.trans (hk6.trans hk7).tended) h7).1, nofun⟩)
            fun x s7 hk7 h7 hat => ?_
          obtain ⟨m, e⟩ := x
          have ht7 := ht5.trans (hk6.trans hk7).tended
          have hfl7 := hrest ((ht3.trans ht4).trans ht7) h7
          have hun7 := (hun.kept hk6).kept hk7
          have hlt7 : n < (s7.1.inst who.inst).sstSeq := by
            rw [hk7.work.sstSeq, hk6.work.sstSeq, hseq]
            exact hlt
          simp only [hun7.find_none hat.known.1]
          exact flushPublish h7 hfl7.1 hfl7.2 hne (hb4.mono ht7.grows) hun7 hlt7
            (ht7.above habove) hat.known.1 (hat.current h6)

end OxKv
