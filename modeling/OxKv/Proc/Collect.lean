import OxKv.Proc.Flush

/-!
WAL collection and the orphan sweep under the rules of the engine.

* `gcWalInner_safe`: the WAL list is cleared only when the listed files cover the
  MemTable, and then the collected objects are deleted;
* `gcOrphansInner_safe`: the sweep deletes no listed WAL file.
-/

namespace OxKv

variable {M : Mode} {who : Who} {s s' s'' : State} {cx : Ctx}

/-! ## Deleting objects -/

variable {p : ObjectPath}

/-- Deleting an object that is not needed any more. -/
theorem erase_safe (h : Gated M who cx s)
    (hp : ∀ s1, Tended M who s s1 → Allowed M who (.delete p) s1.1 (.ok ()) →
      Erasable M who s1.1 p) :
    IoSafe (rules M) who (Io.call (.delete p))
      (fun _ s' => Tended M who s s' ∧ Gated M who cx s') s := by
  refine .call (ownStep h (fun w c _ => ?_) fun s1 hk h1 c r t _ hx hal => ?_)
  · dsimp only [exec]
    split <;> rfl
  dsimp only [exec] at hx
  split at hx
  · cases hx
    exact ⟨s1.2, .idle, fun s2 ho _ => ⟨(hk.trans (h1.kept ho.calm)).tended, h1.others ho⟩⟩
  · cases hx
    have hdel := hp s1 hk.tended hal
    have he : Effect M who s1 ({ s1.1 with st := s1.1.st.delete p }, s1.2) :=
      .erase p h1.held h1.writer hdel
    have hman : ObjectPath.manifest ≠ p := by rintro rfl; cases hdel
    have hown : ObjectPath.ownership ≠ p := by rintro rfl; cases hdel
    have h2 : Gated M who cx ({ s1.1 with st := s1.1.st.delete p }, s1.2) :=
      { toUsing := h1.toUsing.own he rfl (Storage.lookup_delete_ne _ hman)
          (Storage.lookup_delete_ne _ hown)
        held := h1.held
        win := h1.win }
    have ht : Tended M who s1 ({ s1.1 with st := s1.1.st.delete p }, s1.2) :=
      .own he h1.inv h1.ready rfl ⟨[], rfl, by simp⟩ rfl rfl rfl (Storage.lookup_delete_ne _ hman)
    exact ⟨s1.2, he, fun s2 ho _ =>
      ⟨(hk.tended.trans ht).trans (h2.kept ho.calm).tended, h2.others ho⟩⟩

/-- A WAL file that is not listed at this moment, if its epoch is not above that of
the holder of the gate; then nobody lists it again. -/
def Collectable (M : Mode) (who : Who) (s : State) (p : ObjectPath) : Prop :=
  ∃ e n, p = .wal e n ∧ (M.solo ∨ ¬ M.multi → M.solo ∨ e ≤ (s.1.inst who.inst).epoch) ∧
    (M.solo ∨ e ≤ (s.1.inst who.inst).epoch → p ∉ s.1.manifest.wal)

theorem Collectable.tended (h : Collectable M who s p) (ht : Tended M who s s') :
    Collectable M who s' p := by
  obtain ⟨e, n, rfl, hle, hnot⟩ := h
  refine ⟨e, n, rfl, by rw [ht.use.epoch]; exact hle, fun hor hin => ?_⟩
  rw [ht.use.epoch] at hor
  refine hnot hor ?_
  rcases hor with hs | hle
  · rw [manifest_eq (ht.manifest (.inl hs)).1] at hin
    exact hin
  · exact ht.wal e n hle hin

theorem Collectable.erasable (h : Collectable M who s p)
    (hal : Allowed M who (.delete p) s.1 (.ok ())) : Erasable M who s.1 p := by
  obtain ⟨e, n, rfl, hle, hnot⟩ := h
  have hepoch : M.solo ∨ e ≤ (s.1.inst who.inst).epoch := by
    by_cases hor : M.solo ∨ ¬ M.multi
    · exact hle hor
    · exact .inr (hal (by tauto))
  exact .wal e n (hnot hepoch) hepoch

/-- The epoch of a stored WAL file is not above that of the owner. -/
theorem Gated.epoch_le (h : Gated M who cx s) {who' : Who} {e n : Nat} {o : Obj} {t : Etag}
    (hm : (who', ObjectPath.wal e n, o, t) ∈ stores s.1.hist) (hor : M.solo ∨ ¬ M.multi) :
    M.solo ∨ e ≤ (s.1.inst who.inst).epoch := by
  refine hor.imp id fun hmulti => ?_
  have hepoch := (h.inv.handle.storedBy hm rfl).1
  have htop := (h.owns hmulti).2
  have hle := h.inv.handle.epochLe who'.inst
  omega

/-! ## WAL collection -/

/-- A table that the listed files cover adds nothing to them. -/
theorem Gated.covered (h : Gated M who cx s) (ho : Owns s.1 who.inst) (hd : M.durable)
    (hc : Covered M s.1 who.inst) (k : Key) : M.Shows s.1 (sstHit M.cr s.1 k) (s.2.dur k) := by
  have hl := h.inv.live _ h.ready
  have hs := M.durable_strict hd
  have hlink := hl.link (M.durable_staging hd) ho
  rw [h.win, applyOps_nil] at hlink
  rw [hlink]
  have hhit := hl.hit ho k
  unfold liveHit at hhit
  cases hx : (s.1.inst who.inst).mem.get? k with
  | none => rw [hx, Option.none_or] at hhit; exact hhit
  | some x =>
    rw [hx, Option.some_or] at hhit
    have hok := h.inv.handle.memOk who.inst (k, x)
      ((SortedMap.mem_toList _ _ _).mpr hx)
    have hself : M.Shows s.1 (some x) x := shows_plain fun hs v hv => M.plain hs v (hok.1 hs v hv)
    rw [Shows.unique hs hhit hself]
    exact hc k x hx

theorem Covered.of_empty {w : World} {i : Nat} (h : (w.inst i).mem.isEmpty = true) :
    Covered M w i := by
  intro k x hx
  rw [SortedMap.isEmpty_iff] at h
  rw [h k] at hx
  cases hx

theorem Covered.kept (h : Covered M s.1 who.inst) (hk : Kept M who s s') (hst : ¬ M.staging)
    (ho : Owns s'.1 who.inst) (hi : Inv M.toTrack s.1 s.2) : Covered M s'.1 who.inst := by
  intro k x hx
  rw [hk.work.mem hst] at hx
  have hsst : sstHit M.cr s'.1 k = sstHit M.cr s.1 k := by
    unfold sstHit
    rw [manifest_eq (hk.manifest (.inr ho)).1]
    exact view_grows hk.grows hi.store.listOk.ssts k
  rw [hsst]
  exact (h k x hx).mono hk.grows

theorem deleteWals_safe {ps : List ObjectPath} (h : Gated M who cx s)
    (hps : ∀ p ∈ ps, Collectable M who s p) :
    IoSafe (rules M) who (deleteWals ps)
      (fun _ s' => Tended M who s s' ∧ Gated M who cx s') s := by
  induction ps generalizing s with
  | nil => exact .pure fun s' ho _ => ⟨(h.kept ho.calm).tended, h.others ho⟩
  | cons p ps ih =>
    refine .bind (.mapErr ((erase_safe h fun s1 ht hal =>
      ((hps p (by simp)).tended ht).erasable hal).mono ?_))
    rintro r s1 - ⟨ht, h1⟩
    cases r with
    | error e => exact ⟨ht, h1⟩
    | ok _ =>
      refine (ih h1 fun q hq => (hps q (by simp [hq])).tended ht).mono ?_
      exact fun _ s2 _ ⟨ht2, h2⟩ => ⟨ht.trans ht2, h2⟩

/-- The WAL ids of the current manifest may be collected once the list is cleared. -/
theorem Gated.collectable (h : Gated M who cx s) {m : Manifest} {e : Etag} (hcur : Current s.1 m e)
    {t : State} (ht : Effect.SameUse s t who.inst) (hcleared : t.1.manifest.wal = [])
    (hp : p ∈ m.wal) : Collectable M who t p := by
  rw [← hcur.lists.1] at hp
  obtain ⟨e', n, b, rfl, hb⟩ := h.inv.store.listOk.wals p hp
  obtain ⟨who', t', hm⟩ := mem_of_archived hb
  refine ⟨e', n, rfl, ?_, fun _ => by rw [hcleared]; simp⟩
  rw [ht.epoch]
  exact h.epoch_le hm

/-- The attempts of the holder of the gate to change the manifest, with a condition `J` that it
keeps meanwhile. -/
theorem casLoop_safe {α : Type} {idle : α} {edit : Manifest → α ⊕ Manifest} {after : Manifest → Io α}
    {J : State → Prop} (n : Nat) (h : Gated M who cx s) (hJ : J s)
    (hkept : ∀ {s s'}, J s → Gated M who cx s → Gated M who cx s' → Kept M who s s' → J s')
    (heff : ∀ {s m e m'}, J s → Gated M who cx s → Owns s.1 who.inst → Current s.1 m e →
      edit m = .inr m' → Permit M who s.1 m' →
      Effect M who s (s.1.write who .manifest (.manifest m'), s.2))
    (hafter : ∀ {s m e m' s'}, J s → Gated M who cx s → Owns s.1 who.inst → Current s.1 m e →
      edit m = .inr m' → Effect M who s (s.1.write who .manifest (.manifest m'), s.2) →
      Tended M who (s.1.write who .manifest (.manifest m'), s.2) s' → Gated M who cx s' →
      IoSafe (rules M) who (after m) (fun _ s'' => Maintained M who cx s' s'') s') :
    IoSafe (rules M) who (casLoop cx idle edit after n) (fun _ s' => Maintained M who cx s s') s := by
  induction n generalizing s with
  | zero => exact .pure fun s' ho _ => ⟨(h.kept ho.calm).tended.toWorked, h.others ho⟩
  | succ n ih =>
    refine h.readBind (loadManifest_safe true h.toReading) (fun _ _ hk1 h1 _ => .ofKept hk1 h1)
      fun x s1 hk1 h1 hat => ?_
    have hm1 : Maintained M who cx s s1 := .ofKept hk1 h1
    obtain ⟨m, e⟩ := x
    dsimp only
    split
    · exact .pure fun s2 ho _ => hm1.others ho
    rename_i m' hedit
    have hJ2 : ∀ {s2}, Kept M who s1 s2 → Gated M who cx s2 → J s2 := fun hk2 h2 =>
      hkept hJ h h2 (hk1.trans hk2)
    refine casBind (P := fun s2 g' => g' = s2.2 ∧ Owns s2.1 who.inst) h1 hat.known.1
      (hat.current h) (fun s2 hk2 h2 hcur hperm => ?_) (fun _ => rfl)
      (fun s2 g' s3 hk2 h2 hcur hg he hcalm hu => ?_) (fun err s2 _ hk2 h2 => ?_)
    · have howns : Owns s2.1 who.inst := h2.owner hperm.owner
      exact ⟨s2.2, heff (hJ2 hk2 h2) h2 howns hcur hedit hperm, rfl, howns⟩
    · obtain ⟨rfl, howns⟩ := hg
      have hk3 := hcalm.kept (he.inv h2.inv) (he.use h2.ready).ready h2.held
      have h3 : Gated M who cx s3 :=
        { toUsing := hu, held := hk3.held, win := hk3.work.win.trans h2.win }
      have hm3 : Maintained M who cx s s3 := by
        refine ⟨((hm1.1.trans hk2.tended.toWorked).trans ?_).trans hk3.tended.toWorked, h3⟩
        exact .own he h2.inv h2.ready ⟨[_], rfl, by simp [What.isClient]⟩ rfl rfl rfl rfl rfl
      refine (hafter (hJ2 hk2 h2) h2 howns hcur hedit he hk3.tended h3).mono ?_
      exact fun _ _ _ hm4 => hm3.then hm4
    · have hm2 := hm1.kept hk2 h2
      cases err with
      | casConflict d =>
        exact h2.readBind (cacheClear_safe h2.toReading) (fun _ _ _ _ => False.elim)
          fun _ s3 hk3 h3 _ => (ih h3 (hJ2 (hk2.trans hk3) h3)).mono
            fun _ s4 _ hm => (hm2.kept hk3 h3).then hm
      | _ => exact .fail fun s3 ho _ => hm2.others ho

/-- Deletions after a published change. -/
theorem Maintained.ofTended {α : Type} {p : Io Unit} {a : α} (h : IoSafe (rules M) who p
      (fun _ s' => Tended M who s s' ∧ Gated M who cx s') s) :
    IoSafe (rules M) who (do p; return a) (fun _ s' => Maintained M who cx s s') s := by
  refine .bind (h.mono ?_)
  rintro r s1 - ⟨ht, h1⟩
  cases r with
  | error e => exact ⟨ht.toWorked, h1⟩
  | ok _ => exact .pure fun s2 ho _ => .others ⟨ht.toWorked, h1⟩ ho

theorem gcWalLoop_safe (n : Nat) (h : Gated M who cx s)
    (hcov : M.durable → ¬ M.multi → Covered M s.1 who.inst) :
    IoSafe (rules M) who (gcWalLoop cx n) (fun _ s' => Maintained M who cx s s') s := by
  rw [gcWalLoop_eq]
  refine casLoop_safe (J := fun s => M.durable → ¬ M.multi → Covered M s.1 who.inst) n h hcov
    (fun hcov h h' hk hd hm => ?_) (fun hcov h howns hcur hedit hperm => ?_)
    (fun _ h _ hcur hedit he ht h' => ?_)
  · exact (hcov hd hm).kept hk (M.durable_staging hd) (h'.owns hm) h.inv
  · split at hedit <;> cases hedit
    refine .clear _ h.held (.inr howns) rfl hcur.lists.2.symm fun hd k => h.covered howns hd ?_ k
    by_cases hmulti : M.multi
    · exact hperm.covered hmulti rfl
    · exact hcov hd hmulti
  · split at hedit <;> cases hedit
    refine Maintained.ofTended (deleteWals_safe h' fun p hp => ?_)
    exact (h.collectable hcur (he.use h.ready) (by simp [World.manifest, Manifest.bump])
      hp).tended ht

theorem gcWalInner_safe (h : Gated M who cx s)
    (hcov : M.durable → ¬ M.multi → Covered M s.1 who.inst) :
    IoSafe (rules M) who (gcWalInner cx) (fun _ s' => Maintained M who cx s s') s :=
  gcWalLoop_safe 4 h hcov

/-! ## The orphan sweep -/

/-- The paths of a listing were written before. -/
theorem list_safe (h : Reading M who s) :
    IoSafe (readRules M) who (Io.call .list) (fun r s' => Reading M who s' ∧
      ∀ keys, r = .ok keys → ∀ p ∈ keys, ∃ who' o t, (who', p, o, t) ∈ stores s'.1.hist) s := by
  refine .call (readStep (fun w c => ?_) fun s1 hs1 hi1 c r t _ hx => ?_)
  · dsimp only [exec]
    split <;> rfl
  dsimp only [exec] at hx
  split at hx
  · cases hx
    exact ⟨.idle, fun s2 hs2 _ => ⟨(h.others hs1).others hs2, nofun⟩⟩
  · cases hx
    refine ⟨.idle, fun s2 hs2 _ => ⟨(h.others hs1).others hs2, fun keys heq p hp => ?_⟩⟩
    cases heq
    obtain ⟨⟨o, t⟩, hl⟩ := (Storage.mem_list _ p).mp hp
    obtain ⟨who', hm⟩ := hi1.store.held hl
    exact ⟨who', o, t, hs2.calm.stores hi1 _ hm⟩

theorem sweep_safe {listed keys : List ObjectPath} (deleted : Nat) (h : Gated M who cx s)
    (hkeys : ∀ e n, .wal e n ∈ keys → .wal e n ∉ listed → Collectable M who s (.wal e n)) :
    IoSafe (rules M) who (sweep listed keys deleted)
      (fun _ s' => Tended M who s s' ∧ Gated M who cx s') s := by
  induction keys generalizing s deleted with
  | nil => exact .pure fun s' ho _ => ⟨(h.kept ho.calm).tended, h.others ho⟩
  | cons p keys ih =>
    have htail : ∀ {s1}, Tended M who s s1 → ∀ e n, .wal e n ∈ keys → .wal e n ∉ listed →
        Collectable M who s1 (.wal e n) := fun ht e n hm hl =>
      (hkeys e n (by simp [hm]) hl).tended ht
    unfold sweep
    split
    · exact ih deleted h (htail (.refl h.ready h.held))
    · rename_i hcand
      have hp : Collectable M who s p := by
        simp only [Bool.or_eq_true, Bool.not_eq_true', List.contains_iff_mem, not_or,
          Bool.not_eq_false] at hcand
        cases p with
        | wal e n => exact hkeys e n (by simp) hcand.2
        | _ => cases hcand.1
      refine .attemptBind ((erase_safe h fun s1 ht hal => (hp.tended ht).erasable hal).mono ?_)
      rintro r s1 - ⟨ht, h1⟩
      cases r with
      | error e =>
        exact .pure fun s2 ho _ => ⟨ht.trans (h1.kept ho.calm).tended, h1.others ho⟩
      | ok _ =>
        refine (ih (deleted + 1) h1 (htail ht)).mono ?_
        exact fun _ s2 _ ⟨ht2, h2⟩ => ⟨ht.trans ht2, h2⟩

theorem gcOrphansInner_safe (h : Gated M who cx s) :
    IoSafe (rules M) who (gcOrphansInner cx)
      (fun _ s' => Tended M who s s' ∧ Gated M who cx s') s := by
  have hpure : ∀ {s1} {n : Nat}, Tended M who s s1 → Gated M who cx s1 →
      IoSafe (rules M) who (pure n : Io Nat)
        (fun _ s' => Tended M who s s' ∧ Gated M who cx s') s1 := fun ht h1 =>
    IoSafe.pure fun s2 ho _ => ⟨ht.trans (h1.kept ho.calm).tended, h1.others ho⟩
  refine h.readBind (readOwnership_safe h.toReading) (fun _ _ hk1 h1 _ => ⟨hk1.tended, h1⟩)
    fun o s1 hk1 h1 _ => ?_
  match o with
  | none => exact hpure hk1.tended h1
  | some rec =>
    show IoSafe _ _ (if rec.epoch = cx.epoch ∧ rec.ownerSession = cx.session then _ else _) _ _
    split
    · refine h1.readBind (loadManifest_safe false h1.toReading)
        (fun _ _ hk2 h2 _ => ⟨(hk1.trans hk2).tended, h2⟩)
        fun x s2 hk2 h2 ⟨s0, h0, hs0, hs2, hcur⟩ => ?_
      obtain ⟨m, e⟩ := x
      have hk0 := (h1.calm hs0 h0).kept hs2
      refine .attemptBind (h2.read (list_safe h2.toReading) (fun _ _ hq => hq.1)
        fun r s3 hk3 h3 hq => ?_)
      have ht3 := ((hk1.trans hk2).trans hk3).tended
      match r with
      | .error e => exact hpure ht3 h3
      | .ok keys =>
        refine (sweep_safe 0 h3 fun e n hm hl => ?_).mono fun _ s4 _ ⟨ht, h4⟩ =>
          ⟨ht3.trans ht, h4⟩
        obtain ⟨who', o, t, hst⟩ := hq.2 keys rfl _ hm
        refine ⟨e, n, rfl, h3.epoch_le hst, fun hor hin => hl ?_⟩
        -- what is listed now was listed when the manifest was loaded
        have hk := hk0.trans hk3
        rw [← hcur.lists.1]
        rcases hor with hs | hle
        · rw [manifest_eq (hk.manifest (.inl hs)).1] at hin
          exact hin
        · rw [hk.use.epoch] at hle
          exact hk.wal e n hle hin
    · exact hpure hk1.tended h1

end OxKv
