import OxKv.Engine.Build
import OxKv.Proc.Update

/-!
Opening a prefix while nobody else uses it: the probe, the takeover and the WAL
replay leave a handle whose MemTable and files show the acknowledged contents.

* `Opening`: the prefix and the handle before it is ready;
* `Prepared`: what is done until then touches neither the contents nor the log;
* `probeStore_safe`, `acquireAlone_safe`, `replayListedWals_safe`;
* `build_safe`: the handle after `build_with_cache`.
-/

namespace OxKv

variable {M : Mode} {who : Who} {s s' s'' : State} {cx : Ctx} {m : KMap}

theorem soloStep {β : Type} {a : Act β} {Q : β → State → Prop} (hs : M.solo)
    (hlive : ∀ c, (exec who c a s.1).isSome)
    (hstep : ∀ c r t, (rules M).ok c → exec who c a s.1 = some (r, t) → Allowed M who a s.1 r →
      ∃ g, Effect M who s (t, g) ∧ Q r (t, g)) : IoSafe.Step (rules M) who a Q s := by
  intro s1 hr hi
  have hr : Others M who s s1 := hr
  obtain rfl := hr.1 hs
  refine ⟨fun _ c _ => hlive c, fun c r t hc hx hal => ?_⟩
  obtain ⟨g, he, hQ⟩ := hstep c r t hc hx hal
  refine ⟨g, he.inv hi, he, fun s2 hr2 _ => ?_⟩
  have hr2 : Others M who (t, g) s2 := hr2
  rw [hr2.1 hs]
  exact hQ

section Ends

variable {α : Type} {Q : Res α → State → Prop} (hs : M.solo)
include hs

theorem soloPure {a : α} (h : Q (.ok a) s) : IoSafe (rules M) who (pure a) Q s :=
  .pure fun s' ho _ => by
    rw [ho.1 hs]
    exact h

theorem soloFail {e : StoreError} (h : Q (.error e) s) : IoSafe (rules M) who (Io.fail e) Q s :=
  .fail fun s' ho _ => by
    rw [ho.1 hs]
    exact h

end Ends

/-! ## Before the handle is ready -/

/-- The handle is not in use, the listed files show the contents `m`. -/
structure Opening (M : Mode) (who : Who) (m : KMap) (s : State) : Prop
    extends Reading M who s where
  opener : M.opener who.inst = who
  unready : ¬ s.2.ready who.inst
  gate : (s.1.inst who.inst).gate = none
  pending : (s.1.inst who.inst).pending = []
  fresh : ∀ who' p o t, (who', p, o, t) ∈ stores s.1.hist → who'.inst = who.inst → p.epoch? = none
  shows : ∀ k, M.Shows s.1 (durableHit M.cr s.1 k) (m k)
  logged : ¬ M.staging → m = s.2.dur

/-- An event of the preparation. -/
def What.Prepares (e : What) : Prop :=
  (∀ m, e ≠ .mark m) ∧ ∀ p o t, e = .stored p o t → p = .canary ∨ p = .ownership

/-- Nothing but the ownership record, the handle and during the probe its object
changed. -/
structure Prepared (probe : Prop) (s s' : State) : Prop where
  hist : ∃ t, s'.1.hist = t ++ s.1.hist ∧ ∀ x ∈ t, x.2.Prepares
  ghost : s'.2 = s.2
  lookup : ∀ p, p ≠ .canary → p ≠ .ownership → s'.1.st.lookup p = s.1.st.lookup p
  canary : ¬ probe → s'.1.st.lookup .canary = s.1.st.lookup .canary

variable {probe : Prop}

theorem Prepared.refl (s : State) : Prepared probe s s :=
  ⟨⟨[], rfl, by simp⟩, rfl, fun _ _ _ => rfl, fun _ => rfl⟩

/-- A step on the handle. -/
theorem Prepared.setInst (i : Nat) (v : Inst) : Prepared probe s (s.1.setInst i v, s.2) :=
  ⟨⟨[], rfl, by simp⟩, rfl, fun _ _ _ => rfl, fun _ => rfl⟩

theorem Prepared.mono (h : Prepared False s s') : Prepared probe s s' :=
  { h with canary := fun _ => h.canary id }

theorem Prepared.trans (h : Prepared probe s s') (h' : Prepared probe s' s'') :
    Prepared probe s s'' where
  hist := grown_front h.hist h'.hist
  ghost := h'.ghost.trans h.ghost
  lookup p hp hp' := (h'.lookup p hp hp').trans (h.lookup p hp hp')
  canary hp := (h'.canary hp).trans (h.canary hp)

theorem Prepared.stores (h : Prepared probe s s') {x : Who × ObjectPath × Obj × Etag}
    (hx : x ∈ stores s'.1.hist) : x ∈ stores s.1.hist ∨ x.2.1 = .canary ∨ x.2.1 = .ownership := by
  obtain ⟨t, ht, hall⟩ := h.hist
  rw [ht, OxKv.stores, List.filterMap_append, List.mem_append] at hx
  refine hx.symm.imp id fun hx => ?_
  obtain ⟨⟨who', e⟩, he, heq⟩ := List.mem_filterMap.mp hx
  cases e with
  | stored p o t =>
    cases heq
    exact (hall _ he).2 p o t rfl
  | _ => cases heq

theorem Prepared.archive (h : Prepared probe s s') : s'.1.archive = s.1.archive := by
  obtain ⟨t, ht, hall⟩ := h.hist
  unfold World.archive
  rw [ht]
  clear ht
  induction t with
  | nil => rfl
  | cons x t ih =>
    have ih := ih fun y hy => hall y (by simp [hy])
    obtain ⟨who', e⟩ := x
    cases e with
    | stored p o t' =>
      have hp := (hall (who', .stored p o t') (by simp)).2 p o t' rfl
      rw [← ih]
      funext q
      show archived ((who', p, o, t') :: OxKv.stores (t ++ s.1.hist)) q = _
      rw [archived, if_neg]
      rintro ⟨rfl, hd⟩
      rcases hp with rfl | rfl <;> cases hd
    | _ => exact ih

theorem Prepared.durableHit (h : Prepared probe s s') (k : Key) :
    durableHit M.cr s'.1 k = durableHit M.cr s.1 k := by
  have hman : s'.1.manifest = s.1.manifest := manifest_eq (h.lookup _ nofun nofun)
  unfold OxKv.durableHit sstHit
  rw [hman, h.archive]

/-- The handle stays unused. -/
theorem Opening.prepared (h : Opening M who m s) (hp : Prepared probe s s') (hr : Reading M who s')
    (hgate : (s'.1.inst who.inst).gate = none) (hpending : (s'.1.inst who.inst).pending = []) :
    Opening M who m s' where
  toReading := hr
  opener := h.opener
  unready := by rw [hp.ghost]; exact h.unready
  gate := hgate
  pending := hpending
  fresh who' p o t hm hi := by
    rcases hp.stores hm with hm | hm | hm
    · exact h.fresh who' p o t hm hi
    · rw [show p = .canary from hm]; rfl
    · rw [show p = .ownership from hm]; rfl
  shows k := by
    rw [hp.durableHit]
    unfold Track.Shows
    rw [hp.archive]
    exact h.shows k
  logged hst := by rw [hp.ghost]; exact h.logged hst

/-- Reading procedures of a lone thread. -/
theorem Calm.prepared (h : Calm M who s s') (hi : Inv M.toTrack s.1 s.2) (hs : M.solo) :
    Prepared False s s' := by
  have hst := h.still hi hs
  refine ⟨?_, hst.ghost, fun p _ _ => by rw [hst.st], fun _ => by rw [hst.st]⟩
  refine (h.induct (R := fun x => ∃ t, x.1.hist = t ++ s.1.hist ∧ ∀ y ∈ t, y.2.Prepares) hi
    ⟨[], rfl, by simp⟩ (fun hns => absurd hs hns) ?_).2
  intro a b _ ha hab
  obtain ⟨t, ht, hall⟩ := hab.hist
  refine grown_front ha ⟨t, ht, fun x hx => ?_⟩
  rcases hall x hx with he | he <;> rw [he] <;> exact ⟨by simp, by simp⟩

theorem Opening.read (h : Opening M who m s) (hs : M.solo) (hc : Calm M who s s')
    (hr : Reading M who s') : Opening M who m s' := by
  obtain ⟨c, f, hi⟩ := (hc.still h.inv hs).inst who.inst
  refine h.prepared (hc.prepared h.inv hs) hr ?_ ?_
  · rw [hi]
    exact h.gate
  · rw [hi]
    exact h.pending

/-- An own step on the probe object or the ownership record. -/
theorem Opening.own (h : Opening M who m s) (he : Effect M who s s') (hp : Prepared probe s s')
    (hinst : s'.1.inst who.inst = s.1.inst who.inst) : Opening M who m s' := by
  refine h.prepared hp ⟨he.inv h.inv, Or.inr h.opener, fun hskip => ?_⟩ ?_ ?_
  · rw [hinst] at hskip ⊢
    refine ⟨(h.sync hskip).1, fun mf e hc => ((h.sync hskip).2 mf e hc).congr ?_⟩
    exact hp.lookup _ nofun nofun
  · rw [hinst]
    exact h.gate
  · rw [hinst]
    exact h.pending

/-! ## The probe -/

/-- The probe leaves the ownership record alone. -/
def Probing (s s' : State) : Prop :=
  Prepared True s s' ∧ s'.1.st.lookup .ownership = s.1.st.lookup .ownership

theorem Probing.trans (h : Probing s s') (h' : Probing s' s'') : Probing s s'' :=
  ⟨h.1.trans h'.1, h'.2.trans h.2⟩

theorem putCanary_safe (hs : M.solo) (h : Opening M who m s) (b : Bytes) (mode : PutMode) :
    IoSafe (rules M) who (Io.call (.putOpts .canary (.bytes b) mode)) (fun r s' =>
      Opening M who m s' ∧ Probing s s' ∧ match r with
        | .ok e => s.1.st.Admits .canary mode ∧ s'.1.st.lookup .canary = some (.bytes b, e) ∧ 0 < e
        | .error err => s' = s ∧ (M.faults ∨ ¬ s.1.st.Admits .canary mode ∧
            ∃ d, err = .casConflict d)) s := by
  refine .call (soloStep hs (fun c => exec_putOpts_isSome ..) fun c r t hc hx _ => ?_)
  rcases exec_putOpts hc hx with ⟨rfl, rfl, hadm⟩ | ⟨err, rfl, rfl, hwhy⟩
  · have he : Effect M who s (s.1.write who .canary (.bytes b), s.2) := .canary _ h.unready
    have hp : Prepared True s (s.1.write who .canary (.bytes b), s.2) :=
      ⟨⟨[_], rfl, by simp [What.Prepares]⟩, rfl, fun p hp _ => lookup_write_ne hp ..,
        fun h => absurd trivial h⟩
    refine ⟨s.2, he, h.own he hp rfl, ⟨hp, lookup_write_ne (p := .canary)
      (q := .ownership) nofun ..⟩, hadm, ?_,
      Nat.succ_pos _⟩
    show (s.1.st.insert _ _).lookup _ = _
    rw [Storage.lookup_insert]
  · exact ⟨s.2, .idle, h, ⟨.refl s, rfl⟩, rfl, hwhy.imp And.left id⟩

theorem deleteCanary_safe (hs : M.solo) (h : Opening M who m s) :
    IoSafe (rules M) who (Io.call (.delete .canary)) (fun r s' =>
      Opening M who m s' ∧ Probing s s' ∧ match r with
        | .ok _ => s'.1.st.lookup .canary = none
        | .error _ => M.faults) s := by
  refine .call (soloStep hs (fun c => ?_) fun c r t hc hx _ => ?_)
  · dsimp only [exec]
    split <;> rfl
  · dsimp only [exec] at hx
    split at hx
    · rename_i f hf
      cases hx
      refine ⟨s.2, .idle, h, ⟨.refl s, rfl⟩, ?_⟩
      rcases hc with hc | hc
      · rw [hf] at hc; cases hc
      · exact hc.1
    · cases hx
      have he : Effect M who s ({ s.1 with st := s.1.st.delete .canary }, s.2) :=
        .uncanary h.unready
      have hp : Prepared True s ({ s.1 with st := s.1.st.delete .canary }, s.2) :=
        ⟨⟨[], rfl, by simp⟩, rfl, fun p hp _ => Storage.lookup_delete_ne _ hp,
          fun h => absurd trivial h⟩
      exact ⟨s.2, he, h.own he hp rfl,
        ⟨hp, Storage.lookup_delete_ne (q := .ownership) _ nofun⟩, Storage.lookup_delete ..⟩

def ProbedTo (M : Mode) (who : Who) (m : KMap) (s : State) (r : Res Unit) (s' : State) : Prop :=
  Opening M who m s' ∧ Probing s s' ∧ match r with
    | .ok _ => s'.1.st.lookup .canary = none
    | .error _ => M.faults ∨ s.1.st.lookup .canary ≠ none

variable {s₀ : State}

theorem probeFail_safe (hs : M.solo) (h : Opening M who m s) (hp : Probing s₀ s) (hf : M.faults)
    (e : StoreError) : IoSafe (rules M) who (probeFail e) (ProbedTo M who m s₀) s := by
  refine .bind (.attempt ((deleteCanary_safe hs h).mono ?_))
  rintro r s1 - ⟨h1, hp1, -⟩
  exact soloFail hs ⟨h1, hp.trans hp1, Or.inl hf⟩

theorem probeStore_safe (hs : M.solo) (h : Opening M who m s) :
    IoSafe (rules M) who probeStore (ProbedTo M who m s) s := by
  refine .bind (.mapErr ((putCanary_safe hs h _ _).mono ?_))
  rintro r s1 - ⟨h1, hp1, hr⟩
  match r, hr with
  | .error e, ⟨_, hwhy⟩ => exact ⟨h1, hp1, hwhy.imp id And.left⟩
  | .ok first, ⟨_, hlook1, hpos⟩ =>
    -- the object is there, so a second create and an update with the tag `0` conflict
    refine .attemptBind ((putCanary_safe hs h1 _ _).mono ?_)
    rintro r s2 - ⟨h2, hp2, hr⟩
    match r, hr with
    | .ok _, ⟨hadm, _⟩ =>
      rw [show s1.1.st.lookup .canary = none from hadm] at hlook1
      cases hlook1
    | .error e, ⟨heq, hwhy⟩ =>
      subst heq
      have hother : (∀ d, e ≠ .casConflict d) → M.faults := fun hne =>
        hwhy.resolve_right fun ⟨_, d, hd⟩ => hne d hd
      cases e with
      | casConflict d =>
        refine .attemptBind ((putCanary_safe hs h2 _ _).mono ?_)
        rintro r s3 - ⟨h3, hp3, hr⟩
        match r, hr with
        | .ok _, ⟨⟨o, hadm⟩, _⟩ =>
          rw [hlook1] at hadm
          cases hadm
          exact absurd hpos (lt_irrefl 0)
        | .error e, ⟨heq, hwhy⟩ =>
          subst heq
          have hother : (∀ d, e ≠ .casConflict d) → M.faults := fun hne =>
            hwhy.resolve_right fun ⟨_, d, hd⟩ => hne d hd
          cases e with
          | casConflict d =>
            refine .bind (.mapErr ((putCanary_safe hs h3 _ _).mono ?_))
            rintro r s4 - ⟨h4, hp4, hr⟩
            match r, hr with
            | .error e, ⟨_, hwhy⟩ =>
              refine ⟨h4, hp1.trans hp4, Or.inl (hwhy.resolve_right fun ⟨hadm, _⟩ => ?_)⟩
              exact hadm ⟨_, hlook1⟩
            | .ok _, _ =>
              refine .mapErr ((deleteCanary_safe hs h4).mono ?_)
              rintro r s5 - ⟨h5, hp5, hr⟩
              refine ⟨h5, (hp1.trans hp4).trans hp5, ?_⟩
              match r, hr with
              | .ok _, hr => exact hr
              | .error _, hf => exact .inl hf
          | _ => exact probeFail_safe hs h3 hp1 (hother (by simp)) _
      | _ => exact probeFail_safe hs h2 hp1 (hother (by simp)) _

/-! ## The takeover -/

theorem topEpoch_of_lookup {st : Storage} {r : OwnershipRecord} {e : Etag}
    (h : st.lookup .ownership = some (.ownership r, e)) : st.topEpoch = r.epoch := by
  simp [Storage.topEpoch, Storage.owner, h]

theorem topEpoch_of_none {st : Storage} (h : st.lookup .ownership = none) : st.topEpoch = 0 := by
  simp [Storage.topEpoch, Storage.owner, h]

def Acquired (M : Mode) (who : Who) (m : KMap) (session : String) (s : State)
    (r : Res OwnershipRecord) (s' : State) : Prop :=
  Opening M who m s' ∧ Prepared False s s' ∧ s'.1.st.topEpoch ≤ s.1.st.topEpoch + 1 ∧ match r with
    | .ok x => x.ownerSession = session ∧ s'.1.st.topEpoch = x.epoch ∧
        ∃ t, (who, ObjectPath.ownership, Obj.ownership x, t) ∈ stores s'.1.hist
    | .error _ => M.faults

theorem putOwnership_safe (hs : M.solo) (h : Opening M who m s) (hp0 : Prepared False s₀ s)
    (htop : s.1.st.topEpoch = s₀.1.st.topEpoch) {x : OwnershipRecord}
    (hx : x.epoch = s.1.st.topEpoch + 1) {mode : PutMode} (hadm : s.1.st.Admits .ownership mode) :
    IoSafe (rules M) who (Io.call (.putOpts .ownership (.ownership x) mode)) (fun r s' =>
      Acquired M who m x.ownerSession s₀ (r.map fun _ => x) s') s := by
  refine .call (soloStep hs (fun c => exec_putOpts_isSome ..) fun c r t hc hput _ => ?_)
  rcases exec_putOpts hc hput with ⟨rfl, rfl, -⟩ | ⟨err, rfl, rfl, hwhy⟩
  · have he : Effect M who s (s.1.write who .ownership (.ownership x), s.2) :=
      .acquire x (.inl hs) hx
    have hp : Prepared False s (s.1.write who .ownership (.ownership x), s.2) :=
      ⟨⟨[_], rfl, by simp [What.Prepares]⟩, rfl, fun p _ hp => lookup_write_ne hp ..,
        fun _ => lookup_write_ne (p := .ownership) (q := .canary) nofun ..⟩
    have hnew : (s.1.write who .ownership (.ownership x)).st.topEpoch = x.epoch := by
      refine topEpoch_of_lookup (e := s.1.st.seq + 1) ?_
      show (s.1.st.insert _ _).lookup _ = _
      rw [Storage.lookup_insert]
    refine ⟨s.2, he, h.own he hp rfl, hp0.trans hp, ?_, rfl, hnew, s.1.st.seq + 1,
      List.mem_cons_self⟩
    rw [hnew, hx, htop]
  · exact ⟨s.2, .idle, h, hp0, by rw [htop]; exact Nat.le_succ _,
      (hwhy.resolve_right fun ⟨hn, _⟩ => hn hadm).1⟩

theorem acquireAlone_safe (hs : M.solo) (h : Opening M who m s)
    (hbound : s.1.st.topEpoch < 2 ^ 64 - 1) (session : String) :
    IoSafe (rules M) who (acquireOwnership session) (Acquired M who m session s) s := by
  -- the epoch and the mode that the read leads to
  refine .bind (.mono (Q := fun r s1 => Opening M who m s1 ∧ Prepared False s s1 ∧
    s1.1.st = s.1.st ∧ (∀ x, r = .ok x → x.1 = s1.1.st.topEpoch + 1 ∧ s1.1.st.Admits .ownership x.2) ∧
    ∀ e, r = .error e → M.faults) ?_ ?_)
  · refine .attemptBind (.ofReads ((get_safe .ownership h.toReading).calm ?_))
    rintro r s1 - hc1 ⟨h1, s2, h2, hc2, hc2', hgot⟩
    have hopen := h.read hs hc1 h1
    have hp1 := hc1.prepared h.inv hs
    have hst2 : s2.1.st = s.1.st := (hc2.still h.inv hs).st
    have hst1 : s1.1.st = s.1.st := (hc1.still h.inv hs).st
    cases r with
    | ok x =>
      obtain ⟨o, e⟩ := x
      have hgot : s2.1.st.lookup .ownership = some (o, e) := hgot
      obtain ⟨who', hm⟩ := h2.inv.store.held hgot
      obtain ⟨x, rfl⟩ := h2.inv.store.ownerObj hm
      rw [hst2] at hgot
      have htop := topEpoch_of_lookup hgot
      refine soloPure hs ⟨hopen, hp1, hst1, fun y hy => ?_, nofun⟩
      cases hy
      refine ⟨?_, _, by rw [hst1]; exact hgot⟩
      rw [hst1, htop]
      unfold saturatingAdd
      omega
    | error e =>
      rcases hgot with ⟨hf, rfl⟩ | ⟨hnone, rfl⟩
      · show IoSafe _ _ (if saysNotFound Fault.backend.error.text then _ else _) _ _
        rw [if_neg (by simp [saysNotFound_backend])]
        exact soloFail hs ⟨hopen, hp1, hst1, nofun, fun _ _ => hf⟩
      · show IoSafe _ _ (if saysNotFound _ then _ else _) _ _
        rw [if_pos (saysNotFound_missing _)]
        rw [hst2] at hnone
        refine soloPure hs ⟨hopen, hp1, hst1, fun y hy => ?_, nofun⟩
        cases hy
        refine ⟨?_, by rw [hst1]; exact hnone⟩
        rw [hst1, topEpoch_of_none hnone]
  rintro r s1 - ⟨h1, hp1, hst, hok, herr⟩
  cases r with
  | error e => exact ⟨h1, hp1, by rw [hst]; exact Nat.le_succ _, herr e rfl⟩
  | ok x =>
    obtain ⟨hepoch, hadm⟩ := hok x rfl
    refine .attemptBind ((putOwnership_safe hs h1 hp1 (by rw [hst]) (x := ⟨x.1, session⟩)
      hepoch hadm).mono ?_)
    rintro r s2 - ⟨h2, hp2, htop2, hr⟩
    cases r with
    | ok _ => exact soloPure hs ⟨h2, hp2, htop2, hr⟩
    | error e => cases e <;> exact soloFail hs ⟨h2, hp2, htop2, hr⟩

/-! ## Replay -/

/-- The new handle of the owner, with `mem` as its MemTable. -/
structure Handled (M : Mode) (who : Who) (m : KMap) (epoch : Nat) (session : String) (mem : MemMap)
    (s : State) : Prop extends Opening M who m s where
  epochEq : (s.1.inst who.inst).epoch = epoch
  top : s.1.st.topEpoch = epoch
  record : ∃ t, (who, ObjectPath.ownership, Obj.ownership ⟨epoch, session⟩, t) ∈ stores s.1.hist
  memEq : (s.1.inst who.inst).mem = mem
  seqs : (s.1.inst who.inst).walSeq = 0 ∧ (s.1.inst who.inst).sstSeq = 0
  buffer : (s.1.inst who.inst).walBuffer = []

section Handled

variable {epoch : Nat} {session : String} {mem : MemMap}

theorem newHandle_safe (hs : M.solo) (h : Opening M who m s) (htop : s.1.st.topEpoch = epoch)
    (hrec : ∃ t, (who, ObjectPath.ownership, Obj.ownership ⟨epoch, session⟩, t) ∈ stores s.1.hist)
    (skip : Bool) :
    IoSafe (rules M) who (Io.act (.newHandle epoch session skip)) (fun r s' => r = .ok () ∧
      Handled M who m epoch session SortedMap.empty s' ∧ Prepared False s s') s := by
  refine .act (soloStep hs (fun _ => rfl) fun c r t _ hx _ => ?_)
  cases hx
  have he : Effect M who s (s.1.setInst who.inst (Inst.new epoch session skip), s.2) :=
    .handle epoch session skip (le_of_eq htop.symm) h.fresh h.opener h.unready h.gate h.pending
  have hp : Prepared False s _ := .setInst who.inst (Inst.new epoch session skip)
  have hinst : (s.1.setInst who.inst (Inst.new epoch session skip)).inst who.inst =
      Inst.new epoch session skip := World.setInst_inst_self ..
  refine ⟨s.2, he, rfl, ?_, hp⟩
  refine {
    toOpening := h.prepared hp ⟨he.inv h.inv, Or.inr h.opener, fun _ => ⟨hs, fun mf e hc => ?_⟩⟩
      (by rw [hinst]; rfl) (by rw [hinst]; rfl)
    epochEq := by rw [hinst]; rfl
    top := htop
    record := hrec
    memEq := by rw [hinst]; rfl
    seqs := by rw [hinst]; exact ⟨rfl, rfl⟩
    buffer := by rw [hinst]; rfl }
  rw [hinst] at hc
  cases hc

theorem Handled.read (h : Handled M who m epoch session mem s) (hs : M.solo) (hc : Calm M who s s')
    (hr : Reading M who s') : Handled M who m epoch session mem s' := by
  have hst := hc.still h.inv hs
  obtain ⟨c, f, hi⟩ := hst.inst who.inst
  obtain ⟨t, ht⟩ := h.record
  exact {
    toOpening := h.toOpening.read hs hc hr
    epochEq := by rw [hi]; exact h.epochEq
    top := by rw [hst.st]; exact h.top
    record := ⟨t, hc.stores h.inv _ ht⟩
    memEq := by rw [hi]; exact h.memEq
    seqs := by rw [hi]; exact h.seqs
    buffer := by rw [hi]; exact h.buffer }

theorem memReplay_safe (hs : M.solo) (h : Handled M who m epoch session mem s) {ops : List Op}
    (hops : ∀ op ∈ ops, M.OkOp op) :
    IoSafe (rules M) who (Io.act (.memReplay ops)) (fun r s' => r = .ok () ∧
      Handled M who m epoch session (mem.insertAll ops) s' ∧ Prepared False s s') s := by
  refine .act (soloStep hs (fun _ => rfl) fun c r t _ hx _ => ?_)
  cases hx
  have hmem : ∀ op ∈ ((s.1.inst who.inst).mem.insertAll ops).toList, M.OkOp op := by
    rintro ⟨k, x⟩ hop
    have hget := (SortedMap.mem_toList _ k x).mp hop
    rw [SortedMap.get?_insertAll] at hget
    rcases Option.or_eq_some_iff.mp hget with hl | ⟨-, hm⟩
    · exact hops _ (List.mem_reverse.mp (SortedMap.mem_of_lookup hl))
    · exact h.inv.handle.memOk _ _ ((SortedMap.mem_toList _ k x).mpr hm)
  have he : Effect M who s (s.1.setInst who.inst { s.1.inst who.inst with
      mem := (s.1.inst who.inst).mem.insertAll ops }, s.2) :=
    .replay _ h.opener h.unready hmem
  have hp : Prepared False s _ := .setInst who.inst { s.1.inst who.inst with
    mem := (s.1.inst who.inst).mem.insertAll ops }
  refine ⟨s.2, he, rfl, ?_, hp⟩
  refine {
    toOpening := h.toOpening.prepared hp ⟨he.inv h.inv, Or.inr h.opener, fun hskip => ?_⟩
      (by simpa using h.gate) (by simpa using h.pending)
    epochEq := by simpa using h.epochEq
    top := h.top
    record := h.record
    memEq := by simp [h.memEq]
    seqs := by simpa using h.seqs
    buffer := by simpa using h.buffer }
  simp only [World.setInst_inst_self] at hskip
  refine ⟨hs, fun mf e hc => ((h.sync hskip).2 mf e ?_).congr rfl⟩
  simpa using hc

/-- A listed WAL file is there. -/
theorem Inv.walBytes {T : Track} {w : World} {g : Ghost} (h : Inv T w g) {p : ObjectPath}
    (hp : p ∈ w.manifest.wal) :
    ∃ b t, w.st.lookup p = some (.bytes b, t) ∧ walOps w.archive p = decodeWalRecords b ∧
      ∀ op ∈ decodeWalRecords b, T.OkOp op := by
  obtain ⟨e, n, b, rfl, hb⟩ := h.store.listOk.wals p hp
  obtain ⟨⟨o, t⟩, hy⟩ := h.present.wals _ hp
  have harch := h.archive_of_lookup rfl hy
  rw [hb] at harch
  cases harch
  have hops : walOps w.archive (.wal e n) = decodeWalRecords b := by
    unfold walOps
    rw [hb]
  refine ⟨b, t, hy, hops, ?_⟩
  rw [← hops]
  exact h.store.walVal

theorem replayPass_safe (hs : M.solo) {ids : List ObjectPath}
    (h : Handled M who m epoch session mem s) (hids : ∀ p ∈ ids, p ∈ s.1.manifest.wal) :
    IoSafe (rules M) who (replayPass ids) (fun r s' => Prepared False s s' ∧
      ∃ mem', Handled M who m epoch session mem' s' ∧ match r with
        | .ok missing => missing = [] ∧ mem' = mem.insertAll (ids.flatMap (walOps s.1.archive))
        | .error _ => M.faults) s := by
  induction ids generalizing s mem with
  | nil => exact soloPure hs ⟨.refl _, mem, h, rfl, rfl⟩
  | cons id ids ih =>
    refine .attemptBind (.ofReads ((get_safe id h.toReading).calm ?_))
    rintro r s1 - hc1 ⟨hr1, s2, h2, hc2, -, hgot⟩
    have h1 := h.read hs hc1 hr1
    have hp1 := hc1.prepared h.inv hs
    obtain ⟨b, t, hlook, hops, hok⟩ := h.inv.walBytes (hids id (by simp))
    match r, hgot with
    | .ok (o, e), hgot =>
      have hgot : s2.1.st.lookup id = some (o, e) := hgot
      rw [(hc2.still h.inv hs).st, hlook] at hgot
      cases hgot
      refine .bind ((memReplay_safe hs h1 hok).mono ?_)
      rintro r s3 - ⟨rfl, h3, hp3⟩
      have hp := hp1.trans hp3
      refine (ih h3 fun p hp' => ?_).mono ?_
      · rw [manifest_eq (hp.lookup _ nofun nofun)]
        exact hids p (by simp [hp'])
      rintro r s4 - ⟨hp4, mem', h4, hr⟩
      refine ⟨hp.trans hp4, mem', h4, ?_⟩
      match r, hr with
      | .error e, hf => exact hf
      | .ok missing, ⟨hnil, hmem⟩ =>
        refine ⟨hnil, ?_⟩
        rw [hmem, hp.archive, List.flatMap_cons, hops, SortedMap.insertAll_append]
    | .error e, hgot =>
      rcases hgot with ⟨hf, rfl⟩ | ⟨hnone, -⟩
      · show IoSafe _ _ (if isNotFound Fault.backend.error then _ else _) _ _
        rw [if_neg (by simp [isNotFound_backend])]
        exact soloFail hs ⟨hp1, mem, h1, hf⟩
      · rw [(hc2.still h.inv hs).st, hlook] at hnone
        cases hnone

theorem replayListedWals_safe (hs : M.solo)
    (h : Handled M who m epoch session mem s) (ids : List ObjectPath)
    (hids : ∀ p ∈ ids, p ∈ s.1.manifest.wal) :
    IoSafe (rules M) who (replayListedWals cx ids) (fun r s' => Prepared False s s' ∧
      ∃ mem', Handled M who m epoch session mem' s' ∧ match r with
        | .ok _ => mem' = mem.insertAll (ids.flatMap (walOps s.1.archive))
        | .error _ => M.faults) s := by
  refine .bind ((replayPass_safe hs h hids).mono ?_)
  rintro r s1 - ⟨hp, mem', h1, hr⟩
  match r, hr with
  | .error e, hf => exact ⟨hp, mem', h1, hf⟩
  | .ok missing, ⟨hnil, hmem⟩ =>
    subst hnil
    exact soloPure hs ⟨hp, mem', h1, hmem⟩

end Handled

/-! ## The handle -/

/-- A fold that raises its value above every number. -/
theorem foldl_above {f : Nat → SstMeta → Nat} {l : List SstMeta}
    (hf : ∀ y ∈ l, ∀ acc, f acc y = max acc (y.seq + 1)) (acc : Nat) :
    acc ≤ l.foldl f acc ∧ ∀ y ∈ l, y.seq < l.foldl f acc := by
  induction l generalizing acc with
  | nil => exact ⟨le_refl _, by simp⟩
  | cons z l ih =>
    obtain ⟨hle, hlt⟩ := ih (fun y hy => hf y (by simp [hy])) (max acc (z.seq + 1))
    rw [List.foldl_cons, hf z (by simp)]
    refine ⟨by omega, fun y hy => ?_⟩
    rcases List.mem_cons.mp hy with rfl | hy
    · omega
    · exact hlt y hy

/-- The high-water mark is above the numbers of the listed files. -/
theorem lt_sstHighWater {c : Tables} {sst : List SstMeta} (h : Levels c sst)
    {x : SstMeta} (hx : x ∈ sst) : x.seq < sstHighWater sst := by
  have hids := h.ids
  refine (foldl_above (fun y hy acc => ?_) 0).2 x hx
  obtain ⟨e, hy⟩ := hids y hy
  rw [hy]

/-- What opening the prefix leads to. -/
structure Built (M : Mode) (who : Who) (m : KMap) (b : Builder) (cx : Ctx) (s s' : State) :
    Prop where
  outside : Outside M who cx s'
  params : cx.crates = b.crates ∧ cx.session = b.session ∧ cx.check = b.check
  hist : ∃ t, s'.1.hist = t ++ s.1.hist ∧ ∀ x ∈ t, x.2.Prepares
  lin : s'.2.lin = s.2.lin ∧ s'.2.origin = s.2.origin
  live : live s'.1 s'.2 who.inst = m
  buffer : (s'.1.inst who.inst).walBuffer = []
  manifest : s'.1.st.lookup .manifest = s.1.st.lookup .manifest
  canary : s.1.st.lookup .canary = none → s'.1.st.lookup .canary = none
  top : s'.1.st.topEpoch ≤ s.1.st.topEpoch + 1

variable {b : Builder}

theorem setSeqs_safe (hs : M.solo) {epoch : Nat} {session : String} {mem : MemMap}
    (h : Handled M who m epoch session mem s) (hp : Prepared True s₀ s)
    (hcan : s₀.1.st.lookup .canary = none → s.1.st.lookup .canary = none)
    (htop : s.1.st.topEpoch ≤ s₀.1.st.topEpoch + 1)
    (hmem : ∀ k, mem.get? k = walHit s.1.archive s.1.manifest.wal k) (walSeq : Nat)
    {sst : List SstMeta} (hsst : s.1.manifest.sst = sst) (hcx : cx.epoch = epoch)
    (hses : cx.session = session) (hcr : cx.crates = M.cr)
    (hb : cx.crates = b.crates ∧ cx.session = b.session ∧ cx.check = b.check) :
    IoSafe (rules M) who (Io.act (.setSeqs walSeq (sstHighWater sst))) (fun r s' =>
      r = .ok () ∧ Built M who m b cx s₀ s') s := by
  refine .act (soloStep hs (fun _ => rfl) fun c r t _ hx _ => ?_)
  cases hx
  obtain ⟨t, ht⟩ := h.record
  have hwriter : Writer s.1 who.inst := by
    refine ⟨who, session, t, rfl, ?_⟩
    rw [h.epochEq]
    exact ht
  have hshows : ∀ k, M.Shows s.1 (liveHit M.cr s.1 who.inst k) (m k) := fun k => by
    unfold liveHit
    rw [h.memEq, hmem k]
    exact h.shows k
  have hseq : ∀ x ∈ s.1.manifest.sst, x.seq < sstHighWater sst := fun x hx => by
    rw [← hsst]
    exact lt_sstHighWater h.inv.store.listOk.levels hx
  have he : Effect M who s (s.1.setInst who.inst { s.1.inst who.inst with
      walSeq := walSeq, sstSeq := sstHighWater sst }, { s.2 with
        ready := Function.update s.2.ready who.inst True
        base := Function.update s.2.base who.inst m }) :=
    .ready walSeq (sstHighWater sst) m h.opener h.unready hwriter
      (by rw [h.seqs.1]; exact Nat.zero_le _)
      (by rw [h.seqs.2]; exact Nat.zero_le _) h.logged (fun _ => hshows) fun _ => hseq
  have hinv := he.inv h.inv
  have howns : Owns (s.1.setInst who.inst { s.1.inst who.inst with
      walSeq := walSeq, sstSeq := sstHighWater sst }) who.inst := by
    refine ⟨hwriter.mono (List.suffix_refl _) (by simp), ?_⟩
    rw [World.setInst_inst_self]
    exact h.top.trans h.epochEq.symm
  refine ⟨_, he, rfl, {
    outside := ⟨{
      inv := hinv
      mine := .inr h.opener
      sync := fun hskip => ?_
      ready := by simp
      crates := hcr
      epoch := by rw [World.setInst_inst_self]; exact hcx.trans h.epochEq.symm
      record := ⟨who, t, rfl, by rw [hcx, hses]; exact ht⟩
      owns := fun _ => howns }, fun _ => by simpa using h.gate, fun _ => by simpa using h.pending⟩
    params := hb
    hist := hp.hist
    lin := by rw [← hp.ghost]; exact ⟨rfl, rfl⟩
    live := ?_
    buffer := by simpa using h.buffer
    manifest := hp.lookup _ nofun nofun
    canary := hcan
    top := htop }⟩
  · simp only [World.setInst_inst_self] at hskip
    refine ⟨hs, fun mf e hc => ((h.sync hskip).2 mf e ?_).congr rfl⟩
    simpa using hc
  · show liveFrom (Function.update s.2.base who.inst m who.inst) who.inst s.1.hist = _
    rw [Function.update_self, liveFrom_base fun w ops hm hw => ?_]
    have hready := h.inv.wrote hm
    rw [hw] at hready
    exact h.unready hready

def BuildCall (M : Mode) (who : Who) (m : KMap) (b : Builder) (s : State) (r : Res Ctx)
    (s' : State) : Prop :=
  match r with
  | .ok cx => Built M who m b cx s s'
  | .error _ => Opening M who m s' ∧ Prepared True s s' ∧
      s'.1.st.topEpoch ≤ s.1.st.topEpoch + 1 ∧ (M.faults ∨ s.1.st.lookup .canary ≠ none)

/-- An error before the handle is ready. -/
theorem Opening.buildError (h : Opening M who m s') (hp : Prepared True s s')
    (htop : s'.1.st.topEpoch ≤ s.1.st.topEpoch + 1) (hf : M.faults) (b : Builder) (e : StoreError) :
    BuildCall M who m b s (.error e) s' :=
  ⟨h, hp, htop, Or.inl hf⟩

theorem takeOver_safe (hs : M.solo) (h : Opening M who m s) (hp : Prepared True s₀ s)
    (hcan : s₀.1.st.lookup .canary = none → s.1.st.lookup .canary = none)
    (hst : s.1.st.topEpoch = s₀.1.st.topEpoch) (hbound : s.1.st.topEpoch < 2 ^ 64 - 1)
    (hcr : b.crates = M.cr) : IoSafe (rules M) who (takeOver b) (BuildCall M who m b s₀) s := by
  refine .bind ((acquireAlone_safe hs h hbound b.session).mono ?_)
  rintro r s1 - ⟨h1, hp1, htop1, hr⟩
  rw [hst] at htop1
  match r, hr with
  | .error e, hf => exact h1.buildError (hp.trans hp1.mono) htop1 hf b e
  | .ok ⟨epoch, session⟩, ⟨hses, htop, hrec⟩ =>
    obtain rfl : session = b.session := hses
    have hepoch : ∀ {s' mem}, Handled M who m epoch b.session mem s' →
        s'.1.st.topEpoch ≤ s₀.1.st.topEpoch + 1 := fun h' => by
      rw [h'.top, ← show s1.1.st.topEpoch = epoch from htop]
      exact htop1
    refine .bind ((newHandle_safe hs h1 htop hrec b.assumeSingleWriter).mono ?_)
    rintro r s2 - ⟨rfl, h2, hp2⟩
    have hp2 := hp1.trans hp2
    refine .bind (.ofReads ((loadManifest_safe true h2.toReading).calm ?_))
    rintro r s3 - hc3 ⟨hr3, hr⟩
    have h3 := h2.read hs hc3 hr3
    have hp3 := hp2.trans (hc3.prepared h2.inv hs)
    match r, hr with
    | .error e, hf => exact h3.toOpening.buildError (hp.trans hp3.mono) (hepoch h3) hf b e
    | .ok (mf, e), ⟨s4, h4, hc4, hc4', hcur⟩ =>
      have hst : s3.1.st = s4.1.st := (hc4'.still h4.inv hs).st
      obtain ⟨hwal, hsst⟩ := (Current.congr hcur (show s3.1.st.lookup .manifest = _ by rw [hst])).lists
      refine .bind ((replayListedWals_safe hs h3 mf.wal (by simp [hwal])).mono ?_)
      rintro r s5 - ⟨hp5, mem, h5, hr⟩
      match r, hr with
      | .error e, hf =>
        exact h5.toOpening.buildError (hp.trans (hp3.trans hp5).mono) (hepoch h5) hf b e
      | .ok _, hmem =>
        have hman : s5.1.manifest = s3.1.manifest := manifest_eq (hp5.lookup _ nofun nofun)
        have hp5' := hp3.trans hp5
        refine .bind ((setSeqs_safe hs h5 (hp.trans hp5'.mono)
          (fun hc => (hp5'.canary id).trans (hcan hc)) (hepoch h5) (fun k => ?_) _ ?_
          (show Ctx.epoch ⟨b.crates, epoch, b.session, b.check⟩ = epoch from rfl) rfl hcr
          ⟨rfl, rfl, rfl⟩).mono ?_)
        · rw [hmem, SortedMap.get?_insertAll, SortedMap.get?_empty, Option.or_none, hp5.archive, hman,
            hwal]
          rfl
        · rw [hman, hsst]
        · rintro r s6 - ⟨rfl, hb⟩
          exact soloPure hs hb

theorem build_safe (hs : M.solo) (h : Opening M who m s) (hbound : s.1.st.topEpoch < 2 ^ 64 - 1)
    (hcr : b.crates = M.cr) : IoSafe (rules M) who (build b) (BuildCall M who m b s) s := by
  unfold build
  split
  · exact takeOver_safe hs h (.refl s) id rfl hbound hcr
  · refine .bind ((probeStore_safe hs h).mono ?_)
    rintro r s1 - ⟨h1, hp1, hr⟩
    match r, hr with
    | .error e, hwhy => exact ⟨h1, hp1.1, by rw [topEpoch_eq hp1.2]; exact Nat.le_succ _, hwhy⟩
    | .ok _, hcan =>
      have htop := topEpoch_eq hp1.2
      exact takeOver_safe hs h1 hp1.1 (fun _ => hcan) htop (by rw [htop]; exact hbound) hcr

end OxKv
