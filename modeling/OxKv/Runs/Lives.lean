import OxKv.Format.Reference
import OxKv.Proc.Client

/-!
Runs of one prefix by successive owners, each alone while it lives. A process may
stop between any two actions of its engine.

* `Inv.start`: the invariant of an unused prefix;
* `Between`: what holds when no owner is alive;
* `Life.run_safe`: one owner, finished or stopped;
* `runLives_safe`: any number of owners.
-/

namespace OxKv

/-! ## An unused prefix -/

def Ghost.start : Ghost where
  origin := KMap.empty
  lin := []
  base := fun _ => KMap.empty
  win := fun _ => []
  flight := fun _ => none
  ready := fun _ => False
  slot := fun _ => .free

theorem Inv.start (T : Track) : Inv T World.start Ghost.start where
  store := {
    held := nofun
    tag := nofun
    tagInj := nofun
    data := nofun
    manifestObj := nofun
    ownerObj := nofun
    sstObj := nofun
    walObj := nofun
    blobObj := nofun
    blobVal := nofun
    sstVal := nofun
    walVal := nofun
    lists := nofun }
  handle := {
    ownerTop := nofun
    ownerInj := nofun
    epochLe := fun _ => Nat.zero_le _
    storedBy := nofun
    walNum := nofun
    sstNum := nofun
    cache := nofun
    sstCache := nofun
    memOk := nofun
    bufferOk := nofun
    buffer := fun _ _ => rfl }
  present := ⟨nofun, nofun⟩
  live := nofun
  durable _ _ := rfl
  queue := {
    free := fun _ => ⟨fun _ => rfl, fun _ => Nat.zero_le _⟩
    queued := fun _ _ => ⟨nofun, nofun⟩
    nodup := fun _ => List.nodup_nil
    gate := nofun
    answers := fun _ _ => ⟨nofun, nofun⟩
    write := nofun
    pushed := nofun
    pushedSlot := nofun
    settled := nofun }
  lin := {
    event := nofun
    order := .nil
    paths := List.nodup_nil
    listed := nofun
    payload := nofun
    batch := nofun
    once := List.nodup_nil }
  sizes := nofun
  replies _ _ _ _ hs := absurd (List.suffix_nil.mp hs) (List.cons_ne_nil _ _)
  wrote := nofun
  idle _ _ := ⟨rfl, rfl⟩

/-! ## One owner at a time -/

/-- A single thread at a time; its storage calls may fail. -/
@[reducible] def lone (T : Track) (faults : Prop) : Mode where
  toTrack := T
  solo := True
  faults := faults
  multi := False
  opener := fun i => ⟨0, i⟩
  gap := fun _ => True

variable {T : Track} {faults : Prop} {who : Who} {s s' s'' : State} {i : Nat}

theorem lone_allowed {β : Type} (a : Act β) (w : World) (r : β) :
    Allowed (lone T faults) who a w r := by
  cases a with
  | putOpts p o mode =>
    cases p with
    | manifest =>
      cases o with
      | manifest m =>
        cases r with
        | ok e => exact ⟨nofun, nofun, fun _ => trivial⟩
        | error e => trivial
      | _ => trivial
    | _ => trivial
  | delete p =>
    cases p with
    | wal e n => exact nofun
    | _ => trivial
  | _ => trivial

/-- No action of a lone thread is excluded. -/
theorem lone_permits {α : Type} (p : Prog Act α) (o : engine.Oracle) (w : World) :
    (rules (lone T faults)).Permits who p o w := by
  induction p generalizing o w with
  | ret => trivial
  | act a k ih =>
    exact fun r w' _ => ⟨lone_allowed a w r, ih r _ _⟩

section Steps

variable {M : Mode}

/-- What the steps of a thread leave of another handle. -/
theorem Effect.SameHandle.trans {j : Nat} (h : Effect.SameHandle s s' j)
    (h' : Effect.SameHandle s' s'' j) : Effect.SameHandle s s'' j :=
  ⟨h'.inst.trans h.inst, h'.win.trans h.win, h'.flight.trans h.flight, h'.base.trans h.base,
    h'.ready.trans h.ready, fun b => (h'.live b).trans (h.live b)⟩

theorem steps_other (h : (rules M).Steps who s s') {j : Nat} (hj : j ≠ who.inst) :
    Effect.SameHandle s s' j := by
  induction h with
  | refl => exact ⟨rfl, rfl, rfl, rfl, rfl, fun _ => rfl⟩
  | tail _ hstep ih =>
    obtain ⟨-, he, -⟩ := hstep
    have he : Effect M who _ _ := he
    exact ih.trans (he.other hj)

theorem steps_hist (h : (rules M).Steps who s s') :
    ∃ t, s'.1.hist = t ++ s.1.hist ∧ ∀ x ∈ t, x.1 = who := by
  induction h with
  | refl => exact ⟨[], rfl, by simp⟩
  | tail _ hstep ih =>
    obtain ⟨-, he, -⟩ := hstep
    have he : Effect M who _ _ := he
    exact grown_front ih he.hist_eq

theorem steps_topEpoch (h : (rules M).Steps who s s') : s.1.st.topEpoch ≤ s'.1.st.topEpoch := by
  induction h with
  | refl => exact le_refl _
  | tail _ hstep ih =>
    obtain ⟨-, he, -⟩ := hstep
    have he : Effect M who _ _ := he
    exact ih.trans he.topEpoch.1

end Steps

/-- No owner is alive; the instance numbers from `i` on are unused. -/
structure Between (M : Mode) (i : Nat) (s : State) : Prop where
  inv : Inv M.toTrack s.1 s.2
  unused : ∀ j, i ≤ j → s.1.inst j = Inst.new 0 "" false ∧ ¬ s.2.ready j
  silent : ∀ e ∈ s.1.hist, e.1.inst < i
  top : s.1.st.topEpoch ≤ i

theorem Between.start (M : Mode) : Between M 0 (World.start, Ghost.start) where
  inv := Inv.start M.toTrack
  unused _ _ := ⟨rfl, id⟩
  silent _ h := by cases h
  top := le_refl _

variable {M : Mode}

/-- Whatever an owner did, the later numbers are still unused. -/
theorem Between.steps (hb : Between M i s) (h : (rules M).Steps ⟨0, i⟩ s s')
    (hi : Inv M.toTrack s'.1 s'.2) (htop : s'.1.st.topEpoch ≤ i + 1) : Between M (i + 1) s' where
  inv := hi
  unused j hj := by
    have hsame := steps_other h (j := j) (by simp only; omega)
    rw [hsame.inst, hsame.ready]
    exact hb.unused j (by omega)
  silent e he := by
    obtain ⟨t, ht, hall⟩ := steps_hist h
    rw [ht] at he
    rcases List.mem_append.mp he with he | he
    · rw [hall e he]
      exact Nat.lt_succ_self i
    · exact Nat.lt_succ_of_lt (hb.silent e he)
  top := htop

/-! ## Opening -/

/-- What the listed files show. -/
theorem Inv.exists_shown {w : World} {g : Ghost} (h : Inv M.toTrack w g) :
    ∃ m : KMap, ∀ k, M.Shows w (durableHit M.cr w k) (m k) := by
  have hread : ∀ k, Readable M w.archive (durableHit M.cr w k) := by
    intro k hs raw hraw
    rcases Option.or_eq_some_iff.mp hraw with hwal | ⟨-, hsst⟩
    · have hop := SortedMap.mem_of_lookup hwal
      obtain ⟨p, hp, hop⟩ := List.mem_flatMap.mp (List.mem_reverse.mp hop)
      obtain ⟨b, t, -, hops, hok⟩ := h.walBytes hp
      rw [hops] at hop
      exact Track.OkOp.readable (M := M) (hok _ hop) w.archive hs raw rfl
    · exact h.readable_view h.store.listOk.ssts k hs raw hsst
  have hone : ∀ k, ∃ y, M.Shows w (durableHit M.cr w k) y := by
    intro k
    have hk := hread k
    match durableHit M.cr w k, hk with
    | none, _ => exact ⟨none, rfl⟩
    | some none, _ => exact ⟨none, rfl⟩
    | some (some raw), hk =>
      by_cases hs : M.strict
      · obtain ⟨v, hv⟩ := hk hs raw rfl
        exact ⟨some v, v, rfl, fun _ => hv⟩
      · exact ⟨some raw, raw, rfl, fun h => absurd h hs⟩
  choose m hm using hone
  exact ⟨m, hm⟩

theorem Between.opening {m : KMap} (hb : Between (lone T faults) i s)
    (hshows : ∀ k, T.Shows s.1 (durableHit T.cr s.1 k) (m k)) (hlog : ¬ T.staging → m = s.2.dur) :
    Opening (lone T faults) ⟨0, i⟩ m s where
  inv := hb.inv
  mine := .inr rfl
  sync hskip := by
    rw [(hb.unused i (le_refl i)).1] at hskip
    cases hskip
  opener := rfl
  unready := (hb.unused i (le_refl i)).2
  gate := by rw [(hb.unused i (le_refl i)).1]; rfl
  pending := by rw [(hb.unused i (le_refl i)).1]; rfl
  fresh who p o t hm hi := by
    have hlt : who.inst < i := hb.silent _ (mem_stores.mp hm)
    have hi : who.inst = i := hi
    omega
  shows := hshows
  logged := hlog

/-! ## One owner -/

theorem Using.top {cx : Ctx} (h : Using M who cx s) (hm : ¬ M.multi) : s.1.st.topEpoch = cx.epoch :=
  (h.owns hm).2.trans h.epoch.symm

/-- Between two calls of a lone owner everything listed is applied. -/
theorem Outside.dur_eq {cx : Ctx} (h : Outside M who cx s) (hst : ¬ M.staging) (hm : ¬ M.multi)
    (hs : M.solo) : s.2.dur = live s.1 s.2 who.inst := by
  have hl := h.inv.live _ h.ready
  rw [hl.link hst (h.owns hm), (hl.free (h.free hs)).1, applyOps_nil]

/-- The end of a session: the client had all its replies, or the prefix could not be
opened. -/
def Ended (T : Track) (faults : Prop) (i : Nat) (m : KMap) (b : Builder) (calls : List Call)
    (J : Ctx → Nat → TxTable → State → Prop) (s s' : State) : Prop :=
  (∃ cx txs s₁, Built (lone T faults) ⟨0, i⟩ m b cx s s₁ ∧ J cx calls.length txs s') ∨
    Opening (lone T faults) ⟨0, i⟩ m s' ∧ Prepared True s s' ∧
      (faults ∨ s.1.st.lookup .canary ≠ none)

theorem session_safe {m : KMap} {b : Builder} {calls : List Call}
    {J : Ctx → Nat → TxTable → State → Prop} (hb : Between (lone T faults) i s)
    (hopen : Opening (lone T faults) ⟨0, i⟩ m s) (hbound : i < 2 ^ 64 - 1) (hcr : b.crates = T.cr)
    (htalks : ∀ cx s', Built (lone T faults) ⟨0, i⟩ m b cx s s' →
      Talks (lone T faults) ⟨0, i⟩ cx calls (J cx) ∧ J cx 0 TxTable.none s') :
    @Safe Act engine _ (rules (lone T faults)) ⟨0, i⟩ (session b calls) (fun _ s' =>
      s'.1.st.topEpoch ≤ i + 1 ∧ Ended T faults i m b calls J s s') s := by
  have hnext : s.1.st.topEpoch + 1 ≤ i + 1 := Nat.succ_le_succ hb.top
  refine .bind (.mono (build_safe trivial hopen (lt_of_le_of_lt hb.top hbound) hcr) ?_)
  rintro r s1 - hr
  match r, hr with
  | .error e, ⟨h1, hp1, htop, hwhy⟩ =>
    refine .ret fun s2 ho _ => ?_
    have ho : Others (lone T faults) ⟨0, i⟩ s1 s2 := ho
    rw [ho.1 trivial]
    exact ⟨htop.trans hnext, Or.inr ⟨h1, hp1, hwhy⟩⟩
  | .ok cx, hbuilt =>
    obtain ⟨ht, hJ⟩ := htalks cx s1 hbuilt
    refine .mono (client_safe ht (n := 0) rfl hJ) ?_
    rintro - s2 - ⟨txs, hJ'⟩
    rw [Nat.zero_add] at hJ'
    refine ⟨?_, Or.inl ⟨cx, txs, s1, hbuilt, hJ'⟩⟩
    rw [(ht.outside hJ').1.toUsing.top id, ← hbuilt.outside.toUsing.top id]
    exact hbuilt.top.trans hnext

/-- What an owner leaves behind is a stage of a complete session, the last one unless
its process was stopped. -/
theorem Life.run_safe {l : Life} {Q : State → Prop} (hb : Between (lone T faults) i s)
    (hsafe : @Safe Act engine _ (rules (lone T faults)) ⟨0, i⟩ (session l.builder l.calls)
      (fun _ s' => s'.1.st.topEpoch ≤ i + 1 ∧ Q s') s)
    (hok : ∀ n, (rules (lone T faults)).ok (l.oracle n)) :
    ∃ w g, l.run i s.1 = some w ∧ Between (lone T faults) (i + 1) (w, g) ∧
      (rules (lone T faults)).Steps ⟨0, i⟩ s (w, g) ∧
      ∃ s', (rules (lone T faults)).Steps ⟨0, i⟩ (w, g) s' ∧ Q s' ∧
        (l.stop = none → s' = (w, g)) := by
  cases hstop : l.stop with
  | none =>
    obtain ⟨hsome, hend⟩ := (rules (lone T faults)).run_safe hb.inv hsafe hok (lone_permits _ _ _)
    obtain ⟨⟨a, o, w⟩, hrun⟩ := Option.isSome_iff_exists.mp (hsome trivial)
    obtain ⟨-, g, hi, ⟨htop, hQ⟩, hsteps⟩ := hend a o w hrun
    refine ⟨w, g, ?_, hb.steps hsteps hi htop, hsteps, (w, g), .refl, hQ, fun _ => rfl⟩
    unfold Life.run
    rw [hstop]
    exact congrArg (Option.map _) hrun
  | some n =>
    obtain ⟨g, hi, hsteps, hrest, hper, hok'⟩ := (rules (lone T faults)).runFor_safe n hb.inv hsafe
      hok (lone_permits _ _ _)
    -- had it gone on, it would have ended with a bounded epoch
    obtain ⟨hsome, hend⟩ := (rules (lone T faults)).run_safe hi hrest hok' hper
    obtain ⟨⟨a, o, w⟩, hrun⟩ := Option.isSome_iff_exists.mp (hsome trivial)
    obtain ⟨-, g', -, ⟨htop, hQ⟩, hsteps'⟩ := hend a o w hrun
    refine ⟨_, g, ?_, hb.steps hsteps hi ((steps_topEpoch hsteps').trans htop), hsteps, (w, g'),
      hsteps', hQ, nofun⟩
    unfold Life.run
    rw [hstop]

theorem runLives_safe {P : Nat → State → Prop} {lives rest : List Life}
    (hstep : ∀ i l s, lives[i]? = some l → i < 2 ^ 64 - 1 → Between (lone T faults) i s → P i s →
      ∃ w g, l.run i s.1 = some w ∧ Between (lone T faults) (i + 1) (w, g) ∧ P (i + 1) (w, g))
    (hlen : lives.length < 2 ^ 64) (hrest : lives.drop i = rest)
    (hb : Between (lone T faults) i s) (hP : P i s) :
    ∃ w g, runLives i rest s.1 = some w ∧ Between (lone T faults) (i + rest.length) (w, g) ∧
      P (i + rest.length) (w, g) := by
  induction rest generalizing i s with
  | nil => exact ⟨s.1, s.2, rfl, hb, hP⟩
  | cons l ls ih =>
    have hget : lives[i]? = some l := by
      rw [← List.head?_drop, hrest]
      rfl
    have hdrop : lives.drop (i + 1) = ls := by
      rw [← List.tail_drop, hrest]
      rfl
    have hlt := (List.getElem?_eq_some_iff.mp hget).1
    obtain ⟨w, g, hrun, hb', hP'⟩ := hstep i l s hget (by omega) hb hP
    obtain ⟨w', g', hrun', hb'', hP''⟩ := ih hdrop hb' hP'
    rw [show i + (l :: ls).length = i + 1 + ls.length by simp only [List.length_cons]; omega]
    refine ⟨w', g', ?_, hb'', hP''⟩
    unfold runLives
    rw [hrun]
    exact hrun'

/-! ## What is followed -/

/-- Only which files are listed and which keys they hold. -/
def looseTrack (cr : Crates) : Track where
  cr := cr
  V := Set.univ
  strict := False
  durable := False
  staging := True
  short := False
  R := fun _ _ _ _ _ => True
  plain := nofun
  length := nofun
  inj := nofun
  durable_strict := id
  durable_staging := nofun
  short_strict := id

/-- Values that are stored as they are: no blob pointers, not of the reserved length,
told apart by their hashes. -/
structure GoodValues (cr : Crates) (V : Set Bytes) : Prop where
  plain : ∀ v ∈ V, tryDecodeBlobPointer cr v = none
  length : ∀ v ∈ V, v.length < tombstoneVlen
  inj : Set.InjOn cr.blobHash V

/-- The acknowledged contents with all values; nothing is staged. -/
def exactTrack {cr : Crates} {V : Set Bytes} (h : GoodValues cr V) (short : Prop) : Track where
  cr := cr
  V := V
  strict := True
  durable := True
  staging := False
  short := short
  R := fun _ _ _ _ _ => True
  plain := fun _ => h.plain
  length := fun _ => h.length
  inj := fun _ => h.inj
  durable_strict := fun _ => trivial
  durable_staging := fun _ => id
  short_strict := fun _ => trivial

/-- The contents of the owner with all values; staged writes are allowed. -/
def stagedTrack {cr : Crates} {V : Set Bytes} (h : GoodValues cr V) (short : Prop) : Track where
  cr := cr
  V := V
  strict := True
  durable := False
  staging := True
  short := short
  R := fun _ _ _ _ _ => True
  plain := fun _ => h.plain
  length := fun _ => h.length
  inj := fun _ => h.inj
  durable_strict := nofun
  durable_staging := nofun
  short_strict := fun _ => trivial

def Call.value? : Call → Option Bytes
  | .put _ value => some value
  | .set _ value => some value
  | .stageSet _ value => some value
  | .txSet _ _ value => some value
  | .txPut _ _ value => some value
  | _ => none

def Call.key? : Call → Option Key
  | .put key _ => some key
  | .set key _ => some key
  | .delete key => some key
  | .stageSet key _ => some key
  | .stageDelete key => some key
  | .txSet _ key _ => some key
  | .txPut _ key _ => some key
  | .txDelete _ key => some key
  | _ => none

/-- Every written key fits a record. -/
def ShortKeys (lives : List Life) : Prop :=
  ∀ l ∈ lives, ∀ c ∈ l.calls, ∀ k, c.key? = some k → (keyBytes k).length < 2 ^ 32

/-- The call bypasses the log: it stages a write, or collects the log by itself. -/
def Call.unlogged : Call → Bool
  | .stageSet _ _ => true
  | .stageDelete _ => true
  | .gcWal => true
  | _ => false

/-- A call is followed if its value and its key are, and if it may bypass the log. -/
theorem Call.ok_lone {c : Call} (hlog : c.unlogged = true → T.staging ∧ ¬ T.durable)
    (hval : T.strict → ∀ v, c.value? = some v → v ∈ T.V)
    (hkey : T.short → ∀ k, c.key? = some k → (keyBytes k).length < 2 ^ 32) :
    c.Ok (lone T faults) := by
  have hop : ∀ key value, c.value? = some value → c.key? = some key → T.OkOp (key, some value) :=
    fun key value hv hk => ⟨fun hs v heq => Option.some.inj heq ▸ hval hs value hv,
      fun hs => hkey hs key hk⟩
  have hdel : ∀ key, c.key? = some key → T.OkOp (key, none) := fun key hk =>
    ⟨fun _ _ heq => (by cases heq), fun hs => hkey hs key hk⟩
  cases c with
  | stageSet => exact ⟨(hlog rfl).1, hop _ _ rfl rfl⟩
  | stageDelete => exact ⟨(hlog rfl).1, hdel _ rfl⟩
  | gcWal => exact .inl (hlog rfl).2
  | put | set | txSet | txPut => exact hop _ _ rfl rfl
  | delete | txDelete => exact hdel _ rfl
  | _ => trivial

variable {cr : Crates}

/-- A client about which nothing else is to be shown. -/
theorem Talks.any {cx : Ctx} {calls : List Call} (hok : ∀ c ∈ calls, c.Ok M)
    (hR : ∀ h l n r, M.R h l who n r) :
    Talks M who cx calls fun _ txs s => Outside M who cx s ∧ txs.Ok M where
  ok := hok
  outside := id
  stable h ho := ⟨h.1.others ho, h.2⟩
  call _ hJ hout _ := ⟨hR _ _ _ _, (hout.outside.marked fun n r _ => hR _ _ n r).2,
    hout.txsOk hJ.2⟩

theorem TxTable.none_ok (M : Mode) : TxTable.none.Ok M := fun _ => Tx.begin_ok

variable {m : KMap} {l : Life}

/-- The session of an owner about which nothing else is to be shown. -/
theorem Between.session (hb : Between (lone T faults) i s) (hbound : i < 2 ^ 64 - 1)
    (hcr : l.builder.crates = T.cr) (hcalls : ∀ c ∈ l.calls, c.Ok (lone T faults))
    (hR : ∀ h lin n r, T.R h lin ⟨0, i⟩ n r)
    (hshows : ∀ k, T.Shows s.1 (durableHit T.cr s.1 k) (m k)) (hlog : ¬ T.staging → m = s.2.dur) :
    @Safe Act engine _ (rules (lone T faults)) ⟨0, i⟩ (OxKv.session l.builder l.calls) (fun _ s' =>
      s'.1.st.topEpoch ≤ i + 1 ∧ Ended T faults i m l.builder l.calls
        (fun cx _ txs s => Outside (lone T faults) ⟨0, i⟩ cx s ∧ txs.Ok (lone T faults)) s s') s :=
  session_safe hb (hb.opening hshows hlog) hbound hcr fun _ _ hbuilt =>
    ⟨Talks.any hcalls hR, hbuilt.outside, TxTable.none_ok _⟩

/-- Facts that every step of an owner keeps and that carry over to the next owner hold after
every run. -/
theorem runLives_loose {lives : List Life} {P : Nat → State → Prop}
    (hlen : lives.length < 2 ^ 64) (hcr : ∀ l ∈ lives, l.builder.crates = cr)
    (hstart : P 0 (World.start, Ghost.start))
    (hstep : ∀ i s s', P i s → Inv (looseTrack cr) s.1 s.2 →
      Effect (lone (looseTrack cr) True) ⟨0, i⟩ s s' → P i s')
    (hnext : ∀ i s, P i s → Between (lone (looseTrack cr) True) (i + 1) s → P (i + 1) s) :
    ∃ w g, runLives 0 lives World.start = some w ∧
      Between (lone (looseTrack cr) True) lives.length (w, g) ∧ P lives.length (w, g) := by
  have hone : ∀ i l s, lives[i]? = some l → i < 2 ^ 64 - 1 →
      Between (lone (looseTrack cr) True) i s → P i s → ∃ w g, l.run i s.1 = some w ∧
        Between (lone (looseTrack cr) True) (i + 1) (w, g) ∧ P (i + 1) (w, g) := by
    intro i l s hl hbound hb hP
    obtain ⟨m, hm⟩ := hb.inv.exists_shown
    obtain ⟨w, g, hrun, hb', hsteps, -⟩ := Life.run_safe hb
      (hb.session hbound (hcr l (List.mem_of_getElem? hl))
      (fun c _ => c.ok_lone (fun _ => ⟨trivial, id⟩) nofun nofun)
        (fun _ _ _ _ => trivial) hm (fun h => absurd trivial h)) fun n => .inr ⟨trivial, nofun⟩
    have hkept : ∀ s', (rules (lone (looseTrack cr) True)).Steps ⟨0, i⟩ s s' → P i s' := by
      intro s' h
      induction h with
      | refl => exact hP
      | tail _ hlast ih => exact hstep i _ _ ih hlast.1 hlast.2.1
    exact ⟨w, g, hrun, hb', hnext i _ (hkept _ hsteps) hb'⟩
  have hrun := runLives_safe hone hlen (i := 0) rfl (Between.start _) hstart
  rw [List.drop_zero, Nat.zero_add] at hrun
  exact hrun

/-! ## Samples -/

def sampleBuilder : Builder where
  crates := referenceCrates
  session := "session"
  skipProbe := false
  assumeSingleWriter := false
  prefixed := true
  check := fun _ _ => .done (.ok ())

/-- No storage call fails, every cached manifest is fresh. -/
def faultless : engine.Oracle := fun _ => (⟨none, true⟩ : Choice)

/-- An owner that finishes its calls without a fault. -/
def sampleLife (calls : List Call) : Life := ⟨sampleBuilder, calls, faultless, none⟩

end OxKv
