import OxKv.Runs.Replies
import OxKv.Runs.Trace

/-!
The events that an owner publishes are a log of the contents.

* `Records`: the events of one call against the map before and after it;
* `Trace.eventLog`: a trace whose replies are those of the map publishes such events;
* `events_replay_contents`: they replay to the contents, if no call is a direct put;
* `put_unpublished`: a direct put publishes nothing.
-/

namespace OxKv

variable {txs txs' : TxTable} {fails : Call → Prop} {m m' : Model}

/-! ## One call -/

structure Records (m : Model) (c : Call) (r : Reply) (m' : Model) (es : List ChangeEvent) : Prop where
  replay : m'.contents = m.contents.applyAll (es.map ChangeEvent.op)
  /-- what failed or was rejected publishes nothing -/
  failed : r.failed → es = []
  rollback : ∀ t, c = .txRollback t → es = []
  /-- a commit publishes one event for each key that the transaction wrote, so one for each
  key that it changed exactly if it changed every key that it wrote -/
  commit : ∀ t, c = .txCommit t → ¬ r.failed →
    (es.map ChangeEvent.key).Nodup ∧
      (∀ k, k ∈ es.map ChangeEvent.key ↔ k ∈ (m.txs t).map Prod.fst) ∧
      ((∀ k, k ∈ es.map ChangeEvent.key ↔ m'.contents.get? k ≠ m.contents.get? k) ↔
        ∀ k ∈ (m.txs t).map Prod.fst, m'.contents.get? k ≠ m.contents.get? k)

structure Tx.Holds (tx : Tx) (ops : List Op) : Prop where
  staged : Staged tx.overlay tx.staged
  overlay : ∀ k, tx.overlay.get? k = ops.reverse.lookup k

namespace Tx.Holds

variable {tx : Tx} {ops : List Op}

theorem start : Tx.begin.Holds [] := ⟨Staged.empty, fun _ => rfl⟩

theorem record (h : tx.Holds ops) (e : ChangeEvent) : (tx.record e).Holds (ops ++ [e.op]) := by
  refine ⟨h.staged.stage e, fun k => ?_⟩
  rw [List.reverse_append, List.reverse_singleton, List.singleton_append, ChangeEvent.op,
    SortedMap.lookup_cons_ite, ← h.overlay k]
  exact SortedMap.get?_insert ..

/-- Its events mean its writes. -/
theorem replay (h : tx.Holds ops) (p : Plain) :
    p.applyAll (tx.staged.map ChangeEvent.op) = p.applyAll ops := by
  rw [h.staged.applyAll]
  apply SortedMap.ext_get
  intro k
  rw [Plain.get?_applyAll_toList, Plain.get?_applyAll, applyOps_apply, h.overlay]

theorem keys (h : tx.Holds ops) (k : Key) :
    k ∈ tx.staged.map ChangeEvent.key ↔ k ∈ ops.map Prod.fst := by
  have hfind : (tx.staged.find? fun e => e.key = k).isSome ↔ (ops.reverse.lookup k).isSome := by
    rw [← h.overlay, h.staged.overlay, Option.isSome_map]
  rw [List.find?_isSome, List.lookup_isSome_iff] at hfind
  simp only [decide_eq_true_eq, List.mem_reverse, beq_iff_eq] at hfind
  rw [List.mem_map, List.mem_map, hfind]
  exact exists_congr fun op => and_congr_right fun _ => eq_comm

/-- Nothing is staged for an empty overlay. -/
theorem published (h : tx.Holds ops) :
    (if tx.overlay.toList.isEmpty then [] else tx.staged) = tx.staged := by
  split
  · rename_i hempty
    refine (List.eq_nil_iff_forall_not_mem.mpr fun e he => ?_).symm
    have hget : tx.overlay.get? e.key = none := by
      rw [SortedMap.get?, List.isEmpty_iff.mp hempty]
      rfl
    rw [h.staged.overlay, Option.map_eq_none_iff, List.find?_eq_none] at hget
    simpa using hget e he
  · rfl

end Tx.Holds

/-- The transactions of a client against those of the map. -/
def Matching (txs : TxTable) (m : Model) : Prop := ∀ t, (txs t).Holds (m.txs t)

theorem Matching.update {tx : Tx} {ops : List Op} (h : Matching txs m) (t : Nat)
    (ht : tx.Holds ops) (hm : m'.txs = Function.update m.txs t ops) :
    Matching (Function.update txs t tx) m' := by
  intro t'
  rw [hm]
  by_cases heq : t' = t
  · rw [heq, Function.update_self, Function.update_self]
    exact ht
  · rw [Function.update_of_ne heq, Function.update_of_ne heq]
    exact h t'

/-- The call writes without an event. -/
def Call.unannounced : Call → Bool
  | .put _ _ => true
  | .stageSet _ _ => true
  | .stageDelete _ => true
  | _ => false

/-- What a transaction did not write is as before. -/
theorem Model.wrote_of_view_ne {t : Nat} {k : Key} (m : Model)
    (h : (m.view t).get? k ≠ m.contents.get? k) : k ∈ (m.txs t).map Prod.fst := by
  by_contra hno
  refine h ?_
  rw [view, Plain.get?_applyAll, applyOps_apply, List.lookup_eq_none_iff.mpr, Option.getD_none]
  intro op hop
  rw [bne_iff_ne]
  rintro rfl
  exact hno (List.mem_map_of_mem (List.mem_reverse.mp hop))

variable {r : Reply} {c : Call}

/-- A call that publishes nothing and changes nothing. -/
theorem Records.nothing (h : m'.contents = m.contents) (hc : ∀ t, c = .txCommit t → r.failed) :
    Records m c r m' [] :=
  ⟨h, fun _ => rfl, fun _ _ => rfl, fun t ht hr => absurd (hc t ht) hr⟩

variable {es : List ChangeEvent}

/-- A failed call publishes nothing, and at most its commit ends a transaction. -/
theorem Call.Does.failed (h : c.Does txs (r, txs') es) (hr : r.failed) (hm : Matching txs m) :
    es = [] ∧ Matching txs' (m.fail c) := by
  cases c with
  | set key value =>
    obtain ⟨res, hout, hes⟩ := h
    cases hout
    cases res with
    | ok _ => cases hr
    | error e => exact ⟨hes, hm⟩
  | delete key =>
    obtain ⟨res, hout, hes⟩ := h
    cases hout
    cases res with
    | ok _ => cases hr
    | error e => exact ⟨hes, hm⟩
  | txSet t key value =>
    obtain ⟨hes, res, hout, htxs⟩ := h
    cases hout
    cases res with
    | ok _ => cases hr
    | error e =>
      cases htxs
      exact ⟨hes, hm⟩
  | txPut t key value =>
    obtain ⟨hes, res, hout, htxs⟩ := h
    cases hout
    cases res with
    | ok _ => cases hr
    | error e =>
      cases htxs
      exact ⟨hes, hm⟩
  | txDelete t key =>
    obtain ⟨hes, res, hout, htxs⟩ := h
    cases hout
    cases res with
    | ok _ => cases hr
    | error e =>
      cases htxs
      exact ⟨hes, hm⟩
  | txCommit t =>
    obtain ⟨res, hout, hes⟩ := h
    cases hout
    cases res with
    | ok _ => cases hr
    | error e => exact ⟨hes, hm.update t Tx.Holds.start rfl⟩
  | txRollback t =>
    cases h.2
    cases hr
  | _ =>
    obtain ⟨hes, _, hout⟩ := h
    cases hout
    exact ⟨hes, hm⟩

/-- The events of a call that succeeds. -/
theorem Call.Does.performed (h : c.Does txs (r, txs') es) (hp : (r, m') = m.perform c)
    (hm : Matching txs m) (hc : c.unannounced = false) :
    Records m c r m' es ∧ Matching txs' m' := by
  cases c with
  | put key value | stageSet key value | stageDelete key => cases hc
  | set key value =>
    obtain ⟨res, hout, hes⟩ := h
    cases hp
    cases hout
    cases hes
    exact ⟨⟨rfl, nofun, nofun, nofun⟩, hm⟩
  | delete key =>
    obtain ⟨res, hout, hes⟩ := h
    dsimp only [Model.perform] at hp
    split at hp
    · cases hp
      cases hout
      obtain ⟨old, rfl⟩ := hes
      exact ⟨⟨rfl, nofun, nofun, nofun⟩, hm⟩
    · cases hp
      cases hout
      cases hes
      exact ⟨.nothing rfl nofun, hm⟩
  | txSet t key value =>
    obtain ⟨rfl, res, hout, htxs⟩ := h
    cases hp
    cases hout
    cases htxs
    exact ⟨.nothing rfl nofun, hm.update t ((hm t).record _) rfl⟩
  | txPut t key value =>
    obtain ⟨rfl, res, hout, htxs⟩ := h
    cases hp
    cases hout
    obtain ⟨prev, htxs⟩ := htxs
    cases htxs
    exact ⟨.nothing rfl nofun, hm.update t ((hm t).record _) rfl⟩
  | txDelete t key =>
    obtain ⟨rfl, res, hout, htxs⟩ := h
    dsimp only [Model.perform] at hp
    split at hp
    · cases hp
      cases hout
      obtain ⟨old, htxs⟩ := htxs
      cases htxs
      exact ⟨.nothing rfl nofun, hm.update t ((hm t).record _) rfl⟩
    · cases hp
      cases hout
      cases htxs
      exact ⟨.nothing rfl nofun, hm⟩
  | txCommit t =>
    obtain ⟨res, hout, hes⟩ := h
    cases hp
    cases hout
    rw [show es = _ from hes, (hm t).published]
    refine ⟨⟨((hm t).replay m.contents).symm, nofun, nofun, ?_⟩, hm.update t Tx.Holds.start rfl⟩
    rintro _ ⟨⟩ _
    refine ⟨(hm t).staged.distinct, (hm t).keys, fun h k hk => (h k).mp (((hm t).keys k).mpr hk),
      fun h k => ⟨fun hk => h k (((hm t).keys k).mp hk), fun hk => ?_⟩⟩
    exact ((hm t).keys k).mpr (m.wrote_of_view_ne hk)
  | txRollback t =>
    obtain ⟨rfl, hout⟩ := h
    cases hp
    cases hout
    exact ⟨.nothing rfl nofun, hm.update t Tx.Holds.start rfl⟩
  | _ =>
    obtain ⟨rfl, _, hout⟩ := h
    cases hp
    cases hout
    exact ⟨.nothing rfl nofun, hm⟩

theorem Model.fail_contents (m : Model) (c : Call) : (m.fail c).contents = m.contents := by
  cases c <;> rfl

theorem Call.Does.records (h : c.Does txs (r, txs') es) (hstep : Model.Step fails m c r m')
    (hm : Matching txs m) (hc : c.unannounced = false) :
    Records m c r m' es ∧ Matching txs' m' := by
  rcases hstep with hp | ⟨hr, rfl, -⟩
  · exact h.performed hp hm hc
  · obtain ⟨rfl, hm'⟩ := h.failed hr hm
    exact ⟨.nothing (m.fail_contents c) fun _ _ => hr, hm'⟩

/-! ## Sequences of calls -/

/-- A sequence of calls on the map, with the events of each. -/
inductive EventLog (fails : Call → Prop) (m : Model) :
    List Call → List Reply → List (List ChangeEvent) → Model → Prop where
  | nil : EventLog fails m [] [] [] m
  | snoc {calls : List Call} {rs : List Reply} {log : List (List ChangeEvent)} {m' m'' : Model}
      {c : Call} {r : Reply} {es : List ChangeEvent} (h : EventLog fails m calls rs log m')
      (hstep : Model.Step fails m' c r m'') (hlog : Records m' c r m'' es) :
      EventLog fails m (calls ++ [c]) (rs ++ [r]) (log ++ [es]) m''

variable {rs : List Reply} {calls : List Call}

/-- The events of all calls replay to the contents. -/
theorem EventLog.replay {log : List (List ChangeEvent)} (h : EventLog fails m calls rs log m') :
    m'.contents = m.contents.applyAll (log.flatten.map ChangeEvent.op) := by
  induction h with
  | nil => rfl
  | snoc _ _ hlog ih =>
    rw [hlog.replay, ih, List.flatten_append, List.flatten_singleton, List.map_append]
    exact (List.foldl_append ..).symm

theorem Model.Run.nil_inv (h : Model.Run fails m [] rs m') : m' = m := by
  generalize hcalls : ([] : List Call) = calls at h
  cases h with
  | nil => rfl
  | snoc _ _ => exact absurd hcalls.symm (List.append_ne_nil_of_right_ne_nil _ (List.cons_ne_nil _ _))

theorem Model.Run.length (h : Model.Run fails m calls rs m') : rs.length = calls.length := by
  induction h with
  | nil => rfl
  | snoc _ _ ih => simp [ih]

theorem Trace.eventLog {log : List (List ChangeEvent)} {p : Plain} (h : Trace calls rs log txs)
    (hrun : Model.Run fails (Model.new p) calls rs m) (hcalls : ∀ c ∈ calls, c.unannounced = false) :
    EventLog fails (Model.new p) calls rs log m ∧ Matching txs m := by
  induction h generalizing m with
  | nil =>
    obtain rfl := hrun.nil_inv
    exact ⟨.nil, fun _ => Tx.Holds.start⟩
  | snoc _ hdoes ih =>
    obtain ⟨m1, hrun1, hstep⟩ := hrun.snoc_inv
    obtain ⟨hlog, hm⟩ := ih hrun1 fun c hc => hcalls c (List.mem_append_left _ hc)
    obtain ⟨hrecords, hm'⟩ := hdoes.records hstep hm (hcalls _ (by simp))
    exact ⟨.snoc hlog hstep hrecords, hm'⟩

/-! ## Owners -/

theorem runLives_append (i : Nat) (ls ls' : List Life) (w : World) :
    runLives i (ls ++ ls') w = (runLives i ls w).bind (runLives (i + ls.length) ls') := by
  induction ls generalizing i w with
  | nil => rfl
  | cons l ls ih =>
    simp only [List.cons_append, runLives, Option.bind_assoc, List.length_cons]
    refine Option.bind_congr fun w' _ => ?_
    rw [ih, Nat.add_assoc, Nat.add_comm 1]

/-- Earlier owners leave the handle of a later one alone. -/
theorem runLives_resting {ls : List Life} (hstop : ∀ l ∈ ls, l.stop = none) {i n : Nat} {w w' : World}
    (hn : i + ls.length ≤ n) (h : runLives i ls w = some w') : Resting ⟨0, n⟩ w w' := by
  induction ls generalizing i w with
  | nil =>
    cases h
    exact ⟨rfl, rfl⟩
  | cons l ls ih =>
    rw [List.length_cons] at hn
    obtain ⟨w1, hrun, hrest⟩ := Option.bind_eq_some_iff.mp h
    rw [Life.run, hstop l (by simp)] at hrun
    obtain ⟨x, hx, rfl⟩ := Option.map_eq_some_iff.mp hrun
    have hone : Resting ⟨0, n⟩ w x.2.2 :=
      run_resting ⟨0, n⟩ ⟨0, i⟩ (show i ≠ n by omega) (session l.builder l.calls) w l.oracle
        x.1 x.2.1 x.2.2 hx
    have htail := ih (fun l' hl' => hstop l' (by simp [hl'])) (by omega) hrest
    exact ⟨htail.inst.trans hone.inst, htail.replies.trans hone.replies⟩

/-- The events that an owner publishes replay to the contents, if it writes with events. -/
theorem events_replay_contents (cr : Crates) (V : Set Bytes) (hV : GoodValues cr V) (lives : List Life)
    (l : Life) (hlen : lives.length + 1 < 2 ^ 64)
    (hlives : ∀ l' ∈ lives ++ [l], l'.builder.crates = cr ∧ l'.stop = none ∧
      (∀ n, (l'.oracle n).fault = none) ∧
      ∀ c ∈ l'.calls, c.unlogged = false ∧ ∀ v, c.value? = some v → v ∈ V)
    (hcalls : ∀ c ∈ l.calls, c.unannounced = false) :
    ∃ w p q log m, runLives 0 (lives ++ [l]) World.start = some w ∧
      Continues False (¬ ShortKeys (lives ++ [l])) (lives ++ [l]) lives.length w.hist p ∧
      Continues False (¬ ShortKeys (lives ++ [l])) (lives ++ [l]) (lives.length + 1) w.hist q ∧
      EventLog (Call.MayFail False (¬ ShortKeys (lives ++ [l])) (Picky l.builder.check))
        (Model.new p) l.calls (replies ⟨0, lives.length⟩ w.hist) log m ∧ m.contents = q ∧
      (w.inst lives.length).events = log.flatten ∧
      q = p.applyAll ((w.inst lives.length).events.map ChangeEvent.op) := by
  obtain ⟨w, q, hrun, ps, h0, hq, hall⟩ := runLives_continues hV
    (by rwa [List.length_append]) hlives
  rw [List.length_append, List.length_singleton] at hq hall
  obtain ⟨m, hmrun, hm⟩ := hall lives.length l (by omega) (by simp)
  -- the run of the last owner
  obtain ⟨w₀, hrun₀, hlast⟩ := Option.bind_eq_some_iff.mp
    ((runLives_append 0 lives [l] _).symm.trans hrun)
  rw [Nat.zero_add] at hlast
  obtain ⟨w₁, hone, hend⟩ := Option.bind_eq_some_iff.mp hlast
  cases hend
  rw [Life.run, (hlives l (by simp)).2.1] at hone
  obtain ⟨x, hx, rfl⟩ := Option.map_eq_some_iff.mp hone
  have hrest₀ := runLives_resting (n := lives.length)
    (fun l' hl' => (hlives l' (by simp [hl'])).2.1) (by omega) hrun₀
  have huntouched : Untouched ⟨0, lives.length⟩ w₀ :=
    ⟨by rw [hrest₀.inst]; rfl, by rw [hrest₀.replies]; rfl⟩
  obtain ⟨done, hdone, log, txs, htrace, hevents⟩ :=
    session_traced l.builder l.calls huntouched l.oracle x.1 x.2.1 x.2.2 hx
  have hcomplete : done = l.calls := by
    rcases hdone with hdone | hdone
    · exact hdone
    · have hlength := htrace.length.symm.trans hmrun.length
      rw [hdone, List.length_nil] at hlength
      rw [hdone, List.eq_nil_of_length_eq_zero hlength.symm]
  subst hcomplete
  obtain ⟨hlog, -⟩ := htrace.eventLog hmrun hcalls
  refine ⟨x.2.2, ps lives.length, q, log, m, hrun, ⟨ps, h0, rfl, fun j l' hj => hall j l' (by omega)⟩,
    ⟨ps, h0, hq, hall⟩, hlog, hm.trans hq, hevents, ?_⟩
  rw [← hq, ← hm, hevents]
  exact hlog.replay

/-- A validator of `c` that rejects while its view has `d`. -/
def rejectBesideD (key : Key) : Check :=
  if key = "c" then
    .has "d" fun r =>
      Check.done (if r = .ok true then .error (.rejected "c" "d is there") else .ok ())
  else Check.done (.ok ())

def guardedBuilder : Builder := { sampleBuilder with check := fun key _ => rejectBesideD key }

/-- Writes of every announced kind, with a commit that the validator rejects. -/
def announcedCalls : List Call :=
  [.set "a" [1], .set "a" [2], .delete "b", .txSet 0 "c" [1], .txPut 0 "c" [2], .txDelete 0 "a",
    .txCommit 0, .txSet 1 "c" [1], .txSet 1 "d" [1], .txCommit 1, .txSet 2 "d" [1], .txRollback 2,
    .gets none .next (none, none)]

def announcedLives : List Life :=
  [sampleLife [.put "b" [1]]] ++ [⟨guardedBuilder, announcedCalls, faultless, none⟩]

set_option maxRecDepth 100000 in
theorem events_replay_contents_announced :
    ∃ w p q log m, runLives 0 announcedLives World.start = some w ∧
      Continues False (¬ ShortKeys announcedLives) announcedLives 1 w.hist p ∧
      Continues False (¬ ShortKeys announcedLives) announcedLives 2 w.hist q ∧
      EventLog (Call.MayFail False (¬ ShortKeys announcedLives) (Picky guardedBuilder.check))
        (Model.new p) announcedCalls (replies ⟨0, 1⟩ w.hist) log m ∧ m.contents = q ∧
      (w.inst 1).events = log.flatten ∧
      q = p.applyAll ((w.inst 1).events.map ChangeEvent.op) ∧
      (replies ⟨0, 1⟩ w.hist)[9]? = some (.done (.error (.rejected "c" "d is there"))) := by
  have hV : GoodValues referenceCrates {[1], [2]} := by
    refine ⟨?_, ?_, ?_⟩
    · rintro v (rfl | rfl) <;> decide +kernel
    · rintro v (rfl | rfl) <;> decide
    · rintro v (rfl | rfl) v' (rfl | rfl) <;> decide +kernel
  obtain ⟨w, p, q, log, m, hrun, hp, hq, hlog, hm, hevents, hreplay⟩ :=
    events_replay_contents referenceCrates {[1], [2]} hV [sampleLife [.put "b" [1]]]
      ⟨guardedBuilder, announcedCalls, faultless, none⟩ (by decide) (by
        intro l hl
        simp only [List.cons_append, List.nil_append, List.mem_cons, List.not_mem_nil,
          or_false] at hl
        rcases hl with rfl | rfl
        · exact ⟨rfl, rfl, fun _ => rfl, by simp [sampleLife, Call.unlogged, Call.value?]⟩
        · exact ⟨rfl, rfl, fun _ => rfl, by simp [announcedCalls, Call.unlogged, Call.value?]⟩)
      (by decide)
  refine ⟨w, p, q, log, m, hrun, hp, hq, hlog, hm, hevents, hreplay, ?_⟩
  have hrejected : (runLives 0 announcedLives World.start).map
      (fun w => (replies ⟨0, 1⟩ w.hist)[9]?) =
      some (some (.done (.error (.rejected "c" "d is there")))) := by decide +kernel
  rw [announcedLives, hrun] at hrejected
  exact Option.some.inj hrejected

set_option maxRecDepth 100000 in
/-- A direct put of a new key publishes nothing, and a scan lists the key. -/
theorem put_unpublished :
    (runLives 0 [sampleLife [.put "a" [1], .gets none .next (none, none)]] World.start).map
      (fun w => ((w.inst 0).events, replies ⟨0, 0⟩ w.hist)) =
      some ([], [.done (.ok ()), .rows (.ok [("a", [1])])]) := by
  decide +kernel

end OxKv
