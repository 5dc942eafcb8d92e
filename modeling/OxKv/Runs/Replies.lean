import OxKv.Runs.Refine
import OxKv.Runs.Trace
import OxKv.Format.Wal

/-!
The replies of successive owners are those of one ordered map.

* `Answered`: a client whose replies so far are those of the model;
* `Life.run_answered`: one owner;
* `values_read_back`: all owners of a run without faults.
-/

namespace OxKv

variable {M : Mode} {who : Who} {cx : Ctx} {s s' : State} {txs : TxTable}
  {t h : History}

/-! ## Replies in the history -/

theorem replies_append (ht : ∀ x ∈ t, x.1 = who → ∀ m, x.2 ≠ .mark m) :
    replies who (t ++ h) = replies who h := by
  induction t with
  | nil => rfl
  | cons x t ih =>
    rw [← ih fun y hy => ht y (by simp [hy])]
    have hx := ht x (by simp)
    obtain ⟨who', e⟩ := x
    cases e with
    | mark m =>
      cases m with
      | invoked n => rfl
      | returned n r => exact if_neg fun heq => hx heq _ rfl
    | _ => rfl

theorem replies_eq_nil (hno : ∀ x ∈ h, x.1 = who → ∀ m, x.2 ≠ .mark m) : replies who h = [] := by
  rw [← List.append_nil h, replies_append hno]
  rfl

/-- A call adds no marks and changes the contents of its thread only. -/
theorem Outcome.acted {c : Call} {out : Reply × TxTable} (h : Outcome M who cx txs s c out s') :
    ∃ es us, Acted M who es us s s' := by
  cases c with
  | put =>
    obtain ⟨r, -, hput⟩ := h
    exact hput.acted
  | set =>
    obtain ⟨r, -, -, hor⟩ := h
    rcases hor with ⟨-, -, ha, -⟩ | ⟨_, s1, _, s2, -, -, ha1, -, hput, -, ha2, -⟩
    · exact ⟨_, _, ha⟩
    · obtain ⟨es, us, ha⟩ := hput.acted
      exact ⟨_, _, (ha1.trans ha).trans ha2⟩
  | delete =>
    obtain ⟨r, -, -, ops, -, -, hr⟩ := h
    cases r with
    | error e => exact ⟨_, _, hr.1⟩
    | ok b =>
      obtain ⟨s1, ha1, -, -, -, ha2⟩ := hr
      exact ⟨_, _, ha1.trans ha2⟩
  | flush =>
    obtain ⟨r, -, -, hr⟩ := h
    cases r with
    | error e => exact ⟨_, _, hr.1⟩
    | ok _ =>
      obtain ⟨ops, ha, -⟩ := hr
      exact ⟨_, _, ha⟩
  | txCommit =>
    obtain ⟨r, -, -, hor⟩ := h
    rcases hor with ⟨-, -, -, hq⟩ | ⟨-, -, hq⟩ | ⟨-, ops, -, -, hr⟩
    · exact ⟨_, _, hq.acted⟩
    · exact ⟨_, _, hq.acted⟩
    · cases r with
      | error e | ok _ => exact ⟨_, _, hr.1⟩
  | get | has | gets | txSet | txPut | txDelete | txGet | txHas | txGets =>
    exact ⟨_, _, h.choose_spec.2.1.acted⟩
  | _ => exact ⟨_, _, h.2.acted⟩

/-! ## The object of the probe -/

/-- A handle in use does not probe. -/
theorem Effect.canary_eq (he : Effect M who s s') (hr : s.2.ready who.inst) :
    s'.1.st.lookup .canary = s.1.st.lookup .canary := by
  cases he with
  | create p o _ _ _ hobj => exact lookup_write_ne (by cases hobj <;> nofun) _ _ _
  | canary o hready | uncanary hready => exact absurd hr hready
  | erase p _ _ hp => exact Storage.lookup_delete_ne _ (by cases hp <;> nofun)
  | acquire r => exact lookup_write_ne (p := .ownership) (q := .canary) nofun _ _ _
  | list | flush | clear | drop | merge =>
    exact lookup_write_ne (p := .manifest) (q := .canary) nofun _ _ _
  | _ => rfl

theorem trail_canary (hs : M.solo) (h : @Trail Act engine (rules M) who s s')
    (hr : s.2.ready who.inst) :
    s'.2.ready who.inst ∧ s'.1.st.lookup .canary = s.1.st.lookup .canary := by
  induction h with
  | refl => exact ⟨hr, rfl⟩
  | tail _ hstep ih =>
    rcases hstep with ho | he
    · have ho : Others M who _ _ := ho
      rw [ho.1 hs]
      exact ih
    · have he : Effect M who _ _ := he
      exact ⟨(he.use ih.1).ready, (he.canary_eq ih.1).trans ih.2⟩

/-! ## Clients -/

section Lone

variable {T : Track} {faults : Prop} {i : Nat} {p : Plain} {l : Life}

/-- The replies so far are those of the model that started with the contents `p`. -/
structure Answered (T : Track) (faults : Prop) (i : Nat) (p : Plain) (l : Life) (cx : Ctx)
    (n : Nat) (txs : TxTable) (s : State) : Prop where
  check : cx.check = l.builder.check
  outside : Outside (lone T faults) ⟨0, i⟩ cx s
  txsOk : txs.Ok (lone T faults)
  canary : ¬ faults → s.1.st.lookup .canary = none
  run : ∃ m, Model.Run (Call.MayFail faults (¬ T.short) (Picky l.builder.check)) (Model.new p)
    (l.calls.take n) (replies ⟨0, i⟩ s.1.hist) m ∧ Refines ⟨0, i⟩ m txs s

theorem Refines.marked {m : Model} (h : Refines who m txs s) (mk : Mark) :
    Refines who m txs (OxKv.marked who mk s) :=
  ⟨h.contents, h.txs⟩

theorem Answered.talks (hst : T.strict) (hR : ∀ h lin n r, T.R h lin ⟨0, i⟩ n r)
    (hok : ∀ c ∈ l.calls, c.Ok (lone T faults)) :
    Talks (lone T faults) ⟨0, i⟩ cx l.calls (Answered T faults i p l cx) where
  ok := hok
  outside h := ⟨h.outside, h.txsOk⟩
  stable h ho := by rw [ho.1 trivial]; exact h
  call := by
    intro n c txs s out s' hget hJ hout htrail
    have hmarked := (hJ.outside.marked (m := .invoked n) nofun).2
    obtain ⟨m, hrun, href⟩ := hJ.run
    obtain ⟨m', hstep, href'⟩ := hout.refines trivial id hst hmarked hJ.txsOk (href.marked _)
    unfold Fails at hstep
    rw [hJ.check] at hstep
    refine ⟨hR _ _ _ _, hJ.check, (hout.outside.marked fun n r _ => hR _ _ n r).2,
      hout.txsOk hJ.txsOk,
      fun hf => ?_, m', ?_, href'.marked _⟩
    · exact (trail_canary trivial htrail hmarked.ready).2.trans (hJ.canary hf)
    · obtain ⟨es, us, ha⟩ := hout.acted
      obtain ⟨t, ht, hall⟩ := ha.hist
      have hold : replies ⟨0, i⟩ s'.1.hist = replies ⟨0, i⟩ s.1.hist := by
        rw [ht, replies_append hall]
        rfl
      have hnew : replies ⟨0, i⟩ (OxKv.marked ⟨0, i⟩ (.returned n out.1) s').1.hist =
          replies ⟨0, i⟩ s.1.hist ++ [out.1] := by
        rw [← hold]
        exact if_pos rfl
      rw [hnew, List.take_add_one, hget]
      exact hrun.snoc hstep

/-- The replies of an owner that finishes its calls. -/
theorem Life.run_answered (hst : T.strict) (hR : ∀ h lin n r, T.R h lin ⟨0, i⟩ n r)
    (hb : Between (lone T faults) i s) (hbound : i < 2 ^ 64 - 1) (hcr : l.builder.crates = T.cr)
    (hok : ∀ c ∈ l.calls, c.Ok (lone T faults)) (horacle : ∀ n, (rules (lone T faults)).ok (l.oracle n))
    (hstop : l.stop = none) (hshows : ∀ k, T.Shows s.1 (durableHit T.cr s.1 k) (p.get? k))
    (hlog : ¬ T.staging → p.get? = s.2.dur) (hcan : ¬ faults → s.1.st.lookup .canary = none) :
    ∃ w g, l.run i s.1 = some w ∧ Between (lone T faults) (i + 1) (w, g) ∧
      (rules (lone T faults)).Steps ⟨0, i⟩ s (w, g) ∧
      ((∃ cx txs, Answered T faults i p l cx l.calls.length txs (w, g)) ∨
        faults ∧ Opening (lone T faults) ⟨0, i⟩ p.get? (w, g) ∧ Prepared True s (w, g)) := by
  have hsilent : ∀ x ∈ s.1.hist, x.1 = (⟨0, i⟩ : Who) → ∀ m, x.2 ≠ .mark m := fun x hx heq => by
    have hlt := hb.silent x hx
    rw [heq] at hlt
    exact absurd hlt (Nat.lt_irrefl i)
  have hfirst : ∀ cx s1, Built (lone T faults) ⟨0, i⟩ p.get? l.builder cx s s1 →
      Answered T faults i p l cx 0 TxTable.none s1 := by
    intro cx s1 hbuilt
    refine ⟨hbuilt.params.2.2, hbuilt.outside, TxTable.none_ok _, fun hf => hbuilt.canary (hcan hf),
      Model.new p, ?_,
      hbuilt.live, fun _ _ => rfl⟩
    obtain ⟨t, ht, hall⟩ := hbuilt.hist
    have hnil : replies ⟨0, i⟩ s1.1.hist = [] := by
      rw [ht, replies_append fun x hx _ => (hall x hx).1, replies_eq_nil hsilent]
    rw [hnil]
    exact .nil
  obtain ⟨w, g, hrun, hb', hsteps, s', -, hend, heq⟩ := Life.run_safe hb
    (session_safe hb (hb.opening hshows hlog) hbound hcr fun cx s1 hbuilt =>
      ⟨Answered.talks hst hR hok, hfirst cx s1 hbuilt⟩) horacle
  obtain rfl := heq hstop
  refine ⟨w, g, hrun, hb', hsteps, ?_⟩
  rcases hend with ⟨cx, txs, -, -, hans⟩ | ⟨hopen, hprep, hwhy⟩
  · exact .inl ⟨cx, txs, hans⟩
  · refine .inr ⟨?_, hopen, hprep⟩
    by_contra hf
    exact hwhy.elim hf fun hne => hne (hcan hf)

end Lone

/-! ## The first owner -/

/-- The replies of the first owner of a prefix are those of an ordered map, staged
writes and all maintenance included. -/
theorem live_refinement (cr : Crates) (V : Set Bytes) (hV : GoodValues cr V) (l : Life)
    (hcr : l.builder.crates = cr) (hstop : l.stop = none) (hfault : ∀ n, (l.oracle n).fault = none)
    (hvals : ∀ c ∈ l.calls, ∀ v, c.value? = some v → v ∈ V) :
    ∃ w m, runLives 0 [l] World.start = some w ∧
      Model.Run (Call.MayFail False (¬ ShortKeys [l]) (Picky l.builder.check))
        (Model.new SortedMap.empty) l.calls (replies ⟨0, 0⟩ w.hist) m := by
  obtain ⟨w, g, hrun, -, -, hans⟩ := Life.run_answered (T := stagedTrack hV (ShortKeys [l]))
    (p := SortedMap.empty) trivial (fun _ _ _ _ => trivial) (Between.start (lone _ False))
    (by decide) hcr
    (fun c hc => c.ok_lone (fun _ => ⟨trivial, id⟩) (fun _ => hvals c hc) fun hs => hs l (by simp) c hc)
    (fun n => .inl (hfault n)) hstop (fun _ => rfl) (fun _ => rfl) (fun _ => rfl)
  obtain ⟨cx, txs, hans⟩ := hans.resolve_right fun hno => hno.1
  obtain ⟨m, hmrun, -⟩ := hans.run
  rw [List.take_length] at hmrun
  refine ⟨w, m, ?_, hmrun⟩
  unfold runLives
  rw [hrun]
  rfl

/-- Writes of every kind, with maintenance between them. -/
def mixedCalls : List Call :=
  [.put "a" [1], .stageSet "b" [1], .flushForce, .set "a" [1], .delete "b", .gcWal, .txPut 0 "c" [1],
    .txCommit 0, .compact, .gets none .next (none, none)]

theorem live_refinement_mixed : ∃ w m, runLives 0 [sampleLife mixedCalls] World.start = some w ∧
    Model.Run (Call.MayFail False (¬ ShortKeys [sampleLife mixedCalls])
      (Picky sampleBuilder.check)) (Model.new SortedMap.empty) mixedCalls
      (replies ⟨0, 0⟩ w.hist) m := by
  refine live_refinement referenceCrates {[1]} ⟨?_, ?_, by simp⟩ (sampleLife mixedCalls) rfl rfl
    (fun _ => rfl) (by simp [sampleLife, mixedCalls, Call.value?])
  · rintro v rfl
    decide +kernel
  · rintro v rfl
    decide

/-! ## Successive owners -/

/-- The replies to the first `n` owners are those of one map: each owner begins with the
contents that its predecessor left. -/
def Continues (faulty long : Prop) (lives : List Life) (n : Nat) (h : History)
    (p : Plain) : Prop :=
  ∃ ps : Nat → Plain, ps 0 = SortedMap.empty ∧ ps n = p ∧ ∀ j l, j < n → lives[j]? = some l →
    ∃ m, Model.Run (Call.MayFail faulty long (Picky l.builder.check)) (Model.new (ps j)) l.calls
      (replies ⟨0, j⟩ h) m ∧ m.contents = ps (j + 1)

/-- One more owner. -/
theorem Continues.next {faulty long : Prop} {lives : List Life} {n : Nat} {l : Life} {p : Plain}
    {m : Model} (hc : Continues faulty long lives n h p) (hget : lives[n]? = some l)
    (hold : ∀ j, j < n → replies ⟨0, j⟩ (t ++ h) = replies ⟨0, j⟩ h)
    (hrun : Model.Run (Call.MayFail faulty long (Picky l.builder.check)) (Model.new p) l.calls
      (replies ⟨0, n⟩ (t ++ h)) m) :
    Continues faulty long lives (n + 1) (t ++ h) m.contents := by
  obtain ⟨ps, h0, hn, hall⟩ := hc
  refine ⟨Function.update ps (n + 1) m.contents, ?_, Function.update_self .., fun j l' hj hl' => ?_⟩
  · rw [Function.update_of_ne (by omega)]
    exact h0
  · rw [Function.update_of_ne (show j ≠ n + 1 by omega)]
    rcases Nat.lt_succ_iff_lt_or_eq.mp hj with hlt | rfl
    · rw [hold j hlt, Function.update_of_ne (by omega)]
      exact hall j l' hlt hl'
    · cases hget.symm.trans hl'
      rw [hn, Function.update_self]
      exact ⟨m, hrun, rfl⟩

/-- Without faults, and with values that are stored as they are, every read of every
owner returns what was written last. -/
theorem runLives_continues {cr : Crates} {V : Set Bytes} (hV : GoodValues cr V) {lives : List Life}
    (hlen : lives.length < 2 ^ 64)
    (hlives : ∀ l ∈ lives, l.builder.crates = cr ∧ l.stop = none ∧ (∀ n, (l.oracle n).fault = none) ∧
      ∀ c ∈ l.calls, c.unlogged = false ∧ ∀ v, c.value? = some v → v ∈ V) :
    ∃ w p, runLives 0 lives World.start = some w ∧
      Continues False (¬ ShortKeys lives) lives lives.length w.hist p := by
  have hstep : ∀ i l s, lives[i]? = some l → i < 2 ^ 64 - 1 →
      Between (lone (exactTrack hV (ShortKeys lives)) False) i s →
      (∃ p : Plain, Continues False (¬ ShortKeys lives) lives i s.1.hist p ∧ p.get? = s.2.dur ∧
        s.1.st.lookup .canary = none) →
      ∃ w g, l.run i s.1 = some w ∧
        Between (lone (exactTrack hV (ShortKeys lives)) False) (i + 1) (w, g) ∧
        ∃ p : Plain, Continues False (¬ ShortKeys lives) lives (i + 1) w.hist p ∧ p.get? = g.dur ∧
          w.st.lookup .canary = none := by
    intro i l s hget hbound hb ⟨p, hc, hdur, hcan⟩
    have hmem := List.mem_of_getElem? hget
    obtain ⟨hcr, hstop, hfault, hcalls⟩ := hlives l hmem
    obtain ⟨w, g, hrun, hb', hsteps, hans⟩ := Life.run_answered (p := p) trivial
      (fun _ _ _ _ => trivial) hb hbound hcr
      (fun c hc => c.ok_lone (by simp [(hcalls c hc).1]) (fun _ => (hcalls c hc).2)
        fun hs => hs l hmem c hc)
      (fun n => .inl (hfault n)) hstop (fun k => by rw [hdur]; exact hb.inv.durable trivial k)
      (fun _ => hdur) (fun _ => hcan)
    obtain ⟨cx, txs, hans⟩ := hans.resolve_right fun hno => hno.1
    obtain ⟨m, hmrun, href⟩ := hans.run
    obtain ⟨t, ht, hall⟩ := steps_hist hsteps
    rw [List.take_length, ht] at hmrun
    refine ⟨w, g, hrun, hb', m.contents, ?_, ?_, hans.canary id⟩
    · rw [show w.hist = t ++ s.1.hist from ht]
      refine hc.next hget (fun j hj => replies_append fun x hx heq => ?_) hmrun
      rw [hall x hx] at heq
      exact absurd (Who.mk.inj heq).2 (by omega)
    · rw [← href.contents]
      exact (hans.outside.dur_eq id id trivial).symm
  obtain ⟨w, g, hrun, -, p, hc, -, -⟩ := runLives_safe
    (P := fun n s => ∃ p : Plain, Continues False (¬ ShortKeys lives) lives n s.1.hist p ∧
      p.get? = s.2.dur ∧ s.1.st.lookup .canary = none) hstep hlen (i := 0) rfl (Between.start _)
    ⟨SortedMap.empty, ⟨fun _ => SortedMap.empty, rfl, rfl, nofun⟩, rfl, rfl⟩
  rw [Nat.zero_add] at hc
  exact ⟨w, p, hrun, hc⟩

theorem Model.Run.snoc_inv {fails : Call → Prop} {m m' : Model} {l : List Call} {c : Call}
    {q : List Reply} {r : Reply} (h : Model.Run fails m (l ++ [c]) (q ++ [r]) m') :
    ∃ m1, Model.Run fails m l q m1 ∧ Model.Step fails m1 c r m' := by
  generalize hcalls : l ++ [c] = calls' at h
  generalize hrs : q ++ [r] = rs' at h
  cases h with
  | nil => exact absurd hcalls (List.append_ne_nil_of_right_ne_nil _ (List.cons_ne_nil _ _))
  | snoc h hstep =>
    obtain ⟨rfl, hc⟩ := List.append_inj' hcalls rfl
    obtain ⟨rfl, hr⟩ := List.append_inj' hrs rfl
    cases hc
    cases hr
    exact ⟨_, h, hstep⟩

/-! ## Values that decode as blob pointers -/

section Pointers

variable {v : Bytes} {ptr : BlobPointer} {w : World}

/-- The object of the pointer is no blob. -/
theorem getBlob_fails {p : ObjectPath} (hst : ∀ b e, w.st.get p ≠ .ok (.bytes b, e)) :
    engine.Ends who (getBlob p) (fun r _ => ∃ e, r = .error e) w := by
  refine .bind (.bind (.act fun c r t hx => .ret ?_))
  have hr := (exec_get_cases (show exec who c (.get p) w = some (r, t) from hx)).2
  match r, hr with
  | .error e, _ => exact .ret (.ret ⟨_, rfl⟩)
  | .ok (.bytes b, e), hr => exact absurd (hr.resolve_left fun h => nomatch h.2).symm (hst b e)
  | .ok (.manifest _, _), _ | .ok (.ownership _, _), _ | .ok (.sst _, _), _ =>
      exact .ret (.ret ⟨_, rfl⟩)

theorem resolveHit_fails (hv : tryDecodeBlobPointer cx.crates v = some ptr)
    (hst : ∀ b e, w.st.get ptr.blob ≠ .ok (.bytes b, e)) :
    engine.Ends who (resolveHit cx (some v)) (fun r _ => ∃ e, r = .error e) w := by
  have hvalue : engine.Ends who (resolveValue cx v) (fun r _ => ∃ e, r = .error e) w := by
    rw [resolveValue, hv]
    refine .bind ((getBlob_fails hst).mono ?_)
    rintro _ _ ⟨e, rfl⟩
    exact .ret ⟨e, rfl⟩
  refine .bind (hvalue.mono ?_)
  rintro _ _ ⟨e, rfl⟩
  exact .ret ⟨e, rfl⟩

theorem txPut_looks (hcheck : cx.check "a" v = .done (.ok ())) :
    engine.Ends who ((Call.txPut 0 "a" v).run cx TxTable.none) (fun _ w' => w'.st = w.st) w := by
  have hset : (txSetBytes cx Tx.begin "a" v).Looks := by
    unfold txSetBytes validateKey
    rw [hcheck]
    exact .bind (.ofRes _) fun _ => .bind (getBytes_looks cx "a") fun _ => .pure _
  have hlooks : Prog.Only (fun a => a.looks = true) ((Call.txPut 0 "a" v).run cx TxTable.none) := by
    refine Prog.Only.bind (Io.Only.bind (Io.Only.bind hset fun _ => .pure _) fun _ => .pure _) ?_
    rintro (_ | _) <;> trivial
  exact Machine.Ends.only (M := engine) (R := fun w w' => w'.st = w.st) (fun _ => rfl)
    (fun _ _ _ h h' => Eq.trans h' h) (fun _ _ _ _ _ ha hx => exec_looks ha hx) hlooks w

/-- A transaction that puts the value cannot get it. -/
theorem overlay_unread (hcheck : cx.check "a" v = .done (.ok ()))
    (hv : tryDecodeBlobPointer cx.crates v = some ptr)
    (hst : ∀ b e, w.st.get ptr.blob ≠ .ok (.bytes b, e)) :
    engine.Ends who (client cx [.txPut 0 "a" v, .txGet 0 "a"] 0 TxTable.none) (fun _ w' => ∃ r₁ r₂,
      replies who w'.hist = replies who w.hist ++ [.done r₁] ++ [.value r₂] ∧
        ∀ x, r₁ = .ok x → ∃ e, r₂ = .error e) w := by
  refine .act fun _ _ w₁ hinv => ?_
  cases hinv
  refine .bind (((txPut_looks hcheck).and (Call.run_does cx _ _ _)).mono ?_)
  rintro ⟨_, txs⟩ w₁ ⟨hst₁, _, ⟨-, r₁, rfl, htxs⟩, -, hrs₁⟩
  refine .act fun _ _ w₂ hret => .act fun _ _ w₃ hinv => ?_
  cases hret
  cases hinv
  have hget : ∀ x, r₁ = .ok x → engine.Ends who ((Call.txGet 0 "a").run cx txs)
      (fun out _ => ∃ e, out.1 = .value (.error e))
      ((w₁.log who (.mark (.returned 0 (.done r₁)))).log who (.mark (.invoked 1))) := by
    rintro x rfl
    obtain ⟨prev, rfl⟩ := htxs
    have hhit : (Tx.record (TxTable.none 0) ⟨"a", .set, prev, some v⟩).overlay.get? "a" =
        some (some v) := rfl
    show engine.Ends who
      (replying .value _ (txGetBytes cx (Function.update TxTable.none 0 _ 0) "a")) _ _
    rw [Function.update_self, txGetBytes, hhit]
    refine .bind ((resolveHit_fails hv ?_).mono ?_)
    · exact fun b e => (congrArg (Storage.get · ptr.blob) hst₁).trans_ne (hst b e)
    · rintro _ _ ⟨e, rfl⟩
      exact .ret ⟨e, rfl⟩
  refine .bind fun o out o' w₄ hrun => ?_
  obtain ⟨_, ⟨-, r₂, hout⟩, -, hrs₄⟩ := Call.run_does cx txs (.txGet 0 "a") _ o out o' w₄ hrun
  subst hout
  refine .act fun _ _ w₅ hret => ?_
  cases hret
  refine .ret ⟨r₁, r₂, ?_, fun x hx => ?_⟩
  · have hlast : replies who (w₄.log who (.mark (.returned 1 (.value r₂)))).hist =
        replies who w₄.hist ++ [.value r₂] := if_pos rfl
    have hfirst : replies who (w₁.log who (.mark (.returned 0 (.done r₁)))).hist =
        replies who w₁.hist ++ [.done r₁] := if_pos rfl
    exact hlast.trans (congrArg (· ++ _) (hrs₄.trans (hfirst.trans (congrArg (· ++ _) hrs₁))))
  · obtain ⟨e, he⟩ := hget x hx o _ o' w₄ hrun
    exact ⟨e, Reply.value.inj he⟩

def storeWith (cr : Crates) : Builder := { sampleBuilder with crates := cr }

theorem run_build (cr : Crates) :
    ∃ w, engine.run ⟨0, 0⟩ (build (storeWith cr)) faultless World.start =
    some (.ok ⟨cr, 1, "session", sampleBuilder.check⟩, faultless, w) ∧ replies ⟨0, 0⟩ w.hist = [] ∧
    ∀ p b e, w.st.get p ≠ .ok (.bytes b, e) := by
  refine ⟨_, rfl, rfl, fun p b e h => ?_⟩
  cases p <;> cases h

/-- A new store whose client puts the value in a transaction and gets it. -/
def overlayLife (cr : Crates) (v : Bytes) : Life :=
  ⟨storeWith cr, [.txPut 0 "a" v, .txGet 0 "a"], faultless, none⟩

theorem overlayLife_unread {cr : Crates} (hv : tryDecodeBlobPointer cr v = some ptr)
    (hrun : runLives 0 [overlayLife cr v] World.start = some w) :
    ∃ r₁ r₂, replies ⟨0, 0⟩ w.hist = [.done r₁] ++ [.value r₂] ∧
      ∀ x, r₁ = .ok x → ∃ e, r₂ = .error e := by
  obtain ⟨w₀, hbuild, hnil, hst⟩ := run_build cr
  obtain ⟨w₁, hone, hend⟩ := Option.bind_eq_some_iff.mp hrun
  cases hend
  obtain ⟨x, hx, rfl⟩ := Option.map_eq_some_iff.mp hone
  replace hx :=
    (Machine.run_bind (M := engine) _ (build (storeWith cr)) _ faultless _).symm.trans hx
  rw [hbuild] at hx
  obtain ⟨r₁, r₂, hrs, hbad⟩ := overlay_unread rfl hv (hst ptr.blob) faultless x.1 x.2.1 x.2.2 hx
  rw [hnil] at hrs
  exact ⟨r₁, r₂, hrs, hbad⟩

end Pointers

/-- A value shorter than the mark of a tombstone reads back in every run without faults that
goes through the log exactly if it is no blob pointer. The record of an accepted value is read
back as it was exactly if the value is not as long as that mark. -/
theorem values_read_back (cr : Crates) (V : Set Bytes) (hV : GoodValues cr V) (v : Bytes)
    (hinj : Set.InjOn cr.blobHash (insert v V)) :
    (v.length < tombstoneVlen →
      ((∀ lives : List Life, lives.length < 2 ^ 64 →
        (∀ l ∈ lives, l.builder.crates = cr ∧ l.stop = none ∧ (∀ n, (l.oracle n).fault = none) ∧
          ∀ c ∈ l.calls, c.unlogged = false ∧ ∀ x, c.value? = some x → x = v ∨ x ∈ V) →
        ∃ w p, runLives 0 lives World.start = some w ∧
          Continues False (¬ ShortKeys lives) lives lives.length w.hist p) ↔
      tryDecodeBlobPointer cr v = none)) ∧
    ∀ key b, encodeRecord key v = .ok b →
      (decodeWalRecords b = [(key, some v)] ↔ v.length ≠ tombstoneVlen) := by
  refine ⟨fun hlen => ⟨fun hall => ?_, fun hv lives hbound hlives => ?_⟩, fun key b hb => ?_⟩
  · by_contra hv
    obtain ⟨ptr, hv⟩ := Option.ne_none_iff_exists'.mp hv
    obtain ⟨w, p, hrun, ps, -, -, hps⟩ := hall [overlayLife cr v] (show 1 < 2 ^ 64 by decide) (by
      rintro l (_ | ⟨_, ⟨⟩⟩)
      exact ⟨rfl, rfl, fun _ => rfl, by simp [overlayLife, Call.unlogged, Call.value?]⟩)
    obtain ⟨m, hm, -⟩ := hps 0 _ Nat.zero_lt_one rfl
    obtain ⟨r₁, r₂, hrs, hbad⟩ := overlayLife_unread hv hrun
    rw [hrs] at hm
    obtain ⟨m₁, hm₁, hget⟩ := Model.Run.snoc_inv (l := [.txPut 0 "a" v]) hm
    obtain ⟨m₀, -, hput⟩ := Model.Run.snoc_inv (l := []) (q := []) hm₁
    -- the put is accepted, so the get fails, which the map never does
    rcases hput with hput | ⟨-, -, hno | ⟨_, _, _, hno⟩⟩
    · obtain ⟨e, rfl⟩ := hbad () (Reply.done.inj (Prod.mk.inj hput).1)
      rcases hget with hget | ⟨-, -, hno⟩
      · cases hget
      · exact hno
    · exact hno
    · cases hno
  · refine runLives_continues ⟨?_, ?_, hinj⟩ hbound hlives
    · rintro x (rfl | hx)
      · exact hv
      · exact hV.plain x hx
    · rintro x (rfl | hx)
      · exact hlen
      · exact hV.length x hx
  · obtain ⟨hfits, rfl⟩ := encodeRecord_ok hb
    have h := @decodeWalRecords_groupBytes_iff [(key, some v)]
      (List.forall_mem_singleton.mpr hfits)
    rw [groupBytes_cons] at h
    simpa [groupBytes] using h

/-- A value is written, flushed, compacted and read by the next owner. -/
def rereadingLives : List Life :=
  [sampleLife [.put "a" [1], .get "a", .flushForce, .get "a", .compact, .get "a"],
    sampleLife [.get "a", .gets none .next (none, none), .gets none .prev (some "a", none)]]

theorem values_read_back_rereading :
    (∃ w p, runLives 0 rereadingLives World.start = some w ∧
      Continues False (¬ ShortKeys rereadingLives) rereadingLives rereadingLives.length w.hist p) ∧
    ¬ ∀ lives : List Life, lives.length < 2 ^ 64 →
      (∀ l ∈ lives, l.builder.crates = referenceCrates ∧ l.stop = none ∧
        (∀ n, (l.oracle n).fault = none) ∧ ∀ c ∈ l.calls, c.unlogged = false ∧
          ∀ x, c.value? = some x →
            x = encodeBlobPointer referenceCrates samplePointer ∨ x ∈ (∅ : Set Bytes)) →
      ∃ w p, runLives 0 lives World.start = some w ∧
        Continues False (¬ ShortKeys lives) lives lives.length w.hist p := by
  have hnone : GoodValues referenceCrates ∅ := ⟨nofun, nofun, nofun⟩
  constructor
  · refine ((values_read_back referenceCrates ∅ hnone [1] (by simp)).1 (by decide)).mpr
      (by decide +kernel) rereadingLives (by decide) ?_
    intro l hl
    simp only [rereadingLives, List.mem_cons, List.not_mem_nil, or_false] at hl
    rcases hl with rfl | rfl
    · exact ⟨rfl, rfl, fun _ => rfl, by simp [sampleLife, Call.unlogged, Call.value?]⟩
    · exact ⟨rfl, rfl, fun _ => rfl, by simp [sampleLife, Call.unlogged, Call.value?]⟩
  · rw [(values_read_back referenceCrates ∅ hnone _ (by simp)).1 (by decide +kernel),
      tryDecode_encode]
    exact Option.some_ne_none _

set_option maxRecDepth 100000 in
/-- A value that is written like a blob pointer is accepted, and then reads of its key
fail, backward scans once it is flushed. -/
theorem pointer_value_unreadable :
    (runLives 0 [sampleLife [.put "a" (encodeBlobPointer referenceCrates samplePointer), .get "a",
        .gets none .next (none, none), .flushForce, .gets none .prev (some "a", none)]]
      World.start).map (fun w => (replies ⟨0, 0⟩ w.hist).map Reply.failed) =
      some [false, true, true, false, true] := by
  decide +kernel

end OxKv
