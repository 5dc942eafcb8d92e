import OxKv.Engine.Calls
import OxKv.Proc.Open
import OxKv.Proc.Tx

/-!
Calls and the clients that issue them.

* `Outcome`: what a call did, for each public operation;
* `Call.run_safe`: every call has its outcome;
* `client_safe`: a client that keeps an invariant from call to call.
-/

namespace OxKv

variable {M : Mode} {who : Who} {s s' s'' : State} {cx : Ctx}

/-! ## Outcomes -/

/-- The calls that are followed. -/
def Call.Ok (M : Mode) : Call → Prop
  | .put key value => M.OkOp (key, some value)
  | .set key value => M.OkOp (key, some value)
  | .delete key => M.OkOp (key, none)
  | .stageSet key value => M.staging ∧ M.OkOp (key, some value)
  | .stageDelete key => M.staging ∧ M.OkOp (key, none)
  | .gcWal => ¬ M.durable ∨ M.multi
  | .txSet _ key value => M.OkOp (key, some value)
  | .txPut _ key value => M.OkOp (key, some value)
  | .txDelete _ key => M.OkOp (key, none)
  | _ => True

def TxOut {α : Type} (f : Res α → Reply) (txs : TxTable) (t : Nat) (r : Res (α × Tx)) :
    Reply × TxTable :=
  match r with
  | .ok (a, tx) => (f (.ok a), Function.update txs t tx)
  | .error e => (f (.error e), txs)

def Outcome (M : Mode) (who : Who) (cx : Ctx) (txs : TxTable) (s : State) :
    Call → Reply × TxTable → State → Prop
  | .put key value, out, s' => ∃ r, out = (.done r, txs) ∧ Put M who cx key value s r s'
  | .set key value, out, s' => ∃ r, out = (.value r, txs) ∧ SetCall M who cx key value s r s'
  | .delete key, out, s' => ∃ r, out = (.flag r, txs) ∧ DeleteCall M who cx key s r s'
  | .get key, out, s' => ∃ r, out = (.value r, txs) ∧
      ReadCall M who cx (fun y s' => Seen M who key y s s') s r s'
  | .has key, out, s' => ∃ r, out = (.flag r, txs) ∧
      ReadCall M who cx (fun b s' => ∃ y, Seen M who key y s s' ∧ b = y.isSome) s r s'
  | .gets limit d c, out, s' => ∃ r, out = (.rows r, txs) ∧
      ReadCall M who cx (fun rows s' => ScanSeen M who SortedMap.empty limit d c rows s s') s r s'
  | .stageSet key value, out, s' =>
      out = (.done (.ok ()), txs) ∧ Quiet M who cx [(key, some value)] s s'
  | .stageDelete key, out, s' => out = (.done (.ok ()), txs) ∧ Quiet M who cx [(key, none)] s s'
  | .flush, out, s' => ∃ r, out = (.done r, txs) ∧ FlushCall M who cx s r s'
  | .flushMem, out, s' => (∃ r, out = (.done r, txs)) ∧ Quiet M who cx [] s s'
  | .flushForce, out, s' => (∃ r, out = (.done r, txs)) ∧ Quiet M who cx [] s s'
  | .compact, out, s' => (∃ r, out = (.done r, txs)) ∧ Quiet M who cx [] s s'
  | .gcWal, out, s' => (∃ r, out = (.done r, txs)) ∧ Quiet M who cx [] s s'
  | .gcOrphans, out, s' => (∃ r, out = (.done r, txs)) ∧ Quiet M who cx [] s s'
  | .txSet t key value, out, s' => ∃ r, out = TxOut .value txs t r ∧
      TxSetCall M who cx (txs t) key value s r s'
  | .txPut t key value, out, s' => ∃ r, out = TxOut .done txs t (r.map fun x => ((), x.2)) ∧
      TxSetCall M who cx (txs t) key value s r s'
  | .txDelete t key, out, s' => ∃ r, out = TxOut .flag txs t r ∧ Quiet M who cx [] s s' ∧
      match r with
        | .ok (b, tx') => ∃ y s₁, TxSeen M who (txs t) key y s s₁ ∧ b = y.isSome ∧ tx'.Ok M ∧
            tx'.overlay = if b then (txs t).overlay.insert key none else (txs t).overlay
        | .error _ => M.faults ∨ ¬ M.strict ∨ ¬ M.solo
  | .txGet t key, out, s' => ∃ r, out = (.value r, txs) ∧
      ReadCall M who cx (fun y s' => TxSeen M who (txs t) key y s s') s r s'
  | .txHas t key, out, s' => ∃ r, out = (.flag r, txs) ∧
      ReadCall M who cx (fun b _ => ∃ y s₁, TxSeen M who (txs t) key y s s₁ ∧ b = y.isSome) s r s'
  | .txGets t limit d c, out, s' => ∃ r, out = (.rows r, txs) ∧
      ReadCall M who cx (fun rows s' => ScanSeen M who (txs t).overlay limit d c rows s s') s r s'
  | .txCommit t, out, s' => ∃ r, out = (.done r, Function.update txs t Tx.begin) ∧
      CommitCall M who cx (txs t) s r s'
  | .txRollback t, out, s' =>
      out = (.done (.ok ()), Function.update txs t Tx.begin) ∧ Quiet M who cx [] s s'

def TxTable.Ok (M : Mode) (txs : TxTable) : Prop := ∀ t, (txs t).Ok M

variable {txs : TxTable}

theorem TxTable.Ok.update (h : txs.Ok M) {t : Nat} {tx : Tx} (htx : tx.Ok M) :
    TxTable.Ok M (Function.update txs t tx) := by
  intro u
  by_cases hu : u = t
  · subst hu
    rw [Function.update_self]
    exact htx
  · rw [Function.update_of_ne hu]
    exact h u

/-- After a call the client is outside again. -/
theorem Outcome.outside {c : Call} {out : Reply × TxTable} (h : Outcome M who cx txs s c out s') :
    Outside M who cx s' := by
  cases c with
  | put => exact h.choose_spec.2.outside
  | set | delete => exact h.choose_spec.2.1
  | get | has | gets => exact h.choose_spec.2.1.outside
  | flush => exact h.choose_spec.2.1
  | txSet | txPut | txDelete | txGet | txHas | txGets => exact h.choose_spec.2.1.outside
  | txCommit => exact h.choose_spec.2.1
  | _ => exact h.2.outside

theorem TxSetCall.others {tx : Tx} {key : Key} {value : Bytes} {r : Res (Option Bytes × Tx)}
    (h : TxSetCall M who cx tx key value s r s') (ho : Others M who s' s'') :
    TxSetCall M who cx tx key value s r s'' :=
  ⟨h.1.others ho, h.2⟩

theorem TxSetCall.ok {tx : Tx} {key : Key} {value : Bytes} {r : Res (Option Bytes × Tx)}
    (h : TxSetCall M who cx tx key value s r s') : ∀ x, r = .ok x → x.2.Ok M := by
  rintro ⟨y, tx'⟩ rfl
  exact h.2.2.1

theorem Outcome.txsOk {c : Call} {out : Reply × TxTable} (h : Outcome M who cx txs s c out s')
    (htx : txs.Ok M) : out.2.Ok M := by
  cases c with
  | txSet t =>
    obtain ⟨r, rfl, hr⟩ := h
    cases r with
    | error e => exact htx
    | ok x => exact htx.update (hr.ok x rfl)
  | txPut t =>
    obtain ⟨r, rfl, hr⟩ := h
    cases r with
    | error e => exact htx
    | ok x => exact htx.update (hr.ok x rfl)
  | txDelete t =>
    obtain ⟨r, rfl, -, hr⟩ := h
    cases r with
    | error e => exact htx
    | ok x =>
      obtain ⟨y, s1, -, -, hok, -⟩ := hr
      exact htx.update hok
  | txCommit t =>
    obtain ⟨r, rfl, -⟩ := h
    exact htx.update Tx.begin_ok
  | txRollback t =>
    obtain ⟨rfl, -⟩ := h
    exact htx.update Tx.begin_ok
  | stageSet => rw [h.1]; exact htx
  | stageDelete => rw [h.1]; exact htx
  | flushMem => obtain ⟨⟨r, rfl⟩, -⟩ := h; exact htx
  | flushForce => obtain ⟨⟨r, rfl⟩, -⟩ := h; exact htx
  | compact => obtain ⟨⟨r, rfl⟩, -⟩ := h; exact htx
  | gcWal => obtain ⟨⟨r, rfl⟩, -⟩ := h; exact htx
  | gcOrphans => obtain ⟨⟨r, rfl⟩, -⟩ := h; exact htx
  | _ => obtain ⟨r, rfl, -⟩ := h; exact htx

/-! ## Calls -/

theorem replying_safe {α : Type} {f : Res α → Reply} {p : Io α}
    {Q : Reply × TxTable → State → Prop}
    (h : IoSafe (rules M) who p (fun r s' => Q (f r, txs) s') s) :
    @Safe Act engine _ (rules M) who (replying f txs p) Q s :=
  Safe.map h

theorem updating_safe {α : Type} {f : Res α → Reply} {t : Nat} {p : Io (α × Tx)}
    {Q : Reply × TxTable → State → Prop}
    (h : IoSafe (rules M) who p (fun r s' => Q (TxOut f txs t r) s') s) :
    @Safe Act engine _ (rules M) who (updating f txs t p) Q s := by
  have hout : updating f txs t p = Prog.bind p fun r => .ret (TxOut f txs t r) := by
    unfold updating
    congr 1
    funext r
    cases r <;> rfl
  rw [hout]
  exact .map h

theorem Call.run_safe (h : Outside M who cx s) (hidle : ¬ M.staging → batchOf who s.1.hist = [])
    (htx : txs.Ok M) {c : Call} (hc : c.Ok M) :
    @Safe Act engine _ (rules M) who (c.run cx txs) (fun out s' => Outcome M who cx txs s c out s')
      s := by
  cases c with
  | put key value => exact replying_safe ((putBytes_safe h hc).mono fun r _ _ hq => ⟨r, rfl, hq⟩)
  | set key value => exact replying_safe ((setBytes_safe h hc).mono fun r _ _ hq => ⟨r, rfl, hq⟩)
  | delete key => exact replying_safe ((delete_safe h hc hidle).mono fun r _ _ hq => ⟨r, rfl, hq⟩)
  | get key =>
    exact replying_safe ((readCall_safe h (getBytes_safe h.crates h.toReading key)).mono
      fun r _ _ hq => ⟨r, rfl, hq⟩)
  | has key =>
    refine replying_safe (.bind
      ((readCall_safe h (getBytes_safe h.crates h.toReading key)).mono ?_))
    rintro r s1 - ⟨hq, hr⟩
    cases r with
    | error e => exact ⟨_, rfl, hq, hr⟩
    | ok y => exact .pure fun s2 ho _ => ⟨_, rfl, hq.others ho, y, hr.late ho.calm, rfl⟩
  | gets limit d c =>
    exact replying_safe ((readCall_safe h (getsBytes_safe h.crates h.toReading limit d c)).mono
      fun r _ _ hq => ⟨r, rfl, hq⟩)
  | stageSet key value =>
    refine replying_safe ((stage_safe h hc.1 hc.2).mono ?_)
    rintro r s1 - ⟨rfl, hq⟩
    exact ⟨rfl, hq⟩
  | stageDelete key =>
    refine replying_safe ((stage_safe h hc.1 hc.2).mono ?_)
    rintro r s1 - ⟨rfl, hq⟩
    exact ⟨rfl, hq⟩
  | flush => exact replying_safe ((flush_safe h).mono fun r _ _ hq => ⟨r, rfl, hq⟩)
  | flushMem => exact replying_safe ((flushMemToSst_safe h).mono fun r _ _ hq => ⟨⟨_, rfl⟩, hq⟩)
  | flushForce =>
    exact replying_safe ((flushMemToSstForce_safe h).mono fun r _ _ hq => ⟨⟨_, rfl⟩, hq⟩)
  | compact => exact replying_safe ((compact_safe h).mono fun r _ _ hq => ⟨⟨_, rfl⟩, hq⟩)
  | gcWal => exact replying_safe ((gcWal_safe h hc).mono fun r _ _ hq => ⟨⟨_, rfl⟩, hq⟩)
  | gcOrphans => exact replying_safe ((gcOrphans_safe h).mono fun r _ _ hq => ⟨⟨_, rfl⟩, hq⟩)
  | txSet t key value =>
    exact updating_safe ((txSetBytes_safe h (htx t) hc).mono fun r _ _ hq => ⟨r, rfl, hq⟩)
  | txPut t key value =>
    refine updating_safe (.bind (.bind ((txSetBytes_safe h (htx t) hc).mono ?_)))
    rintro r s1 - hq
    cases r with
    | error e => exact ⟨_, rfl, hq⟩
    | ok x =>
      refine .pure fun s2 ho2 _ => .pure fun s3 ho3 _ => ⟨.ok x, rfl, ?_⟩
      exact (hq.others ho2).others ho3
  | txDelete t key =>
    exact updating_safe ((txDelete_safe h (htx t) hc).mono fun r _ _ hq => ⟨r, rfl, hq⟩)
  | txGet t key =>
    refine replying_safe ((txRead_safe h (htx t) key).mono ?_)
    rintro r s1 - ⟨hq, hr⟩
    cases r <;> exact ⟨_, rfl, hq, hr⟩
  | txHas t key =>
    refine replying_safe ((txHas_safe h (htx t) key).mono ?_)
    rintro r s1 - ⟨hq, hr⟩
    cases r <;> exact ⟨_, rfl, hq, hr⟩
  | txGets t limit d c =>
    exact replying_safe
      ((readCall_safe h (txGetsBytes_safe h.crates h.toReading (htx t) limit d c)).mono
        fun r _ _ hq => ⟨r, rfl, hq⟩)
  | txCommit t =>
    exact replying_safe ((txCommit_safe h (htx t) hidle).mono fun r _ _ hq => ⟨r, rfl, hq⟩)
  | txRollback t =>
    exact .ret fun s' ho _ => ⟨rfl, h.quiet ho.calm (h.others ho)⟩

/-! ## Clients -/

def marked (who : Who) (m : Mark) (s : State) : State :=
  (s.1.log who (.mark m), s.2)

theorem Outside.marked (h : Outside M who cx s) {m : Mark}
    (hm : ∀ n r, m = .returned n r → M.R s.1.hist s.2.lin who n r) :
    Effect M who s (marked who m s) ∧ Outside M who cx (marked who m s) := by
  have he : Effect M who s (OxKv.marked who m s) := .mark m hm
  exact ⟨he, h.toUsing.own he rfl rfl rfl, h.free, h.empty⟩

/-- A client whose calls keep an invariant and give admissible replies. -/
structure Talks (M : Mode) (who : Who) (cx : Ctx) (calls : List Call)
    (J : Nat → TxTable → State → Prop) : Prop where
  ok : ∀ c ∈ calls, c.Ok M
  outside : ∀ {n txs s}, J n txs s → Outside M who cx s ∧ txs.Ok M
  stable : ∀ {n txs s s'}, J n txs s → Others M who s s' → J n txs s'
  call : ∀ {n c txs s out s'}, calls[n]? = some c → J n txs s →
    Outcome M who cx txs (marked who (.invoked n) s) c out s' →
    @Trail Act engine (rules M) who (marked who (.invoked n) s) s' →
    M.R s'.1.hist s'.2.lin who n out.1 ∧ J (n + 1) out.2 (marked who (.returned n out.1) s')

theorem client_safe {calls : List Call} {J : Nat → TxTable → State → Prop}
    (h : Talks M who cx calls J) {n : Nat} {rest : List Call} (hrest : calls.drop n = rest)
    (hJ : J n txs s) :
    @Safe Act engine _ (rules M) who (client cx rest n txs)
      (fun _ s' => ∃ txs', J (n + rest.length) txs' s') s := by
  induction rest generalizing n txs s with
  | nil => exact .ret fun s' ho _ => ⟨txs, h.stable hJ ho⟩
  | cons c rest ih =>
    have hget : calls[n]? = some c := by
      rw [← List.head?_drop, hrest]
      rfl
    have hdrop : calls.drop (n + 1) = rest := by
      rw [← List.tail_drop, hrest]
      rfl
    refine .act fun s1 ho hi1 => ⟨fun _ _ _ => rfl, fun ch r t _ hx _ => ?_⟩
    have hJ1 := h.stable hJ ho
    obtain ⟨hout1, htx⟩ := h.outside hJ1
    obtain ⟨he, hm⟩ := hout1.marked (m := .invoked n) nofun
    have hx : some ((), (marked who (.invoked n) s1).1) = some (r, t) := hx
    cases hx
    refine ⟨s1.2, he.inv hi1, he, ?_⟩
    have hidle : ¬ M.staging → batchOf who (marked who (.invoked n) s1).1.hist = [] := fun _ => by
      simp [marked, batchOf, What.isClient]
    refine .bindAct (.mono (Call.run_safe hm hidle htx
      (h.ok c (List.mem_of_getElem? hget))).trail fun out s2 hi2 hend => ?_)
    obtain ⟨hq, htrail⟩ := hend
    refine ⟨fun _ _ _ => rfl, fun ch r t _ hx _ => ?_⟩
    obtain ⟨hR, hJ2⟩ := h.call hget hJ1 hq htrail
    obtain ⟨he2, -⟩ := hq.outside.marked (m := .returned n out.1) fun n' r' heq => by
      cases heq
      exact hR
    have hx : some ((), (marked who (.returned n out.1) s2).1) = some (r, t) := hx
    cases hx
    refine ⟨s2.2, he2.inv hi2, he2, ?_⟩
    refine .mono (ih hdrop hJ2) ?_
    rintro - s3 - ⟨txs', hJ'⟩
    refine ⟨txs', ?_⟩
    rw [List.length_cons, Nat.add_comm rest.length, ← Nat.add_assoc]
    exact hJ'

end OxKv
