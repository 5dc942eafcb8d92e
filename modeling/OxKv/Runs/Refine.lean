import OxKv.Runs.Lives
import OxKv.Spec.Model

/-!
Alone and with exact values, a store behaves as the ordered map of `Model`.

* `Refines`: the contents of a handle and its transactions against the model;
* `Outcome.refines`: every call is a step of the model.
-/

namespace OxKv

variable {M : Mode} {who : Who} {cx : Ctx} {s s' s'' : State} {m : Model} {txs : TxTable}

/-! ## Contents -/

variable {es : List (List Nat × List Op)}

theorem Acted.contents {us : List Op} (h : Acted M who es us s s') (hs : M.solo) :
    OxKv.live s'.1 s'.2 who.inst = applyOps (OxKv.live s.1 s.2 who.inst) us := by
  unfold OxKv.live
  rw [h.use.base]
  exact h.live hs _

/-- The contents of the handle are those of the model, and its transactions hold the
newest of their writes. -/
structure Refines (who : Who) (m : Model) (txs : TxTable) (s : State) : Prop where
  contents : live s.1 s.2 who.inst = m.contents.get?
  txs : ∀ t k, (txs t).overlay.get? k = (m.txs t).reverse.lookup k

section Refines

variable (h : Refines who m txs s)

include h

theorem Refines.acted (ha : Acted M who es [] s s') (hs : M.solo) : Refines who m txs s' :=
  ⟨(ha.contents hs).trans h.contents, h.txs⟩

theorem Refines.write {op : Op} (ha : Acted M who es [op] s s') (hs : M.solo) :
    Refines who (m.write op) txs s' := by
  refine ⟨?_, h.txs⟩
  rw [ha.contents hs, h.contents]
  exact (m.contents.get?_applyAll [op]).symm

/-- What a transaction sees, from its overlay. -/
theorem Refines.view (t : Nat) (k : Key) :
    (m.view t).get? k = ((txs t).overlay.get? k).getD (live s.1 s.2 who.inst k) := by
  rw [Model.view, Plain.get?_applyAll, applyOps_apply, h.txs, h.contents]

theorem Refines.stage (ha : Acted M who [] [] s s') (hs : M.solo) {t : Nat} {key : Key}
    {x : Option Bytes} {tx : Tx} (htx : tx.overlay = (txs t).overlay.insert key x) :
    Refines who (m.stage t (key, x)) (Function.update txs t tx) s' := by
  refine ⟨(h.acted ha hs).contents, fun u k => ?_⟩
  by_cases hu : u = t
  · subst hu
    simp only [Model.stage, Function.update_self, List.reverse_append, List.reverse_singleton,
      List.singleton_append]
    rw [htx, SortedMap.get?_insert, SortedMap.lookup_cons_ite, h.txs]
  · simp only [Model.stage, Function.update_of_ne hu]
    exact h.txs u k

theorem Refines.close (ha : Acted M who es [] s s') (hs : M.solo) (t : Nat) :
    Refines who (m.close t) (Function.update txs t Tx.begin) s' := by
  refine ⟨(h.acted ha hs).contents, fun u k => ?_⟩
  by_cases hu : u = t
  · subst hu
    simp only [Model.close, Function.update_self]
    rfl
  · simp only [Model.close, Function.update_of_ne hu]
    exact h.txs u k

/-- A commit performs all writes of its transaction. -/
theorem Refines.commit {t : Nat} (ha : Acted M who es (txs t).overlay.toList s s') (hs : M.solo) :
    Refines who { m.close t with contents := m.view t } (Function.update txs t Tx.begin) s' := by
  refine ⟨?_, fun u k => ?_⟩
  · funext k
    rw [ha.contents hs, applyOps_apply, lookup_reverse_toList, h.view]
  · by_cases hu : u = t
    · subst hu
      simp only [Model.close, Function.update_self]
      rfl
    · simp only [Model.close, Function.update_of_ne hu]
      exact h.txs u k

end Refines

/-- The calls that may fail in this mode. -/
abbrev Fails (M : Mode) (cx : Ctx) : Call → Prop :=
  Call.MayFail M.faults (¬ M.short) (Picky cx.check)

/-- The reply to the call and the state after it are those of a step of the model. -/
def Matches (M : Mode) (who : Who) (cx : Ctx) (m : Model) (c : Call) (out : Reply × TxTable)
    (s' : State) : Prop :=
  ∃ m', Model.Step (Fails M cx) m c out.1 m' ∧ Refines who m' out.2 s'

/-- A call that changes neither contents nor transactions, with the reply of the model. -/
theorem Refines.reply {c : Call} {r : Reply} (h : Refines who m txs s) (hs : M.solo)
    (ha : Acted M who es [] s s') (hp : (r, m) = m.perform c) :
    Matches M who cx m c (r, txs) s' :=
  ⟨m, Or.inl hp, h.acted ha hs⟩

theorem Refines.failed {c : Call} {r : Reply} (h : Refines who m txs s) (hs : M.solo)
    (ha : Acted M who es [] s s') (hr : r.failed) (hf : m.fail c = m) (hwhy : Fails M cx c) :
    Matches M who cx m c (r, txs) s' :=
  ⟨m, Or.inr ⟨hr, hf.symm, hwhy⟩, h.acted ha hs⟩

/-! ## Reads -/

section Reads

variable (hs : M.solo) (hm : ¬ M.multi) (hst : M.strict)

include hs hm hst

theorem Refines.seen (h : Refines who m txs s) (hout : Outside M who cx s) {key : Key}
    {y : Option Bytes} (hy : Seen M who key y s s') : y = m.contents.get? key := by
  rw [← h.contents]
  exact (hout.toUsing.seen hs hm hy).2 hst

theorem Refines.txSeen (h : Refines who m txs s) (hout : Outside M who cx s) {t : Nat} {key : Key}
    {y : Option Bytes} (hy : TxSeen M who (txs t) key y s s') : y = (m.view t).get? key := by
  rw [h.view]
  unfold TxSeen at hy
  split at hy
  · rename_i x hx
    rw [hx]
    exact hy.2 hst
  · rename_i hx
    rw [hx]
    exact (hout.toUsing.seen hs hm hy).2 hst

/-- A scan over an overlay lists the rows of the map with these entries. -/
theorem Refines.scanned {upper : MemMap} {limit : Option Nat} {d : Direction} {c : Cursor}
    {rows : List KeyValue} (hout : Outside M who cx s) (hupper : ∀ op ∈ upper.toList, M.OkOp op)
    (h : ScanSeen M who upper limit d c rows s s') {p : Plain}
    (hp : ∀ k, p.get? k = (upper.get? k).getD (live s.1 s.2 who.inst k)) :
    rows = p.gets limit d c := by
  obtain ⟨p', rfl, hshows⟩ := h.alone hs hout.inv hupper
  refine Plain.gets_congr fun k hk => ?_
  have hk' : M.Shows s.1 ((upper.get? k).or (liveHit M.cr s.1 who.inst k)) (p'.get? k) := hshows k hk
  rw [hp]
  cases hget : upper.get? k with
  | some x =>
    rw [hget, Option.some_or] at hk'
    exact hk'.unique hst (shows_plain fun hs v hv =>
      M.plain hs v ((hupper _ ((upper.mem_toList k x).mpr hget)).1 hs v hv))
  | none =>
    rw [hget, Option.none_or] at hk'
    exact hk'.unique hst (hout.toUsing.shows (hout.owns hm) k)

end Reads

/-! ## Calls -/

section Calls

variable {c : Call} {key : Key} {value : Bytes} {t : Nat} (hs : M.solo) (hm : ¬ M.multi)
  (hst : M.strict)

omit hm in
include hs hst in
theorem faults_of_error (h : M.faults ∨ ¬ M.strict ∨ ¬ M.solo) : M.faults :=
  h.elim id fun h => h.elim (fun hn => absurd hst hn) fun hn => absurd hs hn

omit hs hst in
include hm in
theorem long_of_error (h : M.faults ∨ M.multi ∨ ¬ M.short) : M.faults ∨ ¬ M.short :=
  h.imp id fun h => h.resolve_left hm

include hs hst

omit hm in
theorem ReadCall.refines {α : Type} {P : α → State → Prop} {r : Res α} (reply : Res α → Reply)
    (h : Refines who m txs s) (hc : ReadCall M who cx P s r s')
    (hok : ∀ a, P a s' → (reply (.ok a), m) = m.perform c) (herr : ∀ e, (reply (.error e)).failed)
    (hf : m.fail c = m) (hwhy : M.faults → Fails M cx c) :
    Matches M who cx m c (reply r, txs) s' := by
  obtain ⟨hq, hr⟩ := hc
  cases r with
  | error e => exact h.failed hs hq.acted (herr e) hf (hwhy (faults_of_error hs hst hr))
  | ok a => exact h.reply hs hq.acted (hok a hr)

include hm

omit hst in
theorem Put.refines {r : Res Unit} (h : Refines who m txs s) (hc : Put M who cx key value s r s') :
    Matches M who cx m (.put key value) (.done r, txs) s' := by
  obtain ⟨ids, ops, -, -, hr⟩ := hc.alone hs
  cases r with
  | ok _ => exact ⟨_, Or.inl rfl, h.write hr.1 hs⟩
  | error e => exact h.failed hs hr.1 rfl rfl (long_of_error hm hr.2)

theorem SetCall.refines {r : Res (Option Bytes)} (hout : Outside M who cx s)
    (h : Refines who m txs s) (hc : SetCall M who cx key value s r s') :
    Matches M who cx m (.set key value) (.value r, txs) s' := by
  obtain ⟨-, ⟨e, rfl, ha, hrej | hf, -⟩ |
    ⟨prev, s1, r', s2, hseen, -, ha1, -, hput, rfl, ha2, -⟩⟩ := hc
  · exact h.failed hs ha rfl rfl (.inr (.inr ⟨_, _, hrej⟩))
  · exact h.failed hs ha rfl rfl (.inl (faults_of_error hs hst hf))
  · obtain ⟨ids, ops, -, -, hr⟩ := hput.alone hs
    cases r' with
    | ok _ =>
      refine ⟨_, Or.inl ?_, (((h.acted ha1 hs).write hr.1 hs).acted ha2 hs)⟩
      rw [h.seen hs hm hst hout hseen]
      rfl
    | error e =>
      exact ((h.acted ha1 hs).acted hr.1 hs).failed hs ha2 rfl rfl
        ((long_of_error hm hr.2).imp id Or.inl)

omit hst in
theorem DeleteCall.refines {r : Res Bool} (h : Refines who m txs s)
    (hc : DeleteCall M who cx key s r s') :
    Matches M who cx m (.delete key) (.flag r, txs) s' := by
  obtain ⟨-, ops, -, -, hr⟩ := hc
  cases r with
  | error e => exact h.failed hs hr.1 rfl rfl (long_of_error hm (hr.2 hs))
  | ok b =>
    obtain ⟨s1, ha1, -, hb, -, ha2⟩ := hr
    have h1 := h.acted ha1 hs
    have hb := hb hm (.inl hs)
    rw [h1.contents] at hb
    cases b with
    | true =>
      refine ⟨_, Or.inl ?_, h1.write ha2 hs⟩
      rw [Model.perform, if_pos hb]
    | false =>
      refine h1.reply hs ha2 ?_
      rw [Model.perform, if_neg (by rw [hb]; simp)]

omit hst in
theorem FlushCall.refines {r : Res Unit} (h : Refines who m txs s)
    (hc : FlushCall M who cx s r s') : Matches M who cx m .flush (.done r, txs) s' := by
  obtain ⟨-, hr⟩ := hc
  cases r with
  | ok _ =>
    obtain ⟨ops, ha, -⟩ := hr
    exact h.reply hs ha rfl
  | error e => exact h.failed hs hr.1 rfl rfl (long_of_error hm hr.2.2)

omit hm in
/-- Both writes of a transaction; `reply` is what they make of the previous value. -/
theorem TxSetCall.refines {α : Type} {r : Res (Option Bytes × Tx)} (reply : Res α → Reply)
    (f : Option Bytes → α) (h : Refines who m txs s)
    (hc : TxSetCall M who cx (txs t) key value s r s')
    (hok : ∀ y s₁, TxSeen M who (txs t) key y s s₁ →
      (reply (.ok (f y)), m.stage t (key, some value)) = m.perform c)
    (herr : ∀ e, (reply (.error e)).failed) (hf : m.fail c = m)
    (hwhy : M.faults ∨ Picky cx.check → Fails M cx c) :
    Matches M who cx m c (TxOut reply txs t (r.map fun x => (f x.1, x.2))) s' := by
  obtain ⟨hq, hr⟩ := hc
  match r, hr with
  | .error e, hr =>
    exact h.failed hs hq.acted (herr e) hf
      (hwhy (hr.symm.imp (faults_of_error hs hst) fun hrej => ⟨_, _, hrej⟩))
  | .ok (y, tx), ⟨⟨s1, hy⟩, _, hov⟩ => exact ⟨_, Or.inl (hok y s1 hy), h.stage hq.acted hs hov⟩

theorem Outcome.refines_txDelete {out : Reply × TxTable} (hout : Outside M who cx s)
    (h : Refines who m txs s) (hc : Outcome M who cx txs s (.txDelete t key) out s') :
    Matches M who cx m (.txDelete t key) out s' := by
  obtain ⟨r, rfl, hq, hr⟩ := hc
  cases r with
  | error e => exact h.failed hs hq.acted rfl rfl (faults_of_error hs hst hr)
  | ok x =>
    obtain ⟨b, tx⟩ := x
    obtain ⟨y, s1, hy, rfl, -, hov⟩ := hr
    rw [h.txSeen hs hm hst hout hy] at hov ⊢
    by_cases hb : ((m.view t).get? key).isSome
    · rw [if_pos hb] at hov
      refine ⟨_, Or.inl ?_, h.stage hq.acted hs hov⟩
      rw [Model.perform, if_pos hb, hb]
      rfl
    · rw [if_neg hb] at hov
      refine ⟨m, Or.inl ?_, (h.acted hq.acted hs).contents, fun u k => ?_⟩
      · rw [Model.perform, if_neg hb]
        simp only [Bool.not_eq_true] at hb
        rw [hb]
        rfl
      · rw [← h.txs u k]
        show (Function.update txs t tx u).overlay.get? k = _
        by_cases hu : u = t
        · rw [hu, Function.update_self, hov]
        · rw [Function.update_of_ne hu]

omit hst in
theorem CommitCall.refines {r : Res Unit} (h : Refines who m txs s)
    (hc : CommitCall M who cx (txs t) s r s') :
    Matches M who cx m (.txCommit t) (.done r, Function.update txs t Tx.begin) s' := by
  obtain ⟨-, ⟨e, rfl, hrej, hq⟩ | ⟨hnil, rfl, hq⟩ | ⟨-, ops, -, -, hr⟩⟩ := hc
  · exact ⟨_, Or.inr ⟨rfl, rfl, .inr (.inr hrej)⟩, h.close hq.acted hs t⟩
  · exact ⟨_, Or.inl rfl, h.commit (by rw [hnil]; exact hq.acted) hs⟩
  · cases r with
    | ok _ => exact ⟨_, Or.inl rfl, h.commit hr.1 hs⟩
    | error e =>
      exact ⟨_, Or.inr ⟨rfl, rfl, (long_of_error hm hr.2).imp id .inl⟩, h.close hr.1 hs t⟩

theorem Outcome.refines (hout : Outside M who cx s) (htx : txs.Ok M) (h : Refines who m txs s)
    {out : Reply × TxTable} (ho : Outcome M who cx txs s c out s') :
    Matches M who cx m c out s' := by
  have hget : ∀ {key y s₁}, Seen M who key y s s₁ → y = m.contents.get? key :=
    h.seen hs hm hst hout
  have htxGet : ∀ {t key y s₁}, TxSeen M who (txs t) key y s s₁ → y = (m.view t).get? key :=
    h.txSeen hs hm hst hout
  cases c with
  | put key value =>
    obtain ⟨r, rfl, hc⟩ := ho
    exact hc.refines hs hm h
  | set key value =>
    obtain ⟨r, rfl, hc⟩ := ho
    exact hc.refines hs hm hst hout h
  | delete key =>
    obtain ⟨r, rfl, hc⟩ := ho
    exact hc.refines hs hm h
  | get key =>
    obtain ⟨r, rfl, hc⟩ := ho
    exact hc.refines hs hst .value h (fun y hy => by rw [hget hy]; rfl) (fun _ => rfl) rfl id
  | has key =>
    obtain ⟨r, rfl, hc⟩ := ho
    refine hc.refines hs hst .flag h ?_ (fun _ => rfl) rfl id
    rintro _ ⟨y, hy, rfl⟩
    rw [hget hy]
    rfl
  | gets limit d c =>
    obtain ⟨r, rfl, hc⟩ := ho
    refine hc.refines hs hst .rows h (fun rows hr => ?_) (fun _ => rfl) rfl id
    rw [Refines.scanned hs hm hst hout (fun _ hop => by cases hop) hr (p := m.contents) fun k => by
      rw [h.contents]; rfl]
    rfl
  | stageSet | stageDelete =>
    obtain ⟨rfl, hq⟩ := ho
    exact ⟨_, Or.inl rfl, h.write hq.acted hs⟩
  | flush =>
    obtain ⟨r, rfl, hc⟩ := ho
    exact hc.refines hs hm h
  | txSet t key value =>
    obtain ⟨r, rfl, hc⟩ := ho
    have hr : r.map (fun x => (x.1, x.2)) = r := by cases r <;> rfl
    rw [← hr]
    exact hc.refines hs hst .value id h (fun y s₁ hy => by rw [htxGet hy]; rfl)
      (fun _ => rfl) rfl id
  | txPut t key value =>
    obtain ⟨r, rfl, hc⟩ := ho
    exact hc.refines hs hst .done (fun _ => ()) h (fun _ _ _ => rfl) (fun _ => rfl) rfl id
  | txDelete t key => exact Outcome.refines_txDelete hs hm hst hout h ho
  | txGet t key =>
    obtain ⟨r, rfl, hc⟩ := ho
    exact hc.refines hs hst .value h (fun y hy => by rw [htxGet hy]; rfl) (fun _ => rfl) rfl id
  | txHas t key =>
    obtain ⟨r, rfl, hc⟩ := ho
    refine hc.refines hs hst .flag h ?_ (fun _ => rfl) rfl id
    rintro _ ⟨y, s₁, hy, rfl⟩
    rw [htxGet hy]
    rfl
  | txGets t limit d c =>
    obtain ⟨r, rfl, hc⟩ := ho
    refine hc.refines hs hst .rows h (fun rows hr => ?_) (fun _ => rfl) rfl id
    rw [Refines.scanned hs hm hst hout (htx t) hr fun k => h.view t k]
    rfl
  | txCommit t =>
    obtain ⟨r, rfl, hc⟩ := ho
    exact hc.refines hs hm h
  | txRollback t =>
    obtain ⟨rfl, hq⟩ := ho
    exact ⟨_, Or.inl rfl, h.close hq.acted hs t⟩
  | _ =>
    obtain ⟨⟨r, rfl⟩, hq⟩ := ho
    cases r with
    | ok _ => exact h.reply hs hq.acted rfl
    | error e => exact h.failed hs hq.acted rfl rfl trivial

end Calls

end OxKv
