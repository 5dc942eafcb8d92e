import OxKv.Engine.Tx
import OxKv.Proc.Update

/-!
Transactions as whole calls: reads through the overlay, staged writes, and the
commit that lists the overlay as one WAL file.
-/

namespace OxKv

variable {M : Mode} {who : Who} {s s' s'' : State} {cx : Ctx} {tx : Tx}

/-- The overlay of a transaction holds operations that may be written. -/
def Tx.Ok (M : Mode) (tx : Tx) : Prop := ∀ op ∈ tx.overlay.toList, M.OkOp op

theorem Tx.begin_ok : Tx.begin.Ok M := fun _ hop => by cases hop

theorem Tx.Ok.insert (h : tx.Ok M) {key : Key} {x : Option Bytes} (hop : M.OkOp (key, x))
    (staged : List ChangeEvent) : (Tx.mk (tx.overlay.insert key x) staged).Ok M := by
  rintro ⟨k, v⟩ hmem
  have hget := ((tx.overlay.insert key x).mem_toList k v).mp hmem
  rw [SortedMap.get?_insert] at hget
  split at hget
  · rename_i hk
    cases hget
    rw [hk]
    exact hop
  · exact h _ ((tx.overlay.mem_toList k v).mpr hget)

/-! ## Reads -/

/-- What a transaction reads: its overlay before the store. -/
def TxSeen (M : Mode) (who : Who) (tx : Tx) (key : Key) (y : Option Bytes) (s s' : State) :
    Prop :=
  match tx.overlay.get? key with
  | some x => Agrees M y x
  | none => Seen M who key y s s'

theorem txGetBytes_safe (hcr : cx.crates = M.cr) (h : Reading M who s) (htx : tx.Ok M) (key : Key) :
    IoSafe (readRules M) who (txGetBytes cx tx key)
      (ReadResult M who fun y s' => TxSeen M who tx key y s s') s := by
  unfold txGetBytes TxSeen
  cases hget : tx.overlay.get? key with
  | none => exact getBytes_safe hcr h key
  | some x =>
    have hok := htx _ ((tx.overlay.mem_toList key x).mpr hget)
    have hplain : M.strict → ∀ v, x = some v → tryDecodeBlobPointer M.cr v = none :=
      fun hs v hv => M.plain hs v (hok.1 hs v hv)
    have hread : Readable M s.1.archive (some x) := fun hs raw hx => ⟨raw, by
      unfold resolve
      rw [hplain hs raw (Option.some.inj hx)]⟩
    exact .readMono (resolveHit_safe hcr h hread) (.imp id .inl)
      fun y _ _ _ hy => .of_shows hy (shows_plain hplain)

def ReadCall {α : Type} (M : Mode) (who : Who) (cx : Ctx) (P : α → State → Prop)
    (s : State) (r : Res α) (s' : State) : Prop :=
  Quiet M who cx [] s s' ∧ match r with
    | .ok a => P a s'
    | .error _ => M.faults ∨ ¬ M.strict ∨ ¬ M.solo

/-- A reading procedure as a call. -/
theorem readCall_safe {α : Type} {p : Io α} {P : α → State → Prop} (h : Outside M who cx s)
    (hp : IoSafe (readRules M) who p (ReadResult M who P) s) :
    IoSafe (rules M) who p (ReadCall M who cx P s) s :=
  h.toUsing.read hp (fun _ _ hq => hq.1) fun _ _ hc hu hq => ⟨h.quiet hc (h.calm hc hu), hq.2⟩

theorem txRead_safe (h : Outside M who cx s) (htx : tx.Ok M) (key : Key) :
    IoSafe (rules M) who (txGetBytes cx tx key)
      (ReadCall M who cx (fun y s' => TxSeen M who tx key y s s') s) s :=
  readCall_safe h (txGetBytes_safe h.crates h.toReading htx key)

theorem TxSeen.early {key : Key} {y : Option Bytes} (h : TxSeen M who tx key y s' s'')
    (hc : Calm M who s s') : TxSeen M who tx key y s s'' := by
  unfold TxSeen at h ⊢
  split at h
  · exact h
  · exact h.early hc

theorem Quiet.others {us : List Op} (h : Quiet M who cx us s s') (ho : Others M who s' s'') :
    Quiet M who cx us s s'' := by
  refine ⟨h.outside.others ho, ?_, fun hs => by rw [ho.1 hs]; exact h.buffer hs⟩
  have := h.acted.trans (.of_others h.outside.toUsing ho)
  simpa using this

theorem Quiet.trans {us us' : List Op} (h : Quiet M who cx us s s')
    (h' : Quiet M who cx us' s' s'') :
    Quiet M who cx (us ++ us') s s'' :=
  ⟨h'.outside, h.acted.trans h'.acted, fun hs => by
    rw [h'.buffer hs, h.buffer hs, List.append_assoc]⟩

theorem txHas_safe (h : Outside M who cx s) (htx : tx.Ok M) (key : Key) :
    IoSafe (rules M) who (txHas cx tx key) (fun r s' => Quiet M who cx [] s s' ∧ match r with
      | .ok b => ∃ y s1, TxSeen M who tx key y s s1 ∧ b = y.isSome
      | .error _ => M.faults ∨ ¬ M.strict ∨ ¬ M.solo) s := by
  refine .bind ((txRead_safe h htx key).mono ?_)
  rintro r s1 - ⟨hq, hr⟩
  match r, hr with
  | .error e, hwhy => exact ⟨hq, hwhy⟩
  | .ok y, hseen => exact .pure fun s2 ho _ => ⟨hq.others ho, y, s1, hseen, rfl⟩

theorem txDelete_safe (h : Outside M who cx s) (htx : tx.Ok M) {key : Key}
    (hop : M.OkOp (key, none)) :
    IoSafe (rules M) who (txDelete cx tx key) (fun r s' => Quiet M who cx [] s s' ∧ match r with
      | .ok (b, tx') => ∃ y s1, TxSeen M who tx key y s s1 ∧ b = y.isSome ∧ tx'.Ok M ∧
          tx'.overlay = if b then tx.overlay.insert key none else tx.overlay
      | .error _ => M.faults ∨ ¬ M.strict ∨ ¬ M.solo) s := by
  refine .bind ((txRead_safe h htx key).mono ?_)
  rintro r s1 - ⟨hq, hr⟩
  match r, hr with
  | .error e, hwhy => exact ⟨hq, hwhy⟩
  | .ok none, hseen =>
    exact .pure fun s2 ho _ => ⟨hq.others ho, none, s1, hseen, rfl, htx, rfl⟩
  | .ok (some v), hseen =>
    exact .pure fun s2 ho _ =>
      ⟨hq.others ho, some v, s1, hseen, rfl, htx.insert hop _, rfl⟩

def TxSetCall (M : Mode) (who : Who) (cx : Ctx) (tx : Tx) (key : Key) (value : Bytes)
    (s : State) (r : Res (Option Bytes × Tx)) (s' : State) : Prop :=
  Quiet M who cx [] s s' ∧ match r with
    | .ok (y, tx') => (∃ s₁, TxSeen M who tx key y s s₁) ∧ tx'.Ok M ∧
        tx'.overlay = tx.overlay.insert key (some value)
    | .error _ => (cx.check key value).MayReject ∨ M.faults ∨ ¬ M.strict ∨ ¬ M.solo

/-- A transaction's scan: its overlay above the store. -/
theorem txGetsBytes_safe (hcr : cx.crates = M.cr) (h : Reading M who s) (htx : tx.Ok M)
    (limit : Option Nat) (d : Direction) (c : Cursor) :
    IoSafe (readRules M) who (txGetsBytes cx tx limit d c)
      (ReadResult M who fun rows s' => ScanSeen M who tx.overlay limit d c rows s s') s := by
  refine retryOnceNotFound_safe (P := fun s rows s' => ScanSeen M who tx.overlay limit d c rows s s')
    h (fun _ h0 => scanBelow_safe hcr h0 [filterRows tx.overlay d c] ?_ fun k hk => ?_)
    (fun _ _ _ => ScanSeen.early) fun _ _ _ _ => ScanSeen.late
  · intro l hl
    rw [List.mem_singleton.mp hl]
    exact LayerOk.filterRows htx d c
  · rw [Layers.firstHit_cons, Layers.firstHit_nil, Option.or_none, lookup_filterRows _ hk]

theorem Tx.view_steady (hcr : cx.crates = M.cr) (htx : tx.Ok M) :
    (tx.view cx).All (Steady M who) := by
  have hget : ∀ k, Steady M who (txGetBytes cx tx k) := fun k _ h =>
    (txGetBytes_safe hcr h htx k).mono fun _ _ _ hq => hq.1
  exact ⟨hget, fun k => (hget k).map _, fun limit d c _ h =>
    (txGetsBytes_safe hcr h htx limit d c).mono fun _ _ _ hq => hq.1⟩

theorem txSetBytes_safe (h : Outside M who cx s) (htx : tx.Ok M) {key : Key} {value : Bytes}
    (hop : M.OkOp (key, some value)) :
    IoSafe (rules M) who (txSetBytes cx tx key value) (TxSetCall M who cx tx key value s) s := by
  refine .bind ((h.validate (tx.view_steady h.crates htx) _).mono ?_)
  rintro (e | _) s0 - ⟨hc0, h0, hrej⟩
  · exact ⟨h.quiet hc0 h0, .inl ⟨e, hrej⟩⟩
  · refine .bind ((txRead_safe h0 htx key).mono ?_)
    rintro r s1 - ⟨hq, hr⟩
    have hq' : Quiet M who cx [] s s1 := (h.quiet hc0 h0).trans hq
    match r, hr with
    | .error e, hwhy => exact ⟨hq', .inr hwhy⟩
    | .ok y, hseen =>
      exact .pure fun s2 ho _ => ⟨hq'.others ho, ⟨s1, hseen.early hc0⟩, htx.insert hop _, rfl⟩

/-! ## Commit -/

theorem revalidate_safe (hview : (tx.view cx).All (Steady M who)) (es : List ChangeEvent)
    (h : Reading M who s) : IoSafe (readRules M) who (revalidate cx tx es)
      (fun r s' => Reading M who s' ∧ ∀ e, r = .error e → Picky cx.check) s := by
  induction es generalizing s with
  | nil => exact .pure fun _ ho _ => ⟨h.others ho, nofun⟩
  | cons e es ih =>
    have hone : IoSafe (readRules M) who (revalidateEvent cx tx e)
        (fun r s' => Reading M who s' ∧ ∀ e, r = .error e → Picky cx.check) s := by
      unfold revalidateEvent
      split
      · exact (Check.run_safe (hview.revalidate .pure _ _) _ h).mono fun _ _ _ hq =>
          ⟨hq.1, fun e he => ⟨_, _, e, he ▸ hq.2⟩⟩
      · exact .pure fun _ ho _ => ⟨h.others ho, nofun⟩
    refine .bind (hone.mono ?_)
    rintro (e | _) s1 - ⟨h1, hrej⟩
    · exact ⟨h1, fun _ _ => hrej e rfl⟩
    · exact ih h1

theorem notifyAll_safe (es : List ChangeEvent) (h : Outside M who cx s) :
    IoSafe (rules M) who (notifyAll es) (fun r s' => r = .ok () ∧ Quiet M who cx [] s s') s := by
  induction es generalizing s with
  | nil =>
    exact .pure fun s' ho _ => ⟨rfl, h.quiet ho.calm (h.others ho)⟩
  | cons e es ih =>
    refine .bind ((notify_safe h e).mono ?_)
    rintro r s1 - ⟨rfl, h1, hact1, hbuf1⟩
    refine (ih h1).mono ?_
    rintro r s2 - ⟨rfl, hq⟩
    exact ⟨rfl, hq.outside, hact1.trans hq.acted, fun hs => by rw [hq.buffer hs, hbuf1 hs]⟩

def CommitCall (M : Mode) (who : Who) (cx : Ctx) (tx : Tx) (s : State) (r : Res Unit)
    (s' : State) : Prop :=
  Outside M who cx s' ∧
    ((∃ e, r = .error e ∧ Picky cx.check ∧ Quiet M who cx [] s s') ∨
      tx.overlay.toList = [] ∧ r = .ok () ∧ Quiet M who cx [] s s' ∨
      tx.overlay.toList ≠ [] ∧ Wrote M who [] tx.overlay.toList s r s')

theorem commitLocked_safe (h : Gated M who cx s) {updates : List Op} (hne : updates ≠ [])
    (hops : ∀ op ∈ updates, M.OkOp op) (hidle : ¬ M.staging → batchOf who s.1.hist = []) :
    IoSafe (rules M) who (commitLocked cx updates) (fun r s' =>
      Persisted M who cx [] updates s (r.map fun _ => ()) s' ∧ ∀ b, r = .ok b → b = true) s := by
  unfold commitLocked
  rw [if_neg (by simpa using hne)]
  cases henc : encodeOps updates with
  | error e =>
    refine .bind (.ofRes fun s1 ho _ => ⟨⟨h.others ho, [], fun _ => rfl, fun hs => ?_,
      (h.kept ho.calm).tended.did, Or.inr (.inr fun hshort => ?_)⟩, by simp⟩)
    · rw [ho.1 hs]
      rfl
    · obtain ⟨b, hb⟩ := encodeOps_of_short hshort _ hops
      rw [henc] at hb
      cases hb
  | ok payload =>
    refine .bind (.ofRes fun s1 ho _ => ?_)
    have h1 := h.others ho
    have hk := h.kept ho.calm
    have hfirst := drainAppend_safe h1 payload [] updates
      fun s2 ops h2 hd2 => by
        refine ⟨henc, hops, Or.inl rfl, fun hst => ⟨rfl, ?_⟩, fun hne => absurd rfl hne,
          fun _ => .inl rfl, Nat.zero_le _⟩
        obtain ⟨t, ht, hall⟩ := (hk.tended.did.trans hd2).hist
        rw [ht, batchOf_append hall]
        exact (hidle hst).symm
    show IoSafe _ _ (do drainStagedLocked cx; appendWalLocked cx payload updates; return true) _ _
    rw [← Io.bind_assoc]
    refine .bind (hfirst.mono ?_)
    rintro r s2 - ⟨h2, ops, hst, hback, hr⟩
    match r, hr with
    | .error e, ⟨hd, hwhy⟩ =>
      refine ⟨⟨h2, ops, hst, fun hs => ?_, ?_, hwhy⟩, by simp⟩
      · rw [hback hs, (hk.tended.alone hs).1]
      · simpa using hk.tended.did.trans hd
    | .ok _, ⟨hd, hnil⟩ =>
      refine .pure fun s3 ho3 _ => ⟨⟨h2.others ho3, ops, hst, fun hs => ?_, ?_, fun hs => ?_⟩,
        fun b hb => (Except.ok.inj hb).symm⟩
      · rw [ho3.1 hs, hback hs, (hk.tended.alone hs).1]
      · simpa using (hk.tended.did.trans hd).trans (h2.kept ho3.calm).tended.did
      · rw [ho3.1 hs]
        exact hnil hs

/-- The gated part of a commit as a step of the thread. -/
theorem commitGate_safe (h : Outside M who cx s) {updates : List Op}
    (hops : ∀ op ∈ updates, M.OkOp op) (hidle : ¬ M.staging → batchOf who s.1.hist = []) :
    IoSafe (rules M) who (withGate (commitLocked cx updates)) (fun r s' => Outside M who cx s' ∧
      (updates = [] ∧ r = .ok false ∧ Quiet M who cx [] s s' ∨
        updates ≠ [] ∧ Wrote M who [] updates s r s' ∧ ∀ b, r = .ok b → b = true)) s := by
  by_cases hne : updates = []
  · subst hne
    refine withGate_safe h.toUsing h.free fun s1 hp1 h1 hno1 => ?_
    refine .pure fun s2 ho _ => ?_
    have hk := h1.kept ho.calm
    refine ⟨h1.others ho, fun id pw hop => hno1 id pw ((hk.opened id pw).mp hop),
      fun s3 hp3 h3 hfree => ?_⟩
    have hout : Outside M who cx s3 := ⟨h3, hfree, fun hs => by
      rw [(hp3.alone hs).2.1, ho.1 hs, (hp1.alone hs).2.1]
      exact h.empty hs⟩
    refine ⟨hout, Or.inl ⟨rfl, rfl, hout, ?_, fun hs => ?_⟩⟩
    · exact (hp1.acted.trans hk.tended.did.acted).trans hp3.acted
    · rw [(hp3.alone hs).1, ho.1 hs, (hp1.alone hs).1, List.append_nil]
  · refine withGate_safe h.toUsing h.free fun s1 hp1 h1 hno1 => ?_
    refine (commitLocked_safe h1 hne hops fun hst => ?_).mono ?_
    · obtain ⟨t, ht, hall⟩ := hp1.hist
      rw [ht, batchOf_append hall]
      exact hidle hst
    rintro r s2 - ⟨hpers, htrue⟩
    obtain ⟨es, us, hd⟩ : ∃ es us, Did M who es us s1 s2 := by
      obtain ⟨-, ops, -, -, hr⟩ := hpers
      match r, hr with
      | .ok _, ⟨hd, _⟩ => exact ⟨_, _, hd⟩
      | .error _, ⟨hd, _⟩ => exact ⟨_, _, hd⟩
    refine ⟨hpers.1, fun id pw hop => hno1 id pw ((hd.opened id pw).mp hop),
      fun s3 hp3 h3 hfree => ⟨⟨h3, hfree, fun hs => ?_⟩, Or.inr ⟨hne, ?_, htrue⟩⟩⟩
    · rw [(hp3.alone hs).2.1, (hd.alone hs).1, (hp1.alone hs).2.1]
      exact h.empty hs
    · have hwrote := hpers.wrote.within hp1.acted hp3.acted (fun hs => (hp1.alone hs).1)
        fun hs => (hp3.alone hs).1
      obtain ⟨ops, hst, hback, hr⟩ := hwrote
      refine ⟨ops, hst, hback, ?_⟩
      cases r <;> exact hr

theorem txCommit_safe (h : Outside M who cx s) (htx : tx.Ok M)
    (hidle : ¬ M.staging → batchOf who s.1.hist = []) :
    IoSafe (rules M) who (txCommit cx tx) (CommitCall M who cx tx s) s := by
  refine .bind (h.toUsing.read (revalidate_safe (tx.view_steady h.crates htx) tx.staged h.toReading)
    (fun _ _ hq => hq.1) ?_)
  rintro (e | _) s0 hc0 hu0 ⟨-, hrej⟩
  · have h0 := h.calm hc0 hu0
    exact ⟨h0, .inl ⟨e, rfl, hrej e rfl, h.quiet hc0 h0⟩⟩
  · have hidle0 : ¬ M.staging → batchOf who s0.1.hist = [] := fun hst => by
      obtain ⟨t, ht, hall⟩ := (hc0.follows h.inv h.ready).passed.hist
      rw [ht, batchOf_append hall]
      exact hidle hst
    have h0 := h.calm hc0 hu0
    obtain ⟨hact0, hbuf0⟩ := h.calm_acted hc0
    refine .bind ((commitGate_safe h0 htx hidle0).mono ?_)
    rintro r s1 - ⟨h1, ⟨hnil, rfl, hq⟩ | ⟨hne, hwrote, htrue⟩⟩
    · exact .pure fun s2 ho _ =>
        ⟨h1.others ho, .inr (.inl ⟨hnil, rfl, ((h.quiet hc0 h0).trans hq).others ho⟩)⟩
    · match r with
      | .error e =>
        refine ⟨h1, .inr (.inr ⟨hne, ?_⟩)⟩
        exact hwrote.within hact0 (h1.calm_acted .refl).1 hbuf0 fun _ => rfl
      | .ok b =>
        cases htrue b rfl
        refine (notifyAll_safe tx.staged h1).mono ?_
        rintro r s2 - ⟨rfl, hq⟩
        refine ⟨hq.outside, .inr (.inr ⟨hne, ?_⟩)⟩
        exact hwrote.within hact0 hq.acted hbuf0 fun hs => by rw [hq.buffer hs, List.append_nil]

end OxKv
