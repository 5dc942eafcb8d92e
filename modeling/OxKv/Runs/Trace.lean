import OxKv.Engine.Silent
import OxKv.Hooks.Staged
import OxKv.Spec.Model

/-!
What the calls of a client publish, from any state and whatever the environment chooses.

* `Call.Does`: for each call and its reply, the events that it publishes and what it does
  to the transactions of its client;
* `Trace`: the replies to a sequence of calls with the events of each;
* `session_traced`: every owner leaves a trace behind.
-/

namespace OxKv

variable {cx : Ctx} {who : Who} {txs : TxTable} {w w' : World}

/-! ## Silent procedures -/

/-- The published events of the handle and the replies of the thread stay. -/
structure Hush (who : Who) (w w' : World) : Prop where
  events : (w'.inst who.inst).events = (w.inst who.inst).events
  replies : replies who w'.hist = replies who w.hist

theorem Hush.refl (who : Who) (w : World) : Hush who w w := ⟨rfl, rfl⟩

variable {w₁ : World}

theorem Hush.trans {w2 w3 : World} (h1 : Hush who w₁ w2) (h2 : Hush who w2 w3) : Hush who w₁ w3 :=
  ⟨h2.events.trans h1.events, h2.replies.trans h1.replies⟩

theorem exec_hush {β : Type} {c : Choice} {a : Act β} {r : β} (ha : a.silent = true)
    (h : exec who c a w = some (r, w')) : Hush who w w' := by
  cases a <;> simp only [exec] at h
  all_goals (repeat' split at h)
  all_goals first
    | (cases h; done)
    | (cases ha; done)
    | (injection h with h; injection h with h1 h2; subst h2; constructor <;> simp [replies])

variable {α : Type}

theorem Io.Silent.ends {p : Io α} (h : p.Silent) (who : Who) (w : World) :
    engine.Ends who p (fun _ w' => Hush who w w') w :=
  .only (M := engine) (R := Hush who) (Hush.refl who) (fun _ _ _ => Hush.trans)
    (fun _ _ _ _ _ ha hx => exec_hush ha hx) h w

theorem Io.Silent.bindEnds {β : Type} {p : Io β} {f : β → Io α} {w : World}
    {Q : Res α → World → Prop} (h : p.Silent) (herr : ∀ e w', Hush who w w' → Q (.error e) w')
    (hf : ∀ b w', Hush who w w' → engine.Ends who (f b) Q w') :
    engine.Ends who (p >>= f : Io α) Q w := by
  refine .bind ((h.ends who w).mono fun r w' hw => ?_)
  cases r with
  | error e => exact .ret (herr e w' hw)
  | ok b => exact hf b w' hw

/-! ## Calls -/

/-- What a call with this reply publishes, and the transactions that it leaves. -/
def Call.Does (txs : TxTable) : Call → Reply × TxTable → List ChangeEvent → Prop
  | .set key value, out, es => ∃ r, out = (.value r, txs) ∧ match r with
      | .ok prev => es = [⟨key, .set, prev, some value⟩]
      | .error _ => es = []
  | .delete key, out, es => ∃ r, out = (.flag r, txs) ∧ match r with
      | .ok true => ∃ old, es = [⟨key, .delete, some old, none⟩]
      | _ => es = []
  | .txSet t key value, out, es => es = [] ∧ ∃ r, out.1 = .value r ∧ match r with
      | .ok prev => out.2 = Function.update txs t ((txs t).record ⟨key, .set, prev, some value⟩)
      | .error _ => out.2 = txs
  | .txPut t key value, out, es => es = [] ∧ ∃ r, out.1 = .done r ∧ match r with
      | .ok _ =>
          ∃ prev, out.2 = Function.update txs t ((txs t).record ⟨key, .set, prev, some value⟩)
      | .error _ => out.2 = txs
  | .txDelete t key, out, es => es = [] ∧ ∃ r, out.1 = .flag r ∧ match r with
      | .ok true => ∃ old,
          out.2 = Function.update txs t ((txs t).record ⟨key, .delete, some old, none⟩)
      | _ => out.2 = txs
  | .txCommit t, out, es => ∃ r, out = (.done r, Function.update txs t Tx.begin) ∧ match r with
      | .ok _ => es = if (txs t).overlay.toList.isEmpty then [] else (txs t).staged
      | .error _ => es = []
  | .txRollback t, out, es => es = [] ∧ out = (.done (.ok ()), Function.update txs t Tx.begin)
  | .get _, out, es => es = [] ∧ ∃ r, out = (.value r, txs)
  | .has _, out, es => es = [] ∧ ∃ r, out = (.flag r, txs)
  | .gets _ _ _, out, es => es = [] ∧ ∃ r, out = (.rows r, txs)
  | .txGet _ _, out, es => es = [] ∧ ∃ r, out = (.value r, txs)
  | .txHas _ _, out, es => es = [] ∧ ∃ r, out = (.flag r, txs)
  | .txGets _ _ _ _, out, es => es = [] ∧ ∃ r, out = (.rows r, txs)
  -- direct and staged puts publish nothing
  | _, out, es => es = [] ∧ ∃ r, out = (.done r, txs)

/-- The events of the handle grew by `es`, the replies are the same. -/
def Adds (who : Who) (w : World) (es : List ChangeEvent) (w' : World) : Prop :=
  (w'.inst who.inst).events = (w.inst who.inst).events ++ es ∧ replies who w'.hist = replies who w.hist

theorem Hush.adds (h : Hush who w w') : Adds who w [] w' :=
  ⟨by rw [h.events, List.append_nil], h.replies⟩

theorem Hush.addsAfter {es : List ChangeEvent} (h : Hush who w w₁) (ha : Adds who w₁ es w') :
    Adds who w es w' :=
  ⟨by rw [ha.1, h.events], ha.2.trans h.replies⟩

theorem Adds.trans {es es' : List ChangeEvent} (h : Adds who w es w₁) (h' : Adds who w₁ es' w') :
    Adds who w (es ++ es') w' :=
  ⟨by rw [h'.1, h.1, List.append_assoc], h'.2.trans h.2⟩

/-- One event. -/
theorem notify_adds (e : ChangeEvent) (w : World) :
    engine.Ends who (Io.act (.notify e)) (fun r w' => r = .ok () ∧ Adds who w [e] w') w := by
  refine .act fun c r t hx => .ret ?_
  cases hx
  exact ⟨rfl, by rw [World.setInst_inst_self], rfl⟩

theorem notifyAll_adds (es : List ChangeEvent) (w : World) :
    engine.Ends who (notifyAll es) (fun r w' => r = .ok () ∧ Adds who w es w') w := by
  induction es generalizing w with
  | nil => exact .ret ⟨rfl, (Hush.refl who w).adds⟩
  | cons e es ih =>
    refine .bind ((notify_adds e w).mono ?_)
    rintro _ w₁ ⟨rfl, h1⟩
    exact (ih w₁).mono fun r w' h => ⟨h.1, h1.trans h.2⟩

theorem replying_adds {f : Res α → Reply} {p : Io α} (h : p.Silent) (w : World) :
    engine.Ends who (replying f txs p)
      (fun out w' => (∃ r, out = (f r, txs)) ∧ Adds who w [] w') w :=
  .bind ((h.ends who w).mono fun r _ hw => .ret ⟨⟨r, rfl⟩, hw.adds⟩)

theorem setBytes_adds (key : Key) (value : Bytes) (w : World) :
    engine.Ends who (setBytes cx key value) (fun r w' => match r with
      | .ok prev => Adds who w [⟨key, .set, prev, some value⟩] w'
      | .error _ => Adds who w [] w') w := by
  refine (Check.run_silent (storeView_silent cx) _).bindEnds (fun _ _ => Hush.adds)
    fun _ w₀ h0 => ?_
  refine (getBytes_looks cx key).silent.bindEnds (fun _ _ h1 => (h0.trans h1).adds)
    fun prev w₁ h1 => ?_
  refine (putBytes_silent cx key value).bindEnds (fun _ _ h2 => ((h0.trans h1).trans h2).adds)
    fun _ w2 h2 => .bind ((notify_adds _ w2).mono ?_)
  rintro _ w3 ⟨rfl, h3⟩
  exact .ret (((h0.trans h1).trans h2).addsAfter h3)

theorem delete_adds (key : Key) (w : World) :
    engine.Ends who (OxKv.delete cx key) (fun r w' => match r with
      | .ok true => ∃ old, Adds who w [⟨key, .delete, some old, none⟩] w'
      | _ => Adds who w [] w') w := by
  refine (withGate_silent (deleteLocked_silent cx key)).bindEnds (fun _ _ => Hush.adds)
    fun x w₁ h1 => ?_
  cases x with
  | none => exact .ret h1.adds
  | some old =>
    refine .bind ((notify_adds _ w₁).mono ?_)
    rintro _ w2 ⟨rfl, h2⟩
    exact .ret ⟨old, h1.addsAfter h2⟩

/-- What a success of the procedure returns. -/
def Io.Delivers {α : Type} (who : Who) (p : Io α) (Q : α → Prop) : Prop :=
  ∀ w, engine.Ends who p (fun r _ => ∀ a, r = .ok a → Q a) w

namespace Io.Delivers

variable {α β : Type} {Q : α → Prop}

theorem ofRes {r : Res α} (h : ∀ a, r = .ok a → Q a) : Io.Delivers who (Io.ofRes r) Q :=
  fun _ => .ret h

theorem pure {a : α} (h : Q a) : Io.Delivers who (Pure.pure a) Q :=
  ofRes fun _ ha => by cases ha; exact h

theorem bind {p : Io β} {f : β → Io α} (h : ∀ b, (f b).Delivers who Q) :
    Io.Delivers who (p >>= f) Q := by
  refine fun w => .bind fun _ r _ w' _ => ?_
  cases r with
  | error e => exact .ret fun _ he => by cases he
  | ok b => exact h b w'

theorem attemptBind {p : Io β} {f : Res β → Io α} {P : β → Prop} (hp : p.Delivers who P)
    (h : ∀ r, (∀ b, r = .ok b → P b) → (f r).Delivers who Q) :
    Io.Delivers who (p.attempt >>= f) Q :=
  fun w => .bind (.bind ((hp w).mono fun r w' hr => .ret (h r hr w')))

theorem withGate {p : Io α} (h : p.Delivers who Q) : (OxKv.withGate p).Delivers who Q :=
  .bind fun _ => .attemptBind h fun _ hr => .bind fun _ => .ofRes hr

end Io.Delivers

/-- A commit reports whether there was something to write. -/
theorem commitLocked_delivers (updates : List Op) :
    (commitLocked cx updates).Delivers who (· = !updates.isEmpty) := by
  unfold commitLocked
  cases updates.isEmpty with
  | true => exact .pure rfl
  | false => exact .bind fun _ => .bind fun _ => .bind fun _ => .pure rfl

theorem txCommit_adds (tx : Tx) (w : World) :
    engine.Ends who (OxKv.txCommit cx tx) (fun r w' => match r with
      | .ok _ => Adds who w (if tx.overlay.toList.isEmpty then [] else tx.staged) w'
      | .error _ => Adds who w [] w') w := by
  refine (revalidate_silent cx tx tx.staged).bindEnds (fun _ _ => Hush.adds) fun _ w₁ h1 => ?_
  refine .bind ((((withGate_silent (commitLocked_silent cx _)).ends who w₁).and
    ((commitLocked_delivers tx.overlay.toList).withGate w₁)).mono ?_)
  rintro (e | b) w2 ⟨h2, hb⟩
  · exact .ret (h1.trans h2).adds
  · rw [hb b rfl]
    cases tx.overlay.toList.isEmpty with
    | true => exact .ret (h1.trans h2).adds
    | false =>
      refine (notifyAll_adds tx.staged w2).mono ?_
      rintro _ w3 ⟨rfl, h3⟩
      exact (h1.trans h2).addsAfter h3

theorem txSetBytes_adds (tx : Tx) (key : Key) (value : Bytes) (w : World) :
    engine.Ends who (txSetBytes cx tx key value) (fun r w' => Adds who w [] w' ∧
      ∀ prev tx', r = .ok (prev, tx') → tx' = tx.record ⟨key, .set, prev, some value⟩) w := by
  refine (Check.run_silent (tx.view_silent cx) _).bindEnds (fun _ _ h0 => ⟨h0.adds, nofun⟩)
    fun _ w₀ h0 => (txGetBytes_silent cx tx key).bindEnds
      (fun _ _ h1 => ⟨(h0.trans h1).adds, nofun⟩) fun prev w₁ h1 => .ret ⟨(h0.trans h1).adds, ?_⟩
  rintro _ _ ⟨⟩
  rfl

theorem txPutBytes_adds (tx : Tx) (key : Key) (value : Bytes) (w : World) :
    engine.Ends who (txPutBytes cx tx key value) (fun r w' => Adds who w [] w' ∧
      ∀ tx', r = .ok tx' → ∃ prev, tx' = tx.record ⟨key, .set, prev, some value⟩) w := by
  refine .bind ((txSetBytes_adds tx key value w).mono ?_)
  rintro (e | ⟨prev, tx'⟩) w' ⟨hw, htx⟩
  · exact .ret ⟨hw, nofun⟩
  · refine .ret ⟨hw, ?_⟩
    rintro _ ⟨⟩
    exact ⟨prev, htx prev tx' rfl⟩

theorem txDelete_adds (tx : Tx) (key : Key) (w : World) :
    engine.Ends who (OxKv.txDelete cx tx key) (fun r w' => Adds who w [] w' ∧
      ∀ b tx', r = .ok (b, tx') → if b then ∃ old, tx' = tx.record ⟨key, .delete, some old, none⟩
        else tx' = tx) w := by
  refine (txGetBytes_silent cx tx key).bindEnds (fun _ _ h1 => ⟨h1.adds, nofun⟩)
    fun found w₁ h1 => ?_
  cases found with
  | none =>
    refine .ret ⟨h1.adds, ?_⟩
    rintro _ _ ⟨⟩
    rfl
  | some old =>
    refine .ret ⟨h1.adds, ?_⟩
    rintro _ _ ⟨⟩
    exact ⟨old, rfl⟩

theorem updating_adds {f : Res α → Reply} {t : Nat} {p : Io (α × Tx)} {P : α → Tx → Prop}
    (h : engine.Ends who p
      (fun r w' => Adds who w [] w' ∧ ∀ a tx, r = .ok (a, tx) → P a tx) w) :
    engine.Ends who (updating f txs t p) (fun out w' => Adds who w [] w' ∧
      ∃ r : Res α, out.1 = f r ∧ match r with
        | .ok a => ∃ tx, P a tx ∧ out.2 = Function.update txs t tx
        | .error _ => out.2 = txs) w := by
  refine .bind (h.mono ?_)
  rintro (e | ⟨a, tx⟩) w' ⟨hw, hp⟩
  · exact .ret ⟨hw, .error e, rfl, rfl⟩
  · exact .ret ⟨hw, .ok a, rfl, tx, hp a tx rfl, rfl⟩

theorem Call.run_does (cx : Ctx) (txs : TxTable) (c : Call) (w : World) :
    engine.Ends who (c.run cx txs)
      (fun out w' => ∃ es, c.Does txs out es ∧ Adds who w es w') w := by
  -- a call that only replies
  have quiet : ∀ {α : Type} {f : Res α → Reply} {p : Io α}, p.Silent →
      (∀ r, c.Does txs (f r, txs) []) → engine.Ends who (replying f txs p)
        (fun out w' => ∃ es, c.Does txs out es ∧ Adds who w es w') w := by
    intro α f p hp hdoes
    refine (replying_adds hp w).mono ?_
    rintro _ w' ⟨⟨r, rfl⟩, hw⟩
    exact ⟨[], hdoes r, hw⟩
  cases c with
  | put key value => exact quiet (putBytes_silent cx key value) fun r => ⟨rfl, r, rfl⟩
  | set key value =>
    refine .bind ((setBytes_adds key value w).mono fun r w' h => .ret ?_)
    cases r with
    | error e => exact ⟨[], ⟨.error e, rfl, rfl⟩, h⟩
    | ok prev => exact ⟨_, ⟨.ok prev, rfl, rfl⟩, h⟩
  | delete key =>
    refine .bind ((delete_adds key w).mono fun r w' h => .ret ?_)
    cases r with
    | error e => exact ⟨[], ⟨.error e, rfl, rfl⟩, h⟩
    | ok b =>
      cases b with
      | false => exact ⟨[], ⟨.ok false, rfl, rfl⟩, h⟩
      | true =>
        obtain ⟨old, hold⟩ := h
        exact ⟨_, ⟨.ok true, rfl, old, rfl⟩, hold⟩
  | get key => exact quiet (getBytes_looks cx key).silent fun r => ⟨rfl, r, rfl⟩
  | has key => exact quiet (has_looks cx key).silent fun r => ⟨rfl, r, rfl⟩
  | gets limit d cur => exact quiet (getsBytes_looks cx limit d cur).silent fun r => ⟨rfl, r, rfl⟩
  | stageSet key value | stageDelete key => exact quiet (stage_silent _) fun r => ⟨rfl, r, rfl⟩
  | flush => exact quiet (withGate_silent (drainStagedLocked_silent cx)) fun r => ⟨rfl, r, rfl⟩
  | flushMem =>
    exact quiet (withGate_silent (flushMemToSstInner_silent cx false)) fun r => ⟨rfl, _, rfl⟩
  | flushForce =>
    exact quiet (withGate_silent (flushMemToSstInner_silent cx true)) fun r => ⟨rfl, _, rfl⟩
  | compact => exact quiet (withGate_silent (compactInner_silent cx)) fun r => ⟨rfl, _, rfl⟩
  | gcWal => exact quiet (withGate_silent (gcWalLoop_silent cx 4)) fun r => ⟨rfl, _, rfl⟩
  | gcOrphans => exact quiet (withGate_silent (gcOrphansInner_silent cx)) fun r => ⟨rfl, _, rfl⟩
  | txSet t key value =>
    refine (updating_adds (txSetBytes_adds (txs t) key value w)).mono ?_
    rintro out w' ⟨hw, r, hout, hr⟩
    refine ⟨[], ⟨rfl, r, hout, ?_⟩, hw⟩
    cases r with
    | error e => exact hr
    | ok prev =>
      obtain ⟨_, rfl, hupd⟩ := hr
      exact hupd
  | txPut t key value =>
    have hput : engine.Ends who (do return ((), ← txPutBytes cx (txs t) key value) : Io (Unit × Tx))
        (fun r w' => Adds who w [] w' ∧ ∀ u tx, r = .ok (u, tx) →
          ∃ prev, tx = (txs t).record ⟨key, .set, prev, some value⟩) w := by
      refine .bind ((txPutBytes_adds (txs t) key value w).mono ?_)
      rintro (e | tx) w' ⟨hw, htx⟩
      · exact .ret ⟨hw, nofun⟩
      · refine .ret ⟨hw, ?_⟩
        rintro _ _ ⟨⟩
        exact htx tx rfl
    refine (updating_adds hput).mono ?_
    rintro out w' ⟨hw, r, hout, hr⟩
    refine ⟨[], ⟨rfl, r, hout, ?_⟩, hw⟩
    cases r with
    | error e => exact hr
    | ok _ =>
      obtain ⟨_, ⟨prev, rfl⟩, hupd⟩ := hr
      exact ⟨prev, hupd⟩
  | txDelete t key =>
    refine (updating_adds (txDelete_adds (txs t) key w)).mono ?_
    rintro out w' ⟨hw, r, hout, hr⟩
    refine ⟨[], ⟨rfl, r, hout, ?_⟩, hw⟩
    cases r with
    | error e => exact hr
    | ok b =>
      obtain ⟨tx, htx, hupd⟩ := hr
      cases b with
      | true =>
        obtain ⟨old, rfl⟩ := htx
        exact ⟨old, hupd⟩
      | false =>
        cases htx
        exact hupd.trans (Function.update_eq_self t txs)
  | txGet t key => exact quiet (txGetBytes_silent cx (txs t) key) fun r => ⟨rfl, r, rfl⟩
  | txHas t key => exact quiet (txHas_silent cx (txs t) key) fun r => ⟨rfl, r, rfl⟩
  | txGets t limit d cur =>
    exact quiet (txGetsBytes_silent cx (txs t) limit d cur) fun r => ⟨rfl, r, rfl⟩
  | txCommit t =>
    refine .bind ((txCommit_adds (txs t) w).mono fun r w' h => .ret ?_)
    cases r with
    | error e => exact ⟨[], ⟨.error e, rfl, rfl⟩, h⟩
    | ok _ => exact ⟨_, ⟨.ok (), rfl, rfl⟩, h⟩
  | txRollback t => exact .ret ⟨[], ⟨rfl, rfl⟩, (Hush.refl who w).adds⟩

/-! ## Clients -/

inductive Trace : List Call → List Reply → List (List ChangeEvent) → TxTable → Prop where
  | nil : Trace [] [] [] TxTable.none
  | snoc {calls : List Call} {rs : List Reply} {log : List (List ChangeEvent)}
      {txs txs' : TxTable} {c : Call} {r : Reply} {es : List ChangeEvent}
      (h : Trace calls rs log txs) (hdoes : c.Does txs (r, txs') es) :
      Trace (calls ++ [c]) (rs ++ [r]) (log ++ [es]) txs'

theorem Trace.length {calls : List Call} {rs : List Reply} {log : List (List ChangeEvent)}
    (h : Trace calls rs log txs) : rs.length = calls.length := by
  induction h with
  | nil => rfl
  | snoc _ _ ih => simp [ih]

/-- The world records a trace of these calls. -/
def Traced (who : Who) (calls : List Call) (w : World) : Prop :=
  ∃ log txs, Trace calls (replies who w.hist) log txs ∧
    (w.inst who.inst).events = log.flatten

theorem client_traced {done : List Call} {log : List (List ChangeEvent)} (calls : List Call)
    (n : Nat) (h : Trace done (replies who w.hist) log txs)
    (hlog : (w.inst who.inst).events = log.flatten) :
    engine.Ends who (client cx calls n txs) (fun _ w' => Traced who (done ++ calls) w') w := by
  -- `done` are the calls that have returned
  induction calls generalizing done log n txs w with
  | nil =>
    rw [List.append_nil]
    exact .ret ⟨log, txs, h, hlog⟩
  | cons c calls ih =>
    refine .act fun _ _ w₁ hinv => .bind ((Call.run_does cx txs c w₁).mono ?_)
    cases hinv
    rintro ⟨r, txs'⟩ w2 ⟨es, hdoes, hevents, hreplies⟩
    refine .act fun _ _ w3 hret => ?_
    cases hret
    rw [← List.singleton_append, ← List.append_assoc]
    refine @ih _ _ _ (log ++ [es]) (n + 1) ?_ ?_
    · have hlast : replies who (w2.log who (.mark (.returned n r))).hist =
          replies who w2.hist ++ [r] := if_pos rfl
      rw [hlast, hreplies]
      exact h.snoc hdoes
    · rw [List.flatten_append, List.flatten_singleton, ← hlog]
      exact hevents

/-! ## Owners -/

/-- The handle has published nothing and the thread has got no reply. -/
structure Untouched (who : Who) (w : World) : Prop where
  events : (w.inst who.inst).events = []
  replies : replies who w.hist = []

theorem Hush.untouched (h : Hush who w w') (hw : Untouched who w) : Untouched who w' :=
  ⟨h.events.trans hw.events, h.replies.trans hw.replies⟩

theorem takeOver_untouched (b : Builder) (hw : Untouched who w) :
    engine.Ends who (takeOver b) (fun _ w' => Untouched who w') w := by
  refine Io.Silent.bindEnds (acquireOwnership_only rfl (fun _ _ => rfl) b.session)
    (fun _ _ h1 => h1.untouched hw) fun rec w₁ h1 => .bind (.act fun _ _ w2 hnew => .ret ?_)
  cases hnew
  refine (Io.Silent.ends ?_ who _).mono fun _ w' h' =>
    h'.untouched ⟨?_, h1.replies.trans hw.replies⟩
  · exact .bind (loadManifest_looks _ true).silent fun _ =>
      .bind (replayListedWals_silent _ _) fun _ => .bind (.act rfl) fun _ => .pure _
  · exact congrArg Inst.events (World.setInst_inst_self w₁ who.inst _)

theorem build_untouched (b : Builder) (hw : Untouched who w) :
    engine.Ends who (build b) (fun _ w' => Untouched who w') w := by
  unfold build
  split
  · exact takeOver_untouched b hw
  · exact Io.Silent.bindEnds (probeStore_only (fun _ _ => rfl) rfl)
      (fun _ _ h1 => h1.untouched hw) fun _ _ h1 => takeOver_untouched b (h1.untouched hw)

/-- Every owner leaves a trace of its calls, or of none if it could not be built. -/
theorem session_traced (b : Builder) (calls : List Call) (hw : Untouched who w) :
    engine.Ends who (session b calls) (fun _ w' => ∃ done, (done = calls ∨ done = []) ∧
      Traced who done w') w := by
  refine .bind ((build_untouched b hw).mono fun r w₁ h1 => ?_)
  have hnil : Trace [] (replies who w₁.hist) [] TxTable.none := by
    rw [h1.replies]
    exact .nil
  cases r with
  | error e => exact .ret ⟨[], .inr rfl, [], TxTable.none, hnil, h1.events⟩
  | ok cx =>
    exact (client_traced calls 0 hnil h1.events).mono fun _ w' h' => ⟨calls, .inl rfl, h'⟩

/-! ## Other owners -/

/-- The handle and the replies of an owner that is not running. -/
structure Resting (who : Who) (w w' : World) : Prop where
  inst : w'.inst who.inst = w.inst who.inst
  replies : replies who w'.hist = replies who w.hist

theorem replies_cons_ne {who' : Who} (hne : who' ≠ who) (e : What) (h : History) :
    replies who ((who', e) :: h) = replies who h := by
  cases e with
  | mark m =>
    cases m with
    | invoked n => rfl
    | returned n r => exact if_neg hne
  | _ => rfl

theorem exec_resting {β : Type} {who' : Who} {c : Choice} {a : Act β} {r : β}
    (hne : who'.inst ≠ who.inst) (h : exec who' c a w = some (r, w')) : Resting who w w' := by
  have hwho : who' ≠ who := fun heq => hne (congrArg Who.inst heq)
  cases a <;> simp only [exec] at h
  all_goals (repeat' split at h)
  all_goals first
    | (cases h; done)
    | (injection h with h; injection h with h1 h2; subst h2; constructor <;>
        first
          | rfl
          | exact replies_cons_ne hwho _ _
          | exact Function.update_of_ne hne.symm _ _)

/-- A run leaves every other handle alone. -/
theorem run_resting (who who' : Who) (hne : who'.inst ≠ who.inst) (p : Prog Act α) (w : World) :
    engine.Ends who' p (fun _ w' => Resting who w w') w := by
  refine .only (M := engine) (A := fun _ => True) (R := Resting who) (fun _ => ⟨rfl, rfl⟩)
    (fun _ _ _ h1 h2 => ⟨h2.inst.trans h1.inst, h2.replies.trans h1.replies⟩)
    (fun _ _ _ _ _ _ hx => exec_resting hne hx) ?_ w
  induction p with
  | ret a => trivial
  | act a k ih => exact ⟨trivial, ih⟩

end OxKv
