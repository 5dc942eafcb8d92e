import OxKv.BTree.Store
import OxKv.Hooks.Staged

/-!
The event log of a `BTreeStore` over whole runs: direct writes interleaved with any
number of open transactions.

* `Logged`: what one call adds to the log, and that replaying it gives the map;
* `events_replay`: the same for every sequence of calls, what a commit publishes, and
  that rejected calls and rollbacks publish nothing.
-/

namespace OxKv

/-- The operations on one store and its transactions. -/
inductive BTreeCall where
  | set (key : Key) (value : Bytes)
  | delete (key : Key)
  | addValidator (v : Validator)
  | beginTx (t : Nat)
  | txSet (t : Nat) (key : Key) (value : Bytes)
  | txDelete (t : Nat) (key : Key)
  | txCommit (t : Nat)
  | txRollback (t : Nat)

inductive BTreeReply where
  | value (r : Res (Option Bytes))
  | removed (r : Res Bool)
  | done (r : Res Unit)
  /-- there is no open transaction of that number -/
  | absent

def BTreeReply.rejects : BTreeReply → Prop
  | .value (.error _) | .removed (.error _) | .done (.error _) => True
  | _ => False

structure BTreeWorld where
  store : BTree
  txs : Nat → Option BTreeTx

namespace BTreeWorld

def start (s : BTree) : BTreeWorld := ⟨s, fun _ => none⟩

def setTx (w : BTreeWorld) (t : Nat) (tx : Option BTreeTx) : BTreeWorld :=
  { w with txs := Function.update w.txs t tx }

/-- One call. `commit` and `rollback` consume the transaction. -/
def call (w : BTreeWorld) : BTreeCall → BTreeReply × BTreeWorld
  | .set key value =>
    let r := w.store.setBytes key value
    (.value r.1, { w with store := r.2 })
  | .delete key =>
    let r := w.store.delete key
    (.removed r.1, { w with store := r.2 })
  | .addValidator v => (.done (.ok ()), { w with store := w.store.addValidator v })
  | .beginTx t => (.done (.ok ()), w.setTx t (some w.store.beginTx))
  | .txSet t key value =>
    match w.txs t with
    | none => (.absent, w)
    | some tx =>
      let r := tx.setBytes w.store.map key value
      (.value r.1, w.setTx t (some r.2))
  | .txDelete t key =>
    match w.txs t with
    | none => (.absent, w)
    | some tx =>
      let r := tx.delete w.store.map key
      (.removed r.1, w.setTx t (some r.2))
  | .txCommit t =>
    match w.txs t with
    | none => (.absent, w)
    | some tx =>
      let r := tx.commit w.store
      (.done r.1, { w.setTx t none with store := r.2 })
  | .txRollback t =>
    match w.txs t with
    | none => (.absent, w)
    | some _ => (.done (.ok ()), w.setTx t none)

def run (w : BTreeWorld) : List BTreeCall → List (BTreeCall × BTreeReply) × BTreeWorld
  | [] => ([], w)
  | c :: calls =>
    let r := w.call c
    let rest := r.2.run calls
    ((c, r.1) :: rest.1, rest.2)

end BTreeWorld

/-- The writes transaction `t` holds after one more call. -/
def stagedStep (t : Nat) (ops : List Op) : BTreeCall × BTreeReply → List Op
  | (.beginTx u, _) => if t = u then [] else ops
  | (.txSet u key value, .value (.ok _)) => if t = u then ops ++ [(key, some value)] else ops
  | (.txDelete u key, .removed (.ok true)) => if t = u then ops ++ [(key, none)] else ops
  | _ => ops

def stagedOps (t : Nat) (trace : List (BTreeCall × BTreeReply)) : List Op :=
  trace.foldl (stagedStep t) []

/-! ## What one call publishes -/

theorem Subscribers.log_notify (s : Subscribers) (e : ChangeEvent) :
    (s.notify e).log = s.log ++ [⟨e, s.seq⟩] := by
  rw [Subscribers.notify, Subscribers.deliver, Subscribers.sendFrom_rest]
  rfl

theorem Subscribers.seq_notify (s : Subscribers) (e : ChangeEvent) :
    (s.notify e).seq = s.seq + 1 := by
  rw [Subscribers.notify, Subscribers.deliver, Subscribers.sendFrom_rest]
  rfl

/-- From `s` to `s'` exactly these events are published, with consecutive numbers. -/
structure Publishes (s s' : BTree) (events : List Published) : Prop where
  log : s'.subscribers.log = s.subscribers.log ++ events
  numbers : events.map Published.seq = List.range' s.subscribers.seq events.length
  next : s'.subscribers.seq = s.subscribers.seq + events.length

namespace Publishes

theorem refl (s : BTree) : Publishes s s [] := ⟨(List.append_nil _).symm, rfl, rfl⟩

theorem trans {s1 s2 s3 : BTree} {a b : List Published} (h1 : Publishes s1 s2 a)
    (h2 : Publishes s2 s3 b) : Publishes s1 s3 (a ++ b) := by
  refine ⟨by rw [h2.log, h1.log, List.append_assoc], ?_, ?_⟩
  · rw [List.map_append, h1.numbers, h2.numbers, h1.next, List.length_append, List.range'_append_1]
  · rw [h2.next, h1.next, List.length_append, Nat.add_assoc]

theorem notify (s : BTree) (e : ChangeEvent) :
    Publishes s (s.notify e) [⟨e, s.subscribers.seq⟩] :=
  ⟨s.subscribers.log_notify e, rfl, s.subscribers.seq_notify e⟩

/-- The last loop of `commit`. -/
theorem notifyAll (s : BTree) (staged : List ChangeEvent) :
    ∃ events, Publishes s (staged.foldl BTree.notify s) events ∧
      events.map Published.event = staged ∧ (staged.foldl BTree.notify s).map = s.map := by
  induction staged generalizing s with
  | nil => exact ⟨[], refl s, rfl, rfl⟩
  | cons e staged ih =>
    obtain ⟨events, hpub, hevents, hmap⟩ := ih (s.notify e)
    exact ⟨_ :: events, (notify s e).trans hpub, by rw [List.map_cons, hevents], hmap⟩

end Publishes

structure Logged (s s' : BTree) (events : List Published) : Prop where
  publishes : Publishes s s' events
  replay : replay s.map events = s'.map

theorem Logged.refl (s : BTree) : Logged s s [] := ⟨.refl s, rfl⟩

theorem Logged.trans {s1 s2 s3 : BTree} {a b : List Published} (h1 : Logged s1 s2 a)
    (h2 : Logged s2 s3 b) : Logged s1 s3 (a ++ b) :=
  ⟨h1.publishes.trans h2.publishes, by rw [replay_append, h1.replay, h2.replay]⟩

/-- A direct write publishes itself. -/
theorem Logged.write (s : BTree) (e : ChangeEvent) :
    Logged s ({ s with map := Plain.apply s.map e.op }.notify e) [⟨e, s.subscribers.seq⟩] :=
  ⟨⟨s.subscribers.log_notify e, rfl, s.subscribers.seq_notify e⟩, rfl⟩

theorem BTree.setBytes_logged (s : BTree) (key : Key) (value : Bytes) :
    (∃ events, Logged s (s.setBytes key value).2 events) ∧
      ((∃ e, (s.setBytes key value).1 = .error e) → (s.setBytes key value).2 = s) := by
  unfold BTree.setBytes
  split
  · exact ⟨⟨[], .refl s⟩, fun _ => rfl⟩
  · refine ⟨⟨_, Logged.write s ⟨key, .set, s.map.get? key, some value⟩⟩, ?_⟩
    rintro ⟨e, he⟩
    cases he

theorem BTree.delete_logged (s : BTree) (key : Key) :
    (∃ events, Logged s (s.delete key).2 events) ∧ ∃ b, (s.delete key).1 = .ok b := by
  unfold BTree.delete
  cases hold : s.map.get? key with
  | some v => exact ⟨⟨_, Logged.write s ⟨key, .delete, some v, none⟩⟩, _, rfl⟩
  | none =>
    have hsame : s.map.erase key = s.map := by
      apply SortedMap.ext_get
      intro k
      rw [SortedMap.get?_erase]
      split
      · rename_i hk
        rw [hk, hold]
      · rfl
    refine ⟨⟨[], ?_⟩, _, rfl⟩
    rw [hsame]
    exact .refl s

theorem BTreeTx.applyOverlay_eq (map : BTreeStore) (overlay : List Op) :
    applyOverlay map overlay = Plain.applyAll map overlay := by
  induction overlay generalizing map with
  | nil => rfl
  | cons op overlay ih =>
    obtain ⟨key, value⟩ := op
    cases value with
    | some v | none => exact ih _

/-- A commit that goes through publishes the staged events, which replay the overlay; a
rejected one changes nothing. -/
theorem BTreeTx.commit_logged {tx : BTreeTx} (h : Staged tx.overlay tx.staged) (s : BTree) :
    (∃ e, tx.commit s = (.error e, s)) ∨ (tx.commit s).1 = .ok () ∧
      ∃ events, Logged s (tx.commit s).2 events ∧ events.map Published.event = tx.staged := by
  unfold BTreeTx.commit
  split
  · exact .inl ⟨_, rfl⟩
  · refine .inr ⟨rfl, ?_⟩
    obtain ⟨events, hpub, hevents, hmap⟩ := Publishes.notifyAll
      { s with map := applyOverlay s.map tx.overlay.toList } tx.staged
    refine ⟨events, ⟨⟨hpub.log, hpub.numbers, hpub.next⟩, ?_⟩, hevents⟩
    rw [hmap]
    show Plain.applyAll s.map (events.map (ChangeEvent.op ∘ Published.event)) = _
    rw [← List.map_map, hevents, h.applyAll, applyOverlay_eq]

/-! ## Whole runs -/

/-- The open transactions hold what was staged in them, and nothing else. -/
def BTreeWorld.Holds (w : BTreeWorld) (ops : Nat → List Op) : Prop :=
  ∀ t tx, w.txs t = some tx →
    Staged tx.overlay tx.staged ∧ ∀ k, tx.overlay.get? k = (ops t).reverse.lookup k

namespace BTreeWorld

variable {ops : Nat → List Op} {w : BTreeWorld} {t : Nat}

variable (h : w.Holds ops)

include h

theorem Holds.update {ops' : Nat → List Op} {tx : Option BTreeTx}
    (hops : ∀ u, u ≠ t → ops' u = ops u) (htx : ∀ x, tx = some x →
      Staged x.overlay x.staged ∧ ∀ k, x.overlay.get? k = (ops' t).reverse.lookup k) :
    (w.setTx t tx).Holds ops' := by
  intro u x hx
  have hx : Function.update w.txs t tx u = some x := hx
  by_cases hu : u = t
  · subst hu
    rw [Function.update_self] at hx
    exact htx x hx
  · rw [Function.update_of_ne hu] at hx
    rw [hops u hu]
    exact h u x hx

/-- One more write of a transaction. -/
theorem Holds.record {tx : BTreeTx} (htx : w.txs t = some tx) (e : ChangeEvent) :
    (w.setTx t (some (tx.record e))).Holds fun u => if u = t then ops u ++ [e.op] else ops u := by
  obtain ⟨hstaged, hlast⟩ := h t tx htx
  refine h.update (fun u hu => if_neg hu) ?_
  rintro _ ⟨⟩
  refine ⟨hstaged.stage e, fun k => ?_⟩
  show (tx.overlay.insert e.key e.newValue).get? k = (if t = t then _ else _ : List Op).reverse.lookup k
  rw [if_pos rfl, List.reverse_append, List.reverse_singleton, List.singleton_append,
    ChangeEvent.op, SortedMap.lookup_cons_ite, SortedMap.get?_insert, hlast]

theorem Holds.close (t : Nat) : (w.setTx t none).Holds ops :=
  h.update (fun _ _ => rfl) nofun

theorem Holds.same {tx : BTreeTx} (htx : w.txs t = some tx) : (w.setTx t (some tx)).Holds ops := by
  refine h.update (fun _ _ => rfl) ?_
  rintro _ ⟨⟩
  exact h t tx htx

/-- One call: what it publishes replays its change of the map, and the open transactions
hold what was staged in them. -/
theorem call_logged (c : BTreeCall) : (∃ events, Logged w.store (w.call c).2.store events) ∧
      (w.call c).2.Holds fun t => stagedStep t (ops t) (c, (w.call c).1) := by
  cases c with
  | set key value => exact ⟨(w.store.setBytes_logged key value).1, h⟩
  | delete key => exact ⟨(w.store.delete_logged key).1, h⟩
  | addValidator v => exact ⟨⟨[], ⟨(List.append_nil _).symm, rfl, rfl⟩, rfl⟩, h⟩
  | beginTx t =>
    refine ⟨⟨[], .refl _⟩, h.update (fun u hu => if_neg hu) ?_⟩
    rintro _ ⟨⟩
    refine ⟨.empty, fun k => ?_⟩
    show none = (if t = t then [] else _ : List Op).reverse.lookup k
    rw [if_pos rfl]
    rfl
  | txSet t key value =>
    rw [call]
    cases htx : w.txs t with
    | none => exact ⟨⟨[], .refl _⟩, h⟩
    | some tx =>
      refine ⟨⟨[], .refl _⟩, ?_⟩
      dsimp only
      unfold BTreeTx.setBytes
      split
      · exact h.same htx
      · exact h.record htx ⟨key, .set, tx.getBytes w.store.map key, some value⟩
  | txDelete t key =>
    rw [call]
    cases htx : w.txs t with
    | none => exact ⟨⟨[], .refl _⟩, h⟩
    | some tx =>
      refine ⟨⟨[], .refl _⟩, ?_⟩
      dsimp only
      by_cases hold : (tx.getBytes w.store.map key).isSome = true
      · have heq : tx.delete w.store.map key = (.ok true,
            tx.record ⟨key, .delete, tx.getBytes w.store.map key, none⟩) := if_pos hold
        rw [heq]
        exact h.record htx _
      · have heq : tx.delete w.store.map key = (.ok false, tx) := if_neg hold
        rw [heq]
        exact h.same htx
  | txCommit t =>
    rw [call]
    cases htx : w.txs t with
    | none => exact ⟨⟨[], .refl _⟩, h⟩
    | some tx =>
      refine ⟨?_, h.close t⟩
      rcases tx.commit_logged (h t tx htx).1 w.store with ⟨e, he⟩ | ⟨-, events, hlog, -⟩
      · dsimp only
        rw [he]
        exact ⟨[], .refl _⟩
      · exact ⟨events, hlog⟩
  | txRollback t =>
    rw [call]
    cases htx : w.txs t with
    | none => exact ⟨⟨[], .refl _⟩, h⟩
    | some tx => exact ⟨⟨[], .refl _⟩, h.close t⟩

/-- A run from a state whose transactions hold `ops`. -/
theorem run_logged (calls : List BTreeCall) :
    (∃ events, Logged w.store (w.run calls).2.store events) ∧
      (w.run calls).2.Holds fun t => (w.run calls).1.foldl (stagedStep t) (ops t) := by
  induction calls generalizing w ops with
  | nil => exact ⟨⟨[], .refl _⟩, h⟩
  | cons c calls ih =>
    obtain ⟨⟨first, hfirst⟩, hholds⟩ := call_logged h c
    obtain ⟨⟨rest, hrest⟩, hend⟩ := ih hholds
    exact ⟨⟨first ++ rest, hfirst.trans hrest⟩, hend⟩

/-- A rejected call and a rollback leave the store as it was. -/
theorem call_rejected {c : BTreeCall} (hc : (w.call c).1.rejects ∨ ∃ t, c = .txRollback t) :
    (w.call c).2.store = w.store := by
  cases c with
  | set key value =>
    rcases hc with hc | ⟨t, ht⟩
    · refine (w.store.setBytes_logged key value).2 ?_
      cases hr : (w.store.setBytes key value).1 with
      | ok prev => rw [call, hr] at hc; cases hc
      | error e => exact ⟨e, rfl⟩
    · cases ht
  | delete key =>
    rcases hc with hc | ⟨t, ht⟩
    · obtain ⟨b, hb⟩ := (w.store.delete_logged key).2
      rw [call, hb] at hc
      cases hc
    · cases ht
  | addValidator v =>
    rcases hc with hc | ⟨t, ht⟩
    · cases hc
    · cases ht
  | beginTx t => rfl
  | txSet t key value =>
    rw [call]
    cases w.txs t <;> rfl
  | txDelete t key =>
    rw [call]
    cases w.txs t <;> rfl
  | txCommit t =>
    rcases hc with hc | ⟨t, ht⟩
    · rw [call] at hc ⊢
      cases htx : w.txs t with
      | none => rfl
      | some tx =>
        rw [htx] at hc
        rcases tx.commit_logged (h t tx htx).1 w.store with ⟨e, he⟩ | ⟨hok, -⟩
        · dsimp only
          rw [he]
        · dsimp only at hc
          rw [hok] at hc
          cases hc
    · cases ht
  | txRollback t =>
    rw [call]
    cases w.txs t <;> rfl

/-- A commit that goes through publishes the writes staged last. -/
theorem commit_publishes (hok : (w.call (.txCommit t)).1 = .done (.ok ())) :
    ∃ events, (w.call (.txCommit t)).2.store.subscribers.log = w.store.subscribers.log ++ events ∧
      (events.map fun e => e.event.key).Nodup ∧
      ∀ k, ((events.find? fun e => e.event.key = k).map fun e => e.event.newValue) =
        (ops t).reverse.lookup k := by
  rw [call] at hok ⊢
  cases htx : w.txs t with
  | none => rw [htx] at hok; cases hok
  | some tx =>
    rw [htx] at hok
    obtain ⟨hstaged, hlast⟩ := h t tx htx
    rcases tx.commit_logged hstaged w.store with ⟨e, he⟩ | ⟨-, events, hlog, hevents⟩
    · dsimp only at hok
      rw [he] at hok
      cases hok
    · refine ⟨events, hlog.publishes.log, ?_, fun k => ?_⟩
      · show (events.map (ChangeEvent.key ∘ Published.event)).Nodup
        rw [← List.map_map, hevents]
        exact hstaged.distinct
      · rw [← hlast, hstaged.overlay, ← hevents, List.find?_map, Option.map_map]
        rfl

end BTreeWorld

/-- In every run of direct writes and transactions on a store: replaying the published
events gives the map, and their numbers are consecutive; a commit that goes through
publishes one event for each key staged in it, with the value staged last; rejected calls
and rollbacks leave the store, its log included, as it was. -/
theorem events_replay (s : BTree) (calls : List BTreeCall) :
    (∃ events, ((BTreeWorld.start s).run calls).2.store.subscribers.log =
        s.subscribers.log ++ events ∧
      events.map Published.seq = List.range' s.subscribers.seq events.length ∧
      replay s.map events = ((BTreeWorld.start s).run calls).2.store.map) ∧
    ∀ c, let w := ((BTreeWorld.start s).run calls).2
      ((w.call c).1.rejects ∨ (∃ t, c = .txRollback t) → (w.call c).2.store = w.store) ∧
      ∀ t, c = .txCommit t → (w.call c).1 = .done (.ok ()) →
        ∃ events, (w.call c).2.store.subscribers.log = w.store.subscribers.log ++ events ∧
          (events.map fun e => e.event.key).Nodup ∧
          ∀ k, ((events.find? fun e => e.event.key = k).map fun e => e.event.newValue) =
            (stagedOps t ((BTreeWorld.start s).run calls).1).reverse.lookup k := by
  have hstart : (BTreeWorld.start s).Holds fun _ => [] := nofun
  obtain ⟨⟨events, hlog⟩, hholds⟩ := BTreeWorld.run_logged hstart calls
  refine ⟨⟨events, hlog.publishes.log, hlog.publishes.numbers, hlog.replay⟩, fun c => ?_⟩
  refine ⟨BTreeWorld.call_rejected hholds, ?_⟩
  rintro t rfl hok
  exact BTreeWorld.commit_publishes hholds hok

end OxKv
