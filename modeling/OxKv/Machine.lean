import OxKv.Lib.Logic
import OxKv.Format.Blob
import OxKv.Merge

/-!
The shared state of the engine and its atomic actions: storage calls, and the
critical sections of the locks and counters inside one store handle.
Clones of a handle are threads with the same instance number.

The machine also records a history of the actions that the correctness
statements talk about (`What`); no action reads it.
-/

namespace OxKv

/-! ## State -/

/-- `PendingWrite`; the responder is the answer slot of its id. -/
structure PendingWrite where
  id : Nat
  key : Key
  value : Bytes
  encoded : Bytes
  deriving DecidableEq

inductive ChangeKind where
  | set
  | delete
  deriving DecidableEq

structure ChangeEvent where
  key : Key
  kind : ChangeKind
  oldValue : Option Bytes
  newValue : Option Bytes
  deriving DecidableEq

/-- The shared fields of an `OxKvStore` and its clones. -/
structure Inst where
  epoch : Nat
  session : String
  mem : MemMap
  walSeq : Nat
  sstSeq : Nat
  walBuffer : List Op
  cache : Option (Manifest × Etag)
  skipRevalidation : Bool
  /-- the thread that holds `write_gate` -/
  gate : Option Nat
  pending : List PendingWrite
  sstCache : ObjectPath → Option SstFile
  events : List ChangeEvent

/-- A handle as its builder creates it. -/
def Inst.new (epoch : Nat) (session : String) (skip : Bool) : Inst where
  epoch := epoch
  session := session
  mem := SortedMap.empty
  walSeq := 0
  sstSeq := 0
  walBuffer := []
  cache := none
  skipRevalidation := skip
  gate := none
  pending := []
  sstCache := fun _ => none
  events := []

inductive Reply where
  | done (r : Res Unit)
  | flag (r : Res Bool)
  | value (r : Res (Option Bytes))
  | rows (r : Res (List KeyValue))
  | acquired (r : Res OwnershipRecord)
  deriving DecidableEq

/-- What the callers of the engine report. -/
inductive Mark where
  | invoked (call : Nat)
  | returned (call : Nat) (r : Reply)
  deriving DecidableEq

/-- The entries of the history. -/
inductive What where
  /-- a conditional write succeeded -/
  | stored (p : ObjectPath) (o : Obj) (etag : Etag)
  /-- the manifest object was read -/
  | polled
  /-- operations were inserted into the MemTable -/
  | wrote (ops : List Op)
  /-- a flush took its MemTable snapshot -/
  | snapshot
  /-- a scan copied MemTable rows -/
  | copied
  /-- a write joined the group-commit queue -/
  | pushed (pw : PendingWrite)
  /-- a group-commit leader took these writes from the queue -/
  | drained (ids : List Nat)
  /-- the leader answered a write -/
  | sent (id : Nat) (r : Res Unit)
  /-- the write gate was released -/
  | unlocked
  | mark (m : Mark)
  deriving DecidableEq

structure Who where
  thread : Nat
  inst : Nat
  deriving DecidableEq

/-- What the threads did, newest first. -/
abbrev History := List (Who × What)

structure World where
  st : Storage
  inst : Nat → Inst
  /-- `PENDING_CTR` -/
  pendingCtr : Nat
  /-- the oneshot channel of each pending write -/
  answers : Nat → Option (Res Unit)
  hist : History

/-! ## Choices of the environment -/

inductive Fault where
  /-- the storage call fails without effect -/
  | backend
  /-- the conditional write reports a conflict and has no effect -/
  | conflict
  deriving DecidableEq

structure Choice where
  fault : Option Fault
  /-- a cached manifest is still fresh; a cached file was not evicted -/
  hit : Bool
  deriving DecidableEq

def Fault.error : Fault → StoreError
  | .backend => .storage "unavailable"
  | .conflict => .casConflict "unavailable"

/-! ## Actions -/

inductive Act : Type → Type where
  | get (p : ObjectPath) : Act (Res (Obj × Etag))
  | getOpts (p : ObjectPath) (ifNoneMatch : Etag) : Act (Res (Obj × Etag))
  | putOpts (p : ObjectPath) (o : Obj) (mode : PutMode) : Act (Res Etag)
  | delete (p : ObjectPath) : Act (Res Unit)
  | list : Act (Res (List ObjectPath))
  | memGet (key : Key) : Act (Option (Option Bytes))
  | memRows (d : Direction) (c : Cursor) : Act (List Op)
  | memSnapshot (force : Bool) : Act (Option MemMap)
  | memInsert (ops : List Op) : Act Unit
  | memReplay (ops : List Op) : Act Unit
  | memDiscard (snapshot : MemMap) : Act Unit
  | nextWalSeq : Act Nat
  | nextSstSeq : Act Nat
  | setSeqs (walSeq sstSeq : Nat) : Act Unit
  | bufferPush (op : Op) : Act Unit
  | bufferTake : Act (List Op)
  | bufferRestore (ops : List Op) : Act Unit
  | cacheGet (ttl : Bool) : Act (Option (Manifest × Etag) × Bool)
  | cacheUpdate (m : Manifest) (etag : Etag) : Act Unit
  | cacheClear : Act Unit
  | sstCacheGet (p : ObjectPath) : Act (Option SstFile)
  | sstCacheInsert (p : ObjectPath) (f : SstFile) : Act Unit
  | sstCacheRemove (p : ObjectPath) : Act Unit
  | lockGate : Act Unit
  | unlockGate : Act Unit
  | nextPendingId : Act Nat
  | pushPending (w : PendingWrite) : Act Nat
  | drainPending (max : Nat) : Act (List PendingWrite)
  | send (id : Nat) (r : Res Unit) : Act Unit
  | tryRecv (id : Nat) : Act (Option (Res Unit))
  | recv (id : Nat) : Act (Res Unit)
  | notify (e : ChangeEvent) : Act Unit
  | newHandle (epoch : Nat) (session : String) (skip : Bool) : Act Unit
  | mark (m : Mark) : Act Unit

namespace World

def setInst (w : World) (i : Nat) (x : Inst) : World :=
  { w with inst := Function.update w.inst i x }

def log (w : World) (who : Who) (e : What) : World := { w with hist := (who, e) :: w.hist }

end World

/-- The size estimate that triggers an automatic flush. -/
def memEstimate (m : MemMap) : Nat :=
  (m.toList.map fun e => (keyBytes e.1).length + (e.2.getD []).length + 8).sum

/-- The entries `discard_flushed` leaves: those that differ from the snapshot. -/
def discardFlushed (mem snapshot : MemMap) : MemMap :=
  mem.filter fun k v => decide (snapshot.get? k ≠ some v)

/-- One atomic action of thread `who`; `none` when it has to wait. -/
def exec {β : Type} (who : Who) (c : Choice) (a : Act β) (w : World) : Option (β × World) :=
  let x := w.inst who.inst
  let set (y : Inst) : World := w.setInst who.inst y
  match a with
  | .get p =>
    let w := if p = .manifest then w.log who .polled else w
    match c.fault with
    | some _ => some (.error Fault.backend.error, w)
    | none => some (w.st.get p, w)
  | .getOpts p etag =>
    let w := if p = .manifest then w.log who .polled else w
    match c.fault with
    | some _ => some (.error Fault.backend.error, w)
    | none => some (w.st.getOpts p etag, w)
  | .putOpts p o mode =>
    match c.fault with
    | some f => some (.error f.error, w)
    | none =>
      match w.st.putOpts p o mode with
      | (.ok e, st) => some (.ok e, { w with st := st }.log who (.stored p o e))
      | (.error err, _) => some (.error err, w)
  | .delete p =>
    match c.fault with
    | some _ => some (.error Fault.backend.error, w)
    | none => some (.ok (), { w with st := w.st.delete p })
  | .list =>
    match c.fault with
    | some _ => some (.error Fault.backend.error, w)
    | none => some (.ok w.st.list, w)
  | .memGet key => some (x.mem.get? key, w)
  | .memRows d cur => some (filterRows x.mem d cur, w.log who .copied)
  | .memSnapshot force =>
    if x.mem.isEmpty then some (none, w)
    else if !force && decide (memEstimate x.mem < 32 * 1024 * 1024) then some (none, w)
    else some (some x.mem, w.log who .snapshot)
  | .memInsert ops =>
    some ((), (set { x with mem := x.mem.insertAll ops }).log who (.wrote ops))
  | .memReplay ops => some ((), set { x with mem := x.mem.insertAll ops })
  | .memDiscard snapshot => some ((), set { x with mem := discardFlushed x.mem snapshot })
  | .nextWalSeq => some (x.walSeq, set { x with walSeq := x.walSeq + 1 })
  | .nextSstSeq => some (x.sstSeq, set { x with sstSeq := x.sstSeq + 1 })
  | .setSeqs walSeq sstSeq => some ((), set { x with walSeq := walSeq, sstSeq := sstSeq })
  | .bufferPush op => some ((), set { x with walBuffer := x.walBuffer ++ [op] })
  | .bufferTake => some (x.walBuffer, set { x with walBuffer := [] })
  | .bufferRestore ops => some ((), set { x with walBuffer := ops ++ x.walBuffer })
  | .cacheGet ttl => some ((if ttl && c.hit then x.cache else none, x.skipRevalidation), w)
  | .cacheUpdate m etag => some ((), set { x with cache := some (m, etag) })
  | .cacheClear => some ((), set { x with cache := none })
  | .sstCacheGet p => some (if c.hit then x.sstCache p else none, w)
  | .sstCacheInsert p f => some ((), set { x with sstCache := Function.update x.sstCache p (some f) })
  | .sstCacheRemove p => some ((), set { x with sstCache := Function.update x.sstCache p none })
  | .lockGate =>
    match x.gate with
    | some _ => none
    | none => some ((), set { x with gate := some who.thread })
  | .unlockGate => some ((), (set { x with gate := none }).log who .unlocked)
  | .nextPendingId => some (w.pendingCtr, { w with pendingCtr := w.pendingCtr + 1 })
  | .pushPending pw =>
    -- the length is only used to bound the loop of the pushing call
    some (x.pending.length + 1, (set { x with pending := x.pending ++ [pw] }).log who (.pushed pw))
  | .drainPending max =>
    some (x.pending.take max, (set { x with pending := x.pending.drop max }).log who
      (.drained ((x.pending.take max).map PendingWrite.id)))
  | .send id r =>
    some ((), { w with answers := Function.update w.answers id (some r) }.log who (.sent id r))
  | .tryRecv id => some (w.answers id, w)
  | .recv id =>
    match w.answers id with
    | none => none
    | some r => some (r, w)
  | .notify e => some ((), set { x with events := x.events ++ [e] })
  | .newHandle epoch session skip => some ((), set (Inst.new epoch session skip))
  | .mark m => some ((), w.log who (.mark m))

def engine : Machine Act where
  State := World
  Choice := Choice
  Who := Who
  exec := exec

/-! ## Field lemmas -/

namespace World

variable (w : World) (who : Who) (i : Nat) (x : Inst) (e : What)

@[simp] theorem setInst_st : (w.setInst i x).st = w.st := rfl
@[simp] theorem setInst_hist : (w.setInst i x).hist = w.hist := rfl
@[simp] theorem setInst_answers : (w.setInst i x).answers = w.answers := rfl
@[simp] theorem setInst_pendingCtr : (w.setInst i x).pendingCtr = w.pendingCtr := rfl
@[simp] theorem setInst_inst_self : (w.setInst i x).inst i = x := Function.update_self ..
theorem setInst_inst_ne {j : Nat} (h : j ≠ i) : (w.setInst i x).inst j = w.inst j :=
  Function.update_of_ne h ..

variable {w i x} in
theorem forall_setInst (P : Inst → Prop) (hx : P x) (h : ∀ j, P (w.inst j)) (j : Nat) :
    P ((w.setInst i x).inst j) :=
  (Function.forall_update_iff w.inst fun _ => P).mpr ⟨hx, fun j _ => h j⟩ j

variable {w i x} in
theorem setInst_field {β : Type} (f : Inst → β) (hf : f x = f (w.inst i)) (j : Nat) :
    f ((w.setInst i x).inst j) = f (w.inst j) := by
  by_cases hj : j = i
  · rw [hj, setInst_inst_self, hf]
  · rw [setInst_inst_ne w i x hj]

@[simp] theorem log_st : (w.log who e).st = w.st := rfl
@[simp] theorem log_inst : (w.log who e).inst = w.inst := rfl
@[simp] theorem log_answers : (w.log who e).answers = w.answers := rfl
@[simp] theorem log_pendingCtr : (w.log who e).pendingCtr = w.pendingCtr := rfl
@[simp] theorem log_hist : (w.log who e).hist = (who, e) :: w.hist := rfl
end World

/-- An action only adds to the history. -/
theorem exec_hist {β : Type} {who : Who} {c : Choice} {a : Act β} {w w' : World} {r : β}
    (h : exec who c a w = some (r, w')) : w.hist <:+ w'.hist := by
  cases a <;> simp only [exec] at h
  all_goals (repeat' split at h)
  all_goals first
    | (cases h; done)
    | (injection h with h; injection h with h1 h2; subst h2; simp)

/-! ## Storage reads -/

section

variable {who : Who} {c : Choice} {p : ObjectPath} {etag : Etag} {w t : World} {r : Res (Obj × Etag)}
  {x : Obj × Etag}

/-- A read may fail; one of the manifest is noted. -/
theorem read_cases {f : Storage → Res (Obj × Etag)} {w' : World}
    (hw : (if p = .manifest then w.log who .polled else w) = w')
    (h : (match c.fault with
      | some _ => some (.error Fault.backend.error, w')
      | none => some (f w'.st, w')) = some (r, t)) :
    (t = w ∨ t = w.log who .polled) ∧
      ((∃ f, c.fault = some f) ∧ r = .error Fault.backend.error ∨ r = f w.st) := by
  have ht : w' = w ∨ w' = w.log who .polled := by
    rw [← hw]
    split
    · exact .inr rfl
    · exact .inl rfl
  have hst : w'.st = w.st := by rcases ht with rfl | rfl <;> rfl
  cases hf : c.fault <;> rw [hf] at h <;> cases h
  · exact ⟨ht, .inr (by rw [hst])⟩
  · exact ⟨ht, .inl ⟨⟨_, rfl⟩, rfl⟩⟩

theorem exec_get_cases (h : exec who c (.get p) w = some (r, t)) :
    (t = w ∨ t = w.log who .polled) ∧
      ((∃ f, c.fault = some f) ∧ r = .error Fault.backend.error ∨ r = w.st.get p) :=
  read_cases (f := (·.get p)) rfl h

theorem exec_getOpts_cases (h : exec who c (.getOpts p etag) w = some (r, t)) :
    (t = w ∨ t = w.log who .polled) ∧
      ((∃ f, c.fault = some f) ∧ r = .error Fault.backend.error ∨ r = w.st.getOpts p etag) :=
  read_cases (f := (·.getOpts p etag)) rfl h

theorem exec_get_ok (h : exec who c (.get p) w = some (.ok x, t)) : w.st.lookup p = some x := by
  obtain ⟨-, ⟨-, hr⟩ | hr⟩ := exec_get_cases h
  · cases hr
  · exact Storage.get_ok.mp hr.symm

theorem exec_getOpts_ok (h : exec who c (.getOpts p etag) w = some (.ok x, t)) :
    w.st.lookup p = some x := by
  obtain ⟨-, ⟨-, hr⟩ | hr⟩ := exec_getOpts_cases h
  · cases hr
  · exact Storage.getOpts_ok hr.symm

end

end OxKv
