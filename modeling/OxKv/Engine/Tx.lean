import OxKv.Engine.Store

/-!
`OxKvTx`: writes staged in a private overlay until `commit`. The overlay and the
staged events belong to the transaction handle, so they are passed explicitly.
-/

namespace OxKv

/-- The private state of a transaction. -/
structure Tx where
  overlay : MemMap
  staged : List ChangeEvent

/-- `begin_tx`. -/
def Tx.begin : Tx := ⟨SortedMap.empty, []⟩

/-- `stage`: a second event for a key keeps the first event's old value. -/
def stageEvent (staged : List ChangeEvent) (e : ChangeEvent) : List ChangeEvent :=
  match staged.find? (fun x => x.key = e.key) with
  | some first =>
    staged.map fun x => if x.key = e.key then { e with oldValue := first.oldValue } else x
  | none => staged ++ [e]

/-- `OxKvTx::get_bytes`. -/
def txGetBytes (cx : Ctx) (tx : Tx) (key : Key) : Io (Option Bytes) :=
  match tx.overlay.get? key with
  | some hit => resolveHit cx hit
  | none => getBytes cx key

/-- `OxKvTx::has`. -/
def txHas (cx : Ctx) (tx : Tx) (key : Key) : Io Bool := do
  return (← txGetBytes cx tx key).isSome

/-- `OxKvTx::gets_bytes`. -/
def txGetsBytes (cx : Ctx) (tx : Tx) (limit : Option Nat) (d : Direction) (c : Cursor) :
    Io (List KeyValue) :=
  retryOnceNotFound do
    let rows ← Io.act (.memRows d c)
    rangeLookup cx [filterRows tx.overlay d c, rows] limit d c

/-- The transaction as hooks see it. -/
def Tx.view (cx : Ctx) (tx : Tx) : StoreView Io :=
  ⟨txGetBytes cx tx, txHas cx tx, txGetsBytes cx tx⟩

/-- `OxKvTx::delete`. -/
def txDelete (cx : Ctx) (tx : Tx) (key : Key) : Io (Bool × Tx) := do
  match ← txGetBytes cx tx key with
  | none => return (false, tx)
  | some old =>
    return (true,
      ⟨tx.overlay.insert key none, stageEvent tx.staged ⟨key, .delete, some old, none⟩⟩)

/-- `OxKvTx::set_bytes`. -/
def txSetBytes (cx : Ctx) (tx : Tx) (key : Key) (value : Bytes) : Io (Option Bytes × Tx) := do
  validateKey cx (tx.view cx) key value
  let prev ← txGetBytes cx tx key
  return (prev,
    ⟨tx.overlay.insert key (some value), stageEvent tx.staged ⟨key, .set, prev, some value⟩⟩)

/-- `OxKvTx::put_bytes`. -/
def txPutBytes (cx : Ctx) (tx : Tx) (key : Key) (value : Bytes) : Io Tx := do
  let (_, tx) ← txSetBytes cx tx key value
  return tx

/-- A staged set is validated again at commit. -/
def revalidateEvent (cx : Ctx) (tx : Tx) (e : ChangeEvent) : Io Unit :=
  match e.kind, e.newValue with
  | .set, some value =>
    validateKey cx (revalidateView (tx.view cx) e.key e.oldValue) e.key value
  | _, _ => pure ()

def revalidate (cx : Ctx) (tx : Tx) : List ChangeEvent → Io Unit
  | [] => return ()
  | e :: es => do
    revalidateEvent cx tx e
    revalidate cx tx es

/-- The part of `commit` under the gate. -/
def commitLocked (cx : Ctx) (updates : List Op) : Io Bool := do
  if updates.isEmpty then return false
  else
    let payload ← Io.ofRes (encodeOps updates)
    drainStagedLocked cx
    appendWalLocked cx payload updates
    return true

def notifyAll : List ChangeEvent → Io Unit
  | [] => return ()
  | e :: es => do
    Io.act (.notify e)
    notifyAll es

/-- `OxKvTx::commit`. -/
def txCommit (cx : Ctx) (tx : Tx) : Io Unit := do
  revalidate cx tx tx.staged
  if ← withGate (commitLocked cx tx.overlay.toList) then notifyAll tx.staged
  else return ()

end OxKv
