import OxKv.Engine.Maintain

/-!
The write paths of `OxKvStore`: the durable append, staging, group commit,
deletes, and the public operations that take the write gate.
-/

namespace OxKv

/-- `MAX_GROUP_WRITES` -/
def maxGroupWrites : Nat := 256

/-! ## Durable append -/

def applyMem (updates : List Op) : Io Unit :=
  if updates.isEmpty then pure () else Io.act (.memInsert updates)

/-- The attempts of `append_wal_locked` to list the WAL file. -/
def listWal (cx : Ctx) (id : ObjectPath) (updates : List Op) : Nat → Io Unit
  | 0 => return ()
  | n + 1 => do
    let (m, etag) ← loadManifest cx true
    if m.wal.contains id then
      applyMem updates
      maintainAfterWrite cx m.wal.length
    else
      let m' := { m with wal := m.wal ++ [id] }.bump
      match ← Io.attempt (casManifest m' etag) with
      | .ok newEtag =>
        Io.act (.cacheUpdate m' newEtag)
        applyMem updates
        maintainAfterWrite cx m'.wal.length
      | .error (.casConflict detail) =>
        Io.act .cacheClear
        if n = 0 then
          Io.fail (.casConflict ("wal manifest CAS conflict after retries: " ++ detail))
        else listWal cx id updates n
      | .error e => Io.fail e

/-- `append_wal_locked`: WAL object, ownership check, manifest, MemTable. -/
def appendWalLocked (cx : Ctx) (payload : Bytes) (updates : List Op) : Io Unit := do
  let seq ← Io.act .nextWalSeq
  let id := ObjectPath.wal cx.epoch seq
  createVerified id (.bytes payload) "wal" seq
  checkOwnership cx "fenced: ownership missing after wal put"
  listWal cx id updates 4

/-! ## Staging -/

/-- `drain_staged_locked`: staged operations become durable; on failure they go
back to the front of the buffer. -/
def drainStagedLocked (cx : Ctx) : Io Unit := do
  let ops ← Io.act .bufferTake
  if ops.isEmpty then return ()
  else
    match encodeOps ops with
    | .error e =>
      Io.act (.bufferRestore ops)
      Io.fail e
    | .ok payload =>
      match ← Io.attempt (appendWalLocked cx payload []) with
      | .ok _ => return ()
      | .error e =>
        Io.act (.bufferRestore ops)
        Io.fail e

/-- `stage_set` and `stage_delete`: the MemTable first, then the buffer, without
the gate. -/
def stage (op : Op) : Io Unit := do
  Io.act (.memInsert [op])
  Io.act (.bufferPush op)

def stageSet (key : Key) (value : Bytes) : Io Unit := stage (key, some value)

def stageDelete (key : Key) : Io Unit := stage (key, none)

/-! ## The write gate -/

/-- Run under `write_gate`, releasing it on every path. -/
def withGate {α : Type} (p : Io α) : Io α := do
  Io.act .lockGate
  let r ← Io.attempt p
  Io.act .unlockGate
  Io.ofRes r

def flush (cx : Ctx) : Io Unit := withGate (drainStagedLocked cx)

def flushMemToSstForce (cx : Ctx) : Io (Option SstMeta) := withGate (flushMemToSstInner cx true)

def flushMemToSst (cx : Ctx) : Io (Option SstMeta) := withGate (flushMemToSstInner cx false)

def gcWal (cx : Ctx) : Io Nat := withGate (gcWalInner cx)

def gcOrphans (cx : Ctx) : Io Nat := withGate (gcOrphansInner cx)

def compact (cx : Ctx) : Io (Option SstMeta) := withGate (compactInner cx)

/-! ## Group commit -/

/-- `persist_batch`: staged operations first, then the batch as one WAL file. -/
def persistBatch (cx : Ctx) (batch : List PendingWrite) : Io Unit := do
  if batch.isEmpty then return ()
  else
    drainStagedLocked cx
    appendWalLocked cx (batch.flatMap PendingWrite.encoded)
      (batch.map fun w => (w.key, some w.value))

def sendAll (result : Res Unit) : List PendingWrite → Io Unit
  | [] => return ()
  | w :: ws => do
    Io.act (.send w.id result)
    sendAll result ws

/-- The loop of `put_bytes` under the gate. Each round that does not serve the
caller's own write moves it towards the front of the queue, so its position is
enough fuel. -/
def commitLoop (cx : Ctx) (id : Nat) : Nat → Io Unit
  | 0 => Io.fail (.other "group commit made no progress")
  | fuel + 1 => do
    match ← Io.act (.tryRecv id) with
    | some result => Io.ofRes result
    | none =>
      let batch ← Io.act (.drainPending maxGroupWrites)
      if batch.isEmpty then Io.call (.recv id)
      else
        let result ← Io.attempt (persistBatch cx batch)
        sendAll result batch
        if batch.any (fun w => w.id = id) then Io.ofRes result
        else commitLoop cx id fuel

def putBytes (cx : Ctx) (key : Key) (value : Bytes) : Io Unit := do
  let encoded ← Io.ofRes
    ((encodeRecord key value).mapError (storageFail "encode wal: "))
  let id ← Io.act .nextPendingId
  let position ← Io.act (.pushPending ⟨id, key, value, encoded⟩)
  withGate (commitLoop cx id position)

/-! ## Deletes and reading writes -/

/-- The part of `delete` under the gate: the value that was deleted, if any. -/
def deleteLocked (cx : Ctx) (key : Key) : Io (Option Bytes) := do
  drainStagedLocked cx
  match ← getBytes cx key with
  | none => return none
  | some old =>
    let payload ← Io.ofRes (encodeOps [(key, none)])
    appendWalLocked cx payload [(key, none)]
    return some old

def delete (cx : Ctx) (key : Key) : Io Bool := do
  match ← withGate (deleteLocked cx key) with
  | none => return false
  | some old =>
    Io.act (.notify ⟨key, .delete, some old, none⟩)
    return true

/-- The validators read their view. -/
def Check.run (view : StoreView Io) : Check → Io Unit
  | .done r => Io.ofRes r
  | .get key next => do (next (← Io.attempt (view.get key))).run view
  | .has key next => do (next (← Io.attempt (view.has key))).run view
  | .gets limit d c next => do (next (← Io.attempt (view.getsBytes limit d c))).run view

def validateKey (cx : Ctx) (view : StoreView Io) (key : Key) (value : Bytes) : Io Unit :=
  (cx.check key value).run view

/-- The store as hooks see it. -/
def storeView (cx : Ctx) : StoreView Io := ⟨getBytes cx, has cx, getsBytes cx⟩

def setBytes (cx : Ctx) (key : Key) (value : Bytes) : Io (Option Bytes) := do
  validateKey cx (storeView cx) key value
  let prev ← getBytes cx key
  putBytes cx key value
  Io.act (.notify ⟨key, .set, prev, some value⟩)
  return prev

end OxKv
