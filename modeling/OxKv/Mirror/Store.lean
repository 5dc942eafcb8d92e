import OxKv.Mirror.Machine

/-!
The procedures of `CachedOxKvStore`: reads from the mirror, write-through, the paged
scan that fills the mirror, and the comparison with the manifest.
-/

namespace OxKv.Cached

/-! ## Poison -/

def isPoisoned : CachedIo Bool := do
  return (← CachedIo.act .state).poisoned.isSome

def rejectIfPoisoned : CachedIo Unit := do
  match (← CachedIo.act .state).poisoned with
  | some reason => .fail (.fenced reason)
  | none => return ()

def noteFenced : StoreError → CachedIo Unit
  | .fenced reason => CachedIo.act (.poison reason)
  | _ => return ()

/-! ## After a write -/

/-- `sync_after_write`: the manifest cache holds what the write just published,
unless that is more than an hour ago. -/
def syncAfterWrite : CachedIo Unit := do
  match ← CachedIo.core (Io.act (.cacheGet true)) with
  | (some (m, _), _) => CachedIo.act (.observe m)
  | (none, _) => return ()

/-- A write of the durable core; a `Fenced` failure poisons the mirror. -/
def writeThrough {α : Type} (p : Io α) : CachedIo α := do
  match ← Fallible.attempt (CachedIo.core p) with
  | .ok a => return a
  | .error e =>
    noteFenced e
    Fallible.fail e

/-! ## Records into the mirror -/

/-- The record loop of `finish_warm`. -/
def overlayRecords : List Op → CachedIo Unit
  | [] => return ()
  | (key, some raw) :: ops => do
    CachedIo.act (.mapPut key raw)
    CachedIo.act (.scanInsert key)
    overlayRecords ops
  | (key, none) :: ops => do
    CachedIo.act (.mapDelete key)
    CachedIo.act (.scanRemove key)
    overlayRecords ops

/-- The record loop of `apply_wal_ids`. -/
def applyRecords : List Op → CachedIo Unit
  | [] => return ()
  | (key, some raw) :: ops => do
    CachedIo.act (.mapPut key raw)
    applyRecords ops
  | (key, none) :: ops => do
    CachedIo.act (.mapDelete key)
    applyRecords ops

/-- The file loop of `finish_warm` and `apply_wal_ids`: the records of each file, and
the number of records. A file that is gone is skipped. -/
def eachWal (records : List Op → CachedIo Unit) : List ObjectPath → Nat → CachedIo Nat
  | [], applied => return applied
  | id :: ids, applied => do
    match ← Fallible.attempt (CachedIo.core (Io.call (.get id))) with
    | .ok (.bytes b, _) =>
      records (decodeWalRecords b)
      eachWal records ids (applied + (decodeWalRecords b).length)
    | .ok _ => eachWal records ids applied
    | .error e =>
      if saysNotFound e.text then eachWal records ids applied
      else Fallible.fail e

def applyWalIds (ids : List ObjectPath) : CachedIo Nat := eachWal applyRecords ids 0

/-! ## The scan -/

/-- `SCAN_BATCH` -/
def scanBatch : Nat := 256

/-- Drop the mirrored keys that the scan did not see. -/
def dropUnscanned (scanned : Finset Key) : List KeyValue → CachedIo Unit
  | [] => return ()
  | kv :: rows => do
    if kv.1 ∈ scanned then dropUnscanned scanned rows
    else
      CachedIo.act (.mapDelete kv.1)
      dropUnscanned scanned rows

def finishWarm (m : Manifest) : CachedIo Unit := do
  let _ ← eachWal overlayRecords m.wal 0
  let scanned ← CachedIo.act .scanTake
  let current ← CachedIo.act (.mapGets none .next (none, none))
  dropUnscanned scanned current
  CachedIo.act (.scanFinish m)

/-- Mirror the rows of a page, without the row at the cursor; the result is their
number. -/
def mirrorPage (cursor : Option Key) : List KeyValue → Nat → CachedIo Nat
  | [], applied => return applied
  | (key, value) :: rows, applied => do
    if cursor = some key then mirrorPage cursor rows applied
    else
      CachedIo.act (.scanInsert key)
      CachedIo.act (.mapPut key value)
      mirrorPage cursor rows (applied + 1)

/-- The page loop of `warm_pages`; the first argument is the number of pages that may
still be read. -/
def scanPages (cx : Ctx) (m : Manifest) : Nat → Nat → CachedIo (Bool × Nat)
  | 0, applied => return (false, applied)
  | pages + 1, applied => do
    let cursor := (← CachedIo.act .state).warmCursor
    let batch ← CachedIo.core (getsBytes cx (some scanBatch) .next (cursor, none))
    match batch.getLast? with
    | none =>
      finishWarm m
      return (true, applied)
    | some last =>
      let applied ← mirrorPage cursor batch applied
      CachedIo.act (.scanCursor (some last.1))
      if batch.length < scanBatch then
        finishWarm m
        return (true, applied)
      else scanPages cx m pages applied

def warmPages (cx : Ctx) (maxPages : Nat) : CachedIo (Bool × Nat) := do
  if (← CachedIo.act .state).warmed then return (true, 0)
  else
    let (m, _) ← CachedIo.core (loadManifest cx false)
    scanPages cx m maxPages 0

/-- Run under `scan_gate`, releasing it on every path. -/
def withScanGate {α : Type} (p : CachedIo α) : CachedIo α := do
  CachedIo.act .scanGate
  let r ← Fallible.attempt p
  CachedIo.act .scanRelease
  Fallible.ofExcept r

/-- `u32::MAX` -/
def maxPages : Nat := 2 ^ 32 - 1

/-- The loop of `warm`. Every round but the last reads `u32::MAX` pages, so the bound
on the rounds is out of reach of any content. -/
def warmLoop (cx : Ctx) : Nat → Nat → CachedIo Nat
  | 0, _ => .fail (.other "the scan made no progress")
  | rounds + 1, applied => do
    let (done, n) ← warmPages cx maxPages
    if done then return applied + n
    else warmLoop cx rounds (applied + n)

def warm (cx : Ctx) : CachedIo Nat :=
  withScanGate do
    CachedIo.act .scanReset
    warmLoop cx (2 ^ 64) 0

def warmStep (cx : Ctx) (pages : Nat) : CachedIo Bool :=
  withScanGate do
    let (done, _) ← warmPages cx (max pages 1)
    return done

/-! ## Freshness -/

def checkStale (cx : Ctx) : CachedIo Bool := do
  if ← isPoisoned then return true
  else
    let (m, _) ← CachedIo.core (loadManifest cx false)
    return !decide ((← CachedIo.act .state).Knows m)

/-- `refresh`: nothing to do, a rebuild, or a replay of the missing WAL files. -/
def refresh (cx : Ctx) : CachedIo Nat := do
  let known ← CachedIo.act .state
  let (m, _) ← CachedIo.core (loadManifest cx false)
  if known.Knows m then return 0
  else
    let owner ← CachedIo.core readOwnership
    let ownerEpoch := (owner.map OwnershipRecord.epoch).getD known.epoch
    if ownerEpoch ≠ known.epoch ∨ sstIds m ≠ known.sstIds then
      let applied ← warm cx
      CachedIo.act (.adopt ownerEpoch m)
      return applied
    else
      let missing := m.wal.filter fun id => id ∉ known.replayed
      let applied ← applyWalIds missing
      CachedIo.act (.catchUp m)
      return applied

def maybeRefresh (cx : Ctx) : CachedIo Unit := do
  if ← CachedIo.act .expired then
    let _ ← refresh cx
    return ()
  else return ()

/-! ## Reads and writes -/

def getBytes (cx : Ctx) (key : Key) : CachedIo (Option Bytes) := do
  rejectIfPoisoned
  match ← CachedIo.act (.mapGet key) with
  | some value => return some value
  | none =>
    if (← CachedIo.act .state).warmed then return none
    else
      match ← CachedIo.core (OxKv.getBytes cx key) with
      | some raw =>
        CachedIo.act (.mapPut key raw)
        return some raw
      | none => return none

def has (cx : Ctx) (key : Key) : CachedIo Bool := do
  rejectIfPoisoned
  if ← CachedIo.act (.mapHas key) then return true
  else
    if (← CachedIo.act .state).warmed then return false
    else CachedIo.core (OxKv.has cx key)

def getsBytes (cx : Ctx) (limit : Option Nat) (d : Direction) (c : Cursor) :
    CachedIo (List KeyValue) := do
  rejectIfPoisoned
  if (← CachedIo.act .state).warmed then CachedIo.act (.mapGets limit d c)
  else CachedIo.core (OxKv.getsBytes cx limit d c)

def delete (cx : Ctx) (key : Key) : CachedIo Bool := do
  rejectIfPoisoned
  let existed ← writeThrough (OxKv.delete cx key)
  if existed then
    CachedIo.act (.mapDelete key)
    syncAfterWrite
    return true
  else
    syncAfterWrite
    return false

/-- `CachedOxKvStore::set_bytes`: the reported value is the mirror's. -/
def setBytes (cx : Ctx) (key : Key) (value : Bytes) : CachedIo (Option Bytes) := do
  rejectIfPoisoned
  let prev ← CachedIo.act (.mapGet key)
  let _ ← writeThrough (OxKv.setBytes cx key value)
  CachedIo.act (.mapPut key value)
  syncAfterWrite
  return prev

def putBytes (cx : Ctx) (key : Key) (value : Bytes) : CachedIo Unit := do
  rejectIfPoisoned
  writeThrough (OxKv.putBytes cx key value)
  CachedIo.act (.mapPut key value)
  syncAfterWrite

def getBytesChecked (cx : Ctx) (key : Key) : CachedIo (Option Bytes) := do
  maybeRefresh cx
  getBytes cx key

def hasChecked (cx : Ctx) (key : Key) : CachedIo Bool := do
  maybeRefresh cx
  has cx key

def getsBytesChecked (cx : Ctx) (limit : Option Nat) (d : Direction) (c : Cursor) :
    CachedIo (List KeyValue) := do
  maybeRefresh cx
  getsBytes cx limit d c

/-! ## Opening -/

inductive WarmMode where
  | eager
  | background
  | lazy
  deriving DecidableEq

def openWithMode (cx : Ctx) (mode : WarmMode) : CachedIo Unit := do
  CachedIo.act (.open cx.epoch)
  if mode = .eager then
    let _ ← warm cx
    return ()
  else return ()

end OxKv.Cached

namespace OxKv

/-! ## Transactions -/

/-- `CachedTx`: the transaction of the core and the overlay for the mirror. -/
structure CachedTx where
  tx : Tx
  staged : MemMap

namespace CachedTx

/-- `begin_tx`. -/
def begin : CachedTx := ⟨Tx.begin, SortedMap.empty⟩

def inWindow (key : Key) (d : Direction) (c : Cursor) : Bool :=
  if d = .prev ∧ c.1 = none then false
  else
    let bounds := scanBounds d c
    inRange bounds.1 bounds.2 key

/-- The loop of `merge_staged`. -/
def overlayRows (d : Direction) (c : Cursor) (rows : List KeyValue) (staged : List Op) :
    List KeyValue :=
  staged.foldl (fun rows op =>
    if !inWindow op.1 d c then rows
    else
      let rows := rows.filter fun kv => kv.1 ≠ op.1
      match op.2 with
      | some raw => rows ++ [(op.1, raw)]
      | none => rows) rows

def mergeStaged (rows : List KeyValue) (staged : MemMap) (d : Direction) (c : Cursor)
    (limit : Option Nat) : List KeyValue :=
  let rows := overlayRows d c rows staged.toList
  cut limit (match d with
    | .next => rows.mergeSort fun a b => decide (a.1 ≤ b.1)
    | .prev => rows.mergeSort fun a b => decide (b.1 ≤ a.1))

def getBytes (cx : Ctx) (t : CachedTx) (key : Key) : CachedIo (Option Bytes) := do
  match t.staged.get? key with
  | some staged => return staged
  | none =>
    match ← CachedIo.act (.mapGet key) with
    | some value => return some value
    | none =>
      if (← CachedIo.act .state).warmed then return none
      else CachedIo.core (txGetBytes cx t.tx key)

def has (cx : Ctx) (t : CachedTx) (key : Key) : CachedIo Bool := do
  match t.staged.get? key with
  | some staged => return staged.isSome
  | none =>
    if ← CachedIo.act (.mapHas key) then return true
    else
      if (← CachedIo.act .state).warmed then return false
      else CachedIo.core (txHas cx t.tx key)

def delete (cx : Ctx) (t : CachedTx) (key : Key) : CachedIo (Bool × CachedTx) := do
  if t.staged.get? key = some none then return (false, t)
  else
    let (existed, tx) ← CachedIo.core (txDelete cx t.tx key)
    if existed then return (true, ⟨tx, t.staged.insert key none⟩)
    else return (false, ⟨tx, t.staged⟩)

def putBytes (cx : Ctx) (t : CachedTx) (key : Key) (value : Bytes) : CachedIo CachedTx := do
  let tx ← CachedIo.core (txPutBytes cx t.tx key value)
  return ⟨tx, t.staged.insert key (some value)⟩

def setBytes (cx : Ctx) (t : CachedTx) (key : Key) (value : Bytes) :
    CachedIo (Option Bytes × CachedTx) := do
  let prev ← getBytes cx t key
  let tx ← CachedIo.core (txPutBytes cx t.tx key value)
  return (prev, ⟨tx, t.staged.insert key (some value)⟩)

def getsBytes (cx : Ctx) (t : CachedTx) (limit : Option Nat) (d : Direction) (c : Cursor) :
    CachedIo (List KeyValue) := do
  let rows ← (do
    if (← CachedIo.act .state).warmed then CachedIo.act (.mapGets none d c)
    else CachedIo.core (txGetsBytes cx t.tx none d c))
  return mergeStaged rows t.staged d c limit

/-- The mirror loop of `commit`. -/
def applyStaged : List Op → CachedIo Unit
  | [] => return ()
  | op :: ops => do
    CachedIo.act (.mapApply op ops.isEmpty)
    applyStaged ops

def commit (cx : Ctx) (t : CachedTx) : CachedIo Unit := do
  Cached.writeThrough (txCommit cx t.tx)
  applyStaged t.staged.toList
  Cached.syncAfterWrite

end CachedTx

end OxKv
