import OxKv.Engine.Read

/-!
Maintenance of one store, always under its write gate: the MemTable flush, WAL
collection, the orphan sweep and compaction.
-/

namespace OxKv

def defaultBlockSize : Nat := 32 * 1024

def compactionBlockSize : Nat := 64 * 1024

/-- `WAL_MAINTENANCE_COUNT` -/
def walMaintenanceCount : Nat := 200

/-- `L1_MERGE_COUNT` -/
def l1MergeCount : Nat := 16

/-! ## Writing objects -/

/-- `put_blob`: an existing blob of the same hash is taken as is. -/
def putBlob (cx : Ctx) (value : Bytes) : Io ObjectPath := do
  let path := ObjectPath.blob cx.epoch (cx.crates.blobHash value)
  match ← Io.attempt (Io.call (.putOpts path (.bytes value) .create)) with
  | .ok _ => return path
  | .error (.casConflict _) => return path
  | .error e => Io.fail (storageFail "put blob failed: " e)

/-- Replace the values that do not fit a block by blob pointers. -/
def spill (cx : Ctx) (blockSize : Nat) : List Op → Io (List Op)
  | [] => return []
  | (key, some value) :: rows => do
    if isOverflow key value blockSize then
      let path ← putBlob cx value
      let ptr := encodeBlobPointer cx.crates ⟨path, value.length, cx.crates.crc32 value⟩
      return (key, some ptr) :: (← spill cx blockSize rows)
    else return (key, some value) :: (← spill cx blockSize rows)
  | (key, none) :: rows => do return (key, none) :: (← spill cx blockSize rows)

/-- Create an object; if it exists, it must hold the same bytes. `what` names the
object in error texts. -/
def createVerified (path : ObjectPath) (o : Obj) (what : String) (seq : Nat) : Io Unit := do
  match ← Io.attempt (Io.call (.putOpts path o .create)) with
  | .ok _ => return ()
  | .error (.casConflict _) =>
    let (existing, _) ← Io.mapErr (storageFail ("read back " ++ what ++ " failed: "))
      (Io.call (.get path))
    if existing ≠ o then
      Io.fail (.storage (what ++ " sequence " ++ toString seq ++
        " already holds different bytes; refusing to overwrite"))
    else return ()
  | .error e => Io.fail (storageFail ("put " ++ what ++ " failed: ") e)

def deleteAll : List ObjectPath → Io Unit
  | [] => return ()
  | p :: ps => do
    let _ ← Io.attempt (Io.call (.delete p))
    deleteAll ps

/-! ## Flush -/

/-- The manifest entry of a new file. -/
def newMeta (cx : Ctx) (id : ObjectPath) (seq level : Nat) (entries : MemMap) (f : SstFile) :
    SstMeta :=
  ⟨id, seq, level, entries.firstKey?.getD "", entries.lastKey?.getD "", f.size cx.crates⟩

def flushMemToSstInner (cx : Ctx) (force : Bool) : Io (Option SstMeta) := do
  match ← Io.act (.memSnapshot force) with
  | none => return none
  | some snapshot =>
    let rows ← spill cx defaultBlockSize snapshot.toList
    let entries : MemMap := SortedMap.empty.insertAll rows
    let f ← Io.ofRes (buildSst cx.crates.crc32 entries defaultBlockSize)
    let seq ← Io.act .nextSstSeq
    let id := ObjectPath.sst cx.epoch 0 seq
    createVerified id (.sst f) "sst" seq
    checkOwnership cx "fenced: ownership missing before manifest CAS"
    let (m, etag) ← loadManifest cx true
    match m.sst.find? (fun x => x.id = id) with
    | some existing =>
      Io.act (.memDiscard snapshot)
      return some existing
    | none =>
      let entry := newMeta cx id seq 0 entries f
      let m' := { m with sst := m.sst ++ [entry] }.bump
      match ← Io.attempt (casManifest m' etag) with
      | .ok newEtag =>
        Io.act (.cacheUpdate m' newEtag)
        Io.act (.memDiscard snapshot)
        return some entry
      | .error (.casConflict detail) =>
        Io.act .cacheClear
        let (reloaded, _) ← loadManifest cx false
        match reloaded.sst.find? (fun x => x.id = id) with
        | some existing =>
          Io.act (.memDiscard snapshot)
          return some existing
        | none =>
          Io.fail (.storage ("manifest CAS conflict after backoff retry: " ++ detail))
      | .error e => Io.fail e

/-! ## WAL collection -/

/-- Delete the collected WAL objects; the first failure is reported. -/
def deleteWals : List ObjectPath → Io Unit
  | [] => return ()
  | p :: ps => do
    Io.mapErr (storageFail ("delete wal " ++ p.name ++ " failed: ")) (Io.call (.delete p))
    deleteWals ps

/-- The attempts of `gc_wal_inner`. -/
def gcWalLoop (cx : Ctx) : Nat → Io Nat
  | 0 => return 0
  | n + 1 => do
    let (m, etag) ← loadManifest cx true
    if m.wal.isEmpty || m.sst.isEmpty then return 0
    else
      let m' := { m with wal := [] }.bump
      match ← Io.attempt (casManifest m' etag) with
      | .ok newEtag =>
        Io.act (.cacheUpdate m' newEtag)
        deleteWals m.wal
        return m.wal.length
      | .error (.casConflict _) =>
        Io.act .cacheClear
        gcWalLoop cx n
      | .error e => Io.fail e

def gcWalInner (cx : Ctx) : Io Nat := gcWalLoop cx 4

/-- `is_orphan_wal_key`: the exact shape of a WAL object name. -/
def isOrphanWalKey : ObjectPath → Bool
  | .wal _ seq => decide (seq < 10 ^ 8)
  | _ => false

/-- The delete loop of the sweep, which stops at the first failure. -/
def sweep (listed : List ObjectPath) : List ObjectPath → Nat → Io Nat
  | [], deleted => return deleted
  | p :: ps, deleted => do
    if !isOrphanWalKey p || listed.contains p then sweep listed ps deleted
    else
      match ← Io.attempt (Io.call (.delete p)) with
      | .ok _ => sweep listed ps (deleted + 1)
      | .error _ => return deleted

def gcOrphansInner (cx : Ctx) : Io Nat := do
  match ← readOwnership with
  | some r =>
    if r.epoch = cx.epoch ∧ r.ownerSession = cx.session then
      let (m, _) ← loadManifest cx false
      match ← Io.attempt (Io.call .list) with
      | .ok keys => sweep m.wal keys 0
      | .error _ => return 0
    else return 0
  | none => return 0

/-! ## Compaction -/

/-- The first pair of neighbours with the least total size. -/
def smallestPair : List (SstMeta × SstMeta) → Option (SstMeta × SstMeta)
  | [] => none
  | p :: ps =>
    match smallestPair ps with
    | none => some p
    | some q => if q.1.size + q.2.size < p.1.size + p.2.size then some q else some p

/-- The fold that bounds the number of level-1 files: the smallest adjacent pair
by `min_key` and everything overlapping its range. -/
def foldPair (l1 chosen : List SstMeta) : List SstMeta :=
  let byMin := l1.insertionSort fun a b => a.minKey ≤ b.minKey
  match smallestPair (byMin.zip byMin.tail) with
  | none => chosen
  | some (a, b) =>
    let lo := min a.minKey b.minKey
    let hi := max a.maxKey b.maxKey
    l1.foldl (fun acc m =>
      if lo ≤ m.maxKey ∧ m.minKey ≤ hi ∧ ¬ acc.any (fun x => x.id = m.id) then acc ++ [m]
      else acc) chosen

def leastKey (ks : List Key) : Key := (ks.min?).getD ""

def greatestKey (ks : List Key) : Key := (ks.max?).getD ""

/-- The level-1 files that meet the key range of the level-0 files. -/
def overlapping (l0 l1 : List SstMeta) : List SstMeta :=
  let l0Min := leastKey (l0.map SstMeta.minKey)
  let l0Max := greatestKey (l0.map SstMeta.maxKey)
  l1.filter fun m => ¬ (m.maxKey < l0Min ∨ l0Max < m.minKey)

/-- The level-1 inputs: the overlapping files, and with too many files in level 1
also a pair to fold. -/
def chosenL1 (l0 l1 : List SstMeta) : List SstMeta :=
  if l1MergeCount ≤ l1.length then
    (foldPair l1 (overlapping l0 l1)).insertionSort fun a b => a.seq ≤ b.seq
  else overlapping l0 l1

/-- The level-0 and level-1 files a compaction of this list merges, `none` when
the trigger does not fire or there is nothing to merge. -/
def compactionInputs (sst : List SstMeta) : Option (List SstMeta × List SstMeta) :=
  let l0 := sst.filter fun m => m.level = 0
  let l1 := sst.filter fun m => m.level = 1
  if l0.length < 4 ∧ (l0.map SstMeta.size).sum ≤ 128 * 1024 * 1024 ∧ l1.length < l1MergeCount then
    none
  else if l0.isEmpty && (chosenL1 l0 l1).isEmpty then none
  else some (l0, chosenL1 l0 l1)

/-- The resolved rows of the compaction inputs, newest first. -/
def compactionSources (cx : Ctx) : List SstMeta → Io (List (List Op))
  | [] => return []
  | m :: ms => do
    let f ← fetchSst cx m.id
    let rows ← Io.ofRes (f.scanWithTombstones cx.crates.crc32 none none)
    let resolved ← resolveOps cx rows
    return resolved :: (← compactionSources cx ms)

def withoutInputs (inputs sst : List SstMeta) : List SstMeta :=
  sst.filter fun m => ¬ inputs.any (fun x => x.id = m.id)

/-- No live key is left: only remove the inputs from the manifest. -/
def removeLoop (cx : Ctx) (inputs : List SstMeta) : Nat → Io (Option SstMeta)
  | 0 => return none
  | n + 1 => do
    let (m, etag) ← loadManifest cx true
    let rest := withoutInputs inputs m.sst
    if rest.length = m.sst.length then return none
    else
      let m' := { m with sst := rest }.bump
      match ← Io.attempt (casManifest m' etag) with
      | .ok newEtag =>
        Io.act (.cacheUpdate m' newEtag)
        deleteAll (inputs.map SstMeta.id)
        return none
      | .error (.casConflict _) =>
        Io.act .cacheClear
        removeLoop cx inputs n
      | .error e => Io.fail e

def dropInputs : List ObjectPath → Io Unit
  | [] => return ()
  | p :: ps => do
    Io.act (.sstCacheRemove p)
    let _ ← Io.attempt (Io.call (.delete p))
    dropInputs ps

/-- The new list: the remaining files and the merged one, by write sequence. -/
def installed (inputs : List SstMeta) (entry : SstMeta) (sst : List SstMeta) : List SstMeta :=
  (withoutInputs inputs sst ++ [entry]).insertionSort fun a b => a.seq ≤ b.seq

/-- Replace the inputs by the merged file. -/
def installLoop (cx : Ctx) (inputs : List SstMeta) (entry : SstMeta) : Nat → Io (Option SstMeta)
  | 0 => return none
  | n + 1 => do
    let (m, etag) ← loadManifest cx true
    match m.sst.find? (fun x => x.id = entry.id) with
    | some existing => return some existing
    | none =>
      let m' := { m with sst := installed inputs entry m.sst }.bump
      match ← Io.attempt (casManifest m' etag) with
      | .ok newEtag =>
        Io.act (.cacheUpdate m' newEtag)
        dropInputs (inputs.map SstMeta.id)
        return some entry
      | .error (.casConflict _) =>
        Io.act .cacheClear
        installLoop cx inputs entry n
      | .error e => Io.fail e

def compactInner (cx : Ctx) : Io (Option SstMeta) := do
  let (snapshot, _) ← loadManifest cx true
  match compactionInputs snapshot.sst with
  | none => return none
  | some (l0, l1) =>
    let sources ← compactionSources cx (l0.reverse ++ l1.reverse)
    let live := (mergeSources sources).map fun kv => (kv.1, some kv.2)
    let rows ← spill cx compactionBlockSize live
    let entries : MemMap := SortedMap.empty.insertAll rows
    if entries.isEmpty then removeLoop cx (l0 ++ l1) 4
    else
      let f ← Io.ofRes (buildSst cx.crates.crc32 entries compactionBlockSize)
      let seq ← Io.act .nextSstSeq
      let id := ObjectPath.sst cx.epoch 1 seq
      createVerified id (.sst f) "L1 sst" seq
      checkOwnership cx "fenced: ownership missing before compaction CAS"
      installLoop cx (l0 ++ l1) (newMeta cx id seq 1 entries f) 4

/-! ## Attempts to change the manifest -/

/-- What the loops over the manifest share: load, change, publish, and go on or try again. -/
def casLoop {α : Type} (cx : Ctx) (idle : α) (edit : Manifest → α ⊕ Manifest)
    (after : Manifest → Io α) : Nat → Io α
  | 0 => return idle
  | n + 1 => do
    let (m, etag) ← loadManifest cx true
    match edit m with
    | .inl a => return a
    | .inr m' =>
      match ← Io.attempt (casManifest m' etag) with
      | .ok newEtag =>
        Io.act (.cacheUpdate m' newEtag)
        after m
      | .error (.casConflict _) =>
        Io.act .cacheClear
        casLoop cx idle edit after n
      | .error e => Io.fail e

section

variable (cx : Ctx) (inputs : List SstMeta)

theorem gcWalLoop_eq (n : Nat) : gcWalLoop cx n = casLoop cx 0
    (fun m => if m.wal.isEmpty || m.sst.isEmpty then .inl 0 else .inr { m with wal := [] }.bump)
    (fun m => do deleteWals m.wal; return m.wal.length) n := by
  induction n with
  | zero => rfl
  | succ n ih =>
    rw [gcWalLoop, casLoop, ← ih]
    refine congrArg (loadManifest cx true >>= ·) (funext fun x => ?_)
    dsimp only
    split <;> rfl

theorem removeLoop_eq (n : Nat) : removeLoop cx inputs n = casLoop cx none
    (fun m => if (withoutInputs inputs m.sst).length = m.sst.length then .inl none
      else .inr { m with sst := withoutInputs inputs m.sst }.bump)
    (fun _ => do deleteAll (inputs.map SstMeta.id); return none) n := by
  induction n with
  | zero => rfl
  | succ n ih =>
    rw [removeLoop, casLoop, ← ih]
    refine congrArg (loadManifest cx true >>= ·) (funext fun x => ?_)
    dsimp only
    split <;> rfl

theorem installLoop_eq (entry : SstMeta) (n : Nat) : installLoop cx inputs entry n = casLoop cx none
    (fun m => match m.sst.find? fun x => x.id = entry.id with
      | some existing => .inl (some existing)
      | none => .inr { m with sst := installed inputs entry m.sst }.bump)
    (fun _ => do dropInputs (inputs.map SstMeta.id); return some entry) n := by
  induction n with
  | zero => rfl
  | succ n ih =>
    rw [installLoop, casLoop, ← ih]
    refine congrArg (loadManifest cx true >>= ·) (funext fun x => ?_)
    dsimp only
    cases x.1.sst.find? fun y => y.id = entry.id <;> rfl

end

/-! ## Automatic maintenance -/

/-- `maintain_wal`: collection only after a successful forced flush. -/
def maintainWal (cx : Ctx) (walLen : Nat) : Io Unit := do
  if walLen < walMaintenanceCount then return ()
  else
    match ← Io.attempt (flushMemToSstInner cx true) with
    | .error _ => return ()
    | .ok _ =>
      let _ ← Io.attempt (gcWalInner cx)
      let _ ← Io.attempt (gcOrphansInner cx)
      return ()

/-- `maintain_after_write`: never fails the write it follows. -/
def maintainAfterWrite (cx : Ctx) (walLen : Nat) : Io Unit := do
  let _ ← Io.attempt (flushMemToSstInner cx false)
  let _ ← Io.attempt (compactInner cx)
  maintainWal cx walLen

end OxKv
