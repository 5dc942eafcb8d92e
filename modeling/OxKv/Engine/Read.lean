import OxKv.Engine.Manifest

/-!
The read engine: blob resolution, SST fetches through the cache, point lookups
and range scans, and `OxKvStore::get_bytes`/`gets_bytes` on top of them.
-/

namespace OxKv

def getBlob (p : ObjectPath) : Io Bytes := do
  match ← Io.mapErr (storageFail ("get blob " ++ p.name ++ " failed: ")) (Io.call (.get p)) with
  | (.bytes b, _) => return b
  | _ => Io.fail (.storage ("get blob " ++ p.name ++ " failed: unexpected object"))

/-- `resolve_value`: dereference a blob pointer, checking length and CRC. -/
def resolveValue (cx : Ctx) (raw : Bytes) : Io Bytes := do
  match tryDecodeBlobPointer cx.crates raw with
  | none => return raw
  | some ptr =>
    let bytes ← getBlob ptr.blob
    if bytes.length ≠ ptr.len then
      Io.fail (.storage ("blob len mismatch for " ++ ptr.blob.name ++ ": expected " ++
        toString ptr.len ++ ", got " ++ toString bytes.length))
    else if cx.crates.crc32 bytes ≠ ptr.crc then
      Io.fail (.storage ("blob crc mismatch for " ++ ptr.blob.name ++ ": expected " ++
        toString ptr.crc ++ ", got " ++ toString (cx.crates.crc32 bytes)))
    else return bytes

/-- `read_sst`: straight from storage, with its checks. -/
def readSst (cx : Ctx) (id : ObjectPath) : Io SstFile := do
  match ← Io.mapErr (storageFail ("get sst " ++ id.name ++ " failed: ")) (Io.call (.get id)) with
  | (.sst f, _) =>
    let f ← Io.ofRes f.parse
    Io.ofRes (f.verifyFileCrc cx.crates.crc32)
    return f
  | _ => Io.fail (.storage "sst bad magic")

/-- `fetch_sst`: through the SST cache. -/
def fetchSst (cx : Ctx) (id : ObjectPath) : Io SstFile := do
  match ← Io.act (.sstCacheGet id) with
  | some f => return f
  | none =>
    let f ← readSst cx id
    Io.act (.sstCacheInsert id f)
    return f

def retryOnceNotFound {α : Type} (op : Io α) : Io α := do
  match ← Io.attempt op with
  | .ok a => return a
  | .error e =>
    if isNotFound e then
      Io.act .cacheClear
      op
    else Io.fail e

/-- Resolve a raw hit; a tombstone is absent. -/
def resolveHit (cx : Ctx) : Option Bytes → Io (Option Bytes)
  | some raw => do return some (← resolveValue cx raw)
  | none => return none

/-- The file loop of `point_lookup`, newest file first. -/
def lookupFiles (cx : Ctx) (key : Key) : List SstMeta → Io (Option Bytes)
  | [] => return none
  | m :: ms => do
    if key < m.minKey ∨ m.maxKey < key then lookupFiles cx key ms
    else
      let f ← fetchSst cx m.id
      match ← Io.ofRes (f.getOption cx.crates.crc32 key) with
      | some hit => resolveHit cx hit
      | none => lookupFiles cx key ms

/-- `point_lookup`; `staged` is the hit of the caller's newest layers. -/
def pointLookup (cx : Ctx) (staged : Option (Option Bytes)) (key : Key) : Io (Option Bytes) := do
  match staged with
  | some hit => resolveHit cx hit
  | none =>
    let (m, _) ← loadManifest cx true
    lookupFiles cx key m.sst.reverse

def scanBounds (d : Direction) (c : Cursor) : Cursor :=
  match d with
  | .next => (c.1, c.2)
  | .prev => (c.2, c.1)

/-- The files of a forward scan, through the cache, newest first. -/
def fetchFiles (cx : Ctx) : List SstMeta → Io (List SstFile)
  | [] => return []
  | m :: ms => do
    let f ← fetchSst cx m.id
    return f :: (← fetchFiles cx ms)

/-- Resolve the rows of a merged forward scan. -/
def resolveRows (cx : Ctx) : List KeyValue → Io (List KeyValue)
  | [] => return []
  | (key, raw) :: rows => do
    let v ← resolveValue cx raw
    return (key, v) :: (← resolveRows cx rows)

/-- Resolve the values of one file's rows, keeping tombstones. -/
def resolveOps (cx : Ctx) : List Op → Io (List Op)
  | [] => return []
  | (key, raw) :: rows => do
    let v ← resolveHit cx raw
    return (key, v) :: (← resolveOps cx rows)

/-- The sources of a backward scan: every file read past the cache and resolved. -/
def readSources (cx : Ctx) (start stop : Option Key) : List SstMeta → Io (List (List Op))
  | [] => return []
  | m :: ms => do
    let f ← readSst cx m.id
    let rows ← Io.ofRes (f.scanWithTombstones cx.crates.crc32 start stop)
    let resolved ← resolveOps cx rows
    return resolved :: (← readSources cx start stop ms)

def scanManifest (cx : Ctx) (m : Manifest) (layers : List (List Op)) (limit : Option Nat)
    (d : Direction) (c : Cursor) : Io (List KeyValue) := do
  let bounds := scanBounds d c
  let metas := m.sst.reverse.filter fun f => overlaps bounds.1 bounds.2 f.minKey f.maxKey
  match d with
  | .next =>
    let files ← fetchFiles cx metas
    let items := layers.map (fun l => l.map .ok) ++
      files.map fun f => f.scanIter cx.crates.crc32 bounds.1 bounds.2
    let merged ← Io.ofRes (pullMergeNext items limit)
    resolveRows cx merged
  | .prev =>
    if c.1.isNone then return []
    else
      let sources ← readSources cx bounds.1 bounds.2 metas
      return mergedGetsBytes (layers ++ sources) limit d c

def rangeLookup (cx : Ctx) (layers : List (List Op)) (limit : Option Nat) (d : Direction)
    (c : Cursor) : Io (List KeyValue) := do
  let (m, _) ← loadManifest cx true
  scanManifest cx m layers limit d c

def getBytes (cx : Ctx) (key : Key) : Io (Option Bytes) :=
  retryOnceNotFound do
    let staged ← Io.act (.memGet key)
    pointLookup cx staged key

def has (cx : Ctx) (key : Key) : Io Bool := do
  return (← getBytes cx key).isSome

def getsBytes (cx : Ctx) (limit : Option Nat) (d : Direction) (c : Cursor) : Io (List KeyValue) :=
  retryOnceNotFound do
    let rows ← Io.act (.memRows d c)
    rangeLookup cx [rows] limit d c

end OxKv
