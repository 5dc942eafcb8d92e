import OxKv.Engine.Tx

/-!
Opening a prefix: `OxKvStoreBuilder::build_with_cache` with its WAL replay.
-/

namespace OxKv

/-! ## Replay -/

/-- Apply the listed WAL files in order; the result are the missing ones. -/
def replayPass : List ObjectPath → Io (List ObjectPath)
  | [] => return []
  | id :: ids => do
    match ← Io.attempt (Io.call (.get id)) with
    | .ok (.bytes b, _) =>
      Io.act (.memReplay (decodeWalRecords b))
      replayPass ids
    | .ok _ => replayPass ids
    | .error e =>
      if isNotFound e then return id :: (← replayPass ids)
      else Io.fail (storageFail ("read wal " ++ id.name ++ " failed: ") e)

/-- `replay_listed_wals`: one refresh of the listing when files are gone. -/
def replayListedWals (cx : Ctx) (ids : List ObjectPath) : Io Unit := do
  let missing ← replayPass ids
  if missing.isEmpty then return ()
  else
    Io.act .cacheClear
    let (m, _) ← loadManifest cx false
    let missing ← replayPass m.wal
    if missing.isEmpty then return ()
    else Io.fail (.storage ("wal listed in manifest but absent from storage: " ++
      String.intercalate ", " (missing.map ObjectPath.name)))

/-! ## Writer -/

/-- `OxKvStoreBuilder`. -/
structure Builder where
  crates : Crates
  session : String
  skipProbe : Bool
  assumeSingleWriter : Bool
  /-- the prefix is not empty -/
  prefixed : Bool
  check : Key → Bytes → Check

/-- The high-water mark of the epoch's WAL numbers among the listed ids. The
engine looks for the epoch directory at the start of the id, so it only finds
them under the empty prefix. -/
def walHighWater (prefixed : Bool) (epoch : Nat) (wal : List ObjectPath) : Nat :=
  wal.foldl (fun acc id =>
    match id with
    | .wal e n => if !prefixed && e = epoch then max acc (n + 1) else acc
    | _ => acc) 0

/-- The high-water mark of the SST numbers among the listed files, over all
epochs. -/
def sstHighWater (sst : List SstMeta) : Nat :=
  sst.foldl (fun acc m =>
    match m.id with
    | .sst _ _ n => max acc (n + 1)
    | _ => acc) 0

/-- `build_with_cache` after the probe: take the prefix over, replay its WAL, set
the counters. -/
def takeOver (b : Builder) : Io Ctx := do
  let r ← acquireOwnership b.session
  let cx : Ctx := ⟨b.crates, r.epoch, b.session, b.check⟩
  Io.act (.newHandle r.epoch b.session b.assumeSingleWriter)
  let (m, _) ← loadManifest cx true
  replayListedWals cx m.wal
  Io.act (.setSeqs (walHighWater b.prefixed r.epoch m.wal) (sstHighWater m.sst))
  return cx

/-- `build_with_cache`. -/
def build (b : Builder) : Io Ctx := do
  if b.skipProbe then takeOver b
  else
    probeStore
    takeOver b

end OxKv
