import OxKv.Hooks.View
import OxKv.Machine

/-!
The manifest and ownership procedures: `load_manifest`, `cas_manifest`,
`read_ownership`, `acquire_ownership` and the probe.
-/

namespace OxKv

/-! ## Fallible programs -/

/-- An engine procedure: a program whose result is a `Result`. -/
def Io (α : Type) : Type 1 := Prog Act (Res α)

namespace Io

variable {α β : Type}

/-- Sequencing with the `?` operator: an error ends the procedure. -/
def bind (p : Io α) (f : α → Io β) : Io β :=
  Prog.bind p fun
    | .ok a => f a
    | .error e => Prog.ret (.error e)

instance : Monad Io where
  pure a := Prog.ret (.ok a)
  bind := bind

def act (a : Act α) : Io α := Prog.act a fun r => Prog.ret (.ok r)

/-- A storage call whose error is propagated. -/
def call (a : Act (Res α)) : Io α := Prog.act a Prog.ret

def fail (e : StoreError) : Io α := Prog.ret (.error e)

/-- Run a procedure and look at its outcome. -/
def attempt (p : Io α) : Io (Res α) := Prog.bind p fun r => Prog.ret (.ok r)

def mapErr (f : StoreError → StoreError) (p : Io α) : Io α :=
  Prog.bind p fun
    | .ok a => Prog.ret (.ok a)
    | .error e => Prog.ret (.error (f e))

def ofRes (r : Res α) : Io α := Prog.ret r

end Io

/-- What a procedure knows about its handle and about the outside: the crates,
its epoch and session, and the registered validators. -/
structure Ctx where
  crates : Crates
  epoch : Nat
  session : String
  /-- what the validators do with a write -/
  check : Key → Bytes → Check

def storageFail (pre : String) (e : StoreError) : StoreError := .storage (pre ++ e.text)

/-! ## Manifest -/

def readManifest : Io (Option (Manifest × Etag)) := do
  match ← Io.attempt (Io.call (.get .manifest)) with
  | .ok (.manifest m, e) => return some (m, e)
  | .ok _ => Io.fail (.storage "parse manifest: unexpected object")
  | .error e =>
    if saysNotFound e.text then return none
    else Io.fail (storageFail "get manifest failed: " e)

/-- `cas_manifest`; the empty tag asks for a create. -/
def casManifest (m : Manifest) (etag : Etag) : Io Etag :=
  Io.mapErr
    (fun
      | .casConflict detail => .casConflict ("manifest manifest.json: " ++ detail)
      | e => storageFail "put manifest failed: " e)
    (Io.call (.putOpts .manifest (.manifest m) (if etag = 0 then .create else .update etag)))

/-- `load_manifest`; `ttl` says whether a cached manifest may be used at all. -/
def loadManifest (cx : Ctx) (ttl : Bool) : Io (Manifest × Etag) := do
  match ← Io.act (.cacheGet ttl) with
  | (some (m, e), true) => return (m, e)
  | (some (m, e), false) =>
    match ← Io.attempt (Io.call (.getOpts .manifest e)) with
    | .ok (.manifest m', e') =>
      Io.act (.cacheUpdate m' e')
      return (m', e')
    | .ok _ => Io.fail (.storage "parse manifest: unexpected object")
    | .error .notModified => return (m, e)
    | .error err =>
      if saysNotFound err.text then
        Io.act (.cacheUpdate (Manifest.empty cx.epoch) 0)
        return (Manifest.empty cx.epoch, 0)
      else Io.fail (storageFail "get manifest failed: " err)
  | (none, _) =>
    match ← readManifest with
    | some (m, e) =>
      Io.act (.cacheUpdate m e)
      return (m, e)
    | none =>
      Io.act (.cacheUpdate (Manifest.empty cx.epoch) 0)
      return (Manifest.empty cx.epoch, 0)

/-! ## Ownership -/

def readOwnership : Io (Option OwnershipRecord) := do
  match ← Io.attempt (Io.call (.get .ownership)) with
  | .ok (.ownership r, _) => return some r
  | .ok _ => Io.fail (.storage "corrupt ownership.json: unexpected object")
  | .error e =>
    if saysNotFound e.text then return none
    else Io.fail (storageFail "get ownership failed: " e)

/-- The ownership check of the write paths; `missing` is the text for an absent
record. -/
def checkOwnership (cx : Ctx) (missing : String) : Io Unit := do
  match ← readOwnership with
  | some r =>
    if r.epoch = cx.epoch ∧ r.ownerSession = cx.session then return ()
    else Io.fail (.fenced ("fenced: epoch " ++ toString cx.epoch ++ " session " ++ cx.session ++
      " superseded by epoch " ++ toString r.epoch ++ " session " ++ r.ownerSession))
  | none => Io.fail (.fenced missing)

/-- `saturating_add` on `u64`. -/
def saturatingAdd (a b : Nat) : Nat := min (a + b) (2 ^ 64 - 1)

/-- `acquire_ownership`: the epoch after the recorded one, or `1`. -/
def acquireOwnership (session : String) : Io OwnershipRecord := do
  let (epoch, mode) ← (do
    match ← Io.attempt (Io.call (.get .ownership)) with
    | .ok (.ownership r, e) => return (saturatingAdd r.epoch 1, PutMode.update e)
    | .ok _ => Io.fail (.storage "corrupt ownership.json: unexpected object")
    | .error e =>
      if saysNotFound e.text then return (1, PutMode.create)
      else Io.fail (storageFail "get ownership failed: " e))
  match ← Io.attempt (Io.call (.putOpts .ownership (.ownership ⟨epoch, session⟩) mode)) with
  | .ok _ => return ⟨epoch, session⟩
  | .error (.casConflict _) =>
    Io.fail (.fenced ("ownership CAS conflict at epoch " ++ toString epoch ++ " for session " ++
      session ++ " — fenced"))
  | .error e => Io.fail (storageFail "put ownership failed: " e)

/-- Delete the probe object, ignoring the outcome, and report `e`. -/
def probeFail (e : StoreError) : Io Unit := do
  let _ ← Io.attempt (Io.call (.delete .canary))
  Io.fail e

/-- `probe_store`: the storage must reject a duplicate create and a stale
update. -/
def probeStore : Io Unit := do
  let first ← Io.mapErr (storageFail "probe create failed: ")
    (Io.call (.putOpts .canary (.bytes (keyBytes "probe")) .create))
  match ← Io.attempt (Io.call (.putOpts .canary (.bytes (keyBytes "probe2")) .create)) with
  | .error (.casConflict _) =>
    -- no object ever has the tag `0`, so this update is stale
    match ← Io.attempt (Io.call (.putOpts .canary (.bytes (keyBytes "probe3")) (.update 0))) with
    | .error (.casConflict _) =>
      let _ ← Io.mapErr (storageFail "probe valid update failed: ")
        (Io.call (.putOpts .canary (.bytes (keyBytes "probe-ok")) (.update first)))
      Io.mapErr (storageFail "probe cleanup failed: ") (Io.call (.delete .canary))
    | .ok _ =>
      probeFail (.storage
        "probe store accepted stale If-Match — conditional overwrite not enforced")
    | .error e =>
      probeFail (storageFail "probe stale update unexpected error (expected CAS conflict): " e)
  | .ok _ =>
    probeFail (.storage ("probe store accepted duplicate create — conditional writes not " ++
      "enforced (needs S3/R2/GCS/Azure, not B2/Hetzner)"))
  | .error e =>
    probeFail (storageFail "probe second create unexpected error (expected CAS conflict): " e)

end OxKv
