import OxKv.Spec.Contents
import OxKv.Engine.Store

/-!
The invariant of the engine.

`Track` says what an argument keeps track of, `Ghost` holds what the proof
remembers beside the world: the listed WAL files in order, the writes that are
listed but not yet in a MemTable, the flushes under way and the state of each
queued write.

The parts of the invariant:

* `StoreInv`: stored objects against the history, and what they hold;
* `HandleInv`: epochs, counters and caches of the instances;
* `PresentInv`: the files the manifest lists are there;
* `LiveInv`: MemTable and listed files of the owner show its contents;
* `DurableInv`: listed WAL and SST files show the acknowledged contents;
* `QueueInv`, `LinInv`: group commit and the order of the listed WAL files.
-/

namespace OxKv

/-! ## What is tracked -/

structure LinEntry where
  who : Who
  /-- the length of the history before it was listed -/
  pos : Nat
  path : ObjectPath
  /-- the queued writes it holds -/
  ids : List Nat
  ops : List Op

/-- The state of a group-commit id. -/
inductive Slot where
  | free
  | taken (who : Who)
  | queued (i : Nat) (pw : PendingWrite)
  /-- in the batch of the current leader of instance `i` -/
  | opened (i : Nat) (pw : PendingWrite)
  | settled (pw : PendingWrite) (r : Res Unit)

structure Track where
  cr : Crates
  /-- the values that are written -/
  V : Set Bytes
  /-- values are followed exactly, not only their presence -/
  strict : Prop
  /-- the acknowledged contents are followed -/
  durable : Prop
  /-- staged writes are allowed -/
  staging : Prop
  /-- every key length fits `u32` -/
  short : Prop
  /-- a condition on replies, at the time they are given -/
  R : History → List LinEntry → Who → Nat → Reply → Prop
  plain : strict → ∀ v ∈ V, tryDecodeBlobPointer cr v = none
  length : strict → ∀ v ∈ V, v.length < tombstoneVlen
  inj : strict → Set.InjOn cr.blobHash V
  durable_strict : durable → strict
  durable_staging : durable → ¬ staging
  short_strict : short → strict

structure Ghost where
  origin : KMap
  lin : List LinEntry
  base : Nat → KMap
  /-- listed, but not yet inserted into the MemTable -/
  win : Nat → List Op
  /-- the snapshot of a flush under way, and when it was taken -/
  flight : Nat → Option (MemMap × Nat)
  ready : Nat → Prop
  slot : Nat → Slot

abbrev State := World × Ghost

/-- The acknowledged contents: all listed operations in order. -/
def Ghost.dur (g : Ghost) : KMap := g.lin.foldl (fun m e => applyOps m e.ops) g.origin

def live (w : World) (g : Ghost) (i : Nat) : KMap := liveFrom (g.base i) i w.hist

/-! ## The world seen through storage -/

def World.manifest (w : World) : Manifest :=
  match w.st.lookup .manifest with
  | some (.manifest m, _) => m
  | _ => Manifest.empty 0

def Storage.owner (st : Storage) : Option OwnershipRecord :=
  match st.lookup .ownership with
  | some (.ownership r, _) => some r
  | _ => none

/-- The epoch of the current owner, `0` without one. -/
def Storage.topEpoch (st : Storage) : Nat := (st.owner.map OwnershipRecord.epoch).getD 0

abbrev Stores := List (Who × ObjectPath × Obj × Etag)

/-- Instance `i` acquired epoch `e`. -/
def OwnerOf (S : Stores) (e i : Nat) : Prop :=
  ∃ who s t, who.inst = i ∧ (who, ObjectPath.ownership, Obj.ownership ⟨e, s⟩, t) ∈ S

/-- The handle `i` belongs to a writer. -/
def Writer (w : World) (i : Nat) : Prop := OwnerOf (stores w.hist) (w.inst i).epoch i

/-- The ownership record names the epoch of instance `i`. -/
def Owns (w : World) (i : Nat) : Prop := Writer w i ∧ w.st.topEpoch = (w.inst i).epoch

/-- The newest entry for a key in the listed SST files. -/
def sstHit (cr : Crates) (w : World) (k : Key) : Option (Option Bytes) :=
  view (content cr w.archive) w.manifest.sst k

/-- The newest entry for a key in the MemTable of `i` and the listed SST files. -/
def liveHit (cr : Crates) (w : World) (i : Nat) (k : Key) : Option (Option Bytes) :=
  ((w.inst i).mem.get? k).or (sstHit cr w k)

/-- The newest entry for a key in the listed WAL and SST files. -/
def durableHit (cr : Crates) (w : World) (k : Key) : Option (Option Bytes) :=
  (walHit w.archive w.manifest.wal k).or (sstHit cr w k)

/-! ## Operations that may be written -/

namespace Track

variable (T : Track)

/-- A written operation: its value is tracked, its key is short. -/
def OkOp (op : Op) : Prop :=
  (T.strict → ∀ v, op.2 = some v → v ∈ T.V) ∧ (T.short → (keyBytes op.1).length < 2 ^ 32)

/-- A stored entry: its raw value resolves to a tracked one. -/
def StoredOp (ob : Objects) (op : Op) : Prop :=
  (T.strict → ∀ raw, op.2 = some raw → ∃ v ∈ T.V, resolve T.cr ob raw = some v) ∧
    (T.short → (keyBytes op.1).length < 2 ^ 32)

abbrev Shows (w : World) (x : Option (Option Bytes)) (y : Option Bytes) : Prop :=
  OxKv.Shows T.strict T.cr w.archive x y

end Track

/-! ## Stored objects -/

/-- The listed files exist and are in order. -/
structure ListOk (cr : Crates) (ob : Objects) (m : Manifest) : Prop where
  levels : Levels (content cr ob) m.sst
  ssts : ∀ x ∈ m.sst, ∃ f, ob x.id = some (.sst f)
  wals : ∀ p ∈ m.wal, ∃ e n b, p = .wal e n ∧ ob p = some (.bytes b)

structure StoreInv (T : Track) (st : Storage) (S : Stores) : Prop where
  held : ∀ {p o e}, st.lookup p = some (o, e) → ∃ who, (who, p, o, e) ∈ S
  tag : ∀ {who p o e}, (who, p, o, e) ∈ S → 0 < e ∧ e ≤ st.seq
  tagInj : ∀ {who who' p p' o o' e}, (who, p, o, e) ∈ S → (who', p', o', e) ∈ S →
    who = who' ∧ p = p' ∧ o = o'
  /-- data objects are never rewritten -/
  data : ∀ {who p o e}, p.isData = true → (who, p, o, e) ∈ S → archived S p = some o
  manifestObj : ∀ {who o e}, (who, .manifest, o, e) ∈ S → ∃ m, o = .manifest m
  ownerObj : ∀ {who o e}, (who, .ownership, o, e) ∈ S → ∃ r, o = .ownership r
  sstObj : ∀ {e l n o}, archived S (.sst e l n) = some o →
    ∃ f m, o = .sst f ∧ f.Holds T.cr.crc32 m
  walObj : ∀ {e n o}, archived S (.wal e n) = some o → ∃ b, o = .bytes b
  blobObj : ∀ {e h o}, archived S (.blob e h) = some o →
    ∃ b t, o = .bytes b ∧ st.lookup (.blob e h) = some (.bytes b, t)
  blobVal : T.strict → ∀ {e h b}, archived S (.blob e h) = some (.bytes b) →
    b ∈ T.V ∧ T.cr.blobHash b = h
  sstVal : ∀ {p f}, archived S p = some (.sst f) →
    ∀ op ∈ (f.rows T.cr.crc32).toList, T.StoredOp (archived S) op
  walVal : ∀ {e n}, ∀ op ∈ walOps (archived S) (.wal e n), T.OkOp op
  lists : ∀ {who m e}, (who, .manifest, .manifest m, e) ∈ S → ListOk T.cr (archived S) m

/-! ## Instances -/

/-- A manifest with its tag, as a cache may hold it. -/
def KnownManifest (S : Stores) (m : Manifest) (e : Etag) : Prop :=
  (e = 0 ∧ m.wal = [] ∧ m.sst = []) ∨ ∃ who, (who, .manifest, .manifest m, e) ∈ S

/-- The epoch in the path of a data object. -/
def ObjectPath.epoch? : ObjectPath → Option Nat
  | .wal e _ => some e
  | .sst e _ _ => some e
  | .blob e _ => some e
  | _ => none

structure HandleInv (T : Track) (st : Storage) (S : Stores) (inst : Nat → Inst) : Prop where
  ownerTop : ∀ {who r t}, (who, .ownership, .ownership r, t) ∈ S → 1 ≤ r.epoch ∧ r.epoch ≤ st.topEpoch
  ownerInj : ∀ {who who' r r' t t'}, (who, .ownership, .ownership r, t) ∈ S →
    (who', .ownership, .ownership r', t') ∈ S → r.epoch = r'.epoch → who = who' ∧ r = r'
  epochLe : ∀ i, (inst i).epoch ≤ st.topEpoch
  /-- data objects are written by the owner of their epoch -/
  storedBy : ∀ {who p o t e}, (who, p, o, t) ∈ S → p.epoch? = some e →
    (inst who.inst).epoch = e ∧ OwnerOf S e who.inst
  walNum : ∀ {who e n o t}, (who, .wal e n, o, t) ∈ S → n < (inst who.inst).walSeq
  sstNum : ∀ {who e l n o t}, (who, .sst e l n, o, t) ∈ S → n < (inst who.inst).sstSeq
  cache : ∀ {i m e}, (inst i).cache = some (m, e) → KnownManifest S m e
  sstCache : ∀ {i p f}, (inst i).sstCache p = some f → archived S p = some (.sst f)
  memOk : ∀ i, ∀ op ∈ (inst i).mem.toList, T.OkOp op
  bufferOk : ∀ i, ∀ op ∈ (inst i).walBuffer, T.OkOp op
  buffer : ¬ T.staging → ∀ i, (inst i).walBuffer = []

structure PresentInv (w : World) : Prop where
  ssts : ∀ x ∈ w.manifest.sst, ∃ y, w.st.lookup x.id = some y
  wals : ∀ p ∈ w.manifest.wal, ∃ y, w.st.lookup p = some y

/-! ## Contents -/

/-- A flush under way: its keys are still in the MemTable, and its snapshot shows
the contents of that time. -/
def FlightOk (T : Track) (w : World) (g : Ghost) (i : Nat) : Prop :=
  ∀ snap n, g.flight i = some (snap, n) → ∃ h, h <:+ w.hist ∧ h.length = n ∧
    ∀ k x, snap.get? k = some x → ((w.inst i).mem.get? k).isSome ∧
      (Owns w i → T.Shows w (some x) (liveFrom (g.base i) i h k))

structure LiveInv (T : Track) (w : World) (g : Ghost) (i : Nat) : Prop where
  writer : Writer w i
  hit : Owns w i → ∀ k, T.Shows w (liveHit T.cr w i k) (live w g i k)
  seq : Owns w i → ∀ x ∈ w.manifest.sst, x.seq < (w.inst i).sstSeq
  link : ¬ T.staging → Owns w i → g.dur = applyOps (live w g i) (g.win i)
  flight : FlightOk T w g i
  free : (w.inst i).gate = none → g.win i = [] ∧ g.flight i = none

def DurableInv (T : Track) (w : World) (g : Ghost) : Prop :=
  T.durable → ∀ k, T.Shows w (durableHit T.cr w k) (g.dur k)

/-! ## Group commit -/

/-- Events that delimit what a thread is working on. -/
def What.isClient : What → Bool
  | .pushed _ => true
  | .drained _ => true
  | .sent _ _ => true
  | .mark _ => true
  | _ => false

/-- The batch a thread is working on: what it drained, unless it did something else
since. -/
def batchOf (who : Who) : History → List Nat
  | [] => []
  | (who', e) :: h =>
    if who' = who ∧ e.isClient then
      match e with
      | .drained ids => ids
      | _ => []
    else batchOf who h

def batchOps (batch : List PendingWrite) : List Op := batch.map fun pw => (pw.key, some pw.value)

structure PushedOk (T : Track) (h : History) (pw : PendingWrite) : Prop where
  encoded : encodeRecord pw.key pw.value = .ok pw.encoded
  op : T.OkOp (pw.key, some pw.value)
  pushed : ∃ who, (who, .pushed pw) ∈ h

def Slot.write? : Slot → Option PendingWrite
  | .queued _ pw => some pw
  | .opened _ pw => some pw
  | .settled pw _ => some pw
  | _ => none

structure QueueInv (T : Track) (w : World) (g : Ghost) : Prop where
  free : ∀ id, w.pendingCtr ≤ id ↔ g.slot id = .free
  queued : ∀ i pw, pw ∈ (w.inst i).pending ↔ g.slot pw.id = .queued i pw
  nodup : ∀ i, ((w.inst i).pending.map PendingWrite.id).Nodup
  gate : ∀ {id i pw}, g.slot id = .opened i pw → (w.inst i).gate ≠ none
  answers : ∀ id r, w.answers id = some r ↔ ∃ pw, g.slot id = .settled pw r
  write : ∀ {id pw}, (g.slot id).write? = some pw → pw.id = id ∧ PushedOk T w.hist pw
  pushed : ∀ {who who' pw pw'}, (who, .pushed pw) ∈ w.hist → (who', .pushed pw') ∈ w.hist →
    pw.id = pw'.id → who = who' ∧ pw = pw'
  pushedSlot : ∀ {who pw}, (who, .pushed pw) ∈ w.hist → (g.slot pw.id).write? = some pw
  /-- a settled write is listed exactly if its answer is a success -/
  settled : ∀ {id pw r}, g.slot id = .settled pw r →
    (r = .ok () ↔ ∃ e ∈ g.lin, id ∈ e.ids)

structure LinInv (T : Track) (w : World) (g : Ghost) : Prop where
  event : ∀ e ∈ g.lin, ∃ h m t, ((e.who, .stored .manifest (.manifest m) t) :: h) <:+ w.hist ∧
    h.length = e.pos ∧ e.path ∈ m.wal ∧ (e.ids ≠ [] → (e.who, .drained e.ids) ∈ h) ∧
    (¬ T.staging → e.ids = batchOf e.who h)
  order : g.lin.Pairwise fun a b => a.pos < b.pos
  paths : (g.lin.map LinEntry.path).Nodup
  listed : ∀ {who m t}, (who, .manifest, .manifest m, t) ∈ stores w.hist → ∀ p ∈ m.wal,
    ∃ e ∈ g.lin, e.path = p
  payload : ∀ e ∈ g.lin, ∃ b, w.archive e.path = some (.bytes b) ∧ encodeOps e.ops = .ok b
  /-- a file with queued writes holds just their records -/
  batch : ∀ e ∈ g.lin, e.ids ≠ [] → ∃ batch : List PendingWrite,
    e.ids = batch.map PendingWrite.id ∧ e.ops = batchOps batch ∧
      ∀ pw ∈ batch, (∃ i, g.slot pw.id = .opened i pw) ∨ ∃ r, g.slot pw.id = .settled pw r
  once : (g.lin.flatMap LinEntry.ids).Nodup

/-- Every reply met its condition when it was given. -/
def ReplyInv (T : Track) (w : World) (g : Ghost) : Prop :=
  ∀ h who n r, ((who, .mark (.returned n r)) :: h) <:+ w.hist → ∃ l, l <+: g.lin ∧ T.R h l who n r

/-! ## The invariant -/

structure Inv (T : Track) (w : World) (g : Ghost) : Prop where
  store : StoreInv T w.st (stores w.hist)
  handle : HandleInv T w.st (stores w.hist) w.inst
  present : PresentInv w
  live : ∀ i, g.ready i → LiveInv T w g i
  durable : DurableInv T w g
  queue : QueueInv T w g
  lin : LinInv T w g
  sizes : ∀ e ∈ g.lin, e.ids.length ≤ maxGroupWrites
  replies : ReplyInv T w g
  wrote : ∀ {who ops}, (who, .wrote ops) ∈ w.hist → g.ready who.inst
  idle : ∀ i, ¬ g.ready i → g.win i = [] ∧ g.flight i = none

end OxKv
