import OxKv.Spec.State

/-!
What one action may do to the world and to the ghost state.

`Effect M who` lists, with the conditions under which they are harmless, all the
changes that engine procedures make. The invariant is preserved by every effect,
and what a thread relies on between two of its actions is that the others have
effects.
-/

namespace OxKv

/-- How programs are run: what is tracked, and what the environment may do. -/
structure Mode extends Track where
  /-- there is no other thread -/
  solo : Prop
  /-- storage calls may fail without effect -/
  faults : Prop
  /-- other instances may take the prefix over -/
  multi : Prop
  /-- the thread that opens a handle -/
  opener : Nat → Who
  /-- a condition on the history when a flush is published -/
  gap : History → Prop

def World.write (w : World) (who : Who) (p : ObjectPath) (o : Obj) : World :=
  { w with st := w.st.insert p o }.log who (.stored p o (w.st.seq + 1))

def Held (who : Who) (w : World) : Prop := (w.inst who.inst).gate = some who.thread

def WasListed (S : Stores) (p : ObjectPath) : Prop :=
  ∃ who m t, (who, ObjectPath.manifest, Obj.manifest m, t) ∈ S ∧
    (p ∈ m.wal ∨ ∃ x ∈ m.sst, x.id = p)

section Conditions

variable (M : Mode) (who : Who) (w : World) (g : Ghost)

/-- The changes of a handle that touch no contents: caches, observers, staging
buffer, and the counters if the gate of a handle in use is held. -/
structure Tuned (y : Inst) : Prop where
  epoch : y.epoch = (w.inst who.inst).epoch
  session : y.session = (w.inst who.inst).session
  mem : y.mem = (w.inst who.inst).mem
  skip : y.skipRevalidation = (w.inst who.inst).skipRevalidation
  gate : y.gate = (w.inst who.inst).gate
  pending : y.pending = (w.inst who.inst).pending
  walSeq : (w.inst who.inst).walSeq ≤ y.walSeq
  sstSeq : (w.inst who.inst).sstSeq ≤ y.sstSeq
  held : Held who w ∧ g.ready who.inst ∨
    y.walSeq = (w.inst who.inst).walSeq ∧ y.sstSeq = (w.inst who.inst).sstSeq
  cache : ∀ m e, y.cache = some (m, e) → KnownManifest (stores w.hist) m e
  sstCache : ∀ p f, y.sstCache p = some f → w.archive p = some (.sst f)
  bufferOk : ∀ op ∈ y.walBuffer, M.OkOp op
  buffer : ¬ M.staging → y.walBuffer = []

/-- A new data object is what its path says. -/
inductive NewObject : ObjectPath → Obj → Prop where
  | wal (n : Nat) (b : Bytes) (hn : n < (w.inst who.inst).walSeq)
      (hops : ∀ op ∈ decodeWalRecords b, M.OkOp op) :
      NewObject (.wal (w.inst who.inst).epoch n) (.bytes b)
  | sst (l n : Nat) (f : SstFile) (m : MemMap) (hn : n < (w.inst who.inst).sstSeq)
      (hf : f.Holds M.cr.crc32 m) (hops : ∀ op ∈ m.toList, M.StoredOp w.archive op) :
      NewObject (.sst (w.inst who.inst).epoch l n) (.sst f)
  | blob (h : String) (b : Bytes) (hb : M.strict → b ∈ M.V ∧ M.cr.blobHash b = h) :
      NewObject (.blob (w.inst who.inst).epoch h) (.bytes b)

/-- An object that may be deleted: a WAL file that is not listed, an SST file that
is not listed any more. -/
inductive Erasable : ObjectPath → Prop where
  | wal (e n : Nat) (hlisted : .wal e n ∉ w.manifest.wal)
      (hepoch : M.solo ∨ e ≤ (w.inst who.inst).epoch) : Erasable (.wal e n)
  | sst (e l n : Nat) (hwas : WasListed (stores w.hist) (.sst e l n))
      (hlisted : ∀ x ∈ w.manifest.sst, x.id ≠ .sst e l n) : Erasable (.sst e l n)

/-- The writes of a WAL file that is about to be listed. -/
structure BatchOk (ids : List Nat) (ops : List Op) (batch : List PendingWrite) : Prop where
  idsEq : ids = batch.map PendingWrite.id
  opsEq : ops = batchOps batch
  nodup : ids.Nodup
  opened : ∀ pw ∈ batch, g.slot pw.id = .opened who.inst pw
  fresh : ∀ e ∈ g.lin, ∀ id ∈ ids, id ∉ e.ids

/-- A WAL file may be listed: it is there, was never listed, and its batch is
known. -/
structure Listable (path : ObjectPath) (ids : List Nat) (ops updates : List Op) : Prop where
  pathEq : ∃ n, path = .wal (w.inst who.inst).epoch n
  present : ∃ y, w.st.lookup path = some y
  fresh : ¬ WasListed (stores w.hist) path
  payload : ∃ b, w.archive path = some (.bytes b) ∧ encodeOps ops = .ok b
  decode : M.durable → walOps w.archive path = ops
  ok : ∀ op ∈ ops, M.OkOp op
  same : ¬ M.staging → updates = ops ∧ ids = batchOf who w.hist
  drained : ids ≠ [] → (who, .drained ids) ∈ w.hist
  batch : ids = [] ∨ ∃ batch, BatchOk who g ids ops batch
  size : ids.length ≤ maxGroupWrites

/-- A new file entry: its sequence is the largest, its file is there, was never
listed and has the extreme keys of the entry. -/
structure NewEntry (level : Nat) (entry : SstMeta) : Prop where
  levelEq : entry.level = level
  idEq : entry.id = .sst (w.inst who.inst).epoch level entry.seq
  present : ∃ y, w.st.lookup entry.id = some y
  fresh : ¬ WasListed (stores w.hist) entry.id
  file : ∃ f, w.archive entry.id = some (.sst f)
  above : ∀ x ∈ w.manifest.sst, x.seq < entry.seq
  below : entry.seq < (w.inst who.inst).sstSeq
  minKey : (content M.cr w.archive entry.id).firstKey? = some entry.minKey
  maxKey : (content M.cr w.archive entry.id).lastKey? = some entry.maxKey

abbrev Mode.Same (x x' : Option (Option Bytes)) : Prop := SameShows M.strict M.cr w.archive x x'

/-- The new file holds a snapshot, with overflowing values moved to blobs. -/
def HoldsSnapshot (id : ObjectPath) (snap : MemMap) : Prop :=
  ∀ k, match snap.get? k with
    | none => (content M.cr w.archive id).get? k = none
    | some x => ∃ x', (content M.cr w.archive id).get? k = some x' ∧ M.Same w (some x) (some x')

/-- The new file holds the live rows of the merged inputs. -/
def HoldsMerge (id : ObjectPath) (l0 l1 : List SstMeta) : Prop :=
  ∀ k, match hit (content M.cr w.archive) l0 l1 k with
    | some (some raw) => ∃ raw', (content M.cr w.archive id).get? k = some (some raw') ∧
        M.Same w (some (some raw)) (some (some raw'))
    | _ => (content M.cr w.archive id).get? k = none

end Conditions

/-- The slots after the leader of instance `i` took a batch. -/
def drainSlots (slot : Nat → Slot) (i : Nat) (batch : List PendingWrite) (id : Nat) : Slot :=
  match batch.find? (fun pw => pw.id = id) with
  | some pw => .opened i pw
  | none => slot id

variable (M : Mode) (who : Who)

/-- What one action of `who` may do. -/
inductive Effect : State → State → Prop where
  | idle {w : World} {g : Ghost} : Effect (w, g) (w, g)
  | look {w : World} {g : Ghost} (e : What) (he : e = .polled ∨ e = .copied) :
      Effect (w, g) (w.log who e, g)
  | tune {w : World} {g : Ghost} (y : Inst) (hy : Tuned M who w g y) :
      Effect (w, g) (w.setInst who.inst y, g)
  | lock {w : World} {g : Ghost} (hgate : (w.inst who.inst).gate = none) :
      Effect (w, g)
        (w.setInst who.inst { w.inst who.inst with gate := some who.thread }, g)
  | unlock {w : World} {g : Ghost} (hheld : Held who w) (hwin : g.win who.inst = [])
      (hopen : ∀ id pw, g.slot id ≠ .opened who.inst pw) :
      Effect (w, g)
        ((w.setInst who.inst { w.inst who.inst with gate := none }).log who .unlocked,
          { g with flight := Function.update g.flight who.inst none })
  | create {w : World} {g : Ghost} (p : ObjectPath) (o : Obj) (hheld : Held who w)
      (hwriter : Writer w who.inst) (hnew : w.archive p = none) (hobj : NewObject M who w p o) :
      Effect (w, g) (w.write who p o, g)
  | canary {w : World} {g : Ghost} (o : Obj) (hready : ¬ g.ready who.inst) :
      Effect (w, g) (w.write who .canary o, g)
  | uncanary {w : World} {g : Ghost} (hready : ¬ g.ready who.inst) :
      Effect (w, g) ({ w with st := w.st.delete .canary }, g)
  | erase {w : World} {g : Ghost} (p : ObjectPath) (hheld : Held who w)
      (hwriter : Writer w who.inst) (hp : Erasable M who w p) :
      Effect (w, g) ({ w with st := w.st.delete p }, g)
  | acquire {w : World} {g : Ghost} (r : OwnershipRecord) (hmode : M.solo ∨ M.multi)
      (hr : r.epoch = w.st.topEpoch + 1) :
      Effect (w, g) (w.write who .ownership (.ownership r), g)
  | handle {w : World} {g : Ghost} (epoch : Nat) (session : String) (skip : Bool)
      (hepoch : epoch ≤ w.st.topEpoch)
      (hfresh : ∀ who' p o t, (who', p, o, t) ∈ stores w.hist → who'.inst = who.inst →
        p.epoch? = none)
      (hopener : M.opener who.inst = who) (hready : ¬ g.ready who.inst)
      (hgate : (w.inst who.inst).gate = none) (hpending : (w.inst who.inst).pending = []) :
      Effect (w, g) (w.setInst who.inst (Inst.new epoch session skip), g)
  | replay {w : World} {g : Ghost} (mem : MemMap) (hopener : M.opener who.inst = who)
      (hready : ¬ g.ready who.inst) (hmem : ∀ op ∈ mem.toList, M.OkOp op) :
      Effect (w, g) (w.setInst who.inst { w.inst who.inst with mem := mem }, g)
  | ready {w : World} {g : Ghost} (walSeq sstSeq : Nat) (m : KMap) (hopener : M.opener who.inst = who)
      (hready : ¬ g.ready who.inst) (hwriter : Writer w who.inst)
      (hwal : (w.inst who.inst).walSeq ≤ walSeq) (hsst : (w.inst who.inst).sstSeq ≤ sstSeq)
      (hm : ¬ M.staging → m = g.dur)
      (hshows : Owns w who.inst → ∀ k, M.Shows w (liveHit M.cr w who.inst k) (m k))
      (hseq : Owns w who.inst → ∀ x ∈ w.manifest.sst, x.seq < sstSeq) :
      Effect (w, g)
        (w.setInst who.inst { w.inst who.inst with walSeq := walSeq, sstSeq := sstSeq },
          { g with
            ready := Function.update g.ready who.inst True
            base := Function.update g.base who.inst m })
  | list {w : World} {g : Ghost} (m : Manifest) (path : ObjectPath) (ids : List Nat)
      (ops updates : List Op) (hheld : Held who w) (howns : Owns w who.inst)
      (hready : g.ready who.inst) (hwin : g.win who.inst = [])
      (hwal : m.wal = w.manifest.wal ++ [path]) (hsst : m.sst = w.manifest.sst)
      (hok : Listable M who w g path ids ops updates) :
      Effect (w, g)
        (w.write who .manifest (.manifest m),
          { g with
            lin := g.lin ++ [⟨who, w.hist.length, path, ids, ops⟩]
            win := Function.update g.win who.inst updates })
  | flush {w : World} {g : Ghost} (m : Manifest) (entry : SstMeta) (snap : MemMap) (n : Nat)
      (hheld : Held who w) (howns : Owns w who.inst) (hready : g.ready who.inst)
      (hwin : g.win who.inst = []) (hwal : m.wal = w.manifest.wal)
      (hsst : m.sst = w.manifest.sst ++ [entry]) (hentry : NewEntry M who w 0 entry)
      (hflight : g.flight who.inst = some (snap, n)) (hsnap : HoldsSnapshot M w entry.id snap)
      (hmem : ¬ M.staging → (w.inst who.inst).mem = snap) (hgap : M.gap w.hist) :
      Effect (w, g) (w.write who .manifest (.manifest m), g)
  | clear {w : World} {g : Ghost} (m : Manifest) (hheld : Held who w)
      (howns : M.solo ∨ Owns w who.inst) (hwal : m.wal = []) (hsst : m.sst = w.manifest.sst)
      (hcovered : M.durable → ∀ k, M.Shows w (sstHit M.cr w k) (g.dur k)) :
      Effect (w, g) (w.write who .manifest (.manifest m), g)
  | drop {w : World} {g : Ghost} (m : Manifest) (l0 l1 : List SstMeta) (hheld : Held who w)
      (howns : M.solo ∨ Owns w who.inst) (hwal : m.wal = w.manifest.wal)
      (hin : compactionInputs w.manifest.sst = some (l0, l1))
      (hsst : m.sst = withoutInputs (l0 ++ l1) w.manifest.sst)
      (hdead : ∀ k raw, hit (content M.cr w.archive) l0 l1 k ≠ some (some raw)) :
      Effect (w, g) (w.write who .manifest (.manifest m), g)
  | merge {w : World} {g : Ghost} (m : Manifest) (l0 l1 : List SstMeta) (entry : SstMeta)
      (hheld : Held who w) (howns : Owns w who.inst) (hready : g.ready who.inst)
      (hwal : m.wal = w.manifest.wal) (hin : compactionInputs w.manifest.sst = some (l0, l1))
      (hsst : m.sst = installed (l0 ++ l1) entry w.manifest.sst)
      (hentry : NewEntry M who w 1 entry) (hmerge : HoldsMerge M w entry.id l0 l1) :
      Effect (w, g) (w.write who .manifest (.manifest m), g)
  /-- a staged write -/
  | stage {w : World} {g : Ghost} (ops : List Op) (hstaging : M.staging)
      (halone : M.solo → g.flight who.inst = none) (hready : g.ready who.inst)
      (hops : ∀ op ∈ ops, M.OkOp op) :
      Effect (w, g)
        ((w.setInst who.inst { w.inst who.inst with
          mem := (w.inst who.inst).mem.insertAll ops }).log who (.wrote ops), g)
  /-- a listed write reaches the MemTable -/
  | apply {w : World} {g : Ghost} (ops : List Op) (hheld : Held who w)
      (hready : g.ready who.inst) (hwin : g.win who.inst = ops) (hops : ∀ op ∈ ops, M.OkOp op) :
      Effect (w, g)
        ((w.setInst who.inst { w.inst who.inst with
          mem := (w.inst who.inst).mem.insertAll ops }).log who (.wrote ops),
          { g with
            win := Function.update g.win who.inst []
            flight := Function.update g.flight who.inst none })
  | snapshot {w : World} {g : Ghost} (hheld : Held who w) (hready : g.ready who.inst) :
      Effect (w, g)
        (w.log who .snapshot,
          { g with
            flight := Function.update g.flight who.inst
              (some ((w.inst who.inst).mem, w.hist.length)) })
  | discard {w : World} {g : Ghost} (snap : MemMap) (hheld : Held who w)
      (hready : g.ready who.inst)
      (hsnap : Owns w who.inst → ∀ k x, snap.get? k = some x → M.Same w (some x) (sstHit M.cr w k)) :
      Effect (w, g)
        (w.setInst who.inst { w.inst who.inst with
          mem := discardFlushed (w.inst who.inst).mem snap },
          { g with flight := Function.update g.flight who.inst none })
  | take {w : World} {g : Ghost} :
      Effect (w, g)
        ({ w with pendingCtr := w.pendingCtr + 1 },
          { g with slot := Function.update g.slot w.pendingCtr (.taken who) })
  | push {w : World} {g : Ghost} (pw : PendingWrite) (htaken : g.slot pw.id = .taken who)
      (henc : encodeRecord pw.key pw.value = .ok pw.encoded)
      (hop : M.OkOp (pw.key, some pw.value)) :
      Effect (w, g)
        ((w.setInst who.inst { w.inst who.inst with
          pending := (w.inst who.inst).pending ++ [pw] }).log who (.pushed pw),
          { g with slot := Function.update g.slot pw.id (.queued who.inst pw) })
  | drain {w : World} {g : Ghost} (max : Nat) (hheld : Held who w) :
      Effect (w, g)
        ((w.setInst who.inst { w.inst who.inst with
          pending := (w.inst who.inst).pending.drop max }).log who
            (.drained (((w.inst who.inst).pending.take max).map PendingWrite.id)),
          { g with slot := drainSlots g.slot who.inst ((w.inst who.inst).pending.take max) })
  | send {w : World} {g : Ghost} (pw : PendingWrite) (r : Res Unit) (hheld : Held who w)
      (hopen : g.slot pw.id = .opened who.inst pw)
      (hr : r = .ok () ↔ ∃ e ∈ g.lin, pw.id ∈ e.ids) :
      Effect (w, g)
        ({ w with answers := Function.update w.answers pw.id (some r) }.log who (.sent pw.id r),
          { g with slot := Function.update g.slot pw.id (.settled pw r) })
  | mark {w : World} {g : Ghost} (m : Mark)
      (hm : ∀ n r, m = .returned n r → M.R w.hist g.lin who n r) :
      Effect (w, g) (w.log who (.mark m), g)

end OxKv
