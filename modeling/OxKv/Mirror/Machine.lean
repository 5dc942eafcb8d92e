import OxKv.Lib.Extend
import OxKv.BTree
import OxKv.Engine.Calls

/-!
The state that `CachedOxKvStore` adds to a store: the RAM mirror and what it knows
about the durable core, with the critical sections of its locks as atomic actions.

`cachedEngine` is the engine's machine with a mirror for every instance. Clones of a
cached handle are threads with the same instance number.
-/

namespace OxKv

/-! ## State -/

/-- `CachedState`. Instead of `last_check_ms` the environment decides whether the
staleness bound has elapsed. -/
structure CachedState where
  epoch : Nat
  version : Nat
  sstIds : Finset ObjectPath
  replayed : Finset ObjectPath
  poisoned : Option String
  warmed : Bool
  warmCursor : Option Key
  scannedKeys : Finset Key

def sstIds (m : Manifest) : Finset ObjectPath := (m.sst.map SstMeta.id).toFinset

namespace CachedState

/-- The state `open_with_mode` starts with. -/
def new (epoch : Nat) : CachedState where
  epoch := epoch
  version := 0
  sstIds := ∅
  replayed := ∅
  poisoned := none
  warmed := false
  warmCursor := none
  scannedKeys := ∅

def observeManifest (s : CachedState) (m : Manifest) : CachedState :=
  { s with
    version := m.version
    sstIds := OxKv.sstIds m
    replayed := s.replayed ∪ m.wal.toFinset
    poisoned := none }

/-- The manifest is the one the mirror was last compared with. -/
def Knows (s : CachedState) (m : Manifest) : Prop :=
  m.version = s.version ∧ OxKv.sstIds m = s.sstIds

instance (s : CachedState) (m : Manifest) : Decidable (s.Knows m) :=
  inferInstanceAs (Decidable (_ ∧ _))

end CachedState

/-- The shared fields of a `CachedOxKvStore`, its clones and its transactions. -/
structure Mirror where
  map : BTreeStore
  state : CachedState
  /-- the thread that holds `scan_gate` -/
  scanGate : Option Nat
  /-- the commits whose mirror loop is under way: the thread and the operations it has
  applied; no action reads it -/
  applying : List (Nat × List Op)
  /-- the finished updates of the map, newest first: the operations of a write or of a
  whole commit, and the number of reports before it; no action reads it -/
  updates : List (Nat × List Op)

def Mirror.new (epoch : Nat) : Mirror where
  map := SortedMap.empty
  state := CachedState.new epoch
  scanGate := none
  applying := []
  updates := []

namespace Mirror

/-- What the commit of a thread has applied so far. -/
def partly (x : Mirror) (thread : Nat) : List Op := (x.applying.lookup thread).getD []

/-- Change the map by one write. -/
def update (x : Mirror) (now : Nat) (map : BTreeStore) (op : Op) : Mirror :=
  { x with map := map, updates := (now, [op]) :: x.updates }

end Mirror

/-! ## Actions -/

inductive MirrorAct : Type → Type where
  | open (epoch : Nat) : MirrorAct Unit
  | mapGet (key : Key) : MirrorAct (Option Bytes)
  | mapHas (key : Key) : MirrorAct Bool
  | mapPut (key : Key) (value : Bytes) : MirrorAct Unit
  | mapDelete (key : Key) : MirrorAct Unit
  | mapGets (limit : Option Nat) (d : Direction) (c : Cursor) : MirrorAct (List KeyValue)
  /-- one round of the loop of `CachedTx::commit`; `last` in its last round -/
  | mapApply (op : Op) (last : Bool) : MirrorAct Unit
  /-- a copy of the state -/
  | state : MirrorAct CachedState
  | poison (reason : String) : MirrorAct Unit
  | observe (m : Manifest) : MirrorAct Unit
  /-- poisoned, or the staleness bound elapsed -/
  | expired : MirrorAct Bool
  | scanGate : MirrorAct Unit
  | scanRelease : MirrorAct Unit
  | scanReset : MirrorAct Unit
  | scanInsert (key : Key) : MirrorAct Unit
  | scanRemove (key : Key) : MirrorAct Unit
  | scanTake : MirrorAct (Finset Key)
  | scanCursor (cursor : Option Key) : MirrorAct Unit
  /-- the last section of `finish_warm` -/
  | scanFinish (m : Manifest) : MirrorAct Unit
  /-- the last section of `refresh` after a rebuild -/
  | adopt (epoch : Nat) (m : Manifest) : MirrorAct Unit
  /-- the last section of `refresh` after replaying WAL files -/
  | catchUp (m : Manifest) : MirrorAct Unit
  /-- a caller's report -/
  | mark (m : Mark) : MirrorAct Unit

def MirrorAct.mark? {β : Type} : MirrorAct β → Option Mark
  | .mark m => some m
  | _ => none

/-- One atomic action on a mirror, after `now` reports; `none` when it has to wait. -/
def Mirror.exec {β : Type} (thread now : Nat) (c : Choice) (a : MirrorAct β) (x : Mirror) :
    Option (β × Mirror) :=
  let st := x.state
  match a with
  | .open epoch => some ((), Mirror.new epoch)
  | .mapGet key => some (x.map.get? key, x)
  | .mapHas key => some ((x.map.get? key).isSome, x)
  | .mapPut key value => some ((), x.update now (x.map.insert key value) (key, some value))
  | .mapDelete key => some ((), x.update now (x.map.erase key) (key, none))
  | .mapGets limit d cur => some (x.map.getsBytes limit d cur, x)
  | .mapApply op last =>
    let ops := x.partly thread ++ [op]
    let others := x.applying.filter fun e => e.1 ≠ thread
    some ((), { x with
      map := Plain.apply x.map op
      applying := if last then others else (thread, ops) :: others
      updates := if last then (now, ops) :: x.updates else x.updates })
  | .state => some (st, x)
  | .poison reason => some ((), { x with state := { st with poisoned := some reason } })
  | .observe m => some ((), { x with state := st.observeManifest m })
  | .expired => some (st.poisoned.isSome || !c.hit, x)
  | .scanGate =>
    match x.scanGate with
    | some _ => none
    | none => some ((), { x with scanGate := some thread })
  | .scanRelease => some ((), { x with scanGate := none })
  | .scanReset =>
    some ((), { x with
      state := { st with warmed := false, warmCursor := none, scannedKeys := ∅ } })
  | .scanInsert key =>
    some ((), { x with state := { st with scannedKeys := insert key st.scannedKeys } })
  | .scanRemove key =>
    some ((), { x with state := { st with scannedKeys := st.scannedKeys.erase key } })
  | .scanTake => some (st.scannedKeys, { x with state := { st with scannedKeys := ∅ } })
  | .scanCursor cursor => some ((), { x with state := { st with warmCursor := cursor } })
  | .scanFinish m =>
    some ((), { x with state := { st.observeManifest m with warmCursor := none, warmed := true } })
  | .adopt epoch m => some ((), { x with state := { st.observeManifest m with epoch := epoch } })
  | .catchUp m =>
    -- the SST ids stay as they were
    some ((), { x with state := { st.observeManifest m with sstIds := st.sstIds } })
  | .mark _ => some ((), x)

/-- What the callers of the cached stores report, newest first. -/
abbrev Reports := List (Who × Mark)

/-- The mirrors of all instances. -/
structure Mirrors where
  inst : Nat → Mirror
  hist : Reports

namespace Mirrors

def set (e : Mirrors) (i : Nat) (x : Mirror) : Mirrors :=
  { e with inst := Function.update e.inst i x }

def log (e : Mirrors) (who : Who) : Option Mark → Mirrors
  | some m => { e with hist := (who, m) :: e.hist }
  | none => e

def start : Mirrors := ⟨fun _ => Mirror.new 0, []⟩

variable (e : Mirrors) (who : Who) (i : Nat) (x : Mirror)

@[simp] theorem set_hist : (e.set i x).hist = e.hist := rfl
@[simp] theorem set_inst_self : (e.set i x).inst i = x := Function.update_self ..
theorem set_inst_ne {j : Nat} (h : j ≠ i) : (e.set i x).inst j = e.inst j :=
  Function.update_of_ne h ..
@[simp] theorem set_self : e.set i (e.inst i) = e := by
  unfold set
  rw [Function.update_eq_self]
@[simp] theorem log_none : e.log who none = e := rfl
@[simp] theorem log_inst (m : Option Mark) : (e.log who m).inst = e.inst := by cases m <;> rfl

end Mirrors

def execMirror {β : Type} (who : Who) (c : Choice) (a : MirrorAct β) (s : World × Mirrors) :
    Option (β × (World × Mirrors)) :=
  match (s.2.inst who.inst).exec who.thread s.2.hist.length c a with
  | none => none
  | some (r, y) => some (r, (s.1, (s.2.set who.inst y).log who a.mark?))

/-- The engine's machine with its mirrors. -/
def cachedEngine : Machine (Plus Act MirrorAct) := engine.extend Mirrors execMirror

abbrev CachedIo (α : Type) : Type 1 := Fallible (Plus Act MirrorAct) StoreError α

namespace CachedIo

/-- A procedure of the durable core. -/
def core {α : Type} (p : Io α) : CachedIo α := Prog.lift p

def act {α : Type} (a : MirrorAct α) : CachedIo α := Fallible.act (.ext a)

end CachedIo

/-! ## Lone runs -/

namespace Cached

variable {who : Who} {s : World × Mirrors} {o : cachedEngine.Oracle}

/-- Sequencing in a lone run. -/
theorem run_bind {α β : Type} (p : CachedIo α) (f : α → CachedIo β) :
    cachedEngine.run who (p >>= f : CachedIo β) o s =
      match cachedEngine.run who p o s with
      | none => none
      | some (.ok a, o', s') => cachedEngine.run who (f a) o' s'
      | some (.error e, x) => some (.error e, x) := by
  refine (Machine.run_bind cachedEngine who p _ o s).trans ?_
  rcases cachedEngine.run who p o s with _ | ⟨_ | _, _⟩ <;> rfl

theorem run_bind_ok {α β : Type} {p : CachedIo α} {f : α → CachedIo β} {b : β}
    {x : cachedEngine.Oracle × World × Mirrors}
    (h : cachedEngine.run who (p >>= f : CachedIo β) o s = some (.ok b, x)) :
    ∃ a o' s', cachedEngine.run who p o s = some (.ok a, o', s') ∧
      cachedEngine.run who (f a) o' s' = some (.ok b, x) := by
  rw [run_bind] at h
  rcases hx : cachedEngine.run who p o s with _ | ⟨_ | a, o', s'⟩ <;> rw [hx] at h
  · cases h
  · cases h
  · exact ⟨a, o', s', rfl, h⟩

theorem run_state : cachedEngine.run who (CachedIo.act .state) o s =
    some (.ok (s.2.inst who.inst).state, cachedEngine.rest o, s) := by
  show some (_, _, s.1, Mirrors.set s.2 _ _) = _
  rw [Mirrors.set_self]

theorem run_mapGet (key : Key) : cachedEngine.run who (CachedIo.act (.mapGet key)) o s =
    some (.ok ((s.2.inst who.inst).map.get? key), cachedEngine.rest o, s) := by
  show some (_, _, s.1, Mirrors.set s.2 _ _) = _
  rw [Mirrors.set_self]

theorem run_mapGets (limit : Option Nat) (d : Direction) (c : Cursor) :
    cachedEngine.run who (CachedIo.act (.mapGets limit d c)) o s =
      some (.ok ((s.2.inst who.inst).map.getsBytes limit d c), cachedEngine.rest o, s) := by
  show some (_, _, s.1, Mirrors.set s.2 _ _) = _
  rw [Mirrors.set_self]

theorem run_core {α : Type} (p : Io α) : cachedEngine.run who (CachedIo.core p) o s =
    (engine.run who p o s.1).map fun x => (x.1, x.2.1, (x.2.2, s.2)) :=
  @Machine.run_lift Act MirrorAct _ engine Mirrors @execMirror who p o s.1 s.2

end Cached

end OxKv
