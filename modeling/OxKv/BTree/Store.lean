import OxKv.BTree
import OxKv.Engine.Tx
import OxKv.Hooks.Validate

/-!
`BTreeStore` with its hooks, and `BTreeTx`. A store is its map, its validators and its
subscribers; a transaction reads the map of its store through a private overlay.
-/

namespace OxKv

/-- `notify` when nobody else publishes: its three sections one after the other. -/
def Subscribers.notify (s : Subscribers) (event : ChangeEvent) : Subscribers :=
  let drawn := s.allocate
  (drawn.2.push ⟨event, drawn.1⟩).deliver ⟨event, drawn.1⟩

/-- `BTreeStore` with its `HookState`. -/
structure BTree where
  map : BTreeStore
  validators : List Validator
  subscribers : Subscribers

namespace BTree

def view (s : BTree) : StoreView Res where
  get key := .ok (s.map.get? key)
  has key := .ok (s.map.get? key).isSome
  getsBytes limit d c := .ok (s.map.getsBytes limit d c)

def notify (s : BTree) (event : ChangeEvent) : BTree :=
  { s with subscribers := s.subscribers.notify event }

def delete (s : BTree) (key : Key) : Res Bool × BTree :=
  let oldValue := s.map.get? key
  let removed := (s.map.get? key).isSome
  let s := { s with map := s.map.erase key }
  if removed then (.ok removed, s.notify ⟨key, .delete, oldValue, none⟩)
  else (.ok removed, s)

def setBytes (s : BTree) (key : Key) (value : Bytes) : Res (Option Bytes) × BTree :=
  match Validator.validateKey s.validators s.view key value with
  | .error e => (.error e, s)
  | .ok () =>
    let prev := s.map.get? key
    let s := { s with map := s.map.insert key value }
    (.ok prev, s.notify ⟨key, .set, prev, some value⟩)

def addValidator (s : BTree) (v : Validator) : BTree := { s with validators := s.validators ++ [v] }

end BTree

/-- `BTreeTx`, without the map of its store, which every method is handed. -/
structure BTreeTx where
  overlay : MemMap
  validators : List Validator
  staged : List ChangeEvent

/-- `BTreeStore::begin_tx`: the validators are copied. -/
def BTree.beginTx (s : BTree) : BTreeTx := ⟨SortedMap.empty, s.validators, []⟩

/-! ## Scans of a transaction -/

namespace BTreeTx

/-- The range of a map that `store_side` and `overlay_side` walk through. -/
def side {β : Type} (map : SortedMap Key β) (cursor : Cursor) (forward : Bool) : List (Key × β) :=
  let range := fun lo hi => map.toList.filter fun kv => inRange lo hi kv.1
  match cursor with
  | (some s, some e) =>
    if (if forward then s ≤ e else e ≤ s) then
      if forward then range (some s) (some e) else (range (some e) (some s)).reverse
    else []
  | (some s, none) => if forward then range (some s) none else (range none (some s)).reverse
  | (none, some e) => if forward then range none (some e) else []
  | (none, none) => if forward then map.toList else []

/-- `store_side`: the overlay wins, even with a deletion. -/
def storeSide (store : BTreeStore) (cursor : Cursor) (overlayKeys : List Key) (forward : Bool) :
    List KeyValue :=
  (side store cursor forward).filter fun kv => kv.1 ∉ overlayKeys

/-- `overlay_side`: a staged delete produces no item. -/
def overlaySide (overlay : MemMap) (cursor : Cursor) (forward : Bool) : List KeyValue :=
  (side overlay cursor forward).filterMap fun op => op.2.map fun value => (op.1, value)

/-- `take_store` for two rows. -/
def takeStore (forward : Bool) (s o : KeyValue) : Bool :=
  if forward then s.1 ≤ o.1 else o.1 ≤ s.1

/-- The loop of `merge_sides`; every round takes one row. -/
def mergeSides (limit : Option Nat) (forward : Bool) :
    Nat → List KeyValue → List KeyValue → List KeyValue → List KeyValue
  | 0, _, _, out => out
  | fuel + 1, store, overlay, out =>
    if limit.any fun lim => lim ≤ out.length then out
    else
      match store, overlay with
      | [], [] => out
      | [], o :: os => mergeSides limit forward fuel [] os (out ++ [o])
      | s :: ss, [] => mergeSides limit forward fuel ss [] (out ++ [s])
      | s :: ss, o :: os =>
        if takeStore forward s o then
          mergeSides limit forward fuel ss (o :: os) (out ++ [s])
        else mergeSides limit forward fuel (s :: ss) os (out ++ [o])

/-- `build_next_overlay` and `build_prev_overlay`. -/
def buildOverlay (store : BTreeStore) (overlay : MemMap) (cursor : Cursor) (limit : Option Nat)
    (forward : Bool) : List KeyValue :=
  let left := storeSide store cursor overlay.keys forward
  let right := overlaySide overlay cursor forward
  mergeSides limit forward (left.length + right.length) left right []

def getsBytes (tx : BTreeTx) (map : BTreeStore) (limit : Option Nat) (d : Direction)
    (cursor : Cursor) : List KeyValue :=
  match d with
  | .next => buildOverlay map tx.overlay cursor limit true
  | .prev => buildOverlay map tx.overlay cursor limit false

/-! ## The other methods -/

def getBytes (tx : BTreeTx) (map : BTreeStore) (key : Key) : Option Bytes :=
  match tx.overlay.get? key with
  | some staged => staged
  | none => map.get? key

def has (tx : BTreeTx) (map : BTreeStore) (key : Key) : Bool :=
  match tx.overlay.get? key with
  | some staged => staged.isSome
  | none => (map.get? key).isSome

def view (tx : BTreeTx) (map : BTreeStore) : StoreView Res where
  get key := .ok (tx.getBytes map key)
  has key := .ok (tx.has map key)
  getsBytes limit d c := .ok (tx.getsBytes map limit d c)

/-- The overlay insert and the `stage` of `delete` and `set_bytes`. -/
def record (tx : BTreeTx) (event : ChangeEvent) : BTreeTx :=
  { tx with
    overlay := tx.overlay.insert event.key event.newValue
    staged := stageEvent tx.staged event }

def delete (tx : BTreeTx) (map : BTreeStore) (key : Key) : Res Bool × BTreeTx :=
  let oldValue := tx.getBytes map key
  if oldValue.isSome then (.ok true, tx.record ⟨key, .delete, oldValue, none⟩)
  else (.ok false, tx)

def setBytes (tx : BTreeTx) (map : BTreeStore) (key : Key) (value : Bytes) :
    Res (Option Bytes) × BTreeTx :=
  match Validator.validateKey tx.validators (tx.view map) key value with
  | .error e => (.error e, tx)
  | .ok () =>
    let prev := tx.getBytes map key
    (.ok prev, tx.record ⟨key, .set, prev, some value⟩)

/-- The validation loop of `commit`. -/
def revalidate (tx : BTreeTx) (map : BTreeStore) : List ChangeEvent → Res Unit
  | [] => .ok ()
  | event :: events =>
    match event.kind, event.newValue with
    | .set, some value =>
      match Validator.validateKey tx.validators
          (revalidateView (tx.view map) event.key event.oldValue) event.key value with
      | .ok () => revalidate tx map events
      | .error e => .error e
    | _, _ => revalidate tx map events

/-- The loop of `commit` over the overlay. -/
def applyOverlay : BTreeStore → List Op → BTreeStore
  | map, [] => map
  | map, (key, some value) :: overlay => applyOverlay (map.insert key value) overlay
  | map, (key, none) :: overlay => applyOverlay (map.erase key) overlay

def commit (tx : BTreeTx) (s : BTree) : Res Unit × BTree :=
  match tx.revalidate s.map tx.staged with
  | .error e => (.error e, s)
  | .ok () =>
    let s := { s with map := applyOverlay s.map tx.overlay.toList }
    (.ok (), tx.staged.foldl BTree.notify s)

end BTreeTx

end OxKv
