import OxKv.Engine.Calls
import OxKv.Spec.Plain

/-!
What the public calls of a store mean: a plain ordered map, and for each open
transaction the writes it has collected. A transaction reads its own writes over the
map, and its commit performs them all.

* `Model.perform`: the reply of every call and what it leaves behind;
* `Model.Run`: the replies to a sequence of calls, some of which may fail without an
  effect.
-/

namespace OxKv

structure Model where
  contents : Plain
  /-- the writes of the open transactions, oldest first -/
  txs : Nat → List Op

namespace Model

def new (contents : Plain) : Model := ⟨contents, fun _ => []⟩

/-- What a transaction sees. -/
def view (m : Model) (t : Nat) : Plain := m.contents.applyAll (m.txs t)

def write (m : Model) (op : Op) : Model := { m with contents := m.contents.apply op }

def stage (m : Model) (t : Nat) (op : Op) : Model :=
  { m with txs := Function.update m.txs t (m.txs t ++ [op]) }

def close (m : Model) (t : Nat) : Model := { m with txs := Function.update m.txs t [] }

def perform (m : Model) : Call → Reply × Model
  | .put key value => (.done (.ok ()), m.write (key, some value))
  | .set key value => (.value (.ok (m.contents.get? key)), m.write (key, some value))
  | .delete key =>
    if (m.contents.get? key).isSome then (.flag (.ok true), m.write (key, none))
    else (.flag (.ok false), m)
  | .get key => (.value (.ok (m.contents.get? key)), m)
  | .has key => (.flag (.ok (m.contents.get? key).isSome), m)
  | .gets limit d c => (.rows (.ok (m.contents.gets limit d c)), m)
  | .stageSet key value => (.done (.ok ()), m.write (key, some value))
  | .stageDelete key => (.done (.ok ()), m.write (key, none))
  | .flush => (.done (.ok ()), m)
  | .flushMem => (.done (.ok ()), m)
  | .flushForce => (.done (.ok ()), m)
  | .compact => (.done (.ok ()), m)
  | .gcWal => (.done (.ok ()), m)
  | .gcOrphans => (.done (.ok ()), m)
  | .txSet t key value => (.value (.ok ((m.view t).get? key)), m.stage t (key, some value))
  | .txPut t key value => (.done (.ok ()), m.stage t (key, some value))
  | .txDelete t key =>
    if ((m.view t).get? key).isSome then (.flag (.ok true), m.stage t (key, none))
    else (.flag (.ok false), m)
  | .txGet t key => (.value (.ok ((m.view t).get? key)), m)
  | .txHas t key => (.flag (.ok ((m.view t).get? key).isSome), m)
  | .txGets t limit d c => (.rows (.ok ((m.view t).gets limit d c)), m)
  | .txCommit t => (.done (.ok ()), { m.close t with contents := m.view t })
  | .txRollback t => (.done (.ok ()), m.close t)

/-- What a failed call leaves behind: a commit consumes its transaction. -/
def fail (m : Model) : Call → Model
  | .txCommit t => m.close t
  | _ => m

end Model

def Reply.failed : Reply → Bool
  | .done (.error _) => true
  | .flag (.error _) => true
  | .value (.error _) => true
  | .rows (.error _) => true
  | .acquired (.error _) => true
  | _ => false

/-- Which calls may fail: maintenance, and other calls only if storage is faulty, a key
is too long for a record, or a validator rejects something. -/
def Call.MayFail (faulty long picky : Prop) : Call → Prop
  | .get _ => faulty
  | .has _ => faulty
  | .gets _ _ _ => faulty
  | .txGet _ _ => faulty
  | .txHas _ _ => faulty
  | .txGets _ _ _ _ => faulty
  | .txDelete _ _ => faulty
  | .put _ _ => faulty ∨ long
  | .delete _ => faulty ∨ long
  | .flush => faulty ∨ long
  | .set _ _ => faulty ∨ long ∨ picky
  | .txCommit _ => faulty ∨ long ∨ picky
  | .txSet _ _ _ => faulty ∨ picky
  | .txPut _ _ _ => faulty ∨ picky
  | .stageSet _ _ => False
  | .stageDelete _ => False
  | .txRollback _ => False
  | .flushMem => True
  | .flushForce => True
  | .compact => True
  | .gcWal => True
  | .gcOrphans => True

/-- A call succeeds as in the map, or fails without an effect. -/
def Model.Step (fails : Call → Prop) (m : Model) (c : Call) (r : Reply) (m' : Model) : Prop :=
  (r, m') = m.perform c ∨ r.failed ∧ m' = m.fail c ∧ fails c

inductive Model.Run (fails : Call → Prop) (m : Model) : List Call → List Reply → Model → Prop where
  | nil : Run fails m [] [] m
  | snoc {calls : List Call} {rs : List Reply} {m' m'' : Model} {c : Call} {r : Reply}
      (h : Run fails m calls rs m') (hstep : Model.Step fails m' c r m'') :
      Run fails m (calls ++ [c]) (rs ++ [r]) m''

def replies (who : Who) : History → List Reply
  | [] => []
  | (who', .mark (.returned _ r)) :: h =>
    if who' = who then replies who h ++ [r] else replies who h
  | _ :: h => replies who h

end OxKv
