import OxKv.Engine.Build

/-!
The public operations of a store as data, and the clients that issue them one
after the other. A client reports the beginning and the reply of every call in
the history.
-/

namespace OxKv

/-- A public operation of `OxKvStore` or of one of its transactions; transactions
are numbered by their client. -/
inductive Call where
  | put (key : Key) (value : Bytes)
  | set (key : Key) (value : Bytes)
  | delete (key : Key)
  | get (key : Key)
  | has (key : Key)
  | gets (limit : Option Nat) (d : Direction) (c : Cursor)
  | stageSet (key : Key) (value : Bytes)
  | stageDelete (key : Key)
  | flush
  | flushMem
  | flushForce
  | compact
  | gcWal
  | gcOrphans
  | txSet (tx : Nat) (key : Key) (value : Bytes)
  | txPut (tx : Nat) (key : Key) (value : Bytes)
  | txDelete (tx : Nat) (key : Key)
  | txGet (tx : Nat) (key : Key)
  | txHas (tx : Nat) (key : Key)
  | txGets (tx : Nat) (limit : Option Nat) (d : Direction) (c : Cursor)
  | txCommit (tx : Nat)
  | txRollback (tx : Nat)

def Reply.error? : Reply → Option StoreError
  | .done (.error e) | .flag (.error e) | .value (.error e) | .rows (.error e)
  | .acquired (.error e) => some e
  | _ => none

abbrev TxTable := Nat → Tx

def replying {α : Type} (f : Res α → Reply) (txs : TxTable) (p : Io α) :
    Prog Act (Reply × TxTable) :=
  Prog.bind p fun r => Prog.ret (f r, txs)

def updating {α : Type} (f : Res α → Reply) (txs : TxTable) (t : Nat) (p : Io (α × Tx)) :
    Prog Act (Reply × TxTable) :=
  Prog.bind p fun
    | .ok (a, tx) => Prog.ret (f (.ok a), Function.update txs t tx)
    | .error e => Prog.ret (f (.error e), txs)

/-- Forget a successful result. -/
def Reply.plain {α : Type} (r : Res α) : Reply := .done (r.map fun _ => ())

def Call.run (cx : Ctx) (txs : TxTable) : Call → Prog Act (Reply × TxTable)
  | .put key value => replying .done txs (putBytes cx key value)
  | .set key value => replying .value txs (setBytes cx key value)
  | .delete key => replying .flag txs (OxKv.delete cx key)
  | .get key => replying .value txs (getBytes cx key)
  | .has key => replying .flag txs (OxKv.has cx key)
  | .gets limit d c => replying .rows txs (getsBytes cx limit d c)
  | .stageSet key value => replying .done txs (OxKv.stageSet key value)
  | .stageDelete key => replying .done txs (OxKv.stageDelete key)
  | .flush => replying .done txs (OxKv.flush cx)
  | .flushMem => replying .plain txs (flushMemToSst cx)
  | .flushForce => replying .plain txs (flushMemToSstForce cx)
  | .compact => replying .plain txs (OxKv.compact cx)
  | .gcWal => replying .plain txs (OxKv.gcWal cx)
  | .gcOrphans => replying .plain txs (OxKv.gcOrphans cx)
  | .txSet t key value => updating .value txs t (txSetBytes cx (txs t) key value)
  | .txPut t key value =>
    updating .done txs t (do return ((), ← txPutBytes cx (txs t) key value))
  | .txDelete t key => updating .flag txs t (OxKv.txDelete cx (txs t) key)
  | .txGet t key => replying .value txs (txGetBytes cx (txs t) key)
  | .txHas t key => replying .flag txs (OxKv.txHas cx (txs t) key)
  | .txGets t limit d c => replying .rows txs (txGetsBytes cx (txs t) limit d c)
  -- both consume the transaction; the number then stands for a new one
  | .txCommit t => replying .done (Function.update txs t Tx.begin) (OxKv.txCommit cx (txs t))
  | .txRollback t => Prog.ret (.done (.ok ()), Function.update txs t Tx.begin)

def TxTable.none : TxTable := fun _ => Tx.begin

/-- Issue the calls one after the other, numbered from `n`. -/
def client (cx : Ctx) : List Call → Nat → TxTable → Prog Act Unit
  | [], _, _ => .ret ()
  | c :: cs, n, txs =>
    .act (.mark (.invoked n)) fun _ =>
      (c.run cx txs).bind fun r =>
        .act (.mark (.returned n r.1)) fun _ => client cx cs (n + 1) r.2

/-- Build a store and issue calls on it. -/
def session (b : Builder) (calls : List Call) : Prog Act Unit :=
  Prog.bind (build b) fun
    | .ok cx => client cx calls 0 TxTable.none
    | .error _ => .ret ()

def World.start : World where
  st := Storage.empty
  inst := fun _ => Inst.new 0 "" false
  pendingCtr := 0
  answers := fun _ => none
  hist := []

/-- One owner of a prefix: how it is opened, what is called on it, what its environment
does, and after how many actions its process stops, if it does before the last call
has returned. -/
structure Life where
  builder : Builder
  calls : List Call
  oracle : engine.Oracle
  stop : Option Nat

def Life.run (i : Nat) (l : Life) (w : World) : Option World :=
  match l.stop with
  | none => (engine.run ⟨0, i⟩ (session l.builder l.calls) l.oracle w).map fun x => x.2.2
  | some n => some (engine.runFor ⟨0, i⟩ n (session l.builder l.calls) l.oracle w).2.2

/-- Successive owners of one prefix, the first with instance number `i`. -/
def runLives : Nat → List Life → World → Option World
  | _, [], w => some w
  | i, l :: ls, w => (l.run i w).bind (runLives (i + 1) ls)

/-- What a thread of a pool does: a clone of a handle issues calls, or a new
instance is built and issues calls. -/
inductive Job where
  | clone (inst : Nat) (cx : Ctx) (calls : List Call)
  | opener (inst : Nat) (b : Builder) (calls : List Call)

def Job.inst : Job → Nat
  | .clone i _ _ => i
  | .opener i _ _ => i

def Job.prog : Job → Prog Act Unit
  | .clone _ cx calls => client cx calls 0 TxTable.none
  | .opener _ b calls => session b calls

def spawn (jobs : List Job) : List (Who × Prog Act Unit) :=
  jobs.mapIdx fun j job => (⟨j, job.inst⟩, job.prog)

end OxKv
