import OxKv.Mirror.Store

/-!
The public operations of a cached store as data, and the clients that issue them one
after the other: on the cached handle, on its transactions, and on the durable core
behind it.
-/

namespace OxKv

/-- An operation of `CachedOxKvStore`, of one of its transactions, or of `inner()`. -/
inductive CachedCall where
  | put (key : Key) (value : Bytes)
  | set (key : Key) (value : Bytes)
  | delete (key : Key)
  | get (key : Key)
  | has (key : Key)
  | gets (limit : Option Nat) (d : Direction) (c : Cursor)
  | warm
  | warmStep (pages : Nat)
  | refresh
  | checkStale
  | getChecked (key : Key)
  | hasChecked (key : Key)
  | getsChecked (limit : Option Nat) (d : Direction) (c : Cursor)
  | txSet (tx : Nat) (key : Key) (value : Bytes)
  | txPut (tx : Nat) (key : Key) (value : Bytes)
  | txDelete (tx : Nat) (key : Key)
  | txGet (tx : Nat) (key : Key)
  | txHas (tx : Nat) (key : Key)
  | txGets (tx : Nat) (limit : Option Nat) (d : Direction) (c : Cursor)
  | txCommit (tx : Nat)
  | txRollback (tx : Nat)
  | inner (c : Call)

structure CachedTxTable where
  cached : Nat → CachedTx
  core : TxTable

namespace CachedTxTable

def none : CachedTxTable := ⟨fun _ => CachedTx.begin, TxTable.none⟩

def set (txs : CachedTxTable) (t : Nat) (tx : CachedTx) : CachedTxTable :=
  { txs with cached := Function.update txs.cached t tx }

end CachedTxTable

abbrev CachedProg (α : Type) : Type 1 := Prog (Plus Act MirrorAct) α

namespace CachedCall

def replying {α : Type} (f : Res α → Reply) (txs : CachedTxTable) (p : CachedIo α) :
    CachedProg (Reply × CachedTxTable) :=
  Prog.bind p fun r => Prog.ret (f r, txs)

def updating {α : Type} (f : Res α → Reply) (txs : CachedTxTable) (t : Nat)
    (p : CachedIo (α × CachedTx)) : CachedProg (Reply × CachedTxTable) :=
  Prog.bind p fun
    | .ok (a, tx) => Prog.ret (f (.ok a), txs.set t tx)
    | .error e => Prog.ret (f (.error e), txs)

def run (cx : Ctx) (txs : CachedTxTable) : CachedCall → CachedProg (Reply × CachedTxTable)
  | .put key value => replying .done txs (Cached.putBytes cx key value)
  | .set key value => replying .value txs (Cached.setBytes cx key value)
  | .delete key => replying .flag txs (Cached.delete cx key)
  | .get key => replying .value txs (Cached.getBytes cx key)
  | .has key => replying .flag txs (Cached.has cx key)
  | .gets limit d c => replying .rows txs (Cached.getsBytes cx limit d c)
  | .warm => replying .plain txs (Cached.warm cx)
  | .warmStep pages => replying .flag txs (Cached.warmStep cx pages)
  | .refresh => replying .plain txs (Cached.refresh cx)
  | .checkStale => replying .flag txs (Cached.checkStale cx)
  | .getChecked key => replying .value txs (Cached.getBytesChecked cx key)
  | .hasChecked key => replying .flag txs (Cached.hasChecked cx key)
  | .getsChecked limit d c => replying .rows txs (Cached.getsBytesChecked cx limit d c)
  | .txSet t key value => updating .value txs t (CachedTx.setBytes cx (txs.cached t) key value)
  | .txPut t key value =>
    updating .done txs t (do return ((), ← CachedTx.putBytes cx (txs.cached t) key value))
  | .txDelete t key => updating .flag txs t (CachedTx.delete cx (txs.cached t) key)
  | .txGet t key => replying .value txs (CachedTx.getBytes cx (txs.cached t) key)
  | .txHas t key => replying .flag txs (CachedTx.has cx (txs.cached t) key)
  | .txGets t limit d c => replying .rows txs (CachedTx.getsBytes cx (txs.cached t) limit d c)
  -- both consume the transaction; the number then stands for a new one
  | .txCommit t =>
    replying .done (txs.set t CachedTx.begin) (CachedTx.commit cx (txs.cached t))
  | .txRollback t => Prog.ret (.done (.ok ()), txs.set t CachedTx.begin)
  | .inner c => (c.run cx txs.core).lift.bind fun r => Prog.ret (r.1, { txs with core := r.2 })

end CachedCall

/-- Issue the calls one after the other, numbered from `n`; the result are the open
transactions. -/
def cachedClient (cx : Ctx) : List CachedCall → Nat → CachedTxTable → CachedProg CachedTxTable
  | [], _, txs => .ret txs
  | c :: cs, n, txs =>
    .act (.ext (.mark (.invoked n))) fun _ =>
      (c.run cx txs).bind fun r =>
        .act (.ext (.mark (.returned n r.1))) fun _ => cachedClient cx cs (n + 1) r.2

/-- Build a store, issue calls on it, open it as a cached store and issue calls there; the
result is `none` if the store could not be built or opened. -/
def cachedSession (b : Builder) (pre : List Call) (mode : Cached.WarmMode)
    (calls : List CachedCall) : CachedProg (Option (Ctx × CachedTxTable)) :=
  Prog.bind (build b).lift fun
    | .error _ => .ret none
    | .ok cx =>
      Prog.bind (client cx pre 0 TxTable.none).lift fun _ =>
        Prog.bind (Cached.openWithMode cx mode) fun
          | .error _ => .ret none
          | .ok _ =>
            (cachedClient cx calls 0 CachedTxTable.none).bind fun txs =>
              .ret (some (cx, txs))

/-- The replies to the calls of a thread, oldest first. -/
def Mirrors.replies (e : Mirrors) (who : Who) : List Reply :=
  e.hist.reverse.filterMap fun
    | (who', .returned _ r) => if who' = who then some r else none
    | (_, .invoked _) => none

/-- What a thread of a pool does: a clone of a cached handle issues calls, or it is a
thread of the plain engine. -/
inductive CachedJob where
  | clone (inst : Nat) (cx : Ctx) (calls : List CachedCall)
  | plain (job : Job)

namespace CachedJob

def inst : CachedJob → Nat
  | clone i _ _ => i
  | plain job => job.inst

def prog : CachedJob → CachedProg Unit
  | clone _ cx calls => (cachedClient cx calls 0 CachedTxTable.none).bind fun _ => .ret ()
  | plain job => job.prog.lift

end CachedJob

def cachedSpawn (jobs : List CachedJob) : List (Who × CachedProg Unit) :=
  jobs.mapIdx fun j job => (⟨j, job.inst⟩, job.prog)

theorem getElem?_cachedSpawn {jobs : List CachedJob} {j : Nat} {w : Who} {p : CachedProg Unit}
    (h : (cachedSpawn jobs)[j]? = some (w, p)) :
    ∃ job, jobs[j]? = some job ∧ w = ⟨j, job.inst⟩ ∧ p = job.prog := by
  rw [cachedSpawn, List.getElem?_mapIdx] at h
  obtain ⟨job, hjob, heq⟩ := Option.map_eq_some_iff.mp h
  obtain ⟨rfl, rfl⟩ := Prod.mk.inj heq
  exact ⟨job, hjob, rfl, rfl⟩

theorem cachedSpawn_distinct (jobs : List CachedJob) :
    Rules.Distinct (M := cachedEngine) (cachedSpawn jobs) := by
  have hnodup : ((cachedSpawn jobs).map Prod.fst).Nodup := by
    rw [cachedSpawn, List.nodup_iff_injective_get]
    intro a b hab
    simp only [List.get_eq_getElem, List.getElem_map, List.getElem_mapIdx, Who.mk.injEq] at hab
    exact Fin.ext hab.1
  exact hnodup

end OxKv
