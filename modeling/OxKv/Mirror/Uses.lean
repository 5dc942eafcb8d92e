import OxKv.Engine.Reads
import OxKv.Mirror.Calls

/-!
What the procedures of a cached store do to its mirror.

`MirrorAct.rank` orders the actions by what they may do to the poison: those that never clear
it, the ones that observe a manifest, the ends of a refresh, and those that no procedure
performs. `MirrorAct.direct` are the actions of reads and writes outside of a commit.
-/

namespace OxKv

/-- `0`: does not clear the poison; `1`: observes a manifest; `2`: ends a refresh; `3`:
opens the store or reports. -/
def MirrorAct.rank {β : Type} : MirrorAct β → Nat
  | .observe _ | .scanFinish _ => 1
  | .adopt _ _ | .catchUp _ => 2
  | .open _ | .mark _ => 3
  | _ => 0

theorem mark?_of_rank {β : Type} {a : MirrorAct β} (h : a.rank ≤ 2) : a.mark? = none := by
  cases a <;> first | rfl | (exact absurd h (by simp [MirrorAct.rank]))

def MirrorAct.direct {β : Type} : MirrorAct β → Bool
  | .mapGet _ | .mapHas _ | .mapPut _ _ | .mapDelete _ | .mapGets _ _ _ => true
  | .state | .poison _ | .observe _ => true
  | _ => false

theorem MirrorAct.rank_of_direct {β : Type} {a : MirrorAct β} (h : a.direct = true) :
    a.rank ≤ 1 := by
  cases a <;> first | exact Nat.zero_le 1 | exact Nat.le_refl 1 | cases h

/-- Every action of the program is in `A`. -/
def Acts {α : Type} (A : {β : Type} → Plus Act MirrorAct β → Prop) (p : CachedProg α) : Prop :=
  p.Only A

/-- Actions of at most the given rank. -/
def Plus.upTo {β : Type} (k : Nat) : Plus Act MirrorAct β → Prop
  | .core _ => True
  | .ext b => b.rank ≤ k

/-- The same, with a durable core that is only looked at. -/
def Plus.scans {β : Type} (k : Nat) : Plus Act MirrorAct β → Prop
  | .core a => a.looks = true
  | .ext b => b.rank ≤ k

def Plus.direct {β : Type} : Plus Act MirrorAct β → Prop
  | .core _ => True
  | .ext b => b.direct = true

def UpTo {α : Type} (k : Nat) (p : CachedProg α) : Prop := Acts (Plus.upTo k) p

def Scans {α : Type} (k : Nat) (p : CachedProg α) : Prop := Acts (Plus.scans k) p

def Direct {α : Type} (p : CachedProg α) : Prop := Acts Plus.direct p

section Rules

variable {α β : Type} {j k : Nat}

namespace Acts

variable {A : {β : Type} → Plus Act MirrorAct β → Prop}

theorem ret (a : α) : Acts A (.ret a : CachedProg α) := trivial

theorem progBind {p : CachedProg α} {f : α → CachedProg β} (hp : Acts A p)
    (hf : ∀ a, Acts A (f a)) : Acts A (p.bind f) :=
  Prog.Only.bind hp hf

theorem act {a : MirrorAct α} (h : A (.ext a)) : Acts A (CachedIo.act a) := ⟨h, fun _ => trivial⟩

theorem core {p : Io α} (h : p.Only fun a => A (.core a)) : Acts A (CachedIo.core p) :=
  Prog.Only.lift h fun _ ha => ha

theorem bind {p : CachedIo α} {f : α → CachedIo β} (hp : Acts A p) (hf : ∀ a, Acts A (f a)) :
    Acts A (p >>= f : CachedIo β) := by
  refine Prog.Only.bind hp fun r => ?_
  cases r with
  | ok a => exact hf a
  | error e => trivial

theorem attemptBind {p : CachedIo α} {f : Res α → CachedIo β} (hp : Acts A p)
    (hf : ∀ r, Acts A (f r)) : Acts A (.attempt p >>= f : CachedIo β) :=
  bind (Prog.Only.bind hp fun _ => trivial) hf

end Acts

theorem UpTo.mono {p : CachedProg α} (h : UpTo j p) (hjk : j ≤ k) : UpTo k p :=
  Prog.Only.mono h fun a ha => by
    cases a with
    | core a => trivial
    | ext b => exact Nat.le_trans ha hjk

variable {p : CachedProg α}

theorem Scans.mono (h : Scans j p) (hjk : j ≤ k) : Scans k p :=
  Prog.Only.mono h fun a ha => by
    cases a with
    | core a => exact ha
    | ext b => exact Nat.le_trans ha hjk

theorem Scans.upTo (h : Scans k p) : UpTo k p :=
  Prog.Only.mono h fun a ha => by
    cases a with
    | core a => trivial
    | ext b => exact ha

theorem Direct.upTo (h : Direct p) : UpTo 1 p :=
  Prog.Only.mono h fun a ha => by
    cases a with
    | core a => trivial
    | ext b => exact MirrorAct.rank_of_direct ha

end Rules

namespace Cached

variable (cx : Ctx)

/-! ## Reads and writes -/

theorem state_direct : Direct (CachedIo.act .state) := .act rfl

theorem rejectIfPoisoned_direct : Direct rejectIfPoisoned := by
  refine .bind state_direct fun st => ?_
  split <;> exact .ret _

theorem getBytes_direct (key : Key) : Direct (getBytes cx key) := by
  refine .bind rejectIfPoisoned_direct fun _ => .bind (.act rfl) fun v => ?_
  cases v with
  | some v => exact .ret _
  | none =>
    refine .bind state_direct fun st => ?_
    split
    · exact .ret _
    · refine .bind (.core (.any _)) fun v => ?_
      cases v with
      | some v => exact .bind (.act rfl) fun _ => .ret _
      | none => exact .ret _

theorem has_direct (key : Key) : Direct (has cx key) := by
  refine .bind rejectIfPoisoned_direct fun _ => .bind (.act rfl) fun b => ?_
  cases b with
  | true => exact .ret _
  | false =>
    refine .bind state_direct fun st => ?_
    split
    · exact .ret _
    · exact .core (.any _)

theorem getsBytes_direct (limit : Option Nat) (d : Direction) (c : Cursor) :
    Direct (getsBytes cx limit d c) := by
  refine .bind rejectIfPoisoned_direct fun _ => .bind state_direct fun st => ?_
  split
  · exact .act rfl
  · exact .core (.any _)

theorem writeThrough_direct {α : Type} (p : Io α) : Direct (writeThrough p) := by
  refine .attemptBind (.core (.any p)) fun r => ?_
  cases r with
  | ok a => exact .ret _
  | error e =>
    refine .bind ?_ fun _ => .ret _
    cases e with
    | fenced why => exact .act rfl
    | _ => exact .ret _

theorem syncAfterWrite_direct : Direct syncAfterWrite := by
  refine .bind (.core (.any _)) fun x => ?_
  obtain ⟨_ | ⟨m, t⟩, skip⟩ := x
  · exact .ret _
  · exact .act rfl

theorem putBytes_direct (key : Key) (value : Bytes) : Direct (putBytes cx key value) :=
  .bind rejectIfPoisoned_direct fun _ =>
    .bind ((writeThrough_direct _)) fun _ =>
      .bind (.act rfl) fun _ => syncAfterWrite_direct

theorem setBytes_direct (key : Key) (value : Bytes) : Direct (setBytes cx key value) :=
  .bind rejectIfPoisoned_direct fun _ =>
    .bind (.act rfl) fun _ =>
      .bind ((writeThrough_direct _)) fun _ =>
        .bind (.act rfl) fun _ => .bind syncAfterWrite_direct fun _ => .ret _

theorem delete_direct (key : Key) : Direct (delete cx key) := by
  refine .bind rejectIfPoisoned_direct fun _ =>
    .bind ((writeThrough_direct _)) fun existed => ?_
  cases existed with
  | true =>
    exact .bind (.act rfl) fun _ => .bind syncAfterWrite_direct fun _ => .ret _
  | false => exact .bind syncAfterWrite_direct fun _ => .ret _

/-! ## The scan -/

theorem overlayRecords_scans (ops : List Op) : Scans 0 (overlayRecords ops) := by
  induction ops with
  | nil => exact .ret _
  | cons op ops ih =>
    obtain ⟨key, _ | raw⟩ := op
    · exact .bind (.act (Nat.le_refl 0)) fun _ => .bind (.act (Nat.le_refl 0)) fun _ => ih
    · exact .bind (.act (Nat.le_refl 0)) fun _ => .bind (.act (Nat.le_refl 0)) fun _ => ih

theorem applyRecords_scans (ops : List Op) : Scans 0 (applyRecords ops) := by
  induction ops with
  | nil => exact .ret _
  | cons op ops ih =>
    obtain ⟨key, _ | raw⟩ := op
    · exact .bind (.act (Nat.le_refl 0)) fun _ => ih
    · exact .bind (.act (Nat.le_refl 0)) fun _ => ih

theorem eachWal_scans {records : List Op → CachedIo Unit} (h : ∀ ops, Scans 0 (records ops))
    (ids : List ObjectPath) (applied : Nat) : Scans 0 (eachWal records ids applied) := by
  induction ids generalizing applied with
  | nil => exact .ret _
  | cons id ids ih =>
    refine .attemptBind (.core (.call rfl)) fun r => ?_
    cases r with
    | error e =>
      simp only
      split
      · exact ih _
      · exact .ret _
    | ok x =>
      obtain ⟨o, t⟩ := x
      cases o with
      | bytes b => exact .bind (h _) fun _ => ih _
      | _ => exact ih _

theorem dropUnscanned_scans (scanned : Finset Key) (rows : List KeyValue) :
    Scans 0 (dropUnscanned scanned rows) := by
  induction rows with
  | nil => exact .ret _
  | cons kv rows ih =>
    rw [dropUnscanned]
    split
    · exact ih
    · exact .bind (.act (Nat.le_refl 0)) fun _ => ih

theorem finishWarm_scans (m : Manifest) : Scans 1 (finishWarm m) :=
  .bind ((eachWal_scans overlayRecords_scans _ _).mono (Nat.zero_le 1)) fun _ =>
    .bind (.act (Nat.zero_le 1)) fun _ => .bind (.act (Nat.zero_le 1)) fun _ =>
      .bind ((dropUnscanned_scans _ _).mono (Nat.zero_le 1)) fun _ => .act (Nat.le_refl 1)

theorem mirrorPage_scans (cursor : Option Key) (rows : List KeyValue) (applied : Nat) :
    Scans 0 (mirrorPage cursor rows applied) := by
  induction rows generalizing applied with
  | nil => exact .ret _
  | cons kv rows ih =>
    rw [mirrorPage]
    split
    · exact ih _
    · exact .bind (.act (Nat.le_refl 0)) fun _ => .bind (.act (Nat.le_refl 0)) fun _ => ih _

theorem scanPages_scans (m : Manifest) (pages applied : Nat) :
    Scans 1 (scanPages cx m pages applied) := by
  induction pages generalizing applied with
  | zero => exact .ret _
  | succ pages ih =>
    refine .bind (.act (Nat.zero_le 1)) fun st =>
      .bind (.core (getsBytes_looks cx _ _ _)) fun batch => ?_
    cases batch.getLast? with
    | none => exact .bind (finishWarm_scans m) fun _ => .ret _
    | some last =>
      refine .bind ((mirrorPage_scans _ _ _).mono (Nat.zero_le 1)) fun _ =>
        .bind (.act (Nat.zero_le 1)) fun _ => ?_
      split
      · exact .bind (finishWarm_scans m) fun _ => .ret _
      · exact ih _

theorem warmPages_scans (n : Nat) : Scans 1 (warmPages cx n) := by
  refine .bind (.act (Nat.zero_le 1)) fun st => ?_
  split
  · exact .ret _
  · exact .bind (.core (loadManifest_looks cx false)) fun x => scanPages_scans cx _ _ _

theorem warmLoop_scans (rounds applied : Nat) : Scans 1 (warmLoop cx rounds applied) := by
  induction rounds generalizing applied with
  | zero => exact .ret _
  | succ rounds ih =>
    refine .bind (warmPages_scans cx _) fun x => ?_
    obtain ⟨_ | _, n⟩ := x
    · exact ih _
    · exact .ret _

theorem withScanGate_scans {α : Type} {k : Nat} {p : CachedIo α} (h : Scans k p) :
    Scans k (withScanGate p) :=
  .bind (.act (Nat.zero_le k)) fun _ => .attemptBind h fun _ =>
    .bind (.act (Nat.zero_le k)) fun _ => .ret _

theorem warm_scans : Scans 1 (warm cx) :=
  withScanGate_scans (.bind (.act (Nat.zero_le 1)) fun _ => warmLoop_scans cx _ _)

theorem warmStep_scans (pages : Nat) : Scans 1 (warmStep cx pages) :=
  withScanGate_scans (.bind (warmPages_scans cx _) fun _ => .ret _)

/-! ## Freshness -/

theorem checkStale_direct : Direct (checkStale cx) := by
  refine .bind (.bind state_direct fun _ => .ret _) fun poisoned => ?_
  cases poisoned with
  | true => exact .ret _
  | false => exact .bind (.core (.any _)) fun _ => .bind state_direct fun _ => .ret _

theorem refresh_upTo : UpTo 2 (refresh cx) := by
  refine .bind (.act (Nat.zero_le 2)) fun known => .bind (.core (.any _)) fun x => ?_
  simp only
  split
  · exact .ret _
  · refine .bind (.core (.any _)) fun owner => ?_
    split
    · exact .bind ((warm_scans cx).upTo.mono (Nat.le_succ 1)) fun _ =>
        .bind (.act (Nat.le_refl 2)) fun _ => .ret _
    · exact .bind ((eachWal_scans applyRecords_scans _ _).upTo.mono (Nat.zero_le 2)) fun _ =>
        .bind (.act (Nat.le_refl 2)) fun _ => .ret _

theorem maybeRefresh_upTo : UpTo 2 (maybeRefresh cx) := by
  refine .bind (.act (Nat.zero_le 2)) fun expired => ?_
  cases expired with
  | true => exact .bind (refresh_upTo cx) fun _ => .ret _
  | false => exact .ret _

/-! ## Transactions -/

theorem tx_getBytes_direct (t : CachedTx) (key : Key) : Direct (CachedTx.getBytes cx t key) := by
  unfold CachedTx.getBytes
  split
  · exact .ret _
  · refine .bind (.act rfl) fun v => ?_
    cases v with
    | some v => exact .ret _
    | none =>
      refine .bind state_direct fun st => ?_
      split
      · exact .ret _
      · exact .core (.any _)

theorem tx_has_direct (t : CachedTx) (key : Key) : Direct (CachedTx.has cx t key) := by
  unfold CachedTx.has
  split
  · exact .ret _
  · refine .bind (.act rfl) fun b => ?_
    cases b with
    | true => exact .ret _
    | false =>
      refine .bind state_direct fun st => ?_
      split
      · exact .ret _
      · exact .core (.any _)

theorem tx_delete_direct (t : CachedTx) (key : Key) : Direct (CachedTx.delete cx t key) := by
  unfold CachedTx.delete
  split
  · exact .ret _
  · refine .bind (.core (.any _)) fun x => ?_
    obtain ⟨_ | _, tx⟩ := x <;> exact .ret _

theorem tx_putBytes_direct (t : CachedTx) (key : Key) (value : Bytes) :
    Direct (CachedTx.putBytes cx t key value) :=
  .bind (.core (.any _)) fun _ => .ret _

theorem tx_setBytes_direct (t : CachedTx) (key : Key) (value : Bytes) :
    Direct (CachedTx.setBytes cx t key value) :=
  .bind (tx_getBytes_direct cx t key) fun _ => .bind (.core (.any _)) fun _ => .ret _

theorem tx_getsBytes_direct (t : CachedTx) (limit : Option Nat) (d : Direction) (c : Cursor) :
    Direct (CachedTx.getsBytes cx t limit d c) := by
  refine .bind (.bind state_direct fun st => ?_) fun _ => .ret _
  split
  · exact .act rfl
  · exact .core (.any _)

theorem applyStaged_upTo (ops : List Op) : UpTo 0 (CachedTx.applyStaged ops) := by
  induction ops with
  | nil => exact .ret _
  | cons op ops ih => exact .bind (.act (Nat.le_refl 0)) fun _ => ih

theorem commit_upTo (t : CachedTx) : UpTo 1 (CachedTx.commit cx t) :=
  .bind (writeThrough_direct _).upTo fun _ =>
    .bind ((applyStaged_upTo _).mono (Nat.zero_le 1)) fun _ => syncAfterWrite_direct.upTo

end Cached

/-! ## Calls -/

namespace CachedCall

variable {cx : Ctx} {txs : CachedTxTable} {α : Type} {A : {β : Type} → Plus Act MirrorAct β → Prop}

/-- The calls that may refresh the mirror. -/
def refreshes : CachedCall → Bool
  | .refresh | .getChecked _ | .hasChecked _ | .getsChecked _ _ _ => true
  | _ => false

/-- The calls that neither scan nor refresh nor commit. -/
def direct : CachedCall → Bool
  | .warm | .warmStep _ | .txCommit _ => false
  | c => !c.refreshes

theorem replying_acts {f : Res α → Reply} {p : CachedIo α} (h : Acts A p) :
    Acts A (replying f txs p) :=
  .progBind h fun _ => .ret _

theorem updating_acts {f : Res α → Reply} {t : Nat} {p : CachedIo (α × CachedTx)} (h : Acts A p) :
    Acts A (updating f txs t p) := by
  refine .progBind h fun r => ?_
  rcases r with _ | ⟨a, tx⟩ <;> exact .ret _

theorem run_direct {c : CachedCall} (hc : c.direct = true) : Direct (c.run cx txs) := by
  cases c with
  | put key value => exact replying_acts (Cached.putBytes_direct cx key value)
  | set key value => exact replying_acts (Cached.setBytes_direct cx key value)
  | delete key => exact replying_acts (Cached.delete_direct cx key)
  | get key => exact replying_acts (Cached.getBytes_direct cx key)
  | has key => exact replying_acts (Cached.has_direct cx key)
  | gets limit d c => exact replying_acts (Cached.getsBytes_direct cx limit d c)
  | checkStale => exact replying_acts (Cached.checkStale_direct cx)
  | txSet t key value => exact updating_acts (Cached.tx_setBytes_direct cx _ key value)
  | txPut t key value =>
    exact updating_acts (.bind (Cached.tx_putBytes_direct cx _ key value) fun _ => .ret _)
  | txDelete t key => exact updating_acts (Cached.tx_delete_direct cx _ key)
  | txGet t key => exact replying_acts (Cached.tx_getBytes_direct cx _ key)
  | txHas t key => exact replying_acts (Cached.tx_has_direct cx _ key)
  | txGets t limit d c => exact replying_acts (Cached.tx_getsBytes_direct cx _ limit d c)
  | txRollback t => exact .ret _
  | inner c => exact .progBind ((Prog.only_true _).lift fun _ _ => trivial) fun _ => .ret _
  | _ => cases hc

/-- Only the calls that refresh end a refresh. -/
theorem run_upTo (c : CachedCall) : UpTo (if c.refreshes then 2 else 1) (c.run cx txs) := by
  cases c with
  | warm => exact replying_acts (Cached.warm_scans cx).upTo
  | warmStep pages => exact replying_acts (Cached.warmStep_scans cx pages).upTo
  | refresh => exact replying_acts (Cached.refresh_upTo cx)
  | getChecked key =>
    exact replying_acts (.bind (Cached.maybeRefresh_upTo cx) fun _ =>
      (Cached.getBytes_direct cx key).upTo.mono (Nat.le_succ 1))
  | hasChecked key =>
    exact replying_acts (.bind (Cached.maybeRefresh_upTo cx) fun _ =>
      (Cached.has_direct cx key).upTo.mono (Nat.le_succ 1))
  | getsChecked limit d c =>
    exact replying_acts (.bind (Cached.maybeRefresh_upTo cx) fun _ =>
      (Cached.getsBytes_direct cx limit d c).upTo.mono (Nat.le_succ 1))
  | txCommit t => exact replying_acts (Cached.commit_upTo cx _)
  | _ => exact (run_direct rfl).upTo

end CachedCall

end OxKv
