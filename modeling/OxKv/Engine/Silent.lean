import OxKv.Engine.Calls
import OxKv.Engine.Reads

/-!
The procedures that publish nothing: everything but the ends of `set_bytes`, `delete` and
`commit`. A silent procedure leaves the published events of its handle alone, and the
replies of its thread.
-/

namespace OxKv

/-- Neither publishes an event, nor reports to the caller, nor opens a handle. -/
def Act.silent {β : Type} : Act β → Bool
  | .notify _ | .mark _ | .newHandle _ _ _ => false
  | _ => true

def Io.Silent {α : Type} (p : Io α) : Prop := p.Only fun a => a.silent = true

theorem Io.Looks.silent {α : Type} {p : Io α} (h : p.Looks) : p.Silent :=
  Prog.Only.mono h fun a ha => by cases a <;> first | rfl | cases ha

/-! ## Procedures with few kinds of actions -/

section Few

variable {A : {β : Type} → Act β → Prop} {cx : Ctx}

theorem readOwnership_only (h : A (.get .ownership)) : readOwnership.Only A := by
  refine .bind (.attempt (.call h)) fun r => ?_
  split
  · exact .pure _
  · exact .fail _
  · split
    · exact .pure _
    · exact .fail _

theorem checkOwnership_only (h : A (.get .ownership)) (missing : String) :
    (checkOwnership cx missing).Only A := by
  refine .bind (readOwnership_only h) fun r => ?_
  split
  · split
    · exact .pure _
    · exact .fail _
  · exact .fail _

theorem acquireOwnership_only (h : A (.get .ownership))
    (hput : ∀ r mode, A (.putOpts .ownership (.ownership r) mode)) (session : String) :
    (acquireOwnership session).Only A := by
  refine .bind (.bind (.attempt (.call h)) fun r => ?_) fun x => ?_
  · split
    · exact .pure _
    · exact .fail _
    · split
      · exact .pure _
      · exact .fail _
  · refine .bind (.attempt (.call (hput _ _))) fun r => ?_
    split
    · exact .pure _
    · exact .fail _
    · exact .fail _

theorem probeStore_only (hput : ∀ b mode, A (.putOpts .canary (.bytes b) mode))
    (h : A (.delete .canary)) : probeStore.Only A := by
  have hfail : ∀ e, (probeFail e).Only A := fun e => .bind (.attempt (.call h)) fun _ => .fail _
  refine .bind (.mapErr (.call (hput _ _))) fun first => .bind (.attempt (.call (hput _ _))) fun r => ?_
  split
  · refine .bind (.attempt (.call (hput _ _))) fun r => ?_
    split
    · exact .bind (.mapErr (.call (hput _ _))) fun _ => .mapErr (.call h)
    · exact hfail _
    · exact hfail _
  · exact hfail _
  · exact hfail _

theorem createVerified_only {path : ObjectPath} {o : Obj} (hput : A (.putOpts path o .create))
    (h : A (.get path)) (what : String) (seq : Nat) : (createVerified path o what seq).Only A := by
  refine .bind (.attempt (.call hput)) fun r => ?_
  split
  · exact .pure _
  · refine .bind (.mapErr (.call h)) fun x => ?_
    dsimp only
    split
    · exact .fail _
    · exact .pure _
  · exact .fail _

variable (h : ∀ p, A (.delete p))
include h

theorem deleteAll_only (ps : List ObjectPath) : (deleteAll ps).Only A := by
  induction ps with
  | nil => exact .pure _
  | cons p ps ih => exact .bind (.attempt (.call (h p))) fun _ => ih

theorem dropInputs_only (hdrop : ∀ p, A (.sstCacheRemove p)) (ps : List ObjectPath) :
    (dropInputs ps).Only A := by
  induction ps with
  | nil => exact .pure _
  | cons p ps ih => exact .bind (.act (hdrop p)) fun _ => .bind (.attempt (.call (h p))) fun _ => ih

theorem deleteWals_only (ps : List ObjectPath) : (deleteWals ps).Only A := by
  induction ps with
  | nil => exact .pure _
  | cons p ps ih => exact .bind (.mapErr (.call (h p))) fun _ => ih

theorem sweep_only (listed ps : List ObjectPath) (deleted : Nat) :
    (sweep listed ps deleted).Only A := by
  induction ps generalizing deleted with
  | nil => exact .pure _
  | cons p ps ih =>
    unfold sweep
    split
    · exact ih deleted
    · refine .bind (.attempt (.call (h p))) fun r => ?_
      split
      · exact ih _
      · exact .pure _

omit h

theorem sendAll_only {r : Res Unit} (hsend : ∀ id, A (.send id r)) (batch : List PendingWrite) :
    (sendAll r batch).Only A := by
  induction batch with
  | nil => exact .pure _
  | cons w ws ih => exact .bind (.act (hsend w.id)) fun _ => ih

end Few

variable (cx : Ctx)

theorem casManifest_silent (m : Manifest) (etag : Etag) : (casManifest m etag).Silent :=
  .mapErr (.call rfl)

/-! ## Maintenance -/

theorem spill_silent (blockSize : Nat) (rows : List Op) : (spill cx blockSize rows).Silent := by
  induction rows with
  | nil => exact .pure _
  | cons op rows ih =>
    obtain ⟨key, value⟩ := op
    cases value with
    | none => exact .bind ih fun _ => .pure _
    | some value =>
      unfold spill
      split
      · refine .bind (.bind (.attempt (.call rfl)) fun r => ?_) fun path => .bind ih fun _ => .pure _
        split
        · exact .pure _
        · exact .pure _
        · exact .fail _
      · exact .bind ih fun _ => .pure _

theorem flushMemToSstInner_silent (force : Bool) : (flushMemToSstInner cx force).Silent := by
  refine .bind (.act rfl) fun x => ?_
  split
  · exact .pure _
  · refine .bind (spill_silent cx _ _) fun rows => .bind (.ofRes _) fun f =>
      .bind (.act rfl) fun seq => .bind (createVerified_only rfl rfl _ _) fun _ =>
        .bind (checkOwnership_only rfl _) fun _ => .bind (loadManifest_looks cx true).silent fun x => ?_
    dsimp only
    split
    · exact .bind (.act rfl) fun _ => .pure _
    · refine .bind (.attempt (casManifest_silent _ _)) fun r => ?_
      split
      · exact .bind (.act rfl) fun _ => .bind (.act rfl) fun _ => .pure _
      · refine .bind (.act rfl) fun _ => .bind (loadManifest_looks cx false).silent fun y => ?_
        split
        · exact .bind (.act rfl) fun _ => .pure _
        · exact .fail _
      · exact .fail _

theorem casLoop_silent {α : Type} (idle : α) (edit : Manifest → α ⊕ Manifest)
    {after : Manifest → Io α} (h : ∀ m, (after m).Silent) (n : Nat) :
    (casLoop cx idle edit after n).Silent := by
  induction n with
  | zero => exact .pure _
  | succ n ih =>
    refine .bind (loadManifest_looks cx true).silent fun x => ?_
    dsimp only
    split
    · exact .pure _
    · refine .bind (.attempt (casManifest_silent _ _)) fun r => ?_
      split
      · exact .bind (.act rfl) fun _ => h _
      · exact .bind (.act rfl) fun _ => ih
      · exact .fail _

theorem gcWalLoop_silent (n : Nat) : (gcWalLoop cx n).Silent := by
  rw [gcWalLoop_eq]
  exact casLoop_silent cx _ _ (fun _ => .bind (deleteWals_only (fun _ => rfl) _) fun _ => .pure _) n

theorem gcOrphansInner_silent : (gcOrphansInner cx).Silent := by
  refine .bind (readOwnership_only rfl) fun r => ?_
  split
  · split
    · refine .bind (loadManifest_looks cx false).silent fun x =>
        .bind (.attempt (.call rfl)) fun r => ?_
      split
      · exact sweep_only (fun _ => rfl) _ _ _
      · exact .pure _
    · exact .pure _
  · exact .pure _

theorem compactionSources_silent (ms : List SstMeta) : (compactionSources cx ms).Silent := by
  induction ms with
  | nil => exact .pure _
  | cons m ms ih =>
    exact .bind (fetchSst_looks cx m.id).silent fun _ => .bind (.ofRes _) fun _ =>
      .bind (resolveOps_looks cx _).silent fun _ => .bind ih fun _ => .pure _

theorem removeLoop_silent (inputs : List SstMeta) (n : Nat) : (removeLoop cx inputs n).Silent := by
  rw [removeLoop_eq]
  exact casLoop_silent cx _ _ (fun _ => .bind (deleteAll_only (fun _ => rfl) _) fun _ => .pure _) n

theorem installLoop_silent (inputs : List SstMeta) (entry : SstMeta) (n : Nat) :
    (installLoop cx inputs entry n).Silent := by
  rw [installLoop_eq]
  exact casLoop_silent cx _ _
    (fun _ => .bind (dropInputs_only (fun _ => rfl) (fun _ => rfl) _) fun _ => .pure _) n

theorem compactInner_silent : (compactInner cx).Silent := by
  refine .bind (loadManifest_looks cx true).silent fun x => ?_
  dsimp only
  split
  · exact .pure _
  · refine .bind (compactionSources_silent cx _) fun sources =>
      .bind (spill_silent cx _ _) fun rows => ?_
    split
    · exact removeLoop_silent cx _ _
    · exact .bind (.ofRes _) fun f => .bind (.act rfl) fun seq =>
        .bind (createVerified_only rfl rfl _ _) fun _ => .bind (checkOwnership_only rfl _) fun _ =>
          installLoop_silent cx _ _ _

theorem maintainAfterWrite_silent (walLen : Nat) : (maintainAfterWrite cx walLen).Silent := by
  refine .bind (.attempt (flushMemToSstInner_silent cx false)) fun _ =>
    .bind (.attempt (compactInner_silent cx)) fun _ => ?_
  unfold maintainWal
  split
  · exact .pure _
  · refine .bind (.attempt (flushMemToSstInner_silent cx true)) fun r => ?_
    split
    · exact .pure _
    · exact .bind (.attempt (gcWalLoop_silent cx 4)) fun _ =>
        .bind (.attempt (gcOrphansInner_silent cx)) fun _ => .pure _

/-! ## Writes -/

theorem applyMem_silent (updates : List Op) : (applyMem updates).Silent := by
  unfold applyMem
  split
  · exact .pure _
  · exact .act rfl

theorem listWal_silent (id : ObjectPath) (updates : List Op) (n : Nat) :
    (listWal cx id updates n).Silent := by
  induction n with
  | zero => exact .pure _
  | succ n ih =>
    refine .bind (loadManifest_looks cx true).silent fun x => ?_
    dsimp only
    split
    · exact .bind (applyMem_silent _) fun _ => maintainAfterWrite_silent cx _
    · refine .bind (.attempt (casManifest_silent _ _)) fun r => ?_
      split
      · exact .bind (.act rfl) fun _ => .bind (applyMem_silent _) fun _ =>
          maintainAfterWrite_silent cx _
      · refine .bind (.act rfl) fun _ => ?_
        split
        · exact .fail _
        · exact ih
      · exact .fail _

theorem appendWalLocked_silent (payload : Bytes) (updates : List Op) :
    (appendWalLocked cx payload updates).Silent :=
  .bind (.act rfl) fun _ => .bind (createVerified_only rfl rfl _ _) fun _ =>
    .bind (checkOwnership_only rfl _) fun _ => listWal_silent cx _ _ _

theorem drainStagedLocked_silent : (drainStagedLocked cx).Silent := by
  refine .bind (.act rfl) fun ops => ?_
  split
  · exact .pure _
  · split
    · exact .bind (.act rfl) fun _ => .fail _
    · refine .bind (.attempt (appendWalLocked_silent cx _ _)) fun r => ?_
      split
      · exact .pure _
      · exact .bind (.act rfl) fun _ => .fail _

theorem withGate_silent {α : Type} {p : Io α} (h : p.Silent) : (withGate p).Silent :=
  .bind (.act rfl) fun _ => .bind (.attempt h) fun _ => .bind (.act rfl) fun _ => .ofRes _

theorem persistBatch_silent (batch : List PendingWrite) : (persistBatch cx batch).Silent := by
  unfold persistBatch
  split
  · exact .pure _
  · exact .bind (drainStagedLocked_silent cx) fun _ => appendWalLocked_silent cx _ _

theorem commitLoop_silent (id n : Nat) : (commitLoop cx id n).Silent := by
  induction n with
  | zero => exact .fail _
  | succ n ih =>
    refine .bind (.act rfl) fun r => ?_
    split
    · exact .ofRes _
    · refine .bind (.act rfl) fun batch => ?_
      split
      · exact .call rfl
      · refine .bind (.attempt (persistBatch_silent cx _)) fun r =>
          .bind (sendAll_only (fun _ => rfl) _) fun _ => ?_
        split
        · exact .ofRes _
        · exact ih

theorem putBytes_silent (key : Key) (value : Bytes) : (putBytes cx key value).Silent :=
  .bind (.ofRes _) fun _ => .bind (.act rfl) fun _ => .bind (.act rfl) fun _ =>
    withGate_silent (commitLoop_silent cx _ _)

theorem stage_silent (op : Op) : (stage op).Silent :=
  .bind (.act rfl) fun _ => .act rfl

theorem deleteLocked_silent (key : Key) : (deleteLocked cx key).Silent := by
  refine .bind (drainStagedLocked_silent cx) fun _ => .bind (getBytes_looks cx key).silent fun r => ?_
  split
  · exact .pure _
  · exact .bind (.ofRes _) fun _ => .bind (appendWalLocked_silent cx _ _) fun _ => .pure _

/-! ## Validation -/

theorem Check.run_silent {view : StoreView Io} (h : view.All fun p => p.Silent) (c : Check) :
    (c.run view).Silent := by
  induction c with
  | done r => exact .ofRes r
  | get k _ ih => exact .bind (.attempt (h.get k)) ih
  | has k _ ih => exact .bind (.attempt (h.has k)) ih
  | gets limit d c _ ih => exact .bind (.attempt (h.getsBytes limit d c)) ih

theorem storeView_silent : (storeView cx).All fun p => p.Silent :=
  ⟨fun k => (getBytes_looks cx k).silent, fun k => (has_looks cx k).silent,
    fun limit d c => (getsBytes_looks cx limit d c).silent⟩

/-! ## Transactions -/

theorem txGetBytes_silent (tx : Tx) (key : Key) : (txGetBytes cx tx key).Silent := by
  unfold txGetBytes
  split
  · exact (resolveHit_looks cx _).silent
  · exact (getBytes_looks cx key).silent

theorem txHas_silent (tx : Tx) (key : Key) : (txHas cx tx key).Silent :=
  .bind (txGetBytes_silent cx tx key) fun _ => .pure _

theorem txGetsBytes_silent (tx : Tx) (limit : Option Nat) (d : Direction) (c : Cursor) :
    (txGetsBytes cx tx limit d c).Silent :=
  (retryOnceNotFound_looks (.bind (.act rfl) fun _ => rangeLookup_looks cx _ limit d c)).silent

theorem Tx.view_silent (tx : Tx) : (tx.view cx).All fun p => p.Silent :=
  ⟨txGetBytes_silent cx tx, txHas_silent cx tx, txGetsBytes_silent cx tx⟩

theorem revalidate_silent (tx : Tx) (es : List ChangeEvent) : (revalidate cx tx es).Silent := by
  induction es with
  | nil => exact .pure _
  | cons e es ih =>
    refine .bind ?_ fun _ => ih
    unfold revalidateEvent
    split
    · exact Check.run_silent ((tx.view_silent cx).revalidate .pure _ _) _
    · exact .pure _

theorem commitLocked_silent (updates : List Op) : (commitLocked cx updates).Silent := by
  unfold commitLocked
  split
  · exact .pure _
  · exact .bind (.ofRes _) fun _ => .bind (drainStagedLocked_silent cx) fun _ =>
      .bind (appendWalLocked_silent cx _ _) fun _ => .pure _

/-! ## Opening -/

theorem replayPass_silent (ids : List ObjectPath) : (replayPass ids).Silent := by
  induction ids with
  | nil => exact .pure _
  | cons id ids ih =>
    refine .bind (.attempt (.call rfl)) fun r => ?_
    split
    · exact .bind (.act rfl) fun _ => ih
    · exact ih
    · split
      · exact .bind ih fun _ => .pure _
      · exact .fail _

theorem replayListedWals_silent (ids : List ObjectPath) : (replayListedWals cx ids).Silent := by
  refine .bind (replayPass_silent ids) fun missing => ?_
  split
  · exact .pure _
  · refine .bind (.act rfl) fun _ => .bind (loadManifest_looks cx false).silent fun x =>
      .bind (replayPass_silent _) fun missing => ?_
    split
    · exact .pure _
    · exact .fail _

end OxKv
