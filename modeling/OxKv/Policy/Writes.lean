import OxKv.Policy.Reads
import OxKv.Proc.Commit

/-!
The procedures that write: maintenance, the durable append, group commit, deletes,
transactions and the opening of a store. They put allowed pairs into files, logs and
MemTables, if they are given allowed pairs.
-/

namespace OxKv.Policy

variable {cr : Crates} {P : Policy cr} {who : Who} {cx : Ctx}

/-! ## Objects -/

theorem Keeps.callTrue {α : Type} {a : Act (Res α)} (ha : P.Takes a) :
    P.Keeps who (Io.call a) fun _ => True :=
  .mono (.call ha) fun _ _ => trivial

theorem Keeps.actTrue {α : Type} {a : Act α} (ha : P.Takes a) :
    P.Keeps who (Io.act a) fun _ => True :=
  .mono (.act ha) fun _ _ => trivial

section

variable (hcr : cx.crates = cr)
include hcr

variable {value : Bytes} {key : Key}

/-- The blob of an allowed value. -/
theorem putBlob_keeps (h : P.ok key value) :
    P.Keeps who (putBlob cx value) (· = .blob cx.epoch (cr.blobHash value)) := by
  subst hcr
  have hblob : P.CleanObj (.blob cx.epoch (cx.crates.blobHash value)) (.bytes value) :=
    ⟨rfl, key, h⟩
  refine .bind (.attempt (.callTrue hblob)) fun r _ => ?_
  split
  · exact .pure rfl
  · exact .pure rfl
  · exact .fail _

theorem spill_keeps (blockSize : Nat) {rows : List Op} (h : ∀ op ∈ rows, P.Allows op) :
    P.Keeps who (spill cx blockSize rows) fun rs => ∀ op ∈ rs, P.Row op := by
  induction rows with
  | nil => exact .pure nofun
  | cons op rows ih =>
    obtain ⟨hop, hrows⟩ := List.forall_mem_cons.mp h
    obtain ⟨key, value⟩ := op
    cases value with
    | none =>
      refine .bind (ih hrows) fun rs hrs => .pure ?_
      exact List.forall_mem_cons.mpr ⟨(allows_none key).row, hrs⟩
    | some value =>
      unfold spill
      split
      · refine .bind (putBlob_keeps hcr (hop value rfl)) fun path hpath => ?_
        refine .bind (ih hrows) fun rs hrs => .pure (List.forall_mem_cons.mpr ⟨?_, hrs⟩)
        subst hcr hpath
        rintro _ ⟨⟩
        exact ⟨value, hop value rfl, .inr ⟨cx.epoch, rfl⟩⟩
      · refine .bind (ih hrows) fun rs hrs => .pure ?_
        exact List.forall_mem_cons.mpr ⟨hop.row, hrs⟩

omit hcr in
theorem Stands.length {raw : Bytes} (h : P.Stands key raw) : raw.length ≠ tombstoneVlen := by
  obtain ⟨v, hv, rfl | ⟨e, rfl⟩⟩ := h
  · exact Nat.ne_of_lt (P.length hv)
  · exact cr.pointer_length _

/-- A file that is built from rows is clean. -/
theorem buildSst_clean {rows : List Op} {blockSize : Nat} {f : SstFile}
    (h : buildSst cx.crates.crc32 (SortedMap.empty.insertAll rows) blockSize = .ok f)
    (hrows : ∀ op ∈ rows, P.Row op) : P.CleanFile f := by
  subst hcr
  have hmap : ∀ op ∈ (SortedMap.empty.insertAll rows : MemMap).toList, P.Row op :=
    SortedMap.forall_mem_insertAll nofun hrows
  refine ⟨_, buildSst_holds h fun k v hget => ?_, hmap⟩
  exact (hmap _ ((SortedMap.mem_toList _ k _).mpr hget) v rfl).length

/-! ## Maintenance -/

theorem flushMemToSstInner_keeps (force : Bool) :
    P.Keeps who (flushMemToSstInner cx force) fun _ => True := by
  refine .bind (.act trivial) fun x hx => ?_
  cases x with
  | none => exact .pure trivial
  | some snapshot =>
    refine .bind (spill_keeps hcr _ (hx snapshot rfl)) fun rows hrows => ?_
    refine .bind (.ofRes fun f hf => buildSst_clean hcr hf hrows) fun f hf => ?_
    refine .bind (.actTrue trivial) fun seq _ => ?_
    have hobj : P.CleanObj (.sst cx.epoch 0 seq) (.sst f) := hf
    refine .bind (.ofOnly (createVerified_only hobj trivial _ _)) fun _ _ => ?_
    refine .bind (.ofOnly (checkOwnership_only trivial _)) fun _ _ => ?_
    refine .bind (loadManifest_keeps cx true) fun x hm => ?_
    have hdiscard : ∀ m : SstMeta, P.Keeps who (do
        Io.act (.memDiscard snapshot)
        return some m) fun _ => True :=
      fun m => .bind (.actTrue trivial) fun _ _ => .pure trivial
    dsimp only
    split
    · exact hdiscard _
    · have hm' : ∀ sst, ({ x.1 with sst := sst }.bump).LogsWals := fun _ => hm
      refine .bind (.attempt (casManifest_keeps (hm' _) _)) fun r _ => ?_
      split
      · exact .bind (.actTrue (hm' _)) fun _ _ => hdiscard _
      · refine .bind (.actTrue trivial) fun _ _ => .bind (loadManifest_keeps cx false) fun y _ => ?_
        split
        · exact hdiscard _
        · exact .fail _
      · exact .fail _

omit hcr in
theorem casLoop_keeps {α : Type} {idle : α} {edit : Manifest → α ⊕ Manifest} {after : Manifest → Io α}
    (hedit : ∀ {m m'}, m.LogsWals → edit m = .inr m' → m'.LogsWals)
    (hafter : ∀ m, P.Keeps who (after m) fun _ => True) (n : Nat) :
    P.Keeps who (casLoop cx idle edit after n) fun _ => True := by
  induction n with
  | zero => exact .pure trivial
  | succ n ih =>
    refine .bind (loadManifest_keeps cx true) fun x hm => ?_
    dsimp only
    split
    · exact .pure trivial
    · rename_i m' heq
      have hm' := hedit hm heq
      refine .bind (.attempt (casManifest_keeps hm' _)) fun r _ => ?_
      split
      · exact .bind (.actTrue hm') fun _ _ => hafter _
      · exact .bind (.actTrue trivial) fun _ _ => ih
      · exact .fail _

omit hcr in
theorem gcWalLoop_keeps (n : Nat) : P.Keeps who (gcWalLoop cx n) fun _ => True := by
  rw [gcWalLoop_eq]
  refine casLoop_keeps (fun hm heq => ?_)
    (fun _ => .bind (.ofOnly (deleteWals_only (fun _ => trivial) _)) fun _ _ => .pure trivial) n
  split at heq <;> cases heq
  exact nofun

omit hcr in
theorem gcOrphansInner_keeps : P.Keeps who (gcOrphansInner cx) fun _ => True := by
  refine .bind (.ofOnly (readOwnership_only trivial)) fun r _ => ?_
  split
  · split
    · refine .bind (loadManifest_keeps cx false) fun x _ => ?_
      refine .bind (.attempt (.callTrue trivial)) fun r _ => ?_
      split
      · exact .ofOnly (sweep_only (fun _ => trivial) _ _ _)
      · exact .pure trivial
    · exact .pure trivial
  · exact .pure trivial

theorem compactionSources_keeps (ms : List SstMeta) :
    P.Keeps who (compactionSources cx ms) fun ls => ∀ l ∈ ls, ∀ op ∈ l, P.Allows op := by
  induction ms with
  | nil => exact .pure nofun
  | cons m ms ih =>
    refine .bind (fetchSst_keeps m.id) fun f hf => .bind (.ofRes fun rows hrows => hrows) ?_
    intro rows hrows
    refine .bind (resolveOps_keeps hcr (hf.scan hcr hrows)) fun l hl => ?_
    exact .bind ih fun ls hls => .pure (List.forall_mem_cons.mpr ⟨hl, hls⟩)

omit hcr in
theorem removeLoop_keeps (inputs : List SstMeta) (n : Nat) :
    P.Keeps who (removeLoop cx inputs n) fun _ => True := by
  rw [removeLoop_eq]
  refine casLoop_keeps (fun hm heq => ?_)
    (fun _ => .bind (.ofOnly (deleteAll_only (fun _ => trivial) _)) fun _ _ => .pure trivial) n
  split at heq <;> cases heq
  exact hm

omit hcr in
theorem installLoop_keeps (inputs : List SstMeta) (entry : SstMeta) (n : Nat) :
    P.Keeps who (installLoop cx inputs entry n) fun _ => True := by
  rw [installLoop_eq]
  refine casLoop_keeps (fun hm heq => ?_)
    (fun _ => .bind (.ofOnly (dropInputs_only (fun _ => trivial) (fun _ => trivial) _))
      fun _ _ => .pure trivial) n
  split at heq <;> cases heq
  exact hm

theorem compactInner_keeps : P.Keeps who (compactInner cx) fun _ => True := by
  refine .bind (loadManifest_keeps cx true) fun x _ => ?_
  dsimp only
  split
  · exact .pure trivial
  · refine .bind (compactionSources_keeps hcr _) fun sources hsources => ?_
    have hlive : ∀ op ∈ (mergeSources sources).map fun kv => (kv.1, some kv.2), P.Allows op := by
      intro op hop
      obtain ⟨kv, hkv, rfl⟩ := List.mem_map.mp hop
      obtain ⟨l, hl, hmem⟩ := mem_sources_of_live hkv
      exact hsources l hl _ hmem
    refine .bind (spill_keeps hcr _ hlive) fun rows hrows => ?_
    split
    · exact removeLoop_keeps _ _
    · refine .bind (.ofRes fun f hf => buildSst_clean hcr hf hrows) fun f hf => ?_
      refine .bind (.actTrue trivial) fun seq _ => ?_
      have hobj : P.CleanObj (.sst cx.epoch 1 seq) (.sst f) := hf
      refine .bind (.ofOnly (createVerified_only hobj trivial _ _)) fun _ _ => ?_
      exact .bind (.ofOnly (checkOwnership_only trivial _)) fun _ _ => installLoop_keeps _ _ _

theorem maintainAfterWrite_keeps (walLen : Nat) :
    P.Keeps who (maintainAfterWrite cx walLen) fun _ => True := by
  refine .bind (.attempt (flushMemToSstInner_keeps hcr false)) fun _ _ => ?_
  refine .bind (.attempt (compactInner_keeps hcr)) fun _ _ => ?_
  unfold maintainWal
  split
  · exact .pure trivial
  · refine .bind (.attempt (flushMemToSstInner_keeps hcr true)) fun r _ => ?_
    split
    · exact .pure trivial
    · refine .bind (.attempt (gcWalLoop_keeps 4)) fun _ _ => ?_
      exact .bind (.attempt gcOrphansInner_keeps) fun _ _ => .pure trivial

/-! ## Durable append -/

theorem listWal_keeps (e n : Nat) {updates : List Op} (hops : ∀ op ∈ updates, P.Allows op)
    (attempts : Nat) : P.Keeps who (listWal cx (.wal e n) updates attempts) fun _ => True := by
  have happly : P.Keeps who (applyMem updates) fun _ => True := by
    unfold applyMem
    split
    · exact .pure trivial
    · exact .actTrue hops
  induction attempts with
  | zero => exact .pure trivial
  | succ attempts ih =>
    refine .bind (loadManifest_keeps cx true) fun x hm => ?_
    dsimp only
    split
    · exact .bind happly fun _ _ => maintainAfterWrite_keeps hcr _
    · have hm' : ({ x.1 with wal := x.1.wal ++ [ObjectPath.wal e n] }.bump).LogsWals := by
        intro id hid
        rcases List.mem_append.mp hid with hid | hid
        · exact hm id hid
        · exact ⟨e, n, List.mem_singleton.mp hid⟩
      refine .bind (.attempt (casManifest_keeps hm' _)) fun r _ => ?_
      split
      · refine .bind (.actTrue hm') fun _ _ => ?_
        exact .bind happly fun _ _ => maintainAfterWrite_keeps hcr _
      · refine .bind (.actTrue trivial) fun _ _ => ?_
        split
        · exact .fail _
        · exact ih
      · exact .fail _

theorem appendWalLocked_keeps {payload : Bytes} {updates : List Op}
    (hlog : ∀ op ∈ decodeWalRecords payload, P.Allows op) (hops : ∀ op ∈ updates, P.Allows op) :
    P.Keeps who (appendWalLocked cx payload updates) fun _ => True := by
  refine .bind (.actTrue trivial) fun seq _ => ?_
  have hobj : P.CleanObj (.wal cx.epoch seq) (.bytes payload) := hlog
  refine .bind (.ofOnly (createVerified_only hobj trivial _ _)) fun _ _ => ?_
  exact .bind (.ofOnly (checkOwnership_only trivial _)) fun _ _ => listWal_keeps hcr _ _ hops 4

omit hcr in
theorem allows_decode {ops : List Op} {payload : Bytes} (h : encodeOps ops = .ok payload)
    (hops : ∀ op ∈ ops, P.Allows op) : ∀ op ∈ decodeWalRecords payload, P.Allows op := by
  rw [decodeWalRecords_encodeOps h fun op hop v hv => P.length (hops op hop v hv)]
  exact hops

theorem drainStagedLocked_keeps : P.Keeps who (drainStagedLocked cx) fun _ => True := by
  refine .bind (.act trivial) fun ops hops => ?_
  split
  · exact .pure trivial
  · have hback : ∀ e, P.Keeps who (do Io.act (.bufferRestore ops); Io.fail e : Io Unit) fun _ => True :=
      fun e => .bind (.actTrue hops) fun _ _ => .fail e
    split
    · exact hback _
    · rename_i payload hpayload
      refine .bind (.attempt (appendWalLocked_keeps hcr (allows_decode hpayload hops) nofun)) ?_
      intro r _
      split
      · exact .pure trivial
      · exact hback _

omit hcr in
theorem withGate_keeps {α : Type} {p : Io α} {Q : α → Prop} (h : P.Keeps who p Q) :
    P.Keeps who (withGate p) Q :=
  .bind (.actTrue trivial) fun _ _ => .bind (.attempt h) fun _ hr =>
    .bind (.actTrue trivial) fun _ _ => .ofRes hr

/-! ## Group commit -/

theorem persistBatch_keeps {batch : List PendingWrite} (h : ∀ pw ∈ batch, P.CleanWrite pw) :
    P.Keeps who (persistBatch cx batch) fun _ => True := by
  unfold persistBatch
  split
  · exact .pure trivial
  · have hops : ∀ op ∈ batchOps batch, P.Allows op := by
      intro op hop
      obtain ⟨pw, hpw, rfl⟩ := List.mem_map.mp hop
      rintro _ ⟨⟩
      exact (h pw hpw).1
    refine .bind (drainStagedLocked_keeps hcr) fun _ _ => ?_
    exact appendWalLocked_keeps hcr
      (allows_decode (encodeOps_batch fun pw hpw => (h pw hpw).2) hops) hops

theorem commitLoop_keeps (id n : Nat) : P.Keeps who (commitLoop cx id n) fun _ => True := by
  induction n with
  | zero => exact .fail _
  | succ n ih =>
    refine .bind (.actTrue trivial) fun x _ => ?_
    split
    · exact .ofRes fun _ _ => trivial
    · refine .bind (.act trivial) fun batch hbatch => ?_
      split
      · exact .callTrue trivial
      · refine .bind (.attempt (persistBatch_keeps hcr hbatch)) fun r _ => ?_
        refine .bind (.ofOnly (sendAll_only (fun _ => trivial) batch)) fun _ _ => ?_
        split
        · exact .ofRes fun _ _ => trivial
        · exact ih

theorem putBytes_keeps (h : P.ok key value) :
    P.Keeps who (putBytes cx key value) fun _ => True := by
  have hencode : ∀ b, (encodeRecord key value).mapError (storageFail "encode wal: ") = .ok b →
      encodeRecord key value = .ok b := by
    intro b hb
    cases hr : encodeRecord key value with
    | error e =>
      rw [hr] at hb
      cases hb
    | ok b' =>
      rw [hr] at hb
      cases hb
      rfl
  refine .bind (.ofRes hencode) fun encoded hencoded => .bind (.actTrue trivial) fun id _ => ?_
  have hpw : P.CleanWrite ⟨id, key, value, encoded⟩ := ⟨h, hencoded⟩
  exact .bind (.actTrue hpw) fun n _ => withGate_keeps (commitLoop_keeps hcr id n)

/-! ## Deletes and validated writes -/

theorem deleteLocked_keeps (key : Key) : P.Keeps who (deleteLocked cx key) fun _ => True := by
  have hops : ∀ op ∈ [((key, none) : Op)], P.Allows op :=
    List.forall_mem_singleton.mpr (allows_none key)
  refine .bind (drainStagedLocked_keeps hcr) fun _ _ => .bind (getBytes_keeps hcr key) fun r _ => ?_
  split
  · exact .pure trivial
  · refine .bind (.ofRes fun _ h => h) fun payload hpayload => ?_
    exact .bind (appendWalLocked_keeps hcr (allows_decode hpayload hops) hops) fun _ _ => .pure trivial

theorem delete_keeps (key : Key) : P.Keeps who (OxKv.delete cx key) fun _ => True := by
  refine .bind (withGate_keeps (deleteLocked_keeps hcr key)) fun r _ => ?_
  split
  · exact .pure trivial
  · exact .bind (.actTrue trivial) fun _ _ => .pure trivial

omit hcr in
theorem checkRun_keeps {view : StoreView Io} (hview : view.All (P.Keeps who · fun _ => True))
    (c : Check) : P.Keeps who (c.run view) fun _ => c.MayEnd (.ok ()) := by
  induction c with
  | done r => exact .ofRes fun _ h => h
  | get k next ih =>
    exact .bind (.attempt (hview.get k)) fun r _ => (ih r).mono fun _ h => ⟨r, h⟩
  | has k next ih =>
    exact .bind (.attempt (hview.has k)) fun r _ => (ih r).mono fun _ h => ⟨r, h⟩
  | gets limit d c next ih =>
    exact .bind (.attempt (hview.getsBytes limit d c)) fun r _ => (ih r).mono fun _ h => ⟨r, h⟩

theorem storeView_keeps : (storeView cx).All (P.Keeps who · fun _ => True) :=
  ⟨fun k => (getBytes_keeps hcr k).mono fun _ _ => trivial, has_keeps hcr,
    fun limit d c => (getsBytes_keeps hcr limit d c).mono fun _ _ => trivial⟩

theorem setBytes_keeps (h : (cx.check key value).MayEnd (.ok ()) → P.ok key value) :
    P.Keeps who (setBytes cx key value) fun prev => P.Allows (key, prev) ∧ P.ok key value := by
  refine .bind (checkRun_keeps (storeView_keeps hcr) _) fun _ hrej => ?_
  refine .bind (getBytes_keeps hcr key) fun prev hprev => ?_
  refine .bind (putBytes_keeps hcr (h hrej)) fun _ _ => ?_
  exact .bind (.actTrue trivial) fun _ _ => .pure ⟨hprev, h hrej⟩

/-! ## Transactions -/

def CleanTx (P : Policy cr) (tx : Tx) : Prop := ∀ op ∈ tx.overlay.toList, P.Allows op

omit hcr in
theorem CleanTx.begin : P.CleanTx Tx.begin := nofun

variable {tx : Tx}

omit hcr in
theorem CleanTx.insert (h : P.CleanTx tx) {value : Option Bytes} (hv : P.Allows (key, value))
    (staged : List ChangeEvent) : P.CleanTx ⟨tx.overlay.insert key value, staged⟩ := by
  intro op hop
  rcases SortedMap.mem_insertList hop with rfl | hop
  · exact hv
  · exact h op hop

section CleanTx

variable (h : P.CleanTx tx)

include h

theorem txGetBytes_keeps (key : Key) :
    P.Keeps who (txGetBytes cx tx key) fun r => P.Allows (key, r) := by
  unfold txGetBytes
  split
  · rename_i hit hhit
    exact resolveHit_keeps hcr (h _ ((tx.overlay.mem_toList key hit).mpr hhit)).row
  · exact getBytes_keeps hcr key

theorem txHas_keeps (key : Key) : P.Keeps who (txHas cx tx key) fun _ => True :=
  .bind (txGetBytes_keeps hcr h key) fun _ _ => .pure trivial

theorem txGetsBytes_keeps (limit : Option Nat) (d : Direction) (c : Cursor) :
    P.Keeps who (txGetsBytes cx tx limit d c) fun rows => ∀ kv ∈ rows, P.ok kv.1 kv.2 := by
  refine retryOnceNotFound_keeps (.bind (.act trivial) fun rows hrows => ?_)
  refine rangeLookup_keeps hcr ?_ limit d c
  rintro l (_ | ⟨_, _ | ⟨_, ⟨⟩⟩⟩)
  · exact ⟨fun op hop => h op (mem_of_mem_filterRows hop), filterRows_ascending ..⟩
  · exact hrows

theorem txDelete_keeps (key : Key) :
    P.Keeps who (OxKv.txDelete cx tx key) fun x => P.CleanTx x.2 := by
  refine .bind (txGetBytes_keeps hcr h key) fun r _ => ?_
  split
  · exact .pure h
  · exact .pure (h.insert (allows_none key) _)

theorem txView_keeps : (tx.view cx).All (P.Keeps who · fun _ => True) :=
  ⟨fun k => (txGetBytes_keeps hcr h k).mono fun _ _ => trivial, txHas_keeps hcr h,
    fun limit d c => (txGetsBytes_keeps hcr h limit d c).mono fun _ _ => trivial⟩

theorem txSetBytes_keeps (hv : (cx.check key value).MayEnd (.ok ()) → P.ok key value) :
    P.Keeps who (txSetBytes cx tx key value) fun x => P.CleanTx x.2 ∧ P.ok key value := by
  refine .bind (checkRun_keeps (txView_keeps hcr h) _) fun _ hrej => ?_
  refine .bind (txGetBytes_keeps hcr h key) fun prev _ => .pure ⟨h.insert ?_ _, hv hrej⟩
  rintro _ ⟨⟩
  exact hv hrej

theorem txPutBytes_keeps (hv : (cx.check key value).MayEnd (.ok ()) → P.ok key value) :
    P.Keeps who (txPutBytes cx tx key value) fun tx => P.CleanTx tx ∧ P.ok key value :=
  .bind (txSetBytes_keeps hcr h hv) fun _ hx => .pure hx

theorem revalidate_keeps (es : List ChangeEvent) :
    P.Keeps who (revalidate cx tx es) fun _ => True := by
  induction es with
  | nil => exact .pure trivial
  | cons e es ih =>
    refine .bind (Q := fun _ => True) ?_ fun _ _ => ih
    unfold revalidateEvent
    split
    · exact (checkRun_keeps ((txView_keeps hcr h).revalidate (fun _ => .pure trivial) _ _) _).mono
        fun _ _ => trivial
    · exact .pure trivial

end CleanTx

omit hcr in
theorem notifyAll_keeps (es : List ChangeEvent) : P.Keeps who (notifyAll es) fun _ => True := by
  induction es with
  | nil => exact .pure trivial
  | cons e es ih => exact .bind (.actTrue trivial) fun _ _ => ih

theorem txCommit_keeps (h : P.CleanTx tx) : P.Keeps who (OxKv.txCommit cx tx) fun _ => True := by
  have hlocked : P.Keeps who (commitLocked cx tx.overlay.toList) fun _ => True := by
    unfold commitLocked
    split
    · exact .pure trivial
    · refine .bind (.ofRes fun _ hp => hp) fun payload hpayload => ?_
      refine .bind (drainStagedLocked_keeps hcr) fun _ _ => ?_
      exact .bind (appendWalLocked_keeps hcr (allows_decode hpayload h) h) fun _ _ => .pure trivial
  refine .bind (revalidate_keeps hcr h _) fun _ _ => .bind (withGate_keeps hlocked) fun b _ => ?_
  split
  · exact notifyAll_keeps _
  · exact .pure trivial

end

/-! ## Opening -/

theorem replayPass_keeps {ids : List ObjectPath} (h : ∀ id ∈ ids, ∃ e n, id = .wal e n) :
    P.Keeps who (replayPass ids) fun _ => True := by
  induction ids with
  | nil => exact .pure trivial
  | cons id ids ih =>
    obtain ⟨⟨e, n, rfl⟩, hids⟩ := List.forall_mem_cons.mp h
    refine .bind (.attempt (.call trivial)) fun r hr => ?_
    split
    · exact .bind (.actTrue (hr _ rfl _ rfl)) fun _ _ => ih hids
    · exact ih hids
    · split
      · exact .bind (ih hids) fun _ _ => .pure trivial
      · exact .fail _

theorem replayListedWals_keeps {ids : List ObjectPath} (h : ∀ id ∈ ids, ∃ e n, id = .wal e n) :
    P.Keeps who (replayListedWals cx ids) fun _ => True := by
  refine .bind (replayPass_keeps h) fun missing _ => ?_
  split
  · exact .pure trivial
  · refine .bind (.actTrue trivial) fun _ _ => .bind (loadManifest_keeps cx false) fun x hm => ?_
    refine .bind (replayPass_keeps hm) fun missing _ => ?_
    split
    · exact .pure trivial
    · exact .fail _

/-- A built store has the crates and the validators of its builder. -/
theorem build_keeps (b : Builder) :
    P.Keeps who (build b) fun cx => cx.crates = b.crates ∧ cx.check = b.check := by
  have htake : P.Keeps who (takeOver b) fun cx => cx.crates = b.crates ∧ cx.check = b.check := by
    refine .bind (.ofOnly (acquireOwnership_only trivial (fun _ _ => trivial) _)) fun r _ =>
      .bind (.actTrue trivial) fun _ _ => ?_
    refine .bind (loadManifest_keeps _ true) fun x hm => ?_
    refine .bind (replayListedWals_keeps hm) fun _ _ => ?_
    exact .bind (.actTrue trivial) fun _ _ => .pure ⟨rfl, rfl⟩
  unfold build
  split
  · exact htake
  · exact .bind (.ofOnly (probeStore_only (fun _ _ => trivial) trivial)) fun _ _ => htake

end OxKv.Policy
