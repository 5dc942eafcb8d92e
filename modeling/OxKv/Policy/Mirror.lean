import OxKv.Policy.Writes
import OxKv.Mirror.Calls

/-!
The procedures of a cached store. The mirror is filled by the writes of its handle, by
scans of the core and by log files, so that its pairs are allowed too.
-/

namespace OxKv

namespace Policy

variable {cr : Crates} {P : Policy cr} {who : Who} {α β : Type}

/-! ## Actions on the mirror -/

def CleanMirrors (P : Policy cr) (e : Mirrors) : Prop :=
  ∀ i, ∀ kv ∈ (e.inst i).map.toList, P.ok kv.1 kv.2

def CleanCached (P : Policy cr) (s : World × Mirrors) : Prop := P.Clean s.1 ∧ P.CleanMirrors s.2

/-- What an action on the mirror may be given. -/
def MirrorTakes (P : Policy cr) : MirrorAct β → Prop
  | .mapPut key value => P.ok key value
  | .mapApply op _ => P.Allows op
  | _ => True

/-- What it may return. -/
def MirrorGives (P : Policy cr) : MirrorAct β → β → Prop
  | .mapGet key, r => P.Allows (key, r)
  | .mapGets _ _ _, r => ∀ kv ∈ r, P.ok kv.1 kv.2
  | _, _ => True

theorem exec_mirror_clean {a : MirrorAct β} {thread now : Nat} {c : Choice} {x y : Mirror} {r : β}
    (ha : P.MirrorTakes a) (hx : ∀ kv ∈ x.map.toList, P.ok kv.1 kv.2)
    (h : x.exec thread now c a = some (r, y)) :
    (∀ kv ∈ y.map.toList, P.ok kv.1 kv.2) ∧ P.MirrorGives a r := by
  have hinsert : ∀ key value, P.ok key value → ∀ kv ∈ (x.map.insert key value).toList,
      P.ok kv.1 kv.2 := by
    intro key value hv kv hkv
    rcases SortedMap.mem_insertList hkv with rfl | hkv
    · exact hv
    · exact hx kv hkv
  have herase : ∀ key, ∀ kv ∈ (x.map.erase key).toList, P.ok kv.1 kv.2 :=
    fun key kv hkv => hx kv (List.mem_filter.mp hkv).1
  cases a with
  | «open» epoch =>
    cases h
    exact ⟨nofun, trivial⟩
  | mapGet key =>
    cases h
    exact ⟨hx, fun v hv => hx (key, v) ((x.map.mem_toList key v).mpr hv)⟩
  | mapPut key value =>
    cases h
    exact ⟨hinsert key value ha, trivial⟩
  | mapDelete key =>
    cases h
    exact ⟨herase key, trivial⟩
  | mapGets limit d cur =>
    cases h
    refine ⟨hx, fun kv hkv => ?_⟩
    rw [BTreeStore.getsBytes_eq] at hkv
    exact hx kv (Plain.mem_of_mem_gets hkv)
  | mapApply op last =>
    cases h
    refine ⟨?_, trivial⟩
    obtain ⟨key, value⟩ := op
    cases value with
    | none => exact herase key
    | some value => exact hinsert key value (ha value rfl)
  | scanGate =>
    dsimp only [Mirror.exec] at h
    split at h
    · cases h
    · cases h
      exact ⟨hx, trivial⟩
  | _ =>
    cases h
    exact ⟨hx, trivial⟩

/-! ## Procedures -/

/-- The procedure of a cached store keeps a clean world clean, and a success is in `Q`. -/
def KeepsCached (P : Policy cr) (who : Who) (p : CachedIo α) (Q : α → Prop) : Prop :=
  cachedEngine.Keeps P.CleanCached who p fun r => ∀ a, r = .ok a → Q a

namespace KeepsCached

variable {Q : α → Prop}

theorem ofExcept {r : Res α} (h : ∀ a, r = .ok a → Q a) :
    P.KeepsCached who (.ofExcept r) Q := h

theorem pure {a : α} (h : Q a) : P.KeepsCached who (Pure.pure a) Q :=
  ofExcept fun _ ha => Except.ok.inj ha ▸ h

theorem fail (e : StoreError) : P.KeepsCached who (Fallible.fail e) Q :=
  ofExcept nofun

variable {p : CachedIo α}

theorem mono {Q' : α → Prop} (h : P.KeepsCached who p Q) (hQ : ∀ a, Q a → Q' a) :
    P.KeepsCached who p Q' :=
  Machine.Keeps.mono h fun _ hr a ha => hQ a (hr a ha)

theorem core {p : Io α} (h : P.Keeps who p Q) : P.KeepsCached who (CachedIo.core p) Q :=
  Machine.Keeps.lift h

theorem act {a : MirrorAct α} (ha : P.MirrorTakes a) :
    P.KeepsCached who (CachedIo.act a) (P.MirrorGives a) := by
  intro c s r t hs hx
  have hexec : execMirror who c a s = some (r, t) := hx
  unfold execMirror at hexec
  split at hexec
  · cases hexec
  · rename_i r' y hy
    cases hexec
    obtain ⟨hmap, hr⟩ := exec_mirror_clean ha (hs.2 who.inst) hy
    refine ⟨⟨hs.1, fun i => ?_⟩, fun _ heq => Except.ok.inj heq ▸ hr⟩
    rw [Mirrors.log_inst]
    by_cases hi : i = who.inst
    · rw [hi, Mirrors.set_inst_self]
      exact hmap
    · rw [Mirrors.set_inst_ne _ _ _ hi]
      exact hs.2 i

theorem actTrue {a : MirrorAct α} (ha : P.MirrorTakes a) :
    P.KeepsCached who (CachedIo.act a) fun _ => True :=
  .mono (.act ha) fun _ _ => trivial

theorem bind {f : α → CachedIo β} {Q' : β → Prop} (hp : P.KeepsCached who p Q)
    (hf : ∀ a, Q a → P.KeepsCached who (f a) Q') : P.KeepsCached who (p >>= f) Q' := by
  refine Machine.Keeps.bind hp fun r hr => ?_
  cases r with
  | error e => exact nofun
  | ok a => exact hf a (hr a rfl)

theorem attempt (hp : P.KeepsCached who p Q) :
    P.KeepsCached who (.attempt p) fun r => ∀ a, r = .ok a → Q a :=
  Machine.Keeps.bind hp fun _ hr _ heq => Except.ok.inj heq ▸ hr

end KeepsCached

theorem rejectIfPoisoned_keeps : P.KeepsCached who Cached.rejectIfPoisoned fun _ => True := by
  refine .bind (.actTrue trivial) fun st _ => ?_
  split
  · exact .fail _
  · exact .pure trivial

theorem syncAfterWrite_keeps : P.KeepsCached who Cached.syncAfterWrite fun _ => True := by
  refine .bind (.core (.actTrue trivial)) fun x _ => ?_
  split
  · exact .actTrue trivial
  · exact .pure trivial

theorem writeThrough_keeps {p : Io α} {Q : α → Prop} (h : P.Keeps who p Q) :
    P.KeepsCached who (Cached.writeThrough p) Q := by
  refine .bind (.attempt (.core h)) fun r hr => ?_
  split
  · exact .pure (hr _ rfl)
  · refine .bind (Q := fun _ => True) ?_ fun _ _ => .fail _
    unfold Cached.noteFenced
    split
    · exact .actTrue trivial
    · exact .pure trivial

/-! ## Filling the mirror -/

theorem overlayRecords_keeps {ops : List Op} (h : ∀ op ∈ ops, P.Allows op) :
    P.KeepsCached who (Cached.overlayRecords ops) fun _ => True := by
  induction ops with
  | nil => exact .pure trivial
  | cons op ops ih =>
    obtain ⟨hop, hops⟩ := List.forall_mem_cons.mp h
    obtain ⟨key, value⟩ := op
    cases value with
    | none => exact .bind (.actTrue trivial) fun _ _ => .bind (.actTrue trivial) fun _ _ => ih hops
    | some raw =>
      exact .bind (.actTrue (hop raw rfl)) fun _ _ => .bind (.actTrue trivial) fun _ _ => ih hops

theorem applyRecords_keeps {ops : List Op} (h : ∀ op ∈ ops, P.Allows op) :
    P.KeepsCached who (Cached.applyRecords ops) fun _ => True := by
  induction ops with
  | nil => exact .pure trivial
  | cons op ops ih =>
    obtain ⟨hop, hops⟩ := List.forall_mem_cons.mp h
    obtain ⟨key, value⟩ := op
    cases value with
    | none => exact .bind (.actTrue trivial) fun _ _ => ih hops
    | some raw => exact .bind (.actTrue (hop raw rfl)) fun _ _ => ih hops

theorem eachWal_keeps {records : List Op → CachedIo Unit}
    (hrecords : ∀ ops, (∀ op ∈ ops, P.Allows op) → P.KeepsCached who (records ops) fun _ => True)
    {ids : List ObjectPath} (h : ∀ id ∈ ids, ∃ e n, id = .wal e n) (applied : Nat) :
    P.KeepsCached who (Cached.eachWal records ids applied) fun _ => True := by
  induction ids generalizing applied with
  | nil => exact .pure trivial
  | cons id ids ih =>
    obtain ⟨⟨e, n, rfl⟩, hids⟩ := List.forall_mem_cons.mp h
    refine .bind (.attempt (.core (.call trivial))) fun r hr => ?_
    split
    · exact .bind (hrecords _ (hr _ rfl _ rfl)) fun _ _ => ih hids _
    · exact ih hids _
    · split
      · exact ih hids _
      · exact .fail _

theorem dropUnscanned_keeps (scanned : Finset Key) (rows : List KeyValue) :
    P.KeepsCached who (Cached.dropUnscanned scanned rows) fun _ => True := by
  induction rows with
  | nil => exact .pure trivial
  | cons kv rows ih =>
    unfold Cached.dropUnscanned
    split
    · exact ih
    · exact .bind (.actTrue trivial) fun _ _ => ih

theorem finishWarm_keeps {m : Manifest} (hm : m.LogsWals) :
    P.KeepsCached who (Cached.finishWarm m) fun _ => True := by
  refine .bind (eachWal_keeps (fun _ => overlayRecords_keeps) hm 0) fun _ _ => ?_
  refine .bind (.actTrue trivial) fun scanned _ => .bind (.actTrue trivial) fun current _ => ?_
  exact .bind (dropUnscanned_keeps scanned current) fun _ _ => .actTrue trivial

theorem mirrorPage_keeps (cursor : Option Key) {rows : List KeyValue}
    (h : ∀ kv ∈ rows, P.ok kv.1 kv.2) (applied : Nat) :
    P.KeepsCached who (Cached.mirrorPage cursor rows applied) fun _ => True := by
  induction rows generalizing applied with
  | nil => exact .pure trivial
  | cons kv rows ih =>
    obtain ⟨hkv, hrows⟩ := List.forall_mem_cons.mp h
    unfold Cached.mirrorPage
    split
    · exact ih hrows _
    · exact .bind (.actTrue trivial) fun _ _ => .bind (.actTrue hkv) fun _ _ => ih hrows _

theorem withScanGate_keeps {p : CachedIo α} {Q : α → Prop} (h : P.KeepsCached who p Q) :
    P.KeepsCached who (Cached.withScanGate p) Q :=
  .bind (.actTrue trivial) fun _ _ => .bind (.attempt h) fun _ hr =>
    .bind (.actTrue trivial) fun _ _ => .ofExcept hr

section

variable {cx : Ctx} (hcr : cx.crates = cr)
include hcr

theorem scanPages_keeps {m : Manifest} (hm : m.LogsWals) (pages applied : Nat) :
    P.KeepsCached who (Cached.scanPages cx m pages applied) fun _ => True := by
  induction pages generalizing applied with
  | zero => exact .pure trivial
  | succ pages ih =>
    refine .bind (.actTrue trivial) fun st _ => ?_
    refine .bind (.core (getsBytes_keeps hcr _ _ _)) fun batch hbatch => ?_
    split
    · exact .bind (finishWarm_keeps hm) fun _ _ => .pure trivial
    · refine .bind (mirrorPage_keeps _ hbatch _) fun n _ => .bind (.actTrue trivial) fun _ _ => ?_
      split
      · exact .bind (finishWarm_keeps hm) fun _ _ => .pure trivial
      · exact ih n

theorem warmPages_keeps (pages : Nat) :
    P.KeepsCached who (Cached.warmPages cx pages) fun _ => True := by
  refine .bind (.actTrue trivial) fun st _ => ?_
  split
  · exact .pure trivial
  · exact .bind (.core (loadManifest_keeps cx false)) fun x hm => scanPages_keeps hcr hm pages 0

theorem warmLoop_keeps (rounds applied : Nat) :
    P.KeepsCached who (Cached.warmLoop cx rounds applied) fun _ => True := by
  induction rounds generalizing applied with
  | zero => exact .fail _
  | succ rounds ih =>
    refine .bind (warmPages_keeps hcr _) fun x _ => ?_
    dsimp only
    split
    · exact .pure trivial
    · exact ih _

theorem warm_keeps : P.KeepsCached who (Cached.warm cx) fun _ => True :=
  withScanGate_keeps (.bind (.actTrue trivial) fun _ _ => warmLoop_keeps hcr _ _)

theorem warmStep_keeps (pages : Nat) : P.KeepsCached who (Cached.warmStep cx pages) fun _ => True :=
  withScanGate_keeps (.bind (warmPages_keeps hcr _) fun _ _ => .pure trivial)

omit hcr in
theorem checkStale_keeps : P.KeepsCached who (Cached.checkStale cx) fun _ => True := by
  refine .bind (.bind (.actTrue trivial) fun _ _ => .pure trivial) fun b (_ : True) => ?_
  split
  · exact .pure trivial
  · refine .bind (.core (loadManifest_keeps cx false)) fun x _ => ?_
    exact .bind (.actTrue trivial) fun _ _ => .pure trivial

theorem refresh_keeps : P.KeepsCached who (Cached.refresh cx) fun _ => True := by
  refine .bind (.actTrue trivial) fun known _ => ?_
  refine .bind (.core (loadManifest_keeps cx false)) fun x hm => ?_
  dsimp only
  split
  · exact .pure trivial
  · refine .bind (.core (.ofOnly (readOwnership_only trivial))) fun owner _ => ?_
    split
    · refine .bind (warm_keeps hcr) fun n _ => .bind (.actTrue trivial) fun _ _ => .pure trivial
    · have hmissing : ∀ id ∈ x.1.wal.filter fun id => id ∉ known.replayed, ∃ e n, id = .wal e n :=
        fun id hid => hm id (List.mem_filter.mp hid).1
      refine .bind (eachWal_keeps (fun _ => applyRecords_keeps) hmissing 0) fun n _ => ?_
      exact .bind (.actTrue trivial) fun _ _ => .pure trivial

theorem maybeRefresh_keeps : P.KeepsCached who (Cached.maybeRefresh cx) fun _ => True := by
  refine .bind (.actTrue trivial) fun b _ => ?_
  split
  · exact .bind (refresh_keeps hcr) fun _ _ => .pure trivial
  · exact .pure trivial

theorem openWithMode_keeps (mode : Cached.WarmMode) :
    P.KeepsCached who (Cached.openWithMode cx mode) fun _ => True := by
  refine .bind (.actTrue trivial) fun _ _ => ?_
  split
  · exact .bind (warm_keeps hcr) fun _ _ => .pure trivial
  · exact .pure trivial

/-! ## Reads and writes -/

theorem cachedGetBytes_keeps (key : Key) :
    P.KeepsCached who (Cached.getBytes cx key) fun r => P.Allows (key, r) := by
  refine .bind rejectIfPoisoned_keeps fun _ _ => .bind (.act trivial) fun x hx => ?_
  split
  · exact .pure hx
  · refine .bind (.actTrue trivial) fun st _ => ?_
    split
    · exact .pure (allows_none key)
    · refine .bind (.core (getBytes_keeps hcr key)) fun r hr => ?_
      split
      · exact .bind (.actTrue (hr _ rfl)) fun _ _ => .pure hr
      · exact .pure (allows_none key)

theorem cachedHas_keeps (key : Key) :
    P.KeepsCached who (Cached.has cx key) fun _ => True := by
  refine .bind rejectIfPoisoned_keeps fun _ _ => .bind (.actTrue trivial) fun b _ => ?_
  split
  · exact .pure trivial
  · refine .bind (.actTrue trivial) fun st _ => ?_
    split
    · exact .pure trivial
    · exact .core (has_keeps hcr key)

theorem cachedGetsBytes_keeps (limit : Option Nat) (d : Direction) (c : Cursor) :
    P.KeepsCached who (Cached.getsBytes cx limit d c) fun rows => ∀ kv ∈ rows, P.ok kv.1 kv.2 := by
  refine .bind rejectIfPoisoned_keeps fun _ _ => .bind (.actTrue trivial) fun st _ => ?_
  split
  · exact .act trivial
  · exact .core (getsBytes_keeps hcr limit d c)

theorem cachedDelete_keeps (key : Key) :
    P.KeepsCached who (Cached.delete cx key) fun _ => True := by
  refine .bind rejectIfPoisoned_keeps fun _ _ => ?_
  refine .bind (writeThrough_keeps (delete_keeps hcr key)) fun b _ => ?_
  split
  · refine .bind (.actTrue trivial) fun _ _ => ?_
    exact .bind syncAfterWrite_keeps fun _ _ => .pure trivial
  · exact .bind syncAfterWrite_keeps fun _ _ => .pure trivial

variable {value : Bytes} {key : Key}

theorem cachedSetBytes_keeps (h : (cx.check key value).MayEnd (.ok ()) → P.ok key value) :
    P.KeepsCached who (Cached.setBytes cx key value) fun _ => True := by
  refine .bind rejectIfPoisoned_keeps fun _ _ => .bind (.actTrue trivial) fun prev _ => ?_
  refine .bind (writeThrough_keeps (setBytes_keeps hcr h)) fun _ hset => ?_
  refine .bind (.actTrue hset.2) fun _ _ => .bind syncAfterWrite_keeps fun _ _ => .pure trivial

theorem cachedPutBytes_keeps (h : P.ok key value) :
    P.KeepsCached who (Cached.putBytes cx key value) fun _ => True := by
  refine .bind rejectIfPoisoned_keeps fun _ _ => ?_
  refine .bind (writeThrough_keeps (putBytes_keeps hcr h)) fun _ _ => ?_
  exact .bind (.actTrue h) fun _ _ => syncAfterWrite_keeps

/-! ## Transactions -/

structure CleanCachedTx (P : Policy cr) (t : CachedTx) : Prop where
  tx : P.CleanTx t.tx
  staged : ∀ op ∈ t.staged.toList, P.Allows op

omit hcr in
theorem CleanCachedTx.begin : P.CleanCachedTx CachedTx.begin := ⟨nofun, nofun⟩

variable {t : CachedTx}

omit hcr in
theorem CleanCachedTx.insert (h : P.CleanCachedTx t) {tx : Tx} (htx : P.CleanTx tx)
    {value : Option Bytes} (hv : P.Allows (key, value)) :
    P.CleanCachedTx ⟨tx, t.staged.insert key value⟩ := by
  refine ⟨htx, fun op hop => ?_⟩
  rcases SortedMap.mem_insertList hop with rfl | hop
  · exact hv
  · exact h.staged op hop

omit hcr in
/-- A staged row, or one of the base. -/
theorem mem_overlayRows {d : Direction} {c : Cursor} {rows : List KeyValue} {staged : List Op}
    {kv : KeyValue} (h : kv ∈ CachedTx.overlayRows d c rows staged) :
    kv ∈ rows ∨ (kv.1, some kv.2) ∈ staged := by
  induction staged generalizing rows with
  | nil => exact .inl h
  | cons op staged ih =>
    rcases ih h with hrow | hrow
    · dsimp only at hrow
      split at hrow
      · exact .inl hrow
      · have hkept : ∀ kv ∈ rows.filter fun kv => kv.1 ≠ op.1, kv ∈ rows :=
          fun kv hkv => (List.mem_filter.mp hkv).1
        obtain ⟨key, value⟩ := op
        cases value with
        | none => exact .inl (hkept kv hrow)
        | some raw =>
          rcases List.mem_append.mp hrow with hrow | hrow
          · exact .inl (hkept kv hrow)
          · rw [List.mem_singleton.mp hrow]
            exact .inr List.mem_cons_self
    · exact .inr (List.mem_cons_of_mem op hrow)

omit hcr in
theorem mergeStaged_allowed (h : P.CleanCachedTx t) {rows : List KeyValue}
    (hrows : ∀ kv ∈ rows, P.ok kv.1 kv.2) (d : Direction) (c : Cursor) (limit : Option Nat) :
    ∀ kv ∈ CachedTx.mergeStaged rows t.staged d c limit, P.ok kv.1 kv.2 := by
  intro kv hkv
  have hmem : kv ∈ CachedTx.overlayRows d c rows t.staged.toList := by
    have hcut := mem_of_mem_cut hkv
    cases d <;> exact List.mem_mergeSort.mp hcut
  rcases mem_overlayRows hmem with hrow | hop
  · exact hrows kv hrow
  · exact h.staged _ hop _ rfl

section CleanCachedTx

variable (h : P.CleanCachedTx t)

include h

theorem cachedTxGetBytes_keeps (key : Key) :
    P.KeepsCached who (CachedTx.getBytes cx t key) fun r => P.Allows (key, r) := by
  unfold CachedTx.getBytes
  split
  · rename_i hit hhit
    exact .pure (h.staged _ ((t.staged.mem_toList key hit).mpr hhit))
  · refine .bind (.act trivial) fun x hx => ?_
    split
    · exact .pure hx
    · refine .bind (.actTrue trivial) fun st _ => ?_
      split
      · exact .pure (allows_none key)
      · exact .core (txGetBytes_keeps hcr h.tx key)

theorem cachedTxHas_keeps (key : Key) :
    P.KeepsCached who (CachedTx.has cx t key) fun _ => True := by
  unfold CachedTx.has
  split
  · exact .pure trivial
  · refine .bind (.actTrue trivial) fun b _ => ?_
    split
    · exact .pure trivial
    · refine .bind (.actTrue trivial) fun st _ => ?_
      split
      · exact .pure trivial
      · exact .core (txHas_keeps hcr h.tx key)

theorem cachedTxDelete_keeps (key : Key) :
    P.KeepsCached who (CachedTx.delete cx t key) fun x => P.CleanCachedTx x.2 := by
  unfold CachedTx.delete
  split
  · exact .pure h
  · refine .bind (.core (txDelete_keeps hcr h.tx key)) fun x hx => ?_
    dsimp only
    split
    · exact .pure (h.insert hx (allows_none key))
    · exact .pure ⟨hx, h.staged⟩

theorem cachedTxPutBytes_keeps (hv : (cx.check key value).MayEnd (.ok ()) → P.ok key value) :
    P.KeepsCached who (CachedTx.putBytes cx t key value) P.CleanCachedTx := by
  refine .bind (.core (txPutBytes_keeps hcr h.tx hv)) fun tx htx => .pure (h.insert htx.1 ?_)
  rintro _ ⟨⟩
  exact htx.2

theorem cachedTxSetBytes_keeps (hv : (cx.check key value).MayEnd (.ok ()) → P.ok key value) :
    P.KeepsCached who (CachedTx.setBytes cx t key value) fun x => P.CleanCachedTx x.2 := by
  refine .bind (cachedTxGetBytes_keeps hcr h key) fun prev _ => ?_
  refine .bind (.core (txPutBytes_keeps hcr h.tx hv)) fun tx htx => .pure (h.insert htx.1 ?_)
  rintro _ ⟨⟩
  exact htx.2

theorem cachedTxGetsBytes_keeps (limit : Option Nat) (d : Direction) (c : Cursor) :
    P.KeepsCached who (CachedTx.getsBytes cx t limit d c)
      fun rows => ∀ kv ∈ rows, P.ok kv.1 kv.2 := by
  refine .bind (.bind (.actTrue trivial) fun st _ => ?_)
    fun rows (hrows : ∀ kv ∈ rows, P.ok kv.1 kv.2) => .pure (mergeStaged_allowed h hrows d c limit)
  split
  · exact .act trivial
  · exact .core (txGetsBytes_keeps hcr h.tx none d c)

theorem cachedTxCommit_keeps : P.KeepsCached who (CachedTx.commit cx t) fun _ => True := by
  have happly : ∀ ops : List Op, (∀ op ∈ ops, P.Allows op) →
      P.KeepsCached who (CachedTx.applyStaged ops) fun _ => True := by
    intro ops hops
    induction ops with
    | nil => exact .pure trivial
    | cons op ops ih =>
      obtain ⟨hop, hops⟩ := List.forall_mem_cons.mp hops
      exact .bind (.actTrue hop) fun _ _ => ih hops
  refine .bind (writeThrough_keeps (txCommit_keeps hcr h.tx)) fun _ _ => ?_
  exact .bind (happly _ h.staged) fun _ _ => syncAfterWrite_keeps

end CleanCachedTx

end

end Policy

end OxKv
