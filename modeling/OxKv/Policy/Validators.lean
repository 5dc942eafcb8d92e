import OxKv.Policy.Mirror
import OxKv.Policy.Scripts
import OxKv.Runs.Lives

/-!
Validators against what a user of a store can do.

A user is a `Script`: it chooses its next call from the replies so far. Typed writes and
the loading of a snapshot are scripts (`Script.typedSet`, `Script.typedPut`,
`Script.load`).

* `validators_hold`: if no direct put is given a pair that some validator rejects, no read
  shows such a pair;
* `put_not_validated`: direct puts are not validated.
-/

namespace OxKv

/-! ## Validators -/

/-- A validator whose verdict depends on key and value only: the reason of a rejection. -/
structure PairValidator where
  scope : Scope
  reason : Key → Bytes → Option String

/-- `validate_key`: the first rejection of a validator whose scope matches. -/
def firstReason (vs : List PairValidator) (key : Key) (value : Bytes) : Option String :=
  vs.findSome? fun v => if v.scope.matches key then v.reason key value else none

/-- The validators as a store runs them. -/
def pairChecks (vs : List PairValidator) (key : Key) (value : Bytes) : Check :=
  .ofReason key (firstReason vs key value)

def Passes (vs : List PairValidator) (key : Key) (value : Bytes) : Prop :=
  ∀ v ∈ vs, v.scope.matches key → v.reason key value = none

theorem firstReason_eq_none {vs : List PairValidator} {key : Key} {value : Bytes} :
    firstReason vs key value = none ↔ Passes vs key value := by
  unfold firstReason Passes
  rw [List.findSome?_eq_none_iff]
  refine forall_congr' fun v => imp_congr_right fun _ => ?_
  split
  · exact ⟨fun h _ => h, fun h => h ‹_›⟩
  · exact ⟨fun _ h => absurd h ‹_›, fun _ => rfl⟩

/-! ## Calls -/

/-- The pair a call writes without a validator. -/
def Call.unchecked? : Call → Option KeyValue
  | .put key value => some (key, value)
  | .stageSet key value => some (key, value)
  | _ => none

/-- The pair that a lookup of the key returned. -/
def Reply.found (key : Key) : Reply → List KeyValue
  | .value (.ok (some v)) => [(key, v)]
  | _ => []

/-- The pairs that a scan returned. -/
def Reply.listed : Reply → List KeyValue
  | .rows (.ok kvs) => kvs
  | _ => []

/-- The pairs that a read returned. -/
def Call.shown : Call → Reply → List KeyValue
  | .get key, r => r.found key
  | .txGet _ key, r => r.found key
  | .gets _ _ _, r => r.listed
  | .txGets _ _ _ _, r => r.listed
  | _, _ => []

def CachedCall.value? : CachedCall → Option Bytes
  | .put _ value => some value
  | .set _ value => some value
  | .txSet _ _ value => some value
  | .txPut _ _ value => some value
  | .inner c => c.value?
  | _ => none

def CachedCall.unchecked? : CachedCall → Option KeyValue
  | .put key value => some (key, value)
  | .inner c => c.unchecked?
  | _ => none

def CachedCall.shown : CachedCall → Reply → List KeyValue
  | .get key, r => r.found key
  | .getChecked key, r => r.found key
  | .txGet _ key, r => r.found key
  | .gets _ _ _, r => r.listed
  | .getsChecked _ _ _, r => r.listed
  | .txGets _ _ _ _, r => r.listed
  | .inner c, r => c.shown r
  | _, _ => []

def storeSession (b : Builder) (s : Script Call) : Prog Act (List (Call × Reply)) :=
  Prog.bind (build b) fun
    | .ok cx => s.run (fun txs c => c.run cx txs) TxTable.none []
    | .error _ => .ret []

def cachedStoreSession (b : Builder) (mode : Cached.WarmMode) (s : Script CachedCall) :
    CachedProg (List (CachedCall × Reply)) :=
  Prog.bind (build b).lift fun
    | .error _ => .ret []
    | .ok cx =>
      Prog.bind (Cached.openWithMode cx mode) fun
        | .error _ => .ret []
        | .ok _ => s.run (fun txs c => c.run cx txs) CachedTxTable.none []

namespace Policy

/-- The pairs with values in `V` that pass all validators. -/
def ofValidators {cr : Crates} {V : Set Bytes} (hV : GoodValues cr V) (vs : List PairValidator) :
    Policy cr where
  ok key value := value ∈ V ∧ Passes vs key value
  plain h := hV.plain _ h.1
  length h := hV.length _ h.1
  inj h h' heq := hV.inj h.1 h'.1 heq

variable {cr : Crates} {P : Policy cr} {who : Who} {cx : Ctx}

theorem found_ok {key : Key} {r : Res (Option Bytes)} (h : ∀ a, r = .ok a → P.Allows (key, a)) :
    ∀ kv ∈ (Reply.value r).found key, P.ok kv.1 kv.2 := by
  rcases r with _ | _ | v
  · exact nofun
  · exact nofun
  · exact List.forall_mem_singleton.mpr (h _ rfl v rfl)

theorem listed_ok {r : Res (List KeyValue)}
    (h : ∀ rows, r = .ok rows → ∀ kv ∈ rows, P.ok kv.1 kv.2) :
    ∀ kv ∈ (Reply.rows r).listed, P.ok kv.1 kv.2 := by
  rcases r with _ | rows
  · exact nofun
  · exact h rows rfl

/-! ## The calls of a store -/

/-- The reply shows allowed pairs, and the open transactions hold such pairs. -/
def Good (P : Policy cr) (c : Call) (out : Reply × TxTable) : Prop :=
  (∀ kv ∈ c.shown out.1, P.ok kv.1 kv.2) ∧ ∀ t, P.CleanTx (out.2 t)

theorem cleanTx_update {txs : TxTable} (h : ∀ t, P.CleanTx (txs t)) (t : Nat) {tx : Tx}
    (htx : P.CleanTx tx) : ∀ t', P.CleanTx (Function.update txs t tx t') :=
  (Function.forall_update_iff txs fun _ => P.CleanTx).mpr ⟨htx, fun t' _ => h t'⟩

/-- A call of a kind that the policy admits keeps the world clean. -/
theorem call_keeps (hcr : cx.crates = cr) {txs : TxTable} (htxs : ∀ t, P.CleanTx (txs t))
    {c : Call}
    (hval : ∀ v, c.value? = some v → ∀ key, (cx.check key v).MayEnd (.ok ()) → P.ok key v)
    (hput : ∀ kv, c.unchecked? = some kv → P.ok kv.1 kv.2) :
    engine.Keeps P.Clean who (c.run cx txs) (P.Good c) := by
  have reply : ∀ {α : Type} {f : Res α → Reply} {p : Io α} {Q : α → Prop}, P.Keeps who p Q →
      (∀ r, (∀ a, r = .ok a → Q a) → ∀ kv ∈ c.shown (f r), P.ok kv.1 kv.2) →
      engine.Keeps P.Clean who (replying f txs p) (P.Good c) :=
    fun hp hf => .bind hp fun r hr => ⟨hf r hr, htxs⟩
  -- a call that changes its transaction shows nothing
  have update : ∀ {α : Type} {f : Res α → Reply} {t : Nat} {p : Io (α × Tx)},
      P.Keeps who p (fun x => P.CleanTx x.2) → (∀ r, c.shown (f r) = []) →
      engine.Keeps P.Clean who (updating f txs t p) (P.Good c) := by
    intro α f t p hp hf
    have hshown : ∀ r, ∀ kv ∈ c.shown (f r), P.ok kv.1 kv.2 := fun r => by simp [hf r]
    refine .bind hp fun r hr => ?_
    cases r with
    | error e => exact ⟨hshown _, htxs⟩
    | ok x => exact ⟨hshown _, cleanTx_update htxs t (hr x rfl)⟩
  cases c with
  | put key value => exact reply (putBytes_keeps hcr (hput (key, value) rfl)) fun _ _ => nofun
  | set key value => exact reply (setBytes_keeps hcr (hval value rfl key)) fun _ _ => nofun
  | delete key => exact reply (delete_keeps hcr key) fun _ _ => nofun
  | get key => exact reply (getBytes_keeps hcr key) fun _ h => found_ok h
  | has key => exact reply (has_keeps hcr key) fun _ _ => nofun
  | gets limit d cur => exact reply (getsBytes_keeps hcr limit d cur) fun _ h => listed_ok h
  | stageSet key value =>
    have hop : P.Allows (key, some value) := by
      rintro _ ⟨⟩
      exact hput (key, value) rfl
    exact reply (.bind (.actTrue (List.forall_mem_singleton.mpr hop)) fun _ _ => .actTrue hop)
      fun _ _ => nofun
  | stageDelete key =>
    have hop : P.Allows (key, none) := allows_none key
    exact reply (.bind (.actTrue (List.forall_mem_singleton.mpr hop)) fun _ _ => .actTrue hop)
      fun _ _ => nofun
  | flush => exact reply (withGate_keeps (drainStagedLocked_keeps hcr)) fun _ _ => nofun
  | flushMem => exact reply (withGate_keeps (flushMemToSstInner_keeps hcr false)) fun _ _ => nofun
  | flushForce => exact reply (withGate_keeps (flushMemToSstInner_keeps hcr true)) fun _ _ => nofun
  | compact => exact reply (withGate_keeps (compactInner_keeps hcr)) fun _ _ => nofun
  | gcWal => exact reply (withGate_keeps (gcWalLoop_keeps 4)) fun _ _ => nofun
  | gcOrphans => exact reply (withGate_keeps gcOrphansInner_keeps) fun _ _ => nofun
  | txSet t key value =>
    refine update ((txSetBytes_keeps hcr (htxs t) (hval value rfl key)).mono ?_) fun _ => rfl
    exact fun _ h => h.1
  | txPut t key value =>
    refine update (.bind (txPutBytes_keeps hcr (htxs t) (hval value rfl key)) ?_) fun _ => rfl
    exact fun _ h => .pure h.1
  | txDelete t key => exact update (txDelete_keeps hcr (htxs t) key) fun _ => rfl
  | txGet t key => exact reply (txGetBytes_keeps hcr (htxs t) key) fun _ h => found_ok h
  | txHas t key => exact reply (txHas_keeps hcr (htxs t) key) fun _ _ => nofun
  | txGets t limit d cur =>
    exact reply (txGetsBytes_keeps hcr (htxs t) limit d cur) fun _ h => listed_ok h
  | txCommit t =>
    refine .bind (txCommit_keeps hcr (htxs t)) fun r _ => ⟨nofun, ?_⟩
    exact cleanTx_update htxs t .begin
  | txRollback t => exact ⟨nofun, cleanTx_update htxs t .begin⟩

/-! ## The calls of a cached store -/

structure CleanTable (P : Policy cr) (txs : CachedTxTable) : Prop where
  cached : ∀ t, P.CleanCachedTx (txs.cached t)
  core : ∀ t, P.CleanTx (txs.core t)

theorem CleanTable.set {txs : CachedTxTable} (h : P.CleanTable txs) (t : Nat) {tx : CachedTx}
    (htx : P.CleanCachedTx tx) : P.CleanTable (txs.set t tx) where
  cached := (Function.forall_update_iff txs.cached fun _ => P.CleanCachedTx).mpr
    ⟨htx, fun t' _ => h.cached t'⟩
  core := h.core

def GoodCached (P : Policy cr) (c : CachedCall) (out : Reply × CachedTxTable) : Prop :=
  (∀ kv ∈ c.shown out.1, P.ok kv.1 kv.2) ∧ P.CleanTable out.2

theorem cachedCall_keeps (hcr : cx.crates = cr) {txs : CachedTxTable} (htxs : P.CleanTable txs)
    {c : CachedCall}
    (hval : ∀ v, c.value? = some v → ∀ key, (cx.check key v).MayEnd (.ok ()) → P.ok key v)
    (hput : ∀ kv, c.unchecked? = some kv → P.ok kv.1 kv.2) :
    cachedEngine.Keeps P.CleanCached who (c.run cx txs) (P.GoodCached c) := by
  have reply : ∀ {α : Type} {f : Res α → Reply} {p : CachedIo α} {Q : α → Prop},
      P.KeepsCached who p Q →
      (∀ r, (∀ a, r = .ok a → Q a) → ∀ kv ∈ c.shown (f r), P.ok kv.1 kv.2) →
      cachedEngine.Keeps P.CleanCached who (CachedCall.replying f txs p) (P.GoodCached c) :=
    fun hp hf => .bind hp fun r hr => ⟨hf r hr, htxs⟩
  have update : ∀ {α : Type} {f : Res α → Reply} {t : Nat} {p : CachedIo (α × CachedTx)},
      P.KeepsCached who p (fun x => P.CleanCachedTx x.2) → (∀ r, c.shown (f r) = []) →
      cachedEngine.Keeps P.CleanCached who (CachedCall.updating f txs t p) (P.GoodCached c) := by
    intro α f t p hp hf
    have hshown : ∀ r, ∀ kv ∈ c.shown (f r), P.ok kv.1 kv.2 := fun r => by simp [hf r]
    refine .bind hp fun r hr => ?_
    cases r with
    | error e => exact ⟨hshown _, htxs⟩
    | ok x => exact ⟨hshown _, htxs.set t (hr x rfl)⟩
  cases c with
  | put key value => exact reply (cachedPutBytes_keeps hcr (hput (key, value) rfl)) fun _ _ => nofun
  | set key value => exact reply (cachedSetBytes_keeps hcr (hval value rfl key)) fun _ _ => nofun
  | delete key => exact reply (cachedDelete_keeps hcr key) fun _ _ => nofun
  | get key => exact reply (cachedGetBytes_keeps hcr key) fun _ h => found_ok h
  | has key => exact reply (cachedHas_keeps hcr key) fun _ _ => nofun
  | gets limit d cur => exact reply (cachedGetsBytes_keeps hcr limit d cur) fun _ h => listed_ok h
  | warm => exact reply (warm_keeps hcr) fun _ _ => nofun
  | warmStep pages => exact reply (warmStep_keeps hcr pages) fun _ _ => nofun
  | refresh => exact reply (refresh_keeps hcr) fun _ _ => nofun
  | checkStale => exact reply checkStale_keeps fun _ _ => nofun
  | getChecked key =>
    exact reply (.bind (maybeRefresh_keeps hcr) fun _ _ => cachedGetBytes_keeps hcr key)
      fun _ h => found_ok h
  | hasChecked key =>
    exact reply (.bind (maybeRefresh_keeps hcr) fun _ _ => cachedHas_keeps hcr key) fun _ _ => nofun
  | getsChecked limit d cur =>
    exact reply (.bind (maybeRefresh_keeps hcr) fun _ _ => cachedGetsBytes_keeps hcr limit d cur)
      fun _ h => listed_ok h
  | txSet t key value =>
    exact update (cachedTxSetBytes_keeps hcr (htxs.cached t) (hval value rfl key)) fun _ => rfl
  | txPut t key value =>
    refine update (.bind (cachedTxPutBytes_keeps hcr (htxs.cached t) (hval value rfl key)) ?_)
      fun _ => rfl
    exact fun _ h => .pure h
  | txDelete t key => exact update (cachedTxDelete_keeps hcr (htxs.cached t) key) fun _ => rfl
  | txGet t key => exact reply (cachedTxGetBytes_keeps hcr (htxs.cached t) key) fun _ h => found_ok h
  | txHas t key => exact reply (cachedTxHas_keeps hcr (htxs.cached t) key) fun _ _ => nofun
  | txGets t limit d cur =>
    exact reply (cachedTxGetsBytes_keeps hcr (htxs.cached t) limit d cur) fun _ h => listed_ok h
  | txCommit t =>
    refine .bind (cachedTxCommit_keeps hcr (htxs.cached t)) fun r _ => ⟨nofun, ?_⟩
    exact htxs.set t .begin
  | txRollback t => exact ⟨nofun, htxs.set t .begin⟩
  | inner c =>
    refine .bind (.lift (call_keeps hcr htxs.core hval hput)) ?_
    exact fun out hout => ⟨hout.1, htxs.cached, hout.2⟩

end Policy

/-! ## Sessions -/

/-- The value of a call is in `V`, and if no validator is asked the pair would pass. -/
def Vetted (V : Set Bytes) (vs : List PairValidator) (value? : Option Bytes)
    (unchecked? : Option KeyValue) : Prop :=
  (∀ v, value? = some v → v ∈ V) ∧ ∀ kv, unchecked? = some kv → Passes vs kv.1 kv.2

theorem Call.value_of_unchecked {c : Call} {kv : KeyValue} (h : c.unchecked? = some kv) :
    c.value? = some kv.2 := by
  cases c with
  | put key value =>
    cases h
    rfl
  | stageSet key value =>
    cases h
    rfl
  | _ => cases h

theorem CachedCall.value_of_unchecked {c : CachedCall} {kv : KeyValue}
    (h : c.unchecked? = some kv) : c.value? = some kv.2 := by
  cases c with
  | put key value =>
    cases h
    rfl
  | inner c => exact Call.value_of_unchecked h
  | _ => cases h

section Sessions

variable {cr : Crates} {vs : List PairValidator} {V : Set Bytes} (hV : GoodValues cr V) {cx : Ctx}
  (hcr : cx.crates = cr) (hrej : cx.check = pairChecks vs)

/-- Every pair that the transcript shows has a value in `V` and passes. -/
def ShowsPassing {C : Type} (V : Set Bytes) (vs : List PairValidator)
    (shown : C → Reply → List KeyValue) (t : List (C × Reply)) : Prop :=
  ∀ x ∈ t, ∀ kv ∈ shown x.1 x.2, kv.2 ∈ V ∧ Passes vs kv.1 kv.2

include hrej in
theorem check_passes {key : Key} {v : Bytes} (h : (cx.check key v).MayEnd (.ok ())) :
    Passes vs key v := by
  rw [hrej] at h
  exact firstReason_eq_none.mp (Check.ofReason_mayEnd_ok h)

include hV hcr hrej

theorem script_ends (s : Script Call) {w : World} (hw : (Policy.ofValidators hV vs).Clean w) :
    engine.Ends ⟨0, 0⟩ (s.run (fun txs c => c.run cx txs) TxTable.none []) (fun t _ =>
      (∀ x ∈ t, Vetted V vs x.1.value? x.1.unchecked?) → ShowsPassing V vs Call.shown t) w := by
  refine Script.run_ends (M := engine) (J := (Policy.ofValidators hV vs).Clean)
    (T := fun txs : TxTable => ∀ t, (Policy.ofValidators hV vs).CleanTx (txs t))
    (A := fun c => Vetted V vs c.value? c.unchecked?)
    (R := fun c r => ∀ kv ∈ c.shown r, (Policy.ofValidators hV vs).ok kv.1 kv.2)
    ?_ s (fun _ => .begin) hw (fun x hx => absurd hx List.not_mem_nil)
  intro txs c htxs hc
  exact Policy.call_keeps hcr htxs (fun v hv key hpass => ⟨hc.1 v hv, check_passes hrej hpass⟩)
    fun kv hkv => ⟨hc.1 _ (c.value_of_unchecked hkv), hc.2 kv hkv⟩

theorem cachedScript_ends (s : Script CachedCall) {w : World × Mirrors}
    (hw : (Policy.ofValidators hV vs).CleanCached w) :
    cachedEngine.Ends ⟨0, 0⟩ (s.run (fun txs c => c.run cx txs) CachedTxTable.none []) (fun t _ =>
      (∀ x ∈ t, Vetted V vs x.1.value? x.1.unchecked?) →
        ShowsPassing V vs CachedCall.shown t) w := by
  have hnone : (Policy.ofValidators hV vs).CleanTable CachedTxTable.none :=
    ⟨fun _ => .begin, fun _ => .begin⟩
  refine Script.run_ends (M := cachedEngine) (J := (Policy.ofValidators hV vs).CleanCached)
    (T := (Policy.ofValidators hV vs).CleanTable)
    (A := fun c => Vetted V vs c.value? c.unchecked?)
    (R := fun c r => ∀ kv ∈ c.shown r, (Policy.ofValidators hV vs).ok kv.1 kv.2)
    ?_ s hnone hw (fun x hx => absurd hx List.not_mem_nil)
  intro txs c htxs hc
  exact Policy.cachedCall_keeps hcr htxs
    (fun v hv key hpass => ⟨hc.1 v hv, check_passes hrej hpass⟩)
    fun kv hkv => ⟨hc.1 _ (c.value_of_unchecked hkv), hc.2 kv hkv⟩

end Sessions

section Opened

variable {vs : List PairValidator} {V : Set Bytes} {b : Builder} (hV : GoodValues b.crates V)
  (hvs : b.check = pairChecks vs)
include hV hvs

theorem storeSession_ends (s : Script Call) :
    engine.Ends ⟨0, 0⟩ (storeSession b s) (fun t _ =>
      (∀ x ∈ t, Vetted V vs x.1.value? x.1.unchecked?) → ShowsPassing V vs Call.shown t)
      World.start := by
  have hbuild := @Policy.build_keeps _ (Policy.ofValidators hV vs) ⟨0, 0⟩ b
  refine .bind ((hbuild.ends Policy.Clean.start).mono ?_)
  rintro (e | cx) w ⟨hw, hcx⟩
  · exact .ret fun _ x hx => absurd hx List.not_mem_nil
  · have ⟨hcr, hrej⟩ := hcx cx rfl
    exact script_ends hV hcr (hrej.trans hvs) s hw

theorem cachedStoreSession_ends (mode : Cached.WarmMode) (s : Script CachedCall) :
    cachedEngine.Ends ⟨0, 0⟩ (cachedStoreSession b mode s) (fun t _ =>
      (∀ x ∈ t, Vetted V vs x.1.value? x.1.unchecked?) → ShowsPassing V vs CachedCall.shown t)
      (World.start, Mirrors.start) := by
  have hstart : (Policy.ofValidators hV vs).CleanCached (World.start, Mirrors.start) :=
    ⟨Policy.Clean.start, fun _ => nofun⟩
  have hbuild := @Policy.build_keeps _ (Policy.ofValidators hV vs) ⟨0, 0⟩ b
  refine .bind (((Machine.Keeps.lift hbuild).ends hstart).mono ?_)
  rintro (e | cx) w ⟨hw, hcx⟩
  · exact .ret fun _ x hx => absurd hx List.not_mem_nil
  · have ⟨hcr, hrej⟩ := hcx cx rfl
    refine .bind (((Policy.openWithMode_keeps hcr mode).ends hw).mono ?_)
    rintro (e | _) w' ⟨hw', -⟩
    · exact .ret fun _ x hx => absurd hx List.not_mem_nil
    · exact cachedScript_ends hV hcr (hrej.trans hvs) s hw'

end Opened

/-- No read shows a pair that a validator rejects, if no direct put is given such a pair.
Any storage operation may fail, without effect. -/
theorem validators_hold (vs : List PairValidator) (V : Set Bytes) (b : Builder)
    (hV : GoodValues b.crates V) (hvs : b.check = pairChecks vs) :
    (∀ (s : Script Call) o t o' w,
      engine.run ⟨0, 0⟩ (storeSession b s) o World.start = some (t, o', w) →
      (∀ x ∈ t, Vetted V vs x.1.value? x.1.unchecked?) →
      ∀ x ∈ t, ∀ kv ∈ x.1.shown x.2, Passes vs kv.1 kv.2) ∧
    ∀ (mode : Cached.WarmMode) (s : Script CachedCall) o t o' w,
      cachedEngine.run ⟨0, 0⟩ (cachedStoreSession b mode s) o (World.start, Mirrors.start) =
        some (t, o', w) →
      (∀ x ∈ t, Vetted V vs x.1.value? x.1.unchecked?) →
      ∀ x ∈ t, ∀ kv ∈ x.1.shown x.2, Passes vs kv.1 kv.2 := by
  refine ⟨fun s o t o' w hrun ht x hx kv hkv => ?_, fun mode s o t o' w hrun ht x hx kv hkv => ?_⟩
  · exact (storeSession_ends hV hvs s o t o' w hrun ht x hx kv hkv).2
  · exact (cachedStoreSession_ends hV hvs mode s o t o' w hrun ht x hx kv hkv).2

/-! ## Samples -/

/-- A validator of all keys that only accepts the value `[1]`. -/
def onlyOne : PairValidator where
  scope := .all
  reason _ value := if value = [1] then none else some "not one"

def watchedBuilder : Builder := { sampleBuilder with check := pairChecks [onlyOne] }

def Script.ofList {C : Type} : List C → Script C
  | [] => .done
  | c :: cs => .call c fun _ => ofList cs

/-- Two rejected writes among accepted ones. -/
def watchedCalls : List Call :=
  [.set "a" [1], .set "a" [2], .put "b" [1], .txSet 0 "c" [1], .txPut 0 "d" [2], .txCommit 0,
    .get "a", .gets none .next (none, none)]

def watchedCachedCalls : List CachedCall :=
  [.set "a" [1], .set "a" [2], .put "b" [1], .txSet 0 "c" [1], .txPut 0 "d" [2], .txCommit 0,
    .get "a", .gets none .next (none, none)]

/-- What a call writes and what its reply shows. -/
structure CallNote where
  value? : Option Bytes
  unchecked? : Option KeyValue
  shown : List KeyValue
  deriving DecidableEq

def watchedTranscript : List CallNote :=
  [⟨some [1], none, []⟩, ⟨some [2], none, []⟩, ⟨some [1], some ("b", [1]), []⟩,
    ⟨some [1], none, []⟩, ⟨some [2], none, []⟩, ⟨none, none, []⟩, ⟨none, none, [("a", [1])]⟩,
    ⟨none, none, [("a", [1]), ("b", [1]), ("c", [1])]⟩]

theorem watchedTranscript_vetted :
    ∀ y ∈ watchedTranscript, Vetted {[1], [2]} [onlyOne] y.value? y.unchecked? := by
  have hb : Passes [onlyOne] "b" [1] := by
    rw [← firstReason_eq_none]
    decide
  simp [watchedTranscript, Vetted, hb]

set_option maxRecDepth 100000 in
theorem validators_hold_watched :
    (∃ t o w, engine.run ⟨0, 0⟩ (storeSession watchedBuilder (.ofList watchedCalls)) faultless
        World.start = some (t, o, w) ∧
      t.map (fun x => CallNote.mk x.1.value? x.1.unchecked? (x.1.shown x.2)) = watchedTranscript ∧
      ∀ x ∈ t, ∀ kv ∈ x.1.shown x.2, Passes [onlyOne] kv.1 kv.2) ∧
    ∃ t o w, cachedEngine.run ⟨0, 0⟩ (cachedStoreSession watchedBuilder .eager
        (.ofList watchedCachedCalls)) faultless (World.start, Mirrors.start) = some (t, o, w) ∧
      t.map (fun x => CallNote.mk x.1.value? x.1.unchecked? (x.1.shown x.2)) = watchedTranscript ∧
      ∀ x ∈ t, ∀ kv ∈ x.1.shown x.2, Passes [onlyOne] kv.1 kv.2 := by
  have hV : GoodValues watchedBuilder.crates {[1], [2]} := by
    refine ⟨?_, ?_, ?_⟩
    · rintro v (rfl | rfl) <;> decide +kernel
    · rintro v (rfl | rfl) <;> decide
    · rintro v (rfl | rfl) v' (rfl | rfl) <;> decide +kernel
  obtain ⟨hstore, hcached⟩ := validators_hold [onlyOne] {[1], [2]} watchedBuilder hV rfl
  constructor
  · have hrun : (engine.run ⟨0, 0⟩ (storeSession watchedBuilder (.ofList watchedCalls)) faultless
        World.start).map (fun x => x.1.map fun x => ⟨x.1.value?, x.1.unchecked?, x.1.shown x.2⟩) =
        some watchedTranscript := by decide +kernel
    obtain ⟨⟨t, o, w⟩, hrun, ht⟩ := Option.map_eq_some_iff.mp hrun
    refine ⟨t, o, w, hrun, ht, hstore _ _ t o w hrun fun x hx => ?_⟩
    exact watchedTranscript_vetted _ (ht ▸ List.mem_map_of_mem hx)
  · have hrun : (cachedEngine.run ⟨0, 0⟩ (cachedStoreSession watchedBuilder .eager
        (.ofList watchedCachedCalls)) faultless (World.start, Mirrors.start)).map
        (fun x => x.1.map fun x => ⟨x.1.value?, x.1.unchecked?, x.1.shown x.2⟩) =
        some watchedTranscript := by decide +kernel
    obtain ⟨⟨t, o, w⟩, hrun, ht⟩ := Option.map_eq_some_iff.mp hrun
    refine ⟨t, o, w, hrun, ht, hcached _ _ _ t o w hrun fun x hx => ?_⟩
    exact watchedTranscript_vetted _ (ht ▸ List.mem_map_of_mem hx)

set_option maxRecDepth 100000 in
/-- A direct put of a rejected pair succeeds, and both stores show the pair. -/
theorem put_not_validated :
    (engine.run ⟨0, 0⟩ (storeSession watchedBuilder (.ofList [.put "a" [2], .get "a"])) faultless
        World.start).map (fun x => x.1.map Prod.snd) =
      some [.done (.ok ()), .value (.ok (some [2]))] ∧
    (cachedEngine.run ⟨0, 0⟩ (cachedStoreSession watchedBuilder .eager
        (.ofList [.put "a" [2], .get "a"])) faultless (World.start, Mirrors.start)).map
        (fun x => x.1.map Prod.snd) =
      some [.done (.ok ()), .value (.ok (some [2]))] ∧
    ¬ Passes [onlyOne] "a" [2] := by
  refine ⟨by decide +kernel, by decide +kernel, ?_⟩
  rw [← firstReason_eq_none]
  decide

end OxKv
