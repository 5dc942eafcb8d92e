import OxKv.Engine.Read
import OxKv.Lib.Extend

/-!
What the reading procedures do from any state, whatever the environment chooses: they
leave the stored objects alone, and a read does not fail with `Fenced`.
-/

namespace OxKv

/-! ## Procedures that only look -/

def Io.Only {α : Type} (A : {β : Type} → Act β → Prop) (p : Io α) : Prop := Prog.Only A p

namespace Io.Only

variable {A : {β : Type} → Act β → Prop} {α β : Type}

theorem ofRes (r : Res α) : Io.Only A (Io.ofRes r) := trivial

theorem pure (a : α) : Io.Only A (Pure.pure a : Io α) := trivial

theorem fail (e : StoreError) : Io.Only A (Io.fail e : Io α) := trivial

theorem act {a : Act α} (h : A a) : Io.Only A (Io.act a) := ⟨h, fun _ => trivial⟩

theorem call {a : Act (Res α)} (h : A a) : Io.Only A (Io.call a) := ⟨h, fun _ => trivial⟩

theorem any (p : Io α) : p.Only fun _ => True := Prog.only_true p

variable {p : Io α}

theorem bind {f : α → Io β} (hp : p.Only A) (hf : ∀ a, (f a).Only A) : Io.Only A (p >>= f) := by
  refine Prog.Only.bind hp fun r => ?_
  cases r with
  | ok a => exact hf a
  | error e => trivial

theorem attempt (hp : p.Only A) : Io.Only A (Io.attempt p) :=
  Prog.Only.bind hp fun _ => trivial

theorem mapErr {f : StoreError → StoreError} (hp : p.Only A) : Io.Only A (Io.mapErr f p) := by
  refine Prog.Only.bind hp fun r => ?_
  cases r <;> trivial

end Io.Only

/-- Neither writes to storage nor publishes or reports anything, nor opens a handle. -/
def Act.looks {β : Type} : Act β → Bool
  | .putOpts _ _ _ | .delete _ | .notify _ | .mark _ | .newHandle _ _ _ => false
  | _ => true

def Io.Looks {α : Type} (p : Io α) : Prop := p.Only fun a => a.looks = true

section Looks

variable (cx : Ctx)

theorem readManifest_looks : readManifest.Looks := by
  refine .bind (.attempt (.call rfl)) fun r => ?_
  split
  · exact .pure _
  · exact .fail _
  · split
    · exact .pure _
    · exact .fail _

theorem loadManifest_looks (ttl : Bool) : (loadManifest cx ttl).Looks := by
  have hadopt : ∀ m e, Io.Looks (do Io.act (.cacheUpdate m e); return (m, e)) :=
    fun m e => .bind (.act rfl) fun _ => .pure _
  refine .bind (.act rfl) fun x => ?_
  split
  · exact .pure _
  · refine .bind (.attempt (.call rfl)) fun r => ?_
    split
    · exact hadopt _ _
    · exact .fail _
    · exact .pure _
    · split
      · exact hadopt _ _
      · exact .fail _
  · refine .bind readManifest_looks fun r => ?_
    split
    · exact hadopt _ _
    · exact hadopt _ _

theorem resolveValue_looks (raw : Bytes) : (resolveValue cx raw).Looks := by
  unfold resolveValue
  split
  · exact .pure _
  · refine .bind (.bind (.mapErr (.call rfl)) fun x => ?_) fun b => ?_
    · split
      · exact .pure _
      · exact .fail _
    · split
      · exact .fail _
      · split
        · exact .fail _
        · exact .pure _

theorem readSst_looks (id : ObjectPath) : (readSst cx id).Looks := by
  refine .bind (.mapErr (.call rfl)) fun x => ?_
  split
  · exact .bind (.ofRes _) fun f => .bind (.ofRes _) fun _ => .pure _
  · exact .fail _

theorem fetchSst_looks (id : ObjectPath) : (fetchSst cx id).Looks := by
  refine .bind (.act rfl) fun x => ?_
  split
  · exact .pure _
  · exact .bind (readSst_looks cx id) fun f => .bind (.act rfl) fun _ => .pure _

theorem retryOnceNotFound_looks {α : Type} {p : Io α} (h : p.Looks) :
    (retryOnceNotFound p).Looks := by
  refine .bind (.attempt h) fun r => ?_
  split
  · exact .pure _
  · split
    · exact .bind (.act rfl) fun _ => h
    · exact .fail _

theorem resolveHit_looks (hit : Option Bytes) : (resolveHit cx hit).Looks := by
  cases hit with
  | none => exact .pure _
  | some raw => exact .bind (resolveValue_looks cx raw) fun _ => .pure _

theorem lookupFiles_looks (key : Key) (ms : List SstMeta) : (lookupFiles cx key ms).Looks := by
  induction ms with
  | nil => exact .pure _
  | cons m ms ih =>
    unfold lookupFiles
    split
    · exact ih
    · refine .bind (fetchSst_looks cx m.id) fun f => .bind (.ofRes _) fun r => ?_
      split
      · exact resolveHit_looks cx _
      · exact ih

theorem pointLookup_looks (staged : Option (Option Bytes)) (key : Key) :
    (pointLookup cx staged key).Looks := by
  cases staged with
  | some hit => exact resolveHit_looks cx hit
  | none => exact .bind (loadManifest_looks cx true) fun _ => lookupFiles_looks cx key _

theorem getBytes_looks (key : Key) : (getBytes cx key).Looks :=
  retryOnceNotFound_looks (.bind (.act rfl) fun _ => pointLookup_looks cx _ key)

theorem has_looks (key : Key) : (has cx key).Looks :=
  .bind (getBytes_looks cx key) fun _ => .pure _

theorem fetchFiles_looks (ms : List SstMeta) : (fetchFiles cx ms).Looks := by
  induction ms with
  | nil => exact .pure _
  | cons m ms ih => exact .bind (fetchSst_looks cx m.id) fun _ => .bind ih fun _ => .pure _

theorem resolveRows_looks (rows : List KeyValue) : (resolveRows cx rows).Looks := by
  induction rows with
  | nil => exact .pure _
  | cons kv rows ih => exact .bind (resolveValue_looks cx kv.2) fun _ => .bind ih fun _ => .pure _

theorem resolveOps_looks (rows : List Op) : (resolveOps cx rows).Looks := by
  induction rows with
  | nil => exact .pure _
  | cons op rows ih => exact .bind (resolveHit_looks cx op.2) fun _ => .bind ih fun _ => .pure _

theorem readSources_looks (start stop : Option Key) (ms : List SstMeta) :
    (readSources cx start stop ms).Looks := by
  induction ms with
  | nil => exact .pure _
  | cons m ms ih =>
    exact .bind (readSst_looks cx m.id) fun _ => .bind (.ofRes _) fun _ =>
      .bind (resolveOps_looks cx _) fun _ => .bind ih fun _ => .pure _

theorem rangeLookup_looks (layers : List (List Op)) (limit : Option Nat) (d : Direction)
    (c : Cursor) : (rangeLookup cx layers limit d c).Looks := by
  refine .bind (loadManifest_looks cx true) fun x => ?_
  unfold scanManifest
  cases d with
  | next =>
    exact .bind (fetchFiles_looks cx _) fun _ => .bind (.ofRes _) fun _ => resolveRows_looks cx _
  | prev =>
    dsimp only
    split
    · exact .pure _
    · exact .bind (readSources_looks cx _ _ _) fun _ => .pure _

theorem getsBytes_looks (limit : Option Nat) (d : Direction) (c : Cursor) :
    (getsBytes cx limit d c).Looks :=
  retryOnceNotFound_looks (.bind (.act rfl) fun _ => rangeLookup_looks cx _ limit d c)

end Looks

/-- An action that looks leaves storage alone. -/
theorem exec_looks {β : Type} {a : Act β} {who : Who} {c : Choice} {w w' : World} {r : β}
    (ha : a.looks = true) (hx : exec who c a w = some (r, w')) : w'.st = w.st := by
  cases a with
  | get p => rcases (exec_get_cases hx).1 with rfl | rfl <;> rfl
  | getOpts p t => rcases (exec_getOpts_cases hx).1 with rfl | rfl <;> rfl
  | putOpts | delete | notify | mark | newHandle => cases ha
  | list | lockGate | recv =>
    dsimp only [exec] at hx
    split at hx <;> cases hx <;> rfl
  | memSnapshot =>
    dsimp only [exec] at hx
    split at hx
    · cases hx
      rfl
    · split at hx <;> cases hx <;> rfl
  | _ =>
    cases hx
    rfl

/-! ## Procedures that fail as reads do -/

/-- The errors of the procedure are of the given kind. -/
def Io.Reads {α : Type} (E : StoreError → Prop) (p : Io α) : Prop :=
  ∀ who w, engine.Ends who p (fun r _ => ∀ e, r = .error e → E e) w

namespace Io.Reads

variable {E : StoreError → Prop} {α β : Type}

theorem ofRes {r : Res α} (h : ∀ e, r = .error e → E e) : Reads E (Io.ofRes r) :=
  fun _ _ => .ret h

theorem pure (a : α) : Reads E (Pure.pure a : Io α) := ofRes (r := .ok a) nofun

theorem fail {e : StoreError} (h : E e) : Reads E (Io.fail e : Io α) :=
  ofRes (r := .error e) fun _ he => Except.error.inj he ▸ h

theorem bind {p : Io α} {f : α → Io β} (hp : Reads E p) (hf : ∀ a, Reads E (f a)) :
    Reads E (p >>= f) := by
  refine fun who w => .bind ((hp who w).mono fun r w' he => ?_)
  cases r with
  | ok a => exact hf a who w'
  | error e => exact Io.Reads.fail (he e rfl) who w'

/-- Look at the outcome and go on. -/
theorem attemptBind {p : Io α} {f : Res α → Io β} (hp : Reads E p)
    (hok : ∀ a, Reads E (f (.ok a))) (herr : ∀ e, E e → Reads E (f (.error e))) :
    Reads E (Io.attempt p >>= f) := by
  refine fun who w => .bind (.bind ((hp who w).mono fun r w' he => .ret ?_))
  cases r with
  | ok a => exact hok a who w'
  | error e => exact herr e (he e rfl) who w'

theorem mapErr {p : Io α} {f : StoreError → StoreError} (hp : Reads E p) (hf : ∀ e, E e → E (f e)) :
    Reads E (Io.mapErr f p) := by
  refine fun who w => .bind ((hp who w).mono fun r w' he => ?_)
  cases r with
  | ok a => exact Io.Reads.pure a who w'
  | error e => exact Io.Reads.fail (hf e (he e rfl)) who w'

theorem act (a : Act α) : Reads E (Io.act a) := fun _ _ => .act fun _ _ _ _ => .ret nofun

theorem call {a : Act (Res α)}
    (h : ∀ {who c w r w'}, exec who c a w = some (r, w') → ∀ e, r = .error e → E e) :
    Reads E (Io.call a) :=
  fun _ _ => .act fun _ _ _ hx => .ret (h hx)

end Io.Reads

/-- Failures of storage reads. -/
def StoreError.OfRead : StoreError → Prop
  | .storage _ => True
  | .notModified => True
  | _ => False

theorem StoreError.OfRead.ne_fenced {e : StoreError} (h : e.OfRead) (why : String) :
    e ≠ .fenced why := by
  rintro rfl
  exact h

/-! ## Table files -/

section Table

variable {crc32 : Bytes → UInt32} {f : SstFile} {e : StoreError}

theorem SstFile.parse_error (h : f.parse = .error e) : e.OfRead := by
  unfold SstFile.parse at h
  split at h <;> cases h
  trivial

theorem SstFile.blockBytes_error {b : BlockMeta} (h : f.blockBytes crc32 b = .error e) :
    e.OfRead := by
  unfold SstFile.blockBytes at h
  grind [StoreError.OfRead]

theorem findInBlock_error {key : Key} {fuel : Nat} {bytes : Bytes}
    (h : findInBlock key fuel bytes = .error e) : e.OfRead := by
  fun_induction findInBlock key fuel bytes <;> grind [StoreError.OfRead, utf8Error]

theorem SstFile.findInBlocks_error {key : Key} {bs : List BlockMeta}
    (h : f.findInBlocks crc32 key bs = .error e) : e.OfRead := by
  fun_induction SstFile.findInBlocks crc32 f key bs <;>
    grind [SstFile.blockBytes_error, findInBlock_error]

theorem SstFile.getOption_error {key : Key} (h : f.getOption crc32 key = .error e) : e.OfRead := by
  unfold SstFile.getOption at h
  split at h
  · exact findInBlocks_error h
  · cases h

theorem SstFile.allBlocks_error {bs : List BlockMeta} (h : f.allBlocks crc32 bs = .error e) :
    e.OfRead := by
  fun_induction SstFile.allBlocks crc32 f bs <;> grind [SstFile.blockBytes_error]

theorem SstFile.verifyFileCrc_error (h : f.verifyFileCrc crc32 = .error e) : e.OfRead := by
  unfold SstFile.verifyFileCrc at h
  grind [SstFile.allBlocks_error, StoreError.OfRead]

end Table

/-! ## Manifest and ownership -/

open Io (Reads)

variable (cx : Ctx)

theorem get_reads (p : ObjectPath) : Reads StoreError.OfRead (Io.call (.get p)) := by
  refine .call fun {who c w r w'} hx e he => ?_
  rcases (exec_get_cases hx).2 with ⟨-, rfl⟩ | rfl
  · cases he
    trivial
  · unfold Storage.get at he
    split at he <;> cases he
    trivial

theorem getOpts_reads (p : ObjectPath) (t : Etag) :
    Reads StoreError.OfRead (Io.call (.getOpts p t)) := by
  refine .call fun {who c w r w'} hx e he => ?_
  rcases (exec_getOpts_cases hx).2 with ⟨-, rfl⟩ | rfl
  · cases he
    trivial
  · rw [Storage.getOpts, Storage.get] at he
    cases hl : w.st.lookup p with
    | none =>
      rw [hl] at he
      cases he
      trivial
    | some x =>
      rw [hl] at he
      simp only at he
      split at he <;> cases he
      trivial

theorem storageFail_ofRead (pre : String) (e : StoreError) : (storageFail pre e).OfRead := trivial

theorem readManifest_reads : Reads StoreError.OfRead readManifest := by
  refine .attemptBind (get_reads _) (fun x => ?_) fun e _ => ?_
  · obtain ⟨o, t⟩ := x
    cases o with
    | manifest m => exact .pure _
    | _ => exact .fail trivial
  · simp only
    split
    · exact .pure _
    · exact .fail (storageFail_ofRead _ _)

theorem loadManifest_reads (ttl : Bool) : Reads StoreError.OfRead (loadManifest cx ttl) := by
  refine .bind (.act _) fun x => ?_
  obtain ⟨_ | ⟨m, t⟩, _ | _⟩ := x
  case none.false | none.true =>
    refine .bind readManifest_reads fun y => ?_
    cases y with
    | none | some y => exact .bind (.act _) fun _ => .pure _
  case some.true => exact .pure _
  case some.false =>
    refine .attemptBind (getOpts_reads _ _) (fun y => ?_) fun e _ => ?_
    · obtain ⟨o, t'⟩ := y
      cases o with
      | manifest m' => exact .bind (.act _) fun _ => .pure _
      | _ => exact .fail trivial
    · cases e with
      | notModified => exact .pure _
      | _ =>
        simp only
        split
        · exact .bind (.act _) fun _ => .pure _
        · exact .fail (storageFail_ofRead _ _)

/-! ## Lookups and scans -/

theorem getBlob_reads (p : ObjectPath) : Reads StoreError.OfRead (getBlob p) := by
  refine .bind (.mapErr (get_reads p) fun e _ => storageFail_ofRead _ e) fun x => ?_
  obtain ⟨o, t⟩ := x
  cases o with
  | bytes b => exact .pure _
  | _ => exact .fail trivial

theorem resolveValue_reads (raw : Bytes) : Reads StoreError.OfRead (resolveValue cx raw) := by
  unfold resolveValue
  split
  · exact .pure _
  · refine .bind (getBlob_reads _) fun bytes => ?_
    split
    · exact .fail trivial
    · split
      · exact .fail trivial
      · exact .pure _

theorem resolveHit_reads (hit : Option Bytes) : Reads StoreError.OfRead (resolveHit cx hit) := by
  cases hit with
  | none => exact .pure _
  | some raw => exact .bind (resolveValue_reads cx raw) fun _ => .pure _

theorem readSst_reads (id : ObjectPath) : Reads StoreError.OfRead (readSst cx id) := by
  refine .bind (.mapErr (get_reads id) fun e _ => storageFail_ofRead _ e) fun x => ?_
  obtain ⟨o, t⟩ := x
  cases o with
  | sst f =>
    exact .bind (.ofRes fun _ h => SstFile.parse_error h) fun f =>
      .bind (.ofRes fun _ h => SstFile.verifyFileCrc_error h) fun _ => .pure _
  | _ => exact .fail trivial

theorem fetchSst_reads (id : ObjectPath) : Reads StoreError.OfRead (fetchSst cx id) := by
  refine .bind (.act _) fun x => ?_
  cases x with
  | some f => exact .pure _
  | none =>
    exact .bind (readSst_reads cx id) fun f => .bind (.act _) fun _ => .pure _

theorem retryOnceNotFound_reads {E : StoreError → Prop} {α : Type} {op : Io α} (h : Reads E op) :
    Reads E (retryOnceNotFound op) := by
  refine .attemptBind h (fun _ => .pure _) fun e he => ?_
  simp only
  split
  · exact .bind (.act _) fun _ => h
  · exact .fail he

theorem lookupFiles_reads (key : Key) (ms : List SstMeta) :
    Reads StoreError.OfRead (lookupFiles cx key ms) := by
  induction ms with
  | nil => exact .pure _
  | cons m ms ih =>
    rw [lookupFiles]
    split
    · exact ih
    · refine .bind (fetchSst_reads cx _) fun f =>
        .bind (.ofRes fun _ h => SstFile.getOption_error h) fun hit => ?_
      cases hit with
      | some hit => exact resolveHit_reads cx hit
      | none => exact ih

theorem getBytes_reads (key : Key) : Reads StoreError.OfRead (getBytes cx key) := by
  refine retryOnceNotFound_reads (.bind (.act _) fun staged => ?_)
  cases staged with
  | some hit => exact resolveHit_reads cx hit
  | none => exact .bind (loadManifest_reads cx true) fun x => lookupFiles_reads cx key _

end OxKv
