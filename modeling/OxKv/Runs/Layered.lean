import OxKv.Lib.Extend
import OxKv.Proc.Scan
import OxKv.Engine.Tx

/-!
Reads over any MemTable and any listed files.

`Layered` is what a handle reads from: a MemTable of plain values, and a list of SST
files whose entries are values or pointers to blobs. In a state that `Serves` it, whatever
the caches hold of it, every lone read without storage faults answers from the map that
the layers make up.

* `getBytes_gives`, `getsBytes_gives`: reads of the store;
* `txGetBytes_gives`, `txGetsBytes_gives`: reads below the overlay of a transaction.
-/

namespace OxKv

open Layers

/-- A MemTable over listed files. -/
structure Layered (cr : Crates) where
  mem : MemMap
  /-- oldest first, as a manifest lists them -/
  files : List SstMeta
  table : Tables
  /-- the value that a raw entry stands for -/
  value : Bytes → Bytes
  bounds : TrueBounds table files
  plainMem : ∀ k v, mem.get? k = some (some v) → tryDecodeBlobPointer cr v = none
  plainValue : ∀ v, tryDecodeBlobPointer cr v = none → value v = v

namespace Layered

variable {cr : Crates} (x : Layered cr)

/-- The newest entry of a key. -/
def hit (k : Key) : Option (Option Bytes) := (x.mem.get? k).or (view x.table x.files k)

def contents : Plain :=
  (mergeAll (x.mem.toList :: fileRows x.table x.files)).filterMap fun _ raw => raw.map x.value

theorem get?_contents (k : Key) : x.contents.get? k = (x.hit k).bind (Option.map x.value) := by
  rw [contents, SortedMap.get?_filterMap, get?_mergeAll, firstHit_cons]
  rfl

/-- A plain entry stands for itself. -/
theorem value_plain {k : Key} {m : MemMap} {raw : Option Bytes}
    (hm : ∀ v, m.get? k = some (some v) → tryDecodeBlobPointer cr v = none)
    (h : m.get? k = some raw) : raw.map x.value = raw := by
  cases raw with
  | none => rfl
  | some v => exact congrArg some (x.plainValue v (hm v h))

/-- The blob of a pointer holds the value. -/
def Stored (w : World) (raw : Bytes) : Prop :=
  ∀ ptr, tryDecodeBlobPointer cr raw = some ptr →
    (∃ e, w.st.lookup ptr.blob = some (.bytes (x.value raw), e)) ∧
      (x.value raw).length = ptr.len ∧ cr.crc32 (x.value raw) = ptr.crc

/-- A state in which the handle reads these layers. -/
structure Serves (i : Nat) (w : World) : Prop where
  mem : (w.inst i).mem = x.mem
  stored : ∀ o e, w.st.lookup .manifest = some (o, e) → ∃ m, o = .manifest m ∧ m.sst = x.files
  fresh : w.st.lookup .manifest = none → x.files = []
  cached : ∀ m e, (w.inst i).cache = some (m, e) → m.sst = x.files
  file : ∀ f ∈ x.files, ∃ s e, w.st.lookup f.id = some (.sst s, e) ∧
    s.Holds cr.crc32 (x.table f.id)
  sstCached : ∀ f ∈ x.files, ∀ s, (w.inst i).sstCache f.id = some s →
    s.Holds cr.crc32 (x.table f.id)
  blob : ∀ f ∈ x.files, ∀ k raw, (x.table f.id).get? k = some (some raw) → x.Stored w raw

/-- A raw entry that can be resolved. -/
def Readable (raw : Option Bytes) : Prop :=
  ∀ v, raw = some v → tryDecodeBlobPointer cr v = none ∨
    ∃ f ∈ x.files, ∃ k, (x.table f.id).get? k = some (some v)

/-- Lone runs of a procedure over the layers return a value with the property. -/
def Gives {α : Type} (who : Who) (p : Io α) (P : α → Prop) : Prop :=
  engine.Returns (fun c => c.fault = none) (x.Serves who.inst) who p fun r => ∃ a, r = .ok a ∧ P a

end Layered

namespace Layered.Gives

variable {cr : Crates} {x : Layered cr} {who : Who} {α β : Type}

variable {P : α → Prop}

theorem ret {r : Res α} {a : α} (hr : r = .ok a) (h : P a) : x.Gives who (Prog.ret r) P :=
  Machine.Returns.ret ⟨a, hr, h⟩

theorem pure {a : α} (h : P a) : x.Gives who (Pure.pure a) P := ret rfl h

theorem mono {p : Io α} {Q : α → Prop} (h : x.Gives who p P) (hPQ : ∀ a, P a → Q a) :
    x.Gives who p Q := by
  intro o w ho hw
  obtain ⟨r, o', w', hrun, ho', hw', a, rfl, ha⟩ := h o w ho hw
  exact ⟨.ok a, o', w', hrun, ho', hw', a, rfl, hPQ a ha⟩

theorem bind {p : Io α} {f : α → Io β} {Q : β → Prop} (hp : x.Gives who p P)
    (hf : ∀ a, P a → x.Gives who (f a) Q) : x.Gives who (p >>= f) Q := by
  refine Machine.Returns.bind hp ?_
  rintro r ⟨a, rfl, ha⟩
  exact hf a ha

/-- Look at the outcome of a storage call and go on. -/
theorem callBind {a : Act (Res α)} {f : Res α → Io β} {P : Res α → Prop} {Q : β → Prop}
    (h : ∀ c w, c.fault = none → x.Serves who.inst w → ∃ r t, exec who c a w = some (r, t) ∧
      x.Serves who.inst t ∧ P r)
    (hf : ∀ r, P r → x.Gives who (f r) Q) : x.Gives who (Io.attempt (Io.call a) >>= f) Q := by
  refine .act fun c w hc hw => ?_
  obtain ⟨r, t, hx, ht, hr⟩ := h c w hc hw
  exact ⟨r, t, hx, ht, hf r hr⟩

theorem call {a : Act (Res α)} {g : StoreError → StoreError}
    (h : ∀ c w, c.fault = none → x.Serves who.inst w → ∃ r t, exec who c a w = some (.ok r, t) ∧
      x.Serves who.inst t ∧ P r) : x.Gives who (Io.mapErr g (Io.call a)) P := by
  refine .act fun c w hc hw => ?_
  obtain ⟨r, t, hx, ht, hr⟩ := h c w hc hw
  exact ⟨.ok r, t, hx, ht, ret rfl hr⟩

/-- A procedure that is tried again when something was not found. -/
theorem retryOnce {p : Io α} (h : x.Gives who p P) : x.Gives who (retryOnceNotFound p) P := by
  refine bind (P := fun r => ∃ a, r = .ok a ∧ P a) (Machine.Returns.bind h ?_) ?_
  · exact fun r hr => Machine.Returns.ret ⟨r, rfl, hr⟩
  · rintro r ⟨a, rfl, ha⟩
    exact pure ha

theorem act {a : Act α} (h : ∀ c w, x.Serves who.inst w → ∃ r t, exec who c a w = some (r, t) ∧
      x.Serves who.inst t ∧ P r) : x.Gives who (Io.act a) P := by
  refine Machine.Returns.act fun c w _ hw => ?_
  obtain ⟨r, t, hx, ht, hr⟩ := h c w hw
  exact ⟨r, t, hx, ht, ret rfl hr⟩

end Layered.Gives

namespace Layered.Serves

variable {cr : Crates} {x : Layered cr} {i : Nat} {w : World}

theorem log (h : x.Serves i w) (who : Who) (e : What) : x.Serves i (w.log who e) :=
  ⟨h.mem, h.stored, h.fresh, h.cached, h.file, h.sstCached, h.blob⟩

theorem polled (h : x.Serves i w) (who : Who) (p : ObjectPath) :
    x.Serves i (if p = .manifest then w.log who .polled else w) := by
  split
  · exact h.log who .polled
  · exact h

theorem caches (h : x.Serves i w) {cache : Option (Manifest × Etag)}
    {sstCache : ObjectPath → Option SstFile}
    (hcache : ∀ m e, cache = some (m, e) → m.sst = x.files)
    (hsst : ∀ f ∈ x.files, ∀ s, sstCache f.id = some s → s.Holds cr.crc32 (x.table f.id)) :
    x.Serves i (w.setInst i { w.inst i with cache := cache, sstCache := sstCache }) := by
  constructor
  case stored => exact h.stored
  case fresh => exact h.fresh
  case file => exact h.file
  case blob => exact h.blob
  all_goals rw [World.setInst_inst_self]
  · exact h.mem
  · exact hcache
  · exact hsst

theorem get (h : x.Serves i w) : match w.st.get .manifest with
    | .ok y => ∃ m, y.1 = .manifest m ∧ m.sst = x.files
    | .error e => saysNotFound e.text = true ∧ x.files = [] := by
  unfold Storage.get
  cases hl : w.st.lookup .manifest with
  | none => exact ⟨saysNotFound_missing _, h.fresh hl⟩
  | some y => exact h.stored y.1 y.2 hl

theorem getOpts (h : x.Serves i w) (etag : Etag) : match w.st.getOpts .manifest etag with
    | .ok y => ∃ m, y.1 = .manifest m ∧ m.sst = x.files
    | .error e => e = .notModified ∨ saysNotFound e.text = true ∧ x.files = [] := by
  have hget := h.get
  unfold Storage.getOpts
  cases hg : w.st.get .manifest with
  | error err =>
    rw [hg] at hget
    exact .inr hget
  | ok y =>
    rw [hg] at hget
    obtain ⟨o, e⟩ := y
    by_cases he : e = etag
    · simp [he]
    · simpa [he] using hget

end Layered.Serves

/-- The overlay has no blob pointers. -/
def Tx.PlainOverlay (cr : Crates) (tx : Tx) : Prop :=
  ∀ k v, tx.overlay.get? k = some (some v) → tryDecodeBlobPointer cr v = none

section Reads

variable {cx : Ctx} {x : Layered cx.crates} {who : Who}

namespace Layered

/-! ## The manifest -/

variable {m : Manifest}

theorem cacheUpdate_gives (hm : m.sst = x.files) (e : Etag) :
    x.Gives who (Io.act (.cacheUpdate m e)) fun _ => True := by
  refine .act fun c w hw => ⟨_, _, rfl, hw.caches ?_ hw.sstCached, trivial⟩
  rintro m' e' ⟨⟩
  exact hm

theorem adopt_gives (hm : m.sst = x.files) (e : Etag) :
    x.Gives who (do Io.act (.cacheUpdate m e); return (m, e)) fun r => r.1.sst = x.files :=
  (cacheUpdate_gives hm e).bind fun _ _ => .pure hm

theorem readManifest_gives : x.Gives who readManifest fun r => match r with
    | some y => y.1.sst = x.files
    | none => x.files = [] := by
  refine .callBind (P := fun r => match r with
    | .ok y => ∃ m, y.1 = .manifest m ∧ m.sst = x.files
    | .error e => saysNotFound e.text = true ∧ x.files = []) ?_ ?_
  · intro c w hc hw
    refine ⟨w.st.get .manifest, w.log who .polled, ?_, hw.log _ _, hw.get⟩
    simp [exec, hc]
  · rintro (e | ⟨o, e⟩) hr
    · show x.Gives who (if saysNotFound e.text then _ else _) _
      rw [if_pos hr.1]
      exact .pure hr.2
    · obtain ⟨m, rfl, hm⟩ := hr
      exact .pure hm

theorem loadManifest_gives : x.Gives who (loadManifest cx true) fun r => r.1.sst = x.files := by
  refine .bind (P := fun r => ∀ m e, r.1 = some (m, e) → m.sst = x.files) ?_ ?_
  · refine .act fun c w hw => ⟨_, _, rfl, hw, fun m e h => ?_⟩
    split at h
    · exact hw.cached m e h
    · cases h
  · rintro ⟨_ | ⟨m, e⟩, skip⟩ hr
    · refine readManifest_gives.bind fun r hr => ?_
      cases r with
      | none => exact adopt_gives hr.symm _
      | some y => exact adopt_gives hr _
    · have hm : m.sst = x.files := hr m e rfl
      cases skip with
      | true => exact .pure hm
      | false =>
        refine .callBind (P := fun r => match r with
          | .ok y => ∃ m, y.1 = .manifest m ∧ m.sst = x.files
          | .error e => e = .notModified ∨ saysNotFound e.text = true ∧ x.files = []) ?_ ?_
        · intro c w hc hw
          refine ⟨w.st.getOpts .manifest e, w.log who .polled, ?_, hw.log _ _, ?_⟩
          · simp [exec, hc]
          · exact hw.getOpts e
        · rintro (err | ⟨o, e'⟩) hr
          · rcases hr with rfl | ⟨hmissing, hnil⟩
            · exact .pure hm
            · cases err with
              | notModified => exact .pure hm
              | _ =>
                show x.Gives who (if saysNotFound _ then _ else _) _
                rw [if_pos hmissing]
                exact adopt_gives hnil.symm _
          · obtain ⟨m', rfl, hm'⟩ := hr
            exact adopt_gives hm' e'

/-! ## Files and values -/

theorem exec_get {c : Choice} {w : World} {p : ObjectPath} {y : Obj × Etag} (hc : c.fault = none)
    (hl : w.st.lookup p = some y) : exec who c (.get p) w =
      some (.ok y, if p = .manifest then w.log who .polled else w) := by
  have hst : (if p = .manifest then w.log who .polled else w).st = w.st := by split <;> rfl
  simp [exec, hc, hst, Storage.get, hl]

variable {f : SstMeta}

theorem readSst_gives (hf : f ∈ x.files) :
    x.Gives who (readSst cx f.id) fun s => s.Holds cx.crates.crc32 (x.table f.id) := by
  refine .bind (P := fun y => ∃ s, y.1 = .sst s ∧ s.Holds cx.crates.crc32 (x.table f.id))
    (.call fun c w hc hw => ?_) ?_
  · obtain ⟨s, e, hl, hs⟩ := hw.file f hf
    exact ⟨(.sst s, e), _, exec_get hc hl, hw.polled who f.id, s, rfl, hs⟩
  · rintro ⟨o, e⟩ ⟨s, rfl, hs⟩
    refine .bind (.ret hs.parse rfl) ?_
    rintro _ rfl
    exact .bind (.ret hs.crc rfl) fun _ _ => .pure hs

theorem fetchSst_gives (hf : f ∈ x.files) :
    x.Gives who (fetchSst cx f.id) fun s => s.Holds cx.crates.crc32 (x.table f.id) := by
  refine .bind (P := fun r => ∀ s, r = some s → s.Holds cx.crates.crc32 (x.table f.id)) ?_ ?_
  · refine .act fun c w hw => ⟨_, _, rfl, hw, fun s h => ?_⟩
    split at h
    · exact hw.sstCached f hf s h
    · cases h
  · rintro (_ | s) hr
    · refine (readSst_gives hf).bind fun s hs => ?_
      refine .bind (P := fun _ => True) (.act fun c w hw => ⟨_, _, rfl, ?_, trivial⟩)
        fun _ _ => .pure hs
      refine hw.caches hw.cached fun f' hf' s' hs' => ?_
      by_cases hp : f'.id = f.id
      · rw [hp, Function.update_self] at hs'
        cases hs'
        rw [hp]
        exact hs
      · rw [Function.update_of_ne hp] at hs'
        exact hw.sstCached f' hf' s' hs'
    · exact .pure (hr s rfl)

theorem getBlob_gives {p : ObjectPath} {b : Bytes}
    (h : ∀ w, x.Serves who.inst w → ∃ e, w.st.lookup p = some (.bytes b, e)) :
    x.Gives who (getBlob p) (· = b) := by
  refine .bind (P := fun y => y.1 = .bytes b) (.call fun c w hc hw => ?_) ?_
  · obtain ⟨e, hl⟩ := h w hw
    exact ⟨(.bytes b, e), _, exec_get hc hl, hw.polled who p, rfl⟩
  · rintro ⟨o, e⟩ ho
    cases ho
    exact .pure rfl

theorem resolveValue_gives {v : Bytes} (h : x.Readable (some v)) :
    x.Gives who (resolveValue cx v) (· = x.value v) := by
  unfold resolveValue
  cases hd : tryDecodeBlobPointer cx.crates v with
  | none => exact .pure (x.plainValue v hd).symm
  | some ptr =>
    obtain ⟨f, hf, k, hget⟩ := (h v rfl).resolve_left (by rw [hd]; nofun)
    -- the length and the checksum were written with the blob
    intro o w ho hw
    obtain ⟨-, hlen, hcrc⟩ := hw.blob f hf k v hget ptr hd
    have hgives : x.Gives who (do
        let bytes ← getBlob ptr.blob
        if bytes.length ≠ ptr.len then
          Io.fail (.storage ("blob len mismatch for " ++ ptr.blob.name ++ ": expected " ++
            toString ptr.len ++ ", got " ++ toString bytes.length))
        else if cx.crates.crc32 bytes ≠ ptr.crc then
          Io.fail (.storage ("blob crc mismatch for " ++ ptr.blob.name ++ ": expected " ++
            toString ptr.crc ++ ", got " ++ toString (cx.crates.crc32 bytes)))
        else return bytes) (· = x.value v) := by
      refine (getBlob_gives fun w hw => (hw.blob f hf k v hget ptr hd).1).bind ?_
      rintro _ rfl
      rw [if_neg (not_not_intro hlen), if_neg (not_not_intro hcrc)]
      exact .pure rfl
    exact hgives o w ho hw

theorem resolveHit_gives {raw : Option Bytes} (h : x.Readable raw) :
    x.Gives who (resolveHit cx raw) (· = raw.map x.value) := by
  cases raw with
  | none => exact .pure rfl
  | some v =>
    refine (resolveValue_gives h).bind ?_
    rintro _ rfl
    exact .pure rfl

theorem resolveRows_gives {rows : List KeyValue} (h : ∀ kv ∈ rows, x.Readable (some kv.2)) :
    x.Gives who (resolveRows cx rows) (· = rows.map fun kv => (kv.1, x.value kv.2)) := by
  induction rows with
  | nil => exact .pure rfl
  | cons kv rows ih =>
    refine (resolveValue_gives (h kv (by simp))).bind ?_
    rintro _ rfl
    refine (ih fun kv hkv => h kv (by simp [hkv])).bind ?_
    rintro _ rfl
    exact .pure rfl

def resolved (x : Layered cx.crates) (rows : List Op) : List Op :=
  rows.map fun op => (op.1, op.2.map x.value)

theorem resolveOps_gives {rows : List Op} (h : ∀ op ∈ rows, x.Readable op.2) :
    x.Gives who (resolveOps cx rows) (· = x.resolved rows) := by
  induction rows with
  | nil => exact .pure rfl
  | cons op rows ih =>
    refine (resolveHit_gives (h op (by simp))).bind ?_
    rintro _ rfl
    refine (ih fun op hop => h op (by simp [hop])).bind ?_
    rintro _ rfl
    exact .pure rfl

theorem readable_table (hf : f ∈ x.files) {op : Op} (hop : op ∈ (x.table f.id).toList) :
    x.Readable op.2 := by
  intro v hv
  refine .inr ⟨f, hf, op.1, ?_⟩
  rw [← hv]
  exact ((x.table f.id).mem_toList op.1 op.2).mp hop

variable {ms : List SstMeta}

theorem fetchFiles_gives (hms : ∀ f ∈ ms, f ∈ x.files) :
    x.Gives who (fetchFiles cx ms)
      (List.Forall₂ (fun f s => SstFile.Holds cx.crates.crc32 s (x.table f.id)) ms) := by
  induction ms with
  | nil => exact .pure .nil
  | cons f ms ih =>
    refine (fetchSst_gives (hms f (by simp))).bind fun s hs => ?_
    refine (ih fun f hf => hms f (by simp [hf])).bind fun files hfiles => ?_
    exact .pure (.cons hs hfiles)

theorem readSources_gives (hms : ∀ f ∈ ms, f ∈ x.files) (start stop : Option Key) :
    x.Gives who (readSources cx start stop ms) (· = ms.map fun f =>
      x.resolved ((x.table f.id).toList.filter fun op => inRange start stop op.1)) := by
  induction ms with
  | nil => exact .pure rfl
  | cons f ms ih =>
    have hf := hms f (by simp)
    refine (readSst_gives hf).bind fun s hs => ?_
    refine .bind (.ret (hs.scan start stop) rfl) ?_
    rintro _ rfl
    refine (resolveOps_gives fun op hop => ?_).bind ?_
    · exact readable_table hf (List.mem_filter.mp hop).1
    rintro _ rfl
    refine (ih fun f hf => hms f (by simp [hf])).bind ?_
    rintro _ rfl
    exact .pure rfl

/-! ## Point reads -/

theorem lookupFiles_gives (key : Key) (hms : ∀ f ∈ ms, f ∈ x.files) :
    x.Gives who (lookupFiles cx key ms)
      (· = (view x.table ms.reverse key).bind (Option.map x.value)) := by
  induction ms with
  | nil => exact .pure rfl
  | cons f ms ih =>
    have hf := hms f (by simp)
    have ih := ih fun f hf => hms f (by simp [hf])
    rw [List.reverse_cons, view_append_singleton]
    unfold lookupFiles
    split
    · rename_i hout
      rw [x.bounds.outside hf hout, Option.none_or]
      exact ih
    · refine (fetchSst_gives hf).bind fun s hs => ?_
      refine .bind (.ret (hs.get key) rfl) ?_
      rintro _ rfl
      cases hget : (x.table f.id).get? key with
      | none => exact ih
      | some raw =>
        exact resolveHit_gives
          (readable_table hf (((x.table f.id).mem_toList key raw).mpr hget))

theorem getBytes_gives (key : Key) :
    x.Gives who (getBytes cx key) (· = x.contents.get? key) := by
  rw [x.get?_contents]
  refine .retryOnce (.bind (P := (· = x.mem.get? key)) (.act fun c w hw => ?_) ?_)
  · exact ⟨_, _, rfl, hw, congrArg (·.get? key) hw.mem⟩
  · rintro _ rfl
    unfold hit
    cases hget : x.mem.get? key with
    | some raw =>
      refine resolveHit_gives fun v hv => .inl ?_
      subst hv
      exact x.plainMem key v hget
    | none =>
      refine loadManifest_gives.bind ?_
      rintro ⟨m, e⟩ hm
      have hm : m.sst = x.files := hm
      have hfiles : ∀ f ∈ m.sst.reverse, f ∈ x.files := fun f hf => hm ▸ List.mem_reverse.mp hf
      refine (lookupFiles_gives key hfiles).mono ?_
      rintro _ rfl
      rw [List.reverse_reverse, hm, Option.none_or]

/-! ## Scans -/

/-- A layer above the files: ascending, inside the bounds, and without pointers. -/
structure Above (cr : Crates) (d : Direction) (c : Cursor) (layer : List Op) : Prop where
  ascending : layer.Pairwise fun a b => a.1 < b.1
  bounds : ∀ op ∈ layer, inBounds d c op.1
  plain : ∀ op ∈ layer, ∀ v, op.2 = some v → tryDecodeBlobPointer cr v = none

theorem Above.filterRows {cr : Crates} {m : MemMap}
    (h : ∀ k v, m.get? k = some (some v) → tryDecodeBlobPointer cr v = none) (d : Direction)
    (c : Cursor) : Above cr d c (filterRows m d c) := by
  have hplain : ∀ op ∈ m.toList, ∀ v, op.2 = some v → tryDecodeBlobPointer cr v = none :=
    fun op hop v hv => h op.1 v (hv ▸ (m.mem_toList op.1 op.2).mp hop)
  cases d with
  | next =>
    exact ⟨m.ascending.filter _, fun op hop => (List.mem_filter.mp hop).2,
      fun op hop => hplain op (List.mem_filter.mp hop).1⟩
  | prev =>
    exact ⟨m.ascending.filter _, fun op hop => (List.mem_filter.mp hop).2,
      fun op hop => hplain op (List.mem_filter.mp hop).1⟩

variable {d : Direction} {c : Cursor} {limit : Option Nat} {layers : List (List Op)}

theorem Above.resolved {l : List Op} (h : Above cx.crates d c l) (x : Layered cx.crates) :
    x.resolved l = l := by
  refine (List.map_congr_left fun op hop => ?_).trans (List.map_id l)
  obtain ⟨k, raw⟩ := op
  cases raw with
  | none => rfl
  | some v => exact congrArg (fun v => (k, some v)) (x.plainValue v (h.plain _ hop v rfl))

/-- The layers and the rows of the files. -/
def sources (x : Layered cx.crates) (layers : List (List Op)) (d : Direction) (c : Cursor) :
    List (List Op) :=
  layers ++ (scanFiles x.files d c).map fun f =>
    (x.table f.id).toList.filter fun op => inBounds d c op.1

section Sources

variable (h : ∀ l ∈ layers, Above cx.crates d c l)
include h

theorem sources_ascending : Ascending (x.sources layers d c) := by
  intro l hl
  rcases List.mem_append.mp hl with hl | hl
  · exact (h l hl).ascending
  · obtain ⟨f, -, rfl⟩ := List.mem_map.mp hl
    exact (x.table f.id).ascending.filter _

theorem sources_bounds {l : List Op} (hl : l ∈ x.sources layers d c) {op : Op} (hop : op ∈ l) :
    inBounds d c op.1 := by
  rcases List.mem_append.mp hl with hl | hl
  · exact (h l hl).bounds op hop
  · obtain ⟨f, -, rfl⟩ := List.mem_map.mp hl
    exact (List.mem_filter.mp hop).2

theorem sources_readable {l : List Op} (hl : l ∈ x.sources layers d c) {op : Op} (hop : op ∈ l) :
    x.Readable op.2 := by
  rcases List.mem_append.mp hl with hl | hl
  · exact fun v hv => .inl ((h l hl).plain op hop v hv)
  · obtain ⟨f, hf, rfl⟩ := List.mem_map.mp hl
    exact readable_table (mem_scanFiles hf) (List.mem_filter.mp hop).1

/-- The rows of the merge come from a source. -/
theorem mem_of_mergeSources {kv : KeyValue} (hkv : kv ∈ mergeSources (x.sources layers d c)) :
    inBounds d c kv.1 ∧ x.Readable (some kv.2) := by
  obtain ⟨l, hl, hlook⟩ := List.exists_of_findSome?_eq_some (mem_mergeSources.mp hkv)
  have hop := SortedMap.mem_of_lookup hlook
  exact ⟨sources_bounds h hl hop, sources_readable h hl hop⟩

/-- Resolving the layers with the files changes only the files. -/
theorem sources_resolved : (x.sources layers d c).map x.resolved =
    layers ++ (scanFiles x.files d c).map fun f =>
      x.resolved ((x.table f.id).toList.filter fun op => inBounds d c op.1) := by
  rw [sources, List.map_append, List.map_map]
  congr 1
  exact (List.map_congr_left fun l hl => (h l hl).resolved x).trans (List.map_id layers)

end Sources

theorem firstHit_resolved (W : List (List Op)) (k : Key) :
    firstHit (W.map x.resolved) k = (firstHit W k).map (Option.map x.value) := by
  have hrows : List.Forall₂ (List.Forall₂ fun a b => a.1 = b.1 ∧ b.2 = a.2.map x.value) W
      (W.map x.resolved) := by
    rw [List.forall₂_map_right_iff]
    refine List.forall₂_same.mpr fun l _ => ?_
    unfold resolved
    rw [List.forall₂_map_right_iff]
    exact List.forall₂_same.mpr fun op _ => ⟨rfl, rfl⟩
  have hrel := firstHit_rel (R := fun a b => b = Option.map x.value a) hrows k
  generalize firstHit W k = a at hrel ⊢
  generalize firstHit (W.map x.resolved) k = b at hrel ⊢
  cases hrel with
  | none => rfl
  | some h => exact congrArg some h

/-- The map that sources make up. -/
def merged (x : Layered cx.crates) (W : List (List Op)) : Plain :=
  (mergeAll W).filterMap fun _ raw => raw.map x.value

theorem get?_merged (W : List (List Op)) (k : Key) :
    (x.merged W).get? k = (firstHit W k).bind (Option.map x.value) := by
  rw [merged, SortedMap.get?_filterMap, get?_mergeAll]

theorem merged_toList (W : List (List Op)) :
    (x.merged W).toList = (mergeSources W).map fun kv => (kv.1, x.value kv.2) := by
  unfold mergeSources liveRows
  rw [List.map_filterMap]
  refine List.filterMap_congr fun op _ => ?_
  cases op.2 <;> rfl

/-- Sources that were resolved before the merge. -/
theorem merged_resolved (W : List (List Op)) :
    x.merged W = liveMap (mergeAll (W.map x.resolved)) := by
  refine SortedMap.ext_get fun k => ?_
  rw [get?_merged, get?_liveMap, get?_mergeAll, firstHit_resolved]
  cases firstHit W k <;> rfl

theorem scanManifest_gives (hm : m.sst = x.files) (h : ∀ l ∈ layers, Above cx.crates d c l) :
    x.Gives who (scanManifest cx m layers limit d c)
      (· = (x.merged (x.sources layers d c)).gets limit d c) := by
  have hfiles : ∀ f ∈ scanFiles m.sst d c, f ∈ x.files := fun f hf => hm ▸ mem_scanFiles hf
  cases d with
  | next =>
    refine (fetchFiles_gives hfiles).bind fun files hholds => ?_
    have hitems : layers.map (fun l => l.map .ok) ++ files.map (fun f =>
          f.scanIter cx.crates.crc32 (scanBounds .next c).1 (scanBounds .next c).2) =
        (x.sources layers .next c).map fun l => l.map .ok := by
      rw [sources, List.map_append, List.map_map, ← hm]
      congr 1
      rw [← List.forall₂_eq_eq_eq, List.forall₂_map_left_iff, List.forall₂_map_right_iff]
      exact .flip (hholds.imp fun f s hs => hs.iter _ _)
    have hmerge := pullMergeNext_eq _ (sources_ascending (x := x) h) limit
    rw [← hitems] at hmerge
    refine .bind (.ret hmerge rfl) ?_
    rintro _ rfl
    refine (resolveRows_gives fun kv hkv => ?_).mono ?_
    · exact (mem_of_mergeSources h (mem_of_mem_cut hkv)).2
    · rintro _ rfl
      have hall : (x.merged (x.sources layers .next c)).toList.filter
          (fun kv => inRange c.1 c.2 kv.1) = (x.merged (x.sources layers .next c)).toList := by
        refine List.filter_eq_self.mpr fun kv hkv => ?_
        rw [merged_toList] at hkv
        obtain ⟨kv', hkv', rfl⟩ := List.mem_map.mp hkv
        exact (mem_of_mergeSources h hkv').1
      show _ = cut limit ((x.merged (x.sources layers .next c)).toList.filter
        fun kv => inRange c.1 c.2 kv.1)
      rw [hall, merged_toList]
      cases limit with
      | none => rfl
      | some n => exact List.map_take
  | prev =>
    obtain ⟨start, stop⟩ := c
    cases start with
    | none => exact .pure rfl
    | some start =>
      refine (readSources_gives hfiles _ _).bind ?_
      rintro _ rfl
      refine .pure ?_
      rw [merged_resolved, sources_resolved h, ← hm]
      rfl

/-- A scan over layers above the files that decide like a map. -/
theorem rangeLookup_gives (h : ∀ l ∈ layers, Above cx.crates d c l) {m : Plain}
    (hm : ∀ k, inBounds d c k → m.get? k =
      ((firstHit layers k).or (view x.table x.files k)).bind (Option.map x.value)) :
    x.Gives who (rangeLookup cx layers limit d c) (· = m.gets limit d c) := by
  refine loadManifest_gives.bind ?_
  rintro ⟨mf, e⟩ hmf
  refine (scanManifest_gives hmf h).mono ?_
  rintro _ rfl
  refine Plain.gets_congr fun k hk => ?_
  rw [get?_merged, sources, firstHit_append, x.bounds.firstHit_scanFiles hk, hm k hk]

theorem memRows_gives : x.Gives who (Io.act (.memRows d c)) (· = filterRows x.mem d c) :=
  .act fun _ _ hw => ⟨_, _, rfl, hw.log _ _, congrArg (filterRows · d c) hw.mem⟩

variable {tx : Tx}

theorem txGetsBytes_gives (htx : tx.PlainOverlay cx.crates) :
    x.Gives who (txGetsBytes cx tx limit d c)
      (· = (x.contents.applyAll tx.overlay.toList).gets limit d c) := by
  refine .retryOnce (memRows_gives.bind ?_)
  rintro _ rfl
  refine rangeLookup_gives (fun l hl => ?_) fun k hk => ?_
  · simp only [List.mem_cons, List.not_mem_nil, or_false] at hl
    rcases hl with rfl | rfl
    · exact .filterRows htx d c
    · exact .filterRows x.plainMem d c
  · rw [Plain.get?_applyAll_toList, x.get?_contents, firstHit_cons, firstHit_cons, firstHit_nil,
      lookup_filterRows _ hk, lookup_filterRows _ hk, Option.or_none, Option.or_assoc]
    cases hget : tx.overlay.get? k with
    | none => rfl
    | some raw => exact (x.value_plain (htx k) hget).symm

theorem txGetBytes_gives (htx : tx.PlainOverlay cx.crates) (key : Key) :
    x.Gives who (txGetBytes cx tx key) (· = (x.contents.applyAll tx.overlay.toList).get? key) := by
  rw [Plain.get?_applyAll_toList]
  unfold txGetBytes
  cases hget : tx.overlay.get? key with
  | none => exact getBytes_gives key
  | some raw =>
    refine (resolveHit_gives fun v hv => .inl ?_).mono ?_
    · subst hv
      exact htx key v hget
    · rintro _ rfl
      exact x.value_plain (htx key) hget

theorem txHas_gives (htx : tx.PlainOverlay cx.crates) (key : Key) : x.Gives who (txHas cx tx key)
      (· = ((x.contents.applyAll tx.overlay.toList).get? key).isSome) := by
  refine (txGetBytes_gives htx key).bind ?_
  rintro _ rfl
  exact .pure rfl

end Layered

end Reads

end OxKv
