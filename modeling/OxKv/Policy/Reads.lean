import OxKv.Engine.Silent
import OxKv.Policy.Clean

/-!
The reading procedures of the engine return allowed pairs only, whatever else happens to
the world between two of their actions.

* `Policy.Keeps`: the judgement, with a rule for each way to build a procedure;
* `getBytes_keeps`, `getsBytes_keeps`: the reads of a store.
-/

namespace OxKv

namespace Policy

variable {cr : Crates} {P : Policy cr} {who : Who} {α β : Type}

/-- The procedure keeps a clean world clean, and a success is in `Q`. -/
def Keeps (P : Policy cr) (who : Who) (p : Io α) (Q : α → Prop) : Prop :=
  engine.Keeps P.Clean who p fun r => ∀ a, r = .ok a → Q a

namespace Keeps

variable {Q : α → Prop}

theorem ofRes {r : Res α} (h : ∀ a, r = .ok a → Q a) : P.Keeps who (Io.ofRes r) Q :=
  h

theorem pure {a : α} (h : Q a) : P.Keeps who (Pure.pure a) Q :=
  ofRes fun _ ha => Except.ok.inj ha ▸ h

theorem fail (e : StoreError) : P.Keeps who (Io.fail e) Q :=
  ofRes nofun

variable {p : Io α}

theorem mono {Q' : α → Prop} (h : P.Keeps who p Q) (hQ : ∀ a, Q a → Q' a) : P.Keeps who p Q' :=
  Machine.Keeps.mono h fun _ hr a ha => hQ a (hr a ha)

theorem act {a : Act α} (ha : P.Takes a) : P.Keeps who (Io.act a) (P.Gives a) := by
  intro c s r t hs hx
  obtain ⟨ht, hr⟩ := exec_clean ha hs hx
  exact ⟨ht, fun _ heq => Except.ok.inj heq ▸ hr⟩

theorem call {a : Act (Res α)} (ha : P.Takes a) :
    P.Keeps who (Io.call a) fun x => P.Gives a (.ok x) := by
  intro c s r t hs hx
  obtain ⟨ht, hr⟩ := exec_clean ha hs hx
  refine ⟨ht, ?_⟩
  rintro x rfl
  exact hr

theorem bind {f : α → Io β} {Q' : β → Prop} (hp : P.Keeps who p Q)
    (hf : ∀ a, Q a → P.Keeps who (f a) Q') : P.Keeps who (p >>= f) Q' := by
  refine Machine.Keeps.bind hp fun r hr => ?_
  cases r with
  | error e => exact nofun
  | ok a => exact hf a (hr a rfl)

theorem attempt (hp : P.Keeps who p Q) : P.Keeps who p.attempt fun r => ∀ a, r = .ok a → Q a :=
  Machine.Keeps.bind hp fun _ hr _ heq => Except.ok.inj heq ▸ hr

theorem mapErr {f : StoreError → StoreError} (hp : P.Keeps who p Q) :
    P.Keeps who (Io.mapErr f p) Q := by
  refine Machine.Keeps.bind hp fun r hr => ?_
  cases r with
  | error e => exact nofun
  | ok a => exact hr

/-- A procedure without an interesting result, whose actions are given allowed pairs. -/
theorem ofOnly (h : p.Only fun a => P.Takes a) : P.Keeps who p fun _ => True := by
  have hkeeps : ∀ {γ : Type} {q : Prog Act γ}, q.Only (fun a => P.Takes a) →
      engine.Keeps P.Clean who q fun _ => True := by
    intro γ q hq
    induction q with
    | ret r => trivial
    | act a k ih => exact fun c s r t hs hx => ⟨(exec_clean hq.1 hs hx).1, ih r (hq.2 r)⟩
  exact (hkeeps h).mono fun _ _ _ _ => trivial

end Keeps

/-! ## Manifest and ownership -/

theorem readManifest_keeps :
    P.Keeps who readManifest fun r => ∀ x, r = some x → x.1.LogsWals := by
  refine .bind (.attempt (.call trivial)) fun r hr => ?_
  split
  · refine .pure ?_
    rintro _ ⟨⟩
    exact hr _ rfl _ rfl
  · exact .fail _
  · split
    · exact .pure nofun
    · exact .fail _

theorem casManifest_keeps {m : Manifest} (hm : m.LogsWals) (etag : Etag) :
    P.Keeps who (casManifest m etag) fun _ => True :=
  .mapErr (.mono (.call hm) fun _ _ => trivial)

theorem loadManifest_keeps (cx : Ctx) (ttl : Bool) :
    P.Keeps who (loadManifest cx ttl) fun x => x.1.LogsWals := by
  have hadopt : ∀ m e, m.LogsWals →
      P.Keeps who (do Io.act (.cacheUpdate m e); return (m, e)) fun x => x.1.LogsWals :=
    fun m e hm => .bind (.act hm) fun _ _ => .pure hm
  have hempty : (Manifest.empty cx.epoch).LogsWals := nofun
  refine .bind (.act trivial) fun x hx => ?_
  split
  · exact .pure (hx _ _ rfl)
  · refine .bind (.attempt (.call trivial)) fun r hr => ?_
    split
    · exact hadopt _ _ (hr _ rfl _ rfl)
    · exact .fail _
    · exact .pure (hx _ _ rfl)
    · split
      · exact hadopt _ _ hempty
      · exact .fail _
  · refine .bind readManifest_keeps fun r hr => ?_
    split
    · exact hadopt _ _ (hr _ rfl)
    · exact hadopt _ _ hempty

/-! ## Values and files -/

section

variable {cx : Ctx} (hcr : cx.crates = cr)
include hcr

variable {key : Key}

/-- The bytes in a file lead to the value they stand for: a blob holds the value with its
hash. -/
theorem resolveValue_keeps {raw : Bytes} (h : P.Stands key raw) :
    P.Keeps who (resolveValue cx raw) (P.ok key) := by
  subst hcr
  obtain ⟨v, hv, rfl | ⟨e, rfl⟩⟩ := h
  · unfold resolveValue
    rw [P.plain hv]
    exact .pure hv
  · unfold resolveValue
    rw [tryDecode_encode]
    refine .bind (Q := (· = v)) (.bind (.mapErr (.call trivial)) fun x hx => ?_) ?_
    · split
      · obtain ⟨hhash, k, hk⟩ := hx _ rfl
        exact .pure (P.inj hk hv hhash)
      · exact .fail _
    · rintro _ rfl
      split
      · exact .fail _
      · split
        · exact .fail _
        · exact .pure hv

theorem resolveHit_keeps {hit : Option Bytes} (h : P.Row (key, hit)) :
    P.Keeps who (resolveHit cx hit) fun r => P.Allows (key, r) := by
  cases hit with
  | none => exact .pure (allows_none key)
  | some raw =>
    refine .bind (resolveValue_keeps hcr (h raw rfl)) fun v hv => .pure ?_
    rintro _ ⟨⟩
    exact hv

omit hcr in
theorem readSst_keeps (id : ObjectPath) : P.Keeps who (readSst cx id) P.CleanFile := by
  refine .bind (.mapErr (.call trivial)) fun x hx => ?_
  split
  · rename_i f e
    have hf : P.CleanFile f := hx _ rfl
    have hparse : ∀ g, f.parse = .ok g → P.CleanFile g := by
      rintro g hg
      have ⟨m, hm, _⟩ := hf
      cases hm.parse.symm.trans hg
      exact hf
    exact .bind (.ofRes hparse) fun g hg => .bind (.ofRes fun _ _ => trivial) fun _ _ => .pure hg
  · exact .fail _

omit hcr in
theorem fetchSst_keeps (id : ObjectPath) : P.Keeps who (fetchSst cx id) P.CleanFile := by
  refine .bind (.act trivial) fun x hx => ?_
  split
  · exact .pure (hx _ rfl)
  · exact .bind (readSst_keeps id) fun f hf => .bind (.act hf) fun _ _ => .pure hf

variable {f : SstFile}

/-- What a file answers to a point lookup. -/
theorem CleanFile.get (hf : P.CleanFile f) {hit : Option Bytes}
    (h : f.getOption cx.crates.crc32 key = .ok (some hit)) : P.Row (key, hit) := by
  subst hcr
  obtain ⟨m, hm, hrows⟩ := hf
  exact hrows _ ((m.mem_toList key hit).mpr (Except.ok.inj ((hm.get key).symm.trans h)))

/-- What it answers to a scan. -/
theorem CleanFile.scan (hf : P.CleanFile f) {start stop : Option Key} {rows : List Op}
    (h : f.scanWithTombstones cx.crates.crc32 start stop = .ok rows) : ∀ op ∈ rows, P.Row op := by
  subst hcr
  obtain ⟨m, hm, hrows⟩ := hf
  cases (hm.scan start stop).symm.trans h
  exact fun op hop => hrows op (List.mem_filter.mp hop).1

theorem CleanFile.iter (hf : P.CleanFile f) (start stop : Option Key) :
    ∃ rows : List Op, f.scanIter cx.crates.crc32 start stop = rows.map .ok ∧
      (∀ op ∈ rows, P.Row op) ∧ rows.Pairwise fun a b => a.1 < b.1 := by
  subst hcr
  obtain ⟨m, hm, hrows⟩ := hf
  exact ⟨_, hm.iter start stop, fun op hop => hrows op (List.mem_filter.mp hop).1,
    m.ascending.filter _⟩

/-! ## Point lookups -/

theorem lookupFiles_keeps (key : Key) (ms : List SstMeta) :
    P.Keeps who (lookupFiles cx key ms) fun r => P.Allows (key, r) := by
  induction ms with
  | nil => exact .pure (allows_none key)
  | cons m ms ih =>
    unfold lookupFiles
    split
    · exact ih
    · refine .bind (fetchSst_keeps m.id) fun f hf => .bind (.ofRes fun hit hhit => hhit) ?_
      intro hit hhit
      cases hit with
      | none => exact ih
      | some hit => exact resolveHit_keeps hcr (hf.get hcr hhit)

theorem pointLookup_keeps {staged : Option (Option Bytes)}
    (h : ∀ hit, staged = some hit → P.Allows (key, hit)) :
    P.Keeps who (pointLookup cx staged key) fun r => P.Allows (key, r) := by
  cases staged with
  | some hit => exact resolveHit_keeps hcr (h hit rfl).row
  | none => exact .bind (loadManifest_keeps cx true) fun x _ => lookupFiles_keeps hcr key _

omit hcr in
theorem retryOnceNotFound_keeps {p : Io α} {Q : α → Prop} (h : P.Keeps who p Q) :
    P.Keeps who (retryOnceNotFound p) Q := by
  refine .bind (.attempt h) fun r hr => ?_
  split
  · exact .pure (hr _ rfl)
  · split
    · exact .bind (.act trivial) fun _ _ => h
    · exact .fail _

theorem getBytes_keeps (key : Key) :
    P.Keeps who (getBytes cx key) fun r => P.Allows (key, r) :=
  retryOnceNotFound_keeps (.bind (.act trivial) fun _ hx => pointLookup_keeps hcr hx)

theorem has_keeps (key : Key) : P.Keeps who (has cx key) fun _ => True :=
  .bind (getBytes_keeps hcr key) fun _ _ => .pure trivial

/-! ## Scans -/

omit hcr in
theorem fetchFiles_keeps (ms : List SstMeta) :
    P.Keeps who (fetchFiles cx ms) fun fs => ∀ f ∈ fs, P.CleanFile f := by
  induction ms with
  | nil => exact .pure nofun
  | cons m ms ih =>
    refine .bind (fetchSst_keeps m.id) fun f hf => .bind ih fun fs hfs => .pure ?_
    exact List.forall_mem_cons.mpr ⟨hf, hfs⟩

theorem resolveRows_keeps {rows : List KeyValue} (h : ∀ kv ∈ rows, P.Stands kv.1 kv.2) :
    P.Keeps who (resolveRows cx rows) fun rs => ∀ kv ∈ rs, P.ok kv.1 kv.2 := by
  induction rows with
  | nil => exact .pure nofun
  | cons kv rows ih =>
    obtain ⟨hkv, hrows⟩ := List.forall_mem_cons.mp h
    refine .bind (resolveValue_keeps hcr hkv) fun v hv => .bind (ih hrows) fun rs hrs => .pure ?_
    exact List.forall_mem_cons.mpr ⟨hv, hrs⟩

theorem resolveOps_keeps {rows : List Op} (h : ∀ op ∈ rows, P.Row op) :
    P.Keeps who (resolveOps cx rows) fun rs => ∀ op ∈ rs, P.Allows op := by
  induction rows with
  | nil => exact .pure nofun
  | cons op rows ih =>
    obtain ⟨hop, hrows⟩ := List.forall_mem_cons.mp h
    refine .bind (resolveHit_keeps hcr hop) fun v hv => .bind (ih hrows) fun rs hrs => .pure ?_
    exact List.forall_mem_cons.mpr ⟨hv, hrs⟩

theorem readSources_keeps (start stop : Option Key) (ms : List SstMeta) :
    P.Keeps who (readSources cx start stop ms) fun ls => ∀ l ∈ ls, ∀ op ∈ l, P.Allows op := by
  induction ms with
  | nil => exact .pure nofun
  | cons m ms ih =>
    refine .bind (readSst_keeps m.id) fun f hf => .bind (.ofRes fun rows hrows => hrows) ?_
    intro rows hrows
    refine .bind (resolveOps_keeps hcr (hf.scan hcr hrows)) fun l hl => .bind ih fun ls hls => .pure ?_
    exact List.forall_mem_cons.mpr ⟨hl, hls⟩

omit hcr in
theorem mem_mergedGetsBytes {sources : List (List Op)} {limit : Option Nat} {d : Direction}
    {c : Cursor} {kv : KeyValue} (h : kv ∈ mergedGetsBytes sources limit d c) :
    ∃ l ∈ sources, (kv.1, some kv.2) ∈ l := by
  unfold mergedGetsBytes at h
  split at h
  · exact mem_sources_of_live (List.mem_filter.mp (mem_of_mem_cut h)).1
  · split at h
    · cases h
    · have hrow := mem_of_mem_cut h
      rw [List.mem_reverse] at hrow
      exact mem_sources_of_live (List.mem_filter.mp hrow).1

/-- The rows of a forward scan are rows of its sources. -/
theorem pullMergeNext_stands {layers : List (List Op)} {fs : List SstFile} {start stop : Option Key}
    {limit : Option Nat} {rows : List KeyValue}
    (hlayers : ∀ l ∈ layers, (∀ op ∈ l, P.Allows op) ∧ l.Pairwise fun a b => a.1 < b.1)
    (hfs : ∀ f ∈ fs, P.CleanFile f)
    (h : pullMergeNext (layers.map (fun l => l.map .ok) ++
      fs.map fun f => f.scanIter cx.crates.crc32 start stop) limit = .ok rows) :
    ∀ kv ∈ rows, P.Stands kv.1 kv.2 := by
  -- the files as lists of rows
  obtain ⟨W, hW, hrows⟩ : ∃ W : List (List Op),
      fs.map (fun f => f.scanIter cx.crates.crc32 start stop) = W.map (fun l => l.map .ok) ∧
        ∀ l ∈ W, (∀ op ∈ l, P.Row op) ∧ l.Pairwise fun a b => a.1 < b.1 := by
    clear h
    induction fs with
    | nil => exact ⟨[], rfl, nofun⟩
    | cons f fs ih =>
      obtain ⟨hf, hfs⟩ := List.forall_mem_cons.mp hfs
      obtain ⟨W, hW, hrows⟩ := ih hfs
      obtain ⟨l, hl, hrow⟩ := hf.iter hcr start stop
      refine ⟨l :: W, ?_, List.forall_mem_cons.mpr ⟨hrow, hrows⟩⟩
      rw [List.map_cons, List.map_cons, hl, hW]
  have hall : ∀ l ∈ layers ++ W, (∀ op ∈ l, P.Row op) ∧ l.Pairwise fun a b => a.1 < b.1 := by
    intro l hl
    rcases List.mem_append.mp hl with hl | hl
    · exact ⟨fun op hop => ((hlayers l hl).1 op hop).row, (hlayers l hl).2⟩
    · exact hrows l hl
  rw [hW, ← List.map_append, pullMergeNext_eq _ fun l hl => (hall l hl).2] at h
  cases h
  intro kv hkv
  obtain ⟨l, hl, hmem⟩ := mem_sources_of_live (mem_of_mem_cut hkv)
  exact (hall l hl).1 _ hmem _ rfl

theorem rangeLookup_keeps {layers : List (List Op)}
    (hlayers : ∀ l ∈ layers, (∀ op ∈ l, P.Allows op) ∧ l.Pairwise fun a b => a.1 < b.1)
    (limit : Option Nat) (d : Direction) (c : Cursor) :
    P.Keeps who (rangeLookup cx layers limit d c) fun rows => ∀ kv ∈ rows, P.ok kv.1 kv.2 := by
  refine .bind (loadManifest_keeps cx true) fun x _ => ?_
  cases d with
  | next =>
    refine .bind (fetchFiles_keeps _) fun fs hfs => .bind (.ofRes fun rows hrows => hrows) ?_
    intro rows hrows
    exact resolveRows_keeps hcr (pullMergeNext_stands hcr hlayers hfs hrows)
  | prev =>
    show P.Keeps who (if c.1.isNone then _ else _) _
    split
    · exact .pure nofun
    · refine .bind (readSources_keeps hcr _ _ _) fun ls hls => .pure fun kv hkv => ?_
      obtain ⟨l, hl, hmem⟩ := mem_mergedGetsBytes hkv
      rcases List.mem_append.mp hl with hl | hl
      · exact (hlayers l hl).1 _ hmem _ rfl
      · exact hls l hl _ hmem _ rfl

theorem getsBytes_keeps (limit : Option Nat) (d : Direction) (c : Cursor) :
    P.Keeps who (getsBytes cx limit d c) fun rows => ∀ kv ∈ rows, P.ok kv.1 kv.2 :=
  retryOnceNotFound_keeps (.bind (.act trivial) fun _ hrows =>
    rangeLookup_keeps hcr (List.forall_mem_singleton.mpr hrows) limit d c)

end

end Policy

end OxKv
