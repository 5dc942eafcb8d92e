import OxKv.Spec.Plain
import OxKv.Proc.Compact

/-!
Range scans: the rows of the layers and of the listed files, newest entry of each
key, as a plain ordered map would list them.

* `Scanned`: a scan lists the rows of an ordered map that the layers and files show;
* `scanned_next`, `scanned_prev`: the pull merge and the materialised merge;
* `getsBytes_safe`: the scan of a store.
-/

namespace OxKv

open Layers

variable {M : Mode} {who : Who} {s s' : State} {cx : Ctx} {limit : Option Nat}
  {d : Direction} {c : Cursor}

abbrev inBounds (d : Direction) (c : Cursor) (k : Key) : Bool :=
  inRange (scanBounds d c).1 (scanBounds d c).2 k

/-- The rows of an ordered map whose entries inside the bounds are shown by `hit`. -/
def Scanned (M : Mode) (ob : Objects) (hit : Key → Option (Option Bytes)) (limit : Option Nat)
    (d : Direction) (c : Cursor) (rows : List KeyValue) : Prop :=
  ∃ m : Plain, rows = m.gets limit d c ∧
    ∀ k, inBounds d c k → Shows M.strict M.cr ob (hit k) (m.get? k)

/-- A layer above the files: ascending, inside the bounds, and without pointers. -/
structure LayerOk (M : Mode) (d : Direction) (c : Cursor) (layer : List Op) : Prop where
  ascending : layer.Pairwise fun a b => a.1 < b.1
  bounds : ∀ op ∈ layer, inBounds d c op.1
  plain : ∀ op ∈ layer, M.OkOp op

theorem LayerOk.filterRows {m : MemMap} (h : ∀ op ∈ m.toList, M.OkOp op) (d : Direction)
    (c : Cursor) : LayerOk M d c (filterRows m d c) := by
  cases d with
  | next =>
    exact ⟨m.ascending.filter _, fun op hop => (List.mem_filter.mp hop).2,
      fun op hop => h op (List.mem_filter.mp hop).1⟩
  | prev =>
    exact ⟨m.ascending.filter _, fun op hop => (List.mem_filter.mp hop).2,
      fun op hop => h op (List.mem_filter.mp hop).1⟩

/-- Inside the bounds the filtered rows of a table are its rows. -/
theorem lookup_filterRows (m : MemMap) {k : Key} (hk : inBounds d c k) :
    (filterRows m d c).lookup k = m.get? k := by
  cases d with
  | next =>
    have hk : inRange c.1 c.2 k := hk
    show (m.toList.filter fun e => inRange c.1 c.2 e.1).lookup k = _
    rw [lookup_filter_keys (inRange c.1 c.2), if_pos hk]
    rfl
  | prev =>
    have hk : inRange c.2 c.1 k := hk
    show (m.toList.filter fun e => inRange c.2 c.1 e.1).lookup k = _
    rw [lookup_filter_keys (inRange c.2 c.1), if_pos hk]
    rfl

/-! ## Files of a scan -/

def scanFiles (ms : List SstMeta) (d : Direction) (c : Cursor) : List SstMeta :=
  ms.reverse.filter fun f => overlaps (scanBounds d c).1 (scanBounds d c).2 f.minKey f.maxKey

variable {ms : List SstMeta} {cont : Tables} {x : SstMeta}

/-- A file that does not overlap the bounds has no key inside them. -/
theorem TrueBounds.skipped (h : TrueBounds cont ms) (hx : x ∈ ms) {a b : Option Key}
    (hskip : overlaps a b x.minKey x.maxKey = false) {k : Key} (hk : inRange a b k) :
    (cont x.id).get? k = none := by
  refine h.outside hx ?_
  simp only [inRange, Bool.and_eq_true] at hk
  simp only [overlaps, Bool.and_eq_false_iff] at hskip
  rcases hskip with hskip | hskip
  · right
    cases a with
    | none => cases hskip
    | some a => exact lt_of_lt_of_le (not_le.mp (of_decide_eq_false hskip)) (of_decide_eq_true hk.1)
  · left
    cases b with
    | none => cases hskip
    | some b => exact lt_of_le_of_lt (of_decide_eq_true hk.2) (not_le.mp (of_decide_eq_false hskip))

/-- Inside the bounds the files of the scan decide like all files. -/
theorem TrueBounds.firstHit_scanFiles (h : TrueBounds cont ms) {k : Key} (hk : inBounds d c k) :
    firstHit ((scanFiles ms d c).map fun x => (cont x.id).toList.filter
      fun op => inBounds d c op.1) k = view cont ms k := by
  have hfilter := view_filter (c := cont) (k := k)
    (fun f => overlaps (scanBounds d c).1 (scanBounds d c).2 f.minKey f.maxKey) ms
    fun x hx hskip => h.skipped hx hskip hk
  rw [← hfilter]
  unfold view fileRows scanFiles
  rw [← List.filter_reverse]
  have hmap := firstHit_filter_keys (inBounds d c) ((ms.reverse.filter fun f =>
    overlaps (scanBounds d c).1 (scanBounds d c).2 f.minKey f.maxKey).map fun x =>
      (cont x.id).toList) k
  rw [List.map_map, if_pos hk] at hmap
  exact hmap

theorem mem_scanFiles (h : x ∈ scanFiles ms d c) : x ∈ ms :=
  List.mem_reverse.mp (List.mem_filter.mp h).1

theorem Listing.scanFiles (hl : Listing M s ms) (d : Direction) (c : Cursor) :
    Listing M s (scanFiles ms d c) :=
  ⟨fun x hx => hl.files x (mem_scanFiles hx), fun x hx => hl.bounds x (mem_scanFiles hx),
    fun hs x hx => hl.present hs x (mem_scanFiles hx)⟩

/-! ## The two merges -/

def liveMap (m : MemMap) : Plain := m.filterMap fun _ x => x

theorem liveMap_toList (m : MemMap) : (liveMap m).toList = liveRows m := rfl

theorem get?_liveMap (m : MemMap) (k : Key) : (liveMap m).get? k = (m.get? k).join := by
  rw [liveMap, SortedMap.get?_filterMap]
  rfl

/-- A relation on the first rows extends to all rows. -/
theorem forall₂_cut {α β : Type} {R : α → β → Prop} {rows : List α} {out : List β}
    (h : List.Forall₂ R (cut limit rows) out) (hex : ∀ a ∈ rows, ∃ b, R a b) :
    ∃ full, List.Forall₂ R rows full ∧ cut limit full = out := by
  cases limit with
  | none => exact ⟨out, h, rfl⟩
  | some n =>
    have hrest : ∃ rest, List.Forall₂ R (rows.drop n) rest := by
      have hex' : ∀ a ∈ rows.drop n, ∃ b, R a b := fun a ha => hex a (List.mem_of_mem_drop ha)
      generalize rows.drop n = l at hex'
      induction l with
      | nil => exact ⟨[], .nil⟩
      | cons a l ih =>
        obtain ⟨b, hb⟩ := hex' a (by simp)
        obtain ⟨rest, hr⟩ := ih fun x hx => hex' x (by simp [hx])
        exact ⟨b :: rest, .cons hb hr⟩
    obtain ⟨rest, hrest⟩ := hrest
    have h : List.Forall₂ R (rows.take n) out := h
    refine ⟨out ++ rest, ?_, ?_⟩
    · rw [← List.take_append_drop n rows]
      exact List.rel_append h hrest
    · have hlen := h.length_eq
      have hlen' := hrest.length_eq
      rw [List.length_take] at hlen
      rw [List.length_drop] at hlen'
      show (out ++ rest).take n = out
      by_cases hn : n ≤ rows.length
      · rw [← show out.length = n by omega, List.take_left']
        rfl
      · rw [List.length_eq_zero_iff.mp (show rest.length = 0 by omega), List.append_nil]
        exact List.take_of_length_le (by omega)

/-- A raw row and the row it is resolved to. -/
abbrev Reads (M : Mode) (ob : Objects) (a b : KeyValue) : Prop :=
  a.1 = b.1 ∧ Shows M.strict M.cr ob (some (some a.2)) (some b.2)

variable {rows : List KeyValue} {W : List (List Op)} {ob : Objects}

/-- The rows of a merge, the first ones as they were resolved, are those of a map. -/
theorem exists_plain (hread : ∀ k, Readable M ob (firstHit W k))
    (hrows : List.Forall₂ (Reads M ob) (cut limit (mergeSources W)) rows) :
    ∃ m : Plain, rows = cut limit m.toList ∧
      m.toList.map Prod.fst = (mergeSources W).map Prod.fst ∧
      ∀ k, Shows M.strict M.cr ob (firstHit W k) (m.get? k) := by
  obtain ⟨full, hfull, hcut⟩ := forall₂_cut hrows fun kv hkv => by
    by_cases hs : M.strict
    · obtain ⟨v, hv⟩ := hread kv.1 hs kv.2 (mem_mergeSources.mp hkv)
      exact ⟨(kv.1, v), rfl, v, rfl, fun _ => hv⟩
    · exact ⟨kv, rfl, kv.2, rfl, fun hs' => absurd hs' hs⟩
  have hkeys : (mergeSources W).map Prod.fst = full.map Prod.fst := by
    rw [← List.forall₂_eq_eq_eq, List.forall₂_map_left_iff, List.forall₂_map_right_iff]
    exact hfull.imp fun _ _ hr => hr.1
  have hasc : full.Pairwise fun a b => a.1 < b.1 := by
    have hsorted := (liveMap (mergeAll W)).ascending
    rw [liveMap_toList] at hsorted
    have hsorted := List.pairwise_map.mpr hsorted
    rw [show (liveRows (mergeAll W)).map Prod.fst = _ from hkeys] at hsorted
    exact List.pairwise_map.mp hsorted
  refine ⟨⟨full, hasc⟩, hcut.symm, hkeys.symm, fun k => ?_⟩
  have hrel := lookup_rel (R := fun raw v => Shows M.strict M.cr ob (some (some raw)) (some v))
    hfull k
  have hlook : (mergeSources W).lookup k = (firstHit W k).join := by
    rw [← get?_mergeAll, ← get?_liveMap]
    rfl
  rw [hlook] at hrel
  show Shows _ _ _ _ (full.lookup k)
  generalize full.lookup k = y at hrel ⊢
  match hhit : firstHit W k with
  | none =>
    rw [hhit] at hrel
    cases hrel
    rfl
  | some none =>
    rw [hhit] at hrel
    cases hrel
    rfl
  | some (some raw) =>
    rw [hhit] at hrel
    cases hrel with
    | some hr => exact hr

/-- The first resolved rows of a forward merge. -/
theorem scanned_next (hbounds : ∀ l ∈ W, ∀ op ∈ l, inBounds .next c op.1)
    (hread : ∀ k, Readable M ob (firstHit W k))
    (hrows : List.Forall₂ (Reads M ob) (cut limit (mergeSources W)) rows) :
    Scanned M ob (firstHit W) limit .next c rows := by
  obtain ⟨m, hm, hkeys, hshows⟩ := exists_plain hread hrows
  refine ⟨m, ?_, fun k _ => hshows k⟩
  have hall : m.toList.filter (fun kv => inRange c.1 c.2 kv.1) = m.toList := by
    refine List.filter_eq_self.mpr fun kv hkv => ?_
    have hk : kv.1 ∈ (mergeSources W).map Prod.fst := by
      rw [← hkeys]
      exact List.mem_map_of_mem hkv
    obtain ⟨kv', hkv', heq⟩ := List.mem_map.mp hk
    rw [← heq]
    obtain ⟨l, hl, hlook⟩ := List.exists_of_findSome?_eq_some (mem_mergeSources.mp hkv')
    exact hbounds l hl _ (SortedMap.mem_of_lookup hlook)
  show rows = cut limit (m.toList.filter fun kv => inRange c.1 c.2 kv.1)
  rw [hall, hm]

/-- A backward scan without a start has no rows. -/
theorem scanned_nil (hread : ∀ k, Readable M ob (firstHit W k)) (hc : c.1 = none) :
    Scanned M ob (firstHit W) limit .prev c [] := by
  have hnone : List.Forall₂ (Reads M ob) (cut (some 0) (mergeSources W)) [] := .nil
  obtain ⟨m, -, -, hshows⟩ := exists_plain hread hnone
  refine ⟨m, ?_, fun k _ => hshows k⟩
  unfold Plain.gets
  rw [hc]

/-- A backward merge of resolved sources. -/
theorem scanned_prev {hit : Key → Option (Option Bytes)} {X : List (List Op)}
    (h : ∀ k, inBounds .prev c k →
      Option.Rel (fun x y => Shows M.strict M.cr ob (some x) y) (hit k) (firstHit X k)) :
    Scanned M ob hit limit .prev c (mergedGetsBytes X limit .prev c) := by
  refine ⟨liveMap (mergeAll X), ?_, fun k hk => ?_⟩
  · obtain ⟨start, stop⟩ := c
    cases start <;> rfl
  · rw [get?_liveMap, get?_mergeAll]
    have hrel := h k hk
    generalize hit k = x at hrel ⊢
    generalize firstHit X k = y at hrel ⊢
    cases hrel with
    | none => rfl
    | some hr => exact hr

/-! ## Reading the files -/

/-- The contents of the listed files, which stay what they are. -/
def Contents (M : Mode) (s : State) (ms : List SstMeta) (cont : Tables) :
    Prop :=
  ∀ x ∈ ms, content M.cr s.1.archive x.id = cont x.id

theorem Contents.calm (h : Contents M s ms cont) (hl : Listing M s ms) (hc : Calm M who s s')
    (hi : Inv M.toTrack s.1 s.2) : Contents M s' ms cont := by
  intro x hx
  obtain ⟨f, hf⟩ := hl.files x hx
  rw [content_mono (hc.grows hi) hf]
  exact h x hx

theorem Contents.tail (h : Contents M s (x :: ms) cont) :
    Contents M s ms cont := fun y hy => h y (by simp [hy])

theorem fetchFiles_safe (hcr : cx.crates = M.cr) (h : Reading M who s) (hl : Listing M s ms)
    (cont : Tables) (hcont : Contents M s ms cont) :
    IoSafe (readRules M) who (fetchFiles cx ms) (ReadResult M who fun files _ =>
      List.Forall₂ (fun x f => SstFile.Holds M.cr.crc32 f (cont x.id)) ms files) s := by
  induction ms generalizing s with
  | nil => exact .pure fun s' ho _ => ⟨h.others ho, .nil⟩
  | cons x ms ih =>
    obtain ⟨f, hf⟩ := hl.files x (by simp)
    refine .readBind (fetchSst_safe hcr h hf fun hs => hl.present hs x (by simp)) (.imp id .inr)
      fun f' s1 hs1 h1 heq => ?_
    subst heq
    refine .readBind (ih h1 (hl.tail.calm hs1 h.inv) (hcont.tail.calm hl.tail hs1 h.inv)) id
      fun files s2 _ h2 hfiles => .pure fun s3 ho _ => ⟨h2.others ho, .cons ?_ hfiles⟩
    rw [← hcont x (by simp)]
    exact h.inv.holds hf

theorem readSources_safe (hcr : cx.crates = M.cr) (h : Reading M who s) (hl : Listing M s ms)
    (cont : Tables) (hcont : Contents M s ms cont) (start stop : Option Key) :
    IoSafe (readRules M) who (readSources cx start stop ms) (ReadResult M who fun sources s' =>
      List.Forall₂ (fun x src => List.Forall₂ (Resolved M s'.1.archive)
        ((cont x.id).toList.filter fun op => inRange start stop op.1) src) ms sources) s := by
  induction ms generalizing s with
  | nil => exact .pure fun s' ho _ => ⟨h.others ho, .nil⟩
  | cons x ms ih =>
    obtain ⟨f, hf⟩ := hl.files x (by simp)
    refine .readBind (readSst_safe hcr h hf fun hs => hl.present hs x (by simp)) (.imp id .inr)
      fun f' s1 hs1 h1 heq => .bind (.ofRes fun s2 ho2 _ => ?_)
    subst heq
    rw [hcr, (h.inv.holds hf).scan start stop, hcont x (by simp)]
    have h2 := h1.others ho2
    have hc2 : Calm M who s s2 := hs1.trans ho2.calm
    refine .readBind (resolveOps_safe hcr h2 fun op hop => ?_) (.imp id .inl)
      fun src s3 hs3 h3 hsrc => ?_
    · rw [← hcont x (by simp)] at hop
      exact (h.inv.readable_row hf (List.mem_filter.mp hop).1).mono (hc2.grows h.inv)
    have hc3 : Calm M who s s3 := hc2.trans hs3
    refine .readBind (ih h3 (hl.tail.calm hc3 h.inv) (hcont.tail.calm hl.tail hc3 h.inv)) id
      fun sources s4 hs4 h4 hsources => .pure fun s5 ho5 _ => ⟨h4.others ho5, .cons ?_ ?_⟩
    · have hg5 := (hs4.grows h3.inv).trans (ho5.calm.grows h4.inv)
      exact hsrc.imp fun _ _ hp => hp.mono hg5
    · have hg5 := ho5.calm.grows h4.inv
      exact hsources.imp fun _ _ hsrcs => hsrcs.imp fun _ _ hp => hp.mono hg5

theorem resolveRows_safe (hcr : cx.crates = M.cr) (h : Reading M who s)
    (hrows : ∀ kv ∈ rows, Readable M s.1.archive (some (some kv.2))) :
    IoSafe (readRules M) who (resolveRows cx rows) (ReadEnds M who (M.faults ∨ ¬ M.strict)
      fun rows' s' => List.Forall₂ (Reads M s'.1.archive) rows rows') s := by
  induction rows generalizing s with
  | nil => exact .pure fun s' ho _ => ⟨h.others ho, .nil⟩
  | cons kv rows ih =>
    obtain ⟨key, raw⟩ := kv
    have hraw := hrows (key, raw) (by simp)
    refine .readBind (resolveValue_safe hcr h fun hs => hraw hs raw rfl) id fun v s1 hs1 h1 hv => ?_
    have hg1 := hs1.grows h.inv
    refine .readBind (ih h1 fun kv hkv => (hrows kv (by simp [hkv])).mono hg1) id
      fun rows' s2 hs2 h2 hall => ?_
    refine .pure fun s3 ho _ => ⟨h2.others ho, .cons ⟨rfl, v, rfl, fun hs => ?_⟩ ?_⟩
    · have hc : Calm M who s s3 := (hs1.trans hs2).trans ho.calm
      exact resolve_mono (hc.grows h.inv) (hv hs)
    · exact hall.imp fun _ _ hp => ⟨hp.1, hp.2.mono (ho.calm.grows h2.inv)⟩

/-! ## Scans -/

/-- The layers above the files, and the files. -/
def scanHit (M : Mode) (ob : Objects) (layers : List (List Op)) (ms : List SstMeta) (k : Key) :
    Option (Option Bytes) :=
  (firstHit layers k).or (view (content M.cr ob) ms k)

/-- The layers of a scan with the rows of its files. -/
def scanLayers (M : Mode) (ob : Objects) (layers : List (List Op)) (ms : List SstMeta)
    (d : Direction) (c : Cursor) : List (List Op) :=
  layers ++ (scanFiles ms d c).map fun x =>
    (content M.cr ob x.id).toList.filter fun op => inBounds d c op.1

theorem Scanned.back {ob' : Objects} {hit hit' : Key → Option (Option Bytes)}
    (h : Scanned M ob' hit limit d c rows) (hg : Grows ob ob')
    (hread : ∀ k, inBounds d c k → Readable M ob (hit k))
    (heq : ∀ k, inBounds d c k → hit k = hit' k) : Scanned M ob hit' limit d c rows := by
  obtain ⟨m, hm, hshows⟩ := h
  refine ⟨m, hm, fun k hk => ?_⟩
  rw [← heq k hk]
  exact Shows.back (hshows k hk) hg (hread k hk)

section Layered

variable {layers : List (List Op)} {ms : List SstMeta}

theorem firstHit_scanLayers (hl : Listing M s ms) {k : Key} (hk : inBounds d c k) :
    firstHit (scanLayers M s.1.archive layers ms d c) k = scanHit M s.1.archive layers ms k := by
  unfold scanLayers scanHit
  rw [firstHit_append, TrueBounds.firstHit_scanFiles hl.bounds hk]

theorem mem_scanLayers {l : List Op} {op : Op} (hl : l ∈ scanLayers M s.1.archive layers ms d c)
    (hop : op ∈ l) : l ∈ layers ∨ inBounds d c op.1 ∧
      ∃ x ∈ ms, op ∈ (content M.cr s.1.archive x.id).toList := by
  rcases List.mem_append.mp hl with hl | hl
  · exact .inl hl
  · obtain ⟨x, hx, rfl⟩ := List.mem_map.mp hl
    obtain ⟨hop, hin⟩ := List.mem_filter.mp hop
    exact .inr ⟨hin, x, mem_scanFiles hx, hop⟩

theorem scanLayers_bounds (hlay : ∀ l ∈ layers, LayerOk M d c l) :
    ∀ l ∈ scanLayers M s.1.archive layers ms d c, ∀ op ∈ l, inBounds d c op.1 := by
  intro l hl op hop
  rcases mem_scanLayers hl hop with hl | ⟨hin, -⟩
  · exact (hlay l hl).bounds op hop
  · exact hin

theorem scanLayers_ascending (hlay : ∀ l ∈ layers, LayerOk M d c l) :
    Ascending (scanLayers M s.1.archive layers ms d c) := by
  intro l hl
  rcases List.mem_append.mp hl with hl | hl
  · exact (hlay l hl).ascending
  · obtain ⟨x, -, rfl⟩ := List.mem_map.mp hl
    exact (content M.cr s.1.archive x.id).ascending.filter _

theorem Track.OkOp.readable {op : Op} (h : M.OkOp op) (ob : Objects) : Readable M ob (some op.2) := by
  intro hs raw hraw
  refine ⟨raw, ?_⟩
  unfold resolve
  rw [M.plain hs raw (h.1 hs raw (Option.some.inj hraw))]

theorem scanLayers_readable (hi : Inv M.toTrack s.1 s.2) (hl : Listing M s ms)
    (hlay : ∀ l ∈ layers, LayerOk M d c l) (k : Key) :
    Readable M s.1.archive (firstHit (scanLayers M s.1.archive layers ms d c) k) := by
  intro hs raw hraw
  obtain ⟨l, hmem, hlook⟩ := List.exists_of_findSome?_eq_some hraw
  have hop := SortedMap.mem_of_lookup hlook
  rcases mem_scanLayers hmem hop with hmem | ⟨-, x, hx, hrow⟩
  · exact ((hlay l hmem).plain _ hop).readable s.1.archive hs raw rfl
  · obtain ⟨f, hf⟩ := hl.files x hx
    exact hi.readable_row hf hrow hs raw rfl

/-- Layers and resolved sources decide like layers and files. -/
theorem scanLayers_rel {ob : Objects} {cont : Tables} {sources : List (List Op)}
    (hlay : ∀ l ∈ layers, LayerOk M d c l)
    (hsrc : List.Forall₂ (fun x src => List.Forall₂ (Resolved M ob)
      ((cont x.id).toList.filter fun op => inBounds d c op.1) src) (scanFiles ms d c) sources)
    (k : Key) :
    Option.Rel (fun x y => Shows M.strict M.cr ob (some x) y)
      (firstHit (layers ++ (scanFiles ms d c).map fun x =>
        (cont x.id).toList.filter fun op => inBounds d c op.1) k)
      (firstHit (layers ++ sources) k) := by
  refine firstHit_rel (List.rel_append ?_ ?_) k
  · refine List.forall₂_same.mpr fun l hl => List.forall₂_same.mpr fun op hop => ⟨rfl, ?_⟩
    exact shows_plain fun hs v hv => M.plain hs v (((hlay l hl).plain op hop).1 hs v hv)
  · rw [List.forall₂_map_left_iff]
    exact hsrc

theorem scanManifest_safe (hcr : cx.crates = M.cr) (h : Reading M who s) {m : Manifest}
    (hl : Listing M s m.sst) (hlay : ∀ l ∈ layers, LayerOk M d c l) :
    IoSafe (readRules M) who (scanManifest cx m layers limit d c) (ReadResult M who fun rows _ =>
      Scanned M s.1.archive (scanHit M s.1.archive layers m.sst) limit d c rows) s := by
  have hread := scanLayers_readable h.inv hl hlay
  have heq : ∀ k, inBounds d c k → firstHit (scanLayers M s.1.archive layers m.sst d c) k =
      scanHit M s.1.archive layers m.sst k := fun k hk => firstHit_scanLayers hl hk
  have hfiles := hl.scanFiles d c
  unfold scanManifest
  cases d with
  | next =>
    refine .readBind (fetchFiles_safe hcr h hfiles (content M.cr s.1.archive) fun _ _ => rfl) id
      fun files s1 hs1 h1 hholds => ?_
    have hitems : layers.map (fun l => l.map .ok) ++ files.map (fun f =>
          f.scanIter cx.crates.crc32 (scanBounds .next c).1 (scanBounds .next c).2) =
        (scanLayers M s.1.archive layers m.sst .next c).map fun l => l.map .ok := by
      rw [scanLayers, List.map_append, List.map_map]
      congr 1
      rw [← List.forall₂_eq_eq_eq, List.forall₂_map_left_iff, List.forall₂_map_right_iff]
      refine .flip (hholds.imp fun x f hf => ?_)
      rw [hcr]
      exact hf.iter _ _
    refine .bind (.ofRes fun s2 ho2 _ => ?_)
    simp only [hitems, pullMergeNext_eq _ (scanLayers_ascending hlay)]
    have hc2 : Calm M who s s2 := hs1.trans ho2.calm
    refine .readMono (resolveRows_safe hcr (h1.others ho2) fun kv hkv => ?_) (.imp id .inl)
      fun rows s3 hs3 h3 hrows => ?_
    · have hmem : kv ∈ mergeSources (scanLayers M s.1.archive layers m.sst .next c) := by
        cases limit with
        | none => exact hkv
        | some n => exact List.mem_of_mem_take hkv
      have hr := hread kv.1
      rw [mem_mergeSources.mp hmem] at hr
      exact hr.mono (hc2.grows h.inv)
    · have hc3 : Calm M who s s3 := hc2.trans hs3
      have hg := hc3.grows h.inv
      exact Scanned.back (scanned_next (scanLayers_bounds hlay) (fun k => (hread k).mono hg) hrows)
        hg (fun k _ => hread k) heq
  | prev =>
    cases hstart : c.1 with
    | none =>
      refine .pure fun s' ho _ => ⟨h.others ho, ?_⟩
      exact Scanned.back (scanned_nil hread hstart) (.refl _) (fun k _ => hread k) heq
    | some start =>
      refine .readBind (readSources_safe hcr h hfiles (content M.cr s.1.archive) (fun _ _ => rfl)
        (scanBounds .prev c).1 (scanBounds .prev c).2) id fun sources s1 hs1 h1 hsrc =>
          .pure fun s2 ho2 _ => ⟨h1.others ho2, ?_⟩
      exact Scanned.back (scanned_prev fun k _ => scanLayers_rel hlay hsrc k) (hs1.grows h.inv)
        (fun k _ => hread k) heq

end Layered

/-- The outcome of a scan: an overlay, the MemTable rows of one moment, and the files
that were listed later. -/
def ScanSeen (M : Mode) (who : Who) (upper : MemMap) (limit : Option Nat) (d : Direction) (c : Cursor)
    (rows : List KeyValue) (s s' : State) : Prop :=
  ∃ s₁, Reading M who s₁ ∧ Calm M who s s₁ ∧ At M who s₁ s' fun s₂ =>
    Scanned M s₂.1.archive
      (fun k => (upper.get? k).or (((s₁.1.inst who.inst).mem.get? k).or (sstHit M.cr s₂.1 k)))
      limit d c rows

variable {upper : MemMap}

theorem ScanSeen.early {s1 : State} (hc : Calm M who s s1)
    (h : ScanSeen M who upper limit d c rows s1 s') : ScanSeen M who upper limit d c rows s s' := by
  obtain ⟨s2, h2, hs2, hat⟩ := h
  exact ⟨s2, h2, hc.trans hs2, hat⟩

theorem ScanSeen.late {s1 : State} (h : ScanSeen M who upper limit d c rows s s1)
    (hc : Calm M who s1 s') : ScanSeen M who upper limit d c rows s s' := by
  obtain ⟨s2, h2, hs2, s3, h3, hs3, hs4, hscan⟩ := h
  exact ⟨s2, h2, hs2, s3, h3, hs3, hs4.trans hc, hscan⟩

/-- `range_lookup` below given layers. -/
theorem rangeLookup_safe (hcr : cx.crates = M.cr) (h : Reading M who s) (layers : List (List Op))
    (hlay : ∀ l ∈ layers, LayerOk M d c l) :
    IoSafe (readRules M) who (rangeLookup cx layers limit d c) (ReadResult M who fun rows s' =>
      At M who s s' fun s2 => Scanned M s2.1.archive
        (scanHit M s2.1.archive layers s2.1.manifest.sst) limit d c rows) s := by
  refine .readBind (loadManifest_safe true h) .inl fun x s1 _ h1 ⟨s0, h0, hs0, hs1, hcur⟩ => ?_
  obtain ⟨m, e⟩ := x
  have hl := hcur.listing h0.inv
  refine .readMono (scanManifest_safe hcr h1 (hl.calm hs1 h0.inv) hlay) id
    fun rows s2 hs2 h2 hscan => ⟨s0, h0, hs0, hs1.trans hs2, ?_⟩
  have hg := hs1.grows h0.inv
  have heq : ∀ k, scanHit M s1.1.archive layers m.sst k =
      scanHit M s0.1.archive layers s0.1.manifest.sst k := fun k => by
    unfold scanHit
    rw [view_grows hg hl.files, hcur.lists.2]
  refine Scanned.back hscan hg (fun k hk => ?_) fun k _ => heq k
  rw [heq k, hcur.lists.2, ← firstHit_scanLayers hl hk]
  exact scanLayers_readable h0.inv hl hlay k

/-- A copy of the MemTable rows and a scan below an overlay. -/
theorem scanBelow_safe (hcr : cx.crates = M.cr) (h : Reading M who s) (pre : List (List Op))
    (hpre : ∀ l ∈ pre, LayerOk M d c l)
    (hupper : ∀ k, inBounds d c k → firstHit pre k = upper.get? k) :
    IoSafe (readRules M) who
      (do let rows ← Io.act (.memRows d c); rangeLookup cx (pre ++ [rows]) limit d c)
      (ReadResult M who fun rows s' => ScanSeen M who upper limit d c rows s s') s := by
  refine .bind (.act (readStep (fun _ _ => rfl) fun s1 hs1 hi1 ch r t _ hx => ?_))
  dsimp only [exec] at hx
  obtain ⟨rfl, rfl⟩ := hx
  have h1 := h.others hs1
  have hin : Inert who s1 (s1.1.log who .copied, s1.2) := .look .copied (.inr rfl)
  refine ⟨hin, fun s2 hs2 _ => ?_⟩
  have h2 := (h1.inert hin rfl).others hs2
  have hc2 : Calm M who s1 s2 := hin.calm.trans hs2.calm
  have hmem := LayerOk.filterRows (M := M) (hi1.handle.memOk who.inst) d c
  refine .readMono (rangeLookup_safe hcr h2 (pre ++ [filterRows (s1.1.inst who.inst).mem d c])
    fun l hl => ?_) id fun rows s3 _ h3 ⟨s4, h4, hs4, hs5, m, hm, hshows⟩ =>
      ⟨s1, h1, hs1.calm, s4, h4, hc2.trans hs4, hs5, m, hm, fun k hk => ?_⟩
  · rcases List.mem_append.mp hl with hl | hl
    · exact hpre l hl
    · rw [List.mem_singleton.mp hl]
      exact hmem
  · have hshow := hshows k hk
    unfold scanHit at hshow
    rw [firstHit_append, hupper k hk, firstHit_cons, firstHit_nil, lookup_filterRows _ hk,
      Option.or_none, Option.or_assoc] at hshow
    exact hshow

theorem getsBytes_safe (hcr : cx.crates = M.cr) (h : Reading M who s) (limit : Option Nat)
    (d : Direction) (c : Cursor) :
    IoSafe (readRules M) who (getsBytes cx limit d c)
      (ReadResult M who fun rows s' => ScanSeen M who SortedMap.empty limit d c rows s s') s :=
  retryOnceNotFound_safe (P := fun s rows s' => ScanSeen M who SortedMap.empty limit d c rows s s')
    h (fun _ h0 => scanBelow_safe hcr h0 [] (by simp) fun _ _ => rfl)
    (fun _ _ _ => ScanSeen.early) fun _ _ _ _ => ScanSeen.late

/-- Alone, a scan lists the rows that MemTable and files show. -/
theorem ScanSeen.alone (hs : M.solo) (hi : Inv M.toTrack s.1 s.2)
    (hupper : ∀ op ∈ upper.toList, M.OkOp op) (h : ScanSeen M who upper limit d c rows s s') :
    Scanned M s.1.archive (fun k => (upper.get? k).or (liveHit M.cr s.1 who.inst k))
      limit d c rows := by
  obtain ⟨s1, h1, hs1, s2, h2, hs2, -, hscan⟩ := h
  have hc : Calm M who s s2 := hs1.trans hs2
  have hg := hc.grows hi
  have hmem : (s1.1.inst who.inst).mem = (s.1.inst who.inst).mem := by
    obtain ⟨ch, f, hch⟩ := (hs1.still hi hs).inst who.inst
    rw [hch]
  have hsst : ∀ k, sstHit M.cr s2.1 k = sstHit M.cr s.1 k := fun k => by
    unfold sstHit
    rw [show s2.1.manifest = s.1.manifest from manifest_eq (by rw [(hc.still hi hs).st])]
    exact view_grows hg hi.store.listOk.ssts k
  refine Scanned.back hscan hg (fun k _ => ?_) fun k _ => ?_
  · rw [hmem, hsst k]
    cases hget : upper.get? k with
    | some x => exact (hupper _ ((upper.mem_toList k x).mpr hget)).readable _
    | none =>
      rw [Option.none_or]
      cases hlive : (s.1.inst who.inst).mem.get? k with
      | some x =>
        have := hi.readable_mem (M := M) who.inst k
        rw [hlive] at this
        exact this
      | none =>
        rw [Option.none_or]
        exact hi.readable_view hi.store.listOk.ssts k
  · rw [hmem, hsst k]
    rfl

end OxKv
