import OxKv.Proc.Manifest

/-!
Point reads under the rules of the engine.

* `fetchSst_safe`, `resolveValue_safe`: files and blobs are the archived ones;
* `lookupFiles_safe`: the file loop shows the newest entry of the listed files;
* `getBytes_safe`: a read looks at the MemTable first and then at the files of a
  manifest that was current later.
-/

namespace OxKv

variable {M : Mode} {who : Who} {s s' : State} {cx : Ctx}

/-! ## Files -/

variable {p : ObjectPath} {f : SstFile} {w : World} {g : Ghost}

/-- An archived SST file holds its contents. -/
theorem Inv.holds {T : Track} (h : Inv T w g) (hf : w.archive p = some (.sst f)) :
    f.Holds T.cr.crc32 (content T.cr w.archive p) := by
  have hobj : ∃ m, f.Holds T.cr.crc32 m := by
    cases p with
    | sst e l n =>
      obtain ⟨f', m, heq, hm⟩ := h.store.sstObj hf
      cases heq
      exact ⟨m, hm⟩
    | wal e n =>
      obtain ⟨b, heq⟩ := h.store.walObj hf
      cases heq
    | blob e n =>
      obtain ⟨b, t, heq, -⟩ := h.store.blobObj hf
      cases heq
    | _ => cases archived_isData hf
  obtain ⟨m, hm⟩ := hobj
  unfold content
  rw [hf]
  simp only
  rw [hm.rows_eq]
  exact hm

/-- The stored object of a data path is the archived one. -/
theorem Inv.archive_of_lookup {T : Track} (h : Inv T w g) {x : Obj × Etag} (hp : p.isData = true)
    (hl : w.st.lookup p = some x) : w.archive p = some x.1 := by
  obtain ⟨who, hm⟩ := h.store.held hl
  exact h.store.data hp hm

/-- Reading a file that was archived gives that file; alone, a stored one is found. -/
abbrev Fetched (M : Mode) (who : Who) (f : SstFile) : Res SstFile → State → Prop :=
  ReadEnds M who (M.faults ∨ ¬ M.solo) fun f' _ => f' = f

theorem readSst_safe (hcr : cx.crates = M.cr) (h : Reading M who s) {id : ObjectPath}
    (hf : s.1.archive id = some (.sst f)) (hpres : M.solo → ∃ y, s.1.st.lookup id = some y) :
    IoSafe (readRules M) who (readSst cx id) (Fetched M who f) s := by
  refine .bind (.mapErr ((get_safe id h).mono ?_))
  rintro r s' - ⟨h', s1, h1, hs1, -, hgot⟩
  have hf1 := hs1.grows h.inv _ _ hf
  match r, hgot with
  | .error e, hgot =>
    refine ⟨h', hgot.imp And.left fun hnone hs => ?_⟩
    obtain ⟨y, hy⟩ := hpres hs
    rw [← (hs1.still h.inv hs).st, hnone.1] at hy
    cases hy
  | .ok (o, e), hgot =>
    have harch := h1.inv.archive_of_lookup (archived_isData hf1) hgot
    rw [hf1] at harch
    cases harch
    have hholds := h1.inv.holds hf1
    refine .bind (.ofRes fun s2 ho2 _ => ?_)
    rw [hholds.parse]
    refine .bind (.ofRes fun s3 ho3 _ => ?_)
    rw [hcr, hholds.crc]
    exact .pure fun s4 ho4 _ => ⟨((h'.others ho2).others ho3).others ho4, rfl⟩

/-- A change of one entry of the file cache. -/
theorem Inert.sstCache {o : Option SstFile} (hi : Inv M.toTrack s.1 s.2) (id : ObjectPath)
    (ho : ∀ f, o = some f → s.1.archive id = some (.sst f)) :
    Inert who s (s.1.setInst who.inst { s.1.inst who.inst with
      sstCache := Function.update (s.1.inst who.inst).sstCache id o }, s.2) := by
  refine .cache (s.1.inst who.inst).cache _ (fun _ _ => hi.handle.cache) fun p x hp => ?_
  by_cases hpid : p = id
  · rw [hpid, Function.update_self] at hp
    rw [hpid]
    exact ho x hp
  · rw [Function.update_of_ne hpid] at hp
    exact hi.handle.sstCache hp

theorem fetchSst_safe (hcr : cx.crates = M.cr) (h : Reading M who s) {id : ObjectPath}
    (hf : s.1.archive id = some (.sst f)) (hpres : M.solo → ∃ y, s.1.st.lookup id = some y) :
    IoSafe (readRules M) who (fetchSst cx id) (Fetched M who f) s := by
  refine .bind (.act (readStep (fun _ _ => rfl) fun s1 hs1 hi1 c r t _ hx => ?_))
  dsimp only [exec] at hx
  simp only [Option.some.injEq, Prod.mk.injEq] at hx
  obtain ⟨hcache, rfl⟩ := hx
  refine ⟨.idle, fun s2 hs2 _ => ?_⟩
  have h2 := (h.others hs1).others hs2
  have hcalm : Calm M who s s2 := hs1.calm.trans hs2.calm
  have hf2 := hcalm.grows h.inv _ _ hf
  match r with
  | some f' =>
    refine .pure fun s3 ho3 _ => ⟨h2.others ho3, ?_⟩
    split at hcache
    · have heq := hi1.handle.sstCache hcache
      rw [show archived (stores s1.1.hist) id = some (.sst f) from hs1.calm.grows h.inv _ _ hf] at heq
      cases heq
      rfl
    · cases hcache
  | none =>
    have hpres2 : M.solo → ∃ y, s2.1.st.lookup id = some y := fun hs => by
      rw [(hcalm.still h.inv hs).st]
      exact hpres hs
    refine .readBind (readSst_safe hcr h2 hf2 hpres2) (·) fun f' s3 hs3 h3 heq => ?_
    subst heq
    refine .bind (.act (readStep (fun _ _ => rfl) fun s4 hs4 hi4 c r t _ hx => ?_))
    cases hx
    have hin : Inert who s4 (s4.1.setInst who.inst { s4.1.inst who.inst with
        sstCache := Function.update (s4.1.inst who.inst).sstCache id (some f') }, s4.2) := by
      refine .sstCache hi4 id fun f hf => ?_
      cases hf
      exact hs4.calm.grows h3.inv _ _ (hs3.grows h2.inv _ _ hf2)
    refine ⟨hin, fun s5 hs5 _ => .pure fun s6 hs6 _ => ⟨?_, rfl⟩⟩
    exact ((((h3.others hs4).inert hin (by simp)).others hs5).others hs6)

/-! ## Values -/

/-- A blob that was archived is found. -/
theorem resolveValue_safe (hcr : cx.crates = M.cr) (h : Reading M who s) {raw : Bytes}
    (hres : M.strict → ∃ v, resolve M.cr s.1.archive raw = some v) :
    IoSafe (readRules M) who (resolveValue cx raw) (ReadEnds M who (M.faults ∨ ¬ M.strict)
      fun v _ => M.strict → resolve M.cr s.1.archive raw = some v) s := by
  unfold resolveValue
  cases hd : tryDecodeBlobPointer cx.crates raw with
  | none =>
    refine .pure fun s' ho _ => ⟨h.others ho, fun _ => ?_⟩
    rw [hcr] at hd
    unfold resolve
    rw [hd]
  | some ptr =>
    have hd' := hd
    rw [hcr] at hd'
    -- the blob the pointer names
    have hblob : M.strict → ∃ e hash b, ptr.blob = .blob e hash ∧
        s.1.archive (.blob e hash) = some (.bytes b) ∧ b.length = ptr.len ∧
        M.cr.crc32 b = ptr.crc ∧ resolve M.cr s.1.archive raw = some b := by
      intro hs
      obtain ⟨v, hv⟩ := hres hs
      have hv' := hv
      unfold resolve at hv
      rw [hd'] at hv
      simp only at hv
      split at hv
      · rename_i e hash b hp hb
        split at hv
        · rename_i hok
          cases hv
          exact ⟨e, hash, _, hp, hp ▸ hb, hok.1, hok.2, hv'⟩
        · cases hv
      · cases hv
    have hget : IoSafe (readRules M) who (getBlob ptr.blob) (ReadEnds M who
        (M.faults ∨ ¬ M.strict) fun b _ => M.strict → s.1.archive ptr.blob = some (.bytes b))
        s := by
      refine .bind (.mapErr ((get_safe ptr.blob h).mono ?_))
      rintro r s' - ⟨h', s1, h1, hs1, -, hgot⟩
      have hsame : M.strict → ∃ b, s.1.archive ptr.blob = some (.bytes b) ∧
          ∃ t, s1.1.st.lookup ptr.blob = some (.bytes b, t) := by
        intro hs
        obtain ⟨e, hash, b, hp, hb, -⟩ := hblob hs
        obtain ⟨b', t, heq, hl⟩ := h1.inv.store.blobObj (hs1.grows h.inv _ _ hb)
        cases heq
        rw [hp]
        exact ⟨b, hb, t, hl⟩
      match r, hgot with
      | .error e, hgot =>
        refine ⟨h', hgot.imp And.left fun hnone hs => ?_⟩
        obtain ⟨b, -, t, hl⟩ := hsame hs
        rw [hnone.1] at hl
        cases hl
      | .ok (o, e), hgot =>
        have hgot : s1.1.st.lookup ptr.blob = some (o, e) := hgot
        cases o with
        | bytes b =>
          refine .pure fun s2 ho2 _ => ⟨h'.others ho2, fun hs => ?_⟩
          obtain ⟨b', hb', t, hl⟩ := hsame hs
          rw [hgot] at hl
          cases hl
          exact hb'
        | _ =>
          refine .fail fun s2 ho2 _ => ⟨h'.others ho2, Or.inr fun hs => ?_⟩
          obtain ⟨b', hb', t, hl⟩ := hsame hs
          rw [hgot] at hl
          cases hl
    refine .readBind hget id fun b s' _ h' hb => ?_
    have hsame : M.strict → b.length = ptr.len ∧ M.cr.crc32 b = ptr.crc ∧
        resolve M.cr s.1.archive raw = some b := by
      intro hs
      obtain ⟨e, hash, b', hp, hb', hok⟩ := hblob hs
      rw [← hp, hb hs] at hb'
      cases hb'
      exact hok
    show IoSafe _ _ (if b.length ≠ ptr.len then _ else _) _ _
    split
    · rename_i hne
      exact .fail fun s2 ho2 _ => ⟨h'.others ho2, Or.inr fun hs => hne (hsame hs).1⟩
    · split
      · rename_i hne
        rw [hcr] at hne
        exact .fail fun s2 ho2 _ => ⟨h'.others ho2, Or.inr fun hs => hne (hsame hs).2.1⟩
      · exact .pure fun s2 ho2 _ => ⟨h'.others ho2, fun hs => (hsame hs).2.2⟩

/-- A raw entry that may be read: strictly, it resolves. -/
def Readable (M : Mode) (ob : Objects) (x : Option (Option Bytes)) : Prop :=
  M.strict → ∀ raw, x = some (some raw) → ∃ v, resolve M.cr ob raw = some v

theorem Readable.mono {ob ob' : Objects} (hg : Grows ob ob') {x : Option (Option Bytes)}
    (h : Readable M ob x) : Readable M ob' x :=
  fun hs raw hx => (h hs raw hx).imp fun _ hv => resolve_mono hg hv

/-- Entries of a MemTable are plain. -/
theorem Inv.readable_mem (h : Inv M.toTrack w g) (i : Nat) (k : Key) :
    Readable M w.archive ((w.inst i).mem.get? k) := by
  intro hs raw hx
  have hm := ((w.inst i).mem.mem_toList k (some raw)).mpr hx
  refine ⟨raw, ?_⟩
  unfold resolve
  rw [M.plain hs raw ((h.handle.memOk i _ hm).1 hs raw rfl)]

/-- Entries of archived files resolve. -/
theorem Inv.readable_file (h : Inv M.toTrack w g) (hf : w.archive p = some (.sst f)) (k : Key) :
    Readable M w.archive ((content M.cr w.archive p).get? k) := by
  intro hs raw hx
  unfold content at hx
  rw [hf] at hx
  have hm := ((f.rows M.cr.crc32).mem_toList k (some raw)).mpr hx
  exact ((h.store.sstVal hf _ hm).1 hs raw rfl).imp fun _ hv => hv.2

theorem Inv.readable_row (h : Inv M.toTrack w g) (hf : w.archive p = some (.sst f)) {op : Op}
    (hop : op ∈ (content M.cr w.archive p).toList) : Readable M w.archive (some op.2) := by
  have hread := h.readable_file hf op.1
  rw [(SortedMap.mem_toList _ op.1 op.2).mp hop] at hread
  exact hread

variable {ms : List SstMeta}

/-- The newest entry in a list of archived files resolves. -/
theorem Inv.readable_view (h : Inv M.toTrack w g)
    (hf : ∀ x ∈ ms, ∃ f, w.archive x.id = some (.sst f)) (k : Key) :
    Readable M w.archive (view (content M.cr w.archive) ms k) := by
  intro hs raw hx
  obtain ⟨x, hm, hget⟩ := mem_of_view hx
  obtain ⟨f, hf⟩ := hf x hm
  exact h.readable_file hf k hs raw hget

variable {y : Option Bytes}

/-- What a readable entry shows later it showed before. -/
theorem Shows.back {ob ob' : Objects} {x : Option (Option Bytes)} (h : Shows M.strict M.cr ob' x y)
    (hg : Grows ob ob') (hr : Readable M ob x) : Shows M.strict M.cr ob x y := by
  match x, h with
  | none, h => exact h
  | some none, h => exact h
  | some (some raw), ⟨v, hv, hres⟩ =>
    refine ⟨v, hv, fun hs => ?_⟩
    obtain ⟨v', hv'⟩ := hr hs raw rfl
    rw [← hres hs, resolve_mono hg hv']
    exact hv'

theorem resolveHit_safe (hcr : cx.crates = M.cr) (h : Reading M who s) {x : Option Bytes}
    (hx : Readable M s.1.archive (some x)) :
    IoSafe (readRules M) who (resolveHit cx x)
      (ReadEnds M who (M.faults ∨ ¬ M.strict) fun y _ => M.Shows s.1 (some x) y) s := by
  cases x with
  | none => exact .pure fun s' ho _ => ⟨h.others ho, rfl⟩
  | some raw =>
    exact .readBind (resolveValue_safe hcr h fun hs => hx hs raw rfl) id fun v s' _ h' hv =>
      .pure fun s2 ho2 _ => ⟨h'.others ho2, v, rfl, hv⟩

/-! ## Point reads -/

/-- What a read procedure returns, as far as errors go. -/
abbrev ReadResult {α : Type} (M : Mode) (who : Who) :
    (α → State → Prop) → Res α → State → Prop :=
  ReadEnds M who (M.faults ∨ ¬ M.strict ∨ ¬ M.solo)

/-- The files a reader looks at: archived, with true bounds, and stored if it is
alone. -/
structure Listing (M : Mode) (s : State) (ms : List SstMeta) : Prop where
  files : ∀ x ∈ ms, ∃ f, s.1.archive x.id = some (.sst f)
  bounds : ∀ x ∈ ms, ∀ k v, (content M.cr s.1.archive x.id).get? k = some v →
    x.minKey ≤ k ∧ k ≤ x.maxKey
  present : M.solo → ∀ x ∈ ms, ∃ y, s.1.st.lookup x.id = some y

theorem Listing.calm (h : Listing M s ms) (hc : Calm M who s s') (hi : Inv M.toTrack s.1 s.2) :
    Listing M s' ms where
  files x hx := (h.files x hx).imp fun _ hf => hc.grows hi _ _ hf
  bounds x hx k v hv := by
    obtain ⟨f, hf⟩ := h.files x hx
    rw [content_mono (hc.grows hi) hf] at hv
    exact h.bounds x hx k v hv
  present hs x hx := by
    rw [(hc.still hi hs).st]
    exact h.present hs x hx

theorem Listing.tail {x : SstMeta} (h : Listing M s (x :: ms)) : Listing M s ms :=
  ⟨fun y hy => h.files y (by simp [hy]), fun y hy => h.bounds y (by simp [hy]),
    fun hs y hy => h.present hs y (by simp [hy])⟩

/-- The listed files of the current manifest. -/
theorem Current.listing {m : Manifest} {e : Etag} (h : Current s.1 m e)
    (hi : Inv M.toTrack s.1 s.2) : Listing M s m.sst := by
  have hl := hi.store.listOk
  have hm := h.lists.2
  rw [← hm]
  exact ⟨hl.ssts, fun x hx k v hv => hl.levels.bounds hx hv, fun _ x hx => hi.present.ssts x hx⟩

def TrueBounds (cont : Tables) (ms : List SstMeta) : Prop :=
  ∀ x ∈ ms, ∀ k v, (cont x.id).get? k = some v → x.minKey ≤ k ∧ k ≤ x.maxKey

/-- A key outside the bounds of a file is not in it. -/
theorem TrueBounds.outside {cont : Tables} (h : TrueBounds cont ms) {x : SstMeta}
    (hx : x ∈ ms) {k : Key} (hk : k < x.minKey ∨ x.maxKey < k) : (cont x.id).get? k = none := by
  by_contra hne
  obtain ⟨v, hv⟩ := Option.ne_none_iff_exists'.mp hne
  obtain ⟨h1, h2⟩ := h x hx k v hv
  rcases hk with hk | hk
  · exact absurd hk (not_lt_of_ge h1)
  · exact absurd hk (not_lt_of_ge h2)

theorem lookupFiles_safe (hcr : cx.crates = M.cr) (h : Reading M who s) (hl : Listing M s ms)
    (key : Key) :
    IoSafe (readRules M) who (lookupFiles cx key ms) (ReadResult M who
      fun y _ => M.Shows s.1 (view (content M.cr s.1.archive) ms.reverse key) y) s := by
  induction ms generalizing s with
  | nil => exact .pure fun s' ho _ => ⟨h.others ho, rfl⟩
  | cons x ms ih =>
    have hview : view (content M.cr s.1.archive) (x :: ms).reverse key =
        ((content M.cr s.1.archive x.id).get? key).or
          (view (content M.cr s.1.archive) ms.reverse key) := by
      rw [List.reverse_cons, view_append_singleton]
    rw [hview]
    unfold lookupFiles
    split
    · rename_i hout
      rw [TrueBounds.outside hl.bounds (by simp) hout, Option.none_or]
      exact ih h hl.tail
    · obtain ⟨f, hf⟩ := hl.files x (by simp)
      refine .readBind (fetchSst_safe hcr h hf fun hs => hl.present hs x (by simp)) (.imp id .inr)
        fun f' s1 hs1 h1 heq => .bind (.ofRes fun s2 ho2 _ => ?_)
      subst heq
      have h2 := h1.others ho2
      have hc2 : Calm M who s s2 := hs1.trans ho2.calm
      have hg := hc2.grows h.inv
      rw [hcr, (h.inv.holds hf).get key]
      have hread := h.inv.readable_file hf key
      cases hhit : (content M.cr s.1.archive x.id).get? key with
      | some hit =>
        rw [hhit] at hread
        exact .readMono (resolveHit_safe hcr h2 (hread.mono hg)) (.imp id .inl)
          fun y _ _ _ hy => Shows.back hy hg hread
      | none =>
        refine .readMono (ih h2 (hl.tail.calm hc2 h.inv)) id fun y _ _ _ hy => ?_
        have hfiles : ∀ y ∈ ms.reverse, ∃ f, s.1.archive y.id = some (.sst f) :=
          fun y hy => hl.tail.files y (List.mem_reverse.mp hy)
        rw [view_grows hg hfiles] at hy
        exact Shows.back hy hg (h.inv.readable_view hfiles key)

/-- What `point_lookup` returns below the MemTable: an entry of the files of a
manifest that was current during the call. -/
theorem pointLookup_files (hcr : cx.crates = M.cr) (h : Reading M who s) (key : Key) :
    IoSafe (readRules M) who (pointLookup cx none key) (ReadResult M who fun y s' =>
      At M who s s' fun s1 => M.Shows s1.1 (sstHit M.cr s1.1 key) y) s := by
  refine .readBind (loadManifest_safe true h) .inl fun x s1 _ h1 ⟨s0, h0, hs0, hs1, hcur⟩ => ?_
  obtain ⟨m, e⟩ := x
  have hl := hcur.listing h0.inv
  have hl' : Listing M s1 m.sst.reverse :=
    have := hl.calm hs1 h0.inv
    ⟨fun x hx => this.files x (List.mem_reverse.mp hx),
      fun x hx => this.bounds x (List.mem_reverse.mp hx),
      fun hs x hx => this.present hs x (List.mem_reverse.mp hx)⟩
  refine .readMono (lookupFiles_safe hcr h1 hl' key) id fun y s2 hs2 h2 hy => ?_
  have hg := hs1.grows h0.inv
  have hview : sstHit M.cr s0.1 key = view (content M.cr s0.1.archive) m.sst key := by
    unfold sstHit
    rw [hcur.lists.2]
  rw [List.reverse_reverse, view_grows hg hl.files] at hy
  refine ⟨s0, h0, hs0, hs1.trans hs2, ?_⟩
  simp only [hview]
  exact Shows.back hy hg (h0.inv.readable_view hl.files key)

/-- The outcome of a point read: an entry of the MemTable, or without one an entry
of the files that were listed later. -/
def Seen (M : Mode) (who : Who) (key : Key) (y : Option Bytes) (s s' : State) : Prop :=
  ∃ s₁, Reading M who s₁ ∧ Calm M who s s₁ ∧ Calm M who s₁ s' ∧
    ((∃ x, (s₁.1.inst who.inst).mem.get? key = some x ∧ M.Shows s₁.1 (some x) y) ∨
      (s₁.1.inst who.inst).mem.get? key = none ∧
        At M who s₁ s' fun s₂ => M.Shows s₂.1 (sstHit M.cr s₂.1 key) y)

/-- Trying again does not change what a success means. -/
theorem retryOnceNotFound_safe {α : Type} {op : Io α} {P : State → α → State → Prop}
    (h : Reading M who s)
    (hop : ∀ s1, Reading M who s1 → IoSafe (readRules M) who op (ReadResult M who (P s1)) s1)
    (hP : ∀ s1 a s2, Calm M who s s1 → P s1 a s2 → P s a s2)
    (hP' : ∀ s1 a s2 s3, P s1 a s2 → Calm M who s2 s3 → P s1 a s3) :
    IoSafe (readRules M) who (retryOnceNotFound op) (ReadResult M who (P s)) s := by
  refine .attemptBind ((hop s h).calm ?_)
  rintro r s1 - hs1 ⟨h1, hr⟩
  match r, hr with
  | .ok a, ha => exact .pure fun s2 ho _ => ⟨h1.others ho, hP' _ _ _ _ ha ho.calm⟩
  | .error e, herr =>
    show IoSafe _ _ (if isNotFound e then _ else _) _ _
    split
    · exact .readBind (cacheClear_safe h1) False.elim fun _ s2 hs2 h2 _ =>
        .readMono (hop s2 h2) id fun _ _ _ _ ha => hP _ _ _ (hs1.trans hs2) ha
    · exact .fail fun s2 ho _ => ⟨h1.others ho, herr⟩

theorem Seen.early {key : Key} {s1 : State} (hc : Calm M who s s1)
    (h : Seen M who key y s1 s') : Seen M who key y s s' := by
  obtain ⟨s2, h2, hs2, hs', hor⟩ := h
  exact ⟨s2, h2, hc.trans hs2, hs', hor⟩

theorem Seen.late {key : Key} {s1 : State} (h : Seen M who key y s s1)
    (hc : Calm M who s1 s') : Seen M who key y s s' := by
  obtain ⟨s2, h2, hs2, hs', hor⟩ := h
  refine ⟨s2, h2, hs2, hs'.trans hc, hor.imp id fun ⟨hnone, s3, h3, hs3, hs4, hy⟩ => ?_⟩
  exact ⟨hnone, s3, h3, hs3, hs4.trans hc, hy⟩

theorem getBytes_safe (hcr : cx.crates = M.cr) (h : Reading M who s) (key : Key) :
    IoSafe (readRules M) who (getBytes cx key)
      (ReadResult M who fun y s' => Seen M who key y s s') s := by
  refine retryOnceNotFound_safe (P := fun s y s' => Seen M who key y s s') h (fun s0 h0 => ?_)
    (fun _ _ _ => Seen.early) (fun _ _ _ _ => Seen.late)
  refine .bind (.act (readStep (fun _ _ => rfl) fun s1 hs1 hi1 c r t _ hx => ?_))
  dsimp only [exec] at hx
  simp only [Option.some.injEq, Prod.mk.injEq] at hx
  obtain ⟨hmem, rfl⟩ := hx
  have h1 := h0.others hs1
  refine ⟨.idle, fun s2 hs2 _ => ?_⟩
  have h2 := h1.others hs2
  match r with
  | some hit =>
    have hread := hi1.readable_mem (M := M) who.inst key
    rw [hmem] at hread
    have hg := hs2.calm.grows hi1
    exact .readMono (resolveHit_safe hcr h2 (hread.mono hg)) (.imp id .inl) fun y s3 hs3 _ hy =>
      ⟨s1, h1, hs1.calm, hs2.calm.trans hs3, .inl ⟨hit, hmem, Shows.back hy hg hread⟩⟩
  | none =>
    exact .readMono (pointLookup_files hcr h2 key) id fun y s3 hs3 _ ⟨s4, h4, hs4, hs5, hy⟩ =>
      ⟨s1, h1, hs1.calm, hs2.calm.trans hs3,
        .inr ⟨hmem, s4, h4, hs2.calm.trans hs4, hs5, hy⟩⟩

/-- Alone, a read sees the newest entry of MemTable and files. -/
theorem Seen.alone (hs : M.solo) (hi : Inv M.toTrack s.1 s.2) {key : Key}
    (h : Seen M who key y s s') : M.Shows s.1 (liveHit M.cr s.1 who.inst key) y := by
  obtain ⟨s1, h1, hs1, -, hor⟩ := h
  have hmem : (s1.1.inst who.inst).mem = (s.1.inst who.inst).mem := by
    obtain ⟨c, f, hc⟩ := (hs1.still hi hs).inst who.inst
    rw [hc]
  unfold liveHit
  rw [← hmem]
  rcases hor with ⟨x, hx, hy⟩ | ⟨hnone, s2, h2, hs2, -, hy⟩
  · rw [hx, Option.some_or]
    have hread := hi.readable_mem (M := M) who.inst key
    rw [← hmem, hx] at hread
    exact Shows.back hy (hs1.grows hi) hread
  · have hc : Calm M who s s2 := hs1.trans hs2
    have hg := hc.grows hi
    have hsst : sstHit M.cr s2.1 key = sstHit M.cr s.1 key := by
      unfold sstHit
      have hman : s2.1.manifest = s.1.manifest := manifest_eq (by rw [(hc.still hi hs).st])
      rw [hman]
      exact view_grows hg hi.store.listOk.ssts key
    have hy : M.Shows s2.1 (sstHit M.cr s2.1 key) y := hy
    rw [hsst] at hy
    rw [hnone, Option.none_or]
    exact Shows.back hy hg (hi.readable_view hi.store.listOk.ssts key)

end OxKv
