import OxKv.Engine.Maintain

/-!
The listed SST files as one newest-wins map, and what a compaction does to it.

`view c sst` looks a key up in the listed files, newest first, where `c` gives
the entries of each file. `Levels` collects the order and disjointness facts of
a listing.

* `view_eq_hit`: the merged rows of the compaction inputs decide every key they
  hold, and no other listed file holds such a key;
* `view_installed`, `Levels.installed`: replacing the inputs by the merged file
  keeps the map, up to dropped tombstones, and keeps the listing well formed.
-/

namespace OxKv

open Layers

/-- The rows of each file. -/
abbrev Tables := ObjectPath → MemMap

/-- The rows of a file list, newest file first. -/
def fileRows (c : Tables) (sst : List SstMeta) : List (List Op) :=
  sst.reverse.map fun m => (c m.id).toList

/-- The newest entry for `k` in the listed files. -/
def view (c : Tables) (sst : List SstMeta) (k : Key) : Option (Option Bytes) :=
  firstHit (fileRows c sst) k

@[simp] theorem view_nil (c : Tables) (k : Key) : view c [] k = none := rfl

theorem view_append_singleton (c : Tables) (sst : List SstMeta) (m : SstMeta)
    (k : Key) : view c (sst ++ [m]) k = ((c m.id).get? k).or (view c sst k) := by
  simp only [view, fileRows, List.reverse_append, List.reverse_singleton, List.singleton_append,
    List.map_cons, firstHit_cons]
  rfl

theorem view_append (c : Tables) (a b : List SstMeta) (k : Key) :
    view c (a ++ b) k = (view c b k).or (view c a k) := by
  simp only [view, fileRows, List.reverse_append, List.map_append, firstHit_append]

variable {c : Tables} {sst : List SstMeta} {k : Key}

theorem view_eq_none : view c sst k = none ↔ ∀ m ∈ sst, (c m.id).get? k = none := by
  simp [view, fileRows, firstHit_eq_none, SortedMap.get?]

theorem view_congr {c' : Tables} (h : ∀ m ∈ sst, c m.id = c' m.id) (k : Key) :
    view c sst k = view c' sst k := by
  have hrows : fileRows c sst = fileRows c' sst := by
    apply List.map_congr_left
    intro m hm
    rw [h m (List.mem_reverse.mp hm)]
  unfold view
  rw [hrows]

/-- Order and disjointness of a listing. -/
structure Levels (c : Tables) (sst : List SstMeta) : Prop where
  /-- listed oldest first -/
  seqs : sst.Pairwise (fun a b => a.seq < b.seq)
  level : ∀ m ∈ sst, m.level = 0 ∨ m.level = 1
  /-- level 1 before level 0 -/
  order : sst.Pairwise (fun a b => a.level = 0 → b.level = 0)
  ids : ∀ m ∈ sst, ∃ e, m.id = .sst e m.level m.seq
  minKey : ∀ m ∈ sst, (c m.id).firstKey? = some m.minKey
  maxKey : ∀ m ∈ sst, (c m.id).lastKey? = some m.maxKey
  /-- no key is in two level-1 files -/
  once : ∀ a ∈ sst, ∀ b ∈ sst, a.level = 1 → b.level = 1 → a ≠ b →
    ∀ k v, (c a.id).get? k = some v → (c b.id).get? k = none

namespace Levels

variable {c : Tables} {sst : List SstMeta}

theorem nil : Levels c [] :=
  ⟨.nil, by simp, List.Pairwise.nil, by simp, by simp, by simp, by simp⟩

/-- The extreme keys bound the keys of a listed file. -/
theorem bounds (h : Levels c sst) {m : SstMeta} (hm : m ∈ sst) {k : Key} {v : Option Bytes}
    (hk : (c m.id).get? k = some v) : m.minKey ≤ k ∧ k ≤ m.maxKey :=
  ⟨SortedMap.firstKey?_le _ (h.minKey m hm) hk, SortedMap.le_lastKey? _ (h.maxKey m hm) hk⟩

theorem sublist (h : Levels c sst) {sst' : List SstMeta} (hs : sst'.Sublist sst) :
    Levels c sst' where
  seqs := h.seqs.sublist hs
  level m hm := h.level m (hs.subset hm)
  order := h.order.sublist hs
  ids m hm := h.ids m (hs.subset hm)
  minKey m hm := h.minKey m (hs.subset hm)
  maxKey m hm := h.maxKey m (hs.subset hm)
  once a ha b hb := h.once a (hs.subset ha) b (hs.subset hb)

theorem congr (h : Levels c sst) {c' : Tables} (hc : ∀ m ∈ sst, c m.id = c' m.id) :
    Levels c' sst where
  seqs := h.seqs
  level := h.level
  order := h.order
  ids := h.ids
  minKey m hm := hc m hm ▸ h.minKey m hm
  maxKey m hm := hc m hm ▸ h.maxKey m hm
  once a ha b hb h1 h2 hne k v := by
    rw [← hc a ha, ← hc b hb]
    exact h.once a ha b hb h1 h2 hne k v

/-- Different listed files have different ids. -/
theorem eq_of_id (h : Levels c sst) {a b : SstMeta} (ha : a ∈ sst) (hb : b ∈ sst)
    (hid : a.id = b.id) : a = b := by
  obtain ⟨ea, hea⟩ := h.ids a ha
  obtain ⟨eb, heb⟩ := h.ids b hb
  rw [hea, heb] at hid
  have hseq : a.seq = b.seq := by injection hid
  by_contra hne
  have hinj : sst.Pairwise (fun a b => a.seq ≠ b.seq) := h.seqs.imp (fun hab => ne_of_lt hab)
  have : Std.Symm (fun a b : SstMeta => a.seq ≠ b.seq) := ⟨fun _ _ => Ne.symm⟩
  exact hinj.forall ha hb hne hseq

/-- A flushed file goes to the end of the list. -/
theorem push (h : Levels c sst) {m : SstMeta} (hseq : ∀ x ∈ sst, x.seq < m.seq)
    (hlevel : m.level = 0) (hid : ∃ e, m.id = .sst e m.level m.seq)
    (hmin : (c m.id).firstKey? = some m.minKey) (hmax : (c m.id).lastKey? = some m.maxKey) :
    Levels c (sst ++ [m]) where
  seqs := List.pairwise_append.mpr ⟨h.seqs, by simp, by simpa using hseq⟩
  level x hx := by
    rcases List.mem_append.mp hx with hx | hx
    · exact h.level x hx
    · exact .inl (List.mem_singleton.mp hx ▸ hlevel)
  order := List.pairwise_append.mpr ⟨h.order, by simp, by simp [hlevel]⟩
  ids x hx := by
    rcases List.mem_append.mp hx with hx | hx
    · exact h.ids x hx
    · exact List.mem_singleton.mp hx ▸ hid
  minKey x hx := by
    rcases List.mem_append.mp hx with hx | hx
    · exact h.minKey x hx
    · exact List.mem_singleton.mp hx ▸ hmin
  maxKey x hx := by
    rcases List.mem_append.mp hx with hx | hx
    · exact h.maxKey x hx
    · exact List.mem_singleton.mp hx ▸ hmax
  once a ha b hb h1 h2 hne := by
    have hin : ∀ x ∈ sst ++ [m], x.level = 1 → x ∈ sst := by
      intro x hx hx1
      rcases List.mem_append.mp hx with hx | hx
      · exact hx
      · rw [List.mem_singleton.mp hx, hlevel] at hx1
        cases hx1
    exact h.once a (hin a ha h1) b (hin b hb h2) h1 h2 hne

/-- A listing is its level-1 files followed by its level-0 files. -/
theorem split (h : Levels c sst) :
    sst = (sst.filter fun m => m.level = 1) ++ sst.filter fun m => m.level = 0 := by
  have hl := h.level
  have ho := h.order
  clear h
  induction sst with
  | nil => rfl
  | cons m sst ih =>
    obtain ⟨hm, ho⟩ := List.pairwise_cons.mp ho
    have ih := ih (fun x hx => hl x (by simp [hx])) ho
    rcases hl m (by simp) with h0 | h1
    · -- after a level-0 file there is no level-1 file
      have hnone : sst.filter (fun x => decide (x.level = 1)) = [] := by
        apply List.filter_eq_nil_iff.mpr
        intro x hx
        simp [hm x hx h0]
      rw [hnone, List.nil_append] at ih
      simp only [List.filter_cons, h0, Nat.zero_ne_one, decide_false, Bool.false_eq_true, if_false,
        decide_true, if_true, hnone, List.nil_append]
      rw [← ih]
    · simp only [List.filter_cons, h1, decide_true, if_true, Nat.one_ne_zero, decide_false,
        Bool.false_eq_true, if_false, List.cons_append]
      rw [← ih]

end Levels

/-! ## The inputs of a compaction -/

theorem leastKey_le {ks : List Key} (h : k ∈ ks) : leastKey ks ≤ k := by
  unfold leastKey
  cases hm : ks.min? with
  | none => rw [List.min?_eq_none_iff.mp hm] at h; cases h
  | some a => exact (List.min?_eq_some_iff.mp hm).2 k h

theorem le_greatestKey {ks : List Key} (h : k ∈ ks) : k ≤ greatestKey ks := by
  unfold greatestKey
  cases hm : ks.max? with
  | none => rw [List.max?_eq_none_iff.mp hm] at h; cases h
  | some a => exact (List.max?_eq_some_iff.mp hm).2 k h

/-- A fold that pushes some of the elements pushes a sublist. -/
theorem foldl_push (p : List SstMeta → SstMeta → Prop) [∀ acc m, Decidable (p acc m)]
    (l acc : List SstMeta) : ∃ t, t.Sublist l ∧
      l.foldl (fun acc m => if p acc m then acc ++ [m] else acc) acc = acc ++ t := by
  induction l generalizing acc with
  | nil => exact ⟨[], List.Sublist.refl _, by simp⟩
  | cons x l ih =>
    by_cases hp : p acc x
    · obtain ⟨t, ht, heq⟩ := ih (acc ++ [x])
      exact ⟨x :: t, ht.cons_cons x, by simp [hp, heq]⟩
    · obtain ⟨t, ht, heq⟩ := ih acc
      exact ⟨t, ht.cons x, by simp [hp, heq]⟩

theorem foldPair_eq (l1 chosen : List SstMeta) :
    ∃ t, t.Sublist l1 ∧ foldPair l1 chosen = chosen ++ t := by
  unfold foldPair
  dsimp only
  split
  · exact ⟨[], List.nil_sublist _, by simp⟩
  · exact foldl_push _ l1 chosen

variable {l0 l1 : List SstMeta} {m : SstMeta}

theorem mem_overlapping (hm : m ∈ l1) (hmin : m.minKey ≤ k) (hmax : k ≤ m.maxKey)
    (hlo : leastKey (l0.map SstMeta.minKey) ≤ k) (hhi : k ≤ greatestKey (l0.map SstMeta.maxKey)) :
    m ∈ overlapping l0 l1 := by
  simp only [overlapping, List.mem_filter, not_or, not_lt, decide_eq_true_eq]
  exact ⟨hm, le_trans hlo hmax, le_trans hmin hhi⟩

theorem mem_chosenL1 (hm : m ∈ overlapping l0 l1) : m ∈ chosenL1 l0 l1 := by
  obtain ⟨t, -, hfold⟩ := foldPair_eq l1 (overlapping l0 l1)
  unfold chosenL1
  split
  · rw [List.mem_insertionSort, hfold]
    exact List.mem_append_left _ hm
  · exact hm

theorem chosenL1_subset (hm : m ∈ chosenL1 l0 l1) : m ∈ l1 := by
  obtain ⟨t, ht, hfold⟩ := foldPair_eq l1 (overlapping l0 l1)
  unfold chosenL1 at hm
  split at hm
  · rw [List.mem_insertionSort, hfold] at hm
    rcases List.mem_append.mp hm with hm | hm
    · exact List.mem_of_mem_filter hm
    · exact ht.subset hm
  · exact List.mem_of_mem_filter hm

theorem compactionInputs_eq (h : compactionInputs sst = some (l0, l1)) :
    l0 = (sst.filter fun m => m.level = 0) ∧
      l1 = chosenL1 (sst.filter fun m => m.level = 0) (sst.filter fun m => m.level = 1) := by
  unfold compactionInputs at h
  dsimp only at h
  split at h
  · cases h
  split at h
  · cases h
  · injection h with h
    injection h with h0 h1
    exact ⟨h0.symm, h1.symm⟩

/-! ## What a compaction keeps -/

theorem view_eq_some_of_unique {v : Option Bytes} (hm : m ∈ sst) (hv : (c m.id).get? k = some v)
    (huniq : ∀ x ∈ sst, ∀ u, (c x.id).get? k = some u → x = m) : view c sst k = some v := by
  induction sst using List.reverseRecOn with
  | nil => cases hm
  | append_singleton sst x ih =>
    rw [view_append_singleton]
    cases hx : (c x.id).get? k with
    | some u =>
      rw [huniq x (by simp) u hx, hv] at hx
      rw [← hx, Option.some_or]
    | none =>
      rw [Option.none_or]
      rcases List.mem_append.mp hm with hm | hm
      · exact ih hm (fun y hy => huniq y (by simp [hy]))
      · rw [← List.mem_singleton.mp hm, hv] at hx
        cases hx

theorem view_filter (p : SstMeta → Bool) (sst : List SstMeta)
    (h : ∀ m ∈ sst, p m = false → (c m.id).get? k = none) :
    view c (sst.filter p) k = view c sst k := by
  induction sst using List.reverseRecOn with
  | nil => rfl
  | append_singleton sst x ih =>
    have ih := ih (fun m hm => h m (by simp [hm]))
    rw [List.filter_append, view_append, ih, view_append_singleton]
    cases hp : p x with
    | true => simp [hp, view, fileRows, firstHit_cons, SortedMap.get?]
    | false => simp [hp, h x (by simp) hp]

theorem mem_of_view {v : Option Bytes} (h : view c sst k = some v) :
    ∃ m ∈ sst, (c m.id).get? k = some v := by
  induction sst using List.reverseRecOn with
  | nil => cases h
  | append_singleton sst x ih =>
    rw [view_append_singleton] at h
    cases hx : (c x.id).get? k with
    | some u =>
      rw [hx, Option.some_or] at h
      exact ⟨x, by simp, hx.trans h⟩
    | none =>
      rw [hx, Option.none_or] at h
      obtain ⟨m, hm, hv⟩ := ih h
      exact ⟨m, by simp [hm], hv⟩

section Compaction

variable {c : Tables} {sst l0 l1 : List SstMeta}

variable {m : SstMeta}

theorem inputs_subset (hin : compactionInputs sst = some (l0, l1)) (hm : m ∈ l1 ++ l0) :
    m ∈ sst := by
  obtain ⟨rfl, rfl⟩ := compactionInputs_eq hin
  rcases List.mem_append.mp hm with hm | hm
  · exact List.mem_of_mem_filter (chosenL1_subset hm)
  · exact List.mem_of_mem_filter hm

/-- A listed file stays exactly when it is not an input. -/
theorem mem_withoutInputs (h : Levels c sst) {inputs : List SstMeta} (hsub : ∀ m ∈ inputs, m ∈ sst) :
    m ∈ withoutInputs inputs sst ↔ m ∈ sst ∧ m ∉ inputs := by
  simp only [withoutInputs, List.mem_filter, List.any_eq_true, decide_eq_true_eq, not_exists,
    not_and]
  refine and_congr_right fun hm => ⟨fun hno hin => hno m hin rfl, fun hno x hx hid => ?_⟩
  exact hno (h.eq_of_id (hsub x hx) hm hid ▸ hx)

theorem mem_rest (h : Levels c sst) (hin : compactionInputs sst = some (l0, l1)) :
    m ∈ withoutInputs (l0 ++ l1) sst ↔ m ∈ sst ∧ m ∉ l0 ∧ m ∉ l1 := by
  rw [mem_withoutInputs h (fun m hm => inputs_subset hin (by
    rw [List.mem_append] at hm ⊢; exact hm.symm))]
  simp

/-- Only level-1 files are left beside the inputs. -/
theorem rest_level (h : Levels c sst) (hin : compactionInputs sst = some (l0, l1))
    (hm : m ∈ withoutInputs (l0 ++ l1) sst) : m.level = 1 := by
  obtain ⟨hm, h0, -⟩ := (mem_rest h hin).mp hm
  rcases h.level m hm with hl | hl
  · rw [(compactionInputs_eq hin).1] at h0
    exact absurd (List.mem_filter.mpr ⟨hm, by simpa using hl⟩) h0
  · exact hl

/-- A key of an input is in no file that stays. -/
theorem rest_get_none (h : Levels c sst) (hin : compactionInputs sst = some (l0, l1)) {x : SstMeta}
    (hx : x ∈ l1 ++ l0) (hm : m ∈ withoutInputs (l0 ++ l1) sst) {k : Key} {v : Option Bytes}
    (hk : (c x.id).get? k = some v) : (c m.id).get? k = none := by
  have hm1 := rest_level h hin hm
  obtain ⟨hms, -, hml1⟩ := (mem_rest h hin).mp hm
  have hxs := inputs_subset hin hx
  cases hmk : (c m.id).get? k with
  | none => rfl
  | some u =>
    exfalso
    obtain ⟨hl0, hl1⟩ := compactionInputs_eq hin
    rcases List.mem_append.mp hx with hx | hx
    · -- two level-1 files never share a key
      have hx1 : x.level = 1 := by
        rw [hl1] at hx
        simpa using (List.mem_filter.mp (chosenL1_subset hx)).2
      have hne : x ≠ m := fun heq => hml1 (heq ▸ hx)
      rw [h.once x hxs m hms hx1 hm1 hne k v hk] at hmk
      cases hmk
    · -- a level-1 file that shares a key with level 0 is an input
      apply hml1
      rw [hl1]
      obtain ⟨hlo, hhi⟩ := h.bounds hxs hk
      obtain ⟨hmlo, hmhi⟩ := h.bounds hms hmk
      rw [← hl0]
      exact mem_chosenL1 (mem_overlapping (by simp [hms, hm1]) hmlo hmhi
        (le_trans (leastKey_le (List.mem_map_of_mem hx)) hlo)
        (le_trans hhi (le_greatestKey (List.mem_map_of_mem hx))))

/-- The rows a compaction merges, newest first. -/
def hit (c : Tables) (l0 l1 : List SstMeta) (k : Key) : Option (Option Bytes) :=
  firstHit ((l0.reverse ++ l1.reverse).map fun m => (c m.id).toList) k

theorem hit_eq (c : Tables) (l0 l1 : List SstMeta) (k : Key) :
    hit c l0 l1 k = view c (l1 ++ l0) k := by
  simp only [hit, view, fileRows, List.reverse_append]

theorem view_rest_of_hit (h : Levels c sst) (hin : compactionInputs sst = some (l0, l1)) {k : Key}
    {v : Option Bytes} (hk : hit c l0 l1 k = some v) :
    view c (withoutInputs (l0 ++ l1) sst) k = none := by
  rw [hit_eq] at hk
  obtain ⟨x, hx, hxk⟩ := mem_of_view hk
  exact view_eq_none.mpr fun m hm => rest_get_none h hin hx hm hxk

/-- The inputs decide the keys they hold, the files that stay decide the others. -/
theorem view_eq_hit (h : Levels c sst) (hin : compactionInputs sst = some (l0, l1)) (k : Key) :
    view c sst k = (hit c l0 l1 k).or (view c (withoutInputs (l0 ++ l1) sst) k) := by
  obtain ⟨hl0, hl1⟩ := compactionInputs_eq hin
  have hsplit : view c sst k = (view c l0 k).or (view c (sst.filter fun m => m.level = 1) k) := by
    conv_lhs => rw [h.split]
    rw [view_append, ← hl0]
  rw [hit_eq, view_append]
  cases h0 : view c l0 k with
  | some v => rw [hsplit, h0]; rfl
  | none =>
    rw [Option.none_or]
    cases h1 : view c l1 k with
    | some v =>
      obtain ⟨m, hm, hmk⟩ := mem_of_view h1
      have hmf : m ∈ sst.filter fun m => m.level = 1 := by
        rw [hl1] at hm
        exact chosenL1_subset hm
      rw [hsplit, h0, Option.none_or, Option.some_or]
      refine view_eq_some_of_unique hmf hmk fun x hx u hxk => ?_
      by_contra hne
      simp only [List.mem_filter, decide_eq_true_eq] at hx hmf
      rw [h.once m hmf.1 x hx.1 hmf.2 hx.2 (Ne.symm hne) k v hmk] at hxk
      cases hxk
    | none =>
      rw [Option.none_or, withoutInputs, view_filter]
      intro m _ hdrop
      -- a dropped file is an input, and no input holds the key
      simp only [decide_eq_false_iff_not, not_not, List.any_eq_true, decide_eq_true_eq] at hdrop
      obtain ⟨x, hx, hid⟩ := hdrop
      rw [← hid]
      rcases List.mem_append.mp hx with hx | hx
      · exact view_eq_none.mp h0 x hx
      · exact view_eq_none.mp h1 x hx

theorem Levels.rest (h : Levels c sst) (inputs : List SstMeta) :
    Levels c (withoutInputs inputs sst) :=
  h.sublist List.filter_sublist

variable {entry : SstMeta}

theorem installed_eq (h : Levels c sst) {inputs : List SstMeta}
    (hseq : ∀ x ∈ sst, x.seq < entry.seq) :
    installed inputs entry sst = withoutInputs inputs sst ++ [entry] := by
  have hsorted : (withoutInputs inputs sst ++ [entry]).Pairwise (fun a b => a.seq ≤ b.seq) := by
    refine List.pairwise_append.mpr ⟨(h.rest inputs).seqs.imp le_of_lt, by simp, ?_⟩
    intro x hx y hy
    rw [List.mem_singleton.mp hy]
    exact le_of_lt (hseq x (List.mem_of_mem_filter hx))
  exact hsorted.insertionSort_eq

/-- The merged file joins the listing at the end. -/
theorem Levels.installed (h : Levels c sst) (hin : compactionInputs sst = some (l0, l1))
    (hseq : ∀ x ∈ sst, x.seq < entry.seq) (hlevel : entry.level = 1)
    (hid : ∃ e, entry.id = .sst e entry.level entry.seq)
    (hmin : (c entry.id).firstKey? = some entry.minKey)
    (hmax : (c entry.id).lastKey? = some entry.maxKey)
    (hkeys : ∀ k v, (c entry.id).get? k = some v → hit c l0 l1 k ≠ none) :
    Levels c (installed (l0 ++ l1) entry sst) := by
  rw [installed_eq h hseq]
  have hrest := h.rest (l0 ++ l1)
  have hone : ∀ m ∈ withoutInputs (l0 ++ l1) sst, ∀ k v, (c entry.id).get? k = some v →
      (c m.id).get? k = none := by
    intro m hm k v hk
    obtain ⟨u, hu⟩ := Option.ne_none_iff_exists'.mp (hkeys k v hk)
    exact view_eq_none.mp (view_rest_of_hit h hin hu) m hm
  have hmem : ∀ m ∈ withoutInputs (l0 ++ l1) sst ++ [entry],
      m ∈ withoutInputs (l0 ++ l1) sst ∨ m = entry := by simp
  constructor
  · refine List.pairwise_append.mpr ⟨hrest.seqs, by simp, ?_⟩
    intro x hx y hy
    rw [List.mem_singleton.mp hy]
    exact hseq x (List.mem_of_mem_filter hx)
  · intro m hm
    rcases hmem m hm with hm | rfl
    · exact hrest.level m hm
    · exact .inr hlevel
  · refine List.pairwise_append.mpr ⟨hrest.order, by simp, ?_⟩
    intro x hx y _ hx0
    rw [rest_level h hin hx] at hx0
    cases hx0
  · intro m hm
    rcases hmem m hm with hm | rfl
    · exact hrest.ids m hm
    · exact hid
  · intro m hm
    rcases hmem m hm with hm | rfl
    · exact hrest.minKey m hm
    · exact hmin
  · intro m hm
    rcases hmem m hm with hm | rfl
    · exact hrest.maxKey m hm
    · exact hmax
  · intro a ha b hb h1 h2 hne k v hk
    rcases hmem a ha with ha' | rfl
    · rcases hmem b hb with hb' | rfl
      · exact hrest.once a ha' b hb' h1 h2 hne k v hk
      · by_contra hbk
        obtain ⟨u, hu⟩ := Option.ne_none_iff_exists'.mp hbk
        rw [hone a ha' k u hu] at hk
        cases hk
    · rcases hmem b hb with hb' | rfl
      · exact hone b hb' k v hk
      · exact absurd rfl hne

theorem view_installed (h : Levels c sst) (hseq : ∀ x ∈ sst, x.seq < entry.seq)
    (inputs : List SstMeta) (k : Key) :
    view c (installed inputs entry sst) k =
      ((c entry.id).get? k).or (view c (withoutInputs inputs sst) k) := by
  rw [installed_eq h hseq, view_append_singleton]

end Compaction

end OxKv
