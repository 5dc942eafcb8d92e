import OxKv.Runs.Recency

/-!
Level 1 over whole runs: how many files it has and whether their key ranges meet.

The number of level-1 files stays bounded, because a compaction that finds
the limit reached always folds files of level 1. The ranges stay apart as long
as no merge straddles a file it leaves out: the fold adds a pair of neighbours that
need not lie near the level-0 files, and the range of the merged file covers all
that lies between.

* `MergeClear`: a merge that straddles no file it leaves out;
* `level_one_runs`: the bound, and exactly when the ranges stay apart.
-/

namespace OxKv

/-! ## Listings -/

def levelOne (sst : List SstMeta) : List SstMeta := sst.filter fun m => m.level = 1

/-- The key ranges of two files do not meet. -/
def Apart (x y : SstMeta) : Prop := x.maxKey < y.minKey ∨ y.maxKey < x.minKey

instance : DecidableRel Apart := fun _ _ => inferInstanceAs (Decidable (_ ∨ _))

def RunsApart (sst : List SstMeta) : Prop := (levelOne sst).Pairwise Apart

instance (sst : List SstMeta) : Decidable (RunsApart sst) :=
  inferInstanceAs (Decidable (List.Pairwise _ _))

/-- The compaction of this listing merges no two live keys with a file between them, or
around one of them, that stays listed. -/
def MergeClear (c : Tables) (sst : List SstMeta) : Prop :=
  ∀ l0 l1, compactionInputs sst = some (l0, l1) → ∀ m ∈ withoutInputs (l0 ++ l1) sst,
    ∀ a b u v, hit c l0 l1 a = some (some u) → hit c l0 l1 b = some (some v) →
      m.maxKey < a ∨ b < m.minKey

/-- The file list of an event that publishes a manifest. -/
def listing? : Who × What → Option (List SstMeta)
  | (_, .stored .manifest (.manifest m) _) => some m.sst
  | _ => none

def listings (h : History) : List (List SstMeta) := h.filterMap listing?

/-- Every merge of a history was clear of the files it left out. -/
def MergesClear (cr : Crates) : History → Prop
  | [] => True
  | (_, .stored .manifest (.manifest m) _) :: h =>
    ((∃ x ∈ levelOne m.sst, x ∉ listedFiles h) →
      MergeClear (content cr (archived (stores h))) (listedFiles h)) ∧ MergesClear cr h
  | _ :: h => MergesClear cr h

theorem levelOne_append (a b : List SstMeta) : levelOne (a ++ b) = levelOne a ++ levelOne b :=
  List.filter_append ..

theorem RunsApart.sublist {a b : List SstMeta} (h : RunsApart b) (hs : a.Sublist b) : RunsApart a :=
  List.Pairwise.sublist (hs.filter _) h

/-- A level-1 file that joins the listing must stay clear of the others. -/
theorem runsApart_push {rest : List SstMeta} {entry : SstMeta} (hlevel : entry.level = 1)
    (hrest : RunsApart rest) :
    RunsApart (rest ++ [entry]) ↔ ∀ m ∈ levelOne rest, Apart m entry := by
  have hone : levelOne [entry] = [entry] := by simp [levelOne, hlevel]
  unfold RunsApart at *
  rw [levelOne_append, hone, List.pairwise_append]
  simp [hrest]

section History

variable {cr : Crates} {h t : History}

theorem listings_append (ht : ∀ x ∈ t, x.2.Unlisting) : listings (t ++ h) = listings h := by
  have hnil : t.filterMap listing? = [] := List.filterMap_eq_nil_iff.mpr fun x hx => by
    unfold listing?
    split
    · exact absurd rfl (ht _ hx _ _)
    · rfl
  rw [listings, List.filterMap_append, hnil]
  rfl

theorem mergesClear_append (ht : ∀ x ∈ t, x.2.Unlisting) :
    MergesClear cr (t ++ h) ↔ MergesClear cr h := by
  induction t with
  | nil => rfl
  | cons x t ih =>
    rw [← ih fun y hy => ht y (by simp [hy])]
    have hx := ht x (by simp)
    obtain ⟨who, e⟩ := x
    cases e with
    | stored p o e =>
      cases p with
      | manifest => exact absurd rfl (hx o e)
      | _ => rfl
    | _ => rfl

end History

/-! ## The number of files -/

theorem smallestPair_mem {ps : List (SstMeta × SstMeta)} {p : SstMeta × SstMeta}
    (h : smallestPair ps = some p) : p ∈ ps := by
  induction ps generalizing p with
  | nil => cases h
  | cons q ps ih =>
    unfold smallestPair at h
    split at h
    · cases h
      exact List.mem_cons_self
    · split at h
      · cases h
        exact List.mem_cons_of_mem _ (ih ‹_›)
      · cases h
        exact List.mem_cons_self

theorem smallestPair_ne_none {ps : List (SstMeta × SstMeta)} (h : ps ≠ []) :
    smallestPair ps ≠ none := by
  cases ps with
  | nil => exact absurd rfl h
  | cons q ps =>
    unfold smallestPair
    split
    · nofun
    · split <;> nofun

/-- The fold takes a file that it asks for. -/
theorem foldPush_ne_nil {q : SstMeta → Prop} [DecidablePred q] {l : List SstMeta} {m : SstMeta}
    (hm : m ∈ l) (hq : q m) (acc : List SstMeta) :
    l.foldl (fun acc x => if q x ∧ ¬ acc.any (fun y => y.id = x.id) then acc ++ [x] else acc) acc ≠
      [] := by
  obtain ⟨a, b, rfl⟩ := List.append_of_mem hm
  rw [List.foldl_append, List.foldl_cons]
  generalize List.foldl _ acc a = acc'
  obtain ⟨t, -, ht⟩ := foldl_push (fun acc x => q x ∧ ¬ acc.any (fun y => y.id = x.id)) b
    (if q m ∧ ¬ acc'.any (fun y => y.id = m.id) then acc' ++ [m] else acc')
  rw [ht]
  split
  · simp
  · next hno =>
    rintro hnil
    rw [(List.append_eq_nil_iff.mp hnil).1] at hno
    exact hno ⟨hq, by simp⟩

theorem foldPair_ne_nil {l1 chosen : List SstMeta} (hkeys : ∀ m ∈ l1, m.minKey ≤ m.maxKey)
    (hlen : 2 ≤ l1.length) : foldPair l1 chosen ≠ [] := by
  unfold foldPair
  dsimp only
  have hsorted := List.length_insertionSort (fun a b : SstMeta => a.minKey ≤ b.minKey) l1
  have hmem : ∀ m, m ∈ l1.insertionSort (fun a b => a.minKey ≤ b.minKey) → m ∈ l1 := fun m hm =>
    (List.mem_insertionSort _).mp hm
  generalize l1.insertionSort (fun a b => a.minKey ≤ b.minKey) = byMin at hsorted hmem
  split
  · next hnone =>
    refine absurd hnone (smallestPair_ne_none fun hnil => ?_)
    have := congrArg List.length hnil
    rw [List.length_zip, List.length_tail, List.length_nil] at this
    omega
  · next a b hpair =>
    have ha := hmem a (List.of_mem_zip (smallestPair_mem hpair)).1
    have hle := hkeys a ha
    -- the first file of the pair lies in the range of the pair
    have hin : min a.minKey b.minKey ≤ a.maxKey ∧ a.minKey ≤ max a.maxKey b.maxKey :=
      ⟨(min_le_left _ _).trans hle, hle.trans (le_max_left _ _)⟩
    have := foldPush_ne_nil
      (q := fun m => min a.minKey b.minKey ≤ m.maxKey ∧ m.minKey ≤ max a.maxKey b.maxKey) ha hin chosen
    simpa only [and_assoc] using this

section Compaction

variable {c : Tables} {sst l0 l1 : List SstMeta}

theorem Levels.minKey_le_maxKey (h : Levels c sst) {m : SstMeta} (hm : m ∈ sst) :
    m.minKey ≤ m.maxKey := by
  obtain ⟨v, hv⟩ := SortedMap.get?_firstKey? _ (h.minKey m hm)
  exact (h.bounds hm hv).2

/-- With the limit reached, a compaction takes files of level 1. -/
theorem inputs_of_full (h : Levels c sst) (hin : compactionInputs sst = some (l0, l1))
    (hfull : l1MergeCount ≤ (levelOne sst).length) : ∃ x ∈ levelOne sst, x ∈ l1 := by
  have hne : l1 ≠ [] := by
    rw [(compactionInputs_eq hin).2, chosenL1]
    change (if l1MergeCount ≤ (levelOne sst).length then _ else _) ≠ _
    rw [if_pos hfull]
    intro hnil
    have hlen := congrArg List.length hnil
    rw [List.length_insertionSort, List.length_nil, List.length_eq_zero_iff] at hlen
    exact foldPair_ne_nil (fun m hm => h.minKey_le_maxKey (List.mem_of_mem_filter hm))
      (le_trans (by decide) hfull) hlen
  obtain ⟨x, hx⟩ := List.exists_mem_of_ne_nil _ hne
  refine ⟨x, ?_, hx⟩
  rw [(compactionInputs_eq hin).2] at hx
  exact chosenL1_subset hx

/-- A compaction leaves room for the merged file. -/
theorem levelOne_rest_lt (h : Levels c sst) (hin : compactionInputs sst = some (l0, l1))
    (hle : (levelOne sst).length ≤ l1MergeCount) :
    (levelOne (withoutInputs (l0 ++ l1) sst)).length < l1MergeCount := by
  have hsub : (levelOne (withoutInputs (l0 ++ l1) sst)).Sublist (levelOne sst) :=
    List.filter_sublist.filter _
  rcases Nat.lt_or_ge (levelOne sst).length l1MergeCount with hlt | hfull
  · exact lt_of_le_of_lt hsub.length_le hlt
  · refine lt_of_lt_of_le (lt_of_le_of_ne hsub.length_le fun heq => ?_) hle
    obtain ⟨x, hx, hx1⟩ := inputs_of_full h hin hfull
    rw [← hsub.eq_of_length heq] at hx
    exact ((mem_rest h hin).mp (List.mem_of_mem_filter hx)).2.2 hx1

end Compaction

/-! ## Runs -/

section Runs

variable {M : Mode} {who : Who} {s s' : State} {cr : Crates}

/-- The merged file stays clear of the others exactly when the merge does. -/
theorem HoldsMerge.apart_iff {l0 l1 : List SstMeta} {entry : SstMeta} (hi : Inv M.toTrack s.1 s.2)
    (hin : compactionInputs s.1.manifest.sst = some (l0, l1)) (hentry : NewEntry M who s.1 1 entry)
    (hmerge : HoldsMerge M s.1 entry.id l0 l1) :
    (∀ m ∈ levelOne (withoutInputs (l0 ++ l1) s.1.manifest.sst), Apart m entry) ↔
      MergeClear (content M.cr s.1.archive) s.1.manifest.sst := by
  have hlv := hi.store.listOk.levels
  -- the keys of the new file are the live keys of the merge
  have hlive : ∀ k x, (content M.cr s.1.archive entry.id).get? k = some x →
      ∃ u, hit (content M.cr s.1.archive) l0 l1 k = some (some u) := by
    intro k x hk
    have hm := hmerge k
    split at hm
    · exact ⟨_, ‹_›⟩
    · rw [hm] at hk
      cases hk
  have hkept : ∀ k u, hit (content M.cr s.1.archive) l0 l1 k = some (some u) →
      entry.minKey ≤ k ∧ k ≤ entry.maxKey := by
    intro k u hk
    have hm := hmerge k
    rw [hk] at hm
    obtain ⟨raw, hraw, -⟩ := hm
    exact ⟨SortedMap.firstKey?_le _ hentry.minKey hraw, SortedMap.le_lastKey? _ hentry.maxKey hraw⟩
  constructor
  · intro h l0' l1' hin' m hm a b u v ha hb
    cases hin.symm.trans hin'
    have hm1 : m ∈ levelOne (withoutInputs (l0 ++ l1) s.1.manifest.sst) :=
      List.mem_filter.mpr ⟨hm, by simpa using rest_level hlv hin hm⟩
    exact (h m hm1).imp (fun hlt => lt_of_lt_of_le hlt (hkept a u ha).1)
      fun hlt => lt_of_le_of_lt (hkept b v hb).2 hlt
  · intro h m hm
    obtain ⟨x, hx⟩ := SortedMap.get?_firstKey? _ hentry.minKey
    obtain ⟨y, hy⟩ := SortedMap.get?_lastKey? _ hentry.maxKey
    obtain ⟨u, hu⟩ := hlive _ _ hx
    obtain ⟨v, hv⟩ := hlive _ _ hy
    exact h l0 l1 hin m (List.mem_of_mem_filter hm) _ _ u v hu hv

/-- What is known of level 1 in a run. -/
structure LevelOne (cr : Crates) (w : World) : Prop where
  bounded : ∀ sst ∈ listings w.hist, (levelOne sst).length ≤ l1MergeCount
  now : (levelOne w.manifest.sst).length ≤ l1MergeCount
  apart : (∀ sst ∈ listings w.hist, RunsApart sst) ↔ MergesClear cr w.hist
  runs : (∀ sst ∈ listings w.hist, RunsApart sst) → RunsApart w.manifest.sst

/-- A manifest is published. -/
theorem LevelOne.write {w : World} (hl : LevelOne cr w) {m : Manifest}
    (hle : (levelOne m.sst).length ≤ l1MergeCount)
    (hclear : RunsApart w.manifest.sst → (RunsApart m.sst ↔
      ((∃ x ∈ levelOne m.sst, x ∉ listedFiles w.hist) →
        MergeClear (content cr w.archive) (listedFiles w.hist)))) :
    LevelOne cr (w.write who .manifest (.manifest m)) := by
  have hman : (w.write who .manifest (.manifest m)).manifest = m := manifest_write ..
  have hall : ∀ P : List SstMeta → Prop,
      (∀ sst ∈ listings (w.write who .manifest (.manifest m)).hist, P sst) ↔
        P m.sst ∧ ∀ sst ∈ listings w.hist, P sst := fun P => List.forall_mem_cons
  refine ⟨(hall _).mpr ⟨hle, hl.bounded⟩, by rw [hman]; exact hle, ?_, ?_⟩
  · rw [hall]
    constructor
    · rintro ⟨hm, hold⟩
      exact ⟨(hclear (hl.runs hold)).mp hm, hl.apart.mp hold⟩
    · rintro ⟨hm, hclears⟩
      have hold := hl.apart.mpr hclears
      exact ⟨(hclear (hl.runs hold)).mpr hm, hold⟩
  · rw [hall, hman]
    exact And.left

theorem LevelOne.step (hl : LevelOne M.cr s.1) (hd : Dated M.cr who.inst s)
    (hi : Inv M.toTrack s.1 s.2) (he : Effect M who s s') : LevelOne M.cr s'.1 := by
  have hlv := hi.store.listOk.levels
  rcases he.relists with ⟨hlook, t, ht, hall⟩ | ⟨m, hw, -, hre⟩
  · have hman := manifest_eq hlook
    refine ⟨?_, by rw [hman]; exact hl.now, ?_, ?_⟩
    · rw [ht, listings_append hall]
      exact hl.bounded
    · rw [ht, listings_append hall, mergesClear_append hall]
      exact hl.apart
    · rw [ht, listings_append hall, hman]
      exact hl.runs
  · rw [hw]
    -- without a new level-1 file nothing can meet
    have hshrink : (levelOne m.sst).Sublist (levelOne s.1.manifest.sst) →
        LevelOne M.cr (s.1.write who .manifest (.manifest m)) := fun hsub =>
      hl.write (hsub.length_le.trans hl.now) fun hap =>
        ⟨fun _ ⟨x, hx, hno⟩ => absurd (hd.listed ▸ List.mem_of_mem_filter (hsub.subset hx)) hno,
          fun _ => List.Pairwise.sublist hsub hap⟩
    generalize hsst : m.sst = sst at hre
    cases hre with
    | same => exact hshrink (hsst ▸ List.Sublist.refl _)
    | drop l0 l1 hin => exact hshrink (hsst ▸ List.filter_sublist.filter _)
    | flush entry snap n _ hentry _ _ =>
      refine hshrink ?_
      rw [hsst, levelOne_append]
      simp [levelOne, hentry.levelEq]
    | merge l0 l1 entry hin hentry hmerge =>
      rw [installed_eq hlv hentry.above] at hsst
      refine hl.write ?_ fun hap => ?_
      · rw [hsst, levelOne_append, List.length_append]
        have := levelOne_rest_lt hlv hin hl.now
        have : (levelOne [entry]).length ≤ 1 := List.length_filter_le ..
        omega
      · have hrest : RunsApart (withoutInputs (l0 ++ l1) s.1.manifest.sst) :=
          hap.sublist List.filter_sublist
        rw [hsst, runsApart_push hentry.levelEq hrest, hmerge.apart_iff hi hin hentry, hd.listed]
        refine ⟨fun h _ => h, fun h => h ⟨entry, ?_, fun hmem => ?_⟩⟩
        · rw [levelOne_append]
          simp [levelOne, hentry.levelEq]
        · exact absurd (hentry.above entry hmem) (lt_irrefl _)

end Runs

/-- In every run of successive owners level 1 has at most `l1MergeCount` files, and its
ranges stay apart exactly when every merge is clear of the files it leaves out. -/
theorem level_one_runs (cr : Crates) (lives : List Life) (hlen : lives.length < 2 ^ 64)
    (hlives : ∀ l ∈ lives, l.builder.crates = cr) :
    ∃ w, runLives 0 lives World.start = some w ∧
      (∀ sst ∈ listings w.hist, (levelOne sst).length ≤ l1MergeCount) ∧
      ((∀ sst ∈ listings w.hist, RunsApart sst) ↔ MergesClear cr w.hist) := by
  obtain ⟨w, g, hrun, -, -, hl⟩ := runLives_loose
    (P := fun i s => Dated cr i s ∧ LevelOne cr s.1) hlen hlives
    ⟨Dated.start, nofun, by decide, ⟨fun _ => trivial, fun _ => nofun⟩, fun _ => .nil⟩
    (fun i s s' ⟨hd, hl⟩ hi he => ⟨Dated.step (by exact hd) trivial hi he, hl.step hd hi he⟩)
    fun i s ⟨hd, hl⟩ hb => ⟨hd.next hb, hl⟩
  exact ⟨w, hrun, hl.bounded, hl.apart⟩

/-- Four flushes of one key, which the next write compacts. -/
def fill (k : Key) : List Call := (List.replicate 4 [Call.put k [1], .flushForce]).flatten

set_option maxRecDepth 100000 in
theorem level_one_runs_neighbours :
    ∃ w, runLives 0 [sampleLife (fill "a" ++ fill "b" ++ [.compact])] World.start = some w ∧
      (levelOne w.manifest.sst).map (fun x => (x.minKey, x.maxKey)) = [("a", "a"), ("b", "b")] ∧
      (∀ sst ∈ listings w.hist, (levelOne sst).length ≤ l1MergeCount) ∧
      MergesClear referenceCrates w.hist := by
  obtain ⟨w, hrun, hle, hiff⟩ := level_one_runs referenceCrates
    [sampleLife (fill "a" ++ fill "b" ++ [.compact])] (by decide) (by simp [sampleLife, sampleBuilder])
  have heval : (runLives 0 [sampleLife (fill "a" ++ fill "b" ++ [.compact])] World.start).map
      (fun w : World =>
      ((levelOne w.manifest.sst).map fun x => (x.minKey, x.maxKey),
        decide (∀ sst ∈ listings w.hist, RunsApart sst))) =
      some ([("a", "a"), ("b", "b")], true) := by decide +kernel
  rw [hrun] at heval
  obtain ⟨hfiles, hruns⟩ := Prod.mk.inj (Option.some.inj heval)
  exact ⟨w, hrun, hfiles, hle, hiff.mp (of_decide_eq_true hruns)⟩

/-- Sixteen level-1 files, then a level-0 file behind them. -/
def straddling : List Call :=
  ["a", "b", "c", "d", "e", "f", "g", "h", "i", "j", "k", "l", "m", "n", "o", "p"].flatMap fill ++
    [.put "q" [1], .flushForce, .compact]

set_option maxRecDepth 1000000 in
theorem merge_straddles_level_one :
    (runLives 0 [sampleLife straddling] World.start).map (fun w : World =>
      ((levelOne w.manifest.sst).map fun x => (x.minKey, x.maxKey),
        decide (RunsApart w.manifest.sst))) =
      some ([("a", "a"), ("d", "d"), ("e", "e"), ("f", "f"), ("g", "g"), ("h", "h"), ("i", "i"),
        ("j", "j"), ("k", "k"), ("l", "l"), ("m", "m"), ("n", "n"), ("o", "o"), ("p", "p"),
        ("b", "q")], false) := by
  decide +kernel

end OxKv
