import OxKv.Runs.Lives

/-!
The position of a file in the listing is its recency.

Every entry of a listed file has a date: the number of the event of the history
that wrote it. A flush publishes what the MemTable held when its snapshot was
taken, the newest writes of that time; a compaction publishes for each key the
entry of its newest input.

* `entryDate`: the date of an entry;
* `Dated`: what relates dates and listing, kept by every step of an owner;
* `list_position_is_recency`: the result for all runs of successive owners.
-/

namespace OxKv

/-! ## Dates -/

/-- The number of the newest write to a key, `0` if there is none. -/
def newestWrite (k : Key) : History → Nat
  | [] => 0
  | (_, .wrote ops) :: h => if ops.any (fun op => op.1 = k) then h.length + 1 else newestWrite k h
  | _ :: h => newestWrite k h

/-- The history at the newest MemTable snapshot. -/
def atSnapshot : History → History
  | [] => []
  | (_, .snapshot) :: h => h
  | _ :: h => atSnapshot h

def listedFiles : History → List SstMeta
  | [] => []
  | (_, .stored .manifest (.manifest m) _) :: _ => m.sst
  | _ :: h => listedFiles h

/-- The newest of the merged files that holds a key. -/
def mergeSource (c : Tables) (k : Key) (sst : List SstMeta) : Option SstMeta :=
  match compactionInputs sst with
  | none => none
  | some (l0, l1) => (l1 ++ l0).reverse.find? fun x => ((c x.id).get? k).isSome

/-- When the entry for `k` in file `p` was written: decided by the manifest that listed
the file first. -/
def entryDate (cr : Crates) (k : Key) : History → ObjectPath → Nat
  | [], _ => 0
  | (_, .stored .manifest (.manifest m) _) :: h, p =>
    match m.sst.find? fun x => x.id = p with
    | none => entryDate cr k h p
    | some x =>
      if (listedFiles h).any fun y => y.id = p then entryDate cr k h p
      else if x.level = 0 then newestWrite k (atSnapshot h)
      else
        match mergeSource (content cr (archived (stores h))) k (listedFiles h) with
        | none => 0
        | some y => entryDate cr k h y.id
  | _ :: h, p => entryDate cr k h p

/-! ## Events and dates -/

variable {M : Mode} {who : Who} {s s' : State} {cr : Crates} {h t : History} {k : Key}
  {p : ObjectPath}

theorem newestWrite_le (k : Key) (h : History) : newestWrite k h ≤ h.length := by
  induction h with
  | nil => exact le_refl _
  | cons x h ih =>
    obtain ⟨who, e⟩ := x
    cases e with
    | wrote ops =>
      unfold newestWrite
      split
      · exact le_refl _
      · exact Nat.le_succ_of_le ih
    | _ => exact Nat.le_succ_of_le ih

/-- Later writes are newer. -/
theorem newestWrite_append (k : Key) (t h : History) :
    newestWrite k h ≤ newestWrite k (t ++ h) := by
  induction t with
  | nil => exact le_refl _
  | cons x t ih =>
    obtain ⟨who, e⟩ := x
    cases e with
    | wrote ops =>
      rw [List.cons_append, newestWrite]
      split
      · refine le_trans (newestWrite_le k h) ?_
        rw [List.length_append]
        omega
      · exact ih
    | _ => exact ih

theorem listedFiles_append (ht : ∀ x ∈ t, x.2.Unlisting) : listedFiles (t ++ h) = listedFiles h := by
  induction t with
  | nil => rfl
  | cons x t ih =>
    rw [← ih fun y hy => ht y (by simp [hy])]
    have hx := ht x (by simp)
    obtain ⟨who, e⟩ := x
    cases e with
    | stored p o e =>
      cases p with
      | manifest => exact absurd rfl (hx o e)
      | _ => rfl
    | _ => rfl

theorem entryDate_append (ht : ∀ x ∈ t, x.2.Unlisting) :
    entryDate cr k (t ++ h) p = entryDate cr k h p := by
  induction t with
  | nil => rfl
  | cons x t ih =>
    rw [← ih fun y hy => ht y (by simp [hy])]
    have hx := ht x (by simp)
    obtain ⟨who, e⟩ := x
    cases e with
    | stored p o e =>
      cases p with
      | manifest => exact absurd rfl (hx o e)
      | _ => rfl
    | _ => rfl

variable {m : Manifest} {e : Etag}

/-- A file that stays listed keeps its dates. -/
theorem entryDate_listed (hp : ∃ y ∈ listedFiles h, y.id = p) :
    entryDate cr k ((who, .stored .manifest (.manifest m) e) :: h) p = entryDate cr k h p := by
  rw [entryDate]
  split
  · rfl
  · rw [if_pos]
    simpa using hp

variable {x : SstMeta}

/-- The dates of a new file. -/
theorem entryDate_new (hfind : m.sst.find? (fun y => y.id = p) = some x)
    (hp : ¬ ∃ y ∈ listedFiles h, y.id = p) :
    entryDate cr k ((who, .stored .manifest (.manifest m) e) :: h) p =
      if x.level = 0 then newestWrite k (atSnapshot h)
      else
        match mergeSource (content cr (archived (stores h))) k (listedFiles h) with
        | none => 0
        | some y => entryDate cr k h y.id := by
  rw [entryDate, hfind]
  simp only
  rw [if_neg (by simpa using hp)]

/-- The newest file that holds a key decides it. -/
theorem view_eq_find (c : Tables) (sst : List SstMeta) (k : Key) :
    view c sst k = (sst.reverse.find? fun x => ((c x.id).get? k).isSome).bind fun x =>
      (c x.id).get? k := by
  induction sst using List.reverseRecOn with
  | nil => rfl
  | append_singleton sst x ih =>
    rw [view_append_singleton, List.reverse_append, List.reverse_singleton, List.singleton_append,
      List.find?_cons]
    cases hx : (c x.id).get? k with
    | none => simpa using ih
    | some v => simp [hx]

theorem mergeSource_of_hit {c : Tables} {sst l0 l1 : List SstMeta}
    (hin : compactionInputs sst = some (l0, l1)) {x : Option Bytes} (hx : hit c l0 l1 k = some x) :
    ∃ y ∈ sst, mergeSource c k sst = some y ∧ (c y.id).get? k = some x := by
  rw [hit_eq, view_eq_find, Option.bind_eq_some_iff] at hx
  obtain ⟨y, hy, hyk⟩ := hx
  refine ⟨y, inputs_subset hin (List.mem_reverse.mp (List.mem_of_find?_eq_some hy)), ?_, hyk⟩
  rw [mergeSource, hin]
  exact hy

/-! ## Flushes -/

/-- Nothing was written since the newest snapshot. -/
def Settled (h : History) : Prop := ∀ k, newestWrite k (atSnapshot h) = newestWrite k h

/-- A lone thread writes nothing while it flushes. -/
theorem Effect.settled (he : Effect M who s s') (hs : M.solo)
    (hset : s.2.flight who.inst ≠ none → Settled s.1.hist) :
    s'.2.flight who.inst ≠ none → Settled s'.1.hist := by
  cases he with
  | look e he => rcases he with rfl | rfl <;> exact hset
  | unlock => exact fun hf => absurd (Function.update_self ..) hf
  | stage _ _ halone => exact fun hf => absurd (halone hs) hf
  | apply => exact fun hf => absurd (Function.update_self ..) hf
  | snapshot => exact fun _ _ => rfl
  | discard => exact fun hf => absurd (Function.update_self ..) hf
  | _ => exact hset

/-! ## Dates and the listing -/

/-- The later of two listed files with the same key holds the newer entry. -/
def DatesAscend (cr : Crates) (w : World) : Prop :=
  w.manifest.sst.Pairwise fun x y => ∀ k u v, (content cr w.archive x.id).get? k = some u →
    (content cr w.archive y.id).get? k = some v →
    entryDate cr k w.hist x.id ≤ entryDate cr k w.hist y.id

structure Dated (cr : Crates) (i : Nat) (s : State) : Prop where
  settled : s.2.flight i ≠ none → Settled s.1.hist
  listed : listedFiles s.1.hist = s.1.manifest.sst
  bound : ∀ x ∈ s.1.manifest.sst, ∀ k v, (content cr s.1.archive x.id).get? k = some v →
    entryDate cr k s.1.hist x.id ≤ newestWrite k s.1.hist
  order : DatesAscend cr s.1

/-- The files of a listing hold the same after more objects were written. -/
theorem Inv.content_eq {T : Track} {w w' : World} {g : Ghost} (hi : Inv T w g)
    (hg : Grows w.archive w'.archive) (hx : x ∈ w.manifest.sst) :
    content T.cr w'.archive x.id = content T.cr w.archive x.id := by
  obtain ⟨f, hf⟩ := hi.store.listOk.ssts x hx
  exact content_mono hg hf

/-- What stays of the file list keeps its dates, and at most one file joins at its end. -/
theorem Dated.relist (hd : Dated cr who.inst s)
    (hset : s'.2.flight who.inst ≠ none → Settled s'.1.hist)
    (hw : s'.1 = s.1.write who .manifest (.manifest m)) {rest added : List SstMeta}
    (hsub : rest.Sublist s.1.manifest.sst) (hsst : m.sst = rest ++ added)
    (hone : added.Pairwise fun _ _ => False)
    (hbound : ∀ x ∈ added, ∀ k v, (content cr s.1.archive x.id).get? k = some v →
      entryDate cr k s'.1.hist x.id ≤ newestWrite k s.1.hist)
    (hnew : ∀ x ∈ rest, ∀ y ∈ added, ∀ k u v, (content cr s.1.archive x.id).get? k = some u →
      (content cr s.1.archive y.id).get? k = some v →
      entryDate cr k s.1.hist x.id ≤ entryDate cr k s'.1.hist y.id) : Dated cr who.inst s' := by
  have hman : s'.1.manifest = m := by rw [hw, manifest_write]
  have harch : s'.1.archive = s.1.archive := by rw [hw, archive_write_other rfl]
  have hdate : ∀ x ∈ rest, ∀ k, entryDate cr k s'.1.hist x.id = entryDate cr k s.1.hist x.id :=
    fun x hx k => by
      rw [hw]
      exact entryDate_listed ⟨x, hd.listed ▸ hsub.subset hx, rfl⟩
  refine ⟨hset, by rw [hman, hw]; rfl, fun x hx k v hk => ?_, ?_⟩
  · rw [harch] at hk
    rw [show newestWrite k s'.1.hist = newestWrite k s.1.hist by rw [hw]; rfl]
    rw [hman, hsst] at hx
    rcases List.mem_append.mp hx with hx | hx
    · rw [hdate x hx]
      exact hd.bound x (hsub.subset hx) k v hk
    · exact hbound x hx k v hk
  · unfold DatesAscend
    rw [hman, harch, hsst]
    refine List.pairwise_append.mpr ⟨?_, hone.imp False.elim, fun x hx y hy k u v hu hv => ?_⟩
    · refine (List.Pairwise.sublist hsub hd.order).imp_of_mem fun {x y} hx hy hxy k u v hu hv => ?_
      rw [hdate x hx, hdate y hy]
      exact hxy k u v hu hv
    · rw [hdate x hx]
      exact hnew x hx y hy k u v hu hv

theorem Dated.shrink (hd : Dated cr who.inst s)
    (hset : s'.2.flight who.inst ≠ none → Settled s'.1.hist)
    (hw : s'.1 = s.1.write who .manifest (.manifest m)) (hsub : m.sst.Sublist s.1.manifest.sst) :
    Dated cr who.inst s' :=
  hd.relist hset hw hsub (List.append_nil _).symm .nil (by simp) (by simp)

variable {entry : SstMeta}

theorem NewEntry.find {level : Nat} {rest : List SstMeta} (he : NewEntry M who s.1 level entry)
    (hi : Inv M.toTrack s.1 s.2) (hsub : rest.Sublist s.1.manifest.sst)
    (hsst : m.sst = rest ++ [entry]) :
    m.sst.find? (fun y => y.id = entry.id) = some entry ∧
      ¬ ∃ y ∈ s.1.manifest.sst, y.id = entry.id := by
  have hno : ¬ ∃ y ∈ s.1.manifest.sst, y.id = entry.id := fun hy =>
    he.fresh (hi.wasListed (.inr hy))
  refine ⟨?_, hno⟩
  rw [hsst, List.find?_append, List.find?_eq_none.mpr, Option.none_or]
  · simp
  · intro y hy
    simpa using fun heq => hno ⟨y, hsub.subset hy, heq⟩

/-- The entries of a flushed file are the newest writes. -/
theorem Dated.flushDate (hd : Dated M.cr who.inst s) (hi : Inv M.toTrack s.1 s.2)
    (hentry : NewEntry M who s.1 0 entry) (hsst : m.sst = s.1.manifest.sst ++ [entry])
    (hflight : s.2.flight who.inst ≠ none) (k : Key) :
    entryDate M.cr k ((who, .stored .manifest (.manifest m) e) :: s.1.hist) entry.id =
      newestWrite k s.1.hist := by
  obtain ⟨hfind, hno⟩ := hentry.find hi (.refl _) hsst
  rw [entryDate_new hfind (hd.listed ▸ hno), if_pos hentry.levelEq]
  exact hd.settled hflight k

/-- The entries of a merged file are those of its sources. -/
theorem Dated.mergeDate {l0 l1 : List SstMeta} {v : Option Bytes} (hd : Dated M.cr who.inst s)
    (hi : Inv M.toTrack s.1 s.2) (hin : compactionInputs s.1.manifest.sst = some (l0, l1))
    (hentry : NewEntry M who s.1 1 entry) (hmerge : HoldsMerge M s.1 entry.id l0 l1)
    (hsst : m.sst = withoutInputs (l0 ++ l1) s.1.manifest.sst ++ [entry])
    (hk : (content M.cr s.1.archive entry.id).get? k = some v) :
    ∃ y ∈ s.1.manifest.sst, ∃ x, (content M.cr s.1.archive y.id).get? k = some x ∧
      M.Same s.1 (some x) (some v) ∧
      entryDate M.cr k ((who, .stored .manifest (.manifest m) e) :: s.1.hist) entry.id =
        entryDate M.cr k s.1.hist y.id := by
  obtain ⟨hfind, hno⟩ := hentry.find hi List.filter_sublist hsst
  have hm := hmerge k
  split at hm
  · rename_i raw hhit
    obtain ⟨raw', hraw', hsame⟩ := hm
    obtain rfl := Option.some.inj (hk.symm.trans hraw')
    obtain ⟨y, hy, hsrc, hyk⟩ := mergeSource_of_hit hin hhit
    refine ⟨y, hy, _, hyk, hsame, ?_⟩
    rw [entryDate_new hfind (hd.listed ▸ hno), if_neg (by rw [hentry.levelEq]; simp), hd.listed]
    have hsrc : mergeSource (content M.cr (archived (stores s.1.hist))) k s.1.manifest.sst = some y :=
      hsrc
    rw [hsrc]
  · rw [hk] at hm
    cases hm

theorem Dated.step (hd : Dated M.cr who.inst s) (hs : M.solo) (hi : Inv M.toTrack s.1 s.2)
    (he : Effect M who s s') : Dated M.cr who.inst s' := by
  have hi' := he.inv hi
  have hset := he.settled hs hd.settled
  rcases he.relists with ⟨hlook, t, ht, hall⟩ | ⟨m, hw, -, hre⟩
  · have hman := manifest_eq hlook
    have hcont : ∀ x ∈ s.1.manifest.sst,
        content M.cr s'.1.archive x.id = content M.cr s.1.archive x.id :=
      fun x hx => hi.content_eq he.grows hx
    refine ⟨hset, ?_, fun x hx k v hk => ?_, ?_⟩
    · rw [ht, listedFiles_append hall, hman]
      exact hd.listed
    · rw [hman] at hx
      rw [hcont x hx] at hk
      rw [ht, entryDate_append hall]
      exact (hd.bound x hx k v hk).trans (newestWrite_append k t _)
    · unfold DatesAscend
      rw [hman]
      refine .imp_of_mem (fun {x y} hx hy hxy k u v hu hv => ?_) hd.order
      rw [hcont x hx] at hu
      rw [hcont y hy] at hv
      rw [ht, entryDate_append hall, entryDate_append hall]
      exact hxy k u v hu hv
  · have hhist : s'.1.hist = (who, .stored .manifest (.manifest m) (s.1.st.seq + 1)) :: s.1.hist := by
      rw [hw]; rfl
    have hlv := hi.store.listOk.levels
    have hlv' := hi'.store.listOk.levels
    rw [hw, manifest_write, archive_write_other rfl] at hlv'
    generalize hsst : m.sst = sst at hre
    cases hre with
    | same => exact hd.shrink hset hw (hsst ▸ List.Sublist.refl _)
    | drop l0 l1 hin => exact hd.shrink hset hw (hsst ▸ List.filter_sublist)
    | flush entry snap n _ hentry hflight hsnap =>
      have hdate : ∀ k, entryDate M.cr k s'.1.hist entry.id = newestWrite k s.1.hist := fun k => by
        rw [hhist, hd.flushDate hi hentry hsst (by rw [hflight]; simp)]
      refine hd.relist hset hw (.refl _) hsst (List.pairwise_singleton ..) ?_ ?_ <;>
        simp only [List.forall_mem_singleton, hdate]
      · exact fun _ _ _ => le_rfl
      · intro x hx k u v hu _
        exact hd.bound x hx k u hu
    | merge l0 l1 entry hin hentry hmerge =>
      rw [installed_eq hlv hentry.above] at hsst
      refine hd.relist hset hw List.filter_sublist hsst (List.pairwise_singleton ..) ?_ ?_ <;>
        simp only [List.forall_mem_singleton]
      · intro k v hk
        obtain ⟨y, hy, z, hz, -, hdate⟩ :=
          hd.mergeDate (e := s.1.st.seq + 1) hi hin hentry hmerge hsst hk
        rw [hhist, hdate]
        exact hd.bound y hy k z hz
      · -- level-1 files share no key
        intro x hx k u v hu hv
        obtain ⟨-, hno⟩ := hentry.find hi List.filter_sublist hsst
        have hne : x ≠ entry := fun heq => hno ⟨x, List.mem_of_mem_filter hx, heq ▸ rfl⟩
        have := hlv'.once x (by rw [hsst]; exact List.mem_append_left _ hx) entry (by rw [hsst]; simp)
          (rest_level hlv hin hx) hentry.levelEq hne k u hu
        rw [hv] at this
        cases this

/-! ## What the dates stand for -/

/-- The contents after the writes of a history. -/
def wroteMap : History → KMap
  | [] => KMap.empty
  | (_, .wrote ops) :: h => applyOps (wroteMap h) ops
  | _ :: h => wroteMap h

/-- The contents right after the event with number `n`. -/
def contentsAt (n : Nat) (h : History) : KMap := wroteMap (h.drop (h.length - n))

theorem contentsAt_append {n : Nat} (hn : n ≤ h.length) (t : History) :
    contentsAt n (t ++ h) = contentsAt n h := by
  unfold contentsAt
  rw [List.length_append, Nat.add_sub_assoc hn, List.drop_append,
    List.drop_eq_nil_of_le (Nat.le_add_right _ _), List.nil_append, Nat.add_sub_cancel_left]

/-- The newest write of a key decides what it holds. -/
theorem wroteMap_newest (k : Key) (h : History) :
    wroteMap h k = contentsAt (newestWrite k h) h k := by
  induction h with
  | nil => rfl
  | cons x h ih =>
    have hrest : contentsAt (newestWrite k h) (x :: h) = contentsAt (newestWrite k h) h :=
      contentsAt_append (newestWrite_le k h) [x]
    obtain ⟨who, e⟩ := x
    cases e with
    | wrote ops =>
      rw [newestWrite]
      split
      · rw [contentsAt, List.length_cons, Nat.sub_self, List.drop_zero]
      · rename_i hno
        rw [hrest, ← ih, wroteMap, applyOps_apply,
          SortedMap.lookup_eq_none_of_forall_ne fun op hop => ?_]
        · rfl
        · simp only [List.any_eq_true, decide_eq_true_eq, not_exists, not_and] at hno
          exact hno op (List.mem_reverse.mp hop)
    | _ =>
      show wroteMap h k = contentsAt (newestWrite k h) (_ :: h) k
      rw [hrest, ← ih]

/-- The contents of the owner, and before it is ready the acknowledged ones, are what was
written. -/
def Tracked (i : Nat) (s : State) : Prop :=
  (s.2.ready i → live s.1 s.2 i = wroteMap s.1.hist) ∧ (¬ s.2.ready i → s.2.dur = wroteMap s.1.hist)

theorem Effect.tracked (he : Effect M who s s') (hst : ¬ M.staging) (hi : Inv M.toTrack s.1 s.2)
    (ht : Tracked who.inst s) : Tracked who.inst s' := by
  cases he with
  | look e he => rcases he with rfl | rfl <;> exact ht
  | ready walSeq sstSeq m hopener hready hwriter hwal hsst hm hshows hseq =>
    refine ⟨fun _ => ?_, fun hno => absurd (by simp) hno⟩
    -- nothing was written with this handle yet
    unfold live
    simp only [Function.update_self, World.setInst_hist]
    rw [liveFrom_base (i := who.inst) fun who' ops hmem heq => hready (heq ▸ hi.wrote hmem), hm hst]
    exact ht.2 hready
  | list _ _ _ _ _ _ _ hready => exact ⟨ht.1, fun hno => absurd hready hno⟩
  | stage _ hstaging => exact absurd hstaging hst
  | apply ops _ hready =>
    refine ⟨fun _ => ?_, fun hno => absurd hready hno⟩
    show liveFrom _ _ ((who, .wrote ops) :: _) = applyOps (wroteMap _) ops
    rw [liveFrom_wrote]
    exact congrArg (applyOps · ops) (ht.1 hready)
  | _ => exact ht

/-- The snapshot of a flush under way shows what was written. -/
def Flown (M : Mode) (i : Nat) (s : State) : Prop :=
  ∀ snap n, s.2.flight i = some (snap, n) → Owns s.1 i → ∀ k x, snap.get? k = some x →
    M.Shows s.1 (some x) (wroteMap s.1.hist k)

/-- What can happen to a flush under way. -/
theorem Effect.flight (he : Effect M who s s') (hst : ¬ M.staging) :
    s'.2.flight who.inst = none ∨
      (s.2.ready who.inst ∧ s'.1 = s.1.log who .snapshot ∧
        ∃ n, s'.2.flight who.inst = some ((s.1.inst who.inst).mem, n)) ∨
      s'.2.flight who.inst = s.2.flight who.inst ∧ wroteMap s'.1.hist = wroteMap s.1.hist := by
  cases he with
  | look e he => exact .inr (.inr ⟨rfl, by rcases he with rfl | rfl <;> rfl⟩)
  | unlock => exact .inl (Function.update_self ..)
  | stage _ hstaging => exact absurd hstaging hst
  | apply => exact .inl (Function.update_self ..)
  | snapshot _ hready => exact .inr (.inl ⟨hready, rfl, _, Function.update_self ..⟩)
  | discard => exact .inl (Function.update_self ..)
  | _ => exact .inr (.inr ⟨rfl, rfl⟩)

theorem Flown.step (hf : Flown M who.inst s) (he : Effect M who s s') (hst : ¬ M.staging)
    (hi : Inv M.toTrack s.1 s.2) (ht : Tracked who.inst s) : Flown M who.inst s' := by
  intro snap n hsnap ho k x hx
  rcases he.flight hst with hnone | ⟨hready, hw, n', hsome⟩ | ⟨hsame, hwrote⟩
  · rw [hnone] at hsnap
    cases hsnap
  · rw [hsome] at hsnap
    cases hsnap
    have hhit := (hi.live _ hready).hit (he.owns hi hready ho) k
    rw [ht.1 hready] at hhit
    unfold liveHit at hhit
    rw [hx] at hhit
    rw [hw]
    exact hhit
  · rw [hsame] at hsnap
    have hready : s.2.ready who.inst := by
      by_contra hno
      rw [(hi.idle _ hno).2] at hsnap
      cases hsnap
    rw [hwrote]
    exact (hf snap n hsnap (he.owns hi hready ho) k x hx).mono he.grows

/-- Every listed entry shows what its key held at its date. -/
def DatesTrue (cr : Crates) (strict : Prop) (w : World) : Prop :=
  ∀ x ∈ w.manifest.sst, ∀ k v, (content cr w.archive x.id).get? k = some v →
    Shows strict cr w.archive (some v) (contentsAt (entryDate cr k w.hist x.id) w.hist k)

/-- A date is no later than the last event. -/
theorem Dated.le_length (hd : Dated cr who.inst s) (hx : x ∈ s.1.manifest.sst) {v : Option Bytes}
    (hk : (content cr s.1.archive x.id).get? k = some v) :
    entryDate cr k s.1.hist x.id ≤ s.1.hist.length :=
  (hd.bound x hx k v hk).trans (newestWrite_le k _)

theorem DatesTrue.step (h : DatesTrue M.cr M.strict s.1) (hd : Dated M.cr who.inst s)
    (hf : Flown M who.inst s) (hi : Inv M.toTrack s.1 s.2) (he : Effect M who s s') :
    DatesTrue M.cr M.strict s'.1 := by
  have hold : ∀ t, s'.1.hist = t ++ s.1.hist → ∀ x ∈ s.1.manifest.sst, ∀ k v,
      (content M.cr s'.1.archive x.id).get? k = some v →
      entryDate M.cr k s'.1.hist x.id = entryDate M.cr k s.1.hist x.id →
      Shows M.strict M.cr s'.1.archive (some v)
        (contentsAt (entryDate M.cr k s'.1.hist x.id) s'.1.hist k) := by
    intro t ht x hx k v hk hdate
    rw [hi.content_eq he.grows hx] at hk
    rw [hdate, ht, contentsAt_append (hd.le_length hx hk)]
    exact (h x hx k v hk).mono he.grows
  intro x hx k v hk
  rcases he.relists with ⟨hlook, t, ht, hall⟩ | ⟨m, hw, -, hre⟩
  · rw [manifest_eq hlook] at hx
    exact hold t ht x hx k v hk (by rw [ht, entryDate_append hall])
  · have hhist : s'.1.hist = [(who, .stored .manifest (.manifest m) (s.1.st.seq + 1))] ++ s.1.hist := by
      rw [hw]; rfl
    have hman : s'.1.manifest = m := by rw [hw, manifest_write]
    have harch : s'.1.archive = s.1.archive := by rw [hw, archive_write_other rfl]
    have hkeep : x ∈ s.1.manifest.sst → _ := fun hx => hold _ hhist x hx k v hk (by
      rw [hhist]
      exact entryDate_listed ⟨x, hd.listed ▸ hx, rfl⟩)
    rw [hman] at hx
    generalize hsst : m.sst = sst at hre
    rw [hsst] at hx
    cases hre with
    | same => exact hkeep hx
    | drop l0 l1 hin => exact hkeep (List.mem_of_mem_filter hx)
    | flush entry snap n howns hentry hflight hsnap =>
      rcases List.mem_append.mp hx with hx | hx
      · exact hkeep hx
      · rw [List.mem_singleton.mp hx] at hk ⊢
        rw [harch] at hk ⊢
        have hin := hsnap k
        split at hin
        · rw [hk] at hin
          cases hin
        · rename_i x hx
          obtain ⟨v', hv', hsame⟩ := hin
          obtain rfl := Option.some.inj (hk.symm.trans hv')
          rw [hhist, List.singleton_append, hd.flushDate hi hentry hsst (by rw [hflight]; simp),
            ← List.singleton_append, contentsAt_append (newestWrite_le k _), ← wroteMap_newest]
          exact hsame _ (hf snap n hflight howns k x hx)
    | merge l0 l1 entry hin hentry hmerge =>
      rw [installed_eq hi.store.listOk.levels hentry.above] at hsst hx
      rcases List.mem_append.mp hx with hx | hx
      · exact hkeep (List.mem_of_mem_filter hx)
      · rw [List.mem_singleton.mp hx] at hk ⊢
        rw [harch] at hk ⊢
        obtain ⟨y, hy, z, hz, hsame, hdate⟩ := hd.mergeDate (e := s.1.st.seq + 1) hi hin hentry hmerge
          hsst hk
        rw [hhist, List.singleton_append, hdate, ← List.singleton_append,
          contentsAt_append (hd.le_length hy hz)]
        exact hsame _ (h y hy k z hz)

/-! ## Whole runs -/

section Runs

variable {T : Track} {faults : Prop} {i : Nat} {m : KMap} {l : Life}

theorem Dated.steps (hd : Dated T.cr i s)
    (h : (rules (lone T faults)).Steps ⟨0, i⟩ s s') : Dated T.cr i s' := by
  induction h with
  | refl => exact hd
  | tail _ hstep ih =>
    obtain ⟨hi, he, -⟩ := hstep
    have he : Effect (lone T faults) ⟨0, i⟩ _ _ := he
    exact Dated.step (M := lone T faults) (by exact ih) trivial hi he

/-- The next owner has no flush under way. -/
theorem Dated.next (hd : Dated cr i s) (hb : Between M (i + 1) s) : Dated cr (i + 1) s :=
  { hd with
    settled := fun hf => absurd (hb.inv.idle _ (hb.unused _ (le_refl _)).2).2 hf }

theorem Dated.start : Dated cr 0 (World.start, Ghost.start) :=
  ⟨fun h => absurd rfl h, rfl, nofun, List.Pairwise.nil⟩

/-- After its session an owner has applied everything it listed. -/
theorem Ended.tracked {b : Builder} {calls : List Call}
    (h : Ended T faults i m b calls
      (fun cx _ txs s => Outside (lone T faults) ⟨0, i⟩ cx s ∧ txs.Ok (lone T faults)) s s')
    (hst : ¬ T.staging) (ht : Tracked i s') : s'.2.dur = wroteMap s'.1.hist := by
  rcases h with ⟨cx, txs, -, -, hout, -⟩ | ⟨hopen, -⟩
  · rw [hout.dur_eq hst id trivial]
    exact ht.1 hout.ready
  · exact ht.2 hopen.unready

end Runs

/-- One owner keeps dates and contents in step. -/
theorem Life.run_datesTrue {V : Set Bytes} {i : Nat} {l : Life} (hV : GoodValues cr V)
    (hb : Between (lone (exactTrack hV False) True) i s) (hbound : i < 2 ^ 64 - 1)
    (hcr : l.builder.crates = cr) (hstop : l.stop = none)
    (hfault : ∀ n, (l.oracle n).fault ≠ some .conflict)
    (hcalls : ∀ c ∈ l.calls, c.unlogged = false ∧ ∀ v, c.value? = some v → v ∈ V)
    (hd : Dated cr i s) (hdur : s.2.dur = wroteMap s.1.hist) (htrue : DatesTrue cr True s.1) :
    ∃ w g, l.run i s.1 = some w ∧ Between (lone (exactTrack hV False) True) (i + 1) (w, g) ∧
      Dated cr (i + 1) (w, g) ∧ g.dur = wroteMap w.hist ∧ DatesTrue cr True w := by
  obtain ⟨w, g, hrun, hb', hsteps, s', -, hend, heq⟩ := Life.run_safe hb
    (hb.session hbound hcr (fun c hc => c.ok_lone (by simp [(hcalls c hc).1])
    (fun _ => (hcalls c hc).2) nofun)
      (fun _ _ _ _ => trivial) (hb.inv.durable trivial) (fun _ => rfl))
    fun n => .inr ⟨trivial, fun _ => hfault n⟩
  obtain rfl := heq hstop
  have hready := (hb.unused i (le_refl i)).2
  have hflight := (hb.inv.idle i hready).2
  have hall : ∀ s', (rules (lone (exactTrack hV False) True)).Steps ⟨0, i⟩ s s' →
      Tracked i s' ∧ Flown (lone (exactTrack hV False) True) i s' ∧ DatesTrue cr True s'.1 := by
    intro s' hsteps
    induction hsteps with
    | refl =>
      refine ⟨⟨fun hr => absurd hr hready, fun _ => hdur⟩, fun snap n hsnap => ?_, htrue⟩
      rw [hflight] at hsnap
      cases hsnap
    | tail hpre hstep ih =>
      obtain ⟨ht, hf, htrue⟩ := ih
      obtain ⟨hi, he, -⟩ := hstep
      have he : Effect (lone (exactTrack hV False) True) ⟨0, i⟩ _ _ := he
      have hd' := hd.steps (T := exactTrack hV False) hpre
      exact ⟨he.tracked id hi ht, hf.step he id hi ht, htrue.step hd' hf hi he⟩
  obtain ⟨ht, -, htrue'⟩ := hall _ hsteps
  exact ⟨w, g, hrun, hb', (hd.steps (T := exactTrack hV False) hsteps).next hb', hend.tracked id ht,
    htrue'⟩

/-- In every run of successive owners each level-1 file comes before the level-0 files,
files are in the order of their numbers and, for each key, of their dates; and if the
values are stored as they are, the entry of a file is what was written at its date. -/
theorem list_position_is_recency (cr : Crates) (lives : List Life) (hlen : lives.length < 2 ^ 64)
    (hlives : ∀ l ∈ lives, l.builder.crates = cr ∧ l.stop = none ∧
      ∀ c ∈ l.calls, c.unlogged = false) :
    ∃ w, runLives 0 lives World.start = some w ∧ Levels (content cr w.archive) w.manifest.sst ∧
      DatesAscend cr w ∧
      ∀ V, GoodValues cr V → (∀ l ∈ lives, (∀ n, (l.oracle n).fault ≠ some .conflict) ∧
        ∀ c ∈ l.calls, ∀ v, c.value? = some v → v ∈ V) → DatesTrue cr True w := by
  have hmem : ∀ {i l}, lives[i]? = some l → l ∈ lives := fun h => List.mem_of_getElem? h
  obtain ⟨w, g, hrun, hb, hd⟩ := runLives_loose hlen (fun l hl => (hlives l hl).1)
    Dated.start (fun i s s' hd hi he => Dated.step (by exact hd) trivial hi he)
    fun i s hd hb => hd.next hb
  refine ⟨w, hrun, hb.inv.store.listOk.levels, hd.order, fun V hV hgood => ?_⟩
  obtain ⟨w', g', hrun', -, -, -, htrue⟩ := runLives_safe (T := exactTrack hV False)
    (P := fun i s => Dated cr i s ∧ s.2.dur = wroteMap s.1.hist ∧ DatesTrue cr True s.1)
    (fun i l s hl hbound hb hP => Life.run_datesTrue hV hb hbound (hlives l (hmem hl)).1
      (hlives l (hmem hl)).2.1 (hgood l (hmem hl)).1
      (fun c hc => ⟨(hlives l (hmem hl)).2.2 c hc, (hgood l (hmem hl)).2 c hc⟩) hP.1 hP.2.1 hP.2.2)
    hlen (i := 0) rfl (Between.start (lone _ True)) ⟨Dated.start, rfl, nofun⟩
  cases hrun.symm.trans hrun'
  exact htrue

/-- An owner that compacts four flushes, and one that writes a compacted key again. -/
def rewritingLives : List Life :=
  [sampleLife [.put "a" [1], .flushForce, .delete "a", .flushForce, .put "a" [1], .flushForce,
      .put "b" [1], .flushForce, .compact],
    sampleLife [.put "a" [1], .flushForce]]

set_option maxRecDepth 100000 in
theorem list_position_is_recency_rewriting :
    (runLives 0 rewritingLives World.start).map (fun w =>
      w.manifest.sst.map fun x => (x.level, x.minKey, x.maxKey)) =
      some [(1, "a", "b"), (0, "a", "b")] ∧
    ∃ w, runLives 0 rewritingLives World.start = some w ∧
      Levels (content referenceCrates w.archive) w.manifest.sst ∧ DatesAscend referenceCrates w ∧
      DatesTrue referenceCrates True w := by
  refine ⟨by decide +kernel, ?_⟩
  obtain ⟨w, hrun, hlv, hasc, htrue⟩ := list_position_is_recency referenceCrates rewritingLives
    (by decide) (by
      intro l hl
      simp only [rewritingLives, List.mem_cons, List.not_mem_nil, or_false] at hl
      rcases hl with rfl | rfl <;> exact ⟨rfl, rfl, by decide⟩)
  refine ⟨w, hrun, hlv, hasc, htrue {[1]} ⟨?_, ?_, ?_⟩ ?_⟩
  · rintro v rfl
    decide +kernel
  · rintro v rfl
    decide
  · simp
  · intro l hl
    simp only [rewritingLives, List.mem_cons, List.not_mem_nil, or_false] at hl
    rcases hl with rfl | rfl
    · refine ⟨fun n => by simp [sampleLife, faultless], ?_⟩
      simp [sampleLife, Call.value?]
    · refine ⟨fun n => by simp [sampleLife, faultless], ?_⟩
      simp [sampleLife, Call.value?]

end OxKv
