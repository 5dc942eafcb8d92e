import OxKv.Cache.Books

/-!
The ghost list of the cache.

A key that is admitted again or removed leaves its slot in the queue. When the key comes back as
a new entry and is evicted again, it has two slots, and trimming takes the older one for it:
`remembered_twice_lost`. In a run where no such key comes back the list is an exact queue:
`ghost_exact`.
-/

namespace OxKv.S3Fifo

variable {K V : Type} [DecidableEq K]

namespace GhostList

variable {g : GhostList K} {queue rest : List (K × Nat)} {key : K} {weight : Nat}

/-- The ghost list as a queue: slots in the order of remembering, the weight of a remembered key is
that of its slot, and what was trimmed is older than every slot. -/
structure Exact (g : GhostList K) (queue : List (K × Nat)) : Prop where
  slot : ∀ {key weight}, g.map.lookup key = some weight → (key, weight) ∈ queue
  weight : g.weight = g.map.total id
  order : queue.Pairwise fun a b => g.stamp a.1 < g.stamp b.1
  forgotten : ∀ n ∈ g.forgotten, n ≤ g.remembered.length ∧ ∀ slot ∈ queue, n < g.stamp slot.1

theorem stamp_le (g : GhostList K) (key : K) : g.stamp key ≤ g.remembered.length :=
  (List.dropWhile_sublist _).length_le

/-- The oldest slot goes, with its key if that is still remembered. -/
theorem Exact.forget (h : g.Exact ((key, weight) :: rest)) : (g.forget key weight).Exact rest := by
  obtain ⟨hfirst, horder⟩ := List.pairwise_cons.mp h.order
  have hother : ∀ {key' weight'}, g.map.lookup key' = some weight' → key' ≠ key →
      (key', weight') ∈ rest := fun hget hne =>
    (List.mem_cons.mp (h.slot hget)).resolve_left fun heq => hne (Prod.mk.inj heq).1
  have hold : ∀ n ∈ g.forgotten, n ≤ g.remembered.length ∧ ∀ slot ∈ rest, n < g.stamp slot.1 :=
    fun n hn => (h.forgotten n hn).imp id fun hlt slot hslot => hlt slot (List.mem_cons_of_mem _ hslot)
  unfold GhostList.forget
  split
  · rename_i hkey
    obtain ⟨weight', hget⟩ := Option.isSome_iff_exists.mp (AList.lookup_isSome.mpr hkey)
    have hsame : weight' = weight := by
      rcases List.mem_cons.mp (h.slot hget) with heq | hrest
      · exact (Prod.mk.inj heq).2
      · exact absurd (hfirst _ hrest) (Nat.lt_irrefl _)
    have hweight := h.weight
    rw [AList.total_erase hget, hsame] at hweight
    refine ⟨fun {key' w} hx => ?_, Nat.sub_eq_of_eq_add' hweight, horder, fun n hn => ?_⟩
    · obtain ⟨hne, hx⟩ := AList.of_lookup_erase hx
      exact hother hx hne
    · rcases List.mem_cons.mp hn with rfl | hn
      · exact ⟨g.stamp_le key, hfirst⟩
      · exact hold n hn
  · rename_i hkey
    refine ⟨fun {key' w} hx => hother hx ?_, h.weight, horder, hold⟩
    rintro rfl
    exact hkey (AList.lookup_isSome.mp (by rw [hx]; rfl))

/-- The key without a slot is remembered last. -/
theorem Exact.enter (h : g.Exact g.queue) (hkey : ∀ slot ∈ g.queue, slot.1 ≠ key) (weight : Nat) :
    (g.enter key weight).Exact (g.queue ++ [(key, weight)]) := by
  have hnew : g.map.lookup key = none := by
    cases hget : g.map.lookup key with
    | none => rfl
    | some w => exact absurd rfl (hkey _ (h.slot hget))
  have hstamp : ∀ slot ∈ g.queue, (g.enter key weight).stamp slot.1 = g.stamp slot.1 :=
    fun slot hslot => congrArg _ (List.dropWhile_cons_of_pos (by simpa using (hkey slot hslot).symm))
  have hlast : (g.enter key weight).stamp key = g.remembered.length + 1 :=
    congrArg _ (List.dropWhile_cons_of_neg (by simp))
  refine ⟨fun {k w} hget => ?_, ?_, ?_, fun n hn => ⟨?_, fun slot hslot => ?_⟩⟩
  · rcases AList.of_lookup_insert hget with ⟨rfl, rfl⟩ | ⟨-, hget⟩
    · exact List.mem_append_right _ (List.mem_singleton_self _)
    · exact List.mem_append_left _ (h.slot hget)
  · show g.weight + weight = (g.map.insert key weight).total id
    rw [AList.total_insert, AList.erase_of_none hnew, h.weight, Nat.add_comm]
    rfl
  · refine List.pairwise_append.mpr ⟨?_, List.pairwise_singleton .., fun a ha b hb => ?_⟩
    · refine h.order.imp_of_mem fun ha hb hlt => ?_
      rwa [hstamp _ ha, hstamp _ hb]
    · rw [List.mem_singleton.mp hb, hlast, hstamp a ha]
      exact Nat.lt_succ_of_le (g.stamp_le a.1)
  · exact Nat.le_succ_of_le (h.forgotten n hn).1
  · rcases List.mem_append.mp hslot with hslot | hslot
    · rw [hstamp slot hslot]
      exact (h.forgotten n hn).2 slot hslot
    · rw [List.mem_singleton.mp hslot, hlast]
      exact Nat.lt_succ_of_le (h.forgotten n hn).1

/-- Trimming takes slots from the front until the list fits. -/
theorem Exact.trim (h : g.Exact queue) (cap : Nat) :
    (trim cap queue g).Exact (trim cap queue g).queue ∧ (trim cap queue g).weight ≤ cap := by
  induction queue generalizing g with
  | nil =>
    have hempty : g.map.total id = 0 := by
      by_contra hpos
      obtain ⟨key, weight, hget⟩ := AList.exists_of_total_pos (Nat.pos_of_ne_zero hpos)
      cases h.slot hget
    refine ⟨⟨h.slot, h.weight, h.order, h.forgotten⟩, ?_⟩
    rw [GhostList.trim, h.weight, hempty]
    exact Nat.zero_le cap
  | cons old rest ih =>
    rw [GhostList.trim]
    split
    · exact ih h.forget
    · rename_i hfits
      exact ⟨⟨h.slot, h.weight, h.order, h.forgotten⟩, Nat.le_of_not_lt fun hlt => hfits (.inl hlt)⟩

theorem trim_subset (cap : Nat) :
    (∀ k ∈ (trim cap queue g).map, k ∈ g.map) ∧ (trim cap queue g).queue ⊆ queue := by
  induction queue generalizing g with
  | nil => exact ⟨fun _ hk => hk, List.Subset.refl _⟩
  | cons old rest ih =>
    rw [GhostList.trim]
    split
    · refine ⟨fun k hk => ?_, List.Subset.trans (@ih _).2 (List.subset_cons_self ..)⟩
      have hk := (@ih _).1 k hk
      rw [forget] at hk
      split at hk
      · exact (AList.mem_erase.mp hk).2
      · exact hk
    · exact ⟨fun _ hk => hk, List.Subset.refl _⟩

theorem Exact.rememberGhost (h : g.Exact g.queue) (hkey : ∀ slot ∈ g.queue, slot.1 ≠ key)
    (weight cap : Nat) :
    (g.rememberGhost key weight cap).Exact (g.rememberGhost key weight cap).queue ∧
      (g.rememberGhost key weight cap).weight ≤ cap ∧
      (∀ k ∈ (g.rememberGhost key weight cap).map, k = key ∨ k ∈ g.map) ∧
      ∀ slot ∈ (g.rememberGhost key weight cap).queue, slot.1 = key ∨ slot ∈ g.queue := by
  have hnew : key ∉ g.map := by
    intro hmem
    obtain ⟨w, hget⟩ := Option.isSome_iff_exists.mp (AList.lookup_isSome.mpr hmem)
    exact hkey _ (h.slot hget) rfl
  rw [GhostList.rememberGhost, if_neg hnew]
  obtain ⟨hexact, hcap⟩ := (h.enter hkey weight).trim cap
  refine ⟨hexact, hcap, fun k hk => (AList.mem_insert _).mp ((trim_subset cap).1 k hk), ?_⟩
  intro slot hslot
  rcases List.mem_append.mp ((trim_subset cap).2 hslot) with hslot | hslot
  · exact .inr hslot
  · exact .inl (congrArg Prod.fst (List.mem_singleton.mp hslot))

theorem Exact.take (h : g.Exact g.queue) (key : K) : (g.take key).Exact (g.take key).queue ∧
    (g.take key).weight ≤ g.weight ∧ (∀ k ∈ (g.take key).map, k ≠ key ∧ k ∈ g.map) ∧
    (g.take key).queue = g.queue := by
  unfold GhostList.take
  cases hget : g.map.lookup key with
  | none =>
    refine ⟨h, Nat.le_refl _, fun k hk => ⟨?_, hk⟩, rfl⟩
    rintro rfl
    exact AList.lookup_eq_none.mp hget hk
  | some w =>
    have hweight := h.weight
    rw [AList.total_erase hget] at hweight
    exact ⟨⟨fun hx => h.slot (AList.of_lookup_erase hx).2, Nat.sub_eq_of_eq_add' hweight, h.order,
      h.forgotten⟩, Nat.sub_le .., fun k hk => AList.mem_erase.mp hk, rfl⟩

end GhostList

namespace S3Inner

/-- The ghost list is exact, remembers no entry, and has no slot for an entry of the small
queue. -/
structure Haunted (ghostCap : Nat) (s : S3Inner K V) : Prop where
  exact : s.ghost.Exact s.ghost.queue
  weight : s.ghost.weight ≤ ghostCap
  apart : ∀ key ∈ s.ghost.map, key ∉ s.map
  small : ∀ {key e}, s.map.lookup key = some e → e.queue = .small →
    ∀ slot ∈ s.ghost.queue, slot.1 ≠ key

variable {ghostCap : Nat} {s s' : S3Inner K V}

/-- Keys, slots and entries of the small queue are lost, or none of them changes. -/
theorem Haunted.shrink (h : s.Haunted ghostCap) (hexact : s'.ghost.Exact s'.ghost.queue)
    (hweight : s'.ghost.weight ≤ ghostCap) (hmap : ∀ key ∈ s'.ghost.map, key ∈ s.ghost.map)
    (hqueue : s'.ghost.queue ⊆ s.ghost.queue) (hentry : ∀ {key e'}, s'.map.lookup key = some e' →
      ∃ e, s.map.lookup key = some e ∧ (e'.queue = .small → e.queue = .small)) :
    s'.Haunted ghostCap := by
  refine ⟨hexact, hweight, fun key hkey hmem => ?_, fun {key e'} hget hsmall slot hslot => ?_⟩
  · obtain ⟨e', hget⟩ := Option.isSome_iff_exists.mp (AList.lookup_isSome.mpr hmem)
    obtain ⟨e, hget, -⟩ := hentry hget
    exact h.apart key (hmap key hkey) (AList.lookup_isSome.mp (by rw [hget]; rfl))
  · obtain ⟨e, hget, hold⟩ := hentry hget
    exact h.small hget (hold hsmall) slot (hqueue hslot)

/-- The ghost list stays as it is. -/
theorem Haunted.steady (h : s.Haunted ghostCap) (hghost : s'.ghost = s.ghost)
    (hentry : ∀ {key e'}, s'.map.lookup key = some e' →
      ∃ e, s.map.lookup key = some e ∧ (e'.queue = .small → e.queue = .small)) :
    s'.Haunted ghostCap := by
  refine h.shrink ?_ ?_ ?_ ?_ hentry <;> rw [hghost]
  · exact h.exact
  · exact h.weight
  · exact fun _ hkey => hkey
  · exact .refl _

theorem Haunted.move (h : s.Haunted ghostCap) (hm : Move ghostCap s s') : s'.Haunted ghostCap := by
  cases hm with
  | sweep => exact h.steady rfl fun hx => ⟨_, hx, id⟩
  | @drop rest key e hpop hcold ghost hghost =>
    by_cases hqueue : e.queue = .small
    · rw [if_pos hqueue] at hghost
      subst hghost
      obtain ⟨hexact, hcap, hmap, hslots⟩ :=
        h.exact.rememberGhost (h.small hpop.get hqueue) e.weight ghostCap
      refine ⟨hexact, hcap, fun k hk hmem => ?_, fun {k x} hx hsmall slot hslot => ?_⟩
      · obtain ⟨hne, hmem⟩ := AList.mem_erase.mp hmem
        exact h.apart k ((hmap k hk).resolve_left hne) hmem
      · obtain ⟨hne, hx⟩ := AList.of_lookup_erase hx
        rcases hslots slot hslot with heq | hslot
        · rw [heq]
          exact hne.symm
        · exact h.small hx hsmall slot hslot
    · rw [if_neg hqueue] at hghost
      exact h.steady hghost fun hx => ⟨_, (AList.of_lookup_erase hx).2, id⟩
  | @requeue rest key e hpop =>
    refine h.steady rfl fun {k x} hx => ?_
    rcases AList.of_lookup_insert hx with ⟨rfl, rfl⟩ | ⟨-, hx⟩
    · exact ⟨e, hpop.get, nofun⟩
    · exact ⟨x, hx, id⟩

theorem Haunted.moves (h : s.Haunted ghostCap) (hm : Relation.ReflTransGen (Move ghostCap) s s') :
    s'.Haunted ghostCap := by
  induction hm with
  | refl => exact h
  | tail _ hm ih => exact ih.move hm

end S3Inner

namespace LruCache

open S3Inner

variable (c : LruCache K V) {s : S3Inner K V}

/-- The call does not admit, as a new entry, a key that has left a slot in the ghost queue. -/
def Fresh (s : S3Inner K V) : CacheCall K V → Prop
  | .insert key value => c.weigher key value ≤ c.capacity → key ∉ s.map → key ∉ s.ghost.map →
      key ∉ s.ghost.queue.map Prod.fst
  | _ => True

instance (s : S3Inner K V) (call : CacheCall K V) : Decidable (c.Fresh s call) := by
  cases call <;> unfold Fresh <;> infer_instance

def FreshFrom : S3Inner K V → List (CacheCall K V) → Prop
  | _, [] => True
  | s, call :: calls => c.Fresh s call ∧ FreshFrom (c.call s call) calls

theorem haunted_call {last : K → Option V} (hb : s.Books last) (h : s.Haunted c.ghostCap)
    {call : CacheCall K V} (hfresh : c.Fresh s call) : (c.call s call).Haunted c.ghostCap := by
  have htouch : ∀ {key : K} {e x : Entry V}, s.map.lookup key = some e → x.queue = e.queue →
      ∀ {k y}, (s.map.insert key x).lookup k = some y →
        ∃ z, s.map.lookup k = some z ∧ (y.queue = .small → z.queue = .small) := by
    intro key e x hget hqueue k y hy
    rcases AList.of_lookup_insert hy with ⟨rfl, rfl⟩ | ⟨-, hy⟩
    · exact ⟨e, hget, hqueue ▸ id⟩
    · exact ⟨y, hy, id⟩
  cases call with
  | get key =>
    rw [LruCache.call, get]
    cases hget : s.map.lookup key with
    | none => exact h
    | some e =>
      exact h.steady rfl (htouch (x := { e with freq := min (e.freq + 1) maxFreq }) hget rfl)
  | insert key value =>
    refine Haunted.moves ?_ ((c.books_admit hb key value).evictWhileOver c.capacity c.ghostCap).1
    unfold place
    cases hget : s.map.lookup key with
    | some e => exact h.steady rfl (htouch (x := ⟨value, _, _, e.queue, e.seq⟩) hget rfl)
    | none =>
      dsimp only
      split
      · rename_i hfits
        obtain ⟨hexact, hcap, hmap, hslots⟩ := h.exact.take key
        refine ⟨hexact, hcap.trans h.weight, fun k hk hmem => ?_, fun {k x} hx hsmall slot hslot => ?_⟩
        · rcases (AList.mem_insert _).mp hmem with rfl | hmem
          · exact (hmap k hk).1 rfl
          · exact h.apart k (hmap k hk).2 hmem
        · replace hslot : slot ∈ s.ghost.queue := by
            rw [← hslots]
            exact hslot
          rcases AList.of_lookup_insert hx with ⟨rfl, rfl⟩ | ⟨-, hx⟩
          · by_cases hghost : k ∈ s.ghost.map
            · rw [if_pos hghost] at hsmall
              cases hsmall
            · rintro rfl
              exact hfresh hfits (AList.lookup_eq_none.mp hget) hghost (List.mem_map_of_mem hslot)
          · exact h.small hx hsmall slot hslot
      · exact h
  | remove key =>
    obtain ⟨hexact, hcap, hmap, hslots⟩ := h.exact.take key
    refine h.shrink hexact (hcap.trans h.weight) (fun k hk => (hmap k hk).2)
      (hslots ▸ List.Subset.refl _)
      fun {k x} hx => ?_
    rw [LruCache.call, remove, S3Inner.discard] at hx
    cases hget : s.map.lookup key with
    | none =>
      rw [hget] at hx
      exact ⟨x, hx, id⟩
    | some e =>
      rw [hget] at hx
      exact ⟨x, (AList.of_lookup_erase hx).2, id⟩

theorem haunted_run {calls : List (CacheCall K V)} {last : K → Option V} (hb : s.Books last)
    (hfits : s.weight ≤ c.capacity) (h : s.Haunted c.ghostCap) (hfresh : c.FreshFrom s calls) :
    (calls.foldl c.call s).Haunted c.ghostCap := by
  induction calls generalizing s last with
  | nil => exact h
  | cons call calls ih =>
    obtain ⟨hb', hfits'⟩ := c.books_call hb hfits call
    exact ih hb' hfits' (c.haunted_call hb h hfresh.1) hfresh.2

/-- In a run without a key that comes back while its slot is queued, the ghost list is exact: its
weight is the sum of the weights and within the capacity, every key has a slot and is no entry,
and every key outlives what was remembered before it. -/
theorem ghost_exact (c : LruCache K V) (calls : List (CacheCall K V))
    (hfresh : c.FreshFrom start calls) :
    (c.run calls).ghost.weight = (c.run calls).ghost.map.total id ∧
    (c.run calls).ghost.weight ≤ c.ghostCap ∧
    ∀ key ∈ (c.run calls).ghost.map, (∃ weight, (key, weight) ∈ (c.run calls).ghost.queue) ∧
      key ∉ (c.run calls).map ∧
      ∀ n ∈ (c.run calls).ghost.forgotten, n < (c.run calls).ghost.stamp key := by
  have h : (c.run calls).Haunted c.ghostCap := by
    refine c.haunted_run (c.books_run []).1 (c.books_run []).2 ?_ hfresh
    exact ⟨⟨nofun, rfl, .nil, nofun⟩, Nat.zero_le _, nofun, nofun⟩
  refine ⟨h.exact.weight, h.weight, fun key hkey => ?_⟩
  obtain ⟨weight, hget⟩ := Option.isSome_iff_exists.mp (AList.lookup_isSome.mpr hkey)
  have hslot := h.exact.slot hget
  exact ⟨⟨weight, hslot⟩, h.apart key hkey, fun n hn => (h.exact.forgotten n hn).2 _ hslot⟩

/-- Two units of room, and values that are their own weights. -/
def double : LruCache Char Nat := .new 2 fun _ value => value

theorem ghost_exact_readmitted :
    double.FreshFrom start [.insert 'a' 1, .insert 'b' 2, .insert 'a' 1] ∧
    (double.run [.insert 'a' 1, .insert 'b' 2, .insert 'a' 1]).ghost.weight = 2 ∧
    ((double.run [.insert 'a' 1, .insert 'b' 2, .insert 'a' 1]).ghost.map).total id = 2 := by
  have hfresh : double.FreshFrom start [.insert 'a' 1, .insert 'b' 2, .insert 'a' 1] := by
    refine ⟨?_, ?_, ?_, trivial⟩ <;> decide
  exact ⟨hfresh, rfl, (ghost_exact double _ hfresh).1.symm⟩

/-- The key is remembered, removed, and remembered again with another weight; the slot of the first
time takes it away. -/
theorem remembered_twice_lost :
    (double.run [.insert 'a' 1, .insert 'b' 2, .remove 'a', .insert 'a' 2,
    .insert 'c' 1]).ghost.weight = 1 ∧
    (double.run [.insert 'a' 1, .insert 'b' 2, .remove 'a', .insert 'a' 2,
      .insert 'c' 1]).ghost.map.total id = 0 := by
  decide

end LruCache

end OxKv.S3Fifo
