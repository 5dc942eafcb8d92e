import Mathlib.Algebra.Order.BigOperators.Group.List
import Mathlib.Algebra.Order.Group.Nat
import Mathlib.Data.Fintype.Card
import Mathlib.Data.List.Induction
import OxKv.Cache.Inner

/-!
The books of the cache, over every run of calls.

* `cache_keeps_books`: weights, capacity, live slots and values;
* `slots_bounded_iff`: how far stale slots accumulate.
-/

namespace OxKv.S3Fifo

variable {K V : Type} [DecidableEq K]

namespace S3Inner

variable {ghostCap : Nat} {s s' : S3Inner K V} {last last' : K → Option V}
  {map map' : AList fun _ : K => Entry V} {slots slots' : Queue → List (Nat × K)} {next : Nat}
  {key : K} {e x : Entry V} {rest : List (Nat × K)}

/-- Every entry has its slot and holds the last value of its key, and no slot is in a queue
twice. -/
structure Slotted (last : K → Option V) (map : AList fun _ : K => Entry V)
    (slots : Queue → List (Nat × K)) (next : Nat) : Prop where
  fresh : ∀ q, ∀ slot ∈ slots q, slot.1 < next
  nodup : ∀ q, (slots q).Nodup
  entry : ∀ {key e}, map.lookup key = some e → (e.seq, key) ∈ slots e.queue ∧ last key = some e.value

structure Books (last : K → Option V) (s : S3Inner K V) : Prop
    extends Slotted last s.map s.slots s.nextSeq where
  weight : s.weight = s.map.total Entry.weight

omit [DecidableEq K] in
theorem update_sublist {queue : Queue} {l : List (Nat × K)} (h : l.Sublist (slots queue)) (q : Queue) :
    (Function.update slots queue l q).Sublist (slots q) := by
  by_cases hq : q = queue
  · subst hq
    rwa [Function.update_self]
  · rw [Function.update_of_ne hq]

section Slotted

variable (h : Slotted last map slots next)

include h

/-- Slots are lost. -/
theorem Slotted.shrink (hsub : ∀ q, (slots' q).Sublist (slots q))
    (hentry : ∀ {key e}, map'.lookup key = some e →
      (e.seq, key) ∈ slots' e.queue ∧ last' key = some e.value) : Slotted last' map' slots' next :=
  ⟨fun q slot hslot => h.fresh q slot ((hsub q).subset hslot), fun q => (h.nodup q).sublist (hsub q),
    hentry⟩

theorem Slotted.erase (hlast : ∀ key' ≠ key, last' key' = last key') :
    Slotted last' (map.erase key) slots next := by
  refine h.shrink (fun _ => .refl _) fun {key' x} hx => ?_
  obtain ⟨hkey, hx⟩ := AList.of_lookup_erase hx
  rw [hlast key' hkey]
  exact h.entry hx

theorem Slotted.update_last (hget : map.lookup key = some e) :
    Function.update last key (some e.value) = last := by
  rw [← (h.entry hget).2, Function.update_eq_self]

/-- An entry is changed in place. -/
theorem Slotted.touch (hget : map.lookup key = some e) (hseq : x.seq = e.seq)
    (hqueue : x.queue = e.queue) :
    Slotted (Function.update last key (some x.value)) (map.insert key x) slots next := by
  refine h.shrink (fun _ => .refl _) fun {key' y} hy => ?_
  rcases AList.of_lookup_insert hy with ⟨rfl, rfl⟩ | ⟨hkey, hy⟩
  · rw [hseq, hqueue, Function.update_self]
    exact ⟨(h.entry hget).1, rfl⟩
  · rw [Function.update_of_ne hkey]
    exact h.entry hy

end Slotted

/-- An entry gets a slot under a fresh number. -/
theorem Slotted.push (h : Slotted last (map.erase key) slots next) (hseq : e.seq = next) :
    Slotted (Function.update last key (some e.value)) (map.insert key e)
      (Function.update slots e.queue (slots e.queue ++ [(next, key)])) (next + 1) := by
  have hmem : ∀ q slot, slot ∈ Function.update slots e.queue (slots e.queue ++ [(next, key)]) q ↔
      slot ∈ slots q ∨ q = e.queue ∧ slot = (next, key) := by
    intro q slot
    by_cases hq : q = e.queue
    · subst hq
      simp
    · simp [hq]
  refine ⟨fun q slot hslot => ?_, fun q => ?_, fun {key' x} hx => ?_⟩
  · rcases (hmem q slot).mp hslot with hslot | ⟨-, rfl⟩
    · exact Nat.lt_succ_of_lt (h.fresh q slot hslot)
    · exact Nat.lt_succ_self next
  · by_cases hq : q = e.queue
    · subst hq
      rw [Function.update_self]
      refine (h.nodup _).append (List.nodup_singleton _) fun slot hslot hslot' => ?_
      rw [List.mem_singleton.mp hslot'] at hslot
      exact Nat.lt_irrefl _ (h.fresh _ _ hslot)
    · rw [Function.update_of_ne hq]
      exact h.nodup q
  · rw [hmem]
    rcases AList.of_lookup_insert hx with ⟨rfl, rfl⟩ | ⟨hkey, hx⟩
    · exact ⟨.inr ⟨rfl, by rw [hseq]⟩, Function.update_self ..⟩
    · rw [← AList.lookup_erase_ne hkey] at hx
      rw [Function.update_of_ne hkey]
      exact ⟨.inl (h.entry hx).1, (h.entry hx).2⟩

/-- The slots that are skipped are nobody's. -/
theorem Slotted.pop (hs : Slotted last s.map s.slots next) (h : s.Popped key e rest) :
    Slotted last (s.map.erase key) (Function.update s.slots e.queue rest) next := by
  obtain ⟨⟨stale, hslots, hdead⟩, hget⟩ := h
  have hrest : rest.Sublist (s.slots e.queue) := by
    rw [hslots]
    exact (List.sublist_cons_self _ _).trans (List.sublist_append_right _ _)
  refine hs.shrink (update_sublist hrest) fun {key' x} hx => ?_
  obtain ⟨hkey, hx⟩ := AList.of_lookup_erase hx
  obtain ⟨hslot, hlast⟩ := hs.entry hx
  refine ⟨?_, hlast⟩
  by_cases hq : x.queue = e.queue
  · rw [hq, hslots, List.mem_append, List.mem_cons] at hslot
    rw [hq, Function.update_self]
    rcases hslot with hslot | heq | hslot
    · cases (hdead _ hslot).symm.trans (isLive_iff.mpr ⟨x, hx, rfl, hq⟩)
    · exact absurd (Prod.mk.inj heq).2 hkey
    · exact hslot
  · rwa [Function.update_of_ne hq]

theorem Books.move (h : s.Books last) (hm : Move ghostCap s s') : s'.Books last := by
  cases hm with
  | @sweep queue hdead =>
    refine ⟨h.shrink (update_sublist (List.nil_sublist _)) fun {key e} hget => ?_, h.weight⟩
    obtain ⟨hslot, hlast⟩ := h.entry hget
    refine ⟨?_, hlast⟩
    by_cases hq : e.queue = queue
    · exact absurd ⟨_, hq ▸ hslot, isLive_iff.mpr ⟨e, hget, rfl, hq⟩⟩ hdead
    · show _ ∈ Function.update s.slots queue [] e.queue
      rwa [Function.update_of_ne hq]
  | drop hpop =>
    have hweight := h.weight
    rw [AList.total_erase hpop.get] at hweight
    exact ⟨h.pop hpop, Nat.sub_eq_of_eq_add' hweight⟩
  | @requeue rest key e hpop =>
    have hslots := (h.pop hpop).push
      (e := { e with freq := e.freq - 1, queue := .large, seq := s.nextSeq }) rfl
    rw [h.update_last hpop.get] at hslots
    refine ⟨hslots, ?_⟩
    show s.weight = AList.total (s.map.insert key _) _
    rw [AList.total_insert, h.weight, AList.total_erase hpop.get]

theorem Books.moves (h : s.Books last) (hm : Relation.ReflTransGen (Move ghostCap) s s') :
    s'.Books last := by
  induction hm with
  | refl => exact h
  | tail _ hm ih => exact ih.move hm

/-- With as many rounds as entries to move and to drop, eviction ends below the capacity. -/
theorem Books.evictRounds (h : s.Books last) (capacity ghostCap : Nat) {bound : Nat}
    (hbound : s.rounds ≤ bound) :
    Relation.ReflTransGen (Move ghostCap) s (evictRounds capacity ghostCap bound s) ∧
      (evictRounds capacity ghostCap bound s).weight ≤ capacity := by
  induction bound generalizing s with
  | zero =>
    refine ⟨.refl, Nat.le_of_not_lt fun hover => ?_⟩
    rw [S3Inner.evictRounds, h.weight] at hover
    obtain ⟨key, e, hget⟩ := AList.exists_of_total_pos (Nat.zero_lt_of_lt hover)
    have hround := AList.le_total (f := fun e : Entry V => if e.queue = .large then 1 else 2) hget
    rw [← rounds] at hround
    split at hround <;> omega
  | succ bound ih =>
    rw [S3Inner.evictRounds]
    by_cases hfits : s.weight ≤ capacity
    · rw [if_pos hfits]
      exact ⟨.refl, hfits⟩
    · rw [if_neg hfits]
      obtain ⟨hmoves, hround⟩ := s.evictOnce_cases ghostCap
      rcases heq : s.evictOnce ghostCap with ⟨progressed, s'⟩
      rw [heq] at hmoves hround
      rcases hround with ⟨rfl, hlt⟩ | ⟨-, hdead⟩
      · obtain ⟨hmoves', hfits'⟩ :=
          ih (h.moves hmoves) (Nat.le_of_lt_succ (Nat.lt_of_lt_of_le hlt hbound))
        exact ⟨hmoves.trans hmoves', hfits'⟩
      · -- an entry that is left has a live slot
        rw [h.weight] at hfits
        obtain ⟨key, e, hget⟩ := AList.exists_of_total_pos (Nat.zero_lt_of_lt (Nat.lt_of_not_le hfits))
        exact absurd ⟨_, (h.entry hget).1, isLive_iff.mpr ⟨e, hget, rfl, rfl⟩⟩ (hdead e.queue)

theorem Books.evictWhileOver (h : s.Books last) (capacity ghostCap : Nat) :
    Relation.ReflTransGen (Move ghostCap) s (s.evictWhileOver capacity ghostCap) ∧
      (s.evictWhileOver capacity ghostCap).weight ≤ capacity := by
  refine h.evictRounds capacity ghostCap ?_
  have hle : s.rounds ≤ s.map.total fun _ => 2 := List.sum_le_sum fun x _ => by
    dsimp only
    split <;> omega
  have htwo : (s.map.total fun _ => 2) = 2 * s.map.entries.length := by
    simp [AList.total, Nat.mul_comm]
  omega

def slotCount (slots : Queue → List (Nat × K)) : Nat :=
  (slots .small).length + (slots .medium).length + (slots .large).length

omit [DecidableEq K] in
theorem slotCount_update (slots : Queue → List (Nat × K)) (queue : Queue) (l : List (Nat × K)) :
    slotCount (Function.update slots queue l) + (slots queue).length = slotCount slots + l.length := by
  rw [slotCount, slotCount]
  cases queue <;> simp <;> omega

omit [DecidableEq K] in
theorem slotCount_pushSlot (s : S3Inner K V) (queue : Queue) (seq : Nat) (key : K) :
    slotCount (s.pushSlot queue seq key).slots = slotCount s.slots + 1 := by
  have hcount := slotCount_update s.slots queue (s.slots queue ++ [(seq, key)])
  rw [List.length_append, List.length_singleton] at hcount
  rw [pushSlot]
  dsimp only
  omega

def residents (s : S3Inner K V) : Nat := s.map.entries.length

theorem residents_erase (h : s.map.lookup key = some e) :
    (s.map.erase key).entries.length + 1 = s.residents := by
  rw [residents, ← AList.total_one, ← AList.total_one, AList.total_erase h, Nat.add_comm]

theorem residents_insert (h : s.map.lookup key = some e) :
    (s.map.insert key x).entries.length = s.residents := by
  rw [← residents_erase h, AList.entries_insert]
  rfl

theorem Popped.slotCount_lt (h : s.Popped key e rest) :
    slotCount (Function.update s.slots e.queue rest) < slotCount s.slots := by
  obtain ⟨stale, hslots, -⟩ := h.slots
  have hcount := slotCount_update s.slots e.queue rest
  rw [hslots, List.length_append, List.length_cons] at hcount
  omega

/-- Eviction takes a slot with every entry. -/
theorem Move.slotCount_le (hm : Move ghostCap s s') :
    slotCount s'.slots + s.residents ≤ slotCount s.slots + s'.residents := by
  cases hm with
  | @sweep queue =>
    have hcount := slotCount_update s.slots queue []
    rw [List.length_nil] at hcount
    have hle : slotCount (Function.update s.slots queue []) ≤ slotCount s.slots := by omega
    exact Nat.add_le_add_right hle _
  | drop hpop =>
    have hlt := hpop.slotCount_lt
    have hone := residents_erase hpop.get
    show _ ≤ slotCount s.slots + (s.map.erase _).entries.length
    dsimp only
    omega
  | @requeue rest key e hpop =>
    have hlt := hpop.slotCount_lt
    rw [slotCount_pushSlot]
    show _ ≤ slotCount s.slots + (s.map.insert key _).entries.length
    rw [residents_insert hpop.get]
    exact Nat.add_le_add_right hlt _

theorem slotCount_le_of_moves (hm : Relation.ReflTransGen (Move ghostCap) s s') :
    slotCount s'.slots + s.residents ≤ slotCount s.slots + s'.residents := by
  induction hm with
  | refl => exact Nat.le_refl _
  | tail _ hm ih =>
    have hle := hm.slotCount_le
    omega

end S3Inner

/-! ## Calls -/

def CacheCall.isRemove : CacheCall K V → Bool
  | .remove _ => true
  | _ => false

namespace LruCache

open S3Inner

variable (c : LruCache K V) {s : S3Inner K V} {last : K → Option V}

/-- The values of the last inserts, after a call. -/
def insertLast (last : K → Option V) : CacheCall K V → K → Option V
  | .insert key value => Function.update last key (some value)
  | _ => last

def lastInsert (calls : List (CacheCall K V)) : K → Option V := calls.foldl insertLast fun _ => none

theorem books_admit (h : s.Books last) (key : K) (value : V) :
    (c.place s key value).Books (Function.update last key (some value)) := by
  unfold place
  cases hget : s.map.lookup key with
  | some e =>
    refine ⟨h.touch (x := ⟨value, _, _, e.queue, e.seq⟩) hget rfl rfl, ?_⟩
    have hweight := h.weight
    rw [AList.total_erase hget] at hweight
    rw [AList.total_insert]
    dsimp only
    omega
  | none =>
    have hother : ∀ {last'}, (∀ key' ≠ key, last' key' = last key') →
        Slotted last' (s.map.erase key) s.slots s.nextSeq := h.erase
    dsimp only
    split
    · refine ⟨(hother fun _ _ => rfl).push (e := ⟨value, _, _, _, s.nextSeq⟩) rfl, ?_⟩
      show _ = AList.total (s.map.insert key _) _
      rw [AList.total_insert, AList.erase_of_none hget, ← h.weight]
      exact Nat.add_comm ..
    · rw [AList.erase_of_none hget] at hother
      exact ⟨hother fun _ hkey => Function.update_of_ne hkey .., h.weight⟩

theorem books_call (h : s.Books last) (hfits : s.weight ≤ c.capacity) (call : CacheCall K V) :
    (c.call s call).Books (insertLast last call) ∧ (c.call s call).weight ≤ c.capacity := by
  cases call with
  | get key =>
    rw [LruCache.call, get]
    cases hget : s.map.lookup key with
    | none => exact ⟨h, hfits⟩
    | some e =>
      have hslots := h.touch (x := { e with freq := min (e.freq + 1) maxFreq }) hget rfl rfl
      rw [h.update_last hget] at hslots
      refine ⟨⟨hslots, ?_⟩, hfits⟩
      rw [AList.total_insert, h.weight, AList.total_erase hget]
  | insert key value =>
    obtain ⟨hmoves, hfits⟩ := (c.books_admit h key value).evictWhileOver c.capacity c.ghostCap
    exact ⟨(c.books_admit h key value).moves hmoves, hfits⟩
  | remove key =>
    rw [LruCache.call, remove, S3Inner.discard]
    cases hget : s.map.lookup key with
    | none => exact ⟨⟨h.toSlotted, h.weight⟩, hfits⟩
    | some e =>
      have hweight := h.weight
      rw [AList.total_erase hget] at hweight
      exact ⟨⟨h.erase fun _ _ => rfl, Nat.sub_eq_of_eq_add' hweight⟩, (Nat.sub_le ..).trans hfits⟩

theorem run_concat (calls : List (CacheCall K V)) (call : CacheCall K V) :
    c.run (calls ++ [call]) = c.call (c.run calls) call := by
  rw [run, List.foldl_append]
  rfl

theorem books_run (calls : List (CacheCall K V)) :
    (c.run calls).Books (lastInsert calls) ∧ (c.run calls).weight ≤ c.capacity := by
  induction calls using List.reverseRecOn with
  | nil => exact ⟨⟨⟨nofun, fun _ => List.nodup_nil, nofun⟩, rfl⟩, Nat.zero_le _⟩
  | append_singleton calls call ih =>
    rw [run_concat, lastInsert, List.foldl_append]
    exact c.books_call ih.1 ih.2 call

/-- After every call of every run: the recorded weight is the sum of the weights and within the
capacity, every entry has one live slot, in its queue, and a lookup returns the last value or
nothing. -/
theorem cache_keeps_books (c : LruCache K V) (calls : List (CacheCall K V)) :
    (c.run calls).weight = (c.run calls).map.total Entry.weight ∧
    (c.run calls).weight ≤ c.capacity ∧
    (∀ key e, (c.run calls).map.lookup key = some e → ∀ queue,
      ((c.run calls).slots queue).countP (fun slot =>
        decide (slot.2 = key) && isLive (c.run calls).map queue slot) =
          if queue = e.queue then 1 else 0) ∧
    ∀ key value, (LruCache.get (c.run calls) key).1 = some value →
      lastInsert calls key = some value := by
  obtain ⟨hbooks, hfits⟩ := c.books_run calls
  refine ⟨hbooks.weight, hfits, fun key e hget queue => ?_, fun key value h => ?_⟩
  · have hlive : ∀ slot, (decide (slot.2 = key) && isLive (c.run calls).map queue slot) = true ↔
        slot = (e.seq, key) ∧ queue = e.queue := by
      intro slot
      rw [Bool.and_eq_true, decide_eq_true_iff, isLive_iff]
      constructor
      · rintro ⟨rfl, x, hx, hseq, hqueue⟩
        cases hget.symm.trans hx
        exact ⟨Prod.ext hseq.symm rfl, hqueue.symm⟩
      · rintro ⟨rfl, rfl⟩
        exact ⟨rfl, e, hget, rfl, rfl⟩
    split
    · rename_i hqueue
      subst hqueue
      rw [← List.count_eq_one_of_mem (hbooks.nodup e.queue) (hbooks.entry hget).1, List.count]
      refine List.countP_congr fun slot _ => ?_
      rw [hlive, beq_iff_eq]
      exact and_iff_left rfl
    · rename_i hqueue
      exact List.countP_eq_zero.mpr fun slot _ h => hqueue ((hlive slot).mp h).2
  · rw [LruCache.get] at h
    cases hget : (c.run calls).map.lookup key with
    | none =>
      rw [hget] at h
      cases h
    | some e =>
      rw [hget] at h
      cases h
      exact (hbooks.entry hget).2

/-! ## Stale slots -/

/-- At most 1024 slots more than twice the number of entries at some time of the run. -/
def Bounded (calls : List (CacheCall K V)) : Prop :=
  ∃ before, before <+: calls ∧
    slotCount (c.run calls).slots ≤ 2 * (c.run before).residents + 1024

theorem slotCount_admit (s : S3Inner K V) (key : K) (value : V) :
    slotCount (c.place s key value).slots + s.residents =
      slotCount s.slots + (c.place s key value).residents := by
  unfold place
  cases hget : s.map.lookup key with
  | some e => exact congrArg (slotCount s.slots + ·) (residents_insert hget).symm
  | none =>
    dsimp only
    split
    · rw [slotCount_pushSlot]
      show _ = _ + (s.map.insert key _).entries.length
      rw [AList.entries_insert_of_notMem (AList.lookup_eq_none.mp hget), List.length_cons, ← residents]
      dsimp only
      omega
    · rfl

/-- A slot is left behind by the removal of an entry only. -/
theorem slotCount_run (calls : List (CacheCall K V)) :
    ∃ hits ≤ calls.countP CacheCall.isRemove,
      slotCount (c.run calls).slots ≤ (c.run calls).residents + hits ∧
      (0 < hits → ∃ before, before <+: calls ∧ 0 < (c.run before).residents) := by
  induction calls using List.reverseRecOn with
  | nil => exact ⟨0, Nat.le_refl 0, Nat.le_refl 0, nofun⟩
  | append_singleton calls call ih =>
    obtain ⟨hits, hle, hslots, hseen⟩ := ih
    have hseen' : 0 < hits → ∃ before, before <+: calls ++ [call] ∧ 0 < (c.run before).residents := by
      intro hpos
      obtain ⟨before, hbefore, hres⟩ := hseen hpos
      exact ⟨before, hbefore.trans (List.prefix_append ..), hres⟩
    rw [List.countP_append, run_concat]
    cases call with
    | get key =>
      refine ⟨hits, hle, ?_, hseen'⟩
      rw [LruCache.call, get]
      cases hget : (c.run calls).map.lookup key with
      | none => exact hslots
      | some e => exact hslots.trans (Nat.le_of_eq (congrArg (· + hits) (residents_insert hget).symm))
    | insert key value =>
      refine ⟨hits, hle, ?_, hseen'⟩
      have hadmit := c.slotCount_admit (c.run calls) key value
      have hmoves := slotCount_le_of_moves
        ((c.books_admit (c.books_run calls).1 key value).evictWhileOver c.capacity c.ghostCap).1
      show slotCount (evictWhileOver _ _ _).slots ≤ (evictWhileOver _ _ _).residents + hits
      omega
    | remove key =>
      rw [LruCache.call, remove, S3Inner.discard]
      cases hget : (c.run calls).map.lookup key with
      | none => exact ⟨hits, hle.trans (Nat.le_add_right ..), hslots, hseen'⟩
      | some e =>
        have hone := residents_erase hget
        refine ⟨hits + 1, Nat.add_le_add_right hle 1, ?_, fun _ => ⟨calls, List.prefix_append .., ?_⟩⟩
        · show slotCount (c.run calls).slots ≤ ((c.run calls).map.erase key).entries.length + _
          omega
        · omega

section Churn

def single : LruCache Unit Unit := .new 1 fun _ _ => 1

/-- The entry is written and removed, again and again. -/
def churn : Nat → List (CacheCall Unit Unit)
  | 0 => []
  | n + 1 => churn n ++ [.insert () (), .remove ()]

theorem single_insert {s : S3Inner Unit Unit} (hmap : s.map = ∅) (hweight : s.weight = 0)
    (hghost : s.ghost.map = ∅) : single.insert s () () =
      pushSlot ⟨AList.singleton () ⟨(), 1, 0, .small, s.nextSeq⟩, s.slots, s.ghost, 1, s.nextSeq + 1⟩
        .small s.nextSeq () := by
  have hadmit : single.place s () () =
      pushSlot ⟨AList.singleton () ⟨(), 1, 0, .small, s.nextSeq⟩, s.slots, s.ghost, 1, s.nextSeq + 1⟩
        .small s.nextSeq () := by
    simp [place, single, new, GhostList.take, hmap, hweight, hghost]
  rw [insert, hadmit]
  rfl

theorem run_churn (n : Nat) :
    (single.run (churn n)).map = ∅ ∧ (single.run (churn n)).weight = 0 ∧
      (single.run (churn n)).ghost.map = ∅ ∧ slotCount (single.run (churn n)).slots = n := by
  induction n with
  | zero => exact ⟨rfl, rfl, rfl, rfl⟩
  | succ n ih =>
    obtain ⟨hmap, hweight, hghost, hslots⟩ := ih
    have hrun : single.run (churn (n + 1)) =
        remove (single.insert (single.run (churn n)) () ()) () := by
      rw [churn, run, List.foldl_append]
      rfl
    rw [hrun, single_insert hmap hweight hghost]
    refine ⟨rfl, rfl, ?_, ?_⟩
    · show (GhostList.take (single.run (churn n)).ghost ()).map = ∅
      simp [GhostList.take, hghost]
    · exact (slotCount_pushSlot ..).trans (congrArg (· + 1) hslots)

/-- Every round leaves a slot. -/
theorem not_bounded_churn {n : Nat} (hn : 1026 ≤ n) :
    ¬ single.Bounded (churn n ++ [.insert () ()]) := by
  rintro ⟨before, -, hle⟩
  obtain ⟨hmap, hweight, hghost, hslots⟩ := run_churn n
  have hone : (single.run before).residents ≤ 1 := by
    have hkeys := List.Nodup.length_le_card (single.run before).map.keys_nodup
    rwa [AList.keys, List.keys, List.length_map] at hkeys
  rw [run_concat, LruCache.call, single_insert hmap hweight hghost, slotCount_pushSlot] at hle
  dsimp only at hle
  omega

theorem isRemove_churn (n : Nat) :
    (churn n ++ [CacheCall.insert () ()]).countP CacheCall.isRemove = n := by
  have hrounds : (churn n).countP CacheCall.isRemove = n := by
    induction n with
    | zero => rfl
    | succ n ih =>
      rw [churn, List.countP_append, ih]
      rfl
  rw [List.countP_append, hrounds]
  rfl

end Churn

/-- Every run with at most so many removals keeps its slots within the bound exactly for up to
1025. -/
theorem slots_bounded_iff (n : Nat) :
    (∀ (K V : Type) [DecidableEq K] (c : LruCache K V) (calls : List (CacheCall K V)),
      calls.countP CacheCall.isRemove ≤ n → c.Bounded calls) ↔ n ≤ 1025 := by
  constructor
  · intro h
    by_contra hn
    exact not_bounded_churn (Nat.lt_of_not_le hn) (h _ _ _ _ (Nat.le_of_eq (isRemove_churn n)))
  · intro hn K V _ c calls hcalls
    obtain ⟨hits, hle, hslots, hseen⟩ := c.slotCount_run calls
    by_cases hres : 0 < (c.run calls).residents ∨ hits = 0
    · exact ⟨calls, List.prefix_rfl, by omega⟩
    · obtain ⟨before, hbefore, hpos⟩ := hseen (by omega)
      exact ⟨before, hbefore, by omega⟩

/-- 1027 slots, for one entry. -/
theorem churned_slots_unbounded : ¬ single.Bounded (churn 1026 ++ [.insert () ()]) :=
  not_bounded_churn (Nat.le_refl _)

end LruCache

end OxKv.S3Fifo
