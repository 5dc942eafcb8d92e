import Mathlib.Algebra.GroupWithZero.Nat
import Mathlib.Data.List.AList
import Mathlib.Logic.Relation

/-!
`LruCache`, the cache of SST files, with `S3-FIFO` eviction.

Slots of the three queues are matched with entries by sequence number: a move or a removal
leaves a stale slot, which eviction skips. Whatever eviction does is a chain of `Move`s, and
the invariants of the cache are invariants of a `Move`.
-/

namespace AList

variable {K E : Type} [DecidableEq K] {m : AList fun _ : K => E} {key : K} {e : E} {f : E → Nat}

/-- The sum of a measure of the values. -/
def total (m : AList fun _ : K => E) (f : E → Nat) : Nat := (m.entries.map fun x => f x.2).sum

omit [DecidableEq K] in
theorem total_one (m : AList fun _ : K => E) : m.total (fun _ => 1) = m.entries.length := by
  simp [total]

theorem total_insert : (m.insert key e).total f = f e + (m.erase key).total f := by
  rw [total, entries_insert, List.map_cons, List.sum_cons]
  rfl

theorem total_erase (h : m.lookup key = some e) : m.total f = f e + (m.erase key).total f := by
  have hkey : key ∈ m.entries.keys := mem_keys.mp (lookup_isSome.mp (by rw [h]; rfl))
  obtain ⟨e', l1, l2, hl1, hl, herase⟩ := List.exists_of_kerase hkey
  have he : e' = e := by
    have hget : m.lookup key = some e' := mem_lookup_iff.mpr (by simp [hl])
    exact Option.some.inj (hget.symm.trans h)
  rw [total, total, show (m.erase key).entries = l1 ++ l2 from herase, hl]
  simp only [List.map_append, List.map_cons, List.sum_append, List.sum_cons, he]
  omega

theorem erase_of_none (h : m.lookup key = none) : m.erase key = m :=
  AList.ext (List.kerase_of_notMem_keys fun hkey => lookup_eq_none.mp h (mem_keys.mpr hkey))

theorem of_lookup_erase {k : K} {x : E} (h : (m.erase key).lookup k = some x) :
    k ≠ key ∧ m.lookup k = some x := by
  have hk : k ≠ key := by
    rintro rfl
    cases (lookup_erase ..).symm.trans h
  exact ⟨hk, (lookup_erase_ne hk).symm.trans h⟩

theorem of_lookup_insert {k : K} {x : E} (h : (m.insert key e).lookup k = some x) :
    (k = key ∧ x = e) ∨ (k ≠ key ∧ m.lookup k = some x) := by
  by_cases hk : k = key
  · subst hk
    exact .inl ⟨rfl, Option.some.inj (h.symm.trans (lookup_insert _))⟩
  · exact .inr ⟨hk, (lookup_insert_ne hk).symm.trans h⟩

theorem le_total (h : m.lookup key = some e) : f e ≤ m.total f := by
  rw [total_erase h]
  omega

theorem exists_of_total_pos (h : 0 < m.total f) : ∃ key e, m.lookup key = some e := by
  cases hm : m.entries with
  | nil => simp [total, hm] at h
  | cons x l => exact ⟨x.1, x.2, mem_lookup_iff.mpr (by simp [hm])⟩

end AList

namespace OxKv.S3Fifo

inductive Queue where
  | small | medium | large
deriving DecidableEq, Repr

structure Entry (V : Type) where
  value : V
  weight : Nat
  freq : Nat
  queue : Queue
  seq : Nat

def maxFreq : Nat := 3

def ghostMaxEntries : Nat := 1024

/-- The keys that were evicted cold: `ghost`, `ghost_map` and `ghost_weight`. The history of
the list, every key it was given (the last one first) and which of them trimming dropped, is
recorded beside it. -/
structure GhostList (K : Type) where
  queue : List (K × Nat)
  map : AList fun _ : K => Nat
  weight : Nat
  remembered : List K
  forgotten : List Nat

structure S3Inner (K V : Type) where
  map : AList fun _ : K => Entry V
  slots : Queue → List (Nat × K)
  ghost : GhostList K
  weight : Nat
  nextSeq : Nat

variable {K V : Type} [DecidableEq K]

namespace GhostList

/-- The place of a key's last remembering among all of them. -/
def stamp (g : GhostList K) (key : K) : Nat := (g.remembered.dropWhile (· ≠ key)).length

def enter (g : GhostList K) (key : K) (weight : Nat) : GhostList K :=
  { g with
    map := g.map.insert key weight
    weight := g.weight + weight
    remembered := key :: g.remembered }

def forget (g : GhostList K) (oldKey : K) (oldWeight : Nat) : GhostList K :=
  if oldKey ∈ g.map then
    { g with
      map := g.map.erase oldKey
      weight := g.weight - oldWeight
      forgotten := g.stamp oldKey :: g.forgotten }
  else g

/-- The loop of `remember_ghost`, with the queue that is left. -/
def trim (cap : Nat) : List (K × Nat) → GhostList K → GhostList K
  | [], g => { g with queue := [] }
  | (oldKey, oldWeight) :: rest, g =>
    if cap < g.weight ∨ ghostMaxEntries < rest.length + 1 then
      trim cap rest (g.forget oldKey oldWeight)
    else { g with queue := (oldKey, oldWeight) :: rest }

def rememberGhost (g : GhostList K) (key : K) (weight cap : Nat) : GhostList K :=
  if key ∈ g.map then g else trim cap (g.queue ++ [(key, weight)]) (g.enter key weight)

/-- The key leaves the map; its slot stays in the queue. -/
def take (g : GhostList K) (key : K) : GhostList K :=
  match g.map.lookup key with
  | some weight => { g with map := g.map.erase key, weight := g.weight - weight }
  | none => g

end GhostList

namespace S3Inner

def isLive (map : AList fun _ : K => Entry V) (queue : Queue) (slot : Nat × K) : Bool :=
  (map.lookup slot.2).any fun e => e.seq == slot.1 && e.queue == queue

def popLive (map : AList fun _ : K => Entry V) (queue : Queue) :
    List (Nat × K) → Option K × List (Nat × K)
  | [] => (none, [])
  | slot :: rest =>
    if isLive map queue slot then (some slot.2, rest) else popLive map queue rest

def popLiveKey (s : S3Inner K V) (queue : Queue) : Option K × S3Inner K V :=
  ((popLive s.map queue (s.slots queue)).1,
    { s with slots := Function.update s.slots queue (popLive s.map queue (s.slots queue)).2 })

def pushSlot (s : S3Inner K V) (queue : Queue) (seq : Nat) (key : K) : S3Inner K V :=
  { s with slots := Function.update s.slots queue (s.slots queue ++ [(seq, key)]) }

/-- `map.remove` with its weight. -/
def discard (s : S3Inner K V) (key : K) : S3Inner K V :=
  match s.map.lookup key with
  | some e => { s with map := s.map.erase key, weight := s.weight - e.weight }
  | none => s

/-- A hot entry goes to the end of the large queue under a fresh sequence number. -/
def requeue (s : S3Inner K V) (key : K) (tag : Queue → Queue) : S3Inner K V :=
  pushSlot
    { s with
      nextSeq := s.nextSeq + 1
      map := match s.map.lookup key with
        | some e => s.map.insert key
            { e with freq := e.freq - 1, queue := tag e.queue, seq := s.nextSeq }
        | none => s.map }
    .large s.nextSeq key

def isCold (s : S3Inner K V) (key : K) : Bool := (s.map.lookup key).any (·.freq == 0)

def isHot (s : S3Inner K V) (key : K) : Bool := (s.map.lookup key).any (0 < ·.freq)

/-- The small and the medium queue: a cold entry leaves, a hot one moves to the large queue. -/
def evictFrom (queue : Queue) (cold : S3Inner K V → K → S3Inner K V) (s : S3Inner K V) :
    Bool × S3Inner K V :=
  match s.popLiveKey queue with
  | (none, s) => (false, s)
  | (some key, s) =>
    (true, if s.isCold key then cold s key else s.requeue key fun _ => .large)

/-- A cold entry of the small queue leaves for the ghost list. -/
def banish (ghostCap : Nat) (s : S3Inner K V) (key : K) : S3Inner K V :=
  match s.map.lookup key with
  | some e => { s.discard key with ghost := s.ghost.rememberGhost key e.weight ghostCap }
  | none => s

def evictFromSmall (ghostCap : Nat) : S3Inner K V → Bool × S3Inner K V :=
  evictFrom .small (banish ghostCap)

def evictFromMedium : S3Inner K V → Bool × S3Inner K V := evictFrom .medium discard

/-! ## Termination of the second chances -/

theorem isLive_iff {map : AList fun _ : K => Entry V} {queue : Queue} {slot : Nat × K} :
    isLive map queue slot = true ↔
      ∃ e, map.lookup slot.2 = some e ∧ e.seq = slot.1 ∧ e.queue = queue := by
  simp [isLive, Option.any_eq_true]

def Alive (s : S3Inner K V) (queue : Queue) : Prop :=
  ∃ slot ∈ s.slots queue, isLive s.map queue slot = true

/-- The first live slot of the queue is the one of `key`, in front of `rest`. -/
structure Popped (s : S3Inner K V) (key : K) (e : Entry V) (rest : List (Nat × K)) : Prop where
  slots : ∃ stale, s.slots e.queue = stale ++ (e.seq, key) :: rest ∧
    ∀ slot ∈ stale, isLive s.map e.queue slot = false
  get : s.map.lookup key = some e

theorem popLive_cases (map : AList fun _ : K => Entry V) (queue : Queue) (slots : List (Nat × K)) :
    (popLive map queue slots = (none, []) ∧ ∀ slot ∈ slots, isLive map queue slot = false) ∨
      ∃ stale key rest e, popLive map queue slots = (some key, rest) ∧
        slots = stale ++ (e.seq, key) :: rest ∧ (∀ slot ∈ stale, isLive map queue slot = false) ∧
        map.lookup key = some e ∧ e.queue = queue := by
  induction slots with
  | nil => exact .inl ⟨rfl, by simp⟩
  | cons slot slots ih =>
    rw [popLive]
    cases hlive : isLive map queue slot with
    | true =>
      obtain ⟨e, hget, hseq, hqueue⟩ := isLive_iff.mp hlive
      exact .inr ⟨[], slot.2, slots, e, rfl, by rw [hseq]; rfl, by simp, hget, hqueue⟩
    | false =>
      rcases ih with ⟨hpop, hdead⟩ | ⟨stale, key, rest, e, hpop, rfl, hdead, hget⟩
      · exact .inl ⟨hpop, List.forall_mem_cons.mpr ⟨hlive, hdead⟩⟩
      · exact .inr ⟨slot :: stale, key, rest, e, hpop, rfl,
          List.forall_mem_cons.mpr ⟨hlive, hdead⟩, hget⟩

/-- Stale slots are skipped up to the first live one. -/
theorem popLiveKey_cases (s : S3Inner K V) (queue : Queue) :
    (¬ s.Alive queue ∧
      s.popLiveKey queue = (none, { s with slots := Function.update s.slots queue [] })) ∨
    ∃ key e rest, s.Popped key e rest ∧ e.queue = queue ∧
      s.popLiveKey queue = (some key, { s with slots := Function.update s.slots queue rest }) := by
  rw [popLiveKey]
  rcases popLive_cases s.map queue (s.slots queue) with
    ⟨hpop, hdead⟩ | ⟨stale, key, rest, e, hpop, hslots, hdead, hget, rfl⟩
  · refine .inl ⟨?_, by rw [hpop]⟩
    rintro ⟨slot, hslot, hlive⟩
    cases (hdead slot hslot).symm.trans hlive
  · exact .inr ⟨key, e, rest, ⟨⟨stale, hslots, hdead⟩, hget⟩, rfl, by rw [hpop]⟩

theorem requeue_of_some {s : S3Inner K V} {key : K} {e : Entry V} (h : s.map.lookup key = some e)
    (tag : Queue → Queue) : s.requeue key tag = pushSlot
      { s with
        nextSeq := s.nextSeq + 1
        map := s.map.insert key { e with freq := e.freq - 1, queue := tag e.queue, seq := s.nextSeq } }
      .large s.nextSeq key := by
  simp only [requeue, h]

/-- A second chance costs the entry one hit. -/
theorem requeue_heat_lt {s : S3Inner K V} {key : K} (h : s.isHot key = true) (tag : Queue → Queue) :
    (s.requeue key tag).map.total Entry.freq < s.map.total Entry.freq := by
  obtain ⟨e, hget, hhot⟩ : ∃ e, s.map.lookup key = some e ∧ 0 < e.freq := by
    simpa [isHot, Option.any_eq_true] using h
  rw [requeue_of_some hget, AList.total_erase (f := Entry.freq) hget]
  show AList.total (s.map.insert key _) _ < _
  rw [AList.total_insert]
  dsimp only
  omega

def evictFromLarge (s : S3Inner K V) (progress : Bool) : Bool × S3Inner K V :=
  match _hpop : s.popLiveKey .large with
  | (none, popped) => (progress, popped)
  | (some key, popped) =>
    if _hhot : popped.isHot key then evictFromLarge (popped.requeue key id) true
    else (true, popped.discard key)
termination_by s.map.total Entry.freq
decreasing_by
  have hmap : s.map = popped.map := congrArg (fun x => x.2.map) _hpop
  rw [hmap]
  exact requeue_heat_lt _hhot id

/-! ## The cache -/

def evictOnce (ghostCap : Nat) (s : S3Inner K V) : Bool × S3Inner K V :=
  match s.evictFromSmall ghostCap with
  | (true, s) => (true, s)
  | (false, s) =>
    match s.evictFromMedium with
    | (true, s) => (true, s)
    | (false, s) => s.evictFromLarge false

def evictRounds (capacity ghostCap : Nat) : Nat → S3Inner K V → S3Inner K V
  | 0, s => s
  | bound + 1, s =>
    if s.weight ≤ capacity then s
    else
      match s.evictOnce ghostCap with
      | (true, s) => evictRounds capacity ghostCap bound s
      | (false, s) => s

def evictWhileOver (capacity ghostCap : Nat) (s : S3Inner K V) : S3Inner K V :=
  evictRounds capacity ghostCap (s.map.entries.length * 4 + 32) s

end S3Inner

structure LruCache (K V : Type) where
  capacity : Nat
  ghostCap : Nat
  weigher : K → V → Nat

inductive CacheCall (K V : Type) where
  | get (key : K)
  | insert (key : K) (value : V)
  | remove (key : K)

namespace LruCache

variable (c : LruCache K V)

def new (maxCapacity : Nat) (weigher : K → V → Nat) : LruCache K V :=
  ⟨maxCapacity, maxCapacity, weigher⟩

def start : S3Inner K V := ⟨∅, fun _ => [], ⟨[], ∅, 0, [], []⟩, 0, 0⟩

def get (s : S3Inner K V) (key : K) : Option V × S3Inner K V :=
  match s.map.lookup key with
  | some e => (some e.value,
      { s with map := s.map.insert key { e with freq := min (e.freq + 1) maxFreq } })
  | none => (none, s)

def place (s : S3Inner K V) (key : K) (value : V) : S3Inner K V :=
  let weight := c.weigher key value
  match s.map.lookup key with
  | some e =>
    { s with
      map := s.map.insert key
        { e with value := value, weight := weight, freq := min (e.freq + 1) maxFreq }
      weight := s.weight - e.weight + weight }
  | none =>
    if weight ≤ c.capacity then
      let (queue, freq) := if key ∈ s.ghost.map then (Queue.medium, 1) else (Queue.small, 0)
      { s with
        map := s.map.insert key ⟨value, weight, freq, queue, s.nextSeq⟩
        ghost := s.ghost.take key
        weight := s.weight + weight
        nextSeq := s.nextSeq + 1 }.pushSlot queue s.nextSeq key
    else s

def insert (s : S3Inner K V) (key : K) (value : V) : S3Inner K V :=
  (c.place s key value).evictWhileOver c.capacity c.ghostCap

def remove (s : S3Inner K V) (key : K) : S3Inner K V :=
  { s.discard key with ghost := s.ghost.take key }

def call (s : S3Inner K V) : CacheCall K V → S3Inner K V
  | .get key => (get s key).2
  | .insert key value => c.insert s key value
  | .remove key => remove s key

def run (calls : List (CacheCall K V)) : S3Inner K V := calls.foldl c.call start

end LruCache

/-! ## What eviction does -/

namespace S3Inner

variable {ghostCap : Nat} {s s' : S3Inner K V}

/-- What eviction can do at once: skip the stale slots of a queue, drop a cold entry, or move a
hot one to the end of the large queue. -/
inductive Move (ghostCap : Nat) (s : S3Inner K V) : S3Inner K V → Prop
  | sweep {queue : Queue} (hdead : ¬ s.Alive queue) :
      Move ghostCap s { s with slots := Function.update s.slots queue [] }
  | drop {rest : List (Nat × K)} {key : K} {e : Entry V} (hpop : s.Popped key e rest)
      (hcold : e.freq = 0) {ghost : GhostList K}
      (hghost : ghost = if e.queue = .small then s.ghost.rememberGhost key e.weight ghostCap
        else s.ghost) :
      Move ghostCap s ⟨s.map.erase key, Function.update s.slots e.queue rest, ghost,
        s.weight - e.weight, s.nextSeq⟩
  | requeue {rest : List (Nat × K)} {key : K} {e : Entry V} (hpop : s.Popped key e rest)
      (hhot : e.freq ≠ 0) :
      Move ghostCap s (pushSlot
        ⟨s.map.insert key { e with freq := e.freq - 1, queue := .large, seq := s.nextSeq },
          Function.update s.slots e.queue rest, s.ghost, s.weight, s.nextSeq + 1⟩
        .large s.nextSeq key)

/-- The rounds that are left: an entry of the small or the medium queue is moved once before it is
dropped. -/
def rounds (s : S3Inner K V) : Nat := s.map.total fun e => if e.queue = .large then 1 else 2

section Popped

variable {rest : List (Nat × K)} {key : K} {e : Entry V}

theorem discard_of_some (h : s.map.lookup key = some e) :
    s.discard key = { s with map := s.map.erase key, weight := s.weight - e.weight } := by
  simp only [discard, h]

theorem isCold_of_some (h : s.map.lookup key = some e) : s.isCold key = decide (e.freq = 0) := by
  rw [isCold, h]
  rfl

theorem rounds_drop (h : s.map.lookup key = some e) :
    (s.map.erase key).total (fun e => if e.queue = .large then 1 else 2) < s.rounds := by
  rw [rounds, AList.total_erase h]
  split <;> omega

/-- A hot entry goes to the large queue, where it is live. -/
theorem requeue_popped (ghostCap : Nat) (h : s.Popped key e rest) (tag : Queue → Queue)
    (htag : tag e.queue = .large) (hhot : e.freq ≠ 0)
    (hs' : s' = requeue { s with slots := Function.update s.slots e.queue rest } key tag) :
    Move ghostCap s s' ∧ s'.Alive .large ∧
      s'.rounds + (if e.queue = .large then 0 else 1) = s.rounds := by
  rw [requeue_of_some (by exact h.get), htag] at hs'
  subst hs'
  refine ⟨.requeue h hhot, ⟨(s.nextSeq, key), by simp [pushSlot], ?_⟩, ?_⟩
  · exact isLive_iff.mpr ⟨_, AList.lookup_insert _, rfl, rfl⟩
  · rw [rounds, rounds, AList.total_erase h.get]
    show AList.total (s.map.insert key _) _ + _ = _
    rw [AList.total_insert, if_pos rfl]
    split <;> omega

end Popped

/-- Without a live slot the queue is swept, and otherwise there is one round less to go. -/
theorem evictFrom_cases (ghostCap : Nat) (s : S3Inner K V) {queue : Queue} (hqueue : queue ≠ .large)
    (cold : S3Inner K V → K → S3Inner K V)
    (hcold : ∀ {key e rest}, s.Popped key e rest → e.queue = queue → e.freq = 0 →
      Move ghostCap s (cold { s with slots := Function.update s.slots queue rest } key) ∧
        (cold { s with slots := Function.update s.slots queue rest } key).rounds < s.rounds) :
    (¬ s.Alive queue ∧ s.evictFrom queue cold =
      (false, { s with slots := Function.update s.slots queue [] })) ∨
    ∃ s', s.evictFrom queue cold = (true, s') ∧ Move ghostCap s s' ∧ s'.rounds < s.rounds := by
  rw [evictFrom]
  rcases s.popLiveKey_cases queue with ⟨hdead, hpop⟩ | ⟨key, e, rest, h, rfl, hpop⟩
  · exact .inl ⟨hdead, by rw [hpop]⟩
  · rw [hpop]
    refine .inr ⟨_, rfl, ?_⟩
    rw [isCold_of_some (by exact h.get)]
    by_cases hfreq : e.freq = 0
    · rw [if_pos (decide_eq_true hfreq)]
      exact hcold h rfl hfreq
    · rw [if_neg (by simpa using hfreq)]
      obtain ⟨hmove, -, hrounds⟩ := requeue_popped ghostCap h (fun _ => .large) rfl hfreq rfl
      rw [if_neg hqueue] at hrounds
      exact ⟨hmove, by omega⟩

/-- A queue with a live slot keeps one until an entry is dropped. -/
theorem evictFromLarge_alive (ghostCap : Nat) (progress : Bool) (h : s.Alive .large) :
    ∃ s', s.evictFromLarge progress = (true, s') ∧ Relation.ReflTransGen (Move ghostCap) s s' ∧
      s'.rounds < s.rounds := by
  fun_induction evictFromLarge s progress with
  | case1 s progress popped hpop =>
    rcases s.popLiveKey_cases .large with ⟨hdead, -⟩ | ⟨key, e, rest, -, -, hpop'⟩
    · exact absurd h hdead
    · cases hpop'.symm.trans hpop
  | case2 s progress key popped hpop hhot ih =>
    rcases s.popLiveKey_cases .large with ⟨hdead, -⟩ | ⟨key', e, rest, h', hqueue, hpop'⟩
    · exact absurd h hdead
    cases hpop'.symm.trans hpop
    have hfreq : e.freq ≠ 0 := by
      simpa [isHot, h'.get, Nat.pos_iff_ne_zero] using hhot
    rw [← hqueue] at ih ⊢
    obtain ⟨hmove, halive, hrounds⟩ := requeue_popped ghostCap h' id hqueue hfreq rfl
    obtain ⟨s', heq, hmoves, hlt⟩ := ih (hqueue ▸ halive)
    exact ⟨s', heq, .head hmove hmoves, by omega⟩
  | case3 s progress key popped hpop hcold =>
    rcases s.popLiveKey_cases .large with ⟨hdead, -⟩ | ⟨key', e, rest, h', hqueue, hpop'⟩
    · exact absurd h hdead
    cases hpop'.symm.trans hpop
    have hfreq : e.freq = 0 := by
      simpa [isHot, h'.get] using hcold
    rw [discard_of_some (by exact h'.get), ← hqueue]
    exact ⟨_, rfl, .single (.drop h' hfreq (by rw [hqueue]; rfl)), rounds_drop h'.get⟩

theorem evictFromLarge_dead (progress : Bool) (h : ¬ s.Alive .large) :
    s.evictFromLarge progress =
      (progress, { s with slots := Function.update s.slots .large [] }) := by
  rcases s.popLiveKey_cases .large with ⟨-, hpop⟩ | ⟨key, e, rest, h', hqueue, -⟩
  · rw [evictFromLarge]
    split
    · rename_i hpop'
      cases hpop.symm.trans hpop'
      rfl
    · rename_i hpop'
      cases hpop.symm.trans hpop'
  · obtain ⟨stale, hslots, -⟩ := h'.slots
    rw [hqueue] at hslots
    exact absurd ⟨_, hslots ▸ List.mem_append_right _ List.mem_cons_self,
      isLive_iff.mpr ⟨e, h'.get, rfl, hqueue⟩⟩ h

/-- A round fails only if no slot is live. -/
theorem evictOnce_cases (ghostCap : Nat) (s : S3Inner K V) :
    Relation.ReflTransGen (Move ghostCap) s (s.evictOnce ghostCap).2 ∧
      (((s.evictOnce ghostCap).1 = true ∧ (s.evictOnce ghostCap).2.rounds < s.rounds) ∨
        ((s.evictOnce ghostCap).1 = false ∧ ∀ queue, ¬ s.Alive queue)) := by
  rw [evictOnce, evictFromSmall]
  rcases evictFrom_cases ghostCap s (by decide : Queue.small ≠ .large) (banish ghostCap)
      fun h hqueue hfreq => by
        simp only [banish, discard, h.get, ← hqueue]
        exact ⟨.drop h hfreq (if_pos hqueue).symm, rounds_drop h.get⟩
    with ⟨hsmall, heq⟩ | ⟨s', heq, hmove, hlt⟩
  swap
  · rw [heq]
    exact ⟨.single hmove, .inl ⟨rfl, hlt⟩⟩
  rw [heq]
  set s1 : S3Inner K V := { s with slots := Function.update s.slots .small [] }
  have hsweep : Move ghostCap s s1 := .sweep hsmall
  dsimp only
  rw [evictFromMedium]
  rcases evictFrom_cases ghostCap s1 (by decide : Queue.medium ≠ .large) discard
    fun h hqueue hfreq => by
      rw [discard_of_some (by exact h.get), ← hqueue]
      exact ⟨.drop h hfreq (by rw [hqueue]; rfl), rounds_drop h.get⟩
    with ⟨hmedium, heq⟩ | ⟨s', heq, hmove, hlt⟩
  swap
  · rw [heq]
    exact ⟨.tail (.single hsweep) hmove, .inl ⟨rfl, hlt⟩⟩
  rw [heq]
  set s2 : S3Inner K V := { s1 with slots := Function.update s1.slots .medium [] }
  have hsweeps : Relation.ReflTransGen (Move ghostCap) s s2 := .tail (.single hsweep) (.sweep hmedium)
  dsimp only
  by_cases hlarge : s2.Alive .large
  · obtain ⟨s', heq, hmoves, hlt⟩ := evictFromLarge_alive ghostCap false hlarge
    rw [heq]
    exact ⟨hsweeps.trans hmoves, .inl ⟨rfl, hlt⟩⟩
  · rw [evictFromLarge_dead false hlarge]
    refine ⟨hsweeps.tail (.sweep hlarge), .inr ⟨rfl, fun queue => ?_⟩⟩
    cases queue with
    | small => exact hsmall
    | medium => exact hmedium
    | large => exact hlarge

end S3Inner

end OxKv.S3Fifo
