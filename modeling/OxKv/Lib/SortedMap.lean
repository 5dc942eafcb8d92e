import Mathlib.Algebra.GroupWithZero.Nat
import Mathlib.Algebra.Order.BigOperators.Group.List
import Mathlib.Data.Finset.Basic
import Mathlib.Data.List.AList
import Mathlib.Data.List.Induction
import Mathlib.Data.List.Lookmap
import Mathlib.Data.List.Sort
import Mathlib.Data.Set.Function
import Mathlib.Data.String.Basic
import Mathlib.Logic.Equiv.List
import Mathlib.Logic.Relation

/-!
Finite maps over a linear order, kept as strictly ascending association lists.
The order of the keys is a field of the structure, so a map can always be
walked in key order and two maps with the same lookups are equal
(`SortedMap.ext_get`).
-/

/-- A finite map whose entries are listed in strictly ascending key order. -/
structure SortedMap (α β : Type) [LinearOrder α] where
  toList : List (α × β)
  ascending : toList.Pairwise (fun a b => a.1 < b.1)

namespace SortedMap

variable {α β γ : Type} [LinearOrder α]

instance [DecidableEq β] : DecidableEq (SortedMap α β) := fun a b =>
  decidable_of_iff (a.toList = b.toList) <| by
    cases a; cases b; simp

theorem lookup_cons_ite (k k' : α) (v : β) (l : List (α × β)) :
    ((k', v) :: l).lookup k = if k = k' then some v else l.lookup k := by
  by_cases h : k = k'
  · simp [h]
  · have hb : (k == k') = false := by simpa using h
    rw [List.lookup_cons, hb, if_neg h]

variable {l : List (α × β)} {k : α}

theorem lookup_eq_none_of_forall_ne (h : ∀ e ∈ l, e.1 ≠ k) : l.lookup k = none := by
  induction l with
  | nil => rfl
  | cons e l ih =>
    rw [lookup_cons_ite, if_neg (Ne.symm (h e (by simp)))]
    exact ih fun e' he' => h e' (by simp [he'])

variable {v : β}

theorem mem_of_lookup (h : l.lookup k = some v) : (k, v) ∈ l := by
  induction l with
  | nil => cases h
  | cons e l ih =>
    rw [lookup_cons_ite] at h
    split at h
    · rename_i hk
      obtain rfl := Option.some.inj h
      simp [hk]
    · exact List.mem_cons_of_mem _ (ih h)

def get? (m : SortedMap α β) (k : α) : Option β := m.toList.lookup k

def empty : SortedMap α β := ⟨[], List.Pairwise.nil⟩

def isEmpty (m : SortedMap α β) : Bool := m.toList.isEmpty

/-- Insertion into an ascending list, replacing the entry of an equal key. -/
def insertList (k : α) (v : β) : List (α × β) → List (α × β)
  | [] => [(k, v)]
  | (k', v') :: l =>
    if k < k' then (k, v) :: (k', v') :: l
    else if k = k' then (k, v) :: l
    else (k', v') :: insertList k v l

theorem mem_insertList {p : α × β} (h : p ∈ insertList k v l) : p = (k, v) ∨ p ∈ l := by
  induction l with
  | nil => simpa [insertList] using h
  | cons q l ih =>
    obtain ⟨k', v'⟩ := q
    simp only [insertList] at h
    split at h
    · simpa using h
    · split at h
      · rcases List.mem_cons.mp h with h | h
        · exact .inl h
        · exact .inr (List.mem_cons_of_mem _ h)
      · rcases List.mem_cons.mp h with h | h
        · exact .inr (h ▸ List.mem_cons_self ..)
        · rcases ih h with h | h
          · exact .inl h
          · exact .inr (List.mem_cons_of_mem _ h)

theorem insertList_ascending (k : α) (v : β) (h : l.Pairwise (fun a b => a.1 < b.1)) :
    (insertList k v l).Pairwise (fun a b => a.1 < b.1) := by
  induction l with
  | nil => simp [insertList]
  | cons q l ih =>
    obtain ⟨k', v'⟩ := q
    have hq := List.pairwise_cons.mp h
    simp only [insertList]
    split
    · rename_i hlt
      refine List.pairwise_cons.mpr ⟨?_, h⟩
      intro p hp
      rcases List.mem_cons.mp hp with rfl | hp
      · exact hlt
      · exact hlt.trans (hq.1 p hp)
    · rename_i hge
      split
      · rename_i heq
        subst heq
        exact List.pairwise_cons.mpr ⟨hq.1, hq.2⟩
      · rename_i hne
        refine List.pairwise_cons.mpr ⟨?_, ih hq.2⟩
        intro p hp
        rcases mem_insertList hp with rfl | hp
        · exact lt_of_le_of_ne (not_lt.mp hge) (Ne.symm hne)
        · exact hq.1 p hp

theorem lookup_insertList (k : α) (v : β) (k1 : α) (l : List (α × β)) :
    (insertList k v l).lookup k1 = if k1 = k then some v else l.lookup k1 := by
  induction l with
  | nil => simp [insertList, lookup_cons_ite]
  | cons q l ih =>
    obtain ⟨k', v'⟩ := q
    simp only [insertList]
    split
    · simp [lookup_cons_ite]
    · split
      · rename_i heq
        subst heq
        by_cases h : k1 = k <;> simp [lookup_cons_ite, h]
      · rename_i hne
        by_cases h : k1 = k'
        · subst h
          simp [Ne.symm hne]
        · simp [lookup_cons_ite, h, ih]

def insert (m : SortedMap α β) (k : α) (v : β) : SortedMap α β :=
  ⟨insertList k v m.toList, insertList_ascending k v m.ascending⟩

/-- `entry(k).or_insert(v)`: an entry already there is kept. -/
def insertNew (m : SortedMap α β) (k : α) (v : β) : SortedMap α β :=
  match m.get? k with
  | some _ => m
  | none => m.insert k v

def filter (m : SortedMap α β) (p : α → β → Bool) : SortedMap α β :=
  ⟨m.toList.filter (fun e => p e.1 e.2), m.ascending.filter _⟩

def erase (m : SortedMap α β) (k : α) : SortedMap α β := m.filter (fun k' _ => k' ≠ k)

/-- Entries mapped value by value; a `none` drops the entry. -/
def filterMap (m : SortedMap α β) (f : α → β → Option γ) : SortedMap α γ :=
  ⟨m.toList.filterMap (fun e => (f e.1 e.2).map (e.1, ·)), by
    refine .filterMap _ ?_ m.ascending
    intro a b hab a' ha b' hb
    obtain ⟨_, _, rfl⟩ := Option.map_eq_some_iff.mp ha
    obtain ⟨_, _, rfl⟩ := Option.map_eq_some_iff.mp hb
    exact hab⟩

/-- Insert a list of entries, oldest first. -/
def insertAll (m : SortedMap α β) (l : List (α × β)) : SortedMap α β :=
  l.foldl (fun m e => m.insert e.1 e.2) m

def keys (m : SortedMap α β) : List α := m.toList.map Prod.fst

def firstKey? (m : SortedMap α β) : Option α := m.keys.head?

def lastKey? (m : SortedMap α β) : Option α := m.keys.getLast?

/-! ## Lookups -/

@[simp] theorem get?_empty (k : α) : (empty : SortedMap α β).get? k = none := rfl

theorem get?_insert (m : SortedMap α β) (k : α) (v : β) (k1 : α) :
    (m.insert k v).get? k1 = if k1 = k then some v else m.get? k1 :=
  lookup_insertList k v k1 m.toList

theorem get?_insertNew (m : SortedMap α β) (k : α) (v : β) (k1 : α) :
    (m.insertNew k v).get? k1 = (m.get? k1).or (if k1 = k then some v else none) := by
  unfold insertNew
  cases h : m.get? k with
  | some w =>
    by_cases hk : k1 = k
    · subst hk; simp [h]
    · simp [hk]
  | none =>
    rw [get?_insert]
    by_cases hk : k1 = k
    · subst hk; simp [h]
    · simp [hk]

theorem mem_toList (m : SortedMap α β) (k : α) (v : β) :
    (k, v) ∈ m.toList ↔ m.get? k = some v := by
  obtain ⟨l, hl⟩ := m
  simp only [get?]
  induction l with
  | nil => simp
  | cons q l ih =>
    obtain ⟨k', v'⟩ := q
    have hq := List.pairwise_cons.mp hl
    by_cases h : k = k'
    · subst h
      have hnot : (k, v) ∉ l := fun hm => lt_irrefl k (hq.1 (k, v) hm)
      simp [hnot, eq_comm]
    · simp [lookup_cons_ite, h, ih hq.2]

theorem mem_keys (m : SortedMap α β) (k : α) : k ∈ m.keys ↔ ∃ v, m.get? k = some v := by
  simp [keys, ← mem_toList]

theorem get?_filter (m : SortedMap α β) (p : α → β → Bool) (k : α) :
    (m.filter p).get? k = (m.get? k).filter (p k) := by
  apply Option.ext
  intro v
  rw [← mem_toList]
  simp [filter, mem_toList, Option.filter_eq_some_iff]

theorem get?_erase (m : SortedMap α β) (k k1 : α) :
    (m.erase k).get? k1 = if k1 = k then none else m.get? k1 := by
  rw [erase, get?_filter]
  by_cases h : k1 = k
  · simp [h]
  · rw [if_neg h]
    cases m.get? k1 <;> simp [h, Option.filter]

theorem get?_filterMap (m : SortedMap α β) (f : α → β → Option γ) (k : α) :
    (m.filterMap f).get? k = (m.get? k).bind (f k) := by
  apply Option.ext
  intro v
  rw [← mem_toList]
  simp only [filterMap, List.mem_filterMap, Option.map_eq_some_iff, Prod.mk.injEq,
    Option.bind_eq_some_iff]
  constructor
  · rintro ⟨⟨k', w⟩, hm, x, hx, rfl, rfl⟩
    exact ⟨w, (mem_toList m _ w).mp hm, hx⟩
  · rintro ⟨w, hw, hf⟩
    exact ⟨(k, w), (mem_toList m k w).mpr hw, v, hf, rfl, rfl⟩

theorem isEmpty_iff (m : SortedMap α β) : m.isEmpty = true ↔ ∀ k, m.get? k = none := by
  constructor
  · intro h k
    have hl : m.toList = [] := by simpa [isEmpty] using h
    simp [get?, hl]
  · intro h
    have hl : m.toList = [] := by
      apply List.eq_nil_iff_forall_not_mem.mpr
      rintro ⟨k, v⟩ hm
      have := (mem_toList m k v).mp hm
      rw [h k] at this
      cases this
    simp [isEmpty, hl]

/-- Ascending lists with the same members are equal. -/
theorem ascending_unique {l1 l2 : List (α × β)}
    (h1 : l1.Pairwise (fun a b => a.1 < b.1)) (h2 : l2.Pairwise (fun a b => a.1 < b.1))
    (h : ∀ p, p ∈ l1 ↔ p ∈ l2) : l1 = l2 := by
  have nd : ∀ {l : List (α × β)}, l.Pairwise (fun a b => a.1 < b.1) → l.Nodup := by
    intro l hl
    refine hl.imp ?_
    rintro a b hab rfl
    exact lt_irrefl _ hab
  have hp : l1.Perm l2 := (List.perm_ext_iff_of_nodup (nd h1) (nd h2)).mpr h
  exact hp.eq_of_pairwise (fun a b _ _ hab hba => absurd hab (lt_asymm hba)) h1 h2

theorem ext_get {m1 m2 : SortedMap α β} (h : ∀ k, m1.get? k = m2.get? k) : m1 = m2 := by
  have hl : m1.toList = m2.toList := by
    apply ascending_unique m1.ascending m2.ascending
    rintro ⟨k, v⟩
    rw [mem_toList, mem_toList, h k]
  cases m1; cases m2; simpa using hl

/-! ## Extreme keys -/

theorem firstKey?_le (m : SortedMap α β) {a : α} (ha : m.firstKey? = some a)
    (hk : m.get? k = some v) : a ≤ k := by
  obtain ⟨l, hl⟩ := m
  cases l with
  | nil => simp [firstKey?, keys] at ha
  | cons q l =>
    have hm := (mem_toList ⟨q :: l, hl⟩ k v).mpr hk
    simp only [firstKey?, keys, List.map_cons, List.head?_cons, Option.some.injEq] at ha
    subst ha
    rcases List.mem_cons.mp hm with e | hm
    · exact le_of_eq (congrArg Prod.fst e).symm
    · exact le_of_lt ((List.pairwise_cons.mp hl).1 _ hm)

theorem le_lastKey? (m : SortedMap α β) {b : α} (hb : m.lastKey? = some b) (hk : m.get? k = some v) :
    k ≤ b := by
  obtain ⟨l, hl⟩ := m
  have hm := (mem_toList ⟨l, hl⟩ k v).mpr hk
  simp only [lastKey?, keys, List.getLast?_map, Option.map_eq_some_iff] at hb
  obtain ⟨⟨b', w⟩, hlast, rfl⟩ := hb
  obtain ⟨pre, rfl⟩ := List.getLast?_eq_some_iff.mp hlast
  simp only [List.mem_append, List.mem_singleton] at hm
  rcases hm with hm | e
  · exact le_of_lt ((List.pairwise_append.mp hl).2.2 _ hm _ (by simp))
  · exact le_of_eq (congrArg Prod.fst e)

theorem firstKey?_isSome (m : SortedMap α β) (h : m.isEmpty = false) :
    ∃ a v, m.firstKey? = some a ∧ m.get? a = some v := by
  obtain ⟨l, hl⟩ := m
  cases l with
  | nil => simp [isEmpty] at h
  | cons q l => exact ⟨q.1, q.2, rfl, by simp [get?, lookup_cons_ite q.1 q.1 q.2 l]⟩

theorem lastKey?_isSome (m : SortedMap α β) (h : m.isEmpty = false) :
    ∃ b v, m.lastKey? = some b ∧ m.get? b = some v := by
  have hne : m.toList ≠ [] := by simpa [isEmpty] using h
  refine ⟨(m.toList.getLast hne).1, (m.toList.getLast hne).2, ?_, ?_⟩
  · simp [lastKey?, keys, List.getLast?_map, List.getLast?_eq_getLast_of_ne_nil hne]
  · exact (mem_toList m _ _).mp (List.getLast_mem hne)

theorem get?_firstKey? (m : SortedMap α β) {a : α} (ha : m.firstKey? = some a) :
    ∃ v, m.get? a = some v := by
  have hne : m.isEmpty = false := by
    by_contra h
    have hnil : m.toList = [] := by simpa [isEmpty] using h
    simp [firstKey?, keys, hnil] at ha
  obtain ⟨b, v, hb, hv⟩ := m.firstKey?_isSome hne
  exact ⟨v, Option.some.inj (hb.symm.trans ha) ▸ hv⟩

theorem get?_lastKey? (m : SortedMap α β) {b : α} (hb : m.lastKey? = some b) :
    ∃ v, m.get? b = some v := by
  have hne : m.isEmpty = false := by
    by_contra h
    have hnil : m.toList = [] := by simpa [isEmpty] using h
    simp [lastKey?, keys, hnil] at hb
  obtain ⟨a, v, ha, hv⟩ := m.lastKey?_isSome hne
  exact ⟨v, Option.some.inj (ha.symm.trans hb) ▸ hv⟩

/-! ## Inserting lists of entries -/

@[simp] theorem insertAll_nil (m : SortedMap α β) : m.insertAll [] = m := rfl

@[simp] theorem insertAll_cons (m : SortedMap α β) (e : α × β) (l : List (α × β)) :
    m.insertAll (e :: l) = (m.insert e.1 e.2).insertAll l := rfl

/-- What holds of the entries and of those inserted holds of the result. -/
theorem forall_mem_insertAll {p : α × β → Prop} {m : SortedMap α β} (hm : ∀ e ∈ m.toList, p e)
    (hl : ∀ e ∈ l, p e) : ∀ e ∈ (m.insertAll l).toList, p e := by
  induction l generalizing m with
  | nil => exact hm
  | cons e l ih =>
    refine ih (fun x hx => ?_) fun x hx => hl x (List.mem_cons_of_mem e hx)
    rcases mem_insertList hx with rfl | hx
    · exact hl e List.mem_cons_self
    · exact hm x hx

theorem insertAll_append (m : SortedMap α β) (l1 l2 : List (α × β)) :
    m.insertAll (l1 ++ l2) = (m.insertAll l1).insertAll l2 := by
  simp [insertAll, List.foldl_append]

/-- The last entry of the list for a key decides; without one the map does. -/
theorem get?_insertAll (m : SortedMap α β) (l : List (α × β)) (k : α) :
    (m.insertAll l).get? k = (l.reverse.lookup k).or (m.get? k) := by
  induction l generalizing m with
  | nil => simp
  | cons e l ih =>
    rw [insertAll_cons, ih, get?_insert, List.reverse_cons, List.lookup_append, Option.or_assoc]
    have he : [e].lookup k = if k = e.1 then some e.2 else none :=
      lookup_cons_ite k e.1 e.2 []
    rw [he]
    split <;> simp

end SortedMap
