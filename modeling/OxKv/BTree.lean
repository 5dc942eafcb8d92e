import OxKv.Spec.Plain

/-!
`BTreeStore`: an ordered map in memory. Its scans are written over ranges of the
map; `BTreeStore.getsBytes_eq` says that they are the scans of a plain ordered map.
-/

namespace OxKv

abbrev BTreeStore := SortedMap Key Bytes

namespace BTreeStore

/-- `map.range(..)` with inclusive bounds, in key order. -/
def range (map : BTreeStore) (lo hi : Option Key) : List KeyValue :=
  map.toList.filter fun kv => inRange lo hi kv.1

/-- The loop of `collect_next_range` and `collect_prev_range`. -/
def collect (limit : Option Nat) : List KeyValue → List KeyValue → List KeyValue
  | vec, [] => vec
  | vec, kv :: rows =>
    if limit.any fun lim => lim ≤ vec.length then vec
    else collect limit (vec ++ [kv]) rows

def collectNextRange (map : BTreeStore) (lo hi : Option Key) (limit : Option Nat) : List KeyValue :=
  collect limit [] (map.range lo hi)

def collectPrevRange (map : BTreeStore) (lo hi : Option Key) (limit : Option Nat) : List KeyValue :=
  collect limit [] (map.range lo hi).reverse

def buildNext (map : BTreeStore) (cursor : Cursor) (limit : Option Nat) : List KeyValue :=
  match cursor with
  | (some start, some stop) =>
    if stop < start then [] else collectNextRange map (some start) (some stop) limit
  | (some start, none) => collectNextRange map (some start) none limit
  | (none, some stop) => collectNextRange map none (some stop) limit
  | (none, none) => collectNextRange map none none limit

/-- `build_prev`: without a start there is nowhere to go back from. -/
def buildPrev (map : BTreeStore) (cursor : Cursor) (limit : Option Nat) : List KeyValue :=
  match cursor with
  | (none, _) => []
  | (some start, some stop) =>
    if start < stop then [] else collectPrevRange map (some stop) (some start) limit
  | (some start, none) => collectPrevRange map none (some start) limit

def getsBytes (map : BTreeStore) (limit : Option Nat) (d : Direction) (cursor : Cursor) :
    List KeyValue :=
  match d with
  | .next => buildNext map cursor limit
  | .prev => buildPrev map cursor limit

theorem collect_eq (limit : Option Nat) (vec rows : List KeyValue) :
    collect limit vec rows = vec ++ cut (limit.map fun lim => lim - vec.length) rows := by
  induction rows generalizing vec with
  | nil => cases limit <;> simp [collect, cut]
  | cons kv rows ih =>
    rw [collect]
    cases limit with
    | none => simp [ih, cut]
    | some lim =>
      by_cases hle : lim ≤ vec.length
      · simp [hle, cut]
      · have hsub : lim - vec.length = lim - (vec.length + 1) + 1 := by omega
        simp [hle, ih, cut, hsub]

theorem collect_nil (limit : Option Nat) (rows : List KeyValue) :
    collect limit [] rows = cut limit rows := by
  rw [collect_eq]
  cases limit <;> simp

theorem range_eq_nil {map : BTreeStore} {lo hi : Key} (h : hi < lo) :
    map.range (some lo) (some hi) = [] := by
  refine List.filter_eq_nil_iff.mpr fun kv _ => ?_
  simp only [inRange, Bool.and_eq_true, decide_eq_true_eq, not_and, not_le]
  exact fun hlo => lt_of_lt_of_le h hlo

/-- The scans of a `BTreeStore` are those of a plain map. -/
theorem getsBytes_eq (map : BTreeStore) (limit : Option Nat) (d : Direction) (c : Cursor) :
    map.getsBytes limit d c = Plain.gets map limit d c := by
  have hcut : cut limit ([] : List KeyValue) = [] := by cases limit <;> simp [cut]
  have hnext : ∀ lo hi, collectNextRange map lo hi limit = cut limit (map.range lo hi) :=
    fun lo hi => collect_nil _ _
  have hprev : ∀ lo hi, collectPrevRange map lo hi limit = cut limit (map.range lo hi).reverse :=
    fun lo hi => collect_nil _ _
  obtain ⟨start, stop⟩ := c
  cases d with
  | next =>
    show buildNext map (start, stop) limit = cut limit (map.range start stop)
    cases start with
    | none => cases stop <;> exact hnext _ _
    | some start =>
      cases stop with
      | none => exact hnext _ _
      | some stop =>
        rw [buildNext]
        split
        · rw [range_eq_nil ‹_›, hcut]
        · exact hnext _ _
  | prev =>
    cases start with
    | none => rfl
    | some start =>
      show buildPrev map (some start, stop) limit = cut limit (map.range stop (some start)).reverse
      cases stop with
      | none => exact hprev _ _
      | some stop =>
        rw [buildPrev]
        split
        · rw [range_eq_nil ‹_›, List.reverse_nil, hcut]
        · exact hprev _ _

end BTreeStore

end OxKv
