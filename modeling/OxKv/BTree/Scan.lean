import OxKv.BTree.Store

/-!
The scans of a `BTreeTx` are those of the map with the overlay applied
(`BTreeTx.getsBytes_eq`). Both directions go through `Plain.gets_eq_cut`: the merge of
the two sides lists the right rows in the right order.
-/

namespace OxKv.BTreeTx

def direction (forward : Bool) : Direction := if forward then .next else .prev

/-! ## The two sides -/

/-- A side is a filter of the map, walked through in the direction of the scan. -/
theorem side_eq {β : Type} (map : SortedMap Key β) (c : Cursor) (forward : Bool) :
    side map c forward = (fun rows => if forward then rows else rows.reverse)
      (map.toList.filter fun kv => Plain.inScan (direction forward) c kv.1) := by
  obtain ⟨start, stop⟩ := c
  have hempty : ∀ {lo hi : Key}, hi < lo →
      (map.toList.filter fun kv => inRange (some lo) (some hi) kv.1) = [] := by
    intro lo hi h
    refine List.filter_eq_nil_iff.mpr fun kv _ => ?_
    simp only [inRange, Bool.and_eq_true, decide_eq_true_eq, not_and, not_le]
    exact fun hlo => lt_of_lt_of_le h hlo
  cases forward with
  | true =>
    cases start <;> cases stop
    · simp [side, direction, Plain.inScan, inRange, scanBounds]
    · simp [side, direction, Plain.inScan, scanBounds]
    · simp [side, direction, Plain.inScan, scanBounds]
    · rename_i s e
      by_cases h : s ≤ e
      · simp [side, direction, Plain.inScan, scanBounds, h]
      · simpa [side, direction, Plain.inScan, scanBounds, h] using hempty (not_le.mp h)
  | false =>
    cases start <;> cases stop
    · simp [side, direction, Plain.inScan]
    · simp [side, direction, Plain.inScan]
    · simp [side, direction, Plain.inScan, scanBounds]
    · rename_i s e
      by_cases h : e ≤ s
      · simp [side, direction, Plain.inScan, scanBounds, h]
      · simpa [side, direction, Plain.inScan, scanBounds, h] using hempty (not_le.mp h)

variable {forward : Bool} {c : Cursor}

theorem mem_side {β : Type} {map : SortedMap Key β} {kv : Key × β} :
    kv ∈ side map c forward ↔
      Plain.inScan (direction forward) c kv.1 ∧ map.get? kv.1 = some kv.2 := by
  rw [side_eq, ← SortedMap.mem_toList, and_comm]
  cases forward <;> simp

theorem side_ordered {β : Type} (map : SortedMap Key β) (c : Cursor) (forward : Bool) :
    (side map c forward).Pairwise fun a b => Plain.precedes (direction forward) a.1 b.1 := by
  rw [side_eq]
  cases forward with
  | true => exact map.ascending.filter _
  | false => exact List.pairwise_reverse.mpr (map.ascending.filter _)

theorem mem_storeSide {store : BTreeStore} {overlay : MemMap} {kv : KeyValue} :
    kv ∈ storeSide store c overlay.keys forward ↔
      Plain.inScan (direction forward) c kv.1 ∧ store.get? kv.1 = some kv.2 ∧
        overlay.get? kv.1 = none := by
  rw [storeSide, List.mem_filter, mem_side, decide_eq_true_eq, SortedMap.mem_keys, and_assoc]
  simp [Option.eq_none_iff_forall_ne_some]

theorem mem_overlaySide {overlay : MemMap} {kv : KeyValue} :
    kv ∈ overlaySide overlay c forward ↔
      Plain.inScan (direction forward) c kv.1 ∧ overlay.get? kv.1 = some (some kv.2) := by
  rw [overlaySide, List.mem_filterMap]
  constructor
  · rintro ⟨⟨k, x⟩, hmem, hx⟩
    obtain ⟨v, rfl, rfl⟩ := Option.map_eq_some_iff.mp hx
    exact mem_side.mp hmem
  · intro h
    exact ⟨(kv.1, some kv.2), mem_side.mpr h, rfl⟩

theorem overlaySide_ordered (overlay : MemMap) (c : Cursor) (forward : Bool) :
    (overlaySide overlay c forward).Pairwise
      fun a b => Plain.precedes (direction forward) a.1 b.1 := by
  refine List.pairwise_filterMap.mpr ((side_ordered overlay c forward).imp ?_)
  intro a b hab kv hkv kv' hkv'
  obtain ⟨_, -, rfl⟩ := Option.map_eq_some_iff.mp hkv
  obtain ⟨_, -, rfl⟩ := Option.map_eq_some_iff.mp hkv'
  exact hab

/-! ## The merge -/

/-- With enough rounds the loop is a merge, cut at the limit. -/
theorem mergeSides_eq (limit : Option Nat) (forward : Bool) (fuel : Nat)
    (store overlay out : List KeyValue) (hfuel : store.length + overlay.length ≤ fuel) :
    mergeSides limit forward fuel store overlay out =
      out ++ cut (limit.map fun lim => lim - out.length)
        (List.merge store overlay (takeStore forward)) := by
  induction fuel generalizing store overlay out with
  | zero =>
    have hs : store = [] := List.eq_nil_of_length_eq_zero (by omega)
    have ho : overlay = [] := List.eq_nil_of_length_eq_zero (by omega)
    subst hs ho
    cases limit <;> simp [mergeSides, cut]
  | succ fuel ih =>
    -- one row is taken unless the limit is reached
    have htake : ∀ (kv : KeyValue) (rows : List KeyValue),
        (¬ limit.any fun lim => lim ≤ out.length) →
        (out ++ [kv]) ++ cut (limit.map fun lim => lim - (out ++ [kv]).length) rows =
          out ++ cut (limit.map fun lim => lim - out.length) (kv :: rows) := by
      intro kv rows hlim
      cases limit with
      | none => simp [cut]
      | some lim =>
        have hsub : lim - out.length = lim - (out.length + 1) + 1 := by
          simp only [Option.any_some, decide_eq_true_eq] at hlim
          omega
        simp [cut, hsub]
    unfold mergeSides
    split
    · rename_i hlim
      cases limit with
      | none => cases hlim
      | some lim =>
        have hzero : lim - out.length = 0 := by
          simp only [Option.any_some, decide_eq_true_eq] at hlim
          omega
        simp [cut, hzero]
    · rename_i hlim
      cases store with
      | nil =>
        cases overlay with
        | nil => cases limit <;> simp [cut]
        | cons o os =>
          simp only [List.length_nil, List.length_cons] at hfuel
          dsimp only
          rw [ih [] os _ (by simpa using by omega), List.nil_merge, List.nil_merge, htake o os hlim]
      | cons s ss =>
        cases overlay with
        | nil =>
          simp only [List.length_nil, List.length_cons] at hfuel
          dsimp only
          rw [ih ss [] _ (by simpa using by omega), List.merge_right, List.merge_right,
            htake s ss hlim]
        | cons o os =>
          simp only [List.length_cons] at hfuel
          dsimp only
          split
          · rename_i h
            rw [ih ss (o :: os) _ (by simp only [List.length_cons]; omega),
              List.cons_merge_cons_pos _ _ _ h, htake s _ hlim]
          · rename_i h
            rw [ih (s :: ss) os _ (by simp only [List.length_cons]; omega),
              List.cons_merge_cons_neg _ _ _ h, htake o _ hlim]

theorem precedes_of_takeStore {a b : KeyValue} (h : takeStore forward a b = true) (hne : a.1 ≠ b.1) :
    Plain.precedes (direction forward) a.1 b.1 := by
  cases forward with
  | true => exact lt_of_le_of_ne (by simpa [takeStore] using h) hne
  | false => exact lt_of_le_of_ne (by simpa [takeStore] using h) hne.symm

theorem precedes_of_not_takeStore {a b : KeyValue} (h : ¬ takeStore forward a b = true) :
    Plain.precedes (direction forward) b.1 a.1 := by
  cases forward with
  | true | false => exact not_le.mp (by simpa [takeStore] using h)

/-- A merge of two lists without a common key, each in the order of the scan. -/
theorem merge_ordered {l1 l2 : List KeyValue}
    (h1 : l1.Pairwise fun a b => Plain.precedes (direction forward) a.1 b.1)
    (h2 : l2.Pairwise fun a b => Plain.precedes (direction forward) a.1 b.1)
    (hne : ∀ a ∈ l1, ∀ b ∈ l2, a.1 ≠ b.1) :
    (List.merge l1 l2 (takeStore forward)).Pairwise
      fun a b => Plain.precedes (direction forward) a.1 b.1 := by
  induction l1 generalizing l2 with
  | nil => rwa [List.nil_merge]
  | cons s ss ih1 =>
    induction l2 with
    | nil => rwa [List.merge_right]
    | cons o os ih2 =>
      obtain ⟨hs, hss⟩ := List.pairwise_cons.mp h1
      obtain ⟨ho, hos⟩ := List.pairwise_cons.mp h2
      -- the row taken first precedes both rests
      by_cases h : takeStore forward s o = true
      · rw [List.cons_merge_cons_pos _ _ _ h]
        have hso := precedes_of_takeStore h (hne s List.mem_cons_self o List.mem_cons_self)
        refine List.pairwise_cons.mpr ⟨fun x hx => ?_, ih1 hss h2 fun a ha =>
          hne a (List.mem_cons_of_mem _ ha)⟩
        rcases List.mem_merge.mp hx with hx | hx
        · exact hs x hx
        · rcases List.mem_cons.mp hx with rfl | hx
          · exact hso
          · exact Plain.precedes_trans hso (ho x hx)
      · rw [List.cons_merge_cons_neg _ _ _ h]
        have hos' := precedes_of_not_takeStore h
        refine List.pairwise_cons.mpr ⟨fun x hx => ?_, ih2 hos fun a ha b hb =>
          hne a ha b (List.mem_cons_of_mem _ hb)⟩
        rcases List.mem_merge.mp hx with hx | hx
        · rcases List.mem_cons.mp hx with rfl | hx
          · exact hos'
          · exact Plain.precedes_trans hos' (hs x hx)
        · exact ho x hx

/-- The scans of a transaction are those of the map with its overlay applied. -/
theorem getsBytes_eq (tx : BTreeTx) (map : BTreeStore) (limit : Option Nat) (d : Direction)
    (c : Cursor) :
    tx.getsBytes map limit d c = Plain.gets (.applyAll map tx.overlay.toList) limit d c := by
  have hbuild : ∀ forward, buildOverlay map tx.overlay c limit forward =
      Plain.gets (.applyAll map tx.overlay.toList) limit (direction forward) c := by
    intro forward
    have hne : ∀ a ∈ storeSide map c tx.overlay.keys forward,
        ∀ b ∈ overlaySide tx.overlay c forward, a.1 ≠ b.1 := by
      intro a ha b hb heq
      have hnone := (mem_storeSide.mp ha).2.2
      rw [heq, (mem_overlaySide.mp hb).2] at hnone
      cases hnone
    have hstore : (storeSide map c tx.overlay.keys forward).Pairwise
        fun a b => Plain.precedes (direction forward) a.1 b.1 := (side_ordered map c forward).filter _
    have hord := merge_ordered hstore (overlaySide_ordered tx.overlay c forward) hne
    rw [buildOverlay, mergeSides_eq _ _ _ _ _ _ (Nat.le_refl _), Plain.gets_eq_cut hord]
    · cases limit <;> rfl
    · intro kv
      rw [List.mem_merge, mem_storeSide, mem_overlaySide,
        Plain.get?_applyAll_toList, ← and_or_left]
      refine and_congr_right fun _ => ?_
      cases tx.overlay.get? kv.1 <;> simp
  cases d with
  | next => exact hbuild true
  | prev => exact hbuild false

/-! ## Point reads -/

theorem getBytes_eq (tx : BTreeTx) (map : BTreeStore) (k : Key) :
    tx.getBytes map k = (Plain.applyAll map tx.overlay.toList).get? k := by
  rw [Plain.get?_applyAll_toList, getBytes]
  cases tx.overlay.get? k <;> rfl

theorem has_eq (tx : BTreeTx) (map : BTreeStore) (k : Key) :
    tx.has map k = ((Plain.applyAll map tx.overlay.toList).get? k).isSome := by
  rw [← getBytes_eq, has, getBytes]
  cases tx.overlay.get? k <;> rfl

theorem getBytes_record (tx : BTreeTx) (map : BTreeStore) (e : ChangeEvent) (k : Key) :
    (tx.record e).getBytes map k = if k = e.key then e.newValue else tx.getBytes map k := by
  have hget : (tx.record e).overlay.get? k = if k = e.key then some e.newValue
      else tx.overlay.get? k := SortedMap.get?_insert ..
  rw [getBytes, getBytes, hget]
  by_cases hk : k = e.key
  · rw [if_pos hk, if_pos hk]
  · rw [if_neg hk, if_neg hk]

end OxKv.BTreeTx
