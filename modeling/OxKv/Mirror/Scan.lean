import OxKv.Mirror.Store

/-!
The scans of a `CachedTx` over a warmed mirror: `merge_staged` takes the rows of the
mirror, applies the overlay to them one operation after the other, and sorts. The rows
are always those of the map that the same operations give (`Rows.overlay`), so that the
sorted rows are a scan of it (`mergeStaged_eq`).
-/

namespace OxKv.CachedTx

variable {d : Direction} {c : Cursor} {m : Plain} {rows : List KeyValue}

theorem inWindow_eq (key : Key) (d : Direction) (c : Cursor) :
    inWindow key d c = Plain.inScan d c key := by
  unfold inWindow Plain.inScan
  split <;> simp [*]

/-- The rows of a scan, in any order. -/
structure Rows (d : Direction) (c : Cursor) (m : Plain) (rows : List KeyValue) : Prop where
  distinct : rows.Pairwise fun a b => a.1 ≠ b.1
  mem : ∀ kv, kv ∈ rows ↔ Plain.inScan d c kv.1 ∧ m.get? kv.1 = some kv.2

theorem Rows.gets (m : Plain) (d : Direction) (c : Cursor) : Rows d c m (m.gets none d c) where
  distinct := (m.gets_ordered d c).imp fun {a b} h => by
    cases d with
    | next => exact ne_of_lt h
    | prev => exact ne_of_gt h
  mem _ := Plain.mem_gets

section Rows

variable (h : Rows d c m rows)

include h

/-- An operation outside the window changes no row. -/
theorem Rows.outside {op : Op} (hout : Plain.inScan d c op.1 = false) :
    Rows d c (m.apply op) rows where
  distinct := h.distinct
  mem kv := by
    rw [h.mem, Plain.get?_apply, Function.update_apply]
    refine and_congr_right fun hin => ?_
    rw [if_neg fun heq => by rw [heq, hout] at hin; cases hin]

/-- The rows of the other keys. -/
theorem mem_others {key : Key} {kv : KeyValue} : kv ∈ rows.filter (fun kv => kv.1 ≠ key) ↔
      (Plain.inScan d c kv.1 ∧ m.get? kv.1 = some kv.2) ∧ kv.1 ≠ key := by
  rw [List.mem_filter, h.mem, decide_eq_true_eq]

theorem Rows.delete (key : Key) :
    Rows d c (m.apply (key, none)) (rows.filter fun kv => kv.1 ≠ key) where
  distinct := h.distinct.filter _
  mem kv := by
    rw [mem_others h, Plain.get?_apply, Function.update_apply]
    by_cases hk : kv.1 = key
    · simp [hk]
    · simp [hk]

theorem Rows.put {key : Key} (hin : Plain.inScan d c key = true) (value : Bytes) :
    Rows d c (m.apply (key, some value)) ((rows.filter fun kv => kv.1 ≠ key) ++ [(key, value)]) where
  distinct := by
    refine List.pairwise_append.mpr ⟨h.distinct.filter _, List.pairwise_singleton _ _, ?_⟩
    intro a ha b hb
    rw [List.mem_singleton.mp hb]
    exact ((mem_others h).mp ha).2
  mem kv := by
    obtain ⟨k, v⟩ := kv
    rw [List.mem_append, mem_others h, List.mem_singleton, Plain.get?_apply, Function.update_apply]
    by_cases hk : k = key
    · subst hk
      simp [hin, eq_comm]
    · simp [hk]

theorem Rows.apply (op : Op) : Rows d c (m.apply op) (overlayRows d c rows [op]) := by
  show Rows d c _ (if !inWindow op.1 d c then rows else _)
  rw [inWindow_eq]
  obtain ⟨key, value⟩ := op
  cases hin : Plain.inScan d c key with
  | false => exact h.outside hin
  | true =>
    cases value with
    | none => exact h.delete key
    | some v => exact h.put hin v

theorem Rows.overlay (staged : List Op) :
    Rows d c (m.applyAll staged) (overlayRows d c rows staged) := by
  induction staged generalizing m rows with
  | nil => exact h
  | cons op staged ih => exact ih (h.apply op)

end Rows

theorem sorted_distinct (le : Key → Key → Bool) (trans : ∀ a b c, le a b → le b c → le a c)
    (total : ∀ a b, le a b || le b a) (h : rows.Pairwise fun a b => a.1 ≠ b.1) :
    (rows.mergeSort fun a b => le a.1 b.1).Pairwise fun a b => le a.1 b.1 ∧ a.1 ≠ b.1 := by
  have hle : (rows.mergeSort fun a b => le a.1 b.1).Pairwise fun a b => le a.1 b.1 :=
    List.pairwise_mergeSort (fun a b c => trans a.1 b.1 c.1) (fun a b => total a.1 b.1) rows
  have hne : (rows.mergeSort fun a b => le a.1 b.1).Pairwise fun a b => a.1 ≠ b.1 :=
    (List.mergeSort_perm rows _).symm.pairwise h fun hab => hab.symm
  exact hle.and hne

/-- Sorted, the rows are the scan. -/
theorem Rows.sorted (h : Rows d c m rows) (limit : Option Nat) :
    cut limit (match d with
      | .next => rows.mergeSort fun a b => decide (a.1 ≤ b.1)
      | .prev => rows.mergeSort fun a b => decide (b.1 ≤ a.1)) = m.gets limit d c := by
  symm
  cases d with
  | next =>
    refine Plain.gets_eq_cut ?_ (fun kv => ?_) limit
    · refine (sorted_distinct (fun a b => decide (a ≤ b)) (fun a b c => ?_)
        (fun a b => ?_) h.distinct).imp fun hab => ?_
      · simpa using le_trans
      · simpa using le_total a b
      · exact lt_of_le_of_ne (of_decide_eq_true hab.1) hab.2
    · rw [(List.mergeSort_perm rows _).mem_iff, h.mem]
  | prev =>
    refine Plain.gets_eq_cut ?_ (fun kv => ?_) limit
    · refine (sorted_distinct (fun a b => decide (b ≤ a)) (fun a b c => ?_)
        (fun a b => ?_) h.distinct).imp fun hab => ?_
      · simpa using fun hab hbc => le_trans hbc hab
      · simpa using le_total b a
      · exact lt_of_le_of_ne (of_decide_eq_true hab.1) hab.2.symm
    · rw [(List.mergeSort_perm rows _).mem_iff, h.mem]

/-- `merge_staged` over all rows of the window is the scan of the merged map. -/
theorem mergeStaged_eq (m : Plain) (staged : MemMap) (d : Direction) (c : Cursor)
    (limit : Option Nat) :
    mergeStaged (m.gets none d c) staged d c limit =
      (m.applyAll staged.toList).gets limit d c :=
  ((Rows.gets m d c).overlay staged.toList).sorted limit

theorem run_getsBytes (who : Who) (cx : Ctx) (t : CachedTx) (limit : Option Nat) (d : Direction)
    (c : Cursor) (o : cachedEngine.Oracle) {s : World × Mirrors}
    (hw : (s.2.inst who.inst).state.warmed = true) :
    cachedEngine.run who (getsBytes cx t limit d c) o s =
      some (.ok ((Plain.applyAll (s.2.inst who.inst).map t.staged.toList).gets limit d c),
        cachedEngine.rest (cachedEngine.rest o), s) := by
  rw [← mergeStaged_eq, ← BTreeStore.getsBytes_eq, getsBytes, Cached.run_bind, Cached.run_bind,
    Cached.run_state]
  dsimp only
  rw [if_pos hw, Cached.run_mapGets]
  rfl

end OxKv.CachedTx
