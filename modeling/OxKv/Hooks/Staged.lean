import OxKv.Engine.Tx
import OxKv.Hooks.Publish
import OxKv.Spec.Plain

/-!
The two records a transaction keeps of its writes: the overlay, which `commit` applies,
and the staged events, which it publishes. Both keep one entry for each key, and
`Staged.applyAll` says that they mean the same writes.
-/

namespace OxKv

def ChangeEvent.op (e : ChangeEvent) : Op := (e.key, e.newValue)

/-- Apply published events to a map in the order of their numbers. -/
def replay (m : Plain) (events : List Published) : Plain :=
  m.applyAll (events.map fun e => e.event.op)

theorem replay_append (m : Plain) (a b : List Published) :
    replay m (a ++ b) = replay (replay m a) b := by
  rw [replay, List.map_append, Plain.applyAll, List.foldl_append]
  rfl

/-- The overlay and the events of one transaction. -/
structure Staged (overlay : MemMap) (staged : List ChangeEvent) : Prop where
  distinct : (staged.map ChangeEvent.key).Nodup
  overlay : ∀ k, overlay.get? k = (staged.find? fun e => e.key = k).map ChangeEvent.newValue

theorem Staged.empty : Staged SortedMap.empty [] := ⟨List.nodup_nil, fun _ => rfl⟩

theorem stageEvent_keys (staged : List ChangeEvent) (e : ChangeEvent) :
    (stageEvent staged e).map ChangeEvent.key =
      if e.key ∈ staged.map ChangeEvent.key then staged.map ChangeEvent.key
      else staged.map ChangeEvent.key ++ [e.key] := by
  unfold stageEvent
  split
  · rename_i first hfirst
    have hmem : e.key ∈ staged.map ChangeEvent.key :=
      List.mem_map.mpr ⟨first, List.mem_of_find?_eq_some hfirst,
        by simpa using List.find?_some hfirst⟩
    rw [if_pos hmem, List.map_map]
    refine List.map_congr_left fun x _ => ?_
    show ChangeEvent.key (if x.key = e.key then _ else x) = x.key
    split
    · exact Eq.symm ‹_›
    · rfl
  · rename_i hnone
    have hmem : e.key ∉ staged.map ChangeEvent.key := by
      rw [List.mem_map]
      rintro ⟨x, hx, hkey⟩
      simpa [hkey] using List.find?_eq_none.mp hnone x hx
    rw [if_neg hmem, List.map_append]
    rfl

/-- The event of a key after `stage`. -/
theorem find?_stageEvent (staged : List ChangeEvent) (e : ChangeEvent) (k : Key) :
    ((stageEvent staged e).find? fun x => x.key = k).map ChangeEvent.newValue =
      if k = e.key then some e.newValue
      else (staged.find? fun x => x.key = k).map ChangeEvent.newValue := by
  unfold stageEvent
  split
  · rename_i first hfirst
    have hsame : ((fun x : ChangeEvent => decide (x.key = k)) ∘ fun x : ChangeEvent =>
        if x.key = e.key then { e with oldValue := first.oldValue } else x) =
        fun x => decide (x.key = k) := by
      funext x
      simp only [Function.comp_apply]
      split
      · rw [‹x.key = e.key›]
      · rfl
    rw [List.find?_map, hsame, Option.map_map]
    split
    · rename_i hk
      have hkey : first.key = e.key := by simpa using List.find?_some hfirst
      rw [hk, hfirst]
      simp [hkey]
    · rename_i hk
      refine Option.map_congr fun x hx => ?_
      have hkey : x.key = k := by simpa using List.find?_some hx
      rw [Function.comp_apply, if_neg (by rw [hkey]; exact hk)]
  · rename_i hnone
    rw [List.find?_append]
    split
    · rename_i hk
      rw [hk, hnone]
      simp
    · rename_i hk
      have hlast : [e].find? (fun x => decide (x.key = k)) = none := by simpa using Ne.symm hk
      rw [hlast, Option.or_none]

variable {staged : List ChangeEvent} {overlay : MemMap}

theorem Staged.stage (h : Staged overlay staged) (e : ChangeEvent) :
    Staged (overlay.insert e.key e.newValue) (stageEvent staged e) := by
  refine ⟨?_, fun k => ?_⟩
  · rw [stageEvent_keys]
    split
    · exact h.distinct
    · refine List.nodup_append.mpr ⟨h.distinct, List.nodup_singleton _, ?_⟩
      rintro k hk _ hnew rfl
      rw [List.mem_singleton.mp hnew] at hk
      contradiction
  · rw [find?_stageEvent, SortedMap.get?_insert, h.overlay]

theorem lookup_reverse_of_nodup {β : Type} {l : List (Key × β)} (h : (l.map Prod.fst).Nodup)
    (k : Key) : l.reverse.lookup k = l.lookup k := by
  induction l with
  | nil => rfl
  | cons x l ih =>
    obtain ⟨key, v⟩ := x
    obtain ⟨hkey, hl⟩ := List.nodup_cons.mp h
    rw [List.reverse_cons, List.lookup_append, ih hl, SortedMap.lookup_cons_ite,
      SortedMap.lookup_cons_ite]
    split
    · rename_i hk
      have hnone : l.lookup k = none :=
        SortedMap.lookup_eq_none_of_forall_ne fun e he heq =>
          hkey (List.mem_map.mpr ⟨e, he, heq.trans hk⟩)
      rw [hnone]
      rfl
    · exact Option.or_none

theorem lookup_map_op (staged : List ChangeEvent) (k : Key) :
    (staged.map ChangeEvent.op).lookup k =
      (staged.find? fun e => e.key = k).map ChangeEvent.newValue := by
  induction staged with
  | nil => rfl
  | cons e staged ih =>
    rw [List.map_cons, ChangeEvent.op, SortedMap.lookup_cons_ite, List.find?_cons]
    by_cases hk : k = e.key
    · simp [hk]
    · rw [if_neg hk, ih, decide_eq_false (Ne.symm hk)]

/-- Publishing the events of a transaction replays its overlay. -/
theorem Staged.applyAll (h : Staged overlay staged) (m : Plain) :
    m.applyAll (staged.map ChangeEvent.op) = m.applyAll overlay.toList := by
  apply SortedMap.ext_get
  intro k
  have hkeys : ((staged.map ChangeEvent.op).map Prod.fst).Nodup := by
    rw [List.map_map]
    exact h.distinct
  rw [Plain.get?_applyAll_toList, Plain.get?_applyAll, applyOps_apply,
    lookup_reverse_of_nodup hkeys, lookup_map_op, h.overlay]

def Tx.record (tx : Tx) (e : ChangeEvent) : Tx :=
  ⟨tx.overlay.insert e.key e.newValue, stageEvent tx.staged e⟩

/-- The old values are those of the base. -/
structure StagedOver (base : Plain) (overlay : MemMap) (staged : List ChangeEvent) : Prop
    extends Staged overlay staged where
  old : ∀ e ∈ staged, e.oldValue = base.get? e.key

theorem StagedOver.empty (base : Plain) : StagedOver base SortedMap.empty [] :=
  ⟨Staged.empty, by simp⟩

/-- A write that was given the value before it as the old one. -/
theorem StagedOver.stage {base : Plain} (h : StagedOver base overlay staged) {e : ChangeEvent}
    (hold : e.oldValue = (base.applyAll overlay.toList).get? e.key) :
    StagedOver base (overlay.insert e.key e.newValue) (stageEvent staged e) := by
  refine ⟨h.toStaged.stage e, fun x hx => ?_⟩
  unfold stageEvent at hx
  split at hx
  · rename_i first hfirst
    obtain ⟨y, hy, rfl⟩ := List.mem_map.mp hx
    split
    · -- the event of the key keeps its first old value
      have hkey : first.key = e.key := by simpa using List.find?_some hfirst
      rw [h.old first (List.mem_of_find?_eq_some hfirst), hkey]
    · exact h.old y hy
  · rename_i hnone
    rcases List.mem_append.mp hx with hx | hx
    · exact h.old x hx
    · rw [List.mem_singleton.mp hx, hold, Plain.get?_applyAll_toList, h.overlay, hnone]
      rfl

end OxKv
