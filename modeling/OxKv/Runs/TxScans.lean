import OxKv.BTree.Scan
import OxKv.Mirror.Scan
import OxKv.Runs.Layered
import OxKv.Format.Reference

/-!
The scans of the three kinds of transactions.

`BTreeTx` walks through map and overlay at once, `CachedTx` overlays the rows of the
mirror and sorts them, `OxKvTx` merges its overlay with the MemTable and the listed
files. `tx_scans_merged`: all three list what a scan of the map with the overlay applied
lists.
-/

namespace OxKv

theorem tx_scans_merged (base : Plain) (overlay : MemMap) (limit : Option Nat) (d : Direction)
    (c : Cursor) :
    (∀ validators staged, BTreeTx.getsBytes ⟨overlay, validators, staged⟩ base limit d c =
      (base.applyAll overlay.toList).gets limit d c) ∧
    (∀ (who : Who) (cx : Ctx) (tx : Tx) (o : cachedEngine.Oracle) (s : World × Mirrors),
      (s.2.inst who.inst).state.warmed = true → (s.2.inst who.inst).map = base →
      ∃ o', cachedEngine.run who (CachedTx.getsBytes cx ⟨tx, overlay⟩ limit d c) o s =
        some (.ok ((base.applyAll overlay.toList).gets limit d c), o', s)) ∧
    (∀ (who : Who) (cx : Ctx) (x : Layered cx.crates) (staged : List ChangeEvent)
      (o : engine.Oracle) (w : World),
      (∀ k v, overlay.get? k = some (some v) → tryDecodeBlobPointer cx.crates v = none) →
      x.contents = base → x.Serves who.inst w → (∀ n, Choice.fault (o n) = none) →
      ∃ o' w', engine.run who (txGetsBytes cx ⟨overlay, staged⟩ limit d c) o w =
        some (.ok ((base.applyAll overlay.toList).gets limit d c), o', w')) := by
  refine ⟨fun validators staged => ?_, fun who cx tx o s hw hmap => ?_,
    fun who cx x staged o w hplain hbase hserves ho => ?_⟩
  · exact BTreeTx.getsBytes_eq ⟨overlay, validators, staged⟩ base limit d c
  · subst hmap
    exact ⟨_, CachedTx.run_getsBytes who cx ⟨tx, overlay⟩ limit d c o hw⟩
  · subst hbase
    have hscan : x.Gives who (txGetsBytes cx ⟨overlay, staged⟩ limit d c) _ :=
      Layered.txGetsBytes_gives hplain
    obtain ⟨r, o', w', hrun, -, -, rows, rfl, rfl⟩ := hscan o w ho hserves
    exact ⟨o', w', hrun⟩

/-! ## A sample -/

def sampleCtx : Ctx := ⟨referenceCrates, 1, "session", fun _ _ => .done (.ok ())⟩

def noPointers (m : MemMap) : Bool :=
  m.toList.all fun op => op.2.all fun v => (tryDecodeBlobPointer referenceCrates v).isNone

theorem noPointers_plain {m : MemMap} (h : noPointers m = true) {k : Key} {v : Bytes}
    (hget : m.get? k = some (some v)) : tryDecodeBlobPointer referenceCrates v = none := by
  have hentry := List.all_eq_true.mp h (k, some v) ((m.mem_toList k (some v)).mpr hget)
  simpa using hentry

/-- One row in the MemTable, above a file with a row and a tombstone. -/
def sampleLayers : Layered referenceCrates where
  mem := SortedMap.empty.insert "a" (some [1])
  files := [⟨.sst 1 0 1, 1, 0, "b", "c", 0⟩]
  table := fun _ => (SortedMap.empty.insert "b" (some [2])).insert "c" none
  value := id
  bounds := by
    intro f hf k v hget
    cases List.mem_singleton.mp hf
    have hkeys : ∀ op ∈ ((SortedMap.empty.insert "b" (some [2])).insert "c" none : MemMap).toList,
        "b" ≤ op.1 ∧ op.1 ≤ "c" := by decide
    exact hkeys (k, v) ((SortedMap.mem_toList _ k v).mpr hget)
  plainMem := fun k v hget => noPointers_plain (by decide +kernel) hget
  plainValue := fun _ _ => rfl

/-- The file is listed, the caches are empty. -/
def layeredWorld (f : SstFile) : World :=
  { World.start with
    st := (Storage.empty.insert .manifest (.manifest ⟨1, 1, [], sampleLayers.files⟩)).insert
      (.sst 1 0 1) (.sst f)
    inst := fun _ => { Inst.new 1 "session" true with mem := sampleLayers.mem } }

theorem layeredWorld_serves {f : SstFile}
    (hf : f.Holds crc32 (sampleLayers.table (.sst 1 0 1))) :
    sampleLayers.Serves 0 (layeredWorld f) where
  mem := rfl
  stored o e h := by
    cases h
    exact ⟨_, rfl, rfl⟩
  fresh h := by cases h
  cached m e h := by cases h
  file g hg := by
    cases List.mem_singleton.mp hg
    exact ⟨f, _, rfl, hf⟩
  sstCached g hg s h := by cases h
  blob g hg k raw hget ptr hptr := by
    cases List.mem_singleton.mp hg
    rw [noPointers_plain (by decide +kernel) hget] at hptr
    cases hptr

theorem exists_layeredWorld : ∃ f,
    buildSst crc32 (sampleLayers.table (.sst 1 0 1)) 4096 = .ok f ∧
      sampleLayers.Serves 0 (layeredWorld f) := by
  obtain ⟨f, hf⟩ : ∃ f, buildSst crc32 (sampleLayers.table (.sst 1 0 1)) 4096 = .ok f :=
    ⟨_, rfl⟩
  refine ⟨f, hf, layeredWorld_serves (buildSst_holds hf fun k v hget => ?_)⟩
  have hlen : ∀ op ∈ (sampleLayers.table (.sst 1 0 1)).toList, ∀ v, op.2 = some v →
      v.length ≠ tombstoneVlen := by decide
  exact hlen (k, some v) ((SortedMap.mem_toList _ k (some v)).mpr hget) v rfl

/-- The mirror of the sample layers, warmed. -/
def warmMirrors : Mirrors :=
  ⟨fun _ => { Mirror.new 1 with
    map := sampleLayers.contents
    state := { CachedState.new 1 with warmed := true } }, []⟩

/-- The row of the file is deleted and a new row is set. -/
def sampleOverlay : MemMap := (SortedMap.empty.insert "b" none).insert "d" (some [3])

theorem tx_scans_merged_sample :
    BTreeTx.getsBytes ⟨sampleOverlay, [], []⟩ sampleLayers.contents none .next (none, none) =
        [("a", [1]), ("d", [3])] ∧
      (∃ o', cachedEngine.run ⟨0, 0⟩
        (CachedTx.getsBytes sampleCtx ⟨Tx.begin, sampleOverlay⟩ none .next (none, none))
        (fun _ => ⟨none, true⟩) (World.start, warmMirrors) =
          some (.ok [("a", [1]), ("d", [3])], o', (World.start, warmMirrors))) ∧
      ∃ f o' w', buildSst crc32 (sampleLayers.table (.sst 1 0 1)) 4096 = .ok f ∧
        engine.run ⟨0, 0⟩ (txGetsBytes sampleCtx ⟨sampleOverlay, []⟩ none .next (none, none))
          (fun _ => ⟨none, true⟩) (layeredWorld f) =
            some (.ok [("a", [1]), ("d", [3])], o', w') := by
  have hrows : (sampleLayers.contents.applyAll sampleOverlay.toList).gets none .next (none, none) =
      [("a", [1]), ("d", [3])] := by decide
  obtain ⟨f, hf, hserves⟩ := exists_layeredWorld
  have hall := tx_scans_merged sampleLayers.contents sampleOverlay none .next (none, none)
  obtain ⟨o', w', hrun⟩ := hall.2.2 ⟨0, 0⟩ sampleCtx sampleLayers [] (fun _ => ⟨none, true⟩)
    (layeredWorld f)
    (fun k v hget => noPointers_plain (by decide +kernel) hget) rfl hserves fun _ => rfl
  exact ⟨hall.1 [] [], hall.2.1 _ _ _ _ _ rfl rfl, f, o', w', hf, hrun⟩

end OxKv
