import OxKv.Format.Sst

/-!
What a built SST file holds.

* `SstBuild.pushAll_laid`: the builder cuts the entries into non-empty groups
  and lays them out one after the other (loop invariant `SstBuild.Laid`);
* `buildSst_holds`: a file built from an ordered map passes its checks and
  answers point lookups, eager scans and lazy scans exactly as the map.
-/

namespace OxKv

/-! ## Layout -/

section Layout

variable (crc32 : Bytes → UInt32)

def groupBytes (g : List Op) : Bytes := g.flatMap recordBytes

/-- The index entry of a group of entries that starts at `off`. -/
def groupMeta (off : Nat) (g : List Op) : BlockMeta :=
  ⟨(g.head?.map Prod.fst).getD "", (g.getLast?.map Prod.fst).getD "", off,
    (groupBytes g).length, crc32 (groupBytes g)⟩

def groupMetas (off : Nat) : List (List Op) → List BlockMeta
  | [] => []
  | g :: gs => groupMeta crc32 off g :: groupMetas (off + (groupBytes g).length) gs

theorem groupMetas_append (off : Nat) (gs : List (List Op)) (g : List Op) :
    groupMetas crc32 off (gs ++ [g]) =
      groupMetas crc32 off gs ++ [groupMeta crc32 (off + (groupBytes gs.flatten).length) g] := by
  induction gs generalizing off with
  | nil => simp [groupMetas, groupBytes]
  | cons g' gs ih => simp [groupMetas, ih, groupBytes, Nat.add_assoc]

theorem groupBytes_append (a b : List Op) :
    groupBytes (a ++ b) = groupBytes a ++ groupBytes b := by
  simp [groupBytes]

theorem groupBytes_eq_nil {g : List Op} : groupBytes g = [] ↔ g = [] := by
  cases g with
  | nil => simp [groupBytes]
  | cons op g =>
    have h8 := length_recordBytes op
    simp only [groupBytes, List.flatMap_cons, List.append_eq_nil_iff, reduceCtorEq, iff_false]
    rintro ⟨h, _⟩
    rw [h] at h8
    simp at h8

theorem flatten_map_groupBytes (gs : List (List Op)) :
    (gs.map groupBytes).flatten = groupBytes gs.flatten := by
  induction gs with
  | nil => rfl
  | cons g gs ih => simp [groupBytes_append, ih]

/-- The loop invariant of `build_sst`: `done` are the closed groups, `cur` the
entries of the block being filled. -/
structure SstBuild.Laid (b : SstBuild) (done : List (List Op)) (cur : List Op) : Prop where
  blocks : b.blocks = done.map groupBytes
  index : b.index = groupMetas crc32 0 done
  offset : b.offset = (groupBytes done.flatten).length
  nonempty : ∀ g ∈ done, g ≠ []
  block : b.curBlock = groupBytes cur
  minKey : b.curMin = cur.head?.map Prod.fst
  maxKey : cur ≠ [] → b.curMax = cur.getLast?.map Prod.fst

variable {done : List (List Op)} {b : SstBuild} {cur : List Op}

theorem SstBuild.Laid.cut (h : b.Laid crc32 done cur) (hne : cur ≠ []) :
    (b.cut crc32).Laid crc32 (done ++ [cur]) [] where
  blocks := by simp [SstBuild.cut, h.blocks, h.block]
  index := by
    simp [SstBuild.cut, h.index, groupMetas_append, groupMeta, h.minKey, h.maxKey hne,
      h.offset, h.block]
  offset := by simp [SstBuild.cut, h.offset, h.block, groupBytes_append]
  nonempty := by
    intro g hg
    rcases List.mem_append.mp hg with hg | hg
    · exact h.nonempty g hg
    · exact List.mem_singleton.mp hg ▸ hne
  block := rfl
  minKey := rfl
  maxKey := by simp

def Op.Fits (op : Op) : Prop := (keyBytes op.1).length < 2 ^ 32 ∧ (op.2.getD []).length < 2 ^ 32

theorem encodeEntry_ok {op : Op} {bytes : Bytes} (h : encodeEntry op = .ok bytes) :
    op.Fits ∧ bytes = recordBytes op := by
  unfold encodeEntry at h
  split at h
  · cases h
  · rename_i hk
    split at h
    · cases h
    · rename_i hv
      cases h
      exact ⟨⟨Nat.lt_of_not_le hk, Nat.lt_of_not_le hv⟩, rfl⟩

theorem encodeEntry_of_fits {op : Op} (h : op.Fits) : encodeEntry op = .ok (recordBytes op) := by
  unfold encodeEntry
  rw [if_neg (Nat.not_le_of_lt h.1), if_neg (Nat.not_le_of_lt h.2)]

/-- One round keeps the invariant: the entry joins the open group, possibly
after closing it. -/
theorem SstBuild.Laid.push {b' : SstBuild} {op : Op} {bs : Nat} (h : b.Laid crc32 done cur)
    (hp : b.push crc32 bs op = .ok b') :
    op.Fits ∧ ∃ done' cur', b'.Laid crc32 done' cur' ∧
      done'.flatten ++ cur' = done.flatten ++ cur ++ [op] := by
  -- the state after the optional cut
  obtain ⟨c, done1, cur1, hc, hl, hflat⟩ : ∃ c done1 cur1,
      c = (if b.curBlock ≠ [] ∧ bs < b.curBlock.length +
        (4 + (keyBytes op.1).length + 4 + (op.2.getD []).length) then b.cut crc32 else b) ∧
      c.Laid crc32 done1 cur1 ∧ done1.flatten ++ cur1 = done.flatten ++ cur := by
    by_cases hcut : b.curBlock ≠ [] ∧ bs < b.curBlock.length +
        (4 + (keyBytes op.1).length + 4 + (op.2.getD []).length)
    · rw [if_pos hcut]
      have hne : cur ≠ [] := by
        intro hnil
        exact hcut.1 (by rw [h.block, hnil]; rfl)
      exact ⟨_, _, _, rfl, h.cut crc32 hne, by simp⟩
    · rw [if_neg hcut]
      exact ⟨b, done, cur, rfl, h, rfl⟩
  simp only [SstBuild.push, ← hc] at hp
  cases he : encodeEntry op with
  | error e => rw [he] at hp; cases hp
  | ok bytes =>
    rw [he] at hp
    cases hp
    obtain ⟨hk, rfl⟩ := encodeEntry_ok he
    refine ⟨hk, done1, cur1 ++ [op], ?_, by rw [← List.append_assoc, hflat]⟩
    exact {
      blocks := hl.blocks
      index := hl.index
      offset := hl.offset
      nonempty := hl.nonempty
      block := by simp [hl.block, groupBytes]
      minKey := by cases cur1 <;> simp [hl.minKey]
      maxKey := by simp }

theorem SstBuild.pushAll_laid {bs : Nat} {ops : List Op} {b' : SstBuild} (h : b.Laid crc32 done cur)
    (hp : b.pushAll crc32 bs ops = .ok b') :
    (∀ op ∈ ops, Op.Fits op) ∧ ∃ done' cur', b'.Laid crc32 done' cur' ∧
      done'.flatten ++ cur' = done.flatten ++ cur ++ ops := by
  induction ops generalizing b done cur with
  | nil =>
    cases hp
    exact ⟨by simp, done, cur, h, by simp⟩
  | cons op ops ih =>
    simp only [SstBuild.pushAll] at hp
    cases hb : b.push crc32 bs op with
    | error e => rw [hb] at hp; cases hp
    | ok b1 =>
      rw [hb] at hp
      obtain ⟨hk, done1, cur1, hl, hflat⟩ := h.push crc32 hb
      obtain ⟨hks, done2, cur2, hl2, hflat2⟩ := ih hl hp
      refine ⟨?_, done2, cur2, hl2, ?_⟩
      · intro o ho
        rcases List.mem_cons.mp ho with rfl | ho
        · exact hk
        · exact hks o ho
      · rw [hflat2, hflat, List.append_assoc, List.singleton_append]

theorem SstBuild.pushAll_ok (bs : Nat) {ops : List Op} (b : SstBuild)
    (h : ∀ op ∈ ops, Op.Fits op) : ∃ b', b.pushAll crc32 bs ops = .ok b' := by
  induction ops generalizing b with
  | nil => exact ⟨b, rfl⟩
  | cons op ops ih =>
    simp only [SstBuild.pushAll, SstBuild.push, encodeEntry_of_fits (h op (by simp))]
    exact ih _ fun o ho => h o (by simp [ho])

/-- A build fails only on a length that does not fit. -/
theorem buildSst_ok {m : MemMap} (bs : Nat) (h : ∀ op ∈ m.toList, Op.Fits op) :
    ∃ f, buildSst crc32 m bs = .ok f := by
  obtain ⟨b, hb⟩ := SstBuild.pushAll_ok crc32 (max bs 64) SstBuild.start h
  unfold buildSst
  rw [hb]
  exact ⟨_, rfl⟩

/-- The groups of a built file. -/
theorem buildSst_groups {m : MemMap} {bs : Nat} {f : SstFile}
    (h : buildSst crc32 m bs = .ok f) :
    ∃ gs : List (List Op), gs.flatten = m.toList ∧ (∀ g ∈ gs, g ≠ []) ∧
      (∀ op ∈ m.toList, Op.Fits op) ∧
      f.data = groupBytes gs.flatten ∧ f.footer.index = groupMetas crc32 0 gs ∧
      f.footer.bloomBits = (bloomOf crc32 m.keys).1 ∧ f.footer.bloomM = (bloomOf crc32 m.keys).2 ∧
      f.footer.bloomK = 3 ∧ f.footer.fileCrc = (crc32 f.data).toNat := by
  unfold buildSst at h
  have hstart : SstBuild.start.Laid crc32 [] [] :=
    ⟨rfl, rfl, rfl, by simp, rfl, rfl, by simp⟩
  cases hp : SstBuild.start.pushAll crc32 (max bs 64) m.toList with
  | error e => rw [hp] at h; cases h
  | ok b =>
    rw [hp] at h
    obtain ⟨hk, done, cur, hl, hflat⟩ := SstBuild.pushAll_laid crc32 hstart hp
    by_cases hcur : cur = []
    · have hnil : ¬ b.curBlock ≠ [] := by
        rw [hl.block, hcur]; simp [groupBytes]
      simp only [if_neg hnil] at h
      cases h
      subst hcur
      exact ⟨done, by simpa using hflat, hl.nonempty, hk,
        by simp [hl.blocks, flatten_map_groupBytes], hl.index, rfl, rfl, rfl, rfl⟩
    · have hne : b.curBlock ≠ [] := by
        rw [hl.block]; exact fun e => hcur (groupBytes_eq_nil.mp e)
      simp only [if_pos hne] at h
      cases h
      have hc := hl.cut crc32 hcur
      exact ⟨done ++ [cur], by simpa using hflat, hc.nonempty, hk,
        by rw [hc.blocks, flatten_map_groupBytes], hc.index, rfl, rfl, rfl, rfl⟩

end Layout

/-! ## Reading a laid out file -/

section Reading

variable (crc32 : Bytes → UInt32)

/-- Operations that survive the record encoding. -/
def Op.Encodable (op : Op) : Prop := (keyBytes op.1).length < 2 ^ 32 ∧ op.plainLength

/-- Reading a block takes one record of the group at a time. -/
theorem takeRecord_groupBytes {op : Op} {g : List Op} (hg : ∀ o ∈ op :: g, o.Encodable) {fuel : Nat}
    (hf : (groupBytes (op :: g)).length ≤ fuel) :
    takeRecord (groupBytes (op :: g)) = .entry op.1 op.2 (groupBytes g) ∧
      ∃ n, fuel = n + 1 ∧ (groupBytes g).length ≤ n := by
  have h8 := length_recordBytes op
  obtain ⟨hk, hlen⟩ := hg op (by simp)
  simp only [groupBytes, List.flatMap_cons, List.length_append] at hf ⊢
  exact ⟨takeRecord_recordBytes hk hlen _, fuel - 1, by omega, by omega⟩

theorem findInBlock_groupBytes (key : Key) (g : List Op) (hg : ∀ op ∈ g, op.Encodable)
    (fuel : Nat) (hf : (groupBytes g).length ≤ fuel) :
    findInBlock key fuel (groupBytes g) = .ok (g.lookup key) := by
  induction g generalizing fuel with
  | nil => cases fuel <;> rfl
  | cons op g ih =>
    obtain ⟨ht, n, rfl, hn⟩ := takeRecord_groupBytes hg hf
    simp only [findInBlock, ht, ih (List.forall_mem_cons.mp hg).2 n hn]
    rw [SortedMap.lookup_cons_ite]
    by_cases hkey : op.1 = key
    · rw [if_pos hkey, if_pos hkey.symm]
    · rw [if_neg hkey, if_neg (Ne.symm hkey)]

theorem scanBlock_groupBytes (start stop : Option Key) (g : List Op)
    (hg : ∀ op ∈ g, op.Encodable) (fuel : Nat) (hf : (groupBytes g).length ≤ fuel) :
    scanBlock start stop fuel (groupBytes g) = .ok (g.filter fun op => inRange start stop op.1) ∧
    blockItems start stop fuel (groupBytes g) =
      (g.filter fun op => inRange start stop op.1).map .ok := by
  induction g generalizing fuel with
  | nil => cases fuel <;> exact ⟨rfl, rfl⟩
  | cons op g ih =>
    obtain ⟨ht, n, rfl, hn⟩ := takeRecord_groupBytes hg hf
    obtain ⟨ih1, ih2⟩ := ih (List.forall_mem_cons.mp hg).2 n hn
    simp only [scanBlock, blockItems, ht, ih1, ih2]
    by_cases hr : inRange start stop op.1 = true
    · simp [hr]
    · simp [hr]

/-- The block area from `off` on holds the groups `gs`. -/
def SstFile.HoldsFrom (f : SstFile) (off : Nat) (gs : List (List Op)) : Prop :=
  ∃ pre, f.data = pre ++ groupBytes gs.flatten ∧ pre.length = off

variable {gs : List (List Op)} {f : SstFile} {g : List Op} {off : Nat}

theorem SstFile.HoldsFrom.block (h : f.HoldsFrom off (g :: gs)) :
    f.blockBytes crc32 (groupMeta crc32 off g) = .ok (groupBytes g) ∧
      f.HoldsFrom (off + (groupBytes g).length) gs := by
  obtain ⟨pre, hdata, hpre⟩ := h
  rw [List.flatten_cons, groupBytes_append] at hdata
  constructor
  · have hbytes : (f.data.drop off).take (groupBytes g).length = groupBytes g := by
      rw [hdata, List.drop_left' hpre, List.take_left' rfl]
    have hin : ¬ f.data.length < off + (groupBytes g).length := by
      rw [hdata]; simp only [List.length_append]; omega
    simp only [SstFile.blockBytes, groupMeta, if_neg hin, hbytes, ne_eq, not_true_eq_false,
      if_false]
  · exact ⟨pre ++ groupBytes g, by rw [hdata, List.append_assoc], by simp [hpre]⟩

theorem SstFile.allBlocks_laid (h : f.HoldsFrom off gs) :
    f.allBlocks crc32 (groupMetas crc32 off gs) = .ok (groupBytes gs.flatten) := by
  induction gs generalizing off with
  | nil => rfl
  | cons g gs ih =>
    obtain ⟨hb, hrest⟩ := h.block crc32
    simp only [groupMetas, SstFile.allBlocks, hb, ih hrest, List.flatten_cons, groupBytes_append]

/-- The extreme keys recorded for an ascending group bound its keys. -/
theorem groupMeta_bounds (hasc : g.Pairwise (fun a b => a.1 < b.1)) (off : Nat) {op : Op}
    (hop : op ∈ g) :
    (groupMeta crc32 off g).minKey ≤ op.1 ∧ op.1 ≤ (groupMeta crc32 off g).maxKey := by
  have hget : (⟨g, hasc⟩ : MemMap).get? op.1 = some op.2 :=
    (SortedMap.mem_toList (⟨g, hasc⟩ : MemMap) op.1 op.2).mp hop
  have hne : (⟨g, hasc⟩ : MemMap).isEmpty = false := by
    cases g with
    | nil => cases hop
    | cons _ _ => rfl
  obtain ⟨a, _, ha, _⟩ := SortedMap.firstKey?_isSome _ hne
  obtain ⟨b, _, hb, _⟩ := SortedMap.lastKey?_isSome _ hne
  have hmin := SortedMap.firstKey?_le _ ha hget
  have hmax := SortedMap.le_lastKey? _ hb hget
  simp only [SortedMap.firstKey?, SortedMap.keys, List.head?_map] at ha
  simp only [SortedMap.lastKey?, SortedMap.keys, List.getLast?_map] at hb
  simp only [groupMeta, ha, hb, Option.getD_some]
  exact ⟨hmin, hmax⟩

theorem SstFile.findInBlocks_laid (key : Key) (h : f.HoldsFrom off gs)
    (hg : ∀ op ∈ gs.flatten, op.Encodable) (hasc : ∀ g ∈ gs, g.Pairwise (fun a b => a.1 < b.1)) :
    f.findInBlocks crc32 key (groupMetas crc32 off gs) = .ok (gs.flatten.lookup key) := by
  induction gs generalizing off with
  | nil => rfl
  | cons g gs ih =>
    obtain ⟨hb, hrest⟩ := h.block crc32
    have ih' := ih hrest (fun o ho => hg o (by simp [ho])) (fun g' hg' => hasc g' (by simp [hg']))
    simp only [groupMetas, SstFile.findInBlocks, List.flatten_cons, List.lookup_append]
    split
    · rename_i hskip
      have hnone : g.lookup key = none := by
        apply SortedMap.lookup_eq_none_of_forall_ne
        rintro op hop rfl
        have hbd := groupMeta_bounds crc32 (hasc g (by simp)) off hop
        rcases hskip with hs | hs
        · exact absurd hs (not_lt.mpr hbd.1)
        · exact absurd hs (not_lt.mpr hbd.2)
      rw [ih', hnone, Option.none_or]
    · rw [hb]
      simp only [findInBlock_groupBytes key g (fun o ho => hg o (by simp [ho])) _ (Nat.le_refl _)]
      cases hl : g.lookup key with
      | some v => rfl
      | none => simp only [ih', Option.none_or]

/-- A group outside the scan range contributes nothing to it. -/
theorem filter_inRange_eq_nil (hasc : g.Pairwise (fun a b => a.1 < b.1)) (off : Nat)
    (start stop : Option Key)
    (h : overlaps start stop (groupMeta crc32 off g).minKey (groupMeta crc32 off g).maxKey = false) :
    (g.filter fun op => inRange start stop op.1) = [] := by
  apply List.filter_eq_nil_iff.mpr
  intro op hop hin
  obtain ⟨hmin, hmax⟩ := groupMeta_bounds crc32 hasc off hop
  cases start <;> cases stop <;>
    simp only [overlaps, inRange, Bool.and_eq_true, Bool.and_eq_false_iff, decide_eq_true_eq,
      decide_eq_false_iff_not, Bool.true_and, Bool.and_true, not_le, reduceCtorEq] at h hin
  · exact absurd hin (not_le.mpr (lt_of_lt_of_le h hmin))
  · exact absurd hin (not_le.mpr (lt_of_le_of_lt hmax h))
  · rcases h with h | h
    · exact absurd hin.1 (not_le.mpr (lt_of_le_of_lt hmax h))
    · exact absurd hin.2 (not_le.mpr (lt_of_lt_of_le h hmin))

theorem SstFile.scan_laid (start stop : Option Key) (h : f.HoldsFrom off gs)
    (hg : ∀ op ∈ gs.flatten, op.Encodable) (hasc : ∀ g ∈ gs, g.Pairwise (fun a b => a.1 < b.1)) :
    f.scanBlocksFrom crc32 start stop (groupMetas crc32 off gs) =
        .ok (gs.flatten.filter fun op => inRange start stop op.1) ∧
    f.scanIterFrom crc32 start stop (groupMetas crc32 off gs) =
        (gs.flatten.filter fun op => inRange start stop op.1).map .ok := by
  induction gs generalizing off with
  | nil => exact ⟨rfl, rfl⟩
  | cons g gs ih =>
    obtain ⟨hb, hrest⟩ := h.block crc32
    obtain ⟨ih1, ih2⟩ :=
      ih hrest (fun o ho => hg o (by simp [ho])) (fun g' hg' => hasc g' (by simp [hg']))
    simp only [groupMetas, SstFile.scanBlocksFrom, SstFile.scanIterFrom, List.flatten_cons,
      List.filter_append]
    cases ho : overlaps start stop (groupMeta crc32 off g).minKey (groupMeta crc32 off g).maxKey with
    | false =>
      have hnil := filter_inRange_eq_nil crc32 (hasc g (by simp)) off start stop ho
      simp only [Bool.false_eq_true, if_false, ih1, ih2, hnil, List.nil_append, and_self]
    | true =>
      obtain ⟨h1, h2⟩ := scanBlock_groupBytes start stop g (fun o ho => hg o (by simp [ho]))
        _ (Nat.le_refl (groupBytes g).length)
      have hany : ((g.filter fun op => inRange start stop op.1).map
          (Except.ok : Op → Res Op)).any itemFails = false := by
        simp [itemFails]
      simp only [if_true, hb, h1, h2, ih1, ih2, hany, Bool.false_eq_true, if_false,
        List.map_append, and_self]

end Reading

/-! ## The bloom filter has no false negatives -/

section Bloom

variable (crc32 : Bytes → UInt32)

@[simp] theorem length_setBit (bits : Bytes) (bit : Nat) :
    (setBit bits bit).length = bits.length := by
  simp [setBit]

variable {bits : Bytes}

theorem hasBit_setBit_self {bit : Nat} (h : bit < bits.length * 8) :
    hasBit (setBit bits bit) bit = true := by
  have hlt : bit / 8 < bits.length := by omega
  have h8 : bit % 8 < 8 := Nat.mod_lt _ (by decide)
  simp only [hasBit, setBit, List.getElem?_modify, List.getElem?_eq_getElem hlt, if_true,
    Option.map_eq_map, Option.map_some, UInt8.toNat_ofNat']
  rw [Nat.testBit_mod_two_pow]
  simp [h8]

theorem hasBit_setBit_of_hasBit {bit : Nat} (bit' : Nat) (h : hasBit bits bit = true) :
    hasBit (setBit bits bit') bit = true := by
  have h8 : bit % 8 < 8 := Nat.mod_lt _ (by decide)
  simp only [hasBit, setBit, List.getElem?_modify] at h ⊢
  cases hb : bits[bit / 8]? with
  | none => rw [hb] at h; cases h
  | some b =>
    rw [hb] at h
    by_cases hi : bit' / 8 = bit / 8
    · simp only [if_pos hi, Option.map_eq_map, Option.map_some, UInt8.toNat_ofNat']
      rw [Nat.testBit_mod_two_pow]
      simp only at h
      simp [h8, h]
    · simpa only [if_neg hi, Option.map_eq_map, Option.map_some] using h

theorem length_bloomSet (m : Nat) (bits : Bytes) (key : Key) :
    (bloomSet crc32 m bits key).length = bits.length := by
  simp [bloomSet]

theorem hasBit_bloomSet_of_hasBit {m : Nat} {bit : Nat} (key : Key) (h : hasBit bits bit = true) :
    hasBit (bloomSet crc32 m bits key) bit = true := by
  exact hasBit_setBit_of_hasBit _ (hasBit_setBit_of_hasBit _ (hasBit_setBit_of_hasBit _ h))

theorem hasBit_bloomSet_self {m : Nat} (key : Key) (hm : 0 < m) (hlen : m ≤ bits.length * 8)
    (i : Nat) (hi : i < 3) :
    hasBit (bloomSet crc32 m bits key) (bloomHash crc32 key i % m) = true := by
  have hlt : ∀ j, bloomHash crc32 key j % m < bits.length * 8 :=
    fun j => lt_of_lt_of_le (Nat.mod_lt _ hm) hlen
  have hcases : i = 0 ∨ i = 1 ∨ i = 2 := by omega
  rcases hcases with rfl | rfl | rfl
  · exact hasBit_setBit_of_hasBit _ (hasBit_setBit_of_hasBit _ (hasBit_setBit_self (hlt 0)))
  · exact hasBit_setBit_of_hasBit _ (hasBit_setBit_self (by simpa using hlt 1))
  · exact hasBit_setBit_self (by simpa using hlt 2)

/-- Every bit of a key that was set stays set through the whole fold. -/
theorem hasBit_foldl_bloomSet {m : Nat} (hm : 0 < m) (keys : List Key) (bits : Bytes)
    (hlen : m ≤ bits.length * 8) {key : Key} (hk : key ∈ keys) (i : Nat) (hi : i < 3) :
    hasBit (keys.foldl (bloomSet crc32 m) bits) (bloomHash crc32 key i % m) = true := by
  have keep : ∀ (keys : List Key) (bits : Bytes) (bit : Nat), hasBit bits bit = true →
      hasBit (keys.foldl (bloomSet crc32 m) bits) bit = true := by
    intro keys
    induction keys with
    | nil => exact fun _ _ h => h
    | cons k keys ih => exact fun bits bit h => ih _ _ (hasBit_bloomSet_of_hasBit crc32 k h)
  induction keys generalizing bits with
  | nil => cases hk
  | cons k keys ih =>
    rcases List.mem_cons.mp hk with rfl | hk
    · exact keep keys _ _ (hasBit_bloomSet_self crc32 key hm hlen i hi)
    · exact ih _ (by rw [length_bloomSet]; exact hlen) hk

theorem length_bloomOf (keys : List Key) :
    (bloomOf crc32 keys).2 ≤ (bloomOf crc32 keys).1.length * 8 := by
  have hfold : ∀ (ks : List Key) (m : Nat) (bits : Bytes),
      (ks.foldl (bloomSet crc32 m) bits).length = bits.length := by
    intro ks m
    induction ks with
    | nil => exact fun _ => rfl
    | cons k ks ih => exact fun bits => (ih _).trans (length_bloomSet crc32 m bits k)
  simp only [bloomOf, hfold, List.length_replicate]
  omega

theorem SstFile.mayContain_of_mem {f : SstFile} {keys : List Key} {key : Key}
    (hne : f.footer.index ≠ []) (hbits : f.footer.bloomBits = (bloomOf crc32 keys).1)
    (hm : f.footer.bloomM = (bloomOf crc32 keys).2) (hk : f.footer.bloomK = 3)
    (hmem : key ∈ keys) : f.mayContain crc32 key = true := by
  have hlen := length_bloomOf crc32 keys
  have hpos : 0 < (bloomOf crc32 keys).2 := by simp only [bloomOf]; omega
  simp only [SstFile.mayContain, hbits, hm, hk]
  rw [if_neg (by simpa using hne), if_neg (by omega), if_neg (by omega), List.all_eq_true]
  intro i hi
  refine hasBit_foldl_bloomSet crc32 hpos keys _ ?_ hmem i (List.mem_range.mp hi)
  simp only [bloomOf, List.length_replicate]
  omega

end Bloom

/-! ## What a built file holds -/

/-- The file passes its checks and answers every read as the map `m`. -/
structure SstFile.Holds (crc32 : Bytes → UInt32) (f : SstFile) (m : MemMap) : Prop where
  parse : f.parse = .ok f
  crc : f.verifyFileCrc crc32 = .ok ()
  get : ∀ key, f.getOption crc32 key = .ok (m.get? key)
  scan : ∀ start stop, f.scanWithTombstones crc32 start stop =
    .ok (m.toList.filter fun op => inRange start stop op.1)
  iter : ∀ start stop, f.scanIter crc32 start stop =
    (m.toList.filter fun op => inRange start stop op.1).map .ok

theorem buildSst_holds {crc32 : Bytes → UInt32} {m : MemMap} {bs : Nat} {f : SstFile}
    (h : buildSst crc32 m bs = .ok f)
    (hlen : ∀ k v, m.get? k = some (some v) → v.length ≠ tombstoneVlen) :
    f.Holds crc32 m := by
  obtain ⟨gs, hflat, hne, hk, hdata, hindex, hbits, hm, hbk, hcrc⟩ := buildSst_groups crc32 h
  have hfrom : f.HoldsFrom 0 gs := ⟨[], by simpa using hdata, rfl⟩
  have henc : ∀ op ∈ gs.flatten, op.Encodable := by
    intro op ho
    obtain ⟨key, value⟩ := op
    have hm : (key, value) ∈ m.toList := hflat ▸ ho
    have hfits := hk _ hm
    refine ⟨hfits.1, ?_⟩
    rintro v rfl
    have hne := hlen key v ((m.mem_toList key _).mp hm)
    have hlt : v.length < 2 ^ 32 := hfits.2
    unfold tombstoneVlen at hne ⊢
    omega
  have hasc : ∀ g ∈ gs, g.Pairwise (fun a b => a.1 < b.1) := by
    intro g hg
    exact .sublist (List.sublist_flatten_of_mem hg) (hflat ▸ m.ascending)
  have hscan := fun start stop => f.scan_laid crc32 start stop hfrom henc hasc
  refine ⟨?_, ?_, ?_, ?_, ?_⟩
  · simp [SstFile.parse, hbk]
  · simp only [SstFile.verifyFileCrc, hindex, SstFile.allBlocks_laid crc32 hfrom, hcrc, hdata,
      ne_eq, not_true_eq_false, if_false]
  · intro key
    have hfind := f.findInBlocks_laid crc32 key hfrom henc hasc
    rw [hflat] at hfind
    simp only [SstFile.getOption, hindex, hfind]
    cases hget : m.get? key with
    | none =>
      have hl : m.toList.lookup key = none := hget
      simp [hl]
    | some v =>
      have hmem : key ∈ m.keys := (m.mem_keys key).mpr ⟨v, hget⟩
      have hidx : f.footer.index ≠ [] := by
        intro hnil
        rw [hindex] at hnil
        cases gs with
        | nil =>
          rw [SortedMap.get?, ← hflat] at hget
          cases hget
        | cons g gs => cases hnil
      have hl : m.toList.lookup key = some v := hget
      rw [if_pos (SstFile.mayContain_of_mem crc32 hidx hbits hm hbk hmem), hl]
  · intro start stop
    rw [SstFile.scanWithTombstones, hindex, (hscan start stop).1, hflat]
  · intro start stop
    rw [SstFile.scanIter, hindex, (hscan start stop).2, hflat]

end OxKv
