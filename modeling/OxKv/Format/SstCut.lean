import OxKv.Format.SstRoundTrip

/-!
Truncated SST objects.

The trailer of an object is looked for at its end, so a prefix of a built object is accepted
when the bytes before the cut look like a trailer. A cut inside the footer or the trailer never
does: a JSON text has no zero byte and ends with a brace. A cut inside the records does if the
records carry a whole file, for example in a value.

* `SstFooter.Describes`: a footer that is right about the blocks before it;
* `SstView.verifyFileCrc_iff`: that is what `verify_file_crc` checks;
* `cut_in_tail`: a cut behind the records;
* `truncated_sst_iff`: all prefixes are refused exactly when the records carry no file.
-/

namespace OxKv

def BlockMeta.part (b : BlockMeta) (blocks : Bytes) : Bytes := (blocks.drop b.offset).take b.len

/-- Every block lies inside and has its checksum, and so has the whole file. -/
structure SstFooter.Describes (crc32 : Bytes → UInt32) (f : SstFooter) (blocks : Bytes) : Prop where
  index : ∀ b ∈ f.index, b.offset + b.len ≤ blocks.length ∧ crc32 (b.part blocks) = b.crc
  file : (crc32 (f.index.flatMap fun b => b.part blocks)).toNat = f.fileCrc

/-- The bytes are parsed and pass `verify_file_crc`. -/
def Accepted (codec : FooterCodec) (crc32 : Bytes → UInt32) (data : ByteVec) : Prop :=
  ∃ v, SstView.parse codec data = .ok (.ok v) ∧ v.verifyFileCrc crc32 = .ok (.ok ())

/-- No proper prefix of the bytes passes for a file. -/
def PrefixesRejected (codec : FooterCodec) (crc32 : Bytes → UInt32) (bytes : Bytes) : Prop :=
  ∀ cut : ByteVec, cut.bytes <+: bytes → cut.bytes ≠ bytes → ¬ Accepted codec crc32 cut

/-- The bytes start with a whole file: blocks, and a tail whose footer describes them. -/
def CarriesFile (codec : FooterCodec) (crc32 : Bytes → UInt32) (bytes : Bytes) : Prop :=
  ∃ blocks json footer, blocks ++ sstTail json <+: bytes ∧ json.length < 2 ^ 32 ∧
    codec.fromSlice json = .ok footer ∧ (0 < footer.bloomK ∧ footer.bloomK ≤ 32) ∧
    footer.Describes crc32 blocks

/-! ## What is accepted -/

section Accept

variable {crc32 : Bytes → UInt32}

theorem SstFile.blockBytes_ok_iff {f : SstFile} {b : BlockMeta} {bytes : Bytes} :
    f.blockBytes crc32 b = .ok bytes ↔
      (b.offset + b.len ≤ f.data.length ∧ crc32 (b.part f.data) = b.crc) ∧ b.part f.data = bytes := by
  rw [SstFile.blockBytes]
  split
  · refine ⟨fun h => (by cases h), fun h => ?_⟩
    omega
  · rename_i hin
    dsimp only
    split
    · rename_i hcrc
      exact ⟨fun h => (by cases h), fun h => absurd h.1.2 hcrc⟩
    · rename_i hcrc
      refine ⟨fun h => ?_, fun h => congrArg _ h.2⟩
      exact ⟨⟨Nat.le_of_not_lt hin, not_not.mp hcrc⟩, Except.ok.inj h⟩

theorem SstView.blockBytes_ok_iff {v : SstView} {b : BlockMeta} {bytes : Bytes} :
    v.blockBytes crc32 b = .ok (.ok bytes) ↔
      (b.offset + b.len ≤ v.file.data.length ∧ crc32 (b.part v.file.data) = b.crc) ∧
        b.part v.file.data = bytes := by
  have hlen := v.file_length_lt
  rcases Nat.lt_or_ge (b.offset + b.len) (2 ^ 64) with hfit | hbig
  · rw [SstView.blockBytes_of_lt hfit, Except.ok.injEq, SstFile.blockBytes_ok_iff]
  · rw [SstView.blockBytes_overflow hbig]
    refine ⟨fun h => (by cases h), fun h => ?_⟩
    omega

theorem SstView.allBlocks_ok_iff {v : SstView} {bs : List BlockMeta} {hashed out : Bytes} :
    v.allBlocks crc32 bs hashed = .ok (.ok out) ↔
      (∀ b ∈ bs, b.offset + b.len ≤ v.file.data.length ∧ crc32 (b.part v.file.data) = b.crc) ∧
        hashed ++ bs.flatMap (fun b => b.part v.file.data) = out := by
  induction bs generalizing hashed with
  | nil => simp [SstView.allBlocks]
  | cons b bs ih =>
    rw [SstView.allBlocks, List.forall_mem_cons, List.flatMap_cons]
    rcases hblock : v.blockBytes crc32 b with e | e | bytes
    · refine ⟨fun h => (by cases h), fun h => ?_⟩
      cases hblock.symm.trans (v.blockBytes_ok_iff.mpr ⟨h.1.1, rfl⟩)
    · refine ⟨fun h => (by cases h), fun h => ?_⟩
      cases hblock.symm.trans (v.blockBytes_ok_iff.mpr ⟨h.1.1, rfl⟩)
    · obtain ⟨hb, rfl⟩ := v.blockBytes_ok_iff.mp hblock
      rw [Checked.ok_bind]
      rw [ih, List.append_assoc]
      exact ⟨fun h => ⟨⟨hb, h.1⟩, h.2⟩, fun h => ⟨h.1.2, h.2⟩⟩

theorem SstView.verifyFileCrc_iff {v : SstView} :
    v.verifyFileCrc crc32 = .ok (.ok ()) ↔ v.footer.Describes crc32 v.file.data := by
  rw [SstView.verifyFileCrc]
  rcases hall : v.allBlocks crc32 v.footer.index [] with e | e | hashed
  · refine ⟨fun h => (by cases h), fun h => ?_⟩
    cases hall.symm.trans (v.allBlocks_ok_iff.mpr ⟨h.index, rfl⟩)
  · refine ⟨fun h => (by cases h), fun h => ?_⟩
    cases hall.symm.trans (v.allBlocks_ok_iff.mpr ⟨h.index, rfl⟩)
  · obtain ⟨hindex, hhashed⟩ := v.allBlocks_ok_iff.mp hall
    rw [List.nil_append] at hhashed
    rw [Checked.ok_bind]
    dsimp only
    split
    · rename_i hcrc
      refine ⟨fun h => (by cases h), fun h => ?_⟩
      rw [← hhashed] at hcrc
      exact absurd h.file hcrc
    · rename_i hcrc
      refine ⟨fun _ => ⟨hindex, ?_⟩, fun _ => rfl⟩
      rw [hhashed]
      exact not_not.mp hcrc

theorem SstView.file_data_of_tail {data : ByteVec} {blocks tail : Bytes}
    (hdata : data.bytes = blocks ++ tail) (footer : SstFooter)
    (hin : blocks.length ≤ data.bytes.length) :
    (⟨data, footer, blocks.length, hin⟩ : SstView).file.data = blocks := by
  rw [SstView.file]
  rw [hdata, List.take_left]

variable {codec : FooterCodec}

/-- An object is accepted when it is a whole file. -/
theorem accepted_iff {data : ByteVec} : Accepted codec crc32 data ↔
    ∃ blocks json footer, data.bytes = blocks ++ sstTail json ∧ json.length < 2 ^ 32 ∧
      codec.fromSlice json = .ok footer ∧ (0 < footer.bloomK ∧ footer.bloomK ≤ 32) ∧
      footer.Describes crc32 blocks := by
  constructor
  · rintro ⟨v, hparse, hverify⟩
    rcases SstView.parse_cases codec data with ⟨e, he⟩ | ⟨blocks, json, hdata, hjson⟩
    · cases he.symm.trans hparse
    · rw [SstView.parse_of_tail codec hdata hjson] at hparse
      cases hread : codec.fromSlice json with
      | error e =>
        rw [hread] at hparse
        cases hparse
      | ok footer =>
        rw [hread, SstView.ofFooter] at hparse
        split at hparse
        · cases hparse
        · cases hparse
          rw [SstView.verifyFileCrc_iff, SstView.file_data_of_tail hdata] at hverify
          exact ⟨blocks, json, footer, hdata, hjson, hread, by omega, hverify⟩
  · rintro ⟨blocks, json, footer, hdata, hjson, hread, hk, hdesc⟩
    have hin : blocks.length ≤ data.bytes.length := by
      rw [hdata, List.length_append]
      omega
    refine ⟨⟨data, footer, blocks.length, hin⟩, ?_, ?_⟩
    · rw [SstView.parse_of_tail codec hdata hjson, hread, SstView.ofFooter, if_neg (by omega)]
    · rw [SstView.verifyFileCrc_iff, SstView.file_data_of_tail hdata]
      exact hdesc

end Accept

/-! ## Cuts -/

/-- Behind the brace of a footer no part of its trailer completes a trailer. -/
theorem cut_in_trailer (front blocks json : Bytes) (len : Nat) {k : Nat} (hk : k < 12) :
    front ++ 0x7d :: (u32le len ++ sstMagic ++ u32le sstVersion).take k ≠ blocks ++ sstTail json := by
  intro heq
  have hback := congrArg List.reverse heq
  generalize hlen : u32le len = l at hback
  obtain ⟨l0, l1, l2, l3, rfl⟩ : ∃ l0 l1 l2 l3, l = [l0, l1, l2, l3] := ⟨_, _, _, _, hlen.symm⟩
  simp only [sstTail, sstMagic, List.reverse_append, List.reverse_cons] at hback
  obtain rfl | rfl | rfl | rfl | rfl | rfl | rfl | rfl | rfl | rfl | rfl | rfl : k = 0 ∨ k = 1 ∨
      k = 2 ∨ k = 3 ∨ k = 4 ∨ k = 5 ∨ k = 6 ∨ k = 7 ∨ k = 8 ∨ k = 9 ∨ k = 10 ∨ k = 11 := by
    omega
  all_goals simp [u32le, sstVersion] at hback

/-- A prefix of a tail, with anything before it, does not end with a tail. -/
theorem cut_in_tail {before cut json : Bytes} (hzero : ∀ b ∈ json, b ≠ 0)
    (hend : json.getLast? = some 0x7d) (hcut : cut <+: sstTail json) (hne : cut ≠ [])
    (hproper : cut ≠ sstTail json) (blocks json' : Bytes) :
    before ++ cut ≠ blocks ++ sstTail json' := by
  intro heq
  have hsplit : sstTail json = json ++ (u32le json.length ++ sstMagic ++ u32le sstVersion) := by
    simp only [sstTail, List.append_assoc]
  rw [hsplit] at hcut hproper
  obtain ⟨rest, hrest⟩ := hcut
  rcases List.append_eq_append_iff.mp hrest with ⟨r, hjson, -⟩ | ⟨r, rfl, hr⟩
  · -- the last byte of the cut is one of the footer, but that of a tail is zero
    have hlast : (before ++ cut).getLast? = some 0 := by
      rw [heq, sstTail, ← List.append_assoc, List.getLast?_append]
      rfl
    rw [List.getLast?_append_of_ne_nil _ hne] at hlast
    refine hzero 0 ?_ rfl
    rw [hjson]
    exact List.mem_append_left _ (List.mem_of_getLast? hlast)
  · obtain ⟨front, hfront⟩ := List.getLast?_eq_some_iff.mp hend
    have hr0 : r = (u32le json.length ++ sstMagic ++ u32le sstVersion).take r.length := by
      rw [hr, List.take_left]
    have hlen : r.length + rest.length = 12 := by
      rw [← List.length_append, ← hr]
      rfl
    have hrest0 : rest ≠ [] := by
      rintro rfl
      rw [List.append_nil] at hrest
      exact hproper hrest
    have hrpos := List.length_pos_iff.mpr hrest0
    refine cut_in_trailer (before ++ front) blocks json' json.length (k := r.length) (by omega) ?_
    rw [← hr0, ← heq, hfront]
    simp only [List.append_assoc, List.singleton_append]

/-- All proper prefixes of a built object are refused exactly when its records carry no file. -/
theorem truncated_sst_iff (codec : SerdeJson) (crc32 : Bytes → UInt32) (m : MemMap)
    (blockSize : Nat) (data : ByteVec)
    (hbuilt : buildSstBytes codec.toFooterCodec crc32 m blockSize = .ok data.bytes) :
    PrefixesRejected codec.toFooterCodec crc32 data.bytes ↔
      ¬ CarriesFile codec.toFooterCodec crc32 (m.toList.flatMap recordBytes) := by
  obtain ⟨f, json, hf, hjson, hbytes⟩ := buildSstBytes_ok hbuilt
  rw [buildSst_data hf] at hbytes
  rw [← groupBytes]
  constructor
  · rintro hall ⟨blocks, json', footer, hpre, hjson', hread, hk, hdesc⟩
    have hlen := hpre.length_le
    have hdata := data.length_lt
    rw [hbytes, List.length_append] at hdata
    refine hall ⟨blocks ++ sstTail json', by omega⟩ ?_ ?_
      (accepted_iff.mpr ⟨blocks, json', footer, rfl, hjson', hread, hk, hdesc⟩)
    · rw [hbytes]
      exact hpre.trans (List.prefix_append _ _)
    · intro heq
      have hsame := congrArg List.length heq
      rw [hbytes, List.length_append] at hsame
      simp only [sstTail, List.length_append, length_u32le] at hsame hlen
      omega
  · rintro hno cut hcut hproper haccept
    obtain ⟨blocks, json', footer, hdata, hjson', hread, hk, hdesc⟩ := accepted_iff.mp haccept
    rw [hbytes] at hcut hproper
    obtain ⟨rest, hrest⟩ := hcut
    rcases List.append_eq_append_iff.mp hrest with ⟨r, hrecords, -⟩ | ⟨r, hr, htail⟩
    · refine hno ⟨blocks, json', footer, ?_, hjson', hread, hk, hdesc⟩
      rw [← hdata, hrecords]
      exact List.prefix_append _ _
    · by_cases hnil : r = []
      · refine hno ⟨blocks, json', footer, ?_, hjson', hread, hk, hdesc⟩
        rw [← hdata, hr, hnil, List.append_nil]
      · refine cut_in_tail (codec.no_zero _ _ hjson) (codec.ends _ _ hjson) ⟨rest, htail.symm⟩ hnil
          ?_ blocks json' (hr.symm.trans hdata)
        rintro rfl
        exact hproper hr

/-- A row whose record is shorter than any trailer. -/
def shortRow : MemMap := SortedMap.empty.insert "a" (some [1, 2])

def shortObject : ByteVec :=
  ⟨((buildSstBytes footerJson.toFooterCodec crc32 shortRow 64).toOption).getD [], by decide +kernel⟩

theorem truncated_sst_iff_shortRow :
    PrefixesRejected footerJson.toFooterCodec crc32 shortObject.bytes := by
  refine (truncated_sst_iff footerJson crc32 shortRow 64 shortObject (by decide +kernel)).mpr ?_
  rintro ⟨blocks, json, footer, hpre, -⟩
  have hlen := hpre.length_le
  have hrecords : (shortRow.toList.flatMap recordBytes).length = 11 := by decide +kernel
  simp only [sstTail, sstMagic, List.length_append, length_u32le, List.length_cons,
    List.length_nil] at hlen
  omega

def emptyFooter : SstFooter := ⟨[], [], 3, 0, 0⟩

/-- A row whose value is the tail of a file without blocks. -/
def carrierRow : MemMap := SortedMap.empty.insert "k" (some (sstTail emptyFooter.json))

def carrierHead : Bytes := u32le 1 ++ keyBytes "k" ++ u32le (sstTail emptyFooter.json).length

/-- The bytes up to the end of the value pass for a file without blocks. -/
theorem carried_file_accepted :
    ∃ bytes, buildSstBytes footerJson.toFooterCodec crc32 carrierRow 64 = .ok bytes ∧
      ¬ PrefixesRejected footerJson.toFooterCodec crc32 bytes := by
  have hfits : ∀ op ∈ carrierRow.toList,
      (keyBytes op.1).length < 2 ^ 32 ∧ (op.2.getD []).length < 2 ^ 32 := by
    decide +kernel
  obtain ⟨f, hf⟩ := buildSst_ok crc32 64 hfits
  have hdata : f.data = carrierHead ++ sstTail emptyFooter.json :=
    (buildSst_data hf).trans (by decide +kernel)
  refine ⟨f.data ++ sstTail f.footer.json, ?_, fun hall => ?_⟩
  · simp only [buildSstBytes, hf]
    rfl
  · refine hall ⟨carrierHead ++ sstTail emptyFooter.json, by decide +kernel⟩ ?_ ?_
      (accepted_iff.mpr ⟨carrierHead, emptyFooter.json, emptyFooter, rfl, by decide +kernel,
        by decide +kernel, by decide, fun _ h => (by cases h), by decide⟩)
    · rw [hdata]
      exact List.prefix_append _ _
    · intro heq
      have hsame := congrArg List.length heq
      rw [hdata, List.length_append] at hsame
      simp only [sstTail, List.length_append, length_u32le] at hsame
      omega

end OxKv
