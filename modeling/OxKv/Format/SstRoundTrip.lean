import OxKv.Format.FooterJson
import OxKv.Format.Reference

/-!
Built SST objects are read back.

A view whose index entries all end inside a `u64` is read exactly like its `SstFile`
(`SstView.Plain`). The footers that `build_sst` writes are plain and fit their fields, so that
`serde_json` gives them back, and then `buildSst_holds` says what the readers find.

* `SstView.getOption_eq`, `SstView.scanWithTombstones_eq`, `SstView.verifyFileCrc_eq`: the readers;
* `buildSst_fits`: the footers of built files;
* `sst_round_trip`: every map is read back from the bytes of its file.
-/

namespace OxKv

/-! ## Plain files -/

/-- No index entry overflows, and the filter has a `u64` as its size. -/
structure SstView.Plain (v : SstView) : Prop where
  index : ∀ b ∈ v.footer.index, b.offset + b.len < 2 ^ 64
  bloomM : v.footer.bloomM < 2 ^ 64

section Plain

variable {crc32 : Bytes → UInt32} {v : SstView}

theorem probesAt_eq (bits : Bytes) {m : Nat} (hm : m ≠ 0) (key : Key) (is : List Nat) :
    probesAt crc32 bits m key is = .ok (is.all fun i => hasBit bits (bloomHash crc32 key i % m)) := by
  induction is with
  | nil => rfl
  | cons i is ih =>
    rw [probesAt, Checked.rem_of_ne hm, Checked.ok_bind, ih, List.all_cons]
    cases hasBit bits (bloomHash crc32 key i % m) <;> rfl

theorem SstView.mayContain_eq (h : v.Plain) (key : Key) :
    v.mayContain crc32 key = .ok (v.file.mayContain crc32 key) := by
  have hwide : min (v.footer.bloomBits.length * 8) (2 ^ 64 - 1) < v.footer.bloomM ↔
      v.footer.bloomBits.length * 8 < v.footer.bloomM := by
    have hm := h.bloomM
    omega
  rw [SstView.mayContain, SstFile.mayContain, SstView.file_footer]
  simp only [hwide]
  by_cases hempty : v.footer.index.isEmpty = true
  · rw [if_pos hempty, if_pos hempty]
  · rw [if_neg hempty, if_neg hempty]
    by_cases hm : v.footer.bloomM = 0
    · rw [if_pos hm, if_pos hm]
    · rw [if_neg hm, if_neg hm]
      split
      · rfl
      · exact probesAt_eq _ hm key _

variable {bs : List BlockMeta}

theorem SstView.findInBlocks_eq (key : Key) (h : ∀ b ∈ bs, b.offset + b.len < 2 ^ 64) :
    v.findInBlocks crc32 key bs = .ok (v.file.findInBlocks crc32 key bs) := by
  induction bs with
  | nil => rfl
  | cons b bs ih =>
    have htail := ih fun c hc => h c (List.mem_cons_of_mem _ hc)
    rw [SstView.findInBlocks, SstFile.findInBlocks]
    split
    · exact htail
    · rw [SstView.blockBytes_of_lt (h b List.mem_cons_self), Checked.ok_bind]
      cases hbytes : v.file.blockBytes crc32 b with
      | error e => rfl
      | ok bytes =>
        have hlen := Nat.lt_of_le_of_lt (SstFile.blockBytes_length hbytes) v.file_length_lt
        dsimp only
        rw [findInBlockAt_eq hlen, Checked.ok_bind]
        rcases findInBlock key bytes.length bytes with e | _ | found
        · rfl
        · exact htail
        · rfl

theorem SstView.getOption_eq (h : v.Plain) (key : Key) :
    v.getOption crc32 key = .ok (v.file.getOption crc32 key) := by
  rw [SstView.getOption, SstView.mayContain_eq h, Checked.ok_bind, SstFile.getOption]
  split
  · exact SstView.findInBlocks_eq key h.index
  · rfl

theorem SstView.scanBlocks_eq_file {start stop : Option Key}
    (h : ∀ b ∈ bs, b.offset + b.len < 2 ^ 64) (out : List Op) :
    v.scanBlocks crc32 start stop none bs out =
      .ok ((v.file.scanBlocksFrom crc32 start stop bs).map (out ++ ·)) := by
  induction bs generalizing out with
  | nil => simp [SstView.scanBlocks, SstFile.scanBlocksFrom, Except.map]
  | cons b bs ih =>
    have htail := ih fun c hc => h c (List.mem_cons_of_mem _ hc)
    rw [SstView.scanBlocks, SstFile.scanBlocksFrom]
    split
    · rw [SstView.blockBytes_of_lt (h b List.mem_cons_self), Checked.ok_bind]
      cases hbytes : v.file.blockBytes crc32 b with
      | error e => rfl
      | ok bytes =>
        have hlen := Nat.lt_of_le_of_lt (SstFile.blockBytes_length hbytes) v.file_length_lt
        dsimp only
        rw [scanBlockAt_eq hlen, Checked.ok_bind]
        cases scanBlock start stop bytes.length bytes with
        | error e => rfl
        | ok rows =>
          refine (htail (out ++ rows)).trans ?_
          cases v.file.scanBlocksFrom crc32 start stop bs with
          | error e => rfl
          | ok more => simp [Except.map]
    · exact htail out

theorem SstView.scanWithTombstones_eq (h : v.Plain) (start stop : Option Key) :
    v.scanWithTombstones crc32 start stop none =
      .ok (v.file.scanWithTombstones crc32 start stop) := by
  rw [SstView.scanWithTombstones, SstView.scanBlocks_eq_file h.index, SstFile.scanWithTombstones,
    SstView.file_footer]
  cases v.file.scanBlocksFrom crc32 start stop v.footer.index <;> rfl

theorem SstView.allBlocks_eq (h : ∀ b ∈ bs, b.offset + b.len < 2 ^ 64) (hashed : Bytes) :
    v.allBlocks crc32 bs hashed = .ok ((v.file.allBlocks crc32 bs).map (hashed ++ ·)) := by
  induction bs generalizing hashed with
  | nil => simp [SstView.allBlocks, SstFile.allBlocks, Except.map]
  | cons b bs ih =>
    have htail := ih fun c hc => h c (List.mem_cons_of_mem _ hc)
    rw [SstView.allBlocks, SstFile.allBlocks, SstView.blockBytes_of_lt (h b List.mem_cons_self),
      Checked.ok_bind]
    cases v.file.blockBytes crc32 b with
    | error e => rfl
    | ok bytes =>
      refine (htail (hashed ++ bytes)).trans ?_
      cases v.file.allBlocks crc32 bs with
      | error e => rfl
      | ok more => simp [Except.map]

theorem SstView.verifyFileCrc_eq (h : v.Plain) :
    v.verifyFileCrc crc32 = .ok (v.file.verifyFileCrc crc32) := by
  rw [SstView.verifyFileCrc, SstView.allBlocks_eq h.index, Checked.ok_bind, SstFile.verifyFileCrc,
    SstView.file_footer]
  cases v.file.allBlocks crc32 v.footer.index with
  | error e => rfl
  | ok hashed =>
    simp only [Except.map, List.nil_append]
    split <;> rfl

end Plain

/-! ## Built footers -/

section Built

variable {crc32 : Bytes → UInt32}

theorem groupMetas_end {off : Nat} {gs : List (List Op)} {b : BlockMeta}
    (h : b ∈ groupMetas crc32 off gs) : b.offset + b.len ≤ off + (groupBytes gs.flatten).length := by
  induction gs generalizing off with
  | nil => cases h
  | cons g gs ih =>
    rw [List.flatten_cons, groupBytes_append, List.length_append]
    rcases List.mem_cons.mp h with rfl | h
    · dsimp only [groupMeta]
      omega
    · have hend := ih h
      omega

theorem groupBytes_length (ops : List Op) : 8 * ops.length ≤ (groupBytes ops).length := by
  induction ops with
  | nil => exact Nat.zero_le _
  | cons op ops ih =>
    have hop := length_recordBytes op
    rw [groupBytes_cons, List.length_append, List.length_cons]
    omega

theorem buildSst_fits {m : MemMap} {bs : Nat} {f : SstFile} (h : buildSst crc32 m bs = .ok f)
    (hsize : f.data.length < 2 ^ 63) :
    f.footer.Fits ∧ ∀ b ∈ f.footer.index, b.offset + b.len < 2 ^ 64 := by
  obtain ⟨gs, hflat, -, -, hdata, hindex, -, hm, hk, hcrc⟩ := buildSst_groups crc32 h
  rw [hdata] at hsize
  have hends : ∀ b ∈ f.footer.index, b.offset + b.len < 2 ^ 63 := by
    intro b hb
    rw [hindex] at hb
    have hend := groupMetas_end hb
    omega
  refine ⟨⟨fun b hb => ?_, ?_, ?_, ?_⟩, fun b hb => ?_⟩
  · have hend := hends b hb
    omega
  · rw [hk]
    decide
  · have hcount := groupBytes_length gs.flatten
    rw [hflat] at hcount hsize
    rw [hm, bloomOf, show m.keys.length = m.toList.length by simp [SortedMap.keys]]
    omega
  · rw [hcrc]
    have hlt := (crc32 f.data).toNat_lt
    omega
  · have hend := hends b hb
    omega

end Built

/-- The object is accepted, its checksum is right, and every lookup and every scan finds what the
map holds. -/
structure Serves (codec : FooterCodec) (crc32 : Bytes → UInt32) (data : ByteVec) (m : MemMap)
    (v : SstView) :
    Prop where
  parse : SstView.parse codec data = .ok (.ok v)
  crc : v.verifyFileCrc crc32 = .ok (.ok ())
  get : ∀ key, v.getOption crc32 key = .ok (.ok (m.get? key))
  scan : ∀ start stop, v.scanWithTombstones crc32 start stop none =
    .ok (.ok (m.toList.filter fun op => inRange start stop op.1))

section RoundTrip

variable {codec : SerdeJson} {crc32 : Bytes → UInt32} {m : MemMap} {blockSize : Nat} {f : SstFile}

theorem buildSst_data (h : buildSst crc32 m blockSize = .ok f) : f.data = groupBytes m.toList := by
  obtain ⟨gs, hflat, -, -, hdata, -⟩ := buildSst_groups crc32 h
  rw [hdata, hflat]

theorem buildSstBytes_ok {codec : FooterCodec} {bytes : Bytes}
    (h : buildSstBytes codec crc32 m blockSize = .ok bytes) :
    ∃ f json, buildSst crc32 m blockSize = .ok f ∧ codec.toVec f.footer = .ok json ∧
      bytes = f.data ++ sstTail json := by
  unfold buildSstBytes at h
  cases hf : buildSst crc32 m blockSize with
  | error e =>
    rw [hf] at h
    cases h
  | ok f =>
    rw [hf] at h
    dsimp only at h
    cases hjson : codec.toVec f.footer with
    | error e =>
      rw [hjson] at h
      cases h
    | ok json =>
      rw [hjson] at h
      cases h
      exact ⟨f, json, rfl, hjson, rfl⟩

/-- The tail of a built file is parsed to its footer. -/
theorem serves_of_holds (hf : f.Holds crc32 m) (hfits : f.footer.Fits)
    (hindex : ∀ b ∈ f.footer.index, b.offset + b.len < 2 ^ 64) {json : Bytes}
    (hread : codec.fromSlice json = .ok f.footer) (hjson : json.length < 2 ^ 32) (data : ByteVec)
    (hdata : data.bytes = f.data ++ sstTail json) :
    ∃ v, Serves codec.toFooterCodec crc32 data m v := by
  have hin : f.data.length ≤ data.bytes.length := by
    rw [hdata, List.length_append]
    omega
  have hfile : (⟨data, f.footer, f.data.length, hin⟩ : SstView).file = f := by
    rw [SstView.file, hdata, List.take_left]
  have hplain : (⟨data, f.footer, f.data.length, hin⟩ : SstView).Plain := ⟨hindex, hfits.bloomM⟩
  refine ⟨⟨data, f.footer, f.data.length, hin⟩, ?_, ?_, ?_, ?_⟩
  · rw [SstView.parse_of_tail codec.toFooterCodec hdata hjson, hread]
    have hparse := hf.parse
    unfold SstFile.parse at hparse
    split at hparse
    · cases hparse
    · rename_i hk
      rw [SstView.ofFooter, if_neg hk]
  · rw [SstView.verifyFileCrc_eq hplain, hfile, hf.crc]
  · intro key
    rw [SstView.getOption_eq hplain, hfile, hf.get]
  · intro start stop
    rw [SstView.scanWithTombstones_eq hplain, hfile, hf.scan]

end RoundTrip

/-- `build_sst` succeeds on every map whose records fit into a `Vec`, and the bytes that it makes
of a map serve that map. -/
theorem sst_round_trip (codec : SerdeJson) (crc32 : Bytes → UInt32) (m : MemMap) (blockSize : Nat)
    (hkeys : ∀ op ∈ m.toList, (keyBytes op.1).length < 2 ^ 32 - 1)
    (hvalues : ∀ op ∈ m.toList, ∀ value ∈ op.2, value.length < 2 ^ 32 - 1)
    (hfooter : ∀ f json, buildSst crc32 m blockSize = .ok f → codec.toVec f.footer = .ok json →
      json.length < 2 ^ 32) :
    ((m.toList.flatMap recordBytes).length < 2 ^ 63 →
        ∃ bytes, buildSstBytes codec.toFooterCodec crc32 m blockSize = .ok bytes) ∧
      ∀ data : ByteVec, buildSstBytes codec.toFooterCodec crc32 m blockSize = .ok data.bytes →
        ∃ v, Serves codec.toFooterCodec crc32 data m v := by
  have hops : ∀ op ∈ m.toList, Op.Fits op := by
    rintro ⟨key, value⟩ hop
    refine ⟨Nat.lt_trans (hkeys _ hop) (by decide), ?_⟩
    cases value with
    | none => exact Nat.two_pow_pos 32
    | some v => exact Nat.lt_trans (hvalues _ hop v rfl) (by decide)
  obtain ⟨f, hf⟩ := buildSst_ok crc32 blockSize hops
  have hholds : f.Holds crc32 m := by
    refine buildSst_holds hf fun k v hget => ?_
    exact Nat.ne_of_lt (hvalues (k, some v) ((m.mem_toList k _).mpr hget) v rfl)
  constructor
  · intro hsize
    obtain ⟨hfits, -⟩ := buildSst_fits hf (by rw [buildSst_data hf]; exact hsize)
    obtain ⟨json, hjson, -⟩ := codec.round_trip f.footer hfits
    exact ⟨f.data ++ sstTail json, by simp only [buildSstBytes, hf, hjson]⟩
  · intro data hdata
    obtain ⟨f', json, hf', hjson, hbytes⟩ := buildSstBytes_ok hdata
    cases hf.symm.trans hf'
    have hsize : f.data.length < 2 ^ 63 := by
      have hlt := data.length_lt
      rw [hbytes, List.length_append] at hlt
      omega
    obtain ⟨hfits, hindex⟩ := buildSst_fits hf hsize
    obtain ⟨json', hjson', hread⟩ := codec.round_trip f.footer hfits
    cases hjson.symm.trans hjson'
    exact serves_of_holds hholds hfits hindex hread (hfooter f json hf hjson) data hbytes

/-- Two values in two blocks, and a tombstone. -/
def threeRows : MemMap :=
  ((SortedMap.empty.insert "a" (some (List.replicate 24 1))).insert "b"
    (some (List.replicate 24 2))).insert "c" none

theorem sst_round_trip_threeRows :
    (∃ bytes, buildSstBytes footerJson.toFooterCodec crc32 threeRows 64 = .ok bytes) ∧
      ∀ data : ByteVec, buildSstBytes footerJson.toFooterCodec crc32 threeRows 64 = .ok data.bytes →
        ∃ v, Serves footerJson.toFooterCodec crc32 data threeRows v := by
  have hfooter : ∀ f json, buildSst crc32 threeRows 64 = .ok f →
      footerJson.toVec f.footer = .ok json → json.length < 2 ^ 32 := by
    intro f json hf hjson
    have hall : ((buildSst crc32 threeRows 64).toOption.all
        fun f => decide (f.footer.json.length < 2 ^ 32)) = true := by
      decide +kernel
    rw [hf] at hall
    cases hjson
    exact of_decide_eq_true hall
  have hserves := sst_round_trip footerJson crc32 threeRows 64 (by decide +kernel)
    (by decide +kernel) hfooter
  exact ⟨hserves.1 (by decide +kernel), hserves.2⟩

end OxKv
