import OxKv.Format.Entry

/-!
SST objects as byte strings: the writer, the parser and the readers, with the machine
arithmetic of the source on a 64-bit target with overflow checks.

An `SstView` is a parsed object: the bytes, the decoded footer and the place where the footer
starts. `SstView.file` forgets the bytes behind the blocks; the readers agree with those of
`SstFile` as long as no index entry overflows.

* `SstView.parse_of_tail`, `SstView.parse_cases`: what the parser accepts;
* `SstView.blockBytes_of_lt`, `SstView.blockBytes_overflow`: what reading a block can do;
* `findInBlockAt_eq`, `scanBlockAt_eq`: the record loops.
-/

namespace OxKv

/-! ## Writing -/

/-- `SST_MAGIC`. -/
def sstMagic : Bytes := [0x4f, 0x58, 0x4b, 0x56]

/-- `SST_VERSION`. -/
def sstVersion : Nat := 1

/-- `SST_TRAILER_LEN`. -/
def sstTrailerLen : Nat := 8

/-- `serde_json` on footers. -/
structure FooterCodec where
  toVec : SstFooter → Except String Bytes
  fromSlice : Bytes → Except String SstFooter

def sstTail (json : Bytes) : Bytes := json ++ u32le json.length ++ sstMagic ++ u32le sstVersion

/-- `build_sst`, down to the bytes. -/
def buildSstBytes (codec : FooterCodec) (crc32 : Bytes → UInt32) (entries : MemMap)
    (blockSize : Nat) : Res Bytes :=
  match buildSst crc32 entries blockSize with
  | .error e => .error e
  | .ok f =>
    match codec.toVec f.footer with
    | .error e => .error (.storage ("serialize footer: " ++ e))
    | .ok json => .ok (f.data ++ sstTail json)

/-! ## Parsing -/

/-- `usize` and `u64`, with overflow checks. -/
def u64 : Word := ⟨64, false⟩

/-- A `Vec<u8>` holds at most `isize::MAX` bytes. -/
structure ByteVec where
  bytes : Bytes
  length_lt : bytes.length < 2 ^ 63

/-- `SstFile`: the whole object, its footer and where the footer begins. -/
structure SstView where
  data : ByteVec
  footer : SstFooter
  footerOffset : Nat
  inside : footerOffset ≤ data.bytes.length

def SstView.file (v : SstView) : SstFile := ⟨v.data.bytes.take v.footerOffset, v.footer⟩

@[simp] theorem SstView.file_footer (v : SstView) : v.file.footer = v.footer := rfl

def footerOutOfBounds : StoreError := .storage "sst footer out of bounds"

/-- The part of `parse` behind the trailer checks. -/
def parseFooter (codec : FooterCodec) (data : ByteVec) (footerLenOffset footerLen : Nat) :
    Checked (Res SstView) :=
  -- `checked_sub`
  if footerLenOffset < footerLen then .ok (.error footerOutOfBounds)
  else do
    let footerStart := footerLenOffset - footerLen
    let sum ← u64.add footerStart footerLen
    if h : sum ≠ footerLenOffset ∨ data.bytes.length < footerStart then
      .ok (.error footerOutOfBounds)
    else do
      let footerBytes ← Checked.slice data.bytes footerStart footerLenOffset
      match codec.fromSlice footerBytes with
      | .error e => .ok (.error (.storage ("parse footer: " ++ e)))
      | .ok footer =>
        if footer.bloomK = 0 ∨ 32 < footer.bloomK then
          .ok (.error (.storage ("sst implausible bloom_k " ++ toString footer.bloomK)))
        else
          .ok (.ok ⟨data, footer, footerStart, by
            rw [not_or, not_lt] at h
            exact h.2⟩)

def SstView.parse (codec : FooterCodec) (data : ByteVec) : Checked (Res SstView) :=
  if data.bytes.length < 12 then .ok (.error (.storage "sst too small"))
  else do
    let magicOffset ← Checked.sub data.bytes.length sstTrailerLen
    let found ← Checked.slice data.bytes magicOffset (← u64.add magicOffset 4)
    if found ≠ sstMagic then .ok (.error (.storage "sst bad magic"))
    else do
      let ver ← readU32At u64 data.bytes (← u64.add magicOffset 4)
      if ver ≠ sstVersion then
        .ok (.error (.storage ("unsupported sst version " ++ toString ver)))
      else do
        let footerLenOffset ← Checked.sub magicOffset 4
        let footerLen ← readU32At u64 data.bytes footerLenOffset
        parseFooter codec data footerLenOffset footerLen

/-- The footer check of `parse` on the footer that starts at `footerStart`. -/
def SstView.ofFooter (data : ByteVec) (footerStart : Nat) (inside : footerStart ≤ data.bytes.length)
    (decoded : Except String SstFooter) : Res SstView :=
  match decoded with
  | .error e => .error (.storage ("parse footer: " ++ e))
  | .ok footer =>
    if footer.bloomK = 0 ∨ 32 < footer.bloomK then
      .error (.storage ("sst implausible bloom_k " ++ toString footer.bloomK))
    else .ok ⟨data, footer, footerStart, inside⟩

variable {data : ByteVec}

theorem parseFooter_of_le (codec : FooterCodec) {off len : Nat} (hlen : len ≤ off)
    (hoff : off ≤ data.bytes.length) :
    parseFooter codec data off len = .ok (SstView.ofFooter data (off - len) (by omega)
      (codec.fromSlice ((data.bytes.drop (off - len)).take len))) := by
  have hdata := data.length_lt
  have hadd : u64.add (off - len) len = .ok off := by
    rw [Word.add_of_lt (t := u64) (show off - len + len < 2 ^ 64 by omega), Nat.sub_add_cancel hlen]
  have hguard : ¬ (off ≠ off ∨ data.bytes.length < off - len) := by
    omega
  have hslice : Checked.slice data.bytes (off - len) off =
      .ok ((data.bytes.drop (off - len)).take len) := by
    rw [Checked.slice_of_le (by omega) hoff, Nat.sub_sub_self hlen]
  rw [parseFooter, if_neg (by omega)]
  simp only [hadd, Checked.ok_bind, dif_neg hguard, hslice, SstView.ofFooter]
  cases codec.fromSlice ((data.bytes.drop (off - len)).take len) with
  | error e => rfl
  | ok footer =>
    dsimp only
    split <;> rfl

theorem SstView.parse_of_le (codec : FooterCodec) (h : 12 ≤ data.bytes.length) :
    SstView.parse codec data =
      if (data.bytes.drop (data.bytes.length - 8)).take 4 ≠ sstMagic then
        .ok (.error (.storage "sst bad magic"))
      else if readU32 (data.bytes.drop (data.bytes.length - 4)) ≠ sstVersion then
        .ok (.error (.storage ("unsupported sst version " ++
          toString (readU32 (data.bytes.drop (data.bytes.length - 4))))))
      else parseFooter codec data (data.bytes.length - 12)
        (readU32 (data.bytes.drop (data.bytes.length - 12))) := by
  have hdata := data.length_lt
  have h64 : data.bytes.length < 2 ^ u64.bits := show data.bytes.length < 2 ^ 64 by omega
  have hsub : Checked.sub data.bytes.length sstTrailerLen = .ok (data.bytes.length - 8) :=
    Checked.sub_of_le (show 8 ≤ data.bytes.length by omega)
  have hadd : u64.add (data.bytes.length - 8) 4 = .ok (data.bytes.length - 4) := by
    rw [Word.add_of_lt (t := u64) (show data.bytes.length - 8 + 4 < 2 ^ 64 by omega)]
    congr 1
    omega
  have hslice : Checked.slice data.bytes (data.bytes.length - 8) (data.bytes.length - 4) =
      .ok ((data.bytes.drop (data.bytes.length - 8)).take 4) := by
    rw [Checked.slice_of_le (by omega) (by omega)]
    congr 2
    omega
  have hsub' : Checked.sub (data.bytes.length - 8) 4 = .ok (data.bytes.length - 12) :=
    Checked.sub_of_le (by omega)
  rw [SstView.parse, if_neg (by omega)]
  simp only [hsub, hadd, hslice, hsub', Checked.ok_bind,
    readU32At_of_le (show data.bytes.length - 4 + 4 ≤ data.bytes.length by omega) h64,
    readU32At_of_le (show data.bytes.length - 12 + 4 ≤ data.bytes.length by omega) h64]

theorem SstView.parse_of_tail (codec : FooterCodec) {blocks json : Bytes}
    (h : data.bytes = blocks ++ sstTail json) (hjson : json.length < 2 ^ 32) :
    SstView.parse codec data = .ok (SstView.ofFooter data blocks.length
      (by rw [h, List.length_append]; omega) (codec.fromSlice json)) := by
  have hlen : data.bytes.length = blocks.length + json.length + 12 := by
    rw [h]
    simp [sstTail, sstMagic]
    omega
  have h12 : data.bytes.drop (data.bytes.length - 12) =
      u32le json.length ++ (sstMagic ++ u32le sstVersion) := by
    rw [hlen, h]
    simp [sstTail]
  have h8 : data.bytes.drop (data.bytes.length - 8) = sstMagic ++ u32le sstVersion := by
    rw [show data.bytes.length - 8 = data.bytes.length - 12 + 4 by omega, ← List.drop_drop, h12]
    rfl
  have h4 : data.bytes.drop (data.bytes.length - 4) = u32le sstVersion := by
    rw [show data.bytes.length - 4 = data.bytes.length - 8 + 4 by omega, ← List.drop_drop, h8]
    rfl
  have hfooter : (data.bytes.drop blocks.length).take json.length = json := by
    rw [h, List.drop_left, sstTail, List.append_assoc, List.append_assoc, List.take_left]
  rw [SstView.parse_of_le codec (by omega), h8, h4, h12, if_neg (by decide), if_neg (by decide),
    readU32_u32le_append _ hjson, parseFooter_of_le codec (by omega) (by omega)]
  have hstart : data.bytes.length - 12 - json.length = blocks.length := by omega
  simp only [hstart, hfooter]

theorem SstView.parse_cases (codec : FooterCodec) (data : ByteVec) :
    (∃ e, SstView.parse codec data = .ok (.error e)) ∨
      ∃ blocks json, data.bytes = blocks ++ sstTail json ∧ json.length < 2 ^ 32 := by
  rcases Nat.lt_or_ge data.bytes.length 12 with hshort | h
  · left
    rw [SstView.parse, if_pos hshort]
    exact ⟨_, rfl⟩
  · rw [SstView.parse_of_le codec h]
    split
    · exact .inl ⟨_, rfl⟩
    · rename_i hmagic
      split
      · exact .inl ⟨_, rfl⟩
      · rename_i hversion
        rw [not_not] at hmagic hversion
        rcases Nat.lt_or_ge (data.bytes.length - 12)
            (readU32 (data.bytes.drop (data.bytes.length - 12))) with hlong | hle
        · left
          rw [parseFooter, if_pos hlong]
          exact ⟨_, rfl⟩
        · right
          have hlt := readU32_lt (data.bytes.drop (data.bytes.length - 12))
          generalize hread : readU32 (data.bytes.drop (data.bytes.length - 12)) = len at hle hlt
          have hlast : data.bytes.drop (data.bytes.length - 4) = u32le sstVersion := by
            rw [← hversion, u32le_readU32 (by rw [List.length_drop]; omega), List.take_of_length_le]
            rw [List.length_drop]
            omega
          have htail : data.bytes.drop (data.bytes.length - 12) =
              u32le len ++ sstMagic ++ u32le sstVersion := by
            rw [← hmagic, ← hlast, ← hread, u32le_readU32 (by rw [List.length_drop]; omega)]
            rw [show data.bytes.length - 8 = data.bytes.length - 12 + 4 by omega,
              show data.bytes.length - 4 = data.bytes.length - 12 + 4 + 4 by omega,
              ← List.drop_drop (i := 4) (j := data.bytes.length - 12 + 4),
              ← List.drop_drop (i := 4) (j := data.bytes.length - 12), List.append_assoc,
              List.take_append_drop, List.take_append_drop]
          refine ⟨data.bytes.take (data.bytes.length - 12 - len),
            (data.bytes.drop (data.bytes.length - 12 - len)).take len, ?_, ?_⟩
          · have hjson : ((data.bytes.drop (data.bytes.length - 12 - len)).take len).length = len := by
              rw [List.length_take, List.length_drop]
              omega
            have hsplit : (data.bytes.drop (data.bytes.length - 12 - len)).drop len =
                u32le len ++ sstMagic ++ u32le sstVersion := by
              rw [List.drop_drop, Nat.sub_add_cancel hle, htail]
            rw [sstTail, hjson, List.append_assoc, List.append_assoc, ← List.append_assoc (u32le len),
              ← hsplit, List.take_append_drop, List.take_append_drop]
          · rw [List.length_take]
            omega

theorem SstView.parse_returns (codec : FooterCodec) (data : ByteVec) :
    (SstView.parse codec data).Returns := by
  rcases SstView.parse_cases codec data with ⟨e, he⟩ | ⟨blocks, json, hdata, hjson⟩
  · exact ⟨_, he⟩
  · exact ⟨_, SstView.parse_of_tail codec hdata hjson⟩

/-! ## Reading -/

section Read

variable (crc32 : Bytes → UInt32)

/-- The probes of `may_contain`. -/
def probesAt (bits : Bytes) (m : Nat) (key : Key) : List Nat → Checked Bool
  | [] => .ok true
  | i :: is => do
    let bit ← Checked.rem (bloomHash crc32 key i) m
    if hasBit bits bit then probesAt bits m key is else .ok false

def SstView.mayContain (v : SstView) (key : Key) : Checked Bool :=
  if v.footer.index.isEmpty then .ok false
  else if v.footer.bloomM = 0 then .ok true
  -- `saturating_mul`
  else if min (v.footer.bloomBits.length * 8) (2 ^ 64 - 1) < v.footer.bloomM then .ok false
  else probesAt crc32 v.footer.bloomBits v.footer.bloomM key (List.range v.footer.bloomK)

def SstView.blockBytes (v : SstView) (b : BlockMeta) : Checked (Res Bytes) := do
  let stop ← u64.add b.offset b.len
  if v.footerOffset < stop then .ok (.error (.storage "block out of bounds"))
  else do
    let bytes ← Checked.slice v.data.bytes b.offset stop
    if crc32 bytes ≠ b.crc then
      .ok (.error (.storage ("block crc mismatch for " ++ b.minKey ++ ".." ++ b.maxKey ++
        ": expected " ++ toString b.crc ++ ", got " ++ toString (crc32 bytes))))
    else .ok (.ok bytes)

/-- One round of the record loop of `get_option`. -/
def findStep (key : Key) (bytes : Bytes) (pos : Nat) :
    Checked (Nat ⊕ Res (Option (Option Bytes))) := do
  match ← entryAt u64 bytes pos with
  | .truncated => .ok (.inr (.ok none))
  | .badKey => .ok (.inr (.error utf8Error))
  | .entry k v next => if k = key then .ok (.inr (.ok (some v))) else .ok (.inl next)

def findInBlockAt (key : Key) (bytes : Bytes) : Checked (Res (Option (Option Bytes))) :=
  Checked.loop (findStep key bytes) (bytes.length + 1) 0

/-- The index loop of `get_option`. -/
def SstView.findInBlocks (v : SstView) (key : Key) :
    List BlockMeta → Checked (Res (Option (Option Bytes)))
  | [] => .ok (.ok none)
  | b :: bs =>
    if key < b.minKey ∨ b.maxKey < key then v.findInBlocks key bs
    else do
      match ← v.blockBytes crc32 b with
      | .error e => .ok (.error e)
      | .ok bytes =>
        match ← findInBlockAt key bytes with
        | .error e => .ok (.error e)
        | .ok (some found) => .ok (.ok (some found))
        | .ok none => v.findInBlocks key bs

def SstView.getOption (v : SstView) (key : Key) : Checked (Res (Option (Option Bytes))) := do
  if ← v.mayContain crc32 key then v.findInBlocks crc32 key v.footer.index else .ok (.ok none)

def limitReached (limit : Option Nat) (n : Nat) : Bool :=
  match limit with
  | some lim => lim ≤ n
  | none => false

/-- One round of the record loop of `scan_with_tombstones`; the flag says that the limit ended
the scan. -/
def scanStep (start stop : Option Key) (limit : Option Nat) (bytes : Bytes)
    (s : List Op × Nat) : Checked ((List Op × Nat) ⊕ Res (List Op × Bool)) := do
  match ← entryAt u64 bytes s.2 with
  | .truncated => .ok (.inr (.ok (s.1, false)))
  | .badKey => .ok (.inr (.error utf8Error))
  | .entry key value next =>
    if inRange start stop key then
      let out := s.1 ++ [(key, value)]
      if limitReached limit out.length then .ok (.inr (.ok (out, true)))
      else .ok (.inl (out, next))
    else .ok (.inl (s.1, next))

/-- The index loop of `scan_with_tombstones`. -/
def SstView.scanBlocks (v : SstView) (start stop : Option Key) (limit : Option Nat) :
    List BlockMeta → List Op → Checked (Res (List Op))
  | [], out => .ok (.ok (match limit with
    | some lim => out.take lim
    | none => out))
  | b :: bs, out =>
    if overlaps start stop b.minKey b.maxKey then do
      match ← v.blockBytes crc32 b with
      | .error e => .ok (.error e)
      | .ok bytes =>
        match ← Checked.loop (scanStep start stop limit bytes) (bytes.length + 1) (out, 0) with
        | .error e => .ok (.error e)
        | .ok (out, true) => .ok (.ok out)
        | .ok (out, false) => v.scanBlocks start stop limit bs out
    else v.scanBlocks start stop limit bs out

def SstView.scanWithTombstones (v : SstView) (start stop : Option Key) (limit : Option Nat) :
    Checked (Res (List Op)) :=
  v.scanBlocks crc32 start stop limit v.footer.index []

/-- The block loop of `verify_file_crc`: the bytes given to the hasher. -/
def SstView.allBlocks (v : SstView) : List BlockMeta → Bytes → Checked (Res Bytes)
  | [], hashed => .ok (.ok hashed)
  | b :: bs, hashed => do
    match ← v.blockBytes crc32 b with
    | .error e => .ok (.error e)
    | .ok bytes => v.allBlocks bs (hashed ++ bytes)

def SstView.verifyFileCrc (v : SstView) : Checked (Res Unit) := do
  match ← v.allBlocks crc32 v.footer.index [] with
  | .error e => .ok (.error e)
  | .ok hashed =>
    if (crc32 hashed).toNat ≠ v.footer.fileCrc then
      .ok (.error (.storage ("file crc mismatch: expected " ++ toString v.footer.fileCrc ++
        ", got " ++ toString (crc32 hashed))))
    else .ok (.ok ())

end Read

/-! ## Agreement with the file model -/

section Agree

variable {crc32 : Bytes → UInt32}

theorem SstView.length_file_data (v : SstView) : v.file.data.length = v.footerOffset := by
  rw [SstView.file, List.length_take]
  exact Nat.min_eq_left v.inside

variable {b : BlockMeta}

theorem SstView.blockBytes_of_lt {v : SstView} (h : b.offset + b.len < 2 ^ 64) :
    v.blockBytes crc32 b = .ok (v.file.blockBytes crc32 b) := by
  rw [SstView.blockBytes, Word.add_of_lt (t := u64) h, Checked.ok_bind]
  simp only [SstFile.blockBytes, v.length_file_data]
  by_cases hout : v.footerOffset < b.offset + b.len
  · rw [if_pos hout, if_pos hout]
  · have hinside := v.inside
    have hbytes : (v.file.data.drop b.offset).take b.len =
        (v.data.bytes.drop b.offset).take b.len := by
      rw [SstView.file, List.drop_take, List.take_take, Nat.min_eq_left (by omega)]
    rw [if_neg hout, if_neg hout, Checked.slice_of_le (by omega) (by omega), Checked.ok_bind,
      Nat.add_sub_cancel_left]
    simp only [hbytes]
    split <;> rfl

theorem SstView.blockBytes_overflow {v : SstView} (h : 2 ^ 64 ≤ b.offset + b.len) :
    v.blockBytes crc32 b = .error .overflow := by
  rw [SstView.blockBytes, Word.add_of_le (t := u64) rfl h, Checked.error_bind]

variable {bytes : Bytes}

/-- A block is a part of a `Vec`. -/
theorem SstFile.blockBytes_length {f : SstFile} (h : f.blockBytes crc32 b = .ok bytes) :
    bytes.length ≤ f.data.length := by
  unfold SstFile.blockBytes at h
  split at h
  · cases h
  · dsimp only at h
    split at h
    · cases h
    · cases h
      rw [List.length_take, List.length_drop]
      omega

theorem SstView.file_length_lt (v : SstView) : v.file.data.length < 2 ^ 63 := by
  rw [v.length_file_data]
  exact Nat.lt_of_le_of_lt v.inside v.data.length_lt

variable {pos : Nat}

theorem entryAt_u64 (hlen : bytes.length < 2 ^ 63) (hpos : pos ≤ bytes.length) :
    entryAt u64 bytes pos = .ok ((takeRecord (bytes.drop pos)).at bytes.length) :=
  entryAt_of_fit hpos (show bytes.length + 4 < 2 ^ 64 by omega)
    (lengthsFit_of_wide (show pos + 2 ^ 34 ≤ 2 ^ 64 by omega) _)

theorem findStep_eq (key : Key) (hlen : bytes.length < 2 ^ 63) (hpos : pos ≤ bytes.length) :
    findStep key bytes pos = .ok (match takeRecord (bytes.drop pos) with
      | .truncated => .inr (.ok none)
      | .badKey => .inr (.error utf8Error)
      | .entry k v rest =>
        if k = key then .inr (.ok (some v)) else .inl (bytes.length - rest.length)) := by
  rw [findStep, entryAt_u64 hlen hpos]
  cases takeRecord (bytes.drop pos) with
  | truncated | badKey => rfl
  | entry k v rest =>
    dsimp only [RecordHead.at, Checked.ok_bind]
    split <;> rfl

/-- The record loop of `get_option` from a position on. -/
theorem loop_findStep {key : Key} (hlen : bytes.length < 2 ^ 63) {n fuel : Nat}
    (hpos : pos ≤ bytes.length) (hn : bytes.length - pos ≤ n) (hf : bytes.length - pos < fuel) :
    Checked.loop (findStep key bytes) fuel pos = .ok (findInBlock key n (bytes.drop pos)) := by
  induction n generalizing fuel pos with
  | zero =>
    obtain ⟨fuel, rfl⟩ := Nat.exists_eq_add_of_lt hf
    have hnil : bytes.drop pos = [] := List.drop_eq_nil_of_le (by omega)
    refine Checked.loop_done ?_
    rw [findStep, entryAt_u64 hlen hpos, hnil]
    rfl
  | succ n ih =>
    obtain ⟨fuel, rfl⟩ : ∃ k, fuel = k + 1 := ⟨fuel - 1, by omega⟩
    have hstep := findStep_eq key hlen hpos
    rw [findInBlock]
    cases h : takeRecord (bytes.drop pos) with
    | truncated =>
      rw [h] at hstep
      exact Checked.loop_done hstep
    | badKey =>
      rw [h] at hstep
      exact Checked.loop_done hstep
    | entry k v rest =>
      obtain ⟨hdrop, hlt⟩ := drop_next h
      rw [h] at hstep
      dsimp only at hstep ⊢
      by_cases hk : k = key
      · rw [if_pos hk] at hstep ⊢
        exact Checked.loop_done hstep
      · rw [if_neg hk] at hstep ⊢
        have hrest := @ih (bytes.length - rest.length) fuel (by omega) (by omega) (by omega)
        rw [hdrop] at hrest
        rw [Checked.loop_next hstep, hrest]

theorem findInBlockAt_eq {key : Key} (hlen : bytes.length < 2 ^ 63) :
    findInBlockAt key bytes = .ok (findInBlock key bytes.length bytes) :=
  loop_findStep hlen (Nat.zero_le _) (Nat.le_refl _) (Nat.lt_succ_self _)

variable {start stop : Option Key}

theorem scanStep_eq (out : List Op) (hlen : bytes.length < 2 ^ 63) (hpos : pos ≤ bytes.length) :
    scanStep start stop none bytes (out, pos) = .ok (match takeRecord (bytes.drop pos) with
      | .truncated => .inr (.ok (out, false))
      | .badKey => .inr (.error utf8Error)
      | .entry k v rest =>
        .inl (if inRange start stop k then out ++ [(k, v)] else out, bytes.length - rest.length)) := by
  rw [scanStep, entryAt_u64 hlen hpos]
  cases takeRecord (bytes.drop pos) with
  | truncated | badKey => rfl
  | entry k v rest =>
    dsimp only [RecordHead.at, Checked.ok_bind, limitReached]
    split <;> rfl

/-- The record loop of an unlimited scan from a position on. -/
theorem loop_scanStep (hlen : bytes.length < 2 ^ 63) {n fuel : Nat} {out : List Op}
    (hpos : pos ≤ bytes.length) (hn : bytes.length - pos ≤ n) (hf : bytes.length - pos < fuel) :
    Checked.loop (scanStep start stop none bytes) fuel (out, pos) =
      .ok ((scanBlock start stop n (bytes.drop pos)).map fun rows => (out ++ rows, false)) := by
  induction n generalizing fuel pos out with
  | zero =>
    obtain ⟨fuel, rfl⟩ := Nat.exists_eq_add_of_lt hf
    have hnil : bytes.drop pos = [] := List.drop_eq_nil_of_le (by omega)
    refine (Checked.loop_done (b := .ok (out, false)) ?_).trans ?_
    · rw [scanStep, entryAt_u64 hlen hpos, hnil]
      rfl
    · rw [scanBlock, Except.map, List.append_nil]
  | succ n ih =>
    obtain ⟨fuel, rfl⟩ : ∃ k, fuel = k + 1 := ⟨fuel - 1, by omega⟩
    have hstep := @scanStep_eq bytes pos start stop out hlen hpos
    rw [scanBlock]
    cases h : takeRecord (bytes.drop pos) with
    | truncated =>
      rw [h] at hstep
      rw [Checked.loop_done hstep, Except.map, List.append_nil]
    | badKey =>
      rw [h] at hstep
      exact Checked.loop_done hstep
    | entry k v rest =>
      obtain ⟨hdrop, hlt⟩ := drop_next h
      rw [h] at hstep
      have hrest := fun out => @ih (bytes.length - rest.length) fuel out (by omega) (by omega)
        (by omega)
      rw [hdrop] at hrest
      rw [Checked.loop_next hstep, hrest]
      dsimp only
      cases scanBlock start stop n rest with
      | error e => rfl
      | ok rows =>
        by_cases hk : inRange start stop k = true
        · simp [Except.map, hk]
        · simp [Except.map, hk]

theorem scanBlockAt_eq (hlen : bytes.length < 2 ^ 63) (out : List Op) :
    Checked.loop (scanStep start stop none bytes) (bytes.length + 1) (out, 0) =
      .ok ((scanBlock start stop bytes.length bytes).map fun rows => (out ++ rows, false)) :=
  loop_scanStep hlen (Nat.zero_le _) (Nat.le_refl _) (Nat.lt_succ_self _)

end Agree

end OxKv
