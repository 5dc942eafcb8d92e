import OxKv.Lib.CompactJson
import OxKv.Format.SstView

/-!
Footers as JSON.

`SerdeJson` is what the SST format needs of `serde_json`: a footer whose numbers fit the fields
of the source is written and read back, and the text of an object has no zero byte and ends with
a brace. `footerJson` writes footers as `serde_json` does and reads what it wrote.
-/

namespace OxKv

open CompactJson

structure SstFooter.Fits (f : SstFooter) : Prop where
  index : ∀ b ∈ f.index, b.offset < 2 ^ 64 ∧ b.len < 2 ^ 64
  bloomK : f.bloomK < 2 ^ 32
  bloomM : f.bloomM < 2 ^ 64
  fileCrc : f.fileCrc < 2 ^ 64

/-- `serde_json::to_vec` and `serde_json::from_slice` on footers. -/
structure SerdeJson extends FooterCodec where
  round_trip : ∀ f : SstFooter, f.Fits → ∃ json, toVec f = .ok json ∧ fromSlice json = .ok f
  no_zero : ∀ f json, toVec f = .ok json → ∀ b ∈ json, b ≠ 0
  ends : ∀ f json, toVec f = .ok json → json.getLast? = some 0x7d

/-! ## The texts -/

def BlockMeta.json (b : BlockMeta) : Bytes :=
  0x7b :: (memberJson (keyBytes "min_key") 0x2c (stringJson (keyBytes b.minKey)) ++
    (memberJson (keyBytes "max_key") 0x2c (stringJson (keyBytes b.maxKey)) ++
    (memberJson (keyBytes "offset") 0x2c (natJson b.offset) ++
    (memberJson (keyBytes "len") 0x2c (natJson b.len) ++
    memberJson (keyBytes "crc") 0x7d (natJson b.crc.toNat)))))

def byteJson (b : UInt8) : Bytes := natJson b.toNat

def SstFooter.json (f : SstFooter) : Bytes :=
  0x7b :: (memberJson (keyBytes "index") 0x2c (listJson BlockMeta.json f.index) ++
    (memberJson (keyBytes "bloom_bits") 0x2c (listJson byteJson f.bloomBits) ++
    (memberJson (keyBytes "bloom_k") 0x2c (natJson f.bloomK) ++
    (memberJson (keyBytes "bloom_m") 0x2c (natJson f.bloomM) ++
    memberJson (keyBytes "file_crc") 0x7d (natJson f.fileCrc)))))

def readKey : Reader Key := fun bytes => do
  let (s, rest) ← readString bytes
  let key ← keyOfBytes s
  some (key, rest)

def readByte : Reader UInt8 := fun bytes =>
  (readNat (2 ^ 8) bytes).map fun (n, rest) => (UInt8.ofNat n, rest)

def readBlockMeta : Reader BlockMeta := fun bytes => do
  let bytes ← lit [0x7b] bytes
  let (minKey, bytes) ← readMember (keyBytes "min_key") 0x2c readKey bytes
  let (maxKey, bytes) ← readMember (keyBytes "max_key") 0x2c readKey bytes
  let (offset, bytes) ← readMember (keyBytes "offset") 0x2c (readNat (2 ^ 64)) bytes
  let (len, bytes) ← readMember (keyBytes "len") 0x2c (readNat (2 ^ 64)) bytes
  let (crc, bytes) ← readMember (keyBytes "crc") 0x7d (readNat (2 ^ 32)) bytes
  some (⟨minKey, maxKey, offset, len, UInt32.ofNat crc⟩, bytes)

def readFooter : Reader SstFooter := fun bytes => do
  let bytes ← lit [0x7b] bytes
  let (index, bytes) ← readMember (keyBytes "index") 0x2c (readList readBlockMeta) bytes
  let (bloomBits, bytes) ← readMember (keyBytes "bloom_bits") 0x2c (readList readByte) bytes
  let (bloomK, bytes) ← readMember (keyBytes "bloom_k") 0x2c (readNat (2 ^ 32)) bytes
  let (bloomM, bytes) ← readMember (keyBytes "bloom_m") 0x2c (readNat (2 ^ 64)) bytes
  let (fileCrc, bytes) ← readMember (keyBytes "file_crc") 0x7d (readNat (2 ^ 64)) bytes
  some (⟨index, bloomBits, bloomK, bloomM, fileCrc⟩, bytes)

/-! ## Reading back -/

theorem reads_key : Reads (fun _ => True) readKey fun k => stringJson (keyBytes k) := by
  intro k _ c rest _
  simp only [readKey, readString_stringJson, Option.bind_eq_bind, Option.bind_some,
    keyOfBytes_keyBytes]

theorem reads_byte : Reads (fun _ => True) readByte byteJson := by
  intro b _ c rest hc
  simp only [readByte, byteJson, reads_nat (2 ^ 8) b.toNat b.toNat_lt c rest hc, Option.map_some,
    UInt8.ofNat_toNat]

theorem comma_no_digit : isDigit 0x2c = false := by decide

theorem brace_no_digit : isDigit 0x7d = false := by decide

theorem lit_brace (bytes : Bytes) : lit [0x7b] (0x7b :: bytes) = some bytes :=
  lit_append [0x7b] bytes

theorem reads_blockMeta :
    Reads (fun b : BlockMeta => b.offset < 2 ^ 64 ∧ b.len < 2 ^ 64) readBlockMeta BlockMeta.json := by
  rintro ⟨minKey, maxKey, offset, len, crc⟩ ⟨hoffset, hlen⟩ c rest _
  simp only [readBlockMeta, BlockMeta.json, List.cons_append, List.append_assoc, lit_brace,
    Option.bind_eq_bind, Option.bind_some, reads_key.member trivial _ comma_no_digit,
    (reads_nat (2 ^ 64)).member hoffset _ comma_no_digit,
    (reads_nat (2 ^ 64)).member hlen _ comma_no_digit,
    (reads_nat (2 ^ 32)).member crc.toNat_lt _ brace_no_digit, UInt32.ofNat_toNat]

theorem reads_blockMetas :
    Reads (∀ b ∈ ·, b.offset < 2 ^ 64 ∧ b.len < 2 ^ 64) (readList readBlockMeta)
      (listJson BlockMeta.json) :=
  reads_blockMeta.list fun _ => ⟨by simp [BlockMeta.json], nofun⟩

theorem reads_bytes : Reads (∀ b ∈ ·, True) (readList readByte) (listJson byteJson) := by
  refine reads_byte.list fun b => ?_
  obtain ⟨d, hd, rest, hcons⟩ := natJson_cons b.toNat
  rw [byteJson, hcons]
  refine ⟨fun heq => ?_, nofun⟩
  have htoNat := toNat_digit hd
  rw [Option.some.inj heq, show (0x5d : UInt8).toNat = 93 from rfl] at htoNat
  omega

theorem readFooter_json {f : SstFooter} (h : f.Fits) : readFooter f.json = some (f, []) := by
  have hlast := (reads_nat (2 ^ 64)).member h.fileCrc (keyBytes "file_crc") brace_no_digit []
  rw [List.append_nil] at hlast
  simp only [readFooter, SstFooter.json, lit_brace, Option.bind_eq_bind, Option.bind_some,
    reads_blockMetas.member h.index _ comma_no_digit,
    reads_bytes.member (fun _ _ => trivial) _ comma_no_digit,
    (reads_nat (2 ^ 32)).member h.bloomK _ comma_no_digit,
    (reads_nat (2 ^ 64)).member h.bloomM _ comma_no_digit, hlast]

/-! ## The bytes of the texts -/

theorem BlockMeta.json_ne_zero (b : BlockMeta) : ∀ c ∈ b.json, c ≠ 0 := by
  intro c hc
  rw [BlockMeta.json, List.mem_cons] at hc
  rcases hc with rfl | hc
  · decide
  · simp only [List.mem_append] at hc
    rcases hc with hc | hc | hc | hc | hc
    iterate 2
      exact memberJson_ne_zero (by decide +kernel) (by decide) (fun _ => stringJson_ne_zero) c hc
    all_goals
      exact memberJson_ne_zero (by decide +kernel) (by decide) (fun _ => natJson_ne_zero) c hc

theorem SstFooter.json_ne_zero (f : SstFooter) : ∀ c ∈ f.json, c ≠ 0 := by
  intro c hc
  rw [SstFooter.json, List.mem_cons] at hc
  rcases hc with rfl | hc
  · decide
  · simp only [List.mem_append] at hc
    rcases hc with hc | hc | hc | hc | hc
    · exact memberJson_ne_zero (by decide +kernel) (by decide)
        (fun _ => listJson_ne_zero BlockMeta.json_ne_zero) c hc
    · exact memberJson_ne_zero (by decide +kernel) (by decide)
        (fun _ => listJson_ne_zero fun _ _ => natJson_ne_zero) c hc
    all_goals
      exact memberJson_ne_zero (by decide +kernel) (by decide) (fun _ => natJson_ne_zero) c hc

theorem SstFooter.json_getLast? (f : SstFooter) : f.json.getLast? = some 0x7d := by
  simp [SstFooter.json, memberJson, List.getLast?_append, List.getLast?_cons]

/-- The text of a serde error is not looked at. -/
def footerJson : SerdeJson where
  toVec f := .ok f.json
  fromSlice bytes :=
    match readFooter bytes with
    | some (f, []) => .ok f
    | _ => .error "invalid footer"
  round_trip f h := ⟨f.json, rfl, by rw [readFooter_json h]⟩
  no_zero f _ h := by
    cases h
    exact f.json_ne_zero
  ends f _ h := by
    cases h
    exact f.json_getLast?

end OxKv
