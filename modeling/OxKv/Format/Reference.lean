import OxKv.Format.Blob

/-!
Crates to run the model with on small inputs: CRC-32 and the length of a JSON
footer whose keys need no escapes are computed. The pointer format writes
`samplePointer` as `serde_json` does and every other pointer in a code of its own,
and blobs are named by their bytes; both are enough for the laws of `Crates`, and
a run that spills no value does not look at them.
-/

namespace OxKv

/-! ## CRC-32 -/

/-- One bit of the reflected polynomial `0xEDB88320`. -/
def crcBit (crc : UInt32) : UInt32 :=
  if crc &&& 1 = 1 then (crc >>> 1) ^^^ 0xEDB88320 else crc >>> 1

def crcByte (crc : UInt32) (b : UInt8) : UInt32 :=
  crcBit (crcBit (crcBit (crcBit (crcBit (crcBit (crcBit (crcBit (crc ^^^ b.toUInt32))))))))

/-- `crc32fast::hash`. -/
def crc32 (bytes : Bytes) : UInt32 := bytes.foldl crcByte 0xFFFFFFFF ^^^ 0xFFFFFFFF

example : crc32 (keyBytes "123456789") = 0xCBF43926 := by decide +kernel

/-! ## Footers -/

def decimals (n : Nat) : Nat := (Nat.toDigits 10 n).length

/-- The items of a JSON array, with the commas between them and the brackets. -/
def jsonArrayLen (items : List Nat) : Nat := items.sum + (items.length - 1) + 2

def BlockMeta.jsonLen (b : BlockMeta) : Nat :=
  "\x7b\"min_key\":\"\",\"max_key\":\"\",\"offset\":,\"len\":,\"crc\":\x7d".length +
    (keyBytes b.minKey).length + (keyBytes b.maxKey).length + decimals b.offset +
    decimals b.len + decimals b.crc.toNat

/-- The length of the footer as `serde_json` writes it. -/
def SstFooter.jsonLen (f : SstFooter) : Nat :=
  "\x7b\"index\":,\"bloom_bits\":,\"bloom_k\":,\"bloom_m\":,\"file_crc\":\x7d".length +
    jsonArrayLen (f.index.map BlockMeta.jsonLen) +
    jsonArrayLen (f.bloomBits.map fun b => decimals b.toNat) +
    decimals f.bloomK + decimals f.bloomM + decimals f.fileCrc

/-! ## Pointers -/

def ObjectPath.code : ObjectPath → List Nat
  | .ownership => [0]
  | .manifest => [1]
  | .canary => [2]
  | .wal epoch seq => [3, epoch, seq]
  | .sst epoch level num => [4, epoch, level, num]
  | .blob epoch hash => 5 :: epoch :: hash.toList.map Char.toNat

def ObjectPath.ofCode : List Nat → Option ObjectPath
  | [0] => some .ownership
  | [1] => some .manifest
  | [2] => some .canary
  | [3, epoch, seq] => some (.wal epoch seq)
  | [4, epoch, level, num] => some (.sst epoch level num)
  | 5 :: epoch :: hash => some (.blob epoch (String.ofList (hash.map Char.ofNat)))
  | _ => none

theorem ObjectPath.ofCode_code (p : ObjectPath) : ObjectPath.ofCode p.code = some p := by
  cases p with
  | blob epoch hash => simp [code, ofCode, Function.comp_def]
  | _ => rfl

def BlobPointer.ofCode : List Nat → Option BlobPointer
  | len :: crc :: path => (ObjectPath.ofCode path).map fun p => ⟨p, len, UInt32.ofNat crc⟩
  | _ => none

def samplePointer : BlobPointer := ⟨.blob 1 "00", 0, 0⟩

def samplePointerJson : Bytes :=
  keyBytes "\x7b\"blob\":\"e000001/blob/00\",\"len\":0,\"crc\":0\x7d"

/-- Zeros, as many as the code of the pointer says; JSON never starts with one. -/
def pointerJson (p : BlobPointer) : Bytes :=
  if p = samplePointer then samplePointerJson
  else List.replicate (2 * Encodable.encode (p.len :: p.crc.toNat :: p.blob.code) + 2) 0

def pointerOfJson (b : Bytes) : Option BlobPointer :=
  if b = samplePointerJson then some samplePointer
  else (Encodable.decode ((b.length - 2) / 2) : Option (List Nat)).bind BlobPointer.ofCode

theorem pointerOfJson_pointerJson (p : BlobPointer) : pointerOfJson (pointerJson p) = some p := by
  unfold pointerOfJson pointerJson
  by_cases hp : p = samplePointer
  · simp [hp]
  · have hne : List.replicate (2 * Encodable.encode (p.len :: p.crc.toNat :: p.blob.code) + 2)
        (0 : UInt8) ≠ samplePointerJson := by
      rw [List.replicate_succ]
      exact fun heq => absurd (List.cons.inj heq).1 (by decide)
    rw [if_neg hp, if_neg hne]
    have hhalf : ∀ n : Nat, (2 * n + 2 - 2) / 2 = n := by omega
    rw [List.length_replicate, hhalf, Encodable.encodek]
    simp [BlobPointer.ofCode, ObjectPath.ofCode_code]

/-- One character a byte: different values have different names. -/
def blobName (b : Bytes) : String := String.ofList (b.map fun x => Char.ofNat x.toNat)

def referenceCrates : Crates where
  crc32 := crc32
  blobHash := blobName
  pointerJson := pointerJson
  pointerOfJson := pointerOfJson
  footerLen := SstFooter.jsonLen
  pointer_roundtrip := pointerOfJson_pointerJson
  pointer_length p := by
    unfold pointerJson
    split
    · decide
    · have htag : blobPointerTag.length = 14 := by decide
      rw [List.length_append, List.length_replicate, htag]
      unfold tombstoneVlen
      omega

end OxKv
