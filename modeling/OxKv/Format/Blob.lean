import OxKv.Storage

/-!
Blob overflow: a value that does not fit a block is stored as an object of its
own and replaced by a tagged pointer. The external crates the formats rest on
(CRC-32, SHA-256, JSON) are the fields of `Crates`.
-/

namespace OxKv

structure BlobPointer where
  blob : ObjectPath
  len : Nat
  crc : UInt32
  deriving DecidableEq

/-- `BLOB_POINTER_TAG`. -/
def blobPointerTag : Bytes := 0 :: keyBytes "oxkv-blob-v1:"

/-- The code outside this repository that the stored formats rest on. -/
structure Crates where
  /-- `crc32fast::hash` -/
  crc32 : Bytes → UInt32
  /-- `blob_hash`: hex SHA-256 -/
  blobHash : Bytes → String
  /-- `serde_json::to_vec` on pointers -/
  pointerJson : BlobPointer → Bytes
  /-- `serde_json::from_slice` on pointers -/
  pointerOfJson : Bytes → Option BlobPointer
  /-- the length of a serialized footer -/
  footerLen : SstFooter → Nat
  pointer_roundtrip : ∀ p, pointerOfJson (pointerJson p) = some p
  pointer_length : ∀ p, (blobPointerTag ++ pointerJson p).length ≠ tombstoneVlen

/-- The length of the file's bytes: blocks, footer, footer length and trailer. -/
def SstFile.size (cr : Crates) (f : SstFile) : Nat :=
  f.data.length + cr.footerLen f.footer + 12

def isOverflow (key : Key) (value : Bytes) (blockSize : Nat) : Bool :=
  decide (blockSize < (keyBytes key).length + value.length + 8)

def encodeBlobPointer (cr : Crates) (p : BlobPointer) : Bytes := blobPointerTag ++ cr.pointerJson p

def tryDecodeBlobPointer (cr : Crates) (value : Bytes) : Option BlobPointer :=
  if blobPointerTag.isPrefixOf value then cr.pointerOfJson (value.drop blobPointerTag.length)
  else none

theorem tryDecode_encode (cr : Crates) (p : BlobPointer) :
    tryDecodeBlobPointer cr (encodeBlobPointer cr p) = some p := by
  have hpre : blobPointerTag.isPrefixOf (blobPointerTag ++ cr.pointerJson p) = true := by
    rw [List.isPrefixOf_iff_prefix]
    exact List.prefix_append _ _
  unfold tryDecodeBlobPointer encodeBlobPointer
  rw [if_pos hpre, List.drop_left' rfl, cr.pointer_roundtrip]

end OxKv
