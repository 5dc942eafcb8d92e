import OxKv.Lib.SortedMap
import OxKv.Format.Record

/-!
SST files: sorted records cut into blocks, with a bloom filter, a block index
and checksums in the footer. A file is modelled as its block area together with
the decoded footer; CRC-32 is a parameter.
-/

namespace OxKv

/-- A MemTable snapshot or the entries of an SST: `none` is a tombstone. -/
abbrev MemMap := SortedMap Key (Option Bytes)

structure BlockMeta where
  minKey : Key
  maxKey : Key
  offset : Nat
  len : Nat
  crc : UInt32
  deriving DecidableEq

structure SstFooter where
  index : List BlockMeta
  bloomBits : Bytes
  bloomK : Nat
  bloomM : Nat
  fileCrc : Nat
  deriving DecidableEq

structure SstFile where
  data : Bytes
  footer : SstFooter
  deriving DecidableEq

/-! ## Bloom filter -/

section Bloom

variable (crc32 : Bytes → UInt32)

def bloomHash (item : Key) (seed : Nat) : Nat := (crc32 (keyBytes item ++ u32le seed)).toNat

def setBit (bits : Bytes) (bit : Nat) : Bytes :=
  bits.modify (bit / 8) fun b => UInt8.ofNat (b.toNat ||| 2 ^ (bit % 8))

def hasBit (bits : Bytes) (bit : Nat) : Bool :=
  match bits[bit / 8]? with
  | some b => b.toNat.testBit (bit % 8)
  | none => false

/-- `Bloom::set` with `k = 3`. -/
def bloomSet (m : Nat) (bits : Bytes) (key : Key) : Bytes :=
  [0, 1, 2].foldl (fun bits i => setBit bits (bloomHash crc32 key i % m)) bits

def bloomOf (keys : List Key) : Bytes × Nat :=
  let m := max keys.length 1 * 10
  (keys.foldl (bloomSet crc32 m) (List.replicate ((m + 7) / 8) 0), m)

def SstFile.mayContain (f : SstFile) (key : Key) : Bool :=
  if f.footer.index.isEmpty then false
  else if f.footer.bloomM = 0 then true
  else if f.footer.bloomBits.length * 8 < f.footer.bloomM then false
  else (List.range f.footer.bloomK).all fun i =>
    hasBit f.footer.bloomBits (bloomHash crc32 key i % f.footer.bloomM)

end Bloom

/-! ## Builder -/

/-- The record of one entry, with `build_sst`'s length checks. -/
def encodeEntry (op : Op) : Res Bytes :=
  if 2 ^ 32 ≤ (keyBytes op.1).length then
    .error (.serialization ("key too long: " ++ tryFromIntText))
  else if 2 ^ 32 ≤ (op.2.getD []).length then
    .error (.serialization ("value too long: " ++ tryFromIntText))
  else .ok (recordBytes op)

/-- The loop state of `build_sst`. -/
structure SstBuild where
  blocks : List Bytes
  index : List BlockMeta
  curBlock : Bytes
  curMin : Option Key
  curMax : Option Key
  offset : Nat

section Build

variable (crc32 : Bytes → UInt32)

def SstBuild.start : SstBuild := ⟨[], [], [], none, none, 0⟩

def SstBuild.cut (b : SstBuild) : SstBuild :=
  { b with
    blocks := b.blocks ++ [b.curBlock]
    index := b.index ++ [⟨b.curMin.getD "", b.curMax.getD "", b.offset, b.curBlock.length,
      crc32 b.curBlock⟩]
    offset := b.offset + b.curBlock.length
    curBlock := []
    curMin := none }

/-- One round of the loop: cut the block when the record does not fit, then
append the record. -/
def SstBuild.push (blockSize : Nat) (b : SstBuild) (op : Op) : Res SstBuild :=
  let recLen := 4 + (keyBytes op.1).length + 4 + (op.2.getD []).length
  let b := if b.curBlock ≠ [] ∧ blockSize < b.curBlock.length + recLen then b.cut crc32 else b
  match encodeEntry op with
  | .error e => .error e
  | .ok bytes => .ok { b with
      curBlock := b.curBlock ++ bytes
      curMin := b.curMin.or (some op.1)
      curMax := some op.1 }

def SstBuild.pushAll (blockSize : Nat) : SstBuild → List Op → Res SstBuild
  | b, [] => .ok b
  | b, op :: ops =>
    match b.push crc32 blockSize op with
    | .error e => .error e
    | .ok b => b.pushAll blockSize ops

def buildSst (entries : MemMap) (blockSize : Nat) : Res SstFile :=
  match SstBuild.start.pushAll crc32 (max blockSize 64) entries.toList with
  | .error e => .error e
  | .ok b =>
    let b := if b.curBlock ≠ [] then b.cut crc32 else b
    let bloom := bloomOf crc32 entries.keys
    .ok {
      data := b.blocks.flatten
      footer := {
        index := b.index
        bloomBits := bloom.1
        bloomK := 3
        bloomM := bloom.2
        fileCrc := (crc32 b.blocks.flatten).toNat } }

end Build

/-! ## Reader -/

/-- The footer check of `SstFile::parse`. -/
def SstFile.parse (f : SstFile) : Res SstFile :=
  if f.footer.bloomK = 0 ∨ 32 < f.footer.bloomK then
    .error (.storage ("sst implausible bloom_k " ++ toString f.footer.bloomK))
  else .ok f

section Read

variable (crc32 : Bytes → UInt32)

def SstFile.blockBytes (f : SstFile) (b : BlockMeta) : Res Bytes :=
  if f.data.length < b.offset + b.len then .error (.storage "block out of bounds")
  else
    let bytes := (f.data.drop b.offset).take b.len
    if crc32 bytes ≠ b.crc then
      .error (.storage ("block crc mismatch for " ++ b.minKey ++ ".." ++ b.maxKey ++
        ": expected " ++ toString b.crc ++ ", got " ++ toString (crc32 bytes)))
    else .ok bytes

def utf8Error : StoreError := .storage "utf8: invalid utf-8 sequence"

/-- The record loop of `get_option` inside one block. -/
def findInBlock (key : Key) : Nat → Bytes → Res (Option (Option Bytes))
  | 0, _ => .ok none
  | fuel + 1, bytes =>
    match takeRecord bytes with
    | .truncated => .ok none
    | .badKey => .error utf8Error
    | .entry k v rest => if k = key then .ok (some v) else findInBlock key fuel rest

/-- The index loop of `get_option`. -/
def SstFile.findInBlocks (f : SstFile) (key : Key) : List BlockMeta → Res (Option (Option Bytes))
  | [] => .ok none
  | b :: bs =>
    if key < b.minKey ∨ b.maxKey < key then f.findInBlocks key bs
    else
      match f.blockBytes crc32 b with
      | .error e => .error e
      | .ok bytes =>
        match findInBlock key bytes.length bytes with
        | .error e => .error e
        | .ok (some v) => .ok (some v)
        | .ok none => f.findInBlocks key bs

/-- `get_option`: value, tombstone or not in this file. -/
def SstFile.getOption (f : SstFile) (key : Key) : Res (Option (Option Bytes)) :=
  if f.mayContain crc32 key then f.findInBlocks crc32 key f.footer.index else .ok none

/-- `in_range`: both bounds inclusive. -/
def inRange (start stop : Option Key) (key : Key) : Bool :=
  (match start with | some s => decide (s ≤ key) | none => true) &&
  (match stop with | some e => decide (key ≤ e) | none => true)

/-- `overlaps` for a block or file with the given extreme keys. -/
def overlaps (start stop : Option Key) (minKey maxKey : Key) : Bool :=
  (match start with | some s => decide (s ≤ maxKey) | none => true) &&
  (match stop with | some e => decide (minKey ≤ e) | none => true)

/-- The items one block contributes to a scan; an invalid key is an error item
that ends the scan. -/
def blockItems (start stop : Option Key) : Nat → Bytes → List (Res Op)
  | 0, _ => []
  | fuel + 1, bytes =>
    match takeRecord bytes with
    | .truncated => []
    | .badKey => [.error utf8Error]
    | .entry k v rest =>
      if inRange start stop k then .ok (k, v) :: blockItems start stop fuel rest
      else blockItems start stop fuel rest

def itemFails : Res Op → Bool
  | .error _ => true
  | .ok _ => false

/-- The items of the lazy scan from a position of the block index on. -/
def SstFile.scanIterFrom (f : SstFile) (start stop : Option Key) : List BlockMeta → List (Res Op)
  | [] => []
  | b :: bs =>
    if overlaps start stop b.minKey b.maxKey then
      match f.blockBytes crc32 b with
      | .error e => [.error e]
      | .ok bytes =>
        let items := blockItems start stop bytes.length bytes
        if items.any itemFails then items
        else items ++ f.scanIterFrom start stop bs
    else f.scanIterFrom start stop bs

/-- `scan_iter`: the items the lazy scan yields when it is pulled to its end. -/
def SstFile.scanIter (f : SstFile) (start stop : Option Key) : List (Res Op) :=
  f.scanIterFrom crc32 start stop f.footer.index

/-- The record loop of `scan_with_tombstones` inside one block. -/
def scanBlock (start stop : Option Key) : Nat → Bytes → Res (List Op)
  | 0, _ => .ok []
  | fuel + 1, bytes =>
    match takeRecord bytes with
    | .truncated => .ok []
    | .badKey => .error utf8Error
    | .entry k v rest =>
      match scanBlock start stop fuel rest with
      | .error e => .error e
      | .ok out => .ok (if inRange start stop k then (k, v) :: out else out)

/-- The index loop of `scan_with_tombstones`. -/
def SstFile.scanBlocksFrom (f : SstFile) (start stop : Option Key) :
    List BlockMeta → Res (List Op)
  | [] => .ok []
  | b :: bs =>
    if overlaps start stop b.minKey b.maxKey then
      match f.blockBytes crc32 b with
      | .error e => .error e
      | .ok bytes =>
        match scanBlock start stop bytes.length bytes with
        | .error e => .error e
        | .ok out =>
          match f.scanBlocksFrom start stop bs with
          | .error e => .error e
          | .ok rest => .ok (out ++ rest)
    else f.scanBlocksFrom start stop bs

/-- `scan_with_tombstones` without a limit. -/
def SstFile.scanWithTombstones (f : SstFile) (start stop : Option Key) : Res (List Op) :=
  f.scanBlocksFrom crc32 start stop f.footer.index

/-- The block loop of `verify_file_crc`. -/
def SstFile.allBlocks (f : SstFile) : List BlockMeta → Res Bytes
  | [] => .ok []
  | b :: bs =>
    match f.blockBytes crc32 b with
    | .error e => .error e
    | .ok bytes =>
      match f.allBlocks bs with
      | .error e => .error e
      | .ok rest => .ok (bytes ++ rest)

def SstFile.verifyFileCrc (f : SstFile) : Res Unit :=
  match f.allBlocks crc32 f.footer.index with
  | .error e => .error e
  | .ok bytes =>
    if (crc32 bytes).toNat ≠ f.footer.fileCrc then
      .error (.storage ("file crc mismatch: expected " ++ toString f.footer.fileCrc ++
        ", got " ++ toString (crc32 bytes)))
    else .ok ()

end Read

end OxKv
