import Mathlib.Data.Finset.Card
import Merutable.Key

/-! Deletion vectors as Puffin files: `iceberg::deletion_vector`. -/

namespace Merutable.Puffin

open Wal

structure BlobFields where
  referencedDataFile : String
  cardinality : Int
  deriving DecidableEq

structure BlobMeta where
  blobType : String
  fields : BlobFields
  snapshotId : Int
  sequenceNumber : Int
  offset : Int
  length : Int
  compressionCodec : Option String
  deriving DecidableEq

/-- The footer; its properties are written empty and never read. -/
structure Footer where
  blobs : List BlobMeta
  deriving DecidableEq

/-- The libraries: the portable form of a Roaring bitmap, the JSON text of a footer as UTF-8, and
the checksum. An error is the text it is reported with. -/
structure Lib where
  serialize : Finset UInt32 → Bytes
  deserialize : Bytes → Except String (Finset UInt32)
  printFooter : Footer → Bytes
  parseFooter : Bytes → Except String Footer
  crc : Bytes → UInt32

def puffinMagic : Bytes := [0x50, 0x46, 0x41, 0x31]

def dvMagic : Bytes := [0xD1, 0xD3, 0x39, 0x64]

def puffinMinSize : Nat := 12

def blobType : String := "deletion-vector-v1"

structure Encoded where
  bytes : Bytes
  blobOffset : Int
  blobLength : Int

section Encode

variable (lib : Lib) (bitmap : Finset UInt32)

/-- One bitmap, under the key of the positions below 2^32. -/
def roaring64 : Bytes := toLe 8 1 ++ toLe 4 0 ++ lib.serialize bitmap

/-- The size of magic, data and checksum. -/
def innerLen : Nat := dvMagic.length + (roaring64 lib bitmap).length + 4

def blobData : Bytes :=
  toBe 4 (innerLen lib bitmap) ++ (dvMagic ++ roaring64 lib bitmap ++
    toBe 4 (lib.crc (dvMagic ++ roaring64 lib bitmap)).toNat)

def footer (parquetPath : String) (snapshotId sequenceNumber : Int) : Footer :=
  ⟨[⟨blobType, ⟨parquetPath, bitmap.card⟩, snapshotId, sequenceNumber, puffinMagic.length,
    (blobData lib bitmap).length, none⟩]⟩

def puffinFile (footerBytes : Bytes) : Bytes :=
  puffinMagic ++ (blobData lib bitmap ++ (footerBytes ++
    (toLe 4 footerBytes.length ++ puffinMagic)))

def encodePuffin (parquetPath : String) (snapshotId sequenceNumber : Int) :
    Except MeruError Encoded := do
  let inner := innerLen lib bitmap
  okIf (inner < 2 ^ 32) (.iceberg s!"DV blob too large for u32 length: {inner}")
  let footerBytes := lib.printFooter (footer lib bitmap parquetPath snapshotId sequenceNumber)
  let size := footerBytes.length
  okIf (size < 2 ^ 31) (.iceberg s!"Puffin footer too large for i32: {size} bytes")
  return ⟨puffinFile lib bitmap footerBytes, puffinMagic.length, (blobData lib bitmap).length⟩

end Encode

section Decode

variable (lib : Lib)

def hexByte2 (byte : UInt8) : String :=
  let digits := (Nat.toDigits 16 byte.toNat).map Char.toUpper
  String.ofList (if digits.length < 2 then '0' :: digits else digits)

/-- The bitmaps of the blob: none, or the one for the positions below 2^32. -/
def decodeRoaring64 (data : Bytes) : Except MeruError (Finset UInt32) := do
  okIf (8 ≤ data.length) (.corruption "DV 64-bit Roaring data too short for bitmap_count")
  let bitmapCount := ofLe (data.take 8)
  if bitmapCount = 0 then return ∅
  else
    okIf (bitmapCount ≤ 1) (.corruption (s!"DV 64-bit Roaring has {bitmapCount} bitmaps; " ++
      "merutable only supports row positions < 2^32"))
    okIf (12 ≤ data.length) (.corruption "DV 64-bit Roaring data too short for key field")
    let key := ofLe ((data.drop 8).take 4)
    okIf (key = 0) (.corruption (s!"DV 64-bit Roaring key is {key}; " ++
      "merutable only supports key=0 (row positions < 2^32)"))
    (lib.deserialize (data.drop 12)).mapError fun text =>
      .corruption s!"DV 32-bit Roaring deserialize: {text}"

def decodeDvBlob (blob : Bytes) : Except MeruError (Finset UInt32) := do
  let size := blob.length
  okIf (12 ≤ size) (.corruption s!"DV blob too short: {size} bytes (minimum 12)")
  let length := ofBe (blob.take 4)
  let remaining := size - 4
  okIf (4 + length = size) (.corruption
    (s!"DV blob length field ({length}) doesn't match actual remaining size ({remaining})"))
  let magic := (blob.drop 4).take 4
  let shown := String.join (magic.map hexByte2)
  okIf (magic = dvMagic) (.corruption s!"DV blob magic mismatch: expected D1D33964, got {shown}")
  let crcOffset := size - 4
  let storedCrc := ofBe (blob.drop crcOffset)
  let computedCrc := (lib.crc ((blob.take crcOffset).drop 4)).toNat
  let stored := String.ofList (Nat.toDigits 16 storedCrc)
  let computed := String.ofList (Nat.toDigits 16 computedCrc)
  okIf (computedCrc = storedCrc) (.corruption
    (s!"DV blob CRC mismatch: stored 0x{stored}, computed 0x{computed}"))
  decodeRoaring64 lib ((blob.take crcOffset).drop 8)

def fromPuffinBlob (blob : Bytes) : Except MeruError (Finset UInt32) := decodeDvBlob lib blob

/-- Four bytes as a signed number. -/
def i32OfLe (bytes : Bytes) : Int :=
  if ofLe bytes < 2 ^ 31 then ofLe bytes else ofLe bytes - 2 ^ 32

/-- The bytes at the coordinates of a blob; the texts are those of the three errors. -/
def blobAt (data : Bytes) (offset length : Int) (negative overflows exceeds : String) :
    Except MeruError Bytes := do
  okIf (0 ≤ offset ∧ 0 ≤ length) (.corruption negative)
  okIf (offset + length < 2 ^ 64) (.corruption overflows)
  okIf (offset + length ≤ data.length) (.corruption exceeds)
  return (data.drop offset.toNat).take length.toNat

/-- The blob the footer refers to. -/
def readBlob (data : Bytes) (blob : BlobMeta) : Except MeruError Bytes :=
  let offset := blob.offset
  let length := blob.length
  let size := data.length
  blobAt data offset length s!"Puffin blob has negative offset ({offset}) or length ({length})"
    s!"Puffin blob offset {offset} + length {length} overflows usize"
    s!"Puffin blob at offset {offset} length {length} exceeds file size {size}"

def fromPuffinBytes (data : Bytes) : Except MeruError (Finset UInt32) := do
  okIf (puffinMinSize ≤ data.length) (.corruption "Puffin file too short")
  okIf (data.take 4 = puffinMagic) (.corruption "Puffin file missing opening magic")
  okIf (data.drop (data.length - 4) = puffinMagic) (.corruption "Puffin file missing closing magic")
  let flStart := data.length - 8
  let footerLenRaw := i32OfLe ((data.drop flStart).take 4)
  okIf (0 ≤ footerLenRaw) (.corruption s!"Puffin footer length is negative: {footerLenRaw}")
  let footerLen := footerLenRaw.toNat
  okIf (footerLen ≤ data.length - puffinMinSize) (.corruption
    (s!"Puffin footer length {footerLen} exceeds file size"))
  let footer ← (lib.parseFooter ((data.drop (flStart - footerLen)).take footerLen)).mapError
    .corruption
  match footer.blobs.find? (·.blobType = blobType) with
  | none => throw (.corruption "Puffin file has no deletion-vector-v1 blob")
  | some blob => do
      let bytes ← readBlob data blob
      decodeDvBlob lib bytes

end Decode

section ReadBack

variable {lib : Lib} {bitmap : Finset UInt32} {blob : BlobMeta}

theorem split_at_end {bytes body tail : Bytes} {count : Nat} (sized : tail.length = count)
    (split : bytes = body ++ tail) :
    bytes.take (bytes.length - count) = body ∧ bytes.drop (bytes.length - count) = tail := by
  have front : bytes.length - count = body.length := by
    rw [split, List.length_append, sized, Nat.add_sub_cancel]
  rw [front, split]
  exact ⟨List.take_left, List.drop_left⟩

theorem roaring64_length : (roaring64 lib bitmap).length = 12 + (lib.serialize bitmap).length := by
  rw [roaring64, List.length_append, List.length_append, toLe_length, toLe_length]

theorem blobData_length : (blobData lib bitmap).length = 4 + innerLen lib bitmap := by
  rw [blobData, innerLen, List.length_append, List.length_append, List.length_append, toBe_length,
    toBe_length]

theorem blobData_split :
    (blobData lib bitmap).take ((blobData lib bitmap).length - 4) =
        toBe 4 (innerLen lib bitmap) ++ (dvMagic ++ roaring64 lib bitmap) ∧
      (blobData lib bitmap).drop ((blobData lib bitmap).length - 4) =
        toBe 4 (lib.crc (dvMagic ++ roaring64 lib bitmap)).toNat := by
  apply split_at_end (toBe_length _ _)
  simp only [blobData, List.append_assoc]

theorem decodeRoaring64_encode (known : lib.deserialize (lib.serialize bitmap) = .ok bitmap) :
    decodeRoaring64 lib (roaring64 lib bitmap) = .ok bitmap := by
  have count : ofLe ((roaring64 lib bitmap).take 8) = 1 := by
    rw [roaring64, List.append_assoc, List.take_left' (toLe_length _ _)]
    rfl
  have key : ofLe (((roaring64 lib bitmap).drop 8).take 4) = 0 := by
    rw [roaring64, List.append_assoc, List.drop_left' (toLe_length _ _),
      List.take_left' (toLe_length _ _)]
    rfl
  have rest : (roaring64 lib bitmap).drop 12 = lib.serialize bitmap := by
    rw [roaring64]
    apply List.drop_left'
    rw [List.length_append, toLe_length, toLe_length]
  have long : 12 ≤ (roaring64 lib bitmap).length := by
    rw [roaring64_length]
    omega
  simp only [decodeRoaring64, count, key, rest, known, Except.seq_eq_ok, okIf_eq_ok]
  refine ⟨by omega, ?_⟩
  rw [if_neg (by decide)]
  simp only [Except.seq_eq_ok, okIf_eq_ok]
  exact ⟨le_rfl, long, trivial, rfl⟩

theorem decodeDvBlob_encode (fits : innerLen lib bitmap < 2 ^ 32)
    (known : lib.deserialize (lib.serialize bitmap) = .ok bitmap) :
    decodeDvBlob lib (blobData lib bitmap) = .ok bitmap := by
  have size := @blobData_length lib bitmap
  have length : ofBe ((blobData lib bitmap).take 4) = innerLen lib bitmap := by
    rw [blobData, List.take_left' (toBe_length _ _), ofBe_toBe (lt_of_lt_of_eq fits (by decide))]
  have magic : ((blobData lib bitmap).drop 4).take 4 = dvMagic := by
    rw [blobData, List.drop_left' (toBe_length _ _), List.append_assoc]
    exact List.take_left' rfl
  have crc : ofBe ((blobData lib bitmap).drop ((blobData lib bitmap).length - 4)) =
      (lib.crc (dvMagic ++ roaring64 lib bitmap)).toNat := by
    rw [blobData_split.2, ofBe_toBe (lt_of_lt_of_eq (UInt32.toNat_lt _) (by decide))]
  have covered : ((blobData lib bitmap).take ((blobData lib bitmap).length - 4)).drop 4 =
      dvMagic ++ roaring64 lib bitmap := by
    rw [blobData_split.1, List.drop_left' (toBe_length _ _)]
  have data : ((blobData lib bitmap).take ((blobData lib bitmap).length - 4)).drop 8 =
      roaring64 lib bitmap := by
    rw [blobData_split.1, ← List.append_assoc]
    apply List.drop_left'
    rw [List.length_append, toBe_length]
    rfl
  have inner : 8 ≤ innerLen lib bitmap := by
    rw [innerLen]
    exact Nat.le_add_left 8 _
  simp only [decodeDvBlob, Except.seq_eq_ok, okIf_eq_ok, length, magic, crc, covered, data]
  exact ⟨by omega, size.symm, trivial, trivial, decodeRoaring64_encode known⟩

variable {footerBytes : Bytes}

theorem puffinFile_length : (puffinFile lib bitmap footerBytes).length =
    12 + (blobData lib bitmap).length + footerBytes.length := by
  simp only [puffinFile, List.length_append, toLe_length, puffinMagic, List.length_cons,
    List.length_nil]
  omega

theorem puffinFile_trailer :
    (puffinFile lib bitmap footerBytes).drop ((puffinFile lib bitmap footerBytes).length - 4) =
        puffinMagic ∧
      ((puffinFile lib bitmap footerBytes).drop
        ((puffinFile lib bitmap footerBytes).length - 8)).take 4 = toLe 4 footerBytes.length := by
  have magic := @split_at_end (puffinFile lib bitmap footerBytes)
    (puffinMagic ++ (blobData lib bitmap ++ (footerBytes ++ toLe 4 footerBytes.length)))
    puffinMagic 4 rfl (by simp only [puffinFile, List.append_assoc])
  have length := @split_at_end (puffinFile lib bitmap footerBytes)
    (puffinMagic ++ (blobData lib bitmap ++ footerBytes))
    (toLe 4 footerBytes.length ++ puffinMagic) 8 (by rw [List.length_append, toLe_length]; rfl)
    (by simp only [puffinFile, List.append_assoc])
  refine ⟨magic.2, ?_⟩
  rw [length.2]
  exact List.take_left' (toLe_length _ _)

theorem puffinFile_footer : ((puffinFile lib bitmap footerBytes).drop
    ((puffinFile lib bitmap footerBytes).length - 8 - footerBytes.length)).take footerBytes.length =
      footerBytes := by
  have start : (puffinFile lib bitmap footerBytes).length - 8 - footerBytes.length =
      (puffinMagic ++ blobData lib bitmap).length := by
    rw [puffinFile_length, List.length_append]
    change _ = 4 + _
    omega
  rw [start, puffinFile, ← List.append_assoc, List.drop_left, List.take_left]

theorem puffinFile_blob : ((puffinFile lib bitmap footerBytes).drop puffinMagic.length).take
    (blobData lib bitmap).length = blobData lib bitmap := by
  rw [puffinFile, List.drop_left, List.take_left]

theorem fromPuffinBytes_file {found : Footer} (short : footerBytes.length < 2 ^ 31)
    (parsed : lib.parseFooter footerBytes = .ok found)
    (located : found.blobs.find? (·.blobType = blobType) = some blob) :
    fromPuffinBytes lib (puffinFile lib bitmap footerBytes) =
      readBlob (puffinFile lib bitmap footerBytes) blob >>= decodeDvBlob lib := by
  have size := @puffinFile_length lib bitmap footerBytes
  have opening : (puffinFile lib bitmap footerBytes).take 4 = puffinMagic := List.take_left' rfl
  obtain ⟨closing, length⟩ := @puffinFile_trailer lib bitmap footerBytes
  have signed : i32OfLe (toLe 4 footerBytes.length) = footerBytes.length := by
    have small : ofLe (toLe 4 footerBytes.length) = footerBytes.length :=
      ofLe_toLe (lt_trans short (by decide))
    rw [i32OfLe, small, if_pos short]
  have enough : puffinMinSize ≤ (puffinFile lib bitmap footerBytes).length := by
    rw [size, puffinMinSize]
    omega
  have inside : footerBytes.length ≤ (puffinFile lib bitmap footerBytes).length
    - puffinMinSize := by
    rw [size, puffinMinSize]
    omega
  simp only [fromPuffinBytes, length, signed, Int.toNat_natCast, puffinFile_footer, parsed, okIf,
    if_pos enough, if_pos opening, if_pos closing, if_pos inside, Int.natCast_nonneg, if_true]
  change (match found.blobs.find? (·.blobType = blobType) with
    | none => _
    | some blob => readBlob (puffinFile lib bitmap footerBytes) blob >>= decodeDvBlob lib) = _
  rw [located]

theorem blobAt_file {negative overflows exceeds : String} (fits : innerLen lib bitmap < 2 ^ 32) :
    blobAt (puffinFile lib bitmap footerBytes) puffinMagic.length (blobData lib bitmap).length
      negative overflows exceeds = .ok (blobData lib bitmap) := by
  have size := @blobData_length lib bitmap
  have total := @puffinFile_length lib bitmap footerBytes
  have magic : puffinMagic.length = 4 := rfl
  simp only [blobAt, Except.seq_eq_ok, okIf_eq_ok, Int.toNat_natCast]
  refine ⟨by omega, by omega, by omega, ?_⟩
  rw [puffinFile_blob]
  rfl

end ReadBack

/-- The portable form has at most 2^16 containers of at most 2^13 bytes, each with eight bytes in
the header. -/
def roaringMaxSize : Nat := 8 + 2 ^ 16 * (8 + 2 ^ 13)

/-- The file as a whole and the slice at the coordinates both give the vector back. -/
theorem puffin_read_back (lib : Lib) (bitmap : Finset UInt32) (parquetPath : String)
    (snapshotId sequenceNumber : Int)
    (sized : (lib.serialize bitmap).length ≤ roaringMaxSize)
    (known : lib.deserialize (lib.serialize bitmap) = .ok bitmap)
    (parsed : lib.parseFooter (lib.printFooter (footer lib bitmap parquetPath snapshotId
      sequenceNumber)) = .ok (footer lib bitmap parquetPath snapshotId sequenceNumber))
    (short : (lib.printFooter (footer lib bitmap parquetPath snapshotId sequenceNumber)).length <
      2 ^ 31) :
    ∃ encoded, encodePuffin lib bitmap parquetPath snapshotId sequenceNumber = .ok encoded ∧
      fromPuffinBytes lib encoded.bytes = .ok bitmap ∧
      0 ≤ encoded.blobOffset ∧ 0 ≤ encoded.blobLength ∧
      encoded.blobOffset + encoded.blobLength ≤ encoded.bytes.length ∧
      fromPuffinBlob lib ((encoded.bytes.drop encoded.blobOffset.toNat).take
        encoded.blobLength.toNat) = .ok bitmap := by
  have fits : innerLen lib bitmap < 2 ^ 32 := by
    have bound : roaringMaxSize = 537395208 := rfl
    rw [innerLen, roaring64_length]
    change 4 + _ + 4 < _
    omega
  have decoded := decodeDvBlob_encode fits known
  have size := @puffinFile_length lib bitmap
    (lib.printFooter (footer lib bitmap parquetPath snapshotId sequenceNumber))
  refine ⟨_, by simp only [encodePuffin, okIf, if_pos fits, if_pos short]; rfl, ?_, ?_, ?_, ?_, ?_⟩
  · rw [fromPuffinBytes_file short parsed rfl]
    exact (congrArg (· >>= decodeDvBlob lib) (blobAt_file fits)).trans decoded
  · exact Int.natCast_nonneg _
  · exact Int.natCast_nonneg _
  · have magic : puffinMagic.length = 4 := rfl
    dsimp only
    omega
  · rw [Int.toNat_natCast, Int.toNat_natCast, puffinFile_blob]
    exact decoded

/-- The libraries on the vector of the rows 3 and 7 of a file. -/
def sampleLib : Lib where
  serialize _ := [0x3A, 0x30, 0, 0, 1, 0, 0, 0, 0, 0, 1, 0, 16, 0, 0, 0, 3, 0, 7, 0]
  deserialize _ := .ok {3, 7}
  printFooter _ := ("\x7b\"blobs\":[\x7b\"type\":\"deletion-vector-v1\",\"fields\":" ++
    "\x7b\"referenced-data-file\":\"data/L0/a.parquet\",\"cardinality\":2\x7d,\"snapshot-id\":1," ++
    "\"sequence-number\":1,\"offset\":4,\"length\":44\x7d]," ++
    "\"properties\":\x7b\x7d\x7d").toUTF8.toList
  parseFooter _ := .ok ⟨[⟨blobType, ⟨"data/L0/a.parquet", 2⟩, 1, 1, 4, 44, none⟩]⟩
  crc _ := 0

theorem puffin_read_back_sample :
    ∃ encoded, encodePuffin sampleLib {3, 7} "data/L0/a.parquet" 1 1 = .ok encoded ∧
      fromPuffinBytes sampleLib encoded.bytes = .ok {3, 7} ∧
      0 ≤ encoded.blobOffset ∧ 0 ≤ encoded.blobLength ∧
      encoded.blobOffset + encoded.blobLength ≤ encoded.bytes.length ∧
      fromPuffinBlob sampleLib ((encoded.bytes.drop encoded.blobOffset.toNat).take
        encoded.blobLength.toNat) = .ok {3, 7} :=
  puffin_read_back sampleLib {3, 7} "data/L0/a.parquet" 1 1 (by decide) rfl rfl (by decide +kernel)

end Merutable.Puffin
