import Merutable.Foundation.Reading
import Merutable.Memtable.Wire

/-! `wal::batch` with the errors it reports: the bytes of a batch, read back whole and cut short. -/

namespace Merutable.Wire

open Foundation

abbrev Take := StateT Bytes (Except MeruError)

def readByte : Take UInt8 := fun data =>
  match data with
  | [] => .error (.corruption "unexpected end of WriteBatch")
  | byte :: rest => .ok (byte, rest)

def readLe (width : Nat) (message : String) : Take Nat :=
  Wal.ofLe <$> takeExact width fun _ => .corruption message

def readU64Le : Take Nat := readLe 8 "truncated u64"

def readU32Le : Take Nat := readLe 4 "truncated u32"

/-- The loop of `read_varint`, with the bytes that may still follow; ten of them carry 64 bits. -/
def readVarintFrom : Nat → Nat → Nat → Take Nat
  | 0, _, _ => throw (.corruption "varint overflow")
  | width + 1, shift, value => do
      let byte ← readByte
      let next := (value + byte.toNat % 128 * 2 ^ shift) % 2 ^ 64
      if byte.toNat < 128 then return next else readVarintFrom width (shift + 7) next

def readVarint : Take Nat := readVarintFrom 10 0 0

def readBytes (len : Nat) : Take Bytes :=
  takeExact len fun left => .corruption s!"need {len} bytes, have {left}"

def readOpType : Take OpType := do
  let byte ← readByte
  if byte = 0 then return .delete
  else if byte = 1 then return .put
  else
    let digits := String.ofList (Nat.toDigits 16 byte.toNat)
    throw (.corruption s!"unknown op_type 0x{digits}")

def readRecord : Take BatchRecord := do
  let opType ← readOpType
  let keyLen ← readVarint
  let userKey ← readBytes keyLen
  let valLen ← readVarint
  let value ← readBytes valLen
  return ⟨opType, userKey, some value⟩

def readBatch : Take WriteBatch := do
  let sequence ← readU64Le
  let count ← readU32Le
  let records ← takeMany readRecord count
  return ⟨sequence, records⟩

/-- Bytes after the last record are not looked at. -/
def WriteBatch.decode (data : Bytes) : Except MeruError WriteBatch := do
  okIf (12 ≤ data.length) (.corruption "WriteBatch too short")
  let (batch, _) ← readBatch.run data
  return batch

def putBytes (bytes : Bytes) : Bytes := Wal.putVarint 10 bytes.length ++ bytes

/-- A delete without a pre-image is written with an empty one. -/
def BatchRecord.encode (record : BatchRecord) : Bytes :=
  [UInt8.ofNat record.opType.byte] ++ (putBytes record.userKey ++ putBytes (record.value.getD []))

def WriteBatch.encode (batch : WriteBatch) : Bytes :=
  Wal.toLe 8 batch.sequence ++ (Wal.toLe 4 batch.records.length ++
    batch.records.flatMap BatchRecord.encode)

theorem readByte_decodes (byte : UInt8) : Decodes readByte [byte] byte where
  whole _ := rfl
  cut start short proper := by
    rcases List.prefix_cons_iff.mp short with rfl | ⟨later, rfl, nothing⟩
    · exact ⟨_, rfl⟩
    · rw [List.prefix_nil.mp nothing] at proper
      exact absurd rfl proper

theorem readLe_decodes {width value : Nat} (fits : value < 256 ^ width) (message : String) :
    Decodes (readLe width message) (Wal.toLe width value) value := by
  have read := (Decodes.exact (Wal.toLe width value) fun _ =>
    MeruError.corruption message).map Wal.ofLe
  rwa [Wal.toLe_length, Wal.ofLe_toLe fits] at read

theorem readVarintFrom_decodes {width shift start value : Nat} (positive : 0 < width)
    (narrow : value < 128 ^ width) (fits : start + value * 2 ^ shift < 2 ^ 64) :
    Decodes (readVarintFrom width shift start) (Wal.putVarint width value)
      (start + value * 2 ^ shift) := by
  induction width generalizing shift start value with
  | zero => omega
  | succ width ih =>
    rw [Wal.putVarint, readVarintFrom]
    split
    · rename_i small
      refine (readByte_decodes _).bind ?_
      have less : value < 128 := by omega
      rw [Wal.toNat_lastByte small, if_pos less, Nat.mod_eq_of_lt less, Nat.mod_eq_of_lt fits]
      exact .pure _
    · rename_i large
      refine (readByte_decodes _).bind ?_
      have weight := Wal.varint_weight value shift
      have low : (value % 128 + 128) % 128 = value % 128 := by omega
      have next : (start + value % 128 * 2 ^ shift) % 2 ^ 64 = start + value % 128 * 2 ^ shift :=
        Nat.mod_eq_of_lt (by omega)
      have total : start + value * 2 ^ shift =
          start + value % 128 * 2 ^ shift + value / 128 * 2 ^ (shift + 7) := by omega
      obtain ⟨more, less⟩ := Wal.varint_width narrow large
      rw [Wal.toNat_moreByte, low, next, if_neg (by omega), total]
      exact ih more less (by omega)

theorem readVarint_decodes {value : Nat} (fits : value < 2 ^ 64) :
    Decodes readVarint (Wal.putVarint 10 value) value := by
  have narrow : value < 128 ^ 10 := lt_trans fits (by decide)
  have read := @readVarintFrom_decodes 10 0 0 value (by decide) narrow (by simpa using fits)
  rwa [Nat.pow_zero, Nat.mul_one, Nat.zero_add] at read

theorem readOpType_decodes (op : OpType) : Decodes readOpType [UInt8.ofNat op.byte] op := by
  have read := readByte_decodes (UInt8.ofNat op.byte)
  cases op with
  | delete => exact read.bind (.pure OpType.delete)
  | put => exact read.bind (.pure OpType.put)

theorem readBlob_decodes {A : Type} {bytes code : Bytes} {next : Bytes → Take A} {value : A}
    (fits : bytes.length < 2 ^ 64) (later : Decodes (next bytes) code value) :
    Decodes (readVarint >>= fun len => readBytes len >>= next) (putBytes bytes ++ code) value := by
  rw [putBytes, List.append_assoc]
  exact (readVarint_decodes fits).bind ((Decodes.exact bytes _).bind later)

/-- What a record is read back as: an absent value becomes an empty one. -/
def BatchRecord.present (record : BatchRecord) : BatchRecord :=
  { record with value := some (record.value.getD []) }

/-- Key and value are buffers in memory. -/
def BatchRecord.Fits (bound : Nat) (record : BatchRecord) : Prop :=
  record.userKey.length < bound ∧ ∀ value ∈ record.value, value.length < bound

theorem readRecord_decodes {record : BatchRecord} (fits : record.Fits (2 ^ 64)) :
    Decodes readRecord record.encode record.present := by
  have value : (record.value.getD []).length < 2 ^ 64 := by
    cases found : record.value with
    | none => decide
    | some value => exact fits.2 value (by rw [found]; rfl)
  refine (readOpType_decodes record.opType).bind (readBlob_decodes fits.1 ?_)
  rw [← List.append_nil (putBytes (record.value.getD []))]
  exact readBlob_decodes value (.pure _)

/-- What a batch is read back as. -/
def WriteBatch.present (batch : WriteBatch) : WriteBatch :=
  { batch with records := batch.records.map BatchRecord.present }

/-- A batch in memory, with as many records as the counter of 32 bits can name. -/
structure WriteBatch.Loggable (batch : WriteBatch) : Prop where
  sequence : batch.sequence < 2 ^ 64
  count : batch.records.length < 2 ^ 32
  fits : ∀ record ∈ batch.records, record.Fits (2 ^ 64)

theorem readBatch_decodes {batch : WriteBatch} (loggable : batch.Loggable) :
    Decodes readBatch batch.encode batch.present := by
  obtain ⟨sequence, count, fits⟩ := loggable
  have records := Decodes.many batch.records fun record member =>
    readRecord_decodes (fits record member)
  refine (readLe_decodes (lt_of_lt_of_eq sequence (by decide)) "truncated u64").bind ?_
  refine (readLe_decodes (lt_of_lt_of_eq count (by decide)) "truncated u32").bind ?_
  rw [← List.append_nil (batch.records.flatMap BatchRecord.encode)]
  exact records.bind (.pure _)

theorem WriteBatch.encode_long (batch : WriteBatch) : 12 ≤ batch.encode.length := by
  rw [encode, List.length_append, List.length_append, Wal.toLe_length, Wal.toLe_length]
  omega

theorem WriteBatch.decode_encode {batch : WriteBatch} (loggable : batch.Loggable) :
    decode batch.encode = .ok batch.present := by
  have whole := (readBatch_decodes loggable).whole []
  rw [List.append_nil] at whole
  rw [decode, okIf, if_pos batch.encode_long, whole]
  rfl

/-- A batch is read back with its records in order, and what is cut short anywhere is refused. -/
theorem batch_read_back (batch : WriteBatch) (sequence : batch.sequence < 2 ^ 64)
    (count : batch.records.length < 2 ^ 32)
    (fits : ∀ record ∈ batch.records, record.Fits (2 ^ 32)) :
    WriteBatch.decode batch.encode =
        .ok ⟨batch.sequence, batch.records.map fun record =>
          ⟨record.opType, record.userKey, some (record.value.getD [])⟩⟩ ∧
      ∀ start, start <+: batch.encode → start ≠ batch.encode →
        ∃ error, WriteBatch.decode start = .error error := by
  have wide : ∀ record ∈ batch.records, record.Fits (2 ^ 64) := by
    intro record member
    obtain ⟨key, value⟩ := fits record member
    exact ⟨lt_trans key (by decide), fun bytes found => lt_trans (value bytes found) (by decide)⟩
  have loggable : batch.Loggable := ⟨sequence, count, wide⟩
  refine ⟨WriteBatch.decode_encode loggable, ?_⟩
  intro start short proper
  obtain ⟨error, failed⟩ := (readBatch_decodes loggable).cut start short proper
  by_cases enough : 12 ≤ start.length
  · rw [WriteBatch.decode, okIf, if_pos enough, failed]
    exact ⟨error, rfl⟩
  · rw [WriteBatch.decode, okIf, if_neg enough]
    exact ⟨_, rfl⟩

/-- A put, and a delete without a pre-image. -/
def putAndDelete : WriteBatch := ⟨300, [⟨.put, [7], some [70, 71]⟩, ⟨.delete, [8], none⟩]⟩

theorem batch_read_back_sample :
    (putAndDelete.sequence < 2 ^ 64 ∧ putAndDelete.records.length < 2 ^ 32 ∧
      ∀ record ∈ putAndDelete.records, record.Fits (2 ^ 32)) ∧
    WriteBatch.decode putAndDelete.encode =
      .ok ⟨300, [⟨.put, [7], some [70, 71]⟩, ⟨.delete, [8], some []⟩]⟩ ∧
    ∃ error, WriteBatch.decode (putAndDelete.encode.take 19) = .error error := by
  have fits : ∀ record ∈ putAndDelete.records, record.Fits (2 ^ 32) := by
    intro record member
    simp only [putAndDelete, List.mem_cons, List.not_mem_nil, or_false] at member
    rcases member with rfl | rfl <;> simp [BatchRecord.Fits]
  obtain ⟨whole, cut⟩ := batch_read_back putAndDelete (by decide) (by decide) fits
  exact ⟨⟨by decide, by decide, fits⟩, whole, cut _ (List.take_prefix _ _) (by decide)⟩

end Merutable.Wire
