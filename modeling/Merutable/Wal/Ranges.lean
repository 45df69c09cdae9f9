import Merutable.Wal.Physical

/-! Where in a log file the bytes come from that the reader yields. -/

namespace Merutable.Wal.Physical

/-- The bytes of a file from one place up to another. -/
def slice (file : Bytes) (range : Nat × Nat) : Bytes := (file.drop range.1).take (range.2 - range.1)

/-- Ranges that follow one another between two places. -/
def Ascending (high : Nat) : Nat → List (Nat × Nat) → Prop
  | low, [] => low ≤ high
  | low, range :: rest => low ≤ range.1 ∧ range.1 ≤ range.2 ∧ Ascending high range.2 rest

/-- The readers between the calls of `next_record`. -/
inductive Reached (crc : Bytes → UInt32) (format : LogFormat) (file : Bytes) : LogReader → Prop
  | start : Reached crc format file (.start file)
  | next {reader next : LogReader} {item : Except MeruError Bytes}
      (reached : Reached crc format file reader)
      (read : nextRecord crc format reader none = some (item, next)) : Reached crc format file next

section Ranges

variable {crc : Bytes → UInt32} {format : LogFormat} {file : Bytes} {reader next : LogReader}
  {low middle high : Nat} {ranges later : List (Nat × Nat)} {type : RecordType}
  {assembled : Option Bytes}

theorem Ascending.append (first : Ascending middle low ranges)
    (second : Ascending high middle later) :
    Ascending high low (ranges ++ later) := by
  induction ranges generalizing low with
  | nil =>
    cases later with
    | nil => exact first.trans second
    | cons range rest => exact ⟨first.trans second.1, second.2⟩
  | cons range rest ih => exact ⟨first.1, first.2.1, ih first.2.2⟩

/-- Where the reader stands in the file. -/
def LogReader.position (file : Bytes) (reader : LogReader) : Nat := file.length - reader.rest.length

theorem readPhysicalRecord_slice {payload : Bytes} (inside : reader.rest <:+ file)
    (read : readPhysicalRecord crc format reader = .ok (some (type, payload, next))) :
    next.rest <:+ file ∧ ∃ range : Nat × Nat, reader.position file ≤ range.1 ∧ range.1 ≤ range.2 ∧
      range.2 = next.position file ∧ slice file range = payload := by
  have suffix := (readPhysicalRecord_suffix _ _ read).1
  obtain ⟨skipped, rfl⟩ := suffix.trans inside
  have shorter := suffix.length_le
  have shorter' := inside.length_le
  simp only [List.length_append] at shorter shorter'
  refine ⟨⟨skipped ++ payload, by simp⟩, (skipped.length, skipped.length + payload.length), ?_, ?_,
    ?_, ?_⟩
  · simp only [LogReader.position, List.length_append]
    omega
  · exact Nat.le_add_right _ _
  · simp only [LogReader.position, List.length_append]
    omega
  · simp [slice]

theorem assemble_eq {payload joined : Bytes}
    (joins : assemble type assembled payload = .whole joined ∨
      assemble type assembled payload = .part joined) :
    joined = assembled.getD [] ++ payload := by
  cases type <;> cases assembled <;> simp_all [assemble]

theorem nextRecord_slices {item : Except MeruError Bytes} (inside : reader.rest <:+ file)
    (read : nextRecord crc format reader assembled = some (item, next)) :
    next.rest <:+ file ∧ ∃ ranges, Ascending (next.position file) (reader.position file) ranges ∧
      ∀ payload, item = .ok payload → payload = assembled.getD [] ++
        ranges.flatMap (slice file) := by
  fun_induction nextRecord crc format reader assembled with
  | case1 | case2 => cases read
  | case3 reader assembled type payload following found whole assembles =>
    cases read
    obtain ⟨rest, range, low, up, stop, rfl⟩ := readPhysicalRecord_slice inside found
    refine ⟨rest, [range], ⟨low, up, stop.le⟩, ?_⟩
    rintro _ ⟨⟩
    rw [assemble_eq (.inl assembles), List.flatMap_singleton]
  | case4 reader assembled type payload following found front assembles ih =>
    obtain ⟨rest, range, low, up, stop, rfl⟩ := readPhysicalRecord_slice inside found
    obtain ⟨rest', ranges, ascending, yields⟩ := ih rest read
    refine ⟨rest', range :: ranges, ⟨low, up, stop ▸ ascending⟩, ?_⟩
    intro payload yielded
    rw [yields payload yielded, assemble_eq (.inr assembles), Option.getD_some, List.append_assoc,
      List.flatMap_cons]
  | case5 reader assembled type payload following found message assembles =>
    cases read
    obtain ⟨rest, range, low, up, stop, rfl⟩ := readPhysicalRecord_slice inside found
    exact ⟨rest, [range], ⟨low, up, stop.le⟩, fun _ failed => by cases failed⟩

theorem records_slices (inside : reader.rest <:+ file) : ∃ pieces : List (List (Nat × Nat)),
    List.Forall₂ (fun item ranges => ∀ payload, item = .ok payload →
      payload = ranges.flatMap (slice file)) (records crc format reader) pieces ∧
      Ascending file.length (reader.position file) pieces.flatten ∧
      (records crc format reader).length ≤ reader.rest.length := by
  induction count : reader.rest.length using Nat.strong_induction_on generalizing reader with
  | _ count ih =>
    cases read : nextRecord crc format reader none with
    | none =>
      rw [records_of_none read]
      exact ⟨[], .nil, Nat.sub_le _ _, Nat.zero_le _⟩
    | some called =>
      obtain ⟨item, next⟩ := called
      have shorter := nextRecord_lt _ _ read
      obtain ⟨rest, ranges, ascending, yields⟩ := nextRecord_slices inside read
      obtain ⟨pieces, others, behind, few⟩ := ih next.rest.length (by omega) rest rfl
      rw [records_of_some read]
      refine ⟨ranges :: pieces, .cons yields others, ascending.append behind, ?_⟩
      rw [List.length_cons]
      omega

end Ranges

/-- Whatever the bytes of a log file and whatever the checksum, reading it to the end yields
payloads made of parts of the file that follow one another, at most one for each byte, and between
the calls the block offset is inside a block. -/
theorem yielded_ranges_ascend (crc : Bytes → UInt32) (format : LogFormat) (file : Bytes) :
    (∃ pieces : List (List (Nat × Nat)),
      List.Forall₂ (fun item ranges => ∀ payload, item = .ok payload →
        payload = ranges.flatMap (slice file)) (records crc format (.start file)) pieces ∧
        Ascending file.length 0 pieces.flatten ∧
        (records crc format (.start file)).length ≤ file.length) ∧
      ∀ reader, Reached crc format file reader → reader.blockOffset < blockSize := by
  refine ⟨?_, fun reader _ => reader.inside⟩
  have slices := @records_slices crc format file (.start file) List.suffix_rfl
  rwa [LogReader.position, show (LogReader.start file).rest = file from rfl, Nat.sub_self] at slices

end Merutable.Wal.Physical
