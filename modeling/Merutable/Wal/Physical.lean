import Merutable.Schema
import Merutable.Wal.Log

/-! Both record formats of a log file: `wal::writer` and `wal::reader` with the errors of the
reader. Every loop has a measure of its own. -/

namespace Merutable.Wal.Physical

/-- The recyclable format writes the number of the log into every header. -/
inductive LogFormat where
  | legacy
  | recyclable (logNumber : UInt32)
  deriving DecidableEq

namespace LogFormat

def headerSize : LogFormat → Nat
  | .legacy => 7
  | .recyclable _ => 11

def typeByte : LogFormat → RecordType → UInt8
  | .legacy, type => type.byte
  | .recyclable _, type => type.byte + 4

def logNumberBytes : LogFormat → Bytes
  | .legacy => []
  | .recyclable logNumber => toLe 4 logNumber.toNat

end LogFormat

/-- The type and whether it is one of the recyclable ones. -/
def fromByte (byte : UInt8) : Option (RecordType × Bool) :=
  if byte = 1 then some (.full, false)
  else if byte = 2 then some (.first, false)
  else if byte = 3 then some (.middle, false)
  else if byte = 4 then some (.last, false)
  else if byte = 5 then some (.full, true)
  else if byte = 6 then some (.first, true)
  else if byte = 7 then some (.middle, true)
  else if byte = 8 then some (.last, true)
  else none

def hex (number : Nat) : String := "0x" ++ String.ofList (Nat.toDigits 16 number)

section Format

variable (crc : Bytes → UInt32) (format : LogFormat) {type : RecordType} {payload : Bytes}

def header (type : RecordType) (payload : Bytes) : Bytes :=
  toLe 4 (crc (format.typeByte type :: payload)).toNat ++
    (toLe 2 payload.length ++ (format.typeByte type :: format.logNumberBytes))

/-- The block offset of the next header: a block whose rest is too small for one is left. -/
def headerOffset (blockOffset : Nat) : Nat :=
  if blockSize - blockOffset < format.headerSize then 0 else blockOffset

/-- The zeros that fill such a block. -/
def padding (blockOffset : Nat) : Bytes :=
  if blockSize - blockOffset < format.headerSize then List.replicate (blockSize - blockOffset) 0
  else []

def capacity (blockOffset : Nat) : Nat :=
  blockSize - headerOffset format blockOffset - format.headerSize

def nextOffset (blockOffset : Nat) (remaining : Bytes) : Nat :=
  headerOffset format blockOffset +
    (format.headerSize + (remaining.take (capacity format blockOffset)).length)

/-- A round takes a byte, or it leaves the block with the room for a header only. -/
def rounds (blockOffset : Nat) (remaining : Bytes) : Nat :=
  2 * remaining.length + if capacity format blockOffset = 0 then 1 else 0

variable {format} {blockOffset : Nat} {remaining : Bytes}

theorem headerSize_bounds (format : LogFormat) :
    7 ≤ format.headerSize ∧ format.headerSize ≤ 11 := by
  cases format <;> simp [LogFormat.headerSize]

theorem headerOffset_inside (format : LogFormat) (blockOffset : Nat) :
    headerOffset format blockOffset + format.headerSize ≤ blockSize := by
  have size := headerSize_bounds format
  have block : blockSize = 32768 := rfl
  rw [headerOffset]
  split <;> omega

theorem nextOffset_le : nextOffset format blockOffset remaining ≤ blockSize := by
  have inside := headerOffset_inside format blockOffset
  have short : (remaining.take (capacity format blockOffset)).length ≤
    capacity format blockOffset :=
    List.length_take_le _ _
  rw [capacity] at short
  rw [nextOffset, capacity]
  omega

theorem rounds_decrease (nonempty : remaining ≠ []) :
    rounds format (nextOffset format blockOffset remaining)
        (remaining.drop (capacity format blockOffset)) < rounds format blockOffset remaining := by
  have positive := List.length_pos_iff.mpr nonempty
  have size := headerSize_bounds format
  have block : blockSize = 32768 := rfl
  by_cases full : capacity format blockOffset = 0
  · have ended : nextOffset format blockOffset remaining = blockSize := by
      have inside := headerOffset_inside format blockOffset
      rw [nextOffset, full, List.take_zero, List.length_nil]
      rw [capacity] at full
      omega
    have fresh : capacity format blockSize ≠ 0 := by
      have left : headerOffset format blockSize = 0 := if_pos (by omega)
      rw [capacity, left]
      omega
    rw [ended, rounds, rounds, if_pos full, if_neg fresh, full, List.drop_zero]
    omega
  · rw [rounds, rounds, if_neg full, List.length_drop]
    split <;> omega

variable (format)

/-- The sink calls of `add_record` in order. -/
def addRecord (blockOffset : Nat) (remaining : Bytes) (isFirst : Bool) : List SinkWrite :=
  if remaining = [] then []
  else
    let fragment := remaining.take (capacity format blockOffset)
    let rest := remaining.drop (capacity format blockOffset)
    let type := fragmentType isFirst rest.isEmpty
    let next := nextOffset format blockOffset remaining
    (if blockSize - blockOffset < format.headerSize then [⟨padding format blockOffset, 0⟩]
      else []) ++
      ⟨header crc format type fragment, headerOffset format blockOffset⟩ :: ⟨fragment, next⟩ ::
        addRecord next rest false
termination_by rounds format blockOffset remaining
decreasing_by exact rounds_decrease (by assumption)

/-- The bytes that they write, and the block offset after them. -/
def written (blockOffset : Nat) (remaining : Bytes) (isFirst : Bool) : Bytes × Nat :=
  (sunk (addRecord crc format blockOffset remaining isFirst),
    offsetAfter blockOffset (addRecord crc format blockOffset remaining isFirst))

/-- The part of the file that is still to be read. -/
structure LogReader where
  rest : Bytes
  blockOffset : Nat
  inside : blockOffset < blockSize

namespace LogReader

def start (file : Bytes) : LogReader := ⟨file, 0, by decide⟩

def skipBlock (reader : LogReader) : LogReader :=
  ⟨reader.rest.drop (blockSize - reader.blockOffset), 0, by decide⟩

/-- Leaves a block whose rest is too small for a header. -/
def align (reader : LogReader) : LogReader :=
  if blockSize - reader.blockOffset < format.headerSize then reader.skipBlock else reader

def advance (reader : LogReader) (total : Nat) : LogReader :=
  ⟨reader.rest.drop total, (reader.blockOffset + total) % blockSize, Nat.mod_lt _ (by decide)⟩

theorem skipBlock_suffix (reader : LogReader) : reader.skipBlock.rest <:+ reader.rest :=
  List.drop_suffix _ _

theorem align_suffix (reader : LogReader) : (reader.align format).rest <:+ reader.rest := by
  unfold align
  split
  · exact reader.skipBlock_suffix
  · exact List.suffix_rfl

theorem skipBlock_lt {reader : LogReader} (present : reader.rest ≠ []) :
    reader.skipBlock.rest.length < reader.rest.length := by
  have inside := reader.inside
  have positive := List.length_pos_iff.mpr present
  simp only [skipBlock, List.length_drop]
  omega

end LogReader

/-- Whether the record belongs to this log; `false` is the end of a recycled file. -/
def checkFormat (header : Bytes) (typeByte : UInt8) (recyclable : Bool) : Except MeruError Bool :=
  let shown := hex typeByte.toNat
  match format with
  | .legacy =>
    if recyclable then
      .error (.corruption s!"recyclable record type {shown} in non-recyclable log")
    else .ok true
  | .recyclable logNumber =>
    if recyclable then .ok (ofLe (header.drop 7) = logNumber.toNat)
    else .error (.corruption s!"non-recyclable record type {shown} in recyclable log")

def readPhysicalRecord (start : LogReader) :
    Except MeruError (Option (RecordType × Bytes × LogReader)) :=
  let reader := start.align format
  let header := reader.rest.take format.headerSize
  if header = [] then .ok none
  else if header.length < format.headerSize then .error (.corruption "truncated WAL header")
  else
    let storedCrc := ofLe (header.take 4)
    let length := ofLe ((header.drop 4).take 2)
    let typeByte := (header.drop 6).headD 0
    if storedCrc = 0 ∧ length = 0 ∧ typeByte = 0 then readPhysicalRecord reader.skipBlock
    else
      match fromByte typeByte with
      | none =>
        let shown := hex typeByte.toNat
        .error (.corruption s!"unknown record type {shown}")
      | some (type, recyclable) => do
          let current ← checkFormat format header typeByte recyclable
          if current = false then return none
          else
            let payload := (reader.rest.drop format.headerSize).take length
            let got := payload.length
            let computedCrc := (crc (typeByte :: payload)).toNat
            let stored := hex storedCrc
            let computed := hex computedCrc
            if got < length then
              .error (.corruption s!"truncated WAL payload: need {length}, got {got}")
            else if computedCrc ≠ storedCrc then
              .error (.corruption s!"WAL CRC mismatch: stored {stored}, computed {computed}")
            else return some (type, payload, reader.advance (format.headerSize + length))
termination_by start.rest.length
decreasing_by
  refine lt_of_lt_of_le (LogReader.skipBlock_lt fun empty => ?_)
    (start.align_suffix format).length_le
  rename_i present _ _
  exact present (by simp only [header, reader, empty, List.take_nil])

theorem readPhysicalRecord_suffix {start next : LogReader}
    (read : readPhysicalRecord crc format start = .ok (some (type, payload, next))) :
    payload ++ next.rest <:+ start.rest ∧ (payload ++ next.rest).length < start.rest.length := by
  fun_induction readPhysicalRecord crc format start with
  | case1 => cases read
  | case2 => cases read
  | case3 start reader header present whole storedCrc length typeByte zero ih =>
    have skipped := reader.skipBlock_suffix.trans (start.align_suffix format)
    exact ⟨(ih read).1.trans skipped, lt_of_lt_of_le (ih read).2 skipped.length_le⟩
  | case4 => cases read
  | case5 start reader header present whole storedCrc length typeByte zero type' recyclable known =>
    obtain ⟨current, _, read⟩ := Except.bind_eq_ok.mp read
    split at read
    · cases read
    · dsimp only at read
      split at read
      · cases read
      · split at read <;> cases read
        have aligned : reader.rest <:+ start.rest := start.align_suffix format
        have behind : (reader.rest.drop format.headerSize).take length ++
            reader.rest.drop (format.headerSize + length) = reader.rest.drop format.headerSize := by
          rw [← List.drop_drop, List.take_append_drop]
        have size := headerSize_bounds format
        have left : 0 < reader.rest.length := by
          refine List.length_pos_iff.mpr fun empty => present ?_
          simp only [header, empty, List.take_nil]
        simp only [LogReader.advance, behind]
        refine ⟨(List.drop_suffix _ _).trans aligned, lt_of_lt_of_le ?_ aligned.length_le⟩
        rw [List.length_drop]
        omega

theorem readPhysicalRecord_lt {start next : LogReader}
    (read : readPhysicalRecord crc format start = .ok (some (type, payload, next))) :
    next.rest.length < start.rest.length := by
  refine lt_of_le_of_lt ?_ (readPhysicalRecord_suffix _ _ read).2
  rw [List.length_append]
  exact Nat.le_add_left _ _

/-- What a physical record makes of the fragments before it. -/
inductive Assembled where
  | whole (payload : Bytes)
  | part (front : Bytes)
  | broken (message : String)

def assemble : RecordType → Option Bytes → Bytes → Assembled
  | .full, none, payload => .whole payload
  | .full, some _, _ => .broken "Full record while assembling fragment"
  | .first, none, payload => .part payload
  | .first, some _, _ => .broken "First record while already in fragment"
  | .middle, none, _ => .broken "Middle record without First"
  | .middle, some front, payload => .part (front ++ payload)
  | .last, none, _ => .broken "Last record without First"
  | .last, some front, payload => .whole (front ++ payload)

/-- `next_record` with the fragments read so far; no item is the end of the log. -/
def nextRecord (reader : LogReader) (assembled : Option Bytes) :
    Option (Except MeruError Bytes × LogReader) :=
  match _ : readPhysicalRecord crc format reader with
  | .error _ => none
  | .ok none => none
  | .ok (some (type, payload, next)) =>
    match assemble type assembled payload with
    | .whole payload => some (.ok payload, next)
    | .part front => nextRecord next (some front)
    | .broken message => some (.error (.corruption message), next)
termination_by reader.rest.length
decreasing_by exact readPhysicalRecord_lt _ _ (by assumption)

theorem nextRecord_lt {reader next : LogReader} {assembled : Option Bytes}
    {item : Except MeruError Bytes}
    (read : nextRecord crc format reader assembled = some (item, next)) :
    next.rest.length < reader.rest.length := by
  fun_induction nextRecord crc format reader assembled with
  | case1 | case2 => cases read
  | case3 | case5 =>
    cases read
    exact readPhysicalRecord_lt _ _ (by assumption)
  | case4 _ _ _ _ _ found _ _ ih => exact (ih read).trans (readPhysicalRecord_lt _ _ found)

/-- The items of `records`. -/
def records (reader : LogReader) : List (Except MeruError Bytes) :=
  match _ : nextRecord crc format reader none with
  | none => []
  | some (item, next) => item :: records next
termination_by reader.rest.length
decreasing_by exact nextRecord_lt _ _ (by assumption)

end Format

section Unfold

variable {crc : Bytes → UInt32} {format : LogFormat} {reader next : LogReader}

theorem nextRecord_of_read {assembled : Option Bytes} {type : RecordType} {payload : Bytes}
    (read : readPhysicalRecord crc format reader = .ok (some (type, payload, next))) :
    nextRecord crc format reader assembled =
      match assemble type assembled payload with
      | .whole payload => some (.ok payload, next)
      | .part front => nextRecord crc format next (some front)
      | .broken message => some (.error (.corruption message), next) := by
  rw [nextRecord]
  split
  all_goals
    rename_i found
    rw [read] at found
    cases found
  rfl

/-- What stops the reader without an item. -/
def Stops (crc : Bytes → UInt32) (format : LogFormat) (reader : LogReader) : Prop :=
  readPhysicalRecord crc format reader = .ok none ∨
    ∃ error, readPhysicalRecord crc format reader = .error error

theorem nextRecord_of_stops (stops : Stops crc format reader)
    (assembled : Option Bytes) : nextRecord crc format reader assembled = none := by
  rw [nextRecord]
  rcases stops with read | ⟨error, read⟩
  · split <;> simp_all
  · split <;> simp_all

theorem records_of_some {item : Except MeruError Bytes}
    (read : nextRecord crc format reader none = some (item, next)) :
    records crc format reader = item :: records crc format next := by
  rw [records]
  split
  all_goals
    rename_i found
    rw [read] at found
    cases found
  rfl

theorem records_of_none (read : nextRecord crc format reader none = none) :
    records crc format reader = [] := by
  rw [records]
  split
  · rfl
  · rename_i found
    rw [read] at found
    cases found

end Unfold

section Header

variable {crc : Bytes → UInt32} {format : LogFormat} {type : RecordType} {payload : Bytes}

theorem header_length : (header crc format type payload).length = format.headerSize := by
  cases format <;> simp [header, LogFormat.logNumberBytes, LogFormat.headerSize, toLe_length]

theorem header_drop_crc : (header crc format type payload).drop 4 =
    toLe 2 payload.length ++ (format.typeByte type :: format.logNumberBytes) :=
  List.drop_left' (toLe_length _ _)

theorem header_drop_length :
    (header crc format type payload).drop 6 = format.typeByte type :: format.logNumberBytes := by
  have shift : (header crc format type payload).drop 6 =
      ((header crc format type payload).drop 4).drop 2 := by rw [List.drop_drop]
  rw [shift, header_drop_crc]
  exact List.drop_left' (toLe_length _ _)

theorem ofLe_header_crc : ofLe ((header crc format type payload).take 4) =
    (crc (format.typeByte type :: payload)).toNat := by
  rw [header, List.take_left' (toLe_length _ _)]
  exact ofLe_toLe (lt_of_lt_of_eq (UInt32.toNat_lt _) (by decide))

theorem ofLe_header_length (small : payload.length < 2 ^ 16) :
    ofLe (((header crc format type payload).drop 4).take 2) = payload.length := by
  rw [header_drop_crc, List.take_left' (toLe_length _ _)]
  exact ofLe_toLe (lt_of_lt_of_eq small (by decide))

theorem typeByte_ne_zero : format.typeByte type ≠ 0 := by
  cases format with
  | legacy => exact type.byte_ne_zero
  | recyclable logNumber =>
    change type.byte + 4 ≠ 0
    cases type <;> decide

theorem checkFormat_header : ∃ recyclable,
    fromByte (format.typeByte type) = some (type, recyclable) ∧
      checkFormat format (header crc format type payload) (format.typeByte type) recyclable =
        .ok true := by
  cases format with
  | legacy =>
    refine ⟨false, ?_, rfl⟩
    cases type <;> rfl
  | recyclable logNumber =>
    refine ⟨true, by cases type <;> rfl, ?_⟩
    have number : (header crc (.recyclable logNumber) type payload).drop 7 =
        toLe 4 logNumber.toNat := by
      have shift : (header crc (.recyclable logNumber) type payload).drop 7 =
          ((header crc (.recyclable logNumber) type payload).drop 6).drop 1 := by
        rw [List.drop_drop]
      rw [shift, header_drop_length]
      rfl
    have same : ofLe (toLe 4 logNumber.toNat) = logNumber.toNat :=
      ofLe_toLe (lt_of_lt_of_eq (UInt32.toNat_lt _) (by decide))
    simp [checkFormat, number, same]

end Header

section Read

variable {crc : Bytes → UInt32} {format : LogFormat} {type : RecordType} {fragment : Bytes}
  {reader : LogReader} {body : Bytes}

section

variable (small : fragment.length < 2 ^ 16)
  (fits : reader.blockOffset + format.headerSize ≤ blockSize)
include small fits

theorem readPhysicalRecord_header (rest : reader.rest = header crc format type fragment ++ body) :
    (body.length < fragment.length → Stops crc format reader) ∧
    (∀ tail, body = fragment ++ tail → readPhysicalRecord crc format reader =
      .ok (some (type, fragment, reader.advance (format.headerSize + fragment.length)))) := by
  have length : (header crc format type fragment).length = format.headerSize := header_length
  have size := headerSize_bounds format
  have aligned : reader.align format = reader := if_neg (by omega)
  have front : reader.rest.take format.headerSize = header crc format type fragment := by
    rw [rest, ← length, List.take_left]
  have back : reader.rest.drop format.headerSize = body := by
    rw [rest, ← length, List.drop_left]
  have present : header crc format type fragment ≠ [] := by
    rw [← List.length_pos_iff, length]
    omega
  have byte : ((header crc format type fragment).drop 6).headD 0 = format.typeByte type := by
    rw [header_drop_length, List.headD_cons]
  obtain ⟨recyclable, known, checked⟩ := @checkFormat_header crc format type fragment
  constructor
  · intro short
    right
    rw [readPhysicalRecord]
    simp only [aligned, front, back, if_neg present, length, lt_irrefl, if_false, byte,
      ofLe_header_length small, typeByte_ne_zero, and_false, known, checked, bind, Except.bind]
    rw [if_neg (by simp), if_pos]
    · exact ⟨_, rfl⟩
    · rw [List.length_take]
      omega
  · rintro tail rfl
    rw [readPhysicalRecord]
    simp only [aligned, front, back, if_neg present, length, lt_irrefl, if_false, byte,
      ofLe_header_length small, ofLe_header_crc, typeByte_ne_zero, and_false, known, checked, bind,
      Except.bind, List.take_left, ne_eq, not_true_eq_false]
    rfl

theorem readPhysicalRecord_take {tail : Bytes} {count : Nat}
    (rest : reader.rest = (header crc format type fragment ++ (fragment ++ tail)).take count) :
    (count < format.headerSize + fragment.length → Stops crc format reader) ∧
    (format.headerSize + fragment.length ≤ count → ∃ next,
      readPhysicalRecord crc format reader = .ok (some (type, fragment, next)) ∧
        next.rest = tail.take (count - (format.headerSize + fragment.length)) ∧
        next.blockOffset =
          (reader.blockOffset + (format.headerSize + fragment.length)) % blockSize) := by
  have length : (header crc format type fragment).length = format.headerSize := header_length
  by_cases whole : format.headerSize ≤ count
  · have split : reader.rest = header crc format type fragment ++
        (fragment ++ tail).take (count - format.headerSize) := by
      rw [rest, List.take_append, List.take_of_length_le (by omega), length]
    obtain ⟨cut, complete⟩ := readPhysicalRecord_header small fits split
    constructor
    · intro short
      refine cut ?_
      rw [List.length_take]
      omega
    · intro enough
      have behind : (fragment ++ tail).take (count - format.headerSize) =
          fragment ++ tail.take (count - (format.headerSize + fragment.length)) := by
        rw [List.take_append, List.take_of_length_le (by omega), Nat.sub_sub]
      refine ⟨_, complete _ behind, ?_, rfl⟩
      rw [LogReader.advance, split, behind, ← List.drop_drop, ← length, List.drop_left,
        List.drop_left]
  · refine ⟨fun _ => ?_, fun enough => absurd enough (by omega)⟩
    have size := headerSize_bounds format
    have aligned : reader.align format = reader := if_neg (by omega)
    have short : (reader.rest.take format.headerSize).length = count := by
      rw [rest, List.length_take, List.length_take, List.length_append, length]
      omega
    rw [Stops, readPhysicalRecord]
    simp only [aligned]
    split
    · exact .inl rfl
    · rw [if_pos (by omega)]
      exact .inr ⟨_, rfl⟩

end

theorem stops_of_empty (empty : reader.rest = []) : Stops crc format reader := by
  left
  have nothing : (reader.align format).rest = [] :=
    List.suffix_nil.mp (empty ▸ reader.align_suffix format)
  rw [readPhysicalRecord]
  simp [nothing]

theorem align_take {blockOffset count : Nat} (bounded : blockOffset ≤ blockSize)
    (offset : reader.blockOffset = blockOffset % blockSize)
    (rest : reader.rest = (padding format blockOffset ++ body).take count) :
    (reader.align format).rest = body.take (count - (padding format blockOffset).length) ∧
      (reader.align format).blockOffset = headerOffset format blockOffset := by
  have size := headerSize_bounds format
  have block : blockSize = 32768 := rfl
  by_cases padded : blockSize - blockOffset < format.headerSize
  · have zeros : padding format blockOffset = List.replicate (blockSize - blockOffset) 0 :=
      if_pos padded
    have moved : headerOffset format blockOffset = 0 := if_pos padded
    rcases Nat.lt_or_eq_of_le bounded with inside | rfl
    · rw [Nat.mod_eq_of_lt inside] at offset
      have skipped : reader.align format = reader.skipBlock := if_pos (by rw [offset]; exact padded)
      rw [skipped, moved]
      refine ⟨?_, rfl⟩
      have width : (padding format blockOffset).length = blockSize - reader.blockOffset := by
        rw [zeros, List.length_replicate, offset]
      rw [LogReader.skipBlock, rest, List.drop_take, ← width, List.drop_left]
    · rw [Nat.mod_self] at offset
      have here : reader.align format = reader := if_neg (by omega)
      have nothing : padding format blockSize =
        [] := by rw [zeros, Nat.sub_self, List.replicate_zero]
      rw [here, moved, rest, nothing, offset]
      exact ⟨rfl, rfl⟩
  · rw [Nat.mod_eq_of_lt (by omega)] at offset
    have here : reader.align format = reader := if_neg (by rw [offset]; exact padded)
    have nothing : padding format blockOffset = [] := if_neg padded
    have stays : headerOffset format blockOffset = blockOffset := if_neg padded
    rw [here, rest, nothing, stays, offset]
    exact ⟨rfl, rfl⟩

theorem align_align (reader : LogReader) :
    (reader.align format).align format = reader.align format := by
  have size := headerSize_bounds format
  have block : blockSize = 32768 := rfl
  unfold LogReader.align
  split
  · rw [if_neg]
    simp only [LogReader.skipBlock]
    omega
  · rfl

theorem readPhysicalRecord_align (reader : LogReader) :
    readPhysicalRecord crc format (reader.align format) = readPhysicalRecord crc format reader := by
  rw [readPhysicalRecord, align_align, ← readPhysicalRecord]

end Read

section Record

variable {crc : Bytes → UInt32} {format : LogFormat}

theorem take_capacity_lt (blockOffset : Nat) (remaining : Bytes) :
    (remaining.take (capacity format blockOffset)).length < 2 ^ 16 := by
  have short : (remaining.take (capacity format blockOffset)).length ≤
    capacity format blockOffset :=
    List.length_take_le _ _
  have block : blockSize = 32768 := rfl
  rw [capacity] at short
  rw [capacity]
  omega

theorem readPhysicalRecord_round {reader : LogReader} {type : RecordType} {blockOffset count : Nat}
    {remaining tail : Bytes} (bounded : blockOffset ≤ blockSize)
    (offset : reader.blockOffset = blockOffset % blockSize)
    (rest : reader.rest = (padding format blockOffset ++
      (header crc format type (remaining.take (capacity format blockOffset)) ++
        (remaining.take (capacity format blockOffset) ++ tail))).take count) :
    (count < (padding format blockOffset).length + (format.headerSize +
        (remaining.take (capacity format blockOffset)).length) → Stops crc format reader) ∧
    ((padding format blockOffset).length + (format.headerSize +
        (remaining.take (capacity format blockOffset)).length) ≤ count → ∃ next,
      readPhysicalRecord crc format reader =
          .ok (some (type, remaining.take (capacity format blockOffset), next)) ∧
        next.rest = tail.take (count - ((padding format blockOffset).length + (format.headerSize +
          (remaining.take (capacity format blockOffset)).length))) ∧
        next.blockOffset = nextOffset format blockOffset remaining % blockSize) := by
  obtain ⟨aligned, here⟩ := align_take bounded offset rest
  have size := headerSize_bounds format
  have inside := headerOffset_inside format blockOffset
  obtain ⟨cut, complete⟩ := readPhysicalRecord_take (take_capacity_lt blockOffset remaining)
    (by rw [here]; exact inside) aligned
  rw [readPhysicalRecord_align, here] at complete
  rw [Stops, readPhysicalRecord_align] at cut
  refine ⟨fun short => cut (by omega), fun enough => ?_⟩
  obtain ⟨next, read, left, moved⟩ := complete (by omega)
  exact ⟨next, read, by rw [left, Nat.sub_sub], moved⟩

theorem written_nil (blockOffset : Nat) (isFirst : Bool) :
    written crc format blockOffset [] isFirst = ([], blockOffset) := by
  rw [written, addRecord, if_pos rfl]
  rfl

theorem written_round {blockOffset : Nat} {remaining : Bytes} (isFirst : Bool)
    (nonempty : remaining ≠ []) :
    written crc format blockOffset remaining isFirst =
      (padding format blockOffset ++
        (header crc format (fragmentType isFirst
            (remaining.drop (capacity format blockOffset)).isEmpty)
          (remaining.take (capacity format blockOffset)) ++
        (remaining.take (capacity format blockOffset) ++
          (written crc format (nextOffset format blockOffset remaining)
            (remaining.drop (capacity format blockOffset)) false).1)),
      (written crc format (nextOffset format blockOffset remaining)
        (remaining.drop (capacity format blockOffset)) false).2) := by
  have zeros : sunk (if blockSize - blockOffset < format.headerSize then
      [⟨padding format blockOffset, 0⟩] else []) = padding format blockOffset := by
    rw [padding]
    split
    · exact List.append_nil _
    · rfl
  rw [written, addRecord, if_neg nonempty, offsetAfter_append]
  refine Prod.ext ?_ rfl
  rw [sunk] at zeros
  simp only [sunk, List.flatMap_append, zeros, List.flatMap_cons]
  rfl

/-- What the reader makes of a record and the bytes behind it if `count` bytes are there: one that
is cut off stops it, and behind a whole one it stands where the writer does. -/
structure Returned (crc : Bytes → UInt32) (format : LogFormat) (reader : LogReader)
    (assembled : Option Bytes) (written : Bytes × Nat) (payload tail : Bytes) (count : Nat) :
    Prop where
  cut : count < written.1.length → nextRecord crc format reader assembled = none
  complete : written.1.length ≤ count → ∃ next,
    nextRecord crc format reader assembled = some (.ok payload, next) ∧
      next.rest = tail.take (count - written.1.length) ∧
      next.blockOffset = written.2 % blockSize

theorem nextRecord_take {reader : LogReader} {blockOffset count : Nat} {remaining tail : Bytes}
    (assembled : Option Bytes) (bounded : blockOffset ≤ blockSize) (nonempty : remaining ≠ [])
    (offset : reader.blockOffset = blockOffset % blockSize)
    (rest : reader.rest =
      ((written crc format blockOffset remaining assembled.isNone).1 ++ tail).take count) :
    Returned crc format reader assembled
      (written crc format blockOffset remaining assembled.isNone)
      (assembled.getD [] ++ remaining) tail count := by
  induction measure : rounds format blockOffset remaining using Nat.strong_induction_on
    generalizing reader blockOffset count remaining assembled with
  | _ size ih =>
    have whole := List.take_append_drop (capacity format blockOffset) remaining
    have smaller := @rounds_decrease format blockOffset remaining nonempty
    rw [written_round _ nonempty] at rest ⊢
    rw [List.append_assoc, List.append_assoc, List.append_assoc] at rest
    obtain ⟨cut, complete⟩ := readPhysicalRecord_round bounded offset rest
    have length : ∀ type, (header crc format type
        (remaining.take (capacity format blockOffset))).length = format.headerSize :=
      fun _ => header_length
    by_cases done : remaining.drop (capacity format blockOffset) = []
    · rw [done, List.append_nil] at whole
      rw [done, written_nil] at complete ⊢
      constructor
      · intro short
        refine nextRecord_of_stops (cut ?_) assembled
        simpa [length] using short
      · intro enough
        obtain ⟨next, read, left, moved⟩ := complete (by simpa [length] using enough)
        refine ⟨next, ?_, ?_, moved⟩
        · rw [nextRecord_of_read read, whole]
          cases assembled <;> rfl
        · simpa [length] using left
    · have unfinished : (remaining.drop (capacity format blockOffset)).isEmpty = false :=
        List.isEmpty_eq_false_iff.mpr done
      rw [unfinished] at complete ⊢
      have parts : ∀ payload, assemble (fragmentType assembled.isNone false) assembled payload =
          .part (assembled.getD [] ++ payload) := by
        cases assembled <;> exact fun _ => rfl
      by_cases reached : (padding format blockOffset).length + (format.headerSize +
          (remaining.take (capacity format blockOffset)).length) ≤ count
      · obtain ⟨next, read, left, moved⟩ := complete reached
        have later := ih _ (measure ▸ smaller)
          (some (assembled.getD [] ++ remaining.take (capacity format blockOffset))) nextOffset_le
          done moved left rfl
        rw [Option.getD_some, List.append_assoc, whole] at later
        have step := @nextRecord_of_read crc format reader next assembled _ _ read
        rw [parts] at step
        constructor
        · intro short
          rw [step]
          refine later.cut ?_
          simp only [List.length_append, length] at short
          change count - _ < (written crc format _ _ false).1.length
          omega
        · intro enough
          simp only [List.length_append, length] at enough ⊢
          obtain ⟨final, found, behind, stands⟩ := later.complete (by
            change (written crc format _ _ false).1.length ≤ _
            omega)
          refine ⟨final, step.trans found, ?_, stands⟩
          rw [behind, Nat.sub_sub]
          congr 2
          simp only [Option.isNone_some]
          omega
      · constructor
        · exact fun _ => nextRecord_of_stops (cut (by omega)) assembled
        · intro enough
          simp only [List.length_append, length] at enough
          omega

end Record

section Log

variable (crc : Bytes → UInt32) (format : LogFormat)

/-- `add_record` on the file. -/
def add (writer : LogWriter) (payload : Bytes) : LogWriter :=
  ⟨writer.file ++ (written crc format writer.blockOffset payload true).1,
    (written crc format writer.blockOffset payload true).2⟩

def logAfter (payloads : List Bytes) : LogWriter := payloads.foldl (add crc format) LogWriter.empty

/-- The payloads whose record ends within the first `count` bytes of the file. -/
def endingFrom (writer : LogWriter) (payloads : List Bytes) (count : Nat) : List Bytes :=
  (payloads.zipIdx.filter fun item =>
    ((payloads.take (item.2 + 1)).foldl (add crc format) writer).file.length ≤ count).map Prod.fst

variable {crc format}

theorem written_le {blockOffset : Nat} {remaining : Bytes} {isFirst : Bool}
    (bounded : blockOffset ≤ blockSize) :
    (written crc format blockOffset remaining isFirst).2 ≤ blockSize := by
  rw [written]
  fun_induction addRecord crc format blockOffset remaining isFirst with
  | case1 => exact bounded
  | case2 _ _ _ _ _ _ _ _ ih =>
    rw [offsetAfter_append]
    exact ih nextOffset_le

theorem foldl_add_file (writer : LogWriter) (payloads : List Bytes) :
    writer.file <+: (payloads.foldl (add crc format) writer).file := by
  induction payloads generalizing writer with
  | nil => exact List.prefix_rfl
  | cons payload rest ih =>
    exact (List.prefix_append _ _).trans (ih (add crc format writer payload))

theorem endingFrom_cons (writer : LogWriter) (payload : Bytes) (payloads : List Bytes)
    (count : Nat) : endingFrom crc format writer (payload :: payloads) count =
      if (add crc format writer payload).file.length ≤ count then
        payload :: endingFrom crc format (add crc format writer payload) payloads count
      else endingFrom crc format (add crc format writer payload) payloads count := by
  have later : ((payloads.zipIdx 1).filter fun item =>
      (((payload :: payloads).take (item.2 + 1)).foldl (add crc format) writer).file.length ≤
        count).map Prod.fst =
      endingFrom crc format (add crc format writer payload) payloads count := by
    rw [List.zipIdx_succ, List.filter_map, List.map_map]
    rfl
  rw [endingFrom, List.zipIdx_cons, List.filter_cons, ← later]
  by_cases within : (add crc format writer payload).file.length ≤ count
  · rw [if_pos within, if_pos (by simpa using within)]
    rfl
  · rw [if_neg within, if_neg (by simpa using within)]

theorem endingFrom_eq_nil {writer : LogWriter} {count : Nat} (short : count < writer.file.length)
    (payloads : List Bytes) : endingFrom crc format writer payloads count = [] := by
  rw [endingFrom, List.map_eq_nil_iff, List.filter_eq_nil_iff]
  intro item _
  have longer := (@foldl_add_file crc format writer (payloads.take (item.2 + 1))).length_le
  simp only [decide_eq_true_eq]
  omega

/-- From a writer on: a reader that stands where it stood returns the payloads that end within the
bytes that are there. -/
theorem records_foldl_add {writer : LogWriter} {payloads : List Bytes} {reader : LogReader}
    {count : Nat} (bounded : writer.blockOffset ≤ blockSize)
    (nonempty : ∀ payload ∈ payloads, payload ≠ [])
    (offset : reader.blockOffset = writer.blockOffset % blockSize)
    (rest : reader.rest = ((payloads.foldl (add crc format) writer).file.drop
      writer.file.length).take count) :
    records crc format reader =
      (endingFrom crc format writer payloads (writer.file.length + count)).map .ok := by
  induction payloads generalizing writer reader count with
  | nil =>
    rw [List.foldl_nil, List.drop_length, List.take_nil] at rest
    exact records_of_none (nextRecord_of_stops (stops_of_empty rest) none)
  | cons payload payloads ih =>
    have first := List.forall_mem_cons.mp nonempty
    have added : (add crc format writer payload).file.length = writer.file.length +
        (written crc format writer.blockOffset payload true).1.length := List.length_append
    have split : ((payload :: payloads).foldl (add crc format) writer).file.drop
        writer.file.length = (written crc format writer.blockOffset payload true).1 ++
          (payloads.foldl (add crc format) (add crc format writer payload)).file.drop
            (add crc format writer payload).file.length := by
      obtain ⟨tail, final⟩ := @foldl_add_file crc format (add crc format writer payload) payloads
      rw [List.foldl_cons, ← final, List.drop_left]
      simp only [add, List.append_assoc, List.drop_left]
    rw [split] at rest
    obtain ⟨cut, complete⟩ := nextRecord_take none bounded first.1 offset rest
    rw [endingFrom_cons, added]
    by_cases enough : (written crc format writer.blockOffset payload true).1.length ≤ count
    · obtain ⟨next, read, left, stands⟩ := complete enough
      have later := @ih (add crc format writer payload) next _ (written_le bounded) first.2
        stands left
      have same : (add crc format writer payload).file.length +
          (count - (written crc format writer.blockOffset payload true).1.length) =
            writer.file.length + count := by omega
      rw [records_of_some read, if_pos (by omega), List.map_cons, later]
      simp only [Option.isNone_none, same]
      rfl
    · rw [records_of_none (cut (Nat.not_le.mp enough)), if_neg (by omega),
        endingFrom_eq_nil (by omega)]
      rfl

end Log

/-- The payloads whose last byte is among the first `count` bytes of the log. -/
def endingWithin (crc : Bytes → UInt32) (format : LogFormat) (payloads : List Bytes) (count : Nat) :
    List Bytes :=
  (payloads.zipIdx.filter fun item =>
    (logAfter crc format (payloads.take (item.2 + 1))).file.length ≤ count).map Prod.fst

/-- The first `count` bytes of a log give the payloads that end within them, and no error. -/
theorem log_prefix_yields (crc : Bytes → UInt32) (format : LogFormat) (payloads : List Bytes)
    (nonempty : ∀ payload ∈ payloads, payload ≠ []) (count : Nat) :
    records crc format (.start ((logAfter crc format payloads).file.take count)) =
      (endingWithin crc format payloads count).map .ok := by
  have whole := @records_foldl_add crc format LogWriter.empty payloads
    (.start ((logAfter crc format payloads).file.take count)) count (Nat.zero_le _) nonempty rfl rfl
  rw [show LogWriter.empty.file.length + count = count from Nat.zero_add count] at whole
  exact whole

theorem log_prefix_yields_sample :
    (∀ payload ∈ [[1, 2], [3]], payload ≠ ([] : Bytes)) ∧
      records (fun _ => 0) (.recyclable 5)
          (.start ((logAfter (fun _ => 0) (.recyclable 5) [[1, 2], [3]]).file.take 20)) =
        (endingWithin (fun _ => 0) (.recyclable 5) [[1, 2], [3]] 20).map .ok :=
  ⟨by decide, log_prefix_yields (fun _ => 0) (.recyclable 5) [[1, 2], [3]] (by decide) 20⟩

/-- The payloads up to the first error. -/
def untilError : List (Except MeruError Bytes) → List Bytes
  | .ok payload :: rest => payload :: untilError rest
  | _ => []

end Merutable.Wal.Physical
