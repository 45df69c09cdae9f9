import Merutable.Wal.Batch

/-! The sink calls of a log writer: `wal::format` and the part of `wal::writer` that both record
formats share. -/

namespace Merutable.Wal

def blockSize : Nat := 32768

inductive RecordType where
  | full
  | first
  | middle
  | last
  deriving DecidableEq

def RecordType.byte : RecordType → UInt8
  | .full => 1
  | .first => 2
  | .middle => 3
  | .last => 4

theorem RecordType.byte_ne_zero (type : RecordType) : type.byte ≠ 0 := by
  cases type <;> decide

/-- A call of the sink, with the block offset of the writer once it has succeeded. -/
structure SinkWrite where
  bytes : Bytes
  blockOffset : Nat
  deriving DecidableEq

def fragmentType (isFirst isLast : Bool) : RecordType :=
  match isFirst, isLast with
  | true, true => .full
  | true, false => .first
  | false, true => .last
  | false, false => .middle

/-- The log file and the block offset the writer believes to be at. -/
structure LogWriter where
  file : Bytes
  blockOffset : Nat
  deriving DecidableEq

def LogWriter.empty : LogWriter := ⟨[], 0⟩

/-- The calls one after the other; `fault` is the number of the call that fails and how many of its
bytes reach the file. -/
def LogWriter.run : LogWriter → List SinkWrite → Option (Nat × Nat) → LogWriter
  | writer, [], _ => writer
  | writer, write :: _, some (0, persisted) =>
    { writer with file := writer.file ++ write.bytes.take persisted }
  | writer, write :: rest, some (call + 1, persisted) =>
    LogWriter.run ⟨writer.file ++ write.bytes, write.blockOffset⟩ rest (some (call, persisted))
  | writer, write :: rest, none =>
    LogWriter.run ⟨writer.file ++ write.bytes, write.blockOffset⟩ rest none

/-- The bytes of the calls, all of them successful. -/
def sunk (writes : List SinkWrite) : Bytes := writes.flatMap SinkWrite.bytes

/-- The block offset after them. -/
def offsetAfter : Nat → List SinkWrite → Nat
  | blockOffset, [] => blockOffset
  | _, write :: rest => offsetAfter write.blockOffset rest

theorem LogWriter.run_none (writer : LogWriter) (writes : List SinkWrite) :
    writer.run writes none =
      ⟨writer.file ++ sunk writes, offsetAfter writer.blockOffset writes⟩ := by
  induction writes generalizing writer with
  | nil => simp [LogWriter.run, sunk, offsetAfter]
  | cons write rest ih =>
    rw [LogWriter.run, ih]
    simp [sunk, offsetAfter]

theorem offsetAfter_append (blockOffset : Nat) (first second : List SinkWrite) :
    offsetAfter blockOffset (first ++ second) = offsetAfter
      (offsetAfter blockOffset first) second := by
  induction first generalizing blockOffset with
  | nil => rfl
  | cons write rest ih => exact ih write.blockOffset

end Merutable.Wal
