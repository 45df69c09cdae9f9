import Mathlib.Logic.Basic

/-! A directory of named files. A file whose write has failed halfway is there without its
content. -/

namespace Merutable.Foundation

variable {N C : Type} [DecidableEq N]

/-- The files by name; the content of a torn file is `none`. -/
structure Files (N C : Type) where
  listed : List (N × Option C)
  deriving DecidableEq

/-- What a failed write leaves of the file. -/
inductive Residue where
  | untouched
  | torn
  | complete
  deriving DecidableEq

namespace Files

def empty : Files N C := ⟨[]⟩

/-- `none` if there is no such file. -/
def read (files : Files N C) (name : N) : Option (Option C) := files.listed.lookup name

def put (files : Files N C) (name : N) (content : Option C) : Files N C :=
  ⟨(name, content) :: files.listed⟩

def write (files : Files N C) (name : N) (content : C) : Files N C := files.put name (some content)

def writeFailed (files : Files N C) (name : N) (content : C) : Residue → Files N C
  | .untouched => files
  | .torn => files.put name none
  | .complete => files.write name content

/-- Removes the files that `gone` holds for. -/
def remove (files : Files N C) (gone : N → Bool) : Files N C :=
  ⟨files.listed.filter fun file => !gone file.1⟩

def isEmpty (files : Files N C) : Bool := files.listed.isEmpty

@[simp] theorem read_write (files : Files N C) (name : N) (content : C) :
    (files.write name content).read name = some (some content) := by
  simp [read, write, put]

theorem read_put_of_ne {files : Files N C} {name other : N} (different : other ≠ name)
    (content : Option C) : (files.put name content).read other = files.read other := by
  simp [read, put, List.lookup_cons, beq_false_of_ne different]

theorem read_write_of_ne {files : Files N C} {name other : N} (different : other ≠ name)
    (content : C) : (files.write name content).read other = files.read other :=
  read_put_of_ne different _

theorem read_writeFailed_of_ne {files : Files N C} {name other : N} (different : other ≠ name)
    (content : C) (left : Residue) :
    (files.writeFailed name content left).read other = files.read other := by
  cases left with
  | untouched => rfl
  | torn | complete => exact read_put_of_ne different _

theorem read_remove {files : Files N C} {gone : N → Bool} {name : N} (kept : gone name = false) :
    (files.remove gone).read name = files.read name := by
  obtain ⟨listed⟩ := files
  simp only [read, remove]
  induction listed with
  | nil => rfl
  | cons file rest ih =>
    obtain ⟨own, content⟩ := file
    cases drops : gone own with
    | true =>
      have different : name ≠ own := by
        rintro rfl
        rw [kept] at drops
        cases drops
      simp [drops, List.lookup_cons, beq_false_of_ne different, ih]
    | false => simp [drops, List.lookup_cons, ih]

end Files

end Merutable.Foundation
