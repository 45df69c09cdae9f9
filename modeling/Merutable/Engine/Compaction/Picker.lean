import Merutable.Engine.Compaction
import Merutable.Schema

/-! The choice of a compaction: `pick_compaction` of `engine::compaction::picker`. The scores are
floating-point numbers, of which nothing is assumed. -/

namespace Merutable.Compaction

/-- The operations on scores. -/
structure ScoreOps (F : Type) where
  zero : F
  one : F
  less : F → F → Bool
  ratio : Nat → Nat → F

/-- What the picker reads of a data file. -/
structure PickFile where
  path : Nat
  fileSize : Nat
  numRows : Nat
  seqMin : Nat
  deriving DecidableEq

structure PickConfig where
  l0CompactionTrigger : Nat
  l0SlowdownTrigger : Nat
  /-- Targets of the levels from 1 on. -/
  levelTargetBytes : List Nat
  maxCompactionBytes : Nat
  /-- `0` disables the limit. -/
  maxCompactionInputRows : Nat

structure CompactionPick (F : Type) where
  inputLevel : Nat
  outputLevel : Nat
  score : F
  inputFiles : List Nat

/-- Levels are 8-bit numbers: the next one panics on overflow in a checked build, and wraps
otherwise. -/
def nextLevel (checked : Bool) (level : Nat) : Except MeruError Nat := do
  okIf (checked = true → level < 255) .panicked
  return (level + 1) % 256

def levelIsFree (checked : Bool) (busy : List Nat) (level : Nat) : Except MeruError Bool :=
  if level ∈ busy then .ok false
  else do
    let next ← nextLevel checked level
    return decide (next ∉ busy)

/-- The best level so far. -/
structure Best (F : Type) where
  score : F
  level : Nat
  found : Bool

section Pick

variable {F : Type} (ops : ScoreOps F) (checked : Bool) (filesAt : Nat → List PickFile)
  (config : PickConfig) (busy : List Nat)

/-- The loop over the targets of the levels from 1 on. -/
def scanLevels : Nat → List Nat → Best F → Except MeruError (Best F)
  | _, [], best => .ok best
  | i, target :: rest, best => do
      let level := (i + 1) % 256
      let free ← levelIsFree checked busy level
      let score := ops.ratio ((filesAt level).map PickFile.fileSize).sum target
      if free ∧ 0 < target ∧ ops.less best.score score then
        scanLevels (i + 1) rest ⟨score, level, true⟩
      else scanLevels (i + 1) rest best

/-- The level to compact, if one needs it. -/
def bestLevel : Except MeruError (Option (Nat × F)) := do
  let l0Count := (filesAt 0).length
  let l0Score := ops.ratio l0Count config.l0CompactionTrigger
  let l0Free ← levelIsFree checked busy 0
  if config.l0SlowdownTrigger ≤ l0Count ∧ l0Free then return some (0, l0Score)
  else
    let first : Best F :=
      if ops.less ops.zero l0Score ∧ l0Free then ⟨l0Score, 0, true⟩ else ⟨ops.zero, 0, false⟩
    let best ← scanLevels ops checked filesAt busy 0 config.levelTargetBytes first
    if ¬ best.found ∨ ops.less best.score ops.one then return none
    else return some (best.level, best.score)

def wouldExceedRowCap (total rows : Nat) : Prop :=
  0 < config.maxCompactionInputRows ∧ config.maxCompactionInputRows < saturatingAdd total rows

instance (total rows : Nat) : Decidable (wouldExceedRowCap config total rows) := by
  unfold wouldExceedRowCap
  infer_instance

/-- The loop over the files of the level, with the totals of those taken so far. -/
def selectFiles : Nat → Nat → List PickFile → List PickFile → List PickFile
  | _, _, picked, [] => picked
  | bytes, rows, picked, file :: rest =>
    if picked ≠ [] ∧ (config.maxCompactionBytes < saturatingAdd bytes file.fileSize ∨
        wouldExceedRowCap config rows file.numRows) then picked
    else selectFiles (saturatingAdd bytes file.fileSize) (saturatingAdd rows file.numRows)
      (picked ++ [file]) rest

/-- Level 0 is taken oldest first, the other levels as they are stored. -/
def inputOrder (level : Nat) : List PickFile :=
  if level = 0 then (filesAt 0).insertionSort fun a b => a.seqMin ≤ b.seqMin else filesAt level

def pickCompaction : Except MeruError (Option (CompactionPick F)) := do
  match ← bestLevel ops checked filesAt config busy with
  | none => return none
  | some (level, score) =>
    let outputLevel ← nextLevel checked level
    let inputFiles := (selectFiles config 0 0 [] (inputOrder filesAt level)).map PickFile.path
    if inputFiles = [] then return none
    else return some ⟨level, outputLevel, score, inputFiles⟩

end Pick

/-- A running total of 64-bit numbers. -/
def saturatingSum (sizes : List Nat) : Nat := sizes.foldl saturatingAdd 0

/-- Bytes and rows, summed up by `total`, stay within the limits that are set. -/
def WithinCaps (total : List Nat → Nat) (config : PickConfig) (files : List PickFile) : Prop :=
  total (files.map PickFile.fileSize) ≤ config.maxCompactionBytes ∧
    (0 < config.maxCompactionInputRows →
      total (files.map PickFile.numRows) ≤ config.maxCompactionInputRows)

/-- The files taken are a non-empty prefix, of one file or within the limits, and the next file
would break one of them. -/
structure MaximalPrefix (total : List Nat → Nat) (config : PickConfig)
    (files taken rest : List PickFile) : Prop where
  split : files = taken ++ rest
  nonempty : taken ≠ []
  within : taken.length = 1 ∨ WithinCaps total config taken
  maximal : ∀ next, rest.head? = some next → ¬ WithinCaps total config (taken ++ [next])

section Spec

variable {F : Type} {ops : ScoreOps F} {checked : Bool} {filesAt : Nat → List PickFile}
  {config : PickConfig} {busy : List Nat} {level : Nat}

theorem levelIsFree_iff : levelIsFree checked busy level = .ok true ↔
    level ∉ busy ∧ ∃ next, nextLevel checked level = .ok next ∧ next ∉ busy := by
  unfold levelIsFree
  split
  · simp_all
  · rename_i idle
    rw [Except.bind_eq_ok]
    simp [idle, pure, Except.pure]

theorem scanLevels_free {i : Nat} {targets : List Nat} {best result : Best F}
    (start : best.found = true → levelIsFree checked busy best.level = .ok true)
    (scanned : scanLevels ops checked filesAt busy i targets best = .ok result) :
    result.found = true → levelIsFree checked busy result.level = .ok true := by
  induction targets generalizing i best with
  | nil =>
    cases scanned
    exact start
  | cons target rest ih =>
    obtain ⟨free, found, scanned⟩ := Except.bind_eq_ok.mp scanned
    dsimp only at scanned
    split at scanned
    · rename_i better
      refine ih ?_ scanned
      intro _
      rw [found, better.1]
    · exact ih start scanned

theorem bestLevel_free {score : F}
    (chosen : bestLevel ops checked filesAt config busy = .ok (some (level, score))) :
    levelIsFree checked busy level = .ok true := by
  obtain ⟨free, found, chosen⟩ := Except.bind_eq_ok.mp chosen
  dsimp only at chosen
  split at chosen
  · rename_i forced
    cases chosen
    rw [found, forced.2]
  · obtain ⟨best, scanned, chosen⟩ := Except.bind_eq_ok.mp chosen
    split at chosen
    · cases chosen
    · rename_i needed
      cases chosen
      refine scanLevels_free ?_ scanned (by simpa using fun missing => needed (.inl missing))
      split
      · rename_i better
        intro _
        rw [found, better.2]
      · intro never
        cases never

theorem saturatingSum_concat (sizes : List Nat) (size : Nat) :
    saturatingSum (sizes ++ [size]) = saturatingAdd (saturatingSum sizes) size := by
  simp [saturatingSum]

theorem saturatingSum_eq (sizes : List Nat) : saturatingSum sizes = min sizes.sum u64Max := by
  induction sizes using List.reverseRecOn with
  | nil => rfl
  | append_singleton sizes size ih =>
    rw [saturatingSum_concat, ih, saturatingAdd, List.sum_append, List.sum_singleton]
    omega

theorem withinCaps_exact {files : List PickFile} (bytes : config.maxCompactionBytes < u64Max)
    (rows : config.maxCompactionInputRows < u64Max) :
    WithinCaps saturatingSum config files ↔ WithinCaps List.sum config files := by
  simp only [WithinCaps, saturatingSum_eq]
  omega

theorem MaximalPrefix.exact {files taken rest : List PickFile}
    (front : MaximalPrefix saturatingSum config files taken rest)
    (bytes : config.maxCompactionBytes < u64Max) (rows : config.maxCompactionInputRows < u64Max) :
    MaximalPrefix List.sum config files taken rest where
  split := front.split
  nonempty := front.nonempty
  within := front.within.imp_right (withinCaps_exact bytes rows).mp
  maximal next following within :=
    front.maximal next following ((withinCaps_exact bytes rows).mpr within)

theorem withinCaps_concat {picked : List PickFile} {file : PickFile} :
    WithinCaps saturatingSum config (picked ++ [file]) ↔
      ¬ (config.maxCompactionBytes <
          saturatingAdd (saturatingSum (picked.map PickFile.fileSize)) file.fileSize ∨
        wouldExceedRowCap config (saturatingSum (picked.map PickFile.numRows)) file.numRows) := by
  simp only [WithinCaps, wouldExceedRowCap, List.map_append, List.map_cons, List.map_nil,
    saturatingSum_concat]
  omega

/-- The loop takes a prefix of the files, within the limits unless it is a single file, and stops
where the next file would break one. -/
theorem selectFiles_spec {picked files : List PickFile}
    (within : picked.length ≤ 1 ∨ WithinCaps saturatingSum config picked) :
    ∃ more rest, files = more ++ rest ∧
      selectFiles config (saturatingSum (picked.map PickFile.fileSize))
        (saturatingSum (picked.map PickFile.numRows)) picked files = picked ++ more ∧
      ((picked ++ more).length ≤ 1 ∨ WithinCaps saturatingSum config (picked ++ more)) ∧
      ∀ next, rest.head? = some next →
        ¬ WithinCaps saturatingSum config (picked ++ more ++ [next]) := by
  induction files generalizing picked with
  | nil => exact ⟨[], [], rfl, by simp [selectFiles], by simpa using within, by simp⟩
  | cons file rest ih =>
    by_cases full : picked ≠ [] ∧ (config.maxCompactionBytes <
        saturatingAdd (saturatingSum (picked.map PickFile.fileSize)) file.fileSize ∨
      wouldExceedRowCap config (saturatingSum (picked.map PickFile.numRows)) file.numRows)
    · refine ⟨[], file :: rest, rfl, ?_, by simpa using within, ?_⟩
      · rw [selectFiles, if_pos full, List.append_nil]
      · rintro next ⟨⟩
        rw [List.append_nil, withinCaps_concat]
        exact not_not.mpr full.2
    · have longer : (picked ++ [file]).length ≤ 1 ∨
          WithinCaps saturatingSum config (picked ++ [file]) := by
        by_cases first : picked = []
        · left
          simp [first]
        · right
          rw [withinCaps_concat]
          exact fun exceeds => full ⟨first, exceeds⟩
      obtain ⟨more, others, split, taken, small, maximal⟩ := ih longer
      refine ⟨file :: more, others, by rw [split, List.cons_append], ?_, by simpa using small,
        by simpa using maximal⟩
      rw [selectFiles, if_neg full]
      simpa [saturatingSum_concat] using taken

/-- What the picker reads of a file of the version. -/
def PickFile.of (ref : DataFileMeta) : PickFile :=
  ⟨ref.path, ref.file.fileSize, ref.file.numRows, ref.file.seqMin⟩

theorem selectFiles_of {engine : Config} {bytes rows : Nat} {picked : List PickFile}
    (sameBytes : config.maxCompactionBytes = engine.maxCompactionBytes)
    (sameRows : config.maxCompactionInputRows = engine.maxCompactionInputRows)
    (bytesCap : config.maxCompactionBytes < u64Max)
    (rowsCap : config.maxCompactionInputRows < u64Max) (files : List DataFileMeta) :
    selectFiles config (min bytes u64Max) (min rows u64Max) picked (files.map PickFile.of) =
      picked ++ (takeWithin engine bytes rows (picked ≠ []) files).map PickFile.of := by
  induction files generalizing bytes rows picked with
  | nil => simp [selectFiles, takeWithin]
  | cons ref rest ih =>
    have more : saturatingAdd (min bytes u64Max) ref.file.fileSize =
        min (bytes + ref.file.fileSize) u64Max := by
      unfold saturatingAdd
      omega
    have moreRows : saturatingAdd (min rows u64Max) ref.file.numRows =
        min (rows + ref.file.numRows) u64Max := by
      unfold saturatingAdd
      omega
    have full : (config.maxCompactionBytes < min (bytes + ref.file.fileSize) u64Max ∨
          0 < config.maxCompactionInputRows ∧
            config.maxCompactionInputRows < min (rows + ref.file.numRows) u64Max) ↔
        (engine.maxCompactionBytes < bytes + ref.file.fileSize ∨
          0 < engine.maxCompactionInputRows ∧
            engine.maxCompactionInputRows < rows + ref.file.numRows) := by
      rw [← sameBytes, ← sameRows]
      omega
    have later := @ih (bytes + ref.file.fileSize) (rows + ref.file.numRows)
      (picked ++ [PickFile.of ref])
    simp only [ne_eq, List.append_eq_nil_iff, List.cons_ne_self, and_false, not_false_eq_true,
      decide_true] at later
    simp only [List.map_cons, selectFiles, takeWithin, wouldExceedRowCap, PickFile.of, more,
      moreRows, full, decide_eq_true_eq]
    split
    · simp
    · rw [← PickFile.of, later]
      simp

theorem pickInputs_eq_selectFiles {engine : Config} {version : Version}
    (sameBytes : config.maxCompactionBytes = engine.maxCompactionBytes)
    (sameRows : config.maxCompactionInputRows = engine.maxCompactionInputRows)
    (bytesCap : config.maxCompactionBytes < u64Max)
    (rowsCap : config.maxCompactionInputRows < u64Max) (level : Nat) :
    (pickInputs engine version level).map PickFile.of =
      selectFiles config 0 0 [] (inputOrder (fun lvl =>
        (version.filesAt lvl).map PickFile.of) level) := by
  have order : inputOrder (fun lvl => (version.filesAt lvl).map PickFile.of) level =
      (if level = 0 then (version.filesAt 0).insertionSort fun a b => a.file.seqMin ≤ b.file.seqMin
        else version.filesAt level).map PickFile.of := by
    unfold inputOrder
    split
    · exact (List.map_insertionSort _ _ _ _ (by simp [PickFile.of])).symm
    · rfl
  rw [order, pickInputs]
  exact (@selectFiles_of config engine 0 0 [] sameBytes sameRows bytesCap rowsCap _).symm

end Spec

/-- A pick is a maximal prefix within the limits, on levels that no job holds. -/
theorem pick_is_maximal_prefix {F : Type} (ops : ScoreOps F) (checked : Bool)
    (filesAt : Nat → List PickFile) (config : PickConfig) (busy : List Nat)
    (pick : CompactionPick F)
    (returned : pickCompaction ops checked filesAt config busy = .ok (some pick)) :
    nextLevel checked pick.inputLevel = .ok pick.outputLevel ∧
      pick.inputLevel ∉ busy ∧ pick.outputLevel ∉ busy ∧
      ∃ taken rest, pick.inputFiles = taken.map PickFile.path ∧
        MaximalPrefix saturatingSum config (inputOrder filesAt pick.inputLevel) taken rest ∧
        (config.maxCompactionBytes < u64Max → config.maxCompactionInputRows < u64Max →
          MaximalPrefix List.sum config (inputOrder filesAt pick.inputLevel) taken rest) := by
  obtain ⟨chosen, best, returned⟩ := Except.bind_eq_ok.mp returned
  match chosen, best with
  | none, _ => cases returned
  | some (level, score), best =>
    obtain ⟨outputLevel, next, returned⟩ := Except.bind_eq_ok.mp returned
    obtain ⟨idle, following, below, free⟩ := levelIsFree_iff.mp (bestLevel_free best)
    obtain rfl : following = outputLevel := Except.ok.inj (below.symm.trans next)
    obtain ⟨taken, rest, split, selected, small, maximal⟩ :=
      @selectFiles_spec config [] (inputOrder filesAt level) (.inl (Nat.zero_le 1))
    dsimp only at returned
    split at returned
    · cases returned
    · rename_i nonempty
      cases returned
      change selectFiles config 0 0 [] (inputOrder filesAt level) = taken at selected
      rw [selected, List.map_eq_nil_iff] at nonempty
      have present := List.length_pos_iff.mpr nonempty
      have front : MaximalPrefix saturatingSum config (inputOrder filesAt level) taken rest := by
        refine ⟨split, nonempty, small.imp_left fun single => ?_, maximal⟩
        rw [List.nil_append] at single
        omega
      exact ⟨next, idle, free, taken, rest, by rw [selected], front, front.exact⟩

/-- Scores as fractions. -/
def fractions : ScoreOps (Nat × Nat) where
  zero := (0, 1)
  one := (1, 1)
  less a b := a.1 * b.2 < b.1 * a.2
  ratio := Prod.mk

/-- Three files of level 0, the oldest one stored last. -/
def sampleLevels : Nat → List PickFile
  | 0 => [⟨1, 300, 5, 20⟩, ⟨2, 500, 5, 30⟩, ⟨3, 600, 5, 10⟩]
  | _ => []

def sampleCaps : PickConfig := ⟨3, 20, [1000, 10000], 1000, 0⟩

theorem pick_is_maximal_prefix_sample :
    pickCompaction fractions true sampleLevels sampleCaps [2, 3] =
        .ok (some ⟨0, 1, (3, 3), [3, 1]⟩) ∧ nextLevel true 0 = .ok 1 ∧ 0 ∉ [2, 3] ∧ 1 ∉ [2, 3] ∧
      ∃ taken rest, [3, 1] = taken.map PickFile.path ∧
        MaximalPrefix saturatingSum sampleCaps (inputOrder sampleLevels 0) taken rest ∧
        (sampleCaps.maxCompactionBytes < u64Max → sampleCaps.maxCompactionInputRows < u64Max →
          MaximalPrefix List.sum sampleCaps (inputOrder sampleLevels 0) taken rest) :=
  ⟨rfl, pick_is_maximal_prefix fractions true sampleLevels sampleCaps [2, 3] ⟨0, 1, (3, 3), [3, 1]⟩
    rfl⟩

/-- Two files of more bytes together than a 64-bit number holds. -/
def hugeLevels : Nat → List PickFile
  | 0 => [⟨1, u64Max, 5, 10⟩, ⟨2, 1, 5, 20⟩]
  | _ => []

def largestCap : PickConfig := ⟨2, 20, [], u64Max, 0⟩

theorem saturated_pick_exceeds_cap :
    pickCompaction fractions true hugeLevels largestCap [] = .ok (some ⟨0, 1, (2, 2), [1, 2]⟩) ∧
      ¬ ∃ taken rest, [1, 2] = taken.map PickFile.path ∧
        MaximalPrefix List.sum largestCap (inputOrder hugeLevels 0) taken rest := by
  refine ⟨rfl, ?_⟩
  rintro ⟨taken, rest, paths, front⟩
  have both : taken.length = 2 := by simpa using (congrArg List.length paths).symm
  obtain rfl : taken = inputOrder hugeLevels 0 := by
    rw [List.prefix_iff_eq_take.mp ⟨rest, front.split.symm⟩, both]
    rfl
  rcases front.within with single | within
  · exact absurd single (by decide)
  · exact absurd within.1 (by decide)

end Merutable.Compaction
