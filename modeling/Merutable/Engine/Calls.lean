import Merutable.Engine.Steps
import Merutable.Foundation.Runs

/-! The calls of the engine as the steps they take when nothing runs between them. -/

namespace Merutable

namespace Calls

/-- A write inside the WAL lock. -/
def write (records : List (UserKey × EntryValue)) : List Action :=
  [.write (.allocate records), .write .append, .write .apply, .write .publish]

/-- The writer's cache invalidation for `keys` keys and its return, as the first one waiting. -/
def invalidate (keys : Nat) : List Action :=
  (List.replicate keys [.post (.bump 0), .post (.pop 0)]).flatten ++ [.post (.ret 0)]

def rotate : List Action :=
  [.rotate .lock, .rotate .readSeq, .rotate .sealActive, .rotate .rotateWal]

/-- `run_flush` on a memtable with records. -/
def runFlush : List Action :=
  [.flush .pick, .flush .resolve, .flush .commit, .flush .install, .flush (.mark []), .flush .drop]

/-- One compaction job on `level`. -/
def runJob (job level : Nat) : List Action :=
  [.job job (.pick level), .job job .merge, .job job .commit, .job job .install, .job job .clear,
    .job job .enqueue, .job job .release]

end Calls

/-- A put of a one-column row under a one-byte key. -/
def putByte (key value : UInt8) : UserKey × EntryValue :=
  (.ofByte key, .put ⟨[some (.bytes [value])]⟩)

/-- The state after the actions on a freshly created table. -/
def runFrom (config : Config) (actions : List Action) : Option System :=
  Foundation.execute (step config) (.initial config) actions

/-- The state the actions lead to on the small table. -/
def finalPlain (actions : List Action) : System :=
  Foundation.final (step .plain) (.initial .plain) actions

end Merutable
