import Merutable.Engine.Config
import Merutable.Iceberg
import Merutable.Memtable

/-! `engine::read_path`: point lookup and range scan over a memtable snapshot and a pinned
version. -/

namespace Merutable.ReadPath

open Foundation

def rangeContains (file : DataFile) (key : UserKey) : Bool :=
  !(file.keyMin ≠ [] ∧ key.bytes < file.keyMin) && !(file.keyMax ≠ [] ∧ file.keyMax < key.bytes)

def getFrom (config : Config) (key : UserKey) (readSeq : Nat) (ref : DataFileMeta) : Option Entry :=
  Reader.get config.lib ref.file ref.deletedRows key readSeq

/-- Every level-0 file that may hold the key, newest first. -/
def probeL0 (config : Config) (version : Version) (key : UserKey) (readSeq : Nat) : Option Entry :=
  (version.filesAt 0).findSome? fun ref =>
    if rangeContains ref.file key then getFrom config key readSeq ref else none

/-- The covering file of each deeper level, from level 1 down. -/
def probeLevels (config : Config) (version : Version) (key : UserKey) (readSeq : Nat) :
    Option Entry :=
  (List.range version.maxLevel).findSome? fun index =>
    (version.findFileForKey (index + 1) key).bind (getFrom config key readSeq)

def probeFiles (config : Config) (version : Version) (key : UserKey) (readSeq : Nat) :
    Option Entry :=
  (probeL0 config version key readSeq).or (probeLevels config version key readSeq)

/-- The answer of a lookup that takes its three samples at these instants. -/
def pointLookup (config : Config) (memtables : MemtableManager) (version : Version)
    (key : UserKey) (readSeq : Nat) : Option Row :=
  match memtables.get key readSeq with
  | some entry => entry.value.row?
  | none => (probeFiles config version key readSeq).bind fun entry => entry.value.row?

/-- The file's key range does not exclude it from the scan. -/
def scanOverlaps (start stop : Option UserKey) (file : DataFile) : Bool :=
  !start.any (fun first => file.keyMax ≠ [] ∧ file.keyMax < first.bytes) &&
    !stop.any (fun bound => file.keyMin ≠ [] ∧ bound.bytes ≤ file.keyMin)

/-- What the scan collects: the memtable entries, newest memtable first, then every file. -/
def harvest (memtables : MemtableManager) (version : Version) (start stop : Option UserKey)
    (readSeq : Nat) : List Entry :=
  ((memtables.snapshotEntries readSeq).flatten.filter fun entry =>
    Reader.inRange start stop entry.key) ++
  ((List.range (version.maxLevel + 1)).flatMap version.filesAt).flatMap fun ref =>
    if scanOverlaps start stop ref.file then Reader.scan ref.file start stop readSeq ref.deletedRows
    else []

/-- The topmost version of every key in range, keys whose topmost version is a delete left out. -/
def rangeScan (memtables : MemtableManager) (version : Version) (start stop : Option UserKey)
    (readSeq : Nat) : List Entry :=
  (keepFirst Entry.key none (Entry.sort (harvest memtables version start stop readSeq))).filter
    fun entry => entry.value.opType ≠ .delete

end Merutable.ReadPath
