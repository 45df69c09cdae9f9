import Merutable.Foundation.Tiling
import Merutable.Iceberg.Manifest

/-! Row lineage: the row ids that a run of manifests hands out. -/

namespace Merutable.Iceberg

open Foundation

namespace ManifestEntry

/-- Where the row ids of the file start, once it has some. -/
def rowStart (entry : ManifestEntry) : Int := entry.firstRowId.getD 0

def rowCount (entry : ManifestEntry) : Nat := entry.fileMeta.numRows.toNat

def rowIds (entry : ManifestEntry) : Set Int :=
  Set.Ico entry.rowStart (entry.rowStart + entry.rowCount)

/-- The row count survives the cast to `i64`. -/
def Countable (entry : ManifestEntry) : Prop := entry.rowCount < 2 ^ 63

instance decidableCountable (entry : ManifestEntry) : Decidable entry.Countable :=
  inferInstanceAs (Decidable (_ < _))

/-- The later entry is the earlier one carried on: the same file, with its row ids if it had any. -/
structure Carries (new old : ManifestEntry) : Prop where
  path : new.path = old.path
  rowCount : new.rowCount = old.rowCount
  kept : ∀ id, old.firstRowId = some id → new.firstRowId = some id

instance carries_refl : Std.Refl Carries := ⟨fun _ => ⟨rfl, rfl, fun _ known => known⟩⟩

instance carries_trans : IsTrans ManifestEntry Carries where
  trans _ _ _ second first :=
    ⟨second.path.trans first.path, second.rowCount.trans first.rowCount,
      fun id known => second.kept id (first.kept id known)⟩

end ManifestEntry

/-- The entries that got their row ids on the way from the carried entries to the next manifest's:
those that had none, and those without a predecessor. -/
def assigned : List ManifestEntry → List ManifestEntry → List ManifestEntry
  | old :: olds, new :: news =>
    if old.firstRowId.isNone then new :: assigned olds news else assigned olds news
  | _, news => news

/-- The later entries carry on some of the earlier ones, in order, or were added since. -/
def Carried (earlier later : Manifest) : Prop :=
  ∃ carried added, later.entries = carried ++ added ∧
    List.SublistForall₂ ManifestEntry.Carries carried earlier.entries ∧
    ∀ entry ∈ added, ∃ id, entry.firstRowId = some id ∧ earlier.nextRowId ≤ id

/-- The arguments of one call of `apply`. -/
structure ApplyCall where
  stamp : Stamp
  txn : SnapshotTransaction
  newSnapshotId : Int
  locations : List (FilePath × DvLocation)

namespace ApplyCall

def apply (call : ApplyCall) (checked : Bool) (manifest : Manifest) : Except MeruError Manifest :=
  manifest.apply checked call.stamp call.txn call.newSnapshotId call.locations

/-- The row counts of the added files agree with their metadata. -/
def Counted (call : ApplyCall) : Prop :=
  ∀ add ∈ call.txn.adds, add.numRows = add.fileMeta.numRows

instance decidableCounted (call : ApplyCall) : Decidable call.Counted :=
  inferInstanceAs (Decidable (∀ add ∈ call.txn.adds, _))

/-- No cast and no addition of the call leaves `i64`: it succeeds with overflow checks too. -/
structure Fits (call : ApplyCall) (manifest : Manifest) : Prop where
  countable : ∀ add ∈ call.txn.adds, add.numRows.toNat < 2 ^ 63
  unpanicked : ∃ next, call.apply true manifest = .ok next

end ApplyCall

/-- A sequence of calls of `apply`, with all entries that got their row ids in it. -/
inductive Lineage (checked : Bool) (start : Manifest) :
    List ApplyCall → List ManifestEntry → Manifest → Prop
  | start : Lineage checked start [] [] start
  | apply {calls : List ApplyCall} {call : ApplyCall} {given : List ManifestEntry}
      {manifest next : Manifest} (before : Lineage checked start calls given manifest)
      (counted : call.Counted) (fits : call.Fits manifest)
      (done : call.apply checked manifest = .ok next) :
      Lineage checked start (calls ++ [call])
        (given ++ assigned (manifest.kept call.txn) next.entries) next

section Assigned

variable {olds news added : List ManifestEntry}

theorem assigned_map {f : ManifestEntry → ManifestEntry}
    (same : ∀ entry, (f entry).firstRowId = entry.firstRowId) :
    assigned (olds.map f) news = assigned olds news := by
  induction olds generalizing news with
  | nil => cases news <;> rfl
  | cons old olds ih =>
    cases news with
    | nil => rfl
    | cons new news => simp only [List.map_cons, assigned, same, ih]

theorem assigned_append (sized : olds.length = news.length) :
    assigned olds (news ++ added) = assigned olds news ++ added := by
  induction olds generalizing news with
  | nil =>
    cases news with
    | nil => cases added <;> rfl
    | cons new news => cases sized
  | cons old olds ih =>
    cases news with
    | nil => cases sized
    | cons new news =>
      simp only [List.cons_append, assigned, ih (Nat.succ.inj sized)]
      split <;> rfl

theorem assigned_sublist : (assigned olds news).Sublist news := by
  induction olds generalizing news with
  | nil => cases news <;> exact List.Sublist.refl _
  | cons old olds ih =>
    cases news with
    | nil => exact .refl _
    | cons new news =>
      simp only [assigned]
      split
      · exact ih.cons_cons new
      · exact ih.cons new

theorem mem_assigned {r : ManifestEntry → ManifestEntry → Prop} (all : List.Forall₂ r olds news) :
    ∀ new ∈ news, (∃ old ∈ olds, r old new ∧ old.firstRowId.isSome) ∨ new ∈ assigned olds news := by
  induction all with
  | nil => simp
  | @cons old first olds news here _ ih =>
    simp only [List.forall_mem_cons, assigned]
    cases known : old.firstRowId with
    | none =>
      simp only [Option.isNone_none, if_true, List.mem_cons]
      refine ⟨.inr (.inl trivial), fun new member => ?_⟩
      rcases ih new member with ⟨source, inOlds, related⟩ | inside
      · exact .inl ⟨source, .inr inOlds, related⟩
      · exact .inr (.inr inside)
    | some id =>
      simp only [Option.isNone_some, Bool.false_eq_true, if_false, List.mem_cons]
      refine ⟨.inl ⟨old, .inl rfl, here, by simp [known]⟩, fun new member => ?_⟩
      rcases ih new member with ⟨source, inOlds, related⟩ | inside
      · exact .inl ⟨source, .inr inOlds, related⟩
      · exact .inr inside

end Assigned

variable {cursor last : Int}

theorem inheritRowIds_tiles {olds news : List ManifestEntry}
    (countable : ∀ old ∈ olds, old.Countable)
    (inherited : Manifest.inheritRowIds true cursor olds = .ok (news, last)) :
    Tiles ManifestEntry.rowStart ManifestEntry.rowCount cursor (assigned olds news) last := by
  induction olds generalizing cursor news with
  | nil =>
    cases inherited
    exact .nil _
  | cons old olds ih =>
    rw [List.forall_mem_cons] at countable
    cases known : old.firstRowId with
    | some id =>
      simp only [Manifest.inheritRowIds, known, Except.bind_eq_ok] at inherited
      obtain ⟨⟨rest, _⟩, later, value⟩ := inherited
      cases value
      simpa [assigned, known] using ih countable.2 later
    | none =>
      simp only [Manifest.inheritRowIds, known, Except.bind_eq_ok] at inherited
      obtain ⟨next, sum, ⟨rest, _⟩, later, value⟩ := inherited
      cases value
      have onward := ih countable.2 later
      rw [addI64_checked sum, asI64_of_lt countable.1] at onward
      simp only [assigned, known, Option.isNone_none, if_true]
      exact .cons rfl onward

theorem addFiles_tiles {adds : List IcebergDataFile} {added : List ManifestEntry}
    (counted : ∀ add ∈ adds, add.numRows = add.fileMeta.numRows)
    (countable : ∀ add ∈ adds, add.numRows.toNat < 2 ^ 63)
    (done : Manifest.addFiles true cursor adds = .ok (added, last)) :
    Tiles ManifestEntry.rowStart ManifestEntry.rowCount cursor added last := by
  induction adds generalizing cursor added with
  | nil =>
    cases done
    exact .nil _
  | cons add adds ih =>
    rw [List.forall_mem_cons] at counted countable
    simp only [Manifest.addFiles, Except.bind_eq_ok] at done
    obtain ⟨next, sum, ⟨rest, _⟩, later, value⟩ := done
    cases value
    have onward := ih counted.2 countable.2 later
    rw [addI64_checked sum, asI64_of_lt countable.1, counted.1] at onward
    exact .cons rfl onward

section Step

variable {checked : Bool} {call : ApplyCall} {manifest next : Manifest}

theorem ApplyCall.Fits.applied (fits : call.Fits manifest)
    (done : call.apply checked manifest = .ok next) :
    Manifest.Applied manifest true call.txn call.locations next := by
  obtain ⟨other, checkedDone⟩ := fits.unpanicked
  have same := (Manifest.apply_unchecked checkedDone).symm.trans done
  rw [Except.ok.inj same] at checkedDone
  exact Manifest.apply_eq_ok checkedDone

theorem apply_tiles (countable : ∀ entry ∈ manifest.entries, entry.Countable)
    (counted : call.Counted) (fits : call.Fits manifest)
    (done : call.apply checked manifest = .ok next) :
    Tiles ManifestEntry.rowStart ManifestEntry.rowCount manifest.nextRowId
      (assigned (manifest.kept call.txn) next.entries) next.nextRowId := by
  obtain ⟨inherited, cursor, added, carried, adds, whole⟩ := (fits.applied done).entries
  have sized := (Manifest.inheritRowIds_inherits carried).length_eq
  rw [← assigned_map (Manifest.stampVector_firstRowId), whole, assigned_append sized]
  refine (inheritRowIds_tiles ?_ carried).append (addFiles_tiles counted fits.countable adds)
  intro old member
  obtain ⟨entry, inKept, rfl⟩ := List.mem_map.mp member
  have small := countable entry (List.mem_of_mem_filter inKept)
  simpa [ManifestEntry.Countable, ManifestEntry.rowCount] using small

theorem ApplyCall.carries (done : call.apply checked manifest = .ok next) :
    ∃ inherited added, next.entries = inherited ++ added ∧
      List.Forall₂ (fun old new => ManifestEntry.Carries new old ∧ new.firstRowId.isSome)
        (manifest.kept call.txn) inherited ∧
      List.Forall₂ (fun add entry => ∃ id, entry = Manifest.addedEntry id add) call.txn.adds
        added := by
  obtain ⟨inherited, added, whole, olds, adds⟩ := (Manifest.apply_eq_ok done).parts
  refine ⟨inherited, added, whole, olds.imp fun old new inherits => ?_, adds⟩
  have same := inherits.same
  refine ⟨⟨?_, ?_, fun id known => inherits.kept id ?_⟩, inherits.numbered⟩
  · rw [same, Manifest.stampVector_path]
  · rw [same, ManifestEntry.rowCount, Manifest.stampVector_numRows, ManifestEntry.rowCount]
  · rw [Manifest.stampVector_firstRowId, known]

theorem apply_numbered (done : call.apply checked manifest = .ok next) :
    ∀ entry ∈ next.entries, entry.firstRowId.isSome := by
  obtain ⟨inherited, added, whole, olds, adds⟩ := ApplyCall.carries done
  rw [whole]
  refine List.forall_mem_append.mpr ⟨fun entry member => ?_, fun entry member => ?_⟩
  · obtain ⟨old, _, _, numbered⟩ := exists_left_of_forall₂ olds entry member
    exact numbered
  · obtain ⟨add, _, id, rfl⟩ := exists_left_of_forall₂ adds entry member
    rfl

theorem apply_countable (countable : ∀ entry ∈ manifest.entries, entry.Countable)
    (counted : call.Counted) (fits : call.Fits manifest)
    (done : call.apply checked manifest = .ok next) :
    ∀ entry ∈ next.entries, entry.Countable := by
  obtain ⟨inherited, added, whole, olds, adds⟩ := ApplyCall.carries done
  rw [whole]
  refine List.forall_mem_append.mpr ⟨fun entry member => ?_, fun entry member => ?_⟩
  · obtain ⟨old, inKept, carries, _⟩ := exists_left_of_forall₂ olds entry member
    rw [ManifestEntry.Countable, carries.rowCount]
    exact countable old (List.mem_of_mem_filter inKept)
  · obtain ⟨add, inAdds, id, rfl⟩ := exists_left_of_forall₂ adds entry member
    have small := fits.countable add inAdds
    rwa [counted add inAdds] at small

theorem apply_assigned (done : call.apply checked manifest = .ok next) :
    ∀ entry ∈ next.entries,
      (∃ old ∈ manifest.entries, old.firstRowId.isSome ∧ entry.Carries old) ∨
        entry ∈ assigned (manifest.kept call.txn) next.entries := by
  obtain ⟨inherited, added, whole, olds, adds⟩ := ApplyCall.carries done
  rw [whole, assigned_append olds.length_eq]
  refine List.forall_mem_append.mpr ⟨fun entry member => ?_, fun entry member => ?_⟩
  · rcases mem_assigned olds entry member with ⟨old, inKept, related, known⟩ | inside
    · exact .inl ⟨old, List.mem_of_mem_filter inKept, known, related.1⟩
    · exact .inr (List.mem_append_left _ inside)
  · exact .inr (List.mem_append_right _ member)

end Step

theorem sublistForall₂_append {A B : Type} {r : A → B → Prop} {items : List A} {front back : List B}
    (all : List.SublistForall₂ r items (front ++ back)) :
    ∃ first second, items = first ++ second ∧ List.SublistForall₂ r first front ∧
      List.SublistForall₂ r second back := by
  obtain ⟨sources, related, inside⟩ := List.sublistForall₂_iff.mp all
  obtain ⟨left, right, rfl, inFront, inBack⟩ := List.sublist_append_iff.mp inside
  refine ⟨items.take left.length, items.drop left.length, (List.take_append_drop _ _).symm, ?_, ?_⟩
  · exact List.sublistForall₂_iff.mpr ⟨left, List.forall₂_take_append _ _ _ related, inFront⟩
  · exact List.sublistForall₂_iff.mpr ⟨right, List.forall₂_drop_append _ _ _ related, inBack⟩

theorem Carried.refl (manifest : Manifest) : Carried manifest manifest :=
  ⟨manifest.entries, [], by simp, Std.Refl.refl _, by simp⟩

/-- What a sequence of calls leaves true of the manifest it ends in. -/
structure Kept (start : Manifest) (calls : List ApplyCall) (given : List ManifestEntry)
    (last : Manifest) : Prop where
  countable : ∀ entry ∈ last.entries, entry.Countable
  tiles : Tiles ManifestEntry.rowStart ManifestEntry.rowCount start.nextRowId given last.nextRowId
  numbered : ∀ entry ∈ given, entry.firstRowId.isSome
  carried : Carried start last
  sequenceNumber : last.sequenceNumber = start.sequenceNumber + calls.length

section Run

variable {checked : Bool} {start middle last : Manifest} {calls later : List ApplyCall}
  {given since : List ManifestEntry}

theorem carried_step {call : ApplyCall} {manifest next : Manifest}
    (carried : Carried start manifest) (ahead : start.nextRowId ≤ manifest.nextRowId)
    (countable : ∀ entry ∈ manifest.entries, entry.Countable)
    (counted : call.Counted) (fits : call.Fits manifest)
    (done : call.apply checked manifest = .ok next) : Carried start next := by
  obtain ⟨known, fresh, entries, sources, above⟩ := carried
  obtain ⟨inherited, added, whole, olds, adds⟩ := ApplyCall.carries done
  have kept : List.SublistForall₂ ManifestEntry.Carries inherited (known ++ fresh) := by
    refine List.sublistForall₂_iff.mpr ⟨manifest.kept call.txn, ?_, ?_⟩
    · exact (olds.imp fun _ _ related => related.1).flip
    · rw [← entries]
      exact List.filter_sublist
  obtain ⟨first, second, rfl, firsts, seconds⟩ := sublistForall₂_append kept
  refine ⟨first, second ++ added, by rw [whole, List.append_assoc],
        IsTrans.trans _ _ _ firsts sources, ?_⟩
  refine List.forall_mem_append.mpr ⟨fun entry member => ?_, fun entry member => ?_⟩
  · obtain ⟨sources, related, inside⟩ := List.sublistForall₂_iff.mp seconds
    obtain ⟨old, inSources, carries⟩ := exists_left_of_forall₂ related.flip entry member
    obtain ⟨id, assignedId, bound⟩ := above old (inside.subset inSources)
    exact ⟨id, carries.kept id assignedId, bound⟩
  · obtain ⟨add, _, id, rfl⟩ := exists_left_of_forall₂ adds entry member
    have tiles := apply_tiles countable counted fits done
    rw [whole, assigned_append olds.length_eq] at tiles
    exact ⟨id, rfl, ahead.trans (tiles.bounds _ (List.mem_append_right _ member)).1⟩

theorem Lineage.kept (countable : ∀ entry ∈ start.entries, entry.Countable)
    (run : Lineage checked start calls given last) : Kept start calls given last := by
  induction run with
  | start => exact ⟨countable, .nil _, by simp, .refl start, by simp⟩
  | @apply calls call given manifest next before counted fits done ih =>
    have tiles := apply_tiles ih.countable counted fits done
    refine ⟨apply_countable ih.countable counted fits done, ih.tiles.append tiles, ?_, ?_, ?_⟩
    · exact List.forall_mem_append.mpr ⟨ih.numbered, fun entry member =>
        apply_numbered done entry (assigned_sublist.subset member)⟩
    · exact carried_step ih.carried ih.tiles.le ih.countable counted fits done
    · have counter := addI64_checked (fits.applied done).sequenceNumber
      rw [counter, ih.sequenceNumber, List.length_append, List.length_singleton]
      omega

theorem Lineage.append (before : Lineage checked start calls given middle)
    (after : Lineage checked middle later since last) :
    Lineage checked start (calls ++ later) (given ++ since) last := by
  induction after with
  | start => simpa using before
  | apply _ counted fits done ih =>
    rw [← List.append_assoc, ← List.append_assoc]
    exact .apply ih counted fits done

theorem Lineage.recorded (unassigned : ∀ entry ∈ start.entries, entry.firstRowId = none)
    (run : Lineage checked start calls given last) :
    ∀ entry ∈ last.entries, entry.firstRowId.isSome → ∃ known ∈ given, entry.Carries known := by
  induction run with
  | start =>
    intro entry member known
    simp [unassigned entry member] at known
  | @apply calls call given manifest next before counted fits done ih =>
    intro entry member _
    rcases apply_assigned done entry member with ⟨old, inside, known, carries⟩ | inside
    · obtain ⟨source, inGiven, earlier⟩ := ih old inside known
      exact ⟨source, List.mem_append_left _ inGiven, IsTrans.trans _ _ _ carries earlier⟩
    · exact ⟨entry, List.mem_append_right _ inside, Std.Refl.refl entry⟩

/-- Row ids are given out once: those of all entries that ever got some are disjoint and lie below
the cursor, an entry keeps them for as long as it is carried on, and the counters only grow. -/
theorem row_ids_given_once (unassigned : ∀ entry ∈ start.entries, entry.firstRowId = none)
    (countable : ∀ entry ∈ start.entries, entry.Countable)
    (before : Lineage checked start calls given middle)
    (after : Lineage checked middle later since last) :
    ((given ++ since).Pairwise fun one other => Disjoint one.rowIds other.rowIds) ∧
      (∀ entry ∈ given ++ since,
        ∃ id, entry.firstRowId = some id ∧ id + entry.rowCount ≤ last.nextRowId) ∧
      (∀ entry ∈ last.entries, entry.firstRowId.isSome →
        ∃ known ∈ given ++ since, entry.Carries known) ∧
      Carried middle last ∧
      (later ≠ [] → middle.sequenceNumber < last.sequenceNumber) ∧
      middle.nextRowId ≤ last.nextRowId := by
  have whole := before.append after
  have kept := whole.kept countable
  have keptSince := after.kept (before.kept countable).countable
  refine ⟨kept.tiles.disjoint, fun entry member => ?_, whole.recorded unassigned,
    keptSince.carried, fun some => ?_, keptSince.tiles.le⟩
  · obtain ⟨id, known⟩ := Option.isSome_iff_exists.mp (kept.numbered entry member)
    have inside := (kept.tiles.bounds entry member).2
    rw [ManifestEntry.rowStart, known] at inside
    exact ⟨id, known, inside⟩
  · have positive := List.length_pos_iff.mpr some
    have counter := keptSince.sequenceNumber
    omega

end Run

namespace Sample

/-- A manifest from before row lineage, with one file of two rows. -/
def upgraded : Manifest :=
  { Manifest.empty schema stamp with
    entries := [⟨file "a.parquet", fileMeta 2, none, none, none, "existing", none⟩] }

def adding : ApplyCall := ⟨stamp, ⟨[add "b.parquet" 3], [], [], ∅, List.nodup_nil⟩, 1, []⟩

def dropping : ApplyCall :=
  ⟨stamp, ⟨[add "c.parquet" 1], [file "b.parquet"], [], ∅, List.nodup_nil⟩, 2, []⟩

def after (call : ApplyCall) (manifest : Manifest) : Manifest :=
  match call.apply true manifest with
  | .ok next => next
  | .error _ => manifest

end Sample

open Sample in
/-- An upgraded file, one added and dropped again, and one added after it. -/
theorem row_ids_given_once_upgrade :
    (after dropping (after adding upgraded)).entries.map (fun e => (e.path.name, e.firstRowId)) =
        [("a.parquet", some 0), ("c.parquet", some 5)] ∧
      Carried (after adding upgraded) (after dropping (after adding upgraded)) := by
  have first : Lineage true upgraded ([] ++ [adding]) _ (after adding upgraded) :=
    .apply .start (by decide) ⟨by decide, _, rfl⟩ rfl
  have second : Lineage true (after adding upgraded) ([] ++ [dropping]) _
      (after dropping (after adding upgraded)) := .apply .start (by decide) ⟨by decide, _, rfl⟩ rfl
  have result := row_ids_given_once (by decide) (by decide) first second
  exact ⟨by decide, result.2.2.2.1⟩

end Merutable.Iceberg
