import Mathlib.Logic.Function.Basic
import Merutable.Engine.Cache
import Merutable.Engine.ReadPath
import Merutable.Foundation.Runs

/-! Point lookups on a read-only engine with an empty memtable, beside one caller of `refresh`. A
refresh that fails before the install changes nothing that lookups read. `RowCache::clear` advances
the counter before it takes the lock of the map; `insert_if_fresh` checks and inserts under it. -/

namespace Merutable

open Foundation

/-- The rest of `refresh` once the files of the new version have been checked. -/
inductive RefreshPhase where
  | idle
  | checked (version : Version)
  | visible (version : Version)
  | installed
  | bumped
  | cleared

/-- Versions are named by the order of their installs. A lookup is answered from the files, or from
the row cache with a row that was read from version `origin`. -/
inductive LookupPhase where
  | started (readSeq : Nat)
  | missed (readSeq : Nat)
  | stamped (readSeq generation : Nat)
  | pinned (readSeq generation version : Nat)
  | answered (origin : Option Nat)

/-- `returned` is the version of the last refresh that had returned when the lookup started. -/
structure PointLookup where
  key : UserKey
  returned : Nat
  phase : LookupPhase

/-- `origin` tells from which version the cached row of a key was read. -/
structure Refreshed where
  versions : List Version
  visibleSeq : Nat
  cache : RowCache
  origin : UserKey → Nat
  refresher : RefreshPhase
  returned : Nat
  lookups : List PointLookup

inductive RefreshedAction where
  | start (key : UserKey)
  | lookup (id : Nat)
  | load (version : Version)
  | refresh

namespace Refreshed

def opened (version : Version) (visibleSeq capacity : Nat) : Refreshed :=
  ⟨[version], visibleSeq, .new capacity, fun _ => 0, .idle, 0, []⟩

/-- The number of the installed version. -/
def latest (s : Refreshed) : Nat := s.versions.length - 1

/-- The next step of a lookup: the cache, the origins of its rows and the phase after it. -/
def advance (config : Config) (s : Refreshed) (key : UserKey) :
    LookupPhase → Option (RowCache × (UserKey → Nat) × LookupPhase)
  | .started readSeq =>
    match s.cache.lookup key with
    | some _ => some (s.cache.promote key, s.origin, .answered (some (s.origin key)))
    | none => some (s.cache, s.origin, .missed readSeq)
  | .missed readSeq => some (s.cache, s.origin, .stamped readSeq s.cache.generation)
  | .stamped readSeq generation =>
    some (s.cache, s.origin, .pinned readSeq generation s.latest)
  | .pinned readSeq generation version =>
    match s.versions[version]?.bind (ReadPath.probeFiles config · key readSeq) with
    | some entry => some (s.cache.insertIfFresh entry generation,
        if s.cache.generation = generation then Function.update s.origin entry.key version
        else s.origin, .answered none)
    | none => some (s.cache, s.origin, .answered none)
  | .answered _ => none

def refresh (s : Refreshed) : Option Refreshed :=
  match s.refresher with
  | .idle => none
  | .checked version => some { s with
      visibleSeq := max s.visibleSeq version.maxSeq, refresher := .visible version }
  | .visible version => some { s with
      versions := s.versions ++ [version], refresher := .installed }
  | .installed => some { s with cache := s.cache.bump, refresher := .bumped }
  | .bumped => some { s with cache := { s.cache with entries := [] }, refresher := .cleared }
  | .cleared => some { s with refresher := .idle, returned := s.latest }

def step (config : Config) (s : Refreshed) : RefreshedAction → Option Refreshed
  | .start key => some { s with lookups := s.lookups ++ [⟨key, s.returned, .started s.visibleSeq⟩] }
  | .lookup id => do
      let call ← s.lookups[id]?
      let (cache, origin, phase) ← s.advance config call.key call.phase
      some { s with cache, origin, lookups := s.lookups.set id { call with phase } }
  | .load version =>
    match s.refresher with
    | .idle => some { s with refresher := .checked version }
    | _ => none
  | .refresh => s.refresh

end Refreshed

/-- The least version that a row with the counter of the moment can come from. -/
def Refreshed.floor (s : Refreshed) : Nat :=
  match s.refresher with
  | .bumped | .cleared => s.latest
  | _ => s.returned

/-- What a lookup that is under way may put into the cache, and what it was answered with. -/
def Refreshed.LookupSound (s : Refreshed) (call : PointLookup) : Prop :=
  call.returned ≤ s.returned ∧
    match call.phase with
    | .stamped _ generation => generation ≤ s.cache.generation
    | .pinned _ generation version =>
      generation ≤ s.cache.generation ∧ (generation = s.cache.generation → s.floor ≤ version)
    | .answered (some origin) => call.returned ≤ origin
    | _ => True

structure Refreshed.Sound (s : Refreshed) : Prop where
  order : s.returned ≤ s.latest
  cached : ∀ entry ∈ s.cache.entries, s.returned ≤ s.origin entry.key
  clean : s.refresher = .cleared → ∀ entry ∈ s.cache.entries, s.latest ≤ s.origin entry.key
  lookups : ∀ call ∈ s.lookups, s.LookupSound call

namespace Refreshed

variable {config : Config} {s next : Refreshed} {origin : UserKey → Nat} {cache : RowCache}
  {call : PointLookup}

theorem Sound.floor_le (sound : s.Sound) : s.returned ≤ s.floor ∧ s.floor ≤ s.latest := by
  have order := sound.order
  unfold floor
  split <;> omega

/-- Rows that a step leaves in the cache are as they were, or come from a version above the
floor. -/
theorem advance_cached {key : UserKey} {phase after : LookupPhase} {returned : Nat}
    (sound : s.LookupSound ⟨key, returned, phase⟩)
    (stepped : s.advance config key phase = some (cache, origin, after)) :
    cache.generation = s.cache.generation ∧ ∀ entry ∈ cache.entries,
      (entry ∈ s.cache.entries ∧ origin entry.key = s.origin entry.key) ∨
        s.floor ≤ origin entry.key := by
  cases phase with
  | started readSeq =>
    simp only [advance] at stepped
    split at stepped <;> cases stepped
    · exact ⟨RowCache.promote_generation .., fun entry member =>
        .inl ⟨RowCache.mem_promote member, rfl⟩⟩
    · exact ⟨rfl, fun entry member => .inl ⟨member, rfl⟩⟩
  | missed readSeq =>
    cases stepped
    exact ⟨rfl, fun entry member => .inl ⟨member, rfl⟩⟩
  | stamped readSeq generation =>
    cases stepped
    exact ⟨rfl, fun entry member => .inl ⟨member, rfl⟩⟩
  | pinned readSeq generation version =>
    simp only [advance] at stepped
    split at stepped <;> cases stepped
    · rename_i filled _
      refine ⟨RowCache.insertIfFresh_generation .., fun entry member => ?_⟩
      split
      · rename_i fresh
        by_cases same : entry.key = filled.key
        · rw [same, Function.update_self]
          exact .inr (sound.2.2 fresh.symm)
        · rw [Function.update_of_ne same]
          rcases RowCache.mem_insertIfFresh member with old | ⟨rfl, _⟩
          · exact .inl ⟨old, rfl⟩
          · exact absurd rfl same
      · rename_i stale
        rcases RowCache.mem_insertIfFresh member with old | ⟨_, fresh⟩
        · exact .inl ⟨old, rfl⟩
        · exact absurd fresh stale
    · exact ⟨rfl, fun entry member => .inl ⟨member, rfl⟩⟩
  | answered origin => cases stepped

theorem advance_lookup {phase : LookupPhase} (sound : s.Sound) (member : call ∈ s.lookups)
    (stepped : s.advance config call.key call.phase = some (cache, origin, phase)) :
    s.LookupSound { call with phase } := by
  obtain ⟨key, returned, before⟩ := call
  obtain ⟨early, held⟩ := sound.lookups _ member
  refine ⟨early, ?_⟩
  cases before with
  | started readSeq =>
    simp only [advance] at stepped
    split at stepped <;> cases stepped
    · rename_i entry found
      obtain ⟨cached, rfl⟩ := RowCache.lookup_mem found
      exact early.trans (sound.cached entry cached)
    · trivial
  | missed readSeq =>
    cases stepped
    exact le_rfl
  | stamped readSeq generation =>
    cases stepped
    exact ⟨held, fun _ => sound.floor_le.2⟩
  | pinned readSeq generation version =>
    simp only [advance] at stepped
    split at stepped <;> cases stepped <;> trivial
  | answered origin => cases stepped

/-- A lookup stays sound while the counter stands and the floor does not rise, and when the counter
moves past every stamp. -/
theorem LookupSound.mono (sound : s.LookupSound call) (returned : s.returned ≤ next.returned)
    (counter : s.cache.generation ≤ next.cache.generation)
    (below : next.cache.generation = s.cache.generation → next.floor ≤ s.floor) :
    next.LookupSound call := by
  obtain ⟨key, since, phase⟩ := call
  obtain ⟨early, held⟩ := sound
  refine ⟨early.trans returned, ?_⟩
  cases phase with
  | started | missed => trivial
  | stamped readSeq generation => exact held.trans counter
  | pinned readSeq generation version =>
    refine ⟨held.1.trans counter, fun same => ?_⟩
    have still : generation = s.cache.generation := le_antisymm held.1 (same ▸ counter)
    exact (below (same.symm.trans still)).trans (held.2 still)
  | answered origin => cases origin <;> exact held

theorem refresh_sound (sound : s.Sound) (stepped : s.refresh = some next) : next.Sound := by
  have order := sound.order
  unfold refresh at stepped
  split at stepped
  · cases stepped
  all_goals
    rename_i phase
    cases stepped
  · exact ⟨order, sound.cached, nofun, fun call member =>
      (sound.lookups call member).mono le_rfl le_rfl fun _ => by simp [floor, phase]⟩
  · refine ⟨?_, sound.cached, nofun, fun call member =>
      (sound.lookups call member).mono le_rfl le_rfl fun _ => by simp [floor, phase]⟩
    simp only [latest, List.length_append, List.length_cons] at order ⊢
    omega
  · exact ⟨order, sound.cached, nofun, fun call member =>
      (sound.lookups call member).mono le_rfl (Nat.le_succ _) fun same =>
        absurd same (Nat.succ_ne_self _)⟩
  · exact ⟨order, nofun, fun _ => nofun, fun call member =>
      (sound.lookups call member).mono le_rfl le_rfl fun _ => by simp [floor, phase, latest]⟩
  · exact ⟨le_rfl, sound.clean phase, nofun, fun call member =>
      (sound.lookups call member).mono order le_rfl fun _ => by simp [floor, phase, latest]⟩

theorem step_sound {action : RefreshedAction} (sound : s.Sound)
    (stepped : step config s action = some next) : next.Sound := by
  cases action with
  | start key =>
    cases stepped
    refine ⟨sound.order, sound.cached, sound.clean, fun call member => ?_⟩
    rcases List.mem_append.mp member with old | new
    · exact sound.lookups call old
    · rw [List.mem_singleton.mp new]
      exact ⟨le_rfl, trivial⟩
  | lookup id =>
    obtain ⟨call, found, stepped⟩ := Option.bind_eq_some_iff.mp stepped
    obtain ⟨⟨cache, origin, phase⟩, advanced, stepped⟩ := Option.bind_eq_some_iff.mp stepped
    cases stepped
    have member := List.mem_of_getElem? found
    obtain ⟨counter, rows⟩ := advance_cached (sound.lookups call member) advanced
    refine ⟨sound.order, fun entry cached => ?_, fun cleared entry cached => ?_,
      fun other listed => ?_⟩
    · rcases rows entry cached with ⟨old, same⟩ | above
      · exact (sound.cached entry old).trans same.ge
      · exact sound.floor_le.1.trans above
    · rcases rows entry cached with ⟨old, same⟩ | above
      · exact (sound.clean cleared entry old).trans same.ge
      · have high : s.floor = s.latest := by rw [floor, show s.refresher = .cleared from cleared]
        exact high ▸ above
    · have held : s.LookupSound other := by
        rcases List.mem_or_eq_of_mem_set listed with old | rfl
        · exact sound.lookups other old
        · exact advance_lookup sound member advanced
      exact held.mono le_rfl counter.ge fun _ => le_rfl
  | load version =>
    simp only [step] at stepped
    split at stepped <;> cases stepped
    rename_i idle
    exact ⟨sound.order, sound.cached, nofun, fun call member =>
      (sound.lookups call member).mono le_rfl le_rfl fun _ => by simp [floor, idle]⟩
  | refresh => exact refresh_sound sound stepped

theorem opened_sound (version : Version) (visibleSeq capacity : Nat) :
    (opened version visibleSeq capacity).Sound :=
  ⟨le_rfl, nofun, nofun, nofun⟩

/-- A row that the cache answers with was read from a version that is at least as new as that of
the last refresh to return before the lookup started. -/
theorem cached_row_not_older (config : Config) (version : Version) (visibleSeq capacity : Nat)
    (actions : List RefreshedAction) (s : Refreshed)
    (run : Run (step config) (fun _ _ => True) (opened version visibleSeq capacity) actions s) :
    ∀ call ∈ s.lookups, ∀ origin, call.phase = .answered (some origin) →
      call.returned ≤ origin := by
  intro call member origin answered
  have sound : s.Sound := run.invariant _ (fun _ _ _ held _ stepped => step_sound held stepped)
    (opened_sound version visibleSeq capacity)
  have held := (sound.lookups call member).2
  rw [answered] at held
  exact held

/-- A version with one row is installed; the first lookup fills the cache for the second one. -/
def refilled : List RefreshedAction :=
  [.load ⟨1, [⟨⟨7, 0, 100, [⟨.ofByte 1, 5, .put ⟨[]⟩⟩], List.cons_ne_nil _ _,
      List.pairwise_singleton _ _⟩, none⟩]⟩,
    .refresh, .refresh, .refresh, .refresh, .refresh, .start (.ofByte 1), .lookup 0, .lookup 0,
    .lookup 0, .lookup 0, .start (.ofByte 1), .lookup 1]

theorem cached_row_not_older_refilled :
    let s := final (step .plain) (opened ⟨0, []⟩ 0 4) refilled
    ∃ call ∈ s.lookups, ∃ origin, call.phase = .answered (some origin) ∧
      call.returned ≤ origin := by
  intro s
  have ran : (execute (step .plain) (opened ⟨0, []⟩ 0 4) refilled).isSome := rfl
  have run := Run.of_execute (fun _ _ _ => trivial) (execute_final ran)
  have second : ⟨.ofByte 1, 1, .answered (some 1)⟩ ∈ s.lookups := .tail _ (.head _)
  exact ⟨_, second, 1, rfl, cached_row_not_older .plain ⟨0, []⟩ 0 4 refilled s run _ second 1 rfl⟩

end Refreshed

end Merutable
