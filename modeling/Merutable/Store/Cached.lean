import Mathlib.Logic.Function.Basic
import Merutable.Foundation.Runs
import Merutable.Types

/-! `store::cached`: a local cache of whole objects before another store. Each operation of the
inner store and each operation on a cache file is one step of a call; `tokio::fs::write` is two, the
creation of the file and the write into it. Cache files go by the path of their object. -/

namespace Merutable

open Foundation

inductive StoreOp where
  | put (data : Bytes)
  | putIfAbsent (data : Bytes)
  | get
  | delete
  deriving DecidableEq

/-- How a call returns; no object is the error of the inner store for a path it does not hold. -/
inductive StoreResult where
  | done
  | found (object : Option Bytes)
  | alreadyExists
  deriving DecidableEq

/-- Where a call stands. `opened` has the cache file open, to write the bytes into it. -/
inductive StorePhase where
  | started
  | checked
  | stored
  | removed
  | missed
  | fetched (data : Bytes)
  | opened (file : Nat) (data : Bytes)
  | filled (data : Bytes)
  | returned (result : StoreResult)
  deriving DecidableEq

/-- A call; `alone` notes that no other was under way when it started. -/
structure StoreCall where
  path : String
  op : StoreOp
  phase : StorePhase
  alone : Bool

/-- The store and the calls on it. `unlinked` counts how often the cache file of a path was removed,
which tells a file that is open from the one under its name. -/
structure CachedStore where
  inner : String → Option Bytes
  cache : String → Option Bytes
  unlinked : String → Nat
  calls : List StoreCall

inductive StoreAction where
  | start (path : String) (op : StoreOp)
  | step (call : Nat) (evicted : Option String)

def StoreCall.ended (call : StoreCall) : Bool :=
  match call.phase with
  | .returned _ => true
  | _ => false

namespace CachedStore

def opened (inner : String → Option Bytes) : CachedStore := ⟨inner, fun _ => none, fun _ => 0, []⟩

def setInner (s : CachedStore) (path : String) (object : Option Bytes) : CachedStore :=
  { s with inner := Function.update s.inner path object }

/-- `File::create`: a file that is there is truncated. -/
def create (s : CachedStore) (path : String) : CachedStore :=
  { s with cache := Function.update s.cache path (some []) }

/-- `write_all` from the start of the open file, over what another call may have written into it.
A file that was removed is written unseen. -/
def write (s : CachedStore) (path : String) (file : Nat) (data : Bytes) : CachedStore :=
  if file = s.unlinked path then
    let written := (s.cache path).map fun held => data ++ held.drop data.length
    { s with cache := Function.update s.cache path written }
  else s

def remove (s : CachedStore) (path : String) : CachedStore :=
  { s with
    cache := Function.update s.cache path none
    unlinked := Function.update s.unlinked path (s.unlinked path + 1) }

/-- The next step of a call: the store and the phase after it. `put_if_absent` is the trait's own:
`exists`, then `put`. `LruCache::push` may return any entry, or none. -/
def act (s : CachedStore) (call : StoreCall) (evicted : Option String) :
    Option (CachedStore × StorePhase) :=
  match call.op, call.phase with
  | .putIfAbsent _, .started =>
    some (s, if (s.inner call.path).isSome then .returned .alreadyExists else .checked)
  | .put data, .started | .putIfAbsent data, .checked =>
    some (s.setInner call.path (some data), .stored)
  | .put data, .stored | .putIfAbsent data, .stored =>
    some (s.create call.path, .opened (s.unlinked call.path) data)
  | .put _, .opened file data | .putIfAbsent _, .opened file data =>
    some (s.write call.path file data, .returned .done)
  | .get, .started =>
    some (s, (s.cache call.path).elim .missed fun data => .returned (.found (some data)))
  | .get, .missed => some (s, (s.inner call.path).elim (.returned (.found none)) .fetched)
  | .get, .fetched data => some (s.create call.path, .opened (s.unlinked call.path) data)
  | .get, .opened file data => some (s.write call.path file data, .filled data)
  | .get, .filled data => some (evicted.elim s s.remove, .returned (.found (some data)))
  | .delete, .started => some (s.setInner call.path none, .removed)
  | .delete, .removed => some (s.remove call.path, .returned .done)
  | _, _ => none

def step (s : CachedStore) : StoreAction → Option CachedStore
  | .start path op => some { s with
      calls := s.calls ++ [⟨path, op, .started, s.calls.all StoreCall.ended⟩] }
  | .step id evicted => do
      let call ← s.calls[id]?
      let (t, phase) ← s.act call evicted
      some { t with calls := s.calls.set id { call with phase } }

end CachedStore

/-- The inner store has been changed; the cache file is still to be created or removed. -/
def StoreCall.Pending (call : StoreCall) : Prop := call.phase = .stored ∨ call.phase = .removed

def StorePhase.file : StorePhase → Option Nat
  | .opened file _ => some file
  | _ => none

/-- The call has the cache file under the name of its path open. -/
def StoreCall.Holds (s : CachedStore) (call : StoreCall) : Prop :=
  call.phase.file = some (s.unlinked call.path)

/-- The next step of the call creates its cache file. -/
def StoreCall.creates (call : StoreCall) : Bool :=
  match call.op, call.phase with
  | .put _, .stored | .putIfAbsent _, .stored | .get, .fetched _ => true
  | _, _ => false

/-- What the next step of the call writes into its cache file. -/
def StorePhase.writes : StorePhase → Option Bytes
  | .opened _ data => some data
  | _ => none

/-- A cache file is created while no other call has it open. It is written with what the inner store
holds, or another call on the path has still to create or remove it. -/
def WritesHeld (s : CachedStore) : StoreAction → Prop
  | .start _ _ => True
  | .step id _ => ∀ call ∈ s.calls[id]?,
      (call.creates = true →
        ∀ other ∈ s.calls.eraseIdx id, other.path = call.path → ¬ other.Holds s) ∧
      (call.Holds s → ∀ data ∈ call.phase.writes, s.inner call.path = some data ∨
        ∃ other ∈ s.calls.eraseIdx id, other.path = call.path ∧ other.Pending)

/-- The calls are `put_if_absent` calls on the path; each puts its object while there is none. -/
def CreatesOnce (path : String) (s : CachedStore) : StoreAction → Prop
  | .start target (.putIfAbsent _) => target = path
  | .start _ _ => False
  | .step id _ => ∀ call ∈ s.calls[id]?, call.phase = .checked → s.inner call.path = none

instance (call : StoreCall) : Decidable call.Pending :=
  inferInstanceAs (Decidable (_ ∨ _))

instance (s : CachedStore) (call : StoreCall) : Decidable (call.Holds s) :=
  inferInstanceAs (Decidable (_ = _))

instance (s : CachedStore) (action : StoreAction) : Decidable (WritesHeld s action) := by
  cases action <;> unfold WritesHeld <;> infer_instance

instance (path : String) (s : CachedStore) (action : StoreAction) :
    Decidable (CreatesOnce path s action) := by
  unfold CreatesOnce
  split <;> infer_instance

def StorePhase.answer : StorePhase → Option (Option Bytes)
  | .fetched data | .opened _ data | .filled data => some (some data)
  | .returned (.found object) => some object
  | _ => none

namespace CachedStore

variable {s t : CachedStore} {call : StoreCall} {evicted : Option String} {phase : StorePhase}

/-- What the step of a call does to the store. -/
inductive Effect (s : CachedStore) (call : StoreCall) : CachedStore → StorePhase → Prop where
  | quiet {phase : StorePhase} (before : ¬ call.Pending) (shut : call.phase.file = none)
      (after : phase.file = none) : Effect s call s phase
  | change {phase : StorePhase} (object : Option Bytes) (shut : call.phase.file = none)
      (pending : phase = .stored ∨ phase = .removed) :
      Effect s call (s.setInner call.path object) phase
  | create (data : Bytes) (shut : call.phase.file = none) (creates : call.creates = true) :
      Effect s call (s.create call.path) (.opened (s.unlinked call.path) data)
  | write {phase : StorePhase} (file : Nat) (data : Bytes)
      (isOpen : call.phase = .opened file data) (after : phase.file = none) :
      Effect s call (s.write call.path file data) phase
  | remove {phase : StorePhase} (path : String) (shut : call.phase.file = none)
      (own : call.Pending → path = call.path) (after : phase.file = none) :
      Effect s call (s.remove path) phase

theorem act_effect (acted : s.act call evicted = some (t, phase)) : Effect s call t phase := by
  rcases call with ⟨path, op, before, alone⟩
  unfold act at acted
  split at acted <;> rename_i isOp isPhase <;> cases acted <;> cases isOp <;> cases isPhase
  case h_1 =>
    refine .quiet (by simp [StoreCall.Pending]) rfl ?_
    split <;> rfl
  case h_2 | h_3 => exact .change _ rfl (.inl rfl)
  case h_4 | h_5 | h_10 => exact .create _ rfl rfl
  case h_6 | h_7 | h_11 => exact .write _ _ rfl rfl
  case h_8 =>
    refine .quiet (by simp [StoreCall.Pending]) rfl ?_
    cases s.cache path <;> rfl
  case h_9 =>
    refine .quiet (by simp [StoreCall.Pending]) rfl ?_
    cases s.inner path <;> rfl
  case h_12 =>
    cases evicted with
    | none => exact .quiet (by simp [StoreCall.Pending]) rfl rfl
    | some other => exact .remove other rfl (by simp [StoreCall.Pending]) rfl
  case h_13 => exact .change _ rfl (.inr rfl)
  case h_14 => exact .remove _ rfl (fun _ => rfl) rfl

theorem act_ended (ended : call.ended = true) : s.act call evicted = none := by
  rcases call with ⟨path, op, _ | _ | _ | _ | _ | _ | _ | _ | _, alone⟩ <;> cases op <;>
    first | rfl | cases ended

theorem act_get (isGet : call.op = .get) (acted : s.act call evicted = some (t, phase)) :
    t.inner = s.inner ∧ ∀ object, phase.answer = some object → call.phase.answer = some object ∨
      object = s.inner call.path ∨
        call.phase = .started ∧ ∃ data, object = some data ∧ s.cache call.path = some data := by
  rcases call with ⟨target, op, before, alone⟩
  cases isGet
  cases before with
  | started =>
    cases acted
    refine ⟨rfl, fun object answers => .inr (.inr ⟨rfl, ?_⟩)⟩
    cases hit : s.cache target with
    | none => simp [hit, StorePhase.answer] at answers
    | some data => simpa [hit, StorePhase.answer, eq_comm] using answers
  | missed =>
    cases acted
    refine ⟨rfl, fun object answers => .inr (.inl ?_)⟩
    cases held : s.inner target with
    | none => simpa [held, StorePhase.answer, eq_comm] using answers
    | some data => simpa [held, StorePhase.answer, eq_comm] using answers
  | fetched data =>
    cases acted
    exact ⟨rfl, fun _ answers => .inl answers⟩
  | opened file data =>
    cases acted
    refine ⟨?_, fun _ answers => .inl answers⟩
    unfold write
    split <;> rfl
  | filled data =>
    cases acted
    exact ⟨by cases evicted <;> rfl, fun _ answers => .inl answers⟩
  | checked | stored | removed | returned => cases acted

theorem step_call {id : Nat} (fired : s.step (.step id evicted) = some t) :
    ∃ call next phase, s.calls[id]? = some call ∧ s.act call evicted = some (next, phase) ∧
      t = { next with calls := s.calls.set id { call with phase } } := by
  obtain ⟨call, found, fired⟩ := Option.bind_eq_some_iff.mp fired
  obtain ⟨⟨next, phase⟩, acted, fired⟩ := Option.bind_eq_some_iff.mp fired
  cases fired
  exact ⟨call, next, phase, found, acted, rfl⟩

theorem set_call {calls : List StoreCall} {id k : Nat} {other : StoreCall}
    (at_k : (calls.set id call)[k]? = some other) :
    k = id ∧ other = call ∨ k ≠ id ∧ calls[k]? = some other := by
  by_cases same : k = id
  · subst same
    rw [List.getElem?_set] at at_k
    aesop
  · rw [List.getElem?_set_ne (Ne.symm same)] at at_k
    exact .inr ⟨same, at_k⟩

theorem write_other {path target : String} {file : Nat} {data : Bytes} (ne : path ≠ target) :
    (s.write target file data).cache path = s.cache path := by
  unfold write
  split
  · exact Function.update_of_ne ne _ _
  · rfl

theorem write_inner {target : String} {file : Nat} {data : Bytes} :
    (s.write target file data).inner = s.inner ∧
      (s.write target file data).unlinked = s.unlinked := by
  unfold write
  split <;> exact ⟨rfl, rfl⟩

/-- Only a removal changes which file goes by the name of a path, and none does then. -/
theorem Effect.unlinked (effect : Effect s call t phase) (path : String) :
    t.unlinked path = s.unlinked path ∨
      t.unlinked path = s.unlinked path + 1 ∧ t.cache path = none := by
  cases effect with
  | quiet | change | create => exact .inl rfl
  | write => exact .inl (congrFun write_inner.2 path)
  | remove target =>
    by_cases same : path = target
    · subst same
      exact .inr ⟨Function.update_self .., Function.update_self ..⟩
    · exact .inl (Function.update_of_ne same _ _)

theorem Effect.file (effect : Effect s call t phase) : phase.file = none ∨
    t = s.create call.path ∧ call.creates = true ∧
      phase.file = some (s.unlinked call.path) := by
  cases effect with
  | quiet _ _ after | write _ _ _ after | remove _ _ _ after => exact .inl after
  | change _ _ pending => rcases pending with rfl | rfl <;> exact .inl rfl
  | create data _ creates => exact .inr ⟨rfl, creates, rfl⟩

/-- An open cache file is empty and one call has it open; a file that is not the object of the inner
store is one that a call has open or has still to create or remove. -/
structure Files (s : CachedStore) : Prop where
  bound : ∀ (id : Nat) (call : StoreCall), s.calls[id]? = some call →
    ∀ file ∈ call.phase.file, file ≤ s.unlinked call.path
  empty : ∀ (id : Nat) (call : StoreCall), s.calls[id]? = some call → call.Holds s →
    s.cache call.path = some []
  single : ∀ (id k : Nat) (call other : StoreCall), s.calls[id]? = some call →
    s.calls[k]? = some other → other.path = call.path → call.Holds s → other.Holds s → k = id
  cached : ∀ path data, s.cache path = some data → s.inner path = some data ∨
    ∃ (id : Nat) (call : StoreCall), s.calls[id]? = some call ∧ call.path = path ∧
      (call.Pending ∨ call.Holds s)

theorem Files.holds {id : Nat} {other : StoreCall} (files : s.Files)
    (effect : Effect s call t phase) (found : s.calls[id]? = some other) (holds : other.Holds t) :
    other.Holds s ∧ t.unlinked other.path = s.unlinked other.path := by
  rcases effect.unlinked other.path with same | ⟨more, _⟩
  · exact ⟨holds.trans (congrArg some same), same⟩
  · have := files.bound id other found _ holds
    omega

/-- A file that the step leaves alone is the object of the inner store or awaits a call. -/
theorem Files.untouched {id : Nat} {path : String} {data : Bytes} (files : s.Files)
    (found : s.calls[id]? = some call) (file : s.cache path = some data)
    (inner : t.inner path = s.inner path) (unlinked : t.unlinked path = s.unlinked path)
    (idle : path = call.path → ¬ (call.Pending ∨ call.Holds s)) :
    t.inner path = some data ∨
      ∃ (k : Nat) (other : StoreCall), (s.calls.set id { call with phase })[k]? = some other ∧
        other.path = path ∧ (other.Pending ∨ other.Holds t) := by
  rcases files.cached path data file with same | ⟨k, other, at_k, rfl, waiting⟩
  · exact .inl (inner.trans same)
  · refine .inr ⟨k, other, ?_, rfl, waiting.imp_right fun holds => ?_⟩
    · rw [List.getElem?_set_ne]
      · exact at_k
      · rintro rfl
        cases found.symm.trans at_k
        exact idle rfl waiting
    · exact holds.trans (congrArg some unlinked.symm)

theorem Files.cached_step {id : Nat} (files : s.Files) (held : WritesHeld s (.step id evicted))
    (found : s.calls[id]? = some call) (effect : Effect s call t phase) {path : String}
    {data : Bytes} (file : t.cache path = some data) :
    t.inner path = some data ∨
      ∃ (k : Nat) (other : StoreCall), (s.calls.set id { call with phase })[k]? = some other ∧
        other.path = path ∧ (other.Pending ∨ other.Holds t) := by
  have own : (s.calls.set id { call with phase })[id]? = some { call with phase } :=
    List.getElem?_set_self (List.getElem?_eq_some_iff.mp found).1
  have closed (shut : call.phase.file = none) : ¬ call.Holds s := by simp [StoreCall.Holds, shut]
  cases effect with
  | quiet before shut =>
    exact files.untouched found file rfl rfl fun _ => not_or.mpr ⟨before, closed shut⟩
  | change object shut pending =>
    by_cases here : path = call.path
    · exact .inr ⟨id, _, own, here.symm, .inl pending⟩
    · exact files.untouched found file (Function.update_of_ne here _ _) rfl (absurd · here)
  | create held shut =>
    by_cases here : path = call.path
    · exact .inr ⟨id, _, own, here.symm, .inr rfl⟩
    · exact files.untouched found ((Function.update_of_ne here _ _).symm.trans file) rfl rfl
        (absurd · here)
  | write number written isOpen =>
    obtain ⟨inner, unlinked⟩ := @write_inner s call.path number written
    have idle : ¬ call.Pending := by simp [StoreCall.Pending, isOpen]
    by_cases holds : path = call.path ∧ number = s.unlinked call.path
    · -- the file was empty, so it holds the bytes that are written
      obtain ⟨rfl, rfl⟩ := holds
      have holds : call.Holds s := by rw [StoreCall.Holds, isOpen]; rfl
      have same : written = data := by simpa [write, files.empty id call found holds] using file
      have written : data ∈ call.phase.writes := by rw [isOpen, same]; rfl
      rw [inner]
      refine ((held call found).2 holds data written).imp_right fun ⟨other, member, rest⟩ => ?_
      obtain ⟨k, ne, at_k⟩ := List.mem_eraseIdx_iff_getElem?.mp member
      exact ⟨k, other, (List.getElem?_set_ne ne.symm).trans at_k, rest.1, .inl rest.2⟩
    · refine files.untouched found ?_ (congrFun inner _) (congrFun unlinked _) fun here => ?_
      · by_cases here : path = call.path
        · rwa [write, if_neg fun current => holds ⟨here, current⟩] at file
        · rwa [write_other here] at file
      · refine not_or.mpr ⟨idle, fun current => holds ⟨here, ?_⟩⟩
        rw [StoreCall.Holds, isOpen] at current
        exact Option.some.inj current
  | remove target shut own =>
    have other : path ≠ target := by
      rintro rfl
      cases (Function.update_self ..).symm.trans file
    exact files.untouched found ((Function.update_of_ne other _ _).symm.trans file) rfl
      (Function.update_of_ne other _ _)
      fun here => not_or.mpr ⟨fun pending => other (here.trans (own pending).symm), closed shut⟩

theorem Files.empty_step {id k : Nat} {other : StoreCall} (files : s.Files)
    (found : s.calls[id]? = some call) (effect : Effect s call t phase)
    (at_k : s.calls[k]? = some other) (ne : k ≠ id) (holds : other.Holds t) :
    t.cache other.path = some [] := by
  obtain ⟨before, unlinked⟩ := files.holds effect at_k holds
  have empty := files.empty k other at_k before
  cases effect with
  | quiet | change => exact empty
  | create =>
    by_cases here : other.path = call.path
    · rw [here]
      exact Function.update_self ..
    · exact (Function.update_of_ne here _ _).trans empty
  | write number written isOpen =>
    by_cases here : other.path = call.path
    · rw [write, if_neg]
      · exact empty
      · rintro rfl
        have own : call.Holds s := by rw [StoreCall.Holds, isOpen]; rfl
        exact ne (files.single id k call other found at_k here own before)
    · exact (write_other here).trans empty
  | remove target =>
    by_cases here : other.path = target
    · subst here
      exact absurd unlinked (by simp [remove])
    · exact (Function.update_of_ne here _ _).trans empty

theorem Files.step {id : Nat} (files : s.Files) (held : WritesHeld s (.step id evicted))
    (found : s.calls[id]? = some call) (effect : Effect s call t phase) :
    Files { t with calls := s.calls.set id { call with phase } } := by
  have grown (path : String) : s.unlinked path ≤ t.unlinked path := by
    rcases effect.unlinked path with same | ⟨more, _⟩ <;> omega
  refine ⟨fun k other at_k file member => ?_, fun k other at_k holds => ?_,
    fun k j other second at_k at_j same holds holds' => ?_, fun path data file => ?_⟩
  · rcases set_call at_k with ⟨rfl, rfl⟩ | ⟨_, before⟩
    · rcases effect.file with none | ⟨_, _, current⟩
      · cases none.symm.trans member
      · cases current.symm.trans member
        exact grown _
    · exact (files.bound k other before file member).trans (grown _)
  · rcases set_call at_k with ⟨rfl, rfl⟩ | ⟨ne, before⟩
    · rcases effect.file with none | ⟨rfl, _⟩
      · cases none.symm.trans holds
      · exact Function.update_self ..
    · exact files.empty_step (t := t) found effect before ne holds
  · -- two calls that have a file open: neither step made it, or the guard of its creation fails
    have alone {j : Nat} {second : StoreCall} (ne : j ≠ id) (before : s.calls[j]? = some second)
        (same : second.path = call.path) (first : phase.file = some (t.unlinked call.path))
        (holds : second.Holds t) : False := by
      rcases effect.file with none | ⟨_, creates, _⟩
      · cases none.symm.trans first
      · exact (held call found).1 creates second
          (List.mem_eraseIdx_iff_getElem?.mpr ⟨j, ne, before⟩) same
          (files.holds effect before holds).1
    rcases set_call at_k with ⟨rfl, rfl⟩ | ⟨ne, before⟩ <;>
      rcases set_call at_j with ⟨rfl, rfl⟩ | ⟨ne', before'⟩
    · rfl
    · exact (alone ne' before' same holds holds').elim
    · exact (alone ne before same.symm holds' holds).elim
    · exact files.single k j other second before before' same
        (files.holds effect before holds).1 (files.holds effect before' holds').1
  · exact files.cached_step held found effect file

/-- The last call, a `get` that started alone, has what the inner store holds. -/
structure Coherent (s : CachedStore) : Prop where
  files : s.Files
  last : ∀ (id : Nat) (call : StoreCall), s.calls[id]? = some call → id + 1 = s.calls.length →
    call.op = .get → call.alone = true →
    (∀ other < id, ∀ earlier ∈ s.calls[other]?, earlier.ended = true) ∧
      ∀ object, call.phase.answer = some object → object = s.inner call.path

theorem Files.start (files : s.Files) (added : StoreCall) (started : added.phase = .started) :
    Files { s with calls := s.calls ++ [added] } := by
  have old {id : Nat} {call : StoreCall} (found : (s.calls ++ [added])[id]? = some call)
      (isOpen : call.phase.file ≠ none) : s.calls[id]? = some call := by
    by_cases before : id < s.calls.length
    · rwa [List.getElem?_append_left before] at found
    · rw [List.getElem?_append_right (Nat.le_of_not_lt before)] at found
      cases List.mem_singleton.mp (List.mem_of_getElem? found)
      exact absurd (congrArg StorePhase.file started) isOpen
  have shown {call : StoreCall} (holds : call.Holds s) : call.phase.file ≠ none := by
    simp [StoreCall.Holds.eq_1 .. ▸ holds]
  refine ⟨fun id call found file member => ?_, fun id call found holds => ?_,
    fun id k call other found found' same holds holds' => ?_, fun path data file => ?_⟩
  · exact files.bound id call (old found fun none => by cases none.symm.trans member) file member
  · exact files.empty id call (old found (shown holds)) holds
  · exact files.single id k call other (old found (shown holds)) (old found' (shown holds')) same
      holds holds'
  · refine (files.cached path data file).imp_right fun ⟨id, call, found, rest⟩ => ?_
    refine ⟨id, call, ?_, rest⟩
    rw [List.getElem?_append_left (List.getElem?_eq_some_iff.mp found).1]
    exact found

theorem Coherent.start (coherent : s.Coherent) (path : String) (op : StoreOp) :
    CachedStore.Coherent { s with
      calls := s.calls ++ [⟨path, op, .started, s.calls.all StoreCall.ended⟩] } := by
  refine ⟨coherent.files.start _ rfl, fun id call found isLast isGet alone => ?_⟩
  simp only [List.length_append, List.length_singleton, Nat.add_right_cancel_iff] at isLast
  subst isLast
  simp only [List.getElem?_concat_length, Option.some.injEq] at found
  subst found
  refine ⟨fun other before earlier member => ?_, fun object answers => by cases answers⟩
  rw [List.getElem?_append_left before] at member
  exact List.all_eq_true.mp alone earlier (List.mem_of_getElem? member)

theorem Coherent.step {id : Nat} (coherent : s.Coherent) (held : WritesHeld s (.step id evicted))
    (fired : s.step (.step id evicted) = some t) : t.Coherent := by
  obtain ⟨call, next, phase, found, acted, rfl⟩ := step_call fired
  refine ⟨coherent.files.step held found (act_effect acted), ?_⟩
  intro k last foundLast isLast isGet alone
  rw [List.length_set] at isLast
  have other {j : Nat} (ne : j ≠ id) :
      (s.calls.set id { call with phase })[j]? = s.calls[j]? := List.getElem?_set_ne ne.symm
  rcases set_call foundLast with ⟨rfl, rfl⟩ | ⟨here, before⟩
  · obtain ⟨ended, answered⟩ := coherent.last k call found isLast isGet alone
    have isGet : call.op = .get := isGet
    obtain ⟨unchanged, answers⟩ := act_get isGet acted
    refine ⟨fun earlier before => other before.ne ▸ ended earlier before, fun object answer => ?_⟩
    rw [unchanged]
    rcases answers object answer with before | fetched | ⟨started, data, rfl, hit⟩
    · exact answered object before
    · exact fetched
    · rcases coherent.files.cached _ data hit with same | ⟨j, waiting, at_j, _, pending⟩
      · exact same.symm
      · -- every other call has ended, and this one has only started
        have le : j ≤ k := by have := (List.getElem?_eq_some_iff.mp at_j).1; omega
        have ended : waiting.ended = true ∨ waiting.phase = .started := by
          rcases le.lt_or_eq with before | rfl
          · exact .inl (ended j before waiting at_j)
          · cases found.symm.trans at_j
            exact .inr started
        rcases waiting with ⟨_, _, _ | _ | _ | _ | _ | _ | _ | _ | _, _⟩ <;>
          simp_all [StoreCall.ended, StoreCall.Pending, StoreCall.Holds, StorePhase.file]
  · have inside := (List.getElem?_eq_some_iff.mp found).1
    have ended := (coherent.last k last before isLast isGet alone).1 id (by omega) call found
    rw [act_ended ended] at acted
    cases acted

end CachedStore

/-- In every run in which a cache file is created while no other call has it open, and written with
what the inner store holds or before another call creates or removes it, a `get` with no other call
under way returns what the inner store holds. -/
theorem cached_get_coherent {inner : String → Option Bytes} {actions : List StoreAction}
    {s : CachedStore} (run : Run CachedStore.step WritesHeld (.opened inner) actions s)
    {id : Nat} {call : StoreCall} (found : s.calls[id]? = some call)
    (last : id + 1 = s.calls.length) (isGet : call.op = .get) (alone : call.alone = true)
    {object : Option Bytes} (returned : call.phase = .returned (.found object)) :
    object = s.inner call.path := by
  have coherent : s.Coherent := by
    refine run.invariant CachedStore.Coherent (fun s action t coherent held fired => ?_)
      ⟨⟨?_, ?_, ?_, ?_⟩, ?_⟩
    · cases action with
      | start path op =>
        cases fired
        exact coherent.start path op
      | step id evicted => exact coherent.step held fired
    · intro _ _ found
      cases found
    · intro _ _ found
      cases found
    · intro _ _ _ _ found
      cases found
    · intro _ _ file
      cases file
    · intro _ _ found
      cases found
  exact (coherent.last id call found last isGet alone).2 object (by rw [returned]; rfl)

/-- Two puts change the inner store and then write the cache file one after the other. -/
def putThenGet : List StoreAction :=
  [.start "a" (.put [1, 1, 1, 1]), .start "a" (.put [2, 2]), .step 0 none, .step 1 none,
    .step 0 none, .step 0 none, .step 1 none, .step 1 none, .start "a" .get, .step 2 none]

theorem cached_get_coherent_hit :
    some [2, 2] = (final CachedStore.step (.opened fun _ => none) putThenGet).inner "a" := by
  have run : Run CachedStore.step WritesHeld (.opened fun _ => none) putThenGet
      (final CachedStore.step (.opened fun _ => none) putThenGet) := Run.of_decided (by decide)
  have hit : (final CachedStore.step (.opened fun _ => none) putThenGet).calls[2]? =
      some ⟨"a", .get, .returned (.found (some [2, 2])), true⟩ := rfl
  exact cached_get_coherent run hit rfl rfl rfl rfl

/-- A `get` reads the object, a `delete` completes, the `get` writes the cache file and a later one
finds it. -/
def lateFill : List StoreAction :=
  [.start "a" .get, .step 0 none, .step 0 none, .start "a" .delete, .step 1 none, .step 1 none,
    .step 0 none, .step 0 none, .step 0 none, .start "a" .get, .step 2 none]

theorem late_fill_returns_deleted :
    (execute CachedStore.step (.opened fun _ => some [1]) lateFill).map (fun s =>
      (s.inner "a", s.calls[2]?.map fun call => (call.alone, call.phase))) =
      some (none, some (true, .returned (.found (some [1])))) := by
  decide

-- two puts have the cache file open at once: a later `get` is answered with a mix of both
example : (execute CachedStore.step (.opened fun _ => none)
    [.start "a" (.put [1, 1, 1, 1]), .start "a" (.put [2, 2]), .step 0 none, .step 1 none,
      .step 0 none, .step 1 none, .step 0 none, .step 1 none, .start "a" .get, .step 2 none]).map
      (fun s => (s.inner "a", s.calls[2]?.map StoreCall.phase)) =
    some (some [2, 2], some (.returned (.found (some [2, 2, 1, 1])))) := by
  decide

namespace CachedStore

variable {s t : CachedStore} {call : StoreCall} {evicted : Option String} {phase : StorePhase}
  {path : String}

/-- The object is in the inner store by this call. -/
def Created (phase : StorePhase) : Prop :=
  phase = .stored ∨ phase.file.isSome ∨ phase = .returned .done

/-- A `put_if_absent` call that has put its object is the only one, and the object is held. -/
structure Single (path : String) (s : CachedStore) : Prop where
  calls : ∀ call ∈ s.calls, call.path = path ∧ ∃ data, call.op = .putIfAbsent data
  one : ∃ winner, ∀ (id : Nat) (call : StoreCall), s.calls[id]? = some call → Created call.phase →
    id = winner ∧ ∃ data, call.op = .putIfAbsent data ∧ s.inner path = some data

theorem act_create {data : Bytes} (creates : call.op = .putIfAbsent data)
    (acted : s.act call evicted = some (t, phase)) :
    t.inner = s.inner ∧ (Created phase → Created call.phase) ∨
      call.phase = .checked ∧ t.inner = Function.update s.inner call.path (some data) := by
  rcases call with ⟨target, op, before, alone⟩
  cases creates
  cases before with
  | started =>
    cases acted
    refine .inl ⟨rfl, fun created => ?_⟩
    cases held : s.inner target <;> simp [held, Created, StorePhase.file] at created
  | checked =>
    cases acted
    exact .inr ⟨rfl, rfl⟩
  | stored =>
    cases acted
    exact .inl ⟨rfl, fun _ => .inl rfl⟩
  | opened file bytes =>
    cases acted
    exact .inl ⟨write_inner.1, fun _ => .inr (.inl rfl)⟩
  | removed | missed | fetched | filled | returned => cases acted

theorem Single.start (single : s.Single path) (data : Bytes) : Single path { s with
    calls := s.calls ++ [⟨path, .putIfAbsent data, .started, s.calls.all StoreCall.ended⟩] } := by
  obtain ⟨winner, one⟩ := single.one
  refine ⟨fun call member => ?_, winner, fun id call found created => ?_⟩
  · rcases List.mem_append.mp member with before | added
    · exact single.calls call before
    · cases List.mem_singleton.mp added
      exact ⟨rfl, data, rfl⟩
  · by_cases before : id < s.calls.length
    · rw [List.getElem?_append_left before] at found
      exact one id call found created
    · rw [List.getElem?_append_right (Nat.le_of_not_lt before)] at found
      cases List.mem_singleton.mp (List.mem_of_getElem? found)
      simp [Created, StorePhase.file] at created

theorem Single.step {id : Nat} (single : s.Single path)
    (once : CreatesOnce path s (.step id evicted)) (fired : s.step (.step id evicted) = some t) :
    t.Single path := by
  obtain ⟨call, next, phase, found, acted, rfl⟩ := step_call fired
  obtain ⟨rfl, data, creates⟩ := single.calls call (List.mem_of_getElem? found)
  obtain ⟨winner, one⟩ := single.one
  constructor
  · intro other member
    obtain ⟨k, at_k⟩ := List.mem_iff_getElem?.mp member
    rcases set_call at_k with ⟨_, rfl⟩ | ⟨_, before⟩
    · exact ⟨rfl, data, creates⟩
    · exact single.calls other (List.mem_of_getElem? before)
  · rcases act_create creates acted with ⟨unchanged, created⟩ | ⟨checked, changed⟩
    · rw [unchanged]
      refine ⟨winner, fun k other at_k won => ?_⟩
      rcases set_call at_k with ⟨rfl, rfl⟩ | ⟨_, before⟩
      · exact one k call found (created won)
      · exact one k other before won
    · refine ⟨id, fun k other at_k won => ?_⟩
      rcases set_call at_k with ⟨rfl, rfl⟩ | ⟨_, before⟩
      · exact ⟨rfl, data, creates, by rw [changed, Function.update_self]⟩
      · obtain ⟨_, object, _, held⟩ := one k other before won
        rw [once call found checked] at held
        cases held

end CachedStore

/-- In every run of `put_if_absent` calls on one path that each put their object while there is
none, one call at most returns Ok, and its object is the one held. -/
theorem put_if_absent_single {inner : String → Option Bytes} {path : String}
    {actions : List StoreAction} {s : CachedStore}
    (run : Run CachedStore.step (CreatesOnce path) (.opened inner) actions s) :
    ∃ winner, ∀ (id : Nat) (call : StoreCall), s.calls[id]? = some call →
      call.phase = .returned .done →
      id = winner ∧ ∃ data, call.op = .putIfAbsent data ∧ s.inner path = some data := by
  have single : s.Single path := by
    refine run.invariant (CachedStore.Single path) (fun s action t single once fired => ?_) ?_
    · cases action with
      | start target op =>
        cases op with
        | putIfAbsent data =>
          cases fired
          cases once
          exact single.start data
        | put | get | delete => cases once
      | step id evicted => exact single.step once fired
    · refine ⟨fun _ member => ?_, 0, fun _ _ found => ?_⟩
      · cases member
      · cases found
  obtain ⟨winner, one⟩ := single.one
  exact ⟨winner, fun id call found returned => one id call found (.inr (.inr returned))⟩

def createTwice : List StoreAction :=
  [.start "a" (.putIfAbsent [1]), .step 0 none, .step 0 none, .start "a" (.putIfAbsent [2]),
    .step 0 none, .step 0 none, .step 1 none]

theorem put_if_absent_single_second :
    ∃ winner, ∀ (id : Nat) (call : StoreCall),
      (final CachedStore.step (.opened fun _ => none) createTwice).calls[id]? = some call →
      call.phase = .returned .done → id = winner ∧ ∃ data, call.op = .putIfAbsent data ∧
        (final CachedStore.step (.opened fun _ => none) createTwice).inner "a" = some data :=
  put_if_absent_single (Run.of_decided (by decide))

/-- Both calls look before either puts its object. -/
def checkTwice : List StoreAction :=
  [.start "a" (.putIfAbsent [1]), .start "a" (.putIfAbsent [2]), .step 0 none, .step 1 none,
    .step 0 none, .step 1 none, .step 0 none, .step 1 none, .step 0 none, .step 1 none]

theorem check_twice_both_return :
    (execute CachedStore.step (.opened fun _ => none) checkTwice).map (fun s =>
      (s.inner "a", s.calls.map StoreCall.phase)) =
      some (some [2], [.returned .done, .returned .done]) := by
  decide

end Merutable
