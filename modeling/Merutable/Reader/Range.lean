import Merutable.Key
import Merutable.Reader

/-! The key iterator over a file of row groups and pages: `iter_user_keys_in_range`,
`read_ikeys_in_page` and `RangeKeyIter` of `parquet::reader`. -/

namespace Merutable.Reader

def ikeyUserKeyPrefix (ikey : Bytes) : Bytes :=
  if ikey.length < 8 then ikey else ikey.take (ikey.length - 8)

/-- What is read of an open file: its row groups, the key bounds of its metadata and the entries of
its index, each the internal key and the number of the first row of a page. -/
structure ParquetReader where
  rowGroups : List (List Entry)
  keyMin : Bytes
  keyMax : Bytes
  kvIndex : Option (List (Bytes × Nat))

/-- The iterator; `pages` are those still to be read, each with the start of the next one. -/
structure RangeKeyIter where
  lo : Bytes
  hi : Bytes
  pages : List (Nat × Option Nat)
  buffer : List (UserKey × Nat)
  fallbackDone : Bool

/-- The walk over the index entries. -/
def neededPages (lo hi : Bytes) : List (Bytes × Nat) → List (Nat × Option Nat)
  | [] => []
  | (key, first) :: rest =>
    if hi < ikeyUserKeyPrefix key then []
    else if rest.head?.any (fun next => ikeyUserKeyPrefix next.1 ≤ lo) then
      neededPages lo hi rest
    else (first, rest.head?.map Prod.snd) :: neededPages lo hi rest

def findRowGroup (row : Nat) : Nat → List (List Entry) → Option (Nat × List Entry)
  | _, [] => none
  | start, group :: rest =>
    if start ≤ row ∧ row < start + group.length then some (start, group)
    else findRowGroup row (start + group.length) rest

namespace ParquetReader

def iterUserKeysInRange (reader : ParquetReader) (lo hi : Bytes) : RangeKeyIter :=
  if (reader.keyMin ≠ [] ∧ hi < reader.keyMin) ∨ (reader.keyMax ≠ [] ∧ reader.keyMax < lo) ∨
      hi < lo then ⟨[], [], [], [], true⟩
  else
    match reader.kvIndex with
    | none => ⟨lo, hi, [], [], false⟩
    | some entries => ⟨lo, hi, neededPages lo hi entries, [], true⟩

def readIkeysInPage (reader : ParquetReader) (first : Nat) (next : Option Nat) :
    Except MeruError (List (UserKey × Nat)) :=
  match findRowGroup first 0 reader.rowGroups with
  | none =>
    let total := (reader.rowGroups.map List.length).sum
    .error (.parquet
      s!"kv_index page first_row_index {first} out of range for file row count {total}")
  | some (start, group) =>
    let stop := start + group.length
    let upper := match next with
      | some bound => if bound ≤ stop then bound else stop
      | none => stop
    if upper < first then .error .panicked
    else .ok (keyPositions first ((group.drop (first - start)).take (upper - first)))

def readAllIkeys (reader : ParquetReader) : List (UserKey × Nat) :=
  keyPositions 0 reader.rowGroups.flatten

/-- `RangeKeyIter::next`, by the pages, the buffer and the fallback flag. -/
def nextItem (reader : ParquetReader) (lo hi : Bytes) :
    List (Nat × Option Nat) → List (UserKey × Nat) → Bool →
      Option (Except MeruError (UserKey × Nat)) × RangeKeyIter
  | pages, item :: buffer, done => (some (.ok item), ⟨lo, hi, pages, buffer, done⟩)
  | page :: pages, [], done =>
    match reader.readIkeysInPage page.1 page.2 with
    | .ok rows => reader.nextItem lo hi pages (rows.filter (inWindow lo hi)) done
    | .error error => (some (.error error), ⟨lo, hi, pages, [], done⟩)
  | [], [], true => (none, ⟨lo, hi, [], [], true⟩)
  | [], [], false =>
    match reader.readAllIkeys.filter (inWindow lo hi) with
    | [] => (none, ⟨lo, hi, [], [], true⟩)
    | item :: buffer => (some (.ok item), ⟨lo, hi, [], buffer, true⟩)

end ParquetReader

def RangeKeyIter.next (iter : RangeKeyIter) (reader : ParquetReader) :
    Option (Except MeruError (UserKey × Nat)) × RangeKeyIter :=
  reader.nextItem iter.lo iter.hi iter.pages iter.buffer iter.fallbackDone

/-- The items that the calls of `next` return before the first `None`. -/
inductive Yields (reader : ParquetReader) :
    RangeKeyIter → List (Except MeruError (UserKey × Nat)) → Prop where
  | done {iter last} (returned : iter.next reader = (none, last)) : Yields reader iter []
  | item {iter later item items} (returned : iter.next reader = (some item, later))
      (rest : Yields reader later items) : Yields reader iter (item :: items)

/-- A file by its row groups, their pages and the rows of these. -/
structure Layout where
  groups : List (List (List Entry))
  pages_ne : ∀ group ∈ groups, ∀ page ∈ group, page ≠ []
  sorted : groups.flatten.flatten.Pairwise Entry.ikeyLe

/-- The index with one entry for each page. -/
def exactIndex : Nat → List (List Entry) → List (Bytes × Nat)
  | _, [] => []
  | first, page :: rest =>
    ((page.head?.map fun row => row.key.bytes ++ keyTag row.seq row.value.opType).getD [], first) ::
      exactIndex (first + page.length) rest

namespace Layout

def pages (layout : Layout) : List (List Entry) := layout.groups.flatten

def rows (layout : Layout) : List Entry := layout.pages.flatten

def reader (layout : Layout) : ParquetReader where
  rowGroups := layout.groups.map List.flatten
  keyMin := (layout.rows.head?.map fun row => row.key.bytes).getD []
  keyMax := (layout.rows.getLast?.map fun row => row.key.bytes).getD []
  kvIndex := some (exactIndex 0 layout.pages)

/-- The full scan, filtered to the window. -/
def scanned (layout : Layout) (lo hi : Bytes) : List (UserKey × Nat) :=
  (keyPositions 0 layout.rows).filter (inWindow lo hi)

end Layout

/-- No page ends and the next begins with a version of the key. -/
def KeptTogether (key : Bytes) (pages : List (List Entry)) : Prop :=
  pages.IsChain fun page next =>
    ¬ ((page.getLast?.map fun row => row.key.bytes) = some key ∧
      (next.head?.map fun row => row.key.bytes) = some key)

section Iterator

variable {reader : ParquetReader} {iter : RangeKeyIter}

def pageItems (reader : ParquetReader) (lo hi : Bytes) (page : Nat × Option Nat) :
    List (Except MeruError (UserKey × Nat)) :=
  match reader.readIkeysInPage page.1 page.2 with
  | .ok rows => (rows.filter (inWindow lo hi)).map .ok
  | .error error => [.error error]

/-- What the iterator has still to return. -/
def RangeKeyIter.remaining (reader : ParquetReader) (iter : RangeKeyIter) :
    List (Except MeruError (UserKey × Nat)) :=
  iter.buffer.map .ok ++ iter.pages.flatMap (pageItems reader iter.lo iter.hi) ++
    bif iter.fallbackDone then []
    else (reader.readAllIkeys.filter (inWindow iter.lo iter.hi)).map .ok

theorem remaining_nextItem (reader : ParquetReader) (lo hi : Bytes)
    (pages : List (Nat × Option Nat)) (buffer : List (UserKey × Nat)) (done : Bool) :
    RangeKeyIter.remaining reader ⟨lo, hi, pages, buffer, done⟩ =
      (reader.nextItem lo hi pages buffer done).1.elim [] fun item =>
        item :: (reader.nextItem lo hi pages buffer done).2.remaining reader := by
  induction pages generalizing buffer with
  | nil =>
    cases buffer with
    | cons item buffer => simp [ParquetReader.nextItem, RangeKeyIter.remaining]
    | nil =>
      cases done with
      | true => simp [ParquetReader.nextItem, RangeKeyIter.remaining]
      | false =>
        cases listed : reader.readAllIkeys.filter (inWindow lo hi) <;>
          simp [ParquetReader.nextItem, RangeKeyIter.remaining, listed]
  | cons page pages ih =>
    cases buffer with
    | cons item buffer => simp [ParquetReader.nextItem, RangeKeyIter.remaining]
    | nil =>
      have front : RangeKeyIter.remaining reader ⟨lo, hi, page :: pages, [], done⟩ =
          pageItems reader lo hi page ++
            RangeKeyIter.remaining reader ⟨lo, hi, pages, [], done⟩ := by
        simp [RangeKeyIter.remaining]
      rw [front, pageItems, ParquetReader.nextItem]
      cases reader.readIkeysInPage page.1 page.2 with
      | error error => simp
      | ok rows =>
        have later := ih (rows.filter (inWindow lo hi))
        simpa [RangeKeyIter.remaining] using later

theorem remaining_next (reader : ParquetReader) (iter : RangeKeyIter) :
    iter.remaining reader = (iter.next reader).1.elim [] fun item =>
      item :: (iter.next reader).2.remaining reader :=
  remaining_nextItem reader iter.lo iter.hi iter.pages iter.buffer iter.fallbackDone

theorem yields_iff {items : List (Except MeruError (UserKey × Nat))} :
    Yields reader iter items ↔ iter.remaining reader = items := by
  constructor
  · intro yields
    induction yields with
    | done returned => rw [remaining_next, returned, Option.elim_none]
    | item returned _ ih => rw [remaining_next, returned, Option.elim_some, ih]
  · intro left
    induction items generalizing iter with
    | nil =>
      rw [remaining_next] at left
      cases returned : iter.next reader with
      | mk item later =>
        cases item with
        | none => exact .done returned
        | some item =>
          rw [returned] at left
          cases left
    | cons first items ih =>
      rw [remaining_next] at left
      cases returned : iter.next reader with
      | mk item later =>
        rw [returned] at left
        cases item with
        | none => cases left
        | some item =>
          obtain ⟨rfl, rest⟩ := List.cons.inj left
          exact .item returned (ih rest)

end Iterator

section Pages

variable {layout : Layout} {lo hi : Bytes} {before after : List (List Entry)} {page : List Entry}
  {row : Entry} {first : Nat} {others : List Entry}

theorem ikeyUserKeyPrefix_tag (userKey : Bytes) (seq : Nat) (op : OpType) :
    ikeyUserKeyPrefix (userKey ++ keyTag seq op) = userKey := by
  have length : (userKey ++ keyTag seq op).length = userKey.length + 8 := by
    rw [List.length_append, keyTag_length]
  rw [ikeyUserKeyPrefix, if_neg (by omega), length, Nat.add_sub_cancel]
  simp

theorem findRowGroup_at (start offset : Nat) (before after : List (List Entry))
    {group : List Entry} (inside : offset < group.length) :
    findRowGroup (start + before.flatten.length + offset) start (before ++ group :: after) =
      some (start + before.flatten.length, group) := by
  induction before generalizing start with
  | nil => simp [findRowGroup, inside]
  | cons other before ih =>
    have shift : start + (other :: before).flatten.length =
        start + other.length + before.flatten.length := by
      simp [Nat.add_assoc]
    rw [List.cons_append, findRowGroup, shift, if_neg (by omega)]
    exact ih (start + other.length)

theorem Layout.split_group (split : layout.pages = before ++ page :: after) :
    ∃ first group last inner outer, layout.groups = first ++ group :: last ∧
      group = inner ++ page :: outer ∧ before = first.flatten ++ inner ∧
      after = outer ++ last.flatten := by
  rcases List.flatten_eq_append_iff.mp split with
    ⟨first, rest, groups, rfl, tail⟩ | ⟨first, inner, head, outer, last, groups, rfl, tail⟩
  · obtain ⟨empty, outer, last, rfl, none, rfl⟩ := List.flatten_eq_cons_iff.mp tail.symm
    refine ⟨first ++ empty, page :: outer, last, [], outer, by simp [groups], rfl, ?_, rfl⟩
    simp [List.flatten_eq_nil_iff.mpr none]
  · rw [List.cons_append] at tail
    obtain ⟨rfl, rfl⟩ := List.cons.inj tail
    exact ⟨first, inner ++ page :: outer, last, inner, outer, groups, rfl, rfl, rfl⟩

theorem Layout.page_ne {page : List Entry} (member : page ∈ layout.pages) : page ≠ [] := by
  obtain ⟨group, inGroups, inGroup⟩ := List.mem_flatten.mp member
  exact layout.pages_ne group inGroups page inGroup

theorem Layout.readIkeysInPage_eq (split : layout.pages = before ++ page :: after) :
    layout.reader.readIkeysInPage before.flatten.length
        (after.head?.map fun _ => before.flatten.length + page.length) =
      .ok (keyPositions before.flatten.length page) := by
  have present : page ≠ [] := layout.page_ne (by simp [split])
  obtain ⟨first, group, last, inner, outer, groups, rfl, rfl, rfl⟩ := layout.split_group split
  have positive := List.length_pos_iff.mpr present
  have start : (first.map List.flatten).flatten.length = first.flatten.flatten.length := by
    rw [List.flatten_flatten]
  have found := findRowGroup_at 0 inner.flatten.length (first.map List.flatten)
    (last.map List.flatten) (show inner.flatten.length < (inner ++ page :: outer).flatten.length by
      simp only [List.flatten_append, List.flatten_cons, List.length_append]
      omega)
  rw [Nat.zero_add, start, ← List.length_append, ← List.flatten_append] at found
  have upper : (match (outer ++ last.flatten).head?.map fun _ =>
      (first.flatten ++ inner).flatten.length + page.length with
      | some bound => if bound ≤ first.flatten.flatten.length +
          (inner ++ page :: outer).flatten.length then bound
        else first.flatten.flatten.length + (inner ++ page :: outer).flatten.length
      | none => first.flatten.flatten.length + (inner ++ page :: outer).flatten.length) =
      (first.flatten ++ inner).flatten.length + page.length := by
    cases tail : outer ++ last.flatten with
    | nil =>
      obtain ⟨rfl, _⟩ := List.append_eq_nil_iff.mp tail
      simp [Nat.add_assoc]
    | cons next rest =>
      simp only [List.head?_cons, Option.map_some, List.flatten_append, List.flatten_cons,
        List.length_append]
      rw [if_pos (by omega)]
  have rowGroups : layout.reader.rowGroups = first.map List.flatten ++
      (inner ++ page :: outer).flatten :: last.map List.flatten := by
    simp [Layout.reader, groups]
  rw [ParquetReader.readIkeysInPage, rowGroups, found]
  dsimp only
  rw [upper, if_neg (by omega)]
  simp [List.flatten_append]

theorem exactIndex_next (first : Nat) (pages : List (List Entry)) :
    (exactIndex first pages).head?.map Prod.snd = pages.head?.map fun _ => first := by
  cases pages <;> rfl

theorem exactIndex_cons {rest : List (List Entry)} (head : page.head? = some row) :
    exactIndex first (page :: rest) =
      (row.key.bytes ++ keyTag row.seq row.value.opType, first) ::
        exactIndex (first + page.length) rest := by
  rw [exactIndex, head, Option.map_some, Option.getD_some]

theorem Layout.pageItems_eq {before after : List (List Entry)} {page : List Entry}
    (split : layout.pages = before ++ page :: after) :
    pageItems layout.reader lo hi (before.flatten.length,
        (exactIndex (before.flatten.length + page.length) after).head?.map Prod.snd) =
      ((keyPositions before.flatten.length page).filter (inWindow lo hi)).map .ok := by
  rw [pageItems, exactIndex_next, layout.readIkeysInPage_eq split]

theorem keptTogether_of_ne {pages : List (List Entry)}
    (absent : ∀ row ∈ pages.flatten, row.key.bytes ≠ lo) : KeptTogether lo pages := by
  induction pages with
  | nil => exact .nil
  | cons page rest ih =>
    have later := ih fun row member => absent row (by simp [List.mem_flatten.mp member])
    cases rest with
    | nil => exact .singleton _
    | cons next rest =>
      refine .cons_cons ?_ later
      rintro ⟨ends, _⟩
      obtain ⟨row, last, same⟩ := Option.map_eq_some_iff.mp ends
      exact absent row (by simp [List.mem_of_getLast? last]) same

theorem eq_append_iff_of_sublist {A : Type} {found first second : List A}
    (sublist : found.Sublist second) :
    found = first ++ second ↔ first = [] ∧ found = second := by
  constructor
  · intro same
    have lengths := congrArg List.length same
    rw [List.length_append] at lengths
    have empty : first = [] := List.length_eq_zero_iff.mp (by have := sublist.length_le; omega)
    exact ⟨empty, by rw [same, empty, List.nil_append]⟩
  · rintro ⟨rfl, rfl⟩
    rfl

/-- Of a page that the next one follows at or below `lo`, only versions of `lo` are in the window,
and the last row is one of them if any row is. -/
theorem page_skipped_iff {page next : List Entry} (ordered : lo ≤ hi)
    (order : (page ++ next).Pairwise fun a b => a.key ≤ b.key) (present : page ≠ [])
    (head : next.head? = some row) (below : row.key.bytes ≤ lo) :
    (keyPositions first page).filter (inWindow lo hi) = [] ↔
      ¬ ((page.getLast?.map fun row => row.key.bytes) = some lo ∧
        (next.head?.map fun row => row.key.bytes) = some lo) := by
  obtain ⟨inner, _, across⟩ := List.pairwise_append.mp order
  have rowIn := List.mem_of_mem_head? head
  have last : page.getLast? = some (page.getLast present) :=
    List.getLast?_eq_getLast_of_ne_nil present
  have lastIn := List.getLast_mem present
  rw [List.filter_eq_nil_iff, last, head, Option.map_some, Option.map_some]
  constructor
  · rintro none ⟨same, _⟩
    obtain ⟨position, bound, found⟩ := List.getElem_of_mem lastIn
    have listed : ((page.getLast present).key, first + position) ∈ keyPositions first page := by
      refine mem_keyPositions.mpr ⟨Nat.le_add_right _ _, ?_⟩
      rw [Nat.add_sub_cancel_left, List.getElem?_eq_getElem bound, found, Option.map_some]
    have key := Option.some.inj same
    exact none _ listed (by simp [inWindow, key, ordered])
  · rintro apart ⟨key, position⟩ listed within
    obtain ⟨other, found, rfl⟩ := Option.map_eq_some_iff.mp (mem_keyPositions.mp listed).2
    have otherIn := List.mem_of_getElem? found
    have low : lo ≤ other.key.bytes := by
      simp only [inWindow, decide_eq_true_eq] at within
      exact within.1
    have up := UserKey.bytes_le.mpr (inner.rel_getLast_of_rel_getLast_getLast otherIn le_rfl)
    have final := UserKey.bytes_le.mpr (across _ lastIn _ rowIn)
    refine apart ⟨?_, ?_⟩
    · rw [le_antisymm (final.trans below) (low.trans up)]
    · rw [le_antisymm below ((low.trans up).trans final)]

theorem filter_inWindow_eq_nil {rows : List Entry}
    (outside : ∀ row ∈ rows, ¬ (lo ≤ row.key.bytes ∧ row.key.bytes ≤ hi)) :
    (keyPositions first rows).filter (inWindow lo hi) = [] := by
  rw [List.filter_eq_nil_iff]
  rintro ⟨key, position⟩ listed within
  obtain ⟨row, found, rfl⟩ := Option.map_eq_some_iff.mp (mem_keyPositions.mp listed).2
  exact outside row (List.mem_of_getElem? found) (by simpa [inWindow] using within)

theorem outside_window (ordered : lo ≤ hi) {first : Nat} {pages : List (List Entry)}
    (outside : ∀ row ∈ pages.flatten, ¬ (lo ≤ row.key.bytes ∧ row.key.bytes ≤ hi)) :
    (keyPositions first pages.flatten).filter (inWindow lo hi) = [] ∧ KeptTogether lo pages := by
  refine ⟨filter_inWindow_eq_nil outside, keptTogether_of_ne fun row member same => ?_⟩
  rw [← same] at outside ordered
  exact outside row member ⟨le_rfl, ordered⟩

theorem outside_of_over (order : (row :: others).Pairwise fun a b => a.key ≤ b.key)
    (beyond : hi < row.key.bytes) :
    ∀ other ∈ row :: others, ¬ (lo ≤ other.key.bytes ∧ other.key.bytes ≤ hi) := by
  rintro other member ⟨_, within⟩
  rcases List.mem_cons.mp member with rfl | behind
  · exact absurd within (not_le.mpr beyond)
  · have later := UserKey.bytes_le.mpr ((List.pairwise_cons.mp order).1 other behind)
    exact absurd (later.trans within) (not_le.mpr beyond)

theorem Layout.key_order (layout : Layout) : layout.rows.Pairwise fun a b => a.key ≤ b.key :=
  layout.sorted.imp fun ordered => ordered.versionOrder.key_le

theorem Layout.order_behind {before pages : List (List Entry)}
    (split : layout.pages = before ++ pages) :
    pages.flatten.Pairwise fun a b => a.key ≤ b.key := by
  have whole := layout.key_order
  rw [show layout.rows = (before ++ pages).flatten from congrArg List.flatten split,
    List.flatten_append] at whole
  exact (List.pairwise_append.mp whole).2.1

/-- The walk from a page on finds no row outside the window, and all rows inside it exactly if no
page boundary separates versions of `lo`. -/
theorem Layout.walk_spec (ordered : lo ≤ hi) {before pages : List (List Entry)}
    (split : layout.pages = before ++ pages) :
    ((neededPages lo hi (exactIndex before.flatten.length pages)).flatMap
        (pageItems layout.reader lo hi)).Sublist
      (((keyPositions before.flatten.length pages.flatten).filter (inWindow lo hi)).map .ok) ∧
    ((neededPages lo hi (exactIndex before.flatten.length pages)).flatMap
        (pageItems layout.reader lo hi) =
      ((keyPositions before.flatten.length pages.flatten).filter (inWindow lo hi)).map .ok ↔
        KeptTogether lo pages) := by
  induction pages generalizing before with
  | nil => simp [exactIndex, neededPages, keyPositions, KeptTogether]
  | cons page rest ih =>
    have present : page ≠ [] := layout.page_ne (by simp [split])
    obtain ⟨row, others, rfl⟩ := List.exists_cons_of_ne_nil present
    have order : ((row :: others) ++ rest.flatten).Pairwise fun a b => a.key ≤ b.key :=
      layout.order_behind split
    have next : before.flatten.length + (row :: others).length =
        (before ++ [row :: others]).flatten.length := by simp
    have read := @Layout.pageItems_eq layout lo hi _ _ _ split
    have later := @ih (before ++ [row :: others]) (by simp [split])
    rw [← next] at later
    rw [exactIndex_cons rfl, neededPages, List.flatten_cons, ikeyUserKeyPrefix_tag]
    split
    · rename_i beyond
      have above : ∀ other ∈ ((row :: others) :: rest).flatten,
          ¬ (lo ≤ other.key.bytes ∧ other.key.bytes ≤ hi) := outside_of_over order beyond
      obtain ⟨empty, kept⟩ := @outside_window _ _ ordered before.flatten.length _ above
      rw [← List.flatten_cons, empty]
      exact ⟨by simp, fun _ => kept, by simp⟩
    · rw [keyPositions_append, List.filter_append, List.map_append]
      cases rest with
      | nil =>
        rw [exactIndex, List.head?_nil, Option.any_none, if_neg Bool.false_ne_true]
        rw [exactIndex, List.head?_nil] at read
        rw [List.flatMap_cons, read]
        simp [neededPages, keyPositions, KeptTogether]
      | cons following tail =>
        obtain ⟨head, more, rfl⟩ := List.exists_cons_of_ne_nil
          (@Layout.page_ne layout following (by simp [split]))
        have apart : KeptTogether lo ((row :: others) :: (head :: more) :: tail) ↔ _ :=
          List.isChain_cons_cons
        rw [apart, ← KeptTogether, ← later.2]
        split
        · rename_i skipped
          rw [exactIndex_cons rfl, List.head?_cons, Option.any_some, ikeyUserKeyPrefix_tag,
            decide_eq_true_eq] at skipped
          have near : ((row :: others) ++ (head :: more)).Pairwise fun a b => a.key ≤ b.key := by
            rw [List.flatten_cons, ← List.append_assoc] at order
            exact (List.pairwise_append.mp order).1
          rw [eq_append_iff_of_sublist later.1, List.map_eq_nil_iff,
            page_skipped_iff ordered near present rfl skipped]
          exact ⟨later.1.trans (List.sublist_append_right _ _), Iff.rfl⟩
        · rename_i needed
          rw [exactIndex_cons rfl, List.head?_cons, Option.any_some, ikeyUserKeyPrefix_tag,
            decide_eq_true_eq] at needed
          rw [List.flatMap_cons, read, List.append_cancel_left_eq]
          refine ⟨List.Sublist.append_left later.1 _, ?_⟩
          refine (and_iff_right ?_).symm
          rintro ⟨_, begins⟩
          exact needed (le_of_eq (Option.some.inj begins))

theorem Layout.keyMin_le (member : row ∈ layout.rows) :
    layout.reader.keyMin ≤ row.key.bytes := by
  have order := layout.key_order
  unfold reader
  cases split : layout.rows with
  | nil => simp [split] at member
  | cons first rest =>
    rw [split] at member order
    rcases List.mem_cons.mp member with rfl | later
    · exact le_rfl
    · exact UserKey.bytes_le.mpr ((List.pairwise_cons.mp order).1 row later)

theorem Layout.le_keyMax (member : row ∈ layout.rows) :
    row.key.bytes ≤ layout.reader.keyMax := by
  have present := List.ne_nil_of_mem member
  have last := layout.key_order.rel_getLast_of_rel_getLast_getLast member le_rfl
  change row.key.bytes ≤ (layout.rows.getLast?.map fun row => row.key.bytes).getD []
  rw [List.getLast?_eq_getLast_of_ne_nil present, Option.map_some, Option.getD_some]
  exact UserKey.bytes_le.mpr last

theorem Layout.outside_of_disjoint (layout : Layout)
    (disjoint : (layout.reader.keyMin ≠ [] ∧ hi < layout.reader.keyMin) ∨
      (layout.reader.keyMax ≠ [] ∧ layout.reader.keyMax < lo) ∨ hi < lo) :
    ∀ row ∈ layout.rows, ¬ (lo ≤ row.key.bytes ∧ row.key.bytes ≤ hi) := by
  rintro row member ⟨lower, upper⟩
  rcases disjoint with ⟨_, below⟩ | ⟨_, above⟩ | inverted
  · exact absurd ((layout.keyMin_le member).trans upper) (not_le.mpr below)
  · exact absurd (lower.trans (layout.le_keyMax member)) (not_le.mpr above)
  · exact absurd (lower.trans upper) (not_le.mpr inverted)

theorem Layout.fallback_scans (layout : Layout) (lo hi : Bytes) :
    Yields { layout.reader with kvIndex := none }
      (ParquetReader.iterUserKeysInRange { layout.reader with kvIndex := none } lo hi)
      ((layout.scanned lo hi).map .ok) := by
  rw [yields_iff, ParquetReader.iterUserKeysInRange]
  split
  · rename_i disjoint
    have empty : layout.scanned lo hi = [] :=
      filter_inWindow_eq_nil (layout.outside_of_disjoint disjoint)
    rw [empty]
    rfl
  · simp [RangeKeyIter.remaining, ParquetReader.readAllIkeys, reader, scanned, rows, pages,
      List.flatten_flatten]

theorem Layout.firstKey_eq (split : layout.pages = before ++ (row :: others) :: after) :
    firstKey layout.rows before.flatten.length = some row.key := by
  simp [firstKey, Layout.rows, split]

theorem Layout.rowsInPage_eq (split : layout.pages = before ++ page :: after) :
    rowsInPage layout.rows before.flatten.length
      ((exactIndex (before.flatten.length + page.length) after).head?.map Prod.snd) = page := by
  rw [exactIndex_next, rowsInPage, Layout.rows, split, List.flatten_append, List.drop_left,
    List.flatten_cons]
  cases after with
  | nil => simp
  | cons next rest => simp

theorem Layout.walk_selectPages {before pages : List (List Entry)}
    (split : layout.pages = before ++ pages) :
    (neededPages lo hi (exactIndex before.flatten.length pages)).flatMap
        (pageItems layout.reader lo hi) =
      ((selectPages layout.rows lo hi
          ((exactIndex before.flatten.length pages).map Prod.snd)).flatMap fun page =>
        (keyPositions page.1 (rowsInPage layout.rows page.1 page.2)).filter
          (inWindow lo hi)).map .ok := by
  induction pages generalizing before with
  | nil => rfl
  | cons page rest ih =>
    obtain ⟨row, others, rfl⟩ := List.exists_cons_of_ne_nil
      (@Layout.page_ne layout page (by simp [split]))
    have behind : layout.pages = (before ++ [row :: others]) ++ rest := by simp [split]
    have later := ih behind
    have next : before.flatten.length + (row :: others).length =
        (before ++ [row :: others]).flatten.length := by simp
    rw [← next] at later
    have below : ((exactIndex (before.flatten.length + (row :: others).length) rest).head?.any
          fun entry => ikeyUserKeyPrefix entry.1 ≤ lo) =
        (((exactIndex (before.flatten.length + (row :: others).length) rest).map
          Prod.snd).head?.bind (firstKey layout.rows)).any (·.bytes ≤ lo) := by
      cases rest with
      | nil => rfl
      | cons following tail =>
        obtain ⟨head, more, rfl⟩ := List.exists_cons_of_ne_nil
          (@Layout.page_ne layout following (by simp [split]))
        rw [exactIndex_cons rfl, List.map_cons, List.head?_cons, List.head?_cons, next,
          Option.bind_some, layout.firstKey_eq behind, Option.any_some, Option.any_some,
          ikeyUserKeyPrefix_tag]
    rw [exactIndex_cons rfl, neededPages, ikeyUserKeyPrefix_tag, List.map_cons, selectPages,
      layout.firstKey_eq split, Option.any_some, below]
    simp only [decide_eq_true_eq]
    split
    · rfl
    · split
      · exact later
      · rw [List.flatMap_cons, List.flatMap_cons, List.map_append, layout.pageItems_eq split, later,
          List.head?_map, layout.rowsInPage_eq split]

theorem iterUserKeysInRange_layout {lib : ParquetLib} {file : DataFile}
    (rows : layout.rows = file.rows)
    (index : lib.kvIndex file.rows = some ((exactIndex 0 layout.pages).map Prod.snd)) :
    Yields layout.reader (layout.reader.iterUserKeysInRange lo hi)
      ((iterUserKeysInRange lib file lo hi).map .ok) := by
  have keyMin : layout.reader.keyMin = file.keyMin := by
    rw [Layout.reader, rows, List.head?_eq_some_head file.rows_ne]
    rfl
  have keyMax : layout.reader.keyMax = file.keyMax := by
    rw [Layout.reader, rows, List.getLast?_eq_getLast_of_ne_nil file.rows_ne]
    rfl
  have walk := @Layout.walk_selectPages layout lo hi [] layout.pages rfl
  rw [yields_iff, ParquetReader.iterUserKeysInRange, iterUserKeysInRange, keyMin, keyMax, index]
  split
  · rfl
  · rw [rows] at walk
    simpa [RangeKeyIter.remaining, Layout.reader] using walk

end Pages

/-- Through the index the iterator returns the filtered scan exactly if no page boundary separates
versions of the lower bound. -/
theorem range_iter_eq_scan_iff (layout : Layout) (lo hi : Bytes) (ordered : lo ≤ hi) :
    Yields layout.reader (layout.reader.iterUserKeysInRange lo hi)
        ((layout.scanned lo hi).map .ok) ↔ KeptTogether lo layout.pages := by
  rw [yields_iff, ParquetReader.iterUserKeysInRange]
  split
  · rename_i disjoint
    obtain ⟨empty, kept⟩ := @outside_window _ _ ordered 0 _ (layout.outside_of_disjoint disjoint)
    rw [show layout.scanned lo hi = [] from empty]
    exact ⟨fun _ => kept, fun _ => rfl⟩
  · have walk := (@Layout.walk_spec layout lo hi ordered [] layout.pages rfl).2
    rw [← walk]
    simp [RangeKeyIter.remaining, Layout.reader, Layout.scanned, Layout.rows]

/-- One row group of two pages, and versions of one key on both. -/
def straddling : Layout where
  groups := [[[⟨.ofByte 7, 8, .put ⟨[]⟩⟩], [⟨.ofByte 7, 3, .put ⟨[]⟩⟩]]]
  pages_ne := by decide
  sorted := by decide

theorem range_iter_skips_version :
    [7] ≤ ([7] : Bytes) ∧
      straddling.scanned [7] [7] = [(⟨[7], by decide⟩, 0), (⟨[7], by decide⟩, 1)] ∧
      Yields straddling.reader (straddling.reader.iterUserKeysInRange [7] [7])
        [.ok (⟨[7], by decide⟩, 1)] :=
  ⟨by decide, by decide, yields_iff.mpr (by decide +kernel)⟩

/-- Two row groups of three pages in all, with versions of a key inside one page. -/
def sampleLayout : Layout where
  groups := [[[⟨.ofByte 5, 2, .put ⟨[]⟩⟩], [⟨.ofByte 7, 8, .delete none⟩,
    ⟨.ofByte 7, 3, .put ⟨[]⟩⟩]],
    [[⟨.ofByte 9, 4, .put ⟨[]⟩⟩]]]
  pages_ne := by decide
  sorted := by decide

theorem range_iter_eq_scan_sample :
    Yields sampleLayout.reader (sampleLayout.reader.iterUserKeysInRange [7] [9])
      ((sampleLayout.scanned [7] [9]).map .ok) :=
  (range_iter_eq_scan_iff sampleLayout [7] [9] (by decide)).mpr
    (by unfold KeptTogether; decide)

end Merutable.Reader
