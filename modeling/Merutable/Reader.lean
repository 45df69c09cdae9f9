import Merutable.Parquet

/-! `parquet::reader`: point lookup through the bloom filter and the page index, range scan, and the
key iterator that deletion-vector resolution walks. -/

namespace Merutable

open Foundation

/-- What the Parquet writer decides about a file with these rows: the first rows of its data pages
(absent in a file without an index), its bloom filter and its size. -/
structure ParquetLib where
  kvIndex : List Entry → Option (List Nat)
  bloom : List Entry → UserKey → Bool
  fileSize : List Entry → Nat
  pages_start : ∀ rows starts, rows ≠ [] → kvIndex rows = some starts → starts.head? = some 0
  pages_increase : ∀ rows starts, kvIndex rows = some starts → starts.Pairwise (· < ·)
  pages_bounded : ∀ rows starts, kvIndex rows = some starts → ∀ start ∈ starts, start < rows.length
  bloom_member : ∀ rows, ∀ row ∈ rows, bloom rows row.key = true

namespace Reader

def findVisible (deleted : Finset Nat) (key : UserKey) (readSeq : Nat) :
    Nat → List Entry → Option Entry
  | _, [] => none
  | position, row :: rest =>
    if position ∈ deleted then findVisible deleted key readSeq (position + 1) rest
    else if row.key ≠ key then findVisible deleted key readSeq (position + 1) rest
    else if readSeq < row.seq then findVisible deleted key readSeq (position + 1) rest
    else some row

def firstKey (rows : List Entry) (start : Nat) : Option UserKey := rows[start]?.map Entry.key

/-- The last page whose first key is not above the probe, with the start of the next page. -/
def findPageWithNext (rows : List Entry) (key : UserKey) : List Nat → Option (Nat × Option Nat)
  | [] => none
  | start :: rest =>
    if (firstKey rows start).any (· ≤ key) then
      (findPageWithNext rows key rest).or (some (start, rest.head?))
    else none

def rowsInPage (rows : List Entry) (start : Nat) (next : Option Nat) : List Entry :=
  (rows.drop start).take (next.getD rows.length - start)

def get (lib : ParquetLib) (file : DataFile) (deleted : Finset Nat) (key : UserKey)
    (readSeq : Nat) : Option Entry :=
  if lib.bloom file.rows key = false then none
  else if file.keyMin ≠ [] ∧ key.bytes < file.keyMin then none
  else if file.keyMax ≠ [] ∧ file.keyMax < key.bytes then none
  else
    match (lib.kvIndex file.rows).bind (findPageWithNext file.rows key) with
    | some (start, next) =>
      let rows := rowsInPage file.rows start next
      -- Versions of the key may continue from the page before.
      let mayHaveEarlier := 0 < start ∧ rows.head?.map Entry.key = some key
      match findVisible deleted key readSeq start rows with
      | some row =>
        if mayHaveEarlier then findVisible deleted key readSeq 0 file.rows else some row
      | none => findVisible deleted key readSeq 0 file.rows
    | none => findVisible deleted key readSeq 0 file.rows

theorem findVisible_eq (deleted : Finset Nat) (key : UserKey) (readSeq position : Nat)
    (rows : List Entry) : findVisible deleted key readSeq position rows =
      (liveFrom deleted position rows).find? fun row => row.key = key ∧ row.seq ≤ readSeq := by
  induction rows generalizing position with
  | nil => rfl
  | cons row rest ih =>
    simp only [findVisible, liveFrom]
    by_cases masked : position ∈ deleted
    · rw [if_pos masked, if_pos masked, ih]
    · rw [if_neg masked, if_neg masked, List.find?_cons]
      by_cases other : row.key = key
      · by_cases later : readSeq < row.seq
        · simp [other, later, Nat.not_le.mpr later, ih]
        · simp [other, later, Nat.not_lt.mp later]
      · simp [other, ih]

theorem findVisible_append (deleted : Finset Nat) (key : UserKey) (readSeq position : Nat)
    (first second : List Entry) : findVisible deleted key readSeq position (first ++ second) =
      (findVisible deleted key readSeq position first).or
        (findVisible deleted key readSeq (position + first.length) second) := by
  induction first generalizing position with
  | nil => rfl
  | cons row rest ih =>
    have count : position + 1 + rest.length = position + (row :: rest).length := by
      simp only [List.length_cons]
      omega
    simp only [List.cons_append, findVisible, ih, count]
    split
    · rfl
    · split
      · rfl
      · split <;> rfl

variable {rows : List Entry} {key : UserKey} {deleted : Finset Nat} {row : Entry} {file : DataFile}
  {next : Option Nat} {rest : List Nat} {start position : Nat} {lo hi : Bytes} {lib : ParquetLib}

theorem findVisible_none (absent : ∀ row ∈ rows, row.key ≠ key) (readSeq position : Nat) :
    findVisible deleted key readSeq position rows = none := by
  rw [findVisible_eq, List.find?_eq_none]
  intro row member
  have inRows := (liveFrom_sublist deleted position rows).subset member
  simp [absent row inRows]

theorem findVisible_mem {readSeq position : Nat}
    (found : findVisible deleted key readSeq position rows = some row) :
    row ∈ rows ∧ row.key = key ∧ row.seq ≤ readSeq := by
  rw [findVisible_eq] at found
  have member := (liveFrom_sublist deleted position rows).subset (List.mem_of_find?_eq_some found)
  have holds := List.find?_some found
  exact ⟨member, by simpa using holds⟩

theorem findVisible_page {readSeq start : Nat}
    (found : findVisible deleted key readSeq start (rowsInPage file.rows start next) = some row)
    (boundary : ¬ (0 < start ∧ (rowsInPage file.rows start next).head?.map Entry.key = some key)) :
    findVisible deleted key readSeq 0 file.rows = some row := by
  have hit := findVisible_mem found
  have bounded : start < file.rows.length := by
    by_contra outside
    have empty : rowsInPage file.rows start next = [] := by
      simp [rowsInPage, List.drop_eq_nil_of_le (Nat.not_lt.mp outside)]
    rw [empty] at hit
    exact List.not_mem_nil hit.1
  have parts : file.rows = file.rows.take start ++ (rowsInPage file.rows start next ++
      (file.rows.drop start).drop (next.getD file.rows.length - start)) := by
    rw [rowsInPage, List.take_append_drop, List.take_append_drop]
  have length : (file.rows.take start).length = start := by
    rw [List.length_take]
    omega
  have order := file.key_order
  rw [parts] at order
  have before : ∀ earlier ∈ file.rows.take start, earlier.key ≠ key := by
    intro earlier member same
    have positive : 0 < start := by
      cases start with
      | zero => simp at member
      | succ start => exact Nat.succ_pos start
    cases page : rowsInPage file.rows start next with
    | nil =>
      rw [page] at hit
      exact List.not_mem_nil hit.1
    | cons head rest =>
      rw [page] at hit order boundary
      have inPage : head ∈ (head :: rest) ++
          (file.rows.drop start).drop (next.getD file.rows.length - start) := by simp
      have lower := (List.pairwise_append.mp order).2.2 earlier member head inPage
      have upper : head.key ≤ row.key := by
        rcases List.mem_cons.mp hit.1 with rfl | later
        · exact le_rfl
        · have inner := (List.pairwise_append.mp (List.pairwise_append.mp order).2.1).1
          exact (List.pairwise_cons.mp inner).1 row later
      have equal : head.key = key := le_antisymm (hit.2.1 ▸ upper) (same ▸ lower)
      exact boundary ⟨positive, by simp [equal]⟩
  rw [parts, findVisible_append, findVisible_none before, Option.none_or, Nat.zero_add, length,
    findVisible_append, found, Option.some_or]

theorem get_eq (lib : ParquetLib) (file : DataFile) (deleted : Finset Nat) (key : UserKey)
    (readSeq : Nat) : get lib file deleted key readSeq =
      (liveFrom deleted 0 file.rows).find? fun row => row.key = key ∧ row.seq ≤ readSeq := by
  rw [← findVisible_eq]
  unfold get
  split
  · rename_i rejected
    symm
    apply findVisible_none
    intro row member same
    have passed := lib.bloom_member file.rows row member
    rw [same, rejected] at passed
    cases passed
  · split
    · rename_i low
      symm
      apply findVisible_none
      intro row member same
      exact absurd (same ▸ DataFile.keyMin_le member) (not_le.mpr low.2)
    · split
      · rename_i high
        symm
        apply findVisible_none
        intro row member same
        exact absurd (same ▸ DataFile.le_keyMax member) (not_le.mpr high.2)
      · split
        · dsimp only
          split
          · rename_i found
            split
            · rfl
            · rename_i boundary
              exact (findVisible_page found boundary).symm
          · rfl
        · rfl

/-- The scan loop over the rows of a file; `last` is the key emitted before. -/
def scanFrom (deleted : Finset Nat) (start stop : Option UserKey) (readSeq : Nat) :
    Nat → Option UserKey → List Entry → List Entry
  | _, _, [] => []
  | position, last, row :: rest =>
    if position ∈ deleted then scanFrom deleted start stop readSeq (position + 1) last rest
    else if readSeq < row.seq then scanFrom deleted start stop readSeq (position + 1) last rest
    else if start.any (row.key < ·) then
      scanFrom deleted start stop readSeq (position + 1) last rest
    else if stop.any (· ≤ row.key) then []
    else if last = some row.key then scanFrom deleted start stop readSeq (position + 1) last rest
    else row :: scanFrom deleted start stop readSeq (position + 1) (some row.key) rest

def scan (file : DataFile) (start stop : Option UserKey) (readSeq : Nat) (deleted : Finset Nat) :
    List Entry :=
  scanFrom deleted start stop readSeq 0 none file.rows

/-- `start ≤ key < stop`, an absent bound being no bound. -/
def inRange (start stop : Option UserKey) (key : UserKey) : Bool :=
  !start.any (key < ·) && !stop.any (· ≤ key)

theorem scanFrom_eq (deleted : Finset Nat) (start stop : Option UserKey) (readSeq position : Nat)
    (last : Option UserKey) (order : rows.Pairwise fun a b => a.key ≤ b.key) :
    scanFrom deleted start stop readSeq position last rows =
      keepFirst Entry.key last ((liveFrom deleted position rows).filter fun row =>
        row.seq ≤ readSeq ∧ inRange start stop row.key) := by
  induction rows generalizing position last with
  | nil => rfl
  | cons row rest ih =>
    obtain ⟨front, tail⟩ := List.pairwise_cons.mp order
    simp only [scanFrom, liveFrom]
    by_cases masked : position ∈ deleted
    · rw [if_pos masked, if_pos masked, ih _ _ tail]
    rw [if_neg masked, if_neg masked, List.filter_cons]
    by_cases later : readSeq < row.seq
    · rw [if_pos later, ih _ _ tail, if_neg (by simp [Nat.not_le.mpr later])]
    rw [if_neg later]
    by_cases low : start.any (row.key < ·) = true
    · rw [if_pos low, ih _ _ tail, if_neg (by simp [inRange, low])]
    rw [if_neg low]
    by_cases high : stop.any (· ≤ row.key) = true
    · -- The loop breaks here: every later row has a key past the bound as well.
      have beyond : ∀ other ∈ liveFrom deleted (position + 1) rest,
          inRange start stop other.key = false := by
        intro other member
        have above := front other ((liveFrom_sublist _ _ _).subset member)
        cases stop with
        | none => simp at high
        | some bound =>
          have past : bound ≤ other.key := le_trans (by simpa using high) above
          simp [inRange, past]
      have empty : (liveFrom deleted (position + 1) rest).filter (fun row =>
          row.seq ≤ readSeq ∧ inRange start stop row.key) = [] := by
        rw [List.filter_eq_nil_iff]
        intro other member
        simp [beyond other member]
      rw [if_pos high, if_neg (by simp [inRange, high]), empty]
      rfl
    have kept : decide (row.seq ≤ readSeq ∧ inRange start stop row.key = true) = true := by
      simp [inRange, low, high, Nat.not_lt.mp later]
    rw [if_neg high, if_pos kept]
    simp only [keepFirst]
    split
    · rw [ih _ _ tail]
    · rw [ih _ _ tail]

theorem scan_eq (file : DataFile) (start stop : Option UserKey) (readSeq : Nat)
    (deleted : Finset Nat) : scan file start stop readSeq deleted =
      keepFirst Entry.key none ((liveFrom deleted 0 file.rows).filter fun row =>
        row.seq ≤ readSeq ∧ inRange start stop row.key) :=
  scanFrom_eq deleted start stop readSeq 0 none file.key_order

/-- Keys with their positions, counted from `first`. -/
def keyPositions : Nat → List Entry → List (UserKey × Nat)
  | _, [] => []
  | first, row :: rest => (row.key, first) :: keyPositions (first + 1) rest

/-- The pages the index puts into `[lo, hi]`: a page is skipped when the next one starts at or below
`lo`, and the walk ends at the first page that starts above `hi`. -/
def selectPages (rows : List Entry) (lo hi : Bytes) : List Nat → List (Nat × Option Nat)
  | [] => []
  | start :: rest =>
    if (firstKey rows start).any (hi < ·.bytes) then []
    else if (rest.head?.bind (firstKey rows)).any (·.bytes ≤ lo) then selectPages rows lo hi rest
    else (start, rest.head?) :: selectPages rows lo hi rest

def inWindow (lo hi : Bytes) (item : UserKey × Nat) : Bool :=
  lo ≤ item.1.bytes ∧ item.1.bytes ≤ hi

def iterUserKeysInRange (lib : ParquetLib) (file : DataFile) (lo hi : Bytes) :
    List (UserKey × Nat) :=
  if (file.keyMin ≠ [] ∧ hi < file.keyMin) ∨ (file.keyMax ≠ [] ∧ file.keyMax < lo) ∨ hi < lo then []
  else
    match lib.kvIndex file.rows with
    | none => (keyPositions 0 file.rows).filter (inWindow lo hi)
    | some starts => (selectPages file.rows lo hi starts).flatMap fun page =>
      (keyPositions page.1 (rowsInPage file.rows page.1 page.2)).filter (inWindow lo hi)

theorem mem_keyPositions {first position : Nat} :
    (key, position) ∈ keyPositions first rows ↔
      first ≤ position ∧ rows[position - first]?.map Entry.key = some key := by
  induction rows generalizing first with
  | nil => simp [keyPositions]
  | cons row rest ih =>
    rw [keyPositions, List.mem_cons, ih, Prod.mk.injEq]
    rcases Nat.lt_trichotomy position first with less | same | greater
    · constructor
      · rintro (⟨_, same⟩ | ⟨bound, _⟩) <;> omega
      · rintro ⟨bound, _⟩
        omega
    · subst same
      simp [eq_comm]
    · obtain ⟨offset, rfl⟩ : ∃ offset, position = first + 1 + offset :=
        ⟨position - first - 1, by omega⟩
      have inner : first + 1 + offset - (first + 1) = offset := by omega
      have outer : first + 1 + offset - first = offset + 1 := by omega
      rw [inner, outer, List.getElem?_cons_succ]
      constructor
      · rintro (⟨_, same⟩ | ⟨_, found⟩)
        · omega
        · exact ⟨by omega, found⟩
      · rintro ⟨_, found⟩
        exact .inr ⟨by omega, found⟩

theorem keyPositions_append (first : Nat) (rows later : List Entry) :
    keyPositions first (rows ++ later) =
      keyPositions first rows ++ keyPositions (first + rows.length) later := by
  induction rows generalizing first with
  | nil => rfl
  | cons row rest ih =>
    rw [List.cons_append, keyPositions, ih, keyPositions, List.cons_append, List.length_cons,
      Nat.add_right_comm, Nat.add_assoc]

theorem keyPositions_ascending (first : Nat) (order : rows.Pairwise fun a b => a.key ≤ b.key) :
    (keyPositions first rows).Pairwise fun a b => a.1 ≤ b.1 := by
  induction rows generalizing first with
  | nil => exact List.Pairwise.nil
  | cons row rest ih =>
    obtain ⟨front, tail⟩ := List.pairwise_cons.mp order
    refine List.pairwise_cons.mpr ⟨?_, ih (first + 1) tail⟩
    rintro ⟨key, position⟩ member
    obtain ⟨other, found, rfl⟩ := Option.map_eq_some_iff.mp (mem_keyPositions.mp member).2
    exact front other (List.mem_of_getElem? found)

theorem rowsInPage_last (rows : List Entry) (start : Nat) :
    rowsInPage rows start none = rows.drop start := by
  apply List.take_of_length_le
  simp

theorem drop_eq_page_append (rows : List Entry) {start next : Nat} (less : start < next) :
    rows.drop start = rowsInPage rows start (some next) ++ rows.drop next := by
  have shift : rows.drop next = (rows.drop start).drop (next - start) := by
    rw [List.drop_drop]
    congr 1
    omega
  rw [shift, rowsInPage, Option.getD_some, List.take_append_drop]

theorem rowsInPage_length {start next : Nat} (less : start < next) (bound : next < rows.length) :
    start + (rowsInPage rows start (some next)).length = next := by
  simp only [rowsInPage, Option.getD_some, List.length_take, List.length_drop]
  omega

theorem selectPages_sublist (lo hi : Bytes) {start : Nat}
    (increase : (start :: rest).Pairwise (· < ·)) (bounded : ∀ page ∈ rest, page < rows.length) :
    ((selectPages rows lo hi (start :: rest)).flatMap fun page =>
      keyPositions page.1 (rowsInPage rows page.1 page.2)).Sublist
        (keyPositions start (rows.drop start)) := by
  induction rest generalizing start with
  | nil =>
    simp only [selectPages]
    split
    · simp
    · simp [rowsInPage_last]
  | cons next rest ih =>
    obtain ⟨front, tail⟩ := List.pairwise_cons.mp increase
    have less := front next List.mem_cons_self
    have later := ih tail fun page member => bounded page (List.mem_cons_of_mem _ member)
    rw [drop_eq_page_append rows less, keyPositions_append,
      rowsInPage_length less (bounded next List.mem_cons_self)]
    rw [selectPages]
    split
    · simp
    · split
      · exact later.trans (List.sublist_append_right _ _)
      · rw [List.flatMap_cons, List.head?_cons]
        exact List.Sublist.append_left later _

theorem mem_page (found : rows[position]? = some row) (reached : start ≤ position)
    (before : ∀ bound, next = some bound → position < bound) :
    (row.key, position) ∈ keyPositions start (rowsInPage rows start next) := by
  obtain ⟨valid, _⟩ := List.getElem?_eq_some_iff.mp found
  have shift : start + (position - start) = position := by omega
  have short : position - start < next.getD rows.length - start := by
    cases next with
    | none =>
      rw [Option.getD_none]
      omega
    | some bound =>
      have := before bound rfl
      rw [Option.getD_some]
      omega
  refine mem_keyPositions.mpr ⟨reached, ?_⟩
  rw [rowsInPage, List.getElem?_take_of_lt short, List.getElem?_drop, shift, found, Option.map_some]

theorem selectPages_covers (unique : rows.Pairwise fun a b => a.key < b.key)
    (increase : (start :: rest).Pairwise (· < ·))
    (bounded : ∀ page ∈ start :: rest, page < rows.length) (found : rows[position]? = some row)
    (within : lo ≤ row.key.bytes ∧ row.key.bytes ≤ hi) (reached : start ≤ position) :
    ∃ page ∈ selectPages rows lo hi (start :: rest),
      (row.key, position) ∈ keyPositions page.1 (rowsInPage rows page.1 page.2) := by
  obtain ⟨valid, rfl⟩ := List.getElem?_eq_some_iff.mp found
  have order := List.pairwise_iff_getElem.mp unique
  have low : ∀ start < rows.length, start ≤ position →
      ¬ (firstKey rows start).any (hi < ·.bytes) = true := by
    intro start startBound reached
    rw [firstKey, List.getElem?_eq_getElem startBound]
    rcases Nat.lt_or_eq_of_le reached with less | rfl
    · simpa using le_trans (UserKey.bytes_le.mpr (order _ _ startBound valid less).le) within.2
    · simpa using within.2
  induction rest generalizing start with
  | nil =>
    rw [selectPages, if_neg (low start (bounded start List.mem_cons_self) reached)]
    exact ⟨(start, none), by simp, mem_page found reached (by simp)⟩
  | cons next rest ih =>
    obtain ⟨front, tail⟩ := List.pairwise_cons.mp increase
    have nextBound := bounded next (by simp)
    rw [selectPages, if_neg (low start (bounded start List.mem_cons_self) reached)]
    by_cases far : next ≤ position
    · obtain ⟨page, selected, member⟩ := ih tail
        (fun page inRest => bounded page (List.mem_cons_of_mem _ inRest)) far
      split
      · exact ⟨page, selected, member⟩
      · exact ⟨page, List.mem_cons_of_mem _ selected, member⟩
    · have near := Nat.not_le.mp far
      have needed : ¬ ((next :: rest).head?.bind (firstKey rows)).any (·.bytes ≤ lo) = true := by
        rw [List.head?_cons, Option.bind_some, firstKey, List.getElem?_eq_getElem nextBound]
        have above := UserKey.bytes_lt.mpr (order position next valid nextBound near)
        simpa using lt_of_le_of_lt within.1 above
      rw [if_neg needed]
      exact ⟨(start, some next), by simp, mem_page found reached (by simpa using near)⟩

theorem iterUserKeysInRange_sublist (lib : ParquetLib) (file : DataFile) (lo hi : Bytes) :
    (iterUserKeysInRange lib file lo hi).Sublist
      ((keyPositions 0 file.rows).filter (inWindow lo hi)) := by
  unfold iterUserKeysInRange
  split
  · simp
  · split
    · exact List.Sublist.refl _
    · rename_i starts index
      obtain ⟨rest, rfl⟩ : ∃ rest, starts = 0 :: rest := by
        have first := lib.pages_start file.rows starts file.rows_ne index
        exact ⟨starts.tail, (List.cons_head?_tail first).symm⟩
      have pages := selectPages_sublist lo hi (lib.pages_increase _ _ index) fun page member =>
        lib.pages_bounded _ _ index page (List.mem_cons_of_mem _ member)
      rw [List.drop_zero] at pages
      rw [← List.filter_flatMap]
      exact pages.filter _

theorem iterUserKeysInRange_sound {position : Nat}
    (member : (key, position) ∈ iterUserKeysInRange lib file lo hi) :
    file.rows[position]?.map Entry.key = some key ∧ lo ≤ key.bytes ∧ key.bytes ≤ hi := by
  have inFilter := (iterUserKeysInRange_sublist lib file lo hi).subset member
  obtain ⟨listed, within⟩ := List.mem_filter.mp inFilter
  exact ⟨by simpa using (mem_keyPositions.mp listed).2, by simpa [inWindow] using within⟩

theorem iterUserKeysInRange_ascending (lib : ParquetLib) (file : DataFile) (lo hi : Bytes) :
    (iterUserKeysInRange lib file lo hi).Pairwise fun a b => a.1 ≤ b.1 :=
  ((keyPositions_ascending 0 file.key_order).filter _).sublist
    (iterUserKeysInRange_sublist lib file lo hi)

theorem iterUserKeysInRange_complete (unique : file.rows.Pairwise fun a b => a.key < b.key)
    {position : Nat} (found : file.rows[position]? = some row)
    (within : lo ≤ row.key.bytes ∧ row.key.bytes ≤ hi) :
    (row.key, position) ∈ iterUserKeysInRange lib file lo hi := by
  have present := List.mem_of_getElem? found
  have overlaps : ¬ ((file.keyMin ≠ [] ∧ hi < file.keyMin) ∨
      (file.keyMax ≠ [] ∧ file.keyMax < lo) ∨ hi < lo) := by
    rintro (⟨_, below⟩ | ⟨_, above⟩ | inverted)
    · exact absurd (le_trans (DataFile.keyMin_le present) within.2) (not_le.mpr below)
    · exact absurd (le_trans within.1 (DataFile.le_keyMax present)) (not_le.mpr above)
    · exact absurd (le_trans within.1 within.2) (not_le.mpr inverted)
  unfold iterUserKeysInRange
  rw [if_neg overlaps]
  split
  · exact List.mem_filter.mpr ⟨mem_keyPositions.mpr ⟨Nat.zero_le _, by simp [found]⟩,
      by simpa [inWindow] using within⟩
  · rename_i starts index
    obtain ⟨rest, rfl⟩ : ∃ rest, starts = 0 :: rest := by
      have first := lib.pages_start file.rows starts file.rows_ne index
      exact ⟨starts.tail, (List.cons_head?_tail first).symm⟩
    obtain ⟨page, selected, member⟩ := selectPages_covers unique (lib.pages_increase _ _ index)
      (lib.pages_bounded _ _ index) found within (Nat.zero_le _)
    exact List.mem_flatMap.mpr ⟨page, selected,
      List.mem_filter.mpr ⟨member, by simpa [inWindow] using within⟩⟩

end Reader

end Merutable
