import Merutable.Foundation.Lexicographic
import Merutable.Key

/-! Internal keys compare as what they encode: the key columns one by one, then the sequence number
from high to low, then the operation. -/

namespace Merutable

open Foundation Wal

/-- The place of a float in the total order of its format: the magnitude under the sign, with the
negative zero just below the positive one. -/
def signMagnitude {width : Nat} (bits : BitVec width) : Int :=
  if bits.msb then 2 ^ (width - 1) - 1 - bits.toNat else bits.toNat

/-- Values of one column compared by type. Values of different types never meet in a column. -/
def FieldValue.cmp : FieldValue → FieldValue → Ordering
  | .boolean a, .boolean b => compare a b
  | .int32 a, .int32 b => compare a.toInt b.toInt
  | .int64 a, .int64 b => compare a.toInt b.toInt
  | .float a, .float b => compare (signMagnitude a) (signMagnitude b)
  | .double a, .double b => compare (signMagnitude a) (signMagnitude b)
  | .bytes a, .bytes b => compare a b
  | _, _ => .eq

/-- Primary keys compared column by column. -/
def comparePk : List FieldValue → List FieldValue → Ordering := List.compareLex FieldValue.cmp

def OpType.cmp (a b : OpType) : Ordering := compare a.byte b.byte

/-- `Ord` of internal keys: their bytes are compared. -/
def InternalKey.cmp (a b : InternalKey) : Ordering := compare a.encoded b.encoded

theorem compare_shift {a b : Nat} {x y shift : Int} (first : (a : Int) = x + shift)
    (second : (b : Int) = y + shift) : compare a b = compare x y := by
  rcases Nat.lt_trichotomy a b with less | rfl | greater
  · rw [Nat.compare_eq_lt.mpr less, eq_comm, compare_lt_iff_lt]
    omega
  · obtain rfl : x = y := by omega
    rw [Nat.compare_eq_eq.mpr rfl, eq_comm, compare_eq_iff_eq]
  · rw [Nat.compare_eq_gt.mpr greater, eq_comm, compare_gt_iff_gt]
    omega

theorem compare_add (base a b : Nat) : compare (base + a) (base + b) = compare a b := by
  have plain : ∀ n : Nat, (n : Int) = n + 0 := by simp
  rw [compare_shift (plain a) (plain b)]
  exact compare_shift (by omega : ((base + a : Nat) : Int) = a + base)
    (by omega : ((base + b : Nat) : Int) = b + base)

theorem toBe_succ (width value : Nat) :
    toBe (width + 1) value = toBe width (value / 256) ++ [UInt8.ofNat (value % 256)] := by
  rw [toBe, toLe, List.reverse_cons, toBe]

theorem compare_byte (a b : Nat) :
    compare (UInt8.ofNat (a % 256)) (UInt8.ofNat (b % 256)) = compare (a % 256) (b % 256) := by
  have byte : ∀ value, (UInt8.ofNat (value % 256)).toNat = value % 256 := by
    intro value
    rw [UInt8.toNat_ofNat']
    omega
  rcases Nat.lt_trichotomy (a % 256) (b % 256) with less | same | greater
  · rw [Nat.compare_eq_lt.mpr less, compare_lt_iff_lt, UInt8.lt_iff_toNat_lt, byte, byte]
    exact less
  · rw [same, Nat.compare_eq_eq.mpr rfl, compare_eq_iff_eq]
  · rw [Nat.compare_eq_gt.mpr greater, compare_gt_iff_gt, UInt8.lt_iff_toNat_lt, byte, byte]
    exact greater

theorem compare_div_mod (a b : Nat) :
    (compare (a / 256) (b / 256)).then (compare (a % 256) (b % 256)) = compare a b := by
  rcases Nat.lt_trichotomy (a / 256) (b / 256) with less | same | greater
  · rw [Nat.compare_eq_lt.mpr less, eq_comm]
    exact Nat.compare_eq_lt.mpr (by omega)
  · have shift := compare_add (256 * (b / 256)) (a % 256) (b % 256)
    have whole : 256 * (b / 256) + a % 256 = a := by omega
    rw [whole, Nat.div_add_mod] at shift
    rw [Nat.compare_eq_eq.mpr same, shift]
    rfl
  · rw [Nat.compare_eq_gt.mpr greater, eq_comm]
    exact Nat.compare_eq_gt.mpr (by omega)

theorem settles_toBe {width a b : Nat} (first : a < 256 ^ width) (second : b < 256 ^ width) :
    Settles (compare a b) (toBe width a) (toBe width b) := by
  induction width generalizing a b with
  | zero =>
    obtain rfl : a = 0 := by omega
    obtain rfl : b = 0 := by omega
    exact Settles.nil
  | succ width ih =>
    rw [Nat.pow_succ] at first second
    have upper := ih (Nat.div_lt_of_lt_mul (by omega)) (Nat.div_lt_of_lt_mul (by omega))
      (a := a / 256) (b := b / 256)
    have lower : Settles (compare (a % 256) (b % 256)) [UInt8.ofNat (a % 256)]
        [UInt8.ofNat (b % 256)] := by
      rw [← compare_byte]
      exact Settles.single _ _
    rw [toBe_succ, toBe_succ, ← compare_div_mod]
    exact upper.append lower

/-- An escaped byte string is settled at its end mark: the byte behind a zero tells the end from a
zero of the string. -/
theorem settles_escapeByteArray (a b : Bytes) :
    Settles (compare a b) (escapeByteArray a) (escapeByteArray b) := by
  have above : ∀ byte : UInt8, byte ≠ 0 → compare 0 byte = .lt ∧ compare byte 0 = .gt := by
    intro byte positive
    have less : 0 < byte := UInt8.pos_iff_ne_zero.mpr positive
    exact ⟨compare_lt_iff_lt.mpr less, compare_gt_iff_gt.mpr less⟩
  induction a generalizing b with
  | nil =>
    cases b with
    | nil => exact Settles.nil.cons.cons
    | cons byte rest =>
      rw [escapeByteArray, escapeByteArray]
      split
      · exact (Settles.lt (by decide)).cons
      · rename_i positive
        exact Settles.lt (above byte positive).1
  | cons first a ih =>
    cases b with
    | nil =>
      rw [escapeByteArray, escapeByteArray]
      split
      · exact (Settles.gt (by decide)).cons
      · rename_i positive
        exact Settles.gt (above first positive).2
    | cons second b =>
      rw [compare_cons]
      simp only [escapeByteArray]
      by_cases zero : first = 0
      · by_cases zero' : second = 0
        · rw [if_pos zero, if_pos zero', zero, zero']
          exact (ih b).cons.cons
        · rw [if_pos zero, if_neg zero', zero, (above second zero').1]
          exact Settles.lt (above second zero').1
      · by_cases zero' : second = 0
        · rw [if_neg zero, if_pos zero', zero', (above first zero).2]
          exact Settles.gt (above first zero).2
        · rw [if_neg zero, if_neg zero']
          exact (ih b).cons

theorem toNat_xor_sign {width : Nat} (bits : BitVec (width + 1)) :
    (bits ^^^ BitVec.twoPow (width + 1) width).toNat =
      if bits.msb then bits.toNat - 2 ^ width else bits.toNat + 2 ^ width := by
  have weight : (BitVec.twoPow (width + 1) width).toNat = 2 ^ width := by
    rw [BitVec.toNat_twoPow, Nat.mod_eq_of_lt (Nat.pow_lt_pow_succ (by decide))]
  have positive := Nat.two_pow_pos width
  have bound : bits.toNat < 2 ^ width * 2 := by
    rw [← Nat.pow_succ]
    exact bits.isLt
  have plain := Nat.div_add_mod bits.toNat (2 ^ width)
  have flipped := Nat.div_add_mod (bits.toNat ^^^ 2 ^ width) (2 ^ width)
  rw [Nat.xor_div_two_pow, Nat.xor_mod_two_pow, Nat.div_self positive, Nat.mod_self, Nat.xor_zero]
    at flipped
  have sign : bits.msb = decide (2 ^ width ≤ bits.toNat) := BitVec.msb_eq_decide bits
  rw [BitVec.toNat_xor, weight, sign]
  by_cases high : 2 ^ width ≤ bits.toNat
  · have one : bits.toNat / 2 ^ width = 1 := Nat.div_eq_of_lt_le (by omega) (by omega)
    rw [one] at plain flipped
    rw [if_pos (decide_eq_true high)]
    simp only [Nat.xor_self, Nat.mul_zero, Nat.mul_one] at plain flipped
    omega
  · have zero : bits.toNat / 2 ^ width = 0 := Nat.div_eq_of_lt (Nat.not_le.mp high)
    rw [zero] at plain flipped
    rw [if_neg (by simpa using high)]
    simp only [Nat.zero_xor, Nat.mul_zero, Nat.mul_one] at plain flipped
    omega

theorem toNat_xor_sign_toInt {width : Nat} (bits : BitVec (width + 1)) :
    ((bits ^^^ BitVec.twoPow (width + 1) width).toNat : Int) =
      bits.toInt + (2 ^ width : Nat) := by
  have double : 2 ^ (width + 1) = 2 ^ width * 2 := Nat.pow_succ ..
  rw [toNat_xor_sign, BitVec.toInt_eq_msb_cond, double]
  cases sign : bits.msb with
  | false => simp
  | true =>
    have high := BitVec.msb_eq_true_iff_two_mul_ge.mp sign
    rw [double] at high
    simp only [if_true]
    omega

theorem toNat_orderPreserving {width : Nat} (bits : BitVec (width + 1)) :
    (((if bits.msb then ~~~ bits else bits ^^^ BitVec.twoPow (width + 1) width) :
      BitVec (width + 1)).toNat : Int) = signMagnitude bits + (2 ^ width : Nat) := by
  have double : 2 ^ (width + 1) = 2 ^ width * 2 := Nat.pow_succ ..
  have bound := bits.isLt
  rw [signMagnitude]
  cases sign : bits.msb with
  | false =>
    simp only [Bool.false_eq_true, if_false, toNat_xor_sign, sign]
    omega
  | true =>
    have weight : (2 : Int) ^ (width + 1 - 1) = (2 ^ width : Nat) := by simp
    simp only [if_true, BitVec.toNat_not, weight]
    omega

variable {first second : Bytes} {a b : List FieldValue} {schema : TableSchema}

theorem settles_encodeField {a b : FieldValue} {colType : ColumnType}
    (encodedFirst : encodeField a colType = .ok first)
    (encodedSecond : encodeField b colType = .ok second) : Settles (a.cmp b) first second := by
  have codeFirst := encodeField_eq_ok.mp encodedFirst
  have codeSecond := encodeField_eq_ok.mp encodedSecond
  cases codeFirst with
  | boolean a =>
    cases codeSecond with
    | boolean b => cases a <;> cases b <;> exact Settles.single _ _
  | int32 a =>
    cases codeSecond with
    | int32 b =>
      rw [FieldValue.cmp, ← compare_shift (@toNat_xor_sign_toInt 31 a) (@toNat_xor_sign_toInt 31 b)]
      exact settles_toBe (BitVec.isLt _) (BitVec.isLt _)
  | int64 a =>
    cases codeSecond with
    | int64 b =>
      rw [FieldValue.cmp, ← compare_shift (@toNat_xor_sign_toInt 63 a) (@toNat_xor_sign_toInt 63 b)]
      exact settles_toBe (BitVec.isLt _) (BitVec.isLt _)
  | float a number =>
    cases codeSecond with
    | float b number' =>
      rw [FieldValue.cmp, ← compare_shift (@toNat_orderPreserving 31 a)
        (@toNat_orderPreserving 31 b)]
      exact settles_toBe (BitVec.isLt _) (BitVec.isLt _)
  | double a number =>
    cases codeSecond with
    | double b number' =>
      rw [FieldValue.cmp, ← compare_shift (@toNat_orderPreserving 63 a)
        (@toNat_orderPreserving 63 b)]
      exact settles_toBe (BitVec.isLt _) (BitVec.isLt _)
  | fixedLen a width sized =>
    cases codeSecond with
    | fixedLen b _ sized' => exact Settles.of_length (sized.trans sized'.symm)
  | byteArray a =>
    cases codeSecond with
    | byteArray b => exact settles_escapeByteArray a b

theorem settles_encodeFields {columns : List Nat} (sizedFirst : a.length = columns.length)
    (sizedSecond : b.length = columns.length)
    (encodedFirst : encodeFields schema a columns = .ok first)
    (encodedSecond : encodeFields schema b columns = .ok second) :
    Settles (comparePk a b) first second := by
  induction columns generalizing a b first second with
  | nil =>
    cases List.length_eq_zero_iff.mp sizedFirst
    cases List.length_eq_zero_iff.mp sizedSecond
    cases encodedFirst
    cases encodedSecond
    exact Settles.nil
  | cons idx columns ih =>
    cases a with
    | nil => cases sizedFirst
    | cons x a =>
      cases b with
      | nil => cases sizedSecond
      | cons y b =>
        obtain ⟨col, front, rest, found, encodedFront, encodedRest, rfl⟩ :=
          encodeFields_cons.mp encodedFirst
        obtain ⟨col', front', rest', found', encodedFront', encodedRest', rfl⟩ :=
          encodeFields_cons.mp encodedSecond
        cases found.symm.trans found'
        rw [comparePk, List.compareLex_cons_cons]
        exact (settles_encodeField encodedFront encodedFront').append
          (ih (Nat.succ.inj sizedFirst) (Nat.succ.inj sizedSecond) encodedRest encodedRest')

theorem settles_keyTag {first second : Nat} (boundFirst : first ≤ seqnumMax)
    (boundSecond : second ≤ seqnumMax) (op op' : OpType) :
    Settles ((compare second first).then (op.cmp op')) (keyTag first op) (keyTag second op') := by
  have small : ∀ op : OpType, op.byte < 2 ^ 8 := by
    intro op
    cases op <;> decide
  have fits : ∀ (seq : Nat) (op : OpType), (seqnumMax - seq) * 2 ^ 8 + op.byte < 256 ^ 8 := by
    intro seq op
    have := small op
    rw [seqnumMax]
    omega
  have lowFirst := small op
  have lowSecond := small op'
  have order : (compare second first).then (op.cmp op') =
      compare ((seqnumMax - first) * 2 ^ 8 + op.byte)
        ((seqnumMax - second) * 2 ^ 8 + op'.byte) := by
    rcases Nat.lt_trichotomy second first with less | rfl | greater
    · rw [Nat.compare_eq_lt.mpr less, eq_comm]
      exact Nat.compare_eq_lt.mpr (by omega)
    · rw [Nat.compare_eq_eq.mpr rfl, compare_add]
      rfl
    · rw [Nat.compare_eq_gt.mpr greater, eq_comm]
      exact Nat.compare_eq_gt.mpr (by omega)
  rw [order]
  exact settles_toBe (fits first op) (fits second op')

theorem FieldValue.reread_reread (value : FieldValue) : value.reread.reread = value := by
  cases value with
  | boolean | int32 | int64 | bytes => rfl
  | float | double =>
    simp only [FieldValue.reread]
    rw [← BitVec.not_xor_left, BitVec.xor_assoc, BitVec.xor_self, BitVec.xor_zero, BitVec.not_not]

theorem encodeUserKey_injective {bytes : Bytes}
    (first : InternalKey.encodeUserKey a schema = .ok bytes)
    (second : InternalKey.encodeUserKey b schema = .ok bytes) : a = b := by
  obtain ⟨sizedFirst, encodedFirst⟩ := encodePkFields_eq_ok.mp first
  obtain ⟨sizedSecond, encodedSecond⟩ := encodePkFields_eq_ok.mp second
  have decodedFirst := decodeFields_encodeFields sizedFirst encodedFirst []
  rw [decodeFields_encodeFields sizedSecond encodedSecond []] at decodedFirst
  injection decodedFirst with same
  have equal := congrArg (List.map FieldValue.reread) (Prod.mk.inj same).1
  rw [List.map_map, List.map_map] at equal
  have back : FieldValue.reread ∘ FieldValue.reread = id := funext FieldValue.reread_reread
  rw [back, List.map_id, List.map_id] at equal
  exact equal.symm

/-- Internal keys sort by their key columns, then by descending sequence number, then by operation,
and no user key is a prefix of another. -/
theorem encoded_order_is_typed_order {schema : TableSchema} {a b : List FieldValue}
    {first second : Bytes} (encodedFirst : InternalKey.encodeUserKey a schema = .ok first)
    (encodedSecond : InternalKey.encodeUserKey b schema = .ok second) :
    (∀ seq seq' op op', seq ≤ seqnumMax → seq' ≤ seqnumMax →
      ∃ key key', InternalKey.encode a seq op schema = .ok key ∧
        InternalKey.encode b seq' op' schema = .ok key' ∧
        key.cmp key' = ((comparePk a b).then (compare seq' seq)).then (op.cmp op')) ∧
      (first <+: second → a = b) := by
  obtain ⟨sizedFirst, fieldsFirst⟩ := encodePkFields_eq_ok.mp encodedFirst
  obtain ⟨sizedSecond, fieldsSecond⟩ := encodePkFields_eq_ok.mp encodedSecond
  have settled := settles_encodeFields sizedFirst sizedSecond fieldsFirst fieldsSecond
  constructor
  · intro seq seq' op op' bound bound'
    refine ⟨_, _, InternalKey.encode_eq_ok.mpr ⟨first, encodedFirst, bound, rfl⟩,
      InternalKey.encode_eq_ok.mpr ⟨second, encodedSecond, bound', rfl⟩, ?_⟩
    rw [InternalKey.cmp, Ordering.then_assoc]
    exact (settled.append (settles_keyTag bound bound' op op')).compare_eq
  · intro before
    have same := settled.compare_eq.trans (settled.eq_of_isPrefix before)
    rw [Std.LawfulEqOrd.compare_eq_iff_eq] at same
    subst same
    exact encodeUserKey_injective encodedFirst encodedSecond

/-- Two key columns, a number and a byte string. -/
def TableSchema.numbered : TableSchema where
  tableName := "numbered"
  columns := [⟨"id", .int64, false, some 1, none, none⟩,
    ⟨"name", .byteArray, false, some 2, none, none⟩]
  primaryKey := [0, 1]
  schemaId := 0
  lastColumnId := 2

theorem encoded_order_is_typed_order_numbered :
    (∀ seq seq' op op', seq ≤ seqnumMax → seq' ≤ seqnumMax →
      ∃ key key', InternalKey.encode [.int64 (-1), .bytes [0]] seq op .numbered = .ok key ∧
        InternalKey.encode [.int64 (-1), .bytes [0, 7]] seq' op' .numbered = .ok key' ∧
        key.cmp key' = ((comparePk [.int64 (-1), .bytes [0]] [.int64 (-1), .bytes [0, 7]]).then
          (compare seq' seq)).then (op.cmp op')) ∧
      ([127, 255, 255, 255, 255, 255, 255, 255, 0, 255, 0, 0] <+:
        ([127, 255, 255, 255, 255, 255, 255, 255, 0, 255, 7, 0, 0] : Bytes) →
        [FieldValue.int64 (-1), .bytes [0]] = [.int64 (-1), .bytes [0, 7]]) :=
  encoded_order_is_typed_order (by decide) (by decide)

end Merutable
