import Mathlib.Tactic.Ring
import Merutable.Types

/-! The numbers in the bytes of `wal::batch`: little-endian ones of a fixed width, and varints. -/

namespace Merutable.Wal

/-- The low `width` bytes of the number, the lowest first. -/
def toLe : Nat → Nat → Bytes
  | 0, _ => []
  | width + 1, value => UInt8.ofNat (value % 256) :: toLe width (value / 256)

def ofLe : Bytes → Nat
  | [] => 0
  | byte :: rest => byte.toNat + 256 * ofLe rest

theorem toLe_length (width value : Nat) : (toLe width value).length = width := by
  induction width generalizing value with
  | zero => rfl
  | succ width ih => simp [toLe, ih]

theorem ofLe_toLe_mod (width value : Nat) : ofLe (toLe width value) = value % 256 ^ width := by
  induction width generalizing value with
  | zero => rw [toLe, ofLe, Nat.pow_zero, Nat.mod_one]
  | succ width ih =>
    have byte : (UInt8.ofNat (value % 256)).toNat = value % 256 := by
      rw [UInt8.toNat_ofNat']
      omega
    rw [toLe, ofLe, ih, byte, Nat.pow_succ', Nat.mod_mul]

theorem ofLe_toLe {width value : Nat} (fits : value < 256 ^ width) :
    ofLe (toLe width value) = value := by
  rw [ofLe_toLe_mod, Nat.mod_eq_of_lt fits]

theorem toLe_ofLe (bytes : Bytes) : toLe bytes.length (ofLe bytes) = bytes := by
  induction bytes with
  | nil => rfl
  | cons byte bytes ih =>
    have low : (ofLe (byte :: bytes)) % 256 = byte.toNat := by
      have := byte.toNat_lt
      rw [ofLe]
      omega
    have high : (ofLe (byte :: bytes)) / 256 = ofLe bytes := by
      have := byte.toNat_lt
      rw [ofLe]
      omega
    rw [List.length_cons, toLe, low, high, ih, UInt8.ofNat_toNat]

theorem ofLe_lt (bytes : Bytes) : ofLe bytes < 256 ^ bytes.length := by
  induction bytes with
  | nil => decide
  | cons byte bytes ih =>
    have := byte.toNat_lt
    rw [ofLe, List.length_cons, Nat.pow_succ]
    omega

/-- `put_varint`; ten bytes are enough for 64 bits. -/
def putVarint : Nat → Nat → Bytes
  | 0, _ => []
  | width + 1, value =>
    if value / 128 = 0 then [UInt8.ofNat (value % 128)]
    else UInt8.ofNat (value % 128 + 128) :: putVarint width (value / 128)

theorem toNat_lastByte {value : Nat} (small : value / 128 = 0) :
    (UInt8.ofNat (value % 128)).toNat = value := by
  rw [UInt8.toNat_ofNat']
  omega

theorem toNat_moreByte (value : Nat) :
    (UInt8.ofNat (value % 128 + 128)).toNat = value % 128 + 128 := by
  rw [UInt8.toNat_ofNat']
  omega

theorem varint_weight (value shift : Nat) :
    value * 2 ^ shift = value % 128 * 2 ^ shift + value / 128 * 2 ^ (shift + 7) := by
  have split : value % 128 + 128 * (value / 128) = value := Nat.mod_add_div value 128
  conv_lhs => rw [← split]
  rw [Nat.add_mul, Nat.pow_add]
  ring

theorem varint_width {value width : Nat} (narrow : value < 128 ^ (width + 1))
    (large : value / 128 ≠ 0) : 0 < width ∧ value / 128 < 128 ^ width := by
  have less : value / 128 < 128 ^ width := by
    rw [Nat.div_lt_iff_lt_mul (by decide), ← Nat.pow_succ]
    exact narrow
  refine ⟨Nat.pos_of_ne_zero fun zero => ?_, less⟩
  rw [zero, Nat.pow_zero] at less
  omega

end Merutable.Wal
