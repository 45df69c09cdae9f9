import Merutable.Schema
import Merutable.Wal.Batch

/-! The bloom filter in the footer of a file: `parquet::bloom`. -/

namespace Merutable

open Wal

/-- The filter is a sequence of cache lines of 64 bytes, and never empty. -/
structure FastLocalBloom where
  data : Bytes
  numProbes : UInt8
  lines : data.length = data.length / 64 * 64
  nonempty : data ≠ []
  probes : numProbes ≠ 0

namespace Bloom

/-- `(bits_per_key * ln 2).round()`, between 1 and 30. -/
def chooseNumProbes (bitsPerKey : UInt8) : UInt8 :=
  UInt8.ofNat (max 1 (min 30 ((bitsPerKey.toNat * 6931471805599453 + 5 * 10 ^ 15) / 10 ^ 16)))

theorem chooseNumProbes_ne_zero (bitsPerKey : UInt8) : chooseNumProbes bitsPerKey ≠ 0 := by
  intro zero
  have value := congrArg UInt8.toNat zero
  rw [chooseNumProbes, UInt8.toNat_ofNat'] at value
  change _ = 0 at value
  omega

def fastRange32 (hash : UInt32) (n : Nat) : Nat := hash.toNat * n / 2 ^ 32

/-- Where the line of a hash starts; the number of lines is cast to 32 bits. -/
def lineStart (data : Bytes) (h1 : UInt32) : Nat := fastRange32 h1 (data.length / 64 % 2 ^ 32) * 64

def bitpos (h : UInt32) : Nat := ((h >>> 23) &&& 511).toNat

def mask (h : UInt32) : UInt8 := 1 <<< UInt8.ofNat (bitpos h % 8)

def nextHash (h : UInt32) : UInt32 := h * 0x9e3779b9

/-- The loop of `add_inner` over the line. -/
def addLine (start : Nat) : Nat → UInt32 → Bytes → Bytes
  | 0, _, data => data
  | probes + 1, h, data =>
    addLine start probes (nextHash h) (data.modify (start + bitpos h / 8) (· ||| mask h))

def addInner (data : Bytes) (h1 h2 : UInt32) (numProbes : UInt8) : Bytes :=
  addLine (lineStart data h1) numProbes.toNat h2 data

/-- The loop of `probe_scalar` over the line. -/
def probeLine (data : Bytes) (start : Nat) : Nat → UInt32 → Bool
  | 0, _ => true
  | probes + 1, h =>
    if data.getD (start + bitpos h / 8) 0 &&& mask h = 0 then false
    else probeLine data start probes (nextHash h)

def probeScalar (data : Bytes) (h1 h2 : UInt32) (numProbes : UInt8) : Bool :=
  probeLine data (lineStart data h1) numProbes.toNat h2

theorem addLine_length (start probes : Nat) (h : UInt32) (data : Bytes) :
    (addLine start probes h data).length = data.length := by
  induction probes generalizing h data with
  | zero => rfl
  | succ probes ih => rw [addLine, ih, List.length_modify]

theorem bitpos_lt (h : UInt32) : bitpos h < 512 := by
  rw [bitpos, UInt32.toNat_and]
  exact lt_of_le_of_lt Nat.and_le_right (by decide)

theorem mask_ne_zero (h : UInt32) : mask h ≠ 0 := by
  have all : ∀ bit < 8, (1 : UInt8) <<< UInt8.ofNat bit ≠ 0 := by decide
  exact all _ (Nat.mod_lt _ (by decide))

variable {data : Bytes}

theorem lineStart_le (lines : data.length = data.length / 64 * 64) (nonempty : data ≠ [])
    (h1 : UInt32) : lineStart data h1 + 64 ≤ data.length := by
  have positive := List.length_pos_iff.mpr nonempty
  have hash := h1.toNat_lt
  have shrunk : data.length / 64 % 2 ^ 32 ≤ data.length / 64 := Nat.mod_le _ _
  have chosen : fastRange32 h1 (data.length / 64 % 2 ^ 32) < data.length / 64 := by
    rw [fastRange32, Nat.div_lt_iff_lt_mul (by decide)]
    rcases Nat.eq_zero_or_pos (data.length / 64 % 2 ^ 32) with zero | some
    · rw [zero]
      omega
    · calc h1.toNat * (data.length / 64 % 2 ^ 32)
          < 2 ^ 32 * (data.length / 64 % 2 ^ 32) := Nat.mul_lt_mul_of_pos_right hash some
        _ ≤ data.length / 64 * 2 ^ 32 := by
            rw [Nat.mul_comm]
            exact Nat.mul_le_mul_right _ shrunk
  rw [lineStart]
  omega

/-- The bits of the first filter are bits of the second. -/
def Covers (data more : Bytes) : Prop :=
  ∀ index bits, data.getD index 0 &&& bits ≠ 0 → more.getD index 0 &&& bits ≠ 0

theorem or_and_eq_zero {byte more bits : UInt8} :
    (byte ||| more) &&& bits = 0 ↔ byte &&& bits = 0 ∧ more &&& bits = 0 := by
  have distributes : (byte ||| more) &&& bits = (byte &&& bits) ||| (more &&& bits) :=
    UInt8.toBitVec_inj.mp BitVec.and_or_distrib_right
  rw [distributes, UInt8.or_eq_zero_iff]

theorem Covers.refl (data : Bytes) : Covers data data := fun _ _ set => set

theorem Covers.trans {data more most : Bytes} (first : Covers data more)
    (second : Covers more most) :
    Covers data most := fun index bits set => second index bits (first index bits set)

theorem getD_modify (data : Bytes) (index other : Nat) (bits : UInt8) :
    (data.modify index (· ||| bits)).getD other 0 =
      if index = other ∧ other < data.length then data.getD other 0 ||| bits else data.getD
        other 0 := by
  simp only [List.getD_eq_getElem?_getD, List.getElem?_modify]
  rcases Nat.lt_or_ge other data.length with inside | outside
  · by_cases same : index = other
    · simp [same, inside]
    · simp [same]
  · simp [Nat.not_lt.mpr outside]

theorem covers_modify (data : Bytes) (index : Nat) (bits : UInt8) :
    Covers data (data.modify index (· ||| bits)) := by
  intro other probe set
  rw [getD_modify]
  split
  · rw [Ne, or_and_eq_zero]
    exact fun none => set none.1
  · exact set

theorem covers_addLine (start probes : Nat) (h : UInt32) (data : Bytes) :
    Covers data (addLine start probes h data) := by
  induction probes generalizing h data with
  | zero => exact .refl data
  | succ probes ih => exact (covers_modify data _ _).trans (ih _ _)

theorem Covers.probeLine {data more : Bytes} (covers : Covers data more) {start probes : Nat}
    {h : UInt32} (found : probeLine data start probes h = true) :
    probeLine more start probes h = true := by
  induction probes generalizing h with
  | zero => rfl
  | succ probes ih =>
    rw [Bloom.probeLine] at found ⊢
    split at found
    · cases found
    · rename_i set
      rw [if_neg (covers _ _ set)]
      exact ih found

theorem probeLine_addLine {start : Nat} (inside : start + 64 ≤ data.length) (probes : Nat)
    (h : UInt32) : probeLine (addLine start probes h data) start probes h = true := by
  induction probes generalizing h data with
  | zero => rfl
  | succ probes ih =>
    have position := bitpos_lt h
    have reached : start + bitpos h / 8 < data.length := by omega
    rw [addLine, Bloom.probeLine]
    have set : (data.modify (start + bitpos h / 8) (· ||| mask h)).getD (start + bitpos h / 8) 0 &&&
        mask h ≠ 0 := by
      rw [getD_modify, if_pos ⟨rfl, reached⟩, Ne, or_and_eq_zero, UInt8.and_self]
      exact fun none => mask_ne_zero h none.2
    rw [if_neg (covers_addLine _ _ _ _ _ _ set)]
    apply ih
    rw [List.length_modify]
    exact inside

end Bloom

namespace FastLocalBloom

open Bloom

variable (hash : Bytes → UInt64) {bloom : FastLocalBloom} {key : Bytes}

/-- The product of the two arguments panics on overflow in a checked build, and wraps otherwise. -/
def new (checked : Bool) (numKeys : Nat) (bitsPerKey : UInt8) :
    Except MeruError FastLocalBloom := do
  okIf (checked = true → numKeys * bitsPerKey.toNat < 2 ^ 64) .panicked
  let totalBits := max (numKeys * bitsPerKey.toNat % 2 ^ 64) 512
  let numBuckets := (totalBits + 511) / 512
  return {
    data := List.replicate (numBuckets * 64) 0
    numProbes := chooseNumProbes bitsPerKey
    lines := by rw [List.length_replicate]; omega
    nonempty := by
      rw [← List.length_pos_iff, List.length_replicate]
      omega
    probes := chooseNumProbes_ne_zero bitsPerKey }

def add (bloom : FastLocalBloom) (key : Bytes) : FastLocalBloom where
  data := addInner bloom.data (hash key >>> 32).toUInt32 (hash key).toUInt32 bloom.numProbes
  numProbes := bloom.numProbes
  lines := by
    rw [addInner, addLine_length]
    exact bloom.lines
  nonempty := by
    rw [← List.length_pos_iff, addInner, addLine_length]
    exact List.length_pos_iff.mpr bloom.nonempty
  probes := bloom.probes

def mayContain (bloom : FastLocalBloom) (key : Bytes) : Bool :=
  probeScalar bloom.data (hash key >>> 32).toUInt32 (hash key).toUInt32 bloom.numProbes

/-- The number of lines is written in 32 bits. -/
def toBytes (bloom : FastLocalBloom) : Bytes :=
  bloom.numProbes :: (toLe 4 (bloom.data.length / 64) ++ bloom.data)

def fromBytes : Bytes → Except MeruError FastLocalBloom
  | numProbes :: rest =>
    let numBuckets := ofLe (rest.take 4)
    let expected := numBuckets * 64
    let got := rest.length - 4
    if short : rest.length < 4 then .error (.corruption "bloom filter bytes too short")
    else if noProbes : numProbes = 0 then
      .error (.corruption "bloom filter num_probes must be ≥ 1")
    else if noBuckets : numBuckets = 0 then
      .error (.corruption "bloom filter num_buckets must be ≥ 1")
    else if sized : got = expected then
      .ok ⟨rest.drop 4, numProbes, by rw [List.length_drop]; omega,
        by rw [← List.length_pos_iff, List.length_drop]; omega, noProbes⟩
    else .error (.corruption s!"bloom data length mismatch: expected {expected}, got {got}")
  | [] => .error (.corruption "bloom filter bytes too short")

/-- Keys added one after the other. -/
def addAll (bloom : FastLocalBloom) (keys : List Bytes) : FastLocalBloom :=
  keys.foldl (add hash) bloom

theorem add_length (bloom : FastLocalBloom) (key : Bytes) :
    (bloom.add hash key).data.length = bloom.data.length := addLine_length _ _ _ _

theorem addAll_length (bloom : FastLocalBloom) (keys : List Bytes) :
    (bloom.addAll hash keys).data.length = bloom.data.length := by
  induction keys generalizing bloom with
  | nil => rfl
  | cons key rest ih => exact (ih (bloom.add hash key)).trans (add_length hash bloom key)

theorem mayContain_add (bloom : FastLocalBloom) (key : Bytes) :
    (bloom.add hash key).mayContain hash key = true := by
  have inside := lineStart_le bloom.lines bloom.nonempty (hash key >>> 32).toUInt32
  have same : lineStart (bloom.add hash key).data (hash key >>> 32).toUInt32 =
      lineStart bloom.data (hash key >>> 32).toUInt32 := by rw [lineStart, lineStart, add_length]
  rw [mayContain, probeScalar, same]
  exact probeLine_addLine inside _ _

theorem mayContain_kept (other : Bytes) (found : bloom.mayContain hash key = true) :
    (bloom.add hash other).mayContain hash key = true := by
  have same : lineStart (bloom.add hash other).data (hash key >>> 32).toUInt32 =
      lineStart bloom.data (hash key >>> 32).toUInt32 := by rw [lineStart, lineStart, add_length]
  rw [mayContain, probeScalar, same]
  exact (covers_addLine _ _ _ _).probeLine found

theorem mayContain_addAll_kept (others : List Bytes) (found : bloom.mayContain hash key = true) :
    (bloom.addAll hash others).mayContain hash key = true := by
  induction others generalizing bloom with
  | nil => exact found
  | cons other rest ih => exact ih (mayContain_kept hash other found)

theorem mayContain_addAll (bloom : FastLocalBloom) {keys : List Bytes} (added : key ∈ keys) :
    (bloom.addAll hash keys).mayContain hash key = true := by
  induction keys generalizing bloom with
  | nil => cases added
  | cons first rest ih =>
    rcases List.mem_cons.mp added with rfl | later
    · exact mayContain_addAll_kept hash rest (mayContain_add hash bloom key)
    · exact ih (bloom.add hash first) later

section Bytes

variable (bloom : FastLocalBloom)

theorem toBytes_buckets : ofLe ((toLe 4 (bloom.data.length / 64) ++ bloom.data).take 4) =
    bloom.data.length / 64 % 2 ^ 32 := by
  rw [List.take_left' (toLe_length _ _), ofLe_toLe_mod]
  rfl

theorem fromBytes_toBytes (fits : bloom.data.length / 64 < 2 ^ 32) :
    fromBytes bloom.toBytes = .ok bloom := by
  have positive := List.length_pos_iff.mpr bloom.nonempty
  have lines := bloom.lines
  have buckets := bloom.toBytes_buckets
  rw [Nat.mod_eq_of_lt fits] at buckets
  have long : ¬ (toLe 4 (bloom.data.length / 64) ++ bloom.data).length < 4 := by
    rw [List.length_append, toLe_length]
    omega
  have sized : (toLe 4 (bloom.data.length / 64) ++ bloom.data).length - 4 =
      bloom.data.length / 64 * 64 := by
    rw [List.length_append, toLe_length]
    omega
  rw [toBytes, fromBytes]
  simp only [buckets, dif_neg long, dif_neg bloom.probes, sized, dite_true]
  have rest : (toLe 4 (bloom.data.length / 64) ++ bloom.data).drop 4 = bloom.data :=
    List.drop_left' (toLe_length _ _)
  rw [dif_neg (by omega)]
  simp only [rest]

theorem fromBytes_overflow (large : 2 ^ 32 ≤ bloom.data.length / 64) :
    ∃ error, fromBytes bloom.toBytes = .error error := by
  have lines := bloom.lines
  have shrunk : bloom.data.length / 64 % 2 ^ 32 < 2 ^ 32 := Nat.mod_lt _ (by decide)
  have buckets := bloom.toBytes_buckets
  have long : ¬ (toLe 4 (bloom.data.length / 64) ++ bloom.data).length < 4 := by
    rw [List.length_append, toLe_length]
    omega
  have sized : ¬ (toLe 4 (bloom.data.length / 64) ++ bloom.data).length - 4 =
      bloom.data.length / 64 % 2 ^ 32 * 64 := by
    rw [List.length_append, toLe_length]
    omega
  rw [toBytes, fromBytes]
  simp only [buckets, dif_neg long, dif_neg bloom.probes, dif_neg sized]
  split <;> exact ⟨_, rfl⟩

end Bytes

theorem new_ok {numKeys : Nat} {bitsPerKey : UInt8} (fits : numKeys * bitsPerKey.toNat < 2 ^ 64)
    (checked : Bool) : ∃ bloom, new checked numKeys bitsPerKey = .ok bloom := by
  simp only [new, Except.seq_eq_ok, okIf_eq_ok]
  exact ⟨_, fun _ => fits, rfl⟩

theorem new_length {checked : Bool} {numKeys : Nat} {bitsPerKey : UInt8}
    (accepted : new checked numKeys bitsPerKey = .ok bloom) :
    bloom.data.length / 64 = (max (numKeys * bitsPerKey.toNat % 2 ^ 64) 512 + 511) / 512 := by
  rw [new, Except.seq_eq_ok] at accepted
  cases accepted.2
  rw [List.length_replicate, Nat.mul_div_cancel _ (by decide)]

/-- An added key is always found. In the copy that went through bytes it is found if and only if the
filter has fewer than 2^32 lines. -/
theorem bloom_finds_added_iff (hash : Bytes → UInt64) (checked : Bool) (numKeys : Nat)
    (bitsPerKey : UInt8) (bloom : FastLocalBloom)
    (accepted : new checked numKeys bitsPerKey = .ok bloom) (keys : List Bytes) (key : Bytes)
    (added : key ∈ keys) :
    ((bloom.addAll hash keys).mayContain hash key = true ∧
      ∃ copy, fromBytes (bloom.addAll hash keys).toBytes = .ok copy ∧
        copy.mayContain hash key = true) ↔
      numKeys * bitsPerKey.toNat % 2 ^ 64 ≤ 512 * (2 ^ 32 - 1) := by
  have found := mayContain_addAll hash bloom added
  have lines := new_length accepted
  rw [← addAll_length hash bloom keys] at lines
  constructor
  · rintro ⟨_, copy, read, _⟩
    by_contra large
    obtain ⟨error, failed⟩ := fromBytes_overflow (bloom.addAll hash keys) (by omega)
    rw [failed] at read
    cases read
  · intro small
    exact ⟨found, _, fromBytes_toBytes (bloom.addAll hash keys) (by omega), found⟩

theorem bloom_finds_added_small :
    ∃ bloom, new true 10 10 = .ok bloom ∧ ([7] : Bytes) ∈ [[5], [7]] ∧
      ((bloom.addAll (fun _ => 9) [[5], [7]]).mayContain (fun _ => 9) [7] = true ∧
        ∃ copy, fromBytes (bloom.addAll (fun _ => 9) [[5], [7]]).toBytes = .ok copy ∧
          copy.mayContain (fun _ => 9) [7] = true) := by
  obtain ⟨bloom, accepted⟩ := @new_ok 10 10 (by decide) true
  exact ⟨bloom, accepted, by decide, (bloom_finds_added_iff (fun _ => 9) true 10 10 bloom accepted
    [[5], [7]] [7] (by decide)).mpr (by decide)⟩

/-- A filter for 2^38 keys of 8 bits has 2^32 lines, which are written as none. -/
theorem bloom_copy_refused :
    ∃ bloom, new true (2 ^ 38) 8 = .ok bloom ∧
      (bloom.addAll (fun _ => 0) [[7]]).mayContain (fun _ => 0) [7] = true ∧
      ∃ error, fromBytes (bloom.addAll (fun _ => 0) [[7]]).toBytes = .error error := by
  obtain ⟨bloom, accepted⟩ := @new_ok (2 ^ 38) 8 (by decide) true
  have lines := new_length accepted
  rw [← addAll_length (fun _ => 0) bloom [[7]]] at lines
  refine ⟨bloom, accepted, mayContain_addAll _ bloom (by decide), fromBytes_overflow _ ?_⟩
  rw [lines]
  decide

end FastLocalBloom

end Merutable
