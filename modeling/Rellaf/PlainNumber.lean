/-
The integer kinds of a `Plain<T>`: which integers a kind holds, and the integer that
a value of it is. A `char` is signed on the x86-64 target.
-/
import Rellaf.ModelTree

set_option autoImplicit false

namespace Rellaf.Models

/-- The smallest and the largest value of an integer kind. -/
def ModelType.range : ModelType → Option (Int × Int)
  | CHAR => some (-2 ^ 7, 2 ^ 7 - 1)
  | INT16 => some (-2 ^ 15, 2 ^ 15 - 1)
  | INT => some (-2 ^ 31, 2 ^ 31 - 1)
  | INT64 => some (-2 ^ 63, 2 ^ 63 - 1)
  | UINT16 => some (0, 2 ^ 16 - 1)
  | UINT32 => some (0, 2 ^ 32 - 1)
  | UINT64 => some (0, 2 ^ 64 - 1)
  | _ => none

/-- `n` is a value of the kind. -/
def ModelType.Holds (kind : ModelType) (n : Int) : Prop :=
  ∃ bounds ∈ kind.range, bounds.1 ≤ n ∧ n ≤ bounds.2

instance (kind : ModelType) (n : Int) : Decidable (kind.Holds n) :=
  inferInstanceAs (Decidable (∃ bounds ∈ kind.range, bounds.1 ≤ n ∧ n ≤ bounds.2))

/-- The number of bits. -/
def ModelType.width : ModelType → Nat
  | CHAR => 8
  | INT16 | UINT16 => 16
  | INT | UINT32 => 32
  | INT64 | UINT64 => 64
  | _ => 0

/-- Two integers of a kind with the same bits are the same. -/
theorem ModelType.eq_of_holds {kind : ModelType} {a b : Int} (ha : kind.Holds a)
    (hb : kind.Holds b) (hbits : (2 ^ kind.width : Int) ∣ a - b) : a = b := by
  obtain ⟨bounds, hrange, halo, hahi⟩ := ha
  obtain ⟨bounds', hrange', hblo, hbhi⟩ := hb
  obtain rfl : bounds = bounds' := Option.some.inj (hrange.symm.trans hrange')
  have hsize : bounds.2 - bounds.1 < (2 ^ kind.width : Int) := by
    cases kind <;> cases hrange <;> decide
  have hzero : a - b = 0 := Int.eq_zero_of_abs_lt_dvd hbits (by rw [abs_lt]; constructor <;> omega)
  omega

/-- The integer that a value of an integer kind is. -/
def PlainVal.number : PlainVal → Option Int
  | CHAR v => some v.toInt8.toInt
  | INT16 v => some v.toInt
  | INT v => some v.toInt
  | INT64 v => some v.toInt
  | UINT16 v => some v.toNat
  | UINT32 v => some v.toNat
  | UINT64 v => some v.toNat
  | BOOL _ | FLOAT _ | DOUBLE _ | STR _ => none

/-- The value of an integer kind is in the range of the kind. -/
theorem PlainVal.holds_number {v : PlainVal} {n : Int} (h : v.number = some n) :
    v.kind.Holds n := by
  cases v with
  | CHAR v =>
    obtain rfl := Option.some.inj h
    exact ⟨_, rfl, v.toInt8.le_toInt, v.toInt8.toInt_le⟩
  | INT16 v =>
    obtain rfl := Option.some.inj h
    exact ⟨_, rfl, v.le_toInt, v.toInt_le⟩
  | INT v =>
    obtain rfl := Option.some.inj h
    exact ⟨_, rfl, v.le_toInt, v.toInt_le⟩
  | INT64 v =>
    obtain rfl := Option.some.inj h
    exact ⟨_, rfl, v.le_toInt, v.toInt_le⟩
  | UINT16 v =>
    obtain rfl := Option.some.inj h
    have hlt := v.toNat_lt
    exact ⟨_, rfl, by dsimp only; omega, by dsimp only; omega⟩
  | UINT32 v =>
    obtain rfl := Option.some.inj h
    have hlt := v.toNat_lt
    exact ⟨_, rfl, by dsimp only; omega, by dsimp only; omega⟩
  | UINT64 v =>
    obtain rfl := Option.some.inj h
    have hlt := v.toNat_lt
    exact ⟨_, rfl, by dsimp only; omega, by dsimp only; omega⟩
  | BOOL _ => cases h
  | FLOAT _ => cases h
  | DOUBLE _ => cases h
  | STR _ => cases h

/-- Two values of one kind with the same number are the same value. -/
theorem PlainVal.eq_of_number {v w : PlainVal} {n : Int} (hkind : v.kind = w.kind)
    (hv : v.number = some n) (hw : w.number = some n) : v = w := by
  have hnumber : v.number = w.number := hv.trans hw.symm
  cases v <;> cases w <;> cases hkind
  case CHAR.CHAR v w =>
    have hint8 : v.toInt8 = w.toInt8 := Int8.toInt_inj.mp (Option.some.inj hnumber)
    rw [← v.toUInt8_toInt8, hint8, w.toUInt8_toInt8]
  case INT16.INT16 v w => rw [Int16.toInt_inj.mp (Option.some.inj hnumber)]
  case INT.INT v w => rw [Int32.toInt_inj.mp (Option.some.inj hnumber)]
  case INT64.INT64 v w => rw [Int64.toInt_inj.mp (Option.some.inj hnumber)]
  case UINT16.UINT16 v w =>
    rw [UInt16.toNat_inj.mp (Int.ofNat_inj.mp (Option.some.inj hnumber))]
  case UINT32.UINT32 v w =>
    rw [UInt32.toNat_inj.mp (Int.ofNat_inj.mp (Option.some.inj hnumber))]
  case UINT64.UINT64 v w =>
    rw [UInt64.toNat_inj.mp (Int.ofNat_inj.mp (Option.some.inj hnumber))]
  case BOOL.BOOL => cases hv
  case FLOAT.FLOAT => cases hv
  case DOUBLE.DOUBLE => cases hv
  case STR.STR => cases hv

/-- Every integer in the range of a kind is a value of it. -/
theorem PlainVal.exists_number {kind : ModelType} {n : Int} (h : kind.Holds n) :
    ∃ v : PlainVal, v.kind = kind ∧ v.number = some n := by
  obtain ⟨bounds, hrange, hlo, hhi⟩ := h
  cases kind with
  | CHAR =>
    obtain rfl := Option.some.inj hrange
    refine ⟨.CHAR (Int8.ofInt n).toUInt8, rfl, ?_⟩
    rw [number, Int8.toInt8_toUInt8, Int8.toInt_ofInt_of_le hlo (by dsimp only at hhi; omega)]
  | INT16 =>
    obtain rfl := Option.some.inj hrange
    refine ⟨.INT16 (Int16.ofInt n), rfl, ?_⟩
    rw [number, Int16.toInt_ofInt_of_le hlo (by dsimp only at hhi; omega)]
  | INT =>
    obtain rfl := Option.some.inj hrange
    refine ⟨.INT (Int32.ofInt n), rfl, ?_⟩
    rw [number, Int32.toInt_ofInt_of_le hlo (by dsimp only at hhi; omega)]
  | INT64 =>
    obtain rfl := Option.some.inj hrange
    refine ⟨.INT64 (Int64.ofInt n), rfl, ?_⟩
    rw [number, Int64.toInt_ofInt_of_le hlo (by dsimp only at hhi; omega)]
  | UINT16 =>
    obtain rfl := Option.some.inj hrange
    obtain ⟨n, rfl⟩ := Int.eq_ofNat_of_zero_le hlo
    refine ⟨.UINT16 (UInt16.ofNat n), rfl, ?_⟩
    rw [number, UInt16.toNat_ofNat', Nat.mod_eq_of_lt (by dsimp only at hhi; omega)]
  | UINT32 =>
    obtain rfl := Option.some.inj hrange
    obtain ⟨n, rfl⟩ := Int.eq_ofNat_of_zero_le hlo
    refine ⟨.UINT32 (UInt32.ofNat n), rfl, ?_⟩
    rw [number, UInt32.toNat_ofNat', Nat.mod_eq_of_lt (by dsimp only at hhi; omega)]
  | UINT64 =>
    obtain rfl := Option.some.inj hrange
    obtain ⟨n, rfl⟩ := Int.eq_ofNat_of_zero_le hlo
    refine ⟨.UINT64 (UInt64.ofNat n), rfl, ?_⟩
    rw [number, UInt64.toNat_ofNat', Nat.mod_eq_of_lt (by dsimp only at hhi; omega)]
  | no => cases hrange
  | BOOL => cases hrange
  | FLOAT => cases hrange
  | DOUBLE => cases hrange
  | STR => cases hrange
  | OBJECT => cases hrange
  | LIST => cases hrange

/-- So the range of a kind is what its values can hold. -/
theorem ModelType.holds_iff {kind : ModelType} {n : Int} :
    kind.Holds n ↔ ∃ v : PlainVal, v.kind = kind ∧ v.number = some n := by
  constructor
  · exact PlainVal.exists_number
  · rintro ⟨v, rfl, hv⟩
    exact PlainVal.holds_number hv

end Rellaf.Models
