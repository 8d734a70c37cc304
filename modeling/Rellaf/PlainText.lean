/-
Numbers as text: the string of a `Plain<T>` and what `set_parse` makes of a string.

A numeral is read exactly by the `strtol` family, as long as the number fits. For every
other string these functions have a value as well, so `set_parse`, which is to say
`false` then, never does (`set_parse_numeral_iff`).
-/
import Rellaf.HttpEntry
import Rellaf.PlainNumber

set_option autoImplicit false

open Rellaf.Cpp

namespace Rellaf.Brpc

open Models Decimal

/-! ## `strtol` and `strtoul` on numerals -/

theorem magnitude_digits_value {ds : Str} {n : Nat} (h : magnitude ds = some n) :
    digits_value ds 0 = n := by
  obtain ⟨⟨-, hall⟩, hvalue⟩ := magnitude_eq_some_iff.mp h
  rw [digits_value_of_all hall, hvalue]

/-- Digits start with no blank and with no sign. -/
theorem magnitude_head {s : Str} {n : Nat} (h : magnitude s = some n) :
    ∃ c ds, s = c :: ds ∧ is_digit c = true := by
  obtain ⟨⟨hne, hall⟩, -⟩ := magnitude_eq_some_iff.mp h
  obtain ⟨c, ds, rfl⟩ := List.exists_cons_of_ne_nil hne
  rw [List.all_cons, Bool.and_eq_true] at hall
  exact ⟨c, ds, rfl, hall.1⟩

theorem strtol_of_digit {c : UInt8} (h : is_digit c = true) (s : Str) :
    strtol (c :: s) = Int64.ofInt (min (2 ^ 63 - 1) (digits_value (c :: s) 0)) := by
  obtain ⟨hspace, hminus, hplus⟩ := digit_head h
  rw [strtol, List.dropWhile_cons_of_neg (by simp [hspace])]
  split
  next heq => exact absurd (List.cons.inj heq).1 hminus
  next heq => exact absurd (List.cons.inj heq).1 hplus
  next => rfl

/-- A number that a `long` holds is read as it is. -/
theorem strtol_numeral {s : Str} {z : Int} (h : numeral s = some z) (hlo : -2 ^ 63 ≤ z)
    (hhi : z < 2 ^ 63) : strtol s = Int64.ofInt z := by
  obtain ⟨ds, n, rfl, hn, rfl⟩ | ⟨n, hn, rfl⟩ := numeral_eq_some_iff.mp h
  · have hread : strtol (45 :: ds) = Int64.ofInt (max (-2 ^ 63) (-(digits_value ds 0 : Int))) := rfl
    rw [hread, magnitude_digits_value hn, max_eq_right hlo]
  · obtain ⟨c, ds, rfl, hc⟩ := magnitude_head hn
    rw [strtol_of_digit hc, magnitude_digits_value hn, min_eq_right (by omega)]

/-- A number that an `unsigned long` holds is read as it is. -/
theorem strtoul_numeral {s : Str} {n : Nat} (h : numeral s = some (n : Int)) (hlt : n < 2 ^ 64) :
    (strtoul s).toNat = n := by
  obtain ⟨ds, k, rfl, hk, hz⟩ | ⟨k, hk, hz⟩ := numeral_eq_some_iff.mp h
  · have hread : strtoul (45 :: ds) = strtoul.of_digits true (digits_value ds 0) := rfl
    have hzero : k = 0 ∧ n = 0 := by omega
    rw [hread, magnitude_digits_value hk, hzero.1, hzero.2]
    rfl
  · obtain rfl : k = n := by omega
    obtain ⟨c, ds, rfl, hc⟩ := magnitude_head hk
    rw [strtoul_of_digit hc, magnitude_digits_value hk, strtoul.of_digits,
      if_pos hlt]
    exact Nat.mod_eq_of_lt hlt

/-! ## Numerals through `cast` -/

variable (calls : Calls)

theorem cast_kind (s : Str) (v : PlainVal) : (cast calls s v).kind = v.kind := by
  cases v <;> rfl

/-- The kinds that `set_parse` reads with `strtol` or `strtoul`. -/
def numeric_kinds : List ModelType := [.INT16, .INT, .INT64, .UINT16, .UINT32, .UINT64]

/-- A numeral in the range of the kind is read as the number that it denotes. -/
theorem cast_number {s : Str} {z : Int} {v : PlainVal} (hnumeral : numeral s = some z)
    (hkind : v.kind ∈ numeric_kinds) (hholds : v.kind.Holds z) :
    (cast calls s v).number = some z := by
  obtain ⟨bounds, hrange, hlo, hhi⟩ := hholds
  cases v with
  | INT16 v =>
    obtain rfl := Option.some.inj hrange
    dsimp only at hlo hhi
    rw [cast, strtol_numeral hnumeral (by omega) (by omega), PlainVal.number,
      Int64.toInt16_ofInt, Int16.toInt_ofInt_of_le (by omega) (by omega)]
  | INT v =>
    obtain rfl := Option.some.inj hrange
    dsimp only at hlo hhi
    rw [cast, strtol_numeral hnumeral (by omega) (by omega), PlainVal.number,
      Int64.toInt32_ofInt, Int32.toInt_ofInt_of_le (by omega) (by omega)]
  | INT64 v =>
    obtain rfl := Option.some.inj hrange
    dsimp only at hlo hhi
    rw [cast, strtol_numeral hnumeral (by omega) (by omega), PlainVal.number,
      Int64.toInt_ofInt_of_le (by omega) (by omega)]
  | UINT16 v =>
    obtain rfl := Option.some.inj hrange
    dsimp only at hlo hhi
    obtain ⟨n, rfl⟩ := Int.eq_ofNat_of_zero_le hlo
    rw [cast, PlainVal.number, UInt64.toNat_toUInt16, strtoul_numeral hnumeral (by omega),
      Nat.mod_eq_of_lt (by omega)]
  | UINT32 v =>
    obtain rfl := Option.some.inj hrange
    dsimp only at hlo hhi
    obtain ⟨n, rfl⟩ := Int.eq_ofNat_of_zero_le hlo
    rw [cast, PlainVal.number, UInt64.toNat_toUInt32, strtoul_numeral hnumeral (by omega),
      Nat.mod_eq_of_lt (by omega)]
  | UINT64 v =>
    obtain rfl := Option.some.inj hrange
    dsimp only at hlo hhi
    obtain ⟨n, rfl⟩ := Int.eq_ofNat_of_zero_le hlo
    rw [cast, PlainVal.number, strtoul_numeral hnumeral (by omega)]
  | CHAR _ => simp [PlainVal.kind, numeric_kinds] at hkind
  | BOOL _ => simp [PlainVal.kind, numeric_kinds] at hkind
  | FLOAT _ => simp [PlainVal.kind, numeric_kinds] at hkind
  | DOUBLE _ => simp [PlainVal.kind, numeric_kinds] at hkind
  | STR _ => simp [PlainVal.kind, numeric_kinds] at hkind

/-! ## What `set_parse` says about a string -/

theorem plain_set_parse_none {p : Plain} (hparse : p.parse_func = none) (s : Str) :
    plain_set_parse calls p s = .ok (true, { p with val := cast calls s p.val }) := by
  unfold plain_set_parse
  rw [hparse]

/-- `s` is a numeral in the range of the kind. -/
def IsNumeralOf (kind : ModelType) (s : Str) : Prop :=
  ∃ z, numeral s = some z ∧ kind.Holds z

/-- `set_parse` tells the numerals of its kind from other strings: it returns `true` and
the number is there, or `false` and nothing changes. -/
def TellsNumerals (p : Plain) (s : Str) : Prop :=
  (∀ z, numeral s = some z → p.val.kind.Holds z →
    ∃ v : PlainVal, v.kind = p.val.kind ∧ v.number = some z ∧
      plain_set_parse calls p s = .ok (true, { p with val := v })) ∧
  (¬ IsNumeralOf p.val.kind s → plain_set_parse calls p s = .ok (false, p))

/-- **What `set_parse` tells.** A numeral in range is read as the number. No other string
is refused: the `strtol` family has a value for it and throws nothing. -/
theorem set_parse_numeral_iff (p : Plain) (s : Str) (hparse : p.parse_func = none)
    (hkind : p.val.kind ∈ numeric_kinds) :
    TellsNumerals calls p s ↔ IsNumeralOf p.val.kind s := by
  have hset := plain_set_parse_none calls hparse s
  constructor
  · intro h
    by_contra hother
    have hrefused := h.2 hother
    rw [hset] at hrefused
    cases hrefused
  · intro hnumeral
    refine ⟨?_, fun hother => (hother hnumeral).elim⟩
    intro z hz hholds
    exact ⟨cast calls s p.val, cast_kind calls s p.val, cast_number calls hz hkind hholds, hset⟩

/-- `std::to_string` and `set_parse` of a `Plain<int16_t>` on the text of the smallest one. -/
theorem set_parse_numeral_int16 :
    TellsNumerals ⟨fun _ => none, fun _ => [], fun _ => 0, fun _ => 0, fun _ => []⟩
        ⟨[], .INT16, .INT16 7, none, none⟩ (lit "-32768") ↔
      IsNumeralOf .INT16 (lit "-32768") :=
  set_parse_numeral_iff _ _ _ rfl (by decide)

/-- `abc` is no number, and `set_parse` of a `Plain<int>` makes 0 of it and returns `true`. -/
theorem set_parse_takes_letters :
    ¬ ∀ (calls : Calls) (p : Plain) (s : Str), p.parse_func = none → p.val.kind ∈ numeric_kinds →
      TellsNumerals calls p s := by
  intro hall
  have hletters : ¬ IsNumeralOf .INT (lit "abc") := by
    rintro ⟨z, hz, -⟩
    have hnone : numeral (lit "abc") = none := by decide
    rw [hnone] at hz
    cases hz
  have hrefused := (hall ⟨fun _ => none, fun _ => [], fun _ => 0, fun _ => 0, fun _ => []⟩
    ⟨[], .INT, .INT 7, none, none⟩ (lit "abc") rfl (by decide)).2 hletters
  rw [plain_set_parse_none _ rfl] at hrefused
  cases hrefused

/-! ## The text of a value, read again -/

/-- The function that `TypeDetect` installs as `_str_func`. `std::to_string` of a `bool`
is that of 0 or 1. -/
def type_detect_str : PlainVal → Str
  | .CHAR v => [v]
  | .INT16 v => print v.toInt
  | .INT v => print v.toInt
  | .INT64 v => print v.toInt
  | .UINT16 v => print v.toNat
  | .UINT32 v => print v.toNat
  | .UINT64 v => print v.toNat
  | .BOOL v => print (if v then 1 else 0)
  | .FLOAT v => calls.to_string (.FLOAT v)
  | .DOUBLE v => calls.to_string (.DOUBLE v)
  | .STR v => v

/-- The text of a number is read as the number. -/
theorem cast_print {v w : PlainVal} {z : Int} (hkind : w.kind = v.kind)
    (hnumeric : v.kind ∈ numeric_kinds) (hnumber : v.number = some z) :
    cast calls (print z) w = v := by
  have hholds : w.kind.Holds z := by
    rw [hkind]
    exact PlainVal.holds_number hnumber
  have hread : (cast calls (print z) w).number = some z :=
    cast_number calls (numeral_print z) (by rwa [hkind]) hholds
  exact PlainVal.eq_of_number ((cast_kind calls _ w).trans hkind) hread hnumber

/-- What is read of the text of a value. -/
theorem cast_type_detect_str {v w : PlainVal} (hkind : w.kind = v.kind)
    (hfloat : v.kind ≠ .FLOAT) (hdouble : v.kind ≠ .DOUBLE) :
    cast calls (type_detect_str calls v) w = v := by
  cases v with
  | INT16 v => exact cast_print calls hkind (by simp [PlainVal.kind, numeric_kinds]) rfl
  | INT v => exact cast_print calls hkind (by simp [PlainVal.kind, numeric_kinds]) rfl
  | INT64 v => exact cast_print calls hkind (by simp [PlainVal.kind, numeric_kinds]) rfl
  | UINT16 v => exact cast_print calls hkind (by simp [PlainVal.kind, numeric_kinds]) rfl
  | UINT32 v => exact cast_print calls hkind (by simp [PlainVal.kind, numeric_kinds]) rfl
  | UINT64 v => exact cast_print calls hkind (by simp [PlainVal.kind, numeric_kinds]) rfl
  | CHAR v => cases w <;> cases hkind; rfl
  | BOOL v =>
    -- the digit is looked at, and not the number
    cases w <;> cases hkind
    cases v
    · rfl
    · rfl
  | STR v => cases w <;> cases hkind; rfl
  | FLOAT v => exact (hfloat rfl).elim
  | DOUBLE v => exact (hdouble rfl).elim

/-- **The text of a value reads back.** A plain without a parse function of its own holds
the value again that another one of its type has printed. -/
theorem set_parse_str (p q : Plain) (hstr : p.str_func = some (type_detect_str calls))
    (hparse : q.parse_func = none) (hkind : q.val.kind = p.val.kind)
    (hfloat : p.val.kind ≠ .FLOAT) (hdouble : p.val.kind ≠ .DOUBLE) :
    plain_set_parse calls q p.str = .ok (true, { q with val := p.val }) := by
  unfold Plain.str
  rw [hstr, plain_set_parse_none calls hparse, cast_type_detect_str calls hkind hfloat hdouble]

/-- The smallest `int64_t`. -/
theorem set_parse_str_int64 :
    plain_set_parse ⟨fun _ => none, fun _ => [], fun _ => 0, fun _ => 0, fun _ => []⟩
        ⟨[], .INT64, .INT64 0, none, none⟩
        (Plain.str ⟨[], .INT64, .INT64 (-9223372036854775808), none,
          some (type_detect_str ⟨fun _ => none, fun _ => [], fun _ => 0, fun _ => 0, fun _ => []⟩)⟩) =
      .ok (true, ⟨[], .INT64, .INT64 (-9223372036854775808), none, none⟩) :=
  set_parse_str _ ⟨[], .INT64, .INT64 (-9223372036854775808), none, some (type_detect_str _)⟩
    ⟨[], .INT64, .INT64 0, none, none⟩ rfl rfl rfl (by simp [PlainVal.kind])
    (by simp [PlainVal.kind])

end Rellaf.Brpc
