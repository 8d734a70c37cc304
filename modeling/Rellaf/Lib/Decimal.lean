/-
Decimal numerals as bytes.

`numeral` reads an optional minus sign and at least one digit, and nothing else;
`print` writes the numeral of an integer that has no leading zeros. What is printed
reads back as the integer it was (`numeral_print`).
-/
import Mathlib.Tactic

set_option autoImplicit false

namespace Decimal

def is_digit (c : UInt8) : Bool := 48 ≤ c && c ≤ 57

theorem is_digit_iff {c : UInt8} : is_digit c = true ↔ 48 ≤ c ∧ c ≤ 57 := by
  unfold is_digit
  rw [Bool.and_eq_true, decide_eq_true_eq, decide_eq_true_eq]

/-- The digits as a number, on top of `acc`. -/
def value : List UInt8 → Nat → Nat
  | [], acc => acc
  | c :: ds, acc => value ds (acc * 10 + (c.toNat - 48))

/-- The number of a nonempty list of digits. -/
def magnitude (ds : List UInt8) : Option Nat :=
  if ds ≠ [] ∧ ds.all is_digit then some (value ds 0) else none

/-- The integer that an optional minus sign and digits denote. -/
def numeral : List UInt8 → Option Int
  | 45 :: ds => (magnitude ds).map fun n : Nat => -(n : Int)
  | ds => (magnitude ds).map fun n : Nat => (n : Int)

/-- The digits of a number, the first one not zero unless it is the only one. -/
def digits (n : Nat) : List UInt8 := (Nat.toDigits 10 n).map fun c => c.toUInt8

/-- The numeral of an integer. -/
def print : Int → List UInt8
  | .ofNat n => digits n
  | .negSucc n => 45 :: digits (n + 1)

/-! ## Reading a numeral -/

theorem magnitude_eq_some_iff {ds : List UInt8} {n : Nat} :
    magnitude ds = some n ↔ (ds ≠ [] ∧ ds.all is_digit = true) ∧ value ds 0 = n := by
  unfold magnitude
  split
  next h => exact ⟨fun heq => ⟨h, Option.some.inj heq⟩, fun heq => congrArg some heq.2⟩
  next h => exact ⟨fun heq => (Option.some_ne_none _ heq.symm).elim, fun heq => (h heq.1).elim⟩

/-- **The two shapes of a numeral.** -/
theorem numeral_eq_some_iff {s : List UInt8} {z : Int} :
    numeral s = some z ↔
      (∃ ds n, s = 45 :: ds ∧ magnitude ds = some n ∧ -(n : Int) = z) ∨
        ∃ n, magnitude s = some n ∧ (n : Int) = z := by
  have hsign : magnitude (45 :: s.tail) = none := by
    unfold magnitude
    rw [if_neg]
    rintro ⟨-, hall⟩
    rw [List.all_cons, Bool.and_eq_true] at hall
    exact absurd hall.1 (by decide)
  unfold numeral
  split
  next ds =>
    rw [Option.map_eq_some_iff]
    constructor
    · rintro ⟨n, hn, hz⟩
      exact .inl ⟨ds, n, rfl, hn, hz⟩
    · rintro (⟨ds', n, hds, hn, hz⟩ | ⟨n, hn, hz⟩)
      · obtain ⟨-, rfl⟩ := List.cons.inj hds
        exact ⟨n, hn, hz⟩
      · rw [List.tail_cons] at hsign
        rw [hsign] at hn
        cases hn
  next s hminus =>
    rw [Option.map_eq_some_iff]
    constructor
    · rintro ⟨n, hn, hz⟩
      exact .inr ⟨n, hn, hz⟩
    · rintro (⟨ds', n, hds, hn, hz⟩ | ⟨n, hn, hz⟩)
      · exact (hminus ds' hds).elim
      · exact ⟨n, hn, hz⟩

/-! ## What is printed -/

theorem is_digit_toUInt8 {c : Char} (hc : c.isDigit = true) :
    is_digit c.toUInt8 = true ∧ c.toUInt8.toNat = c.toNat := by
  have hrange : 48 ≤ c.toNat ∧ c.toNat ≤ 57 := by
    unfold Char.isDigit at hc
    rw [Bool.and_eq_true, decide_eq_true_eq, decide_eq_true_eq] at hc
    exact ⟨UInt32.le_iff_toNat_le.mp hc.1, UInt32.le_iff_toNat_le.mp hc.2⟩
  have hnat : c.toUInt8.toNat = c.toNat := by
    have hmod : c.toUInt8.toNat = c.toNat % 2 ^ 8 := UInt32.toNat_toUInt8 c.val
    omega
  refine ⟨is_digit_iff.mpr ⟨UInt8.le_iff_toNat_le.mpr ?_, UInt8.le_iff_toNat_le.mpr ?_⟩, hnat⟩
  · rw [hnat]
    exact hrange.1
  · rw [hnat]
    exact hrange.2

theorem digits_ne_nil (n : Nat) : digits n ≠ [] := by
  unfold digits
  rw [ne_eq, List.map_eq_nil_iff]
  exact Nat.toDigits_ne_nil

theorem digits_all (n : Nat) : (digits n).all is_digit = true := by
  unfold digits
  rw [List.all_map, List.all_eq_true]
  intro c hc
  exact (is_digit_toUInt8 (Nat.isDigit_of_mem_toDigits (by decide) (by decide) hc)).1

theorem value_map_toUInt8 {cs : List Char} (hcs : ∀ c ∈ cs, c.isDigit = true) (acc : Nat) :
    value (cs.map fun c => c.toUInt8) acc = Nat.ofDigitChars 10 cs acc := by
  induction cs generalizing acc with
  | nil => rfl
  | cons c cs ih =>
    have hc : c.toUInt8.toNat = c.toNat := (is_digit_toUInt8 (hcs c List.mem_cons_self)).2
    rw [List.map_cons, value, Nat.ofDigitChars_cons, hc, Nat.mul_comm acc 10]
    exact ih (fun c' hc' => hcs c' (List.mem_cons_of_mem _ hc')) _

theorem value_digits (n : Nat) : value (digits n) 0 = n := by
  have hdigit : ∀ c ∈ Nat.toDigits 10 n, c.isDigit = true :=
    fun c hc => Nat.isDigit_of_mem_toDigits (by decide) (by decide) hc
  unfold digits
  rw [value_map_toUInt8 hdigit]
  exact Nat.ofDigitChars_ten_toDigits

theorem magnitude_digits (n : Nat) : magnitude (digits n) = some n :=
  magnitude_eq_some_iff.mpr ⟨⟨digits_ne_nil n, digits_all n⟩, value_digits n⟩

/-- **What is printed reads back.** -/
theorem numeral_print (z : Int) : numeral (print z) = some z := by
  cases z with
  | ofNat n => exact numeral_eq_some_iff.mpr (.inr ⟨n, magnitude_digits n, rfl⟩)
  | negSucc n =>
    exact numeral_eq_some_iff.mpr (.inl ⟨digits (n + 1), n + 1, rfl, magnitude_digits (n + 1), rfl⟩)

/-- What is printed is digits, with or without a minus sign in front of them. -/
theorem print_eq (z : Int) : ∃ n, print z = digits n ∨ print z = 45 :: digits n := by
  cases z with
  | ofNat n => exact ⟨n, .inl rfl⟩
  | negSucc n => exact ⟨n + 1, .inr rfl⟩

theorem print_bytes (z : Int) :
    print z ≠ [] ∧ ∀ b ∈ print z, b = 45 ∨ is_digit b = true := by
  obtain ⟨n, hprint⟩ := print_eq z
  have hdigits : ∀ b ∈ digits n, is_digit b = true := List.all_eq_true.mp (digits_all n)
  rcases hprint with hprint | hprint
  · rw [hprint]
    exact ⟨digits_ne_nil n, fun b hb => .inr (hdigits b hb)⟩
  · rw [hprint]
    exact ⟨List.cons_ne_nil _ _, fun b hb => (List.mem_cons.mp hb).imp_right (hdigits b)⟩

end Decimal
