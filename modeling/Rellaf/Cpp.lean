/-
The C++ ground the development stands on: byte strings, the ways a call can end
other than by returning, and the few C library functions the sources call.

A `std::string` is the list of its bytes. `char` is signed on the x86-64 target,
but the sources compare characters for equality or cast them to `unsigned char`
first, so an unsigned byte says the same; where the sign matters (an index into
a table) the definition that uses it says so.
-/
import Mathlib.Data.List.TakeWhile
import Mathlib.Tactic
import Rellaf.Lib.Decimal

set_option autoImplicit false

namespace Rellaf.Cpp

/-- `std::string`: its bytes, zero bytes included. -/
abbrev Str := List UInt8

/-- A string literal of the source, as its bytes. -/
def lit (s : String) : Str := s.toUTF8.data.toList

/-- How a call can end without returning. -/
inductive Fault where
  /-- the standard gives the execution no meaning: a null or dangling pointer is
  read, a buffer is overrun, `back()` of an empty string is taken -/
  | undefined
  /-- an exception leaves the call -/
  | exception
  /-- the process ends: `exit(-1)`, or `assert` in a build without `NDEBUG` -/
  | abort
  deriving DecidableEq, Repr

/-- A call that returns a value of type `α` unless it ends in a `Fault`. -/
abbrev Run (α : Type) := Except Fault α

section Run

variable {α β : Type}

@[simp] theorem run_pure (a : α) : (pure a : Run α) = .ok a := rfl

@[simp] theorem run_ok_bind (a : α) (f : α → Run β) : ((.ok a : Run α) >>= f) = f a := rfl

@[simp] theorem run_error_bind (fault : Fault) (f : α → Run β) :
    ((.error fault : Run α) >>= f) = .error fault := rfl

/-- A sequence returns exactly when its first half does and the rest behind it. -/
theorem except_bind_eq_ok {ε : Type} {x : Except ε α} {f : α → Except ε β} {b : β} :
    x >>= f = .ok b ↔ ∃ a, x = .ok a ∧ f a = .ok b := by
  constructor
  · intro h
    cases x with
    | error e => cases h
    | ok a => exact ⟨a, rfl, h⟩
  · rintro ⟨a, rfl, h⟩
    exact h

theorem run_bind_eq_ok {x : Run α} {f : α → Run β} {b : β} :
    x >>= f = .ok b ↔ ∃ a, x = .ok a ∧ f a = .ok b :=
  except_bind_eq_ok

end Run

/-- How a call goes that may wait for other threads, for ever perhaps. -/
inductive CallOutcome (α : Type) where
  | returns (value : α)
  | waits
  | faults (fault : Fault)
  deriving DecidableEq, Repr

namespace CallOutcome

variable {α β : Type}

def returned : CallOutcome α → Bool
  | .returns _ => true
  | _ => false

def map (f : α → β) : CallOutcome α → CallOutcome β
  | .returns value => .returns (f value)
  | .waits => .waits
  | .faults fault => .faults fault

@[simp] theorem returned_map (f : α → β) (outcome : CallOutcome α) :
    (outcome.map f).returned = outcome.returned := by
  cases outcome <;> rfl

end CallOutcome

/-! ## `std::string` -/

/-- `s.front()`, undefined on the empty string. -/
def front : Str → Run UInt8
  | [] => .error .undefined
  | c :: _ => .ok c

/-- `s.back()`, undefined on the empty string. -/
def back (s : Str) : Run UInt8 :=
  match s.getLast? with
  | none => .error .undefined
  | some c => .ok c

@[simp] theorem front_cons (c : UInt8) (s : Str) : front (c :: s) = .ok c := rfl

@[simp] theorem back_nil : back [] = .error .undefined := rfl

@[simp] theorem back_append_singleton (s : Str) (c : UInt8) : back (s ++ [c]) = .ok c := by
  simp [back]

theorem back_ok_of_ne_nil {s : Str} (h : s ≠ []) : ∃ c, back s = .ok c ∧ s.getLast? = some c := by
  refine ⟨s.getLast h, ?_, List.getLast?_eq_some_getLast h⟩
  rw [back, List.getLast?_eq_some_getLast h]

/-- `s.substr(pos, n)`; `n = none` is `npos`, "to the end". -/
def substr (s : Str) (pos : Nat) (n : Option Nat) : Str :=
  match n with
  | none => s.drop pos
  | some n => (s.drop pos).take n

/-- The first index from `i` on at which `needle` starts, `s` being what the
string holds from index `i`. -/
def find_from (needle : Str) : Str → Nat → Option Nat
  | [], i => if needle.isPrefixOf [] then some i else none
  | c :: s, i => if needle.isPrefixOf (c :: s) then some i else find_from needle s (i + 1)

/-- `s.find(needle, pos)`; `none` is `npos`. -/
def find (s needle : Str) (pos : Nat) : Option Nat :=
  if pos ≤ s.length then find_from needle (s.drop pos) pos else none

/-! ## C strings -/

/-- What a `char*` conversion keeps of a string: the bytes before the first zero. -/
def cstr (s : Str) : Str := s.takeWhile (· ≠ 0)

theorem cstr_eq_self {s : Str} (h : (0 : UInt8) ∉ s) : cstr s = s := by
  rw [cstr, List.takeWhile_eq_self_iff]
  intro c hc
  have hne : c ≠ 0 := fun h0 => h (by rwa [h0] at hc)
  simpa using hne

/-- `strchr(s, c)`: the index of the first `c` before the terminating zero. -/
def strchr (s : Str) (c : UInt8) : Option Nat := (cstr s).idxOf? c

/-- `tolower` in the C locale. -/
def tolower (c : UInt8) : UInt8 := if 65 ≤ c ∧ c ≤ 90 then c + 32 else c

/-- `strncasecmp(a, b, n) == 0`. Past its last byte a C string reads zero. -/
def strncasecmp_eq : Str → Str → Nat → Bool
  | _, _, 0 => true
  | a, b, n + 1 =>
    tolower (a.headD 0) == tolower (b.headD 0) &&
      (a.headD 0 == 0 || strncasecmp_eq a.tail b.tail n)

/-- `strcasecmp(a, b) == 0`: the comparison runs to the end of the longer one. -/
def strcasecmp_eq (a b : Str) : Bool :=
  strncasecmp_eq a b (max a.length b.length + 1)

/-- `isspace` in the C locale. -/
def isspace (c : UInt8) : Bool := c == 32 || (9 ≤ c && c ≤ 13)

/-- The value of the decimal digits at the head of `s`, on top of `acc`. -/
def digits_value : Str → Nat → Nat
  | [], acc => acc
  | c :: s, acc => if 48 ≤ c ∧ c ≤ 57 then digits_value s (acc * 10 + (c.toNat - 48)) else acc

/-- Digits are read up to the first byte that is none. -/
theorem digits_value_append {ds rest : Str} (h : ds.all Decimal.is_digit = true)
    (hrest : ∀ c ∈ rest.head?, Decimal.is_digit c = false) (acc : Nat) :
    digits_value (ds ++ rest) acc = Decimal.value ds acc := by
  induction ds generalizing acc with
  | nil =>
    cases rest with
    | nil => rfl
    | cons c rest =>
      have hc : ¬ (48 ≤ c ∧ c ≤ 57) := by
        rw [← Decimal.is_digit_iff, hrest c rfl]
        exact Bool.false_ne_true
      rw [List.nil_append, digits_value, if_neg hc, Decimal.value]
  | cons c ds ih =>
    rw [List.all_cons, Bool.and_eq_true, Decimal.is_digit_iff] at h
    rw [List.cons_append, digits_value, if_pos h.1, Decimal.value]
    exact ih h.2 _

theorem digits_value_of_all {ds : Str} (h : ds.all Decimal.is_digit = true) (acc : Nat) :
    digits_value ds acc = Decimal.value ds acc := by
  have happend := @digits_value_append ds [] h (by rintro c ⟨⟩) acc
  rwa [List.append_nil] at happend

/-- `strtoul(s, nullptr, 10)` with a 64-bit `unsigned long`: blanks, an optional
sign, digits; `ULONG_MAX` when the digits do not fit, and a minus sign negates
modulo `2 ^ 64`. -/
def strtoul (s : Str) : UInt64 :=
  match s.dropWhile isspace with
  | 45 :: ds => of_digits true (digits_value ds 0)
  | 43 :: ds => of_digits false (digits_value ds 0)
  | ds => of_digits false (digits_value ds 0)
where
  /-- the result for the digits' value `v` after the sign -/
  of_digits (neg : Bool) (v : Nat) : UInt64 :=
    if v < 2 ^ 64 then (if neg then 0 - UInt64.ofNat v else UInt64.ofNat v)
    else UInt64.ofNat (2 ^ 64 - 1)

/-- A digit is no blank and no sign. -/
theorem digit_head {c : UInt8} (h : Decimal.is_digit c = true) :
    isspace c = false ∧ c ≠ 45 ∧ c ≠ 43 := by
  obtain ⟨hlo, -⟩ := Decimal.is_digit_iff.mp h
  rw [UInt8.le_iff_toNat_le] at hlo
  have hne : ∀ d : UInt8, d.toNat < 48 → c ≠ d := by
    rintro d hd rfl
    exact absurd hlo (Nat.not_le.mpr hd)
  have hlt : ¬ c ≤ 13 := by
    rw [UInt8.le_iff_toNat_le]
    exact fun hle => absurd (hlo.trans hle) (by decide)
  refine ⟨?_, hne 45 (by decide), hne 43 (by decide)⟩
  simp [isspace, hne 32 (by decide), hlt]

/-- Nothing is skipped in front of a digit. -/
theorem strtoul_of_digit {c : UInt8} (h : Decimal.is_digit c = true) (s : Str) :
    strtoul (c :: s) = strtoul.of_digits false (digits_value (c :: s) 0) := by
  obtain ⟨hspace, hminus, hplus⟩ := digit_head h
  rw [strtoul, List.dropWhile_cons_of_neg (by simp [hspace])]
  split
  next heq => exact absurd (List.cons.inj heq).1 hminus
  next heq => exact absurd (List.cons.inj heq).1 hplus
  next => rfl

example : strtoul (lit "12>") = 12 := by decide

end Rellaf.Cpp
