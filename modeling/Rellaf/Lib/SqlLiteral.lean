/-
Quoted string literals over a multi-byte charset: an escaper, a reader, and the
round trip between them.

Nothing here knows a concrete charset or a concrete program. A `Charset` is what
a lexer can ask of the bytes in front of it, together with the few laws the round
trip needs; `Letters` is a table of backslash escapes. An escaper that works
byte by byte over such a pair is read back exactly, whatever bytes it is given,
well-formed text or not.

Where the work is: an escaped text must be cut by the reader at the positions the
escaper cut it. The escaper looks at what follows a byte in its *input*, the
reader at what follows it in the *output*, and these differ. Two laws carry the
alignment: `charlen_append`, a well-formed character stays one whatever follows
it, and `lead_of_charlen`, a byte that cannot begin a character does not begin
one whatever follows it.
-/
import Mathlib.Data.List.Basic
import Mathlib.Tactic

set_option autoImplicit false

namespace SqlLiteral

/-- A multi-byte charset as a lexer sees it. -/
structure Charset where
  /-- the length of the well-formed multi-byte character at the head of the
  bytes, `0` when there is none -/
  charlen : List UInt8 → Nat
  /-- whether the byte may begin a multi-byte character -/
  lead : UInt8 → Bool
  charlen_le : ∀ s : List UInt8, charlen s ≤ s.length
  charlen_ne_one : ∀ s, charlen s ≠ 1
  charlen_append : ∀ s t : List UInt8, charlen s ≠ 0 → charlen (s.take (charlen s) ++ t) = charlen s
  lead_of_charlen : ∀ b s, charlen (b :: s) ≠ 0 → lead b = true
  lead_high : ∀ b, lead b = true → 128 ≤ b
  char_ne_zero : ∀ s : List UInt8, (0 : UInt8) ∉ s.take (charlen s)

/-- What a backslash followed by `e` stands for. `\%` and `\_` keep their
backslash, for a later `LIKE`. -/
def unescape (e : UInt8) : List UInt8 :=
  if e = 48 then [0]
  else if e = 110 then [10]
  else if e = 114 then [13]
  else if e = 90 then [26]
  else if e = 116 then [9]
  else if e = 98 then [8]
  else if e = 37 ∨ e = 95 then [92, e]
  else [e]

/-- A table of escape letters: `letter b = some e` writes the byte `b` as a
backslash and `e`. The quote, the backslash and the zero byte must be in it. -/
structure Letters where
  letter : UInt8 → Option UInt8
  unescape_letter : ∀ b e, letter b = some e → unescape e = [b]
  letter_ne_zero : ∀ b e, letter b = some e → e ≠ 0
  special : ∀ b, letter b = none → b ≠ 92 ∧ b ≠ 39 ∧ b ≠ 0

/-- A byte past the ASCII range stands for itself after a backslash. -/
theorem unescape_high {b : UInt8} (h : 128 ≤ b) : unescape b = [b] := by
  have hne : ∀ c : UInt8, c < 128 → b ≠ c := by
    intro c hc hbc
    rw [hbc] at h
    exact absurd hc (UInt8.not_lt.mpr h)
  simp only [unescape, if_neg (hne 48 (by decide)), if_neg (hne 110 (by decide)),
    if_neg (hne 114 (by decide)), if_neg (hne 90 (by decide)), if_neg (hne 116 (by decide)),
    if_neg (hne 98 (by decide)), hne 37 (by decide), hne 95 (by decide), or_self, if_false]

variable (cs : Charset) (L : Letters)

/-! ## The escaper -/

/-- What is written for a byte that is not part of a well-formed character. A
byte that may begin one is escaped too, so that what follows it in the output
cannot complete it. -/
def escape_byte (b : UInt8) : List UInt8 :=
  if cs.lead b then [92, b]
  else match L.letter b with
    | some e => [92, e]
    | none => [b]

/-- The escaped text: well-formed characters whole, every other byte through
`escape_byte`. -/
def escape : List UInt8 → List UInt8
  | [] => []
  | b :: s =>
    if cs.charlen (b :: s) = 0 then escape_byte cs L b ++ escape s
    else (b :: s).take (cs.charlen (b :: s)) ++ escape ((b :: s).drop (cs.charlen (b :: s)))
termination_by s => s.length
decreasing_by
  · simp
  · simp only [List.length_drop, List.length_cons]
    omega

@[simp] theorem escape_nil : escape cs L [] = [] := by
  rw [escape]

theorem escape_single {b : UInt8} {s : List UInt8} (h : cs.charlen (b :: s) = 0) :
    escape cs L (b :: s) = escape_byte cs L b ++ escape cs L s := by
  rw [escape, if_pos h]

theorem escape_char {s : List UInt8} (h : cs.charlen s ≠ 0) :
    escape cs L s = s.take (cs.charlen s) ++ escape cs L (s.drop (cs.charlen s)) := by
  cases s with
  | nil => exact absurd (Nat.le_zero.mp (cs.charlen_le [])) h
  | cons b s => rw [escape, if_neg h]

/-! ## The reader -/

/-- Reads the body of a literal whose opening quote is behind: the value and what
is left after the closing quote, or `none` when no quote closes it. -/
def read : List UInt8 → Option (List UInt8 × List UInt8)
  | [] => none
  | b :: s =>
    if cs.charlen (b :: s) = 0 then
      if b = 92 then
        s.head?.bind fun e => (read s.tail).map fun r => (unescape e ++ r.1, r.2)
      else if b = 39 then some ([], s)
      else (read s).map fun r => (b :: r.1, r.2)
    else
      (read ((b :: s).drop (cs.charlen (b :: s)))).map fun r =>
        ((b :: s).take (cs.charlen (b :: s)) ++ r.1, r.2)
termination_by s => s.length
decreasing_by
  all_goals simp only [List.length_drop, List.length_tail, List.length_cons]
  all_goals omega

/-- A byte that cannot begin a character does not begin one, whatever follows. -/
theorem charlen_eq_zero {b : UInt8} (h : cs.lead b = false) (s : List UInt8) :
    cs.charlen (b :: s) = 0 := by
  by_contra hc
  rw [cs.lead_of_charlen b s hc] at h
  exact Bool.noConfusion h

theorem lead_eq_false {b : UInt8} (h : b < 128) : cs.lead b = false := by
  by_contra hc
  exact absurd h (UInt8.not_lt.mpr (cs.lead_high b (Bool.eq_true_of_not_eq_false hc)))

theorem read_quote (rest : List UInt8) : read cs (39 :: rest) = some ([], rest) := by
  rw [read, if_pos (charlen_eq_zero cs (lead_eq_false cs (by decide)) rest)]
  rfl

theorem read_backslash (e : UInt8) (t : List UInt8) :
    read cs (92 :: e :: t) = (read cs t).map fun r => (unescape e ++ r.1, r.2) := by
  rw [read, if_pos (charlen_eq_zero cs (lead_eq_false cs (by decide)) (e :: t)), if_pos rfl]
  rfl

theorem read_raw {b : UInt8} (hl : cs.lead b = false) (hb : b ≠ 92) (hq : b ≠ 39)
    (t : List UInt8) :
    read cs (b :: t) = (read cs t).map fun r => (b :: r.1, r.2) := by
  rw [read, if_pos (charlen_eq_zero cs hl t), if_neg hb, if_neg hq]

/-- A well-formed character is taken whole: the character written in the output
is still one in front of any text `t`. -/
theorem read_char {s : List UInt8} (h : cs.charlen s ≠ 0) (t : List UInt8) :
    read cs (s.take (cs.charlen s) ++ t)
      = (read cs t).map fun r => (s.take (cs.charlen s) ++ r.1, r.2) := by
  have happ := cs.charlen_append s t h
  have hlen : (s.take (cs.charlen s)).length = cs.charlen s := by
    rw [List.length_take, Nat.min_eq_left (cs.charlen_le s)]
  cases hu : s.take (cs.charlen s) with
  | nil =>
    rw [hu] at hlen
    exact absurd hlen.symm h
  | cons b u =>
    rw [hu] at happ hlen
    have hne : cs.charlen (b :: (u ++ t)) ≠ 0 := by
      rw [← List.cons_append, happ]; exact h
    rw [List.cons_append, read, if_neg hne, ← List.cons_append, happ, List.take_left' hlen,
      List.drop_left' hlen]

/-- Reading back what `escape_byte` wrote yields the byte. -/
theorem read_escape_byte (b : UInt8) (t : List UInt8) :
    read cs (escape_byte cs L b ++ t) = (read cs t).map fun r => (b :: r.1, r.2) := by
  unfold escape_byte
  by_cases hl : cs.lead b = true
  · rw [if_pos hl]
    simp only [List.cons_append, List.nil_append]
    rw [read_backslash, unescape_high (cs.lead_high b hl)]
    rfl
  · rw [if_neg hl]
    cases he : L.letter b with
    | some e =>
      simp only [List.cons_append, List.nil_append]
      rw [read_backslash, L.unescape_letter b e he]
      rfl
    | none =>
      obtain ⟨hb, hq, -⟩ := L.special b he
      exact read_raw cs (Bool.eq_false_iff.mpr hl) hb hq t

/-- **The round trip.** The escaped text, closed by a quote, is read as one
literal with the original value, and nothing after the quote is touched. The
induction is on the escaper's own recursion, so escaper and reader stand at the
same cut in every step. -/
theorem read_escape (v rest : List UInt8) :
    read cs (escape cs L v ++ 39 :: rest) = some (v, rest) := by
  induction v using escape.induct cs with
  | case1 => rw [escape_nil, List.nil_append, read_quote]
  | case2 b s h ih =>
    rw [escape_single cs L h, List.append_assoc, read_escape_byte, ih]
    rfl
  | case3 b s h ih =>
    rw [escape_char cs L h, List.append_assoc, read_char cs h, ih, Option.map_some,
      List.take_append_drop]

/-! ## No zero byte is written -/

theorem zero_not_mem_escape_byte (b : UInt8) : (0 : UInt8) ∉ escape_byte cs L b := by
  unfold escape_byte
  by_cases hl : cs.lead b = true
  · rw [if_pos hl]
    have hb : b ≠ 0 := by
      rintro rfl
      exact absurd (cs.lead_high 0 hl) (by decide)
    simpa using hb.symm
  · rw [if_neg hl]
    cases he : L.letter b with
    | some e => simpa using (L.letter_ne_zero b e he).symm
    | none => simpa using (L.special b he).2.2.symm

/-- The escaped text survives a copy that stops at the first zero byte. -/
theorem zero_not_mem_escape (v : List UInt8) : (0 : UInt8) ∉ escape cs L v := by
  induction v using escape.induct cs with
  | case1 => simp
  | case2 b s h ih =>
    rw [escape_single cs L h, List.mem_append]
    exact not_or.mpr ⟨zero_not_mem_escape_byte cs L b, ih⟩
  | case3 b s h ih =>
    rw [escape_char cs L h, List.mem_append]
    exact not_or.mpr ⟨cs.char_ne_zero _, ih⟩

/-! ## How much room the escaped text needs -/

/-- Every byte is written as one byte or as two. -/
theorem escape_byte_length_le (b : UInt8) : (escape_byte cs L b).length ≤ 2 := by
  unfold escape_byte
  split
  · simp
  · split <;> simp

theorem escape_length_le (v : List UInt8) : (escape cs L v).length ≤ 2 * v.length := by
  induction v using escape.induct cs with
  | case1 => simp
  | case2 b s h ih =>
    have hb := escape_byte_length_le cs L b
    rw [escape_single cs L h, List.length_append, List.length_cons]
    omega
  | case3 b s h ih =>
    have hle := cs.charlen_le (b :: s)
    rw [List.length_drop] at ih
    rw [escape_char cs L h, List.length_append, List.length_take]
    omega

end SqlLiteral
