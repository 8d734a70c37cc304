/-
The escaper on a text that is UTF-8.

`valid_mbcharlen_utf8` knows the characters of two and of three bytes. The bytes of a
character of four are written one by one, as none of them looks like the beginning of a
character (`escape_char_four`). So the escaper goes through a text character by character:
seven characters get a backslash and a letter, all others stay (`escape_utf8_text`), and
what is written is a text again.
-/
import Rellaf.EscapeReader

set_option autoImplicit false

open Rellaf.Cpp

namespace Rellaf.MysqlEscape

/-- The bytes of a text. -/
def utf8_text (text : List Char) : Str := text.flatMap String.utf8EncodeChar

/-- What a character becomes. -/
def escape_char (c : Char) : List Char :=
  if c = '\x00' then ['\\', '0']
  else if c = '\n' then ['\\', 'n']
  else if c = '\r' then ['\\', 'r']
  else if c = '\\' then ['\\', '\\']
  else if c = '\'' then ['\\', '\'']
  else if c = '"' then ['\\', '"']
  else if c = '\x1a' then ['\\', 'Z']
  else [c]

/-- The escaped bytes, as the library writes them. -/
abbrev escaped (s : Str) : Str := SqlLiteral.escape utf8_charset letters s

/-! ## One byte -/

/-- A byte that begins no character. -/
theorem lead_eq_false_iff {b : UInt8} : utf8_charset.lead b = false ↔ b < 0xc2 ∨ 0xf0 ≤ b := by
  have hlead : utf8_charset.lead b = decide (mbcharlen_utf8 b > 1) := rfl
  rw [hlead, decide_eq_false_iff_not, mbcharlen_utf8_lead, not_and_or, UInt8.not_le, UInt8.not_lt]

/-- Of the bytes that begin none, the high ones are written as they are. -/
theorem escape_high_byte {b : UInt8} (hlead : b < 0xc2 ∨ 0xf0 ≤ b) (hhigh : 0x80 ≤ b) (t : Str) :
    escaped (b :: t) = b :: escaped t := by
  have hl := lead_eq_false_iff.mpr hlead
  have hletter : letters.letter b = none := by
    have hne : ∀ c : UInt8, c < 0x80 → b ≠ c := by
      rintro c hc rfl
      exact UInt8.not_lt.mpr hhigh hc
    show switch_letter b = none
    unfold switch_letter
    rw [if_neg (hne 0 (by decide)), if_neg (hne 10 (by decide)), if_neg (hne 13 (by decide)),
      if_neg (hne 92 (by decide)), if_neg (hne 39 (by decide)), if_neg (hne 34 (by decide)),
      if_neg (hne 26 (by decide))]
  rw [escaped, SqlLiteral.escape_single _ _ (SqlLiteral.charlen_eq_zero _ hl t),
    SqlLiteral.escape_byte, if_neg (Bool.eq_false_iff.mp hl), hletter]
  rfl

/-- The bytes behind the first one of a character. -/
theorem is_continuation_byte_ofNat (n : Nat) :
    is_continuation_byte (UInt8.ofNat (n % 0x40 + 0x80)) = true := by
  have hall : ∀ n < 0x40, is_continuation_byte (UInt8.ofNat (n + 0x80)) = true := by decide
  exact hall _ (Nat.mod_lt _ (by decide))

theorem le_ofNat (k : Nat) {n : Nat} (hk : k ≤ n) (hn : n < 256) :
    UInt8.ofNat k ≤ UInt8.ofNat n := by
  rw [UInt8.le_iff_toNat_le, UInt8.toNat_ofNat', UInt8.toNat_ofNat']
  omega

theorem ofNat_lt (k : Nat) {n : Nat} (hn : n < k) (hk : k < 256) :
    UInt8.ofNat n < UInt8.ofNat k := by
  rw [UInt8.lt_iff_toNat_lt, UInt8.toNat_ofNat', UInt8.toNat_ofNat']
  omega

/-! ## One character -/

theorem escape_char_one {c : Char} (hc : c.toNat ≤ 0x7f) (t : Str) :
    escaped (String.utf8EncodeChar c ++ t) = utf8_text (escape_char c) ++ escaped t := by
  have hall : ∀ v < 0x80, SqlLiteral.escape_byte utf8_charset letters (UInt8.ofNat v) =
      utf8_text (escape_char (Char.ofNat v)) := by decide
  have hbyte := hall c.toNat (by omega)
  rw [Char.ofNat_toNat] at hbyte
  have hencode : String.utf8EncodeChar c = [UInt8.ofNat c.toNat] := if_pos hc
  have hl : utf8_charset.lead (UInt8.ofNat c.toNat) = false :=
    SqlLiteral.lead_eq_false _ (ofNat_lt 128 (by omega) (by decide))
  rw [hencode, List.singleton_append, escaped,
    SqlLiteral.escape_single _ _ (SqlLiteral.charlen_eq_zero _ hl t), hbyte]

/-- A character past the ASCII range stays. -/
theorem escape_char_of_lt {c : Char} (hc : 0x7f < c.toNat) : escape_char c = [c] := by
  have hne : ∀ d : Char, d.toNat ≤ 0x7f → c ≠ d := by
    rintro d hd rfl
    omega
  unfold escape_char
  rw [if_neg (hne _ (by decide)), if_neg (hne _ (by decide)), if_neg (hne _ (by decide)),
    if_neg (hne _ (by decide)), if_neg (hne _ (by decide)), if_neg (hne _ (by decide)),
    if_neg (hne _ (by decide))]

/-- A character that `valid_mbcharlen_utf8` knows. -/
theorem escape_known {s : Str} (hlen : ismbchar_utf8 s ≠ 0) :
    escaped s = s.take (ismbchar_utf8 s) ++ escaped (s.drop (ismbchar_utf8 s)) :=
  SqlLiteral.escape_char utf8_charset letters hlen

theorem escape_char_two {c : Char} (hlow : 0x7f < c.toNat) (hhigh : c.toNat ≤ 0x7ff) (t : Str) :
    escaped (String.utf8EncodeChar c ++ t) = String.utf8EncodeChar c ++ escaped t := by
  have hencode : String.utf8EncodeChar c =
      [UInt8.ofNat (c.toNat / 64 % 0x20 + 0xc0), UInt8.ofNat (c.toNat % 0x40 + 0x80)] :=
    (if_neg (Nat.not_le.mpr hlow)).trans (if_pos hhigh)
  have hvalid : ismbchar_utf8 (UInt8.ofNat (c.toNat / 64 % 0x20 + 0xc0) ::
      UInt8.ofNat (c.toNat % 0x40 + 0x80) :: t) = 2 := by
    rw [ismbchar_utf8, valid_mbcharlen_utf8_two (le_ofNat 0xc2 (by omega) (by omega))
      (ofNat_lt 0xe0 (by omega) (by decide)) (is_continuation_byte_ofNat _)]
    rfl
  rw [hencode, List.cons_append, List.singleton_append, escape_known (by rw [hvalid]; decide),
    hvalid]
  rfl

theorem escape_char_three {c : Char} (hlow : 0x7ff < c.toNat) (hhigh : c.toNat ≤ 0xffff) (t : Str) :
    escaped (String.utf8EncodeChar c ++ t) = String.utf8EncodeChar c ++ escaped t := by
  have hencode : String.utf8EncodeChar c =
      [UInt8.ofNat (c.toNat / 4096 % 0x10 + 0xe0), UInt8.ofNat (c.toNat / 64 % 0x40 + 0x80),
        UInt8.ofNat (c.toNat % 0x40 + 0x80)] :=
    (if_neg (show ¬ c.toNat ≤ 0x7f by omega)).trans
      ((if_neg (Nat.not_le.mpr hlow)).trans (if_pos hhigh))
  -- below `0xe1` the second byte is not low, as a character of three bytes is not below `0x800`
  have hsecond : (0xe1 : UInt8) ≤ UInt8.ofNat (c.toNat / 4096 % 0x10 + 0xe0) ∨
      (0xa0 : UInt8) ≤ UInt8.ofNat (c.toNat / 64 % 0x40 + 0x80) := by
    by_cases hfirst : c.toNat < 4096
    · exact .inr (le_ofNat 0xa0 (by omega) (by omega))
    · exact .inl (le_ofNat 0xe1 (by omega) (by omega))
  have hvalid : ismbchar_utf8 (UInt8.ofNat (c.toNat / 4096 % 0x10 + 0xe0) ::
      UInt8.ofNat (c.toNat / 64 % 0x40 + 0x80) ::
        UInt8.ofNat (c.toNat % 0x40 + 0x80) :: t) = 3 := by
    rw [ismbchar_utf8, valid_mbcharlen_utf8_three (le_ofNat 0xe0 (by omega) (by omega))
      (ofNat_lt 0xf0 (by omega) (by decide)) (is_continuation_byte_ofNat _)
      (is_continuation_byte_ofNat _) hsecond]
    rfl
  rw [hencode, List.cons_append, List.cons_append, List.singleton_append,
    escape_known (by rw [hvalid]; decide), hvalid]
  rfl

/-- The bytes of a character of four, one by one. -/
theorem escape_char_four {c : Char} (hlow : 0xffff < c.toNat) (t : Str) :
    escaped (String.utf8EncodeChar c ++ t) = String.utf8EncodeChar c ++ escaped t := by
  have hencode : String.utf8EncodeChar c =
      [UInt8.ofNat (c.toNat / 262144 % 0x08 + 0xf0), UInt8.ofNat (c.toNat / 4096 % 0x40 + 0x80),
        UInt8.ofNat (c.toNat / 64 % 0x40 + 0x80), UInt8.ofNat (c.toNat % 0x40 + 0x80)] :=
    (if_neg (show ¬ c.toNat ≤ 0x7f by omega)).trans
      ((if_neg (show ¬ c.toNat ≤ 0x7ff by omega)).trans (if_neg (Nat.not_le.mpr hlow)))
  have hfirst : ∀ n, (0xf0 : UInt8) ≤ UInt8.ofNat (n % 0x08 + 0xf0) :=
    fun n => le_ofNat 0xf0 (by omega) (by omega)
  have hrest : ∀ n t, escaped (UInt8.ofNat (n % 0x40 + 0x80) :: t) =
      UInt8.ofNat (n % 0x40 + 0x80) :: escaped t :=
    fun n t => escape_high_byte (.inl (ofNat_lt 0xc2 (by omega) (by decide)))
      (le_ofNat 0x80 (by omega) (by omega)) t
  rw [hencode]
  simp only [List.cons_append, List.nil_append]
  rw [escape_high_byte (.inr (hfirst _)) (UInt8.le_trans (by decide) (hfirst _)), hrest, hrest,
    hrest]

/-! ## A text -/

theorem escape_encoded (c : Char) (t : Str) :
    escaped (String.utf8EncodeChar c ++ t) = utf8_text (escape_char c) ++ escaped t := by
  by_cases h1 : c.toNat ≤ 0x7f
  · exact escape_char_one h1 t
  · have hsame : utf8_text (escape_char c) = String.utf8EncodeChar c := by
      rw [escape_char_of_lt (Nat.lt_of_not_le h1), utf8_text, List.flatMap_singleton]
    rw [hsame]
    by_cases h2 : c.toNat ≤ 0x7ff
    · exact escape_char_two (Nat.lt_of_not_le h1) h2 t
    · by_cases h3 : c.toNat ≤ 0xffff
      · exact escape_char_three (Nat.lt_of_not_le h2) h3 t
      · exact escape_char_four (Nat.lt_of_not_le h3) t

/-- **UTF-8 stays UTF-8.** The escaped bytes of a text are the bytes of the text with its
seven special characters escaped. -/
theorem escape_utf8_text (text : List Char) :
    SqlEscape.utf8.escape_field_to (utf8_text text) =
      (utf8_text (text.flatMap escape_char), false) := by
  rw [SqlEscape.escape_field_to, SqlEscape.escape_field_quote, if_neg (by decide),
    escape_string_for_mysql_spec utf8_reads, Prod.mk.injEq]
  refine ⟨?_, rfl⟩
  induction text with
  | nil => exact SqlLiteral.escape_nil _ _
  | cons c text ih =>
    have hcons : utf8_text (c :: text) = String.utf8EncodeChar c ++ utf8_text text :=
      List.flatMap_cons
    have happend : utf8_text (escape_char c ++ text.flatMap escape_char) =
        utf8_text (escape_char c) ++ utf8_text (text.flatMap escape_char) := List.flatMap_append
    rw [List.flatMap_cons, happend, ← ih, hcons]
    exact escape_encoded c _

end Rellaf.MysqlEscape
