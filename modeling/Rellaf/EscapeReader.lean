/-
The escaper of `mysql_escape.cpp` as an instance of the literal library: its two
pairs of character functions are lawful charsets, its table of letters is a
lawful table, and `escape_string_for_mysql` computes the library's `escape`
without ever running out of room.

| | source | library |
|---|---|---|
| `gbk_charset`, `utf8_charset` | `ismbchar_*`, `mbcharlen_*` | `SqlLiteral.Charset` |
| `letters` | the `switch` of `escape_string_for_mysql` | `SqlLiteral.Letters` |
| `escape_string_for_mysql_spec` | `escape_string_for_mysql` | `SqlLiteral.escape` |

The laws of the UTF8 pair are where the bytes are looked at. `ismbchar_utf8_cases`
says once which byte sequences are characters; every law is read off it.
-/
import Rellaf.MysqlEscape
import Rellaf.Lib.SqlLiteral

set_option autoImplicit false

open Rellaf.Cpp

namespace Rellaf.MysqlEscape

/-! ## The letters -/

/-- The `switch` of `escape_string_for_mysql`. -/
def switch_letter (c : UInt8) : Option UInt8 :=
  if c = 0 then some 48
  else if c = 10 then some 110
  else if c = 13 then some 114
  else if c = 92 then some 92
  else if c = 39 then some 39
  else if c = 34 then some 34
  else if c = 26 then some 90
  else none

theorem switch_letter_some {b x : UInt8} (h : switch_letter b = some x) :
    SqlLiteral.unescape x = [b] ∧ x ≠ 0 := by
  unfold switch_letter at h
  split_ifs at h <;> (obtain rfl := Option.some.inj h; subst b; decide)

theorem switch_letter_none {b : UInt8} (h : switch_letter b = none) :
    b ≠ 92 ∧ b ≠ 39 ∧ b ≠ 0 := by
  refine ⟨?_, ?_, ?_⟩ <;> (rintro rfl; exact absurd h (by decide))

def letters : SqlLiteral.Letters where
  letter := switch_letter
  unescape_letter _ _ h := (switch_letter_some h).1
  letter_ne_zero _ _ h := (switch_letter_some h).2
  special _ h := switch_letter_none h

/-! ## GBK -/

theorem isgbkhead_high {c : UInt8} (h : isgbkhead c = true) : 128 ≤ c := by
  simp only [isgbkhead, Bool.and_eq_true, decide_eq_true_eq] at h
  exact UInt8.le_trans (by decide) h.1

theorem isgbktail_ne_zero {c : UInt8} (h : isgbktail c = true) : c ≠ 0 := by
  rintro rfl
  exact absurd h (by decide)

/-- `ismbchar_gbk` finds a head with a tail, or nothing. -/
theorem ismbchar_gbk_cases (s : Str) :
    ismbchar_gbk s = 0 ∨
      ∃ a b r, s = a :: b :: r ∧ isgbkhead a = true ∧ isgbktail b = true ∧
        ismbchar_gbk s = 2 := by
  unfold ismbchar_gbk
  by_cases h : (isgbkhead (s.getD 0 0) && decide (s.length > 1) && isgbktail (s.getD 1 0)) = true
  · rw [if_pos h]
    simp only [Bool.and_eq_true, decide_eq_true_eq] at h
    match s, h with
    | a :: b :: r, h => exact .inr ⟨a, b, r, rfl, h.1.1, h.2, rfl⟩
  · exact .inl (if_neg h)

theorem ismbchar_gbk_two {a b : UInt8} (ha : isgbkhead a = true) (hb : isgbktail b = true)
    (t : Str) : ismbchar_gbk (a :: b :: t) = 2 := by
  simp [ismbchar_gbk, ha, hb]

def gbk_charset : SqlLiteral.Charset where
  charlen := ismbchar_gbk
  lead c := mbcharlen_gbk c > 1
  charlen_le s := by
    obtain h | ⟨a, b, r, rfl, -, -, h⟩ := ismbchar_gbk_cases s <;> rw [h] <;> simp
  charlen_ne_one s := by
    obtain h | ⟨-, -, -, -, -, -, h⟩ := ismbchar_gbk_cases s <;> rw [h] <;> decide
  charlen_append s t hne := by
    obtain h | ⟨a, b, r, rfl, ha, hb, h⟩ := ismbchar_gbk_cases s
    · exact absurd h hne
    · rw [h]
      exact ismbchar_gbk_two ha hb t
  lead_of_charlen a s hne := by
    obtain h | ⟨a', b, r, hs, ha, -, -⟩ := ismbchar_gbk_cases (a :: s)
    · exact absurd h hne
    · obtain ⟨rfl, -⟩ := List.cons.inj hs
      simp [mbcharlen_gbk, ha]
  lead_high c h := by
    by_cases hc : isgbkhead c = true
    · exact isgbkhead_high hc
    · simp [mbcharlen_gbk, hc] at h
  char_ne_zero s := by
    obtain h | ⟨a, b, r, rfl, ha, hb, h⟩ := ismbchar_gbk_cases s
    · simp [h]
    · have ha0 : a ≠ 0 := by
        rintro rfl
        exact absurd ha (by decide)
      simp [h, ha0.symm, (isgbktail_ne_zero hb).symm]

/-! ## UTF8 -/

theorem is_continuation_byte_ne_zero {c : UInt8} (h : is_continuation_byte c = true) : c ≠ 0 := by
  rintro rfl
  exact absurd h (by decide)

theorem valid_mbcharlen_utf8_two {a b : UInt8} (ha : 0xc2 ≤ a) (ha' : a < 0xe0)
    (hb : is_continuation_byte b = true) (t : Str) : valid_mbcharlen_utf8 (a :: b :: t) = 2 := by
  have h80 : ¬ a < 0x80 := UInt8.not_lt.mpr (UInt8.le_trans (by decide) ha)
  have hf0 : a < 0xf0 := UInt8.lt_trans ha' (by decide)
  simp [valid_mbcharlen_utf8, valid_mbcharlen_utf8mb3, hf0, h80, UInt8.not_lt.mpr ha, ha', hb]

theorem valid_mbcharlen_utf8_three {a b c : UInt8} (ha : 0xe0 ≤ a) (ha' : a < 0xf0)
    (hb : is_continuation_byte b = true) (hc : is_continuation_byte c = true)
    (hab : 0xe1 ≤ a ∨ 0xa0 ≤ b) (t : Str) : valid_mbcharlen_utf8 (a :: b :: c :: t) = 3 := by
  have h80 : ¬ a < 0x80 := UInt8.not_lt.mpr (UInt8.le_trans (by decide) ha)
  have hc2 : ¬ a < 0xc2 := UInt8.not_lt.mpr (UInt8.le_trans (by decide) ha)
  have hlow : ¬ (a < 0xe1 ∧ b < 0xa0) := fun h =>
    hab.elim (UInt8.not_lt.mpr · h.1) (UInt8.not_lt.mpr · h.2)
  simp [valid_mbcharlen_utf8, valid_mbcharlen_utf8mb3, ha', h80, hc2, UInt8.not_lt.mpr ha, hb, hc,
    hlow, show ¬ t.length + 1 + 1 + 1 < 3 by omega]

/-- The value of `valid_mbcharlen_utf8` is the length of a two-byte or of a
three-byte character, or at most `1`. -/
theorem valid_mbcharlen_utf8_cases (s : Str) :
    valid_mbcharlen_utf8 s ≤ 1 ∨
      (∃ a b r, s = a :: b :: r ∧ 0xc2 ≤ a ∧ a < 0xe0 ∧ is_continuation_byte b = true) ∨
      ∃ a b c r, s = a :: b :: c :: r ∧ 0xe0 ≤ a ∧ a < 0xf0 ∧ is_continuation_byte b = true ∧
        is_continuation_byte c = true ∧ (0xe1 ≤ a ∨ 0xa0 ≤ b) := by
  rcases s with - | ⟨a, t⟩
  · exact .inl (by decide)
  unfold valid_mbcharlen_utf8
  rw [if_neg (by simp), List.getD_cons_zero]
  by_cases hf0 : a < 0xf0
  swap
  · rw [if_neg hf0]; exact .inl (by decide)
  rw [if_pos hf0]
  unfold valid_mbcharlen_utf8mb3
  rw [List.getD_cons_zero]
  by_cases h80 : a < 0x80
  · rw [if_pos h80]; exact .inl (by decide)
  rw [if_neg h80]
  by_cases hc2 : a < 0xc2
  · rw [if_pos hc2]; exact .inl (by decide)
  rw [if_neg hc2]
  by_cases he0 : a < 0xe0
  · rw [if_pos he0]
    rcases t with - | ⟨b, r⟩
    · exact .inl (by simp [MY_CS_TOOSMALL2])
    by_cases hb : is_continuation_byte b = true
    · exact .inr (.inl ⟨a, b, r, rfl, UInt8.not_lt.mp hc2, he0, hb⟩)
    · exact .inl (by simp [hb, MY_CS_ILSEQ])
  rw [if_neg he0]
  rcases t with - | ⟨b, - | ⟨c, r⟩⟩
  · exact .inl (by simp [MY_CS_TOOSMALL3])
  · exact .inl (by simp [MY_CS_TOOSMALL3])
  by_cases hbc : (is_continuation_byte b && is_continuation_byte c &&
      (decide (a ≥ 0xe1) || decide (b ≥ 0xa0))) = true
  · simp only [Bool.and_eq_true, Bool.or_eq_true, decide_eq_true_eq] at hbc
    exact .inr (.inr ⟨a, b, c, r, rfl, UInt8.not_lt.mp he0, hf0, hbc.1.1, hbc.1.2, hbc.2⟩)
  · refine .inl ?_
    simp only [List.getD_cons_succ, List.getD_cons_zero, hbc, Bool.not_false, if_true]
    simp [show ¬ r.length + 1 + 1 + 1 < 3 by omega, MY_CS_ILSEQ]

/-- Which byte sequences `ismbchar_utf8` takes for a character. -/
theorem ismbchar_utf8_cases (s : Str) :
    ismbchar_utf8 s = 0 ∨
      (∃ a b r, s = a :: b :: r ∧ 0xc2 ≤ a ∧ a < 0xe0 ∧ is_continuation_byte b = true ∧
        ismbchar_utf8 s = 2) ∨
      ∃ a b c r, s = a :: b :: c :: r ∧ 0xe0 ≤ a ∧ a < 0xf0 ∧ is_continuation_byte b = true ∧
        is_continuation_byte c = true ∧ (0xe1 ≤ a ∨ 0xa0 ≤ b) ∧ ismbchar_utf8 s = 3 := by
  obtain h | ⟨a, b, r, rfl, ha, ha', hb⟩ | ⟨a, b, c, r, rfl, ha, ha', hb, hc, hab⟩ :=
    valid_mbcharlen_utf8_cases s
  · exact .inl (if_neg (by omega))
  · refine .inr (.inl ⟨a, b, r, rfl, ha, ha', hb, ?_⟩)
    rw [ismbchar_utf8, valid_mbcharlen_utf8_two ha ha' hb]
    rfl
  · refine .inr (.inr ⟨a, b, c, r, rfl, ha, ha', hb, hc, hab, ?_⟩)
    rw [ismbchar_utf8, valid_mbcharlen_utf8_three ha ha' hb hc hab]
    rfl

theorem mbcharlen_utf8_lead {c : UInt8} : mbcharlen_utf8 c > 1 ↔ 0xc2 ≤ c ∧ c < 0xf0 := by
  unfold mbcharlen_utf8
  simp only [UInt8.lt_iff_toNat_lt, UInt8.le_iff_toNat_le]
  split_ifs with h1 h2 h3 h4 <;> simp_all <;> omega

def utf8_charset : SqlLiteral.Charset where
  charlen := ismbchar_utf8
  lead c := mbcharlen_utf8 c > 1
  charlen_le s := by
    obtain h | ⟨a, b, r, rfl, -, -, -, h⟩ | ⟨a, b, c, r, rfl, -, -, -, -, -, h⟩ :=
      ismbchar_utf8_cases s <;> rw [h] <;> simp
  charlen_ne_one s := by
    obtain h | ⟨-, -, -, -, -, -, -, h⟩ | ⟨-, -, -, -, -, -, -, -, -, -, h⟩ :=
      ismbchar_utf8_cases s <;> rw [h] <;> decide
  charlen_append s t hne := by
    obtain h | ⟨a, b, r, rfl, ha, ha', hb, h⟩ | ⟨a, b, c, r, rfl, ha, ha', hb, hc, hab, h⟩ :=
      ismbchar_utf8_cases s
    · exact absurd h hne
    · rw [h]
      show ismbchar_utf8 (a :: b :: t) = 2
      rw [ismbchar_utf8, valid_mbcharlen_utf8_two ha ha' hb]
      rfl
    · rw [h]
      show ismbchar_utf8 (a :: b :: c :: t) = 3
      rw [ismbchar_utf8, valid_mbcharlen_utf8_three ha ha' hb hc hab]
      rfl
  lead_of_charlen a s hne := by
    refine decide_eq_true (mbcharlen_utf8_lead.mpr ?_)
    obtain h | ⟨a', b, r, hs, ha, ha', -, -⟩ | ⟨a', b, c, r, hs, ha, ha', -, -, -, -⟩ :=
      ismbchar_utf8_cases (a :: s)
    · exact absurd h hne
    · obtain ⟨rfl, -⟩ := List.cons.inj hs
      exact ⟨ha, UInt8.lt_trans ha' (by decide)⟩
    · obtain ⟨rfl, -⟩ := List.cons.inj hs
      exact ⟨UInt8.le_trans (by decide) ha, ha'⟩
  lead_high c h := UInt8.le_trans (by decide) (mbcharlen_utf8_lead.mp (of_decide_eq_true h)).1
  char_ne_zero s := by
    have hne : ∀ {a : UInt8}, 0xc2 ≤ a → (0 : UInt8) ≠ a := by
      rintro a ha rfl
      exact absurd ha (by decide)
    obtain h | ⟨a, b, r, rfl, ha, -, hb, h⟩ | ⟨a, b, c, r, rfl, ha, -, hb, hc, -, h⟩ :=
      ismbchar_utf8_cases s
    · simp [h]
    · simp [h, hne ha, (is_continuation_byte_ne_zero hb).symm]
    · simp [h, hne (UInt8.le_trans (by decide) ha), (is_continuation_byte_ne_zero hb).symm,
        (is_continuation_byte_ne_zero hc).symm]

/-! ## The loop -/

/-- The escaper asks the questions the charset answers. -/
structure Reads (e : SqlEscape) (cs : SqlLiteral.Charset) : Prop where
  ismbchar : ∀ s, e._ismbchar_func s = cs.charlen s
  mbcharlen : ∀ c, e._mbcharlen_func c > 1 ↔ cs.lead c = true

theorem gbk_reads : Reads SqlEscape.gbk gbk_charset where
  ismbchar _ := rfl
  mbcharlen _ := decide_eq_true_iff.symm

theorem utf8_reads : Reads SqlEscape.utf8 utf8_charset where
  ismbchar _ := rfl
  mbcharlen _ := decide_eq_true_iff.symm

variable {e : SqlEscape} {cs : SqlLiteral.Charset}

theorem string_single_eq (h : Reads e cs) (c : UInt8) :
    e.string_single c = SqlLiteral.escape_byte cs letters c := by
  unfold SqlEscape.string_single SqlEscape.escape_of SqlLiteral.escape_byte
  by_cases hl : cs.lead c = true
  · have hc : c ≠ 0 := by
      rintro rfl
      exact absurd (cs.lead_high 0 hl) (by decide)
    rw [if_pos hl, if_pos ((h.mbcharlen c).mpr hl), if_pos hc]
  · rw [if_neg hl, if_neg (mt (h.mbcharlen c).mp hl)]
    have hletter : letters.letter c = switch_letter c := rfl
    rw [hletter]
    unfold switch_letter
    split_ifs <;> first | rfl | contradiction

/-- The loop writes the library's `escape` behind what is there already, as long
as twice the bytes left fit; `2 * length` of them always do. -/
theorem escape_loop_spec (h : Reads e cs) (to_end : Nat) :
    ∀ (fuel : Nat) (from_ to_ : Str), from_.length ≤ fuel →
      to_.length + 2 * from_.length ≤ to_end →
      e.escape_loop e.string_single to_end fuel from_ to_
        = (to_ ++ SqlLiteral.escape cs letters from_, false) := by
  intro fuel
  induction fuel with
  | zero =>
    intro from_ to_ hf _
    have hnil : from_ = [] := List.eq_nil_of_length_eq_zero (Nat.le_zero.mp hf)
    rw [hnil, SqlLiteral.escape_nil, List.append_nil]
    rfl
  | succ fuel ih =>
    intro from_ to_ hf hroom
    rcases from_ with - | ⟨c, t⟩
    · rw [SqlLiteral.escape_nil, List.append_nil]
      rfl
    rw [List.length_cons] at hf hroom
    unfold SqlEscape.escape_loop
    simp only [h.ismbchar, string_single_eq h]
    by_cases hn : cs.charlen (c :: t) = 0
    · have hb := SqlLiteral.escape_byte_length_le cs letters c
      rw [if_neg (not_not.mpr hn), if_neg (by omega),
        ih t _ (by omega) (by rw [List.length_append]; omega),
        SqlLiteral.escape_single cs letters hn, List.append_assoc]
    · -- a whole character: `2 ≤ n` bytes are read and as many written
      have hle := cs.charlen_le (c :: t)
      rw [List.length_cons] at hle
      rw [if_pos hn, if_neg (by omega),
        ih _ _ (by rw [List.length_drop, List.length_cons]; omega)
          (by
            rw [List.length_append, List.length_take, List.length_drop, List.length_cons]
            omega),
        SqlLiteral.escape_char cs letters hn, List.append_assoc]

/-- **`escape_string_for_mysql`** with `to_length = 0`: it writes the escaped
text and never reports an overflow. -/
theorem escape_string_for_mysql_spec (h : Reads e cs) (v : Str) :
    e.escape_string_for_mysql 0 v = (SqlLiteral.escape cs letters v, false) := by
  unfold SqlEscape.escape_string_for_mysql
  rw [escape_loop_spec h _ _ _ _ (Nat.le_refl _) (by simp [SqlEscape.to_end_of]),
    List.nil_append]

end Rellaf.MysqlEscape
