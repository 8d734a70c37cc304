/-
`escape_field_quote` with a backtick: what the server reads of a quoted name.

`escape_quotes_for_mysql` doubles the quotes and leaves all other bytes as they are; its
comment says that this makes no character of what was none. But in GBK the backtick is the
second byte of characters. So a name that ends with the first byte of one takes the closing
backtick with it, and only such a name does (`escape_field_quote_iff`).
-/
import Rellaf.Lib.QuotedName
import Rellaf.SqlAppend

set_option autoImplicit false

open Rellaf.Cpp

namespace Rellaf.MysqlEscape

variable {e : SqlEscape} {cs : SqlLiteral.Charset}

/-! ## What is written -/

/-- The loop of both escaping functions, by the text that it writes. -/
theorem escape_loop_writes (h : Reads e cs) {single : UInt8 → Str} {text : Str → Str}
    (hlen : ∀ c, (single c).length ≤ 2) (hnil : text [] = [])
    (hsingle : ∀ c s, cs.charlen (c :: s) = 0 → text (c :: s) = single c ++ text s)
    (hchar : ∀ s, cs.charlen s ≠ 0 →
      text s = s.take (cs.charlen s) ++ text (s.drop (cs.charlen s))) (to_end fuel : Nat) :
    ∀ from_ to_ : Str, from_.length ≤ fuel → to_.length + 2 * from_.length ≤ to_end →
      e.escape_loop single to_end fuel from_ to_ = (to_ ++ text from_, false) := by
  induction fuel with
  | zero =>
    intro from_ to_ hfuel _
    obtain rfl := List.eq_nil_of_length_eq_zero (Nat.le_zero.mp hfuel)
    rw [hnil, List.append_nil]
    rfl
  | succ fuel ih =>
    intro from_ to_ hfuel hroom
    rcases from_ with - | ⟨c, s⟩
    · rw [hnil, List.append_nil]
      rfl
    rw [List.length_cons] at hfuel hroom
    unfold SqlEscape.escape_loop
    simp only [h.ismbchar]
    by_cases hn : cs.charlen (c :: s) = 0
    · have hc := hlen c
      rw [if_neg (not_not.mpr hn), if_neg (by omega),
        ih s _ (by omega) (by rw [List.length_append]; omega), hsingle c s hn, List.append_assoc]
    · -- a character: as many bytes are written as are read
      have hle := cs.charlen_le (c :: s)
      rw [List.length_cons] at hle
      have hdrop : ((c :: s).drop (cs.charlen (c :: s))).length =
          s.length + 1 - cs.charlen (c :: s) := by
        rw [List.length_drop, List.length_cons]
      have htake : ((c :: s).take (cs.charlen (c :: s))).length = cs.charlen (c :: s) := by
        rw [List.length_take, List.length_cons, Nat.min_eq_left hle]
      rw [if_pos hn, if_neg (by omega), ih _ _ (by omega) (by rw [List.length_append]; omega),
        hchar _ hn, List.append_assoc]

/-- **`escape_quotes_for_mysql`** with `to_length = 0`. -/
theorem escape_quotes_for_mysql_spec (h : Reads e cs) (v : Str) (quote : UInt8) :
    e.escape_quotes_for_mysql 0 v quote = (QuotedName.double cs quote v, false) := by
  have hlen : ∀ c, (SqlEscape.quotes_single quote c).length ≤ 2 := by
    intro c
    unfold SqlEscape.quotes_single
    split <;> simp
  rw [SqlEscape.escape_quotes_for_mysql, escape_loop_writes h hlen
    (QuotedName.double_nil cs quote) (fun c s => QuotedName.double_single cs quote)
    (fun s => QuotedName.double_char cs quote) _ _ v [] (Nat.le_refl _)
    (by simp [SqlEscape.to_end_of]), List.nil_append]

/-! ## The backtick in a character -/

theorem gbk_backtick : QuotedName.Quote gbk_charset 96 where
  lt := by decide
  ne_zero := by decide
  last s := by
    show (96 : UInt8) ∉ (s.take (ismbchar_gbk s)).dropLast
    obtain h | ⟨a, b, r, rfl, ha, -, h⟩ := ismbchar_gbk_cases s
    · simp [h]
    · have hne : (96 : UInt8) ≠ a := by
        rintro rfl
        exact absurd ha (by decide)
      simp [h, hne]

/-- No character of UTF8 has a backtick in it. -/
theorem utf8_no_backtick (s : Str) : (96 : UInt8) ∉ s.take (utf8_charset.charlen s) := by
  have hfirst : ∀ {a : UInt8}, 0xc2 ≤ a → (96 : UInt8) ≠ a := by
    rintro a ha rfl
    exact absurd ha (by decide)
  have hrest : ∀ {b : UInt8}, is_continuation_byte b = true → (96 : UInt8) ≠ b := by
    rintro b hb rfl
    exact absurd hb (by decide)
  show (96 : UInt8) ∉ s.take (ismbchar_utf8 s)
  obtain h | ⟨a, b, r, rfl, ha, -, hb, h⟩ | ⟨a, b, c, r, rfl, ha, -, hb, hc, -, h⟩ :=
    ismbchar_utf8_cases s
  · simp [h]
  · simp [h, hfirst ha, hrest hb]
  · simp [h, hfirst (UInt8.le_trans (by decide) ha), hrest hb, hrest hc]

theorem utf8_backtick : QuotedName.Quote utf8_charset 96 where
  lt := by decide
  ne_zero := by decide
  last s := fun hmem => utf8_no_backtick s (List.mem_of_mem_dropLast hmem)

/-- Cut into characters of GBK, the name ends with the first byte of one. -/
def ends_with_gbkhead : Str → Bool
  | [] => false
  | [a] => isgbkhead a
  | a :: b :: s =>
    if isgbkhead a && isgbktail b then ends_with_gbkhead s else ends_with_gbkhead (b :: s)

theorem open_end_gbk (s : Str) :
    QuotedName.open_end gbk_charset 96 s = ends_with_gbkhead s := by
  have hcharlen : ∀ a b s, gbk_charset.charlen (a :: b :: s) =
      if isgbkhead a && isgbktail b then 2 else 0 := by
    intro a b s
    show ismbchar_gbk (a :: b :: s) = _
    simp [ismbchar_gbk]
  fun_induction ends_with_gbkhead s with
  | case1 => rw [QuotedName.open_end]
  | case2 a =>
    have hsingle : gbk_charset.charlen [a] = 0 := by
      show ismbchar_gbk [a] = 0
      simp [ismbchar_gbk]
    have htail : isgbktail 96 = true := by decide
    rw [QuotedName.open_end_single _ _ hsingle, List.nil_append, hcharlen, htail, Bool.and_true,
      QuotedName.open_end, Bool.or_false]
    cases isgbkhead a <;> rfl
  | case3 a b s h ih =>
    have hchar : gbk_charset.charlen (a :: b :: s) = 2 := by rw [hcharlen, if_pos h]
    rw [QuotedName.open_end_char _ _ (by rw [hchar]; decide), hchar]
    exact ih
  | case4 a b s h ih =>
    have hsingle : gbk_charset.charlen (a :: b :: s) = 0 := by rw [hcharlen, if_neg h]
    rw [QuotedName.open_end_single _ _ hsingle, List.cons_append, hcharlen, if_neg h, ih]
    rfl

end Rellaf.MysqlEscape

namespace Rellaf.Sql

open Rellaf.MysqlEscape

/-- **What the server reads of a quoted name.** Between backticks, with no third one behind
them, the text that `escape_field_quote` writes is read as the name unless a zero byte is in
it, or the charset is GBK and the name ends with the first byte of a character. -/
theorem escape_field_quote_iff (cs : Charset) (from_ : Str) {rest : Str}
    (hrest : rest.head? ≠ some 96) :
    QuotedName.read cs.reader 96 ((cs.escaper.escape_field_quote from_ 96).1 ++ 96 :: rest) =
        some (from_, rest) ↔
      0 ∉ from_ ∧ (cs = .GBK → ends_with_gbkhead from_ = false) := by
  rw [SqlEscape.escape_field_quote, if_pos rfl, escape_quotes_for_mysql_spec cs.reads]
  cases cs with
  | UTF8 =>
    refine (utf8_backtick.read_double_iff hrest from_).trans (and_congr_right' ?_)
    simp [QuotedName.open_end_eq_false utf8_no_backtick utf8_backtick]
  | GBK =>
    refine (gbk_backtick.read_double_iff hrest from_).trans (and_congr_right' ?_)
    rw [open_end_gbk]
    simp

/-- A name that is not read back, and a space behind it. -/
theorem escape_field_quote_iff_head : QuotedName.read gbk_charset 96
    ((SqlEscape.gbk.escape_field_quote [0x81] 96).1 ++ 96 :: lit " ") ≠ some ([0x81], lit " ") :=
  fun h => absurd ((((@escape_field_quote_iff .GBK [0x81] (lit " ") (by decide)).mp h).2) rfl)
    (by decide)

end Rellaf.Sql
