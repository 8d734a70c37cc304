/-
The buffer of `escape_field`: how many bytes are written into it, and when they fit.

A byte that is escaped becomes two, and a zero ends the text. The buffer on the stack has
room for 1024 bytes whatever is escaped, and the one from `malloc` for half as much again
as the field has; the loop itself stops at twice the field only.
-/
import Rellaf.SqlAppend

set_option autoImplicit false

open Rellaf.Cpp Rellaf.MysqlEscape

namespace Rellaf.MysqlEscape

/-- How many bytes get a backslash, behind `left` bytes of the character under way: the ones
outside of well-formed characters that `escape_of` has a letter for. -/
def SqlEscape.backslashes_from (e : SqlEscape) : Nat → Str → Nat
  | _, [] => 0
  | left + 1, _ :: s => e.backslashes_from left s
  | 0, c :: s =>
    if e._ismbchar_func (c :: s) ≠ 0 then e.backslashes_from (e._ismbchar_func (c :: s) - 1) s
    else (if e.escape_of c ≠ 0 then 1 else 0) + e.backslashes_from 0 s

def SqlEscape.backslashes (e : SqlEscape) (field : Str) : Nat := e.backslashes_from 0 field

variable {e : SqlEscape} {cs : SqlLiteral.Charset}

theorem backslashes_from_eq (left : Nat) (s : Str) :
    e.backslashes_from left s = e.backslashes (s.drop left) := by
  induction s generalizing left with
  | nil => cases left <;> rfl
  | cons c s ih =>
    cases left with
    | zero => rfl
    | succ left => exact ih left

/-- A whole character gets none. -/
theorem backslashes_char (h : Reads e cs) {s : Str} (hn : cs.charlen s ≠ 0) :
    e.backslashes s = e.backslashes (s.drop (cs.charlen s)) := by
  cases s with
  | nil => simp
  | cons c s =>
    have hchar : e._ismbchar_func (c :: s) = cs.charlen (c :: s) := h.ismbchar _
    rw [SqlEscape.backslashes, SqlEscape.backslashes_from, hchar, if_pos hn, backslashes_from_eq]
    obtain ⟨n, hlen⟩ := Nat.exists_eq_succ_of_ne_zero hn
    rw [hlen]
    rfl

theorem string_single_length (e : SqlEscape) (c : UInt8) :
    (e.string_single c).length = 1 + if e.escape_of c ≠ 0 then 1 else 0 := by
  rw [SqlEscape.string_single]
  split <;> rfl

theorem backslashes_single (h : Reads e cs) {c : UInt8} {s : Str} (hn : cs.charlen (c :: s) = 0) :
    (e.string_single c).length + e.backslashes s = 1 + e.backslashes (c :: s) := by
  have hchar : e._ismbchar_func (c :: s) = 0 := (h.ismbchar _).trans hn
  rw [string_single_length, SqlEscape.backslashes, SqlEscape.backslashes,
    SqlEscape.backslashes_from, hchar, if_neg (not_not_intro rfl), Nat.add_assoc]

/-- The escaped text has one byte more for each backslash. -/
theorem escape_length (h : Reads e cs) (v : Str) :
    (SqlLiteral.escape cs letters v).length = v.length + e.backslashes v := by
  -- on the bytes left, of which a round takes one, or one whole character
  induction hv : v.length using Nat.strong_induction_on generalizing v with
  | _ n ih =>
    subst hv
    cases v with
    | nil =>
      rw [SqlLiteral.escape_nil]
      rfl
    | cons c s =>
      by_cases hn : cs.charlen (c :: s) = 0
      · have hrest := ih s.length (by simp) s rfl
        have hsingle := backslashes_single h hn
        rw [SqlLiteral.escape_single cs letters hn, List.length_append, hrest,
          ← string_single_eq h, List.length_cons]
        omega
      · have hle := cs.charlen_le (c :: s)
        have hlen : ((c :: s).drop (cs.charlen (c :: s))).length =
            (c :: s).length - cs.charlen (c :: s) := List.length_drop
        have hrest := ih _ (by rw [hlen, List.length_cons]; omega) _ rfl
        rw [SqlLiteral.escape_char cs letters hn, List.length_append, hrest, hlen,
          List.length_take_of_le hle, ← backslashes_char h hn]
        omega

end Rellaf.MysqlEscape

namespace Rellaf.Sql

/-- What `escape_field(field, out)` writes through `p`: the escaped text and its zero. -/
def Charset.bytes_written (cs : Charset) (field : Str) : Nat := (cs.text field).length + 1

theorem Charset.bytes_written_eq (cs : Charset) (field : Str) :
    cs.bytes_written field = field.length + cs.escaper.backslashes field + 1 := by
  rw [bytes_written, cs.text_eq, escape_length cs.reads]

/-- **The buffer of `escape_field`** has room for what is written exactly when, up to 768
bytes, the backslashes fill no more than the rest of the 1024 but one, and from there on no
more than half of the field but one. -/
theorem escape_field_fits_iff (cs : Charset) (field : Str) :
    cs.bytes_written field ≤ SqlEscape.field_buf_size field ↔
      if field.length ≤ 768 then cs.escaper.backslashes field ≤ 1023 - field.length
      else cs.escaper.backslashes field + 1 ≤ field.length / 2 := by
  rw [cs.bytes_written_eq, SqlEscape.field_buf_size]
  split <;> split <;> omega

/-- Every quote gets a backslash. -/
theorem backslashes_quotes (cs : Charset) (n : Nat) :
    cs.escaper.backslashes (List.replicate n 39) = n := by
  induction n with
  | zero => rfl
  | succ n ih =>
    have hn : cs.reader.charlen (39 :: List.replicate n 39) = 0 :=
      SqlLiteral.charlen_eq_zero cs.reader (SqlLiteral.lead_eq_false cs.reader (by decide)) _
    have hsingle := backslashes_single cs.reads hn
    have htwo : (cs.escaper.string_single 39).length = 2 := by cases cs <;> rfl
    rw [List.replicate_succ]
    omega

/-- 512 quotes are 1025 bytes for the 1024 on the stack. -/
theorem escape_field_overruns :
    ¬ Charset.UTF8.bytes_written (List.replicate 512 39) ≤
      SqlEscape.field_buf_size (List.replicate 512 39) := by
  rw [Charset.bytes_written_eq, backslashes_quotes, SqlEscape.field_buf_size,
    List.length_replicate]
  decide

end Rellaf.Sql
