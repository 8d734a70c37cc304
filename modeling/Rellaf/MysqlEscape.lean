/-
`mysql_escape.h` and `mysql_escape.cpp`: the local copy of MySQL's string
escaping, for the charsets GBK and UTF8 only.

The pointers `from` and `end` of the source become the list of the bytes between
them, and `to` becomes the list of the bytes written so far; a comparison such as
`to + 2 > to_end` is a comparison of lengths. The loop consumes one byte or one
whole character in every round, so it is given as many rounds as there are bytes.

`escape_string_for_mysql` and `escape_quotes_for_mysql` are one loop: they differ
only in what they write for a byte outside of a well-formed character. The loop
takes that as a parameter.
-/
import Rellaf.Cpp

set_option autoImplicit false

open Rellaf.Cpp

namespace Rellaf.MysqlEscape

/-! ## Characters -/

def MY_CS_ILSEQ : Int := 0
def MY_CS_TOOSMALL : Int := -101
def MY_CS_TOOSMALL2 : Int := -102
def MY_CS_TOOSMALL3 : Int := -103

/-- `IS_CONTINUATION_BYTE(c)` -/
def is_continuation_byte (c : UInt8) : Bool := (c ^^^ 0x80) < 0x40

/-- `isgbkhead(c)` -/
def isgbkhead (c : UInt8) : Bool := 0x81 ≤ c && c ≤ 0xfe

/-- `isgbktail(c)` -/
def isgbktail (c : UInt8) : Bool := (0x40 ≤ c && c ≤ 0x7e) || (0x80 ≤ c && c ≤ 0xfe)

/-- `ismbchar_gbk(p, e)`, `s` being the bytes from `p` up to `e`. -/
def ismbchar_gbk (s : Str) : Nat :=
  if isgbkhead (s.getD 0 0) && s.length > 1 && isgbktail (s.getD 1 0) then 2 else 0

def mbcharlen_gbk (c : UInt8) : Nat := if isgbkhead c then 2 else 1

def valid_mbcharlen_utf8mb3 (s : Str) : Int :=
  let c := s.getD 0 0
  if c < 0x80 then 1
  else if c < 0xc2 then MY_CS_ILSEQ
  else if c < 0xe0 then
    if s.length < 2 then MY_CS_TOOSMALL2
    else if !is_continuation_byte (s.getD 1 0) then MY_CS_ILSEQ
    else 2
  else if s.length < 3 then MY_CS_TOOSMALL3
  else if !(is_continuation_byte (s.getD 1 0) && is_continuation_byte (s.getD 2 0) &&
      (c ≥ 0xe1 || s.getD 1 0 ≥ 0xa0)) then MY_CS_ILSEQ
  else 3

def valid_mbcharlen_utf8 (s : Str) : Int :=
  if s.isEmpty then MY_CS_TOOSMALL
  else if s.getD 0 0 < 0xf0 then valid_mbcharlen_utf8mb3 s
  else MY_CS_ILSEQ

/-- `ismbchar_utf8(b, e)`, `s` being the bytes from `b` up to `e`. -/
def ismbchar_utf8 (s : Str) : Nat :=
  let res := valid_mbcharlen_utf8 s
  if res > 1 then res.toNat else 0

def mbcharlen_utf8 (c : UInt8) : Nat :=
  if c < 0x80 then 1
  else if c < 0xc2 then 0
  else if c < 0xe0 then 2
  else if c < 0xf0 then 3
  else 0

/-! ## The escaper -/

structure SqlEscape where
  _ismbchar_func : Str → Nat
  _mbcharlen_func : UInt8 → Nat

namespace SqlEscape

def gbk : SqlEscape := ⟨ismbchar_gbk, mbcharlen_gbk⟩

def utf8 : SqlEscape := ⟨ismbchar_utf8, mbcharlen_utf8⟩

/-- The constructor `SqlEscape(encode)`. -/
def construct (encode : Str) : Run SqlEscape :=
  if strcasecmp_eq encode (lit "GBK") then .ok gbk
  else if strcasecmp_eq encode (lit "UTF8") then .ok utf8
  else .error .abort

/-- `SqlEscape::instance(encode)`. The escaper is a function-local static:
`sqlescape` is what it holds before the call (`none` before the first call of the
process), and `encode` is only read when it holds nothing. -/
def instance_ (sqlescape : Option SqlEscape) (encode : Str) : Run SqlEscape :=
  match sqlescape with
  | some e => .ok e
  | none => construct encode

variable (e : SqlEscape)

/-- The loop of both escaping functions, `single` being what is written for a
byte outside of a well-formed character. Returns what was written and whether the
room up to `to_end` ran out. -/
def escape_loop (single : UInt8 → Str) (to_end : Nat) : Nat → Str → Str → Str × Bool
  | 0, _, to_ => (to_, false)
  | _ + 1, [], to_ => (to_, false)
  | fuel + 1, c :: from_, to_ =>
    let tmp_length := e._ismbchar_func (c :: from_)
    if tmp_length ≠ 0 then
      if to_.length + tmp_length > to_end then (to_, true)
      else
        escape_loop single to_end fuel ((c :: from_).drop tmp_length)
          (to_ ++ (c :: from_).take tmp_length)
    else if to_.length + (single c).length > to_end then (to_, true)
    else escape_loop single to_end fuel from_ (to_ ++ single c)

/-- `escape` of `escape_string_for_mysql`: the letter after the backslash, `0`
for a byte written as it is. A byte that appears to begin a multi-byte character
is escaped with itself. -/
def escape_of (c : UInt8) : UInt8 :=
  if e._mbcharlen_func c > 1 then c
  else if c = 0 then 48
  else if c = 10 then 110
  else if c = 13 then 114
  else if c = 92 then 92
  else if c = 39 then 39
  else if c = 34 then 34
  else if c = 26 then 90
  else 0

/-- What `escape_string_for_mysql` writes for a byte. -/
def string_single (c : UInt8) : Str :=
  if e.escape_of c ≠ 0 then [92, e.escape_of c] else [c]

/-- What `escape_quotes_for_mysql` writes for a byte: the quote is doubled. -/
def quotes_single (quote c : UInt8) : Str := if c = quote then [quote, quote] else [c]

/-- The offset of `to_end`; `to_length = 0` stands for "big enough". -/
def to_end_of (to_length length : Nat) : Nat :=
  if to_length ≠ 0 then to_length - 1 else 2 * length

/-- `escape_string_for_mysql(to, to_length, from, length)`: the text in `to` in
front of its terminating zero, and whether the call reports an overflow. -/
def escape_string_for_mysql (to_length : Nat) (from_ : Str) : Str × Bool :=
  e.escape_loop e.string_single (to_end_of to_length from_.length) from_.length from_ []

def escape_quotes_for_mysql (to_length : Nat) (from_ : Str) (quote : UInt8) : Str × Bool :=
  e.escape_loop (quotes_single quote) (to_end_of to_length from_.length) from_.length from_ []

def escape_field_quote (from_ : Str) (quote : UInt8) : Str × Bool :=
  if quote = 96 then e.escape_quotes_for_mysql 0 from_ quote
  else e.escape_string_for_mysql 0 from_

/-- `escape_field(from, to)` into a buffer of the caller. -/
def escape_field_to (from_ : Str) : Str × Bool := e.escape_field_quote from_ 39

/-- The size of the buffer `escape_field(field, out)` chooses: the array on the
stack, or what it asks `malloc` for. `field.size() * 1.5` is exact below `2 ^ 51`. -/
def field_buf_size (field : Str) : Nat :=
  if field.length > 768 then field.length * 3 / 2 else 1024

/-- `escape_field(field, out)`: `none` when the call returns false. `malloc n`
says whether an allocation of `n` bytes succeeds. Writing past the buffer has no
meaning; the copy `out = p` stops at the first zero byte. -/
def escape_field (malloc : Nat → Bool) (field : Str) : Run (Option Str) :=
  if field.length > 768 && !malloc (field_buf_size field) then .ok none
  else
    let p := (e.escape_field_to field).1
    if p.length + 1 > field_buf_size field then .error .undefined
    else .ok (some (cstr p))

end SqlEscape

example : (SqlEscape.utf8.escape_field_to (lit "str' cond")).1 = lit "str\\' cond" := by decide

end Rellaf.MysqlEscape
