/-
`SqlPattern::explode`: a statement pattern cut into literal text, `#{field}` and
`#[list]` stubs.

The state machine reads one character at a time. Its three tables have 128
entries and are indexed with a signed `char`, so a byte from 128 on reads outside
of them.
-/
import Rellaf.Cpp

set_option autoImplicit false

open Rellaf.Cpp

namespace Rellaf.SqlPattern

inductive PatternErr where
  | OK | ILL_TOKEN | ILL_BEGIN | ILL_END | UNMATCH | NONE_FIELD | UNKNOWN
  deriving DecidableEq, Repr

inductive PatternState where
  | STATE_INIT | STATE_NORMAL | STATE_MATCH_TOKEN | STATE_FETCH | STATE_END_FETCH
  deriving DecidableEq, Repr

inductive StubType where
  | LITERAL | FIELD | LIST
  deriving DecidableEq, Repr

structure Stub where
  type : StubType
  value : Str
  deriving DecidableEq, Repr

/-! ## The tables -/

/-- Reads entry `(int)c` of a table of 128 entries. -/
def table {α : Type} (entry : UInt8 → α) (c : UInt8) : Run α :=
  if c < 128 then .ok (entry c) else .error .undefined

/-- `token_pairs`: `[` (91) with `]` (93), `{` (123) with `}` (125). -/
def token_pairs : UInt8 → Run UInt8 :=
  table fun c => if c = 91 then 93 else if c = 123 then 125 else 0

/-- `tokens`: `#` (35), `[`, `]`, `{`, `}`. -/
def tokens : UInt8 → Run Bool :=
  table fun c => c = 35 || c = 91 || c = 93 || c = 123 || c = 125

/-- `end_tokens`: `]`, `}`. -/
def end_tokens : UInt8 → Run Bool :=
  table fun c => c = 93 || c = 125

/-! ## The machine -/

/-- The local variables of `explode`; `stub_type` is the type of `stub`. -/
structure Explode where
  state : PatternState
  section_ : Str
  stub_type : StubType
  token : UInt8
  pieces : List Stub
  deriving DecidableEq, Repr

def Explode.init : Explode := ⟨.STATE_INIT, [], .LITERAL, 0, []⟩

/-- `stub.set_value(section); pieces.emplace_back(stub); section.clear()` -/
def Explode.push (x : Explode) : Explode :=
  { x with pieces := x.pieces ++ [⟨x.stub_type, x.section_⟩], section_ := [] }

/-- One round of the loop: the variables after the character `c`, or the error the
call returns with. -/
def explode_char (x : Explode) (c : UInt8) : Run (Except PatternErr Explode) := do
  match x.state with
  | .STATE_INIT =>
    if ← tokens c then
      if c = 35 then
        let x := if x.section_.isEmpty then x else x.push
        return .ok { x with state := .STATE_MATCH_TOKEN }
      else return .error .ILL_TOKEN
    else return .ok { x with section_ := x.section_ ++ [c] }
  | .STATE_MATCH_TOKEN =>
    if (← token_pairs c) = 0 then return .error .ILL_BEGIN
    else
      return .ok
        { x with token := c, state := .STATE_FETCH, stub_type := if c = 91 then .LIST else .FIELD }
  | .STATE_FETCH =>
    if ← tokens c then
      if ← end_tokens c then
        if c ≠ (← token_pairs x.token) then return .error .UNMATCH
        else if x.section_.isEmpty then return .error .NONE_FIELD
        else return .ok { x.push with state := .STATE_INIT, stub_type := .LITERAL }
      else return .error .ILL_END
    else return .ok { x with section_ := x.section_ ++ [c] }
  -- the loop body has no branch for the other states
  | .STATE_NORMAL | .STATE_END_FETCH => return .ok x

/-- The loop: the variables at its end, with the error when it returned early. -/
def explode_loop : Explode → Str → Run (Explode × Option PatternErr)
  | x, [] => return (x, none)
  | x, c :: cs => do
    match ← explode_char x c with
    | .ok x => explode_loop x cs
    | .error err => return (x, some err)

/-- `explode(pattern, pieces, err)`: the value returned, `pieces` and `err`. -/
def explode (pattern : Str) : Run (Bool × List Stub × PatternErr) := do
  let (x, early) ← explode_loop Explode.init pattern
  match early with
  | some err => return (false, x.pieces, err)
  | none =>
    match x.state with
    | .STATE_INIT =>
      return (true, if x.section_.isEmpty then x.pieces else x.push.pieces, .OK)
    | .STATE_MATCH_TOKEN => return (false, x.pieces, .ILL_BEGIN)
    | .STATE_FETCH => return (false, x.pieces, .ILL_END)
    | .STATE_NORMAL | .STATE_END_FETCH => return (false, x.pieces, .UNKNOWN)

example : explode (lit "a#{c1}#[c2]d") =
    .ok (true, [⟨.LITERAL, lit "a"⟩, ⟨.FIELD, lit "c1"⟩, ⟨.LIST, lit "c2"⟩, ⟨.LITERAL, lit "d"⟩],
      .OK) := by decide

end Rellaf.SqlPattern
