/-
`sql_builder.h` and `sql_builder.cpp`: resolving the stubs of a registered
pattern against the arguments of a call and appending what they stand for to the
statement.

Two things outside of the call decide what it does. The escaper of `append_sql`
is a static of the process, so its content is threaded through every function
that may escape; and the build and the allocator are an `Env`, since `assert`
only acts without `NDEBUG` and `malloc` may fail.

`prepare_statement` appends to one string that all stubs share. Its body is cut
in two here, in the order of the source: `stub_value` finds what a stub stands
for, `append_stub` writes it behind what is there.
-/
import Rellaf.Models
import Rellaf.MysqlEscape
import Rellaf.SqlPattern

set_option autoImplicit false

open Rellaf.Cpp Rellaf.Models Rellaf.MysqlEscape Rellaf.SqlPattern

namespace Rellaf.Sql

/-- `SqlBuilder::Charset` -/
inductive Charset where
  | UTF8 | GBK
  deriving DecidableEq, Repr

/-- The name of the enum item. -/
def Charset.name : Charset → Str
  | .UTF8 => lit "UTF8"
  | .GBK => lit "GBK"

/-- What a call finds around it: whether the build defines `NDEBUG`, and whether
an allocation of `n` bytes succeeds. -/
structure Env where
  ndebug : Bool
  malloc : Nat → Bool

structure SqlBuilder where
  _charset : Charset
  _patterns : Std.ExtTreeMap Str Str
  _pices : Std.ExtTreeMap Str (List Stub)

/-- A builder before its first registration. -/
def SqlBuilder.init : SqlBuilder := ⟨.UTF8, {}, {}⟩

def SqlBuilder.set_charset (b : SqlBuilder) (charset : Charset) : SqlBuilder :=
  { b with _charset := charset }

/-- The constructor of `SqlBuilder::Reg`: `exit(-1)` on a pattern that does not
explode, and the first registration of a method stays. -/
def SqlBuilder.reg (b : SqlBuilder) (method pattern : Str) : Run SqlBuilder := do
  let (ok, pices, _) ← explode pattern
  if !ok then .error .abort
  else
    return { b with
      _patterns := b._patterns.insertIfNew method pattern
      _pices := b._pices.insertIfNew method pices }

/-! ## Sections -/

/-- The `do` loop of `split_section`, `begin_` being the bytes from `begin` to
the end of the string, with a bound on its rounds; `none` when it goes on beyond that. Every
round moves `begin` by at least one byte. -/
def split_section_loop : Nat → Str → List Str → Option (List Str)
  | 0, _, _ => none
  | rounds + 1, begin_, sections =>
    match strchr begin_ 46 with
    | none => some (sections ++ [begin_])
    | some pos =>
      let next := begin_.drop (pos + 1)
      -- `continue` in the branch of the source for `pos == begin` goes on to the loop's test
      let sections := if pos = 0 then sections else sections ++ [begin_.take pos]
      if next.headD 0 ≠ 0 then split_section_loop rounds next sections else some sections

def split_section (section_str : Str) : List Str :=
  if section_str.isEmpty then []
  else (split_section_loop section_str.length section_str []).getD []

/-- The branch that `get_plain_val` and `get_list_val` share: the member of an
object a section names, `none` when there is no member of that name. -/
def member (travel : Model) (section_ : Str) : Run (Option Model) := do
  if ← travel.is_plain_member section_ then return some (← travel.get_plain section_)
  else if ← travel.is_list_member section_ then return some (← travel.get_list section_)
  else if ← travel.is_object_member section_ then return some (← travel.get_object section_)
  else return none

/-- The test both functions make on the section that indexes a list. -/
def is_index (section_ : Str) : Run Bool := do
  if (← front section_) ≠ 60 then return false
  else return (← back section_) = 62

/-- `((List*)travel)->at(strtoul(section.c_str() + 1, nullptr, 10))` -/
def item (travel : Model) (section_ : Str) : Run Model :=
  travel.at_ (strtoul (section_.drop 1)).toNat

/-- The text of a plain and the two flags; `none` is `false`. -/
def get_plain_val_str (model : Model) : Run (Option (Str × Bool × Bool)) := do
  match ← model.rellaf_type with
  | .INT16 | .INT | .INT64 | .UINT16 | .UINT32 | .UINT64 | .BOOL | .FLOAT | .DOUBLE =>
    return some (← model.str, false, false)
  | .CHAR | .STR => return some (← model.str, true, true)
  | .no | .OBJECT | .LIST => return none

/-- The loop of `get_plain_val` and the test behind it. -/
def get_plain_val_loop : Model → List Str → Run (Option (Str × Bool × Bool))
  | travel, [] => do
    if ← travel.is_plain then get_plain_val_str travel else return none
  | travel, section_ :: sections => do
    if ← travel.is_plain then get_plain_val_str travel
    else if ← travel.is_object then
      match ← member travel section_ with
      | some travel => get_plain_val_loop travel sections
      | none => return none
    else if ← travel.is_list then
      if ← is_index section_ then get_plain_val_loop (← item travel section_) sections
      else return none
    else get_plain_val_loop travel sections

def get_plain_val (model : Model) (sections : List Str) : Run (Option (Str × Bool × Bool)) := do
  match model with
  | .null => return none
  | model =>
    if ← model.is_plain then get_plain_val_str model
    else if sections.isEmpty || !(← model.is_object) then return none
    else get_plain_val_loop model sections

/-- The loop of `get_list_val`: where the walk ends, `none` when it returns false.
It asks `model`, where the walk began, what kind of node `travel` is. -/
def get_list_val_loop (env : Env) (model : Model) (single : Bool) :
    Model → List Str → Run (Option Model)
  | travel, [] => return some travel
  | travel, section_ :: sections => do
    if single && (← model.is_plain) then return none
    else if ← model.is_object then
      match ← member travel section_ with
      | some travel => get_list_val_loop env model single travel sections
      | none =>
        -- `assert(false)`
        if env.ndebug then get_list_val_loop env model single travel sections
        else .error .abort
    else if ← model.is_list then
      if ← is_index section_ then
        get_list_val_loop env model single (← item travel section_) sections
      else return none
    else get_list_val_loop env model single travel sections

/-- The texts of the plain items of a list, in order. -/
def plain_texts : List Model → Run (List Str)
  | [] => return []
  | m :: ms => do
    if ← m.is_plain then
      let text ← m.str
      return text :: (← plain_texts ms)
    else plain_texts ms

def get_list_val (env : Env) (model : Model) (sections : List Str) : Run (Option (List Str)) := do
  match model with
  | .null => return none
  | model =>
    if sections.isEmpty then return none
    else
      match ← get_list_val_loop env model (sections.length = 1) model sections with
      | none => return none
      | some travel =>
        if ← travel.is_list then return some (← plain_texts (← travel.items)) else return none

/-! ## The statement -/

/-- `append_sql(sql, val, need_quote, need_escape)`: the static escaper after the
call, the value returned and `sql`. -/
def append_sql (env : Env) (sqlescape : Option SqlEscape) (charset : Charset) (sql val : Str)
    (need_quote need_escape : Bool) : Run (Option SqlEscape × Bool × Str) := do
  let sql := if need_quote then sql ++ [39] else sql
  if need_escape then
    let e ← SqlEscape.instance_ sqlescape charset.name
    match ← e.escape_field env.malloc val with
    | none => return (some e, false, sql)
    | some escape_val =>
      let sql := sql ++ escape_val
      return (some e, true, if need_quote then sql ++ [39] else sql)
  else
    let sql := sql ++ val
    return (sqlescape, true, if need_quote then sql ++ [39] else sql)

/-- The arguments by tag; of two with one tag the first stays. -/
def collect_models : List Model → Std.ExtTreeMap Str Model → Run (Std.ExtTreeMap Str Model)
  | [], models => return models
  | arg :: args, models => do collect_models args (models.insertIfNew (← arg.rellaf_tag) arg)

/-- What a stub stands for once its sections are resolved. -/
inductive StubValue where
  | LITERAL (value : Str)
  | FIELD (val : Str) (need_quote need_escape : Bool)
  | LIST (vals : List Str)

/-- The model a stub is resolved against, with the sections left for it. -/
def stub_model (models : Std.ExtTreeMap Str Model) (is_multi_arg : Bool) (sections : List Str) :
    Run (Option (Model × List Str)) := do
  if sections.isEmpty || models.isEmpty then return none
  else if !is_multi_arg then
    return models.toList.head?.map fun entry => (entry.2, sections)
  else return models[sections.headD []]?.map fun model => (model, sections.tail)

/-- What the stub stands for; `none` where `prepare_statement` returns false. -/
def stub_value (env : Env) (models : Std.ExtTreeMap Str Model) (is_multi_arg : Bool) (stub : Stub) :
    Run (Option StubValue) := do
  if stub.type = .LITERAL then return some (.LITERAL stub.value)
  else
    match ← stub_model models is_multi_arg (split_section stub.value) with
    | none => return none
    | some (model, sections) =>
      if stub.type = .FIELD then
        return (← get_plain_val model sections).map fun (val, need_quote, need_escape) =>
          .FIELD val need_quote need_escape
      else return (← get_list_val env model sections).map .LIST

/-- The loop over the values of a `LIST` stub: each one quoted and escaped, with a
comma behind it. -/
def append_list (env : Env) (charset : Charset) :
    Option SqlEscape → Str → List Str → Run (Option SqlEscape × Bool × Str)
  | sqlescape, sql, [] => return (sqlescape, true, sql)
  | sqlescape, sql, val :: vals => do
    let (sqlescape, ok, sql) ← append_sql env sqlescape charset sql val true true
    if !ok then return (sqlescape, false, sql)
    else append_list env charset sqlescape (sql ++ [44]) vals

/-- The part of the loop body that writes: what is appended for a resolved stub. -/
def append_stub (env : Env) (charset : Charset) (sqlescape : Option SqlEscape) (sql : Str) :
    StubValue → Run (Option SqlEscape × Bool × Str)
  | .LITERAL value => return (sqlescape, true, sql ++ value)
  | .FIELD val need_quote need_escape =>
    append_sql env sqlescape charset sql val need_quote need_escape
  | .LIST vals => do
    let (sqlescape, ok, sql) ← append_list env charset sqlescape sql vals
    if !ok then return (sqlescape, false, sql)
    else
      let last ← back sql
      return (sqlescape, true, if last = 44 then sql.dropLast else sql)

/-- The loop of `prepare_statement` over the stubs of the pattern. -/
def prepare_loop (env : Env) (charset : Charset) (models : Std.ExtTreeMap Str Model)
    (is_multi_arg : Bool) :
    Option SqlEscape → Str → List Stub → Run (Option SqlEscape × Bool × Str)
  | sqlescape, sql, [] => return (sqlescape, true, sql)
  | sqlescape, sql, stub :: stubs => do
    match ← stub_value env models is_multi_arg stub with
    | none => return (sqlescape, false, sql)
    | some value =>
      let (sqlescape, ok, sql) ← append_stub env charset sqlescape sql value
      if !ok then return (sqlescape, false, sql)
      else prepare_loop env charset models is_multi_arg sqlescape sql stubs

/-- `prepare_statement(method, sql, args...)`: the static escaper after the call,
the value returned and `sql`. -/
def prepare_statement (env : Env) (b : SqlBuilder) (sqlescape : Option SqlEscape) (method : Str)
    (args : List Model) : Run (Option SqlEscape × Bool × Str) := do
  let models ← collect_models args {}
  match b._pices[method]? with
  | none => return (sqlescape, false, [])
  | some stubs => prepare_loop env b._charset models (args.length > 1) sqlescape [] stubs

end Rellaf.Sql
