/-
`MyResult`: the rows of one `SELECT`, read through a cursor, and what `to_model`
makes of a row.

The rows are MySQL's. A `ResultSet` is what `mysql_store_result` has read of them, a
null pointer inside a row is an SQL `NULL`. A `MyResult` holds the pointer and frees
it; a pointer that was freed behind its back is a `MysqlRes` of its own, since every
later use of it has no meaning.

`to_model` writes through virtual functions, so the class of the model is a parameter
(`ModelMethods`).
-/
import Rellaf.Cpp
import Rellaf.Models

set_option autoImplicit false

open Rellaf.Cpp Rellaf.Models

namespace Rellaf.Mysql

/-- The contents of a `MYSQL_RES`. A result has columns, and a cell in each of them for
every row. -/
structure ResultSet where
  fields : List Str
  rows : List (List (Option Str))
  fields_ne : fields ≠ []
  row_length : ∀ row ∈ rows, row.length = fields.length

/-- A `MYSQL_RES*`, with the row `mysql_fetch_row` gives next. -/
inductive MysqlRes where
  | null
  | live (set : ResultSet) (data_cursor : Nat)
  | freed

/-- `mysql_fetch_row`: the row, and the result behind it. -/
def MysqlRes.fetch_row : MysqlRes → Run (Option (List (Option Str)) × MysqlRes)
  | null => .ok (none, null)
  | live set data_cursor => .ok (set.rows[data_cursor]?, live set (data_cursor + 1))
  | freed => .error .undefined

/-- `mysql_free_result` -/
def MysqlRes.free : MysqlRes → Run Unit
  | freed => .error .undefined
  | null | live _ _ => .ok ()

structure MyResult where
  _index : Nat
  _res : MysqlRes
  _row : Option (List (Option Str))
  _fields : List Str

/-- The virtual functions that `to_model` calls on a model of the type `Ret`. -/
structure ModelMethods (Ret : Type) where
  rellaf_type : Ret → ModelType
  set_plain : Ret → (key val_str : Str) → Run (Bool × Ret)
  set_parse : Ret → (val_str : Str) → Run (Bool × Ret)

namespace MyResult

/-- The default constructor. -/
def new : MyResult := ⟨0, .null, none, []⟩

variable (r : MyResult)

/-- `reset`, which is also all that the destructor does. -/
def reset : Run MyResult := do
  r._res.free
  return new

/-- `init(context)`. MySQL has fields for every result, so `mysql_fetch_fields` does not
give a null pointer. -/
def init (context : MysqlRes) : Run (Bool × MyResult) :=
  match context with
  | .null => .ok (false, { r with _res := .null })
  | .live set data_cursor =>
    .ok (true, { r with _res := .live set data_cursor, _fields := r._fields ++ set.fields })
  | .freed => .error .undefined

def row_count : Run Nat :=
  match r._res with
  | .null => .ok 0
  | .live set _ => .ok set.rows.length
  | .freed => .error .undefined

def field_count : Nat := r._fields.length

/-- `field_name(index)`, behind its `assert`. -/
def field_name (index : Nat) : Run Str :=
  match r._fields[index]? with
  | none => .error .abort
  | some name => .ok name

def next : Run (Bool × MyResult) :=
  if r._index ≥ r.field_count then .ok (false, r)
  else do
    let index := if r._index = 0 then 0 else r._index + 1
    let (row, res) ← r._res.fetch_row
    match row with
    | none => return (false, ← { r with _index := index, _res := res, _row := none : MyResult }.reset)
    | some row => return (true, { r with _index := index, _res := res, _row := some row })

/-- `fetch(index)`, behind its `assert`. The cell is a C string; a `std::string` cannot
be made from the null pointer of a `NULL`. -/
def fetch (index : Nat) : Run Str :=
  if index < r._fields.length then
    match r._row.bind (·[index]?) with
    | some (some cell) => .ok (cstr cell)
    | some none | none => .error .undefined
  else .error .abort

section to_model

variable {Ret : Type} (methods : ModelMethods Ret)

/-- The loop over the columns from `i` on. -/
def to_object : (count i : Nat) → Ret → Run (Bool × Ret)
  | 0, _, model => return (true, model)
  | count + 1, i, model => do
    let key ← r.field_name i
    let (ok, model) ← methods.set_plain model key (← r.fetch i)
    -- `return -1`, where a `bool` is returned
    if !ok then return (true, model)
    else to_object count (i + 1) model

def to_model (model : Ret) : Run (Bool × Ret) :=
  if r.field_count = 0 then .ok (true, model)
  else
    let type := methods.rellaf_type model
    if type = .OBJECT then r.to_object methods r.field_count 0 model
    else if type ≠ .no && type ≠ .OBJECT && type ≠ .LIST then do
      let (_, model) ← methods.set_parse model (← r.fetch 0)
      return (true, model)
    else .ok (true, model)

end to_model

/-! ## Reading a result -/

/-- The result is `set`, and `c` of its rows have been fetched. -/
structure Reading (set : ResultSet) (c : Nat) : Prop where
  index : r._index = 0
  fields : r._fields = set.fields
  res : r._res = .live set c

/-- The rows that `next` still has. -/
def rows_left : Nat :=
  match r._res with
  | .live set data_cursor => set.rows.length - data_cursor
  | .null | .freed => 0

variable {r}

theorem init_reading (set : ResultSet) :
    ∃ r, new.init (.live set 0) = .ok (true, r) ∧ r.Reading set 0 :=
  ⟨_, rfl, rfl, rfl, rfl⟩

/-- `next` finds fields, as long as it has not come to the end. -/
theorem Reading.next_eq {set : ResultSet} {c : Nat} (h : r.Reading set c) :
    r.next = match set.rows[c]? with
      | none => .ok (false, new)
      | some row =>
        .ok (true, { r with _index := 0, _res := .live set (c + 1), _row := some row }) := by
  have hpos : 0 < r.field_count := by
    rw [field_count, h.fields]
    exact List.length_pos_of_ne_nil set.fields_ne
  unfold next
  rw [h.index, if_neg (by omega), h.res]
  cases hrow : set.rows[c]? <;> simp [MysqlRes.fetch_row, hrow, reset, MysqlRes.free]

theorem Reading.next_end {set : ResultSet} {c : Nat} (h : r.Reading set c)
    (hrow : set.rows[c]? = none) : r.next = .ok (false, new) := by
  rw [h.next_eq, hrow]

theorem Reading.next_row {set : ResultSet} {c : Nat} {row : List (Option Str)}
    (h : r.Reading set c) (hrow : set.rows[c]? = some row) :
    ∃ r', r.next = .ok (true, r') ∧ r'.Reading set (c + 1) ∧ r'._row = some row := by
  rw [h.next_eq, hrow]
  exact ⟨_, rfl, ⟨rfl, h.fields, rfl⟩, rfl⟩

/-- A result without a `MYSQL_RES` has no rows. -/
theorem next_new : new.next = .ok (false, new) := rfl

/-- Each row is given once, so a loop over `next` ends. -/
theorem next_rows_left {r' : MyResult} (h : r.next = .ok (true, r')) :
    r'.rows_left < r.rows_left := by
  unfold next at h
  split at h
  · cases h
  · obtain ⟨⟨row, res⟩, hfetch, h⟩ := run_bind_eq_ok.mp h
    cases row with
    | none =>
      obtain ⟨r'', -, h⟩ := run_bind_eq_ok.mp h
      cases h
    | some row =>
      cases h
      cases hres : r._res with
      | null =>
        rw [hres] at hfetch
        cases hfetch
      | freed =>
        rw [hres] at hfetch
        cases hfetch
      | live set c =>
        rw [hres, MysqlRes.fetch_row, Except.ok.injEq, Prod.mk.injEq] at hfetch
        obtain ⟨hrow, rfl⟩ := hfetch
        obtain ⟨hlt, -⟩ := List.getElem?_eq_some_iff.mp hrow
        unfold rows_left
        rw [hres]
        change set.rows.length - (c + 1) < set.rows.length - c
        omega

/-! ## A row in a model -/

variable {Ret : Type} {methods : ModelMethods Ret}

/-- The row and the names of the columns are all that counts. -/
theorem to_model_congr {r₁ r₂ : MyResult} (hfields : r₁._fields = r₂._fields)
    (hrow : r₁._row = r₂._row) (model : Ret) :
    r₁.to_model methods model = r₂.to_model methods model := by
  have hfetch : r₁.fetch = r₂.fetch := by
    funext i
    rw [fetch, fetch, hfields, hrow]
  have hname : r₁.field_name = r₂.field_name := by
    funext i
    rw [field_name, field_name, hfields]
  have hobject : ∀ count i model,
      r₁.to_object methods count i model = r₂.to_object methods count i model := by
    intro count
    induction count with
    | zero =>
      intro i model
      rfl
    | succ count ih =>
      intro i model
      simp only [to_object, hfetch, hname, ih]
  unfold to_model
  rw [field_count, field_count, hfields, hfetch, hobject]

/-- `return -1` is `true`, so no row is ever refused. -/
theorem to_object_true {count i : Nat} {model model' : Ret} {ok : Bool}
    (h : r.to_object methods count i model = .ok (ok, model')) : ok = true := by
  induction count generalizing i model with
  | zero =>
    cases h
    rfl
  | succ count ih =>
    obtain ⟨key, -, h⟩ := run_bind_eq_ok.mp h
    obtain ⟨val, -, h⟩ := run_bind_eq_ok.mp h
    obtain ⟨⟨set, model''⟩, -, h⟩ := run_bind_eq_ok.mp h
    cases set with
    | false =>
      cases h
      rfl
    | true => exact ih h

theorem to_model_true {model model' : Ret} {ok : Bool}
    (h : r.to_model methods model = .ok (ok, model')) : ok = true := by
  unfold to_model at h
  split at h
  · cases h
    rfl
  · dsimp only at h
    split at h
    · exact to_object_true h
    · split at h
      · obtain ⟨val, -, h⟩ := run_bind_eq_ok.mp h
        obtain ⟨⟨parsed, model''⟩, -, h⟩ := run_bind_eq_ok.mp h
        cases h
        rfl
      · cases h
        rfl

end MyResult

end Rellaf.Mysql
