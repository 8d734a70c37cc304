/-
`select_list_impl` with what its element types do: the local `ret` that a row is read
into, and what `emplace_back` gets of it.

The loop appends an element for every row. For a class with object members it cannot, as
`emplace_back` copies `ret`, and a `std::string` that is taken for a `Model` cannot be
read into. What is returned is the length of the whole list, so it is the number of rows
only where the caller's list was empty (`appends_rows_iff`). A row with a column that the
class does not know is not reported (`reports_foreign_iff`).
-/
import Rellaf.ModelCopy
import Rellaf.MysqlRows
import Rellaf.SqlSelect

set_option autoImplicit false

open Rellaf.Cpp Rellaf.Models Rellaf.MysqlEscape

namespace Rellaf.Mysql.SelectList

/-! ## The elements -/

/-- The `Ret` of a list: a class, a `Plain<T>`, a number type, or `std::string`. A value
stands for its type. -/
inductive RetType where
  | object (clazz : Clazz) (list_names object_names : List Str)
  | plain (val : PlainVal)
  | arithmetic (val : PlainVal) (hval : val.kind ≠ .STR)
  | string

/-- What a list holds. -/
inductive Element where
  | model (m : Model)
  | value (val : PlainVal)

variable (calls : Brpc.Calls)

namespace RetType

/-- `Ret ret`, or `Plain<Ret> ret` for a number. A string is no model. -/
def ret : RetType → Model
  | object clazz list_names object_names => .construct clazz list_names object_names
  | plain val | arithmetic val _ => .plain ⟨[], val.kind, val.initial, none, some calls.to_string⟩
  | string => .null

/-- `res->to_model((Model*) &ret)` for a new `ret`. A string has no virtual functions, and
one is called unless there are no columns. -/
def read (t : RetType) (res : MyResult) : Run (Bool × Model) :=
  match t with
  | string => if res.field_count = 0 then .ok (true, .null) else .error .undefined
  | t => res.to_model (model_methods calls) (t.ret calls)

/-- `ret_list.emplace_back(ret)` makes a copy, and `emplace_back(ret.value())` a number. -/
def emplace (t : RetType) (ret : Model) : Run Element :=
  match t, ret with
  | object _ _ _, ret => do
    let (copy, _) ← Model.copy_construct calls.to_string ret
    return .model copy
  | plain _, .plain p => do return .model (.plain (← (p.create calls.to_string).assign p))
  | arithmetic _ _, .plain p => .ok (.value p.val)
  | _, _ => .error .undefined

/-- An element can be made of a `ret`. -/
def Appendable : RetType → Prop
  | object _ _ object_names => object_names = []
  | plain _ | arithmetic _ _ => True
  | string => False

/-- A row with these columns can be converted. -/
def Accepts (t : RetType) (cols : List (Str × Str)) : Prop :=
  match t with
  | object clazz _ _ => Writable clazz clazz.plain_names cols
  | plain _ | arithmetic _ _ | string => True

/-- All rows can be converted, and none has a `NULL`. -/
def Converts (t : RetType) (set : ResultSet) : Prop :=
  ∀ row ∈ set.rows, ∃ cols : List (Str × Str), set.fields = cols.map Prod.fst ∧
    row = cols.map (fun col => some col.2) ∧ t.Accepts cols

end RetType

/-- The element has what `ret` has. -/
def Element.Keeps (e : Element) (ret : Model) : Prop :=
  match e with
  | model m => m.contents = ret.contents
  | value val => ∃ p, ret = .plain p ∧ p.val = val

/-- `to_model` writes the row to a new `ret`, and the element keeps that. -/
def MadeFrom (t : RetType) (set : ResultSet) (row : List (Option Str)) (e : Element) : Prop :=
  ∃ ret, t.read calls ⟨0, .null, some row, set.fields⟩ = .ok (true, ret) ∧ e.Keeps ret

variable {calls} {t : RetType}

namespace RetType

theorem read_congr {res res' : MyResult} (hfields : res._fields = res'._fields)
    (hrow : res._row = res'._row) : t.read calls res = t.read calls res' := by
  unfold read
  cases t with
  | string => rw [MyResult.field_count, MyResult.field_count, hfields]
  | _ => exact MyResult.to_model_congr hfields hrow _

theorem read_true {res : MyResult} {ok : Bool} {ret : Model}
    (h : t.read calls res = .ok (ok, ret)) : ok = true := by
  unfold read at h
  cases t with
  | string =>
    by_cases hcount : res.field_count = 0
    · rw [if_pos hcount, Except.ok.injEq, Prod.mk.injEq] at h
      exact h.1.symm
    · rw [if_neg hcount] at h
      cases h
  | _ => exact MyResult.to_model_true h

/-- A row in an instance of a class. -/
theorem object_row {clazz : Clazz} {list_names object_names : List Str} {res : MyResult}
    {cols : List (Str × Str)} (hres : res.At cols) (hcols : cols ≠ [])
    (hproper : ((object clazz list_names object_names).ret calls).Proper Model.Typed)
    (haccepts : (object clazz list_names object_names).Accepts cols) :
    ∃ plains, (object clazz list_names object_names).read calls res =
        .ok (true, .object [] clazz plains (list_names.map fun k => (k, []))
          (object_names.map fun k => (k, .null))) ∧
      (Model.object [] clazz plains (list_names.map fun k => (k, []))
        (object_names.map fun k => (k, .null))).Proper Model.Typed := by
  obtain ⟨plains, hset, hproper', -, -⟩ := set_columns_ok calls haccepts
  refine ⟨plains, ?_, hproper' hproper⟩
  exact (hres.to_model_object calls hcols).trans hset

/-- `Plain<T>` with a value that `cast` has made of a text. -/
def cast_plain (calls : Brpc.Calls) (val : PlainVal) (s : Str) : Plain :=
  ⟨[], val.kind, Brpc.cast calls s val.initial, none, some calls.to_string⟩

theorem cast_plain_type (val : PlainVal) (s : Str) :
    (cast_plain calls val s).type = (cast_plain calls val s).val.kind :=
  ((Brpc.cast_kind calls s val.initial).trans (Model.PlainVal.kind_initial val)).symm

/-- A row in a `Plain`: the first cell. -/
theorem plain_row {val : PlainVal} {res : MyResult} {col : Str × Str} {cols : List (Str × Str)}
    (hres : res.At (col :: cols)) :
    res.to_model (model_methods calls) ((plain val).ret calls) =
      .ok (true, .plain (cast_plain calls val (cstr col.2))) := by
  have htype : val.kind = val.initial.kind := (Model.PlainVal.kind_initial val).symm
  have hread := hres.to_model_plain calls
    (p := ⟨[], val.kind, val.initial, none, some calls.to_string⟩) htype
  refine hread.trans ?_
  rw [Brpc.plain_set_parse_none calls rfl]
  rfl

variable (calls) in
/-- The copy of a `Plain` that has its type. -/
theorem assign_create {p : Plain} (htype : p.type = p.val.kind) :
    ∃ copy, (p.create calls.to_string).assign p = .ok copy ∧
      (copy.type, copy.val) = (p.type, p.val) :=
  Plain.assign_ok htype.symm (Model.PlainVal.kind_initial p.val)

variable {set : ResultSet} {row : List (Option Str)}

/-- What every row becomes, where an element can be made of it. -/
theorem row_appended (hproper : (t.ret calls).Proper Model.Typed) (ht : t.Appendable)
    (hset : t.Converts set) (hrow : row ∈ set.rows) :
    ∃ e, Becomes (t.read calls) (t.emplace calls) set row e ∧ MadeFrom calls t set row e := by
  obtain ⟨cols, hfields, hcells, haccepts⟩ := hset row hrow
  have hcols : cols ≠ [] := by
    rintro rfl
    exact set.fields_ne hfields
  have hat : (⟨0, .null, some row, set.fields⟩ : MyResult).At cols :=
    ⟨hfields, congrArg some hcells⟩
  suffices h : ∃ ret e, t.read calls ⟨0, .null, some row, set.fields⟩ = .ok (true, ret) ∧
      t.emplace calls ret = .ok e ∧ e.Keeps ret by
    obtain ⟨ret, e, hread, hemplace, hkeeps⟩ := h
    refine ⟨e, ?_, ret, hread, hkeeps⟩
    intro res hres_fields hres_row
    exact ⟨ret, (read_congr hres_fields hres_row).trans hread, hemplace⟩
  cases t with
  | object clazz list_names object_names =>
    obtain rfl : object_names = [] := ht
    obtain ⟨plains, hread, hproper'⟩ := object_row hat hcols hproper haccepts
    rw [List.map_nil] at hread hproper'
    have hcopyable : (Model.object [] clazz plains (list_names.map fun k => (k, [])) []).Copyable := by
      refine .object ?_
      intro kms hkms
      obtain ⟨k, -, rfl⟩ := List.mem_map.mp hkms
      exact List.forall_mem_nil _
    obtain ⟨copy, hcopy, hcontents⟩ := (Model.copies_clone_iff calls.to_string hproper').mpr hcopyable
    have hcopy' : Model.copy_construct calls.to_string (.object [] clazz plains
        (list_names.map fun k => (k, [])) []) = .ok (copy, _) := hcopy
    refine ⟨_, .model copy, hread, ?_, hcontents⟩
    unfold emplace
    dsimp only
    rw [hcopy']
    rfl
  | plain val =>
    obtain ⟨col, cols, rfl⟩ := List.exists_cons_of_ne_nil hcols
    obtain ⟨copy, hcopy, hdata⟩ := assign_create calls (cast_plain_type val (cstr col.2))
    refine ⟨_, .model (.plain copy), plain_row hat, ?_, congrArg ModelTree.plain hdata⟩
    unfold emplace
    dsimp only
    rw [hcopy]
    rfl
  | arithmetic val hval =>
    obtain ⟨col, cols, rfl⟩ := List.exists_cons_of_ne_nil hcols
    exact ⟨_, _, plain_row hat, rfl, _, rfl, rfl⟩
  | string => exact ht.elim

/-- Where none can, the first row is the last thing that is done. -/
theorem row_stops (hproper : (t.ret calls).Proper Model.Typed) (ht : ¬ t.Appendable)
    (hset : t.Converts set) (hrow : row ∈ set.rows) {res : MyResult}
    (hfields : res._fields = set.fields) (hfetched : res._row = some row) (e : Element) :
    (t.read calls res >>= fun out => t.emplace calls out.2) ≠ .ok e := by
  obtain ⟨cols, hcols_fields, hcells, haccepts⟩ := hset row hrow
  have hcols : cols ≠ [] := by
    rintro rfl
    exact set.fields_ne hcols_fields
  have hat : res.At cols := ⟨hfields.trans hcols_fields, by rw [hfetched, hcells]⟩
  cases t with
  | object clazz list_names object_names =>
    obtain ⟨plains, hread, -⟩ := object_row hat hcols hproper haccepts
    have hobjects : object_names.map (fun k => (k, Model.null)) ≠ [] := by
      intro hnil
      exact ht (List.map_eq_nil_iff.mp hnil)
    intro h
    rw [hread, run_ok_bind] at h
    obtain ⟨r, hcopy, -⟩ := run_bind_eq_ok.mp h
    exact Model.copy_construct_ne_ok calls.to_string hobjects r hcopy
  | plain val => exact absurd trivial ht
  | arithmetic val hval => exact absurd trivial ht
  | string =>
    have hcount : ¬ res.field_count = 0 := by
      rw [MyResult.field_count, hfields, List.length_eq_zero_iff]
      exact set.fields_ne
    intro h
    have hread : string.read calls res = .error .undefined := if_neg hcount
    rw [hread] at h
    cases h

end RetType

/-! ## What is appended and returned -/

section appends

variable {env : Sql.Env} {b : Sql.SqlBuilder} {sqlescape after : Option SqlEscape}
  {method sql : Str} {args : List Model} {executor : Str → Run (Option MyResult)}
  {set : ResultSet} {ret_list : List Element}

variable (calls t set ret_list) in
/-- The call returns the number of rows, and has put an element for each of them behind
the elements of the list. -/
def AppendsRows (call : Run (Option SqlEscape × Int32 × List Element)) : Prop :=
  ∃ sqlescape n elements, call = .ok (sqlescape, n, ret_list ++ elements) ∧
    List.Forall₂ (MadeFrom calls t set) set.rows elements ∧ n.toInt = set.rows.length

/-- The elements that the rows become. -/
theorem exists_elements (hproper : (t.ret calls).Proper Model.Typed) (ht : t.Appendable)
    (hset : t.Converts set) :
    ∃ elements, List.Forall₂ (Becomes (t.read calls) (t.emplace calls) set) set.rows elements ∧
      List.Forall₂ (MadeFrom calls t set) set.rows elements := by
  have hrows : ∀ rows, rows ⊆ set.rows →
      ∃ elements, List.Forall₂ (Becomes (t.read calls) (t.emplace calls) set) rows elements ∧
        List.Forall₂ (MadeFrom calls t set) rows elements := by
    intro rows
    induction rows with
    | nil => exact fun _ => ⟨[], .nil, .nil⟩
    | cons row rows ih =>
      intro hsub
      obtain ⟨hrow, hsub⟩ := List.cons_subset.mp hsub
      obtain ⟨e, hbecomes, hmade⟩ := RetType.row_appended hproper ht hset hrow
      obtain ⟨elements, hall, hmade'⟩ := ih hsub
      exact ⟨e :: elements, .cons hbecomes hall, .cons hmade hmade'⟩
  exact hrows set.rows (List.Subset.refl _)

/-- Without an element for the first row, nothing is returned. -/
theorem select_rows_stops (hproper : (t.ret calls).Proper Model.Typed) (ht : ¬ t.Appendable)
    (hset : t.Converts set) (hrows : set.rows ≠ []) {res : MyResult} (hres : res.Reading set 0)
    (out : Bool × MyResult × List Element) :
    select_rows (t.read calls) (t.emplace calls) res ret_list ≠ .ok out := by
  obtain ⟨row, rows, hcons⟩ := List.exists_cons_of_ne_nil hrows
  have hrow : set.rows[0]? = some row := by rw [hcons, List.getElem?_cons_zero]
  have hmem : row ∈ set.rows := List.mem_of_getElem? hrow
  obtain ⟨res', hnext, hres', hfetched⟩ := hres.next_row hrow
  intro h
  cases hread : t.read calls res' with
  | error fault =>
    rw [select_rows_fault hnext hread] at h
    cases h
  | ok p =>
    obtain ⟨ok, ret⟩ := p
    obtain rfl : ok = true := RetType.read_true hread
    rw [select_rows_row hnext hread] at h
    obtain ⟨e, hemplace, -⟩ := run_bind_eq_ok.mp h
    refine RetType.row_stops hproper ht hset hmem hres'.fields hfetched e ?_
    rw [hread, run_ok_bind]
    exact hemplace

variable (ret_list) in
/-- The call, where the rows become elements. -/
theorem select_list_impl_appended
    (hsql : Sql.prepare_statement env b sqlescape method args = .ok (after, true, sql))
    {res : MyResult} (hres : res.Reading set 0) (hselect : executor sql = .ok (some res))
    {elements : List Element}
    (hbecomes : List.Forall₂ (Becomes (t.read calls) (t.emplace calls) set) set.rows elements) :
    select_list_impl (t.read calls) (t.emplace calls) env b (some executor) sqlescape method args
      ret_list = .ok (after, to_int (ret_list.length + set.rows.length), ret_list ++ elements) := by
  rw [select_list_impl_eq hsql hselect, select_rows_ok hbecomes List.drop_zero hres,
    hbecomes.length_eq, ← List.length_append]
  rfl

/-- It has returned that number, if it appends the rows. -/
theorem AppendsRows.length {call : Run (Option SqlEscape × Int32 × List Element)}
    (h : AppendsRows calls t set ret_list call) {elements : List Element}
    (hcall : call = .ok (after, to_int (ret_list.length + set.rows.length), ret_list ++ elements)) :
    2 ^ 32 ∣ ret_list.length ∧ set.rows.length < 2 ^ 31 := by
  obtain ⟨sqlescape', n, elements', hcall', -, hn⟩ := h
  rw [hcall, Except.ok.injEq, Prod.mk.injEq, Prod.mk.injEq] at hcall'
  rw [← to_int_add_eq_iff, hcall'.2.1]
  exact hn

/-- **Rows in a list.** The length of the list is returned. So the value is the number of
rows only for a list whose length was no length for an `int`, and the rows are in the list
only where an element can be copied. -/
theorem appends_rows_iff (hproper : (t.ret calls).Proper Model.Typed) (hset : t.Converts set)
    (hsql : Sql.prepare_statement env b sqlescape method args = .ok (after, true, sql))
    {res : MyResult} (hres : res.Reading set 0) (hselect : executor sql = .ok (some res)) :
    AppendsRows calls t set ret_list
        (select_list_impl (t.read calls) (t.emplace calls) env b (some executor) sqlescape method
          args ret_list) ↔
      2 ^ 32 ∣ ret_list.length ∧ set.rows.length < 2 ^ 31 ∧ (set.rows = [] ∨ t.Appendable) := by
  by_cases ht : set.rows = [] ∨ t.Appendable
  · obtain ⟨elements, hbecomes, hmade⟩ : ∃ elements,
        List.Forall₂ (Becomes (t.read calls) (t.emplace calls) set) set.rows elements ∧
        List.Forall₂ (MadeFrom calls t set) set.rows elements := by
      rcases ht with hnil | ht
      · exact ⟨[], by rw [hnil]; exact .nil, by rw [hnil]; exact .nil⟩
      · exact exists_elements hproper ht hset
    have hcall := select_list_impl_appended ret_list hsql hres hselect hbecomes
    rw [← and_assoc, and_iff_left ht]
    constructor
    · exact fun h => h.length hcall
    · intro hn
      exact ⟨after, _, elements, hcall, hmade, (to_int_add_eq_iff _ _).mpr hn⟩
  · refine iff_of_false ?_ fun h => ht h.2.2
    rw [not_or] at ht
    rintro ⟨sqlescape', n, elements, hcall, -⟩
    rw [select_list_impl_eq hsql hselect] at hcall
    obtain ⟨out, hrows, -⟩ := run_bind_eq_ok.mp hcall
    exact select_rows_stops hproper ht.2 hset ht.1 hres out hrows

/-- The functions that print and read are not called. -/
def no_calls : Brpc.Calls := ⟨fun _ => none, fun _ => [], fun _ => 0, fun _ => 0, fun _ => []⟩

/-- A list of `int`. -/
def ints : RetType := .arithmetic (.INT 0) (by decide)

/-- One column with one row. -/
def seven : ResultSet := column [lit "7"]

theorem seven_converts : ints.Converts seven := by
  intro row hrow
  obtain rfl := List.mem_singleton.mp hrow
  exact ⟨[(lit "1", lit "7")], rfl, rfl, trivial⟩

theorem ints_proper : (ints.ret no_calls).Proper Model.Typed := .plain (.inl rfl)

/-- The row goes into an empty list. -/
theorem appends_rows_iff_seven :
    AppendsRows no_calls ints seven []
        (select_list_impl (ints.read no_calls) (ints.emplace no_calls) ⟨true, fun _ => true⟩
          select_builder (some fun _ => .ok (some ⟨0, .live seven 0, none, seven.fields⟩)) none
          (lit "get") [] []) ↔
      2 ^ 32 ∣ ([] : List Element).length ∧ seven.rows.length < 2 ^ 31 ∧
        (seven.rows = [] ∨ ints.Appendable) :=
  appends_rows_iff ints_proper seven_converts rfl ⟨rfl, rfl, rfl⟩ rfl

/-- Behind another number, it makes the value 2. -/
theorem select_list_counts_all :
    ¬ AppendsRows no_calls ints seven [.value (.INT 5)]
      (select_list_impl (ints.read no_calls) (ints.emplace no_calls) ⟨true, fun _ => true⟩
        select_builder (some fun _ => .ok (some ⟨0, .live seven 0, none, seven.fields⟩)) none
        (lit "get") [] [.value (.INT 5)]) := by
  intro h
  obtain ⟨elements, hbecomes, -⟩ := exists_elements ints_proper trivial seven_converts
  obtain ⟨hdvd, -⟩ := h.length
    (select_list_impl_appended _ rfl ⟨rfl, rfl, rfl⟩ rfl hbecomes)
  exact absurd hdvd (by decide)

end appends

/-! ## A column that the class does not have -/

section foreign

variable (calls) (r : MyResult) (tag : Str) (clazz : Clazz) (plains : List (Str × Plain))
  (lists : List (Str × List Model)) (objects : List (Str × Model))

/-- Some column names no plain member of the class. -/
def Foreign (clazz : Clazz) (fields : List Str) : Prop :=
  ∃ key ∈ fields, clazz.plain_names.lookup key = none

/-- `to_model` returns false for a row with such a column and only then, and the two
functions above it return -1 for a result with such a row. -/
structure ReportsForeign : Prop where
  to_model :
    (∃ m, r.to_model (model_methods calls) (.object tag clazz plains lists objects) =
      .ok (false, m)) ↔ Foreign clazz r._fields
  select_impl : Foreign clazz r._fields → ∀ (env : Sql.Env) (b : Sql.SqlBuilder)
    (executor : Str → Run (Option MyResult)) (sqlescape after : Option SqlEscape)
    (method sql : Str) (args : List Model) (res : MyResult) (set : ResultSet),
    Sql.prepare_statement env b sqlescape method args = .ok (after, true, sql) →
    executor sql = .ok (some res) → res.Reading set 0 → set.fields = r._fields →
    set.rows.head? = r._row → r._row ≠ none →
    ∃ m, Mysql.select_impl (model_methods calls) env b (some executor) sqlescape method args
      (.object tag clazz plains lists objects) = .ok (after, -1, m)
  select_list_impl : Foreign clazz r._fields → ∀ (env : Sql.Env) (b : Sql.SqlBuilder)
    (executor : Str → Run (Option MyResult)) (sqlescape after : Option SqlEscape)
    (method sql : Str) (args : List Model) (res : MyResult) (set : ResultSet)
    (row : List (Option Str)) (list_names object_names : List Str) (ret_list : List Element),
    Sql.prepare_statement env b sqlescape method args = .ok (after, true, sql) →
    executor sql = .ok (some res) → res.Reading set 0 → set.fields = r._fields →
    row ∈ set.rows → r._row = some row →
    ∃ list, select_list_impl ((RetType.object clazz list_names object_names).read calls)
      ((RetType.object clazz list_names object_names).emplace calls) env b (some executor)
      sqlescape method args ret_list = .ok (after, -1, list)

/-- The loop ends at a foreign column as it ends behind the last one. -/
theorem set_columns_foreign (cols rest : List (Str × Str)) {col : Str × Str}
    (hcol : clazz.plain_names.lookup col.1 = none) :
    MyResult.set_columns calls (cols ++ col :: rest) (.object tag clazz plains lists objects) =
      MyResult.set_columns calls cols (.object tag clazz plains lists objects) := by
  induction cols generalizing plains with
  | nil =>
    rw [List.nil_append, MyResult.set_columns, MyResult.set_columns]
    unfold Brpc.object_set_plain
    dsimp only
    rw [hcol]
    rfl
  | cons col' cols ih =>
    rw [List.cons_append, MyResult.set_columns, MyResult.set_columns]
    unfold Brpc.object_set_plain
    dsimp only
    cases clazz.plain_names.lookup col'.1 with
    | none => rfl
    | some dft =>
      -- one column more is written, or its function throws
      dsimp only
      cases hset : Brpc.plain_set_parse calls
          ((plains.lookup col'.1).getD (dft.create calls.to_string)) (cstr col'.2) with
      | error fault => rfl
      | ok out => exact ih _

/-- So a row with a foreign column gives true, and an object with a part of the row. -/
theorem to_model_foreign {cols rest : List (Str × Str)} {col : Str × Str}
    (hr : r.At (cols ++ col :: rest)) (hcols : Writable clazz plains cols)
    (hcol : clazz.plain_names.lookup col.1 = none) :
    ∃ plains', r.to_model (model_methods calls) (.object tag clazz plains lists objects) =
        .ok (true, .object tag clazz plains' lists objects) ∧
      ∀ key ∉ cols.map Prod.fst, plains'.lookup key = plains.lookup key := by
  obtain ⟨plains', hset, -, hframe, -⟩ :=
    @set_columns_ok calls tag clazz plains lists objects cols hcols
  refine ⟨plains', ?_, hframe⟩
  rw [hr.to_model_object calls (by simp), set_columns_foreign calls tag clazz plains lists objects
    cols rest hcol]
  exact hset

/-- **Columns that the class does not have.** `to_model` has no way to say no, so it tells
of them exactly where there are none. -/
theorem reports_foreign_iff :
    ReportsForeign calls r tag clazz plains lists objects ↔ ¬ Foreign clazz r._fields := by
  constructor
  · intro h hforeign
    obtain ⟨m, hm⟩ := h.to_model.mpr hforeign
    cases MyResult.to_model_true hm
  · intro hforeign
    refine ⟨iff_of_false ?_ hforeign, fun h => absurd h hforeign, fun h => absurd h hforeign⟩
    rintro ⟨m, hm⟩
    cases MyResult.to_model_true hm

/-- A class without members, and a row with one column. -/
theorem foreign_column_unreported :
    ¬ ReportsForeign no_calls ⟨0, .live seven 1, some [some (lit "7")], seven.fields⟩ []
      ⟨lit "Empty", []⟩ [] [] [] := by
  intro h
  obtain ⟨m, hm⟩ := h.to_model.mpr ⟨lit "1", List.mem_cons_self, rfl⟩
  cases MyResult.to_model_true hm

end foreign

end Rellaf.Mysql.SelectList
