/-
A `SELECT` from the pool's answer to the caller's `int`: `MysqlSimplePool::select` in
its two overloads, and `select_impl` and `select_list_impl` above them.

Each of the layers says in its own way how the statement went: by the status of an
`InnerResult`, by -1 or the number of rows, by a pointer that may be null, by -1 or a
count. `select(sql)` takes the number of the layer below for a truth value, so it gives
null where there is no row and a result where the statement failed.
-/
import Rellaf.MysqlResult
import Rellaf.MysqlTransaction
import Rellaf.SqlBuilder

set_option autoImplicit false

open Rellaf.Cpp Rellaf.Models Rellaf.MysqlEscape

namespace Rellaf.Mysql

/-! ## The pool -/

/-- What comes of a statement that is given to the pool: the `MyResult` for it could not
be allocated and it is not run, or no worker came to run it, or a worker ran it in its
session. -/
inductive Outcome where
  | no_memory
  | not_run
  | answered (answers : Answers) (session : Session)

/-- The `InnerResult*` after `execute(sql, &result)`. -/
def Outcome.execute (sql : Str) : Outcome → Option InnerResult
  | no_memory | not_run => none
  | answered answers session => some (exec_sql sql answers session).2

/-- `(int) n` for a `size_t`. -/
def to_int (n : Nat) : Int32 := (UInt64.ofNat n).toUInt32.toInt32

-- the result sets of MySQL, by the pointers to them
variable (results : Nat → ResultSet)

/-- `static_cast<MYSQL_RES*>(result->data)`. The number of a key is no pointer. -/
def ResultData.mysql_res : ResultData → Run MysqlRes
  | null | res none => .ok .null
  | res (some p) => .ok (.live (results p) 0)
  | key_id keyid => if keyid = 0 then .ok .null else .error .undefined

/-- `select(sql, res, tx)` behind the call that runs the statement. -/
def select_into (result : Option InnerResult) (res : MyResult) : Run (Int32 × MyResult) := do
  match result with
  | none => return (-1, res)
  | some result =>
    let mysql_res ← result.data.mysql_res results
    let (ok, res) ← res.init mysql_res
    if !ok then return (-1, res)
    else if result.status ≠ 0 then
      -- `res` keeps the pointer
      mysql_res.free
      return (-1, { res with _res := .freed })
    else return (to_int (← res.row_count), res)

/-- `select(sql)`; `none` is the null pointer. -/
def select (outcome : Outcome) (sql : Str) : Run (Option MyResult) := do
  match outcome with
  | .no_memory => return none
  | outcome =>
    let (rows, res) ← select_into results (outcome.execute sql) .new
    if rows = 0 then
      let _ ← res.reset
      return none
    else return some res

/-! ## The builder -/

section select_impl

variable {Ret α : Type} (methods : ModelMethods Ret)
  (env : Sql.Env) (b : Sql.SqlBuilder) (executor : Option (Str → Run (Option MyResult)))
  (sqlescape : Option SqlEscape) (method : Str) (args : List Model)

/-- `select_impl(method, nullptr, ret, args...)`: the static escaper, the value returned
and `ret`. -/
def select_impl (ret : Ret) : Run (Option SqlEscape × Int32 × Ret) := do
  let (sqlescape, ok, sql) ← Sql.prepare_statement env b sqlescape method args
  if !ok then return (sqlescape, -1, ret)
  else match executor with
    | none => return (sqlescape, 0, ret)
    | some select =>
      match ← select sql with
      | none => return (sqlescape, -1, ret)
      | some res =>
        let (has, res) ← res.next
        let (ok, ret) ← if has then res.to_model methods ret else .ok (true, ret)
        let _ ← res.reset
        return (sqlescape, if ok then 1 else -1, ret)

end select_impl

namespace SelectList

section select_list_impl

variable {Ret α : Type} (read : MyResult → Run (Bool × Ret)) (emplace : Ret → Run α)

/-- The loop of `select_list_impl`. `read` makes a new `ret` and calls `to_model` on it,
`emplace` is what `emplace_back` makes of it. -/
def select_rows (res : MyResult) (ret_list : List α) : Run (Bool × MyResult × List α) :=
  match _h : res.next with
  | .error fault => .error fault
  | .ok (false, res) => .ok (true, res, ret_list)
  | .ok (true, res) => do
    let (ok, ret) ← read res
    if !ok then return (false, res, ret_list)
    else select_rows res (ret_list ++ [← emplace ret])
termination_by res.rows_left
decreasing_by exact MyResult.next_rows_left _h

/-- `select_list_impl`, by what it does with a row and with a `ret`. -/
def select_list_impl (env : Sql.Env) (b : Sql.SqlBuilder)
    (executor : Option (Str → Run (Option MyResult))) (sqlescape : Option SqlEscape) (method : Str)
    (args : List Model) (ret_list : List α) : Run (Option SqlEscape × Int32 × List α) := do
  let (sqlescape, ok, sql) ← Sql.prepare_statement env b sqlescape method args
  if !ok then return (sqlescape, -1, ret_list)
  else match executor with
    | none => return (sqlescape, 0, ret_list)
    | some select =>
      match ← select sql with
      | none => return (sqlescape, -1, ret_list)
      | some res =>
        let (ok, res, ret_list) ← select_rows read emplace res ret_list
        let _ ← res.reset
        return (sqlescape, if ok then to_int ret_list.length else -1, ret_list)

end select_list_impl

end SelectList

/-- `select_list_impl` where `emplace_back` cannot fail. `ret` is the model each row starts
from, `value` what is kept of it: `Ret` and itself for a list of models, `Plain<Ret>` and its
`value()` for a list of numbers. -/
def select_list_impl {Ret α : Type} (methods : ModelMethods Ret) (env : Sql.Env)
    (b : Sql.SqlBuilder) (executor : Option (Str → Run (Option MyResult)))
    (sqlescape : Option SqlEscape) (method : Str) (args : List Model) (ret : Ret) (value : Ret → α)
    (ret_list : List α) : Run (Option SqlEscape × Int32 × List α) :=
  SelectList.select_list_impl (MyResult.to_model · methods ret) (fun ret => .ok (value ret)) env b
    executor sqlescape method args ret_list

/-! ## How a statement went -/

/-- A `SELECT`, in any of its spellings: blanks, a comment or a bracket may stand in front
of the word, and then the worker does not know it for one. It begins like none of the
words by which the worker knows other statements. -/
structure SelectStatement extends Statement where
  not_insert : strncasecmp_eq sql (lit "INSERT") 6 = false

/-- The worker knows the text for a `SELECT`. -/
def is_select (sql : Str) : Bool := strncasecmp_eq sql (lit "SELECT") 6

/-- The worker knows the text for an `INSERT`. -/
def is_insert (sql : Str) : Bool := strncasecmp_eq sql (lit "INSERT") 6

/-- What the worker stores in `data` for a statement that succeeded. -/
def stored_data (sql : Str) (a : Attempt) : ResultData :=
  if is_select sql then .res a.store_result
  else if is_insert sql then .key_id a.insert_id
  else .null

/-- The attempt that succeeds, if one does. -/
def Answers.success (answers : Answers) : Option Attempt :=
  [answers.first, answers.second, answers.third].find? (·.ok)

/-- The result of a statement that succeeded; `none` when it failed. -/
def Outcome.result_set : Outcome → Option ResultSet
  | no_memory | not_run => none
  | answered answers _ => (answers.success.bind (·.store_result)).map results

/-- The rows that reach `select`: a result is only fetched for a text the worker knows. -/
def Outcome.received (outcome : Outcome) (sql : Str) : Option ResultSet :=
  if is_select sql then outcome.result_set results else none

/-- A call that returns -1 for a statement that failed, and for one that did not, if it
returns at all, something else. -/
structure Tells {α : Type} (failed : Prop) (call : Run (Option SqlEscape × Int32 × α)) : Prop where
  of_failed : failed → ∃ sqlescape a, call = .ok (sqlescape, -1, a)
  of_success : ¬ failed → ∀ sqlescape n a, call = .ok (sqlescape, n, a) → n ≠ -1

/-! ## The worker's half -/

variable {results}

/-- The result of the attempt that succeeds. -/
theorem query_loop_success {sql : Str} {attempts : List Attempt} {a : Attempt}
    (ha : attempts.find? (·.ok) = some a) (session : Session) {result : InnerResult}
    (hdata : result.data = .null) :
    (query_loop sql attempts session result).2.status = 0 ∧
      (query_loop sql attempts session result).2.data = stored_data sql a ∧
      (query_loop sql attempts session result).2.row_count =
        a.affected_rows.toUInt32.toInt32 := by
  induction attempts generalizing session result with
  | nil => cases ha
  | cons a' attempts ih =>
    rw [query_loop]
    cases hok : a'.ok with
    | true =>
      rw [List.find?_cons_of_pos hok] at ha
      cases ha
      unfold stored_data is_select is_insert
      cases strncasecmp_eq sql (lit "SELECT") 6 <;> cases strncasecmp_eq sql (lit "INSERT") 6 <;>
        simp [hdata]
    | false =>
      -- a failed attempt leaves the result as it is, and the next one starts from it
      rw [List.find?_cons_of_neg (by rw [hok]; exact Bool.false_ne_true)] at ha
      exact ih ha session.retry hdata

theorem query_loop_failure {sql : Str} {attempts : List Attempt}
    (ha : attempts.find? (·.ok) = none) (session : Session) {result : InnerResult}
    (hdata : result.data = .null) : (query_loop sql attempts session result).2.data = .null := by
  induction attempts generalizing session result with
  | nil => exact hdata
  | cons a attempts ih =>
    rw [List.find?_cons] at ha
    cases hok : a.ok with
    | true =>
      rw [hok] at ha
      cases ha
    | false =>
      rw [hok] at ha
      rw [query_loop, hok]
      exact ih ha session.retry hdata

variable (results) in
/-- Of a result set that was fetched, `select` gets the pointer and the status of success;
of all else it gets a null pointer. -/
theorem execute_data (st : SelectStatement) {outcome : Outcome} {result : InnerResult}
    (h : outcome.execute st.sql = some result) :
    result.data.mysql_res results = .ok (match outcome.received results st.sql with
      | none => .null
      | some set => .live set 0) ∧
      (outcome.received results st.sql ≠ none → result.status = 0) := by
  cases outcome with
  | no_memory => cases h
  | not_run => cases h
  | answered answers session =>
    obtain rfl : (exec_sql st.sql answers session).2 = result := Option.some.inj h
    -- a `SELECT` is neither a begin, a commit nor a rollback, which leaves the loop
    have hexec : (exec_sql st.sql answers session).2 =
        (query_loop st.sql [answers.first, answers.second, answers.third] session .new).2 := by
      simp only [exec_sql, st.not_begin, st.not_commit, st.not_rollback, Bool.false_eq_true,
        if_false]
    rw [hexec, Outcome.received, Outcome.result_set, Answers.success]
    cases ha : [answers.first, answers.second, answers.third].find? (·.ok) with
    | none =>
      rw [query_loop_failure ha session rfl]
      simp [ResultData.mysql_res]
    | some a =>
      have hnew : InnerResult.new.data = .null := rfl
      have hinsert : is_insert st.sql = false := st.not_insert
      obtain ⟨hstatus, hdata, -⟩ := @query_loop_success st.sql _ a ha session _ hnew
      rw [hdata, hstatus, stored_data, hinsert, if_neg Bool.false_ne_true]
      cases is_select st.sql with
      | false => simp [ResultData.mysql_res]
      | true => cases hres : a.store_result <;> simp [ResultData.mysql_res, hres]

/-! ## The two `select`s -/

theorem select_into_none (st : SelectStatement) {outcome : Outcome}
    (h : outcome.received results st.sql = none) :
    select_into results (outcome.execute st.sql) .new = .ok (-1, .new) := by
  cases hexecute : outcome.execute st.sql with
  | none => rfl
  | some result =>
    obtain ⟨hdata, -⟩ := execute_data results st hexecute
    rw [h] at hdata
    simp only [select_into, hdata, run_ok_bind]
    rfl

theorem select_into_some (st : SelectStatement) {outcome : Outcome} {set : ResultSet}
    (h : outcome.received results st.sql = some set) :
    ∃ r, select_into results (outcome.execute st.sql) .new = .ok (to_int set.rows.length, r) ∧
      r.Reading set 0 := by
  obtain ⟨r, hinit, hr⟩ := MyResult.init_reading set
  cases hexecute : outcome.execute st.sql with
  | none =>
    -- a statement that was not run has no result set
    cases outcome with
    | answered => cases hexecute
    | _ => simp [Outcome.received, Outcome.result_set] at h
  | some result =>
    obtain ⟨hdata, hstatus⟩ := execute_data results st hexecute
    rw [h] at hdata hstatus
    refine ⟨r, ?_, hr⟩
    simp only [select_into, hdata, run_ok_bind, hinit, hstatus (Option.some_ne_none set),
      MyResult.row_count, hr.res]
    rfl

/-- The cast keeps a number modulo `2 ^ 32`. -/
theorem to_int_eq_iff (n : Nat) (i : Int32) : to_int n = i ↔ n % 2 ^ 32 = i.toUInt32.toNat := by
  unfold to_int
  constructor
  · intro h
    rw [← h]
    simp
  · intro h
    have hmod : (UInt64.ofNat n).toUInt32 = i.toUInt32 := by
      apply UInt32.toNat_inj.mp
      rw [← h]
      simp
    rw [hmod]
    simp

theorem to_int_eq_zero_iff (n : Nat) : to_int n = 0 ↔ 2 ^ 32 ∣ n := by
  rw [to_int_eq_iff, Nat.dvd_iff_mod_eq_zero]
  rfl

theorem to_int_eq_neg_one_iff (n : Nat) : to_int n = -1 ↔ n % 2 ^ 32 = 2 ^ 32 - 1 := by
  rw [to_int_eq_iff]
  rfl

/-- The `int` for a sum is the second number only where the cast loses the first. -/
theorem to_int_add_eq_iff (m n : Nat) :
    (to_int (m + n)).toInt = n ↔ 2 ^ 32 ∣ m ∧ n < 2 ^ 31 := by
  have hword : (to_int (m + n)).toBitVec.toNat = (m + n) % 2 ^ 32 :=
    ((to_int_eq_iff (m + n) _).mp rfl).symm
  rw [← Int32.toInt_toBitVec, BitVec.toInt_eq_toNat_cond, hword]
  constructor
  · intro h
    split at h <;> omega
  · rintro ⟨hm, hn⟩
    split <;> omega

/-- Where nothing was fetched, the -1 of the layer below counts as true, and the result
that is handed out has no fields. -/
theorem select_none (st : SelectStatement) {outcome : Outcome} (hmemory : outcome ≠ .no_memory)
    (h : outcome.received results st.sql = none) :
    select results outcome st.sql = .ok (some .new) := by
  have hinto := select_into_none st h
  cases outcome with
  | no_memory => exact absurd rfl hmemory
  | not_run => rfl
  | answered answers session =>
    simp only [select, hinto, run_ok_bind]
    rfl

/-- Where rows were fetched, their number counts as true when its lower half is not
zero. -/
theorem select_some (st : SelectStatement) {outcome : Outcome} {set : ResultSet}
    (h : outcome.received results st.sql = some set) :
    ∃ r, r.Reading set 0 ∧
      select results outcome st.sql = .ok (if 2 ^ 32 ∣ set.rows.length then none else some r) := by
  obtain ⟨r, hinto, hr⟩ := select_into_some st h
  refine ⟨r, hr, ?_⟩
  cases outcome with
  | answered answers session =>
    simp only [select, hinto, run_ok_bind, to_int_eq_zero_iff]
    split
    · rw [MyResult.reset, hr.res]
      rfl
    · rfl
  | _ => simp [Outcome.received, Outcome.result_set] at h

/-! ## The loop over the rows -/

namespace SelectList

section loop

variable {Ret α : Type} {read : MyResult → Run (Bool × Ret)} {emplace : Ret → Run α}
  {res res' : MyResult} {ret_list : List α}

theorem select_rows_end (h : res.next = .ok (false, res')) :
    select_rows read emplace res ret_list = .ok (true, res', ret_list) := by
  rw [select_rows]
  split <;> simp_all

theorem select_rows_row (h : res.next = .ok (true, res')) {ret : Ret}
    (hread : read res' = .ok (true, ret)) :
    select_rows read emplace res ret_list =
      emplace ret >>= fun a => select_rows read emplace res' (ret_list ++ [a]) := by
  rw [select_rows]
  split <;> simp_all

theorem select_rows_fault (h : res.next = .ok (true, res')) {fault : Fault}
    (hread : read res' = .error fault) :
    select_rows read emplace res ret_list = .error fault := by
  rw [select_rows]
  split <;> simp_all

variable (read emplace)

/-- The row becomes the element, whatever else the result has. -/
def Becomes (set : ResultSet) (row : List (Option Str)) (a : α) : Prop :=
  ∀ res : MyResult, res._fields = set.fields → res._row = some row →
    ∃ ret, read res = .ok (true, ret) ∧ emplace ret = .ok a

variable {read emplace}

/-- From row `c` on, every row is appended. -/
theorem select_rows_ok {set : ResultSet} {rows : List (List (Option Str))} {elements : List α}
    (helements : List.Forall₂ (Becomes read emplace set) rows elements) {c : Nat}
    (hrows : set.rows.drop c = rows) (hres : res.Reading set c) :
    select_rows read emplace res ret_list = .ok (true, .new, ret_list ++ elements) := by
  induction helements generalizing c res ret_list with
  | nil =>
    have hend : set.rows[c]? = none := List.getElem?_eq_none (List.drop_eq_nil_iff.mp hrows)
    rw [select_rows_end (hres.next_end hend), List.append_nil]
  | @cons row a rows elements ha _ ih =>
    have hrow : set.rows[c]? = some row := by
      rw [← List.head?_drop, hrows, List.head?_cons]
    have hrows' : set.rows.drop (c + 1) = rows := by
      rw [← List.tail_drop, hrows, List.tail_cons]
    obtain ⟨res', hnext, hres', hfetched⟩ := hres.next_row hrow
    obtain ⟨ret, hread, hemplace⟩ := ha res' hres'.fields hfetched
    rw [select_rows_row hnext hread, hemplace, run_ok_bind, ih hrows' hres', List.append_assoc,
      List.singleton_append]

/-- Behind the statement and the query there is the loop. -/
theorem select_list_impl_eq {env : Sql.Env} {b : Sql.SqlBuilder}
    {sqlescape after : Option SqlEscape} {method sql : Str} {args : List Model}
    {executor : Str → Run (Option MyResult)}
    (hsql : Sql.prepare_statement env b sqlescape method args = .ok (after, true, sql))
    (hselect : executor sql = .ok (some res)) :
    select_list_impl read emplace env b (some executor) sqlescape method args ret_list = (do
      let (ok, res, ret_list) ← select_rows read emplace res ret_list
      let _ ← res.reset
      return (after, if ok then to_int ret_list.length else -1, ret_list)) := by
  simp only [select_list_impl, hsql, run_ok_bind, hselect]
  rfl

end loop

end SelectList

/-! ## The rows of a list -/

section rows

variable {Ret α : Type} {methods : ModelMethods Ret} {ret : Ret} {value : Ret → α}
  {res : MyResult} {ret_list : List α}

variable (methods ret value)

/-- `to_model` writes the row to a model that starts as `ret`, and returns. It does not
return for a `NULL` among the cells that it reads. -/
def Stores (set : ResultSet) (row : List (Option Str)) (ret' : Ret) : Prop :=
  ∃ ok, MyResult.to_model ⟨0, .null, some row, set.fields⟩ methods ret = .ok (ok, ret')

variable {methods ret value}

theorem Stores.becomes {set : ResultSet} {row : List (Option Str)} {ret' : Ret}
    (h : Stores methods ret set row ret') :
    SelectList.Becomes (MyResult.to_model · methods ret) (fun ret => .ok (value ret)) set row
      (value ret') := by
  intro res hfields hrow
  obtain ⟨ok, hmodel⟩ := h
  obtain rfl : ok = true := MyResult.to_model_true hmodel
  rw [← MyResult.to_model_congr hfields hrow] at hmodel
  exact ⟨ret', hmodel, rfl⟩

/-- From row `c` on, every row is appended. -/
theorem select_rows_stores {set : ResultSet} {rows : List (List (Option Str))} {models : List Ret}
    (hmodels : List.Forall₂ (Stores methods ret set) rows models) {c : Nat}
    (hrows : set.rows.drop c = rows) (hres : res.Reading set c) :
    SelectList.select_rows (MyResult.to_model · methods ret) (fun ret => .ok (value ret)) res
      ret_list = .ok (true, .new, ret_list ++ models.map value) := by
  refine SelectList.select_rows_ok ?_ hrows hres
  rw [List.forall₂_map_right_iff]
  exact hmodels.imp fun row ret' h => h.becomes

/-- The loop returns only where every row could be written. -/
theorem stores_of_select_rows {set : ResultSet} {rows : List (List (Option Str))} {c : Nat}
    (hrows : set.rows.drop c = rows) (hres : res.Reading set c) {out : Bool × MyResult × List α}
    (h : SelectList.select_rows (MyResult.to_model · methods ret) (fun ret => .ok (value ret)) res
      ret_list = .ok out) :
    ∃ models, List.Forall₂ (Stores methods ret set) rows models := by
  induction rows generalizing c res ret_list with
  | nil => exact ⟨[], .nil⟩
  | cons row rows ih =>
    have hrow : set.rows[c]? = some row := by
      rw [← List.head?_drop, hrows, List.head?_cons]
    have hrows' : set.rows.drop (c + 1) = rows := by
      rw [← List.tail_drop, hrows, List.tail_cons]
    obtain ⟨res', hnext, hres', hfetched⟩ := hres.next_row hrow
    cases hmodel : res'.to_model methods ret with
    | error fault =>
      rw [SelectList.select_rows_fault hnext hmodel] at h
      cases h
    | ok out' =>
      obtain ⟨ok, model⟩ := out'
      obtain rfl : ok = true := MyResult.to_model_true hmodel
      rw [SelectList.select_rows_row hnext hmodel, run_ok_bind] at h
      obtain ⟨models, hmodels⟩ := ih hrows' hres' h
      -- `to_model` reads the fields and the row fetched, and nothing else of the result
      have hsame : res'.to_model methods ret =
          MyResult.to_model ⟨0, .null, some row, set.fields⟩ methods ret :=
        MyResult.to_model_congr hres'.fields hfetched ret
      rw [hsame] at hmodel
      exact ⟨model :: models, .cons ⟨true, hmodel⟩ hmodels⟩

end rows

/-! ## The builder's half -/

section impl

variable {Ret α : Type} {methods : ModelMethods Ret} {env : Sql.Env} {b : Sql.SqlBuilder}
  {sqlescape after : Option SqlEscape} {method sql : Str} {args : List Model}
  {executor : Str → Run (Option MyResult)} {ret : Ret} {value : Ret → α} {ret_list : List α}

/-- A null pointer becomes -1 in both. -/
theorem select_impl_null
    (hsql : Sql.prepare_statement env b sqlescape method args = .ok (after, true, sql))
    (h : executor sql = .ok none) :
    select_impl methods env b (some executor) sqlescape method args ret = .ok (after, -1, ret) := by
  simp only [select_impl, hsql, run_ok_bind, h]
  rfl

theorem select_list_impl_null
    (hsql : Sql.prepare_statement env b sqlescape method args = .ok (after, true, sql))
    (h : executor sql = .ok none) :
    select_list_impl methods env b (some executor) sqlescape method args ret value ret_list =
      .ok (after, -1, ret_list) := by
  simp only [select_list_impl, SelectList.select_list_impl, hsql, run_ok_bind, h]
  rfl

/-- A result becomes 1, with or without a row. -/
theorem select_impl_res
    (hsql : Sql.prepare_statement env b sqlescape method args = .ok (after, true, sql))
    {res : MyResult} (h : executor sql = .ok (some res)) {sqlescape' : Option SqlEscape}
    {n : Int32} {ret' : Ret}
    (hret : select_impl methods env b (some executor) sqlescape method args ret =
      .ok (sqlescape', n, ret')) : n = 1 := by
  simp only [select_impl, hsql, run_ok_bind, h] at hret
  obtain ⟨⟨has, res'⟩, -, hret⟩ := run_bind_eq_ok.mp hret
  cases has with
  | false =>
    obtain ⟨res'', -, hret⟩ := run_bind_eq_ok.mp hret
    cases hret
    rfl
  | true =>
    obtain ⟨⟨ok, row⟩, hrow, hret⟩ := run_bind_eq_ok.mp hret
    obtain ⟨res'', -, hret⟩ := run_bind_eq_ok.mp hret
    obtain rfl : ok = true := MyResult.to_model_true hrow
    cases hret
    rfl

/-- A result without fields reads as one without rows. -/
theorem select_list_impl_new
    (hsql : Sql.prepare_statement env b sqlescape method args = .ok (after, true, sql))
    (h : executor sql = .ok (some .new)) :
    select_list_impl methods env b (some executor) sqlescape method args ret value ret_list =
      .ok (after, to_int ret_list.length, ret_list) := by
  rw [select_list_impl, SelectList.select_list_impl_eq hsql h,
    SelectList.select_rows_end MyResult.next_new]
  rfl

/-- The rows of a result become the end of the list, and its length becomes the value
returned. -/
theorem select_list_impl_reading
    (hsql : Sql.prepare_statement env b sqlescape method args = .ok (after, true, sql))
    {res : MyResult} {set : ResultSet} (hres : res.Reading set 0)
    (h : executor sql = .ok (some res)) (out : Option SqlEscape × Int32 × List α) :
    select_list_impl methods env b (some executor) sqlescape method args ret value ret_list =
        .ok out ↔
      ∃ models, List.Forall₂ (Stores methods ret set) set.rows models ∧
        out = (after, to_int (ret_list ++ models.map value).length, ret_list ++ models.map value) := by
  rw [select_list_impl, SelectList.select_list_impl_eq hsql h]
  constructor
  · intro hout
    obtain ⟨⟨ok, res', list'⟩, hrows, hout⟩ := run_bind_eq_ok.mp hout
    obtain ⟨models, hmodels⟩ := stores_of_select_rows List.drop_zero hres hrows
    rw [select_rows_stores hmodels List.drop_zero hres] at hrows
    cases hrows
    cases hout
    exact ⟨models, hmodels, rfl⟩
  · rintro ⟨models, hmodels, rfl⟩
    rw [select_rows_stores hmodels List.drop_zero hres]
    rfl

/-! ## What the caller is told -/

variable (methods ret) in
/-- All the rows can be written to models, and the list with them behind it has a length
that an `int` reads as -1. -/
def ListReadsMinusOne (set : ResultSet) (rows : List (List (Option Str))) (ret_list : List α) :
    Prop :=
  (∃ models, List.Forall₂ (Stores methods ret set) rows models) ∧
    (ret_list.length + rows.length) % 2 ^ 32 = 2 ^ 32 - 1

/-- The rows of a result that reach the caller. -/
def rows_read (sql : Str) (set : ResultSet) : List (List (Option Str)) :=
  if is_select sql then set.rows else []

theorem select_list_impl_reading_iff
    (hsql : Sql.prepare_statement env b sqlescape method args = .ok (after, true, sql))
    {res : MyResult} {set : ResultSet} (hres : res.Reading set 0)
    (h : executor sql = .ok (some res)) :
    (∀ sqlescape' n list',
      select_list_impl methods env b (some executor) sqlescape method args ret value ret_list =
        .ok (sqlescape', n, list') → n ≠ -1) ↔
      ¬ ListReadsMinusOne methods ret set set.rows ret_list := by
  have hlength : ∀ {models : List Ret}, List.Forall₂ (Stores methods ret set) set.rows models →
      (ret_list ++ models.map value).length = ret_list.length + set.rows.length := by
    intro models hmodels
    rw [List.length_append, List.length_map, hmodels.length_eq]
  constructor
  · rintro hne ⟨⟨models, hmodels⟩, hmod⟩
    refine hne _ _ _ ((select_list_impl_reading hsql hres h _).mpr ⟨models, hmodels, rfl⟩) ?_
    rw [to_int_eq_neg_one_iff, hlength hmodels]
    exact hmod
  · intro hlist sqlescape' n list' hout hn
    obtain ⟨models, hmodels, hout⟩ := (select_list_impl_reading hsql hres h _).mp hout
    rw [Prod.mk.injEq, Prod.mk.injEq] at hout
    rw [hout.2.1, to_int_eq_neg_one_iff, hlength hmodels] at hn
    exact hlist ⟨⟨models, hmodels⟩, hn⟩

theorem select_list_impl_new_iff
    (hsql : Sql.prepare_statement env b sqlescape method args = .ok (after, true, sql))
    (h : executor sql = .ok (some .new)) (set : ResultSet) :
    (∀ sqlescape' n list',
      select_list_impl methods env b (some executor) sqlescape method args ret value ret_list =
        .ok (sqlescape', n, list') → n ≠ -1) ↔
      ¬ ListReadsMinusOne methods ret set [] ret_list := by
  rw [select_list_impl_new hsql h]
  constructor
  · rintro hne ⟨-, hmod⟩
    exact hne _ _ _ rfl ((to_int_eq_neg_one_iff _).mpr hmod)
  · intro hlist sqlescape' n list' hout hn
    cases hout
    exact hlist ⟨⟨[], .nil⟩, (to_int_eq_neg_one_iff _).mp hn⟩

/-- With a result in the hand, a statement that succeeded is told of as such, but for the
length of the list. -/
theorem tells_of_result
    (hsql : Sql.prepare_statement env b sqlescape method args = .ok (after, true, sql))
    {res : MyResult} (h : executor sql = .ok (some res)) {failed : Prop} (hfailed : ¬ failed) :
    ((∃ res, executor sql = .ok res ∧ (res = none ↔ failed)) ∧
      Tells failed (select_impl methods env b (some executor) sqlescape method args ret) ∧
      Tells failed
        (select_list_impl methods env b (some executor) sqlescape method args ret value ret_list)) ↔
      ∀ sqlescape' n list',
        select_list_impl methods env b (some executor) sqlescape method args ret value ret_list =
          .ok (sqlescape', n, list') → n ≠ -1 := by
  constructor
  · rintro ⟨-, -, hlist⟩
    exact hlist.of_success hfailed
  · intro hlist
    refine ⟨⟨some res, h, iff_of_false (Option.some_ne_none res) hfailed⟩, ⟨?_, ?_⟩, ⟨?_, ?_⟩⟩
    · exact fun hf => absurd hf hfailed
    · intro _ sqlescape' n ret' hret
      rw [select_impl_res hsql h hret]
      decide
    · exact fun hf => absurd hf hfailed
    · exact fun _ => hlist

variable (results) in
/-- **What a caller is told of a `SELECT`.** The pointer and the two values say how the
statement went when the `MyResult` could not be allocated, and else only for a statement
that succeeded, with a number of rows that an `int` does not read as zero and that does
not make a list that it reads as -1. -/
theorem select_tells_iff (st : SelectStatement) (outcome : Outcome) (ret_list : List α)
    (hsql : Sql.prepare_statement env b sqlescape method args = .ok (after, true, st.sql)) :
    ((∃ res, select results outcome st.sql = .ok res ∧
        (res = none ↔ outcome.result_set results = none)) ∧
      Tells (outcome.result_set results = none)
        (select_impl methods env b (some (select results outcome)) sqlescape method args ret) ∧
      Tells (outcome.result_set results = none)
        (select_list_impl methods env b (some (select results outcome)) sqlescape method args ret
          value ret_list)) ↔
      outcome = .no_memory ∨ ∃ set, outcome.result_set results = some set ∧
        (is_select st.sql = true → ¬ 2 ^ 32 ∣ set.rows.length) ∧
        ¬ ListReadsMinusOne methods ret set (rows_read st.sql set) ret_list := by
  by_cases hmemory : outcome = .no_memory
  · subst hmemory
    have hnull : select results .no_memory st.sql = .ok none := rfl
    refine iff_of_true ⟨⟨none, hnull, iff_of_true rfl rfl⟩, ⟨?_, ?_⟩, ⟨?_, ?_⟩⟩ (.inl rfl)
    · exact fun _ => ⟨after, ret, select_impl_null hsql hnull⟩
    · exact fun h => absurd rfl h
    · exact fun _ => ⟨after, ret_list, select_list_impl_null hsql hnull⟩
    · exact fun h => absurd rfl h
  · rw [or_iff_right hmemory]
    cases hset : outcome.result_set results with
    | none =>
      -- the -1 for the failure reads as true
      have hreceived : outcome.received results st.sql = none := by
        rw [Outcome.received, hset, ite_self]
      have hselect := select_none st hmemory hreceived
      constructor
      · rintro ⟨⟨res, hres, hiff⟩, -, -⟩
        rw [hselect] at hres
        cases hres
        cases hiff.mpr rfl
      · rintro ⟨set, hset', -, -⟩
        cases hset'
    | some set =>
      have hsome : ¬ (some set = none) := Option.some_ne_none set
      simp only [Option.some.injEq, exists_eq_left']
      cases hknown : is_select st.sql with
      | false =>
        -- nothing was fetched, and the result without fields is no null pointer
        have hreceived : outcome.received results st.sql = none := by
          rw [Outcome.received, hknown]
          rfl
        have hselect := select_none st hmemory hreceived
        have hrows : rows_read st.sql set = [] := by
          rw [rows_read, hknown]
          rfl
        rw [tells_of_result hsql hselect hsome, select_list_impl_new_iff hsql hselect set, hrows]
        exact (and_iff_right fun h => absurd h Bool.false_ne_true).symm
      | true =>
        have hreceived : outcome.received results st.sql = some set := by
          rw [Outcome.received, hknown, if_pos rfl, hset]
        have hrows : rows_read st.sql set = set.rows := by rw [rows_read, hknown, if_pos rfl]
        obtain ⟨res, hres, hselect⟩ := select_some st hreceived
        by_cases hdvd : 2 ^ 32 ∣ set.rows.length
        · -- the number of rows reads as false
          rw [if_pos hdvd] at hselect
          constructor
          · rintro ⟨⟨res', hres', hiff⟩, -, -⟩
            rw [hselect] at hres'
            cases hres'
            cases hiff.mp rfl
          · rintro ⟨hndvd, -⟩
            exact absurd hdvd (hndvd rfl)
        · rw [if_neg hdvd] at hselect
          rw [tells_of_result hsql hselect hsome, select_list_impl_reading_iff hsql hres hselect,
            hrows]
          exact (and_iff_right fun _ => hdvd).symm

end impl

/-! ## One row, and none -/

/-- A builder with one method, `get`. -/
def select_builder : Sql.SqlBuilder :=
  ⟨.UTF8, {}, Std.ExtTreeMap.insertIfNew {} (lit "get") [⟨.LITERAL, lit "SELECT 1"⟩]⟩

def select_one : SelectStatement := ⟨⟨lit "SELECT 1", by decide, by decide, by decide⟩, by decide⟩

/-- A result with one column and the given cells in it. -/
def column (cells : List Str) : ResultSet where
  fields := [lit "1"]
  rows := cells.map fun cell => [some cell]
  fields_ne := List.cons_ne_nil _ _
  row_length := by simp

/-- MySQL answers with the result at this place. -/
def answered_with (p : Nat) : Outcome :=
  .answered ⟨true, [], ⟨true, 0, 0, some p, []⟩, ⟨false, 0, 0, none, []⟩, ⟨false, 0, 0, none, []⟩⟩ .new

/-- The methods of `Plain<std::string>`. -/
def plain_methods : ModelMethods Str where
  rellaf_type _ := .STR
  set_plain _ _ _ := .error .undefined
  set_parse _ val_str := .ok (true, val_str)

/-- One row: every value is told as it should be. -/
theorem select_tells_iff_one :
    (∃ res, select (fun _ => column [lit "1"]) (answered_with 0) select_one.sql = .ok res ∧
      (res = none ↔ (answered_with 0).result_set (fun _ => column [lit "1"]) = none)) ∧
    Tells ((answered_with 0).result_set (fun _ => column [lit "1"]) = none)
      (select_impl plain_methods ⟨true, fun _ => true⟩ select_builder
        (some (select (fun _ => column [lit "1"]) (answered_with 0))) none (lit "get") [] []) ∧
    Tells ((answered_with 0).result_set (fun _ => column [lit "1"]) = none)
      (select_list_impl plain_methods ⟨true, fun _ => true⟩ select_builder
        (some (select (fun _ => column [lit "1"]) (answered_with 0))) none (lit "get") [] [] id
        []) := by
  refine (select_tells_iff (fun _ => column [lit "1"]) select_one (answered_with 0) [] rfl).mpr
    (.inr ⟨column [lit "1"], rfl, ?_, ?_⟩)
  · intro _
    decide
  · rintro ⟨-, hmod⟩
    exact absurd hmod (by decide)

/-- No row: the statement succeeded, and `select` gives null and `select_impl` -1. A
statement that was not run: `select` gives a result and `select_impl` 1. -/
theorem select_no_rows :
    (answered_with 0).result_set (fun _ => column []) = some (column []) ∧
      select (fun _ => column []) (answered_with 0) select_one.sql = .ok none ∧
      select_impl plain_methods ⟨true, fun _ => true⟩ select_builder
        (some (select (fun _ => column []) (answered_with 0))) none (lit "get") [] [] =
          .ok (none, -1, []) ∧
      select (fun _ => column []) .not_run select_one.sql = .ok (some .new) ∧
      select_impl plain_methods ⟨true, fun _ => true⟩ select_builder
        (some (select (fun _ => column []) .not_run)) none (lit "get") [] [] = .ok (none, 1, []) :=
  ⟨rfl, rfl, rfl, rfl, rfl⟩

end Rellaf.Mysql
