/-
The `select`, `insert`, `update` and `del` of the pool, and what each takes the `data` of
an `InnerResult` for.

The worker chooses what it stores in the pointer by the first letters of the text, and the
client chooses what it reads by the method that was called. So a method may find the number
of a key where it looks for a result set, or nothing where there was one
(`agrees_iff`). `execute` and `tx_execute` give the client the same result.
-/
import Rellaf.SqlSelect
import Rellaf.TxPool

set_option autoImplicit false

open Rellaf.Cpp

namespace Rellaf.Mysql

/-! ## Where a statement runs -/

/-- Where a statement is given to the pool: outside every transaction, or inside one. -/
inductive Place where
  | outside (outcome : Outcome)
  | inside (s : TxPool.State) (tx : TxPool.SqlTx) (world : TxPool.World)

/-- The client's `InnerResult*`, null before `execute` or `tx_execute`, behind the call. -/
def Place.result (sql : Str) : Place → CallOutcome (Option InnerResult)
  | outside outcome => .returns (outcome.execute sql)
  | inside s tx world => (s.tx_execute tx sql none world).2

/-- The worker that comes to the statement: what MySQL answers, and its session. -/
def Place.ran : Place → Option (Answers × Session)
  | outside (.answered answers session) => some (answers, session)
  | outside .no_memory | outside .not_run => none
  | inside s tx world =>
    (s._s_tx_pool tx.tx_id).bind fun entry => (s.deref entry.thread).bind fun worker =>
      if world.added && worker.2.running then
        match world.work with
        | .no_result => none
        | .exec answers => some (answers, worker.2.session)
      else none

/-- The client gets a result only from a worker that has run the statement. -/
theorem Place.result_eq_iff (place : Place) (sql : Str) (result : InnerResult) :
    place.result sql = .returns (some result) ↔
      ∃ answers session, place.ran = some (answers, session) ∧
        (exec_sql sql answers session).2 = result := by
  cases place with
  | outside outcome =>
    cases outcome with
    | answered answers session => simp [Place.result, Place.ran, Outcome.execute]
    | _ => simp [Place.result, Place.ran, Outcome.execute]
  | inside s tx world =>
    unfold Place.result Place.ran TxPool.State.tx_execute
    dsimp only
    cases s._s_tx_pool tx.tx_id with
    | none => simp
    | some entry =>
      dsimp only [Option.bind_some]
      cases s.deref entry.thread with
      | none => simp
      | some worker =>
        obtain ⟨p, t⟩ := worker
        dsimp only [Option.bind_some]
        cases world.added <;> cases t.running <;> cases world.work <;> simp [TxPool.TxThread.work]
/-! ## The methods -/

section methods

-- the result sets of MySQL, by the pointers to them, and the numbers of these pointers
variable (results : Nat → ResultSet) (address : Nat → UInt64)

/-- `reinterpret_cast<uint64_t>(result->data)` -/
def ResultData.to_key_id : ResultData → UInt64
  | null | res none => 0
  | key_id keyid => keyid
  | res (some p) => address p

/-- What `insert`, `update` and `del` return for a result. -/
def row_count_of : Option InnerResult → Int32
  | none => -1
  | some result => if result.status = 0 then result.row_count else -1

namespace Place

variable (place : Place) (sql : Str)

/-- `select(sql, res, tx)` -/
def select (res : MyResult) : CallOutcome (Run (Int32 × MyResult)) :=
  (place.result sql).map fun result => select_into results result res

/-- `insert(sql, keyid, tx)`: what it returns, and `keyid` behind it. -/
def insert_key_id (keyid : UInt64) : CallOutcome (Int32 × UInt64) :=
  (place.result sql).map fun result =>
    (row_count_of result, (result.map (·.data.to_key_id address)).getD keyid)

/-- `insert(sql, tx)` -/
def insert : CallOutcome Int32 := (place.result sql).map row_count_of

def update : CallOutcome Int32 := (place.result sql).map row_count_of

def del : CallOutcome Int32 := (place.result sql).map row_count_of

end Place

/-! ## What they take the pointer for -/

inductive Method where
  | select
  | insert_key_id
  | insert
  | update
  | del
  deriving DecidableEq, Repr

/-- What the method reads in `data` is what was stored there: a result set where the pointer
is not null, or the number of a key. -/
def Method.TakesAsStored : Method → ResultData → Prop
  | select, data => data.mysql_res results ≠ .ok .null → ∃ p, data = .res (some p)
  | insert_key_id, data => data = .null ∨ data = .res none ∨ ∃ keyid, data = .key_id keyid
  | insert, _ | update, _ | del, _ => True

/-- The words for a transaction, for which the worker calls another function of MySQL. -/
def is_control (sql : Str) : Bool :=
  strncasecmp_eq sql (lit "BEGIN") 5 || strncasecmp_eq sql (lit "COMMIT") 6 ||
    strncasecmp_eq sql (lit "ROLLBACK") 8

/-- The result set that MySQL has produced for the statement. -/
def Place.produced (place : Place) (sql : Str) : Option ResultSet :=
  place.ran.bind fun ran =>
    if is_control sql then none else (ran.1.success.bind (·.store_result)).map results

/-- A call of the method takes `data` for what the worker has stored, and a `select` returns
the number of the rows that MySQL has produced. -/
structure Agrees (method : Method) (place : Place) (sql : Str) : Prop where
  data : ∀ result, place.result sql = .returns (some result) →
    method.TakesAsStored results result.data
  rows : method = .select → ∀ set, place.produced results sql = some set →
    ∀ res, ∃ n res', place.select results sql res = .returns (.ok (n, res')) ∧
      n.toInt = set.rows.length

/-- The two classifications are the same for the statement. -/
def Method.Fits : Method → Str → Attempt → Prop
  | select, sql, a =>
    (∀ p ∈ a.store_result, is_select sql = true ∧ (results p).rows.length < 2 ^ 31) ∧
      (is_insert sql = true → a.insert_id = 0)
  | insert_key_id, sql, a => is_select sql = true → a.store_result = none
  | insert, _, _ | update, _, _ | del, _, _ => True

end methods

/-! ## The worker's half -/

variable {results : Nat → ResultSet} {sql : Str} {answers : Answers}

theorem exec_sql_success (hcontrol : is_control sql = false) {a : Attempt}
    (ha : answers.success = some a) (session : Session) :
    (exec_sql sql answers session).2.status = 0 ∧
      (exec_sql sql answers session).2.data = stored_data sql a ∧
      (exec_sql sql answers session).2.row_count = a.affected_rows.toUInt32.toInt32 := by
  unfold is_control at hcontrol
  rw [Bool.or_eq_false_iff, Bool.or_eq_false_iff] at hcontrol
  obtain ⟨⟨hbegin, hcommit⟩, hrollback⟩ := hcontrol
  unfold exec_sql
  rw [hbegin, hcommit, hrollback]
  exact query_loop_success ha session rfl

/-- Without a statement that succeeded, nothing is stored. -/
theorem exec_sql_null (h : is_control sql = true ∨ answers.success = none) (session : Session) :
    (exec_sql sql answers session).2.data = .null := by
  have hcontrol : (control_result answers).data = .null := by
    unfold control_result
    split <;> rfl
  unfold exec_sql
  split
  · exact hcontrol
  · split
    · exact hcontrol
    · split
      · exact hcontrol
      · rcases h with h | h
        · unfold is_control at h
          simp_all
        · exact query_loop_failure h session rfl

/-! ## The client's half -/

theorem takesAsStored_null (method : Method) : method.TakesAsStored results .null := by
  cases method with
  | select => exact fun h => absurd rfl h
  | insert_key_id => exact .inl rfl
  | _ => trivial

/-- No text is taken for both. -/
theorem is_insert_eq_false (h : is_select sql = true) : is_insert sql = false := by
  unfold is_select strncasecmp_eq at h
  obtain ⟨hletter, -⟩ := (Bool.and_eq_true _ _).mp h
  unfold is_insert strncasecmp_eq
  rw [beq_iff_eq.mp hletter]
  rfl

theorem takesAsStored_select_iff (a : Attempt) :
    Method.select.TakesAsStored results (stored_data sql a) ↔
      (is_insert sql = true → a.insert_id = 0) := by
  unfold Method.TakesAsStored stored_data
  cases hknown : is_select sql with
  | true =>
    rw [is_insert_eq_false hknown, if_pos rfl]
    refine iff_of_true ?_ fun h => Bool.noConfusion h
    cases a.store_result with
    | none => exact fun h => absurd rfl h
    | some p => exact fun _ => ⟨p, rfl⟩
  | false =>
    rw [if_neg Bool.false_ne_true]
    cases is_insert sql with
    | false => exact iff_of_true (fun h => absurd rfl h) fun h => Bool.noConfusion h
    | true =>
      rw [if_pos rfl]
      by_cases hid : a.insert_id = 0
      · refine iff_of_true ?_ fun _ => hid
        have hnull : (ResultData.key_id a.insert_id).mysql_res results = .ok .null := if_pos hid
        exact fun h => absurd hnull h
      · refine iff_of_false ?_ fun h => hid (h rfl)
        have hread : (ResultData.key_id a.insert_id).mysql_res results = .error .undefined :=
          if_neg hid
        have hne : (ResultData.key_id a.insert_id).mysql_res results ≠ .ok .null := by
          rw [hread]
          intro heq
          cases heq
        intro h
        obtain ⟨p, hp⟩ := h hne
        cases hp

theorem takesAsStored_insert_key_id_iff (a : Attempt) :
    Method.insert_key_id.TakesAsStored results (stored_data sql a) ↔
      (is_select sql = true → a.store_result = none) := by
  unfold Method.TakesAsStored stored_data
  cases is_select sql with
  | true => cases a.store_result <;> simp
  | false => cases is_insert sql <;> simp

namespace Place

variable {place : Place} {session : Session} {a : Attempt} {r : MyResult}

variable (results r) in
/-- What `select` makes of the result of a statement that succeeded. -/
theorem select_eq (hran : place.ran = some (answers, session)) (hcontrol : is_control sql = false)
    (ha : answers.success = some a) :
    ∃ result, result.status = 0 ∧ result.data = stored_data sql a ∧
      place.select results sql r = .returns (select_into results (some result) r) := by
  obtain ⟨hstatus, hdata, -⟩ := exec_sql_success hcontrol ha session
  refine ⟨_, hstatus, hdata, ?_⟩
  have hresult := (place.result_eq_iff sql _).mpr ⟨answers, session, hran, rfl⟩
  unfold Place.select
  rw [hresult]
  rfl

/-- A result set that was stored gives the number of its rows. -/
theorem select_stored (hran : place.ran = some (answers, session))
    (hcontrol : is_control sql = false) (ha : answers.success = some a)
    (hselect : is_select sql = true) {p : Nat} (hp : a.store_result = some p) :
    ∃ res', place.select results sql r =
      .returns (.ok (to_int (results p).rows.length, res')) := by
  obtain ⟨result, hstatus, hdata, heq⟩ := select_eq results r hran hcontrol ha
  rw [stored_data, if_pos hselect, hp] at hdata
  refine ⟨{ r with
    _res := .live (results p) 0, _fields := r._fields ++ (results p).fields }, heq.trans ?_⟩
  simp only [select_into, hdata, ResultData.mysql_res, run_ok_bind, MyResult.init, hstatus]
  rfl

/-- What was not stored gives -1, if anything. -/
theorem select_not_stored (hran : place.ran = some (answers, session))
    (hcontrol : is_control sql = false) (ha : answers.success = some a)
    (hselect : is_select sql = false) {n : Int32} {res' : MyResult}
    (h : place.select results sql r = .returns (.ok (n, res'))) : n = -1 := by
  obtain ⟨result, hstatus, hdata, heq⟩ := select_eq results r hran hcontrol ha
  rw [stored_data, hselect, if_neg Bool.false_ne_true] at hdata
  rw [heq, CallOutcome.returns.injEq] at h
  unfold select_into at h
  obtain ⟨mysql_res, hres, h⟩ := run_bind_eq_ok.mp h
  have hnull : mysql_res = .null := by
    rw [hdata] at hres
    cases hinsert : is_insert sql with
    | true =>
      rw [hinsert, if_pos rfl, ResultData.mysql_res] at hres
      split at hres <;> cases hres
      rfl
    | false =>
      rw [hinsert, if_neg Bool.false_ne_true] at hres
      cases hres
      rfl
  rw [hnull] at h
  cases h
  rfl

/-- The methods that do not read the pointer return the number of rows that were affected. -/
theorem affected_rows_eq (hran : place.ran = some (answers, session))
    (hcontrol : is_control sql = false) (ha : answers.success = some a) :
    place.insert sql = .returns a.affected_rows.toUInt32.toInt32 ∧
      place.update sql = .returns a.affected_rows.toUInt32.toInt32 ∧
      place.del sql = .returns a.affected_rows.toUInt32.toInt32 := by
  obtain ⟨hstatus, -, hrows⟩ := exec_sql_success hcontrol ha session
  have hresult := (place.result_eq_iff sql _).mpr ⟨answers, session, hran, rfl⟩
  have hcount : row_count_of (some (exec_sql sql answers session).2) =
      a.affected_rows.toUInt32.toInt32 := by
    rw [row_count_of, if_pos hstatus, hrows]
  have hcall : (place.result sql).map row_count_of =
      .returns a.affected_rows.toUInt32.toInt32 := by
    rw [hresult, CallOutcome.map, hcount]
  exact ⟨hcall, hcall, hcall⟩

end Place

/-! ## Where they agree -/

section agrees

variable {method : Method} {place : Place} {session : Session} {a : Attempt}

theorem produced_eq (hran : place.ran = some (answers, session)) (hcontrol : is_control sql = false)
    (ha : answers.success = some a) :
    place.produced results sql = a.store_result.map results := by
  unfold Place.produced
  rw [hran, Option.bind_some, hcontrol, if_neg Bool.false_ne_true, ha]
  rfl

/-- The rows that a `select` has returned the number of. -/
theorem Agrees.select_rows (h : Agrees results .select place sql)
    (hran : place.ran = some (answers, session)) (hcontrol : is_control sql = false)
    (ha : answers.success = some a) {p : Nat} (hp : a.store_result = some p) :
    is_select sql = true ∧ (results p).rows.length < 2 ^ 31 := by
  have hproduced : place.produced results sql = some (results p) := by
    rw [produced_eq hran hcontrol ha, hp]
    rfl
  obtain ⟨n, res', hselect, hn⟩ := h.rows rfl (results p) hproduced .new
  cases hknown : is_select sql with
  | true =>
    obtain ⟨res'', hstored⟩ := Place.select_stored (r := .new) hran hcontrol ha hknown hp
    rw [hselect, CallOutcome.returns.injEq, Except.ok.injEq, Prod.mk.injEq] at hstored
    rw [hstored.1] at hn
    exact ⟨rfl, ((to_int_add_eq_iff 0 _).mp (by rwa [Nat.zero_add])).2⟩
  | false =>
    -- it returned -1
    rw [Place.select_not_stored hran hcontrol ha hknown hselect] at hn
    have hneg : (-1 : Int32).toInt = -1 := rfl
    omega

theorem Agrees.fits (h : Agrees results method place sql)
    (hran : place.ran = some (answers, session)) (hcontrol : is_control sql = false)
    (ha : answers.success = some a) : method.Fits results sql a := by
  have htakes : method.TakesAsStored results (stored_data sql a) := by
    obtain ⟨-, hdata, -⟩ := exec_sql_success hcontrol ha session
    rw [← hdata]
    exact h.data _ ((place.result_eq_iff sql _).mpr ⟨answers, session, hran, rfl⟩)
  cases method with
  | select =>
    exact ⟨fun p hp => h.select_rows hran hcontrol ha hp, (takesAsStored_select_iff a).mp htakes⟩
  | insert_key_id => exact (takesAsStored_insert_key_id_iff a).mp htakes
  | _ => trivial

/-- The number that the caller of `insert` gets for a key was stored for one, or is zero. -/
theorem Agrees.key_id (h : Agrees results .insert_key_id place sql) {result : InnerResult}
    (hresult : place.result sql = .returns (some result)) (address : Nat → UInt64)
    (keyid : UInt64) :
    ∃ n keyid', place.insert_key_id address sql keyid = .returns (n, keyid') ∧
      (keyid' = 0 ∨ result.data = .key_id keyid') := by
  refine ⟨row_count_of (some result), result.data.to_key_id address, ?_, ?_⟩
  · unfold Place.insert_key_id
    rw [hresult]
    rfl
  · rcases h.data result hresult with hdata | hdata | ⟨keyid', hdata⟩
    · rw [hdata]
      exact .inl rfl
    · rw [hdata]
      exact .inl rfl
    · rw [hdata]
      exact .inr rfl

theorem Method.Fits.takesAsStored (h : method.Fits results sql a) :
    method.TakesAsStored results (stored_data sql a) := by
  cases method with
  | select => exact (takesAsStored_select_iff a).mpr h.2
  | insert_key_id => exact (takesAsStored_insert_key_id_iff a).mpr h
  | _ => trivial

end agrees

/-- **Two classifications of a statement.** A call takes the pointer for what it is, and a
`select` returns the number of rows, exactly if the first letters of a statement that
succeeds fit the method: those of a `SELECT` where MySQL has produced a result set and the
method is `select`, and no others that store anything. -/
theorem agrees_iff (results : Nat → ResultSet) (method : Method) (place : Place) (sql : Str) :
    Agrees results method place sql ↔
      ∀ answers session a, place.ran = some (answers, session) → is_control sql = false →
        answers.success = some a → method.Fits results sql a := by
  constructor
  · exact fun h answers session a hran hcontrol ha => h.fits hran hcontrol ha
  · intro h
    constructor
    · intro result hresult
      obtain ⟨answers, session, hran, rfl⟩ := (place.result_eq_iff sql result).mp hresult
      by_cases hnull : is_control sql = true ∨ answers.success = none
      · rw [exec_sql_null hnull]
        exact takesAsStored_null method
      · obtain ⟨hcontrol, hsuccess⟩ := not_or.mp hnull
        rw [Bool.not_eq_true] at hcontrol
        obtain ⟨a, ha⟩ := Option.ne_none_iff_exists'.mp hsuccess
        rw [(exec_sql_success hcontrol ha session).2.1]
        exact (h answers session a hran hcontrol ha).takesAsStored
    · rintro rfl set hset res
      obtain ⟨⟨answers, session⟩, hran, hset⟩ := Option.bind_eq_some_iff.mp hset
      rw [Option.ite_none_left_eq_some, Bool.not_eq_true] at hset
      obtain ⟨hcontrol, hset⟩ := hset
      obtain ⟨p, hp, rfl⟩ := Option.map_eq_some_iff.mp hset
      obtain ⟨a, ha, hp⟩ := Option.bind_eq_some_iff.mp hp
      obtain ⟨hknown, hrows⟩ := (h answers session a hran hcontrol ha).1 p hp
      obtain ⟨res', hselect⟩ := Place.select_stored (r := res) hran hcontrol ha hknown hp
      refine ⟨_, res', hselect, ?_⟩
      have hint := (to_int_add_eq_iff 0 (results p).rows.length).mpr ⟨dvd_zero _, hrows⟩
      rwa [Nat.zero_add] at hint

/-- MySQL's answers to a text that it carries out at once. -/
def carried_out (insert_id : UInt64) (store_result : Option Nat) : Place :=
  .outside (.answered ⟨true, [], ⟨true, insert_id, 1, store_result, []⟩,
    ⟨false, 0, 0, none, []⟩, ⟨false, 0, 0, none, []⟩⟩ .new)

/-- A blank in front of the `SELECT`, and an `INSERT` that is given to `select`. -/
theorem select_astray :
    ¬ Agrees (fun _ => column [lit "1"]) .select (carried_out 0 (some 0)) (lit " SELECT 1") ∧
      ¬ Agrees (fun _ => column []) .select (carried_out 7 none) (lit "INSERT INTO t VALUES (1)") := by
  constructor
  · intro h
    obtain ⟨hrows, -⟩ := h.fits (a := ⟨true, 0, 1, some 0, []⟩) rfl rfl rfl
    exact absurd (hrows 0 rfl).1 (by decide)
  · intro h
    obtain ⟨-, hid⟩ := h.fits (a := ⟨true, 7, 1, none, []⟩) rfl rfl rfl
    exact absurd (hid rfl) (by decide)

end Rellaf.Mysql
