/-
One transaction on its worker thread: `begin`, statements, `commit` or `rollback`.

`BEGIN` turns autocommit off on the worker's connection. A statement that fails
is tried again on a new connection, and nobody turns autocommit off on that one.
So a retry inside a transaction drops what the transaction has done so far, and
from then on every statement takes effect at once. `run_tasks_off` and
`run_tasks_on` say exactly what takes effect; `tx_run_atomic_iff` is what that
leaves of the promise of a transaction.
-/
import Rellaf.MysqlWorker

set_option autoImplicit false

open Rellaf.Cpp

namespace Rellaf.Mysql

/-! ## A statement -/

/-- A statement that goes to `mysql_real_query`: `thd_routine` treats texts that
begin like one of three words in another way. -/
structure Statement where
  sql : Str
  not_begin : strncasecmp_eq sql (lit "BEGIN") 5 = false
  not_commit : strncasecmp_eq sql (lit "COMMIT") 6 = false
  not_rollback : strncasecmp_eq sql (lit "ROLLBACK") 8 = false

/-- One of the three attempts succeeds. -/
def Answers.goes_through (answers : Answers) : Bool :=
  answers.first.ok || answers.second.ok || answers.third.ok

theorem Session.retry_retry (s : Session) : s.retry.retry = s.retry := rfl

/-- A statement leaves the session as its first attempt does when that succeeds;
otherwise the connection is a new one, and the statement may go through on it. -/
theorem exec_sql_session (st : Statement) (answers : Answers) (s : Session) :
    (exec_sql st.sql answers s).1 =
      if answers.first.ok then s.query st.sql
      else if answers.goes_through then s.retry.query st.sql
      else s.retry := by
  simp only [exec_sql, st.not_begin, st.not_commit, st.not_rollback, query_loop,
    Bool.false_eq_true, if_false]
  cases h₁ : answers.first.ok with
  | true => rfl
  | false =>
    cases h₂ : answers.second.ok with
    | true => simp [Answers.goes_through, h₁, h₂]
    | false =>
      -- the third attempt runs on the connection of the second retry
      cases h₃ : answers.third.ok with
      | true => simp [Answers.goes_through, h₁, h₂, h₃, Session.retry_retry]
      | false => simp [Answers.goes_through, h₁, h₂, h₃, Session.retry_retry]

/-- The loop ends with status 0 exactly when an attempt succeeds. -/
theorem query_loop_status_iff (sql : Str) (attempts : List Attempt) (s : Session)
    (result : InnerResult) :
    (query_loop sql attempts s result).2.status = 0 ↔
      (∃ a ∈ attempts, a.ok = true) ∨ attempts = [] ∧ result.status = 0 := by
  induction attempts generalizing s result with
  | nil => simp [query_loop]
  | cons a attempts ih =>
    cases hok : a.ok with
    | true =>
      have hstatus : (query_loop sql (a :: attempts) s result).2.status = 0 := by
        simp only [query_loop, hok, if_true]
        cases strncasecmp_eq sql (lit "INSERT") 6 <;> cases strncasecmp_eq sql (lit "SELECT") 6 <;> rfl
      simp [hstatus, hok]
    | false =>
      simp only [query_loop, hok, Bool.false_eq_true, if_false]
      rw [ih]
      simp [hok]

/-- A statement reports success exactly when an attempt succeeds. -/
theorem exec_sql_status_iff (st : Statement) (answers : Answers) (s : Session) :
    (exec_sql st.sql answers s).2.status = 0 ↔ answers.goes_through = true := by
  simp only [exec_sql, st.not_begin, st.not_commit, st.not_rollback, Bool.false_eq_true, if_false]
  rw [query_loop_status_iff]
  simp [Answers.goes_through, or_assoc]

/-! ## The statements of a transaction -/

/-- What the worker does for statements that come one after the other: the session
after them, and their results. -/
def run_tasks : Session → List (Statement × Answers) → Session × List InnerResult
  | session, [] => (session, [])
  | session, (st, answers) :: tasks =>
    let (session, result) := exec_sql st.sql answers session
    let (session, results) := run_tasks session tasks
    (session, result :: results)

@[simp] theorem run_tasks_nil (s : Session) : run_tasks s [] = (s, []) := rfl

theorem run_tasks_cons (s : Session) (st : Statement) (answers : Answers)
    (tasks : List (Statement × Answers)) :
    run_tasks s ((st, answers) :: tasks) =
      ((run_tasks (exec_sql st.sql answers s).1 tasks).1,
        (exec_sql st.sql answers s).2 :: (run_tasks (exec_sql st.sql answers s).1 tasks).2) := rfl

/-- The texts of the statements, in order. -/
def texts (tasks : List (Statement × Answers)) : List Str := tasks.map (·.1.sql)

/-- The statements that go through, in order. -/
def through (tasks : List (Statement × Answers)) : List (Statement × Answers) :=
  tasks.filter (·.2.goes_through)

/-- The statements from the first one on that needs a second attempt. -/
def from_retry (tasks : List (Statement × Answers)) : List (Statement × Answers) :=
  tasks.dropWhile (·.2.first.ok)

/-- All statements report success exactly when all go through. -/
theorem run_tasks_status_iff (s : Session) (tasks : List (Statement × Answers)) :
    (∀ r ∈ (run_tasks s tasks).2, r.status = 0) ↔ ∀ t ∈ tasks, t.2.goes_through = true := by
  induction tasks generalizing s with
  | nil => simp
  | cons t tasks ih =>
    obtain ⟨st, answers⟩ := t
    rw [run_tasks_cons, List.forall_mem_cons, List.forall_mem_cons, exec_sql_status_iff, ih]

/-- Where every statement commits by itself, what goes through takes effect. -/
theorem run_tasks_on (committed : List Str) (tasks : List (Statement × Answers)) :
    (run_tasks ⟨true, [], committed⟩ tasks).1
      = ⟨true, [], committed ++ texts (through tasks)⟩ := by
  induction tasks generalizing committed with
  | nil => simp [texts, through]
  | cons t tasks ih =>
    obtain ⟨st, answers⟩ := t
    have hexec : (exec_sql st.sql answers ⟨true, [], committed⟩).1
        = ⟨true, [], committed ++ texts (through [(st, answers)])⟩ := by
      rw [exec_sql_session]
      cases hthrough : answers.goes_through with
      | true =>
        cases answers.first.ok <;> simp [texts, through, hthrough, Session.query, Session.retry,
          Session.close, Session.connect]
      | false =>
        have hfirst : answers.first.ok = false := by
          simp only [Answers.goes_through, Bool.or_eq_false_iff] at hthrough
          exact hthrough.1.1
        simp [texts, through, hthrough, hfirst, Session.retry, Session.close, Session.connect]
    have htexts : texts (through ((st, answers) :: tasks))
        = texts (through [(st, answers)]) ++ texts (through tasks) := by
      rw [texts, texts, texts, ← List.map_append, through, through, through, ← List.filter_append]
      rfl
    rw [run_tasks_cons, hexec, ih, htexts, List.append_assoc]

/-- Inside a transaction statements wait for its end, up to the first retry: that
drops what waits, and what goes through from then on takes effect. -/
theorem run_tasks_off (pending committed : List Str) (tasks : List (Statement × Answers)) :
    (run_tasks ⟨false, pending, committed⟩ tasks).1 =
      if from_retry tasks = [] then ⟨false, pending ++ texts tasks, committed⟩
      else ⟨true, [], committed ++ texts (through (from_retry tasks))⟩ := by
  induction tasks generalizing pending with
  | nil => simp [texts, from_retry]
  | cons t tasks ih =>
    obtain ⟨st, answers⟩ := t
    rw [run_tasks_cons, exec_sql_session]
    cases hfirst : answers.first.ok with
    | true =>
      have hfrom : from_retry ((st, answers) :: tasks) = from_retry tasks := by
        simp [from_retry, hfirst]
      have hquery : (⟨false, pending, committed⟩ : Session).query st.sql
          = ⟨false, pending ++ [st.sql], committed⟩ := rfl
      rw [if_pos rfl, hquery, ih, hfrom]
      simp [texts]
    | false =>
      -- from here on the session is that of a new connection, with nothing waiting
      have hfrom : from_retry ((st, answers) :: tasks) = (st, answers) :: tasks := by
        simp [from_retry, hfirst]
      have hon := run_tasks_on committed ((st, answers) :: tasks)
      rw [run_tasks_cons, exec_sql_session, hfirst] at hon
      rw [hfrom, if_neg (List.cons_ne_nil _ _)]
      exact hon

/-! ## The transaction -/

/-- The three things a transaction reports, and the session it leaves behind. -/
structure TxRun where
  begin_ : InnerResult
  results : List InnerResult
  end_ : InnerResult
  session : Session

/-- `begin`, the statements, and `tx_end` with `COMMIT` or `ROLLBACK`; then the
thread leaves its loop and closes its connection. -/
def tx_run (begin_ : Answers) (tasks : List (Statement × Answers)) (sql : Str)
    (end_ : Answers) : TxRun :=
  let (session, began) := exec_sql (lit "BEGIN") begin_ .new
  let (session, results) := run_tasks session tasks
  let (session, ended) := exec_sql sql end_ session
  ⟨began, results, ended, session.close⟩

theorem control_result_status_iff (answers : Answers) :
    (control_result answers).status = 0 ↔ answers.control_ok = true := by
  cases h : answers.control_ok <;> simp [control_result, h, InnerResult.new]

theorem exec_sql_begin (answers : Answers) :
    exec_sql (lit "BEGIN") answers .new
      = (⟨!answers.control_ok, [], []⟩, control_result answers) := by
  cases h : answers.control_ok <;> simp [exec_sql, h] <;> rfl

theorem exec_sql_commit {answers : Answers} (h : answers.control_ok = true) (s : Session) :
    (exec_sql (lit "COMMIT") answers s).1 = s.commit := by
  rw [exec_sql, h]
  rfl

theorem exec_sql_rollback {answers : Answers} (h : answers.control_ok = true) (s : Session) :
    (exec_sql (lit "ROLLBACK") answers s).1 = s.rollback := by
  rw [exec_sql, h]
  rfl

/-- What `begin` reports, and what `commit` and `rollback` report. -/
theorem tx_run_reports {sql : Str} (hsql : sql = lit "COMMIT" ∨ sql = lit "ROLLBACK")
    (begin_ end_ : Answers) (tasks : List (Statement × Answers)) :
    (tx_run begin_ tasks sql end_).begin_ = control_result begin_ ∧
      (tx_run begin_ tasks sql end_).end_ = control_result end_ := by
  rcases hsql with rfl | rfl
  · exact ⟨rfl, rfl⟩
  · exact ⟨rfl, rfl⟩

/-- The statements that run on a connection that commits by itself. -/
def exposed (began : Bool) (tasks : List (Statement × Answers)) : List (Statement × Answers) :=
  if began then from_retry tasks else tasks

/-- A transaction that commits, with everything reporting success: what takes
effect is what runs from the first retry on, or everything when there is none. -/
theorem tx_run_commit (begin_ end_ : Answers) (tasks : List (Statement × Answers))
    (hbegin : begin_.control_ok = true) (hend : end_.control_ok = true)
    (hthrough : ∀ t ∈ tasks, t.2.goes_through = true) :
    (tx_run begin_ tasks (lit "COMMIT") end_).session.committed =
      if from_retry tasks = [] then texts tasks else texts (from_retry tasks) := by
  have hall : through (from_retry tasks) = from_retry tasks := by
    refine List.filter_eq_self.mpr ?_
    intro t ht
    exact hthrough t ((List.dropWhile_sublist _).subset ht)
  have hsession : (tx_run begin_ tasks (lit "COMMIT") end_).session
      = ((run_tasks ⟨false, [], []⟩ tasks).1.commit).close := by
    rw [tx_run, exec_sql_begin, hbegin]
    exact congrArg Session.close (exec_sql_commit hend _)
  rw [hsession, run_tasks_off, hall]
  split <;> simp [Session.commit, Session.close]

/-- A transaction that rolls back: what goes through where nothing waits for the
rollback has taken effect. -/
theorem tx_run_rollback (begin_ end_ : Answers) (tasks : List (Statement × Answers))
    (hend : end_.control_ok = true) :
    (tx_run begin_ tasks (lit "ROLLBACK") end_).session.committed =
      texts (through (exposed begin_.control_ok tasks)) := by
  have hsession : (tx_run begin_ tasks (lit "ROLLBACK") end_).session
      = ((run_tasks ⟨!begin_.control_ok, [], []⟩ tasks).1.rollback).close := by
    rw [tx_run, exec_sql_begin]
    exact congrArg Session.close (exec_sql_rollback hend _)
  rw [hsession]
  cases begin_.control_ok with
  | false =>
    rw [Bool.not_false, run_tasks_on]
    rfl
  | true =>
    rw [Bool.not_true, run_tasks_off]
    by_cases hnil : from_retry tasks = []
    · rw [if_pos hnil, exposed, if_pos rfl, hnil]
      rfl
    · rw [if_neg hnil]
      rfl

/-- Only a retry of the first statement leaves all statements to run behind it. -/
theorem from_retry_eq_self_iff (tasks : List (Statement × Answers)) :
    (if from_retry tasks = [] then texts tasks else texts (from_retry tasks)) = texts tasks ↔
      (∀ t ∈ tasks, t.2.first.ok = true) ∨ ∃ t ∈ tasks.head?, t.2.first.ok = false := by
  have hnil : from_retry tasks = [] ↔ ∀ t ∈ tasks, t.2.first.ok = true :=
    List.dropWhile_eq_nil_iff
  by_cases hretry : from_retry tasks = []
  · rw [if_pos hretry]
    exact ⟨fun _ => .inl (hnil.mp hretry), fun _ => rfl⟩
  · rw [if_neg hretry]
    have hall : ¬ ∀ t ∈ tasks, t.2.first.ok = true := mt hnil.mpr hretry
    cases tasks with
    | nil => exact absurd (by simp) hall
    | cons t tasks =>
      cases hfirst : t.2.first.ok with
      | false =>
        have hfrom : from_retry (t :: tasks) = t :: tasks := by simp [from_retry, hfirst]
        simp [hfrom, hfirst]
      | true =>
        have hfrom : from_retry (t :: tasks) = from_retry tasks := by simp [from_retry, hfirst]
        have hlt : (texts (from_retry tasks)).length < (texts (t :: tasks)).length := by
          have hle := (List.dropWhile_sublist (l := tasks) fun t => t.2.first.ok).length_le
          rw [texts, texts, List.length_map, List.length_map, List.length_cons]
          exact Nat.lt_succ_of_le hle
        have hne : texts (from_retry (t :: tasks)) ≠ texts (t :: tasks) := by
          rw [hfrom]
          intro h
          rw [h] at hlt
          exact Nat.lt_irrefl _ hlt
        constructor
        · intro h
          exact absurd h hne
        · rintro (h | ⟨_, ⟨⟩, h⟩)
          · exact absurd h hall
          · rw [hfirst] at h
            cases h

/-- **When a transaction is one.** When everything reports success, all statements
have taken effect exactly when no first attempt failed or already the one of the
first statement did. When the rollback reports success, none has exactly when no
statement went through after `BEGIN` or an attempt had failed. -/
theorem tx_run_atomic_iff (begin_ end_ : Answers) (tasks : List (Statement × Answers)) :
    ((tx_run begin_ tasks (lit "COMMIT") end_).begin_.status = 0 →
      (∀ r ∈ (tx_run begin_ tasks (lit "COMMIT") end_).results, r.status = 0) →
      (tx_run begin_ tasks (lit "COMMIT") end_).end_.status = 0 →
      ((tx_run begin_ tasks (lit "COMMIT") end_).session.committed = texts tasks ↔
        (∀ t ∈ tasks, t.2.first.ok = true) ∨ ∃ t ∈ tasks.head?, t.2.first.ok = false)) ∧
    ((tx_run begin_ tasks (lit "ROLLBACK") end_).end_.status = 0 →
      ((tx_run begin_ tasks (lit "ROLLBACK") end_).session.committed = [] ↔
        ∀ t ∈ exposed begin_.control_ok tasks, t.2.goes_through = false)) := by
  refine ⟨?_, ?_⟩
  · intro hbegin hresults hend
    obtain ⟨hreport, hreport'⟩ := tx_run_reports (.inl rfl) begin_ end_ tasks
    rw [hreport, control_result_status_iff] at hbegin
    rw [hreport', control_result_status_iff] at hend
    have hthrough := (run_tasks_status_iff _ tasks).mp hresults
    rw [tx_run_commit begin_ end_ tasks hbegin hend hthrough, from_retry_eq_self_iff]
  · intro hend
    obtain ⟨-, hreport⟩ := tx_run_reports (.inr rfl) begin_ end_ tasks
    rw [hreport, control_result_status_iff] at hend
    rw [tx_run_rollback begin_ end_ tasks hend, texts, List.map_eq_nil_iff, through,
      List.filter_eq_nil_iff]
    simp

/-! ## One retry -/

/-- An attempt that succeeds, or fails because the server has gone away. -/
def attempt_of (ok : Bool) : Attempt :=
  ⟨ok, 0, 1, none, if ok then [] else lit "MySQL server has gone away"⟩

/-- All calls succeed, only the first attempt may not. -/
def answers_of (first_ok : Bool) : Answers :=
  ⟨true, [], attempt_of first_ok, attempt_of true, attempt_of true⟩

def update_a : Statement := ⟨lit "UPDATE a", by decide, by decide, by decide⟩

def update_b : Statement := ⟨lit "UPDATE b", by decide, by decide, by decide⟩

/-- Without a retry the two updates take effect together, or not at all. -/
theorem tx_run_atomic_iff_no_retry :
    (tx_run (answers_of true) [(update_a, answers_of true), (update_b, answers_of true)]
        (lit "COMMIT") (answers_of true)).session.committed = [lit "UPDATE a", lit "UPDATE b"] ∧
    (tx_run (answers_of true) [(update_a, answers_of true), (update_b, answers_of true)]
        (lit "ROLLBACK") (answers_of true)).session.committed = [] := by
  have hatomic := tx_run_atomic_iff (answers_of true) (answers_of true)
    [(update_a, answers_of true), (update_b, answers_of true)]
  exact ⟨(hatomic.1 rfl (by decide) rfl).mpr (.inl (by decide)), (hatomic.2 rfl).mpr (by decide)⟩

/-- With a retry of the second update, the commit reports success and the first
update is lost; with a retry of the first, the rollback reports success and both
updates have taken effect. -/
theorem tx_run_retry :
    ((tx_run (answers_of true) [(update_a, answers_of true), (update_b, answers_of false)]
        (lit "COMMIT") (answers_of true)).begin_.status = 0 ∧
      (∀ r ∈ (tx_run (answers_of true) [(update_a, answers_of true), (update_b, answers_of false)]
        (lit "COMMIT") (answers_of true)).results, r.status = 0) ∧
      (tx_run (answers_of true) [(update_a, answers_of true), (update_b, answers_of false)]
        (lit "COMMIT") (answers_of true)).end_.status = 0 ∧
      (tx_run (answers_of true) [(update_a, answers_of true), (update_b, answers_of false)]
        (lit "COMMIT") (answers_of true)).session.committed = [lit "UPDATE b"]) ∧
    (tx_run (answers_of true) [(update_a, answers_of false), (update_b, answers_of true)]
        (lit "ROLLBACK") (answers_of true)).end_.status = 0 ∧
      (tx_run (answers_of true) [(update_a, answers_of false), (update_b, answers_of true)]
        (lit "ROLLBACK") (answers_of true)).session.committed
          = [lit "UPDATE a", lit "UPDATE b"] := by
  exact ⟨⟨rfl, by decide, rfl, by decide⟩, rfl, by decide⟩

end Rellaf.Mysql
