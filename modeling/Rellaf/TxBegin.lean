/-
What a `begin` that returns false leaves behind.

Nothing, if no worker could be created. But the worker that was created runs on when MySQL
refuses to turn autocommit off, and `begin` has put its transaction into `_s_tx_pool`
before it looks at the result (`begin_restores_iff`). It stays there until a call ends it
(`refused_stays`), and a `MyTxEx` that was told false makes no such call.
-/
import Rellaf.MysqlTransaction
import Rellaf.TxPool

set_option autoImplicit false

open Rellaf.Cpp

namespace Rellaf.Mysql.TxPool

/-- There is a worker at the address, and it has not left its loop. -/
def State.Runs (s : State) (p : Nat) (t : TxThread) : Prop :=
  s.heap p = some t ∧ t.running = true

/-- The same transactions are registered and the same workers run. -/
structure SamePool (s s' : State) : Prop where
  entries : s'._s_tx_pool = s._s_tx_pool
  workers : ∀ p t, s'.Runs p t ↔ s.Runs p t

/-- If the call returns false, it has left the pool as it was. -/
def Restores (s : State) (tx : SqlTx) (world : World) : Prop :=
  ∀ s' tx', s.begin_ tx world = (s', .returns (false, tx')) → SamePool s s'

/-- A worker comes to the `BEGIN`, and MySQL does not turn autocommit off. -/
def Refused (world : World) : Prop :=
  world.thread.isSome = true ∧ world.added = true ∧
    ∃ answers, world.work = .exec answers ∧ answers.control_ok = false

variable (s : State) (tx : SqlTx) {world : World}

/-- Without a worker, a number was drawn and nothing else is done. -/
theorem begin_no_worker (hthread : world.thread = none) :
    s.begin_ tx world = (s.atomic_inc, .returns (false, tx)) := by
  unfold State.begin_
  rw [hthread]

/-- With an answer to the `BEGIN`, the worker runs and its transaction is registered,
whatever the answer is. -/
theorem begin_answered {p : Nat} (hthread : world.thread = some p) (hadded : world.added = true)
    {answers : Answers} (hwork : world.work = .exec answers) :
    ∃ s' t, s.begin_ tx world =
        (s', .returns (answers.control_ok, ⟨s.atomic_inc._action_idx, some p⟩)) ∧
      s'.heap = Function.update s.heap p (some t) ∧ t.running = true ∧
      (s'._s_tx_pool s.atomic_inc._action_idx).isSome = true := by
  have hresult : (exec_sql (lit "BEGIN") answers .new).2 = control_result answers := by
    rw [exec_sql_begin]
  have hok : decide ((control_result answers).status = 0) = answers.control_ok := by
    rw [Bool.decide_congr (control_result_status_iff answers), Bool.decide_eq_true]
  let t : TxThread := ⟨s.created, true, (exec_sql (lit "BEGIN") answers .new).1⟩
  let entry : SqlTx := ⟨s.atomic_inc._action_idx, some p⟩
  let s₁ : State := ((s.atomic_inc.create.set_thread p t).insert entry).note
    (.begun entry.tx_id t.serial)
  refine ⟨s₁, t, ?_, rfl, rfl, ?_⟩
  · unfold State.begin_
    rw [hthread]
    simp only [hadded, if_true, hwork, TxThread.work, hresult, hok]
    rfl
  · -- an entry that has the id already stays
    change (Function.update s._s_tx_pool entry.tx_id
      ((s._s_tx_pool entry.tx_id).or (some entry)) entry.tx_id).isSome = true
    rw [Function.update_self, Option.isSome_or, Option.isSome_some, Bool.or_true]

/-- There are two ways to the value false. -/
theorem begin_false {s' : State} {tx' : SqlTx}
    (h : s.begin_ tx world = (s', .returns (false, tx'))) :
    (world.thread = none ∧ s' = s.atomic_inc) ∨ Refused world := by
  cases hthread : world.thread with
  | none =>
    rw [begin_no_worker s tx hthread, Prod.mk.injEq] at h
    exact .inl ⟨rfl, h.1.symm⟩
  | some p =>
    right
    cases hadded : world.added with
    | false =>
      -- the latch is never counted down
      unfold State.begin_ at h
      simp only [hthread, hadded, Bool.false_eq_true, if_false] at h
      cases h
    | true =>
      cases hwork : world.work with
      | no_result =>
        -- `result` is null
        unfold State.begin_ at h
        simp only [hthread, hadded, if_true, hwork] at h
        cases h
      | exec answers =>
        obtain ⟨s'', t, hanswered, -⟩ := begin_answered s tx hthread hadded hwork
        rw [hanswered, Prod.mk.injEq, CallOutcome.returns.injEq, Prod.mk.injEq] at h
        exact ⟨by rw [hthread]; rfl, hadded, answers, hwork, h.2.1⟩

/-- A worker that was not there runs. -/
theorem Refused.not_restores (h : Refused world)
    (hfresh : ∀ p, world.thread = some p → s.heap p = none) : ¬ Restores s tx world := by
  obtain ⟨hthread, hadded, answers, hwork, hrefused⟩ := h
  obtain ⟨p, hp⟩ := Option.isSome_iff_exists.mp hthread
  obtain ⟨s', t, hbegin, hheap, hruns, -⟩ := begin_answered s tx hp hadded hwork
  rw [hrefused] at hbegin
  intro hrestores
  have hnew : s'.Runs p t := ⟨by rw [hheap, Function.update_self], hruns⟩
  obtain ⟨hold, -⟩ := ((hrestores s' _ hbegin).workers p t).mp hnew
  rw [hfresh p hp] at hold
  cases hold

/-- **What a failed `begin` leaves.** The pool is as it was, unless MySQL refused. -/
theorem begin_restores_iff (hfresh : ∀ p, world.thread = some p → s.heap p = none) :
    Restores s tx world ↔ ¬ Refused world := by
  constructor
  · exact fun h hrefused => hrefused.not_restores s tx hfresh h
  · intro hrefused s' tx' hbegin
    obtain ⟨-, rfl⟩ := (begin_false s tx hbegin).resolve_right hrefused
    exact ⟨rfl, fun _ _ => Iff.rfl⟩

/-- MySQL's answers to a `BEGIN`. -/
def begin_answers (ok : Bool) : Answers :=
  ⟨ok, [], ⟨false, 0, 0, none, []⟩, ⟨false, 0, 0, none, []⟩, ⟨false, 0, 0, none, []⟩⟩

/-- The second transaction of a process, for which there is no worker: the first one stays
as it is. -/
theorem begin_restores_iff_second :
    let s := (State.new.begin_ .new ⟨some 0, true, .exec (begin_answers true), true⟩).1
    s.Runs 0 ⟨0, true, (exec_sql (lit "BEGIN") (begin_answers true) .new).1⟩ ∧
      (s._s_tx_pool 1).isSome = true ∧
      Restores s .new ⟨none, true, .exec (begin_answers true), true⟩ := by
  refine ⟨⟨rfl, rfl⟩, rfl, (begin_restores_iff _ _ fun p hp => by cases hp).mpr ?_⟩
  rintro ⟨hthread, -⟩
  cases hthread

/-- A first one for which MySQL refuses. -/
theorem begin_keeps_worker :
    ¬ Restores .new .new ⟨some 0, true, .exec (begin_answers false), true⟩ :=
  Refused.not_restores .new .new ⟨rfl, rfl, begin_answers false, rfl, rfl⟩ fun _ _ => rfl

/-! ## What becomes of the transaction -/

/-- The call ends the transaction of the id. -/
def Call.Ends (tx_id : UInt64) : Call → Prop
  | .commit tx | .rollback tx => tx.tx_id = tx_id
  | .begin_ _ | .tx_execute _ _ _ | .fetch_thread => False

variable {s} {tx_id : UInt64}

theorem begin_keeps (tx : SqlTx) (world : World) (hentry : (s._s_tx_pool tx_id).isSome = true) :
    ((s.begin_ tx world).1._s_tx_pool tx_id).isSome = true := by
  have hinsert : ∀ entry : SqlTx, ((s.insert entry)._s_tx_pool tx_id).isSome = true := by
    intro entry
    by_cases hid : tx_id = entry.tx_id
    · subst hid
      simp [State.insert]
    · simp [State.insert, hid, hentry]
  unfold State.begin_
  dsimp only
  split
  · exact hentry
  · split
    · split <;> exact hinsert _
    · exact hentry

/-- A transaction stays registered until a call ends it. -/
theorem step_keeps {s' : State} {e : Call × World} (hentry : (s._s_tx_pool tx_id).isSome = true)
    (hends : ¬ e.1.Ends tx_id) (h : step s e = some s') :
    (s'._s_tx_pool tx_id).isSome = true := by
  obtain ⟨call, world⟩ := e
  rw [step, Option.ite_none_left_eq_some] at h
  obtain ⟨-, h⟩ := h
  cases call with
  | begin_ tx =>
    rw [Option.ite_none_left_eq_some] at h
    cases h.2
    exact begin_keeps tx world hentry
  | tx_execute tx sql result_ptr =>
    cases h
    unfold settle
    obtain ⟨-, hpool⟩ := State.tx_execute_frame (s := s) tx sql result_ptr world
    rw [hpool]
    exact hentry
  | commit tx =>
    cases h
    unfold settle State.commit
    obtain ⟨-, hpool⟩ := State.tx_end_frame (s := s) tx (lit "COMMIT") world
    rw [hpool tx_id fun hid => hends hid.symm]
    exact hentry
  | rollback tx =>
    cases h
    unfold settle State.rollback
    obtain ⟨-, hpool⟩ := State.tx_end_frame (s := s) tx (lit "ROLLBACK") world
    rw [hpool tx_id fun hid => hends hid.symm]
    exact hentry
  | fetch_thread =>
    cases h
    exact hentry

/-- So it does over every run without such a call. -/
theorem run_keeps {s' : State} {calls : List (Call × World)}
    (hentry : (s._s_tx_pool tx_id).isSome = true)
    (hends : machine.Meets (fun _ e => ¬ e.1.Ends tx_id) s calls)
    (hrun : machine.run s calls = some s') : (s'._s_tx_pool tx_id).isSome = true :=
  machine.run_preserves_of_meets (P := fun s => (s._s_tx_pool tx_id).isSome = true)
    (fun _ _ _ hentry hends h => step_keeps hentry hends h) hentry hends hrun

/-- The transaction of a `begin` that was refused: only a call with its id ends it. -/
theorem refused_stays {p : Nat} (tx : SqlTx) (hthread : world.thread = some p)
    (hadded : world.added = true) {answers : Answers} (hwork : world.work = .exec answers)
    (hrefused : answers.control_ok = false) :
    ∃ s' tx', s.begin_ tx world = (s', .returns (false, tx')) ∧ ∀ calls s'',
      machine.Meets (fun _ e => ¬ e.1.Ends tx'.tx_id) s' calls →
      machine.run s' calls = some s'' → (s''._s_tx_pool tx'.tx_id).isSome = true := by
  obtain ⟨s', t, hbegin, -, -, hentry⟩ := begin_answered s tx hthread hadded hwork
  rw [hrefused] at hbegin
  exact ⟨s', _, hbegin, fun calls s'' hends hrun => run_keeps hentry hends hrun⟩

end Rellaf.Mysql.TxPool
