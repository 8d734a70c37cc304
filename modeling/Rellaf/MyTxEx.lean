/-
`MyTxEx`, the guard that ends a transaction with its scope.

The guard sends its `COMMIT` or `ROLLBACK` behind a compare-and-swap of
`_is_begin` from true to false, and nothing ever makes that flag true: the
constructor only sets `_init`. `is_begin_false` is the invariant; from it, no
life of a guard sends anything, and `commit()` says true all the same.
-/
import Rellaf.Cpp

set_option autoImplicit false

open Rellaf.Cpp

namespace Rellaf.Mysql

/-! ## The pool, as the guard sees it -/

/-- What the guard's `SqlTx` finds in the pool: whether its id is in `_s_tx_pool`,
and what was sent to its worker to end it, with the success it reported. -/
structure TxEntry where
  active : Bool
  sent : List (Str × Bool)
  deriving DecidableEq, Repr

/-- How `begin` goes: no thread for the transaction, or a thread that answers. -/
inductive BeginAnswer where
  | no_thread
  | answered (ok : Bool)
  deriving DecidableEq, Repr

/-- `MysqlSimplePool::begin` -/
def TxEntry.begin_ : BeginAnswer → Bool × TxEntry
  | .no_thread => (false, ⟨false, []⟩)
  | .answered ok => (ok, ⟨true, []⟩)

/-- `MysqlSimplePool::tx_end`; `ok` is what the worker reports. -/
def TxEntry.tx_end (entry : TxEntry) (sql : Str) (ok : Bool) : Bool × TxEntry :=
  if entry.active then (ok, ⟨false, entry.sent ++ [(sql, ok)]⟩) else (false, entry)

/-! ## The guard -/

/-- `RELLAF_ATOMIC_CAS`: whether the value was the old one, and the value after. -/
def cas (it old new : Bool) : Bool × Bool := if it = old then (true, new) else (false, it)

/-- A guard and the entry of its transaction. `_done` is what the callback returns,
and `done_ret` what the callers' out-parameters got from it. -/
structure MyTxEx where
  _init : Bool
  _is_begin : Bool
  _done : Option Int
  done_ret : List Int
  entry : TxEntry
  deriving DecidableEq, Repr

namespace MyTxEx

/-- The constructor. -/
def construct (answer : BeginAnswer) : MyTxEx :=
  let (swapped, init) := cas false false true
  if swapped then
    let (ok, entry) := TxEntry.begin_ answer
    ⟨ok, false, none, [], entry⟩
  else ⟨init, false, none, [], ⟨false, []⟩⟩

variable (g : MyTxEx)

def set_done (ret : Int) : MyTxEx := { g with _done := some ret }

/-- `rollback()`: the value returned and the guard; `ok` is what the worker reports
if it is asked. -/
def rollback (ok : Bool) : Bool × MyTxEx :=
  if !g._init then (false, g)
  else
    let (swapped, is_begin) := cas g._is_begin true false
    let g := { g with _is_begin := is_begin }
    if swapped then
      let (ret, entry) := g.entry.tx_end (lit "ROLLBACK") ok
      (ret, { g with entry := entry })
    else (true, g)

/-- `commit(done_ret)` -/
def commit (ok : Bool) : Bool × MyTxEx :=
  if !g._init then (false, g)
  else
    let (swapped, is_begin) := cas g._is_begin true false
    let g := { g with _is_begin := is_begin }
    if swapped then
      let (ret, entry) := g.entry.tx_end (lit "COMMIT") ok
      let g := { g with entry := entry }
      if !ret then (false, { g with _is_begin := false })
      else
        match g._done with
        | some ret => (true, { g with done_ret := g.done_ret ++ [ret] })
        | none => (true, g)
    else (true, g)

end MyTxEx

/-! ## The life of a guard -/

/-- A call on the guard, with what the worker reports if it is asked. -/
inductive GuardCall where
  | commit (ok : Bool)
  | rollback (ok : Bool)
  | set_done (ret : Int)
  deriving DecidableEq, Repr

/-- The value a call returns, and the guard after it. -/
def MyTxEx.call (g : MyTxEx) : GuardCall → Bool × MyTxEx
  | .commit ok => g.commit ok
  | .rollback ok => g.rollback ok
  | .set_done ret => (true, g.set_done ret)

/-- The guard after a sequence of calls. -/
def MyTxEx.calls (g : MyTxEx) (cs : List GuardCall) : MyTxEx :=
  cs.foldl (fun g c => (g.call c).2) g

/-- The destructor is a `rollback()`. -/
def MyTxEx.destroy (g : MyTxEx) (ok : Bool) : MyTxEx := (g.rollback ok).2

/-- What a guard promises for a life of `cs` calls and its destruction, beginning
as `g`. -/
structure EndsOnce (g : MyTxEx) (cs : List GuardCall) (last : Bool) : Prop where
  /-- one `COMMIT` or `ROLLBACK` is sent -/
  once : ((g.calls cs).destroy last).entry.sent.length = 1
  /-- a `commit()` that returns true has had its `COMMIT` carried out -/
  commit_true : ∀ before ok after, cs = before ++ .commit ok :: after →
    ((g.calls before).commit ok).1 = true →
      (lit "COMMIT", true) ∈ ((g.calls before).commit ok).2.entry.sent
  /-- without a `commit()` there has been a `ROLLBACK` -/
  rolled_back : (∀ ok, GuardCall.commit ok ∉ cs) →
    ∃ ok, (lit "ROLLBACK", ok) ∈ ((g.calls cs).destroy last).entry.sent

/-! ## What it does -/

/-- A call does not make `_is_begin` true, and sends nothing while it is false. -/
theorem call_of_is_begin_false {g : MyTxEx} (h : g._is_begin = false) (c : GuardCall) :
    (g.call c).2._is_begin = false ∧ (g.call c).2._init = g._init ∧
      (g.call c).2.entry = g.entry := by
  cases c with
  | commit ok => cases hinit : g._init <;> simp [MyTxEx.call, MyTxEx.commit, cas, h, hinit]
  | rollback ok => cases hinit : g._init <;> simp [MyTxEx.call, MyTxEx.rollback, cas, h, hinit]
  | set_done ret => exact ⟨h, rfl, rfl⟩

theorem calls_of_is_begin_false {g : MyTxEx} (h : g._is_begin = false) (cs : List GuardCall) :
    (g.calls cs)._is_begin = false ∧ (g.calls cs)._init = g._init ∧
      (g.calls cs).entry = g.entry := by
  induction cs generalizing g with
  | nil => exact ⟨h, rfl, rfl⟩
  | cons c cs ih =>
    obtain ⟨hbegin, hinit, hentry⟩ := call_of_is_begin_false h c
    obtain ⟨hbegin', hinit', hentry'⟩ := ih hbegin
    exact ⟨hbegin', hinit'.trans hinit, hentry'.trans hentry⟩

/-- A `commit()` of a guard whose `begin` succeeded. -/
theorem commit_of_is_begin_false {g : MyTxEx} (hinit : g._init = true)
    (h : g._is_begin = false) (ok : Bool) : (g.commit ok).1 = true := by
  simp [MyTxEx.commit, cas, h, hinit]

/-- `_is_begin` is false as long as the guard lives, and its entry is the one
`begin` left. -/
theorem is_begin_false (answer : BeginAnswer) (cs : List GuardCall) :
    ((MyTxEx.construct answer).calls cs)._is_begin = false ∧
      ((MyTxEx.construct answer).calls cs)._init = (MyTxEx.construct answer)._init ∧
      ((MyTxEx.construct answer).calls cs).entry = (MyTxEx.construct answer).entry := by
  have hconstruct : (MyTxEx.construct answer)._is_begin = false := by
    cases answer <;> rfl
  exact calls_of_is_begin_false hconstruct cs

/-- Over its life the guard sends nothing. -/
theorem sent_nil (answer : BeginAnswer) (cs : List GuardCall) (last : Bool) :
    (((MyTxEx.construct answer).calls cs).destroy last).entry.sent = [] := by
  have hconstruct : (MyTxEx.construct answer).entry.sent = [] := by
    cases answer <;> rfl
  obtain ⟨hbegin, -, hentry⟩ := is_begin_false answer cs
  have hdestroy : (((MyTxEx.construct answer).calls cs).destroy last).entry
      = ((MyTxEx.construct answer).calls cs).entry :=
    (call_of_is_begin_false hbegin (.rollback last)).2.2
  rw [hdestroy, hentry, hconstruct]

/-- **No guard keeps the promise.** With a `begin` that succeeded, whatever is
called and whatever the worker would report: nothing is sent over the life of the
guard, and each `commit()` returns true. -/
theorem not_endsOnce (cs : List GuardCall) (last : Bool) :
    ¬ EndsOnce (MyTxEx.construct (.answered true)) cs last ∧
      (((MyTxEx.construct (.answered true)).calls cs).destroy last).entry.sent = [] ∧
      ∀ before ok, (((MyTxEx.construct (.answered true)).calls before).commit ok).1 = true := by
  refine ⟨?_, sent_nil _ cs last, ?_⟩
  · intro h
    have honce := h.once
    rw [sent_nil] at honce
    cases honce
  · intro before ok
    obtain ⟨hbegin, hinit, -⟩ := is_begin_false (.answered true) before
    exact commit_of_is_begin_false hinit hbegin ok

/-- A guard that commits once: `commit()` returns true and nothing was sent. -/
theorem not_endsOnce_commit :
    ((MyTxEx.construct (.answered true)).commit true).1 = true ∧
      ((MyTxEx.construct (.answered true)).commit true).2.entry.sent = [] ∧
      ¬ EndsOnce (MyTxEx.construct (.answered true)) [.commit true] true := by
  refine ⟨rfl, rfl, ?_⟩
  intro h
  have honce : ([] : List (Str × Bool)).length = 1 := h.once
  cases honce

end Rellaf.Mysql
