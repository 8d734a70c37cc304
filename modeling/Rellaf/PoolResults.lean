/-
Who frees what a statement leaves on the heap.

A worker leaves an `InnerResult` for each statement that it runs, and MySQL a `MYSQL_RES`
for a text that begins with `SELECT`. The call that gave the statement deletes the first, and
a `MyResult` frees the second. But `select` goes back before its `delete` where it gets no
`MYSQL_RES`, `insert`, `update` and `del` do not look at one, and `init` writes the pointer
over one that a `MyResult` holds already. These are all the ways to lose one
(`results_kept_iff`).

A `MYSQL_RES` is its address, and MySQL gives no address that is in use. Of a `MyResult`
only the `_res` counts here; the rest is in `select_into` and `select`, which this follows.
-/
import Rellaf.Lib.Machine
import Rellaf.PoolStatements

set_option autoImplicit false

open Rellaf.Cpp

namespace Rellaf.Mysql.Results

/-! ## The heap -/

/-- The `InnerResult`s that are not deleted, by their number, and the addresses of the result
sets that are not freed. -/
structure Heap where
  inner : Nat
  sets : List Nat
  deriving DecidableEq, Repr

-- the result sets of MySQL, by the pointers to them
variable (results : Nat → ResultSet)

/-- `static_cast<MYSQL_RES*>(result->data)` -/
def pointer : ResultData → Run (Option Nat)
  | .null => .ok none
  | .res p => .ok p
  | .key_id keyid => if keyid = 0 then .ok none else .error .undefined

namespace Heap

variable (heap : Heap)

/-- What a statement leaves there. -/
def answered : Option InnerResult → Heap
  | none => heap
  | some result =>
    match result.data with
    | .res (some p) => ⟨heap.inner + 1, p :: heap.sets⟩
    | _ => { heap with inner := heap.inner + 1 }

/-- `delete result` -/
def delete_result : Heap := { heap with inner := heap.inner - 1 }

/-- `mysql_free_result` -/
def free_result : Option Nat → Run Heap
  | none => .ok heap
  | some p =>
    if p ∈ heap.sets then .ok { heap with sets := heap.sets.erase p } else .error .undefined

/-- `select(sql, res, tx)` behind the call that runs the statement: what it returns, and the
pointer in `res`. -/
def select_into (result : Option InnerResult) (res : Option Nat) :
    Run (Int32 × Option Nat × Heap) := do
  match result with
  | none => return (-1, res, heap)
  | some result =>
    match ← pointer result.data with
    | none => return (-1, none, heap)
    | some p =>
      let heap := heap.delete_result
      if result.status ≠ 0 then return (-1, some p, ← heap.free_result (some p))
      else return (to_int (results p).rows.length, some p, heap)

/-- `select(sql)` behind the call that runs the statement: the pointer in the new `MyResult`,
if it is not deleted. -/
def select (result : Option InnerResult) : Run (Option Nat × Heap) := do
  let (rows, res, heap) ← heap.select_into results result none
  if rows = 0 then return (none, ← heap.free_result res)
  else return (res, heap)

/-- `insert`, in both overloads, `update` and `del` behind the call that runs the statement. -/
def row_count (result : Option InnerResult) : Heap :=
  match result with
  | none => heap
  | some _ => heap.delete_result

end Heap

/-! ### The calls, and what they do to the heap -/

section points

variable {results}

/-- The pointer in a `MyResult`. -/
def Points (results : Nat → ResultSet) (p : Option Nat) : MysqlRes → Prop
  | .null => p = none
  | .live set _ => ∃ q, p = some q ∧ set = results q
  | .freed => p ≠ none

theorem mysql_res_of_pointer {data : ResultData} {p : Option Nat} (h : pointer data = .ok p) :
    data.mysql_res results = .ok (p.elim .null fun p => .live (results p) 0) := by
  cases data with
  | null =>
    cases h
    rfl
  | key_id keyid =>
    by_cases hkey : keyid = 0
    · rw [pointer, if_pos hkey] at h
      cases h
      exact if_pos hkey
    · rw [pointer, if_neg hkey] at h
      cases h
  | res q =>
    cases h
    cases p <;> rfl

/-- On the heap, `select` returns what it returns, and leaves the pointer that it leaves. -/
theorem select_into_points {heap heap' : Heap} {result : Option InnerResult} {res : MyResult}
    {p p' : Option Nat} {n : Int32} (hp : Points results p res._res)
    (h : heap.select_into results result p = .ok (n, p', heap')) :
    ∃ res', Mysql.select_into results result res = .ok (n, res') ∧
      Points results p' res'._res ∧ (res'._res = .freed → n = -1) := by
  cases result with
  | none =>
    cases h
    exact ⟨res, rfl, hp, fun _ => rfl⟩
  | some result =>
    obtain ⟨mysql_res, hpointer, h⟩ := run_bind_eq_ok.mp h
    simp only [Mysql.select_into, mysql_res_of_pointer hpointer, run_ok_bind]
    cases mysql_res with
    | none =>
      cases h
      exact ⟨{ res with _res := .null }, rfl, rfl, fun h => by cases h⟩
    | some q =>
      dsimp only at h
      simp only [Option.elim_some, MyResult.init, run_ok_bind, Bool.not_true, Bool.false_eq_true,
        if_false]
      by_cases hstatus : result.status ≠ 0
      · rw [if_pos hstatus] at h ⊢
        obtain ⟨freed, -, h⟩ := run_bind_eq_ok.mp h
        cases h
        exact ⟨_, rfl, Option.some_ne_none q, fun _ => rfl⟩
      · rw [if_neg hstatus] at h ⊢
        cases h
        exact ⟨_, rfl, ⟨q, rfl, rfl⟩, fun h => by cases h⟩

theorem select_points {heap heap' : Heap} {outcome : Outcome} {sql : Str} {p' : Option Nat}
    (hmemory : outcome ≠ .no_memory)
    (h : heap.select results (outcome.execute sql) = .ok (p', heap')) :
    ∃ r, Mysql.select results outcome sql = .ok r ∧
      ∀ res ∈ r, Points results p' res._res := by
  obtain ⟨⟨rows, res, heap''⟩, hinto, h⟩ := run_bind_eq_ok.mp h
  have hnew : Points results none MyResult.new._res := rfl
  obtain ⟨res', hselect, hpoints, hfreed⟩ := select_into_points hnew hinto
  have heq : Mysql.select results outcome sql =
      Mysql.select_into results (outcome.execute sql) .new >>= fun r =>
        if r.1 = 0 then r.2.reset >>= fun _ => .ok none else .ok (some r.2) := by
    cases outcome with
    | no_memory => exact absurd rfl hmemory
    | _ => rfl
  rw [heq, hselect, run_ok_bind]
  dsimp only at h ⊢
  by_cases hrows : rows = 0
  · -- `delete res`
    rw [if_pos hrows] at h ⊢
    obtain ⟨freed, hfree, h⟩ := run_bind_eq_ok.mp h
    cases h
    have hreset : ∃ reset, res'.reset = .ok reset := by
      unfold MyResult.reset
      cases hres : res'._res with
      | freed => exact absurd (hrows.symm.trans (hfreed hres)) (by decide)
      | _ => exact ⟨_, rfl⟩
    obtain ⟨reset, hreset⟩ := hreset
    rw [hreset]
    exact ⟨none, rfl, fun r hr => by cases hr⟩
  · rw [if_neg hrows] at h ⊢
    cases h
    refine ⟨some res', rfl, fun r hr => ?_⟩
    cases hr
    exact hpoints

end points

/-! ## The calls of a program -/

/-- `res` is the `_res` of each `MyResult`, null in one that is not there. `fault` says that
the last call had no meaning. -/
structure State where
  heap : Heap
  res : Nat → Option Nat
  fault : Bool

inductive Call where
  | select_into (r : Nat) (place : Place) (sql : Str)
  | select (r : Nat) (outcome : Outcome) (sql : Str)
  | row_count (place : Place) (sql : Str)
  /-- The destructor of a `MyResult`, or `next` at its end. -/
  | reset (r : Nat)

namespace State

variable (s : State)

/-- A process that has just started. -/
def new : State := ⟨⟨0, []⟩, fun _ => none, false⟩

/-- The address that MySQL gives to a result set is not in use. -/
def fresh : Option InnerResult → Bool
  | some ⟨_, _, _, .res (some p)⟩ => p ∉ s.heap.sets
  | _ => true

/-- The state behind a call that has to do with the `MyResult`. -/
def settle (r : Nat) : Run (Option Nat × Heap) → State
  | .ok (p, heap) => { s with heap := heap, res := Function.update s.res r p }
  | .error _ => { s with fault := true }

end State

/-- One call that returns. `select(sql)` makes a new `MyResult`. -/
def step (s : State) (call : Call) : Option State :=
  if s.fault then none
  else
    match call with
    | .select_into r place sql =>
      match place.result sql with
      | .returns result =>
        if s.fresh result then
          some (s.settle r (((s.heap.answered result).select_into results result (s.res r)).map
            (·.2)))
        else none
      | _ => none
    | .select r outcome sql =>
      let result := outcome.execute sql
      if s.res r = none && s.fresh result then
        some (s.settle r ((s.heap.answered result).select results result))
      else none
    | .row_count place sql =>
      match place.result sql with
      | .returns result =>
        if s.fresh result then
          some { s with heap := (s.heap.answered result).row_count result }
        else none
      | _ => none
    | .reset r => some (s.settle r ((s.heap.free_result (s.res r)).map (none, ·)))

def machine : Machine State Call where
  init := .new
  step := step results

/-! ## What is lost -/

/-- Every call had a meaning, every `InnerResult` is deleted, and a `MyResult` holds each result
set that is not freed. -/
structure State.Kept (s : State) : Prop where
  fault : s.fault = false
  inner : s.heap.inner = 0
  held : ∀ p ∈ s.heap.sets, ∃ r, s.res r = some p

/-- The result set that the worker stores for the statement. -/
def stored (sql : Str) (ran : Answers × Session) : Option Nat :=
  if is_control sql || !is_select sql then none else ran.1.success.bind (·.store_result)

/-- A `select` is given a text that the worker knows for a `SELECT`, MySQL carries it out and
produces a result set, and the `MyResult` is empty; the other methods are given nothing
that produces one. -/
def Fits (s : State) : Call → Prop
  | .select_into r place sql =>
    ∀ ran ∈ place.ran, (stored sql ran).isSome ∧ s.res r = none
  | .select _ outcome sql => ∀ ran ∈ (Place.outside outcome).ran, (stored sql ran).isSome
  | .row_count place sql => ∀ ran ∈ place.ran, stored sql ran = none
  | .reset _ => True

instance (s : State) (call : Call) : Decidable (Fits s call) :=
  match call with
  | .select_into r place sql =>
    inferInstanceAs (Decidable (∀ ran ∈ place.ran, (stored sql ran).isSome ∧ s.res r = none))
  | .select _ outcome sql =>
    inferInstanceAs (Decidable (∀ ran ∈ (Place.outside outcome).ran, (stored sql ran).isSome))
  | .row_count place sql =>
    inferInstanceAs (Decidable (∀ ran ∈ place.ran, stored sql ran = none))
  | .reset _ => inferInstanceAs (Decidable True)

/-! ## What a statement leaves -/

variable {results}

/-- The result of a statement that was run. -/
def answer (sql : Str) (ran : Answers × Session) : InnerResult := (exec_sql sql ran.1 ran.2).2

theorem result_eq {place : Place} {sql : Str} {result : Option InnerResult}
    (h : place.result sql = .returns result) : result = place.ran.map (answer sql) := by
  cases hran : place.ran with
  | none =>
    cases result with
    | none => rfl
    | some result =>
      obtain ⟨answers, session, hran', -⟩ := (place.result_eq_iff sql result).mp h
      rw [hran] at hran'
      cases hran'
  | some ran =>
    have hresult := (place.result_eq_iff sql (answer sql ran)).mpr ⟨ran.1, ran.2, hran, rfl⟩
    rw [h] at hresult
    cases hresult
    rfl

theorem answer_stored {sql : Str} {ran : Answers × Session} {p : Nat}
    (h : stored sql ran = some p) :
    (answer sql ran).data = .res (some p) ∧ (answer sql ran).status = 0 := by
  rw [stored, Option.ite_none_left_eq_some, Bool.or_eq_true, not_or, Bool.not_eq_true,
    Bool.not_eq_true, Bool.not_eq_false'] at h
  obtain ⟨⟨hcontrol, hselect⟩, h⟩ := h
  obtain ⟨a, ha, hp⟩ := Option.bind_eq_some_iff.mp h
  obtain ⟨hstatus, hdata, -⟩ := exec_sql_success hcontrol ha ran.2
  refine ⟨?_, hstatus⟩
  rw [answer, hdata, stored_data, if_pos hselect, hp]

/-- Otherwise there is no pointer to a result set. -/
theorem answer_not_stored {sql : Str} {ran : Answers × Session} (h : stored sql ran = none)
    (p : Nat) : (answer sql ran).data ≠ .res (some p) := by
  by_cases hnull : is_control sql = true ∨ ran.1.success = none
  · rw [answer, exec_sql_null hnull]
    intro hp
    cases hp
  · obtain ⟨hcontrol, hsuccess⟩ := not_or.mp hnull
    rw [Bool.not_eq_true] at hcontrol
    obtain ⟨a, ha⟩ := Option.ne_none_iff_exists'.mp hsuccess
    rw [answer, (exec_sql_success hcontrol ha ran.2).2.1, stored_data]
    rw [stored, hcontrol, ha] at h
    cases hselect : is_select sql with
    | true =>
      rw [hselect] at h
      intro hp
      rw [if_pos rfl, ResultData.res.injEq] at hp
      simp [hp] at h
    | false =>
      intro hp
      cases hinsert : is_insert sql <;> rw [hinsert] at hp <;> cases hp

/-! ## One call -/

section calls

variable {heap : Heap} {result : InnerResult} {p : Nat}

theorem answered_stored (hdata : result.data = .res (some p)) :
    heap.answered (some result) = ⟨heap.inner + 1, p :: heap.sets⟩ := by
  simp only [Heap.answered, hdata]

theorem answered_not_stored (hdata : ∀ p, result.data ≠ .res (some p)) :
    heap.answered (some result) = { heap with inner := heap.inner + 1 } := by
  cases h : result.data with
  | null => simp only [Heap.answered, h]
  | key_id keyid => simp only [Heap.answered, h]
  | res q =>
    cases q with
    | none => simp only [Heap.answered, h]
    | some p => exact absurd h (hdata p)

theorem pointer_not_stored (hdata : ∀ p, result.data ≠ .res (some p)) :
    pointer result.data = .ok none ∨ pointer result.data = .error .undefined := by
  cases h : result.data with
  | null => exact .inl rfl
  | key_id keyid =>
    by_cases hkey : keyid = 0
    · exact .inl (if_pos hkey)
    · exact .inr (if_neg hkey)
  | res q =>
    cases q with
    | none => exact .inl rfl
    | some p => exact absurd h (hdata p)

theorem select_into_stored (hdata : result.data = .res (some p)) (hstatus : result.status = 0)
    (res : Option Nat) :
    (heap.answered (some result)).select_into results (some result) res =
      .ok (to_int (results p).rows.length, some p, ⟨heap.inner, p :: heap.sets⟩) := by
  rw [answered_stored hdata]
  simp [Heap.select_into, hdata, pointer, hstatus, Heap.delete_result]

/-- `init` gets a null pointer, and `delete` is not reached. -/
theorem select_into_not_stored (results : Nat → ResultSet) (heap : Heap)
    (hdata : ∀ p, result.data ≠ .res (some p)) (res : Option Nat) :
    (heap.answered (some result)).select_into results (some result) res =
        .ok (-1, none, { heap with inner := heap.inner + 1 }) ∨
      (heap.answered (some result)).select_into results (some result) res =
        .error .undefined := by
  rw [answered_not_stored hdata]
  rcases pointer_not_stored hdata with h | h
  · left
    simp only [Heap.select_into, h, run_ok_bind]
    rfl
  · right
    simp only [Heap.select_into, h, run_error_bind]

theorem select_stored (results : Nat → ResultSet) (heap : Heap)
    (hdata : result.data = .res (some p)) (hstatus : result.status = 0) :
    (heap.answered (some result)).select results (some result) =
        .ok (some p, ⟨heap.inner, p :: heap.sets⟩) ∨
      (heap.answered (some result)).select results (some result) = .ok (none, heap) := by
  rw [Heap.select, select_into_stored hdata hstatus, run_ok_bind]
  dsimp only
  by_cases hrows : to_int (results p).rows.length = 0
  · right
    rw [if_pos hrows, Heap.free_result, if_pos List.mem_cons_self, List.erase_cons_head]
    rfl
  · left
    rw [if_neg hrows]
    rfl

theorem select_not_stored (results : Nat → ResultSet) (heap : Heap)
    (hdata : ∀ p, result.data ≠ .res (some p)) :
    (heap.answered (some result)).select results (some result) =
        .ok (none, { heap with inner := heap.inner + 1 }) ∨
      (heap.answered (some result)).select results (some result) = .error .undefined := by
  rcases select_into_not_stored results heap hdata none with h | h
  · left
    rw [Heap.select, h, run_ok_bind]
    rfl
  · right
    rw [Heap.select, h, run_error_bind]

theorem row_count_stored (hdata : result.data = .res (some p)) :
    (heap.answered (some result)).row_count (some result) = ⟨heap.inner, p :: heap.sets⟩ := by
  rw [answered_stored hdata]
  rfl

theorem row_count_not_stored (hdata : ∀ p, result.data ≠ .res (some p)) :
    (heap.answered (some result)).row_count (some result) = heap := by
  rw [answered_not_stored hdata]
  rfl

end calls

/-- What a call can do, and whether it was one that fits. -/
inductive Effect (s : State) : Bool → State → Prop where
  | nothing : Effect s true s
  | hold (r p : Nat) (hfresh : p ∉ s.heap.sets) (hr : s.res r = none) :
    Effect s true { s with
      heap := ⟨s.heap.inner, p :: s.heap.sets⟩
      res := Function.update s.res r (some p) }
  | free (r p : Nat) (hr : s.res r = some p) (hp : p ∈ s.heap.sets) :
    Effect s true { s with
      heap := ⟨s.heap.inner, s.heap.sets.erase p⟩
      res := Function.update s.res r none }
  | free_again (r p : Nat) (hr : s.res r = some p) (hp : p ∉ s.heap.sets) :
    Effect s true { s with fault := true }
  | write_over (r p q : Nat) (hfresh : p ∉ s.heap.sets) (hr : s.res r = some q) :
    Effect s false { s with
      heap := ⟨s.heap.inner, p :: s.heap.sets⟩
      res := Function.update s.res r (some p) }
  | ignore (p : Nat) (hfresh : p ∉ s.heap.sets) :
    Effect s false { s with heap := ⟨s.heap.inner, p :: s.heap.sets⟩ }
  | go_back (r : Nat) :
    Effect s false { s with
      heap := ⟨s.heap.inner + 1, s.heap.sets⟩
      res := Function.update s.res r none }
  | fault : Effect s false { s with fault := true }

theorem fresh_stored {s : State} {result : InnerResult} {p : Nat}
    (hdata : result.data = .res (some p)) (h : s.fresh (some result) = true) :
    p ∉ s.heap.sets := by
  obtain ⟨status, row_count, message, data⟩ := result
  cases hdata
  simpa [State.fresh] using h

theorem settle_same (s : State) (r : Nat) : s.settle r (.ok (s.res r, s.heap)) = s := by
  rw [State.settle, Function.update_eq_self]

theorem settle_none {s : State} {r : Nat} (hr : s.res r = none) :
    s.settle r (.ok (none, s.heap)) = s := by
  rw [← hr, settle_same]

section effects

variable (results) {s : State} {sql : Str} {ran : Option (Answers × Session)}

theorem select_into_effect (r : Nat) (hfresh : s.fresh (ran.map (answer sql)) = true) :
    Effect s (decide (∀ ran' ∈ ran, (stored sql ran').isSome ∧ s.res r = none))
      (s.settle r (((s.heap.answered (ran.map (answer sql))).select_into results
        (ran.map (answer sql)) (s.res r)).map (·.2))) := by
  cases ran with
  | none =>
    rw [decide_eq_true (by simp)]
    exact (settle_same s r).symm ▸ Effect.nothing
  | some ran =>
    rw [Option.map_some] at hfresh ⊢
    cases hstored : stored sql ran with
    | none =>
      rw [decide_eq_false (by simp [hstored])]
      rcases select_into_not_stored results s.heap (answer_not_stored hstored) (s.res r)
        with h | h
      · rw [h]
        exact .go_back r
      · rw [h]
        exact .fault
    | some p =>
      obtain ⟨hdata, hstatus⟩ := answer_stored hstored
      rw [select_into_stored hdata hstatus]
      cases hr : s.res r with
      | none =>
        rw [decide_eq_true (by simp [hstored])]
        exact .hold r p (fresh_stored hdata hfresh) hr
      | some q =>
        rw [decide_eq_false (by simp)]
        exact .write_over r p q (fresh_stored hdata hfresh) hr

theorem select_effect {r : Nat} (hr : s.res r = none)
    (hfresh : s.fresh (ran.map (answer sql)) = true) :
    Effect s (decide (∀ ran' ∈ ran, (stored sql ran').isSome))
      (s.settle r ((s.heap.answered (ran.map (answer sql))).select results
        (ran.map (answer sql)))) := by
  cases ran with
  | none =>
    rw [decide_eq_true (by simp)]
    exact (settle_none hr).symm ▸ Effect.nothing
  | some ran =>
    rw [Option.map_some] at hfresh ⊢
    cases hstored : stored sql ran with
    | none =>
      rw [decide_eq_false (by simp [hstored])]
      rcases select_not_stored results s.heap (answer_not_stored hstored) with h | h
      · rw [h]
        exact .go_back r
      · rw [h]
        exact .fault
    | some p =>
      obtain ⟨hdata, hstatus⟩ := answer_stored hstored
      rw [decide_eq_true (by simp [hstored])]
      rcases select_stored results s.heap hdata hstatus with h | h
      · rw [h]
        exact .hold r p (fresh_stored hdata hfresh) hr
      · rw [h, settle_none hr]
        exact .nothing

theorem row_count_effect (hfresh : s.fresh (ran.map (answer sql)) = true) :
    Effect s (decide (∀ ran' ∈ ran, stored sql ran' = none))
      { s with
        heap := (s.heap.answered (ran.map (answer sql))).row_count (ran.map (answer sql)) } := by
  cases ran with
  | none =>
    rw [decide_eq_true (by simp)]
    exact .nothing
  | some ran =>
    rw [Option.map_some] at hfresh ⊢
    cases hstored : stored sql ran with
    | none =>
      rw [decide_eq_true (by simp [hstored]), row_count_not_stored (answer_not_stored hstored)]
      exact .nothing
    | some p =>
      have hdata := (answer_stored hstored).1
      rw [decide_eq_false (by simp [hstored]), row_count_stored hdata]
      exact .ignore p (fresh_stored hdata hfresh)

theorem reset_effect (s : State) (r : Nat) :
    Effect s true (s.settle r ((s.heap.free_result (s.res r)).map (none, ·))) := by
  cases hr : s.res r with
  | none =>
    exact (settle_none hr).symm ▸ Effect.nothing
  | some p =>
    rw [Heap.free_result]
    by_cases hp : p ∈ s.heap.sets
    · rw [if_pos hp]
      exact .free r p hr hp
    · rw [if_neg hp]
      exact .free_again r p hr hp

end effects

/-- What one call does, and when it fits. -/
theorem step_effect {s s' : State} {call : Call} (h : step results s call = some s') :
    s.fault = false ∧ Effect s (decide (Fits s call)) s' := by
  unfold step at h
  rw [Option.ite_none_left_eq_some, Bool.not_eq_true] at h
  obtain ⟨hfault, h⟩ := h
  refine ⟨hfault, ?_⟩
  cases call with
  | select_into r place sql =>
    dsimp only at h
    split at h
    next result hresult =>
      rw [Option.ite_none_right_eq_some] at h
      obtain ⟨hfresh, h⟩ := h
      cases h
      obtain rfl := result_eq hresult
      exact select_into_effect results r hfresh
    next => cases h
  | select r outcome sql =>
    dsimp only at h
    rw [Option.ite_none_right_eq_some, Bool.and_eq_true, decide_eq_true_eq] at h
    obtain ⟨⟨hr, hfresh⟩, h⟩ := h
    cases h
    have hresult : outcome.execute sql = (Place.outside outcome).ran.map (answer sql) :=
      result_eq rfl
    rw [hresult] at hfresh ⊢
    exact select_effect results hr hfresh
  | row_count place sql =>
    dsimp only at h
    split at h
    next result hresult =>
      rw [Option.ite_none_right_eq_some] at h
      obtain ⟨hfresh, h⟩ := h
      cases h
      obtain rfl := result_eq hresult
      exact row_count_effect hfresh
    next => cases h
  | reset r =>
    cases h
    exact reset_effect s r

/-! ## Every sequence of calls -/

/-- What holds while every call fits. -/
structure Inv (s : State) : Prop extends s.Kept where
  nodup : s.heap.sets.Nodup
  live : ∀ r p, s.res r = some p → p ∈ s.heap.sets
  inj : ∀ r r' p, s.res r = some p → s.res r' = some p → r = r'

theorem new_inv : Inv .new :=
  ⟨⟨rfl, rfl, nofun⟩, List.nodup_nil, nofun, nofun⟩

variable {s s' : State}

theorem update_eq_some {res : Nat → Option Nat} {r r' q : Nat} {p : Option Nat} :
    Function.update res r p r' = some q ↔ r' = r ∧ p = some q ∨ r' ≠ r ∧ res r' = some q := by
  rw [Function.update_apply]
  by_cases h : r' = r <;> simp [h]

theorem Effect.keeps (h : Effect s true s') (hs : Inv s) : Inv s' := by
  cases h with
  | nothing => exact hs
  | hold r p hfresh hr =>
    refine ⟨⟨hs.fault, hs.inner, ?_⟩, List.nodup_cons.mpr ⟨hfresh, hs.nodup⟩, ?_, ?_⟩
    · intro q hq
      rcases List.mem_cons.mp hq with rfl | hq
      · exact ⟨r, Function.update_self ..⟩
      · obtain ⟨r', hr'⟩ := hs.held q hq
        refine ⟨r', update_eq_some.mpr (.inr ⟨?_, hr'⟩)⟩
        rintro rfl
        rw [hr] at hr'
        cases hr'
    · intro r' q hr'
      rcases update_eq_some.mp hr' with ⟨-, hq⟩ | ⟨-, hq⟩
      · cases hq
        exact List.mem_cons_self
      · exact List.mem_cons_of_mem _ (hs.live r' q hq)
    · intro r₁ r₂ q hr₁ hr₂
      rcases update_eq_some.mp hr₁ with ⟨rfl, h₁⟩ | ⟨-, h₁⟩ <;>
        rcases update_eq_some.mp hr₂ with ⟨rfl, h₂⟩ | ⟨-, h₂⟩
      · rfl
      · cases h₁
        exact absurd (hs.live r₂ p h₂) hfresh
      · cases h₂
        exact absurd (hs.live r₁ p h₁) hfresh
      · exact hs.inj r₁ r₂ q h₁ h₂
  | free r p hr hp =>
    have hother : ∀ {r' q : Nat}, Function.update s.res r none r' = some q →
        r' ≠ r ∧ s.res r' = some q := by
      intro r' q hr'
      rcases update_eq_some.mp hr' with ⟨-, hq⟩ | hq
      · cases hq
      · exact hq
    refine ⟨⟨hs.fault, hs.inner, ?_⟩, hs.nodup.erase p, ?_, ?_⟩
    · intro q hq
      obtain ⟨hne, hq⟩ := (hs.nodup.mem_erase_iff).mp hq
      obtain ⟨r', hr'⟩ := hs.held q hq
      refine ⟨r', update_eq_some.mpr (.inr ⟨?_, hr'⟩)⟩
      rintro rfl
      exact hne (Option.some.inj (hr'.symm.trans hr))
    · intro r' q hr'
      obtain ⟨hne, hq⟩ := hother hr'
      refine (hs.nodup.mem_erase_iff).mpr ⟨?_, hs.live r' q hq⟩
      rintro rfl
      exact hne (hs.inj r' r q hq hr)
    · exact fun r₁ r₂ q hr₁ hr₂ => hs.inj r₁ r₂ q (hother hr₁).2 (hother hr₂).2
  | free_again r p hr hp => exact absurd (hs.live r p hr) hp

theorem Effect.breaks (h : Effect s false s') (hs : Inv s) : ¬ s'.Kept := by
  intro hkept
  cases h with
  | write_over r p q hfresh hr =>
    -- nothing else holds the old one
    have hq : q ∈ s.heap.sets := hs.live r q hr
    obtain ⟨r', hr'⟩ := hkept.held q (List.mem_cons_of_mem p hq)
    rcases update_eq_some.mp hr' with ⟨-, hpq⟩ | ⟨hne, hr'⟩
    · cases hpq
      exact hfresh hq
    · exact hne (hs.inj r' r q hr' hr)
  | ignore p hfresh =>
    obtain ⟨r, hr⟩ := hkept.held p List.mem_cons_self
    exact hfresh (hs.live r p hr)
  | go_back r => exact Nat.succ_ne_zero _ hkept.inner
  | fault => cases hkept.fault

/-- What is lost stays lost. -/
theorem Effect.stays {fits : Bool} (h : Effect s fits s') (hfault : s.fault = false)
    (hs : ¬ s.Kept) : ¬ s'.Kept := by
  intro hkept
  have hstored : ∀ r p, p ∉ s.heap.sets → (∀ q ∈ p :: s.heap.sets, ∃ r', Function.update s.res r
      (some p) r' = some q) → ∀ q ∈ s.heap.sets, ∃ r', s.res r' = some q := by
    intro r p hfresh hheld q hq
    obtain ⟨r', hr'⟩ := hheld q (List.mem_cons_of_mem p hq)
    rcases update_eq_some.mp hr' with ⟨-, hpq⟩ | ⟨-, hr'⟩
    · cases hpq
      exact absurd hq hfresh
    · exact ⟨r', hr'⟩
  cases h with
  | nothing => exact hs hkept
  | hold r p hfresh hr => exact hs ⟨hfault, hkept.inner, hstored r p hfresh hkept.held⟩
  | write_over r p q hfresh hr => exact hs ⟨hfault, hkept.inner, hstored r p hfresh hkept.held⟩
  | ignore p hfresh =>
    exact hs ⟨hfault, hkept.inner, fun q hq => hkept.held q (List.mem_cons_of_mem p hq)⟩
  | free r p hr hp =>
    refine hs ⟨hfault, hkept.inner, fun q hq => ?_⟩
    by_cases hqp : q = p
    · exact ⟨r, by rw [hqp, hr]⟩
    · obtain ⟨r', hr'⟩ := hkept.held q ((List.mem_erase_of_ne hqp).mpr hq)
      rcases update_eq_some.mp hr' with ⟨-, hnone⟩ | ⟨-, hr'⟩
      · cases hnone
      · exact ⟨r', hr'⟩
  | go_back r => exact Nat.succ_ne_zero _ hkept.inner
  | free_again r p hr hp => cases hkept.fault
  | fault => cases hkept.fault

/-- **When nothing is lost.** In every sequence of calls that return: every `InnerResult` is
deleted, every result set that is not freed is in a `MyResult`, and none was freed twice or
read from a number, exactly when every `select` was given a `SELECT` that produced a result
set and an empty `MyResult` for it, and no other method was given one. -/
theorem results_kept_iff (results : Nat → ResultSet) (calls : List Call) (s : State)
    (h : (machine results).Reaches calls s) :
    s.Kept ↔ ((machine results).restrict Fits).Reaches calls s := by
  refine (machine results).reaches_restrict_iff (I := Inv) new_inv (fun _ hs => hs.toKept)
    ?_ ?_ ?_ h
  · intro s call s' hs hfits hstep
    have heffect := (step_effect hstep).2
    rw [decide_eq_true hfits] at heffect
    exact heffect.keeps hs
  · intro s call s' hs hfits hstep
    have heffect := (step_effect hstep).2
    rw [decide_eq_false hfits] at heffect
    exact heffect.breaks hs
  · intro s call s' hs hstep
    obtain ⟨hfault, heffect⟩ := step_effect hstep
    exact heffect.stays hfault hs

/-- A `select` of one row whose result is freed, and an `INSERT`. -/
theorem results_kept_iff_select :
    ∃ s, (machine fun _ => column [lit "1"]).Reaches
      [.select_into 0 (carried_out 0 (some 4)) (lit "SELECT 1"), .reset 0,
        .row_count (carried_out 7 none) (lit "INSERT INTO t VALUES (1)")] s ∧ s.Kept := by
  have hiff := results_kept_iff (fun _ => column [lit "1"])
    [.select_into 0 (carried_out 0 (some 4)) (lit "SELECT 1"), .reset 0,
      .row_count (carried_out 7 none) (lit "INSERT INTO t VALUES (1)")]
  refine ⟨_, rfl, ?_⟩
  exact (hiff _ rfl).mpr rfl

/-- A statement that fails, and the `SELECT` that is given to `execute`. -/
example :
    let results : Nat → ResultSet := fun _ => column [lit "1"]
    let failed : Place := .outside (.answered ⟨true, [], ⟨false, 0, 0, none, lit "error"⟩,
      ⟨false, 0, 0, none, lit "error"⟩, ⟨false, 0, 0, none, lit "error"⟩⟩ .new)
    ((machine results).run .new [.select_into 0 failed (lit "SELECT x")]).map (·.heap) =
        some ⟨1, []⟩ ∧
      ((machine results).run .new [.row_count (carried_out 0 (some 4)) (lit "SELECT 1")]).map
        (·.heap) = some ⟨0, [4]⟩ := by
  decide

end Rellaf.Mysql.Results
