/-
The entries of `_s_pool`: what `connect` puts there, what `stop` makes of it, and
which of it `stop` and `fetch_thread` use.

`connect` writes `_s_thread_count` before it fills the pool, and adds to what the
pool holds already; `stop` walks as far as `_s_thread_count` says, and leaves a null
entry for each worker it has deleted. Nothing ever takes an entry away. So the pool
is a row of null entries with workers behind it (`Slots`), and every use is in
order exactly as long as a call finds it so that its indices fall among the workers
(`Fits`, `slots_ok_iff`): a second `stop`, a `connect` that fails behind a `stop`
and most that fail without one do not (`slots_broken`).

A pointer is the number of its allocation. `uses` records each index used, with what
was there; the code does not keep it.
-/
import Rellaf.Cpp
import Rellaf.Lib.Machine

set_option autoImplicit false

open Rellaf.Cpp

namespace Rellaf.Mysql.PoolSlots

/-! ## The pool -/

/-- `started` is `tid != 0`. -/
structure MyThread where
  status : Int
  started : Bool
  deriving DecidableEq, Repr

/-- What is at an index of the pool. -/
inductive Found where
  | past_end
  | null
  | deleted
  | worker (p : Nat) (thread : MyThread)
  deriving DecidableEq, Repr

/-- A worker that has been started and not been deleted. -/
def Found.ok : Found → Bool
  | .worker _ thread => thread.started
  | _ => false

/-- `heap` has an entry for each `MyThread` ever allocated, `none` once it is deleted.
`connected` says that an `execute` may come: a `connect` has returned true, and no
`stop()` has been called since. `lost` says that the last call does not return. -/
structure State where
  _s_thread_count : UInt32
  _s_pool : List (Option Nat)
  heap : List (Option MyThread)
  _action_idx : UInt64
  uses : List (Nat × Found)
  connected : Bool
  lost : Bool
  deriving DecidableEq, Repr

/-- How the creation of a worker goes: no `MyThread`, no queue for it, no thread, or
well. -/
inductive Create where
  | no_thread
  | no_tasks
  | no_start
  | ok
  deriving DecidableEq, Repr

namespace State

/-- A process that has just started. -/
def new : State := ⟨0, [], [], 0, [], false, false⟩

variable (s : State)

def found (i : Nat) : Found :=
  match s._s_pool[i]? with
  | none => .past_end
  | some none => .null
  | some (some p) =>
    match s.heap[p]? with
    | some (some thread) => .worker p thread
    | _ => .deleted

def use (i : Nat) : State := { s with uses := s.uses ++ [(i, s.found i)] }

/-- `status = 0` -/
def stop_thread (p : Nat) (thread : MyThread) : State :=
  { s with heap := s.heap.set p (some { thread with status := 0 }) }

/-- The worker and its queue are deleted, and the entry is null. -/
def delete_thread (i p : Nat) : State :=
  { s with heap := s.heap.set p none, _s_pool := s._s_pool.set i none }

/-- The loop of `stop`, from index `i` on for `n` more. `joined i` says whether the
thread at `i` ends when it is joined. -/
def stop_loop (joined : Nat → Bool) : Nat → Nat → State → State × CallOutcome Unit
  | 0, _, s => (s, .returns ())
  | n + 1, i, s =>
    match s.found i with
    | .worker p thread =>
      let s := (s.use i).stop_thread p thread
      if thread.started ∧ joined i = false then (s, .waits)
      else stop_loop joined n (i + 1) (s.delete_thread i p)
    | _ => (s.use i, .faults .undefined)

/-- `MysqlSimplePool::stop` -/
def stop (joined : Nat → Bool) : State × CallOutcome Unit :=
  stop_loop joined s._s_thread_count.toNat 0 s

/-- A worker that is started goes to the end of the pool. -/
def push_worker : State :=
  { s with
    heap := s.heap ++ [some ⟨1, true⟩]
    _s_pool := s._s_pool ++ [some s.heap.length] }

/-- What is left of a worker that could not be created. One whose thread could not be
started is not deleted. -/
def abandon : Create → State
  | .no_tasks => { s with heap := s.heap ++ [none] }
  | .no_start => { s with heap := s.heap ++ [some ⟨1, false⟩] }
  | _ => s

/-- The loop of `connect`, from worker `i` on for `n` more. -/
def connect_loop (create : Nat → Create) (joined : Nat → Bool) :
    Nat → Nat → State → State × CallOutcome Bool
  | 0, _, s => (s, .returns true)
  | n + 1, i, s =>
    if create i = .ok then connect_loop create joined n (i + 1) s.push_worker
    else
      let (s, outcome) := (s.abandon (create i)).stop joined
      (s, outcome.map fun _ => false)

/-- `MysqlSimplePool::connect`, as far as the pool is concerned. -/
def connect (thread_count : UInt32) (create : Nat → Create) (joined : Nat → Bool) :
    State × CallOutcome Bool :=
  connect_loop create joined thread_count.toNat 0 { s with _s_thread_count := thread_count }

/-- The index `fetch_thread` takes next. -/
def next_idx : Nat :=
  ((s._action_idx + 1) % s._s_thread_count.toUInt64).toUInt32.toNat

/-- `MysqlSimplePool::fetch_thread`; the worker it fetches. -/
def fetch_thread : State × CallOutcome Nat :=
  if s._s_thread_count = 0 then (s, .faults .undefined)
  else
    let idx := s.next_idx
    let s := { s with _action_idx := s._action_idx + 1 }
    (s.use idx, match s.found idx with
      | .worker p _ => .returns p
      | _ => .faults .undefined)

end State

/-- `execute` uses the pool in its `fetch_thread` only. -/
inductive Call where
  | connect (thread_count : UInt32) (create : Nat → Create) (joined : Nat → Bool)
  | stop (joined : Nat → Bool)
  | execute

/-- The state behind a call. -/
def settle {α : Type} (connected : Bool) (r : State × CallOutcome α) : State :=
  { r.1 with connected := connected, lost := !r.2.returned }

/-- One call. A `connect` that fails does not take back what an earlier one has
promised. -/
def step (s : State) (call : Call) : Option State :=
  if s.lost then none
  else
    match call with
    | .connect thread_count create joined =>
      if thread_count = 0 then none
      else
        let r := s.connect thread_count create joined
        some (settle (s.connected || r.2 = .returns true) r)
    | .stop joined => some (settle false (s.stop joined))
    | .execute => if s.connected then some (settle true s.fetch_thread) else none

/-- The pool, from the start of the process on. -/
def machine : Machine State Call where
  init := .new
  step := step

/-- Every index used was in the pool, with a worker that was started and not
deleted. -/
def State.UsesOk (s : State) : Prop := ∀ use ∈ s.uses, use.2.ok = true

/-- The entries whose worker has been deleted. -/
def State.nulls (s : State) : Nat := s._s_pool.count none

/-- What a call has to find. `stop` must find no null entry, unless nothing was ever
connected; so must a `connect` that fails, at its worker `k` say, and there must be
a worker for each index up to `thread_count` by then (or the walk ends earlier, at a
thread that does not end); the index of an `execute` must be behind the null
entries. -/
def Fits (s : State) : Call → Prop
  | .connect thread_count create joined =>
    ∀ k < thread_count.toNat, (create k ≠ .ok ∧ ∀ j < k, create j = .ok) →
      s.nulls = 0 ∧ (thread_count.toNat ≤ s._s_pool.length + k ∨
        ∃ i < s._s_pool.length + k, joined i = false)
  | .stop _ => s._s_thread_count = 0 ∨ s.nulls = 0
  | .execute => s.nulls ≤ s.next_idx

instance (s : State) (call : Call) : Decidable (Fits s call) :=
  match call with
  | .connect thread_count create joined =>
    inferInstanceAs (Decidable (∀ k < thread_count.toNat,
      (create k ≠ .ok ∧ ∀ j < k, create j = .ok) →
        s.nulls = 0 ∧ (thread_count.toNat ≤ s._s_pool.length + k ∨
          ∃ i < s._s_pool.length + k, joined i = false)))
  | .stop _ => inferInstanceAs (Decidable (s._s_thread_count = 0 ∨ s.nulls = 0))
  | .execute => inferInstanceAs (Decidable (s.nulls ≤ s.next_idx))

/-! ## Null entries, and workers behind them -/

namespace State

/-- The pool has `z` null entries and then the workers `live`, no two of them the same. -/
structure Slots (s : State) (z : Nat) (live : List Nat) : Prop where
  pool : s._s_pool = List.replicate z none ++ live.map some
  nodup : live.Nodup
  started : ∀ p ∈ live, ∃ thread, s.heap[p]? = some (some thread) ∧ thread.started = true

variable {s : State} {z : Nat} {live : List Nat}

theorem UsesOk.use_iff (s : State) (i : Nat) :
    (s.use i).UsesOk ↔ s.UsesOk ∧ (s.found i).ok = true := by
  simp [UsesOk, use, or_imp, forall_and]

theorem Slots.length_pool (h : s.Slots z live) : s._s_pool.length = z + live.length := by
  rw [h.pool, List.length_append, List.length_replicate, List.length_map]

theorem Slots.nulls_eq (h : s.Slots z live) : s.nulls = z := by
  have hlive : List.count none (live.map some) = 0 := by
    rw [List.count_eq_zero]
    simp
  rw [nulls, h.pool, List.count_append, List.count_replicate_self, hlive, Nat.add_zero]

theorem Slots.found_null (h : s.Slots z live) {i : Nat} (hi : i < z) : s.found i = .null := by
  have hentry : s._s_pool[i]? = some none := by
    rw [h.pool, List.getElem?_append_left (by rw [List.length_replicate]; exact hi)]
    exact List.getElem?_replicate_of_lt hi
  simp only [found, hentry]

theorem Slots.found_worker (h : s.Slots z live) {j p : Nat} (hp : live[j]? = some p) :
    ∃ thread, s.found (z + j) = .worker p thread ∧ thread.started = true := by
  have hentry : s._s_pool[z + j]? = some (some p) := by
    rw [h.pool, List.getElem?_append_right (by rw [List.length_replicate]; omega),
      List.length_replicate, Nat.add_sub_cancel_left, List.getElem?_map, hp]
    rfl
  obtain ⟨thread, hheap, hstarted⟩ := h.started p (List.mem_of_getElem? hp)
  refine ⟨thread, ?_, hstarted⟩
  simp only [found, hentry, hheap]

theorem Slots.found_past_end (h : s.Slots z live) {i : Nat} (hi : z + live.length ≤ i) :
    s.found i = .past_end := by
  have hentry : s._s_pool[i]? = none := by
    rw [List.getElem?_eq_none_iff, h.length_pool]
    exact hi
  simp only [found, hentry]

/-- An index is in order exactly when it falls among the workers. -/
theorem Slots.found_ok_iff (h : s.Slots z live) {i : Nat} (hi : i < z + live.length) :
    (s.found i).ok = true ↔ z ≤ i := by
  constructor
  · intro hok
    by_contra hlt
    rw [h.found_null (by omega)] at hok
    cases hok
  · intro hle
    obtain ⟨j, rfl⟩ := Nat.exists_eq_add_of_le hle
    have hj : live[j]? = some live[j] := List.getElem?_eq_getElem (by omega)
    obtain ⟨thread, hfound, hstarted⟩ := h.found_worker hj
    rw [hfound]
    exact hstarted

/-! ### `connect` -/

theorem Slots.push_worker (h : s.Slots z live) :
    s.push_worker.Slots z (live ++ [s.heap.length]) where
  pool := by
    show s._s_pool ++ [some s.heap.length] = _
    rw [h.pool, List.map_append, List.append_assoc]
    rfl
  nodup := by
    rw [← List.concat_eq_append, List.nodup_concat]
    refine ⟨?_, h.nodup⟩
    intro hmem
    -- what is in use was allocated before
    obtain ⟨thread, hheap, -⟩ := h.started _ hmem
    rw [List.getElem?_eq_none (Nat.le_refl _)] at hheap
    cases hheap
  started p hp := by
    show ∃ thread, (s.heap ++ [some ⟨1, true⟩])[p]? = some (some thread) ∧ _
    rw [List.mem_append, List.mem_singleton] at hp
    rcases hp with hp | rfl
    · obtain ⟨thread, hheap, hstarted⟩ := h.started p hp
      have hlt : p < s.heap.length := (List.getElem?_eq_some_iff.mp hheap).1
      exact ⟨thread, by rw [List.getElem?_append_left hlt, hheap], hstarted⟩
    · exact ⟨⟨1, true⟩, List.getElem?_concat_length, rfl⟩

/-- What is abandoned is in no entry. -/
theorem Slots.abandon (h : s.Slots z live) (create : Create) :
    (s.abandon create).Slots z live := by
  have happend : ∀ thread, State.Slots { s with heap := s.heap ++ [thread] } z live := by
    intro thread
    refine ⟨h.pool, h.nodup, ?_⟩
    intro p hp
    obtain ⟨t, hheap, hstarted⟩ := h.started p hp
    have hlt : p < s.heap.length := (List.getElem?_eq_some_iff.mp hheap).1
    exact ⟨t, by rw [List.getElem?_append_left hlt, hheap], hstarted⟩
  cases create with
  | no_thread => exact h
  | no_tasks => exact happend none
  | no_start => exact happend (some ⟨1, false⟩)
  | ok => exact h

/-- `n` workers go to the end of the pool. -/
def push_workers : Nat → State → State
  | 0, s => s
  | n + 1, s => push_workers n s.push_worker

theorem Slots.push_workers (n : Nat) (h : s.Slots z live) :
    ∃ live', live'.length = live.length + n ∧ (s.push_workers n).Slots z live' := by
  induction n generalizing s live with
  | zero => exact ⟨live, rfl, h⟩
  | succ n ih =>
    obtain ⟨live', hlen, hslots⟩ := ih h.push_worker
    refine ⟨live', ?_, hslots⟩
    rw [hlen, List.length_append, List.length_singleton]
    omega

/-- Creating workers uses none of the pool's. -/
theorem push_workers_frame (n : Nat) (s : State) :
    (s.push_workers n).uses = s.uses ∧
      (s.push_workers n)._s_thread_count = s._s_thread_count := by
  induction n generalizing s with
  | zero => exact ⟨rfl, rfl⟩
  | succ n ih => exact ih s.push_worker

theorem abandon_frame (create : Create) (s : State) :
    (s.abandon create).uses = s.uses ∧
      (s.abandon create)._s_thread_count = s._s_thread_count := by
  cases create <;> exact ⟨rfl, rfl⟩

theorem connect_loop_ok {create : Nat → Create} (joined : Nat → Bool) {n i : Nat} (s : State)
    (hok : ∀ j < n, create (i + j) = .ok) :
    connect_loop create joined n i s = (s.push_workers n, .returns true) := by
  induction n generalizing i s with
  | zero => rfl
  | succ n ih =>
    have hfirst : create i = .ok := hok 0 (Nat.succ_pos n)
    rw [connect_loop, if_pos hfirst]
    apply ih
    intro j hj
    rw [Nat.add_assoc, Nat.add_comm 1 j]
    exact hok (j + 1) (Nat.succ_lt_succ hj)

/-- The first worker that cannot be created makes `connect` stop. -/
theorem connect_loop_fails {create : Nat → Create} (joined : Nat → Bool) {n i k : Nat} (s : State)
    (hk : k < n) (hok : ∀ j < k, create (i + j) = .ok) (hfail : create (i + k) ≠ .ok) :
    connect_loop create joined n i s =
      let r := ((s.push_workers k).abandon (create (i + k))).stop joined
      (r.1, r.2.map fun _ => false) := by
  induction k generalizing n i s with
  | zero =>
    obtain ⟨n, rfl⟩ := Nat.exists_eq_succ_of_ne_zero (Nat.ne_of_gt hk)
    rw [Nat.succ_eq_add_one, connect_loop, if_neg (show create i ≠ .ok from hfail)]
    rfl
  | succ k ih =>
    obtain ⟨n, rfl⟩ := Nat.exists_eq_succ_of_ne_zero (Nat.ne_of_gt (Nat.zero_lt_of_lt hk))
    have hfirst : create i = .ok := hok 0 (Nat.succ_pos k)
    have hshift : ∀ j, i + 1 + j = i + (j + 1) := by
      intro j
      omega
    rw [Nat.succ_eq_add_one, connect_loop, if_pos hfirst]
    have hrest := @ih n (i + 1) s.push_worker (Nat.lt_of_succ_lt_succ hk)
      (by intro j hj; rw [hshift]; exact hok (j + 1) (Nat.succ_lt_succ hj))
      (by rw [hshift]; exact hfail)
    rw [hrest, hshift]
    rfl

/-! ### `stop` -/

/-- One turn of the loop, at a worker whose thread ends. -/
def stop_worker (s : State) (i p : Nat) (thread : MyThread) : State :=
  ((s.use i).stop_thread p thread).delete_thread i p

/-- The loop at a worker: it ends there with a thread that does not, and goes on
otherwise. -/
theorem stop_loop_worker (joined : Nat → Bool) (n : Nat) {i p : Nat} {thread : MyThread}
    {s : State} (hfound : s.found i = .worker p thread) (hstarted : thread.started = true) :
    stop_loop joined (n + 1) i s =
      if joined i = false then ((s.use i).stop_thread p thread, .waits)
      else stop_loop joined n (i + 1) (s.stop_worker i p thread) := by
  simp only [stop_loop, hfound, hstarted, true_and, stop_worker]

/-- The loop where there is no worker. -/
theorem stop_loop_fault (joined : Nat → Bool) (n : Nat) {i : Nat} {s : State}
    (hnone : ∀ p thread, s.found i ≠ .worker p thread) :
    stop_loop joined (n + 1) i s = (s.use i, .faults .undefined) := by
  unfold stop_loop
  split
  · exact absurd ‹_› (hnone _ _)
  · rfl

theorem Slots.stop_worker {p : Nat} (h : s.Slots z (p :: live)) (thread : MyThread) :
    (s.stop_worker z p thread).Slots (z + 1) live where
  pool := by
    show s._s_pool.set z none = _
    rw [h.pool, List.set_append_right _ _ (by rw [List.length_replicate]), List.length_replicate,
      Nat.sub_self, List.map_cons, List.set_cons_zero, List.replicate_succ']
    simp
  nodup := (List.nodup_cons.mp h.nodup).2
  started q hq := by
    have hne : p ≠ q := by
      rintro rfl
      exact (List.nodup_cons.mp h.nodup).1 hq
    show ∃ t, ((s.heap.set p _).set p none)[q]? = some (some t) ∧ _
    rw [List.getElem?_set_ne hne, List.getElem?_set_ne hne]
    exact h.started q (List.mem_cons_of_mem p hq)

/-- `stop` from a row of null entries as long as it has walked: it uses workers only,
unless there are fewer than it walks and the thread of each of them ends. -/
theorem Slots.stop_loop (h : s.Slots z live) (joined : Nat → Bool) (n : Nat) :
    ((State.stop_loop joined n z s).1.UsesOk ↔
      s.UsesOk ∧ (n ≤ live.length ∨ ∃ j < live.length, joined (z + j) = false)) ∧
    ((State.stop_loop joined n z s).2.returned = true →
      (State.stop_loop joined n z s).1.Slots (z + n) (live.drop n)) := by
  induction n generalizing s z live with
  | zero =>
    refine ⟨?_, ?_⟩
    · simp [State.stop_loop]
    · intro _
      exact h
  | succ n ih =>
    cases live with
    | nil =>
      -- the walk comes to the end of the pool
      have hfound : s.found z = .past_end := h.found_past_end (Nat.le_refl _)
      rw [stop_loop_fault joined n (by rw [hfound]; nofun)]
      refine ⟨?_, nofun⟩
      rw [UsesOk.use_iff, hfound]
      simp [Found.ok]
    | cons p live =>
      obtain ⟨thread, hfound, hstarted⟩ := h.found_worker (j := 0) rfl
      rw [Nat.add_zero] at hfound
      have huse : ∀ s' : State, s'.uses = s.uses ++ [(z, s.found z)] → (s'.UsesOk ↔ s.UsesOk) := by
        intro s' hs'
        have hiff := UsesOk.use_iff s z
        rw [hfound] at hiff
        rw [UsesOk, hs']
        exact hiff.trans (and_iff_left hstarted)
      rw [stop_loop_worker joined n hfound hstarted]
      cases hjoined : joined z with
      | false =>
        -- it waits here, and what is behind is not used
        rw [if_pos rfl]
        refine ⟨?_, nofun⟩
        rw [huse _ rfl, iff_self_and]
        intro _
        exact .inr ⟨0, Nat.succ_pos _, hjoined⟩
      | true =>
        rw [if_neg (by simp)]
        obtain ⟨huses, hreturned⟩ := ih (h.stop_worker thread)
        refine ⟨?_, ?_⟩
        · rw [huses, huse _ rfl, List.length_cons, Nat.add_le_add_iff_right]
          -- the thread at `z` ends, so one that does not is behind it
          have hshift : (∃ j < live.length, joined (z + 1 + j) = false) ↔
              ∃ j < live.length + 1, joined (z + j) = false := by
            constructor
            · rintro ⟨j, hj, hfalse⟩
              exact ⟨j + 1, by omega, by rwa [Nat.add_comm j 1, ← Nat.add_assoc]⟩
            · rintro ⟨j, hj, hfalse⟩
              cases j with
              | zero =>
                rw [Nat.add_zero, hjoined] at hfalse
                cases hfalse
              | succ j =>
                refine ⟨j, by omega, ?_⟩
                rwa [Nat.add_assoc, Nat.add_comm 1 j]
          rw [hshift]
        · intro hret
          rw [List.drop_succ_cons, Nat.add_comm n 1, ← Nat.add_assoc]
          exact hreturned hret

/-- `stop` leaves the count, and what has been used stays used. -/
theorem stop_loop_frame (joined : Nat → Bool) (n i : Nat) (s : State) :
    (State.stop_loop joined n i s).1._s_thread_count = s._s_thread_count ∧
      s.uses <+: (State.stop_loop joined n i s).1.uses := by
  induction n generalizing i s with
  | zero => exact ⟨rfl, List.prefix_refl _⟩
  | succ n ih =>
    unfold State.stop_loop
    split
    · split
      · exact ⟨rfl, List.prefix_append ..⟩
      · obtain ⟨hcount, huses⟩ := ih (i + 1) (s.stop_worker i _ _)
        exact ⟨hcount, (List.prefix_append ..).trans huses⟩
    · exact ⟨rfl, List.prefix_append ..⟩

/-- `connect` writes the count. -/
theorem connect_frame (thread_count : UInt32) (create : Nat → Create) (joined : Nat → Bool)
    (s : State) : (s.connect thread_count create joined).1._s_thread_count = thread_count ∧
      s.uses <+: (s.connect thread_count create joined).1.uses := by
  suffices hloop : ∀ n i s, (connect_loop create joined n i s).1._s_thread_count
      = s._s_thread_count ∧ s.uses <+: (connect_loop create joined n i s).1.uses from
    hloop thread_count.toNat 0 { s with _s_thread_count := thread_count }
  intro n
  induction n with
  | zero => exact fun _ _ => ⟨rfl, List.prefix_refl _⟩
  | succ n ih =>
    intro i s
    unfold connect_loop
    split
    · exact ih (i + 1) s.push_worker
    · obtain ⟨huses, hcount⟩ := abandon_frame (create i) s
      obtain ⟨hcount', huses'⟩ := stop_loop_frame joined
        (s.abandon (create i))._s_thread_count.toNat 0 (s.abandon (create i))
      exact ⟨hcount'.trans hcount, huses ▸ huses'⟩

/-- `stop` from a row of null entries: it needs to find none, and a worker for each
index. -/
theorem Slots.stop (h : s.Slots z live) (joined : Nat → Bool) :
    ((s.stop joined).1.UsesOk ↔ s.UsesOk ∧ (s._s_thread_count = 0 ∨ z = 0 ∧
      (s._s_thread_count.toNat ≤ live.length ∨ ∃ j < live.length, joined j = false))) ∧
    ((s.stop joined).2.returned = true → ∃ z' live', (s.stop joined).1.Slots z' live' ∧
      s._s_thread_count.toNat ≤ z' + live'.length) := by
  by_cases hcount : s._s_thread_count = 0
  · have heq : s.stop joined = (s, .returns ()) := by
      rw [State.stop, hcount]
      rfl
    rw [heq, hcount]
    refine ⟨by simp, ?_⟩
    intro _
    exact ⟨z, live, h, Nat.zero_le _⟩
  · rcases Nat.eq_zero_or_pos z with rfl | hz
    · obtain ⟨huses, hreturned⟩ := h.stop_loop joined s._s_thread_count.toNat
      simp only [Nat.zero_add] at huses hreturned
      refine ⟨?_, ?_⟩
      · rw [State.stop, huses]
        simp [hcount]
      · intro hret
        exact ⟨_, _, hreturned hret, Nat.le_add_right ..⟩
    · -- the entry at index 0 is null
      have hfound : s.found 0 = .null := h.found_null hz
      have hne : s._s_thread_count.toNat ≠ 0 := fun hzero => hcount (UInt32.toNat_inj.mp hzero)
      obtain ⟨n, hn⟩ := Nat.exists_eq_succ_of_ne_zero hne
      rw [State.stop, hn, stop_loop_fault joined n (by rw [hfound]; nofun)]
      refine ⟨?_, nofun⟩
      rw [UsesOk.use_iff, hfound]
      simp [Found.ok, hcount, Nat.ne_of_gt hz]

/-! ### The calls -/

/-- A loop of creations goes well, or there is a first one that fails. -/
theorem all_ok_or_fails (create : Nat → Create) (n : Nat) :
    (∀ j < n, create j = .ok) ∨ ∃ k < n, create k ≠ .ok ∧ ∀ j < k, create j = .ok := by
  induction n with
  | zero => exact .inl (by simp)
  | succ n ih =>
    rcases ih with hok | ⟨k, hk, hfail⟩
    · by_cases hn : create n = .ok
      · refine .inl fun j hj => ?_
        rcases Nat.lt_succ_iff_lt_or_eq.mp hj with hj | rfl
        · exact hok j hj
        · exact hn
      · exact .inr ⟨n, Nat.lt_succ_self n, hn, hok⟩
    · exact .inr ⟨k, Nat.lt_succ_of_lt hk, hfail⟩

theorem Slots.connect (h : s.Slots z live) {thread_count : UInt32} (hpos : thread_count ≠ 0)
    (create : Nat → Create) (joined : Nat → Bool) :
    ((s.connect thread_count create joined).1.UsesOk ↔
      s.UsesOk ∧ Fits s (.connect thread_count create joined)) ∧
    ((s.connect thread_count create joined).2.returned = true →
      ∃ z' live', (s.connect thread_count create joined).1.Slots z' live' ∧
        thread_count.toNat ≤ z' + live'.length) := by
  -- the count is written first
  have h₀ : State.Slots { s with _s_thread_count := thread_count } z live :=
    ⟨h.pool, h.nodup, h.started⟩
  rcases all_ok_or_fails create thread_count.toNat with hok | ⟨k, hk, hfail, hbefore⟩
  · obtain ⟨live', hlen, hslots⟩ := h₀.push_workers thread_count.toNat
    have huses := (push_workers_frame thread_count.toNat
      { s with _s_thread_count := thread_count }).1
    rw [State.connect, connect_loop_ok joined _ (by simpa using hok)]
    refine ⟨?_, ?_⟩
    · rw [UsesOk, huses]
      refine (and_iff_left ?_).symm
      intro k hk hfails
      exact absurd (hok k hk) hfails.1
    · intro _
      exact ⟨z, live', hslots, by omega⟩
  · obtain ⟨live', hlen, hslots⟩ := h₀.push_workers k
    obtain ⟨huses, hcount⟩ := push_workers_frame k { s with _s_thread_count := thread_count }
    have habandon := abandon_frame (create k)
      (State.push_workers k { s with _s_thread_count := thread_count })
    obtain ⟨hstop, hreturned⟩ := (hslots.abandon (create k)).stop joined
    rw [habandon.2, hcount] at hstop hreturned
    rw [State.connect, connect_loop_fails joined _ hk (by simpa using hbefore)
      (by simpa using hfail), Nat.zero_add]
    refine ⟨?_, ?_⟩
    · have hsame : (State.abandon (State.push_workers k
          { s with _s_thread_count := thread_count }) (create k)).UsesOk ↔ s.UsesOk := by
        rw [UsesOk, habandon.1, huses]
        rfl
      have hfits : Fits s (.connect thread_count create joined) ↔
          z = 0 ∧ (thread_count.toNat ≤ live.length + k ∨
            ∃ j < live.length + k, joined j = false) := by
        constructor
        · intro hfits
          obtain ⟨hz, hroom⟩ := hfits k hk ⟨hfail, hbefore⟩
          rw [h.nulls_eq] at hz
          rw [h.length_pool, hz, Nat.zero_add] at hroom
          exact ⟨hz, hroom⟩
        · rintro ⟨hz, hroom⟩ k' hk' ⟨hfail', hbefore'⟩
          -- no other worker is the first that fails
          obtain rfl : k' = k := by
            rcases Nat.lt_trichotomy k' k with hlt | heq | hlt
            · exact absurd (hbefore k' hlt) hfail'
            · exact heq
            · exact absurd (hbefore' k hlt) hfail
          rw [h.nulls_eq, h.length_pool, hz, Nat.zero_add]
          exact ⟨rfl, hroom⟩
      rw [hstop, hsame, hfits, hlen]
      simp [hpos]
    · rw [CallOutcome.returned_map]
      exact hreturned

theorem next_idx_lt (hcount : s._s_thread_count ≠ 0) :
    s.next_idx < s._s_thread_count.toNat := by
  have hpos : 0 < s._s_thread_count.toNat := by
    apply Nat.pos_of_ne_zero
    exact fun hzero => hcount (UInt32.toNat_inj.mp hzero)
  rw [next_idx, UInt64.toNat_toUInt32, UInt64.toNat_mod, UInt32.toNat_toUInt64]
  exact Nat.lt_of_le_of_lt (Nat.mod_le ..) (Nat.mod_lt _ hpos)

theorem Slots.fetch_thread (h : s.Slots z live) (hcount : s._s_thread_count ≠ 0)
    (hlen : s._s_thread_count.toNat ≤ z + live.length) :
    (s.fetch_thread).1.UsesOk ↔ s.UsesOk ∧ Fits s .execute := by
  have hlt : s.next_idx < z + live.length := Nat.lt_of_lt_of_le (next_idx_lt hcount) hlen
  rw [State.fetch_thread, if_neg hcount]
  show ((State.use { s with _action_idx := s._action_idx + 1 } s.next_idx).UsesOk ↔
    s.UsesOk ∧ s.nulls ≤ s.next_idx)
  rw [UsesOk.use_iff, h.nulls_eq, ← h.found_ok_iff hlt]
  rfl

end State

/-! ## Every sequence of calls -/

/-- What holds while every call has found what it needs. -/
structure Inv (s : State) : Prop where
  uses : s.UsesOk
  slots : s.lost = false → ∃ z live, s.Slots z live ∧ s._s_thread_count.toNat ≤ z + live.length
  count : s.connected = true → s._s_thread_count ≠ 0

/-- One call, from a pool in order: its uses are in order exactly when it finds what it
needs, and then the pool is in order behind it. -/
theorem step_inv {s s' : State} {call : Call} (hs : Inv s) (hstep : step s call = some s') :
    (s'.UsesOk ↔ Fits s call) ∧ (Fits s call → Inv s') := by
  unfold step at hstep
  rw [Option.ite_none_left_eq_some] at hstep
  obtain ⟨hlost, hstep⟩ := hstep
  obtain ⟨z, live, hslots, hlen⟩ := hs.slots (by simpa using hlost)
  cases call with
  | connect thread_count create joined =>
    rw [Option.ite_none_left_eq_some] at hstep
    obtain ⟨hpos, hstep⟩ := hstep
    cases hstep
    obtain ⟨huses, hreturned⟩ := hslots.connect hpos create joined
    have hcount := (State.connect_frame thread_count create joined s).1
    rw [and_iff_right hs.uses] at huses
    refine ⟨huses, fun hfits => ⟨huses.mpr hfits, ?_, ?_⟩⟩
    · intro hret
      obtain ⟨z', live', hslots', hlen'⟩ := hreturned (by simpa [settle] using hret)
      refine ⟨z', live', ⟨hslots'.pool, hslots'.nodup, hslots'.started⟩, ?_⟩
      show (s.connect thread_count create joined).1._s_thread_count.toNat ≤ _
      rw [hcount]
      exact hlen'
    · intro _
      show (s.connect thread_count create joined).1._s_thread_count ≠ 0
      rw [hcount]
      exact hpos
  | stop joined =>
    cases hstep
    obtain ⟨huses, hreturned⟩ := hslots.stop joined
    have hfits : (s._s_thread_count = 0 ∨ z = 0 ∧ (s._s_thread_count.toNat ≤ live.length ∨
        ∃ j < live.length, joined j = false)) ↔ Fits s (.stop joined) := by
      show _ ↔ s._s_thread_count = 0 ∨ s.nulls = 0
      rw [hslots.nulls_eq]
      refine or_congr_right (and_iff_left_of_imp ?_)
      rintro rfl
      exact .inl (by omega)
    rw [and_iff_right hs.uses, hfits] at huses
    refine ⟨huses, fun hfits => ⟨huses.mpr hfits, ?_, nofun⟩⟩
    intro hret
    obtain ⟨z', live', hslots', hlen'⟩ := hreturned (by simpa [settle] using hret)
    refine ⟨z', live', ⟨hslots'.pool, hslots'.nodup, hslots'.started⟩, ?_⟩
    show (s.stop joined).1._s_thread_count.toNat ≤ _
    rw [State.stop, (State.stop_loop_frame ..).1]
    exact hlen'
  | execute =>
    rw [Option.ite_none_right_eq_some] at hstep
    obtain ⟨hconnected, hstep⟩ := hstep
    cases hstep
    have hcount := hs.count hconnected
    have huses := hslots.fetch_thread hcount hlen
    rw [and_iff_right hs.uses] at huses
    refine ⟨huses, fun hfits => ⟨huses.mpr hfits, ?_, ?_⟩⟩
    · intro _
      rw [State.fetch_thread, if_neg hcount]
      exact ⟨z, live, ⟨hslots.pool, hslots.nodup, hslots.started⟩, hlen⟩
    · intro _
      rw [State.fetch_thread, if_neg hcount]
      exact hcount

/-- What has been used stays used. -/
theorem step_uses {s s' : State} {call : Call} (hstep : step s call = some s') :
    s.uses <+: s'.uses := by
  unfold step at hstep
  rw [Option.ite_none_left_eq_some] at hstep
  obtain ⟨-, hstep⟩ := hstep
  cases call with
  | connect thread_count create joined =>
    rw [Option.ite_none_left_eq_some] at hstep
    cases hstep.2
    exact (State.connect_frame thread_count create joined s).2
  | stop joined =>
    cases hstep
    exact (State.stop_loop_frame joined s._s_thread_count.toNat 0 s).2
  | execute =>
    rw [Option.ite_none_right_eq_some] at hstep
    cases hstep.2
    rw [State.fetch_thread]
    split
    · exact List.prefix_refl _
    · exact List.prefix_append ..

/-- **When the pool is in order.** In every sequence of `connect`, `stop` and `execute`
calls, `execute` behind a `connect` that returned true and before the next `stop()`:
every index used is in the pool, with a worker that was started and not deleted,
exactly when each of the calls finds what it needs. -/
theorem slots_ok_iff (calls : List Call) (s : State) (h : machine.Reaches calls s) :
    s.UsesOk ↔ (machine.restrict Fits).Reaches calls s := by
  refine machine.reaches_restrict_iff (I := Inv) ?_ ?_ ?_ ?_ ?_ h
  · refine ⟨?_, fun _ => ⟨0, [], ⟨rfl, List.nodup_nil, ?_⟩, Nat.le_refl _⟩, nofun⟩
    · exact List.forall_mem_nil _
    · exact List.forall_mem_nil _
  · exact fun _ hs => hs.uses
  -- a call that finds what it needs, and one that does not
  · exact fun _ _ _ hs hfits hstep => (step_inv hs hstep).2 hfits
  · exact fun _ _ _ hs hfits hstep hok => hfits ((step_inv hs hstep).1.mp hok)
  · intro s call s' hnot hstep hok
    apply hnot
    intro use huse
    exact hok use ((step_uses hstep).subset huse)

/-- Two workers, statements for both, and a `stop`. -/
theorem slots_ok_iff_once :
    ∃ s, machine.Reaches [.connect 2 (fun _ => .ok) (fun _ => true), .execute, .execute,
      .stop fun _ => true] s ∧ s.UsesOk := by
  have hiff := slots_ok_iff [.connect 2 (fun _ => .ok) (fun _ => true), .execute, .execute,
    .stop fun _ => true]
  refine ⟨_, rfl, ?_⟩
  exact (hiff _ rfl).mpr rfl

/-- A `connect` whose first worker cannot be created makes `stop` walk an empty pool; a
second `stop` and an `execute` behind a second `connect` come to the null entries of
the first `stop`. -/
theorem slots_broken :
    let all_ok : Nat → Create := fun _ => .ok
    let all_end : Nat → Bool := fun _ => true
    (∃ s, machine.Reaches [.connect 1 (fun _ => .no_start) all_end] s ∧ ¬ s.UsesOk) ∧
    (∃ s, machine.Reaches [.connect 1 all_ok all_end, .stop all_end, .stop all_end] s ∧
      ¬ s.UsesOk) ∧
    ∃ s, machine.Reaches [.connect 1 all_ok all_end, .stop all_end, .connect 1 all_ok all_end,
      .execute] s ∧ ¬ s.UsesOk := by
  intro all_ok all_end
  refine ⟨⟨_, rfl, ?_⟩, ⟨_, rfl, ?_⟩, ⟨_, rfl, ?_⟩⟩
  · intro hok
    cases hok (0, .past_end) (by decide)
  · intro hok
    cases hok (0, .null) (by decide)
  · intro hok
    cases hok (0, .null) (by decide)

end Rellaf.Mysql.PoolSlots
