/-
How long a call of `execute` waits once its worker's queue has accepted it. Whatever the
other calls and workers do in between, its own worker is done with it after at most seven
steps for each task in the queue and four more: the worker takes the tasks in their order,
it does not sleep next to one, and the latch it counts down was never counted down before.

`Worker.rank` counts the steps that the worker still has to take. `PoolLive` is what the
count rests on, over `PoolOk`: nothing makes a worker leave its loop, and each call that a
worker has run is in its hands or released.
-/
import Rellaf.MysqlPool

set_option autoImplicit false

open Rellaf.Cpp

namespace Rellaf.Mysql

variable {κ : Type} [DecidableEq κ] {n : Nat}

/-! ## What keeps a worker going -/

/-- A worker that is in its loop and stays there. -/
structure WorkerLive (mem : Memory κ) (w : Worker κ) (h : History κ) : Prop where
  status : w.status ≠ 0
  runs : w.pc ≠ .close ∧ w.pc ≠ .ended
  last : ∀ c, w.pc ≠ .count_down c true ∧ w.pc ≠ .signal c true
  waiting : w.pc = .waiting → w.tasks._list ≠ [] → w.tasks._empty_signal = true
  counting : ∀ c, w.pc = .count_down c false → (mem.context c).latch._count = 1
  released : ∀ c ∈ h.executed.map Prod.fst,
    w.pc.counting = some c ∨ (mem.context c).latch._signal = true

structure PoolLive (s : PoolState κ n) : Prop where
  worker : ∀ w, WorkerLive s.mem (s._s_pool w) (s.history w)
  fresh : ∀ c, (∀ w, c ∉ (s.history w).executed.map Prod.fst) →
    (s.mem.context c).latch._count = 1

theorem pool_init_live (n : Nat) [NeZero n] (task_queue_size : Nat) (sql : κ → Str) :
    PoolLive (pool_machine n task_queue_size sql).init where
  worker _ :=
    { status := (one_ne_zero : (1 : Int) ≠ 0)
      runs := ⟨nofun, nofun⟩
      last := fun _ => ⟨nofun, nofun⟩
      waiting := nofun
      counting := nofun
      released := nofun }
  fresh _ _ := rfl

omit [DecidableEq κ] in
/-- A worker does not notice the latches of calls it has not run. -/
theorem WorkerLive.frame {sql : κ → Str} {mem mem' : Memory κ} {w : Worker κ} {h : History κ}
    (hw : WorkerLive mem w h) (hok : WorkerOk sql mem w h)
    (hlatch : ∀ c ∈ h.executed.map Prod.fst, (mem'.context c).latch = (mem.context c).latch) :
    WorkerLive mem' w h where
  status := hw.status
  runs := hw.runs
  last := hw.last
  waiting := hw.waiting
  counting := by
    intro c hpc
    have hc : c ∈ h.executed.map Prod.fst := hok.counted c (by rw [hpc]; rfl)
    rw [hlatch c hc]
    exact hw.counting c hpc
  released := by
    intro c hc
    rw [hlatch c hc]
    exact hw.released c hc

omit [DecidableEq κ] in
/-- A worker with no call in its hands before and after the step, which is in its loop
still. -/
theorem WorkerLive.idle {mem : Memory κ} {w w' : Worker κ} {h h' : History κ}
    (hw : WorkerLive mem w h) (hexecuted : h'.executed = h.executed)
    (hcounting : w.pc.counting = none) (hstatus : w'.status ≠ 0)
    (hruns : w'.pc ≠ .close ∧ w'.pc ≠ .ended) (hcounting' : w'.pc.counting = none)
    (hwaiting : w'.pc = .waiting → w'.tasks._list ≠ [] → w'.tasks._empty_signal = true) :
    WorkerLive mem w' h' where
  status := hstatus
  runs := hruns
  last := by
    intro c
    refine ⟨fun hpc => ?_, fun hpc => ?_⟩ <;> rw [hpc] at hcounting' <;> cases hcounting'
  waiting := hwaiting
  counting := by
    intro c hpc
    rw [hpc] at hcounting'
    cases hcounting'
  released := by
    intro c hc
    rw [hexecuted] at hc
    rcases hw.released c hc with hhand | hsignal
    · rw [hcounting] at hhand
      cases hhand
    · exact .inr hsignal

/-! ## The steps -/

omit [DecidableEq κ] in
/-- A step of one worker that keeps it in its loop, and leaves to the others the latches of
the calls they have run. -/
theorem PoolLive.work {sql : κ → Str} {s : PoolState κ n} (hs : PoolLive s) (hok : PoolOk sql s)
    {w : Fin n} {worker : Worker κ} {mem : Memory κ} {h : History κ}
    (hworker : WorkerLive mem worker h)
    (hothers : ∀ w', w' ≠ w → ∀ c ∈ (s.history w').executed.map Prod.fst,
      (mem.context c).latch = (s.mem.context c).latch)
    (hexecuted : ∀ c ∈ (s.history w).executed.map Prod.fst, c ∈ h.executed.map Prod.fst)
    (hfresh : ∀ c, c ∉ h.executed.map Prod.fst →
      (mem.context c).latch._count = (s.mem.context c).latch._count) :
    PoolLive (s.work w worker mem h) where
  worker := forall_update₂ hworker fun w' hw =>
    (hs.worker w').frame (hok.worker w') (hothers w' hw)
  fresh := by
    intro c hc
    have hown : c ∉ h.executed.map Prod.fst := by
      have hw := hc w
      change c ∉ (Function.update s.history w h w).executed.map Prod.fst at hw
      rwa [Function.update_self] at hw
    change (mem.context c).latch._count = 1
    rw [hfresh c hown]
    refine hs.fresh c fun w' hw' => ?_
    by_cases hw : w' = w
    · subst hw
      exact hown (hexecuted c hw')
    · have hother := hc w'
      change c ∉ (Function.update s.history w h w').executed.map Prod.fst at hother
      rw [Function.update_of_ne hw] at hother
      exact hother hw'

omit [DecidableEq κ] in
/-- A step that stores nothing. -/
theorem PoolLive.work_alone {sql : κ → Str} {s : PoolState κ n} (hs : PoolLive s)
    (hok : PoolOk sql s) {w : Fin n} {worker : Worker κ} {h : History κ}
    (hexecuted : h.executed = (s.history w).executed) (hworker : WorkerLive s.mem worker h) :
    PoolLive (s.work w worker s.mem h) :=
  hs.work hok hworker (fun _ _ _ _ => rfl) (fun _ hc => hexecuted ▸ hc) fun _ _ => rfl

omit [DecidableEq κ] in
/-- Another worker has not run what is in the hands of this one. -/
theorem PoolOk.counting_unique {sql : κ → Str} {s : PoolState κ n} (hs : PoolOk sql s)
    {w w' : Fin n} (hw : w' ≠ w) {c : κ} (hc : c ∈ (s.history w).executed.map Prod.fst) :
    c ∉ (s.history w').executed.map Prod.fst := fun hc' => by
  have hacc := (hs.worker w).taken_subset ((hs.worker w).executed_subset hc)
  have hacc' := (hs.worker w').taken_subset ((hs.worker w').executed_subset hc')
  exact hw (hs.owner_unique hacc' hacc)

theorem set_latch_latch (mem : Memory κ) {c c' : κ} (hne : c' ≠ c) (latch : Latch) :
    ((mem.set_latch c latch).context c').latch = (mem.context c').latch := by
  simp [Memory.set_latch, Function.update_of_ne hne]

@[simp] theorem set_latch_latch_self (mem : Memory κ) (c : κ) (latch : Latch) :
    ((mem.set_latch c latch).context c).latch = latch := by
  simp [Memory.set_latch]

@[simp] theorem new_result_latch (mem : Memory κ) (c c' : κ) :
    ((mem.new_result c).context c').latch = (mem.context c').latch := by
  by_cases hc : c' = c
  · subst hc
    simp [Memory.new_result]
  · simp [Memory.new_result, Function.update_of_ne hc]

/-- The worker's own call, counted down or released. -/
theorem PoolLive.release {sql : κ → Str} {s : PoolState κ n} (hs : PoolLive s)
    (hok : PoolOk sql s) {w : Fin n} {c : κ} (hcounting : (s._s_pool w).pc.counting = some c)
    {latch : Latch} {pc : WorkerPc κ} (hpc : pc = .signal c false ∨ pc = .test)
    (hrelease : pc = .test → latch._signal = true) :
    PoolLive (s.work w { s._s_pool w with pc := pc } (s.mem.set_latch c latch) (s.history w)) := by
  have hown := (hok.worker w).counted c hcounting
  have hw := hs.worker w
  refine hs.work hok ?_ ?_ (fun _ hc => hc) ?_
  · refine ⟨hw.status, ?_, ?_, ?_, ?_, ?_⟩
    · rcases hpc with rfl | rfl <;> exact ⟨nofun, nofun⟩
    · rcases hpc with rfl | rfl <;> exact fun _ => ⟨nofun, nofun⟩
    · rcases hpc with rfl | rfl <;> exact nofun
    · rcases hpc with rfl | rfl <;> exact nofun
    · intro c' hc'
      by_cases hc : c' = c
      · subst hc
        rcases hpc with rfl | rfl
        · exact .inl rfl
        · rw [set_latch_latch_self]
          exact .inr (hrelease rfl)
      · rw [set_latch_latch _ hc]
        rcases hw.released c' hc' with hhand | hsignal
        · exact absurd (Option.some.inj (hhand.symm.trans hcounting)) hc
        · exact .inr hsignal
  · intro w' hne c' hc'
    refine set_latch_latch _ ?_ _
    rintro rfl
    exact hok.counting_unique hne hown hc'
  · intro c' hc'
    rw [set_latch_latch]
    rintro rfl
    exact hc' hown

omit [DecidableEq κ] in
/-- A worker that takes a call from its queue. -/
theorem PoolLive.take {sql : κ → Str} {s : PoolState κ n} (hs : PoolLive s) (hok : PoolOk sql s)
    {w : Fin n} (hpc : (s._s_pool w).pc.counting = none) (tasks : Queue κ) (c : κ) :
    PoolLive (s.work w { s._s_pool w with tasks := tasks, pc := .alloc c } s.mem
      { s.history w with taken := (s.history w).taken ++ [c] }) :=
  hs.work_alone hok rfl ((hs.worker w).idle rfl hpc (hs.worker w).status ⟨nofun, nofun⟩ rfl nofun)

theorem PoolLive.worker_step {sql : κ → Str} {s : PoolState κ n} (hs : PoolLive s)
    (hok : PoolOk sql s) {w : Fin n} {act : WorkerAct} (halloc : act ≠ .alloc false)
    {worker : Worker κ} {mem : Memory κ}
    (h : worker_step (s._s_pool w) s.mem act = some (worker, mem)) :
    PoolLive (s.work w worker mem ((s.history w).note act worker.pc)) := by
  have hw := hs.worker w
  have hq := (hok.worker w).queue
  cases worker_step_move h with
  | test hpc =>
    refine hs.work_alone hok rfl (hw.idle rfl (by rw [hpc]; rfl) hw.status ?_ ?_ ?_)
    all_goals rw [if_pos hw.status]
    · exact ⟨nofun, nofun⟩
    · rfl
    · exact nofun
  | store hpc =>
    exact hs.work_alone hok rfl
      (hw.idle rfl (by rw [hpc]; rfl) (two_ne_zero : (2 : Int) ≠ 0) ⟨nofun, nofun⟩ rfl nofun)
  | pop_sleep hpc hpop =>
    refine hs.work_alone hok rfl
      (hw.idle rfl (by rw [hpc]; rfl) hw.status ⟨nofun, nofun⟩ rfl fun _ hlist => ?_)
    exact absurd (Queue.pop_block_eq_none _ hpop) hlist
  | pop hpc n tasks hpop =>
    obtain ⟨c, rfl, -, -⟩ := Queue.pop_block_spec hq hpop
    exact hs.take hok (by rw [hpc]; rfl) tasks c
  | wake_sleep hpc hpop =>
    rw [show (s.history w).note .wake (s._s_pool w).pc = s.history w by rw [hpc]; rfl]
    exact hs.work_alone hok rfl hw
  | wake hpc n tasks hpop =>
    obtain ⟨c, rfl, -, -⟩ := Queue.pop_wake_spec hq hpop
    exact hs.take hok (by rw [hpc]; rfl) tasks c
  | timeout hpc =>
    exact hs.work_alone hok rfl
      (hw.idle rfl (by rw [hpc]; rfl) hw.status ⟨nofun, nofun⟩ rfl nofun)
  | alloc c hpc =>
    refine hs.work hok ?_ (fun _ _ c' _ => new_result_latch s.mem c c') (fun _ hc => hc) ?_
    · refine (hw.frame (hok.worker w) fun c' _ => new_result_latch s.mem c c').idle rfl ?_ hw.status
        ⟨nofun, nofun⟩ rfl nofun
      rw [hpc]
      rfl
    · intro c' _
      rw [new_result_latch]
  | alloc_fails => exact absurd rfl halloc
  | exec c r answers hpc =>
    have hcurrent : c ∈ (s._s_pool w).pc.current := by
      rw [hpc]
      exact List.mem_singleton.mpr rfl
    refine hs.work hok ⟨hw.status, ⟨nofun, nofun⟩, fun _ => ⟨nofun, nofun⟩, nofun, ?_, ?_⟩
      (fun _ _ _ _ => rfl) ?_ fun _ _ => rfl
    · intro c' hc'
      cases hc'
      exact hs.fresh c fun w' => hok.current_not_executed hcurrent
    · intro c' hc'
      change c' ∈ ((s.history w).executed ++ [(c, answers)]).map Prod.fst at hc'
      rw [List.map_append, List.mem_append] at hc'
      rcases hc' with hc' | hc'
      · rcases hw.released c' hc' with hhand | hsignal
        · rw [hpc] at hhand
          cases hhand
        · exact .inr hsignal
      · rw [List.mem_singleton.mp hc']
        exact .inl rfl
    · intro c' hc'
      change c' ∈ ((s.history w).executed ++ [(c, answers)]).map Prod.fst
      rw [List.map_append]
      exact List.mem_append_left _ hc'
  | count_down c last hpc =>
    cases last with
    | true => exact absurd hpc (hw.last c).1
    | false =>
      have hzero : (s.mem.context c).latch.count_down.1 = true := by
        rw [Latch.count_down, hw.counting c hpc]
        rfl
      rw [if_pos hzero]
      exact hs.release hok (by rw [hpc]; rfl) (.inl rfl) (by rintro ⟨⟩)
  | signal c last hpc =>
    cases last with
    | true => exact absurd hpc (hw.last c).2
    | false => exact hs.release hok (by rw [hpc]; rfl) (.inr rfl) fun _ => rfl
  | close hpc => exact absurd hpc hw.runs.1

/-- A queue that has just taken in a value. -/
theorem PoolLive.added {s : PoolState κ n} (hs : PoolLive s) {c : κ} {w : Fin n} {ret : Int}
    {tasks : Queue κ} (hadd : (s._s_pool w).tasks.add_locked c true = (ret, tasks)) :
    PoolLive (s.added c w 0 tasks) := by
  have hset : true = tasks._empty_signal := congrArg (fun p => p.2._empty_signal) hadd
  have hadded : s.added c w 0 tasks =
      { s with
        _s_pool := Function.update s._s_pool w { s._s_pool w with tasks := tasks }
        history := Function.update s.history w
          { s.history w with accepted := (s.history w).accepted ++ [c] }
        call := Function.update s.call c (.wait w) } := rfl
  rw [hadded]
  have hw := hs.worker w
  refine ⟨forall_update₂ ⟨hw.status, hw.runs, hw.last, fun _ _ => hset.symm, hw.counting,
    hw.released⟩ fun w' _ => hs.worker w', fun c' hc' => hs.fresh c' fun w' => ?_⟩
  have hother := hc' w'
  by_cases hw' : w' = w
  · subst hw'
    change c' ∉ (Function.update s.history w' _ w').executed.map Prod.fst at hother
    rwa [Function.update_self] at hother
  · change c' ∉ (Function.update s.history w _ w').executed.map Prod.fst at hother
    rwa [Function.update_of_ne hw'] at hother

/-- The steps of the pool by what they do to the workers and to the memory. -/
inductive PoolMove [NeZero n] (s : PoolState κ n) : PoolEvent κ n → PoolState κ n → Prop where
  | call {e : PoolEvent κ n} {s' : PoolState κ n} (hpool : s'._s_pool = s._s_pool)
      (hmem : s'.mem = s.mem) (hhistory : s'.history = s.history)
      (hevent : ∀ w act, e ≠ .worker w act) : PoolMove s e s'
  | added {e : PoolEvent κ n} {c : κ} {w : Fin n} {tasks : Queue κ}
      (hadd : (s._s_pool w).tasks.add_locked c true = (0, tasks))
      (hlist : tasks._list = (s._s_pool w).tasks._list ++ [c])
      (hevent : ∀ w act, e ≠ .worker w act) : PoolMove s e (s.added c w 0 tasks)
  | work {w : Fin n} {act : WorkerAct} {worker : Worker κ} {mem : Memory κ}
      (hact : act ≠ .alloc false)
      (hstep : worker_step (s._s_pool w) s.mem act = some (worker, mem)) :
      PoolMove s (.worker w act) (s.work w worker mem ((s.history w).note act worker.pc))

theorem pool_step_move [NeZero n] {sql : κ → Str} {s s' : PoolState κ n} {e : PoolEvent κ n}
    (hok : PoolOk sql s) (he : Allocates s e) (h : pool_step s e = some s') : PoolMove s e s' := by
  cases e with
  | fetch c =>
    simp only [pool_step] at h
    split at h
    · cases h
      exact .call rfl rfl rfl (by rintro _ _ ⟨⟩)
    · cases h
  | add c alloc =>
    obtain rfl : alloc = true := he
    simp only [pool_step] at h
    split at h
    · rename_i w _
      rcases hadd : (s._s_pool w).tasks.add_block c true with - | ⟨ret, tasks⟩
      · rw [hadd] at h
        cases h
        exact .call rfl rfl rfl (by rintro _ _ ⟨⟩)
      · rw [hadd] at h
        cases h
        obtain ⟨rfl, hlist, -⟩ := Queue.add_block_spec (hok.worker w).queue hadd
        exact .added (Queue.add_block_eq_some _ hadd) hlist (by rintro _ _ ⟨⟩)
    · cases h
  | add_wake c alloc =>
    obtain rfl : alloc = true := he
    simp only [pool_step] at h
    split at h
    · rename_i w _
      rcases hadd : (s._s_pool w).tasks.add_wake c true with - | ⟨ret, tasks⟩
      · rw [hadd] at h
        cases h
        exact .call rfl rfl rfl (by rintro _ _ ⟨⟩)
      · rw [hadd] at h
        cases h
        obtain ⟨rfl, hlist, -⟩ := Queue.add_wake_spec (hok.worker w).queue hadd
        exact .added (Queue.add_wake_eq_some _ hadd) hlist (by rintro _ _ ⟨⟩)
    · cases h
  | wait c =>
    simp only [pool_step] at h
    split at h
    · rw [Option.ite_none_right_eq_some] at h
      obtain ⟨-, h⟩ := h
      cases h
      exact .call rfl rfl rfl (by rintro _ _ ⟨⟩)
    · cases h
  | worker w act =>
    have hact : act ≠ .alloc false := by
      rintro rfl
      exact absurd he (by simp [Allocates, PoolEvent.allocates])
    simp only [pool_step] at h
    split at h
    · cases h
    · rename_i hstep
      cases h
      exact .work hact hstep

theorem pool_step_live [NeZero n] {sql : κ → Str} {s s' : PoolState κ n} {e : PoolEvent κ n}
    (hok : PoolOk sql s) (hs : PoolLive s) (he : Allocates s e) (h : pool_step s e = some s') :
    PoolLive s' := by
  cases pool_step_move hok he h with
  | call hpool hmem hhistory _ =>
    refine ⟨fun w => ?_, fun c hc => ?_⟩
    · rw [hpool, hmem, hhistory]
      exact hs.worker w
    · rw [hhistory] at hc
      rw [hmem]
      exact hs.fresh c hc
  | added hadd _ _ => exact hs.added hadd
  | work hact hstep => exact hs.worker_step hok hact hstep

/-! ## How far a worker is from a call -/

/-- The call in the worker's hands. -/
def WorkerPc.in_hand : WorkerPc κ → Option κ
  | .alloc c | .exec c _ | .count_down c _ | .signal c _ => some c
  | _ => none

/-- The steps from taking a call to releasing it that are left. -/
def WorkerPc.left : WorkerPc κ → Nat
  | .alloc _ => 3
  | .exec _ _ => 2
  | .count_down _ _ => 1
  | _ => 0

/-- The steps to the next `pop_block`, and over it. -/
def WorkerPc.distance : WorkerPc κ → Nat
  | .alloc _ => 7
  | .exec _ _ => 6
  | .count_down _ _ => 5
  | .signal _ _ => 4
  | .waiting => 4
  | .test => 3
  | .store => 2
  | .pop => 1
  | .close | .ended => 0

omit [DecidableEq κ] in
theorem WorkerPc.distance_le (pc : WorkerPc κ) : pc.distance ≤ 7 := by
  unfold WorkerPc.distance
  split <;> omega

omit [DecidableEq κ] in
theorem WorkerPc.left_le (pc : WorkerPc κ) : pc.left ≤ 3 := by
  unfold WorkerPc.left
  split <;> omega

/-- The steps until the worker releases the call, less one. -/
def Worker.rank (w : Worker κ) (c : κ) : Nat :=
  if w.pc.in_hand = some c then w.pc.left
  else w.pc.distance + 7 * w.tasks._list.idxOf c + 3

/-- The call is in the worker's queue or in its hands. -/
def Pending (w : Worker κ) (c : κ) : Prop := w.pc.in_hand = some c ∨ c ∈ w.tasks._list

theorem rank_le {w : Worker κ} {c : κ} (h : Pending w c) :
    w.rank c ≤ 7 * w.tasks._list.length + 3 := by
  rw [Worker.rank]
  split
  · have hle := w.pc.left_le
    omega
  · rename_i hhand
    have hlt := List.idxOf_lt_length_of_mem (h.resolve_left hhand)
    have hle := w.pc.distance_le
    omega

omit [DecidableEq κ] in
theorem PoolLive.pending {sql : κ → Str} {s : PoolState κ n} (hs : PoolLive s)
    (hok : PoolOk sql s) {w : Fin n} {c : κ} (hc : c ∈ (s.history w).accepted)
    (hsignal : ¬ (s.mem.context c).latch._signal = true) : Pending (s._s_pool w) c := by
  rw [(hok.worker w).accepted, (hok.worker w).taken, List.mem_append, List.mem_append] at hc
  rcases hc with (hc | hc) | hc
  · have hcounting := ((hs.worker w).released c hc).resolve_right hsignal
    refine .inl ?_
    cases hpc : (s._s_pool w).pc with
    | count_down => rw [hpc] at hcounting; exact hcounting
    | signal => rw [hpc] at hcounting; exact hcounting
    | _ => rw [hpc] at hcounting; cases hcounting
  · refine .inl ?_
    cases hpc : (s._s_pool w).pc with
    | alloc => rw [hpc] at hc; rw [List.mem_singleton.mp hc]; rfl
    | exec => rw [hpc] at hc; rw [List.mem_singleton.mp hc]; rfl
    | _ => rw [hpc] at hc; cases hc
  · exact .inr hc

theorem rank_of_in_hand {w : Worker κ} {c : κ} (h : w.pc.in_hand = some c) :
    w.rank c = w.pc.left := if_pos h

theorem rank_of_ne {w : Worker κ} {c : κ} (h : w.pc.in_hand ≠ some c) :
    w.rank c = w.pc.distance + 7 * w.tasks._list.idxOf c + 3 := if_neg h

/-- A worker that takes a call is one step further. -/
theorem rank_take {w : Worker κ} {c c' : κ} {tasks : Queue κ} (hhand : w.pc.in_hand = none)
    (hdistance : 1 ≤ w.pc.distance) (hlist : w.tasks._list = c' :: tasks._list) :
    ({ w with tasks := tasks, pc := .alloc c' } : Worker κ).rank c + 1 ≤ w.rank c := by
  rw [rank_of_ne (w := w) (by rw [hhand]; nofun), hlist]
  by_cases hc : c' = c
  · subst hc
    rw [rank_of_in_hand rfl, List.idxOf_cons_self]
    change 3 + 1 ≤ _
    omega
  · have hhand' : (WorkerPc.alloc c').in_hand ≠ some c := fun h => hc (Option.some.inj h)
    rw [rank_of_ne (w := { w with tasks := tasks, pc := .alloc c' }) hhand',
      List.idxOf_cons_ne _ hc]
    change 7 + 7 * tasks._list.idxOf c + 3 + 1 ≤ _
    omega

/-- A task behind the call does not hold it up. -/
theorem rank_add {w : Worker κ} {c c' : κ} {tasks : Queue κ} (hpending : Pending w c)
    (hlist : tasks._list = w.tasks._list ++ [c']) :
    ({ w with tasks := tasks } : Worker κ).rank c = w.rank c := by
  by_cases hhand : w.pc.in_hand = some c
  · rw [rank_of_in_hand hhand, rank_of_in_hand (w := { w with tasks := tasks }) hhand]
  · rw [rank_of_ne hhand, rank_of_ne (w := { w with tasks := tasks }) hhand, hlist,
      List.idxOf_append_of_mem (hpending.resolve_left hhand)]

/-- A worker with another place in the loop and the same queue. -/
theorem rank_pc {w : Worker κ} {c : κ} {pc : WorkerPc κ} (hhand : pc.in_hand = w.pc.in_hand)
    (hleft : w.pc.in_hand = some c → pc.left + 1 ≤ w.pc.left)
    (hdistance : pc.distance + 1 ≤ w.pc.distance) :
    ({ w with pc := pc } : Worker κ).rank c + 1 ≤ w.rank c := by
  by_cases hc : w.pc.in_hand = some c
  · rw [rank_of_in_hand hc, rank_of_in_hand (hhand.trans hc)]
    exact hleft hc
  · rw [rank_of_ne hc, rank_of_ne (by rw [hhand]; exact hc)]
    change pc.distance + 7 * w.tasks._list.idxOf c + 3 + 1 ≤ _
    omega

/-- Each step of its worker brings a call nearer to its release, or releases it. -/
theorem PoolLive.rank_step {sql : κ → Str} {s : PoolState κ n} (hs : PoolLive s)
    (hok : PoolOk sql s) {w : Fin n} {act : WorkerAct} (hact : act ≠ .alloc false)
    {worker : Worker κ} {mem : Memory κ} {c : κ} (hpending : Pending (s._s_pool w) c)
    (h : Mysql.worker_step (s._s_pool w) s.mem act = some (worker, mem))
    (hsignal : ¬ (mem.context c).latch._signal = true) :
    worker.rank c + 1 ≤ (s._s_pool w).rank c := by
  have hw := hs.worker w
  have hq := (hok.worker w).queue
  have hqueued : (s._s_pool w).pc.in_hand = none → (s._s_pool w).tasks._list ≠ [] := by
    intro hhand
    refine List.ne_nil_of_mem (hpending.resolve_left ?_)
    rw [hhand]
    nofun
  cases worker_step_move h with
  | test hpc =>
    rw [if_pos hw.status]
    refine rank_pc (by rw [hpc]; rfl) (by rw [hpc]; nofun) ?_
    rw [hpc]
    exact le_rfl
  | store hpc =>
    refine rank_pc (w := s._s_pool w) (by rw [hpc]; rfl) (by rw [hpc]; nofun) ?_
    rw [hpc]
    exact le_rfl
  | pop_sleep hpc hpop =>
    exact absurd (Queue.pop_block_eq_none _ hpop) (hqueued (by rw [hpc]; rfl))
  | pop hpc n tasks hpop =>
    obtain ⟨c', rfl, hlist, -⟩ := Queue.pop_block_spec hq hpop
    exact rank_take (by rw [hpc]; rfl) (by rw [hpc]; exact le_rfl) hlist
  | wake_sleep hpc hpop =>
    -- a worker that waits next to a task finds the signal
    have hset := hw.waiting hpc (hqueued (by rw [hpc]; rfl))
    rw [Queue.pop_wake_eq_none _ hpop] at hset
    cases hset
  | wake hpc n tasks hpop =>
    obtain ⟨c', rfl, hlist, -⟩ := Queue.pop_wake_spec hq hpop
    exact rank_take (by rw [hpc]; rfl) (by rw [hpc]; exact Nat.le_add_left 1 3) hlist
  | timeout hpc =>
    refine rank_pc (w := s._s_pool w) (by rw [hpc]; rfl) (by rw [hpc]; nofun) ?_
    rw [hpc]
    exact le_rfl
  | alloc c' hpc =>
    refine rank_pc (by rw [hpc]; rfl) (fun _ => by rw [hpc]; exact le_rfl) ?_
    rw [hpc]
    exact le_rfl
  | alloc_fails => exact absurd rfl hact
  | exec c' r answers hpc =>
    refine rank_pc (w := s._s_pool w) (by rw [hpc]; rfl) (fun _ => by rw [hpc]; exact le_rfl) ?_
    rw [hpc]
    exact le_rfl
  | count_down c' last hpc =>
    cases last with
    | true => exact absurd hpc (hw.last c').1
    | false =>
      have hzero : (s.mem.context c').latch.count_down.1 = true := by
        rw [Latch.count_down, hw.counting c' hpc]
        rfl
      rw [if_pos hzero]
      refine rank_pc (by rw [hpc]; rfl) (fun _ => by rw [hpc]; exact le_rfl) ?_
      rw [hpc]
      exact le_rfl
  | signal c' last hpc =>
    by_cases hc : c = c'
    · subst hc
      rw [set_latch_latch_self] at hsignal
      exact absurd rfl hsignal
    · have hhand : (s._s_pool w).pc.in_hand ≠ some c := by
        rw [hpc]
        exact fun h => hc (Option.some.inj h).symm
      have hnext : (WorkerPc.next last : WorkerPc κ).in_hand ≠ some c := by
        cases last <;> nofun
      have hdistance : (WorkerPc.next last : WorkerPc κ).distance + 1 ≤ 4 := by
        cases last
        · exact le_rfl
        · exact Nat.le_add_left 1 3
      rw [rank_of_ne hhand, rank_of_ne (w := { s._s_pool w with pc := .next last }) hnext, hpc]
      change (WorkerPc.next last : WorkerPc κ).distance +
        7 * (s._s_pool w).tasks._list.idxOf c + 3 + 1 ≤ 4 + _ + 3
      omega
  | close hpc => exact absurd hpc hw.runs.1

/-- A released call stays released. -/
theorem worker_step_signal {w worker : Worker κ} {mem mem' : Memory κ} {act : WorkerAct}
    (h : worker_step w mem act = some (worker, mem')) {c : κ}
    (hsignal : (mem.context c).latch._signal = true) : (mem'.context c).latch._signal = true := by
  have hset : ∀ c' latch, ((mem.context c').latch._signal = true → latch._signal = true) →
      ((mem.set_latch c' latch).context c).latch._signal = true := by
    intro c' latch hlatch
    by_cases hc : c = c'
    · subst hc
      rw [set_latch_latch_self]
      exact hlatch hsignal
    · rw [set_latch_latch _ hc]
      exact hsignal
  cases worker_step_move h with
  | alloc c' _ =>
    rw [new_result_latch]
    exact hsignal
  | count_down c' _ _ => exact hset c' _ id
  | signal c' _ _ => exact hset c' _ fun _ => rfl
  | _ => exact hsignal

/-! ## Every run -/

/-- The step is one of the worker. -/
def PoolEvent.works (w : Fin n) : PoolEvent κ n → Bool
  | .worker w' _ => w' = w
  | _ => false

/-- A call that the worker's queue has accepted, in a pool that goes on. -/
structure Accepted (sql : κ → Str) (w : Fin n) (c : κ) (s : PoolState κ n) : Prop where
  ok : PoolOk sql s
  live : PoolLive s
  accepted : c ∈ (s.history w).accepted

omit [DecidableEq κ] in
theorem History.note_accepted (h : History κ) (act : WorkerAct) (pc : WorkerPc κ) :
    (h.note act pc).accepted = h.accepted := by
  unfold History.note
  split <;> rfl

theorem Accepted.step [NeZero n] {sql : κ → Str} {w : Fin n} {c : κ} {s s' : PoolState κ n}
    {e : PoolEvent κ n} (h : Accepted sql w c s) (he : Allocates s e)
    (hstep : pool_step s e = some s') : Accepted sql w c s' := by
  refine ⟨pool_step_ok h.ok he hstep, pool_step_live h.ok h.live he hstep, ?_⟩
  cases pool_step_move h.ok he hstep with
  | call _ _ hhistory _ =>
    rw [hhistory]
    exact h.accepted
  | @added _ c' w' tasks _ _ _ =>
    change c ∈ (Function.update s.history w' _ w).accepted
    by_cases hw : w = w'
    · subst hw
      rw [Function.update_self]
      exact List.mem_append_left _ h.accepted
    · rw [Function.update_of_ne hw]
      exact h.accepted
  | @work w' act worker mem _ _ =>
    change c ∈ (Function.update s.history w' _ w).accepted
    by_cases hw : w = w'
    · subst hw
      rw [Function.update_self, History.note_accepted]
      exact h.accepted
    · rw [Function.update_of_ne hw]
      exact h.accepted

theorem Accepted.stays [NeZero n] {sql : κ → Str} {w : Fin n} {c : κ} {s s' : PoolState κ n}
    {e : PoolEvent κ n} (h : Accepted sql w c s) (he : Allocates s e)
    (hsignal : (s.mem.context c).latch._signal = true) (hstep : pool_step s e = some s') :
    (s'.mem.context c).latch._signal = true := by
  cases pool_step_move h.ok he hstep with
  | call _ hmem _ _ =>
    rw [hmem]
    exact hsignal
  | added _ _ _ => exact hsignal
  | work _ hworker => exact worker_step_signal hworker hsignal

/-- Its rank falls with each step of its worker, and rises with none. -/
theorem Accepted.rank [NeZero n] {sql : κ → Str} {w : Fin n} {c : κ} {s s' : PoolState κ n}
    {e : PoolEvent κ n} (h : Accepted sql w c s) (he : Allocates s e)
    (hnot : ¬ (s.mem.context c).latch._signal = true) (hstep : pool_step s e = some s')
    (hnot' : ¬ (s'.mem.context c).latch._signal = true) :
    (s'._s_pool w).rank c + (e.works w).toNat ≤ (s._s_pool w).rank c := by
  have hpending := h.live.pending h.ok h.accepted hnot
  have hother : ∀ e : PoolEvent κ n, (∀ w act, e ≠ .worker w act) → e.works w = false := by
    intro e hevent
    cases e with
    | worker w' act => exact absurd rfl (hevent w' act)
    | _ => rfl
  cases pool_step_move h.ok he hstep with
  | call hpool _ _ hevent =>
    rw [hpool, hother e hevent]
    exact le_rfl
  | @added _ c' w' tasks _ hlist hevent =>
    rw [hother e hevent]
    change (Function.update s._s_pool w' _ w).rank c + 0 ≤ _
    by_cases hw : w = w'
    · subst hw
      rw [Function.update_self]
      exact (rank_add hpending hlist).le
    · rw [Function.update_of_ne hw]
      exact le_rfl
  | @work w' act worker mem hact hworker =>
    change (Function.update s._s_pool w' worker w).rank c + (decide (w' = w)).toNat ≤ _
    by_cases hw : w' = w
    · subst hw
      rw [Function.update_self, decide_eq_true rfl]
      exact h.live.rank_step h.ok hact hpending hworker hnot'
    · rw [Function.update_of_ne (Ne.symm hw), decide_eq_false hw]
      exact le_rfl

/-- **An accepted call is served.** In every run of the pool in which memory does not run out:
once a worker's queue has accepted a call, and whatever the other calls and workers do, the
client can return after at most seven steps of that worker for each task that was in its
queue then, and four more. -/
theorem accepted_call_is_served [NeZero n] (task_queue_size : Nat) (sql : κ → Str)
    (es es' : List (PoolEvent κ n)) (s t : PoolState κ n) (c : κ) (w : Fin n)
    (h : ((pool_machine n task_queue_size sql).restrict Allocates).Reaches es s)
    (hcall : s.call c = .wait w)
    (hrun : ((pool_machine n task_queue_size sql).restrict Allocates).run s es' = some t)
    (hsteps : 7 * (s._s_pool w).tasks._list.length + 4 ≤ es'.countP (·.works w)) :
    t.call c = .returned w ∨ t.call c = .wait w ∧
      ∃ t', pool_step t (.wait c) = some t' ∧ t'.call c = .returned w := by
  let m := (pool_machine n task_queue_size sql).restrict (Allocates (κ := κ) (n := n))
  have hok := pool_reaches_ok task_queue_size sql h
  have hlive : PoolLive s := by
    refine (Machine.restrict_preserves _ (P := fun s => PoolOk sql s ∧ PoolLive s) ?_
      ⟨pool_init_ok n task_queue_size sql, pool_init_live n task_queue_size sql⟩ h).2
    exact fun s e s' hs he hstep => ⟨pool_step_ok hs.1 he hstep, pool_step_live hs.1 hs.2 he hstep⟩
  have haccepted : Accepted sql w c s := ⟨hok, hlive, (hok.owner w c).mpr (.inl hcall)⟩
  have hkeep : ∀ s e s', Accepted sql w c s → m.step s e = some s' → Accepted sql w c s' := by
    intro s e s' hs hstep
    obtain ⟨he, hstep⟩ := (Machine.restrict_step_eq_some _).mp hstep
    exact hs.step he hstep
  have hstays : ∀ s e s', Accepted sql w c s → (s.mem.context c).latch._signal = true →
      m.step s e = some s' → (s'.mem.context c).latch._signal = true := by
    intro s e s' hs hsignal hstep
    obtain ⟨he, hstep⟩ := (Machine.restrict_step_eq_some _).mp hstep
    exact hs.stays he hsignal hstep
  have hdone : (t.mem.context c).latch._signal = true := by
    by_cases hsignal : (s.mem.context c).latch._signal = true
    · refine (m.run_preserves
        (P := fun s => Accepted sql w c s ∧ (s.mem.context c).latch._signal = true)
        (fun s e s' hs hstep => ?_) ⟨haccepted, hsignal⟩ hrun).2
      exact ⟨hkeep s e s' hs.1 hstep, hstays s e s' hs.1 hs.2 hstep⟩
    · have hrank := rank_le (hlive.pending hok haccepted.accepted hsignal)
      refine m.run_done_of_rank (f := fun s => (s._s_pool w).rank c) (k := (·.works w)) hkeep
        hstays ?_ haccepted hrun (by omega)
      intro s e s' hs hnot hstep hnot'
      obtain ⟨he, hstep⟩ := (Machine.restrict_step_eq_some _).mp hstep
      exact hs.rank he hnot hstep hnot'
  have ht : Accepted sql w c t := m.run_preserves hkeep haccepted hrun
  rcases (ht.ok.owner w c).mp ht.accepted with hwait | hreturned
  · refine .inr ⟨hwait, t.set_call c (.returned w), ?_, Function.update_self ..⟩
    simp only [pool_step, hwait]
    exact if_pos hdone
  · exact .inl hreturned

/-- The worker runs the call, and goes to sleep behind it. -/
def served_acts : List WorkerAct :=
  [.test, .store, .pop, .alloc true, .exec all_ok, .count_down, .signal, .test, .store, .pop,
    .timeout]

theorem accepted_call_is_served_select :
    ∃ s t, ((pool_machine 2 10 fun _ => lit "SELECT 1").restrict Allocates).Reaches
        [.fetch 0, .add 0 true] s ∧
      ((pool_machine 2 10 fun _ => lit "SELECT 1").restrict Allocates).run s
        (served_acts.map (.worker 1)) = some t ∧
      (t.call 0 = .returned 1 ∨ t.call 0 = .wait 1 ∧
        ∃ t', pool_step t (.wait 0) = some t' ∧ t'.call 0 = .returned 1) := by
  have hadded : (((pool_machine 2 10 fun _ => lit "SELECT 1").restrict Allocates).run
      (pool_machine 2 10 fun _ => lit "SELECT 1").init [.fetch 0, .add 0 true]).map
        (fun s => (s.call 0, (s._s_pool 1).tasks._list)) = some (.wait 1, [0]) := rfl
  obtain ⟨s, hs, hstate⟩ := Option.map_eq_some_iff.mp hadded
  obtain ⟨hcall, hlist⟩ := Prod.mk.inj hstate
  obtain ⟨t, ht⟩ : ∃ t, ((pool_machine 2 10 fun _ => lit "SELECT 1").restrict Allocates).run
      (pool_machine 2 10 fun _ => lit "SELECT 1").init
        ([.fetch 0, .add 0 true] ++ served_acts.map (.worker 1)) = some t :=
    Option.isSome_iff_exists.mp rfl
  have hrun := (Machine.run_append_of_eq_some _ hs (served_acts.map (.worker 1))).symm.trans ht
  refine ⟨s, t, hs, hrun, accepted_call_is_served 10 _ _ _ s t 0 1 hs hcall hrun ?_⟩
  rw [hlist]
  decide

end Rellaf.Mysql
