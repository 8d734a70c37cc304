/-
Where no call times out, nobody clears and memory does not run out, the threads at a queue
do not get stuck together. Each signal is one flag for all the threads that wait for it, so
a single thread may go back to sleep next to what it waits for; but the last call that
ended has left one side of the queue open. Behind an `add_block` a call of `pop_block` that
begins returns at once, and of those that sleep one has been woken and finds the signal;
behind a `pop_block` it is the same the other way round.
-/
import Rellaf.QueueHistory

set_option autoImplicit false

open Rellaf.Cpp

namespace Rellaf.Mysql

/-- The call waits for room. -/
def Call.adds {α : Type} : Call α → Bool
  | .adding _ _ => true
  | _ => false

/-- The call waits for a value. -/
def Call.pops {α : Type} : Call α → Bool
  | .popping _ => true
  | _ => false

section

variable {α : Type} (val : α) (timed : Bool)

@[simp] theorem Call.adds_idle : (Call.idle : Call α).adds = false := rfl

@[simp] theorem Call.adds_adding : (Call.adding val timed).adds = true := rfl

@[simp] theorem Call.adds_popping : (Call.popping timed : Call α).adds = false := rfl

@[simp] theorem Call.pops_idle : (Call.idle : Call α).pops = false := rfl

@[simp] theorem Call.pops_adding : (Call.adding val timed).pops = false := rfl

@[simp] theorem Call.pops_popping : (Call.popping timed : Call α).pops = true := rfl

end

/-! ## Who is at a condition variable -/

namespace Cond

variable {τ : Type} [DecidableEq τ] {c c' : Cond τ} {P Q : τ → Prop} {t : τ}

omit [DecidableEq τ] in
/-- The threads at the condition variable are those that `P` says, each of them once. -/
structure Has (c : Cond τ) (P : τ → Prop) : Prop where
  nodup : (c.asleep ++ c.woken).Nodup
  mem : ∀ t, t ∈ c.asleep ++ c.woken ↔ P t

omit [DecidableEq τ] in
theorem has_new : (Cond.new : Cond τ).Has fun _ => False :=
  ⟨List.nodup_nil, fun t => List.mem_nil_iff t⟩

omit [DecidableEq τ] in
theorem Has.congr (h : c.Has P) (hPQ : ∀ t, P t ↔ Q t) : c.Has Q :=
  ⟨h.nodup, fun t => (h.mem t).trans (hPQ t)⟩

omit [DecidableEq τ] in
theorem Has.perm (h : c.Has P) (hperm : (c'.asleep ++ c'.woken).Perm (c.asleep ++ c.woken)) :
    c'.Has P :=
  ⟨hperm.nodup_iff.mpr h.nodup, fun t => hperm.mem_iff.trans (h.mem t)⟩

theorem Has.wake (h : c.Has P) (hwake : c.wake t = some c') : c'.Has P := by
  rw [Cond.wake, Option.ite_none_right_eq_some] at hwake
  obtain ⟨ht, hc⟩ := hwake
  cases hc
  refine h.perm ?_
  have hlast : (c.woken ++ [t]).Perm (t :: c.woken) := List.perm_append_singleton t c.woken
  have hfirst : (t :: c.asleep.erase t).Perm c.asleep := (List.perm_cons_erase ht).symm
  exact ((hlast.append_left _).trans List.perm_middle).trans (hfirst.append_right c.woken)

theorem Has.signal (h : c.Has P) {wakes : Option τ} (hsignal : c.signal wakes = some c') :
    c'.Has P := by
  cases wakes with
  | some t => exact h.wake hsignal
  | none =>
    rw [Cond.signal, Option.ite_none_right_eq_some] at hsignal
    obtain rfl : c = c' := Option.some.inj hsignal.2
    exact h

/-- A thread that sleeps has not been woken. -/
theorem Has.wait (h : c.Has P) (ht : t ∉ c.asleep) : (c.wait t).Has fun u => u = t ∨ P u := by
  have hnodup := List.nodup_append.mp h.nodup
  have hmem : ∀ u, u ∈ (c.asleep ++ [t]) ++ c.woken.erase t ↔ u = t ∨ P u := by
    intro u
    rw [← h.mem u, List.append_assoc, List.mem_append, List.mem_append, List.mem_append,
      List.mem_singleton, hnodup.2.1.mem_erase_iff]
    by_cases hu : u = t
    · simp [hu]
    · simp [hu]
  refine ⟨?_, hmem⟩
  change ((c.asleep ++ [t]) ++ c.woken.erase t).Nodup
  rw [List.append_assoc]
  refine List.nodup_append.mpr ⟨hnodup.1, ?_, ?_⟩
  · exact List.nodup_cons.mpr ⟨hnodup.2.1.not_mem_erase, hnodup.2.1.erase t⟩
  · rintro u hu v hv rfl
    rcases List.mem_cons.mp hv with rfl | hv
    · exact ht hu
    · exact hnodup.2.2 u hu u (List.mem_of_mem_erase hv) rfl

theorem Has.leave (h : c.Has P) : (c.leave t).Has fun u => u ≠ t ∧ P u := by
  have hnodup := List.nodup_append.mp h.nodup
  refine ⟨?_, fun u => ?_⟩
  · refine List.nodup_append.mpr ⟨hnodup.1.erase t, hnodup.2.1.erase t, ?_⟩
    exact fun u hu v hv =>
      hnodup.2.2 u (List.mem_of_mem_erase hu) v (List.mem_of_mem_erase hv)
  · change u ∈ c.asleep.erase t ++ c.woken.erase t ↔ u ≠ t ∧ P u
    rw [← h.mem u, List.mem_append, List.mem_append, hnodup.1.mem_erase_iff,
      hnodup.2.1.mem_erase_iff]
    exact and_or_left.symm

/-- A signal wakes somebody, or nobody sleeps. -/
theorem exists_signal (c : Cond τ) : ∃ wakes c', c.signal wakes = some c' := by
  cases hasleep : c.asleep with
  | nil => exact ⟨none, c, if_pos (by rw [hasleep]; rfl)⟩
  | cons t ts =>
    refine ⟨some t, ⟨c.asleep.erase t, c.woken ++ [t]⟩, if_pos ?_⟩
    rw [hasleep]
    exact List.mem_cons_self

end Cond

namespace Threads

variable {τ α : Type} [DecidableEq τ] {size : Nat} {s s' : Threads τ α} {vals vals' : List α}
  {e : Event τ α} {es : List (Event τ α)} {r : Run (Threads τ α)} {t : τ}

/-! ## Who waits -/

/-- The threads at the two condition variables are those in calls that wait. -/
structure CallsOk (s : Threads τ α) : Prop where
  full : s.full_cond.Has fun t => (s.call t).adds = true
  empty : s.empty_cond.Has fun t => (s.call t).pops = true

omit [DecidableEq τ] in
theorem callsOk_new (size : Nat) : (.new size : Threads τ α).CallsOk :=
  ⟨Cond.has_new.congr fun _ => by simp [Threads.new],
    Cond.has_new.congr fun _ => by simp [Threads.new]⟩

omit [DecidableEq τ] in
/-- A call that is elsewhere is not at the condition variable. -/
theorem CallsOk.not_asleep_full (h : s.CallsOk) (ht : (s.call t).adds = false) :
    t ∉ s.full_cond.asleep := fun hmem => by
  have hadds := (h.full.mem t).mp (List.mem_append_left _ hmem)
  rw [ht] at hadds
  cases hadds

omit [DecidableEq τ] in
theorem CallsOk.not_asleep_empty (h : s.CallsOk) (ht : (s.call t).pops = false) :
    t ∉ s.empty_cond.asleep := fun hmem => by
  have hpops := (h.empty.mem t).mp (List.mem_append_left _ hmem)
  rw [ht] at hpops
  cases hpops

omit [DecidableEq τ] in
/-- One that has been woken sleeps no more. -/
theorem CallsOk.not_asleep_of_woken {c : Cond τ} {P : τ → Prop} (h : c.Has P)
    (ht : t ∈ c.woken) : t ∉ c.asleep :=
  fun hmem => (List.nodup_append.mp h.nodup).2.2 t hmem t ht rfl

theorem CallsOk.wait_full (h : s.CallsOk) (hasleep : t ∉ s.full_cond.asleep)
    (hpops : (s.call t).pops = false) (val : α) (timed : Bool) :
    (s.wait_full t val timed).CallsOk := by
  refine ⟨(h.full.wait hasleep).congr fun u => ?_, h.empty.congr fun u => ?_⟩
  · by_cases hu : u = t
    · simp [Threads.wait_full, hu]
    · simp [Threads.wait_full, hu]
  · by_cases hu : u = t
    · simp [Threads.wait_full, hu, hpops]
    · simp [Threads.wait_full, hu]

theorem CallsOk.wait_empty (h : s.CallsOk) (hasleep : t ∉ s.empty_cond.asleep)
    (hadds : (s.call t).adds = false) (timed : Bool) : (s.wait_empty t timed).CallsOk := by
  refine ⟨h.full.congr fun u => ?_, (h.empty.wait hasleep).congr fun u => ?_⟩
  · by_cases hu : u = t
    · simp [Threads.wait_empty, hu, hadds]
    · simp [Threads.wait_empty, hu]
  · by_cases hu : u = t
    · simp [Threads.wait_empty, hu]
    · simp [Threads.wait_empty, hu]

theorem CallsOk.added (h : s.CallsOk) (hpops : (s.call t).pops = false) {cond : Cond τ}
    (hcond : cond.Has fun t => (s.call t).pops = true) (val : α) (timed : Bool) (ret : Int)
    (heap : Heap α) (queue : LinkQueue) : (s.added t val timed ret heap queue cond).CallsOk := by
  refine ⟨h.full.leave.congr fun u => ?_, hcond.congr fun u => ?_⟩
  · by_cases hu : u = t
    · simp [Threads.added, hu]
    · simp [Threads.added, hu]
  · by_cases hu : u = t
    · simp [Threads.added, hu, hpops]
    · simp [Threads.added, hu]

theorem CallsOk.popped (h : s.CallsOk) (hadds : (s.call t).adds = false) {cond : Cond τ}
    (hcond : cond.Has fun t => (s.call t).adds = true) (n : Option (Addr × α)) (timed : Bool)
    (ret : Int) (heap : Heap α) (queue : LinkQueue) :
    (s.popped t n timed ret heap queue cond).CallsOk := by
  refine ⟨hcond.congr fun u => ?_, h.empty.leave.congr fun u => ?_⟩
  · by_cases hu : u = t
    · simp [Threads.popped, hu, hadds]
    · simp [Threads.popped, hu]
  · by_cases hu : u = t
    · simp [Threads.popped, hu]
    · simp [Threads.popped, hu]

theorem CallsOk.move (h : s.CallsOk) (hmove : Move s vals e s' vals') : s'.CallsOk := by
  cases hmove with
  | add_sleep hcall _ =>
    exact h.wait_full (h.not_asleep_full (by rw [hcall]; rfl)) (by rw [hcall]; rfl) _ _
  | add hcall _ hsignal =>
    exact h.added (by rw [hcall]; rfl) (h.empty.signal hsignal) _ _ _ _ _
  | add_wake_sleep hcall hwoken _ =>
    exact h.wait_full (CallsOk.not_asleep_of_woken h.full hwoken) (by rw [hcall]; rfl) _ _
  | add_wake hcall _ _ hsignal =>
    exact h.added (by rw [hcall]; rfl) (h.empty.signal hsignal) _ _ _ _ _
  | add_timeout hcall => exact h.added (by rw [hcall]; rfl) h.empty _ _ _ _ _
  | pop_sleep hcall _ =>
    exact h.wait_empty (h.not_asleep_empty (by rw [hcall]; rfl)) (by rw [hcall]; rfl) _
  | pop hcall _ hsignal =>
    exact h.popped (by rw [hcall]; rfl) (h.full.signal hsignal) _ _ _ _ _
  | pop_null _ => exact ⟨h.full, h.empty⟩
  | pop_wake_sleep hcall hwoken _ =>
    exact h.wait_empty (CallsOk.not_asleep_of_woken h.empty hwoken) (by rw [hcall]; rfl) _
  | pop_wake hcall _ _ hsignal =>
    exact h.popped (by rw [hcall]; rfl) (h.full.signal hsignal) _ _ _ _ _
  | pop_timeout hcall => exact h.popped (by rw [hcall]; rfl) h.full _ _ _ _ _
  | clear _ _ hempty hfull => exact ⟨h.full.signal hfull, h.empty.signal hempty⟩
  | spurious_full hwake => exact ⟨h.full.wake hwake, h.empty⟩
  | spurious_empty hwake => exact ⟨h.full, h.empty.wake hwake⟩
  | delete _ => exact ⟨h.full, h.empty⟩

/-! ## Which side is open -/

/-- The signal is set, and where somebody sleeps somebody is woken. -/
structure Lit (c : Cond τ) (signal : Bool) : Prop where
  set : signal = true
  woken : c.asleep ≠ [] → c.woken ≠ []

omit [DecidableEq τ] in
/-- What the last call that ended has left: a value, with the signal for it, or room, with the
signal for that. Before the first of them nobody waits for room. -/
inductive Left (size : Nat) (s : Threads τ α) (vals : List α) : Prop where
  | value (hvals : vals ≠ []) (hlit : Lit s.empty_cond s.queue._empty_signal)
  | room (hroom : vals.length < capacity size) (hlit : Lit s.full_cond s.queue._full_signal)
  | start (hvals : vals = []) (hasleep : s.full_cond.asleep = []) (hwoken : s.full_cond.woken = [])

theorem lit_signal {c c' : Cond τ} {wakes : Option τ} (hsignal : c.signal wakes = some c') :
    Lit c' true := by
  refine ⟨rfl, fun hasleep => List.ne_nil_of_length_pos ?_⟩
  have hlength := (Cond.signal_spec hsignal hasleep).2
  omega

theorem Lit.wake {c c' : Cond τ} {signal : Bool} (h : Lit c signal) (hwake : c.wake t = some c') :
    Lit c' signal := by
  refine ⟨h.set, fun _ => List.ne_nil_of_length_pos ?_⟩
  have hlength := (Cond.wake_spec hwake).2
  omega

theorem Left.added {val : α} {timed : Bool} {ret : Int} {heap : Heap α} {queue : LinkQueue}
    {wakes : Option τ} {cond : Cond τ}
    (hq : (s.queue.contents vals).add_locked val true = (ret, queue.contents vals'))
    (hroom : vals.length < s.queue._max_size) (hsignal : s.empty_cond.signal wakes = some cond) :
    Left size (s.added t val timed ret heap queue cond) vals' := by
  have hset : true = queue._empty_signal := congrArg (fun p => p.2._empty_signal) hq
  have hlist := (s.queue.contents vals).add_locked_eq val true
  rw [hq, if_pos ⟨hroom, rfl⟩] at hlist
  have hvals : vals' = vals ++ [val] := (Prod.mk.inj hlist).2
  refine .value ?_ ?_
  · rw [hvals]
    exact List.append_ne_nil_of_right_ne_nil _ (List.cons_ne_nil _ _)
  · change Lit cond queue._empty_signal
    rw [← hset]
    exact lit_signal hsignal

theorem Left.popped {n : Option (Addr × α)} {timed : Bool} {heap : Heap α} {queue : LinkQueue}
    {wakes : Option τ} {cond : Cond τ}
    (hq : (s.queue.contents vals).pop_locked = (n.map Prod.snd, queue.contents vals'))
    (hle : vals.length ≤ capacity size) (hsignal : s.full_cond.signal wakes = some cond) :
    Left size (s.popped t n timed 0 heap queue cond) vals' := by
  have hset : true = queue._full_signal := congrArg (fun p => p.2._full_signal) hq
  have hvals : vals.tail = vals' := congrArg (fun p => p.2._list) hq
  have hpos := capacity_pos size
  refine .room ?_ ?_
  · rw [← hvals, List.length_tail]
    omega
  · change Lit cond queue._full_signal
    rw [← hset]
    exact lit_signal hsignal

/-- A call that goes to sleep leaves the other side open, and its own was not. -/
theorem Left.wait_full (h : Left size s vals) {val : α} {timed : Bool}
    (hsignal : s.queue._full_signal = false) (hstart : vals = [] → t ∈ s.full_cond.woken) :
    Left size (s.wait_full t val timed) vals := by
  cases h with
  | value hvals hlit => exact .value hvals hlit
  | room _ hlit =>
    have hset := hlit.set
    rw [hsignal] at hset
    cases hset
  | start hvals _ hwoken =>
    have ht := hstart hvals
    rw [hwoken] at ht
    cases ht

theorem Left.wait_empty (h : Left size s vals) {timed : Bool}
    (hsignal : s.queue._empty_signal = false) : Left size (s.wait_empty t timed) vals := by
  cases h with
  | value _ hlit =>
    have hset := hlit.set
    rw [hsignal] at hset
    cases hset
  | room hroom hlit => exact .room hroom hlit
  | start hvals hasleep hwoken => exact .start hvals hasleep hwoken

/-- No call times out, nobody clears the queue and memory does not run out. -/
def waits_on (e : Event τ α) : Bool :=
  match e with
  | .add_timeout _ | .pop_timeout _ => false
  | e => keeps_signals e

theorem Left.move (h : Left size s vals) (hok : SignalsOk size s vals)
    (he : waits_on e = true) (hmove : Move s vals e s' vals') : Left size s' vals' := by
  have hmax : s.queue._max_size = capacity size := hok.max_size
  have hle : vals.length ≤ capacity size := hmax ▸ hok.queue.length_le
  have hroom : RoomOk size s vals := ⟨hmax, hle, fun hset => hmax ▸ hok.queue.full hset⟩
  have hpos := capacity_pos size
  cases hmove with
  | @add _ _ _ alloc _ _ _ _ _ _ _ hq hsignal =>
    have halloc : alloc.isSome = true := he
    rw [halloc] at hq
    have hgoes := Queue.add_block_eq_some _ hq
    rw [Queue.add_block, Option.ite_none_left_eq_some] at hq
    have hgo : (s.queue.contents vals).isfull = false ∨ s.queue._full_signal = true := by
      have hgo := hq.1
      simp only [Bool.and_eq_true, Bool.not_eq_true', not_and_or, Bool.not_eq_true,
        Bool.not_eq_false] at hgo
      exact hgo
    exact Left.added hgoes (hmax ▸ hroom.has_room hgo) hsignal
  | @add_wake _ _ _ alloc _ _ _ _ _ _ _ _ hq hsignal =>
    have halloc : alloc.isSome = true := he
    rw [halloc] at hq
    have hgoes := Queue.add_wake_eq_some _ hq
    rw [Queue.add_wake, Option.ite_none_left_eq_some] at hq
    have hset : (s.queue.contents vals)._full_signal = true := by simpa using hq.1
    exact Left.added hgoes (hmax ▸ hroom.has_room (.inr hset)) hsignal
  | pop _ hq hsignal => exact Left.popped (Queue.pop_block_eq_some _ hq) hle hsignal
  | pop_wake _ _ hq hsignal => exact Left.popped (Queue.pop_wake_eq_some _ hq) hle hsignal
  | add_sleep _ hq =>
    obtain ⟨hfull, hsignal⟩ := Queue.add_block_eq_none _ hq
    refine h.wait_full hsignal fun hvals => ?_
    -- an empty list is not full
    have hlength : capacity size ≤ vals.length := hmax ▸ hfull
    rw [hvals, List.length_nil] at hlength
    omega
  | add_wake_sleep _ hwoken hq => exact h.wait_full (Queue.add_wake_eq_none _ hq) fun _ => hwoken
  | pop_sleep _ hq => exact h.wait_empty (Queue.pop_block_signal _ hq)
  | pop_wake_sleep _ _ hq => exact h.wait_empty (Queue.pop_wake_eq_none _ hq)
  | spurious_full hwake =>
    cases h with
    | value hvals hlit => exact .value hvals hlit
    | room hroom hlit => exact .room hroom (hlit.wake hwake)
    | start _ hasleep _ => exact absurd hasleep (Cond.wake_spec hwake).1
  | spurious_empty hwake =>
    cases h with
    | value hvals hlit => exact .value hvals (hlit.wake hwake)
    | room hroom hlit => exact .room hroom hlit
    | start hvals hasleep hwoken => exact .start hvals hasleep hwoken
  | add_timeout _ => cases he
  | pop_timeout _ => cases he
  | clear _ _ _ _ => cases he
  | pop_null _ =>
    cases h with
    | value hvals hlit => exact .value hvals hlit
    | room hroom hlit => exact .room hroom hlit
    | start hvals hasleep hwoken => exact .start hvals hasleep hwoken
  | delete _ =>
    cases h with
    | value hvals hlit => exact .value hvals hlit
    | room hroom hlit => exact .room hroom hlit
    | start hvals hasleep hwoken => exact .start hvals hasleep hwoken

/-! ## No deadlock -/

/-- The section of the thread can run, and whomever its signal picks, the call of the thread
has returned behind it. -/
def Returns (s : Threads τ α) (t : τ) (section_of : Option τ → Event τ α) : Prop :=
  (∃ wakes r, s.step (section_of wakes) = some r) ∧
    ∀ wakes r, s.step (section_of wakes) = some r → ∃ s', r = .ok s' ∧ s'.call t = .idle

/-- The queue is open for `pop_block`: a call that begins returns at once, and where some
wait one of them returns as soon as it runs. -/
structure PopsOpen (s : Threads τ α) : Prop where
  begins : ∀ t timed, s.call t = .idle → Returns s t (.pop t timed)
  waits : (∃ t, (s.call t).pops = true) →
    ∃ t, (s.call t).pops = true ∧ Returns s t (.pop_wake t)

/-- The same for `add_block`, whatever address `new` gives. -/
structure AddsOpen (s : Threads τ α) : Prop where
  begins : ∀ t val timed alloc, s.call t = .idle → s.fresh alloc = true →
    Returns s t fun wakes => .add t val timed alloc wakes
  waits : (∃ t, (s.call t).adds = true) → ∃ t, (s.call t).adds = true ∧
    ∀ alloc, s.fresh alloc = true → Returns s t fun wakes => .add_wake t alloc wakes

omit [DecidableEq τ] in
/-- Where somebody waits and the signal is lit, somebody has been woken. -/
theorem Lit.exists_woken {c : Cond τ} {signal : Bool} {P : τ → Prop} (h : Lit c signal)
    (hc : c.Has P) (hwaits : ∃ t, P t) : ∃ t, t ∈ c.woken ∧ P t := by
  obtain ⟨t, ht⟩ := hwaits
  have hne : c.woken ≠ [] := by
    rcases List.mem_append.mp ((hc.mem t).mpr ht) with hmem | hmem
    · exact h.woken (List.ne_nil_of_mem hmem)
    · exact List.ne_nil_of_mem hmem
  obtain ⟨u, hu⟩ := List.exists_mem_of_ne_nil _ hne
  exact ⟨u, hu, (hc.mem u).mp (List.mem_append_right _ hu)⟩

/-- A section behind its wait can run, whomever its signal picks. -/
theorem exists_run_pop (s : Threads τ α) (t : τ) (timed : Bool)
    (r : Run (Option Addr × Heap α × LinkQueue)) :
    ∃ wakes r', s.run_pop t timed wakes (some r) = some r' := by
  obtain ⟨wakes, cond, hsignal⟩ := s.full_cond.exists_signal
  exact ⟨wakes, _, by rw [run_pop, hsignal]; rfl⟩

theorem exists_run_add (s : Threads τ α) (t : τ) (val : α) (timed : Bool)
    (r : Run (Int × Heap α × LinkQueue)) :
    ∃ wakes r', s.run_add t val timed wakes (some r) = some r' := by
  obtain ⟨wakes, cond, hsignal⟩ := s.empty_cond.exists_signal
  exact ⟨wakes, _, by rw [run_add, hsignal]; rfl⟩

variable {nodes : List (Addr × α)}

theorem Stored.pops_open (hstored : s.Stored nodes) (hcalls : s.CallsOk)
    (hvals : nodes.map Prod.snd ≠ []) (hlit : Lit s.empty_cond s.queue._empty_signal) :
    PopsOpen s := by
  have hempty : s.queue.isempty = false := by
    rw [hstored.queue.isempty_eq]
    simpa [Queue.isempty, LinkQueue.contents] using hvals
  refine ⟨fun t timed hcall => ⟨?_, ?_⟩, fun hwaits => ?_⟩
  · simp only [step, hcall, LinkQueue.pop_block, hempty, Bool.false_and, Bool.false_eq_true,
      if_false]
    exact s.exists_run_pop t timed _
  · intro wakes r hstep
    obtain ⟨s', nodes', rfl, -, hmove⟩ := hstored.step_moves hstep
    refine ⟨s', rfl, ?_⟩
    generalize nodes'.map Prod.snd = vals' at hmove
    cases hmove with
    | pop_sleep _ hq => exact absurd (Queue.pop_block_eq_none _ hq) hvals
    | pop _ _ _ => exact Function.update_self ..
  · obtain ⟨t, hwoken, ht⟩ := hlit.exists_woken hcalls.empty hwaits
    refine ⟨t, ht, ?_, ?_⟩
    · cases hcall : s.call t with
      | idle => simp [hcall] at ht
      | adding => simp [hcall] at ht
      | popping timed =>
        simp only [step, hcall, hwoken, if_true, LinkQueue.pop_wake, hlit.set, Bool.not_true,
          Bool.false_eq_true, if_false]
        exact s.exists_run_pop t timed _
    · intro wakes r hstep
      obtain ⟨s', nodes', rfl, -, hmove⟩ := hstored.step_moves hstep
      refine ⟨s', rfl, ?_⟩
      generalize nodes'.map Prod.snd = vals' at hmove
      cases hmove with
      | pop_wake_sleep _ _ hq =>
        have hsignal : s.queue._empty_signal = false := Queue.pop_wake_eq_none _ hq
        rw [hlit.set] at hsignal
        cases hsignal
      | pop_wake _ _ _ _ => exact Function.update_self ..

theorem Stored.adds_open (hstored : s.Stored nodes) (hmax : s.queue._max_size = capacity size)
    (hroom : nodes.length < capacity size)
    (hwoken : (∃ t, (s.call t).adds = true) → s.queue._full_signal = true ∧
      ∃ t, t ∈ s.full_cond.woken ∧ (s.call t).adds = true) : AddsOpen s := by
  have hfull : s.queue.isfull = false := by
    rw [hstored.queue.isfull_eq]
    simpa [Queue.isfull, LinkQueue.contents, hmax] using hroom
  refine ⟨fun t val timed alloc hcall hfresh => ⟨?_, ?_⟩, fun hwaits => ?_⟩
  · simp only [step, hcall, hfresh, if_true, LinkQueue.add_block, hfull, Bool.false_and,
      Bool.false_eq_true, if_false]
    exact s.exists_run_add t val timed _
  · intro wakes r hstep
    obtain ⟨s', nodes', rfl, -, hmove⟩ := hstored.step_moves hstep
    refine ⟨s', rfl, ?_⟩
    generalize nodes'.map Prod.snd = vals' at hmove
    cases hmove with
    | add_sleep _ hq =>
      have hlength := (Queue.add_block_eq_none _ hq).1
      rw [LinkQueue.contents, hmax, List.length_map] at hlength
      exact absurd hroom (Nat.not_lt.mpr hlength)
    | add _ _ _ => exact Function.update_self ..
  · obtain ⟨hset, t, hmem, ht⟩ := hwoken hwaits
    refine ⟨t, ht, fun alloc hfresh => ⟨?_, ?_⟩⟩
    · cases hcall : s.call t with
      | idle => simp [hcall] at ht
      | popping => simp [hcall] at ht
      | adding val timed =>
        simp only [step, hcall, hmem, hfresh, and_self, if_true, LinkQueue.add_wake, hset,
          Bool.not_true, Bool.false_eq_true, if_false]
        exact s.exists_run_add t val timed _
    · intro wakes r hstep
      obtain ⟨s', nodes', rfl, -, hmove⟩ := hstored.step_moves hstep
      refine ⟨s', rfl, ?_⟩
      generalize nodes'.map Prod.snd = vals' at hmove
      cases hmove with
      | add_wake_sleep _ _ hq =>
        have hsignal : s.queue._full_signal = false := Queue.add_wake_eq_none _ hq
        rw [hset] at hsignal
        cases hsignal
      | add_wake _ _ _ _ => exact Function.update_self ..

/-- **One side of the queue is always open.** In every run of any number of threads in which no
call times out, nobody clears the queue and memory does not run out: in every state the
queue is open for `pop_block` or open for `add_block`. So threads that wait on both sides
are never stuck, though a single one may be left asleep next to a value. -/
theorem queue_stays_open
    (h : ((queue_machine τ α size).restrict fun _ e => waits_on e = true).Reaches es r) :
    ∃ s, r = .ok s ∧ (PopsOpen s ∨ AddsOpen s) := by
  obtain ⟨s, nodes, rfl, hstored, hok, hcalls, hleft⟩ := reaches_of_moves
    (Q := fun s vals => SignalsOk size s vals ∧ s.CallsOk ∧ Left size s vals)
    ⟨⟨Queue.new_ok size true, rfl, nofun⟩, callsOk_new size, .start rfl rfl rfl⟩
    (fun s nodes e s' vals' _ hs he hmove => by
      have hkeeps : keeps_signals e = true := by
        cases e with
        | add_timeout => rfl
        | pop_timeout => rfl
        | _ => exact he
      exact ⟨hs.1.move hkeeps hmove, hs.2.1.move hmove, hs.2.2.move hs.1 he hmove⟩) h
  refine ⟨s, rfl, ?_⟩
  cases hleft with
  | value hvals hlit => exact .inl (hstored.pops_open hcalls hvals hlit)
  | room hroom hlit =>
    rw [List.length_map] at hroom
    exact .inr (hstored.adds_open hok.max_size hroom fun hwaits =>
      ⟨hlit.set, hlit.exists_woken hcalls.full hwaits⟩)
  | start hvals hasleep hwoken =>
    have hnil : nodes = [] := List.map_eq_nil_iff.mp hvals
    refine .inr (hstored.adds_open hok.max_size ?_ ?_)
    · rw [hnil]
      exact capacity_pos size
    · rintro ⟨t, ht⟩
      have hmem := (hcalls.full.mem t).mpr ht
      rw [hasleep, hwoken] at hmem
      cases hmem

/-- Also where a consumer has gone back to sleep next to a value. -/
theorem queue_stays_open_lost :
    ∃ s, (queue_machine Nat Nat 2).Reaches lost_run (.ok s) ∧ (PopsOpen s ∨ AddsOpen s) := by
  obtain ⟨r, hr⟩ : ∃ r, ((queue_machine Nat Nat 2).restrict
      fun _ e => waits_on e = true).Reaches lost_run r := ⟨_, rfl⟩
  obtain ⟨s, rfl, hopen⟩ := queue_stays_open hr
  exact ⟨s, hr, hopen⟩

-- A call that times out takes the signal with it. Then the one consumer sleeps, the list is
-- full, and the producer sleeps too.
example : ∃ s, (queue_machine Nat Nat 1).Reaches [.pop 0 false none, .pop 1 true none,
    .add 2 7 false (some 0) (some 0), .pop_timeout 1, .pop_wake 0 none,
    .add 2 8 false (some 1) none] (.ok s) ∧ s.vals = .ok [7] ∧ s.empty_cond.asleep = [0] ∧
      s.full_cond.asleep = [2] ∧ s.empty_cond.woken = [] ∧ s.full_cond.woken = [] :=
  ⟨_, rfl, rfl, rfl, rfl, rfl, rfl⟩

end Threads

end Rellaf.Mysql
