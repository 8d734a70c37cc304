/-
Which worker gets a statement.

`execute` gives its statement to the worker at `_action_idx`, counted on and taken modulo
the number of workers, and `begin` counts on the same `_action_idx` for the id of its
transaction. So the workers take turns, but a `begin` uses a turn up without giving anybody
work, and the counter begins again at `2 ^ 64`, which need not be the end of a round.

Any number of threads may call: counting on is atomic, and between a `connect` and a `stop`
nothing else of the pool changes. A run is the order in which the calls count on.
-/
import Rellaf.Lib.RoundRobin
import Rellaf.PoolSlots

set_option autoImplicit false

open Rellaf.Cpp

namespace Rellaf.Mysql.PoolSlots

/-! ## Two kinds of calls -/

/-- `begin`, as far as the pool is concerned. Its worker is its own and in no entry; one that
cannot be created is deleted with all that was allocated for it. -/
def State.begin_ (s : State) (create : Create) : State :=
  let s := { s with _action_idx := s._action_idx + 1 }
  match create with
  | .no_thread => s
  | .no_tasks | .no_start => { s with heap := s.heap ++ [none] }
  | .ok => { s with heap := s.heap ++ [some ⟨1, true⟩] }

inductive Turn where
  | execute
  | begin_ (create : Create)
  deriving DecidableEq, Repr

def turn (s : State) : Turn → Option State
  | .execute => step s .execute
  | .begin_ create => if s.lost then none else some (s.begin_ create)

/-- The calls of a connected pool. -/
def turn_machine : Machine State Turn where
  init := .new
  step := turn

/-- The statements for the worker at the index. -/
def load (uses : List (Nat × Found)) (i : Nat) : Nat := (uses.map Prod.fst).count i

/-- The turns that were used up. -/
def begins (es : List Turn) : Nat := es.countP (· ≠ .execute)

/-! ## A pool with a worker for each turn -/

/-- A `connect` has returned true, and no entry is null. -/
structure Connected (s : State) (live : List Nat) : Prop where
  slots : s.Slots 0 live
  count : s._s_thread_count ≠ 0
  room : s._s_thread_count.toNat ≤ live.length
  connected : s.connected = true
  lost : s.lost = false

variable {s s' t : State} {live : List Nat}

/-- The pool is in order where every index used until then was. -/
theorem inv_of_reaches {calls : List Call} (h : machine.Reaches calls s) (hok : s.UsesOk) :
    Inv s := by
  refine machine.run_preserves (P := fun s => s.UsesOk → Inv s) ?_ ?_ h hok
  · intro s call s' hs hstep hok'
    have hok : s.UsesOk := fun use huse => hok' use ((step_uses hstep).subset huse)
    obtain ⟨hiff, hkeep⟩ := step_inv (hs hok) hstep
    exact hkeep (hiff.mp hok')
  · intro hok
    exact ⟨hok, fun _ => ⟨0, [], ⟨rfl, List.nodup_nil, List.forall_mem_nil _⟩, Nat.le_refl _⟩,
      nofun⟩

theorem State.Slots.heap_append {z : Nat} (h : s.Slots z live) (thread : Option MyThread) :
    State.Slots { s with heap := s.heap ++ [thread] } z live := by
  refine ⟨h.pool, h.nodup, fun p hp => ?_⟩
  obtain ⟨t, hheap, hstarted⟩ := h.started p hp
  have hlt : p < s.heap.length := (List.getElem?_eq_some_iff.mp hheap).1
  exact ⟨t, by rw [List.getElem?_append_left hlt, hheap], hstarted⟩

theorem next_idx_eq (hcount : s._s_thread_count ≠ 0) :
    s.next_idx = (s._action_idx.toNat + 1) % 2 ^ 64 % s._s_thread_count.toNat := by
  have hpos : 0 < s._s_thread_count.toNat :=
    Nat.pos_of_ne_zero fun hzero => hcount (UInt32.toNat_inj.mp hzero)
  have hlt : (s._action_idx.toNat + 1) % 2 ^ 64 % s._s_thread_count.toNat < 2 ^ 32 :=
    Nat.lt_trans (Nat.mod_lt _ hpos) s._s_thread_count.toNat_lt
  rw [State.next_idx, UInt64.toNat_toUInt32, UInt64.toNat_mod, UInt32.toNat_toUInt64,
    UInt64.toNat_add]
  exact Nat.mod_eq_of_lt hlt

/-- A worker that runs gets the statement. -/
theorem Connected.execute (h : Connected s live) :
    ∃ found, found.ok = true ∧ turn s .execute =
      some { s with
        _action_idx := s._action_idx + 1
        uses := s.uses ++ [(s.next_idx, found)] } := by
  have hlt : s.next_idx < live.length := Nat.lt_of_lt_of_le (State.next_idx_lt h.count) h.room
  obtain ⟨thread, hfound, hstarted⟩ := h.slots.found_worker (List.getElem?_eq_getElem hlt)
  rw [Nat.zero_add] at hfound
  have hfound' : State.found { s with _action_idx := s._action_idx + 1 } s.next_idx =
    .worker live[s.next_idx] thread := hfound
  refine ⟨.worker live[s.next_idx] thread, hstarted, ?_⟩
  rw [turn, step, if_neg (by rw [h.lost]; exact Bool.false_ne_true)]
  rw [if_pos h.connected, State.fetch_thread, if_neg h.count]
  simp only [State.use, hfound', settle, CallOutcome.returned, Bool.not_true]
  rw [h.connected, h.lost]

/-! ## A run -/

/-- One call: the turn it takes, and the statement if it has one. -/
theorem Connected.turn (h : Connected s live) {e : Turn} (hturn : turn s e = some s') :
    Connected s' live ∧ s'._s_thread_count = s._s_thread_count ∧
      s'._action_idx = s._action_idx + 1 ∧
      (e = .execute ∧ (∃ found, found.ok = true ∧ s'.uses = s.uses ++ [(s.next_idx, found)]) ∨
        e ≠ .execute ∧ s'.uses = s.uses) := by
  cases e with
  | execute =>
    obtain ⟨found, hok, hexecute⟩ := h.execute
    rw [hexecute] at hturn
    cases hturn
    refine ⟨⟨⟨h.slots.pool, h.slots.nodup, h.slots.started⟩, h.count, h.room, h.connected,
      h.lost⟩, rfl, rfl, .inl ⟨rfl, found, hok, rfl⟩⟩
  | begin_ create =>
    rw [PoolSlots.turn, if_neg (by rw [h.lost]; exact Bool.false_ne_true)] at hturn
    cases hturn
    have hslots : (s.begin_ create).Slots 0 live := by
      have hcounted : State.Slots { s with _action_idx := s._action_idx + 1 } 0 live :=
        ⟨h.slots.pool, h.slots.nodup, h.slots.started⟩
      cases create with
      | no_thread => exact hcounted
      | _ => exact hcounted.heap_append _
    cases create <;>
      exact ⟨⟨hslots, h.count, h.room, h.connected, h.lost⟩, rfl, rfl, .inr ⟨nofun, rfl⟩⟩

/-- The statements of a run go to workers that run, at some of the turns of the counter. -/
theorem Connected.run {es : List Turn} (h : Connected s live)
    (hrun : turn_machine.run s es = some t) :
    ∃ uses, t.uses = s.uses ++ uses ∧ (∀ use ∈ uses, use.2.ok = true) ∧
      uses.length + begins es = es.length ∧
      (uses.map Prod.fst).Sublist (RoundRobin.turns (2 ^ 64) s._s_thread_count.toNat
        s._action_idx.toNat es.length) := by
  induction es generalizing s with
  | nil =>
    obtain rfl := Option.some.inj hrun
    exact ⟨[], by simp, by simp, rfl, List.Sublist.slnil⟩
  | cons e es ih =>
    obtain ⟨s', hturn, hrest⟩ := turn_machine.run_cons_eq_some.mp hrun
    obtain ⟨h', hcount, hidx, hstep⟩ := h.turn hturn
    obtain ⟨uses, huses, hok, hlen, hsub⟩ := ih h' hrest
    rw [hcount, hidx, UInt64.toNat_add] at hsub
    rcases hstep with ⟨rfl, found, hfound, hs'⟩ | ⟨hne, hs'⟩
    · refine ⟨(s.next_idx, found) :: uses, ?_, List.forall_mem_cons.mpr ⟨hfound, hok⟩, ?_, ?_⟩
      · rw [huses, hs', List.append_assoc, List.singleton_append]
      · have hbegins : begins (.execute :: es) = begins es := by simp [begins]
        rw [hbegins, List.length_cons, List.length_cons]
        omega
      · rw [List.map_cons, next_idx_eq h.count]
        exact hsub.cons_cons _
    · refine ⟨uses, by rw [huses, hs'], hok, ?_, hsub.cons _⟩
      have hbegins : begins (e :: es) = begins es + 1 := by simp [begins, hne]
      rw [hbegins, List.length_cons]
      omega

/-- **The workers get the same work.** In every run of `execute` and `begin` calls behind a
`connect`, every statement goes to a worker that runs, and two of the first
`_s_thread_count` workers are apart by one statement at most, by one more for each `begin`,
and by one more for each time that the counter begins again. -/
theorem work_is_spread (calls : List Call) (s : State) (h : machine.Reaches calls s)
    (hok : s.UsesOk) (hconnected : s.connected = true) (hlost : s.lost = false)
    (hnulls : s.nulls = 0) (es : List Turn) (t : State)
    (hrun : turn_machine.run s es = some t) :
    ∃ uses, t.uses = s.uses ++ uses ∧ (∀ use ∈ uses, use.2.ok = true) ∧
      uses.length + begins es = es.length ∧
      ∀ i < s._s_thread_count.toNat, ∀ j < s._s_thread_count.toNat,
        load uses i ≤ load uses j + 1 + begins es +
          (s._action_idx.toNat + es.length) / 2 ^ 64 := by
  have hinv : Inv s := inv_of_reaches h hok
  obtain ⟨z, live, hslots, hroom⟩ := hinv.slots hlost
  obtain rfl : z = 0 := hslots.nulls_eq.symm.trans hnulls
  rw [Nat.zero_add] at hroom
  have hpool : Connected s live := ⟨hslots, hinv.count hconnected, hroom, hconnected, hlost⟩
  obtain ⟨uses, huses, hfound, hlen, hsub⟩ := hpool.run hrun
  refine ⟨uses, huses, hfound, hlen, fun i hi j hj => ?_⟩
  have hspread := RoundRobin.count_le_of_sublist s._action_idx.toNat_lt hsub hi hj
  rw [List.length_map] at hspread
  unfold load
  omega

/-- Three workers, and a `begin` among four statements. -/
theorem work_is_spread_three :
    let s : State := ⟨3, [some 0, some 1, some 2], [some ⟨1, true⟩, some ⟨1, true⟩, some ⟨1, true⟩],
      0, [], true, false⟩
    ∃ t, turn_machine.run s [.execute, .execute, .begin_ .ok, .execute, .execute] = some t ∧
      ∃ uses, t.uses = [] ++ uses ∧ (∀ use ∈ uses, use.2.ok = true) ∧ uses.length + 1 = 5 ∧
        ∀ i < 3, ∀ j < 3, load uses i ≤ load uses j + 1 + 1 + 5 / 2 ^ 64 := by
  intro s
  obtain ⟨t, hrun⟩ : ∃ t, turn_machine.run s
      [.execute, .execute, .begin_ .ok, .execute, .execute] = some t :=
    Option.isSome_iff_exists.mp (by decide)
  exact ⟨t, hrun, work_is_spread [.connect 3 (fun _ => .ok) fun _ => true] s rfl
    (List.forall_mem_nil _) rfl rfl rfl _ t hrun⟩

/-- Two workers, and a `begin` before every statement: one of them gets them all. -/
example :
    (turn_machine.run ⟨2, [some 0, some 1], [some ⟨1, true⟩, some ⟨1, true⟩], 0, [], true, false⟩
      [.begin_ .ok, .execute, .begin_ .ok, .execute, .begin_ .ok, .execute]).map
        (fun t => (load t.uses 0, load t.uses 1)) = some (3, 0) := by
  decide

end Rellaf.Mysql.PoolSlots
