/-
`tx_end` by several threads on one active transaction: `commit` and `rollback`
against each other and against `thd_routine`.

The lookup of the entry and its erasure are two sections under `_s_tx_lock`, and
everything that is done to the worker lies between them. A call whose lookup falls
between the two of another finds the entry as well: it reads the entry, sends its
statement, joins and deletes, on a worker that the other one does the same to
(`ended_twice`). `Alone` rules out that one step, and `one_call_ends` is what is
left then: one call does all of it, each once, and every other call returns false
from its lookup.

Each step here is no larger than one access to what the threads share; `uses` is
the record of what the calls have done to the worker.
-/
import Rellaf.Lib.Machine
import Rellaf.MysqlWorker

set_option autoImplicit false

open Rellaf.Cpp

namespace Rellaf.Mysql.TxEnd

variable {κ : Type} [DecidableEq κ]

/-! ## The threads -/

/-- The two functions that call `tx_end`. -/
inductive EndOp where
  | commit
  | rollback
  deriving DecidableEq, Repr

/-- The statement they give it. -/
def EndOp.sql : EndOp → Str
  | .commit => lit "COMMIT"
  | .rollback => lit "ROLLBACK"

/-- Where a call of `tx_end` is: at `find`, at `entry->second.thread`, and so on to
`erase` and to `result->status`. -/
inductive CallPc where
  | lookup
  | read
  | add
  | add_waiting
  | wait
  | store
  | clear
  | join
  | delete
  | erase
  | result
  | returned (re : Bool)
  deriving DecidableEq, Repr

/-- What a call does to the worker: `add_block`, `status = 0`, `clear`,
`pthread_join` and the two deletes. -/
inductive Use where
  | send
  | stop
  | clear
  | join
  | delete
  deriving DecidableEq, Repr

/-- What a pointer is followed to when there is nothing behind it: the iterator into
`_s_tx_pool`, the `MyThread`, the null `result`. -/
inductive Deref where
  | entry
  | worker
  | result
  deriving DecidableEq, Repr

/-- `entry` says that `_s_tx_pool` has the transaction; `worker` is `none` once it
is deleted. The code does not keep `uses`. -/
structure State (κ : Type) where
  entry : Bool
  worker : Option (Worker κ)
  joined : Bool
  mem : Memory κ
  call : κ → CallPc
  uses : List (κ × Use)
  fault : Option Deref

/-- `alloc` says whether `add_block` gets a node. -/
inductive Event (κ : Type) where
  | call (c : κ) (alloc : Bool)
  | worker (act : WorkerAct)
  deriving DecidableEq, Repr

namespace State

variable (s : State κ)

def goto (c : κ) (pc : CallPc) : State κ := { s with call := Function.update s.call c pc }

def fail (deref : Deref) : State κ := { s with fault := some deref }

/-- An access to the worker that changes it. -/
def access (c : κ) (use : Use) (f : Worker κ → Worker κ × CallPc) : State κ :=
  match s.worker with
  | none => s.fail .worker
  | some w => { s with
      worker := some (f w).1
      call := Function.update s.call c (f w).2
      uses := s.uses ++ [(c, use)] }

/-- `tx_end`, one step. -/
def call_step (c : κ) (alloc : Bool) : Option (State κ) :=
  match s.call c with
  | .lookup =>
    some (if s.entry then s.goto c .read else s.goto c (.returned false))
  | .read => some (if s.entry then s.goto c .add else s.fail .entry)
  | .add => some <| s.access c .send fun w =>
    match w.tasks.add_block c alloc with
    | none => (w, .add_waiting)
    -- nobody looks at what it returns
    | some (_, tasks) => ({ w with tasks := tasks }, .wait)
  | .add_waiting =>
    match s.worker with
    | none => some (s.fail .worker)
    | some w =>
      match w.tasks.add_wake c alloc with
      | none => some s
      | some (_, tasks) => some { s.goto c .wait with worker := some { w with tasks := tasks } }
  | .wait => if (s.mem.context c).latch.wait then some (s.goto c .store) else none
  | .store => some <| s.access c .stop fun w => ({ w with status := 0 }, .clear)
  | .clear => some <| s.access c .clear fun w => ({ w with tasks := w.tasks.clear }, .join)
  | .join =>
    match s.worker with
    | none => some (s.fail .worker)
    | some w =>
      -- a thread can be joined once
      if s.joined then some (s.fail .worker)
      else if w.pc = .ended then
        some { s.goto c .delete with joined := true, uses := s.uses ++ [(c, .join)] }
      else none
  | .delete =>
    match s.worker with
    | none => some (s.fail .worker)
    | some _ => some { s.goto c .erase with worker := none, uses := s.uses ++ [(c, .delete)] }
  | .erase => some { s.goto c .result with entry := false }
  | .result =>
    match (s.mem.context c).result.bind fun r => s.mem.heap[r]? with
    | none => some (s.fail .result)
    | some result => some (s.goto c (.returned (decide (result.status = 0))))
  | .returned _ => none

/-- `thd_routine`, one step. -/
def work_step (act : WorkerAct) : Option (State κ) :=
  s.worker.bind fun w =>
    (worker_step w s.mem act).map fun (w, mem) => { s with worker := some w, mem := mem }

end State

/-- Nothing happens behind a fault. -/
def step (s : State κ) (e : Event κ) : Option (State κ) :=
  if s.fault.isSome then none
  else
    match e with
    | .call c alloc => s.call_step c alloc
    | .worker act => s.work_step act

/-- Calls on one active transaction whose worker is `w`; `op c` is what the call `c`
is. -/
def machine (op : κ → EndOp) (w : Worker κ) : Machine (State κ) (Event κ) where
  init := ⟨true, some w, false, ⟨fun c => .new (op c).sql, []⟩, fun _ => .lookup, [], none⟩
  step := step

/-- Between a lookup that has found the entry and the `erase`. -/
def CallPc.between : CallPc → Bool
  | .lookup | .result | .returned _ => false
  | _ => true

/-- A lookup is taken only while no other call is between its own and its `erase`. -/
def Alone (s : State κ) : Event κ → Prop
  | .call c _ => s.call c = .lookup → ∀ d, (s.call d).between = false
  | .worker _ => True

instance [Fintype κ] (s : State κ) (e : Event κ) : Decidable (Alone s e) :=
  match e with
  | .call c _ =>
    inferInstanceAs (Decidable (s.call c = .lookup → ∀ d, (s.call d).between = false))
  | .worker _ => inferInstanceAs (Decidable True)

/-! ## What is promised -/

/-- All that is to be done to the worker, in order. -/
def all_uses : List Use := [.send, .stop, .clear, .join, .delete]

/-- `owner` ends the transaction: what has been done to the worker was done by it,
each once; no other call does anything but return false; and when a call has
returned, the worker is joined and deleted. -/
structure EndedBy (owner : κ) (s : State κ) : Prop where
  uses : s.uses <+: all_uses.map (owner, ·)
  others : ∀ c, c ≠ owner → s.call c = .lookup ∨ s.call c = .returned false
  finished : ∀ c re, s.call c = .returned re → s.uses = all_uses.map (owner, ·)

/-- One call ends the transaction, unless none has begun to, and no pointer is
followed to an entry that is erased or a worker that is deleted. -/
def OneEnds (s : State κ) : Prop :=
  (s.fault = none ∨ s.fault = some .result) ∧
    ((∀ c, s.call c = .lookup) ∧ s.uses = [] ∨ ∃ owner, EndedBy owner s)

/-! ## One owner -/

namespace CallPc

/-- What the owner has done to the worker when it is there. -/
def uses : CallPc → List Use
  | .lookup | .read | .add => []
  | .add_waiting | .wait | .store => [.send]
  | .clear => [.send, .stop]
  | .join => [.send, .stop, .clear]
  | .delete => [.send, .stop, .clear, .join]
  | .erase | .result | .returned _ => all_uses

/-- Behind the join, behind the deletes, behind `erase`. -/
def joined : CallPc → Bool
  | .delete | .erase | .result | .returned _ => true
  | _ => false

def deleted : CallPc → Bool
  | .erase | .result | .returned _ => true
  | _ => false

def erased : CallPc → Bool
  | .result | .returned _ => true
  | _ => false

theorem uses_isPrefix (pc : CallPc) : pc.uses <+: all_uses := by
  cases pc <;> first | decide | exact List.prefix_refl _

/-- Behind its lookup, a call that has found the entry is before its `erase` or behind
it. -/
theorem between_eq {pc : CallPc} (h : pc ≠ .lookup) : pc.between = !pc.erased := by
  cases pc <;> first | rfl | exact absurd rfl h

theorem uses_of_erased {pc : CallPc} (h : pc.erased = true) : pc.uses = all_uses := by
  cases pc <;> first | rfl | cases h

end CallPc

/-- What the rest is like when the owner is at `pc`. -/
structure State.Fits (s : State κ) (owner : κ) (pc : CallPc) : Prop where
  uses : s.uses = pc.uses.map (owner, ·)
  worker : s.worker.isSome = !pc.deleted
  joined : s.joined = pc.joined
  entry : s.entry = !pc.erased

/-- Only `owner` has found the entry. Behind its `erase` other calls may have looked for
it in vain. -/
structure Owned (owner : κ) (s : State κ) : Prop where
  started : s.call owner ≠ .lookup
  fits : s.Fits owner (s.call owner)
  others : ∀ c, c ≠ owner →
    s.call c = .lookup ∨ s.call c = .returned false ∧ (s.call owner).erased = true
  fault : s.fault = none ∨ s.fault = some .result

/-- No call has begun. -/
structure Idle (s : State κ) : Prop where
  call : ∀ c, s.call c = .lookup
  uses : s.uses = []
  worker : s.worker.isSome = true
  joined : s.joined = false
  entry : s.entry = true
  fault : s.fault = none

omit [DecidableEq κ] in
theorem Owned.endedBy {owner : κ} {s : State κ} (h : Owned owner s) : EndedBy owner s where
  uses := by
    rw [h.fits.uses]
    exact (s.call owner).uses_isPrefix.map _
  others c hc := (h.others c hc).imp_right And.left
  finished c re hre := by
    rw [h.fits.uses]
    by_cases hc : c = owner
    · rw [← hc, hre]
      rfl
    · rcases h.others c hc with hlookup | ⟨-, herased⟩
      · rw [hre] at hlookup
        cases hlookup
      · rw [CallPc.uses_of_erased herased]

variable {owner : κ} {s s' : State κ}

omit [DecidableEq κ] in
theorem Owned.exists_worker (h : Owned owner s) (hdeleted : (s.call owner).deleted = false) :
    ∃ w, s.worker = some w := by
  apply Option.isSome_iff_exists.mp
  rw [h.fits.worker, hdeleted]
  rfl

/-- The owner goes on to `pc`, and the rest with it. -/
theorem Owned.goto (h : Owned owner s) (pc : CallPc) (hpc : pc ≠ .lookup)
    (hcall : s'.call = Function.update s.call owner pc) (hfits : s'.Fits owner pc)
    (herased : (s.call owner).erased = true → pc.erased = true)
    (hfault : s'.fault = none ∨ s'.fault = some .result) : Owned owner s' where
  started := by
    rw [hcall, Function.update_self]
    exact hpc
  fits := by
    rw [hcall, Function.update_self]
    exact hfits
  others c hc := by
    rw [hcall, Function.update_of_ne hc, Function.update_self]
    exact (h.others c hc).imp_right (And.imp_right herased)
  fault := hfault

/-- The owner does something to the worker, and goes on to where that is done. -/
theorem Owned.access (h : Owned owner s) {w : Worker κ} (hw : s.worker = some w) {pc : CallPc}
    (hpc : s.call owner = pc) (use : Use) (f : Worker κ → Worker κ × CallPc)
    (huses : (f w).2.uses = pc.uses ++ [use]) (hjoined : (f w).2.joined = pc.joined)
    (hdeleted : (f w).2.deleted = false) (herased : (f w).2.erased = pc.erased) :
    Owned owner (s.access owner use f) := by
  subst hpc
  have hfits := h.fits
  have hne : (f w).2 ≠ .lookup := by
    intro heq
    rw [heq] at huses
    exact absurd huses.symm (List.append_ne_nil_of_right_ne_nil _ (List.cons_ne_nil _ _))
  simp only [State.access, hw]
  refine h.goto (f w).2 hne rfl ⟨?_, ?_, ?_, ?_⟩ ?_ h.fault
  · rw [huses, List.map_append, ← hfits.uses]
    rfl
  · rw [hdeleted]
    rfl
  · rw [hjoined, ← hfits.joined]
  · rw [herased, ← hfits.entry]
  · rw [herased]
    exact id

/-- A step of the owner. -/
theorem Owned.call_step (h : Owned owner s) (alloc : Bool)
    (hstep : s.call_step owner alloc = some s') : Owned owner s' := by
  have hfits := h.fits
  unfold State.call_step at hstep
  cases hpc : s.call owner with
  | lookup => exact absurd hpc h.started
  | read =>
    -- nobody else erases, so the iterator leads to the entry
    rw [hpc] at hfits
    have hentry : s.entry = true := hfits.entry
    simp only [hpc, hentry, if_true, Option.some.injEq] at hstep
    subst hstep
    exact h.goto .add nofun rfl
      ⟨hfits.uses, hfits.worker, hfits.joined, hfits.entry⟩
      (by simp [hpc, CallPc.erased]) h.fault
  | add =>
    obtain ⟨w, hw⟩ := h.exists_worker (by rw [hpc]; rfl)
    simp only [hpc, Option.some.injEq] at hstep
    subst hstep
    apply h.access hw hpc <;> split <;> rfl
  | add_waiting =>
    obtain ⟨w, hw⟩ := h.exists_worker (by rw [hpc]; rfl)
    rw [hpc] at hfits
    simp only [hpc, hw] at hstep
    split at hstep
    · cases hstep
      exact h
    · cases hstep
      exact h.goto .wait nofun rfl ⟨hfits.uses, rfl, hfits.joined, hfits.entry⟩
        (by simp [hpc, CallPc.erased]) h.fault
  | wait =>
    rw [hpc] at hfits
    simp only [hpc, Option.ite_none_right_eq_some, Option.some.injEq] at hstep
    obtain ⟨-, rfl⟩ := hstep
    exact h.goto .store nofun rfl
      ⟨hfits.uses, hfits.worker, hfits.joined, hfits.entry⟩
      (by simp [hpc, CallPc.erased]) h.fault
  | store =>
    obtain ⟨w, hw⟩ := h.exists_worker (by rw [hpc]; rfl)
    simp only [hpc, Option.some.injEq] at hstep
    subst hstep
    exact h.access hw hpc .stop _ rfl rfl rfl rfl
  | clear =>
    obtain ⟨w, hw⟩ := h.exists_worker (by rw [hpc]; rfl)
    simp only [hpc, Option.some.injEq] at hstep
    subst hstep
    exact h.access hw hpc .clear _ rfl rfl rfl rfl
  | join =>
    -- nobody else has joined
    obtain ⟨w, hw⟩ := h.exists_worker (by rw [hpc]; rfl)
    rw [hpc] at hfits
    have hjoined : s.joined = false := hfits.joined
    simp only [hpc, hw, hjoined, Bool.false_eq_true, if_false, Option.ite_none_right_eq_some,
      Option.some.injEq] at hstep
    obtain ⟨-, rfl⟩ := hstep
    exact h.goto .delete nofun rfl
      ⟨by rw [hfits.uses]; rfl, hfits.worker, rfl, hfits.entry⟩
      (by simp [hpc, CallPc.erased]) h.fault
  | delete =>
    obtain ⟨w, hw⟩ := h.exists_worker (by rw [hpc]; rfl)
    rw [hpc] at hfits
    simp only [hpc, hw, Option.some.injEq] at hstep
    subst hstep
    exact h.goto .erase nofun rfl
      ⟨by rw [hfits.uses]; rfl, rfl, hfits.joined, hfits.entry⟩
      (by simp [hpc, CallPc.erased]) h.fault
  | erase =>
    rw [hpc] at hfits
    simp only [hpc, Option.some.injEq] at hstep
    subst hstep
    exact h.goto .result nofun rfl
      ⟨hfits.uses, hfits.worker, hfits.joined, rfl⟩
      (fun _ => rfl) h.fault
  | result =>
    rw [hpc] at hfits
    simp only [hpc] at hstep
    split at hstep
    · -- the worker has had no memory for a result
      cases hstep
      have hfits := h.fits
      exact ⟨h.started, ⟨hfits.uses, hfits.worker, hfits.joined, hfits.entry⟩,
        h.others, .inr rfl⟩
    · cases hstep
      exact h.goto (.returned _) nofun rfl
        ⟨hfits.uses, hfits.worker, hfits.joined, hfits.entry⟩ (fun _ => rfl) h.fault
  | returned re =>
    simp only [hpc] at hstep
    cases hstep

/-- A step of another call: its lookup comes behind the owner's `erase`, and finds
nothing. -/
theorem Owned.other_step (h : Owned owner s) {c : κ} (hc : c ≠ owner) (alloc : Bool)
    (halone : s.call c = .lookup → ∀ d, (s.call d).between = false)
    (hstep : s.call_step c alloc = some s') : Owned owner s' := by
  rcases h.others c hc with hpc | ⟨hpc, -⟩
  · have herased : (s.call owner).erased = true := by
      have hbetween := halone hpc owner
      rw [CallPc.between_eq h.started] at hbetween
      simpa using hbetween
    have hentry : s.entry = false := by
      rw [h.fits.entry, herased]
      rfl
    simp only [State.call_step, hpc, hentry, Bool.false_eq_true, if_false,
      Option.some.injEq] at hstep
    subst hstep
    have howner : (s.goto c (.returned false)).call owner = s.call owner :=
      Function.update_of_ne (Ne.symm hc) ..
    refine ⟨by rw [howner]; exact h.started, ?_, ?_, h.fault⟩
    · rw [howner]
      exact ⟨h.fits.uses, h.fits.worker, h.fits.joined, h.fits.entry⟩
    · intro d hd
      rw [howner]
      by_cases hdc : d = c
      · subst hdc
        exact .inr ⟨Function.update_self .., herased⟩
      · show Function.update s.call c _ d = _ ∨ Function.update s.call c _ d = _ ∧ _
        rw [Function.update_of_ne hdc]
        exact h.others d hd
  · simp only [State.call_step, hpc] at hstep
    cases hstep

/-- The worker changes nothing but itself and the contexts. -/
theorem work_step_eq (act : WorkerAct) (hstep : s.work_step act = some s') :
    ∃ w mem, s.worker.isSome = true ∧ s' = { s with worker := some w, mem := mem } := by
  obtain ⟨w, hw, hmap⟩ := Option.bind_eq_some_iff.mp hstep
  obtain ⟨⟨w', mem⟩, -, rfl⟩ := Option.map_eq_some_iff.mp hmap
  exact ⟨w', mem, by rw [hw]; rfl, rfl⟩

/-- The first lookup makes its call the owner. -/
theorem Idle.call_step (h : Idle s) (c : κ) (alloc : Bool)
    (hstep : s.call_step c alloc = some s') : Owned c s' := by
  simp only [State.call_step, h.call c, h.entry, if_true, Option.some.injEq] at hstep
  subst hstep
  have hcall : (s.goto c .read).call c = .read := Function.update_self ..
  refine ⟨by rw [hcall]; nofun, ?_, ?_, .inl h.fault⟩
  · rw [hcall]
    exact ⟨h.uses, h.worker, h.joined, h.entry⟩
  · intro d hd
    refine .inl ?_
    show Function.update s.call c .read d = .lookup
    rw [Function.update_of_ne hd, h.call d]

/-- A lookup that falls between the lookup of the owner and its `erase` finds the
entry, and then two calls are on their way to the worker. -/
theorem Owned.not_oneEnds (h : Owned owner s) {c d : κ} (alloc : Bool)
    (hlookup : s.call c = .lookup) (hbetween : (s.call d).between = true)
    (hstep : s.call_step c alloc = some s') : ¬ OneEnds s' := by
  have hd : d = owner := by
    by_contra hne
    rcases h.others d hne with hpc | ⟨hpc, -⟩
    · rw [hpc] at hbetween
      cases hbetween
    · rw [hpc] at hbetween
      cases hbetween
  subst hd
  have herased : (s.call d).erased = false := by
    rw [CallPc.between_eq h.started] at hbetween
    simpa using hbetween
  have hentry : s.entry = true := by
    rw [h.fits.entry, herased]
    rfl
  have hne : d ≠ c := by
    rintro rfl
    exact h.started hlookup
  simp only [State.call_step, hlookup, hentry, if_true, Option.some.injEq] at hstep
  subst hstep
  have hc : (s.goto c .read).call c = .read := Function.update_self ..
  have hd : (s.goto c .read).call d = s.call d := Function.update_of_ne hne ..
  rintro ⟨-, ⟨hall, -⟩ | ⟨e, hends⟩⟩
  · cases hc.symm.trans (hall c)
  · by_cases hce : c = e
    · rcases hends.others d (hce ▸ hne) with hlookup' | hreturned
      · exact h.started (hd.symm.trans hlookup')
      · rw [hd.symm.trans hreturned] at herased
        cases herased
    · rcases hends.others c hce with hlookup' | hreturned
      · cases hc.symm.trans hlookup'
      · cases hc.symm.trans hreturned

/-! ## Every interleaving -/

/-- No call has begun, or one owns the transaction. -/
def Inv (s : State κ) : Prop := Idle s ∨ ∃ owner, Owned owner s

theorem step_inv (hs : Inv s) {e : Event κ} (he : Alone s e) (hstep : step s e = some s') :
    Inv s' := by
  unfold step at hstep
  rw [Option.ite_none_left_eq_some] at hstep
  obtain ⟨-, hstep⟩ := hstep
  cases e with
  | call c alloc =>
    rcases hs with hidle | ⟨owner, howned⟩
    · exact .inr ⟨c, hidle.call_step c alloc hstep⟩
    · by_cases hc : c = owner
      · subst hc
        exact .inr ⟨c, howned.call_step alloc hstep⟩
      · exact .inr ⟨owner, howned.other_step hc alloc he hstep⟩
  | worker act =>
    obtain ⟨w, mem, hworker, rfl⟩ := work_step_eq act hstep
    rcases hs with hidle | ⟨owner, howned⟩
    · exact .inl ⟨hidle.call, hidle.uses, rfl, hidle.joined, hidle.entry, hidle.fault⟩
    · refine .inr ⟨owner, howned.started, ?_, howned.others, howned.fault⟩
      have hfits := howned.fits
      refine ⟨hfits.uses, ?_, hfits.joined, hfits.entry⟩
      rw [← hfits.worker, hworker]
      rfl

omit [DecidableEq κ] in
theorem Inv.oneEnds (h : Inv s) : OneEnds s := by
  rcases h with hidle | ⟨owner, howned⟩
  · exact ⟨.inl hidle.fault, .inl ⟨hidle.call, hidle.uses⟩⟩
  · exact ⟨howned.fault, .inr ⟨owner, howned.endedBy⟩⟩

variable [∀ (s : State κ) (e : Event κ), Decidable (Alone s e)]

theorem inv_of_reaches (op : κ → EndOp) (w : Worker κ) {es : List (Event κ)} {s : State κ}
    (h : ((machine op w).restrict Alone).Reaches es s) : Inv s := by
  refine Machine.restrict_preserves _ ?_ ?_ h
  · intro s e s' hs he hstep
    exact step_inv hs he hstep
  · exact .inl ⟨fun _ => rfl, rfl, rfl, rfl, rfl, rfl⟩

/-- **One call ends the transaction.** In every interleaving of `commit` and
`rollback` calls on one active transaction, with the worker, in which a lookup is
taken only while no other call is between its lookup and its `erase`: one call
sends its statement, joins and deletes the worker, and every other returns false
without having used it. The first step that breaks the condition breaks this. -/
theorem one_call_ends (op : κ → EndOp) (w : Worker κ) (es : List (Event κ)) (s : State κ)
    (h : ((machine op w).restrict Alone).Reaches es s) :
    OneEnds s ∧ ∀ e s', (machine op w).step s e = some s' → (OneEnds s' ↔ Alone s e) := by
  have hinv : Inv s := inv_of_reaches op w h
  refine ⟨hinv.oneEnds, ?_⟩
  intro e s' hstep
  refine ⟨?_, fun he => (step_inv hinv he hstep).oneEnds⟩
  intro hends
  cases e with
  | worker act => trivial
  | call c alloc =>
    intro hlookup d
    by_contra hbetween
    change step s (.call c alloc) = some s' at hstep
    unfold step at hstep
    rw [Option.ite_none_left_eq_some] at hstep
    rcases hinv with hidle | ⟨owner, howned⟩
    · rw [hidle.call d] at hbetween
      exact hbetween rfl
    · exact howned.not_oneEnds alloc hlookup (by simpa using hbetween) hstep.2 hends

/-- A `commit` from its lookup to its return, and the worker in between. -/
def commit_run : List (Event Bool) :=
  [.call false true, .call false true, .call false true,
    .worker .wake, .worker (.alloc true), .worker (.exec ⟨true, [], attempt, attempt, attempt⟩),
    .worker .count_down, .worker .signal,
    .call false true, .call false true, .call false true, .worker .test, .worker .close,
    .call false true, .call false true, .call false true, .call false true]
where
  attempt : Attempt := ⟨false, 0, 0, none, []⟩

/-- The worker of a transaction between two statements. -/
def waiting_worker : Worker Bool := ⟨2, .new 10 true, .new, .waiting⟩

def two_ops : Bool → EndOp
  | false => .commit
  | true => .rollback

/-- A `commit`, and a `rollback` behind it. -/
theorem one_call_ends_commit :
    ∃ s, ((machine two_ops waiting_worker).restrict Alone).Reaches
        (commit_run ++ [.call true true]) s ∧
      s.call false = .returned true ∧ s.call true = .returned false ∧ OneEnds s := by
  refine ⟨_, rfl, rfl, rfl, ?_⟩
  have hends := one_call_ends two_ops waiting_worker (commit_run ++ [.call true true])
  exact (hends _ rfl).1

/-- The lookup of a `rollback` falls into a `commit`. Once that has returned, the
`rollback` sends its statement to the worker that is deleted. -/
theorem ended_twice :
    ∃ s, (machine two_ops waiting_worker).Reaches
        ([.call true true, .call true true] ++ commit_run ++ [.call true true]) s ∧
      s.fault = some .worker ∧ ¬ OneEnds s := by
  refine ⟨_, rfl, rfl, ?_⟩
  rintro ⟨hnone | hresult, -⟩
  · cases hnone
  · cases hresult

end Rellaf.Mysql.TxEnd
