/-
Threads that share one `Latch`. A step is one section in which a thread holds the mutex, or
one statement outside of it: the decrement of `count_down`, and the store of false with which
a `wait` that has timed out goes on behind the unlock.

That store is the one thing that can undo a signal. `nth_set` records that the call of
`count_down` that came to zero first, the `n`-th, has set the flag; then the flag is true for
good exactly when no such store finds it set (`latching_iff`).
-/
import Rellaf.QueueThreads

set_option autoImplicit false

namespace Rellaf.Mysql

/-- `wait` behind the unlock of its timeout. -/
def Latch.reset (l : Latch) : Latch := { l with _signal := false }

/-- What a thread is at. -/
inductive LatchCall where
  | idle
  /-- it waits on the condition variable -/
  | waiting (timed : Bool)
  /-- its time is over, and the mutex is free again -/
  | timed_out
  /-- in the `nth` call of `count_down`, which has come to zero and goes on to the lock -/
  | counted (nth : Nat)
  deriving DecidableEq, Repr

/-- What a thread does, with the sleeper that a signal wakes. -/
inductive LatchEvent (τ : Type) where
  | wait (t : τ) (timed : Bool)
  | wake (t : τ)
  | timeout (t : τ)
  | reset (t : τ)
  | count_down (t : τ)
  | signal (t : τ) (wakes : Option τ)
  | spurious (t : τ)
  deriving DecidableEq, Repr

structure LatchThreads (τ : Type) where
  latch : Latch
  cond : Cond τ
  call : τ → LatchCall
  /-- the calls of `count_down` so far -/
  downs : Nat
  /-- the flag has been set by the `n`-th of them -/
  nth_set : Bool
  /-- what the calls of `wait` have returned -/
  log : List (τ × Int)

namespace LatchThreads

variable {τ : Type} [DecidableEq τ]

/-- A new latch. -/
def new (count : UInt32) : LatchThreads τ := ⟨⟨count, false⟩, .new, fun _ => .idle, 0, false, []⟩

variable (n : UInt32) (s : LatchThreads τ)

/-- `wait` returns 0. -/
def returned (t : τ) : LatchThreads τ :=
  { s with
    cond := s.cond.leave t
    call := Function.update s.call t .idle
    log := s.log ++ [(t, 0)] }

/-- The thread waits, for the first time or again. -/
def sleep (t : τ) (timed : Bool) : LatchThreads τ :=
  { s with
    cond := s.cond.wait t
    call := Function.update s.call t (.waiting timed) }

/-- One step; `none` when the thread is elsewhere or the world cannot decide so. -/
def step : LatchEvent τ → Option (LatchThreads τ)
  | .wait t timed =>
    match s.call t with
    | .idle => some (if s.latch.wait then s.returned t else s.sleep t timed)
    | _ => none
  | .wake t =>
    match s.call t with
    | .waiting timed =>
      if t ∈ s.cond.woken then some (if s.latch.wait then s.returned t else s.sleep t timed)
      else none
    | _ => none
  | .timeout t =>
    match s.call t with
    | .waiting true =>
      -- the flag is not looked at again
      some { s with cond := s.cond.leave t, call := Function.update s.call t .timed_out }
    | _ => none
  | .reset t =>
    match s.call t with
    | .timed_out =>
      some { s with
        latch := s.latch.reset
        call := Function.update s.call t .idle
        log := s.log ++ [(t, 1)] }
    | _ => none
  | .count_down t =>
    match s.call t with
    | .idle =>
      let (zero, latch) := s.latch.count_down
      some { s with
        latch := latch
        call := Function.update s.call t (if zero then .counted (s.downs + 1) else .idle)
        downs := s.downs + 1 }
    | _ => none
  | .signal t wakes =>
    match s.call t with
    | .counted nth =>
      (s.cond.signal wakes).map fun cond =>
        { s with
          latch := s.latch.signal
          cond := cond
          call := Function.update s.call t .idle
          nth_set := s.nth_set || nth = n.toNat }
    | _ => none
  | .spurious t => (s.cond.wake t).map fun cond => { s with cond := cond }

/-- The step leaves the flag to the `n`-th call: a `wait` that stores false does not find it
set, and a later call, for which the count came to zero again, does not signal first. -/
def harmless (n : UInt32) (s : LatchThreads τ) : LatchEvent τ → Bool
  | .reset _ => !s.latch._signal
  | .signal t _ =>
    match s.call t with
    | .counted nth => s.nth_set || nth = n.toNat
    | _ => true
  | _ => true

/-- The steps by what they do to the latch and to the calls that have come to zero, one
constructor for each kind. -/
inductive Move (s : LatchThreads τ) : LatchEvent τ → LatchThreads τ → Prop where
  | keeps {e : LatchEvent τ} {s' : LatchThreads τ} (hlatch : s'.latch = s.latch)
      (hset : s'.nth_set = s.nth_set) (hdowns : s'.downs = s.downs)
      (hcall : ∀ t nth, s'.call t = .counted nth → s.call t = .counted nth)
      (hharmless : s.harmless n e = true) : Move s e s'
  | count_down {t : τ} {s' : LatchThreads τ} (hlatch : s'.latch = s.latch.count_down.2)
      (hset : s'.nth_set = s.nth_set) (hdowns : s'.downs = s.downs + 1)
      (hcall : ∀ t nth, s'.call t = .counted nth →
        s.call t = .counted nth ∨ nth = s.downs + 1 ∧ s.latch.count_down.1 = true) :
      Move s (.count_down t) s'
  | reset {t : τ} {s' : LatchThreads τ} (hlatch : s'.latch = s.latch.reset)
      (hset : s'.nth_set = s.nth_set) (hdowns : s'.downs = s.downs)
      (hcall : ∀ t nth, s'.call t = .counted nth → s.call t = .counted nth) :
      Move s (.reset t) s'
  | signal {t : τ} {wakes : Option τ} {nth : Nat} {s' : LatchThreads τ}
      (hcounted : s.call t = .counted nth) (hlatch : s'.latch = s.latch.signal)
      (hset : s'.nth_set = (s.nth_set || nth = n.toNat)) (hdowns : s'.downs = s.downs)
      (hcall : ∀ t nth, s'.call t = .counted nth → s.call t = .counted nth) :
      Move s (.signal t wakes) s'

variable {n s}

/-- A call that is somewhere else now has not come to zero. -/
theorem counted_of_update {call : τ → LatchCall} {t : τ} {c : LatchCall}
    (hc : ∀ nth, c ≠ .counted nth) (t' : τ) (nth : Nat)
    (h : Function.update call t c t' = .counted nth) : call t' = .counted nth := by
  by_cases ht : t' = t
  · rw [ht, Function.update_self] at h
    exact absurd h (hc nth)
  · rwa [Function.update_of_ne ht] at h

theorem step_move {e : LatchEvent τ} {s' : LatchThreads τ} (h : s.step n e = some s') :
    Move n s e s' := by
  cases e with
  | wait t timed =>
    simp only [step] at h
    split at h
    · cases h
      split
      · exact .keeps rfl rfl rfl (counted_of_update nofun) rfl
      · exact .keeps rfl rfl rfl (counted_of_update nofun) rfl
    · cases h
  | wake t =>
    simp only [step] at h
    split at h
    · rw [Option.ite_none_right_eq_some] at h
      obtain ⟨-, h⟩ := h
      cases h
      split
      · exact .keeps rfl rfl rfl (counted_of_update nofun) rfl
      · exact .keeps rfl rfl rfl (counted_of_update nofun) rfl
    · cases h
  | timeout t =>
    simp only [step] at h
    split at h
    · cases h
      exact .keeps rfl rfl rfl (counted_of_update nofun) rfl
    · cases h
  | reset t =>
    simp only [step] at h
    split at h
    · cases h
      exact .reset rfl rfl rfl (counted_of_update nofun)
    · cases h
  | count_down t =>
    simp only [step] at h
    split at h
    · cases h
      refine .count_down rfl rfl rfl fun t' nth hnth => ?_
      cases hzero : s.latch.count_down.1 with
      | false =>
        simp only [hzero, Bool.false_eq_true, if_false] at hnth
        exact .inl (counted_of_update (c := .idle) nofun t' nth hnth)
      | true =>
        simp only [hzero, if_true] at hnth
        by_cases ht : t' = t
        · rw [ht, Function.update_self] at hnth
          exact .inr ⟨(LatchCall.counted.inj hnth).symm, rfl⟩
        · rw [Function.update_of_ne ht] at hnth
          exact .inl hnth
    · cases h
  | signal t wakes =>
    simp only [step] at h
    split at h
    next nth hcall =>
      obtain ⟨cond, -, rfl⟩ := Option.map_eq_some_iff.mp h
      exact .signal hcall rfl rfl rfl (counted_of_update nofun)
    next => cases h
  | spurious t =>
    obtain ⟨cond, -, rfl⟩ := Option.map_eq_some_iff.mp h
    exact .keeps rfl rfl rfl (fun _ _ hnth => hnth) rfl

/-- Once the `n`-th call has set the flag, it has. -/
theorem step_nth_set {e : LatchEvent τ} {s' : LatchThreads τ} (hset : s.nth_set = true)
    (h : s.step n e = some s') : s'.nth_set = true := by
  cases step_move h with
  | keeps _ hset' => rw [hset', hset]
  | count_down _ hset' => rw [hset', hset]
  | reset _ hset' => rw [hset', hset]
  | signal _ _ hset' => rw [hset', hset, Bool.true_or]

end LatchThreads

/-- The threads at a latch with the count. -/
def latch_machine (τ : Type) [DecidableEq τ] (n : UInt32) :
    Machine (LatchThreads τ) (LatchEvent τ) where
  init := .new n
  step s e := s.step n e

namespace LatchThreads

variable {τ : Type} [DecidableEq τ] {n : UInt32} {s : LatchThreads τ}

/-! ## Which call signals -/

/-- What the count says of the calls, modulo the width of its type. -/
structure Counts (n : UInt32) (s : LatchThreads τ) : Prop where
  count : s.latch._count = n - UInt32.ofNat s.downs
  counted : ∀ t nth, s.call t = .counted nth → 0 < nth ∧ nth ≤ s.downs ∧ UInt32.ofNat nth = n

omit [DecidableEq τ] in
theorem counts_new : Counts n (.new n : LatchThreads τ) :=
  ⟨(UInt32.sub_zero n).symm, nofun⟩

omit [DecidableEq τ] in
theorem Counts.same {s' : LatchThreads τ} (hs : Counts n s)
    (hcount : s'.latch._count = s.latch._count) (hdowns : s'.downs = s.downs)
    (hcall : ∀ t nth, s'.call t = .counted nth → s.call t = .counted nth) : Counts n s' := by
  refine ⟨by rw [hcount, hdowns, hs.count], fun t nth hnth => ?_⟩
  rw [hdowns]
  exact hs.counted t nth (hcall t nth hnth)

/-- The call that comes to zero is the `n`-th, modulo the width. -/
theorem Counts.step {e : LatchEvent τ} {s' : LatchThreads τ} (hs : Counts n s)
    (h : s.step n e = some s') : Counts n s' := by
  cases step_move h with
  | keeps hlatch _ hdowns hcall => exact hs.same (by rw [hlatch]) hdowns hcall
  | reset hlatch _ hdowns hcall => exact hs.same (by rw [hlatch]; rfl) hdowns hcall
  | signal _ hlatch _ hdowns hcall => exact hs.same (by rw [hlatch]; rfl) hdowns hcall
  | count_down hlatch _ hdowns hcall =>
    have hcount : s.latch._count - 1 = n - UInt32.ofNat (s.downs + 1) := by
      rw [hs.count, UInt32.ofNat_add]
      grind
    refine ⟨by rw [hlatch, hdowns]; exact hcount, fun t' nth hnth => ?_⟩
    rw [hdowns]
    rcases hcall t' nth hnth with hbefore | ⟨rfl, hzero⟩
    · obtain ⟨hpos, hle, heq⟩ := hs.counted t' nth hbefore
      exact ⟨hpos, Nat.le_succ_of_le hle, heq⟩
    · have hsub : n - UInt32.ofNat (s.downs + 1) = 0 := by
        rw [← hcount]
        exact of_decide_eq_true hzero
      exact ⟨Nat.succ_pos _, le_rfl, by rw [UInt32.sub_eq_iff_eq_add.mp hsub, UInt32.zero_add]⟩

/-! ## The flag -/

/-- Only the store of a `wait` can do harm, unless `count_down` was called 2 ^ 32 times. -/
theorem harmless_of_reaches {es : List (LatchEvent τ)} {e : LatchEvent τ}
    (h : (latch_machine τ n).Reaches es s) (hdowns : s.downs < UInt32.size)
    (he : ∀ t, e ≠ .reset t) : s.harmless n e = true := by
  have hs : Counts n s :=
    (latch_machine τ n).run_preserves (fun _ _ _ hs hstep => hs.step hstep) counts_new h
  cases e with
  | reset t => exact absurd rfl (he t)
  | signal t wakes =>
    rw [harmless]
    split
    next nth hcall =>
      obtain ⟨-, hle, hnth⟩ := hs.counted t nth hcall
      have hn : nth = n.toNat := by
        rw [← hnth, UInt32.toNat_ofNat_of_lt' (by omega)]
      rw [decide_eq_true hn, Bool.or_true]
    next => rfl
  | wait t timed => rfl
  | wake t => rfl
  | timeout t => rfl
  | count_down t => rfl
  | spurious t => rfl

/-- The flag says what it is to say. -/
def FlagOk (s : LatchThreads τ) : Prop := s.latch._signal = true ↔ s.nth_set = true

theorem FlagOk.step {e : LatchEvent τ} {s' : LatchThreads τ} (hs : FlagOk s)
    (he : s.harmless n e = true) (h : s.step n e = some s') : FlagOk s' := by
  unfold FlagOk at hs ⊢
  cases step_move h with
  | keeps hlatch hset => rw [hlatch, hset, hs]
  | count_down hlatch hset =>
    rw [hlatch, hset]
    exact hs
  | reset hlatch hset =>
    have hfalse : s.latch._signal = false := by simpa [harmless] using he
    rw [hlatch, hset, ← hs, hfalse]
    exact Iff.rfl
  | signal hcounted hlatch hset =>
    simp only [harmless, hcounted] at he
    rw [hlatch, hset, he]
    exact Iff.rfl

theorem FlagOk.step_break {e : LatchEvent τ} {s' : LatchThreads τ} (hs : FlagOk s)
    (he : ¬ s.harmless n e = true) (h : s.step n e = some s') : ¬ FlagOk s' := by
  unfold FlagOk at hs ⊢
  cases step_move h with
  | keeps _ _ _ _ hharmless => exact absurd hharmless he
  | count_down => exact absurd rfl he
  | reset hlatch hset =>
    -- what the `n`-th call has set is gone
    have htrue : s.latch._signal = true := by simpa [harmless] using he
    rw [hlatch, hset, hs.mp htrue]
    exact fun hiff => Bool.false_ne_true (hiff.mpr rfl)
  | signal hcounted hlatch hset =>
    -- the flag is set, and the `n`-th call has not done it
    simp only [harmless, hcounted, Bool.not_eq_true] at he
    rw [hlatch, hset, he]
    exact fun hiff => Bool.false_ne_true (hiff.mp rfl)

/-- In the states of a run the flag is true if and only if the `n`-th call has set it; from
then on it stays true, and a `wait` that comes later returns 0. -/
structure Latching (n : UInt32) (es : List (LatchEvent τ)) : Prop where
  signal : ∀ es₁ es₂ s, es = es₁ ++ es₂ → (latch_machine τ n).Reaches es₁ s →
    (s.latch._signal = true ↔ s.nth_set = true)
  stays : ∀ es₁ es₂ es₃ s s', es = es₁ ++ es₂ ++ es₃ → (latch_machine τ n).Reaches es₁ s →
    (latch_machine τ n).run s es₂ = some s' → s.nth_set = true →
      s'.latch._signal = true ∧
        ∀ t timed s'', s'.step n (.wait t timed) = some s'' → s'' = s'.returned t

/-- A call of `wait` returns where it finds the flag set. -/
theorem step_wait {t : τ} {timed : Bool} {s' : LatchThreads τ} (hsignal : s.latch._signal = true)
    (h : s.step n (.wait t timed) = some s') : s' = s.returned t := by
  simp only [step] at h
  split at h
  · rw [Latch.wait, if_pos hsignal] at h
    exact (Option.some.inj h).symm
  · cases h

theorem latching_iff_flagOk {es : List (LatchEvent τ)} :
    Latching n es ↔
      ∀ es₁ es₂ s, es = es₁ ++ es₂ → (latch_machine τ n).Reaches es₁ s → FlagOk s := by
  refine ⟨fun h => h.signal, fun h => ⟨h, ?_⟩⟩
  intro es₁ es₂ es₃ s s' hes hs hs' hset
  have hset' : s'.nth_set = true :=
    (latch_machine τ n).run_preserves (P := fun s => s.nth_set = true)
      (fun _ _ _ hset hstep => step_nth_set hset hstep) hset hs'
  have hreach : (latch_machine τ n).Reaches (es₁ ++ es₂) s' :=
    ((latch_machine τ n).run_append_of_eq_some hs es₂).trans hs'
  have hsignal : s'.latch._signal = true := (h _ es₃ s' hes hreach).mpr hset'
  exact ⟨hsignal, fun _ _ _ hstep => step_wait hsignal hstep⟩

/-- **The flag of a latch.** In a run it is true exactly from the `n`-th call of `count_down` on
if and only if every step leaves it to that call. -/
theorem latching_iff {es : List (LatchEvent τ)} (h : (latch_machine τ n).Reaches es s) :
    Latching n es ↔
      ((latch_machine τ n).restrict fun s e => s.harmless n e = true).Reaches es s := by
  rw [latching_iff_flagOk]
  exact (latch_machine τ n).throughout_iff_restrict (C := fun s e => s.harmless n e = true)
    (I := FlagOk) (P := FlagOk) (iff_of_false Bool.false_ne_true Bool.false_ne_true)
    (fun _ hs => hs) (fun _ _ _ hs he hstep => hs.step he hstep)
    (fun _ _ _ hs he hstep => hs.step_break he hstep) h

/-- A `wait` times out, and stores false before the second call of `count_down` signals. -/
def early_timeout : List (LatchEvent Nat) :=
  [.wait 0 true, .wait 2 false, .count_down 1, .timeout 0, .reset 0, .count_down 1,
    .signal 1 (some 2), .wake 2, .wait 0 true]

theorem latching_iff_early :
    ∃ s, (latch_machine Nat 2).Reaches early_timeout s ∧ (Latching 2 early_timeout ↔
      ((latch_machine Nat 2).restrict fun s e => s.harmless 2 e = true).Reaches
        early_timeout s) := by
  obtain ⟨s, hs⟩ : ∃ s, (latch_machine Nat 2).Reaches early_timeout s := ⟨_, rfl⟩
  exact ⟨s, hs, latching_iff hs⟩

/-- The signal comes between the end of the time of a `wait` and its store, which undoes it: the
next `wait` sleeps. -/
theorem timeout_undoes_signal :
    ∃ s s', (latch_machine Nat 1).Reaches
        [.wait 0 true, .timeout 0, .count_down 1, .signal 1 none, .reset 0] s ∧
      s.nth_set = true ∧ s.latch._signal = false ∧
      s.step 1 (.wait 2 false) = some s' ∧ s'.call 2 = .waiting false ∧
      ¬ Latching 1
        [LatchEvent.wait 0 true, .timeout 0, .count_down 1, .signal 1 none, .reset 0] := by
  refine ⟨_, _, rfl, rfl, rfl, rfl, rfl, fun hlatching => ?_⟩
  have hflag := (hlatching.signal _ [] _ (List.append_nil _).symm rfl).mpr rfl
  cases hflag

end LatchThreads

end Rellaf.Mysql
