/-
Machines: an initial state and a guarded step. `step s e` is the state after the
event `e`, and `none` when `e` cannot happen in `s`, so that a run is something
that can be evaluated.

`run_preserves` is the induction rule: what every step keeps, every run keeps. A
run under a condition on its steps is a run of the `restrict`ed machine.
-/
import Mathlib.Tactic

set_option autoImplicit false

structure Machine (S E : Type*) where
  init : S
  step : S → E → Option S

namespace Machine

variable {S E : Type*} (m : Machine S E)

/-! ## Runs -/

/-- The state after the events, `none` when one of them cannot happen. -/
def run : S → List E → Option S
  | s, [] => some s
  | s, e :: es => (m.step s e).bind fun s' => run s' es

/-- The events lead from the initial state to `s`. -/
def Reaches (es : List E) (s : S) : Prop := m.run m.init es = some s

@[simp] theorem run_nil (s : S) : m.run s [] = some s := rfl

theorem run_cons_eq_some {s t : S} {e : E} {es : List E} :
    m.run s (e :: es) = some t ↔ ∃ s', m.step s e = some s' ∧ m.run s' es = some t := by
  rw [run, Option.bind_eq_some_iff]

/-- A run is a run of its beginning and a run of the rest. -/
theorem run_append_of_eq_some {s u : S} {es : List E} (h : m.run s es = some u) (es' : List E) :
    m.run s (es ++ es') = m.run u es' := by
  induction es generalizing s with
  | nil =>
    obtain rfl : s = u := Option.some.inj h
    rfl
  | cons e es ih =>
    obtain ⟨s', he, hrest⟩ := m.run_cons_eq_some.mp h
    rw [List.cons_append, run, he, Option.bind_some]
    exact ih hrest

/-! ## Induction -/

/-- What every step keeps, every run keeps. -/
theorem run_preserves {P : S → Prop} (hstep : ∀ s e s', P s → m.step s e = some s' → P s')
    {s t : S} {es : List E} (hs : P s) (hrun : m.run s es = some t) : P t := by
  induction es generalizing s with
  | nil =>
    obtain rfl : s = t := Option.some.inj hrun
    exact hs
  | cons e es ih =>
    obtain ⟨s', he, hrest⟩ := m.run_cons_eq_some.mp hrun
    exact ih (hstep s e s' hs he) hrest

/-- What a step raises by one at most, a run raises by its length at most. -/
theorem run_le_add_length {f : S → ℕ} (hstep : ∀ s e s', m.step s e = some s' → f s' ≤ f s + 1)
    {s t : S} {es : List E} (hrun : m.run s es = some t) : f t ≤ f s + es.length := by
  induction es generalizing s with
  | nil =>
    obtain rfl : s = t := Option.some.inj hrun
    exact Nat.le_add_right ..
  | cons e es ih =>
    obtain ⟨s', he, hrest⟩ := m.run_cons_eq_some.mp hrun
    have hle : f s' ≤ f s + 1 := hstep s e s' he
    have htail : f t ≤ f s' + es.length := ih hrest
    rw [List.length_cons]
    omega

/-! ## Conditions on the steps -/

/-- Each of the events meets the condition in the state in which it happens. -/
def Meets (cond : S → E → Prop) : S → List E → Prop
  | _, [] => True
  | s, e :: es => cond s e ∧ ∀ s', m.step s e = some s' → Meets cond s' es

/-- What every step that meets the condition keeps, every run of such steps keeps. -/
theorem run_preserves_of_meets {cond : S → E → Prop} {P : S → Prop}
    (hstep : ∀ s e s', P s → cond s e → m.step s e = some s' → P s') {s t : S} {es : List E}
    (hs : P s) (hmeets : m.Meets cond s es) (hrun : m.run s es = some t) : P t := by
  induction es generalizing s with
  | nil =>
    obtain rfl : s = t := Option.some.inj hrun
    exact hs
  | cons e es ih =>
    obtain ⟨s', he, hrest⟩ := m.run_cons_eq_some.mp hrun
    obtain ⟨hcond, hmeets⟩ := hmeets
    exact ih (hstep s e s' hs hcond he) (hmeets s' he) hrest

/-- The machine that takes a step only where the condition holds. -/
def restrict (cond : S → E → Prop) [∀ s e, Decidable (cond s e)] : Machine S E where
  init := m.init
  step s e := if cond s e then m.step s e else none

theorem restrict_step_eq_some {cond : S → E → Prop} [∀ s e, Decidable (cond s e)] {s t : S}
    {e : E} : (m.restrict cond).step s e = some t ↔ cond s e ∧ m.step s e = some t := by
  simp [restrict]

/-- What every step under the condition keeps, every run under it keeps. -/
theorem restrict_preserves {cond : S → E → Prop} [∀ s e, Decidable (cond s e)] {P : S → Prop}
    (hstep : ∀ s e s', P s → cond s e → m.step s e = some s' → P s') {s t : S} {es : List E}
    (hs : P s) (hrun : (m.restrict cond).run s es = some t) : P t := by
  refine (m.restrict cond).run_preserves ?_ hs hrun
  intro s e s' hs he
  obtain ⟨hcond, he⟩ := (m.restrict_step_eq_some).mp he
  exact hstep s e s' hs hcond he

/-- A step that can happen is taken where the condition holds. -/
theorem restrict_run_cons {cond : S → E → Prop} [∀ s e, Decidable (cond s e)] {s s' t : S} {e : E}
    {es : List E} (he : m.step s e = some s') :
    (m.restrict cond).run s (e :: es) = some t ↔
      cond s e ∧ (m.restrict cond).run s' es = some t := by
  rw [run_cons_eq_some]
  constructor
  · rintro ⟨u, hu, hrest⟩
    obtain ⟨hcond, hu⟩ := (m.restrict_step_eq_some).mp hu
    obtain rfl : s' = u := Option.some.inj (he.symm.trans hu)
    exact ⟨hcond, hrest⟩
  · rintro ⟨hcond, hrest⟩
    exact ⟨s', (m.restrict_step_eq_some).mpr ⟨hcond, he⟩, hrest⟩

/-- An exact condition. While every step has met it, `I` holds and with it `P`; the
first step that does not meet it breaks `P`, and nothing mends that. Then `P` holds at
the end of a run exactly when every step of the run has met the condition. -/
theorem reaches_restrict_iff {cond : S → E → Prop} [∀ s e, Decidable (cond s e)] {I P : S → Prop}
    (hinit : I m.init) (hholds : ∀ s, I s → P s)
    (hkeep : ∀ s e s', I s → cond s e → m.step s e = some s' → I s')
    (hbreak : ∀ s e s', I s → ¬ cond s e → m.step s e = some s' → ¬ P s')
    (hstay : ∀ s e s', ¬ P s → m.step s e = some s' → ¬ P s')
    {es : List E} {t : S} (h : m.Reaches es t) : P t ↔ (m.restrict cond).Reaches es t := by
  suffices hrun : ∀ s, I s → m.run s es = some t →
      (P t ↔ (m.restrict cond).run s es = some t) from hrun m.init hinit h
  clear h
  induction es with
  | nil =>
    intro s hs hrun
    obtain rfl : s = t := Option.some.inj hrun
    exact iff_of_true (hholds s hs) rfl
  | cons e es ih =>
    intro s hs hrun
    obtain ⟨s', he, hrest⟩ := m.run_cons_eq_some.mp hrun
    rw [m.restrict_run_cons he]
    by_cases hcond : cond s e
    · rw [and_iff_right hcond]
      exact ih s' (hkeep s e s' hs hcond he) hrest
    · have hbroken : ¬ P t := m.run_preserves hstay (hbreak s e s' hs hcond he) hrest
      exact iff_of_false hbroken fun h => hcond h.1

/-- The same for all the states of a run: where only the first step that does not meet the
condition has to break `P`, it holds in every state on the way exactly when every step
has met the condition. -/
theorem throughout_iff_restrict {C : S → E → Prop} [∀ s e, Decidable (C s e)]
    {I P : S → Prop} (hinit : I m.init) (hholds : ∀ s, I s → P s)
    (hkeep : ∀ s e s', I s → C s e → m.step s e = some s' → I s')
    (hbreak : ∀ s e s', I s → ¬ C s e → m.step s e = some s' → ¬ P s')
    {es : List E} {t : S} (h : m.Reaches es t) :
    (∀ es₁ es₂ u, es = es₁ ++ es₂ → m.Reaches es₁ u → P u) ↔ (m.restrict C).Reaches es t := by
  suffices hrun : ∀ s, I s → m.run s es = some t →
      ((∀ es₁ es₂ u, es = es₁ ++ es₂ → m.run s es₁ = some u → P u) ↔
        (m.restrict C).run s es = some t) from hrun m.init hinit h
  clear h
  induction es with
  | nil =>
    intro s hs hrun
    refine iff_of_true ?_ hrun
    intro es₁ es₂ u heq hu
    obtain ⟨rfl, -⟩ := List.append_eq_nil_iff.mp heq.symm
    obtain rfl : s = u := Option.some.inj hu
    exact hholds s hs
  | cons e es ih =>
    intro s hs hrun
    obtain ⟨s', he, hrest⟩ := m.run_cons_eq_some.mp hrun
    rw [m.restrict_run_cons he]
    by_cases hcond : C s e
    · rw [and_iff_right hcond, ← ih s' (hkeep s e s' hs hcond he) hrest]
      constructor
      · rintro hall es₁ es₂ u rfl hu
        exact hall (e :: es₁) es₂ u rfl (m.run_cons_eq_some.mpr ⟨s', he, hu⟩)
      · rintro hall (- | ⟨e', es₁⟩) es₂ u heq hu
        · obtain rfl : s = u := Option.some.inj hu
          exact hholds s hs
        · obtain ⟨rfl, rfl⟩ := List.cons.inj heq
          obtain ⟨v, hv, hu⟩ := m.run_cons_eq_some.mp hu
          obtain rfl : s' = v := Option.some.inj (he.symm.trans hv)
          exact hall es₁ es₂ u rfl hu
    · refine iff_of_false (fun hall => ?_) fun h => hcond h.1
      exact hbreak s e s' hs hcond he
        (hall [e] es s' rfl (m.run_cons_eq_some.mpr ⟨s', he, rfl⟩))

/-- The condition that always holds restricts nothing. -/
theorem restrict_true : (m.restrict fun _ _ => True) = m := by
  obtain ⟨init, step⟩ := m
  simp [restrict]

/-! ## Progress -/

/-- A rank that no step raises and that each step of the kind lowers, as long as the state is
not done. Once it is done it stays so, and with more steps of the kind than the rank says
it is. -/
theorem run_done_of_rank {P D : S → Prop} {f : S → ℕ} {k : E → Bool}
    (hkeep : ∀ s e s', P s → m.step s e = some s' → P s')
    (hstay : ∀ s e s', P s → D s → m.step s e = some s' → D s')
    (hrank : ∀ s e s', P s → ¬ D s → m.step s e = some s' → ¬ D s' →
      f s' + (k e).toNat ≤ f s)
    {s t : S} {es : List E} (hs : P s) (hrun : m.run s es = some t)
    (hlt : f s < es.countP k) : D t := by
  by_contra hnot
  suffices hle : f t + es.countP k ≤ f s by omega
  clear hlt
  induction es generalizing s with
  | nil =>
    obtain rfl : s = t := Option.some.inj hrun
    exact le_rfl
  | cons e es ih =>
    obtain ⟨s', he, hrest⟩ := m.run_cons_eq_some.mp hrun
    have hs' : P s' := hkeep s e s' hs he
    have hpending : ∀ u, P u → m.run u es = some t → ¬ D u := by
      intro u hu hrun hdone
      refine hnot (m.run_preserves (P := fun u => P u ∧ D u) ?_ ⟨hu, hdone⟩ hrun).2
      exact fun v e v' hv hstep => ⟨hkeep v e v' hv.1 hstep, hstay v e v' hv.1 hv.2 hstep⟩
    have hnot' : ¬ D s' := hpending s' hs' hrest
    have hnots : ¬ D s := fun hdone => hnot' (hstay s e s' hs hdone he)
    have hstep := hrank s e s' hs hnots he hnot'
    have htail := ih hs' hrest
    rw [List.countP_cons]
    cases hkind : k e with
    | true =>
      rw [hkind, Bool.toNat_true] at hstep
      rw [if_pos rfl]
      omega
    | false =>
      rw [hkind, Bool.toNat_false] at hstep
      rw [if_neg Bool.false_ne_true]
      omega

end Machine
