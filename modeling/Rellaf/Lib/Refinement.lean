/-
Refinement between two machines. The concrete one keeps a log of what has been seen of it;
the abstract one takes what has been seen as its events. Where every step of the first can
be followed by the second, along what the step adds to the log, every log is a run of the
second.
-/
import Rellaf.Lib.Machine

set_option autoImplicit false

namespace Machine

variable {S E A F : Type*} (m : Machine S E) (a : Machine A F)

/-- The state `s` has the log `obs s`, and stands for the abstract state `x`. A step adds to
the log what the abstract machine does from `x` to the state that the new one stands for. -/
structure Simulates (obs : S → List F) (R : S → A → Prop) : Prop where
  obs_init : obs m.init = []
  init : R m.init a.init
  step : ∀ s x e s', R s x → m.step s e = some s' →
    ∃ fs x', obs s' = obs s ++ fs ∧ a.run x fs = some x' ∧ R s' x'

variable {m a}

/-- Every log is a run of the abstract machine. -/
theorem Simulates.reaches {obs : S → List F} {R : S → A → Prop} (h : m.Simulates a obs R)
    {es : List E} {s : S} (hreach : m.Reaches es s) : ∃ x, a.Reaches (obs s) x ∧ R s x := by
  refine m.run_preserves (P := fun s => ∃ x, a.Reaches (obs s) x ∧ R s x) ?_ ?_ hreach
  · rintro s e s' ⟨x, hx, hR⟩ hstep
    obtain ⟨fs, x', hobs, hrun, hR'⟩ := h.step s x e s' hR hstep
    refine ⟨x', ?_, hR'⟩
    rw [hobs, Reaches, a.run_append_of_eq_some hx]
    exact hrun
  · refine ⟨a.init, ?_, h.init⟩
    rw [h.obs_init]
    rfl

/-- A run whose events all meet a condition is a run under it. -/
theorem restrict_reaches {C : E → Prop} [DecidablePred C] {es : List E} {s : S}
    (hes : ∀ e ∈ es, C e) (hreach : m.Reaches es s) :
    (m.restrict fun _ e => C e).Reaches es s := by
  suffices hrun : ∀ u, m.run u es = some s → (m.restrict fun _ e => C e).run u es = some s from
    hrun m.init hreach
  clear hreach
  induction es with
  | nil => exact fun _ hu => hu
  | cons e es ih =>
    intro u hu
    obtain ⟨v, hv, hrest⟩ := m.run_cons_eq_some.mp hu
    obtain ⟨he, hes⟩ := List.forall_mem_cons.mp hes
    exact (m.restrict_run_cons hv).mpr ⟨he, ih hes v hrest⟩

end Machine
