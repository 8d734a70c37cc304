/-
Greedy descent in a tree of words.

A tree is the set of its paths, here words over labels `L` that are `live`; every
prefix of a live word is live. An input letter may be read along several labels,
its candidates, some preferred to others. The greedy descent takes for each letter
the best candidate that stays in the tree and never comes back to that choice.

Two things are worth knowing about it. `descend_lex_first`: the word it takes beats
every other live word that reads the same input, at the first place where they
differ. `descend_eq_some_iff_of_live`: a given live word is the one it takes
exactly when nothing better branches off along it. What it does not do is find a
word whenever there is one.
-/
import Mathlib.Data.List.Forall2
import Mathlib.Tactic

set_option autoImplicit false

namespace GreedyDescent

variable {L A : Type*}

/-! ## Preference -/

/-- `c` stands in front of `d`. -/
def Before (l : List L) (c d : L) : Prop := ∃ xs ys, l = xs ++ c :: ys ∧ d ∈ ys

theorem before_asymm {l : List L} (hl : l.Nodup) {c d : L} (h : Before l c d) :
    ¬ Before l d c := by
  rintro ⟨xs', ys', hl', hc⟩
  obtain ⟨xs, ys, rfl, hd⟩ := h
  have hnodup := List.nodup_append.mp hl
  have hcys : c ∉ ys := (List.nodup_cons.mp hnodup.2.1).1
  rcases List.append_eq_append_iff.mp hl' with ⟨zs, rfl, hzs⟩ | ⟨zs, rfl, hzs⟩
  · cases zs with
    | nil =>
      obtain ⟨rfl, rfl⟩ : c = d ∧ ys = ys' := by simpa using hzs
      exact hcys hc
    | cons z zs =>
      obtain ⟨rfl, rfl⟩ : c = z ∧ ys = zs ++ d :: ys' := by simpa using hzs
      exact hcys (List.mem_append_right _ (List.mem_cons_of_mem _ hc))
  · cases zs with
    | nil =>
      obtain ⟨rfl, rfl⟩ : d = c ∧ ys' = ys := by simpa using hzs
      exact hcys hc
    | cons z zs =>
      obtain ⟨rfl, rfl⟩ : d = z ∧ ys' = zs ++ c :: ys := by simpa using hzs
      have hdxs : d ∈ xs' ++ d :: zs := List.mem_append_right _ List.mem_cons_self
      exact hnodup.2.2 d hdxs d (List.mem_cons_of_mem _ hd) rfl

theorem find?_eq_some_iff_before {l : List L} (hl : l.Nodup) (p : L → Bool) (c : L) :
    l.find? p = some c ↔ c ∈ l ∧ p c = true ∧ ∀ d, Before l d c → p d = false := by
  rw [List.find?_eq_some_iff_append]
  constructor
  · rintro ⟨hp, xs, ys, rfl, hxs⟩
    refine ⟨List.mem_append_right _ List.mem_cons_self, hp, ?_⟩
    intro d hd
    have hdxs : d ∈ xs := by
      obtain ⟨xs', ys', hl', hc⟩ := hd
      have hd' : d ∈ xs ++ c :: ys := by
        rw [hl']
        exact List.mem_append_right _ List.mem_cons_self
      rcases List.mem_append.mp hd' with hd' | hd'
      · exact hd'
      · rcases List.mem_cons.mp hd' with rfl | hd'
        · exact absurd ⟨xs', ys', hl', hc⟩ fun h => before_asymm hl h h
        · exact absurd ⟨xs', ys', hl', hc⟩ (before_asymm hl ⟨xs, ys, rfl, hd'⟩)
    simpa using hxs d hdxs
  · rintro ⟨hc, hp, hbefore⟩
    obtain ⟨xs, ys, rfl⟩ := List.append_of_mem hc
    refine ⟨hp, xs, ys, rfl, ?_⟩
    intro d hd
    obtain ⟨as, bs, rfl⟩ := List.append_of_mem hd
    have hdc : Before (as ++ d :: bs ++ c :: ys) d c :=
      ⟨as, bs ++ c :: ys, by simp, by simp⟩
    simpa using hbefore d hdc

/-! ## Descent -/

/-- A tree of words, and the labels along which a letter may be read, the
preferred ones first. -/
structure Tree (L A : Type*) where
  live : List L → Bool
  cands : A → List L
  live_of_append : ∀ σ τ, live (σ ++ τ) = true → live σ = true
  cands_nodup : ∀ a, (cands a).Nodup

namespace Tree

variable (t : Tree L A)

/-- The best candidate below `σ` that stays in the tree. -/
def pick (σ : List L) (a : A) : Option L := (t.cands a).find? fun c => t.live (σ ++ [c])

/-- The word the descent takes from `σ` on, behind `σ`. -/
def descend : List L → List A → Option (List L)
  | σ, [] => some σ
  | σ, a :: as => (t.pick σ a).bind fun c => descend (σ ++ [c]) as

/-- The word reads the input. -/
def Reads (w : List L) (as : List A) : Prop := List.Forall₂ (fun c a => c ∈ t.cands a) w as

@[simp] theorem descend_nil (σ : List L) : t.descend σ [] = some σ := rfl

theorem descend_cons_eq_some {σ τ : List L} {a : A} {as : List A} :
    t.descend σ (a :: as) = some τ ↔
      ∃ c, t.pick σ a = some c ∧ t.descend (σ ++ [c]) as = some τ := by
  rw [descend, Option.bind_eq_some_iff]

theorem pick_eq_some_iff {σ : List L} {a : A} {c : L} :
    t.pick σ a = some c ↔ c ∈ t.cands a ∧ t.live (σ ++ [c]) = true ∧
      ∀ d, Before (t.cands a) d c → t.live (σ ++ [d]) = false :=
  find?_eq_some_iff_before (t.cands_nodup a) _ c

/-- The descent reads the whole input. -/
theorem exists_of_descend {σ τ : List L} {as : List A} (h : t.descend σ as = some τ) :
    ∃ w, τ = σ ++ w ∧ t.Reads w as := by
  induction as generalizing σ with
  | nil =>
    obtain rfl : σ = τ := Option.some.inj h
    exact ⟨[], by rw [List.append_nil], .nil⟩
  | cons a as ih =>
    obtain ⟨c, hpick, hrest⟩ := t.descend_cons_eq_some.mp h
    obtain ⟨w, rfl, hw⟩ := ih hrest
    refine ⟨c :: w, ?_, .cons (t.pick_eq_some_iff.mp hpick).1 hw⟩
    rw [List.append_assoc, List.singleton_append]

/-- The first label of a word the descent takes. -/
theorem pick_of_descend {σ w : List L} {a : A} {as : List A} {c : L}
    (h : t.descend σ (a :: as) = some (σ ++ c :: w)) :
    t.pick σ a = some c ∧ t.descend (σ ++ [c]) as = some (σ ++ [c] ++ w) := by
  obtain ⟨c', hpick, hrest⟩ := t.descend_cons_eq_some.mp h
  obtain ⟨w', hw', -⟩ := t.exists_of_descend hrest
  rw [List.append_assoc, List.singleton_append] at hw'
  have hcons := List.append_cancel_left hw'
  cases hcons
  rw [List.append_assoc, List.singleton_append]
  exact ⟨hpick, hrest⟩

/-- The descent stays in the tree. -/
theorem live_of_descend {σ τ : List L} {as : List A} (h : t.descend σ as = some τ)
    (hσ : t.live σ = true) : t.live τ = true := by
  induction as generalizing σ with
  | nil =>
    obtain rfl : σ = τ := Option.some.inj h
    exact hσ
  | cons a as ih =>
    obtain ⟨c, hpick, hrest⟩ := t.descend_cons_eq_some.mp h
    exact ih hrest (t.pick_eq_some_iff.mp hpick).2.1

/-- **The descent takes the best word first.** Another live word that reads the
input branches off from the one taken along a worse label. -/
theorem descend_lex_first {σ w v : List L} {as : List A} (h : t.descend σ as = some (σ ++ w))
    (hv : t.live (σ ++ v) = true) (hreads : t.Reads v as) (hne : v ≠ w) :
    ∃ i a c d, as[i]? = some a ∧ v.take i = w.take i ∧ w[i]? = some c ∧ v[i]? = some d ∧
      Before (t.cands a) c d := by
  induction as generalizing σ w v with
  | nil =>
    cases hreads
    have hnil : σ ++ [] = σ ++ w := by
      rw [List.append_nil]
      exact Option.some.inj h
    exact absurd (List.append_cancel_left hnil) hne
  | cons a as ih =>
    obtain ⟨w', hw', hreads'⟩ := t.exists_of_descend h
    obtain rfl := List.append_cancel_left hw'
    cases hreads with
    | @cons d _ v _ hd hv' =>
    cases hreads' with
    | @cons c _ w _ hc hw' =>
    obtain ⟨hpick, hrest⟩ := t.pick_of_descend h
    by_cases hcd : d = c
    · subst hcd
      have hlive : t.live (σ ++ [d] ++ v) = true := by
        rw [List.append_assoc, List.singleton_append]
        exact hv
      have htail : v ≠ w := fun hvw => hne (by rw [hvw])
      obtain ⟨i, a', c', d', ha', htake, hc', hd', hbefore⟩ := ih hrest hlive hv' htail
      refine ⟨i + 1, a', c', d', ha', ?_, hc', hd', hbefore⟩
      rw [List.take_succ_cons, List.take_succ_cons, htake]
    · -- `d` is a candidate that stays in the tree, so `c` was in front of it
      have hlive : t.live (σ ++ [d]) = true := by
        refine t.live_of_append (σ ++ [d]) v ?_
        rw [List.append_assoc, List.singleton_append]
        exact hv
      obtain ⟨hcmem, -, hbest⟩ := t.pick_eq_some_iff.mp hpick
      refine ⟨0, a, c, d, rfl, rfl, rfl, rfl, ?_⟩
      obtain ⟨xs, ys, hcands⟩ := List.append_of_mem hcmem
      refine ⟨xs, ys, hcands, ?_⟩
      rw [hcands] at hd
      rcases List.mem_append.mp hd with hd | hd
      · obtain ⟨as', bs', rfl⟩ := List.append_of_mem hd
        have hdc : Before (t.cands a) d c := by
          rw [hcands]
          exact ⟨as', bs' ++ c :: ys, by simp, by simp⟩
        rw [hbest d hdc] at hlive
        cases hlive
      · exact (List.mem_cons.mp hd).resolve_left hcd

/-- **When the descent takes a given word.** A live word that reads the input is the
one taken exactly when no better label branches off along it. -/
theorem descend_eq_some_iff_of_live {σ w : List L} {as : List A}
    (hw : t.live (σ ++ w) = true) (hreads : t.Reads w as) :
    t.descend σ as = some (σ ++ w) ↔
      ∀ i a c d, as[i]? = some a → w[i]? = some c → Before (t.cands a) d c →
        t.live (σ ++ w.take i ++ [d]) = false := by
  induction hreads generalizing σ with
  | nil => simp
  | @cons c a w as hc _ ih =>
    have hw' : t.live (σ ++ [c] ++ w) = true := by
      rw [List.append_assoc, List.singleton_append]
      exact hw
    have hlive : t.live (σ ++ [c]) = true := t.live_of_append _ _ hw'
    constructor
    · intro h i a' c' d ha' hc' hbefore
      obtain ⟨hpick, hrest⟩ := t.pick_of_descend h
      cases i with
      | zero =>
        cases ha'
        cases hc'
        rw [List.take_zero, List.append_nil]
        exact (t.pick_eq_some_iff.mp hpick).2.2 d hbefore
      | succ i =>
        have hbranch := (ih hw').mp hrest i a' c' d ha' hc' hbefore
        rw [List.append_assoc σ [c], List.singleton_append] at hbranch
        rw [List.take_succ_cons]
        exact hbranch
    · intro h
      refine t.descend_cons_eq_some.mpr ⟨c, ?_, ?_⟩
      · refine t.pick_eq_some_iff.mpr ⟨hc, hlive, ?_⟩
        intro d hbefore
        have hbranch := h 0 a c d rfl rfl hbefore
        rwa [List.take_zero, List.append_nil] at hbranch
      · have hrest : t.descend (σ ++ [c]) as = some (σ ++ [c] ++ w) := by
          refine (ih hw').mpr ?_
          intro i a' c' d ha' hc' hbefore
          have hbranch := h (i + 1) a' c' d ha' hc' hbefore
          rw [List.take_succ_cons] at hbranch
          rw [List.append_assoc σ [c], List.singleton_append]
          exact hbranch
        rw [hrest, List.append_assoc, List.singleton_append]

end Tree

end GreedyDescent
