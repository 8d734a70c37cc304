/-
Bindings made one after another, where the first of a name stands.

The bindings are numbered by a finite linear order: number `i` gives the value
`s i` to the name `f i`, and has no effect when the name is taken. `Bound` is the
map this leaves behind. The question here is when it is the map of other names
`p i`, pairwise different, to the same values: `bound_iff_renamed` says that the
names `f i` must then be pairwise different too, and each must be the name that
`p` has for the same value.
-/
import Mathlib.Data.Finset.Card
import Mathlib.Tactic

set_option autoImplicit false

namespace FirstWins

variable {ι K V : Type*} [LinearOrder ι] {I : Finset ι} {f : ι → K} {s : ι → V}

/-- `k` has got the value `v`. -/
def Bound (I : Finset ι) (f : ι → K) (s : ι → V) (k : K) (v : V) : Prop :=
  ∃ i ∈ I, f i = k ∧ s i = v ∧ ∀ j ∈ I, j < i → f j ≠ k

/-- Where the names are pairwise different, nothing is lost. -/
theorem bound_iff_of_injOn (hf : Set.InjOn f I) {k : K} {v : V} :
    Bound I f s k v ↔ ∃ i ∈ I, f i = k ∧ s i = v := by
  constructor
  · rintro ⟨i, hi, hfi, hsi, -⟩
    exact ⟨i, hi, hfi, hsi⟩
  · rintro ⟨i, hi, hfi, hsi⟩
    refine ⟨i, hi, hfi, hsi, ?_⟩
    intro j hj hlt hfj
    have hji : j = i := hf hj hi (hfj.trans hfi.symm)
    exact absurd hji (ne_of_lt hlt)

/-- **The bindings under other names.** -/
theorem bound_iff_renamed {p : ι → K} (hp : Set.InjOn p I) :
    (∀ k v, Bound I f s k v ↔ ∃ i ∈ I, p i = k ∧ s i = v) ↔
      Set.InjOn f I ∧ ∀ i ∈ I, ∃ j ∈ I, p j = f i ∧ s j = s i := by
  classical
  constructor
  · intro h
    -- the names of `p` are as many as the numbers, and all of them are bound
    have hsub : I.image p ⊆ I.image f := by
      intro k hk
      obtain ⟨i, hi, rfl⟩ := Finset.mem_image.mp hk
      obtain ⟨j, hj, hfj, -⟩ := (h (p i) (s i)).mpr ⟨i, hi, rfl, rfl⟩
      exact Finset.mem_image.mpr ⟨j, hj, hfj⟩
    have hcard : I.card ≤ (I.image f).card := by
      rw [← Finset.card_image_of_injOn hp]
      exact Finset.card_le_card hsub
    have hf : Set.InjOn f I := by
      rw [← Finset.card_image_iff]
      exact le_antisymm Finset.card_image_le hcard
    refine ⟨hf, ?_⟩
    intro i hi
    exact (h (f i) (s i)).mp ((bound_iff_of_injOn hf).mpr ⟨i, hi, rfl, rfl⟩)
  · rintro ⟨hf, hren⟩ k v
    rw [bound_iff_of_injOn hf]
    constructor
    · rintro ⟨i, hi, rfl, rfl⟩
      exact hren i hi
    · rintro ⟨j, hj, rfl, rfl⟩
      -- `f` takes the names of `p` only, and each once, so it takes all of them
      have hsub : I.image f ⊆ I.image p := by
        intro k hk
        obtain ⟨i, hi, rfl⟩ := Finset.mem_image.mp hk
        obtain ⟨l, hl, hpl, -⟩ := hren i hi
        exact Finset.mem_image.mpr ⟨l, hl, hpl⟩
      have hcard : (I.image p).card ≤ (I.image f).card := by
        rw [Finset.card_image_of_injOn hf]
        exact Finset.card_image_le
      have hj' : p j ∈ I.image f := by
        rw [Finset.eq_of_subset_of_card_le hsub hcard]
        exact Finset.mem_image_of_mem p hj
      obtain ⟨i, hi, hfi⟩ := Finset.mem_image.mp hj'
      obtain ⟨l, hl, hpl, hsl⟩ := hren i hi
      have hlj : l = j := hp hl hj (hpl.trans hfi)
      subst hlj
      exact ⟨i, hi, hfi, hsl.symm⟩

/-- The same for names and values that are looked up somewhere and always found. -/
theorem bound_some_iff_renamed {f p : ι → Option K} {s : ι → Option V}
    (hf : ∀ i ∈ I, f i ≠ none) (hpsome : ∀ i ∈ I, p i ≠ none) (hs : ∀ i ∈ I, s i ≠ none)
    (hp : Set.InjOn p I) :
    (∀ k v, Bound I f s (some k) (some v) ↔ ∃ i ∈ I, p i = some k ∧ s i = some v) ↔
      Set.InjOn f I ∧ ∀ i ∈ I, ∃ j ∈ I, p j = f i ∧ s j = s i := by
  rw [← bound_iff_renamed hp]
  constructor
  · intro h k v
    cases k with
    | none =>
      constructor
      · rintro ⟨i, hi, hfi, -⟩
        exact absurd hfi (hf i hi)
      · rintro ⟨i, hi, hpi, -⟩
        exact absurd hpi (hpsome i hi)
    | some k =>
      cases v with
      | none =>
        constructor
        · rintro ⟨i, hi, -, hsi, -⟩
          exact absurd hsi (hs i hi)
        · rintro ⟨i, hi, -, hsi⟩
          exact absurd hsi (hs i hi)
      | some v => exact h k v
  · exact fun h k v => h (some k) (some v)

end FirstWins
