/-
Walks through a tree along a list of keys.

A step takes a node and a key to the next node, if there is one. `walk` is where the
whole list leads; `Comes` has the nodes on the way, each with the keys that are left
there. Of two places on a walk one is behind the other (`Comes.total`), and every walk
comes to its end (`exists_ends`), which all its places lie before (`Comes.before_end`).
-/
import Mathlib.Tactic

set_option autoImplicit false

namespace PathWalk

variable {α κ : Type*}

/-- Where the keys lead to. -/
def walk (child : α → κ → Option α) : α → List κ → Option α
  | a, [] => some a
  | a, k :: ks => (child a k).bind fun b => walk child b ks

/-- The walk from `a` with the keys `ks` comes to a node with keys left. -/
inductive Comes (child : α → κ → Option α) : α → List κ → α → List κ → Prop
  | here (a : α) (ks : List κ) : Comes child a ks a ks
  | next {a b c : α} {k : κ} {ks left : List κ} (hstep : child a k = some b)
      (hrest : Comes child b ks c left) : Comes child a (k :: ks) c left

/-- No step leads on, or there is none to take. -/
def Ends (child : α → κ → Option α) (a : α) (ks : List κ) : Prop :=
  ∀ k ∈ ks.head?, child a k = none

variable {child child' : α → κ → Option α} {a b b' c : α} {ks left left' : List κ}

theorem ends_nil (a : α) : Ends child a [] := nofun

theorem ends_of_forall (h : ∀ k, child a k = none) (ks : List κ) : Ends child a ks :=
  fun k _ => h k

theorem exists_ends (child : α → κ → Option α) (a : α) (ks : List κ) :
    ∃ b left, Comes child a ks b left ∧ Ends child b left := by
  induction ks generalizing a with
  | nil => exact ⟨a, [], .here a [], ends_nil a⟩
  | cons k ks ih =>
    cases hstep : child a k with
    | none =>
      refine ⟨a, k :: ks, .here a _, ?_⟩
      intro k' hk'
      obtain rfl := Option.some.inj hk'
      exact hstep
    | some b =>
      obtain ⟨c, left, hcomes, hends⟩ := ih b
      exact ⟨c, left, .next hstep hcomes, hends⟩

theorem walk_cons {k : κ} (h : child a k = some b) : walk child a (k :: ks) = walk child b ks := by
  rw [walk, h, Option.bind_some]

theorem walk_append (child : α → κ → Option α) (a : α) (ks ls : List κ) :
    walk child a (ks ++ ls) = (walk child a ks).bind fun b => walk child b ls := by
  induction ks generalizing a with
  | nil => rfl
  | cons k ks ih =>
    rw [List.cons_append, walk, walk]
    cases child a k with
    | none => rfl
    | some b => exact ih b

/-- One step more. -/
theorem walk_concat {k : κ} (h : walk child a ks = some b) :
    walk child a (ks ++ [k]) = child b k := by
  rw [walk_append, h, Option.bind_some, walk]
  cases child b k <;> rfl

theorem walk_eq_some_iff : walk child a ks = some b ↔ Comes child a ks b [] := by
  induction ks generalizing a with
  | nil =>
    constructor
    · intro h
      obtain rfl := Option.some.inj h
      exact .here a []
    · intro h
      cases h with
      | here => rfl
  | cons k ks ih =>
    constructor
    · intro h
      obtain ⟨a', hstep, hrest⟩ := Option.bind_eq_some_iff.mp h
      exact .next hstep (ih.mp hrest)
    · intro h
      cases h with
      | next hstep hrest =>
        rw [walk_cons hstep]
        exact ih.mpr hrest

namespace Comes

theorem trans (h : Comes child a ks b left) (h' : Comes child b left c left') :
    Comes child a ks c left' := by
  induction h with
  | here => exact h'
  | next hstep _ ih => exact .next hstep (ih h')

/-- Of two places on a walk one is behind the other. -/
theorem total (h : Comes child a ks b left) (h' : Comes child a ks b' left') :
    Comes child b left b' left' ∨ Comes child b' left' b left := by
  induction h with
  | here => exact .inl h'
  | next hstep hrest ih =>
    cases h' with
    | here => exact .inr (.next hstep hrest)
    | next hstep' hrest' =>
      obtain rfl := Option.some.inj (hstep.symm.trans hstep')
      exact ih hrest'

/-- At its end the walk stays. -/
theorem stuck (h : Comes child a ks b left) (hend : Ends child a ks) : b = a ∧ left = ks := by
  cases h with
  | here => exact ⟨rfl, rfl⟩
  | @next _ _ _ k ks _ hstep _ =>
    rw [hend k rfl] at hstep
    cases hstep

/-- Every place of a walk is before its end. -/
theorem before_end (h : Comes child a ks b left) (hend : Comes child a ks c left')
    (hends : Ends child c left') : Comes child b left c left' := by
  rcases h.total hend with hbefore | hbehind
  · exact hbefore
  · obtain ⟨rfl, rfl⟩ := hbehind.stuck hends
    exact .here _ _

/-- What each step keeps holds at every place of a walk. -/
theorem preserves {P : α → Prop} (hchild : ∀ a k b, P a → child a k = some b → P b)
    (h : Comes child a ks b left) (ha : P a) : P b := by
  induction h with
  | here => exact ha
  | next hstep _ ih => exact ih (hchild _ _ _ ha hstep)

/-- More steps, more walks. -/
theorem mono (hchild : ∀ a k b, child a k = some b → child' a k = some b)
    (h : Comes child a ks b left) : Comes child' a ks b left := by
  induction h with
  | here => exact .here _ _
  | next hstep _ ih => exact .next (hchild _ _ _ hstep) ih

end Comes

end PathWalk
