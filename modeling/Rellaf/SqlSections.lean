/-
`split_section`: the sections of a placeholder's text, and `split` at `.`.

The two are written apart from each other, one over a C string with a test for its end
behind each round, the other over positions with the last piece behind the loop. On a
string without zero bytes they cut the same sections.
-/
import Rellaf.SqlBuilder
import Rellaf.Str

set_option autoImplicit false

open Rellaf.Cpp

namespace Rellaf.Sql

/-- Without zero bytes the dot is found wherever it stands. -/
theorem strchr_dot {a : Str} (ha : (46 : UInt8) ∉ a) (b : Str) (h : (0 : UInt8) ∉ a ++ 46 :: b) :
    strchr (a ++ 46 :: b) 46 = some a.length := by
  rw [strchr, cstr_eq_self h, List.idxOf?_eq_some_iff]
  refine ⟨by simp, by simp, ?_⟩
  intro i hi heq
  rw [List.getElem_append_left hi] at heq
  exact ha (heq ▸ List.getElem_mem hi)

/-- The loop ends, with the non-empty sections added. A string that is left over has no
more bytes than rounds are left. -/
theorem split_section_loop_eq {rounds : Nat} {begin_ : Str} (sections : List Str)
    (hne : begin_ ≠ []) (h : (0 : UInt8) ∉ begin_) (hrounds : begin_.length ≤ rounds) :
    split_section_loop rounds begin_ sections =
      some (sections ++ (begin_.splitOn 46).filter (· ≠ [])) := by
  induction rounds generalizing begin_ sections with
  | zero => exact absurd (List.eq_nil_of_length_eq_zero (Nat.le_zero.mp hrounds)) hne
  | succ rounds ih =>
    rw [split_section_loop]
    by_cases hdot : (46 : UInt8) ∈ begin_
    · obtain ⟨a, b, rfl, ha⟩ := List.eq_append_cons_of_mem hdot
      have hb : (0 : UInt8) ∉ b := fun hmem => h (by simp [hmem])
      have hrest : (a ++ 46 :: b).drop (a.length + 1) = b := by simp
      have hsections : (if a.length = 0 then sections else
          sections ++ [(a ++ 46 :: b).take a.length]) = sections ++ [a].filter (· ≠ []) := by
        cases a with
        | nil => simp
        | cons x a => simp
      simp only [strchr_dot ha b h, hrest, hsections]
      rw [List.splitOn_append_cons_self_of_not_mem ha, List.filter_cons]
      cases b with
      | nil => by_cases hnil : a = [] <;> simp [hnil]
      | cons x b =>
        have hx : (x :: b).headD 0 ≠ 0 := fun hzero =>
          hb (by rw [← hzero]; exact List.mem_cons_self)
        rw [if_pos hx, ih _ (List.cons_ne_nil x b) hb (by simp at hrounds ⊢; omega)]
        by_cases hnil : a = [] <;> simp [hnil]
    · have hnone : strchr begin_ 46 = none := by
        rw [strchr, cstr_eq_self h]
        exact List.idxOf?_eq_none_iff.mpr hdot
      rw [hnone, List.splitOn_eq_singleton hdot]
      simp [hne]

/-- **`split_section`.** On a string without zero bytes the loop ends, and the sections are
the non-empty segments between the dots, as `split` yields them. -/
theorem split_section_eq_split (section_str : Str) (h : (0 : UInt8) ∉ section_str) :
    (section_str ≠ [] →
        ∃ rounds, split_section_loop rounds section_str [] = some (split_section section_str)) ∧
      split_section section_str = (section_str.splitOn 46).filter (· ≠ []) ∧
      split_section section_str = Str.split section_str (lit ".") := by
  have hdot : lit "." = [46] := rfl
  rw [hdot, Str.split_eq]
  by_cases hnil : section_str = []
  · subst hnil
    exact ⟨absurd rfl, rfl, rfl⟩
  · have hrounds := split_section_loop_eq [] hnil h (Nat.le_refl _)
    have hsection : split_section section_str = (section_str.splitOn 46).filter (· ≠ []) := by
      rw [split_section, if_neg (by simpa using hnil), hrounds, List.nil_append, Option.getD_some]
    refine ⟨fun _ => ⟨section_str.length, ?_⟩, hsection, hsection⟩
    rw [hrounds, hsection, List.nil_append]

theorem split_section_eq_split_dots :
    (lit ".a..b." ≠ [] → ∃ rounds,
        split_section_loop rounds (lit ".a..b.") [] = some (split_section (lit ".a..b."))) ∧
      split_section (lit ".a..b.") = ((lit ".a..b.").splitOn 46).filter (· ≠ []) ∧
      split_section (lit ".a..b.") = Str.split (lit ".a..b.") (lit ".") :=
  split_section_eq_split (lit ".a..b.") (by decide)

end Rellaf.Sql
