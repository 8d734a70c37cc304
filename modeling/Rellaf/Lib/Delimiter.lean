/-
Cutting a list at the occurrences of a delimiter.

Where the delimiter stands next, a piece ends, and some elements are passed over. With
as many as the delimiter has, these are the leftmost occurrences that do not overlap
(`pieces`). With one only, the next occurrence may begin inside of the last, and what is
left of that belongs to the next piece. `filter_pieces_one_iff` says when the pieces are
the same all the same, the empty ones left aside, and `covered_iff` what that means for
the runs of an element.
-/
import Mathlib.Tactic

set_option autoImplicit false

namespace Delimiter

variable {α : Type*} [DecidableEq α]

/-- The pieces behind `left` elements that are passed over; from an occurrence on, `skip`
elements behind its first are. -/
def pieces_from (delims : List α) (skip : Nat) : Nat → List α → List (List α)
  | _, [] => [[]]
  | left + 1, _ :: s => pieces_from delims skip left s
  | 0, c :: s =>
    if delims.isPrefixOf (c :: s) then [] :: pieces_from delims skip skip s
    else (pieces_from delims skip 0 s).modifyHead (c :: ·)

/-- What stands between the leftmost occurrences that do not overlap. -/
def pieces (delims s : List α) : List (List α) := pieces_from delims (delims.length - 1) 0 s

/-- The delimiter also stands at each of the next `left` places, and so on behind every
occurrence. -/
def covered_from (delims : List α) : Nat → List α → Prop
  | _, [] => True
  | left + 1, c :: s => delims.isPrefixOf (c :: s) = true ∧ covered_from delims left s
  | 0, c :: s =>
    if delims.isPrefixOf (c :: s) then covered_from delims (delims.length - 1) s
    else covered_from delims 0 s

/-- Every place inside of a leftmost occurrence begins an occurrence. -/
def Covered (delims s : List α) : Prop := covered_from delims 0 s

variable {delims : List α}

theorem pieces_from_ne_nil (skip left : Nat) (s : List α) :
    pieces_from delims skip left s ≠ [] := by
  induction s generalizing left with
  | nil => cases left <;> exact List.cons_ne_nil _ _
  | cons c s ih =>
    cases left with
    | succ left => exact ih left
    | zero =>
      rw [pieces_from]
      split
      · exact List.cons_ne_nil _ _
      · rw [ne_eq, List.modifyHead_eq_nil_iff]
        exact ih 0

/-! ## One element passed over -/

/-- How many elements the pieces have. -/
def total (pieces : List (List α)) : Nat := pieces.flatten.length

omit [DecidableEq α] in
theorem total_modifyHead {pieces : List (List α)} (h : pieces ≠ []) (c : α) :
    total (pieces.modifyHead (c :: ·)) = total pieces + 1 := by
  obtain ⟨piece, pieces, rfl⟩ := List.exists_cons_of_ne_nil h
  simp [total]

omit [DecidableEq α] in
theorem total_filter (pieces : List (List α)) : total (pieces.filter (· ≠ [])) = total pieces := by
  induction pieces with
  | nil => rfl
  | cons piece pieces ih =>
    by_cases hnil : piece = []
    · simpa [hnil, total] using ih
    · simpa [hnil, total] using ih

/-- With one element passed over no less is left, and as much only where the places are
covered. -/
theorem total_le (left : Nat) (s : List α) :
    total (pieces_from delims (delims.length - 1) left s) ≤ total (pieces_from delims 0 0 s) ∧
      (total (pieces_from delims 0 0 s) = total (pieces_from delims (delims.length - 1) left s) →
        covered_from delims left s) := by
  induction s generalizing left with
  | nil => cases left <;> exact ⟨Nat.le_refl _, fun _ => trivial⟩
  | cons c s ih =>
    have hnil : ∀ pieces : List (List α), total ([] :: pieces) = total pieces := fun _ => rfl
    have hne : pieces_from delims 0 0 s ≠ [] := pieces_from_ne_nil 0 0 s
    have hone := total_modifyHead hne c
    cases left with
    | succ left =>
      obtain ⟨hle, heq⟩ := ih left
      rw [pieces_from, pieces_from, covered_from]
      by_cases hbegins : delims.isPrefixOf (c :: s) = true
      · rw [if_pos hbegins, hnil]
        exact ⟨hle, fun h => ⟨hbegins, heq h⟩⟩
      · -- the element stays in a piece of the one, and is passed over by the other
        rw [if_neg hbegins, hone]
        exact ⟨by omega, fun h => by omega⟩
    | zero =>
      rw [pieces_from, pieces_from, covered_from]
      by_cases hbegins : delims.isPrefixOf (c :: s) = true
      · rw [if_pos hbegins, if_pos hbegins, if_pos hbegins, hnil, hnil]
        exact ih _
      · obtain ⟨hle, heq⟩ := ih 0
        have hne' : pieces_from delims (delims.length - 1) 0 s ≠ [] := pieces_from_ne_nil _ 0 s
        have hskip := total_modifyHead hne' c
        rw [if_neg hbegins, if_neg hbegins, if_neg hbegins, hone, hskip]
        exact ⟨by omega, fun h => heq (by omega)⟩

/-- Where the places are covered, the pieces are the same but for empty ones; in front of
the first occurrence they are the same at all. -/
theorem pieces_of_covered {left : Nat} {s : List α} (h : covered_from delims left s) :
    (pieces_from delims 0 0 s).filter (· ≠ []) =
        (pieces_from delims (delims.length - 1) left s).filter (· ≠ []) ∧
      (left = 0 → ∃ piece rest rest', pieces_from delims 0 0 s = piece :: rest ∧
        pieces_from delims (delims.length - 1) 0 s = piece :: rest' ∧
        rest.filter (· ≠ []) = rest'.filter (· ≠ [])) := by
  induction s generalizing left with
  | nil => cases left <;> exact ⟨rfl, fun _ => ⟨[], [], [], rfl, rfl, rfl⟩⟩
  | cons c s ih =>
    cases left with
    | succ left =>
      obtain ⟨hbegins, h⟩ := h
      refine ⟨?_, nofun⟩
      rw [pieces_from, pieces_from, if_pos hbegins]
      simpa using (ih h).1
    | zero =>
      rw [covered_from] at h
      rw [pieces_from, pieces_from]
      by_cases hbegins : delims.isPrefixOf (c :: s) = true
      · rw [if_pos hbegins] at h
        rw [if_pos hbegins, if_pos hbegins]
        have hrest := (ih h).1
        exact ⟨by simpa using hrest, fun _ => ⟨[], _, _, rfl, rfl, hrest⟩⟩
      · rw [if_neg hbegins] at h
        rw [if_neg hbegins, if_neg hbegins]
        obtain ⟨piece, rest, rest', hone, hskip, hrest⟩ := (ih h).2 rfl
        rw [hone, hskip]
        refine ⟨?_, fun _ => ⟨c :: piece, rest, rest', rfl, rfl, hrest⟩⟩
        simpa using hrest

/-- **One element passed over.** What is left between the places found is what is left
between the leftmost occurrences exactly where those are covered. -/
theorem filter_pieces_one_iff (s : List α) :
    (pieces_from delims 0 0 s).filter (· ≠ []) = (pieces delims s).filter (· ≠ []) ↔
      Covered delims s := by
  constructor
  · intro h
    have htotal := congrArg total h
    rw [total_filter, total_filter] at htotal
    exact (total_le 0 s).2 htotal
  · intro h
    exact (pieces_of_covered h).1

/-! ## Runs -/

/-- Every run of `a` that is not shorter than `n` is one short of a multiple of `n`. -/
def RunsFit (a : α) (n : Nat) (s : List α) : Prop :=
  ∀ run ∈ s.splitOnP (· ≠ a), n ≤ run.length → run.length % n = n - 1

/-- Where the delimiter does not stand, nothing is asked for. -/
theorem covered_of_not_infix {s : List α} (h : ¬ delims <:+: s) : Covered delims s := by
  induction s with
  | nil => trivial
  | cons c s ih =>
    rw [List.infix_cons_iff, not_or, ← List.isPrefixOf_iff_prefix] at h
    rw [Covered, covered_from, if_neg h.1]
    exact ih h.2

omit [DecidableEq α] in
/-- A list that goes on as it begins is one element repeated. -/
theorem eq_replicate_of_prefix_cons {c : α} {s : List α} (h : s <+: c :: s) :
    s = List.replicate s.length c := by
  induction s with
  | nil => rfl
  | cons x s ih =>
    obtain ⟨rfl, hrest⟩ := List.cons_prefix_cons.mp h
    rw [List.length_cons, List.replicate_succ, ← ih hrest]

/-- A delimiter that stands somewhere, and covered, is one element repeated. -/
theorem eq_replicate_of_covered {s : List α} (hne : delims ≠ []) (h : Covered delims s)
    (hoccurs : delims <:+: s) : ∃ a, delims = List.replicate delims.length a := by
  induction s with
  | nil => exact absurd (List.infix_nil.mp hoccurs) hne
  | cons c s ih =>
    rw [Covered, covered_from] at h
    rw [List.infix_cons_iff, ← List.isPrefixOf_iff_prefix] at hoccurs
    by_cases hbegins : delims.isPrefixOf (c :: s) = true
    · rw [if_pos hbegins] at h
      rw [List.isPrefixOf_iff_prefix] at hbegins
      obtain ⟨x, rest, rfl⟩ := List.exists_cons_of_ne_nil hne
      obtain ⟨rfl, hrest⟩ := List.cons_prefix_cons.mp hbegins
      refine ⟨x, ?_⟩
      rw [List.length_cons, List.replicate_succ, List.cons.injEq]
      refine ⟨rfl, ?_⟩
      cases rest with
      | nil => rfl
      | cons y rest =>
        -- the next place begins an occurrence too
        obtain ⟨t, rfl⟩ := hrest
        obtain ⟨hnext, -⟩ := h
        rw [List.isPrefixOf_iff_prefix] at hnext
        exact eq_replicate_of_prefix_cons
          (List.prefix_of_prefix_length_le (List.prefix_append _ t) hnext (by simp))
    · rw [if_neg hbegins] at h
      exact ih h (hoccurs.resolve_left hbegins)

section Repeated

variable {a : α} {n : Nat}

/-- The repeated element as a delimiter, in front of a run. -/
theorem replicate_isPrefixOf {s : List α} (hs : s.head? ≠ some a) (k : Nat) :
    (List.replicate n a).isPrefixOf (List.replicate k a ++ s) = true ↔ n ≤ k := by
  induction n generalizing k with
  | zero => simp
  | succ n ih =>
    cases k with
    | succ k =>
      rw [List.replicate_succ, List.replicate_succ, List.cons_append,
        List.isPrefixOf_cons_cons_self, ih, Nat.add_le_add_iff_right]
    | zero =>
      cases s with
      | nil => simp
      | cons c s =>
        have hne : a ≠ c := fun h => hs (by rw [h]; rfl)
        simp [List.replicate_succ, List.isPrefixOf, hne]

theorem covered_from_run {s : List α} (hs : s.head? ≠ some a) (left k : Nat) (hle : left ≤ k) :
    covered_from (List.replicate n a) left (List.replicate k a ++ s) ↔
      (left = 0 ∨ n + left ≤ k + 1) ∧
        covered_from (List.replicate n a) 0 (List.replicate (k - left) a ++ s) := by
  induction left generalizing k with
  | zero => simp
  | succ left ih =>
    obtain ⟨k, rfl⟩ : ∃ k', k = k' + 1 := ⟨k - 1, by omega⟩
    have hbegins := replicate_isPrefixOf (n := n) hs (k + 1)
    rw [List.replicate_succ, List.cons_append] at hbegins ⊢
    rw [covered_from, hbegins, ih k (by omega), Nat.add_sub_add_right, ← and_assoc]
    refine and_congr_left fun _ => ?_
    omega

/-- A run of the element, and what comes behind it. -/
theorem covered_run {s : List α} (hn : 0 < n) (hs : s.head? ≠ some a) (k : Nat) :
    Covered (List.replicate n a) (List.replicate k a ++ s) ↔
      (n ≤ k → k % n = n - 1) ∧ Covered (List.replicate n a) s := by
  induction k using Nat.strong_induction_on with
  | _ k ih =>
    rcases k with - | k
    · simp only [List.replicate_zero, List.nil_append]
      exact ⟨fun h => ⟨fun hle => by omega, h⟩, And.right⟩
    have hbegins := replicate_isPrefixOf (n := n) hs (k + 1)
    rw [List.replicate_succ, List.cons_append] at hbegins ⊢
    rw [Covered, covered_from]
    by_cases hle : n ≤ k + 1
    · have hmod : (k + 1) % n = (k + 1 - n) % n := Nat.mod_eq_sub_mod hle
      have hlast : k - (n - 1) = k + 1 - n := by omega
      rw [if_pos (hbegins.mpr hle), List.length_replicate, covered_from_run hs _ _ (by omega),
        hlast, ← Covered, ih _ (by omega), ← and_assoc, hmod]
      refine and_congr_left fun _ => ?_
      by_cases hshort : k + 1 - n < n
      · rw [Nat.mod_eq_of_lt hshort]
        omega
      · constructor
        · exact fun h _ => h.2 (by omega)
        · exact fun h => ⟨.inr (by omega), fun _ => h hle⟩
    · rw [if_neg (mt hbegins.mp hle), ← Covered, ih k (by omega)]
      refine and_congr_left fun _ => ?_
      omega

theorem covered_replicate_iff (hn : 0 < n) (s : List α) :
    Covered (List.replicate n a) s ↔ RunsFit a n s := by
  suffices hrun : ∀ k, Covered (List.replicate n a) (List.replicate k a ++ s) ↔
      RunsFit a n (List.replicate k a ++ s) from hrun 0
  -- on the list behind the run that is under way
  induction s with
  | nil =>
    intro k
    have hone : (List.replicate k a ++ []).splitOnP (· ≠ a) = [List.replicate k a] := by
      rw [List.append_nil]
      exact List.splitOnP_eq_singleton fun x hx => by simp [List.eq_of_mem_replicate hx]
    rw [covered_run hn (by simp), RunsFit, hone, List.forall_mem_singleton, List.length_replicate]
    exact and_iff_left trivial
  | cons c s ih =>
    intro k
    by_cases hc : c = a
    · subst hc
      have hmove : List.replicate k c ++ c :: s = List.replicate (k + 1) c ++ s := by
        rw [List.replicate_succ', List.append_assoc, List.singleton_append]
      rw [hmove]
      exact ih (k + 1)
    · have hcut : (List.replicate k a ++ c :: s).splitOnP (· ≠ a) =
          List.replicate k a :: s.splitOnP (· ≠ a) :=
        List.splitOnP_append_cons_of_forall_mem
          (fun x hx => by simp [List.eq_of_mem_replicate hx]) c (by simpa using hc) s
      have hhead : (c :: s).head? ≠ some a := by simpa using hc
      have hskip : Covered (List.replicate n a) (c :: s) ↔ Covered (List.replicate n a) s := by
        have hbegins := replicate_isPrefixOf (n := n) hhead 0
        rw [List.replicate_zero, List.nil_append] at hbegins
        rw [Covered, covered_from, if_neg (mt hbegins.mp (by omega)), Covered]
      have hrest : Covered (List.replicate n a) s ↔ RunsFit a n s := ih 0
      rw [covered_run hn hhead, hskip, hrest, RunsFit, RunsFit, hcut, List.forall_mem_cons,
        List.length_replicate]

end Repeated

/-- **Covered.** The delimiter does not stand anywhere, or it is one element repeated, and
the runs of that element fit. -/
theorem covered_iff {s : List α} (hne : delims ≠ []) :
    Covered delims s ↔
      ¬ delims <:+: s ∨
        ∃ a, delims = List.replicate delims.length a ∧ RunsFit a delims.length s := by
  have hpos := List.length_pos_of_ne_nil hne
  constructor
  · intro h
    by_cases hoccurs : delims <:+: s
    · obtain ⟨a, ha⟩ := eq_replicate_of_covered hne h hoccurs
      refine .inr ⟨a, ha, ?_⟩
      rw [ha] at h
      exact (covered_replicate_iff hpos s).mp h
    · exact .inl hoccurs
  · rintro (hoccurs | ⟨a, ha, hruns⟩)
    · exact covered_of_not_infix hoccurs
    · rw [ha]
      exact (covered_replicate_iff hpos s).mpr hruns

end Delimiter
