/-
`str.hpp`: cutting a string at a delimiter, and blanks off its ends.

`split` runs `find` from delimiter to delimiter and leaves out the empty pieces. From a
delimiter it goes on one byte further, however long the delimiter is
(`split_eq_pieces`). `split_eq` says what that is for a delimiter of one byte, which is
what its callers pass: the pieces of `List.splitOn` that are not empty.
-/
import Rellaf.Cpp
import Rellaf.Lib.Delimiter

set_option autoImplicit false

open Rellaf.Cpp Delimiter

namespace Rellaf.Str

/-- The loop of `split`, with `current` as the last `find` has left it, and the
piece behind the loop. Every round moves `current` on by at least one byte. -/
def split_loop (str delims : Str) : Nat → Nat → Option Nat → List Str → List Str
  | _, previous, none, cont =>
    -- `current` is `npos`, and so is the length asked for
    if previous < str.length then cont ++ [substr str previous none] else cont
  | 0, _, some _, cont => cont
  | fuel + 1, previous, some current, cont =>
    let cont := if previous < current then
      cont ++ [substr str previous (some (current - previous))] else cont
    split_loop str delims fuel (current + 1) (find str delims (current + 1)) cont

def split (str delims : Str) : List Str :=
  split_loop str delims str.length 0 (find str delims 0) []

/-! ## `trim` -/

/-- What the searches of `trim_left` and `trim_right` stop at. `isspace` gets a
negative `int` for a byte from 128 on, which the C library has an entry for. -/
def stays (any_of : Str) (ch : UInt8) : Bool :=
  if any_of.isEmpty then !isspace ch else !any_of.contains ch

def trim_left (s any_of : Str) : Str := s.dropWhile fun ch => !stays any_of ch

def trim_right (s any_of : Str) : Str := (s.reverse.dropWhile fun ch => !stays any_of ch).reverse

/-- `trim(s, any_of)` does not hand `any_of` on. -/
def trim (s _any_of : Str) : Str := trim_right (trim_left s []) []

/-! ## The pieces -/

/-- `find` ends the first piece. -/
theorem pieces_of_find_from {delims : Str} (hne : delims ≠ []) (skip : Nat) (s : Str) (i : Nat) :
    match find_from delims s i with
    | none => pieces_from delims skip 0 s = [s]
    | some current => ∃ k, current = i + k ∧ k < s.length ∧
        pieces_from delims skip 0 s = s.take k :: pieces_from delims skip skip (s.drop (k + 1)) := by
  induction s generalizing i with
  | nil =>
    have hbegins : delims.isPrefixOf [] = false := by
      cases delims with
      | nil => exact absurd rfl hne
      | cons c delims => rfl
    rw [find_from, hbegins, if_neg Bool.false_ne_true]
    rfl
  | cons c s ih =>
    rw [find_from, pieces_from]
    by_cases hbegins : delims.isPrefixOf (c :: s) = true
    · rw [if_pos hbegins, if_pos hbegins]
      exact ⟨0, rfl, Nat.succ_pos _, rfl⟩
    · rw [if_neg hbegins, if_neg hbegins]
      have hrest := ih (i + 1)
      cases hfind : find_from delims s (i + 1) with
      | none =>
        rw [hfind] at hrest
        have hone : pieces_from delims skip 0 s = [s] := hrest
        simp only [hone, List.modifyHead_cons]
      | some current =>
        rw [hfind] at hrest
        obtain ⟨k, rfl, hk, hpieces⟩ := hrest
        refine ⟨k + 1, by omega, by simpa using hk, ?_⟩
        rw [hpieces]
        rfl

/-- From `previous` on, the loop adds the non-empty pieces of the rest. -/
theorem split_loop_eq {delims : Str} (hne : delims ≠ []) (str : Str) (fuel previous : Nat)
    (cont : List Str) (hprevious : previous ≤ str.length) (hfuel : str.length - previous ≤ fuel) :
    split_loop str delims fuel previous (find str delims previous) cont
      = cont ++ (pieces_from delims 0 0 (str.drop previous)).filter (· ≠ []) := by
  induction fuel generalizing previous cont with
  | zero =>
    have hdrop : str.drop previous = [] := List.drop_eq_nil_of_le (by omega)
    have hnot : ¬ previous < str.length := by omega
    have hfind := pieces_of_find_from hne 0 (str.drop previous) previous
    rw [find, if_pos hprevious]
    cases hcurrent : find_from delims (str.drop previous) previous with
    | none =>
      rw [split_loop, if_neg hnot, hdrop]
      simp [pieces_from]
    | some current =>
      rw [hcurrent] at hfind
      obtain ⟨k, -, hk, -⟩ := hfind
      rw [hdrop] at hk
      cases hk
  | succ fuel ih =>
    have hfind := pieces_of_find_from hne 0 (str.drop previous) previous
    rw [find, if_pos hprevious]
    cases hcurrent : find_from delims (str.drop previous) previous with
    | none =>
      rw [hcurrent] at hfind
      have hone : pieces_from delims 0 0 (str.drop previous) = [str.drop previous] := hfind
      rw [split_loop, hone]
      by_cases hlt : previous < str.length
      · have hrest : str.drop previous ≠ [] := by
          intro hnil
          have hle := List.drop_eq_nil_iff.mp hnil
          omega
        rw [if_pos hlt, substr]
        simp [hrest]
      · have hdrop : str.drop previous = [] := List.drop_eq_nil_of_le (by omega)
        rw [if_neg hlt, hdrop]
        simp
    | some current =>
      rw [hcurrent] at hfind
      obtain ⟨k, rfl, hk, hpieces⟩ := hfind
      rw [List.length_drop] at hk
      have hpiece : substr str previous (some (previous + k - previous)) =
          (str.drop previous).take k := by
        rw [substr, Nat.add_sub_cancel_left]
      rw [split_loop, hpiece, ih _ _ (by omega) (by omega), hpieces, List.drop_drop,
        Nat.add_assoc]
      -- the piece is empty where the delimiter is found at once
      rcases k with - | k
      · simp
      · have hlong : (str.drop previous).take (k + 1) ≠ [] := by
          rw [ne_eq, List.take_eq_nil_iff, List.drop_eq_nil_iff]
          omega
        rw [if_pos (by omega)]
        simp [hlong]

/-- `split` steps on by one byte from where it has found the delimiter. -/
theorem split_eq_pieces {delims : Str} (hne : delims ≠ []) (str : Str) :
    split str delims = (pieces_from delims 0 0 str).filter (· ≠ []) := by
  rw [split, split_loop_eq hne str _ _ _ (Nat.zero_le _) (Nat.sub_le _ _), List.drop_zero,
    List.nil_append]

/-- **`split`.** What it yields are the non-empty pieces between the leftmost occurrences of
the delimiter that do not overlap, exactly when the delimiter does not stand in the string, or
is one byte repeated whose runs are short of the delimiter or one short of a multiple of its
length. -/
theorem split_pieces_iff (str : Str) {delims : Str} (hne : delims ≠ []) :
    split str delims = (pieces delims str).filter (· ≠ []) ↔
      ¬ delims <:+: str ∨
        ∃ c, delims = List.replicate delims.length c ∧ RunsFit c delims.length str := by
  rw [split_eq_pieces hne, filter_pieces_one_iff, covered_iff hne]

theorem split_pieces_iff_slash :
    split (lit "/aa//{id}/") (lit "/") = (pieces (lit "/") (lit "/aa//{id}/")).filter (· ≠ []) ↔
      ¬ lit "/" <:+: lit "/aa//{id}/" ∨
        ∃ c, lit "/" = List.replicate (lit "/").length c ∧
          RunsFit c (lit "/").length (lit "/aa//{id}/") :=
  split_pieces_iff (lit "/aa//{id}/") (by decide)

/-- Half of the delimiter is taken into the next piece. -/
theorem split_keeps_delimiter :
    split (lit "a--b") (lit "--") = [lit "a", lit "-b"] ∧
      (pieces (lit "--") (lit "a--b")).filter (· ≠ []) = [lit "a", lit "b"] ∧
      split (lit "a--b") (lit "--") ≠ (pieces (lit "--") (lit "a--b")).filter (· ≠ []) := by
  decide

/-! ## A delimiter of one byte -/

theorem pieces_from_singleton (c : UInt8) (str : Str) :
    pieces_from [c] 0 0 str = str.splitOn c := by
  induction str with
  | nil => rfl
  | cons x str ih =>
    rw [pieces_from, List.splitOn_cons_eq_if_modifyHead, ih]
    by_cases hx : x = c
    · subst hx
      simp [List.isPrefixOf]
    · simp [List.isPrefixOf, hx, Ne.symm hx]

/-- `split` at one byte: the pieces between the delimiters, without empty ones. -/
theorem split_eq (str : Str) (c : UInt8) : split str [c] = (str.splitOn c).filter (· ≠ []) := by
  rw [split_eq_pieces (List.cons_ne_nil c []), pieces_from_singleton]

theorem ne_nil_of_mem_split {str piece : Str} {c : UInt8} (h : piece ∈ split str [c]) :
    piece ≠ [] := by
  rw [split_eq] at h
  simpa using (List.mem_filter.mp h).2

/-! ## The pieces one after another -/

theorem split_nil (c : UInt8) : split [] [c] = [] := by
  rw [split_eq, List.splitOn_nil]
  rfl

/-- A delimiter in front does nothing. -/
theorem split_cons_self (c : UInt8) (str : Str) : split (c :: str) [c] = split str [c] := by
  have hnil : c ∉ ([] : Str) := List.not_mem_nil
  have hcut : (c :: str).splitOn c = [] :: str.splitOn c :=
    List.splitOn_append_cons_self_of_not_mem hnil str
  rw [split_eq, split_eq, hcut]
  rfl

/-- The piece in front of the first delimiter. -/
theorem split_append_cons {c : UInt8} {a : Str} (hne : a ≠ []) (ha : c ∉ a) (str : Str) :
    split (a ++ c :: str) [c] = a :: split str [c] := by
  rw [split_eq, split_eq, List.splitOn_append_cons_self_of_not_mem ha]
  simp [hne]

theorem split_of_notMem {c : UInt8} {a : Str} (hne : a ≠ []) (ha : c ∉ a) : split a [c] = [a] := by
  rw [split_eq, List.splitOn_eq_singleton ha]
  simp [hne]

/-- There is a byte in front of every delimiter but the first. -/
theorem length_split_le (str : Str) (c : UInt8) : (split str [c]).length ≤ str.length + 1 := by
  have hcut : (str.splitOn c).length ≤ str.length + 1 := by
    induction str with
    | nil => simp
    | cons x str ih =>
      rw [List.splitOn, List.splitOnP_cons_eq_if_modifyHead]
      rw [List.splitOn] at ih
      split
      · rw [List.length_cons, List.length_cons]
        omega
      · rw [List.length_modifyHead, List.length_cons]
        omega
  rw [split_eq]
  exact (List.length_filter_le _ _).trans hcut

example : split (lit "/aa//{id}/") (lit "/") = [lit "aa", lit "{id}"] := by decide

end Rellaf.Str
