/-
Lists of pairs as a text: a key, an arrow and a value, and a separator behind every pair
but the last, with blanks in between.

The reader cuts the text at the separators and each piece at its first arrow, and takes
the blanks off the ends of what is left. So a key that it reads has no separator, no
arrow and no blank at an end (`clean_of_read`), and these are all the keys that can be
written: what is read is what was written exactly where every key is like that
(`read_write_iff`).
-/
import Mathlib.Data.List.DropRight
import Mathlib.Data.List.TakeWhile
import Mathlib.Tactic.Common

set_option autoImplicit false

namespace PairList

/-- How pairs are written: what stands behind a pair, between its key and its value, and
the blanks in front of the arrow, behind it, and behind a separator. -/
structure Format (α : Type*) where
  sep : α
  arrow : List α
  blank : α → Bool
  left : List α
  right : List α
  next : List α
  arrow_ne : arrow ≠ []
  arrow_solid : ∀ c ∈ arrow, blank c = false
  sep_solid : blank sep = false
  sep_notMem : sep ∉ arrow
  left_ne : left ≠ []
  left_blank : ∀ c ∈ left, blank c = true
  right_blank : ∀ c ∈ right, blank c = true
  next_blank : ∀ c ∈ next, blank c = true

variable {α : Type*} [DecidableEq α] (F : Format α)

/-! ## Reading and writing -/

namespace Format

/-- Without the blanks at the ends. -/
def trim (s : List α) : List α := (s.dropWhile F.blank).rdropWhile F.blank

/-- What stands in front of the first arrow and behind it. -/
def cut : List α → Option (List α × List α)
  | [] => none
  | c :: s =>
    if F.arrow.isPrefixOf (c :: s) then some ([], (c :: s).drop F.arrow.length)
    else (cut s).map (Prod.map (c :: ·) id)

def read_pair (piece : List α) : Option (List α × List α) :=
  (F.cut piece).map (Prod.map F.trim F.trim)

def read_pieces : List (List α) → Option (List (List α × List α))
  | [] => some []
  | piece :: pieces => do
    let p ← F.read_pair piece
    let pairs ← read_pieces pieces
    return p :: pairs

def read (text : List α) : Option (List (List α × List α)) := F.read_pieces (text.splitOn F.sep)

def line (p : List α × List α) : List α := p.1 ++ F.left ++ F.arrow ++ F.right ++ p.2

/-- The lines of the pairs, each but the first with what stands behind a separator. -/
def lines : List (List α × List α) → List (List α)
  | [] => []
  | p :: pairs => F.line p :: pairs.map fun p => F.next ++ F.line p

def write (pairs : List (List α × List α)) : List α := [F.sep].intercalate (F.lines pairs)

/-- What a key has to be. -/
structure Clean (key : List α) : Prop where
  sep : F.sep ∉ key
  arrow : ¬ F.arrow <:+: key
  ends : F.trim key = key

/-- What a value has to be; it may hold arrows. -/
structure CleanValue (value : List α) : Prop where
  sep : F.sep ∉ value
  ends : F.trim value = value

end Format

/-! ## Blanks at the ends -/

section Ends

variable {p : α → Bool}

omit [DecidableEq α] in
theorem dropWhile_blank_append {gap : List α} (h : ∀ c ∈ gap, p c = true) (s : List α) :
    (gap ++ s).dropWhile p = s.dropWhile p := by
  rw [List.dropWhile_append, List.dropWhile_eq_nil_iff.mpr h]
  rfl

omit [DecidableEq α] in
theorem rdropWhile_append_blank {gap : List α} (h : ∀ c ∈ gap, p c = true) (s : List α) :
    (s ++ gap).rdropWhile p = s.rdropWhile p := by
  have hrev : ∀ c ∈ gap.reverse, p c = true := fun c hc => h c (List.mem_reverse.mp hc)
  rw [List.rdropWhile, List.reverse_append, dropWhile_blank_append hrev, List.rdropWhile]

omit [DecidableEq α] in
/-- Nothing is dropped in front once the end is off as well. -/
theorem dropWhile_rdropWhile {s : List α} (h : s.dropWhile p = s) :
    (s.rdropWhile p).dropWhile p = s.rdropWhile p := by
  rw [List.dropWhile_eq_self_iff] at h ⊢
  intro hl
  have hpre : s.rdropWhile p <+: s := List.rdropWhile_prefix p s
  have hs : 0 < s.length := Nat.lt_of_lt_of_le hl hpre.length_le
  have hfirst : (s.rdropWhile p)[0] = s[0] := hpre.getElem hl
  rw [hfirst]
  exact h hs

end Ends

section Trim

omit [DecidableEq α]

theorem trim_blank_append {gap : List α} (h : ∀ c ∈ gap, F.blank c = true) (s : List α) :
    F.trim (gap ++ s) = F.trim s := by
  rw [Format.trim, dropWhile_blank_append h, Format.trim]

theorem trim_append_blank {gap : List α} (h : ∀ c ∈ gap, F.blank c = true) (s : List α) :
    F.trim (s ++ gap) = F.trim s := by
  rw [Format.trim, List.dropWhile_append, Format.trim]
  split
  next hnil =>
    -- `s` is blank, and so is everything
    rw [List.isEmpty_iff.mp hnil, List.dropWhile_eq_nil_iff.mpr h]
  next => exact rdropWhile_append_blank h _

theorem trim_trim (s : List α) : F.trim (F.trim s) = F.trim s := by
  have hfront : (F.trim s).dropWhile F.blank = F.trim s :=
    dropWhile_rdropWhile (List.dropWhile_idempotent F.blank s)
  rw [Format.trim, hfront]
  exact List.rdropWhile_idempotent F.blank _

theorem trim_of_solid {s : List α} (h : ∀ c ∈ s, F.blank c = false) : F.trim s = s := by
  have hfront : s.dropWhile F.blank = s := by
    rw [List.dropWhile_eq_self_iff]
    intro hl
    rw [h _ (List.getElem_mem hl)]
    exact Bool.false_ne_true
  rw [Format.trim, hfront, List.rdropWhile_eq_self_iff]
  intro hl
  rw [h _ (List.getLast_mem hl)]
  exact Bool.false_ne_true

theorem trim_infix (s : List α) : F.trim s <:+: s :=
  (List.rdropWhile_prefix F.blank _).isInfix.trans (List.dropWhile_suffix F.blank).isInfix

end Trim

/-! ## The first arrow -/

theorem cut_cons {c : α} {s : List α} (h : ¬ F.arrow <+: c :: s) :
    F.cut (c :: s) = (F.cut s).map (Prod.map (c :: ·) id) := by
  rw [Format.cut, if_neg (by rwa [List.isPrefixOf_iff_prefix])]

theorem cut_arrow (s : List α) : F.cut (F.arrow ++ s) = some ([], s) := by
  obtain ⟨c, tail, harrow⟩ := List.exists_cons_of_ne_nil F.arrow_ne
  have hpre : F.arrow.isPrefixOf (c :: (tail ++ s)) = true := by
    rw [List.isPrefixOf_iff_prefix, ← List.cons_append, ← harrow]
    exact List.prefix_append F.arrow s
  have htext : F.arrow ++ s = c :: (tail ++ s) := by rw [harrow, List.cons_append]
  rw [htext, Format.cut, if_pos hpre, ← htext, List.drop_left]

/-- No arrow begins at a blank. -/
theorem cut_blank {c : α} (h : F.blank c = true) (s : List α) :
    F.cut (c :: s) = (F.cut s).map (Prod.map (c :: ·) id) := by
  refine cut_cons F fun hpre => ?_
  obtain ⟨d, tail, harrow⟩ := List.exists_cons_of_ne_nil F.arrow_ne
  rw [harrow, List.cons_prefix_cons] at hpre
  have hsolid := F.arrow_solid d (by rw [harrow]; exact List.mem_cons_self)
  rw [hpre.1, h] at hsolid
  cases hsolid

theorem cut_blanks {gap : List α} (h : ∀ c ∈ gap, F.blank c = true) (s : List α) :
    F.cut (gap ++ s) = (F.cut s).map (Prod.map (gap ++ ·) id) := by
  induction gap with
  | nil =>
    rw [List.nil_append]
    cases F.cut s <;> rfl
  | cons c gap ih =>
    rw [List.cons_append, cut_blank F (h c List.mem_cons_self),
      ih fun d hd => h d (List.mem_cons_of_mem c hd)]
    cases F.cut s <;> rfl

/-- No arrow of a text begins in front of a blank and ends behind it, so the first one of
a key without an arrow is the one that is written. -/
theorem cut_key {key gap : List α} (hkey : ¬ F.arrow <:+: key) (hne : gap ≠ [])
    (hgap : ∀ c ∈ gap, F.blank c = true) (s : List α) :
    F.cut (key ++ gap ++ F.arrow ++ s) = some (key ++ gap, s) := by
  induction key with
  | nil =>
    rw [List.nil_append, List.append_assoc, cut_blanks F hgap, cut_arrow]
    simp
  | cons c key ih =>
    rw [List.infix_cons_iff, not_or] at hkey
    have hnot : ¬ F.arrow <+: c :: (key ++ gap ++ F.arrow ++ s) := by
      intro hpre
      obtain ⟨b, gap', rfl⟩ := List.exists_cons_of_ne_nil hne
      have hblank : F.blank b = true := hgap b List.mem_cons_self
      have hmem : b ∉ F.arrow := fun hb => by
        have hsolid := F.arrow_solid b hb
        rw [hblank] at hsolid
        cases hsolid
      have hkeyb : (c :: key) ++ [b] <+: c :: (key ++ b :: gap' ++ F.arrow ++ s) :=
        ⟨gap' ++ F.arrow ++ s, by simp⟩
      obtain hin | hin := List.prefix_or_prefix_of_prefix hpre hkeyb
      · obtain heq | hin := List.prefix_concat_iff.mp hin
        · exact hmem (by rw [heq]; simp)
        · exact hkey.1 hin
      · exact hmem (hin.subset (by simp))
    have htail := ih hkey.2
    rw [List.cons_append, List.cons_append, List.cons_append, cut_cons F hnot, htail]
    rfl

/-- What `cut` finds is the first arrow. -/
theorem cut_some {s a b : List α} (h : F.cut s = some (a, b)) :
    s = a ++ F.arrow ++ b ∧ ¬ F.arrow <:+: a := by
  induction s generalizing a with
  | nil => cases h
  | cons c s ih =>
    rw [Format.cut] at h
    split at h
    next hpre =>
      rw [List.isPrefixOf_iff_prefix] at hpre
      obtain ⟨rest, hrest⟩ := hpre
      cases h
      refine ⟨?_, fun hin => F.arrow_ne (List.infix_nil.mp hin)⟩
      rw [← hrest, List.drop_left, List.nil_append]
    next hpre =>
      obtain ⟨⟨a', b'⟩, hcut, heq⟩ := Option.map_eq_some_iff.mp h
      cases heq
      obtain ⟨hs, hnot⟩ := ih hcut
      rw [List.isPrefixOf_iff_prefix] at hpre
      refine ⟨by rw [hs]; rfl, ?_⟩
      show ¬ F.arrow <:+: c :: a'
      rw [List.infix_cons_iff, not_or]
      refine ⟨fun hin => hpre (hin.trans ⟨F.arrow ++ b', ?_⟩), hnot⟩
      rw [hs]
      simp

/-! ## The lines -/

omit [DecidableEq α] in
/-- The text of one more pair in front. -/
theorem write_cons (p q : List α × List α) (pairs : List (List α × List α)) :
    F.write (p :: q :: pairs) = F.line p ++ F.sep :: F.next ++ F.write (q :: pairs) := by
  have hgap : ∀ (gap first : List α) (rest : List (List α)),
      [F.sep].intercalate ((gap ++ first) :: rest) =
        gap ++ [F.sep].intercalate (first :: rest) := by
    intro gap first rest
    cases rest <;> simp
  simp only [Format.write, Format.lines, List.map_cons, List.intercalate_cons_cons, hgap]
  simp

/-! ## What is read -/

/-- No piece between the separators holds one. -/
theorem notMem_of_mem_splitOn {sep : α} {s piece : List α} (h : piece ∈ s.splitOn sep) :
    sep ∉ piece := by
  induction s generalizing piece with
  | nil =>
    rw [List.splitOn_nil, List.mem_singleton] at h
    rw [h]
    exact List.not_mem_nil
  | cons c s ih =>
    rw [List.splitOn_cons_eq_if_modifyHead] at h
    split at h
    next hc =>
      obtain rfl | h := List.mem_cons.mp h
      · exact List.not_mem_nil
      · exact ih h
    next hc =>
      obtain ⟨first, rest, hsplit⟩ := List.exists_cons_of_ne_nil (List.splitOn_ne_nil sep s)
      rw [hsplit, List.modifyHead_cons] at h
      obtain rfl | h := List.mem_cons.mp h
      · have hfirst : sep ∉ first := ih (by rw [hsplit]; exact List.mem_cons_self)
        rw [List.mem_cons, not_or]
        exact ⟨fun hsep => hc (by simp [hsep]), hfirst⟩
      · exact ih (by rw [hsplit]; exact List.mem_cons_of_mem _ h)

theorem read_pair_clean {piece : List α} (hsep : F.sep ∉ piece) {p : List α × List α}
    (h : F.read_pair piece = some p) : F.Clean p.1 := by
  obtain ⟨⟨a, b⟩, hcut, rfl⟩ := Option.map_eq_some_iff.mp h
  obtain ⟨hpiece, harrow⟩ := cut_some F hcut
  have hsub := trim_infix F a
  refine ⟨fun hin => hsep ?_, fun hin => harrow (hin.trans hsub), trim_trim F a⟩
  rw [hpiece]
  simp [hsub.subset hin]

theorem mem_of_read_pieces {pieces : List (List α)} {pairs : List (List α × List α)}
    (h : F.read_pieces pieces = some pairs) {p : List α × List α} (hp : p ∈ pairs) :
    ∃ piece ∈ pieces, F.read_pair piece = some p := by
  induction pieces generalizing pairs with
  | nil =>
    cases h
    cases hp
  | cons piece pieces ih =>
    obtain ⟨first, hfirst, h⟩ := Option.bind_eq_some_iff.mp h
    obtain ⟨rest, hrest, h⟩ := Option.bind_eq_some_iff.mp h
    cases h
    obtain rfl | hp := List.mem_cons.mp hp
    · exact ⟨piece, List.mem_cons_self, hfirst⟩
    · obtain ⟨piece', hmem, hread⟩ := ih hrest hp
      exact ⟨piece', List.mem_cons_of_mem _ hmem, hread⟩

/-- **What the reader can name.** -/
theorem clean_of_read {text : List α} {pairs : List (List α × List α)}
    (h : F.read text = some pairs) {p : List α × List α} (hp : p ∈ pairs) : F.Clean p.1 := by
  obtain ⟨piece, hmem, hread⟩ := mem_of_read_pieces F h hp
  exact read_pair_clean F (notMem_of_mem_splitOn hmem) hread

/-! ## What was written -/

omit [DecidableEq α] in
theorem sep_notMem_of_blank {gap : List α} (h : ∀ c ∈ gap, F.blank c = true) : F.sep ∉ gap := by
  intro hsep
  have hblank := h F.sep hsep
  rw [F.sep_solid] at hblank
  cases hblank

omit [DecidableEq α] in
theorem sep_notMem_line {p : List α × List α} (hkey : F.sep ∉ p.1) (hvalue : F.sep ∉ p.2) :
    F.sep ∉ F.line p := by
  simp [Format.line, hkey, hvalue, F.sep_notMem, sep_notMem_of_blank F F.left_blank,
    sep_notMem_of_blank F F.right_blank]

theorem read_pair_line {gap : List α} (hgap : ∀ c ∈ gap, F.blank c = true)
    {p : List α × List α} (hkey : F.Clean p.1) (hvalue : F.CleanValue p.2) :
    F.read_pair (gap ++ F.line p) = some p := by
  have hline : F.line p = p.1 ++ F.left ++ F.arrow ++ (F.right ++ p.2) := by
    simp [Format.line]
  have htrim : F.trim (gap ++ (p.1 ++ F.left)) = p.1 := by
    rw [trim_blank_append F hgap, trim_append_blank F F.left_blank, hkey.ends]
  have hright : F.trim (F.right ++ p.2) = p.2 := by
    rw [trim_blank_append F F.right_blank, hvalue.ends]
  rw [Format.read_pair, cut_blanks F hgap, hline, cut_key F hkey.arrow F.left_ne F.left_blank]
  simp [htrim, hright]

theorem read_pieces_gaps {pairs : List (List α × List α)}
    (hkeys : ∀ p ∈ pairs, F.Clean p.1) (hvalues : ∀ p ∈ pairs, F.CleanValue p.2) :
    F.read_pieces (pairs.map fun p => F.next ++ F.line p) = some pairs := by
  induction pairs with
  | nil => rfl
  | cons p pairs ih =>
    have hp := read_pair_line F F.next_blank (hkeys p List.mem_cons_self)
      (hvalues p List.mem_cons_self)
    have hrest := ih (fun q hq => hkeys q (List.mem_cons_of_mem _ hq))
      fun q hq => hvalues q (List.mem_cons_of_mem _ hq)
    rw [List.map_cons, Format.read_pieces, hp, hrest]
    rfl

theorem read_pieces_lines {pairs : List (List α × List α)}
    (hkeys : ∀ p ∈ pairs, F.Clean p.1) (hvalues : ∀ p ∈ pairs, F.CleanValue p.2) :
    F.read_pieces (F.lines pairs) = some pairs := by
  cases pairs with
  | nil => rfl
  | cons p pairs =>
    have hp : F.read_pair (F.line p) = some p :=
      read_pair_line F (List.forall_mem_nil _) (hkeys p List.mem_cons_self)
        (hvalues p List.mem_cons_self)
    have hrest := read_pieces_gaps F (fun q hq => hkeys q (List.mem_cons_of_mem _ hq))
      fun q hq => hvalues q (List.mem_cons_of_mem _ hq)
    rw [Format.lines, Format.read_pieces, hp, hrest]
    rfl

omit [DecidableEq α] in
theorem lines_ne_nil {pairs : List (List α × List α)} (h : pairs ≠ []) : F.lines pairs ≠ [] := by
  cases pairs with
  | nil => exact absurd rfl h
  | cons p pairs => exact List.cons_ne_nil _ _

omit [DecidableEq α] in
theorem sep_notMem_lines {pairs : List (List α × List α)} (hkeys : ∀ p ∈ pairs, F.sep ∉ p.1)
    (hvalues : ∀ p ∈ pairs, F.sep ∉ p.2) : ∀ piece ∈ F.lines pairs, F.sep ∉ piece := by
  cases pairs with
  | nil => exact fun _ h => absurd h List.not_mem_nil
  | cons p pairs =>
    intro piece hpiece
    obtain rfl | hpiece := List.mem_cons.mp hpiece
    · exact sep_notMem_line F (hkeys p List.mem_cons_self) (hvalues p List.mem_cons_self)
    · obtain ⟨q, hq, rfl⟩ := List.mem_map.mp hpiece
      have hline := sep_notMem_line F (hkeys q (List.mem_cons_of_mem _ hq))
        (hvalues q (List.mem_cons_of_mem _ hq))
      simp [hline, sep_notMem_of_blank F F.next_blank]

theorem read_write {pairs : List (List α × List α)} (hne : pairs ≠ [])
    (hkeys : ∀ p ∈ pairs, F.Clean p.1) (hvalues : ∀ p ∈ pairs, F.CleanValue p.2) :
    F.read (F.write pairs) = some pairs := by
  have hsep := sep_notMem_lines F (fun p hp => (hkeys p hp).sep) fun p hp => (hvalues p hp).sep
  rw [Format.read, Format.write, List.splitOn_intercalate F.sep hsep (lines_ne_nil F hne)]
  exact read_pieces_lines F hkeys hvalues

/-- **The keys that can be written.** The pairs that are read are those that were written
exactly where no key holds a separator, an arrow or a blank at an end. -/
theorem read_write_iff {pairs : List (List α × List α)} (hne : pairs ≠ [])
    (hvalues : ∀ p ∈ pairs, F.CleanValue p.2) :
    (∃ found, F.read (F.write pairs) = some found ∧ ∀ p, p ∈ found ↔ p ∈ pairs) ↔
      ∀ p ∈ pairs, F.Clean p.1 := by
  constructor
  · rintro ⟨found, hread, hsame⟩ p hp
    exact clean_of_read F hread ((hsame p).mpr hp)
  · intro hkeys
    exact ⟨pairs, read_write F hne hkeys hvalues, fun p => Iff.rfl⟩

end PairList
