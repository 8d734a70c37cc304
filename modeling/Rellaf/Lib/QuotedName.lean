/-
Names between quotes over a multi-byte charset. A quote inside a name is doubled, and the
reader takes two quotes for one.

The escaper looks at a byte with what is behind it in the name, the reader with what is
behind it in the statement. So a name that ends in the middle of a character is a danger:
the closing quote may complete the character, and the name goes on (`open_end`). Where it
does not, and no byte is zero, the name is read back (`read_double_iff`).
-/
import Rellaf.Lib.SqlLiteral

set_option autoImplicit false

namespace QuotedName

open SqlLiteral (Charset)

/-- A byte that can quote names: in a character it is at most the last byte. -/
structure Quote (cs : Charset) (quote : UInt8) : Prop where
  lt : quote < 128
  ne_zero : quote ≠ 0
  last : ∀ s : List UInt8, quote ∉ (s.take (cs.charlen s)).dropLast

variable (cs : Charset) (quote : UInt8)

/-- The name with its quotes doubled; a quote in a character is not one. -/
def double : List UInt8 → List UInt8
  | [] => []
  | b :: s =>
    if cs.charlen (b :: s) = 0 then (if b = quote then [quote, quote] else [b]) ++ double s
    else (b :: s).take (cs.charlen (b :: s)) ++ double ((b :: s).drop (cs.charlen (b :: s)))
termination_by s => s.length
decreasing_by
  · simp
  · simp only [List.length_drop, List.length_cons]
    omega

/-- Reads a name whose opening quote is behind: the name and what is left after the closing
quote, or `none` when no quote closes it or a zero byte is in it. -/
def read : List UInt8 → Option (List UInt8 × List UInt8)
  | [] => none
  | b :: s =>
    if cs.charlen (b :: s) = 0 then
      if b = 0 then none
      else if b = quote then
        if s.head? = some quote then (read s.tail).map fun r => (quote :: r.1, r.2)
        else some ([], s)
      else (read s).map fun r => (b :: r.1, r.2)
    else
      (read ((b :: s).drop (cs.charlen (b :: s)))).map fun r =>
        ((b :: s).take (cs.charlen (b :: s)) ++ r.1, r.2)
termination_by s => s.length
decreasing_by
  all_goals simp only [List.length_drop, List.length_tail, List.length_cons]
  all_goals omega

/-- The name ends in bytes that make a character with a quote behind them. -/
def open_end : List UInt8 → Bool
  | [] => false
  | b :: s =>
    if cs.charlen (b :: s) = 0 then cs.charlen (b :: (s ++ [quote])) ≠ 0 || open_end s
    else open_end ((b :: s).drop (cs.charlen (b :: s)))
termination_by s => s.length
decreasing_by
  · simp
  · simp only [List.length_drop, List.length_cons]
    omega

/-! ## Equations -/

@[simp] theorem double_nil : double cs quote [] = [] := by
  rw [double]

theorem double_single {b : UInt8} {s : List UInt8} (h : cs.charlen (b :: s) = 0) :
    double cs quote (b :: s) =
      (if b = quote then [quote, quote] else [b]) ++ double cs quote s := by
  rw [double, if_pos h]

theorem double_char {s : List UInt8} (h : cs.charlen s ≠ 0) :
    double cs quote s =
      s.take (cs.charlen s) ++ double cs quote (s.drop (cs.charlen s)) := by
  cases s with
  | nil => exact absurd (Nat.le_zero.mp (cs.charlen_le [])) h
  | cons b s => rw [double, if_neg h]

theorem open_end_single {b : UInt8} {s : List UInt8} (h : cs.charlen (b :: s) = 0) :
    open_end cs quote (b :: s) =
      (cs.charlen (b :: (s ++ [quote])) ≠ 0 || open_end cs quote s) := by
  rw [open_end, if_pos h]

theorem open_end_char {s : List UInt8} (h : cs.charlen s ≠ 0) :
    open_end cs quote s = open_end cs quote (s.drop (cs.charlen s)) := by
  cases s with
  | nil => exact absurd (Nat.le_zero.mp (cs.charlen_le [])) h
  | cons b s => rw [open_end, if_neg h]

theorem read_byte {b : UInt8} {s : List UInt8} (h : cs.charlen (b :: s) = 0) (h0 : b ≠ 0)
    (hq : b ≠ quote) :
    read cs quote (b :: s) = (read cs quote s).map fun r => (b :: r.1, r.2) := by
  rw [read, if_pos h, if_neg h0, if_neg hq]

/-- A character is taken whole, whatever follows it. -/
theorem read_char {s : List UInt8} (h : cs.charlen s ≠ 0) (t : List UInt8) :
    read cs quote (s.take (cs.charlen s) ++ t) =
      (read cs quote t).map fun r => (s.take (cs.charlen s) ++ r.1, r.2) := by
  have happ := cs.charlen_append s t h
  have hlen : (s.take (cs.charlen s)).length = cs.charlen s := by
    rw [List.length_take, Nat.min_eq_left (cs.charlen_le s)]
  cases hu : s.take (cs.charlen s) with
  | nil =>
    rw [hu] at hlen
    exact absurd hlen.symm h
  | cons b u =>
    rw [hu] at happ hlen
    have hne : cs.charlen (b :: (u ++ t)) ≠ 0 := by
      rw [← List.cons_append, happ]
      exact h
    rw [List.cons_append, read, if_neg hne, ← List.cons_append, happ, List.take_left' hlen,
      List.drop_left' hlen]

theorem read_two_quotes (h : ∀ s, cs.charlen (quote :: s) = 0) (h0 : quote ≠ 0)
    (s : List UInt8) :
    read cs quote (quote :: quote :: s) = (read cs quote s).map fun r => (quote :: r.1, r.2) := by
  rw [read, if_pos (h _), if_neg h0, if_pos rfl, List.head?_cons, if_pos rfl, List.tail_cons]

/-- What was read in front of a name. -/
theorem map_put_iff {o : Option (List UInt8 × List UInt8)} {w s rest : List UInt8} :
    (o.map fun r => (w ++ r.1, r.2)) = some (w ++ s, rest) ↔ o = some (s, rest) := by
  cases o with
  | none => simp
  | some r =>
    obtain ⟨s', rest'⟩ := r
    simp

variable {cs quote}

theorem double_of_not_mem {s : List UInt8} (h : quote ∉ s) : double cs quote s = s := by
  induction s using double.induct cs with
  | case1 => exact double_nil cs quote
  | case2 b s hchar ih =>
    obtain ⟨hb, hs⟩ := not_or.mp (h ∘ List.mem_cons.mpr)
    rw [double_single cs quote hchar, if_neg fun heq => hb heq.symm, ih hs, List.singleton_append]
  | case3 b s hchar ih =>
    rw [double_char cs quote hchar, ih fun hmem => h (List.mem_of_mem_drop hmem),
      List.take_append_drop]

section quote

variable (hquote : Quote cs quote)
include hquote

theorem Quote.charlen_cons (s : List UInt8) : cs.charlen (quote :: s) = 0 :=
  SqlLiteral.charlen_eq_zero cs (SqlLiteral.lead_eq_false cs hquote.lt) s

/-- Up to the first quote, the doubled name is the name. -/
theorem Quote.first_quote (rest s : List UInt8) : ∃ u t t', quote ∉ u ∧
    double cs quote s ++ quote :: rest = u ++ quote :: t ∧ s ++ [quote] = u ++ quote :: t' := by
  induction s using double.induct cs with
  | case1 => exact ⟨[], rest, [], List.not_mem_nil, by simp, rfl⟩
  | case2 b s h ih =>
    rw [double_single cs quote h]
    by_cases hb : b = quote
    · rw [if_pos hb, hb]
      exact ⟨[], _, s ++ [quote], List.not_mem_nil, rfl, rfl⟩
    · obtain ⟨u, t, t', hu, hdouble, hs⟩ := ih
      rw [if_neg hb]
      refine ⟨b :: u, t, t', ?_, ?_, ?_⟩
      · exact not_or.mpr ⟨fun heq => hb heq.symm, hu⟩ ∘ List.mem_cons.mp
      · rw [List.append_assoc, hdouble]
        rfl
      · rw [List.cons_append, hs]
        rfl
  | case3 b s h ih =>
    rw [double_char cs quote h]
    have hlast := hquote.last (b :: s)
    have hsplit := List.take_append_drop (cs.charlen (b :: s)) (b :: s)
    generalize (b :: s).take (cs.charlen (b :: s)) = w at hlast hsplit ⊢
    generalize (b :: s).drop (cs.charlen (b :: s)) = r at ih hsplit ⊢
    rw [← hsplit]
    by_cases hw : quote ∈ w
    · -- the quote that is the last byte of the character
      rcases List.eq_nil_or_concat' w with rfl | ⟨w', c, rfl⟩
      · cases hw
      · rw [List.dropLast_concat] at hlast
        have hc : quote = c := by simpa [hlast] using hw
        subst hc
        refine ⟨w', double cs quote r ++ quote :: rest, r ++ [quote], hlast, ?_, ?_⟩
        · rw [List.append_assoc, List.append_assoc, List.singleton_append]
        · rw [List.append_assoc, List.append_assoc, List.singleton_append]
    · obtain ⟨u, t, t', hu, hdouble, hs⟩ := ih
      refine ⟨w ++ u, t, t', ?_, ?_, ?_⟩
      · exact fun hmem => (List.mem_append.mp hmem).elim hw hu
      · rw [List.append_assoc, hdouble, List.append_assoc]
      · rw [List.append_assoc, hs, List.append_assoc]

/-- In front of the doubled name, a character begins only where one begins in front of the
name and a quote. -/
theorem Quote.charlen_double {b : UInt8} (hb : b ≠ quote) {s : List UInt8}
    (hopen : cs.charlen (b :: (s ++ [quote])) = 0) (rest : List UInt8) :
    cs.charlen (b :: (double cs quote s ++ quote :: rest)) = 0 := by
  by_contra hne
  obtain ⟨u, t, t', hu, hdouble, hs⟩ := hquote.first_quote rest s
  rw [hdouble, ← List.cons_append] at hne
  have hbu : quote ∉ b :: u := not_or.mpr ⟨fun heq => hb heq.symm, hu⟩ ∘ List.mem_cons.mp
  have hlast := hquote.last (b :: u ++ quote :: t)
  have happ := cs.charlen_append (b :: u ++ quote :: t)
  generalize hn : cs.charlen (b :: u ++ quote :: t) = n at hne hlast happ
  -- the character ends with the first quote at the latest
  have hle : n ≤ (b :: u).length + 1 := by
    by_contra hlt
    refine hlast ?_
    rw [List.dropLast_eq_take, List.take_take, List.take_append, List.mem_append]
    have hlen : (b :: u ++ quote :: t).length ≥ n := hn ▸ cs.charlen_le _
    rw [List.length_append] at hlen
    right
    rw [List.length_take, List.length_append]
    obtain ⟨k, hk⟩ : ∃ k, min (min n ((b :: u).length + (quote :: t).length) - 1) n -
        (b :: u).length = k + 1 := by
      refine ⟨min (min n ((b :: u).length + (quote :: t).length) - 1) n - (b :: u).length - 1, ?_⟩
      omega
    rw [hk, List.take_succ_cons]
    exact List.mem_cons_self
  have htake : ∀ t, (b :: u ++ quote :: t).take n = (b :: u ++ [quote]).take n := by
    intro t
    rw [List.append_cons]
    exact List.take_append_of_le_length (by simpa using hle)
  have hchar := happ ((b :: u ++ quote :: t').drop n) hne
  rw [htake, ← htake t', List.take_append_drop, List.cons_append, ← hs, hopen] at hchar
  exact hne hchar.symm

/-- Where a character begins in front of the name and a quote, and none in front of the name,
it ends with the quote. -/
theorem Quote.open_char {b : UInt8} {s : List UInt8} (h : cs.charlen (b :: s) = 0)
    (hopen : cs.charlen (b :: (s ++ [quote])) ≠ 0) :
    (b :: (s ++ [quote])).take (cs.charlen (b :: (s ++ [quote]))) = b :: (s ++ [quote]) ∧
      quote ∉ s := by
  have hle := cs.charlen_le (b :: (s ++ [quote]))
  have hlast := hquote.last (b :: (s ++ [quote]))
  have hlen : cs.charlen (b :: (s ++ [quote])) = (b :: (s ++ [quote])).length := by
    by_contra hne
    have hlt : cs.charlen (b :: (s ++ [quote])) ≤ (b :: s).length := by
      simp only [List.length_cons, List.length_append, List.length_nil] at hle hne ⊢
      omega
    have htake : (b :: (s ++ [quote])).take (cs.charlen (b :: (s ++ [quote]))) =
        (b :: s).take (cs.charlen (b :: (s ++ [quote]))) :=
      List.take_append_of_le_length hlt
    have hchar := cs.charlen_append _ ((b :: s).drop (cs.charlen (b :: (s ++ [quote])))) hopen
    rw [htake, List.take_append_drop, h] at hchar
    exact hopen hchar.symm
  rw [hlen, List.take_length, ← List.cons_append, List.dropLast_concat] at hlast
  exact ⟨by rw [hlen, List.take_length], fun hs => hlast (List.mem_cons_of_mem b hs)⟩

/-- **What is read of a doubled name.** -/
theorem Quote.read_double_iff {rest : List UInt8} (hrest : rest.head? ≠ some quote)
    (v : List UInt8) : read cs quote (double cs quote v ++ quote :: rest) = some (v, rest) ↔
      0 ∉ v ∧ open_end cs quote v = false := by
  induction v using double.induct cs with
  | case1 =>
    rw [double_nil, List.nil_append, read, if_pos (hquote.charlen_cons rest),
      if_neg hquote.ne_zero, if_pos rfl, if_neg hrest, open_end]
    simp
  | case2 b s h ih =>
    rw [double_single cs quote h, open_end_single cs quote h]
    by_cases hb : b = quote
    · -- two quotes are read as one
      subst hb
      have hne : (0 : UInt8) ≠ b := fun heq => hquote.ne_zero heq.symm
      rw [if_pos rfl, List.append_assoc, List.cons_append, List.singleton_append,
        read_two_quotes cs b hquote.charlen_cons hquote.ne_zero, hquote.charlen_cons]
      refine (map_put_iff (w := [b])).trans (ih.trans ?_)
      simp [hne]
    · rw [if_neg hb, List.singleton_append, List.cons_append]
      by_cases hopen : cs.charlen (b :: (s ++ [quote])) = 0
      · have hchar := hquote.charlen_double hb hopen rest
        by_cases h0 : b = 0
        · rw [read, if_pos hchar, if_pos h0]
          simp [h0]
        · rw [read_byte cs quote hchar h0 hb]
          refine (map_put_iff (w := [b])).trans (ih.trans ?_)
          have hne : (0 : UInt8) ≠ b := fun heq => h0 heq.symm
          simp [hopen, hne]
      · -- the quote behind the name is taken for the end of a character
        obtain ⟨htake, hmem⟩ := hquote.open_char h hopen
        have htext : b :: (double cs quote s ++ quote :: rest) = (b :: (s ++ [quote])).take
            (cs.charlen (b :: (s ++ [quote]))) ++ rest := by
          rw [double_of_not_mem hmem, htake, List.cons_append, List.append_assoc,
            List.singleton_append]
        rw [htext, read_char cs quote hopen, htake]
        constructor
        · intro hread
          exfalso
          obtain ⟨r, -, hr⟩ := Option.map_eq_some_iff.mp hread
          have hval := congrArg List.length (congrArg Prod.fst hr)
          simp only [List.length_append, List.length_cons, List.length_nil] at hval
          omega
        · rintro ⟨-, hend⟩
          simp [hopen] at hend
  | case3 b s h ih =>
    rw [double_char cs quote h, open_end_char cs quote h, List.append_assoc, read_char cs quote h]
    have hzero := cs.char_ne_zero (b :: s)
    have hsplit := List.take_append_drop (cs.charlen (b :: s)) (b :: s)
    have hread := (@map_put_iff _ ((b :: s).take (cs.charlen (b :: s)))
      ((b :: s).drop (cs.charlen (b :: s))) rest).trans ih
    rw [hsplit] at hread
    refine hread.trans (and_congr_left' (not_congr ?_))
    constructor
    · exact List.mem_of_mem_drop
    · intro hmem
      rw [← hsplit] at hmem
      exact (List.mem_append.mp hmem).resolve_left hzero

end quote

/-- Where no character has the quote in it, no name ends open. -/
theorem open_end_eq_false (h : ∀ s : List UInt8, quote ∉ s.take (cs.charlen s))
    (hquote : Quote cs quote) (s : List UInt8) : open_end cs quote s = false := by
  induction s using open_end.induct cs with
  | case1 => rw [open_end]
  | case2 b s hchar ih =>
    rw [open_end_single cs quote hchar, ih, Bool.or_false]
    by_contra hopen
    have hopen' : cs.charlen (b :: (s ++ [quote])) ≠ 0 := by simpa using hopen
    obtain ⟨htake, -⟩ := hquote.open_char hchar hopen'
    refine h (b :: (s ++ [quote])) ?_
    rw [htake]
    exact List.mem_cons_of_mem b (List.mem_append_right s List.mem_cons_self)
  | case3 b s hchar ih =>
    rw [open_end_char cs quote hchar, ih]

end QuotedName
