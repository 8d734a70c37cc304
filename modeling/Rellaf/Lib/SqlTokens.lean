/-
The text of a statement as a server takes it apart: string literals in single quotes, and
the bytes outside of them.

`scan` cuts the text. Two literals of `scan` with nothing between them are one for the
server, with a quote where they meet, since two quotes in a row stand for one inside of a
literal; `join` makes them one. The other kinds of quotes and the three kinds of comments
are not taken apart: where one stands outside of a literal there are no tokens.

A text is cut the same way in front of any other when it does not end in what may be the
beginning of a comment (`Closed`).
-/
import Mathlib.Data.List.DropRight
import Rellaf.Lib.SqlLiteral

set_option autoImplicit false

namespace SqlLiteral

inductive Token where
  | byte (b : UInt8)
  | string (v : List UInt8)
  deriving DecidableEq, Repr

variable (cs : Charset)

/-- What `read` leaves begins behind a quote. -/
theorem read_eq {s v rest : List UInt8} (h : read cs s = some (v, rest)) :
    ∃ body, s = body ++ 39 :: rest := by
  induction s using read.induct cs generalizing v rest with
  | case1 => simp [read] at h
  | case2 s hc ih =>
    rw [read, if_pos hc, if_pos rfl] at h
    obtain ⟨e, he, h⟩ := Option.bind_eq_some_iff.mp h
    obtain ⟨⟨v', rest'⟩, hread, hr⟩ := Option.map_eq_some_iff.mp h
    obtain ⟨body, hbody⟩ := ih hread
    obtain ⟨-, rfl⟩ := Prod.mk.inj hr
    obtain ⟨t, rfl⟩ := List.head?_eq_some_iff.mp he
    rw [List.tail_cons] at hbody
    exact ⟨92 :: e :: body, by rw [hbody]; rfl⟩
  | case3 s hc hb =>
    rw [read, if_pos hc, if_neg hb, if_pos rfl] at h
    obtain ⟨-, rfl⟩ := Prod.mk.inj (Option.some.inj h)
    exact ⟨[], rfl⟩
  | case4 b s hc hb hq ih =>
    rw [read, if_pos hc, if_neg hb, if_neg hq] at h
    obtain ⟨⟨v', rest'⟩, hread, hr⟩ := Option.map_eq_some_iff.mp h
    obtain ⟨body, hbody⟩ := ih hread
    obtain ⟨-, rfl⟩ := Prod.mk.inj hr
    exact ⟨b :: body, by rw [hbody]; rfl⟩
  | case5 b s hc ih =>
    rw [read, if_neg hc] at h
    obtain ⟨⟨v', rest'⟩, hread, hr⟩ := Option.map_eq_some_iff.mp h
    obtain ⟨body, hbody⟩ := ih hread
    obtain ⟨-, rfl⟩ := Prod.mk.inj hr
    refine ⟨(b :: s).take (cs.charlen (b :: s)) ++ body, ?_⟩
    rw [List.append_assoc, ← hbody, List.take_append_drop]

theorem read_length_lt {s v rest : List UInt8} (h : read cs s = some (v, rest)) :
    rest.length < s.length := by
  obtain ⟨body, rfl⟩ := read_eq cs h
  rw [List.length_append, List.length_cons]
  omega

/-! ## The cut -/

/-- A quote that is none of a string literal, or the `#` of a comment. -/
def other_quote (b : UInt8) : Bool := b = 34 || b = 96 || b = 35

/-- The second dash of a comment, which has a space, a control character or the end of the
text behind it. -/
def dash : List UInt8 → Bool
  | [] => false
  | [b] => b = 45
  | b :: c :: _ => b = 45 && (c ≤ 32 || c = 127)

/-- A comment begins with `b`: two dashes, or a slash and an asterisk. -/
def comment (b : UInt8) (s : List UInt8) : Bool :=
  b = 45 && dash s || b = 47 && s.head? = some 42

/-- The literals and the bytes between them, `none` where a literal is not closed, another
kind of quote is met or a comment. -/
def scan : List UInt8 → Option (List Token)
  | [] => some []
  | b :: s =>
    if cs.charlen (b :: s) = 0 then
      if b = 39 then
        match _h : read cs s with
        | none => none
        | some r => (scan r.2).map (.string r.1 :: ·)
      else if other_quote b || comment b s then none
      else (scan s).map (.byte b :: ·)
    else
      (scan ((b :: s).drop (cs.charlen (b :: s)))).map
        (((b :: s).take (cs.charlen (b :: s))).map .byte ++ ·)
termination_by s => s.length
decreasing_by
  · exact (read_length_lt cs _h).trans (Nat.lt_succ_self _)
  · exact Nat.lt_succ_self _
  · simp only [List.length_drop, List.length_cons]
    omega

@[simp] theorem scan_nil : scan cs [] = some [] := by
  rw [scan]

/-- From a quote on, `scan` reads the literal and goes on behind it. -/
theorem scan_quote (s : List UInt8) :
    scan cs (39 :: s) = (read cs s).bind fun r => (scan cs r.2).map (.string r.1 :: ·) := by
  rw [scan, if_pos (charlen_eq_zero cs (lead_eq_false cs (by decide)) s), if_pos rfl]
  split
  · rename_i hread
    rw [hread]
    rfl
  · rename_i r hread
    rw [hread]
    rfl

theorem scan_byte {b : UInt8} {s : List UInt8} (hl : cs.lead b = false) (hq : b ≠ 39)
    (ho : (other_quote b || comment b s) = false) :
    scan cs (b :: s) = (scan cs s).map (.byte b :: ·) := by
  rw [scan, if_pos (charlen_eq_zero cs hl s), if_neg hq, ho]
  rfl

theorem scan_other {b : UInt8} {s : List UInt8} (hl : cs.lead b = false) (hq : b ≠ 39)
    (ho : (other_quote b || comment b s) = true) : scan cs (b :: s) = none := by
  rw [scan, if_pos (charlen_eq_zero cs hl s), if_neg hq, ho]
  rfl

/-! ## The end of a text -/

/-- The text does not end in a dash or a slash, with which a comment could begin. -/
def Closed (s : List UInt8) : Prop := s.getLast? ≠ some 45 ∧ s.getLast? ≠ some 47

instance (s : List UInt8) : Decidable (Closed s) := inferInstanceAs (Decidable (_ ∧ _))

/-- Nor does it when commas are taken from its end. -/
def Firm (s : List UInt8) : Prop := Closed (s.rdropWhile (· = 44))

instance (s : List UInt8) : Decidable (Firm s) := inferInstanceAs (Decidable (Closed _))

theorem Closed.of_suffix {s t : List UInt8} (h : Closed s) (ht : t <:+ s) : Closed t := by
  obtain ⟨u, rfl⟩ := ht
  have hlast : ∀ c, t.getLast? = some c → (u ++ t).getLast? = some c := by
    intro c hc
    rw [List.getLast?_append, hc, Option.some_or]
  exact ⟨fun hdash => h.1 (hlast 45 hdash), fun hslash => h.2 (hlast 47 hslash)⟩

theorem Firm.closed {s : List UInt8} (h : Firm s) : Closed s := by
  rcases List.eq_nil_or_concat s with rfl | ⟨s, c, rfl⟩
  · exact h
  · rw [List.concat_eq_append] at h ⊢
    by_cases hc : c = 44
    · subst hc
      rw [Closed, List.getLast?_concat]
      decide
    · rwa [Firm, List.rdropWhile_concat_neg _ _ _ (by simpa using hc)] at h

theorem firm_concat {s : List UInt8} {c : UInt8} (hcomma : c ≠ 44) (hdash : c ≠ 45)
    (hslash : c ≠ 47) : Firm (s ++ [c]) := by
  rw [Firm, List.rdropWhile_concat_neg _ _ _ (by simpa using hcomma), Closed,
    List.getLast?_concat]
  exact ⟨fun h => hdash (Option.some.inj h), fun h => hslash (Option.some.inj h)⟩

/-- A comma may be taken from the end. -/
theorem Firm.of_concat_comma {s : List UInt8} (h : Firm (s ++ [44])) : Firm s := by
  rwa [Firm, List.rdropWhile_concat_pos _ _ _ (by simp)] at h

/-- Whether a comment begins in a text that is closed does not depend on what follows. -/
theorem comment_append {b : UInt8} {s : List UInt8} (h : Closed (b :: s)) (t : List UInt8) :
    comment b (s ++ t) = comment b s := by
  match s with
  | [] =>
    have hdash : b ≠ 45 := fun hb => h.1 (congrArg some hb)
    have hslash : b ≠ 47 := fun hb => h.2 (congrArg some hb)
    simp [comment, hdash, hslash]
  | [c] =>
    have hdash : c ≠ 45 := fun hc => h.1 (congrArg some hc)
    have hnot : ∀ u, dash (c :: u) = false := by
      intro u
      cases u <;> simp [dash, hdash]
    rw [List.singleton_append, comment, comment, hnot, hnot]
    rfl
  | c :: d :: s => rfl

/-- Bytes of which none begins a character. -/
def Single (s : List UInt8) : Prop := ∀ b ∈ s, cs.lead b = false

/-- Over single bytes `read` does not look behind the quote at which it stops. -/
theorem read_local {s v rest : List UInt8} (hs : Single cs s) (h : read cs s = some (v, rest)) :
    ∃ body, s = body ++ 39 :: rest ∧ ∀ t, read cs (body ++ 39 :: t) = some (v, t) := by
  induction s using read.induct cs generalizing v rest with
  | case1 => simp [read] at h
  | case2 s hc ih =>
    rw [read, if_pos hc, if_pos rfl] at h
    obtain ⟨e, he, h⟩ := Option.bind_eq_some_iff.mp h
    obtain ⟨⟨v', rest'⟩, hread, hr⟩ := Option.map_eq_some_iff.mp h
    obtain ⟨t, rfl⟩ := List.head?_eq_some_iff.mp he
    rw [List.tail_cons] at hread ih
    have ht : Single cs t := fun b hb => hs b (List.mem_cons_of_mem _ (List.mem_cons_of_mem _ hb))
    obtain ⟨body, rfl, hlocal⟩ := ih ht hread
    obtain ⟨rfl, rfl⟩ := Prod.mk.inj hr
    refine ⟨92 :: e :: body, rfl, fun t => ?_⟩
    rw [List.cons_append, List.cons_append, read_backslash, hlocal]
    rfl
  | case3 s hc hb =>
    rw [read, if_pos hc, if_neg hb, if_pos rfl] at h
    obtain ⟨rfl, rfl⟩ := Prod.mk.inj (Option.some.inj h)
    exact ⟨[], rfl, fun t => read_quote cs t⟩
  | case4 b s hc hb hq ih =>
    rw [read, if_pos hc, if_neg hb, if_neg hq] at h
    obtain ⟨⟨v', rest'⟩, hread, hr⟩ := Option.map_eq_some_iff.mp h
    obtain ⟨hl, hs⟩ := List.forall_mem_cons.mp hs
    obtain ⟨body, rfl, hlocal⟩ := ih hs hread
    obtain ⟨rfl, rfl⟩ := Prod.mk.inj hr
    refine ⟨b :: body, rfl, fun t => ?_⟩
    rw [List.cons_append, read_raw cs hl hb hq, hlocal]
    rfl
  | case5 b s hc ih =>
    exact absurd (charlen_eq_zero cs (hs b List.mem_cons_self) s) hc

/-- A closed text of single bytes that closes its literals is cut the same way in front of
any other. -/
theorem scan_append {s : List UInt8} {toks : List Token} (hs : Single cs s) (hclosed : Closed s)
    (h : scan cs s = some toks) (t : List UInt8) :
    scan cs (s ++ t) = (scan cs t).map (toks ++ ·) := by
  induction hn : s.length using Nat.strong_induction_on generalizing s toks with
  | _ n ih =>
  cases s with
  | nil =>
    rw [scan_nil] at h
    obtain rfl := Option.some.inj h
    exact (Option.map_id' ..).symm
  | cons b s =>
    obtain ⟨hl, htail⟩ := List.forall_mem_cons.mp hs
    by_cases hq : b = 39
    · subst hq
      rw [scan_quote] at h
      obtain ⟨⟨v, rest⟩, hread, h⟩ := Option.bind_eq_some_iff.mp h
      obtain ⟨toks', hrest, rfl⟩ := Option.map_eq_some_iff.mp h
      obtain ⟨body, rfl, hlocal⟩ := read_local cs htail hread
      have hsingle : Single cs rest := fun b hb =>
        htail b (List.mem_append_right _ (List.mem_cons_of_mem _ hb))
      have hlt : rest.length < n := by
        rw [← hn, List.length_cons, List.length_append, List.length_cons]
        omega
      have hsuffix : rest <:+ 39 :: (body ++ 39 :: rest) :=
        ⟨39 :: (body ++ [39]), by rw [List.cons_append, List.append_assoc]; rfl⟩
      rw [List.cons_append, scan_quote, List.append_assoc, List.cons_append, hlocal,
        Option.bind_some, ih _ hlt hsingle (hclosed.of_suffix hsuffix) hrest rfl, Option.map_map]
      rfl
    · cases ho : (other_quote b || comment b s) with
      | true =>
        rw [scan_other cs hl hq ho] at h
        cases h
      | false =>
        rw [scan_byte cs hl hq ho] at h
        obtain ⟨toks', hrest, rfl⟩ := Option.map_eq_some_iff.mp h
        have hlt : s.length < n := by
          rw [← hn]
          exact Nat.lt_succ_self _
        have ho' : (other_quote b || comment b (s ++ t)) = false := by
          rw [comment_append hclosed, ho]
        rw [List.cons_append, scan_byte cs hl hq ho',
          ih _ hlt htail (hclosed.of_suffix (List.suffix_cons b s)) hrest rfl, Option.map_map]
        rfl

/-- The byte at the end of the text is a token, and the bytes before it are the others, if
they are closed; or it is a quote, and closes a literal. -/
theorem scan_concat {s : List UInt8} {toks : List Token} {c : UInt8} (hs : Single cs (s ++ [c]))
    (h : scan cs (s ++ [c]) = some toks) :
    (c ≠ 39 ∧ ∃ toks', (Closed s → scan cs s = some toks') ∧ toks = toks' ++ [.byte c]) ∨
      c = 39 ∧ ∃ toks' v, toks = toks' ++ [.string v] := by
  induction hn : s.length using Nat.strong_induction_on generalizing s toks with
  | _ n ih =>
  cases s with
  | nil =>
    have hl : cs.lead c = false := hs c List.mem_cons_self
    rw [List.nil_append] at h
    by_cases hq : c = 39
    · subst hq
      rw [scan_quote, read] at h
      cases h
    · cases ho : (other_quote c || comment c []) with
      | true =>
        rw [scan_other cs hl hq ho] at h
        cases h
      | false =>
        rw [scan_byte cs hl hq ho, scan_nil] at h
        exact .inl ⟨hq, [], fun _ => scan_nil cs, (Option.some.inj h).symm⟩
  | cons b s =>
    rw [List.cons_append] at hs h
    obtain ⟨hl, htail⟩ := List.forall_mem_cons.mp hs
    by_cases hb : b = 39
    · subst hb
      rw [scan_quote] at h
      obtain ⟨⟨v, rest⟩, hread, h⟩ := Option.bind_eq_some_iff.mp h
      obtain ⟨toks', hrest, rfl⟩ := Option.map_eq_some_iff.mp h
      obtain ⟨body, heq, hlocal⟩ := read_local cs htail hread
      rcases List.eq_nil_or_concat rest with rfl | ⟨rest, c', rfl⟩
      · -- the literal is the last token
        have hlast := List.singleton_inj.mp (List.append_inj' heq rfl).2
        rw [scan_nil] at hrest
        obtain rfl := Option.some.inj hrest
        exact .inr ⟨hlast, [], v, rfl⟩
      · rw [List.concat_eq_append, ← List.cons_append, ← List.append_assoc] at heq
        obtain ⟨rfl, hc⟩ := List.append_inj' heq rfl
        obtain rfl : c = c' := List.singleton_inj.mp hc
        rw [List.concat_eq_append] at hrest
        have hsingle : Single cs (rest ++ [c]) := fun b hb =>
          htail b (by simp only [List.mem_append, List.mem_cons] at hb ⊢; tauto)
        have hlt : rest.length < n := by
          rw [← hn, List.length_cons, List.length_append, List.length_cons]
          omega
        rcases ih _ hlt hsingle hrest rfl with ⟨hq, toks, hscan, rfl⟩ | ⟨hq, toks, w, rfl⟩
        · refine .inl ⟨hq, .string v :: toks, fun hclosed => ?_, rfl⟩
          have hsuffix : rest <:+ 39 :: (body ++ 39 :: rest) :=
            ⟨39 :: (body ++ [39]), by rw [List.cons_append, List.append_assoc]; rfl⟩
          rw [scan_quote, hlocal, Option.bind_some, hscan (hclosed.of_suffix hsuffix)]
          rfl
        · exact .inr ⟨hq, .string v :: toks, w, rfl⟩
    · cases ho : (other_quote b || comment b (s ++ [c])) with
      | true =>
        rw [scan_other cs hl hb ho] at h
        cases h
      | false =>
        rw [scan_byte cs hl hb ho] at h
        obtain ⟨toks', hrest, rfl⟩ := Option.map_eq_some_iff.mp h
        have hlt : s.length < n := by
          rw [← hn]
          exact Nat.lt_succ_self _
        rcases ih _ hlt htail hrest rfl with ⟨hq, toks, hscan, rfl⟩ | ⟨hq, toks, w, rfl⟩
        · refine .inl ⟨hq, .byte b :: toks, fun hclosed => ?_, rfl⟩
          rw [comment_append hclosed] at ho
          rw [scan_byte cs hl hb ho, hscan (hclosed.of_suffix (List.suffix_cons b s))]
          rfl
        · exact .inr ⟨hq, .byte b :: toks, w, rfl⟩

/-- Bytes that are no quotes, and no comments. -/
def plain : List UInt8 → Bool
  | [] => true
  | b :: s => b ≠ 39 && !(other_quote b || comment b s) && plain s

/-- They are tokens. -/
theorem scan_plain {s : List UInt8} (hs : Single cs s) (hplain : plain s = true) :
    scan cs s = some (s.map .byte) := by
  induction s with
  | nil => exact scan_nil cs
  | cons b s ih =>
    obtain ⟨hl, hs⟩ := List.forall_mem_cons.mp hs
    rw [plain, Bool.and_eq_true, Bool.and_eq_true, decide_eq_true_eq, Bool.not_eq_true'] at hplain
    obtain ⟨⟨hb, ho⟩, hplain⟩ := hplain
    rw [scan_byte cs hl hb ho, ih hs hplain]
    rfl

/-- What an escaper writes between two quotes is one token. -/
theorem scan_escape (L : Letters) (v t : List UInt8) :
    scan cs (39 :: escape cs L v ++ 39 :: t) = (scan cs t).map (.string v :: ·) := by
  rw [List.cons_append, scan_quote, read_escape]
  rfl

/-! ## Literals that meet -/

/-- Literals with nothing between them are one, with a quote where they meet. -/
def join : List Token → List Token
  | [] => []
  | .byte b :: toks => .byte b :: join toks
  | .string v :: toks =>
    match join toks with
    | .string w :: toks => .string (v ++ 39 :: w) :: toks
    | toks => .string v :: toks

/-- The tokens of a statement. -/
def tokens (s : List UInt8) : Option (List Token) := (scan cs s).map join

theorem join_byte (b : UInt8) (toks : List Token) :
    join (.byte b :: toks) = .byte b :: join toks := rfl

/-- `join` begins with a literal where the tokens do. -/
theorem join_head {toks : List Token} {w : List UInt8} (h : (join toks).head? = some (.string w)) :
    ∃ v, toks.head? = some (.string v) := by
  cases toks with
  | nil => cases h
  | cons tok toks =>
    cases tok with
    | byte b => cases h
    | string v => exact ⟨v, rfl⟩

/-- A literal in front of what is joined already. -/
def put (v : List UInt8) : List Token → List Token
  | .string w :: toks => .string (v ++ 39 :: w) :: toks
  | toks => .string v :: toks

theorem join_string (v : List UInt8) (toks : List Token) :
    join (.string v :: toks) = put v (join toks) := by
  rw [join]
  split
  · rename_i heq
    rw [heq]
    rfl
  · rename_i hne
    cases hjoin : join toks with
    | nil => rfl
    | cons tok toks =>
      cases tok with
      | byte b => rfl
      | string w => exact absurd hjoin (hne w toks)

theorem put_of_head {v : List UInt8} {toks : List Token}
    (h : ∀ w, toks.head? ≠ some (.string w)) : put v toks = .string v :: toks := by
  cases toks with
  | nil => rfl
  | cons tok toks =>
    cases tok with
    | byte b => rfl
    | string w => exact absurd rfl (h w)

theorem put_append {v : List UInt8} {toks : List Token} (h : toks ≠ []) (toks' : List Token) :
    put v (toks ++ toks') = put v toks ++ toks' := by
  cases toks with
  | nil => exact absurd rfl h
  | cons tok toks => cases tok <;> rfl

theorem put_ne_nil (v : List UInt8) (toks : List Token) : put v toks ≠ [] := by
  cases toks with
  | nil => exact List.cons_ne_nil _ _
  | cons tok toks => cases tok <;> exact List.cons_ne_nil _ _

theorem join_ne_nil {toks : List Token} (h : toks ≠ []) : join toks ≠ [] := by
  cases toks with
  | nil => exact absurd rfl h
  | cons tok toks =>
    cases tok with
    | byte b => exact List.cons_ne_nil _ _
    | string v =>
      rw [join_string]
      exact put_ne_nil v _

/-- Tokens of which no two literals meet. -/
def Apart (toks toks' : List Token) : Prop :=
  ∀ v w, toks.getLast? = some (.string v) → toks'.head? ≠ some (.string w)

theorem join_append {toks toks' : List Token} (h : Apart toks toks') :
    join (toks ++ toks') = join toks ++ join toks' := by
  induction toks with
  | nil => rfl
  | cons tok toks ih =>
    rcases List.eq_nil_or_concat toks with rfl | ⟨init, last, hlast⟩
    · cases tok with
      | byte b => rfl
      | string v =>
        have hhead : ∀ w, (join toks').head? ≠ some (.string w) := fun w hw => by
          obtain ⟨u, hu⟩ := join_head hw
          exact h v u rfl hu
        rw [List.singleton_append, join_string, put_of_head hhead]
        rfl
    · have hne : toks ≠ [] := by
        rw [hlast, List.concat_eq_append]
        exact List.append_ne_nil_of_right_ne_nil _ (List.cons_ne_nil _ _)
      have htail : Apart toks toks' := fun v w hv =>
        h v w ((List.getLast?_cons_of_ne_nil hne).trans hv)
      cases tok with
      | byte b => rw [List.cons_append, join_byte, join_byte, ih htail, List.cons_append]
      | string v =>
        rw [List.cons_append, join_string, join_string, ih htail, put_append (join_ne_nil hne)]

/-- A byte at the end stays at the end. -/
theorem join_concat_byte (toks : List Token) (b : UInt8) :
    join (toks ++ [.byte b]) = join toks ++ [.byte b] :=
  join_append (by rintro v w _ ⟨⟩)

/-- And so does a literal. -/
theorem join_concat_string (toks : List Token) (v : List UInt8) :
    ∃ toks' w, join (toks ++ [.string v]) = toks' ++ [.string w] := by
  induction toks with
  | nil => exact ⟨[], v, rfl⟩
  | cons tok toks ih =>
    obtain ⟨toks', w, ih⟩ := ih
    cases tok with
    | byte b =>
      refine ⟨.byte b :: toks', w, ?_⟩
      rw [List.cons_append, join_byte, ih, List.cons_append]
    | string u =>
      rw [List.cons_append, join_string, ih]
      cases toks' with
      | nil => exact ⟨[], u ++ 39 :: w, rfl⟩
      | cons tok' toks' =>
        refine ⟨put u (tok' :: toks'), w, ?_⟩
        exact put_append (List.cons_ne_nil _ _) _

/-! ## Texts put together -/

/-- A text that is put together from firm text of single bytes, which closes the literals
it opens, and from values with quotes around them; with what `scan` makes of it. -/
inductive Pieces (L : Letters) : List UInt8 → List Token → Prop where
  | nil : Pieces L [] []
  | text {s : List UInt8} {toks : List Token} (h : Pieces L s toks) {t : List UInt8}
      {toks' : List Token} (ht : Single cs t) (hfirm : Firm t) (hscan : scan cs t = some toks') :
      Pieces L (s ++ t) (toks ++ toks')
  | value {s : List UInt8} {toks : List Token} (h : Pieces L s toks) (v : List UInt8) :
      Pieces L (s ++ (39 :: escape cs L v ++ [39])) (toks ++ [.string v])

variable {cs} {L : Letters}

theorem Pieces.scan_append {s : List UInt8} {toks : List Token} (h : Pieces cs L s toks)
    (t : List UInt8) : scan cs (s ++ t) = (scan cs t).map (toks ++ ·) := by
  induction h generalizing t with
  | nil => exact (Option.map_id' ..).symm
  | @text s toks _ t' toks' ht hfirm hscan ih =>
    rw [List.append_assoc, ih, SqlLiteral.scan_append cs ht hfirm.closed hscan, Option.map_map]
    simp only [Function.comp_def, List.append_assoc]
  | @value s toks _ v ih =>
    have hval := scan_escape cs L v t
    rw [List.append_assoc, ih]
    simp only [List.cons_append, List.append_assoc, List.nil_append] at hval ⊢
    rw [hval, Option.map_map]
    rfl

theorem Pieces.scan {s : List UInt8} {toks : List Token} (h : Pieces cs L s toks) :
    scan cs s = some toks := by
  have hnil := h.scan_append []
  rwa [List.append_nil, scan_nil, Option.map_some, List.append_nil] at hnil

/-- What stands at the end: a byte that is a token, which can be taken away if it is a comma,
or a quote that closes a literal. -/
theorem Pieces.concat {s : List UInt8} {toks : List Token} {c : UInt8}
    (h : Pieces cs L (s ++ [c]) toks) :
    (c ≠ 39 ∧ ∃ toks', (c = 44 → Pieces cs L s toks') ∧ toks = toks' ++ [.byte c]) ∨
      c = 39 ∧ ∃ toks' v, toks = toks' ++ [.string v] := by
  generalize hsql : s ++ [c] = sql at h
  induction h generalizing s with
  | nil => exact absurd hsql (List.append_ne_nil_of_right_ne_nil _ (List.cons_ne_nil _ _))
  | @text s' toks hpieces t toks' ht hfirm hscan ih =>
    rcases List.eq_nil_or_concat t with rfl | ⟨t, c', rfl⟩
    · rw [scan_nil] at hscan
      obtain rfl := Option.some.inj hscan
      rw [List.append_nil] at hsql ⊢
      exact ih hsql
    · rw [List.concat_eq_append, ← List.append_assoc] at hsql
      obtain ⟨rfl, hc⟩ := List.append_inj' hsql rfl
      obtain rfl : c = c' := List.singleton_inj.mp hc
      rw [List.concat_eq_append] at ht hfirm hscan
      rcases scan_concat cs ht hscan with ⟨hq, toks', hscan', rfl⟩ | ⟨hq, toks', v, rfl⟩
      · refine .inl ⟨hq, toks ++ toks', fun hcomma => ?_, (List.append_assoc ..).symm⟩
        subst hcomma
        have hsingle : Single cs t := fun b hb => ht b (List.mem_append_left _ hb)
        have hfirm' := hfirm.of_concat_comma
        exact hpieces.text hsingle hfirm' (hscan' hfirm'.closed)
      · exact .inr ⟨hq, toks ++ toks', v, (List.append_assoc ..).symm⟩
  | @value s' toks hpieces v _ =>
    rw [← List.append_assoc] at hsql
    obtain ⟨-, hc⟩ := List.append_inj' hsql rfl
    exact .inr ⟨List.singleton_inj.mp hc, toks, v, rfl⟩

end SqlLiteral
