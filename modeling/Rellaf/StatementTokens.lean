/-
A whole statement as the server takes it apart. Every value that `prepare_statement` puts
into quotes is one token of its own, the text of the pattern has the tokens it has alone,
and nothing of a value is anything else.

For this the pattern has to close the literals it opens, and no literal of its own and no
placeholder may stand right next to another, since two literals that meet are one for the
server. It has no comments and no other quotes, and no part of it ends in a dash or a slash,
which could begin a comment with what follows. Where a list without values takes a comma
from the end of the statement, a comma outside of the literals is gone, and nothing else.
-/
import Rellaf.Lib.SqlTokens
import Rellaf.SqlStatement

set_option autoImplicit false

open Rellaf.Cpp Rellaf.Models Rellaf.MysqlEscape Rellaf.SqlPattern

open SqlLiteral (Token Pieces)

namespace Rellaf.Sql

/-! ## The tokens of a value -/

/-- What a value is for the server. -/
def StubValue.tokens (cs : Charset) : StubValue → List Token
  | .LITERAL value => (SqlLiteral.tokens cs.reader value).getD []
  | .FIELD val true _ => [.string val]
  | .FIELD val false _ => val.map .byte
  | .LIST vals => [Token.byte 44].intercalate (vals.map fun val => [.string val])

/-- The tokens of the statement behind a value. -/
def write_tokens (cs : Charset) (toks : List Token) : StubValue → List Token
  | .LIST [] => if toks.getLast? = some (.byte 44) then toks.dropLast else toks
  | value => toks ++ value.tokens cs

/-- The tokens of a statement of the values. -/
def statement_tokens (cs : Charset) (values : List StubValue) : List Token :=
  values.foldl (write_tokens cs) []

/-- A value without its contents, where it has quotes. -/
def StubValue.blank : StubValue → StubValue
  | .FIELD _ true need_escape => .FIELD [] true need_escape
  | .LIST vals => .LIST (vals.map fun _ => [])
  | value => value

def blank : Token → Token
  | .string _ => .string []
  | tok => tok

/-! ## Patterns whose parts keep apart -/

/-- The stub begins with a quote, or may. -/
def Stub.begins_quoted (stub : Stub) : Bool := stub.type ≠ .LITERAL || stub.value.head? = some 39

def Stub.ends_quoted (stub : Stub) : Bool := stub.type ≠ .LITERAL || stub.value.getLast? = some 39

/-- The text of the pattern is 7-bit, has no comments and no quotes but the single ones,
which it closes, and no part of it ends in what may begin a comment; and no two literals
meet. -/
structure Spaced (cs : Charset) (stubs : List Stub) : Prop where
  text : ∀ stub ∈ stubs, stub.type = .LITERAL →
    stub.value ≠ [] ∧ (∀ b ∈ stub.value, b < 128) ∧ SqlLiteral.Firm stub.value ∧
      (SqlLiteral.scan cs.reader stub.value).isSome
  apart : stubs.IsChain fun a b => (Stub.ends_quoted a && Stub.begins_quoted b) = false

/-- A text that is put into the statement without quotes is 7-bit, and has no quotes and no
beginning of a comment. -/
structure Bare (val : Str) : Prop where
  ascii : ∀ b ∈ val, b < 128
  plain : SqlLiteral.plain val = true
  firm : SqlLiteral.Firm val

instance (val : Str) : Decidable (Bare val) :=
  have : Decidable (∀ b ∈ val, b < 128) := List.decidableBAll _ val
  decidable_of_iff ((∀ b ∈ val, b < 128) ∧ SqlLiteral.plain val = true ∧ SqlLiteral.Firm val)
    ⟨fun h => ⟨h.1, h.2.1, h.2.2⟩, fun h => ⟨h.ascii, h.plain, h.firm⟩⟩

/-- A literal at the end of the tokens has no other right behind it. -/
def Meets (toks : List Token) (stubs : List Stub) : Prop :=
  ∀ v, toks.getLast? = some (.string v) → ∀ stub ∈ stubs.head?, Stub.begins_quoted stub = false

theorem single_of_lt (cs : Charset) {s : Str} (h : ∀ b ∈ s, b < 128) :
    SqlLiteral.Single cs.reader s :=
  fun b hb => SqlLiteral.lead_eq_false cs.reader (h b hb)

theorem Bare.scan (cs : Charset) {val : Str} (h : Bare val) :
    SqlLiteral.Single cs.reader val ∧ SqlLiteral.scan cs.reader val = some (val.map .byte) := by
  have hsingle : SqlLiteral.Single cs.reader val := single_of_lt cs h.ascii
  exact ⟨hsingle, SqlLiteral.scan_plain cs.reader hsingle h.plain⟩

/-! ## What a stub resolves to -/

/-- Where the text of a plain has no quotes it is not escaped either. -/
theorem get_plain_val_str_flags {model : Model} {val : Str} {need_quote need_escape : Bool}
    (h : get_plain_val_str model = .ok (some (val, need_quote, need_escape))) :
    need_quote = need_escape := by
  obtain ⟨type, -, h⟩ := run_bind_eq_ok.mp h
  split at h
  all_goals first
    | (obtain ⟨text, -, h⟩ := run_bind_eq_ok.mp h
       have hflags := congrArg Prod.snd (Option.some.inj (Except.ok.inj h))
       cases hflags
       rfl)
    | cases h

theorem get_plain_val_loop_flags {travel : Model} {sections : List Str} {val : Str}
    {need_quote need_escape : Bool}
    (h : get_plain_val_loop travel sections = .ok (some (val, need_quote, need_escape))) :
    need_quote = need_escape := by
  induction sections generalizing travel with
  | nil =>
    obtain ⟨plain, -, h⟩ := run_bind_eq_ok.mp h
    cases plain with
    | true => exact get_plain_val_str_flags h
    | false => cases h
  | cons section_ sections ih =>
    obtain ⟨plain, -, h⟩ := run_bind_eq_ok.mp h
    cases plain with
    | true => exact get_plain_val_str_flags h
    | false =>
      obtain ⟨object, -, h⟩ := run_bind_eq_ok.mp h
      cases object with
      | true =>
        obtain ⟨travel', -, h⟩ := run_bind_eq_ok.mp h
        cases travel' with
        | none => cases h
        | some travel' => exact ih h
      | false =>
        obtain ⟨list, -, h⟩ := run_bind_eq_ok.mp h
        cases list with
        | false => exact ih h
        | true =>
          obtain ⟨index, -, h⟩ := run_bind_eq_ok.mp h
          cases index with
          | false => cases h
          | true =>
            obtain ⟨travel', -, h⟩ := run_bind_eq_ok.mp h
            exact ih h

theorem get_plain_val_flags {model : Model} {sections : List Str} {val : Str}
    {need_quote need_escape : Bool}
    (h : get_plain_val model sections = .ok (some (val, need_quote, need_escape))) :
    need_quote = need_escape := by
  rw [get_plain_val.eq_def] at h
  split at h
  · cases h
  · obtain ⟨plain, -, h⟩ := run_bind_eq_ok.mp h
    cases plain with
    | true => exact get_plain_val_str_flags h
    | false =>
      obtain ⟨object, -, h⟩ := run_bind_eq_ok.mp h
      split at h
      · cases h
      · exact get_plain_val_loop_flags h

/-- A literal resolves to itself, the others to values of their kinds. -/
theorem stub_value_kind {env : Env} {models : Std.ExtTreeMap Str Model} {is_multi_arg : Bool}
    {stub : Stub} {value : StubValue}
    (h : stub_value env models is_multi_arg stub = .ok (some value)) :
    stub.type = .LITERAL ∧ value = .LITERAL stub.value ∨
      stub.type ≠ .LITERAL ∧ ((∃ val quoted, value = .FIELD val quoted quoted) ∨
        ∃ vals, value = .LIST vals) := by
  rw [stub_value] at h
  split at h
  · rename_i htype
    exact .inl ⟨htype, (Option.some.inj (Except.ok.inj h)).symm⟩
  · rename_i htype
    refine .inr ⟨htype, ?_⟩
    obtain ⟨found, -, h⟩ := run_bind_eq_ok.mp h
    split at h
    · cases h
    · split at h
      · obtain ⟨plain, hplain, h⟩ := run_bind_eq_ok.mp h
        obtain ⟨⟨val, need_quote, need_escape⟩, rfl, rfl⟩ :=
          Option.map_eq_some_iff.mp (Except.ok.inj h)
        obtain rfl := get_plain_val_flags hplain
        exact .inl ⟨val, need_quote, rfl⟩
      · obtain ⟨vals, -, h⟩ := run_bind_eq_ok.mp h
        obtain ⟨vals, rfl, rfl⟩ := Option.map_eq_some_iff.mp (Except.ok.inj h)
        exact .inr ⟨vals, rfl⟩

/-! ## What one stub writes -/

variable {env : Env} {sqlescape : Option SqlEscape} {cs : Charset}

theorem append_text_quoted (hinst : sqlescape = none ∨ sqlescape = some cs.escaper)
    {val text : Str} (h : append_text env sqlescape cs val true true = .ok (some text)) :
    text = 39 :: SqlLiteral.escape cs.reader letters val ++ [39] := by
  obtain ⟨after, happend⟩ : ∃ after, append_sql env sqlescape cs [] val true true
      = .ok (after, true, text) := (append_sql_eq_iff text).mpr ⟨text, h, rfl⟩
  obtain ⟨-, -, htext⟩ := (append_sql_quoted_iff hinst).mp happend
  rw [htext, cs.text_eq]
  rfl

theorem append_text_raw {val text : Str}
    (h : append_text env sqlescape cs val false false = .ok (some text)) : text = val := by
  rw [append_text, append_sql_raw] at h
  exact (Option.some.inj (Except.ok.inj h)).symm

/-- The tokens behind a stub: the text is put together of pieces still, `toks` being what
`scan` makes of it. -/
def Writes (cs : Charset) (toks : List Token) (value : StubValue) (sql' : Str)
    (toks' : List Token) : Prop :=
  Pieces cs.reader letters sql' toks' ∧
    SqlLiteral.join toks' = write_tokens cs (SqlLiteral.join toks) value

/-- A placeholder does not stand behind a literal. -/
theorem Meets.apart {toks : List Token} {stub : Stub} {stubs : List Stub}
    (h : Meets toks (stub :: stubs)) (hstub : stub.type ≠ .LITERAL) (toks' : List Token) :
    SqlLiteral.Apart toks toks' := by
  intro v w hv _
  have hbegins := h v hv stub rfl
  rw [Stub.begins_quoted, decide_eq_true hstub] at hbegins
  cases hbegins

/-- Nor does anything that begins with one behind a placeholder. -/
theorem Meets.of_chain {stub : Stub} {stubs : List Stub} {toks : List Token}
    (hstub : (∃ v, toks.getLast? = some (.string v)) → Stub.ends_quoted stub = true)
    (hchain : (stub :: stubs).IsChain fun a b =>
      (Stub.ends_quoted a && Stub.begins_quoted b) = false) : Meets toks stubs := by
  intro v hv next hnext
  cases stubs with
  | nil => cases hnext
  | cons next' stubs =>
    obtain rfl : next' = next := Option.some.inj hnext
    have hapart := (List.isChain_cons_cons.mp hchain).1
    rwa [hstub ⟨v, hv⟩, Bool.true_and] at hapart

theorem pieces_list {sql : Str} {toks : List Token} (h : Pieces cs.reader letters sql toks)
    (hinst : sqlescape = none ∨ sqlescape = some cs.escaper) {vals texts : List Str}
    (htexts : List.Forall₂ (fun val text =>
      append_text env sqlescape cs val true true = .ok (some text)) vals texts) :
    Pieces cs.reader letters (sql ++ [44].intercalate texts)
      (toks ++ [Token.byte 44].intercalate (vals.map fun val => [Token.string val])) := by
  induction htexts generalizing sql toks with
  | nil => simpa using h
  | @cons val text vals texts htext htexts ih =>
    have hval := h.value val
    rw [← append_text_quoted hinst htext] at hval
    cases htexts with
    | nil => simpa using hval
    | cons htext' htexts' =>
      have hcomma : Bare [44] := ⟨List.forall_mem_singleton.mpr (by decide), rfl, by decide⟩
      have hscan : SqlLiteral.scan cs.reader [44] = some [.byte 44] := (hcomma.scan cs).2
      have hrest := ih (hval.text (hcomma.scan cs).1 hcomma.firm hscan)
      rw [List.intercalate_cons_cons, List.map_cons, List.map_cons, List.intercalate_cons_cons]
      simpa only [List.append_assoc, List.map_cons] using hrest

theorem list_tokens_cons (val val' : Str) (vals : List Str) :
    [Token.byte 44].intercalate ((val :: val' :: vals).map fun val => [Token.string val]) =
      .string val :: .byte 44 ::
        [Token.byte 44].intercalate ((val' :: vals).map fun val => [Token.string val]) := by
  rw [List.map_cons, List.map_cons, List.intercalate_cons_cons]
  rfl

theorem join_list (vals : List Str) :
    SqlLiteral.join ([Token.byte 44].intercalate (vals.map fun val => [Token.string val])) =
      [Token.byte 44].intercalate (vals.map fun val => [Token.string val]) := by
  induction vals with
  | nil => rfl
  | cons val vals ih =>
    cases vals with
    | nil => simp [SqlLiteral.join]
    | cons val' vals =>
      rw [list_tokens_cons, SqlLiteral.join_string, SqlLiteral.join_byte, ih]
      rfl

theorem write_literal {sql : Str} {toks : List Token} {stub : Stub} {stubs : List Stub}
    (h : Pieces cs.reader letters sql toks) (hmeets : Meets toks (stub :: stubs))
    (hspaced : Spaced cs (stub :: stubs)) (htype : stub.type = .LITERAL) :
    ∃ toks', Writes cs toks (.LITERAL stub.value) (sql ++ stub.value) toks' ∧
      Meets toks' stubs := by
  obtain ⟨hne, hascii, hfirm, hscan⟩ := hspaced.text stub List.mem_cons_self htype
  obtain ⟨new, hnew⟩ := Option.isSome_iff_exists.mp hscan
  have hsingle := single_of_lt cs hascii
  -- where the text does not begin with a quote, its first token is no literal
  have hapart : SqlLiteral.Apart toks new := by
    intro v w hv hw
    have hbegins := hmeets v hv stub rfl
    obtain ⟨b, s, hvalue⟩ := List.exists_cons_of_ne_nil hne
    rw [hvalue] at hnew hsingle
    have hb : b ≠ 39 := by
      rintro rfl
      simp [Stub.begins_quoted, hvalue] at hbegins
    have hl := hsingle b List.mem_cons_self
    cases ho : (SqlLiteral.other_quote b || SqlLiteral.comment b s) with
    | true =>
      rw [SqlLiteral.scan_other _ hl hb ho] at hnew
      cases hnew
    | false =>
      rw [SqlLiteral.scan_byte _ hl hb ho] at hnew
      obtain ⟨rest, -, rfl⟩ := Option.map_eq_some_iff.mp hnew
      cases hw
  obtain ⟨init, c, hvalue⟩ : ∃ init c, stub.value = init ++ [c] :=
    ⟨_, _, (List.dropLast_append_getLast hne).symm⟩
  have hlast := hnew
  rw [hvalue] at hlast hsingle
  have hends := SqlLiteral.scan_concat cs.reader hsingle hlast
  rw [← hvalue] at hsingle
  refine ⟨toks ++ new, ⟨h.text hsingle hfirm hnew, ?_⟩, Meets.of_chain ?_ hspaced.apart⟩
  · rw [SqlLiteral.join_append hapart, write_tokens, StubValue.tokens, SqlLiteral.tokens, hnew]
    · rfl
    · rintro ⟨⟩
  · rintro ⟨v, hv⟩
    rcases hends with ⟨-, init', -, rfl⟩ | ⟨rfl, -⟩
    · rw [← List.append_assoc, List.getLast?_append, List.getLast?_singleton] at hv
      cases hv
    · rw [Stub.ends_quoted, hvalue]
      simp

theorem join_bytes (s : Str) : SqlLiteral.join (s.map Token.byte) = s.map .byte := by
  induction s with
  | nil => rfl
  | cons b s ih => rw [List.map_cons, SqlLiteral.join_byte, ih]

/-- A list without values takes a comma, if there is one, and it is no part of a literal. -/
theorem write_no_values {sql sql' : Str} {toks : List Token}
    (h : Pieces cs.reader letters sql toks) (hwrite : write_stub sql (.LIST []) [] = .ok sql') :
    ∃ toks', Writes cs toks (.LIST []) sql' toks' := by
  rw [write_stub_list_nil] at hwrite
  rcases List.eq_nil_or_concat sql with rfl | ⟨s, c, rfl⟩
  · cases hwrite
  · rw [List.concat_eq_append] at h hwrite
    rw [List.getLast?_concat] at hwrite
    obtain rfl := Except.ok.inj hwrite
    rcases h.concat with ⟨-, toks', hpieces, rfl⟩ | ⟨rfl, toks', v, rfl⟩
    · by_cases hcomma : c = 44
      · rw [if_pos hcomma, List.dropLast_concat]
        refine ⟨toks', hpieces hcomma, ?_⟩
        rw [SqlLiteral.join_concat_byte, write_tokens, List.getLast?_concat,
          if_pos (by rw [hcomma]),
          List.dropLast_concat]
      · rw [if_neg hcomma]
        refine ⟨_, h, ?_⟩
        rw [SqlLiteral.join_concat_byte, write_tokens, List.getLast?_concat, if_neg]
        rintro ⟨⟩
        exact hcomma rfl
    · rw [if_neg (by decide)]
      obtain ⟨toks'', w, hjoin⟩ := SqlLiteral.join_concat_string toks' v
      refine ⟨_, h, ?_⟩
      rw [hjoin, write_tokens, List.getLast?_concat, if_neg (by rintro ⟨⟩)]

theorem write_placeholder {sql sql' text : Str} {toks : List Token} {stub : Stub}
    {stubs : List Stub} {value : StubValue} (h : Pieces cs.reader letters sql toks)
    (hmeets : Meets toks (stub :: stubs)) (htype : stub.type ≠ .LITERAL)
    (hinst : sqlescape = none ∨ sqlescape = some cs.escaper)
    (hvalue : (∃ val quoted, value = .FIELD val quoted quoted) ∨ ∃ vals, value = .LIST vals)
    (hbare : ∀ val, value = .FIELD val false false → Bare val)
    (htext : Renders env sqlescape cs value text) (hwrite : write_stub sql value text = .ok sql') :
    ∃ toks', Writes cs toks value sql' toks' := by
  have happ := hmeets.apart htype
  cases htext with
  | literal value =>
    rcases hvalue with ⟨_, _, hvalue⟩ | ⟨_, hvalue⟩
    · cases hvalue
    · cases hvalue
  | field val text need_quote need_escape htext =>
    obtain rfl : sql ++ text = sql' := Except.ok.inj hwrite
    rcases hvalue with ⟨val', quoted, hvalue⟩ | ⟨_, hvalue⟩
    · cases hvalue
      cases need_quote with
      | true =>
        rw [append_text_quoted hinst htext]
        refine ⟨toks ++ [.string val], h.value val, ?_⟩
        rw [SqlLiteral.join_append (happ _)]
        rfl
      | false =>
        obtain rfl := append_text_raw htext
        have hbare := hbare text rfl
        obtain ⟨hsingle, hscan⟩ := hbare.scan cs
        refine ⟨toks ++ text.map .byte, h.text hsingle hbare.firm hscan, ?_⟩
        rw [SqlLiteral.join_append (happ _), join_bytes]
        rfl
    · cases hvalue
  | list vals texts htexts =>
    cases htexts with
    | nil => exact write_no_values h hwrite
    | @cons val text vals texts htext htexts =>
      obtain rfl := Except.ok.inj hwrite
      refine ⟨_, pieces_list h hinst (.cons htext htexts), ?_⟩
      rw [SqlLiteral.join_append (happ _), join_list]
      rfl

/-! ## What all of them write -/

theorem written_pieces {models : Std.ExtTreeMap Str Model} {is_multi_arg : Bool}
    {stubs : List Stub} {parts : List (StubValue × Str)} {sql out : Str} {toks : List Token}
    (hinst : sqlescape = none ∨ sqlescape = some cs.escaper)
    (hparts : List.Forall₂ (StubRenders env sqlescape cs models is_multi_arg) stubs parts)
    (hbare : ∀ part ∈ parts, ∀ val, part.1 = .FIELD val false false → Bare val)
    (hspaced : Spaced cs stubs) (h : Pieces cs.reader letters sql toks) (hmeets : Meets toks stubs)
    (hwritten : written sql parts = .ok out) :
    ∃ toks', Pieces cs.reader letters out toks' ∧ SqlLiteral.join toks' =
      (parts.map Prod.fst).foldl (write_tokens cs) (SqlLiteral.join toks) := by
  induction hparts generalizing sql toks with
  | nil =>
    obtain rfl := Except.ok.inj hwritten
    exact ⟨toks, h, rfl⟩
  | @cons stub part stubs parts hpart hparts ih =>
    obtain ⟨value, text⟩ := part
    obtain ⟨hvalue, htext⟩ := hpart
    obtain ⟨sql', hwrite, hrest⟩ := run_bind_eq_ok.mp hwritten
    obtain ⟨hbare, hbares⟩ := List.forall_mem_cons.mp hbare
    have htail : Spaced cs stubs :=
      ⟨fun stub hstub => hspaced.text stub (List.mem_cons_of_mem _ hstub), hspaced.apart.tail⟩
    obtain ⟨toks', ⟨hpieces, hjoin⟩, hmeets'⟩ :
        ∃ toks', Writes cs toks value sql' toks' ∧ Meets toks' stubs := by
      rcases stub_value_kind hvalue with ⟨htype, rfl⟩ | ⟨htype, hkind⟩
      · cases htext
        obtain rfl := Except.ok.inj hwrite
        exact write_literal h hmeets hspaced htype
      · obtain ⟨toks', hwrites⟩ :=
          write_placeholder h hmeets htype hinst hkind hbare htext hwrite
        refine ⟨toks', hwrites, Meets.of_chain (fun _ => ?_) hspaced.apart⟩
        rw [Stub.ends_quoted, decide_eq_true htype, Bool.true_or]
    obtain ⟨toks'', hpieces'', hjoin''⟩ := ih hbares htail hpieces hmeets' hrest
    refine ⟨toks'', hpieces'', ?_⟩
    rw [hjoin'', hjoin]
    rfl

/-! ## Without the contents -/

theorem blank_list_tokens (vals : List Str) :
    ([Token.byte 44].intercalate (vals.map fun val => [Token.string val])).map blank =
      [Token.byte 44].intercalate ((vals.map fun _ => ([] : Str)).map fun val =>
        [Token.string val]) := by
  induction vals with
  | nil => rfl
  | cons val vals ih =>
    cases vals with
    | nil => simp [blank]
    | cons val' vals =>
      have hblank : ((val :: val' :: vals).map fun _ => ([] : Str)) =
          [] :: [] :: vals.map fun _ => [] := rfl
      rw [list_tokens_cons, List.map_cons, List.map_cons, ih, hblank, list_tokens_cons]
      rfl

theorem blank_tokens (cs : Charset) (value : StubValue) :
    (value.tokens cs).map blank = (value.blank.tokens cs).map blank := by
  cases value with
  | LITERAL value => rfl
  | FIELD val need_quote need_escape => cases need_quote <;> rfl
  | LIST vals =>
    change ([Token.byte 44].intercalate (vals.map fun val => [Token.string val])).map blank =
      ([Token.byte 44].intercalate ((vals.map fun _ => ([] : Str)).map fun val =>
        [Token.string val])).map blank
    rw [blank_list_tokens, blank_list_tokens]
    simp only [List.map_map, Function.comp_def]

/-- Whether a comma ends the tokens does not depend on what is in the literals. -/
theorem getLast?_comma_iff {toks toks' : List Token} (h : toks.map blank = toks'.map blank) :
    toks.getLast? = some (.byte 44) ↔ toks'.getLast? = some (.byte 44) := by
  have hcomma : ∀ tok : Token, blank tok = .byte 44 ↔ tok = .byte 44 := by
    rintro (b | v)
    · exact Iff.rfl
    · exact iff_of_false (by rintro ⟨⟩) (by rintro ⟨⟩)
  have hlast : ∀ toks : List Token,
      (toks.map blank).getLast? = some (.byte 44) ↔ toks.getLast? = some (.byte 44) := by
    intro toks
    rw [List.getLast?_map, Option.map_eq_some_iff]
    constructor
    · rintro ⟨tok, htok, hb⟩
      rw [htok, (hcomma tok).mp hb]
    · exact fun htok => ⟨_, htok, rfl⟩
  rw [← hlast toks, h, hlast]

theorem write_tokens_blank (cs : Charset) {toks toks' : List Token}
    (h : toks.map blank = toks'.map blank) (value : StubValue) :
    (write_tokens cs toks value).map blank = (write_tokens cs toks' value.blank).map blank := by
  have happend : (toks ++ value.tokens cs).map blank =
      (toks' ++ value.blank.tokens cs).map blank := by
    rw [List.map_append, List.map_append, h, blank_tokens]
  match value with
  | .LITERAL _ => exact happend
  | .FIELD _ true _ => exact happend
  | .FIELD _ false _ => exact happend
  | .LIST (_ :: _) => exact happend
  | .LIST [] =>
    change (if toks.getLast? = some (.byte 44) then toks.dropLast else toks).map blank =
      (if toks'.getLast? = some (.byte 44) then toks'.dropLast else toks').map blank
    by_cases hcomma : toks.getLast? = some (.byte 44)
    · rw [if_pos hcomma, if_pos ((getLast?_comma_iff h).mp hcomma), List.map_dropLast, h,
        List.map_dropLast]
    · rw [if_neg hcomma, if_neg (mt (getLast?_comma_iff h).mpr hcomma), h]

theorem statement_tokens_blank (cs : Charset) (values : List StubValue) :
    (statement_tokens cs values).map blank =
      (statement_tokens cs (values.map StubValue.blank)).map blank := by
  suffices hfold : ∀ toks toks' : List Token, toks.map blank = toks'.map blank →
      (values.foldl (write_tokens cs) toks).map blank =
        ((values.map StubValue.blank).foldl (write_tokens cs) toks').map blank from
    hfold [] [] rfl
  induction values with
  | nil => exact fun _ _ h => h
  | cons value values ih => exact fun toks toks' h => ih _ _ (write_tokens_blank cs h value)

/-- The tokens of a statement are those of its values. -/
theorem prepared_tokens {env : Env} {b : SqlBuilder} {sqlescape after : Option SqlEscape}
    {method : Str} {args : List Model} {stubs : List Stub} {sql : Str}
    (hstubs : b._pices[method]? = some stubs) (hspaced : Spaced b._charset stubs)
    (hinst : sqlescape = none ∨ sqlescape = some b._charset.escaper)
    (hbare : ∀ models, collect_models args {} = .ok models → ∀ stub ∈ stubs, ∀ val,
      stub_value env models (args.length > 1) stub = .ok (some (.FIELD val false false)) → Bare val)
    (hprepare : prepare_statement env b sqlescape method args = .ok (after, true, sql)) :
    ∃ models values, collect_models args {} = .ok models ∧
      List.Forall₂ (fun stub value =>
        stub_value env models (args.length > 1) stub = .ok (some value)) stubs values ∧
      SqlLiteral.tokens b._charset.reader sql = some (statement_tokens b._charset values) := by
  obtain ⟨parts, ⟨models, stubs', hmodels, hstubs', hparts⟩, hwritten⟩ :=
    (prepare_statement_eq_iff env b sqlescape method args sql).mp ⟨after, hprepare⟩
  obtain rfl : stubs = stubs' := Option.some.inj (hstubs.symm.trans hstubs')
  have hvalues : List.Forall₂ (fun stub value =>
      stub_value env models (args.length > 1) stub = .ok (some value)) stubs
        (parts.map Prod.fst) :=
    List.forall₂_map_right_iff.mpr (hparts.imp fun _ _ h => h.1)
  have hbares : ∀ part ∈ parts, ∀ val, part.1 = .FIELD val false false → Bare val := by
    intro part hpart val hval
    obtain ⟨i, hi, rfl⟩ := List.mem_iff_getElem.mp hpart
    have hi' : i < stubs.length := hparts.length_eq ▸ hi
    have hstub := (hparts.get hi' hi).1
    rw [List.get_eq_getElem, List.get_eq_getElem, hval] at hstub
    exact hbare models hmodels _ (List.getElem_mem hi') val hstub
  obtain ⟨toks, hpieces, hjoin⟩ := written_pieces hinst hparts hbares hspaced .nil
    (by rintro v ⟨⟩) hwritten
  refine ⟨models, parts.map Prod.fst, hmodels, hvalues, ?_⟩
  rw [SqlLiteral.tokens, hpieces.scan, Option.map_some, hjoin]
  rfl

/-- **A statement is what its pattern says.** For a pattern without comments that closes the
literals it opens and in which no two literals meet (`Spaced`): the server takes the
statement that `prepare_statement` builds apart into the tokens of the pattern's own text,
one string for each value with quotes, whatever bytes it has, and the bytes of the numbers.
What is not in such a string does not depend on the values in them. -/
theorem prepare_statement_tokens (env : Env) (b : SqlBuilder) (sqlescape after : Option SqlEscape)
    (method : Str) (args : List Model) (stubs : List Stub) (sql : Str)
    (hstubs : b._pices[method]? = some stubs) (hspaced : Spaced b._charset stubs)
    (hinst : sqlescape = none ∨ sqlescape = some b._charset.escaper)
    (hbare : ∀ models, collect_models args {} = .ok models → ∀ stub ∈ stubs, ∀ val,
      stub_value env models (args.length > 1) stub = .ok (some (.FIELD val false false)) → Bare val)
    (hprepare : prepare_statement env b sqlescape method args = .ok (after, true, sql)) :
    ∃ models values, collect_models args {} = .ok models ∧
      List.Forall₂ (fun stub value =>
        stub_value env models (args.length > 1) stub = .ok (some value)) stubs values ∧
      SqlLiteral.tokens b._charset.reader sql = some (statement_tokens b._charset values) ∧
      (statement_tokens b._charset values).map blank =
        (statement_tokens b._charset (values.map StubValue.blank)).map blank := by
  obtain ⟨models, values, hmodels, hvalues, htokens⟩ :=
    prepared_tokens hstubs hspaced hinst hbare hprepare
  exact ⟨models, values, hmodels, hvalues, htokens, statement_tokens_blank _ _⟩

theorem Bare.text {cs : Charset} {val : Str} (h : Bare val) (hne : val ≠ []) :
    val ≠ [] ∧ (∀ b ∈ val, b < 128) ∧ SqlLiteral.Firm val ∧
      (SqlLiteral.scan cs.reader val).isSome := by
  refine ⟨hne, h.ascii, h.firm, ?_⟩
  rw [(h.scan cs).2]
  rfl

/-- An argument with a text and a number. -/
def name_arg (name : Str) : Model :=
  let name : Plain := ⟨[], .STR, .STR name, none, some fun _ => name⟩
  let id : Plain := ⟨[], .INT, .INT 7, none, some fun _ => lit "7"⟩
  .object (lit "arg") ⟨lit "Arg", [(lit "name", name), (lit "id", id)]⟩
    [(lit "name", name), (lit "id", id)] [] []

def name_stubs : List Stub :=
  [⟨.LITERAL, lit "a="⟩, ⟨.FIELD, lit "name"⟩, ⟨.LITERAL, lit " or b="⟩, ⟨.FIELD, lit "id"⟩]

/-- What the stubs stand for. -/
def name_values (name : Str) : List StubValue :=
  [.LITERAL (lit "a="), .FIELD name true true, .LITERAL (lit " or b="),
    .FIELD (lit "7") false false]

/-- A value that would end the literal if it could. -/
theorem prepare_statement_tokens_name :
    ∃ sql, (∃ after, prepare_statement ⟨true, fun _ => true⟩
        (builder_of (lit "query") (lit "a=#{name} or b=#{id}") name_stubs) none (lit "query")
        [name_arg (lit "x' or '1")] = .ok (after, true, sql)) ∧
      SqlLiteral.tokens utf8_charset sql = some ((lit "a=").map .byte ++
        .string (lit "x' or '1") :: (lit " or b=7").map .byte) := by
  have hspaced : Spaced .UTF8 name_stubs := by
    refine ⟨?_, by decide⟩
    simp only [name_stubs, List.forall_mem_cons]
    refine ⟨fun _ => Bare.text (by decide) (by decide), by rintro ⟨⟩,
      fun _ => Bare.text (by decide) (by decide), by rintro ⟨⟩, by rintro _ ⟨⟩⟩
  have hvalues : ∀ models, collect_models [name_arg (lit "x' or '1")] {} = .ok models →
      ∀ values, List.Forall₂ (fun stub value => stub_value ⟨true, fun _ => true⟩ models false stub =
        .ok (some value)) name_stubs values → values = name_values (lit "x' or '1") := by
    intro models hmodels values hvalues
    cases hmodels
    have hown : List.Forall₂ (fun stub value => stub_value ⟨true, fun _ => true⟩
        (Std.ExtTreeMap.insertIfNew {} (lit "arg") (name_arg (lit "x' or '1"))) false stub =
          .ok (some value)) name_stubs (name_values (lit "x' or '1")) :=
      .cons rfl (.cons rfl (.cons rfl (.cons rfl .nil)))
    refine List.right_unique_forall₂' (fun stub value value' h h' => ?_) hvalues hown
    exact Option.some.inj (Except.ok.inj (h.symm.trans h'))
  obtain ⟨after, sql, hprepare⟩ : ∃ after sql, prepare_statement ⟨true, fun _ => true⟩
      (builder_of (lit "query") (lit "a=#{name} or b=#{id}") name_stubs) none (lit "query")
      [name_arg (lit "x' or '1")] = .ok (after, true, sql) := ⟨_, _, rfl⟩
  have hbare : ∀ models, collect_models [name_arg (lit "x' or '1")] {} = .ok models →
      ∀ stub ∈ name_stubs, ∀ val, stub_value ⟨true, fun _ => true⟩ models false stub =
        .ok (some (.FIELD val false false)) → Bare val := by
    intro models hmodels
    cases hmodels
    simp only [name_stubs, List.forall_mem_cons]
    refine ⟨?_, ?_, ?_, ?_, by rintro _ ⟨⟩⟩
    · rintro val ⟨⟩
    · rintro val ⟨⟩
    · rintro val ⟨⟩
    · intro val hval
      cases hval
      decide
  obtain ⟨models, values, hmodels, hresolve, htokens, -⟩ :=
    prepare_statement_tokens ⟨true, fun _ => true⟩
      (builder_of (lit "query") (lit "a=#{name} or b=#{id}") name_stubs) none after (lit "query")
      [name_arg (lit "x' or '1")] name_stubs sql rfl hspaced (.inl rfl) hbare hprepare
  refine ⟨sql, ⟨after, hprepare⟩, htokens.trans ?_⟩
  obtain rfl := hvalues models hmodels values hresolve
  have htext : ∀ {val : Str}, Bare val → (StubValue.LITERAL val).tokens .UTF8 = val.map .byte := by
    intro val h
    rw [StubValue.tokens, SqlLiteral.tokens, (h.scan .UTF8).2, Option.map_some, join_bytes]
    rfl
  change some (((([] ++ (StubValue.LITERAL (lit "a=")).tokens .UTF8) ++ [Token.string _]) ++
    (StubValue.LITERAL (lit " or b=")).tokens .UTF8) ++ (lit "7").map .byte) = _
  rw [htext (by decide), htext (by decide)]
  rfl

end Rellaf.Sql
