/-
The statement `prepare_statement` builds, measured against what it is for: the
texts its stubs stand for, one behind the other.

`Renders` says what the text of a stub is, without a statement to append to.
`append_sql` and `append_list` only add to `sql`, so a literal, a field and a list
with values each add their text. The list branch then takes a comma from the end
of `sql` without asking whose it is: with no values it takes one of an earlier
stub, or reads the last byte of an empty string. `written` is what becomes of the
statement, and `written_eq_iff` says when that is the concatenation.
-/
import Rellaf.SqlAppend

set_option autoImplicit false

open Rellaf.Cpp Rellaf.Models Rellaf.MysqlEscape Rellaf.SqlPattern

namespace Rellaf.Sql

/-! ## The text of a stub -/

/-- The text `append_sql` adds for a value, `none` when it returns false. -/
def append_text (env : Env) (sqlescape : Option SqlEscape) (charset : Charset) (val : Str)
    (need_quote need_escape : Bool) : Run (Option Str) := do
  let (_, ok, text) ← append_sql env sqlescape charset [] val need_quote need_escape
  return if ok then some text else none

/-- What a resolved stub stands for in the statement. -/
inductive Renders (env : Env) (sqlescape : Option SqlEscape) (charset : Charset) :
    StubValue → Str → Prop where
  | literal (value : Str) : Renders env sqlescape charset (.LITERAL value) value
  | field (val text : Str) (need_quote need_escape : Bool)
      (h : append_text env sqlescape charset val need_quote need_escape = .ok (some text)) :
      Renders env sqlescape charset (.FIELD val need_quote need_escape) text
  | list (vals texts : List Str)
      (h : List.Forall₂ (fun val text =>
        append_text env sqlescape charset val true true = .ok (some text)) vals texts) :
      Renders env sqlescape charset (.LIST vals) ([44].intercalate texts)

/-- Two contents of the static that `append_sql` cannot tell apart. -/
def SameEscaper (charset : Charset) (sqlescape after : Option SqlEscape) : Prop :=
  SqlEscape.instance_ after charset.name = SqlEscape.instance_ sqlescape charset.name

/-- An escaping call, read from left to right: which escaper, what it writes, where
that goes. -/
theorem append_sql_true (env : Env) (sqlescape : Option SqlEscape) (charset : Charset)
    (sql val : Str) (need_quote : Bool) :
    append_sql env sqlescape charset sql val need_quote true
      = SqlEscape.instance_ sqlescape charset.name >>= fun e =>
          (e.escape_field env.malloc val).map fun escape_val =>
            (some e, escape_val.isSome,
              sql ++ escape_val.elim (if need_quote then [39] else []) (quoted need_quote)) := by
  unfold append_sql
  rcases SqlEscape.instance_ sqlescape charset.name with fault | e
  · rfl
  · rcases h : e.escape_field env.malloc val with fault | - | escape_val
    · simp [h, Except.map]
    · cases need_quote <;> simp [h, Except.map]
    · cases need_quote <;> simp [h, Except.map, quoted]

/-- `append_sql` adds to the statement and does not look at it. -/
theorem append_sql_append (env : Env) (sqlescape : Option SqlEscape) (charset : Charset)
    (sql val : Str) (need_quote need_escape : Bool) :
    append_sql env sqlescape charset sql val need_quote need_escape
      = (append_sql env sqlescape charset [] val need_quote need_escape).map
          fun (after, ok, text) => (after, ok, sql ++ text) := by
  cases need_escape with
  | false => simp [append_sql_raw, Except.map]
  | true =>
    rw [append_sql_true, append_sql_true]
    rcases SqlEscape.instance_ sqlescape charset.name with fault | e
    · rfl
    · simp only [run_ok_bind]
      rcases e.escape_field env.malloc val with fault | escape_val <;> simp [Except.map]

/-- What a call leaves in the static serves the next call as well. -/
theorem append_sql_sameEscaper {env : Env} {sqlescape after : Option SqlEscape}
    {charset : Charset} {sql val out : Str} {need_quote need_escape ok : Bool}
    (h : append_sql env sqlescape charset sql val need_quote need_escape = .ok (after, ok, out)) :
    SameEscaper charset sqlescape after := by
  cases need_escape with
  | false =>
    rw [append_sql_raw] at h
    obtain ⟨rfl, -⟩ : sqlescape = after ∧ _ := by simpa using h
    rfl
  | true =>
    rw [append_sql_true, run_bind_eq_ok] at h
    obtain ⟨e, he, hmap⟩ := h
    have hafter : after = some e := by
      rcases hf : e.escape_field env.malloc val with fault | escape_val
      · simp [hf, Except.map] at hmap
      · simp only [hf, Except.map, Except.ok.injEq, Prod.mk.injEq] at hmap
        exact hmap.1.symm
    rw [SameEscaper, hafter, he]
    rfl

theorem append_text_congr {sqlescape after : Option SqlEscape} {charset : Charset}
    (h : SameEscaper charset sqlescape after) (env : Env) (val : Str)
    (need_quote need_escape : Bool) :
    append_text env after charset val need_quote need_escape
      = append_text env sqlescape charset val need_quote need_escape := by
  unfold append_text
  cases need_escape with
  | false => rw [append_sql_raw, append_sql_raw, run_ok_bind, run_ok_bind]
  | true => rw [append_sql_true, append_sql_true, h]

/-- `append_sql` returns true with the text of the value behind the statement, and
in no other way. -/
theorem append_sql_eq_iff {env : Env} {sqlescape : Option SqlEscape} {charset : Charset}
    {sql val : Str} {need_quote need_escape : Bool} (out : Str) :
    (∃ after, append_sql env sqlescape charset sql val need_quote need_escape
        = .ok (after, true, out)) ↔
      ∃ text, append_text env sqlescape charset val need_quote need_escape = .ok (some text) ∧
        out = sql ++ text := by
  rw [append_sql_append]
  unfold append_text
  rcases append_sql env sqlescape charset [] val need_quote need_escape with
    fault | ⟨after, - | -, text⟩
  · simp [Except.map]
  · simp [Except.map]
  · simp only [Except.map, run_ok_bind, run_pure, if_true, Except.ok.injEq, Prod.mk.injEq,
      true_and, Option.some.injEq]
    constructor
    · rintro ⟨_, -, rfl⟩
      exact ⟨text, rfl, rfl⟩
    · rintro ⟨_, rfl, rfl⟩
      exact ⟨after, rfl, rfl⟩

/-! ## The texts of a list -/

/-- Every text with a comma behind it: the texts with commas between them, and one
comma more. -/
theorem flatMap_comma {texts : List Str} (h : texts ≠ []) :
    texts.flatMap (· ++ [44]) = [44].intercalate texts ++ [44] := by
  induction texts with
  | nil => exact absurd rfl h
  | cons text texts ih =>
    cases texts with
    | nil => simp
    | cons text' texts =>
      rw [List.flatMap_cons, ih (List.cons_ne_nil _ _), List.intercalate_cons_cons]
      simp

theorem append_list_cons_eq_ok {env : Env} {charset : Charset}
    {sqlescape after : Option SqlEscape} {sql val out : Str} {vals : List Str} {ok : Bool} :
    append_list env charset sqlescape sql (val :: vals) = .ok (after, ok, out) ↔
      ∃ mid ok' sql', append_sql env sqlescape charset sql val true true = .ok (mid, ok', sql') ∧
        (if ok' then append_list env charset mid (sql' ++ [44]) vals else .ok (mid, false, sql'))
          = .ok (after, ok, out) := by
  rw [append_list, run_bind_eq_ok]
  constructor
  · rintro ⟨⟨mid, ok', sql'⟩, happ, hrest⟩
    refine ⟨mid, ok', sql', happ, ?_⟩
    cases ok' <;> exact hrest
  · rintro ⟨mid, ok', sql', happ, hrest⟩
    refine ⟨(mid, ok', sql'), happ, ?_⟩
    cases ok' <;> exact hrest

theorem append_list_sameEscaper {env : Env} {charset : Charset}
    {sqlescape after : Option SqlEscape} {sql out : Str} {vals : List Str} {ok : Bool}
    (h : append_list env charset sqlescape sql vals = .ok (after, ok, out)) :
    SameEscaper charset sqlescape after := by
  induction vals generalizing sqlescape sql with
  | nil =>
    obtain ⟨rfl, -⟩ : sqlescape = after ∧ _ := by simpa [append_list] using h
    rfl
  | cons val vals ih =>
    obtain ⟨mid, ok', sql', happ, hrest⟩ := append_list_cons_eq_ok.mp h
    have hmid := append_sql_sameEscaper happ
    cases ok' with
    | false =>
      obtain ⟨rfl, -⟩ : mid = after ∧ _ := by simpa using hrest
      exact hmid
    | true => exact (ih hrest).trans hmid

/-- The loop over the values: it returns true exactly when every value has a text,
and then each text stands behind the statement with its comma. -/
theorem append_list_eq_iff (env : Env) (charset : Charset) (sqlescape : Option SqlEscape)
    (sql : Str) (vals : List Str) (out : Str) :
    (∃ after, append_list env charset sqlescape sql vals = .ok (after, true, out)) ↔
      ∃ texts, List.Forall₂ (fun val text =>
          append_text env sqlescape charset val true true = .ok (some text)) vals texts ∧
        out = sql ++ texts.flatMap (· ++ [44]) := by
  induction vals generalizing sqlescape sql out with
  | nil => simp [append_list, eq_comm]
  | cons val vals ih =>
    constructor
    · rintro ⟨after, h⟩
      obtain ⟨mid, ok', sql', happ, hrest⟩ := append_list_cons_eq_ok.mp h
      cases ok' with
      | false => simp at hrest
      | true =>
        have hsame := append_sql_sameEscaper happ
        obtain ⟨text, htext, rfl⟩ := (append_sql_eq_iff sql').mp ⟨mid, happ⟩
        obtain ⟨texts, htexts, rfl⟩ := (ih mid _ _).mp ⟨after, hrest⟩
        simp only [append_text_congr hsame] at htexts
        refine ⟨text :: texts, .cons htext htexts, ?_⟩
        rw [List.flatMap_cons, List.append_assoc, List.append_assoc, List.append_assoc]
    · rintro ⟨texts', htexts', rfl⟩
      obtain ⟨text, texts, htext, htexts, rfl⟩ := List.forall₂_cons_left_iff.mp htexts'
      have hout : sql ++ (text :: texts).flatMap (· ++ [44])
          = sql ++ text ++ [44] ++ texts.flatMap (· ++ [44]) := by
        rw [List.flatMap_cons, List.append_assoc, List.append_assoc, List.append_assoc]
      obtain ⟨mid, happ⟩ := (append_sql_eq_iff (sql ++ text)).mpr ⟨text, htext, rfl⟩
      simp only [← append_text_congr (append_sql_sameEscaper happ)] at htexts
      obtain ⟨after, hrest⟩ := (ih mid (sql ++ text ++ [44]) _).mpr ⟨texts, htexts, rfl⟩
      rw [hout]
      exact ⟨after, append_list_cons_eq_ok.mpr ⟨mid, true, sql ++ text, happ, hrest⟩⟩

/-! ## What becomes of the statement -/

/-- The effect of one stub on the statement. Only a list without values does not
add its text: it takes a comma from the end, whoever wrote it. -/
def write_stub (sql : Str) (value : StubValue) (text : Str) : Run Str :=
  match value with
  | .LIST [] => do return if (← back sql) = 44 then sql.dropLast else sql
  | _ => .ok (sql ++ text)

/-- The effect of all stubs, each with its text. -/
def written : Str → List (StubValue × Str) → Run Str
  | sql, [] => .ok sql
  | sql, (value, text) :: parts => do written (← write_stub sql value text) parts

theorem Renders.congr {env : Env} {sqlescape after : Option SqlEscape} {charset : Charset}
    (hsame : SameEscaper charset sqlescape after) (value : StubValue) (text : Str) :
    Renders env after charset value text ↔ Renders env sqlescape charset value text := by
  have hcongr := append_text_congr hsame env
  constructor
  · rintro (_ | ⟨val, _, need_quote, need_escape, h⟩ | ⟨vals, texts, h⟩)
    · exact .literal text
    · rw [hcongr] at h
      exact .field val text need_quote need_escape h
    · simp only [hcongr] at h
      exact .list vals texts h
  · rintro (_ | ⟨val, _, need_quote, need_escape, h⟩ | ⟨vals, texts, h⟩)
    · exact .literal text
    · rw [← hcongr] at h
      exact .field val text need_quote need_escape h
    · simp only [← hcongr] at h
      exact .list vals texts h

theorem Renders.list_nil {env : Env} {sqlescape : Option SqlEscape} {charset : Charset}
    {text : Str} (h : Renders env sqlescape charset (.LIST []) text) : text = [] := by
  rcases h with - | - | ⟨_, texts, h⟩
  rw [List.forall₂_nil_left_iff.mp h]
  rfl

theorem append_stub_sameEscaper {env : Env} {charset : Charset}
    {sqlescape after : Option SqlEscape} {sql out : Str} {value : StubValue} {ok : Bool}
    (h : append_stub env charset sqlescape sql value = .ok (after, ok, out)) :
    SameEscaper charset sqlescape after := by
  cases value with
  | LITERAL value =>
    obtain ⟨rfl, -⟩ : sqlescape = after ∧ _ := by simpa [append_stub] using h
    rfl
  | FIELD val need_quote need_escape => exact append_sql_sameEscaper h
  | LIST vals =>
    rw [append_stub, run_bind_eq_ok] at h
    obtain ⟨⟨mid, ok', sql'⟩, hlist, hrest⟩ := h
    have hmid := append_list_sameEscaper hlist
    cases ok' with
    | false =>
      obtain ⟨rfl, -⟩ : mid = after ∧ _ := by simpa using hrest
      exact hmid
    | true =>
      obtain ⟨last, -, hrest⟩ := run_bind_eq_ok.mp hrest
      obtain ⟨rfl, -⟩ : mid = after ∧ _ := by simpa using hrest
      exact hmid

/-- The list branch behind its loop. -/
theorem append_stub_list_iff {env : Env} {charset : Charset} {sqlescape : Option SqlEscape}
    {sql : Str} {vals : List Str} (out : Str) :
    (∃ after, append_stub env charset sqlescape sql (.LIST vals) = .ok (after, true, out)) ↔
      ∃ texts, List.Forall₂ (fun val text =>
          append_text env sqlescape charset val true true = .ok (some text)) vals texts ∧
        write_stub (sql ++ texts.flatMap (· ++ [44])) (.LIST []) [] = .ok out := by
  have hlist := append_list_eq_iff env charset sqlescape sql vals
  constructor
  · rintro ⟨after, h⟩
    rw [append_stub, run_bind_eq_ok] at h
    obtain ⟨⟨mid, ok, sql'⟩, happ, hrest⟩ := h
    cases ok with
    | false => simp at hrest
    | true =>
      obtain ⟨texts, htexts, rfl⟩ := (hlist sql').mp ⟨mid, happ⟩
      obtain ⟨last, hlast, hout⟩ := run_bind_eq_ok.mp hrest
      obtain ⟨-, hout⟩ : mid = after ∧ _ := by simpa using hout
      exact ⟨texts, htexts, run_bind_eq_ok.mpr ⟨last, hlast, congrArg Except.ok hout⟩⟩
  · rintro ⟨texts, htexts, hwrite⟩
    obtain ⟨after, happ⟩ := (hlist _).mpr ⟨texts, htexts, rfl⟩
    obtain ⟨last, hlast, hout⟩ := run_bind_eq_ok.mp hwrite
    refine ⟨after, run_bind_eq_ok.mpr ⟨_, happ, run_bind_eq_ok.mpr ⟨last, hlast, ?_⟩⟩⟩
    simpa using hout

/-- One stub: it is written exactly when it has a text, with the effect of
`write_stub`. -/
theorem append_stub_eq_iff (env : Env) (charset : Charset) (sqlescape : Option SqlEscape)
    (sql : Str) (value : StubValue) (out : Str) :
    (∃ after, append_stub env charset sqlescape sql value = .ok (after, true, out)) ↔
      ∃ text, Renders env sqlescape charset value text ∧ write_stub sql value text = .ok out := by
  cases value with
  | LITERAL value =>
    constructor
    · rintro ⟨after, h⟩
      obtain ⟨-, rfl⟩ : sqlescape = after ∧ sql ++ value = out := by simpa [append_stub] using h
      exact ⟨value, .literal value, rfl⟩
    · rintro ⟨_, ⟨⟩, hwrite⟩
      exact ⟨sqlescape, by simpa [append_stub, write_stub] using hwrite⟩
  | FIELD val need_quote need_escape =>
    constructor
    · rintro ⟨after, h⟩
      obtain ⟨text, htext, rfl⟩ := (append_sql_eq_iff out).mp ⟨after, h⟩
      exact ⟨text, .field val text need_quote need_escape htext, rfl⟩
    · rintro ⟨text, ⟨⟩, hwrite⟩
      rename_i htext
      obtain rfl : sql ++ text = out := Except.ok.inj hwrite
      exact (append_sql_eq_iff _).mpr ⟨text, htext, rfl⟩
  | LIST vals =>
    rw [append_stub_list_iff]
    have hwrite : ∀ texts, List.Forall₂ (fun val text =>
        append_text env sqlescape charset val true true = .ok (some text)) vals texts →
        write_stub (sql ++ texts.flatMap (· ++ [44])) (.LIST []) []
          = write_stub sql (.LIST vals) ([44].intercalate texts) := by
      intro texts htexts
      cases htexts with
      | nil => rw [List.flatMap_nil, List.append_nil]; rfl
      | @cons val text vals texts htext htexts =>
        -- the comma at the end is the one of the last value
        rw [flatMap_comma (List.cons_ne_nil text texts), ← List.append_assoc, write_stub,
          back_append_singleton, run_ok_bind, if_pos rfl, List.dropLast_concat]
        rfl
    constructor
    · rintro ⟨texts, htexts, h⟩
      exact ⟨_, .list vals texts htexts, hwrite texts htexts ▸ h⟩
    · rintro ⟨_, ⟨⟩, h⟩
      rename_i texts htexts
      exact ⟨texts, htexts, hwrite texts htexts ▸ h⟩

/-! ## When that is the concatenation -/

/-- Every list without values stands behind text that does not end in a comma, `sql`
being the text in front of the first part. -/
def ListsBehindText (sql : Str) (parts : List (StubValue × Str)) : Prop :=
  ∀ before text after, parts = before ++ (.LIST [], text) :: after →
    ∃ c, (sql ++ (before.map Prod.snd).flatten).getLast? = some c ∧ c ≠ 44

theorem listsBehindText_nil (sql : Str) : ListsBehindText sql [] := by
  intro before text after h
  exact absurd h (by simp)

theorem listsBehindText_cons (sql : Str) (value : StubValue) (text : Str)
    (parts : List (StubValue × Str)) :
    ListsBehindText sql ((value, text) :: parts) ↔
      (value = .LIST [] → ∃ c, sql.getLast? = some c ∧ c ≠ 44) ∧
        ListsBehindText (sql ++ text) parts := by
  constructor
  · intro h
    refine ⟨?_, ?_⟩
    · rintro rfl
      simpa using h [] text parts rfl
    · rintro before text' after rfl
      simpa using h ((value, text) :: before) text' after rfl
  · rintro ⟨hhead, htail⟩ before text' after h
    rcases List.cons_eq_append_iff.mp h with ⟨rfl, hcons⟩ | ⟨before, rfl, rfl⟩
    · obtain ⟨⟨rfl, -⟩, -⟩ : (value = .LIST [] ∧ _) ∧ _ := by simpa [eq_comm] using hcons
      simpa using hhead rfl
    · simpa using htail before text' after rfl

/-- A stub never writes more than its text. -/
theorem write_stub_length_le {sql text out : Str} {value : StubValue}
    (h : write_stub sql value text = .ok out) : out.length ≤ sql.length + text.length := by
  unfold write_stub at h
  split at h
  · obtain ⟨last, -, hout⟩ := run_bind_eq_ok.mp h
    rw [← Except.ok.inj hout]
    split
    · rw [List.length_dropLast]
      omega
    · exact Nat.le_add_right _ _
  · rw [← Except.ok.inj h, List.length_append]

theorem written_length_le {sql out : Str} {parts : List (StubValue × Str)}
    (h : written sql parts = .ok out) :
    out.length ≤ sql.length + (parts.map Prod.snd).flatten.length := by
  induction parts generalizing sql with
  | nil =>
    rw [← Except.ok.inj h]
    exact Nat.le_add_right _ _
  | cons part parts ih =>
    obtain ⟨sql', hwrite, hrest⟩ := run_bind_eq_ok.mp h
    have hstub := write_stub_length_le hwrite
    have hparts := ih hrest
    rw [List.map_cons, List.flatten_cons, List.length_append]
    omega

/-- A list without values: it reads the last byte of the statement, and leaves the
statement as it is when that byte is no comma. -/
theorem write_stub_list_nil (sql text : Str) :
    write_stub sql (.LIST []) text =
      match sql.getLast? with
      | none => .error .undefined
      | some c => .ok (if c = 44 then sql.dropLast else sql) := by
  rw [write_stub, back]
  rcases sql.getLast? with - | c <;> rfl

/-- The statement is the concatenation of the texts exactly when no list without
values meets an empty statement or a comma. A comma it takes away is not made up
for by the parts behind it, since none of them writes more than its text. -/
theorem written_eq_iff (sql : Str) (parts : List (StubValue × Str))
    (hnil : ∀ part ∈ parts, part.1 = .LIST [] → part.2 = []) :
    written sql parts = .ok (sql ++ (parts.map Prod.snd).flatten) ↔ ListsBehindText sql parts := by
  induction parts generalizing sql with
  | nil => simp [written, listsBehindText_nil]
  | cons part parts ih =>
    obtain ⟨value, text⟩ := part
    have htail := ih (sql ++ text) fun part hpart => hnil part (List.mem_cons_of_mem _ hpart)
    rw [listsBehindText_cons, written, List.map_cons, List.flatten_cons]
    by_cases hvalue : value = .LIST []
    · subst hvalue
      obtain rfl : text = [] := hnil _ List.mem_cons_self rfl
      rw [write_stub_list_nil]
      rcases hlast : sql.getLast? with - | c
      · simp
      · by_cases hc : c = 44
        · -- a byte is lost, and the lengths say that it stays lost
          have hne : sql ≠ [] := by
            rintro rfl
            simp at hlast
          have hpos : 0 < sql.length := List.length_pos_of_ne_nil hne
          simp only [run_ok_bind, if_pos hc]
          constructor
          · intro h
            have hle := written_length_le h
            rw [List.length_dropLast, List.length_append, List.nil_append] at hle
            omega
          · rintro ⟨hhead, -⟩
            obtain ⟨c', hc', hne'⟩ := hhead trivial
            exact absurd (Option.some.inj hc' ▸ hc) hne'
        · rw [List.append_nil] at htail ⊢
          simp only [run_ok_bind, if_neg hc, List.nil_append, htail]
          exact ⟨fun h => ⟨fun _ => ⟨c, rfl, hc⟩, h⟩, fun h => h.2⟩
    · have hwrite : write_stub sql value text = .ok (sql ++ text) := by
        unfold write_stub
        split
        · exact absurd rfl hvalue
        · rfl
      rw [hwrite, run_ok_bind, ← List.append_assoc, htail]
      exact ⟨fun h => ⟨fun hv => absurd hv hvalue, h⟩, fun h => h.2⟩

/-! ## `prepare_statement` -/

/-- A stub, what it resolves to and the text of that. -/
def StubRenders (env : Env) (sqlescape : Option SqlEscape) (charset : Charset)
    (models : Std.ExtTreeMap Str Model) (is_multi_arg : Bool) (stub : Stub)
    (part : StubValue × Str) : Prop :=
  stub_value env models is_multi_arg stub = .ok (some part.1) ∧
    Renders env sqlescape charset part.1 part.2

theorem stubRenders_congr {sqlescape after : Option SqlEscape} {charset : Charset}
    (hsame : SameEscaper charset sqlescape after) (env : Env) (models : Std.ExtTreeMap Str Model)
    (is_multi_arg : Bool) :
    StubRenders env after charset models is_multi_arg
      = StubRenders env sqlescape charset models is_multi_arg := by
  funext stub part
  rw [StubRenders, StubRenders, Renders.congr hsame]

/-- The loop returns true exactly when every stub has a text, with what `written`
makes of the statement. -/
theorem prepare_loop_eq_iff (env : Env) (charset : Charset) (models : Std.ExtTreeMap Str Model)
    (is_multi_arg : Bool) (sqlescape : Option SqlEscape) (sql : Str) (stubs : List Stub)
    (out : Str) :
    (∃ after, prepare_loop env charset models is_multi_arg sqlescape sql stubs
        = .ok (after, true, out)) ↔
      ∃ parts, List.Forall₂ (StubRenders env sqlescape charset models is_multi_arg) stubs parts ∧
        written sql parts = .ok out := by
  induction stubs generalizing sqlescape sql with
  | nil => simp [prepare_loop, written]
  | cons stub stubs ih =>
    constructor
    · rintro ⟨after, h⟩
      obtain ⟨value, hvalue, h⟩ := run_bind_eq_ok.mp h
      rcases value with - | value
      · simp at h
      obtain ⟨⟨mid, ok, sql'⟩, hstub, hrest⟩ := run_bind_eq_ok.mp h
      cases ok with
      | false => simp at hrest
      | true =>
        have hsame := append_stub_sameEscaper hstub
        obtain ⟨text, htext, hwrite⟩ :=
          (append_stub_eq_iff env charset sqlescape sql value sql').mp ⟨mid, hstub⟩
        obtain ⟨parts, hparts, hwritten⟩ := (ih mid sql').mp ⟨after, hrest⟩
        rw [stubRenders_congr hsame] at hparts
        exact ⟨(value, text) :: parts, .cons ⟨hvalue, htext⟩ hparts,
          run_bind_eq_ok.mpr ⟨sql', hwrite, hwritten⟩⟩
    · rintro ⟨parts', hparts', h⟩
      obtain ⟨⟨value, text⟩, parts, ⟨hvalue, htext⟩, hparts, rfl⟩ :=
        List.forall₂_cons_left_iff.mp hparts'
      obtain ⟨sql', hwrite, hwritten⟩ := run_bind_eq_ok.mp h
      obtain ⟨mid, hstub⟩ :=
        (append_stub_eq_iff env charset sqlescape sql value sql').mpr ⟨text, htext, hwrite⟩
      have hsame := append_stub_sameEscaper hstub
      rw [← stubRenders_congr hsame] at hparts
      obtain ⟨after, hrest⟩ := (ih mid sql').mpr ⟨parts, hparts, hwritten⟩
      exact ⟨after, run_bind_eq_ok.mpr ⟨some value, hvalue,
        run_bind_eq_ok.mpr ⟨(mid, true, sql'), hstub, hrest⟩⟩⟩

/-- What the stubs of a registered method stand for in one call, stub by stub. -/
def Parts (env : Env) (b : SqlBuilder) (sqlescape : Option SqlEscape) (method : Str)
    (args : List Model) (parts : List (StubValue × Str)) : Prop :=
  ∃ models stubs, collect_models args {} = .ok models ∧ b._pices[method]? = some stubs ∧
    List.Forall₂ (StubRenders env sqlescape b._charset models (args.length > 1)) stubs parts

theorem prepare_statement_eq_iff (env : Env) (b : SqlBuilder) (sqlescape : Option SqlEscape)
    (method : Str) (args : List Model) (out : Str) :
    (∃ after, prepare_statement env b sqlescape method args = .ok (after, true, out)) ↔
      ∃ parts, Parts env b sqlescape method args parts ∧ written [] parts = .ok out := by
  unfold prepare_statement Parts
  rcases collect_models args {} with fault | models
  · simp
  · rcases b._pices[method]? with - | stubs
    · simp
    · simp only [run_ok_bind, Except.ok.injEq, Option.some.injEq]
      rw [prepare_loop_eq_iff]
      constructor
      · rintro ⟨parts, hparts, h⟩
        exact ⟨parts, ⟨models, stubs, rfl, rfl, hparts⟩, h⟩
      · rintro ⟨parts, ⟨_, _, rfl, rfl, hparts⟩, h⟩
        exact ⟨parts, hparts, h⟩

theorem Parts.list_nil {env : Env} {b : SqlBuilder} {sqlescape : Option SqlEscape} {method : Str}
    {args : List Model} {parts : List (StubValue × Str)}
    (h : Parts env b sqlescape method args parts) (part : StubValue × Str) (hpart : part ∈ parts)
    (hvalue : part.1 = .LIST []) : part.2 = [] := by
  obtain ⟨models, stubs, -, -, hparts⟩ := h
  obtain ⟨i, hi, rfl⟩ := List.mem_iff_getElem.mp hpart
  have hrenders := (hparts.get (by rw [hparts.length_eq]; exact hi) hi).2
  rw [List.get_eq_getElem, hvalue] at hrenders
  exact hrenders.list_nil

theorem Renders.unique {env : Env} {sqlescape : Option SqlEscape} {charset : Charset}
    {value : StubValue} {text text' : Str} (h : Renders env sqlescape charset value text)
    (h' : Renders env sqlescape charset value text') : text = text' := by
  cases h with
  | literal _ =>
    cases h' with
    | literal _ => rfl
  | field _ _ _ _ h =>
    cases h' with
    | field _ _ _ _ h' => exact Option.some.inj (Except.ok.inj (h.symm.trans h'))
  | list vals texts h =>
    cases h' with
    | list _ texts' h' =>
    have hunique : Relator.RightUnique fun val text =>
        append_text env sqlescape charset val true true = .ok (some text) := by
      intro val text text' ht ht'
      exact Option.some.inj (Except.ok.inj (ht.symm.trans ht'))
    rw [List.right_unique_forall₂' hunique h h']

/-- A call has at most one list of parts. -/
theorem Parts.unique {env : Env} {b : SqlBuilder} {sqlescape : Option SqlEscape} {method : Str}
    {args : List Model} {parts parts' : List (StubValue × Str)}
    (h : Parts env b sqlescape method args parts)
    (h' : Parts env b sqlescape method args parts') : parts = parts' := by
  obtain ⟨models, stubs, hmodels, hstubs, hparts⟩ := h
  obtain ⟨models', stubs', hmodels', hstubs', hparts'⟩ := h'
  obtain rfl : models = models' := Except.ok.inj (hmodels.symm.trans hmodels')
  obtain rfl : stubs = stubs' := Option.some.inj (hstubs.symm.trans hstubs')
  have hunique : Relator.RightUnique
      (StubRenders env sqlescape b._charset models (args.length > 1)) := by
    rintro stub ⟨value, text⟩ ⟨value', text'⟩ ⟨hvalue, htext⟩ ⟨hvalue', htext'⟩
    obtain rfl : value = value' := Option.some.inj (Except.ok.inj (hvalue.symm.trans hvalue'))
    obtain rfl : text = text' := htext.unique htext'
    rfl
  exact List.right_unique_forall₂' hunique hparts hparts'

/-- **When the statement is the concatenation.** A call that returns true has a
text for every stub. When every stub has a text, the call returns true with the
texts one behind the other, and without reading the last byte of an empty string,
exactly when each list without values stands behind text that does not end in a
comma. -/
theorem prepare_statement_concat_iff (env : Env) (b : SqlBuilder) (sqlescape : Option SqlEscape)
    (method : Str) (args : List Model) :
    (∀ after sql, prepare_statement env b sqlescape method args = .ok (after, true, sql) →
      ∃ parts, Parts env b sqlescape method args parts) ∧
    ∀ parts, Parts env b sqlescape method args parts →
      ((∃ after, prepare_statement env b sqlescape method args
          = .ok (after, true, (parts.map Prod.snd).flatten)) ↔ ListsBehindText [] parts) := by
  refine ⟨?_, ?_⟩
  · intro after sql h
    obtain ⟨parts, hparts, -⟩ :=
      (prepare_statement_eq_iff env b sqlescape method args sql).mp ⟨after, h⟩
    exact ⟨parts, hparts⟩
  · intro parts hparts
    rw [prepare_statement_eq_iff, ← written_eq_iff [] parts hparts.list_nil, List.nil_append]
    constructor
    · rintro ⟨parts', hparts', h⟩
      rw [hparts.unique hparts']
      rwa [hparts.unique hparts'] at h
    · intro h
      exact ⟨parts, hparts, h⟩

/-- A builder with one registration, whose pattern explodes into `stubs`. -/
def builder_of (method pattern : Str) (stubs : List Stub) : SqlBuilder :=
  { SqlBuilder.init with
    _patterns := SqlBuilder.init._patterns.insertIfNew method pattern
    _pices := SqlBuilder.init._pices.insertIfNew method stubs }

theorem reg_eq {method pattern : Str} {stubs : List Stub}
    (h : explode pattern = .ok (true, stubs, .OK)) :
    SqlBuilder.init.reg method pattern = .ok (builder_of method pattern stubs) := by
  rw [SqlBuilder.reg, h]
  rfl

/-- An argument with one list member, `ids`. -/
def ids_arg (ids : List Model) : Model :=
  .object (lit "arg") ⟨lit "Arg", []⟩ [] [(lit "ids", ids)] []

def id_of (n : Int32) (text : Str) : Model := .plain ⟨[], .INT, .INT n, none, some fun _ => text⟩

def ids_stubs : List Stub := [⟨.LITERAL, lit "a,"⟩, ⟨.LIST, lit "ids"⟩]

/-- `a,#[ids]` with two values. -/
theorem prepare_statement_concat_iff_two :
    SqlBuilder.init.reg (lit "query") (lit "a,#[ids]")
      = .ok (builder_of (lit "query") (lit "a,#[ids]") ids_stubs) ∧
    ∃ after, prepare_statement ⟨true, fun _ => true⟩
      (builder_of (lit "query") (lit "a,#[ids]") ids_stubs) none (lit "query")
      [ids_arg [id_of 1 (lit "1"), id_of 2 (lit "2")]] = .ok (after, true, lit "a,'1','2'") := by
  refine ⟨reg_eq (by decide), ?_⟩
  refine ((prepare_statement_concat_iff ⟨true, fun _ => true⟩ _ none _ _).2
    [(.LITERAL (lit "a,"), lit "a,"), (.LIST [lit "1", lit "2"], lit "'1','2'")] ?_).mpr ?_
  · refine ⟨Std.ExtTreeMap.insertIfNew {} (lit "arg") _, ids_stubs, rfl, rfl,
      .cons ⟨rfl, .literal _⟩ (.cons ⟨rfl, ?_⟩ .nil)⟩
    exact .list [lit "1", lit "2"] [lit "'1'", lit "'2'"] (.cons rfl (.cons rfl .nil))
  · simp [listsBehindText_cons, listsBehindText_nil]

/-- The same pattern with no values: the comma of the literal is gone. And with
nothing in front of the list, the last byte of an empty string is read. -/
theorem prepare_statement_no_values :
    (SqlBuilder.init.reg (lit "query") (lit "a,#[ids]")
        = .ok (builder_of (lit "query") (lit "a,#[ids]") ids_stubs) ∧
      prepare_statement ⟨true, fun _ => true⟩
        (builder_of (lit "query") (lit "a,#[ids]") ids_stubs) none (lit "query") [ids_arg []]
        = .ok (none, true, lit "a") ∧
      ¬ ∃ parts, Parts ⟨true, fun _ => true⟩
          (builder_of (lit "query") (lit "a,#[ids]") ids_stubs) none (lit "query") [ids_arg []]
          parts ∧
        lit "a" = (parts.map Prod.snd).flatten) ∧
    SqlBuilder.init.reg (lit "query") (lit "#[ids]")
        = .ok (builder_of (lit "query") (lit "#[ids]") [⟨.LIST, lit "ids"⟩]) ∧
      prepare_statement ⟨true, fun _ => true⟩
        (builder_of (lit "query") (lit "#[ids]") [⟨.LIST, lit "ids"⟩]) none (lit "query")
        [ids_arg []] = .error .undefined := by
  refine ⟨⟨reg_eq (by decide), rfl, ?_⟩, reg_eq (by decide), rfl⟩
  rintro ⟨parts, hparts, hsql⟩
  have hown : Parts ⟨true, fun _ => true⟩
      (builder_of (lit "query") (lit "a,#[ids]") ids_stubs) none (lit "query") [ids_arg []]
      [(.LITERAL (lit "a,"), lit "a,"), (.LIST [], [])] :=
    ⟨Std.ExtTreeMap.insertIfNew {} (lit "arg") _, ids_stubs, rfl, rfl,
      .cons ⟨rfl, .literal _⟩ (.cons ⟨rfl, .list [] [] .nil⟩ .nil)⟩
  rw [hparts.unique hown] at hsql
  exact absurd hsql (by decide)

end Rellaf.Sql
