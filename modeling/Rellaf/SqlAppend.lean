/-
`append_sql`, the one place where a value enters a statement: what its text means
to the server, and which escaper wrote it.

The first half is the round trip. Between the quotes stands the escaped text of
`mysql_escape.cpp`; `SqlLiteral.read` over the same charset reads it back.

The second half is about the history of the process. The escaper is a static that
the first escaping call fixes, so what a call writes is decided by that call's
charset and not by its own. `append_calls` runs a history; its outputs are the
ones a fresh escaper would give exactly as far as the two charsets agree.
-/
import Rellaf.EscapeReader
import Rellaf.SqlBuilder

set_option autoImplicit false

open Rellaf.Cpp Rellaf.MysqlEscape

namespace Rellaf.Sql

/-! ## The escaper of a charset -/

/-- The `SqlEscape` constructed for a charset. -/
def Charset.escaper : Charset → SqlEscape
  | .UTF8 => SqlEscape.utf8
  | .GBK => SqlEscape.gbk

/-- The same charset, as the reader of the server knows it. -/
def Charset.reader : Charset → SqlLiteral.Charset
  | .UTF8 => utf8_charset
  | .GBK => gbk_charset

theorem construct_name (cs : Charset) : SqlEscape.construct cs.name = .ok cs.escaper := by
  cases cs <;> rfl

/-- The first use of the static constructs it for the charset at hand. -/
theorem instance_none (cs : Charset) : SqlEscape.instance_ none cs.name = .ok cs.escaper :=
  construct_name cs

theorem Charset.reads (cs : Charset) : Reads cs.escaper cs.reader := by
  cases cs with
  | UTF8 => exact utf8_reads
  | GBK => exact gbk_reads

/-- The text an escaper writes between the quotes. -/
def Charset.text (cs : Charset) (val : Str) : Str := (cs.escaper.escape_field_to val).1

theorem Charset.text_eq (cs : Charset) (val : Str) :
    cs.text val = SqlLiteral.escape cs.reader letters val := by
  rw [Charset.text, SqlEscape.escape_field_to, SqlEscape.escape_field_quote, if_neg (by decide),
    escape_string_for_mysql_spec cs.reads]

theorem Charset.zero_not_mem_text (cs : Charset) (val : Str) : (0 : UInt8) ∉ cs.text val := by
  rw [cs.text_eq]
  exact SqlLiteral.zero_not_mem_escape _ _ _

/-- The buffer of a long field does not fit the stack, and there is no memory for it. -/
def AllocFails (env : Env) (val : Str) : Prop :=
  768 < val.length ∧ env.malloc (SqlEscape.field_buf_size val) = false

instance (env : Env) (val : Str) : Decidable (AllocFails env val) :=
  inferInstanceAs (Decidable (_ ∧ _))

/-- The room `escape_field(field, out)` needs and finds: a buffer, and one that
holds the text and its zero. -/
def HasRoom (env : Env) (cs : Charset) (val : Str) : Prop :=
  ¬ AllocFails env val ∧ (cs.text val).length + 1 ≤ SqlEscape.field_buf_size val

/-- `escape_field` returns false when there is no buffer, and otherwise all of the
text or, when the buffer is too small, nothing defined. -/
theorem Charset.escape_field_eq (env : Env) (cs : Charset) (val : Str) :
    cs.escaper.escape_field env.malloc val =
      if AllocFails env val then .ok none
      else if (cs.text val).length + 1 ≤ SqlEscape.field_buf_size val then .ok (some (cs.text val))
      else .error .undefined := by
  have halloc : (decide (val.length > 768) && !env.malloc (SqlEscape.field_buf_size val)) = true
      ↔ AllocFails env val := by
    simp [AllocFails]
  unfold SqlEscape.escape_field
  change (if _ then _ else if (cs.text val).length + 1 > SqlEscape.field_buf_size val
    then Except.error _ else Except.ok (some (cstr (cs.text val)))) = _
  rw [cstr_eq_self (cs.zero_not_mem_text val)]
  by_cases hfail : AllocFails env val
  · rw [if_pos (halloc.mpr hfail), if_pos hfail]
  · rw [if_neg (mt halloc.mp hfail), if_neg hfail]
    by_cases hbuf : (cs.text val).length + 1 ≤ SqlEscape.field_buf_size val
    · rw [if_pos hbuf, if_neg (Nat.not_lt.mpr hbuf)]
    · rw [if_neg hbuf, if_pos (Nat.lt_of_not_le hbuf)]

/-- Values up to 511 bytes have room, however many of their bytes are escaped. -/
theorem hasRoom_of_length_le (env : Env) (cs : Charset) {val : Str} (h : val.length ≤ 511) :
    HasRoom env cs val := by
  have hle : (cs.text val).length ≤ 2 * val.length := by
    rw [cs.text_eq]
    exact SqlLiteral.escape_length_le _ _ val
  have hstack : SqlEscape.field_buf_size val = 1024 := by
    rw [SqlEscape.field_buf_size, if_neg (by omega)]
  refine ⟨fun hfail => ?_, ?_⟩
  · have hlong := hfail.1
    omega
  · rw [hstack]
    omega

/-! ## What one call appends -/

/-- A text with quotes around it when they are asked for. -/
def quoted (need_quote : Bool) (text : Str) : Str :=
  if need_quote then [39] ++ text ++ [39] else text

theorem append_sql_raw (env : Env) (sqlescape : Option SqlEscape) (cs : Charset) (sql val : Str)
    (need_quote : Bool) :
    append_sql env sqlescape cs sql val need_quote false
      = .ok (sqlescape, true, sql ++ quoted need_quote val) := by
  cases need_quote <;> simp [append_sql, quoted, pure, Except.pure]

/-- What an escaping call returns and leaves in `sql` when it finds the escaper of
`cs` in the static. -/
def append_escaped (env : Env) (cs : Charset) (sql val : Str) (need_quote : Bool) :
    Run (Bool × Str) :=
  if AllocFails env val then .ok (false, if need_quote then sql ++ [39] else sql)
  else if (cs.text val).length + 1 ≤ SqlEscape.field_buf_size val then
    .ok (true, sql ++ quoted need_quote (cs.text val))
  else .error .undefined

theorem append_sql_escape {sqlescape : Option SqlEscape} {cs cs' : Charset}
    (he : SqlEscape.instance_ sqlescape cs.name = .ok cs'.escaper) (env : Env) (sql val : Str)
    (need_quote : Bool) :
    append_sql env sqlescape cs sql val need_quote true
      = (append_escaped env cs' sql val need_quote).map fun out => (some cs'.escaper, out) := by
  unfold append_sql append_escaped
  simp only [he, if_true, bind, Except.bind, pure, Except.pure, cs'.escape_field_eq]
  by_cases hfail : AllocFails env val
  · simp only [if_pos hfail]
    rfl
  · simp only [if_neg hfail]
    by_cases hbuf : (cs'.text val).length + 1 ≤ SqlEscape.field_buf_size val
    · simp only [if_pos hbuf]
      cases need_quote <;> simp [quoted, Except.map]
    · simp only [if_neg hbuf]
      rfl

theorem append_escaped_eq_true_iff (env : Env) (cs : Charset) (sql val : Str) (need_quote : Bool)
    (out : Str) :
    append_escaped env cs sql val need_quote = .ok (true, out) ↔
      HasRoom env cs val ∧ out = sql ++ quoted need_quote (cs.text val) := by
  unfold append_escaped HasRoom
  by_cases hfail : AllocFails env val
  · simp [hfail]
  · by_cases hbuf : (cs.text val).length + 1 ≤ SqlEscape.field_buf_size val
    · simp [hfail, hbuf, eq_comm]
    · simp [hfail, hbuf]

/-! ## What the server reads -/

/-- A string literal with its opening quote, as the server reads it. -/
def read_literal (cs : Charset) : Str → Option (Str × Str)
  | 39 :: body => SqlLiteral.read cs.reader body
  | _ => none

/-- With the escaper of the charset, a quoted value is appended exactly if it has room. -/
theorem append_sql_quoted_iff {env : Env} {cs : Charset} {sqlescape after : Option SqlEscape}
    {sql val out : Str} (hinst : sqlescape = none ∨ sqlescape = some cs.escaper) :
    append_sql env sqlescape cs sql val true true = .ok (after, true, out) ↔
      HasRoom env cs val ∧ after = some cs.escaper ∧ out = sql ++ ([39] ++ cs.text val ++ [39]) := by
  have he : SqlEscape.instance_ sqlescape cs.name = .ok cs.escaper := by
    rcases hinst with rfl | rfl
    · exact instance_none cs
    · rfl
  have happend := append_escaped_eq_true_iff env cs sql val true out
  rw [append_sql_escape he]
  constructor
  · intro h
    cases hout : append_escaped env cs sql val true with
    | error fault =>
      rw [hout] at h
      cases h
    | ok ret =>
      rw [hout] at h
      cases h
      obtain ⟨hroom, htext⟩ := happend.mp hout
      exact ⟨hroom, rfl, htext⟩
  · rintro ⟨hroom, rfl, htext⟩
    rw [happend.mpr ⟨hroom, htext⟩]
    rfl

/-- What is appended is one literal for the server, with the value. -/
theorem read_literal_text (cs : Charset) (val rest : Str) :
    read_literal cs ([39] ++ cs.text val ++ [39] ++ rest) = some (val, rest) := by
  have hread := SqlLiteral.read_escape cs.reader letters val rest
  rw [← cs.text_eq] at hread
  simpa [read_literal] using hread

/-- **The round trip of a quoted value.** What `append_sql` emits is one literal
for the server, its value is the value passed in, and the text behind it is left
alone. The escaped text holds no zero byte, so the copy `out = p` is all of it. -/
theorem append_sql_read_literal (env : Env) (cs : Charset) (sqlescape : Option SqlEscape)
    (sql val rest : Str) (hinst : sqlescape = none ∨ sqlescape = some cs.escaper)
    (hroom : HasRoom env cs val) :
    ∃ text, append_sql env sqlescape cs sql val true true
          = .ok (some cs.escaper, true, sql ++ ([39] ++ text ++ [39])) ∧
      read_literal cs ([39] ++ text ++ [39] ++ rest) = some (val, rest) ∧
      text = (cs.escaper.escape_field_to val).1 ∧ (0 : UInt8) ∉ text :=
  ⟨cs.text val, (append_sql_quoted_iff hinst).mpr ⟨hroom, rfl, rfl⟩,
    read_literal_text cs val rest, rfl, cs.zero_not_mem_text val⟩

/-- A GBK head in front of a quote, the bytes of the classical injection. -/
theorem append_sql_read_literal_bf27 :
    ∃ text, append_sql ⟨true, fun _ => true⟩ none .GBK (lit "WHERE a=") [0xbf, 0x27] true true
          = .ok (some SqlEscape.gbk, true, lit "WHERE a=" ++ ([39] ++ text ++ [39])) ∧
      read_literal .GBK ([39] ++ text ++ [39] ++ lit " OR 1=1") = some ([0xbf, 0x27], lit " OR 1=1") ∧
      text = (SqlEscape.gbk.escape_field_to [0xbf, 0x27]).1 ∧ (0 : UInt8) ∉ text :=
  append_sql_read_literal ⟨true, fun _ => true⟩ .GBK none (lit "WHERE a=") [0xbf, 0x27]
    (lit " OR 1=1") (.inl rfl) ⟨by decide, by decide⟩

/-! ## A history of calls -/

/-- One call of `append_sql` on some builder: the charset `set_charset` gave that
builder, the arguments, and what the call finds around it. -/
structure AppendCall where
  charset : Charset
  sql : Str
  val : Str
  need_quote : Bool
  need_escape : Bool
  env : Env

/-- `append_sql` as the call makes it, with what the static holds at that time. -/
def AppendCall.run (sqlescape : Option SqlEscape) (c : AppendCall) :
    Run (Option SqlEscape × Bool × Str) :=
  append_sql c.env sqlescape c.charset c.sql c.val c.need_quote c.need_escape

/-- What a history of calls returns and leaves in `sql`, call by call. All builders
of the process share the static. -/
def append_calls : Option SqlEscape → List AppendCall → Run (List (Bool × Str))
  | _, [] => return []
  | sqlescape, c :: calls => do
    let (sqlescape, out) ← c.run sqlescape
    return out :: (← append_calls sqlescape calls)

/-- The output a call has with an escaper constructed for its own charset. -/
def AppendCall.Fresh (c : AppendCall) (out : Bool × Str) : Prop :=
  ∃ sqlescape, c.run none = .ok (sqlescape, out)

/-- The charset of the first call of the process that escapes. -/
def first_charset (calls : List AppendCall) : Option Charset :=
  (calls.find? (·.need_escape)).map (·.charset)

theorem append_calls_cons {sqlescape : Option SqlEscape} {c : AppendCall}
    {calls : List AppendCall} {outs : List (Bool × Str)}
    (h : append_calls sqlescape (c :: calls) = .ok outs) :
    ∃ after out rest, c.run sqlescape = .ok (after, out) ∧
      append_calls after calls = .ok rest ∧ outs = out :: rest := by
  simp only [append_calls, bind, Except.bind, pure, Except.pure] at h
  rcases hc : c.run sqlescape with fault | ⟨after, out⟩
  · simp [hc] at h
  · simp only [hc] at h
    rcases hr : append_calls after calls with fault | rest
    · simp [hr] at h
    · simp only [hr] at h
      exact ⟨after, out, rest, rfl, hr, (Except.ok.inj h).symm⟩

theorem quoted_injective (need_quote : Bool) {a b : Str}
    (h : quoted need_quote a = quoted need_quote b) : a = b := by
  cases need_quote with
  | false => exact h
  | true => exact List.append_cancel_left (List.append_cancel_right h)

/-- A call that does not escape leaves the static alone and has its fresh output. -/
theorem AppendCall.run_raw {sqlescape after : Option SqlEscape} {c : AppendCall}
    {out : Bool × Str} (hc : c.need_escape = false)
    (h : c.run sqlescape = .ok (after, out)) : after = sqlescape ∧ c.Fresh out := by
  unfold AppendCall.run at h
  rw [hc, append_sql_raw] at h
  obtain ⟨rfl, rfl⟩ : sqlescape = after ∧
      (true, c.sql ++ quoted c.need_quote c.val) = out := by simpa using h
  refine ⟨rfl, none, ?_⟩
  unfold AppendCall.run
  rw [hc, append_sql_raw]

/-- An escaping call with the escaper of `cs` in the static. -/
theorem AppendCall.run_escape_iff {sqlescape : Option SqlEscape} {cs : Charset} {c : AppendCall}
    (hc : c.need_escape = true)
    (he : SqlEscape.instance_ sqlescape c.charset.name = .ok cs.escaper)
    (after : Option SqlEscape) (out : Bool × Str) :
    c.run sqlescape = .ok (after, out) ↔
      after = some cs.escaper ∧ append_escaped c.env cs c.sql c.val c.need_quote = .ok out := by
  unfold AppendCall.run
  rw [hc, append_sql_escape he]
  rcases append_escaped c.env cs c.sql c.val c.need_quote with fault | out'
  · simp [Except.map]
  · simp [Except.map, eq_comm]

theorem AppendCall.fresh_iff {c : AppendCall} (hc : c.need_escape = true) (out : Bool × Str) :
    c.Fresh out ↔ append_escaped c.env c.charset c.sql c.val c.need_quote = .ok out := by
  unfold AppendCall.Fresh
  simp only [AppendCall.run_escape_iff hc (instance_none c.charset)]
  exact ⟨fun ⟨_, _, h⟩ => h, fun h => ⟨_, rfl, h⟩⟩

/-- Two charsets give a call one output when it has no buffer to write to, or when
they write its value alike, and only then. -/
theorem append_escaped_iff {env : Env} {cs cs' : Charset} {sql val : Str} {need_quote : Bool}
    {out : Bool × Str} (h : append_escaped env cs sql val need_quote = .ok out) :
    append_escaped env cs' sql val need_quote = .ok out ↔
      AllocFails env val ∨ cs.text val = cs'.text val := by
  by_cases hfail : AllocFails env val
  · have halike : append_escaped env cs' sql val need_quote
        = append_escaped env cs sql val need_quote := by
      simp [append_escaped, hfail]
    simp [halike, h, hfail]
  · obtain ⟨ok, text⟩ := out
    have hok : ok = true := by
      unfold append_escaped at h
      rw [if_neg hfail] at h
      split at h
      · exact (Prod.mk.inj (Except.ok.inj h)).1.symm
      · cases h
    subst hok
    obtain ⟨⟨-, hbuf⟩, rfl⟩ := (append_escaped_eq_true_iff env cs sql val need_quote text).mp h
    rw [append_escaped_eq_true_iff]
    constructor
    · rintro ⟨-, hout⟩
      exact .inr (quoted_injective need_quote (List.append_cancel_left hout))
    · rintro (hno | htext)
      · exact absurd hno hfail
      · rw [htext] at hbuf ⊢
        exact ⟨⟨hfail, hbuf⟩, rfl⟩

/-- Once the static is set, every later escaping call is measured against it. -/
theorem append_calls_set_iff (cs : Charset) (calls : List AppendCall)
    (outs : List (Bool × Str)) (h : append_calls (some cs.escaper) calls = .ok outs) :
    List.Forall₂ AppendCall.Fresh calls outs ↔
      ∀ c ∈ calls, c.need_escape = true →
        AllocFails c.env c.val ∨ cs.text c.val = c.charset.text c.val := by
  induction calls generalizing outs with
  | nil =>
    obtain rfl : outs = [] := by simpa [append_calls, pure, Except.pure, eq_comm] using h
    simp
  | cons c calls ih =>
    obtain ⟨after, out, rest, hrun, hrest, rfl⟩ := append_calls_cons h
    rw [List.forall₂_cons, List.forall_mem_cons]
    cases hc : c.need_escape with
    | false =>
      obtain ⟨rfl, hfresh⟩ := AppendCall.run_raw hc hrun
      rw [ih rest hrest]
      simp [hfresh]
    | true =>
      have he : SqlEscape.instance_ (some cs.escaper) c.charset.name = .ok cs.escaper := rfl
      obtain ⟨rfl, hout⟩ := (AppendCall.run_escape_iff hc he after out).mp hrun
      rw [ih rest hrest, AppendCall.fresh_iff hc, append_escaped_iff hout]
      simp

/-- Every output of a process is the fresh one exactly when each escaping call has
the charset of the first one, or a value that both charsets write alike, or fails
before it writes. -/
theorem append_calls_alike_iff (calls : List AppendCall) (outs : List (Bool × Str))
    (h : append_calls none calls = .ok outs) :
    List.Forall₂ AppendCall.Fresh calls outs ↔
      ∀ cs, first_charset calls = some cs → ∀ c ∈ calls, c.need_escape = true →
        c.charset = cs ∨ AllocFails c.env c.val ∨ cs.text c.val = c.charset.text c.val := by
  have hor : ∀ (cs : Charset) (c : AppendCall),
      (c.charset = cs ∨ AllocFails c.env c.val ∨ cs.text c.val = c.charset.text c.val) ↔
        AllocFails c.env c.val ∨ cs.text c.val = c.charset.text c.val := by
    intro cs c
    exact ⟨fun ho => ho.elim (fun hcs => .inr (by rw [hcs])) id, .inr⟩
  simp only [hor]
  induction calls generalizing outs with
  | nil =>
    obtain rfl : outs = [] := by simpa [append_calls, pure, Except.pure, eq_comm] using h
    simp
  | cons c calls ih =>
    obtain ⟨after, out, rest, hrun, hrest, rfl⟩ := append_calls_cons h
    rw [List.forall₂_cons]
    cases hc : c.need_escape with
    | false =>
      obtain ⟨rfl, hfresh⟩ := AppendCall.run_raw hc hrun
      have hrest' := ih rest hrest
      simp only [first_charset] at hrest'
      simp [first_charset, hfresh, hc, hrest']
    | true =>
      -- the first escaping call: it sets the static to its own charset
      obtain ⟨rfl, -⟩ := (AppendCall.run_escape_iff hc (instance_none c.charset) after out).mp hrun
      have hfresh : c.Fresh out := ⟨_, hrun⟩
      rw [append_calls_set_iff c.charset calls rest hrest]
      simp [first_charset, hfresh, hc]

/-! ## Mixed charsets

The value `0xbf 0x27` tells the charsets apart: for UTF8 the first byte is a
stray one and only the quote is escaped, for GBK it is a head and escaped too. -/

def injection : Str := [0xbf, 0x27]

theorem text_injection {cs cs' : Charset} (h : cs.text injection = cs'.text injection) :
    cs = cs' := by
  cases cs <;> cases cs' <;> first | rfl | exact absurd h (by decide)

def injection_call (env : Env) (cs : Charset) : AppendCall := ⟨cs, [], injection, true, true, env⟩

theorem hasRoom_injection (env : Env) (cs : Charset) : HasRoom env cs injection :=
  hasRoom_of_length_le env cs (by decide)

/-- The calls that append this value all return, whatever the static holds. -/
theorem append_calls_injection (env : Env) (css : List Charset) (sqlescape : Option SqlEscape)
    (h : sqlescape = none ∨ ∃ cs : Charset, sqlescape = some cs.escaper) :
    ∃ outs, append_calls sqlescape (css.map (injection_call env)) = .ok outs := by
  induction css generalizing sqlescape with
  | nil => exact ⟨[], rfl⟩
  | cons c css ih =>
    have hescape : (injection_call env c).need_escape = true := rfl
    obtain ⟨cs, he⟩ : ∃ cs : Charset,
        SqlEscape.instance_ sqlescape (injection_call env c).charset.name = .ok cs.escaper := by
      rcases h with rfl | ⟨cs, rfl⟩
      · exact ⟨c, instance_none c⟩
      · exact ⟨cs, rfl⟩
    obtain ⟨out, hrun⟩ : ∃ out, (injection_call env c).run sqlescape =
        .ok (some cs.escaper, true, out) :=
      ⟨_, (AppendCall.run_escape_iff hescape he _ _).mpr
        ⟨rfl, (append_escaped_eq_true_iff env cs [] injection true _).mpr
          ⟨hasRoom_injection env cs, rfl⟩⟩⟩
    obtain ⟨outs, houts⟩ := ih (some cs.escaper) (.inr ⟨cs, rfl⟩)
    refine ⟨(true, out) :: outs, ?_⟩
    rw [List.map_cons, append_calls]
    simp only [hrun, houts, bind, Except.bind, pure, Except.pure]

theorem first_charset_of_escaping {calls : List AppendCall}
    (h : ∀ c ∈ calls, c.need_escape = true) :
    first_charset calls = (calls.map (·.charset)).head? := by
  cases calls with
  | nil => rfl
  | cons c calls => simp [first_charset, h c List.mem_cons_self]

/-- For the charsets of the calls alone, whatever the values: the builders stay
apart exactly when there is only one charset. -/
theorem append_calls_charsets_iff (css : List Charset) :
    (∀ calls outs, calls.map AppendCall.charset = css → (∀ c ∈ calls, c.need_escape = true) →
        append_calls none calls = .ok outs → List.Forall₂ AppendCall.Fresh calls outs) ↔
      ∀ cs ∈ css, css.head? = some cs := by
  constructor
  · intro h cs hcs
    let env : Env := ⟨true, fun _ => true⟩
    have hmap : (css.map (injection_call env)).map AppendCall.charset = css := by
      rw [List.map_map]
      exact List.map_id css
    have hesc : ∀ c ∈ css.map (injection_call env), c.need_escape = true := by
      intro c hc
      obtain ⟨_, -, rfl⟩ := List.mem_map.mp hc
      rfl
    obtain ⟨outs, houts⟩ := append_calls_injection env css none (.inl rfl)
    have hfresh := h _ outs hmap hesc houts
    rw [append_calls_alike_iff _ outs houts, first_charset_of_escaping hesc, hmap] at hfresh
    obtain ⟨cs₀, hcs₀⟩ : ∃ cs₀, css.head? = some cs₀ := by
      cases css with
      | nil => exact absurd hcs List.not_mem_nil
      | cons c css => exact ⟨c, rfl⟩
    rcases hfresh cs₀ hcs₀ (injection_call env cs) (List.mem_map_of_mem hcs) rfl with
      heq | hfail | htext
    · rw [hcs₀, ← heq]
      rfl
    · exact absurd hfail (hasRoom_injection env cs).1
    · rw [hcs₀, text_injection htext]
      rfl
  · intro h calls outs hmap hesc hrun
    rw [append_calls_alike_iff calls outs hrun, first_charset_of_escaping hesc, hmap]
    intro cs hcs c hc _
    have hmem : c.charset ∈ css := hmap ▸ List.mem_map_of_mem hc
    exact .inl (Option.some.inj ((h _ hmem).symm.trans hcs))

/-- A text of 7-bit bytes is written alike by every charset. -/
theorem text_ascii {val : Str} (h : ∀ b ∈ val, b < 128) (cs cs' : Charset) :
    cs.text val = cs'.text val := by
  have hplain : ∀ cs : Charset, cs.text val
      = val.flatMap fun b => (letters.letter b).elim [b] fun x => [92, x] := by
    intro cs
    rw [cs.text_eq]
    induction val with
    | nil => exact SqlLiteral.escape_nil _ _
    | cons b val ih =>
      have hl := SqlLiteral.lead_eq_false cs.reader (h b List.mem_cons_self)
      rw [SqlLiteral.escape_single _ _ (SqlLiteral.charlen_eq_zero _ hl val),
        ih fun b hb => h b (List.mem_cons_of_mem _ hb), List.flatMap_cons,
        SqlLiteral.escape_byte, hl]
      cases letters.letter b <;> rfl
  rw [hplain cs, hplain cs']

/-- **Which histories keep the builders apart.** Call by call: every output is
the fresh one exactly when each escaping call has the charset of the first one, or
a value that both charsets write alike, or fails before it writes. For the charsets
alone, with any values: exactly when all calls have one charset. -/
theorem append_calls_fresh_iff (calls : List AppendCall) (outs : List (Bool × Str))
    (css : List Charset) (h : append_calls none calls = .ok outs) :
    (List.Forall₂ AppendCall.Fresh calls outs ↔
      ∀ cs, first_charset calls = some cs → ∀ c ∈ calls, c.need_escape = true →
        c.charset = cs ∨ AllocFails c.env c.val ∨ cs.text c.val = c.charset.text c.val) ∧
    ((∀ calls outs, calls.map AppendCall.charset = css → (∀ c ∈ calls, c.need_escape = true) →
        append_calls none calls = .ok outs → List.Forall₂ AppendCall.Fresh calls outs) ↔
      ∀ cs ∈ css, css.head? = some cs) :=
  ⟨append_calls_alike_iff calls outs h, append_calls_charsets_iff css⟩

/-- Two builders with one charset: the second call is right, too. -/
theorem append_calls_fresh_iff_gbk :
    List.Forall₂ AppendCall.Fresh
      [⟨.GBK, [], lit "a", true, true, ⟨true, fun _ => true⟩⟩,
        injection_call ⟨true, fun _ => true⟩ .GBK]
      [(true, lit "'a'"), (true, [0x27, 0x5c, 0xbf, 0x5c, 0x27, 0x27])] := by
  refine (append_calls_fresh_iff _ _ [.GBK, .GBK] (by decide)).1.mpr ?_
  intro cs hcs c hc _
  obtain rfl : Charset.GBK = cs := Option.some.inj hcs
  rcases List.mem_pair.mp hc with rfl | rfl <;> exact .inl rfl

/-- A UTF8 builder runs first; the GBK builder behind it writes the head byte
unescaped in front of `\'`, where its own escaper writes `\` before both. -/
theorem append_calls_utf8_then_gbk :
    append_calls none
        [⟨.UTF8, [], lit "a", true, true, ⟨true, fun _ => true⟩⟩,
          injection_call ⟨true, fun _ => true⟩ .GBK]
      = .ok [(true, lit "'a'"), (true, [0x27, 0xbf, 0x5c, 0x27, 0x27])] ∧
    ¬ (injection_call ⟨true, fun _ => true⟩ .GBK).Fresh
        (true, [0x27, 0xbf, 0x5c, 0x27, 0x27]) := by
  refine ⟨by decide, ?_⟩
  rintro ⟨sqlescape, h⟩
  have hown : (injection_call ⟨true, fun _ => true⟩ .GBK).run none
      = .ok (some SqlEscape.gbk, true, [0x27, 0x5c, 0xbf, 0x5c, 0x27, 0x27]) := rfl
  rw [hown] at h
  have htext : ([0x27, 0x5c, 0xbf, 0x5c, 0x27, 0x27] : Str) = [0x27, 0xbf, 0x5c, 0x27, 0x27] :=
    congrArg (fun r => r.2.2) (Except.ok.inj h)
  exact absurd htext (by decide)

end Rellaf.Sql
