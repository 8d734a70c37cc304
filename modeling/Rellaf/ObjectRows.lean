/-
An object that is stored by one statement and selected by another.

The statement of an `INSERT` is taken apart again by its pattern: what stands where the
placeholders are is the row that it stores (`read_row`). The cells are the texts of the
object's members, whatever bytes the strings have (`read_row_values`). A row of these cells
gives a new object the values of the first one (`object_comes_back`), where the members are
numbers, characters or strings without a zero byte.
-/
import Rellaf.MysqlRows
import Rellaf.PathValues
import Rellaf.SelectList
import Rellaf.StatementTokens

set_option autoImplicit false

open Rellaf.Cpp Rellaf.Models Rellaf.MysqlEscape Rellaf.SqlPattern

open SqlLiteral (Token scan join join_string other_quote)

namespace Rellaf.Sql

/-! ## The row of a statement -/

/-- A byte of a number in a statement. -/
def number_byte (b : UInt8) : Bool := b = 45 || Decimal.is_digit b

/-- The bytes of a number in front of the tokens. -/
def read_number : List Token → Str × List Token
  | .byte b :: toks =>
    if number_byte b then (b :: (read_number toks).1, (read_number toks).2)
    else ([], .byte b :: toks)
  | toks => ([], toks)

/-- A value in front of the tokens. -/
def read_cell : List Token → Str × List Token
  | .string val :: toks => (val, toks)
  | toks => read_number toks

/-- The cells of the row that the tokens of a statement store, by the pattern: a literal or a
number for each placeholder. -/
def read_row (cs : Charset) : List Stub → List Token → Option (List Str)
  | [], toks => if toks.isEmpty then some [] else none
  | stub :: stubs, toks =>
    if stub.type = .LITERAL then
      if ((StubValue.LITERAL stub.value).tokens cs).isPrefixOf toks then
        read_row cs stubs (toks.drop ((StubValue.LITERAL stub.value).tokens cs).length)
      else none
    else (read_row cs stubs (read_cell toks).2).map ((read_cell toks).1 :: ·)

/-- The cells of a value. -/
def StubValue.cells : StubValue → List Str
  | .LITERAL _ => []
  | .FIELD val _ _ => [val]
  | .LIST vals => vals

/-- A value that a row can have for a stub. -/
inductive RowValue : Stub → StubValue → Prop where
  | literal (text : Str) : RowValue ⟨.LITERAL, text⟩ (.LITERAL text)
  | quoted (name val : Str) (need_escape : Bool) :
      RowValue ⟨.FIELD, name⟩ (.FIELD val true need_escape)
  | number (name : Str) (z : Int) (need_escape : Bool) :
      RowValue ⟨.FIELD, name⟩ (.FIELD (Decimal.print z) false need_escape)

theorem print_number (z : Int) :
    Decimal.print z ≠ [] ∧ ∀ b ∈ Decimal.print z, number_byte b = true := by
  obtain ⟨hne, hbytes⟩ := Decimal.print_bytes z
  refine ⟨hne, fun b hb => ?_⟩
  rw [number_byte, Bool.or_eq_true, decide_eq_true_eq]
  exact hbytes b hb

/-- The cut of a statement sees nothing in a digit. -/
theorem digit_bare {b : UInt8} (h : Decimal.is_digit b = true) :
    b < 128 ∧ (b ≠ 39 ∧ b ≠ 44 ∧ b ≠ 45 ∧ b ≠ 47) ∧ other_quote b = false := by
  obtain ⟨hlow, hhigh⟩ := Decimal.is_digit_iff.mp h
  have hne : ∀ c : UInt8, c < 48 ∨ 57 < c → b ≠ c := by
    rintro c hc rfl
    rcases hc with hc | hc
    · exact UInt8.not_lt.mpr hlow hc
    · exact UInt8.not_lt.mpr hhigh hc
  refine ⟨UInt8.lt_of_le_of_lt hhigh (by decide), ⟨hne 39 (by decide), hne 44 (by decide),
    hne 45 (by decide), hne 47 (by decide)⟩, ?_⟩
  simp [other_quote, hne 34 (by decide), hne 96 (by decide), hne 35 (by decide)]

theorem plain_digits {ds : Str} (h : ds.all Decimal.is_digit = true) :
    SqlLiteral.plain ds = true := by
  induction ds with
  | nil => rfl
  | cons b ds ih =>
    rw [List.all_cons, Bool.and_eq_true] at h
    obtain ⟨-, ⟨hquote, -, hdash, hslash⟩, hother⟩ := digit_bare h.1
    rw [SqlLiteral.plain, ih h.2, hother]
    simp [SqlLiteral.comment, hquote, hdash, hslash]

/-- The minus sign has a digit behind it, and so it is no comment. -/
theorem print_bare (z : Int) : Bare (Decimal.print z) := by
  obtain ⟨n, hprint⟩ := Decimal.print_eq z
  have hdigits := Decimal.digits_all n
  obtain ⟨b, ds, hcons⟩ := List.exists_cons_of_ne_nil (Decimal.digits_ne_nil n)
  have hb : Decimal.is_digit b = true := by
    rw [hcons, List.all_cons, Bool.and_eq_true] at hdigits
    exact hdigits.1
  have hplain : SqlLiteral.plain (45 :: Decimal.digits n) = true := by
    have hdash : SqlLiteral.dash (b :: ds) = false := by
      have hne : b ≠ 45 := (digit_bare hb).2.1.2.2.1
      cases ds <;> simp [SqlLiteral.dash, hne]
    rw [SqlLiteral.plain, plain_digits hdigits, hcons, SqlLiteral.comment, hdash]
    rfl
  have hfirm : ∀ s : Str, SqlLiteral.Firm (s ++ Decimal.digits n) := by
    intro s
    obtain ⟨ds', c, hconcat⟩ := (List.eq_nil_or_concat (Decimal.digits n)).resolve_left
      (Decimal.digits_ne_nil n)
    have hc : Decimal.is_digit c = true := by
      refine List.all_eq_true.mp hdigits c ?_
      rw [hconcat, List.concat_eq_append]
      exact List.mem_append_right _ List.mem_cons_self
    obtain ⟨-, ⟨-, hcomma, hdash, hslash⟩, -⟩ := digit_bare hc
    rw [hconcat, List.concat_eq_append, ← List.append_assoc]
    exact SqlLiteral.firm_concat hcomma hdash hslash
  have hascii : ∀ b ∈ Decimal.print z, b < 128 := by
    intro b hb
    rcases (Decimal.print_bytes z).2 b hb with rfl | hb
    · decide
    · exact (digit_bare hb).1
  rcases hprint with hprint | hprint
  · exact ⟨hascii, hprint ▸ plain_digits hdigits, hprint ▸ hfirm []⟩
  · exact ⟨hascii, hprint ▸ hplain, hprint ▸ hfirm [45]⟩

/-- Behind a placeholder the pattern does not go on with a byte of a number. -/
def Parted (stubs : List Stub) : Prop :=
  stubs.IsChain fun a b => a.type = .LITERAL ∨ ∀ c ∈ b.value.head?, number_byte c = false

theorem read_number_append {val : Str} (hval : ∀ b ∈ val, number_byte b = true)
    {toks : List Token} (htoks : ∀ b, toks.head? = some (.byte b) → number_byte b = false) :
    read_number (val.map .byte ++ toks) = (val, toks) := by
  induction val with
  | nil =>
    rw [List.map_nil, List.nil_append]
    cases toks with
    | nil => rfl
    | cons tok toks =>
      cases tok with
      | string v => rfl
      | byte b => rw [read_number, htoks b rfl, if_neg Bool.false_ne_true]
  | cons b val ih =>
    rw [List.map_cons, List.cons_append, read_number, if_pos (hval b List.mem_cons_self),
      ih fun c hc => hval c (List.mem_cons_of_mem b hc)]

/-- The tokens of a text begin with its first byte, or with a literal. -/
theorem scan_head {cs : SqlLiteral.Charset} {b : UInt8} {s : Str} {toks : List Token}
    (h : scan cs (b :: s) = some toks) :
    ∃ tok, toks.head? = some tok ∧ (tok = .byte b ∨ ∃ v, tok = .string v) := by
  rw [scan] at h
  split at h
  next hlen =>
    split at h
    next hc =>
      split at h
      · cases h
      · obtain ⟨toks', -, rfl⟩ := Option.map_eq_some_iff.mp h
        exact ⟨_, rfl, .inr ⟨_, rfl⟩⟩
    next hc =>
      split at h
      · cases h
      · obtain ⟨toks', -, rfl⟩ := Option.map_eq_some_iff.mp h
        exact ⟨_, rfl, .inl rfl⟩
  next hlen =>
    obtain ⟨toks', -, rfl⟩ := Option.map_eq_some_iff.mp h
    obtain ⟨n, hn⟩ := Nat.exists_eq_succ_of_ne_zero hlen
    rw [hn, List.take_succ_cons]
    exact ⟨_, rfl, .inl rfl⟩

/-- And so do the tokens of a literal of the pattern. -/
theorem tokens_literal_head {cs : Charset} {b : UInt8} {s : Str}
    (h : (scan cs.reader (b :: s)).isSome = true) (toks : List Token) (c : UInt8)
    (hhead : ((StubValue.LITERAL (b :: s)).tokens cs ++ toks).head? = some (.byte c)) : c = b := by
  obtain ⟨scanned, hscan⟩ := Option.isSome_iff_exists.mp h
  obtain ⟨tok, htok, hkind⟩ := scan_head hscan
  obtain ⟨scanned', rfl⟩ := List.head?_eq_some_iff.mp htok
  rw [StubValue.tokens, SqlLiteral.tokens, hscan, Option.map_some, Option.getD_some] at hhead
  rcases hkind with rfl | ⟨v, rfl⟩
  · cases hhead
    rfl
  · rw [join_string] at hhead
    cases hjoin : join scanned' with
    | nil => rw [hjoin] at hhead; cases hhead
    | cons tok' toks' => rw [hjoin] at hhead; cases tok' <;> cases hhead

theorem read_cell_number {val : Str} (hne : val ≠ []) (hval : ∀ b ∈ val, number_byte b = true)
    {toks : List Token} (htoks : ∀ b, toks.head? = some (.byte b) → number_byte b = false) :
    read_cell (val.map .byte ++ toks) = (val, toks) := by
  rw [← read_number_append hval htoks]
  obtain ⟨b, val', rfl⟩ := List.exists_cons_of_ne_nil hne
  rfl

/-- **The row of a statement.** -/
theorem read_row_values {cs : Charset} {stubs : List Stub} {values : List StubValue}
    (hvalues : List.Forall₂ RowValue stubs values) (hspaced : Spaced cs stubs)
    (hparted : Parted stubs) :
    read_row cs stubs (values.flatMap (StubValue.tokens cs)) =
      some (values.flatMap StubValue.cells) := by
  induction hvalues with
  | nil => rfl
  | @cons stub value stubs values hvalue hvalues ih =>
    have hrest := ih ⟨fun s hs => hspaced.text s (List.mem_cons_of_mem _ hs), hspaced.apart.tail⟩
      hparted.tail
    have hcell : ∀ val, stub.type = .FIELD → value.cells = [val] →
        read_cell (value.tokens cs ++ values.flatMap (StubValue.tokens cs)) =
          (val, values.flatMap (StubValue.tokens cs)) →
        read_row cs (stub :: stubs) ((value :: values).flatMap (StubValue.tokens cs)) =
          some ((value :: values).flatMap StubValue.cells) := by
      intro val htype hcells hread
      have hfield : ¬ stub.type = .LITERAL := by rw [htype]; decide
      rw [List.flatMap_cons, List.flatMap_cons, read_row, if_neg hfield, hread, hrest, hcells]
      rfl
    cases hvalue with
    | literal text =>
      rw [List.flatMap_cons, List.flatMap_cons, read_row, if_pos rfl, if_pos (by simp),
        List.drop_left, hrest]
      rfl
    | quoted name val need_escape => exact hcell val rfl rfl rfl
    | number name z need_escape =>
      obtain ⟨hne, hbytes⟩ := print_number z
      refine hcell _ rfl rfl (read_cell_number hne hbytes fun c hc => ?_)
      -- behind the number stands a literal of the pattern
      cases hvalues with
      | nil => cases hc
      | @cons stub' value' stubs values hvalue' hvalues =>
        have hapart := (List.isChain_cons_cons.mp hspaced.apart).1
        have htext := hspaced.text stub' (List.mem_cons_of_mem _ List.mem_cons_self)
        have hbyte := (List.isChain_cons_cons.mp hparted).1
        cases hvalue' with
        | literal text =>
          obtain ⟨hne', -, -, hscan⟩ := htext rfl
          obtain ⟨b, text', rfl⟩ := List.exists_cons_of_ne_nil hne'
          rw [List.flatMap_cons] at hc
          obtain rfl := tokens_literal_head hscan _ c hc
          exact hbyte.resolve_left (by rintro ⟨⟩) c rfl
        | quoted => cases hapart
        | number => cases hapart

/-! ## The values of an object -/

/-- The types that `get_plain_val_str` asks quotes for. -/
def in_quotes : PlainVal → Bool
  | .CHAR _ | .STR _ => true
  | _ => false

/-- A value that comes back from a cell. -/
def Stored : PlainVal → Prop
  | .STR v => (0 : UInt8) ∉ v
  | .FLOAT _ | .DOUBLE _ => False
  | _ => True

/-- The names of the placeholders. -/
def names (stubs : List Stub) : List Str :=
  (stubs.filter fun stub => stub.type ≠ .LITERAL).map Stub.value

variable (calls : Brpc.Calls)

/-- The cell of a member. -/
def cell (plains : List (Str × Plain)) (name : Str) : Str :=
  ((plains.lookup name).map fun p => Brpc.type_detect_str calls p.val).getD []

/-- The placeholders of the pattern are members with values that come back, and texts as
`TypeDetect` makes them. -/
structure Storable (clazz : Clazz) (plains : List (Str × Plain)) (stubs : List Stub) : Prop where
  keys : clazz.plain_names.map Prod.fst = plains.map Prod.fst
  field : ∀ stub ∈ stubs, stub.type = .LITERAL ∨
    stub.type = .FIELD ∧ split_section stub.value = [stub.value] ∧
      ∃ p, plains.lookup stub.value = some p ∧ p.type = p.val.kind ∧
        p.str_func = some (Brpc.type_detect_str calls) ∧ Stored p.val

/-- The text of a value without quotes is a number. -/
theorem Stored.text {v : PlainVal} (h : Stored v) (hquoted : in_quotes v = false) :
    ∃ z, Brpc.type_detect_str calls v = Decimal.print z := by
  cases v with
  | CHAR v => cases hquoted
  | STR v => cases hquoted
  | FLOAT v => exact h.elim
  | DOUBLE v => exact h.elim
  | UINT16 v => exact ⟨v.toNat, rfl⟩
  | UINT32 v => exact ⟨v.toNat, rfl⟩
  | UINT64 v => exact ⟨v.toNat, rfl⟩
  | _ => exact ⟨_, rfl⟩

/-- The value is read back from what `fetch` gives of the text. -/
theorem Stored.cast {v w : PlainVal} (h : Stored v) (hkind : w.kind = v.kind) :
    Brpc.cast calls (cstr (Brpc.type_detect_str calls v)) w = v := by
  have hcast : Brpc.cast calls (Brpc.type_detect_str calls v) w = v := by
    refine Brpc.cast_type_detect_str calls hkind ?_ ?_
    · cases v <;> first | exact h.elim | simp [PlainVal.kind]
    · cases v <;> first | exact h.elim | simp [PlainVal.kind]
  by_cases hzero : (0 : UInt8) ∈ Brpc.type_detect_str calls v
  · cases hquotes : in_quotes v with
    | false =>
      obtain ⟨z, htext⟩ := h.text calls hquotes
      rw [htext] at hzero
      exact absurd ((print_number z).2 0 hzero) (by decide)
    | true =>
      cases v with
      | CHAR v =>
        -- the zero byte itself, of which an empty text is fetched
        obtain rfl := List.mem_singleton.mp hzero
        cases w <;> cases hkind
        rfl
      | STR v => exact absurd hzero h
      | _ => cases hquotes
  · rw [cstr_eq_self hzero, hcast]

variable {calls} in
theorem Storable.lookup {clazz : Clazz} {plains : List (Str × Plain)} {stubs : List Stub}
    (h : Storable calls clazz plains stubs) {name : Str} (hname : name ∈ names stubs) :
    ∃ p, plains.lookup name = some p ∧ Stored p.val := by
  obtain ⟨stub, hstub, rfl⟩ := List.mem_map.mp hname
  obtain ⟨hmem, htype⟩ := List.mem_filter.mp hstub
  rcases h.field stub hmem with hliteral | ⟨-, -, p, hp, -, -, hstored⟩
  · rw [hliteral] at htype
    cases htype
  · exact ⟨p, hp, hstored⟩

section values

variable {tag : Str} {clazz : Clazz} {plains : List (Str × Plain)}
  {lists : List (Str × List Model)} {objects : List (Str × Model)}

theorem get_plain_val_member {name : Str} {p : Plain}
    (hclazz : (clazz.plain_names.lookup name).isSome = true) (hp : plains.lookup name = some p)
    (htype : p.type = p.val.kind) :
    get_plain_val (.object tag clazz plains lists objects) [name] =
      .ok (some (p.str, in_quotes p.val, in_quotes p.val)) := by
  have hstr : get_plain_val_str (.plain p) =
      .ok (some (p.str, in_quotes p.val, in_quotes p.val)) := by
    rw [get_plain_val_str, Model.rellaf_type, run_ok_bind, htype]
    cases p.val <;> rfl
  have hplain : Model.is_plain (.plain p) = .ok true := by
    rw [Model.is_plain, Model.rellaf_type, run_ok_bind, htype]
    cases p.val <;> rfl
  have hget : (Model.object tag clazz plains lists objects).get_plain name = .ok (.plain p) :=
    Mysql.get_plain_object_iff.mpr ⟨hclazz, hp⟩
  have hmember : member (.object tag clazz plains lists objects) name = .ok (some (.plain p)) := by
    rw [member, Model.is_plain_member, run_ok_bind, hclazz, if_pos rfl, hget]
    rfl
  have hloop : get_plain_val_loop (.object tag clazz plains lists objects) [name] =
      get_plain_val_loop (.plain p) [] := by
    rw [get_plain_val_loop]
    show (member (.object tag clazz plains lists objects) name >>= _) = _
    rw [hmember]
    rfl
  have hend : get_plain_val_loop (.plain p) [] = get_plain_val_str (.plain p) := by
    rw [get_plain_val_loop, hplain]
    rfl
  show get_plain_val_loop (.object tag clazz plains lists objects) [name] = _
  rw [hloop, hend, hstr]

/-- One argument is the only one in the map. -/
theorem stub_model_single {m : Model} {sections : List Str} (hsections : sections ≠ []) :
    stub_model (Std.ExtTreeMap.insertIfNew {} tag m) false sections =
      .ok (some (m, sections)) := by
  have hmem : (tag, m) ∈
      (Std.ExtTreeMap.insertIfNew ({} : Std.ExtTreeMap Str Model) tag m).toList := by
    rw [Std.ExtTreeMap.mem_toList_iff_getElem?_eq_some, Std.ExtTreeMap.getElem?_insertIfNew]
    simp
  have hlen :
      (Std.ExtTreeMap.insertIfNew ({} : Std.ExtTreeMap Str Model) tag m).toList.length = 1 := by
    rw [Std.ExtTreeMap.length_toList, Std.ExtTreeMap.size_insertIfNew]
    simp
  obtain ⟨entry, hentry⟩ := List.length_eq_one_iff.mp hlen
  rw [hentry, List.mem_singleton] at hmem
  subst hmem
  have hnonempty :
      (Std.ExtTreeMap.insertIfNew ({} : Std.ExtTreeMap Str Model) tag m).isEmpty = false := by
    simp
  have hsections' : sections.isEmpty = false := by simpa using hsections
  rw [stub_model, hsections', hnonempty, hentry]
  rfl

theorem stub_value_row {env : Env} {stubs : List Stub} (h : Storable calls clazz plains stubs)
    {stub : Stub} (hstub : stub ∈ stubs) {value : StubValue}
    (hvalue : stub_value env
      (Std.ExtTreeMap.insertIfNew {} tag (.object tag clazz plains lists objects)) false stub =
        .ok (some value)) :
    RowValue stub value ∧ value.cells = (names [stub]).map (cell calls plains) := by
  obtain ⟨type, text⟩ := stub
  rw [stub_value] at hvalue
  rcases h.field _ hstub with htype | ⟨htype, hsection, p, hp, hkind, hstr, hstored⟩
  · obtain rfl : type = .LITERAL := htype
    cases hvalue
    exact ⟨.literal text, rfl⟩
  · obtain rfl : type = .FIELD := htype
    dsimp only at hsection hp
    have hclazz : (clazz.plain_names.lookup text).isSome = true := by
      rw [← MemberMap.mem_keys_iff_lookup, h.keys, MemberMap.mem_keys_iff_lookup, hp]
      rfl
    have htext : p.str = Brpc.type_detect_str calls p.val := by
      rw [Plain.str, hstr]
    rw [if_neg (by rintro ⟨⟩), hsection, stub_model_single (List.cons_ne_nil _ _),
      run_ok_bind] at hvalue
    dsimp only at hvalue
    rw [if_pos rfl, get_plain_val_member hclazz hp hkind, run_ok_bind, htext] at hvalue
    cases hvalue
    refine ⟨?_, ?_⟩
    · cases hquotes : in_quotes p.val with
      | true => exact .quoted _ _ _
      | false =>
        obtain ⟨z, htext⟩ := hstored.text calls hquotes
        rw [htext]
        exact .number _ z _
    · show [_] = [cell calls plains text]
      rw [cell, hp]
      rfl

theorem names_cons (stub : Stub) (stubs : List Stub) :
    names (stub :: stubs) = names [stub] ++ names stubs := by
  rw [names, names, names, ← List.map_append, ← List.filter_append, List.singleton_append]

theorem values_row {env : Env} {stubs : List Stub} {values : List StubValue}
    (h : Storable calls clazz plains stubs)
    (hvalues : List.Forall₂ (fun stub value => stub_value env
      (Std.ExtTreeMap.insertIfNew {} tag (.object tag clazz plains lists objects)) false stub =
        .ok (some value)) stubs values) :
    List.Forall₂ RowValue stubs values ∧
      values.flatMap StubValue.cells = (names stubs).map (cell calls plains) := by
  induction hvalues with
  | nil => exact ⟨.nil, rfl⟩
  | @cons stub value stubs values hvalue hvalues ih =>
    obtain ⟨hrow, hcells⟩ := stub_value_row calls h List.mem_cons_self hvalue
    obtain ⟨hrows, hrest⟩ := ih ⟨h.keys, fun s hs => h.field s (List.mem_cons_of_mem _ hs)⟩
    refine ⟨.cons hrow hrows, ?_⟩
    rw [List.flatMap_cons, hcells, hrest, names_cons stub stubs, List.map_append]

/-- A statement without lists has the tokens of its values one after the other. -/
theorem statement_tokens_flatMap {cs : Charset} {stubs : List Stub} {values : List StubValue}
    (hvalues : List.Forall₂ RowValue stubs values) :
    statement_tokens cs values = values.flatMap (StubValue.tokens cs) := by
  have hwrite : ∀ {stub : Stub} {value : StubValue}, RowValue stub value → ∀ toks,
      write_tokens cs toks value = toks ++ value.tokens cs := by
    intro stub value hvalue toks
    cases hvalue <;> rfl
  have hfold : ∀ toks, values.foldl (write_tokens cs) toks =
      toks ++ values.flatMap (StubValue.tokens cs) := by
    induction hvalues with
    | nil => exact fun toks => (List.append_nil toks).symm
    | cons hvalue hvalues ih =>
      intro toks
      rw [List.foldl_cons, hwrite hvalue, ih, List.flatMap_cons, List.append_assoc]
  exact (hfold []).trans (List.nil_append _)

/-- **The statement of an object stores its members.** -/
theorem statement_row {env : Env} {b : SqlBuilder} {sqlescape after : Option SqlEscape}
    {method : Str} {stubs : List Stub} {sql : Str} (hstubs : b._pices[method]? = some stubs)
    (hspaced : Spaced b._charset stubs) (hparted : Parted stubs)
    (hstore : Storable calls clazz plains stubs)
    (hinst : sqlescape = none ∨ sqlescape = some b._charset.escaper)
    (hprepare : prepare_statement env b sqlescape method
      [.object tag clazz plains lists objects] = .ok (after, true, sql)) :
    (SqlLiteral.tokens b._charset.reader sql).bind (read_row b._charset stubs) =
      some ((names stubs).map (cell calls plains)) := by
  have hmodels : ∀ {models}, collect_models [.object tag clazz plains lists objects] {} =
      .ok models → models = Std.ExtTreeMap.insertIfNew {} tag
        (.object tag clazz plains lists objects) :=
    fun h => (Except.ok.inj h).symm
  have hbare : ∀ models, collect_models [.object tag clazz plains lists objects] {} = .ok models →
      ∀ stub ∈ stubs, ∀ val, stub_value env models false stub =
        .ok (some (.FIELD val false false)) → Bare val := by
    intro models hcollect stub hstub val hval
    rw [hmodels hcollect] at hval
    cases (stub_value_row calls hstore hstub hval).1 with
    | number name z need_escape => exact print_bare z
  obtain ⟨models, values, hcollect, hvalues, htokens⟩ :=
    prepared_tokens hstubs hspaced hinst hbare hprepare
  rw [hmodels hcollect] at hvalues
  obtain ⟨hrows, hcells⟩ := values_row calls hstore hvalues
  rw [htokens, Option.bind_some, statement_tokens_flatMap hrows,
    read_row_values hrows hspaced hparted, hcells]

end values

end Rellaf.Sql

namespace Rellaf.Mysql

open Sql MemberMap
open SelectList (no_calls)

/-! ## The row in another object -/

section rows

variable (calls : Brpc.Calls) {tag : Str} {clazz : Clazz} {plains : List (Str × Plain)}
  {lists : List (Str × List Model)} {objects : List (Str × Model)} {stubs : List Stub}

/-- What a row of the cells makes of an object of the class. -/
theorem to_model_cells {r : MyResult} {plains₀ : List (Str × Plain)}
    (h : Storable calls clazz plains stubs) (hnodup : (names stubs).Nodup)
    (hne : names stubs ≠ [])
    (hr : r.At ((names stubs).map fun name => (name, cell calls plains name)))
    (h₀ : Brpc.ReadByCast clazz plains₀)
    (hkinds : ∀ name ∈ names stubs, ∀ p p₀, plains.lookup name = some p →
      plains₀.lookup name = some p₀ → p₀.val.kind = p.val.kind) :
    ∃ plains', r.to_model (model_methods calls) (.object tag clazz plains₀ lists objects) =
        .ok (true, .object tag clazz plains' lists objects) ∧
      (∀ name ∈ names stubs,
        (plains'.lookup name).map Plain.val = (plains.lookup name).map Plain.val) ∧
      ∀ key ∉ names stubs, plains'.lookup key = plains₀.lookup key := by
  have hkeys : ((names stubs).map fun name => (name, cell calls plains name)).map Prod.fst =
      names stubs := by
    rw [List.map_map]
    exact List.map_id _
  -- each name is a member of the object
  have hmember : ∀ name ∈ names stubs, ∃ p₀, plains₀.lookup name = some p₀ ∧
      (clazz.plain_names.lookup name).isSome = true ∧ p₀.parse_func = none := by
    intro name hname
    obtain ⟨p, hp, -⟩ := h.lookup hname
    have hclazz : name ∈ clazz.plain_names.map Prod.fst := by
      rw [h.keys, mem_keys_iff_lookup, hp]
      rfl
    obtain ⟨p₀, hp₀⟩ := Option.isSome_iff_exists.mp
      (mem_keys_iff_lookup.mp (h₀.keys ▸ hclazz))
    exact ⟨p₀, hp₀, mem_keys_iff_lookup.mp hclazz, h₀.parse_func _ (mem_of_lookup hp₀)⟩
  have hwritable : Writable clazz plains₀
      ((names stubs).map fun name => (name, cell calls plains name)) := by
    intro col hcol
    obtain ⟨name, hname, rfl⟩ := List.mem_map.mp hcol
    obtain ⟨p₀, hp₀, hclazz, hparse⟩ := hmember name hname
    exact ⟨hclazz, p₀, hp₀, fun f hf => by rw [hparse] at hf; cases hf⟩
  obtain ⟨plains', hset, -, hframe, hvalue⟩ := set_columns_ok calls hwritable
  rw [hkeys] at hframe hvalue
  refine ⟨plains', ?_, fun name hname => ?_, hframe⟩
  · rw [hr.to_model_object calls (by simpa using hne)]
    exact hset
  · obtain ⟨p, hp, hstored⟩ := h.lookup hname
    obtain ⟨p₀, hp₀, -, hparse⟩ := hmember name hname
    have hcell : cell calls plains name = Brpc.type_detect_str calls p.val := by
      rw [cell, hp]
      rfl
    rw [hvalue hnodup name _ p₀ (List.mem_map.mpr ⟨name, hname, rfl⟩) hp₀ hparse, hp, hcell,
      Option.map_some, Option.map_some, hstored.cast calls (hkinds name hname p p₀ hp hp₀)]

end rows

/-! ## An insert and a select -/

/-- A `SqlExecutor` over the states of its database. -/
structure Executor (D : Type) where
  select : D → Str → Run (Option MyResult)
  execute : D → (sql : Str) → (key_id : UInt64) → Run (D × Int32 × UInt64)

variable {D : Type} (calls : Brpc.Calls)

/-- `execute_impl(method, key_id, nullptr, args...)`: the database, the static escaper, the
value returned and `key_id`. -/
def execute_impl (env : Sql.Env) (b : SqlBuilder) (executor : Option (Executor D)) (d : D)
    (sqlescape : Option SqlEscape) (method : Str) (key_id : UInt64) (args : List Model) :
    Run (D × Option SqlEscape × Int32 × UInt64) := do
  let (sqlescape, ok, sql) ← prepare_statement env b sqlescape method args
  if !ok then return (d, sqlescape, -1, key_id)
  else match executor with
    | none => return (d, sqlescape, 0, key_id)
    | some executor =>
      let (d, rows, key_id) ← executor.execute d sql key_id
      return (d, sqlescape, rows, key_id)

/-- A statement of the pattern that does not fail stores its row, and the query gives this
row first. -/
def Keeps (executor : Executor D) (cs : Charset) (stubs : List Stub) (query : Str) : Prop :=
  ∀ d sql key_id d' rows key_id' row, executor.execute d sql key_id = .ok (d', rows, key_id') →
    rows ≠ -1 → (SqlLiteral.tokens cs.reader sql).bind (read_row cs stubs) = some row →
    ∃ res set, executor.select d' query = .ok (some res) ∧ res.Reading set 0 ∧
      set.fields = names stubs ∧ set.rows[0]? = some (row.map some)

/-- **An object comes back.** One method stores an object and another one selects it: where
the first does not return -1, the second returns 1, and its object has the values of the
stored one in the members of the row, and in all others what it had. -/
theorem object_comes_back (env : Sql.Env) (b : SqlBuilder) (executor : Executor D) (d d' : D)
    (sqlescape after after' : Option SqlEscape) (insert get query : Str) (stubs : List Stub)
    (args : List Model) (key_id key_id' : UInt64) (rows : Int32) (tag tag₀ : Str) (clazz : Clazz)
    (plains plains₀ : List (Str × Plain)) (lists lists₀ : List (Str × List Model))
    (objects objects₀ : List (Str × Model)) (hstubs : b._pices[insert]? = some stubs)
    (hspaced : Spaced b._charset stubs) (hparted : Parted stubs) (hnodup : (names stubs).Nodup)
    (hinst : sqlescape = none ∨ sqlescape = some b._charset.escaper)
    (hstore : Storable calls clazz plains stubs) (h₀ : Brpc.ReadByCast clazz plains₀)
    (hkinds : ∀ name ∈ names stubs, ∀ p p₀, plains.lookup name = some p →
      plains₀.lookup name = some p₀ → p₀.val.kind = p.val.kind)
    (hkeeps : Keeps executor b._charset stubs query)
    (hinsert : execute_impl env b (some executor) d sqlescape insert key_id
      [.object tag clazz plains lists objects] = .ok (d', after, rows, key_id'))
    (hrows : rows ≠ -1)
    (hget : prepare_statement env b after get args = .ok (after', true, query)) :
    ∃ plains', select_impl (model_methods calls) env b (some (executor.select d')) after get args
        (.object tag₀ clazz plains₀ lists₀ objects₀) =
          .ok (after', 1, .object tag₀ clazz plains' lists₀ objects₀) ∧
      (∀ name ∈ names stubs,
        (plains'.lookup name).map Plain.val = (plains.lookup name).map Plain.val) ∧
      ∀ key ∉ names stubs, plains'.lookup key = plains₀.lookup key := by
  obtain ⟨⟨after₁, ok, sql⟩, hprepare, hinsert⟩ := run_bind_eq_ok.mp hinsert
  cases ok with
  | false =>
    cases hinsert
    exact absurd rfl hrows
  | true =>
    obtain ⟨⟨d₁, rows₁, key_id₁⟩, hexecute, hinsert⟩ := run_bind_eq_ok.mp hinsert
    cases hinsert
    obtain ⟨res, set, hselect, hres, hfields, hfirst⟩ := hkeeps d sql key_id d' rows key_id' _
      hexecute hrows (statement_row calls hstubs hspaced hparted hstore hinst hprepare)
    obtain ⟨res', hnext, hres', hrow'⟩ := hres.next_row hfirst
    have hat : res'.At ((names stubs).map fun name => (name, cell calls plains name)) := by
      refine ⟨?_, ?_⟩
      · rw [hres'.fields, hfields, List.map_map]
        exact (List.map_id _).symm
      · rw [hrow', List.map_map, List.map_map]
        rfl
    obtain ⟨plains', hmodel, hvalues, hframe⟩ :=
      @to_model_cells calls tag₀ clazz plains lists₀ objects₀ stubs res' plains₀ hstore hnodup
        (hfields ▸ set.fields_ne) hat h₀ hkinds
    refine ⟨plains', ?_, hvalues, hframe⟩
    have hreset : res'.reset = .ok .new := by
      rw [MyResult.reset, hres'.res]
      rfl
    simp only [select_impl, hget, run_ok_bind, hselect, hnext, hmodel, hreset]
    rfl

/-! ### One table -/

/-- A class with a number and a text. -/
def user (id : Int32) (name : Str) : List (Str × Plain) :=
  [(lit "id", ⟨[], .INT, .INT id, none, some (Brpc.type_detect_str no_calls)⟩),
    (lit "name", ⟨[], .STR, .STR name, none, some (Brpc.type_detect_str no_calls)⟩)]

def user_class : Clazz := ⟨lit "User", user 0 []⟩

def user_stubs : List Stub :=
  [⟨.LITERAL, lit "INSERT INTO user VALUES("⟩, ⟨.FIELD, lit "id"⟩, ⟨.LITERAL, lit ", "⟩,
    ⟨.FIELD, lit "name"⟩, ⟨.LITERAL, lit ")"⟩]

def user_builder : SqlBuilder :=
  ⟨.UTF8, {}, (Std.ExtTreeMap.insertIfNew {} (lit "put") user_stubs).insertIfNew (lit "get")
    [⟨.LITERAL, lit "SELECT id, name FROM user"⟩]⟩

/-- A table with the row that was stored last. -/
def user_table : Executor (Option (Str × Str)) where
  select d _ := .ok (d.map fun row =>
    ⟨0, .live ⟨[lit "id", lit "name"], [[some row.1, some row.2]], by decide, by simp⟩ 0, none,
      [lit "id", lit "name"]⟩)
  execute d sql key_id :=
    match (SqlLiteral.tokens utf8_charset sql).bind (read_row .UTF8 user_stubs) with
    | some [id, name] => .ok (some (id, name), 1, key_id)
    | _ => .ok (d, -1, key_id)

theorem user_table_keeps (query : Str) : Keeps user_table .UTF8 user_stubs query := by
  intro d sql key_id d' rows key_id' row hexecute hrows hrow
  have htable : user_table.execute d sql key_id = match some row with
      | some [id, name] => .ok (some (id, name), 1, key_id)
      | _ => .ok (d, -1, key_id) := by
    rw [← hrow]
    rfl
  rw [htable] at hexecute
  split at hexecute
  next id name heq =>
    obtain rfl := Option.some.inj heq
    cases hexecute
    exact ⟨_, _, rfl, ⟨rfl, rfl, rfl⟩, rfl, rfl⟩
  next =>
    cases hexecute
    exact absurd rfl hrows

theorem user_storable (id : Int32) (name : Str) (h : (0 : UInt8) ∉ name) :
    Storable no_calls user_class (user id name) user_stubs := by
  refine ⟨rfl, ?_⟩
  simp only [user_stubs, List.forall_mem_cons]
  exact ⟨.inl trivial, .inr ⟨trivial, rfl, _, rfl, rfl, rfl, trivial⟩, .inl trivial,
    .inr ⟨trivial, rfl, _, rfl, rfl, rfl, h⟩, .inl trivial, by rintro _ ⟨⟩⟩

/-- A name with a quote. -/
theorem object_comes_back_user : ∃ d' after,
    execute_impl ⟨true, fun _ => true⟩ user_builder (some user_table) none none (lit "put") 0
        [.object (lit "u") user_class (user 7 (lit "O'Hara")) [] []] = .ok (d', after, 1, 0) ∧
      ∃ after' plains', select_impl (model_methods no_calls) ⟨true, fun _ => true⟩ user_builder
          (some (user_table.select d')) after (lit "get") [.void []]
          (.object [] user_class (user 0 []) [] []) =
            .ok (after', 1, .object [] user_class plains' [] []) ∧
        (plains'.lookup (lit "name")).map Plain.val = some (.STR (lit "O'Hara")) := by
  have hspaced : Spaced .UTF8 user_stubs := by
    refine ⟨?_, by decide⟩
    simp only [user_stubs, List.forall_mem_cons]
    exact ⟨fun _ => Bare.text (by decide) (by decide), by rintro ⟨⟩,
      fun _ => Bare.text (by decide) (by decide), by rintro ⟨⟩,
      fun _ => Bare.text (by decide) (by decide), by rintro _ ⟨⟩⟩
  have hparted : Parted user_stubs := by
    refine .cons_cons (.inl rfl) (.cons_cons (.inr ?_) (.cons_cons (.inl rfl)
      (.cons_cons (.inr ?_) (.singleton _))))
    · rintro c ⟨⟩
      decide
    · rintro c ⟨⟩
      decide
  have hstore := user_storable 7 (lit "O'Hara") (by decide)
  obtain ⟨after, sql, hprepare⟩ : ∃ after sql, prepare_statement ⟨true, fun _ => true⟩ user_builder
      none (lit "put") [.object (lit "u") user_class (user 7 (lit "O'Hara")) [] []] =
        .ok (after, true, sql) := ⟨_, _, rfl⟩
  have hrow : (SqlLiteral.tokens utf8_charset sql).bind (read_row .UTF8 user_stubs) =
      some [lit "7", lit "O'Hara"] :=
    statement_row no_calls (b := user_builder) rfl hspaced hparted hstore (.inl rfl) hprepare
  have hexecute : user_table.execute none sql 0 = .ok (some (lit "7", lit "O'Hara"), 1, 0) := by
    have htable : user_table.execute none sql 0 =
        match (SqlLiteral.tokens utf8_charset sql).bind (read_row .UTF8 user_stubs) with
        | some [id, name] => .ok (some (id, name), 1, 0)
        | _ => .ok (none, -1, 0) := rfl
    rw [htable, hrow]
  have hinsert : execute_impl ⟨true, fun _ => true⟩ user_builder (some user_table) none none
      (lit "put") 0 [.object (lit "u") user_class (user 7 (lit "O'Hara")) [] []] =
        .ok (some (lit "7", lit "O'Hara"), after, 1, 0) := by
    rw [execute_impl, hprepare, run_ok_bind]
    show user_table.execute none sql 0 >>= _ = _
    rw [hexecute]
    rfl
  refine ⟨_, after, hinsert, ?_⟩
  have hparse : ∀ kp ∈ user 0 [], kp.2.parse_func = none := by
    simp only [user, List.forall_mem_cons]
    exact ⟨trivial, trivial, by rintro _ ⟨⟩⟩
  have hkinds : ∀ name ∈ names user_stubs, ∀ p p₀, (user 7 (lit "O'Hara")).lookup name = some p →
      (user 0 []).lookup name = some p₀ → p₀.val.kind = p.val.kind := by
    have hnames : names user_stubs = [lit "id", lit "name"] := rfl
    rw [hnames, List.forall_mem_cons, List.forall_mem_singleton]
    refine ⟨?_, ?_⟩
    · rintro p p₀ ⟨⟩ ⟨⟩
      rfl
    · rintro p p₀ ⟨⟩ ⟨⟩
      rfl
  obtain ⟨after', query, hget⟩ : ∃ after' query, prepare_statement ⟨true, fun _ => true⟩
      user_builder after (lit "get") [.void []] = .ok (after', true, query) := ⟨_, _, rfl⟩
  obtain ⟨plains', hselect, hvalues, -⟩ :=
    object_comes_back no_calls ⟨true, fun _ => true⟩ user_builder user_table none _ none after
      after'
      (lit "put") (lit "get") query user_stubs [.void []] 0 0 1 (lit "u") [] user_class
      (user 7 (lit "O'Hara")) (user 0 []) [] [] [] [] rfl hspaced hparted (by decide) (.inl rfl)
      hstore ⟨rfl, by decide, hparse⟩ hkinds (user_table_keeps query) hinsert (by decide) hget
  exact ⟨after', plains', hselect, hvalues (lit "name") (by decide)⟩

end Rellaf.Mysql
