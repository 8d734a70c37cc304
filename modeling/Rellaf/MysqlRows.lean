/-
What a row of a result makes of a model, and what comes back of a stored string.

`to_model` gives an object the text of one column after the other (`set_columns`).
`fetch` takes a cell for a C string. So a cell is read up to its first zero byte, and a
`NULL` is not read at all (`fetch_exact_iff`), although the text that is written for a
value keeps its zero bytes.
-/
import Rellaf.MysqlResult
import Rellaf.PlainText
import Rellaf.SqlAppend

set_option autoImplicit false

open Rellaf.Cpp Rellaf.Models Rellaf.MysqlEscape

namespace Rellaf.Mysql

open MemberMap

variable (calls : Brpc.Calls)

/-- The virtual functions of a model. A reference is not null. -/
def model_methods : ModelMethods Model where
  rellaf_type
    | .null | .void _ => .no
    | .plain p => p.type
    | .list _ _ => .LIST
    | .object _ _ _ _ _ => .OBJECT
  set_plain := Brpc.object_set_plain calls
  set_parse := Brpc.set_parse calls

/-! ## The cells of a row -/

namespace MyResult

variable {r : MyResult}

theorem fetch_cell {row : List (Option Str)} {i : Nat} {cell : Str} (hi : i < r.field_count)
    (hrow : r._row = some row) (hcell : row[i]? = some (some cell)) : r.fetch i = .ok (cstr cell) := by
  unfold field_count at hi
  unfold fetch
  rw [if_pos hi, hrow, Option.bind_some, hcell]

theorem fetch_null {row : List (Option Str)} {i : Nat} (hi : i < r.field_count)
    (hrow : r._row = some row) (hcell : row[i]? = some none) : r.fetch i = .error .undefined := by
  unfold field_count at hi
  unfold fetch
  rw [if_pos hi, hrow, Option.bind_some, hcell]

/-- `fetch` returns the bytes of the cell, and something for a `NULL`. -/
def FetchesExactly (r : MyResult) (i : Nat) : Option Str → Prop
  | some bytes => r.fetch i = .ok bytes
  | none => ∃ val, r.fetch i = .ok val

theorem cstr_eq_self_iff {s : Str} : cstr s = s ↔ (0 : UInt8) ∉ s := by
  constructor
  · intro h hzero
    rw [cstr, List.takeWhile_eq_self_iff] at h
    exact absurd (h 0 hzero) (by decide)
  · exact cstr_eq_self

/-- One cell. -/
theorem fetchesExactly_iff {row : List (Option Str)} {i : Nat} {cell : Option Str}
    (hi : i < r.field_count) (hrow : r._row = some row) (hcell : row[i]? = some cell) :
    r.FetchesExactly i cell ↔ ∃ bytes, cell = some bytes ∧ (0 : UInt8) ∉ bytes := by
  cases cell with
  | none =>
    refine iff_of_false ?_ fun ⟨_, hcell, _⟩ => by cases hcell
    rintro ⟨val, hval⟩
    rw [fetch_null hi hrow hcell] at hval
    cases hval
  | some bytes =>
    have hbytes : r.FetchesExactly i (some bytes) ↔ r.fetch i = .ok bytes := Iff.rfl
    rw [hbytes, fetch_cell hi hrow hcell, Except.ok.injEq, cstr_eq_self_iff]
    constructor
    · exact fun h => ⟨bytes, rfl, h⟩
    · rintro ⟨_, hbytes, h⟩
      cases hbytes
      exact h

/-! ## The columns of a row -/

/-- The row has these columns, each a name and the bytes of the cell, and no `NULL`. -/
structure At (r : MyResult) (cols : List (Str × Str)) : Prop where
  fields : r._fields = cols.map Prod.fst
  row : r._row = some (cols.map fun col => some col.2)

theorem At.field_name {cols : List (Str × Str)} (h : r.At cols) {i : Nat} {col : Str × Str}
    (hcol : cols[i]? = some col) : r.field_name i = .ok col.1 := by
  have hname : r._fields[i]? = some col.1 := by
    rw [h.fields, List.getElem?_map, hcol]
    rfl
  unfold MyResult.field_name
  rw [hname]

theorem At.fetch {cols : List (Str × Str)} (h : r.At cols) {i : Nat} {col : Str × Str}
    (hcol : cols[i]? = some col) : r.fetch i = .ok (cstr col.2) := by
  have hi : i < r.field_count := by
    rw [field_count, h.fields, List.length_map]
    exact (List.getElem?_eq_some_iff.mp hcol).1
  refine fetch_cell hi h.row ?_
  rw [List.getElem?_map, hcol]
  rfl

/-- The loop over the columns, by the columns that are left. -/
def set_columns : List (Str × Str) → Model → Run (Bool × Model)
  | [], m => return (true, m)
  | col :: cols, m => do
    let (ok, m) ← Brpc.object_set_plain calls m col.1 (cstr col.2)
    if !ok then return (true, m) else set_columns cols m

theorem At.to_object {cols left : List (Str × Str)} (h : r.At cols) {i : Nat} (m : Model)
    (hleft : cols.drop i = left) :
    r.to_object (model_methods calls) left.length i m = set_columns calls left m := by
  induction left generalizing i m with
  | nil => rfl
  | cons col left ih =>
    have hcol : cols[i]? = some col := by
      rw [← List.head?_drop, hleft, List.head?_cons]
    have hleft' : cols.drop (i + 1) = left := by
      rw [← List.tail_drop, hleft, List.tail_cons]
    rw [List.length_cons, MyResult.to_object, h.field_name hcol, run_ok_bind, h.fetch hcol,
      run_ok_bind, set_columns]
    simp only [ih _ hleft']
    rfl

/-- A row with columns goes into an object column by column. -/
theorem At.to_model_object {cols : List (Str × Str)} (h : r.At cols) (hcols : cols ≠ [])
    {tag : Str} {clazz : Clazz} {plains : List (Str × Plain)} {lists : List (Str × List Model)}
    {objects : List (Str × Model)} :
    r.to_model (model_methods calls) (.object tag clazz plains lists objects) =
      set_columns calls cols (.object tag clazz plains lists objects) := by
  have hcount : r.field_count = cols.length := by
    rw [field_count, h.fields, List.length_map]
  have hpos : ¬ cols.length = 0 := fun hzero => hcols (List.length_eq_zero_iff.mp hzero)
  unfold to_model
  rw [hcount, if_neg hpos]
  exact h.to_object calls _ List.drop_zero

/-- Into a plain goes the first cell. -/
theorem At.to_model_plain {col : Str × Str} {cols : List (Str × Str)} (h : r.At (col :: cols))
    {p : Plain} (htype : p.type = p.val.kind) :
    r.to_model (model_methods calls) (.plain p) = (do
      let (_, p) ← Brpc.plain_set_parse calls p (cstr col.2)
      return (true, .plain p)) := by
  have hcount : ¬ r.field_count = 0 := by
    rw [field_count, h.fields, List.length_map, List.length_cons]
    omega
  have htype' : (model_methods calls).rellaf_type (.plain p) = p.val.kind := htype
  have hobject : (model_methods calls).rellaf_type (.plain p) ≠ .OBJECT := by
    rw [htype']
    cases p.val <;> simp [PlainVal.kind]
  have hplain : ((model_methods calls).rellaf_type (.plain p) ≠ .no &&
      (model_methods calls).rellaf_type (.plain p) ≠ .OBJECT &&
      (model_methods calls).rellaf_type (.plain p) ≠ .LIST) = true := by
    rw [htype']
    cases p.val <;> simp [PlainVal.kind]
  have hfetch : r.fetch 0 = .ok (cstr col.2) := h.fetch (List.getElem?_cons_zero)
  have hset : (model_methods calls).set_parse = Brpc.set_parse calls := rfl
  unfold to_model
  rw [if_neg hcount]
  dsimp only
  rw [if_neg hobject, if_pos hplain, hfetch, run_ok_bind, hset]
  unfold Brpc.set_parse
  rw [bind_assoc]
  rfl

end MyResult

/-! ## Into an object -/

/-- The plain takes the text: by `cast`, or by a function of its own that returns a value
of its type. -/
def Takes (p : Plain) (s : Str) : Prop :=
  ∀ f ∈ p.parse_func, ∃ v, f s = .ok v ∧ v.kind = p.val.kind

theorem plain_set_parse_takes {p : Plain} {s : Str} (h : Takes p s) :
    ∃ v, Brpc.plain_set_parse calls p s = .ok (true, { p with val := v }) ∧
      v.kind = p.val.kind ∧ (p.parse_func = none → v = Brpc.cast calls s p.val) := by
  rcases Option.eq_none_or_eq_some p.parse_func with hparse | ⟨f, hparse⟩
  · exact ⟨_, Brpc.plain_set_parse_none calls hparse s, Brpc.cast_kind calls s p.val, fun _ => rfl⟩
  · obtain ⟨v, hv, hkind⟩ := h f hparse
    refine ⟨v, ?_, hkind, fun hnone => by rw [hparse] at hnone; cases hnone⟩
    unfold Brpc.plain_set_parse
    rw [hparse]
    dsimp only
    rw [hv]
    rfl

section object

variable {tag : Str} {clazz : Clazz} {plains : List (Str × Plain)}
  {lists : List (Str × List Model)} {objects : List (Str × Model)}

/-- One column, of a member that the instance has. -/
theorem object_set_plain_ok {key s : Str} {p : Plain}
    (hclazz : (clazz.plain_names.lookup key).isSome = true) (hp : plains.lookup key = some p)
    (htakes : Takes p s) :
    ∃ v, v.kind = p.val.kind ∧ (p.parse_func = none → v = Brpc.cast calls s p.val) ∧
      Brpc.object_set_plain calls (.object tag clazz plains lists objects) key s =
        .ok (true, .object tag clazz (put plains key { p with val := v }) lists objects) := by
  obtain ⟨v, hset, hkind, hcast⟩ := plain_set_parse_takes calls htakes
  obtain ⟨dft, hdft⟩ := Option.isSome_iff_exists.mp hclazz
  refine ⟨v, hkind, hcast, ?_⟩
  unfold Brpc.object_set_plain
  dsimp only
  rw [hdft, hp]
  dsimp only
  rw [Option.getD_some, hset]
  rfl

/-- A member gets another value of its type. -/
theorem proper_put {key : Str} {p p' : Plain} (hp : plains.lookup key = some p)
    (htype : p'.type = p.type) (hkind : p'.val.kind = p.val.kind)
    (h : (Model.object tag clazz plains lists objects).Proper Model.Typed) :
    (Model.object tag clazz (put plains key p') lists objects).Proper Model.Typed := by
  cases h with
  | object hschema hnames hdetected hdefaults_detected hdefaults hplains hlists hpointers hobjects =>
  have hdetected' : p'.type = p'.val.kind := by
    rw [htype, hkind]
    exact hdetected _ (mem_of_lookup hp)
  have hkeys : (put plains key p').map Prod.fst = plains.map Prod.fst :=
    keys_put_of_mem (mem_keys_iff_lookup.mpr (by rw [hp]; rfl)) p'
  refine .object ?_ ?_ ?_ hdefaults_detected hdefaults ?_ hlists hpointers hobjects
  · rw [← hschema]
    exact map_put_of_lookup hp htype
  · rwa [Model.member_names, hkeys]
  · intro kp hkp
    rcases mem_put hkp with rfl | hkp
    · exact hdetected'
    · exact hdetected kp hkp
  · intro kp hkp
    rcases mem_put hkp with rfl | hkp
    · exact .inl hdetected'
    · exact hplains kp hkp

/-- The columns can be written to the plains: each has a member of its name, which takes
its text. -/
def Writable (clazz : Clazz) (plains : List (Str × Plain)) (cols : List (Str × Str)) : Prop :=
  ∀ col ∈ cols, (clazz.plain_names.lookup col.1).isSome = true ∧
    ∃ p, plains.lookup col.1 = some p ∧ Takes p (cstr col.2)

theorem Writable.put {cols : List (Str × Str)} (h : Writable clazz plains cols) {key : Str}
    {p w : Plain} (hp : plains.lookup key = some p) (hparse : w.parse_func = p.parse_func)
    (hkind : w.val.kind = p.val.kind) : Writable clazz (put plains key w) cols := by
  intro col hcol
  obtain ⟨hclazz, q, hq, htakes⟩ := h col hcol
  refine ⟨hclazz, ?_⟩
  rw [lookup_put]
  by_cases hkey : (col.1 == key) = true
  · obtain rfl : col.1 = key := beq_iff_eq.mp hkey
    obtain rfl : p = q := Option.some.inj (hp.symm.trans hq)
    refine ⟨w, by rw [if_pos hkey], ?_⟩
    unfold Takes
    rw [hparse, hkind]
    exact htakes
  · exact ⟨q, by rw [if_neg hkey, hq], htakes⟩

/-- **All columns.** The object stays one of its class, members that no column names stay,
and a member that one column names has the text of the cell. -/
theorem set_columns_ok {cols : List (Str × Str)} (h : Writable clazz plains cols) :
    ∃ plains', MyResult.set_columns calls cols (.object tag clazz plains lists objects) =
        .ok (true, .object tag clazz plains' lists objects) ∧
      ((Model.object tag clazz plains lists objects).Proper Model.Typed →
        (Model.object tag clazz plains' lists objects).Proper Model.Typed) ∧
      (∀ key ∉ cols.map Prod.fst, plains'.lookup key = plains.lookup key) ∧
      ((cols.map Prod.fst).Nodup → ∀ key cell p, (key, cell) ∈ cols →
        plains.lookup key = some p → p.parse_func = none →
          plains'.lookup key = some { p with val := Brpc.cast calls (cstr cell) p.val }) := by
  induction cols generalizing plains with
  | nil => exact ⟨plains, rfl, id, fun _ _ => rfl, fun _ _ _ _ h => absurd h List.not_mem_nil⟩
  | cons col cols ih =>
    obtain ⟨hclazz, p, hp, htakes⟩ := h col List.mem_cons_self
    obtain ⟨v, hkind, hcast, hset⟩ := object_set_plain_ok calls hclazz hp htakes
    have hrest : Writable clazz plains cols := fun col' hcol' => h col' (List.mem_cons_of_mem _ hcol')
    obtain ⟨plains', hread, hproper, hframe, hvalue⟩ :=
      ih (hrest.put (w := { p with val := v }) hp rfl hkind)
    refine ⟨plains', ?_, fun hm => hproper (proper_put hp rfl hkind hm), ?_, ?_⟩
    · rw [MyResult.set_columns, hset]
      exact hread
    · intro key hkey
      rw [List.map_cons, List.mem_cons, not_or] at hkey
      rw [hframe key hkey.2, lookup_put, if_neg (by simpa using hkey.1)]
    · intro hnodup key cell q hmem hq hparse
      obtain ⟨hnot, hnodup'⟩ := nodup_keys_cons.mp hnodup
      rcases List.mem_cons.mp hmem with rfl | hmem
      · -- this column: what comes later names other members
        obtain rfl : p = q := Option.some.inj (hp.symm.trans hq)
        rw [hframe key hnot, lookup_put, if_pos (beq_self_eq_true key), hcast hparse]
      · have hne : ¬ (key == col.1) = true := by
          intro heq
          obtain rfl : key = col.1 := beq_iff_eq.mp heq
          exact hnot (List.mem_map.mpr ⟨_, hmem, rfl⟩)
        exact hvalue hnodup' key cell q hmem (by rw [lookup_put, if_neg hne, hq]) hparse

theorem get_plain_object_iff {key : Str} {p : Plain} :
    (Model.object tag clazz plains lists objects).get_plain key = .ok (.plain p) ↔
      (clazz.plain_names.lookup key).isSome = true ∧ plains.lookup key = some p := by
  unfold Model.get_plain Model.is_plain_member
  cases hclazz : (clazz.plain_names.lookup key).isSome with
  | false => simp [hclazz]
  | true => cases hp : plains.lookup key <;> simp [hclazz, hp]

end object

/-- Only an object has members. -/
theorem exists_object_of_get_plain {m : Model} {key : Str} {p : Plain}
    (h : m.get_plain key = .ok (.plain p)) :
    ∃ tag clazz plains lists objects, m = .object tag clazz plains lists objects := by
  cases m with
  | object tag clazz plains lists objects => exact ⟨tag, clazz, plains, lists, objects, rfl⟩
  | _ => cases h

/-! ## A string that is stored and read again -/

section ComesBack

variable (env : Sql.Env) (cs : Sql.Charset) (sqlescape : Option SqlEscape) (val : Str)

/-- The statement has a literal for the value. MySQL stores what the literal says, and a
row that has it in a column puts the value into the string member of that name. -/
def ComesBack : Prop :=
  ∀ sql rest : Str, ∃ after text stored,
    Sql.append_sql env sqlescape cs sql val true true = .ok (after, true, sql ++ text) ∧
    Sql.read_literal cs (text ++ rest) = some (stored, rest) ∧
    ∀ (r : MyResult) (cols : List (Str × Str)) (m : Model) (key old : Str) (p : Plain),
      r.At cols → (cols.map Prod.fst).Nodup → (key, stored) ∈ cols →
      (∀ col ∈ cols, ∃ q, m.get_plain col.1 = .ok (.plain q) ∧ Takes q (cstr col.2)) →
      m.get_plain key = .ok (.plain p) → p.val = .STR old → p.parse_func = none →
      ∃ m', r.to_model (model_methods calls) m = .ok (true, m') ∧
        m'.get_plain key = .ok (.plain { p with val := .STR val })

variable {env cs sqlescape val} in
/-- What `to_model` makes of a string member: the cell up to its first zero byte. -/
theorem to_model_string {r : MyResult} {cols : List (Str × Str)} {m : Model} {key cell old : Str}
    {p : Plain} (hr : r.At cols) (hnodup : (cols.map Prod.fst).Nodup) (hcell : (key, cell) ∈ cols)
    (hcols : ∀ col ∈ cols, ∃ q, m.get_plain col.1 = .ok (.plain q) ∧ Takes q (cstr col.2))
    (hp : m.get_plain key = .ok (.plain p)) (hval : p.val = .STR old)
    (hparse : p.parse_func = none) :
    ∃ m', r.to_model (model_methods calls) m = .ok (true, m') ∧
      m'.get_plain key = .ok (.plain { p with val := .STR (cstr cell) }) := by
  obtain ⟨tag, clazz, plains, lists, objects, rfl⟩ := exists_object_of_get_plain hp
  have hwritable : Writable clazz plains cols := by
    intro col hcol
    obtain ⟨q, hq, htakes⟩ := hcols col hcol
    obtain ⟨hclazz, hlookup⟩ := get_plain_object_iff.mp hq
    exact ⟨hclazz, q, hlookup, htakes⟩
  obtain ⟨hclazz, hlookup⟩ := get_plain_object_iff.mp hp
  obtain ⟨plains', hset, -, -, hvalue⟩ := set_columns_ok calls hwritable
  refine ⟨.object tag clazz plains' lists objects, ?_, ?_⟩
  · rw [hr.to_model_object calls (List.ne_nil_of_mem hcell)]
    exact hset
  · rw [get_plain_object_iff, hvalue hnodup key cell p hcell hlookup hparse, hval]
    exact ⟨hclazz, rfl⟩

/-- A value comes back exactly if its text has room and it has no zero byte. -/
theorem comesBack_iff (hinst : sqlescape = none ∨ sqlescape = some cs.escaper) :
    ComesBack calls env cs sqlescape val ↔ Sql.HasRoom env cs val ∧ (0 : UInt8) ∉ val := by
  constructor
  · intro h
    obtain ⟨after, text, stored, happend, hread, hback⟩ := h [] []
    obtain ⟨hroom, -, htext⟩ := (Sql.append_sql_quoted_iff hinst).mp happend
    refine ⟨hroom, ?_⟩
    obtain rfl : stored = val := by
      rw [List.nil_append, List.nil_append] at htext
      rw [htext, Sql.read_literal_text] at hread
      cases hread
      rfl
    -- a class with one string, and a row with one column
    have hr : (⟨0, .null, some [some stored], [lit "a"]⟩ : MyResult).At [(lit "a", stored)] :=
      ⟨rfl, rfl⟩
    have hcols : ∀ col ∈ [(lit "a", stored)], ∃ q,
        (Model.object [] ⟨[], [(lit "a", ⟨[], .STR, .STR [], none, none⟩)]⟩
          [(lit "a", ⟨[], .STR, .STR [], none, none⟩)] [] []).get_plain col.1 = .ok (.plain q) ∧
        Takes q (cstr col.2) := by
      intro col hcol
      obtain rfl := List.mem_singleton.mp hcol
      exact ⟨_, rfl, fun f hf => by cases hf⟩
    obtain ⟨m', hm', hsame⟩ := hback _ _ _ (lit "a") [] _ hr (List.nodup_singleton _)
      List.mem_cons_self hcols rfl rfl rfl
    obtain ⟨m'', hm'', hcut⟩ := to_model_string calls hr (List.nodup_singleton _)
      List.mem_cons_self hcols rfl rfl rfl
    rw [hm'] at hm''
    cases hm''
    rw [hsame] at hcut
    have hcstr : stored = cstr stored :=
      PlainVal.STR.inj (congrArg Plain.val (Model.plain.inj (Except.ok.inj hcut)))
    exact MyResult.cstr_eq_self_iff.mp hcstr.symm
  · rintro ⟨hroom, hzero⟩ sql rest
    refine ⟨some cs.escaper, _, val, (Sql.append_sql_quoted_iff hinst).mpr ⟨hroom, rfl, rfl⟩,
      Sql.read_literal_text cs val rest, ?_⟩
    intro r cols m key old p hr hnodup hcell hcols hp hval hparse
    have hback := to_model_string calls hr hnodup hcell hcols hp hval hparse
    rwa [cstr_eq_self hzero] at hback

/-- **Reading a cell, and reading back a string.** A cell is fetched exactly if it is no
`NULL` and has no zero byte. So a string that was stored comes back if it has none. -/
theorem fetch_exact_iff (hinst : sqlescape = none ∨ sqlescape = some cs.escaper) (r : MyResult)
    (row : List (Option Str)) (i : Nat) (cell : Option Str) (hrow : r._row = some row)
    (hi : i < r.field_count) (hcell : row[i]? = some cell) :
    (r.FetchesExactly i cell ↔ ∃ bytes, cell = some bytes ∧ (0 : UInt8) ∉ bytes) ∧
      (ComesBack calls env cs sqlescape val ↔ Sql.HasRoom env cs val ∧ (0 : UInt8) ∉ val) :=
  ⟨MyResult.fetchesExactly_iff hi hrow hcell, comesBack_iff calls env cs sqlescape val hinst⟩

/-- One column, with a letter in it. -/
theorem fetch_exact_iff_letter :
    ((⟨0, .null, some [some (lit "a")], [lit "c"]⟩ : MyResult).FetchesExactly 0 (some (lit "a")) ↔
        ∃ bytes, some (lit "a") = some bytes ∧ (0 : UInt8) ∉ bytes) ∧
      (ComesBack ⟨fun _ => none, fun _ => [], fun _ => 0, fun _ => 0, fun _ => []⟩
          ⟨true, fun _ => true⟩ .UTF8 none (lit "a") ↔
        Sql.HasRoom ⟨true, fun _ => true⟩ .UTF8 (lit "a") ∧ (0 : UInt8) ∉ lit "a") :=
  fetch_exact_iff _ _ _ _ _ (.inl rfl) ⟨0, .null, some [some (lit "a")], [lit "c"]⟩
    [some (lit "a")] 0 (some (lit "a")) rfl (by decide) rfl

/-- Of the three bytes of `a\0b` the first one is fetched. -/
theorem fetch_stops_at_zero :
    ¬ ∀ (r : MyResult) (row : List (Option Str)) (i : Nat) (cell : Option Str),
      r._row = some row → i < r.field_count → row[i]? = some cell → r.FetchesExactly i cell := by
  intro hall
  have hfetch := hall ⟨0, .null, some [some [97, 0, 98]], [lit "c"]⟩ [some [97, 0, 98]] 0
    (some [97, 0, 98]) rfl (by decide) rfl
  cases hfetch

end ComesBack

end Rellaf.Mysql
