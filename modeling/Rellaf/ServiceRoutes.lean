/-
`BrpcService`: the apis that the services register, and the paths that brpc forwards
to them.

A use of `rellaf_brpc_http_def_api` registers its api twice. `FunctionMapper::reg` gets
it under the name `sign-method-function`, which says nothing of the class: services
that agree on the three share the first handler (`runs_own_iff`). `bind_api_sign` files
the path for brpc, and brings the api into shape in a way of its own: `agree_iff` says
for which apis the two come to the same.
-/
import Rellaf.FunctionMapper

set_option autoImplicit false

open Rellaf.Cpp

namespace Rellaf.Brpc

open UrlTrie

variable {HttpMethod Handler : Type}

/-! ## The registration macro -/

/-- A letter, a digit or `_`. -/
def is_ident_char (c : UInt8) : Bool :=
  (97 ≤ c && c ≤ 122) || (65 ≤ c && c ≤ 90) || (48 ≤ c && c ≤ 57) || c == 95

/-- An identifier that the preprocessor makes a string of. -/
structure Ident where
  text : Str
  chars : text.all is_ident_char = true
  deriving DecidableEq

/-- A use of `rellaf_brpc_http_def_api`. -/
structure ApiDef (Handler : Type) where
  sign : Ident
  api : Str
  method : Ident
  func : Ident
  ctx_func : Handler

/-- `#_sign_"-"#_method_"-"#_func_` -/
def ApiDef.name (d : ApiDef Handler) : Str :=
  d.sign.text ++ lit "-" ++ d.method.text ++ lit "-" ++ d.func.text

def ApiDef.reg (d : ApiDef Handler) : Reg Ident Handler := ⟨d.api, d.name, d.method, d.ctx_func⟩

/-- A class of handlers. The macro defines a member function `_sign_`, so a class has
each sign once. -/
structure Service (Handler : Type) where
  apis : List (ApiDef Handler)
  signs : (apis.map ApiDef.sign).Nodup

/-- The apis of the services, in the order of their registration. -/
def apis (services : List (Service Handler)) : List (ApiDef Handler) :=
  services.flatMap Service.apis

def regs (services : List (Service Handler)) : List (Reg Ident Handler) :=
  (apis services).map ApiDef.reg

/-! ## Names -/

theorem Ident.dash_notMem (i : Ident) : (45 : UInt8) ∉ i.text := by
  intro hmem
  have hchar := List.all_eq_true.mp i.chars 45 hmem
  exact absurd hchar (by decide)

theorem Ident.text_inj {i j : Ident} : i.text = j.text ↔ i = j := by
  constructor
  · intro h
    obtain ⟨text, chars⟩ := i
    obtain ⟨text', chars'⟩ := j
    obtain rfl : text = text' := h
    rfl
  · exact fun h => congrArg Ident.text h

/-- What stands in front of the first `c`, and what behind it. -/
theorem append_cons_inj {c : UInt8} {a a' b b' : Str} (ha : c ∉ a) (ha' : c ∉ a') :
    a ++ c :: b = a' ++ c :: b' ↔ a = a' ∧ b = b' := by
  induction a generalizing a' with
  | nil =>
    cases a' with
    | nil => simp
    | cons x a' =>
      rw [List.mem_cons, not_or] at ha'
      simp [ha'.1]
  | cons x a ih =>
    rw [List.mem_cons, not_or] at ha
    cases a' with
    | nil => simp [Ne.symm ha.1]
    | cons y a' =>
      rw [List.mem_cons, not_or] at ha'
      rw [List.cons_append, List.cons_append, List.cons.injEq, ih ha.2 ha'.2, List.cons.injEq,
        and_assoc]

/-- A name is read back at its dashes. -/
theorem ApiDef.name_inj {d e : ApiDef Handler} :
    e.name = d.name ↔ e.sign = d.sign ∧ e.method = d.method ∧ e.func = d.func := by
  have hdash : lit "-" = [45] := rfl
  have hcons : ∀ a b c : Str, a ++ lit "-" ++ b ++ lit "-" ++ c = a ++ 45 :: (b ++ 45 :: c) := by
    intro a b c
    rw [hdash]
    simp only [List.append_assoc, List.cons_append, List.nil_append]
  unfold ApiDef.name
  rw [hcons, hcons, append_cons_inj e.sign.dash_notMem d.sign.dash_notMem,
    append_cons_inj e.method.dash_notMem d.method.dash_notMem, Ident.text_inj, Ident.text_inj,
    Ident.text_inj]

theorem ApiDef.name_ne_nil (d : ApiDef Handler) : d.name ≠ [] := by
  unfold ApiDef.name
  exact List.append_ne_nil_of_left_ne_nil (List.append_ne_nil_of_right_ne_nil _ (by decide)) _

/-! ## The handler of an api -/

theorem slashed_ne_nil (api : Str) : slashed api ≠ [] := by
  unfold slashed
  split
  next h =>
    rintro rfl
    cases h
  next => exact List.cons_ne_nil 47 api

theorem slashed_slashed (api : Str) : slashed (slashed api) = slashed api := by
  have hfront : (slashed api).head? = some 47 := by
    unfold slashed
    split
    next h => exact h
    next => rfl
  rw [slashed, if_pos hfront]

/-- A path that is registered as it is asked for gets the name of its first
registration. -/
theorem fetch_name_of_find {regs : List (Reg HttpMethod Handler)} {mapper : FunctionMapper Handler}
    (h : reg_all regs = .ok mapper) {method : HttpMethod} {path : Str} (hpath : path ≠ [])
    {c : Reg HttpMethod Handler} (hc : regs.find? (fun r => r.path = slashed path) = some c)
    (vars : Std.ExtTreeMap Str Str) :
    fetch_name mapper ⟨method, path⟩ vars = .ok (c.name, vars) := by
  obtain ⟨hapi, -, -⟩ := reg_all_ok h
  rw [fetch_name, slash_ok hpath, run_ok_bind, hapi, hc]
  rfl

/-- **When an api runs its own handler.** The services registered before must not have
another handler for the same sign, method and function. -/
theorem runs_own_iff (services : List (Service Handler)) (mapper : FunctionMapper Handler)
    (h : reg_all (regs services) = .ok mapper)
    (hpaths : ((regs services).map Reg.path).Nodup) :
    ∀ d ∈ apis services, ∀ method : Ident,
      entry mapper ⟨method, d.reg.path⟩ = .ok (.ran d.ctx_func ∅) ↔
        ∀ e, (apis services).find?
            (fun e => e.sign = d.sign ∧ e.method = d.method ∧ e.func = d.func) = some e →
          e.ctx_func = d.ctx_func := by
  intro d hd method
  obtain ⟨-, hfuncs, -⟩ := reg_all_ok h
  have hmem : d.reg ∈ regs services := List.mem_map_of_mem hd
  -- the path is that of `d` alone
  have hfirst : (regs services).find? (fun r => r.path = slashed d.reg.path) = some d.reg := by
    rw [Reg.path, slashed_slashed, ← Reg.path]
    obtain ⟨c, hc⟩ : ∃ c, (regs services).find? (fun r => r.path = d.reg.path) = some c := by
      rw [← Option.isSome_iff_exists, List.find?_isSome]
      exact ⟨d.reg, hmem, by simp⟩
    have hpath : c.path = d.reg.path := by simpa using List.find?_some hc
    rw [hc, List.inj_on_of_nodup_map hpaths (List.mem_of_find?_eq_some hc) hmem hpath]
  have hname : d.reg.name.isEmpty = false := by
    rw [List.isEmpty_eq_false_iff]
    exact d.name_ne_nil
  have hentry : entry mapper ⟨method, d.reg.path⟩ = .ok (invoke mapper d.reg.name ∅) := by
    have hpath : d.reg.path ≠ [] := slashed_ne_nil _
    rw [entry, fetch_name_of_find h hpath hfirst, run_ok_bind]
    simp only [hname]
    rfl
  -- the function is that of the first registration of the name
  have hfind : (regs services).find? (fun r => r.name = d.reg.name) =
      ((apis services).find?
        (fun e => e.sign = d.sign ∧ e.method = d.method ∧ e.func = d.func)).map ApiDef.reg := by
    rw [regs, List.find?_map]
    congr 2
    funext e
    exact decide_eq_decide.mpr ApiDef.name_inj
  rw [hentry, invoke, hfuncs, hfind]
  cases hown : (apis services).find?
      (fun e => e.sign = d.sign ∧ e.method = d.method ∧ e.func = d.func) with
  | none =>
    have hnot := List.find?_eq_none.mp hown d hd
    simp at hnot
  | some e =>
    show Except.ok (Served.ran e.ctx_func ∅) = _ ↔ _
    rw [Except.ok.injEq, Served.ran.injEq]
    constructor
    · rintro ⟨heq, -⟩ e' he'
      cases he'
      exact heq
    · exact fun hown => ⟨hown e rfl, rfl⟩

/-- Two services with a sign `list` and the method `GET`, whose functions have names of their
own: a request for `/rooms` runs its handler. -/
theorem runs_own_iff_users :
    let users : ApiDef Nat :=
      ⟨⟨lit "list", rfl⟩, lit "/users", ⟨lit "GET", rfl⟩, ⟨lit "all", rfl⟩, 1⟩
    let rooms : ApiDef Nat :=
      ⟨⟨lit "list", rfl⟩, lit "/rooms", ⟨lit "GET", rfl⟩, ⟨lit "all2", rfl⟩, 2⟩
    let services : List (Service Nat) :=
      [⟨[users], List.nodup_singleton _⟩, ⟨[rooms], List.nodup_singleton _⟩]
    ∃ mapper, reg_all (regs services) = .ok mapper ∧
      entry mapper ⟨rooms.method, rooms.reg.path⟩ = .ok (.ran 2 ∅) := by
  intro users rooms services
  refine ⟨_, rfl, (runs_own_iff services _ rfl (by decide) rooms (by simp [services, apis])
    rooms.method).mpr ?_⟩
  intro e he
  obtain rfl : rooms = e := Option.some.inj he
  rfl

/-- Two services with a sign `list`, one for `/users` and one for `/rooms`: a request for
`/rooms` runs the handler of the first. -/
theorem rooms_run_users :
    ¬ ∀ (services : List (Service Nat)) (mapper : FunctionMapper Nat),
      reg_all (regs services) = .ok mapper → ((regs services).map Reg.path).Nodup →
      ∀ d ∈ apis services, d.reg.has_var = false → ∀ method : Ident,
        entry mapper ⟨method, d.reg.path⟩ = .ok (.ran d.ctx_func ∅) := by
  intro hall
  let users : ApiDef Nat :=
    ⟨⟨lit "list", rfl⟩, lit "/users", ⟨lit "GET", rfl⟩, ⟨lit "all", rfl⟩, 1⟩
  let rooms : ApiDef Nat :=
    ⟨⟨lit "list", rfl⟩, lit "/rooms", ⟨lit "GET", rfl⟩, ⟨lit "all", rfl⟩, 2⟩
  have hran := hall [⟨[users], List.nodup_singleton _⟩, ⟨[rooms], List.nodup_singleton _⟩] _ rfl
    (by decide) rooms (by simp [apis]) rfl rooms.method
  have hfirst : (.ok (.ran 1 ∅) : Run (Served Nat)) = .ok (.ran 2 ∅) := hran
  cases hfirst

/-! ## The paths for brpc -/

structure BrpcService where
  /-- http path start with `/`, protobuf method name -/
  _api_sign_mapper : Str → Option Str
  /-- http path prefix start with `/`, protobuf method name -/
  _api_path_var_sign_mapper : Str → Option Str

def BrpcService.new : BrpcService := ⟨fun _ => none, fun _ => none⟩

def bind_api_sign (service : BrpcService) (sign api : Str) : Run BrpcService := do
  if api.isEmpty then return service
  let exist_path_var := fetch_path_vars_prefix api
  let path_in := exist_path_var.getD api
  let path_in := if (← back path_in) = 47 then path_in.dropLast else path_in
  let path_in ← slash path_in
  match exist_path_var with
  | some _ =>
    return { service with
      _api_path_var_sign_mapper := emplace service._api_path_var_sign_mapper path_in sign }
  | none =>
    return { service with _api_sign_mapper := emplace service._api_sign_mapper path_in sign }

/-! ## Where an api has a variable -/

/-- What stands in front of the variable, everything where there is none. -/
def path_in (api : Str) : Str := fetch_path_vars_prefix api |>.getD api

/-- `exist_path_var` -/
def has_path_var (api : Str) : Bool := fetch_path_vars_prefix api |>.isSome

/-- A path without a `/` at its end. -/
def strip (path : Str) : Str := if path.getLast? = some 47 then path.dropLast else path

theorem has_path_var_eq_false_iff {api : Str} :
    has_path_var api = false ↔ fetch_path_vars_prefix api = none := by
  rw [has_path_var, Option.isSome_eq_false_iff, Option.isNone_iff_eq_none]

theorem path_in_eq_self {api : Str} (h : has_path_var api = false) : path_in api = api := by
  rw [path_in, has_path_var_eq_false_iff.mp h, Option.getD_none]

theorem strip_eq_nil_iff {path : Str} : strip path = [] ↔ path = [] ∨ path = lit "/" := by
  have hslash : lit "/" = [47] := rfl
  unfold strip
  rw [hslash]
  split
  next h =>
    obtain ⟨front, rfl⟩ := List.getLast?_eq_some_iff.mp h
    simp
  next h =>
    constructor
    · exact fun hnil => .inl hnil
    · rintro (rfl | rfl)
      · rfl
      · exact absurd rfl h

/-- `bind_api_sign` returns unless nothing is left of the path. -/
theorem bind_api_sign_eq {api : Str} (hapi : api ≠ []) (service : BrpcService) (sign : Str) :
    bind_api_sign service sign api =
      if strip (path_in api) = [] then .error .undefined
      else .ok (match fetch_path_vars_prefix api with
        | some _ => { service with
            _api_path_var_sign_mapper := emplace service._api_path_var_sign_mapper
              (slashed (strip (path_in api))) sign }
        | none => { service with
            _api_sign_mapper := emplace service._api_sign_mapper
              (slashed (strip (path_in api))) sign }) := by
  have hempty : ¬ api.isEmpty = true := by simpa using hapi
  have hin : ( fetch_path_vars_prefix api).getD api = path_in api := rfl
  rw [bind_api_sign, if_neg hempty]
  simp only [hin]
  cases hlast : (path_in api).getLast? with
  | none =>
    have hnil : path_in api = [] := List.getLast?_eq_none_iff.mp hlast
    rw [hnil]
    rfl
  | some c =>
    have hback : back (path_in api) = .ok c := by rw [back, hlast]
    have hstrip : strip (path_in api) =
        if c = 47 then (path_in api).dropLast else path_in api := by
      simp only [strip, hlast, Option.some.injEq]
    rw [hback, run_ok_bind, ← hstrip]
    by_cases hnil : strip (path_in api) = []
    · rw [hnil]
      rfl
    · rw [slash_ok hnil, run_ok_bind, if_neg hnil]
      cases fetch_path_vars_prefix api <;> rfl

/-- `find` misses what is not there. -/
theorem find_from_eq_none_iff {needle s : Str} (i : Nat) :
    find_from needle s i = none ↔ ¬ needle <:+: s := by
  induction s generalizing i with
  | nil =>
    cases needle with
    | nil => simp [find_from]
    | cons c needle => simp [find_from]
  | cons c s ih =>
    rw [find_from, List.infix_cons_iff, ← List.isPrefixOf_iff_prefix]
    cases hpre : needle.isPrefixOf (c :: s) with
    | true => simp
    | false =>
      rw [if_neg Bool.false_ne_true, ih]
      simp

theorem fetch_path_vars_prefix_eq_none_iff {path : Str} :
    fetch_path_vars_prefix path = none ↔ ¬ lit "/\x7b" <:+: path := by
  have hfind : find path (lit "/\x7b") 0 = none ↔ ¬ lit "/\x7b" <:+: path := by
    rw [find, if_pos (Nat.zero_le _), find_from_eq_none_iff, List.drop_zero]
  rw [← hfind, fetch_path_vars_prefix]
  cases find path (lit "/\x7b") 0 with
  | none => simp
  | some pos => simp

theorem Reg.has_var_eq_false_iff {r : Reg HttpMethod Handler} :
    r.has_var = false ↔ ¬ lit "/\x7b" <:+: r.path := by
  rw [← fetch_path_vars_prefix_eq_none_iff, Reg.has_var]
  cases fetch_path_vars_prefix r.path <;> simp

/-- What holds no dropped byte is in the rest. -/
theorem infix_dropWhile_iff {needle : Str} {p : UInt8 → Bool} (hne : needle ≠ [])
    (hneedle : ∀ c ∈ needle, p c = false) (s : Str) :
    needle <:+: s.dropWhile p ↔ needle <:+: s := by
  induction s with
  | nil => rfl
  | cons c s ih =>
    cases hc : p c with
    | false => rw [List.dropWhile_cons_of_neg (by simp [hc])]
    | true =>
      rw [List.dropWhile_cons_of_pos hc, ih, List.infix_cons_iff]
      constructor
      · exact fun h => .inr h
      · rintro (hpre | h)
        · -- it would have to start with the dropped byte
          obtain ⟨d, needle, rfl⟩ := List.exists_cons_of_ne_nil hne
          have hdc : d = c := (List.cons_prefix_cons.mp hpre).1
          have hd := hneedle d List.mem_cons_self
          rw [hdc, hc] at hd
          cases hd
        · exact h

theorem infix_trim_iff (s : Str) : lit "/\x7b" <:+: Str.trim s [] ↔ lit "/\x7b" <:+: s := by
  have hne : lit "/\x7b" ≠ [] := List.cons_ne_nil 47 [123]
  have hne' : (lit "/\x7b").reverse ≠ [] := List.cons_ne_nil 123 [47]
  -- neither byte is a blank
  have hblank : ∀ c ∈ lit "/\x7b", (!Str.stays [] c) = false := by
    intro c hc
    have hc : c ∈ [47, 123] := hc
    rcases List.mem_pair.mp hc with rfl | rfl <;> rfl
  have hblank' : ∀ c ∈ (lit "/\x7b").reverse, (!Str.stays [] c) = false :=
    fun c hc => hblank c (List.mem_reverse.mp hc)
  unfold Str.trim Str.trim_right Str.trim_left
  rw [← List.reverse_infix, List.reverse_reverse, infix_dropWhile_iff hne' hblank',
    List.reverse_infix, infix_dropWhile_iff hne hblank]

theorem infix_slashed_iff (api : Str) :
    lit "/\x7b" <:+: slashed api ↔ lit "/\x7b" <:+: api ∨ api.head? = some 123 := by
  have hlit : lit "/\x7b" = [47, 123] := rfl
  unfold slashed
  rw [hlit]
  split
  next h => simp [h]
  next h =>
    rw [List.infix_cons_iff, List.cons_prefix_cons, or_comm]
    cases api with
    | nil => simp
    | cons c api => simp [eq_comm]

/-- `reg_api` sees a variable where `bind_api_sign` does, and behind the `/` that it
adds. -/
theorem Reg.has_var_iff {r : Reg HttpMethod Handler} :
    r.has_var = true ↔
      has_path_var r.api = true ∨ (Str.trim r.api []).head? = some 123 := by
  have hsome : has_path_var r.api = true ↔ lit "/\x7b" <:+: r.api := by
    rw [← Bool.not_eq_false, has_path_var_eq_false_iff, fetch_path_vars_prefix_eq_none_iff, not_not]
  rw [← Bool.not_eq_false, Reg.has_var_eq_false_iff, not_not, Reg.path, infix_slashed_iff,
    infix_trim_iff, hsome]

/-! ## Whether the two come to the same -/

theorem reg_ok_iff (mapper : FunctionMapper Handler) {r : Reg HttpMethod Handler} :
    (∃ mapper', reg mapper r = .ok mapper') ↔ Str.trim r.api [] ≠ [] := by
  constructor
  · rintro ⟨mapper', h⟩ hnil
    obtain ⟨mapper₁, hapi, -⟩ := run_bind_eq_ok.mp h
    rw [reg_api, hnil] at hapi
    cases hapi
  · intro hne
    rw [reg, reg_api, slash_ok hne, run_ok_bind]
    cases fetch_path_vars_prefix (slashed (Str.trim r.api [])) <;> exact ⟨_, rfl⟩

theorem foldlM_reg_ok_iff {regs : List (Reg HttpMethod Handler)} :
    ∀ mapper : FunctionMapper Handler, (∃ mapper', regs.foldlM reg mapper = .ok mapper') ↔
      ∀ r ∈ regs, Str.trim r.api [] ≠ [] := by
  induction regs with
  | nil =>
    intro mapper
    exact iff_of_true ⟨mapper, rfl⟩ (List.forall_mem_nil _)
  | cons r regs ih =>
    intro mapper
    rw [List.forall_mem_cons, ← reg_ok_iff mapper, List.foldlM_cons]
    constructor
    · rintro ⟨mapper', h⟩
      obtain ⟨mapper₁, hreg, hrest⟩ := run_bind_eq_ok.mp h
      exact ⟨⟨mapper₁, hreg⟩, (ih mapper₁).mp ⟨mapper', hrest⟩⟩
    · rintro ⟨⟨mapper₁, hreg⟩, hregs⟩
      obtain ⟨mapper', hrest⟩ := (ih mapper₁).mpr hregs
      exact ⟨mapper', by rw [hreg, run_ok_bind, hrest]⟩

/-- The chosen pattern registered once more: the path gets its new name. -/
theorem Chosen.overwritten {regs : List (Reg HttpMethod Handler)} {header : HttpHeader HttpMethod}
    {c : Reg HttpMethod Handler} (hc : Chosen regs header c)
    (hnone : ∀ r ∈ regs, r.path ≠ slashed header.path) (name : Str) :
    Chosen (regs ++ [{ c with name := name }]) header { c with name := name } := by
  obtain ⟨hpath, hfirst | ⟨-, hmatches, hclear, hlast⟩⟩ := hc
  · have hc : c.path = slashed header.path := by simpa using List.find?_some hfirst
    exact absurd hc (hnone c (List.mem_of_find?_eq_some hfirst))
  have hmem : c ∈ var_regs regs := List.mem_reverse.mp (List.mem_of_find?_eq_some hlast)
  obtain ⟨hregs, hvar⟩ := List.mem_filter.mp hmem
  have hvars : var_regs (regs ++ [{ c with name := name }]) =
      var_regs regs ++ [{ c with name := name }] := by
    have hvar' : Reg.has_var { c with name := name } = true := hvar
    rw [var_regs, List.filter_append, List.filter_cons_of_pos hvar', List.filter_nil]
    rfl
  refine ⟨hpath, .inr ⟨?_, hmatches, ?_, ?_⟩⟩
  · intro r hr
    rcases List.mem_append.mp hr with hr | hr
    · exact hnone r hr
    · rw [List.mem_singleton.mp hr]
      exact hnone c hregs
  · -- the new pattern has the shape of `c`
    rintro ⟨i, s, hs, hi, q, hq, hpre⟩
    rw [puts, hvars, List.map_append] at hq
    rcases List.mem_append.mp hq with hq | hq
    · exact hclear ⟨i, s, hs, hi, q, hq, hpre⟩
    · rw [List.map_singleton, List.mem_singleton] at hq
      rw [hq] at hpre
      exact hclear ⟨i, s, hs, hi, c.put, mem_puts_of_find hlast, hpre⟩
  · rw [hvars, List.reverse_append, List.reverse_singleton, List.singleton_append,
      List.find?_cons_of_pos (by simp)]

/-- `bind_api_sign` and `reg_api` on the api of `r`, which is registered after `before`. -/
structure Agree (before : List (Reg HttpMethod Handler)) (r : Reg HttpMethod Handler) : Prop where
  bind_ok : ∀ service sign, ∃ service', bind_api_sign service sign r.api = .ok service'
  reg_ok : ∀ mapper : FunctionMapper Handler, ∃ mapper', reg_api mapper r.api r.name = .ok mapper'
  /-- both take it for an api with a variable, or none does -/
  same : ∀ sign service (mapper : FunctionMapper Handler),
    bind_api_sign .new sign r.api = .ok service → reg_api .new r.api r.name = .ok mapper →
      ((∃ path, service._api_path_var_sign_mapper path = some sign) ↔
        ∃ σ, end_at mapper._path_vars σ = some r.name)
  /-- the path that brpc forwards has the name, whatever is registered later -/
  found : ∀ sign service path, bind_api_sign .new sign r.api = .ok service →
    service._api_sign_mapper path = some sign → (∀ q ∈ before, q.api ≠ r.api) →
      ∀ after mapper (method : HttpMethod), reg_all (before ++ r :: after) = .ok mapper →
        ∃ vars, fetch_name mapper ⟨method, path⟩ ∅ = .ok (r.name, vars)

theorem reg_all_ok_iff {regs : List (Reg HttpMethod Handler)} :
    (∃ mapper, reg_all regs = .ok mapper) ↔ ∀ r ∈ regs, Str.trim r.api [] ≠ [] :=
  foldlM_reg_ok_iff .new

theorem bind_api_sign_ok_iff {api : Str} (hapi : api ≠ []) {service : BrpcService} {sign : Str} :
    (∃ service', bind_api_sign service sign api = .ok service') ↔
      path_in api ≠ [] ∧ path_in api ≠ lit "/" := by
  rw [bind_api_sign_eq hapi, ← not_or, ← strip_eq_nil_iff]
  by_cases hnil : strip (path_in api) = [] <;> simp [hnil]

/-- What a new service files. -/
theorem bind_new {sign api : Str} (hapi : api ≠ []) {service : BrpcService}
    (h : bind_api_sign .new sign api = .ok service) (path : Str) :
    (service._api_path_var_sign_mapper path = some sign ↔
      has_path_var api = true ∧ slashed (strip (path_in api)) = path) ∧
    (service._api_sign_mapper path = some sign ↔
      has_path_var api = false ∧ slashed (strip (path_in api)) = path) := by
  rw [bind_api_sign_eq hapi] at h
  split at h
  · cases h
  · cases h
    cases hfetch : fetch_path_vars_prefix api <;>
      simp [BrpcService.new, emplace_apply, has_path_var, hfetch]

/-- The trie of a new mapper, with the one api in it if there is a variable. -/
theorem reg_api_new {r : Reg HttpMethod Handler} {mapper : FunctionMapper Handler}
    (h : reg_api .new r.api r.name = .ok mapper) :
    (∃ σ, end_at mapper._path_vars σ = some r.name) ↔ r.has_var = true := by
  have hreg : reg .new r = .ok { mapper with _funcs := emplace mapper._funcs r.name r.ctx_func } := by
    rw [reg, h]
    rfl
  obtain ⟨-, -, hvars⟩ := reg_ok hreg
  have hnew : ∀ σ, end_at (FunctionMapper.new : FunctionMapper Handler)._path_vars σ = none := by
    intro σ
    exact end_at_put_all [] σ
  have hvars : mapper._path_vars = if r.has_var then
      (UrlTrie.put (FunctionMapper.new : FunctionMapper Handler)._path_vars r.path r.name).2
      else (FunctionMapper.new : FunctionMapper Handler)._path_vars := hvars
  rw [hvars]
  by_cases hvar : r.has_var = true
  · refine iff_of_true ⟨r.put.shape, ?_⟩ hvar
    rw [if_pos hvar, UrlTrie.put, end_at_put]
    exact if_pos rfl
  · refine iff_of_false ?_ hvar
    rintro ⟨σ, hend⟩
    rw [if_neg hvar, hnew] at hend
    cases hend

/-- A name that the mapper finds whatever is registered later is not found in the tree: a
later registration of the same pattern puts its own name there. -/
theorem exists_path_of_found {before : List (Reg HttpMethod Handler)} {r : Reg HttpMethod Handler}
    {path : Str} (hname : r.name ≠ []) (hregs : ∀ q ∈ before ++ [r], Str.trim q.api [] ≠ [])
    (hfound : ∀ after mapper (method : HttpMethod), reg_all ((before ++ [r]) ++ after) = .ok mapper →
      ∃ vars, fetch_name mapper ⟨method, slashed path⟩ ∅ = .ok (r.name, vars)) :
    ∃ c, (before ++ [r]).find? (fun q => q.path = slashed path) = some c := by
  cases hfind : (before ++ [r]).find? fun q => q.path = slashed path with
  | some c => exact ⟨c, rfl⟩
  | none =>
    have hnone : ∀ q ∈ before ++ [r], q.path ≠ slashed (slashed path) := by
      rw [slashed_slashed]
      simpa using List.find?_eq_none.mp hfind
    obtain ⟨mapper, hmapper⟩ := reg_all_ok_iff.mpr hregs
    obtain ⟨vars, hfetch⟩ := hfound [] mapper r.method (by rw [List.append_nil, hmapper])
    obtain ⟨c, hc, -⟩ := (fetch_name_iff hmapper ⟨r.method, slashed path⟩ hname).mp
      ⟨vars, hfetch⟩
    have hmem : c ∈ before ++ [r] := by
      obtain ⟨-, hfirst | ⟨-, -, -, hlast⟩⟩ := hc
      · exact List.mem_of_find?_eq_some hfirst
      · exact List.mem_of_mem_filter (List.mem_reverse.mp (List.mem_of_find?_eq_some hlast))
    have hover := hc.overwritten hnone (0 :: r.name)
    have hregs' : ∀ q ∈ (before ++ [r]) ++ [{ c with name := 0 :: r.name }],
        Str.trim q.api [] ≠ [] := by
      intro q hq
      rcases List.mem_append.mp hq with hq | hq
      · exact hregs q hq
      · rw [List.mem_singleton.mp hq]
        exact hregs c hmem
    obtain ⟨mapper', hmapper'⟩ := reg_all_ok_iff.mpr hregs'
    obtain ⟨vars', hfetch'⟩ := hfound [{ c with name := 0 :: r.name }] mapper' r.method hmapper'
    obtain ⟨d, hd, hdname⟩ := (fetch_name_iff hmapper' ⟨r.method, slashed path⟩ hname).mp
      ⟨vars', hfetch'⟩
    rw [hd.unique hover] at hdname
    have hlength := congrArg List.length hdname
    rw [List.length_cons] at hlength
    omega

/-- The names behind the path that brpc forwards: the first registration of it must be
there with `r`, and have its name. -/
theorem found_iff {before : List (Reg HttpMethod Handler)} {r : Reg HttpMethod Handler} {path : Str}
    (hname : r.name ≠ []) (hregs : ∀ q ∈ before ++ [r], Str.trim q.api [] ≠ []) :
    (∀ after mapper (method : HttpMethod), reg_all (before ++ r :: after) = .ok mapper →
      ∃ vars, fetch_name mapper ⟨method, slashed path⟩ ∅ = .ok (r.name, vars)) ↔
    ∃ c, (before ++ [r]).find? (fun q => q.path = slashed path) = some c ∧ c.name = r.name := by
  have happend : ∀ after, before ++ r :: after = (before ++ [r]) ++ after := by
    intro after
    rw [List.append_assoc, List.singleton_append]
  constructor
  · intro hfound
    obtain ⟨c, hfind⟩ := exists_path_of_found hname hregs fun after mapper method hmapper =>
      hfound after mapper method (by rw [happend, hmapper])
    obtain ⟨mapper, hmapper⟩ := reg_all_ok_iff.mpr hregs
    obtain ⟨vars, hfetch⟩ := hfound [] mapper r.method hmapper
    have hfind' : (before ++ [r]).find? (fun q => q.path = slashed (slashed path)) = some c := by
      rw [slashed_slashed, hfind]
    rw [fetch_name_of_find hmapper (slashed_ne_nil path) hfind', Except.ok.injEq,
      Prod.mk.injEq] at hfetch
    exact ⟨c, hfind, hfetch.1⟩
  · rintro ⟨c, hc, hcname⟩ after mapper method hmapper
    rw [happend] at hmapper
    refine ⟨∅, ?_⟩
    rw [← hcname]
    apply fetch_name_of_find hmapper (slashed_ne_nil path)
    rw [slashed_slashed, List.find?_append, hc]
    rfl

/-- **When the two agree on an api.** Something other than a `/` stands in front of the
variable, or there is none; and without a variable brpc forwards a path whose first
registration has the name, unless the api has been registered before. -/
theorem agree_iff (before : List (Reg HttpMethod Handler))
    (hbefore : ∃ mapper, reg_all before = .ok mapper) (r : Reg HttpMethod Handler)
    (hname : r.name ≠ []) (hapi : r.api ≠ []) :
    Agree before r ↔
      path_in r.api ≠ [] ∧ path_in r.api ≠ lit "/" ∧ Str.trim r.api [] ≠ [] ∧
        (has_path_var r.api = true ∨
          (Str.trim r.api []).head? ≠ some 123 ∧
            ((∃ q ∈ before, q.api = r.api) ∨
              ∃ c, (before ++ [r]).find? (fun q => q.path = slashed (strip r.api)) = some c ∧
                c.name = r.name)) := by
  have hregs : Str.trim r.api [] ≠ [] → ∀ q ∈ before ++ [r], Str.trim q.api [] ≠ [] := by
    intro htrim q hq
    rcases List.mem_append.mp hq with hq | hq
    · exact reg_all_ok_iff.mp hbefore q hq
    · rwa [List.mem_singleton.mp hq]
  constructor
  · intro h
    obtain ⟨hne, hne_slash⟩ := (bind_api_sign_ok_iff hapi).mp (h.bind_ok .new [])
    obtain ⟨mapper, hmapper⟩ := h.reg_ok .new
    obtain ⟨service, hservice⟩ := h.bind_ok .new []
    have htrim : Str.trim r.api [] ≠ [] := by
      intro hnil
      rw [reg_api, hnil] at hmapper
      cases hmapper
    refine ⟨hne, hne_slash, htrim, ?_⟩
    have hsame := h.same [] service mapper hservice hmapper
    rw [reg_api_new hmapper, Reg.has_var_iff] at hsame
    cases hvar : has_path_var r.api with
    | true => exact .inl rfl
    | false =>
      refine .inr ⟨?_, ?_⟩
      · intro hbrace
        obtain ⟨path, hpath⟩ := hsame.mpr (.inr hbrace)
        rw [(bind_new hapi hservice path).1, hvar] at hpath
        cases hpath.1
      · by_cases hknown : ∃ q ∈ before, q.api = r.api
        · exact .inl hknown
        · refine .inr ((found_iff hname (hregs htrim)).mp ?_)
          have hfresh : ∀ q ∈ before, q.api ≠ r.api := fun q hq heq => hknown ⟨q, hq, heq⟩
          refine h.found [] service _ hservice ?_ hfresh
          rw [(bind_new hapi hservice _).2, path_in_eq_self hvar]
          exact ⟨hvar, rfl⟩
  · rintro ⟨hne, hne_slash, htrim, hvar⟩
    constructor
    · exact fun service sign => (bind_api_sign_ok_iff hapi).mpr ⟨hne, hne_slash⟩
    · intro mapper
      obtain ⟨mapper', hreg⟩ := (reg_ok_iff mapper).mpr htrim
      obtain ⟨mapper₁, hreg, -⟩ := run_bind_eq_ok.mp hreg
      exact ⟨mapper₁, hreg⟩
    · intro sign service mapper hservice hmapper
      rw [reg_api_new hmapper, Reg.has_var_iff]
      constructor
      · rintro ⟨path, hpath⟩
        exact .inl ((bind_new hapi hservice path).1.mp hpath).1
      · intro hsome
        have hpre : has_path_var r.api = true := by
          rcases hsome with hsome | hbrace
          · exact hsome
          · exact hvar.resolve_right fun h => h.1 hbrace
        exact ⟨_, (bind_new hapi hservice _).1.mpr ⟨hpre, rfl⟩⟩
    · intro sign service path hservice hpath hfresh after mapper method hmapper
      obtain ⟨hpre, rfl⟩ := (bind_new hapi hservice path).2.mp hpath
      rw [hpre] at hvar
      rcases hvar with hsome | ⟨-, ⟨q, hq, heq⟩ | hfirst⟩
      · cases hsome
      · exact absurd heq (hfresh q hq)
      · rw [path_in_eq_self hpre]
        exact (found_iff hname (hregs htrim)).mpr hfirst after mapper method hmapper

/-- The api `/users` behind `/rooms`. -/
theorem agree_iff_users :
    let rooms : Reg Str Nat := ⟨lit "/rooms", lit "rooms-GET-list", lit "GET", 1⟩
    let users : Reg Str Nat := ⟨lit "/users", lit "users-GET-list", lit "GET", 2⟩
    Agree [rooms] users ↔
      path_in users.api ≠ [] ∧ path_in users.api ≠ lit "/" ∧ Str.trim users.api [] ≠ [] ∧
        (has_path_var users.api = true ∨
          (Str.trim users.api []).head? ≠ some 123 ∧
            ((∃ q ∈ [rooms], q.api = users.api) ∨
              ∃ c, ([rooms] ++ [users]).find? (fun q => q.path = slashed (strip users.api)) =
                some c ∧ c.name = users.name)) :=
  agree_iff _ ⟨_, rfl⟩ _ (by decide) (by decide)

/-- Nothing stands in front of the variable of `/{id}`, and `bind_api_sign` asks for the
last byte of it. -/
theorem disagree_root_var :
    ¬ ∀ (before : List (Reg Str Nat)) (r : Reg Str Nat), (∃ mapper, reg_all before = .ok mapper) →
      r.name ≠ [] → r.api ≠ [] → Agree before r := by
  intro hall
  have hagree := hall [] ⟨lit "/{id}", lit "users-GET-one", lit "GET", 1⟩ ⟨_, rfl⟩ (by decide)
    (by decide)
  obtain ⟨service, hservice⟩ := hagree.bind_ok .new []
  cases hservice

/-- `/users/` is forwarded as `/users`, which nobody has registered. -/
theorem disagree_trailing_slash :
    ¬ Agree [] (⟨lit "/users/", lit "users-GET-list", lit "GET", 1⟩ : Reg Str Nat) := by
  intro hagree
  obtain ⟨vars, hfetch⟩ := hagree.found [] _ (lit "/users") rfl rfl (List.forall_mem_nil _) []
    _ (lit "GET") rfl
  cases hfetch

end Rellaf.Brpc
