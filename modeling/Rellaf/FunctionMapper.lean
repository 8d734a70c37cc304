/-
`FunctionMapper` and `BrpcService::entry`: from the path of a request to the
handler that runs.

Three registries stand in a row. `_api_hdrs` has the name of the first registration
of a path, `_path_vars` the last name of a pattern of each shape, and `_funcs` the
first function of a name (`reg_all_ok`). None of them knows the method, which `reg`
takes and drops, so the handler that runs has the method of the request only under
the condition of `dispatched_iff`.
-/
import Rellaf.UrlRoutes

set_option autoImplicit false

open Rellaf.Cpp

namespace Rellaf.Brpc

open UrlTrie

-- the method is only handed around, and so is the handler, a `std::function`
variable {HttpMethod Handler : Type}

/-! ## Registration -/

structure FunctionMapper (Handler : Type) where
  /-- api, name -/
  _api_hdrs : Str → Option Str
  _path_vars : UrlTrieNode
  _funcs : Str → Option Handler

def FunctionMapper.new : FunctionMapper Handler := ⟨fun _ => none, .new, fun _ => none⟩

/-- `m.emplace(key, value)` of an unordered map: an entry that exists stays. -/
def emplace {V : Type} (m : Str → Option V) (key : Str) (value : V) : Str → Option V :=
  match m key with
  | some _ => m
  | none => Function.update m key (some value)

/-- `UrlPattern::fetch_path_vars_prefix`; `none` is `false`. -/
def fetch_path_vars_prefix (path : Str) : Option Str :=
  match find path (lit "/\x7b") 0 with
  | none => none
  | some pos => some (substr path 0 (some pos))

/-- `if (api.front() != '/') { api = "/" + api; }` -/
def slash (api : Str) : Run Str := do
  if (← front api) ≠ 47 then return 47 :: api else return api

def reg_api (mapper : FunctionMapper Handler) (api name : Str) : Run (FunctionMapper Handler) := do
  let api_filter ← slash (Str.trim api [])
  let mapper := { mapper with _api_hdrs := emplace mapper._api_hdrs api_filter name }
  match fetch_path_vars_prefix api_filter with
  | some _ => return { mapper with _path_vars := (put mapper._path_vars api_filter name).2 }
  | none => return mapper

/-- The arguments of a call of `reg`. -/
structure Reg (HttpMethod Handler : Type) where
  api : Str
  name : Str
  method : HttpMethod
  ctx_func : Handler

def reg (mapper : FunctionMapper Handler) (r : Reg HttpMethod Handler) :
    Run (FunctionMapper Handler) := do
  let mapper ← reg_api mapper r.api r.name
  return { mapper with _funcs := emplace mapper._funcs r.name r.ctx_func }

/-- The calls of `reg`, the first one first. -/
def reg_all (regs : List (Reg HttpMethod Handler)) : Run (FunctionMapper Handler) :=
  regs.foldlM reg .new

/-! ## A request -/

structure HttpHeader (HttpMethod : Type) where
  method : HttpMethod
  path : Str

/-- The name returned, empty when there is none, and `vars`. -/
def fetch_name (mapper : FunctionMapper Handler) (header : HttpHeader HttpMethod)
    (vars : Std.ExtTreeMap Str Str) : Run (Str × Std.ExtTreeMap Str Str) := do
  let api ← slash header.path
  match mapper._api_hdrs api with
  | some name => return (name, vars)
  | none =>
    match fetch_vars mapper._path_vars api [] vars with
    | (false, _, vars) => return ([], vars)
    | (true, name, vars) => return (name, vars)

/-- What `entry` does with a request. -/
inductive Served (Handler : Type) where
  /-- `HTTP_STATUS_NOT_FOUND` and an empty body -/
  | not_found
  /-- `invoke` returns -1 without a call -/
  | no_func
  /-- the handler is called with these path variables -/
  | ran (func : Handler) (path_vars : Std.ExtTreeMap Str Str)

def invoke (mapper : FunctionMapper Handler) (name : Str) (vars : Std.ExtTreeMap Str Str) :
    Served Handler :=
  match mapper._funcs name with
  | none => .no_func
  | some func => .ran func vars

def entry (mapper : FunctionMapper Handler) (header : HttpHeader HttpMethod) :
    Run (Served Handler) := do
  let (name, vars) ← fetch_name mapper header ∅
  if name.isEmpty then return .not_found else return invoke mapper name vars

/-! ## What the registries hold -/

/-- A path with its `/`. -/
def slashed (api : Str) : Str := if api.head? = some 47 then api else 47 :: api

/-- The path an api is registered for. -/
def Reg.path (r : Reg HttpMethod Handler) : Str := slashed (Str.trim r.api [])

/-- The api has a variable, or something that starts like one. -/
def Reg.has_var (r : Reg HttpMethod Handler) : Bool :=
  match fetch_path_vars_prefix r.path with
  | some _ => true
  | none => false

def Reg.put (r : Reg HttpMethod Handler) : Put := ⟨r.path, r.name⟩

/-- The registrations that `_path_vars` has got. -/
def var_regs (regs : List (Reg HttpMethod Handler)) : List (Reg HttpMethod Handler) :=
  regs.filter Reg.has_var

def puts (regs : List (Reg HttpMethod Handler)) : List Put := (var_regs regs).map Reg.put

theorem slash_ok {api : Str} (h : api ≠ []) : slash api = .ok (slashed api) := by
  cases api with
  | nil => exact absurd rfl h
  | cons c api =>
    rw [slash, slashed, front_cons, run_ok_bind]
    by_cases hc : c = 47
    · subst hc
      rfl
    · rw [if_pos hc]
      simp [hc]

theorem emplace_apply {V : Type} (m : Str → Option V) (key : Str) (value : V) (k : Str) :
    emplace m key value k = (m k).or (if key = k then some value else none) := by
  rw [emplace]
  by_cases hk : key = k
  · subst hk
    cases hm : m key with
    | none => simp
    | some v => simp [hm]
  · have hne : k ≠ key := fun h => hk h.symm
    cases hm : m key with
    | none => simp [hk, hne]
    | some v => simp [hk]

/-- One registration. -/
theorem reg_ok {mapper mapper' : FunctionMapper Handler} {r : Reg HttpMethod Handler}
    (h : reg mapper r = .ok mapper') :
    mapper'._api_hdrs = emplace mapper._api_hdrs r.path r.name ∧
      mapper'._funcs = emplace mapper._funcs r.name r.ctx_func ∧
      mapper'._path_vars = if r.has_var then (UrlTrie.put mapper._path_vars r.path r.name).2
        else mapper._path_vars := by
  obtain ⟨mapper₁, hapi, h⟩ := run_bind_eq_ok.mp h
  cases h
  have hne : Str.trim r.api [] ≠ [] := by
    intro hnil
    rw [reg_api, hnil] at hapi
    cases hapi
  have hslash : slash (Str.trim r.api []) = .ok r.path := slash_ok hne
  rw [reg_api, hslash, run_ok_bind] at hapi
  rw [Reg.has_var]
  cases hfetch : fetch_path_vars_prefix r.path with
  | none =>
    simp only [hfetch] at hapi
    cases hapi
    exact ⟨rfl, rfl, rfl⟩
  | some _ =>
    simp only [hfetch] at hapi
    cases hapi
    exact ⟨rfl, rfl, rfl⟩

/-- All registrations, on top of what the registries hold. -/
theorem foldlM_reg_ok {regs : List (Reg HttpMethod Handler)} :
    ∀ {mapper mapper' : FunctionMapper Handler}, regs.foldlM reg mapper = .ok mapper' →
      (∀ path, mapper'._api_hdrs path = (mapper._api_hdrs path).or
        ((regs.find? fun r => r.path = path).map Reg.name)) ∧
      (∀ name, mapper'._funcs name = (mapper._funcs name).or
        ((regs.find? fun r => r.name = name).map Reg.ctx_func)) ∧
      mapper'._path_vars =
        (puts regs).foldl (fun _entrys p => (UrlTrie.put _entrys p.path p.name).2)
          mapper._path_vars := by
  induction regs with
  | nil =>
    intro mapper mapper' h
    cases h
    simp [puts, var_regs]
  | cons r regs ih =>
    intro mapper mapper' h
    rw [List.foldlM_cons] at h
    obtain ⟨mapper₁, hreg, hrest⟩ := run_bind_eq_ok.mp h
    obtain ⟨hapi, hfuncs, hvars⟩ := reg_ok hreg
    obtain ⟨hapi', hfuncs', hvars'⟩ := ih hrest
    -- what the registries held before `r` comes first, then `r`, then the rest
    refine ⟨?_, ?_, ?_⟩
    · intro path
      rw [hapi', hapi, emplace_apply, Option.or_assoc, List.find?_cons]
      by_cases hpath : r.path = path <;> simp [hpath]
    · intro name
      rw [hfuncs', hfuncs, emplace_apply, Option.or_assoc, List.find?_cons]
      by_cases hname : r.name = name <;> simp [hname]
    · rw [hvars', hvars, puts, puts, var_regs, var_regs, List.filter_cons]
      by_cases hvar : r.has_var = true <;> simp [hvar, Reg.put]

/-- After all registrations: the first name of a path, the first function of a name,
and the tree of the patterns with variables. -/
theorem reg_all_ok {regs : List (Reg HttpMethod Handler)} {mapper : FunctionMapper Handler}
    (h : reg_all regs = .ok mapper) :
    (∀ path, mapper._api_hdrs path = (regs.find? fun r => r.path = path).map Reg.name) ∧
      (∀ name, mapper._funcs name = (regs.find? fun r => r.name = name).map Reg.ctx_func) ∧
      mapper._path_vars = put_all (puts regs) := foldlM_reg_ok h

/-! ## Every name has a function -/

/-- A name that a path can lead to, by `_api_hdrs` or by an end in the tree, is a key of
`_funcs`. -/
structure Routed (mapper : FunctionMapper Handler) : Prop where
  api_hdrs : ∀ path name, mapper._api_hdrs path = some name → (mapper._funcs name).isSome = true
  path_vars : ∀ σ name, end_at mapper._path_vars σ = some name → (mapper._funcs name).isSome = true

theorem routed_new : Routed (.new : FunctionMapper Handler) where
  api_hdrs _ _ h := nomatch h
  path_vars σ name h := by
    have hnone : end_at (FunctionMapper.new : FunctionMapper Handler)._path_vars σ = none :=
      end_at_new σ
    rw [hnone] at h
    cases h

/-- A key stays a key. -/
theorem emplace_isSome {V : Type} {m : Str → Option V} {key k : Str} {value : V}
    (h : (m k).isSome = true ∨ k = key) : (emplace m key value k).isSome = true := by
  rw [emplace_apply]
  rcases h with h | rfl
  · rw [Option.isSome_or, h, Bool.true_or]
  · rw [if_pos rfl, Option.isSome_or, Option.isSome_some, Bool.or_true]

/-- A name that was there keeps its function, and the new one gets one. -/
theorem reg_routed {mapper mapper' : FunctionMapper Handler} {r : Reg HttpMethod Handler}
    (hrouted : Routed mapper) (h : reg mapper r = .ok mapper') : Routed mapper' := by
  obtain ⟨hapi, hfuncs, hvars⟩ := reg_ok h
  constructor
  · intro path name hname
    rw [hapi, emplace_apply, Option.or_eq_some_iff] at hname
    rw [hfuncs]
    rcases hname with hname | ⟨-, hname⟩
    · exact emplace_isSome (.inl (hrouted.api_hdrs path name hname))
    · rw [Option.ite_none_right_eq_some, Option.some.injEq] at hname
      exact emplace_isSome (.inr hname.2.symm)
  · intro σ name hname
    rw [hfuncs]
    by_cases hvar : r.has_var = true
    · -- an end of the tree is overwritten, a node of it at most becomes one
      rw [hvars, if_pos hvar, UrlTrie.put, end_at_put] at hname
      split at hname
      · exact emplace_isSome (.inr (Option.some.inj hname).symm)
      · exact emplace_isSome (.inl (hrouted.path_vars σ name hname))
    · rw [hvars, if_neg hvar] at hname
      exact emplace_isSome (.inl (hrouted.path_vars σ name hname))

theorem reg_all_routed {regs : List (Reg HttpMethod Handler)} {mapper : FunctionMapper Handler}
    (h : reg_all regs = .ok mapper) : Routed mapper := by
  have hrun : ∀ {mapper₀ : FunctionMapper Handler}, Routed mapper₀ →
      regs.foldlM reg mapper₀ = .ok mapper → Routed mapper := by
    clear h
    induction regs with
    | nil =>
      intro mapper₀ hrouted h
      cases h
      exact hrouted
    | cons r regs ih =>
      intro mapper₀ hrouted h
      rw [List.foldlM_cons] at h
      obtain ⟨mapper₁, hreg, hrest⟩ := run_bind_eq_ok.mp h
      exact ih (reg_routed hrouted hreg) hrest
  exact hrun routed_new h

theorem Routed.fetch_name {mapper : FunctionMapper Handler} (hrouted : Routed mapper)
    {header : HttpHeader HttpMethod} {name : Str} {vars vars' : Std.ExtTreeMap Str Str}
    (h : fetch_name mapper header vars = .ok (name, vars')) (hname : name ≠ []) :
    (mapper._funcs name).isSome = true := by
  obtain ⟨api, -, h⟩ := run_bind_eq_ok.mp h
  cases hapi : mapper._api_hdrs api with
  | some n =>
    simp only [hapi] at h
    cases h
    exact hrouted.api_hdrs api name hapi
  | none =>
    rcases hfetch : fetch_vars mapper._path_vars api [] vars with ⟨b, n, vals⟩
    simp only [hapi, hfetch] at h
    cases b with
    | false =>
      cases h
      exact absurd rfl hname
    | true =>
      cases h
      obtain ⟨σ, -, hend, -⟩ := fetch_vars_eq_true_iff.mp hfetch
      exact hrouted.path_vars σ name hend

/-- **No route dangles.** A name that `fetch_name` returns has a function, after any
registrations and for any path. -/
theorem fetch_name_has_func (regs : List (Reg HttpMethod Handler)) (mapper : FunctionMapper Handler)
    (h : reg_all regs = .ok mapper) (header : HttpHeader HttpMethod)
    (vars vars' : Std.ExtTreeMap Str Str) (name : Str)
    (hfetch : fetch_name mapper header vars = .ok (name, vars')) (hname : name ≠ []) :
    (mapper._funcs name).isSome = true ∧ ∃ func, invoke mapper name vars' = .ran func vars' := by
  have hfunc := (reg_all_routed h).fetch_name hfetch hname
  refine ⟨hfunc, ?_⟩
  obtain ⟨func, hfunc⟩ := Option.isSome_iff_exists.mp hfunc
  exact ⟨func, by rw [invoke, hfunc]⟩

/-- Two patterns of one shape: the path gets the name of the second. -/
theorem fetch_name_has_func_shared :
    ∃ mapper : FunctionMapper Nat,
      reg_all [⟨lit "/{id}", lit "a", lit "GET", 1⟩, ⟨lit "/{name}", lit "b", lit "GET", 2⟩] =
        .ok mapper ∧
      (mapper._funcs (lit "b")).isSome = true ∧
      ∃ func, invoke mapper (lit "b") ((∅ : Std.ExtTreeMap Str Str).insert (lit "id") (lit "7")) =
        .ran func ((∅ : Std.ExtTreeMap Str Str).insert (lit "id") (lit "7")) :=
  ⟨_, rfl, fetch_name_has_func [⟨lit "/{id}", lit "a", lit "GET", 1⟩,
    ⟨lit "/{name}", lit "b", lit "GET", 2⟩] _ rfl ⟨lit "GET", lit "/7"⟩ ∅ _ _ rfl (by decide)⟩

/-! ## What a request gets -/

/-- The api matches the path, section by section. -/
def Reg.Matches (r : Reg HttpMethod Handler) (path : Str) : Prop :=
  r.put.Matches (Str.split path (lit "/"))

/-- The registration whose name a request gets: the first one of exactly its path,
else the last one of the shape that the walk down the tree ends at. -/
def Chosen (regs : List (Reg HttpMethod Handler)) (header : HttpHeader HttpMethod)
    (c : Reg HttpMethod Handler) : Prop :=
  let path := slashed header.path
  header.path ≠ [] ∧ (regs.find? (fun r => r.path = path) = some c ∨
    (∀ r ∈ regs, r.path ≠ path) ∧ c.Matches path ∧
      ¬ c.put.Shadowed (puts regs) (Str.split path (lit "/")) ∧
      (var_regs regs).reverse.find? (fun r => r.put.shape = c.put.shape) = some c)

/-- Which registration runs is a matter of the name alone. -/
def Runs (regs : List (Reg HttpMethod Handler)) (name : Str) (f : Reg HttpMethod Handler) : Prop :=
  name ≠ [] ∧ regs.find? (fun r => r.name = name) = some f

theorem last_name_puts (regs : List (Reg HttpMethod Handler)) (σ : List Seg) :
    last_name (puts regs) σ =
      ((var_regs regs).reverse.find? fun r => r.put.shape = σ).map Reg.name := by
  rw [last_name, puts, ← List.map_reverse, List.find?_map, Option.map_map]
  rfl

theorem mem_puts_of_find {regs : List (Reg HttpMethod Handler)} {c : Reg HttpMethod Handler}
    {p : Reg HttpMethod Handler → Bool} (h : (var_regs regs).reverse.find? p = some c) :
    c.put ∈ puts regs :=
  List.mem_map_of_mem (List.mem_reverse.mp (List.mem_of_find?_eq_some h))

/-- The exact path is looked up first. -/
theorem Chosen.of_find {regs : List (Reg HttpMethod Handler)} {header : HttpHeader HttpMethod}
    {c d : Reg HttpMethod Handler} (hc : Chosen regs header c)
    (hd : regs.find? (fun r => r.path = slashed header.path) = some d) : d = c := by
  obtain ⟨-, hfirst | ⟨hnone, -⟩⟩ := hc
  · exact Option.some.inj (hd.symm.trans hfirst)
  · have hpath : d.path = slashed header.path := by simpa using List.find?_some hd
    exact absurd hpath (hnone d (List.mem_of_find?_eq_some hd))

/-- `fetch_name` finds the name of the chosen registration. -/
theorem fetch_name_iff {regs : List (Reg HttpMethod Handler)} {mapper : FunctionMapper Handler}
    (h : reg_all regs = .ok mapper) (header : HttpHeader HttpMethod) {name : Str}
    (hname : name ≠ []) :
    (∃ vars, fetch_name mapper header ∅ = .ok (name, vars)) ↔
      ∃ c, Chosen regs header c ∧ c.name = name := by
  obtain ⟨hapi, -, hvars⟩ := reg_all_ok h
  by_cases hpath : header.path = []
  · constructor
    · rintro ⟨vars, hfetch⟩
      rw [fetch_name, hpath] at hfetch
      cases hfetch
    · rintro ⟨c, hc, -⟩
      exact absurd hpath hc.1
  rw [fetch_name, slash_ok hpath, run_ok_bind, hapi, hvars]
  -- the exact path, and the tree only where nobody has registered it
  cases hfind : regs.find? fun r => r.path = slashed header.path with
  | some c =>
    rw [Option.map_some]
    constructor
    · rintro ⟨vars, hfetch⟩
      cases hfetch
      exact ⟨c, ⟨hpath, .inl hfind⟩, rfl⟩
    · rintro ⟨d, hd, rfl⟩
      obtain rfl := hd.of_find hfind
      exact ⟨∅, rfl⟩
  | none =>
    rw [Option.map_none]
    have hnone : ∀ r ∈ regs, r.path ≠ slashed header.path := by
      simpa using List.find?_eq_none.mp hfind
    constructor
    · rintro ⟨vars, hfetch⟩
      rcases hwalk : fetch_vars (put_all (puts regs)) (slashed header.path) [] ∅ with ⟨b, n, vals⟩
      rw [hwalk] at hfetch
      cases b with
      | false =>
        cases hfetch
        exact absurd rfl hname
      | true =>
        cases hfetch
        obtain ⟨p, hp, hmatches, -, hlast, hw, -⟩ := fetch_vars_put_all hwalk
        rw [last_name_puts, Option.map_eq_some_iff] at hlast
        obtain ⟨c, hc, rfl⟩ := hlast
        -- the walk ends at a shape; the name there is the last one put for it, which may be that
        -- of another pattern than `p`
        have hshape : c.put.shape = p.shape := by simpa using List.find?_some hc
        have hmem : c.put ∈ puts regs := mem_puts_of_find hc
        have hcmatches : c.Matches (slashed header.path) :=
          (Put.matches_of_shape hshape).mpr hmatches
        rw [← hshape] at hw hc
        exact ⟨c, ⟨hpath, .inr ⟨hnone, hcmatches, (descend_shape_iff hmem hcmatches).mp hw, hc⟩⟩, rfl⟩
    · rintro ⟨c, ⟨-, hc⟩, rfl⟩
      rcases hc with hfirst | ⟨-, hmatches, hclear, hlast⟩
      · rw [hfind] at hfirst
        cases hfirst
      · have hw := (descend_shape_iff (mem_puts_of_find hlast) hmatches).mpr hclear
        have hend : end_at (put_all (puts regs)) c.put.shape = some c.name := by
          rw [end_at_put_all, last_name_puts, hlast]
          rfl
        rw [fetch_vars_eq_true_iff.mpr ⟨c.put.shape, hw, hend, rfl⟩]
        exact ⟨_, rfl⟩

/-- What `entry` runs. -/
theorem entry_iff {regs : List (Reg HttpMethod Handler)} {mapper : FunctionMapper Handler}
    (h : reg_all regs = .ok mapper) (header : HttpHeader HttpMethod) (func : Handler) :
    (∃ vars, entry mapper header = .ok (.ran func vars)) ↔
      ∃ c f, Chosen regs header c ∧ Runs regs c.name f ∧ f.ctx_func = func := by
  obtain ⟨-, hfuncs, -⟩ := reg_all_ok h
  constructor
  · rintro ⟨vars, hentry⟩
    obtain ⟨⟨name, vars'⟩, hfetch, hentry⟩ := run_bind_eq_ok.mp hentry
    by_cases hempty : name.isEmpty = true
    · simp only [hempty, if_true] at hentry
      cases hentry
    · simp only [hempty] at hentry
      have hname : name ≠ [] := by simpa using hempty
      obtain ⟨c, hc, rfl⟩ := (fetch_name_iff h header hname).mp ⟨vars', hfetch⟩
      rw [invoke, hfuncs] at hentry
      cases hfind : regs.find? fun r => r.name = c.name with
      | none =>
        rw [hfind] at hentry
        cases hentry
      | some f =>
        rw [hfind] at hentry
        cases hentry
        exact ⟨c, f, hc, ⟨hname, hfind⟩, rfl⟩
  · rintro ⟨c, f, hc, ⟨hname, hfind⟩, rfl⟩
    obtain ⟨vars, hfetch⟩ := (fetch_name_iff h header hname).mpr ⟨c, hc, rfl⟩
    have hempty : ¬ c.name.isEmpty = true := by simpa using hname
    refine ⟨vars, ?_⟩
    rw [entry, hfetch, run_ok_bind]
    simp only [hempty]
    rw [invoke, hfuncs, hfind]
    rfl

theorem Chosen.unique {regs : List (Reg HttpMethod Handler)} {header : HttpHeader HttpMethod}
    {c d : Reg HttpMethod Handler} (hc : Chosen regs header c) (hd : Chosen regs header d) :
    c = d := by
  obtain ⟨hpath, hfirst | ⟨hnone, hmatches, hclear, hlast⟩⟩ := hc
  · exact hd.of_find hfirst
  obtain ⟨-, hfirst | ⟨-, hmatches', hclear', hlast'⟩⟩ := hd
  · have hc : Chosen regs header c := ⟨hpath, .inr ⟨hnone, hmatches, hclear, hlast⟩⟩
    exact (hc.of_find hfirst).symm
  -- the walk ends at one shape, and that has one last registration
  have hshape : c.put.shape = d.put.shape := by
    have hw := (descend_shape_iff (mem_puts_of_find hlast) hmatches).mpr hclear
    have hw' := (descend_shape_iff (mem_puts_of_find hlast') hmatches').mpr hclear'
    exact Option.some.inj (hw.symm.trans hw')
  rw [hshape, hlast'] at hlast
  exact (Option.some.inj hlast).symm

theorem Chosen.mem {regs : List (Reg HttpMethod Handler)} {header : HttpHeader HttpMethod}
    {c : Reg HttpMethod Handler} (hc : Chosen regs header c) : c ∈ regs := by
  obtain ⟨-, hfirst | ⟨-, -, -, hlast⟩⟩ := hc
  · exact List.mem_of_find?_eq_some hfirst
  · have hmem : c ∈ var_regs regs := List.mem_reverse.mp (List.mem_of_find?_eq_some hlast)
    exact List.mem_of_mem_filter hmem

/-- An api matches itself. -/
theorem Reg.matches_path (r : Reg HttpMethod Handler) : r.Matches r.path :=
  List.forall₂_same.mpr fun _ _ => .inr rfl

theorem Chosen.matches {regs : List (Reg HttpMethod Handler)} {header : HttpHeader HttpMethod}
    {c : Reg HttpMethod Handler} (hc : Chosen regs header c) : c.Matches (slashed header.path) := by
  obtain ⟨-, hfirst | ⟨-, hmatches, -⟩⟩ := hc
  · have hpath : c.path = slashed header.path := by simpa using List.find?_some hfirst
    rw [← hpath]
    exact c.matches_path
  · exact hmatches

/-- A name that is not empty stands for a function. -/
theorem exists_runs {regs : List (Reg HttpMethod Handler)} {c : Reg HttpMethod Handler}
    (hc : c ∈ regs) (hname : c.name ≠ []) : ∃ f, Runs regs c.name f := by
  have hsome : (regs.find? fun r => r.name = c.name).isSome = true := by
    rw [List.find?_isSome]
    exact ⟨c, hc, by simp⟩
  obtain ⟨f, hf⟩ := Option.isSome_iff_exists.mp hsome
  exact ⟨f, hname, hf⟩

/-- Where the path itself is no api, a pattern that matches in no shadow leads to the last
registration of its shape. -/
theorem exists_chosen {regs : List (Reg HttpMethod Handler)} {header : HttpHeader HttpMethod}
    (hpath : header.path ≠ []) {c : Reg HttpMethod Handler} (hc : c ∈ var_regs regs)
    (hnone : ∀ r ∈ regs, r.path ≠ slashed header.path) (hmatches : c.Matches (slashed header.path))
    (hclear : ¬ c.put.Shadowed (puts regs) (Str.split (slashed header.path) (lit "/"))) :
    ∃ d, Chosen regs header d ∧ d.put.shape = c.put.shape := by
  have hsome :
      ((var_regs regs).reverse.find? fun r => r.put.shape = c.put.shape).isSome = true := by
    rw [List.find?_isSome]
    exact ⟨c, List.mem_reverse.mpr hc, by simp⟩
  obtain ⟨d, hd⟩ := Option.isSome_iff_exists.mp hsome
  have hshape : d.put.shape = c.put.shape := by simpa using List.find?_some hd
  have hdmatches : d.Matches (slashed header.path) := (Put.matches_of_shape hshape).mpr hmatches
  have hw := (descend_shape_iff (List.mem_map_of_mem hc) hmatches).mpr hclear
  rw [← hshape] at hw hd
  exact ⟨d, ⟨hpath, .inr ⟨hnone, hdmatches,
    (descend_shape_iff (mem_puts_of_find hd) hdmatches).mp hw, hd⟩⟩, hshape⟩

/-! ## The method of the handler that runs -/

/-- The request is one for this registration: the api matches its path, and the method is
its own. -/
def Reg.Answers (r : Reg HttpMethod Handler) (header : HttpHeader HttpMethod) : Prop :=
  r.Matches (slashed header.path) ∧ r.method = header.method

/-- The handler that `entry` runs was registered for an api that matches and with the
method of the request, and a request that somebody has registered for runs one. -/
def Dispatched (regs : List (Reg HttpMethod Handler)) (mapper : FunctionMapper Handler)
    (header : HttpHeader HttpMethod) : Prop :=
  (∀ func vars, entry mapper header = .ok (.ran func vars) →
    ∃ r ∈ regs, r.ctx_func = func ∧ r.Answers header) ∧
  ∀ r ∈ regs, r.Answers header → ∃ func vars, entry mapper header = .ok (.ran func vars)

/-- So a handler is reached by the requests that are for no other. -/
theorem Dispatched.reached {regs : List (Reg HttpMethod Handler)}
    {mapper : FunctionMapper Handler} {header : HttpHeader HttpMethod}
    (h : Dispatched regs mapper header) {r : Reg HttpMethod Handler} (hr : r ∈ regs)
    (hanswers : r.Answers header) (hunique : ∀ q ∈ regs, q.Answers header → q = r) :
    ∃ vars, entry mapper header = .ok (.ran r.ctx_func vars) := by
  obtain ⟨func, vars, hentry⟩ := h.2 r hr hanswers
  obtain ⟨q, hq, rfl, hqanswers⟩ := h.1 func vars hentry
  rw [hunique q hq hqanswers] at hentry
  exact ⟨vars, hentry⟩

/-- What was first registered under the name of `c` has, or shares its handler with one
that has, a matching api and the method; and `c` is without a name only where nobody has
registered the method. -/
structure NameHasMethod (regs : List (Reg HttpMethod Handler)) (header : HttpHeader HttpMethod)
    (c : Reg HttpMethod Handler) : Prop where
  named : ∀ r ∈ regs, r.Answers header → c.name ≠ []
  first : ∀ f, Runs regs c.name f → ∃ r ∈ regs, r.ctx_func = f.ctx_func ∧ r.Answers header

/-- The methods that the registrations of a path must have for a request of it. -/
structure MethodsAgree (regs : List (Reg HttpMethod Handler)) (header : HttpHeader HttpMethod) :
    Prop where
  /-- the path itself is an api: its first registration counts -/
  literal : header.path ≠ [] → ∀ c, regs.find? (fun r => r.path = slashed header.path) = some c →
    NameHasMethod regs header c
  /-- it is none: of the pattern in no shadow the last registration of its shape counts -/
  pattern : header.path ≠ [] → (∀ r ∈ regs, r.path ≠ slashed header.path) →
    ∀ c ∈ var_regs regs, c.Matches (slashed header.path) →
      ¬ c.put.Shadowed (puts regs) (Str.split (slashed header.path) (lit "/")) →
      (var_regs regs).reverse.find? (fun r => r.put.shape = c.put.shape) = some c →
      NameHasMethod regs header c
  /-- all patterns are in the shadow of another one: nobody has registered the method -/
  missed : (∀ r ∈ regs, r.path ≠ slashed header.path) →
    (∀ c ∈ var_regs regs, c.Matches (slashed header.path) →
      c.put.Shadowed (puts regs) (Str.split (slashed header.path) (lit "/"))) →
    ∀ r ∈ regs, ¬ r.Answers header
  /-- nor for a request without a path -/
  no_path : header.path = [] → ∀ r ∈ regs, ¬ r.Answers header

theorem MethodsAgree.of_chosen {regs : List (Reg HttpMethod Handler)}
    {header : HttpHeader HttpMethod} (h : MethodsAgree regs header) {c : Reg HttpMethod Handler}
    (hc : Chosen regs header c) : NameHasMethod regs header c := by
  have hmatches := hc.matches
  obtain ⟨hpath, hfirst | ⟨hnone, -, hclear, hlast⟩⟩ := hc
  · exact h.literal hpath c hfirst
  · have hvar : c ∈ var_regs regs := List.mem_reverse.mp (List.mem_of_find?_eq_some hlast)
    exact h.pattern hpath hnone c hvar hmatches hclear hlast

theorem MethodsAgree.exists_chosen {regs : List (Reg HttpMethod Handler)}
    {header : HttpHeader HttpMethod} (h : MethodsAgree regs header) {r : Reg HttpMethod Handler}
    (hr : r ∈ regs) (hanswers : r.Answers header) : ∃ c, Chosen regs header c := by
  by_contra hnot
  have hpath : header.path ≠ [] := fun hnil => h.no_path hnil r hr hanswers
  have hnone : ∀ q ∈ regs, q.path ≠ slashed header.path := by
    cases hfind : regs.find? fun q => q.path = slashed header.path with
    | none => simpa using List.find?_eq_none.mp hfind
    | some c => exact absurd ⟨c, hpath, .inl hfind⟩ hnot
  refine h.missed hnone ?_ r hr hanswers
  intro c hc hmatches
  by_contra hclear
  obtain ⟨d, hd, -⟩ := Brpc.exists_chosen hpath hc hnone hmatches hclear
  exact hnot ⟨d, hd⟩

/-- **When the handler has the method of the request.** The registration that the path
leads to does not know the method, so what stands first under its name must have it. -/
theorem dispatched_iff (regs : List (Reg HttpMethod Handler)) (mapper : FunctionMapper Handler)
    (h : reg_all regs = .ok mapper) (header : HttpHeader HttpMethod) :
    Dispatched regs mapper header ↔ MethodsAgree regs header := by
  constructor
  · rintro ⟨hmethod, hreached⟩
    have hnamed : ∀ c, Chosen regs header c → NameHasMethod regs header c := by
      intro c hc
      constructor
      · intro r hr hanswers
        obtain ⟨func, hran⟩ := hreached r hr hanswers
        obtain ⟨d, f, hd, hf, -⟩ := (entry_iff h header func).mp hran
        rw [hc.unique hd]
        exact hf.1
      · intro f hf
        obtain ⟨vars, hentry⟩ := (entry_iff h header f.ctx_func).mpr ⟨c, f, hc, hf, rfl⟩
        exact hmethod f.ctx_func vars hentry
    have hchosen : ∀ r ∈ regs, r.Answers header → ∃ c, Chosen regs header c := by
      intro r hr hanswers
      obtain ⟨func, hran⟩ := hreached r hr hanswers
      obtain ⟨c, -, hc, -⟩ := (entry_iff h header func).mp hran
      exact ⟨c, hc⟩
    constructor
    · exact fun hpath c hfirst => hnamed c ⟨hpath, .inl hfirst⟩
    · exact fun hpath hnone c _ hmatches hclear hlast =>
        hnamed c ⟨hpath, .inr ⟨hnone, hmatches, hclear, hlast⟩⟩
    · intro hnone hshadow r hr hanswers
      obtain ⟨c, -, hfirst | ⟨-, hmatches, hclear, hlast⟩⟩ := hchosen r hr hanswers
      · have hpath : c.path = slashed header.path := by simpa using List.find?_some hfirst
        exact hnone c (List.mem_of_find?_eq_some hfirst) hpath
      · have hvar : c ∈ var_regs regs := List.mem_reverse.mp (List.mem_of_find?_eq_some hlast)
        exact hclear (hshadow c hvar hmatches)
    · intro hnil r hr hanswers
      obtain ⟨c, hc⟩ := hchosen r hr hanswers
      exact hc.1 hnil
  · intro hagree
    constructor
    · intro func vars hentry
      obtain ⟨c, f, hc, hf, rfl⟩ := (entry_iff h header func).mp ⟨vars, hentry⟩
      exact (hagree.of_chosen hc).first f hf
    · intro r hr hanswers
      obtain ⟨c, hc⟩ := hagree.exists_chosen hr hanswers
      obtain ⟨f, hf⟩ := exists_runs hc.mem ((hagree.of_chosen hc).named r hr hanswers)
      exact ⟨f.ctx_func, (entry_iff h header f.ctx_func).mpr ⟨c, f, hc, hf, rfl⟩⟩

/-- `GET /users` before `POST /users`: a `GET` runs its own handler. -/
theorem dispatched_iff_get :
    let get : Reg Str Nat := ⟨lit "/users", lit "users-GET-list", lit "GET", 1⟩
    let post : Reg Str Nat := ⟨lit "/users", lit "users-POST-add", lit "POST", 2⟩
    let header : HttpHeader Str := ⟨lit "GET", lit "/users"⟩
    ∃ mapper, reg_all [get, post] = .ok mapper ∧ Dispatched [get, post] mapper header := by
  intro get post header
  refine ⟨_, rfl, (dispatched_iff [get, post] _ rfl header).mpr ?_⟩
  have hanswers : get.Answers header := ⟨get.matches_path, rfl⟩
  have hget : get ∈ [get, post] := List.mem_cons_self
  constructor
  · intro _ c hfirst
    obtain rfl : get = c := Option.some.inj hfirst
    refine ⟨fun _ _ _ => by decide, ?_⟩
    rintro f ⟨-, hf⟩
    obtain rfl : get = f := Option.some.inj hf
    exact ⟨get, hget, rfl, hanswers⟩
  · exact fun _ hnone => absurd rfl (hnone get hget)
  · exact fun hnone => absurd rfl (hnone get hget)
  · intro hnil
    cases hnil

/-- `GET /users` is registered, then `POST /users`: a `POST` runs the first. -/
theorem post_runs_get :
    ¬ ∀ (regs : List (Reg Str Nat)) (mapper : FunctionMapper Nat) (header : HttpHeader Str),
      reg_all regs = .ok mapper → Dispatched regs mapper header := by
  intro hall
  let get : Reg Str Nat := ⟨lit "/users", lit "users-GET-list", lit "GET", 1⟩
  let post : Reg Str Nat := ⟨lit "/users", lit "users-POST-add", lit "POST", 2⟩
  have hmethod := (hall [get, post] _ ⟨lit "POST", lit "/users"⟩ rfl).1 1 ∅ rfl
  obtain ⟨r, hr, hfunc, -, hpost⟩ := hmethod
  rcases List.mem_pair.mp hr with rfl | rfl
  · exact absurd hpost (by decide)
  · exact absurd hfunc (by decide)

end Rellaf.Brpc
