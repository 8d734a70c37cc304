/-
`BrpcDispatcher`: the paths that brpc is told of.

`reg_http_serivces` goes through the services, writes the two tables of each into a text
of lines `path => method`, and hands it to brpc with the service. It stops at the first
service without an api that has no variable, also where there are apis with one, and at
the first that brpc does not take; the services in front stay in the server.
`reg_http_serivces_tells` says so, and what the texts say of the apis: read as such lists
are, one says which method each api of the service has, the first where there are several
at a path, as long as no path has a `,`, a `=>` or a blank at its end.
-/
import Rellaf.ServiceRoutes
import Rellaf.Lib.PairList

set_option autoImplicit false

open Rellaf.Cpp

namespace Rellaf.Brpc

variable {Handler : Type}

/-! ## The dispatcher -/

/-- The tables of a service, in the order in which a loop goes through them. -/
structure ServiceMaps where
  _api_sign_mapper : List (Str × Str)
  _api_path_var_sign_mapper : List (Str × Str)

/-- A service with the text that brpc gets with it. -/
structure Added where
  name : Str
  api_str : Str
  deriving DecidableEq

def api_str (service : ServiceMaps) : Str :=
  let api_str := service._api_sign_mapper.foldl
    (fun api_str api_entry => api_str ++ (api_entry.1 ++ lit " => " ++ api_entry.2 ++ lit ",\n")) []
  let api_str := service._api_path_var_sign_mapper.foldl
    (fun api_str api_entry => api_str ++ (api_entry.1 ++ lit "/* => " ++ api_entry.2 ++ lit ",\n"))
    api_str
  if api_str.isEmpty then api_str else api_str.dropLast.dropLast

section Server

-- what `AddService` returns for a service, by the services that the server has
variable (AddService : List Added → Added → Int)

/-- The loop of `reg_http_serivces`. -/
def reg_loop : List Added → List (Str × Option ServiceMaps) → Int × List Added
  | server, [] => (0, server)
  | server, (_, none) :: _ => (-1, server)
  | server, (name, some service) :: services =>
    if service._api_sign_mapper.isEmpty then (-1, server)
    else if AddService server ⟨name, api_str service⟩ ≠ 0 then (-1, server)
    else reg_loop (server ++ [⟨name, api_str service⟩]) services

/-- The services of the server are those that it has taken. -/
def reg_http_serivces (server : List Added) (_services : List (Str × Option ServiceMaps)) :
    Int × List Added :=
  if _services.isEmpty then (-1, server) else reg_loop AddService server _services

end Server

/-! ## The registered services -/

/-- The calls of `bind_api_sign` when a service is made. -/
def bind_apis (apis : List (ApiDef Handler)) : Run BrpcService :=
  apis.foldlM (fun service d => bind_api_sign service d.sign.text d.api) .new

/-- A loop through an unordered map sees each entry once, in whatever order. -/
structure Lists (entries : List (Str × Str)) (table : Str → Option Str) : Prop where
  nodup : (entries.map Prod.fst).Nodup
  mem_iff : ∀ path sign, (path, sign) ∈ entries ↔ table path = some sign

/-- A service whose apis are bound, with an order of its tables. -/
structure Registered (Handler : Type) where
  service : Service Handler
  tables : BrpcService
  bound : bind_apis service.apis = .ok tables
  maps : ServiceMaps
  lists : Lists maps._api_sign_mapper tables._api_sign_mapper
  lists_var : Lists maps._api_path_var_sign_mapper tables._api_path_var_sign_mapper

/-- The path of an api in the text. -/
def told_path (api : Str) : Str :=
  slashed (strip (path_in api)) ++ if has_path_var api then lit "/*" else []

/-- The api is bound, with or without a variable, and its path is this. -/
def ApiDef.told (d : ApiDef Handler) (var : Bool) (path : Str) : Bool :=
  d.api ≠ [] && has_path_var d.api = var && told_path d.api = path

/-- `sign` is the method of the first api at the path, among those with a variable or
among those without. -/
def Registered.Tells (r : Registered Handler) (path sign : Str) : Prop :=
  ∃ var, ∃ d, r.service.apis.find? (fun d => d.told var path) = some d ∧ d.sign.text = sign

/-! ## How such a text is read -/

/-- `path => method`, a comma apart, blanks around them left aside. -/
def mappings : PairList.Format UInt8 where
  sep := 44
  arrow := lit "=>"
  blank := isspace
  left := lit " "
  right := lit " "
  next := lit "\n"
  arrow_ne := by decide
  arrow_solid := fun c hc => by
    have hall : (lit "=>").all (fun c => !isspace c) = true := rfl
    simpa using List.all_eq_true.mp hall c hc
  sep_solid := rfl
  sep_notMem := by decide
  left_ne := by decide
  left_blank := List.all_eq_true.mp rfl
  right_blank := List.all_eq_true.mp rfl
  next_blank := List.all_eq_true.mp rfl

/-- The pairs of a text, in any order, are the paths and methods of the service. -/
def Registered.ReadAs (r : Registered Handler) (text : Str) : Prop :=
  ∃ pairs, mappings.read text = some pairs ∧ ∀ path sign, (path, sign) ∈ pairs ↔ r.Tells path sign

/-! ## The text -/

/-- What the loops write about. -/
def ServiceMaps.pairs (service : ServiceMaps) : List (Str × Str) :=
  service._api_sign_mapper ++
    service._api_path_var_sign_mapper.map fun e => (e.1 ++ lit "/*", e.2)

theorem foldl_append_eq {α : Type} (f : α → Str) (entries : List α) (s : Str) :
    entries.foldl (fun s e => s ++ f e) s = s ++ entries.flatMap f := by
  induction entries generalizing s with
  | nil => simp
  | cons e entries ih => rw [List.foldl_cons, ih, List.flatMap_cons, List.append_assoc]

theorem mappings_line (p : Str × Str) : mappings.line p = p.1 ++ lit " => " ++ p.2 := by
  have harrow : lit " => " = lit " " ++ (lit "=>" ++ lit " ") := rfl
  have hline : mappings.line p = p.1 ++ lit " " ++ lit "=>" ++ lit " " ++ p.2 := rfl
  rw [hline, harrow]
  simp only [List.append_assoc]

/-- Every line of the loops ends like the one before it. -/
theorem flatMap_line {pairs : List (Str × Str)} (hne : pairs ≠ []) :
    pairs.flatMap (fun p => mappings.line p ++ lit ",\n") = mappings.write pairs ++ lit ",\n" := by
  obtain ⟨p, pairs, rfl⟩ := List.exists_cons_of_ne_nil hne
  clear hne
  induction pairs generalizing p with
  | nil => simp [PairList.Format.write, PairList.Format.lines]
  | cons q pairs ih =>
    have hnext : mappings.sep :: mappings.next = lit ",\n" := rfl
    rw [List.flatMap_cons, ih q, PairList.write_cons, hnext]
    simp only [List.append_assoc]

/-- `pop_back` twice takes the end of the last line off. -/
theorem api_str_eq {service : ServiceMaps} (hne : service.pairs ≠ []) :
    api_str service = mappings.write service.pairs := by
  have hplain : ∀ e : Str × Str,
      e.1 ++ lit " => " ++ e.2 ++ lit ",\n" = mappings.line e ++ lit ",\n" := by
    intro e
    rw [mappings_line]
  have hvar : ∀ e : Str × Str, e.1 ++ lit "/* => " ++ e.2 ++ lit ",\n" =
      mappings.line (e.1 ++ lit "/*", e.2) ++ lit ",\n" := by
    intro e
    have hstar : lit "/* => " = lit "/*" ++ lit " => " := rfl
    rw [mappings_line, hstar]
    simp only [List.append_assoc]
  have htext : service._api_path_var_sign_mapper.foldl
      (fun s e => s ++ (e.1 ++ lit "/* => " ++ e.2 ++ lit ",\n"))
      (service._api_sign_mapper.foldl
        (fun s e => s ++ (e.1 ++ lit " => " ++ e.2 ++ lit ",\n")) []) =
      mappings.write service.pairs ++ lit ",\n" := by
    rw [foldl_append_eq, foldl_append_eq, List.nil_append, ← flatMap_line hne, ServiceMaps.pairs,
      List.flatMap_append, List.flatMap_map]
    simp only [hplain, hvar]
  have hend : lit ",\n" = [44, 10] := rfl
  rw [api_str, htext, hend, if_neg (by simp)]
  simp

/-! ## The tables of the registered apis -/

/-- The api is bound, with or without a variable, and filed at the path. -/
def ApiDef.files (d : ApiDef Handler) (var : Bool) (path : Str) : Bool :=
  d.api ≠ [] && has_path_var d.api = var && slashed (strip (path_in d.api)) = path

/-- What one more binding does to the tables. -/
theorem bind_api_sign_maps {service service' : BrpcService} {d : ApiDef Handler}
    (h : bind_api_sign service d.sign.text d.api = .ok service') (path : Str) :
    service'._api_sign_mapper path = (service._api_sign_mapper path).or
        (if d.files false path then some d.sign.text else none) ∧
      service'._api_path_var_sign_mapper path = (service._api_path_var_sign_mapper path).or
        (if d.files true path then some d.sign.text else none) := by
  by_cases hapi : d.api = []
  · rw [bind_api_sign, hapi] at h
    cases h
    simp [ApiDef.files, hapi]
  · rw [bind_api_sign_eq hapi] at h
    split at h
    · cases h
    · cases h
      cases hfetch : fetch_path_vars_prefix d.api <;>
        simp [emplace_apply, ApiDef.files, has_path_var, hfetch, hapi]

/-- The tables have the first of the apis that are filed at a path. -/
theorem bind_apis_maps {apis : List (ApiDef Handler)} {service service' : BrpcService}
    (h : apis.foldlM (fun service d => bind_api_sign service d.sign.text d.api) service =
      .ok service') (path : Str) :
    service'._api_sign_mapper path = (service._api_sign_mapper path).or
        ((apis.find? fun d => d.files false path).map (·.sign.text)) ∧
      service'._api_path_var_sign_mapper path = (service._api_path_var_sign_mapper path).or
        ((apis.find? fun d => d.files true path).map (·.sign.text)) := by
  induction apis generalizing service with
  | nil =>
    cases h
    simp
  | cons d apis ih =>
    rw [List.foldlM_cons] at h
    obtain ⟨service₁, hbind, h⟩ := run_bind_eq_ok.mp h
    obtain ⟨hplain, hvar⟩ := bind_api_sign_maps hbind path
    obtain ⟨hplains, hvars⟩ := ih h
    rw [hplains, hvars, hplain, hvar, List.find?_cons, List.find?_cons]
    constructor
    · cases d.files false path <;> simp
    · cases d.files true path <;> simp

namespace Registered

theorem table_iff (r : Registered Handler) (path sign : Str) :
    (r.tables._api_sign_mapper path = some sign ↔
      ∃ d, r.service.apis.find? (fun d => d.files false path) = some d ∧ d.sign.text = sign) ∧
    (r.tables._api_path_var_sign_mapper path = some sign ↔
      ∃ d, r.service.apis.find? (fun d => d.files true path) = some d ∧ d.sign.text = sign) := by
  obtain ⟨hplain, hvar⟩ := bind_apis_maps r.bound path
  rw [hplain, hvar]
  simp [BrpcService.new]

/-- Every table of bound apis can be gone through. -/
theorem exists_lists (apis : List (ApiDef Handler)) (var : Bool) :
    ∃ entries : List (Str × Str), (entries.map Prod.fst).Nodup ∧ ∀ path sign,
      (path, sign) ∈ entries ↔
        ∃ d, apis.find? (fun d => d.files var path) = some d ∧ d.sign.text = sign := by
  let first (path : Str) : Option (Str × Str) :=
    (apis.find? fun d => d.files var path).map fun d => (path, d.sign.text)
  have hpath : ∀ path e, first path = some e → e.1 = path := by
    intro path e he
    obtain ⟨d, -, rfl⟩ := Option.map_eq_some_iff.mp he
    rfl
  have hsame : ∀ path path' e, e ∈ first path → e ∈ first path' → path = path' := by
    intro path path' e he he'
    rw [← hpath path e he, hpath path' e he']
  refine ⟨(apis.map fun d => slashed (strip (path_in d.api))).dedup.filterMap first, ?_, ?_⟩
  · refine (List.Nodup.filterMap hsame (List.nodup_dedup _)).map_on ?_
    intro e he e' he' heq
    obtain ⟨path, -, hfirst⟩ := List.mem_filterMap.mp he
    obtain ⟨path', -, hfirst'⟩ := List.mem_filterMap.mp he'
    have hpaths : path = path' := by rw [← hpath path e hfirst, heq, hpath path' e' hfirst']
    rw [← hpaths, hfirst] at hfirst'
    exact Option.some.inj hfirst'
  · intro path sign
    rw [List.mem_filterMap]
    constructor
    · rintro ⟨path', -, hfirst⟩
      obtain ⟨d, hfind, heq⟩ := Option.map_eq_some_iff.mp hfirst
      cases heq
      exact ⟨d, hfind, rfl⟩
    · rintro ⟨d, hfind, rfl⟩
      have hfiles : d.files var path = true := by simpa using List.find?_some hfind
      simp only [ApiDef.files, Bool.and_eq_true, decide_eq_true_eq] at hfiles
      refine ⟨path, ?_, by simp only [first, hfind, Option.map_some]⟩
      rw [List.mem_dedup, List.mem_map]
      exact ⟨d, List.mem_of_find?_eq_some hfind, hfiles.2⟩

/-- Every service whose apis are bound is a registered one. -/
theorem exists_registered {service : Service Handler} {tables : BrpcService}
    (h : bind_apis service.apis = .ok tables) :
    ∃ r : Registered Handler, r.service = service ∧ r.tables = tables := by
  obtain ⟨entries, hnodup, hmem⟩ := exists_lists service.apis false
  obtain ⟨entries_var, hnodup_var, hmem_var⟩ := exists_lists service.apis true
  have htable := fun path => bind_apis_maps h path
  refine ⟨⟨service, tables, h, ⟨entries, entries_var⟩, ⟨hnodup, ?_⟩, ⟨hnodup_var, ?_⟩⟩, rfl, rfl⟩
  · intro path sign
    rw [hmem, (htable path).1]
    simp [BrpcService.new]
  · intro path sign
    rw [hmem_var, (htable path).2]
    simp [BrpcService.new]

/-- Without a variable, an api is filed at its path in the text. -/
theorem files_false (d : ApiDef Handler) (path : Str) : d.files false path = d.told false path := by
  unfold ApiDef.files ApiDef.told told_path
  cases has_path_var d.api <;> simp

/-- With one, `/*` is put behind. -/
theorem files_true (d : ApiDef Handler) (path : Str) :
    d.files true path = d.told true (path ++ lit "/*") := by
  unfold ApiDef.files ApiDef.told told_path
  cases has_path_var d.api <;> simp

/-- What an api is told by ends with `/*` where it has a variable. -/
theorem told_true {d : ApiDef Handler} {path : Str} (h : d.told true path = true) :
    ∃ front, path = front ++ lit "/*" := by
  simp only [ApiDef.told, Bool.and_eq_true, decide_eq_true_eq] at h
  obtain ⟨⟨-, hvar⟩, hpath⟩ := h
  rw [told_path, if_pos hvar] at hpath
  exact ⟨_, hpath.symm⟩

/-- The pairs that are written are what the service tells. -/
theorem mem_pairs_iff (r : Registered Handler) (path sign : Str) :
    (path, sign) ∈ r.maps.pairs ↔ r.Tells path sign := by
  have hvar : (∃ e ∈ r.maps._api_path_var_sign_mapper, (e.1 ++ lit "/*", e.2) = (path, sign)) ↔
      ∃ d, r.service.apis.find? (fun d => d.told true path) = some d ∧ d.sign.text = sign := by
    constructor
    · rintro ⟨⟨front, sign'⟩, hmem, heq⟩
      cases heq
      have htable := ((r.table_iff front sign').2).mp ((r.lists_var.mem_iff front sign').mp hmem)
      simpa only [files_true] using htable
    · rintro ⟨d, hfind, hsign⟩
      have htold : d.told true path = true := by simpa using List.find?_some hfind
      obtain ⟨front, rfl⟩ := told_true htold
      simp only [← files_true] at hfind
      have htable := ((r.table_iff front sign).2).mpr ⟨d, hfind, hsign⟩
      exact ⟨(front, sign), (r.lists_var.mem_iff front sign).mpr htable, rfl⟩
  rw [ServiceMaps.pairs, List.mem_append, List.mem_map, hvar, r.lists.mem_iff,
    (r.table_iff path sign).1, Tells, Bool.exists_bool]
  simp only [files_false]

/-- An identifier may be a value of the text. -/
theorem sign_clean (i : Ident) : mappings.CleanValue i.text := by
  have hchar : ∀ c ∈ i.text, is_ident_char c = true := List.all_eq_true.mp i.chars
  have hsolid : ∀ c ∈ i.text, mappings.blank c = false := by
    intro c hc
    have hident := hchar c hc
    show isspace c = false
    rw [Bool.eq_false_iff]
    intro hspace
    simp only [is_ident_char, isspace, Bool.or_eq_true, Bool.and_eq_true, decide_eq_true_eq,
      beq_iff_eq, UInt8.le_iff_toNat_le, ← UInt8.toNat_inj] at hident hspace
    simp at hident hspace
    omega
  refine ⟨fun hcomma => ?_, PairList.trim_of_solid mappings hsolid⟩
  have hident : is_ident_char 44 = true := hchar 44 hcomma
  exact absurd hident (by decide)

/-- The text of a service is read as what the service tells, where the paths allow it. -/
theorem readAs_iff (r : Registered Handler) (hne : r.maps.pairs ≠ []) :
    r.ReadAs (api_str r.maps) ↔
      ∀ d ∈ r.service.apis, d.api ≠ [] → mappings.Clean (told_path d.api) := by
  have hvalues : ∀ p ∈ r.maps.pairs, mappings.CleanValue p.2 := by
    rintro ⟨path, sign⟩ hp
    obtain ⟨var, d, hfind, rfl⟩ := (r.mem_pairs_iff path sign).mp hp
    exact sign_clean d.sign
  have hread : r.ReadAs (api_str r.maps) ↔ ∀ p ∈ r.maps.pairs, mappings.Clean p.1 := by
    rw [← PairList.read_write_iff mappings hne hvalues, ← api_str_eq hne]
    simp only [ReadAs, Prod.forall, mem_pairs_iff]
  rw [hread]
  constructor
  · intro hclean d hd hapi
    -- the first api at the path of `d` has its pair
    have htold : d.told (has_path_var d.api) (told_path d.api) = true := by
      simp [ApiDef.told, hapi]
    have hsome : (r.service.apis.find? fun e =>
        e.told (has_path_var d.api) (told_path d.api)).isSome := by
      rw [List.find?_isSome]
      exact ⟨d, hd, htold⟩
    obtain ⟨e, he⟩ := Option.isSome_iff_exists.mp hsome
    exact hclean (told_path d.api, e.sign.text)
      ((r.mem_pairs_iff _ _).mpr ⟨has_path_var d.api, e, he, rfl⟩)
  · rintro hclean ⟨path, sign⟩ hp
    obtain ⟨var, d, hfind, -⟩ := (r.mem_pairs_iff path sign).mp hp
    have htold : d.told var path = true := by simpa using List.find?_some hfind
    simp only [ApiDef.told, Bool.and_eq_true, decide_eq_true_eq] at htold
    obtain ⟨⟨hapi, -⟩, rfl⟩ := htold
    exact hclean d (List.mem_of_find?_eq_some hfind) hapi

-- a comma cuts the path `/a,b` off from its method
example : mappings.read (api_str ⟨[(lit "/a", lit "list")], [(lit "/u", lit "get")]⟩) =
    some [(lit "/a", lit "list"), (lit "/u/*", lit "get")] := by decide

example : mappings.read (api_str ⟨[(lit "/a,b", lit "list")], []⟩) = none := by decide

/-- Some api has no variable. -/
theorem plain_ne_nil_iff (r : Registered Handler) :
    r.maps._api_sign_mapper ≠ [] ↔
      ∃ d ∈ r.service.apis, d.api ≠ [] ∧ has_path_var d.api = false := by
  constructor
  · intro hne
    obtain ⟨⟨path, sign⟩, hmem⟩ := List.exists_mem_of_ne_nil _ hne
    obtain ⟨d, hfind, -⟩ := ((r.table_iff path sign).1).mp ((r.lists.mem_iff path sign).mp hmem)
    have hfiles : d.files false path = true := by simpa using List.find?_some hfind
    simp only [ApiDef.files, Bool.and_eq_true, decide_eq_true_eq] at hfiles
    exact ⟨d, List.mem_of_find?_eq_some hfind, hfiles.1.1, hfiles.1.2⟩
  · rintro ⟨d, hd, hapi, hvar⟩ hnil
    have hfiles : d.files false (slashed (strip (path_in d.api))) = true := by
      simp [ApiDef.files, hapi, hvar]
    have hsome : (r.service.apis.find? fun e =>
        e.files false (slashed (strip (path_in d.api)))).isSome := by
      rw [List.find?_isSome]
      exact ⟨d, hd, hfiles⟩
    obtain ⟨e, he⟩ := Option.isSome_iff_exists.mp hsome
    have hmem := (r.lists.mem_iff _ _).mpr (((r.table_iff _ e.sign.text).1).mpr ⟨e, he, rfl⟩)
    rw [hnil] at hmem
    cases hmem

end Registered

/-! ## The run of the loop -/

section Run

variable (AddService : List Added → Added → Int)

/-- What the loop has of a service. -/
def entry_of (s : Str × Option (Registered Handler)) : Str × Option ServiceMaps :=
  (s.1, s.2.map Registered.maps)

def added_of (s : Str × Registered Handler) : Added := ⟨s.1, api_str s.2.maps⟩

/-- Why the loop ends at a service. -/
inductive Refused (server : List Added) : Str × Option (Registered Handler) → Prop
  | null (name : Str) : Refused server (name, none)
  | no_handler (name : Str) (r : Registered Handler)
      (h : ∀ d ∈ r.service.apis, d.api ≠ [] → has_path_var d.api = true) :
      Refused server (name, some r)
  | not_added (name : Str) (r : Registered Handler)
      (h : AddService server (added_of (name, r)) ≠ 0) :
      Refused server (name, some r)

/-- The services of the server once the loop has ended: those in front of the first that is
refused. -/
theorem reg_loop_tells (services : List (Str × Option (Registered Handler))) (server : List Added) :
    ∃ (told : List (Str × Registered Handler)) (rest : List (Str × Option (Registered Handler))),
      services = told.map (fun s => (s.1, some s.2)) ++ rest ∧
      reg_loop AddService server (services.map entry_of) =
        (if rest = [] then 0 else -1, server ++ told.map added_of) ∧
      (∀ s ∈ told, s.2.maps._api_sign_mapper ≠ []) ∧
      ∀ s ∈ rest.head?, Refused AddService (server ++ told.map added_of) s := by
  induction services generalizing server with
  | nil => exact ⟨[], [], rfl, by simp [reg_loop], by simp, by simp⟩
  | cons s services ih =>
    obtain ⟨name, service⟩ := s
    cases service with
    | none =>
      refine ⟨[], (name, none) :: services, rfl, by simp [reg_loop, entry_of], by simp, ?_⟩
      simpa using Refused.null name
    | some r =>
      by_cases hempty : r.maps._api_sign_mapper = []
      · refine ⟨[], (name, some r) :: services, rfl, by simp [reg_loop, entry_of, hempty], by simp,
          ?_⟩
        have hvar : ∀ d ∈ r.service.apis, d.api ≠ [] → has_path_var d.api = true := by
          intro d hd hapi
          by_contra hvar
          exact r.plain_ne_nil_iff.mpr ⟨d, hd, hapi, by simpa using hvar⟩ hempty
        simpa using Refused.no_handler name r hvar
      · by_cases hadd : AddService server (added_of (name, r)) = 0
        · obtain ⟨told, rest, hservices, hloop, hplain, hrest⟩ :=
            ih (server ++ [added_of (name, r)])
          refine ⟨(name, r) :: told, rest, by simp [hservices], ?_, ?_, ?_⟩
          · have hround : reg_loop AddService server
                (((name, some r) :: services).map entry_of) =
                reg_loop AddService (server ++ [added_of (name, r)]) (services.map entry_of) := by
              have hadd : AddService server ⟨name, api_str r.maps⟩ = 0 := hadd
              simp [reg_loop, entry_of, hempty, hadd, added_of]
            rw [hround, hloop]
            simp
          · simpa using ⟨hempty, fun a b hab => hplain (a, b) hab⟩
          · simpa using hrest
        · refine ⟨[], (name, some r) :: services, rfl, ?_, by simp, ?_⟩
          · have hadd : AddService server ⟨name, api_str r.maps⟩ ≠ 0 := hadd
            simp [reg_loop, entry_of, hempty, hadd]
          · simpa using Refused.not_added name r hadd

/-- **The services that brpc is told of.** `reg_http_serivces` adds the services in front of
the first that is null, has no api without a variable, or is not taken by brpc, and returns
0 exactly where there are services and none is such. Each text, read as a list of
`path => method`, gives the apis of its service their methods, exactly where no path of
them holds a `,` or a `=>` or ends with a blank. -/
theorem reg_http_serivces_tells (server : List Added)
    (services : List (Str × Option (Registered Handler))) :
    ∃ (told : List (Str × Registered Handler)) (rest : List (Str × Option (Registered Handler))),
      services = told.map (fun s => (s.1, some s.2)) ++ rest ∧
      reg_http_serivces AddService server (services.map entry_of) =
        (if services ≠ [] ∧ rest = [] then 0 else -1, server ++ told.map added_of) ∧
      (∀ s ∈ rest.head?, Refused AddService (server ++ told.map added_of) s) ∧
      ∀ s ∈ told, (∃ d ∈ s.2.service.apis, d.api ≠ [] ∧ has_path_var d.api = false) ∧
        (s.2.ReadAs (added_of s).api_str ↔
          ∀ d ∈ s.2.service.apis, d.api ≠ [] → mappings.Clean (told_path d.api)) := by
  obtain ⟨told, rest, hservices, hloop, hplain, hrest⟩ :=
    reg_loop_tells AddService services server
  refine ⟨told, rest, hservices, ?_, hrest, ?_⟩
  · rw [reg_http_serivces, hloop]
    cases services with
    | nil => simp_all
    | cons s services => simp
  · intro s hs
    have hne : s.2.maps._api_sign_mapper ≠ [] := hplain s hs
    have hpairs : s.2.maps.pairs ≠ [] := by
      rw [ServiceMaps.pairs, ne_eq, List.append_eq_nil_iff]
      exact fun h => hne h.1
    exact ⟨s.2.plain_ne_nil_iff.mp hne, s.2.readAs_iff hpairs⟩

end Run

end Rellaf.Brpc
