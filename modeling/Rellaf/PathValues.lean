/-
Values in a path: from the text of a value to the member of the handler's argument.

A client that has the pattern of an api makes a path from it, with the text of a value for
each variable. The tree finds the pattern and gives each variable its text, and
`prepare_args` reads the texts into the members of the names. What the handler gets are
the values (`path_values_arrive`), where the request gets to the registration at all and
the variables have kept their names.
-/
import Rellaf.PathVars
import Rellaf.PlainText

set_option autoImplicit false

open Rellaf.Cpp

namespace Rellaf.Brpc

open Models UrlTrie UrlPattern MemberMap

variable {HttpMethod Handler : Type} (calls : Calls)

/-! ## Members from texts -/

/-- The plain member behind the loop of `prepare_args`. -/
def read_member (entries : List (Str × Str)) (kp : Str × Plain) : Str × Plain :=
  match entries.lookup kp.1 with
  | some val_str => (kp.1, { kp.2 with val := cast calls val_str kp.2.val })
  | none => kp

/-- The members read one after the other, where none has a parse function of its own. -/
theorem set_plains_eq {tag_str : Str} {clazz : Clazz} {plains : List (Str × Plain)}
    {lists : List (Str × List Model)} {objects : List (Str × Model)}
    (hkeys : clazz.plain_names.map Prod.fst = plains.map Prod.fst)
    (hparse : ∀ kp ∈ plains, kp.2.parse_func = none) {entries : List (Str × Str)}
    (hnodup : (plains.map Prod.fst).Nodup) (hentries : (entries.map Prod.fst).Nodup) :
    set_plains calls entries (.object tag_str clazz plains lists objects) =
      .ok (.object tag_str clazz (plains.map (read_member calls entries)) lists objects) := by
  -- on the texts, for every state of the members: a step leaves their names and functions
  induction entries generalizing plains with
  | nil =>
    have hid : plains.map (read_member calls []) = plains := List.map_id plains
    rw [hid]
    rfl
  | cons entry entries ih =>
    obtain ⟨key, val_str⟩ := entry
    obtain ⟨hnew, hentries'⟩ := nodup_keys_cons.mp hentries
    have hcons : set_plains calls ((key, val_str) :: entries)
        (.object tag_str clazz plains lists objects) =
          object_set_plain calls (.object tag_str clazz plains lists objects) key val_str >>=
            fun set => set_plains calls entries set.2 := by
      rw [set_plains, List.foldlM_cons, bind_assoc]
      rfl
    rw [hcons, object_set_plain]
    cases hclazz : clazz.plain_names.lookup key with
    | none =>
      -- no member of the name
      have hnot : ∀ kp ∈ plains, kp.1 ≠ key := by
        rintro kp hkp rfl
        have hmem : kp.1 ∈ clazz.plain_names.map Prod.fst := by
          rw [hkeys]
          exact List.mem_map_of_mem hkp
        rw [mem_keys_iff_lookup, hclazz] at hmem
        cases hmem
      rw [run_ok_bind]
      dsimp only
      rw [ih hkeys hparse hnodup hentries']
      have hread : ∀ kp ∈ plains, read_member calls entries kp =
          read_member calls ((key, val_str) :: entries) kp := by
        intro kp hkp
        have hbeq : (kp.1 == key) = false := by simpa using hnot kp hkp
        rw [read_member, read_member, List.lookup_cons, hbeq]
      rw [List.map_congr_left hread]
    | some dft =>
      have hmem : key ∈ plains.map Prod.fst := by
        rw [← hkeys, mem_keys_iff_lookup, hclazz]
        rfl
      obtain ⟨p, hp⟩ := Option.isSome_iff_exists.mp (mem_keys_iff_lookup.mp hmem)
      have hset := plain_set_parse_none calls (hparse _ (mem_of_lookup hp)) val_str
      have hput : put plains key { p with val := cast calls val_str p.val } = plains.map fun kp =>
          if kp.1 == key then (key, { p with val := cast calls val_str p.val }) else kp :=
        put_eq_map hnodup hmem _
      have hput_keys := keys_put_of_mem hmem { p with val := cast calls val_str p.val }
      have hput_parse : ∀ kp ∈ put plains key { p with val := cast calls val_str p.val },
          kp.2.parse_func = none := by
        intro kp hkp
        rcases mem_put hkp with rfl | hkp
        · exact hparse (key, p) (mem_of_lookup hp)
        · exact hparse kp hkp
      simp only [hp, Option.getD_some, hset, run_ok_bind, run_pure]
      rw [ih (by rw [hput_keys, hkeys]) hput_parse (by rwa [hput_keys]) hentries', hput,
        List.map_map]
      have hread : ∀ kp ∈ plains, (read_member calls entries ∘ fun kp =>
          if kp.1 == key then (key, { p with val := cast calls val_str p.val }) else kp) kp =
            read_member calls ((key, val_str) :: entries) kp := by
        intro kp hkp
        rw [Function.comp_apply]
        by_cases hkey : kp.1 = key
        · -- read here, and not again
          have hlast : entries.lookup key = none := by
            rw [mem_keys_iff_lookup, Bool.not_eq_true, Option.isSome_eq_false_iff,
              Option.isNone_iff_eq_none] at hnew
            exact hnew
          obtain rfl : kp = (key, p) := by
            rw [← hkey] at hp
            exact Prod.ext hkey (Option.some.inj ((lookup_of_mem hnodup hkp).symm.trans hp))
          rw [if_pos (beq_self_eq_true key), read_member, read_member, hlast, List.lookup_cons_self]
        · have hbeq : (kp.1 == key) = false := by simpa using hkey
          rw [hbeq, if_neg Bool.false_ne_true, read_member, read_member, List.lookup_cons, hbeq]
      rw [List.map_congr_left hread]

/-- The variables of a request, one by one. -/
theorem toList_keys_nodup (vars : Std.ExtTreeMap Str Str) :
    (vars.toList.map Prod.fst).Nodup := by
  rw [List.Nodup, List.pairwise_map]
  refine Std.ExtTreeMap.distinct_keys_toList.imp fun hne heq => hne ?_
  rw [heq]
  exact Std.ReflCmp.compare_self

theorem lookup_toList (vars : Std.ExtTreeMap Str Str) (k : Str) :
    vars.toList.lookup k = vars[k]? := by
  apply Option.ext
  intro v
  rw [← Std.ExtTreeMap.mem_toList_iff_getElem?_eq_some]
  exact ⟨mem_of_lookup, lookup_of_mem (toList_keys_nodup vars)⟩

/-! ## A path made from the pattern -/

/-- The text of the value may stand for a variable, and the value is read back from it. -/
def PathText : PlainVal → Prop
  | .CHAR v => v ≠ 47
  | .STR v => v ≠ [] ∧ (47 : UInt8) ∉ v
  | .FLOAT _ | .DOUBLE _ => False
  | _ => True

theorem print_path (z : Int) : Decimal.print z ≠ [] ∧ (47 : UInt8) ∉ Decimal.print z := by
  obtain ⟨hne, hbytes⟩ := Decimal.print_bytes z
  refine ⟨hne, fun hmem => ?_⟩
  rcases hbytes 47 hmem with h | h <;> exact absurd h (by decide)

theorem PathText.text {v : PlainVal} (h : PathText v) :
    type_detect_str calls v ≠ [] ∧ (47 : UInt8) ∉ type_detect_str calls v := by
  cases v with
  | CHAR v => exact ⟨List.cons_ne_nil _ _, fun hmem => h (List.mem_singleton.mp hmem).symm⟩
  | STR v => exact h
  | FLOAT v => exact h.elim
  | DOUBLE v => exact h.elim
  | UINT16 v => exact print_path v.toNat
  | UINT32 v => exact print_path v.toNat
  | UINT64 v => exact print_path v.toNat
  | _ => exact print_path _

theorem PathText.cast {v w : PlainVal} (h : PathText v) (hkind : w.kind = v.kind) :
    cast calls (type_detect_str calls v) w = v := by
  refine cast_type_detect_str calls hkind ?_ ?_
  · cases v <;> first | exact h.elim | simp [PlainVal.kind]
  · cases v <;> first | exact h.elim | simp [PlainVal.kind]

section filled

variable {σ : Str → Str} {p : Put}

theorem filled_of_is_var {section_ : Str} (h : is_var section_ = true) :
    filled σ section_ = σ (var_name section_) := by
  rw [filled, name_of, if_pos h]

theorem matches_filled (p : Put) : p.Matches (p.sections.map (filled σ)) := by
  rw [Put.Matches, List.forall₂_map_right_iff, List.forall₂_same]
  intro section_ _
  cases hvar : is_var section_ with
  | true => exact .inl rfl
  | false =>
    refine .inr ?_
    rw [filled, name_of, hvar]
    rfl

/-- A pattern writes its names at their own texts. -/
theorem writes_filled_iff {k v : Str} :
    p.Writes (p.sections.map (filled σ)) k v ↔ k ∈ p.vars ∧ v = σ k := by
  rw [Put.vars, List.mem_map]
  constructor
  · rintro ⟨i, section_, hsection, hvar, rfl, hv⟩
    rw [List.getElem?_map, hsection, Option.map_some, Option.some.injEq,
      filled_of_is_var hvar] at hv
    exact ⟨⟨section_, List.mem_filter.mpr ⟨List.mem_of_getElem? hsection, hvar⟩, rfl⟩, hv.symm⟩
  · rintro ⟨⟨section_, hmem, rfl⟩, rfl⟩
    obtain ⟨hmem, hvar⟩ := List.mem_filter.mp hmem
    obtain ⟨i, hi⟩ := List.getElem?_of_mem hmem
    refine ⟨i, section_, hi, hvar, rfl, ?_⟩
    rw [List.getElem?_map, hi, Option.map_some, filled_of_is_var hvar]

/-- What the walk binds, under the names of the pattern. -/
theorem bindings_of_names_kept {puts : List Put} (hp : p ∈ puts) {sections : List Str}
    (hmatches : p.Matches sections) (hvars : p.vars.Nodup) (hkept : p.NamesKept puts sections)
    (k v : Str) :
    (emplace_all ∅ (bindings (first_var puts) [] p.shape sections))[k]? = some v ↔
      p.Writes sections k v := by
  have hown : ∀ i ∈ p.var_positions, var_name_at p.sections i ≠ none := by
    intro i hi
    obtain ⟨section_, hsection, -⟩ := Put.shape_eq_var_iff.mp (Put.mem_var_positions.mp hi)
    simp [var_name_at, hsection]
  have hsections : ∀ i ∈ p.var_positions, sections[i]? ≠ none := by
    intro i hi
    obtain ⟨section_, hsection, -⟩ := Put.shape_eq_var_iff.mp (Put.mem_var_positions.mp hi)
    have hlt : i < p.sections.length := (List.getElem?_eq_some_iff.mp hsection).1
    rw [hmatches.length_eq] at hlt
    simp [hlt]
  rw [bindings_bound hmatches, Put.writes_iff]
  exact (FirstWins.bound_some_iff_renamed (fun i hi => first_var_ne_none hp hi) hown hsections
    (Put.var_name_at_injOn hvars)).mpr hkept k v

end filled

/-- What a request gets that no registration has exactly. -/
theorem entry_of_chosen_pattern {regs : List (Reg HttpMethod Handler)}
    {mapper : FunctionMapper Handler} (h : reg_all regs = .ok mapper)
    {header : HttpHeader HttpMethod} {r : Reg HttpMethod Handler} (hr : Chosen regs header r)
    (hruns : Runs regs r.name r) (hliteral : ∀ q ∈ regs, q.path ≠ slashed header.path) :
    r.put ∈ puts regs ∧ entry mapper header = .ok (.ran r.ctx_func (emplace_all ∅
      (bindings (first_var (puts regs)) [] r.put.shape
        (Str.split (slashed header.path) (lit "/"))))) := by
  obtain ⟨hpath, hfirst | ⟨hnone, hmatches, hclear, hlast⟩⟩ := hr
  · have hmem := List.mem_of_find?_eq_some hfirst
    have heq : r.path = slashed header.path := by simpa using List.find?_some hfirst
    exact absurd heq (hliteral r hmem)
  obtain ⟨hapi, hfuncs, hvars⟩ := reg_all_ok h
  have hmem := mem_puts_of_find hlast
  refine ⟨hmem, ?_⟩
  have hw := (descend_shape_iff hmem hmatches).mpr hclear
  have hend : end_at (put_all (puts regs)) r.put.shape = some r.name := by
    rw [end_at_put_all, last_name_puts, hlast]
    rfl
  have hvar : var_at (put_all (puts regs)) = first_var (puts regs) :=
    funext (var_at_put_all (puts regs))
  have hfetch : fetch_vars (put_all (puts regs)) (slashed header.path) [] ∅ =
      (true, r.name, emplace_all ∅ (bindings (first_var (puts regs)) [] r.put.shape
        (Str.split (slashed header.path) (lit "/")))) := by
    rw [← hvar]
    exact fetch_vars_eq_true_iff.mpr ⟨r.put.shape, hw, hend, rfl⟩
  have hfind : regs.find? (fun q => q.path = slashed header.path) = none := by
    simpa using hnone
  obtain ⟨hname, hfunc⟩ := hruns
  have hempty : ¬ r.name.isEmpty = true := by simpa using hname
  rw [entry, fetch_name, slash_ok hpath, run_ok_bind, hapi, hfind, hvars]
  simp only [Option.map_none, hfetch, run_pure, run_ok_bind, hempty]
  rw [invoke, hfuncs, hfunc]
  rfl

/-! ## The argument of the handler -/

/-- An object whose members are read by `cast`. -/
structure ReadByCast (clazz : Clazz) (plains : List (Str × Plain)) : Prop where
  keys : clazz.plain_names.map Prod.fst = plains.map Prod.fst
  nodup : (plains.map Prod.fst).Nodup
  parse_func : ∀ kp ∈ plains, kp.2.parse_func = none

/-- `PATH_VAR`, an object. -/
theorem prepare_arg_path_var {ctx : HttpContext HttpMethod} {body tag_str : Str} {clazz : Clazz}
    {plains : List (Str × Plain)} {lists : List (Str × List Model)} {objects : List (Str × Model)}
    (hread : ReadByCast clazz plains) :
    prepare_arg calls ctx body
        (tag (.object tag_str clazz plains lists objects) (lit "PATH_VAR")) =
      .ok (true, .object (lit "PATH_VAR") clazz
        (plains.map (read_member calls ctx.path_vars.toList)) lists objects) := by
  have harg : prepare_arg calls ctx body
      (tag (.object tag_str clazz plains lists objects) (lit "PATH_VAR")) = (do
        return (true, ← set_plains calls ctx.path_vars.toList
          (.object (lit "PATH_VAR") clazz plains lists objects))) := rfl
  rw [harg, set_plains_eq calls hread.keys hread.parse_func hread.nodup
    (toList_keys_nodup ctx.path_vars)]
  rfl

/-- **The values in a path arrive.** A request for a path that was made from the pattern
runs the handler, and the members with the names of the variables hold the values. -/
theorem path_values_arrive (regs : List (Reg HttpMethod Handler)) (mapper : FunctionMapper Handler)
    (h : reg_all regs = .ok mapper) (header : HttpHeader HttpMethod) (r : Reg HttpMethod Handler)
    (hr : Chosen regs header r) (hruns : Runs regs r.name r)
    (hliteral : ∀ q ∈ regs, q.path ≠ slashed header.path)
    (hsegments : ∀ s ∈ r.put.sections, Segment s) (hvars : r.put.vars.Nodup)
    (hkept : r.put.NamesKept (puts regs) (Str.split (slashed header.path) (lit "/")))
    (values : Str → PlainVal) (hvalues : ∀ name ∈ r.put.vars, PathText (values name))
    (hpath : Instance (fun name => type_detect_str calls (values name)) r.path
      (slashed header.path))
    (tag_str : Str) (clazz : Clazz) (plains : List (Str × Plain)) (lists : List (Str × List Model))
    (objects : List (Str × Model)) (hread : ReadByCast clazz plains)
    (hkinds : ∀ kp ∈ plains, kp.1 ∈ r.put.vars → kp.2.val.kind = (values kp.1).kind) :
    ∃ vars, entry mapper header = .ok (.ran r.ctx_func vars) ∧
      ∀ (ctx : HttpContext HttpMethod) (body : Str), ctx.path_vars = vars →
        prepare_arg calls ctx body
            (tag (.object tag_str clazz plains lists objects) (lit "PATH_VAR")) =
          .ok (true, .object (lit "PATH_VAR") clazz
            (plains.map fun kp =>
              if kp.1 ∈ r.put.vars then (kp.1, { kp.2 with val := values kp.1 }) else kp)
            lists objects) := by
  obtain ⟨hmem, hentry⟩ := entry_of_chosen_pattern h hr hruns hliteral
  refine ⟨_, hentry, fun ctx body hctx => ?_⟩
  -- the sections of the path are those of the pattern, filled in
  have hnames : ∀ s ∈ r.put.sections, ∀ name, name_of s = some name → name ∈ r.put.vars := by
    intro s hs name hname
    rw [name_of] at hname
    split at hname
    next hvar =>
      obtain rfl := Option.some.inj hname
      exact List.mem_map.mpr ⟨s, List.mem_filter.mpr ⟨hs, hvar⟩, rfl⟩
    next => cases hname
  have hsections : Str.split (slashed header.path) (lit "/") =
      r.put.sections.map (filled fun name => type_detect_str calls (values name)) :=
    split_instance hpath .empty hsegments fun s hs name hname =>
      (hvalues name (hnames s hs name hname)).text calls
  rw [hsections] at hkept
  have hvals : ∀ k v, ctx.path_vars[k]? = some v ↔
      k ∈ r.put.vars ∧ v = type_detect_str calls (values k) := by
    intro k v
    rw [hctx, hsections, bindings_of_names_kept hmem (matches_filled r.put) hvars hkept,
      writes_filled_iff]
  rw [prepare_arg_path_var calls hread]
  have hmembers : ∀ kp ∈ plains, read_member calls ctx.path_vars.toList kp =
      if kp.1 ∈ r.put.vars then (kp.1, { kp.2 with val := values kp.1 }) else kp := by
    intro kp hkp
    rw [read_member, lookup_toList]
    by_cases hvar : kp.1 ∈ r.put.vars
    · rw [(hvals kp.1 _).mpr ⟨hvar, rfl⟩, if_pos hvar]
      dsimp only
      rw [(hvalues kp.1 hvar).cast calls (hkinds kp hkp hvar)]
    · have hnone : ctx.path_vars[kp.1]? = none := by
        rw [Option.eq_none_iff_forall_ne_some]
        exact fun v hv => hvar ((hvals kp.1 v).mp hv).1
      rw [hnone, if_neg hvar]
  rw [List.map_congr_left hmembers]

/-- `GET /users/{id}`. -/
def get_user : Reg Str Nat := ⟨lit "/users/{id}", lit "users-GET-get", lit "GET", 1⟩

/-- `/users/7` for the user 7, with a class that has an `id` and a `name`. -/
theorem path_values_arrive_user :
    let calls : Calls := ⟨fun _ => none, fun _ => [], fun _ => 0, fun _ => 0, fun _ => []⟩
    let id : Plain := ⟨[], .INT, .INT 0, none, none⟩
    let name : Plain := ⟨[], .STR, .STR [], none, none⟩
    let plains : List (Str × Plain) := [(lit "id", id), (lit "name", name)]
    let clazz : Clazz := ⟨lit "Vars", plains⟩
    ∃ mapper, reg_all [get_user] = .ok mapper ∧
      ∃ vars, entry mapper (⟨lit "GET", lit "/users/7"⟩ : HttpHeader Str) = .ok (.ran 1 vars) ∧
        ∀ (ctx : HttpContext Str) (body : Str), ctx.path_vars = vars →
          prepare_arg calls ctx body (tag (.object [] clazz plains [] []) (lit "PATH_VAR")) =
            .ok (true, .object (lit "PATH_VAR") clazz
              (plains.map fun kp => if kp.1 ∈ get_user.put.vars then
                (kp.1, { kp.2 with val := .INT 7 }) else kp) [] []) := by
  intro calls id name plains clazz
  have hmatches : get_user.Matches (lit "/users/7") :=
    .cons (.inr rfl) (.cons (.inl rfl) .nil)
  have hchosen : Chosen [get_user] (⟨lit "GET", lit "/users/7"⟩ : HttpHeader Str) get_user :=
    ⟨by decide, .inr ⟨by decide, hmatches,
      (descend_shape_iff List.mem_cons_self hmatches).mp rfl, rfl⟩⟩
  have hsegments : ∀ s ∈ get_user.put.sections, Segment s :=
    List.forall_mem_cons.mpr ⟨.text (by decide) (by unfold Free; decide),
      List.forall_mem_singleton.mpr (@Segment.var (lit "id") (by decide) (by unfold Free; decide))⟩
  have hpath : Instance (fun _ => lit "7") (lit "/users/{id}") (lit "/users/7") :=
    .slash 0 (.byte (by decide) (by decide) (.byte (by decide) (by decide)
      (.byte (by decide) (by decide) (.byte (by decide) (by decide) (.byte (by decide) (by decide)
        (.slash 0 (@Instance.var _ (lit "id") _ _ (by decide) (by unfold Free; decide) .nil)))))))
  have hkept : get_user.put.NamesKept (puts [get_user])
      (Str.split (slashed (lit "/users/7")) (lit "/")) := by
    have hpositions : get_user.put.var_positions = {1} := by decide
    rw [Put.NamesKept, hpositions]
    refine ⟨by simp, fun i hi => ⟨1, Finset.mem_singleton_self 1, ?_⟩⟩
    obtain rfl := Finset.mem_singleton.mp hi
    exact ⟨rfl, rfl⟩
  exact ⟨_, rfl, path_values_arrive calls [get_user] _ rfl ⟨lit "GET", lit "/users/7"⟩ get_user
    hchosen ⟨by decide, rfl⟩ (by decide) hsegments (by decide) hkept (fun _ => .INT 7)
    (fun _ _ => trivial) hpath [] clazz plains [] [] ⟨rfl, by decide, by simp [plains, id, name]⟩
    (List.forall_mem_cons.mpr ⟨fun _ => rfl, List.forall_mem_singleton.mpr fun hname =>
      absurd hname (by decide)⟩)⟩

end Rellaf.Brpc
