/-
What `json_to_model_inner` does at each place of a model.

A place is a list of steps, down the value and down the model at once. Where both have
a part, the part of the model is read from the part of the value (`read_at`). Where the
value has none, the model keeps its own, with one exception: behind the end of an array
`json[i]` is null, and an item is made null for it (`skips_iff`).
-/
import Rellaf.JsonNumbers
import Rellaf.Lib.PathWalk
import Rellaf.SqlWalk

set_option autoImplicit false

open Rellaf.Cpp PathWalk

namespace Rellaf.JsonToModel

open Models MemberMap

/-! ## Places -/

/-- From a list or an array to an item, from an object to a member. -/
inductive Step where
  | item (i : Nat)
  | member (key : Str)
  deriving DecidableEq

def Json.child : Json → Step → Option Json
  | array nodes, .item i => nodes[i]?
  | object members, .member key => members.lookup key
  | _, _ => none

def model_child : Model → Step → Option Model
  | .list _ items, .item i => items[i]?
  | .object _ _ plains lists objects, .member key => Sql.named_member plains lists objects key
  | _, _ => none

theorem distinct_child {json j : Json} {k : Step} (hjson : json.Distinct)
    (h : json.child k = some j) : j.Distinct := by
  cases hjson with
  | array hitems =>
    cases k with
    | item i => exact hitems j (List.mem_of_getElem? h)
    | member key => cases h
  | object hkeys hmembers =>
    cases k with
    | item i => cases h
    | member key => exact hmembers (key, j) (mem_of_lookup h)
  | _ => cases k <;> cases h

theorem named_member_cases {plains : List (Str × Plain)} {lists : List (Str × List Model)}
    {objects : List (Str × Model)} {key : Str} {x : Model}
    (h : Sql.named_member plains lists objects key = some x) :
    (∃ p, (key, p) ∈ plains ∧ x = .plain p) ∨ (∃ items, (key, items) ∈ lists ∧ x = .list [] items) ∨
      (key, x) ∈ objects := by
  unfold Sql.named_member at h
  cases hplain : plains.lookup key with
  | some p =>
    rw [hplain] at h
    exact .inl ⟨p, mem_of_lookup hplain, (Option.some.inj h).symm⟩
  | none =>
    cases hlist : lists.lookup key with
    | some items =>
      rw [hplain, hlist] at h
      exact .inr (.inl ⟨items, mem_of_lookup hlist, (Option.some.inj h).symm⟩)
    | none =>
      rw [hplain, hlist] at h
      exact .inr (.inr (mem_of_lookup h))

theorem proper_child {P : Model → Prop} {m x : Model} {k : Step} (hm : m.Proper P)
    (h : model_child m k = some x) : x.Proper P := by
  cases hm with
  | list hitems =>
    cases k with
    | item i => exact hitems x (List.mem_of_getElem? h)
    | member key => cases h
  | object hschema hnames hdetected hdefaults_detected hdefaults hplains hlists hpointers hobjects =>
    cases k with
    | item i => cases h
    | member key =>
      obtain ⟨p, hp, rfl⟩ | ⟨items, hitems, rfl⟩ | hx := named_member_cases h
      · exact .plain (hplains _ hp)
      · exact .list (hlists _ hitems)
      · exact hobjects _ hx
  | _ => cases k <;> cases h

/-! ## One step -/

/-- What an item becomes, `json[i]` being null from the end of the array on. -/
def read_item (node : Option Json) (m : Model) : Run Model :=
  match node with
  | none => .ok .null
  | some json => if json.is_null then .ok .null else json_to_model_inner json m

/-- What the part of a model at a step becomes. -/
def read_child : Json → Step → Model → Run Model
  | .array nodes, .item i, m => read_item nodes[i]? m
  | .object members, .member key, m => json_to_model_inner (member members key) m
  | _, _, m => .ok m

theorem json_to_items_item {nodes : List Json} {items items' : List Model}
    (h : json_to_items nodes items = .ok items') {i : Nat} {x : Model} (hx : items[i]? = some x) :
    ∃ x', items'[i]? = some x' ∧ read_item nodes[i]? x = .ok x' := by
  induction nodes generalizing items items' i with
  | nil =>
    have hitems : items.map (fun _ => Model.null) = items' := Except.ok.inj h
    refine ⟨.null, ?_, rfl⟩
    rw [← hitems, List.getElem?_map, hx]
    rfl
  | cons json nodes ih =>
    cases items with
    | nil => cases hx
    | cons m items =>
      obtain ⟨m', hm', h⟩ := run_bind_eq_ok.mp h
      obtain ⟨rest, hrest, h⟩ := run_bind_eq_ok.mp h
      cases h
      cases i with
      | zero =>
        cases hx
        refine ⟨m', rfl, ?_⟩
        rw [List.getElem?_cons_zero, read_item]
        cases hnull : json.is_null with
        | false =>
          rw [hnull] at hm'
          exact hm'
        | true =>
          rw [hnull, if_pos rfl, json_to_model_null_right] at hm'
          exact hm'
      | succ i => exact ih hrest hx

theorem json_to_list_child {json : Json} {tag : Str} {items : List Model} {m' x : Model} {k : Step}
    (h : json_to_model_inner json (.list tag items) = .ok m')
    (hx : model_child (.list tag items) k = some x) :
    ∃ x', model_child m' k = some x' ∧ read_child json k x = .ok x' := by
  rw [json_to_model_list] at h
  obtain ⟨items', hitems', h⟩ := run_bind_eq_ok.mp h
  cases h
  cases k with
  | member key => cases hx
  | item i =>
    cases json with
    | array nodes => exact json_to_items_item hitems' hx
    | _ =>
      cases hitems'
      exact ⟨x, hx, rfl⟩

theorem json_to_object_child {members : List (Str × Json)} (hkeys : (members.map Prod.fst).Nodup)
    {tag : Str} {clazz : Clazz} {plains : List (Str × Plain)} {lists : List (Str × List Model)}
    {objects : List (Str × Model)} {m' x : Model} {key : Str}
    (hclazz : clazz.plain_names.map Prod.fst = plains.map Prod.fst)
    (hnames : (Model.member_names plains lists objects).Nodup)
    (h : json_to_members members (.object tag clazz plains lists objects) = .ok m')
    (hx : Sql.named_member plains lists objects key = some x) :
    ∃ x', model_child m' (.member key) = some x' ∧
      json_to_model_inner (member members key) x = .ok x' := by
  obtain ⟨plains', lists', objects', rfl, hplains, hlists, hobjects⟩ :=
    (json_to_members_iff hkeys hclazz hnames).mp h
  have hps := hplains.lookup key
  have hls := hlists.lookup key
  have hos := hobjects.lookup key
  unfold Sql.named_member at hx
  rw [model_child, Sql.named_member]
  -- a name is found in both objects, and among the members of one kind
  generalize plains.lookup key = p at hps hx
  generalize plains'.lookup key = p' at hps
  generalize lists.lookup key = l at hls hx
  generalize lists'.lookup key = l' at hls
  generalize objects.lookup key = o at hos hx
  generalize objects'.lookup key = o' at hos
  cases hps with
  | some hp =>
    cases hx
    refine ⟨_, rfl, ?_⟩
    rw [json_to_model_plain, hp]
    rfl
  | none =>
    cases hls with
    | some hl =>
      cases hx
      refine ⟨_, rfl, ?_⟩
      rw [json_to_model_list, hl]
      rfl
    | none =>
      cases hos with
      | none => cases hx
      | some ho =>
        cases hx
        exact ⟨_, rfl, ho⟩

/-- **One step.** What has a part in the model is read as `read_child` says. -/
theorem json_to_model_inner_child {json : Json} {m m' x : Model} {k : Step}
    (hjson : json.Distinct) (hm : m.Proper Model.Typed)
    (h : json_to_model_inner json m = .ok m') (hx : model_child m k = some x) :
    ∃ x', model_child m' k = some x' ∧ read_child json k x = .ok x' := by
  cases hm with
  | null => cases k <;> cases hx
  | void => cases k <;> cases hx
  | plain => cases k <;> cases hx
  | list => exact json_to_list_child h hx
  | object hschema hnames =>
    cases k with
    | item i => cases hx
    | member key =>
      cases hjson with
      | object hkeys =>
        exact json_to_object_child hkeys (Model.keys_of_schema_eq hschema).symm hnames h hx
      | _ =>
        cases h
        exact ⟨x, hx, rfl⟩

/-! ## All steps -/

/-- The part of the value at a step. -/
theorem read_child_of_child {json j : Json} {k : Step} {x x' : Model}
    (hj : json.child k = some j) (hnull : j.is_null = false ∨ ∃ key, k = .member key)
    (h : read_child json k x = .ok x') : json_to_model_inner j x = .ok x' := by
  cases json with
  | array nodes =>
    cases k with
    | member key => cases hj
    | item i =>
      have hj : nodes[i]? = some j := hj
      have hnull : j.is_null = false := hnull.resolve_right fun ⟨_, hk⟩ => by cases hk
      rw [read_child, hj, read_item, hnull] at h
      exact h
  | object members =>
    cases k with
    | item i => cases hj
    | member key =>
      have hj : members.lookup key = some j := hj
      rw [read_child, member, hj] at h
      exact h
  | _ => cases k <;> cases hj

theorem is_null_iff {json : Json} : json.is_null = true ↔ json = .null := by
  cases json <;> simp [Json.is_null]

/-- Null has no parts. -/
theorem walk_null {path : List Step} {j : Json} (h : walk Json.child .null path = some j) :
    j = .null := by
  cases path with
  | nil => exact (Option.some.inj h).symm
  | cons k path => cases k <;> cases h

/-- **Every place.** Where the value and the model both have a part, and the one is not
null, there the model is read. -/
theorem read_at {json j : Json} {m m' x : Model} {path : List Step} (hjson : json.Distinct)
    (hm : m.Proper Model.Typed) (h : json_to_model_inner json m = .ok m')
    (hj : walk Json.child json path = some j) (hnull : j ≠ .null)
    (hx : walk model_child m path = some x) :
    ∃ x', walk model_child m' path = some x' ∧ json_to_model_inner j x = .ok x' := by
  induction path generalizing json m m' with
  | nil =>
    cases hj
    cases hx
    exact ⟨m', rfl, h⟩
  | cons k path ih =>
    obtain ⟨j₁, hj₁, hj⟩ := Option.bind_eq_some_iff.mp hj
    obtain ⟨x₁, hx₁, hx⟩ := Option.bind_eq_some_iff.mp hx
    obtain ⟨x₁', hx₁', hread⟩ := json_to_model_inner_child hjson hm h hx₁
    have hnull₁ : j₁.is_null = false := by
      rw [Bool.eq_false_iff, ne_eq, is_null_iff]
      rintro rfl
      exact hnull (walk_null hj)
    obtain ⟨x', hx', hread'⟩ := ih (distinct_child hjson hj₁) (proper_child hm hx₁)
      (read_child_of_child hj₁ (.inl hnull₁) hread) hj hx
    exact ⟨x', by rw [walk_cons hx₁', hx'], hread'⟩

/-! ## Parts that the value has nothing for -/

/-- The value is of the kind that is read into a plain of the type. -/
def matches_type (json : Json) : ModelType → Bool
  | .CHAR | .INT16 | .INT | .INT64 | .UINT16 | .UINT32 | .UINT64 | .FLOAT | .DOUBLE =>
    json.is_numeric
  | .BOOL => json.is_bool
  | .STR => json.is_string
  | .no | .OBJECT | .LIST => false

/-- The value is of the kind that is read into the model. -/
def matches_kind (json : Json) : Model → Bool
  | .plain p => matches_type json p.type
  | .list _ _ =>
    match json with
    | .array _ => true
    | _ => false
  | .object _ _ _ _ _ =>
    match json with
    | .object _ => true
    | _ => false
  | .null | .void _ => false

theorem json_to_plain_of_not_matches {json : Json} {p : Plain}
    (h : matches_type json p.type = false) : json_to_plain json p = .ok p := by
  obtain ⟨tag, type, val, parse_func, str_func⟩ := p
  cases type <;> cases json <;> first | rfl | cases h

/-- A value of another kind leaves the model as it is. -/
theorem json_to_model_of_not_matches {json : Json} {m : Model} (h : matches_kind json m = false) :
    json_to_model_inner json m = .ok m := by
  cases m with
  | null => exact json_to_model_null_right json
  | void tag => cases json <;> rfl
  | list tag items =>
    cases json with
    | array nodes => cases h
    | _ => rfl
  | object tag clazz plains lists objects =>
    cases json with
    | object members => cases h
    | _ => rfl
  | plain p =>
    rw [json_to_model_plain, json_to_plain_of_not_matches h]
    rfl

/-- The place is an item whose element of the array is null, or lies in one. -/
def InNullElement (json : Json) (path : List Step) : Prop :=
  ∃ before i behind, path = before ++ .item i :: behind ∧
    walk Json.child json (before ++ [.item i]) = some .null

/-- The part of the model at the place has no part of the value that it is read from: a
member is not named, a value is of another kind, or null as that of a member, or the
array ends before the item. -/
structure HasNoPart (json : Json) (m : Model) (path : List Step) (x : Model) : Prop where
  part : walk model_child m path = some x
  no_match : ∀ j, walk Json.child json path = some j → matches_kind j x = false
  not_null_element : ¬ InNullElement json path

/-- The items behind the end of their array are null. -/
def NullBehindEnd (json : Json) (m : Model) : Prop :=
  ∀ path nodes tag items i x, walk Json.child json path = some (.array nodes) →
    walk model_child m path = some (.list tag items) → nodes.length ≤ i →
      items[i]? = some x → x = .null

theorem inNullElement_cons {json j : Json} {k : Step} {path : List Step}
    (hj : json.child k = some j) (h : InNullElement j path) : InNullElement json (k :: path) := by
  obtain ⟨before, i, behind, rfl, hnull⟩ := h
  refine ⟨k :: before, i, behind, rfl, ?_⟩
  rw [List.cons_append, walk_cons hj, hnull]

theorem nullBehindEnd_child {json j : Json} {m x : Model} {k : Step} (hj : json.child k = some j)
    (hx : model_child m k = some x) (h : NullBehindEnd json m) : NullBehindEnd j x := by
  intro path nodes tag items i y harray hlist hi hy
  exact h (k :: path) nodes tag items i y (by rw [walk_cons hj, harray])
    (by rw [walk_cons hx, hlist]) hi hy

/-- A step where the value does not go along: an item behind the end of the array is
null, and everything else stays. -/
theorem read_child_of_no_child {json : Json} {m x x' : Model} {k : Step}
    (hend : NullBehindEnd json m) (hj : json.child k = none) (hx : model_child m k = some x)
    (h : read_child json k x = .ok x') : x' = x := by
  cases json with
  | array nodes =>
    cases k with
    | member key =>
      cases h
      rfl
    | item i =>
      have hj : nodes[i]? = none := hj
      rw [read_child, hj] at h
      cases h
      cases m with
      | list tag items =>
        exact (hend [] nodes tag items i x rfl rfl (List.getElem?_eq_none_iff.mp hj) hx).symm
      | _ => cases hx
  | object members =>
    cases k with
    | item i =>
      cases h
      rfl
    | member key =>
      have hj : members.lookup key = none := hj
      rw [read_child, member, hj, Option.getD_none, json_to_model_null_left] at h
      cases h
      rfl
  | _ =>
    cases k <;> cases h <;> rfl

/-- A part without a part of the value stays, if the items behind the ends are null. -/
theorem part_stays {json : Json} {m m' x : Model} {path : List Step} (hjson : json.Distinct)
    (hm : m.Proper Model.Typed) (h : json_to_model_inner json m = .ok m')
    (hend : NullBehindEnd json m) (hpart : HasNoPart json m path x) :
    walk model_child m' path = some x := by
  induction path generalizing json m m' with
  | nil =>
    have hx : m = x := Option.some.inj hpart.part
    subst hx
    have hsame := json_to_model_of_not_matches (hpart.no_match json rfl)
    rw [hsame] at h
    cases h
    rfl
  | cons k path ih =>
    obtain ⟨x₁, hx₁, hx⟩ := Option.bind_eq_some_iff.mp hpart.part
    obtain ⟨x₁', hx₁', hread⟩ := json_to_model_inner_child hjson hm h hx₁
    rw [walk_cons hx₁']
    cases hj : json.child k with
    | none =>
      obtain rfl := read_child_of_no_child hend hj hx₁ hread
      exact hx
    | some j =>
      -- not an element that is null, which would make the item null
      have hgoes : j.is_null = false ∨ ∃ key, k = .member key := by
        cases k with
        | member key => exact .inr ⟨key, rfl⟩
        | item i =>
          refine .inl (Bool.eq_false_iff.mpr fun hnull => ?_)
          obtain rfl := is_null_iff.mp hnull
          exact hpart.not_null_element ⟨[], i, path, rfl, by rw [List.nil_append, walk_cons hj]; rfl⟩
      refine ih (distinct_child hjson hj) (proper_child hm hx₁) (read_child_of_child hj hgoes hread)
        (nullBehindEnd_child hj hx₁ hend) ⟨hx, ?_, ?_⟩
      · intro j' hj'
        exact hpart.no_match j' (by rw [walk_cons hj, hj'])
      · exact fun hnull => hpart.not_null_element (inNullElement_cons hj hnull)

/-- The item behind the end of an array has no part of the value. -/
theorem hasNoPart_behind_end {json : Json} {m x : Model} {path : List Step} {nodes : List Json}
    {tag : Str} {items : List Model} {i : Nat}
    (harray : walk Json.child json path = some (.array nodes))
    (hlist : walk model_child m path = some (.list tag items)) (hi : nodes.length ≤ i)
    (hx : items[i]? = some x) : HasNoPart json m (path ++ [.item i]) x := by
  have hend : walk Json.child json (path ++ [.item i]) = none := by
    rw [walk_concat harray]
    exact List.getElem?_eq_none_iff.mpr hi
  refine ⟨by rw [walk_concat hlist]; exact hx, ?_, ?_⟩
  · intro j hj
    rw [hend] at hj
    cases hj
  · rintro ⟨before, i', behind, hpath, hnull⟩
    -- what is on the way to the array is not null
    rcases List.eq_nil_or_concat behind with rfl | ⟨behind, k, rfl⟩
    · rw [← hpath, hend] at hnull
      cases hnull
    · have hpath' : path = before ++ [.item i'] ++ behind := by
        have happend : path ++ [Step.item i] = before ++ [.item i'] ++ behind ++ [k] := by
          simpa using hpath
        exact (List.append_inj' happend rfl).1
      rw [hpath', walk_append, hnull] at harray
      cases walk_null harray

/-! ## Names that the model does not know -/

/-- The members whose names the object has. -/
def known_members (members : List (Str × Json)) (names : List Str) : List (Str × Json) :=
  members.filter fun kj => decide (kj.1 ∈ names)

theorem member_known {members : List (Str × Json)} {names : List Str} {key : Str}
    (h : key ∈ names) : member (known_members members names) key = member members key := by
  rw [member, known_members, lookup_filter (p := fun k => decide (k ∈ names)) (by simpa using h),
    member]

theorem membersRead_known {V : Type} {read : Json → V → Run V} {members : List (Str × Json)}
    {names : List Str} {kvs kvs' : List (Str × V)} (h : ∀ k ∈ kvs.map Prod.fst, k ∈ names) :
    MembersRead read (known_members members names) kvs kvs' ↔ MembersRead read members kvs kvs' := by
  apply pointwise_congr
  intro kv hkv w
  rw [member_known (h kv.1 (List.mem_map_of_mem hkv))]

/-- An object is read alike without the names that it does not have. -/
theorem json_to_object_known {members : List (Str × Json)} {tag : Str} {clazz : Clazz}
    {plains : List (Str × Plain)} {lists : List (Str × List Model)}
    {objects : List (Str × Model)} {o' : Model} (hjson : (Json.object members).Distinct)
    (ho : (Model.object tag clazz plains lists objects).Proper Model.Typed) :
    json_to_model_inner (.object (known_members members (Model.member_names plains lists objects)))
        (.object tag clazz plains lists objects) = .ok o' ↔
      json_to_model_inner (.object members) (.object tag clazz plains lists objects) = .ok o' := by
  cases hjson with
  | object hkeys hmembers =>
  cases ho with
  | object hschema hnames =>
  have hkeys' : ((known_members members (Model.member_names plains lists objects)).map
      Prod.fst).Nodup := (List.filter_sublist.map Prod.fst).nodup hkeys
  have hclazz := (Model.keys_of_schema_eq hschema).symm
  rw [json_to_model_inner, json_to_model_inner, json_to_members_iff hkeys hclazz hnames,
    json_to_members_iff hkeys' hclazz hnames]
  have hplains : ∀ k ∈ plains.map Prod.fst, k ∈ Model.member_names plains lists objects :=
    fun k hk => List.mem_append_left _ hk
  have hlists : ∀ k ∈ lists.map Prod.fst, k ∈ Model.member_names plains lists objects :=
    fun k hk => List.mem_append_right _ (List.mem_append_left _ hk)
  have hobjects : ∀ k ∈ objects.map Prod.fst, k ∈ Model.member_names plains lists objects :=
    fun k hk => List.mem_append_right _ (List.mem_append_right _ hk)
  simp only [membersRead_known hplains, membersRead_known hlists, membersRead_known hobjects]

/-- Where an object is read from an object, the outcome is that without the names that the
model does not know. -/
def IgnoresUnknown (json : Json) (m m' : Model) : Prop :=
  ∀ path members tag clazz plains lists objects,
    walk Json.child json path = some (.object members) →
      walk model_child m path = some (.object tag clazz plains lists objects) →
        ∃ o', walk model_child m' path = some o' ∧
          json_to_model_inner
            (.object (known_members members (Model.member_names plains lists objects)))
            (.object tag clazz plains lists objects) = .ok o'

theorem ignoresUnknown {json : Json} {m m' : Model} (hjson : json.Distinct)
    (hm : m.Proper Model.Typed) (h : json_to_model_inner json m = .ok m') :
    IgnoresUnknown json m m' := by
  intro path members tag clazz plains lists objects hobject ho
  obtain ⟨o', ho', hread⟩ := read_at hjson hm h hobject (by simp) ho
  have hdistinct := (walk_eq_some_iff.mp hobject).preserves (fun _ _ _ => distinct_child) hjson
  have hproper := (walk_eq_some_iff.mp ho).preserves (fun _ _ _ => proper_child) hm
  exact ⟨o', ho', (json_to_object_known hdistinct hproper).mpr hread⟩

/-! ## What is left alone -/

/-- Reading leaves alone what it has no part of the value for, and does not look at names
that the model does not know. -/
def LeavesRest (json : Json) (m m' : Model) : Prop :=
  (∀ path x, HasNoPart json m path x → walk model_child m' path = some x) ∧
    IgnoresUnknown json m m'

/-- **When reading leaves the rest alone.** The items behind the end of an array are made
null, so exactly if they were null before. -/
theorem leaves_rest_iff (json : Json) (m m' : Model) (hjson : json.Distinct)
    (hm : m.Proper Model.Typed) (h : json_to_model_inner json m = .ok m') :
    LeavesRest json m m' ↔ NullBehindEnd json m := by
  constructor
  · rintro ⟨hstays, -⟩ path nodes tag items i x harray hlist hi hx
    have hkept := hstays _ x (hasNoPart_behind_end harray hlist hi hx)
    obtain ⟨list', hlist', hread⟩ := read_at hjson hm h harray (by simp) hlist
    have hdistinct := (walk_eq_some_iff.mp harray).preserves (fun _ _ _ => distinct_child) hjson
    have hproper := (walk_eq_some_iff.mp hlist).preserves (fun _ _ _ => proper_child) hm
    obtain ⟨x', hx', hnull⟩ := json_to_model_inner_child (k := .item i) hdistinct hproper hread hx
    rw [read_child, List.getElem?_eq_none_iff.mpr hi] at hnull
    cases hnull
    rw [walk_concat hlist', hx'] at hkept
    exact (Option.some.inj hkept).symm
  · intro hend
    exact ⟨fun path x hpart => part_stays hjson hm h hend hpart, ignoresUnknown hjson hm h⟩

/-- A user with a number, a name and one tag, read from a number and one tag: the name, which
the value does not have, stays. -/
theorem leaves_rest_one_item :
    let number (v : Int32) : Plain := ⟨[], .INT, .INT v, none, none⟩
    let text (v : Str) : Plain := ⟨[], .STR, .STR v, none, none⟩
    let user (id : Int32) (tag : Str) : Model :=
      .object [] ⟨lit "User", [(lit "id", number 0), (lit "name", text [])]⟩
        [(lit "id", number id), (lit "name", text (lit "Ann"))]
        [(lit "tags", [.plain (text tag)])] []
    LeavesRest (.object [(lit "id", .int 7), (lit "tags", .array [.str (lit "new")])])
      (user 0 (lit "old")) (user 7 (lit "new")) := by
  intro number text user
  have hproper : (user 0 (lit "old")).Proper Model.Typed := by
    refine .object rfl (show List.Nodup [lit "id", lit "name", lit "tags"] by decide) ?_ ?_ ?_ ?_
      ?_ (List.forall_mem_nil _) (List.forall_mem_nil _)
    · exact List.forall_mem_cons.mpr ⟨rfl, List.forall_mem_singleton.mpr rfl⟩
    · exact List.forall_mem_cons.mpr ⟨rfl, List.forall_mem_singleton.mpr rfl⟩
    · exact List.forall_mem_cons.mpr ⟨.inl rfl, List.forall_mem_singleton.mpr (.inl rfl)⟩
    · exact List.forall_mem_cons.mpr ⟨.inl rfl, List.forall_mem_singleton.mpr (.inl rfl)⟩
    · exact List.forall_mem_singleton.mpr (List.forall_mem_singleton.mpr (.plain (.inl rfl)))
  have hdistinct : Json.Distinct
      (.object [(lit "id", .int 7), (lit "tags", .array [.str (lit "new")])]) :=
    .object (show List.Nodup [lit "id", lit "tags"] by decide)
      (List.forall_mem_cons.mpr ⟨.int 7, List.forall_mem_singleton.mpr
        (.array (List.forall_mem_singleton.mpr (.str (lit "new"))))⟩)
  refine (leaves_rest_iff _ _ _ hdistinct hproper rfl).mpr ?_
  -- the one array is as long as its list
  intro path nodes tag items i x hnodes hitems hi hx
  obtain - | ⟨k, ks⟩ := path
  · cases hnodes
  obtain ⟨j, hj, hnodes⟩ := Option.bind_eq_some_iff.mp hnodes
  obtain ⟨m, hm, hitems⟩ := Option.bind_eq_some_iff.mp hitems
  cases k with
  | item => cases hj
  | member key =>
    have hlookup : [(lit "id", Json.int 7), (lit "tags", .array [.str (lit "new")])].lookup key =
      some j := hj
    obtain heq | heq := List.mem_pair.mp (mem_of_lookup hlookup)
    · cases heq
      obtain - | ⟨k, ks⟩ := ks
      · cases hnodes
      · cases k <;> cases hnodes
    · cases heq
      obtain rfl : Model.list [] [.plain (text (lit "old"))] = m := Option.some.inj hm
      obtain - | ⟨k, ks⟩ := ks
      · cases hnodes
        cases hitems
        have hnone : [Model.plain (text (lit "old"))][i]? = none := List.getElem?_eq_none hi
        rw [hnone] at hx
        cases hx
      · -- there is no array below its item
        obtain ⟨j, hj, hnodes⟩ := Option.bind_eq_some_iff.mp hnodes
        cases k with
        | member => cases hj
        | item n =>
          obtain rfl := List.mem_singleton.mp (List.mem_of_getElem? hj)
          obtain - | ⟨k, ks⟩ := ks
          · cases hnodes
          · cases k <;> cases hnodes

/-- `[]` into a list of one string, which is null afterwards. -/
theorem empty_array_makes_null :
    ¬ ∀ (json : Json) (m m' : Model), json.Distinct → m.Proper Model.Typed →
      json_to_model_inner json m = .ok m' → LeavesRest json m m' := by
  intro hall
  have hlist : (Model.list [] [.plain ⟨[], .STR, .STR (lit "a"), none, none⟩]).Proper Model.Typed :=
    .list (by simpa using Model.Proper.plain (.inl rfl))
  have hleaves := hall (.array []) _ (.list [] [.null]) (.array (by simp)) hlist rfl
  have hpart : HasNoPart (.array []) (.list [] [.plain ⟨[], .STR, .STR (lit "a"), none, none⟩])
      ([] ++ [.item 0]) (.plain ⟨[], .STR, .STR (lit "a"), none, none⟩) :=
    hasNoPart_behind_end rfl rfl (Nat.zero_le 0) rfl
  cases hleaves.1 _ _ hpart

end Rellaf.JsonToModel
