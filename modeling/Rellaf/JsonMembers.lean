/-
The loops of `json_to_model.cpp` over the members of an object, each as a relation
of the members before and after.

Writing appends a member for every one the object has (`model_to_json_object`).
Reading treats every member of the model on its own: it is read from the JSON member
of its name, or from null when there is none (`json_to_members_iff`).
-/
import Rellaf.JsonToModel

set_option autoImplicit false

open Rellaf.Cpp

namespace Rellaf.JsonToModel

open Models MemberMap

/-- `json[json_key]` -/
def member (members : List (Str × Json)) (key : Str) : Json := (members.lookup key).getD .null

theorem member_of_mem {members : List (Str × Json)} (h : (members.map Prod.fst).Nodup)
    {key : Str} {json : Json} (hmem : (key, json) ∈ members) : member members key = json := by
  rw [member, lookup_of_mem h hmem]
  rfl

theorem member_of_not_mem {members : List (Str × Json)} {key : Str}
    (h : key ∉ members.map Prod.fst) : member members key = .null := by
  rw [mem_keys_iff_lookup, Bool.not_eq_true, Option.isSome_eq_false_iff, Option.isNone_iff_eq_none] at h
  rw [member, h]
  rfl

theorem member_cons_self (members : List (Str × Json)) (key : Str) (json : Json) :
    member ((key, json) :: members) key = json := by
  rw [member, List.lookup_cons_self]
  rfl

theorem member_cons_ne {members : List (Str × Json)} {key k : Str} (h : k ≠ key) (json : Json) :
    member ((key, json) :: members) k = member members k := by
  have hbeq : (k == key) = false := by simpa using h
  rw [member, List.lookup_cons, hbeq, member]

/-! ## Writing -/

/-- What the loops write for the members of each kind. -/
def PlainsWritten (plains : List (Str × Plain)) (members : List (Str × Json)) : Prop :=
  Pointwise (fun _ p json => plain_to_json p = .ok json) plains members

def ListsWritten (lists : List (Str × List Model)) (members : List (Str × Json)) : Prop :=
  Pointwise (fun _ items json => ∃ nodes, items_to_json items = .ok nodes ∧ json = .array nodes)
    lists members

def ObjectsWritten (objects : List (Str × Model)) (members : List (Str × Json)) : Prop :=
  Pointwise (fun _ m json => model_to_json_inner m = .ok json) objects members

theorem plains_to_json_iff {plains : List (Str × Plain)} {members members' : List (Str × Json)}
    (hnodup : (plains.map Prod.fst).Nodup)
    (hnew : ∀ k ∈ plains.map Prod.fst, k ∉ members.map Prod.fst) :
    plains_to_json plains members = .ok members' ↔
      ∃ written, members' = members ++ written ∧ PlainsWritten plains written := by
  refine loop_iff (L := fun plains members members' => plains_to_json plains members = .ok members')
    ?_ ?_ hnodup hnew
  · intro members members'
    simp [plains_to_json, eq_comm]
  · intro kp plains members members'
    rw [plains_to_json, List.foldlM_cons, bind_assoc, run_bind_eq_ok]
    rfl

theorem lists_to_json_iff {lists : List (Str × List Model)} {members members' : List (Str × Json)}
    (hnodup : (lists.map Prod.fst).Nodup)
    (hnew : ∀ k ∈ lists.map Prod.fst, k ∉ members.map Prod.fst) :
    lists_to_json lists members = .ok members' ↔
      ∃ written, members' = members ++ written ∧ ListsWritten lists written := by
  refine loop_iff (L := fun lists members members' => lists_to_json lists members = .ok members')
    ?_ ?_ hnodup hnew
  · intro members members'
    simp [lists_to_json, eq_comm]
  · intro kms lists members members'
    rw [lists_to_json, run_bind_eq_ok]
    constructor
    · rintro ⟨nodes, hnodes, hrest⟩
      exact ⟨.array nodes, ⟨nodes, hnodes, rfl⟩, hrest⟩
    · rintro ⟨_, ⟨nodes, hnodes, rfl⟩, hrest⟩
      exact ⟨nodes, hnodes, hrest⟩

theorem objects_to_json_iff {objects : List (Str × Model)} {members members' : List (Str × Json)}
    (hnodup : (objects.map Prod.fst).Nodup)
    (hnew : ∀ k ∈ objects.map Prod.fst, k ∉ members.map Prod.fst) :
    objects_to_json objects members = .ok members' ↔
      ∃ written, members' = members ++ written ∧ ObjectsWritten objects written := by
  refine loop_iff
    (L := fun objects members members' => objects_to_json objects members = .ok members')
    ?_ ?_ hnodup hnew
  · intro members members'
    simp [objects_to_json, eq_comm]
  · intro km objects members members'
    rw [objects_to_json, run_bind_eq_ok]

/-- An object is written as its members, the plain ones first. -/
theorem model_to_json_object_iff {tag : Str} {clazz : Clazz} {plains : List (Str × Plain)}
    {lists : List (Str × List Model)} {objects : List (Str × Model)}
    (hnames : (Model.member_names plains lists objects).Nodup) {json : Json} :
    model_to_json_inner (.object tag clazz plains lists objects) = .ok json ↔
      ∃ ps ls os, json = .object (ps ++ (ls ++ os)) ∧ PlainsWritten plains ps ∧
        ListsWritten lists ls ∧ ObjectsWritten objects os := by
  obtain ⟨hplains, hlists, hobjects, hdisjoint, hdisjoint'⟩ := Model.nodup_member_names hnames
  -- the names of one kind are new to what the kinds before it have written
  have hnew_lists : ∀ {ps}, PlainsWritten plains ps →
      ∀ k ∈ lists.map Prod.fst, k ∉ ps.map Prod.fst := by
    intro ps hps k hk hk'
    rw [hps.keys] at hk'
    exact (hdisjoint k hk').1 hk
  have hnew_objects : ∀ {ps ls}, PlainsWritten plains ps → ListsWritten lists ls →
      ∀ k ∈ objects.map Prod.fst, k ∉ (ps ++ ls).map Prod.fst := by
    intro ps ls hps hls k hk hk'
    rw [List.map_append, hps.keys, hls.keys, List.mem_append] at hk'
    rcases hk' with hk' | hk'
    · exact (hdisjoint k hk').2 hk
    · exact hdisjoint' k hk' hk
  have hstart : ∀ {members}, plains_to_json plains [] = .ok members ↔
      PlainsWritten plains members := by
    intro members
    rw [plains_to_json_iff hplains fun _ _ => List.not_mem_nil]
    simp
  rw [model_to_json_inner, run_bind_eq_ok]
  constructor
  · rintro ⟨ps, hps, hrest⟩
    obtain ⟨ls', hls, hrest⟩ := run_bind_eq_ok.mp hrest
    obtain ⟨os', hos, hrest⟩ := run_bind_eq_ok.mp hrest
    cases hrest
    have hps' := hstart.mp hps
    obtain ⟨ls, rfl, hls'⟩ := (lists_to_json_iff hlists (hnew_lists hps')).mp hls
    obtain ⟨os, rfl, hos'⟩ := (objects_to_json_iff hobjects (hnew_objects hps' hls')).mp hos
    exact ⟨ps, ls, os, by rw [List.append_assoc], hps', hls', hos'⟩
  · rintro ⟨ps, ls, os, rfl, hps, hls, hos⟩
    have hls' := (lists_to_json_iff hlists (hnew_lists hps)).mpr ⟨ls, rfl, hls⟩
    have hos' := (objects_to_json_iff hobjects (hnew_objects hps hls)).mpr ⟨os, rfl, hos⟩
    refine ⟨ps, hstart.mpr hps, ?_⟩
    rw [hls', run_ok_bind, hos', run_ok_bind, List.append_assoc]
    rfl

/-! ## Reading -/

/-- `json_to_model_inner` on a list member. -/
def json_to_list (json : Json) (items : List Model) : Run (List Model) :=
  match json with
  | .array nodes => json_to_items nodes items
  | _ => .ok items

theorem json_to_model_null_right (json : Json) : json_to_model_inner json .null = .ok .null := by
  cases json <;> rfl

theorem json_to_model_null_left (m : Model) : json_to_model_inner .null m = .ok m := by
  cases m <;> rfl

theorem json_to_model_plain (json : Json) (p : Plain) :
    json_to_model_inner json (.plain p) = (do return .plain (← json_to_plain json p)) := by
  cases json <;> rfl

theorem json_to_model_list (json : Json) (tag : Str) (items : List Model) :
    json_to_model_inner json (.list tag items) =
      (do return .list tag (← json_to_list json items)) := by
  cases json <;> rfl

theorem set_plain_ok {p : Plain} {v : PlainVal} (h : p.val.kind = v.kind) :
    set_plain p v = .ok { p with val := v } := if_pos h

theorem json_to_plain_null (p : Plain) : json_to_plain .null p = .ok p := rfl

theorem json_to_list_null (items : List Model) : json_to_list .null items = .ok items := rfl

/-- A step of the loop over the names, for a name that the object has among its plain
members, its lists or its objects, or has not. -/
theorem json_to_members_plain {json_key : Str} {json : Json} {members : List (Str × Json)}
    {tag : Str} {clazz : Clazz} {plains : List (Str × Plain)} {lists : List (Str × List Model)}
    {objects : List (Str × Model)} {p : Plain}
    (hclazz : json_key ∈ clazz.plain_names.map Prod.fst) (hp : plains.lookup json_key = some p) :
    json_to_members ((json_key, json) :: members) (.object tag clazz plains lists objects) = (do
      let p ← json_to_plain json p
      json_to_members members (.object tag clazz (put plains json_key p) lists objects)) := by
  rw [mem_keys_iff_lookup] at hclazz
  simp only [json_to_members, Model.is_plain_member, Model.get_plain, hclazz, hp, run_ok_bind,
    run_pure, if_true, Bool.not_true, Bool.false_eq_true, if_false, json_to_model_plain, bind_assoc]
  rfl

theorem json_to_members_list {json_key : Str} {json : Json} {members : List (Str × Json)}
    {tag : Str} {clazz : Clazz} {plains : List (Str × Plain)} {lists : List (Str × List Model)}
    {objects : List (Str × Model)} {items : List Model}
    (hclazz : json_key ∉ clazz.plain_names.map Prod.fst)
    (hitems : lists.lookup json_key = some items) :
    json_to_members ((json_key, json) :: members) (.object tag clazz plains lists objects) = (do
      let items ← json_to_list json items
      json_to_members members (.object tag clazz plains (put lists json_key items) objects)) := by
  rw [mem_keys_iff_lookup, Bool.not_eq_true] at hclazz
  simp only [json_to_members, Model.is_plain_member, Model.is_list_member, Model.get_list, hclazz,
    hitems, run_ok_bind, run_pure, if_true, Option.isSome_some, json_to_model_list, bind_assoc]
  rfl

theorem json_to_members_object {json_key : Str} {json : Json} {members : List (Str × Json)}
    {tag : Str} {clazz : Clazz} {plains : List (Str × Plain)} {lists : List (Str × List Model)}
    {objects : List (Str × Model)} {m : Model}
    (hclazz : json_key ∉ clazz.plain_names.map Prod.fst)
    (hlists : json_key ∉ lists.map Prod.fst) (hm : objects.lookup json_key = some m) :
    json_to_members ((json_key, json) :: members) (.object tag clazz plains lists objects) = (do
      let m ← json_to_model_inner json m
      json_to_members members (.object tag clazz plains lists (put objects json_key m))) := by
  rw [mem_keys_iff_lookup, Bool.not_eq_true] at hclazz hlists
  simp only [json_to_members, Model.is_plain_member, Model.is_list_member,
    Model.is_object_member, Model.get_object, hclazz, hlists, hm, run_ok_bind, if_true,
    Option.isSome_some, Option.getD_some]
  rfl

theorem json_to_members_other {json_key : Str} {json : Json} {members : List (Str × Json)}
    {tag : Str} {clazz : Clazz} {plains : List (Str × Plain)} {lists : List (Str × List Model)}
    {objects : List (Str × Model)} (hclazz : json_key ∉ clazz.plain_names.map Prod.fst)
    (hlists : json_key ∉ lists.map Prod.fst) (hobjects : json_key ∉ objects.map Prod.fst) :
    json_to_members ((json_key, json) :: members) (.object tag clazz plains lists objects) =
      json_to_members members (.object tag clazz plains lists objects) := by
  rw [mem_keys_iff_lookup, Bool.not_eq_true] at hclazz hlists hobjects
  simp only [json_to_members, Model.is_plain_member, Model.is_list_member,
    Model.is_object_member, hclazz, hlists, hobjects, run_ok_bind]
  rfl

section MembersRead

variable {V : Type} {read : Json → V → Run V}

/-- Every member of one kind is read from the JSON member of its name. -/
def MembersRead (read : Json → V → Run V) (members : List (Str × Json))
    (kvs kvs' : List (Str × V)) : Prop :=
  Pointwise (fun k v v' => read (member members k) v = .ok v') kvs kvs'

theorem membersRead_nil (hnull : ∀ v, read .null v = .ok v) {kvs kvs' : List (Str × V)} :
    MembersRead read [] kvs kvs' ↔ kvs' = kvs := by
  apply pointwise_eq_iff
  intro kv _ w
  have hmember : member [] kv.1 = .null := rfl
  rw [hmember, hnull, Except.ok.injEq, eq_comm]

/-- A JSON member that is no member of this kind. -/
theorem membersRead_cons_of_not_mem {members : List (Str × Json)} {key : Str} {json : Json}
    {kvs kvs' : List (Str × V)} (h : key ∉ kvs.map Prod.fst) :
    MembersRead read ((key, json) :: members) kvs kvs' ↔ MembersRead read members kvs kvs' := by
  apply pointwise_congr
  intro kv hkv w
  have hne : kv.1 ≠ key := by
    rintro rfl
    exact h (List.mem_map_of_mem hkv)
  rw [member_cons_ne hne]

/-- A JSON member that is one: it is read, and all others behind it. -/
theorem membersRead_cons_of_lookup (hnull : ∀ v, read .null v = .ok v)
    {members : List (Str × Json)} {key : Str} {json : Json} {kvs kvs' : List (Str × V)} {v : V}
    (hmembers : key ∉ members.map Prod.fst) (hnodup : (kvs.map Prod.fst).Nodup)
    (hlookup : kvs.lookup key = some v) :
    MembersRead read ((key, json) :: members) kvs kvs' ↔
      ∃ w, read json v = .ok w ∧ MembersRead read members (put kvs key w) kvs' := by
  -- a name stands once in the document: behind it the member of that name is read from
  -- null, which leaves it as it is
  have hother : ∀ k, k ≠ key → ∀ v w,
      read (member ((key, json) :: members) k) v = .ok w ↔ read (member members k) v = .ok w := by
    intro k hk v w
    rw [member_cons_ne hk]
  have hdone : ∀ v w, read (member members key) v = .ok w ↔ w = v := by
    intro v w
    rw [member_of_not_mem hmembers, hnull, Except.ok.injEq, eq_comm]
  have hput : MembersRead read ((key, json) :: members) kvs kvs' ↔
      ∃ w, read (member ((key, json) :: members) key) v = .ok w ∧
        MembersRead read members (put kvs key w) kvs' :=
    pointwise_put hnodup hlookup hother hdone
  rw [hput, member_cons_self]

theorem MembersRead.exists_iff {members : List (Str × Json)} {kvs : List (Str × V)} :
    (∃ kvs', MembersRead read members kvs kvs') ↔
      ∀ kv ∈ kvs, ∃ v', read (member members kv.1) kv.2 = .ok v' := exists_pointwise_iff

end MembersRead

/-- **Reading an object.** Each member is read from the JSON member of its name. -/
theorem json_to_members_iff {members : List (Str × Json)} (hkeys : (members.map Prod.fst).Nodup)
    {tag : Str} {clazz : Clazz} :
    ∀ {plains : List (Str × Plain)} {lists : List (Str × List Model)}
      {objects : List (Str × Model)} {m' : Model},
      clazz.plain_names.map Prod.fst = plains.map Prod.fst →
      (Model.member_names plains lists objects).Nodup →
      (json_to_members members (.object tag clazz plains lists objects) = .ok m' ↔
        ∃ plains' lists' objects', m' = .object tag clazz plains' lists' objects' ∧
          MembersRead json_to_plain members plains plains' ∧
          MembersRead json_to_list members lists lists' ∧
          MembersRead json_to_model_inner members objects objects') := by
  -- on the JSON members, for every object: a step leaves the names of the object, and so
  -- what the induction needs of it
  induction members with
  | nil =>
    intro plains lists objects m' _ _
    simp only [membersRead_nil json_to_plain_null, membersRead_nil json_to_list_null,
      membersRead_nil json_to_model_null_left]
    rw [json_to_members, run_pure, Except.ok.injEq]
    constructor
    · rintro rfl
      exact ⟨plains, lists, objects, rfl, rfl, rfl, rfl⟩
    · rintro ⟨_, _, _, rfl, rfl, rfl, rfl⟩
      rfl
  | cons kj members ih =>
    obtain ⟨key, json⟩ := kj
    intro plains lists objects m' hclazz hnames
    obtain ⟨hnot, hkeys'⟩ := nodup_keys_cons.mp hkeys
    obtain ⟨hplains, hlists, hobjects, hdisjoint, hdisjoint'⟩ := Model.nodup_member_names hnames
    by_cases hp : key ∈ plains.map Prod.fst
    · -- a plain member
      obtain ⟨p, hlookup⟩ := Option.isSome_iff_exists.mp (mem_keys_iff_lookup.mp hp)
      have hput : ∀ w, (put plains key w).map Prod.fst = plains.map Prod.fst :=
        keys_put_of_mem hp
      have hrest : ∀ w, json_to_members members (.object tag clazz (put plains key w) lists objects) =
          .ok m' ↔ _ := fun w =>
        ih hkeys' (by rw [hput, hclazz]) (by rwa [Model.member_names, hput])
      rw [json_to_members_plain (by rwa [hclazz]) hlookup, run_bind_eq_ok]
      simp only [hrest, membersRead_cons_of_lookup json_to_plain_null hnot hplains hlookup,
        membersRead_cons_of_not_mem (hdisjoint key hp).1,
        membersRead_cons_of_not_mem (hdisjoint key hp).2]
      constructor
      · rintro ⟨w, hw, ps, ls, os, rfl, hps, hls, hos⟩
        exact ⟨ps, ls, os, rfl, ⟨w, hw, hps⟩, hls, hos⟩
      · rintro ⟨ps, ls, os, rfl, ⟨w, hw, hps⟩, hls, hos⟩
        exact ⟨w, hw, ps, ls, os, rfl, hps, hls, hos⟩
    have hclazz_key : key ∉ clazz.plain_names.map Prod.fst := by rwa [hclazz]
    by_cases hl : key ∈ lists.map Prod.fst
    · -- a list member
      obtain ⟨items, hlookup⟩ := Option.isSome_iff_exists.mp (mem_keys_iff_lookup.mp hl)
      have hput : ∀ w, (put lists key w).map Prod.fst = lists.map Prod.fst :=
        keys_put_of_mem hl
      have hrest : ∀ w, json_to_members members (.object tag clazz plains (put lists key w) objects) =
          .ok m' ↔ _ := fun w => ih hkeys' hclazz (by rwa [Model.member_names, hput])
      rw [json_to_members_list hclazz_key hlookup, run_bind_eq_ok]
      simp only [hrest, membersRead_cons_of_lookup json_to_list_null hnot hlists hlookup,
        membersRead_cons_of_not_mem hp, membersRead_cons_of_not_mem (hdisjoint' key hl)]
      constructor
      · rintro ⟨w, hw, ps, ls, os, rfl, hps, hls, hos⟩
        exact ⟨ps, ls, os, rfl, hps, ⟨w, hw, hls⟩, hos⟩
      · rintro ⟨ps, ls, os, rfl, hps, ⟨w, hw, hls⟩, hos⟩
        exact ⟨w, hw, ps, ls, os, rfl, hps, hls, hos⟩
    by_cases ho : key ∈ objects.map Prod.fst
    · -- an object member
      obtain ⟨m, hlookup⟩ := Option.isSome_iff_exists.mp (mem_keys_iff_lookup.mp ho)
      have hput : ∀ w, (put objects key w).map Prod.fst = objects.map Prod.fst :=
        keys_put_of_mem ho
      have hrest : ∀ w, json_to_members members (.object tag clazz plains lists (put objects key w)) =
          .ok m' ↔ _ := fun w => ih hkeys' hclazz (by rwa [Model.member_names, hput])
      rw [json_to_members_object hclazz_key hl hlookup, run_bind_eq_ok]
      simp only [hrest, membersRead_cons_of_lookup json_to_model_null_left hnot hobjects hlookup,
        membersRead_cons_of_not_mem hp, membersRead_cons_of_not_mem hl]
      constructor
      · rintro ⟨w, hw, ps, ls, os, rfl, hps, hls, hos⟩
        exact ⟨ps, ls, os, rfl, hps, hls, ⟨w, hw, hos⟩⟩
      · rintro ⟨ps, ls, os, rfl, hps, hls, ⟨w, hw, hos⟩⟩
        exact ⟨w, hw, ps, ls, os, rfl, hps, hls, hos⟩
    -- no member of the object
    rw [json_to_members_other hclazz_key hl ho, ih hkeys' hclazz hnames]
    simp only [membersRead_cons_of_not_mem hp, membersRead_cons_of_not_mem hl,
      membersRead_cons_of_not_mem ho]

end Rellaf.JsonToModel
