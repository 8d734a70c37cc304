/-
A JSON value behind its text, and what a new instance keeps of a model.

The text of a value does not say whether an integer was kept signed, nor in what order an
object had its members: `Json.Alike` are the values that it may be read as. A model is
read the same from all of them (`alike_iff`).

A new instance has its plain members, no items and no objects, and reading creates
nothing. So of a model that was written, a new instance of its class gets the plain
members (`fresh_read`): `Model.emptied` is what arrives.
-/
import Rellaf.JsonRoundTrip

set_option autoImplicit false

open Rellaf.Cpp

namespace Rellaf.JsonToModel

open Models MemberMap

/-! ## Values of the same text -/

namespace Json

def is_integer : Json → Bool
  | int _ | uint _ => true
  | _ => false

/-- The same but for the signs of integer types and the order of members. A member that is
missing is null. -/
inductive Alike : Json → Json → Prop where
  | refl (json : Json) : Alike json json
  | integer {json json' : Json} (hint : json.is_integer = true) (hint' : json'.is_integer = true)
      (htrunc : json.trunc = json'.trunc) : Alike json json'
  | array {items items' : List Json} (hlength : items.length = items'.length)
      (hitems : ∀ p ∈ items.zip items', Alike p.1 p.2) : Alike (array items) (array items')
  | object {members members' : List (Str × Json)} (hkeys : (members.map Prod.fst).Nodup)
      (hkeys' : (members'.map Prod.fst).Nodup)
      (hmembers : ∀ k, Alike (member members k) (member members' k)) :
      Alike (object members) (object members')

theorem is_null_of_integer {json : Json} (h : json.is_integer = true) : json.is_null = false := by
  cases json <;> first | rfl | cases h

theorem Alike.is_null {json json' : Json} (h : json.Alike json') :
    json.is_null = json'.is_null := by
  cases h with
  | refl => rfl
  | integer hint hint' => rw [is_null_of_integer hint, is_null_of_integer hint']
  | array => rfl
  | object => rfl

theorem in_range_of_integer {json : Json} (h : json.is_integer = true) (lo hi : Int) :
    json.in_range lo hi = decide (lo ≤ json.trunc ∧ json.trunc ≤ hi) := by
  cases json <;> first | rfl | cases h

theorem as_float_of_integer {json : Json} (h : json.is_integer = true) :
    json.as_float = Float32.ofInt json.trunc := by
  cases json <;> first | rfl | cases h

theorem as_integer_congr {json json' : Json} (hint : json.is_integer = true)
    (hint' : json'.is_integer = true) (htrunc : json.trunc = json'.trunc) (lo hi : Int) :
    json.as_integer lo hi = json'.as_integer lo hi := by
  rw [as_integer, as_integer, in_range_of_integer hint, in_range_of_integer hint', htrunc]

end Json

/-! ## Reading them -/

/-- A plain is read from an integer by its number alone. -/
theorem json_to_plain_same_integer {json json' : Json} (hint : json.is_integer = true)
    (hint' : json'.is_integer = true) (htrunc : json.trunc = json'.trunc) (p : Plain) :
    json_to_plain json p = json_to_plain json' p := by
  have hinteger := Json.as_integer_congr hint hint' htrunc
  have hfloat : json.as_float = json'.as_float := by
    rw [Json.as_float_of_integer hint, Json.as_float_of_integer hint', htrunc]
  have hkinds : json.is_null = json'.is_null ∧ json.is_numeric = json'.is_numeric ∧
      json.is_bool = json'.is_bool ∧ json.is_string = json'.is_string ∧
      json.as_bool = json'.as_bool ∧ json.as_string = json'.as_string := by
    cases json <;> cases hint <;> cases json' <;> cases hint' <;>
      exact ⟨rfl, rfl, rfl, rfl, rfl, rfl⟩
  obtain ⟨hnull, hnumeric, hbool, hstring, has_bool, has_string⟩ := hkinds
  unfold json_to_plain Json.as_int Json.as_uint Json.as_int64 Json.as_uint64
  simp only [hinteger, hfloat, hnull, hnumeric, hbool, hstring, has_bool,
    has_string]

theorem json_to_plain_array (items : List Json) (p : Plain) :
    json_to_plain (.array items) p = .ok p := by
  obtain ⟨tag, type, val, parse_func, str_func⟩ := p
  cases type <;> rfl

theorem json_to_plain_object (members : List (Str × Json)) (p : Plain) :
    json_to_plain (.object members) p = .ok p := by
  obtain ⟨tag, type, val, parse_func, str_func⟩ := p
  cases type <;> rfl

/-- An integer is read into plains only. -/
theorem json_to_model_integer {json : Json} (hint : json.is_integer = true) {m : Model}
    (hm : ∀ p, m ≠ .plain p) : json_to_model_inner json m = .ok m := by
  cases m with
  | plain p => exact absurd rfl (hm p)
  | _ => cases json <;> first | rfl | cases hint

/-- The loop over a list, where the items are read the same. -/
theorem json_to_items_alike {P : Model → Prop} {items items' : List Json}
    (hlength : items.length = items'.length)
    (hitems : ∀ p ∈ items.zip items', p.1.is_null = p.2.is_null ∧ ∀ {m : Model}, m.Proper P →
      ∀ {m' : Model}, json_to_model_inner p.1 m = .ok m' ↔ json_to_model_inner p.2 m = .ok m')
    {list list' : List Model} (hlist : ∀ m ∈ list, m.Proper P) :
    json_to_items items list = .ok list' ↔ json_to_items items' list = .ok list' := by
  induction items generalizing items' list list' with
  | nil =>
    cases items' with
    | nil => exact Iff.rfl
    | cons _ _ => cases hlength
  | cons json items ih =>
    cases items' with
    | nil => cases hlength
    | cons json' items' =>
      cases list with
      | nil => exact Iff.rfl
      | cons m list =>
        obtain ⟨hnull, hread⟩ := hitems (json, json') (by simp)
        have htarget : (if json.is_null then Model.null else m).Proper P := by
          split
          · exact .null
          · exact hlist m List.mem_cons_self
        have hrest : ∀ {list'}, json_to_items items list = .ok list' ↔
            json_to_items items' list = .ok list' :=
          ih (Nat.succ.inj hlength) (fun p hp => hitems p (by simp [hp]))
            fun m' hm' => hlist m' (List.mem_cons_of_mem m hm')
        rw [json_to_items, json_to_items, run_bind_eq_ok, run_bind_eq_ok]
        simp only [hread htarget, run_bind_eq_ok, hrest, ← hnull]

/-- **A model is read the same** from values of the same text. -/
theorem alike_iff {P : Model → Prop} {json json' : Json} (h : json.Alike json') {m : Model}
    (hm : m.Proper P) {m' : Model} :
    json_to_model_inner json m = .ok m' ↔ json_to_model_inner json' m = .ok m' := by
  induction h generalizing m m' with
  | refl => exact Iff.rfl
  | integer hint hint' htrunc =>
    by_cases hplain : ∃ p, m = .plain p
    · obtain ⟨p, rfl⟩ := hplain
      rw [json_to_model_plain, json_to_model_plain, json_to_plain_same_integer hint hint' htrunc]
    · have hother : ∀ p, m ≠ .plain p := fun p hp => hplain ⟨p, hp⟩
      rw [json_to_model_integer hint hother, json_to_model_integer hint' hother]
  | @array items items' hlength hitems ih =>
    cases hm with
    | null => exact Iff.rfl
    | void => exact Iff.rfl
    | object => exact Iff.rfl
    | plain =>
      rw [json_to_model_plain, json_to_model_plain, json_to_plain_array, json_to_plain_array]
    | @list tag list hlist =>
      have hread : ∀ {list'}, json_to_items items list = .ok list' ↔
          json_to_items items' list = .ok list' :=
        json_to_items_alike hlength (fun p hp => ⟨(hitems p hp).is_null, ih p hp⟩) hlist
      rw [json_to_model_list, json_to_model_list, run_bind_eq_ok, run_bind_eq_ok]
      simp only [json_to_list, hread]
  | object hkeys hkeys' hmembers ih =>
    cases hm with
    | null => exact Iff.rfl
    | void => exact Iff.rfl
    | list => exact Iff.rfl
    | plain =>
      rw [json_to_model_plain, json_to_model_plain, json_to_plain_object, json_to_plain_object]
    | object hschema hnames hdetected hdefaults_detected hdefaults hplains hlists hpointers
        hobjects =>
      have hclazz := (Model.keys_of_schema_eq hschema).symm
      refine (json_to_members_iff hkeys hclazz hnames).trans
        (Iff.trans ?_ (json_to_members_iff hkeys' hclazz hnames).symm)
      -- a member of each kind is read from the member of its name
      have hplains_iff : ∀ {ps}, MembersRead json_to_plain _ _ ps ↔
          MembersRead json_to_plain _ _ ps := pointwise_congr fun kp hkp p' => by
        have hread := @ih kp.1 (.plain kp.2) (.plain (hplains kp hkp)) (.plain p')
        simpa [json_to_model_plain, run_bind_eq_ok] using hread
      have hlists_iff : ∀ {ls}, MembersRead json_to_list _ _ ls ↔
          MembersRead json_to_list _ _ ls := pointwise_congr fun kms hkms items' => by
        have hread := @ih kms.1 (.list [] kms.2) (.list (hlists kms hkms)) (.list [] items')
        simpa [json_to_model_list, run_bind_eq_ok] using hread
      have hobjects_iff : ∀ {os}, MembersRead json_to_model_inner _ _ os ↔
          MembersRead json_to_model_inner _ _ os := pointwise_congr fun km hkm m' =>
        @ih km.1 km.2 (hobjects km hkm) m'
      simp only [hplains_iff, hlists_iff, hobjects_iff]

/-! ## A new instance -/

/-- A new instance of the class. -/
def fresh : Model → Model
  | .object _ clazz _ lists objects =>
    .construct clazz (lists.map Prod.fst) (objects.map Prod.fst)
  | m => m

/-- The model without its items and its objects. -/
def emptied : Model → Model
  | .object tag clazz plains lists objects =>
    .object tag clazz plains (lists.map fun kms => (kms.1, []))
      (objects.map fun km => (km.1, .null))
  | m => m

/-- An object of a class, new or not, under any tag. -/
theorem emptied_proper {P : Model → Prop} {tag tag' : Str} {clazz : Clazz}
    {plains plains' : List (Str × Plain)} {lists : List (Str × List Model)}
    {objects : List (Str × Model)} (h : (Model.object tag clazz plains lists objects).Proper P)
    (hschema : Model.schema plains' = Model.schema clazz.plain_names)
    (hdetected : ∀ kp ∈ plains', kp.2.type = kp.2.val.kind)
    (hplains : ∀ kp ∈ plains', P (.plain kp.2)) :
    (emptied (.object tag' clazz plains' lists objects)).Proper P := by
  cases h with
  | object hschema₀ hnames hdetected₀ hdefaults_detected hdefaults hplains₀ hlists hpointers
      hobjects =>
  have hkeys : plains'.map Prod.fst = plains.map Prod.fst :=
    Model.keys_of_schema_eq (hschema.trans hschema₀.symm)
  have hnames_eq : Model.member_names plains' (lists.map fun kms => (kms.1, ([] : List Model)))
      (objects.map fun km => (km.1, Model.null)) = Model.member_names plains lists objects := by
    simp [Model.member_names, hkeys, Function.comp_def]
  refine .object hschema (by rwa [hnames_eq]) hdetected hdefaults_detected hdefaults hplains
    ?_ ?_ ?_
  · intro kms hkms m hm
    obtain ⟨kms₀, -, rfl⟩ := List.mem_map.mp hkms
    cases hm
  · intro km hkm
    obtain ⟨km₀, -, rfl⟩ := List.mem_map.mp hkm
    trivial
  · intro km hkm
    obtain ⟨km₀, -, rfl⟩ := List.mem_map.mp hkm
    exact .null

theorem fresh_eq (tag : Str) (clazz : Clazz) (plains : List (Str × Plain))
    (lists : List (Str × List Model)) (objects : List (Str × Model)) :
    fresh (.object tag clazz plains lists objects) =
      emptied (.object [] clazz clazz.plain_names lists objects) := by
  simp [fresh, emptied, Model.construct, Function.comp_def]

/-- **What a new instance gets.** The plain members of the model, and nothing else. -/
theorem fresh_read (tag tag' : Str) {clazz : Clazz} {plains : List (Str × Plain)}
    {lists : List (Str × List Model)} {objects : List (Str × Model)}
    (h : (Model.object tag clazz plains lists objects).Proper Exact) :
    ∃ json t', model_to_json_inner (.object tag clazz plains lists objects) = .ok json ∧
      json_to_model_inner json (emptied (.object tag' clazz clazz.plain_names lists objects)) =
        .ok t' ∧ t'.data = (emptied (.object tag clazz plains lists objects)).data := by
  have htarget := h
  cases h with
  | object hschema hnames hdetected hdefaults_detected hdefaults hplains hlists hpointers
      hobjects =>
  obtain ⟨members, hjson, hkeys, hps, -, -⟩ :=
    object_written tag clazz hnames hplains
      (fun kms hkms m hm => round_trips (hlists kms hkms m hm))
      fun km hkm => round_trips (hobjects km hkm)
  obtain ⟨plains', hplains_read, hplains_data⟩ := plains_read hplains hdefaults hschema.symm hps
  have htarget_names : (Model.member_names clazz.plain_names
      (lists.map fun kms => (kms.1, ([] : List Model)))
      (objects.map fun km => (km.1, Model.null))).Nodup := by
    have hproper : (emptied (.object tag' clazz clazz.plain_names lists objects)).Proper Exact :=
      emptied_proper htarget rfl hdefaults_detected hdefaults
    cases hproper with
    | object _ hnames' => exact hnames'
  have hlists_read := membersRead_fresh json_to_list_nil members lists
  have hobjects_read := membersRead_fresh json_to_model_null_right members objects
  rw [List.map_map] at hlists_read hobjects_read
  refine ⟨.object members, _, hjson, (json_to_members_iff hkeys rfl htarget_names).mpr
    ⟨plains', _, _, rfl, hplains_read, hlists_read, hobjects_read⟩, ?_⟩
  rw [emptied, Model.data, Model.data, Model.tree_object, Model.tree_object, hplains_data]
  rfl

end Rellaf.JsonToModel
