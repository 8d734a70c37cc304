/-
Which documents `json_to_model` reads without an exception.

The conversions throw on a number out of range, and nothing stands between them and
the document. `Meets` says which JSON value is read into which plain; the reading
returns exactly when each of these numbers is in the range of the conversion
(`inner_ok_iff`).
-/
import Rellaf.JsonMembers

set_option autoImplicit false

open Rellaf.Cpp

namespace Rellaf.JsonToModel

open Models MemberMap

/-- The members of an object have names of their own, at any depth. -/
inductive Json.Distinct : Json → Prop where
  | null : Distinct .null
  | bool (b : Bool) : Distinct (.bool b)
  | int (v : Int64) : Distinct (.int v)
  | uint (v : UInt64) : Distinct (.uint v)
  | real (v : Float) : Distinct (.real v)
  | str (s : Str) : Distinct (.str s)
  | array {items : List Json} (hitems : ∀ json ∈ items, Distinct json) : Distinct (.array items)
  | object {members : List (Str × Json)} (hkeys : (members.map Prod.fst).Nodup)
      (hmembers : ∀ kj ∈ members, Distinct kj.2) : Distinct (.object members)

/-- The JSON value `j` and the plain `p` stand at the same place. -/
inductive Meets : Json → Model → Json → Plain → Prop where
  | plain {j : Json} {p : Plain} : Meets j (.plain p) j p
  | item {nodes : List Json} {tag : Str} {items : List Model} {i : Nat} {json : Json} {m : Model}
      {j : Json} {p : Plain} (hnode : nodes[i]? = some json) (hitem : items[i]? = some m)
      (h : Meets json m j p) : Meets (.array nodes) (.list tag items) j p
  | plain_member {members : List (Str × Json)} {tag : Str} {clazz : Clazz}
      {plains : List (Str × Plain)} {lists : List (Str × List Model)}
      {objects : List (Str × Model)} {k : Str} {j : Json} {p : Plain} (hmember : (k, j) ∈ members)
      (hplain : (k, p) ∈ plains) :
    Meets (.object members) (.object tag clazz plains lists objects) j p
  | list_member {members : List (Str × Json)} {tag : Str} {clazz : Clazz}
      {plains : List (Str × Plain)} {lists : List (Str × List Model)}
      {objects : List (Str × Model)} {k : Str} {json : Json} {items : List Model} {j : Json}
      {p : Plain} (hmember : (k, json) ∈ members) (hlist : (k, items) ∈ lists)
      (h : Meets json (.list [] items) j p) :
    Meets (.object members) (.object tag clazz plains lists objects) j p
  | object_member {members : List (Str × Json)} {tag : Str} {clazz : Clazz}
      {plains : List (Str × Plain)} {lists : List (Str × List Model)}
      {objects : List (Str × Model)} {k : Str} {json : Json} {m : Model} {j : Json} {p : Plain}
      (hmember : (k, json) ∈ members) (hobject : (k, m) ∈ objects) (h : Meets json m j p) :
    Meets (.object members) (.object tag clazz plains lists objects) j p

/-- The range of the conversion that is used for a type. -/
def conversion_range : ModelType → Option (Int × Int)
  | .CHAR | .INT16 | .INT => some (-2 ^ 31, 2 ^ 31 - 1)
  | .UINT16 | .UINT32 => some (0, 2 ^ 32 - 1)
  | .INT64 => some (-2 ^ 63, 2 ^ 63 - 1)
  | .UINT64 => some (0, 2 ^ 64 - 1)
  | _ => none

/-- A number does not leave the range of the conversion. -/
def PlainFits (json : Json) (p : Plain) : Prop :=
  json.is_numeric = true →
    ∀ range ∈ conversion_range p.type, json.in_range range.1 range.2 = true

/-- No number of the document leaves the range where it is read. -/
def Fits (json : Json) (m : Model) : Prop := ∀ j p, Meets json m j p → PlainFits j p

/-! ## Plains -/

/-- What is stored of an integer in place of a value. -/
def stored (n : Int) : PlainVal → PlainVal
  | .CHAR _ => .CHAR (Int32.ofInt n).toInt8.toUInt8
  | .INT16 _ => .INT16 (Int32.ofInt n).toInt16
  | .INT _ => .INT (Int32.ofInt n)
  | .INT64 _ => .INT64 (Int64.ofInt n)
  | .UINT16 _ => .UINT16 (UInt32.ofInt n).toUInt16
  | .UINT32 _ => .UINT32 (UInt32.ofInt n)
  | .UINT64 _ => .UINT64 (UInt64.ofInt n)
  | v => v

/-- A number is converted and stored. -/
theorem json_to_plain_number {json : Json} {p : Plain} {lo hi : Int}
    (htype : p.type = p.val.kind) (hnumeric : json.is_numeric = true)
    (hrange : conversion_range p.type = some (lo, hi)) :
    json_to_plain json p = (do
      let n ← json.as_integer lo hi
      return { p with val := stored n p.val }) := by
  have hnull : ¬ json.is_null = true := by
    intro h
    cases json with
    | null => cases hnumeric
    | _ => cases h
  obtain ⟨tag, type, val, parse_func, str_func⟩ := p
  obtain rfl : type = val.kind := htype
  cases val with
  | CHAR v | INT16 v | INT v | INT64 v | UINT16 v | UINT32 v | UINT64 v =>
    cases hrange
    simp only [json_to_plain, if_neg hnull, PlainVal.kind, hnumeric, if_true, Json.as_int,
      Json.as_uint, Json.as_int64, Json.as_uint64, bind_assoc]
    rfl
  | BOOL v | FLOAT v | DOUBLE v | STR v => cases hrange

theorem fits_range_iff {json : Json} {p : Plain} {lo hi : Int} (hnumeric : json.is_numeric = true)
    (hrange : conversion_range p.type = some (lo, hi)) :
    PlainFits json p ↔ json.in_range lo hi = true := by
  simp [PlainFits, hnumeric, hrange]

theorem fits_of_no_range {json : Json} {p : Plain} (hrange : conversion_range p.type = none) :
    PlainFits json p := by
  intro _ range hmem
  rw [hrange] at hmem
  cases hmem

/-- What is no number, or is not converted to one, is stored or left. -/
theorem json_to_plain_of_not_number {json : Json} {p : Plain} (hp : Model.Typed (.plain p))
    (h : json.is_numeric = false ∨ conversion_range p.type = none) :
    ∃ p', json_to_plain json p = .ok p' := by
  obtain ⟨tag, type, val, parse_func, str_func⟩ := p
  rcases hp with htype | htype
  · obtain rfl : type = val.kind := htype
    cases val <;> cases json <;> first | exact ⟨_, rfl⟩ | rcases h with h | h <;> cases h
  · obtain rfl : type = .no := htype
    cases json <;> exact ⟨_, rfl⟩

theorem json_to_plain_ok_iff {json : Json} {p : Plain} (hp : Model.Typed (.plain p)) :
    (∃ p', json_to_plain json p = .ok p') ↔ PlainFits json p := by
  cases hnumeric : json.is_numeric with
  | false =>
    have hfits : PlainFits json p := fun h => by rw [hnumeric] at h; cases h
    exact iff_of_true (json_to_plain_of_not_number hp (.inl hnumeric)) hfits
  | true =>
    cases hrange : conversion_range p.type with
    | none =>
      exact iff_of_true (json_to_plain_of_not_number hp (.inr hrange)) (fits_of_no_range hrange)
    | some range =>
      have htype : p.type = p.val.kind := by
        refine hp.resolve_right fun hno => ?_
        rw [hno] at hrange
        cases hrange
      rw [fits_range_iff hnumeric hrange, json_to_plain_number htype hnumeric hrange,
        Json.as_integer]
      cases json.in_range range.1 range.2 with
      | false => simp
      | true => simp

/-! ## Models -/

theorem json_to_items_ok_iff {nodes : List Json}
    (h : ∀ json ∈ nodes, ∀ m : Model, m.Proper Model.Typed →
      ((∃ m', json_to_model_inner json m = .ok m') ↔ Fits json m)) :
    ∀ {items : List Model}, (∀ m ∈ items, m.Proper Model.Typed) →
      ((∃ items', json_to_items nodes items = .ok items') ↔
        ∀ (i : Nat) json m, nodes[i]? = some json → items[i]? = some m → Fits json m) := by
  induction nodes with
  | nil =>
    intro items _
    refine iff_of_true ⟨_, rfl⟩ ?_
    intro i json m hjson
    simp at hjson
  | cons json nodes ih =>
    intro items hitems
    cases items with
    | nil =>
      refine iff_of_true ⟨_, rfl⟩ ?_
      intro i json m _ hm
      simp at hm
    | cons m items =>
      have hm : m.Proper Model.Typed := hitems m List.mem_cons_self
      have hhead := h json List.mem_cons_self m hm
      have htail := ih (fun json' hjson' => h json' (List.mem_cons_of_mem json hjson'))
        fun m' hm' => hitems m' (List.mem_cons_of_mem m hm')
      -- the item that null has made null is read from null
      have htarget : (∃ m', json_to_model_inner json (if json.is_null then .null else m) = .ok m') ↔
          ∃ m', json_to_model_inner json m = .ok m' := by
        cases json with
        | null => exact iff_of_true ⟨_, rfl⟩ ⟨m, json_to_model_null_left m⟩
        | _ => exact Iff.rfl
      have hcons : (∃ items', json_to_items (json :: nodes) (m :: items) = .ok items') ↔
          (∃ m', json_to_model_inner json m = .ok m') ∧
            ∃ items', json_to_items nodes items = .ok items' := by
        rw [← htarget, json_to_items]
        constructor
        · rintro ⟨items', hread⟩
          obtain ⟨m', hm', hread⟩ := run_bind_eq_ok.mp hread
          obtain ⟨items'', hitems'', -⟩ := run_bind_eq_ok.mp hread
          exact ⟨⟨m', hm'⟩, items'', hitems''⟩
        · rintro ⟨⟨m', hm'⟩, items', hitems'⟩
          refine ⟨m' :: items', ?_⟩
          rw [hm', run_ok_bind, hitems']
          rfl
      rw [hcons, hhead, htail]
      constructor
      · rintro ⟨hfits, hrest⟩ i json' m' hjson' hm'
        cases i with
        | zero =>
          cases hjson'
          cases hm'
          exact hfits
        | succ i => exact hrest i json' m' hjson' hm'
      · intro hall
        exact ⟨hall 0 json m rfl rfl, fun i json' m' => hall (i + 1) json' m'⟩

/-- All members of one kind can be read exactly when each can that has a JSON member. -/
theorem exists_membersRead_iff {V : Type} {read : Json → V → Run V}
    (hnull : ∀ v, read .null v = .ok v) {members : List (Str × Json)}
    (hkeys : (members.map Prod.fst).Nodup) {kvs : List (Str × V)} :
    (∃ kvs', MembersRead read members kvs kvs') ↔
      ∀ k json v, (k, json) ∈ members → (k, v) ∈ kvs → ∃ v', read json v = .ok v' := by
  rw [MembersRead.exists_iff]
  constructor
  · intro h k json v hjson hv
    obtain ⟨v', hv'⟩ := h (k, v) hv
    rw [member_of_mem hkeys hjson] at hv'
    exact ⟨v', hv'⟩
  · rintro h ⟨k, v⟩ hkv
    by_cases hk : k ∈ members.map Prod.fst
    · obtain ⟨⟨k', json⟩, hjson, rfl⟩ := List.mem_map.mp hk
      obtain ⟨v', hv'⟩ := h k' json v hjson hkv
      exact ⟨v', by rwa [member_of_mem hkeys hjson]⟩
    · exact ⟨v, by rw [member_of_not_mem hk, hnull]⟩

theorem json_to_list_ok_iff {json : Json} {items : List Model} :
    (∃ items', json_to_list json items = .ok items') ↔
      ∃ m', json_to_model_inner json (.list [] items) = .ok m' := by
  rw [json_to_model_list]
  cases json_to_list json items with
  | error fault => simp
  | ok items' => simp

/-- A value that has no place for any plain of the model. -/
theorem fits_of_not_meets {json : Json} {m : Model} (h : ∀ j p, ¬ Meets json m j p) :
    Fits json m := fun j p hmeets => absurd hmeets (h j p)

theorem null_ok_iff (json : Json) :
    (∃ m', json_to_model_inner json .null = .ok m') ↔ Fits json .null :=
  iff_of_true ⟨.null, json_to_model_null_right json⟩ (fits_of_not_meets fun _ _ h => by cases h)

theorem void_ok_iff (json : Json) (tag : Str) :
    (∃ m', json_to_model_inner json (.void tag) = .ok m') ↔ Fits json (.void tag) := by
  refine iff_of_true ⟨.void tag, ?_⟩ (fits_of_not_meets fun _ _ h => by cases h)
  cases json <;> rfl

theorem plain_ok_iff (json : Json) {p : Plain} (hp : Model.Typed (.plain p)) :
    (∃ m', json_to_model_inner json (.plain p) = .ok m') ↔ Fits json (.plain p) := by
  have hfits : Fits json (.plain p) ↔ PlainFits json p := by
    constructor
    · exact fun h => h json p .plain
    · rintro h j p' ⟨⟩
      exact h
  rw [hfits, ← json_to_plain_ok_iff hp, json_to_model_plain]
  cases json_to_plain json p <;> simp

theorem array_ok_iff {nodes : List Json}
    (h : ∀ json ∈ nodes, ∀ m : Model, m.Proper Model.Typed →
      ((∃ m', json_to_model_inner json m = .ok m') ↔ Fits json m))
    {tag : Str} {items : List Model} (hitems : ∀ m ∈ items, m.Proper Model.Typed) :
    (∃ m', json_to_model_inner (.array nodes) (.list tag items) = .ok m') ↔
      Fits (.array nodes) (.list tag items) := by
  have hread : (∃ m', json_to_model_inner (.array nodes) (.list tag items) = .ok m') ↔
      ∃ items', json_to_items nodes items = .ok items' := by
    rw [json_to_model_list, json_to_list]
    cases json_to_items nodes items <;> simp
  rw [hread, json_to_items_ok_iff h hitems]
  constructor
  · intro hall j p hmeets
    cases hmeets with
    | item hnode hitem hmeets => exact hall _ _ _ hnode hitem j p hmeets
  · exact fun hall i json m hnode hitem j p hmeets => hall j p (.item hnode hitem hmeets)

theorem object_ok_iff {members : List (Str × Json)} (hkeys : (members.map Prod.fst).Nodup)
    (h : ∀ kj ∈ members, ∀ m : Model, m.Proper Model.Typed →
      ((∃ m', json_to_model_inner kj.2 m = .ok m') ↔ Fits kj.2 m))
    {tag : Str} {clazz : Clazz} {plains : List (Str × Plain)} {lists : List (Str × List Model)}
    {objects : List (Str × Model)}
    (hm : (Model.object tag clazz plains lists objects).Proper Model.Typed) :
    (∃ m', json_to_model_inner (.object members) (.object tag clazz plains lists objects) =
        .ok m') ↔ Fits (.object members) (.object tag clazz plains lists objects) := by
  cases hm with
  | object hschema hnames hdetected hdefaults_detected hdefaults hplains hlists hpointers hobjects =>
  have hread : (∃ m', json_to_members members (.object tag clazz plains lists objects) = .ok m') ↔
      (∃ plains', MembersRead json_to_plain members plains plains') ∧
        (∃ lists', MembersRead json_to_list members lists lists') ∧
        ∃ objects', MembersRead json_to_model_inner members objects objects' := by
    simp only [json_to_members_iff hkeys (Model.keys_of_schema_eq hschema).symm hnames]
    constructor
    · rintro ⟨m', ps, ls, os, -, hps, hls, hos⟩
      exact ⟨⟨ps, hps⟩, ⟨ls, hls⟩, os, hos⟩
    · rintro ⟨⟨ps, hps⟩, ⟨ls, hls⟩, os, hos⟩
      exact ⟨_, ps, ls, os, rfl, hps, hls, hos⟩
  rw [json_to_model_inner, hread, exists_membersRead_iff json_to_plain_null hkeys,
    exists_membersRead_iff json_to_list_null hkeys,
    exists_membersRead_iff json_to_model_null_left hkeys]
  constructor
  · rintro ⟨hps, hls, hos⟩ j p hmeets
    cases hmeets with
    | plain_member hmember hplain_mem =>
      exact (json_to_plain_ok_iff (hplains _ hplain_mem)).mp (hps _ _ _ hmember hplain_mem)
    | list_member hmember hlist hmeets =>
      have hok := json_to_list_ok_iff.mp (hls _ _ _ hmember hlist)
      exact (h _ hmember _ (.list (hlists _ hlist))).mp hok j p hmeets
    | object_member hmember hobject hmeets =>
      exact (h _ hmember _ (hobjects _ hobject)).mp (hos _ _ _ hmember hobject) j p hmeets
  · intro hall
    refine ⟨?_, ?_, ?_⟩
    · intro k json p hmember hp
      exact (json_to_plain_ok_iff (hplains _ hp)).mpr (hall json p (.plain_member hmember hp))
    · intro k json items hmember hlist
      refine json_to_list_ok_iff.mpr ((h _ hmember _ (.list (hlists _ hlist))).mpr ?_)
      exact fun j p hmeets => hall j p (.list_member hmember hlist hmeets)
    · intro k json m hmember hobject
      refine (h _ hmember _ (hobjects _ hobject)).mpr ?_
      exact fun j p hmeets => hall j p (.object_member hmember hobject hmeets)

/-- A value and a model of different kinds: nothing is read. -/
theorem other_ok_iff {json : Json} {m : Model} (hread : json_to_model_inner json m = .ok m)
    (hmeets : ∀ j p, ¬ Meets json m j p) :
    (∃ m', json_to_model_inner json m = .ok m') ↔ Fits json m :=
  iff_of_true ⟨m, hread⟩ (fits_of_not_meets hmeets)

/-- **When a document is read without an exception.** -/
theorem inner_ok_iff {json : Json} (hjson : json.Distinct) : ∀ {m : Model}, m.Proper Model.Typed →
    ((∃ m', json_to_model_inner json m = .ok m') ↔ Fits json m) := by
  induction hjson with
  | array hdistinct ih =>
    intro m hm
    cases hm with
    | null => exact null_ok_iff _
    | void => exact void_ok_iff _ _
    | plain hp => exact plain_ok_iff _ hp
    | list hitems => exact array_ok_iff (fun json hj m hm => ih json hj hm) hitems
    | object => exact other_ok_iff rfl fun _ _ h => by cases h
  | object hkeys hdistinct ih =>
    intro m hm
    cases id hm with
    | null => exact null_ok_iff _
    | void => exact void_ok_iff _ _
    | plain hp => exact plain_ok_iff _ hp
    | list => exact other_ok_iff rfl fun _ _ h => by cases h
    | object => exact object_ok_iff hkeys (fun kj hj m hm => ih kj hj hm) hm
  | _ =>
    -- null and the scalars: only a plain is read from them
    intro m hm
    cases hm with
    | null => exact null_ok_iff _
    | void => exact void_ok_iff _ _
    | plain hp => exact plain_ok_iff _ hp
    | list => exact other_ok_iff rfl fun _ _ h => by cases h
    | object => exact other_ok_iff rfl fun _ _ h => by cases h

/-- **When `json_to_model` returns true.** The text is empty, or no number in it leaves
the range of the conversion that the model has for its place. -/
theorem json_to_model_true_iff (parse : Str → Option Json)
    (hparse : ∀ text json, parse text = some json → json.Distinct) (json_str : Str) (json : Json)
    (hjson : parse json_str = some json) (model : Model) (hmodel : model.Proper Model.Typed) :
    (∃ model', json_to_model parse json_str model = .ok (true, model')) ↔
      json_str = [] ∨ Fits json model := by
  rw [json_to_model]
  by_cases hempty : json_str.isEmpty = true
  · rw [if_pos hempty]
    exact iff_of_true ⟨model, rfl⟩ (.inl (List.isEmpty_iff.mp hempty))
  · have hne : json_str ≠ [] := by simpa using hempty
    rw [if_neg hempty, hjson, ← inner_ok_iff (hparse json_str json hjson) hmodel]
    simp only [hne, false_or]
    cases json_to_model_inner json model <;> simp

/-- `[7]` into a list of one number. -/
theorem json_to_model_true_iff_seven :
    let parse : Str → Option Json := fun text =>
      if text = lit "[7]" then some (.array [.int 7]) else none
    let model : Model := .list [] [.plain ⟨[], .INT, .INT 0, none, none⟩]
    (∃ model', json_to_model parse (lit "[7]") model = .ok (true, model')) ↔
      lit "[7]" = [] ∨ Fits (.array [.int 7]) model := by
  intro parse model
  have hparse : ∀ text json, parse text = some json → json.Distinct := by
    intro text json h
    by_cases htext : text = lit "[7]"
    · have hjson : Json.array [.int 7] = json := by simpa [parse, htext] using h
      subst hjson
      exact .array (by simpa using Json.Distinct.int 7)
    · simp [parse, htext] at h
  have hmodel : model.Proper Model.Typed := .list (by simpa using Model.Proper.plain (.inl rfl))
  exact json_to_model_true_iff parse hparse (lit "[7]") _ rfl model hmodel

/-- `[4294967296]` into a list of one number: `asInt` throws. -/
theorem json_to_model_throws :
    ¬ ∀ (parse : Str → Option Json) (json_str : Str) (json : Json) (model : Model),
      (∀ text json, parse text = some json → json.Distinct) → parse json_str = some json →
        model.Proper Model.Typed → ∃ model', json_to_model parse json_str model = .ok (true, model') := by
  intro hall
  have hparse : ∀ text json,
      (if text = lit "[4294967296]" then some (Json.array [.int 4294967296]) else none) = some json →
        json.Distinct := by
    intro text json h
    by_cases htext : text = lit "[4294967296]"
    · have hjson : Json.array [.int 4294967296] = json := by simpa [htext] using h
      subst hjson
      exact .array (by simpa using Json.Distinct.int 4294967296)
    · simp [htext] at h
  have hmodel : (Model.list [] [.plain ⟨[], .INT, .INT 0, none, none⟩]).Proper Model.Typed :=
    .list (by simpa using Model.Proper.plain (.inl rfl))
  obtain ⟨model', hread⟩ := hall _ (lit "[4294967296]") _ _ hparse rfl hmodel
  cases hread

end Rellaf.JsonToModel
