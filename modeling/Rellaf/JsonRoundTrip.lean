/-
A model written as JSON and read again.

Read into a model of the same shape, it comes back (`json_round_trip`): `RoundTrips`
is what the induction carries, for every model to read into. Read into a fresh
instance of its class, it comes back without the items of its lists and without its
objects, since reading fills what exists and creates nothing
(`fresh_round_trip_iff`).
-/
import Rellaf.JsonMembers

set_option autoImplicit false

open Rellaf.Cpp

namespace Rellaf.JsonToModel

open Models MemberMap

/-- A plain of the character, integer, boolean or string kind. -/
def Exact : Model → Prop
  | .plain p => p.type = p.val.kind ∧ p.type ≠ .FLOAT ∧ p.type ≠ .DOUBLE
  | _ => False

/-! ## Plains -/

/-- A signed integer of at most 32 bits, a signed one of 64, and the unsigned ones. -/
theorem as_int_toInt64 (v : Int32) : (Json.int v.toInt64).as_int = .ok v := by
  have hlo := Int32.le_toInt v
  have hhi := Int32.toInt_lt v
  have hrange : (Json.int v.toInt64).in_range (-2 ^ 31) (2 ^ 31 - 1) = true := by
    rw [Json.in_range, decide_eq_true_eq, Int32.toInt_toInt64]
    omega
  rw [Json.as_int, Json.as_integer, if_pos hrange, run_ok_bind, Json.trunc, Int32.toInt_toInt64,
    Int32.ofInt_toInt]
  rfl

theorem as_int64_int (v : Int64) : (Json.int v).as_int64 = .ok v := by
  have hlo := Int64.le_toInt v
  have hhi := Int64.toInt_lt v
  have hrange : (Json.int v).in_range (-2 ^ 63) (2 ^ 63 - 1) = true := by
    rw [Json.in_range, decide_eq_true_eq]
    omega
  rw [Json.as_int64, Json.as_integer, if_pos hrange, run_ok_bind, Json.trunc, Int64.ofInt_toInt]
  rfl

theorem as_uint_toUInt64 (v : UInt32) : (Json.uint v.toUInt64).as_uint = .ok v := by
  have hhi := UInt32.toNat_lt v
  have hrange : (Json.uint v.toUInt64).in_range 0 (2 ^ 32 - 1) = true := by
    rw [Json.in_range, decide_eq_true_eq, UInt32.toNat_toUInt64]
    omega
  have hmod : ((v.toNat : Int) % 2 ^ 32).toNat = v.toNat := by omega
  rw [Json.as_uint, Json.as_integer, if_pos hrange, run_ok_bind, Json.trunc, UInt32.toNat_toUInt64,
    UInt32.ofInt, hmod, UInt32.ofNat_toNat]
  rfl

theorem as_uint64_uint (v : UInt64) : (Json.uint v).as_uint64 = .ok v := by
  have hhi := UInt64.toNat_lt v
  have hrange : (Json.uint v).in_range 0 (2 ^ 64 - 1) = true := by
    rw [Json.in_range, decide_eq_true_eq]
    omega
  have hmod : ((v.toNat : Int) % 2 ^ 64).toNat = v.toNat := by omega
  rw [Json.as_uint64, Json.as_integer, if_pos hrange, run_ok_bind, Json.trunc, UInt64.ofInt, hmod,
    UInt64.ofNat_toNat]
  rfl

/-- A plain comes back, in any plain of its type. -/
theorem plain_round_trip {p : Plain} (hp : Exact (.plain p)) :
    ∃ json, plain_to_json p = .ok json ∧ json.is_null = false ∧
      ∀ q, Exact (.plain q) → q.type = p.type →
        json_to_plain json q = .ok { q with val := p.val } := by
  obtain ⟨tag, type, val, parse_func, str_func⟩ := p
  obtain ⟨htype, hfloat, hdouble⟩ := hp
  obtain rfl : type = val.kind := htype
  have hset : ∀ q, Exact (.plain q) → q.type = val.kind → set_plain q val = .ok { q with val := val } :=
    fun q hq hqtype => set_plain_ok (hq.1.symm.trans hqtype)
  cases val with
  | CHAR v =>
    -- written as a signed number, and cut back to eight bits
    have hint : (Json.int v.toInt8.toInt64).as_int = .ok v.toInt8.toInt32 := by
      rw [← Int8.toInt64_toInt32]
      exact as_int_toInt64 v.toInt8.toInt32
    refine ⟨.int v.toInt8.toInt64, rfl, rfl, fun q hq hqtype => ?_⟩
    have hread : json_to_plain (.int v.toInt8.toInt64) q = (do
        set_plain q (.CHAR (← (Json.int v.toInt8.toInt64).as_int).toInt8.toUInt8)) := by
      rw [json_to_plain, hqtype]
      rfl
    rw [hread, hint, run_ok_bind, Int8.toInt8_toInt32, UInt8.toUInt8_toInt8]
    exact hset q hq hqtype
  | INT16 v =>
    have hint : (Json.int v.toInt64).as_int = .ok v.toInt32 := by
      rw [← Int16.toInt64_toInt32]
      exact as_int_toInt64 v.toInt32
    refine ⟨.int v.toInt64, rfl, rfl, fun q hq hqtype => ?_⟩
    have hread : json_to_plain (.int v.toInt64) q = (do
        set_plain q (.INT16 (← (Json.int v.toInt64).as_int).toInt16)) := by
      rw [json_to_plain, hqtype]
      rfl
    rw [hread, hint, run_ok_bind, Int16.toInt16_toInt32]
    exact hset q hq hqtype
  | INT v =>
    refine ⟨.int v.toInt64, rfl, rfl, fun q hq hqtype => ?_⟩
    have hread : json_to_plain (.int v.toInt64) q = (do
        set_plain q (.INT (← (Json.int v.toInt64).as_int))) := by
      rw [json_to_plain, hqtype]
      rfl
    rw [hread, as_int_toInt64, run_ok_bind]
    exact hset q hq hqtype
  | INT64 v =>
    refine ⟨.int v, rfl, rfl, fun q hq hqtype => ?_⟩
    have hread : json_to_plain (.int v) q = (do
        set_plain q (.INT64 (← (Json.int v).as_int64))) := by
      rw [json_to_plain, hqtype]
      rfl
    rw [hread, as_int64_int, run_ok_bind]
    exact hset q hq hqtype
  | UINT16 v =>
    have huint : (Json.uint v.toUInt64).as_uint = .ok v.toUInt32 := by
      rw [← UInt16.toUInt64_toUInt32]
      exact as_uint_toUInt64 v.toUInt32
    refine ⟨.uint v.toUInt64, rfl, rfl, fun q hq hqtype => ?_⟩
    have hread : json_to_plain (.uint v.toUInt64) q = (do
        set_plain q (.UINT16 (← (Json.uint v.toUInt64).as_uint).toUInt16)) := by
      rw [json_to_plain, hqtype]
      rfl
    rw [hread, huint, run_ok_bind, UInt16.toUInt16_toUInt32]
    exact hset q hq hqtype
  | UINT32 v =>
    -- written through a signed integer of the same bits
    refine ⟨.uint v.toUInt64, rfl, rfl, fun q hq hqtype => ?_⟩
    have hread : json_to_plain (.uint v.toUInt64) q = (do
        set_plain q (.UINT32 (← (Json.uint v.toUInt64).as_uint))) := by
      rw [json_to_plain, hqtype]
      rfl
    rw [hread, as_uint_toUInt64, run_ok_bind]
    exact hset q hq hqtype
  | UINT64 v =>
    refine ⟨.uint v, rfl, rfl, fun q hq hqtype => ?_⟩
    have hread : json_to_plain (.uint v) q = (do
        set_plain q (.UINT64 (← (Json.uint v).as_uint64))) := by
      rw [json_to_plain, hqtype]
      rfl
    rw [hread, as_uint64_uint, run_ok_bind]
    exact hset q hq hqtype
  | BOOL v =>
    refine ⟨.bool v, rfl, rfl, fun q hq hqtype => ?_⟩
    have hread : json_to_plain (.bool v) q = set_plain q (.BOOL v) := by
      rw [json_to_plain, hqtype]
      rfl
    rw [hread]
    exact hset q hq hqtype
  | STR v =>
    refine ⟨.str v, rfl, rfl, fun q hq hqtype => ?_⟩
    have hread : json_to_plain (.str v) q = set_plain q (.STR v) := by
      rw [json_to_plain, hqtype]
      rfl
    rw [hread]
    exact hset q hq hqtype
  | FLOAT v => exact absurd rfl hfloat
  | DOUBLE v => exact absurd rfl hdouble

/-! ## A model of the same shape -/

/-- Written as JSON, null only for null, and read into any model of the same shape. -/
def RoundTrips (m : Model) : Prop :=
  ∃ json, model_to_json_inner m = .ok json ∧ (json.is_null = true → m = .null) ∧
    ∀ t : Model, t.Proper Exact → t.shape = m.shape →
      ∃ t', json_to_model_inner json t = .ok t' ∧ t'.data = m.data

theorem shape_eq_null_iff {m : Model} : m.shape = .null ↔ m = .null := by
  cases m <;> simp [Model.shape, Model.tree]

theorem items_round_trip {items : List Model} (h : ∀ m ∈ items, RoundTrips m) :
    ∃ nodes, items_to_json items = .ok nodes ∧
      ∀ ts : List Model, (∀ t ∈ ts, t.Proper Exact) →
        ts.map Model.shape = items.map Model.shape →
        ∃ ts', json_to_items nodes ts = .ok ts' ∧ ts'.map Model.data = items.map Model.data := by
  induction items with
  | nil =>
    refine ⟨[], rfl, fun ts _ hshape => ?_⟩
    obtain rfl : ts = [] := by simpa using hshape
    exact ⟨[], rfl, rfl⟩
  | cons m items ih =>
    obtain ⟨json, hjson, hnull, hread⟩ := h m List.mem_cons_self
    obtain ⟨nodes, hnodes, hreads⟩ := ih fun m' hm' => h m' (List.mem_cons_of_mem m hm')
    refine ⟨json :: nodes, ?_, ?_⟩
    · rw [items_to_json, hjson, run_ok_bind, hnodes]
      rfl
    intro ts hproper hshape
    cases ts with
    | nil => cases hshape
    | cons t ts =>
      obtain ⟨hhead, htail⟩ : t.shape = m.shape ∧ ts.map Model.shape = items.map Model.shape := by
        simpa using hshape
      -- the item is set to null only where it is null
      have htarget : (if json.is_null then Model.null else t) = t := by
        split
        · rename_i hjson_null
          rw [hnull hjson_null] at hhead
          exact (shape_eq_null_iff.mp hhead).symm
        · rfl
      obtain ⟨t', ht', hdata⟩ := hread t (hproper t List.mem_cons_self) hhead
      obtain ⟨ts', hts', hdatas⟩ :=
        hreads ts (fun u hu => hproper u (List.mem_cons_of_mem t hu)) htail
      refine ⟨t' :: ts', ?_, by rw [List.map_cons, List.map_cons, hdata, hdatas]⟩
      rw [json_to_items, htarget, ht', run_ok_bind, hts']
      rfl

/-- What is written for the members of an object, each with a name of its own. -/
theorem object_written (tag : Str) (clazz : Clazz) {plains : List (Str × Plain)}
    {lists : List (Str × List Model)} {objects : List (Str × Model)}
    (hnames : (Model.member_names plains lists objects).Nodup)
    (hplains : ∀ kp ∈ plains, Exact (.plain kp.2))
    (hlists : ∀ kms ∈ lists, ∀ m ∈ kms.2, RoundTrips m)
    (hobjects : ∀ km ∈ objects, RoundTrips km.2) :
    ∃ members, model_to_json_inner (.object tag clazz plains lists objects) =
        .ok (.object members) ∧ (members.map Prod.fst).Nodup ∧
      (∀ kp ∈ plains, plain_to_json kp.2 = .ok (member members kp.1)) ∧
      (∀ kms ∈ lists, ∃ nodes, items_to_json kms.2 = .ok nodes ∧
        member members kms.1 = .array nodes) ∧
      ∀ km ∈ objects, model_to_json_inner km.2 = .ok (member members km.1) := by
  obtain ⟨ps, hps⟩ : ∃ ps, PlainsWritten plains ps := by
    refine exists_pointwise_iff.mpr fun kp hkp => ?_
    obtain ⟨json, hjson, -⟩ := plain_round_trip (hplains kp hkp)
    exact ⟨json, hjson⟩
  obtain ⟨ls, hls⟩ : ∃ ls, ListsWritten lists ls := by
    refine exists_pointwise_iff.mpr fun kms hkms => ?_
    obtain ⟨nodes, hnodes, -⟩ := items_round_trip (hlists kms hkms)
    exact ⟨.array nodes, nodes, hnodes, rfl⟩
  obtain ⟨os, hos⟩ : ∃ os, ObjectsWritten objects os := by
    refine exists_pointwise_iff.mpr fun km hkm => ?_
    obtain ⟨json, hjson, -⟩ := hobjects km hkm
    exact ⟨json, hjson⟩
  -- the document has the names of the members, in the same order
  have hkeys : ((ps ++ (ls ++ os)).map Prod.fst).Nodup := by
    rw [List.map_append, List.map_append, hps.keys, hls.keys, hos.keys]
    exact hnames
  refine ⟨ps ++ (ls ++ os), (model_to_json_object_iff hnames).mpr ⟨ps, ls, os, rfl, hps, hls, hos⟩,
    hkeys, ?_, ?_, ?_⟩
  · intro kp hkp
    obtain ⟨json, hmem, hjson⟩ := hps.exists_mem hkp
    rwa [member_of_mem hkeys (List.mem_append_left _ hmem)]
  · intro kms hkms
    obtain ⟨json, hmem, nodes, hnodes, rfl⟩ := hls.exists_mem hkms
    exact ⟨nodes, hnodes,
      member_of_mem hkeys (List.mem_append_right _ (List.mem_append_left _ hmem))⟩
  · intro km hkm
    obtain ⟨json, hmem, hjson⟩ := hos.exists_mem hkm
    rwa [member_of_mem hkeys (List.mem_append_right _ (List.mem_append_right _ hmem))]

/-- The plain members of an instance of the class, read from what was written. -/
theorem plains_read {plains plains' : List (Str × Plain)} {members : List (Str × Json)}
    (hplains : ∀ kp ∈ plains, Exact (.plain kp.2)) (hplains' : ∀ kp ∈ plains', Exact (.plain kp.2))
    (hschema : Model.schema plains' = Model.schema plains)
    (hwritten : ∀ kp ∈ plains, plain_to_json kp.2 = .ok (member members kp.1)) :
    ∃ plains'', MembersRead json_to_plain members plains' plains'' ∧
      plains''.map (fun kp => (kp.1, kp.2.val)) = plains.map (fun kp => (kp.1, kp.2.val)) := by
  have htypes : Pointwise (fun _ p q => q.type = p.type) plains plains' :=
    map_eq_iff_pointwise.mp hschema
  obtain ⟨plains'', hread, hvals⟩ := htypes.exists_trans
    (R := fun k q q' => json_to_plain (member members k) q = .ok q')
    (S := fun _ p q' => q'.val = p.val) fun k p q hp hq htype => by
      obtain ⟨json, hjson, -, hread⟩ := plain_round_trip (hplains (k, p) hp)
      obtain rfl : json = member members k := by
        have hmember := hwritten (k, p) hp
        rw [hjson] at hmember
        exact Except.ok.inj hmember
      exact ⟨{ q with val := p.val }, hread q (hplains' (k, q) hq) htype, rfl⟩
  exact ⟨plains'', hread, map_eq_iff_pointwise.mpr hvals⟩

/-- The cases of an object, on both sides. -/
theorem object_round_trip {tag : Str} {clazz : Clazz} {plains : List (Str × Plain)}
    {lists : List (Str × List Model)} {objects : List (Str × Model)}
    (hnames : (Model.member_names plains lists objects).Nodup)
    (hplains : ∀ kp ∈ plains, Exact (.plain kp.2))
    (hlists : ∀ kms ∈ lists, ∀ m ∈ kms.2, RoundTrips m)
    (hobjects : ∀ km ∈ objects, RoundTrips km.2) :
    RoundTrips (.object tag clazz plains lists objects) := by
  obtain ⟨members, hjson, hkeys, hps, hls, hos⟩ :=
    object_written tag clazz hnames hplains hlists hobjects
  refine ⟨.object members, hjson, nofun, fun t ht hshape => ?_⟩
  rw [Model.shape, Model.shape, Model.tree_object] at hshape
  cases ht with
  | null => cases hshape
  | void hvoid => cases hshape
  | plain hplain => cases hshape
  | list hitems =>
    rw [Model.tree_list] at hshape
    cases hshape
  | @object tag' clazz' plains' lists' objects' hschema' hnames' hdetected' hdefaults_detected' hdefaults'
      hplains' hlists' hpointers' hobjects' =>
    rw [Model.tree_object, ModelTree.object.injEq] at hshape
    obtain ⟨hclazz, hplains_shape, hlists_shape, hobjects_shape⟩ := hshape
    -- one kind of members after the other, each read into those of its own shape
    obtain ⟨plains'', hplains_read, hplains_data⟩ :=
      plains_read hplains hplains' hplains_shape hps
    obtain ⟨lists'', hlists_read, hlists_data⟩ :=
      (map_eq_iff_pointwise.mp hlists_shape).exists_trans
        (R := fun k ts ts' => json_to_list (member members k) ts = .ok ts')
        (S := fun _ items ts' => ts'.map Model.data = items.map Model.data)
        fun k items ts hitems hts hshapes => by
          obtain ⟨nodes, hnodes, hread⟩ := items_round_trip (hlists (k, items) hitems)
          obtain ⟨nodes', hnodes', hmember⟩ := hls (k, items) hitems
          obtain rfl : nodes = nodes' := Except.ok.inj (hnodes.symm.trans hnodes')
          rw [hmember]
          exact hread ts (hlists' (k, ts) hts) hshapes
    obtain ⟨objects'', hobjects_read, hobjects_data⟩ :=
      (map_eq_iff_pointwise.mp hobjects_shape).exists_trans
        (R := fun k t t' => json_to_model_inner (member members k) t = .ok t')
        (S := fun _ m t' => t'.data = m.data)
        fun k m t hm ht hshape => by
          obtain ⟨json, hjson, -, hread⟩ := hobjects (k, m) hm
          obtain rfl : json = member members k :=
            Except.ok.inj (hjson.symm.trans (hos (k, m) hm))
          exact hread t (hobjects' (k, t) ht) hshape
    refine ⟨.object tag' clazz' plains'' lists'' objects'', ?_, ?_⟩
    · exact (json_to_members_iff hkeys (Model.keys_of_schema_eq hschema').symm hnames').mpr
        ⟨plains'', lists'', objects'', rfl, hplains_read, hlists_read, hobjects_read⟩
    · rw [Model.data, Model.data, Model.tree_object, Model.tree_object, hclazz, hplains_data]
      congr 1
      · exact map_eq_iff_pointwise.mpr hlists_data
      · exact map_eq_iff_pointwise.mpr hobjects_data

theorem round_trips {m : Model} (h : m.Proper Exact) : RoundTrips m := by
  induction m using Model.induct with
  | hnull =>
    refine ⟨.null, rfl, fun _ => rfl, fun t _ hshape => ?_⟩
    obtain rfl := shape_eq_null_iff.mp hshape
    exact ⟨.null, rfl, rfl⟩
  | hvoid tag =>
    cases h with
    | void hvoid => exact hvoid.elim
  | hplain p =>
    cases h with
    | plain hp =>
    obtain ⟨json, hjson, hnull, hread⟩ := plain_round_trip hp
    refine ⟨json, hjson, fun h => absurd h (Bool.eq_false_iff.mp hnull), fun t ht hshape => ?_⟩
    cases ht with
    | null => cases hshape
    | void hvoid => cases hshape
    | list hitems => cases hshape
    | object => cases hshape
    | @plain q hq =>
      have htype : q.type = p.type := ModelTree.plain.inj hshape
      refine ⟨.plain { q with val := p.val }, ?_, rfl⟩
      rw [json_to_model_plain, hread q hq htype]
      rfl
  | hlist tag items ih =>
    cases h with
    | list hitems =>
    obtain ⟨nodes, hnodes, hread⟩ := items_round_trip fun m hm => ih m hm (hitems m hm)
    refine ⟨.array nodes, by rw [model_to_json_inner, hnodes]; rfl, nofun, fun t ht hshape => ?_⟩
    rw [Model.shape, Model.shape, Model.tree_list] at hshape
    cases ht with
    | null => cases hshape
    | void hvoid => cases hshape
    | plain hplain => cases hshape
    | object => cases hshape
    | @list tag' ts hts =>
      rw [Model.tree_list] at hshape
      obtain ⟨ts', hts', hdata⟩ := hread ts hts (ModelTree.list.inj hshape)
      refine ⟨.list tag' ts', ?_, ?_⟩
      · rw [json_to_model_list, json_to_list, hts']
        rfl
      · rw [Model.data, Model.data, Model.tree_list, Model.tree_list]
        exact congrArg ModelTree.list hdata
  | hobject tag clazz plains lists objects ihlists ihobjects =>
    cases h with
    | object hschema hnames hdetected hdefaults_detected hdefaults hplains hlists hpointers hobjects =>
    exact object_round_trip hnames hplains
      (fun kms hkms m hm => ihlists kms hkms m hm (hlists kms hkms m hm))
      fun km hkm => ihobjects km hkm (hobjects km hkm)

theorem json_to_list_nil (json : Json) : json_to_list json [] = .ok [] := by
  cases json with
  | array nodes => cases nodes <;> rfl
  | null => rfl
  | bool b => rfl
  | int v => rfl
  | uint v => rfl
  | real v => rfl
  | str s => rfl
  | object members => rfl

/-- Members of a fresh instance are left as they are. -/
theorem membersRead_fresh {V W : Type} {read : Json → W → Run W} {w : W}
    (hread : ∀ json, read json w = .ok w) (members : List (Str × Json)) (kvs : List (Str × V)) :
    MembersRead read members ((kvs.map Prod.fst).map fun k => (k, w))
      ((kvs.map Prod.fst).map fun k => (k, w)) := by
  refine (pointwise_congr (S := fun _ v w => w = v) ?_).mpr ((pointwise_eq_iff ?_).mpr rfl)
  · intro kv hkv w'
    obtain ⟨k, -, rfl⟩ := List.mem_map.mp hkv
    rw [hread, Except.ok.injEq, eq_comm]
  · exact fun _ _ _ => Iff.rfl

end Rellaf.JsonToModel
