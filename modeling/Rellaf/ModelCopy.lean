/-
Copies of models: `assign`, `clone`, and the copy constructor and the copy assignment
of an object.

`assign` walks the members of the destination and looks for the source's member of
the same name. It calls a member function through every object pointer it finds in
the destination and hands over the source's pointer unread, so it takes objects that
are set on both sides (`Assignable`). A copy starts from a fresh instance, whose
object members are null, so what can be copied are objects without object members
(`Copyable`).
-/
import Rellaf.Lib.MemberMap
import Rellaf.ModelTree

set_option autoImplicit false

open Rellaf.Cpp

namespace Rellaf.Models

open MemberMap

/-- The `_val` of a new `Plain<T>`, `T` being the type of the value. A number has no
determined value in C++, and no statement here depends on it. -/
def PlainVal.initial : PlainVal → PlainVal
  | CHAR _ => CHAR 0
  | INT16 _ => INT16 0
  | INT _ => INT 0
  | INT64 _ => INT64 0
  | UINT16 _ => UINT16 0
  | UINT32 _ => UINT32 0
  | UINT64 _ => UINT64 0
  | BOOL _ => BOOL false
  | FLOAT _ => FLOAT 0
  | DOUBLE _ => DOUBLE 0
  | STR _ => STR []

-- what the function writes that `TypeDetect` installs for the type of a value
variable (to_string : PlainVal → Str)

/-- `Plain<T>::create()` -/
def Plain.create (p : Plain) : Plain := ⟨[], p.val.kind, p.val.initial, none, some to_string⟩

/-- `dst.assign(&val)` of a `Plain<T>`. The types are compared, and then `val` is taken
for a `Plain<T>`. -/
def Plain.assign (dst val : Plain) : Run Plain :=
  if dst.type ≠ val.type then .ok dst
  else if dst.val.kind = val.val.kind then
    .ok { dst with val := val.val, parse_func := val.parse_func, str_func := val.str_func }
  else .error .undefined

/-- Types are compared, so a plain of another type stays. -/
theorem Plain.assign_type {dst val dst' : Plain} (h : dst.assign val = .ok dst') :
    dst'.type = dst.type := by
  rw [Plain.assign] at h
  split at h
  · cases h
    rfl
  · split at h
    · cases h
      rfl
    · cases h

theorem Plain.assign_ok {dst val : Plain} (htype : dst.type = val.type)
    (hkind : dst.val.kind = val.val.kind) :
    ∃ dst', dst.assign val = .ok dst' ∧ (dst'.type, dst'.val) = (val.type, val.val) := by
  rw [Plain.assign, if_neg (not_not.mpr htype), if_pos hkind]
  exact ⟨_, rfl, congrArg (·, val.val) htype⟩

namespace Model

/-! ## The loops of `assign` over the members -/

/-- `entry.second->assign(ptr->_plains[entry.first])`; a name that `ptr` does not have
gives a null pointer, whose type is read. -/
def assign_plains : List (Str × Plain) → List (Str × Plain) → Run (List (Str × Plain))
  | [], _ => return []
  | (k, dst) :: dsts, vals => do
    match vals.lookup k with
    | none => .error .undefined
    | some val =>
      let dst ← dst.assign val
      return (k, dst) :: (← assign_plains dsts vals)

/-- The loop over `_objects`. `assigners` has, for every object member of the source,
what `dst->assign(val)` does with it: the destination and the source afterwards. -/
def assign_objects (assigners : List (Str × (Model → Run (Model × Model)))) :
    List (Str × Model) → List (Str × Model) → Run (List (Str × Model) × List (Str × Model))
  | [], vals => return ([], vals)
  | (k, dst) :: dsts, vals => do
    match assigners.lookup k with
    | none => .error .undefined
    | some assigner =>
      let (dst, val) ← assigner dst
      let (dsts, vals) ← assign_objects assigners dsts (put vals k val)
      return ((k, dst) :: dsts, vals)

/-- The loop over `_lists`. `clones` has, for every list member of the source, its
cloned items and its items afterwards; `operator[]` adds an empty list under a name
that the source does not have. -/
def assign_lists (clones : List (Str × Run (List Model × List Model))) :
    List (Str × List Model) → List (Str × List Model) →
      Run (List (Str × List Model) × List (Str × List Model))
  | [], vals => return ([], vals)
  | (k, _) :: dsts, vals => do
    let (items, val_items) ← (clones.lookup k).getD (.ok ([], []))
    let (dsts, vals) ← assign_lists clones dsts (put vals k val_items)
    return ((k, items) :: dsts, vals)

/-! ## `assign` and `clone` -/

/-- The virtual `clone()`: a new model of the same class, to which this one is
assigned; the new model, and this one afterwards. `assign_to` is the call of `assign`
with this one as the source. -/
def clone_by (m : Model) (assign_to : Model → Run (Model × Model)) : Run (Model × Model) :=
  match m with
  | null => .error .undefined
  | void tag => .ok (void [], void tag)
  | plain p => assign_to (plain (p.create to_string))
  | list _ _ => assign_to (list [] [])
  | object _ clazz _ lists objects =>
    assign_to (construct clazz (lists.map Prod.fst) (objects.map Prod.fst))

mutual

/-- The virtual `dst->assign(val)`: the destination and the source afterwards. -/
def assign : (val dst : Model) → Run (Model × Model)
  | val, void tag => return (void tag, val)
  | _, null | null, _ => .error .undefined
  | plain val, plain dst => do return (plain (← dst.assign val), plain val)
  | void tag, plain dst =>
    -- without a type of its own, `dst` takes what it gets for a `Plain`
    if dst.type = .no then .error .undefined else .ok (plain dst, void tag)
  | list val_tag items, list tag _ => do
    let (clones, items) ← clone_items items
    return (list tag clones, list val_tag items)
  | object val_tag val_clazz val_plains val_lists val_objects,
      object _ clazz plains lists objects => do
    let plains ← assign_plains plains val_plains
    let (objects, val_objects) ← assign_objects (assigners val_objects) objects val_objects
    let (lists, val_lists) ← assign_lists (clones val_lists) lists val_lists
    return (object val_tag clazz plains lists objects,
      object val_tag val_clazz val_plains val_lists val_objects)
  -- the types differ
  | val, dst => return (dst, val)

/-- `entry->clone()` for every item. -/
def clone_items : List Model → Run (List Model × List Model)
  | [] => return ([], [])
  | m :: ms => do
    let (c, m) ← clone_by to_string m (assign m)
    let (cs, ms) ← clone_items ms
    return (c :: cs, m :: ms)

def clones : List (Str × List Model) → List (Str × Run (List Model × List Model))
  | [] => []
  | (k, items) :: lists => (k, clone_items items) :: clones lists

def assigners : List (Str × Model) → List (Str × (Model → Run (Model × Model)))
  | [] => []
  | (k, m) :: objects => (k, assign m) :: assigners objects

end

def clone (m : Model) : Run (Model × Model) := clone_by to_string m (assign to_string m)

/-- The copy constructor of a class, from an instance of it. -/
def copy_construct (o : Model) : Run (Model × Model) :=
  match o with
  | object _ clazz _ lists objects =>
    assign to_string o (construct clazz (lists.map Prod.fst) (objects.map Prod.fst))
  | _ => .error .undefined

/-! ## What is copied -/

/-- The types and values. -/
def contents (m : Model) : ModelTree (ModelType × PlainVal) := m.tree fun p => (p.type, p.val)

/-- The call returns, the result is deep-equal to the source, and the source is what it
was. -/
def Copies (r : Run (Model × Model)) (m : Model) : Prop :=
  ∃ m', r = .ok (m', m) ∧ m'.contents = m.contents

/-- No object in the tree has an object member, no list holds a null, and no plain is
without its type. -/
inductive Copyable : Model → Prop where
  | void (tag : Str) : Copyable (void tag)
  | plain {p : Plain} (htype : p.type = p.val.kind) : Copyable (plain p)
  | list {tag : Str} {items : List Model} (hitems : ∀ m ∈ items, Copyable m) :
    Copyable (list tag items)
  | object {tag : Str} {clazz : Clazz} {plains : List (Str × Plain)}
      {lists : List (Str × List Model)} (hlists : ∀ kms ∈ lists, ∀ m ∈ kms.2, Copyable m) :
    Copyable (object tag clazz plains lists [])

/-- Two instances of one class, every object member set on both sides, here and below,
and the source's lists holding what can be cloned. -/
inductive Assignable : (val dst : Model) → Prop where
  | object {val_tag tag : Str} {val_clazz clazz : Clazz} {val_plains plains : List (Str × Plain)}
      {val_lists lists : List (Str × List Model)} {val_objects objects : List (Str × Model)}
      (hname : clazz.name = val_clazz.name) (hschema : schema plains = schema val_plains)
      (hlist_names : lists.map Prod.fst = val_lists.map Prod.fst)
      (hobject_names : objects.map Prod.fst = val_objects.map Prod.fst)
      (hlists : ∀ kms ∈ val_lists, ∀ m ∈ kms.2, Copyable m)
      (hobjects : ∀ k val dst, (k, val) ∈ val_objects → (k, dst) ∈ objects →
        Assignable val dst) :
    Assignable (object val_tag val_clazz val_plains val_lists val_objects)
      (object tag clazz plains lists objects)

/-! ## The loops -/

theorem assign_plains_schema {dsts vals dsts' : List (Str × Plain)}
    (h : assign_plains dsts vals = .ok dsts') : schema dsts' = schema dsts := by
  induction dsts generalizing dsts' with
  | nil =>
    cases h
    rfl
  | cons kp dsts ih =>
    obtain ⟨k, dst⟩ := kp
    rw [assign_plains] at h
    cases hlookup : vals.lookup k with
    | none =>
      rw [hlookup] at h
      cases h
    | some val =>
      rw [hlookup] at h
      obtain ⟨dst', hassign, h⟩ := run_bind_eq_ok.mp h
      obtain ⟨dsts'', hrest, h⟩ := run_bind_eq_ok.mp h
      cases h
      -- only the value is assigned
      have hschema := ih hrest
      simp only [schema, List.map_cons] at hschema ⊢
      rw [hschema, Plain.assign_type hassign]

/-- The plain members of two instances of one class. -/
theorem assign_plains_ok {vals vals' dsts : List (Str × Plain)}
    (hsame : Pointwise (fun _ (val : Plain) dst => dst.type = val.type ∧ dst.val.kind = val.val.kind)
      vals' dsts)
    (hlookup : ∀ kp ∈ vals', vals.lookup kp.1 = some kp.2) :
    ∃ dsts', assign_plains dsts vals = .ok dsts' ∧
      Pointwise (fun _ (val : Plain) dst => (dst.type, dst.val) = (val.type, val.val)) vals' dsts' := by
  induction hsame with
  | nil => exact ⟨[], rfl, .nil⟩
  | @cons kv kd vals' dsts hhead _ ih =>
    obtain ⟨k, dst⟩ := kd
    obtain ⟨hk, htype, hkind⟩ := hhead
    obtain rfl : k = kv.1 := hk
    obtain ⟨dsts', hrest, hpoint⟩ := ih fun kp hkp => hlookup kp (List.mem_cons_of_mem _ hkp)
    obtain ⟨dst', hassign, hdata⟩ := Plain.assign_ok htype hkind
    refine ⟨(kv.1, dst') :: dsts', ?_, .cons ⟨rfl, hdata⟩ hpoint⟩
    rw [assign_plains, hlookup kv List.mem_cons_self]
    simp only [hassign, run_ok_bind, hrest]
    rfl

theorem lookup_clones (lists : List (Str × List Model)) (k : Str) :
    (clones to_string lists).lookup k = (lists.lookup k).map (clone_items to_string) := by
  induction lists with
  | nil => rfl
  | cons kms lists ih =>
    obtain ⟨k', ms⟩ := kms
    rw [clones, List.lookup_cons, List.lookup_cons, ih]
    cases k == k' <;> rfl

theorem lookup_assigners (objects : List (Str × Model)) (k : Str) :
    (assigners to_string objects).lookup k = (objects.lookup k).map (assign to_string) := by
  induction objects with
  | nil => rfl
  | cons km objects ih =>
    obtain ⟨k', m⟩ := km
    rw [assigners, List.lookup_cons, List.lookup_cons, ih]
    cases k == k' <;> rfl

/-- A list of the destination gets the clones of the source's list of its name. -/
theorem assign_lists_eq_ok {clones : List (Str × Run (List Model × List Model))}
    {dsts vals dsts' vals' : List (Str × List Model)}
    (h : assign_lists clones dsts vals = .ok (dsts', vals')) :
    Pointwise (fun k _ items => ∃ val_items,
      (clones.lookup k).getD (.ok ([], [])) = .ok (items, val_items)) dsts dsts' := by
  induction dsts generalizing vals dsts' with
  | nil =>
    cases h
    exact .nil
  | cons kms dsts ih =>
    obtain ⟨k, ms⟩ := kms
    obtain ⟨⟨items, val_items⟩, hclone, h⟩ := run_bind_eq_ok.mp h
    obtain ⟨⟨dsts'', vals''⟩, hrest, h⟩ := run_bind_eq_ok.mp h
    cases h
    exact .cons ⟨rfl, val_items, hclone⟩ (ih hrest)

/-- Where every list of the source can be cloned, the source stays as it is. -/
theorem assign_lists_ok {clones : List (Str × Run (List Model × List Model))}
    {vals vals' dsts : List (Str × List Model)} {R : Str → List Model → List Model → Prop}
    (hnames : dsts.map Prod.fst = vals'.map Prod.fst)
    (hlookup : ∀ kms ∈ vals', vals.lookup kms.1 = some kms.2)
    (hclone : ∀ kms ∈ vals', ∃ items, clones.lookup kms.1 = some (.ok (items, kms.2)) ∧
      R kms.1 kms.2 items) :
    ∃ dsts', assign_lists clones dsts vals = .ok (dsts', vals) ∧ Pointwise R vals' dsts' := by
  induction vals' generalizing dsts with
  | nil =>
    obtain rfl : dsts = [] := by simpa using hnames
    exact ⟨[], rfl, .nil⟩
  | cons kms vals' ih =>
    cases dsts with
    | nil => cases hnames
    | cons kd dsts =>
      obtain ⟨k, items₀⟩ := kd
      obtain ⟨hk, hnames'⟩ := List.cons.inj hnames
      obtain rfl : k = kms.1 := hk
      obtain ⟨items, hitems, hR⟩ := hclone kms List.mem_cons_self
      obtain ⟨dsts', hrest, hpoint⟩ := ih hnames'
        (fun kms' h => hlookup kms' (List.mem_cons_of_mem kms h))
        fun kms' h => hclone kms' (List.mem_cons_of_mem kms h)
      refine ⟨(kms.1, items) :: dsts', ?_, .cons ⟨rfl, hR⟩ hpoint⟩
      rw [assign_lists, hitems, Option.getD_some, run_ok_bind]
      -- the source is put back as it was
      simp only [put_of_lookup (hlookup kms List.mem_cons_self), hrest]
      rfl

theorem assign_objects_eq_ok {assigners : List (Str × (Model → Run (Model × Model)))}
    {dsts vals dsts' vals' : List (Str × Model)}
    (h : assign_objects assigners dsts vals = .ok (dsts', vals')) :
    Pointwise (fun k dst dst' => ∃ assigner val', assigners.lookup k = some assigner ∧
      assigner dst = .ok (dst', val')) dsts dsts' := by
  induction dsts generalizing vals dsts' with
  | nil =>
    cases h
    exact .nil
  | cons km dsts ih =>
    obtain ⟨k, dst⟩ := km
    rw [assign_objects] at h
    cases hlookup : assigners.lookup k with
    | none =>
      rw [hlookup] at h
      cases h
    | some assigner =>
      rw [hlookup] at h
      obtain ⟨⟨dst', val'⟩, hassign, h⟩ := run_bind_eq_ok.mp h
      obtain ⟨⟨dsts'', vals''⟩, hrest, h⟩ := run_bind_eq_ok.mp h
      cases h
      exact .cons ⟨rfl, assigner, val', hlookup, hassign⟩ (ih hrest)

theorem assign_objects_ok {assigners : List (Str × (Model → Run (Model × Model)))}
    {vals vals' dsts : List (Str × Model)} {R : Str → Model → Model → Prop}
    (hnames : dsts.map Prod.fst = vals'.map Prod.fst)
    (hlookup : ∀ km ∈ vals', vals.lookup km.1 = some km.2)
    (hassign : ∀ k val dst, (k, val) ∈ vals' → (k, dst) ∈ dsts →
      ∃ assigner dst', assigners.lookup k = some assigner ∧ assigner dst = .ok (dst', val) ∧
        R k val dst') :
    ∃ dsts', assign_objects assigners dsts vals = .ok (dsts', vals) ∧ Pointwise R vals' dsts' := by
  induction vals' generalizing dsts with
  | nil =>
    obtain rfl : dsts = [] := by simpa using hnames
    exact ⟨[], rfl, .nil⟩
  | cons km vals' ih =>
    cases dsts with
    | nil => cases hnames
    | cons kd dsts =>
      obtain ⟨k, dst⟩ := kd
      obtain ⟨hk, hnames'⟩ := List.cons.inj hnames
      obtain rfl : k = km.1 := hk
      obtain ⟨assigner, dst', hassigner, hdst', hR⟩ :=
        hassign km.1 km.2 dst List.mem_cons_self List.mem_cons_self
      obtain ⟨dsts', hrest, hpoint⟩ := ih hnames'
        (fun km' h => hlookup km' (List.mem_cons_of_mem km h))
        fun k' val dst hval hdst =>
          hassign k' val dst (List.mem_cons_of_mem _ hval) (List.mem_cons_of_mem _ hdst)
      refine ⟨(km.1, dst') :: dsts', ?_, .cons ⟨rfl, hR⟩ hpoint⟩
      rw [assign_objects, hassigner]
      -- the source is put back as it was
      simp only [hdst', run_ok_bind, put_of_lookup (hlookup km List.mem_cons_self), hrest]
      rfl

/-! ## Objects -/

theorem contents_object (tag : Str) (clazz : Clazz) (plains : List (Str × Plain))
    (lists : List (Str × List Model)) (objects : List (Str × Model)) :
    (object tag clazz plains lists objects).contents =
      .object clazz.name (plains.map fun kp => (kp.1, (kp.2.type, kp.2.val)))
        (lists.map fun kms => (kms.1, kms.2.map contents))
        (objects.map fun km => (km.1, km.2.contents)) := by
  rw [contents, tree_object]
  rfl

theorem contents_list (tag : Str) (items : List Model) :
    (list tag items).contents = .list (items.map contents) := by
  rw [contents, tree_list]
  rfl

/-- What `clone` and `assign` do with a model, for the models in it. -/
def CloneOk (m : Model) : Prop :=
  (∀ c s, clone to_string m = .ok (c, s) → c.contents = m.contents → Copyable m) ∧
    (Copyable m → Copies (clone to_string m) m)

def AssignOk (val : Model) : Prop :=
  ∀ dst : Model, dst.Proper Typed → dst.is_object_pointer →
    (∀ d s, assign to_string val dst = .ok (d, s) → d.contents = val.contents →
      Assignable val dst) ∧
    (Assignable val dst → Copies (assign to_string val dst) val)

theorem copyable_of_clone_items {items : List Model}
    (h : ∀ m ∈ items, CloneOk to_string m) :
    ∀ {cs ss : List Model}, clone_items to_string items = .ok (cs, ss) →
      cs.map contents = items.map contents → ∀ m ∈ items, Copyable m := by
  induction items with
  | nil => exact fun _ _ => nofun
  | cons m items ih =>
    intro cs ss hclone hcontents
    rw [clone_items] at hclone
    obtain ⟨⟨c, s⟩, hm, hclone⟩ := run_bind_eq_ok.mp hclone
    obtain ⟨⟨cs', ss'⟩, hrest, hclone⟩ := run_bind_eq_ok.mp hclone
    cases hclone
    obtain ⟨hhead, htail⟩ := List.cons.inj hcontents
    refine List.forall_mem_cons.mpr ⟨(h m List.mem_cons_self).1 c s hm hhead, ?_⟩
    exact ih (fun m' hm' => h m' (List.mem_cons_of_mem m hm')) hrest htail

theorem clone_items_ok {items : List Model} (h : ∀ m ∈ items, Copies (clone to_string m) m) :
    ∃ cs, clone_items to_string items = .ok (cs, items) ∧
      cs.map contents = items.map contents := by
  induction items with
  | nil => exact ⟨[], rfl, rfl⟩
  | cons m items ih =>
    obtain ⟨c, hc, hcontents⟩ := h m List.mem_cons_self
    obtain ⟨cs, hcs, hcontents'⟩ := ih fun m' hm' => h m' (List.mem_cons_of_mem m hm')
    refine ⟨c :: cs, ?_, by rw [List.map_cons, List.map_cons, hcontents, hcontents']⟩
    rw [clone] at hc
    rw [clone_items, hc, run_ok_bind]
    simp only [hcs, run_ok_bind]
    rfl

section object

variable {val_tag tag : Str} {val_clazz clazz : Clazz} {val_plains plains : List (Str × Plain)}
  {val_lists lists : List (Str × List Model)} {val_objects objects : List (Str × Model)}

theorem assign_object_eq_ok {d s : Model}
    (h : assign to_string (object val_tag val_clazz val_plains val_lists val_objects)
      (object tag clazz plains lists objects) = .ok (d, s)) :
    ∃ plains' lists' objects' val_lists' val_objects',
      d = object val_tag clazz plains' lists' objects' ∧
      assign_plains plains val_plains = .ok plains' ∧
      assign_objects (assigners to_string val_objects) objects val_objects =
        .ok (objects', val_objects') ∧
      assign_lists (clones to_string val_lists) lists val_lists = .ok (lists', val_lists') := by
  rw [assign] at h
  obtain ⟨plains', hplains, h⟩ := run_bind_eq_ok.mp h
  obtain ⟨⟨objects', val_objects'⟩, hobjects, h⟩ := run_bind_eq_ok.mp h
  obtain ⟨⟨lists', val_lists'⟩, hlists, h⟩ := run_bind_eq_ok.mp h
  cases h
  exact ⟨plains', lists', objects', val_lists', val_objects', rfl, hplains, hobjects, hlists⟩

/-- A copy that is deep-equal shows that both sides were fit for it. -/
theorem assignable_of_assign
    (hval : (object val_tag val_clazz val_plains val_lists val_objects).Proper Typed)
    (hdst : (object tag clazz plains lists objects).Proper Typed)
    (hclones : ∀ kms ∈ val_lists, ∀ m ∈ kms.2, CloneOk to_string m)
    (hassigns : ∀ km ∈ val_objects, AssignOk to_string km.2) {d s : Model}
    (h : assign to_string (object val_tag val_clazz val_plains val_lists val_objects)
      (object tag clazz plains lists objects) = .ok (d, s))
    (hcontents :
      d.contents = (object val_tag val_clazz val_plains val_lists val_objects).contents) :
    Assignable (object val_tag val_clazz val_plains val_lists val_objects)
      (object tag clazz plains lists objects) := by
  obtain ⟨plains', lists', objects', val_lists', val_objects', rfl, hplains, hobjects, hlists⟩ :=
    assign_object_eq_ok to_string h
  rw [contents_object, contents_object, ModelTree.object.injEq] at hcontents
  obtain ⟨hname, hplains_eq, hlists_eq, hobjects_eq⟩ := hcontents
  cases hval with
  | object _ hval_names _ _ _ _ _ _ _ =>
  cases hdst with
  | object _ _ _ _ _ _ _ hpointers hproper =>
  obtain ⟨-, hval_lists_nodup, hval_objects_nodup, -, -⟩ := nodup_member_names hval_names
  have hlists_point := assign_lists_eq_ok hlists
  have hobjects_point := assign_objects_eq_ok hobjects
  have hlists_same := map_eq_iff_pointwise.mp hlists_eq
  have hobjects_same := map_eq_iff_pointwise.mp hobjects_eq
  refine .object hname ?_ ?_ ?_ ?_ ?_
  · have htypes := congrArg (List.map fun kp : Str × ModelType × PlainVal => (kp.1, kp.2.1)) hplains_eq
    simp only [List.map_map, Function.comp_def] at htypes
    exact (assign_plains_schema hplains).symm.trans htypes
  · exact hlists_point.keys.symm.trans hlists_same.keys
  · exact hobjects_point.keys.symm.trans hobjects_same.keys
  · -- the list of the result that has this name is the clones of this list
    intro kms hkms
    obtain ⟨items, hmem, hitems⟩ := hlists_same.exists_mem hkms
    obtain ⟨-, -, val_items, hclone⟩ := hlists_point.exists_mem_left hmem
    rw [lookup_clones, lookup_of_mem hval_lists_nodup hkms] at hclone
    exact copyable_of_clone_items to_string (hclones kms hkms) hclone hitems
  · -- and so for the object of the result that has the name of this one
    intro k val dst hval hdst
    obtain ⟨dst', hmem', assigner, val', hassigner, hassign⟩ := hobjects_point.exists_mem hdst
    obtain ⟨dst'', hmem'', hsame⟩ := hobjects_same.exists_mem hval
    have hobjects_nodup : (objects'.map Prod.fst).Nodup := by rwa [hobjects_same.keys]
    obtain rfl : dst' = dst'' := eq_of_mem_of_mem hobjects_nodup hmem' hmem''
    rw [lookup_assigners, lookup_of_mem hval_objects_nodup hval] at hassigner
    obtain rfl := Option.some.inj hassigner
    exact (hassigns (k, val) hval dst (hproper (k, dst) hdst) (hpointers (k, dst) hdst)).1
      dst' val' hassign hsame

/-- Two sides that are fit for it are copied. -/
theorem copies_of_assignable
    (hval : (object val_tag val_clazz val_plains val_lists val_objects).Proper Typed)
    (hdst : (object tag clazz plains lists objects).Proper Typed)
    (hclones : ∀ kms ∈ val_lists, ∀ m ∈ kms.2, CloneOk to_string m)
    (hassigns : ∀ km ∈ val_objects, AssignOk to_string km.2)
    (h : Assignable (object val_tag val_clazz val_plains val_lists val_objects)
      (object tag clazz plains lists objects)) :
    Copies (assign to_string (object val_tag val_clazz val_plains val_lists val_objects)
      (object tag clazz plains lists objects))
      (object val_tag val_clazz val_plains val_lists val_objects) := by
  cases h with
  | object hname hschema hlist_names hobject_names hlists hobjects =>
  cases hval with
  | object _ hval_names hval_detected _ _ _ _ _ _ =>
  cases hdst with
  | object _ _ hdetected _ _ _ _ hpointers hproper =>
  obtain ⟨hval_plains_nodup, hval_lists_nodup, hval_objects_nodup, -, -⟩ :=
    nodup_member_names hval_names
  have hsame : Pointwise
      (fun _ (val : Plain) dst => dst.type = val.type ∧ dst.val.kind = val.val.kind)
      val_plains plains := by
    obtain ⟨plains', hread, hpoint⟩ := (map_eq_iff_pointwise.mp hschema).exists_trans
      (R := fun _ (dst : Plain) dst' => dst' = dst)
      (S := fun _ (val : Plain) dst => dst.type = val.type ∧ dst.val.kind = val.val.kind)
      fun k val dst hval hdst htype => by
        refine ⟨dst, rfl, htype, ?_⟩
        rw [← hval_detected (k, val) hval, ← hdetected (k, dst) hdst, htype]
    obtain rfl : plains' = plains := (pointwise_eq_iff fun _ _ _ => Iff.rfl).mp hread
    exact hpoint
  obtain ⟨plains', hplains, hplains_data⟩ :=
    assign_plains_ok hsame fun kp hkp => lookup_of_mem hval_plains_nodup hkp
  obtain ⟨objects', hobjects', hobjects_data⟩ : ∃ objects',
      assign_objects (assigners to_string val_objects) objects val_objects =
        .ok (objects', val_objects) ∧
      Pointwise (fun _ val dst => dst.contents = val.contents) val_objects objects' := by
    refine assign_objects_ok hobject_names
      (fun km hkm => lookup_of_mem hval_objects_nodup hkm) fun k val dst hval hdst => ?_
    obtain ⟨dst', hassign, hcontents⟩ := (hassigns (k, val) hval dst (hproper (k, dst) hdst)
      (hpointers (k, dst) hdst)).2 (hobjects k val dst hval hdst)
    refine ⟨assign to_string val, dst', ?_, hassign, hcontents⟩
    rw [lookup_assigners, lookup_of_mem hval_objects_nodup hval]
    rfl
  obtain ⟨lists', hlists', hlists_data⟩ : ∃ lists',
      assign_lists (clones to_string val_lists) lists val_lists = .ok (lists', val_lists) ∧
      Pointwise (fun _ items clones => clones.map contents = items.map contents)
        val_lists lists' := by
    refine assign_lists_ok hlist_names
      (fun kms hkms => lookup_of_mem hval_lists_nodup hkms) fun kms hkms => ?_
    obtain ⟨cs, hclone, hcontents⟩ := clone_items_ok to_string fun m hm =>
      (hclones kms hkms m hm).2 (hlists kms hkms m hm)
    refine ⟨cs, ?_, hcontents⟩
    rw [lookup_clones, lookup_of_mem hval_lists_nodup hkms, Option.map_some, hclone]
  refine ⟨object val_tag clazz plains' lists' objects', ?_, ?_⟩
  · rw [assign, hplains]
    simp only [run_ok_bind, hobjects', hlists']
    rfl
  · rw [contents_object, contents_object, hname, map_eq_iff_pointwise.mpr hplains_data,
      map_eq_iff_pointwise.mpr hlists_data, map_eq_iff_pointwise.mpr hobjects_data]

/-- A fresh instance of the class. -/
theorem proper_construct (h : (object val_tag clazz plains lists objects).Proper Typed) :
    (construct clazz (lists.map Prod.fst) (objects.map Prod.fst)).Proper Typed := by
  cases h with
  | object hschema hnames hdetected hdefaults_detected hdefaults hplains hlists hpointers hobjects =>
  have hnames_eq : member_names clazz.plain_names
      ((lists.map Prod.fst).map fun k => (k, ([] : List Model)))
      ((objects.map Prod.fst).map fun k => (k, null)) = member_names plains lists objects := by
    simp [member_names, keys_of_schema_eq hschema, Function.comp_def]
  refine .object rfl (by rwa [hnames_eq]) hdefaults_detected hdefaults_detected hdefaults hdefaults
    ?_ ?_ ?_
  · intro kms hkms
    obtain ⟨k, -, rfl⟩ := List.mem_map.mp hkms
    exact nofun
  · intro km hkm
    obtain ⟨k, -, rfl⟩ := List.mem_map.mp hkm
    trivial
  · intro km hkm
    obtain ⟨k, -, rfl⟩ := List.mem_map.mp hkm
    exact .null

/-- A fresh instance takes an object without object members. -/
theorem assignable_construct_iff (h : (object tag clazz plains lists objects).Proper Typed) :
    Assignable (object tag clazz plains lists objects)
        (construct clazz (lists.map Prod.fst) (objects.map Prod.fst)) ↔
      Copyable (object tag clazz plains lists objects) := by
  cases h with
  | object hschema _ _ _ _ _ _ _ _ =>
  constructor
  · intro hassignable
    cases hassignable with
    | object _ _ _ _ hlists hobjects =>
    cases objects with
    | nil => exact .object hlists
    | cons km objects =>
      -- its place in the fresh instance is null
      obtain ⟨k, m⟩ := km
      have hnull := hobjects k m null List.mem_cons_self List.mem_cons_self
      cases hnull
  · intro hcopyable
    cases hcopyable with
    | object hlists =>
    refine .object rfl hschema.symm ?_ rfl hlists fun _ _ _ h => absurd h List.not_mem_nil
    simp [Function.comp_def]

/-- An object member is assigned to the null pointer that a fresh instance has for it. -/
theorem copy_construct_ne_ok (hobjects : objects ≠ []) (r : Model × Model) :
    copy_construct to_string (object tag clazz plains lists objects) ≠ .ok r := by
  intro h
  have hcopy : assign to_string (object tag clazz plains lists objects)
      (object [] clazz clazz.plain_names ((lists.map Prod.fst).map fun k => (k, []))
        ((objects.map Prod.fst).map fun k => (k, null))) = .ok r := h
  obtain ⟨plains', lists', objects', val_lists', val_objects', -, -, hassign, -⟩ :=
    assign_object_eq_ok to_string hcopy
  have hpoint := assign_objects_eq_ok hassign
  obtain ⟨km, objects, rfl⟩ := List.exists_cons_of_ne_nil hobjects
  have hmem : (km.1, null) ∈ ((km :: objects).map Prod.fst).map fun k => (k, null) :=
    List.mem_map.mpr ⟨km.1, List.mem_cons_self, rfl⟩
  obtain ⟨dst', -, assigner, val', hassigner, hdst'⟩ := hpoint.exists_mem hmem
  rw [lookup_assigners] at hassigner
  obtain ⟨m, -, rfl⟩ := Option.map_eq_some_iff.mp hassigner
  cases m <;> cases hdst'

end object

theorem assignOk_null : AssignOk to_string null := by
  intro dst _ hpointer
  constructor
  · intro d s h
    cases dst with
    | null => cases h
    | object => cases h
    | _ => exact hpointer.elim
  · exact fun h => nomatch h

theorem PlainVal.kind_initial (v : PlainVal) : v.initial.kind = v.kind := by
  cases v <;> rfl

/-- A new plain has the detected type, and takes the value of a plain of that type. -/
theorem cloneOk_plain (p : Plain) : CloneOk to_string (plain p) := by
  constructor
  · intro c s h hcontents
    obtain ⟨dst, hdst, h⟩ := run_bind_eq_ok.mp h
    cases h
    have hdata : (dst.type, dst.val) = (p.type, p.val) := ModelTree.plain.inj hcontents
    have htype : dst.type = p.val.kind := Plain.assign_type hdst
    rw [Prod.mk.injEq] at hdata
    exact .plain (hdata.1.symm.trans htype)
  · intro h
    cases h with
    | plain htype =>
    have hcreate : (p.create to_string).type = p.type := htype.symm
    obtain ⟨dst, hdst, hdata⟩ := Plain.assign_ok hcreate (PlainVal.kind_initial p.val)
    refine ⟨plain dst, ?_, congrArg ModelTree.plain hdata⟩
    have hclone : clone to_string (plain p) =
        assign to_string (plain p) (plain (p.create to_string)) := rfl
    rw [hclone, assign, hdst]
    rfl

theorem cloneOk_list {tag : Str} {items : List Model} (h : ∀ m ∈ items, CloneOk to_string m) :
    CloneOk to_string (list tag items) := by
  constructor
  · intro c s hclone hcontents
    obtain ⟨⟨cs, ss⟩, hitems, hclone⟩ := run_bind_eq_ok.mp hclone
    cases hclone
    rw [contents_list, contents_list] at hcontents
    exact .list (copyable_of_clone_items to_string h hitems (ModelTree.list.inj hcontents))
  · intro hcopyable
    cases hcopyable with
    | list hitems =>
    obtain ⟨cs, hcs, hcontents⟩ := clone_items_ok to_string fun m hm => (h m hm).2 (hitems m hm)
    refine ⟨list [] cs, ?_, ?_⟩
    · have hclone : clone to_string (list tag items) =
          assign to_string (list tag items) (list [] []) := rfl
      rw [hclone, assign, hcs]
      rfl
    · rw [contents_list, contents_list, hcontents]

theorem assignOk_object {tag : Str} {clazz : Clazz} {plains : List (Str × Plain)}
    {lists : List (Str × List Model)} {objects : List (Str × Model)}
    (h : (object tag clazz plains lists objects).Proper Typed)
    (hclones : ∀ kms ∈ lists, ∀ m ∈ kms.2, CloneOk to_string m)
    (hassigns : ∀ km ∈ objects, AssignOk to_string km.2) :
    AssignOk to_string (object tag clazz plains lists objects) := by
  intro dst hdst hpointer
  cases dst with
  | null => exact ⟨nofun, nofun⟩
  | object dst_tag dst_clazz dst_plains dst_lists dst_objects =>
    exact ⟨fun d s => assignable_of_assign to_string h hdst hclones hassigns,
      copies_of_assignable to_string h hdst hclones hassigns⟩
  | _ => exact hpointer.elim

/-- Every model in the tree is cloned and assigned under exactly these conditions. -/
theorem clone_assign_ok {m : Model} (h : m.Proper Typed) :
    CloneOk to_string m ∧ (m.is_object_pointer → AssignOk to_string m) := by
  induction m using Model.induct with
  | hnull => exact ⟨⟨nofun, nofun⟩, fun _ => assignOk_null to_string⟩
  | hvoid tag =>
    exact ⟨⟨fun _ _ _ _ => .void tag, fun _ => ⟨void [], rfl, rfl⟩⟩, fun h => h.elim⟩
  | hplain p => exact ⟨cloneOk_plain to_string p, fun h => h.elim⟩
  | hlist tag items ih =>
    cases h with
    | list hitems =>
    exact ⟨cloneOk_list to_string fun m hm => (ih m hm (hitems m hm)).1, fun h => h.elim⟩
  | hobject tag clazz plains lists objects ihlists ihobjects =>
    -- `clone` assigns to a fresh instance, which is one of the destinations of `hassign`
    have hassign : AssignOk to_string (object tag clazz plains lists objects) := by
      cases id h with
      | object _ _ _ _ _ _ hlists hpointers hobjects =>
      exact assignOk_object to_string h
        (fun kms hkms m hm => (ihlists kms hkms m hm (hlists kms hkms m hm)).1)
        fun km hkm => (ihobjects km hkm (hobjects km hkm)).2 (hpointers km hkm)
    obtain ⟨hfrom, hto⟩ := hassign _ (proper_construct h) trivial
    rw [assignable_construct_iff h] at hfrom hto
    exact ⟨⟨hfrom, hto⟩, fun _ => hassign⟩

/-! ## An object assigned to itself -/

mutual

/-- `a.assign(&a)`: each list is cleared, and then there are no items to clone. -/
def self_assign : Model → Run Model
  | null => .error .undefined
  | void tag => return void tag
  | plain p => do return plain (← p.assign p)
  | list tag _ => return list tag []
  | object tag clazz plains lists objects => do
    let plains ← assign_plains plains plains
    let objects ← self_assign_objects objects
    return object tag clazz plains (lists.map fun kms => (kms.1, [])) objects

def self_assign_objects : List (Str × Model) → Run (List (Str × Model))
  | [] => return []
  | (k, m) :: objects => do
    let m ← self_assign m
    return (k, m) :: (← self_assign_objects objects)

end

/-- No list has items, and every object member is set, here and below. -/
inductive SelfAssignable : Model → Prop where
  | object {tag : Str} {clazz : Clazz} {plains : List (Str × Plain)}
      {lists : List (Str × List Model)} {objects : List (Str × Model)}
      (hlists : ∀ kms ∈ lists, kms.2 = []) (hobjects : ∀ km ∈ objects, SelfAssignable km.2) :
    SelfAssignable (object tag clazz plains lists objects)

/-- The copy stays on its place, so nothing is said of a source. -/
def SelfCopies (m : Model) : Prop := ∃ m', self_assign m = .ok m' ∧ m'.contents = m.contents

theorem self_assign_objects_iff (objects : List (Str × Model)) :
    (∃ objects', self_assign_objects objects = .ok objects' ∧
      objects'.map (fun km => (km.1, km.2.contents)) =
        objects.map (fun km => (km.1, km.2.contents))) ↔
      ∀ km ∈ objects, SelfCopies km.2 := by
  induction objects with
  | nil => exact iff_of_true ⟨[], rfl, rfl⟩ nofun
  | cons km objects ih =>
    obtain ⟨k, m⟩ := km
    rw [List.forall_mem_cons, ← ih]
    constructor
    · rintro ⟨objects', h, hcontents⟩
      obtain ⟨m', hm, h⟩ := run_bind_eq_ok.mp h
      obtain ⟨objects'', hrest, h⟩ := run_bind_eq_ok.mp h
      cases h
      obtain ⟨hhead, htail⟩ := List.cons.inj hcontents
      exact ⟨⟨m', hm, congrArg Prod.snd hhead⟩, objects'', hrest, htail⟩
    · rintro ⟨⟨m', hm, hhead⟩, objects', hrest, htail⟩
      refine ⟨(k, m') :: objects', ?_, ?_⟩
      · have hm' : self_assign m = .ok m' := hm
        rw [self_assign_objects, hm', run_ok_bind, hrest]
        rfl
      · rw [List.map_cons, List.map_cons, htail, hhead]

theorem selfCopies_iff {m : Model} (h : m.Proper Typed) (hpointer : m.is_object_pointer) :
    SelfCopies m ↔ SelfAssignable m := by
  induction m using Model.induct with
  | hnull =>
    constructor
    · rintro ⟨m', hm, -⟩
      cases hm
    · exact nofun
  | hvoid tag => exact hpointer.elim
  | hplain p => exact hpointer.elim
  | hlist tag items => exact hpointer.elim
  | hobject tag clazz plains lists objects _ ih =>
    cases h with
    | object _ hnames _ _ _ _ _ hpointers hproper =>
    obtain ⟨hplains_nodup, -, -, -, -⟩ := nodup_member_names hnames
    have hsame : Pointwise
        (fun _ (val : Plain) dst => dst.type = val.type ∧ dst.val.kind = val.val.kind)
        plains plains := List.forall₂_same.mpr fun _ _ => ⟨rfl, rfl, rfl⟩
    obtain ⟨plains', hplains, hplains_data⟩ :=
      assign_plains_ok hsame fun kp hkp => lookup_of_mem hplains_nodup hkp
    -- the plains take their own values; what decides is in the lists and the objects
    have hread : self_assign (object tag clazz plains lists objects) = (do
        let objects ← self_assign_objects objects
        return object tag clazz plains' (lists.map fun kms => (kms.1, [])) objects) := by
      rw [self_assign, hplains, run_ok_bind]
    have hobjects := self_assign_objects_iff objects
    have hiff : (∀ km ∈ objects, SelfCopies km.2) ↔ ∀ km ∈ objects, SelfAssignable km.2 :=
      forall₂_congr fun km hkm => ih km hkm (hproper km hkm) (hpointers km hkm)
    rw [hiff] at hobjects
    constructor
    · rintro ⟨m', hm, hcontents⟩
      rw [hread] at hm
      obtain ⟨objects', hos, hm⟩ := run_bind_eq_ok.mp hm
      cases hm
      rw [contents_object, contents_object, ModelTree.object.injEq] at hcontents
      obtain ⟨-, -, hlists, hobjects_data⟩ := hcontents
      refine .object ?_ (hobjects.mp ⟨objects', hos, hobjects_data⟩)
      intro kms hkms
      rw [List.map_map, List.map_inj_left] at hlists
      exact List.map_eq_nil_iff.mp (congrArg Prod.snd (hlists kms hkms)).symm
    · intro hassignable
      cases hassignable with
      | object hlists hset =>
      obtain ⟨objects', hos, hobjects_data⟩ := hobjects.mpr hset
      refine ⟨_, by rw [hread, hos]; rfl, ?_⟩
      rw [contents_object, contents_object, map_eq_iff_pointwise.mpr hplains_data, hobjects_data,
        List.map_map]
      congr 1
      refine List.map_congr_left fun kms hkms => ?_
      rw [hlists kms hkms]
      rfl

/-! ## An object assigned to a part of itself -/

/-- An item, or what an object member points to. -/
inductive Held : Model → Model → Prop where
  | item {m : Model} {tag : Str} {items : List Model} (hm : m ∈ items) : Held m (list tag items)
  | list_item {m : Model} {tag : Str} {clazz : Clazz} {plains : List (Str × Plain)}
      {lists : List (Str × List Model)} {objects : List (Str × Model)} {kms : Str × List Model}
      (hkms : kms ∈ lists) (hm : m ∈ kms.2) : Held m (object tag clazz plains lists objects)
  | member {tag : Str} {clazz : Clazz} {plains : List (Str × Plain)}
      {lists : List (Str × List Model)} {objects : List (Str × Model)} {km : Str × Model}
      (hkm : km ∈ objects) : Held km.2 (object tag clazz plains lists objects)

/-- Somewhere below. -/
def Part (m whole : Model) : Prop := Relation.TransGen Held m whole

theorem Held.sizeOf_lt {m whole : Model} (h : Held m whole) :
    sizeOf m.contents < sizeOf whole.contents := by
  cases h with
  | item hm =>
    have hlt := List.sizeOf_lt_of_mem (List.mem_map_of_mem (f := contents) hm)
    rw [contents_list, ModelTree.list.sizeOf_spec]
    omega
  | @list_item _ tag clazz plains lists objects kms hkms hm =>
    have hlt := List.sizeOf_lt_of_mem (List.mem_map_of_mem (f := contents) hm)
    have hkms' : (kms.1, kms.2.map contents) ∈ lists.map fun kms => (kms.1, kms.2.map contents) :=
      List.mem_map.mpr ⟨kms, hkms, rfl⟩
    have hlt' := List.sizeOf_lt_of_mem hkms'
    rw [Prod.mk.sizeOf_spec] at hlt'
    rw [contents_object, ModelTree.object.sizeOf_spec]
    omega
  | @member tag clazz plains lists objects km hkm =>
    have hkm' : (km.1, km.2.contents) ∈ objects.map fun km => (km.1, km.2.contents) :=
      List.mem_map.mpr ⟨km, hkm, rfl⟩
    have hlt := List.sizeOf_lt_of_mem hkm'
    rw [Prod.mk.sizeOf_spec] at hlt
    rw [contents_object, ModelTree.object.sizeOf_spec]
    omega

/-- No model is deep-equal to a part of itself. -/
theorem Part.contents_ne {m whole : Model} (h : Part m whole) : m.contents ≠ whole.contents := by
  have hlt : sizeOf m.contents < sizeOf whole.contents := by
    induction h with
    | single hheld => exact hheld.sizeOf_lt
    | tail _ hheld ih => exact ih.trans hheld.sizeOf_lt
  exact fun heq => absurd (congrArg sizeOf heq) hlt.ne

/-! ## All copies of an object -/

theorem copies_clone_iff {m : Model} (h : m.Proper Typed) :
    Copies (clone to_string m) m ↔ Copyable m := by
  obtain ⟨⟨hfrom, hto⟩, -⟩ := clone_assign_ok to_string h
  constructor
  · rintro ⟨c, hc, hcontents⟩
    exact hfrom c m hc hcontents
  · exact hto

theorem copies_assign_iff {val dst : Model} (hval : val.Proper Typed)
    (hval_pointer : val.is_object_pointer) (hdst : dst.Proper Typed)
    (hdst_pointer : dst.is_object_pointer) :
    Copies (assign to_string val dst) val ↔ Assignable val dst := by
  obtain ⟨-, hassign⟩ := clone_assign_ok to_string hval
  obtain ⟨hfrom, hto⟩ := hassign hval_pointer dst hdst hdst_pointer
  constructor
  · rintro ⟨d, hd, hcontents⟩
    exact hfrom d _ hd hcontents
  · exact hto

/-- **When the copies of an object are made.** Copy construction and `clone()` take an
object without object members, whose lists hold what can be cloned; copy assignment
takes two separate objects with all object members set; assignment to itself takes one
with empty lists. Where the source is a part of the destination, or has it for a part,
nothing that an assignment could leave is a copy beside an unchanged source. -/
theorem copies_iff (tag : Str) (clazz : Clazz) (plains : List (Str × Plain))
    (lists : List (Str × List Model)) (objects : List (Str × Model))
    (h : (object tag clazz plains lists objects).Proper Typed) :
    (Copies (copy_construct to_string (object tag clazz plains lists objects))
        (object tag clazz plains lists objects) ↔
      Copyable (object tag clazz plains lists objects)) ∧
    (Copies (clone to_string (object tag clazz plains lists objects))
        (object tag clazz plains lists objects) ↔
      Copyable (object tag clazz plains lists objects)) ∧
    (∀ dst : Model, dst.Proper Typed → dst.is_object_pointer →
      (Copies (assign to_string (object tag clazz plains lists objects) dst)
          (object tag clazz plains lists objects) ↔
        Assignable (object tag clazz plains lists objects) dst)) ∧
    (SelfCopies (object tag clazz plains lists objects) ↔
      SelfAssignable (object tag clazz plains lists objects)) ∧
    ∀ dst val : Model, Part val dst ∨ Part dst val →
      ¬ (dst.contents = (object tag clazz plains lists objects).contents ∧
        val.contents = (object tag clazz plains lists objects).contents) := by
  refine ⟨copies_clone_iff to_string h, copies_clone_iff to_string h, ?_,
    selfCopies_iff h trivial, ?_⟩
  · exact fun dst hdst hpointer => copies_assign_iff to_string h trivial hdst hpointer
  · rintro dst val (hpart | hpart) ⟨hdst, hval⟩
    · exact hpart.contents_ne (hval.trans hdst.symm)
    · exact hpart.contents_ne (hdst.trans hval.symm)

/-- A user with a number, a list of one string and a home that is set: assignment to another
user with a home makes a copy, and nothing else does. -/
theorem copies_iff_user :
    let number (v : Int32) : Plain := ⟨[], .INT, .INT v, none, none⟩
    let text (v : Str) : Plain := ⟨[], .STR, .STR v, none, none⟩
    let home (v : Str) : Model :=
      object [] ⟨lit "Home", [(lit "street", text [])]⟩ [(lit "street", text v)] [] []
    let user (id : Int32) (tags : List Model) (street : Str) : Model :=
      object [] ⟨lit "User", [(lit "id", number 0)]⟩ [(lit "id", number id)]
        [(lit "tags", tags)] [(lit "home", home street)]
    let src := user 7 [plain (text (lit "new"))] (lit "North")
    let dst := user 8 [] (lit "South")
    ¬ Copies (copy_construct (fun _ => []) src) src ∧ ¬ Copies (clone (fun _ => []) src) src ∧
      Copies (assign (fun _ => []) src dst) src ∧ ¬ SelfCopies src ∧
      ∀ dst val : Model, Part val dst ∨ Part dst val →
        ¬ (dst.contents = src.contents ∧ val.contents = src.contents) := by
  intro number text home user src dst
  have hhome : ∀ street, (home street).Proper Typed := by
    intro street
    refine .object rfl (show List.Nodup [lit "street"] by decide) ?_ ?_ ?_ ?_
      (List.forall_mem_nil _) (List.forall_mem_nil _) (List.forall_mem_nil _)
    · exact List.forall_mem_singleton.mpr rfl
    · exact List.forall_mem_singleton.mpr rfl
    · exact List.forall_mem_singleton.mpr (.inl rfl)
    · exact List.forall_mem_singleton.mpr (.inl rfl)
  have huser : ∀ id tags street, (∀ m ∈ tags, m.Proper Typed) →
      (user id tags street).Proper Typed := by
    intro id tags street htags
    refine .object rfl (show List.Nodup [lit "id", lit "tags", lit "home"] by decide) ?_ ?_ ?_ ?_
      ?_ ?_ ?_
    · exact List.forall_mem_singleton.mpr rfl
    · exact List.forall_mem_singleton.mpr rfl
    · exact List.forall_mem_singleton.mpr (.inl rfl)
    · exact List.forall_mem_singleton.mpr (.inl rfl)
    · exact List.forall_mem_singleton.mpr htags
    · exact List.forall_mem_singleton.mpr trivial
    · exact List.forall_mem_singleton.mpr (hhome street)
  have htag : (plain (text (lit "new"))).Proper Typed := .plain (.inl rfl)
  have hsrc := huser 7 [plain (text (lit "new"))] (lit "North") (List.forall_mem_singleton.mpr htag)
  have hdst := huser 8 [] (lit "South") (List.forall_mem_nil _)
  obtain ⟨hconstruct, hclone, hassign, hself, hpart⟩ := copies_iff (fun _ => []) [] _ _ _ _ hsrc
  refine ⟨?_, ?_, ?_, ?_, hpart⟩
  · exact fun hcopies => nomatch hconstruct.mp hcopies
  · exact fun hcopies => nomatch hclone.mp hcopies
  · refine (hassign dst hdst trivial).mpr (.object rfl rfl rfl rfl ?_ ?_)
    · exact List.forall_mem_singleton.mpr (List.forall_mem_singleton.mpr (.plain rfl))
    · -- the homes of the two
      intro k val dst hval hdst
      obtain ⟨rfl, rfl⟩ := Prod.mk.inj (List.mem_singleton.mp hval)
      obtain ⟨-, rfl⟩ := Prod.mk.inj (List.mem_singleton.mp hdst)
      exact .object rfl rfl rfl rfl (List.forall_mem_nil _) fun _ _ _ h => absurd h List.not_mem_nil
  · intro hcopies
    cases hself.mp hcopies with
    | object hlists _ => cases hlists (lit "tags", _) List.mem_cons_self

/-- An object whose one object member is null: `assign` calls through the null pointer
of the fresh instance. -/
theorem clone_null_member :
    ¬ ∀ (to_string : PlainVal → Str) (tag : Str) (clazz : Clazz) (plains : List (Str × Plain))
      (lists : List (Str × List Model)) (objects : List (Str × Model)),
      (object tag clazz plains lists objects).Proper Typed →
        Copies (clone to_string (object tag clazz plains lists objects))
          (object tag clazz plains lists objects) := by
  intro hall
  have hproper : (object [] ⟨lit "Node", []⟩ [] [] [(lit "next", null)]).Proper Typed := by
    refine .object rfl (by decide) (List.forall_mem_nil _) (List.forall_mem_nil _)
      (List.forall_mem_nil _) (List.forall_mem_nil _) (List.forall_mem_nil _) ?_ ?_
    · simp [is_object_pointer]
    · simpa using Model.Proper.null
  obtain ⟨c, hc, -⟩ := hall (fun _ => []) [] ⟨lit "Node", []⟩ [] [] [(lit "next", null)] hproper
  cases hc

end Model

end Rellaf.Models
