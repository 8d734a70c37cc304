/-
Models as trees: what is left of a model when everything but its structure and one
thing about each plain is forgotten.

`Model.data` keeps the values, so two models are deep-equal when their data are
equal; `Model.shape` keeps the types, so it is the schema of a model together with
the lengths of its lists and the places of its null pointers. `Model.Proper` says that
the objects of a tree are instances of their classes.
-/
import Rellaf.Models

set_option autoImplicit false

open Rellaf.Cpp

namespace Rellaf.Models

/-- The type `TypeDetect` finds for the `T` of the value. -/
def PlainVal.kind : PlainVal → ModelType
  | CHAR _ => .CHAR
  | INT16 _ => .INT16
  | INT _ => .INT
  | INT64 _ => .INT64
  | UINT16 _ => .UINT16
  | UINT32 _ => .UINT32
  | UINT64 _ => .UINT64
  | BOOL _ => .BOOL
  | FLOAT _ => .FLOAT
  | DOUBLE _ => .DOUBLE
  | STR _ => .STR

/-- The structure of a model, with an `α` at each plain. -/
inductive ModelTree (α : Type) where
  | null
  | void
  | plain (a : α)
  | list (items : List (ModelTree α))
  | object (clazz : Str) (plains : List (Str × α)) (lists : List (Str × List (ModelTree α)))
      (objects : List (Str × ModelTree α))

namespace Model

section tree

variable {α : Type} (f : Plain → α)

mutual

def tree : Model → ModelTree α
  | null => .null
  | void _ => .void
  | plain p => .plain (f p)
  | list _ items => .list (trees items)
  | object _ clazz plains lists objects =>
    .object clazz.name (plains.map fun kp => (kp.1, f kp.2)) (tree_lists lists)
      (tree_objects objects)

def trees : List Model → List (ModelTree α)
  | [] => []
  | m :: ms => m.tree :: trees ms

def tree_lists : List (Str × List Model) → List (Str × List (ModelTree α))
  | [] => []
  | (k, ms) :: kmss => (k, trees ms) :: tree_lists kmss

def tree_objects : List (Str × Model) → List (Str × ModelTree α)
  | [] => []
  | (k, m) :: kms => (k, m.tree) :: tree_objects kms

end

theorem trees_eq (ms : List Model) : trees f ms = ms.map (tree f) := by
  induction ms with
  | nil => rfl
  | cons m ms ih => rw [trees, ih, List.map_cons]

theorem tree_lists_eq (kmss : List (Str × List Model)) :
    tree_lists f kmss = kmss.map fun kms => (kms.1, kms.2.map (tree f)) := by
  induction kmss with
  | nil => rfl
  | cons kms kmss ih =>
    obtain ⟨k, ms⟩ := kms
    rw [tree_lists, ih, trees_eq, List.map_cons]

theorem tree_objects_eq (kms : List (Str × Model)) :
    tree_objects f kms = kms.map fun km => (km.1, tree f km.2) := by
  induction kms with
  | nil => rfl
  | cons km kms ih =>
    obtain ⟨k, m⟩ := km
    rw [tree_objects, ih, List.map_cons]

theorem tree_list (tag : Str) (items : List Model) :
    tree f (list tag items) = .list (items.map (tree f)) := by
  rw [tree, trees_eq]

theorem tree_object (tag : Str) (clazz : Clazz) (plains : List (Str × Plain))
    (lists : List (Str × List Model)) (objects : List (Str × Model)) :
    tree f (object tag clazz plains lists objects) =
      .object clazz.name (plains.map fun kp => (kp.1, f kp.2))
        (lists.map fun kms => (kms.1, kms.2.map (tree f)))
        (objects.map fun km => (km.1, tree f km.2)) := by
  rw [tree, tree_lists_eq, tree_objects_eq]

end tree

/-- The values. -/
def data (m : Model) : ModelTree PlainVal := m.tree Plain.val

/-- The types. -/
def shape (m : Model) : ModelTree ModelType := m.tree Plain.type

/-- Induction over a model, its items and its members. -/
theorem induct {P : Model → Prop} (hnull : P null) (hvoid : ∀ tag, P (void tag))
    (hplain : ∀ p, P (plain p))
    (hlist : ∀ tag items, (∀ m ∈ items, P m) → P (list tag items))
    (hobject : ∀ tag clazz plains lists objects, (∀ kms ∈ lists, ∀ m ∈ kms.2, P m) →
      (∀ km ∈ objects, P km.2) → P (object tag clazz plains lists objects)) (m : Model) :
    P m := by
  refine @Model.rec P (fun ms => ∀ m ∈ ms, P m) (fun kmss => ∀ kms ∈ kmss, ∀ m ∈ kms.2, P m)
    (fun kms => ∀ km ∈ kms, P km.2) (fun kms => ∀ m ∈ kms.2, P m) (fun km => P km.2)
    hnull hvoid hplain hlist hobject nofun ?items nofun ?lists nofun ?objects ?member ?entry m
  case items => exact fun m ms hm hms => List.forall_mem_cons.mpr ⟨hm, hms⟩
  case lists => exact fun kms kmss hkms hkmss => List.forall_mem_cons.mpr ⟨hkms, hkmss⟩
  case objects => exact fun km kms hkm hkms => List.forall_mem_cons.mpr ⟨hkm, hkms⟩
  case member => exact fun k ms h => h
  case entry => exact fun k m h => h

/-! ## Instances of classes -/

/-- The names and types of plain members. -/
def schema (plains : List (Str × Plain)) : List (Str × ModelType) :=
  plains.map fun kp => (kp.1, kp.2.type)

/-- The names of all members. -/
def member_names (plains : List (Str × Plain)) (lists : List (Str × List Model))
    (objects : List (Str × Model)) : List Str :=
  plains.map Prod.fst ++ (lists.map Prod.fst ++ objects.map Prod.fst)

/-- A plain has the type that its constructor detects, or none. -/
def Typed : Model → Prop
  | plain p => p.type = p.val.kind ∨ p.type = .no
  | void _ => True
  | _ => False

/-- What an `Object*` can point to. -/
def is_object_pointer : Model → Prop
  | null | object _ _ _ _ _ => True
  | _ => False

/-- Every object has the plain members that its class declares, of the types their
constructors detect, each member has a name of its own, and the plains, those of the
classes included, satisfy `P`. -/
inductive Proper (P : Model → Prop) : Model → Prop where
  | null : Proper P null
  | void {tag : Str} (hvoid : P (void tag)) : Proper P (void tag)
  | plain {p : Plain} (hplain : P (plain p)) : Proper P (plain p)
  | list {tag : Str} {items : List Model} (hitems : ∀ m ∈ items, Proper P m) :
    Proper P (list tag items)
  | object {tag : Str} {clazz : Clazz} {plains : List (Str × Plain)}
      {lists : List (Str × List Model)} {objects : List (Str × Model)}
      (hschema : schema plains = schema clazz.plain_names)
      (hnames : (member_names plains lists objects).Nodup)
      (hdetected : ∀ kp ∈ plains, kp.2.type = kp.2.val.kind)
      (hdefaults_detected : ∀ kp ∈ clazz.plain_names, kp.2.type = kp.2.val.kind)
      (hdefaults : ∀ kp ∈ clazz.plain_names, P (plain kp.2))
      (hplains : ∀ kp ∈ plains, P (plain kp.2))
      (hlists : ∀ kms ∈ lists, ∀ m ∈ kms.2, Proper P m)
      (hpointers : ∀ km ∈ objects, km.2.is_object_pointer)
      (hobjects : ∀ km ∈ objects, Proper P km.2) :
    Proper P (object tag clazz plains lists objects)

/-- The default constructor of a class: its plain members with their defaults, the
lists empty, the objects null. -/
def construct (clazz : Clazz) (list_names object_names : List Str) : Model :=
  object [] clazz clazz.plain_names (list_names.map fun k => (k, []))
    (object_names.map fun k => (k, null))

theorem keys_of_schema_eq {plains plains' : List (Str × Plain)}
    (h : schema plains = schema plains') : plains.map Prod.fst = plains'.map Prod.fst := by
  have hkeys := congrArg (List.map Prod.fst) h
  simpa [schema, List.map_map, Function.comp_def] using hkeys

theorem nodup_member_names {plains : List (Str × Plain)} {lists : List (Str × List Model)}
    {objects : List (Str × Model)} (h : (member_names plains lists objects).Nodup) :
    (plains.map Prod.fst).Nodup ∧ (lists.map Prod.fst).Nodup ∧ (objects.map Prod.fst).Nodup ∧
      (∀ k ∈ plains.map Prod.fst, k ∉ lists.map Prod.fst ∧ k ∉ objects.map Prod.fst) ∧
      ∀ k ∈ lists.map Prod.fst, k ∉ objects.map Prod.fst := by
  obtain ⟨hplains, hrest, hdisjoint⟩ := List.nodup_append.mp h
  obtain ⟨hlists, hobjects, hdisjoint'⟩ := List.nodup_append.mp hrest
  refine ⟨hplains, hlists, hobjects, ?_, ?_⟩
  · intro k hk
    constructor
    · exact fun hk' => hdisjoint k hk k (List.mem_append_left _ hk') rfl
    · exact fun hk' => hdisjoint k hk k (List.mem_append_right _ hk') rfl
  · exact fun k hk hk' => hdisjoint' k hk k hk' rfl

end Model

end Rellaf.Models
