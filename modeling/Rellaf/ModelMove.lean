/-
The move assignment of a model class: `operator=(_clazz_&&)` and the `clear()` that it
calls.

The operator assigns the source to the destination and then calls `clear()` without
naming an object, so that the destination is the one that is cleared. What is left in it
are the plain members: `clear()` keeps them and takes the two other maps away.
-/
import Rellaf.ModelCopy

set_option autoImplicit false

open Rellaf.Cpp

namespace Rellaf.Models

open MemberMap

variable (to_string : PlainVal → Str)

namespace Model

mutual

/-- The virtual `clear()`. A plain and a `Void` keep what they have, a list loses its
items. An object clears what its object members point to before both maps are emptied. -/
def clear : Model → Run Model
  | null => .error .undefined
  | void tag => return void tag
  | plain p => return plain p
  | list tag _ => return list tag []
  | object tag clazz plains _ objects => do
    clear_objects objects
    return object tag clazz plains [] []

/-- `entry.second->clear()` for every object member. -/
def clear_objects : List (Str × Model) → Run Unit
  | [] => return ()
  | (_, m) :: objects => do
    let _ ← clear m
    clear_objects objects

end

/-- `dst = std::move(val)`: the destination and the source afterwards. -/
def move_assign (val dst : Model) : Run (Model × Model) := do
  let (dst, val) ← assign to_string val dst
  let dst ← clear dst
  return (dst, val)

/-- The assignment returns, and the destination is deep-equal to what the source was. -/
def MovedTo (r : Run (Model × Model)) (val : Model) : Prop :=
  ∃ dst src, r = .ok (dst, src) ∧ dst.contents = val.contents

/-! ## What `clear` leaves -/

theorem clear_object_eq_ok {tag : Str} {clazz : Clazz} {plains : List (Str × Plain)}
    {lists : List (Str × List Model)} {objects : List (Str × Model)} {m : Model}
    (h : clear (object tag clazz plains lists objects) = .ok m) :
    m = object tag clazz plains [] [] := by
  rw [clear] at h
  obtain ⟨-, -, h⟩ := run_bind_eq_ok.mp h
  cases h
  rfl

/-- The members of a source without lists, by name: `operator[]` adds them. -/
theorem assign_lists_nil (dsts vals : List (Str × List Model)) :
    ∃ dsts' vals', assign_lists [] dsts vals = .ok (dsts', vals') := by
  induction dsts generalizing vals with
  | nil => exact ⟨[], vals, rfl⟩
  | cons kms dsts ih =>
    obtain ⟨k, ms⟩ := kms
    obtain ⟨dsts', vals', hrest⟩ := ih (put vals k [])
    refine ⟨(k, []) :: dsts', vals', ?_⟩
    have hclone : (([] : List (Str × Run (List Model × List Model))).lookup k).getD
        (.ok ([], [])) = .ok ([], []) := rfl
    rw [assign_lists, hclone, run_ok_bind]
    simp only [hrest]
    rfl

section object

variable {val_tag tag : Str} {clazz : Clazz} {val_plains plains : List (Str × Plain)}
  {val_lists lists : List (Str × List Model)} {val_objects objects : List (Str × Model)}

/-- What a move assignment that returns has left in the destination. -/
theorem move_assign_eq_ok {d s : Model}
    (h : move_assign to_string (object val_tag clazz val_plains val_lists val_objects)
      (object tag clazz plains lists objects) = .ok (d, s)) :
    ∃ plains', assign_plains plains val_plains = .ok plains' ∧
      d = object val_tag clazz plains' [] [] ∧
      objects.map Prod.fst ⊆ val_objects.map Prod.fst := by
  unfold move_assign at h
  obtain ⟨⟨d', s'⟩, hassign, h⟩ := run_bind_eq_ok.mp h
  obtain ⟨plains', lists', objects', val_lists', val_objects', rfl, hplains, hobjects, -⟩ :=
    assign_object_eq_ok to_string hassign
  obtain ⟨d'', hclear, h⟩ := run_bind_eq_ok.mp h
  cases h
  refine ⟨plains', hplains, clear_object_eq_ok hclear, ?_⟩
  -- a name that the source does not have would have been called through a null pointer
  intro k hk
  obtain ⟨⟨k', dst⟩, hmem, rfl⟩ := List.mem_map.mp hk
  obtain ⟨dst', -, assigner, -, hlookup, -⟩ := (assign_objects_eq_ok hobjects).exists_mem hmem
  rw [lookup_assigners, Option.map_eq_some_iff] at hlookup
  obtain ⟨val, hval, -⟩ := hlookup
  exact mem_keys_iff_lookup.mpr (by rw [hval]; rfl)

/-- Plain members are moved. -/
theorem move_assign_plains
    (hval : (object val_tag clazz val_plains [] []).Proper Typed)
    (hdst : (object tag clazz plains lists []).Proper Typed) :
    MovedTo (move_assign to_string (object val_tag clazz val_plains [] [])
      (object tag clazz plains lists [])) (object val_tag clazz val_plains [] []) := by
  -- the destination that has no lists is one that the copy assignment takes
  have hdst' : (object tag clazz plains [] []).Proper Typed := by
    cases hdst with
    | object hschema hnames hdetected hdefaults_detected hdefaults hplains _ _ _ =>
    refine .object hschema ?_ hdetected hdefaults_detected hdefaults hplains
      (List.forall_mem_nil _) (List.forall_mem_nil _) (List.forall_mem_nil _)
    have hkeys := (nodup_member_names hnames).1
    simpa [member_names] using hkeys
  have hschema : schema plains = schema val_plains := by
    cases hval with
    | object hval_schema _ _ _ _ _ _ _ _ =>
    cases hdst with
    | object hdst_schema _ _ _ _ _ _ _ _ => exact hdst_schema.trans hval_schema.symm
  have hcopies := copies_assign_iff to_string hval trivial hdst' trivial
  obtain ⟨d, hassign, hcontents⟩ := hcopies.mpr
    (.object rfl hschema rfl rfl (List.forall_mem_nil _) fun _ _ _ h => absurd h List.not_mem_nil)
  obtain ⟨plains', lists', objects', -, -, rfl, hplains, -, -⟩ :=
    assign_object_eq_ok to_string hassign
  rw [contents_object, contents_object, ModelTree.object.injEq] at hcontents
  obtain ⟨-, hplains_eq, -, -⟩ := hcontents
  obtain ⟨lists'', val_lists'', hlists⟩ := assign_lists_nil lists []
  refine ⟨object val_tag clazz plains' [] [], object val_tag clazz val_plains val_lists'' [], ?_, ?_⟩
  · have hmoved : assign to_string (object val_tag clazz val_plains [] [])
        (object tag clazz plains lists []) =
        .ok (object val_tag clazz plains' lists'' [],
          object val_tag clazz val_plains val_lists'' []) := by
      rw [assign, hplains]
      simp only [run_ok_bind, assign_objects, clones, run_pure, hlists]
    rw [move_assign, hmoved]
    rfl
  · rw [contents_object, contents_object, hplains_eq]

end object

/-- **When move assignment moves.** The destination is deep-equal to the value of the
source exactly where the source has no list and neither of them an object member: every
other member is gone from the destination. -/
theorem move_assign_iff (clazz : Clazz) (val_tag tag : Str) (val_plains plains : List (Str × Plain))
    (val_lists lists : List (Str × List Model)) (val_objects objects : List (Str × Model))
    (hval : (object val_tag clazz val_plains val_lists val_objects).Proper Typed)
    (hdst : (object tag clazz plains lists objects).Proper Typed) :
    MovedTo (move_assign to_string (object val_tag clazz val_plains val_lists val_objects)
        (object tag clazz plains lists objects))
        (object val_tag clazz val_plains val_lists val_objects) ↔
      val_lists = [] ∧ val_objects = [] ∧ objects = [] := by
  constructor
  · rintro ⟨d, s, hmove, hcontents⟩
    obtain ⟨plains', -, rfl, hsub⟩ := move_assign_eq_ok to_string hmove
    rw [contents_object, contents_object, ModelTree.object.injEq] at hcontents
    obtain ⟨-, -, hlists, hobjects⟩ := hcontents
    obtain rfl : val_lists = [] := List.map_eq_nil_iff.mp hlists.symm
    obtain rfl : val_objects = [] := List.map_eq_nil_iff.mp hobjects.symm
    refine ⟨rfl, rfl, ?_⟩
    apply List.map_eq_nil_iff.mp
    exact List.subset_nil.mp hsub
  · rintro ⟨rfl, rfl, rfl⟩
    exact move_assign_plains to_string hval hdst

/-- Two instances of a class with one plain member. -/
theorem move_assign_iff_plain :
    MovedTo (move_assign (fun _ => [])
        (object [] ⟨lit "Point", [(lit "x", ⟨[], .BOOL, .BOOL false, none, none⟩)]⟩
          [(lit "x", ⟨[], .BOOL, .BOOL true, none, none⟩)] [] [])
        (object [] ⟨lit "Point", [(lit "x", ⟨[], .BOOL, .BOOL false, none, none⟩)]⟩
          [(lit "x", ⟨[], .BOOL, .BOOL false, none, none⟩)] [] []))
        (object [] ⟨lit "Point", [(lit "x", ⟨[], .BOOL, .BOOL false, none, none⟩)]⟩
          [(lit "x", ⟨[], .BOOL, .BOOL true, none, none⟩)] [] []) ↔
      ([] : List (Str × List Model)) = [] ∧ ([] : List (Str × Model)) = [] ∧
        ([] : List (Str × Model)) = [] := by
  have hproper : ∀ v : Bool, (object [] ⟨lit "Point", [(lit "x", ⟨[], .BOOL, .BOOL false, none, none⟩)]⟩
      [(lit "x", ⟨[], .BOOL, .BOOL v, none, none⟩)] [] []).Proper Typed := by
    intro v
    have hnodup : [lit "x"].Nodup := List.nodup_singleton _
    refine .object rfl hnodup ?_ ?_ ?_ ?_ (List.forall_mem_nil _) (List.forall_mem_nil _)
      (List.forall_mem_nil _)
    all_goals
      intro kp hkp
      obtain rfl := List.mem_singleton.mp hkp
    · rfl
    · rfl
    · exact .inl rfl
    · exact .inl rfl
  exact move_assign_iff (fun _ => []) _ [] [] _ _ [] [] [] [] (hproper true) (hproper false)

/-- A class with one list: the list of the source is copied and then cleared. -/
theorem move_assign_list :
    ¬ ∀ (to_string : PlainVal → Str) (clazz : Clazz) (val_tag tag : Str)
      (val_plains plains : List (Str × Plain)) (val_lists lists : List (Str × List Model))
      (val_objects objects : List (Str × Model)),
      (object val_tag clazz val_plains val_lists val_objects).Proper Typed →
      (object tag clazz plains lists objects).Proper Typed →
      lists.map Prod.fst = val_lists.map Prod.fst →
      objects.map Prod.fst = val_objects.map Prod.fst →
      (∀ km ∈ val_objects, km.2 ≠ null) → (∀ km ∈ objects, km.2 ≠ null) →
        MovedTo (move_assign to_string (object val_tag clazz val_plains val_lists val_objects)
          (object tag clazz plains lists objects))
          (object val_tag clazz val_plains val_lists val_objects) := by
  intro hall
  have hproper : ∀ items : List Model, (∀ m ∈ items, m.Proper Typed) →
      (object [] ⟨lit "Box", []⟩ [] [(lit "items", items)] []).Proper Typed := by
    intro items hitems
    have hnodup : [lit "items"].Nodup := List.nodup_singleton _
    refine .object rfl hnodup (List.forall_mem_nil _) (List.forall_mem_nil _)
      (List.forall_mem_nil _) (List.forall_mem_nil _) ?_ (List.forall_mem_nil _)
      (List.forall_mem_nil _)
    intro kms hkms
    obtain rfl := List.mem_singleton.mp hkms
    exact hitems
  have hmoved := hall (fun _ => []) ⟨lit "Box", []⟩ [] [] [] []
    [(lit "items", [void []])] [(lit "items", [])] [] []
    (hproper [void []] fun m hm => by rw [List.mem_singleton.mp hm]; exact .void trivial)
    (hproper [] (List.forall_mem_nil _)) rfl rfl (List.forall_mem_nil _) (List.forall_mem_nil _)
  obtain ⟨d, s, hmove, hcontents⟩ := hmoved
  obtain ⟨plains', -, rfl, -⟩ := move_assign_eq_ok _ hmove
  rw [contents_object, contents_object, ModelTree.object.injEq] at hcontents
  cases hcontents.2.2.1

end Model

end Rellaf.Models
