/-
Operations on a list whose argument is the list or an element of it.

The call is compared with the same call on a deep copy that the caller has made of the
argument. A push clones before it touches anything, so it does not matter what it is
given. `set` deletes the old model before it clones the new one, and an assignment
clears the list before it reads the other: both lose an argument that they delete.
-/
import Rellaf.ModelListCalls

set_option autoImplicit false

open Rellaf.Cpp

namespace Rellaf.Models

variable (to_string : PlainVal → Str)

/-- The operations that take a model. -/
inductive Op where
  | push_front
  | push_back
  /-- `push_front(const T&)` -/
  | push_front_ref
  /-- `push_back(const T&)` -/
  | push_back_ref
  | set (idx : Nat)
  | assign
  /-- `operator=(const List&)` -/
  | copy_assign
  /-- `operator=(List&&)` -/
  | move_assign
  deriving DecidableEq, Repr

namespace ModelList

/-- A call on a model that stands apart from the list. -/
def lifted {α : Type} (r : Run α) : Except Misuse α :=
  match r with
  | .ok a => .ok a
  | .error fault => .error (.fault fault)

/-! ## Assignments -/

/-- `val->rellaf_type()` -/
def type_of (x : ModelList) : Pointer → Except Misuse ModelType
  | .null => .error (.fault .undefined)
  | .outside m => lifted m.rellaf_type
  | .item a => do lifted (← x.read a).rellaf_type
  | .self => .ok .LIST

/-- The items of `ptr->_items`, `ptr` being cast to a `List*`. -/
def entries (x : ModelList) : Pointer → Except Misuse (List Pointer)
  | .null => .error (.fault .undefined)
  | .outside m => do return (← lifted m.items).map .outside
  | .item a => do return (← lifted (← x.read a).items).map .outside
  | .self => .ok (x.items.map .of_item)

/-- `_items.push_back(entry->clone())` for every entry. -/
def push_clones (x : ModelList) : List Pointer → Except Misuse ModelList
  | [] => return x
  | entry :: es => do
    let m ← x.clone to_string entry
    push_clones { x.alloc m with items := x.items ++ [some x.next] } es

def assign (x : ModelList) (val : Pointer) : Except Misuse ModelList := do
  if (← x.type_of val) ≠ .LIST then return x
  let x ← x.clear
  x.push_clones to_string (← x.entries val)

/-- `o.clear()` of another list, of a list in the list, or of the list itself. -/
def clear_at (x : ModelList) : Pointer → Except Misuse ModelList
  | .null => .error (.fault .undefined)
  | .outside m => do
    let _ ← lifted m.items
    return x
  | .item a => do
    match ← x.read a with
    | .list tag _ => return { x with heap := Function.update x.heap a (some (.list tag [])) }
    | _ => .error (.fault .undefined)
  | .self => x.clear

def move_assign (x : ModelList) (o : Pointer) : Except Misuse ModelList := do
  (← x.assign to_string o).clear_at o

def apply (x : ModelList) (op : Op) (model : Pointer) : Except Misuse ModelList :=
  match op with
  | .push_front => x.push_front to_string model
  | .push_back => x.push_back to_string model
  | .push_front_ref => x.push_front_ref to_string model
  | .push_back_ref => x.push_back_ref to_string model
  | .set idx => x.set to_string idx model
  | .assign | .copy_assign => x.assign to_string model
  | .move_assign => x.move_assign to_string model

/-! ## Arguments -/

/-- The list, or a pointer that `at` has returned. -/
def IsOwn (x : ModelList) (model : Pointer) : Prop :=
  model = .self ∨ ∃ j, model = .of_item (x.at_ j)

/-- What the caller has when it deep-copies the argument before the call. -/
def deep_copy (x : ModelList) : Pointer → Pointer
  | .item a => .outside (x.model (some a))
  | .self => .outside (.list x.tag (x.items.map x.model))
  | model => model

/-- The call ends as it ends on the deep copy, with the same contents, and it reads no
deleted model. -/
def AsCopied (x : ModelList) (op : Op) (model : Pointer) : Prop :=
  (x.apply to_string op model).map contents =
      (x.apply to_string op (x.deep_copy model)).map contents ∧
    x.apply to_string op model ≠ .error .dangling

/-- The operation does not delete its argument before it reads it. The place that `set`
fills is not that of the argument; where the argument is the list, the place is null, or
an item before it cannot be cloned, so that the clone ends before it comes there. An
assigned list is empty, and an assigned element is no list. -/
def Apart (x : ModelList) (op : Op) (model : Pointer) : Prop :=
  match op, model with
  | .set idx, .item a => x.items[idx]? ≠ some (some a)
  | .set idx, .self => ∀ a, x.items[idx]? = some (some a) →
      ∀ r, Model.clone_items to_string ((x.items.take idx).map x.model) ≠ .ok r
  | .assign, .self | .copy_assign, .self | .move_assign, .self => x.items = []
  | .assign, .item a | .copy_assign, .item a | .move_assign, .item a =>
      (x.model (some a)).rellaf_type ≠ .ok .LIST
  | _, _ => True

/-! ## Clones of what the list owns -/

theorem cloned_ne_dangling {α : Type} (r : Run (α × α)) : cloned r ≠ .error .dangling := by
  match r with
  | .ok _ => exact nofun
  | .error _ => exact nofun

section clones

variable {x : ModelList} {ps qs : List (Option Nat)}

/-- Live items are cloned as copies of them are. -/
theorem clone_items_eq (h : ∀ a, some a ∈ ps → x.read a = .ok (x.model (some a))) :
    x.clone_items to_string ps = cloned (Model.clone_items to_string (ps.map x.model)) := by
  induction ps with
  | nil => rfl
  | cons p ps ih =>
    have hrest := ih fun a ha => h a (List.mem_cons_of_mem p ha)
    rw [clone_items, hrest, List.map_cons, Model.clone_items]
    cases p with
    | none => rfl
    | some a =>
      rw [clone_item, h a List.mem_cons_self]
      show (do
        let m ← cloned (Model.clone_by to_string (x.model (some a)) _)
        return m :: (← cloned (Model.clone_items to_string (ps.map x.model)))) = _
      cases Model.clone_by to_string (x.model (some a)) (Model.assign to_string (x.model (some a))) with
      | error fault => rfl
      | ok cm =>
        cases Model.clone_items to_string (ps.map x.model) with
        | error fault => rfl
        | ok csms => rfl

theorem clone_items_append (x : ModelList) (ps qs : List (Option Nat)) :
    x.clone_items to_string (ps ++ qs) = (do
      let cs ← x.clone_items to_string ps
      let cs' ← x.clone_items to_string qs
      return cs ++ cs') := by
  induction ps with
  | nil =>
    show x.clone_items to_string qs = do return [] ++ (← x.clone_items to_string qs)
    cases x.clone_items to_string qs with
    | error misuse => rfl
    | ok cs' => rfl
  | cons p ps ih =>
    rw [List.cons_append, clone_items, clone_items, ih]
    cases x.clone_item to_string p with
    | error misuse => rfl
    | ok c =>
      cases x.clone_items to_string ps with
      | error misuse => rfl
      | ok cs =>
        cases x.clone_items to_string qs with
        | error misuse => rfl
        | ok cs' => rfl

/-- The clone of a list is made item by item. -/
theorem clone_list_eq (tag : Str) (ms : List Model) :
    cloned (Model.clone to_string (.list tag ms)) =
      (do return .list [] (← cloned (Model.clone_items to_string ms))) := by
  show cloned (Model.assign to_string (.list tag ms) (.list [] [])) = _
  rw [Model.assign]
  cases Model.clone_items to_string ms with
  | error fault => rfl
  | ok csms => rfl

theorem clone_self_eq (h : x.Owns) :
    x.clone to_string .self = x.clone to_string (x.deep_copy .self) := by
  show (do return Model.list [] (← x.clone_items to_string x.items)) =
    cloned (Model.clone to_string (.list x.tag (x.items.map x.model)))
  rw [clone_list_eq, clone_items_eq to_string fun a ha => Holds.read h ha]

theorem clone_item_live {a : Nat} {m : Model} (h : x.read a = .ok m) :
    x.clone to_string (.item a) = cloned (Model.clone to_string m) := by
  rw [clone, clone_item, h]
  rfl

end clones

section arguments

variable {x : ModelList} {ps qs : List (Option Nat)} {model : Pointer}

theorem isOwn_item {a : Nat} (h : x.IsOwn (.item a)) : some a ∈ x.items := by
  rcases h with h | ⟨j, h⟩
  · cases h
  · unfold at_ at h
    cases hget : x.items[j]? with
    | none =>
      rw [hget] at h
      cases h
    | some p =>
      rw [hget] at h
      cases p with
      | none => cases h
      | some b =>
        cases h
        exact List.mem_of_getElem? hget

theorem not_isOwn_outside (m : Model) : ¬ x.IsOwn (.outside m) := by
  rintro (h | ⟨j, h⟩)
  · cases h
  · cases hat : x.at_ j with
    | none =>
      rw [hat] at h
      cases h
    | some a =>
      rw [hat] at h
      cases h

/-- Before anything is deleted, an argument is cloned as its copy is. -/
theorem clone_deep_copy (h : x.Owns) (hown : x.IsOwn model) :
    x.clone to_string model = x.clone to_string (x.deep_copy model) := by
  cases model with
  | null => rfl
  | outside m => rfl
  | item a => exact clone_item_live to_string (Holds.read h (isOwn_item hown))
  | self => exact clone_self_eq to_string h

theorem clone_deep_copy_ne (x y : ModelList) (model : Pointer) :
    y.clone to_string (x.deep_copy model) ≠ .error .dangling := by
  cases model with
  | null => exact nofun
  | outside m => exact cloned_ne_dangling _
  | item a => exact cloned_ne_dangling _
  | self => exact cloned_ne_dangling _

theorem deep_copy_eq_null : x.deep_copy model = .null ↔ model = .null := by
  cases model with
  | null => exact iff_of_true rfl rfl
  | _ => exact iff_of_false nofun nofun

theorem bind_return_ne_dangling {α β : Type} {r : Except Misuse α} (h : r ≠ .error .dangling)
    (f : α → β) : (do let a ← r; return f a) ≠ .error .dangling := by
  cases r with
  | error misuse => exact fun heq => h (congrArg Except.error (Except.error.inj heq))
  | ok a => exact nofun

/-! ## The operations -/

theorem asCopied_of_eq {op : Op}
    (heq : x.apply to_string op model = x.apply to_string op (x.deep_copy model))
    (hne : x.apply to_string op (x.deep_copy model) ≠ .error .dangling) :
    x.AsCopied to_string op model :=
  ⟨congrArg _ heq, fun h => hne (heq.symm.trans h)⟩

/-- A call that clones its argument where that is still there, and then puts the clone
somewhere, whatever it was made from. -/
theorem asCopied_of_clone {op : Op} {y : ModelList} {f : Model → ModelList}
    (hcall : x.apply to_string op model = (do let m ← y.clone to_string model; return f m))
    (hcopy : x.apply to_string op (x.deep_copy model) =
      (do let m ← y.clone to_string (x.deep_copy model); return f m))
    (heq : y.clone to_string model = y.clone to_string (x.deep_copy model)) :
    x.AsCopied to_string op model := by
  apply asCopied_of_eq
  · rw [hcall, hcopy, heq]
  · rw [hcopy]
    exact bind_return_ne_dangling (clone_deep_copy_ne to_string x y model) f

/-- The same, where a null may be stored without a clone. -/
theorem asCopied_of_store {op : Op} {y : ModelList}
    (hcall : ∀ model, x.apply to_string op model = y.store to_string ps qs model)
    (heq : y.clone to_string model = y.clone to_string (x.deep_copy model)) :
    x.AsCopied to_string op model := by
  by_cases hmodel : model = .null
  · subst hmodel
    apply asCopied_of_eq
    · rfl
    · rw [hcall]
      exact nofun
  · have hcopy : x.deep_copy model ≠ .null := fun h => hmodel (deep_copy_eq_null.mp h)
    have hcall' := (hcall model).trans (store_of_ne_null to_string hmodel)
    have hcopy' := (hcall (x.deep_copy model)).trans (store_of_ne_null to_string hcopy)
    exact asCopied_of_clone to_string hcall' hcopy' heq

theorem push_front_ref_as_copied (h : x.Owns) (hown : x.IsOwn model) :
    x.AsCopied to_string .push_front_ref model :=
  asCopied_of_clone to_string rfl rfl (clone_deep_copy to_string h hown)

theorem push_back_ref_as_copied (h : x.Owns) (hown : x.IsOwn model) :
    x.AsCopied to_string .push_back_ref model :=
  asCopied_of_clone to_string rfl rfl (clone_deep_copy to_string h hown)

theorem push_front_as_copied (h : x.Owns) (hown : x.IsOwn model) :
    x.AsCopied to_string .push_front model :=
  asCopied_of_store to_string (push_front_eq to_string x) (clone_deep_copy to_string h hown)

theorem push_back_as_copied (h : x.Owns) (hown : x.IsOwn model) :
    x.AsCopied to_string .push_back model :=
  asCopied_of_store to_string (push_back_eq to_string x) (clone_deep_copy to_string h hown)

/-! ### `set` -/

/-- Out of range, the argument is not read. -/
theorem set_past_end {idx : Nat} (hget : x.items[idx]? = none) (model : Pointer) :
    x.AsCopied to_string (.set idx) model := by
  have hset : ∀ model, x.set to_string idx model = .ok x := by
    intro model
    rw [set, hget]
    rfl
  apply asCopied_of_eq
  · exact (hset _).trans (hset _).symm
  · intro heq
    cases (hset _).symm.trans heq

/-- The old model is deleted, and then the new one is cloned from what is left. -/
theorem set_as_copied {p : Option Nat} (h : x.Owns) (hitems : x.items = ps ++ p :: qs)
    (heq : (x.freed p).clone to_string model = (x.freed p).clone to_string (x.deep_copy model)) :
    x.AsCopied to_string (.set ps.length) model :=
  asCopied_of_store to_string (set_eq to_string h hitems) heq

theorem set_not_as_copied {p : Option Nat} (h : x.Owns) (hitems : x.items = ps ++ p :: qs)
    (hmodel : model ≠ .null) (hdead : (x.freed p).clone to_string model = .error .dangling) :
    ¬ x.AsCopied to_string (.set ps.length) model := by
  rintro ⟨-, hne⟩
  apply hne
  show x.set to_string ps.length model = _
  rw [set_eq to_string h hitems, store_of_ne_null to_string hmodel, hdead]
  rfl

/-- The list is cloned while one of its models is deleted: the clone gets as far as the
items before that place can be cloned. -/
theorem clone_self_freed {a : Nat} (h : x.Holds (ps ++ some a :: qs))
    (hitems : x.items = ps ++ some a :: qs) :
    (x.freed (some a)).clone to_string .self = (do
      let _ ← cloned (Model.clone_items to_string (ps.map x.model))
      .error .dangling) := by
  have hps : (x.freed (some a)).clone_items to_string ps =
      cloned (Model.clone_items to_string (ps.map x.model)) := by
    have hsame : ps.map (x.freed (some a)).model = ps.map x.model :=
      List.map_congr_left fun q hq => h.model_freed (List.mem_append_left qs hq)
    rw [clone_items_eq to_string fun b hb => h.freed.read (List.mem_append_left qs hb), hsame]
  have hdead : (x.freed (some a)).clone_item to_string (some a) = .error .dangling := by
    rw [clone_item, read, freed_heap_self]
    rfl
  show (do return Model.list [] (← (x.freed (some a)).clone_items to_string x.items)) = _
  rw [hitems, clone_items_append, hps, clone_items, hdead]
  cases cloned (Model.clone_items to_string (ps.map x.model)) with
  | error misuse => rfl
  | ok cs => rfl

/-- The copy of the list is cloned from its first item on. -/
theorem clone_copy_of_error (h : x.Owns) (hitems : x.items = ps ++ qs) {fault : Fault}
    (herror : Model.clone_items to_string (ps.map x.model) = .error fault) :
    x.clone to_string (x.deep_copy .self) = .error (.fault fault) := by
  have hps : x.clone_items to_string ps = .error (.fault fault) := by
    rw [clone_items_eq to_string fun a ha => Holds.read h (hitems ▸ List.mem_append_left qs ha),
      herror]
    rfl
  rw [← clone_self_eq to_string h, clone, hitems, clone_items_append, hps]
  rfl

theorem set_item_iff {idx a : Nat} (h : x.Owns) (ha : some a ∈ x.items) :
    x.AsCopied to_string (.set idx) (.item a) ↔ x.items[idx]? ≠ some (some a) := by
  have hne : Pointer.item a ≠ .null := nofun
  cases hget : x.items[idx]? with
  | none =>
    exact iff_of_true (set_past_end to_string hget _) nofun
  | some p =>
    obtain ⟨ps, qs, hitems, rfl⟩ := exists_split hget
    have hplace : x.Holds (ps ++ p :: qs) := by rwa [Owns, hitems] at h
    by_cases hp : p = some a
    -- the argument is the model that is deleted
    · subst hp
      refine iff_of_false ?_ (not_not.mpr rfl)
      apply set_not_as_copied to_string h hitems hne
      rw [clone, clone_item, read, freed_heap_self]
      rfl
    · refine iff_of_true ?_ fun heq => hp (Option.some.inj heq)
      apply set_as_copied to_string h hitems
      -- it stands elsewhere, and outlives the delete
      have hrest : some a ∈ ps ++ qs := by
        rw [hitems, List.mem_append, List.mem_cons] at ha
        rw [List.mem_append]
        exact ha.imp_right fun ha => ha.resolve_left fun heq => hp heq.symm
      have hread : (x.freed p).read a = .ok (x.model (some a)) := by
        rw [hplace.freed.read hrest, hplace.model_freed hrest]
      exact clone_item_live to_string hread

theorem set_self_iff {idx : Nat} (h : x.Owns) :
    x.AsCopied to_string (.set idx) .self ↔
      ∀ a, x.items[idx]? = some (some a) →
        ∀ r, Model.clone_items to_string ((x.items.take idx).map x.model) ≠ .ok r := by
  have hne : Pointer.self ≠ .null := by
    intro heq
    cases heq
  cases hget : x.items[idx]? with
  | none =>
    refine iff_of_true (set_past_end to_string hget _) ?_
    intro a ha
    cases ha
  | some p =>
    obtain ⟨ps, qs, hitems, rfl⟩ := exists_split hget
    have hplace : x.Holds (ps ++ p :: qs) := by rwa [Owns, hitems] at h
    cases p with
    | none =>
      -- nothing is deleted
      refine iff_of_true ?_ ?_
      · exact set_as_copied to_string h hitems (clone_self_eq to_string h)
      · intro a ha
        cases ha
    | some a =>
      have htake : x.items.take ps.length = ps := by rw [hitems, List.take_left']; rfl
      have hclone := clone_self_freed to_string hplace hitems
      rw [htake]
      cases hps : Model.clone_items to_string (ps.map x.model) with
      | error fault =>
        -- the clone stops in front of the place, as the clone of the copy does
        refine iff_of_true ?_ ?_
        · apply set_as_copied to_string h hitems
          rw [hclone, hps]
          exact (clone_copy_of_error to_string h hitems hps).symm
        · intro _ _ _ hr
          cases hr
      | ok r =>
        -- the clone goes on to the place
        refine iff_of_false ?_ fun hall => hall a rfl r rfl
        apply set_not_as_copied to_string h hitems hne
        rw [hclone, hps]
        obtain ⟨cs, ms⟩ := r
        rfl

/-! ### Assignments -/

theorem Holds.heap_nil (h : x.Holds []) (a : Nat) : x.heap a = none := by
  have hnone := h.once a
  rw [List.count_nil] at hnone
  split at hnone
  case isTrue => omega
  case isFalse hdead => exact Option.not_isSome_iff_eq_none.mp hdead

theorem length_contents (x : ModelList) : x.contents.length = x.items.length := List.length_map ..

theorem length_push_clones {x y : ModelList} {es : List Pointer}
    (h : x.push_clones to_string es = .ok y) : y.items.length = x.items.length + es.length := by
  induction es generalizing x with
  | nil =>
    cases h
    rfl
  | cons entry es ih =>
    obtain ⟨m, -, hrest⟩ := except_bind_eq_ok.mp h
    have hlength := ih hrest
    rw [List.length_append, List.length_singleton] at hlength
    rw [hlength, List.length_cons]
    omega

/-- From a list, the items are read when the list that is assigned to is cleared. -/
theorem assign_of_list {val : Pointer} {x' : ModelList} (htype : x.type_of val = .ok .LIST)
    (hclear : x.clear = .ok x') :
    x.assign to_string val = (do x'.push_clones to_string (← x'.entries val)) := by
  rw [assign, htype, misuse_ok_bind, if_neg (not_not.mpr rfl)]
  show (do
    let x ← x.clear
    x.push_clones to_string (← x.entries val)) = _
  rw [hclear]
  rfl

theorem assign_self (h : x.Owns) : ∃ x', x.assign to_string .self = .ok x' ∧ x'.items = [] := by
  obtain ⟨x', hclear, hitems, -⟩ := h.clear
  refine ⟨x', ?_, hitems⟩
  rw [assign_of_list to_string rfl hclear, entries, hitems]
  rfl

theorem assign_outside_list (h : x.Owns) (tag : Str) (ms : List Model) :
    ∃ x' : ModelList, x.assign to_string (.outside (.list tag ms)) =
      x'.push_clones to_string (ms.map .outside) ∧ x'.items = [] := by
  obtain ⟨x', hclear, hitems, -⟩ := h.clear
  refine ⟨x', ?_, hitems⟩
  rw [assign_of_list to_string rfl hclear]
  rfl

/-- The source is cleared before its items are read. -/
theorem assign_self_iff (h : x.Owns) {r r' : Except Misuse ModelList}
    (hr : ∃ x', r = .ok x' ∧ x'.items = [])
    (hr' : r' = x.assign to_string (x.deep_copy .self)) :
    (r.map contents = r'.map contents ∧ r ≠ .error .dangling) ↔ x.items = [] := by
  obtain ⟨x₁, rfl, hitems₁⟩ := hr
  obtain ⟨x₂, hassign, hitems₂⟩ := assign_outside_list to_string h x.tag (x.items.map x.model)
  have hcopy : r' = x₂.push_clones to_string ((x.items.map x.model).map .outside) :=
    hr'.trans hassign
  have hempty : (.ok x₁ : Except Misuse ModelList).map contents = .ok [] := by
    show Except.ok x₁.contents = _
    rw [contents, hitems₁, List.map_nil]
  rw [hempty, hcopy]
  constructor
  · rintro ⟨heq, -⟩
    cases hpush : x₂.push_clones to_string ((x.items.map x.model).map .outside) with
    | error misuse =>
      rw [hpush] at heq
      cases heq
    | ok y =>
      rw [hpush] at heq
      -- from the copy, every item was pushed: the list is as long as before
      have hlength := length_push_clones to_string hpush
      have hnone : y.contents.length = 0 := congrArg List.length (Except.ok.inj heq).symm
      rw [length_contents, hlength, List.length_map, List.length_map] at hnone
      exact List.length_eq_zero_iff.mp (by omega)
  · intro hitems
    constructor
    · rw [hitems]
      show _ = Except.ok x₂.contents
      rw [contents, hitems₂, List.map_nil]
    · intro heq
      cases heq

/-- An element that is a list is deleted before its items are read. -/
theorem assign_item_list {a : Nat} (h : x.Owns) (ha : some a ∈ x.items)
    (htype : (x.model (some a)).rellaf_type = .ok .LIST) :
    x.assign to_string (.item a) = .error .dangling := by
  obtain ⟨x', hclear, -, hheld⟩ := h.clear
  have htype_of : x.type_of (.item a) = .ok .LIST := by
    rw [type_of, Holds.read h ha]
    show lifted (x.model (some a)).rellaf_type = _
    rw [htype]
    rfl
  have hentries : x'.entries (.item a) = .error .dangling := by
    rw [entries, read, hheld.heap_nil a]
    rfl
  rw [assign_of_list to_string htype_of hclear, hentries]
  rfl

/-- An element that is no list is not assigned. -/
theorem assign_item_other {a : Nat} (h : x.Owns) (ha : some a ∈ x.items)
    (htype : (x.model (some a)).rellaf_type ≠ .ok .LIST) :
    x.assign to_string (.item a) = x.assign to_string (x.deep_copy (.item a)) ∧
      (x.assign to_string (.item a) = .ok x ∨
        ∃ fault, x.assign to_string (.item a) = .error (.fault fault)) := by
  have htype_of : x.type_of (.item a) = lifted (x.model (some a)).rellaf_type := by
    rw [type_of, Holds.read h ha]
    rfl
  have hcopy : x.type_of (x.deep_copy (.item a)) = lifted (x.model (some a)).rellaf_type := rfl
  rw [assign, assign, htype_of, hcopy]
  cases hm : (x.model (some a)).rellaf_type with
  | error fault => exact ⟨rfl, .inr ⟨fault, rfl⟩⟩
  | ok type =>
    have hne : type ≠ .LIST := fun heq => htype (hm.trans (congrArg _ heq))
    simp only [lifted, misuse_ok_bind, if_pos hne]
    exact ⟨trivial, .inl rfl⟩

theorem assign_self_asCopied_iff (h : x.Owns) :
    x.AsCopied to_string .assign .self ↔ x.items = [] :=
  assign_self_iff to_string h (assign_self to_string h) rfl

/-- Both sides are cleared in the end: the list once more, the copy behind it. -/
theorem move_assign_self_asCopied_iff (h : x.Owns) :
    x.AsCopied to_string .move_assign .self ↔ x.items = [] := by
  apply assign_self_iff to_string h
  · obtain ⟨x', hassign, hitems⟩ := assign_self to_string h
    refine ⟨{ x' with items := [] }, ?_, rfl⟩
    show (do (← x.assign to_string .self).clear_at .self) = _
    rw [hassign, misuse_ok_bind, clear_at, clear, hitems]
    rfl
  · show (do (← x.assign to_string (x.deep_copy .self)).clear_at (x.deep_copy .self)) = _
    cases x.assign to_string (x.deep_copy .self) with
    | error misuse => rfl
    | ok x' => rfl

theorem assign_item_asCopied_iff {a : Nat} (h : x.Owns) (ha : some a ∈ x.items) :
    x.AsCopied to_string .assign (.item a) ↔ (x.model (some a)).rellaf_type ≠ .ok .LIST := by
  constructor
  · rintro ⟨-, hne⟩ htype
    exact hne (assign_item_list to_string h ha htype)
  · intro htype
    obtain ⟨heq, hend⟩ := assign_item_other to_string h ha htype
    refine ⟨congrArg _ heq, ?_⟩
    show x.assign to_string (.item a) ≠ _
    rcases hend with hend | ⟨fault, hend⟩
    · rw [hend]
      exact nofun
    · rw [hend]
      exact nofun

theorem move_assign_item_asCopied_iff {a : Nat} (h : x.Owns) (ha : some a ∈ x.items) :
    x.AsCopied to_string .move_assign (.item a) ↔
      (x.model (some a)).rellaf_type ≠ .ok .LIST := by
  have hmove : x.move_assign to_string (.item a) =
      (do (← x.assign to_string (.item a)).clear_at (.item a)) := rfl
  have hcopy : x.move_assign to_string (x.deep_copy (.item a)) =
      (do (← x.assign to_string (x.deep_copy (.item a))).clear_at (x.deep_copy (.item a))) := rfl
  constructor
  · rintro ⟨-, hne⟩ htype
    apply hne
    show x.move_assign to_string (.item a) = _
    rw [hmove, assign_item_list to_string h ha htype]
    rfl
  · intro htype
    -- what is no list cannot be cleared as one
    have hclear : x.clear_at (.item a) = .error (.fault .undefined) ∧
        x.clear_at (x.deep_copy (.item a)) = .error (.fault .undefined) := by
      rw [deep_copy, clear_at, clear_at, Holds.read h ha, misuse_ok_bind]
      cases hm : x.model (some a) with
      | list tag ms =>
        rw [hm] at htype
        exact absurd rfl htype
      | _ => exact ⟨rfl, rfl⟩
    obtain ⟨heq, hend⟩ := assign_item_other to_string h ha htype
    show (x.move_assign to_string (.item a)).map contents =
        (x.move_assign to_string (x.deep_copy (.item a))).map contents ∧
      x.move_assign to_string (.item a) ≠ .error .dangling
    rw [hmove, hcopy, ← heq]
    rcases hend with hend | ⟨fault, hend⟩
    · rw [hend, misuse_ok_bind, misuse_ok_bind, hclear.1, hclear.2]
      exact ⟨rfl, nofun⟩
    · rw [hend]
      exact ⟨rfl, nofun⟩

/-- No clone is made of a null. -/
theorem set_null_as_copied (h : x.Owns) (idx : Nat) : x.AsCopied to_string (.set idx) .null := by
  cases hget : x.items[idx]? with
  | none => exact set_past_end to_string hget .null
  | some p =>
    obtain ⟨ps, qs, hitems, rfl⟩ := exists_split hget
    exact set_as_copied to_string h hitems rfl

end arguments

/-! ## Ownership -/

theorem keeps_push_clones {x : ModelList} (h : x.Owns) (es : List Pointer) :
    Keeps (x.push_clones to_string es) := by
  induction es generalizing x with
  | nil =>
    rintro x' ⟨⟩
    exact h
  | cons entry es ih =>
    intro x' hx'
    obtain ⟨m, -, hrest⟩ := except_bind_eq_ok.mp hx'
    have hplace : x.Holds (x.items ++ []) := by rwa [List.append_nil]
    exact ih (hplace.insert m).1 x' hrest

theorem keeps_assign {x : ModelList} (h : x.Owns) (val : Pointer) :
    Keeps (x.assign to_string val) := by
  intro x' hx'
  obtain ⟨type, -, hx'⟩ := except_bind_eq_ok.mp hx'
  split at hx'
  · cases hx'
    exact h
  · obtain ⟨x₁, hclear, hx'⟩ := except_bind_eq_ok.mp hx'
    obtain ⟨es, -, hpush⟩ := except_bind_eq_ok.mp hx'
    exact keeps_push_clones to_string (keeps_clear h x₁ hclear) es x' hpush

/-- A live model may be replaced on its place. -/
theorem Owns.write {x : ModelList} {a : Nat} {m : Model} (h : x.Owns) (hread : x.heap a = some m)
    (m' : Model) : ({ x with heap := Function.update x.heap a (some m') } : ModelList).Owns := by
  refine ⟨fun b => ?_, fun b hb => ?_⟩
  · have hlive : (Function.update x.heap a (some m') b).isSome = (x.heap b).isSome := by
      by_cases hba : b = a
      · subst hba
        rw [Function.update_self, hread]
        rfl
      · rw [Function.update_of_ne hba]
    rw [hlive]
    exact h.once b
  · have hba : b ≠ a := by
      rintro rfl
      rw [h.fresh b hb] at hread
      cases hread
    exact (Function.update_of_ne hba ..).trans (h.fresh b hb)

theorem keeps_clear_at {x : ModelList} (h : x.Owns) (o : Pointer) : Keeps (x.clear_at o) := by
  intro x' hx'
  cases o with
  | null => cases hx'
  | outside m =>
    obtain ⟨ms, -, hx'⟩ := except_bind_eq_ok.mp hx'
    cases hx'
    exact h
  | item a =>
    obtain ⟨m, hm, hx'⟩ := except_bind_eq_ok.mp hx'
    have hread : x.heap a = some m := by
      rw [read] at hm
      split at hm
      · cases hm
      case h_2 m' hheap =>
        cases hm
        exact hheap
    cases m with
    | list tag ms =>
      cases hx'
      exact h.write hread (.list tag [])
    | _ => cases hx'
  | self => exact keeps_clear h x' hx'

/-- Every operation that takes a model leaves a list that owns its places, whatever it is
given. -/
theorem owns_apply {x : ModelList} (h : x.Owns) (op : Op) (model : Pointer) :
    Keeps (x.apply to_string op model) := by
  cases op with
  | push_front =>
    rw [apply, push_front_eq]
    exact keeps_store to_string h.front model
  | push_back =>
    rw [apply, push_back_eq]
    exact keeps_store to_string h.back model
  | push_front_ref => exact keeps_insert to_string h.front model
  | push_back_ref => exact keeps_insert to_string h.back model
  | set idx => exact keeps_set to_string h idx model
  | assign => exact keeps_assign to_string h model
  | copy_assign => exact keeps_assign to_string h model
  | move_assign =>
    intro x' hx'
    obtain ⟨x₁, hassign, hx'⟩ := except_bind_eq_ok.mp hx'
    exact keeps_clear_at (keeps_assign to_string h model x₁ hassign) model x' hx'

/-- **When an operation takes its own list for an argument.** A call whose argument is
the list or a pointer that `at` has returned ends as the same call on a deep copy,
without a deleted model being read, exactly if the operation does not delete the
argument before it reads it. -/
theorem as_copied_iff (x : Owned) (op : Op) (model : Pointer) (hown : x.1.IsOwn model) :
    x.1.AsCopied to_string op model ↔ x.1.Apart to_string op model := by
  obtain ⟨x, h⟩ := x
  cases op with
  | push_front => exact iff_of_true (push_front_as_copied to_string h hown) trivial
  | push_back => exact iff_of_true (push_back_as_copied to_string h hown) trivial
  | push_front_ref => exact iff_of_true (push_front_ref_as_copied to_string h hown) trivial
  | push_back_ref => exact iff_of_true (push_back_ref_as_copied to_string h hown) trivial
  | set idx =>
    cases model with
    | null => exact iff_of_true (set_null_as_copied to_string h idx) trivial
    | outside m => exact absurd hown (not_isOwn_outside m)
    | item a => exact set_item_iff to_string h (isOwn_item hown)
    | self => exact set_self_iff to_string h
  | assign =>
    cases model with
    | null => exact iff_of_true (asCopied_of_eq to_string rfl nofun) trivial
    | outside m => exact absurd hown (not_isOwn_outside m)
    | item a => exact assign_item_asCopied_iff to_string h (isOwn_item hown)
    | self => exact assign_self_asCopied_iff to_string h
  | copy_assign =>
    cases model with
    | null => exact iff_of_true (asCopied_of_eq to_string rfl nofun) trivial
    | outside m => exact absurd hown (not_isOwn_outside m)
    | item a => exact assign_item_asCopied_iff to_string h (isOwn_item hown)
    | self => exact assign_self_asCopied_iff to_string h
  | move_assign =>
    cases model with
    | null => exact iff_of_true (asCopied_of_eq to_string rfl nofun) trivial
    | outside m => exact absurd hown (not_isOwn_outside m)
    | item a => exact move_assign_item_asCopied_iff to_string h (isOwn_item hown)
    | self => exact move_assign_self_asCopied_iff to_string h

/-- A list that holds one `Void`. -/
def one_void : Owned :=
  ⟨new.insert [] [] (.void []), (@Holds.insert new [] [] owns_new (.void [])).1⟩

/-- `x.push_back(x.at(0))` on it. -/
theorem as_copied_iff_push :
    one_void.1.AsCopied (fun _ => []) .push_back (.item 0) ↔
      one_void.1.Apart (fun _ => []) .push_back (.item 0) :=
  as_copied_iff (fun _ => []) one_void .push_back (.item 0) (.inr ⟨0, rfl⟩)

/-- `x = x` on it: the list is empty afterwards. -/
theorem copy_assign_self :
    ¬ ∀ (to_string : PlainVal → Str) (x : Owned) (op : Op) (model : Pointer), x.1.IsOwn model →
      x.1.AsCopied to_string op model := by
  intro hall
  have hcopied : one_void.1.AsCopied (fun _ => []) .assign .self :=
    hall (fun _ => []) one_void .copy_assign .self (.inl rfl)
  have hempty := (assign_self_asCopied_iff _ one_void.2).mp hcopied
  cases hempty

end ModelList

end Rellaf.Models
