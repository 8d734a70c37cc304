/-
`List` of `model.h` with the pointers that it keeps, and its operations on them.

A list owns the models that its `_items` point to. They are cells of a heap; an address
without a cell was never given out or is deleted, and to read or delete through it is
`Misuse.dangling`, told apart from every other way in which a call can fail to return.
`Owns` says that each cell belongs to one place of the list, and each operation is
told by what it does to the places.
-/
import Mathlib.Data.List.Count
import Rellaf.ModelCopy

set_option autoImplicit false

open Rellaf.Cpp

namespace Rellaf.Models

variable (to_string : PlainVal → Str)

/-- How a call on a list can end without returning. -/
inductive Misuse where
  /-- a deleted model is read, or deleted once more -/
  | dangling
  | fault (fault : Fault)
  deriving DecidableEq, Repr

theorem misuse_ok_bind {α β : Type} (a : α) (f : α → Except Misuse β) :
    ((.ok a : Except Misuse α) >>= f) = f a := rfl

/-- A `List`: its tag, its `_items` and the models they point to. `next` is the address
that the next new model gets. -/
structure ModelList where
  heap : Nat → Option Model
  next : Nat
  tag : Str
  items : List (Option Nat)

/-- A `Model*` that is handed to a list. -/
inductive Pointer where
  | null
  /-- a model of the caller's -/
  | outside (m : Model)
  /-- a model that the list owns -/
  | item (a : Nat)
  /-- the list itself -/
  | self

/-- An element of the list as an argument. -/
def Pointer.of_item : Option Nat → Pointer
  | none => null
  | some a => item a

namespace ModelList

/-- `List()` -/
def new : ModelList := ⟨fun _ => none, 0, [], []⟩

/-! ## Cells -/

def read (x : ModelList) (a : Nat) : Except Misuse Model :=
  match x.heap a with
  | none => .error .dangling
  | some m => .ok m

/-- The list with what `p` points to taken away. -/
def freed (x : ModelList) : Option Nat → ModelList
  | none => x
  | some a => { x with heap := Function.update x.heap a none }

/-- `delete p` -/
def delete (x : ModelList) (p : Option Nat) : Except Misuse ModelList :=
  match p with
  | none => return x
  | some a => do
    let _ ← x.read a
    return x.freed (some a)

/-- A new model, at the address `next`. -/
def alloc (x : ModelList) (m : Model) : ModelList :=
  { x with heap := Function.update x.heap x.next (some m), next := x.next + 1 }

theorem freed_heap_self (x : ModelList) (a : Nat) : (x.freed (some a)).heap a = none :=
  Function.update_self ..

theorem freed_heap_of_ne (x : ModelList) {a b : Nat} (h : b ≠ a) :
    (x.freed (some a)).heap b = x.heap b :=
  Function.update_of_ne h ..

theorem alloc_heap_next (x : ModelList) (m : Model) : (x.alloc m).heap x.next = some m :=
  Function.update_self ..

theorem alloc_heap_of_ne (x : ModelList) {b : Nat} (h : b ≠ x.next) (m : Model) :
    (x.alloc m).heap b = x.heap b :=
  Function.update_of_ne h ..

/-! ## Clones -/

/-- What a call of `clone()` returns, without the source. -/
def cloned {α : Type} (r : Run (α × α)) : Except Misuse α :=
  match r with
  | .ok (c, _) => .ok c
  | .error fault => .error (.fault fault)

theorem cloned_eq_ok {α : Type} {r : Run (α × α)} {c : α} :
    cloned r = .ok c ↔ ∃ s, r = .ok (c, s) := by
  match r with
  | .ok (c', s) => exact ⟨fun h => ⟨s, by cases h; rfl⟩, fun ⟨_, h⟩ => by cases h; rfl⟩
  | .error fault => exact ⟨nofun, nofun⟩

/-- `entry->clone()` -/
def clone_item (x : ModelList) : Option Nat → Except Misuse Model
  | none => .error (.fault .undefined)
  | some a => do cloned (Model.clone to_string (← x.read a))

def clone_items (x : ModelList) : List (Option Nat) → Except Misuse (List Model)
  | [] => return []
  | p :: ps => do
    let m ← x.clone_item to_string p
    return m :: (← clone_items x ps)

/-- `model->clone()` -/
def clone (x : ModelList) : Pointer → Except Misuse Model
  | .null => .error (.fault .undefined)
  | .outside m => cloned (Model.clone to_string m)
  | .item a => x.clone_item to_string (some a)
  | .self => do return .list [] (← x.clone_items to_string x.items)

/-! ## The operations -/

def size (x : ModelList) : Nat := x.items.length

def delete_items (x : ModelList) : List (Option Nat) → Except Misuse ModelList
  | [] => return x
  | p :: ps => do delete_items (← x.delete p) ps

def clear (x : ModelList) : Except Misuse ModelList := do
  return { (← x.delete_items x.items) with items := [] }

/-- `push_front(const T&)` -/
def push_front_ref (x : ModelList) (model : Pointer) : Except Misuse ModelList := do
  let m ← x.clone to_string model
  return { x.alloc m with items := some x.next :: x.items }

/-- `push_back(const T&)` -/
def push_back_ref (x : ModelList) (model : Pointer) : Except Misuse ModelList := do
  let m ← x.clone to_string model
  return { x.alloc m with items := x.items ++ [some x.next] }

def push_front (x : ModelList) (model : Pointer) : Except Misuse ModelList :=
  match model with
  | .null => .ok { x with items := none :: x.items }
  | model => x.push_front_ref to_string model

def push_back (x : ModelList) (model : Pointer) : Except Misuse ModelList :=
  match model with
  | .null => .ok { x with items := x.items ++ [none] }
  | model => x.push_back_ref to_string model

def pop_front (x : ModelList) : Except Misuse ModelList :=
  match x.items with
  -- there is nothing to delete, and `_items.pop_front()` is called all the same
  | [] => .error (.fault .undefined)
  | p :: ps => do return { (← x.delete p) with items := ps }

def pop_back (x : ModelList) : Except Misuse ModelList :=
  match x.items.getLast? with
  | none => .error (.fault .undefined)
  | some p => do return { (← x.delete p) with items := x.items.dropLast }

/-- What `set` puts in the place of the model that it has deleted. -/
def set_place (x : ModelList) (idx : Nat) (model : Pointer) : Except Misuse ModelList :=
  match model with
  | .null => .ok { x with items := x.items.set idx none }
  | model => do
    let m ← x.clone to_string model
    return { x.alloc m with items := x.items.set idx (some x.next) }

def set (x : ModelList) (idx : Nat) (model : Pointer) : Except Misuse ModelList :=
  match x.items[idx]? with
  | none => return x
  | some p => do (← x.delete p).set_place to_string idx model

/-- `at(idx)`: null past the end. -/
def at_ (x : ModelList) (idx : Nat) : Option Nat := (x.items[idx]?).join

/-! ## What the places hold -/

/-- What a pointer of the list points to. -/
def model (x : ModelList) : Option Nat → Model
  | none => .null
  | some a => (x.heap a).getD .null

/-- The items, as deep as they go. -/
def contents (x : ModelList) : List (ModelTree (ModelType × PlainVal)) :=
  x.items.map fun p => (x.model p).contents

/-- The places own the heap: each live model stands in one of them, and once. An
address that was not given out has no model. -/
structure Holds (x : ModelList) (ps : List (Option Nat)) : Prop where
  once : ∀ a, ps.count (some a) = if (x.heap a).isSome then 1 else 0
  fresh : ∀ a, x.next ≤ a → x.heap a = none

/-- What every list keeps between two calls. -/
def Owns (x : ModelList) : Prop := x.Holds x.items

theorem owns_new : new.Owns := ⟨fun _ => rfl, fun _ _ => rfl⟩

section Holds

variable {x : ModelList} {ps qs : List (Option Nat)} {p : Option Nat}

theorem Holds.heap_of_mem {a : Nat} (h : x.Holds ps) (ha : some a ∈ ps) :
    ∃ m, x.heap a = some m := by
  have hpos : 0 < ps.count (some a) := List.count_pos_iff.mpr ha
  rw [h.once a] at hpos
  split at hpos
  case isTrue hsome => exact Option.isSome_iff_exists.mp hsome
  case isFalse => omega

theorem Holds.read {a : Nat} (h : x.Holds ps) (ha : some a ∈ ps) :
    x.read a = .ok (x.model (some a)) := by
  obtain ⟨m, hm⟩ := h.heap_of_mem ha
  rw [ModelList.read, model, hm]
  rfl

/-- A null takes a place and owns nothing. -/
theorem holds_null_iff : x.Holds (ps ++ none :: qs) ↔ x.Holds (ps ++ qs) := by
  have hcount : ∀ a : Nat, (ps ++ none :: qs).count (some a) = (ps ++ qs).count (some a) := by
    intro a
    have hne : (none : Option Nat) ≠ some a := nofun
    rw [List.count_append, List.count_append, List.count_cons_of_ne hne]
  constructor
  · exact fun h => ⟨fun a => (hcount a).symm.trans (h.once a), h.fresh⟩
  · exact fun h => ⟨fun a => (hcount a).trans (h.once a), h.fresh⟩

theorem Holds.delete (h : x.Holds (ps ++ p :: qs)) : x.delete p = .ok (x.freed p) := by
  cases p with
  | none => rfl
  | some a =>
    rw [ModelList.delete, h.read (List.mem_append_right ps List.mem_cons_self)]
    rfl

/-- The model of a place stands in no other. -/
theorem Holds.not_mem {a : Nat} (h : x.Holds (ps ++ some a :: qs)) : some a ∉ ps ++ qs := by
  have hone := h.once a
  rw [List.count_append, List.count_cons_self] at hone
  rw [← List.count_eq_zero, List.count_append]
  split at hone
  · omega
  · omega

theorem Holds.freed (h : x.Holds (ps ++ p :: qs)) : (x.freed p).Holds (ps ++ qs) := by
  cases p with
  | none => exact holds_null_iff.mp h
  | some a =>
    refine ⟨fun b => ?_, fun b hb => ?_⟩
    · by_cases hb : b = a
      · subst hb
        rw [List.count_eq_zero.mpr h.not_mem, freed_heap_self]
        rfl
      · have hcount : (ps ++ qs).count (some b) = (ps ++ some a :: qs).count (some b) := by
          have hne : some a ≠ some b := fun heq => hb (Option.some.inj heq).symm
          rw [List.count_append, List.count_append, List.count_cons_of_ne hne]
        rw [hcount, h.once b, freed_heap_of_ne x hb]
    · by_cases hba : b = a
      · subst hba
        exact freed_heap_self x b
      · rw [freed_heap_of_ne x hba]
        exact h.fresh b hb

theorem Holds.model_freed {q : Option Nat} (h : x.Holds (ps ++ p :: qs)) (hq : q ∈ ps ++ qs) :
    (x.freed p).model q = x.model q := by
  cases p with
  | none => rfl
  | some a =>
    cases q with
    | none => rfl
    | some b =>
      have hb : b ≠ a := by
        rintro rfl
        exact h.not_mem hq
      rw [model, model, freed_heap_of_ne x hb]

theorem Holds.ne_next {a : Nat} (h : x.Holds ps) (ha : some a ∈ ps) : a ≠ x.next := by
  rintro rfl
  obtain ⟨m, hm⟩ := h.heap_of_mem ha
  rw [h.fresh x.next le_rfl] at hm
  cases hm

theorem Holds.alloc (h : x.Holds (ps ++ qs)) (m : Model) :
    (x.alloc m).Holds (ps ++ some x.next :: qs) := by
  refine ⟨fun b => ?_, fun b hb => ?_⟩
  · by_cases hb : b = x.next
    · subst hb
      have hzero : (ps ++ qs).count (some x.next) = 0 := by
        rw [List.count_eq_zero]
        exact fun hmem => h.ne_next hmem rfl
      rw [List.count_append] at hzero
      rw [List.count_append, List.count_cons_self, alloc_heap_next, Option.isSome_some, if_pos rfl]
      omega
    · have hne : some x.next ≠ some b := fun heq => hb (Option.some.inj heq).symm
      rw [List.count_append, List.count_cons_of_ne hne, ← List.count_append, h.once b,
        alloc_heap_of_ne x hb]
  · have hlt : x.next < b := hb
    rw [alloc_heap_of_ne x (by omega)]
    exact h.fresh b (by omega)

theorem Holds.model_alloc {q : Option Nat} (h : x.Holds ps) (hq : q ∈ ps) (m : Model) :
    (x.alloc m).model q = x.model q := by
  cases q with
  | none => rfl
  | some b =>
    rw [model, model, alloc_heap_of_ne x (h.ne_next hq)]

theorem model_alloc_next (x : ModelList) (m : Model) : (x.alloc m).model (some x.next) = m := by
  rw [model, alloc_heap_next, Option.getD_some]

/-- Everything is deleted, each model once. -/
theorem Holds.delete_items (h : x.Holds ps) :
    ∃ x', x.delete_items ps = .ok x' ∧ x'.Holds [] := by
  induction ps generalizing x with
  | nil => exact ⟨x, rfl, h⟩
  | cons p ps ih =>
    have hhead : x.Holds ([] ++ p :: ps) := h
    obtain ⟨x', hrest, hx'⟩ := ih hhead.freed
    refine ⟨x', ?_, hx'⟩
    rw [ModelList.delete_items, hhead.delete]
    exact hrest

end Holds

/-! ## What an operation does to the places -/

/-- What the places hold, as deep as it goes. -/
def contents_at (x : ModelList) (ps : List (Option Nat)) : List (ModelTree (ModelType × PlainVal)) :=
  ps.map fun p => (x.model p).contents

/-- A new model in a place of its own. -/
def insert (x : ModelList) (ps qs : List (Option Nat)) (m : Model) : ModelList :=
  { x.alloc m with items := ps ++ some x.next :: qs }

section places

variable {x : ModelList} {ps qs : List (Option Nat)} {p : Option Nat}

theorem Holds.with_items (h : x.Holds ps) (items : List (Option Nat)) :
    ({ x with items := items } : ModelList).Holds ps :=
  ⟨h.once, h.fresh⟩

theorem contents_eq (h : x.items = ps ++ qs) : x.contents = x.contents_at ps ++ x.contents_at qs := by
  rw [contents, h, List.map_append]
  rfl

theorem contents_at_cons (x : ModelList) (p : Option Nat) (ps : List (Option Nat)) :
    x.contents_at (p :: ps) = (x.model p).contents :: x.contents_at ps := rfl

theorem Holds.insert (h : x.Holds (ps ++ qs)) (m : Model) :
    (x.insert ps qs m).Owns ∧
      (x.insert ps qs m).contents = x.contents_at ps ++ m.contents :: x.contents_at qs := by
  refine ⟨(h.alloc m).with_items _, ?_⟩
  have hsame : ∀ q ∈ ps ++ qs, ((x.insert ps qs m).model q).contents = (x.model q).contents :=
    fun q hq => congrArg Model.contents (h.model_alloc hq m)
  have hnew : (x.insert ps qs m).model (some x.next) = m := x.model_alloc_next m
  have hps : (x.insert ps qs m).contents_at ps = x.contents_at ps :=
    List.map_congr_left fun q hq => hsame q (List.mem_append_left qs hq)
  have hqs : (x.insert ps qs m).contents_at qs = x.contents_at qs :=
    List.map_congr_left fun q hq => hsame q (List.mem_append_right ps hq)
  have hcontents : (x.insert ps qs m).contents = (x.insert ps qs m).contents_at ps ++
      (x.insert ps qs m).contents_at (some x.next :: qs) := contents_eq rfl
  rw [hcontents, hps, contents_at_cons, hnew, hqs]

theorem Holds.insert_null (h : x.Holds (ps ++ qs)) :
    ({ x with items := ps ++ none :: qs } : ModelList).Owns ∧
      ({ x with items := ps ++ none :: qs } : ModelList).contents =
        x.contents_at ps ++ .null :: x.contents_at qs := by
  refine ⟨(holds_null_iff.mpr h).with_items _, ?_⟩
  have hcontents : ({ x with items := ps ++ none :: qs } : ModelList).contents =
      x.contents_at ps ++ x.contents_at (none :: qs) := contents_eq rfl
  exact hcontents

theorem Holds.remove (h : x.Holds (ps ++ p :: qs)) :
    ({ x.freed p with items := ps ++ qs } : ModelList).Owns ∧
      ({ x.freed p with items := ps ++ qs } : ModelList).contents = x.contents_at (ps ++ qs) := by
  refine ⟨h.freed.with_items _, ?_⟩
  exact List.map_congr_left fun q hq => congrArg Model.contents (h.model_freed hq)

theorem Owns.clear (h : x.Owns) :
    ∃ x', x.clear = .ok x' ∧ x'.items = [] ∧ x'.Holds [] := by
  obtain ⟨x', hdelete, hx'⟩ := Holds.delete_items h
  refine ⟨{ x' with items := [] }, ?_, rfl, hx'.with_items []⟩
  rw [ModelList.clear, hdelete]
  rfl

/-- `idx` is in range: its place, and the places around it. -/
theorem exists_split {l : List (Option Nat)} {i : Nat} (h : l[i]? = some p) :
    ∃ ps qs, l = ps ++ p :: qs ∧ ps.length = i := by
  obtain ⟨hlt, hget⟩ := List.getElem?_eq_some_iff.mp h
  refine ⟨l.take i, l.drop (i + 1), ?_, List.length_take_of_le (by omega)⟩
  rw [← hget, ← List.drop_eq_getElem_cons hlt, List.take_append_drop]

theorem set_split {α : Type} {ps qs : List α} {p : α} {i : Nat} (h : ps.length = i) (q : α) :
    (ps ++ p :: qs).set i q = ps ++ q :: qs := by
  subst h
  rw [List.set_append_right _ _ le_rfl, Nat.sub_self, List.set_cons_zero]

end places

end ModelList

end Rellaf.Models
