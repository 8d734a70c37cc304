/-
Objects in memory: the maps of an instance with the pointers in them, and the operations
that a model class gets from its macros.

Here a model is a cell of a heap, so that an operation may be given an object and
something inside of it. What a class declares is apart from what its instances have: the
maps of an instance are filled by the constructor, and `operator[]`, `clear()` and the
setters change them later.

A `delete` or an `assign` goes as deep as the objects do. The functions take the depth
they may go to as their fuel, and a call returns when it returns with some fuel.
-/
import Rellaf.Lib.Machine
import Rellaf.HttpEntry

set_option autoImplicit false

open Rellaf.Cpp

namespace Rellaf.Models.Memory

open MemberMap
open Brpc (Calls)

/-- What a class declares with `rellaf_model_def_*`: its plain members with their
defaults, its lists, and its object members with their classes. A member that is declared
with `Model` or `Object` has none and is set to any model. -/
structure Decl (K : Type) where
  plain_names : List (Str × Plain)
  list_names : List Str
  object_names : List (Str × Option K)

/-- An object: its class and its three maps. -/
structure Instance (K : Type) where
  clazz : K
  tag : Str
  plains : List (Str × Plain)
  lists : List (Str × List (Option Nat))
  objects : List (Str × Option Nat)

inductive Cell (K : Type) where
  | void (tag : Str)
  | plain (p : Plain)
  | list (tag : Str) (items : List (Option Nat))
  | object (o : Instance K)

/-- The models in memory. `next` is the address that the next new model gets; an address
of a deleted model is not given out again. -/
structure Heap (K : Type) where
  cells : Nat → Option (Cell K)
  next : Nat

/-- Where a `List` is: it is a model of its own, or in the map of an object. -/
inductive ListAt where
  | cell (a : Nat)
  | member (a : Nat) (name : Str)

inductive Halt where
  | fault (fault : Fault)
  | fuel
  deriving DecidableEq, Repr

abbrev Steps (α : Type) := Except Halt α

/-- A call that touches nothing in memory. -/
def lifted {α : Type} (r : Run α) : Steps α :=
  match r with
  | .ok a => .ok a
  | .error fault => .error (.fault fault)

-- the classes, and what each of them declares
variable {K : Type} (decl : K → Decl K) (calls : Calls)

/-! ## What an object has -/

namespace Instance

/-- `_clazz_()` -/
def construct (clazz : K) : Instance K :=
  ⟨clazz, [], (decl clazz).plain_names, (decl clazz).list_names.map fun k => (k, []),
    (decl clazz).object_names.map fun kc => (kc.1, none)⟩

variable (o : Instance K)

def is_list_member (name : Str) : Bool := (o.lists.lookup name).isSome

def is_object_member (name : Str) : Bool := (o.objects.lookup name).isSome

/-- `_lists.at(name)` -/
def get_list (name : Str) : Run (List (Option Nat)) :=
  match o.lists.lookup name with
  | some items => .ok items
  | none => .error .exception

end Instance

/-- What `clone()` makes before it assigns to it. -/
def Cell.create : Cell K → Cell K
  | void _ => void []
  | plain p => plain (p.create calls.to_string)
  | list _ _ => list [] []
  | object o => object (.construct decl o.clazz)

namespace Heap

/-! ## Cells -/

def empty : Heap K := ⟨fun _ => none, 0⟩

/-- A deleted model is not read. -/
def read (h : Heap K) (a : Nat) : Steps (Cell K) :=
  match h.cells a with
  | none => .error (.fault .undefined)
  | some c => .ok c

def instance_at (h : Heap K) (a : Nat) : Steps (Instance K) := do
  match ← h.read a with
  | .object o => return o
  | _ => .error (.fault .undefined)

def write (h : Heap K) (a : Nat) (c : Cell K) : Heap K :=
  { h with cells := Function.update h.cells a (some c) }

def kill (h : Heap K) (a : Nat) : Heap K :=
  { h with cells := Function.update h.cells a none }

/-- A new model, at the address `next`. -/
def alloc (h : Heap K) (c : Cell K) : Heap K :=
  { cells := Function.update h.cells h.next (some c), next := h.next + 1 }

/-! ## `delete` and `clear` -/

/-- `delete p`, with what an object or a list owns. -/
def delete : Nat → Heap K → Option Nat → Steps (Heap K)
  | _, h, none => return h
  | 0, _, some _ => .error .fuel
  | n + 1, h, some a => do
    match ← h.read a with
    | .void _ | .plain _ => return h.kill a
    | .list _ items => return (← items.foldlM (delete n) h).kill a
    | .object o =>
      -- `~Object()` takes the objects, and the lists go with the map that they are in
      let h ← (o.objects.map Prod.snd).foldlM (delete n) h
      let h ← (o.lists.flatMap Prod.snd).foldlM (delete n) h
      return h.kill a

def items_at (h : Heap K) : ListAt → Steps (List (Option Nat))
  | .cell a => do
    match ← h.read a with
    | .list _ items => return items
    | _ => .error (.fault .undefined)
  | .member a name => do
    match (← h.instance_at a).lists.lookup name with
    | some items => return items
    | none => .error (.fault .undefined)

def set_items (h : Heap K) (l : ListAt) (items : List (Option Nat)) : Steps (Heap K) :=
  match l with
  | .cell a => do
    match ← h.read a with
    | .list tag _ => return h.write a (.list tag items)
    | _ => .error (.fault .undefined)
  | .member a name => do
    let o ← h.instance_at a
    match o.lists.lookup name with
    | some _ => return h.write a (.object { o with lists := put o.lists name items })
    | none => .error (.fault .undefined)

/-- `List::clear` -/
def clear_list (n : Nat) (h : Heap K) (l : ListAt) : Steps (Heap K) := do
  let h ← (← h.items_at l).foldlM (delete n) h
  h.set_items l []

/-- The virtual `clear()`, through a pointer. -/
def clear : Nat → Heap K → Option Nat → Steps (Heap K)
  | _, _, none => .error (.fault .undefined)
  | 0, _, some _ => .error .fuel
  | n + 1, h, some a => do
    match ← h.read a with
    | .void _ | .plain _ => return h
    | .list _ _ => h.clear_list n (.cell a)
    | .object o =>
      let h ← (o.objects.map Prod.snd).foldlM (clear n) h
      -- `_objects.clear()` forgets the objects
      let o ← h.instance_at a
      let h := h.write a (.object { o with objects := [] })
      let h ← (o.lists.map Prod.fst).foldlM (fun h name => h.clear_list n (.member a name)) h
      let o ← h.instance_at a
      return h.write a (.object { o with lists := [] })

/-! ## `assign` and `clone` -/

section loops

-- the virtual `dst->assign(val)`
variable (assign : Heap K → Nat → Option Nat → Steps (Heap K))

/-- The virtual `clone()`, through a pointer: the new model's address. -/
def clone_by (h : Heap K) : Option Nat → Steps (Heap K × Nat)
  | none => .error (.fault .undefined)
  | some a => do
    let c ← h.read a
    return (← assign (h.alloc (c.create decl calls)) h.next (some a), h.next)

/-- `_items.push_back(entry->clone())` -/
def push_clone (dst : ListAt) (h : Heap K) (entry : Option Nat) : Steps (Heap K) := do
  let (h, c) ← clone_by decl calls assign h entry
  h.set_items dst ((← h.items_at dst) ++ [some c])

/-- `List::assign`, from another list or the same. -/
def assign_list (n : Nat) (h : Heap K) (dst val : ListAt) : Steps (Heap K) := do
  let h ← h.clear_list n dst
  (← h.items_at val).foldlM (push_clone decl calls assign dst) h

/-- `entry.second->assign(ptr->_objects[entry.first])`: a name that the source does not
have is added to it. -/
def assign_object (dst val : Nat) (h : Heap K) (entry : Str × Option Nat) : Steps (Heap K) := do
  -- the loop is in the map of `dst`
  let _ ← h.instance_at dst
  let o ← h.instance_at val
  let (h, p) := match o.objects.lookup entry.1 with
    | some p => (h, p)
    | none => (h.write val (.object { o with objects := put o.objects entry.1 none }), none)
  match entry.2 with
  | some b => assign h b p
  | none => .error (.fault .undefined)

/-- `entry.second.assign(&(ptr->_lists[entry.first]))` -/
def assign_member_list (n : Nat) (dst val : Nat) (h : Heap K) (name : Str) : Steps (Heap K) := do
  let _ ← h.instance_at dst
  let o ← h.instance_at val
  let h := match o.lists.lookup name with
    | some _ => h
    | none => h.write val (.object { o with lists := put o.lists name [] })
  assign_list decl calls assign n h (.member dst name) (.member val name)

end loops

/-- The virtual `dst->assign(val)`. -/
def assign : Nat → Heap K → Nat → Option Nat → Steps (Heap K)
  | 0, _, _, _ => .error .fuel
  | n + 1, h, dst, val => do
    match ← h.read dst, val with
    | .void _, _ => return h
    | _, none => .error (.fault .undefined)
    | c, some a =>
      match c, ← h.read a with
      | .plain p, .plain q => return h.write dst (.plain (← lifted (p.assign q)))
      | .plain p, .void _ =>
        -- without a type of its own, `p` takes what it gets for a `Plain`
        if p.type = .no then .error (.fault .undefined) else return h
      | .list _ _, .list _ _ => assign_list decl calls (assign n) n h (.cell dst) (.cell a)
      | .object o, .object o' =>
        let plains ← lifted (Model.assign_plains o.plains o'.plains)
        let h := h.write dst (.object { o with tag := o'.tag, plains := plains })
        let h ← o.objects.foldlM (assign_object (assign n) dst a) h
        (o.lists.map Prod.fst).foldlM (assign_member_list decl calls (assign n) n dst a) h
      -- the types differ
      | _, _ => return h

def clone (n : Nat) (h : Heap K) (p : Option Nat) : Steps (Heap K × Nat) :=
  clone_by decl calls (assign decl calls n) h p

/-! ## The members of a class -/

section members

variable [DecidableEq K]

/-- An argument of type `_clazz_&`: nothing else is compiled. -/
def of_class (h : Heap K) (a : Nat) (clazz : K) : Steps (Instance K) := do
  let o ← h.instance_at a
  if o.clazz = clazz then return o else .error (.fault .undefined)

/-- An argument of type `_clazz_*`, or of type `Model*`, which takes any pointer. An `Object*`
takes no more than that. -/
def pointer_of (h : Heap K) (p : Option Nat) (clazz : Option K) : Steps Unit :=
  match p, clazz with
  | some b, some clazz => do
    let _ ← h.of_class b clazz
    return ()
  | _, _ => return ()

/-- `_clazz_(const _clazz_&)`: the new object's address. -/
def copy_construct (n : Nat) (h : Heap K) (o : Nat) : Steps (Heap K × Nat) := do
  let val ← h.instance_at o
  return (← assign decl calls n (h.alloc (.object (.construct decl val.clazz))) h.next (some o),
    h.next)

/-- `_clazz_(_clazz_&&)` -/
def move_construct (n : Nat) (h : Heap K) (o : Nat) : Steps (Heap K × Nat) := do
  let (h, a) ← copy_construct decl calls n h o
  return (← h.clear n (some o), a)

/-- `operator=(const _clazz_&)` -/
def copy_assign (n : Nat) (h : Heap K) (dst o : Nat) : Steps (Heap K) := do
  let val ← h.instance_at o
  let _ ← h.of_class dst val.clazz
  assign decl calls n h dst (some o)

/-- `operator=(_clazz_&&)`: the object that is cleared is the one assigned to. -/
def move_assign (n : Nat) (h : Heap K) (dst o : Nat) : Steps (Heap K) := do
  (← copy_assign decl calls n h dst o).clear n (some dst)

/-- `set_<name>` of a plain member, to a value of its type. -/
def set_member (h : Heap K) (a : Nat) (name : Str) (val : PlainVal) : Steps (Heap K) := do
  let o ← h.instance_at a
  match o.plains.lookup name with
  | some p =>
    let p ← lifted (JsonToModel.set_plain p val)
    return h.write a (.object { o with plains := put o.plains name p })
  | none => .error (.fault .undefined)

/-- The pointer under a name of `_objects`. -/
def set_pointer (h : Heap K) (a : Nat) (name : Str) (p : Option Nat) : Steps (Heap K) := do
  let o ← h.instance_at a
  return h.write a (.object { o with objects := put o.objects name p })

/-- The object under a name of `_objects` is deleted and the name gets null. -/
def drop_object (n : Nat) (h : Heap K) (a : Nat) (name : Str) : Steps (Heap K) := do
  match (← h.instance_at a).objects.lookup name with
  | some p => (← h.delete n p).set_pointer a name none
  | none => return h

/-- `set_<name>` of an object member, to a clone of a model of its class or to null. -/
def set_object (n : Nat) (h : Heap K) (a : Nat) (name : Str) (val : Option Nat) :
    Steps (Heap K) := do
  let o ← h.instance_at a
  match (decl o.clazz).object_names.lookup name with
  | none => .error (.fault .undefined)
  | some clazz =>
    h.pointer_of val clazz
    let h ← h.drop_object n a name
    match val with
    | none => h.set_pointer a name none
    | some b =>
      let (h, c) ← clone decl calls n h (some b)
      h.set_pointer a name (some c)

/-- `set_plain(key, val_str)`. A member that the instance has lost is created. -/
def set_plain (h : Heap K) (a : Nat) (key val_str : Str) : Steps (Heap K) := do
  let o ← h.instance_at a
  match (decl o.clazz).plain_names.lookup key with
  | none => return h
  | some dft =>
    let p := (o.plains.lookup key).getD (dft.create calls.to_string)
    let (_, p) ← lifted (Brpc.plain_set_parse calls p val_str)
    return h.write a (.object { o with plains := put o.plains key p })

/-- `get_list(name).push_back(m)` -/
def push_back (n : Nat) (h : Heap K) (a : Nat) (name : Str) (m : Option Nat) :
    Steps (Heap K) := do
  let _ ← lifted ((← h.instance_at a).get_list name)
  match m with
  | none => h.set_items (.member a name) ((← h.items_at (.member a name)) ++ [none])
  | some b => push_clone decl calls (assign decl calls n) (.member a name) h (some b)

end members

end Heap

/-! ## Runs -/

inductive Op (K : Type) where
  | construct (clazz : K)
  /-- a `Void`, a `Plain` or a `List` -/
  | make_void
  | make_plain (p : Plain)
  | make_list
  | copy_construct (o : Nat)
  | move_construct (o : Nat)
  | clone (p : Option Nat)
  | assign (dst : Nat) (val : Option Nat)
  | copy_assign (dst o : Nat)
  | move_assign (dst o : Nat)
  | set_member (a : Nat) (name : Str) (val : PlainVal)
  | set_object (a : Nat) (name : Str) (val : Option Nat)
  | set_plain (a : Nat) (key val_str : Str)
  | push_back (a : Nat) (name : Str) (m : Option Nat)
  | clear (p : Option Nat)
  | delete (p : Option Nat)

variable [DecidableEq K]

namespace Heap

/-- A call with fuel `n`. -/
def apply (n : Nat) (h : Heap K) : Op K → Steps (Heap K)
  | .construct clazz => return h.alloc (.object (.construct decl clazz))
  | .make_void => return h.alloc (.void [])
  | .make_plain p => return h.alloc (.plain p)
  | .make_list => return h.alloc (.list [] [])
  | .copy_construct o => do return (← h.copy_construct decl calls n o).1
  | .move_construct o => do return (← h.move_construct decl calls n o).1
  | .clone p => do return (← h.clone decl calls n p).1
  | .assign dst val => h.assign decl calls n dst val
  | .copy_assign dst o => h.copy_assign decl calls n dst o
  | .move_assign dst o => h.move_assign decl calls n dst o
  | .set_member a name val => h.set_member a name val
  | .set_object a name val => h.set_object decl calls n a name val
  | .set_plain a key val_str => h.set_plain decl calls a key val_str
  | .push_back a name m => h.push_back decl calls n a name m
  | .clear p => h.clear n p
  | .delete p => h.delete n p

end Heap

/-- A program that makes one call after another, each of which returns. An event is a
call with its fuel. -/
def machine : Machine (Heap K) (Nat × Op K) where
  init := .empty
  step h e := (h.apply decl calls e.1 e.2).toOption

end Rellaf.Models.Memory
