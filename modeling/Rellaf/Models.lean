/-
The data of `model.h`: plain values, lists and objects, and the member functions
that walk them.

A `Model` here is what a `Model*` of the source points to; `null` is the null
pointer. Calling a member function through a null pointer, or through a pointer
that was cast to a class the object does not have, has no meaning in C++ and ends
in `Fault.undefined`, so that a walk that could do it is seen to do it.

An object keeps its three member maps. The names its class declares for plain
members are class-level data (`_s_plain_names`) and separate from the instance's
own `_plains`; `is_plain_member` asks the class, `get_plain` the instance.
-/
import Rellaf.Cpp

set_option autoImplicit false

open Rellaf.Cpp

namespace Rellaf.Models

/-- `ModelTypeEnum`. The source compares items by their code; the codes are
pairwise different. -/
inductive ModelType where
  | no | CHAR | INT16 | INT | INT64 | UINT16 | UINT32 | UINT64 | BOOL | FLOAT | DOUBLE | STR
  | OBJECT | LIST
  deriving DecidableEq, Repr

/-- The `_val` of a `Plain<T>`, one constructor for each `T`. -/
inductive PlainVal where
  | CHAR (v : UInt8)
  | INT16 (v : Int16)
  | INT (v : Int32)
  | INT64 (v : Int64)
  | UINT16 (v : UInt16)
  | UINT32 (v : UInt32)
  | UINT64 (v : UInt64)
  | BOOL (v : Bool)
  | FLOAT (v : Float32)
  | DOUBLE (v : Float)
  | STR (v : Str)

/-- `Plain<T>`. `type` is `_type`: the kind of `T`, or `no` for a `Plain` built
from a pair of functions. An empty `std::function` is `none`. -/
structure Plain where
  tag : Str
  type : ModelType
  val : PlainVal
  parse_func : Option (Str → Run PlainVal)
  str_func : Option (PlainVal → Str)

/-- `Plain::str`. -/
def Plain.str (p : Plain) : Str :=
  match p.str_func with
  | some f => f p.val
  | none => []

/-- The data a class holds once for all its instances: its name and its plain
members with their defaults. -/
structure Clazz where
  name : Str
  plain_names : List (Str × Plain)

/-- What a `Model*` points to. -/
inductive Model where
  | null
  | void (tag : Str)
  | plain (p : Plain)
  | list (tag : Str) (items : List Model)
  | object (tag : Str) (clazz : Clazz) (plains : List (Str × Plain))
      (lists : List (Str × List Model)) (objects : List (Str × Model))

namespace Model

def rellaf_type : Model → Run ModelType
  | null => .error .undefined
  | void _ => .ok .no
  | plain p => .ok p.type
  | list _ _ => .ok .LIST
  | object _ _ _ _ _ => .ok .OBJECT

def rellaf_tag : Model → Run Str
  | null => .error .undefined
  | void tag => .ok tag
  | plain p => .ok p.tag
  | list tag _ => .ok tag
  | object tag _ _ _ _ => .ok tag

def is_plain (m : Model) : Run Bool := do
  let type ← m.rellaf_type
  return type ≠ .no && type ≠ .OBJECT && type ≠ .LIST

def is_list (m : Model) : Run Bool := do
  return (← m.rellaf_type) = .LIST

def is_object (m : Model) : Run Bool := do
  return (← m.rellaf_type) = .OBJECT

/-- The virtual `str()`. -/
def str : Model → Run Str
  | null => .error .undefined
  | plain p => .ok p.str
  | void _ | list _ _ | object _ _ _ _ _ => .ok []

/-! ## Through an `Object*` -/

def is_plain_member (m : Model) (key : Str) : Run Bool :=
  match m with
  | object _ clazz _ _ _ => .ok (clazz.plain_names.lookup key).isSome
  | _ => .error .undefined

def is_list_member (m : Model) (name : Str) : Run Bool :=
  match m with
  | object _ _ _ lists _ => .ok (lists.lookup name).isSome
  | _ => .error .undefined

def is_object_member (m : Model) (name : Str) : Run Bool :=
  match m with
  | object _ _ _ _ objects => .ok (objects.lookup name).isSome
  | _ => .error .undefined

/-- `get_plain(key)` reads `_plains.find(key)->second` once the class declares
the member, without asking whether the instance has it. -/
def get_plain (m : Model) (key : Str) : Run Model := do
  if !(← m.is_plain_member key) then return null
  match m with
  | object _ _ plains _ _ =>
    match plains.lookup key with
    | some p => return plain p
    | none => .error .undefined
  | _ => .error .undefined

/-- `get_list(name)` is `_lists.at(name)`. -/
def get_list (m : Model) (name : Str) : Run Model :=
  match m with
  | object _ _ _ lists _ =>
    match lists.lookup name with
    | some items => .ok (list [] items)
    | none => .error .exception
  | _ => .error .undefined

def get_object (m : Model) (name : Str) : Run Model :=
  match m with
  | object _ _ _ _ objects => .ok ((objects.lookup name).getD null)
  | _ => .error .undefined

/-! ## Through a `List*` -/

def items : Model → Run (List Model)
  | list _ items => .ok items
  | _ => .error .undefined

/-- `at(idx)`: null past the end. -/
def at_ (m : Model) (idx : Nat) : Run Model := do
  return (← m.items).getD idx null

end Model

end Rellaf.Models
