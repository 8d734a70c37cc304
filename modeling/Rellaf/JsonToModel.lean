/-
`json_to_model.cpp`: a model written as a JSON value, and a JSON value read into a
model that exists.

`Json` is what the sources use of `Json::Value`. Its conversions to integers throw
when the number does not fit; `is_numeric` says nothing about that. A model is read
by two walks at once, one down the value and one down the model, and only what both
have is touched.
-/
import Rellaf.Lib.MemberMap
import Rellaf.ModelTree

set_option autoImplicit false

open Rellaf.Cpp

namespace Rellaf.JsonToModel

/-- `Json::Value`. An object has one member of a name. -/
inductive Json where
  | null
  | bool (b : Bool)
  | int (v : Int64)
  | uint (v : UInt64)
  | real (v : Float)
  | str (s : Str)
  | array (items : List Json)
  | object (members : List (Str × Json))

namespace Json

def is_null : Json → Bool
  | null => true
  | _ => false

/-- `isNumeric()`, and `isDouble()`, which is the same. -/
def is_numeric : Json → Bool
  | int _ | uint _ | real _ => true
  | _ => false

def is_bool : Json → Bool
  | bool _ => true
  | _ => false

def is_string : Json → Bool
  | str _ => true
  | _ => false

/-- The number is between two integers. The upper bound may be no double, and then
the next integer is one. -/
def in_range (lo hi : Int) : Json → Bool
  | int v => decide (lo ≤ v.toInt ∧ v.toInt ≤ hi)
  | uint v => decide (lo ≤ v.toNat ∧ (v.toNat : Int) ≤ hi)
  | real v => decide (Float.ofInt lo ≤ v ∧ v ≤ Float.ofInt hi ∧ v < Float.ofInt (hi + 1))
  | _ => false

/-- The number without its fraction. -/
def trunc : Json → Int
  | int v => v.toInt
  | uint v => v.toNat
  | real v => if v < 0 then v.toInt64.toInt else v.toUInt64.toNat
  | _ => 0

/-- A conversion to an integer type: the number when it is in the range, else an
exception. The sources convert numbers only. -/
def as_integer (lo hi : Int) (json : Json) : Run Int :=
  if json.in_range lo hi then .ok json.trunc else .error .exception

def as_int (json : Json) : Run Int32 := do
  return Int32.ofInt (← json.as_integer (-2 ^ 31) (2 ^ 31 - 1))

def as_uint (json : Json) : Run UInt32 := do
  return UInt32.ofInt (← json.as_integer 0 (2 ^ 32 - 1))

def as_int64 (json : Json) : Run Int64 := do
  return Int64.ofInt (← json.as_integer (-2 ^ 63) (2 ^ 63 - 1))

def as_uint64 (json : Json) : Run UInt64 := do
  return UInt64.ofInt (← json.as_integer 0 (2 ^ 64 - 1))

/-- `asFloat()` of a number. -/
def as_float : Json → Float32
  | int v => Float32.ofInt v.toInt
  | uint v => Float32.ofInt v.toNat
  | real v => v.toFloat32
  | _ => 0

def as_bool : Json → Bool
  | bool b => b
  | _ => false

def as_string : Json → Str
  | str s => s
  | _ => []

end Json

open Models

/-! ## Writing -/

/-- The switch of `model_to_json_inner`. `UINT32` is read through a `Plain<int32_t>`,
which finds the same four bytes. -/
def plain_to_json (p : Plain) : Run Json :=
  match p.type, p.val with
  | .CHAR, .CHAR v => .ok (.int v.toInt8.toInt64)
  | .INT16, .INT16 v => .ok (.int v.toInt64)
  | .INT, .INT v => .ok (.int v.toInt64)
  | .INT64, .INT64 v => .ok (.int v)
  | .UINT16, .UINT16 v => .ok (.uint v.toUInt64)
  | .UINT32, .UINT32 v => .ok (.uint v.toInt32.toUInt32.toUInt64)
  | .UINT64, .UINT64 v => .ok (.uint v)
  | .BOOL, .BOOL v => .ok (.bool v)
  | .FLOAT, .FLOAT v => .ok (.real v.toFloat)
  | .DOUBLE, .DOUBLE v => .ok (.real v)
  | .STR, .STR v => .ok (.str v)
  | .no, _ => .ok .null
  -- a cast to a class the object does not have
  | _, _ => .error .undefined

def plains_to_json (plains : List (Str × Plain)) (members : List (Str × Json)) :
    Run (List (Str × Json)) :=
  plains.foldlM (fun members kp => do
    return MemberMap.put members kp.1 (← plain_to_json kp.2)) members

mutual

/-- `json` is null when the call is made, or an empty array for a list. -/
def model_to_json_inner : Model → Run Json
  | .null | .void _ => return .null
  | .plain p => plain_to_json p
  | .list _ items => do return .array (← items_to_json items)
  | .object _ _ plains lists objects => do
    let members ← plains_to_json plains []
    let members ← lists_to_json lists members
    let members ← objects_to_json objects members
    return .object members

/-- `json.append` for every item. -/
def items_to_json : List Model → Run (List Json)
  | [] => return []
  | m :: ms => do
    let item_node ← model_to_json_inner m
    return item_node :: (← items_to_json ms)

def lists_to_json : List (Str × List Model) → List (Str × Json) → Run (List (Str × Json))
  | [], members => return members
  | (k, items) :: lists, members => do
    let item_node ← items_to_json items
    lists_to_json lists (MemberMap.put members k (.array item_node))

def objects_to_json : List (Str × Model) → List (Str × Json) → Run (List (Str × Json))
  | [], members => return members
  | (k, m) :: objects, members => do
    let item_node ← model_to_json_inner m
    objects_to_json objects (MemberMap.put members k item_node)

end

/-! ## Reading -/

/-- `((Plain<T>*)model)->set(v)`, `v` being a `T`. -/
def set_plain (p : Plain) (v : PlainVal) : Run Plain :=
  if p.val.kind = v.kind then .ok { p with val := v } else .error .undefined

/-- `((Plain<float>*)model)->set(v)` on a `Plain<double>`: the four low bytes of the
value get the bits of `v`. -/
def set_low_bytes (p : Plain) (v : Float32) : Run Plain :=
  match p.val with
  | .DOUBLE d =>
    let bits := d.toBits >>> 32 <<< 32 ||| v.toBits.toUInt64
    .ok { p with val := .DOUBLE (Float.ofBits bits) }
  | _ => .error .undefined

/-- The switch of `json_to_model_inner`. -/
def json_to_plain (json : Json) (p : Plain) : Run Plain := do
  if json.is_null then return p
  match p.type with
  | .CHAR =>
    if json.is_numeric then set_plain p (.CHAR (← json.as_int).toInt8.toUInt8) else return p
  | .INT16 =>
    if json.is_numeric then set_plain p (.INT16 (← json.as_int).toInt16) else return p
  | .INT => if json.is_numeric then set_plain p (.INT (← json.as_int)) else return p
  | .INT64 => if json.is_numeric then set_plain p (.INT64 (← json.as_int64)) else return p
  | .UINT16 =>
    if json.is_numeric then set_plain p (.UINT16 (← json.as_uint).toUInt16) else return p
  | .UINT32 => if json.is_numeric then set_plain p (.UINT32 (← json.as_uint)) else return p
  | .UINT64 => if json.is_numeric then set_plain p (.UINT64 (← json.as_uint64)) else return p
  | .BOOL => if json.is_bool then set_plain p (.BOOL json.as_bool) else return p
  | .FLOAT => if json.is_numeric then set_plain p (.FLOAT json.as_float) else return p
  | .DOUBLE => if json.is_numeric then set_low_bytes p json.as_float else return p
  | .STR => if json.is_string then set_plain p (.STR json.as_string) else return p
  | .no | .OBJECT | .LIST => return p

/-- A member written through the pointer that `get_plain` returned, the reference
that `get_list` returned, or the pointer that `get_object` returned. -/
def put_plain (obj : Model) (key : Str) (m : Model) : Model :=
  match obj, m with
  | .object tag clazz plains lists objects, .plain p =>
    .object tag clazz (MemberMap.put plains key p) lists objects
  | obj, _ => obj

def put_list (obj : Model) (key : Str) (m : Model) : Model :=
  match obj, m with
  | .object tag clazz plains lists objects, .list _ items =>
    .object tag clazz plains (MemberMap.put lists key items) objects
  | obj, _ => obj

def put_object (obj : Model) (key : Str) (m : Model) : Model :=
  match obj with
  | .object tag clazz plains lists objects =>
    .object tag clazz plains lists (MemberMap.put objects key m)
  | obj => obj

mutual

def json_to_model_inner : Json → Model → Run Model
  | _, .null => return .null
  | json, .plain p => do return .plain (← json_to_plain json p)
  | .array items, .list tag list => do return .list tag (← json_to_items items list)
  | .object members, .object tag clazz plains lists objects =>
    json_to_members members (.object tag clazz plains lists objects)
  -- null, or a value of another kind
  | _, m => return m

/-- The loop over the list: `json[i]` is null from the end of the array on, and a null
makes the item null. -/
def json_to_items : List Json → List Model → Run (List Model)
  | [], list => return list.map fun _ => .null
  | _, [] => return []
  | json :: items, m :: list => do
    let m ← json_to_model_inner json (if json.is_null then .null else m)
    return m :: (← json_to_items items list)

/-- The loop over `getMemberNames()`. -/
def json_to_members : List (Str × Json) → Model → Run Model
  | [], obj => return obj
  | (json_key, json) :: members, obj => do
    if ← obj.is_plain_member json_key then
      let m ← json_to_model_inner json (← obj.get_plain json_key)
      json_to_members members (put_plain obj json_key m)
    else
      if ← obj.is_list_member json_key then
        let m ← json_to_model_inner json (← obj.get_list json_key)
        json_to_members members (put_list obj json_key m)
      else
        if ← obj.is_object_member json_key then
          let m ← json_to_model_inner json (← obj.get_object json_key)
          json_to_members members (put_object obj json_key m)
        else json_to_members members obj

end

/-- `json_to_model(json_str, model)`, with `parse` for the reader: the value returned
and the model. -/
def json_to_model (parse : Str → Option Json) (json_str : Str) (model : Model) :
    Run (Bool × Model) :=
  if json_str.isEmpty then .ok (true, model)
  else
    match parse json_str with
    | none => .ok (false, model)
    | some json => do return (true, ← json_to_model_inner json model)

end Rellaf.JsonToModel
