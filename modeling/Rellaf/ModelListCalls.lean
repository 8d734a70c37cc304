/-
Histories of calls on a list, against a sequence of deep copies.

The sequence is pure: it holds the contents of the models, a pop of the empty sequence
and a `set` past its end leave it as it is, and `at` past its end is null. A list
follows it as long as no empty list is popped and every model that it stores can be
cloned; the first call that breaks this is undefined or leaves other contents.
-/
import Rellaf.ModelList

set_option autoImplicit false

open Rellaf.Cpp

namespace Rellaf.Models

variable (to_string : PlainVal → Str)

/-- The contents of models, in a row. -/
abbrev Trees := List (ModelTree (ModelType × PlainVal))

/-- A call of a history. The models handed over are not the list's own. A pointer may be
null, which is `none`; a reference may not. -/
inductive Call where
  | push_front (model : Option Model)
  | push_back (model : Option Model)
  | push_front_ref (model : Model)
  | push_back_ref (model : Model)
  | pop_front
  | pop_back
  | set (idx : Nat) (model : Option Model)
  | at_ (idx : Nat)
  | clear
  | size

/-- What a call returns: nothing, the model that a pointer points to, a number. -/
inductive Answer where
  | none
  | model (tree : ModelTree (ModelType × PlainVal))
  | size (n : Nat)

namespace Call

/-- The models handed over. -/
def models : Call → List Model
  | push_front model | push_back model | set _ model => model.toList
  | push_front_ref model | push_back_ref model => [model]
  | pop_front | pop_back | at_ _ | clear | size => []

/-- What a pointer of the caller's points to. -/
def tree : Option Model → ModelTree (ModelType × PlainVal)
  | none => .null
  | some m => m.contents

/-- The call on a pure sequence: the sequence afterwards, and what is returned. -/
def act (s : Trees) : Call → Trees × Answer
  | push_front model => (tree model :: s, .none)
  | push_back model => (s ++ [tree model], .none)
  | push_front_ref model => (model.contents :: s, .none)
  | push_back_ref model => (s ++ [model.contents], .none)
  | pop_front => (s.tail, .none)
  | pop_back => (s.dropLast, .none)
  | set idx model => (s.set idx (tree model), .none)
  | at_ idx => (s, .model (s.getD idx .null))
  | clear => ([], .none)
  | size => (s, .size s.length)

/-- No empty list is popped, and what is stored can be cloned. -/
def Meets (s : Trees) : Call → Prop
  | push_front model | push_back model => ∀ m ∈ model, m.Copyable
  | push_front_ref model | push_back_ref model => model.Copyable
  | pop_front | pop_back => s ≠ []
  | set idx model => idx < s.length → ∀ m ∈ model, m.Copyable
  | at_ _ | clear | size => True

/-- Every call of the history meets the condition where it is made. -/
def MeetAll : Trees → List Call → Prop
  | _, [] => True
  | s, c :: cs => c.Meets s ∧ MeetAll (c.act s).1 cs

end Call

namespace ModelList

/-- A list that owns what its places point to. -/
abbrev Owned := { x : ModelList // x.Owns }

def pointer : Option Model → Pointer
  | none => .null
  | some m => .outside m

/-- The caller reads what a pointer that it got points to. -/
def look (x : ModelList) : Option Nat → Except Misuse (ModelTree (ModelType × PlainVal))
  | none => return .null
  | some a => do return (← x.read a).contents

def call (x : ModelList) : Call → Except Misuse (ModelList × Answer)
  | .push_front model => do return (← x.push_front to_string (pointer model), .none)
  | .push_back model => do return (← x.push_back to_string (pointer model), .none)
  | .push_front_ref model => do return (← x.push_front_ref to_string (.outside model), .none)
  | .push_back_ref model => do return (← x.push_back_ref to_string (.outside model), .none)
  | .pop_front => do return (← x.pop_front, .none)
  | .pop_back => do return (← x.pop_back, .none)
  | .set idx model => do return (← x.set to_string idx (pointer model), .none)
  | .at_ idx => do return (x, .model (← x.look (x.at_ idx)))
  | .clear => do return (← x.clear, .none)
  | .size => return (x, .size x.size)

/-- Every call of the history returns what it returns on the sequence, and leaves the
contents that it leaves there. -/
def Follows : ModelList → Trees → List Call → Prop
  | _, _, [] => True
  | x, s, c :: cs => ∃ x', x.call to_string c = .ok (x', (c.act s).2) ∧
      x'.contents = (c.act s).1 ∧ Follows x' (c.act s).1 cs

/-! ## One call -/

/-- The call returns, with these contents. -/
def Leaves (r : Except Misuse ModelList) (s : Trees) : Prop :=
  ∃ x', r = .ok x' ∧ x'.contents = s

/-- What returns is a list that owns. -/
def Keeps (r : Except Misuse ModelList) : Prop := ∀ x', r = .ok x' → x'.Owns

section call

variable {x : ModelList} {ps qs : List (Option Nat)}

theorem clone_outside_iff {m : Model} (hm : m.Proper Model.Typed) :
    (∃ c, x.clone to_string (.outside m) = .ok c ∧ c.contents = m.contents) ↔ m.Copyable := by
  obtain ⟨⟨hfrom, hto⟩, -⟩ := Model.clone_assign_ok to_string hm
  constructor
  · rintro ⟨c, hc, hcontents⟩
    obtain ⟨s, hclone⟩ := cloned_eq_ok.mp hc
    exact hfrom c s hclone hcontents
  · intro hcopyable
    obtain ⟨c, hclone, hcontents⟩ := hto hcopyable
    exact ⟨c, cloned_eq_ok.mpr ⟨m, hclone⟩, hcontents⟩

theorem keeps_insert (h : x.Holds (ps ++ qs)) (model : Pointer) :
    Keeps (do let m ← x.clone to_string model; return x.insert ps qs m) := by
  intro x' hx'
  obtain ⟨m, -, hx'⟩ := except_bind_eq_ok.mp hx'
  cases hx'
  exact (h.insert m).1

/-- A clone in a place of its own: the other places are what they were. -/
theorem leaves_insert_iff (h : x.Holds (ps ++ qs)) (model : Pointer)
    (t : ModelTree (ModelType × PlainVal)) :
    Leaves (do let m ← x.clone to_string model; return x.insert ps qs m)
        (x.contents_at ps ++ t :: x.contents_at qs) ↔
      ∃ m, x.clone to_string model = .ok m ∧ m.contents = t := by
  constructor
  · rintro ⟨x', hx', hcontents⟩
    obtain ⟨m, hm, hx'⟩ := except_bind_eq_ok.mp hx'
    cases hx'
    rw [(h.insert m).2, List.append_cancel_left_eq] at hcontents
    exact ⟨m, hm, (List.cons.inj hcontents).1⟩
  · rintro ⟨m, hm, rfl⟩
    refine ⟨x.insert ps qs m, ?_, (h.insert m).2⟩
    rw [hm]
    rfl

theorem leaves_clone_iff (h : x.Holds (ps ++ qs)) {m : Model} (hm : m.Proper Model.Typed) :
    Leaves (do let m ← x.clone to_string (.outside m); return x.insert ps qs m)
        (x.contents_at ps ++ m.contents :: x.contents_at qs) ↔ m.Copyable := by
  rw [leaves_insert_iff to_string h, clone_outside_iff to_string hm]

/-- A place of its own for a clone, or for a null. -/
def store (x : ModelList) (ps qs : List (Option Nat)) (model : Pointer) : Except Misuse ModelList :=
  match model with
  | .null => .ok { x with items := ps ++ none :: qs }
  | model => do
    let m ← x.clone to_string model
    return x.insert ps qs m

theorem store_of_ne_null {model : Pointer} (hmodel : model ≠ .null) :
    x.store to_string ps qs model =
      (do let m ← x.clone to_string model; return x.insert ps qs m) := by
  cases model with
  | null => exact absurd rfl hmodel
  | _ => rfl

theorem leaves_store_iff (h : x.Holds (ps ++ qs)) {model : Option Model}
    (hmodel : ∀ m ∈ model, m.Proper Model.Typed) :
    Leaves (x.store to_string ps qs (pointer model))
        (x.contents_at ps ++ Call.tree model :: x.contents_at qs) ↔
      ∀ m ∈ model, m.Copyable := by
  cases model with
  | none =>
    refine iff_of_true ⟨_, rfl, h.insert_null.2⟩ ?_
    exact fun m hm => absurd hm (Option.not_mem_none m)
  | some m =>
    have hclone := leaves_clone_iff to_string h (hmodel m rfl)
    exact hclone.trans ⟨fun hcopyable _ hm => Option.some.inj hm ▸ hcopyable, fun hall => hall m rfl⟩

theorem keeps_store (h : x.Holds (ps ++ qs)) (model : Pointer) :
    Keeps (x.store to_string ps qs model) := by
  by_cases hmodel : model = .null
  · subst hmodel
    rintro x' ⟨⟩
    exact h.insert_null.1
  · rw [store_of_ne_null to_string hmodel]
    exact keeps_insert to_string h model

theorem Owns.front (h : x.Owns) : x.Holds ([] ++ x.items) := h

theorem Owns.back (h : x.Owns) : x.Holds (x.items ++ []) := by rwa [List.append_nil]

theorem push_front_eq (x : ModelList) (model : Pointer) :
    x.push_front to_string model = x.store to_string [] x.items model := by
  cases model <;> rfl

theorem push_back_eq (x : ModelList) (model : Pointer) :
    x.push_back to_string model = x.store to_string x.items [] model := by
  cases model <;> rfl

/-- `pop_front` of an empty list is undefined. -/
theorem leaves_pop_front_iff (h : x.Owns) :
    Leaves x.pop_front x.contents.tail ↔ x.contents ≠ [] := by
  cases hitems : x.items with
  | nil =>
    have hempty : x.contents = [] := by rw [contents, hitems, List.map_nil]
    refine iff_of_false ?_ (not_not.mpr hempty)
    rintro ⟨x', hx', -⟩
    rw [pop_front, hitems] at hx'
    cases hx'
  | cons p ps =>
    have hplace : x.Holds ([] ++ p :: ps) := by rwa [Owns, hitems] at h
    have hcontents : x.contents = (x.model p).contents :: x.contents_at ps := by
      rw [contents, hitems, List.map_cons]
      rfl
    rw [hcontents]
    -- the model of the first place is alive, so the delete returns
    refine iff_of_true ⟨_, ?_, hplace.remove.2⟩ (List.cons_ne_nil _ _)
    rw [pop_front, hitems]
    simp only [hplace.delete]
    rfl

theorem leaves_pop_back_iff (h : x.Owns) :
    Leaves x.pop_back x.contents.dropLast ↔ x.contents ≠ [] := by
  rcases List.eq_nil_or_concat x.items with hitems | ⟨ps, p, hitems⟩
  · have hempty : x.contents = [] := by rw [contents, hitems, List.map_nil]
    refine iff_of_false ?_ (not_not.mpr hempty)
    rintro ⟨x', hx', -⟩
    rw [pop_back, hitems] at hx'
    cases hx'
  · rw [List.concat_eq_append] at hitems
    have hplace : x.Holds (ps ++ p :: []) := by rwa [Owns, hitems] at h
    have hcontents : x.contents = x.contents_at ps ++ [(x.model p).contents] := contents_eq hitems
    have hremoved := hplace.remove.2
    rw [List.append_nil] at hremoved
    rw [hcontents, List.dropLast_concat]
    refine iff_of_true ⟨_, ?_, hremoved⟩ (List.concat_ne_nil _ _)
    rw [pop_back, hitems, List.getLast?_concat, List.dropLast_concat]
    simp only [hplace.delete]
    rfl

theorem freed_items (x : ModelList) (p : Option Nat) : (x.freed p).items = x.items := by
  cases p <;> rfl

/-- What `set` does in range: the old model is deleted, and then the new one is stored. -/
theorem set_eq {p : Option Nat} (h : x.Owns) (hitems : x.items = ps ++ p :: qs)
    (model : Pointer) :
    x.set to_string ps.length model = (x.freed p).store to_string ps qs model := by
  have hplace : x.Holds (ps ++ p :: qs) := by rwa [Owns, hitems] at h
  have hget : x.items[ps.length]? = some p := by
    rw [hitems, List.getElem?_append_right le_rfl, Nat.sub_self]
    rfl
  -- the place is assigned twice, null in between
  have hset : ∀ q, (x.freed p).items.set ps.length q = ps ++ q :: qs := by
    intro q
    rw [freed_items, hitems, set_split rfl]
  have hin_place : (x.freed p).set_place to_string ps.length model =
      (x.freed p).store to_string ps qs model := by
    unfold store insert
    rw [← hset none, ← hset]
    cases model <;> rfl
  rw [set, hget, ← hin_place]
  simp only [hplace.delete]
  rfl

theorem contents_at_freed {p : Option Nat} (h : x.Holds (ps ++ p :: qs)) :
    (x.freed p).contents_at ps = x.contents_at ps ∧
      (x.freed p).contents_at qs = x.contents_at qs := by
  constructor
  · exact List.map_congr_left fun q hq =>
      congrArg Model.contents (h.model_freed (List.mem_append_left qs hq))
  · exact List.map_congr_left fun q hq =>
      congrArg Model.contents (h.model_freed (List.mem_append_right ps hq))

theorem leaves_set_iff (h : x.Owns) (idx : Nat) {model : Option Model}
    (hmodel : ∀ m ∈ model, m.Proper Model.Typed) :
    Leaves (x.set to_string idx (pointer model)) (x.contents.set idx (Call.tree model)) ↔
      (idx < x.contents.length → ∀ m ∈ model, m.Copyable) := by
  have hlength : x.contents.length = x.items.length := by rw [contents, List.length_map]
  cases hget : x.items[idx]? with
  | none =>
    -- out of range, nothing happens
    have hle : x.contents.length ≤ idx := by
      rw [hlength]
      exact List.getElem?_eq_none_iff.mp hget
    rw [set, hget, List.set_eq_of_length_le hle]
    exact iff_of_true ⟨x, rfl, rfl⟩ fun hlt => absurd hlt (by omega)
  | some p =>
    obtain ⟨ps, qs, hitems, rfl⟩ := exists_split hget
    have hplace : x.Holds (ps ++ p :: qs) := by rwa [Owns, hitems] at h
    have hcontents : x.contents =
        x.contents_at ps ++ (x.model p).contents :: x.contents_at qs := contents_eq hitems
    have hps : (x.contents_at ps).length = ps.length := by rw [contents_at, List.length_map]
    have hlt : ps.length < x.contents.length := by
      rw [hcontents, List.length_append, List.length_cons, hps]
      omega
    -- the delete changes no other place, and what is left is a store
    obtain ⟨hfreed_ps, hfreed_qs⟩ := contents_at_freed hplace
    have hset : x.contents.set ps.length (Call.tree model) =
        (x.freed p).contents_at ps ++ Call.tree model :: (x.freed p).contents_at qs := by
      rw [hcontents, set_split hps, hfreed_ps, hfreed_qs]
    rw [set_eq to_string h hitems, hset, imp_iff_right hlt]
    exact leaves_store_iff to_string hplace.freed hmodel

theorem leaves_clear (h : x.Owns) : Leaves x.clear [] := by
  obtain ⟨x', hclear, hitems, -⟩ := h.clear
  refine ⟨x', hclear, ?_⟩
  rw [contents, hitems, List.map_nil]

/-- `at(idx)` -/
theorem look_at (h : x.Owns) (idx : Nat) :
    x.look (x.at_ idx) = .ok (x.contents.getD idx .null) := by
  rw [at_, contents, List.getD_eq_getElem?_getD, List.getElem?_map]
  cases hget : x.items[idx]? with
  | none => rfl
  | some p =>
    cases p with
    | none => rfl
    | some a =>
      have hread : x.read a = .ok (x.model (some a)) := Holds.read h (List.mem_of_getElem? hget)
      show (do return (← x.read a).contents) = _
      rw [hread]
      rfl

/-! ## Ownership -/

theorem keeps_pop_front (h : x.Owns) : Keeps x.pop_front := by
  intro x' hx'
  unfold pop_front at hx'
  split at hx'
  case h_1 => cases hx'
  case h_2 p ps hitems =>
    have hplace : x.Holds ([] ++ p :: ps) := by rwa [Owns, hitems] at h
    rw [hplace.delete] at hx'
    cases hx'
    exact hplace.remove.1

theorem keeps_pop_back (h : x.Owns) : Keeps x.pop_back := by
  intro x' hx'
  rcases List.eq_nil_or_concat x.items with hitems | ⟨ps, p, hitems⟩
  · rw [pop_back, hitems] at hx'
    cases hx'
  · rw [List.concat_eq_append] at hitems
    have hplace : x.Holds (ps ++ p :: []) := by rwa [Owns, hitems] at h
    have hremoved := hplace.remove.1
    rw [List.append_nil] at hremoved
    rw [pop_back, hitems, List.getLast?_concat, List.dropLast_concat] at hx'
    simp only [hplace.delete] at hx'
    cases hx'
    exact hremoved

theorem keeps_set (h : x.Owns) (idx : Nat) (model : Pointer) :
    Keeps (x.set to_string idx model) := by
  intro x' hx'
  cases hget : x.items[idx]? with
  | none =>
    rw [set, hget] at hx'
    cases hx'
    exact h
  | some p =>
    obtain ⟨ps, qs, hitems, rfl⟩ := exists_split hget
    have hplace : x.Holds (ps ++ p :: qs) := by rwa [Owns, hitems] at h
    rw [set_eq to_string h hitems] at hx'
    exact keeps_store to_string hplace.freed model x' hx'

theorem keeps_clear (h : x.Owns) : Keeps x.clear := by
  intro x' hx'
  obtain ⟨x'', hclear, hitems, hheld⟩ := h.clear
  rw [hclear] at hx'
  cases hx'
  rwa [Owns, hitems]

theorem owns_call (h : x.Owns) (c : Call) {x' : ModelList} {answer : Answer}
    (hcall : x.call to_string c = .ok (x', answer)) : x'.Owns := by
  have hstate : ∀ {r : Except Misuse ModelList}, Keeps r →
      (do return (← r, Answer.none)) = .ok (x', answer) → x'.Owns := by
    intro r hkeeps hr
    obtain ⟨x'', hx'', hr⟩ := except_bind_eq_ok.mp hr
    cases hr
    exact hkeeps x' hx''
  cases c with
  | push_front model =>
    rw [call, push_front_eq] at hcall
    exact hstate (keeps_store to_string h.front _) hcall
  | push_back model =>
    rw [call, push_back_eq] at hcall
    exact hstate (keeps_store to_string h.back _) hcall
  | push_front_ref model => exact hstate (keeps_insert to_string h.front _) hcall
  | push_back_ref model => exact hstate (keeps_insert to_string h.back _) hcall
  | pop_front => exact hstate (keeps_pop_front h) hcall
  | pop_back => exact hstate (keeps_pop_back h) hcall
  | set idx model => exact hstate (keeps_set to_string h idx _) hcall
  | at_ idx =>
    obtain ⟨tree, -, hcall⟩ := except_bind_eq_ok.mp hcall
    cases hcall
    exact h
  | clear => exact hstate (keeps_clear h) hcall
  | size =>
    cases hcall
    exact h

/-! ## Histories -/

theorem call_iff (h : x.Owns) {c : Call} (hc : ∀ m ∈ c.models, m.Proper Model.Typed) :
    (∃ x', x.call to_string c = .ok (x', (c.act x.contents).2) ∧
      x'.contents = (c.act x.contents).1) ↔ c.Meets x.contents := by
  have hstate : ∀ {r : Except Misuse ModelList} {s : Trees},
      (∃ x', (do return (← r, Answer.none)) = Except.ok (x', Answer.none) ∧ x'.contents = s) ↔
        Leaves r s := by
    intro r s
    refine exists_congr fun x' => and_congr_left fun _ => ?_
    cases r with
    | error misuse => exact ⟨nofun, nofun⟩
    | ok x'' => exact ⟨fun h => by cases h; rfl, fun h => by cases h; rfl⟩
  cases c with
  | push_front model =>
    rw [call, push_front_eq]
    exact hstate.trans (leaves_store_iff to_string h.front fun m hm => hc m (Option.mem_toList.mpr hm))
  | push_back model =>
    rw [call, push_back_eq]
    exact hstate.trans (leaves_store_iff to_string h.back fun m hm => hc m (Option.mem_toList.mpr hm))
  | push_front_ref model =>
    exact hstate.trans (leaves_clone_iff to_string h.front (hc model List.mem_cons_self))
  | push_back_ref model =>
    exact hstate.trans (leaves_clone_iff to_string h.back (hc model List.mem_cons_self))
  | pop_front => exact hstate.trans (leaves_pop_front_iff h)
  | pop_back => exact hstate.trans (leaves_pop_back_iff h)
  | set idx model =>
    exact hstate.trans (leaves_set_iff to_string h idx fun m hm => hc m (Option.mem_toList.mpr hm))
  | at_ idx =>
    refine iff_of_true ⟨x, ?_, rfl⟩ trivial
    show (do return (x, Answer.model (← x.look (x.at_ idx)))) = _
    rw [look_at h]
    rfl
  | clear => exact hstate.trans (iff_of_true (leaves_clear h) trivial)
  | size =>
    refine iff_of_true ⟨x, ?_, rfl⟩ trivial
    have hsize : x.size = x.contents.length := by rw [size, contents, List.length_map]
    exact congrArg (fun n => Except.ok (x, Answer.size n)) hsize

end call

/-- **When a list is a sequence of deep copies.** In any history of calls, whatever the
list held before, each call returns what it returns on the pure sequence and leaves the
contents that it leaves there, exactly if no call pops an empty list and every model that
a call stores can be cloned. -/
theorem follows_iff (x : Owned) (cs : List Call)
    (hcs : ∀ c ∈ cs, ∀ m ∈ c.models, m.Proper Model.Typed) :
    x.1.Follows to_string x.1.contents cs ↔ Call.MeetAll x.1.contents cs := by
  obtain ⟨x, h⟩ := x
  -- ownership is what one call hands on to the next
  induction cs generalizing x with
  | nil => exact Iff.rfl
  | cons c cs ih =>
    obtain ⟨hc, hcs⟩ := List.forall_mem_cons.mp hcs
    rw [Call.MeetAll, ← call_iff to_string h hc]
    constructor
    · rintro ⟨x', hcall, hcontents, hrest⟩
      refine ⟨⟨x', hcall, hcontents⟩, ?_⟩
      have htail := ih hcs x' (owns_call to_string h c hcall)
      rw [hcontents] at htail
      exact htail.mp hrest
    · rintro ⟨⟨x', hcall, hcontents⟩, hrest⟩
      refine ⟨x', hcall, hcontents, ?_⟩
      have htail := ih hcs x' (owns_call to_string h c hcall)
      rw [hcontents] at htail
      exact htail.mpr hrest

/-- A model is pushed, replaced by a null and taken out again. -/
theorem follows_iff_void :
    new.Follows (fun _ => []) new.contents
        [.push_back (some (.void [])), .set 0 none, .at_ 0, .pop_front, .size] ↔
      Call.MeetAll new.contents
        [.push_back (some (.void [])), .set 0 none, .at_ 0, .pop_front, .size] := by
  have hvoid : (Model.void []).Proper Model.Typed := .void trivial
  exact follows_iff (fun _ => []) ⟨new, owns_new⟩
    [.push_back (some (.void [])), .set 0 none, .at_ 0, .pop_front, .size]
    (by simp [Call.models, hvoid])

/-- `pop_front` on a new list. -/
theorem pop_front_empty :
    ¬ ∀ (to_string : PlainVal → Str) (x : Owned) (cs : List Call),
      (∀ c ∈ cs, ∀ m ∈ c.models, m.Proper Model.Typed) →
        x.1.Follows to_string x.1.contents cs := by
  intro hall
  have hnone : ∀ c ∈ [Call.pop_front], ∀ m ∈ c.models, m.Proper Model.Typed := by
    simp [Call.models]
  obtain ⟨x', hcall, -⟩ := hall (fun _ => []) ⟨new, owns_new⟩ [.pop_front] hnone
  cases hcall

end ModelList

end Rellaf.Models
