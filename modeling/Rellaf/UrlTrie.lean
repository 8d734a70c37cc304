/-
`UrlTrie`: the tree of registered routes, and the walk of a request down it.

A pattern is a list of segments, each a literal or a variable `{name}`; `Seg`
forgets the name, so a list of `Seg`s is the shape of a pattern and at the same
time the way to a node of the tree. A variable node is shared by all patterns that
come by, and keeps the name of the first.

What the tree holds is said by three observations at a shape: whether there is a
node (`has`), the name a pattern ends with there (`end_at`), and the name of the
variable below (`var_at`). Each has its equation for one `put` and, by induction
over the registrations, its reading of the whole history: a node for every prefix
of a registered shape, the *last* name at an end, the *first* name of a variable.
-/
import Rellaf.Lib.GreedyDescent
import Rellaf.Str

set_option autoImplicit false

open Rellaf.Cpp

namespace Rellaf.UrlTrie

/-! ## The tree -/

/-- `UrlTrieNode`. `nexts` is the map from literals to nodes, `none` where there is
no entry; `var` is `none` as long as its pointer is null. -/
structure UrlTrieNode where
  nexts : Str → Option UrlTrieNode
  var : Option (Str × UrlTrieNode)
  end_ : Bool
  name : Str

/-- `new UrlTrieNode()` -/
def UrlTrieNode.new : UrlTrieNode := ⟨fun _ => none, none, false, []⟩

/-- The test for `{` in front and `}` at the end; a section is not empty. -/
def is_var (section_ : Str) : Bool := section_.head? = some 123 && section_.getLast? = some 125

/-- The sections of a path have a front and a back, and these are what is tested. -/
theorem is_var_eq {path section_ : Str} (h : section_ ∈ Str.split path (lit "/")) :
    ∃ a b, front section_ = .ok a ∧ back section_ = .ok b ∧
      is_var section_ = (a == 123 && b == 125) := by
  have hne : section_ ≠ [] := Str.ne_nil_of_mem_split h
  obtain ⟨b, hback, hlast⟩ := back_ok_of_ne_nil hne
  cases section_ with
  | nil => exact absurd rfl hne
  | cons a s =>
    refine ⟨a, b, rfl, hback, ?_⟩
    rw [is_var, hlast, List.head?_cons]
    simp [beq_eq_decide]

/-- `section.substr(1, section.size() - 2)` -/
def var_name (section_ : Str) : Str := substr section_ 1 (some (section_.length - 2))

/-- The loop of `put` from a node on, and the end of the pattern behind it. -/
def put_sections (name : Str) : List Str → UrlTrieNode → UrlTrieNode
  | [], node => { node with end_ := true, name := name }
  | section_ :: sections, node =>
    if is_var section_ then
      match node.var with
      | none =>
        { node with var := some (var_name section_, put_sections name sections .new) }
      | some (var, next) => { node with var := some (var, put_sections name sections next) }
    else
      match node.nexts section_ with
      | some next =>
        { node with
          nexts := Function.update node.nexts section_ (some (put_sections name sections next)) }
      | none =>
        { node with
          nexts := Function.update node.nexts section_ (some (put_sections name sections .new)) }

/-- `put(path, name)`: the value returned and `_entrys`. -/
def put (_entrys : UrlTrieNode) (path name : Str) : Bool × UrlTrieNode :=
  let sections := Str.split path (lit "/")
  (!sections.isEmpty, put_sections name sections _entrys)

/-- The loop of `fetch_vars` from a node on: where it ends, `none` when it returns
false, and `vals`. -/
def fetch_sections : UrlTrieNode → List Str → Std.ExtTreeMap Str Str →
    Option UrlTrieNode × Std.ExtTreeMap Str Str
  | node, [], vals => (some node, vals)
  | node, section_ :: sections, vals =>
    match node.nexts section_ with
    | none =>
      match node.var with
      | some (var, next) => fetch_sections next sections (vals.insertIfNew var section_)
      | none => (none, vals)
    | some next => fetch_sections next sections vals

/-- `fetch_vars(path, name, vals)`: the value returned, `name` and `vals`. -/
def fetch_vars (_entrys : UrlTrieNode) (path name : Str) (vals : Std.ExtTreeMap Str Str) :
    Bool × Str × Std.ExtTreeMap Str Str :=
  match fetch_sections _entrys (Str.split path (lit "/")) vals with
  | (some node, vals) => if node.end_ then (true, node.name, vals) else (false, name, vals)
  | (none, vals) => (false, name, vals)

/-! ## Shapes -/

/-- A segment of a pattern without the name of its variable. -/
inductive Seg where
  | lit (s : Str)
  | var
  deriving DecidableEq, Repr

def seg (section_ : Str) : Seg := if is_var section_ then .var else .lit section_

/-- The shape of a pattern. -/
def shape (sections : List Str) : List Seg := sections.map seg

/-- The node at the end of a way, if there is one. -/
def node_at : UrlTrieNode → List Seg → Option UrlTrieNode
  | node, [] => some node
  | node, .lit s :: σ => (node.nexts s).bind fun next => node_at next σ
  | node, .var :: σ => node.var.bind fun entry => node_at entry.2 σ

/-- There is a node. -/
def has (node : UrlTrieNode) (σ : List Seg) : Bool := (node_at node σ).isSome

/-- The name of the pattern that ends there. -/
def end_at (node : UrlTrieNode) (σ : List Seg) : Option Str :=
  (node_at node σ).bind fun n => if n.end_ then some n.name else none

/-- The name of the variable below. -/
def var_at (node : UrlTrieNode) (σ : List Seg) : Option Str :=
  (node_at node σ).bind fun n => n.var.map Prod.fst

theorem node_at_append (node : UrlTrieNode) (σ τ : List Seg) :
    node_at node (σ ++ τ) = (node_at node σ).bind fun n => node_at n τ := by
  induction σ generalizing node with
  | nil => rfl
  | cons c σ ih =>
    cases c with
    | lit s =>
      rw [List.cons_append, node_at, node_at]
      cases node.nexts s with
      | none => rfl
      | some next => exact ih next
    | var =>
      rw [List.cons_append, node_at, node_at]
      cases node.var with
      | none => rfl
      | some entry => exact ih entry.2

theorem has_of_append {node : UrlTrieNode} {σ τ : List Seg} (h : has node (σ ++ τ) = true) :
    has node σ = true := by
  rw [has, node_at_append] at h
  rw [has]
  cases hnode : node_at node σ with
  | none => simp [hnode] at h
  | some n => rfl

/-! ## One registration -/

/-- A new node holds nothing below it. -/
theorem node_at_new (σ : List Seg) : node_at .new σ = if σ = [] then some .new else none := by
  cases σ with
  | nil => rfl
  | cons c σ => cases c <;> rfl

/-- The child of a node that a section leads to, a new one if there is none. -/
def child (node : UrlTrieNode) : Seg → UrlTrieNode
  | .lit s => (node.nexts s).getD .new
  | .var => (node.var.map Prod.snd).getD .new

/-- Below the section that is put, the tree is that of the child; elsewhere nothing
changes. -/
theorem node_at_put_cons (name section_ : Str) (sections : List Str) (node : UrlTrieNode)
    (c : Seg) (σ : List Seg) :
    node_at (put_sections name (section_ :: sections) node) (c :: σ) =
      if c = seg section_ then
        node_at (put_sections name sections (child node (seg section_))) σ
      else node_at node (c :: σ) := by
  rw [put_sections, seg]
  cases hvar : is_var section_ with
  | true =>
    rcases hentry : node.var with - | ⟨var, next⟩ <;> cases c <;>
      simp [node_at, child, hentry]
  | false =>
    -- the map changes at the section only, whether or not it had an entry there
    cases hnext : node.nexts section_ with
    | none =>
      cases c with
      | var => simp [node_at]
      | lit s =>
        by_cases hs : s = section_
        · subst hs
          simp [node_at, child, hnext]
        · simp [node_at, hs]
    | some next =>
      cases c with
      | var => simp [node_at]
      | lit s =>
        by_cases hs : s = section_
        · subst hs
          simp [node_at, child, hnext]
        · simp [node_at, hs]

/-- The nodes below a child are those of the tree; without a child there are none,
where the new node is. -/
theorem node_at_child (node : UrlTrieNode) (c : Seg) (σ : List Seg) :
    node_at (child node c) σ =
      if has node [c] then node_at node (c :: σ) else node_at .new σ := by
  cases c with
  | lit s => cases h : node.nexts s <;> simp [child, has, node_at, h]
  | var => cases h : node.var <;> simp [child, has, node_at, h]

theorem node_at_eq_none_of_not_has {node : UrlTrieNode} {σ : List Seg} (h : has node σ = false)
    (τ : List Seg) : node_at node (σ ++ τ) = none := by
  have hnone : node_at node σ = none := by simpa [has] using h
  rw [node_at_append, hnone, Option.bind_none]

@[simp] theorem end_at_new (σ : List Seg) : end_at .new σ = none := by
  rw [end_at, node_at_new]
  split <;> rfl

@[simp] theorem var_at_new (σ : List Seg) : var_at .new σ = none := by
  rw [var_at, node_at_new]
  split <;> rfl

theorem end_at_child (node : UrlTrieNode) (c : Seg) (σ : List Seg) :
    end_at (child node c) σ = end_at node (c :: σ) := by
  rw [end_at, end_at, node_at_child]
  cases hc : has node [c] with
  | true => rfl
  | false =>
    -- the child is a new node, and there is no way through it in the tree
    have hnone : node_at node (c :: σ) = none := node_at_eq_none_of_not_has hc σ
    rw [hnone, if_neg Bool.false_ne_true]
    exact end_at_new σ

theorem var_at_child (node : UrlTrieNode) (c : Seg) (σ : List Seg) :
    var_at (child node c) σ = var_at node (c :: σ) := by
  rw [var_at, var_at, node_at_child]
  cases hc : has node [c] with
  | true => rfl
  | false =>
    have hnone : node_at node (c :: σ) = none := node_at_eq_none_of_not_has hc σ
    rw [hnone, if_neg Bool.false_ne_true]
    exact var_at_new σ

theorem has_child (node : UrlTrieNode) (c : Seg) (σ : List Seg) :
    has (child node c) σ = true ↔ has node (c :: σ) = true ∨ σ = [] := by
  have hcons : has node (c :: σ) = true → has node [c] = true := by
    rw [← List.singleton_append]
    exact has_of_append
  rw [has, node_at_child]
  cases hc : has node [c] with
  | true =>
    rw [if_pos rfl]
    constructor
    · exact fun h => .inl h
    · rintro (h | rfl)
      · exact h
      · exact hc
  | false =>
    rw [if_neg Bool.false_ne_true, node_at_new]
    constructor
    · intro h
      by_cases hσ : σ = []
      · exact .inr hσ
      · simp [hσ] at h
    · rintro (h | rfl)
      · rw [hcons h] at hc
        cases hc
      · rfl

/-- The name of the variable at position `i`. -/
def var_name_at (sections : List Str) (i : Nat) : Option Str := sections[i]?.map var_name

/-- What is behind the root of the section's variable after a `put`. -/
theorem var_at_put_nil (name section_ : Str) (sections : List Str) (node : UrlTrieNode) :
    var_at (put_sections name (section_ :: sections) node) [] =
      (var_at node []).or (if seg section_ = .var then some (var_name section_) else none) := by
  rw [put_sections, seg]
  cases hvar : is_var section_ with
  | true => rcases hentry : node.var with - | ⟨var, next⟩ <;> simp [var_at, node_at, hentry]
  | false =>
    cases hnext : node.nexts section_ <;> cases hentry : node.var <;>
      simp [var_at, node_at, hentry]

theorem end_at_put_nil (name section_ : Str) (sections : List Str) (node : UrlTrieNode) :
    end_at (put_sections name (section_ :: sections) node) [] = end_at node [] := by
  rw [put_sections]
  cases hvar : is_var section_ with
  | true => rcases hentry : node.var with - | ⟨var, next⟩ <;> simp [end_at, node_at]
  | false => cases hnext : node.nexts section_ <;> simp [end_at, node_at]

/-- After a `put`, the name at the pattern's shape is the one put. -/
theorem end_at_put (name : Str) (sections : List Str) (node : UrlTrieNode) (σ : List Seg) :
    end_at (put_sections name sections node) σ =
      if σ = shape sections then some name else end_at node σ := by
  induction sections generalizing node σ with
  | nil =>
    cases σ with
    | nil => rfl
    | cons c σ => cases c <;> rfl
  | cons section_ sections ih =>
    cases σ with
    | nil => simp [end_at_put_nil, shape]
    | cons c σ =>
      have hcons : end_at (put_sections name (section_ :: sections) node) (c :: σ) =
          if c = seg section_ then
            end_at (put_sections name sections (child node (seg section_))) σ
          else end_at node (c :: σ) := by
        rw [end_at, node_at_put_cons]
        split <;> rfl
      rw [hcons, ih, end_at_child, shape, shape, List.map_cons]
      by_cases hc : c = seg section_
      · subst hc
        simp
      · simp [hc]

/-- After a `put`, a variable has the name it had, or the one the pattern gives it. -/
theorem var_at_put (name : Str) (sections : List Str) (node : UrlTrieNode) (σ : List Seg) :
    var_at (put_sections name sections node) σ =
      (var_at node σ).or
        (if σ ++ [.var] <+: shape sections then var_name_at sections σ.length else none) := by
  induction sections generalizing node σ with
  | nil =>
    have hnot : ¬ σ ++ [Seg.var] <+: shape [] := by simp [shape]
    rw [if_neg hnot, Option.or_none]
    cases σ with
    | nil => rfl
    | cons c σ => cases c <;> rfl
  | cons section_ sections ih =>
    cases σ with
    | nil =>
      rw [var_at_put_nil]
      simp [shape, var_name_at, eq_comm]
    | cons c σ =>
      have hcons : var_at (put_sections name (section_ :: sections) node) (c :: σ) =
          if c = seg section_ then
            var_at (put_sections name sections (child node (seg section_))) σ
          else var_at node (c :: σ) := by
        rw [var_at, node_at_put_cons]
        split <;> rfl
      rw [hcons, ih, var_at_child, shape, shape, List.map_cons, List.cons_append]
      by_cases hc : c = seg section_
      · -- the prefixes and the positions both lose their first section
        subst hc
        simp [List.cons_prefix_cons, var_name_at]
      · simp [List.cons_prefix_cons, hc]

/-- After a `put`, there are the nodes of before and those on the way. -/
theorem has_put (name : Str) (sections : List Str) (node : UrlTrieNode) (σ : List Seg) :
    has (put_sections name sections node) σ = true ↔
      has node σ = true ∨ σ <+: shape sections := by
  induction sections generalizing node σ with
  | nil =>
    cases σ with
    | nil => simp [has, node_at]
    | cons c σ => cases c <;> simp [has, node_at, put_sections, shape]
  | cons section_ sections ih =>
    cases σ with
    | nil => simp [has, node_at]
    | cons c σ =>
      have hcons : has (put_sections name (section_ :: sections) node) (c :: σ) =
          if c = seg section_ then
            has (put_sections name sections (child node (seg section_))) σ
          else has node (c :: σ) := by
        rw [has, node_at_put_cons]
        split <;> rfl
      rw [hcons, shape, List.map_cons, List.cons_prefix_cons]
      by_cases hc : c = seg section_
      · subst hc
        rw [if_pos rfl, ih, has_child]
        -- the end of the way is a prefix of what is left of the pattern
        constructor
        · rintro ((h | rfl) | h)
          · exact .inl h
          · exact .inr ⟨rfl, List.nil_prefix⟩
          · exact .inr ⟨rfl, h⟩
        · rintro (h | ⟨-, h⟩)
          · exact .inl (.inl h)
          · exact .inr h
      · rw [if_neg hc]
        simp [hc]

/-! ## All registrations -/

/-- The arguments of a call of `put`. -/
structure Put where
  path : Str
  name : Str
  deriving DecidableEq, Repr

def Put.sections (p : Put) : List Str := Str.split p.path (lit "/")

def Put.shape (p : Put) : List Seg := UrlTrie.shape p.sections

/-- An empty tree after the calls, the first one first. -/
def put_all (puts : List Put) : UrlTrieNode :=
  puts.foldl (fun _entrys p => (put _entrys p.path p.name).2) .new

/-- The name the last pattern of a shape was put with. -/
def last_name (puts : List Put) (σ : List Seg) : Option Str :=
  (puts.reverse.find? fun p => p.shape = σ).map Put.name

/-- The name the first pattern that goes on from `σ` with a variable gives to it. -/
def first_var (puts : List Put) (σ : List Seg) : Option Str :=
  puts.findSome? fun p => if σ ++ [.var] <+: p.shape then var_name_at p.sections σ.length else none

theorem put_all_concat (puts : List Put) (p : Put) :
    put_all (puts ++ [p]) = put_sections p.name p.sections (put_all puts) := by
  rw [put_all, List.foldl_append]
  rfl

theorem end_at_put_all (puts : List Put) (σ : List Seg) :
    end_at (put_all puts) σ = last_name puts σ := by
  induction puts using List.reverseRecOn with
  | nil => exact end_at_new σ
  | append_singleton puts p ih =>
    rw [put_all_concat, end_at_put, ih, last_name, last_name, List.reverse_append,
      List.reverse_singleton, List.singleton_append, List.find?_cons]
    by_cases hσ : σ = p.shape
    · -- the last pattern is the first one the search sees
      subst hσ
      simp [Put.shape]
    · have hshape : σ ≠ shape p.sections := hσ
      have hshape' : p.shape ≠ σ := fun h => hσ h.symm
      rw [if_neg hshape]
      simp [hshape']

theorem var_at_put_all (puts : List Put) (σ : List Seg) :
    var_at (put_all puts) σ = first_var puts σ := by
  induction puts using List.reverseRecOn with
  | nil => exact var_at_new σ
  | append_singleton puts p ih =>
    rw [put_all_concat, var_at_put, ih, first_var, first_var, List.findSome?_append,
      List.findSome?_singleton]
    rfl

theorem has_put_all (puts : List Put) (σ : List Seg) :
    has (put_all puts) σ = true ↔ σ = [] ∨ ∃ p ∈ puts, σ <+: p.shape := by
  induction puts using List.reverseRecOn with
  | nil =>
    rw [put_all, List.foldl_nil, has, node_at_new]
    by_cases hσ : σ = [] <;> simp [hσ]
  | append_singleton puts p ih =>
    rw [put_all_concat, has_put, ih]
    simp [or_assoc, or_and_right, exists_or, Put.shape]

end Rellaf.UrlTrie
