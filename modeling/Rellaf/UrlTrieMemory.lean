/-
`UrlTrie` in memory: nodes that are made by `new`, hold pointers to one another and are
deleted by `clear`.

A walk along a shape says where a node is (`Memory.follow`). While patterns are put, no two
shapes lead to one node and every node is on a walk (`Memory.Whole`), and the nodes are those
of the tree that `UrlTrie.put` makes (`View`). So `put` and `fetch_vars` read no pointer that
is null or to a deleted node, and do what they do on trees (`memory_refines_tree`).

What `clear` deletes of them is in `UrlTrieClear`.
-/
import Rellaf.Lib.MemberMap
import Rellaf.UrlRoutes

set_option autoImplicit false

open Rellaf.Cpp

namespace Rellaf.UrlTrie

/-! ## Nodes in memory -/

/-- A `UrlTrieNode` with its pointers. -/
structure Cell where
  nexts : List (Str × Option Nat)
  var : Str × Option Nat
  end_ : Bool
  name : Str
  deriving DecidableEq, Repr

def Cell.new : Cell := ⟨[], ([], none), false, []⟩

/-- The nodes by their addresses. `next` is the address that the next `new` gives; that of a
deleted node is not given out again. -/
structure Memory where
  cells : Nat → Option Cell
  next : Nat

namespace Memory

variable (m : Memory)

/-- The node at `p`, for one of its members. -/
def read (p : Option Nat) : Run Cell :=
  match p.bind m.cells with
  | none => .error .undefined
  | some c => .ok c

/-- An assignment to members of the node at `p`. -/
def write (p : Option Nat) (f : Cell → Cell) : Run Memory :=
  match p with
  | none => .error .undefined
  | some a =>
    match m.cells a with
    | none => .error .undefined
    | some c => .ok { m with cells := Function.update m.cells a (some (f c)) }

/-- `new UrlTrieNode()` -/
def alloc : Memory × Nat :=
  (⟨Function.update m.cells m.next (some .new), m.next + 1⟩, m.next)

/-- `delete p` -/
def delete (p : Option Nat) : Run Memory :=
  match p with
  | none => .ok m
  | some a =>
    if (m.cells a).isSome then .ok { m with cells := Function.update m.cells a none }
    else .error .undefined

/-- `_entrys`, which is a member of the trie, before the first `put`. -/
def start : Memory := ⟨fun a => if a = 0 then some .new else none, 1⟩

/-- The loop of `put` with `node`, and the end behind it. -/
def put_sections (name : Str) : List Str → Option Nat → Memory → Run Memory
  | [], node, m =>
    if node.isSome then m.write node fun c => { c with end_ := true, name := name } else return m
  | section_ :: sections, node, m => do
    let c ← m.read node
    if is_var section_ then
      if c.var.2.isNone then
        let (m, next) := m.alloc
        let m ← m.write node fun c => { c with var := (var_name section_, some next) }
        put_sections name sections (some next) m
      else put_sections name sections c.var.2 m
    else
      match c.nexts.lookup section_ with
      | some next => put_sections name sections next m
      | none =>
        let (m, next) := m.alloc
        let m ← m.write node fun c => { c with nexts := c.nexts ++ [(section_, some next)] }
        put_sections name sections (some next) m

/-- `put(path, name)`: the value returned and the nodes. -/
def put (path name : Str) : Run (Bool × Memory) := do
  let sections := Str.split path (lit "/")
  return (!sections.isEmpty, ← put_sections name sections (some 0) m)

/-- The calls of `put`, the first one first. -/
def put_all (puts : List Put) : Run Memory :=
  puts.foldlM (fun m p => do return (← m.put p.path p.name).2) start

/-- The loop of `fetch_vars` with `node`: where it ends, `none` when it returns false, and
`vals`. -/
def fetch_sections : List Str → Option Nat → Std.ExtTreeMap Str Str →
    Run (Option (Option Nat) × Std.ExtTreeMap Str Str)
  | [], node, vals => return (some node, vals)
  | section_ :: sections, node, vals => do
    let c ← m.read node
    match c.nexts.lookup section_ with
    | none =>
      if c.var.2.isSome then
        fetch_sections sections c.var.2 (vals.insertIfNew c.var.1 section_)
      else return (none, vals)
    | some next => fetch_sections sections next vals

/-- `fetch_vars(path, name, vals)`: the value returned, `name` and `vals`. -/
def fetch_vars (path name : Str) (vals : Std.ExtTreeMap Str Str) :
    Run (Bool × Str × Std.ExtTreeMap Str Str) := do
  let (node, vals) ← m.fetch_sections (Str.split path (lit "/")) (some 0) vals
  match node with
  | none => return (false, name, vals)
  | some node =>
    let c ← m.read node
    if c.end_ then return (true, c.name, vals) else return (false, name, vals)

/-- `clear(node)`. The calls inside go down by one level; `fuel` bounds the levels. The loop
goes through the entries in the order in which they came. -/
def clear : (fuel : Nat) → Option Nat → Memory → Run Memory
  | _, none, m => return m
  | 0, some _, _ => .error .undefined
  | fuel + 1, some node, m => do
    let c ← m.read (some node)
    let m ← c.nexts.foldlM (fun m entry => do
      let m ← clear fuel entry.2 m
      let m ← m.delete entry.2
      m.write (some node) fun c => { c with nexts := MemberMap.put c.nexts entry.1 none }) m
    let m ← m.write (some node) fun c => { c with nexts := [] }
    let c ← m.read (some node)
    let m ← m.delete c.var.2
    m.write (some node) fun c => { c with var := ([], none) }

/-! ## Where the nodes are -/

/-- The pointer of a node for a segment. -/
def child (a : Nat) (c : Seg) : Option Nat :=
  (m.cells a).bind fun cell =>
    match c with
    | .lit s => (cell.nexts.lookup s).join
    | .var => cell.var.2

/-- The walk along a shape. -/
def follow : Nat → List Seg → Option Nat
  | a, [] => some a
  | a, c :: σ => (m.child a c).bind fun b => follow b σ

/-- The name of the pattern that ends at a shape. -/
def end_name (σ : List Seg) : Option Str :=
  ((m.follow 0 σ).bind m.cells).bind fun c => if c.end_ then some c.name else none

/-- The name of the variable below a shape. -/
def var_below (σ : List Seg) : Option Str :=
  ((m.follow 0 σ).bind m.cells).bind fun c => c.var.2.map fun _ => c.var.1

variable {m}

theorem follow_append (a : Nat) (σ τ : List Seg) :
    m.follow a (σ ++ τ) = (m.follow a σ).bind fun b => m.follow b τ := by
  induction σ generalizing a with
  | nil => rfl
  | cons c σ ih =>
    rw [List.cons_append, follow, follow]
    cases m.child a c with
    | none => rfl
    | some b => exact ih b

theorem follow_concat (a : Nat) (σ : List Seg) (c : Seg) :
    m.follow a (σ ++ [c]) = (m.follow a σ).bind fun b => m.child b c := by
  rw [follow_append]
  cases m.follow a σ with
  | none => rfl
  | some b =>
    rw [Option.bind_some, Option.bind_some, follow]
    cases m.child b c <;> rfl

theorem follow_isSome_of_append {a : Nat} {σ τ : List Seg} (h : σ <+: τ)
    (hτ : (m.follow a τ).isSome = true) : (m.follow a σ).isSome = true := by
  obtain ⟨ρ, rfl⟩ := h
  rw [follow_append] at hτ
  cases hσ : m.follow a σ with
  | none =>
    rw [hσ] at hτ
    cases hτ
  | some b => rfl

/-- A node in use: its map has one entry for a key, and no null pointers. -/
def Sound (m : Memory) (b : Nat) : Prop :=
  ∃ c, m.cells b = some c ∧ (c.nexts.map Prod.fst).Nodup ∧ ∀ s, c.nexts.lookup s ≠ some none

/-- The nodes below a node are a tree. -/
structure Shaped (m : Memory) (a : Nat) : Prop where
  sound : ∀ σ b, m.follow a σ = some b → m.Sound b
  inj : ∀ σ τ b, m.follow a σ = some b → m.follow a τ = some b → σ = τ

/-- All the nodes are the tree of `_entrys`. -/
structure Whole (m : Memory) : Prop extends m.Shaped 0 where
  below_next : ∀ b, (m.cells b).isSome = true → b < m.next
  reached : ∀ b, (m.cells b).isSome = true → ∃ σ, m.follow 0 σ = some b

/-- A literal leads somewhere where the map has an entry. -/
theorem Sound.lookup {b : Nat} {c : Cell} (h : m.Sound b) (hc : m.cells b = some c) (s : Str) :
    c.nexts.lookup s = (m.child b (.lit s)).map some := by
  obtain ⟨c', hc', -, hnull⟩ := h
  obtain rfl : c' = c := Option.some.inj (hc'.symm.trans hc)
  rw [child, hc, Option.bind_some]
  dsimp only
  cases hlookup : c'.nexts.lookup s with
  | none => rfl
  | some next =>
    cases next with
    | none => exact absurd hlookup (hnull s)
    | some q => rfl

theorem child_var {b : Nat} {c : Cell} (hc : m.cells b = some c) : m.child b .var = c.var.2 := by
  rw [child, hc]
  rfl

theorem whole_start : start.Whole := by
  have hchild : ∀ b c, start.child b c = none := by
    intro b c
    rw [child, start]
    dsimp only
    split
    · cases c <;> rfl
    · rfl
  have hfollow : ∀ σ b, start.follow 0 σ = some b → σ = [] ∧ b = 0 := by
    intro σ b h
    cases σ with
    | nil => exact ⟨rfl, (Option.some.inj h).symm⟩
    | cons c σ =>
      rw [follow, hchild] at h
      cases h
  have hcells : ∀ b, (start.cells b).isSome = true → b = 0 := by
    intro b hb
    rw [start] at hb
    dsimp only at hb
    split at hb
    · assumption
    · cases hb
  refine ⟨⟨?_, ?_⟩, ?_, ?_⟩
  · intro σ b h
    obtain ⟨-, rfl⟩ := hfollow σ b h
    exact ⟨.new, rfl, List.nodup_nil, by rintro s ⟨⟩⟩
  · intro σ τ b hσ hτ
    rw [(hfollow σ b hσ).1, (hfollow τ b hτ).1]
  · intro b hb
    rw [hcells b hb]
    exact Nat.one_pos
  · intro b hb
    rw [hcells b hb]
    exact ⟨[], rfl⟩

/-! ## A new node -/

/-- The memory with a new node at `a` for the segment: `f` puts the pointer there. -/
def grow (m : Memory) (a : Nat) (f : Cell → Cell) (cell : Cell) : Memory :=
  ⟨Function.update (Function.update m.cells m.next (some .new)) a (some (f cell)), m.next + 1⟩

theorem write_alloc {a : Nat} {cell : Cell} (hcell : m.cells a = some cell) (hne : a ≠ m.next)
    (f : Cell → Cell) : m.alloc.1.write (some a) f = .ok (m.grow a f cell) := by
  have hread : m.alloc.1.cells a = some cell := by
    exact (Function.update_of_ne hne _ _).trans hcell
  simp only [write, hread]
  rfl

section grow

variable {a : Nat} {σ : List Seg} {s : Seg} {cell : Cell} {f : Cell → Cell}

theorem grow_cells_next (hne : a ≠ m.next) : (m.grow a f cell).cells m.next = some .new :=
  (Function.update_of_ne hne.symm _ _).trans (Function.update_self ..)

theorem grow_cells_self : (m.grow a f cell).cells a = some (f cell) :=
  Function.update_self ..

theorem grow_cells_of_ne {b : Nat} (ha : b ≠ a) (hnext : b ≠ m.next) :
    (m.grow a f cell).cells b = m.cells b :=
  (Function.update_of_ne ha _ _).trans (Function.update_of_ne hnext _ _)

theorem Whole.lt_next (h : m.Whole) {τ : List Seg} {b : Nat} (hb : m.follow 0 τ = some b) :
    b < m.next := by
  obtain ⟨c, hc, -⟩ := h.sound τ b hb
  exact h.below_next b (by rw [hc]; rfl)

/-- The pointer of the new node is the only one that is new. -/
structure Grows (m : Memory) (a : Nat) (s : Seg) (f : Cell → Cell) (cell : Cell) : Prop where
  cell_at : m.cells a = some cell
  child_none : m.child a s = none
  child_grow : ∀ d, (m.grow a f cell).child a d = if d = s then some m.next else m.child a d
  sound : (m.grow a f cell).Sound a
  same_end : (f cell).end_ = cell.end_ ∧ (f cell).name = cell.name
  same_var : s ≠ .var → (f cell).var.1 = cell.var.1

/-- The walks after `new`: one leads to the new node, and all others lead where they led. -/
theorem Grows.follow (hg : m.Grows a s f cell) (h : m.Whole) (ha : m.follow 0 σ = some a)
    (τ : List Seg) : (m.grow a f cell).follow 0 τ =
      if τ = σ ++ [s] then some m.next else m.follow 0 τ := by
  have hne : a ≠ m.next := (h.lt_next ha).ne
  have hσs : m.follow 0 (σ ++ [s]) = none := by
    rw [follow_concat, ha, Option.bind_some, hg.child_none]
  induction τ using List.reverseRecOn with
  | nil => rw [if_neg (by simp)]; rfl
  | append_singleton τ d ih =>
    rw [follow_concat, ih]
    by_cases hτ : τ = σ ++ [s]
    · -- behind the new node there is nothing
      subst hτ
      have hnone : (m.grow a f cell).child m.next d = none := by
        rw [child, grow_cells_next hne]
        cases d <;> rfl
      rw [if_pos rfl, Option.bind_some, hnone, if_neg (by simp), follow_append, hσs,
        Option.bind_none]
    · rw [if_neg hτ, follow_concat]
      cases hb : m.follow 0 τ with
      | none =>
        rw [Option.bind_none, Option.bind_none, if_neg]
        intro heq
        obtain ⟨rfl, -⟩ := List.append_inj' heq rfl
        rw [ha] at hb
        cases hb
      | some b =>
        rw [Option.bind_some, Option.bind_some]
        by_cases hba : b = a
        · subst hba
          obtain rfl := h.inj τ σ b hb ha
          rw [hg.child_grow]
          simp
        · have hneq : ¬ τ ++ [d] = σ ++ [s] := by
            intro heq
            obtain ⟨rfl, -⟩ := List.append_inj' heq rfl
            exact hba (Option.some.inj (hb.symm.trans ha))
          rw [if_neg hneq, child, child, grow_cells_of_ne hba (h.lt_next hb).ne]

theorem Grows.whole (hg : m.Grows a s f cell) (h : m.Whole) (ha : m.follow 0 σ = some a) :
    (m.grow a f cell).Whole := by
  have hne : a ≠ m.next := (h.lt_next ha).ne
  have hfollow := hg.follow h ha
  refine ⟨⟨?_, ?_⟩, ?_, ?_⟩
  · intro τ b hb
    rw [hfollow] at hb
    split at hb
    · obtain rfl := Option.some.inj hb
      exact ⟨.new, grow_cells_next hne, List.nodup_nil, by rintro s ⟨⟩⟩
    · by_cases hba : b = a
      · rw [hba]
        exact hg.sound
      · obtain ⟨c, hc, hrest⟩ := h.sound τ b hb
        exact ⟨c, by rw [grow_cells_of_ne hba (h.lt_next hb).ne, hc], hrest⟩
  · intro τ ρ b hτ hρ
    rw [hfollow] at hτ hρ
    split at hτ <;> split at hρ
    · simp_all
    · obtain rfl := Option.some.inj hτ
      exact absurd rfl (h.lt_next hρ).ne
    · obtain rfl := Option.some.inj hρ
      exact absurd rfl (h.lt_next hτ).ne
    · exact h.inj τ ρ b hτ hρ
  · intro b hb
    show b < m.next + 1
    by_cases hnext : b = m.next
    · omega
    · by_cases hba : b = a
      · have hlt := h.lt_next ha
        omega
      · rw [grow_cells_of_ne hba hnext] at hb
        have hlt := h.below_next b hb
        omega
  · intro b hb
    by_cases hnext : b = m.next
    · exact ⟨σ ++ [s], by rw [hfollow, if_pos rfl, hnext]⟩
    · have hold : ∃ τ, m.follow 0 τ = some b := by
        by_cases hba : b = a
        · exact ⟨σ, by rw [hba, ha]⟩
        · rw [grow_cells_of_ne hba hnext] at hb
          exact h.reached b hb
      obtain ⟨τ, hτ⟩ := hold
      refine ⟨τ, ?_⟩
      rw [hfollow, if_neg, hτ]
      rintro rfl
      rw [follow_concat, ha, Option.bind_some, hg.child_none] at hτ
      cases hτ

/-- The ends of the patterns are where they were. -/
theorem Grows.end_name (hg : m.Grows a s f cell) (h : m.Whole) (ha : m.follow 0 σ = some a)
    (τ : List Seg) : (m.grow a f cell).end_name τ = m.end_name τ := by
  have hne : a ≠ m.next := (h.lt_next ha).ne
  rw [Memory.end_name, Memory.end_name, hg.follow h ha]
  by_cases hτ : τ = σ ++ [s]
  · have hold : m.follow 0 τ = none := by
      rw [hτ, follow_concat, ha, Option.bind_some, hg.child_none]
    rw [if_pos hτ, hold, Option.bind_some, grow_cells_next hne]
    rfl
  · rw [if_neg hτ]
    cases hb : m.follow 0 τ with
    | none => rfl
    | some b =>
      rw [Option.bind_some, Option.bind_some]
      by_cases hba : b = a
      · subst hba
        rw [grow_cells_self, hg.cell_at, Option.bind_some, Option.bind_some, hg.same_end.1,
          hg.same_end.2]
      · rw [grow_cells_of_ne hba (h.lt_next hb).ne]

/-- The variables have the names they had, and a new one has its own. -/
theorem Grows.var_below (hg : m.Grows a s f cell) (h : m.Whole) (ha : m.follow 0 σ = some a)
    (τ : List Seg) : (m.grow a f cell).var_below τ =
      (m.var_below τ).or (if τ = σ ∧ s = .var then some (f cell).var.1 else none) := by
  have hne : a ≠ m.next := (h.lt_next ha).ne
  rw [Memory.var_below, Memory.var_below, hg.follow h ha]
  by_cases hτ : τ = σ ++ [s]
  · have hold : m.follow 0 τ = none := by
      rw [hτ, follow_concat, ha, Option.bind_some, hg.child_none]
    have hτσ : ¬ (τ = σ ∧ s = .var) := by
      rintro ⟨heq, -⟩
      rw [heq] at hτ
      simp at hτ
    rw [if_pos hτ, hold, Option.bind_some, grow_cells_next hne, if_neg hτσ]
    rfl
  · rw [if_neg hτ]
    cases hb : m.follow 0 τ with
    | none =>
      have hτσ : ¬ (τ = σ ∧ s = .var) := by
        rintro ⟨rfl, -⟩
        rw [ha] at hb
        cases hb
      rw [if_neg hτσ]
      rfl
    | some b =>
      rw [Option.bind_some, Option.bind_some]
      by_cases hba : b = a
      · subst hba
        obtain rfl := h.inj τ σ b hb ha
        have hself : (m.grow b f cell).cells b = some (f cell) := grow_cells_self
        have hvar := child_var hself
        rw [hg.child_grow, child_var hg.cell_at] at hvar
        rw [grow_cells_self, hg.cell_at, Option.bind_some, Option.bind_some, ← hvar]
        by_cases hs : s = .var
        · have hold : cell.var.2 = none := by
            rw [← child_var hg.cell_at, ← hs, hg.child_none]
          rw [hold, if_pos hs.symm, if_pos ⟨rfl, hs⟩]
          rfl
        · have hs' : ¬ Seg.var = s := fun heq => hs heq.symm
          rw [if_neg hs', if_neg fun heq => hs heq.2, Option.or_none, hg.same_var hs]
      · have hτσ : ¬ (τ = σ ∧ s = .var) := by
          rintro ⟨rfl, -⟩
          exact hba (Option.some.inj (hb.symm.trans ha))
        rw [grow_cells_of_ne hba (h.lt_next hb).ne, if_neg hτσ, Option.or_none]

end grow

/-- A new node for a literal. -/
theorem grows_lit {a : Nat} {cell : Cell} {section_ : Str} (h : m.Sound a)
    (hcell : m.cells a = some cell) (hlookup : cell.nexts.lookup section_ = none) :
    m.Grows a (.lit section_)
      (fun c => { c with nexts := c.nexts ++ [(section_, some m.next)] }) cell := by
  obtain ⟨c, hc, hnodup, hnull⟩ := h
  obtain rfl : c = cell := Option.some.inj (hc.symm.trans hcell)
  have hnext : ∀ s, (c.nexts ++ [(section_, some m.next)]).lookup s =
      if s = section_ then some (some m.next) else c.nexts.lookup s := by
    intro s
    rw [List.lookup_append, List.lookup_cons]
    by_cases hs : s = section_
    · subst hs
      rw [hlookup, if_pos rfl, beq_self_eq_true]
      rfl
    · have hbeq : (s == section_) = false := by simpa using hs
      rw [hbeq, if_neg hs, List.lookup_nil, Option.or_none]
  refine ⟨hcell, ?_, ?_, ⟨_, grow_cells_self, ?_, ?_⟩, ⟨rfl, rfl⟩, fun _ => rfl⟩
  · rw [child, hcell, Option.bind_some]
    dsimp only
    rw [hlookup]
    rfl
  · intro d
    rw [child, child, grow_cells_self, hcell, Option.bind_some, Option.bind_some]
    cases d with
    | var => simp
    | lit s =>
      dsimp only
      rw [hnext]
      by_cases hs : s = section_ <;> simp [hs]
  · have hnot : section_ ∉ c.nexts.map Prod.fst := by
      rw [MemberMap.mem_keys_iff_lookup, hlookup]
      simp
    rw [List.map_append, List.map_singleton]
    refine List.nodup_append.mpr ⟨hnodup, List.nodup_singleton _, ?_⟩
    rintro k hk k' hk' rfl
    rw [List.mem_singleton.mp hk'] at hk
    exact hnot hk
  · intro s
    dsimp only
    rw [hnext]
    split
    · simp
    · exact hnull s

/-- A new node for a variable. -/
theorem grows_var {a : Nat} {cell : Cell} {var : Str} (h : m.Sound a)
    (hcell : m.cells a = some cell) (hvar : cell.var.2 = none) :
    m.Grows a .var (fun c => { c with var := (var, some m.next) }) cell := by
  obtain ⟨c, hc, hnodup, hnull⟩ := h
  obtain rfl : c = cell := Option.some.inj (hc.symm.trans hcell)
  refine ⟨hcell, ?_, ?_, ⟨_, grow_cells_self, hnodup, hnull⟩, ⟨rfl, rfl⟩, fun hne => absurd rfl hne⟩
  · rw [child_var hcell, hvar]
  · intro d
    rw [child, child, grow_cells_self, hcell, Option.bind_some, Option.bind_some]
    cases d <;> simp

/-! ## One registration -/

/-- The end of a pattern: the node gets the name, and the walks stay. -/
theorem write_end {a : Nat} {cell : Cell} {σ : List Seg} {name : Str} (h : m.Whole)
    (ha : m.follow 0 σ = some a) (hcell : m.cells a = some cell) :
    ∃ m', m.write (some a) (fun c => { c with end_ := true, name := name }) = .ok m' ∧ m'.Whole ∧
      (∀ τ, m'.follow 0 τ = m.follow 0 τ) ∧
      (∀ τ, m'.end_name τ = if τ = σ then some name else m.end_name τ) ∧
      ∀ τ, m'.var_below τ = m.var_below τ := by
  have hself : Function.update m.cells a (some { cell with end_ := true, name := name }) a =
      some { cell with end_ := true, name := name } := Function.update_self ..
  have hother : ∀ {b}, b ≠ a →
      Function.update m.cells a (some { cell with end_ := true, name := name }) b = m.cells b :=
    fun hne => Function.update_of_ne hne _ _
  refine ⟨⟨Function.update m.cells a (some { cell with end_ := true, name := name }), m.next⟩,
    by simp only [write, hcell], ?_⟩
  generalize hcells' : Function.update m.cells a (some { cell with end_ := true, name := name }) =
    cells' at hself hother
  have hchild : ∀ b d, (⟨cells', m.next⟩ : Memory).child b d = m.child b d := by
    intro b d
    rw [child, child]
    by_cases hba : b = a
    · subst hba
      rw [hcell]
      dsimp only
      rw [hself]
      rfl
    · dsimp only
      rw [hother hba]
  have hfollow : ∀ b τ, (⟨cells', m.next⟩ : Memory).follow b τ = m.follow b τ := by
    intro b τ
    induction τ generalizing b with
    | nil => rfl
    | cons d τ ih =>
      rw [follow, follow, hchild]
      exact congrArg _ (funext ih)
  have hsome : ∀ b, (cells' b).isSome = (m.cells b).isSome := by
    intro b
    by_cases hba : b = a
    · rw [hba, hself, hcell]
      rfl
    · rw [hother hba]
  refine ⟨⟨⟨?_, ?_⟩, ?_, ?_⟩, hfollow 0, ?_, ?_⟩
  · intro τ b hb
    rw [hfollow] at hb
    obtain ⟨c, hc, hnodup, hnull⟩ := h.sound τ b hb
    by_cases hba : b = a
    · subst hba
      obtain rfl : c = cell := Option.some.inj (hc.symm.trans hcell)
      exact ⟨_, hself, hnodup, hnull⟩
    · exact ⟨c, (hother hba).trans hc, hnodup, hnull⟩
  · intro τ ρ b hτ hρ
    rw [hfollow] at hτ hρ
    exact h.inj τ ρ b hτ hρ
  · intro b hb
    exact h.below_next b ((hsome b).symm.trans hb)
  · intro b hb
    obtain ⟨τ, hτ⟩ := h.reached b ((hsome b).symm.trans hb)
    exact ⟨τ, (hfollow 0 τ).trans hτ⟩
  · intro τ
    rw [end_name, end_name, hfollow]
    by_cases hτ : τ = σ
    · rw [hτ, ha, if_pos rfl, Option.bind_some]
      dsimp only
      rw [hself]
      rfl
    · rw [if_neg hτ]
      cases hb : m.follow 0 τ with
      | none => rfl
      | some b =>
        have hba : b ≠ a := by
          rintro rfl
          exact hτ (h.inj τ σ b hb ha)
        rw [Option.bind_some, Option.bind_some]
        dsimp only
        rw [hother hba]
  · intro τ
    rw [var_below, var_below, hfollow]
    cases hb : m.follow 0 τ with
    | none => rfl
    | some b =>
      rw [Option.bind_some, Option.bind_some]
      dsimp only
      by_cases hba : b = a
      · rw [hba, hself, hcell]
        rfl
      · rw [hother hba]

/-- What a `put` has added. -/
structure Registered (m : Memory) (sections : List Str) (name : Str) (m' : Memory) : Prop where
  whole : m'.Whole
  has : ∀ τ, (m'.follow 0 τ).isSome = true ↔
    (m.follow 0 τ).isSome = true ∨ τ <+: shape sections
  end_name : ∀ τ, m'.end_name τ = if τ = shape sections then some name else m.end_name τ
  var_below : ∀ τ, m'.var_below τ = (m.var_below τ).or
    (if τ ++ [.var] <+: shape sections then var_name_at sections τ.length else none)

/-- A variable on a walk has a name. -/
theorem var_below_isSome {τ : List Seg} (h : (m.follow 0 (τ ++ [.var])).isSome = true) :
    (m.var_below τ).isSome = true := by
  rw [follow_concat] at h
  rw [var_below]
  cases hb : m.follow 0 τ with
  | none =>
    rw [hb] at h
    cases h
  | some b =>
    rw [hb, Option.bind_some] at h
    rw [Option.bind_some]
    cases hc : m.cells b with
    | none =>
      rw [child, hc] at h
      cases h
    | some c =>
      rw [child_var hc] at h
      rw [Option.bind_some, Option.isSome_map, h]

/-- A new node on the way, and the rest of the pattern behind it. -/
theorem Grows.registered {a : Nat} {cell : Cell} {f : Cell → Cell} {pre sections : List Str}
    {section_ name : Str} {m' : Memory} (hg : m.Grows a (seg section_) f cell) (h : m.Whole)
    (ha : m.follow 0 (shape pre) = some a)
    (hvar : seg section_ = .var → (f cell).var.1 = var_name section_)
    (hr : (m.grow a f cell).Registered (pre ++ section_ :: sections) name m') :
    m.Registered (pre ++ section_ :: sections) name m' := by
  have hshape : shape (pre ++ section_ :: sections) =
      shape pre ++ [seg section_] ++ shape sections := by
    simp [shape]
  refine ⟨hr.whole, fun τ => ?_, fun τ => ?_, fun τ => ?_⟩
  · rw [hr.has, hg.follow h ha]
    by_cases hτ : τ = shape pre ++ [seg section_]
    · have hpre : τ <+: shape (pre ++ section_ :: sections) := by
        rw [hshape, hτ]
        exact List.prefix_append _ _
      simp [hpre]
    · rw [if_neg hτ]
  · rw [hr.end_name, hg.end_name h ha]
  · rw [hr.var_below, hg.var_below h ha, Option.or_assoc]
    congr 1
    by_cases hτ : τ = shape pre ∧ seg section_ = .var
    · -- the variable that is new has the name that the pattern has there
      obtain ⟨rfl, hs⟩ := hτ
      have hpre : shape pre ++ [.var] <+: shape (pre ++ section_ :: sections) := by
        rw [hshape, hs]
        exact List.prefix_append _ _
      have hname : var_name_at (pre ++ section_ :: sections) (shape pre).length =
          some (var_name section_) := by
        simp [var_name_at, shape]
      rw [if_pos ⟨rfl, hs⟩, if_pos hpre, hname, hvar hs]
      rfl
    · rw [if_neg hτ, Option.none_or]

/-- **What one `put` does to the nodes.** -/
theorem put_sections_registered (name : Str) (sections : List Str) :
    ∀ {pre : List Str} {m : Memory} {a : Nat}, m.Whole → m.follow 0 (shape pre) = some a →
      ∃ m', put_sections name sections (some a) m = .ok m' ∧
        m.Registered (pre ++ sections) name m' := by
  induction sections with
  | nil =>
    intro pre m a h ha
    obtain ⟨cell, hcell, -⟩ := h.sound _ a ha
    obtain ⟨m', hwrite, hwhole, hfollow, hend, hvar⟩ := @write_end m a cell _ name h ha hcell
    refine ⟨m', hwrite, ?_⟩
    rw [List.append_nil]
    -- the walk along the pattern is there already
    have hsome : (m.follow 0 (shape pre)).isSome = true := by rw [ha]; rfl
    refine ⟨hwhole, fun τ => ?_, hend, fun τ => ?_⟩
    · rw [hfollow, iff_self_or]
      exact fun hτ => follow_isSome_of_append hτ hsome
    · rw [hvar]
      split
      next hτ =>
        obtain ⟨var, hvar⟩ := Option.isSome_iff_exists.mp
          (var_below_isSome (follow_isSome_of_append hτ hsome))
        rw [hvar]
        rfl
      next => rw [Option.or_none]
  | cons section_ sections ih =>
    intro pre m a h ha
    have hsound := h.sound _ a ha
    obtain ⟨cell, hcell, -⟩ := id hsound
    have hread : m.read (some a) = .ok cell := by
      simp only [read, Option.bind_some, hcell]
    have hne : a ≠ m.next := (h.lt_next ha).ne
    have hshape : shape (pre ++ [section_]) = shape pre ++ [seg section_] := by
      simp [shape]
    have happend : pre ++ [section_] ++ sections = pre ++ section_ :: sections := by simp
    -- the node that is there, or a new one
    have hmove : ∀ {q}, m.child a (seg section_) = some q →
        ∃ m', put_sections name sections (some q) m = .ok m' ∧
          m.Registered (pre ++ section_ :: sections) name m' := by
      intro q hq
      rw [← happend]
      refine ih h ?_
      rw [hshape, follow_concat, ha, Option.bind_some, hq]
    have hnew : ∀ {f}, m.Grows a (seg section_) f cell →
        (seg section_ = .var → (f cell).var.1 = var_name section_) →
        ∃ m', put_sections name sections (some m.next) (m.grow a f cell) = .ok m' ∧
          m.Registered (pre ++ section_ :: sections) name m' := by
      intro f hg hvar
      have hnext : (m.grow a f cell).follow 0 (shape (pre ++ [section_])) = some m.next := by
        rw [hg.follow h ha, hshape, if_pos rfl]
      obtain ⟨m', hput, hr⟩ := ih (hg.whole h ha) hnext
      rw [happend] at hr
      exact ⟨m', hput, hg.registered h ha hvar hr⟩
    rw [put_sections, hread, run_ok_bind]
    cases hvar : is_var section_ with
    | true =>
      have hseg : seg section_ = .var := by rw [seg, if_pos hvar]
      rw [hseg] at hmove hnew
      rw [if_pos rfl]
      cases hptr : cell.var.2 with
      | none =>
        rw [Option.isNone_none, if_pos rfl]
        dsimp only [alloc]
        have hwrite := write_alloc hcell hne
          fun c => { c with var := (var_name section_, some m.next) }
        rw [alloc] at hwrite
        rw [hwrite, run_ok_bind]
        exact hnew (grows_var hsound hcell hptr) fun _ => rfl
      | some q =>
        rw [Option.isNone_some, if_neg Bool.false_ne_true]
        exact hmove (by rw [child_var hcell, hptr])
    | false =>
      have hseg : seg section_ = .lit section_ := by rw [seg, hvar, if_neg Bool.false_ne_true]
      rw [hseg] at hmove hnew
      rw [if_neg Bool.false_ne_true]
      have hlookup := hsound.lookup hcell section_
      cases hentry : cell.nexts.lookup section_ with
      | none =>
        dsimp only [alloc]
        have hwrite := write_alloc hcell hne fun c =>
          { c with nexts := c.nexts ++ [(section_, some m.next)] }
        rw [alloc] at hwrite
        rw [hwrite, run_ok_bind]
        exact hnew (grows_lit hsound hcell hentry) fun heq => by cases heq
      | some next =>
        rw [hentry] at hlookup
        cases hq : m.child a (.lit section_) with
        | none =>
          rw [hq] at hlookup
          cases hlookup
        | some q =>
          rw [hq] at hlookup
          obtain rfl := Option.some.inj hlookup
          exact hmove hq

/-! ## The nodes and the tree -/

/-- The nodes in memory are those of the tree. -/
structure View (m : Memory) (root : UrlTrieNode) : Prop where
  has : ∀ σ, (m.follow 0 σ).isSome = UrlTrie.has root σ
  end_name : ∀ σ, m.end_name σ = end_at root σ
  var_below : ∀ σ, m.var_below σ = var_at root σ

theorem view_start : start.View .new := by
  refine ⟨fun σ => ?_, fun σ => ?_, fun σ => ?_⟩
  · cases σ with
    | nil => rfl
    | cons c σ => cases c <;> rfl
  · cases σ with
    | nil => rfl
    | cons c σ => cases c <;> rfl
  · cases σ with
    | nil => rfl
    | cons c σ => cases c <;> rfl

/-- A `put` in memory is one on the tree. -/
theorem put_view {root : UrlTrieNode} (h : m.Whole) (hview : m.View root) (path name : Str) :
    ∃ m', m.put path name = .ok ((UrlTrie.put root path name).1, m') ∧ m'.Whole ∧
      m'.View (UrlTrie.put root path name).2 := by
  obtain ⟨m', hput, hr⟩ :=
    put_sections_registered name (Str.split path (lit "/")) h
      (show m.follow 0 (shape []) = some 0 from rfl)
  rw [List.nil_append] at hr
  refine ⟨m', ?_, hr.whole, fun σ => ?_, fun σ => ?_, fun σ => ?_⟩
  · rw [put, hput]
    rfl
  · rw [UrlTrie.put, Bool.eq_iff_iff, hr.has, hview.has, has_put]
  · rw [UrlTrie.put, hr.end_name, hview.end_name, end_at_put]
  · rw [UrlTrie.put, hr.var_below, hview.var_below, var_at_put]

theorem put_all_view (puts : List Put) :
    ∃ m, put_all puts = .ok m ∧ m.Whole ∧ m.View (UrlTrie.put_all puts) := by
  induction puts using List.reverseRecOn with
  | nil => exact ⟨start, rfl, whole_start, view_start⟩
  | append_singleton puts p ih =>
    obtain ⟨m, hm, hwhole, hview⟩ := ih
    obtain ⟨m', hput, hwhole', hview'⟩ := put_view hwhole hview p.path p.name
    refine ⟨m', ?_, hwhole', ?_⟩
    · rw [put_all, List.foldlM_append, ← put_all, hm, run_ok_bind, List.foldlM_cons, hput]
      rfl
    · rw [put_all_concat]
      exact hview'

/-- What the walk of a request reads at a node. -/
theorem View.node {root node : UrlTrieNode} (hview : m.View root) (h : m.Whole) {σ : List Seg}
    {a : Nat} (ha : m.follow 0 σ = some a) (hnode : node_at root σ = some node) :
    ∃ c, m.read (some a) = .ok c ∧
      (∀ s, match node.nexts s with
        | none => c.nexts.lookup s = none
        | some next => ∃ q, c.nexts.lookup s = some (some q) ∧
            m.follow 0 (σ ++ [.lit s]) = some q ∧ node_at root (σ ++ [.lit s]) = some next) ∧
      (match node.var with
        | none => c.var.2 = none
        | some (var, next) => ∃ q, c.var = (var, some q) ∧ m.follow 0 (σ ++ [.var]) = some q ∧
            node_at root (σ ++ [.var]) = some next) ∧
      (if c.end_ then some c.name else none) = if node.end_ then some node.name else none := by
  have hsound := h.sound σ a ha
  obtain ⟨c, hc, -⟩ := id hsound
  have hchild : ∀ d, m.follow 0 (σ ++ [d]) = m.child a d := by
    intro d
    rw [follow_concat, ha, Option.bind_some]
  refine ⟨c, by simp only [read, Option.bind_some, hc], fun s => ?_, ?_, ?_⟩
  · have hhas := hview.has (σ ++ [.lit s])
    rw [hchild, has_concat hnode] at hhas
    have hlookup := hsound.lookup hc s
    cases hnext : node.nexts s with
    | none =>
      rw [node_at, hnext, Option.bind_none, Option.isSome_none,
        Option.isSome_eq_false_iff, Option.isNone_iff_eq_none] at hhas
      rw [hhas] at hlookup
      exact hlookup
    | some next =>
      rw [node_at, hnext, Option.bind_some] at hhas
      obtain ⟨q, hq⟩ := Option.isSome_iff_exists.mp hhas
      rw [hq] at hlookup
      exact ⟨q, hlookup, by rw [hchild, hq], node_at_lit hnode hnext⟩
  · have hhas := hview.has (σ ++ [.var])
    have hname := hview.var_below σ
    rw [hchild, has_concat hnode, child_var hc] at hhas
    rw [Memory.var_below, ha, Option.bind_some, hc, Option.bind_some, var_at, hnode,
      Option.bind_some] at hname
    rcases hentry : node.var with - | ⟨var, next⟩
    · rw [node_at, hentry, Option.bind_none, Option.isSome_none,
        Option.isSome_eq_false_iff, Option.isNone_iff_eq_none] at hhas
      exact hhas
    · rw [node_at, hentry, Option.bind_some] at hhas
      obtain ⟨q, hq⟩ := Option.isSome_iff_exists.mp hhas
      rw [hentry, hq] at hname
      refine ⟨q, Prod.ext (Option.some.inj hname) hq, ?_, node_at_var hnode hentry⟩
      rw [hchild, child_var hc, hq]
  · have hend := hview.end_name σ
    rw [Memory.end_name, ha, Option.bind_some, hc, Option.bind_some, end_at, hnode,
      Option.bind_some] at hend
    exact hend

/-- A walk in memory and the one down the tree. -/
theorem fetch_sections_view {root : UrlTrieNode} (hview : m.View root) (h : m.Whole)
    (sections : List Str) :
    ∀ {σ : List Seg} {a : Nat} {node : UrlTrieNode} (vals : Std.ExtTreeMap Str Str),
      m.follow 0 σ = some a → node_at root σ = some node →
      ∃ found, m.fetch_sections sections (some a) vals =
          .ok (found, (UrlTrie.fetch_sections node sections vals).2) ∧
        match (UrlTrie.fetch_sections node sections vals).1 with
        | none => found = none
        | some node' => ∃ τ b, found = some (some b) ∧ m.follow 0 τ = some b ∧
            node_at root τ = some node' := by
  induction sections with
  | nil =>
    intro σ a node vals ha hnode
    exact ⟨some (some a), rfl, σ, a, rfl, ha, hnode⟩
  | cons section_ sections ih =>
    intro σ a node vals ha hnode
    obtain ⟨c, hread, hnexts, hvar, -⟩ := hview.node h ha hnode
    rw [fetch_sections, UrlTrie.fetch_sections, hread, run_ok_bind]
    have hnext := hnexts section_
    cases hentry : node.nexts section_ with
    | some next =>
      rw [hentry] at hnext
      obtain ⟨q, hlookup, hq, hnode'⟩ := hnext
      rw [hlookup]
      exact ih vals hq hnode'
    | none =>
      rw [hentry] at hnext
      rw [hnext]
      dsimp only
      rcases hpair : node.var with - | ⟨var, next⟩
      · rw [hpair] at hvar
        rw [hvar]
        exact ⟨none, rfl, rfl⟩
      · rw [hpair] at hvar
        obtain ⟨q, hcvar, hq, hnode'⟩ := hvar
        rw [hcvar]
        exact ih _ hq hnode'

/-- **The nodes do what the tree does.** After any calls of `put`, `fetch_vars` reads no
pointer that is null and returns what it returns on the tree. -/
theorem memory_refines_tree (puts : List Put) (path name : Str) (vals : Std.ExtTreeMap Str Str) :
    ∃ m, put_all puts = .ok m ∧
      m.fetch_vars path name vals =
        .ok (UrlTrie.fetch_vars (UrlTrie.put_all puts) path name vals) := by
  obtain ⟨m, hm, hwhole, hview⟩ := put_all_view puts
  refine ⟨m, hm, ?_⟩
  have hroot : node_at (UrlTrie.put_all puts) [] = some (UrlTrie.put_all puts) := rfl
  obtain ⟨found, hfetch, hfound⟩ :=
    fetch_sections_view hview hwhole (Str.split path (lit "/")) vals rfl hroot
  rw [fetch_vars, UrlTrie.fetch_vars, hfetch, run_ok_bind]
  generalize UrlTrie.fetch_sections (UrlTrie.put_all puts) (Str.split path (lit "/")) vals = walked
    at hfound ⊢
  obtain ⟨node, vals'⟩ := walked
  dsimp only at hfound ⊢
  cases node with
  | none =>
    rw [hfound]
    rfl
  | some node =>
    obtain ⟨τ, b, rfl, hb, hnode⟩ := hfound
    obtain ⟨c, hread, -, -, hend⟩ := hview.node hwhole hb hnode
    dsimp only
    rw [hread, run_ok_bind]
    cases hc : c.end_ <;> cases hn : node.end_ <;> simp_all

end Memory

end Rellaf.UrlTrie
