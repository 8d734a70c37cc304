/-
The keys of the maps of an object, in every run.

`Kept` is the invariant: every live object has the names in its maps that its class
declares, and what its object members point to is of the classes that are declared for
them and has no object members itself. The latter is so because a member is set to a
clone, and an object with object members cannot be cloned.

`Evolves` is what every operation but `set_<name>`, `clear` and the two moves does to a
heap; it is shown of the primitive changes first, then of the loops, and of `assign` by
induction on its depth.
-/
import Rellaf.ObjectHeap

set_option autoImplicit false

open Rellaf.Cpp

namespace Rellaf.Models.Memory

open MemberMap
open Brpc (Calls)

variable {K : Type} (decl : K → Decl K) (calls : Calls)

/-! ## The invariant -/

/-- The keys of the three maps are the names that the class declares. -/
structure Instance.Declared (o : Instance K) : Prop where
  plains : ∀ k, k ∈ o.plains.map Prod.fst ↔ k ∈ (decl o.clazz).plain_names.map Prod.fst
  lists : ∀ k, k ∈ o.lists.map Prod.fst ↔ k ∈ (decl o.clazz).list_names
  objects : ∀ k, k ∈ o.objects.map Prod.fst ↔ k ∈ (decl o.clazz).object_names.map Prod.fst

/-- What a model is for all of its life. -/
inductive Kind (K : Type) where
  | void
  | plain
  | list
  | object (clazz : K)

def Cell.kind : Cell K → Kind K
  | void _ => .void
  | plain _ => .plain
  | list _ _ => .list
  | object o => .object o.clazz

/-- An object has no object members. -/
def Kind.Bare : Kind K → Prop
  | object clazz => (decl clazz).object_names = []
  | _ => True

/-- A model that a member of the class can point to. -/
def Kind.Of (kind : Kind K) (clazz : Option K) : Prop := ∀ k, clazz = some k → kind = .object k

/-- The address was given out, and what lives there is of the class and without object
members. -/
def Heap.PointsTo (h : Heap K) (p : Option Nat) (clazz : Option K) : Prop :=
  ∀ b, p = some b → b < h.next ∧ ∀ c, h.cells b = some c → c.kind.Bare decl ∧ c.kind.Of clazz

/-- What a live object has to be. -/
structure Instance.Good (h : Heap K) (o : Instance K) : Prop where
  declared : o.Declared decl
  points : ∀ k p, (k, p) ∈ o.objects → ∀ clazz, (decl o.clazz).object_names.lookup k = some clazz →
    h.PointsTo decl p clazz

structure Heap.Kept (h : Heap K) : Prop where
  fresh : ∀ a, h.next ≤ a → h.cells a = none
  good : ∀ a o, h.cells a = some (.object o) → o.Good decl h

/-- No model has come to life at an address that was given out, and none has become
something else. -/
structure Heap.Later (h h' : Heap K) : Prop where
  next_le : h.next ≤ h'.next
  same : ∀ a c', a < h.next → h'.cells a = some c' → ∃ c, h.cells a = some c ∧ c.kind = c'.kind

/-- What an operation may do to a heap that leaves the object members of the objects alone. -/
structure Heap.Evolves (h h' : Heap K) : Prop where
  kept : h'.Kept decl
  later : h.Later h'
  steady : ∀ a o', a < h.next → h'.cells a = some (.object o') →
    ∃ o, h.cells a = some (.object o) ∧ o.clazz = o'.clazz ∧ o.objects = o'.objects

namespace Heap

variable {decl}

theorem later_refl (h : Heap K) : h.Later h := ⟨le_rfl, fun _ c _ hc => ⟨c, hc, rfl⟩⟩

theorem Later.trans {h₁ h₂ h₃ : Heap K} (h₁₂ : h₁.Later h₂) (h₂₃ : h₂.Later h₃) : h₁.Later h₃ := by
  refine ⟨h₁₂.next_le.trans h₂₃.next_le, fun a c₃ ha hc₃ => ?_⟩
  obtain ⟨c₂, hc₂, hkind₂⟩ := h₂₃.same a c₃ (ha.trans_le h₁₂.next_le) hc₃
  obtain ⟨c₁, hc₁, hkind₁⟩ := h₁₂.same a c₂ ha hc₂
  exact ⟨c₁, hc₁, hkind₁.trans hkind₂⟩

theorem PointsTo.later {h h' : Heap K} {p : Option Nat} {clazz : Option K}
    (hp : h.PointsTo decl p clazz) (hlater : h.Later h') : h'.PointsTo decl p clazz := by
  intro b hb
  obtain ⟨hlt, hcell⟩ := hp b hb
  refine ⟨hlt.trans_le hlater.next_le, fun c' hc' => ?_⟩
  obtain ⟨c, hc, hkind⟩ := hlater.same b c' hlt hc'
  rw [← hkind]
  exact hcell c hc

/-- A live object of the later heap has the class it had. -/
theorem Later.clazz {h h' : Heap K} (hlater : h.Later h') {a : Nat} {o' : Instance K}
    (ha : a < h.next) (ho' : h'.cells a = some (.object o')) :
    ∃ o, h.cells a = some (.object o) ∧ o.clazz = o'.clazz := by
  obtain ⟨c, hc, hkind⟩ := hlater.same a _ ha ho'
  cases c with
  | object o =>
    rw [Cell.kind, Cell.kind, Kind.object.injEq] at hkind
    exact ⟨o, hc, hkind⟩
  | _ => cases hkind

theorem Kept.lt_next {h : Heap K} (hkept : h.Kept decl) {a : Nat} {c : Cell K}
    (hc : h.cells a = some c) : a < h.next := by
  by_contra hle
  rw [hkept.fresh a (by omega)] at hc
  cases hc

theorem Evolves.trans {h₁ h₂ h₃ : Heap K} (h₁₂ : h₁.Evolves decl h₂) (h₂₃ : h₂.Evolves decl h₃) :
    h₁.Evolves decl h₃ := by
  refine ⟨h₂₃.kept, h₁₂.later.trans h₂₃.later, fun a o₃ ha ho₃ => ?_⟩
  obtain ⟨o₂, ho₂, hclazz₂, hobjects₂⟩ := h₂₃.steady a o₃ (ha.trans_le h₁₂.later.next_le) ho₃
  obtain ⟨o₁, ho₁, hclazz₁, hobjects₁⟩ := h₁₂.steady a o₂ ha ho₂
  exact ⟨o₁, ho₁, hclazz₁.trans hclazz₂, hobjects₁.trans hobjects₂⟩

theorem Kept.evolves {h : Heap K} (hkept : h.Kept decl) : h.Evolves decl h :=
  ⟨hkept, later_refl h, fun _ o _ ho => ⟨o, ho, rfl, rfl⟩⟩

theorem Good.later {h h' : Heap K} {o : Instance K} (ho : o.Good decl h) (hlater : h.Later h') :
    o.Good decl h' :=
  ⟨ho.declared, fun k p hp clazz hclazz => (ho.points k p hp clazz hclazz).later hlater⟩

/-- A member in the map is one that the class declares. -/
theorem Good.exists_points {h : Heap K} {o : Instance K} (ho : o.Good decl h) {k : Str}
    {p : Option Nat} (hp : (k, p) ∈ o.objects) :
    ∃ clazz, (decl o.clazz).object_names.lookup k = some clazz ∧ h.PointsTo decl p clazz := by
  have hkey : k ∈ (decl o.clazz).object_names.map Prod.fst :=
    (ho.declared.objects k).mp (List.mem_map_of_mem hp)
  obtain ⟨clazz, hclazz⟩ := Option.isSome_iff_exists.mp (mem_keys_iff_lookup.mp hkey)
  exact ⟨clazz, hclazz, ho.points k p hp clazz hclazz⟩

/-! ## The primitive changes -/

theorem Kept.kill {h : Heap K} (hkept : h.Kept decl) (a : Nat) : h.Evolves decl (h.kill a) := by
  -- what is live afterwards was live before
  have hcells : ∀ b c, (h.kill a).cells b = some c → h.cells b = some c := by
    intro b c hc
    by_cases hb : b = a
    · subst hb
      have hdead : (h.kill b).cells b = none := Function.update_self ..
      rw [hdead] at hc
      cases hc
    · exact (Function.update_of_ne hb ..).symm.trans hc
  have hlater : h.Later (h.kill a) := ⟨le_rfl, fun b c _ hc => ⟨c, hcells b c hc, rfl⟩⟩
  refine ⟨⟨fun b hb => ?_, fun b o ho => Good.later (hkept.good b o (hcells b _ ho)) hlater⟩, hlater,
    fun b o _ ho => ⟨o, hcells b _ ho, rfl, rfl⟩⟩
  cases hc : (h.kill a).cells b with
  | none => rfl
  | some c =>
    have hlive := hcells b c hc
    rw [hkept.fresh b hb] at hlive
    cases hlive

/-- A live model may be replaced by one of its kind that is good. -/
theorem Kept.write {h : Heap K} (hkept : h.Kept decl) {a : Nat} {c c' : Cell K}
    (hc : h.cells a = some c) (hkind : c'.kind = c.kind)
    (hgood : ∀ o, c' = .object o → o.Good decl h) :
    (h.write a c').Kept decl ∧ h.Later (h.write a c') := by
  have hself : (h.write a c').cells a = some c' := Function.update_self ..
  have hother : ∀ b, b ≠ a → (h.write a c').cells b = h.cells b := fun b hb =>
    Function.update_of_ne hb ..
  have hlater : h.Later (h.write a c') := by
    refine ⟨le_rfl, fun b d _ hd => ?_⟩
    by_cases hb : b = a
    · subst hb
      rw [hself] at hd
      cases hd
      exact ⟨c, hc, hkind.symm⟩
    · rw [hother b hb] at hd
      exact ⟨d, hd, rfl⟩
  refine ⟨⟨fun b hb => ?_, fun b o ho => ?_⟩, hlater⟩
  · have hlt : a < h.next := hkept.lt_next hc
    have hle : h.next ≤ b := hb
    rw [hother b (by omega)]
    exact hkept.fresh b hle
  · by_cases hb : b = a
    · subst hb
      rw [hself] at ho
      exact Good.later (hgood o (Option.some.inj ho)) hlater
    · rw [hother b hb] at ho
      exact Good.later (hkept.good b o ho) hlater

/-- And nothing is said of the object members when they are those that were there. -/
theorem Kept.write_evolves {h : Heap K} (hkept : h.Kept decl) {a : Nat} {c c' : Cell K}
    (hc : h.cells a = some c) (hkind : c'.kind = c.kind)
    (hgood : ∀ o, c' = .object o → o.Good decl h)
    (hobjects : ∀ o o', c = .object o → c' = .object o' → o.objects = o'.objects) :
    h.Evolves decl (h.write a c') := by
  obtain ⟨hkept', hlater⟩ := hkept.write hc hkind hgood
  refine ⟨hkept', hlater, fun b o' hb ho' => ?_⟩
  obtain ⟨o, ho, hclazz⟩ := hlater.clazz hb ho'
  refine ⟨o, ho, hclazz, ?_⟩
  by_cases hba : b = a
  · subst hba
    have hself : (h.write b c').cells b = some c' := Function.update_self ..
    rw [hself] at ho'
    exact hobjects o o' (Option.some.inj (hc.symm.trans ho)) (Option.some.inj ho')
  · have hother : (h.write a c').cells b = h.cells b := Function.update_of_ne hba ..
    rw [hother, ho] at ho'
    cases ho'
    rfl

theorem alloc_self (h : Heap K) (c : Cell K) : (h.alloc c).cells h.next = some c :=
  Function.update_self ..

theorem alloc_of_lt {h : Heap K} {b : Nat} (hb : b < h.next) (c : Cell K) :
    (h.alloc c).cells b = h.cells b :=
  Function.update_of_ne (by omega) ..

theorem Kept.alloc {h : Heap K} (hkept : h.Kept decl) {c : Cell K}
    (hgood : ∀ o, c = .object o → o.Good decl h) : h.Evolves decl (h.alloc c) := by
  have hlater : h.Later (h.alloc c) := by
    refine ⟨Nat.le_succ _, fun b d hb hd => ?_⟩
    rw [alloc_of_lt hb] at hd
    exact ⟨d, hd, rfl⟩
  refine ⟨⟨fun b hb => ?_, fun b o ho => ?_⟩, hlater, fun b o hb ho => ?_⟩
  · have hle : h.next + 1 ≤ b := hb
    have hne : b ≠ h.next := by omega
    exact (Function.update_of_ne hne ..).trans (hkept.fresh b (by omega))
  · by_cases hb : b = h.next
    · subst hb
      rw [alloc_self] at ho
      exact Good.later (hgood o (Option.some.inj ho)) hlater
    · have hcell : (h.alloc c).cells b = h.cells b := Function.update_of_ne hb ..
      rw [hcell] at ho
      exact Good.later (hkept.good b o ho) hlater
  · rw [alloc_of_lt hb] at ho
    exact ⟨o, ho, rfl, rfl⟩

theorem write_self {h : Heap K} {a : Nat} {c : Cell K} (hc : h.cells a = some c) :
    h.write a c = h := by
  rw [write, ← hc, Function.update_eq_self]

/-! ## Reading -/

theorem read_eq_ok {h : Heap K} {a : Nat} {c : Cell K} :
    h.read a = .ok c ↔ h.cells a = some c := by
  unfold read
  cases h.cells a with
  | none =>
    constructor
    · intro heq
      cases heq
    · intro heq
      cases heq
  | some c' => rw [Except.ok.injEq, Option.some.injEq]

theorem instance_at_eq_ok {h : Heap K} {a : Nat} {o : Instance K} :
    h.instance_at a = .ok o ↔ h.cells a = some (.object o) := by
  constructor
  · intro ho
    obtain ⟨c, hc, ho⟩ := except_bind_eq_ok.mp ho
    cases c with
    | object o' =>
      cases ho
      exact read_eq_ok.mp hc
    | _ => cases ho
  · intro ho
    rw [instance_at, read_eq_ok.mpr ho]
    rfl

/-- A loop whose rounds evolve the heap evolves it. A round may use that the heap has
evolved from the one that the loop began with. -/
theorem foldlM_evolves {α : Type} {f : Heap K → α → Steps (Heap K)} {xs : List α} {h h' : Heap K}
    (hkept : h.Kept decl)
    (hround : ∀ x ∈ xs, ∀ h₁ h₂, h.Evolves decl h₁ → f h₁ x = .ok h₂ → h₁.Evolves decl h₂)
    (hloop : xs.foldlM f h = .ok h') : h.Evolves decl h' := by
  -- on what is left of the loop, with what the rounds before have done
  suffices hfrom : ∀ ys, ys ⊆ xs → ∀ h₁, h.Evolves decl h₁ → ys.foldlM f h₁ = .ok h' →
      h.Evolves decl h' from hfrom xs (List.Subset.refl xs) h hkept.evolves hloop
  intro ys
  induction ys with
  | nil =>
    intro _ h₁ hh₁ hdone
    cases hdone
    exact hh₁
  | cons y ys ih =>
    intro hsub h₁ hh₁ hrest
    rw [List.foldlM_cons] at hrest
    obtain ⟨h₂, hy, hrest⟩ := except_bind_eq_ok.mp hrest
    have hh₂ := hround y (hsub List.mem_cons_self) h₁ h₂ hh₁ hy
    exact ih (fun z hz => hsub (List.mem_cons_of_mem y hz)) h₂ (hh₁.trans hh₂) hrest

/-! ## `delete` and the lists -/

theorem delete_evolves (n : Nat) {h h' : Heap K} {p : Option Nat} (hkept : h.Kept decl)
    (hdelete : h.delete n p = .ok h') : h.Evolves decl h' := by
  -- on the depth: what an address owns is deleted one level down, and then its cell
  induction n generalizing h h' p with
  | zero =>
    cases p with
    | none =>
      cases hdelete
      exact hkept.evolves
    | some a => cases hdelete
  | succ n ih =>
    have hitems : ∀ {items : List (Option Nat)} {h₁ h₂ : Heap K}, h₁.Kept decl →
        items.foldlM (delete n) h₁ = .ok h₂ → h₁.Evolves decl h₂ := fun hkept₁ hloop =>
      foldlM_evolves hkept₁ (fun p _ h₁ h₂ hh₁ hp => ih hh₁.kept hp) hloop
    cases p with
    | none =>
      cases hdelete
      exact hkept.evolves
    | some a =>
      obtain ⟨c, -, hdelete⟩ := except_bind_eq_ok.mp hdelete
      cases c with
      | void tag =>
        cases hdelete
        exact hkept.kill a
      | plain p =>
        cases hdelete
        exact hkept.kill a
      | list tag items =>
        obtain ⟨h₁, hloop, hdelete⟩ := except_bind_eq_ok.mp hdelete
        cases hdelete
        have hh₁ := hitems hkept hloop
        exact hh₁.trans (hh₁.kept.kill a)
      | object o =>
        obtain ⟨h₁, hloop, hdelete⟩ := except_bind_eq_ok.mp hdelete
        obtain ⟨h₂, hloop', hdelete⟩ := except_bind_eq_ok.mp hdelete
        cases hdelete
        have hh₁ := hitems hkept hloop
        have hh₂ := hh₁.trans (hitems hh₁.kept hloop')
        exact hh₂.trans (hh₂.kept.kill a)

/-- New values under the names that are there. -/
theorem Good.with_lists {h : Heap K} {o : Instance K} (ho : o.Good decl h)
    {lists : List (Str × List (Option Nat))}
    (hkeys : ∀ k, k ∈ lists.map Prod.fst ↔ k ∈ o.lists.map Prod.fst) :
    ({ o with lists := lists } : Instance K).Good decl h :=
  ⟨⟨ho.declared.plains, fun k => (hkeys k).trans (ho.declared.lists k), ho.declared.objects⟩,
    ho.points⟩

theorem mem_keys_put {V : Type} {kvs : List (Str × V)} {k : Str} {w : V} (h : kvs.lookup k = some w)
    (v : V) (k' : Str) : k' ∈ (put kvs k v).map Prod.fst ↔ k' ∈ kvs.map Prod.fst := by
  rw [keys_put_of_mem (mem_keys_iff_lookup.mpr (by rw [h]; rfl))]

theorem eq_nil_of_keys {V : Type} {kvs : List (Str × V)}
    (h : ∀ k, k ∈ kvs.map Prod.fst ↔ k ∈ ([] : List Str)) : kvs = [] := by
  apply List.map_eq_nil_iff.mp
  exact List.eq_nil_iff_forall_not_mem.mpr fun k hk => List.not_mem_nil ((h k).mp hk)

theorem set_items_evolves {h h' : Heap K} {l : ListAt} {items : List (Option Nat)}
    (hkept : h.Kept decl) (hset : h.set_items l items = .ok h') : h.Evolves decl h' := by
  cases l with
  | cell a =>
    obtain ⟨c, hc, hset⟩ := except_bind_eq_ok.mp hset
    cases c with
    | list tag items' =>
      cases hset
      exact hkept.write_evolves (read_eq_ok.mp hc) rfl (fun o ho => by cases ho)
        fun o o' ho => by cases ho
    | _ => cases hset
  | member a name =>
    obtain ⟨o, ho, hset⟩ := except_bind_eq_ok.mp hset
    rw [instance_at_eq_ok] at ho
    cases hlookup : o.lists.lookup name with
    | none =>
      rw [hlookup] at hset
      cases hset
    | some items' =>
      rw [hlookup] at hset
      cases hset
      refine hkept.write_evolves ho rfl (fun o' ho' => ?_) fun o₁ o₂ ho₁ ho₂ => ?_
      · cases ho'
        exact Good.with_lists (hkept.good a o ho) (mem_keys_put hlookup items)
      · cases ho₁
        cases ho₂
        rfl

theorem clear_list_evolves {n : Nat} {h h' : Heap K} {l : ListAt} (hkept : h.Kept decl)
    (hclear : h.clear_list n l = .ok h') : h.Evolves decl h' := by
  obtain ⟨items, -, hclear⟩ := except_bind_eq_ok.mp hclear
  obtain ⟨h₁, hloop, hset⟩ := except_bind_eq_ok.mp hclear
  have hh₁ : h.Evolves decl h₁ :=
    foldlM_evolves hkept (fun p _ h₁ h₂ hh₁ hp => delete_evolves n hh₁.kept hp) hloop
  exact hh₁.trans (set_items_evolves hh₁.kept hset)

/-! ## `assign` -/

variable (decl) in
/-- What is assigned to an object has the lists that it has. Where the object has a `Void`
for a member, which takes a null too, the other one has that member, and where both have
an object for a member, the other one has the lists of that. -/
structure Fits (h : Heap K) (o val : Instance K) : Prop where
  lists : (decl o.clazz).list_names ⊆ (decl val.clazz).list_names
  voids : ∀ k b tag, (k, some b) ∈ o.objects → h.cells b = some (.void tag) →
    k ∈ (decl val.clazz).object_names.map Prod.fst
  members : ∀ k b a ob oa, (k, some b) ∈ o.objects → (k, some a) ∈ val.objects →
    h.cells b = some (.object ob) → h.cells a = some (.object oa) →
    (decl ob.clazz).list_names ⊆ (decl oa.clazz).list_names

variable (decl) in
/-- Where both are objects, the one fits the other. -/
def Fit (h : Heap K) (dst val : Nat) : Prop :=
  ∀ o o', h.cells dst = some (.object o) → h.cells val = some (.object o') → h.Fits decl o o'

/-- What fits goes on to fit. -/
theorem Fit.evolves {h h' : Heap K} {dst val : Nat} (hfit : h.Fit decl dst val)
    (hkept : h.Kept decl) (hev : h.Evolves decl h') (hdst : dst < h.next) (hval : val < h.next) :
    h'.Fit decl dst val := by
  intro o₁ o₁' ho₁ ho₁'
  obtain ⟨o, ho, hclazz, hobjects⟩ := hev.steady dst o₁ hdst ho₁
  obtain ⟨o', ho', hclazz', hobjects'⟩ := hev.steady val o₁' hval ho₁'
  obtain ⟨hlists, hvoids, hmembers⟩ := hfit o o' ho ho'
  have hlt : ∀ {k b}, (k, some b) ∈ o.objects → b < h.next := by
    intro k b hb
    obtain ⟨_, -, hpoints⟩ := Good.exists_points (hkept.good dst o ho) hb
    exact (hpoints b rfl).1
  have hlt' : ∀ {k a}, (k, some a) ∈ o'.objects → a < h.next := by
    intro k a ha
    obtain ⟨_, -, hpoints⟩ := Good.exists_points (hkept.good val o' ho') ha
    exact (hpoints a rfl).1
  rw [hclazz, hclazz'] at hlists
  rw [hclazz', hobjects] at hvoids
  rw [hobjects, hobjects'] at hmembers
  rw [hobjects] at hlt
  rw [hobjects'] at hlt'
  refine ⟨hlists, fun k b tag hb hvoid => ?_, fun k b a ob oa hb ha hob hoa => ?_⟩
  · obtain ⟨c, hc, hkind⟩ := hev.later.same b _ (hlt hb) hvoid
    cases c with
    | void tag' => exact hvoids k b tag' hb hc
    | _ => cases hkind
  · obtain ⟨ob₀, hob₀, hob_clazz⟩ := hev.later.clazz (hlt hb) hob
    obtain ⟨oa₀, hoa₀, hoa_clazz⟩ := hev.later.clazz (hlt' ha) hoa
    rw [← hob_clazz, ← hoa_clazz]
    exact hmembers k b a ob₀ oa₀ hb ha hob₀ hoa₀

/-- Two objects of one class fit when every object member of it is declared with a class. -/
theorem Kept.fits_of_declared {h : Heap K} (hkept : h.Kept decl) {dst a : Nat} {o val : Instance K}
    (ho : h.cells dst = some (.object o)) (hval : h.cells a = some (.object val))
    (hclazz : o.clazz = val.clazz)
    (hdeclared : ∀ k, (decl o.clazz).object_names.lookup k ≠ some none) : h.Fits decl o val := by
  have hmember : ∀ {a' o' k p b c}, h.cells a' = some (.object o') → o'.clazz = o.clazz →
      (k, p) ∈ o'.objects → p = some b → h.cells b = some c → ∃ clazz,
        (decl o.clazz).object_names.lookup k = some (some clazz) ∧ c.kind = .object clazz := by
    intro a' o' k p b c ho' hclazz' hp hb hc
    obtain ⟨clazz, hlookup, hpoints⟩ := Good.exists_points (hkept.good a' o' ho') hp
    rw [hclazz'] at hlookup
    cases clazz with
    | none => exact absurd hlookup (hdeclared k)
    | some clazz => exact ⟨clazz, hlookup, ((hpoints b hb).2 c hc).2 clazz rfl⟩
  refine ⟨?_, fun k b tag hb hvoid => ?_, fun k b a' ob oa hb ha hob hoa => ?_⟩
  · rw [hclazz]
    exact List.Subset.refl _
  · obtain ⟨clazz, -, hkind⟩ := hmember ho rfl hb rfl hvoid
    cases hkind
  · obtain ⟨clazz, hlookup, hkind⟩ := hmember ho rfl hb rfl hob
    obtain ⟨clazz', hlookup', hkind'⟩ := hmember hval hclazz.symm ha rfl hoa
    rw [hlookup, Option.some.injEq, Option.some.injEq] at hlookup'
    subst hlookup'
    have hob_clazz : ob.clazz = clazz := Kind.object.inj hkind
    have hoa_clazz : oa.clazz = clazz := Kind.object.inj hkind'
    rw [hob_clazz, hoa_clazz]
    exact List.Subset.refl _

variable (decl) in
/-- What is shown of `assign`, for the calls of it that are one level down. -/
structure AssignEvolves (assign : Heap K → Nat → Option Nat → Steps (Heap K)) : Prop where
  null : ∀ h dst h', assign h dst none = .ok h' → h' = h ∧ ∃ tag, h.cells dst = some (.void tag)
  set : ∀ h dst val h' o o', h.cells dst = some (.object o) → h.cells val = some (.object o') →
    assign h dst (some val) = .ok h' → ∀ k, (k, none) ∉ o.objects
  evolves : ∀ h dst val h', h.Kept decl → h.Fit decl dst val → assign h dst (some val) = .ok h' →
    h.Evolves decl h'

theorem eq_none_of_mem_construct {clazz : K} {k : Str} {p : Option Nat}
    (hp : (k, p) ∈ (Instance.construct decl clazz).objects) : p = none := by
  obtain ⟨kc, -, heq⟩ := List.mem_map.mp hp
  exact (congrArg Prod.snd heq).symm

theorem good_construct (h : Heap K) (clazz : K) : (Instance.construct decl clazz).Good decl h := by
  refine ⟨⟨fun k => Iff.rfl, fun k => ?_, fun k => ?_⟩, fun k p hp clazz' _ b hb => ?_⟩
  · simp [Instance.construct]
  · simp [Instance.construct]
  · rw [eq_none_of_mem_construct hp] at hb
    cases hb

theorem good_create (h : Heap K) (c : Cell K) (o : Instance K) (ho : c.create decl calls = .object o) :
    o.Good decl h := by
  cases c with
  | object o' =>
    cases ho
    exact good_construct h o'.clazz
  | _ => cases ho

section assign

variable {assign : Heap K → Nat → Option Nat → Steps (Heap K)} {calls}

/-- A clone is of the class of what it is made from, and that has no object members: they
are null in a new instance, which is assigned to. -/
theorem clone_by_evolves (hassign : AssignEvolves decl assign) {h h' : Heap K} {p : Option Nat}
    {a : Nat} (hkept : h.Kept decl) (hclone : h.clone_by decl calls assign p = .ok (h', a)) :
    h.Evolves decl h' ∧ ∀ clazz, (∀ b c, p = some b → h.cells b = some c → c.kind.Of clazz) →
      h'.PointsTo decl (some a) clazz := by
  cases p with
  | none => cases hclone
  | some b =>
    obtain ⟨c, hc, hclone⟩ := except_bind_eq_ok.mp hclone
    obtain ⟨h₁, hassigned, hclone⟩ := except_bind_eq_ok.mp hclone
    cases hclone
    rw [read_eq_ok] at hc
    have halloc := hkept.alloc (good_create calls h c)
    have hnew := alloc_self h (c.create decl calls)
    have hold : (h.alloc (c.create decl calls)).cells b = some c :=
      (alloc_of_lt (hkept.lt_next hc) _).trans hc
    have hkind : (c.create decl calls).kind = c.kind := by cases c <;> rfl
    -- `create` makes an instance of the same class, which has the same lists
    have hfit : (h.alloc (c.create decl calls)).Fit decl h.next b := by
      intro o o' ho ho'
      rw [hnew] at ho
      rw [hold] at ho'
      obtain rfl := Option.some.inj ho'
      obtain rfl : Instance.construct decl o'.clazz = o := Cell.object.inj (Option.some.inj ho)
      refine ⟨List.Subset.refl _, fun k b tag hb => ?_, fun k b a ob oa hb => ?_⟩
      · cases eq_none_of_mem_construct hb
      · cases eq_none_of_mem_construct hb
    have hh₁ := hassign.evolves _ _ _ _ halloc.kept hfit hassigned
    have hbare : c.kind.Bare decl := by
      cases c with
      | object o =>
        have hset := hassign.set _ _ _ _ _ _ hnew hold hassigned
        exact List.eq_nil_iff_forall_not_mem.mpr fun kc hkc =>
          hset kc.1 (List.mem_map_of_mem (f := fun kc => (kc.1, none)) hkc)
      | _ => trivial
    refine ⟨halloc.trans hh₁, fun clazz hof => ?_⟩
    apply PointsTo.later _ hh₁.later
    rintro _ ⟨⟩
    refine ⟨Nat.lt_succ_self h.next, fun c' hc' => ?_⟩
    rw [hnew] at hc'
    obtain rfl := Option.some.inj hc'
    rw [hkind]
    exact ⟨hbare, hof b c rfl hc⟩

theorem push_clone_evolves (hassign : AssignEvolves decl assign) {dst : ListAt} {h h' : Heap K}
    {entry : Option Nat} (hkept : h.Kept decl)
    (hpush : push_clone decl calls assign dst h entry = .ok h') : h.Evolves decl h' := by
  obtain ⟨⟨h₁, a⟩, hclone, hpush⟩ := except_bind_eq_ok.mp hpush
  obtain ⟨items, -, hset⟩ := except_bind_eq_ok.mp hpush
  have hh₁ := (clone_by_evolves hassign hkept hclone).1
  exact hh₁.trans (set_items_evolves hh₁.kept hset)

theorem assign_list_evolves (hassign : AssignEvolves decl assign) {n : Nat} {dst val : ListAt}
    {h h' : Heap K} (hkept : h.Kept decl)
    (hlist : assign_list decl calls assign n h dst val = .ok h') : h.Evolves decl h' := by
  obtain ⟨h₁, hclear, hlist⟩ := except_bind_eq_ok.mp hlist
  obtain ⟨items, -, hloop⟩ := except_bind_eq_ok.mp hlist
  have hh₁ := clear_list_evolves hkept hclear
  refine hh₁.trans (foldlM_evolves hh₁.kept ?_ hloop)
  exact fun entry _ h₁ h₂ hh₁ hpush => push_clone_evolves hassign hh₁.kept hpush

/-- A round of the loop over `_objects`. -/
theorem assign_object_evolves (hassign : AssignEvolves decl assign) {dst val : Nat}
    {h h' : Heap K} {entry : Str × Option Nat} (hkept : h.Kept decl) (hfit : h.Fit decl dst val)
    (hentry : ∀ o, h.cells dst = some (.object o) → entry ∈ o.objects)
    (hround : assign_object assign dst val h entry = .ok h') : h.Evolves decl h' := by
  obtain ⟨o, ho, hround⟩ := except_bind_eq_ok.mp hround
  obtain ⟨o', ho', hround⟩ := except_bind_eq_ok.mp hround
  rw [instance_at_eq_ok] at ho ho'
  have hentry := hentry o ho
  have hgood' := hkept.good val o' ho'
  have hfits := hfit o o' ho ho'
  obtain ⟨k, q⟩ := entry
  cases q with
  | none =>
    -- the function of a null pointer is called
    simp only at hround
    cases hround
  | some b =>
    cases hlookup : o'.objects.lookup k with
    | none =>
      simp only [hlookup] at hround
      obtain ⟨-, tag, hvoid⟩ := hassign.null _ _ _ hround
      -- only a `Void` takes a null, and for that the source has the name
      have hvoid' : h.cells b = some (.void tag) := by
        by_cases hb : b = val
        · subst hb
          have hself : (h.write b (.object { o' with objects := put o'.objects k none })).cells b =
              some (.object { o' with objects := put o'.objects k none }) := Function.update_self ..
          rw [hself] at hvoid
          cases hvoid
        · have hother : (h.write val (.object { o' with objects := put o'.objects k none })).cells b =
              h.cells b := Function.update_of_ne hb ..
          exact hother.symm.trans hvoid
      have hkey := (hgood'.declared.objects k).mpr (hfits.voids k b tag hentry hvoid')
      rw [mem_keys_iff_lookup, hlookup] at hkey
      cases hkey
    | some p =>
      simp only [hlookup] at hround
      cases p with
      | none =>
        obtain ⟨rfl, -⟩ := hassign.null _ _ _ hround
        exact hkept.evolves
      | some a =>
        have hmem : (k, some a) ∈ o'.objects := mem_of_lookup hlookup
        refine hassign.evolves h b a h' hkept ?_ hround
        intro ob oa hob hoa
        -- what a member points to has no object members
        have hnone : ob.objects = [] := by
          obtain ⟨clazz, -, hpoints⟩ := Good.exists_points (hkept.good dst o ho) hentry
          have hbare : (decl ob.clazz).object_names = [] := ((hpoints b rfl).2 _ hob).1
          have hkeys := (hkept.good b ob hob).declared.objects
          rw [hbare] at hkeys
          exact eq_nil_of_keys hkeys
        refine ⟨hfits.members k b a ob oa hentry hmem hob hoa, fun k' b' tag hb' => ?_,
          fun k' b' a' ob' oa' hb' => ?_⟩
        · rw [hnone] at hb'
          cases hb'
        · rw [hnone] at hb'
          cases hb'

/-- A round of the loop over `_lists`. -/
theorem assign_member_list_evolves (hassign : AssignEvolves decl assign) {n dst val : Nat}
    {h h' : Heap K} {name : Str} {val_clazz : K} (hkept : h.Kept decl)
    (hval : ∀ o, h.cells val = some (.object o) → o.clazz = val_clazz)
    (hname : name ∈ (decl val_clazz).list_names)
    (hround : assign_member_list decl calls assign n dst val h name = .ok h') :
    h.Evolves decl h' := by
  obtain ⟨-, -, hround⟩ := except_bind_eq_ok.mp hround
  obtain ⟨o, ho, hround⟩ := except_bind_eq_ok.mp hround
  rw [instance_at_eq_ok] at ho
  rw [← hval o ho] at hname
  -- the source has the list, so `operator[]` adds none
  have hkey : name ∈ o.lists.map Prod.fst := ((hkept.good val o ho).declared.lists name).mpr hname
  obtain ⟨items, hitems⟩ := Option.isSome_iff_exists.mp (mem_keys_iff_lookup.mp hkey)
  simp only [hitems] at hround
  exact assign_list_evolves hassign hkept hround

/-- From one object to another that fits: no name is added to the source. -/
theorem assign_members_evolves (hassign : AssignEvolves decl assign) {n dst val : Nat}
    {h h₁ h₂ h₃ : Heap K} {o o' : Instance K} {tag : Str} {plains : List (Str × Plain)}
    (hkept : h.Kept decl) (ho : h.cells dst = some (.object o))
    (ho' : h.cells val = some (.object o')) (hfit : h.Fit decl dst val)
    (hplains : Model.assign_plains o.plains o'.plains = .ok plains)
    (hwrite : h.write dst (.object { o with tag := tag, plains := plains }) = h₁)
    (hobjects : o.objects.foldlM (assign_object assign dst val) h₁ = .ok h₂)
    (hlists : (o.lists.map Prod.fst).foldlM (assign_member_list decl calls assign n dst val) h₂ =
      .ok h₃) : h.Evolves decl h₃ := by
  have hgood := hkept.good dst o ho
  have hkeys : plains.map Prod.fst = o.plains.map Prod.fst :=
    Model.keys_of_schema_eq (Model.assign_plains_schema hplains)
  have hh₁ : h.Evolves decl h₁ := by
    subst hwrite
    refine hkept.write_evolves ho rfl (fun o₁ ho₁ => ?_) fun o₁ o₂ ho₁ ho₂ => ?_
    · cases ho₁
      refine ⟨⟨fun k => ?_, hgood.declared.lists, hgood.declared.objects⟩, hgood.points⟩
      rw [hkeys]
      exact hgood.declared.plains k
    · cases ho₁
      cases ho₂
      rfl
  -- in every round the destination has the members it had, and the source fits
  have hh₂ : h₁.Evolves decl h₂ := by
    refine foldlM_evolves hh₁.kept (fun entry hentry h₃ h₄ hh₃ hround => ?_) hobjects
    have hev := hh₁.trans hh₃
    have hfit₃ := hfit.evolves hkept hev (hkept.lt_next ho) (hkept.lt_next ho')
    refine assign_object_evolves hassign hev.kept hfit₃ (fun o₃ ho₃ => ?_) hround
    obtain ⟨o₀, ho₀, -, hsame⟩ := hev.steady dst o₃ (hkept.lt_next ho) ho₃
    rw [ho] at ho₀
    cases ho₀
    rw [← hsame]
    exact hentry
  have hh₁₂ := hh₁.trans hh₂
  refine hh₁₂.trans (foldlM_evolves hh₂.kept (fun name hname h₃ h₄ hh₃ hround => ?_) hlists)
  have hev := hh₁₂.trans hh₃
  -- as long as the source lives it is of its class
  have hval : ∀ ov, h₃.cells val = some (.object ov) → ov.clazz = o'.clazz := by
    intro ov hov
    obtain ⟨o₀, ho₀, hclazz⟩ := hev.later.clazz (hkept.lt_next ho') hov
    rw [ho'] at ho₀
    cases ho₀
    exact hclazz.symm
  have hlisted : name ∈ (decl o'.clazz).list_names :=
    (hfit o o' ho ho').lists ((hgood.declared.lists name).mp hname)
  exact assign_member_list_evolves hassign hev.kept hval hlisted hround

end assign

theorem lifted_eq_ok {α : Type} {r : Run α} {a : α} : lifted r = .ok a ↔ r = .ok a := by
  unfold lifted
  cases r with
  | error fault =>
    constructor
    · intro heq
      cases heq
    · intro heq
      cases heq
  | ok a' => rw [Except.ok.injEq, Except.ok.injEq]

/-- A null pointer is read, but by a `Void`. -/
theorem assign_null {n : Nat} {h h' : Heap K} {dst : Nat}
    (hassign : assign decl calls n h dst none = .ok h') :
    h' = h ∧ ∃ tag, h.cells dst = some (.void tag) := by
  cases n with
  | zero => cases hassign
  | succ n =>
    obtain ⟨c, hc, hassign⟩ := except_bind_eq_ok.mp hassign
    cases c with
    | void tag =>
      cases hassign
      exact ⟨rfl, tag, read_eq_ok.mp hc⟩
    | _ => cases hassign

/-- A loop does not get past a round that cannot return. -/
theorem foldlM_ne_ok {α : Type} {f : Heap K → α → Steps (Heap K)} {xs : List α} {x : α}
    (hx : x ∈ xs) (hround : ∀ h h', f h x ≠ .ok h') (h h' : Heap K) : xs.foldlM f h ≠ .ok h' := by
  induction xs generalizing h with
  | nil => cases hx
  | cons y ys ih =>
    intro hloop
    rw [List.foldlM_cons] at hloop
    obtain ⟨h₁, hy, hloop⟩ := except_bind_eq_ok.mp hloop
    rcases List.mem_cons.mp hx with rfl | hx
    · exact hround h h₁ hy
    · exact ih hx h₁ hloop

/-- An object takes another one only where all its object members are set. -/
theorem assign_set {n : Nat} {h h' : Heap K} {dst val : Nat} {o o' : Instance K}
    (ho : h.cells dst = some (.object o)) (ho' : h.cells val = some (.object o'))
    (hassign : assign decl calls n h dst (some val) = .ok h') (k : Str) : (k, none) ∉ o.objects := by
  intro hk
  cases n with
  | zero => cases hassign
  | succ n =>
    obtain ⟨c, hc, hassign⟩ := except_bind_eq_ok.mp hassign
    rw [read_eq_ok, ho] at hc
    cases hc
    obtain ⟨c', hc', hassign⟩ := except_bind_eq_ok.mp hassign
    rw [read_eq_ok, ho'] at hc'
    cases hc'
    obtain ⟨plains, -, hassign⟩ := except_bind_eq_ok.mp hassign
    obtain ⟨h₂, hobjects, -⟩ := except_bind_eq_ok.mp hassign
    refine foldlM_ne_ok hk (fun h₃ h₄ hround => ?_) _ _ hobjects
    obtain ⟨o₃, -, hround⟩ := except_bind_eq_ok.mp hround
    obtain ⟨o₄, -, hround⟩ := except_bind_eq_ok.mp hround
    simp only at hround
    cases hround

/-- An assignment between models that fit adds no name to an object. -/
theorem assign_evolves (n : Nat) : AssignEvolves decl (assign decl calls n) := by
  induction n with
  | zero =>
    exact ⟨fun h dst h' => assign_null calls, fun h dst val h' o o' => assign_set calls,
      fun h dst val h' _ _ hassign => by cases hassign⟩
  | succ n ih =>
    refine ⟨fun h dst h' => assign_null calls, fun h dst val h' o o' => assign_set calls,
      fun h dst val h' hkept hfit hassign => ?_⟩
    obtain ⟨c, hc, hassign⟩ := except_bind_eq_ok.mp hassign
    rw [read_eq_ok] at hc
    cases c with
    | void tag =>
      cases hassign
      exact hkept.evolves
    | plain p =>
      obtain ⟨c', hc', hassign⟩ := except_bind_eq_ok.mp hassign
      cases c' with
      | void tag =>
        simp only at hassign
        split at hassign
        · cases hassign
        · cases hassign
          exact hkept.evolves
      | plain q =>
        obtain ⟨p', -, hassign⟩ := except_bind_eq_ok.mp hassign
        cases hassign
        exact hkept.write_evolves hc rfl (fun o ho => by cases ho) fun o o' ho => by cases ho
      | _ =>
        cases hassign
        exact hkept.evolves
    | list tag items =>
      obtain ⟨c', hc', hassign⟩ := except_bind_eq_ok.mp hassign
      cases c' with
      | list tag' items' => exact assign_list_evolves ih hkept hassign
      | _ =>
        cases hassign
        exact hkept.evolves
    | object o =>
      obtain ⟨c', hc', hassign⟩ := except_bind_eq_ok.mp hassign
      rw [read_eq_ok] at hc'
      cases c' with
      | object o' =>
        obtain ⟨plains, hplains, hassign⟩ := except_bind_eq_ok.mp hassign
        obtain ⟨h₂, hobjects, hlists⟩ := except_bind_eq_ok.mp hassign
        exact assign_members_evolves ih hkept hc hc' hfit (lifted_eq_ok.mp hplains) rfl hobjects
          hlists
      | _ =>
        cases hassign
        exact hkept.evolves

/-! ## The other operations -/

variable (decl) in
/-- The class declares plain members only. -/
def Flat (clazz : K) : Prop := (decl clazz).list_names = [] ∧ (decl clazz).object_names = []

/-- An object without lists and object members has nothing to lose. -/
theorem clear_evolves {n : Nat} {h h' : Heap K} {a : Nat} (hkept : h.Kept decl)
    (hflat : ∀ o, h.cells a = some (.object o) → Flat decl o.clazz)
    (hclear : h.clear n (some a) = .ok h') : h.Evolves decl h' := by
  cases n with
  | zero => cases hclear
  | succ n =>
    obtain ⟨c, hc, hclear⟩ := except_bind_eq_ok.mp hclear
    rw [read_eq_ok] at hc
    cases c with
    | void tag =>
      cases hclear
      exact hkept.evolves
    | plain p =>
      cases hclear
      exact hkept.evolves
    | list tag items => exact clear_list_evolves hkept hclear
    | object o =>
      have hgood := hkept.good a o hc
      obtain ⟨hno_lists, hno_objects⟩ := hflat o hc
      have hlists : o.lists = [] := eq_nil_of_keys (hno_lists ▸ hgood.declared.lists)
      have hobjects : o.objects = [] := by
        have hkeys := hgood.declared.objects
        rw [hno_objects] at hkeys
        exact eq_nil_of_keys hkeys
      -- the two maps are empty, and they are emptied
      have hno_object : h.write a (.object { o with objects := [] }) = h := by
        rw [← hobjects]
        exact write_self hc
      have hno_list : h.write a (.object { o with lists := [] }) = h := by
        rw [← hlists]
        exact write_self hc
      obtain ⟨h₁, hloop, hclear⟩ := except_bind_eq_ok.mp hclear
      rw [hobjects] at hloop
      cases hloop
      obtain ⟨o₁, ho₁, hclear⟩ := except_bind_eq_ok.mp hclear
      rw [instance_at_eq_ok, hc] at ho₁
      cases ho₁
      rw [hno_object, hlists] at hclear
      obtain ⟨h₂, hloop, hclear⟩ := except_bind_eq_ok.mp hclear
      cases hloop
      obtain ⟨o₂, ho₂, hclear⟩ := except_bind_eq_ok.mp hclear
      rw [instance_at_eq_ok, hc] at ho₂
      cases ho₂
      cases hclear
      rw [hno_list]
      exact hkept.evolves

/-- A copy is made as a clone is. -/
theorem copy_construct_eq {n : Nat} {h : Heap K} {a : Nat} {o : Instance K}
    (ho : h.cells a = some (.object o)) :
    h.copy_construct decl calls n a = h.clone decl calls n (some a) := by
  have hread : h.read a = .ok (.object o) := read_eq_ok.mpr ho
  rw [copy_construct, instance_at_eq_ok.mpr ho, clone, clone_by, hread]
  rfl

theorem copy_construct_evolves {n : Nat} {h h' : Heap K} {a b : Nat} (hkept : h.Kept decl)
    (hcopy : h.copy_construct decl calls n a = .ok (h', b)) : h.Evolves decl h' := by
  obtain ⟨o, ho, -⟩ := except_bind_eq_ok.mp hcopy
  rw [copy_construct_eq calls (instance_at_eq_ok.mp ho)] at hcopy
  exact (clone_by_evolves (assign_evolves calls n) hkept hcopy).1

theorem move_construct_evolves {n : Nat} {h h' : Heap K} {a b : Nat} (hkept : h.Kept decl)
    (hflat : ∀ o, h.cells a = some (.object o) → Flat decl o.clazz)
    (hmove : h.move_construct decl calls n a = .ok (h', b)) : h.Evolves decl h' := by
  obtain ⟨⟨h₁, b'⟩, hcopy, hmove⟩ := except_bind_eq_ok.mp hmove
  obtain ⟨h₂, hclear, hmove⟩ := except_bind_eq_ok.mp hmove
  cases hmove
  have hh₁ := copy_construct_evolves calls hkept hcopy
  obtain ⟨o, ho, -⟩ := except_bind_eq_ok.mp hcopy
  have hlt : a < h.next := hkept.lt_next (instance_at_eq_ok.mp ho)
  refine hh₁.trans (clear_evolves hh₁.kept (fun o₁ ho₁ => ?_) hclear)
  obtain ⟨o₀, ho₀, hclazz⟩ := hh₁.later.clazz hlt ho₁
  exact hclazz ▸ hflat o₀ ho₀

section members

variable [DecidableEq K]

theorem of_class_eq_ok {h : Heap K} {a : Nat} {clazz : K} {o : Instance K}
    (ho : h.of_class a clazz = .ok o) : h.cells a = some (.object o) ∧ o.clazz = clazz := by
  obtain ⟨o', ho', ho⟩ := except_bind_eq_ok.mp ho
  split at ho
  case isTrue hclazz =>
    cases ho
    exact ⟨instance_at_eq_ok.mp ho', hclazz⟩
  case isFalse => cases ho

/-- The two are of one class. -/
theorem of_copy_assign {n : Nat} {h h' : Heap K} {dst a : Nat}
    (hcopy : h.copy_assign decl calls n dst a = .ok h') :
    ∃ o val, h.cells dst = some (.object o) ∧ h.cells a = some (.object val) ∧
      o.clazz = val.clazz ∧ h.assign decl calls n dst (some a) = .ok h' := by
  obtain ⟨val, hval, hcopy⟩ := except_bind_eq_ok.mp hcopy
  obtain ⟨o, ho, hassign⟩ := except_bind_eq_ok.mp hcopy
  rw [instance_at_eq_ok] at hval
  obtain ⟨ho, hclazz⟩ := of_class_eq_ok ho
  exact ⟨o, val, ho, hval, hclazz, hassign⟩

theorem copy_assign_evolves {n : Nat} {h h' : Heap K} {dst a : Nat} (hkept : h.Kept decl)
    (hfit : h.Fit decl dst a) (hcopy : h.copy_assign decl calls n dst a = .ok h') :
    h.Evolves decl h' := by
  obtain ⟨o, val, -, -, -, hassign⟩ := of_copy_assign calls hcopy
  exact (assign_evolves calls n).evolves h dst a h' hkept hfit hassign

theorem move_assign_evolves {n : Nat} {h h' : Heap K} {dst a : Nat} (hkept : h.Kept decl)
    (hflat : ∀ o, h.cells dst = some (.object o) → Flat decl o.clazz)
    (hmove : h.move_assign decl calls n dst a = .ok h') : h.Evolves decl h' := by
  obtain ⟨h₁, hcopy, hclear⟩ := except_bind_eq_ok.mp hmove
  obtain ⟨o, val, ho, hval, hclazz, -⟩ := of_copy_assign calls hcopy
  have hfit : h.Fit decl dst a := by
    intro o₁ o₂ ho₁ ho₂
    rw [ho] at ho₁
    rw [hval] at ho₂
    cases ho₁
    cases ho₂
    refine hkept.fits_of_declared ho hval hclazz fun k hk => ?_
    rw [(hflat o ho).2] at hk
    cases hk
  have hh₁ := copy_assign_evolves calls hkept hfit hcopy
  refine hh₁.trans (clear_evolves hh₁.kept (fun o₁ ho₁ => ?_) hclear)
  obtain ⟨o₀, ho₀, hclazz⟩ := hh₁.later.clazz (hkept.lt_next ho) ho₁
  exact hclazz ▸ hflat o₀ ho₀

end members

/-- Values of plain members, under names that are there. -/
theorem write_plains_evolves {h : Heap K} {a : Nat} {o : Instance K} (hkept : h.Kept decl)
    (ho : h.cells a = some (.object o)) {key : Str} (hkey : key ∈ o.plains.map Prod.fst) (p : Plain) :
    h.Evolves decl (h.write a (.object { o with plains := put o.plains key p })) := by
  have hgood := hkept.good a o ho
  refine hkept.write_evolves ho rfl (fun o₁ ho₁ => ?_) fun o₁ o₂ ho₁ ho₂ => ?_
  · cases ho₁
    refine ⟨⟨fun k => ?_, hgood.declared.lists, hgood.declared.objects⟩, hgood.points⟩
    rw [keys_put_of_mem hkey]
    exact hgood.declared.plains k
  · cases ho₁
    cases ho₂
    rfl

theorem set_member_evolves {h h' : Heap K} {a : Nat} {name : Str} {val : PlainVal}
    (hkept : h.Kept decl) (hset : h.set_member a name val = .ok h') : h.Evolves decl h' := by
  obtain ⟨o, ho, hset⟩ := except_bind_eq_ok.mp hset
  rw [instance_at_eq_ok] at ho
  cases hlookup : o.plains.lookup name with
  | none =>
    rw [hlookup] at hset
    cases hset
  | some p =>
    rw [hlookup] at hset
    obtain ⟨p', -, hset⟩ := except_bind_eq_ok.mp hset
    cases hset
    exact write_plains_evolves hkept ho (mem_keys_iff_lookup.mpr (by rw [hlookup]; rfl)) p'

theorem set_plain_evolves {h h' : Heap K} {a : Nat} {key val_str : Str} (hkept : h.Kept decl)
    (hset : h.set_plain decl calls a key val_str = .ok h') : h.Evolves decl h' := by
  obtain ⟨o, ho, hset⟩ := except_bind_eq_ok.mp hset
  rw [instance_at_eq_ok] at ho
  cases hlookup : (decl o.clazz).plain_names.lookup key with
  | none =>
    rw [hlookup] at hset
    cases hset
    exact hkept.evolves
  | some dft =>
    rw [hlookup] at hset
    obtain ⟨⟨b, p⟩, -, hset⟩ := except_bind_eq_ok.mp hset
    cases hset
    have hdeclared : key ∈ (decl o.clazz).plain_names.map Prod.fst :=
      mem_keys_iff_lookup.mpr (by rw [hlookup]; rfl)
    exact write_plains_evolves hkept ho (((hkept.good a o ho).declared.plains key).mpr hdeclared) p

theorem push_back_evolves {n : Nat} {h h' : Heap K} {a : Nat} {name : Str} {m : Option Nat}
    (hkept : h.Kept decl) (hpush : h.push_back decl calls n a name m = .ok h') :
    h.Evolves decl h' := by
  obtain ⟨o, -, hpush⟩ := except_bind_eq_ok.mp hpush
  obtain ⟨items, -, hpush⟩ := except_bind_eq_ok.mp hpush
  cases m with
  | none =>
    obtain ⟨items', -, hset⟩ := except_bind_eq_ok.mp hpush
    exact set_items_evolves hkept hset
  | some b => exact push_clone_evolves (assign_evolves calls n) hkept hpush

/-- A pointer to what the member is declared for. -/
theorem set_pointer_kept {h h' : Heap K} {a : Nat} {name : Str} {p : Option Nat}
    {clazz : Option K} (hkept : h.Kept decl)
    (hname : ∀ o, h.cells a = some (.object o) →
      (decl o.clazz).object_names.lookup name = some clazz)
    (hp : h.PointsTo decl p clazz) (hset : h.set_pointer a name p = .ok h') :
    h'.Kept decl ∧ h.Later h' := by
  obtain ⟨o, ho, hset⟩ := except_bind_eq_ok.mp hset
  cases hset
  rw [instance_at_eq_ok] at ho
  have hgood := hkept.good a o ho
  have hkey : name ∈ o.objects.map Prod.fst := by
    rw [hgood.declared.objects, mem_keys_iff_lookup, hname o ho]
    rfl
  refine hkept.write ho rfl fun o₁ ho₁ => ?_
  cases ho₁
  refine ⟨⟨hgood.declared.plains, hgood.declared.lists, fun k => ?_⟩, fun k q hq clazz' hclazz' => ?_⟩
  · rw [keys_put_of_mem hkey]
    exact hgood.declared.objects k
  · rcases mem_put hq with heq | hmem
    · -- the pointer that is set
      cases heq
      obtain rfl : clazz = clazz' := Option.some.inj ((hname o ho).symm.trans hclazz')
      exact hp
    · exact hgood.points k q hmem clazz' hclazz'

/-- The old model is deleted, and the name gets a clone of the new one. -/
theorem set_object_kept [DecidableEq K] {n : Nat} {h h' : Heap K} {a : Nat} {name : Str}
    {val : Option Nat} (hkept : h.Kept decl)
    (hset : h.set_object decl calls n a name val = .ok h') : h'.Kept decl := by
  obtain ⟨o, ho, hset⟩ := except_bind_eq_ok.mp hset
  rw [instance_at_eq_ok] at ho
  cases hlookup : (decl o.clazz).object_names.lookup name with
  | none =>
    rw [hlookup] at hset
    cases hset
  | some clazz =>
    rw [hlookup] at hset
    -- the object stays of its class, so the name stays one of an object member
    have hname : ∀ {h₁ : Heap K}, h.Later h₁ → ∀ o₁, h₁.cells a = some (.object o₁) →
        (decl o₁.clazz).object_names.lookup name = some clazz := by
      intro h₁ hh₁ o₁ ho₁
      obtain ⟨o₀, ho₀, hclazz⟩ := hh₁.clazz (hkept.lt_next ho) ho₁
      rw [ho] at ho₀
      cases ho₀
      rw [← hclazz]
      exact hlookup
    have hnull : ∀ {h₁ : Heap K}, h₁.PointsTo decl none clazz := fun b hb => by cases hb
    obtain ⟨_, hval, hset⟩ := except_bind_eq_ok.mp hset
    obtain ⟨h₁, hdrop, hset⟩ := except_bind_eq_ok.mp hset
    -- the old model is deleted, and its name set to null
    have hh₁ : h₁.Kept decl ∧ h.Later h₁ := by
      obtain ⟨o₁, -, hdrop⟩ := except_bind_eq_ok.mp hdrop
      split at hdrop
      · obtain ⟨h₂, hdelete, hdrop⟩ := except_bind_eq_ok.mp hdrop
        have hh₂ := delete_evolves n hkept hdelete
        obtain ⟨hkept₁, hlater₁⟩ := set_pointer_kept hh₂.kept (hname hh₂.later) hnull hdrop
        exact ⟨hkept₁, hh₂.later.trans hlater₁⟩
      · cases hdrop
        exact ⟨hkept, later_refl h⟩
    obtain ⟨hkept₁, hlater₁⟩ := hh₁
    cases val with
    | none => exact (set_pointer_kept hkept₁ (hname hlater₁) hnull hset).1
    | some b =>
      obtain ⟨⟨h₂, c⟩, hclone, hset⟩ := except_bind_eq_ok.mp hset
      obtain ⟨hh₂, hpoints⟩ := clone_by_evolves (assign_evolves calls n) hkept₁ hclone
      -- what is cloned lives on, as what it was when the argument was passed
      have hof : ∀ b' c', some b = some b' → h₁.cells b' = some c' → c'.kind.Of clazz := by
        rintro _ c' ⟨⟩ hc' k rfl
        obtain ⟨ob, hob, -⟩ := except_bind_eq_ok.mp hval
        obtain ⟨hob, hclazz⟩ := of_class_eq_ok hob
        obtain ⟨c₀, hc₀, hkind⟩ := hlater₁.same b c' (hkept.lt_next hob) hc'
        rw [hob] at hc₀
        cases hc₀
        rw [← hkind, Cell.kind, hclazz]
      exact (set_pointer_kept hh₂.kept (hname (hlater₁.trans hh₂.later)) (hpoints clazz hof) hset).1

/-! ## Runs -/

variable (decl) in
/-- The call leaves the names of all objects as they are. Nothing is cleared that has a
list or an object member, be it by `clear()`, as the source of a move construction or as
the destination of a move assignment; and `assign` and the copy assignment are given a
source that fits. -/
def KeepsNames (h : Heap K) : Op K → Prop
  | .clear (some a) | .move_construct a | .move_assign a _ =>
    ∀ o, h.cells a = some (.object o) → Flat decl o.clazz
  | .assign dst (some val) | .copy_assign dst val => h.Fit decl dst val
  | _ => True

theorem apply_kept [DecidableEq K] {n : Nat} {h h' : Heap K} {op : Op K} (hkept : h.Kept decl)
    (hkeeps : h.KeepsNames decl op) (happly : h.apply decl calls n op = .ok h') : h'.Kept decl := by
  have hstate : ∀ {r : Steps (Heap K × Nat)} {h₁ : Heap K}, (do return (← r).1) = .ok h₁ →
      ∃ a, r = .ok (h₁, a) := by
    intro r h₁ hr
    obtain ⟨⟨h₂, a⟩, hreturned, heq⟩ := except_bind_eq_ok.mp hr
    cases heq
    exact ⟨a, hreturned⟩
  cases op with
  | construct clazz =>
    cases happly
    refine (hkept.alloc fun o ho => ?_).kept
    cases ho
    exact good_construct h clazz
  | make_void =>
    cases happly
    exact (hkept.alloc fun o ho => by cases ho).kept
  | make_plain p =>
    cases happly
    exact (hkept.alloc fun o ho => by cases ho).kept
  | make_list =>
    cases happly
    exact (hkept.alloc fun o ho => by cases ho).kept
  | copy_construct o =>
    obtain ⟨a, hcopy⟩ := hstate happly
    exact (copy_construct_evolves calls hkept hcopy).kept
  | move_construct o =>
    obtain ⟨a, hmove⟩ := hstate happly
    exact (move_construct_evolves calls hkept hkeeps hmove).kept
  | clone p =>
    obtain ⟨a, hclone⟩ := hstate happly
    exact (clone_by_evolves (assign_evolves calls n) hkept hclone).1.kept
  | assign dst val =>
    cases val with
    | none =>
      obtain ⟨rfl, -⟩ := assign_null calls happly
      exact hkept
    | some a => exact ((assign_evolves calls n).evolves h dst a h' hkept hkeeps happly).kept
  | copy_assign dst o => exact (copy_assign_evolves calls hkept hkeeps happly).kept
  | move_assign dst o => exact (move_assign_evolves calls hkept hkeeps happly).kept
  | set_member a name val => exact (set_member_evolves hkept happly).kept
  | set_object a name val => exact set_object_kept calls hkept happly
  | set_plain a key val_str => exact (set_plain_evolves calls hkept happly).kept
  | push_back a name m => exact (push_back_evolves calls hkept happly).kept
  | clear p =>
    cases p with
    | none => cases n <;> cases happly
    | some a => exact (clear_evolves hkept hkeeps happly).kept
  | delete p => exact (delete_evolves n hkept happly).kept

variable (decl) in
/-- Every live object has the names that its class declares, every declared list can be
fetched, and the declared lists and object members are found. -/
def AsDeclared (h : Heap K) : Prop :=
  ∀ a o, h.cells a = some (.object o) → o.Declared decl ∧
    (∀ k ∈ (decl o.clazz).list_names, (∃ items, o.get_list k = .ok items) ∧ o.is_list_member k) ∧
    ∀ k ∈ (decl o.clazz).object_names.map Prod.fst, o.is_object_member k

theorem Kept.asDeclared {h : Heap K} (hkept : h.Kept decl) : h.AsDeclared decl := by
  intro a o ho
  have hdeclared := (hkept.good a o ho).declared
  refine ⟨hdeclared, fun k hk => ?_, fun k hk => ?_⟩
  · have hlookup := mem_keys_iff_lookup.mp ((hdeclared.lists k).mpr hk)
    obtain ⟨items, hitems⟩ := Option.isSome_iff_exists.mp hlookup
    refine ⟨⟨items, ?_⟩, hlookup⟩
    rw [Instance.get_list, hitems]
  · exact mem_keys_iff_lookup.mp ((hdeclared.objects k).mpr hk)

theorem kept_empty : (empty : Heap K).Kept decl :=
  ⟨fun _ _ => rfl, fun a o ho => by cases ho⟩

end Heap

/-- **When objects keep the names that their classes declare.** In every run of calls that
keep the names, whatever the classes declare and whatever is given to what, every object
in every state reached has exactly the members that are declared. -/
theorem reaches_asDeclared [DecidableEq K] (es : List (Nat × Op K)) (h : Heap K)
    (hkeeps : (machine decl calls).Meets (fun h e => h.KeepsNames decl e.2) .empty es)
    (hreaches : (machine decl calls).Reaches es h) : h.AsDeclared decl := by
  have hkept : h.Kept decl := by
    refine (machine decl calls).run_preserves_of_meets (fun h e h' hkept hcond hstep => ?_)
      Heap.kept_empty hkeeps hreaches
    have happly : h.apply decl calls e.1 e.2 = .ok h' := by
      have hsome : (h.apply decl calls e.1 e.2).toOption = some h' := hstep
      cases hresult : h.apply decl calls e.1 e.2 with
      | error halt =>
        rw [hresult] at hsome
        cases hsome
      | ok h₁ =>
        rw [hresult] at hsome
        exact congrArg Except.ok (Option.some.inj hsome)
    exact Heap.apply_kept calls hkept hcond happly
  exact hkept.asDeclared

/-- A class with one list, and one with a member that is set to any model. -/
def boxes : Bool → Decl Bool
  | false => ⟨[], [lit "items"], []⟩
  | true => ⟨[], [], [(lit "any", none)]⟩

def no_calls : Calls := ⟨fun _ => none, fun _ => [], fun _ => 0, fun _ => 0, fun _ => []⟩

/-- A `Void` is put into a box, the box into two objects that take any model, and one of
these is copied to the other. -/
def copy_run : List (Nat × Op Bool) :=
  [(0, .construct false), (0, .make_void), (1, .push_back 0 (lit "items") (some 1)),
    (0, .construct true), (0, .construct true), (3, .set_object 3 (lit "any") (some 0)),
    (3, .set_object 4 (lit "any") (some 0)), (4, .copy_assign 4 3)]

theorem reaches_asDeclared_copy :
    ∃ h, (machine boxes no_calls).Reaches copy_run h ∧ h.AsDeclared boxes := by
  refine ⟨_, rfl, ?_⟩
  apply reaches_asDeclared boxes no_calls copy_run
  · refine ⟨trivial, fun h₁ e₁ => ⟨trivial, fun h₂ e₂ => ⟨trivial, fun h₃ e₃ => ⟨trivial,
      fun h₄ e₄ => ⟨trivial, fun h₅ e₅ => ⟨trivial, fun h₆ e₆ => ⟨trivial, fun h₇ e₇ =>
        ⟨?_, fun _ _ => trivial⟩⟩⟩⟩⟩⟩⟩⟩
    obtain rfl := Option.some.inj e₁
    obtain rfl := Option.some.inj e₂
    obtain rfl := Option.some.inj e₃
    obtain rfl := Option.some.inj e₄
    obtain rfl := Option.some.inj e₅
    obtain rfl := Option.some.inj e₆
    obtain rfl := Option.some.inj e₇
    -- both members are boxes
    intro o o' ho ho'
    obtain rfl := Cell.object.inj (Option.some.inj ho)
    obtain rfl := Cell.object.inj (Option.some.inj ho')
    refine ⟨List.Subset.refl _, fun k b tag hb hvoid => ?_, fun k b a ob oa hb ha hob hoa => ?_⟩
    · obtain ⟨-, hb⟩ := Prod.mk.inj (List.mem_singleton.mp hb)
      cases hb
      cases hvoid
    · obtain ⟨-, hb⟩ := Prod.mk.inj (List.mem_singleton.mp hb)
      obtain ⟨-, ha⟩ := Prod.mk.inj (List.mem_singleton.mp ha)
      cases hb
      cases ha
      obtain rfl := Cell.object.inj (Option.some.inj hob)
      obtain rfl := Cell.object.inj (Option.some.inj hoa)
      exact List.Subset.refl _
  · rfl

/-- `clear()` on a new box: its list is gone. -/
theorem clear_forgets :
    ¬ ∀ (K : Type) [DecidableEq K] (decl : K → Decl K) (calls : Calls) (es : List (Nat × Op K))
      (h : Heap K), (machine decl calls).Reaches es h → h.AsDeclared decl := by
  intro hall
  have hreaches : ∃ h, (machine boxes no_calls).Reaches
      [(0, .construct false), (1, .clear (some 0))] h ∧
      h.cells 0 = some (.object ⟨false, [], [], [], []⟩) := ⟨_, rfl, rfl⟩
  obtain ⟨h, hreaches, hcell⟩ := hreaches
  obtain ⟨-, hlists, -⟩ := hall Bool boxes no_calls _ h hreaches 0 _ hcell
  obtain ⟨⟨items, hitems⟩, -⟩ := hlists (lit "items") List.mem_cons_self
  cases hitems

end Rellaf.Models.Memory
