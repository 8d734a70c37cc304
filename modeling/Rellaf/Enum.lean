/-
`enum.h` and `enum.cpp`: enum classes, whose items register themselves when the one
instance of the class is constructed.

An instance has two maps, from the names to the codes and back, and a registration does
not replace what is there. The names are those of the members of a C++ class, so they are
pairwise different. Nothing looks at the codes: of two items with one code the second is in
the map of the names only (`inverse_iff`).
-/
import Rellaf.Cpp

set_option autoImplicit false

open Rellaf.Cpp

namespace Rellaf.Enums

structure EnumItem where
  code : Int32
  name : Str
  deriving DecidableEq, Repr

/-- `EnumItem()` -/
def EnumItem.new : EnumItem := ⟨0, []⟩

structure Enum where
  _name_refs : Std.ExtTreeMap Str Int32
  _code_refs : Std.ExtTreeMap Int32 Str

namespace Enum

/-- The constructor of `Reg`. -/
def reg (inst : Enum) (item : EnumItem) : Enum :=
  { inst with
    _name_refs := inst._name_refs.insertIfNew item.name item.code
    _code_refs := inst._code_refs.insertIfNew item.code item.name }

/-- `e()` of a class with the items, in the order of their definitions. -/
def e (items : List EnumItem) : Enum := items.foldl reg ⟨∅, ∅⟩

variable (inst : Enum)

def get_by_name (name : Str) : EnumItem :=
  match inst._name_refs[name]? with
  | none => .new
  | some code => ⟨code, name⟩

def get_by_code (code : Int32) : EnumItem :=
  match inst._code_refs[code]? with
  | none => .new
  | some name => ⟨code, name⟩

/-- `exist(name)` -/
def exist_name (name : Str) : Bool := inst._name_refs.contains name

/-- `exist(code)` -/
def exist_code (code : Int32) : Bool := inst._code_refs.contains code

/-! ## The first registration stays -/

/-- Insertions that replace nothing leave the first value of a key. -/
theorem getElem?_foldl_insertIfNew {K V : Type} [Ord K] [Std.TransOrd K] [Std.LawfulEqOrd K]
    [DecidableEq K] (key : EnumItem → K) (val : EnumItem → V) (items : List EnumItem)
    (refs : Std.ExtTreeMap K V) (k : K) :
    (items.foldl (fun refs item => refs.insertIfNew (key item) (val item)) refs)[k]? =
      refs[k]?.or ((items.find? (key · = k)).map val) := by
  induction items generalizing refs with
  | nil => simp
  | cons item items ih =>
    rw [List.foldl_cons, ih, List.find?_cons]
    simp only [Std.ExtTreeMap.getElem?_insertIfNew, Std.compare_eq_iff_eq,
      Std.ExtTreeMap.mem_iff_isSome_getElem?]
    by_cases hkey : key item = k
    · subst hkey
      cases refs[key item]? <;> simp
    · simp [hkey]

theorem name_refs_eq (items : List EnumItem) (name : Str) :
    (e items)._name_refs[name]? = (items.find? (·.name = name)).map EnumItem.code := by
  have hfold : (e items)._name_refs =
      items.foldl (fun refs item => refs.insertIfNew item.name item.code) ∅ :=
    (List.foldl_hom Enum._name_refs fun _ _ => rfl).symm
  rw [hfold, getElem?_foldl_insertIfNew]
  simp

theorem code_refs_eq (items : List EnumItem) (code : Int32) :
    (e items)._code_refs[code]? = (items.find? (·.code = code)).map EnumItem.name := by
  have hfold : (e items)._code_refs =
      items.foldl (fun refs item => refs.insertIfNew item.code item.name) ∅ :=
    (List.foldl_hom Enum._code_refs fun _ _ => rfl).symm
  rw [hfold, getElem?_foldl_insertIfNew]
  simp

variable {items : List EnumItem} {item : EnumItem}

/-- The first item with a key. -/
theorem exists_find {K : Type} [DecidableEq K] (key : EnumItem → K) (h : item ∈ items) :
    ∃ found ∈ items, items.find? (key · = key item) = some found ∧ key found = key item := by
  have hsome : (items.find? (key · = key item)).isSome = true :=
    List.find?_isSome.mpr ⟨item, h, by simp⟩
  obtain ⟨found, hfound⟩ := Option.isSome_iff_exists.mp hsome
  exact ⟨found, List.mem_of_find?_eq_some hfound, hfound, by simpa using List.find?_some hfound⟩

theorem find_of_nodup {K : Type} [DecidableEq K] (key : EnumItem → K)
    (hkeys : (items.map key).Nodup) (h : item ∈ items) :
    items.find? (key · = key item) = some item := by
  obtain ⟨found, hmem, hfound, hkey⟩ := exists_find key h
  rw [hfound, List.inj_on_of_nodup_map hkeys hmem h hkey]

theorem get_by_code_of_find (h : items.find? (·.code = item.code) = some item) :
    (e items).get_by_code item.code = item := by
  rw [get_by_code, code_refs_eq, h]
  rfl

/-- With names that are pairwise different, every item is found by its name. -/
theorem get_by_name_of_mem (hnames : (items.map EnumItem.name).Nodup) (h : item ∈ items) :
    (e items).get_by_name item.name = item := by
  rw [get_by_name, name_refs_eq, find_of_nodup EnumItem.name hnames h]
  rfl

/-- A code that exists is that of the first item with it. -/
theorem exist_code_iff {code : Int32} :
    (e items).exist_code code = true ↔ ∃ item, items.find? (·.code = code) = some item := by
  rw [exist_code, Std.ExtTreeMap.contains_eq_isSome_getElem?, code_refs_eq, Option.isSome_map,
    Option.isSome_iff_exists]

/-! ## The maps as inverses -/

/-- The two maps are inverse to each other. -/
structure Inverse (items : List EnumItem) : Prop where
  names : ∀ item ∈ items,
    ((e items).get_by_code ((e items).get_by_name item.name).code).name = item.name
  codes : ∀ code, (e items).exist_code code = true →
    ((e items).get_by_name ((e items).get_by_code code).name).code = code

/-- The way from the codes and back holds in any case. -/
theorem codes_inverse (hnames : (items.map EnumItem.name).Nodup) {code : Int32}
    (h : (e items).exist_code code = true) :
    ((e items).get_by_name ((e items).get_by_code code).name).code = code := by
  obtain ⟨item, hfind⟩ := exist_code_iff.mp h
  have hcode : item.code = code := by simpa using List.find?_some hfind
  subst hcode
  rw [get_by_code_of_find hfind, get_by_name_of_mem hnames (List.mem_of_find?_eq_some hfind)]

/-- **The maps of an enum class are inverse to each other** exactly when its codes are
pairwise different too. -/
theorem inverse_iff (items : List EnumItem) (hnames : (items.map EnumItem.name).Nodup) :
    Inverse items ↔ (items.map EnumItem.code).Nodup := by
  constructor
  · intro h
    refine List.Nodup.map_on ?_ (List.Nodup.of_map _ hnames)
    -- an item is found behind its code, and so is every other with that code
    have hfound : ∀ item ∈ items, items.find? (·.code = item.code) = some item := by
      intro item hitem
      obtain ⟨found, hmem, hfound, hcode⟩ := exists_find EnumItem.code hitem
      have hname := h.names item hitem
      rw [← hcode] at hfound ⊢
      rw [get_by_name_of_mem hnames hitem, ← hcode, get_by_code_of_find hfound] at hname
      rw [hfound, List.inj_on_of_nodup_map hnames hmem hitem hname]
    intro item hitem item' hitem' hcode
    have hsame := hfound item hitem
    rw [hcode, hfound item' hitem', Option.some.injEq] at hsame
    exact hsame.symm
  · intro hcodes
    refine ⟨fun item hitem => ?_, fun code hcode => codes_inverse hnames hcode⟩
    rw [get_by_name_of_mem hnames hitem,
      get_by_code_of_find (find_of_nodup EnumItem.code hcodes hitem)]

theorem inverse_iff_demo :
    Inverse [⟨0, lit "A"⟩, ⟨1, lit "B"⟩] ↔
      (([⟨0, lit "A"⟩, ⟨1, lit "B"⟩] : List EnumItem).map EnumItem.code).Nodup :=
  inverse_iff [⟨0, lit "A"⟩, ⟨1, lit "B"⟩] (by decide)

/-- A second item with the code 0: its name leads to the first. -/
theorem same_code_not_inverse :
    (([⟨0, lit "A"⟩, ⟨0, lit "B"⟩] : List EnumItem).map EnumItem.name).Nodup ∧
      ¬ Inverse [⟨0, lit "A"⟩, ⟨0, lit "B"⟩] := by
  refine ⟨by decide, fun h => ?_⟩
  have hname := h.names ⟨0, lit "B"⟩ (by simp)
  simp only [get_by_name, get_by_code, name_refs_eq, code_refs_eq] at hname
  revert hname
  decide

end Enum

end Rellaf.Enums
