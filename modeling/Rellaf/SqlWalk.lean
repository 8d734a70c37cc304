/-
`get_plain_val` and `get_list_val`: the walks of a placeholder through a model.

The documentation describes one walk (`walk (child index_of)`): from an object to the
member of a name, from a list by `<i>` to an item, from nowhere else. The two functions
walk in ways of their own. `get_plain_val` reads an index with `strtoul` and looks at
the node before it looks whether sections are left (`get_plain_val_iff`). `get_list_val`
asks the model where it began what kind of node it stands on, and without its `assert`
it passes over names that it does not find (`get_list_val_iff`). Neither looks whether
the node is null (`nullSafe_iff`).
-/
import Rellaf.Lib.MemberMap
import Rellaf.Lib.PathWalk
import Rellaf.ModelTree
import Rellaf.SqlBuilder

set_option autoImplicit false

open Rellaf.Cpp Rellaf.Models PathWalk

namespace Rellaf.Sql

open Model
open Decimal (is_digit)

/-! ## The documented walk -/

/-- The number of a section `<i>`. No list has an item with a number that is no
`size_t`. -/
def index_of (section_ : Str) : Option Nat :=
  if section_.head? = some 60 ∧ section_.getLast? = some 62 then
    let digits := section_.tail.dropLast
    if digits ≠ [] ∧ digits.all is_digit = true ∧ digits_value digits 0 < 2 ^ 64 then
      some (digits_value digits 0)
    else none
  else none

/-- The member of an object that has the name. -/
def named_member (plains : List (Str × Plain)) (lists : List (Str × List Model))
    (objects : List (Str × Model)) (name : Str) : Option Model :=
  ((plains.lookup name).map plain).or (((lists.lookup name).map (list [])).or (objects.lookup name))

/-- Where a section leads: in an object to the member of that name, in a list to the item
with the number that `index` finds in the section, null where the list has none. -/
def child (index : Str → Option Nat) : Model → Str → Option Model
  | object _ _ plains lists objects, section_ => named_member plains lists objects section_
  | list _ items, section_ => (index section_).map fun i => items.getD i null
  | _, _ => none

/-- The text of a plain, and whether it is quoted and escaped: a CHAR and a STR is. To
`is_plain` a model without a type is no plain. -/
def plain_val : Model → Option (Str × Bool × Bool)
  | plain p =>
    if p.type = .no then none
    else some (p.str, decide (p.type = .CHAR ∨ p.type = .STR), decide (p.type = .CHAR ∨ p.type = .STR))
  | _ => none

/-- What `#{...}` stands for: all sections lead to a plain. -/
def plain_at (root : Model) (sections : List Str) : Option (Str × Bool × Bool) :=
  (walk (child index_of) root sections).bind plain_val

/-- The texts of the plain items. -/
def item_texts (items : List Model) : List Str :=
  items.filterMap fun m => (plain_val m).map Prod.fst

/-- What `#[...]` stands for: all sections lead to a list. -/
def list_at (root : Model) (sections : List Str) : Option (List Str) :=
  (walk (child index_of) root sections).bind fun m =>
    match m with
    | list _ items => some (item_texts items)
    | _ => none

/-! ## The sections that index a list -/

/-- What the functions take for an index: anything in angle brackets, read by
`strtoul`. -/
def index_read (section_ : Str) : Option Nat :=
  if section_.head? = some 60 ∧ section_.getLast? = some 62 then
    some (strtoul (section_.drop 1)).toNat
  else none

/-- Digits in front of a bracket. -/
theorem strtoul_digits {digits : Str} (hne : digits ≠ []) (h : digits.all is_digit = true)
    (hlt : digits_value digits 0 < 2 ^ 64) :
    (strtoul (digits ++ [62])).toNat = digits_value digits 0 := by
  have hvalue : digits_value (digits ++ [62]) 0 = digits_value digits 0 := by
    rw [digits_value_append h (by rintro c ⟨⟩; decide), digits_value_of_all h]
  obtain ⟨c, digits, rfl⟩ := List.exists_cons_of_ne_nil hne
  have hc : is_digit c = true := by
    rw [List.all_cons, Bool.and_eq_true] at h
    exact h.1
  have hread : strtoul (c :: digits ++ [62]) =
      strtoul.of_digits false (digits_value (c :: digits ++ [62]) 0) := strtoul_of_digit hc _
  rw [hread, hvalue, strtoul.of_digits, if_pos hlt]
  exact UInt64.toNat_ofNat_of_lt' hlt

/-- An index is read as what it is. -/
theorem index_read_of_index_of {section_ : Str} {i : Nat} (h : index_of section_ = some i) :
    index_read section_ = some i := by
  rw [index_of] at h
  split at h
  next hbrackets =>
    rw [Option.ite_none_right_eq_some] at h
    obtain ⟨⟨hne, hdigits, hlt⟩, h⟩ := h
    rw [index_read, if_pos hbrackets, ← h]
    congr 1
    cases section_ with
    | nil => cases hbrackets.1
    | cons c s =>
      rw [List.tail_cons] at hne hdigits hlt ⊢
      -- the last byte, behind the digits, is the bracket
      have hs : s = s.dropLast ++ [62] := by
        have hlast : s.getLast? = some 62 := by
          cases s with
          | nil => exact absurd rfl hne
          | cons d s => simpa using hbrackets.2
        obtain ⟨front, rfl⟩ := List.getLast?_eq_some_iff.mp hlast
        rw [List.dropLast_concat]
      rw [List.drop_one, List.tail_cons]
      conv_lhs => rw [hs]
      exact strtoul_digits hne hdigits hlt
  next => cases h

/-- `is_index` and `item` of the source. -/
theorem is_index_eq {section_ : Str} (h : section_ ≠ []) :
    is_index section_ = .ok (index_read section_).isSome := by
  cases section_ with
  | nil => exact absurd rfl h
  | cons c s =>
    obtain ⟨d, hback, hlast⟩ := back_ok_of_ne_nil h
    rw [is_index, front_cons, run_ok_bind, index_read, hlast, List.head?_cons]
    by_cases hc : c = 60
    · subst hc
      rw [if_neg (not_not.mpr rfl), hback, run_ok_bind]
      by_cases hd : d = 62
      · simp [hd]
      · simp [hd]
    · simp [hc]

theorem index_read_nil : index_read [] = none := rfl

theorem item_eq {section_ : Str} {i : Nat} (h : index_read section_ = some i) (tag : Str)
    (items : List Model) : item (list tag items) section_ = .ok (items.getD i null) := by
  rw [index_read, Option.ite_none_right_eq_some, Option.some.injEq] at h
  rw [item, h.2]
  rfl

/-! ## The nodes of a tree -/

section proper

variable {P : Model → Prop} {tag : Str} {clazz : Clazz} {plains : List (Str × Plain)}
  {lists : List (Str × List Model)} {objects : List (Str × Model)}

theorem proper_child {index : Str → Option Nat} {m m' : Model} {section_ : Str} (h : m.Proper P)
    (hchild : child index m section_ = some m') : m'.Proper P := by
  cases h with
  | null => cases hchild
  | void _ => cases hchild
  | plain _ => cases hchild
  | @list tag items hitems =>
    obtain ⟨i, -, rfl⟩ := Option.map_eq_some_iff.mp hchild
    rw [List.getD_eq_getElem?_getD]
    cases hi : items[i]? with
    | none => exact .null
    | some m => exact hitems m (List.mem_of_getElem? hi)
  | @object tag clazz plains lists objects _ _ _ _ _ hplains hlists _ hobjects =>
    rw [child, named_member, Option.or_eq_some_iff, Option.or_eq_some_iff] at hchild
    rcases hchild with hplain | ⟨-, hlist | ⟨-, hobject⟩⟩
    · obtain ⟨p, hp, rfl⟩ := Option.map_eq_some_iff.mp hplain
      exact .plain (hplains (section_, p) (MemberMap.mem_of_lookup hp))
    · obtain ⟨items, hitems, rfl⟩ := Option.map_eq_some_iff.mp hlist
      exact .list (hlists (section_, items) (MemberMap.mem_of_lookup hitems))
    · exact hobjects (section_, m') (MemberMap.mem_of_lookup hobject)

/-- The member that the class declares is there, so the search finds what is there. -/
theorem member_eq (h : (object tag clazz plains lists objects).Proper P) (section_ : Str) :
    member (object tag clazz plains lists objects) section_ =
      .ok (named_member plains lists objects section_) := by
  cases h with
  | object hschema _ _ _ _ _ _ _ _ =>
  -- the name is looked up in the class, the value in the object: both have the same keys
  have hkeys : (clazz.plain_names.lookup section_).isSome = (plains.lookup section_).isSome := by
    rw [Bool.eq_iff_iff, ← MemberMap.mem_keys_iff_lookup, ← MemberMap.mem_keys_iff_lookup,
      keys_of_schema_eq hschema]
  unfold member named_member
  cases hplain : plains.lookup section_ with
  | some p =>
    rw [hplain] at hkeys
    simp [is_plain_member, get_plain, hkeys, hplain]
  | none =>
    rw [hplain] at hkeys
    cases hlist : lists.lookup section_ with
    | some items => simp [is_plain_member, is_list_member, get_list, hkeys, hlist]
    | none =>
      cases hobject : objects.lookup section_ with
      | some m =>
        simp [is_plain_member, is_list_member, is_object_member, get_object, hkeys, hlist, hobject]
      | none => simp [is_plain_member, is_list_member, is_object_member, hkeys, hlist, hobject]

end proper

theorem is_plain_eq {m : Model} (h : m.Proper Typed) (hnull : m ≠ null) :
    m.is_plain = .ok (plain_val m).isSome := by
  cases h with
  | null => exact absurd rfl hnull
  | void _ => rfl
  | list _ => rfl
  | object => rfl
  | @plain p htyped =>
    rcases htyped with htype | htype
    · cases hval : p.val <;> rw [hval] at htype <;>
        simp [Model.is_plain, rellaf_type, plain_val, htype, PlainVal.kind]
    · simp [Model.is_plain, rellaf_type, plain_val, htype]

theorem get_plain_val_str_eq {m : Model} (h : m.Proper Typed) {val : Str × Bool × Bool}
    (hval : plain_val m = some val) : get_plain_val_str m = .ok (some val) := by
  cases h with
  | null => cases hval
  | void _ => cases hval
  | list _ => cases hval
  | object => cases hval
  | @plain p htyped =>
    rw [plain_val, Option.ite_none_left_eq_some, Option.some.injEq] at hval
    obtain ⟨hno, rfl⟩ := hval
    rcases htyped with htype | htype
    · cases hkind : p.val <;> rw [hkind] at htype <;>
        simp [get_plain_val_str, rellaf_type, Model.str, htype, PlainVal.kind]
    · exact absurd htype hno

/-! ## The walk of `get_plain_val` -/

theorem ends_plain {index : Str → Option Nat} {m : Model} {val : Str × Bool × Bool}
    (h : plain_val m = some val) (left : List Str) : Ends (child index) m left := by
  apply ends_of_forall
  intro k
  cases m with
  | plain p => rfl
  | _ => cases h

/-- A round of the loop. -/
theorem get_plain_val_loop_next {m m' : Model} {section_ : Str} (h : m.Proper Typed)
    (hstep : child index_read m section_ = some m') (sections : List Str) :
    get_plain_val_loop m (section_ :: sections) = get_plain_val_loop m' sections := by
  cases m with
  | null => cases hstep
  | void tag => cases hstep
  | plain p => cases hstep
  | list tag items =>
    obtain ⟨i, hi, rfl⟩ := Option.map_eq_some_iff.mp hstep
    have hne : section_ ≠ [] := by
      rintro rfl
      rw [index_read_nil] at hi
      cases hi
    have hplain : (list tag items).is_plain = .ok false := rfl
    have hobject : (list tag items).is_object = .ok false := rfl
    have hlist : (list tag items).is_list = .ok true := rfl
    rw [get_plain_val_loop, hplain, hobject, hlist, is_index_eq hne, hi, item_eq hi]
    rfl
  | object tag clazz plains lists objects =>
    have hplain : (object tag clazz plains lists objects).is_plain = .ok false := rfl
    have hobject : (object tag clazz plains lists objects).is_object = .ok true := rfl
    have hnamed : named_member plains lists objects section_ = some m' := hstep
    rw [get_plain_val_loop, hplain, hobject, member_eq h, hnamed]
    rfl

/-- The rounds up to a place of the walk. -/
theorem get_plain_val_loop_comes {m m' : Model} {sections left : List Str} (h : m.Proper Typed)
    (hcomes : Comes (child index_read) m sections m' left) :
    get_plain_val_loop m sections = get_plain_val_loop m' left := by
  induction hcomes with
  | here => rfl
  | next hstep _ ih => rw [get_plain_val_loop_next h hstep, ih (proper_child h hstep)]

theorem get_plain_val_loop_null (left : List Str) :
    get_plain_val_loop null left = .error .undefined := by
  cases left <;> rfl

/-- A plain is taken whether sections are left or not. -/
theorem get_plain_val_loop_plain {m : Model} (h : m.Proper Typed) {val : Str × Bool × Bool}
    (hval : plain_val m = some val) (left : List Str) :
    get_plain_val_loop m left = .ok (some val) := by
  have hnull : m ≠ null := by
    rintro rfl
    cases hval
  cases left with
  | nil => rw [get_plain_val_loop, is_plain_eq h hnull, hval, get_plain_val_str_eq h hval]; rfl
  | cons section_ left =>
    rw [get_plain_val_loop, is_plain_eq h hnull, hval, get_plain_val_str_eq h hval]
    rfl

theorem get_plain_val_loop_list_empty (tag : Str) (items : List Model) (left : List Str) :
    get_plain_val_loop (list tag items) ([] :: left) = .error .undefined := rfl

/-- A model that is none of the three kinds is never left. -/
theorem get_plain_val_loop_other {m : Model} (hplain : m.is_plain = .ok false)
    (hobject : m.is_object = .ok false) (hlist : m.is_list = .ok false) (left : List Str) :
    get_plain_val_loop m left = .ok none := by
  induction left with
  | nil =>
    rw [get_plain_val_loop, hplain]
    rfl
  | cons section_ left ih =>
    rw [get_plain_val_loop, hplain, hobject, hlist]
    exact ih

/-- At the end of the walk, where that is neither null nor a plain. -/
theorem get_plain_val_loop_end {m : Model} {left : List Str} (h : m.Proper Typed)
    (hends : Ends (child index_read) m left) (hnull : m ≠ null) (hval : plain_val m = none)
    (hempty : ∀ tag items, m = list tag items → left.head? ≠ some []) :
    get_plain_val_loop m left = .ok none := by
  have hplain : m.is_plain = .ok false := by rw [is_plain_eq h hnull, hval]; rfl
  cases m with
  | null => exact absurd rfl hnull
  | void tag => exact get_plain_val_loop_other hplain rfl rfl left
  | plain p =>
    -- only a model without a type is a plain and no value
    have htype : p.type = .no := by
      by_contra hno
      rw [plain_val, if_neg hno] at hval
      cases hval
    refine get_plain_val_loop_other hplain ?_ ?_ left
    · simp [is_object, rellaf_type, htype]
    · simp [is_list, rellaf_type, htype]
  | list tag items =>
    cases left with
    | nil =>
      rw [get_plain_val_loop, hplain]
      rfl
    | cons section_ left =>
      have hne : section_ ≠ [] := fun heq => hempty tag items rfl (congrArg some heq)
      have hindex : index_read section_ = none := Option.map_eq_none_iff.mp (hends section_ rfl)
      have hobject : (list tag items).is_object = .ok false := rfl
      have hlist : (list tag items).is_list = .ok true := rfl
      rw [get_plain_val_loop, hplain, hobject, hlist, is_index_eq hne, hindex]
      rfl
  | object tag clazz plains lists objects =>
    cases left with
    | nil =>
      rw [get_plain_val_loop, hplain]
      rfl
    | cons section_ left =>
      have hobject : (object tag clazz plains lists objects).is_object = .ok true := rfl
      have hnamed : named_member plains lists objects section_ = none := hends section_ rfl
      rw [get_plain_val_loop, hplain, hobject, member_eq h, hnamed]
      rfl

/-- An object has the loop do all the work. -/
theorem get_plain_val_object (tag : Str) (clazz : Clazz) (plains : List (Str × Plain))
    (lists : List (Str × List Model)) (objects : List (Str × Model)) (sections : List Str) :
    get_plain_val (object tag clazz plains lists objects) sections =
      get_plain_val_loop (object tag clazz plains lists objects) sections := by
  cases sections <;> rfl

/-- No place of the walk is null; one that is a plain is the end of the sections, which
the documented walk reaches too; and no list is asked for an empty section. -/
def PlainFits (root : Model) (sections : List Str) : Prop :=
  ∀ m left, Comes (child index_read) root sections m left →
    m ≠ null ∧
    ((plain_val m).isSome = true → left = [] ∧ walk (child index_of) root sections = some m) ∧
    ∀ tag items, m = list tag items → left.head? ≠ some []

/-- What the documented walk passes, the other one passes. -/
theorem child_read {m m' : Model} {section_ : Str} (h : child index_of m section_ = some m') :
    child index_read m section_ = some m' := by
  cases m with
  | list tag items =>
    obtain ⟨i, hi, rfl⟩ := Option.map_eq_some_iff.mp h
    rw [child, index_read_of_index_of hi]
    rfl
  | object => exact h
  | _ => cases h

theorem comes_of_walk {root m : Model} {sections : List Str}
    (h : walk (child index_of) root sections = some m) :
    Comes (child index_read) root sections m [] :=
  (walk_eq_some_iff.mp h).mono fun _ _ _ hstep => child_read hstep

/-- **When a placeholder `#{...}` is resolved as documented.** -/
theorem get_plain_val_iff (tag : Str) (clazz : Clazz) (plains : List (Str × Plain))
    (lists : List (Str × List Model)) (objects : List (Str × Model))
    (h : (object tag clazz plains lists objects).Proper Typed) (sections : List Str) :
    get_plain_val (object tag clazz plains lists objects) sections =
        .ok (plain_at (object tag clazz plains lists objects) sections) ↔
      PlainFits (object tag clazz plains lists objects) sections := by
  rw [get_plain_val_object]
  generalize object tag clazz plains lists objects = root at h ⊢
  constructor
  · intro hval m left hcomes
    rw [get_plain_val_loop_comes h hcomes] at hval
    have hm : m.Proper Typed := hcomes.preserves (fun _ _ _ => proper_child) h
    refine ⟨?_, ?_, ?_⟩
    · rintro rfl
      rw [get_plain_val_loop_null] at hval
      cases hval
    · intro hplain
      obtain ⟨val, hplain⟩ := Option.isSome_iff_exists.mp hplain
      rw [get_plain_val_loop_plain hm hplain, Except.ok.injEq] at hval
      obtain ⟨m', hwalk, hplain'⟩ := Option.bind_eq_some_iff.mp hval.symm
      -- the two ends are on one walk, and no walk goes on from a plain
      have hbefore := hcomes.before_end (comes_of_walk hwalk) (ends_plain hplain' [])
      obtain ⟨rfl, rfl⟩ := hbefore.stuck (ends_plain hplain left)
      exact ⟨rfl, hwalk⟩
    · rintro tag items rfl hleft
      obtain ⟨left, rfl⟩ := List.head?_eq_some_iff.mp hleft
      rw [get_plain_val_loop_list_empty] at hval
      cases hval
  · intro hfits
    -- the loop goes to the end of its own walk, and what is there decides
    obtain ⟨m, left, hcomes, hends⟩ := exists_ends (child index_read) root sections
    have hm : m.Proper Typed := hcomes.preserves (fun _ _ _ => proper_child) h
    obtain ⟨hnull, hplain, hempty⟩ := hfits m left hcomes
    rw [get_plain_val_loop_comes h hcomes]
    cases hval : plain_val m with
    | some val =>
      obtain ⟨rfl, hwalk⟩ := hplain (Option.isSome_iff_exists.mpr ⟨val, hval⟩)
      rw [get_plain_val_loop_plain hm hval, plain_at, hwalk, Option.bind_some, hval]
    | none =>
      rw [get_plain_val_loop_end hm hends hnull hval hempty]
      congr 1
      symm
      rw [plain_at, Option.bind_eq_none_iff]
      intro m' hwalk
      -- a plain of the documented walk would be the end of the other one too
      by_contra hval'
      obtain ⟨val', hval'⟩ := Option.ne_none_iff_exists'.mp hval'
      have hbefore := (comes_of_walk hwalk).before_end hcomes hends
      obtain ⟨rfl, rfl⟩ := hbefore.stuck (ends_plain hval' [])
      rw [hval] at hval'
      cases hval'

/-- An object with a number `id`, a list `rows` and a null `next`. -/
def node (rows : List Model) : Model :=
  let p : Plain := ⟨[], .INT, .INT 7, none, some fun _ => lit "7"⟩
  object [] ⟨lit "Node", [(lit "id", p)]⟩ [(lit "id", p)] [(lit "rows", rows)] [(lit "next", null)]

theorem proper_node {rows : List Model} (h : ∀ m ∈ rows, m.Proper Typed) :
    (node rows).Proper Typed := by
  have hnames : [lit "id", lit "rows", lit "next"].Nodup := by decide
  refine .object rfl hnames ?_ ?_ ?_ ?_ ?_ ?_ ?_
  · simp [PlainVal.kind]
  · simp [PlainVal.kind]
  · simp [Typed, PlainVal.kind]
  · simp [Typed, PlainVal.kind]
  · simpa using h
  · simp [is_object_pointer]
  · simpa using Model.Proper.null

/-- `#{rows.<0>.id}` -/
theorem get_plain_val_iff_rows :
    get_plain_val (node [node []]) [lit "rows", lit "<0>", lit "id"] =
        .ok (some (lit "7", false, false)) ∧
      PlainFits (node [node []]) [lit "rows", lit "<0>", lit "id"] := by
  have hrows : (node [node []]).Proper Typed :=
    proper_node (List.forall_mem_singleton.mpr (proper_node (List.forall_mem_nil _)))
  exact ⟨rfl, (get_plain_val_iff _ _ _ _ _ hrows _).mp rfl⟩

/-- `#{id.x}` goes on from a plain, and gets its value. -/
theorem get_plain_val_long :
    ¬ ∀ (tag : Str) (clazz : Clazz) (plains : List (Str × Plain)) (lists : List (Str × List Model))
      (objects : List (Str × Model)), (object tag clazz plains lists objects).Proper Typed →
      ∀ sections : List Str, sections ≠ [] →
        (∀ left, ¬ Comes (child index_of) (object tag clazz plains lists objects) sections null left) →
        get_plain_val (object tag clazz plains lists objects) sections =
          .ok (plain_at (object tag clazz plains lists objects) sections) := by
  intro hall
  have hplain := hall _ _ _ _ _ (proper_node (List.forall_mem_nil _)) [lit "id", lit "x"]
    (List.cons_ne_nil _ _) ?_
  · cases hplain
  · intro left hcomes
    cases hcomes with
    | next hstep hrest =>
      cases hstep
      cases hrest with
      | next hstep _ => cases hstep

/-! ## The walk of `get_list_val` -/

/-- Where the loop goes, by the kind of the model where it began. From an object it takes
every node for an object, and without the `assert` it stays at one that has no member of
the name; from a list it takes every node for a list. -/
def list_child (env : Env) (root : Model) (travel : Model) (section_ : Str) : Option Model :=
  match root with
  | object _ _ _ _ _ =>
    match travel with
    | object _ _ plains lists objects =>
      (named_member plains lists objects section_).or (if env.ndebug then some travel else none)
    | _ => none
  | list _ _ =>
    match travel with
    | list _ items => (index_read section_).map fun i => items.getD i null
    | _ => none
  | _ => some travel

/-- The models from which the loop moves on. -/
inductive Rooted : Model → Prop where
  | object (tag : Str) (clazz : Clazz) (plains : List (Str × Plain))
      (lists : List (Str × List Model)) (objects : List (Str × Model)) :
    Rooted (object tag clazz plains lists objects)
  | list (tag : Str) (items : List Model) : Rooted (list tag items)

section loop

variable {env : Env} {single : Bool} {root : Model}

/-- A round of the loop from an object. -/
theorem get_list_val_loop_object (hplain : root.is_plain = .ok false)
    (hobject : root.is_object = .ok true) (m : Model) (section_ : Str) (sections : List Str) :
    get_list_val_loop env root single m (section_ :: sections) = (do
      match ← member m section_ with
      | some m => get_list_val_loop env root single m sections
      | none =>
        if env.ndebug then get_list_val_loop env root single m sections else .error .abort) := by
  rw [get_list_val_loop, hplain, hobject]
  cases single with
  | false => rfl
  | true => rfl

/-- A round of the loop from a list. -/
theorem get_list_val_loop_list (hplain : root.is_plain = .ok false)
    (hobject : root.is_object = .ok false) (hlist : root.is_list = .ok true) (m : Model)
    (section_ : Str) (sections : List Str) :
    get_list_val_loop env root single m (section_ :: sections) = (do
      if ← is_index section_ then
        get_list_val_loop env root single (← item m section_) sections
      else return none) := by
  rw [get_list_val_loop, hplain, hobject, hlist]
  simp only [run_ok_bind, Bool.and_false, Bool.false_eq_true, if_false, if_true]

theorem get_list_val_loop_next {m m' : Model} {section_ : Str} (hroot : Rooted root)
    (h : m.Proper Typed) (hstep : list_child env root m section_ = some m') (sections : List Str) :
    get_list_val_loop env root single m (section_ :: sections) =
      get_list_val_loop env root single m' sections := by
  cases hroot with
  | object _ _ _ _ _ =>
    rw [get_list_val_loop_object rfl rfl]
    cases m with
    | object tag clazz plains lists objects =>
      rw [list_child] at hstep
      rw [member_eq h, run_ok_bind]
      cases hnamed : named_member plains lists objects section_ with
      | some m =>
        rw [hnamed, Option.some_or] at hstep
        obtain rfl := Option.some.inj hstep
        rfl
      | none =>
        rw [hnamed, Option.none_or, Option.ite_none_right_eq_some, Option.some.injEq] at hstep
        obtain ⟨hndebug, rfl⟩ := hstep
        exact if_pos hndebug
    | _ => cases hstep
  | list _ _ =>
    rw [get_list_val_loop_list rfl rfl rfl]
    cases m with
    | list tag items =>
      obtain ⟨i, hi, rfl⟩ := Option.map_eq_some_iff.mp hstep
      have hne : section_ ≠ [] := by
        rintro rfl
        rw [index_read_nil] at hi
        cases hi
      rw [is_index_eq hne, hi, item_eq hi]
      rfl
    | _ => cases hstep

theorem proper_list_child {P : Model → Prop} {m m' : Model} {section_ : Str} (h : m.Proper P)
    (hstep : list_child env root m section_ = some m') : m'.Proper P := by
  -- a step leads to a child, or stays
  have hread : child index_read m section_ = some m' ∨ m = m' := by
    cases root with
    | object _ _ _ _ _ =>
      cases m with
      | object tag clazz plains lists objects =>
        rw [list_child, Option.or_eq_some_iff, Option.ite_none_right_eq_some] at hstep
        rcases hstep with hnamed | ⟨-, -, hstay⟩
        · exact .inl hnamed
        · exact .inr (Option.some.inj hstay)
      | _ => cases hstep
    | list _ _ =>
      cases m with
      | list tag items => exact .inl hstep
      | _ => cases hstep
    | _ => exact .inr (Option.some.inj hstep)
  rcases hread with hread | rfl
  · exact proper_child h hread
  · exact h

theorem get_list_val_loop_comes {m m' : Model} {sections left : List Str} (hroot : Rooted root)
    (h : m.Proper Typed) (hcomes : Comes (list_child env root) m sections m' left) :
    get_list_val_loop env root single m sections = get_list_val_loop env root single m' left := by
  induction hcomes with
  | here => rfl
  | next hstep _ ih =>
    rw [get_list_val_loop_next hroot h hstep, ih (proper_list_child h hstep)]

/-- From an object, what is no object is cast to one. -/
theorem get_list_val_loop_cast (hndebug : env.ndebug = true) {tag : Str} {clazz : Clazz}
    {plains : List (Str × Plain)} {lists : List (Str × List Model)} {objects : List (Str × Model)}
    {m : Model} {section_ : Str}
    (hstep : list_child env (object tag clazz plains lists objects) m section_ = none)
    (left : List Str) :
    get_list_val_loop env (object tag clazz plains lists objects) single m (section_ :: left) =
      .error .undefined := by
  rw [get_list_val_loop_object rfl rfl]
  cases m with
  | object _ _ _ _ _ =>
    rw [list_child, if_pos hndebug, Option.or_eq_none_iff] at hstep
    cases hstep.2
  | _ => rfl

end loop

/-! ## The items -/

theorem plain_texts_eq {items : List Model} (h : ∀ m ∈ items, m.Proper Typed)
    (hnull : null ∉ items) : plain_texts items = .ok (item_texts items) := by
  induction items with
  | nil => rfl
  | cons m items ih =>
    rw [List.mem_cons, not_or] at hnull
    obtain ⟨hm, hitems⟩ := List.forall_mem_cons.mp h
    have hne : m ≠ null := fun heq => hnull.1 heq.symm
    rw [plain_texts, is_plain_eq hm hne, run_ok_bind, ih hitems hnull.2]
    cases m with
    | plain p =>
      by_cases htype : p.type = .no
      · simp [item_texts, plain_val, htype]
      · simp [item_texts, plain_val, htype, Model.str]
    | _ => rfl

/-- The loop reads the type of every item. -/
theorem plain_texts_null {items : List Model} (h : ∀ m ∈ items, m.Proper Typed)
    (hnull : null ∈ items) : plain_texts items = .error .undefined := by
  induction items with
  | nil => cases hnull
  | cons m items ih =>
    obtain ⟨hm, hitems⟩ := List.forall_mem_cons.mp h
    by_cases hne : m = null
    · subst hne
      rfl
    · have hrest : null ∈ items := by
        rcases List.mem_cons.mp hnull with heq | hrest
        · exact absurd heq.symm hne
        · exact hrest
      rw [plain_texts, is_plain_eq hm hne, run_ok_bind, ih hitems hrest]
      cases hval : (plain_val m).isSome with
      | false => rfl
      | true =>
        cases m with
        | plain p => rfl
        | _ => cases hval

/-! ## Where `get_list_val` resolves a placeholder -/

/-- What `get_list_val` does with the place where the loop ends. -/
def listed (travel : Model) : Run (Option (List Str)) := do
  if ← travel.is_list then return some (← plain_texts (← travel.items)) else return none

theorem get_list_val_eq (env : Env) {root : Model} (hroot : root ≠ null) {sections : List Str}
    (hsections : sections ≠ []) :
    get_list_val env root sections = (do
      match ← get_list_val_loop env root (sections.length = 1) root sections with
      | none => return none
      | some travel => listed travel) := by
  have hempty : ¬ sections.isEmpty = true := by simpa using hsections
  cases root with
  | null => exact absurd rfl hroot
  | _ => exact if_neg hempty

theorem listed_null : listed null = .error .undefined := rfl

theorem listed_list (tag : Str) (items : List Model) :
    listed (list tag items) = (do return some (← plain_texts items)) := rfl

/-- Where the loop ends on a list, its texts are returned. -/
theorem listed_list_ok {tag : Str} {items : List Model} (h : (list tag items).Proper Typed)
    (hnull : null ∉ items) : listed (list tag items) = .ok (some (item_texts items)) := by
  cases h with
  | list hitems =>
  rw [listed_list, plain_texts_eq hitems hnull]
  rfl

theorem listed_list_null {tag : Str} {items : List Model} (h : (list tag items).Proper Typed)
    (hnull : null ∈ items) : listed (list tag items) = .error .undefined := by
  cases h with
  | list hitems =>
  rw [listed_list, plain_texts_null hitems hnull]
  rfl

theorem listed_other {m : Model} (h : m.Proper Typed) (hnull : m ≠ null)
    (hlist : ∀ tag items, m ≠ list tag items) : listed m = .ok none := by
  cases h with
  | null => exact absurd rfl hnull
  | list _ => exact absurd rfl (hlist _ _)
  | void _ => rfl
  | object => rfl
  | @plain p htyped =>
    have htype : p.type ≠ .LIST := by
      rcases htyped with htype | htype
      · cases hval : p.val <;> rw [hval] at htype <;> simp [htype, PlainVal.kind]
      · simp [htype]
    simp [listed, is_list, rellaf_type, htype]

/-- All sections pass, and the walk does not end at null; where it ends at a list, the
documented walk ends there too, and no item is null. -/
def ListFits (env : Env) (root : Model) (sections : List Str) : Prop :=
  ∃ m, walk (list_child env root) root sections = some m ∧ m ≠ null ∧
    ∀ tag items, m = list tag items →
      walk (child index_of) root sections = some m ∧ null ∉ items

section object

variable {env : Env} {tag : Str} {clazz : Clazz} {plains : List (Str × Plain)}
  {lists : List (Str × List Model)} {objects : List (Str × Model)}

/-- Both walks step from objects alone, and by one name to one member. -/
theorem walk_eq_of_list_walk {m m' m'' : Model} {sections : List Str}
    (hwalk : walk (child index_of) m sections = some m')
    (hlist : walk (list_child env (object tag clazz plains lists objects)) m sections = some m'') :
    m'' = m' := by
  induction sections generalizing m with
  | nil => exact (Option.some.inj hlist).symm.trans (Option.some.inj hwalk)
  | cons section_ sections ih =>
    obtain ⟨t, hstep, hrest⟩ := Option.bind_eq_some_iff.mp hwalk
    obtain ⟨t', hstep', hrest'⟩ := Option.bind_eq_some_iff.mp hlist
    cases m with
    | object _ _ plains lists objects =>
      have hnamed : named_member plains lists objects section_ = some t := hstep
      rw [list_child, hnamed, Option.some_or] at hstep'
      obtain rfl := Option.some.inj hstep'
      exact ih hrest hrest'
    | _ => cases hstep'

/-- **When a placeholder `#[...]` is resolved as documented**, without the `assert`. A
cast to a class that the node does not have ends in a fault, so that a call that returns
makes none. -/
theorem get_list_val_iff (tag : Str) (clazz : Clazz) (plains : List (Str × Plain))
    (lists : List (Str × List Model)) (objects : List (Str × Model))
    (h : (object tag clazz plains lists objects).Proper Typed) (env : Env)
    (hndebug : env.ndebug = true) (sections : List Str) :
    get_list_val env (object tag clazz plains lists objects) sections =
        .ok (list_at (object tag clazz plains lists objects) sections) ↔
      ListFits env (object tag clazz plains lists objects) sections := by
  have hroot : object tag clazz plains lists objects ≠ null := nofun
  by_cases hsections : sections = []
  · subst hsections
    exact iff_of_true rfl ⟨object tag clazz plains lists objects, rfl, hroot, nofun⟩
  rw [get_list_val_eq env hroot hsections]
  obtain ⟨m, left, hcomes, hends⟩ := exists_ends
    (list_child env (object tag clazz plains lists objects)) (object tag clazz plains lists objects)
    sections
  have hm : m.Proper Typed := hcomes.preserves (fun _ _ _ => proper_list_child) h
  rw [get_list_val_loop_comes (.object tag clazz plains lists objects) h hcomes]
  cases left with
  | cons section_ left =>
    -- without the `assert` only a cast stops the loop in front of a section
    rw [get_list_val_loop_cast hndebug (hends section_ rfl)]
    constructor
    · intro hval
      cases hval
    · rintro ⟨m', hwalk, -⟩
      have hbefore := (walk_eq_some_iff.mp hwalk).before_end hcomes hends
      have hend := hbefore.stuck (ends_nil m')
      cases hend.2
  | nil =>
    have hwalk := walk_eq_some_iff.mpr hcomes
    show listed m = _ ↔ _
    constructor
    · intro hval
      refine ⟨m, hwalk, ?_, ?_⟩
      · rintro rfl
        rw [listed_null] at hval
        cases hval
      · rintro tag items rfl
        by_cases hnull : null ∈ items
        · rw [listed_list_null hm hnull] at hval
          cases hval
        -- the texts are those of a list to which the documented walk leads
        · rw [listed_list_ok hm hnull, Except.ok.injEq] at hval
          obtain ⟨m', hwalk', -⟩ := Option.bind_eq_some_iff.mp hval.symm
          rw [walk_eq_of_list_walk hwalk' hwalk]
          exact ⟨hwalk', hnull⟩
    · rintro ⟨m', hwalk', hnull, hlist⟩
      obtain rfl : m = m' := Option.some.inj (hwalk.symm.trans hwalk')
      by_cases hm' : ∃ tag items, m = list tag items
      · obtain ⟨tag, items, rfl⟩ := hm'
        obtain ⟨hdocumented, hitems⟩ := hlist tag items rfl
        rw [listed_list_ok hm hitems, list_at, hdocumented]
        rfl
      · have hother : ∀ tag items, m ≠ list tag items := fun tag items heq => hm' ⟨tag, items, heq⟩
        rw [listed_other hm hnull hother]
        -- and the documented walk finds no list either
        congr 1
        symm
        rw [list_at, Option.bind_eq_none_iff]
        intro m' hdocumented
        obtain rfl := walk_eq_of_list_walk hdocumented hwalk
        cases m with
        | list tag items => exact absurd rfl (hother tag items)
        | _ => rfl

end object

/-- `#[rows]` -/
theorem get_list_val_iff_rows :
    get_list_val ⟨true, fun _ => true⟩ (node [plain ⟨[], .INT, .INT 7, none, some fun _ => lit "7"⟩])
        [lit "rows"] = .ok (some [lit "7"]) ∧
      ListFits ⟨true, fun _ => true⟩
        (node [plain ⟨[], .INT, .INT 7, none, some fun _ => lit "7"⟩]) [lit "rows"] := by
  have hrows : (node [plain ⟨[], .INT, .INT 7, none, some fun _ => lit "7"⟩]).Proper Typed :=
    proper_node (List.forall_mem_singleton.mpr (.plain (.inl rfl)))
  exact ⟨rfl, (get_list_val_iff _ _ _ _ _ hrows ⟨true, fun _ => true⟩ rfl _).mp rfl⟩

/-- `#[rows.<0>]`, with a list in the list: the outer one is cast to an object. -/
theorem get_list_val_nested :
    ¬ ∀ (tag : Str) (clazz : Clazz) (plains : List (Str × Plain)) (lists : List (Str × List Model))
      (objects : List (Str × Model)), (object tag clazz plains lists objects).Proper Typed →
      ∀ env : Env, env.ndebug = true → ∀ sections : List Str, sections ≠ [] →
        (∀ left, ¬ Comes (child index_of) (object tag clazz plains lists objects) sections null left) →
        get_list_val env (object tag clazz plains lists objects) sections =
          .ok (list_at (object tag clazz plains lists objects) sections) := by
  intro hall
  have hrows : (node [list [] []]).Proper Typed :=
    proper_node (List.forall_mem_singleton.mpr (.list (List.forall_mem_nil _)))
  have hlist := hall _ _ _ _ _ hrows ⟨true, fun _ => true⟩ rfl [lit "rows", lit "<0>"]
    (List.cons_ne_nil _ _) ?_
  · cases hlist
  · intro left hcomes
    cases hcomes with
    | next hstep hrest =>
      cases hstep
      cases hrest with
      | next hstep hrest =>
        cases hstep
        cases hrest

/-! ## Null -/

/-- Where their walks come to a null, and where `get_list_val` finds one among the items
that it collects, the functions return false. -/
def NullSafe (env : Env) (root : Model) (sections : List Str) : Prop :=
  (∀ left, Comes (child index_read) root sections null left →
    get_plain_val root sections = .ok none) ∧
  ∀ m left, Comes (list_child env root) root sections m left →
    (m = null ∨ left = [] ∧ ∃ tag items, m = list tag items ∧ null ∈ items) →
    get_list_val env root sections = .ok none

def IsObject : Model → Prop
  | object _ _ _ _ _ => True
  | _ => False

/-- There is no null on the way, unless the walk of `get_list_val` from a list goes no
further, since the next section is no index; and none among the items. -/
def NullApart (env : Env) (root : Model) (sections : List Str) : Prop :=
  root = null ∨ sections = [] ∨
    (∀ left, Comes (child index_read) root sections null left → ¬ IsObject root) ∧
    ∀ m left, Comes (list_child env root) root sections m left →
      (m = null → ¬ IsObject root ∧
        ∃ section_ rest, left = section_ :: rest ∧ section_ ≠ [] ∧ index_read section_ = none) ∧
      (left = [] → ∀ tag items, m = list tag items → null ∉ items)

/-- A model that is neither an object nor a list stays the place of both walks. -/
theorem comes_of_not_rooted {env : Env} {root m : Model} {sections left : List Str}
    (hroot : ¬ Rooted root) (hnull : root ≠ null)
    (hcomes : Comes (list_child env root) root sections m left) : m = root := by
  refine hcomes.preserves (P := fun m => m = root) ?_ rfl
  rintro m section_ m' rfl hstep
  cases m with
  | object _ _ _ _ _ => exact absurd (.object _ _ _ _ _) hroot
  | list _ _ => exact absurd (.list _ _) hroot
  | null => exact absurd rfl hnull
  | _ => exact (Option.some.inj hstep).symm

/-- What the loop from an object does with a null. -/
theorem get_list_val_loop_null {env : Env} {single : Bool} {root : Model}
    (hplain : root.is_plain = .ok false) (hobject : root.is_object = .ok true) (section_ : Str)
    (left : List Str) :
    get_list_val_loop env root single null (section_ :: left) = .error .undefined := by
  rw [get_list_val_loop_object hplain hobject]
  rfl

/-- And from a list: an index is read before the null is. -/
theorem get_list_val_loop_list_null {env : Env} {single : Bool} {tag : Str} {items : List Model}
    (section_ : Str) (left : List Str) :
    get_list_val_loop env (list tag items) single null (section_ :: left) =
      if section_ ≠ [] ∧ index_read section_ = none then .ok none else .error .undefined := by
  rw [get_list_val_loop_list rfl rfl rfl]
  by_cases hne : section_ = []
  · subst hne
    rfl
  · rw [is_index_eq hne, run_ok_bind]
    cases hindex : index_read section_ with
    | none => simp [hne]
    | some i =>
      have hnot : ¬ (section_ ≠ [] ∧ some i = none) := fun h => nomatch h.2
      rw [if_neg hnot]
      rfl

/-- From a list, `get_plain_val` returns at once. -/
theorem get_plain_val_list (tag : Str) (items : List Model) (sections : List Str) :
    get_plain_val (list tag items) sections = .ok none := by
  cases sections <;> rfl

theorem nullApart_of_nullSafe {env : Env} {root : Model} (h : root.Proper Typed)
    {sections : List Str} (hnull : root ≠ null) (hsections : sections ≠ [])
    (hsafe : NullSafe env root sections) : NullApart env root sections := by
  obtain ⟨hplain, hlist⟩ := hsafe
  refine .inr (.inr ⟨?_, ?_⟩)
  · intro left hcomes hobject
    have hval := hplain left hcomes
    cases root with
    | object tag clazz plains lists objects =>
      rw [get_plain_val_object, get_plain_val_loop_comes h hcomes, get_plain_val_loop_null] at hval
      cases hval
    | _ => exact hobject
  · intro m left hcomes
    by_cases hroot : Rooted root
    -- the rounds up to `m` do not count, so false is returned from `m` on
    · have hval : get_list_val_loop env root (sections.length = 1) m left =
          get_list_val_loop env root (sections.length = 1) root sections :=
        (get_list_val_loop_comes hroot h hcomes).symm
      have hfalse := hlist m left hcomes
      rw [get_list_val_eq env hnull hsections, ← hval] at hfalse
      constructor
      · rintro rfl
        have hfalse := hfalse (.inl rfl)
        cases left with
        | nil => cases hfalse
        | cons section_ rest =>
          cases hroot with
          | object _ _ _ _ _ =>
            rw [get_list_val_loop_null rfl rfl] at hfalse
            cases hfalse
          | list tag items =>
            -- from a list the section is read first, and has to be no index
            refine ⟨id, section_, rest, rfl, ?_⟩
            rw [get_list_val_loop_list_null] at hfalse
            by_contra hnot
            rw [if_neg hnot] at hfalse
            cases hfalse
      · rintro rfl tag items rfl hmem
        have hm : (list tag items).Proper Typed :=
          hcomes.preserves (fun _ _ _ => proper_list_child) h
        have hfalse : listed (list tag items) = .ok none := hfalse (.inr ⟨rfl, tag, items, rfl, hmem⟩)
        rw [listed_list_null hm hmem] at hfalse
        cases hfalse
    -- the loop never leaves a plain, which is neither null nor a list
    · obtain rfl := comes_of_not_rooted hroot hnull hcomes
      refine ⟨fun heq => absurd heq hnull, ?_⟩
      rintro - tag items rfl
      exact absurd (.list tag items) hroot

theorem nullSafe_of_nullApart {env : Env} {root : Model} (h : root.Proper Typed)
    {sections : List Str} (hnull : root ≠ null) (hsections : sections ≠ [])
    (hapart : NullApart env root sections) : NullSafe env root sections := by
  obtain ⟨hplain, hlist⟩ := (hapart.resolve_left hnull).resolve_left hsections
  constructor
  · intro left hcomes
    cases root with
    | object _ _ _ _ _ => exact absurd trivial (hplain left hcomes)
    | list tag items => exact get_plain_val_list tag items sections
    | null => rfl
    | _ =>
      obtain ⟨heq, -⟩ := hcomes.stuck (ends_of_forall (fun _ => rfl) sections)
      exact absurd heq.symm hnull
  · intro m left hcomes hfound
    obtain ⟨hat, hitems⟩ := hlist m left hcomes
    by_cases hroot : Rooted root
    · rcases hfound with rfl | ⟨rfl, tag, items, rfl, hmem⟩
      · -- only from a list, and in front of something that is no index
        obtain ⟨hobject, section_, rest, rfl, hother⟩ := hat rfl
        rw [get_list_val_eq env hnull hsections, get_list_val_loop_comes hroot h hcomes]
        cases hroot with
        | object _ _ _ _ _ => exact absurd trivial hobject
        | list tag items =>
          rw [get_list_val_loop_list_null, if_pos hother]
          rfl
      · exact absurd hmem (hitems rfl tag items rfl)
    · obtain rfl := comes_of_not_rooted hroot hnull hcomes
      rcases hfound with rfl | ⟨-, tag, items, rfl, -⟩
      · exact absurd rfl hnull
      · exact absurd (.list tag items) hroot

/-- **When neither function uses a null.** -/
theorem nullSafe_iff (env : Env) (root : Model) (h : root.Proper Typed) (sections : List Str) :
    NullSafe env root sections ↔ NullApart env root sections := by
  by_cases hnull : root = null
  · subst hnull
    exact iff_of_true ⟨fun _ _ => rfl, fun _ _ _ _ => rfl⟩ (.inl rfl)
  by_cases hsections : sections = []
  · subst hsections
    refine iff_of_true ⟨fun left hcomes => ?_, fun m left _ _ => ?_⟩ (.inr (.inl rfl))
    · obtain ⟨hroot, -⟩ := hcomes.stuck (ends_nil root)
      exact absurd hroot.symm hnull
    · cases root <;> rfl
  exact ⟨nullApart_of_nullSafe h hnull hsections, nullSafe_of_nullApart h hnull hsections⟩

/-- `#{id}` does not come to the null beside it. -/
theorem nullSafe_iff_id : NullSafe ⟨true, fun _ => true⟩ (node []) [lit "id"] := by
  refine (nullSafe_iff _ _ (proper_node (List.forall_mem_nil _)) _).mpr (.inr (.inr ⟨?_, ?_⟩))
  · intro left hcomes
    cases hcomes with
    | next hstep hrest =>
      cases hstep
      cases hrest
  · intro m left hcomes
    cases hcomes with
    | here => exact ⟨nofun, nofun⟩
    | next hstep hrest =>
      cases hstep
      cases hrest with
      | here => exact ⟨nofun, fun _ => nofun⟩

/-- `#{next}` reads the type of the null. -/
theorem get_plain_val_null :
    ¬ ∀ (env : Env) (root : Model), root.Proper Typed → ∀ sections : List Str,
      NullSafe env root sections := by
  intro hall
  have hsafe := hall ⟨true, fun _ => true⟩ (node []) (proper_node (List.forall_mem_nil _)) [lit "next"]
  have hval := hsafe.1 [] (.next rfl (.here _ _))
  cases hval

end Rellaf.Sql
