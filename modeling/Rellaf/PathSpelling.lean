/-
Two spellings of one path: what `fetch_name` makes of slashes that say nothing.

The tree cuts a path into its sections, and so does not see how many slashes are between
them. In front of it stands `_api_hdrs`, which has the paths as strings. The two agree on
a path that is registered as it is spelled when the tree, too, leads it to that name
without a variable, by the text of its sections alone (`LedByText`).
-/
import Rellaf.ServiceRoutes

set_option autoImplicit false

open Rellaf.Cpp

namespace Rellaf.UrlTrie

/-! ## The walk by the text of the sections -/

/-- The way that has every section as it is. -/
def text (sections : List Str) : List Seg := sections.map Seg.lit

/-- Where the way by the text has a variable on its side, it goes on. -/
def NoVar (node : UrlTrieNode) (sections : List Str) : Prop :=
  ∀ i < sections.length, var_at node (text (sections.take i)) ≠ none →
    has node (text (sections.take (i + 1))) = true

theorem noVar_cons_some {node next : UrlTrieNode} {section_ : Str} {sections : List Str}
    (h : node.nexts section_ = some next) :
    NoVar node (section_ :: sections) ↔ NoVar next sections := by
  have hvar : ∀ σ, var_at node (.lit section_ :: σ) = var_at next σ := by
    intro σ
    rw [var_at, node_at, h, Option.bind_some, var_at]
  have hhas : ∀ σ, has node (.lit section_ :: σ) = has next σ := by
    intro σ
    rw [has, node_at, h, Option.bind_some, has]
  constructor
  -- the `i`th section behind the first one is the section `i + 1` of the whole way
  · intro hno i hi hside
    have hnext := hno (i + 1) (Nat.succ_lt_succ hi)
    rw [List.take_succ_cons, List.take_succ_cons, text, text, List.map_cons, List.map_cons, hvar,
      hhas] at hnext
    exact hnext hside
  · intro hno i hi hside
    cases i with
    | zero =>
      -- the first section has a node, whatever stands beside it
      rw [Nat.zero_add, List.take_succ_cons, text, List.map_cons, hhas]
      rfl
    | succ i =>
      rw [List.take_succ_cons, text, List.map_cons] at hside ⊢
      rw [hvar] at hside
      rw [hhas]
      exact hno i (Nat.lt_of_succ_lt_succ hi) hside

/-- Without the section the walk must not have a variable to go on with. -/
theorem noVar_cons_none {node : UrlTrieNode} {section_ : Str} {sections : List Str}
    (h : node.nexts section_ = none) : NoVar node (section_ :: sections) ↔ node.var = none := by
  have hnode : ∀ σ, node_at node (.lit section_ :: σ) = none := by
    intro σ
    rw [node_at, h, Option.bind_none]
  constructor
  · intro hno
    by_contra hvar
    have hside : var_at node (text ((section_ :: sections).take 0)) ≠ none := by
      show (some node).bind (fun n => n.var.map Prod.fst) ≠ none
      simpa using hvar
    have hhas := hno 0 (Nat.succ_pos _) hside
    rw [List.take_succ_cons, text, List.map_cons, has, hnode] at hhas
    cases hhas
  · intro hvar i hi hside
    cases i with
    | zero =>
      have hside : (some node).bind (fun n => n.var.map Prod.fst) ≠ none := hside
      rw [Option.bind_some, hvar] at hside
      exact absurd rfl hside
    | succ i =>
      rw [List.take_succ_cons, text, List.map_cons, var_at, hnode] at hside
      exact absurd rfl hside

/-- What is in `vals` stays there. -/
theorem mem_fetch_sections {node : UrlTrieNode} {sections : List Str}
    {vals : Std.ExtTreeMap Str Str} {k : Str} (h : k ∈ vals) :
    k ∈ (fetch_sections node sections vals).2 := by
  induction sections generalizing node vals with
  | nil => exact h
  | cons section_ sections ih =>
    unfold fetch_sections
    cases node.nexts section_ with
    | some next => exact ih h
    | none =>
      rcases node.var with - | ⟨var, next⟩
      · exact h
      · apply ih
        rw [Std.ExtTreeMap.mem_insertIfNew]
        exact .inr h

/-- The walk by the text alone leaves `vals` as it is. -/
theorem fetch_sections_of_noVar {node : UrlTrieNode} {sections : List Str}
    (h : NoVar node sections) (vals : Std.ExtTreeMap Str Str) :
    fetch_sections node sections vals = (node_at node (text sections), vals) := by
  induction sections generalizing node with
  | nil => rfl
  | cons section_ sections ih =>
    rw [fetch_sections, text, List.map_cons, node_at]
    cases hnext : node.nexts section_ with
    | some next => exact ih ((noVar_cons_some hnext).mp h)
    | none =>
      rw [(noVar_cons_none hnext).mp h]
      rfl

/-- And only that. -/
theorem noVar_of_fetch_sections {node : UrlTrieNode} {sections : List Str}
    (h : (fetch_sections node sections ∅).2 = ∅) : NoVar node sections := by
  induction sections generalizing node with
  | nil => exact fun i hi => absurd hi (Nat.not_lt_zero i)
  | cons section_ sections ih =>
    rw [fetch_sections] at h
    cases hnext : node.nexts section_ with
    | some next =>
      rw [hnext] at h
      exact (noVar_cons_some hnext).mpr (ih h)
    | none =>
      rw [noVar_cons_none hnext]
      rw [hnext] at h
      rcases hvar : node.var with - | ⟨var, next⟩
      · rfl
      -- a step through the variable would have left its name in `vals`
      · rw [hvar] at h
        have hmem : var ∈ (fetch_sections next sections
            ((∅ : Std.ExtTreeMap Str Str).insertIfNew var section_)).2 :=
          mem_fetch_sections Std.ExtTreeMap.mem_insertIfNew_self
        rw [h] at hmem
        exact absurd hmem Std.ExtTreeMap.not_mem_empty

theorem fetch_vars_vals (root : UrlTrieNode) (path name : Str) (vals : Std.ExtTreeMap Str Str) :
    (fetch_vars root path name vals).2.2 =
      (fetch_sections root (Str.split path (lit "/")) vals).2 := by
  rw [fetch_vars]
  rcases fetch_sections root (Str.split path (lit "/")) vals with ⟨- | node, vals'⟩
  · rfl
  · cases hend : node.end_ <;> simp [hend]

theorem fetch_vars_of_noVar {root : UrlTrieNode} {path : Str}
    (h : NoVar root (Str.split path (lit "/"))) (vals : Std.ExtTreeMap Str Str) :
    (fetch_vars root path [] vals).2 =
      ((end_at root (text (Str.split path (lit "/")))).getD [], vals) := by
  rw [fetch_vars, fetch_sections_of_noVar h, end_at]
  cases node_at root (text (Str.split path (lit "/"))) with
  | none => rfl
  | some node =>
    rw [Option.bind_some]
    cases hend : node.end_ <;> simp [hend]

/-- A name without variables, whatever the map has. -/
theorem fetch_vars_name_iff {root : UrlTrieNode} {path n : Str} :
    (∀ vals, (fetch_vars root path [] vals).2 = (n, vals)) ↔
      NoVar root (Str.split path (lit "/")) ∧
        (end_at root (text (Str.split path (lit "/")))).getD [] = n := by
  constructor
  · intro h
    have hvals : (fetch_sections root (Str.split path (lit "/")) ∅).2 = ∅ := by
      rw [← fetch_vars_vals root path [], h ∅]
    have hno := noVar_of_fetch_sections hvals
    have hname := h ∅
    rw [fetch_vars_of_noVar hno, Prod.mk.injEq] at hname
    exact ⟨hno, hname.1⟩
  · rintro ⟨hno, rfl⟩ vals
    exact fetch_vars_of_noVar hno vals

/-- Only the sections count. -/
theorem fetch_vars_congr {path path' : Str}
    (h : Str.split path (lit "/") = Str.split path' (lit "/")) (root : UrlTrieNode) (name : Str)
    (vals : Std.ExtTreeMap Str Str) :
    fetch_vars root path name vals = fetch_vars root path' name vals := by
  rw [fetch_vars, fetch_vars, h]

end Rellaf.UrlTrie

namespace Rellaf.Brpc

open UrlTrie

variable {HttpMethod Handler : Type}

/-! ## Spellings -/

/-- The first registration of the path as it is spelled. -/
def spelled (regs : List (Reg HttpMethod Handler)) (path : Str) : Option (Reg HttpMethod Handler) :=
  regs.find? fun r => r.path = slashed path

/-- The patterns with variables lead the sections to the name by their text alone: after no
sections does a pattern go on with a variable when none goes on with the next section, and
the last pattern of exactly these sections has the name, or there is none and the name is
empty. -/
def LedByText (puts : List Put) (sections : List Str) (name : Str) : Prop :=
  (∀ i < sections.length, first_var puts (text (sections.take i)) ≠ none →
    ∃ p ∈ puts, text (sections.take (i + 1)) <+: p.shape) ∧
  (last_name puts (text sections)).getD [] = name

/-- Both paths are empty or none is; and where one of them is registered as it is spelled,
the other one is registered under that name too, or is led to it by its text. -/
def SpelledAlike (regs : List (Reg HttpMethod Handler)) (path path' : Str) : Prop :=
  (path = [] ↔ path' = []) ∧ (path ≠ [] →
    match spelled regs path, spelled regs path' with
    | none, none => True
    | some c, some c' => c.name = c'.name
    | some c, none | none, some c => LedByText (puts regs) (Str.split path (lit "/")) c.name)

theorem split_slashed (path : Str) :
    Str.split (slashed path) (lit "/") = Str.split path (lit "/") := by
  have hlit : lit "/" = [47] := rfl
  unfold slashed
  split
  · rfl
  · rw [hlit, Str.split_cons_self]

/-- The walk by the text, in the tree that the registrations have built. -/
theorem ledByText_iff (regs : List (Reg HttpMethod Handler)) (path name : Str) :
    LedByText (puts regs) (Str.split path (lit "/")) name ↔
      ∀ vars, (fetch_vars (put_all (puts regs)) path [] vars).2 = (name, vars) := by
  rw [fetch_vars_name_iff, LedByText, NoVar, end_at_put_all]
  have hside : ∀ i < (Str.split path (lit "/")).length,
      (has (put_all (puts regs)) (text ((Str.split path (lit "/")).take (i + 1))) = true ↔
        ∃ p ∈ puts regs, text ((Str.split path (lit "/")).take (i + 1)) <+: p.shape) := by
    intro i hi
    rw [has_put_all, or_iff_right]
    -- a way of at least one section is not the root
    intro hnil
    have hlength := congrArg List.length hnil
    rw [text, List.length_map, List.length_take, List.length_nil] at hlength
    omega
  refine and_congr_left' (forall₂_congr fun i hi => ?_)
  rw [var_at_put_all, hside i hi]

section fetch

variable {regs : List (Reg HttpMethod Handler)} {mapper : FunctionMapper Handler}

theorem fetch_name_nil (header : HttpHeader HttpMethod) (hpath : header.path = [])
    (vars : Std.ExtTreeMap Str Str) : fetch_name mapper header vars = .error .undefined := by
  rw [fetch_name, hpath]
  rfl

/-- A path that nobody has registered so goes to the tree. -/
theorem fetch_name_of_not_spelled (h : reg_all regs = .ok mapper) {header : HttpHeader HttpMethod}
    (hpath : header.path ≠ []) (hnone : spelled regs header.path = none)
    (vars : Std.ExtTreeMap Str Str) :
    fetch_name mapper header vars =
      .ok (fetch_vars (put_all (puts regs)) header.path [] vars).2 := by
  obtain ⟨hapi, -, htree⟩ := reg_all_ok h
  rw [spelled] at hnone
  rw [fetch_name, slash_ok hpath, run_ok_bind, hapi, hnone, htree,
    fetch_vars_congr (split_slashed header.path)]
  rcases hfetch : fetch_vars (put_all (puts regs)) header.path [] vars with ⟨b, n, vals⟩
  cases b with
  | true => rfl
  | false =>
    -- the name that went in empty comes out empty
    have hn : n = [] := by
      rw [fetch_vars] at hfetch
      split at hfetch
      · split at hfetch <;> cases hfetch
        rfl
      · cases hfetch
        rfl
    rw [hn]
    rfl

/-- Only the empty path has no answer. -/
theorem fetch_name_returns (h : reg_all regs = .ok mapper) {header : HttpHeader HttpMethod}
    (hpath : header.path ≠ []) (vars : Std.ExtTreeMap Str Str) :
    ∃ answer, fetch_name mapper header vars = .ok answer := by
  cases hspelled : spelled regs header.path with
  | some c => exact ⟨(c.name, vars), fetch_name_of_find h hpath hspelled vars⟩
  | none => exact ⟨_, fetch_name_of_not_spelled h hpath hspelled vars⟩

end fetch

/-- **When two spellings of a path get the same answer.** -/
theorem fetch_name_same_iff (regs : List (Reg HttpMethod Handler)) (mapper : FunctionMapper Handler)
    (h : reg_all regs = .ok mapper) (header header' : HttpHeader HttpMethod)
    (hsections : Str.split header.path (lit "/") = Str.split header'.path (lit "/")) :
    (∀ vars, fetch_name mapper header vars = fetch_name mapper header' vars) ↔
      SpelledAlike regs header.path header'.path := by
  by_cases hpath : header.path = []
  -- an empty path faults, and nothing else does
  · by_cases hpath' : header'.path = []
    · refine iff_of_true (fun vars => ?_) ⟨iff_of_true hpath hpath', fun hne => absurd hpath hne⟩
      rw [fetch_name_nil header hpath, fetch_name_nil header' hpath']
    · refine iff_of_false (fun hsame => ?_) fun halike => hpath' (halike.1.mp hpath)
      obtain ⟨answer, hanswer⟩ := fetch_name_returns h hpath' ∅
      have hsame := hsame ∅
      rw [fetch_name_nil header hpath, hanswer] at hsame
      cases hsame
  · by_cases hpath' : header'.path = []
    · refine iff_of_false (fun hsame => ?_) fun halike => hpath (halike.1.mpr hpath')
      obtain ⟨answer, hanswer⟩ := fetch_name_returns h hpath ∅
      have hsame := hsame ∅
      rw [fetch_name_nil header' hpath', hanswer] at hsame
      cases hsame
    · rw [SpelledAlike, and_iff_right (iff_of_false hpath hpath')]
      have htree := fetch_vars_congr hsections (put_all (puts regs)) []
      cases hspelled : spelled regs header.path with
      | some c =>
        have hfetch : ∀ vars, fetch_name mapper header vars = .ok (c.name, vars) :=
          fetch_name_of_find h hpath hspelled
        cases hspelled' : spelled regs header'.path with
        | some c' =>
          -- both are in the table
          have hfetch' : ∀ vars, fetch_name mapper header' vars = .ok (c'.name, vars) :=
            fetch_name_of_find h hpath' hspelled'
          simp only [hfetch, hfetch', Except.ok.injEq, Prod.mk.injEq, and_true]
          exact ⟨fun hsame _ => hsame ∅, fun hname _ => hname hpath⟩
        | none =>
          -- the table answers one, and the tree has to give the other the same name
          have hfetch' := fetch_name_of_not_spelled h hpath' hspelled'
          simp only [hfetch, hfetch', Except.ok.injEq, ← htree, ledByText_iff]
          exact ⟨fun hsame _ vars => (hsame vars).symm, fun hled vars => (hled hpath vars).symm⟩
      | none =>
        have hfetch := fetch_name_of_not_spelled h hpath hspelled
        cases hspelled' : spelled regs header'.path with
        | some c' =>
          have hfetch' : ∀ vars, fetch_name mapper header' vars = .ok (c'.name, vars) :=
            fetch_name_of_find h hpath' hspelled'
          simp only [hfetch, hfetch', Except.ok.injEq, ledByText_iff]
          exact ⟨fun hsame _ vars => hsame vars, fun hled vars => hled hpath vars⟩
        | none =>
          -- the tree answers both, and it sees the sections only
          have hfetch' := fetch_name_of_not_spelled h hpath' hspelled'
          simp only [hfetch, hfetch', htree]
          exact iff_of_true (fun _ => trivial) fun _ => trivial

/-- `/users/list`, registered in two spellings, and `/users/{id}`: both spellings of the list
get its name, and `/users/7` and `//users/7/` have the same id. -/
theorem fetch_name_same_iff_id :
    let regs : List (Reg Str Nat) := [⟨lit "/users/list", lit "list", lit "GET", 1⟩,
      ⟨lit "/users//list", lit "list", lit "GET", 1⟩, ⟨lit "/users/\x7bid\x7d", lit "get", lit "GET", 2⟩]
    ∃ mapper : FunctionMapper Nat, reg_all regs = .ok mapper ∧
      (∀ vars, fetch_name mapper (⟨lit "GET", lit "/users/list"⟩ : HttpHeader Str) vars =
        fetch_name mapper ⟨lit "GET", lit "/users//list"⟩ vars) ∧
      ∀ vars, fetch_name mapper (⟨lit "GET", lit "/users/7"⟩ : HttpHeader Str) vars =
        fetch_name mapper ⟨lit "GET", lit "//users/7/"⟩ vars := by
  intro regs
  refine ⟨_, rfl, ?_, ?_⟩
  · refine (fetch_name_same_iff regs _ rfl ⟨lit "GET", lit "/users/list"⟩
      ⟨lit "GET", lit "/users//list"⟩ (by decide)).mpr ?_
    exact ⟨iff_of_false (by decide) (by decide), fun _ => rfl⟩
  · refine (fetch_name_same_iff regs _ rfl ⟨lit "GET", lit "/users/7"⟩
      ⟨lit "GET", lit "//users/7/"⟩ (by decide)).mpr ?_
    exact ⟨iff_of_false (by decide) (by decide), fun _ => trivial⟩

/-- `/users/list` and `/users/{id}`: with a second slash `list` becomes an id. -/
theorem fetch_name_slashes :
    ¬ ∀ (regs : List (Reg Str Nat)) (mapper : FunctionMapper Nat), reg_all regs = .ok mapper →
      ∀ header header' : HttpHeader Str,
        Str.split header.path (lit "/") = Str.split header'.path (lit "/") →
        ∀ vars, fetch_name mapper header vars = fetch_name mapper header' vars := by
  intro hall
  have hsame := hall [⟨lit "/users/list", lit "list", lit "GET", 1⟩,
    ⟨lit "/users/{id}", lit "get", lit "GET", 2⟩] _ rfl ⟨lit "GET", lit "/users/list"⟩
    ⟨lit "GET", lit "/users//list"⟩ (by decide) ∅
  have hname : lit "list" = lit "get" := (Prod.mk.inj (Except.ok.inj hsame)).1
  exact absurd hname (by decide)

end Rellaf.Brpc
