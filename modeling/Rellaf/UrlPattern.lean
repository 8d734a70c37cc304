/-
`UrlPattern`: the variables of a pattern by their position, and their values in a path.

Two machines read one byte at a time. `explode_path_vars` numbers the segments of a
pattern, `fetch_path_vars` those of a path, and both number what `split` cuts out
(`explode_path_vars_ok`, `fetch_path_vars_eq`).
-/
import Rellaf.SqlPattern
import Rellaf.UrlRoutes

set_option autoImplicit false

open Rellaf.Cpp

namespace Rellaf.UrlPattern

open SqlPattern (PatternErr PatternState)
open UrlTrie

/-! ## `explode_path_vars` -/

/-- The local variables of `explode_path_vars`, and `vars`. -/
structure Explode where
  start_flag : Bool
  idx : UInt32
  section_ : Str
  state : PatternState
  vars : Std.ExtTreeMap UInt32 Str

def Explode.init : Explode := ⟨false, 0, [], .STATE_INIT, ∅⟩

/-- The branch of `STATE_INIT`. -/
def explode_init (x : Explode) (c : UInt8) : Except PatternErr Explode :=
  if c = 47 ∨ c = 123 ∨ c = 125 then
    if c = 47 then
      .ok { x with
        idx := if x.start_flag then x.idx + 1 else x.idx
        state := .STATE_MATCH_TOKEN
        start_flag := true }
    else .error .ILL_TOKEN
  else .ok { x with start_flag := true }

/-- What the loop does with one byte: the variables, or the error the call returns
with. Where a round goes on without `++i`, the branch of `STATE_INIT` takes the byte. -/
def explode_char (x : Explode) (c : UInt8) : Except PatternErr Explode :=
  match x.state with
  | .STATE_INIT => explode_init x c
  | .STATE_MATCH_TOKEN =>
    if c = 47 ∨ c = 123 ∨ c = 125 then
      if c = 47 then .ok x
      else if c ≠ 123 then .error .ILL_BEGIN
      else .ok { x with state := .STATE_FETCH }
    else .ok { x with state := .STATE_NORMAL }
  | .STATE_NORMAL =>
    if c = 123 ∨ c = 125 then .error .ILL_TOKEN
    else if c = 47 then explode_init { x with state := .STATE_INIT } c
    else .ok x
  | .STATE_FETCH =>
    if c = 47 ∨ c = 123 ∨ c = 125 then
      if c = 125 then
        if x.section_.isEmpty then .error .NONE_FIELD
        else
          .ok { x with
            vars := x.vars.insertIfNew x.idx x.section_
            section_ := []
            state := .STATE_END_FETCH }
      else .error .ILL_END
    else .ok { x with section_ := x.section_ ++ [c] }
  | .STATE_END_FETCH =>
    if c ≠ 47 then .error .ILL_TOKEN else explode_init { x with state := .STATE_INIT } c

/-- `explode_path_vars(path, vars, err)`: the value returned, `vars` and `err`. -/
def explode_path_vars (path : Str) : Bool × Std.ExtTreeMap UInt32 Str × PatternErr :=
  match path.foldlM explode_char .init with
  | .error err => (false, ∅, err)
  | .ok x =>
    match x.state with
    | .STATE_INIT | .STATE_NORMAL | .STATE_END_FETCH =>
      (true, if x.section_.isEmpty then x.vars else x.vars.insertIfNew x.idx x.section_, .OK)
    | .STATE_MATCH_TOKEN => (true, x.vars, .OK)
    | .STATE_FETCH => (false, ∅, .ILL_END)

/-! ## `fetch_path_vars` -/

/-- The local variables of `fetch_path_vars`, and `vals`. -/
structure Fetch where
  start_flag : Bool
  idx : UInt32
  section_ : Str
  state : PatternState
  vals : Std.ExtTreeMap Str Str

section fetch

variable (vars : Std.ExtTreeMap UInt32 Str)

def Fetch.init : Fetch := ⟨false, 0, [], .STATE_INIT, ∅⟩

/-- `if (vars.count(idx) == 1) { vals.emplace(vars.at(idx), section); }` -/
def Fetch.emplaced (x : Fetch) : Std.ExtTreeMap Str Str :=
  match vars[x.idx]? with
  | some name => x.vals.insertIfNew name x.section_
  | none => x.vals

/-- The branch of `STATE_INIT` for a `/`. -/
def fetch_slash (x : Fetch) : Fetch :=
  if x.section_.isEmpty then { x with start_flag := true }
  else
    { x with
      vals := x.emplaced vars
      section_ := []
      idx := if x.start_flag then x.idx + 1 else x.idx
      start_flag := true }

/-- What the loop does with one byte. A byte that takes a state to another without `++i`
is taken by the other. -/
def fetch_char (x : Fetch) (c : UInt8) : Fetch :=
  match x.state with
  | .STATE_INIT =>
    if c = 47 then fetch_slash vars x
    else
      { x with state := .STATE_MATCH_TOKEN, start_flag := true, section_ := x.section_ ++ [c] }
  | .STATE_MATCH_TOKEN =>
    if c = 47 then fetch_slash vars { x with state := .STATE_INIT }
    else { x with section_ := x.section_ ++ [c] }
  | _ => { x with section_ := x.section_ ++ [c] }

/-- What stands behind the loop. -/
def Fetch.finish (x : Fetch) : Std.ExtTreeMap Str Str :=
  match x.state with
  | .STATE_INIT | .STATE_MATCH_TOKEN => if x.section_.isEmpty then x.vals else x.emplaced vars
  | _ => x.vals

/-- `fetch_path_vars(path, vars, vals)`: the value returned and `vals`. -/
def fetch_path_vars (path : Str) : Bool × Std.ExtTreeMap Str Str :=
  (true, (path.foldl (fetch_char vars) .init).finish vars)

end fetch

example : (explode_path_vars (lit "/aa/{id}//{name}/")).2.1.toList =
    [(1, lit "id"), (2, lit "name")] := by rfl

/-! ## What `fetch_path_vars` numbers -/

/-- The pairs given to `vals`: the sections from number `idx` on, under the names that
their numbers have in `vars`. -/
def named (vars : Std.ExtTreeMap UInt32 Str) : List Str → UInt32 → List (Str × Str)
  | [], _ => []
  | section_ :: sections, idx =>
    (vars[idx]?.map fun name => (name, section_)).toList ++ named vars sections (idx + 1)

theorem emplace_all_append (vals : Std.ExtTreeMap Str Str) (kvs kvs' : List (Str × Str)) :
    emplace_all vals (kvs ++ kvs') = emplace_all (emplace_all vals kvs) kvs' :=
  List.foldl_append

theorem emplaced_eq (vars : Std.ExtTreeMap UInt32 Str) (x : Fetch) :
    x.emplaced vars =
      emplace_all x.vals (vars[x.idx]?.map fun name => (name, x.section_)).toList := by
  unfold Fetch.emplaced
  cases vars[x.idx]? <;> rfl

/-- Inside a section the flag is set, in front of one the section is empty. -/
def Fetch.Reading (x : Fetch) : Prop :=
  (47 : UInt8) ∉ x.section_ ∧
    (x.state = .STATE_INIT ∧ x.section_ = [] ∨ x.state = .STATE_MATCH_TOKEN ∧ x.start_flag = true)

/-- A `/` ends the section, if there is one. -/
theorem fetch_char_slash (vars : Std.ExtTreeMap UInt32 Str) {x : Fetch} (h : x.Reading) :
    (fetch_char vars x 47).Reading ∧ (fetch_char vars x 47).section_ = [] ∧
      (x.section_ = [] → (fetch_char vars x 47).vals = x.vals ∧
        (fetch_char vars x 47).idx = x.idx) ∧
      (x.section_ ≠ [] → (fetch_char vars x 47).vals = x.emplaced vars ∧
        (fetch_char vars x 47).idx = x.idx + 1) := by
  obtain ⟨start_flag, idx, section_, state, vals⟩ := x
  obtain ⟨hslash, ⟨hstate, hsection⟩ | ⟨hstate, hflag⟩⟩ := h
  · obtain rfl : state = .STATE_INIT := hstate
    obtain rfl : section_ = [] := hsection
    exact ⟨⟨hslash, .inl ⟨rfl, rfl⟩⟩, rfl, fun _ => ⟨rfl, rfl⟩, fun hne => absurd rfl hne⟩
  · obtain rfl : state = .STATE_MATCH_TOKEN := hstate
    obtain rfl : start_flag = true := hflag
    cases section_ with
    | nil => exact ⟨⟨hslash, .inl ⟨rfl, rfl⟩⟩, rfl, fun _ => ⟨rfl, rfl⟩, fun hne => absurd rfl hne⟩
    | cons c s =>
      exact ⟨⟨List.not_mem_nil, .inl ⟨rfl, rfl⟩⟩, rfl, fun hnil => absurd hnil (List.cons_ne_nil c s),
        fun _ => ⟨rfl, rfl⟩⟩

/-- Every other byte belongs to the section. -/
theorem fetch_char_other (vars : Std.ExtTreeMap UInt32 Str) {x : Fetch} {c : UInt8} (hc : c ≠ 47)
    (h : x.Reading) :
    (fetch_char vars x c).Reading ∧ (fetch_char vars x c).section_ = x.section_ ++ [c] ∧
      (fetch_char vars x c).vals = x.vals ∧ (fetch_char vars x c).idx = x.idx := by
  obtain ⟨start_flag, idx, section_, state, vals⟩ := x
  obtain ⟨hslash, hstate⟩ := h
  have hslash' : (47 : UInt8) ∉ section_ ++ [c] := by
    rw [List.mem_append, List.mem_singleton, not_or]
    exact ⟨hslash, fun heq => hc heq.symm⟩
  rcases hstate with ⟨hstate, -⟩ | ⟨hstate, hflag⟩
  · obtain rfl : state = .STATE_INIT := hstate
    have hchar : fetch_char vars ⟨start_flag, idx, section_, .STATE_INIT, vals⟩ c =
        ⟨true, idx, section_ ++ [c], .STATE_MATCH_TOKEN, vals⟩ := if_neg hc
    rw [hchar]
    exact ⟨⟨hslash', .inr ⟨rfl, rfl⟩⟩, rfl, rfl, rfl⟩
  · obtain rfl : state = .STATE_MATCH_TOKEN := hstate
    have hchar : fetch_char vars ⟨start_flag, idx, section_, .STATE_MATCH_TOKEN, vals⟩ c =
        ⟨start_flag, idx, section_ ++ [c], .STATE_MATCH_TOKEN, vals⟩ := if_neg hc
    rw [hchar]
    exact ⟨⟨hslash', .inr ⟨rfl, hflag⟩⟩, rfl, rfl, rfl⟩

/-- From any state of the loop on: the section that has been read so far goes on. -/
theorem fetch_loop_eq (vars : Std.ExtTreeMap UInt32 Str) (path : Str) {x : Fetch} (h : x.Reading) :
    (path.foldl (fetch_char vars) x).finish vars =
      emplace_all x.vals (named vars (Str.split (x.section_ ++ path) (lit "/")) x.idx) := by
  have hlit : lit "/" = [47] := rfl
  rw [hlit]
  induction path generalizing x with
  | nil =>
    rw [List.foldl_nil, List.append_nil]
    have hfinish : x.finish vars = if x.section_.isEmpty then x.vals else x.emplaced vars := by
      obtain ⟨-, ⟨hstate, -⟩ | ⟨hstate, -⟩⟩ := h <;> rw [Fetch.finish, hstate]
    rw [hfinish]
    by_cases hnil : x.section_ = []
    · rw [hnil, Str.split_nil]
      rfl
    · have hempty : ¬ x.section_.isEmpty = true := by simpa using hnil
      rw [if_neg hempty, Str.split_of_notMem hnil h.1, emplaced_eq, named, named, List.append_nil]
  | cons c path ih =>
    rw [List.foldl_cons]
    by_cases hc : c = 47
    · subst hc
      obtain ⟨hreading, hsection, hempty, hfull⟩ := fetch_char_slash vars h
      rw [ih hreading, hsection, List.nil_append]
      by_cases hnil : x.section_ = []
      · obtain ⟨hvals, hidx⟩ := hempty hnil
        rw [hvals, hidx, hnil, List.nil_append, Str.split_cons_self]
      · obtain ⟨hvals, hidx⟩ := hfull hnil
        rw [hvals, hidx, Str.split_append_cons hnil h.1, named, emplace_all_append, emplaced_eq]
    · obtain ⟨hreading, hsection, hvals, hidx⟩ := fetch_char_other vars hc h
      rw [ih hreading, hsection, hvals, hidx, List.append_assoc, List.singleton_append]

/-- **What `fetch_path_vars` does.** The sections of the path, numbered from 0 on. -/
theorem fetch_path_vars_eq (vars : Std.ExtTreeMap UInt32 Str) (path : Str) :
    fetch_path_vars vars path =
      (true, emplace_all ∅ (named vars (Str.split path (lit "/")) 0)) := by
  have hinit : Fetch.init.Reading := ⟨List.not_mem_nil, .inl ⟨rfl, rfl⟩⟩
  rw [fetch_path_vars, fetch_loop_eq vars path hinit]
  rfl

/-! ## What `explode_path_vars` numbers -/

/-- A text without `/`, `{` and `}`. -/
def Free (s : Str) : Prop := (47 : UInt8) ∉ s ∧ (123 : UInt8) ∉ s ∧ (125 : UInt8) ∉ s

/-- What an accepted pattern has between its slashes: text, or the name of a variable in
braces. -/
inductive Segment : Str → Prop
  | text {s : Str} (hne : s ≠ []) (hs : Free s) : Segment s
  | var {name : Str} (hne : name ≠ []) (hname : Free name) : Segment (123 :: name ++ [125])

/-- The entry for a segment with the number `idx`. -/
def put_var (idx : UInt32) (segment : Str) (vars : Std.ExtTreeMap UInt32 Str) :
    Std.ExtTreeMap UInt32 Str :=
  if is_var segment then vars.insertIfNew idx (var_name segment) else vars

/-- The entries for the segments from number `idx` on. -/
def numbered : List Str → UInt32 → Std.ExtTreeMap UInt32 Str → Std.ExtTreeMap UInt32 Str
  | [], _, vars => vars
  | segment :: segments, idx, vars => numbered segments (idx + 1) (put_var idx segment vars)

theorem Free.of_append_left {s t : Str} (h : Free (s ++ t)) : Free s :=
  ⟨fun hmem => h.1 (List.mem_append_left t hmem), fun hmem => h.2.1 (List.mem_append_left t hmem),
    fun hmem => h.2.2 (List.mem_append_left t hmem)⟩

theorem free_concat {s : Str} {c : UInt8} :
    Free (s ++ [c]) ↔ Free s ∧ c ≠ 47 ∧ c ≠ 123 ∧ c ≠ 125 := by
  unfold Free
  simp only [List.mem_append, List.mem_singleton, not_or]
  constructor
  · rintro ⟨⟨h, hc⟩, ⟨h', hc'⟩, ⟨h'', hc''⟩⟩
    exact ⟨⟨h, h', h''⟩, Ne.symm hc, Ne.symm hc', Ne.symm hc''⟩
  · rintro ⟨⟨h, h', h''⟩, hc, hc', hc''⟩
    exact ⟨⟨h, Ne.symm hc⟩, ⟨h', Ne.symm hc'⟩, h'', Ne.symm hc''⟩

theorem free_nil : Free [] := ⟨List.not_mem_nil, List.not_mem_nil, List.not_mem_nil⟩

theorem is_var_of_free {s : Str} (h : Free s) : is_var s = false := by
  cases s with
  | nil => rfl
  | cons c s =>
    have hc : c ≠ 123 := fun heq => h.2.1 (by rw [heq]; exact List.mem_cons_self)
    rw [is_var, List.head?_cons]
    simp [hc]

theorem is_var_braces (name : Str) : is_var (123 :: name ++ [125]) = true := by
  rw [is_var, List.getLast?_append]
  rfl

theorem var_name_braces (name : Str) : var_name (123 :: name ++ [125]) = name := by
  rw [var_name, substr]
  simp

theorem Segment.ne_nil {s : Str} (h : Segment s) : s ≠ [] := by
  cases h with
  | text hne _ => exact hne
  | var _ _ => exact List.cons_ne_nil _ _

theorem Segment.slash_notMem {s : Str} (h : Segment s) : (47 : UInt8) ∉ s := by
  cases h with
  | text _ hs => exact hs.1
  | var _ hname =>
    intro hmem
    rw [List.cons_append, List.mem_cons, List.mem_append, List.mem_singleton] at hmem
    rcases hmem with hmem | hmem | hmem
    · cases hmem
    · exact hname.1 hmem
    · cases hmem

/-- The states of the loop: `seg` is what has been read of a segment, `vars` what was
entered for the segments before it. -/
inductive Explodes : Explode → (vars : Std.ExtTreeMap UInt32 Str) → (seg : Str) → Prop
  | start {vars : Std.ExtTreeMap UInt32 Str} {idx : UInt32} :
    Explodes ⟨false, idx, [], .STATE_INIT, vars⟩ vars []
  | first {vars : Std.ExtTreeMap UInt32 Str} {idx : UInt32} {seg : Str} (hne : seg ≠ [])
      (hseg : Free seg) : Explodes ⟨true, idx, [], .STATE_INIT, vars⟩ vars seg
  | token {vars : Std.ExtTreeMap UInt32 Str} {idx : UInt32} :
    Explodes ⟨true, idx, [], .STATE_MATCH_TOKEN, vars⟩ vars []
  | normal {vars : Std.ExtTreeMap UInt32 Str} {idx : UInt32} {seg : Str} (hne : seg ≠ [])
      (hseg : Free seg) : Explodes ⟨true, idx, [], .STATE_NORMAL, vars⟩ vars seg
  | fetch {vars : Std.ExtTreeMap UInt32 Str} {idx : UInt32} {name : Str} (hname : Free name) :
    Explodes ⟨true, idx, name, .STATE_FETCH, vars⟩ vars (123 :: name)
  | end_fetch {vars : Std.ExtTreeMap UInt32 Str} {idx : UInt32} {name : Str} (hne : name ≠ [])
      (hname : Free name) :
    Explodes ⟨true, idx, [], .STATE_END_FETCH, vars.insertIfNew idx name⟩ vars
      (123 :: name ++ [125])

/-- A segment may end here: there is none, or it is whole and entered. -/
def Closed (x : Explode) (vars : Std.ExtTreeMap UInt32 Str) (seg : Str) : Prop :=
  seg = [] ∧ x.vars = vars ∨ Segment seg ∧ x.vars = put_var x.idx seg vars

theorem closed_text {start_flag : Bool} {state : PatternState} {vars : Std.ExtTreeMap UInt32 Str}
    {idx : UInt32} {seg : Str} (hne : seg ≠ []) (hseg : Free seg) :
    Closed ⟨start_flag, idx, [], state, vars⟩ vars seg := by
  refine .inr ⟨.text hne hseg, ?_⟩
  rw [put_var, is_var_of_free hseg]
  rfl

theorem closed_var {state : PatternState} {vars : Std.ExtTreeMap UInt32 Str} {idx : UInt32}
    {name : Str} (hne : name ≠ []) (hname : Free name) :
    Closed ⟨true, idx, [], state, vars.insertIfNew idx name⟩ vars (123 :: name ++ [125]) := by
  refine .inr ⟨.var hne hname, ?_⟩
  rw [put_var, if_pos (is_var_braces name), var_name_braces]

/-- Behind a `/` the next segment begins, with the next number if there was one. -/
theorem explode_char_slash {x x' : Explode} {vars : Std.ExtTreeMap UInt32 Str} {seg : Str}
    (h : Explodes x vars seg) (hchar : explode_char x 47 = .ok x') :
    Closed x vars seg ∧ Explodes x' x.vars [] ∧ x'.idx = if seg = [] then x.idx else x.idx + 1 := by
  cases h with
  | start =>
    cases hchar
    exact ⟨.inl ⟨rfl, rfl⟩, .token, rfl⟩
  | first hne hseg =>
    cases hchar
    exact ⟨closed_text hne hseg, .token, (if_neg hne).symm⟩
  | token =>
    cases hchar
    exact ⟨.inl ⟨rfl, rfl⟩, .token, rfl⟩
  | normal hne hseg =>
    cases hchar
    exact ⟨closed_text hne hseg, .token, (if_neg hne).symm⟩
  | fetch hname => cases hchar
  | end_fetch hne hname =>
    cases hchar
    exact ⟨closed_var hne hname, .token, rfl⟩

/-- Every other byte belongs to the segment. -/
theorem explode_char_other {x x' : Explode} {vars : Std.ExtTreeMap UInt32 Str} {seg : Str}
    {c : UInt8} (hc : c ≠ 47) (h : Explodes x vars seg) (hchar : explode_char x c = .ok x') :
    Explodes x' vars (seg ++ [c]) ∧ x'.idx = x.idx := by
  have hcons : [c] ≠ [] := List.cons_ne_nil c []
  cases h with
  | start =>
    by_cases hbrace : c = 123 ∨ c = 125
    · rcases hbrace with rfl | rfl <;> cases hchar
    · have hother : ¬ (c = 47 ∨ c = 123 ∨ c = 125) := not_or.mpr ⟨hc, hbrace⟩
      rw [not_or] at hbrace
      have hchar : explode_init _ c = .ok x' := hchar
      rw [explode_init, if_neg hother] at hchar
      cases hchar
      exact ⟨.first hcons (free_concat.mpr ⟨free_nil, hc, hbrace⟩), rfl⟩
  | first hne hseg =>
    by_cases hbrace : c = 123 ∨ c = 125
    · rcases hbrace with rfl | rfl <;> cases hchar
    · have hother : ¬ (c = 47 ∨ c = 123 ∨ c = 125) := not_or.mpr ⟨hc, hbrace⟩
      rw [not_or] at hbrace
      have hchar : explode_init _ c = .ok x' := hchar
      rw [explode_init, if_neg hother] at hchar
      cases hchar
      exact ⟨.first (List.append_ne_nil_of_right_ne_nil _ hcons)
        (free_concat.mpr ⟨hseg, hc, hbrace⟩), rfl⟩
  | token =>
    by_cases hbrace : c = 123 ∨ c = 125
    · rcases hbrace with rfl | rfl <;> cases hchar
      exact ⟨.fetch free_nil, rfl⟩
    · have hother : ¬ (c = 47 ∨ c = 123 ∨ c = 125) := not_or.mpr ⟨hc, hbrace⟩
      rw [not_or] at hbrace
      have hchar : (ite (c = 47 ∨ c = 123 ∨ c = 125) _ _ : Except PatternErr Explode) = .ok x' := hchar
      rw [if_neg hother] at hchar
      cases hchar
      exact ⟨.normal hcons (free_concat.mpr ⟨free_nil, hc, hbrace⟩), rfl⟩
  | normal hne hseg =>
    by_cases hbrace : c = 123 ∨ c = 125
    · rcases hbrace with rfl | rfl <;> cases hchar
    · have hchar : (ite (c = 123 ∨ c = 125) _ (ite (c = 47) _ _) : Except PatternErr Explode) =
          .ok x' := hchar
      rw [if_neg hbrace, if_neg hc] at hchar
      rw [not_or] at hbrace
      cases hchar
      exact ⟨.normal (List.append_ne_nil_of_right_ne_nil _ hcons)
        (free_concat.mpr ⟨hseg, hc, hbrace⟩), rfl⟩
  | @fetch _ idx name hname =>
    by_cases hbrace : c = 123 ∨ c = 125
    · rcases hbrace with rfl | rfl
      · cases hchar
      · cases name with
        | nil => cases hchar
        | cons d name =>
          cases hchar
          exact ⟨.end_fetch (List.cons_ne_nil d name) hname, rfl⟩
    · have hother : ¬ (c = 47 ∨ c = 123 ∨ c = 125) := not_or.mpr ⟨hc, hbrace⟩
      rw [not_or] at hbrace
      have hchar : (ite (c = 47 ∨ c = 123 ∨ c = 125) _ _ : Except PatternErr Explode) = .ok x' := hchar
      rw [if_neg hother] at hchar
      cases hchar
      exact ⟨.fetch (free_concat.mpr ⟨hname, hc, hbrace⟩), rfl⟩
  | end_fetch hne hname =>
    have hchar : (ite (c ≠ 47) _ _ : Except PatternErr Explode) = .ok x' := hchar
    rw [if_pos hc] at hchar
    cases hchar

/-- At the end of the pattern the last segment must be whole. -/
theorem Explodes.closed {x : Explode} {vars : Std.ExtTreeMap UInt32 Str} {seg : Str}
    (h : Explodes x vars seg) (hstate : x.state ≠ .STATE_FETCH) :
    Closed x vars seg ∧ x.section_ = [] := by
  cases h with
  | start => exact ⟨.inl ⟨rfl, rfl⟩, rfl⟩
  | first hne hseg => exact ⟨closed_text hne hseg, rfl⟩
  | token => exact ⟨.inl ⟨rfl, rfl⟩, rfl⟩
  | normal hne hseg => exact ⟨closed_text hne hseg, rfl⟩
  | fetch hname => exact absurd rfl hstate
  | end_fetch hne hname => exact ⟨closed_var hne hname, rfl⟩

/-- From any state of the loop on, when it gets to the end of the pattern. -/
theorem explode_loop_ok {path : Str} {x y : Explode} {vars : Std.ExtTreeMap UInt32 Str} {seg : Str}
    (h : Explodes x vars seg) (hloop : path.foldlM explode_char x = .ok y)
    (hstate : y.state ≠ .STATE_FETCH) :
    (∀ s ∈ Str.split (seg ++ path) (lit "/"), Segment s) ∧ y.section_ = [] ∧
      y.vars = numbered (Str.split (seg ++ path) (lit "/")) x.idx vars := by
  have hlit : lit "/" = [47] := rfl
  rw [hlit]
  induction path generalizing x vars seg with
  | nil =>
    cases hloop
    obtain ⟨hclosed, hsection⟩ := h.closed hstate
    rw [List.append_nil]
    rcases hclosed with ⟨rfl, hvars⟩ | ⟨hseg, hvars⟩
    · rw [Str.split_nil]
      exact ⟨List.forall_mem_nil _, hsection, hvars⟩
    · rw [Str.split_of_notMem hseg.ne_nil hseg.slash_notMem]
      exact ⟨List.forall_mem_singleton.mpr hseg, hsection, hvars⟩
  | cons c path ih =>
    rw [List.foldlM_cons] at hloop
    cases hchar : explode_char x c with
    | error err =>
      rw [hchar] at hloop
      cases hloop
    | ok x' =>
      rw [hchar] at hloop
      have hloop : path.foldlM explode_char x' = .ok y := hloop
      by_cases hc : c = 47
      · subst hc
        obtain ⟨hclosed, hx', hidx⟩ := explode_char_slash h hchar
        obtain ⟨hsegments, hsection, hvars⟩ := ih hx' hloop
        rw [List.nil_append] at hsegments hvars
        rcases hclosed with ⟨rfl, hvars'⟩ | ⟨hseg, hvars'⟩
        · rw [List.nil_append, Str.split_cons_self]
          rw [hidx, if_pos rfl, hvars'] at hvars
          exact ⟨hsegments, hsection, hvars⟩
        · rw [Str.split_append_cons hseg.ne_nil hseg.slash_notMem]
          rw [hidx, if_neg hseg.ne_nil, hvars'] at hvars
          exact ⟨List.forall_mem_cons.mpr ⟨hseg, hsegments⟩, hsection, hvars⟩
      · obtain ⟨hx', hidx⟩ := explode_char_other hc h hchar
        obtain ⟨hsegments, hsection, hvars⟩ := ih hx' hloop
        rw [List.append_assoc, List.singleton_append] at hsegments hvars
        rw [hidx] at hvars
        exact ⟨hsegments, hsection, hvars⟩

/-- **What `explode_path_vars` does.** An accepted pattern has text and variables between
its slashes, and these are numbered from 0 on. -/
theorem explode_path_vars_ok {path : Str} {vars : Std.ExtTreeMap UInt32 Str} {err : PatternErr}
    (h : explode_path_vars path = (true, vars, err)) :
    (∀ s ∈ Str.split path (lit "/"), Segment s) ∧ err = .OK ∧
      vars = numbered (Str.split path (lit "/")) 0 ∅ := by
  have hstart : Explodes .init ∅ [] := .start
  unfold explode_path_vars at h
  cases hloop : path.foldlM explode_char .init with
  | error err' =>
    rw [hloop] at h
    cases h
  | ok x =>
    rw [hloop] at h
    have hstate : x.state ≠ .STATE_FETCH := by
      intro hfetch
      simp only [hfetch] at h
      cases h
    obtain ⟨hsegments, hsection, hvars⟩ := explode_loop_ok hstart hloop hstate
    rw [List.nil_append] at hsegments hvars
    have hend : (true, x.vars, PatternErr.OK) = (true, vars, err) := by
      rw [← h]
      dsimp only
      rw [hsection]
      cases hx : x.state with
      | STATE_FETCH => exact absurd hx hstate
      | STATE_INIT => rfl
      | STATE_MATCH_TOKEN => rfl
      | STATE_NORMAL => rfl
      | STATE_END_FETCH => rfl
    cases hend
    exact ⟨hsegments, rfl, hvars⟩

/-! ## The names at their numbers -/

/-- The name of the variable that a segment is. -/
def name_of (segment : Str) : Option Str := if is_var segment then some (var_name segment) else none

/-- The variables of a pattern and what stands at their places. -/
def pairs : List Str → List Str → List (Str × Str)
  | segment :: segments, section_ :: sections =>
    ((name_of segment).map fun name => (name, section_)).toList ++ pairs segments sections
  | _, _ => []

theorem ofNat_succ (idx : UInt32) (k : Nat) :
    idx + 1 + UInt32.ofNat k = idx + UInt32.ofNat (k + 1) := by
  rw [UInt32.ofNat_add, UInt32.add_assoc, UInt32.add_comm 1]
  rfl

theorem put_var_getElem? (idx j : UInt32) (segment : Str) (vars : Std.ExtTreeMap UInt32 Str) :
    (put_var idx segment vars)[j]? = vars[j]?.or (if idx = j then name_of segment else none) := by
  unfold put_var name_of
  cases is_var segment with
  | false => simp
  | true =>
    simp only [if_true]
    rw [Std.ExtTreeMap.getElem?_insertIfNew]
    by_cases hj : idx = j
    · subst hj
      cases hold : vars[idx]? with
      | none =>
        have hnot : idx ∉ vars := by simpa using hold
        simp [hnot]
      | some v =>
        have hmem : idx ∈ vars := by simp [Std.ExtTreeMap.mem_iff_isSome_getElem?, hold]
        simp [hmem]
    · have hcmp : ¬ (compare idx j = .eq ∧ idx ∉ vars) := by
        rintro ⟨heq, -⟩
        exact hj (Std.LawfulEqOrd.eq_of_compare heq)
      rw [if_neg hcmp, if_neg hj, Option.or_none]

/-- A number that no segment has keeps its entry. -/
theorem numbered_other {segments : List Str} {idx j : UInt32} {vars : Std.ExtTreeMap UInt32 Str}
    (hj : ∀ k < segments.length, idx + UInt32.ofNat k ≠ j) :
    (numbered segments idx vars)[j]? = vars[j]? := by
  induction segments generalizing idx vars with
  | nil => rfl
  | cons segment segments ih =>
    have hidx : idx ≠ j := by
      have hzero := hj 0 (Nat.succ_pos _)
      simpa using hzero
    have hrest : ∀ k < segments.length, idx + 1 + UInt32.ofNat k ≠ j := by
      intro k hk
      rw [ofNat_succ]
      exact hj (k + 1) (Nat.succ_lt_succ hk)
    rw [numbered, ih hrest, put_var_getElem?, if_neg hidx, Option.or_none]

/-- The number of a segment has its name, when all numbers are different. -/
theorem numbered_getElem? {segments : List Str} {idx : UInt32} {vars : Std.ExtTreeMap UInt32 Str}
    (hlength : segments.length ≤ 2 ^ 32) {k : Nat} (hk : k < segments.length)
    (hvars : vars[idx + UInt32.ofNat k]? = none) :
    (numbered segments idx vars)[idx + UInt32.ofNat k]? = name_of segments[k] := by
  induction segments generalizing idx vars k with
  | nil => exact absurd hk (Nat.not_lt_zero k)
  | cons segment segments ih =>
    rw [List.length_cons] at hlength hk
    -- the numbers of the other segments
    have hdiff : ∀ j, 0 < j → j < 2 ^ 32 → idx + UInt32.ofNat j ≠ idx := by
      intro j hpos hlt heq
      have hzero : UInt32.ofNat j = 0 := by simpa using heq
      have hnat := congrArg UInt32.toNat hzero
      rw [UInt32.toNat_ofNat_of_lt' (by simpa using hlt)] at hnat
      have hnat : j = 0 := hnat
      omega
    cases k with
    | zero =>
      have hadd : idx + UInt32.ofNat 0 = idx := by simp
      rw [hadd] at hvars ⊢
      have hother : ∀ j < segments.length, idx + 1 + UInt32.ofNat j ≠ idx := by
        intro j hj
        rw [ofNat_succ]
        exact hdiff (j + 1) (Nat.succ_pos j) (by omega)
      rw [numbered, numbered_other hother, put_var_getElem?, hvars, if_pos rfl, Option.none_or]
      rfl
    | succ k =>
      have hne : idx ≠ idx + 1 + UInt32.ofNat k := by
        rw [ofNat_succ]
        exact (hdiff (k + 1) (Nat.succ_pos k) (by omega)).symm
      rw [← ofNat_succ] at hvars ⊢
      rw [numbered, ih (by omega) (Nat.lt_of_succ_lt_succ hk)]
      · rfl
      · rw [put_var_getElem?, hvars, if_neg hne]
        rfl

/-- Where the numbers have the names of the segments, `named` pairs them. -/
theorem named_eq_pairs {vars : Std.ExtTreeMap UInt32 Str} {segments sections : List Str}
    {idx : UInt32} (hlength : segments.length = sections.length)
    (hvars : ∀ k (hk : k < segments.length),
      vars[idx + UInt32.ofNat k]? = name_of segments[k]) :
    named vars sections idx = pairs segments sections := by
  induction segments generalizing sections idx with
  | nil =>
    obtain rfl : sections = [] := List.length_eq_zero_iff.mp hlength.symm
    rfl
  | cons segment segments ih =>
    cases sections with
    | nil => cases hlength
    | cons section_ sections =>
      have hhead : vars[idx]? = name_of segment := by
        have hzero := hvars 0 (Nat.succ_pos _)
        simpa using hzero
      have htail : ∀ k (hk : k < segments.length),
          vars[idx + 1 + UInt32.ofNat k]? = name_of segments[k] := by
        intro k hk
        rw [ofNat_succ]
        exact hvars (k + 1) (Nat.succ_lt_succ hk)
      rw [named, hhead, ih (Nat.succ.inj hlength) htail]
      rfl

/-- The two machines together: the values stand at the places of the names. -/
theorem fetch_path_vars_numbered {segments : List Str} {path : Str}
    (hsegments : segments.length ≤ 2 ^ 32)
    (hlength : segments.length = (Str.split path (lit "/")).length) :
    fetch_path_vars (numbered segments 0 ∅) path =
      (true, emplace_all ∅ (pairs segments (Str.split path (lit "/")))) := by
  rw [fetch_path_vars_eq, named_eq_pairs hlength]
  intro k hk
  exact numbered_getElem? hsegments hk Std.ExtTreeMap.getElem?_empty

end Rellaf.UrlPattern
