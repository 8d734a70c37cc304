/-
What a request that gets no route leaves in the map of its caller.

`fetch_vars` writes a variable as soon as the walk comes past it, and takes nothing
back where the walk then ends without a route. So `vals` is as it was only if the
request is answered, or if each of these names was there before
(`fetch_vars_traceless_iff`).
-/
import Rellaf.PathSpelling

set_option autoImplicit false

open Rellaf.Cpp GreedyDescent

namespace Rellaf.UrlTrie

/-! ## What the walk writes -/

/-- One turn of the loop at a variable. The map stays as it is if it has the name, and
if it does not, nothing that comes later takes the name away. -/
theorem fetch_sections_var_iff {next : UrlTrieNode} {sections : List Str} {var section_ : Str}
    {vals : Std.ExtTreeMap Str Str} :
    (fetch_sections next sections (vals.insertIfNew var section_)).2 = vals ↔
      var ∈ vals ∧ (fetch_sections next sections vals).2 = vals := by
  by_cases hvar : var ∈ vals
  · have hsame : vals.insertIfNew var section_ = vals := by
      ext k v
      rw [Std.ExtTreeMap.getElem?_insertIfNew]
      split
      next h => exact absurd hvar h.2
      next => rfl
    rw [hsame]
    exact ⟨fun h => ⟨hvar, h⟩, fun h => h.2⟩
  · refine iff_of_false ?_ fun h => hvar h.1
    intro h
    have hmem : var ∈ (fetch_sections next sections (vals.insertIfNew var section_)).2 :=
      mem_fetch_sections Std.ExtTreeMap.mem_insertIfNew_self
    rw [h] at hmem
    exact hvar hmem

/-- The walk from the node at `σ` goes to a variable for the section at `i`, behind `w`. -/
def VarAfter (root : UrlTrieNode) (σ : List Seg) (sections : List Str) (i : Nat) (w : List Seg) :
    Prop :=
  i < sections.length ∧
    (routes root).descend σ (sections.take (i + 1)) = some (w ++ [.var])

/-- The first turn. -/
theorem varAfter_zero {root : UrlTrieNode} {σ w : List Seg} {section_ : Str}
    {sections : List Str} :
    VarAfter root σ (section_ :: sections) 0 w ↔
      (routes root).pick σ section_ = some .var ∧ w = σ := by
  unfold VarAfter
  rw [List.take_succ_cons, List.take_zero, Tree.descend_cons_eq_some]
  constructor
  · rintro ⟨-, c, hpick, hw⟩
    obtain ⟨hσ, hc⟩ := List.append_inj' (Option.some.inj hw) rfl
    cases hc
    exact ⟨hpick, hσ.symm⟩
  · rintro ⟨hpick, rfl⟩
    exact ⟨Nat.zero_lt_succ _, .var, hpick, rfl⟩

/-- The turns behind it. -/
theorem varAfter_succ {root : UrlTrieNode} {σ w : List Seg} {section_ : Str}
    {sections : List Str} {i : Nat} :
    VarAfter root σ (section_ :: sections) (i + 1) w ↔
      ∃ c, (routes root).pick σ section_ = some c ∧ VarAfter root (σ ++ [c]) sections i w := by
  unfold VarAfter
  rw [List.take_succ_cons, Tree.descend_cons_eq_some, List.length_cons,
    Nat.add_lt_add_iff_right]
  constructor
  · rintro ⟨hi, c, hpick, hrest⟩
    exact ⟨c, hpick, hi, hrest⟩
  · rintro ⟨c, hpick, hi, hrest⟩
    exact ⟨hi, c, hpick, hrest⟩

/-- `vals` stays as it is exactly if it has the names of all variables on the walk. -/
theorem fetch_sections_vals_iff {root node : UrlTrieNode} {σ : List Seg} {sections : List Str}
    {vals : Std.ExtTreeMap Str Str} (h : node_at root σ = some node) :
    (fetch_sections node sections vals).2 = vals ↔
      ∀ i w, VarAfter root σ sections i w → ∀ var ∈ var_at root w, var ∈ vals := by
  induction sections generalizing node σ with
  | nil => exact iff_of_true rfl fun i _ hafter => absurd hafter.1 (Nat.not_lt_zero i)
  | cons section_ sections ih =>
    -- the turns are the first one and those that the hypothesis is about
    have hturns : (∀ i w, VarAfter root σ (section_ :: sections) i w →
          ∀ var ∈ var_at root w, var ∈ vals) ↔
        ((routes root).pick σ section_ = some .var → ∀ var ∈ var_at root σ, var ∈ vals) ∧
          ∀ c, (routes root).pick σ section_ = some c →
            ∀ i w, VarAfter root (σ ++ [c]) sections i w → ∀ var ∈ var_at root w, var ∈ vals := by
      constructor
      · intro hall
        refine ⟨fun hpick => hall 0 σ (varAfter_zero.mpr ⟨hpick, rfl⟩), ?_⟩
        intro c hpick i w hafter
        exact hall (i + 1) w (varAfter_succ.mpr ⟨c, hpick, hafter⟩)
      · rintro ⟨hfirst, hrest⟩ i w hafter
        cases i with
        | zero =>
          obtain ⟨hpick, rfl⟩ := varAfter_zero.mp hafter
          exact hfirst hpick
        | succ i =>
          obtain ⟨c, hpick, hafter⟩ := varAfter_succ.mp hafter
          exact hrest c hpick i w hafter
    rw [hturns, pick_eq h, fetch_sections]
    cases hnext : node.nexts section_ with
    | some next =>
      simp only [Option.isSome_some, if_true, Option.some.injEq, forall_eq']
      rw [← ih (node_at_lit h hnext)]
      exact ⟨fun hsame => ⟨fun hlit => (Seg.noConfusion hlit), hsame⟩, fun hsame => hsame.2⟩
    | none =>
      rcases hentry : node.var with - | ⟨var, next⟩
      · simp
      · have hname : var_at root σ = some var := by
          rw [var_at, h, Option.bind_some, hentry]
          rfl
        simp only [Option.isSome_none, Option.isSome_some, Bool.false_eq_true, if_false, if_true,
          Option.some.injEq, forall_eq', hname, Option.mem_def, forall_const]
        rw [fetch_sections_var_iff, ih (node_at_var h hentry)]
        exact Iff.rfl

/-! ## In terms of the patterns -/

/-- The walk comes past the variable at position `i` of the pattern: the pattern matches
the path up to there, and no other one draws the walk away from it before. -/
def Put.Passed (p : Put) (puts : List Put) (sections : List Str) (i : Nat) : Prop :=
  p.shape[i]? = some .var ∧
    List.Forall₂ (fun section_ s => is_var section_ = true ∨ section_ = s)
      (p.sections.take (i + 1)) (sections.take (i + 1)) ∧
    ¬ p.Shadowed puts (sections.take (i + 1))

/-- The variables on the walk are those of the patterns. -/
theorem varAfter_iff {puts : List Put} {sections : List Str} {i : Nat} {w : List Seg} :
    VarAfter (put_all puts) [] sections i w ↔
      ∃ p ∈ puts, p.Passed puts sections i ∧ p.shape.take i = w := by
  constructor
  · rintro ⟨hi, hw⟩
    obtain ⟨v, hv, hreads⟩ := (routes (put_all puts)).exists_of_descend hw
    rw [List.nil_append] at hv
    subst hv
    have hlength : w.length = i := by
      have heq := hreads.length_eq
      rw [List.length_append, List.length_singleton, List.length_take] at heq
      omega
    -- the place in the tree is there for some pattern
    have hlive := (routes (put_all puts)).live_of_descend hw rfl
    rcases (has_put_all puts _).mp hlive with hnil | ⟨p, hp, hprefix⟩
    · simp at hnil
    have hshape : p.shape.take (i + 1) = w ++ [.var] := by
      rw [List.prefix_iff_eq_take.mp hprefix, List.length_append, hlength]
      rfl
    have hvar : p.shape[i]? = some .var := by
      rw [← List.getElem?_take_of_lt (Nat.lt_succ_self i), hshape,
        List.getElem?_append_right (le_of_eq hlength), hlength, Nat.sub_self]
      rfl
    have hmatches : List.Forall₂ (fun section_ s => is_var section_ = true ∨ section_ = s)
        (p.sections.take (i + 1)) (sections.take (i + 1)) := by
      rw [← hshape, Tree.Reads, Put.shape, shape, ← List.map_take, List.forall₂_map_left_iff]
        at hreads
      exact hreads.imp fun _ _ hs => seg_mem_cands_iff.mp hs
    refine ⟨p, hp, ⟨hvar, hmatches, ?_⟩, ?_⟩
    · rw [← descend_take_iff hp hmatches, hshape]
      exact hw
    · have htake : (p.shape.take (i + 1)).take i = w := by
        rw [hshape, ← hlength]
        exact List.take_left
      rwa [List.take_take, min_eq_left (Nat.le_succ i)] at htake
  · rintro ⟨p, hp, ⟨hvar, hmatches, hclear⟩, rfl⟩
    have hlt : i < p.shape.length := (List.getElem?_eq_some_iff.mp hvar).1
    have hshape : p.shape.take (i + 1) = p.shape.take i ++ [.var] := by
      rw [List.take_add_one, hvar]
      rfl
    refine ⟨?_, ?_⟩
    · have hlength := hmatches.length_eq
      rw [Put.shape, shape, List.length_map] at hlt
      rw [List.length_take, List.length_take] at hlength
      omega
    · rw [← hshape]
      exact (descend_take_iff hp hmatches).mpr hclear

/-! ## A request without a route -/

/-- Where `fetch_vars` returns `false`, the name is not written. -/
theorem fetch_vars_name {root : UrlTrieNode} {path name : Str} {vals : Std.ExtTreeMap Str Str}
    (h : (fetch_vars root path name vals).1 = false) :
    (fetch_vars root path name vals).2.1 = name := by
  unfold fetch_vars at h ⊢
  rcases hfetch : fetch_sections root (Str.split path (lit "/")) vals with ⟨- | node, vals'⟩
  · rfl
  · rw [hfetch] at h
    dsimp only at h ⊢
    by_cases hend : node.end_ = true
    · rw [if_pos hend] at h
      cases h
    · rw [if_neg hend]

/-- **When a refused request leaves no trace.** Either the request is answered, as some
pattern matches and no other draws the walk away from it, or the caller's map has the
name of every variable that the walk comes past. -/
theorem fetch_vars_traceless_iff (puts : List Put) (path name : Str)
    (vals : Std.ExtTreeMap Str Str) :
    ((fetch_vars (put_all puts) path name vals).1 = false →
        (fetch_vars (put_all puts) path name vals).2 = (name, vals)) ↔
      (∃ p ∈ puts, p.Matches (Str.split path (lit "/")) ∧
        ¬ p.Shadowed puts (Str.split path (lit "/"))) ∨
      ∀ p ∈ puts, ∀ i, p.Passed puts (Str.split path (lit "/")) i →
        ∀ var ∈ first_var puts (p.shape.take i), var ∈ vals := by
  have hroot : node_at (put_all puts) [] = some (put_all puts) := rfl
  have hvals : (fetch_vars (put_all puts) path name vals).2.2 = vals ↔
      ∀ p ∈ puts, ∀ i, p.Passed puts (Str.split path (lit "/")) i →
        ∀ var ∈ first_var puts (p.shape.take i), var ∈ vals := by
    rw [fetch_vars_vals, fetch_sections_vals_iff hroot]
    constructor
    · intro h p hp i hpassed var hvar
      rw [← var_at_put_all] at hvar
      exact h i _ (varAfter_iff.mpr ⟨p, hp, hpassed, rfl⟩) var hvar
    · intro h i w hafter var hvar
      obtain ⟨p, hp, hpassed, rfl⟩ := varAfter_iff.mp hafter
      rw [var_at_put_all] at hvar
      exact h p hp i hpassed var hvar
  have hanswered : (fetch_vars (put_all puts) path name vals).1 = true ↔
      ∃ p ∈ puts, p.Matches (Str.split path (lit "/")) ∧
        ¬ p.Shadowed puts (Str.split path (lit "/")) := by
    rw [fetch_vars_answered_iff]
    exact exists_congr fun p => and_congr_right fun hp => and_congr_right fun hmatches =>
      descend_shape_iff hp hmatches
  rw [← hanswered, ← hvals]
  cases hanswer : (fetch_vars (put_all puts) path name vals).1 with
  | true => exact iff_of_true (fun h => Bool.noConfusion h) (.inl rfl)
  | false =>
    have hname := fetch_vars_name hanswer
    constructor
    · intro h
      rw [h rfl]
      exact .inr rfl
    · rintro (h | h) -
      · cases h
      · exact Prod.ext hname h

/-- `/{id}/x`: the path `/7/y` gets no route, and `id` is in the map afterwards. -/
theorem fetch_vars_leaves_trace :
    ¬ ∀ (puts : List Put) (path name : Str) (vals : Std.ExtTreeMap Str Str),
      (fetch_vars (put_all puts) path name vals).1 = false →
        (fetch_vars (put_all puts) path name vals).2 = (name, vals) := by
  intro h
  have htrace : (fetch_vars (put_all [⟨lit "/{id}/x", lit "r"⟩]) (lit "/7/y") [] ∅).2 =
      ([], (∅ : Std.ExtTreeMap Str Str).insertIfNew (lit "id") (lit "7")) := rfl
  have hsame := h [⟨lit "/{id}/x", lit "r"⟩] (lit "/7/y") [] ∅ rfl
  rw [htrace] at hsame
  have hmem : lit "id" ∈ (∅ : Std.ExtTreeMap Str Str).insertIfNew (lit "id") (lit "7") :=
    Std.ExtTreeMap.mem_insertIfNew_self
  rw [(Prod.mk.inj hsame).2] at hmem
  exact absurd hmem Std.ExtTreeMap.not_mem_empty

end Rellaf.UrlTrie
