/-
What `fetch_vars` answers, in terms of the patterns that were put.

The walk is the greedy descent of `Lib/GreedyDescent.lean` in the tree of the
registered shapes: a section of the path is read as that literal or, second best,
as a variable. So a request gets the most specific of the patterns that match it
(`fetch_vars_most_specific`), but only if no other pattern leads the walk astray
on a literal (`fetch_vars_iff_not_shadowed`), and the variables go under the names
that the first patterns on the way gave them (`fetch_vars_own_iff`). Where no two
patterns have one shape, their order does not matter (`fetch_vars_perm`).
-/
import Rellaf.Lib.FirstWins
import Rellaf.UrlTrie

set_option autoImplicit false

open Rellaf.Cpp GreedyDescent

namespace Rellaf.UrlTrie

/-! ## Matching -/

/-- The pattern matches the sections of a path one by one. -/
def Put.Matches (p : Put) (sections : List Str) : Prop :=
  List.Forall₂ (fun section_ s => is_var section_ = true ∨ section_ = s) p.sections sections

/-- The nodes of the tree, and how a section of a path is read. -/
def routes (root : UrlTrieNode) : Tree Seg Str where
  live := has root
  cands s := [.lit s, .var]
  live_of_append _ _ h := has_of_append h
  cands_nodup s := by simp

@[simp] theorem routes_live (root : UrlTrieNode) (σ : List Seg) :
    (routes root).live σ = has root σ := rfl

theorem before_cands_iff {root : UrlTrieNode} {s : Str} {c d : Seg} :
    Before ((routes root).cands s) c d ↔ c = .lit s ∧ d = .var := by
  constructor
  · rintro ⟨xs, ys, hcands, hd⟩
    cases xs with
    | nil =>
      obtain ⟨rfl, rfl⟩ : Seg.lit s = c ∧ [Seg.var] = ys := by simpa [routes] using hcands
      exact ⟨rfl, List.mem_singleton.mp hd⟩
    | cons x xs =>
      -- nothing stands behind the second candidate
      have htail : [Seg.var] = xs ++ c :: ys := by
        have hcons : Seg.lit s = x ∧ [Seg.var] = xs ++ c :: ys := by simpa [routes] using hcands
        exact hcons.2
      have hlength := congrArg List.length htail
      have hpos : 0 < ys.length := List.length_pos_of_mem hd
      simp only [List.length_append, List.length_cons, List.length_nil] at hlength
      omega
  · rintro ⟨rfl, rfl⟩
    exact ⟨[], [.var], rfl, List.mem_singleton.mpr rfl⟩

theorem seg_mem_cands_iff {root : UrlTrieNode} {section_ s : Str} :
    seg section_ ∈ (routes root).cands s ↔ is_var section_ = true ∨ section_ = s := by
  rw [seg]
  cases is_var section_ <;> simp [routes]

theorem reads_shape_iff {root : UrlTrieNode} {p : Put} {sections : List Str} :
    (routes root).Reads p.shape sections ↔ p.Matches sections := by
  rw [Tree.Reads, Put.shape, shape, List.forall₂_map_left_iff]
  constructor
  · exact fun h => h.imp fun _ _ hs => seg_mem_cands_iff.mp hs
  · exact fun h => h.imp fun _ _ hs => seg_mem_cands_iff.mpr hs

/-- Whether a pattern matches is a matter of its shape. -/
theorem Put.matches_of_shape {p q : Put} {sections : List Str} (h : p.shape = q.shape) :
    p.Matches sections ↔ q.Matches sections := by
  have hp : (routes .new).Reads p.shape sections ↔ p.Matches sections := reads_shape_iff
  rw [← hp, h, reads_shape_iff]

/-! ## The walk -/

theorem node_at_concat {root node : UrlTrieNode} {σ : List Seg} (h : node_at root σ = some node)
    (c : Seg) : node_at root (σ ++ [c]) = node_at node [c] := by
  rw [node_at_append, h, Option.bind_some]

theorem has_concat {root node : UrlTrieNode} {σ : List Seg} (h : node_at root σ = some node)
    (c : Seg) : has root (σ ++ [c]) = (node_at node [c]).isSome := by
  rw [has, node_at_concat h]

theorem node_at_lit {root node next : UrlTrieNode} {σ : List Seg} {s : Str}
    (h : node_at root σ = some node) (hnext : node.nexts s = some next) :
    node_at root (σ ++ [.lit s]) = some next := by
  rw [node_at_concat h, node_at, hnext]
  rfl

theorem node_at_var {root node next : UrlTrieNode} {σ : List Seg} {var : Str}
    (h : node_at root σ = some node) (hentry : node.var = some (var, next)) :
    node_at root (σ ++ [.var]) = some next := by
  rw [node_at_concat h, node_at, hentry]
  rfl

/-- One turn of the loop is one step of the descent. -/
theorem pick_eq {root node : UrlTrieNode} {σ : List Seg} (h : node_at root σ = some node)
    (s : Str) : (routes root).pick σ s =
      if (node.nexts s).isSome then some (.lit s)
      else if node.var.isSome then some .var else none := by
  have hlit : has root (σ ++ [.lit s]) = (node.nexts s).isSome := by
    rw [has_concat h]
    cases hnext : node.nexts s <;> simp [node_at, hnext]
  have hvar : has root (σ ++ [.var]) = node.var.isSome := by
    rw [has_concat h]
    cases hentry : node.var <;> simp [node_at, hentry]
  rw [Tree.pick, routes]
  cases hnext : (node.nexts s).isSome <;> cases hentry : node.var.isSome <;>
    simp [hlit, hvar, hnext, hentry]

/-- The pairs given to `vals` on the way `w` from `σ` on: the name that `vars` has
for the variable, and the section of the path. -/
def bindings (vars : List Seg → Option Str) : List Seg → List Seg → List Str → List (Str × Str)
  | σ, .lit s :: w, _ :: sections => bindings vars (σ ++ [.lit s]) w sections
  | σ, .var :: w, section_ :: sections =>
    ((vars σ).map fun var => (var, section_)).toList ++ bindings vars (σ ++ [.var]) w sections
  | _, _, _ => []

/-- `vals.emplace`, one pair after another. -/
def emplace_all (vals : Std.ExtTreeMap Str Str) (kvs : List (Str × Str)) : Std.ExtTreeMap Str Str :=
  kvs.foldl (fun vals kv => vals.insertIfNew kv.1 kv.2) vals

theorem fetch_sections_of_descend {root node : UrlTrieNode} {σ w : List Seg}
    {sections : List Str} (h : node_at root σ = some node)
    (hw : (routes root).descend σ sections = some (σ ++ w)) (vals : Std.ExtTreeMap Str Str) :
    fetch_sections node sections vals =
      (node_at root (σ ++ w), emplace_all vals (bindings (var_at root) σ w sections)) := by
  induction sections generalizing node σ w vals with
  | nil =>
    have hnil : σ = σ ++ w := Option.some.inj hw
    obtain rfl : w = [] := List.self_eq_append_right.mp hnil
    rw [List.append_nil, h]
    rfl
  | cons section_ sections ih =>
    obtain ⟨w', hw', hreads⟩ := (routes root).exists_of_descend hw
    obtain rfl := List.append_cancel_left hw'
    cases hreads with
    | @cons c _ w _ _ _ =>
    obtain ⟨hpick, hrest⟩ := (routes root).pick_of_descend hw
    rw [pick_eq h] at hpick
    have happend : σ ++ c :: w = σ ++ [c] ++ w := by
      rw [List.append_assoc, List.singleton_append]
    rw [fetch_sections, happend]
    cases hnext : node.nexts section_ with
    | some next =>
      -- the literal child is the first candidate, and `vals` stays
      obtain rfl : Seg.lit section_ = c := by simpa [hnext] using hpick
      exact ih (node_at_lit h hnext) hrest vals
    | none =>
      rcases hentry : node.var with - | ⟨var, next⟩
      · simp [hnext, hentry] at hpick
      · -- the variable child, whose name gets the section
        obtain rfl : Seg.var = c := by simpa [hnext, hentry] using hpick
        have hname : var_at root σ = some var := by
          rw [var_at, h, Option.bind_some, hentry]
          rfl
        rw [bindings, hname]
        exact ih (node_at_var h hentry) hrest (vals.insertIfNew var section_)

theorem fetch_sections_of_descend_none {root node : UrlTrieNode} {σ : List Seg}
    {sections : List Str} (h : node_at root σ = some node)
    (hw : (routes root).descend σ sections = none) (vals : Std.ExtTreeMap Str Str) :
    (fetch_sections node sections vals).1 = none := by
  induction sections generalizing node σ vals with
  | nil => cases hw
  | cons section_ sections ih =>
    rw [Tree.descend, pick_eq h] at hw
    rw [fetch_sections]
    cases hnext : node.nexts section_ with
    | some next => exact ih (node_at_lit h hnext) (by simpa [hnext] using hw) vals
    | none =>
      rcases hentry : node.var with - | ⟨var, next⟩
      · -- neither child is there: `return false`
        rfl
      · have hrest : (routes root).descend (σ ++ [.var]) sections = none := by
          simpa [hnext, hentry] using hw
        exact ih (node_at_var h hentry) hrest (vals.insertIfNew var section_)

/-- `fetch_vars` finds what the descent ends at. -/
theorem fetch_vars_eq_true_iff {root : UrlTrieNode} {path name n : Str}
    {vals vals' : Std.ExtTreeMap Str Str} :
    fetch_vars root path name vals = (true, n, vals') ↔
      ∃ w, (routes root).descend [] (Str.split path (lit "/")) = some w ∧
        end_at root w = some n ∧
        vals' = emplace_all vals (bindings (var_at root) [] w (Str.split path (lit "/"))) := by
  have hroot : node_at root [] = some root := rfl
  rw [fetch_vars]
  cases hw : (routes root).descend [] (Str.split path (lit "/")) with
  | none =>
    have hnone := fetch_sections_of_descend_none hroot hw vals
    rcases hfetch : fetch_sections root (Str.split path (lit "/")) vals with ⟨node, vals₁⟩
    rw [hfetch] at hnone
    obtain rfl : node = none := hnone
    simp
  | some w =>
    have hfetch := fetch_sections_of_descend (w := w) hroot hw vals
    rw [List.nil_append] at hfetch
    rw [hfetch]
    cases hnode : node_at root w with
    | none => simp [end_at, hnode]
    | some node =>
      cases hend : node.end_ with
      | false => simp [end_at, hnode, hend]
      | true =>
        have hname : end_at root w = some node.name := by
          rw [end_at, hnode, Option.bind_some, if_pos hend]
        simp only [hend, if_true, Prod.mk.injEq, true_and, Option.some.injEq]
        constructor
        · rintro ⟨rfl, rfl⟩
          exact ⟨w, rfl, hname, rfl⟩
        · rintro ⟨w', rfl, hname', rfl⟩
          exact ⟨Option.some.inj (hname.symm.trans hname'), rfl⟩

/-! ## The most specific match -/

theorem shape_live {puts : List Put} {p : Put} (hp : p ∈ puts) :
    (routes (put_all puts)).live ([] ++ p.shape) = true :=
  (has_put_all puts p.shape).mpr (.inr ⟨p, hp, List.prefix_rfl⟩)

theorem exists_of_last_name {puts : List Put} {σ : List Seg} {n : Str}
    (h : last_name puts σ = some n) : ∃ p ∈ puts, p.shape = σ ∧ p.name = n := by
  obtain ⟨p, hp, hname⟩ := Option.map_eq_some_iff.mp h
  have hmem : p ∈ puts := List.mem_reverse.mp (List.mem_of_find?_eq_some hp)
  have hshape : p.shape = σ := by simpa using List.find?_some hp
  exact ⟨p, hmem, hshape, hname⟩

theorem last_name_isSome {puts : List Put} {p : Put} (hp : p ∈ puts) :
    (last_name puts p.shape).isSome = true := by
  rw [last_name, Option.isSome_map, List.find?_isSome]
  exact ⟨p, List.mem_reverse.mpr hp, by simp⟩

/-- What a request is answered with: the last name of the shape that the descent
takes, which is the shape of a pattern that matches. -/
theorem fetch_vars_put_all {puts : List Put} {path name n : Str}
    {vals vals' : Std.ExtTreeMap Str Str}
    (h : fetch_vars (put_all puts) path name vals = (true, n, vals')) :
    ∃ p ∈ puts, p.Matches (Str.split path (lit "/")) ∧ p.name = n ∧
      last_name puts p.shape = some n ∧
      (routes (put_all puts)).descend [] (Str.split path (lit "/")) = some p.shape ∧
      vals' = emplace_all vals
        (bindings (first_var puts) [] p.shape (Str.split path (lit "/"))) := by
  obtain ⟨w, hw, hend, hvals⟩ := fetch_vars_eq_true_iff.mp h
  rw [end_at_put_all] at hend
  obtain ⟨p, hp, rfl, hname⟩ := exists_of_last_name hend
  obtain ⟨w, hw', hreads⟩ := (routes (put_all puts)).exists_of_descend hw
  rw [List.nil_append] at hw'
  subst hw'
  have hvar : var_at (put_all puts) = first_var puts := funext (var_at_put_all puts)
  rw [hvar] at hvals
  exact ⟨p, hp, reads_shape_iff.mp hreads, hname, hend, hw, hvals⟩

/-- **A request gets the most specific match.** Of two patterns of different shapes
that match, the one taken has the literal where they differ first. -/
theorem fetch_vars_most_specific (puts : List Put) (path name n : Str)
    (vals vals' : Std.ExtTreeMap Str Str)
    (h : fetch_vars (put_all puts) path name vals = (true, n, vals')) :
    ∃ p ∈ puts, p.Matches (Str.split path (lit "/")) ∧ last_name puts p.shape = some n ∧
      ∀ q ∈ puts, q.Matches (Str.split path (lit "/")) → q.shape ≠ p.shape →
        ∃ i s, q.shape.take i = p.shape.take i ∧ p.shape[i]? = some (.lit s) ∧
          q.shape[i]? = some .var := by
  obtain ⟨p, hp, hmatches, -, hlast, hw, -⟩ := fetch_vars_put_all h
  refine ⟨p, hp, hmatches, hlast, ?_⟩
  intro q hq hqmatches hne
  have hw' : (routes (put_all puts)).descend [] (Str.split path (lit "/")) =
      some ([] ++ p.shape) := hw
  obtain ⟨i, s, c, d, -, htake, hc, hd, hbefore⟩ :=
    (routes (put_all puts)).descend_lex_first hw' (shape_live hq)
      (reads_shape_iff.mpr hqmatches) hne
  obtain ⟨rfl, rfl⟩ := before_cands_iff.mp hbefore
  exact ⟨i, s, htake, hc, hd⟩

/-- Of `/aa/{x}` and `/{y}/bb`, the path `/aa/bb` gets the first. -/
theorem fetch_vars_most_specific_literal :
    fetch_vars (put_all [⟨lit "/aa/{x}", lit "r1"⟩, ⟨lit "/{y}/bb", lit "r2"⟩])
        (lit "/aa/bb") [] ∅ =
        (true, lit "r1", (∅ : Std.ExtTreeMap Str Str).insert (lit "x") (lit "bb")) ∧
      ∃ p ∈ [⟨lit "/aa/{x}", lit "r1"⟩, (⟨lit "/{y}/bb", lit "r2"⟩ : Put)],
        p.Matches (Str.split (lit "/aa/bb") (lit "/")) ∧
        last_name [⟨lit "/aa/{x}", lit "r1"⟩, ⟨lit "/{y}/bb", lit "r2"⟩] p.shape =
          some (lit "r1") ∧
        ∀ q ∈ [⟨lit "/aa/{x}", lit "r1"⟩, (⟨lit "/{y}/bb", lit "r2"⟩ : Put)],
          q.Matches (Str.split (lit "/aa/bb") (lit "/")) → q.shape ≠ p.shape →
            ∃ i s, q.shape.take i = p.shape.take i ∧ p.shape[i]? = some (.lit s) ∧
              q.shape[i]? = some .var :=
  ⟨rfl, fetch_vars_most_specific _ _ [] _ ∅ _ rfl⟩

/-! ## Patterns in the shadow of others -/

/-- Where `p` has a variable, another pattern that goes the same way up to there has
the literal of the path. -/
def Put.Shadowed (p : Put) (puts : List Put) (sections : List Str) : Prop :=
  ∃ i s, sections[i]? = some s ∧ p.shape[i]? = some .var ∧
    ∃ q ∈ puts, p.shape.take i ++ [.lit s] <+: q.shape

/-- The descent takes the first `n` sections of a pattern that match exactly when they are
not in a shadow. -/
theorem descend_take_iff {puts : List Put} {p : Put} {sections : List Str} {n : Nat}
    (hp : p ∈ puts)
    (hmatches : List.Forall₂ (fun section_ s => is_var section_ = true ∨ section_ = s)
      (p.sections.take n) sections) :
    (routes (put_all puts)).descend [] sections = some (p.shape.take n) ↔
      ¬ p.Shadowed puts sections := by
  have hlength : sections.length = (p.shape.take n).length := by
    rw [← hmatches.length_eq, Put.shape, shape, ← List.map_take, List.length_map]
  have htake : ∀ i, i < sections.length → (p.shape.take n)[i]? = p.shape[i]? ∧
      (p.shape.take n).take i = p.shape.take i := by
    intro i hi
    have hin : i < n := by
      rw [hlength, List.length_take] at hi
      omega
    exact ⟨List.getElem?_take_of_lt hin, by rw [List.take_take, min_eq_left hin.le]⟩
  have hreads : (routes (put_all puts)).Reads (p.shape.take n) sections := by
    rw [Tree.Reads, Put.shape, shape, ← List.map_take, List.forall₂_map_left_iff]
    exact hmatches.imp fun _ _ hs => seg_mem_cands_iff.mpr hs
  have hlive : (routes (put_all puts)).live ([] ++ p.shape.take n) = true :=
    (has_put_all puts _).mpr (.inr ⟨p, hp, List.take_prefix n p.shape⟩)
  have hiff := (routes (put_all puts)).descend_eq_some_iff_of_live hlive hreads
  rw [List.nil_append] at hiff
  rw [hiff]
  constructor
  · rintro h ⟨i, s, hs, hvar, q, hq, hprefix⟩
    obtain ⟨hget, htakes⟩ := htake i (List.getElem?_eq_some_iff.mp hs).1
    have hdead := h i s .var (.lit s) hs (hget.trans hvar) (before_cands_iff.mpr ⟨rfl, rfl⟩)
    have hbranch : has (put_all puts) (p.shape.take i ++ [.lit s]) = true :=
      (has_put_all puts _).mpr (.inr ⟨q, hq, hprefix⟩)
    rw [routes_live, List.nil_append, htakes, hbranch] at hdead
    cases hdead
  · intro h i s c d hs hc hbefore
    obtain ⟨hget, htakes⟩ := htake i (List.getElem?_eq_some_iff.mp hs).1
    obtain ⟨rfl, rfl⟩ := before_cands_iff.mp hbefore
    rw [Bool.eq_false_iff]
    intro hbranch
    rw [routes_live, List.nil_append, htakes] at hbranch
    rcases (has_put_all puts _).mp hbranch with hnil | ⟨q, hq, hprefix⟩
    · simp at hnil
    · exact h ⟨i, s, hs, hget.symm.trans hc, q, hq, hprefix⟩

/-- The descent takes a pattern that matches exactly when it is not in a shadow. -/
theorem descend_shape_iff {puts : List Put} {p : Put} {sections : List Str} (hp : p ∈ puts)
    (hmatches : p.Matches sections) :
    (routes (put_all puts)).descend [] sections = some p.shape ↔ ¬ p.Shadowed puts sections := by
  have hall : p.shape.take p.sections.length = p.shape := by
    rw [Put.shape, shape, ← List.map_take, List.take_length]
  have hmatches' : List.Forall₂ (fun section_ s => is_var section_ = true ∨ section_ = s)
      (p.sections.take p.sections.length) sections := by
    rw [List.take_length]
    exact hmatches
  rw [← descend_take_iff hp hmatches', hall]

/-- A request is answered where the walk ends at a pattern that matches. -/
theorem fetch_vars_answered_iff (puts : List Put) (path name : Str)
    (vals : Std.ExtTreeMap Str Str) :
    (fetch_vars (put_all puts) path name vals).1 = true ↔
      ∃ p ∈ puts, p.Matches (Str.split path (lit "/")) ∧
        (routes (put_all puts)).descend [] (Str.split path (lit "/")) = some p.shape := by
  constructor
  · intro h
    rcases hfetch : fetch_vars (put_all puts) path name vals with ⟨b, n, vals'⟩
    rw [hfetch] at h
    obtain rfl : b = true := h
    obtain ⟨p, hp, hmatches, -, -, hw, -⟩ := fetch_vars_put_all hfetch
    exact ⟨p, hp, hmatches, hw⟩
  · rintro ⟨p, hp, -, hw⟩
    obtain ⟨n, hn⟩ := Option.isSome_iff_exists.mp (last_name_isSome hp)
    have hend : end_at (put_all puts) p.shape = some n := by rw [end_at_put_all, hn]
    rw [fetch_vars_eq_true_iff.mpr ⟨p.shape, hw, hend, rfl⟩]

/-- **When a request is answered.** Some pattern matches, and no other pattern draws
the walk away from it. -/
theorem fetch_vars_iff_not_shadowed (puts : List Put) (path name : Str)
    (vals : Std.ExtTreeMap Str Str) :
    (fetch_vars (put_all puts) path name vals).1 = true ↔
      ∃ p ∈ puts, p.Matches (Str.split path (lit "/")) ∧
        ¬ p.Shadowed puts (Str.split path (lit "/")) := by
  rw [fetch_vars_answered_iff]
  exact exists_congr fun p => and_congr_right fun hp => and_congr_right fun hmatches =>
    descend_shape_iff hp hmatches

/-- `/aa/{}/dd` in front of `/{}/bb/cc`: the path `/aa/bb/cc` matches the second, and
nothing is found. -/
theorem fetch_vars_astray :
    ¬ ∀ (puts : List Put) (path name : Str) (vals : Std.ExtTreeMap Str Str),
      (∃ p ∈ puts, p.Matches (Str.split path (lit "/"))) →
        (fetch_vars (put_all puts) path name vals).1 = true := by
  intro h
  have hmatch : Put.Matches ⟨lit "/{}/bb/cc", lit "r2"⟩
      (Str.split (lit "/aa/bb/cc") (lit "/")) := by
    unfold Put.Matches
    decide
  have hfetch := h [⟨lit "/aa/{}/dd", lit "r1"⟩, ⟨lit "/{}/bb/cc", lit "r2"⟩] (lit "/aa/bb/cc") [] ∅
    ⟨_, List.mem_cons_of_mem _ List.mem_cons_self, hmatch⟩
  exact absurd hfetch (by decide)

/-! ## The names of the variables -/

/-- The names written in a pattern. -/
def Put.vars (p : Put) : List Str := (p.sections.filter is_var).map var_name

/-- The pattern writes the name `k` at the position of `v` in the path. -/
def Put.Writes (p : Put) (sections : List Str) (k v : Str) : Prop :=
  ∃ (i : Nat) (section_ : Str), p.sections[i]? = some section_ ∧ is_var section_ = true ∧
    var_name section_ = k ∧ sections[i]? = some v

/-- The positions of the variables. -/
def Put.var_positions (p : Put) : Finset Nat :=
  (Finset.range p.shape.length).filter fun i => p.shape[i]? = some .var

/-- The names that the variables of the pattern were first put with are pairwise
different, and each is the name the pattern has for the same text of the path. -/
def Put.NamesKept (p : Put) (puts : List Put) (sections : List Str) : Prop :=
  Set.InjOn (fun i => first_var puts (p.shape.take i)) p.var_positions ∧
    ∀ i ∈ p.var_positions, ∃ j ∈ p.var_positions,
      var_name_at p.sections j = first_var puts (p.shape.take i) ∧ sections[j]? = sections[i]?

theorem Put.mem_var_positions {p : Put} {i : Nat} :
    i ∈ p.var_positions ↔ p.shape[i]? = some .var := by
  rw [Put.var_positions, Finset.mem_filter, Finset.mem_range]
  constructor
  · exact fun h => h.2
  · exact fun h => ⟨(List.getElem?_eq_some_iff.mp h).1, h⟩

theorem Put.shape_eq_var_iff {p : Put} {i : Nat} :
    p.shape[i]? = some .var ↔
      ∃ section_, p.sections[i]? = some section_ ∧ is_var section_ = true := by
  rw [Put.shape, UrlTrie.shape, List.getElem?_map, Option.map_eq_some_iff]
  constructor
  · rintro ⟨section_, hsection, hseg⟩
    refine ⟨section_, hsection, ?_⟩
    rw [seg] at hseg
    split at hseg
    · assumption
    · cases hseg
  · rintro ⟨section_, hsection, hvar⟩
    exact ⟨section_, hsection, by rw [seg, if_pos hvar]⟩

theorem Put.writes_iff {p : Put} {sections : List Str} {k v : Str} :
    p.Writes sections k v ↔
      ∃ i ∈ p.var_positions, var_name_at p.sections i = some k ∧ sections[i]? = some v := by
  constructor
  · rintro ⟨i, section_, hsection, hvar, rfl, hv⟩
    refine ⟨i, Put.mem_var_positions.mpr (Put.shape_eq_var_iff.mpr ⟨_, hsection, hvar⟩), ?_, hv⟩
    rw [var_name_at, hsection]
    rfl
  · rintro ⟨i, hi, hk, hv⟩
    obtain ⟨section_, hsection, hvar⟩ := Put.shape_eq_var_iff.mp (Put.mem_var_positions.mp hi)
    rw [var_name_at, hsection] at hk
    exact ⟨i, section_, hsection, hvar, Option.some.inj hk, hv⟩

theorem Put.var_name_at_injOn {p : Put} (h : p.vars.Nodup) :
    Set.InjOn (var_name_at p.sections) p.var_positions := by
  have hpairwise : p.sections.Pairwise fun s t =>
      is_var s = true → is_var t = true → var_name s ≠ var_name t := by
    rw [Put.vars, List.Nodup, List.pairwise_map, List.pairwise_filter] at h
    exact h.imp fun hne hs ht => hne hs ht
  -- two positions with the same name are in one order or the other
  have hne : ∀ i j, i < j → i ∈ p.var_positions → j ∈ p.var_positions →
      var_name_at p.sections i ≠ var_name_at p.sections j := by
    intro i j hij hi hj heq
    obtain ⟨s, hs, hsvar⟩ := Put.shape_eq_var_iff.mp (Put.mem_var_positions.mp hi)
    obtain ⟨t, ht, htvar⟩ := Put.shape_eq_var_iff.mp (Put.mem_var_positions.mp hj)
    rw [var_name_at, var_name_at, hs, ht] at heq
    obtain ⟨hilt, rfl⟩ := List.getElem?_eq_some_iff.mp hs
    obtain ⟨hjlt, rfl⟩ := List.getElem?_eq_some_iff.mp ht
    exact List.pairwise_iff_getElem.mp hpairwise i j hilt hjlt hij hsvar htvar
      (Option.some.inj heq)
  intro i hi j hj heq
  rcases lt_trichotomy i j with hlt | rfl | hlt
  · exact absurd heq (hne i j hlt hi hj)
  · rfl
  · exact absurd heq.symm (hne j i hlt hj hi)

/-- The first variable on the way that is called `k` stands at `v`. -/
def FirstAt (vars : List Seg → Option Str) (σ w : List Seg) (sections : List Str) (k v : Str) :
    Prop :=
  ∃ i, w[i]? = some .var ∧ vars (σ ++ w.take i) = some k ∧ sections[i]? = some v ∧
    ∀ j < i, w[j]? = some .var → vars (σ ++ w.take j) ≠ some k

/-- A segment that is not called `k` may be left out. -/
theorem firstAt_cons {vars : List Seg → Option Str} {σ w : List Seg} {sections : List Str}
    {k v s : Str} {c : Seg} (h : c = .var → vars σ ≠ some k) :
    FirstAt vars σ (c :: w) (s :: sections) k v ↔ FirstAt vars (σ ++ [c]) w sections k v := by
  have happend : ∀ i, σ ++ (c :: w).take (i + 1) = σ ++ [c] ++ w.take i := by
    intro i
    rw [List.take_succ_cons, List.append_assoc, List.singleton_append]
  constructor
  · rintro ⟨i, hi, hk, hv, hfirst⟩
    cases i with
    | zero =>
      rw [List.take_zero, List.append_nil] at hk
      exact absurd hk (h (Option.some.inj hi))
    | succ i =>
      refine ⟨i, hi, by rw [← happend, hk], hv, ?_⟩
      intro j hj hvar
      rw [← happend]
      exact hfirst (j + 1) (Nat.succ_lt_succ hj) hvar
  · rintro ⟨i, hi, hk, hv, hfirst⟩
    refine ⟨i + 1, hi, by rw [happend, hk], hv, ?_⟩
    intro j hj hvar
    cases j with
    | zero =>
      rw [List.take_zero, List.append_nil]
      exact h (Option.some.inj hvar)
    | succ j =>
      rw [happend]
      exact hfirst j (Nat.lt_of_succ_lt_succ hj) hvar

theorem lookup_bindings {vars : List Seg → Option Str} {σ w : List Seg} {sections : List Str}
    (hlength : w.length = sections.length) {k v : Str} :
    (bindings vars σ w sections).lookup k = some v ↔ FirstAt vars σ w sections k v := by
  induction w generalizing σ sections with
  | nil => simp [bindings, FirstAt]
  | cons c w ih =>
    cases sections with
    | nil => cases hlength
    | cons s sections =>
      have hlength' : w.length = sections.length := Nat.succ.inj hlength
      cases c with
      | lit _ =>
        -- a literal binds nothing
        rw [firstAt_cons fun h => by cases h]
        exact ih hlength'
      | var =>
        cases hname : vars σ with
        | none =>
          rw [firstAt_cons fun _ => by simp [hname], bindings, hname]
          exact ih hlength'
        | some var =>
          rw [bindings, hname]
          by_cases hk : k = var
          · -- the first one is here, at `s`
            subst hk
            simp only [Option.map_some, Option.toList_some, List.singleton_append,
              List.lookup_cons_self, Option.some.injEq]
            constructor
            · rintro rfl
              refine ⟨0, rfl, ?_, rfl, fun j hj => absurd hj (Nat.not_lt_zero j)⟩
              rw [List.take_zero, List.append_nil, hname]
            · rintro ⟨i, -, -, hv, hfirst⟩
              cases i with
              | zero => exact Option.some.inj hv
              | succ i =>
                refine absurd ?_ (hfirst 0 (Nat.succ_pos i) rfl)
                rw [List.take_zero, List.append_nil, hname]
          · have hbeq : (k == var) = false := by simpa using hk
            have hne : vars σ ≠ some k := by
              intro h
              exact hk (Option.some.inj (hname.symm.trans h)).symm
            rw [firstAt_cons fun _ => hne, ← ih hlength']
            simp [List.lookup_cons, hbeq]

theorem emplace_all_getElem? (kvs : List (Str × Str)) (vals : Std.ExtTreeMap Str Str) (k : Str) :
    (emplace_all vals kvs)[k]? = vals[k]?.or (kvs.lookup k) := by
  induction kvs generalizing vals with
  | nil => simp [emplace_all]
  | cons kv kvs ih =>
    have hcons : emplace_all vals (kv :: kvs) = emplace_all (vals.insertIfNew kv.1 kv.2) kvs := rfl
    rw [hcons, ih, Std.ExtTreeMap.getElem?_insertIfNew, List.lookup_cons]
    by_cases hk : k = kv.1
    · subst hk
      cases hold : vals[kv.1]? with
      | none =>
        have hnot : kv.1 ∉ vals := by simpa using hold
        simp [hnot]
      | some v =>
        have hmem : kv.1 ∈ vals := by simp [Std.ExtTreeMap.mem_iff_isSome_getElem?, hold]
        simp [hmem]
    · have hbeq : (k == kv.1) = false := by simpa using hk
      have hcmp : ¬ (compare kv.1 k = .eq ∧ kv.1 ∉ vals) := by
        rintro ⟨heq, -⟩
        exact hk (Std.LawfulEqOrd.eq_of_compare heq).symm
      rw [hbeq, if_neg hcmp]

/-- What a registration adds to `first_var` for the beginning of its own shape in front of
a variable: the variable's name. -/
theorem Put.var_name_at_take {p : Put} {i : Nat} {section_ : Str}
    (hsection : p.sections[i]? = some section_) (hvar : is_var section_ = true) :
    (if p.shape.take i ++ [.var] <+: p.shape then
      var_name_at p.sections (p.shape.take i).length else none) = some (var_name section_) := by
  have hshape : p.shape[i]? = some .var := Put.shape_eq_var_iff.mpr ⟨section_, hsection, hvar⟩
  have hlt : i < p.shape.length := (List.getElem?_eq_some_iff.mp hshape).1
  have htake : p.shape.take (i + 1) = p.shape.take i ++ [.var] := by
    rw [List.take_add_one, hshape, Option.toList_some]
  have hstart : p.shape.take i ++ [.var] <+: p.shape := by
    rw [← htake]
    exact List.take_prefix _ _
  rw [if_pos hstart, List.length_take, Nat.min_eq_left hlt.le, var_name_at, hsection,
    Option.map_some]

/-- The variables of a registered pattern have got their names. -/
theorem first_var_ne_none {puts : List Put} {p : Put} (hp : p ∈ puts) {i : Nat}
    (hi : i ∈ p.var_positions) : first_var puts (p.shape.take i) ≠ none := by
  obtain ⟨section_, hsection, hvar⟩ := Put.shape_eq_var_iff.mp (Put.mem_var_positions.mp hi)
  intro hnone
  have hname := List.findSome?_eq_none_iff.mp hnone p hp
  rw [Put.var_name_at_take hsection hvar] at hname
  cases hname

/-- What `vals` holds after a walk along a pattern. -/
theorem bindings_bound {puts : List Put} {p : Put} {sections : List Str}
    (hmatches : p.Matches sections) (k v : Str) :
    (emplace_all ∅ (bindings (first_var puts) [] p.shape sections))[k]? = some v ↔
      FirstWins.Bound p.var_positions (fun i => first_var puts (p.shape.take i))
        (fun i => sections[i]?) (some k) (some v) := by
  have hlength : p.shape.length = sections.length := by
    rw [Put.shape, UrlTrie.shape, List.length_map]
    exact hmatches.length_eq
  rw [emplace_all_getElem?, Std.ExtTreeMap.getElem?_empty, Option.none_or, lookup_bindings hlength]
  constructor
  · rintro ⟨i, hi, hk, hv, hfirst⟩
    refine ⟨i, Put.mem_var_positions.mpr hi, hk, hv, ?_⟩
    intro j hj hlt
    exact hfirst j hlt (Put.mem_var_positions.mp hj)
  · rintro ⟨i, hi, hk, hv, hfirst⟩
    refine ⟨i, Put.mem_var_positions.mp hi, hk, hv, ?_⟩
    intro j hlt hj
    exact hfirst j (Put.mem_var_positions.mpr hj) hlt

/-- **When a request gets its variables under the pattern's names.** -/
theorem fetch_vars_own_iff (puts : List Put) (hnames : (puts.map Put.name).Nodup)
    (hvars : ∀ p ∈ puts, p.vars.Nodup) (p : Put) (hp : p ∈ puts) (path name : Str)
    (vals : Std.ExtTreeMap Str Str)
    (h : fetch_vars (put_all puts) path name ∅ = (true, p.name, vals)) :
    (∀ k v, vals[k]? = some v ↔ p.Writes (Str.split path (lit "/")) k v) ↔
      p.NamesKept puts (Str.split path (lit "/")) := by
  obtain ⟨q, hq, hmatches, hname, -, -, rfl⟩ := fetch_vars_put_all h
  -- the name tells which pattern was taken
  obtain rfl : q = p := List.inj_on_of_nodup_map hnames hq hp hname
  have hfirst : ∀ i ∈ q.var_positions, first_var puts (q.shape.take i) ≠ none :=
    fun i hi => first_var_ne_none hq hi
  have hown : ∀ i ∈ q.var_positions, var_name_at q.sections i ≠ none := by
    intro i hi
    obtain ⟨section_, hsection, -⟩ := Put.shape_eq_var_iff.mp (Put.mem_var_positions.mp hi)
    simp [var_name_at, hsection]
  have hsections : ∀ i ∈ q.var_positions, (Str.split path (lit "/"))[i]? ≠ none := by
    intro i hi
    obtain ⟨section_, hsection, -⟩ := Put.shape_eq_var_iff.mp (Put.mem_var_positions.mp hi)
    have hlt : i < q.sections.length := (List.getElem?_eq_some_iff.mp hsection).1
    rw [hmatches.length_eq] at hlt
    simp [hlt]
  have hrenamed := FirstWins.bound_some_iff_renamed hfirst hown hsections
    (Put.var_name_at_injOn (hvars q hq))
  rw [Put.NamesKept, ← hrenamed]
  refine forall_congr' fun k => forall_congr' fun v => ?_
  rw [bindings_bound hmatches, Put.writes_iff]

/-- `/{id}` in front of `/{id}/{name}`: the first variable is put under the same name. -/
theorem fetch_vars_own_iff_shared :
    fetch_vars (put_all [⟨lit "/{id}", lit "r1"⟩, ⟨lit "/{id}/{name}", lit "r2"⟩])
        (lit "/7/x") [] ∅ =
        (true, lit "r2", ((∅ : Std.ExtTreeMap Str Str).insert (lit "id") (lit "7")).insert
          (lit "name") (lit "x")) ∧
      ((∀ k v, (((∅ : Std.ExtTreeMap Str Str).insert (lit "id") (lit "7")).insert
          (lit "name") (lit "x"))[k]? = some v ↔
          Put.Writes ⟨lit "/{id}/{name}", lit "r2"⟩ (Str.split (lit "/7/x") (lit "/")) k v) ↔
        Put.NamesKept ⟨lit "/{id}/{name}", lit "r2"⟩
          [⟨lit "/{id}", lit "r1"⟩, ⟨lit "/{id}/{name}", lit "r2"⟩]
          (Str.split (lit "/7/x") (lit "/"))) :=
  ⟨rfl, fetch_vars_own_iff _ (by decide) (by decide) ⟨lit "/{id}/{name}", lit "r2"⟩
    (by decide) _ [] _ rfl⟩

/-- `/{id}/a` in front of `/{name}/b`: the variable of the second is put under the
name of the first. -/
theorem fetch_vars_other_name :
    ¬ ∀ (puts : List Put) (p : Put) (path name : Str) (vals : Std.ExtTreeMap Str Str),
      (puts.map Put.name).Nodup → (∀ q ∈ puts, q.vars.Nodup) → p ∈ puts →
        fetch_vars (put_all puts) path name ∅ = (true, p.name, vals) →
          ∀ k v, vals[k]? = some v ↔ p.Writes (Str.split path (lit "/")) k v := by
  intro h
  have hall := h [⟨lit "/{id}/a", lit "r1"⟩, ⟨lit "/{name}/b", lit "r2"⟩]
    ⟨lit "/{name}/b", lit "r2"⟩ (lit "/x/b") []
    ((∅ : Std.ExtTreeMap Str Str).insert (lit "id") (lit "x"))
    (by decide) (by decide) (by decide) rfl
  have hwrites : Put.Writes ⟨lit "/{name}/b", lit "r2"⟩ (Str.split (lit "/x/b") (lit "/"))
      (lit "name") (lit "x") := ⟨0, lit "{name}", by decide, by decide, by decide, by decide⟩
  have hname := (hall (lit "name") (lit "x")).mpr hwrites
  cases hname

/-! ## The order of the registrations -/

/-- Where no two patterns have one shape, the last name of a shape is the only one. -/
theorem last_name_eq_some_iff {puts : List Put} (hshapes : (puts.map Put.shape).Nodup)
    {σ : List Seg} {n : Str} :
    last_name puts σ = some n ↔ ∃ p ∈ puts, p.shape = σ ∧ p.name = n := by
  constructor
  · exact exists_of_last_name
  · rintro ⟨p, hp, rfl, rfl⟩
    obtain ⟨n, hn⟩ := Option.isSome_iff_exists.mp (last_name_isSome hp)
    obtain ⟨q, hq, hshape, hname⟩ := exists_of_last_name hn
    obtain rfl : q = p := List.inj_on_of_nodup_map hshapes hq hp hshape
    rw [hn, hname]

theorem last_name_perm {puts puts' : List Put} (hperm : puts.Perm puts')
    (hshapes : (puts.map Put.shape).Nodup) (σ : List Seg) :
    last_name puts σ = last_name puts' σ := by
  have hshapes' : (puts'.map Put.shape).Nodup := (hperm.map Put.shape).nodup_iff.mp hshapes
  refine Option.ext fun n => ?_
  rw [last_name_eq_some_iff hshapes, last_name_eq_some_iff hshapes']
  simp only [hperm.mem_iff]

/-- The nodes are the same in any order. -/
theorem routes_perm {puts puts' : List Put} (hperm : puts.Perm puts') :
    routes (put_all puts) = routes (put_all puts') := by
  have hhas : has (put_all puts) = has (put_all puts') := by
    funext σ
    rw [Bool.eq_iff_iff, has_put_all, has_put_all]
    simp only [hperm.mem_iff]
  unfold routes
  congr 1

theorem fetch_vars_of_perm {puts puts' : List Put} (hperm : puts.Perm puts')
    (hshapes : (puts.map Put.shape).Nodup) {path name n : Str} {vals vals' : Std.ExtTreeMap Str Str}
    (h : fetch_vars (put_all puts) path name vals = (true, n, vals')) :
    ∃ vals'', fetch_vars (put_all puts') path name vals = (true, n, vals'') := by
  obtain ⟨w, hw, hend, -⟩ := fetch_vars_eq_true_iff.mp h
  rw [routes_perm hperm] at hw
  rw [end_at_put_all, last_name_perm hperm hshapes, ← end_at_put_all] at hend
  exact ⟨_, fetch_vars_eq_true_iff.mpr ⟨w, hw, hend, rfl⟩⟩

/-- **The order of the registrations does not matter.** Patterns of pairwise different
shapes, put in any order, give the same answer and the same name. -/
theorem fetch_vars_perm (puts puts' : List Put) (hperm : puts.Perm puts')
    (hshapes : (puts.map Put.shape).Nodup) (path name : Str) (vals : Std.ExtTreeMap Str Str) :
    (fetch_vars (put_all puts) path name vals).1 = (fetch_vars (put_all puts') path name vals).1 ∧
      ((fetch_vars (put_all puts) path name vals).1 = true →
        (fetch_vars (put_all puts) path name vals).2.1 =
          (fetch_vars (put_all puts') path name vals).2.1) := by
  have hshapes' : (puts'.map Put.shape).Nodup := (hperm.map Put.shape).nodup_iff.mp hshapes
  rcases hfetch : fetch_vars (put_all puts) path name vals with ⟨b, n, vals₁⟩
  rcases hfetch' : fetch_vars (put_all puts') path name vals with ⟨b', n', vals₂⟩
  cases b with
  | true =>
    obtain ⟨_, hsame⟩ := fetch_vars_of_perm hperm hshapes hfetch
    rw [hfetch'] at hsame
    cases hsame
    exact ⟨rfl, fun _ => rfl⟩
  | false =>
    cases b' with
    | false => exact ⟨rfl, nofun⟩
    | true =>
      -- what the other order finds, this one finds too
      obtain ⟨_, hsame⟩ := fetch_vars_of_perm hperm.symm hshapes' hfetch'
      rw [hfetch] at hsame
      cases hsame

/-- `/aa/{x}` and `/{y}/bb`, whichever comes first. -/
theorem fetch_vars_perm_two :
    (fetch_vars (put_all [⟨lit "/aa/{x}", lit "r1"⟩, ⟨lit "/{y}/bb", lit "r2"⟩]) (lit "/aa/bb") []
        ∅).1 =
      (fetch_vars (put_all [⟨lit "/{y}/bb", lit "r2"⟩, ⟨lit "/aa/{x}", lit "r1"⟩]) (lit "/aa/bb") []
        ∅).1 ∧
    ((fetch_vars (put_all [⟨lit "/aa/{x}", lit "r1"⟩, ⟨lit "/{y}/bb", lit "r2"⟩]) (lit "/aa/bb") []
        ∅).1 = true →
      (fetch_vars (put_all [⟨lit "/aa/{x}", lit "r1"⟩, ⟨lit "/{y}/bb", lit "r2"⟩]) (lit "/aa/bb") []
        ∅).2.1 =
      (fetch_vars (put_all [⟨lit "/{y}/bb", lit "r2"⟩, ⟨lit "/aa/{x}", lit "r1"⟩]) (lit "/aa/bb") []
        ∅).2.1) :=
  fetch_vars_perm _ _ (List.Perm.swap _ _ _) (by decide) _ _ _

end Rellaf.UrlTrie
