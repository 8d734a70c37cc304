/-
What the two machines of `UrlPattern` do together.

A path made from a pattern, with a value for every variable and more slashes where the
pattern has one, gives every variable its value (`fetch_path_vars_instance`). The pair
also does what the tree of `UrlTrie` does for a single pattern (`fetch_vars_single`).
-/
import Rellaf.UrlPattern

set_option autoImplicit false

open Rellaf.Cpp

namespace Rellaf.UrlPattern

open SqlPattern (PatternErr)
open UrlTrie

/-! ## Paths made from a pattern -/

/-- The path is the pattern with `σ name` for every `{name}` and each `/` once or more. -/
inductive Instance (σ : Str → Str) : (pattern path : Str) → Prop
  | nil : Instance σ [] []
  | slash {p path : Str} (n : Nat) (h : Instance σ p path) :
    Instance σ (47 :: p) (List.replicate (n + 1) 47 ++ path)
  | var {name p path : Str} (hne : name ≠ []) (hname : Free name) (h : Instance σ p path) :
    Instance σ (123 :: name ++ 125 :: p) (σ name ++ path)
  | byte {c : UInt8} {p path : Str} (hslash : c ≠ 47) (hbrace : c ≠ 123) (h : Instance σ p path) :
    Instance σ (c :: p) (c :: path)

/-- What stands in the path for a segment. -/
def filled (σ : Str → Str) (segment : Str) : Str :=
  match name_of segment with
  | some name => σ name
  | none => segment

/-- A segment as far as it has been read, and what the path has for it. -/
inductive Fills (σ : Str → Str) : (seg sec : Str) → Prop
  | empty : Fills σ [] []
  | text {s : Str} (hne : s ≠ []) (hs : Free s) : Fills σ s s
  | var {name : Str} (hne : name ≠ []) (hname : Free name) (hσ : σ name ≠ [])
      (hslash : (47 : UInt8) ∉ σ name) : Fills σ (123 :: name ++ [125]) (σ name)

/-- The opening brace of a segment is its first byte. -/
theorem Segment.brace_notMem_tail {c : UInt8} {s : Str} (h : Segment (c :: s)) :
    (123 : UInt8) ∉ s := by
  generalize heq : c :: s = seg at h
  cases h with
  | text _ hs =>
    subst heq
    exact fun hmem => hs.2.1 (List.mem_cons_of_mem c hmem)
  | @var name _ hname =>
    rw [List.cons_append, List.cons.injEq] at heq
    rw [heq.2, List.mem_append, List.mem_singleton, not_or]
    exact ⟨hname.2.1, by decide⟩

/-- The closing brace of a segment is its last byte. -/
theorem Segment.eq_nil_of_brace {a b : Str} (h : Segment (a ++ 125 :: b)) : b = [] := by
  generalize heq : a ++ 125 :: b = seg at h
  cases h with
  | text _ hs =>
    subst heq
    exact absurd (List.mem_append_right a List.mem_cons_self) hs.2.2
  | @var name _ hname =>
    rcases List.eq_nil_or_concat b with rfl | ⟨b, d, rfl⟩
    · rfl
    · have hinit : a ++ 125 :: b = 123 :: name := by
        have hdrop := congrArg List.dropLast heq
        rw [List.concat_eq_append, ← List.cons_append, ← List.append_assoc, List.dropLast_concat,
          List.dropLast_concat] at hdrop
        exact hdrop
      have hmem : (125 : UInt8) ∈ 123 :: name := by
        rw [← hinit]
        exact List.mem_append_right a List.mem_cons_self
      rcases List.mem_cons.mp hmem with hmem | hmem
      · cases hmem
      · exact absurd hmem hname.2.2

theorem Segment.free {c : UInt8} {s : Str} (h : Segment (c :: s)) (hc : c ≠ 123) :
    Free (c :: s) := by
  generalize heq : c :: s = seg at h
  cases h with
  | text _ hs => exact hs
  | var _ _ =>
    rw [List.cons_append, List.cons.injEq] at heq
    exact absurd heq.1 hc

/-- The piece that begins with what has been read. -/
theorem exists_first_piece (seg : Str) (hne : seg ≠ []) (hseg : (47 : UInt8) ∉ seg) (p : Str) :
    ∃ t, seg ++ t ∈ Str.split (seg ++ p) [47] ∧ (p = t ∨ ∃ rest, p = t ++ 47 :: rest) := by
  by_cases hslash : (47 : UInt8) ∈ p
  · obtain ⟨t, rest, rfl, ht⟩ := List.eq_append_cons_of_mem hslash
    have hboth : (47 : UInt8) ∉ seg ++ t := by
      rw [List.mem_append, not_or]
      exact ⟨hseg, ht⟩
    refine ⟨t, ?_, .inr ⟨rest, rfl⟩⟩
    rw [← List.append_assoc, Str.split_append_cons (List.append_ne_nil_of_left_ne_nil hne t) hboth]
    exact List.mem_cons_self
  · have hboth : (47 : UInt8) ∉ seg ++ p := by
      rw [List.mem_append, not_or]
      exact ⟨hseg, hslash⟩
    refine ⟨p, ?_, .inl rfl⟩
    rw [Str.split_of_notMem (List.append_ne_nil_of_left_ne_nil hne p) hboth]
    exact List.mem_singleton_self _

/-- What comes next in the pattern, other than a `/`, belongs to the piece. -/
theorem exists_piece_cons {seg : Str} {c : UInt8} (p : Str) (hne : seg ≠ []) (hseg : (47 : UInt8) ∉ seg)
    (hc : c ≠ 47) : ∃ t, seg ++ c :: t ∈ Str.split (seg ++ c :: p) [47] := by
  obtain ⟨t, hmem, heq⟩ := exists_first_piece seg hne hseg (c :: p)
  cases t with
  | nil =>
    rcases heq with heq | ⟨rest, heq⟩
    · cases heq
    · cases heq
      exact absurd rfl hc
  | cons d t =>
    have hd : c = d := by
      rcases heq with heq | ⟨rest, heq⟩ <;> exact (List.cons.inj heq).1
    subst hd
    exact ⟨t, hmem⟩

theorem name_of_free {s : Str} (h : Free s) : name_of s = none := by
  rw [name_of, is_var_of_free h]
  rfl

theorem name_of_braces (name : Str) : name_of (123 :: name ++ [125]) = some name := by
  rw [name_of, if_pos (is_var_braces name), var_name_braces]

theorem filled_text {s : Str} (h : Free s) (σ : Str → Str) : filled σ s = s := by
  rw [filled, name_of_free h]

theorem filled_var (name : Str) (σ : Str → Str) : filled σ (123 :: name ++ [125]) = σ name := by
  rw [filled, name_of_braces]

theorem Fills.slash_notMem {σ : Str → Str} {seg sec : Str} (h : Fills σ seg sec) :
    (47 : UInt8) ∉ seg ∧ (47 : UInt8) ∉ sec := by
  cases h with
  | empty => exact ⟨List.not_mem_nil, List.not_mem_nil⟩
  | text hne hs => exact ⟨hs.1, hs.1⟩
  | var hne hname hσ hslash => exact ⟨(Segment.var hne hname).slash_notMem, hslash⟩

/-- A segment that has ended, and what the path has for it. -/
theorem Fills.ended {σ : Str → Str} {seg sec : Str} (h : Fills σ seg sec) :
    seg = [] ∧ sec = [] ∨ seg ≠ [] ∧ sec ≠ [] ∧ filled σ seg = sec := by
  cases h with
  | empty => exact .inl ⟨rfl, rfl⟩
  | text hne hs => exact .inr ⟨hne, hne, filled_text hs σ⟩
  | @var name hne hname hσ hslash => exact .inr ⟨List.cons_ne_nil _ _, hσ, filled_var name σ⟩

/-- In front of an opening brace of the pattern its segment is empty. -/
theorem Fills.of_brace {σ : Str → Str} {seg sec : Str} (h : Fills σ seg sec)
    (hseg : (47 : UInt8) ∉ seg) {p : Str}
    (hsegments : ∀ s ∈ Str.split (seg ++ 123 :: p) [47], Segment s) : seg = [] ∧ sec = [] := by
  cases seg with
  | nil =>
    rcases h.ended with hnil | ⟨hne, -⟩
    · exact hnil
    · exact absurd rfl hne
  | cons d seg =>
    -- a second opening brace
    obtain ⟨t, hmem⟩ := exists_piece_cons p (List.cons_ne_nil d seg) hseg
      (by decide : (123 : UInt8) ≠ 47)
    have hbrace := (hsegments _ hmem).brace_notMem_tail
    exact absurd (List.mem_append_right seg List.mem_cons_self) hbrace

/-- A byte of the pattern that is neither a slash nor an opening brace goes on with a text. -/
theorem Fills.of_byte {σ : Str → Str} {seg sec : Str} (h : Fills σ seg sec)
    (hseg : (47 : UInt8) ∉ seg) {c : UInt8} {p : Str} (hslash : c ≠ 47) (hbrace : c ≠ 123)
    (hsegments : ∀ s ∈ Str.split (seg ++ c :: p) [47], Segment s) :
    Free (seg ++ [c]) ∧ sec = seg := by
  cases h with
  | empty =>
    obtain ⟨t, hmem, -⟩ := exists_first_piece [c] (List.cons_ne_nil c [])
      (fun hmem => hslash (List.mem_singleton.mp hmem).symm) p
    exact ⟨((hsegments _ hmem).free hbrace).of_append_left, rfl⟩
  | text hne hs =>
    obtain ⟨t, hmem⟩ := exists_piece_cons p hne hseg hslash
    have hpiece : Free (seg ++ c :: t) := by
      cases seg with
      | nil => exact absurd rfl hne
      | cons d seg => exact (hsegments _ hmem).free fun hd => hs.2.1 (by simp [hd])
    rw [List.append_cons] at hpiece
    exact ⟨hpiece.of_append_left, rfl⟩
  | @var name hne hname hσ' hslash' =>
    -- a byte behind the closing brace
    obtain ⟨t, hmem⟩ := exists_piece_cons p (Segment.var hne hname).ne_nil hseg hslash
    have hwhole := hsegments _ hmem
    rw [List.append_assoc, List.singleton_append] at hwhole
    cases hwhole.eq_nil_of_brace

theorem split_replicate_append (n : Nat) (path : Str) :
    Str.split (List.replicate n 47 ++ path) [47] = Str.split path [47] := by
  induction n with
  | zero => rfl
  | succ n ih => rw [List.replicate_succ, List.cons_append, Str.split_cons_self, ih]

/-- **The sections of a path made from a pattern** are the segments of the pattern, each
filled in. -/
theorem split_instance {σ : Str → Str} {p path : Str} (h : Instance σ p path)
    {seg sec : Str} (hfills : Fills σ seg sec)
    (hsegments : ∀ s ∈ Str.split (seg ++ p) [47], Segment s)
    (hσ : ∀ s ∈ Str.split (seg ++ p) [47], ∀ name, name_of s = some name →
      σ name ≠ [] ∧ (47 : UInt8) ∉ σ name) :
    Str.split (sec ++ path) [47] = (Str.split (seg ++ p) [47]).map (filled σ) := by
  obtain ⟨hseg, hsec⟩ := hfills.slash_notMem
  induction h generalizing seg sec with
  | nil =>
    rw [List.append_nil, List.append_nil]
    rcases hfills.ended with ⟨rfl, rfl⟩ | ⟨hne, hne', hfilled⟩
    · rw [Str.split_nil]
      rfl
    · rw [Str.split_of_notMem hne hseg, Str.split_of_notMem hne' hsec, List.map_singleton, hfilled]
  | @slash p path n h ih =>
    rcases hfills.ended with ⟨rfl, rfl⟩ | ⟨hne, hne', hfilled⟩
    · rw [List.nil_append, Str.split_cons_self] at hsegments hσ
      rw [List.nil_append, List.nil_append, split_replicate_append, Str.split_cons_self]
      exact ih .empty hsegments hσ List.not_mem_nil List.not_mem_nil
    · rw [Str.split_append_cons hne hseg] at hsegments hσ ⊢
      rw [List.replicate_succ, List.cons_append, Str.split_append_cons hne' hsec,
        split_replicate_append, List.map_cons, hfilled]
      have hrest := @ih [] [] .empty
        (fun s hs => hsegments s (List.mem_cons_of_mem seg hs))
        (fun s hs => hσ s (List.mem_cons_of_mem seg hs)) List.not_mem_nil List.not_mem_nil
      rw [List.nil_append, List.nil_append] at hrest
      rw [hrest]
  | @var name p path hne hname h ih =>
    obtain ⟨rfl, rfl⟩ := hfills.of_brace hseg hsegments
    have hassoc : 123 :: name ++ 125 :: p = 123 :: name ++ [125] ++ p := by
      rw [List.append_assoc, List.singleton_append]
    have hvar := Segment.var hne hname
    rw [List.nil_append, hassoc] at hsegments hσ ⊢
    obtain ⟨t, hmem, -⟩ := exists_first_piece _ hvar.ne_nil hvar.slash_notMem p
    have ht : t = [] := by
      have hwhole := hsegments _ hmem
      rw [List.append_assoc, List.singleton_append] at hwhole
      exact hwhole.eq_nil_of_brace
    rw [ht, List.append_nil] at hmem
    obtain ⟨hne', hslash⟩ := hσ _ hmem name (name_of_braces name)
    exact ih (.var hne hname hne' hslash) hsegments hσ hvar.slash_notMem hslash
  | @byte c p path hslash hbrace h ih =>
    obtain ⟨hfree, rfl⟩ := hfills.of_byte hseg hslash hbrace hsegments
    rw [List.append_cons] at hsegments hσ ⊢
    rw [List.append_cons sec c p]
    exact ih (.text (List.append_ne_nil_of_right_ne_nil _ (List.cons_ne_nil c [])) hfree) hsegments
      hσ hfree.1 hfree.1

/-- A name is looked up among the values it has been filled in with. -/
theorem lookup_pairs_filled (σ : Str → Str) (segments : List Str) (name v : Str) :
    (pairs segments (segments.map (filled σ))).lookup name = some v ↔
      (∃ s ∈ segments, name_of s = some name) ∧ σ name = v := by
  induction segments with
  | nil => simp [pairs]
  | cons segment segments ih =>
    rw [List.map_cons, pairs, filled]
    cases hname : name_of segment with
    | none =>
      rw [Option.map_none, Option.toList_none, List.nil_append, ih]
      simp [hname]
    | some n =>
      rw [Option.map_some, Option.toList_some, List.singleton_append, List.lookup_cons]
      by_cases hn : name = n
      · subst hn
        rw [beq_self_eq_true]
        simp [hname]
      · have hbeq : (name == n) = false := by simpa using hn
        have hne : n ≠ name := fun heq => hn heq.symm
        rw [hbeq, ih]
        simp [hname, hne]

/-- The names in `vars` are those of the segments. -/
theorem exists_numbered_iff {segments : List Str} (hlength : segments.length ≤ 2 ^ 32)
    (name : Str) :
    (∃ i : UInt32, (numbered segments 0 ∅)[i]? = some name) ↔
      ∃ s ∈ segments, name_of s = some name := by
  constructor
  · rintro ⟨i, hi⟩
    by_cases hnumber : ∃ k < segments.length, 0 + UInt32.ofNat k = i
    · obtain ⟨k, hk, rfl⟩ := hnumber
      rw [numbered_getElem? hlength hk Std.ExtTreeMap.getElem?_empty] at hi
      exact ⟨segments[k], List.getElem_mem hk, hi⟩
    · have hother : ∀ k < segments.length, 0 + UInt32.ofNat k ≠ i :=
        fun k hk heq => hnumber ⟨k, hk, heq⟩
      rw [numbered_other hother, Std.ExtTreeMap.getElem?_empty] at hi
      cases hi
  · rintro ⟨s, hs, hname⟩
    obtain ⟨k, hk, rfl⟩ := List.getElem_of_mem hs
    refine ⟨0 + UInt32.ofNat k, ?_⟩
    rw [numbered_getElem? hlength hk Std.ExtTreeMap.getElem?_empty, hname]

/-- **A path made from a pattern gives the values back.** -/
theorem fetch_path_vars_instance (p path : Str) (σ : Str → Str)
    (vars : Std.ExtTreeMap UInt32 Str) (err : PatternErr) (hlength : p.length < 2 ^ 32)
    (h : explode_path_vars p = (true, vars, err))
    (hσ : ∀ (i : UInt32) name, vars[i]? = some name → σ name ≠ [] ∧ (47 : UInt8) ∉ σ name)
    (hpath : Instance σ p path) (name v : Str) :
    (fetch_path_vars vars path).2[name]? = some v ↔
      (∃ i : UInt32, vars[i]? = some name) ∧ σ name = v := by
  obtain ⟨hsegments, -, rfl⟩ := explode_path_vars_ok h
  have hcount : (Str.split p (lit "/")).length ≤ 2 ^ 32 := by
    have hle := Str.length_split_le p 47
    have hlit : lit "/" = [47] := rfl
    rw [hlit]
    omega
  have hvalues : ∀ s ∈ Str.split p (lit "/"), ∀ name, name_of s = some name →
      σ name ≠ [] ∧ (47 : UInt8) ∉ σ name := by
    intro s hs name hname
    obtain ⟨i, hi⟩ := (exists_numbered_iff hcount name).mpr ⟨s, hs, hname⟩
    exact hσ i name hi
  have hsections : Str.split path (lit "/") = (Str.split p (lit "/")).map (filled σ) :=
    split_instance hpath .empty hsegments hvalues
  have heq : (Str.split p (lit "/")).length = (Str.split path (lit "/")).length := by
    rw [hsections, List.length_map]
  rw [fetch_path_vars_numbered hcount heq, hsections, emplace_all_getElem?,
    Std.ExtTreeMap.getElem?_empty, Option.none_or, lookup_pairs_filled, exists_numbered_iff hcount]

/-- The pattern `/aa/{id}/` and the path `//aa/7///`. -/
theorem fetch_path_vars_instance_id :
    (fetch_path_vars (explode_path_vars (lit "/aa/{id}/")).2.1 (lit "//aa/7///")).2[lit "id"]? =
        some (lit "7") ↔
      (∃ i : UInt32, (explode_path_vars (lit "/aa/{id}/")).2.1[i]? = some (lit "id")) ∧
        lit "7" = lit "7" := by
  have hpath : Instance (fun _ => lit "7") (lit "/aa/{id}/") (lit "//aa/7///") :=
    .slash 1 (.byte (by decide) (by decide) (.byte (by decide) (by decide)
      (.slash 0 (@Instance.var _ (lit "id") _ _ (by decide) (by unfold Free; decide) (.slash 2 .nil)))))
  exact fetch_path_vars_instance (lit "/aa/{id}/") (lit "//aa/7///") (fun _ => lit "7") _ .OK
    (by decide) rfl (fun _ _ _ => by decide) hpath (lit "id") (lit "7")

/-! ## The tree of a single pattern -/

/-- What a walk along the segments of a pattern binds. -/
theorem bindings_eq_pairs {first : List Seg → Option Str} {τ : List Seg}
    {segments sections : List Str}
    (hfirst : ∀ i s, segments[i]? = some s → is_var s = true →
      first (τ ++ (UrlTrie.shape segments).take i) = some (var_name s)) :
    bindings first τ (UrlTrie.shape segments) sections = pairs segments sections := by
  induction segments generalizing τ sections with
  | nil => cases sections <;> rfl
  | cons segment segments ih =>
    cases sections with
    | nil =>
      have hcons : UrlTrie.shape (segment :: segments) = seg segment :: UrlTrie.shape segments := rfl
      rw [hcons]
      cases seg segment <;> rfl
    | cons section_ sections =>
      have hcons : UrlTrie.shape (segment :: segments) = seg segment :: UrlTrie.shape segments := rfl
      have htail : ∀ i s, segments[i]? = some s → is_var s = true →
          first (τ ++ [seg segment] ++ (UrlTrie.shape segments).take i) = some (var_name s) := by
        intro i s hi hs
        have hnext := hfirst (i + 1) s hi hs
        rw [hcons, List.take_succ_cons] at hnext
        rw [List.append_assoc, List.singleton_append, hnext]
      rw [hcons, pairs]
      cases hvar : is_var segment with
      | false =>
        have hseg : seg segment = .lit segment := by rw [seg, hvar]; rfl
        have hname : name_of segment = none := by rw [name_of, hvar]; rfl
        rw [hseg] at htail ⊢
        rw [hname, bindings, ih htail]
        rfl
      | true =>
        have hseg : seg segment = .var := by rw [seg, hvar]; rfl
        have hname : name_of segment = some (var_name segment) := by rw [name_of, hvar]; rfl
        have hhere := hfirst 0 segment rfl hvar
        rw [List.take_zero, List.append_nil] at hhere
        rw [hseg] at htail ⊢
        rw [hname, bindings, hhere, ih htail]

/-- **The two implementations agree.** A tree with one pattern binds what the two machines
bind for it. -/
theorem fetch_vars_single (pattern name path n n' : Str) (vars : Std.ExtTreeMap UInt32 Str)
    (err : PatternErr) (vals : Std.ExtTreeMap Str Str)
    (h : explode_path_vars pattern = (true, vars, err)) (hlength : path.length < 2 ^ 32)
    (hfetch : fetch_vars (put .new pattern name).2 path n ∅ = (true, n', vals)) :
    fetch_path_vars vars path = (true, vals) := by
  obtain ⟨-, -, rfl⟩ := explode_path_vars_ok h
  have hone : (put .new pattern name).2 = put_all [⟨pattern, name⟩] := rfl
  rw [hone] at hfetch
  obtain ⟨p, hp, hmatches, -, -, -, hvals⟩ := fetch_vars_put_all hfetch
  obtain rfl := List.mem_singleton.mp hp
  have heq : (Str.split pattern (lit "/")).length = (Str.split path (lit "/")).length :=
    hmatches.length_eq
  have hcount : (Str.split pattern (lit "/")).length ≤ 2 ^ 32 := by
    have hle := Str.length_split_le path 47
    have hlit : lit "/" = [47] := rfl
    rw [heq, hlit]
    omega
  have hbindings : bindings (first_var [⟨pattern, name⟩]) [] (Put.shape ⟨pattern, name⟩)
      (Str.split path (lit "/")) = pairs (Str.split pattern (lit "/")) (Str.split path (lit "/")) := by
    apply bindings_eq_pairs
    intro i s hi hs
    -- the only pattern is the first one that has a variable there
    rw [List.nil_append]
    show first_var [⟨pattern, name⟩] ((Put.shape ⟨pattern, name⟩).take i) = some (var_name s)
    rw [first_var, List.findSome?_singleton]
    exact Put.var_name_at_take hi hs
  rw [hvals, hbindings, fetch_path_vars_numbered hcount heq]

/-- The pattern `/{id}/{id}`, with one name twice. -/
theorem fetch_vars_single_twice :
    fetch_path_vars (explode_path_vars (lit "/{id}/{id}")).2.1 (lit "/7/8") =
      (true, (∅ : Std.ExtTreeMap Str Str).insert (lit "id") (lit "7")) :=
  fetch_vars_single (lit "/{id}/{id}") (lit "r") (lit "/7/8") [] (lit "r") _ .OK _ rfl (by decide) rfl

end Rellaf.UrlPattern
