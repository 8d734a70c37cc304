/-
The language of `explode_path_vars`: which patterns the machine accepts, and which
variables it numbers.

What is between two slashes is a piece. The first piece, in front of any slash, is read in
`STATE_INIT`, which takes no brace at all; every later one may be a variable. A state of
the loop accepts what it has read of a piece unless it is inside of the braces
(`Explodes.pieceOk_iff`), and a byte that it refuses spoils the piece whatever follows
(`explode_char_error`), so that the loop goes by pieces (`explode_loop_accepts`).
-/
import Rellaf.UrlPattern

set_option autoImplicit false

open Rellaf.Cpp

namespace Rellaf.UrlPattern

open SqlPattern (PatternErr PatternState)
open UrlTrie

/-! ## Pieces -/

/-- Without `{` and `}`. -/
def Unbraced (s : Str) : Prop := (123 : UInt8) ∉ s ∧ (125 : UInt8) ∉ s

/-- `{name}` -/
def braces (name : Str) : Str := 123 :: name ++ [125]

/-- What a piece may be. -/
def PieceOk (first : Prop) (piece : Str) : Prop :=
  Unbraced piece ∨ ¬ first ∧ ∃ name, name ≠ [] ∧ Unbraced name ∧ piece = braces name

/-- The pieces from the one on that is being read. -/
def PiecesOk (first : Prop) : List Str → Prop
  | [] => True
  | piece :: pieces => PieceOk first piece ∧ ∀ p ∈ pieces, PieceOk False p

/-- The patterns of the language, cut at every `/`. -/
def Accepted (path : Str) : Prop := PiecesOk True (path.splitOn 47)

theorem unbraced_nil : Unbraced [] := ⟨List.not_mem_nil, List.not_mem_nil⟩

theorem Free.unbraced {s : Str} (h : Free s) : Unbraced s := h.2

/-- A brace that a piece has is at its end, and it is not the only one. -/
theorem braces_of_mem {first : Prop} {piece : Str} (h : PieceOk first piece) {c : UInt8}
    (hc : c = 123 ∨ c = 125) (hmem : c ∈ piece) :
    ¬ first ∧ ∃ name, name ≠ [] ∧ Unbraced name ∧ piece = braces name := by
  rcases h with hpiece | hvar
  · rcases hc with rfl | rfl
    · exact absurd hmem hpiece.1
    · exact absurd hmem hpiece.2
  · exact hvar

/-- The name in front of a `}` that is not the last byte would have it in it. -/
theorem not_braces_of_behind {name : Str} (hname : Unbraced name) {seg rest : Str} {c : UInt8}
    (hc : c = 123 ∨ c = 125) (hrest : c = 125 → rest ≠ []) : seg ++ c :: rest ≠ name ++ [125] := by
  intro heq
  have hmem : c ∈ name := by
    rcases List.eq_nil_or_concat rest with rfl | ⟨rest', d, rfl⟩
    · have hlast := congrArg List.getLast? heq
      rw [List.getLast?_append, List.getLast?_append] at hlast
      have hc' : c = 125 := by simpa using hlast
      exact absurd rfl (hrest hc')
    · have hcut : (seg ++ c :: rest') ++ [d] = name ++ [125] := by simpa using heq
      obtain ⟨hfront, -⟩ := List.append_inj' hcut rfl
      rw [← hfront]
      exact List.mem_append_right seg List.mem_cons_self
  rcases hc with rfl | rfl
  · exact hname.1 hmem
  · exact hname.2 hmem

/-! ## Cutting at the slashes -/

theorem splitOn_append {a : Str} {c : UInt8} (h : c ∉ a) (s : Str) :
    (a ++ s).splitOn c = (s.splitOn c).modifyHead (a ++ ·) := by
  induction a with
  | nil =>
    rw [List.nil_append]
    cases s.splitOn c <;> rfl
  | cons x a ih =>
    rw [List.mem_cons, not_or] at h
    have hx : ¬ (x == c) = true := fun heq => h.1 (beq_iff_eq.mp heq).symm
    rw [List.cons_append, List.splitOn_cons_eq_if_modifyHead, if_neg hx, ih h.2]
    cases s.splitOn c <;> rfl

/-- The piece that is being read goes on to the next `/`. -/
theorem exists_pieces (seg s : Str) (hseg : (47 : UInt8) ∉ seg) :
    ∃ rest pieces, (seg ++ s).splitOn 47 = (seg ++ rest) :: pieces := by
  cases hcut : s.splitOn 47 with
  | nil => exact absurd hcut (List.splitOn_ne_nil 47 s)
  | cons rest pieces =>
    refine ⟨rest, pieces, ?_⟩
    rw [splitOn_append hseg, hcut]
    rfl

/-! ## The states and the piece -/

section states

variable {x : Explode} {vars : Std.ExtTreeMap UInt32 Str} {seg : Str}

/-- `STATE_INIT` is the state of the first piece. -/
def First (x : Explode) : Prop := x.state = .STATE_INIT

theorem Explodes.slash_notMem (h : Explodes x vars seg) : (47 : UInt8) ∉ seg := by
  cases h with
  | start => exact List.not_mem_nil
  | first _ hseg => exact hseg.1
  | token => exact List.not_mem_nil
  | normal _ hseg => exact hseg.1
  | fetch hname =>
    rw [List.mem_cons, not_or]
    exact ⟨by decide, hname.1⟩
  | end_fetch hne hname => exact (Segment.var hne hname).slash_notMem

/-- A piece may end here, unless a name is being read. -/
theorem Explodes.pieceOk_iff (h : Explodes x vars seg) :
    PieceOk (First x) seg ↔ x.state ≠ .STATE_FETCH := by
  cases h with
  | start => exact iff_of_true (.inl unbraced_nil) nofun
  | first _ hseg => exact iff_of_true (.inl hseg.unbraced) nofun
  | token => exact iff_of_true (.inl unbraced_nil) nofun
  | normal _ hseg => exact iff_of_true (.inl hseg.unbraced) nofun
  | @fetch _ _ name hname =>
    refine iff_of_false ?_ (not_not.mpr rfl)
    intro hpiece
    obtain ⟨-, name', -, -, heq⟩ := braces_of_mem hpiece (.inl rfl) List.mem_cons_self
    have hcut : name = name' ++ [125] := (List.cons.inj heq).2
    apply hname.2.2
    rw [hcut]
    exact List.mem_append_right name' (List.mem_singleton_self 125)
  | end_fetch hne hname => exact iff_of_true (.inr ⟨nofun, _, hne, hname.unbraced, rfl⟩) nofun

/-- A `/` is refused inside of a name, and nowhere else. -/
theorem Explodes.slash_ok_iff (h : Explodes x vars seg) :
    (∃ x', explode_char x 47 = .ok x') ↔ x.state ≠ .STATE_FETCH := by
  cases h with
  | start => exact iff_of_true ⟨_, rfl⟩ nofun
  | first _ _ => exact iff_of_true ⟨_, rfl⟩ nofun
  | token => exact iff_of_true ⟨_, rfl⟩ nofun
  | normal _ _ => exact iff_of_true ⟨_, rfl⟩ nofun
  | fetch _ =>
    refine iff_of_false ?_ (not_not.mpr rfl)
    rintro ⟨x', hchar⟩
    cases hchar
  | end_fetch _ _ => exact iff_of_true ⟨_, rfl⟩ nofun

/-- A brace that a state refuses. -/
theorem brace_of_error {c : UInt8} {err : PatternErr} (hc : c ≠ 47)
    (h : x.state = .STATE_INIT ∨ x.state = .STATE_MATCH_TOKEN ∨ x.state = .STATE_NORMAL ∨
      x.state = .STATE_FETCH)
    (hchar : explode_char x c = .error err) : c = 123 ∨ c = 125 := by
  by_contra hbrace
  have hother : ¬ (c = 47 ∨ c = 123 ∨ c = 125) := not_or.mpr ⟨hc, hbrace⟩
  unfold explode_char explode_init at hchar
  rcases h with hstate | hstate | hstate | hstate
  · simp only [hstate, if_neg hother] at hchar
    cases hchar
  · simp only [hstate, if_neg hother] at hchar
    cases hchar
  · simp only [hstate, if_neg hbrace, if_neg hc] at hchar
    cases hchar
  · simp only [hstate, if_neg hother] at hchar
    cases hchar

/-- A refused byte spoils the piece. -/
theorem explode_char_error {c : UInt8} {err : PatternErr} (hc : c ≠ 47) (h : Explodes x vars seg)
    (hchar : explode_char x c = .error err) (rest : Str) :
    ¬ PieceOk (First x) (seg ++ c :: rest) := by
  intro hpiece
  have hmem : c ∈ seg ++ c :: rest := List.mem_append_right seg List.mem_cons_self
  cases h with
  -- in the first piece every brace is refused
  | start =>
    have hbrace := brace_of_error hc (.inl rfl) hchar
    obtain ⟨hfirst, -⟩ := braces_of_mem hpiece hbrace hmem
    exact hfirst rfl
  | first _ _ =>
    have hbrace := brace_of_error hc (.inl rfl) hchar
    obtain ⟨hfirst, -⟩ := braces_of_mem hpiece hbrace hmem
    exact hfirst rfl
  | token =>
    rcases brace_of_error hc (.inr (.inl rfl)) hchar with rfl | rfl
    -- a brace that opens a name is not refused here
    · cases hchar
    · obtain ⟨-, name, -, -, heq⟩ := braces_of_mem hpiece (.inr rfl) hmem
      exact absurd (List.cons.inj heq).1 (by decide)
  | normal hne hseg =>
    have hbrace := brace_of_error hc (.inr (.inr (.inl rfl))) hchar
    obtain ⟨-, name, -, -, heq⟩ := braces_of_mem hpiece hbrace hmem
    cases seg with
    | nil => exact hne rfl
    | cons d seg =>
      -- a piece with a brace begins with one, this one began without
      have hd : d = 123 := (List.cons.inj heq).1
      exact hseg.2.1 (by rw [hd]; exact List.mem_cons_self)
  | @fetch _ _ name hname =>
    have hbrace := brace_of_error hc (.inr (.inr (.inr rfl))) hchar
    obtain ⟨-, name', hne', hname', heq⟩ := braces_of_mem hpiece hbrace hmem
    have htail : name ++ c :: rest = name' ++ [125] := (List.cons.inj heq).2
    rcases hbrace with rfl | rfl
    · exact not_braces_of_behind hname' (.inl rfl) nofun htail
    · cases name with
      | nil =>
        -- the name is empty
        cases name' with
        | nil => exact hne' rfl
        | cons d name' =>
          have hd : 125 = d := (List.cons.inj htail).1
          exact hname'.2 (by rw [← hd]; exact List.mem_cons_self)
      -- the name ends, which is not refused
      | cons d name => cases hchar
  | @end_fetch _ _ name hne hname =>
    -- something follows the brace that ends the name
    have hmem' : (123 : UInt8) ∈ 123 :: name ++ [125] ++ c :: rest := List.mem_cons_self
    obtain ⟨-, name', hne', hname', heq⟩ := braces_of_mem hpiece (.inl rfl) hmem'
    have htail : name ++ [125] ++ c :: rest = name' ++ [125] := (List.cons.inj heq).2
    rw [List.append_assoc, List.singleton_append] at htail
    exact not_braces_of_behind hname' (.inr rfl) (fun _ => List.cons_ne_nil c rest) htail

theorem explode_init_ok {x' : Explode} {c : UInt8} (hc : c ≠ 47)
    (h : explode_init x c = .ok x') : x' = { x with start_flag := true } := by
  rw [explode_init] at h
  split at h
  · cases h
  · cases h
    rfl

/-- Inside of a piece the state of the first one stays the state of the first one. -/
theorem first_of_explode_char {x' : Explode} {c : UInt8} (hc : c ≠ 47) (h : Explodes x vars seg)
    (hchar : explode_char x c = .ok x') : First x' ↔ First x := by
  cases h with
  | start =>
    rw [explode_init_ok hc hchar]
    exact Iff.rfl
  | first _ _ => rw [explode_init_ok hc hchar]
  | token =>
    have hchar : (ite (c = 47 ∨ c = 123 ∨ c = 125) _ _ : Except PatternErr Explode) = .ok x' := hchar
    split at hchar
    · split at hchar
      · cases hchar
      · cases hchar
        exact iff_of_false nofun nofun
    · cases hchar
      exact iff_of_false nofun nofun
  | normal _ _ =>
    have hchar : (ite (c = 123 ∨ c = 125) _ (ite (c = 47) _ _) : Except PatternErr Explode) =
        .ok x' := hchar
    split at hchar
    · cases hchar
    · cases hchar
      exact iff_of_false nofun nofun
  | fetch _ =>
    have hchar : (ite (c = 47 ∨ c = 123 ∨ c = 125) _ _ : Except PatternErr Explode) = .ok x' := hchar
    split at hchar
    · split at hchar
      · split at hchar
        · cases hchar
        · cases hchar
          exact iff_of_false nofun nofun
      · cases hchar
    · cases hchar
      exact iff_of_false nofun nofun
  | end_fetch _ _ =>
    have hchar : (ite (c ≠ 47) _ _ : Except PatternErr Explode) = .ok x' := hchar
    rw [if_pos hc] at hchar
    cases hchar

/-- Behind a `/` it is not the first piece any more. -/
theorem not_first_of_slash {x' : Explode} (h : Explodes x vars seg)
    (hchar : explode_char x 47 = .ok x') : ¬ First x' := by
  cases h <;> cases hchar <;> exact nofun

end states

theorem piecesOk_false_iff {pieces : List Str} :
    PiecesOk False pieces ↔ ∀ p ∈ pieces, PieceOk False p := by
  cases pieces with
  | nil => exact iff_of_true trivial (List.forall_mem_nil _)
  | cons piece pieces => rw [PiecesOk, List.forall_mem_cons]

/-- From any state of the loop on, by the pieces that are left. -/
theorem explode_loop_accepts {path : Str} {x : Explode} {vars : Std.ExtTreeMap UInt32 Str}
    {seg : Str} (h : Explodes x vars seg) :
    (∃ y, path.foldlM explode_char x = .ok y ∧ y.state ≠ .STATE_FETCH) ↔
      PiecesOk (First x) ((seg ++ path).splitOn 47) := by
  induction path generalizing x vars seg with
  | nil =>
    -- the piece that is being read is the last one
    rw [List.append_nil, List.splitOn_eq_singleton h.slash_notMem]
    constructor
    · rintro ⟨y, hloop, hstate⟩
      cases hloop
      exact ⟨h.pieceOk_iff.mpr hstate, List.forall_mem_nil _⟩
    · rintro ⟨hpiece, -⟩
      exact ⟨x, rfl, h.pieceOk_iff.mp hpiece⟩
  | cons c path ih =>
    rw [List.foldlM_cons]
    by_cases hc : c = 47
    · subst hc
      -- the piece is over: it is judged, and the rest is read from an empty piece on
      rw [List.splitOn_append_cons_self_of_not_mem h.slash_notMem, PiecesOk, h.pieceOk_iff,
        ← h.slash_ok_iff, ← piecesOk_false_iff]
      cases hchar : explode_char x 47 with
      | error err =>
        refine iff_of_false ?_ ?_
        · rintro ⟨y, hloop, -⟩
          cases hloop
        · rintro ⟨⟨x', hok⟩, -⟩
          cases hok
      | ok x' =>
        obtain ⟨-, hx', -⟩ := explode_char_slash h hchar
        have hrest := ih hx'
        rw [List.nil_append, eq_false (not_first_of_slash h hchar)] at hrest
        rw [← hrest]
        exact (and_iff_right ⟨x', rfl⟩).symm
    · cases hchar : explode_char x c with
      | error err =>
        -- no rest makes the piece with the refused byte a good one
        have hseg : (47 : UInt8) ∉ seg ++ [c] := by
          rw [List.mem_append, List.mem_singleton, not_or]
          exact ⟨h.slash_notMem, fun heq => hc heq.symm⟩
        obtain ⟨rest, pieces, hcut⟩ := exists_pieces (seg ++ [c]) path hseg
        rw [List.append_assoc, List.append_assoc, List.singleton_append, List.singleton_append] at hcut
        rw [hcut]
        refine iff_of_false ?_ ?_
        · rintro ⟨y, hloop, -⟩
          cases hloop
        · rintro ⟨hpiece, -⟩
          exact explode_char_error hc h hchar rest hpiece
      | ok x' =>
        obtain ⟨hx', -⟩ := explode_char_other hc h hchar
        have hrest := ih hx'
        rw [List.append_assoc, List.singleton_append, propext (first_of_explode_char hc h hchar)]
          at hrest
        exact hrest

/-! ## The whole call -/

theorem explode_path_vars_true_iff (path : Str) :
    (explode_path_vars path).1 = true ↔ Accepted path := by
  have hstart : Explodes .init ∅ [] := .start
  have hloop := @explode_loop_accepts path _ _ _ hstart
  rw [List.nil_append, eq_true (show First .init from rfl)] at hloop
  rw [Accepted, ← hloop, explode_path_vars]
  cases hrun : path.foldlM explode_char .init with
  | error err => simp
  | ok y =>
    cases hstate : y.state <;> simp [hstate]

/-- What is returned with false. -/
theorem explode_path_vars_false {path : Str} (h : (explode_path_vars path).1 = false) :
    (explode_path_vars path).2.1 = ∅ := by
  unfold explode_path_vars at h ⊢
  cases hrun : path.foldlM explode_char .init with
  | error err => rfl
  | ok y =>
    rw [hrun] at h
    cases hstate : y.state with
    | STATE_FETCH => simp [hstate]
    | _ => simp [hstate] at h

/-- Among the segments of an accepted pattern, `{name}` is the variable `name`. -/
theorem name_of_eq_some_iff {segment name : Str} (h : Segment segment) :
    name_of segment = some name ↔ segment = braces name := by
  rw [name_of]
  cases h with
  | text hne hs =>
    rw [is_var_of_free hs]
    refine iff_of_false nofun ?_
    rintro rfl
    exact hs.2.1 List.mem_cons_self
  | @var name' hne hname =>
    rw [if_pos (is_var_braces name'), var_name_braces, Option.some.injEq]
    constructor
    · rintro rfl
      rfl
    · intro heq
      exact (List.append_inj' (List.cons.inj heq).2 rfl).1

/-- The entry for a number is the variable of the segment with that number. -/
theorem numbered_eq_some_iff {segments : List Str} (hsegments : ∀ s ∈ segments, Segment s)
    (hlength : segments.length ≤ 2 ^ 32) (k : UInt32) (name : Str) :
    (numbered segments 0 ∅)[k]? = some name ↔ segments[k.toNat]? = some (braces name) := by
  by_cases hk : k.toNat < segments.length
  · have hnumber : k = 0 + UInt32.ofNat k.toNat := by simp
    have hentry := @numbered_getElem? segments 0 ∅ hlength _ hk Std.ExtTreeMap.getElem?_empty
    rw [← hnumber] at hentry
    rw [hentry, List.getElem?_eq_getElem hk, Option.some.injEq,
      name_of_eq_some_iff (hsegments _ (List.getElem_mem hk))]
  -- behind the last segment no number was given out, for they do not wrap
  · have hother : ∀ j < segments.length, 0 + UInt32.ofNat j ≠ k := by
      rintro j hj rfl
      apply hk
      have hmod : (0 + UInt32.ofNat j).toNat = j := by
        rw [UInt32.zero_add]
        exact UInt32.toNat_ofNat_of_lt' (by rw [UInt32.size]; omega)
      omega
    rw [numbered_other hother, List.getElem?_eq_none (Nat.le_of_not_lt hk)]
    exact iff_of_false (fun h => nomatch Std.ExtTreeMap.getElem?_empty.symm.trans h) nofun

/-- **Which patterns `explode_path_vars` accepts, and what it numbers.** -/
theorem explode_path_vars_iff (path : Str) (hlength : path.length < 2 ^ 32) :
    ((explode_path_vars path).1 = true ↔ Accepted path) ∧
      (Accepted path → ∀ (k : UInt32) (name : Str),
        (explode_path_vars path).2.1[k]? = some name ↔
          ((path.splitOn 47).filter (· ≠ []))[k.toNat]? = some (braces name)) ∧
      (¬ Accepted path → (explode_path_vars path).2.1 = ∅) := by
  refine ⟨explode_path_vars_true_iff path, ?_, ?_⟩
  · intro haccepted k name
    have htrue := (explode_path_vars_true_iff path).mpr haccepted
    rcases hresult : explode_path_vars path with ⟨b, vars, err⟩
    rw [hresult] at htrue
    obtain rfl : b = true := htrue
    obtain ⟨hsegments, -, hvars⟩ := explode_path_vars_ok hresult
    have hcut : Str.split path (lit "/") = (path.splitOn 47).filter (· ≠ []) := Str.split_eq path 47
    have hsegments_le := Str.length_split_le path 47
    have hle : (Str.split path (lit "/")).length ≤ 2 ^ 32 := hsegments_le.trans (by omega)
    show vars[k]? = some name ↔ _
    rw [hvars, ← hcut]
    exact numbered_eq_some_iff hsegments hle k name
  · intro hrejected
    rw [← explode_path_vars_true_iff, Bool.not_eq_true] at hrejected
    exact explode_path_vars_false hrejected

/-- `x//{id}/` has the variable with the number 1. -/
theorem explode_path_vars_iff_id :
    Accepted (lit "x//{id}/") ∧
      (explode_path_vars (lit "x//{id}/")).2.1[(1 : UInt32)]? = some (lit "id") := by
  obtain ⟨htrue, hvars, -⟩ := explode_path_vars_iff (lit "x//{id}/") (by decide)
  have haccepted : Accepted (lit "x//{id}/") := htrue.mp rfl
  exact ⟨haccepted, (hvars haccepted 1 (lit "id")).mpr (by decide)⟩

end Rellaf.UrlPattern
