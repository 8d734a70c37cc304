/-
What `SqlPattern::explode` accepts, and what its pieces say of the pattern.

A piece has a written form, and a pattern is one that `explode` accepts exactly
when it is the written form of some pieces with proper values. `Explode.Ok` is the
invariant of the scan: the pieces found, written back, and what is pending, are
the characters read so far. The other way round, `explode_loop_write` says what
the scan does on a written form.
-/
import Mathlib.Data.List.Chain
import Rellaf.SqlPattern

set_option autoImplicit false

open Rellaf.Cpp

namespace Rellaf.SqlPattern

/-! ## The written form -/

/-- One of the characters `#`, `[`, `]`, `{`, `}`. -/
def is_token (c : UInt8) : Bool := c = 35 || c = 91 || c = 93 || c = 123 || c = 125

/-- A literal run or the name of a field: not empty, and without those characters. -/
structure IsRun (s : Str) : Prop where
  ne_nil : s ≠ []
  no_token : ∀ c ∈ s, is_token c = false

def Stub.write (stub : Stub) : Str :=
  match stub.type with
  | .LITERAL => stub.value
  | .FIELD => [35, 123] ++ stub.value ++ [125]
  | .LIST => [35, 91] ++ stub.value ++ [93]

/-- The pieces written back, one behind the other. -/
def write (stubs : List Stub) : Str := stubs.flatMap Stub.write

/-- No two literals stand next to each other. -/
def Separated (stubs : List Stub) : Prop :=
  stubs.IsChain fun a b => a.type = .LITERAL → b.type ≠ .LITERAL

@[simp] theorem write_nil : write [] = [] := rfl

@[simp] theorem write_cons (stub : Stub) (stubs : List Stub) :
    write (stub :: stubs) = stub.write ++ write stubs := rfl

@[simp] theorem write_append (stubs stubs' : List Stub) :
    write (stubs ++ stubs') = write stubs ++ write stubs' := List.flatMap_append

/-! ## The tables in their domain -/

theorem tokens_eq {c : UInt8} (h : c < 128) : tokens c = .ok (is_token c) := by
  rw [tokens, table, if_pos h]
  rfl

theorem end_tokens_eq {c : UInt8} (h : c < 128) : end_tokens c = .ok (c = 93 || c = 125) := by
  rw [end_tokens, table, if_pos h]

theorem token_pairs_eq {c : UInt8} (h : c < 128) :
    token_pairs c = .ok (if c = 91 then 93 else if c = 123 then 125 else 0) := by
  rw [token_pairs, table, if_pos h]

/-! ## One round in each state -/

/-- The bracket that closes the one after `#`. -/
def closing (token : UInt8) : UInt8 := if token = 91 then 93 else 125

theorem explode_char_init {x : Explode} {c : UInt8} (hstate : x.state = .STATE_INIT)
    (hc : c < 128) :
    explode_char x c = .ok (
      if is_token c then
        if c = 35 then
          .ok { (if x.section_.isEmpty then x else x.push) with state := .STATE_MATCH_TOKEN }
        else .error .ILL_TOKEN
      else .ok { x with section_ := x.section_ ++ [c] }) := by
  simp only [explode_char, hstate, tokens_eq hc, run_ok_bind]
  split
  · split <;> rfl
  · rfl

theorem explode_char_match {x : Explode} {c : UInt8} (hstate : x.state = .STATE_MATCH_TOKEN)
    (hc : c < 128) :
    explode_char x c = .ok (
      if c = 91 ∨ c = 123 then
        .ok { x with
          token := c, state := .STATE_FETCH, stub_type := if c = 91 then .LIST else .FIELD }
      else .error .ILL_BEGIN) := by
  simp only [explode_char, hstate, token_pairs_eq hc, run_ok_bind]
  by_cases hlist : c = 91
  · subst hlist
    rfl
  by_cases hfield : c = 123
  · subst hfield
    rfl
  · simp [hlist, hfield]

theorem explode_char_fetch {x : Explode} {c : UInt8} (hstate : x.state = .STATE_FETCH)
    (htoken : x.token = 91 ∨ x.token = 123) (hc : c < 128) :
    explode_char x c = .ok (
      if is_token c then
        if c = 93 ∨ c = 125 then
          if c ≠ closing x.token then .error .UNMATCH
          else if x.section_.isEmpty then .error .NONE_FIELD
          else .ok { x.push with state := .STATE_INIT, stub_type := .LITERAL }
        else .error .ILL_END
      else .ok { x with section_ := x.section_ ++ [c] }) := by
  have hpair : token_pairs x.token = .ok (closing x.token) := by
    rcases htoken with h | h <;> rw [h] <;> rfl
  simp only [explode_char, hstate, tokens_eq hc, end_tokens_eq hc, hpair, run_ok_bind]
  by_cases ht : is_token c = true
  · by_cases hend : c = 93 ∨ c = 125
    · by_cases hpairs : c = closing x.token
      · by_cases hempty : x.section_.isEmpty = true <;> simp_all
      · simp_all
    · simp_all
  · simp_all

/-! ## What has been read -/

/-- The characters of the piece that is under way. -/
def Explode.pending (x : Explode) : Str :=
  match x.state with
  | .STATE_MATCH_TOKEN => [35]
  | .STATE_FETCH => [35, x.token] ++ x.section_
  | _ => x.section_

/-- What holds of the variables between two characters. A literal is pushed at the
`#` that ends it, so that none stands at the end while a new one is under way. -/
structure Explode.Ok (x : Explode) (read : Str) : Prop where
  read : write x.pieces ++ x.pending = read
  pieces : ∀ stub ∈ x.pieces, IsRun stub.value
  separated : Separated x.pieces
  section_ : ∀ c ∈ x.section_, is_token c = false
  state : x.state = .STATE_INIT ∧ x.stub_type = .LITERAL ∧
      (∀ stub ∈ x.pieces.getLast?, stub.type ≠ .LITERAL) ∨
    x.state = .STATE_MATCH_TOKEN ∧ x.section_ = [] ∨
    x.state = .STATE_FETCH ∧
      (x.token = 91 ∧ x.stub_type = .LIST ∨ x.token = 123 ∧ x.stub_type = .FIELD)

theorem Explode.init_ok : Explode.init.Ok [] where
  read := rfl
  pieces := nofun
  separated := .nil
  section_ := nofun
  state := .inl ⟨rfl, rfl, nofun⟩

/-- A piece joins the others when it does not put two literals together. -/
theorem separated_concat {stubs : List Stub} {stub : Stub} (h : Separated stubs)
    (hlast : stub.type = .LITERAL → ∀ last ∈ stubs.getLast?, last.type ≠ .LITERAL) :
    Separated (stubs ++ [stub]) := by
  refine List.IsChain.append h (.singleton stub) ?_
  intro last hmem stub' hstub hliteral hliteral'
  obtain rfl : stub = stub' := by simpa using hstub
  exact hlast hliteral' last hmem hliteral

/-- The pending piece is pushed. -/
theorem Explode.push_pieces {x : Explode} {read : Str} (hx : x.Ok read)
    (hne : x.section_ ≠ [])
    (hlast : x.stub_type = .LITERAL → ∀ last ∈ x.pieces.getLast?, last.type ≠ .LITERAL) :
    (∀ stub ∈ x.push.pieces, IsRun stub.value) ∧ Separated x.push.pieces := by
  constructor
  · intro stub hstub
    rcases List.mem_append.mp hstub with hold | hnew
    · exact hx.pieces stub hold
    · obtain rfl := List.mem_singleton.mp hnew
      exact ⟨hne, hx.section_⟩
  · exact separated_concat hx.separated hlast

/-- One more character is read. -/
theorem explode_char_ok {x x' : Explode} {read : Str} {c : UInt8} (hx : x.Ok read) (hc : c < 128)
    (h : explode_char x c = .ok (.ok x')) : x'.Ok (read ++ [c]) := by
  have hread := hx.read
  have hsection : is_token c = false → ∀ d ∈ x.section_ ++ [c], is_token d = false := by
    intro ht d hd
    rcases List.mem_append.mp hd with hold | hnew
    · exact hx.section_ d hold
    · rwa [List.mem_singleton.mp hnew]
  rcases hx.state with ⟨hstate, htype, hlast⟩ | ⟨hstate, hempty⟩ | ⟨hstate, htoken⟩
  · -- a literal is under way, or nothing
    rw [Explode.pending, hstate] at hread
    rw [explode_char_init hstate hc, Except.ok.injEq] at h
    split at h
    · split at h
      · rename_i hhash
        subst hhash
        cases h
        by_cases hempty : x.section_.isEmpty = true
        · rw [if_pos hempty]
          rw [List.isEmpty_iff] at hempty
          exact ⟨by simp [Explode.pending, ← hread, hempty], hx.pieces, hx.separated, hx.section_,
            .inr (.inl ⟨rfl, hempty⟩)⟩
        · rw [if_neg hempty]
          have hne : x.section_ ≠ [] := by simpa using hempty
          obtain ⟨hpieces, hsep⟩ := Explode.push_pieces hx hne fun _ => hlast
          exact ⟨by simp [Explode.pending, Explode.push, ← hread, Stub.write, htype], hpieces, hsep,
            nofun, .inr (.inl ⟨rfl, rfl⟩)⟩
      · cases h
    · rename_i ht
      cases h
      exact ⟨by simp [Explode.pending, hstate, ← hread], hx.pieces, hx.separated,
        hsection (by simpa using ht), .inl ⟨hstate, htype, hlast⟩⟩
  · -- the `#` has been read
    rw [Explode.pending, hstate] at hread
    rw [explode_char_match hstate hc, Except.ok.injEq] at h
    split at h
    · rename_i hbracket
      cases h
      refine ⟨by simp [Explode.pending, ← hread, hempty], hx.pieces, hx.separated, hx.section_,
        .inr (.inr ⟨rfl, ?_⟩)⟩
      rcases hbracket with rfl | rfl
      · exact .inl ⟨rfl, rfl⟩
      · exact .inr ⟨rfl, rfl⟩
    · cases h
  · -- the name of a field is under way
    rw [Explode.pending, hstate] at hread
    have htoken' : x.token = 91 ∨ x.token = 123 := htoken.imp And.left And.left
    rw [explode_char_fetch hstate htoken' hc, Except.ok.injEq] at h
    split at h
    · split at h
      · split at h
        · cases h
        rename_i hclosing
        split at h
        · cases h
        rename_i hempty
        cases h
        have hne : x.section_ ≠ [] := by simpa using hempty
        have htype : x.stub_type ≠ .LITERAL := by
          rcases htoken with ⟨-, h⟩ | ⟨-, h⟩ <;> rw [h] <;> nofun
        obtain ⟨hpieces, hsep⟩ := Explode.push_pieces hx hne fun h => absurd h htype
        refine ⟨?_, hpieces, hsep, nofun, .inl ⟨rfl, rfl, ?_⟩⟩
        · rw [not_not] at hclosing
          rcases htoken with ⟨h, htype⟩ | ⟨h, htype⟩
          · simp [Explode.pending, Explode.push, ← hread, Stub.write, htype, hclosing, h, closing]
          · simp [Explode.pending, Explode.push, ← hread, Stub.write, htype, hclosing, h, closing]
        · intro stub hstub
          obtain rfl : ⟨x.stub_type, x.section_⟩ = stub := by simpa [Explode.push] using hstub
          exact htype
      · cases h
    · rename_i ht
      cases h
      exact ⟨by simp [Explode.pending, hstate, ← hread], hx.pieces, hx.separated,
        hsection (by simpa using ht), .inr (.inr ⟨hstate, htoken⟩)⟩

/-- No round ends in a fault. -/
theorem explode_char_total {x : Explode} {read : Str} {c : UInt8} (hx : x.Ok read)
    (hc : c < 128) : ∃ next, explode_char x c = .ok next := by
  rcases hx.state with ⟨hstate, -⟩ | ⟨hstate, -⟩ | ⟨hstate, htoken⟩
  · exact ⟨_, explode_char_init hstate hc⟩
  · exact ⟨_, explode_char_match hstate hc⟩
  · exact ⟨_, explode_char_fetch hstate (htoken.imp And.left And.left) hc⟩

/-- The whole loop: it returns early with an error, or all of the pattern is read. -/
theorem explode_loop_ok : ∀ {x : Explode} {read cs : Str}, x.Ok read → (∀ c ∈ cs, c < 128) →
    ∃ x' early, explode_loop x cs = .ok (x', early) ∧ (early = none → x'.Ok (read ++ cs)) := by
  intro x read cs
  induction cs generalizing x read with
  | nil =>
    intro hx _
    exact ⟨x, none, rfl, fun _ => by simpa using hx⟩
  | cons c cs ih =>
    intro hx hcs
    have hc : c < 128 := hcs c List.mem_cons_self
    obtain ⟨next, hnext⟩ := explode_char_total hx hc
    cases next with
    | error err =>
      refine ⟨x, some err, ?_, nofun⟩
      rw [explode_loop, hnext]
      rfl
    | ok y =>
      have hy := explode_char_ok hx hc hnext
      obtain ⟨x', early, hloop, hok⟩ := ih hy fun d hd => hcs d (List.mem_cons_of_mem c hd)
      refine ⟨x', early, ?_, fun h => by simpa using hok h⟩
      rw [explode_loop, hnext]
      exact hloop

/-! ## The written form is accepted -/

/-- The variables once `stub`, in its written form, has been read from `STATE_INIT`. -/
def Explode.reads (x : Explode) (stub : Stub) : Explode :=
  match stub.type with
  | .LITERAL => { x with section_ := x.section_ ++ stub.value }
  | type =>
    { x with
      token := if type = .LIST then 91 else 123
      pieces := (if x.section_.isEmpty then x else x.push).pieces ++ [stub]
      section_ := [] }

/-- The pieces `explode` returns from `STATE_INIT`. -/
def Explode.finish (x : Explode) : List Stub :=
  if x.section_.isEmpty then x.pieces else x.push.pieces

/-- Characters that are no tokens extend the section. -/
theorem explode_loop_run {x : Explode} {s : Str} (rest : Str)
    (hstate : x.state = .STATE_INIT ∨ x.state = .STATE_FETCH ∧ (x.token = 91 ∨ x.token = 123))
    (hs : ∀ c ∈ s, is_token c = false) (hbytes : ∀ c ∈ s, c < 128) :
    explode_loop x (s ++ rest) = explode_loop { x with section_ := x.section_ ++ s } rest := by
  induction s generalizing x with
  | nil => simp
  | cons c s ih =>
    have hc : c < 128 := hbytes c List.mem_cons_self
    have ht : is_token c = false := hs c List.mem_cons_self
    have hchar : explode_char x c = .ok (.ok { x with section_ := x.section_ ++ [c] }) := by
      rcases hstate with hinit | ⟨hfetch, htoken⟩
      · rw [explode_char_init hinit hc, if_neg (by simp [ht])]
      · rw [explode_char_fetch hfetch htoken hc, if_neg (by simp [ht])]
    rw [List.cons_append, explode_loop, hchar]
    have hloop := ih (x := { x with section_ := x.section_ ++ [c] }) hstate
      (fun d hd => hs d (List.mem_cons_of_mem c hd))
      (fun d hd => hbytes d (List.mem_cons_of_mem c hd))
    simpa using hloop

/-- The `#` of a placeholder pushes the literal before it. -/
theorem explode_loop_hash {x : Explode} (rest : Str) (hstate : x.state = .STATE_INIT) :
    explode_loop x (35 :: rest) =
      explode_loop { x with
        state := .STATE_MATCH_TOKEN
        pieces := (if x.section_.isEmpty then x else x.push).pieces
        section_ := [] } rest := by
  have hhash := explode_char_init hstate (by decide : (35 : UInt8) < 128)
  rw [if_pos (by rfl : is_token 35 = true), if_pos rfl] at hhash
  rw [explode_loop, hhash]
  simp only [run_ok_bind]
  congr 1
  by_cases h : x.section_.isEmpty = true
  · simp [List.isEmpty_iff.mp h]
  · simp [h, Explode.push]

/-- The bracket behind it gives the stub its type. -/
theorem explode_loop_open {x : Explode} {token : UInt8} (rest : Str)
    (hstate : x.state = .STATE_INIT) (htoken : token = 91 ∨ token = 123) :
    explode_loop x (35 :: token :: rest) =
      explode_loop { x with
        state := .STATE_FETCH
        stub_type := if token = 91 then .LIST else .FIELD
        token := token
        pieces := (if x.section_.isEmpty then x else x.push).pieces
        section_ := [] } rest := by
  have htoken_lt : token < 128 := by rcases htoken with rfl | rfl <;> decide
  rw [explode_loop_hash _ hstate, explode_loop, explode_char_match rfl htoken_lt, if_pos htoken]
  rfl

/-- A placeholder is read: the bracket, the name, the closing bracket. -/
theorem explode_loop_placeholder {x : Explode} {token : UInt8} {value : Str} (rest : Str)
    (hstate : x.state = .STATE_INIT) (htype : x.stub_type = .LITERAL)
    (htoken : token = 91 ∨ token = 123) (hvalue : IsRun value) (hbytes : ∀ c ∈ value, c < 128) :
    explode_loop x ([35, token] ++ value ++ [closing token] ++ rest) =
      explode_loop { x with
        token := token
        pieces := (if x.section_.isEmpty then x else x.push).pieces ++
          [⟨if token = 91 then .LIST else .FIELD, value⟩]
        section_ := [] } rest := by
  have hend : is_token (closing token) = true ∧ (closing token = 93 ∨ closing token = 125) ∧
      closing token < 128 := by rcases htoken with rfl | rfl <;> decide
  obtain ⟨hend_token, hend_end, hend_lt⟩ := hend
  -- the name fills the section, and the closing bracket pushes it
  let x₁ : Explode := { x with
    state := .STATE_FETCH
    stub_type := if token = 91 then .LIST else .FIELD
    token := token
    pieces := (if x.section_.isEmpty then x else x.push).pieces
    section_ := value }
  have hne : ¬ x₁.section_.isEmpty = true := by simpa [x₁] using hvalue.ne_nil
  have hclose : explode_char x₁ (closing token) =
      .ok (.ok { x₁.push with state := .STATE_INIT, stub_type := .LITERAL }) := by
    rw [explode_char_fetch rfl htoken hend_lt, if_pos hend_token, if_pos hend_end,
      if_neg (not_not.mpr rfl), if_neg hne]
  have hsplit : [35, token] ++ value ++ [closing token] ++ rest =
      35 :: token :: (value ++ (closing token :: rest)) := by simp
  rw [hsplit, explode_loop_open _ hstate htoken,
    explode_loop_run _ (.inr ⟨rfl, htoken⟩) hvalue.no_token hbytes, List.nil_append, explode_loop,
    hclose]
  simp only [run_ok_bind]
  congr 1
  simp [x₁, Explode.push, hstate, htype]

theorem explode_loop_stub {x : Explode} {stub : Stub} (rest : Str)
    (hstate : x.state = .STATE_INIT) (htype : x.stub_type = .LITERAL)
    (hstub : IsRun stub.value) (hbytes : ∀ c ∈ stub.value, c < 128) :
    explode_loop x (stub.write ++ rest) = explode_loop (x.reads stub) rest := by
  obtain ⟨type, value⟩ := stub
  cases type with
  | LITERAL => exact explode_loop_run rest (.inl hstate) hstub.no_token hbytes
  | FIELD => exact explode_loop_placeholder rest hstate htype (.inr rfl) hstub hbytes
  | LIST => exact explode_loop_placeholder rest hstate htype (.inl rfl) hstub hbytes

theorem Explode.reads_state {x : Explode} (stub : Stub) (hstate : x.state = .STATE_INIT)
    (htype : x.stub_type = .LITERAL) :
    (x.reads stub).state = .STATE_INIT ∧ (x.reads stub).stub_type = .LITERAL := by
  obtain ⟨type, value⟩ := stub
  cases type <;> exact ⟨hstate, htype⟩

/-- A whole written form is read without an error, and `explode` is back in `STATE_INIT`. -/
theorem explode_loop_write : ∀ {stubs : List Stub} {x : Explode},
    x.state = .STATE_INIT → x.stub_type = .LITERAL → (∀ stub ∈ stubs, IsRun stub.value) →
    (∀ c ∈ write stubs, c < 128) →
    explode_loop x (write stubs) = .ok (stubs.foldl Explode.reads x, none) ∧
      (stubs.foldl Explode.reads x).state = .STATE_INIT := by
  intro stubs
  induction stubs with
  | nil => exact fun hstate _ _ _ => ⟨rfl, hstate⟩
  | cons stub stubs ih =>
    intro x hstate htype hstubs hbytes
    rw [write_cons] at hbytes
    have hvalue : ∀ c ∈ stub.value, c < 128 := by
      intro c hc
      apply hbytes c
      rw [List.mem_append]
      left
      rw [Stub.write]
      split <;> simp [hc]
    obtain ⟨hreads, hreads_type⟩ := Explode.reads_state stub hstate htype
    rw [write_cons, explode_loop_stub _ hstate htype (hstubs stub List.mem_cons_self) hvalue]
    exact ih hreads hreads_type (fun stub' h => hstubs stub' (List.mem_cons_of_mem stub h))
      fun c hc => hbytes c (List.mem_append_right _ hc)

/-- When literals are kept apart, what is read is what is returned. -/
theorem finish_foldl_reads : ∀ {stubs : List Stub} {x : Explode},
    x.stub_type = .LITERAL → (∀ stub ∈ stubs, IsRun stub.value) → Separated stubs →
    (x.section_ ≠ [] → ∀ stub ∈ stubs.head?, stub.type ≠ .LITERAL) →
    (stubs.foldl Explode.reads x).finish = x.finish ++ stubs := by
  intro stubs
  induction stubs with
  | nil => simp
  | cons stub stubs ih =>
    intro x htype hstubs hsep hhead
    have hstub : IsRun stub.value := hstubs stub List.mem_cons_self
    have hstubs' : ∀ stub' ∈ stubs, IsRun stub'.value :=
      fun stub' h => hstubs stub' (List.mem_cons_of_mem stub h)
    have hsep' : Separated stubs := (List.isChain_cons.mp hsep).2
    have hnext : stub.type = .LITERAL → ∀ stub' ∈ stubs.head?, stub'.type ≠ .LITERAL :=
      fun hliteral stub' h => (List.isChain_cons.mp hsep).1 stub' h hliteral
    obtain ⟨type, value⟩ := stub
    rw [List.foldl_cons]
    cases type with
    | LITERAL =>
      have hempty : x.section_ = [] := by
        by_contra hne
        exact hhead hne _ rfl rfl
      have hfold := ih (x := x.reads ⟨.LITERAL, value⟩) htype hstubs' hsep' fun _ => hnext rfl
      rw [hfold]
      have hne : value ≠ [] := hstub.ne_nil
      simp [Explode.finish, Explode.reads, Explode.push, hempty, hne, htype]
    | FIELD =>
      have hfold := ih (x := x.reads ⟨.FIELD, value⟩) htype hstubs' hsep' fun h => absurd rfl h
      rw [hfold]
      by_cases h : x.section_.isEmpty = true <;>
        simp [Explode.finish, Explode.reads, Explode.push, h]
    | LIST =>
      have hfold := ih (x := x.reads ⟨.LIST, value⟩) htype hstubs' hsep' fun h => absurd rfl h
      rw [hfold]
      by_cases h : x.section_.isEmpty = true <;>
        simp [Explode.finish, Explode.reads, Explode.push, h]

/-! ## `explode` -/

/-- `explode` on any written form, literals next to each other included. -/
theorem explode_write {stubs : List Stub} (hstubs : ∀ stub ∈ stubs, IsRun stub.value)
    (hbytes : ∀ c ∈ write stubs, c < 128) :
    explode (write stubs) = .ok (true, (stubs.foldl Explode.reads .init).finish, .OK) := by
  obtain ⟨hloop, hstate⟩ := explode_loop_write (x := .init) rfl rfl hstubs hbytes
  rw [explode, hloop]
  simp only [run_ok_bind, hstate]
  rfl

/-- `explode` always returns; what it accepts is the written form of its pieces. -/
theorem explode_ok (pattern : Str) (hbytes : ∀ c ∈ pattern, c < 128) :
    ∃ ok pieces err, explode pattern = .ok (ok, pieces, err) ∧
      (ok = true → write pieces = pattern ∧ (∀ stub ∈ pieces, IsRun stub.value) ∧
        Separated pieces) := by
  obtain ⟨x, early, hloop, hok⟩ := explode_loop_ok Explode.init_ok hbytes
  rw [explode, hloop]
  simp only [run_ok_bind]
  cases early with
  | some err => exact ⟨_, _, _, rfl, nofun⟩
  | none =>
    have hx := hok rfl
    rcases hx.state with ⟨hstate, htype, hlast⟩ | ⟨hstate, -⟩ | ⟨hstate, -⟩
    · simp only [hstate]
      refine ⟨_, _, _, rfl, fun _ => ?_⟩
      have hread := hx.read
      rw [Explode.pending, hstate, List.nil_append] at hread
      by_cases hempty : x.section_.isEmpty = true
      · rw [if_pos hempty]
        rw [List.isEmpty_iff] at hempty
        exact ⟨by simpa [hempty] using hread, hx.pieces, hx.separated⟩
      · rw [if_neg hempty]
        have hne : x.section_ ≠ [] := by simpa using hempty
        obtain ⟨hpieces, hsep⟩ := Explode.push_pieces hx hne fun _ => hlast
        exact ⟨by simpa [Explode.push, Stub.write, htype] using hread, hpieces, hsep⟩
    · simp only [hstate]
      exact ⟨_, _, _, rfl, nofun⟩
    · simp only [hstate]
      exact ⟨_, _, _, rfl, nofun⟩

/-- `explode` accepts exactly the sequences of literal runs and placeholders, its
pieces are the pattern's, and it reads back every such sequence of pieces. -/
theorem explode_accepts_iff (pattern : Str) (hbytes : ∀ c ∈ pattern, c < 128) :
    ∃ ok pieces err, explode pattern = .ok (ok, pieces, err) ∧
      (ok = true ↔ ∃ stubs, (∀ stub ∈ stubs, IsRun stub.value) ∧ write stubs = pattern) ∧
      (ok = true → write pieces = pattern ∧ (∀ stub ∈ pieces, stub.value ≠ []) ∧
        Separated pieces) ∧
      ∀ stubs, (∀ stub ∈ stubs, IsRun stub.value) → Separated stubs → write stubs = pattern →
        explode pattern = .ok (true, stubs, .OK) := by
  obtain ⟨ok, pieces, err, hexplode, hok⟩ := explode_ok pattern hbytes
  refine ⟨ok, pieces, err, hexplode, ⟨?_, ?_⟩, ?_, ?_⟩
  · intro h
    obtain ⟨hwrite, hruns, -⟩ := hok h
    exact ⟨pieces, hruns, hwrite⟩
  · rintro ⟨stubs, hruns, rfl⟩
    rw [explode_write hruns hbytes] at hexplode
    cases hexplode
    rfl
  · intro h
    obtain ⟨hwrite, hruns, hsep⟩ := hok h
    exact ⟨hwrite, fun stub hstub => (hruns stub hstub).ne_nil, hsep⟩
  · rintro stubs hruns hsep rfl
    rw [explode_write hruns hbytes, finish_foldl_reads rfl hruns hsep fun h => absurd rfl h]
    rfl

theorem explode_accepts_iff_ids :
    ∃ ok pieces err, explode (lit "id in (#[ids])") = .ok (ok, pieces, err) ∧
      (ok = true ↔ ∃ stubs, (∀ stub ∈ stubs, IsRun stub.value) ∧
        write stubs = lit "id in (#[ids])") ∧
      (ok = true → write pieces = lit "id in (#[ids])" ∧ (∀ stub ∈ pieces, stub.value ≠ []) ∧
        Separated pieces) ∧
      ∀ stubs, (∀ stub ∈ stubs, IsRun stub.value) → Separated stubs →
        write stubs = lit "id in (#[ids])" →
        explode (lit "id in (#[ids])") = .ok (true, stubs, .OK) := by
  have hall : (lit "id in (#[ids])").all (· < 128) = true := by decide
  refine explode_accepts_iff (lit "id in (#[ids])") fun c hc => ?_
  exact of_decide_eq_true (List.all_eq_true.mp hall c hc)

end Rellaf.SqlPattern
