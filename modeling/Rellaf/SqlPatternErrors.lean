/-
How `SqlPattern::explode` turns a pattern down, and where it looks into its tables.

A text that some accepted pattern starts with ends at one of three places: outside of a
placeholder, right behind a `#`, or inside of a placeholder. The places are the states of
the scan (`scan_of_ends`), so the scan stops where the longest such beginning of the pattern
ends, and its error says what stands there (`explode_error`).

The same places say which bytes are looked up: all of the pattern up to the first that
the scan stops at.
-/
import Rellaf.SqlPatternText

set_option autoImplicit false

open Rellaf.Cpp

namespace Rellaf.SqlPattern

/-! ## Places in a text -/

/-- Where a text ends: outside of the placeholders, behind the `#` of one, or in the name
behind the opening bracket `token`. -/
inductive Place where
  | outside
  | behind_hash
  | inside (token : UInt8) (field : Str)
  deriving DecidableEq, Repr

/-- What stands of the placeholder that is under way. -/
def Place.text : Place → Str
  | .outside => []
  | .behind_hash => [35]
  | .inside token field => [35, token] ++ field

/-- The brackets and the characters of the name are what they have to be. -/
def Place.Proper : Place → Prop
  | .inside token field => (token = 91 ∨ token = 123) ∧ ∀ c ∈ field, is_token c = false
  | _ => True

/-- The text consists of literal runs and whole placeholders up to the place. -/
def Ends (q : Str) (place : Place) : Prop :=
  place.Proper ∧ ∃ stubs : List Stub, (∀ stub ∈ stubs, IsRun stub.value) ∧
    q = write stubs ++ place.text

/-- Some accepted pattern starts with the text. -/
def Begins (q : Str) : Prop := ∃ rest pieces, explode (q ++ rest) = .ok (true, pieces, .OK)

/-- The longest beginning of the pattern that some accepted pattern starts with. -/
structure Longest (pattern q : Str) : Prop where
  beginning : q <+: pattern
  begins : Begins q
  longest : ∀ q', q' <+: pattern → Begins q' → q' <+: q

/-- The bracket that does not close `token`, but the other one. -/
def other_closing (token : UInt8) : UInt8 := if token = 91 then 125 else 93

/-- The error for the character that stands at a place, or for the end of the pattern. -/
def Tells (place : Place) (next : Option UInt8) (err : PatternErr) : Prop :=
  match place with
  | .outside => (∃ c, next = some c ∧ (c = 123 ∨ c = 125 ∨ c = 91 ∨ c = 93)) ∧ err = .ILL_TOKEN
  | .behind_hash => err = .ILL_BEGIN
  | .inside token field =>
    next = some (other_closing token) ∧ err = .UNMATCH ∨
      next = some (closing token) ∧ field = [] ∧ err = .NONE_FIELD ∨
      (next = some 35 ∨ next = some 123 ∨ next = some 91 ∨ next = none) ∧ err = .ILL_END

/-! ## The scan at a place -/

/-- The state of the scan at a place. -/
def Explode.At (x : Explode) : Place → Prop
  | .outside => x.state = .STATE_INIT
  | .behind_hash => x.state = .STATE_MATCH_TOKEN
  | .inside token field => x.state = .STATE_FETCH ∧ x.token = token ∧ x.section_ = field

theorem Explode.At.unique {x : Explode} {place place' : Place} (h : x.At place)
    (h' : x.At place') : place' = place := by
  cases place <;> cases place' <;> simp_all [Explode.At]

theorem explode_loop_append (x : Explode) (q rest : Str) :
    explode_loop x (q ++ rest) = explode_loop x q >>= fun (x', early) =>
      match early with
      | none => explode_loop x' rest
      | some err => .ok (x', some err) := by
  induction q generalizing x with
  | nil => rfl
  | cons c q ih =>
    rw [List.cons_append, explode_loop, explode_loop, bind_assoc]
    cases explode_char x c with
    | error fault => rfl
    | ok next =>
      cases next with
      | error err => rfl
      | ok x' => exact ih x'

/-- The text is read up to its place. -/
theorem scan_of_ends {q : Str} {place : Place} (h : Ends q place) (hbytes : ∀ c ∈ q, c < 128) :
    ∃ x, explode_loop .init q = .ok (x, none) ∧ x.At place := by
  obtain ⟨hproper, stubs, hstubs, rfl⟩ := h
  have hwrite : ∀ c ∈ write stubs, c < 128 := fun c hc => hbytes c (List.mem_append_left _ hc)
  obtain ⟨hloop, hstate⟩ := explode_loop_write (x := .init) rfl rfl hstubs hwrite
  rw [explode_loop_append, hloop]
  cases place with
  | outside => exact ⟨_, rfl, hstate⟩
  | behind_hash => exact ⟨_, explode_loop_hash [] hstate, rfl⟩
  | inside token field =>
    obtain ⟨htoken, hfield⟩ := hproper
    have hfield_bytes : ∀ c ∈ field, c < 128 := fun c hc =>
      hbytes c (List.mem_append_right _ (List.mem_append_right _ hc))
    have hscan := explode_loop_open (field ++ []) hstate htoken
    rw [explode_loop_run _ (.inr ⟨rfl, htoken⟩) hfield hfield_bytes, List.append_nil] at hscan
    exact ⟨_, hscan, rfl, rfl, rfl⟩

/-- Between two characters the text read ends at the place of the scan. -/
theorem Explode.Ok.ends {x : Explode} {q : Str} (hx : x.Ok q) :
    ∃ place, Ends q place ∧ x.At place := by
  have hread := hx.read
  rcases hx.state with ⟨hstate, -⟩ | ⟨hstate, hempty⟩ | ⟨hstate, htoken⟩
  · rw [Explode.pending, hstate] at hread
    -- a literal that is under way is one more stub
    by_cases hempty : x.section_ = []
    · refine ⟨.outside, ⟨trivial, x.pieces, hx.pieces, ?_⟩, hstate⟩
      rw [← hread, hempty]
      rfl
    · refine ⟨.outside, ⟨trivial, x.pieces ++ [⟨.LITERAL, x.section_⟩], ?_, ?_⟩, hstate⟩
      · exact List.forall_mem_append.mpr
          ⟨hx.pieces, List.forall_mem_singleton.mpr ⟨hempty, hx.section_⟩⟩
      · rw [← hread]
        simp [Stub.write, Place.text]
  · rw [Explode.pending, hstate] at hread
    exact ⟨.behind_hash, ⟨trivial, x.pieces, hx.pieces, hread.symm⟩, hstate⟩
  · rw [Explode.pending, hstate] at hread
    exact ⟨.inside x.token x.section_,
      ⟨⟨htoken.imp And.left And.left, hx.section_⟩, x.pieces, hx.pieces, hread.symm⟩,
      hstate, rfl, rfl⟩

/-- The scan of a text without an early return. -/
theorem ends_of_scan {q : Str} {x : Explode} (hbytes : ∀ c ∈ q, c < 128)
    (h : explode_loop .init q = .ok (x, none)) : x.Ok q := by
  obtain ⟨x', early, hloop, hok⟩ := explode_loop_ok Explode.init_ok hbytes
  rw [h, Except.ok.injEq, Prod.mk.injEq] at hloop
  obtain ⟨rfl, rfl⟩ := hloop
  exact hok rfl

/-! ## The beginnings of accepted patterns -/

/-- What an accepted pattern starts with is read without an early return. -/
theorem scan_of_begins {q : Str} (h : Begins q) : ∃ x, explode_loop .init q = .ok (x, none) := by
  obtain ⟨rest, pieces, h⟩ := h
  rw [explode, explode_loop_append] at h
  cases hloop : explode_loop .init q with
  | error fault =>
    rw [hloop] at h
    cases h
  | ok out =>
    obtain ⟨x, - | err⟩ := out
    · exact ⟨x, rfl⟩
    · rw [hloop] at h
      cases h

/-- A placeholder that is under way can be completed. -/
theorem begins_of_ends {q : Str} {place : Place} (h : Ends q place) (hbytes : ∀ c ∈ q, c < 128) :
    Begins q := by
  obtain ⟨hproper, stubs, hstubs, rfl⟩ := h
  -- whatever is put behind, the stubs read so far stay
  have haccept : ∀ rest stub, place.text ++ rest = Stub.write stub → IsRun stub.value →
      (∀ c ∈ rest, c < 128) → Begins (write stubs ++ place.text) := by
    intro rest stub hrest hstub hrest_bytes
    have hwrite : write (stubs ++ [stub]) = write stubs ++ place.text ++ rest := by
      rw [List.append_assoc, hrest]
      simp
    have haccepted := explode_write
      (List.forall_mem_append.mpr ⟨hstubs, List.forall_mem_singleton.mpr hstub⟩)
      (by rw [hwrite]; exact List.forall_mem_append.mpr ⟨hbytes, hrest_bytes⟩)
    rw [hwrite] at haccepted
    exact ⟨rest, _, haccepted⟩
  cases place with
  | outside =>
    rw [Place.text, List.append_nil] at hbytes ⊢
    have haccepted := explode_write hstubs hbytes
    exact ⟨[], _, by rwa [List.append_nil]⟩
  | behind_hash =>
    exact haccept [123, 97, 125] ⟨.FIELD, [97]⟩ rfl
      ⟨List.cons_ne_nil _ _, List.forall_mem_singleton.mpr rfl⟩ (by simp)
  | inside token field =>
    obtain ⟨htoken, hfield⟩ := hproper
    have hname : IsRun (field ++ [97]) := by
      refine ⟨List.append_ne_nil_of_right_ne_nil _ (List.cons_ne_nil _ _), ?_⟩
      exact List.forall_mem_append.mpr ⟨hfield, List.forall_mem_singleton.mpr rfl⟩
    rcases htoken with rfl | rfl
    · exact haccept [97, 93] ⟨.LIST, field ++ [97]⟩ (by simp [Place.text, Stub.write]) hname
        (by simp)
    · exact haccept [97, 125] ⟨.FIELD, field ++ [97]⟩ (by simp [Place.text, Stub.write]) hname
        (by simp)

/-! ## The error -/

/-- An early return happens at one character, in front of which the scan has gone on. -/
theorem explode_loop_early {x x' : Explode} {cs : Str} {err : PatternErr}
    (h : explode_loop x cs = .ok (x', some err)) :
    ∃ q c rest, cs = q ++ c :: rest ∧ explode_loop x q = .ok (x', none) ∧
      explode_char x' c = .ok (.error err) := by
  induction cs generalizing x with
  | nil => cases h
  | cons c cs ih =>
    rw [explode_loop, run_bind_eq_ok] at h
    obtain ⟨next, hnext, h⟩ := h
    cases next with
    | error err' =>
      cases h
      exact ⟨[], c, cs, rfl, rfl, hnext⟩
    | ok y =>
      obtain ⟨q, d, rest, rfl, hq, hd⟩ := ih h
      refine ⟨c :: q, d, rest, rfl, ?_, hd⟩
      rw [explode_loop, hnext]
      exact hq

/-- The error of a round says what stands at the place. -/
theorem tells_of_char {x : Explode} {q : Str} {place : Place} {c : UInt8} {err : PatternErr}
    (hends : Ends q place) (hat : x.At place) (hc : c < 128)
    (h : explode_char x c = .ok (.error err)) : Tells place (some c) err := by
  cases place with
  | outside =>
    rw [explode_char_init hat hc, Except.ok.injEq] at h
    split at h
    · rename_i htoken
      split at h
      · cases h
      · rename_i hhash
        cases h
        refine ⟨⟨c, rfl, ?_⟩, rfl⟩
        simp only [is_token, Bool.or_eq_true, decide_eq_true_eq] at htoken
        grind
    · cases h
  | behind_hash =>
    rw [explode_char_match hat hc, Except.ok.injEq] at h
    split at h
    · cases h
    · cases h
      rfl
  | inside token field =>
    obtain ⟨hstate, rfl, rfl⟩ := hat
    obtain ⟨⟨htoken, -⟩, -⟩ := hends
    rw [explode_char_fetch hstate htoken hc, Except.ok.injEq] at h
    split at h
    · rename_i ht
      split at h
      · rename_i hend
        split at h
        · rename_i hclosing
          cases h
          -- of the two closing brackets it is the other one
          refine .inl ⟨congrArg some ?_, rfl⟩
          rcases htoken with htoken | htoken <;> rw [htoken] at hclosing ⊢ <;>
            rcases hend with rfl | rfl <;> first | rfl | exact absurd rfl hclosing
        · rename_i hclosing
          split at h
          · rename_i hempty
            cases h
            exact .inr (.inl ⟨congrArg some (not_not.mp hclosing), List.isEmpty_iff.mp hempty, rfl⟩)
          · cases h
      · rename_i hend
        cases h
        refine .inr (.inr ⟨?_, rfl⟩)
        simp only [is_token, Bool.or_eq_true, decide_eq_true_eq] at ht
        grind
    · cases h

/-- A text that the scan reads, with nothing behind it that could be read on, is the longest. -/
theorem longest_of_scan {pattern q rest : Str} {x : Explode} (hbytes : ∀ c ∈ pattern, c < 128)
    (hpattern : pattern = q ++ rest) (hloop : explode_loop .init q = .ok (x, none))
    (hstop : ∀ c, rest.head? = some c → ∃ err, explode_char x c = .ok (.error err)) :
    Longest pattern q ∧ ∃ place, Ends q place ∧ x.At place ∧
      ∀ place', Ends q place' → place' = place := by
  subst hpattern
  have hq : ∀ c ∈ q, c < 128 := fun c hc => hbytes c (List.mem_append_left _ hc)
  obtain ⟨place, hends, hat⟩ := (ends_of_scan hq hloop).ends
  refine ⟨⟨List.prefix_append q rest, begins_of_ends hends hq, ?_⟩, place, hends, hat, ?_⟩
  · intro q' hq' hbegins
    obtain ⟨y, hy⟩ := scan_of_begins hbegins
    rcases List.prefix_or_prefix_of_prefix hq' (List.prefix_append q rest) with hle | ⟨t, rfl⟩
    · exact hle
    -- a longer one would be scanned past the character in question
    rw [List.prefix_append_right_inj] at hq'
    cases t with
    | nil => rw [List.append_nil]
    | cons c t =>
      obtain ⟨rest', rfl⟩ := hq'
      obtain ⟨err, herr⟩ := hstop c rfl
      rw [explode_loop_append, hloop] at hy
      simp only [run_ok_bind, explode_loop, herr] at hy
      cases hy
  · intro place' hends'
    obtain ⟨y, hy, hat'⟩ := scan_of_ends hends' hq
    rw [hloop, Except.ok.injEq, Prod.mk.injEq] at hy
    obtain ⟨rfl, -⟩ := hy
    exact hat.unique hat'

/-- **The error of a rejected pattern** is that of the character behind the longest
beginning that some accepted pattern starts with, at the one place where that ends. -/
theorem explode_error {pattern : Str} (hbytes : ∀ c ∈ pattern, c < 128) {pieces : List Stub}
    {err : PatternErr} (h : explode pattern = .ok (false, pieces, err)) :
    ∃ q rest, pattern = q ++ rest ∧ Longest pattern q ∧
      ∃ place, Ends q place ∧ (∀ place', Ends q place' → place' = place) ∧
        Tells place rest.head? err := by
  rw [explode, run_bind_eq_ok] at h
  obtain ⟨⟨x, early⟩, hloop, h⟩ := h
  cases early with
  | some err' =>
    cases h
    obtain ⟨q, c, rest, rfl, hq, hc⟩ := explode_loop_early hloop
    have hstop : ∀ c', (c :: rest).head? = some c' →
        ∃ err, explode_char x c' = .ok (.error err) := by
      rintro _ ⟨⟩
      exact ⟨_, hc⟩
    obtain ⟨hlongest, place, hends, hat, hunique⟩ := longest_of_scan hbytes rfl hq hstop
    have hlt : c < 128 := hbytes c (List.mem_append_right q List.mem_cons_self)
    exact ⟨q, c :: rest, rfl, hlongest, place, hends, hunique, tells_of_char hends hat hlt hc⟩
  | none =>
    -- the pattern is over
    obtain ⟨hlongest, place, hends, hat, hunique⟩ :=
      longest_of_scan hbytes (List.append_nil pattern).symm hloop (by rintro _ ⟨⟩)
    refine ⟨pattern, [], (List.append_nil pattern).symm, hlongest, place, hends, hunique, ?_⟩
    cases place with
    | outside =>
      have hstate : x.state = .STATE_INIT := hat
      simp [hstate] at h
    | behind_hash =>
      have hstate : x.state = .STATE_MATCH_TOKEN := hat
      simp only [hstate] at h
      cases h
      rfl
    | inside token field =>
      simp only [hat.1] at h
      cases h
      exact .inr (.inr ⟨.inr (.inr (.inr rfl)), rfl⟩)

/-- A field without a name, behind a whole placeholder. -/
theorem explode_error_none_field :
    ∃ q rest, lit "#{a}#{}]" = q ++ rest ∧ Longest (lit "#{a}#{}]") q ∧
      ∃ place, Ends q place ∧ (∀ place', Ends q place' → place' = place) ∧
        Tells place rest.head? .NONE_FIELD := by
  have hall : (lit "#{a}#{}]").all (· < 128) = true := by decide
  have hbytes : ∀ c ∈ lit "#{a}#{}]", c < 128 := fun c hc =>
    of_decide_eq_true (List.all_eq_true.mp hall c hc)
  have hrejected : explode (lit "#{a}#{}]") = .ok (false, [⟨.FIELD, lit "a"⟩], .NONE_FIELD) := by
    decide
  exact explode_error hbytes hrejected

/-! ## The indices -/

/-- `(int)c`, `char` being signed. -/
def index (c : UInt8) : Int := c.toInt8.toInt

/-- The indices that a round of the loop uses, in their order. -/
def char_indices (x : Explode) (c : UInt8) : List Int :=
  match x.state with
  | .STATE_INIT => [index c]
  | .STATE_MATCH_TOKEN => [index c]
  | .STATE_FETCH =>
    -- `end_tokens` is asked about a token, and `token_pairs` about the bracket of an end token
    if tokens c = .ok true then
      if end_tokens c = .ok true then [index c, index c, index x.token] else [index c, index c]
    else [index c]
  | .STATE_NORMAL | .STATE_END_FETCH => []

/-- Those of the loop. What an index out of the tables reads is unknown, and nothing is
said about what comes behind it. -/
def loop_indices : Explode → Str → List Int
  | _, [] => []
  | x, c :: cs =>
    char_indices x c ++
      match explode_char x c with
      | .ok (.ok x) => loop_indices x cs
      | _ => []

/-- The indices that `explode` uses. -/
def indices (pattern : Str) : List Int := loop_indices .init pattern

/-- The tables have 128 entries. -/
def InTables (i : Int) : Prop := 0 ≤ i ∧ i ≤ 127

theorem index_inTables_iff {c : UInt8} : InTables (index c) ↔ c < 128 := by
  have hindex : index c = if 2 * c.toNat < 256 then (c.toNat : Int) else c.toNat - 256 :=
    BitVec.toInt_eq_toNat_cond c.toBitVec
  have hlt : c.toNat < 256 := c.toNat_lt
  rw [InTables, hindex, UInt8.lt_iff_toNat_lt]
  have h128 : (128 : UInt8).toNat = 128 := rfl
  split <;> omega

/-- Every round looks its character up. -/
theorem index_mem_char_indices {x : Explode} {read : Str} (hx : x.Ok read) (c : UInt8) :
    index c ∈ char_indices x c := by
  rcases hx.state with ⟨hstate, -⟩ | ⟨hstate, -⟩ | ⟨hstate, -⟩
  · simp [char_indices, hstate]
  · simp [char_indices, hstate]
  · simp only [char_indices, hstate]
    split
    · split <;> exact List.mem_cons_self
    · exact List.mem_cons_self

/-- Besides, the bracket of the placeholder under way is looked up, which is in the tables. -/
theorem char_indices_inTables {x : Explode} {read : Str} {c : UInt8} (hx : x.Ok read)
    (hc : c < 128) : ∀ i ∈ char_indices x c, InTables i := by
  have hindex : InTables (index c) := index_inTables_iff.mpr hc
  rcases hx.state with ⟨hstate, -⟩ | ⟨hstate, -⟩ | ⟨hstate, htoken⟩
  · simpa [char_indices, hstate] using hindex
  · simpa [char_indices, hstate] using hindex
  · have hbracket : InTables (index x.token) := by
      rcases htoken with ⟨h, -⟩ | ⟨h, -⟩ <;> rw [h] <;> exact index_inTables_iff.mpr (by decide)
    simp only [char_indices, hstate]
    split
    · split <;> simp [hindex, hbracket]
    · simpa using hindex

theorem loop_indices_append (x : Explode) (q rest : Str) :
    loop_indices x (q ++ rest) = loop_indices x q ++
      match explode_loop x q with
      | .ok (x', none) => loop_indices x' rest
      | _ => [] := by
  induction q generalizing x with
  | nil => rfl
  | cons c q ih =>
    rw [List.cons_append, loop_indices, loop_indices, explode_loop, List.append_assoc]
    cases hchar : explode_char x c with
    | error fault => rfl
    | ok next =>
      cases next with
      | error err => rfl
      | ok x' => exact congrArg _ (ih x')

/-- In 7 bits every index is in the tables. -/
theorem loop_indices_inTables {x : Explode} {read q : Str} (hx : x.Ok read)
    (hq : ∀ c ∈ q, c < 128) : ∀ i ∈ loop_indices x q, InTables i := by
  induction q generalizing x read with
  | nil => exact fun i hi => absurd hi List.not_mem_nil
  | cons c q ih =>
    obtain ⟨hc, hq⟩ := List.forall_mem_cons.mp hq
    rw [loop_indices]
    refine List.forall_mem_append.mpr ⟨char_indices_inTables hx hc, ?_⟩
    obtain ⟨next, hnext⟩ := explode_char_total hx hc
    cases next with
    | error err => simp [hnext]
    | ok x' =>
      rw [hnext]
      exact ih (explode_char_ok hx hc hnext) hq

/-- A byte from 128 on is looked up out of the tables. -/
theorem explode_char_undefined {x : Explode} {read : Str} {c : UInt8} (hx : x.Ok read)
    (hc : ¬ c < 128) : explode_char x c = .error .undefined := by
  have htokens : tokens c = .error .undefined := if_neg hc
  have hpairs : token_pairs c = .error .undefined := if_neg hc
  rcases hx.state with ⟨hstate, -⟩ | ⟨hstate, -⟩ | ⟨hstate, -⟩
  · simp [explode_char, hstate, htokens]
  · simp [explode_char, hstate, hpairs]
  · simp [explode_char, hstate, htokens]

/-- The indices are those that `explode` reads at: it faults exactly where one of them is out
of the tables. -/
theorem explode_loop_undefined_iff {x : Explode} {read cs : Str} (hx : x.Ok read) :
    explode_loop x cs = .error .undefined ↔ ¬ ∀ i ∈ loop_indices x cs, InTables i := by
  induction cs generalizing x read with
  | nil => exact iff_of_false nofun (not_not_intro fun i hi => absurd hi List.not_mem_nil)
  | cons c cs ih =>
    rw [explode_loop, loop_indices, List.forall_mem_append]
    by_cases hc : c < 128
    · rw [and_iff_right (char_indices_inTables hx hc)]
      obtain ⟨next, hnext⟩ := explode_char_total hx hc
      cases next with
      | error err => simp [hnext]
      | ok x' =>
        rw [hnext]
        exact ih (explode_char_ok hx hc hnext)
    · refine iff_of_true (by rw [explode_char_undefined hx hc]; rfl) ?_
      rintro ⟨h, -⟩
      exact hc (index_inTables_iff.mp (h _ (index_mem_char_indices hx c)))

/-- **The indices of `explode`** are in the tables exactly when the bytes of the pattern are
below 128, or what stands in front of the first that is not does not end at any place of a
well-formed pattern: then the scan has stopped before. -/
theorem indices_inTables_iff (pattern : Str) :
    (∀ i ∈ indices pattern, InTables i) ↔
      (∀ c ∈ pattern, c < 128) ∨ ¬ ∃ place, Ends (pattern.takeWhile (· < 128)) place := by
  have hq : ∀ c ∈ pattern.takeWhile (· < 128), c < 128 := fun c hc => by
    simpa using List.mem_takeWhile_imp hc
  have hsplit : pattern.takeWhile (· < 128) ++ pattern.dropWhile (· < 128) = pattern :=
    List.takeWhile_append_dropWhile
  obtain ⟨x, early, hloop, hok⟩ := explode_loop_ok Explode.init_ok hq
  have happend := loop_indices_append .init (pattern.takeWhile (· < 128))
    (pattern.dropWhile (· < 128))
  rw [hsplit, hloop] at happend
  rw [indices, happend]
  have hfirst := loop_indices_inTables Explode.init_ok hq
  cases early with
  | some err =>
    -- an error is returned before the first byte from 128 on
    refine iff_of_true (List.forall_mem_append.mpr ⟨hfirst, by simp⟩) (.inr ?_)
    rintro ⟨place, hends⟩
    obtain ⟨y, hy, -⟩ := scan_of_ends hends hq
    rw [hloop] at hy
    cases hy
  | none =>
    have hx : x.Ok (pattern.takeWhile (· < 128)) := hok rfl
    obtain ⟨place, hends, -⟩ := hx.ends
    cases hrest : pattern.dropWhile (· < 128) with
    | nil =>
      rw [hrest, List.append_nil] at hsplit
      rw [hsplit] at hq
      exact iff_of_true (List.forall_mem_append.mpr ⟨hfirst, by simp [loop_indices]⟩) (.inl hq)
    | cons c rest =>
      have hc : ¬ c < 128 := by
        have hhead := List.head?_dropWhile_not (fun c : UInt8 => decide (c < 128)) pattern
        rw [hrest] at hhead
        simpa using hhead
      have hmem : c ∈ pattern := by
        rw [← hsplit, hrest]
        exact List.mem_append_right _ List.mem_cons_self
      refine iff_of_false ?_ ?_
      · intro h
        refine hc (index_inTables_iff.mp (h _ (List.mem_append_right _ ?_)))
        simp only [loop_indices]
        exact List.mem_append_left _ (index_mem_char_indices hx c)
      · rintro (hall | hno)
        · exact hc (hall c hmem)
        · exact hno ⟨place, hends⟩

/-- A literal in UTF-8. -/
theorem index_out_of_tables : ∃ i ∈ indices [195, 169], ¬ InTables i := by
  refine ⟨-61, by decide, ?_⟩
  unfold InTables
  decide

end Rellaf.SqlPattern
