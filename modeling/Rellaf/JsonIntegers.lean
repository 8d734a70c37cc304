/-
The integers of a document, and what the plains they are read into hold afterwards.

A conversion throws on a number that does not fit, but `CHAR`, `INT16` and `UINT16` are
converted as 32 bits and then cast. So a number between the two widths is stored with
its upper bits cut off (`holds_integers_iff`).
-/
import Rellaf.JsonPlaces
import Rellaf.PlainNumber

set_option autoImplicit false

open Rellaf.Cpp PathWalk

namespace Rellaf.JsonToModel

open Models

def integer : Json → Option Int
  | .int v => some v.toInt
  | .uint v => some v.toNat
  | _ => none

/-! ## One plain -/

/-- What is stored has the bits of the integer, as many as the kind has. -/
theorem number_stored {v : PlainVal} (hrange : v.kind.range.isSome = true) (n : Int) :
    (stored n v).kind = v.kind ∧
      ∃ r, (stored n v).number = some r ∧ (2 ^ v.kind.width : Int) ∣ r - n := by
  cases v with
  | CHAR v =>
    refine ⟨rfl, n.bmod 256, ?_, Int.dvd_bmod_sub_self⟩
    rw [stored, PlainVal.number, Int32.toInt8_ofInt, Int8.toInt8_toUInt8, Int8.toInt_ofInt]
  | INT16 v =>
    refine ⟨rfl, n.bmod 65536, ?_, Int.dvd_bmod_sub_self⟩
    rw [stored, PlainVal.number, Int32.toInt16_ofInt, Int16.toInt_ofInt]
  | INT v =>
    refine ⟨rfl, n.bmod 4294967296, ?_, Int.dvd_bmod_sub_self⟩
    rw [stored, PlainVal.number, Int32.toInt_ofInt]
  | INT64 v =>
    refine ⟨rfl, n.bmod 18446744073709551616, ?_, Int.dvd_bmod_sub_self⟩
    rw [stored, PlainVal.number, Int64.toInt_ofInt]
  | UINT16 v =>
    refine ⟨rfl, _, rfl, ?_⟩
    rw [UInt32.toNat_toUInt16, UInt32.ofInt, UInt32.toNat_ofNat']
    simp only [PlainVal.kind, ModelType.width]
    omega
  | UINT32 v =>
    refine ⟨rfl, _, rfl, ?_⟩
    rw [UInt32.ofInt, UInt32.toNat_ofNat']
    simp only [PlainVal.kind, ModelType.width]
    omega
  | UINT64 v =>
    refine ⟨rfl, _, rfl, ?_⟩
    rw [UInt64.ofInt, UInt64.toNat_ofNat']
    simp only [PlainVal.kind, ModelType.width]
    omega
  | BOOL v => cases hrange
  | FLOAT v => cases hrange
  | DOUBLE v => cases hrange
  | STR v => cases hrange

theorem as_integer_of_integer {json : Json} {lo hi n r : Int} (hn : integer json = some n)
    (h : json.as_integer lo hi = .ok r) : r = n ∧ lo ≤ n ∧ n ≤ hi := by
  unfold Json.as_integer at h
  split at h
  next hin =>
    cases h
    cases json with
    | int v =>
      cases hn
      exact ⟨rfl, of_decide_eq_true hin⟩
    | uint v =>
      cases hn
      exact ⟨rfl, of_decide_eq_true hin⟩
    | _ => cases hn
  next => cases h

/-- The kinds that are read through a wider one. -/
def narrow_kinds : List ModelType := [.CHAR, .INT16, .UINT16]

/-- Of the other kinds the conversion takes what they hold. -/
theorem holds_of_conversion {type : ModelType} {lo hi n : Int}
    (hrange : conversion_range type = some (lo, hi)) (hwide : type ∉ narrow_kinds) (hlo : lo ≤ n)
    (hhi : n ≤ hi) : type.Holds n := by
  cases type <;> cases hrange <;> first
    | exact ⟨_, rfl, hlo, hhi⟩
    | exact absurd (by decide) hwide

theorem conversion_range_isSome {type : ModelType} (h : type.range.isSome = true) :
    (conversion_range type).isSome = true := by
  cases type <;> first | rfl | cases h

/-- **One integer into one plain.** The value has its bits, and only a plain of a narrow
kind takes one that it does not hold. -/
theorem json_to_plain_integer {json : Json} {p p' : Plain} {n : Int}
    (hp : Model.Typed (.plain p)) (hn : integer json = some n)
    (hrange : p.type.range.isSome = true) (h : json_to_plain json p = .ok p') :
    p.type = p.val.kind ∧ p'.val = stored n p.val ∧ (p.type ∉ narrow_kinds → p.type.Holds n) := by
  have htype : p.type = p.val.kind := by
    refine hp.resolve_right fun hno => ?_
    rw [hno] at hrange
    cases hrange
  have hnumeric : json.is_numeric = true := by
    cases json <;> first | rfl | cases hn
  obtain ⟨⟨lo, hi⟩, hconv⟩ := Option.isSome_iff_exists.mp (conversion_range_isSome hrange)
  rw [json_to_plain_number htype hnumeric hconv] at h
  obtain ⟨r, hr, h⟩ := run_bind_eq_ok.mp h
  obtain ⟨rfl, hlo, hhi⟩ := as_integer_of_integer hn hr
  cases h
  exact ⟨htype, rfl, fun hwide => holds_of_conversion hconv hwide hlo hhi⟩

/-! ## Every place -/

/-- An integer of the document and a plain of an integer kind at the same place. -/
structure ReadInto (json : Json) (m : Model) (path : List Step) (n : Int) (p : Plain) : Prop where
  value : ∃ j, walk Json.child json path = some j ∧ integer j = some n
  part : walk model_child m path = some (.plain p)
  integer_kind : p.type.range.isSome = true

/-- A plain that an integer is read into holds it if it is in the range of its kind, and
otherwise what it held before. -/
def HoldsIntegers (json : Json) (m m' : Model) : Prop :=
  ∀ path n p, ReadInto json m path n p → ∃ p', walk model_child m' path = some (.plain p') ∧
    (p.type.Holds n → p'.val.number = some n) ∧ (¬ p.type.Holds n → p'.val = p.val)

/-- An integer that is read into a plain of a narrow kind is in its range, or has the bits
of the value that is there. -/
def NarrowFits (json : Json) (m : Model) : Prop :=
  ∀ path n p, ReadInto json m path n p → p.type ∈ narrow_kinds →
    p.type.Holds n ∨ ∃ old, p.val.number = some old ∧ (2 ^ p.type.width : Int) ∣ old - n

/-- The value at one place, by the bits of what was there. -/
theorem stored_iff {v : PlainVal} (hrange : v.kind.range.isSome = true) (n : Int) :
    ((v.kind.Holds n → (stored n v).number = some n) ∧
      (¬ v.kind.Holds n → stored n v = v)) ↔
    (v.kind.Holds n ∨ ∃ old, v.number = some old ∧ (2 ^ v.kind.width : Int) ∣ old - n) := by
  obtain ⟨hkind, r, hr, hbits⟩ := number_stored hrange n
  have hholds : v.kind.Holds r := by
    rw [← hkind]
    exact PlainVal.holds_number hr
  by_cases hn : v.kind.Holds n
  · refine iff_of_true ⟨fun _ => ?_, fun hnot => (hnot hn).elim⟩ (.inl hn)
    rw [hr, ModelType.eq_of_holds hholds hn hbits]
  · constructor
    · rintro ⟨-, hsame⟩
      rw [hsame hn] at hr
      exact .inr ⟨r, hr, hbits⟩
    · rintro (hin | ⟨old, hold, hbits'⟩)
      · exact (hn hin).elim
      · refine ⟨fun hin => (hn hin).elim, fun _ => ?_⟩
        -- two values of the kind with the same bits
        have hsame : r = old := by
          refine ModelType.eq_of_holds hholds (PlainVal.holds_number hold) ?_
          have hsub := Int.dvd_sub hbits hbits'
          rwa [sub_sub_sub_cancel_right] at hsub
        rw [hsame] at hr
        exact PlainVal.eq_of_number hkind hr hold

/-- **When integers arrive.** Every plain holds the integer that is read into it, or what it
held before if the integer does not fit, exactly if the narrow kinds get integers that
fit, or that would be cut to what is there. -/
theorem holds_integers_iff (json : Json) (m m' : Model) (hjson : json.Distinct)
    (hm : m.Proper Model.Typed) (h : json_to_model_inner json m = .ok m') :
    HoldsIntegers json m m' ↔ NarrowFits json m := by
  -- what is at a place afterwards
  have hplace : ∀ {path n p}, ReadInto json m path n p → ∃ p',
      walk model_child m' path = some (.plain p') ∧ p.type = p.val.kind ∧
        p'.val = stored n p.val ∧ (p.type ∉ narrow_kinds → p.type.Holds n) := by
    intro path n p hread
    obtain ⟨j, hj, hn⟩ := hread.value
    have hnull : j ≠ .null := by
      rintro rfl
      cases hn
    obtain ⟨x', hx', hx⟩ := read_at hjson hm h hj hnull hread.part
    rw [json_to_model_plain] at hx
    obtain ⟨p', hp', hx⟩ := run_bind_eq_ok.mp hx
    cases hx
    have hproper := (walk_eq_some_iff.mp hread.part).preserves (fun _ _ _ => proper_child) hm
    have htyped : Model.Typed (.plain p) := by
      cases hproper with
      | plain hplain => exact hplain
    exact ⟨p', hx', json_to_plain_integer htyped hn hread.integer_kind hp'⟩
  constructor
  · intro hall path n p hread _
    obtain ⟨p', hp', htype, hval, -⟩ := hplace hread
    obtain ⟨q, hq, hholds⟩ := hall path n p hread
    obtain rfl : p' = q := by
      rw [hp'] at hq
      cases hq
      rfl
    rw [htype, hval] at hholds
    rw [htype]
    exact (stored_iff (by rw [← htype]; exact hread.integer_kind) n).mp hholds
  · intro hfits path n p hread
    obtain ⟨p', hp', htype, hval, hwide⟩ := hplace hread
    refine ⟨p', hp', ?_⟩
    have hcases : p.type.Holds n ∨
        ∃ old, p.val.number = some old ∧ (2 ^ p.type.width : Int) ∣ old - n := by
      by_cases hnarrow : p.type ∈ narrow_kinds
      · exact hfits path n p hread hnarrow
      · exact .inl (hwide hnarrow)
    have hrange := hread.integer_kind
    rw [htype] at hcases hrange
    rw [htype, hval]
    exact (stored_iff hrange n).mpr hcases

/-- `[7]` into a list of one `char`. -/
theorem holds_integers_char :
    HoldsIntegers (.array [.int 7]) (.list [] [.plain ⟨[], .CHAR, .CHAR 65, none, none⟩])
        (.list [] [.plain ⟨[], .CHAR, .CHAR 7, none, none⟩]) ↔
      NarrowFits (.array [.int 7]) (.list [] [.plain ⟨[], .CHAR, .CHAR 65, none, none⟩]) :=
  holds_integers_iff _ _ _ (.array (by simpa using Json.Distinct.int 7))
    (.list (by simpa using Model.Proper.plain (.inl rfl))) rfl

/-- 300 into a `char`, which holds 44 afterwards. -/
theorem char_cuts_integer :
    ¬ ∀ (json : Json) (m m' : Model), json.Distinct → m.Proper Model.Typed →
      json_to_model_inner json m = .ok m' → HoldsIntegers json m m' := by
  intro hall
  have hread : ReadInto (.int 300) (.plain ⟨[], .CHAR, .CHAR 65, none, none⟩) [] 300
      ⟨[], .CHAR, .CHAR 65, none, none⟩ := ⟨⟨_, rfl, rfl⟩, rfl, rfl⟩
  obtain ⟨p', hp', -, hsame⟩ := hall (.int 300) (.plain ⟨[], .CHAR, .CHAR 65, none, none⟩)
    (.plain ⟨[], .CHAR, .CHAR 44, none, none⟩) (.int 300) (.plain (.inl rfl)) rfl [] 300 _ hread
  cases hp'
  cases hsame (by decide)

end Rellaf.JsonToModel
