/-
The arguments of `prepare_statement`: their order does not matter.

`collect_models` files each argument under its tag and keeps nothing of the order but
which one was first under a tag (`collect_models_perm`). With two arguments or more no
stub takes the first entry of the map, so the tags are all that it is found by.
-/
import Rellaf.SqlStatement

set_option autoImplicit false

open Rellaf.Cpp Rellaf.Models

namespace Rellaf.Sql

/-- Under two different keys the order of the insertions does not show. -/
theorem insertIfNew_comm {V : Type} {k k' : Str} (h : k ≠ k') (v v' : V)
    (m : Std.ExtTreeMap Str V) :
    (m.insertIfNew k v).insertIfNew k' v' = (m.insertIfNew k' v').insertIfNew k v := by
  apply Std.ExtTreeMap.ext_getElem?
  intro j
  simp only [Std.ExtTreeMap.getElem?_insertIfNew, Std.ExtTreeMap.mem_insertIfNew,
    Std.LawfulEqOrd.compare_eq_iff_eq]
  by_cases hk : k = j
  · have hk' : k' ≠ j := fun heq => h (hk.trans heq.symm)
    simp [hk, hk']
  · by_cases hk' : k' = j
    · simp [hk, hk']
    · simp [hk, hk']

/-- Only a null pointer has no tag. -/
theorem rellaf_tag_eq_error {m : Model} {fault : Fault} (h : m.rellaf_tag = .error fault) :
    fault = .undefined := by
  cases m with
  | null =>
    cases h
    rfl
  | _ => cases h

theorem collect_models_swap {a b : Model} (h : a.rellaf_tag ≠ b.rellaf_tag) (args : List Model)
    (models : Std.ExtTreeMap Str Model) :
    collect_models (a :: b :: args) models = collect_models (b :: a :: args) models := by
  simp only [collect_models]
  cases ha : a.rellaf_tag with
  | error fault =>
    obtain rfl := rellaf_tag_eq_error ha
    cases hb : b.rellaf_tag with
    | error fault' =>
      -- two null pointers fault alike
      obtain rfl := rellaf_tag_eq_error hb
      rfl
    | ok tag' => rfl
  | ok tag =>
    cases hb : b.rellaf_tag with
    | error fault' => rfl
    | ok tag' =>
      have htag : tag ≠ tag' := by
        rintro rfl
        exact h (ha.trans hb.symm)
      simp only [run_ok_bind]
      rw [insertIfNew_comm htag]

/-- The map is a matter of the arguments and their tags. -/
theorem collect_models_perm {args args' : List Model} (hperm : args.Perm args')
    (htags : args.Pairwise fun a b => a.rellaf_tag ≠ b.rellaf_tag)
    (models : Std.ExtTreeMap Str Model) :
    collect_models args models = collect_models args' models := by
  induction hperm generalizing models with
  | nil => rfl
  | cons a _ ih =>
    obtain ⟨-, htags⟩ := List.pairwise_cons.mp htags
    simp only [collect_models, ih htags]
  | swap a b args =>
    have hne := (List.pairwise_cons.mp htags).1 a List.mem_cons_self
    exact collect_models_swap hne args models
  | trans hperm _ ih ih' =>
    -- the tags are different in any order
    have htags' := (hperm.pairwise_iff fun h => Ne.symm h).mp htags
    rw [ih htags, ih' htags']

/-- **The order of the arguments.** A call whose arguments have different tags ends the
same way with the arguments in any other order: the flag, the statement, and the fault
where there is one. -/
theorem prepare_statement_perm (env : Env) (b : SqlBuilder)
    (sqlescape : Option MysqlEscape.SqlEscape) (method : Str) (args args' : List Model)
    (hperm : args.Perm args')
    (htags : args.Pairwise fun a b => a.rellaf_tag ≠ b.rellaf_tag) :
    prepare_statement env b sqlescape method args =
      prepare_statement env b sqlescape method args' := by
  rw [prepare_statement, prepare_statement, collect_models_perm hperm htags, hperm.length_eq]

/-- An argument with the tag and one number member, `id`. -/
def id_arg (tag : Str) (n : Int32) (text : Str) : Model :=
  let p : Plain := ⟨[], .INT, .INT n, none, some fun _ => text⟩
  .object tag ⟨lit "Arg", [(lit "id", p)]⟩ [(lit "id", p)] [] []

/-- `#{a.id},#{b.id}` with the arguments tagged `a` and `b`, either one first. -/
theorem prepare_statement_perm_two :
    let stubs : List SqlPattern.Stub :=
      [⟨.FIELD, lit "a.id"⟩, ⟨.LITERAL, lit ","⟩, ⟨.FIELD, lit "b.id"⟩]
    let a := id_arg (lit "a") 1 (lit "1")
    let b := id_arg (lit "b") 2 (lit "2")
    SqlBuilder.init.reg (lit "query") (lit "#\x7ba.id\x7d,#\x7bb.id\x7d") =
      .ok (builder_of (lit "query") (lit "#\x7ba.id\x7d,#\x7bb.id\x7d") stubs) ∧
    prepare_statement ⟨true, fun _ => true⟩
        (builder_of (lit "query") (lit "#\x7ba.id\x7d,#\x7bb.id\x7d") stubs) none (lit "query")
        [a, b] = .ok (none, true, lit "1,2") ∧
    prepare_statement ⟨true, fun _ => true⟩
        (builder_of (lit "query") (lit "#\x7ba.id\x7d,#\x7bb.id\x7d") stubs) none (lit "query")
        [b, a] = .ok (none, true, lit "1,2") := by
  intro stubs a b
  have hdifferent : a.rellaf_tag ≠ b.rellaf_tag := fun h => absurd (Except.ok.inj h) (by decide)
  have hfirst : prepare_statement ⟨true, fun _ => true⟩
      (builder_of (lit "query") (lit "#\x7ba.id\x7d,#\x7bb.id\x7d") stubs) none (lit "query")
      [a, b] = .ok (none, true, lit "1,2") := rfl
  refine ⟨reg_eq (by decide), hfirst, ?_⟩
  rw [← hfirst]
  exact (prepare_statement_perm ⟨true, fun _ => true⟩ _ none (lit "query") [a, b] [b, a]
    (List.Perm.swap b a []) (by simpa using hdifferent)).symm

end Rellaf.Sql
