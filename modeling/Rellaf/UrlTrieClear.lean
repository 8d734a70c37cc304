/-
`UrlTrie::clear`, which the destructor calls: what it deletes of the nodes in memory.

A call deletes the nodes below its own along literals, and the node of a variable without
what is below that (`Freed`). Nothing is deleted twice and no deleted node is read
(`clear_cleared`). So a trie that goes leaves the nodes behind a variable in memory
(`clear_leaks_iff`).
-/
import Rellaf.UrlTrieMemory

set_option autoImplicit false

open Rellaf.Cpp

namespace Rellaf.UrlTrie.Memory

variable {m : Memory}

/-- The walk to a node that `clear` deletes: a variable is its last segment or none. -/
def Freed (σ : List Seg) : Prop := σ ≠ [] ∧ Seg.var ∉ σ.dropLast

theorem freed_lit_cons {s : Str} {σ : List Seg} : Freed (.lit s :: σ) ↔ σ = [] ∨ Freed σ := by
  cases σ with
  | nil => simp [Freed]
  | cons c σ => simp [Freed]

theorem freed_var_cons {σ : List Seg} : Freed (.var :: σ) ↔ σ = [] := by
  cases σ with
  | nil => simp [Freed]
  | cons c σ => simp [Freed]

/-- What a call of `clear` has done. -/
structure Cleared (m : Memory) (a : Nat) (m' : Memory) : Prop where
  self : m'.cells a = (m.cells a).map fun c => { c with nexts := [], var := ([], none) }
  freed : ∀ σ b, Freed σ → m.follow a σ = some b → m'.cells b = none
  kept : ∀ b, b ≠ a → (∀ σ, Freed σ → m.follow a σ ≠ some b) → m'.cells b = m.cells b

/-! ## Steps -/

theorem read_of_cell {a : Nat} {c : Cell} (h : m.cells a = some c) : m.read (some a) = .ok c := by
  simp only [read, Option.bind_some, h]

/-- What is at one address changes. -/
def set (m : Memory) (a : Nat) (c : Option Cell) : Memory :=
  ⟨Function.update m.cells a c, m.next⟩

@[simp] theorem set_cells_self {a : Nat} {c : Option Cell} : (m.set a c).cells a = c :=
  Function.update_self ..

theorem set_cells_of_ne {a b : Nat} {c : Option Cell} (h : b ≠ a) :
    (m.set a c).cells b = m.cells b :=
  Function.update_of_ne h _ _

theorem write_of_cell {a : Nat} {c : Cell} (h : m.cells a = some c) (f : Cell → Cell) :
    m.write (some a) f = .ok (m.set a (some (f c))) := by
  simp only [write, h]
  rfl

theorem delete_of_cell {a : Nat} {c : Cell} (h : m.cells a = some c) :
    m.delete (some a) = .ok (m.set a none) := by
  simp only [delete, h]
  rfl

/-- Walks over nodes that are the same. -/
theorem follow_congr {m' : Memory} {a : Nat}
    (h : ∀ σ b, m.follow a σ = some b → m'.cells b = m.cells b) (σ : List Seg) :
    m'.follow a σ = m.follow a σ := by
  induction σ using List.reverseRecOn with
  | nil => rfl
  | append_singleton σ c ih =>
    rw [follow_concat, follow_concat, ih]
    cases hb : m.follow a σ with
    | none => rfl
    | some b => rw [Option.bind_some, Option.bind_some, child, child, h σ b hb]

/-- The nodes below a literal are a tree as well. -/
theorem Shaped.below {a q : Nat} {c : Seg} (h : m.Shaped a) (hq : m.child a c = some q) :
    m.Shaped q := by
  have hfollow : ∀ σ, m.follow q σ = m.follow a (c :: σ) := by
    intro σ
    rw [follow, hq, Option.bind_some]
  refine ⟨fun σ b hb => h.sound (c :: σ) b ?_, fun σ τ b hσ hτ => ?_⟩
  · rwa [← hfollow]
  · rw [hfollow] at hσ hτ
    exact (List.cons.inj (h.inj _ _ b hσ hτ)).2

/-! ## The loop over the literals -/

/-- The loop has been through the entries of `done`. -/
structure Clearing (m : Memory) (a : Nat) (c : Cell) (done : List (Str × Option Nat))
    (m₁ : Memory) : Prop where
  self : ∃ nexts, m₁.cells a = some { c with nexts := nexts }
  freed : ∀ entry ∈ done, ∀ σ b, Freed (.lit entry.1 :: σ) →
    m.follow a (.lit entry.1 :: σ) = some b → m₁.cells b = none
  kept : ∀ b, b ≠ a → (∀ entry ∈ done, ∀ σ, Freed (.lit entry.1 :: σ) →
    m.follow a (.lit entry.1 :: σ) ≠ some b) → m₁.cells b = m.cells b

section loop

variable {fuel a : Nat} {c : Cell}

/-- No walk leads back to where it starts. -/
theorem Shaped.ne_self (h : m.Shaped a) {d : Seg} {σ : List Seg} {b : Nat}
    (hb : m.follow a (d :: σ) = some b) : b ≠ a := by
  rintro rfl
  cases h.inj (d :: σ) [] b hb rfl

/-- One entry: what is below it, and the node itself. -/
theorem clear_entry (hclear : ∀ {m : Memory} {q : Nat}, m.Shaped q →
      (∀ σ b, m.follow q σ = some b → σ.length < fuel) →
      ∃ m', clear fuel (some q) m = .ok m' ∧ m.Cleared q m')
    (h : m.Shaped a) (hfuel : ∀ σ b, m.follow a σ = some b → σ.length < fuel + 1)
    {done : List (Str × Option Nat)} {m₁ : Memory} (hdone : m.Clearing a c done m₁) {s : Str}
    {q : Nat} (hs : s ∉ done.map Prod.fst) (hq : m.child a (.lit s) = some q) :
    ∃ m', (do
        let m ← clear fuel (some q) m₁
        let m ← m.delete (some q)
        m.write (some a) fun c => { c with nexts := MemberMap.put c.nexts s none }) = .ok m' ∧
      m.Clearing a c (done ++ [(s, some q)]) m' := by
  have hfollow : ∀ σ, m.follow a (.lit s :: σ) = m.follow q σ := by
    intro σ
    rw [follow, hq, Option.bind_some]
  -- what is below the entry is as it was
  have hsame : ∀ σ b, m.follow q σ = some b → m₁.cells b = m.cells b := by
    intro σ b hb
    rw [← hfollow] at hb
    refine hdone.kept b (h.ne_self hb) fun entry hentry τ _ hτ => hs ?_
    have heq := (List.cons.inj (h.inj _ _ b hτ hb)).1
    rw [← Seg.lit.inj heq]
    exact List.mem_map_of_mem hentry
  have hfollow₁ : ∀ σ, m₁.follow q σ = m.follow q σ := follow_congr hsame
  have hshaped : m₁.Shaped q := by
    refine ⟨fun σ b hb => ?_, fun σ τ b hσ hτ => ?_⟩
    · rw [hfollow₁] at hb
      obtain ⟨c', hc', hrest⟩ := (h.below hq).sound σ b hb
      exact ⟨c', (hsame σ b hb).trans hc', hrest⟩
    · rw [hfollow₁] at hσ hτ
      exact (h.below hq).inj σ τ b hσ hτ
  obtain ⟨m₂, hcall, hcleared⟩ := hclear hshaped fun σ b hb => by
    rw [hfollow₁, ← hfollow] at hb
    exact Nat.lt_of_succ_lt_succ (hfuel _ b hb)
  have hself : m.follow a [.lit s] = some q := by rw [hfollow]; rfl
  have hqa : q ≠ a := h.ne_self hself
  obtain ⟨cq, hcq, -⟩ := hshaped.sound [] q rfl
  have hq₂ : m₂.cells q = some { cq with nexts := [], var := ([], none) } := by
    rw [hcleared.self, hcq]
    rfl
  have ha₂ : m₂.cells a = m₁.cells a := by
    refine hcleared.kept a hqa.symm fun σ _ hσ => ?_
    rw [hfollow₁, ← hfollow] at hσ
    exact h.ne_self hσ rfl
  obtain ⟨nexts, ha₁⟩ := hdone.self
  have ha₃ : (m₂.set q none).cells a = some { c with nexts := nexts } := by
    rw [set_cells_of_ne hqa.symm, ha₂, ha₁]
  refine ⟨(m₂.set q none).set a (some { c with nexts := MemberMap.put nexts s none }), ?_, ?_⟩
  · rw [hcall, run_ok_bind, delete_of_cell hq₂, run_ok_bind, write_of_cell ha₃]
  -- the nodes that are left
  have hcells : ∀ b, b ≠ a → ((m₂.set q none).set a
      (some { c with nexts := MemberMap.put nexts s none })).cells b =
        if b = q then none else m₂.cells b := by
    intro b hb
    rw [set_cells_of_ne hb]
    split
    next heq => rw [heq, set_cells_self]
    next hne => rw [set_cells_of_ne hne]
  refine ⟨⟨_, set_cells_self⟩, ?_, ?_⟩
  · intro entry hentry σ b hσ hb
    have hba := h.ne_self hb
    rw [hcells b hba]
    split
    · rfl
    next hbq =>
    rcases List.mem_append.mp hentry with hentry | hentry
    · -- deleted before, and not used again
      have hnone := hdone.freed entry hentry σ b hσ hb
      rw [hcleared.kept b hbq, hnone]
      intro τ _ hτ
      rw [hfollow₁] at hτ
      obtain ⟨c', hc', -⟩ := (h.below hq).sound τ b hτ
      rw [hsame τ b hτ, hc'] at hnone
      cases hnone
    · obtain rfl := List.mem_singleton.mp hentry
      rw [hfollow] at hb
      rcases freed_lit_cons.mp hσ with rfl | hσ
      · exact absurd (Option.some.inj hb).symm hbq
      · exact hcleared.freed σ b hσ (by rw [hfollow₁, hb])
  · intro b hba hnot
    have hlast := hnot (s, some q) (List.mem_append_right _ List.mem_cons_self)
    have hbq : b ≠ q := by
      rintro rfl
      exact hlast [] (freed_lit_cons.mpr (.inl rfl)) (by rw [hfollow]; rfl)
    rw [hcells b hba, if_neg hbq, hcleared.kept b hbq, hdone.kept b hba]
    · exact fun entry hentry => hnot entry (List.mem_append_left _ hentry)
    · intro σ hσ hb
      rw [hfollow₁] at hb
      exact hlast σ (freed_lit_cons.mpr (.inr hσ)) (by rw [hfollow, hb])

/-- The entries that are left. -/
theorem clear_entries (hclear : ∀ {m : Memory} {q : Nat}, m.Shaped q →
      (∀ σ b, m.follow q σ = some b → σ.length < fuel) →
      ∃ m', clear fuel (some q) m = .ok m' ∧ m.Cleared q m')
    (h : m.Shaped a) (hfuel : ∀ σ b, m.follow a σ = some b → σ.length < fuel + 1)
    (rest : List (Str × Option Nat)) :
    ∀ {done : List (Str × Option Nat)} {m₁ : Memory}, m.Clearing a c done m₁ →
      ((done ++ rest).map Prod.fst).Nodup →
      (∀ entry ∈ rest, ∃ q, entry.2 = some q ∧ m.child a (.lit entry.1) = some q) →
      ∃ m', rest.foldlM (fun m entry => do
          let m ← clear fuel entry.2 m
          let m ← m.delete entry.2
          m.write (some a) fun c => { c with nexts := MemberMap.put c.nexts entry.1 none }) m₁ =
            .ok m' ∧ m.Clearing a c (done ++ rest) m' := by
  induction rest with
  | nil =>
    intro done m₁ hdone _ _
    rw [List.append_nil]
    exact ⟨m₁, rfl, hdone⟩
  | cons entry rest ih =>
    intro done m₁ hdone hnodup hentries
    obtain ⟨s, p⟩ := entry
    obtain ⟨q, rfl, hq⟩ := hentries (s, p) List.mem_cons_self
    have hs : s ∉ done.map Prod.fst := by
      rw [List.map_append, List.nodup_append] at hnodup
      exact fun hmem => hnodup.2.2 s hmem s (by simp) rfl
    obtain ⟨m₂, hentry, hdone₂⟩ := clear_entry hclear h hfuel hdone hs hq
    rw [List.append_cons] at hnodup ⊢
    obtain ⟨m', hrest, hdone'⟩ :=
      ih hdone₂ hnodup fun entry hentry => hentries entry (List.mem_cons_of_mem _ hentry)
    refine ⟨m', ?_, hdone'⟩
    rw [List.foldlM_cons, hentry, run_ok_bind]
    exact hrest

end loop

/-- The variable of a node, behind the loop. -/
theorem clear_var {a : Nat} {c : Cell} (ha : m.cells a = some c)
    (hvar : ∀ q, c.var.2 = some q → q ≠ a ∧ ∃ c', m.cells q = some c') :
    ∃ m', (do
        let c ← m.read (some a)
        let m ← m.delete c.var.2
        m.write (some a) fun c => { c with var := ([], none) }) = .ok m' ∧
      m'.cells a = some { c with var := ([], none) } ∧
      ∀ b, b ≠ a → m'.cells b = if c.var.2 = some b then none else m.cells b := by
  rw [read_of_cell ha, run_ok_bind]
  cases hptr : c.var.2 with
  | none =>
    refine ⟨m.set a (some { c with var := ([], none) }), ?_, set_cells_self, fun b hb => ?_⟩
    · rw [delete, run_ok_bind, write_of_cell ha]
    · rw [set_cells_of_ne hb, if_neg (by simp)]
  | some q =>
    obtain ⟨hqa, c', hc'⟩ := hvar q hptr
    have ha' : (m.set q none).cells a = some c := by rw [set_cells_of_ne hqa.symm, ha]
    refine ⟨(m.set q none).set a (some { c with var := ([], none) }), ?_, set_cells_self,
      fun b hb => ?_⟩
    · rw [delete_of_cell hc', run_ok_bind, write_of_cell ha']
    · rw [set_cells_of_ne hb]
      by_cases hbq : b = q
      · rw [hbq, set_cells_self, if_pos rfl]
      · rw [set_cells_of_ne hbq, if_neg fun heq => hbq (Option.some.inj heq).symm]

/-- **What a call of `clear` does.** It reads and deletes no deleted node. -/
theorem clear_cleared (fuel : Nat) :
    ∀ {m : Memory} {a : Nat}, m.Shaped a →
      (∀ σ b, m.follow a σ = some b → σ.length < fuel) →
      ∃ m', clear fuel (some a) m = .ok m' ∧ m.Cleared a m' := by
  induction fuel with
  | zero => exact fun h hfuel => absurd (hfuel [] _ rfl) (Nat.not_lt_zero _)
  | succ fuel ih =>
    intro m a h hfuel
    obtain ⟨c, hc, hnodup, hnull⟩ := h.sound [] a rfl
    -- an entry of the map points to the node below the literal
    have hentries : ∀ entry ∈ c.nexts,
        ∃ q, entry.2 = some q ∧ m.child a (.lit entry.1) = some q := by
      rintro ⟨s, p⟩ hentry
      have hlookup : c.nexts.lookup s = some p := MemberMap.lookup_of_mem hnodup hentry
      have hchild := (h.sound [] a rfl).lookup hc s
      rw [hlookup] at hchild
      cases hq : m.child a (.lit s) with
      | none => rw [hq] at hchild; cases hchild
      | some q => rw [hq] at hchild; exact ⟨q, Option.some.inj hchild, rfl⟩
    have hstart : m.Clearing a c [] m := by
      refine ⟨⟨c.nexts, hc⟩, ?_, fun b _ _ => rfl⟩
      rintro _ ⟨⟩
    obtain ⟨m₁, hloop, hdone⟩ := clear_entries ih h hfuel c.nexts hstart hnodup hentries
    rw [List.nil_append] at hdone
    obtain ⟨nexts, ha₁⟩ := hdone.self
    rw [clear, read_of_cell hc, run_ok_bind, hloop, run_ok_bind, write_of_cell ha₁, run_ok_bind]
    -- the variable
    have hvar : ∀ q, c.var.2 = some q → q ≠ a ∧ ∃ c', m₁.cells q = some c' := by
      intro q hq
      have hself : m.follow a [.var] = some q := by
        rw [follow, child_var hc, hq]
        rfl
      have hqa := h.ne_self hself
      obtain ⟨c', hc', -⟩ := h.sound [.var] q hself
      refine ⟨hqa, c', ?_⟩
      rw [hdone.kept q hqa, hc']
      rintro entry - σ - hσ
      cases h.inj _ _ q hσ hself
    obtain ⟨m₂, hm₂, ha₂, hother⟩ := clear_var (m := m₁.set a (some { c with nexts := [] }))
      set_cells_self fun q hq => by
        obtain ⟨hqa, c', hc'⟩ := hvar q hq
        exact ⟨hqa, c', by rw [set_cells_of_ne hqa, hc']⟩
    refine ⟨m₂, hm₂, ?_, fun σ b hσ hb => ?_, fun b hba hnot => ?_⟩
    · rw [ha₂, hc]
      rfl
    · have hba : b ≠ a := by
        rintro rfl
        exact hσ.1 (h.inj σ [] b hb rfl)
      rw [hother b hba]
      split
      · rfl
      next hbv =>
      rw [set_cells_of_ne hba]
      cases σ with
      | nil => exact absurd rfl hσ.1
      | cons d σ =>
        cases d with
        | var =>
          -- the variable itself
          obtain rfl := freed_var_cons.mp hσ
          rw [follow, child_var hc] at hb
          cases hptr : c.var.2 with
          | none => rw [hptr] at hb; cases hb
          | some q =>
            rw [hptr] at hb hbv
            exact absurd hb hbv
        | lit s =>
          -- an entry of the map
          have hmem : s ∈ c.nexts.map Prod.fst := by
            rw [MemberMap.mem_keys_iff_lookup, (h.sound [] a rfl).lookup hc, Option.isSome_map]
            rw [follow] at hb
            cases hq : m.child a (.lit s) with
            | none => rw [hq] at hb; cases hb
            | some q => rfl
          obtain ⟨entry, hentry, rfl⟩ := List.mem_map.mp hmem
          exact hdone.freed entry hentry σ b hσ hb
    · rw [hother b hba, if_neg, set_cells_of_ne hba]
      · exact hdone.kept b hba fun entry _ σ hσ => hnot _ hσ
      · intro hptr
        refine hnot [.var] (freed_var_cons.mpr rfl) ?_
        rw [follow, child_var hc]
        exact congrArg (Option.bind · _) hptr

/-! ## The trie that goes -/

/-- **What the destructor leaves in memory.** After any calls of `put`, `clear` reads and
deletes no deleted node. The nodes that are left are those behind a variable, so some are left
just when a pattern goes on behind a variable. -/
theorem clear_leaks_iff {puts : List Put} {fuel : Nat}
    (hfuel : ∀ p ∈ puts, p.shape.length ≤ fuel) :
    ∃ m m', put_all puts = .ok m ∧ clear (fuel + 1) (some 0) m = .ok m' ∧
      (∀ b, b ≠ 0 → ((m'.cells b).isSome = true ↔
        ∃ σ, Seg.var ∈ σ.dropLast ∧ m.follow 0 σ = some b)) ∧
      ((∃ b, b ≠ 0 ∧ (m'.cells b).isSome = true) ↔ ∃ p ∈ puts, Seg.var ∈ p.shape.dropLast) := by
  obtain ⟨m, hm, hwhole, hview⟩ := put_all_view puts
  -- the walks are those along the patterns
  have hwalk : ∀ σ, (m.follow 0 σ).isSome = true ↔ σ = [] ∨ ∃ p ∈ puts, σ <+: p.shape := by
    intro σ
    rw [hview.has, has_put_all]
  obtain ⟨m', hclear, hcleared⟩ := clear_cleared (fuel + 1) hwhole.toShaped fun σ b hb => by
    rcases (hwalk σ).mp (by rw [hb]; rfl) with rfl | ⟨p, hp, hpre⟩
    · exact Nat.succ_pos _
    · exact Nat.lt_succ_of_le (hpre.length_le.trans (hfuel p hp))
  have hleft : ∀ b, b ≠ 0 → ((m'.cells b).isSome = true ↔
      ∃ σ, Seg.var ∈ σ.dropLast ∧ m.follow 0 σ = some b) := by
    intro b hb
    constructor
    · intro hcell
      -- a node that is left was there before
      have hnot : ∀ σ, Freed σ → m.follow 0 σ ≠ some b := by
        intro σ hσ hfollow
        rw [hcleared.freed σ b hσ hfollow] at hcell
        cases hcell
      rw [hcleared.kept b hb hnot] at hcell
      obtain ⟨σ, hσ⟩ := hwhole.reached b hcell
      refine ⟨σ, by_contra fun hvar => hnot σ ⟨?_, hvar⟩ hσ, hσ⟩
      rintro rfl
      exact hb (Option.some.inj hσ).symm
    · rintro ⟨σ, hvar, hσ⟩
      rw [hcleared.kept b hb]
      · obtain ⟨c, hc, -⟩ := hwhole.sound σ b hσ
        rw [hc]
        rfl
      · rintro τ ⟨-, hτvar⟩ hτ
        obtain rfl := hwhole.inj σ τ b hσ hτ
        exact hτvar hvar
  refine ⟨m, m', hm, hclear, hleft, ?_, ?_⟩
  · rintro ⟨b, hb, hcell⟩
    obtain ⟨σ, hvar, hσ⟩ := (hleft b hb).mp hcell
    rcases (hwalk σ).mp (by rw [hσ]; rfl) with rfl | ⟨p, hp, ρ, hρ⟩
    · cases hvar
    · refine ⟨p, hp, ?_⟩
      rw [← hρ]
      cases ρ with
      | nil => rwa [List.append_nil]
      | cons d ρ =>
        rw [List.dropLast_append_of_ne_nil (List.cons_ne_nil d ρ)]
        exact List.mem_append_left _ (List.dropLast_subset σ hvar)
  · rintro ⟨p, hp, hvar⟩
    obtain ⟨b, hb⟩ :=
      Option.isSome_iff_exists.mp ((hwalk p.shape).mpr (.inr ⟨p, hp, List.prefix_rfl⟩))
    have hb0 : b ≠ 0 := by
      rintro rfl
      rw [hwhole.inj p.shape [] 0 hb rfl] at hvar
      cases hvar
    exact ⟨b, hb0, (hleft b hb0).mpr ⟨p.shape, hvar, hb⟩⟩

/-- A pattern that goes on behind its variable. -/
theorem clear_leaks_iff_posts : ∃ m m',
    put_all [⟨lit "/user/{id}/posts", lit "posts"⟩] = .ok m ∧ clear 4 (some 0) m = .ok m' ∧
      ∃ b, b ≠ 0 ∧ (m'.cells b).isSome = true := by
  obtain ⟨m, m', hm, hclear, -, hleak⟩ :=
    @clear_leaks_iff [⟨lit "/user/{id}/posts", lit "posts"⟩] 3
      (List.forall_mem_singleton.mpr (by decide))
  exact ⟨m, m', hm, hclear, hleak.mpr ⟨_, List.mem_singleton_self _, by decide⟩⟩

end Rellaf.UrlTrie.Memory
