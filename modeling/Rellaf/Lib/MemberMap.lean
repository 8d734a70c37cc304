/-
Maps as lists of pairs, one pair for each key.

`put` gives a key its value, `Pointwise` relates two maps with the same keys value by
value. What a walk over some of the keys does to a map is told by `pointwise_put`:
the value at one key is treated first, all others behind it.
-/
import Mathlib.Data.List.Forall2
import Mathlib.Tactic

set_option autoImplicit false

namespace MemberMap

variable {K V W : Type*} [BEq K]

/-- Gives `key` the value; a key that is new comes last. -/
def put : List (K × V) → K → V → List (K × V)
  | [], key, v => [(key, v)]
  | (k, w) :: kvs, key, v => if k == key then (k, v) :: kvs else (k, w) :: put kvs key v

/-- The same keys, and the values in relation. -/
def Pointwise (R : K → V → W → Prop) (kvs : List (K × V)) (kws : List (K × W)) : Prop :=
  List.Forall₂ (fun kv kw => kw.1 = kv.1 ∧ R kv.1 kv.2 kw.2) kvs kws

section put

variable [LawfulBEq K]

theorem put_cons_self (key : K) (w : V) (kvs : List (K × V)) (v : V) :
    put ((key, w) :: kvs) key v = (key, v) :: kvs := by
  rw [put, if_pos (beq_self_eq_true key)]

theorem put_cons_ne {k key : K} (h : k ≠ key) (w : V) (kvs : List (K × V)) (v : V) :
    put ((k, w) :: kvs) key v = (k, w) :: put kvs key v := by
  rw [put, if_neg fun hk => h (beq_iff_eq.mp hk)]

theorem put_of_not_mem {kvs : List (K × V)} {key : K} (h : key ∉ kvs.map Prod.fst) (v : V) :
    put kvs key v = kvs ++ [(key, v)] := by
  induction kvs with
  | nil => rfl
  | cons kv kvs ih =>
    rw [List.map_cons, List.mem_cons, not_or] at h
    rw [put_cons_ne fun hk => h.1 hk.symm, ih h.2, List.cons_append]

theorem keys_put_of_mem {kvs : List (K × V)} {key : K} (h : key ∈ kvs.map Prod.fst) (v : V) :
    (put kvs key v).map Prod.fst = kvs.map Prod.fst := by
  induction kvs with
  | nil => cases h
  | cons kv kvs ih =>
    obtain ⟨k, w⟩ := kv
    by_cases hk : k = key
    · subst hk
      rw [put_cons_self, List.map_cons, List.map_cons]
    · rw [List.map_cons, List.mem_cons] at h
      rw [put_cons_ne hk, List.map_cons, List.map_cons,
        ih (h.resolve_left fun heq => hk heq.symm)]

theorem mem_put {kvs : List (K × V)} {key : K} {v : V} {kw : K × V} (h : kw ∈ put kvs key v) :
    kw = (key, v) ∨ kw ∈ kvs := by
  induction kvs with
  | nil => exact .inl (List.mem_singleton.mp h)
  | cons kv kvs ih =>
    obtain ⟨k, w⟩ := kv
    by_cases hk : k = key
    · subst hk
      rw [put_cons_self, List.mem_cons] at h
      exact h.imp_right (List.mem_cons_of_mem _)
    · rw [put_cons_ne hk, List.mem_cons] at h
      rcases h with rfl | h
      · exact .inr List.mem_cons_self
      · exact (ih h).imp_right (List.mem_cons_of_mem _)

end put

/-! ## `lookup` -/

theorem mem_keys_iff_lookup [LawfulBEq K] {kvs : List (K × V)} {key : K} :
    key ∈ kvs.map Prod.fst ↔ (kvs.lookup key).isSome = true := by
  rw [List.lookup_isSome_iff, List.mem_map]
  constructor
  · rintro ⟨kv, hkv, rfl⟩
    exact ⟨kv, hkv, by simp⟩
  · rintro ⟨kv, hkv, hkey⟩
    exact ⟨kv, hkv, (beq_iff_eq.mp hkey).symm⟩

omit [BEq K] in
theorem nodup_keys_cons {kv : K × V} {kvs : List (K × V)} :
    ((kv :: kvs).map Prod.fst).Nodup ↔ kv.1 ∉ kvs.map Prod.fst ∧ (kvs.map Prod.fst).Nodup := by
  rw [List.map_cons, List.nodup_cons]

theorem lookup_of_mem [LawfulBEq K] {kvs : List (K × V)} (h : (kvs.map Prod.fst).Nodup) {key : K} {v : V}
    (hmem : (key, v) ∈ kvs) : kvs.lookup key = some v := by
  induction kvs with
  | nil => cases hmem
  | cons kv kvs ih =>
    obtain ⟨hnot, hnodup⟩ := nodup_keys_cons.mp h
    rw [List.lookup_cons]
    rcases List.mem_cons.mp hmem with rfl | hrest
    · simp
    · have hne : (key == kv.1) = false := by
        rw [beq_eq_false_iff_ne]
        intro heq
        have hkeys : key ∈ kvs.map Prod.fst := List.mem_map.mpr ⟨(key, v), hrest, rfl⟩
        rw [heq] at hkeys
        exact hnot hkeys
      rw [hne]
      exact ih hnodup hrest

theorem mem_of_lookup [LawfulBEq K] {kvs : List (K × V)} {key : K} {v : V}
    (h : kvs.lookup key = some v) : (key, v) ∈ kvs := by
  obtain ⟨kvs₁, kvs₂, rfl, -⟩ := List.lookup_eq_some_iff.mp h
  exact List.mem_append_right kvs₁ List.mem_cons_self

theorem lookup_put [LawfulBEq K] (kvs : List (K × V)) (key k : K) (v : V) :
    (put kvs key v).lookup k = if k == key then some v else kvs.lookup k := by
  induction kvs with
  | nil =>
    rw [put, List.lookup_cons, List.lookup_nil]
    cases k == key <;> rfl
  | cons kv kvs ih =>
    obtain ⟨k', w⟩ := kv
    by_cases hk : k' = key
    · subst hk
      rw [put_cons_self, List.lookup_cons, List.lookup_cons]
      cases k == k' <;> rfl
    · rw [put_cons_ne hk, List.lookup_cons, List.lookup_cons, ih]
      cases heq : k == k' with
      | false => rfl
      | true =>
        obtain rfl : k = k' := beq_iff_eq.mp heq
        exact (if_neg fun h => hk (beq_iff_eq.mp h)).symm

/-- A value of which `f` sees no difference. -/
theorem map_put_of_lookup [LawfulBEq K] {γ : Type*} {f : V → γ} {kvs : List (K × V)} {key : K}
    {v w : V} (h : kvs.lookup key = some v) (hf : f w = f v) :
    (put kvs key w).map (fun kv => (kv.1, f kv.2)) = kvs.map (fun kv => (kv.1, f kv.2)) := by
  induction kvs with
  | nil => cases h
  | cons kv kvs ih =>
    obtain ⟨k, u⟩ := kv
    by_cases hk : k = key
    · subst hk
      obtain rfl : u = v := Option.some.inj (List.lookup_cons_self.symm.trans h)
      rw [put_cons_self, List.map_cons, List.map_cons, hf]
    · have hne : (key == k) = false := by simpa using fun h => hk h.symm
      rw [List.lookup_cons, hne] at h
      rw [put_cons_ne hk, List.map_cons, List.map_cons, ih h]

theorem put_of_lookup [LawfulBEq K] {kvs : List (K × V)} {key : K} {v : V}
    (h : kvs.lookup key = some v) : put kvs key v = kvs := by
  have hmap := map_put_of_lookup (f := id) h rfl
  simpa using hmap

/-- The value at a key that is there, and all others as they were. -/
theorem put_eq_map [LawfulBEq K] {kvs : List (K × V)} (hnodup : (kvs.map Prod.fst).Nodup) {key : K}
    (hmem : key ∈ kvs.map Prod.fst) (v : V) :
    put kvs key v = kvs.map fun kw => if kw.1 == key then (key, v) else kw := by
  induction kvs with
  | nil => cases hmem
  | cons kv kvs ih =>
    obtain ⟨k, w⟩ := kv
    obtain ⟨hnot, hnodup'⟩ := nodup_keys_cons.mp hnodup
    by_cases hk : k = key
    · subst hk
      have hrest : kvs.map (fun kw => if kw.1 == k then (k, v) else kw) = kvs := by
        have hid : ∀ kw ∈ kvs, (if kw.1 == k then (k, v) else kw) = kw := by
          intro kw hkw
          refine if_neg fun heq => hnot ?_
          obtain rfl : kw.1 = k := beq_iff_eq.mp heq
          exact List.mem_map.mpr ⟨kw, hkw, rfl⟩
        rw [List.map_congr_left hid, List.map_id']
      rw [put_cons_self, List.map_cons, hrest, if_pos (beq_self_eq_true k)]
    · rw [List.map_cons, List.mem_cons] at hmem
      have hbeq : ¬ (k == key) = true := fun heq => hk (beq_iff_eq.mp heq)
      rw [put_cons_ne hk, List.map_cons, if_neg hbeq,
        ih hnodup' (hmem.resolve_left fun heq => hk heq.symm)]

/-! ## `Pointwise` -/

omit [BEq K] in
theorem Pointwise.keys {R : K → V → W → Prop} {kvs : List (K × V)} {kws : List (K × W)}
    (h : Pointwise R kvs kws) : kws.map Prod.fst = kvs.map Prod.fst := by
  induction h with
  | nil => rfl
  | cons hkv _ ih => rw [List.map_cons, List.map_cons, hkv.1, ih]

omit [BEq K] in
theorem pointwise_congr {R S : K → V → W → Prop} {kvs : List (K × V)} {kws : List (K × W)}
    (h : ∀ kv ∈ kvs, ∀ w, R kv.1 kv.2 w ↔ S kv.1 kv.2 w) :
    Pointwise R kvs kws ↔ Pointwise S kvs kws := by
  induction kvs generalizing kws with
  | nil => cases kws <;> simp [Pointwise]
  | cons kv kvs ih =>
    have hrest : ∀ kws, Pointwise R kvs kws ↔ Pointwise S kvs kws :=
      fun kws => ih fun kv' hkv' => h kv' (List.mem_cons_of_mem kv hkv')
    simp only [Pointwise] at hrest
    cases kws with
    | nil => simp [Pointwise]
    | cons kw kws => simp [Pointwise, h kv List.mem_cons_self, hrest]

omit [BEq K] in
/-- A relation that keeps the values keeps the map. -/
theorem pointwise_eq_iff {R : K → V → V → Prop} {kvs kvs' : List (K × V)}
    (h : ∀ kv ∈ kvs, ∀ w, R kv.1 kv.2 w ↔ w = kv.2) : Pointwise R kvs kvs' ↔ kvs' = kvs := by
  rw [pointwise_congr (S := fun _ v w => w = v) h]
  induction kvs generalizing kvs' with
  | nil => simp [Pointwise]
  | cons kv kvs ih =>
    cases kvs' with
    | nil => simp [Pointwise]
    | cons kv' kvs' =>
      rw [List.cons.injEq, ← ih fun kv' hkv' => h kv' (List.mem_cons_of_mem kv hkv')]
      simp [Pointwise, Prod.ext_iff]

/-- The value of one key first, then all others. -/
theorem pointwise_put [LawfulBEq K] {R S : K → V → V → Prop} {kvs kvs' : List (K × V)} {key : K} {v : V}
    (hnodup : (kvs.map Prod.fst).Nodup) (hkey : kvs.lookup key = some v)
    (hother : ∀ k, k ≠ key → ∀ v w, R k v w ↔ S k v w) (hdone : ∀ v w, S key v w ↔ w = v) :
    Pointwise R kvs kvs' ↔ ∃ w, R key v w ∧ Pointwise S (put kvs key w) kvs' := by
  induction kvs generalizing kvs' with
  | nil => cases hkey
  | cons kv kvs ih =>
    obtain ⟨k, u⟩ := kv
    obtain ⟨hnot, hnodup'⟩ := nodup_keys_cons.mp hnodup
    by_cases hk : k = key
    · -- the key stands here, and nowhere behind
      subst hk
      obtain rfl : u = v := by simpa using hkey
      have hrest : ∀ kws, Pointwise R kvs kws ↔ Pointwise S kvs kws := by
        intro kws
        apply pointwise_congr
        intro kv hkv
        apply hother
        intro heq
        have hmem : kv.1 ∈ kvs.map Prod.fst := List.mem_map_of_mem hkv
        rw [heq] at hmem
        exact hnot hmem
      simp only [Pointwise] at hrest
      cases kvs' with
      | nil => simp [Pointwise, put_cons_self]
      | cons kv' kvs' =>
        simp only [Pointwise, put_cons_self, List.forall₂_cons, hrest, hdone]
        constructor
        · rintro ⟨⟨hk, hR⟩, htail⟩
          exact ⟨kv'.2, hR, ⟨hk, rfl⟩, htail⟩
        · rintro ⟨w, hR, ⟨hk, rfl⟩, htail⟩
          exact ⟨⟨hk, hR⟩, htail⟩
    · have hne : (key == k) = false := by simpa using fun h => hk h.symm
      have hkey' : kvs.lookup key = some v := by
        rw [List.lookup_cons, hne] at hkey
        exact hkey
      have hput : ∀ w, put ((k, u) :: kvs) key w = (k, u) :: put kvs key w := by
        exact fun w => put_cons_ne hk u kvs w
      cases kvs' with
      | nil => simp [Pointwise, hput]
      | cons kv' kvs' =>
        have hrest : Pointwise R kvs kvs' ↔ ∃ w, R key v w ∧ Pointwise S (put kvs key w) kvs' :=
          ih hnodup' hkey'
        simp only [Pointwise] at hrest
        simp only [Pointwise, hput, List.forall₂_cons, hrest, hother k hk]
        constructor
        · rintro ⟨hhead, w, hw, htail⟩
          exact ⟨w, hw, hhead, htail⟩
        · rintro ⟨w, hw, hhead, htail⟩
          exact ⟨hhead, w, hw, htail⟩

omit [BEq K] in
theorem Pointwise.exists_mem {R : K → V → W → Prop} {kvs : List (K × V)} {kws : List (K × W)}
    (h : Pointwise R kvs kws) {kv : K × V} (hkv : kv ∈ kvs) :
    ∃ w, (kv.1, w) ∈ kws ∧ R kv.1 kv.2 w := by
  induction h with
  | nil => cases hkv
  | @cons kv' kw kvs kws hhead _ ih =>
    rcases List.mem_cons.mp hkv with rfl | hrest
    · refine ⟨kw.2, ?_, hhead.2⟩
      rw [← hhead.1]
      exact List.mem_cons_self
    · obtain ⟨w, hw, hR⟩ := ih hrest
      exact ⟨w, List.mem_cons_of_mem _ hw, hR⟩

omit [BEq K] in
theorem Pointwise.exists_mem_left {R : K → V → W → Prop} {kvs : List (K × V)} {kws : List (K × W)}
    (h : Pointwise R kvs kws) {kw : K × W} (hkw : kw ∈ kws) :
    ∃ v, (kw.1, v) ∈ kvs ∧ R kw.1 v kw.2 := by
  induction h with
  | nil => cases hkw
  | @cons kv kw' kvs kws hhead _ ih =>
    rcases List.mem_cons.mp hkw with rfl | hrest
    · refine ⟨kv.2, ?_, ?_⟩
      · rw [hhead.1]
        exact List.mem_cons_self
      · rw [hhead.1]
        exact hhead.2
    · obtain ⟨v, hv, hR⟩ := ih hrest
      exact ⟨v, List.mem_cons_of_mem _ hv, hR⟩

/-- The values of one key. -/
theorem Pointwise.lookup [LawfulBEq K] {R : K → V → W → Prop} {kvs : List (K × V)}
    {kws : List (K × W)} (h : Pointwise R kvs kws) (key : K) :
    Option.Rel (R key) (kvs.lookup key) (kws.lookup key) := by
  induction h with
  | nil => exact .none
  | @cons kv kw kvs kws hhead _ ih =>
    rw [List.lookup_cons, List.lookup_cons, hhead.1]
    cases hkey : key == kv.1 with
    | false => exact ih
    | true =>
      obtain rfl : key = kv.1 := beq_iff_eq.mp hkey
      exact .some hhead.2

/-- What is asked for by name does not miss the entries with other names. -/
theorem lookup_filter [LawfulBEq K] {kvs : List (K × V)} {key : K} {p : K → Bool}
    (hkey : p key = true) : (kvs.filter fun kv => p kv.1).lookup key = kvs.lookup key := by
  induction kvs with
  | nil => rfl
  | cons kv kvs ih =>
    rw [List.lookup_cons]
    cases heq : key == kv.1 with
    | true =>
      obtain rfl : key = kv.1 := beq_iff_eq.mp heq
      rw [List.filter_cons_of_pos (by exact hkey), List.lookup_cons, beq_self_eq_true]
    | false =>
      cases hp : p kv.1 with
      | true =>
        rw [List.filter_cons_of_pos (by exact hp), List.lookup_cons, heq]
        exact ih
      | false => rw [List.filter_cons_of_neg (by simp [hp]), ih]

theorem eq_of_mem_of_mem [LawfulBEq K] {kvs : List (K × V)} (h : (kvs.map Prod.fst).Nodup)
    {key : K} {v w : V} (hv : (key, v) ∈ kvs) (hw : (key, w) ∈ kvs) : v = w :=
  Option.some.inj ((lookup_of_mem h hv).symm.trans (lookup_of_mem h hw))

omit [BEq K] in
/-- From a map in relation to another one, a third in relation to both. -/
theorem Pointwise.exists_trans {U : Type*} {A : K → V → W → Prop} {R : K → W → U → Prop}
    {S : K → V → U → Prop} {kvs : List (K × V)} {kws : List (K × W)} (h : Pointwise A kvs kws)
    (hstep : ∀ k v w, (k, v) ∈ kvs → (k, w) ∈ kws → A k v w → ∃ u, R k w u ∧ S k v u) :
    ∃ kus, Pointwise R kws kus ∧ Pointwise S kvs kus := by
  induction h with
  | nil => exact ⟨[], .nil, .nil⟩
  | @cons kv kw kvs kws hhead _ ih =>
    obtain ⟨k, v⟩ := kv
    obtain ⟨k', w⟩ := kw
    obtain ⟨rfl, hA⟩ : k' = k ∧ A k v w := hhead
    obtain ⟨u, hR, hS⟩ := hstep k' v w List.mem_cons_self List.mem_cons_self hA
    obtain ⟨kus, hRs, hSs⟩ := ih fun k v w hv hw =>
      hstep k v w (List.mem_cons_of_mem _ hv) (List.mem_cons_of_mem _ hw)
    exact ⟨(k', u) :: kus, .cons ⟨rfl, hR⟩ hRs, .cons ⟨rfl, hS⟩ hSs⟩

omit [BEq K] in
theorem exists_pointwise_iff {R : K → V → W → Prop} {kvs : List (K × V)} :
    (∃ kws, Pointwise R kvs kws) ↔ ∀ kv ∈ kvs, ∃ w, R kv.1 kv.2 w := by
  induction kvs with
  | nil => exact ⟨fun _ => nofun, fun _ => ⟨[], .nil⟩⟩
  | cons kv kvs ih =>
    rw [List.forall_mem_cons, ← ih]
    constructor
    · rintro ⟨kws, h⟩
      cases h with
      | @cons _ kw _ kws hhead hrest => exact ⟨⟨kw.2, hhead.2⟩, kws, hrest⟩
    · rintro ⟨⟨w, hw⟩, kws, hrest⟩
      exact ⟨(kv.1, w) :: kws, .cons ⟨rfl, hw⟩ hrest⟩

omit [BEq K] in
/-- Equality of what is left of two maps is a matter of each value. -/
theorem map_eq_iff_pointwise {γ : Type*} {f : V → γ} {g : W → γ} {kvs : List (K × V)}
    {kws : List (K × W)} :
    kws.map (fun kw => (kw.1, g kw.2)) = kvs.map (fun kv => (kv.1, f kv.2)) ↔
      Pointwise (fun _ v w => g w = f v) kvs kws := by
  induction kvs generalizing kws with
  | nil => cases kws <;> simp [Pointwise]
  | cons kv kvs ih =>
    cases kws with
    | nil => simp [Pointwise]
    | cons kw kws =>
      simp only [List.map_cons, List.cons.injEq, Prod.mk.injEq, ih]
      simp [Pointwise]

/-! ## A loop that puts one value for each key -/

omit [BEq K] in
/-- The keys to come are new again after one of them has been put. -/
theorem forall_not_mem_concat {kws : List (K × W)} {key : K} {keys : List K}
    (h : ∀ k ∈ key :: keys, k ∉ kws.map Prod.fst) (hkey : key ∉ keys) (w : W) :
    ∀ k ∈ keys, k ∉ (kws ++ [(key, w)]).map Prod.fst := by
  intro k hk
  rw [List.map_append, List.mem_append, not_or]
  refine ⟨h k (List.mem_cons_of_mem key hk), ?_⟩
  intro hmem
  obtain rfl : k = key := by simpa using hmem
  exact hkey hk

/-- A loop `L` over the keys of one map puts a value in relation to each into another
map. Where the keys are new there, it appends them. -/
theorem loop_iff [LawfulBEq K] {R : K → V → W → Prop}
    {L : List (K × V) → List (K × W) → List (K × W) → Prop}
    (hnil : ∀ kws kws', L [] kws kws' ↔ kws' = kws)
    (hcons : ∀ kv kvs kws kws', L (kv :: kvs) kws kws' ↔
      ∃ w, R kv.1 kv.2 w ∧ L kvs (put kws kv.1 w) kws') {kvs : List (K × V)} :
    ∀ {kws kws' : List (K × W)}, (kvs.map Prod.fst).Nodup →
      (∀ k ∈ kvs.map Prod.fst, k ∉ kws.map Prod.fst) →
      (L kvs kws kws' ↔ ∃ written, kws' = kws ++ written ∧ Pointwise R kvs written) := by
  induction kvs with
  | nil =>
    intro kws kws' _ _
    simp [hnil, Pointwise]
  | cons kv kvs ih =>
    intro kws kws' hnodup hnew
    obtain ⟨hnot, hnodup'⟩ := nodup_keys_cons.mp hnodup
    have hput : ∀ w, put kws kv.1 w = kws ++ [(kv.1, w)] :=
      put_of_not_mem (hnew kv.1 List.mem_cons_self)
    have hrest : ∀ w, L kvs (kws ++ [(kv.1, w)]) kws' ↔
        ∃ written, kws' = kws ++ [(kv.1, w)] ++ written ∧ Pointwise R kvs written :=
      fun w => ih hnodup' (forall_not_mem_concat hnew hnot w)
    rw [hcons]
    simp only [hput, hrest]
    constructor
    · rintro ⟨w, hw, written, rfl, hwritten⟩
      exact ⟨(kv.1, w) :: written, by simp, .cons ⟨rfl, hw⟩ hwritten⟩
    · rintro ⟨written, rfl, hwritten⟩
      cases hwritten with
      | @cons _ kw _ written hhead hwritten =>
      obtain ⟨k, w⟩ := kw
      obtain ⟨rfl, hw⟩ : k = kv.1 ∧ R kv.1 kv.2 w := hhead
      exact ⟨w, hw, written, by simp, hwritten⟩

/-! ## One map over another -/

/-- The order of the keys does not matter to `lookup`. -/
theorem lookup_perm [LawfulBEq K] {kvs kvs' : List (K × V)} (h : kvs.Perm kvs')
    (hnodup : (kvs.map Prod.fst).Nodup) (key : K) : kvs.lookup key = kvs'.lookup key := by
  have hnodup' : (kvs'.map Prod.fst).Nodup := (h.map Prod.fst).nodup_iff.mp hnodup
  apply Option.ext
  intro v
  constructor
  · exact fun hv => lookup_of_mem hnodup' (h.subset (mem_of_lookup hv))
  · exact fun hv => lookup_of_mem hnodup (h.symm.subset (mem_of_lookup hv))

theorem nodup_keys_put [LawfulBEq K] {kvs : List (K × V)} (h : (kvs.map Prod.fst).Nodup) (key : K)
    (v : V) : ((put kvs key v).map Prod.fst).Nodup := by
  by_cases hmem : key ∈ kvs.map Prod.fst
  · rwa [keys_put_of_mem hmem]
  · rw [put_of_not_mem hmem, List.map_append, List.map_singleton, ← List.concat_eq_append]
    exact h.concat hmem

theorem nodup_keys_foldl_put [LawfulBEq K] {kvs : List (K × V)} (h : (kvs.map Prod.fst).Nodup)
    (entries : List (K × V)) :
    ((entries.foldl (fun kvs kv => put kvs kv.1 kv.2) kvs).map Prod.fst).Nodup := by
  induction entries generalizing kvs with
  | nil => exact h
  | cons kv entries ih => exact ih (nodup_keys_put h kv.1 kv.2)

/-- What is put in later is found. -/
theorem lookup_foldl_put [LawfulBEq K] {entries : List (K × V)}
    (hentries : (entries.map Prod.fst).Nodup) (kvs : List (K × V)) (key : K) :
    (entries.foldl (fun kvs kv => put kvs kv.1 kv.2) kvs).lookup key =
      (entries.lookup key).or (kvs.lookup key) := by
  induction entries generalizing kvs with
  | nil => rfl
  | cons kv entries ih =>
    obtain ⟨hnot, hentries⟩ := nodup_keys_cons.mp hentries
    rw [List.foldl_cons, ih hentries, lookup_put, List.lookup_cons]
    cases hkey : key == kv.1 with
    | false => rfl
    | true =>
      have hnone : entries.lookup key = none := by
        rw [beq_iff_eq.mp hkey, ← Option.not_isSome_iff_eq_none, ← mem_keys_iff_lookup]
        exact hnot
      rw [hnone]
      rfl

end MemberMap
