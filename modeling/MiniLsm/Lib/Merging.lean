import MiniLsm.Lib.Assoc

/-!
# Merging numbered maps

`Merges P l` says that `l` is the merge of the numbered association lists `P`: it is sorted, and it
binds each key to the value of the list with the smallest number among those that have the key. The
relation looks at `P` as a set of non-empty lists, whatever their order, so that an algorithm may
keep them in a heap. `overlays` is the merge of lists numbered in order (`merges_overlays`).

A merge is taken apart at its smallest key: `Merges.cons` names its first binding, and
`Merges.dropKey` says what is left when that key is dropped everywhere.
-/

namespace Assoc

variable {K V : Type*} [LinearOrder K]

/-- `l` binds each key to the value of the list of smallest number that has it. -/
structure Merges (P : List (ℕ × List (K × V))) (l : List (K × V)) : Prop where
  sorted : Sorted l
  lookup_iff : ∀ q v, lookup q l = some v ↔ ∃ p ∈ P, lookup q p.2 = some v ∧
    ∀ p' ∈ P, p'.1 < p.1 → lookup q p'.2 = none

/-- Numbered lists have one merge only. -/
theorem Merges.unique {P : List (ℕ × List (K × V))} {l l' : List (K × V)} (h : Merges P l)
    (h' : Merges P l') : l = l' :=
  ext_of_lookup h.sorted h'.sorted fun k => Option.ext fun v =>
    (h.lookup_iff k v).trans (h'.lookup_iff k v).symm

/-- The merge depends on the non-empty lists only. -/
theorem Merges.congr {P P' : List (ℕ × List (K × V))} {l : List (K × V)} (h : Merges P l)
    (hP : ∀ p, p.2 ≠ [] → (p ∈ P ↔ p ∈ P')) : Merges P' l := by
  refine ⟨h.sorted, fun q v => (h.lookup_iff q v).trans ?_⟩
  have hne : ∀ {m : List (K × V)}, lookup q m ≠ none → m ≠ [] := by
    rintro m hm rfl
    exact hm rfl
  constructor
  · rintro ⟨p, hp, hv, hmin⟩
    refine ⟨p, (hP p (hne (by simp [hv]))).mp hp, hv, fun p' hp' hlt => ?_⟩
    by_contra hc
    exact hc (hmin p' ((hP p' (hne hc)).mpr hp') hlt)
  · rintro ⟨p, hp, hv, hmin⟩
    refine ⟨p, (hP p (hne (by simp [hv]))).mpr hp, hv, fun p' hp' hlt => ?_⟩
    by_contra hc
    exact hc (hmin p' ((hP p' (hne hc)).mp hp') hlt)

/-- No lists merge to nothing. -/
theorem merges_nil : Merges ([] : List (ℕ × List (K × V))) [] :=
  ⟨List.Pairwise.nil, by simp⟩

/-- The merge of lists that are numbered in order lays each over those behind it. -/
theorem merges_overlays (ls : List (List (K × V))) (n : ℕ) :
    Merges ((ls.zipIdx n).map Prod.swap) (overlays ls) := by
  refine ⟨sorted_overlays ls, fun q v => ?_⟩
  rw [lookup_overlays]
  -- By induction on the lists: the first one that has the key wins.
  induction ls generalizing n with
  | nil => simp
  | cons l ls ih =>
    have hge : ∀ p ∈ (ls.zipIdx (n + 1)).map Prod.swap, n < p.1 := by
      intro p hp
      obtain ⟨⟨m, i⟩, hmi, rfl⟩ := List.mem_map.mp hp
      exact (List.mem_zipIdx hmi).1
    rw [List.findSome?_cons, List.zipIdx_cons, List.map_cons]
    cases hl : lookup q l with
    | some w =>
      simp only [Option.some.injEq]
      constructor
      · rintro rfl
        refine ⟨(n, l), by simp, hl, fun p' hp' hlt => ?_⟩
        rcases List.mem_cons.mp hp' with rfl | hp'
        · exact absurd hlt (lt_irrefl _)
        · exact absurd hlt (hge p' hp').asymm
      · rintro ⟨p, hp, hv, hmin⟩
        rcases List.mem_cons.mp hp with rfl | hp
        · exact Option.some.inj (hl.symm.trans hv)
        · have := hmin (n, l) (by simp) (hge p hp)
          rw [hl] at this
          cases this
    | none =>
      simp only
      rw [ih (n + 1)]
      constructor
      · rintro ⟨p, hp, hv, hmin⟩
        refine ⟨p, List.mem_cons_of_mem _ hp, hv, fun p' hp' hlt => ?_⟩
        rcases List.mem_cons.mp hp' with rfl | hp'
        · exact hl
        · exact hmin p' hp' hlt
      · rintro ⟨p, hp, hv, hmin⟩
        rcases List.mem_cons.mp hp with rfl | hp
        · rw [Prod.fst_swap, Prod.snd_swap, hl] at *
          cases hv
        · exact ⟨p, hp, hv, fun p' hp' hlt => hmin p' (List.mem_cons_of_mem _ hp') hlt⟩

/-! ## The smallest key -/

/-- The bindings of all keys but `k`. -/
def dropKey (k : K) (l : List (K × V)) : List (K × V) := l.filter fun p => p.1 ≠ k

/-- What is left when `k` is dropped has no binding of `k`, and the others as before. -/
theorem lookup_dropKey (k q : K) {l : List (K × V)} (hl : Sorted l) :
    lookup q (dropKey k l) = if q = k then none else lookup q l := by
  rw [dropKey, lookup_filter _ _ hl]
  split_ifs with h
  · simp [h]
  · cases lookup q l <;> simp [h]

/-- The first binding of a sorted list is dropped from its front. -/
theorem dropKey_cons {k : K} {v : V} {l : List (K × V)} (hl : Sorted ((k, v) :: l)) :
    dropKey k ((k, v) :: l) = l := by
  rw [Sorted, List.pairwise_cons] at hl
  rw [dropKey, List.filter_cons_of_neg (by simp), List.filter_eq_self]
  intro p hp
  simpa using (hl.1 p hp).ne'

/-- Nothing is dropped from a list whose keys are above `k`. -/
theorem dropKey_of_lt {k : K} {l : List (K × V)} (h : ∀ p ∈ l, k < p.1) : dropKey k l = l := by
  rw [dropKey, List.filter_eq_self]
  intro p hp
  simpa using (h p hp).ne'

/-- When `k` is dropped from every list, it is dropped from the merge. -/
theorem Merges.dropKey {P : List (ℕ × List (K × V))} {l : List (K × V)} (h : Merges P l)
    (hs : ∀ p ∈ P, Sorted p.2) (k : K) :
    Merges (P.map fun p => (p.1, Assoc.dropKey k p.2)) (Assoc.dropKey k l) := by
  refine ⟨List.Pairwise.filter _ h.sorted, fun q v => ?_⟩
  rw [lookup_dropKey _ _ h.sorted]
  have hlk : ∀ p ∈ P, lookup q (Assoc.dropKey k p.2) = if q = k then none else lookup q p.2 :=
    fun p hp => lookup_dropKey k q (hs p hp)
  by_cases hq : q = k
  · simp only [if_pos hq] at hlk ⊢
    constructor
    · intro h
      cases h
    · rintro ⟨_, hmem, hv, -⟩
      obtain ⟨p, hp, rfl⟩ := List.mem_map.mp hmem
      rw [hlk p hp] at hv
      cases hv
  · simp only [if_neg hq] at hlk ⊢
    rw [h.lookup_iff]
    constructor
    · rintro ⟨p, hp, hv, hmin⟩
      refine ⟨_, List.mem_map_of_mem hp, (hlk p hp).trans hv, fun _ hmem hlt => ?_⟩
      obtain ⟨p', hp', rfl⟩ := List.mem_map.mp hmem
      exact (hlk p' hp').trans (hmin p' hp' hlt)
    · rintro ⟨_, hmem, hv, hmin⟩
      obtain ⟨p, hp, rfl⟩ := List.mem_map.mp hmem
      refine ⟨p, hp, (hlk p hp).symm.trans hv, fun p' hp' hlt => ?_⟩
      exact (hlk p' hp').symm.trans (hmin _ (List.mem_map_of_mem hp') hlt)

/-- The first binding of the merge: that of the smallest key in the list of smallest number that
starts with it. -/
theorem Merges.cons {P : List (ℕ × List (K × V))} {l : List (K × V)} (h : Merges P l) {i : ℕ}
    {k : K} {v : V} {r : List (K × V)} (hp : (i, (k, v) :: r) ∈ P)
    (hge : ∀ p ∈ P, ∀ e ∈ p.2, k ≤ e.1)
    (hmin : ∀ p ∈ P, p.1 < i → lookup k p.2 = none) : l = (k, v) :: Assoc.dropKey k l := by
  have hk : lookup k l = some v := (h.lookup_iff k v).mpr
    ⟨_, hp, by simp [lookup_cons], fun p' hp' hlt => hmin p' hp' hlt⟩
  have hkl : ∀ e ∈ l, k ≤ e.1 := by
    intro e he
    obtain ⟨p, hpP, hpe, -⟩ := (h.lookup_iff e.1 e.2).mp ((lookup_eq_some_iff h.sorted).mpr he)
    exact hge p hpP _ (mem_of_lookup hpe)
  rcases l with _ | ⟨⟨k', v'⟩, l⟩
  · cases hk
  · have hkk : k' = k := by
      refine le_antisymm ?_ (hkl (k', v') List.mem_cons_self)
      by_contra hlt
      push Not at hlt
      have hs := h.sorted
      rw [Sorted, List.pairwise_cons] at hs
      rcases List.mem_cons.mp (mem_of_lookup hk) with he | he
      · cases he
        exact lt_irrefl _ hlt
      · exact hlt.asymm (hs.1 _ he)
    subst hkk
    rw [lookup_cons, if_pos rfl] at hk
    cases hk
    rw [dropKey_cons h.sorted]

/-! ## Two maps -/

/-- A write adds at most one binding. -/
theorem length_insert_le (k : K) (v : V) (l : List (K × V)) :
    (insert k v l).length ≤ l.length + 1 := by
  induction l with
  | nil => simp [insert]
  | cons p l ih =>
    obtain ⟨a, w⟩ := p
    simp only [insert]
    split_ifs
    · simp
    · simpa using ih
    · simp

/-- Two maps laid over each other have at most the bindings of both. -/
theorem length_overlay_le (top base : List (K × V)) :
    (overlay top base).length ≤ top.length + base.length := by
  induction top with
  | nil => simp [overlay]
  | cons p top ih =>
    have := length_insert_le p.1 p.2 (overlay top base)
    rw [overlay, List.foldr_cons, ← overlay, List.length_cons]
    omega

/-- The bindings of two maps laid over each other are bindings of the maps. -/
theorem mem_overlay {top base : List (K × V)} {p : K × V} (h : p ∈ overlay top base) :
    p ∈ top ∨ p ∈ base := by
  induction top with
  | nil => exact .inr h
  | cons q top ih =>
    rcases mem_insert h with rfl | h
    · exact .inl List.mem_cons_self
    · exact (ih h).imp_left (List.mem_cons_of_mem _)

/-- The first binding of the top map comes first when its key is below those of the base. -/
theorem overlay_cons_of_lt {k : K} {v : V} {top base : List (K × V)}
    (ht : Sorted ((k, v) :: top)) (hb : ∀ p ∈ base, k < p.1) :
    overlay ((k, v) :: top) base = (k, v) :: overlay top base := by
  rw [Sorted, List.pairwise_cons] at ht
  have hall : ∀ p ∈ overlay top base, k < p.1 := by
    intro p hp
    rcases mem_overlay hp with hp | hp
    · exact ht.1 p hp
    · exact hb p hp
  rw [overlay, List.foldr_cons, ← overlay]
  generalize overlay top base = l at hall
  rcases l with _ | ⟨⟨a, w⟩, l⟩
  · rfl
  · exact if_pos (hall (a, w) List.mem_cons_self)

/-- The first binding of the base comes first when its key is below those of the top map. -/
theorem overlay_cons_right {k : K} {v : V} {top base : List (K × V)} (ht : ∀ p ∈ top, k < p.1) :
    overlay top ((k, v) :: base) = (k, v) :: overlay top base := by
  induction top with
  | nil => rfl
  | cons p top ih =>
    rw [List.forall_mem_cons] at ht
    have hstep : overlay (p :: top) ((k, v) :: base) =
        insert p.1 p.2 (overlay top ((k, v) :: base)) := rfl
    rw [hstep, ih ht.2]
    simp only [insert, if_neg ht.1.asymm, if_pos ht.1]
    rfl

/-- When both maps start with the same key, the top one's binding stays. -/
theorem overlay_cons_cons {k : K} {v v' : V} {top base : List (K × V)}
    (ht : Sorted ((k, v) :: top)) :
    overlay ((k, v) :: top) ((k, v') :: base) = (k, v) :: overlay top base := by
  rw [Sorted, List.pairwise_cons] at ht
  have hstep : overlay ((k, v) :: top) ((k, v') :: base) =
      insert k v (overlay top ((k, v') :: base)) := rfl
  rw [hstep, overlay_cons_right ht.1]
  simp only [insert, if_neg (lt_irrefl k)]

end Assoc
