import Mathlib

/-!
# Sorted association lists

A finite map over a linear order, as the list of its bindings in strictly increasing order of keys.
`insert` and `lookup` are the map's write and read, `overlay` lays one map over another, and
`overlays` lays a list of maps over each other with the first one on top. The order makes the list
canonical: two sorted lists with the same lookups are equal (`ext_of_lookup`).
-/

namespace Assoc

variable {K V : Type*} [LinearOrder K]

/-- The bindings are in strictly increasing order of keys. -/
def Sorted (l : List (K × V)) : Prop := l.Pairwise fun a b => a.1 < b.1

/-- The value bound to `k` by the first binding of `k`, if there is one. -/
def lookup (k : K) : List (K × V) → Option V
  | [] => none
  | (a, v) :: l => if a = k then some v else lookup k l

/-- The list with `k` bound to `v`, in its place by the order of keys. -/
def insert (k : K) (v : V) : List (K × V) → List (K × V)
  | [] => [(k, v)]
  | (a, w) :: l =>
    if k < a then (k, v) :: (a, w) :: l
    else if a < k then (a, w) :: insert k v l
    else (k, v) :: l

/-- The bindings of `top` laid over those of `base`. -/
def overlay (top base : List (K × V)) : List (K × V) :=
  top.foldr (fun p acc => insert p.1 p.2 acc) base

/-- A list of maps laid over each other, the first on top. -/
def overlays (ls : List (List (K × V))) : List (K × V) := ls.foldr overlay []

/-- The bindings from the first one on whose key is not below `k`. -/
def seek (k : K) (l : List (K × V)) : List (K × V) := l.dropWhile fun p => p.1 < k

/-! ## Lookups -/

@[simp]
theorem lookup_nil (k : K) : lookup k ([] : List (K × V)) = none := rfl

theorem lookup_cons (k : K) (p : K × V) (l : List (K × V)) :
    lookup k (p :: l) = if p.1 = k then some p.2 else lookup k l := rfl

/-- A lookup in an appended list tries the first part first. -/
theorem lookup_append (k : K) (l l' : List (K × V)) :
    lookup k (l ++ l') = (lookup k l).or (lookup k l') := by
  induction l with
  | nil => simp
  | cons p l ih =>
    rw [List.cons_append, lookup_cons, lookup_cons, ih]
    split_ifs <;> rfl

/-- A found value is bound to its key in the list. -/
theorem mem_of_lookup {k : K} {v : V} {l : List (K × V)} (h : lookup k l = some v) :
    (k, v) ∈ l := by
  induction l with
  | nil => simp at h
  | cons p l ih =>
    rw [lookup_cons] at h
    split_ifs at h with hk
    · obtain ⟨a, w⟩ := p
      cases hk
      cases h
      exact List.mem_cons_self
    · exact List.mem_cons_of_mem _ (ih h)

/-- A key is looked up in vain exactly when no binding has it. -/
theorem lookup_eq_none_iff {k : K} {l : List (K × V)} :
    lookup k l = none ↔ ∀ p ∈ l, p.1 ≠ k := by
  induction l with
  | nil => simp
  | cons p l ih =>
    rw [lookup_cons, List.forall_mem_cons]
    split_ifs with hk
    · simp [hk]
    · simp [hk, ih]

/-- In a sorted list, the lookup finds exactly the bindings of the list. -/
theorem lookup_eq_some_iff {k : K} {v : V} {l : List (K × V)} (hl : Sorted l) :
    lookup k l = some v ↔ (k, v) ∈ l := by
  refine ⟨mem_of_lookup, fun hm => ?_⟩
  induction l with
  | nil => simp at hm
  | cons p l ih =>
    rw [Sorted, List.pairwise_cons] at hl
    rcases List.mem_cons.mp hm with rfl | hm
    · simp [lookup_cons]
    · have hne : p.1 ≠ k := (hl.1 _ hm).ne
      rw [lookup_cons, if_neg hne]
      exact ih hl.2 hm

/-- A lookup finds the value of a key, where no key occurs twice. -/
theorem lookup_eq_some_iff_of_nodup {k : K} {v : V} {l : List (K × V)}
    (hl : (l.map Prod.fst).Nodup) : lookup k l = some v ↔ (k, v) ∈ l := by
  refine ⟨mem_of_lookup, fun hm => ?_⟩
  induction l with
  | nil => cases hm
  | cons p l ih =>
    rw [List.map_cons, List.nodup_cons] at hl
    rcases List.mem_cons.mp hm with rfl | hm
    · simp [lookup_cons]
    · have hne : p.1 ≠ k := by
        rintro rfl
        exact hl.1 (List.mem_map.mpr ⟨_, hm, rfl⟩)
      rw [lookup_cons, if_neg hne]
      exact ih hl.2 hm

/-- A lookup in a list without the entries of a key. -/
theorem lookup_filter_ne (k a : K) (l : List (K × V)) :
    lookup k (l.filter fun p => p.1 ≠ a) = if k = a then none else lookup k l := by
  induction l with
  | nil => simp [lookup_nil]
  | cons p l ih =>
    by_cases hp : p.1 = a
    · rw [List.filter_cons_of_neg (by simpa using hp), ih, lookup_cons]
      by_cases hk : k = a
      · rw [if_pos hk, if_pos hk]
      · have hne : p.1 ≠ k := fun h => hk (h ▸ hp)
        rw [if_neg hk, if_neg hk, if_neg hne]
    · rw [List.filter_cons_of_pos (by simpa using hp), lookup_cons, lookup_cons, ih]
      by_cases hk : k = a
      · have hne : p.1 ≠ k := fun h => hp (h.trans hk)
        rw [if_pos hk, if_pos hk, if_neg hne]
      · rw [if_neg hk, if_neg hk]

/-- Two sorted lists with the same lookups are the same list. -/
theorem ext_of_lookup {l l' : List (K × V)} (hl : Sorted l) (hl' : Sorted l')
    (h : ∀ k, lookup k l = lookup k l') : l = l' := by
  have hmem : ∀ p, p ∈ l ↔ p ∈ l' := fun ⟨k, v⟩ => by
    rw [← lookup_eq_some_iff hl, ← lookup_eq_some_iff hl', h]
  refine @List.Perm.eq_of_pairwise _ (fun a b : K × V => a.1 < b.1) _ _ ?_ hl hl' ?_
  · intro a b _ _ hab hba
    exact absurd hab hba.asymm
  · rw [List.perm_ext_iff_of_nodup]
    · exact hmem
    · exact hl.imp fun hab heq => by rw [heq] at hab; exact lt_irrefl _ hab
    · exact hl'.imp fun hab heq => by rw [heq] at hab; exact lt_irrefl _ hab

/-! ## Writes -/

/-- A write changes the lookup of its own key only. -/
theorem lookup_insert (k q : K) (v : V) {l : List (K × V)} (hl : Sorted l) :
    lookup q (insert k v l) = if k = q then some v else lookup q l := by
  induction l with
  | nil => rfl
  | cons p l ih =>
    obtain ⟨a, w⟩ := p
    rw [Sorted, List.pairwise_cons] at hl
    rcases lt_trichotomy k a with h | rfl | h
    · simp only [insert, if_pos h, lookup_cons]
    · simp only [insert, if_neg (lt_irrefl k), lookup_cons]
      split_ifs <;> rfl
    · simp only [insert, if_neg h.asymm, if_pos h, lookup_cons, ih hl.2]
      by_cases hq : k = q
      · rw [if_neg (hq ▸ h.ne), if_pos hq, if_pos hq]
      · rw [if_neg hq, if_neg hq]

/-- A map with a write is not empty. -/
theorem insert_ne_nil (k : K) (v : V) (l : List (K × V)) : insert k v l ≠ [] := by
  cases l with
  | nil => simp [insert]
  | cons p l =>
    rw [insert]
    split_ifs <;> simp

/-- The keys of a written list are the written key and the old ones. -/
theorem mem_insert {k : K} {v : V} {l : List (K × V)} {p : K × V} (h : p ∈ insert k v l) :
    p = (k, v) ∨ p ∈ l := by
  induction l with
  | nil => simpa [insert] using h
  | cons q l ih =>
    obtain ⟨a, w⟩ := q
    simp only [insert] at h
    split_ifs at h with h1 h2
    · simpa using h
    · rcases List.mem_cons.mp h with rfl | h
      · simp
      · rcases ih h with rfl | h
        · simp
        · simp [h]
    · rcases List.mem_cons.mp h with rfl | h
      · simp
      · simp [h]

/-- A write keeps the order. -/
theorem Sorted.insert {l : List (K × V)} (hl : Sorted l) (k : K) (v : V) :
    Sorted (insert k v l) := by
  induction l with
  | nil => simp [Assoc.insert, Sorted]
  | cons p l ih =>
    obtain ⟨a, w⟩ := p
    have hl' := hl
    rw [Sorted, List.pairwise_cons] at hl
    simp only [Assoc.insert]
    split_ifs with h1 h2
    · refine List.pairwise_cons.mpr ⟨?_, hl'⟩
      intro q hq
      rcases List.mem_cons.mp hq with rfl | hq
      · exact h1
      · exact h1.trans (hl.1 q hq)
    · refine List.pairwise_cons.mpr ⟨?_, ih hl.2⟩
      intro q hq
      rcases mem_insert hq with rfl | hq
      · exact h2
      · exact hl.1 q hq
    · obtain rfl : k = a := le_antisymm (not_lt.mp h2) (not_lt.mp h1)
      exact List.pairwise_cons.mpr ⟨fun q hq => hl.1 q hq, hl.2⟩

/-! ## Maps laid over each other -/

/-- Laying a map over a sorted one keeps the order. -/
theorem Sorted.overlay {base : List (K × V)} (hb : Sorted base) (top : List (K × V)) :
    Sorted (overlay top base) := by
  induction top with
  | nil => exact hb
  | cons p top ih => exact Sorted.insert ih p.1 p.2

/-- A lookup in a map laid over another tries the top one first. -/
theorem lookup_overlay (k : K) (top : List (K × V)) {base : List (K × V)} (hb : Sorted base) :
    lookup k (overlay top base) = (lookup k top).or (lookup k base) := by
  induction top with
  | nil => simp [overlay]
  | cons p top ih =>
    have hs : Sorted (overlay top base) := hb.overlay top
    rw [overlay, List.foldr_cons, ← overlay, lookup_insert _ _ _ hs, ih, lookup_cons]
    split_ifs <;> rfl

/-- A map laid over nothing. -/
theorem overlay_nil {l : List (K × V)} (hl : Sorted l) : overlay l [] = l := by
  refine ext_of_lookup (Sorted.overlay List.Pairwise.nil l) hl fun k => ?_
  rw [lookup_overlay k l List.Pairwise.nil, lookup_nil, Option.or_none]

/-- Maps laid over each other are sorted. -/
theorem sorted_overlays (ls : List (List (K × V))) : Sorted (overlays ls) := by
  induction ls with
  | nil => exact List.Pairwise.nil
  | cons l ls ih => exact ih.overlay l

/-- A lookup in maps laid over each other finds the value of the first map that has the key. -/
theorem lookup_overlays (k : K) (ls : List (List (K × V))) :
    lookup k (overlays ls) = ls.findSome? (lookup k) := by
  induction ls with
  | nil => rfl
  | cons l ls ih =>
    rw [overlays, List.foldr_cons, ← overlays, lookup_overlay _ _ (sorted_overlays ls), ih,
      List.findSome?_cons]
    cases lookup k l <;> rfl

/-! ## Restrictions of a sorted list -/

/-- Maps laid over each other in two groups. -/
theorem overlays_append (ls ls' : List (List (K × V))) :
    overlays (ls ++ ls') = overlay (overlays ls) (overlays ls') := by
  refine ext_of_lookup (sorted_overlays _) ((sorted_overlays ls').overlay _) fun k => ?_
  rw [lookup_overlay k _ (sorted_overlays ls'), lookup_overlays, lookup_overlays, lookup_overlays,
    List.findSome?_append]

/-- The lookups of a sorted list restricted by a predicate on its bindings. -/
theorem lookup_filter (k : K) (f : K × V → Bool) {l : List (K × V)} (hl : Sorted l) :
    lookup k (l.filter f) = (lookup k l).filter fun v => f (k, v) := by
  have hf : Sorted (l.filter f) := List.Pairwise.filter f hl
  apply Option.ext
  intro v
  rw [lookup_eq_some_iff hf, List.mem_filter, Option.filter_eq_some_iff, lookup_eq_some_iff hl]

/-- A predicate that holds of all keys below one that it holds of cuts a sorted list in two: what
`takeWhile` leaves. -/
theorem takeWhile_eq_filter {p : K → Bool} (hp : ∀ a b, a < b → p b = true → p a = true)
    {l : List (K × V)} (hl : Sorted l) :
    l.takeWhile (fun e => p e.1) = l.filter fun e => p e.1 := by
  induction l with
  | nil => rfl
  | cons e l ih =>
    rw [Sorted, List.pairwise_cons] at hl
    by_cases he : p e.1 = true
    · rw [List.takeWhile_cons, if_pos he, List.filter_cons, if_pos he, ih hl.2]
    · rw [List.takeWhile_cons, if_neg he, List.filter_cons, if_neg he, eq_comm,
        List.filter_eq_nil_iff]
      exact fun e' he' hpe' => he (hp _ _ (hl.1 e' he') hpe')

/-- What `dropWhile` leaves of a sorted list that such a predicate cuts in two. -/
theorem dropWhile_eq_filter {p : K → Bool} (hp : ∀ a b, a < b → p b = true → p a = true)
    {l : List (K × V)} (hl : Sorted l) :
    l.dropWhile (fun e => p e.1) = l.filter fun e => !p e.1 := by
  induction l with
  | nil => rfl
  | cons e l ih =>
    rw [Sorted, List.pairwise_cons] at hl
    by_cases he : p e.1 = true
    · rw [List.dropWhile_cons, if_pos he, List.filter_cons, if_neg (by simpa using he), ih hl.2]
    · rw [List.dropWhile_cons, if_neg he, eq_comm, List.filter_eq_self]
      intro e' he'
      rcases List.mem_cons.mp he' with rfl | he'
      · simpa using he
      · by_contra hpe'
        exact he (hp _ _ (hl.1 e' he') (by simpa using hpe'))

theorem seek_cons_of_lt {k : K} {p : K × V} (h : p.1 < k) (l : List (K × V)) :
    seek k (p :: l) = seek k l :=
  List.dropWhile_cons_of_pos (by simpa using h)

theorem seek_cons_of_le {k : K} {p : K × V} (h : k ≤ p.1) (l : List (K × V)) :
    seek k (p :: l) = p :: l :=
  List.dropWhile_cons_of_neg (by simpa using h)

/-- In a sorted list, `seek` leaves the bindings whose key is not below `k`. -/
theorem seek_eq_filter (k : K) {l : List (K × V)} (hl : Sorted l) :
    seek k l = l.filter fun e => decide (k ≤ e.1) := by
  rw [seek, dropWhile_eq_filter (p := fun a => decide (a < k))
    (fun a b hab hb => by simpa using hab.trans (by simpa using hb)) hl]
  exact List.filter_congr fun e _ => by simp [← not_lt]

/-- The bindings that `seek` leaves. -/
theorem mem_seek_iff {k : K} {l : List (K × V)} (hl : Sorted l) {p : K × V} :
    p ∈ seek k l ↔ p ∈ l ∧ k ≤ p.1 := by
  rw [seek_eq_filter k hl, List.mem_filter, decide_eq_true_eq]

/-- Bindings below `k` in front do not change what `seek` leaves. -/
theorem seek_append_of_lt {k : K} {l : List (K × V)} (h : ∀ p ∈ l, p.1 < k) (l' : List (K × V)) :
    seek k (l ++ l') = seek k l' := by
  induction l with
  | nil => rfl
  | cons p l ih =>
    rw [List.forall_mem_cons] at h
    rw [List.cons_append, seek_cons_of_lt h.1, ih h.2]

/-- Bindings from `k` on at the end all stay behind what `seek` leaves of the front. -/
theorem seek_append_of_le {k : K} (l : List (K × V)) {l' : List (K × V)}
    (h : ∀ p ∈ l', k ≤ p.1) : seek k (l ++ l') = seek k l ++ l' := by
  induction l with
  | nil =>
    cases l' with
    | nil => rfl
    | cons p l' => exact seek_cons_of_le (h p (by simp)) l'
  | cons p l ih =>
    rcases lt_or_ge p.1 k with hp | hp
    · rw [List.cons_append, seek_cons_of_lt hp, seek_cons_of_lt hp, ih]
    · rw [List.cons_append, seek_cons_of_le hp, seek_cons_of_le hp, List.cons_append]

/-- What `seek` leaves of a sorted list is sorted. -/
theorem Sorted.seek {l : List (K × V)} (hl : Sorted l) (k : K) : Sorted (seek k l) :=
  List.Pairwise.sublist (List.dropWhile_sublist _) hl

/-- Later bindings of a sorted list have larger keys. -/
theorem Sorted.lt_of_getElem? {l : List (K × V)} (hl : Sorted l) {i j : ℕ} {p q : K × V}
    (hp : l[i]? = some p) (hq : l[j]? = some q) (hij : i < j) : p.1 < q.1 := by
  obtain ⟨hi, rfl⟩ := List.getElem?_eq_some_iff.mp hp
  obtain ⟨hj, rfl⟩ := List.getElem?_eq_some_iff.mp hq
  exact List.pairwise_iff_getElem.mp hl i j hi hj hij

/-- An index splits a list at `k` when the keys before it are below `k` and the others are not. -/
theorem drop_eq_seek {l : List (K × V)} {i : ℕ} {k : K}
    (hlt : ∀ j p, l[j]? = some p → j < i → p.1 < k)
    (hge : ∀ j p, l[j]? = some p → i ≤ j → k ≤ p.1) :
    l.drop i = seek k l := by
  induction l generalizing i with
  | nil => simp [seek]
  | cons p l ih =>
    cases i with
    | zero =>
      have hp : k ≤ p.1 := hge 0 p rfl le_rfl
      rw [List.drop_zero, seek_cons_of_le hp]
    | succ i =>
      have hp : p.1 < k := hlt 0 p rfl (Nat.succ_pos i)
      rw [List.drop_succ_cons, seek_cons_of_lt hp]
      exact ih (fun j q hq hj => hlt (j + 1) q hq (by omega))
        (fun j q hq hj => hge (j + 1) q hq (by omega))

end Assoc
