import MiniLsm.Iterators
import MiniLsm.TableSpec
import MiniLsm.Lib.Merging

/-!
# What the merging iterators yield

`TwoMergeIterator` lays the entries of its first iterator over those of the second
(`TwoMergeIterator.create_yields`), `MergeIterator` lays the entries of a list of iterators over
each other with the first one on top (`MergeIterator.create_yields`), `SstConcatIterator` yields the
entries of its tables one after the other, from the first one or from a key on, and `LsmIterator`
stops at its end bound and leaves out the empty values, which mark deleted keys.
-/

namespace MiniLsm

open Cursor (Yields Good entries)
open scoped List

/-! ## `TwoMergeIterator` -/

namespace TwoMergeIterator

variable {A B : Type} [Cursor A Bytes Bytes Error] [Cursor B Bytes Bytes Error]

/-- Where the first iterator has no entries left, the second one is read. -/
theorem yields_of_nil {a : A} (ha : Yields a []) {b : B} {lb : List (Bytes × Bytes)}
    (hb : Yields b lb) : Yields (⟨a, b, false⟩ : TwoMergeIterator A B) lb := by
  induction hb with
  | nil hv => exact .nil hv
  | @cons b b' lb hv hn hlt hy ih =>
    have hskip : skipB a b' = .ok b' := by
      rw [skipB, if_neg (by simp [ha.isValid_nil])]
    have hch : chooseA a b' = false := by simp [chooseA, ha.isValid_nil]
    refine Yields.cons_of (p := (Cursor.key b, Cursor.value b)) hv rfl rfl ?_ ?_ ih
    · show next ⟨a, b, false⟩ = _
      simp only [next, Bool.false_eq_true, if_false, hn, ok_bind, create, hskip, hch]
    · exact hlt.trans_le (Nat.le_add_left _ _)

/-- The iterator that has just moved, or was just created, when `a` stands at the smaller key. -/
theorem yields_cons_first {a a' : A} {b : B} {k v : Bytes} {l : List (Bytes × Bytes)}
    (hv : Cursor.isValid a = true) (hk : Cursor.key a = k) (hw : Cursor.value a = v)
    (hn : Cursor.next a = .ok a') (hlt : l.length < Cursor.bound a + Cursor.bound b)
    (h : ∃ it, create a' b = .ok it ∧ Yields it l) :
    Yields (⟨a, b, true⟩ : TwoMergeIterator A B) ((k, v) :: l) := by
  obtain ⟨it, hc, hy⟩ := h
  refine Yields.cons_of hv hk hw ?_ hlt hy
  show next ⟨a, b, true⟩ = _
  rw [next, if_pos rfl, hn, ok_bind, hc]

/-- The iterator that has just moved, or was just created, when `b` stands at the smaller key. -/
theorem yields_cons_second {a : A} {b b' : B} {k v : Bytes} {l : List (Bytes × Bytes)}
    (hv : Cursor.isValid b = true) (hk : Cursor.key b = k) (hw : Cursor.value b = v)
    (hn : Cursor.next b = .ok b') (hlt : l.length < Cursor.bound a + Cursor.bound b)
    (h : ∃ it, create a b' = .ok it ∧ Yields it l) :
    Yields (⟨a, b, false⟩ : TwoMergeIterator A B) ((k, v) :: l) := by
  obtain ⟨it, hc, hy⟩ := h
  refine Yields.cons_of hv hk hw ?_ hlt hy
  show next ⟨a, b, false⟩ = _
  rw [next, if_neg (by simp), hn, ok_bind, hc]

/-- Where the second iterator has no entries, the first one is read, in whatever order its keys
are. -/
theorem create_of_nil {a : A} {b : B} {l : List (Bytes × Bytes)} (ha : Yields a l)
    (hb : Yields b []) : ∃ it, create a b = .ok it ∧ Yields it l := by
  have hvb := hb.isValid_nil
  have hskip : ∀ a : A, skipB a b = .ok b := fun a => by simp [skipB, hvb]
  induction ha with
  | @nil a hv =>
    refine ⟨⟨a, b, false⟩, ?_, .nil hvb⟩
    rw [create, hskip, ok_bind, chooseA, hv]
    rfl
  | @cons a a' l hv hn hlt hy ih =>
    refine ⟨⟨a, b, true⟩, ?_, ?_⟩
    · rw [create, hskip, ok_bind, chooseA, hv, hvb]
      rfl
    · exact yields_cons_first hv rfl rfl hn (hlt.trans_le (Nat.le_add_right _ _)) ih

/-- The merge of two iterators yields the entries of the first laid over those of the second. -/
theorem create_yields {a : A} {b : B} {la lb : List (Bytes × Bytes)} (ha : Yields a la)
    (hb : Yields b lb) (hsa : Assoc.Sorted la) (hsb : Assoc.Sorted lb) :
    ∃ it, create a b = .ok it ∧ Yields it (Assoc.overlay la lb) := by
  -- Each move takes an entry off one of the lists or off both.
  induction hm : la.length + lb.length using Nat.strong_induction_on generalizing a b la lb with
  | _ m ih =>
    subst hm
    rcases la with _ | ⟨⟨k, v⟩, ra⟩
    · have hskip : skipB a b = .ok b := by rw [skipB, if_neg (by simp [ha.isValid_nil])]
      have hch : chooseA a b = false := by simp [chooseA, ha.isValid_nil]
      exact ⟨_, by rw [create, hskip, ok_bind, hch], yields_of_nil ha hb⟩
    obtain ⟨hva, hka, hwa, hba, a', hna, hya⟩ := ha.isValid_cons
    have hsa' : Assoc.Sorted ra := hsa.of_cons
    rcases lb with _ | ⟨⟨k', v'⟩, rb⟩
    · have hskip : skipB a b = .ok b := by simp [skipB, hva, hb.isValid_nil]
      have hch : chooseA a b = true := by simp [chooseA, hva, hb.isValid_nil]
      refine ⟨_, by rw [create, hskip, ok_bind, hch], ?_⟩
      rw [Assoc.overlay_cons_of_lt hsa (by simp)]
      refine yields_cons_first hva hka hwa hna ?_ (ih _ (by simp) hya hb hsa' hsb rfl)
      have := Assoc.length_overlay_le ra ([] : List (Bytes × Bytes))
      simp only [List.length_nil] at this
      omega
    obtain ⟨hvb, hkb, hwb, hbb, b', hnb, hyb⟩ := hb.isValid_cons
    have hsb' : Assoc.Sorted rb := hsb.of_cons
    have hrb := (List.pairwise_cons.mp hsb).1
    rcases lt_trichotomy k k' with hlt | rfl | hlt
    · have hskip : skipB a b = .ok b := by simp [skipB, hva, hvb, hka, hkb, hlt.ne']
      have hch : chooseA a b = true := by simp [chooseA, hva, hvb, hka, hkb, hlt]
      refine ⟨_, by rw [create, hskip, ok_bind, hch], ?_⟩
      rw [Assoc.overlay_cons_of_lt hsa
        (by simpa using ⟨hlt, fun p q hpq => hlt.trans (hrb (p, q) hpq)⟩)]
      refine yields_cons_first hva hka hwa hna ?_ (ih _ (by simp) hya hb hsa' hsb rfl)
      have := Assoc.length_overlay_le ra ((k', v') :: rb)
      rw [List.length_cons] at this
      omega
    · -- The entry of `b` is shadowed: `skip_b` moves over it.
      have hskip : skipB a b = .ok b' := by simp [skipB, hva, hvb, hka, hkb, hnb]
      have hch : chooseA a b' = true := by
        rcases rb with _ | ⟨⟨k', v'⟩, rb⟩
        · simp [chooseA, hva, hyb.isValid_nil]
        · have hlt : k < k' := hrb (k', v') (by simp)
          simp [chooseA, hva, hyb.isValid_cons.1, hka, hyb.isValid_cons.2.1, hlt]
      refine ⟨_, by rw [create, hskip, ok_bind, hch], ?_⟩
      rw [Assoc.overlay_cons_cons hsa]
      refine yields_cons_first hva hka hwa hna ?_ (ih _ (by simp; omega) hya hyb hsa' hsb' rfl)
      have := Assoc.length_overlay_le ra rb
      have := hyb.length_le
      omega
    · have hskip : skipB a b = .ok b := by simp [skipB, hva, hvb, hka, hkb, hlt.ne]
      have hch : chooseA a b = false := by simp [chooseA, hva, hvb, hka, hkb, hlt.asymm]
      refine ⟨_, by rw [create, hskip, ok_bind, hch], ?_⟩
      have hra := (List.pairwise_cons.mp hsa).1
      rw [Assoc.overlay_cons_right
        (by simpa using ⟨hlt, fun p q hpq => hlt.trans (hra (p, q) hpq)⟩)]
      refine yields_cons_second hvb hkb hwb hnb ?_ (ih _ (by simp) ha hyb hsa hsb' rfl)
      have := Assoc.length_overlay_le ((k, v) :: ra) rb
      rw [List.length_cons] at this
      omega

end TwoMergeIterator

/-! ## `MergeIterator` -/

namespace MergeIterator

variable {ι : Type} [Cursor ι Bytes Bytes Error]

/-- One element is above another in the heap when it stands at a smaller key, or at the same key and
has a smaller index. -/
def Before (w w' : HeapWrapper ι) : Prop :=
  Cursor.key w.iter < Cursor.key w'.iter ∨
    Cursor.key w.iter = Cursor.key w'.iter ∧ w.index < w'.index

theorem lt_iff_before (w w' : HeapWrapper ι) : w'.lt w = true ↔ Before w w' := by
  unfold HeapWrapper.lt Before
  dsimp only
  rcases compare_spec (Cursor.key w'.iter) (Cursor.key w.iter) with ⟨h, hc⟩ | ⟨h, hc⟩ | ⟨h, hc⟩
  · simp [hc, h.asymm, h.ne']
  · rw [if_neg (not_not.mpr hc), h]
    simp
  · simp [hc, h]

theorem Before.trans {w₁ w₂ w₃ : HeapWrapper ι} (h : Before w₁ w₂) (h' : Before w₂ w₃) :
    Before w₁ w₃ := by
  unfold Before at *
  grind

/-- Of two elements with different indices, one is above the other. -/
theorem before_total {w w' : HeapWrapper ι} (h : w.index ≠ w'.index) :
    Before w w' ∨ Before w' w := by
  unfold Before
  grind

/-- An element stands at no larger key than those below it. -/
theorem Before.key_le {w w' : HeapWrapper ι} (h : Before w w') :
    Cursor.key w.iter ≤ Cursor.key w'.iter :=
  h.elim le_of_lt fun h => h.1.le

/-- The elements of a heap from its front on: numbered without repetition, each at an entry, with
the entries to come in order. -/
structure Pool (ws : List (HeapWrapper ι)) : Prop where
  ordered : ws.Pairwise Before
  nodup : (ws.map HeapWrapper.index).Nodup
  good : ∀ w ∈ ws, Good w.iter
  valid : ∀ w ∈ ws, Cursor.isValid w.iter = true
  sorted : ∀ w ∈ ws, Assoc.Sorted (entries w.iter)

/-- The index and the entries to come of an element. -/
noncomputable def rep (w : HeapWrapper ι) : ℕ × List (Bytes × Bytes) := (w.index, entries w.iter)

theorem Pool.tail {w : HeapWrapper ι} {ws : List (HeapWrapper ι)} (h : Pool (w :: ws)) : Pool ws :=
  ⟨h.ordered.of_cons, (List.nodup_cons.mp h.nodup).2, fun x hx => h.good x (by simp [hx]),
    fun x hx => h.valid x (by simp [hx]), fun x hx => h.sorted x (by simp [hx])⟩

/-- A pushed element goes to its place. -/
theorem pushHeap_ordered {w : HeapWrapper ι} {ws : List (HeapWrapper ι)} (h : ws.Pairwise Before)
    (hw : ∀ w' ∈ ws, w'.index ≠ w.index) : (pushHeap w ws).Pairwise Before := by
  induction ws with
  | nil => simp [pushHeap]
  | cons x ws ih =>
    rw [List.pairwise_cons] at h
    rw [List.forall_mem_cons] at hw
    rw [pushHeap, List.orderedInsert_cons]
    split_ifs with hlt
    · rw [lt_iff_before] at hlt
      refine List.pairwise_cons.mpr ⟨?_, List.pairwise_cons.mpr h⟩
      intro y hy
      rcases List.mem_cons.mp hy with rfl | hy
      · exact hlt
      · exact hlt.trans (h.1 y hy)
    · rw [lt_iff_before] at hlt
      refine List.pairwise_cons.mpr ⟨?_, ih h.2 hw.2⟩
      intro y hy
      rcases List.mem_cons.mp ((List.perm_orderedInsert _ w ws).mem_iff.mp hy) with rfl | hy
      · exact (before_total hw.1).resolve_right hlt
      · exact h.1 y hy

/-- A pushed element belongs to the pool. -/
theorem Pool.push {i : ℕ} {iter : ι} {ws : List (HeapWrapper ι)} (h : Pool ws)
    (hw : i ∉ ws.map HeapWrapper.index) (hg : Good iter) (hv : Cursor.isValid iter = true)
    (hs : Assoc.Sorted (entries iter)) : Pool (pushHeap ⟨i, iter⟩ ws) := by
  obtain ⟨w, hwi⟩ : ∃ w : HeapWrapper ι, w = ⟨i, iter⟩ := ⟨_, rfl⟩
  rw [← hwi]
  have hperm : pushHeap w ws ~ w :: ws := List.perm_orderedInsert _ w ws
  have hmem : ∀ x, x ∈ pushHeap w ws ↔ x = w ∨ x ∈ ws := fun x =>
    hperm.mem_iff.trans List.mem_cons
  refine ⟨pushHeap_ordered h.ordered ?_, ?_, ?_, ?_, ?_⟩
  · rintro w' hw' heq
    rw [hwi] at heq
    exact hw (List.mem_map.mpr ⟨w', hw', heq⟩)
  · rw [(hperm.map _).nodup_iff, List.map_cons, List.nodup_cons, hwi]
    exact ⟨hw, h.nodup⟩
  · intro x hx
    rcases (hmem x).mp hx with rfl | hx
    · rwa [hwi]
    · exact h.good x hx
  · intro x hx
    rcases (hmem x).mp hx with rfl | hx
    · rwa [hwi]
    · exact h.valid x hx
  · intro x hx
    rcases (hmem x).mp hx with rfl | hx
    · rwa [hwi]
    · exact h.sorted x hx

/-- What a move does to an element of the pool: the entry it stands at is dropped, and the entries
to come have larger keys. -/
theorem Pool.move {w : HeapWrapper ι} {ws : List (HeapWrapper ι)} (h : Pool ws) (hw : w ∈ ws) :
    ∃ iter, Cursor.next w.iter = .ok iter ∧ Good iter ∧ Assoc.Sorted (entries iter) ∧
      entries w.iter = (Cursor.key w.iter, Cursor.value w.iter) :: entries iter ∧
      Assoc.dropKey (Cursor.key w.iter) (entries w.iter) = entries iter ∧
      ∀ e ∈ entries iter, Cursor.key w.iter < e.1 := by
  obtain ⟨iter, l, hn, hg, rfl, he⟩ := (h.good w hw).step (h.valid w hw)
  have hs := h.sorted w hw
  rw [he] at hs
  refine ⟨iter, hn, hg, hs.of_cons, he, ?_, (List.pairwise_cons.mp hs).1⟩
  rw [he, Assoc.dropKey_cons hs]

/-- A good iterator at an entry stands at the first of its entries. -/
theorem key_mem_entries {iter : ι} (hg : Good iter) (hv : Cursor.isValid iter = true) :
    (Cursor.key iter, Cursor.value iter) ∈ entries iter := by
  obtain ⟨iter', l, -, -, -, he⟩ := hg.step hv
  rw [he]
  exact List.mem_cons_self

/-- The entries to come have no smaller key than the one the element stands at. -/
theorem Pool.key_le {w : HeapWrapper ι} {ws : List (HeapWrapper ι)} (h : Pool ws) (hw : w ∈ ws)
    {e : Bytes × Bytes} (he : e ∈ entries w.iter) : Cursor.key w.iter ≤ e.1 := by
  obtain ⟨iter, -, -, -, heq, -, hgt⟩ := h.move hw
  rw [heq] at he
  rcases List.mem_cons.mp he with rfl | he
  · exact le_rfl
  · exact (hgt e he).le

/-- The loop of `next` drops a key, no larger than any of the pool's, from all elements. -/
theorem skipEqual_spec (k : Bytes) (n : ℕ) {ws : List (HeapWrapper ι)} (h : Pool ws)
    (hge : ∀ w ∈ ws, k ≤ Cursor.key w.iter)
    (hn : ws.countP (fun w => decide (Cursor.key w.iter = k)) < n) :
    ∃ ws', skipEqual k n ws = .ok ws' ∧ Pool ws' ∧
      ws'.map HeapWrapper.index ⊆ ws.map HeapWrapper.index ∧
      ∀ p, p.2 ≠ [] → (p ∈ ws'.map rep ↔
        p ∈ (ws.map rep).map fun p => (p.1, Assoc.dropKey k p.2)) := by
  -- Each round moves an element that stands at `k`, so that there is one less of them.
  induction n generalizing ws with
  | zero => omega
  | succ n ih =>
    rcases ws with _ | ⟨top, heap⟩
    · exact ⟨[], rfl, h, by simp, by simp⟩
    by_cases hk : Cursor.key top.iter = k
    · obtain ⟨iter, hnext, hg, hs, -, hdrop, hgt⟩ := h.move (w := top) (by simp)
      have hidx : top.index ∉ heap.map HeapWrapper.index := (List.nodup_cons.mp h.nodup).1
      rw [List.countP_cons_of_pos (by simpa using hk)] at hn
      rw [hk] at hdrop hgt
      rw [skipEqual, if_pos hk, hnext, ok_bind]
      split_ifs with hv
      · have hperm : pushHeap ⟨top.index, iter⟩ heap ~ ⟨top.index, iter⟩ :: heap :=
          List.perm_orderedInsert _ _ heap
        have hkey : k < Cursor.key iter := hgt _ (key_mem_entries hg hv)
        obtain ⟨ws', hws', hpool, hsub, hiff⟩ := ih (h.tail.push hidx hg hv hs)
          (by
            intro w hw
            rcases List.mem_cons.mp (hperm.mem_iff.mp hw) with rfl | hw
            · exact hkey.le
            · exact hge w (List.mem_cons_of_mem _ hw))
          (by
            rw [hperm.countP_eq, List.countP_cons_of_neg (by simpa using hkey.ne')]
            omega)
        refine ⟨ws', hws', hpool, ?_, fun p hp => ?_⟩
        · intro i hi
          have := hsub hi
          rwa [(hperm.map _).mem_iff] at this
        · rw [hiff p hp, ((hperm.map rep).map _).mem_iff]
          simp only [List.map_cons, rep, hdrop, Assoc.dropKey_of_lt hgt]
      · have hnil : entries iter = [] := by
          by_contra hc
          exact hv (hg.isValid_iff.mpr hc)
        obtain ⟨ws', hws', hpool, hsub, hiff⟩ :=
          ih h.tail (fun w hw => hge w (List.mem_cons_of_mem _ hw)) (by omega)
        refine ⟨ws', hws', hpool, fun i hi => List.mem_cons_of_mem _ (hsub hi), fun p hp => ?_⟩
        rw [hiff p hp, List.map_cons, List.map_cons, List.mem_cons, or_iff_right]
        rintro rfl
        exact hp (hdrop.trans hnil)
    · have hlt : ∀ w ∈ top :: heap, k < Cursor.key w.iter := by
        have htop : k < Cursor.key top.iter := lt_of_le_of_ne (hge top (by simp)) (Ne.symm hk)
        intro w hw
        rcases List.mem_cons.mp hw with rfl | hw
        · exact htop
        · exact htop.trans_le ((List.pairwise_cons.mp h.ordered).1 w hw).key_le
      refine ⟨top :: heap, by rw [skipEqual, if_neg hk], h, fun _ hi => hi, fun p _ => ?_⟩
      rw [List.map_map, List.map_congr_left fun w hw => ?_]
      simp only [Function.comp, rep]
      rw [Assoc.dropKey_of_lt fun e he => (hlt w hw).trans_le (h.key_le hw he)]

/-- The elements that stand at a key are no more than the entries to come. -/
theorem Pool.countP_le (k : Bytes) {ws : List (HeapWrapper ι)} (h : Pool ws) :
    ws.countP (fun w => decide (Cursor.key w.iter = k)) ≤
      (ws.map fun w => Cursor.bound w.iter).sum := by
  have hpos : ∀ b ∈ ws.map fun w => Cursor.bound w.iter, 1 ≤ b := by
    intro b hb
    obtain ⟨w, hw, rfl⟩ := List.mem_map.mp hb
    have hlen := (h.good w hw).yields.length_le
    have hne := List.length_pos_iff.mpr ((h.good w hw).isValid_iff.mp (h.valid w hw))
    omega
  calc ws.countP _ ≤ ws.length := List.countP_le_length
    _ = (ws.map fun w => Cursor.bound w.iter).length * 1 := by simp
    _ ≤ (ws.map fun w => Cursor.bound w.iter).sum := List.card_nsmul_le_sum _ 1 hpos

/-- `next` moves all elements that stand at the current key, and the largest one left becomes
current. -/
theorem next_spec {c : HeapWrapper ι} {heap : List (HeapWrapper ι)} (h : Pool (c :: heap)) :
    ∃ ws, next ⟨heap, some c⟩ = .ok (popCurrent ws) ∧ Pool ws ∧
      ∀ p, p.2 ≠ [] → (p ∈ ws.map rep ↔ p ∈ ((c :: heap).map rep).map fun p =>
        (p.1, Assoc.dropKey (Cursor.key c.iter) p.2)) := by
  have hge : ∀ w ∈ heap, Cursor.key c.iter ≤ Cursor.key w.iter := fun w hw =>
    ((List.pairwise_cons.mp h.ordered).1 w hw).key_le
  obtain ⟨heap', hskip, hpool, hsub, hiff⟩ := skipEqual_spec (Cursor.key c.iter)
    ((heap.map fun w => Cursor.bound w.iter).sum + 1) h.tail hge
    (Nat.lt_succ_of_le (h.tail.countP_le _))
  obtain ⟨iter, hnext, hg, hs, -, hdrop, -⟩ := h.move (w := c) (by simp)
  have hidx : c.index ∉ heap'.map HeapWrapper.index := fun hi =>
    (List.nodup_cons.mp h.nodup).1 (hsub hi)
  have heq : ∀ p, p.2 ≠ [] → (p ∈ (c.index, entries iter) :: heap'.map rep ↔
      p ∈ ((c :: heap).map rep).map fun p => (p.1, Assoc.dropKey (Cursor.key c.iter) p.2)) := by
    intro p hp
    rw [List.mem_cons, hiff p hp, List.map_cons, List.map_cons, List.mem_cons, rep, hdrop]
  simp only [next, hskip, ok_bind, hnext]
  by_cases hv : Cursor.isValid iter = true
  · -- The current iterator goes back into the heap, from which the largest element is taken.
    have hperm : pushHeap ⟨c.index, iter⟩ heap' ~ ⟨c.index, iter⟩ :: heap' :=
      List.perm_orderedInsert _ _ heap'
    refine ⟨pushHeap ⟨c.index, iter⟩ heap', ?_, hpool.push hidx hg hv hs, fun p hp => ?_⟩
    · rw [if_neg (by simp [hv])]
      rcases heap' with _ | ⟨top, heap'⟩
      · rfl
      · have hne : top.index ≠ c.index := fun he => hidx (by simp [he])
        have hlt : HeapWrapper.lt ⟨c.index, iter⟩ top = true ↔
            ¬ HeapWrapper.lt top ⟨c.index, iter⟩ = true := by
          rw [lt_iff_before, lt_iff_before]
          unfold Before
          grind
        by_cases hb : HeapWrapper.lt ⟨c.index, iter⟩ top = true
        · rw [pushHeap, List.orderedInsert_cons, if_neg (hlt.mp hb)]
          exact if_pos hb
        · rw [pushHeap, List.orderedInsert_cons, if_pos (by tauto)]
          exact if_neg hb
    · rw [← heq p hp, (hperm.map rep).mem_iff]
      rfl
  · have hnil : entries iter = [] := by
      by_contra hc
      exact hv (hg.isValid_iff.mpr hc)
    refine ⟨heap', by rw [if_pos (by simp [hv])], hpool, fun p hp => ?_⟩
    rw [← heq p hp, List.mem_cons, or_iff_right]
    rintro rfl
    exact hp hnil

/-- The merge has no more entries than the iterators. -/
theorem Pool.length_le {ws : List (HeapWrapper ι)} (h : Pool ws) {l : List (Bytes × Bytes)}
    (hl : Assoc.Merges (ws.map rep) l) : l.length ≤ (ws.map fun w => Cursor.bound w.iter).sum := by
  have hsum : ∀ ws : List (HeapWrapper ι), (∀ w ∈ ws, Good w.iter) →
      (ws.flatMap fun w => entries w.iter).length ≤ (ws.map fun w => Cursor.bound w.iter).sum := by
    intro ws hg
    induction ws with
    | nil => simp
    | cons w ws ih =>
      rw [List.forall_mem_cons] at hg
      have := hg.1.yields.length_le
      have := ih hg.2
      rw [List.flatMap_cons, List.length_append, List.map_cons, List.sum_cons]
      omega
  have hnodup : l.Nodup := hl.sorted.imp fun hab heq => by
    rw [heq] at hab
    exact lt_irrefl _ hab
  have hsub : l ⊆ ws.flatMap fun w => entries w.iter := by
    intro e he
    obtain ⟨p, hp, hpe, -⟩ :=
      (hl.lookup_iff e.1 e.2).mp ((Assoc.lookup_eq_some_iff hl.sorted).mpr he)
    obtain ⟨w, hw, rfl⟩ := List.mem_map.mp hp
    exact List.mem_flatMap.mpr ⟨w, hw, Assoc.mem_of_lookup hpe⟩
  exact (List.subperm_of_subset hnodup hsub).length_le.trans (hsum ws h.good)

/-- The merge of a pool starts with the entry at which its first element stands. -/
theorem Pool.merges_cons {c : HeapWrapper ι} {heap : List (HeapWrapper ι)} (h : Pool (c :: heap))
    {l : List (Bytes × Bytes)} (hl : Assoc.Merges ((c :: heap).map rep) l) :
    l = (Cursor.key c.iter, Cursor.value c.iter) :: Assoc.dropKey (Cursor.key c.iter) l := by
  obtain ⟨iter, -, -, -, he, -⟩ := h.move (w := c) (by simp)
  have hbefore := (List.pairwise_cons.mp h.ordered).1
  refine hl.cons (i := c.index) (r := entries iter) ?_ ?_ ?_
  · rw [← he]
    exact List.mem_map_of_mem List.mem_cons_self
  · intro p hp e hep
    obtain ⟨w, hw, rfl⟩ := List.mem_map.mp hp
    refine le_trans ?_ (h.key_le hw hep)
    rcases List.mem_cons.mp hw with rfl | hw
    · exact le_rfl
    · exact (hbefore w hw).key_le
  · -- An element with a smaller index stands at a larger key.
    intro p hp hlt
    obtain ⟨w, hw, rfl⟩ := List.mem_map.mp hp
    rcases List.mem_cons.mp hw with rfl | hw'
    · exact absurd hlt (lt_irrefl _)
    · rw [Assoc.lookup_eq_none_iff]
      intro e hep heq
      rcases hbefore w hw' with hb | hb
      · exact absurd (heq ▸ h.key_le hw hep) hb.not_ge
      · exact absurd hlt hb.2.asymm

/-- The elements of a pool yield their merge. -/
theorem popCurrent_yields {ws : List (HeapWrapper ι)} (h : Pool ws) {l : List (Bytes × Bytes)}
    (hl : Assoc.Merges (ws.map rep) l) : Yields (popCurrent ws) l := by
  -- The induction is on the entries still to come; `next_spec` is its step.
  induction hn : l.length using Nat.strong_induction_on generalizing ws l with
  | _ n ih =>
    rcases ws with _ | ⟨c, heap⟩
    · rw [hl.unique Assoc.merges_nil]
      exact .nil rfl
    obtain ⟨ws, hnext, hpool, hiff⟩ := next_spec h
    have hcons := h.merges_cons hl
    have hrest := (hl.dropKey (fun p hp => by
      obtain ⟨w, hw, rfl⟩ := List.mem_map.mp hp
      exact h.sorted w hw) (Cursor.key c.iter)).congr fun p hp => (hiff p hp).symm
    have hlen := congrArg List.length hcons
    rw [List.length_cons] at hlen
    have hle := h.length_le hl
    rw [hcons]
    refine Yields.cons_of (h.valid c (by simp)) rfl rfl hnext ?_ (ih _ ?_ hpool hrest rfl)
    · show _ < ((c :: heap).map fun w => Cursor.bound w.iter).sum
      omega
    · omega

theorem makeHeap_perm (ws : List (HeapWrapper ι)) : makeHeap ws ~ ws :=
  List.perm_insertionSort _ ws

/-- The heap made of elements with different indices. -/
theorem makeHeap_pool {ws : List (HeapWrapper ι)} (hn : (ws.map HeapWrapper.index).Nodup)
    (h : ∀ w ∈ ws, Good w.iter ∧ Cursor.isValid w.iter = true ∧ Assoc.Sorted (entries w.iter)) :
    Pool (makeHeap ws) := by
  induction ws with
  | nil => exact ⟨List.Pairwise.nil, List.nodup_nil, by simp [makeHeap], by simp [makeHeap],
      by simp [makeHeap]⟩
  | cons w ws ih =>
    rw [List.map_cons, List.nodup_cons] at hn
    rw [List.forall_mem_cons] at h
    obtain ⟨⟨hg, hv, hs⟩, h⟩ := h
    refine (ih hn.2 h).push (i := w.index) ?_ hg hv hs
    rw [((makeHeap_perm ws).map _).mem_iff]
    exact hn.1

/-- The merge of iterators yields their entries laid over each other, the first on top. -/
theorem create_yields {iters : List ι} {ls : List (List (Bytes × Bytes))}
    (h : List.Forall₂ Yields iters ls) (hs : ∀ l ∈ ls, Assoc.Sorted l) :
    Yields (create iters) (Assoc.overlays ls) := by
  obtain rfl : ls = iters.map entries := by
    induction h with
    | nil => rfl
    | cons hy _ ih => rw [List.map_cons, hy.entries_eq, ← ih fun l hl => hs l (by simp [hl])]
  have hg : ∀ it ∈ iters, Good it := by
    intro it hit
    obtain ⟨i, hi, rfl⟩ := List.mem_iff_getElem.mp hit
    exact (List.Forall₂.get h hi (by simpa using hi)).good
  refine popCurrent_yields (makeHeap_pool ?_ ?_) ?_
  · have hsub : ((iters.zipIdx.filter fun p => Cursor.isValid p.1).map Prod.snd).Sublist
        (iters.zipIdx.map Prod.snd) := List.filter_sublist.map _
    rw [List.zipIdx_map_snd] at hsub
    rw [List.map_map]
    exact List.Nodup.sublist hsub List.nodup_range'
  · intro w hw
    obtain ⟨⟨it, i⟩, hp, rfl⟩ := List.mem_map.mp hw
    obtain ⟨hp, hv⟩ := List.mem_filter.mp hp
    have hit : it ∈ iters := List.fst_mem_of_mem_zipIdx hp
    exact ⟨hg it hit, hv, hs _ (List.mem_map_of_mem hit)⟩
  · refine (Assoc.merges_overlays (iters.map entries) 0).congr fun p hp => ?_
    rw [((makeHeap_perm _).map rep).mem_iff, List.zipIdx_map, List.map_map, List.map_map,
      List.mem_map, List.mem_map]
    -- An iterator with entries to come is valid.
    constructor
    · rintro ⟨⟨it, i⟩, hmem, rfl⟩
      refine ⟨(it, i), List.mem_filter.mpr ⟨hmem, ?_⟩, rfl⟩
      exact (hg it (List.fst_mem_of_mem_zipIdx hmem)).isValid_iff.mpr hp
    · rintro ⟨⟨it, i⟩, hmem, rfl⟩
      exact ⟨(it, i), (List.mem_filter.mp hmem).1, rfl⟩

/-- The merge of a single iterator yields its entries, in whatever order its keys are. -/
theorem create_singleton {iter : ι} {l : List (Bytes × Bytes)} (hy : Yields iter l) :
    Yields (create [iter]) l := by
  have hcur : ∀ (i : ℕ) {iter : ι} {l : List (Bytes × Bytes)}, Yields iter l → l ≠ [] →
      Yields (⟨[], some ⟨i, iter⟩⟩ : MergeIterator ι) l := by
    intro i iter l hy
    induction hy with
    | nil => exact fun hne => absurd rfl hne
    | @cons iter iter' l hv hn hlt hy ih =>
      intro _
      have hnext : next (⟨[], some ⟨i, iter⟩⟩ : MergeIterator ι) =
          if !Cursor.isValid iter' then .ok ⟨[], none⟩ else .ok ⟨[], some ⟨i, iter'⟩⟩ := by
        simp only [next, skipEqual, ok_bind, hn, popCurrent]
      have hbound : Cursor.bound (⟨[], some ⟨i, iter⟩⟩ : MergeIterator ι) = Cursor.bound iter :=
        List.sum_singleton
      rcases l with _ | ⟨e, l⟩
      · have hlast : next (⟨[], some ⟨i, iter⟩⟩ : MergeIterator ι) = .ok ⟨[], none⟩ := by
          rw [hnext, hy.isValid_nil]
          rfl
        exact Yields.cons_of hv rfl rfl hlast (by rwa [hbound]) (.nil rfl)
      · have hmore : next (⟨[], some ⟨i, iter⟩⟩ : MergeIterator ι) =
            .ok ⟨[], some ⟨i, iter'⟩⟩ := by
          rw [hnext, hy.isValid_cons.1]
          rfl
        exact Yields.cons_of hv rfl rfl hmore (by rwa [hbound]) (ih (List.cons_ne_nil _ _))
  rcases l with _ | ⟨e, l⟩
  · have hcreate : create [iter] = ⟨[], none⟩ := by
      simp [create, hy.isValid_nil, makeHeap, popCurrent]
    rw [hcreate]
    exact .nil rfl
  · have hcreate : create [iter] = ⟨[], some ⟨0, iter⟩⟩ := by
      simp [create, hy.isValid_cons.1, makeHeap, popCurrent]
    rw [hcreate]
    exact hcur 0 hy (List.cons_ne_nil _ _)

end MergeIterator

/-! ## `SstConcatIterator` -/

namespace SstConcatIterator

variable {E : Extern}

/-- The iterator stands at the entry of its current table, and moves on as that one does. -/
theorem yields_cons {cur cur' : SsTableIterator E} {idx : ℕ} {ts : List SsTable}
    {e : Bytes × Bytes} {l : List (Bytes × Bytes)} (hv : Cursor.isValid cur = true)
    (hk : Cursor.key cur = e.1) (hw : Cursor.value cur = e.2) (hn : Cursor.next cur = .ok cur')
    (hlen : l.length < (ts.map fun t => t.numEntries E).sum)
    (h : ∃ it, moveUntilValid ⟨some cur', idx, ts⟩ = .ok it ∧ Yields it l) :
    Yields (⟨some cur, idx, ts⟩ : SstConcatIterator E) (e :: l) := by
  obtain ⟨it, hm, hy⟩ := h
  refine Yields.cons_of hv hk hw ?_ hlen hy
  show next ⟨some cur, idx, ts⟩ = _
  simp only [next, hn, ok_bind, hm]

/-- `move_until_valid` moves on to the entries of the tables still to come where the current table
has none left. -/
theorem moveUntilValidLoop_yields {ts : List SsTable} {ess : List (List (Bytes × Bytes))}
    {cur : SsTableIterator E} {l : List (Bytes × Bytes)} {idx n : ℕ} (hy : Yields cur l)
    (h : List.Forall₂ (SsTable.Holds E) (ts.drop idx) ess) (hn : (ts.drop idx).length < n)
    (hlen : (l ++ ess.flatten).length ≤ (ts.map fun t => t.numEntries E).sum) :
    ∃ it, moveUntilValidLoop n ⟨some cur, idx, ts⟩ = .ok it ∧ Yields it (l ++ ess.flatten) := by
  -- The outer induction is on the tables still to come, the inner one on the current table.
  induction ess generalizing cur l idx n with
  | nil =>
    obtain ⟨n, rfl⟩ : ∃ m, n = m + 1 := ⟨n - 1, by omega⟩
    have hnone : ts[idx]? = none := by
      rw [List.getElem?_eq_none_iff, ← List.drop_eq_nil_iff]
      exact List.forall₂_nil_right_iff.mp h
    induction l generalizing cur n with
    | nil =>
      refine ⟨⟨none, idx, ts⟩, ?_, .nil rfl⟩
      simp [moveUntilValidLoop, hy.isValid_nil, hnone]
    | cons e l ih =>
      obtain ⟨hv, hk, hw, -, cur', hnext, hy'⟩ := hy.isValid_cons
      refine ⟨⟨some cur, idx, ts⟩, by simp only [moveUntilValidLoop, hv, if_true], ?_⟩
      simp only [List.cons_append, List.length_cons] at hlen ⊢
      refine yields_cons hv hk hw hnext (by omega) (ih hy' (by omega) ts.length ?_)
      rw [List.length_drop]
      omega
  | cons es ess ihess =>
    obtain ⟨n, rfl⟩ : ∃ m, n = m + 1 := ⟨n - 1, by omega⟩
    obtain ⟨t, rest, ht, hrest, hdrop⟩ := List.forall₂_cons_right_iff.mp h
    have hget : ts[idx]? = some t := by
      rw [← List.head?_drop, hdrop]
      rfl
    have hdrop' : ts.drop (idx + 1) = rest := by
      rw [← List.drop_drop, hdrop]
      rfl
    induction l generalizing cur n with
    | nil =>
      obtain ⟨cur', hc, hy'⟩ := SsTableIterator.createAndSeekToFirst_yields ht
      have hstep : moveUntilValidLoop (n + 1) (⟨some cur, idx, ts⟩ : SstConcatIterator E) =
          moveUntilValidLoop n ⟨some cur', idx + 1, ts⟩ := by
        simp only [moveUntilValidLoop, hy.isValid_nil, Bool.false_eq_true, if_false, hget, hc,
          ok_bind]
      rw [hstep]
      refine ihess hy' (by rwa [hdrop']) ?_ (by simpa using hlen)
      rw [hdrop, List.length_cons] at hn
      rw [hdrop']
      omega
    | cons e l ih =>
      obtain ⟨hv, hk, hw, -, cur', hnext, hy'⟩ := hy.isValid_cons
      refine ⟨⟨some cur, idx, ts⟩, by simp only [moveUntilValidLoop, hv, if_true], ?_⟩
      simp only [List.cons_append, List.length_cons] at hlen ⊢
      refine yields_cons hv hk hw hnext (by omega) (ih hy' (by omega) ts.length ?_)
      rw [List.length_drop]
      omega

/-- The tables' entries are counted by what can be read of them. -/
theorem sum_numEntries {ts : List SsTable} {ess : List (List (Bytes × Bytes))}
    (h : List.Forall₂ (SsTable.Holds E) ts ess) :
    (ts.map fun t => t.numEntries E).sum = ess.flatten.length := by
  induction h with
  | nil => rfl
  | cons ht _ ih =>
    obtain ⟨blocks, rfl, hs⟩ := ht.stores
    rw [List.map_cons, List.sum_cons, hs.numEntries_eq, List.flatten_cons, List.length_append, ih]

/-- `create_and_seek_to_first` yields the entries of the tables in order. -/
theorem createAndSeekToFirst_yields {ts : List SsTable} {ess : List (List (Bytes × Bytes))}
    (h : List.Forall₂ (SsTable.Holds E) ts ess) :
    ∃ it, createAndSeekToFirst E ts = .ok it ∧ Yields it ess.flatten := by
  have hsum := sum_numEntries h
  cases h with
  | nil => exact ⟨⟨none, 0, []⟩, rfl, .nil rfl⟩
  | @cons t es ts ess ht hts =>
    obtain ⟨cur, hc, hy⟩ := SsTableIterator.createAndSeekToFirst_yields ht
    simp only [createAndSeekToFirst, hc, ok_bind]
    exact moveUntilValidLoop_yields hy hts (by simp) hsum.ge

/-- The tables' first keys are those of their entries. -/
theorem length_takeWhile_first_key {ts : List SsTable} {ess : List (List (Bytes × Bytes))}
    (h : List.Forall₂ (SsTable.Holds E) ts ess) (key : Bytes) :
    (ts.takeWhile fun sst => sst.first_key ≤ key).length =
      (ess.takeWhile fun es => !decide (key < firstKey es)).length := by
  induction h with
  | nil => rfl
  | @cons t es ts ess ht _ ih =>
    rw [List.takeWhile_cons, List.takeWhile_cons, ht.first_key]
    by_cases hk : firstKey es ≤ key
    · simp [hk, ih]
    · simp [hk]

/-- `create_and_seek_to_key` yields the entries from the key on, when the tables are in order. -/
theorem createAndSeekToKey_yields {ts : List SsTable} {ess : List (List (Bytes × Bytes))}
    (h : List.Forall₂ (SsTable.Holds E) ts ess) (hs : Assoc.Sorted ess.flatten) (key : Bytes) :
    ∃ it, createAndSeekToKey E ts key = .ok it ∧ Yields it (Assoc.seek key ess.flatten) := by
  have hsum := sum_numEntries h
  rcases eq_or_ne ess [] with rfl | hne
  · obtain rfl := List.forall₂_nil_right_iff.mp h
    exact ⟨⟨none, 0, []⟩, rfl, .nil rfl⟩
  have hess : ∀ es ∈ ess, es ≠ [] := by
    intro es hes
    obtain ⟨i, hi, rfl⟩ := List.mem_iff_getElem.mp hes
    exact (List.Forall₂.get h (by rwa [h.length_eq]) hi).ne_nil
  obtain ⟨pre, es, post, rfl, hidx, hpre, hpost⟩ := exists_piece_of_key hne hess hs key
  have hdrop := List.forall₂_drop pre.length h
  rw [List.drop_left] at hdrop
  obtain ⟨t, rest, ht, hrest, hts⟩ := List.forall₂_cons_right_iff.mp hdrop
  have hget : ts[pre.length]? = some t := by
    rw [← List.head?_drop, hts]
    rfl
  have hrest' : ts.drop (pre.length + 1) = rest := by
    rw [← List.drop_drop, hts]
    rfl
  obtain ⟨cur, hc, hy⟩ := SsTableIterator.createAndSeekToKey_yields ht key
  have hseek : Assoc.seek key (pre ++ es :: post).flatten = Assoc.seek key es ++ post.flatten := by
    rw [List.flatten_append, List.flatten_cons, Assoc.seek_append_of_lt hpre,
      Assoc.seek_append_of_le _ hpost]
  have hpart : (if (ts.takeWhile fun sst => sst.first_key ≤ key).length > 0 then
      (ts.takeWhile fun sst => sst.first_key ≤ key).length - 1 else 0) = pre.length := by
    rw [length_takeWhile_first_key h, ← hidx]
    split_ifs
    · rfl
    · omega
  rw [hseek]
  simp only [createAndSeekToKey, hpart, hget, hc, ok_bind]
  refine moveUntilValidLoop_yields hy (by rwa [hrest']) ?_ ?_
  · rw [List.length_drop]
    exact Nat.lt_succ_of_le (Nat.sub_le _ _)
  · rw [hsum, ← hseek]
    exact (List.dropWhile_sublist _).length_le

end SstConcatIterator

/-! ## `LsmIterator` and `FusedIterator` -/

/-- The key is not past the bound, taken as the end of a range. -/
def Bound.below : Bound → Bytes → Bool
  | .unbounded, _ => true
  | .included key, k => decide (k ≤ key)
  | .excluded key, k => decide (k < key)

/-- What `LsmIterator` shows of the entries of its inner iterator: those up to the end bound whose
value is not empty. -/
def visible (end_bound : Bound) (l : List (Bytes × Bytes)) : List (Bytes × Bytes) :=
  (l.takeWhile fun p => end_bound.below p.1).filter fun p => !p.2.isEmpty

namespace LsmIterator

variable {ι : Type} [Cursor ι Bytes Bytes Error]

/-- The iterator before it moves over deleted keys. -/
def start (inner : ι) (end_bound : Bound) : LsmIterator ι :=
  if Cursor.isValid inner then matchEndBound ⟨inner, end_bound, true⟩
  else ⟨inner, end_bound, false⟩

theorem matchEndBound_valid (inner : ι) (end_bound : Bound) :
    matchEndBound ⟨inner, end_bound, true⟩ =
      ⟨inner, end_bound, end_bound.below (Cursor.key inner)⟩ := by
  cases end_bound with
  | unbounded => rfl
  | included key =>
    by_cases h : key < Cursor.key inner
    · simp [matchEndBound, Bound.below, h]
    · simp [matchEndBound, Bound.below, h, not_lt.mp h]
  | excluded key =>
    by_cases h : key ≤ Cursor.key inner
    · simp [matchEndBound, Bound.below, h]
    · simp [matchEndBound, Bound.below, h, not_le.mp h]

theorem start_inner (inner : ι) (end_bound : Bound) : (start inner end_bound).inner = inner := by
  rw [start]
  split_ifs
  · rw [matchEndBound_valid]
  · rfl

/-- `next_inner` starts again from the moved inner iterator. -/
theorem nextInner_eq {inner inner' : ι} (end_bound : Bound) (h : Cursor.next inner = .ok inner') :
    nextInner ⟨inner, end_bound, true⟩ = .ok (start inner' end_bound) := by
  rw [nextInner, h, ok_bind, start]
  by_cases hv : Cursor.isValid inner' = true <;> simp [hv]

/-- `move_to_non_delete` moves to the first entry with a value. -/
theorem moveToNonDeleteLoop_yields (end_bound : Bound) {inner : ι} {l : List (Bytes × Bytes)} {n : ℕ}
    (hy : Yields inner l) (hn : l.length < n) :
    ∃ it, moveToNonDeleteLoop n (start inner end_bound) = .ok it ∧
      Yields it (visible end_bound l) := by
  induction l generalizing inner n with
  | nil =>
    obtain ⟨n, rfl⟩ : ∃ m, n = m + 1 := ⟨n - 1, by omega⟩
    refine ⟨⟨inner, end_bound, false⟩, ?_, .nil rfl⟩
    simp [start, hy.isValid_nil, moveToNonDeleteLoop]
  | cons e l ih =>
    obtain ⟨n, rfl⟩ : ∃ m, n = m + 1 := ⟨n - 1, by omega⟩
    rw [List.length_cons] at hn
    obtain ⟨hv, hk, hw, hlt, inner', hnext, hy'⟩ := hy.isValid_cons
    have hstart : start inner end_bound = ⟨inner, end_bound, end_bound.below e.1⟩ := by
      rw [start, if_pos hv, matchEndBound_valid, hk]
    rw [hstart]
    by_cases hb : end_bound.below e.1 = true
    · rw [hb]
      by_cases he : e.2 = []
      · have hvis : visible end_bound (e :: l) = visible end_bound l := by
          simp [visible, hb, he]
        simp only [moveToNonDeleteLoop, hw, he, List.isEmpty_nil, Bool.and_self, if_true,
          nextInner_eq end_bound hnext, ok_bind, hvis]
        exact ih hy' (by omega)
      · have hvis : visible end_bound (e :: l) = e :: visible end_bound l := by
          simp [visible, hb, he]
        refine ⟨⟨inner, end_bound, true⟩, by simp [moveToNonDeleteLoop, hw, he], ?_⟩
        obtain ⟨it, hit, hyit⟩ := ih hy' (Nat.lt_succ_of_le hy'.length_le)
        rw [hvis]
        refine Yields.cons_of rfl hk hw ?_ ?_ hyit
        · show next ⟨inner, end_bound, true⟩ = _
          rw [next, if_neg (by simp), nextInner_eq end_bound hnext, ok_bind, moveToNonDelete,
            start_inner, hit]
        · have hle : (visible end_bound l).length ≤ l.length :=
            (List.filter_sublist.trans (List.takeWhile_sublist _)).length_le
          exact hle.trans_lt hlt
    · have hvis : visible end_bound (e :: l) = [] := by simp [visible, hb]
      refine ⟨⟨inner, end_bound, false⟩, by simp [moveToNonDeleteLoop, hb], ?_⟩
      rw [hvis]
      exact .nil rfl

/-- `LsmIterator::create` yields the entries of the inner iterator that are visible. -/
theorem create_yields (end_bound : Bound) {inner : ι} {l : List (Bytes × Bytes)}
    (hy : Yields inner l) :
    ∃ it, create inner end_bound = .ok it ∧ Yields it (visible end_bound l) := by
  obtain ⟨it, hit, hyit⟩ := moveToNonDeleteLoop_yields end_bound hy
    (Nat.lt_succ_of_le hy.length_le)
  refine ⟨it, ?_, hyit⟩
  rw [← hit, create, moveToNonDelete]
  split_ifs with hv
  · simp only [start, if_pos hv, matchEndBound_valid]
  · simp [start, hv, moveToNonDeleteLoop]

end LsmIterator

/-- `FusedIterator` yields what its iterator yields. -/
theorem FusedIterator.create_yields {ι : Type} [Cursor ι Bytes Bytes Error] {iter : ι}
    {l : List (Bytes × Bytes)} (hy : Yields iter l) : Yields (create iter) l := by
  induction hy with
  | nil hv => exact .nil (by simpa [create, Cursor.isValid] using hv)
  | @cons it it' l hv hn hlt hy ih =>
    refine Yields.cons_of (p := (Cursor.key it, Cursor.value it)) ?_ rfl rfl ?_ hlt ih
    · show (!false && Cursor.isValid it) = true
      rw [hv]
      rfl
    · show next ⟨it, false⟩ = _
      rw [next, if_neg (by simp [hv]), hn, ok_bind]
      rfl

end MiniLsm
