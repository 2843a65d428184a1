import MiniLsm.ControllerSpec

/-!
# The leveled controller

A leveled compaction takes the level-0 tables, or one table of a level, and those tables of the next
level whose ranges of keys meet the hull of theirs. The tables of the lower level that stay lie
before or behind all keys that are merged (`separated_of_not_overlaps`): a table that does not meet
the hull is on one side of it, and the tables that do meet it are on the other side of that table.
So the level with the output, sorted by first keys, is in order again (`sorted_insertionSort`).
-/

namespace MiniLsm

open LsmStorageInner LsmStorageInner.Applied

/-! ## Levels in order -/

/-- All keys of the first map are before all keys of the second. -/
def Precedes (l l' : List (Bytes × Bytes)) : Prop := ∀ e ∈ l, ∀ e' ∈ l', e.1 < e'.1

namespace LsmStorageState

variable {E : Extern} {st : LsmStorageState}

/-- A run is that of its tables, one after the other. -/
theorem run_eq_flatten (E : Extern) (st : LsmStorageState) (ids : List ℕ) :
    st.run E ids = (ids.map fun id => st.run E [id]).flatten := by
  induction ids with
  | nil => rfl
  | cons id ids ih =>
    rw [List.map_cons, List.flatten_cons, ← ih]
    rcases hid : st.sstables id with _ | t
    · simp [run, tables, hid]
    · simp [run, tables, hid]

/-- An entry of a run is in one of its tables. -/
theorem mem_run_iff {ids : List ℕ} {e : Bytes × Bytes} :
    e ∈ st.run E ids ↔ ∃ id ∈ ids, e ∈ st.run E [id] := by
  rw [run_eq_flatten, List.mem_flatten]
  simp

/-- Tables are in order when each of them is, and each one precedes those behind it. -/
theorem sorted_run_iff {ids : List ℕ} :
    Assoc.Sorted (st.run E ids) ↔ (∀ id ∈ ids, Assoc.Sorted (st.run E [id])) ∧
      ids.Pairwise fun a b => Precedes (st.run E [a]) (st.run E [b]) := by
  rw [run_eq_flatten, Assoc.Sorted, List.pairwise_flatten, List.pairwise_map]
  simp only [List.forall_mem_map]
  rfl

/-- The run of a table has its entries. -/
theorem run_singleton {id : ℕ} {t : SsTable} (h : st.sstables id = some t) :
    st.run E [id] = t.contents E := by
  simp [run, tables, h]

end LsmStorageState

/-- The last key of a table is that of one of its entries. -/
theorem SsTable.Good.exists_last {E : Extern} {t : SsTable} (h : t.Good E) :
    ∃ e ∈ t.contents E, e.1 = t.last_key := by
  obtain ⟨es, e, hes⟩ := (List.eq_nil_or_concat' (t.contents E)).resolve_left h.ne_nil
  refine ⟨e, by simp [hes], ?_⟩
  rw [h.last_key, hes, SsTableBuilder.lastKey_concat]

/-- The first key of a table is that of one of its entries. -/
theorem SsTable.Good.exists_first {E : Extern} {t : SsTable} (h : t.Good E) :
    ∃ e ∈ t.contents E, e.1 = t.first_key := by
  rw [h.first_key]
  exact exists_firstKey_eq h.ne_nil

/-- Tables whose entries one after the other are in order have disjoint ranges of keys. -/
theorem SsTable.Good.pairwise_ranges {E : Extern} {ts : List SsTable} (hgood : ∀ t ∈ ts, t.Good E)
    (hs : Assoc.Sorted (ts.map (SsTable.contents E)).flatten) :
    ts.Pairwise fun a b => a.last_key < b.first_key := by
  rw [Assoc.Sorted, List.pairwise_flatten, List.pairwise_map] at hs
  refine hs.2.imp_of_mem fun {a b} ha hb hab => ?_
  obtain ⟨e, he, hlast⟩ := (hgood a ha).exists_last
  obtain ⟨e', he', hfirst⟩ := (hgood b hb).exists_first
  rw [← hlast, ← hfirst]
  exact hab e he e' he'

namespace LeveledCompactionController

variable {E : Extern}

/-- Tables that are each in order and on one side of each other are in order when they are sorted by
their first keys. -/
theorem sorted_insertionSort {st : LsmStorageState} {ids : List ℕ}
    (hgood : ∀ id ∈ ids, ∃ t, st.sstables id = some t ∧ t.Good E)
    (hsep : ids.Pairwise fun a b => Precedes (st.run E [a]) (st.run E [b]) ∨
      Precedes (st.run E [b]) (st.run E [a])) :
    Assoc.Sorted (st.run E (ids.insertionSort fun x y => !sstLt st y x)) := by
  -- On open tables, the comparison is the one of the first keys.
  obtain ⟨key, hkey⟩ : ∃ key : ℕ → Bytes, key = fun id =>
    ((st.sstables id).map SsTable.first_key).getD [] := ⟨_, rfl⟩
  have hcmp : ∀ a ∈ ids, ∀ b ∈ ids, (!sstLt st b a) = true ↔ key a ≤ key b := by
    intro a ha b hb
    obtain ⟨ta, hta, -⟩ := hgood a ha
    obtain ⟨tb, htb, -⟩ := hgood b hb
    simp [sstLt, hkey, hta, htb]
  have hsort : (ids.insertionSort fun x y => !sstLt st y x) =
      ids.insertionSort fun x y => key x ≤ key y := by
    have := List.map_insertionSort (fun x y : ℕ => (!sstLt st y x) = true)
      (fun x y : ℕ => key x ≤ key y) id ids hcmp
    simpa using this
  have : Std.Total fun x y : ℕ => key x ≤ key y := ⟨fun x y => le_total _ _⟩
  have : IsTrans ℕ fun x y : ℕ => key x ≤ key y := ⟨fun x y z => le_trans⟩
  rw [hsort]
  have hpw := List.pairwise_insertionSort (fun x y : ℕ => key x ≤ key y) ids
  have hperm := List.perm_insertionSort (fun x y : ℕ => key x ≤ key y) ids
  have hsep' := (hperm.pairwise_iff fun h => Or.symm h).mpr hsep
  rw [LsmStorageState.sorted_run_iff]
  constructor
  · intro id hid
    obtain ⟨t, ht, hg⟩ := hgood id (hperm.mem_iff.mp hid)
    rw [LsmStorageState.run_singleton ht]
    exact hg.sorted
  · refine (hpw.and hsep').imp_of_mem ?_
    rintro a b ha hb ⟨hle, h | h⟩
    · exact h
    · -- The first key of the second table would be before that of the first one.
      obtain ⟨ta, hta, hga⟩ := hgood a (hperm.mem_iff.mp ha)
      obtain ⟨tb, htb, hgb⟩ := hgood b (hperm.mem_iff.mp hb)
      obtain ⟨ea, hea, hka⟩ := hga.exists_first
      obtain ⟨eb, heb, hkb⟩ := hgb.exists_first
      rw [LsmStorageState.run_singleton hta, LsmStorageState.run_singleton htb] at h
      have hlt := h eb heb ea hea
      rw [hka, hkb] at hlt
      simp only [hkey, hta, htb, Option.map_some, Option.getD_some] at hle
      exact absurd hle hlt.not_ge

/-! ## The hull of tables -/

/-- The range of some tables contains the range of each of them. -/
theorem keyRange_spec {ts : List SsTable} {b e : Bytes} (h : keyRange ts = some (b, e)) :
    ∀ t ∈ ts, b ≤ t.first_key ∧ t.last_key ≤ e := by
  rcases ts with _ | ⟨t₀, ts⟩
  · cases h
  simp only [keyRange, Option.some.injEq] at h
  -- The range grows, and it contains each table that it has met.
  have hfold : ∀ (ts : List SsTable) (r : Bytes × Bytes),
      let r' := ts.foldl (fun range sst =>
        (if sst.first_key < range.1 then sst.first_key else range.1,
          if sst.last_key > range.2 then sst.last_key else range.2)) r
      r'.1 ≤ r.1 ∧ r.2 ≤ r'.2 ∧ ∀ t ∈ ts, r'.1 ≤ t.first_key ∧ t.last_key ≤ r'.2 := by
    intro ts
    induction ts with
    | nil => exact fun r => ⟨le_rfl, le_rfl, by simp⟩
    | cons t ts ih =>
      intro r
      obtain ⟨h1, h2, h3⟩ := ih (if t.first_key < r.1 then t.first_key else r.1,
        if t.last_key > r.2 then t.last_key else r.2)
      dsimp only at h1 h2 h3 ⊢
      rw [List.foldl_cons]
      have h4 : (if t.first_key < r.1 then t.first_key else r.1) ≤ t.first_key ∧
          (if t.first_key < r.1 then t.first_key else r.1) ≤ r.1 := by
        split_ifs with hlt
        · exact ⟨le_rfl, hlt.le⟩
        · exact ⟨not_lt.mp hlt, le_rfl⟩
      have h5 : t.last_key ≤ (if t.last_key > r.2 then t.last_key else r.2) ∧
          r.2 ≤ (if t.last_key > r.2 then t.last_key else r.2) := by
        split_ifs with hlt
        · exact ⟨le_rfl, hlt.le⟩
        · exact ⟨not_lt.mp hlt, le_rfl⟩
      refine ⟨h1.trans h4.2, h5.2.trans h2, ?_⟩
      rw [List.forall_mem_cons]
      exact ⟨⟨h1.trans h4.1, h5.1.trans h2⟩, h3⟩
  obtain ⟨h1, h2, h3⟩ := hfold ts (t₀.first_key, t₀.last_key)
  rw [h] at h1 h2 h3
  rw [List.forall_mem_cons]
  exact ⟨⟨h1, h2⟩, h3⟩

/-- The table meets the hull of some tables. -/
def overlaps (st : LsmStorageState) (sst_ids : List ℕ) (sst_id : ℕ) : Bool :=
  match keyRange (st.tables sst_ids), st.sstables sst_id with
  | some (begin_key, end_key), some sst =>
    !(decide (sst.last_key < begin_key) || decide (sst.first_key > end_key))
  | _, _ => false

/-- `find_overlapping_ssts` keeps the tables of the level that meet the hull. -/
theorem findOverlappingSsts_eq {st : LsmStorageState} (sst_ids : List ℕ) {i : ℕ}
    (h : i < st.levels.length) :
    findOverlappingSsts st sst_ids (i + 1) = (st.levelIds i).filter (overlaps st sst_ids) := by
  rw [findOverlappingSsts]
  rcases hr : keyRange (st.tables sst_ids) with _ | ⟨b, e⟩
  · rw [eq_comm, List.filter_eq_nil_iff]
    intro id _
    simp [overlaps, hr]
  · dsimp only
    rw [if_neg (by omega), Nat.add_sub_cancel]
    refine List.filter_congr fun id _ => ?_
    rcases hid : st.sstables id with _ | t <;> simp [overlaps, hr, hid]

/-- A table of a level that does not meet the hull of some tables is before or behind all of their
keys and all keys of the tables of its level that do meet the hull. -/
theorem separated_of_not_overlaps {st : LsmStorageState} {sst_ids ids : List ℕ} {id : ℕ}
    (hu : ∀ t ∈ st.tables sst_ids, t.Good E)
    (hgood : ∀ id ∈ ids, ∃ t, st.sstables id = some t ∧ t.Good E)
    (hs : Assoc.Sorted (st.run E ids)) (hid : id ∈ ids) (hno : overlaps st sst_ids id = false) :
    Precedes (st.run E [id]) (st.run E sst_ids ++ st.run E (ids.filter (overlaps st sst_ids))) ∨
      Precedes (st.run E sst_ids ++ st.run E (ids.filter (overlaps st sst_ids)))
        (st.run E [id]) := by
  obtain ⟨t, ht, hg⟩ := hgood id hid
  have hupper : ∀ e' ∈ st.run E sst_ids, ∃ t' ∈ st.tables sst_ids, t'.first_key ≤ e'.1 ∧
      e'.1 ≤ t'.last_key := by
    intro e' he'
    obtain ⟨l, hl, he'⟩ := List.mem_flatten.mp he'
    obtain ⟨t', ht', rfl⟩ := List.mem_map.mp hl
    exact ⟨t', ht', (hu t' ht').key_mem_range he'⟩
  have hlower : ∀ e' ∈ st.run E (ids.filter (overlaps st sst_ids)), ∃ id' t', id' ∈ ids ∧
      overlaps st sst_ids id' = true ∧ st.sstables id' = some t' ∧ t'.Good E ∧
      e' ∈ t'.contents E := by
    intro e' he'
    obtain ⟨id', hid', he'⟩ := LsmStorageState.mem_run_iff.mp he'
    obtain ⟨hm, ho⟩ := List.mem_filter.mp hid'
    obtain ⟨t', ht', hg'⟩ := hgood id' hm
    rw [LsmStorageState.run_singleton ht'] at he'
    exact ⟨id', t', hm, ho, ht', hg', he'⟩
  -- Two tables of the level are on one side of each other.
  have hside : ∀ id' ∈ ids, id' ≠ id → Precedes (st.run E [id]) (st.run E [id']) ∨
      Precedes (st.run E [id']) (st.run E [id]) := by
    intro id' hid' hne
    have hpw := (LsmStorageState.sorted_run_iff.mp hs).2.imp fun {a b} h =>
      (.inl h : Precedes (st.run E [a]) (st.run E [b]) ∨ Precedes (st.run E [b]) (st.run E [a]))
    have : Std.Symm fun a b => Precedes (st.run E [a]) (st.run E [b]) ∨
      Precedes (st.run E [b]) (st.run E [a]) := ⟨fun _ _ h => h.symm⟩
    exact hpw.forall hid hid' hne.symm
  rw [LsmStorageState.run_singleton ht] at hside ⊢
  rcases hr : keyRange (st.tables sst_ids) with _ | ⟨b, e⟩
  · -- There is no table to merge with.
    left
    intro x _ y hy
    rcases List.mem_append.mp hy with hy | hy
    · obtain ⟨t', ht', -⟩ := hupper y hy
      rcases hts : st.tables sst_ids with _ | ⟨t₀, ts⟩
      · rw [hts] at ht'
        cases ht'
      · rw [hts] at hr
        cases hr
    · obtain ⟨id', t', -, ho, -⟩ := hlower y hy
      simp [overlaps, hr] at ho
  · have hrange := keyRange_spec hr
    have hno' : t.last_key < b ∨ e < t.first_key := by
      by_contra hcon
      push Not at hcon
      simp only [overlaps, hr, ht, hcon.1.not_gt, hcon.2.not_gt] at hno
      simp at hno
    have hov : ∀ id' t', overlaps st sst_ids id' = true → st.sstables id' = some t' →
        b ≤ t'.last_key ∧ t'.first_key ≤ e := by
      intro id' t' ho ht'
      simpa [overlaps, hr, ht'] using ho
    rcases hno' with hlt | hlt
    · left
      intro x hx y hy
      have hx' := (hg.key_mem_range hx).2
      rcases List.mem_append.mp hy with hy | hy
      · obtain ⟨t', ht', hy1, -⟩ := hupper y hy
        exact (hx'.trans_lt hlt).trans_le ((hrange t' ht').1.trans hy1)
      · obtain ⟨id', t', hm, ho, ht', hg', hy⟩ := hlower y hy
        have hne : id' ≠ id := by
          rintro rfl
          rw [ho] at hno
          cases hno
        rcases hside id' hm hne with h | h
        · rw [LsmStorageState.run_singleton ht'] at h
          exact h x hx y hy
        · -- The table would end before the hull.
          obtain ⟨z, hz, hzk⟩ := hg'.exists_last
          rw [LsmStorageState.run_singleton ht'] at h
          have := h z hz x hx
          rw [hzk] at this
          exact absurd ((this.trans_le hx').trans hlt) ((hov id' t' ho ht').1.not_gt)
    · right
      intro y hy x hx
      have hx' := (hg.key_mem_range hx).1
      rcases List.mem_append.mp hy with hy | hy
      · obtain ⟨t', ht', -, hy2⟩ := hupper y hy
        exact (hy2.trans (hrange t' ht').2).trans_lt (hlt.trans_le hx')
      · obtain ⟨id', t', hm, ho, ht', hg', hy⟩ := hlower y hy
        have hne : id' ≠ id := by
          rintro rfl
          rw [ho] at hno
          cases hno
        rcases hside id' hm hne with h | h
        · -- The table would start behind the hull.
          obtain ⟨z, hz, hzk⟩ := hg'.exists_first
          rw [LsmStorageState.run_singleton ht'] at h
          have := h x hx z hz
          rw [hzk] at this
          exact absurd ((hlt.trans_le hx').trans this) ((hov id' t' ho ht').2.not_gt)
        · rw [LsmStorageState.run_singleton ht'] at h
          exact h y hy x hx

end LeveledCompactionController

/-! ## Tasks -/

/-- The tables of the task are where `apply_compaction_result` looks for them, and those of the
lower level are the ones that meet the hull of the upper ones. -/
def LeveledCompactionTask.Fits (t : LeveledCompactionTask) (st : LsmStorageState) : Prop :=
  ∃ pre b ids post, st.levels = pre ++ (b, ids) :: post ∧ t.lower_level = pre.length + 1 ∧
    t.lower_level_sst_ids =
      ids.filter (LeveledCompactionController.overlaps st t.upper_level_sst_ids) ∧
    (t.is_lower_level_bottom_level = true → post = []) ∧
    match t.upper_level with
    | none => ∃ new, st.l0_sstables = new ++ t.upper_level_sst_ids
    | some i => ∃ above a up x, pre = above ++ [(a, up)] ∧ i = above.length + 1 ∧ x ∈ up ∧
        t.upper_level_sst_ids = [x]

namespace LeveledCompactionController

variable {E : Extern}

/-- The base level is one of the levels. -/
theorem baseLevel_bounds {options : LeveledCompactionOptions} (h : 1 ≤ options.max_levels)
    (st : LsmStorageState) :
    1 ≤ baseLevel options st ∧ baseLevel options st ≤ options.max_levels := by
  rw [baseLevel]
  rcases hi : ((targetLevelSizes options st).take (options.max_levels - 1)).findIdx? (· > 0) with
    _ | i
  · rw [hi]
    exact ⟨h, le_rfl⟩
  · obtain ⟨hlt, -⟩ := List.findIdx?_eq_some_iff_getElem.mp hi
    rw [List.length_take] at hlt
    rw [hi, Option.elim_some]
    omega

/-- The loop adds the sizes of the upper levels in front. -/
theorem targetLevelSizesLoop_eq (options : LeveledCompactionOptions) (n : ℕ) (sizes : List ℕ) :
    ∃ pre, targetLevelSizesLoop options n sizes = pre ++ sizes ∧ pre.length = n := by
  induction n generalizing sizes with
  | zero => exact ⟨[], rfl, rfl⟩
  | succ n ih =>
    rw [targetLevelSizesLoop]
    obtain ⟨pre, hpre, hlen⟩ := ih (_ :: sizes)
    exact ⟨pre ++ [_], by rw [hpre]; simp; rfl, by simp [hlen]⟩

/-- The last level is never above its target size. -/
theorem priority_last (r : Rounding) (options : LeveledCompactionOptions) (st : LsmStorageState) :
    priority r options st (options.max_levels - 1) = none := by
  rw [priority]
  obtain ⟨pre, hpre, hlen⟩ := targetLevelSizesLoop_eq options (options.max_levels - 1)
    [max (realLevelSize st (options.max_levels - 1)) (baseLevelSizeBytes options)]
  have hlast : (targetLevelSizes options st)[options.max_levels - 1]?.getD 0 =
      max (realLevelSize st (options.max_levels - 1)) (baseLevelSizeBytes options) := by
    rw [targetLevelSizes, hpre, ← hlen]
    simp
  dsimp only
  rw [hlast]
  split_ifs with hpos hlt
  · rw [Double.not_one_lt_div_ofNat r (le_max_left _ _) hpos] at hlt
    cases hlt
  · rfl
  · rfl

/-- The front of the priorities is one of them. -/
theorem frontPriority_mem {ps : List (Double × ℕ)} {p : Double × ℕ}
    (h : frontPriority ps = some p) : p ∈ ps := by
  rcases ps with _ | ⟨q, ps⟩
  · cases h
  simp only [frontPriority, Option.some.injEq] at h
  subst h
  induction ps generalizing q with
  | nil => simp
  | cons q' ps ih =>
    rw [List.foldl_cons]
    split_ifs
    · exact List.mem_cons_of_mem _ (ih q')
    · rcases List.mem_cons.mp (ih q) with h | h
      · rw [h]
        simp
      · simp [h]

/-- The smallest identifier is one of those given. -/
theorem minElement_mem {ids : List ℕ} {x : ℕ} (h : minElement ids = some x) : x ∈ ids := by
  rcases ids with _ | ⟨y, ids⟩
  · cases h
  simp only [minElement, Option.some.injEq] at h
  subst h
  induction ids generalizing y with
  | nil => simp
  | cons z ids ih =>
    rw [List.foldl_cons]
    rcases List.mem_cons.mp (ih (min y z)) with h | h
    · rw [h]
      rcases min_choice y z with h | h <;> simp [h]
    · simp [h]

/-- A generated task fits. -/
theorem generateCompactionTask_fits {r : Rounding} {options : LeveledCompactionOptions}
    {st : LsmStorageState} {t : LeveledCompactionTask} (hmax : 1 ≤ options.max_levels)
    (hlen : st.levels.length = options.max_levels)
    (h : generateCompactionTask r options st = some t) : t.Fits st := by
  have hbottom : ∀ {pre post : List (ℕ × List ℕ)} {b : ℕ} {ids : List ℕ} {i : ℕ},
      st.levels = pre ++ (b, ids) :: post → i = pre.length + 1 → (i == options.max_levels) = true →
      post = [] := by
    intro pre post b ids i hlev hi hb
    have := congrArg List.length hlev
    simp only [List.length_append, List.length_cons] at this
    simp only [beq_iff_eq] at hb
    exact List.length_eq_zero_iff.mp (by omega)
  rw [generateCompactionTask] at h
  split_ifs at h with hl0
  -- Level 0 has enough tables: all of them go to the base level.
  · cases h
    obtain ⟨hb1, hb2⟩ := baseLevel_bounds hmax st
    obtain ⟨i, hi⟩ : ∃ i, baseLevel options st = i + 1 := ⟨_, (Nat.sub_add_cancel hb1).symm⟩
    obtain ⟨pre, b, post, hlev, hpre⟩ := exists_levels_eq st (i := i) (by omega)
    refine ⟨pre, b, _, post, hlev, by dsimp only; omega, ?_, hbottom hlev (by omega),
      [], rfl⟩
    dsimp only
    rw [hi, findOverlappingSsts_eq _ (by omega)]
  · split at h
    · cases h
    next p level hfront =>
    -- The level with the highest priority, which is not the last one: its oldest table goes down.
    obtain ⟨i, hi, hprio⟩ := List.mem_filterMap.mp (frontPriority_mem hfront)
    rw [List.mem_range] at hi
    have hlast : i ≠ options.max_levels - 1 := by
      rintro rfl
      rw [priority_last] at hprio
      cases hprio
    have hlevel : level = i + 1 := by
      rw [priority] at hprio
      dsimp only at hprio
      split_ifs at hprio
      exact (congrArg Prod.snd (Option.some.inj hprio)).symm
    subst hlevel
    split_ifs at h with hbig
    split at h
    · cases h
    next x hmin =>
    cases h
    rw [Nat.add_sub_cancel] at hmin
    obtain ⟨above, a, post, hlev, habove⟩ := exists_levels_eq st (i := i) (by omega)
    obtain ⟨pre, b, post', hlev', hpre⟩ := exists_levels_eq st (i := i + 1) (by omega)
    have hpp : above ++ [(a, st.levelIds i)] = pre := by
      rw [hlev] at hlev'
      have hboth : (above ++ [(a, st.levelIds i)]) ++ post =
          pre ++ (b, st.levelIds (i + 1)) :: post' := by simpa using hlev'
      exact (List.append_inj hboth (by simp; omega)).1
    refine ⟨pre, b, _, post', hlev', by dsimp only; omega, ?_, hbottom hlev' (by omega),
      above, a, _, x, hpp.symm, by omega, minElement_mem hmin, rfl⟩
    dsimp only
    rw [findOverlappingSsts_eq _ (by omega)]

/-! ## Applying a result -/

/-- The lower level with the output of a compaction. -/
def newLower (st : LsmStorageState) (upper_ids ids out : List ℕ) : List ℕ :=
  (ids.filter (fun id => !overlaps st upper_ids id) ++ out).insertionSort fun x y => !sstLt st y x

/-- The tables that overlap are removed, and the others stay. -/
theorem removeOnce_overlaps {st : LsmStorageState} {upper_ids ids : List ℕ} (h : ids.Nodup) :
    removeOnce (ids.filter (overlaps st upper_ids)) ids =
      ids.filter fun id => !overlaps st upper_ids id := by
  rw [removeOnce_eq_filter h]
  refine List.filter_congr fun id hid => ?_
  simp [hid]

/-- What applying a task leaves, for a task of level-0 tables. -/
theorem applyCompactionResult_l0 (st : LsmStorageState) {t : LeveledCompactionTask}
    {pre post : List (ℕ × List ℕ)} {b : ℕ} {ids new : List ℕ} (hnd : st.tableIds.Nodup)
    (hlev : st.levels = pre ++ (b, ids) :: post) (hll : t.lower_level = pre.length + 1)
    (hlower : t.lower_level_sst_ids = ids.filter (overlaps st t.upper_level_sst_ids))
    (hul : t.upper_level = none) (hl0 : st.l0_sstables = new ++ t.upper_level_sst_ids)
    (out : List ℕ) :
    applyCompactionResult st t out false =
      ({ st with
          l0_sstables := new
          levels := pre ++ (b, newLower st t.upper_level_sst_ids ids out) :: post },
        t.upper_level_sst_ids ++ t.lower_level_sst_ids) := by
  have hl0nd : (new ++ t.upper_level_sst_ids).Nodup := by
    rw [← hl0]
    exact (List.nodup_append.mp hnd).1
  have hidsnd : ids.Nodup := by
    have := (List.nodup_append.mp hnd).2.1
    rw [hlev] at this
    simp only [List.map_append, List.map_cons, List.flatten_append, List.flatten_cons,
      List.nodup_append] at this
    exact this.2.1.1
  have hids : st.levelIds pre.length = ids := levelIds_append st hlev
  simp only [applyCompactionResult, hul, hll, Nat.add_sub_cancel, hlower, Bool.false_eq_true,
    if_false]
  have hids' : LsmStorageState.levelIds { st with
      l0_sstables := removeOnce t.upper_level_sst_ids st.l0_sstables } pre.length = ids := hids
  rw [hids', removeOnce_overlaps hidsnd, hl0, removeOnce_eq_filter hl0nd,
    filter_not_mem_append hl0nd, hlev, setLevel_append]
  rfl

/-- What applying a task leaves, for a task of a table of a level. -/
theorem applyCompactionResult_level (st : LsmStorageState) {t : LeveledCompactionTask}
    {above post : List (ℕ × List ℕ)} {a b x : ℕ} {up ids : List ℕ} (hnd : st.tableIds.Nodup)
    (hlev : st.levels = above ++ (a, up) :: (b, ids) :: post)
    (hll : t.lower_level = above.length + 2)
    (hlower : t.lower_level_sst_ids = ids.filter (overlaps st t.upper_level_sst_ids))
    (hul : t.upper_level = some (above.length + 1)) (hx : t.upper_level_sst_ids = [x])
    (out : List ℕ) :
    applyCompactionResult st t out false =
      ({ st with
          levels := above ++ (a, up.filter (· ≠ x)) ::
            (b, newLower st t.upper_level_sst_ids ids out) :: post },
        t.upper_level_sst_ids ++ t.lower_level_sst_ids) := by
  have hnd' := (List.nodup_append.mp hnd).2.1
  rw [hlev] at hnd'
  simp only [List.map_append, List.map_cons, List.flatten_append, List.flatten_cons,
    List.nodup_append] at hnd'
  have hup : st.levelIds above.length = up := levelIds_append st hlev
  have hset : setLevel st.levels above.length (up.filter (· ≠ x)) =
      (above ++ [(a, up.filter (· ≠ x))]) ++ (b, ids) :: post := by
    rw [hlev, setLevel_append]
    simp
  have hids : LsmStorageState.levelIds { st with
      levels := setLevel st.levels above.length (up.filter (· ≠ x)) } (above.length + 1) = ids := by
    have := levelIds_append { st with
      levels := setLevel st.levels above.length (up.filter (· ≠ x)) } hset
    rwa [List.length_append] at this
  have hremove : removeOnce [x] up = up.filter (· ≠ x) := by
    rw [removeOnce_eq_filter hnd'.2.1.1]
    simp
  have hset' := setLevel_append (above ++ [(a, up.filter (· ≠ x))]) post b ids
    (newLower st t.upper_level_sst_ids ids out)
  rw [List.length_append, ← hset] at hset'
  simp only [applyCompactionResult, hul, hll, hlower, hx, Nat.add_sub_cancel, Bool.false_eq_true,
    if_false, hup, hremove]
  rw [show above.length + 2 - 1 = above.length + 1 from rfl, hids,
    removeOnce_overlaps hnd'.2.1.2.1.1, ← hx]
  refine Prod.ext ?_ rfl
  dsimp only
  refine congrArg (fun l => { st with levels := l }) ?_
  refine Eq.trans hset' ?_
  simp

/-- Which tables overlap depends on these tables only. -/
theorem overlaps_congr {st st' : LsmStorageState} {ids : List ℕ} {id : ℕ}
    (h : ∀ x ∈ ids, st'.sstables x = st.sstables x) (hid : st'.sstables id = st.sstables id) :
    overlaps st' ids id = overlaps st ids id := by
  rw [overlaps, overlaps, LsmStorageState.tables_congr h, hid]

end LeveledCompactionController

namespace LeveledCompactionTask

open LeveledCompactionController

variable {E : Extern}

/-- The tables of a fitting task are tables of the state. -/
theorem Fits.mem_tableIds {t : LeveledCompactionTask} {st : LsmStorageState} (hf : t.Fits st)
    {id : ℕ} (hid : id ∈ t.upper_level_sst_ids ++ t.lower_level_sst_ids) : id ∈ st.tableIds := by
  obtain ⟨pre, b, ids, post, hlev, -, hlower, -, hup⟩ := hf
  have hlevel : ∀ level : ℕ × List ℕ, level ∈ st.levels → ∀ {id}, id ∈ level.2 →
      id ∈ st.tableIds := fun _ hl _ hid => List.mem_append_right _
    (List.mem_flatten.mpr ⟨_, List.mem_map_of_mem hl, hid⟩)
  rcases List.mem_append.mp hid with hid | hid
  · rcases hul : t.upper_level with _ | i
    · rw [hul] at hup
      obtain ⟨new, hl0⟩ := hup
      exact List.mem_append_left _ (hl0 ▸ List.mem_append_right _ hid)
    · rw [hul] at hup
      obtain ⟨above, a, up, x, rfl, -, hx, hxs⟩ := hup
      rw [hxs, List.mem_singleton] at hid
      subst hid
      exact hlevel (a, up) (by simp [hlev]) hx
  · rw [hlower] at hid
    exact hlevel (b, ids) (by simp [hlev]) (List.mem_of_mem_filter hid)

/-- A task keeps fitting when level-0 tables are added and the tables that were there stay open. -/
theorem Fits.congr {t : LeveledCompactionTask} {st st' : LsmStorageState} (hf : t.Fits st)
    (front : List ℕ) (hl0 : st'.l0_sstables = front ++ st.l0_sstables)
    (hlev : st'.levels = st.levels)
    (hsst : ∀ id ∈ st.tableIds, st'.sstables id = st.sstables id) : t.Fits st' := by
  have hmem := fun id => @mem_tableIds _ _ hf id
  obtain ⟨pre, b, ids, post, hlevels, hll, hlower, hpost, hup⟩ := hf
  have hids : ∀ id ∈ ids, id ∈ st.tableIds := fun id hid => List.mem_append_right _
    (List.mem_flatten.mpr ⟨ids, by simp [hlevels], hid⟩)
  refine ⟨pre, b, ids, post, by rw [hlev, hlevels], hll, ?_, hpost, ?_⟩
  · rw [hlower]
    refine List.filter_congr fun id hid => (overlaps_congr (fun x hx => ?_) ?_).symm
    · exact hsst x (hmem x (List.mem_append_left _ hx))
    · exact hsst id (hids id hid)
  · rcases hul : t.upper_level with _ | i
    · rw [hul] at hup
      obtain ⟨new, hnew⟩ := hup
      exact ⟨front ++ new, by rw [hl0, hnew, List.append_assoc]⟩
    · rwa [hul] at hup

/-- The groups that a fitting task merges are in order. -/
theorem Fits.inOrder {M : Type} {s : LsmStorageInner M} (h : Inv E s) {t : LeveledCompactionTask}
    (hf : t.Fits s.state) : ∀ g ∈ (CompactionTask.leveled t).groups, InOrder E s.state g := by
  have hsingle : ∀ id ∈ t.upper_level_sst_ids, InOrder E s.state [id] := by
    intro id hid
    obtain ⟨t', ht', hg⟩ := h.good id (hf.mem_tableIds (List.mem_append_left _ hid))
    refine ⟨fun t'' ht'' => ?_, ?_⟩
    · simp only [LsmStorageState.tables, List.filterMap_cons, ht', List.filterMap_nil,
        List.mem_singleton] at ht''
      rw [ht'']
      exact hg
    · rw [LsmStorageState.run_singleton ht']
      exact hg.sorted
  have hlower : InOrder E s.state t.lower_level_sst_ids := by
    obtain ⟨pre, b, ids, post, hlev, -, hlow, -⟩ := hf
    have hin := h.inOrder (g := ids) (List.mem_append_right _ (by simp [hlev]))
    have hsub : List.Sublist (s.state.tables t.lower_level_sst_ids) (s.state.tables ids) := by
      rw [hlow]
      exact List.filter_sublist.filterMap _
    exact ⟨fun t' ht' => hin.good t' (hsub.subset ht'),
      hin.sorted.sublist (List.Sublist.flatten (hsub.map _))⟩
  intro g hg
  rcases hul : t.upper_level with _ | i
  · simp only [CompactionTask.groups, levelGroups, hul, List.mem_append, List.mem_map,
      List.mem_singleton] at hg
    rcases hg with ⟨id, hid, rfl⟩ | rfl
    · exact hsingle id hid
    · exact hlower
  · obtain ⟨pre, b, ids, post, -, -, -, -, hup⟩ := hf
    rw [hul] at hup
    obtain ⟨above, a, up, x, -, -, -, hx⟩ := hup
    simp only [CompactionTask.groups, levelGroups, hul, List.mem_cons, List.not_mem_nil,
      or_false] at hg
    rcases hg with rfl | rfl
    · rw [hx]
      exact hsingle x (by simp [hx])
    · exact hlower

/-- The tables that a fitting task merges, one after the other. -/
theorem Fits.flatten_groups (t : LeveledCompactionTask) :
    (CompactionTask.leveled t).groups.flatten = t.upper_level_sst_ids ++ t.lower_level_sst_ids := by
  rcases hul : t.upper_level with _ | i
  · simp [CompactionTask.groups, levelGroups, hul, LsmStorageState.flatten_singletons]
  · simp [CompactionTask.groups, levelGroups, hul]

/-- What a fitting task merges are entries of its tables. -/
theorem mem_merged {t : LeveledCompactionTask} {st : LsmStorageState} {e : Bytes × Bytes}
    (he : e ∈ st.merged E (CompactionTask.leveled t).groups) :
    e ∈ st.run E t.upper_level_sst_ids ++ st.run E t.lower_level_sst_ids := by
  obtain ⟨l, hl, he⟩ := exists_mem_of_mem_overlays he
  obtain ⟨g, hg, rfl⟩ := List.mem_map.mp hl
  obtain ⟨id, hid, he⟩ := LsmStorageState.mem_run_iff.mp he
  have hmem : id ∈ (CompactionTask.leveled t).groups.flatten := List.mem_flatten.mpr ⟨g, hg, hid⟩
  rw [Fits.flatten_groups, List.mem_append] at hmem
  rw [List.mem_append]
  exact hmem.imp (fun h => LsmStorageState.mem_run_iff.mpr ⟨id, h, he⟩)
    fun h => LsmStorageState.mem_run_iff.mpr ⟨id, h, he⟩

end LeveledCompactionTask

namespace LeveledCompactionController

variable {M : Type} {E : Extern} {s : LsmStorageInner M} {t : LeveledCompactionTask}
  {ts : List SsTable}

/-- The tables that meet the hull are the same with those of the compaction open. -/
theorem filter_overlaps_withTables (hp : Pending E s ts) (hf : t.Fits s.state) {b : ℕ}
    {ids : List ℕ} (hlevel : (b, ids) ∈ s.state.levels)
    (hlower : t.lower_level_sst_ids = ids.filter (overlaps s.state t.upper_level_sst_ids)) :
    t.lower_level_sst_ids =
      ids.filter (overlaps (withTables s ts) t.upper_level_sst_ids) := by
  rw [hlower]
  refine List.filter_congr fun id hid => (overlaps_congr (fun x hx => ?_) ?_).symm
  · exact withTables_of_mem hp (hf.mem_tableIds (List.mem_append_left _ hx))
  · exact withTables_of_mem hp (List.mem_append_right _
      (List.mem_flatten.mpr ⟨ids, List.mem_map_of_mem hlevel, hid⟩))

/-- A table of the lower level that stays lies before or behind the whole output. -/
theorem separated_output (h : Inv E s) (hf : t.Fits s.state)
    (hc : (ts.map (SsTable.contents E)).flatten =
      keptEntries t.is_lower_level_bottom_level
        (s.state.merged E (CompactionTask.leveled t).groups))
    {b : ℕ} {ids : List ℕ} (hlevel : (b, ids) ∈ s.state.levels)
    (hlower : t.lower_level_sst_ids = ids.filter (overlaps s.state t.upper_level_sst_ids)) {id : ℕ}
    (hid : id ∈ ids) (hno : overlaps s.state t.upper_level_sst_ids id = false) :
    (∀ t' ∈ ts, Precedes (s.state.run E [id]) (t'.contents E)) ∨
      ∀ t' ∈ ts, Precedes (t'.contents E) (s.state.run E [id]) := by
  -- The output has keys of the merged tables only.
  have hentries : ∀ t' ∈ ts, ∀ e ∈ t'.contents E, e ∈ s.state.run E t.upper_level_sst_ids ++
      s.state.run E t.lower_level_sst_ids := by
    intro t' ht' e he
    have hmem : e ∈ (ts.map (SsTable.contents E)).flatten :=
      List.mem_flatten.mpr ⟨_, List.mem_map_of_mem ht', he⟩
    rw [hc] at hmem
    exact LeveledCompactionTask.mem_merged ((sublist_keptEntries _ _).subset hmem)
  have hupper : ∀ t' ∈ s.state.tables t.upper_level_sst_ids, t'.Good E := by
    intro t' ht'
    obtain ⟨x, hx, hxt⟩ := List.mem_filterMap.mp ht'
    obtain ⟨t'', ht'', hg⟩ := h.good x (hf.mem_tableIds (List.mem_append_left _ hx))
    rw [hxt] at ht''
    cases ht''
    exact hg
  have hgood : ∀ id ∈ ids, ∃ t', s.state.sstables id = some t' ∧ t'.Good E := fun id hid =>
    h.good id (List.mem_append_right _ (List.mem_flatten.mpr ⟨ids, List.mem_map_of_mem hlevel, hid⟩))
  have hsep := separated_of_not_overlaps hupper hgood
    (h.sorted ids (List.mem_append_right _ (List.mem_map_of_mem hlevel))) hid hno
  rw [← hlower] at hsep
  exact hsep.imp (fun hsep t' ht' e he e' he' => hsep e he e' (hentries t' ht' e' he'))
    fun hsep t' ht' e he e' he' => hsep e (hentries t' ht' e he) e' he'

/-- The lower level with the output is in order. -/
theorem sorted_newLower (h : Inv E s) (hp : Pending E s ts) (hf : t.Fits s.state)
    (hc : (ts.map (SsTable.contents E)).flatten =
      keptEntries t.is_lower_level_bottom_level
        (s.state.merged E (CompactionTask.leveled t).groups))
    {b : ℕ} {ids : List ℕ} (hlevel : (b, ids) ∈ s.state.levels)
    (hlower : t.lower_level_sst_ids = ids.filter (overlaps s.state t.upper_level_sst_ids)) :
    Assoc.Sorted ((withTables s ts).run E (newLower (withTables s ts) t.upper_level_sst_ids ids
      (ts.map SsTable.id))) := by
  have hids : ∀ id ∈ ids, id ∈ s.state.tableIds := fun id hid => List.mem_append_right _
    (List.mem_flatten.mpr ⟨ids, List.mem_map_of_mem hlevel, hid⟩)
  have hgood : ∀ id ∈ ids, ∃ t', (withTables s ts).sstables id = some t' ∧ t'.Good E := by
    intro id hid
    rw [withTables_of_mem hp (hids id hid)]
    exact h.good id (hids id hid)
  have hrun : ∀ {l : List ℕ}, (∀ id ∈ l, id ∈ s.state.tableIds) →
      (withTables s ts).run E l = s.state.run E l :=
    fun hl => LsmStorageState.run_congr fun id hid => withTables_of_mem hp (hl id hid)
  have hsorted : Assoc.Sorted ((withTables s ts).run E ids) := by
    rw [hrun hids]
    exact h.sorted ids (List.mem_append_right _ (List.mem_map_of_mem hlevel))
  have hrunNew : ∀ t' ∈ ts, (withTables s ts).run E [t'.id] = t'.contents E := fun t' ht' =>
    LsmStorageState.run_singleton (withTables_new hp ht')
  refine sorted_insertionSort ?_ ?_
  · intro id hid
    rcases List.mem_append.mp hid with hid | hid
    · exact hgood id (List.mem_of_mem_filter hid)
    · obtain ⟨t', ht', rfl⟩ := List.mem_map.mp hid
      exact ⟨t', withTables_new hp ht', hp.good t' ht'⟩
  · rw [List.pairwise_append]
    refine ⟨?_, ?_, ?_⟩
    · exact ((LsmStorageState.sorted_run_iff.mp hsorted).2.sublist List.filter_sublist).imp .inl
    · rw [List.pairwise_map]
      have hts := hp.sorted
      rw [Assoc.Sorted, List.pairwise_flatten, List.pairwise_map] at hts
      refine hts.2.imp_of_mem fun {a b} ha hb hab => .inl ?_
      rw [hrunNew a ha, hrunNew b hb]
      exact hab
    · intro id hid id' hid'
      obtain ⟨hmem, hno⟩ := List.mem_filter.mp hid
      obtain ⟨t', ht', rfl⟩ := List.mem_map.mp hid'
      have hno' : overlaps s.state t.upper_level_sst_ids id = false := by
        have hcongr := overlaps_congr (fun x (hx : x ∈ t.upper_level_sst_ids) =>
          withTables_of_mem hp (hf.mem_tableIds (List.mem_append_left _ hx)))
          (withTables_of_mem hp (hids id hmem))
        rw [← hcongr]
        simpa using hno
      rw [hrunNew t' ht', hrun (l := [id]) (by simpa using hids id hmem)]
      exact (separated_output h hf hc hlevel hlower hmem hno').imp (fun hsep => hsep t' ht')
        fun hsep => hsep t' ht'

/-- The tables that overlap are replaced by the outputs, in some order. -/
theorem perm_newLower (st : LsmStorageState) (upper_ids ids out : List ℕ) :
    ids.Perm (ids.filter (overlaps st upper_ids) ++
        ids.filter fun id => !overlaps st upper_ids id) ∧
      (newLower st upper_ids ids out).Perm
        (out ++ ids.filter fun id => !overlaps st upper_ids id) := by
  refine ⟨?_, ?_⟩
  · have := List.filter_append_perm (overlaps st upper_ids) ids
    simpa using this.symm
  · exact (List.perm_insertionSort _ _).trans List.perm_append_comm

/-- What the last step of a compaction of level-0 tables leaves. -/
theorem applyTrigger_l0 (io : ManifestIO M) {o : LeveledCompactionOptions}
    (ho : s.options.compaction_options = .leveled o) (h : Inv E s) (hp : Pending E s ts)
    (hf : t.Fits s.state) {pre post : List (ℕ × List ℕ)} {b : ℕ} {ids new : List ℕ}
    (hlev : s.state.levels = pre ++ (b, ids) :: post) (hll : t.lower_level = pre.length + 1)
    (hlower : t.lower_level_sst_ids = ids.filter (overlaps s.state t.upper_level_sst_ids))
    (hul : t.upper_level = none) (hl0 : s.state.l0_sstables = new ++ t.upper_level_sst_ids) :
    (s.applyTrigger io (.leveled t) ts).1 = .ok () ∧
      Applied s (s.applyTrigger io (.leveled t) ts).2 (CompactionTask.leveled t).groups.flatten
        ts ∧
      (s.applyTrigger io (.leveled t) ts).2.state.l0_sstables = new ∧
      (s.applyTrigger io (.leveled t) ts).2.state.levels = pre ++
        (b, newLower (withTables s ts) t.upper_level_sst_ids ids (ts.map SsTable.id)) :: post := by
  have hlevel : (b, ids) ∈ s.state.levels := by simp [hlev]
  have hlower' := filter_overlaps_withTables hp hf hlevel hlower
  have heq := applyCompactionResult_l0 (withTables s ts) h.nodup hlev hll hlower' hul hl0
    (ts.map SsTable.id)
  rw [LeveledCompactionTask.Fits.flatten_groups]
  refine applyTrigger_applied io { withTables s ts with
    l0_sstables := new
    levels := pre ++ (b, newLower (withTables s ts) t.upper_level_sst_ids ids
      (ts.map SsTable.id)) :: post } ?_ rfl rfl rfl ?_
  · rw [ho]
    exact congrArg Except.ok heq
  · obtain ⟨hperm, hperm'⟩ := perm_newLower (withTables s ts) t.upper_level_sst_ids ids
      (ts.map SsTable.id)
    rw [← hlower'] at hperm
    refine ⟨new ++ (pre.map Prod.snd).flatten ++
      (ids.filter (fun id => !overlaps (withTables s ts) t.upper_level_sst_ids id)) ++
      (post.map Prod.snd).flatten, ?_, ?_⟩
    · rw [LsmStorageState.tableIds, hl0, hlev, ← Multiset.coe_eq_coe]
      rw [← Multiset.coe_eq_coe] at hperm
      simp only [List.map_append, List.map_cons, List.flatten_append, List.flatten_cons,
        ← Multiset.coe_add, hperm]
      abel
    · rw [LsmStorageState.tableIds, ← Multiset.coe_eq_coe]
      rw [← Multiset.coe_eq_coe] at hperm'
      simp only [List.map_append, List.map_cons, List.flatten_append, List.flatten_cons,
        ← Multiset.coe_add] at hperm' ⊢
      rw [hperm']
      abel

/-- What the last step of a compaction of a table of a level leaves. -/
theorem applyTrigger_level (io : ManifestIO M) {o : LeveledCompactionOptions}
    (ho : s.options.compaction_options = .leveled o) (h : Inv E s) (hp : Pending E s ts)
    (hf : t.Fits s.state) {above post : List (ℕ × List ℕ)} {a b x : ℕ} {up ids : List ℕ}
    (hlev : s.state.levels = above ++ (a, up) :: (b, ids) :: post)
    (hll : t.lower_level = above.length + 2)
    (hlower : t.lower_level_sst_ids = ids.filter (overlaps s.state t.upper_level_sst_ids))
    (hul : t.upper_level = some (above.length + 1)) (hx : t.upper_level_sst_ids = [x])
    (hxup : x ∈ up) :
    (s.applyTrigger io (.leveled t) ts).1 = .ok () ∧
      Applied s (s.applyTrigger io (.leveled t) ts).2 (CompactionTask.leveled t).groups.flatten
        ts ∧
      (s.applyTrigger io (.leveled t) ts).2.state.l0_sstables = s.state.l0_sstables ∧
      (s.applyTrigger io (.leveled t) ts).2.state.levels = above ++ (a, up.filter (· ≠ x)) ::
        (b, newLower (withTables s ts) t.upper_level_sst_ids ids (ts.map SsTable.id)) :: post := by
  have hlevel : (b, ids) ∈ s.state.levels := by simp [hlev]
  have hlower' := filter_overlaps_withTables hp hf hlevel hlower
  have heq := applyCompactionResult_level (withTables s ts) h.nodup hlev hll hlower' hul hx
    (ts.map SsTable.id)
  rw [LeveledCompactionTask.Fits.flatten_groups]
  refine applyTrigger_applied io { withTables s ts with
    levels := above ++ (a, up.filter (· ≠ x)) :: (b, newLower (withTables s ts)
      t.upper_level_sst_ids ids (ts.map SsTable.id)) :: post } ?_ rfl rfl rfl ?_
  · rw [ho]
    exact congrArg Except.ok heq
  · obtain ⟨hperm, hperm'⟩ := perm_newLower (withTables s ts) t.upper_level_sst_ids ids
      (ts.map SsTable.id)
    rw [← hlower'] at hperm
    have hupnd : up.Nodup := by
      have := (List.nodup_append.mp h.nodup).2.1
      rw [hlev] at this
      simp only [List.map_append, List.map_cons, List.flatten_append, List.flatten_cons,
        List.nodup_append] at this
      exact this.2.1.1
    have hpermUp : up.Perm ([x] ++ up.filter (· ≠ x)) := by
      have hne : up.filter (· != x) = up.filter (· ≠ x) :=
        List.filter_congr fun y _ => by rw [Bool.eq_iff_iff]; simp
      rw [← hne, ← hupnd.erase_eq_filter]
      exact List.perm_cons_erase hxup
    refine ⟨s.state.l0_sstables ++ (above.map Prod.snd).flatten ++ up.filter (· ≠ x) ++
      (ids.filter (fun id => !overlaps (withTables s ts) t.upper_level_sst_ids id)) ++
      (post.map Prod.snd).flatten, ?_, ?_⟩
    · rw [LsmStorageState.tableIds, hlev, ← Multiset.coe_eq_coe]
      rw [← Multiset.coe_eq_coe] at hperm hpermUp
      simp only [List.map_append, List.map_cons, List.flatten_append, List.flatten_cons, hx,
        ← Multiset.coe_add] at hperm hpermUp ⊢
      rw [hperm, hpermUp]
      abel
    · have hl0 : (withTables s ts).l0_sstables = s.state.l0_sstables := rfl
      rw [LsmStorageState.tableIds, ← Multiset.coe_eq_coe]
      rw [← Multiset.coe_eq_coe] at hperm'
      simp only [List.map_append, List.map_cons, List.flatten_append, List.flatten_cons,
        ← Multiset.coe_add, hl0] at hperm' ⊢
      rw [hperm']
      abel

/-- The lower level in the new state. -/
theorem run_newLower {s' : LsmStorageInner M} {old : List ℕ} (h : Inv E s) (hp : Pending E s ts)
    (ha : Applied s s' old ts) {g : List ℕ} (hg : g ∈ s'.state.groups) :
    s'.state.run E g = (withTables s ts).run E g := by
  refine LsmStorageState.run_congr fun id hid => ?_
  rw [ha.sstables, if_neg (ha.not_mem_old h hp (LsmStorageState.mem_tableIds_iff.mpr ⟨g, hg, hid⟩))]
  rfl

/-- A group of the new state whose tables are tables of the old one, in the same order as in a group
of it, is in order. -/
theorem sorted_of_sublist {s' : LsmStorageInner M} {old : List ℕ} (h : Inv E s)
    (hp : Pending E s ts) (ha : Applied s s' old ts) {g g' : List ℕ} (hg : g ∈ s'.state.groups)
    (hg' : g' ∈ s.state.groups) (hsub : g.Sublist g') : Assoc.Sorted (s'.state.run E g) := by
  have hrun : s'.state.run E g = s.state.run E g := by
    refine ha.run_of_mem hp fun id hid => ⟨?_, ?_⟩
    · exact LsmStorageState.mem_tableIds_iff.mpr ⟨g', hg', hsub.subset hid⟩
    · exact ha.not_mem_old h hp (LsmStorageState.mem_tableIds_iff.mpr ⟨g, hg, hid⟩)
  rw [hrun]
  exact (h.sorted g' hg').sublist (List.Sublist.flatten ((hsub.filterMap _).map _))

/-- The last step of a leveled compaction keeps the levels in order. -/
theorem applyTrigger_spec (io : ManifestIO M) {o : LeveledCompactionOptions}
    (ho : s.options.compaction_options = .leveled o) (h : Inv E s) (hp : Pending E s ts)
    (hf : t.Fits s.state)
    (hc : (ts.map (SsTable.contents E)).flatten =
      keptEntries t.is_lower_level_bottom_level
        (s.state.merged E (CompactionTask.leveled t).groups)) :
    (s.applyTrigger io (.leveled t) ts).1 = .ok () ∧
      Applied s (s.applyTrigger io (.leveled t) ts).2 (CompactionTask.leveled t).groups.flatten
        ts ∧
      (s.applyTrigger io (.leveled t) ts).2.state.levels.length = s.state.levels.length ∧
      ∀ g ∈ (s.applyTrigger io (.leveled t) ts).2.state.groups,
        Assoc.Sorted ((s.applyTrigger io (.leveled t) ts).2.state.run E g) := by
  obtain ⟨pre, b, ids, post, hlev, hll, hlower, hpost, hup⟩ := id hf
  have hlevel : (b, ids) ∈ s.state.levels := by simp [hlev]
  have hnew := sorted_newLower h hp hf hc hlevel hlower
  rcases hul : t.upper_level with _ | i
  · rw [hul] at hup
    obtain ⟨new, hl0⟩ := hup
    obtain ⟨hok, ha, hl0', hlev'⟩ := applyTrigger_l0 io ho h hp hf hlev hll hlower hul hl0
    refine ⟨hok, ha, by rw [hlev', hlev]; simp, fun g hg => ?_⟩
    have hmem := hg
    rw [LsmStorageState.groups, hl0', hlev', List.map_append, List.map_cons] at hg
    have hkeep : g ∈ s.state.groups → Assoc.Sorted
        ((s.applyTrigger io (.leveled t) ts).2.state.run E g) :=
      fun hg' => sorted_of_sublist h hp ha hmem hg' (List.Sublist.refl g)
    simp only [List.mem_append, List.mem_cons, List.mem_map] at hg
    rcases hg with ⟨id, hid, rfl⟩ | ⟨level, hl, rfl⟩ | rfl | ⟨level, hl, rfl⟩
    · exact hkeep (List.mem_append_left _ (by simp [hl0, hid]))
    · exact hkeep (List.mem_append_right _ (List.mem_map_of_mem (by simp [hlev, hl])))
    · rw [run_newLower h hp ha hmem]
      exact hnew
    · exact hkeep (List.mem_append_right _ (List.mem_map_of_mem (by simp [hlev, hl])))
  · rw [hul] at hup
    obtain ⟨above, a, up, x, rfl, rfl, hx, hxs⟩ := hup
    rw [List.append_assoc, List.singleton_append] at hlev
    obtain ⟨hok, ha, hl0', hlev'⟩ := applyTrigger_level io ho h hp hf hlev (by simpa using hll)
      hlower hul hxs hx
    refine ⟨hok, ha, by rw [hlev', hlev]; simp, fun g hg => ?_⟩
    have hmem := hg
    rw [LsmStorageState.groups, hl0', hlev', List.map_append, List.map_cons, List.map_cons] at hg
    have hkeep : g ∈ s.state.groups → Assoc.Sorted
        ((s.applyTrigger io (.leveled t) ts).2.state.run E g) :=
      fun hg' => sorted_of_sublist h hp ha hmem hg' (List.Sublist.refl g)
    simp only [List.mem_append, List.mem_cons, List.mem_map] at hg
    rcases hg with ⟨id, hid, rfl⟩ | ⟨level, hl, rfl⟩ | rfl | rfl | ⟨level, hl, rfl⟩
    · exact hkeep (List.mem_append_left _ (by simp [hid]))
    · exact hkeep (List.mem_append_right _ (List.mem_map_of_mem (by simp [hlev, hl])))
    · have hup : up ∈ s.state.groups := List.mem_append_right _ (by simp [hlev])
      exact sorted_of_sublist h hp ha hmem hup List.filter_sublist
    · rw [run_newLower h hp ha hmem]
      exact hnew
    · exact hkeep (List.mem_append_right _ (List.mem_map_of_mem (by simp [hlev, hl])))

end LeveledCompactionController

end MiniLsm
