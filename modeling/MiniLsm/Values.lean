import MiniLsm.Structure

/-!
# Compactions and values

What the tiered and the leveled compactions do to the values of keys.

A tiered compaction may drop deleted keys only if it has the oldest tiers. The task says so in all
branches of `generate_compaction_task` but the last one, in which the bound on the width of a merge
may leave out the oldest tiers.

A leveled compaction of level-0 tables puts them below the levels above the base level, and the base
level moves down when the last level shrinks. Then a key of a level-0 table that is also in one of
the levels in between gets the older value (`applyTrigger_view`). A compaction of a table of a level
puts it below the others of its level, which have other keys, and keeps every value.
-/

namespace MiniLsm

open LsmStorageInner LsmStorageInner.Applied

/-! ## The tiered controller -/

/-- The last branch of `generate_compaction_task` leaves out the oldest tiers. -/
def TieredCompactionController.leavesOutOldest (r : Rounding) (options : TieredCompactionOptions)
    (snapshot : LsmStorageState) : Bool :=
  decide (options.num_tiers ≤ snapshot.levels.length) && !snapshot.levels.isEmpty &&
    !spaceAmpTrigger r options snapshot.levels &&
    !(List.range (snapshot.levels.length - 1)).any (sizeRatioTrigger r options snapshot.levels) &&
    options.max_merge_width.any fun w => decide (w < snapshot.levels.length)

namespace TieredCompactionController

/-- A task that leaves nothing out and drops deleted keys has the oldest tiers. -/
theorem sound_of_not_leavesOutOldest {r : Rounding} {options : TieredCompactionOptions}
    {st : LsmStorageState} {t : TieredCompactionTask}
    (h : generateCompactionTask r options st = some t)
    (hno : leavesOutOldest r options st = false) (hb : t.bottom_tier_included = true) :
    t.tiers = st.levels := by
  rw [generateCompactionTask] at h
  dsimp only at h
  split_ifs at h with h0 hamp
  · cases h
    rfl
  · split at h
    · cases h
      cases hb
    · next hratio =>
      cases h
      push Not at h0
      -- The last branch: the bound on the width is not below the number of tiers.
      rcases hw : options.max_merge_width with _ | w
      · simp
      · have hany : (List.range (st.levels.length - 1)).any (sizeRatioTrigger r options st.levels) =
            false := by
          rw [List.find?_eq_none] at hratio
          simpa using hratio
        have hle : st.levels.length ≤ w := by
          by_contra hlt
          have : leavesOutOldest r options st = true := by
            simp only [leavesOutOldest, hany, hw, Option.any_some, Bool.and_eq_true,
              decide_eq_true_eq, Bool.not_eq_true', Bool.not_false]
            refine ⟨⟨⟨⟨h0.1, by simpa using h0.2⟩, by simpa using hamp⟩, trivial⟩, by omega⟩
          rw [hno] at this
          cases this
        simp [hle]

/-- A generated task that drops deleted keys has the oldest tier, unless the last branch leaves out
the oldest tiers. -/
theorem bottom_iff {r : Rounding} {options : TieredCompactionOptions} {st : LsmStorageState}
    (hnd : (st.levels.map Prod.fst).Nodup) :
    (∀ t, generateCompactionTask r options st = some t → t.bottom_tier_included = true →
      ∃ last, st.levels.getLast? = some last ∧ last ∈ t.tiers) ↔
      leavesOutOldest r options st = false := by
  constructor
  · intro h
    by_contra hleaves
    rw [Bool.not_eq_false] at hleaves
    simp only [leavesOutOldest, Bool.and_eq_true, decide_eq_true_eq, Bool.not_eq_true'] at hleaves
    obtain ⟨⟨⟨⟨hnum, hne⟩, hamp⟩, hratio⟩, hw⟩ := hleaves
    obtain ⟨w, hw, hlt⟩ := (Option.any_eq_true _ _).mp hw
    have hlt : w < st.levels.length := of_decide_eq_true hlt
    have hfind : (List.range (st.levels.length - 1)).find? (sizeRatioTrigger r options st.levels) =
        none := by
      rw [List.find?_eq_none]
      simpa using hratio
    have hgen : generateCompactionTask r options st = some ⟨st.levels.take w, true⟩ := by
      rw [generateCompactionTask]
      dsimp only
      rw [if_neg, if_neg (by simp [hamp]), hfind, hw]
      · simp [hlt.le]
      · push Not
        exact ⟨hnum, by simpa using hne⟩
    obtain ⟨last, hlast, hmem⟩ := h _ hgen rfl
    -- The oldest tier is behind those that are taken, and the tiers are distinct.
    have hdrop : last ∈ st.levels.drop w := by
      rw [List.getLast?_eq_some_iff] at hlast
      obtain ⟨ys, hys⟩ := hlast
      rw [hys, List.drop_append_of_le_length (by rw [hys] at hlt; simp at hlt; omega)]
      simp
    rw [← List.take_append_drop w st.levels, List.map_append, List.nodup_append] at hnd
    exact hnd.2.2 _ (List.mem_map_of_mem hmem) _ (List.mem_map_of_mem hdrop) rfl
  · intro hno t ht hb
    rw [sound_of_not_leavesOutOldest ht hno hb]
    obtain ⟨hne, -⟩ := generateCompactionTask_cases ht
    exact ⟨st.levels.getLast hne, List.getLast?_eq_some_getLast hne, List.getLast_mem hne⟩

variable {M : Type} {E : Extern} {s : LsmStorageInner M}

/-- A compaction whose task has the oldest tiers if it drops deleted keys keeps every value. -/
theorem triggerCompaction_view (io : ManifestIO M) {o : TieredCompactionOptions}
    (ho : s.options.compaction_options = .tiered o) (h : Inv E s)
    (hnd : (s.state.levels.map Prod.fst).Nodup) {t : TieredCompactionTask}
    (hgen : s.generateTask E = some (.tiered t)) {rest : List (ℕ × List ℕ)} (hne : t.tiers ≠ [])
    (hlev : s.state.levels = t.tiers ++ rest) (hrest : t.bottom_tier_included = true → rest = [])
    (hsmall : (s.compact E (.tiered t)).2.disk.Small) :
    ∃ s', s.triggerCompaction E io = (.ok true, s') ∧
      ∀ k, s'.get E k = s.get E k := by
  have hgroups : ∀ g ∈ (CompactionTask.tiered t).groups, InOrder E s.state g := by
    intro g hg
    obtain ⟨tier, ht, rfl⟩ := List.mem_map.mp hg
    exact h.inOrder (List.mem_append_right _ (List.mem_map_of_mem (by simp [hlev, ht])))
  obtain ⟨ts, hts, hb⟩ := compact_spec hgroups h.block_size hsmall
  rw [triggerCompaction, hgen]
  dsimp only
  generalize s.compact E (.tiered t) = o₁ at hts hb
  obtain ⟨r₁, s₁⟩ := o₁
  dsimp only at hts hb
  subst hts
  rw [Outcome.bind_ok]
  have hinv := hb.wrote.inv h
  have hp := hb.pending h ((Assoc.sorted_overlays _).sublist (sublist_keptEntries _ _))
  rw [← hb.wrote.options] at ho
  have hl0 := hinv.tiers (by rw [ho]; rfl)
  rw [← hb.wrote.state] at hlev hnd
  have hlev' : s₁.state.levels = [] ++ (t.tiers ++ rest) := hlev
  obtain ⟨hok, ha, hl0', hlevels⟩ := applyTrigger_spec io ho hinv ts hne hlev' hnd
  have hseg := segment_of_levels _ hlev' hl0 hlevels hl0' hrest
  have hview := ha.segment_view hinv hp (by rw [hb.wrote.state]; exact hb.contents) hseg
  have hinv' := ha.inv hinv hp (ha.segment_sorted hinv hp hseg) fun _ => hl0'
  generalize s₁.applyTrigger io (.tiered t) ts = o₂ at hok hview hinv'
  obtain ⟨r₂, s₂⟩ := o₂
  dsimp only at hok hview hinv'
  subst hok
  refine ⟨s₂, rfl, fun k => ?_⟩
  rw [get_spec hinv'.readable, get_spec h.readable, hview k, hb.wrote.state]

/-- Exactly where the last branch does not leave out the oldest tiers, a generated task that drops
deleted keys has the oldest tier, so that the compaction keeps every value. -/
theorem bottom_tier_iff (io : ManifestIO M) {o : TieredCompactionOptions}
    (ho : s.options.compaction_options = .tiered o) (h : Inv E s)
    (hnd : (s.state.levels.map Prod.fst).Nodup) :
    (∀ t, s.generateTask E = some (.tiered t) →
      (t.bottom_tier_included = true →
        ∃ last, s.state.levels.getLast? = some last ∧ last ∈ t.tiers) ∧
      ((s.compact E (.tiered t)).2.disk.Small →
        ∃ s', s.triggerCompaction E io = (.ok true, s') ∧ ∀ k, s'.get E k = s.get E k)) ↔
      leavesOutOldest E.rounding o s.state = false := by
  have hgen : ∀ t, s.generateTask E = some (.tiered t) ↔
      generateCompactionTask E.rounding o s.state = some t := by
    intro t
    simp [generateTask, CompactionController.generateCompactionTask, ho]
  constructor
  · intro hall
    exact (bottom_iff hnd).mp fun t ht => (hall t ((hgen t).mpr ht)).1
  · intro hno t ht
    have ht' := (hgen t).mp ht
    refine ⟨(bottom_iff hnd).mpr hno t ht', fun hsmall => ?_⟩
    by_cases hb : t.bottom_tier_included = true
    · have htiers := sound_of_not_leavesOutOldest ht' hno hb
      have hall : s.state.levels = t.tiers ++ [] := by simp [htiers]
      refine triggerCompaction_view io ho h hnd ht ?_ hall (fun _ => rfl) hsmall
      rw [htiers]
      exact (generateCompactionTask_cases ht').1
    · obtain ⟨hne, rfl | ⟨n, rfl⟩ | rfl⟩ := generateCompactionTask_cases ht'
      · exact absurd rfl hb
      · exact triggerCompaction_view io ho h hnd ht (by simpa using hne)
          (List.take_append_drop (n + 1) s.state.levels).symm (fun hb' => absurd hb' hb) hsmall
      · exact absurd rfl hb

/-- Three tiers, of which the one in the middle deletes the key of the oldest one. -/
def threeTiers : List (Op Unit) :=
  [.put [97] [49], .freeze, .flush, .del [97], .freeze, .flush, .put [98] [50], .freeze, .flush]

/-- A run without compactions, up to a state in which `q` holds. -/
theorem exists_inv_threeTiers {o : TieredCompactionOptions} (ho : o.max_merge_width ≠ some 0)
    (q : LsmStorageInner (List ManifestRecord) → Bool)
    (h : ((Machine.start .list { compaction_options := .tiered o }).check .lib .list
      (fun _ op => !op matches .trigger _) threeTiers).any (fun c => q c.store) = true) :
    ∃ s : LsmStorageInner (List ManifestRecord), s.options.compaction_options = .tiered o ∧
      Inv .lib s ∧ (s.state.levels.map Prod.fst).Nodup ∧ q s = true := by
  obtain ⟨c, hrun, hq⟩ := Machine.exists_run (P := Machine.Covers .lib) (fun c => q c.store)
    (fun c op hop i t hi => by subst hi; simp at hop) h
  obtain ⟨hinv, hopt⟩ := hrun.serial.1.inv (by simp) (by exact ho) fun c op _ hop => ⟨hop.2, hop.1⟩
  refine ⟨c.store, by rw [hopt], hinv.store, ?_, hq⟩
  have hsh := hinv.shape
  simp only [Shape, hopt] at hsh
  exact hsh.1

/-- Of three tiers, all are merged. -/
theorem bottom_tier_threeTiers :
    ∃ s : LsmStorageInner (List ManifestRecord), s.options.compaction_options = .tiered {} ∧
      ∀ t, s.generateTask .lib = some (.tiered t) → t.bottom_tier_included = true →
        ∃ last, s.state.levels.getLast? = some last ∧ last ∈ t.tiers := by
  obtain ⟨s, ho, hinv, hnd, hq⟩ := exists_inv_threeTiers (o := {}) (by decide)
    (fun s => !leavesOutOldest Extern.lib.rounding {} s.state) (by decide +kernel)
  have hall := (bottom_tier_iff .list ho hinv hnd).mpr (by simpa using hq)
  exact ⟨s, ho, fun t ht => (hall t ht).1⟩

/-- Of three tiers, the two newest ones are merged, and the last one is left out. -/
theorem bottom_tier_two_of_three :
    ¬ ∀ s : LsmStorageInner (List ManifestRecord),
      s.options.compaction_options = .tiered Machine.twoOfThreeTiers → Inv .lib s →
      (s.state.levels.map Prod.fst).Nodup → (∀ tier ∈ s.state.levels, tier.2 ≠ []) →
      ∀ t, s.generateTask .lib = some (.tiered t) →
        (t.bottom_tier_included = true →
          ∃ last, s.state.levels.getLast? = some last ∧ last ∈ t.tiers) ∧
        ∀ k, (s.triggerCompaction .lib .list).2.get .lib k = s.get .lib k := by
  intro h
  obtain ⟨s, ho, hinv, hnd, hq⟩ := exists_inv_threeTiers (o := Machine.twoOfThreeTiers) (by decide)
    (fun s => decide (s.state.levels = [(2, [2]), (1, [1]), (0, [0])]) &&
      decide (s.generateTask .lib = some (.tiered ⟨[(2, [2]), (1, [1])], true⟩)) &&
      decide (s.get .lib [97] = .ok []) &&
      decide ((s.triggerCompaction .lib .list).2.get .lib [97] = .ok [49])) (by decide +kernel)
  simp only [Bool.and_eq_true, decide_eq_true_eq] at hq
  obtain ⟨⟨⟨hlev, hgen⟩, hbefore⟩, hafter⟩ := hq
  have hget := (h s ho hinv hnd (by simp [hlev]) _ hgen).2 [97]
  rw [hbefore, hafter] at hget
  cases hget

end TieredCompactionController

/-! ## The leveled controller -/

/-- A value that is moved from in front of `u` to behind it, over `l`: what a read finds is the same
unless it found the value and now finds that of `u`. -/
theorem getD_moved_iff (bottom : Bool) (stay : Option Bytes) {a p u l q : Option Bytes}
    (hq : bottom = true → q = none) (hstay : (p.or l).isSome = true → stay = none) :
    ((a.or (u.or ((stay.or (if bottom then (p.or l).filter (fun v => !v.isEmpty) else p.or l)).or
        q))).getD [] = (a.or (p.or (u.or ((l.or stay).or q)))).getD []) ↔
      (a = none → ∀ x y, u = some x → p = some y → x = y) := by
  rcases a with _ | a
  · rcases p with _ | y
    · -- Nothing is moved: only deleted keys of `l` may be dropped.
      simp only [Option.none_or, reduceCtorEq, IsEmpty.forall_iff, implies_true, iff_true]
      rcases u with _ | x
      · rcases l with _ | z
        · cases bottom <;> simp
        · rw [hstay (by simp)]
          cases bottom with
          | false => simp
          | true =>
            rw [hq rfl]
            rcases z with _ | ⟨b, z⟩ <;> simp [Option.filter]
      · simp
    · rw [hstay (by simp)]
      rcases u with _ | x
      · simp only [Option.none_or, Option.some_or, Option.getD_some, reduceCtorEq, IsEmpty.forall_iff,
          implies_true, iff_true]
        cases bottom with
        | false => simp
        | true =>
          rw [hq rfl]
          rcases y with _ | ⟨b, y⟩ <;> simp [Option.filter]
      · simp
  · simp

namespace LsmStorageState

variable {E : Extern} {st : LsmStorageState} {ids : List ℕ} {k : Bytes}

/-- What a sorted run has of a key is in one of its tables. -/
theorem lookup_run_eq_some_iff (hs : Assoc.Sorted (st.run E ids)) {v : Bytes} :
    Assoc.lookup k (st.run E ids) = some v ↔ ∃ id ∈ ids, (k, v) ∈ st.run E [id] := by
  rw [Assoc.lookup_eq_some_iff hs, mem_run_iff]

/-- A key is in at most one of the tables of a level. -/
theorem eq_of_mem_run (hs : Assoc.Sorted (st.run E ids)) {id id' : ℕ} (hid : id ∈ ids)
    (hid' : id' ∈ ids) {v v' : Bytes} (h : (k, v) ∈ st.run E [id]) (h' : (k, v') ∈ st.run E [id']) :
    id = id' := by
  by_contra hne
  have hpair := (sorted_run_iff.mp hs).2.imp (S := fun a b =>
    Precedes (st.run E [a]) (st.run E [b]) ∨ Precedes (st.run E [b]) (st.run E [a])) .inl
  have : Std.Symm fun a b =>
      Precedes (st.run E [a]) (st.run E [b]) ∨ Precedes (st.run E [b]) (st.run E [a]) :=
    ⟨fun _ _ => Or.symm⟩
  rcases hpair.forall hid hid' hne with hp | hp
  · exact lt_irrefl k (hp _ h _ h')
  · exact lt_irrefl k (hp _ h' _ h)

/-- Leaving tables out of a sorted run leaves it sorted. -/
theorem sorted_run_filter (hs : Assoc.Sorted (st.run E ids)) (p : ℕ → Bool) :
    Assoc.Sorted (st.run E (ids.filter p)) :=
  hs.sublist (List.Sublist.flatten ((List.filter_sublist.filterMap _).map _))

/-- The tables of a level in two parts have no key in common. -/
theorem lookup_run_filter_not (hs : Assoc.Sorted (st.run E ids)) (p : ℕ → Bool)
    (h : (Assoc.lookup k (st.run E (ids.filter p))).isSome = true) :
    Assoc.lookup k (st.run E (ids.filter fun id => !p id)) = none := by
  obtain ⟨v, hv⟩ := Option.isSome_iff_exists.mp h
  obtain ⟨id, hid, hmem⟩ := (lookup_run_eq_some_iff (sorted_run_filter hs p)).mp hv
  rw [List.mem_filter] at hid
  rw [Option.eq_none_iff_forall_ne_some]
  intro v' hv'
  obtain ⟨id', hid', hmem'⟩ :=
    (lookup_run_eq_some_iff (sorted_run_filter hs fun id => !p id)).mp hv'
  rw [List.mem_filter] at hid'
  have := eq_of_mem_run hs hid.1 hid'.1 hmem hmem'
  simp [← this, hid.2] at hid'

/-- The tables of a level in two parts. -/
theorem lookup_run_split (hs : Assoc.Sorted (st.run E ids)) (p : ℕ → Bool) :
    Assoc.lookup k (st.run E ids) = (Assoc.lookup k (st.run E (ids.filter p))).or
      (Assoc.lookup k (st.run E (ids.filter fun id => !p id))) := by
  apply Option.ext
  intro v
  rw [lookup_run_eq_some_iff hs, Option.or_eq_some_iff,
    lookup_run_eq_some_iff (sorted_run_filter hs p),
    lookup_run_eq_some_iff (sorted_run_filter hs fun id => !p id)]
  constructor
  · rintro ⟨id, hid, hmem⟩
    by_cases hp : p id = true
    · exact .inl ⟨id, List.mem_filter.mpr ⟨hid, hp⟩, hmem⟩
    · refine .inr ⟨?_, id, List.mem_filter.mpr ⟨hid, by simpa using hp⟩, hmem⟩
      by_contra hsome
      have hnone := lookup_run_filter_not hs p (Option.isSome_iff_ne_none.mpr hsome)
      have hv : Assoc.lookup k (st.run E (ids.filter fun id => !p id)) = some v :=
        (lookup_run_eq_some_iff (sorted_run_filter hs fun id => !p id)).mpr
          ⟨id, List.mem_filter.mpr ⟨hid, by simpa using hp⟩, hmem⟩
      rw [hnone] at hv
      cases hv
  · rintro (⟨id, hid, hmem⟩ | ⟨-, id, hid, hmem⟩)
    · exact ⟨id, List.mem_of_mem_filter hid, hmem⟩
    · exact ⟨id, List.mem_of_mem_filter hid, hmem⟩

end LsmStorageState

namespace LeveledCompactionController

variable {M : Type} {E : Extern} {s s' : LsmStorageInner M} {t : LeveledCompactionTask}
  {ts : List SsTable} {b : ℕ} {ids : List ℕ}

/-- The tables of the lower level that stay have no key of the merged ones. -/
theorem lookup_stay_eq_none (h : Inv E s) (hf : t.Fits s.state) (hlevel : (b, ids) ∈ s.state.levels)
    {k v : Bytes} {id : ℕ} (hid : id ∈ t.upper_level_sst_ids) (hmem : (k, v) ∈ s.state.run E [id]) :
    Assoc.lookup k (s.state.run E
      (ids.filter fun id => !overlaps s.state t.upper_level_sst_ids id)) = none := by
  have hsorted := h.sorted ids (List.mem_append_right _ (List.mem_map_of_mem hlevel))
  rw [Option.eq_none_iff_forall_ne_some]
  intro v' hv'
  obtain ⟨id', hid', hmem'⟩ := (LsmStorageState.lookup_run_eq_some_iff
    (LsmStorageState.sorted_run_filter hsorted _)).mp hv'
  rw [List.mem_filter] at hid'
  have hupper : ∀ t' ∈ s.state.tables t.upper_level_sst_ids, t'.Good E := by
    intro t' ht'
    obtain ⟨x, hx, hxt⟩ := List.mem_filterMap.mp ht'
    obtain ⟨t'', ht'', hg⟩ := h.good x (hf.mem_tableIds (List.mem_append_left _ hx))
    rw [hxt] at ht''
    cases ht''
    exact hg
  have hgood : ∀ id ∈ ids, ∃ t', s.state.sstables id = some t' ∧ t'.Good E := fun id hid =>
    h.good id (List.mem_append_right _ (List.mem_flatten.mpr ⟨ids, List.mem_map_of_mem hlevel, hid⟩))
  have hk : (k, v) ∈ s.state.run E t.upper_level_sst_ids :=
    LsmStorageState.mem_run_iff.mpr ⟨id, hid, hmem⟩
  rcases separated_of_not_overlaps hupper hgood hsorted hid'.1 (by simpa using hid'.2) with hsep | hsep
  · exact lt_irrefl k (hsep _ hmem' _ (List.mem_append_left _ hk))
  · exact lt_irrefl k (hsep _ (List.mem_append_left _ hk) _ hmem')

/-- A lookup in the lower level after a compaction. -/
theorem lookup_newLower (h : Inv E s) (hp : Pending E s ts) (hf : t.Fits s.state)
    (hc : (ts.map (SsTable.contents E)).flatten =
      keptEntries t.is_lower_level_bottom_level
        (s.state.merged E (CompactionTask.leveled t).groups))
    (hlevel : (b, ids) ∈ s.state.levels)
    (hlower : t.lower_level_sst_ids = ids.filter (overlaps s.state t.upper_level_sst_ids))
    (k : Bytes) :
    Assoc.lookup k ((withTables s ts).run E (newLower (withTables s ts) t.upper_level_sst_ids ids
        (ts.map SsTable.id))) =
      (Assoc.lookup k (s.state.run E
        (ids.filter fun id => !overlaps s.state t.upper_level_sst_ids id))).or
        (Assoc.lookup k (keptEntries t.is_lower_level_bottom_level
          (s.state.merged E (CompactionTask.leveled t).groups))) := by
  have hids : ∀ id ∈ ids, id ∈ s.state.tableIds := fun id hid => List.mem_append_right _
    (List.mem_flatten.mpr ⟨ids, List.mem_map_of_mem hlevel, hid⟩)
  have hsorted := h.sorted ids (List.mem_append_right _ (List.mem_map_of_mem hlevel))
  -- The tables that stay are the same with the outputs among the open tables.
  have hstay : (ids.filter fun id => !overlaps (withTables s ts) t.upper_level_sst_ids id) =
      ids.filter fun id => !overlaps s.state t.upper_level_sst_ids id := by
    refine List.filter_congr fun id hid => ?_
    rw [overlaps_congr (fun x hx => withTables_of_mem hp
      (hf.mem_tableIds (List.mem_append_left _ hx))) (withTables_of_mem hp (hids id hid))]
  have hrunStay : ∀ id ∈ ids, (withTables s ts).run E [id] = s.state.run E [id] := fun id hid =>
    LsmStorageState.run_congr fun x hx => by
      rw [List.mem_singleton.mp hx, withTables_of_mem hp (hids id hid)]
  have hrunNew : ∀ t' ∈ ts, (withTables s ts).run E [t'.id] = t'.contents E := fun t' ht' =>
    LsmStorageState.run_singleton (withTables_new hp ht')
  have hkept : Assoc.Sorted (keptEntries t.is_lower_level_bottom_level
      (s.state.merged E (CompactionTask.leveled t).groups)) :=
    (Assoc.sorted_overlays _).sublist (sublist_keptEntries _ _)
  apply Option.ext
  intro v
  rw [LsmStorageState.lookup_run_eq_some_iff (sorted_newLower h hp hf hc hlevel hlower),
    Option.or_eq_some_iff, LsmStorageState.lookup_run_eq_some_iff
      (LsmStorageState.sorted_run_filter hsorted _), Assoc.lookup_eq_some_iff hkept, ← hc]
  -- The new level is the outputs and the tables that stay, in the order of their keys.
  have hmem : ∀ id, id ∈ newLower (withTables s ts) t.upper_level_sst_ids ids (ts.map SsTable.id) ↔
      id ∈ ts.map SsTable.id ∨ id ∈ ids.filter fun id => !overlaps s.state t.upper_level_sst_ids id := by
    intro id
    rw [(perm_newLower _ _ _ (ts.map SsTable.id)).2.mem_iff, List.mem_append, hstay]
  constructor
  · rintro ⟨id, hid, hkv⟩
    rcases (hmem id).mp hid with hid | hid
    · -- The output has no key of the tables that stay.
      obtain ⟨t', ht', rfl⟩ := List.mem_map.mp hid
      rw [hrunNew t' ht'] at hkv
      refine .inr ⟨?_, List.mem_flatten.mpr ⟨_, List.mem_map_of_mem ht', hkv⟩⟩
      rw [Option.eq_none_iff_forall_ne_some]
      intro v' hv'
      obtain ⟨id', hid', hkv'⟩ := (LsmStorageState.lookup_run_eq_some_iff
        (LsmStorageState.sorted_run_filter hsorted _)).mp hv'
      rw [List.mem_filter] at hid'
      rcases separated_output h hf hc hlevel hlower hid'.1 (by simpa using hid'.2) with hsep | hsep
      · exact lt_irrefl k (hsep t' ht' _ hkv' _ hkv)
      · exact lt_irrefl k (hsep t' ht' _ hkv _ hkv')
    · exact .inl ⟨id, hid, by rwa [hrunStay id (List.mem_of_mem_filter hid)] at hkv⟩
  · rintro (⟨id, hid, hkv⟩ | ⟨-, hkv⟩)
    · exact ⟨id, (hmem id).mpr (.inr hid), by rwa [hrunStay id (List.mem_of_mem_filter hid)]⟩
    · obtain ⟨l, hl, hkv⟩ := List.mem_flatten.mp hkv
      obtain ⟨t', ht', rfl⟩ := List.mem_map.mp hl
      exact ⟨t'.id, (hmem t'.id).mpr (.inl (List.mem_map_of_mem ht')), by rwa [hrunNew t' ht']⟩

/-- The first value of a key in some tables. -/
noncomputable abbrev tableValue (E : Extern) (st : LsmStorageState) (k : Bytes) (ids : List ℕ) :
    Option Bytes :=
  (ids.map fun id => st.run E [id]).findSome? (Assoc.lookup k)

/-- The first value of a key in some levels. -/
noncomputable abbrev levelValue (E : Extern) (st : LsmStorageState) (k : Bytes)
    (levels : List (ℕ × List ℕ)) :
    Option Bytes :=
  (levels.map fun level => st.run E level.2).findSome? (Assoc.lookup k)

/-- The first value of a key in the memtables. -/
abbrev memtableValue (st : LsmStorageState) (k : Bytes) : Option Bytes :=
  (st.memtables.map MemTable.map).findSome? (Assoc.lookup k)

/-- What is read is what the memtables have, or else the tables of level 0, or else the levels. -/
theorem view_eq_or (E : Extern) (st : LsmStorageState) (k : Bytes) :
    st.view E k = ((memtableValue st k).or ((tableValue E st k st.l0_sstables).or
      (levelValue E st k st.levels))).getD [] := by
  rw [LsmStorageState.view_eq, firstValue, LsmStorageState.groups, List.map_append, List.map_map,
    List.map_map, List.findSome?_append, List.findSome?_append]
  rfl

/-- The first tables are asked first. -/
theorem tableValue_append (st : LsmStorageState) (k : Bytes) (ids ids' : List ℕ) :
    tableValue E st k (ids ++ ids') = (tableValue E st k ids).or (tableValue E st k ids') := by
  rw [tableValue, List.map_append, List.findSome?_append]

/-- The first levels are asked first. -/
theorem levelValue_append (st : LsmStorageState) (k : Bytes) (levels levels' : List (ℕ × List ℕ)) :
    levelValue E st k (levels ++ levels') =
      (levelValue E st k levels).or (levelValue E st k levels') := by
  rw [levelValue, List.map_append, List.findSome?_append]

/-- A level is asked before those behind it. -/
theorem levelValue_cons (st : LsmStorageState) (k : Bytes) (level : ℕ × List ℕ)
    (levels : List (ℕ × List ℕ)) : levelValue E st k (level :: levels) =
      (Assoc.lookup k (st.run E level.2)).or (levelValue E st k levels) := by
  rw [← List.singleton_append, levelValue_append]
  simp [levelValue]

/-- A group of tables that stays holds what it has held. -/
theorem run_applied {old : List ℕ} (h : Inv E s) (hp : Pending E s ts) (ha : Applied s s' old ts)
    {g : List ℕ} (hg : g ∈ s.state.groups) (hg' : g ∈ s'.state.groups) :
    s'.state.run E g = s.state.run E g :=
  ha.run_of_mem hp fun _ hid => ⟨LsmStorageState.mem_tableIds_iff.mpr ⟨g, hg, hid⟩,
    ha.not_mem_old h hp (LsmStorageState.mem_tableIds_iff.mpr ⟨g, hg', hid⟩)⟩

/-- The level-0 tables that stay have the same values. -/
theorem tableValue_applied {old : List ℕ} {k : Bytes} (h : Inv E s) (hp : Pending E s ts)
    (ha : Applied s s' old ts) {l : List ℕ}
    (hl : ∀ id ∈ l, id ∈ s.state.l0_sstables ∧ id ∈ s'.state.l0_sstables) :
    tableValue E s'.state k l = tableValue E s.state k l := by
  have hruns : (l.map fun id => s'.state.run E [id]) = l.map fun id => s.state.run E [id] := by
    refine List.map_congr_left fun id hid => run_applied h hp ha ?_ ?_
    · exact List.mem_append_left _ (List.mem_map.mpr ⟨id, (hl id hid).1, rfl⟩)
    · exact List.mem_append_left _ (List.mem_map.mpr ⟨id, (hl id hid).2, rfl⟩)
  rw [tableValue, tableValue, hruns]

/-- The levels that stay have the same values. -/
theorem levelValue_applied {old : List ℕ} {k : Bytes} (h : Inv E s) (hp : Pending E s ts)
    (ha : Applied s s' old ts) {l : List (ℕ × List ℕ)}
    (hl : ∀ level ∈ l, level ∈ s.state.levels ∧ level ∈ s'.state.levels) :
    levelValue E s'.state k l = levelValue E s.state k l := by
  rw [levelValue, levelValue, List.map_congr_left fun level hlevel => ?_]
  exact run_applied h hp ha (List.mem_append_right _ (List.mem_map_of_mem (hl level hlevel).1))
    (List.mem_append_right _ (List.mem_map_of_mem (hl level hlevel).2))

/-- What a fitting task merges. -/
theorem lookup_merged_leveled (st : LsmStorageState) (t : LeveledCompactionTask) (k : Bytes) :
    Assoc.lookup k (st.merged E (CompactionTask.leveled t).groups) =
      (match t.upper_level with
        | none => tableValue E st k t.upper_level_sst_ids
        | some _ => Assoc.lookup k (st.run E t.upper_level_sst_ids)).or
        (Assoc.lookup k (st.run E t.lower_level_sst_ids)) := by
  rw [LsmStorageState.merged, Assoc.lookup_overlays]
  rcases hul : t.upper_level with _ | i
  · simp [CompactionTask.groups, levelGroups, hul, List.findSome?_append, tableValue,
      Function.comp_def]
  · simp only [CompactionTask.groups, levelGroups, hul, List.map_cons, List.map_nil]
    rw [← List.singleton_append, List.findSome?_append]
    simp

/-- The value of a key after a compaction of level-0 tables is the same, unless a newer value in
them was moved below another one in a level above. -/
theorem applyTrigger_view_l0 (io : ManifestIO M) {o : LeveledCompactionOptions}
    (ho : s.options.compaction_options = .leveled o) (h : Inv E s) (hp : Pending E s ts)
    (hf : t.Fits s.state)
    (hc : (ts.map (SsTable.contents E)).flatten =
      keptEntries t.is_lower_level_bottom_level
        (s.state.merged E (CompactionTask.leveled t).groups))
    {pre post : List (ℕ × List ℕ)} {new : List ℕ}
    (hlev : s.state.levels = pre ++ (b, ids) :: post) (hll : t.lower_level = pre.length + 1)
    (hlower : t.lower_level_sst_ids = ids.filter (overlaps s.state t.upper_level_sst_ids))
    (hpost : t.is_lower_level_bottom_level = true → post = [])
    (hul : t.upper_level = none) (hl0 : s.state.l0_sstables = new ++ t.upper_level_sst_ids)
    (k : Bytes) :
    (s.applyTrigger io (.leveled t) ts).2.state.view E k = s.state.view E k ↔
      ((memtableValue s.state k).or (tableValue E s.state k new) = none →
        ∀ x y, levelValue E s.state k pre = some x →
          tableValue E s.state k t.upper_level_sst_ids = some y → x = y) := by
  have hlevel : (b, ids) ∈ s.state.levels := by simp [hlev]
  have hsorted := h.sorted ids (List.mem_append_right _ (List.mem_map_of_mem hlevel))
  obtain ⟨-, ha, hl0', hlev'⟩ := applyTrigger_l0 io ho h hp hf hlev hll hlower hul hl0
  generalize (s.applyTrigger io (.leveled t) ts).2 = s' at ha hl0' hlev' ⊢
  have hnew : tableValue E s'.state k new = tableValue E s.state k new :=
    tableValue_applied h hp ha fun id hid => ⟨by simp [hl0, hid], by simp [hl0', hid]⟩
  have hmerged : Assoc.Sorted (s.state.merged E (CompactionTask.leveled t).groups) :=
    Assoc.sorted_overlays _
  have hlookup := lookup_newLower h hp hf hc hlevel hlower k
  rw [← run_newLower h hp ha (List.mem_append_right _ (by simp [hlev'])),
    lookup_keptEntries _ hmerged, lookup_merged_leveled, hul, hlower] at hlookup
  have hiff := getD_moved_iff t.is_lower_level_bottom_level
    (Assoc.lookup k (s.state.run E
      (ids.filter fun id => !overlaps s.state t.upper_level_sst_ids id)))
    (a := (memtableValue s.state k).or (tableValue E s.state k new))
    (p := tableValue E s.state k t.upper_level_sst_ids) (u := levelValue E s.state k pre)
    (l := Assoc.lookup k (s.state.run E (ids.filter (overlaps s.state t.upper_level_sst_ids))))
    (q := levelValue E s.state k post) (fun hb => by rw [hpost hb]; rfl) ?_
  · rw [← hiff, view_eq_or, view_eq_or, hl0', hlev', hl0, hlev, tableValue_append, levelValue_append,
      levelValue_append, levelValue_cons, levelValue_cons, hlookup, hnew,
      levelValue_applied h hp ha fun level (hl : level ∈ pre) =>
        ⟨by simp [hlev, hl], by simp [hlev', hl]⟩,
      levelValue_applied h hp ha fun level (hl : level ∈ post) =>
        ⟨by simp [hlev, hl], by simp [hlev', hl]⟩,
      LsmStorageState.lookup_run_split hsorted (overlaps s.state t.upper_level_sst_ids)]
    rw [memtableValue, ha.memtables]
    simp only [Option.or_assoc]
  · intro hsome
    rw [Option.isSome_or, Bool.or_eq_true] at hsome
    rcases hsome with hsome | hsome
    · obtain ⟨v, hv⟩ := Option.isSome_iff_exists.mp hsome
      obtain ⟨l, hl, hv⟩ := List.exists_of_findSome?_eq_some hv
      obtain ⟨id, hid, rfl⟩ := List.mem_map.mp hl
      exact lookup_stay_eq_none h hf hlevel hid (Assoc.mem_of_lookup hv)
    · exact LsmStorageState.lookup_run_filter_not hsorted _ hsome

/-- A compaction of a table of a level keeps every value. -/
theorem applyTrigger_view_level (io : ManifestIO M) {o : LeveledCompactionOptions}
    (ho : s.options.compaction_options = .leveled o) (h : Inv E s) (hp : Pending E s ts)
    (hf : t.Fits s.state)
    (hc : (ts.map (SsTable.contents E)).flatten =
      keptEntries t.is_lower_level_bottom_level
        (s.state.merged E (CompactionTask.leveled t).groups))
    {above post : List (ℕ × List ℕ)} {a x : ℕ} {up : List ℕ}
    (hlev : s.state.levels = above ++ (a, up) :: (b, ids) :: post)
    (hll : t.lower_level = above.length + 2)
    (hlower : t.lower_level_sst_ids = ids.filter (overlaps s.state t.upper_level_sst_ids))
    (hpost : t.is_lower_level_bottom_level = true → post = [])
    (hul : t.upper_level = some (above.length + 1)) (hx : t.upper_level_sst_ids = [x])
    (hxup : x ∈ up) (k : Bytes) :
    (s.applyTrigger io (.leveled t) ts).2.state.view E k = s.state.view E k := by
  have hlevel : (b, ids) ∈ s.state.levels := by simp [hlev]
  have hsorted := h.sorted ids (List.mem_append_right _ (List.mem_map_of_mem hlevel))
  have hup : up ∈ s.state.groups := List.mem_append_right _ (by simp [hlev])
  have hsortedUp := h.sorted up hup
  obtain ⟨-, ha, hl0', hlev'⟩ := applyTrigger_level io ho h hp hf hlev hll hlower hul hx hxup
  generalize (s.applyTrigger io (.leveled t) ts).2 = s' at ha hl0' hlev' ⊢
  have hl0 : tableValue E s'.state k s.state.l0_sstables =
      tableValue E s.state k s.state.l0_sstables :=
    tableValue_applied h hp ha fun id hid => ⟨hid, by rw [hl0']; exact hid⟩
  -- The upper level is the table that moves and the others, which have other keys.
  have hsplit := LsmStorageState.lookup_run_split (k := k) hsortedUp fun id => decide (id = x)
  have hdisj := LsmStorageState.lookup_run_filter_not (k := k) hsortedUp fun id => decide (id = x)
  have hone : up.filter (fun id => decide (id = x)) = [x] := by
    have hnd : up.Nodup := by
      have hall := h.nodup
      rw [← LsmStorageState.flatten_groups, List.nodup_flatten] at hall
      exact hall.1 up hup
    rw [List.filter_eq, List.count_eq_one_of_mem hnd hxup]
    rfl
  have hrest : (up.filter fun id => !decide (id = x)) = up.filter (· ≠ x) := by
    simp
  rw [hone, hrest] at hsplit hdisj
  have hrunUp : s'.state.run E (up.filter (· ≠ x)) = s.state.run E (up.filter (· ≠ x)) :=
    ha.run_of_mem hp fun id hid =>
      ⟨LsmStorageState.mem_tableIds_iff.mpr ⟨up, hup, List.mem_of_mem_filter hid⟩,
        ha.not_mem_old h hp (LsmStorageState.mem_tableIds_iff.mpr
          ⟨_, List.mem_append_right _ (by rw [hlev']; simp), hid⟩)⟩
  have hmerged : Assoc.Sorted (s.state.merged E (CompactionTask.leveled t).groups) :=
    Assoc.sorted_overlays _
  have hlookup := lookup_newLower h hp hf hc hlevel hlower k
  rw [← run_newLower h hp ha (List.mem_append_right _ (by simp [hlev'])),
    lookup_keptEntries _ hmerged, lookup_merged_leveled, hul, hlower] at hlookup
  have hiff := getD_moved_iff t.is_lower_level_bottom_level
    (Assoc.lookup k (s.state.run E
      (ids.filter fun id => !overlaps s.state t.upper_level_sst_ids id)))
    (a := (memtableValue s.state k).or ((tableValue E s.state k s.state.l0_sstables).or
      (levelValue E s.state k above)))
    (p := Assoc.lookup k (s.state.run E t.upper_level_sst_ids))
    (u := Assoc.lookup k (s.state.run E (up.filter (· ≠ x))))
    (l := Assoc.lookup k (s.state.run E (ids.filter (overlaps s.state t.upper_level_sst_ids))))
    (q := levelValue E s.state k post) (fun hb => by rw [hpost hb]; rfl) ?_
  · have heq := hiff.mpr fun _ u p hu hp => by
      rw [hx] at hp
      rw [hdisj (by rw [hp]; rfl)] at hu
      cases hu
    rw [view_eq_or, view_eq_or, hl0', hl0, hlev', hlev, levelValue_append, levelValue_append,
      levelValue_cons, levelValue_cons, levelValue_cons, levelValue_cons, hlookup, hrunUp, hsplit,
      levelValue_applied h hp ha fun level (hl : level ∈ above) =>
        ⟨by simp [hlev, hl], by simp [hlev', hl]⟩,
      levelValue_applied h hp ha fun level (hl : level ∈ post) =>
        ⟨by simp [hlev, hl], by simp [hlev', hl]⟩,
      LsmStorageState.lookup_run_split hsorted (overlaps s.state t.upper_level_sst_ids)]
    rw [memtableValue, ha.memtables, ← hx]
    simpa only [Option.or_assoc] using heq
  · intro hsome
    rw [Option.isSome_or, Bool.or_eq_true] at hsome
    rcases hsome with hsome | hsome
    · obtain ⟨v, hv⟩ := Option.isSome_iff_exists.mp hsome
      obtain ⟨id, hid, hmem⟩ := LsmStorageState.mem_run_iff.mp (Assoc.mem_of_lookup hv)
      exact lookup_stay_eq_none h hf hlevel hid hmem
    · exact LsmStorageState.lookup_run_filter_not hsorted _ hsome

/-- The level-0 tables that a compaction would take have no key with another value in a level above
the base level, unless a memtable has the key. -/
def LevelsAgree (E : Extern) (o : LeveledCompactionOptions) (st : LsmStorageState) : Prop :=
  o.level0_file_num_compaction_trigger ≤ st.l0_sstables.length →
    ∀ k x y, memtableValue st k = none →
      levelValue E st k (st.levels.take (baseLevel o st - 1)) = some x →
      tableValue E st k st.l0_sstables = some y → x = y

/-- The last step of a compaction keeps every value exactly where the levels agree. -/
theorem applyTrigger_view_iff (io : ManifestIO M) {o : LeveledCompactionOptions}
    (ho : s.options.compaction_options = .leveled o) (h : Inv E s) (hp : Pending E s ts)
    (hgen : generateCompactionTask E.rounding o s.state = some t) (hf : t.Fits s.state)
    (hc : (ts.map (SsTable.contents E)).flatten =
      keptEntries t.is_lower_level_bottom_level
        (s.state.merged E (CompactionTask.leveled t).groups)) :
    (∀ k, (s.applyTrigger io (.leveled t) ts).2.state.view E k = s.state.view E k) ↔
      LevelsAgree E o s.state := by
  obtain ⟨pre, b, ids, post, hlev, hll, hlower, hpost, hup⟩ := (show t.Fits s.state from hf)
  rw [generateCompactionTask] at hgen
  split_ifs at hgen with htrigger
  · -- The task takes all level-0 tables to the base level.
    have hul : t.upper_level = none := by
      cases hgen
      rfl
    have hall : t.upper_level_sst_ids = s.state.l0_sstables := by
      cases hgen
      rfl
    have hbase : t.lower_level = baseLevel o s.state := by
      cases hgen
      rfl
    rw [hul] at hup
    obtain ⟨new, hl0⟩ := hup
    have hnew : new = [] := by
      rw [hall] at hl0
      exact List.self_eq_append_left.mp hl0
    subst hnew
    have hpre : s.state.levels.take (baseLevel o s.state - 1) = pre := by
      rw [← hbase, hll, Nat.add_sub_cancel, hlev, List.take_left]
    rw [LevelsAgree, hpre]
    constructor
    · intro hview _ k x y hmem
      have hk := (applyTrigger_view_l0 io ho h hp hf hc hlev hll hlower hpost hul hl0 k).mp (hview k)
      rw [hall] at hk
      exact hk (by rw [hmem]; rfl) x y
    · intro hagree k
      refine (applyTrigger_view_l0 io ho h hp hf hc hlev hll hlower hpost hul hl0 k).mpr ?_
      intro hmem x y
      rw [hall]
      exact hagree htrigger k x y (Option.or_eq_none_iff.mp hmem).1
  · -- The task takes a table of a level to the next one.
    have hul : ∃ i, t.upper_level = some i := by
      split at hgen
      · cases hgen
      · split_ifs at hgen
        split at hgen
        · cases hgen
        · cases hgen
          exact ⟨_, rfl⟩
    obtain ⟨i, hul⟩ := hul
    rw [hul] at hup
    obtain ⟨above, a, up, x, rfl, rfl, hx, hxs⟩ := hup
    rw [List.append_assoc, List.singleton_append] at hlev
    refine iff_of_true (fun k => ?_) fun hle => absurd hle htrigger
    exact applyTrigger_view_level io ho h hp hf hc hlev (by simpa using hll) hlower hpost hul hxs hx k

end LeveledCompactionController

namespace Machine

variable {M : Type} {E : Extern} {io : ManifestIO M} {options : LsmStorageOptions}

/-- The steps of a `trigger_compaction`. -/
def triggerSteps : List (Op Unit) := [.trigger (), .compact (), .apply ()]

/-- With a controller that has levels, the store keeps its invariant in every run. -/
theorem Run.leveling_inv {ops : List (Op Unit)} {c : Machine M Unit}
    (hsize : options.block_size ≤ 65536) (hl : options.compaction_options.Leveling)
    (h : Run E io options (fun _ _ => True) ops c) :
    c.Inv E ∧ c.store.options = options :=
  h.serial.1.inv hsize hl.valid fun c _ hopt hop =>
    ⟨hop.2, fun _ t _ ht => absurd ht
      ((hopt ▸ hl : c.store.options.compaction_options.Leveling).generateTask_ne t)⟩

/-- With the leveled controller, in every run, a `trigger_compaction` keeps what every read returns
exactly where the levels agree. -/
theorem Run.leveled_get_iff {o : LeveledCompactionOptions} {ops : List (Op Unit)}
    {c c' : Machine M Unit} (hsize : options.block_size ≤ 65536)
    (ho : options.compaction_options = .leveled o) (hmax : 1 ≤ o.max_levels)
    (hmul : 1 ≤ o.level_size_multiplier) (h : Run E io options (fun _ _ => True) ops c)
    (h' : Run E io options (fun _ _ => True) (ops ++ triggerSteps) c') :
    (∀ k, c'.store.get E k = c.store.get E k) ↔
      LeveledCompactionController.LevelsAgree E o c.store.state := by
  have hleveling : options.compaction_options.Leveling := by
    rw [ho]
    exact ⟨hmax, hmul⟩
  obtain ⟨hinv, hopt⟩ := h.leveling_inv hsize hleveling
  have hopts : c.store.options.compaction_options = .leveled o := by rw [hopt, ho]
  -- The three steps of the compaction.
  have happ : ops ++ triggerSteps =
      ((ops ++ [.trigger ()]) ++ [.compact ()]) ++ [Op.apply ()] := by simp [triggerSteps]
  rw [happ] at h'
  obtain ⟨c₂, h₂, -, happly, -⟩ := h'.of_concat
  obtain ⟨c₁, h₁, -, hcompact, hsmall⟩ := h₂.of_concat
  obtain ⟨c₀, h₀, -, htrigger, -⟩ := h₁.of_concat
  obtain rfl := h.unique h₀
  obtain ⟨-, task, hgen, rfl⟩ := begin_eq_some htrigger
  obtain ⟨call, hcall, -, rfl⟩ := step_compact hcompact
  simp only [Function.update_self, Option.some.injEq] at hcall
  subst hcall
  obtain ⟨call', ts, hcall', hts, rfl⟩ := step_apply happly
  have hfits := generateTask_fits hinv.shape (by rw [hopt]; exact hleveling.valid)
    (fun t ht => absurd (ht ▸ hgen) ((hopt ▸ hleveling :
      c.store.options.compaction_options.Leveling).generateTask_ne t)) hgen
  obtain ⟨ts', hts', hb⟩ := compact_spec (hfits.inOrder hinv.store) hinv.store.block_size hsmall
  have hcomp : (c.store.compact E task).1.toOption = some ts' := by
    rw [hts']
    rfl
  simp only [compactStep, Function.update_self, hcomp, Option.map_some, Option.some.injEq] at hcall'
  subst hcall'
  cases hts
  rw [hopts] at hfits
  cases task with
  | leveled t =>
    have hgen' : LeveledCompactionController.generateCompactionTask E.rounding o c.store.state =
        some t := by
      simpa [generateTask, CompactionController.generateCompactionTask, hopts] using hgen
    have hinv' := h'.leveling_inv hsize hleveling
    have hinv₂ := hb.wrote.inv hinv.store
    have hp := hb.pending hinv.store ((Assoc.sorted_overlays _).sublist (sublist_keptEntries _ _))
    have hiff := LeveledCompactionController.applyTrigger_view_iff io
      (by rw [hb.wrote.options]; exact hopts) hinv₂ hp (by rw [hb.wrote.state]; exact hgen')
      (by rw [hb.wrote.state]; exact hfits) (by rw [hb.wrote.state]; exact hb.contents)
    rw [hb.wrote.state] at hiff
    rw [← hiff]
    refine forall_congr' fun k => ?_
    rw [get_spec hinv'.1.store.readable, get_spec hinv.store.readable, Except.ok.injEq]
    rfl
  | _ => cases hfits

/-- The last level is emptied by a deletion, so that the base level, which was the first one, is the
last one again. The key that comes in next is not one of the first level. -/
def baseLevelAgrees : List (Op Unit) :=
  [.put [97] [49], .freeze, .flush] ++ triggerSteps ++ [.del [97], .freeze, .flush] ++ triggerSteps ++
    [.put [98] [49], .freeze, .flush] ++ triggerSteps ++ triggerSteps ++
    [.put [99] [50], .freeze, .flush]

/-- The base level is the last one, and the key is not in the first one. -/
theorem Run.leveled_get_first_table :
    ∃ c c' : Machine (List ManifestRecord) Unit,
      Run .lib .list { compaction_options := .leveled ⟨1, 1, 2, 0⟩ } (fun _ _ => True)
        baseLevelAgrees c ∧ c.store.state.levels = [(1, [6]), (2, [])] ∧
      Run .lib .list { compaction_options := .leveled ⟨1, 1, 2, 0⟩ } (fun _ _ => True)
        (baseLevelAgrees ++ triggerSteps) c' ∧ c'.store.state.levels = [(1, [6]), (2, [8])] ∧
      ∀ k, c'.store.get .lib k = c.store.get .lib k := by
  obtain ⟨c, hrun, hc⟩ := exists_run (P := fun _ _ => True)
    (fun c : Machine (List ManifestRecord) Unit =>
      decide (c.store.state.levels = [(1, [6]), (2, [])]) &&
      decide (c.store.state.l0_sstables = [5]) &&
      ((c.store.state.sstables 5).any fun t : SsTable => decide (t.first_key = [99])) &&
      ((c.store.state.sstables 6).any fun t : SsTable => decide (t.last_key = [98])))
    (fun _ _ _ => trivial)
    (show ((Machine.start .list { compaction_options := .leveled ⟨1, 1, 2, 0⟩ }).check .lib .list
      (fun _ _ => true) baseLevelAgrees).any _ = true by decide +kernel)
  obtain ⟨c', hrun', hc'⟩ := exists_run (P := fun _ _ => True)
    (fun c : Machine (List ManifestRecord) Unit =>
      decide (c.store.state.levels = [(1, [6]), (2, [8])])) (fun _ _ _ => trivial)
    (show ((Machine.start .list { compaction_options := .leveled ⟨1, 1, 2, 0⟩ }).check .lib .list
      (fun _ _ => true) (baseLevelAgrees ++ triggerSteps)).any _ = true by decide +kernel)
  simp only [Bool.and_eq_true, decide_eq_true_eq] at hc
  obtain ⟨⟨⟨hlevels, hl0⟩, h5⟩, h6⟩ := hc
  refine ⟨c, c', hrun, hlevels, hrun', of_decide_eq_true hc', (hrun.leveled_get_iff (by decide) rfl
    (by decide) (by decide) hrun').mpr ?_⟩
  obtain ⟨hinv, -⟩ := hrun.leveling_inv (by decide) (by exact ⟨by decide, by decide⟩)
  obtain ⟨t₅, ht₅, hfirst⟩ := (Option.any_eq_true _ _).mp h5
  obtain ⟨t₆, ht₆, hlast⟩ := (Option.any_eq_true _ _).mp h6
  -- The table of level 0 has keys from `[99]` on, that of the first level up to `[98]`.
  intro _ k x y _ hx hy
  rw [hlevels] at hx
  rw [hl0] at hy
  obtain ⟨l, hl, hlookup⟩ := List.exists_of_findSome?_eq_some hx
  obtain ⟨level, hlevel, rfl⟩ := List.mem_map.mp hl
  have hmem := List.mem_of_mem_take hlevel
  simp only [List.mem_cons, List.not_mem_nil, or_false] at hmem
  rcases hmem with rfl | rfl
  · have hgood : ∀ {id : ℕ} {t : SsTable}, id ∈ c.store.state.tableIds →
        c.store.state.sstables id = some t → t.Good .lib := by
      intro id t hid ht
      obtain ⟨t', ht', hgood⟩ := hinv.store.good id hid
      exact Option.some.inj (ht'.symm.trans ht) ▸ hgood
    have hids : c.store.state.tableIds = [5, 6] := by
      rw [LsmStorageState.tableIds, hl0, hlevels]
      rfl
    rw [LsmStorageState.run_singleton ht₆] at hlookup
    simp only [LeveledCompactionController.tableValue, List.map_cons, List.map_nil,
      List.findSome?_cons, List.findSome?_nil, LsmStorageState.run_singleton ht₅] at hy
    have hhigh : k ≤ t₆.last_key :=
      ((hgood (by rw [hids]; decide) ht₆).key_mem_range (Assoc.mem_of_lookup hlookup)).2
    have hlow : t₅.first_key ≤ k := by
      rcases hy₅ : Assoc.lookup k (t₅.contents .lib) with _ | v
      · rw [hy₅] at hy
        cases hy
      · exact ((hgood (by rw [hids]; decide) ht₅).key_mem_range (Assoc.mem_of_lookup hy₅)).1
    have hle := hlow.trans hhigh
    rw [of_decide_eq_true hfirst, of_decide_eq_true hlast] at hle
    exact absurd hle (by decide)
  · cases hlookup

/-- The same, with a key that comes in next and has a value in the first level. -/
def baseLevelMoves : List (Op Unit) :=
  [.put [97] [49], .freeze, .flush] ++ triggerSteps ++ [.del [97], .freeze, .flush] ++ triggerSteps ++
    [.put [98] [49], .freeze, .flush] ++ triggerSteps ++ triggerSteps ++
    [.put [98] [50], .freeze, .flush]

/-- The base level is the last one, and the older value in the first one hides the key. -/
theorem Run.leveled_get_baseLevelMoves :
    ¬ ∀ (ops : List (Op Unit)) (c c' : Machine (List ManifestRecord) Unit),
      Run .lib .list { compaction_options := .leveled ⟨1, 1, 2, 0⟩ } (fun _ _ => True) ops c →
      Run .lib .list { compaction_options := .leveled ⟨1, 1, 2, 0⟩ } (fun _ _ => True)
        (ops ++ triggerSteps) c' →
      ∀ k, c'.store.get .lib k = c.store.get .lib k := by
  intro h
  obtain ⟨c, hrun, hget⟩ := exists_run (P := fun _ _ => True)
    (fun c : Machine (List ManifestRecord) Unit => decide (c.store.get .lib [98] = .ok [50]))
    (fun _ _ _ => trivial)
    (show ((Machine.start .list { compaction_options := .leveled ⟨1, 1, 2, 0⟩ }).check .lib .list
      (fun _ _ => true) baseLevelMoves).any _ = true by decide +kernel)
  obtain ⟨c', hrun', hget'⟩ := exists_run (P := fun _ _ => True)
    (fun c : Machine (List ManifestRecord) Unit => decide (c.store.get .lib [98] = .ok [49]))
    (fun _ _ _ => trivial)
    (show ((Machine.start .list { compaction_options := .leveled ⟨1, 1, 2, 0⟩ }).check .lib .list
      (fun _ _ => true) (baseLevelMoves ++ triggerSteps)).any _ = true by decide +kernel)
  have heq := h _ c c' hrun hrun' [98]
  rw [of_decide_eq_true hget, of_decide_eq_true hget'] at heq
  cases heq

end Machine

end MiniLsm
