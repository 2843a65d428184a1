import MiniLsm.LeveledSpec

/-!
# Tasks

The facts about compactions that hold for every controller. A task fits a state when its controller
finds its tables there (`CompactionTask.Fits`). The tasks that are generated fit
(`generateTask_fits`, `fullTask_fits`), and they keep fitting while memtables are written, frozen,
and flushed. The tables that a compaction has written are pending until they are put into the state,
and that keeps the invariant of the store and, for a sound task, every value (`applyResult_spec`).

The last part is about a fresh store.
-/

namespace MiniLsm

open LsmStorageInner LsmStorageInner.Applied

/-- The last step of a compaction, of either kind. -/
def LsmStorageInner.applyResult {M : Type} (io : ManifestIO M) (s : LsmStorageInner M)
    (task : CompactionTask) (sstables : List SsTable) : LsmStorageInner M :=
  match task with
  | .forceFull t => s.applyFull io t sstables
  | task => (s.applyTrigger io task sstables).2

/-- Applying a result keeps the memtables. -/
theorem CompactionController.applyCompactionResult_memtables {options : CompactionOptions}
    {st st' : LsmStorageState} {task : CompactionTask} {out old : List ℕ} {in_recovery : Bool}
    (h : applyCompactionResult options st task out in_recovery = .ok (st', old)) :
    st'.memtables = st.memtables := by
  have hsimple : ∀ t, (SimpleLeveledCompactionController.applyCompactionResult st t
      out).1.memtables = st.memtables := by
    intro t
    rcases hul : t.upper_level with _ | i <;>
      simp [SimpleLeveledCompactionController.applyCompactionResult, hul, LsmStorageState.memtables]
  have hleveled : ∀ t, (LeveledCompactionController.applyCompactionResult st t out
      in_recovery).1.memtables = st.memtables := by
    intro t
    rcases hul : t.upper_level with _ | i <;>
      simp [LeveledCompactionController.applyCompactionResult, hul, LsmStorageState.memtables]
  unfold applyCompactionResult at h
  split at h
  case h_1 t _ =>
    cases h
    rfl
  case h_2 t _ =>
    rw [Except.ok.injEq] at h
    rw [← hleveled t, h]
  case h_3 t _ =>
    cases h
    rfl
  case h_4 t _ =>
    rw [Except.ok.injEq] at h
    rw [← hsimple t, h]
  all_goals cases h

/-- Applying a result opens no table. -/
theorem CompactionController.applyCompactionResult_sstables {options : CompactionOptions}
    {st st' : LsmStorageState} {task : CompactionTask} {out old : List ℕ} {in_recovery : Bool}
    (h : applyCompactionResult options st task out in_recovery = .ok (st', old)) (id : ℕ)
    (hid : st.sstables id = none) : st'.sstables id = none := by
  unfold applyCompactionResult at h
  split at h
  case h_1 t _ =>
    cases h
    dsimp only
    split_ifs
    · rfl
    · exact hid
  case h_2 t _ =>
    rw [Except.ok.injEq] at h
    obtain rfl := (congrArg Prod.fst h).symm
    rcases hul : t.upper_level with _ | i <;>
      simpa [LeveledCompactionController.applyCompactionResult, hul] using hid
  case h_3 t _ =>
    cases h
    exact hid
  case h_4 t _ =>
    rw [Except.ok.injEq] at h
    obtain rfl := (congrArg Prod.fst h).symm
    rcases hul : t.upper_level with _ | i <;>
      simpa [SimpleLeveledCompactionController.applyCompactionResult, hul] using hid
  all_goals cases h

namespace LsmStorageInner

variable {M : Type}

/-! ## What steps leave as it is -/

/-- A write changes no option. -/
theorem put_options (E : Extern) (io : ManifestIO M) (s : LsmStorageInner M) (key value : Bytes) :
    (s.put E io key value).options = s.options := by
  rcases put_eq E io s key value with heq | heq
  · rw [heq]
    rfl
  · rw [heq, forceFreezeMemtable_options]
    rfl

/-- A flush changes no option. -/
theorem flush_options (E : Extern) (io : ManifestIO M) (s : LsmStorageInner M) :
    (s.forceFlushNextImmMemtable E io).2.options = s.options := by
  rcases List.eq_nil_or_concat' s.state.imm_memtables with himm | ⟨imm, m, himm⟩
  · rw [flush_of_imm_nil E io himm]
  · rw [flush_of_imm_concat E io himm, build]
    rcases SsTable.open E m.id _ with e | t
    · rfl
    · rw [Outcome.bind_ok, addRecord_options]
      rfl

/-- The end of a compaction keeps the memtables, and it may only remove table files. -/
theorem applyResult_frame (io : ManifestIO M) (s : LsmStorageInner M) (task : CompactionTask)
    (ts : List SsTable) :
    (s.applyResult io task ts).options = s.options ∧
      (s.applyResult io task ts).next_sst_id = s.next_sst_id ∧
      (s.applyResult io task ts).state.memtables = s.state.memtables ∧
      ∀ id, (s.applyResult io task ts).disk.ssts id = none ∨
        (s.applyResult io task ts).disk.ssts id = s.disk.ssts id := by
  have hremove : ∀ (s' : LsmStorageInner M) (ids : List ℕ), s'.disk.ssts = s.disk.ssts →
      ∀ id, (s'.removeSsts ids).disk.ssts id = none ∨
        (s'.removeSsts ids).disk.ssts id = s.disk.ssts id := by
    intro s' ids hs' id
    simp only [removeSsts, hs']
    split_ifs <;> simp
  have htrigger : ∀ task, (s.applyTrigger io task ts).2.options = s.options ∧
      (s.applyTrigger io task ts).2.next_sst_id = s.next_sst_id ∧
      (s.applyTrigger io task ts).2.state.memtables = s.state.memtables ∧
      ∀ id, (s.applyTrigger io task ts).2.disk.ssts id = none ∨
        (s.applyTrigger io task ts).2.disk.ssts id = s.disk.ssts id := by
    intro task
    have hmem : ∀ st old, CompactionController.applyCompactionResult s.options.compaction_options
        { s.state with sstables := addTables s.state.sstables ts } task (ts.map SsTable.id) false =
          .ok (st, old) → st.memtables = s.state.memtables := by
      intro st old h
      have hst := CompactionController.applyCompactionResult_memtables h
      exact hst
    rw [applyTrigger]
    dsimp only
    generalize CompactionController.applyCompactionResult s.options.compaction_options
      { s.state with sstables := addTables s.state.sstables ts } task (ts.map SsTable.id) false = r
      at hmem
    rcases r with e | ⟨st, old⟩
    · exact ⟨rfl, rfl, rfl, fun _ => .inr rfl⟩
    · rw [Outcome.bind_ok]
      refine ⟨by simp [removeSsts], by simp [removeSsts], ?_, fun id => hremove _ _ (by simp) id⟩
      simp only [removeSsts, addRecord_state]
      exact hmem st old rfl
  cases task with
  | forceFull t =>
    refine ⟨by simp [applyResult, applyFull, removeSsts], by simp [applyResult, applyFull, removeSsts],
      ?_, fun id => hremove _ _ (by simp) id⟩
    simp [applyResult, applyFull, removeSsts, LsmStorageState.memtables]
  | leveled t => exact htrigger _
  | tiered t => exact htrigger _
  | simple t => exact htrigger _

end LsmStorageInner

/-! ## Fitting tasks -/

/-- The task is one of the controller, and it fits the state. -/
def CompactionTask.Fits (E : Extern) (options : CompactionOptions) (task : CompactionTask)
    (st : LsmStorageState) : Prop :=
  match options, task with
  | .noCompaction, .forceFull t => t.Fits st
  | .simple _, .simple t => t.Fits st
  | .tiered _, .tiered t => t.Fits E st
  | .leveled _, .leveled t => t.Fits st
  | _, _ => False

/-- The task changes no value: a tiered one that drops deleted keys has the oldest tiers. The
leveled ones are treated on their own. -/
def CompactionTask.Sound (task : CompactionTask) (st : LsmStorageState) : Prop :=
  match task with
  | .tiered t => t.Sound st
  | .leveled _ => False
  | _ => True

/-- The tables of the levels or tiers are those that the options ask for. -/
def LsmStorageInner.Shape {M : Type} (s : LsmStorageInner M) : Prop :=
  match s.options.compaction_options with
  | .noCompaction => s.state.levels.length = 1
  | .simple o => s.state.levels.length = o.max_levels
  | .leveled o => 1 ≤ o.max_levels ∧ s.state.levels.length = o.max_levels
  | .tiered _ => (s.state.levels.map Prod.fst).Nodup ∧
      (∀ tier ∈ s.state.levels, (tier.2 = [] ∧ tier.1 = 0) ∨ tier.1 ∈ tier.2) ∧
      (s.state.levels ≠ [] → ∀ m ∈ s.state.memtables, m.id ≠ 0)

namespace CompactionTask

variable {M : Type} {E : Extern} {options : CompactionOptions} {task : CompactionTask}

/-- Except with the leveled controller, the groups of a fitting task are groups of the state. -/
theorem Fits.groups_subset {st : LsmStorageState} (hf : task.Fits E options st)
    (hno : ∀ t, task ≠ .leveled t) : ∀ g ∈ task.groups, g ∈ st.groups := by
  intro g hg
  rw [LsmStorageState.groups, List.mem_append, List.mem_map, List.mem_map]
  unfold CompactionTask.Fits at hf
  split at hf
  case h_1 t =>
    obtain ⟨new, a, hl0, hlev⟩ := hf
    simp only [groups, List.mem_append, List.mem_map, List.mem_singleton] at hg
    rcases hg with ⟨id, hid, rfl⟩ | rfl
    · exact .inl ⟨id, by simp [hl0, hid], rfl⟩
    · exact .inr ⟨(a, t.l1_sstables), by simp [hlev], rfl⟩
  case h_2 _ t =>
    rcases hul : t.upper_level with _ | i
    · simp only [SimpleLeveledCompactionTask.Fits, hul] at hf
      obtain ⟨new, a, post, hl0, hlev, -⟩ := hf
      simp only [groups, levelGroups, hul, List.mem_append, List.mem_map, List.mem_singleton] at hg
      rcases hg with ⟨id, hid, rfl⟩ | rfl
      · exact .inl ⟨id, by simp [hl0, hid], rfl⟩
      · exact .inr ⟨(a, t.lower_level_sst_ids), by simp [hlev], rfl⟩
    · simp only [SimpleLeveledCompactionTask.Fits, hul] at hf
      obtain ⟨pre, a, b, post, -, -, hlev, -⟩ := hf
      simp only [groups, levelGroups, hul, List.mem_cons, List.not_mem_nil, or_false] at hg
      rcases hg with rfl | rfl
      · exact .inr ⟨(a, t.upper_level_sst_ids), by simp [hlev], rfl⟩
      · exact .inr ⟨(b, t.lower_level_sst_ids), by simp [hlev], rfl⟩
  case h_3 _ t =>
    obtain ⟨-, new, rest, hlev, -⟩ := hf
    obtain ⟨tier, ht, rfl⟩ := List.mem_map.mp hg
    exact .inr ⟨tier, by simp [hlev, ht], rfl⟩
  case h_4 _ t => exact absurd rfl (hno t)
  case h_5 => exact hf.elim

/-- The tables of a fitting task are tables of the state. -/
theorem Fits.mem_tableIds {st : LsmStorageState} (hf : task.Fits E options st) {id : ℕ}
    (hid : id ∈ task.groups.flatten) : id ∈ st.tableIds := by
  by_cases hno : ∀ t, task ≠ .leveled t
  · obtain ⟨g, hg, hid⟩ := List.mem_flatten.mp hid
    exact LsmStorageState.mem_tableIds_iff.mpr ⟨g, hf.groups_subset hno g hg, hid⟩
  · push Not at hno
    obtain ⟨t, rfl⟩ := hno
    rw [LeveledCompactionTask.Fits.flatten_groups] at hid
    match options, hf with
    | .leveled _, hf => exact LeveledCompactionTask.Fits.mem_tableIds (show t.Fits st from hf) hid

/-- The groups of a fitting task are in order. -/
theorem Fits.inOrder {s : LsmStorageInner M} (h : Inv E s) (hf : task.Fits E options s.state) :
    ∀ g ∈ task.groups, InOrder E s.state g := by
  by_cases hno : ∀ t, task ≠ .leveled t
  · exact fun g hg => h.inOrder (hf.groups_subset hno g hg)
  · push Not at hno
    obtain ⟨t, rfl⟩ := hno
    match options, hf with
    | .leveled _, hf => exact LeveledCompactionTask.Fits.inOrder h (show t.Fits s.state from hf)

/-- A task keeps fitting while the tables stay the same. -/
theorem Fits.of_sameTables {s s' : LsmStorageInner M} (hst : Inv.SameTables s s')
    (hf : task.Fits E options s.state) : task.Fits E options s'.state := by
  match options, task, hf with
  | .noCompaction, .forceFull t, ⟨new, a, hl0, hlev⟩ =>
    exact ⟨new, a, by rw [hst.l0_sstables, hl0], by rw [hst.levels, hlev]⟩
  | .simple _, .simple t, hf =>
    change t.Fits s.state at hf
    change t.Fits s'.state
    unfold SimpleLeveledCompactionTask.Fits at hf ⊢
    rw [hst.l0_sstables, hst.levels]
    exact hf
  | .tiered _, .tiered t, ⟨hne, new, rest, hlev, hnew, hrest⟩ =>
    refine ⟨hne, new, rest, by rw [hst.levels, hlev], hnew, fun hb => ?_⟩
    simp only [hst.run]
    exact hrest hb
  | .leveled _, .leveled t, hf =>
    exact LeveledCompactionTask.Fits.congr (show t.Fits s.state from hf) []
      hst.l0_sstables hst.levels fun id _ => by rw [hst.sstables]

/-- A flush keeps a task fitting. -/
theorem Fits.flushed {s s' : LsmStorageInner M} {m : MemTable} {t : SsTable} (h : Inv E s)
    (hshape : s.Shape) (hfl : Flushed E s s' m t)
    (hf : task.Fits E s.options.compaction_options s.state) :
    task.Fits E s.options.compaction_options s'.state := by
  have hids : ∀ id ∈ task.groups.flatten, id ∈ s.state.tableIds := fun _ hid => hf.mem_tableIds hid
  rcases ho : s.options.compaction_options with o | o | o | _
  · rw [ho] at hf
    match task, hf with
    | .leveled t, hf =>
      -- A flush adds a table in front of level 0, where the task does not look.
      refine LeveledCompactionTask.Fits.congr (show t.Fits s.state from hf) [m.id] ?_ ?_
        fun id hid => hfl.sstables_of_mem h hid
      · rw [hfl.l0_sstables, ho]
        rfl
      · rw [hfl.levels, ho]
        rfl
  · rw [ho] at hf
    match task, hf with
    | .tiered t, ⟨hne, new, rest, hlev, hnew, hrest⟩ =>
      -- The new tier is in front of the others, with an identifier of its own.
      have hne' : s.state.levels ≠ [] := by simp [hlev, hne]
      simp only [Shape, ho] at hshape
      refine ⟨hne, (m.id, [m.id]) :: new, rest, ?_, ?_, fun hb => ?_⟩
      · rw [hfl.levels, ho, hlev]
        rfl
      · rw [List.forall_mem_cons]
        exact ⟨hshape.2.2 hne' m hfl.mem_memtables, hnew⟩
      · have hruns : (t.tiers.map fun tier => s'.state.run E tier.2) =
            t.tiers.map fun tier => s.state.run E tier.2 :=
          List.map_congr_left fun tier ht => hfl.run_of_mem h fun id hid =>
            hids id (List.mem_flatten.mpr ⟨tier.2, List.mem_map_of_mem ht, hid⟩)
        rw [hruns]
        exact hrest hb
  · rw [ho] at hf
    match task, hf with
    | .simple t, hf =>
      change t.Fits s.state at hf
      change t.Fits s'.state
      have hlev' : s'.state.levels = s.state.levels := by
        rw [hfl.levels, ho]
        rfl
      have hl0' : s'.state.l0_sstables = m.id :: s.state.l0_sstables := by
        rw [hfl.l0_sstables, ho]
        rfl
      unfold SimpleLeveledCompactionTask.Fits at hf ⊢
      rw [hlev', hl0']
      rcases hul : t.upper_level with _ | i
      · rw [hul] at hf
        obtain ⟨new, a, post, hl0, hrest⟩ := hf
        exact ⟨m.id :: new, a, post, by rw [hl0]; rfl, hrest⟩
      · rw [hul] at hf
        exact hf
  · rw [ho] at hf
    match task, hf with
    | .forceFull t, ⟨new, a, hl0, hlev⟩ =>
      refine ⟨m.id :: new, a, ?_, ?_⟩
      · rw [hfl.l0_sstables, ho, hl0]
        rfl
      · rw [hfl.levels, ho, hlev]
        rfl

end CompactionTask

namespace LsmStorageInner

variable {M : Type} {E : Extern} {s s' : LsmStorageInner M}

/-- The shape of the levels while the tables stay the same. -/
theorem Shape.of_sameTables (hst : Inv.SameTables s s') (h : s.Shape)
    (hmem : ∀ m' ∈ s'.state.memtables, m'.id ≠ 0 ∨ ∃ m ∈ s.state.memtables, m.id = m'.id) :
    s'.Shape := by
  unfold Shape at h ⊢
  rw [hst.options, hst.levels]
  split at h
  · exact h
  · exact h
  · exact h
  · refine ⟨h.1, h.2.1, fun hne m' hm' => ?_⟩
    rcases hmem m' hm' with hm' | ⟨m, hm, heq⟩
    · exact hm'
    · rw [← heq]
      exact h.2.2 hne m hm

/-- The shape of the levels after a flush. -/
theorem Shape.flushed {m : MemTable} {t : SsTable} (hinv : Inv E s) (h : s.Shape)
    (hfl : Flushed E s s' m t) : s'.Shape := by
  unfold Shape at h ⊢
  rw [hfl.options, hfl.levels]
  split at h
  case h_1 ho => simpa [ho, CompactionController.flushToL0] using h
  case h_2 ho => simpa [ho, CompactionController.flushToL0] using h
  case h_3 ho => simpa [ho, CompactionController.flushToL0] using h
  case h_4 ho =>
    rw [if_neg (by simp [ho, CompactionController.flushToL0])]
    obtain ⟨hnd, hid, hzero⟩ := h
    refine ⟨?_, ?_, fun _ m' hm' => ?_⟩
    · rw [List.map_cons, List.nodup_cons]
      refine ⟨fun hmem => ?_, hnd⟩
      obtain ⟨tier, ht, heq⟩ := List.mem_map.mp hmem
      dsimp only at heq
      rcases hid tier ht with ⟨-, h0⟩ | hin
      · exact hzero (List.ne_nil_of_mem ht) m hfl.mem_memtables (heq.symm.trans h0)
      · refine hinv.mem_ids_disjoint m hfl.mem_memtables (List.mem_append_right _ ?_)
        exact List.mem_flatten.mpr ⟨tier.2, List.mem_map_of_mem ht, by rw [← heq]; exact hin⟩
    · rw [List.forall_mem_cons]
      exact ⟨.inr (by simp), hid⟩
    · -- The other memtables are newer.
      have hids := hinv.mem_ids
      rw [hfl.memtables, List.map_append, List.pairwise_append] at hids
      have := hids.2.2 m'.id (List.mem_map_of_mem hm') m.id (by simp)
      omega

/-! ## The end of a compaction -/

/-- The groups of two states with the same lists of tables. -/
theorem groups_congr {st st' : LsmStorageState} (hl0 : st'.l0_sstables = st.l0_sstables)
    (hlev : st'.levels = st.levels) : st'.groups = st.groups := by
  rw [LsmStorageState.groups, LsmStorageState.groups, hl0, hlev]

/-- The tiers after a compaction have distinct identifiers. -/
theorem Shape.tiers_applied {ts : List SsTable} (h : Inv E s)
    {o : TieredCompactionOptions} (ho : s.options.compaction_options = .tiered o) (hsh : s.Shape)
    {t : TieredCompactionTask} (hp : Pending E s ts)
    (hc : (ts.map (SsTable.contents E)).flatten =
      keptEntries t.bottom_tier_included (s.state.merged E (CompactionTask.tiered t).groups))
    {new rest : List (ℕ × List ℕ)} (hne : t.tiers ≠ [])
    (hlev : s.state.levels = new ++ (t.tiers ++ rest)) (hnew : ∀ p ∈ new, p.1 ≠ 0)
    (hrest : t.bottom_tier_included = true → (∀ p ∈ rest, p.1 ≠ 0) ∨
      ∃ k, firstValue (t.tiers.map fun tier => s.state.run E tier.2) k ≠ [])
    (ha : Applied s s' (CompactionTask.tiered t).groups.flatten ts)
    (hlev' : s'.state.levels =
      new ++ ((ts.map SsTable.id).head?.getD 0, ts.map SsTable.id) :: rest) : s'.Shape := by
  simp only [Shape, ho] at hsh
  obtain ⟨hnd, hid, hzero⟩ := hsh
  simp only [Shape, ha.options, ho, ha.memtables]
  have hnd' := hnd
  rw [hlev, List.map_append, List.map_append, List.nodup_append, List.nodup_append] at hnd'
  have hstay : ∀ p ∈ new ++ rest, p ∈ s.state.levels := by
    intro p hp'
    rw [hlev]
    rcases List.mem_append.mp hp' with hp' | hp' <;> simp [hp']
  -- With an empty output, no tier that stays has the identifier zero.
  have hempty : ts = [] → ∀ p ∈ new ++ rest, p.1 ≠ 0 := by
    rintro rfl p hp'
    rcases List.mem_append.mp hp' with hp' | hp'
    · exact hnew p hp'
    by_cases hb : t.bottom_tier_included = true
    · rcases hrest hb with hr | ⟨k, hk⟩
      · exact hr p hp'
      · refine absurd (firstValue_of_keptEntries_nil t.bottom_tier_included ?_ k) hk
        rw [LsmStorageState.merged, CompactionTask.groups, List.map_map] at hc
        exact hc.symm
    · -- The tiers of the task have no entries, so that one of them has the identifier zero.
      obtain ⟨tier, tiers, htiers⟩ := List.exists_cons_of_ne_nil hne
      have hfiles : tier.2 = [] := by
        by_contra hfiles
        obtain ⟨id, hidm⟩ := List.exists_mem_of_ne_nil _ hfiles
        have hmem : id ∈ s.state.tableIds := List.mem_append_right _
          (List.mem_flatten.mpr ⟨tier.2, List.mem_map_of_mem (by simp [hlev, htiers]), hidm⟩)
        obtain ⟨tb, htb, hg⟩ := h.good id hmem
        obtain ⟨e, he, -⟩ := hg.exists_first
        have herun : e ∈ s.state.run E tier.2 :=
          LsmStorageState.mem_run_iff.mpr ⟨id, hidm, by rwa [LsmStorageState.run_singleton htb]⟩
        rw [keptEntries, if_neg hb] at hc
        rw [eq_nil_of_overlays_nil hc.symm (List.mem_map_of_mem (List.mem_map_of_mem
          (show tier ∈ t.tiers by simp [htiers])))] at herun
        cases herun
      have h0 : tier.1 = 0 := by
        rcases hid tier (by simp [hlev, htiers]) with ⟨-, h0⟩ | hin
        · exact h0
        · rw [hfiles] at hin
          cases hin
      intro hp0
      exact hnd'.2.1.2.2 tier.1 (by simp [htiers]) p.1 (List.mem_map_of_mem hp') (h0.trans hp0.symm)
  -- The new identifier is not one of a tier that stays.
  have hfresh : ∀ p ∈ new ++ rest, p.1 ≠ (ts.map SsTable.id).head?.getD 0 := by
    intro p hp'
    rcases ts with _ | ⟨tb, ts⟩
    · exact hempty rfl p hp'
    · intro heq
      simp only [List.map_cons, List.head?_cons, Option.getD_some] at heq
      rcases hid p (hstay p hp') with ⟨-, h0⟩ | hin
      · exact hp.ne_zero tb (by simp) (heq.symm.trans h0)
      · refine hp.not_mem tb (by simp) (List.mem_append_right _ ?_)
        exact List.mem_flatten.mpr ⟨p.2, List.mem_map_of_mem (hstay p hp'), by rw [← heq]; exact hin⟩
  refine ⟨?_, ?_, ?_⟩
  · rw [hlev', List.map_append, List.map_cons, List.nodup_append, List.nodup_cons]
    refine ⟨hnd'.1, ⟨?_, hnd'.2.1.2.1⟩, ?_⟩
    · intro hmem
      obtain ⟨p, hp', heq⟩ := List.mem_map.mp hmem
      exact hfresh p (List.mem_append_right _ hp') heq
    · rintro x hx y hy rfl
      obtain ⟨p, hp', rfl⟩ := List.mem_map.mp hx
      rcases List.mem_cons.mp hy with hy | hy
      · exact hfresh p (List.mem_append_left _ hp') hy
      · exact hnd'.2.2 p.1 (List.mem_map_of_mem hp') p.1 (List.mem_append_right _ hy) rfl
  · intro tier ht
    rw [hlev', List.mem_append, List.mem_cons] at ht
    rcases ht with ht | rfl | ht
    · exact hid tier (hstay tier (List.mem_append_left _ ht))
    · rcases ts with _ | ⟨tb, ts⟩
      · exact .inl ⟨rfl, rfl⟩
      · exact .inr (by simp)
    · exact hid tier (hstay tier (List.mem_append_right _ ht))
  · intro _
    exact hzero (by simp [hlev, hne])

/-- What the end of a compaction leaves: the new tables in the place of those of the task, the
levels in order, and, for a sound task, every value as it was. -/
theorem applyResult_spec (io : ManifestIO M) (h : Inv E s) (hsh : s.Shape) {task : CompactionTask}
    {ts : List SsTable} (hp : Pending E s ts)
    (hf : task.Fits E s.options.compaction_options s.state)
    (hc : (ts.map (SsTable.contents E)).flatten =
      keptEntries task.compactToBottomLevel (s.state.merged E task.groups)) :
    Applied s (s.applyResult io task ts) task.groups.flatten ts ∧
      Inv E (s.applyResult io task ts) ∧ (s.applyResult io task ts).Shape ∧
      (task.Sound s.state → ∀ k, (s.applyResult io task ts).state.view E k = s.state.view E k) := by
  rcases ho : s.options.compaction_options with o | o | o | _
  · rw [ho] at hf
    match task, hf with
    | .leveled t, hf =>
      -- A leveled task is not sound, so that only the invariant is to be shown.
      obtain ⟨-, ha, hlen, hsorted⟩ := LeveledCompactionController.applyTrigger_spec io ho h hp hf hc
      refine ⟨ha, ha.inv h hp hsorted (by simp [ho, CompactionController.flushToL0]), ?_,
        fun hs => absurd hs id⟩
      change (s.applyTrigger io (.leveled t) ts).2.Shape
      simp only [Shape, ho] at hsh
      simp only [Shape, ha.options, ho, hlen]
      exact hsh
  · rw [ho] at hf
    match task, hf with
    | .tiered t, ⟨hne, new, rest, hlev, hnew, hrest⟩ =>
      -- The tiers have different identifiers, so that those of the task are one segment of them.
      have hnd : (s.state.levels.map Prod.fst).Nodup := by
        simp only [Shape, ho] at hsh
        exact hsh.1
      have hl0 := h.tiers (by rw [ho]; rfl)
      obtain ⟨-, ha, hl0', hlev'⟩ := TieredCompactionController.applyTrigger_spec io ho h ts
        hne hlev hnd
      have hseg := TieredCompactionController.segment_of_levels false hlev hl0 hlev' hl0'
        (by simp)
      refine ⟨ha, ha.inv h hp (ha.segment_sorted h hp hseg) fun _ => hl0',
        Shape.tiers_applied h ho hsh hp hc hne hlev hnew hrest ha hlev', fun hs => ?_⟩
      by_cases hb : t.bottom_tier_included = true
      · -- The tiers of the task are the oldest ones, so that nothing is behind them.
        obtain ⟨new', hlev₁⟩ := hs hb
        have hlev₁' : s.state.levels = new' ++ (t.tiers ++ []) := by rw [hlev₁, List.append_nil]
        obtain ⟨-, ha, hl0', hlev'⟩ := TieredCompactionController.applyTrigger_spec io ho h ts
          hne hlev₁' hnd
        exact ha.segment_view h hp hc (TieredCompactionController.segment_of_levels _ hlev₁' hl0 hlev'
          hl0' fun _ => rfl)
      · exact ha.segment_view h hp hc (TieredCompactionController.segment_of_levels _ hlev hl0 hlev' hl0'
          fun hb' => absurd hb' hb)
  · rw [ho] at hf
    match task, hf with
    | .simple t, hf =>
      obtain ⟨-, ha, hseg, hlen⟩ := SimpleLeveledCompactionController.applyTrigger_spec io ho h
        ts hf
      refine ⟨ha, ha.inv h hp (ha.segment_sorted h hp hseg)
        (by simp [ho, CompactionController.flushToL0]), ?_, fun _ => ha.segment_view h hp hc hseg⟩
      change (s.applyTrigger io (.simple t) ts).2.Shape
      simp only [Shape, ho] at hsh
      simp only [Shape, ha.options, ho, hlen]
      exact hsh
  · rw [ho] at hf
    match task, hf with
    | .forceFull t, hf =>
      obtain ⟨ha, hl0', hlev'⟩ := applyFull_applied io h hp hf
      have hseg := (CompactionController.applyForceFull_segment hf h.nodup
        (ts.map SsTable.id)).congr rfl (groups_congr hl0' hlev')
      refine ⟨ha, ha.inv h hp (ha.segment_sorted h hp hseg)
        (by simp [ho, CompactionController.flushToL0]), ?_, fun _ => ha.segment_view h hp hc hseg⟩
      obtain ⟨new, a, -, hlev⟩ := hf
      change (s.applyFull io t ts).Shape
      simp only [Shape, ha.options, ho, hlev', CompactionController.applyForceFull, hlev]
      simp [setLevel]

end LsmStorageInner

/-! ## Pending tables -/

namespace LsmStorageInner

variable {M : Type} {E : Extern} {s s' : LsmStorageInner M}

/-- A call that has written its files has not changed the tables of the state. -/
theorem Wrote.sameTables (h : Wrote s s') : Inv.SameTables s s' :=
  ⟨h.options, by rw [h.state], by rw [h.state], by rw [h.state], h.ssts, h.next_le⟩

/-- The memtables of the second store are those of the first, by their identifiers, or newer. -/
def MemtablesFrom (s s' : LsmStorageInner M) : Prop :=
  ∀ m' ∈ s'.state.memtables, s.next_sst_id ≤ m'.id ∨ ∃ m ∈ s.state.memtables, m.id = m'.id

/-- A write adds no memtable. -/
theorem memtablesFrom_write (s : LsmStorageInner M) (key value : Bytes) :
    MemtablesFrom s (s.write E key value) := by
  intro m' hm'
  rcases List.mem_cons.mp hm' with rfl | hm'
  · exact .inr ⟨s.state.memtable, List.mem_cons_self, rfl⟩
  · exact .inr ⟨m', List.mem_cons_of_mem _ hm', rfl⟩

/-- A freeze adds one, under the next identifier. -/
theorem memtablesFrom_freeze (io : ManifestIO M) (s : LsmStorageInner M) :
    MemtablesFrom s (s.forceFreezeMemtable io) := by
  intro m' hm'
  rw [forceFreezeMemtable_state] at hm'
  rcases List.mem_cons.mp hm' with rfl | hm'
  · exact .inl (by simp)
  · exact .inr ⟨m', hm', rfl⟩

/-- Nor does a call that writes files. -/
theorem Wrote.memtablesFrom (h : Wrote s s') : MemtablesFrom s s' := by
  intro m' hm'
  rw [h.state] at hm'
  exact .inr ⟨m', hm', rfl⟩

/-- The writing of new table files keeps the invariant. -/
theorem Wrote.inv (h : Inv E s) (hw : Wrote s s') : Inv E s' := by
  refine h.of_sameTables hw.sameTables ?_ ?_ ?_ ?_ ?_ ?_
  · rw [hw.state]; exact h.mem_sorted
  · rw [hw.state]; exact h.mem_storable
  · rw [hw.state]; exact h.imm_ne_nil
  · rw [hw.state]; exact h.mem_ids
  · rw [hw.state]; exact h.mem_ids_disjoint
  · rw [hw.state]; exact fun m hm => (h.mem_ids_lt m hm).trans_le hw.next_le

/-- Tables that are pending stay so while the tables of the store stay the same. -/
theorem Pending.of_sameTables {ts : List SsTable} (hst : Inv.SameTables s s')
    (hmem : MemtablesFrom s s') (hp : Pending E s ts) : Pending E s' ts where
  nodup := hp.nodup
  ne_zero := hp.ne_zero
  good := hp.good
  lt_next := fun t ht => (hp.lt_next t ht).trans_le hst.next_le
  not_mem := by rw [hst.tableIds]; exact hp.not_mem
  not_mem_memtables := by
    intro t ht m' hm' heq
    rcases hmem m' hm' with hlt | ⟨m, hm, hid⟩
    · have := hp.lt_next t ht
      omega
    · exact hp.not_mem_memtables t ht m hm (hid.trans heq)
  stores := by
    intro t ht
    obtain ⟨b, hb, ho⟩ := hp.stores t ht
    exact ⟨b, by rw [hst.ssts _ (hp.lt_next t ht), hb], ho⟩
  sorted := hp.sorted

/-- Tables that are pending stay so when a memtable is flushed. -/
theorem Pending.flushed {ts : List SsTable} {m : MemTable} {t : SsTable} (h : Inv E s)
    (hfl : Flushed E s s' m t) (hp : Pending E s ts) : Pending E s' ts where
  nodup := hp.nodup
  ne_zero := hp.ne_zero
  good := hp.good
  lt_next := by rw [hfl.next_sst_id]; exact hp.lt_next
  not_mem := by
    intro t' ht' hmem
    rcases (hfl.mem_tableIds h).mp hmem with heq | hmem
    · exact hp.not_mem_memtables t' ht' m hfl.mem_memtables heq.symm
    · exact hp.not_mem t' ht' hmem
  not_mem_memtables := by
    intro t' ht' m' hm'
    exact hp.not_mem_memtables t' ht' m' (by rw [hfl.memtables]; exact List.mem_append_left _ hm')
  stores := by
    intro t' ht'
    obtain ⟨b, hb, ho⟩ := hp.stores t' ht'
    have hne : t'.id ≠ m.id := fun heq =>
      hp.not_mem_memtables t' ht' m hfl.mem_memtables heq.symm
    exact ⟨b, by rw [hfl.ssts _ hne, hb], ho⟩
  sorted := hp.sorted

/-- The tables that a compaction has written are pending. -/
theorem Built.pending {ts : List SsTable} {es : List (Bytes × Bytes)} (h : Inv E s)
    (hb : Built E s s' ts es) (hes : Assoc.Sorted es) : Pending E s' ts := by
  have hid : ∀ t ∈ ts, s.next_sst_id ≤ t.id ∧ t.id < s.next_sst_id + ts.length := by
    intro t ht
    have := List.mem_map_of_mem (f := SsTable.id) ht
    rwa [hb.ids, List.mem_range'_1] at this
  constructor
  case nodup =>
    rw [hb.ids]
    exact List.nodup_range'
  case ne_zero =>
    intro t ht
    have := (hid t ht).1
    have := h.next_pos
    omega
  case good => exact hb.good
  case lt_next =>
    intro t ht
    rw [hb.next_eq]
    exact (hid t ht).2
  case not_mem =>
    intro t ht hmem
    rw [hb.wrote.state] at hmem
    exact absurd (h.ids_lt _ hmem) (hid t ht).1.not_gt
  case not_mem_memtables =>
    intro t ht m hm heq
    rw [hb.wrote.state] at hm
    have := h.mem_ids_lt m hm
    have := (hid t ht).1
    omega
  case stores => exact hb.stores
  case sorted =>
    rw [hb.contents]
    exact hes

end LsmStorageInner

/-! ## A fresh store -/

namespace LsmStorageInner

variable {M : Type} {E : Extern}

/-- The state of a fresh store. -/
theorem openFresh_state (io : ManifestIO M) (disk : Disk M) (options : LsmStorageOptions) :
    (openFresh io disk options).state = { LsmStorageState.create options with
      memtable := if options.enable_wal then MemTable.createWithWal 0 else MemTable.create 0 } := by
  rcases hw : options.enable_wal with _ | _ <;>
    simp [openFresh, hw, createWal, LsmStorageState.create]

/-- The first memtable has taken an identifier. -/
theorem openFresh_next_sst_id (io : ManifestIO M) (disk : Disk M) (options : LsmStorageOptions) :
    (openFresh io disk options).next_sst_id = 1 := by
  rcases hw : options.enable_wal with _ | _ <;> simp [openFresh, hw, createWal]

/-- The options are those that were given. -/
theorem openFresh_options (io : ManifestIO M) (disk : Disk M) (options : LsmStorageOptions) :
    (openFresh io disk options).options = options := by
  rcases hw : options.enable_wal with _ | _ <;> simp [openFresh, hw, createWal]

/-- The levels of a new state are empty. -/
theorem create_levels (options : LsmStorageOptions) {level : ℕ × List ℕ}
    (h : level ∈ (LsmStorageState.create options).levels) : level.2 = [] := by
  simp only [LsmStorageState.create] at h
  split at h
  · obtain ⟨l, -, rfl⟩ := List.mem_map.mp h
    rfl
  · obtain ⟨l, -, rfl⟩ := List.mem_map.mp h
    rfl
  · cases h
  · rw [List.mem_singleton.mp h]

/-- A new store has no tables. -/
theorem openFresh_tableIds (io : ManifestIO M) (disk : Disk M) (options : LsmStorageOptions) :
    (openFresh io disk options).state.tableIds = [] := by
  rw [openFresh_state, LsmStorageState.tableIds]
  have : (LsmStorageState.create options).l0_sstables = [] := rfl
  rw [this, List.nil_append, List.flatten_eq_nil_iff]
  intro ids hids
  obtain ⟨level, hl, rfl⟩ := List.mem_map.mp hids
  exact create_levels options hl

/-- A new store has one memtable, which is empty. -/
theorem openFresh_memtables (io : ManifestIO M) (disk : Disk M) (options : LsmStorageOptions) :
    ∃ m : MemTable, (openFresh io disk options).state.memtables = [m] ∧ m.id = 0 ∧ m.map = [] := by
  rw [openFresh_state]
  refine ⟨_, rfl, ?_, ?_⟩
  · split_ifs <;> rfl
  · split_ifs <;> rfl

/-- A fresh store has the invariant. -/
theorem openFresh_inv (io : ManifestIO M) (disk : Disk M) {options : LsmStorageOptions}
    (hsize : options.block_size ≤ 65536) : Inv E (openFresh io disk options) := by
  obtain ⟨m, hmems, hid, hmap⟩ := openFresh_memtables io disk options
  have hids := openFresh_tableIds io disk options
  have himm : (openFresh io disk options).state.imm_memtables = [] := by
    rw [openFresh_state]
    rfl
  have hsst : ∀ id, (openFresh io disk options).state.sstables id = none := by
    rw [openFresh_state]
    exact fun _ => rfl
  constructor
  case block_size => rwa [openFresh_options]
  case next_pos =>
    rw [openFresh_next_sst_id]
    exact Nat.one_pos
  case mem_sorted => simp [hmems, hmap, Assoc.Sorted]
  case mem_storable => simp [hmems, hmap]
  case imm_ne_nil => simp [himm]
  case mem_ids => simp [hmems]
  case nodup => simp [hids]
  case mem_ids_disjoint => simp [hids]
  case mem_ids_lt => simp [hmems, hid, openFresh_next_sst_id]
  case ids_lt => simp [hids]
  case good => simp [hids]
  case listed => simp [hsst]
  case sorted =>
    intro g hg
    have : g = [] := by
      rw [← LsmStorageState.flatten_groups, List.flatten_eq_nil_iff] at hids
      exact hids g hg
    rw [this]
    exact List.Pairwise.nil
  case tiers =>
    intro _
    rw [openFresh_state]
    rfl

end LsmStorageInner

/-- The leveled controller has a level, and a bound on the width of a merge of tiers is not zero. -/
def CompactionOptions.Valid : CompactionOptions → Prop
  | .leveled o => 1 ≤ o.max_levels
  | .tiered o => o.max_merge_width ≠ some 0
  | _ => True

namespace LsmStorageInner

variable {M : Type} {E : Extern}

/-- The levels of a new store have the shape of its controller. -/
theorem openFresh_shape (io : ManifestIO M) (disk : Disk M) {options : LsmStorageOptions}
    (hv : options.compaction_options.Valid) : (openFresh io disk options).Shape := by
  simp only [Shape, openFresh_options]
  rw [openFresh_state]
  rcases ho : options.compaction_options with o | o | o | _
  · rw [ho] at hv
    exact ⟨hv, by simp [LsmStorageState.create, ho]⟩
  · simp [LsmStorageState.create, ho]
  · simp [LsmStorageState.create, ho]
  · simp [LsmStorageState.create, ho]

/-- A fresh store has no values. -/
theorem openFresh_view (io : ManifestIO M) (disk : Disk M) (options : LsmStorageOptions)
    (k : Bytes) : (openFresh io disk options).state.view E k = [] := by
  obtain ⟨m, hmems, -, hmap⟩ := openFresh_memtables io disk options
  have hids := openFresh_tableIds io disk options
  rw [← LsmStorageState.flatten_groups, List.flatten_eq_nil_iff] at hids
  rw [LsmStorageState.view_eq, firstValue, hmems]
  have : ((openFresh io disk options).state.groups.map
      ((openFresh io disk options).state.run E)).findSome? (Assoc.lookup k) = none := by
    rw [List.findSome?_eq_none_iff]
    intro l hl
    obtain ⟨g, hg, rfl⟩ := List.mem_map.mp hl
    rw [hids g hg]
    rfl
  rw [List.findSome?_append, this]
  simp [hmap, Assoc.lookup_nil]

/-! ## Generated tasks -/

/-- A tiered task that drops deleted keys leaves no older tier with the identifier zero, unless some
key has a value in its tiers. -/
def Covered (E : Extern) (s : LsmStorageInner M) (t : TieredCompactionTask) : Prop :=
  t.bottom_tier_included = true → (∀ p ∈ s.state.levels.drop t.tiers.length, p.1 ≠ 0) ∨
    ∃ k, firstValue (t.tiers.map fun tier => s.state.run E tier.2) k ≠ []

/-- The task that a compaction starts with fits. -/
theorem generateTask_fits {s : LsmStorageInner M} (hsh : s.Shape)
    (hv : s.options.compaction_options.Valid) {task : CompactionTask}
    (hcov : ∀ t, task = .tiered t → s.Covered E t) (h : s.generateTask E = some task) :
    task.Fits E s.options.compaction_options s.state := by
  simp only [generateTask, CompactionController.generateCompactionTask] at h
  rcases ho : s.options.compaction_options with o | o | o | _
  · rw [ho] at h hv
    obtain ⟨t, ht, rfl⟩ := Option.map_eq_some_iff.mp h
    simp only [Shape, ho] at hsh
    exact LeveledCompactionController.generateCompactionTask_fits hsh.1 hsh.2 ht
  · rw [ho] at h hv
    obtain ⟨t, ht, rfl⟩ := Option.map_eq_some_iff.mp h
    have hcov := hcov t rfl
    obtain ⟨hne, hcases⟩ := TieredCompactionController.generateCompactionTask_cases ht
    have htake : ∃ n, 0 < n ∧ t.tiers = s.state.levels.take n := by
      rcases hcases with rfl | ⟨n, rfl⟩ | rfl
      · exact ⟨s.state.levels.length, List.length_pos_iff.mpr hne, by simp⟩
      · exact ⟨n + 1, Nat.succ_pos n, rfl⟩
      · refine ⟨_, ?_, rfl⟩
        have hpos := List.length_pos_iff.mpr hne
        rcases hw : o.max_merge_width with _ | w
        · exact hpos
        · have : w ≠ 0 := by
            rintro rfl
            exact hv hw
          simp only [Option.elim_some]
          omega
    obtain ⟨n, hn, htiers⟩ := htake
    have hdrop : s.state.levels.drop t.tiers.length = s.state.levels.drop n := by
      rw [htiers, List.length_take]
      rcases le_total n s.state.levels.length with hle | hle
      · rw [min_eq_left hle]
      · rw [min_eq_right hle, List.drop_eq_nil_of_le hle, List.drop_length]
    refine ⟨?_, [], s.state.levels.drop n, ?_, by simp, ?_⟩
    · rw [htiers]
      simp [hn.ne', hne]
    · rw [htiers]
      simp
    · intro hb
      rw [← hdrop]
      exact hcov hb
  · rw [ho] at h
    obtain ⟨t, ht, rfl⟩ := Option.map_eq_some_iff.mp h
    simp only [Shape, ho] at hsh
    exact SimpleLeveledCompactionController.generateCompactionTask_fits hsh ht
  · rw [ho] at h
    cases h

/-- The task of a full compaction fits. -/
theorem fullTask_fits {s : LsmStorageInner M} (hsh : s.Shape) {t : ForceFullCompactionTask}
    (h : s.fullTask = .ok t) :
    (CompactionTask.forceFull t).Fits E s.options.compaction_options s.state := by
  rw [fullTask] at h
  split_ifs at h with ho
  cases h
  have ho := not_not.mp ho
  simp only [Shape, ho] at hsh
  obtain ⟨level, hlev⟩ := List.length_eq_one_iff.mp hsh
  rw [ho]
  refine ⟨[], level.1, rfl, ?_⟩
  rw [LsmStorageState.levelIds, hlev]
  rfl

end LsmStorageInner

end MiniLsm
