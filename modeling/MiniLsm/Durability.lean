import MiniLsm.Exec
import MiniLsm.Journal
import MiniLsm.Lib.Steps
import MiniLsm.ManifestSpec
import MiniLsm.Sequences

/-!
# What is left in the directory

The files that a store leaves when it stops at any step.

* A table file is written and not synced, while the record of the table is. The tables in a manifest
  survive a loss of power as long as there are none: no memtable has been flushed
  (`Machine.durableTables_of_no_flush`).
* A store that is opened on a manifest with an error knows nothing of the directory: it is empty,
  and takes the names of files that are there. Nothing is hidden or overwritten exactly if there is
  no data (`LsmStorageInner.neverCosts_iff`).
-/

namespace MiniLsm

open LsmStorageInner

/-! ## The tables of a replay -/

/-- The tables that a record adds. -/
def ManifestRecord.tables : ManifestRecord → List ℕ
  | .flush sst_id => [sst_id]
  | .newMemtable _ => []
  | .compaction _ output_sst_ids => output_sst_ids

/-- A removal adds nothing. -/
theorem removeOnce_subset (set xs : List ℕ) : removeOnce set xs ⊆ xs := by
  induction xs generalizing set with
  | nil => exact List.Subset.refl _
  | cons x xs ih =>
    rw [removeOnce]
    split_ifs
    · exact List.Subset.trans (ih _) (List.subset_cons_self x xs)
    · exact List.cons_subset_cons x (ih _)

/-- The identifiers in a list of levels. -/
theorem mem_setLevel {levels : List (ℕ × List ℕ)} {i : ℕ} {ids : List ℕ} {id : ℕ}
    (h : id ∈ ((setLevel levels i ids).map Prod.snd).flatten) :
    id ∈ ids ∨ id ∈ (levels.map Prod.snd).flatten := by
  obtain ⟨l, hl, hid⟩ := List.mem_flatten.mp h
  obtain ⟨level, hlevel, rfl⟩ := List.mem_map.mp hl
  obtain ⟨j, hj⟩ := List.mem_iff_getElem?.mp hlevel
  rw [setLevel, List.getElem?_modify] at hj
  obtain ⟨p, hp, rfl⟩ := Option.map_eq_some_iff.mp hj
  split_ifs at hid with hij
  · exact .inl hid
  · exact .inr (List.mem_flatten.mpr ⟨p.2, List.mem_map_of_mem (List.mem_of_getElem? hp), hid⟩)

/-- The tables of a level are in the levels. -/
theorem LsmStorageState.mem_levelIds {st : LsmStorageState} {i id : ℕ} (h : id ∈ st.levelIds i) :
    id ∈ (st.levels.map Prod.snd).flatten := by
  rw [LsmStorageState.levelIds] at h
  rcases hi : st.levels[i]? with _ | p
  · simp [hi] at h
  · rw [hi] at h
    exact List.mem_flatten.mpr ⟨p.2, List.mem_map_of_mem (List.mem_of_getElem? hi), h⟩

/-- The tables of the new tiers are those of the old tiers and the outputs. -/
theorem TieredCompactionController.mem_applyLoop {out : List ℕ} {tier_to_remove : List (ℕ × List ℕ)}
    {added : Bool} {tiers : List (ℕ × List ℕ)} {id : ℕ}
    (h : id ∈ ((applyLoop out tier_to_remove added tiers).1.map Prod.snd).flatten) :
    id ∈ out ∨ id ∈ (tiers.map Prod.snd).flatten := by
  induction tiers generalizing tier_to_remove added with
  | nil => exact .inr h
  | cons tier tiers ih =>
    obtain ⟨tier_id, files⟩ := tier
    simp only [applyLoop, List.map_append, List.flatten_append, List.mem_append] at h
    rcases h with h | h | h
    · split_ifs at h
      · cases h
      · simp only [List.map_singleton, List.flatten_singleton] at h
        exact .inr (List.mem_flatten.mpr ⟨files, by simp, h⟩)
    · split_ifs at h
      · simp only [List.map_singleton, List.flatten_singleton] at h
        exact .inl h
      · cases h
    · refine (ih h).imp_right fun h => ?_
      rw [List.map_cons, List.flatten_cons]
      exact List.mem_append_right _ h

/-- A compaction adds its output to the tables of a state, and no other table. -/
theorem CompactionController.mem_tableIds_applyCompactionResult {options : CompactionOptions}
    {st st' : LsmStorageState} {task : CompactionTask} {out old : List ℕ} {in_recovery : Bool}
    (h : applyCompactionResult options st task out in_recovery = .ok (st', old)) {id : ℕ}
    (hid : id ∈ st'.tableIds) : id ∈ st.tableIds ∨ id ∈ out := by
  have hlevel : ∀ {levels : List (ℕ × List ℕ)} {i : ℕ} {ids : List ℕ},
      (id ∈ ids → id ∈ st.tableIds ∨ id ∈ out) →
      (id ∈ (levels.map Prod.snd).flatten → id ∈ st.tableIds ∨ id ∈ out) →
      id ∈ ((setLevel levels i ids).map Prod.snd).flatten → id ∈ st.tableIds ∨ id ∈ out :=
    fun hids hlevels h => (mem_setLevel h).elim hids hlevels
  have hl0 : id ∈ st.l0_sstables → id ∈ st.tableIds ∨ id ∈ out :=
    fun h => .inl (List.mem_append_left _ h)
  have hlevels : id ∈ (st.levels.map Prod.snd).flatten → id ∈ st.tableIds ∨ id ∈ out :=
    fun h => .inl (List.mem_append_right _ h)
  unfold applyCompactionResult at h
  split at h
  case h_1 t _ =>
    rw [Except.ok.injEq, applyForceFull, Prod.mk.injEq] at h
    obtain ⟨rfl, -⟩ := h
    rcases List.mem_append.mp hid with hid | hid
    · exact hl0 (List.mem_of_mem_filter hid)
    · dsimp only at hid
      split_ifs at hid
      · simp only [List.map_singleton, List.flatten_singleton] at hid
        exact .inr hid
      · exact hlevel .inr hlevels hid
  case h_2 t _ =>
    rw [Except.ok.injEq] at h
    obtain rfl := (congrArg Prod.fst h).symm
    have hsort : ∀ (r : ℕ → ℕ → Prop) [DecidableRel r] (l : List ℕ) (b : Bool),
        id ∈ (if b then l else l.insertionSort r) → id ∈ l := by
      intro r _ l b hid
      split_ifs at hid
      · exact hid
      · exact (List.mem_insertionSort r).mp hid
    rcases hul : t.upper_level with _ | i
    · simp only [LeveledCompactionController.applyCompactionResult, hul] at hid
      rcases List.mem_append.mp hid with hid | hid
      · exact hl0 (removeOnce_subset _ _ hid)
      · refine hlevel (fun hid => ?_) hlevels hid
        rcases List.mem_append.mp (hsort _ _ _ hid) with hid | hid
        · exact hlevels (LsmStorageState.mem_levelIds (removeOnce_subset _ _ hid))
        · exact .inr hid
    · simp only [LeveledCompactionController.applyCompactionResult, hul] at hid
      have hupper : id ∈ ((setLevel st.levels (i - 1) (removeOnce t.upper_level_sst_ids
          (st.levelIds (i - 1)))).map Prod.snd).flatten → id ∈ st.tableIds ∨ id ∈ out :=
        hlevel (fun h => hlevels (LsmStorageState.mem_levelIds (removeOnce_subset _ _ h))) hlevels
      rcases List.mem_append.mp hid with hid | hid
      · exact hl0 hid
      · refine hlevel (fun hid => ?_) hupper hid
        rcases List.mem_append.mp (hsort _ _ _ hid) with hid | hid
        · have hmem := removeOnce_subset _ _ hid
          exact hupper (LsmStorageState.mem_levelIds hmem)
        · exact .inr hid
  case h_3 t _ =>
    rw [Except.ok.injEq] at h
    obtain rfl := (congrArg Prod.fst h).symm
    rcases List.mem_append.mp hid with hid | hid
    · exact hl0 hid
    · exact (TieredCompactionController.mem_applyLoop hid).elim .inr hlevels
  case h_4 t _ =>
    rw [Except.ok.injEq] at h
    obtain rfl := (congrArg Prod.fst h).symm
    rcases hul : t.upper_level with _ | i
    · simp only [SimpleLeveledCompactionController.applyCompactionResult, hul] at hid
      rcases List.mem_append.mp hid with hid | hid
      · exact hl0 (removeOnce_subset _ _ hid)
      · exact hlevel .inr hlevels hid
    · simp only [SimpleLeveledCompactionController.applyCompactionResult, hul] at hid
      rcases List.mem_append.mp hid with hid | hid
      · exact hl0 hid
      · exact hlevel .inr (hlevel (by simp) hlevels) hid
  all_goals cases h

/-- The tables of a replay are ones that its records have added. -/
theorem LsmStorageInner.mem_tableIds_replay {options : LsmStorageOptions}
    {records : List ManifestRecord} {r : Replay} (h : replay options records = .ok r) {id : ℕ}
    (hid : id ∈ r.state.tableIds) : ∃ record ∈ records, id ∈ record.tables := by
  induction records using List.reverseRecOn generalizing r with
  | nil =>
    cases h
    have hids := openFresh_tableIds ManifestIO.list Disk.empty options
    rw [openFresh_state] at hids
    rw [LsmStorageState.tableIds] at hid hids
    rw [hids] at hid
    cases hid
  | append_singleton records record ih =>
    rw [replay_append] at h
    obtain ⟨r₀, h₀, h⟩ := bind_eq_ok.mp h
    have hstep : id ∈ r₀.state.tableIds ∨ id ∈ record.tables := by
      cases record with
      | flush sst_id =>
        cases h
        dsimp only at hid
        split_ifs at hid
        · rcases List.mem_append.mp hid with hid | hid
          · rcases List.mem_cons.mp hid with rfl | hid
            · exact .inr List.mem_cons_self
            · exact .inl (List.mem_append_left _ hid)
          · exact .inl (List.mem_append_right _ hid)
        · rcases List.mem_append.mp hid with hid | hid
          · exact .inl (List.mem_append_left _ hid)
          · rw [List.map_cons, List.flatten_cons] at hid
            rcases List.mem_append.mp hid with hid | hid
            · exact .inr hid
            · exact .inl (List.mem_append_right _ hid)
      | newMemtable mem_id =>
        cases h
        exact .inl hid
      | compaction task ids =>
        simp only [replayRecord] at h
        obtain ⟨⟨st, old⟩, hres, h⟩ := bind_eq_ok.mp h
        cases h
        exact CompactionController.mem_tableIds_applyCompactionResult hres hid
    rcases hstep with hid | hid
    · obtain ⟨record', hrecord', hid⟩ := ih h₀ hid
      exact ⟨record', List.mem_append_left _ hrecord', hid⟩
    · exact ⟨record, by simp, hid⟩

/-! ## Power loss -/

/-- A file, and the part of it that survives a loss of power. -/
structure SyncFile where
  content : Bytes
  durable : Bytes

namespace SyncFile

/-- `open` with `O_TRUNC` -/
def openTrunc : SyncFile := ⟨[], []⟩

/-- `write` at the end of the file -/
def write (f : SyncFile) (data : Bytes) : SyncFile := { f with content := f.content ++ data }

/-- `fsync` -/
def fsync (f : SyncFile) : SyncFile := { f with durable := f.content }

end SyncFile

/-- The file that `FileObject::create` leaves: it is truncated, written and closed. -/
def FileObject.create (data : Bytes) : SyncFile := SyncFile.openTrunc.write data

/-- The table files that the records of the manifest ask for are there, with all of their contents,
after a loss of power. A record is synced as soon as it is written. -/
def LsmStorageInner.DurableTables {M : Type} (log : M → List ManifestRecord)
    (s : LsmStorageInner M) : Prop :=
  ∀ r, replay s.options (s.records log) = .ok r → ∀ id ∈ r.state.tableIds,
    ∃ buf, s.disk.ssts id = some buf ∧ (FileObject.create buf).durable = buf

section NoTables

variable {M : Type} {E : Extern} {io : ManifestIO M} {s : LsmStorageInner M}

/-- Without open tables there is nothing to read. -/
theorem tables_of_none (h : ∀ id, s.state.sstables id = none) (ids : List ℕ) :
    s.state.tables ids = [] := by
  rw [LsmStorageState.tables, List.filterMap_eq_nil_iff]
  exact fun id _ => h id

/-- A write opens no table. -/
theorem LsmStorageInner.put_sstables (s : LsmStorageInner M) (key value : Bytes) :
    (s.put E io key value).state.sstables = s.state.sstables := by
  rcases put_eq E io s key value with heq | heq
  · rw [heq]
    rfl
  · rw [heq, forceFreezeMemtable_state]
    rfl

/-- Without open tables, a compaction writes none. -/
theorem LsmStorageInner.compact_of_none (h : ∀ id, s.state.sstables id = none)
    (task : CompactionTask) : s.compact E task = (.ok [], s) := by
  have htables := tables_of_none h
  have hrun : ∀ ids, s.state.run E ids = [] := fun ids => by
    rw [LsmStorageState.run, htables]
    rfl
  have hord : ∀ ids, InOrder E s.state ids := by
    intro ids
    refine ⟨by simp [htables], ?_⟩
    rw [hrun]
    exact List.Pairwise.nil
  have hmerged : ∀ groups, s.state.merged E groups = [] := by
    intro groups
    rw [LsmStorageState.merged]
    refine Assoc.ext_of_lookup (Assoc.sorted_overlays _) List.Pairwise.nil fun k => ?_
    rw [Assoc.lookup_overlays, Assoc.lookup_nil, List.findSome?_eq_none_iff]
    intro l hl
    obtain ⟨g, -, rfl⟩ := List.mem_map.mp hl
    rw [hrun, Assoc.lookup_nil]
  -- The iterator is at its end, and the loop has nothing to add.
  have hgen : ∀ {ι : Type} [Cursor ι Bytes Bytes Error] {iter : Except Error ι}
      {groups : List (List ℕ)} (bottom : Bool), Merges E s iter groups →
      s.generateFrom E iter bottom = (.ok [], s) := by
    rintro ι _ iter groups bottom ⟨it, rfl, hy⟩
    rw [hmerged] at hy
    rw [generateFrom, Outcome.bind_ok, compactGenerateSstFromIter, compactLoop, hy.isValid_nil]
    rfl
  have hlevel : ∀ upper_level upper_ids lower_ids bottom,
      s.compactLevel E upper_level upper_ids lower_ids bottom = (.ok [], s) := by
    intro upper_level upper_ids lower_ids bottom
    rcases upper_level with _ | i
    · exact hgen bottom (mergeL0_merges (fun id _ => hord [id]) (hord lower_ids))
    · exact hgen bottom (mergeLevels_merges (hord upper_ids) (hord lower_ids))
  cases task with
  | forceFull t => exact hgen _ (mergeL0_merges (fun id _ => hord [id]) (hord t.l1_sstables))
  | simple t => exact hlevel _ _ _ _
  | leveled t => exact hlevel _ _ _ _
  | tiered t => exact hgen _ (mergeTiers_merges fun tier _ => hord tier.2)

/-- Without open tables, the end of a compaction that has written none opens none. -/
theorem LsmStorageInner.applyResult_of_none (h : ∀ id, s.state.sstables id = none)
    (task : CompactionTask) (id : ℕ) : (s.applyResult io task []).state.sstables id = none := by
  have htrigger : ∀ task, (s.applyTrigger io task []).2.state.sstables id = none := by
    intro task
    rw [applyTrigger, List.map_nil]
    dsimp only
    rcases hres : CompactionController.applyCompactionResult s.options.compaction_options
      { s.state with sstables := addTables s.state.sstables [] } task [] false with e | ⟨st, old⟩
    · exact h id
    · have hst := CompactionController.applyCompactionResult_sstables hres id (h id)
      rw [Outcome.bind_ok]
      dsimp only [removeSsts]
      rw [addRecord_state]
      dsimp only
      rw [hst, ite_self]
  cases task with
  | forceFull t =>
    simp only [applyResult, applyFull, removeSsts, addRecord_state, addTables, List.foldl_nil]
    rw [h id, ite_self]
  | leveled t => exact htrigger _
  | tiered t => exact htrigger _
  | simple t => exact htrigger _

end NoTables

namespace Machine

variable {M τ : Type} [DecidableEq τ] {E : Extern} {io : ManifestIO M}
  {log : M → List ManifestRecord}

/-- No flush meets a frozen memtable. -/
def NoFlush (c : Machine M τ) (op : Op τ) : Prop :=
  op = .flush → c.store.state.imm_memtables = []

/-- There is no table, neither in the state nor in a compaction nor in the manifest. -/
structure NoTables (log : M → List ManifestRecord) (c : Machine M τ) : Prop where
  journaled : c.store.Journaled
  sstables : ∀ id, c.store.state.sstables id = none
  calls : ∀ i call ts, c.calls i = some call → call.sstables = some ts → ts = []
  records : ∀ record ∈ c.store.records log, record.tables = []

/-- A thread may begin, with tables or without. -/
theorem NoTables.begin {c c' : Machine M τ} (h : c.NoTables log) {i : τ}
    {task : Option CompactionTask} (hb : c.begin i task = some c') : c'.NoTables log := by
  obtain ⟨-, t, -, rfl⟩ := begin_eq_some hb
  refine ⟨h.journaled, h.sstables, fun j call ts hj hts => ?_, h.records⟩
  dsimp only at hj
  by_cases hij : j = i
  · subst hij
    rw [Function.update_self] at hj
    cases hj
    cases hts
  · rw [Function.update_of_ne hij] at hj
    exact h.calls j call ts hj hts

/-- A step that flushes nothing makes no table. -/
theorem NoTables.step (hio : io.Lawful log) {c c' : Machine M τ} {op : Op τ} (h : c.NoTables log)
    (hop : c.NoFlush op) (hstep : c.step E io op = some c') : c'.NoTables log := by
  obtain ⟨hj, hr⟩ := step_records hio h.journaled hstep
  -- The record that the step may add has no table.
  have hrecords : ∀ record ∈ c'.store.records log, record.tables = [] := by
    rcases hr with hr | ⟨r, hadds, hr⟩
    · rw [hr]
      exact h.records
    · rw [hr]
      intro record hrecord
      rcases List.mem_append.mp hrecord with hrecord | hrecord
      · exact h.records record hrecord
      · rw [List.mem_singleton.mp hrecord]
        cases hadds with
        | put key value => rfl
        | del key => rfl
        | freeze => rfl
        | flush hm => simp [hop rfl] at hm
        | apply hi hts =>
          rw [h.calls _ _ _ hi hts]
          rfl
  cases op with
  | put key value =>
    cases hstep
    refine ⟨hj, ?_, h.calls, hrecords⟩
    rw [put_sstables]
    exact h.sstables
  | del key =>
    cases hstep
    refine ⟨hj, ?_, h.calls, hrecords⟩
    rw [LsmStorageInner.del, put_sstables]
    exact h.sstables
  | freeze =>
    simp only [Machine.step] at hstep
    split_ifs at hstep
    cases hstep
    refine ⟨hj, ?_, h.calls, hrecords⟩
    simpa [forceFreezeMemtable_state] using h.sstables
  | flush =>
    cases hstep
    rw [flush_of_imm_nil E io (hop rfl)]
    exact h
  | trigger i => exact h.begin hstep
  | full i => exact h.begin hstep
  | compact i =>
    obtain ⟨call, -, -, rfl⟩ := step_compact hstep
    have hcompact := compact_of_none (E := E) h.sstables call.task
    refine ⟨hj, ?_, fun j call' ts hj' hts => ?_, hrecords⟩
    · rw [Machine.compactStep, hcompact]
      exact h.sstables
    · rw [Machine.compactStep, hcompact] at hj'
      dsimp only at hj'
      by_cases hij : j = i
      · subst hij
        rw [Function.update_self] at hj'
        cases hj'
        cases hts
        rfl
      · rw [Function.update_of_ne hij] at hj'
        exact h.calls j call' ts hj' hts
  | apply i =>
    obtain ⟨call, ts, hi, hts, rfl⟩ := step_apply hstep
    obtain rfl := h.calls i call ts hi hts
    refine ⟨hj, applyResult_of_none h.sstables call.task, fun j call' ts' hj' hts' => ?_, hrecords⟩
    simp only [Machine.applyStep] at hj'
    split_ifs at hj'
    obtain ⟨call'', hj'', rfl⟩ := Option.map_eq_some_iff.mp hj'
    exact h.calls j call'' ts' hj'' hts'

omit [DecidableEq τ] in
/-- A new store has no tables. -/
theorem start_noTables (hio : io.Lawful log) (options : LsmStorageOptions) :
    (start io options : Machine M τ).NoTables log := by
  obtain ⟨hj, hr⟩ := openFresh_journaled hio Disk.empty options
  refine ⟨hj, fun id => ?_, by simp [start], ?_⟩
  · rw [start, openFresh_state]
    rfl
  · rw [start, hr]
    simp [ManifestRecord.tables]

/-- In a run that flushes no memtable, the tables in the manifest survive a loss of power after
every step: there are none. -/
theorem durableTables_of_no_flush (E : Extern) (hio : io.Lawful log) {options : LsmStorageOptions}
    {ops : List (Op τ)} {c : Machine M τ}
    (h : Steps (Machine.step E io) NoFlush (start io options) ops c) :
    c.store.DurableTables log := by
  have hno : c.NoTables log := h.invariant (start_noTables hio options)
    fun c op c' hc hop hstep => hc.step hio hop hstep
  intro r hr id hid
  obtain ⟨record, hrecord, hid⟩ := mem_tableIds_replay hr hid
  rw [hno.records record hrecord] at hid
  cases hid

/-- A memtable is frozen and a full compaction begins, with nothing to flush or to merge. -/
theorem durableTables_frozen :
    ∃ c : Machine (List ManifestRecord) Unit,
      Steps (Machine.step .lib .list) NoFlush (start .list {}) [.put [97] [49], .freeze, .full ()] c ∧
      c.store.state.imm_memtables.length = 1 ∧ c.store.DurableTables id := by
  obtain ⟨c, hrun, hc⟩ : ∃ c : Machine (List ManifestRecord) Unit,
      Steps (Machine.step .lib .list) NoFlush (start .list {}) [.put [97] [49], .freeze, .full ()] c ∧
      decide (c.store.state.imm_memtables.length = 1) = true :=
    Steps.of_exec (p := fun _ op => match op with | .flush => false | _ => true)
      (fun _ _ h hop => by subst hop; cases h) (by decide +kernel)
  exact ⟨c, hrun, of_decide_eq_true hc, durableTables_of_no_flush .lib ManifestIO.list_lawful hrun⟩

/-- The table of a flush is in the manifest, and none of its bytes is durable. -/
theorem not_durableTables_flush :
    ¬ ∀ (ops : List (Op Unit)) (c : Machine (List ManifestRecord) Unit),
      Steps (Machine.step .lib .list) (fun _ _ => True) (start .list {}) ops c →
        c.store.DurableTables id := by
  intro h
  obtain ⟨c, hrun, hc⟩ : ∃ c : Machine (List ManifestRecord) Unit,
      Steps (Machine.step .lib .list) (fun _ _ => True) (start .list {})
        [.put [97] [49], .freeze, .flush] c ∧
      ((replay c.store.options (c.store.records id)).toOption.any (fun r =>
        decide (0 ∈ r.state.tableIds)) && decide (c.store.disk.ssts 0 ≠ some [])) = true :=
    Steps.of_exec (p := fun _ _ => true) (fun _ _ _ => trivial) (by decide +kernel)
  rw [Bool.and_eq_true, decide_eq_true_eq] at hc
  obtain ⟨hreplay, hfile⟩ := hc
  rcases hr : replay c.store.options (c.store.records id) with e | r
  · rw [hr] at hreplay
    cases hreplay
  · rw [hr] at hreplay
    obtain ⟨buf, hbuf, hdurable⟩ := h _ c hrun r hr 0 (of_decide_eq_true hreplay)
    obtain rfl : [] = buf := hdurable
    exact hfile hbuf

end Machine

/-- A flush of a frozen memtable puts a table into the manifest of which no byte is durable, so that
the tables do not survive a loss of power behind it. -/
theorem LsmStorageInner.flush_not_durable {M : Type} {E : Extern} {io : ManifestIO M}
    {log : M → List ManifestRecord} (hio : io.Lawful log) {s : LsmStorageInner M} {r : Replay}
    (hj : s.Journaled) (hr : replay s.options (s.records log) = .ok r)
    (himm : s.state.imm_memtables ≠ []) (hok : (s.forceFlushNextImmMemtable E io).1 = .ok ()) :
    ¬ (s.forceFlushNextImmMemtable E io).2.DurableTables log := by
  obtain ⟨imm, m, himm⟩ := (List.eq_nil_or_concat' s.state.imm_memtables).resolve_left himm
  rw [flush_of_imm_concat E io himm] at hok ⊢
  generalize m.flush E (SsTableBuilder.create s.options.block_size s.options.compression) = b
    at hok ⊢
  have hfile : b.fileBytes E ≠ [] := by
    unfold SsTableBuilder.fileBytes
    dsimp only
    exact List.append_ne_nil_of_right_ne_nil _ (List.ne_nil_of_length_pos (by simp [length_putU32]))
  have hfiles : (s.build E b m.id).2.disk.ssts m.id = some (b.fileBytes E) :=
    Function.update_self _ _ _
  have hopt : (s.build E b m.id).2.options = s.options := rfl
  have hjb : (s.build E b m.id).2.Journaled := ⟨hj.manifest, hj.isSome⟩
  have hrec : (s.build E b m.id).2.records log = s.records log := rfl
  obtain ⟨o, hbuild⟩ : ∃ o, s.build E b m.id = o := ⟨_, rfl⟩
  rw [hbuild] at hok hfiles hopt hjb hrec ⊢
  obtain ⟨e | t, s₁⟩ := o
  · cases hok
  rw [Outcome.bind_ok]
  have hjt : (s₁.addFlushed m.id t).Journaled := ⟨hjb.manifest, hjb.isSome⟩
  obtain ⟨-, hrecords⟩ := hjt.addRecord hio (.flush m.id)
  intro hdurable
  rw [DurableTables, hrecords, addRecord_options] at hdurable
  have hreplay : ∃ r', replay (s₁.addFlushed m.id t).options
      ((s₁.addFlushed m.id t).records log ++ [.flush m.id]) = .ok r' ∧ m.id ∈ r'.state.tableIds := by
    rw [show (s₁.addFlushed m.id t).options = s.options from hopt,
      show (s₁.addFlushed m.id t).records log = s.records log from hrec, replay_append, hr, ok_bind]
    refine ⟨_, rfl, ?_⟩
    dsimp only
    split_ifs <;> simp [LsmStorageState.tableIds]
  obtain ⟨r', hr', hid⟩ := hreplay
  obtain ⟨buf, hbuf, hbytes⟩ := hdurable r' hr' m.id hid
  rw [addRecord_ssts] at hbuf
  obtain rfl : b.fileBytes E = buf := Option.some.inj (hfiles.symm.trans hbuf)
  exact hfile hbytes.symm
/-! ## A manifest that is an error -/

namespace LsmStorageInner

variable {M : Type} {E : Extern} {io : ManifestIO M}

/-- A store hides data of the directory: a table file that it does not have open, or a log with
bytes in it that belongs to none of its memtables. -/
def Hides (disk : Disk M) (s : LsmStorageInner M) : Prop :=
  (∃ id, disk.ssts id ≠ none ∧ s.state.sstables id = none) ∨
    ∃ id buf, disk.wals id = some buf ∧ buf ≠ [] ∧
      ∀ m ∈ s.state.memtables, m.wal.isSome → m.id ≠ id

/-- No run of a store overwrites, truncates or deletes a table or log file of the directory. -/
def KeepsFiles (E : Extern) (io : ManifestIO M) (disk : Disk M) (s : LsmStorageInner M) : Prop :=
  ∀ (ops : List (Op Unit)) (c : Machine M Unit),
    Steps (Machine.step E io) (fun _ _ => True) ⟨s, fun _ => none⟩ ops c →
    (∀ id buf, disk.ssts id = some buf → c.store.disk.ssts id = some buf) ∧
      ∀ id buf, disk.wals id = some buf → ∃ more, c.store.disk.wals id = some (buf ++ more)

/-- Opening a directory costs no data. -/
def NeverCosts (E : Extern) (io : ManifestIO M) (disk : Disk M) (options : LsmStorageOptions) :
    Prop :=
  ∀ s, LsmStorageInner.open E io disk options = .ok s → ¬ Hides disk s ∧ KeepsFiles E io disk s

end LsmStorageInner

/-- A log file stays. -/
theorem Machine.step_wals {M τ : Type} [DecidableEq τ] {E : Extern} {io : ManifestIO M}
    {c c' : Machine M τ} {op : Op τ} (hstep : c.step E io op = some c') {id : ℕ}
    (h : (c.store.disk.wals id).isSome) : (c'.store.disk.wals id).isSome := by
  -- A freeze may create a file, and no step removes one.
  have hfreeze : ∀ s : LsmStorageInner M, (s.disk.wals id).isSome →
      ((s.forceFreezeMemtable io).disk.wals id).isSome := by
    intro s hs
    simp only [forceFreezeMemtable, addRecord_wals]
    split_ifs
    · rw [createWal]
      dsimp only
      rw [Function.update_apply]
      split_ifs
      · rfl
      · exact hs
    · exact hs
  have hput : ∀ key value, ((c.store.put E io key value).disk.wals id).isSome := by
    intro key value
    rcases put_eq E io c.store key value with heq | heq
    · rw [heq]
      exact h
    · rw [heq]
      exact hfreeze _ h
  cases op with
  | put key value =>
    cases hstep
    exact hput key value
  | del key =>
    cases hstep
    exact hput key []
  | freeze =>
    simp only [Machine.step] at hstep
    split_ifs at hstep
    cases hstep
    exact hfreeze _ h
  | flush =>
    cases hstep
    dsimp only
    rcases List.eq_nil_or_concat' c.store.state.imm_memtables with himm | ⟨imm, m, himm⟩
    · rwa [flush_of_imm_nil E io himm]
    · rw [flush_of_imm_concat E io himm, build]
      rcases SsTable.open E m.id _ with e | t
      · exact h
      · rw [Outcome.bind_ok, addRecord_wals]
        exact h
  | trigger i =>
    obtain ⟨-, t, -, rfl⟩ := begin_eq_some hstep
    exact h
  | full i =>
    obtain ⟨-, t, -, rfl⟩ := begin_eq_some hstep
    exact h
  | compact i =>
    obtain ⟨call, -, -, rfl⟩ := step_compact hstep
    rw [Machine.compactStep, (compact_wrote c.store call.task).wals]
    exact h
  | apply i =>
    obtain ⟨call, ts, -, -, rfl⟩ := step_apply hstep
    rcases applyResult_cases io c.store call.task ts with heq | ⟨st, old, -, -, -, -, -, hw⟩
    · rwa [Machine.applyStep, heq]
    · rwa [Machine.applyStep, hw]

/-- On a manifest that is an error, opening a directory costs no data if and only if there is none:
no table file, and no log with bytes in it. -/
theorem LsmStorageInner.neverCosts_iff {M : Type} (E : Extern) {io : ManifestIO M} {disk : Disk M}
    {m : M} {what : String} (hdisk : disk.manifest = some m)
    (hrec : io.recover m = .error (.runtimeError what)) (options : LsmStorageOptions) :
    NeverCosts E io disk options ↔
      (∀ id, disk.ssts id = none) ∧ ∀ id buf, disk.wals id = some buf → buf = [] := by
  have hopen : LsmStorageInner.open E io disk options =
      .ok ⟨LsmStorageState.create options, 1, options, false, disk⟩ := by
    rw [LsmStorageInner.open, hdisk]
    dsimp only
    rw [hrec]
  have hmem : (LsmStorageState.create options).memtables = [MemTable.create 0] := rfl
  constructor
  · intro hnever
    obtain ⟨hhides, -⟩ := hnever _ hopen
    constructor
    · intro id
      by_contra hsome
      exact hhides (.inl ⟨id, hsome, rfl⟩)
    · intro id buf hbuf
      by_contra hne
      refine hhides (.inr ⟨id, buf, hbuf, hne, ?_⟩)
      intro m hm hwal
      rw [hmem, List.mem_singleton] at hm
      subst hm
      cases hwal
  · rintro ⟨hssts, hwals⟩ s hs
    rw [hopen] at hs
    cases hs
    constructor
    · rintro (⟨id, hid, -⟩ | ⟨id, buf, hbuf, hne, -⟩)
      · exact hid (hssts id)
      · exact hne (hwals id buf hbuf)
    · intro ops c hrun
      constructor
      · intro id buf hbuf
        rw [hssts id] at hbuf
        cases hbuf
      · intro id buf hbuf
        have hsome : (c.store.disk.wals id).isSome := by
          refine hrun.invariant (I := fun c => (c.store.disk.wals id).isSome) (by simp [hbuf]) ?_
          exact fun _ _ _ h _ hstep => Machine.step_wals hstep h
        obtain ⟨more, hmore⟩ := Option.isSome_iff_exists.mp hsome
        exact ⟨more, by rw [hwals id buf hbuf, List.nil_append, hmore]⟩

/-- An empty log is as good as none. -/
theorem LsmStorageInner.neverCosts_empty_log :
    NeverCosts .lib (ManifestFile.io .lib .digit)
      ⟨some ⟨[0], 0⟩, fun _ => none, fun id => if id = 0 then some [] else none⟩
      { enable_wal := true } := by
  refine (neverCosts_iff .lib rfl
    (show (ManifestFile.io .lib .digit).recover ⟨[0], 0⟩ = .error (.runtimeError
      "Corrupted manifest: incomplete length header at EOF") by decide +kernel) _).mpr
    ⟨fun _ => rfl, fun id buf hbuf => ?_⟩
  simp only [Option.ite_none_right_eq_some, Option.some.injEq] at hbuf
  exact hbuf.2.symm

/-- A directory with the table of `a` ↦ `1`, and one byte of a record as its manifest. -/
def tornDirectory : Disk ManifestFile :=
  ⟨some ⟨[0], 0⟩, fun id => if id = 0 then some ((([BuilderCall.add [97] [49]].foldl
    (BuilderCall.apply .lib) (SsTableBuilder.create 4096 .none))).fileBytes .lib) else none,
    fun _ => none⟩

/-- The value is not found any more, and the next flush writes over the table. -/
theorem LsmStorageInner.not_neverCosts_overwritten :
    ¬ NeverCosts .lib (ManifestFile.io .lib .digit) tornDirectory {} ∧
      (LsmStorageInner.open .lib (ManifestFile.io .lib .digit) tornDirectory {} >>= fun s =>
        s.get .lib [97]) = .ok [] := by
  have hrec : (ManifestFile.io .lib .digit).recover ⟨[0], 0⟩ = .error (.runtimeError
      "Corrupted manifest: incomplete length header at EOF") := by decide +kernel
  have hopen : LsmStorageInner.open .lib (ManifestFile.io .lib .digit) tornDirectory {} =
      .ok ⟨LsmStorageState.create {}, 1, {}, false, tornDirectory⟩ := by
    rw [LsmStorageInner.open]
    dsimp only [tornDirectory]
    rw [hrec]
  constructor
  · intro hnever
    obtain ⟨-, hkeeps⟩ := hnever _ hopen
    obtain ⟨c, hrun, hc⟩ : ∃ c : Machine ManifestFile Unit,
        Steps (Machine.step .lib (ManifestFile.io .lib .digit)) (fun _ _ => True)
          ⟨⟨LsmStorageState.create {}, 1, {}, false, tornDirectory⟩, fun _ => none⟩
          [.put [98] [50], .freeze, .flush] c ∧
        decide (c.store.disk.ssts 0 ≠ tornDirectory.ssts 0) = true :=
      Steps.of_exec (p := fun _ _ => true) (fun _ _ _ => trivial) (by decide +kernel)
    obtain ⟨hssts, -⟩ := hkeeps _ c hrun
    exact of_decide_eq_true hc (hssts 0 _ rfl)
  · rw [hopen]
    decide +kernel

end MiniLsm
