import MiniLsm.Replay
import MiniLsm.Runs

/-!
# The records of a run

What the steps of a machine add to a manifest that keeps its records. A freeze adds the new
memtable, a flush the table it has written, and the end of a compaction its task with the new
tables; no step adds more than one record (`Machine.step_records`).
-/

namespace MiniLsm

namespace LsmStorageInner

variable {M : Type}

/-- The records in the manifest of a store. -/
def records (log : M → List ManifestRecord) (s : LsmStorageInner M) : List ManifestRecord :=
  (s.disk.manifest.map log).getD []

/-- The store has a manifest, and the pointer to it is set. -/
structure Journaled (s : LsmStorageInner M) : Prop where
  manifest : s.manifest = true
  isSome : s.disk.manifest.isSome = true

variable {E : Extern} {io : ManifestIO M} {log : M → List ManifestRecord} {s : LsmStorageInner M}

/-- Other changes keep the manifest. -/
theorem Journaled.congr {s' : LsmStorageInner M} (h : s.Journaled) (hm : s'.manifest = s.manifest)
    (hd : s'.disk.manifest = s.disk.manifest) : s'.Journaled :=
  ⟨by rw [hm, h.manifest], by rw [hd, h.isSome]⟩

/-- What is recovered depends on the manifest only. -/
theorem records_congr {s' : LsmStorageInner M} (hd : s'.disk.manifest = s.disk.manifest) :
    s'.records log = s.records log := by
  rw [records, records, hd]

/-- A record that is added comes last. -/
theorem Journaled.addRecord (h : s.Journaled) (hio : io.Lawful log) (r : ManifestRecord) :
    (s.addRecord io r).Journaled ∧ (s.addRecord io r).records log = s.records log ++ [r] := by
  obtain ⟨m, hm⟩ := Option.isSome_iff_exists.mp h.isSome
  have heq : s.addRecord io r =
      { s with disk := { s.disk with manifest := some (io.addRecord m r) } } := by
    rw [LsmStorageInner.addRecord, if_pos h.manifest, hm]
    rfl
  rw [heq]
  refine ⟨⟨h.manifest, rfl⟩, ?_⟩
  rw [records, records, hm]
  exact hio.log_addRecord m r

/-- The same, where the store has changed otherwise before. -/
theorem Journaled.addRecord_congr {s' : LsmStorageInner M} (h : s.Journaled) (hio : io.Lawful log)
    (hm : s'.manifest = s.manifest) (hd : s'.disk.manifest = s.disk.manifest) (r : ManifestRecord) :
    (s'.addRecord io r).Journaled ∧ (s'.addRecord io r).records log = s.records log ++ [r] := by
  rw [← records_congr hd]
  exact (h.congr hm hd).addRecord hio r

/-- A write adds no record. -/
theorem Journaled.write (h : s.Journaled) (key value : Bytes) : (s.write E key value).Journaled :=
  h.congr rfl rfl

/-- A freeze adds the record of its memtable. -/
theorem Journaled.freeze (h : s.Journaled) (hio : io.Lawful log) :
    (s.forceFreezeMemtable io).Journaled ∧
      (s.forceFreezeMemtable io).records log = s.records log ++ [.newMemtable s.next_sst_id] := by
  unfold forceFreezeMemtable
  dsimp only
  refine h.addRecord_congr hio ?_ ?_ _
  · split_ifs <;> rfl
  · split_ifs <;> rfl

/-- A write adds a record if it freezes the memtable. -/
theorem Journaled.put (h : s.Journaled) (hio : io.Lawful log) (key value : Bytes) :
    (s.put E io key value).Journaled ∧
      ((s.put E io key value).records log = s.records log ∨
        (s.put E io key value).records log = s.records log ++ [.newMemtable s.next_sst_id]) := by
  rcases put_eq E io s key value with heq | heq
  · rw [heq]
    exact ⟨h.write key value, .inl rfl⟩
  · rw [heq]
    obtain ⟨hj, hr⟩ := (h.write (E := E) key value).freeze hio
    exact ⟨hj, .inr hr⟩

/-- A flush adds the record of the memtable that it writes, if there is one. -/
theorem Journaled.flush (h : s.Journaled) (hio : io.Lawful log) :
    (s.forceFlushNextImmMemtable E io).2.Journaled ∧
      ((s.forceFlushNextImmMemtable E io).2.records log = s.records log ∨
        ∃ m, s.state.imm_memtables.getLast? = some m ∧
          (s.forceFlushNextImmMemtable E io).2.records log = s.records log ++ [.flush m.id]) := by
  rcases List.eq_nil_or_concat' s.state.imm_memtables with himm | ⟨imm, m, himm⟩
  · rw [flush_of_imm_nil E io himm]
    exact ⟨h, .inl rfl⟩
  · rw [flush_of_imm_concat E io himm, build]
    rcases SsTable.open E m.id _ with e | t
    · exact ⟨h.congr rfl rfl, .inl rfl⟩
    · rw [Outcome.bind_ok]
      dsimp only
      have hlast : s.state.imm_memtables.getLast? = some m := by simp [himm]
      refine (h.addRecord_congr hio ?_ ?_ _).imp_right fun hr => .inr ⟨m, hlast, hr⟩
      · rfl
      · rfl

/-- The end of a compaction, seen from the levels and the manifest: either the controller throws, or
the levels are those that it returns and the task is recorded. -/
theorem applyResult_cases (io : ManifestIO M) (s : LsmStorageInner M) (task : CompactionTask)
    (ts : List SsTable) :
    s.applyResult io task ts = s ∨ ∃ st old,
      CompactionController.applyCompactionResult s.options.compaction_options (s.withTables ts) task
        (ts.map SsTable.id) false = .ok (st, old) ∧
      (s.applyResult io task ts).state.l0_sstables = st.l0_sstables ∧
      (s.applyResult io task ts).state.levels = st.levels ∧
      (s.applyResult io task ts).manifest = s.manifest ∧
      (s.applyResult io task ts).disk.manifest =
        (s.addRecord io (.compaction task (ts.map SsTable.id))).disk.manifest ∧
      (s.applyResult io task ts).disk.wals = s.disk.wals := by
  have hadd : ∀ (st : LsmStorageState) (r : ManifestRecord),
      (addRecord io { s with state := st } r).manifest = s.manifest ∧
        (addRecord io { s with state := st } r).disk.manifest = (s.addRecord io r).disk.manifest ∧
        (addRecord io { s with state := st } r).disk.wals = s.disk.wals := by
    intro st r
    unfold addRecord
    split_ifs <;> exact ⟨rfl, rfl, rfl⟩
  -- A controller that throws leaves the store as it is.
  have htrigger : ∀ task, (s.applyTrigger io task ts).2 = s ∨ ∃ st old,
      CompactionController.applyCompactionResult s.options.compaction_options (s.withTables ts) task
        (ts.map SsTable.id) false = .ok (st, old) ∧
      (s.applyTrigger io task ts).2.state.l0_sstables = st.l0_sstables ∧
      (s.applyTrigger io task ts).2.state.levels = st.levels ∧
      (s.applyTrigger io task ts).2.manifest = s.manifest ∧
      (s.applyTrigger io task ts).2.disk.manifest =
        (s.addRecord io (.compaction task (ts.map SsTable.id))).disk.manifest ∧
      (s.applyTrigger io task ts).2.disk.wals = s.disk.wals := by
    intro task
    rw [applyTrigger, ← withTables]
    dsimp only
    rcases hres : CompactionController.applyCompactionResult s.options.compaction_options
      (s.withTables ts) task (ts.map SsTable.id) false with e | ⟨st, old⟩
    · exact .inl rfl
    · refine .inr ⟨st, old, rfl, ?_⟩
      rw [Outcome.bind_ok]
      dsimp only [removeSsts]
      rw [addRecord_state]
      exact ⟨rfl, rfl, hadd _ _⟩
  cases task with
  | forceFull t =>
    refine .inr ⟨_, _, rfl, ?_⟩
    simp only [applyResult, applyFull, removeSsts, addRecord_state]
    exact ⟨rfl, rfl, hadd _ _⟩
  | leveled t => exact htrigger _
  | tiered t => exact htrigger _
  | simple t => exact htrigger _

/-- The last step of a compaction adds its record, unless it throws. -/
theorem Journaled.applyResult (h : s.Journaled) (hio : io.Lawful log) (task : CompactionTask)
    (ts : List SsTable) :
    (s.applyResult io task ts).Journaled ∧
      ((s.applyResult io task ts).records log = s.records log ∨
        (s.applyResult io task ts).records log =
          s.records log ++ [.compaction task (ts.map SsTable.id)]) := by
  rcases applyResult_cases io s task ts with heq | ⟨st, old, -, -, -, hm, hd, -⟩
  · rw [heq]
    exact ⟨h, .inl rfl⟩
  · obtain ⟨hj, hr⟩ := h.addRecord hio (.compaction task (ts.map SsTable.id))
    refine ⟨⟨hm.trans h.manifest, by rw [hd, hj.isSome]⟩, .inr ?_⟩
    rw [← hr, records, records, hd]

/-- The manifest of a fresh store. -/
theorem openFresh_journaled (hio : io.Lawful log) (disk : Disk M) (options : LsmStorageOptions) :
    (openFresh io disk options).Journaled ∧
      (openFresh io disk options).records log = [.newMemtable 0] := by
  unfold openFresh
  dsimp only
  have hstart : ∀ s : LsmStorageInner M, (LsmStorageInner.mk s.state s.next_sst_id s.options true
      { s.disk with manifest := some io.create }).Journaled ∧
      records log (LsmStorageInner.mk s.state s.next_sst_id s.options true
        { s.disk with manifest := some io.create }) = [] :=
    fun s => ⟨⟨rfl, rfl⟩, hio.log_create⟩
  rcases hw : options.enable_wal with _ | _
  · obtain ⟨hj, hr⟩ := hstart ⟨LsmStorageState.create options, 1, options, false, disk⟩
    obtain ⟨hj', hr'⟩ := hj.addRecord hio (.newMemtable 0)
    exact ⟨hj', by rw [hr] at hr'; exact hr'⟩
  · obtain ⟨hj, hr⟩ := hstart { createWal ⟨LsmStorageState.create options, 1, options, false, disk⟩ 0
      with state := { LsmStorageState.create options with memtable := MemTable.createWithWal 0 } }
    obtain ⟨hj', hr'⟩ := hj.addRecord hio (.newMemtable 0)
    exact ⟨hj', by rw [hr] at hr'; exact hr'⟩

end LsmStorageInner

namespace Machine

open LsmStorageInner

variable {M τ : Type} [DecidableEq τ] {E : Extern} {io : ManifestIO M}
  {log : M → List ManifestRecord}

/-- The record that a step may add. -/
inductive Adds (c : Machine M τ) : Op τ → ManifestRecord → Prop
  | put (key value : Bytes) : Adds c (.put key value) (.newMemtable c.store.next_sst_id)
  | del (key : Bytes) : Adds c (.del key) (.newMemtable c.store.next_sst_id)
  | freeze : Adds c .freeze (.newMemtable c.store.next_sst_id)
  | flush {m : MemTable} (h : c.store.state.imm_memtables.getLast? = some m) :
      Adds c .flush (.flush m.id)
  | apply {i : τ} {call : Call} {ts : List SsTable} (hi : c.calls i = some call)
      (hts : call.sstables = some ts) :
      Adds c (.apply i) (.compaction call.task (ts.map SsTable.id))

/-- A step adds at most one record. -/
theorem step_records (hio : io.Lawful log) {c c' : Machine M τ} {op : Op τ}
    (h : c.store.Journaled) (hstep : c.step E io op = some c') :
    c'.store.Journaled ∧ (c'.store.records log = c.store.records log ∨
      ∃ r, c.Adds op r ∧ c'.store.records log = c.store.records log ++ [r]) := by
  cases op with
  | put key value =>
    cases hstep
    obtain ⟨hj, hr⟩ := h.put (E := E) hio key value
    exact ⟨hj, hr.imp_right fun hr => ⟨_, .put key value, hr⟩⟩
  | del key =>
    cases hstep
    obtain ⟨hj, hr⟩ := h.put (E := E) hio key []
    exact ⟨hj, hr.imp_right fun hr => ⟨_, .del key, hr⟩⟩
  | freeze =>
    simp only [Machine.step] at hstep
    split_ifs at hstep
    cases hstep
    obtain ⟨hj, hr⟩ := h.freeze hio
    exact ⟨hj, .inr ⟨_, .freeze, hr⟩⟩
  | flush =>
    cases hstep
    obtain ⟨hj, hr⟩ := h.flush (E := E) hio
    refine ⟨hj, hr.imp_right ?_⟩
    rintro ⟨m, hm, hr⟩
    exact ⟨_, .flush hm, hr⟩
  | trigger i =>
    obtain ⟨-, t, -, rfl⟩ := begin_eq_some hstep
    exact ⟨h, .inl rfl⟩
  | full i =>
    obtain ⟨-, t, -, rfl⟩ := begin_eq_some hstep
    exact ⟨h, .inl rfl⟩
  | compact i =>
    obtain ⟨call, -, -, rfl⟩ := step_compact hstep
    have hw := compact_wrote (E := E) c.store call.task
    exact ⟨h.congr hw.manifest hw.disk_manifest, .inl (records_congr hw.disk_manifest)⟩
  | apply i =>
    obtain ⟨call, ts, hi, hts, rfl⟩ := step_apply hstep
    obtain ⟨hj, hr⟩ := h.applyResult hio call.task ts
    exact ⟨hj, hr.imp_right fun hr => ⟨_, .apply hi hts, hr⟩⟩

end Machine

end MiniLsm
