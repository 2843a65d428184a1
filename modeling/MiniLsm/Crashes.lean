import MiniLsm.Sessions
import MiniLsm.Lib.Segments

/-!
# Crashes

A store with its logs is a segmented log: each memtable is a segment, of which the records in the
log's file are durable and those in its buffer are pending, and the tables are the map underneath
(`Represents`). The steps of a session are steps of the segmented log: a freeze begins a segment, a
flush moves the oldest one into the tables, `sync` passes the newest one on, and a compaction is not
seen (`Simulates.step`).

What holds of segmented logs holds of the store. Without crashes a read returns the value of the
last write, over any number of sessions (`Sessions.get_eq_written`). With crashes, at any step,
it returns a value that has been written, and what a key is read as later is what a single crash
might have left of it (`Sessions.get_candidate`).
-/

namespace MiniLsm

open LsmStorageInner
open SegmentedLog (Event Log Trace Step Candidate lastValue)

/-! ## The values in the tables -/

/-- The state with other memtables. -/
def LsmStorageState.withMemtables (st : LsmStorageState) (m : MemTable) (imm : List MemTable) :
    LsmStorageState := { st with memtable := m, imm_memtables := imm }

/-- The store with other memtables. -/
def LsmStorageInner.withMemtables {M : Type} (s : LsmStorageInner M) (m : MemTable)
    (imm : List MemTable) : LsmStorageInner M := { s with state := s.state.withMemtables m imm }

/-- A compaction does not look at the memtables. -/
theorem CompactionController.applyCompactionResult_withMemtables (options : CompactionOptions)
    (st : LsmStorageState) (task : CompactionTask) (out : List ℕ) (in_recovery : Bool) (m : MemTable)
    (imm : List MemTable) :
    applyCompactionResult options (st.withMemtables m imm) task out in_recovery =
      (applyCompactionResult options st task out in_recovery).map
        fun r => (r.1.withMemtables m imm, r.2) := by
  unfold applyCompactionResult
  split
  case h_2 t _ =>
    rcases hul : t.upper_level with _ | i <;>
      simp [LeveledCompactionController.applyCompactionResult, hul, Except.map,
        LsmStorageState.withMemtables, LsmStorageState.levelIds, LeveledCompactionController.sstLt]
  case h_4 t _ =>
    rcases hul : t.upper_level with _ | i <;>
      simp [SimpleLeveledCompactionController.applyCompactionResult, hul, Except.map,
        LsmStorageState.withMemtables, LsmStorageState.levelIds]
  all_goals rfl

variable {M : Type}

/-- Records do not depend on the memtables. -/
theorem LsmStorageInner.addRecord_withMemtables (io : ManifestIO M) (s : LsmStorageInner M)
    (r : ManifestRecord) (m : MemTable) (imm : List MemTable) :
    (s.withMemtables m imm).addRecord io r = (s.addRecord io r).withMemtables m imm := by
  unfold addRecord withMemtables
  split_ifs <;> rfl

/-- Nor does the last step of a compaction, which keeps them. -/
theorem LsmStorageInner.applyResult_withMemtables (io : ManifestIO M) (s : LsmStorageInner M)
    (task : CompactionTask) (ts : List SsTable) (m : MemTable) (imm : List MemTable) :
    (s.withMemtables m imm).applyResult io task ts =
      (s.applyResult io task ts).withMemtables m imm := by
  have htrigger : ∀ task, ((s.withMemtables m imm).applyTrigger io task ts).2 =
      ((s.applyTrigger io task ts).2).withMemtables m imm := by
    intro task
    have h := CompactionController.applyCompactionResult_withMemtables s.options.compaction_options
      { s.state with sstables := addTables s.state.sstables ts } task (ts.map SsTable.id) false m imm
    rcases hres : CompactionController.applyCompactionResult s.options.compaction_options
      { s.state with sstables := addTables s.state.sstables ts } task (ts.map SsTable.id) false
      with e | ⟨st, old⟩
    all_goals
      rw [hres] at h
      unfold applyTrigger
      dsimp only
      rw [hres]
      erw [h]
    · rfl
    · exact congrArg (fun s => s.removeSsts (old.filter fun id => (st.sstables id).isSome))
        (addRecord_withMemtables io { s with state := { st with
          sstables := fun id => if id ∈ old then none else st.sstables id } } _ m imm)
  cases task with
  | forceFull t =>
    exact congrArg (fun s => s.removeSsts (t.l0_sstables ++ t.l1_sstables))
      (addRecord_withMemtables io { s with state := { s.state with
        sstables := addTables (fun id =>
          if id ∈ t.l0_sstables ∨ id ∈ t.l1_sstables then none else s.state.sstables id) ts
        levels := if s.state.levels.isEmpty then [(1, ts.map SsTable.id)]
          else setLevel s.state.levels 0 (ts.map SsTable.id)
        l0_sstables := s.state.l0_sstables.filter (· ∉ t.l0_sstables) } } _ m imm)
  | simple t => exact htrigger _
  | leveled t => exact htrigger _
  | tiered t => exact htrigger _

/-- What the tables have of a key. -/
noncomputable def LsmStorageState.settled (E : Extern) (st : LsmStorageState) (k : Bytes) : Bytes :=
  firstValue (st.groups.map (st.run E)) k

namespace LsmStorageInner

variable {E : Extern} {io : ManifestIO M} {s s' : LsmStorageInner M}

/-- The tables have what they have had. -/
theorem Inv.SameTables.settled (h : Inv.SameTables s s') :
    s'.state.settled E = s.state.settled E := by
  funext k
  rw [LsmStorageState.settled, LsmStorageState.settled, h.groups,
    List.map_congr_left fun g _ => h.run g]

/-- The store without the writes in its memtables. -/
def bare (s : LsmStorageInner M) : LsmStorageInner M :=
  s.withMemtables { s.state.memtable with map := [] } []

/-- One memtable is left, without its writes. -/
theorem bare_memtables (s : LsmStorageInner M) :
    s.bare.state.memtables = [{ s.state.memtable with map := [] }] := rfl

/-- The tables stay. -/
theorem bare_sameTables (s : LsmStorageInner M) : Inv.SameTables s s.bare :=
  ⟨rfl, rfl, rfl, rfl, fun _ _ => rfl, le_rfl⟩

/-- The memtable is one of the store. -/
theorem bare_memtablesFrom (s : LsmStorageInner M) : MemtablesFrom s s.bare := by
  intro m' hm'
  rw [bare_memtables, List.mem_singleton] at hm'
  exact .inr ⟨s.state.memtable, List.mem_cons_self, by rw [hm']⟩

/-- The invariant does not need the writes. -/
theorem Inv.bare (h : Inv E s) : Inv E s.bare := by
  have hmem : s.state.memtable ∈ s.state.memtables := List.mem_cons_self
  refine h.of_sameTables (bare_sameTables s) ?_ ?_ (fun m hm => by cases hm) ?_ ?_ ?_
  all_goals rw [bare_memtables]
  · exact List.forall_mem_singleton.mpr List.Pairwise.nil
  · exact List.forall_mem_singleton.mpr (by simp)
  · exact List.pairwise_singleton _ _
  · exact List.forall_mem_singleton.mpr (h.mem_ids_disjoint s.state.memtable hmem)
  · exact List.forall_mem_singleton.mpr (h.mem_ids_lt s.state.memtable hmem)

/-- Without memtables, what is read is what the tables have. -/
theorem bare_view (s : LsmStorageInner M) (k : Bytes) :
    s.bare.state.view E k = s.state.settled E k := by
  rw [LsmStorageState.view_eq]
  exact firstValue_congr rfl

/-- A compaction keeps what the tables have. -/
theorem applyResult_settled (io : ManifestIO M) (h : Inv E s) (hsh : s.Shape) {task : CompactionTask}
    {ts : List SsTable} (hp : Pending E s ts) (hf : task.Fits E s.options.compaction_options s.state)
    (hc : (ts.map (SsTable.contents E)).flatten =
      keptEntries task.compactToBottomLevel (s.state.merged E task.groups))
    (hsound : task.Sound s.state) :
    (s.applyResult io task ts).state.settled E = s.state.settled E := by
  have hst := bare_sameTables s
  have hshape : s.bare.Shape := by
    refine hsh.of_sameTables hst fun m' hm' => .inr ?_
    rw [bare_memtables, List.mem_singleton] at hm'
    exact ⟨s.state.memtable, List.mem_cons_self, by rw [hm']⟩
  have hsound' : task.Sound s.bare.state := by
    cases task <;> exact hsound
  obtain ⟨-, -, -, hview⟩ := applyResult_spec io h.bare hshape
    (hp.of_sameTables hst (bare_memtablesFrom s)) (hf.of_sameTables hst) hc
  funext k
  rw [← bare_view s, ← hview hsound' k, bare, applyResult_withMemtables, LsmStorageState.view_eq]
  exact firstValue_congr rfl

end LsmStorageInner

/-! ## Stores as segmented logs -/

/-- A memtable has the writes of a segment. Those in the file of its log are durable, and those in
the buffer are pending. Without a log, none is durable. -/
structure MemTable.Segmented (E : Extern) (enable_wal : Bool) (disk : Disk M) (m : MemTable)
    (seg : SegmentedLog.Segment Bytes Bytes) : Prop where
  map : m.map = MemTable.replay seg.writes
  logged : enable_wal = true → m.Logged E disk seg.durable seg.pending
  volatile : enable_wal = false → seg.durable = []

/-- The memtables are the segments, and the tables are the map underneath. -/
structure LsmStorageInner.Represents (E : Extern) (s : LsmStorageInner M) (a : Log Bytes Bytes) :
    Prop where
  segments : List.Forall₂ (MemTable.Segmented E s.options.enable_wal s.disk) s.state.memtables
    a.segments
  base : a.base = s.state.settled E

/-- A key has the value of its last record. -/
theorem MemTable.lookup_replay (rs : List (Bytes × Bytes)) (k : Bytes) :
    Assoc.lookup k (MemTable.replay rs) = lastValue rs k := by
  induction rs using List.reverseRecOn with
  | nil => rfl
  | append_singleton rs e ih =>
    rw [MemTable.lookup_replay_append, SegmentedLog.lastValue_concat, ih]
    split_ifs <;> rfl

/-- A segment depends on its own log only. -/
theorem MemTable.Segmented.congr {E : Extern} {wal : Bool} {disk disk' : Disk M} {m : MemTable}
    {seg : SegmentedLog.Segment Bytes Bytes} (h : m.Segmented E wal disk seg)
    (hw : disk'.wals m.id = disk.wals m.id) : m.Segmented E wal disk' seg :=
  ⟨h.map, fun hwal => (h.logged hwal).congr hw, h.volatile⟩

/-- The records of a log are those of its file and its buffer. -/
theorem MemTable.Logged.unique {E : Extern} {disk : Disk M} {m : MemTable}
    {durable buffered durable' buffered' : List (Bytes × Bytes)}
    (h : m.Logged E disk durable buffered) (h' : m.Logged E disk durable' buffered') :
    durable = durable' ∧ buffered = buffered' := by
  have hwal := h.wal.symm.trans h'.wal
  have hfile := h.file.symm.trans h'.file
  simp only [Option.some.injEq, Wal.mk.injEq] at hwal hfile
  have hdurable := List.forall_mem_append.mp h.storable
  have hdurable' := List.forall_mem_append.mp h'.storable
  exact ⟨eq_of_frames hdurable.1 hdurable'.1 (.inl rfl) (by rw [List.append_nil, hfile]),
    eq_of_frames hdurable.2 hdurable'.2 (.inl rfl) (by rw [List.append_nil, hwal])⟩

namespace LsmStorageInner.Represents

variable {E : Extern} {io : ManifestIO M} {log : M → List ManifestRecord}
  {s s' : LsmStorageInner M} {a : Log Bytes Bytes}

/-- A read of the store is a read of the segmented log. -/
theorem view (h : s.Represents E a) (k : Bytes) : s.state.view E k = a.value k := by
  rw [LsmStorageState.view_eq, firstValue, List.findSome?_append, Option.getD_or, Log.value, h.base,
    LsmStorageState.settled, firstValue]
  congr 1
  have hseg := h.segments
  generalize s.state.memtables = ms at hseg ⊢
  generalize a.segments = segs at hseg ⊢
  induction hseg with
  | nil => rfl
  | cons hm _ ih => rw [List.map_cons, List.findSome?_cons, List.findSome?_cons, ih, hm.map,
      MemTable.lookup_replay]

/-- A step that keeps the memtables, their logs, and what the tables have. -/
theorem congr (h : s.Represents E a) (hopt : s'.options = s.options)
    (hmems : s'.state.memtables = s.state.memtables)
    (hwals : ∀ m ∈ s.state.memtables, s'.disk.wals m.id = s.disk.wals m.id)
    (hbase : s'.state.settled E = s.state.settled E) : s'.Represents E a := by
  refine ⟨?_, h.base.trans hbase.symm⟩
  rw [hopt, hmems]
  exact ((List.forall₂_and_left _ _).mpr ⟨hwals, h.segments⟩).imp fun _ _ hm => hm.2.congr hm.1

/-- A write goes to the newest segment. -/
theorem write (h : s.Represents E a) {key value : Bytes} (hs : Storable (key, value)) :
    ∃ b, Trace a [.write key value] b ∧ (s.write E key value).Represents E b := by
  obtain ⟨segs, base⟩ := a
  obtain ⟨seg, B, hm, hB, rfl⟩ := List.forall₂_cons_left_iff.mp h.segments
  refine ⟨_, (Step.write seg B base key value).visible, ⟨.cons ⟨?_, fun hwal => ?_, hm.volatile⟩ hB,
    h.base.trans (Inv.sameTables_write s key value).settled.symm⟩⟩
  · rw [SegmentedLog.Segment.writes, ← List.append_assoc, MemTable.replay_append]
    exact congrArg (Assoc.insert key value) hm.map
  · exact (hm.logged hwal).put hs

/-- A freeze begins a segment. -/
theorem freeze (h : s.Represents E a) (io : ManifestIO M) (hinv : Inv E s) :
    ∃ b, Trace a [] b ∧ (s.forceFreezeMemtable io).Represents E b := by
  obtain ⟨segs, base⟩ := a
  refine ⟨_, (Step.rotate segs base).silent, ?_,
    h.base.trans (Inv.sameTables_freeze io s).settled.symm⟩
  have hmems : (s.forceFreezeMemtable io).state.memtables = s.freshMemtable :: s.state.memtables := by
    rw [forceFreezeMemtable_state]
    rfl
  have hwals : ∀ m ∈ s.state.memtables,
      (s.forceFreezeMemtable io).disk.wals m.id = s.disk.wals m.id := fun m hm =>
    Logs.freeze_wals io s (hinv.mem_ids_lt m hm).ne
  rw [hmems, forceFreezeMemtable_options]
  refine .cons ⟨freshMemtable_map s, fun hwal => Logs.freshMemtable_logged hwal io, fun _ => rfl⟩ ?_
  exact ((List.forall₂_and_left _ _).mpr ⟨hwals, h.segments⟩).imp fun _ _ hm => hm.2.congr hm.1

/-- A write is one of the log, perhaps with the beginning of a segment. -/
theorem put (h : s.Represents E a) (io : ManifestIO M) (hinv : Inv E s) {key value : Bytes}
    (hs : Storable (key, value)) :
    ∃ b, Trace a [.write key value] b ∧ (s.put E io key value).Represents E b := by
  obtain ⟨b, hab, hb⟩ := h.write hs
  rcases put_eq E io s key value with heq | heq
  · rw [heq]
    exact ⟨b, hab, hb⟩
  · obtain ⟨c, hbc, hc⟩ := hb.freeze io (hinv.write hs)
    rw [heq]
    exact ⟨c, hab.append hbc, hc⟩

/-- A flush moves the oldest segment into the tables. -/
theorem flush (h : s.Represents E a) (io : ManifestIO M) (hinv : Inv E s)
    (hsmall : (s.forceFlushNextImmMemtable E io).2.disk.Small) :
    ∃ b, Trace a [] b ∧ (s.forceFlushNextImmMemtable E io).2.Represents E b := by
  by_cases himm : s.state.imm_memtables = []
  · rw [flush_of_imm_nil E io himm]
    exact ⟨a, .refl, h⟩
  · obtain ⟨-, m, t, hf⟩ := flush_spec hinv himm hsmall
    obtain ⟨segs, base⟩ := a
    have hsegs := h.segments
    rw [hf.memtables] at hsegs
    obtain ⟨A, B, rfl, hA, hB⟩ := SegmentedLog.forall₂_append_iff.mp hsegs
    obtain ⟨seg, B', hm, hnil, rfl⟩ := List.forall₂_cons_left_iff.mp hB
    obtain rfl := List.forall₂_nil_left_iff.mp hnil
    refine ⟨_, (Step.settle A seg base).silent, ?_, ?_⟩
    · rw [hf.options]
      exact hA.imp fun _ _ hm => hm.congr (by rw [hf.wals])
    · funext k
      have hruns : s.state.groups.map ((s.forceFlushNextImmMemtable E io).2.state.run E) =
          s.state.groups.map (s.state.run E) := by
        refine List.map_congr_left fun g hg => hf.run_of_mem hinv fun id hid => ?_
        exact LsmStorageState.mem_tableIds_iff.mpr ⟨g, hg, hid⟩
      change (lastValue seg.writes k).getD (base k) = _
      rw [LsmStorageState.settled, hf.groups hinv, List.map_cons, hf.run_new, hruns, firstValue,
        List.findSome?_cons, hm.map, MemTable.lookup_replay, show base = _ from h.base]
      rcases lastValue seg.writes k with _ | v <;> rfl

/-- The writing of table files is not seen. -/
theorem wrote (h : s.Represents E a) (hw : Wrote s s') : s'.Represents E a :=
  h.congr hw.options (by rw [hw.state]) (fun _ _ => by rw [hw.wals]) hw.sameTables.settled

/-- `sync` passes the newest segment on. -/
theorem sync (h : s.Represents E a) (hinv : Inv E s) :
    ∃ b, Trace a [] b ∧ s.sync.Represents E b := by
  rcases hwal : s.options.enable_wal with _ | _
  · refine ⟨a, .refl, ?_, h.base.trans (sync_sameTables s).settled.symm⟩
    have hopt : s.sync.options.enable_wal = false := hwal
    obtain ⟨seg, B, hm, hB, hseg⟩ := List.forall₂_cons_left_iff.mp h.segments
    rw [sync_memtables, hseg, hopt]
    rw [hwal] at hm hB
    refine .cons ⟨hm.map, fun hon => (by cases hon), hm.volatile⟩ ?_
    exact hB.imp fun _ _ hm => ⟨hm.map, fun hon => (by cases hon), hm.volatile⟩
  · obtain ⟨segs, base⟩ := a
    obtain ⟨seg, B, hm, hB, rfl⟩ := List.forall₂_cons_left_iff.mp h.segments
    refine ⟨_, (Step.pass [] seg B base).silent, ?_, h.base.trans (sync_sameTables s).settled.symm⟩
    have hopt : s.sync.options.enable_wal = true := hwal
    have hwals : ∀ m ∈ s.state.imm_memtables, s.sync.disk.wals m.id = s.disk.wals m.id :=
      fun m hm => hinv.sync_wals hm
    rw [sync_memtables, hopt]
    rw [hwal] at hm hB
    refine .cons ⟨?_, fun _ => syncedMemtable_logged (hm.logged rfl), fun hoff => by cases hoff⟩ ?_
    · rw [SegmentedLog.Segment.writes, List.append_nil]
      exact hm.map
    · exact ((List.forall₂_and_left _ _).mpr ⟨hwals, hB⟩).imp fun _ _ hm => hm.2.congr hm.1

/-- The store that is opened where `s` has left the records `rs` has a segment for each log with
records, and a new one. -/
theorem reopen (h : s.Represents E a) {r r' : Replay} {rs : ℕ → List (Bytes × Bytes)}
    {disk : Disk M} {t : LsmStorageInner M} (hinv : Inv E s) (hr : s.Replays log r)
    (hkept : s.Kept E r disk rs) (hre : s.Reopened E log r rs t r') :
    ∃ b, Trace ⟨s.state.memtables.map fun m => ⟨rs m.id, []⟩, a.base⟩ [] b ∧ t.Represents E b := by
  -- The memtables of `t` are those of `s` with a record in their log.
  have hids : t.state.imm_memtables.map MemTable.id =
      (s.state.memtables.map MemTable.id).filter fun id => !(rs id).isEmpty := by
    have himm := hre.inv.mem_ids
    rw [show t.state.memtables = t.state.memtable :: t.state.imm_memtables from rfl, List.map_cons,
      List.pairwise_cons] at himm
    refine himm.2.eq_of_mem_iff (hinv.mem_ids.filter _) fun id => ?_
    rw [List.mem_filter, Bool.not_eq_true', ← Bool.not_eq_true, List.isEmpty_iff]
    constructor
    · intro hid
      obtain ⟨m, hm, rfl⟩ := List.mem_map.mp hid
      obtain ⟨hwal, hrec⟩ := hre.imm m hm
      obtain ⟨m₀, hm₀, hid₀⟩ := hkept.live hwal m.id hrec.mem hrec.ne_nil
      exact ⟨List.mem_map.mpr ⟨m₀, hm₀, hid₀⟩, hrec.ne_nil⟩
    · rintro ⟨hid, hne⟩
      obtain ⟨m, hm, rfl⟩ := List.mem_map.mp hid
      rcases hwal : s.options.enable_wal with _ | _
      · exact absurd (hkept.volatile hwal m.id) hne
      · obtain ⟨m', hm', hid'⟩ := hre.found hwal m.id (hr.memtables m hm) hne
        exact List.mem_map.mpr ⟨m', hm', hid'⟩
  have hsegs : (s.state.memtables.map fun m =>
      (⟨rs m.id, []⟩ : SegmentedLog.Segment Bytes Bytes)).filter
        (fun seg => !seg.writes.isEmpty) =
      t.state.imm_memtables.map fun m => ⟨rs m.id, []⟩ := by
    have hmap : ∀ ms : List MemTable, (ms.map fun m =>
        (⟨rs m.id, []⟩ : SegmentedLog.Segment Bytes Bytes)) = (ms.map MemTable.id).map
          fun id => ⟨rs id, []⟩ := fun ms => by rw [List.map_map]; rfl
    rw [hmap, hmap, hids, List.filter_map]
    simp [Function.comp_def, SegmentedLog.Segment.writes]
  have hsst : Inv.SameTables s { s with state := t.state } :=
    ⟨rfl, hre.l0_sstables, hre.levels, hre.sstables, fun _ _ => rfl, le_rfl⟩
  have htrace := (SegmentedLog.trace_drop [] (s.state.memtables.map fun m => ⟨rs m.id, []⟩)
    a.base).append (Step.rotate _ a.base).silent
  rw [List.nil_append, List.nil_append, hsegs] at htrace
  refine ⟨_, htrace, ?_, h.base.trans hsst.settled.symm⟩
  rw [hre.options]
  refine .cons ⟨hre.memtable_map, fun hwal => (hre.logged hwal).1, fun _ => rfl⟩ ?_
  refine List.forall₂_map_right_iff.mpr (List.forall₂_same.mpr fun m hm => ?_)
  obtain ⟨hwal, hrec⟩ := hre.imm m hm
  refine ⟨?_, fun _ => (hre.logged hwal).2 m hm, fun hoff => ?_⟩
  · rw [SegmentedLog.Segment.writes, List.append_nil]
    exact hrec.map
  · rw [hwal] at hoff
    cases hoff

/-- A crash keeps a part of each segment. -/
theorem crash (h : s.Represents E a) {r r' : Replay} {rs : ℕ → List (Bytes × Bytes)}
    {disk : Disk M} {t : LsmStorageInner M} (hinv : Inv E s) (hr : s.Replays log r)
    (hkept : s.Kept E r disk rs) (hre : s.Reopened E log r rs t r') :
    ∃ b, Trace a [.crash] b ∧ t.Represents E b := by
  obtain ⟨b, hab, hb⟩ := h.reopen hinv hr hkept hre
  refine ⟨b, (Step.crash a.base ?_).visible.append hab, hb⟩
  rw [List.forall₂_map_right_iff]
  refine List.Forall₂.flip (((List.forall₂_and_left _ _).mpr
    ⟨fun m hm => hm, h.segments⟩).imp fun m seg hm => ?_)
  obtain ⟨hm, hseg⟩ := hm
  rcases hwal : s.options.enable_wal with _ | _
  · refine ⟨0, ?_⟩
    rw [hkept.volatile hwal, hseg.volatile hwal]
    rfl
  · obtain ⟨durable, buffered, n, hlog, hrs⟩ := hkept.logged hwal m hm
    obtain ⟨rfl, rfl⟩ := hlog.unique (hseg.logged hwal)
    exact ⟨n, by rw [hrs]⟩

/-- Closing a store moves segments into the tables. -/
theorem closed (h : s.Represents E a) (hio : io.Lawful log) {z : LsmStorageInner M} {r : Replay}
    {rs : ℕ → List (Bytes × Bytes)} (hinv : Inv E s) (hsh : s.Shape) (hrec : s.Recoverable E log)
    (hsmall : s.ClosesSmall E io) (hz : s.Closed E io log z r rs) :
    ∃ b, Trace a [] b ∧ z.Represents E b := by
  rw [hz.eq]
  rcases hwal : s.options.enable_wal with _ | _
  · obtain ⟨hinv₁, -⟩ := closing_spec hio hinv hsh hrec
    have hclosing : ∃ b, Trace a [] b ∧ (s.closing io).Represents E b := by
      rw [closing]
      split_ifs
      · exact ⟨a, .refl, h⟩
      · exact h.freeze io hinv
    have hone : ∀ z m t, (Inv E z ∧ ∃ b, Trace a [] b ∧ z.Represents E b) →
        Flushed E z (z.forceFlushNextImmMemtable E io).2 m t →
        (z.forceFlushNextImmMemtable E io).2.disk.Small →
        Inv E (z.forceFlushNextImmMemtable E io).2 ∧
          ∃ b, Trace a [] b ∧ (z.forceFlushNextImmMemtable E io).2.Represents E b := by
      rintro z m t ⟨hinv, b, hab, hb⟩ hf hsmall
      obtain ⟨c, hbc, hc⟩ := hb.flush io hinv hsmall
      exact ⟨hf.inv hinv, c, hab.append hbc, hc⟩
    obtain ⟨-, ⟨-, hb⟩, -⟩ := flushAll_rule
      (P := fun z => Inv E z ∧ ∃ b, Trace a [] b ∧ z.Represents E b) (fun _ hz => hz.1) hone
      ⟨hinv₁, hclosing⟩ rfl (hsmall hwal)
    rw [← close_of_no_wal hwal] at hb
    exact hb
  · exact ⟨a, .refl, h⟩

/-- The next session has all segments. -/
theorem restart (h : s.Represents E a) (hio : io.Lawful log) {z t : LsmStorageInner M}
    {r r' : Replay} {rs : ℕ → List (Bytes × Bytes)} (hinv : Inv E s) (hsh : s.Shape)
    (hrec : s.Recoverable E log) (hsmall : s.ClosesSmall E io) (hz : s.Closed E io log z r rs)
    (hre : z.Reopened E log r rs t r') : ∃ b, Trace a [] b ∧ t.Represents E b := by
  obtain ⟨⟨segs, base⟩, hab, hb⟩ := h.closed hio hinv hsh hrec hsmall hz
  obtain ⟨c, hbc, hc⟩ := hb.reopen hz.inv hz.replays hz.kept hre
  have hwrites : ∀ m ∈ z.state.memtables, ∀ seg, m.Segmented E z.options.enable_wal z.disk seg →
      seg.writes = rs m.id := by
    intro m hm seg hseg
    rcases hwal : z.options.enable_wal with _ | _
    · have hmap := hz.map m hm
      rw [hz.kept.volatile hwal, hseg.map] at hmap
      rw [hz.kept.volatile hwal]
      exact MemTable.replay_eq_nil_iff.mp hmap
    · exact (hz.logged m hm _ _ (hseg.logged hwal)).symm
  have hsegs : segs.map (fun seg => ⟨seg.writes, []⟩) =
      z.state.memtables.map fun m => (⟨rs m.id, []⟩ : SegmentedLog.Segment Bytes Bytes) := by
    have hall : List.Forall₂ Eq (segs.map fun seg => (⟨seg.writes, []⟩ :
        SegmentedLog.Segment Bytes Bytes)) (z.state.memtables.map fun m => ⟨rs m.id, []⟩) := by
      rw [List.forall₂_map_left_iff, List.forall₂_map_right_iff]
      refine List.Forall₂.flip (((List.forall₂_and_left _ _).mpr
        ⟨fun m hm => hm, hb.segments⟩).imp fun m seg hm => ?_)
      exact congrArg (fun ws => (⟨ws, []⟩ : SegmentedLog.Segment Bytes Bytes))
        (hwrites m hm.1 seg hm.2)
    rwa [List.forall₂_eq_eq_eq] at hall
  have hpass := SegmentedLog.trace_pass [] segs base
  rw [List.nil_append, List.nil_append, hsegs] at hpass
  exact ⟨c, hab.append (hpass.append hbc), hc⟩

end LsmStorageInner.Represents

/-! ## Runs -/

/-- What is seen of a step of a session. -/
def SessionStep.events : SessionStep M → List (Event Bytes Bytes)
  | .op (.put key value) => [.write key value]
  | .op (.del key) => [.write key []]
  | .crash (some (key, value)) _ => [.write key value, .crash]
  | .crash none _ => [.crash]
  | _ => []

namespace Sessions

open Machine

variable {E : Extern} {io : ManifestIO M} {log : M → List ManifestRecord}
  {options : LsmStorageOptions} {c c' : Machine M Unit} {a : Log Bytes Bytes}

/-- A machine of a plain controller, as a segmented log. -/
structure Simulates (E : Extern) (log : M → List ManifestRecord) (options : LsmStorageOptions)
    (c : Machine M Unit) (a : Log Bytes Bytes) : Prop where
  session : c.Session E log options
  sound : c.Sound
  represents : c.store.Represents E a

/-- An operation is a step of the segmented log. -/
theorem Simulates.op (h : Simulates E log options c a) {op : Op Unit}
    (hs : op.Storable) (hstep : c.step E io op = some c') (hsmall : c'.store.disk.Small) :
    ∃ b, Trace a (SessionStep.op (M := M) op).events b ∧ c'.store.Represents E b := by
  obtain ⟨hc, hsound, hrep⟩ := h
  have hinv := hc.inv.store
  cases op with
  | put key value =>
    cases hstep
    exact hrep.put io hinv hs
  | del key =>
    cases hstep
    exact hrep.put io hinv hs
  | freeze =>
    simp only [Machine.step] at hstep
    split_ifs at hstep
    cases hstep
    exact hrep.freeze io hinv
  | flush =>
    cases hstep
    exact hrep.flush io hinv hsmall
  | trigger i =>
    obtain ⟨-, t, -, rfl⟩ := begin_eq_some hstep
    -- Choosing a task is not seen by the log, nor are the other steps of a compaction.
    exact ⟨a, .refl, hrep⟩
  | full i =>
    obtain ⟨-, t, -, rfl⟩ := begin_eq_some hstep
    exact ⟨a, .refl, hrep⟩
  | compact i =>
    obtain ⟨call, -, -, rfl⟩ := step_compact hstep
    exact ⟨a, .refl, hrep.wrote (compact_wrote c.store call.task)⟩
  | apply i =>
    obtain ⟨call, ts, hi, hts, rfl⟩ := step_apply hstep
    have hcur := hc.current i call hi
    have hok := hc.inv.calls i call hi hcur
    obtain ⟨hp, hcontents⟩ := hok.written ts hts
    obtain ⟨hopt, -, hmems, -⟩ := applyResult_frame io c.store call.task ts
    have hwals : (c.store.applyResult io call.task ts).disk.wals = c.store.disk.wals := by
      rcases applyResult_cases io c.store call.task ts with heq | ⟨-, -, -, -, -, -, -, hw⟩
      · rw [heq]
      · exact hw
    exact ⟨a, .refl, hrep.congr hopt hmems (fun _ _ => congrFun hwals _) (applyResult_settled io hinv
      hc.inv.shape hp hok.fits hcontents (hsound i call hi hcur))⟩

/-- A step of a session is a step of the segmented log. -/
theorem Simulates.step (h : Simulates E log options c a) (hio : io.Lawful log)
    (hplain : options.compaction_options.Plain) {step : SessionStep M} (hk : c.Keeps E io step)
    (hstep : c.sessionStep E io step = some c') :
    ∃ b, Trace a step.events b ∧ Simulates E log options c' b := by
  have hc := h.session
  have hp : c.store.options.compaction_options.Plain := by rwa [hc.options_eq]
  have hc' : c'.Session E log options := hc.step hio hplain.valid hk
    (fun t ht => (generateTask_sound hp ht).2 t rfl) (fun op _ => hc.appends_of_plain hplain op) hstep
  have hidle : ∀ t : LsmStorageInner M, (⟨t, fun _ => none⟩ : Machine M Unit).Sound := by
    simp [Sound]
  cases step with
  | op op =>
    have hsmall := hk.small op c' rfl hstep
    obtain ⟨b, hab, hb⟩ := h.op (hk.storable op rfl) hstep hsmall
    exact ⟨b, hab, hc', h.sound.step hc.inv hp hstep hsmall, hb⟩
  | sync =>
    cases hstep
    obtain ⟨b, hab, hb⟩ := h.represents.sync hc.inv.store
    exact ⟨b, hab, hc', h.sound.of_levels [] rfl, hb⟩
  | restart =>
    obtain ⟨z, r, rs, t, r', hz, hopen, hre, -, -⟩ := hc.restart hio (hk.closes rfl)
    obtain ⟨b, hab, hb⟩ := h.represents.restart hio hc.inv.store hc.inv.shape hc.recoverable
      (hk.closes rfl) hz hre
    rw [sessionStep] at hstep
    split_ifs at hstep
    obtain rfl := reopen_eq_some hopen hstep
    exact ⟨b, hab, hc', hidle t, hb⟩
  | crash entry disk =>
    have hst : ∀ e, entry = some e → MiniLsm.Storable e := fun e he =>
      hk.entry e disk (by rw [he])
    obtain ⟨r, rs, t, r', hkept, hr, hopen, hre, -⟩ := hc.crash hio hst (hk.killed entry disk rfl)
    obtain rfl := reopen_eq_some hopen hstep
    obtain ⟨hinv, -, -⟩ := hc.within hst
    rcases entry with _ | ⟨key, value⟩
    · obtain ⟨b, hab, hb⟩ := h.represents.crash hinv hr hkept hre
      exact ⟨b, hab, hc', hidle t, hb⟩
    · obtain ⟨b, hab, hb⟩ := h.represents.write (hst _ rfl)
      obtain ⟨d, hbd, hd⟩ := hb.crash hinv hr hkept hre
      exact ⟨d, hab.append hbd, hc', hidle t, hd⟩

/-- A run of sessions is a run of the segmented log. -/
theorem Simulates.steps (h : Simulates E log options c a) (hio : io.Lawful log)
    (hplain : options.compaction_options.Plain) {steps : List (SessionStep M)}
    (hrun : Steps (sessionStep E io) (Keeps E io) c steps c') :
    ∃ b, Trace a (steps.flatMap SessionStep.events) b ∧ Simulates E log options c' b := by
  induction hrun with
  | refl => exact ⟨a, .refl, h⟩
  | snoc _ hk hstep ih =>
    obtain ⟨b, hab, hb⟩ := ih
    obtain ⟨d, hbd, hd⟩ := hb.step hio hplain hk hstep
    refine ⟨d, ?_, hd⟩
    rw [List.flatMap_append, List.flatMap_singleton]
    exact hab.append hbd

/-- A new store is an empty log. -/
theorem Simulates.start (hio : io.Lawful log) (hsize : options.block_size ≤ 65536)
    (hplain : options.compaction_options.Plain) :
    Simulates E log options (Machine.start io options) ⟨[⟨[], []⟩], fun _ => []⟩ := by
  obtain ⟨m, hmems, hid, hmap⟩ := openFresh_memtables io Disk.empty options
  refine ⟨.start hio hsize hplain.valid, by simp [Sound, Machine.start], ?_, ?_⟩
  · rw [Machine.start, hmems, openFresh_options]
    refine .cons ⟨hmap, fun hwal => ?_, fun _ => rfl⟩ .nil
    exact openFresh_logged E io hwal m (by rw [hmems]; exact List.mem_singleton_self m)
  · funext k
    have hview := openFresh_view (E := E) io Disk.empty options k
    rw [LsmStorageState.view_eq, hmems, List.map_singleton, hmap] at hview
    exact hview.symm

/-- A read of the store is a read of the segmented log, and a scan has all of its values. -/
theorem Simulates.get (h : Simulates E log options c a) (k : Bytes) :
    c.store.get E k = .ok (a.value k) := by
  rw [get_spec h.session.inv.store.readable, h.represents.view]

/-- A session with a full compaction, which is synced and crashes, and the one behind it. -/
theorem exists_compactedTables (q : Machine (List ManifestRecord) Unit → Bool)
    (h : ((Machine.start .list withLogs).check .lib .list (fun _ _ => true)
      compactedTables).any q = true) :
    ∃ disk c₁ c₂, Steps (sessionStep .lib .list) (Keeps .lib .list)
        (Machine.start .list withLogs) (compactedTables.map .op) c₁ ∧
      Steps (sessionStep .lib .list) (Keeps .lib .list) c₁
        [.sync, .crash (some ([100], [52])) disk, .restart] c₂ ∧ q c₁ = true := by
  obtain ⟨c₁, h₁, hq⟩ := exists_session q h
  obtain ⟨disk, c₂, h₂⟩ := exists_sessions ManifestIO.list_lawful (by decide) withLogs_plain
    rfl h₁ (show MiniLsm.Storable ([100], [52]) by decide)
  exact ⟨disk, c₁, c₂, h₁, h₂, hq⟩

/-- Every run of sessions of a plain controller, with crashes at any step, is a run of the segmented
log, whose values are those that are read and scanned. -/
theorem refines (hio : io.Lawful log) (hsize : options.block_size ≤ 65536)
    (hplain : options.compaction_options.Plain) {steps : List (SessionStep M)}
    (h : Steps (sessionStep E io) (Keeps E io) (Machine.start io options) steps c) :
    ∃ a, Trace ⟨[⟨[], []⟩], fun _ => []⟩ (steps.flatMap SessionStep.events) a ∧
      (∀ k, c.store.get E k = .ok (a.value k)) ∧
      ∀ lower upper, ∃ it l, c.store.scan E lower upper = .ok it ∧ Cursor.Yields it l ∧
        (l.map Prod.fst).Pairwise (· < ·) ∧
        ∀ k v, (k, v) ∈ l ↔ lower.above k = true ∧ upper.below k = true ∧ a.value k = v ∧ v ≠ [] := by
  obtain ⟨a, ha, hsim⟩ := (Simulates.start hio hsize hplain).steps hio hplain h
  refine ⟨a, ha, hsim.get, fun lower upper => ?_⟩
  obtain ⟨it, hit, l, hy, hs, hmem⟩ := scan_spec hsim.session.inv.store.readable lower upper
  refine ⟨it, l, hit, hy, List.pairwise_map.mpr hs, fun k v => ?_⟩
  rw [hmem, hsim.represents.view]

/-- The compaction and the crash are not seen in the values. -/
theorem refines_compacted :
    ∃ (disk : Disk (List ManifestRecord)) (c : Machine (List ManifestRecord) Unit)
      (a : Log Bytes Bytes),
      Steps (sessionStep .lib .list) (Keeps .lib .list) (Machine.start .list withLogs)
        (compactedTables.map .op ++ [.sync, .crash (some ([100], [52])) disk, .restart]) c ∧
      ∀ k, c.store.get .lib k = .ok (a.value k) := by
  obtain ⟨disk, c₁, c₂, h₁, h₂, -⟩ := exists_compactedTables (fun _ => true) (by decide +kernel)
  obtain ⟨a, -, hget, -⟩ := refines ManifestIO.list_lawful (by decide) withLogs_plain
    (h₁.append h₂)
  exact ⟨disk, c₂, a, h₁.append h₂, hget⟩

/-- The operations of a run of sessions. -/
def ops (steps : List (SessionStep M)) : List (Op Unit) :=
  steps.filterMap fun | .op op => some op | _ => none

/-- No step is a crash. -/
def NoCrash (steps : List (SessionStep M)) : Prop := ∀ entry disk, .crash entry disk ∉ steps

/-- What is seen of a run without a crash is what its operations write. -/
theorem written_events {steps : List (SessionStep M)} (h : NoCrash steps) (k : Bytes) :
    .crash ∉ steps.flatMap SessionStep.events ∧
      (SegmentedLog.written (steps.flatMap SessionStep.events) k).getD [] =
        lastWrite (ops steps) k := by
  induction steps using List.reverseRecOn with
  | nil => exact ⟨by simp, rfl⟩
  | append_singleton steps step ih =>
    obtain ⟨hno, hvalue⟩ := ih fun entry disk hmem => h entry disk (List.mem_append_left _ hmem)
    have hwrite : ∀ key value : Bytes,
        (SegmentedLog.written (steps.flatMap SessionStep.events ++ [.write key value]) k).getD [] =
          (if key = k then some value else none).getD (lastWrite (ops steps) k) := by
      intro key value
      rw [SegmentedLog.written_concat _ _ fun _ => [], SegmentedLog.update, ← hvalue]
      split_ifs <;> rfl
    rw [List.flatMap_append, List.flatMap_singleton, ops, List.filterMap_append, ← ops]
    cases step with
    | op op =>
      rw [List.filterMap_cons, List.filterMap_nil, lastWrite_concat]
      cases op with
      | put key value => exact ⟨by simp [hno, SessionStep.events], hwrite key value⟩
      | del key => exact ⟨by simp [hno, SessionStep.events], hwrite key []⟩
      | _ => exact ⟨by simpa [SessionStep.events] using hno,
          by simpa [SessionStep.events, Op.written] using hvalue⟩
    | crash entry disk =>
      exact absurd (List.mem_append_right _ (List.mem_singleton_self _)) (h entry disk)
    | sync => exact ⟨by simpa [SessionStep.events] using hno,
        by simpa [SessionStep.events] using hvalue⟩
    | restart => exact ⟨by simpa [SessionStep.events] using hno,
        by simpa [SessionStep.events] using hvalue⟩

/-- Without a crash, a read returns the last value written to its key, over any number of sessions.
-/
theorem get_eq_written (hio : io.Lawful log) (hsize : options.block_size ≤ 65536)
    (hplain : options.compaction_options.Plain) {steps : List (SessionStep M)}
    (h : Steps (sessionStep E io) (Keeps E io) (Machine.start io options) steps c)
    (hno : NoCrash steps) (k : Bytes) : c.store.get E k = .ok (lastWrite (ops steps) k) := by
  obtain ⟨a, ha, hsim⟩ := (Simulates.start hio hsize hplain).steps hio hplain h
  obtain ⟨hcrash, hwritten⟩ := written_events hno k
  rw [hsim.get, ha.value_eq hcrash, ← hwritten]
  rfl

/-- The last value is read from the table that was compacted. -/
theorem get_eq_written_compacted :
    ∃ c : Machine (List ManifestRecord) Unit,
      Steps (sessionStep .lib .list) (Keeps .lib .list) (Machine.start .list withLogs)
        (compactedTables.map .op ++ [.sync]) c ∧ c.store.get .lib [97] = .ok [50] := by
  obtain ⟨-, c₁, -, h₁, -, -⟩ := exists_compactedTables (fun _ => true) (by decide +kernel)
  have h := h₁.snoc .sync rfl
  refine ⟨_, h, get_eq_written ManifestIO.list_lawful (by decide) withLogs_plain h ?_ [97]⟩
  intro entry disk hmem
  simp at hmem

/-! ### What a crash may leave -/

/-- What a crash leaves of the segments, as records by the identifiers of the memtables. -/
theorem exists_records {disk : Disk M} {ms : List MemTable}
    {A B : List (SegmentedLog.Segment Bytes Bytes)} (hnd : (ms.map MemTable.id).Nodup)
    (hA : List.Forall₂ (MemTable.Segmented E true disk) ms A)
    (hB : List.Forall₂ SegmentedLog.Segment.Survives A B) :
    ∃ rs : ℕ → List (Bytes × Bytes), B = ms.map (fun m => ⟨rs m.id, []⟩) ∧
      ∀ m ∈ ms, ∃ durable buffered n, m.Logged E disk durable buffered ∧
        rs m.id = durable ++ buffered.take n := by
  induction hA generalizing B with
  | nil => exact ⟨fun _ => [], List.forall₂_nil_left_iff.mp hB, by simp⟩
  | @cons m seg ms A hseg _ ih =>
    obtain ⟨seg', B', ⟨n, rfl⟩, hB', rfl⟩ := List.forall₂_cons_left_iff.mp hB
    rw [List.map_cons, List.nodup_cons] at hnd
    obtain ⟨rs, rfl, hrs⟩ := ih hnd.2 hB'
    have hne : ∀ m' ∈ ms, m'.id ≠ m.id := fun m' hm' heq =>
      hnd.1 (heq ▸ List.mem_map_of_mem hm')
    refine ⟨Function.update rs m.id (seg.durable ++ seg.pending.take n), ?_, ?_⟩
    · rw [List.map_cons, Function.update_self]
      refine congrArg (List.cons _) (List.map_congr_left fun m' hm' => ?_)
      rw [Function.update_of_ne (hne m' hm')]
    · rw [List.forall_mem_cons, Function.update_self]
      refine ⟨⟨_, _, n, hseg.logged rfl, rfl⟩, fun m' hm' => ?_⟩
      rw [Function.update_of_ne (hne m' hm')]
      exact hrs m' hm'

/-- The directory with the logs of the memtables cut to the records `rs`. -/
def cutLogs (E : Extern) (s : LsmStorageInner M)
    (rs : ℕ → List (Bytes × Bytes)) : Disk M :=
  { s.disk with
    wals := fun id =>
      if id ∈ s.state.memtables.map MemTable.id then some (Wal.frames E (rs id))
      else s.disk.wals id }

/-- Each log is cut to its own records. -/
theorem cutLogs_wals {s : LsmStorageInner M} (rs : ℕ → List (Bytes × Bytes)) {m : MemTable}
    (hm : m ∈ s.state.memtables) : (cutLogs E s rs).wals m.id = some (Wal.frames E (rs m.id)) :=
  if_pos (List.mem_map_of_mem hm)

/-- A crash may cut the logs anywhere in what has not been passed on. -/
theorem cutLogs_killed {s : LsmStorageInner M} {rs : ℕ → List (Bytes × Bytes)}
    (hrs : ∀ m ∈ s.state.memtables, ∃ durable buffered n, m.Logged E s.disk durable buffered ∧
      rs m.id = durable ++ buffered.take n) : s.Killed (cutLogs E s rs) := by
  refine ⟨⟨rfl, fun _ _ => rfl, fun m hm w hw => ?_⟩, fun id _ hno => if_neg fun hid => ?_⟩
  · obtain ⟨durable, buffered, n, hlog, heq⟩ := hrs m hm
    have hbuf : w.buffered = Wal.frames E (buffered.take n) ++ Wal.frames E (buffered.drop n) := by
      have := hw.symm.trans hlog.wal
      cases this
      rw [← Wal.frames_append, List.take_append_drop]
    refine ⟨(Wal.frames E (buffered.take n)).length, ?_⟩
    rw [cutLogs_wals rs hm, hlog.file, heq, hbuf, Option.map_some, Wal.frames_append, List.take_left]
  · obtain ⟨m, hm, heq⟩ := List.mem_map.mp hid
    exact hno m hm heq

/-- With logs, every candidate for the value of a key is what a crash leaves of it. -/
theorem Simulates.exists_crash (h : Simulates E log options c a) (hio : io.Lawful log)
    (hwal : options.enable_wal = true) {k v : Bytes} (hv : Candidate a k v) :
    ∃ disk t, c.store.Killed disk ∧ LsmStorageInner.open E io disk options = .ok t ∧
      t.get E k = .ok v := by
  have hinv := h.session.inv.store
  have hopt := h.session.options_eq
  have hsegs := h.represents.segments
  rw [hopt, hwal] at hsegs
  obtain ⟨B, hB, rfl⟩ := hv
  obtain ⟨rs, rfl, hrs⟩ := exists_records (hinv.mem_ids.imp ne_of_gt) hsegs hB
  have hkilled : (c.store.within E none).Killed (cutLogs E c.store rs) := cutLogs_killed hrs
  obtain ⟨r, rs', t, r', hkept, hr, hopen, hre, ht⟩ := h.session.crash hio (by simp) hkilled
  rw [hopt] at hopen
  obtain ⟨b, hab, hb⟩ := h.represents.reopen hinv hr hkept hre
  refine ⟨_, t, hkilled, hopen, ?_⟩
  -- The log of each memtable has been cut to these records.
  have heq : c.store.state.memtables.map (fun m =>
      (⟨rs' m.id, []⟩ : SegmentedLog.Segment Bytes Bytes)) =
        c.store.state.memtables.map fun m => ⟨rs m.id, []⟩ := by
    refine List.map_congr_left fun m hm => ?_
    have hon : c.store.options.enable_wal = true := by rw [hopt, hwal]
    obtain ⟨torn, htorn, hlog⟩ := hkept.logs hon m.id (hr.memtables m hm)
    obtain ⟨durable, buffered, n, hlogged, hcut⟩ := hrs m hm
    rw [cutLogs_wals rs hm, Option.getD_some] at hlog
    rw [eq_of_frames (hkept.storable hon m.id (hr.memtables m hm)) (fun e he => ?_) htorn hlog.symm]
    rw [hcut] at he
    refine hlogged.storable e ((List.mem_append.mp he).elim (List.mem_append_left _) fun he => ?_)
    exact List.mem_append_right _ (List.mem_of_mem_take he)
  rw [heq] at hab
  have hvalue := congrFun (hab.value_eq (by simp)) k
  rw [get_spec ht.inv.store.readable, hb.view, hvalue]
  rfl

/-- With logs, what a key is read as, after any number of sessions and crashes, has been written to
it since, or it is what a crash at the beginning might have left. -/
theorem get_candidate (hio : io.Lawful log) (hsize : options.block_size ≤ 65536)
    (hplain : options.compaction_options.Plain) (hwal : options.enable_wal = true)
    {steps₁ steps₂ : List (SessionStep M)} {c₁ c₂ : Machine M Unit}
    (h₁ : Steps (sessionStep E io) (Keeps E io) (Machine.start io options) steps₁ c₁)
    (h₂ : Steps (sessionStep E io) (Keeps E io) c₁ steps₂ c₂) (k : Bytes) :
    ∃ v, c₂.store.get E k = .ok v ∧ (.write k v ∈ steps₂.flatMap SessionStep.events ∨
      ∃ disk t, c₁.store.Killed disk ∧ LsmStorageInner.open E io disk options = .ok t ∧
        t.get E k = .ok v) := by
  obtain ⟨a₁, -, hsim₁⟩ := (Simulates.start hio hsize hplain).steps hio hplain h₁
  obtain ⟨a₂, ha₂, hsim₂⟩ := hsim₁.steps hio hplain h₂
  refine ⟨a₂.value k, hsim₂.get k, ?_⟩
  exact (ha₂.candidate (SegmentedLog.candidate_value a₂ k)).imp_right fun hv =>
    hsim₁.exists_crash hio hwal hv

/-- The key that was synced has the value that one crash leaves. -/
theorem get_candidate_compacted :
    ∃ (disk : Disk (List ManifestRecord)) (c₁ c₂ : Machine (List ManifestRecord) Unit),
      Steps (sessionStep .lib .list) (Keeps .lib .list) c₁
        [.sync, .crash (some ([100], [52])) disk, .restart] c₂ ∧
      ∃ v, c₂.store.get .lib [99] = .ok v ∧ ∃ disk t, c₁.store.Killed disk ∧
        LsmStorageInner.open .lib .list disk withLogs = .ok t ∧
        t.get .lib [99] = .ok v := by
  obtain ⟨disk, c₁, c₂, h₁, h₂, -⟩ := exists_compactedTables (fun _ => true) (by decide +kernel)
  obtain ⟨v, hv, hcase⟩ := get_candidate ManifestIO.list_lawful (by decide)
    withLogs_plain rfl h₁ h₂ [99]
  exact ⟨disk, c₁, c₂, h₂, v, hv, hcase.resolve_left (by simp [SessionStep.events])⟩

end Sessions

/-- No write of the key would be lost in a crash: the buffers of the logs have no record of it, or
there are no logs and it is in no memtable. -/
def LsmStorageInner.Secured (E : Extern) (s : LsmStorageInner M) (k : Bytes) : Prop :=
  ∀ m ∈ s.state.memtables, ∀ e ∈ if s.options.enable_wal then m.bufferedRecords E else m.map,
    e.1 ≠ k

/-- Whether a key is secured can be computed. -/
instance (E : Extern) (s : LsmStorageInner M) (k : Bytes) : Decidable (s.Secured E k) :=
  inferInstanceAs (Decidable (∀ m ∈ s.state.memtables,
    ∀ e ∈ if s.options.enable_wal then m.bufferedRecords E else m.map, e.1 ≠ k))

/-- Of such a key no write is pending. -/
theorem LsmStorageInner.Represents.pending_ne {E : Extern} {s : LsmStorageInner M}
    {a : Log Bytes Bytes} (h : s.Represents E a) {k : Bytes} (hk : s.Secured E k) :
    ∀ seg ∈ a.segments, ∀ e ∈ seg.pending, e.1 ≠ k := by
  have hboth := (List.forall₂_and_left _ _).mpr ⟨hk, h.segments⟩
  refine SegmentedLog.forall_mem_of_forall₂ (hboth.imp fun m seg hm => ?_)
  obtain ⟨hk, hseg⟩ := hm
  rcases hwal : s.options.enable_wal with _ | _
  · -- Without logs, all writes of the memtable are pending.
    rw [if_neg (by simp [hwal]), hseg.map, SegmentedLog.Segment.writes, hseg.volatile hwal,
      List.nil_append] at hk
    rw [← SegmentedLog.lastValue_eq_none_iff, ← MemTable.lookup_replay, Assoc.lookup_eq_none_iff]
    exact hk
  · rwa [if_pos hwal, (hseg.logged hwal).bufferedRecords_eq] at hk

namespace Sessions

open Machine

variable {E : Extern} {io : ManifestIO M} {log : M → List ManifestRecord}
  {options : LsmStorageOptions} {c : Machine M Unit}

/-- A key of which a crash can lose no write keeps its value, over any number of sessions and
crashes, until it is written again. -/
theorem get_eq_of_secured (hio : io.Lawful log) (hsize : options.block_size ≤ 65536)
    (hplain : options.compaction_options.Plain) {steps₁ steps₂ : List (SessionStep M)}
    {c₁ c₂ : Machine M Unit}
    (h₁ : Steps (sessionStep E io) (Keeps E io) (Machine.start io options) steps₁ c₁)
    (h₂ : Steps (sessionStep E io) (Keeps E io) c₁ steps₂ c₂) {k : Bytes}
    (hk : c₁.store.Secured E k) (hno : ∀ v, .write k v ∉ steps₂.flatMap SessionStep.events) :
    c₂.store.get E k = c₁.store.get E k := by
  obtain ⟨a₁, -, hsim₁⟩ := (Simulates.start hio hsize hplain).steps hio hplain h₁
  obtain ⟨a₂, ha₂, hsim₂⟩ := hsim₁.steps hio hplain h₂
  rw [hsim₂.get, hsim₁.get, ha₂.value_eq_of_durable hno (hsim₁.represents.pending_ne hk)]

/-- A key in a table is secured. -/
theorem get_eq_of_secured_compacted :
    ∃ (disk : Disk (List ManifestRecord)) (c₁ c₂ : Machine (List ManifestRecord) Unit),
      c₁.store.get .lib [97] = .ok [50] ∧
      Steps (sessionStep .lib .list) (Keeps .lib .list) c₁
        [.sync, .crash (some ([100], [52])) disk, .restart] c₂ ∧
      c₂.store.get .lib [97] = .ok [50] := by
  obtain ⟨disk, c₁, c₂, h₁, h₂, hq⟩ := exists_compactedTables
    (fun c => decide (c.store.get .lib [97] = .ok [50]) && decide (c.store.Secured .lib [97]))
    (by decide +kernel)
  rw [Bool.and_eq_true, decide_eq_true_eq, decide_eq_true_eq] at hq
  refine ⟨disk, c₁, c₂, hq.1, h₂, ?_⟩
  rw [← hq.1]
  exact get_eq_of_secured ManifestIO.list_lawful (by decide) withLogs_plain h₁ h₂
    hq.2 (by simp [SessionStep.events])

/-- Wherever a process ends, the next one opens its directory and finds the tables of the store in
the same order. Each memtable that it recovers has the first writes of a memtable of the store,
among them all that had been passed on. -/
theorem crash_open (hio : io.Lawful log) (hsize : options.block_size ≤ 65536)
    (hplain : options.compaction_options.Plain) {steps : List (SessionStep M)}
    (h : Steps (sessionStep E io) (Keeps E io) (Machine.start io options) steps c) {disk : Disk M}
    (hk : c.store.Killed disk) :
    ∃ t, LsmStorageInner.open E io disk options = .ok t ∧
      t.state.l0_sstables = c.store.state.l0_sstables ∧ t.state.levels = c.store.state.levels ∧
      t.state.sstables = c.store.state.sstables ∧ t.state.memtable.map = [] ∧
      ∀ m ∈ t.state.imm_memtables, ∃ m₀ ∈ c.store.state.memtables, ∃ durable buffered n,
        m.id = m₀.id ∧ m₀.Logged E c.store.disk durable buffered ∧
        m.map = MemTable.replay (durable ++ buffered.take n) := by
  have hc := Session.of_steps hio hsize hplain h
  have hkilled : (c.store.within E none).Killed disk := hk
  obtain ⟨r, rs, t, r', hkept, hr, hopen, hre, -⟩ := hc.crash hio (by simp) hkilled
  rw [hc.options_eq] at hopen
  refine ⟨t, hopen, hre.l0_sstables, hre.levels, hre.sstables, hre.memtable_map, fun m hm => ?_⟩
  obtain ⟨hwal, hrec⟩ := hre.imm m hm
  obtain ⟨m₀, hm₀, hid⟩ := hkept.live hwal m.id hrec.mem hrec.ne_nil
  obtain ⟨durable, buffered, n, hlog, hrs⟩ := hkept.logged hwal m₀ hm₀
  exact ⟨m₀, hm₀, durable, buffered, n, hid.symm, hlog, by rw [hrec.map, ← hid, hrs]⟩

/-- The directory of a store with a compacted table is opened. -/
theorem crash_open_compacted :
    ∃ (c : Machine (List ManifestRecord) Unit) (t : LsmStorageInner (List ManifestRecord)),
      Steps (sessionStep .lib .list) (Keeps .lib .list) (Machine.start .list withLogs)
        (compactedTables.map .op) c ∧
      LsmStorageInner.open .lib .list c.store.disk withLogs = .ok t ∧
      t.state.levels = [(1, [3])] := by
  obtain ⟨-, c, -, h, -, hlev⟩ := exists_compactedTables
    (fun c => decide (c.store.state.levels = [(1, [3])])) (by decide +kernel)
  obtain ⟨t, hopen, -, heq, -⟩ := crash_open ManifestIO.list_lawful (by decide) withLogs_plain h
    (killed_self c.store)
  exact ⟨c, t, h, hopen, heq.trans (of_decide_eq_true hlev)⟩

end Sessions

end MiniLsm
