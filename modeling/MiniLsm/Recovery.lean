import MiniLsm.Durability
import MiniLsm.Journal
import MiniLsm.Reads
import MiniLsm.WalSpec
import MiniLsm.Lib.Steps

/-!
# Recovery

A store is closed or stops, and is opened again. The replay of the manifest goes through the same
changes of the tables as the store did (`Replays`), and the logs have the writes of the memtables
(`Logs`). What is opened is therefore the store that was left, with the writes that are in its logs
(`open_spec`).

Closing a store, and any number of sessions, are in `Sessions.lean`, crashes in `Sync.lean` and
`Crashes.lean`.
-/

namespace MiniLsm

open LsmStorageInner

/-! ## The replay of a compaction -/

/-- The lower level as `LeveledCompactionController::apply_compaction_result` puts it together,
before it is sorted. -/
def LeveledCompactionTask.unsortedLower (t : LeveledCompactionTask) (st : LsmStorageState)
    (output : List ℕ) : List ℕ :=
  let levels :=
    match t.upper_level with
    | some i => setLevel st.levels (i - 1)
        (removeOnce t.upper_level_sst_ids (st.levelIds (i - 1)))
    | none => st.levels
  removeOnce t.lower_level_sst_ids
    (LsmStorageState.levelIds { st with levels := levels } (t.lower_level - 1)) ++ output

/-- Sorting the lower level changes nothing. -/
def LeveledCompactionTask.InPlace (t : LeveledCompactionTask) (st : LsmStorageState)
    (output : List ℕ) : Prop :=
  (t.unsortedLower st output).Pairwise fun x y =>
    LeveledCompactionController.sstLt st y x = false

/-- The replay of a compaction leads to the same tables as the compaction did. -/
theorem CompactionController.applyCompactionResult_recovery {options : CompactionOptions}
    {st st₁ st' : LsmStorageState} {task : CompactionTask} {out old : List ℕ}
    (h : applyCompactionResult options st task out false = .ok (st', old))
    (hl0 : st₁.l0_sstables = st.l0_sstables) (hlev : st₁.levels = st.levels)
    (hplace : ∀ t, task = .leveled t → t.InPlace st out) :
    ∃ st₁', applyCompactionResult options st₁ task out true = .ok (st₁', old) ∧
      st₁'.l0_sstables = st'.l0_sstables ∧ st₁'.levels = st'.levels := by
  obtain ⟨m₁, imm₁, l0, levels, sst₁⟩ := st₁
  obtain ⟨m, imm, l0', levels', sst⟩ := st
  obtain rfl : l0 = l0' := hl0
  obtain rfl : levels = levels' := hlev
  unfold applyCompactionResult at h
  split at h
  case h_1 t _ =>
    cases h
    exact ⟨_, rfl, rfl, rfl⟩
  -- A leveled compaction sorts the lower level, but not in the recovery: it is sorted already.
  case h_2 t _ =>
    have hsort := (hplace t rfl)
    rw [LeveledCompactionTask.InPlace, LeveledCompactionTask.unsortedLower] at hsort
    rw [Except.ok.injEq] at h
    obtain rfl := (congrArg Prod.fst h).symm
    obtain rfl := (congrArg Prod.snd h).symm
    refine ⟨_, rfl, ?_⟩
    rcases hul : t.upper_level with _ | i
    all_goals
      rw [hul] at hsort
      simp only [LeveledCompactionController.applyCompactionResult, hul, Bool.false_eq_true, if_false,
        if_true]
      refine ⟨trivial, congrArg (setLevel _ _) (Eq.symm (List.Pairwise.insertionSort_eq ?_))⟩
      exact hsort.imp fun h => by simpa using h
  case h_3 t _ =>
    cases h
    exact ⟨_, rfl, rfl, rfl⟩
  -- A simple one looks at the identifiers only.
  case h_4 t _ =>
    rw [Except.ok.injEq] at h
    obtain rfl := (congrArg Prod.fst h).symm
    obtain rfl := (congrArg Prod.snd h).symm
    refine ⟨(SimpleLeveledCompactionController.applyCompactionResult
      ⟨m₁, imm₁, l0, levels, sst₁⟩ t out).1, ?_, ?_⟩
    all_goals
      rcases hul : t.upper_level with _ | i <;>
        simp [applyCompactionResult, SimpleLeveledCompactionController.applyCompactionResult, hul,
          LsmStorageState.levelIds]
  all_goals cases h

/-! ## The manifest and the tables -/

section Replays

variable {M : Type} {E : Extern} {io : ManifestIO M} {log : M → List ManifestRecord}
  {s s' : LsmStorageInner M} {r : Replay}

/-- The replay of the manifest gives the tables of the store, and its memtables are among those that
the replay ends with. -/
structure LsmStorageInner.Replays (log : M → List ManifestRecord) (s : LsmStorageInner M)
    (r : Replay) : Prop where
  journaled : s.Journaled
  replay_eq : replay s.options (s.records log) = .ok r
  l0_sstables : r.state.l0_sstables = s.state.l0_sstables
  levels : r.state.levels = s.state.levels
  memtables : ∀ m ∈ s.state.memtables, m.id ∈ r.memtables
  memtables_lt : ∀ id ∈ r.memtables, id < s.next_sst_id

namespace LsmStorageInner.Replays

/-- A step without a record that keeps the tables. -/
theorem of_sameTables (h : s.Replays log r) (hst : Inv.SameTables s s')
    (hm : s'.manifest = s.manifest) (hd : s'.disk.manifest = s.disk.manifest)
    (hmem : ∀ m' ∈ s'.state.memtables, ∃ m ∈ s.state.memtables, m.id = m'.id) :
    s'.Replays log r where
  journaled := h.journaled.congr hm hd
  replay_eq := by
    rw [hst.options, records_congr hd]
    exact h.replay_eq
  l0_sstables := h.l0_sstables.trans hst.l0_sstables.symm
  levels := h.levels.trans hst.levels.symm
  memtables := by
    intro m' hm'
    obtain ⟨m, hm, hid⟩ := hmem m' hm'
    rw [← hid]
    exact h.memtables m hm
  memtables_lt := fun id hid => (h.memtables_lt id hid).trans_le hst.next_le

/-- A write adds no record. -/
theorem write (h : s.Replays log r) (key value : Bytes) : (s.write E key value).Replays log r := by
  refine h.of_sameTables (Inv.sameTables_write s key value) rfl rfl fun m' hm' => ?_
  rcases List.mem_cons.mp hm' with rfl | hm'
  · exact ⟨s.state.memtable, List.mem_cons_self, rfl⟩
  · exact ⟨m', List.mem_cons_of_mem _ hm', rfl⟩

/-- A step with a record, whose replay leads to the tables of the store. -/
theorem record {r' : Replay} {record : ManifestRecord} (h : s.Replays log r) (hj : s'.Journaled)
    (hopt : s'.options = s.options) (hrec : s'.records log = s.records log ++ [record])
    (hstep : replayRecord s.options.compaction_options r record = .ok r')
    (hl0 : r'.state.l0_sstables = s'.state.l0_sstables) (hlev : r'.state.levels = s'.state.levels)
    (hmem : ∀ m ∈ s'.state.memtables,
      (m.id ∈ r.memtables ∧ record ≠ .flush m.id) ∨ record = .newMemtable m.id)
    (hnext : s.next_sst_id ≤ s'.next_sst_id)
    (hnew : ∀ id, record = .newMemtable id → id < s'.next_sst_id) : s'.Replays log r' where
  journaled := hj
  replay_eq := by
    rw [hopt, hrec, replay_append, h.replay_eq, ok_bind]
    exact hstep
  l0_sstables := hl0
  levels := hlev
  memtables := fun m hm => (mem_memtables_replayRecord hstep).mpr (hmem m hm)
  memtables_lt := by
    intro id hid
    rcases (mem_memtables_replayRecord hstep).mp hid with ⟨hid, -⟩ | hid
    · exact (h.memtables_lt id hid).trans_le hnext
    · exact hnew id hid

/-- A freeze adds the record of the new memtable. -/
theorem freeze (hio : io.Lawful log) (h : s.Replays log r) :
    ∃ r', (s.forceFreezeMemtable io).Replays log r' ∧
      ∀ id ∈ r'.memtables, id ∈ r.memtables ∨ id = s.next_sst_id := by
  obtain ⟨hj, hr⟩ := h.journaled.freeze hio
  have hst := Inv.sameTables_freeze io s
  obtain ⟨r', hr'⟩ : ∃ r', replayRecord s.options.compaction_options r
    (.newMemtable s.next_sst_id) = .ok r' := ⟨_, rfl⟩
  refine ⟨r', h.record hj hst.options hr hr' ?_ ?_ (fun m hm => ?_) hst.next_le ?_, ?_⟩
  · cases hr'
    exact h.l0_sstables.trans hst.l0_sstables.symm
  · cases hr'
    exact h.levels.trans hst.levels.symm
  · rw [forceFreezeMemtable_state] at hm
    rcases List.mem_cons.mp hm with rfl | hm
    · exact .inr (by rw [freshMemtable_id])
    · exact .inl ⟨h.memtables m hm, by simp⟩
  · rintro id hid
    cases hid
    rw [forceFreezeMemtable_next_sst_id]
    exact Nat.lt_succ_self _
  · intro id hid
    rcases (mem_memtables_replayRecord hr').mp hid with ⟨hid, -⟩ | hid
    · exact .inl hid
    · cases hid
      exact .inr rfl

/-- A flush adds the record of its memtable, which is then a table of the state that is replayed. -/
theorem flush (hio : io.Lawful log) (h : s.Replays log r) (hinv : Inv E s) {m : MemTable}
    {t : SsTable} (hok : (s.forceFlushNextImmMemtable E io).1 = .ok ())
    (hf : Flushed E s (s.forceFlushNextImmMemtable E io).2 m t) :
    ∃ r', (s.forceFlushNextImmMemtable E io).2.Replays log r' ∧
      ∀ id, id ∈ r'.memtables ↔ id ∈ r.memtables ∧ id ≠ m.id := by
  -- The record of the flush is the last one of the manifest.
  have hj : (s.forceFlushNextImmMemtable E io).2.Journaled ∧
      (s.forceFlushNextImmMemtable E io).2.records log = s.records log ++ [.flush m.id] := by
    have himm := hf.imm_memtables
    generalize (s.forceFlushNextImmMemtable E io).2.state.imm_memtables = imm at himm
    rw [flush_of_imm_concat E io himm, build] at hok ⊢
    rcases hopen : SsTable.open E m.id _ with e | t
    · rw [hopen] at hok
      cases hok
    · rw [hopen] at hok
      rw [Outcome.bind_ok]
      dsimp only
      refine h.journaled.addRecord_congr hio ?_ ?_ _
      · rfl
      · rfl
  obtain ⟨r', hr'⟩ : ∃ r', replayRecord s.options.compaction_options r (.flush m.id) = .ok r' :=
    ⟨_, rfl⟩
  -- The other memtables have other identifiers, so that the replay keeps them.
  have hids := hinv.mem_ids
  rw [hf.memtables, List.map_append, List.pairwise_append] at hids
  refine ⟨r', h.record hj.1 hf.options hj.2 hr' ?_ ?_ (fun m' hm' => ?_) hf.next_sst_id.ge (by simp),
    fun id => ?_⟩
  · cases hr'
    dsimp only
    rw [hf.l0_sstables]
    split_ifs
    · exact congrArg (List.cons m.id) h.l0_sstables
    · exact h.l0_sstables
  · cases hr'
    dsimp only
    rw [hf.levels]
    split_ifs
    · exact h.levels
    · exact congrArg (List.cons (m.id, [m.id])) h.levels
  · refine .inl ⟨h.memtables m' (by rw [hf.memtables]; exact List.mem_append_left _ hm'), ?_⟩
    have hne := hids.2.2 m'.id (List.mem_map_of_mem hm') m.id (by simp)
    simpa using hne.ne
  · rw [mem_memtables_replayRecord hr']
    simp [eq_comm]

/-- The last step of a compaction adds the record of its task, and the replay applies it. -/
theorem applyResult (hio : io.Lawful log) (h : s.Replays log r) {task : CompactionTask}
    {ts : List SsTable}
    (hplace : ∀ t, task = .leveled t → t.InPlace (s.withTables ts) (ts.map SsTable.id)) :
    ∃ r', (s.applyResult io task ts).Replays log r' ∧ r'.memtables = r.memtables := by
  obtain ⟨hopt, hnext, hmem, -⟩ := applyResult_frame io s task ts
  rcases applyResult_cases io s task ts with heq | ⟨st, old, hres, hl0, hlev, hm, hd, -⟩
  · rw [heq]
    exact ⟨r, h, rfl⟩
  · obtain ⟨st', hst', hl0', hlev'⟩ := CompactionController.applyCompactionResult_recovery
      hres h.l0_sstables h.levels hplace
    obtain ⟨hj, hr⟩ := h.journaled.addRecord hio (.compaction task (ts.map SsTable.id))
    have hr' : replayRecord s.options.compaction_options r (.compaction task (ts.map SsTable.id)) =
        .ok { r with state := st', next_id := (ts.map SsTable.id).foldl max r.next_id } := by
      rw [replayRecord, hst', ok_bind]
    refine ⟨_, h.record ⟨hm.trans h.journaled.manifest, by rw [hd, hj.isSome]⟩ hopt ?_ hr'
      (hl0'.trans hl0.symm) (hlev'.trans hlev.symm) (fun m hm' => ?_) hnext.ge (by simp), rfl⟩
    · rw [← hr, records, records, hd]
    · rw [hmem] at hm'
      exact .inl ⟨h.memtables m hm', by simp⟩

end LsmStorageInner.Replays

end Replays

/-! ## The logs and the memtables -/

/-- The log of a memtable: the records whose frames are in the file, and those whose frames are
still in the buffer. -/
structure MemTable.Logged {M : Type} (E : Extern) (disk : Disk M) (m : MemTable)
    (durable buffered : List (Bytes × Bytes)) : Prop where
  wal : m.wal = some ⟨Wal.frames E buffered⟩
  file : disk.wals m.id = some (Wal.frames E durable)
  storable : ∀ e ∈ durable ++ buffered, Storable e
  map : m.map = MemTable.replay (durable ++ buffered)

/-- The lengths of such an entry fit the fields of a frame. -/
theorem Storable.fits {e : Bytes × Bytes} (h : Storable e) : Wal.Fits e := ⟨h.2.1, h.2.2⟩

section Logs

variable {M : Type} {E : Extern} {io : ManifestIO M} {log : M → List ManifestRecord}
  {s s' : LsmStorageInner M} {r r' : Replay}

/-- Each memtable has a log, and the other logs that are going to be read are empty. -/
structure LsmStorageInner.Logs (E : Extern) (s : LsmStorageInner M) (r : Replay) : Prop where
  logged : ∀ m ∈ s.state.memtables, ∃ durable buffered, m.Logged E s.disk durable buffered
  stale : ∀ id ∈ r.memtables, (∀ m ∈ s.state.memtables, m.id ≠ id) →
    (s.disk.wals id).getD [] = []

/-- A log depends on its own file only. -/
theorem MemTable.Logged.congr {disk disk' : Disk M} {m : MemTable}
    {durable buffered : List (Bytes × Bytes)} (h : m.Logged E disk durable buffered)
    (hw : disk'.wals m.id = disk.wals m.id) : m.Logged E disk' durable buffered :=
  ⟨h.wal, hw.trans h.file, h.storable, h.map⟩

/-- A write is appended to the buffer of the log. -/
theorem MemTable.Logged.put {disk : Disk M} {m : MemTable} {durable buffered : List (Bytes × Bytes)}
    (h : m.Logged E disk durable buffered) {key value : Bytes} (hs : Storable (key, value)) :
    (m.put E key value).Logged E disk durable (buffered ++ [(key, value)]) where
  wal := by
    rw [MemTable.put, h.wal, Wal.frames_append]
    simp [Wal.put, Wal.frames]
  file := h.file
  storable := by
    rw [← List.append_assoc]
    intro e he
    rcases List.mem_append.mp he with he | he
    · exact h.storable e he
    · rw [List.mem_singleton.mp he]
      exact hs
  map := by
    rw [← List.append_assoc, MemTable.replay_append, ← h.map]
    rfl

namespace LsmStorageInner.Logs

/-- A write is appended to the log of the active memtable. -/
theorem write (h : s.Logs E r) {key value : Bytes} (hs : Storable (key, value)) :
    (s.write E key value).Logs E r where
  logged := by
    intro m hm
    rcases List.mem_cons.mp hm with rfl | hm
    · obtain ⟨durable, buffered, hlog⟩ := h.logged s.state.memtable List.mem_cons_self
      exact ⟨durable, _, hlog.put hs⟩
    · exact h.logged m (List.mem_cons_of_mem _ hm)
  stale := by
    intro id hid hno
    refine h.stale id hid fun m hm => ?_
    rcases List.mem_cons.mp hm with rfl | hm
    · exact hno (s.state.memtable.put E key value) List.mem_cons_self
    · exact hno m (List.mem_cons_of_mem _ hm)

/-- The log of the new memtable is empty. -/
theorem freshMemtable_logged (hwal : s.options.enable_wal = true) (io : ManifestIO M) :
    s.freshMemtable.Logged E (s.forceFreezeMemtable io).disk [] [] := by
  refine ⟨?_, ?_, by simp, ?_⟩
  · rw [freshMemtable, if_pos hwal]
    rfl
  · simp [forceFreezeMemtable, hwal, createWal, Wal.frames]
  · rw [freshMemtable_map]
    rfl

/-- A freeze creates the file of the new memtable only. -/
theorem freeze_wals (io : ManifestIO M) (s : LsmStorageInner M) {id : ℕ} (hid : id ≠ s.next_sst_id) :
    (s.forceFreezeMemtable io).disk.wals id = s.disk.wals id := by
  simp only [forceFreezeMemtable, addRecord_wals]
  split_ifs
  · exact Function.update_of_ne hid _ _
  · rfl

/-- A freeze begins a log. -/
theorem freeze (h : s.Logs E r) (hinv : Inv E s) (hwal : s.options.enable_wal = true)
    (hr' : ∀ id ∈ r'.memtables, id ∈ r.memtables ∨ id = s.next_sst_id) :
    (s.forceFreezeMemtable io).Logs E r' := by
  have hmems : (s.forceFreezeMemtable io).state.memtables = s.freshMemtable :: s.state.memtables := by
    rw [forceFreezeMemtable_state]
    rfl
  constructor
  · intro m hm
    rw [hmems] at hm
    rcases List.mem_cons.mp hm with rfl | hm
    · exact ⟨[], [], freshMemtable_logged hwal io⟩
    · obtain ⟨durable, buffered, hlog⟩ := h.logged m hm
      exact ⟨durable, buffered, hlog.congr (freeze_wals io s (hinv.mem_ids_lt m hm).ne)⟩
  · intro id hid hno
    rw [hmems, List.forall_mem_cons, freshMemtable_id] at hno
    rw [freeze_wals io s (Ne.symm hno.1)]
    exact h.stale id ((hr' id hid).resolve_right (Ne.symm hno.1)) hno.2

/-- A flush leaves the file of its log, of which the manifest says that it is done. -/
theorem flush {m : MemTable} {t : SsTable} (h : s.Logs E r) (hf : Flushed E s s' m t)
    (hr' : ∀ id, id ∈ r'.memtables ↔ id ∈ r.memtables ∧ id ≠ m.id) : s'.Logs E r' := by
  constructor
  · intro m' hm'
    obtain ⟨durable, buffered, hlog⟩ := h.logged m'
      (by rw [hf.memtables]; exact List.mem_append_left _ hm')
    exact ⟨durable, buffered, hlog.congr (by rw [hf.wals])⟩
  · intro id hid hno
    obtain ⟨hid, hne⟩ := (hr' id).mp hid
    rw [hf.wals]
    refine h.stale id hid fun m' hm' => ?_
    rw [hf.memtables] at hm'
    rcases List.mem_append.mp hm' with hm' | hm'
    · exact hno m' hm'
    · rw [List.mem_singleton.mp hm']
      exact Ne.symm hne

/-- A step that keeps the memtables and the logs. -/
theorem congr (h : s.Logs E r) (hmem : s'.state.memtables = s.state.memtables)
    (hw : s'.disk.wals = s.disk.wals) (hr' : r'.memtables = r.memtables) : s'.Logs E r' where
  logged := by
    rw [hmem]
    intro m hm
    obtain ⟨durable, buffered, hlog⟩ := h.logged m hm
    exact ⟨durable, buffered, hlog.congr (by rw [hw])⟩
  stale := by
    rw [hmem, hw, hr']
    exact h.stale

end LsmStorageInner.Logs

end Logs

/-! ## A new directory -/

section Fresh

variable {M : Type} {io : ManifestIO M} {log : M → List ManifestRecord}

/-- The manifest of a new store has its memtable. -/
theorem LsmStorageInner.openFresh_replays (hio : io.Lawful log) (options : LsmStorageOptions) :
    ∃ r, (openFresh io Disk.empty options).Replays log r ∧ r.memtables = [0] := by
  obtain ⟨hj, hrec⟩ := openFresh_journaled hio Disk.empty options
  obtain ⟨m, hmems, hid, -⟩ := openFresh_memtables io Disk.empty options
  have hstate := openFresh_state io Disk.empty options
  obtain ⟨r, hr⟩ : ∃ r, replay options [.newMemtable 0] = .ok r := ⟨_, rfl⟩
  refine ⟨r, ⟨hj, by rw [openFresh_options, hrec, hr], ?_, ?_, ?_, ?_⟩, ?_⟩
  all_goals cases hr
  · rw [hstate]
  · rw [hstate]
  · rw [hmems]
    simp [hid]
  · rw [openFresh_next_sst_id]
    simp
  · rfl

/-- The log of a new store is empty. -/
theorem LsmStorageInner.openFresh_logged (E : Extern) (io : ManifestIO M)
    {options : LsmStorageOptions} (hwal : options.enable_wal = true) :
    ∀ m ∈ (openFresh io Disk.empty options).state.memtables,
      m.Logged E (openFresh io Disk.empty options).disk [] [] := by
  have hmems : (openFresh io Disk.empty options).state.memtables = [MemTable.createWithWal 0] := by
    rw [openFresh_state io Disk.empty options, if_pos hwal]
    rfl
  rw [hmems]
  intro m hm
  rw [List.mem_singleton.mp hm]
  refine ⟨rfl, ?_, by simp, rfl⟩
  simp [openFresh, hwal, createWal, MemTable.createWithWal, Wal.frames]

end Fresh

/-! ## The logs that are read -/

section Recovered

variable {M : Type} (E : Extern)

/-- The memtables that are recovered: one for each log that is not empty, the newest first. -/
theorem LsmStorageInner.recoverMemtables_eq (disk : Disk M) {ids : List ℕ} (hnd : ids.Nodup) :
    (recoverMemtables E disk ids).1 = (ids.reverse.map fun id =>
        MemTable.recoverFromWal E id ((disk.wals id).getD [])).filter (fun m => !m.isEmpty) ∧
      (recoverMemtables E disk ids).2.ssts = disk.ssts ∧
      (recoverMemtables E disk ids).2.manifest = disk.manifest ∧
      ∀ id, (recoverMemtables E disk ids).2.wals id =
        if id ∈ ids then some (Wal.recover E ((disk.wals id).getD [])).2 else disk.wals id := by
  -- The logs are read in order, each before its own file is cut.
  induction ids using List.reverseRecOn with
  | nil => exact ⟨rfl, rfl, rfl, fun _ => rfl⟩
  | append_singleton ids id ih =>
    rw [List.nodup_append] at hnd
    obtain ⟨hfst, hssts, hman, hwals⟩ := ih hnd.1
    have hnot : id ∉ ids := fun hid => hnd.2.2 id hid id (by simp) rfl
    have hlog : (recoverMemtables E disk ids).2.wals id = disk.wals id := by
      rw [hwals, if_neg hnot]
    -- The round of the last identifier.
    have hstep : recoverMemtables E disk (ids ++ [id]) =
        (if (MemTable.recoverFromWal E id ((disk.wals id).getD [])).isEmpty then
            (recoverMemtables E disk ids).1
          else MemTable.recoverFromWal E id ((disk.wals id).getD []) ::
            (recoverMemtables E disk ids).1,
          { (recoverMemtables E disk ids).2 with
            wals := Function.update (recoverMemtables E disk ids).2.wals id
              (some (Wal.recover E ((disk.wals id).getD [])).2) }) := by
      rw [← hlog]
      exact List.foldl_append
    rw [hstep, List.reverse_append, List.reverse_singleton, List.singleton_append, List.map_cons,
      List.filter_cons]
    refine ⟨?_, hssts, hman, fun id' => ?_⟩
    · dsimp only
      rw [hfst]
      split_ifs with hemp hno hno
      · rw [hemp] at hno
        cases hno
      · rfl
      · rfl
      · simp [hemp] at hno
    · dsimp only
      by_cases hid : id' = id
      · subst hid
        rw [Function.update_self, if_pos (by simp)]
      · rw [Function.update_of_ne hid, hwals]
        simp [hid]

/-- The replay opens no table. -/
theorem LsmStorageInner.replay_sstables {options : LsmStorageOptions} {records : List ManifestRecord}
    {r : Replay} (h : replay options records = .ok r) (id : ℕ) : r.state.sstables id = none := by
  induction records using List.reverseRecOn generalizing r with
  | nil =>
    cases h
    rfl
  | append_singleton records record ih =>
    rw [replay_append] at h
    obtain ⟨r₀, h₀, h⟩ := bind_eq_ok.mp h
    cases record with
    | flush sst_id =>
      cases h
      dsimp only
      split_ifs
      · exact ih h₀
      · exact ih h₀
    | newMemtable mem_id =>
      cases h
      exact (ih h₀ : r₀.state.sstables id = none)
    | compaction task ids =>
      simp only [replayRecord] at h
      obtain ⟨⟨st, old⟩, hres, h⟩ := bind_eq_ok.mp h
      cases h
      exact CompactionController.applyCompactionResult_sstables hres id (ih h₀)

end Recovered

section Opened

variable {M : Type} {E : Extern} {io : ManifestIO M} {log : M → List ManifestRecord}
  {s : LsmStorageInner M} {r : Replay} {disk : Disk M} {rs : ℕ → List (Bytes × Bytes)}

/-- What a store leaves in its directory besides the manifest: the files of its tables, and in each
log that is going to be read the frames of the records `rs`, and perhaps a part of another one. -/
structure LsmStorageInner.Left (E : Extern) (s : LsmStorageInner M) (r : Replay) (disk : Disk M)
    (rs : ℕ → List (Bytes × Bytes)) : Prop where
  ssts : ∀ id ∈ s.state.tableIds, disk.ssts id = s.disk.ssts id
  logs : s.options.enable_wal = true → ∀ id ∈ r.memtables, ∃ torn, Wal.Torn E torn ∧
    (disk.wals id).getD [] = Wal.frames E (rs id) ++ torn
  storable : s.options.enable_wal = true → ∀ id ∈ r.memtables, ∀ e ∈ rs id, Storable e
  live : s.options.enable_wal = true → ∀ id ∈ r.memtables, rs id ≠ [] →
    ∃ m ∈ s.state.memtables, m.id = id

/-- The tables that are loaded are those that the store had open. -/
theorem LsmStorageInner.Left.tables (h : s.Left E r disk rs) (hinv : Inv E s) {m : M} :
    s.state.tableIds.mapM (openSst E { disk with manifest := some m }) =
      .ok (s.state.tables s.state.tableIds) := by
  have hopen : ∀ id ∈ s.state.tableIds, ∃ t, s.state.sstables id = some t ∧
      openSst E { disk with manifest := some m } id = .ok t := by
    intro id hid
    obtain ⟨t, ht, -⟩ := hinv.good id hid
    obtain ⟨-, rfl, b, hb, ho⟩ := hinv.listed id t ht
    refine ⟨t, ht, ?_⟩
    rw [openSst]
    dsimp only
    rw [h.ssts _ hid, hb]
    exact ho
  rw [LsmStorageState.tables]
  generalize s.state.tableIds = ids at hopen
  induction ids with
  | nil => rfl
  | cons id ids ih =>
    rw [List.forall_mem_cons] at hopen
    obtain ⟨⟨t, ht, ho⟩, hids⟩ := hopen
    rw [List.mapM_cons, ho, ok_bind, ih hids, ok_bind, List.filterMap_cons, ht]
    rfl

/-- The tables that are open then are the same. -/
theorem LsmStorageInner.Replays.sstables (h : s.Replays log r) (hinv : Inv E s) :
    addTables r.state.sstables (s.state.tables s.state.tableIds) = s.state.sstables := by
  have hids : (s.state.tables s.state.tableIds).map SsTable.id = s.state.tableIds := by
    have hsome : ∀ id ∈ s.state.tableIds, ∃ t, s.state.sstables id = some t ∧ t.id = id := by
      intro id hid
      obtain ⟨t, ht, -⟩ := hinv.good id hid
      exact ⟨t, ht, (hinv.listed id t ht).2.1⟩
    rw [LsmStorageState.tables]
    generalize s.state.tableIds = ids at hsome
    induction ids with
    | nil => rfl
    | cons id ids ih =>
      rw [List.forall_mem_cons] at hsome
      obtain ⟨⟨t, ht, hid⟩, hrest⟩ := hsome
      rw [List.filterMap_cons, ht]
      dsimp only
      rw [List.map_cons, hid, ih hrest]
  funext id
  by_cases hid : id ∈ s.state.tableIds
  · obtain ⟨t, ht, -⟩ := hinv.good id hid
    obtain ⟨-, rfl, -⟩ := hinv.listed id t ht
    have hmem : t ∈ s.state.tables s.state.tableIds := List.mem_filterMap.mpr ⟨t.id, hid, ht⟩
    rw [addTables_of_mem _ (by rw [hids]; exact hinv.nodup) hmem, ht]
  · rw [addTables_of_not_mem _ (by rwa [hids]), replay_sstables h.replay_eq]
    rcases ht : s.state.sstables id with _ | t
    · rfl
    · exact absurd (hinv.listed id t ht).1 hid

/-! ## The store that is opened -/

/-- The writes that the memtables of the directory have, the newest memtable first. -/
def LsmStorageInner.leftMaps (s : LsmStorageInner M) (r : Replay) (rs : ℕ → List (Bytes × Bytes)) :
    List (List (Bytes × Bytes)) :=
  if s.options.enable_wal then r.memtables.reverse.map fun id => MemTable.replay (rs id) else []

/-- A memtable that is recovered has the writes of its log, of which there are some. -/
structure LsmStorageInner.Recovered (r : Replay) (rs : ℕ → List (Bytes × Bytes)) (m : MemTable) :
    Prop where
  mem : m.id ∈ r.memtables
  map : m.map = MemTable.replay (rs m.id)
  ne_nil : rs m.id ≠ []
  wal : m.wal = some ⟨[]⟩

/-- What a log is replayed to is in the log. -/
theorem MemTable.mem_replay {rs : List (Bytes × Bytes)} {e : Bytes × Bytes} (h : e ∈ replay rs) :
    e ∈ rs := by
  induction rs using List.reverseRecOn with
  | nil => cases h
  | append_singleton rs r ih =>
    rw [replay_append] at h
    rcases Assoc.mem_insert h with rfl | h
    · simp
    · exact List.mem_append_left _ (ih h)

/-- Only a log without records gives no entries. -/
theorem MemTable.replay_eq_nil_iff {rs : List (Bytes × Bytes)} : replay rs = [] ↔ rs = [] := by
  rcases List.eq_nil_or_concat' rs with rfl | ⟨rs, r, rfl⟩
  · exact iff_of_true rfl rfl
  · rw [replay_append]
    exact iff_of_false (Assoc.insert_ne_nil _ _ _) (by simp)

/-- Elements that have nothing to find may be left out. -/
theorem findSome?_filter_of_none {α β : Type} {f : α → Option β} {p : α → Bool} {l : List α}
    (h : ∀ a ∈ l, p a = false → f a = none) : (l.filter p).findSome? f = l.findSome? f := by
  induction l with
  | nil => rfl
  | cons a l ih =>
    rw [List.forall_mem_cons] at h
    rcases hp : p a with _ | _
    · rw [List.filter_cons_of_neg (by simp [hp]), ih h.2, List.findSome?_cons, h.1 hp]
    · rw [List.filter_cons_of_pos hp, List.findSome?_cons, List.findSome?_cons, ih h.2]

/-- The directory has the value of a key that the memtables have, where each of their logs has it,
and the other logs are empty. -/
theorem LsmStorageInner.Replays.leftMaps_eq (h : s.Replays log r) (hinv : Inv E s)
    (hwal : s.options.enable_wal = true) {k : Bytes}
    (hlive : ∀ m ∈ s.state.memtables,
      Assoc.lookup k (MemTable.replay (rs m.id)) = Assoc.lookup k m.map)
    (hstale : ∀ id ∈ r.memtables, (∀ m ∈ s.state.memtables, m.id ≠ id) → rs id = []) :
    (s.leftMaps r rs).findSome? (Assoc.lookup k) =
      (s.state.memtables.map MemTable.map).findSome? (Assoc.lookup k) := by
  obtain ⟨hsorted, -⟩ := replay_spec h.replay_eq
  -- The memtables of the replay that the store still has.
  have hids : r.memtables.reverse.filter (fun id => decide (∃ m ∈ s.state.memtables, m.id = id)) =
      s.state.memtables.map MemTable.id := by
    refine ((List.pairwise_reverse.mpr hsorted).filter _).eq_of_mem_iff hinv.mem_ids fun id => ?_
    rw [List.mem_filter, List.mem_reverse, List.mem_map, decide_eq_true_eq, and_iff_right_iff_imp]
    rintro ⟨m, hm, rfl⟩
    exact h.memtables m hm
  have hnone : ∀ id ∈ r.memtables.reverse,
      decide (∃ m ∈ s.state.memtables, m.id = id) = false →
        (Assoc.lookup k ∘ fun id => MemTable.replay (rs id)) id = none := by
    intro id hid hno
    rw [Function.comp_apply, hstale id (List.mem_reverse.mp hid) (by simpa using hno)]
    rfl
  rw [leftMaps, if_pos hwal, List.findSome?_map, ← findSome?_filter_of_none hnone, hids,
    List.findSome?_map, List.findSome?_map]
  exact findSome?_congr hlive

/-- The memtables that are recovered, the newest first, and the values in them. -/
theorem LsmStorageInner.Left.recovered (h : s.Left E r disk rs)
    (hsorted : r.memtables.Pairwise (· < ·)) :
    (∀ m ∈ (reopenedMemtables E disk s.options r).1, s.options.enable_wal = true ∧ Recovered r rs m) ∧
      ((reopenedMemtables E disk s.options r).1.map MemTable.id).Pairwise (· > ·) ∧
      (s.options.enable_wal = true → ∀ id ∈ r.memtables, rs id ≠ [] →
        ∃ m ∈ (reopenedMemtables E disk s.options r).1, m.id = id) ∧
      ∀ k, ((reopenedMemtables E disk s.options r).1.map MemTable.map).findSome? (Assoc.lookup k) =
        (s.leftMaps r rs).findSome? (Assoc.lookup k) := by
  unfold reopenedMemtables leftMaps
  rcases hwal : s.options.enable_wal with _ | _
  · exact ⟨by simp, List.Pairwise.nil, by simp, fun _ => rfl⟩
  -- Each log is recovered with the records that are left of it.
  · have hspec : ∀ id ∈ r.memtables,
        (MemTable.recoverFromWal E id ((disk.wals id).getD [])).map = MemTable.replay (rs id) ∧
          (MemTable.recoverFromWal E id ((disk.wals id).getD [])).id = id ∧
          (MemTable.recoverFromWal E id ((disk.wals id).getD [])).wal = some ⟨[]⟩ := by
      intro id hid
      obtain ⟨torn, htorn, hlog⟩ := h.logs hwal id hid
      rw [hlog]
      exact MemTable.recoverFromWal_spec E id (fun e he => (h.storable hwal id hid e he).fits) htorn
    obtain ⟨hfst, -⟩ := recoverMemtables_eq E disk (hsorted.imp ne_of_lt)
    simp only [if_true]
    rw [hfst]
    generalize MemTable.recoverFromWal E = f at hspec
    refine ⟨?_, ?_, ?_, ?_⟩
    · intro m hm
      obtain ⟨hm, hne⟩ := List.mem_filter.mp hm
      obtain ⟨id, hid, rfl⟩ := List.mem_map.mp hm
      have hid := List.mem_reverse.mp hid
      obtain ⟨hmap, hmid, hmwal⟩ := hspec id hid
      refine ⟨trivial, by rwa [hmid], by rw [hmap, hmid], ?_, hmwal⟩
      rw [hmid]
      intro hnil
      rw [MemTable.isEmpty, hmap, hnil] at hne
      simp [MemTable.replay] at hne
    -- The memtables are in the reverse order of their identifiers, newest first.
    · have hids : ((r.memtables.reverse.map fun id => f id ((disk.wals id).getD [])).map
          MemTable.id) = r.memtables.reverse := by
        have hid : ∀ i ∈ r.memtables.reverse,
            (MemTable.id ∘ fun id => f id ((disk.wals id).getD [])) i = id i :=
          fun i hi => (hspec i (List.mem_reverse.mp hi)).2.1
        rw [List.map_map, List.map_congr_left hid, List.map_id]
      refine List.Pairwise.sublist (List.filter_sublist.map MemTable.id) ?_
      rw [hids, List.pairwise_reverse]
      exact hsorted
    -- A log with a record leaves a memtable.
    · intro _ id hid hne
      obtain ⟨hmap, hmid, -⟩ := hspec id hid
      refine ⟨f id ((disk.wals id).getD []), List.mem_filter.mpr ⟨?_, ?_⟩, hmid⟩
      · exact List.mem_map.mpr ⟨id, List.mem_reverse.mpr hid, rfl⟩
      · rw [MemTable.isEmpty, hmap]
        simpa [MemTable.replay_eq_nil_iff] using hne
    · intro k
      rw [List.findSome?_map, List.findSome?_map]
      -- A memtable without entries has no value, so that it may be dropped.
      have hlookup : ∀ m ∈ r.memtables.reverse.map fun id => f id ((disk.wals id).getD []),
          (!m.isEmpty) = false → (Assoc.lookup k ∘ MemTable.map) m = none := by
        intro m _ hempty
        rw [MemTable.isEmpty, Bool.not_eq_false', List.isEmpty_iff] at hempty
        rw [Function.comp_apply, hempty, Assoc.lookup_nil]
      rw [findSome?_filter_of_none hlookup, List.findSome?_map]
      refine findSome?_congr fun id hid => ?_
      rw [Function.comp_apply, Function.comp_apply, Function.comp_apply,
        (hspec id (List.mem_reverse.mp hid)).1]

/-- The store `s'` is opened where `s` has left its tables and the logs of the records `rs`. -/
structure LsmStorageInner.Reopened (E : Extern) (log : M → List ManifestRecord)
    (s : LsmStorageInner M) (r : Replay) (rs : ℕ → List (Bytes × Bytes)) (s' : LsmStorageInner M)
    (r' : Replay) : Prop where
  inv : Inv E s'
  shape : s.Shape → s'.Shape
  replays : s'.Replays log r'
  logs : s.options.enable_wal = true → s'.Logs E r'
  options : s'.options = s.options
  l0_sstables : s'.state.l0_sstables = s.state.l0_sstables
  levels : s'.state.levels = s.state.levels
  sstables : s'.state.sstables = s.state.sstables
  next_sst_id : s'.next_sst_id = r.next_id + 2
  next_id : r'.next_id = r.next_id + 1
  memtable_id : s'.state.memtable.id = r.next_id + 1
  memtable_map : s'.state.memtable.map = []
  imm : ∀ m ∈ s'.state.imm_memtables, s.options.enable_wal = true ∧ Recovered r rs m
  found : s.options.enable_wal = true → ∀ id ∈ r.memtables, rs id ≠ [] →
    ∃ m ∈ s'.state.imm_memtables, m.id = id
  logged : s.options.enable_wal = true → s'.state.memtable.Logged E s'.disk [] [] ∧
    ∀ m ∈ s'.state.imm_memtables, m.Logged E s'.disk (rs m.id) []
  view : ∀ k, s'.state.view E k =
    firstValue (s.leftMaps r rs ++ s.state.groups.map (s.state.run E)) k

/-- `open` finds the tables that the manifest lists, and a memtable for each log with a record. -/
theorem LsmStorageInner.open_spec (hio : io.Lawful log) (hinv : Inv E s) (h : s.Replays log r)
    (hl : s.Left E r disk rs) (hman : disk.manifest = s.disk.manifest) :
    ∃ s' r', LsmStorageInner.open E io disk s.options = .ok s' ∧ s.Reopened E log r rs s' r' := by
  obtain ⟨m, hm⟩ := Option.isSome_iff_exists.mp h.journaled.isSome
  obtain ⟨m', hrec, hlog⟩ := hio.recover_eq m
  -- The directory with the manifest as it has been recovered.
  obtain ⟨disk', hdisk'⟩ : ∃ disk', disk' = { disk with manifest := some m' } := ⟨_, rfl⟩
  have hl' : s.Left E r disk' rs := by
    rw [hdisk']
    exact ⟨hl.ssts, hl.logs, hl.storable, hl.live⟩
  have hrecords : s.records log = log m := by
    rw [records, hm]
    rfl
  have hids : r.state.tableIds = s.state.tableIds := by
    rw [LsmStorageState.tableIds, LsmStorageState.tableIds, h.l0_sstables, h.levels]
  -- What the replay ends with, and the memtables of its logs.
  obtain ⟨hsorted, hnew, hpos, hle⟩ := replay_spec h.replay_eq
  obtain ⟨himm, himmids, hfound, hvalues⟩ := hl'.recovered hsorted
  obtain ⟨s', hs'⟩ : ∃ s' : LsmStorageInner M, s' =
    ⟨reopenedState E disk' s.options r (s.state.tables s.state.tableIds), r.next_id + 2, s.options,
      true, reopenedDisk E io disk' s.options r⟩ := ⟨_, rfl⟩
  obtain ⟨r', hr'⟩ : ∃ r', replayRecord s.options.compaction_options r
    (.newMemtable (r.next_id + 1)) = .ok r' := ⟨_, rfl⟩
  -- The records are replayed, and the tables that they list are opened.
  have hopen : LsmStorageInner.open E io disk s.options = .ok s' := by
    unfold LsmStorageInner.open
    rw [hman, hm]
    dsimp only
    rw [hrec]
    dsimp only
    rw [← hdisk', openRecovered_eq, ← hrecords, h.replay_eq, ok_bind, hids, hdisk',
      hl.tables hinv, ok_bind, ← hdisk', hs']
  -- The parts of the store that is opened.
  have hopt : s'.options = s.options := by rw [hs']
  have hl0 : s'.state.l0_sstables = s.state.l0_sstables := by
    rw [hs']
    exact h.l0_sstables
  have hlev : s'.state.levels = s.state.levels := by
    rw [hs']
    exact h.levels
  have hsst : s'.state.sstables = s.state.sstables := by
    rw [hs']
    exact h.sstables hinv
  have himmeq : s'.state.imm_memtables = (reopenedMemtables E disk' s.options r).1 := by rw [hs']; rfl
  have hmem : s'.state.memtable.id = r.next_id + 1 ∧ s'.state.memtable.map = [] := by
    rw [hs', reopenedState]
    dsimp only
    split_ifs <;> exact ⟨rfl, rfl⟩
  have hssts : ∀ id ∈ s.state.tableIds, s'.disk.ssts id = s.disk.ssts id := by
    intro id hid
    rw [hs', reopenedDisk, reopenedMemtables]
    dsimp only
    rw [← hl'.ssts id hid]
    split_ifs
    · rw [(recoverMemtables_eq E disk' (hsorted.imp ne_of_lt)).2.1]
    · rfl
  rw [← himmeq] at himm himmids hfound hvalues
  have hmems : s'.state.memtables = s'.state.memtable :: s'.state.imm_memtables := rfl
  have htids : s'.state.tableIds = s.state.tableIds := by
    rw [LsmStorageState.tableIds, LsmStorageState.tableIds, hl0, hlev]
  have hgroups : s'.state.groups = s.state.groups := by
    rw [LsmStorageState.groups, LsmStorageState.groups, hl0, hlev]
  have hrun : ∀ ids, s'.state.run E ids = s.state.run E ids := fun ids =>
    LsmStorageState.run_congr fun _ _ => by rw [hsst]
  -- No identifier is above the largest one that the replay has seen.
  have hmemle : ∀ id ∈ r.memtables, id ≤ r.next_id := fun id hid =>
    hle _ (hnew id hid) id (by simp [ManifestRecord.ids])
  have htable_le : ∀ id ∈ s.state.tableIds, id ≤ r.next_id := by
    intro id hid
    rw [← hids] at hid
    obtain ⟨record, hrecord, hid⟩ := mem_tableIds_replay h.replay_eq hid
    refine hle record hrecord id ?_
    cases record with
    | flush sst_id => exact hid
    | newMemtable mem_id => cases hid
    | compaction task ids => exact hid
  have hlive : ∀ m ∈ s'.state.imm_memtables, ∃ m₀ ∈ s.state.memtables, m₀.id = m.id :=
    fun m hm => hl.live (himm m hm).1 m.id (himm m hm).2.mem (himm m hm).2.ne_nil
  -- The tables are those of `s`, and the memtables those of the logs.
  have hinv' : Inv E s' := by
    constructor
    case block_size => rw [hopt]; exact hinv.block_size
    case next_pos => rw [hs']; exact Nat.succ_pos _
    case mem_sorted =>
      rw [hmems, List.forall_mem_cons, hmem.2]
      refine ⟨List.Pairwise.nil, fun m hm => ?_⟩
      rw [(himm m hm).2.map]
      exact MemTable.sorted_replay _
    case mem_storable =>
      rw [hmems, List.forall_mem_cons, hmem.2]
      refine ⟨by simp, fun m hm e he => ?_⟩
      rw [(himm m hm).2.map] at he
      exact hl.storable (himm m hm).1 m.id (himm m hm).2.mem e (MemTable.mem_replay he)
    case imm_ne_nil =>
      intro m hm
      rw [(himm m hm).2.map, ne_eq, MemTable.replay_eq_nil_iff]
      exact (himm m hm).2.ne_nil
    case mem_ids =>
      rw [hmems, List.map_cons, List.pairwise_cons, hmem.1]
      refine ⟨fun id hid => ?_, himmids⟩
      obtain ⟨m, hm, rfl⟩ := List.mem_map.mp hid
      exact Nat.lt_succ_of_le (hmemle m.id (himm m hm).2.mem)
    case nodup => rw [htids]; exact hinv.nodup
    case mem_ids_disjoint =>
      rw [htids, hmems, List.forall_mem_cons, hmem.1]
      -- The new memtable is above all tables, and the others have been in `s`.
      refine ⟨fun hid => absurd (htable_le _ hid) (by omega), fun m hm => ?_⟩
      obtain ⟨m₀, hm₀, hid⟩ := hlive m hm
      rw [← hid]
      exact hinv.mem_ids_disjoint m₀ hm₀
    case mem_ids_lt =>
      rw [hmems, List.forall_mem_cons, hmem.1, hs']
      refine ⟨Nat.lt_succ_self _, fun m hm => ?_⟩
      have := hmemle m.id (himm m (hs' ▸ hm)).2.mem
      dsimp only
      omega
    case ids_lt =>
      rw [htids, hs']
      exact fun id hid => Nat.lt_succ_of_le ((htable_le id hid).trans (Nat.le_succ _))
    case good => rw [htids, hsst]; exact hinv.good
    case listed =>
      rw [htids, hsst]
      intro id t ht
      obtain ⟨hl, rfl, b, hb, ho⟩ := hinv.listed id t ht
      exact ⟨hl, rfl, b, by rw [hssts _ hl, hb], ho⟩
    case sorted =>
      rw [hgroups]
      intro g hg
      rw [hrun]
      exact hinv.sorted g hg
    case tiers => rw [hopt, hl0]; exact hinv.tiers
  -- The logs have the records, and the buffers are empty.
  have hlogs : s.options.enable_wal = true →
      (∀ id ∈ r.memtables, s'.disk.wals id = some (Wal.frames E (rs id))) ∧
      s'.state.memtable.Logged E s'.disk [] [] ∧
      ∀ m ∈ s'.state.imm_memtables, m.Logged E s'.disk (rs m.id) [] := by
    intro hwal
    have hnewlog : s'.disk.wals (r.next_id + 1) = some [] := by
      rw [hs', reopenedDisk]
      dsimp only
      rw [if_pos hwal, Function.update_self]
    -- The new log has another name than those that are recovered.
    have hlogs : ∀ id ∈ r.memtables, s'.disk.wals id = some (Wal.frames E (rs id)) := by
      intro id hid
      obtain ⟨torn, htorn, hlogid⟩ := hl'.logs hwal id hid
      have hne : id ≠ r.next_id + 1 := by
        have := hmemle id hid
        omega
      rw [hs', reopenedDisk, reopenedMemtables]
      dsimp only
      rw [if_pos hwal, if_pos hwal, Function.update_of_ne hne,
        (recoverMemtables_eq E disk' (hsorted.imp ne_of_lt)).2.2.2, if_pos hid, hlogid,
        Wal.recover_frames E (fun e he => (hl.storable hwal id hid e he).fits) htorn]
    refine ⟨hlogs, ⟨?_, ?_, by simp, hmem.2⟩, fun m hm => ?_⟩
    · rw [hs', reopenedState]
      dsimp only
      rw [if_pos hwal]
      rfl
    · rw [hmem.1, hnewlog]
      rfl
    · obtain ⟨-, hrec⟩ := himm m hm
      refine ⟨hrec.wal, hlogs m.id hrec.mem, ?_, ?_⟩
      · rw [List.append_nil]
        exact hl.storable hwal m.id hrec.mem
      · rw [List.append_nil]
        exact hrec.map
  refine ⟨s', r', hopen, hinv', ?_, ?_, ?_, hopt, hl0, hlev, hsst, by rw [hs'], ?_, hmem.1, hmem.2,
    himm, hfound, fun hwal => (hlogs hwal).2, ?_⟩
  -- The shape of the levels.
  · intro hsh
    unfold Shape at hsh ⊢
    rw [hopt, hlev]
    split at hsh
    · exact hsh
    · exact hsh
    · exact hsh
    · refine ⟨hsh.1, hsh.2.1, fun hne => ?_⟩
      rw [hmems, List.forall_mem_cons, hmem.1]
      refine ⟨Nat.succ_ne_zero _, fun m hm => ?_⟩
      obtain ⟨m₀, hm₀, hid⟩ := hlive m hm
      rw [← hid]
      exact hsh.2.2 hne m₀ hm₀
  -- The manifest has one record more, of the new memtable.
  · have hmanifest : s'.disk.manifest = some (io.addRecord m' (.newMemtable (r.next_id + 1))) := by
      have hold : (reopenedMemtables E disk' s.options r).2.manifest = some m' := by
        rw [reopenedMemtables]
        split_ifs
        · rw [(recoverMemtables_eq E disk' (hsorted.imp ne_of_lt)).2.2.1, hdisk']
        · rw [hdisk']
      rw [hs', reopenedDisk]
      dsimp only
      rw [hold]
      rfl
    constructor
    case journaled => exact ⟨by rw [hs'], by rw [hmanifest]; rfl⟩
    case replay_eq =>
      have hrec' : s'.records log = s.records log ++ [.newMemtable (r.next_id + 1)] := by
        rw [records, hmanifest, hrecords, ← hlog]
        exact hio.log_addRecord m' _
      rw [hopt, hrec', replay_append, h.replay_eq, ok_bind, hr']
    case l0_sstables =>
      cases hr'
      exact h.l0_sstables.trans hl0.symm
    case levels =>
      cases hr'
      exact h.levels.trans hlev.symm
    case memtables =>
      intro m hm
      rw [mem_memtables_replayRecord hr']
      rw [hmems] at hm
      rcases List.mem_cons.mp hm with rfl | hm
      · exact .inr (by rw [hmem.1])
      · exact .inl ⟨(himm m hm).2.mem, by simp⟩
    case memtables_lt =>
      intro id hid
      rw [hs']
      rcases (mem_memtables_replayRecord hr').mp hid with ⟨hid, -⟩ | hid
      · exact Nat.lt_succ_of_le ((hmemle id hid).trans (Nat.le_succ _))
      · cases hid
        exact Nat.lt_succ_self _
  -- The logs of the memtables, and those that have none.
  · intro hwal
    obtain ⟨hfiles, hnew, hold⟩ := hlogs hwal
    constructor
    · intro m hm
      rw [hmems] at hm
      rcases List.mem_cons.mp hm with rfl | hm
      · exact ⟨[], [], hnew⟩
      · exact ⟨rs m.id, [], hold m hm⟩
    · intro id hid hno
      rw [hmems, List.forall_mem_cons, hmem.1] at hno
      rcases (mem_memtables_replayRecord hr').mp hid with ⟨hid, -⟩ | hid
      · -- A log of which no memtable was recovered has no record.
        have hnil : rs id = [] := by
          by_contra hne
          obtain ⟨m, hm, hmid⟩ := hfound hwal id hid hne
          exact hno.2 m hm hmid
        rw [hfiles id hid, hnil]
        rfl
      · cases hid
        exact absurd rfl hno.1
  · cases hr'
    exact max_eq_right (Nat.le_succ _)
  · intro k
    -- The new memtable is empty, and the others have what the logs have.
    have hruns : s'.state.groups.map (s'.state.run E) = s.state.groups.map (s.state.run E) := by
      rw [hgroups]
      exact List.map_congr_left fun g _ => hrun g
    rw [LsmStorageState.view_eq, hruns, hmems, List.map_cons, hmem.2]
    refine firstValue_congr ?_
    rw [List.cons_append, List.findSome?_cons, Assoc.lookup_nil, List.findSome?_append, hvalues,
      ← List.findSome?_append]

end Opened

end MiniLsm
