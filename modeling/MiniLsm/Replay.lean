import MiniLsm.Invariant

/-!
# The replay of the manifest

What `LsmStorageInner::open` keeps of the records of a manifest. The replay goes through them from
the first one, so that a record that is added to the manifest adds one round (`replay_append`). The
memtables it ends with are those that the records name, and no identifier that the records hand out
is above the largest one it has seen.
-/

namespace MiniLsm

namespace LsmStorageInner

/-- The replay in `LsmStorageInner::open`. -/
def replay (options : LsmStorageOptions) (log : List ManifestRecord) : Except Error Replay :=
  log.foldlM (replayRecord options.compaction_options) ⟨LsmStorageState.create options, [], 1⟩

/-- No records give a new state. -/
@[simp]
theorem replay_nil (options : LsmStorageOptions) :
    replay options [] = .ok ⟨LsmStorageState.create options, [], 1⟩ :=
  rfl

/-- A record that is added is replayed last. -/
theorem replay_append (options : LsmStorageOptions) (log : List ManifestRecord)
    (record : ManifestRecord) : replay options (log ++ [record]) =
      replay options log >>= fun r => replayRecord options.compaction_options r record := by
  rw [replay, List.foldlM_append]
  simp only [List.foldlM_cons, List.foldlM_nil, bind_pure]
  rfl

end LsmStorageInner

open LsmStorageInner

/-- The identifiers that a record hands out. -/
def ManifestRecord.ids : ManifestRecord → List ℕ
  | .flush sst_id => [sst_id]
  | .newMemtable mem_id => [mem_id]
  | .compaction _ output_sst_ids => output_sst_ids

namespace LsmStorageInner

variable {options : CompactionOptions} {r r' : Replay} {record : ManifestRecord}

/-- The memtables after a round. -/
theorem mem_memtables_replayRecord (h : replayRecord options r record = .ok r') {id : ℕ} :
    id ∈ r'.memtables ↔
      (id ∈ r.memtables ∧ record ≠ .flush id) ∨ record = .newMemtable id := by
  cases record with
  | flush sst_id =>
    cases h
    simp only [List.mem_filter, decide_eq_true_eq, ne_eq, ManifestRecord.flush.injEq, reduceCtorEq,
      or_false]
    rw [eq_comm (a := id)]
  | newMemtable mem_id =>
    cases h
    simp only [List.mem_orderedInsert, List.mem_filter, decide_eq_true_eq,
      ManifestRecord.newMemtable.injEq]
    by_cases hid : id = mem_id
    · simp [hid]
    · simp [hid, Ne.symm hid]
  | compaction task ids =>
    simp only [replayRecord] at h
    obtain ⟨new, -, h⟩ := bind_eq_ok.mp h
    cases h
    simp

/-- The counter is no less than the identifiers. -/
theorem le_foldl_max (ids : List ℕ) (n : ℕ) :
    n ≤ ids.foldl max n ∧ ∀ id ∈ ids, id ≤ ids.foldl max n := by
  induction ids generalizing n with
  | nil => exact ⟨le_rfl, by simp⟩
  | cons id ids ih =>
    obtain ⟨h1, h2⟩ := ih (max n id)
    rw [List.foldl_cons]
    refine ⟨(le_max_left n id).trans h1, List.forall_mem_cons.mpr ⟨(le_max_right n id).trans h1, h2⟩⟩

/-- The largest identifier after a round. -/
theorem le_next_id_replayRecord (h : replayRecord options r record = .ok r') :
    r.next_id ≤ r'.next_id ∧ ∀ id ∈ record.ids, id ≤ r'.next_id := by
  cases record with
  | flush sst_id =>
    cases h
    simp [ManifestRecord.ids]
  | newMemtable mem_id =>
    cases h
    simp [ManifestRecord.ids]
  | compaction task ids =>
    simp only [replayRecord] at h
    obtain ⟨new, -, h⟩ := bind_eq_ok.mp h
    cases h
    exact le_foldl_max ids r.next_id

/-- A record keeps the memtables in order. -/
theorem sorted_memtables_replayRecord (h : replayRecord options r record = .ok r')
    (hs : r.memtables.Pairwise (· < ·)) : r'.memtables.Pairwise (· < ·) := by
  cases record with
  | flush sst_id =>
    cases h
    exact hs.filter _
  | newMemtable mem_id =>
    cases h
    have hkept := hs.filter (· ≠ mem_id)
    have hle := List.Pairwise.orderedInsert (r := (· ≤ ·)) mem_id _ (hkept.imp le_of_lt)
    have hnodup : ((r.memtables.filter (· ≠ mem_id)).orderedInsert (· ≤ ·) mem_id).Nodup := by
      rw [(List.perm_orderedInsert _ mem_id _).nodup_iff, List.nodup_cons]
      exact ⟨by simp, hkept.imp ne_of_lt⟩
    exact (hle.and hnodup).imp fun h => lt_of_le_of_ne h.1 h.2
  | compaction task ids =>
    simp only [replayRecord] at h
    obtain ⟨new, -, h⟩ := bind_eq_ok.mp h
    cases h
    exact hs

variable {options : LsmStorageOptions} {log : List ManifestRecord}

/-- What the replay knows of the identifiers. -/
theorem replay_spec (h : replay options log = .ok r) :
    r.memtables.Pairwise (· < ·) ∧ (∀ id ∈ r.memtables, .newMemtable id ∈ log) ∧
      1 ≤ r.next_id ∧ ∀ record ∈ log, ∀ id ∈ record.ids, id ≤ r.next_id := by
  induction log using List.reverseRecOn generalizing r with
  | nil =>
    cases h
    exact ⟨List.Pairwise.nil, by simp, le_rfl, by simp⟩
  | append_singleton log record ih =>
    rw [replay_append] at h
    obtain ⟨r₀, h₀, h⟩ := bind_eq_ok.mp h
    obtain ⟨hs, hmem, hpos, hle⟩ := ih h₀
    obtain ⟨hnext, hids⟩ := le_next_id_replayRecord h
    refine ⟨sorted_memtables_replayRecord h hs, fun id hid => ?_, hpos.trans hnext, ?_⟩
    · rw [mem_memtables_replayRecord h] at hid
      rcases hid with ⟨hid, -⟩ | rfl
      · exact List.mem_append_left _ (hmem id hid)
      · simp
    · intro record' hrecord' id hid
      rcases List.mem_append.mp hrecord' with hr | hr
      · exact (hle record' hr id hid).trans hnext
      · rw [List.mem_singleton.mp hr] at hid
        exact hids id hid

/-! ## The store that is opened -/

section Reopened

variable {M : Type} (E : Extern) (io : ManifestIO M) (disk : Disk M) (options : LsmStorageOptions)
  (r : Replay) (ts : List SsTable)

/-- The memtables that are recovered, and the directory then. -/
def reopenedMemtables : List MemTable × Disk M :=
  if options.enable_wal then recoverMemtables E disk r.memtables else ([], disk)

/-- The state of the store that is opened from a replay, once its tables are loaded. -/
def reopenedState : LsmStorageState :=
  { r.state with
    memtable :=
      if options.enable_wal then MemTable.createWithWal (r.next_id + 1)
      else MemTable.create (r.next_id + 1)
    imm_memtables := (reopenedMemtables E disk options r).1
    sstables := addTables r.state.sstables ts }

/-- The directory of that store. -/
def reopenedDisk : Disk M :=
  { (reopenedMemtables E disk options r).2 with
    manifest := (reopenedMemtables E disk options r).2.manifest.map fun m =>
      io.addRecord m (.newMemtable (r.next_id + 1))
    wals :=
      if options.enable_wal then
        Function.update (reopenedMemtables E disk options r).2.wals (r.next_id + 1) (some [])
      else (reopenedMemtables E disk options r).2.wals }

/-- `LsmStorageInner::open` with records that have been recovered: the replay, the tables, and the
store. -/
theorem openRecovered_eq (records : List ManifestRecord) :
    openRecovered E io disk options records = replay options records >>= fun r =>
      r.state.tableIds.mapM (openSst E disk) >>= fun ts =>
        .ok ⟨reopenedState E disk options r ts, r.next_id + 2, options, true,
          reopenedDisk E io disk options r⟩ := by
  rw [openRecovered, replay]
  refine bind_congr fun r => bind_congr fun ts => congrArg Except.ok ?_
  rw [reopenedState, reopenedDisk, reopenedMemtables]
  rcases options.enable_wal with _ | _ <;> rfl

end Reopened

end LsmStorageInner

end MiniLsm
