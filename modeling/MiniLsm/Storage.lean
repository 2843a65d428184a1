import MiniLsm.Manifest

/-!
# The store

`LsmStorageInner` of `src/lsm_storage.cpp`, with the compactions of `src/compact.cpp`, and the
directory it works in. An operation is a function on the store as a whole: its state, its counter of
identifiers, and its files. Operations that may throw return the store they leave in either case
(`Outcome`).

The directory holds the manifest and the table and log files by identifier. `path_of_sst_val` and
`path_of_wal_val` give different identifiers different names. A table file that is removed stays
readable for the tables that have it open.

A compaction runs in three steps, between which other operations may come: the snapshot with the
choice of the task (`generateTask`, `fullTask`), `compact`, and the step that puts the result into
the state (`applyTrigger`, `applyFull`). `triggerCompaction` and `forceFullCompaction` are the
sequences of the three.
-/

namespace MiniLsm

/-- The directory of a store: the manifest, and the contents of the table and log files. -/
structure Disk (M : Type) where
  manifest : Option M
  ssts : ℕ → Option Bytes
  wals : ℕ → Option Bytes

/-- A directory without files. -/
def Disk.empty {M : Type} : Disk M := ⟨none, fun _ => none, fun _ => none⟩

/-- `LsmStorageInner`, less the block cache. `manifest` says whether the pointer to the manifest is
set. -/
structure LsmStorageInner (M : Type) where
  state : LsmStorageState
  next_sst_id : ℕ
  options : LsmStorageOptions
  manifest : Bool
  disk : Disk M

/-- What an operation returns or throws, and the store it leaves. -/
abbrev Outcome (M α : Type) := Except Error α × LsmStorageInner M

/-- An operation and, unless it throws, the next one. -/
def Outcome.bind {M α β : Type} (o : Outcome M α) (f : α → LsmStorageInner M → Outcome M β) :
    Outcome M β :=
  match o with
  | (.error e, s) => (.error e, s)
  | (.ok a, s) => f a s

@[simp]
theorem Outcome.bind_ok {M α β : Type} (a : α) (s : LsmStorageInner M)
    (f : α → LsmStorageInner M → Outcome M β) : Outcome.bind (.ok a, s) f = f a s :=
  rfl

@[simp]
theorem Outcome.bind_error {M α β : Type} (e : Error) (s : LsmStorageInner M)
    (f : α → LsmStorageInner M → Outcome M β) : Outcome.bind (.error e, s) f = (.error e, s) :=
  rfl

namespace LsmStorageInner

variable {M : Type}

/-! ## Writes -/

/-- `manifest->add_record`, where there is a manifest. -/
def addRecord (io : ManifestIO M) (s : LsmStorageInner M) (record : ManifestRecord) :
    LsmStorageInner M :=
  if s.manifest then
    { s with disk := { s.disk with
      manifest := s.disk.manifest.map fun m => io.addRecord m record } }
  else s

/-- The creation of an empty log file. -/
def createWal (s : LsmStorageInner M) (id : ℕ) : LsmStorageInner M :=
  { s with disk := { s.disk with wals := Function.update s.disk.wals id (some []) } }

/-- `LsmStorageInner::force_freeze_memtable` -/
def forceFreezeMemtable (io : ManifestIO M) (s : LsmStorageInner M) : LsmStorageInner M :=
  let memtable_id := s.next_sst_id
  let s := { s with next_sst_id := memtable_id + 1 }
  let s := if s.options.enable_wal then s.createWal memtable_id else s
  let new_memtable :=
    if s.options.enable_wal then MemTable.createWithWal memtable_id else MemTable.create memtable_id
  let s := { s with state := { s.state with
    memtable := new_memtable
    imm_memtables := s.state.memtable :: s.state.imm_memtables } }
  s.addRecord io (.newMemtable memtable_id)

/-- `LsmStorageInner::put` -/
def put (E : Extern) (io : ManifestIO M) (s : LsmStorageInner M) (key value : Bytes) :
    LsmStorageInner M :=
  let s := { s with state := { s.state with memtable := s.state.memtable.put E key value } }
  if s.state.memtable.approximate_size ≥ s.options.target_sst_size then s.forceFreezeMemtable io
  else s

/-- `LsmStorageInner::del` -/
def del (E : Extern) (io : ManifestIO M) (s : LsmStorageInner M) (key : Bytes) :
    LsmStorageInner M :=
  s.put E io key []

/-- `SsTableBuilder::build`: the file is written, truncating one of the same name, and opened. -/
def build (E : Extern) (s : LsmStorageInner M) (builder : SsTableBuilder) (id : ℕ) :
    Outcome M SsTable :=
  let buf := builder.fileBytes E
  (SsTable.open E id buf,
    { s with disk := { s.disk with ssts := Function.update s.disk.ssts id (some buf) } })

/-- The change of the state in `LsmStorageInner::force_flush_next_imm_memtable`: the table of the
oldest memtable takes its place. -/
def addFlushed (s : LsmStorageInner M) (sst_id : ℕ) (sst : SsTable) : LsmStorageInner M :=
  let state :=
    if CompactionController.flushToL0 s.options.compaction_options then
      { s.state with l0_sstables := sst_id :: s.state.l0_sstables }
    else { s.state with levels := (sst_id, [sst_id]) :: s.state.levels }
  { s with state := { state with
    imm_memtables := state.imm_memtables.dropLast
    sstables := Function.update state.sstables sst_id (some sst) } }

/-- `LsmStorageInner::force_flush_next_imm_memtable` -/
def forceFlushNextImmMemtable (E : Extern) (io : ManifestIO M) (s : LsmStorageInner M) :
    Outcome M Unit :=
  match s.state.imm_memtables.getLast? with
  | none => (.ok (), s)
  | some flush_memtable =>
    let builder := flush_memtable.flush E
      (SsTableBuilder.create s.options.block_size s.options.compression)
    let sst_id := flush_memtable.id
    (s.build E builder sst_id).bind fun sst s =>
      (.ok (), (s.addFlushed sst_id sst).addRecord io (.flush sst_id))

/-- `LsmStorageInner::trigger_flush` -/
def triggerFlush (E : Extern) (io : ManifestIO M) (s : LsmStorageInner M) : Outcome M Bool :=
  if s.state.imm_memtables.length ≥ s.options.num_memtable_limit then
    (s.forceFlushNextImmMemtable E io).bind fun _ s => (.ok true, s)
  else (.ok false, s)

/-- The bytes of the log of a memtable are passed on to its file. -/
def flushWal (disk : Disk M) (m : MemTable) : Disk M :=
  match m.wal with
  | none => disk
  | some w =>
    { disk with wals := Function.update disk.wals m.id ((disk.wals m.id).map (· ++ w.buffered)) }

/-- `LsmStorageInner::sync` -/
def sync (s : LsmStorageInner M) : LsmStorageInner M :=
  { s with
    disk := flushWal s.disk s.state.memtable
    state := { s.state with memtable := { s.state.memtable with
      wal := s.state.memtable.wal.map fun _ => ⟨[]⟩ } } }

/-! ## Reads -/

/-- The filter `keep_table` of `LsmStorageInner::get`. Every open table has a Bloom filter. -/
def keepTable (E : Extern) (key : Bytes) (table : SsTable) : Bool :=
  decide (key ≥ table.first_key) && decide (key ≤ table.last_key) &&
    table.bloom.mayContain (E.fingerprint32 key)

/-- `LsmStorageInner::get` -/
def get (E : Extern) (s : LsmStorageInner M) (key : Bytes) : Except Error Bytes := do
  match (s.state.memtable :: s.state.imm_memtables).findSome? fun m => m.get key with
  | some v => .ok v
  | none =>
    let l0_iters ← ((s.state.tables s.state.l0_sstables).filter (keepTable E key)).mapM
      fun t => SsTableIterator.createAndSeekToKey E t key
    let l0_merge := MergeIterator.create l0_iters
    let level_iters ← s.state.levels.mapM fun level =>
      SstConcatIterator.createAndSeekToKey E ((s.state.tables level.2).filter (keepTable E key)) key
    let level_merge := MergeIterator.create level_iters
    let iter ← TwoMergeIterator.create l0_merge level_merge
    if Cursor.isValid iter && decide (Cursor.key iter = key) && !(Cursor.value iter).isEmpty then
      .ok (Cursor.value iter)
    else .ok []

/-- The filter `range_overlap` of `LsmStorageInner::scan`. -/
def rangeOverlap (lower upper : Bound) (first last : Bytes) : Bool :=
  (match lower with
    | .unbounded => true
    | .included key => !decide (key > last)
    | .excluded key => !decide (key ≥ last)) &&
  match upper with
    | .unbounded => true
    | .included key => !decide (key < first)
    | .excluded key => !decide (key ≤ first)

/-- An iterator of `LsmStorageInner::scan` over one or more tables, from the lower bound on, given
how it is created. -/
def seekLower {ι : Type} [Cursor ι Bytes Bytes Error] (seekToFirst : Except Error ι)
    (seekToKey : Bytes → Except Error ι) (lower : Bound) : Except Error ι := do
  match lower with
  | .included key => seekToKey key
  | .excluded key =>
    let iter ← seekToKey key
    if Cursor.isValid iter && decide (Cursor.key iter = key) then Cursor.next iter else .ok iter
  | .unbounded => seekToFirst

/-- The iterator that `LsmStorageInner::scan` returns. -/
abbrev ScanIterator (E : Extern) := FusedIterator (LsmIterator (TwoMergeIterator
  (TwoMergeIterator (MergeIterator MemTableIterator) (MergeIterator (SsTableIterator E)))
  (MergeIterator (SstConcatIterator E))))

/-- `LsmStorageInner::scan` -/
def scan (E : Extern) (s : LsmStorageInner M) (lower upper : Bound) :
    Except Error (ScanIterator E) := do
  let memtable_iter := MergeIterator.create
    ((s.state.memtable :: s.state.imm_memtables).map fun m => m.scan lower upper)
  let overlap := fun t : SsTable => rangeOverlap lower upper t.first_key t.last_key
  let table_iters ← ((s.state.tables s.state.l0_sstables).filter overlap).mapM fun t =>
    seekLower (SsTableIterator.createAndSeekToFirst E t) (SsTableIterator.createAndSeekToKey E t)
      lower
  let l0_iter := MergeIterator.create table_iters
  let level_iters ← s.state.levels.mapM fun level =>
    let level_ssts := (s.state.tables level.2).filter overlap
    if level_ssts.isEmpty then .ok ⟨none, 0, []⟩
    else
      seekLower (SstConcatIterator.createAndSeekToFirst E level_ssts)
        (SstConcatIterator.createAndSeekToKey E level_ssts) lower
  let level_iter := MergeIterator.create level_iters
  let two_merge_1 ← TwoMergeIterator.create memtable_iter l0_iter
  let two_merge_2 ← TwoMergeIterator.create two_merge_1 level_iter
  let lsm_iter ← LsmIterator.create two_merge_2 upper
  .ok (FusedIterator.create lsm_iter)

/-! ## Compaction -/

/-- `LsmStorageInner::next_sst_id_val` and `SsTableBuilder::build` for a table that a compaction has
filled. -/
def buildNext (E : Extern) (s : LsmStorageInner M) (builder : SsTableBuilder) :
    Outcome M SsTable :=
  let sst_id := s.next_sst_id
  build E { s with next_sst_id := sst_id + 1 } builder sst_id

/-- The builder of a compaction with an entry added, unless the entry is dropped. -/
def addEntry (E : Extern) (s : LsmStorageInner M) (compact_to_bottom_level : Bool)
    (builder : Option SsTableBuilder) (key value : Bytes) : SsTableBuilder :=
  let b := builder.getD (SsTableBuilder.create s.options.block_size s.options.compression)
  if compact_to_bottom_level && value.isEmpty then b else b.add E key value

/-- The loop of `LsmStorageInner::compact_generate_sst_from_iter`, with a number of rounds. -/
def compactLoop {ι : Type} [Cursor ι Bytes Bytes Error] (E : Extern)
    (compact_to_bottom_level : Bool) :
    ℕ → ι → Option SsTableBuilder → List SsTable → LsmStorageInner M → Outcome M (List SsTable)
  | 0, _, _, _, s => (.error (.undefined "more moves than entries"), s)
  | n + 1, iter, builder, new_sst, s =>
    if Cursor.isValid iter then
      let b := s.addEntry E compact_to_bottom_level builder (Cursor.key iter) (Cursor.value iter)
      Outcome.bind (Cursor.next iter, s) fun iter s =>
        if !b.isEmpty && decide (b.estimatedSize ≥ s.options.target_sst_size) then
          (s.buildNext E b).bind fun sst s =>
            compactLoop E compact_to_bottom_level n iter none (new_sst ++ [sst]) s
        else compactLoop E compact_to_bottom_level n iter (some b) new_sst s
    else
      match builder.filter fun b => !b.isEmpty with
      | none => (.ok new_sst, s)
      | some b => (s.buildNext E b).bind fun sst s => (.ok (new_sst ++ [sst]), s)

/-- `LsmStorageInner::compact_generate_sst_from_iter`. Each round but the last moves the iterator.
-/
def compactGenerateSstFromIter {ι : Type} [Cursor ι Bytes Bytes Error] (E : Extern)
    (s : LsmStorageInner M) (iter : ι) (compact_to_bottom_level : Bool) : Outcome M (List SsTable) :=
  compactLoop E compact_to_bottom_level (Cursor.bound iter + 1) iter none [] s

/-- The iterator of a compaction of tables that may overlap into a level. -/
def mergeL0 (E : Extern) (s : LsmStorageInner M) (upper_ids lower_ids : List ℕ) :
    Except Error (TwoMergeIterator (MergeIterator (SsTableIterator E)) (SstConcatIterator E)) := do
  let l0_iters ← (s.state.tables upper_ids).mapM fun t => SsTableIterator.createAndSeekToFirst E t
  let concat_lower ← SstConcatIterator.createAndSeekToFirst E (s.state.tables lower_ids)
  TwoMergeIterator.create (MergeIterator.create l0_iters) concat_lower

/-- The iterator of a compaction of a level into the next one. -/
def mergeLevels (E : Extern) (s : LsmStorageInner M) (upper_ids lower_ids : List ℕ) :
    Except Error (TwoMergeIterator (SstConcatIterator E) (SstConcatIterator E)) := do
  let concat_lower ← SstConcatIterator.createAndSeekToFirst E (s.state.tables lower_ids)
  let concat_upper ← SstConcatIterator.createAndSeekToFirst E (s.state.tables upper_ids)
  TwoMergeIterator.create concat_upper concat_lower

/-- The iterator of a compaction of tiers. -/
def mergeTiers (E : Extern) (s : LsmStorageInner M) (tiers : List (ℕ × List ℕ)) :
    Except Error (MergeIterator (SstConcatIterator E)) := do
  let tier_iters ← tiers.mapM fun tier =>
    SstConcatIterator.createAndSeekToFirst E (s.state.tables tier.2)
  .ok (MergeIterator.create tier_iters)

/-- The tables that `compact` generates from an iterator, unless its creation throws. -/
def generateFrom {ι : Type} [Cursor ι Bytes Bytes Error] (E : Extern) (s : LsmStorageInner M)
    (iter : Except Error ι) (compact_to_bottom_level : Bool) : Outcome M (List SsTable) :=
  Outcome.bind (iter, s) fun iter s => s.compactGenerateSstFromIter E iter compact_to_bottom_level

/-- The branch of `LsmStorageInner::compact` for the two controllers with levels. -/
def compactLevel (E : Extern) (s : LsmStorageInner M) (upper_level : Option ℕ)
    (upper_ids lower_ids : List ℕ) (compact_to_bottom_level : Bool) : Outcome M (List SsTable) :=
  match upper_level with
  | some _ => s.generateFrom E (s.mergeLevels E upper_ids lower_ids) compact_to_bottom_level
  | none => s.generateFrom E (s.mergeL0 E upper_ids lower_ids) compact_to_bottom_level

/-- `LsmStorageInner::compact` -/
def compact (E : Extern) (s : LsmStorageInner M) (task : CompactionTask) :
    Outcome M (List SsTable) :=
  match task with
  | .forceFull t =>
    s.generateFrom E (s.mergeL0 E t.l0_sstables t.l1_sstables) task.compactToBottomLevel
  | .simple t => s.compactLevel E t.upper_level t.upper_level_sst_ids t.lower_level_sst_ids
      task.compactToBottomLevel
  | .leveled t => s.compactLevel E t.upper_level t.upper_level_sst_ids t.lower_level_sst_ids
      task.compactToBottomLevel
  | .tiered t => s.generateFrom E (s.mergeTiers E t.tiers) task.compactToBottomLevel

/-- The open tables with those of a compaction added. -/
def addTables (sstables : ℕ → Option SsTable) (new : List SsTable) : ℕ → Option SsTable :=
  new.foldl (fun m t => Function.update m t.id (some t)) sstables

/-- `std::remove` on the files of tables. -/
def removeSsts (s : LsmStorageInner M) (ids : List ℕ) : LsmStorageInner M :=
  { s with disk := { s.disk with ssts := fun id => if id ∈ ids then none else s.disk.ssts id } }

/-- The first step of `LsmStorageInner::trigger_compaction`: the snapshot and the task. -/
def generateTask (E : Extern) (s : LsmStorageInner M) : Option CompactionTask :=
  CompactionController.generateCompactionTask E.rounding s.options.compaction_options s.state

/-- The last step of `LsmStorageInner::trigger_compaction`. The files are removed of those tables
that are still open. -/
def applyTrigger (io : ManifestIO M) (s : LsmStorageInner M) (task : CompactionTask)
    (sstables : List SsTable) : Outcome M Unit :=
  let new_sst_ids := sstables.map SsTable.id
  let next_state := { s.state with sstables := addTables s.state.sstables sstables }
  let applied := CompactionController.applyCompactionResult s.options.compaction_options next_state
    task new_sst_ids false
  Outcome.bind (applied, s) fun (applied_state, files_to_remove) s =>
    let ssts_to_remove := files_to_remove.filter fun id => (applied_state.sstables id).isSome
    let s := { s with state := { applied_state with
      sstables := fun id => if id ∈ files_to_remove then none else applied_state.sstables id } }
    let s := s.addRecord io (.compaction task new_sst_ids)
    (.ok (), s.removeSsts ssts_to_remove)

/-- `LsmStorageInner::trigger_compaction` -/
def triggerCompaction (E : Extern) (io : ManifestIO M) (s : LsmStorageInner M) : Outcome M Bool :=
  match s.generateTask E with
  | none => (.ok false, s)
  | some task =>
    (s.compact E task).bind fun sstables s =>
      (s.applyTrigger io task sstables).bind fun _ s => (.ok true, s)

/-- The first step of `LsmStorageInner::force_full_compaction`. -/
def fullTask (s : LsmStorageInner M) : Except Error ForceFullCompactionTask :=
  if s.options.compaction_options ≠ .noCompaction then
    .error (.runtimeError "full compaction can only be called when compaction is not enabled")
  else .ok ⟨s.state.l0_sstables, s.state.levelIds 0⟩

/-- The last step of `LsmStorageInner::force_full_compaction`. -/
def applyFull (io : ManifestIO M) (s : LsmStorageInner M) (task : ForceFullCompactionTask)
    (sstables : List SsTable) : LsmStorageInner M :=
  let ids := sstables.map SsTable.id
  let erased := fun id =>
    if id ∈ task.l0_sstables ∨ id ∈ task.l1_sstables then none else s.state.sstables id
  let s := { s with state := { s.state with
    sstables := addTables erased sstables
    levels := if s.state.levels.isEmpty then [(1, ids)] else setLevel s.state.levels 0 ids
    l0_sstables := s.state.l0_sstables.filter (· ∉ task.l0_sstables) } }
  let s := s.addRecord io (.compaction (.forceFull task) ids)
  s.removeSsts (task.l0_sstables ++ task.l1_sstables)

/-- `LsmStorageInner::force_full_compaction` -/
def forceFullCompaction (E : Extern) (io : ManifestIO M) (s : LsmStorageInner M) :
    Outcome M Unit :=
  Outcome.bind (s.fullTask, s) fun task s =>
    (s.compact E (.forceFull task)).bind fun sstables s => (.ok (), s.applyFull io task sstables)

/-! ## Opening and closing -/

/-- What the replay of the manifest in `LsmStorageInner::open` keeps: the state, the identifiers of
the memtables that have not been flushed, in order, and the largest identifier so far. -/
structure Replay where
  state : LsmStorageState
  memtables : List ℕ
  next_id : ℕ

/-- One round of the replay in `LsmStorageInner::open`. -/
def replayRecord (options : CompactionOptions) (r : Replay) (record : ManifestRecord) :
    Except Error Replay :=
  match record with
  | .flush id =>
    .ok
      { state :=
          if CompactionController.flushToL0 options then
            { r.state with l0_sstables := id :: r.state.l0_sstables }
          else { r.state with levels := (id, [id]) :: r.state.levels }
        memtables := r.memtables.filter (· ≠ id)
        next_id := max r.next_id id }
  | .newMemtable id =>
    .ok
      { r with
        memtables := (r.memtables.filter (· ≠ id)).orderedInsert (· ≤ ·) id
        next_id := max r.next_id id }
  | .compaction task ids => do
    let (new_state, _) ← CompactionController.applyCompactionResult options r.state task ids true
    .ok { r with state := new_state, next_id := ids.foldl max r.next_id }

/-- The loading of a table in `LsmStorageInner::open`. -/
def openSst (E : Extern) (disk : Disk M) (id : ℕ) : Except Error SsTable :=
  match disk.ssts id with
  | none => .error (.runtimeError "Failed to open file")
  | some buf => SsTable.open E id buf

/-- The memtables that `LsmStorageInner::open` recovers from their logs, newest first, and the
directory with the logs cut to their full frames. A log that is missing is created. -/
def recoverMemtables (E : Extern) (disk : Disk M) (ids : List ℕ) : List MemTable × Disk M :=
  ids.foldl (fun acc id =>
    let buf := (acc.2.wals id).getD []
    let mem := MemTable.recoverFromWal E id buf
    (if mem.isEmpty then acc.1 else mem :: acc.1,
      { acc.2 with wals := Function.update acc.2.wals id (some (Wal.recover E buf).2) })) ([], disk)

/-- The branch of `LsmStorageInner::open` for a directory without a manifest. -/
def openFresh (io : ManifestIO M) (disk : Disk M) (options : LsmStorageOptions) :
    LsmStorageInner M :=
  let inner : LsmStorageInner M := ⟨LsmStorageState.create options, 1, options, false, disk⟩
  let inner :=
    if options.enable_wal then
      { inner.createWal 0 with state := { inner.state with memtable := MemTable.createWithWal 0 } }
    else inner
  let inner := { inner with manifest := true, disk := { inner.disk with manifest := some io.create } }
  inner.addRecord io (.newMemtable inner.state.memtable.id)

/-- The branch of `LsmStorageInner::open` for a manifest that has been recovered. -/
def openRecovered (E : Extern) (io : ManifestIO M) (disk : Disk M) (options : LsmStorageOptions)
    (records : List ManifestRecord) : Except Error (LsmStorageInner M) := do
  let r ← records.foldlM (replayRecord options.compaction_options)
    ⟨LsmStorageState.create options, [], 1⟩
  let ids := r.state.l0_sstables ++ (r.state.levels.map Prod.snd).flatten
  let ssts ← ids.mapM (openSst E disk)
  let next_id := r.next_id + 1
  let (imm_memtables, disk) :=
    if options.enable_wal then recoverMemtables E disk r.memtables else ([], disk)
  let inner : LsmStorageInner M := ⟨{ r.state with
    sstables := addTables r.state.sstables ssts
    imm_memtables := imm_memtables }, next_id + 1, options, true, disk⟩
  let inner := if options.enable_wal then inner.createWal next_id else inner
  let memtable :=
    if options.enable_wal then MemTable.createWithWal next_id else MemTable.create next_id
  let inner := { inner with state := { inner.state with memtable := memtable } }
  .ok (inner.addRecord io (.newMemtable next_id))

/-- The loop of `MiniLsm::close`, with a number of rounds. -/
def flushAll (E : Extern) (io : ManifestIO M) : ℕ → LsmStorageInner M → Outcome M Unit
  | 0, s => (.ok (), s)
  | n + 1, s => (s.forceFlushNextImmMemtable E io).bind fun _ s => flushAll E io n s

/-- `MiniLsm::close`, once its threads have ended. Each round of the loop flushes a memtable. -/
def close (E : Extern) (io : ManifestIO M) (s : LsmStorageInner M) : Outcome M Unit :=
  if s.options.enable_wal then (.ok (), s.sync)
  else
    let s := if s.state.memtable.isEmpty then s else s.forceFreezeMemtable io
    flushAll E io s.state.imm_memtables.length s

/-- The directory when the store has been destroyed: the streams of the logs are closed, which
passes their buffers on. -/
def destroy (s : LsmStorageInner M) : Disk M :=
  (s.state.memtable :: s.state.imm_memtables).foldl flushWal s.disk

end LsmStorageInner

/-- `LsmStorageInner::open`. A manifest that cannot be recovered leaves the new store as the
constructor made it. -/
def LsmStorageInner.open {M : Type} (E : Extern) (io : ManifestIO M) (disk : Disk M)
    (options : LsmStorageOptions) :
    Except Error (LsmStorageInner M) :=
  match disk.manifest with
  | none => .ok (LsmStorageInner.openFresh io disk options)
  | some m =>
    match io.recover m with
    | .error (.runtimeError _) => .ok ⟨LsmStorageState.create options, 1, options, false, disk⟩
    | .error e => .error e
    | .ok (records, m) =>
      LsmStorageInner.openRecovered E io { disk with manifest := some m } options records

end MiniLsm
