import MiniLsm.Sessions
import MiniLsm.Freezing
import MiniLsm.Durability

/-!
# The first session

`Manifest::recover` leaves the descriptor at the start of the file, so that the file forgets records
once it has been recovered (`ManifestFile.logLaw_iff`). Until then it is as good as the list of its
records. A store does not look at its manifest within a session: it is created, and records are
added to it. A store that keeps the list takes the same steps as one that keeps the file, whose
content is at any time the frames of the list (`ManifestIO.written`), and the first recovery returns
the list.

So what is proved of the runs of a store with `ManifestIO.list` holds of the runs of a store with
`ManifestFile.io`, up to its first recovery and including it.
-/

namespace MiniLsm

open LsmStorageInner

variable {M M' : Type}

/-! ## Manifests that are written alike -/

/-- A map between two kinds of manifests, which are created and written alike. -/
structure ManifestIO.Maps (io : ManifestIO M) (io' : ManifestIO M') (f : M → M') : Prop where
  create : f io.create = io'.create
  addRecord : ∀ m record, f (io.addRecord m record) = io'.addRecord (f m) record

/-- The manifest that some records have been added to since it was created. -/
def ManifestIO.written (io : ManifestIO M) (records : List ManifestRecord) : M :=
  records.foldl io.addRecord io.create

/-- Any manifest is written as the list of its records is. -/
theorem ManifestIO.maps_written (io : ManifestIO M) : ManifestIO.list.Maps io io.written where
  create := rfl
  addRecord records record := List.foldl_concat io.addRecord io.create record records

/-- The directory with another manifest. -/
def Disk.mapManifest (f : M → M') (disk : Disk M) : Disk M' :=
  ⟨disk.manifest.map f, disk.ssts, disk.wals⟩

namespace LsmStorageInner

variable {E : Extern} {io : ManifestIO M} {io' : ManifestIO M'} {f : M → M'}

/-- The store with another manifest. -/
def mapManifest (f : M → M') (s : LsmStorageInner M) : LsmStorageInner M' :=
  ⟨s.state, s.next_sst_id, s.options, s.manifest, s.disk.mapManifest f⟩

/-- The outcome with another manifest in the store. -/
def mapOutcome {α : Type} (f : M → M') (o : Outcome M α) : Outcome M' α :=
  (o.1, o.2.mapManifest f)

/-- Operations one after the other. -/
theorem bind_mapOutcome {α β : Type} (o : Outcome M α) {g : α → LsmStorageInner M → Outcome M β}
    {k : α → LsmStorageInner M' → Outcome M' β}
    (h : ∀ a s, k a (s.mapManifest f) = mapOutcome f (g a s)) :
    (mapOutcome f o).bind k = mapOutcome f (o.bind g) := by
  obtain ⟨e | a, s⟩ := o
  · rfl
  · exact h a s

/-! ### Writes -/

/-- A record is added to either manifest. -/
theorem addRecord_mapManifest (h : io.Maps io' f) (s : LsmStorageInner M)
    (record : ManifestRecord) :
    (s.mapManifest f).addRecord io' record = (s.addRecord io record).mapManifest f := by
  unfold addRecord mapManifest
  dsimp only
  split_ifs
  · rw [Disk.mapManifest, Disk.mapManifest, Option.map_map, Option.map_map]
    simp only [Function.comp_def, h.addRecord]
  · rfl

/-- A new store has a new manifest, with its first record. -/
theorem openFresh_mapManifest (h : io.Maps io' f) (disk : Disk M) (options : LsmStorageOptions) :
    openFresh io' (disk.mapManifest f) options = (openFresh io disk options).mapManifest f := by
  unfold openFresh
  dsimp only
  rw [← addRecord_mapManifest h, ← h.create]
  split_ifs <;> rfl

/-- A freeze takes the same identifier and makes the same log. -/
theorem createMemtable_mapManifest (f : M → M') (s : LsmStorageInner M) :
    (s.mapManifest f).createMemtable = s.createMemtable.mapManifest f := by
  unfold createMemtable mapManifest
  dsimp only
  split_ifs <;> rfl

/-- A freeze adds the same record. -/
theorem forceFreezeMemtable_mapManifest (h : io.Maps io' f) (s : LsmStorageInner M) :
    (s.mapManifest f).forceFreezeMemtable io' = (s.forceFreezeMemtable io).mapManifest f := by
  rw [forceFreezeMemtable_eq, forceFreezeMemtable_eq, ← addRecord_mapManifest h,
    createMemtable_mapManifest]
  rfl

/-- A write freezes the memtable in both stores or in none. -/
theorem put_mapManifest (h : io.Maps io' f) (s : LsmStorageInner M) (key value : Bytes) :
    (s.mapManifest f).put E io' key value = (s.put E io key value).mapManifest f := by
  by_cases hfull : (s.write E key value).state.memtable.approximate_size ≥ s.options.target_sst_size
  · have hfreeze := forceFreezeMemtable_mapManifest h (s.write E key value)
    exact (if_pos hfull).trans (hfreeze.trans (congrArg (mapManifest f) (if_pos hfull).symm))
  · have hwrite : (s.mapManifest f).write E key value = (s.write E key value).mapManifest f := rfl
    exact (if_neg hfull).trans (hwrite.trans (congrArg (mapManifest f) (if_neg hfull).symm))

/-- A flush writes the same table and adds the same record. -/
theorem flush_mapManifest (h : io.Maps io' f) (s : LsmStorageInner M) :
    (s.mapManifest f).forceFlushNextImmMemtable E io' =
      mapOutcome f (s.forceFlushNextImmMemtable E io) := by
  unfold forceFlushNextImmMemtable
  rw [show (s.mapManifest f).state = s.state from rfl]
  rcases s.state.imm_memtables.getLast? with _ | m
  · rfl
  · exact bind_mapOutcome (s.build E _ m.id) fun t s =>
      congrArg (Prod.mk _) (addRecord_mapManifest h (s.addFlushed m.id t) _)

/-! ### Compactions -/

/-- The loop of a compaction does not look at the manifest. -/
theorem compactLoop_mapManifest {ι : Type} [Cursor ι Bytes Bytes Error] (f : M → M') (bottom : Bool)
    (n : ℕ) (iter : ι) (builder : Option SsTableBuilder) (new_sst : List SsTable)
    (s : LsmStorageInner M) :
    compactLoop E bottom n iter builder new_sst (s.mapManifest f) =
      mapOutcome f (compactLoop E bottom n iter builder new_sst s) := by
  -- The options, the next identifier and the files of tables are all that a round looks at.
  induction n generalizing iter builder new_sst s with
  | zero => rfl
  | succ n ih =>
    unfold compactLoop
    split_ifs with hvalid
    · refine bind_mapOutcome (Cursor.next iter, s) fun iter' s' => ?_
      rw [show (s'.mapManifest f).options = s'.options from rfl,
        show (s.mapManifest f).addEntry E bottom builder (Cursor.key iter) (Cursor.value iter) =
          s.addEntry E bottom builder (Cursor.key iter) (Cursor.value iter) from rfl]
      split_ifs
      · exact bind_mapOutcome (s'.buildNext E _) fun sst s => ih iter' none _ s
      · exact ih iter' _ new_sst s'
    · rcases hfilter : builder.filter fun b => !b.isEmpty with _ | b
      · simp only [hfilter]
        rfl
      · simp only [hfilter]
        exact bind_mapOutcome (s.buildNext E b)
          (g := fun sst s => (.ok (new_sst ++ [sst]), s)) fun _ _ => rfl

/-- A compaction writes the same tables. -/
theorem compact_mapManifest (f : M → M') (s : LsmStorageInner M) (task : CompactionTask) :
    (s.mapManifest f).compact E task = mapOutcome f (s.compact E task) := by
  have hgen : ∀ {ι : Type} [Cursor ι Bytes Bytes Error] (iter : Except Error ι) (bottom : Bool),
      (s.mapManifest f).generateFrom E iter bottom = mapOutcome f (s.generateFrom E iter bottom) :=
    fun iter bottom => bind_mapOutcome (iter, s) fun iter s =>
      compactLoop_mapManifest f bottom _ iter none [] s
  have hlevel : ∀ (upper_level : Option ℕ) (upper_ids lower_ids : List ℕ) (bottom : Bool),
      (s.mapManifest f).compactLevel E upper_level upper_ids lower_ids bottom =
        mapOutcome f (s.compactLevel E upper_level upper_ids lower_ids bottom) := by
    intro upper_level upper_ids lower_ids bottom
    rcases upper_level with _ | i
    · exact hgen (s.mergeL0 E upper_ids lower_ids) bottom
    · exact hgen (s.mergeLevels E upper_ids lower_ids) bottom
  cases task with
  | forceFull t => exact hgen (s.mergeL0 E t.l0_sstables t.l1_sstables) _
  | simple t => exact hlevel _ _ _ _
  | leveled t => exact hlevel _ _ _ _
  | tiered t => exact hgen (s.mergeTiers E t.tiers) _

/-- The change of the state is the same, with the same record behind it. -/
theorem applyResult_mapManifest (h : io.Maps io' f) (s : LsmStorageInner M) (task : CompactionTask)
    (ts : List SsTable) :
    (s.mapManifest f).applyResult io' task ts = (s.applyResult io task ts).mapManifest f := by
  have hremove : ∀ (s : LsmStorageInner M) (record : ManifestRecord) (ids : List ℕ),
      ((s.mapManifest f).addRecord io' record).removeSsts ids =
        ((s.addRecord io record).removeSsts ids).mapManifest f := fun s record ids =>
    congrArg (fun s => removeSsts s ids) (addRecord_mapManifest h s record)
  have htrigger : ∀ task, ((s.mapManifest f).applyTrigger io' task ts).2 =
      ((s.applyTrigger io task ts).2).mapManifest f := by
    intro task
    have hbind := bind_mapOutcome (f := f)
      (CompactionController.applyCompactionResult s.options.compaction_options
        { s.state with sstables := addTables s.state.sstables ts } task (ts.map SsTable.id) false,
          s)
      (g := fun a s => (.ok (),
        (({ s with state := { a.1 with
          sstables := fun id => if id ∈ a.2 then none else a.1.sstables id } }).addRecord io
            (.compaction task (ts.map SsTable.id))).removeSsts
              (a.2.filter fun id => (a.1.sstables id).isSome)))
      (k := fun a s => (.ok (),
        (({ s with state := { a.1 with
          sstables := fun id => if id ∈ a.2 then none else a.1.sstables id } }).addRecord io'
            (.compaction task (ts.map SsTable.id))).removeSsts
              (a.2.filter fun id => (a.1.sstables id).isSome)))
      fun a s => congrArg (Prod.mk _) (hremove { s with state := { a.1 with
        sstables := fun id => if id ∈ a.2 then none else a.1.sstables id } } _ _)
    exact congrArg Prod.snd hbind
  cases task with
  | forceFull t => exact hremove { s with state := { s.state with
      sstables := addTables (fun id =>
        if id ∈ t.l0_sstables ∨ id ∈ t.l1_sstables then none else s.state.sstables id) ts
      levels := if s.state.levels.isEmpty then [(1, ts.map SsTable.id)]
        else setLevel s.state.levels 0 (ts.map SsTable.id)
      l0_sstables := s.state.l0_sstables.filter (· ∉ t.l0_sstables) } } _ _
  | simple t => exact htrigger _
  | leveled t => exact htrigger _
  | tiered t => exact htrigger _

/-! ### Closing -/

/-- So does each round of `MiniLsm::close`. -/
theorem flushAll_mapManifest (h : io.Maps io' f) (n : ℕ) (s : LsmStorageInner M) :
    flushAll E io' n (s.mapManifest f) = mapOutcome f (flushAll E io n s) := by
  induction n generalizing s with
  | zero => rfl
  | succ n ih =>
    rw [flushAll, flushAll, flush_mapManifest h]
    exact bind_mapOutcome _ fun _ s => ih s

/-- The store that is flushed is the same. -/
theorem closing_mapManifest (h : io.Maps io' f) (s : LsmStorageInner M) :
    (s.mapManifest f).closing io' = (s.closing io).mapManifest f := by
  unfold closing
  rw [show (s.mapManifest f).state = s.state from rfl, forceFreezeMemtable_mapManifest h]
  split_ifs <;> rfl

/-- `sync` has to do with the log of the memtable only. -/
theorem sync_mapManifest (f : M → M') (s : LsmStorageInner M) :
    (s.mapManifest f).sync = s.sync.mapManifest f := by
  unfold sync flushWal
  rw [show (s.mapManifest f).state = s.state from rfl]
  rcases s.state.memtable.wal with _ | w <;> rfl

/-- `MiniLsm::close` returns or throws the same. -/
theorem close_mapManifest (h : io.Maps io' f) (s : LsmStorageInner M) :
    (s.mapManifest f).close E io' = mapOutcome f (s.close E io) := by
  rcases hwal : s.options.enable_wal with _ | _
  · rw [close_of_no_wal hwal, close_of_no_wal (s := s.mapManifest f) hwal, closing_mapManifest h]
    exact flushAll_mapManifest h _ _
  · rw [close_of_wal hwal, close_of_wal (s := s.mapManifest f) hwal, sync_mapManifest]
    rfl

/-- The destruction has to do with the logs only. -/
theorem destroy_mapManifest (f : M → M') (s : LsmStorageInner M) :
    (s.mapManifest f).destroy = s.destroy.mapManifest f := by
  have hfold : ∀ (ms : List MemTable) (disk : Disk M),
      ms.foldl flushWal (disk.mapManifest f) = (ms.foldl flushWal disk).mapManifest f := by
    intro ms
    induction ms with
    | nil => exact fun _ => rfl
    | cons m ms ih =>
      intro disk
      rw [List.foldl_cons, List.foldl_cons, ← ih]
      refine congrArg (List.foldl flushWal · ms) ?_
      unfold flushWal
      rcases m.wal with _ | w <;> rfl
  exact hfold _ _

/-- The directories that are left have the same table and log files. -/
theorem shutdown_mapManifest (h : io.Maps io' f) (s : LsmStorageInner M) :
    (s.mapManifest f).shutdown E io' = (s.shutdown E io).mapManifest f := by
  have hclose : ∀ s : LsmStorageInner M,
      ((s.mapManifest f).close E io').2 = (s.close E io).2.mapManifest f :=
    fun s => congrArg Prod.snd (close_mapManifest h s)
  rw [shutdown, hclose, hclose, destroy_mapManifest]
  rfl

/-! ### Opening -/

/-- The logs are recovered without the manifest. -/
theorem recoverMemtables_mapManifest (f : M → M') (disk : Disk M) (ids : List ℕ) :
    recoverMemtables E (disk.mapManifest f) ids =
      ((recoverMemtables E disk ids).1, (recoverMemtables E disk ids).2.mapManifest f) := by
  induction ids using List.reverseRecOn with
  | nil => rfl
  | append_singleton ids id ih =>
    unfold recoverMemtables at ih ⊢
    rw [List.foldl_append, List.foldl_append, ih]
    rfl

/-- What is opened from given records. -/
theorem openRecovered_mapManifest (h : io.Maps io' f) (disk : Disk M) (options : LsmStorageOptions)
    (records : List ManifestRecord) :
    openRecovered E io' (disk.mapManifest f) options records =
      (openRecovered E io disk options records).map (mapManifest f) := by
  rw [openRecovered_eq, openRecovered_eq]
  rcases replay options records with e | r
  · rfl
  rw [ok_bind, ok_bind, show openSst E (disk.mapManifest f) = openSst E disk from rfl]
  rcases r.state.tableIds.mapM (openSst E disk) with e | ts
  · rfl
  have hmem : reopenedMemtables E (disk.mapManifest f) options r =
      ((reopenedMemtables E disk options r).1,
        (reopenedMemtables E disk options r).2.mapManifest f) := by
    unfold reopenedMemtables
    split_ifs
    · exact recoverMemtables_mapManifest f disk r.memtables
    · rfl
  rw [ok_bind, ok_bind, reopenedState, reopenedDisk, hmem]
  unfold Except.map mapManifest reopenedState reopenedDisk Disk.mapManifest
  dsimp only
  rw [Option.map_map, Option.map_map]
  simp only [Function.comp_def, h.addRecord]

/-- The store less its manifest. -/
def forgetManifest (s : LsmStorageInner M) : LsmStorageInner Unit := s.mapManifest fun _ => ()

/-- Two directories with the same table and log files, and manifests with the same records, are
opened as stores that differ in their manifests only. -/
theorem open_forgetManifest (E : Extern) {disk : Disk M} {disk' : Disk M'} {m m₁ : M} {m' m₁' : M'}
    {records : List ManifestRecord} (hm : disk.manifest = some m) (hm' : disk'.manifest = some m')
    (hssts : disk'.ssts = disk.ssts) (hwals : disk'.wals = disk.wals)
    (hrec : io.recover m = .ok (records, m₁)) (hrec' : io'.recover m' = .ok (records, m₁'))
    (options : LsmStorageOptions) :
    (LsmStorageInner.open E io' disk' options).map forgetManifest =
      (LsmStorageInner.open E io disk options).map forgetManifest := by
  -- Both are the store of a manifest that keeps nothing.
  let unit : ManifestIO Unit := ⟨(), fun _ => .ok ([], ()), fun _ _ => ()⟩
  have hmaps : io.Maps unit fun _ => () := ⟨rfl, fun _ _ => rfl⟩
  have hmaps' : io'.Maps unit fun _ => () := ⟨rfl, fun _ _ => rfl⟩
  rw [LsmStorageInner.open, LsmStorageInner.open, hm, hm']
  dsimp only
  rw [hrec, hrec']
  dsimp only
  have h := openRecovered_mapManifest (E := E) hmaps { disk with manifest := some m₁ } options
    records
  have h' := openRecovered_mapManifest (E := E) hmaps' { disk' with manifest := some m₁' } options
    records
  refine h'.symm.trans (Eq.trans ?_ h)
  rw [Disk.mapManifest, Disk.mapManifest, hssts, hwals]
  rfl

end LsmStorageInner

/-! ## Runs -/

namespace Machine

variable {τ : Type} [DecidableEq τ] {E : Extern} {io : ManifestIO M} {io' : ManifestIO M'}
  {f : M → M'}

/-- The machine with another manifest. -/
def mapManifest (f : M → M') (c : Machine M τ) : Machine M' τ := ⟨c.store.mapManifest f, c.calls⟩

/-- A task is chosen without the manifest. -/
theorem begin_mapManifest (f : M → M') (c : Machine M τ) (i : τ) (task : Option CompactionTask) :
    (c.mapManifest f).begin i task = (c.begin i task).map (mapManifest f) := by
  unfold begin
  rw [show (c.mapManifest f).calls = c.calls from rfl]
  rcases c.calls i with _ | call <;> rcases task with _ | task <;> rfl

/-- A step does not depend on the manifest. -/
theorem step_mapManifest (h : io.Maps io' f) (c : Machine M τ) (op : Op τ) :
    (c.mapManifest f).step E io' op = (c.step E io op).map (mapManifest f) := by
  have hstore : ∀ {s : LsmStorageInner M} {s' : LsmStorageInner M'}, s' = s.mapManifest f →
      (some { c.mapManifest f with store := s' } : Option (Machine M' τ)) =
        (some { c with store := s }).map (mapManifest f) := by
    rintro s s' rfl
    rfl
  cases op with
  | put key value => exact hstore (put_mapManifest h c.store key value)
  | del key => exact hstore (put_mapManifest h c.store key [])
  | freeze =>
    unfold step
    rw [show (c.mapManifest f).store.state = c.store.state from rfl]
    split_ifs
    · rfl
    · exact hstore (forceFreezeMemtable_mapManifest h c.store)
  | flush => exact hstore (congrArg Prod.snd (flush_mapManifest h c.store))
  | trigger i => exact c.begin_mapManifest f i _
  | full i => exact c.begin_mapManifest f i _
  | compact i =>
    have hcalls : (c.mapManifest f).calls i = c.calls i := rfl
    simp only [step, hcalls]
    rcases c.calls i with _ | call
    · rfl
    · dsimp only
      split_ifs
      · rw [compactStep, show (c.mapManifest f).store = c.store.mapManifest f from rfl,
          compact_mapManifest]
        rfl
      · rfl
  | apply i =>
    have hcalls : (c.mapManifest f).calls i = c.calls i := rfl
    simp only [step, hcalls]
    rcases c.calls i with _ | call
    · rfl
    · rcases hts : call.sstables with _ | ts
      · simp only [hts, Option.map_none]
      · simp only [hts, Option.map_some, applyStep]
        rw [show (c.mapManifest f).store = c.store.mapManifest f from rfl,
          applyResult_mapManifest h]
        rfl

omit [DecidableEq τ] in
/-- A new store. -/
theorem start_written (io : ManifestIO M) (options : LsmStorageOptions) :
    (start io options : Machine M τ) = (start .list options).mapManifest io.written :=
  congrArg (fun s => (⟨s, fun _ => none⟩ : Machine M τ))
    (openFresh_mapManifest io.maps_written Disk.empty options)

/-- The runs of a store with any manifest are those of the store with the list of its records. -/
theorem steps_written_iff (io : ManifestIO M) {options : LsmStorageOptions}
    {P : Machine M τ → Op τ → Prop} {ops : List (Op τ)} {c : Machine M τ} :
    Steps (Machine.step E io) P (start io options) ops c ↔
      ∃ c₀, Steps (Machine.step E .list) (fun c op => P (c.mapManifest io.written) op)
        (start .list options) ops c₀ ∧ c₀.mapManifest io.written = c := by
  rw [start_written]
  exact Steps.map_iff (step_mapManifest io.maps_written)

end Machine

/-- The same for the runs of a store that one thread uses. -/
theorem LsmStorageInner.storeSteps_written_iff {E : Extern} (io : ManifestIO M)
    {options : LsmStorageOptions} {P : LsmStorageInner M → StoreOp → Prop} {ops : List StoreOp}
    {s : LsmStorageInner M} :
    Steps (storeStep E io) P (openFresh io Disk.empty options) ops s ↔
      ∃ s₀, Steps (storeStep E .list) (fun s op => P (s.mapManifest io.written) op)
        (openFresh .list Disk.empty options) ops s₀ ∧ s₀.mapManifest io.written = s := by
  have hstep : ∀ (s : LsmStorageInner (List ManifestRecord)) (op : StoreOp),
      (s.mapManifest io.written).storeStep E io op =
        (s.storeStep E .list op).map (mapManifest io.written) := by
    intro s op
    cases op with
    | put key value => exact congrArg some (put_mapManifest io.maps_written s key value)
    | del key => exact congrArg some (put_mapManifest io.maps_written s key [])
    | freeze =>
      unfold storeStep
      rw [show (s.mapManifest io.written).state = s.state from rfl]
      split_ifs
      · rfl
      · exact congrArg some (forceFreezeMemtable_mapManifest io.maps_written s)
    | flush => exact congrArg (some ·.2) (flush_mapManifest io.maps_written s)
    | sync => exact congrArg some (s.sync_mapManifest io.written)
  rw [show openFresh io Disk.empty options = _ from
    openFresh_mapManifest io.maps_written Disk.empty options]
  exact Steps.map_iff hstep

namespace Freezer

variable {E : Extern} {io : ManifestIO M} {io' : ManifestIO M'} {f : M → M'}

/-- The store with another manifest, and the freeze as far as it has come. -/
def mapManifest (f : M → M') (c : Freezer M) : Freezer M' := ⟨c.store.mapManifest f, c.phase⟩

/-- A step does not depend on the manifest. -/
theorem step_mapManifest (h : io.Maps io' f) (c : Freezer M) (op : FreezeStep) :
    (c.mapManifest f).step E io' op = (c.step E io op).map (mapManifest f) := by
  have hphase : (c.mapManifest f).phase = c.phase := rfl
  have hstore : (c.mapManifest f).store = c.store.mapManifest f := rfl
  cases op with
  | put key value => rfl
  | del key => rfl
  | sync =>
    exact congrArg (fun s => some (⟨s, c.phase⟩ : Freezer M')) (c.store.sync_mapManifest f)
  | create =>
    simp only [step, hphase, hstore, createMemtable_mapManifest]
    rcases c.phase with _ | id | id <;> rfl
  | swap =>
    simp only [step, hphase]
    rcases c.phase with _ | id | id <;> rfl
  | record =>
    simp only [step, hphase, hstore, addRecord_mapManifest h]
    rcases c.phase with _ | id | id <;> rfl

/-- The same for the runs of the threads that freeze its memtable. -/
theorem steps_written_iff (io : ManifestIO M) {s : LsmStorageInner (List ManifestRecord)}
    {P : Freezer M → FreezeStep → Prop} {ops : List FreezeStep} {c : Freezer M} :
    FreezeRun E io (s.mapManifest io.written) P ops c ↔
      ∃ c₀, FreezeRun E .list s (fun c op => P (c.mapManifest io.written) op) ops c₀ ∧
        c₀.mapManifest io.written = c := by
  have hstart : (⟨s.mapManifest io.written, .idle⟩ : Freezer M) =
      mapManifest io.written ⟨s, .idle⟩ := rfl
  rw [FreezeRun, hstart]
  exact Steps.map_iff (step_mapManifest io.maps_written)

end Freezer

/-! ## The file -/

namespace ManifestFile

variable {E : Extern} {codec : JsonCodec} {records : List ManifestRecord}

/-- The file of a session is recovered once. -/
theorem recover_written (h : ∀ record ∈ records, codec.Faithful record) :
    ((ManifestFile.io E codec).written records).recover E codec =
      .ok (records, ⟨recordFrames E codec records, 0⟩) := by
  refine recover_frames h ?_
  change (create.addRecords E codec records).content = _
  exact congrArg content (addRecords_frames [] records)

/-- The first recovery of a store that keeps its manifest in the file opens the same store as if it
kept the list of its records. -/
theorem open_written (h : ∀ record ∈ records, codec.Faithful record)
    {disk : Disk (List ManifestRecord)} (hm : disk.manifest = some records)
    (options : LsmStorageOptions) :
    (LsmStorageInner.open E (ManifestFile.io E codec)
        (disk.mapManifest (ManifestFile.io E codec).written) options).map forgetManifest =
      (LsmStorageInner.open E .list disk options).map forgetManifest :=
  have hm' : (disk.mapManifest (ManifestFile.io E codec).written).manifest =
      some ((ManifestFile.io E codec).written records) := congrArg (Option.map _) hm
  open_forgetManifest E hm hm' rfl rfl rfl (recover_written h) options

/-- The same behind a crash: what a crash leaves of a store that keeps the file, it leaves of the
one that keeps the list. -/
theorem open_crashed {s : LsmStorageInner (List ManifestRecord)} {disk : Disk ManifestFile}
    (hc : (s.mapManifest (ManifestFile.io E codec).written).Crashed disk)
    (hm : s.disk.manifest = some records) (h : ∀ record ∈ records, codec.Faithful record)
    (options : LsmStorageOptions) :
    s.Crashed { s.disk with ssts := disk.ssts, wals := disk.wals } ∧
      (LsmStorageInner.open E (ManifestFile.io E codec) disk options).map forgetManifest =
        (LsmStorageInner.open E .list { s.disk with ssts := disk.ssts, wals := disk.wals }
          options).map forgetManifest :=
  have hdisk : ({ s.disk with ssts := disk.ssts, wals := disk.wals } :
      Disk (List ManifestRecord)).manifest = some records := hm
  ⟨⟨rfl, hc.ssts, hc.wals⟩, open_forgetManifest E hdisk
    (hc.manifest.trans (congrArg (Option.map _) hm)) rfl rfl rfl (recover_written h) options⟩

/-- The tables of a session are durable in the one store as they are in the other. -/
theorem durableTables_written {log : ManifestFile → List ManifestRecord}
    (hlog : ∀ f records f', f.recover E codec = .ok (records, f') → log f = records)
    {s : LsmStorageInner (List ManifestRecord)} (hm : s.disk.manifest = some records)
    (h : ∀ record ∈ records, codec.Faithful record) :
    (s.mapManifest (ManifestFile.io E codec).written).DurableTables log ↔ s.DurableTables id := by
  have hrecords : (s.mapManifest (ManifestFile.io E codec).written).records log = s.records id := by
    have hm' : (s.mapManifest (ManifestFile.io E codec).written).disk.manifest =
        some ((ManifestFile.io E codec).written records) := congrArg (Option.map _) hm
    rw [LsmStorageInner.records, LsmStorageInner.records, hm, hm', Option.map_some,
      hlog _ _ _ (recover_written h)]
    rfl
  rw [LsmStorageInner.DurableTables, LsmStorageInner.DurableTables, hrecords]
  rfl

end ManifestFile

/-- A store that keeps its manifest in the file, and is closed and opened again for the first time,
has every key with the same value. -/
theorem Machine.Run.reopen_written {E : Extern} {codec : JsonCodec} {options : LsmStorageOptions}
    (hsize : options.block_size ≤ 65536) (hplain : options.compaction_options.Plain)
    {P : Machine ManifestFile Unit → Op Unit → Prop} {ops : List (Op Unit)}
    {c : Machine ManifestFile Unit} (hrun : Run E (ManifestFile.io E codec) options P ops c)
    (hsmall : c.store.ClosesSmall E (ManifestFile.io E codec))
    (hcodec : ∀ records, (c.store.shutdown E (ManifestFile.io E codec)).manifest =
      some ((ManifestFile.io E codec).written records) →
      ∀ record ∈ records, codec.Faithful record) :
    ∃ t, LsmStorageInner.open E (ManifestFile.io E codec)
        (c.store.shutdown E (ManifestFile.io E codec)) options = .ok t ∧
      ∀ k, t.get E k = c.store.get E k := by
  have hmaps := (ManifestFile.io E codec).maps_written
  -- The same run of a store that keeps the list.
  obtain ⟨c₀, hrun₀, rfl⟩ : ∃ c₀ : Machine (List ManifestRecord) Unit,
      Run E .list options (fun _ _ => True) ops c₀ ∧
        c₀.mapManifest (ManifestFile.io E codec).written = c := by
    clear hsmall hcodec
    induction hrun with
    | start => exact ⟨_, .start, (start_written _ options).symm⟩
    | step _ _ hs hstep hdisk ih =>
      obtain ⟨c₀, hrun₀, rfl⟩ := ih
      rw [step_mapManifest hmaps] at hstep
      obtain ⟨c₁, hstep₀, rfl⟩ := Option.map_eq_some_iff.mp hstep
      exact ⟨c₁, hrun₀.step trivial hs hstep₀ hdisk, rfl⟩
  have hsmall₀ : c₀.store.ClosesSmall E .list := by
    intro hwal n
    have h := hsmall hwal n
    rwa [show (c₀.mapManifest (ManifestFile.io E codec).written).store =
        c₀.store.mapManifest (ManifestFile.io E codec).written from rfl,
      closing_mapManifest hmaps, flushAll_mapManifest hmaps] at h
  have hc : c₀.Session E id options := Session.of_steps ManifestIO.list_lawful hsize hplain
    (hrun₀.session_steps.imp (I := fun _ => True) trivial (fun _ _ _ _ _ _ => trivial)
      fun _ _ _ hk => hk.1)
  obtain ⟨z, r, rs, t, r', hz, hopen, -, hview, ht⟩ := hc.restart ManifestIO.list_lawful hsmall₀
  obtain ⟨records, hm⟩ : ∃ records, (c₀.store.shutdown E .list).manifest = some records := by
    rw [hz.shutdown, (destroy_killed hz.inv).manifest]
    exact Option.isSome_iff_exists.mp hz.replays.journaled.isSome
  rw [show (c₀.mapManifest (ManifestFile.io E codec).written).store =
    c₀.store.mapManifest (ManifestFile.io E codec).written from rfl, shutdown_mapManifest hmaps]
    at hcodec ⊢
  -- The file is recovered for the first time.
  have hfirst := ManifestFile.open_written (E := E)
    (hcodec records (congrArg (Option.map _) hm)) hm options
  rw [← hc.options_eq, hopen] at hfirst
  rw [← hc.options_eq]
  rcases hopen' : LsmStorageInner.open E (ManifestFile.io E codec) _ c₀.store.options with e | t'
  · rw [hopen'] at hfirst
    cases hfirst
  · rw [hopen'] at hfirst
    have hforget : t'.forgetManifest = t.forgetManifest := Except.ok.inj hfirst
    have hget : t'.get E = t.get E :=
      congrArg (fun s : LsmStorageInner Unit => s.get E) hforget
    refine ⟨t', rfl, fun k => ?_⟩
    rw [hget, get_spec ht.inv.store.readable, hview]
    exact (get_spec hc.inv.store.readable k).symm

end MiniLsm
