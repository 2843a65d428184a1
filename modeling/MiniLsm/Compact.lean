import MiniLsm.MemTable

/-!
# Compaction: options, tasks, and controllers

The options and tasks of `include/mini_lsm/compact.h`, the state of the store that the controllers
look at (`LsmStorageState` of `include/mini_lsm/lsm_storage.h`), and the three controllers of
`src/compact/` with `CompactionController`, which selects one of them.

Assertions are those of a build without them: the model computes what the statements compute. An
index into `levels` that is out of range is an access outside of the vector; the model reads an
empty level there and writes nothing.

`sstables`, the `std::unordered_map` of open tables, is a function from identifiers. It is looked up
by identifier only.
-/

namespace MiniLsm

/-! ## Options -/

/-- `SimpleLeveledCompactionOptions` -/
structure SimpleLeveledCompactionOptions where
  size_ratio_percent : ℕ := 1
  level0_file_num_compaction_trigger : ℕ := 1
  max_levels : ℕ := 1
  deriving DecidableEq

/-- `LeveledCompactionOptions` -/
structure LeveledCompactionOptions where
  level_size_multiplier : ℕ := 10
  level0_file_num_compaction_trigger : ℕ := 1
  max_levels : ℕ := 4
  base_level_size_mb : ℕ := 10
  deriving DecidableEq

/-- `TieredCompactionOptions` -/
structure TieredCompactionOptions where
  num_tiers : ℕ := 3
  max_size_amplification_percent : ℕ := 200
  size_ratio : ℕ := 1
  min_merge_width : ℕ := 2
  max_merge_width : Option ℕ := none
  deriving DecidableEq

/-- `CompactionOptions`, and `CompactionController`, which holds the same options. -/
inductive CompactionOptions where
  | leveled (options : LeveledCompactionOptions)
  | tiered (options : TieredCompactionOptions)
  | simple (options : SimpleLeveledCompactionOptions)
  | noCompaction
  deriving DecidableEq

/-- `LsmStorageOptions`, less `serializable`, which nothing reads. -/
structure LsmStorageOptions where
  block_size : ℕ := 4096
  target_sst_size : ℕ := 2097152
  num_memtable_limit : ℕ := 50
  compaction_options : CompactionOptions := .noCompaction
  enable_wal : Bool := false
  compression : CompressionType := .none
  deriving DecidableEq

/-! ## Tasks -/

/-- `SimpleLeveledCompactionTask` -/
structure SimpleLeveledCompactionTask where
  upper_level : Option ℕ
  upper_level_sst_ids : List ℕ
  lower_level : ℕ
  lower_level_sst_ids : List ℕ
  is_lower_level_bottom_level : Bool
  deriving DecidableEq

/-- `LeveledCompactionTask` -/
structure LeveledCompactionTask where
  upper_level : Option ℕ
  upper_level_sst_ids : List ℕ
  lower_level : ℕ
  lower_level_sst_ids : List ℕ
  is_lower_level_bottom_level : Bool
  deriving DecidableEq

/-- `TieredCompactionTask` -/
structure TieredCompactionTask where
  tiers : List (ℕ × List ℕ)
  bottom_tier_included : Bool
  deriving DecidableEq

/-- `ForceFullCompactionTask` -/
structure ForceFullCompactionTask where
  l0_sstables : List ℕ
  l1_sstables : List ℕ
  deriving DecidableEq

/-- `CompactionTask` -/
inductive CompactionTask where
  | leveled (task : LeveledCompactionTask)
  | tiered (task : TieredCompactionTask)
  | simple (task : SimpleLeveledCompactionTask)
  | forceFull (task : ForceFullCompactionTask)
  deriving DecidableEq

/-- `CompactionTask::compact_to_bottom_level` -/
def CompactionTask.compactToBottomLevel : CompactionTask → Bool
  | .forceFull _ => true
  | .leveled t => t.is_lower_level_bottom_level
  | .simple t => t.is_lower_level_bottom_level
  | .tiered t => t.bottom_tier_included

/-! ## The state of the store -/

/-- `LsmStorageState` -/
structure LsmStorageState where
  memtable : MemTable
  imm_memtables : List MemTable
  l0_sstables : List ℕ
  levels : List (ℕ × List ℕ)
  sstables : ℕ → Option SsTable

/-- `LsmStorageState::create` -/
def LsmStorageState.create (options : LsmStorageOptions) : LsmStorageState where
  memtable := MemTable.create 0
  imm_memtables := []
  l0_sstables := []
  levels :=
    match options.compaction_options with
    | .leveled opts => (List.range' 1 opts.max_levels).map fun l => (l, [])
    | .simple opts => (List.range' 1 opts.max_levels).map fun l => (l, [])
    | .tiered _ => []
    | .noCompaction => [(1, [])]
  sstables := fun _ => none

/-- The tables of the given identifiers that are open. -/
def LsmStorageState.tables (s : LsmStorageState) (ids : List ℕ) : List SsTable :=
  ids.filterMap s.sstables

/-- The identifiers in `levels[i]`. -/
def LsmStorageState.levelIds (s : LsmStorageState) (i : ℕ) : List ℕ :=
  ((s.levels[i]?).map Prod.snd).getD []

/-- The assignment `levels[i].second = ids`. -/
def setLevel (levels : List (ℕ × List ℕ)) (i : ℕ) (ids : List ℕ) : List (ℕ × List ℕ) :=
  levels.modify i fun p => (p.1, ids)

/-- A loop over a vector that leaves out the members of a set and takes each of them out of the set
once it has been met: what is left of the vector. -/
def removeOnce : List ℕ → List ℕ → List ℕ
  | _, [] => []
  | set, x :: xs => if x ∈ set then removeOnce (set.filter (· ≠ x)) xs else x :: removeOnce set xs

/-! ## `SimpleLeveledCompactionController` -/

namespace SimpleLeveledCompactionController

/-- The loop over the levels in `generate_compaction_task`: the task for the first level from `i` on
that is too large for the one below it. -/
def sizeRatioTask (r : Rounding) (options : SimpleLeveledCompactionOptions)
    (snapshot : LsmStorageState) (i : ℕ) : Option SimpleLeveledCompactionTask :=
  let level_sizes := snapshot.l0_sstables.length :: snapshot.levels.map fun p => p.2.length
  match level_sizes[i]?, level_sizes[i + 1]? with
  | some size, some lower_size =>
    if size = 0 then none else
    let size_ratio := Double.div r (Double.ofNat r lower_size) (Double.ofNat r size)
    if Double.lt size_ratio (Double.div r (Double.ofNat r options.size_ratio_percent) (.fin 100)) then
      some
        { upper_level := some i
          upper_level_sst_ids := snapshot.levelIds (i - 1)
          lower_level := i + 1
          lower_level_sst_ids := snapshot.levelIds i
          is_lower_level_bottom_level := i + 1 == options.max_levels }
    else none
  | _, _ => none

/-- `SimpleLeveledCompactionController::generate_compaction_task` -/
def generateCompactionTask (r : Rounding) (options : SimpleLeveledCompactionOptions)
    (snapshot : LsmStorageState) : Option SimpleLeveledCompactionTask :=
  if options.max_levels = 0 then none
  else if snapshot.l0_sstables.length ≥ options.level0_file_num_compaction_trigger then
    some
      { upper_level := none
        upper_level_sst_ids := snapshot.l0_sstables
        lower_level := 1
        lower_level_sst_ids := snapshot.levelIds 0
        is_lower_level_bottom_level := 1 == options.max_levels }
  else (List.range' 1 (options.max_levels - 1)).findSome? (sizeRatioTask r options snapshot)

/-- `SimpleLeveledCompactionController::apply_compaction_result` -/
def applyCompactionResult (snapshot : LsmStorageState) (task : SimpleLeveledCompactionTask)
    (output : List ℕ) : LsmStorageState × List ℕ :=
  let (new_state, removed) :=
    match task.upper_level with
    | some upper_level =>
      ({ snapshot with levels := setLevel snapshot.levels (upper_level - 1) [] },
        snapshot.levelIds (upper_level - 1))
    | none =>
      ({ snapshot with l0_sstables := removeOnce task.upper_level_sst_ids snapshot.l0_sstables },
        task.upper_level_sst_ids)
  ({ new_state with levels := setLevel new_state.levels (task.lower_level - 1) output },
    removed ++ new_state.levelIds (task.lower_level - 1))

end SimpleLeveledCompactionController

/-! ## `TieredCompactionController` -/

namespace TieredCompactionController

/-- The number of tables in the tiers before the last one. -/
def sizeBeforeLast (levels : List (ℕ × List ℕ)) : ℕ :=
  (levels.dropLast.map fun p => p.2.length).sum

/-- The condition of the compaction triggered by the space amplification ratio. -/
def spaceAmpTrigger (r : Rounding) (options : TieredCompactionOptions)
    (levels : List (ℕ × List ℕ)) : Bool :=
  let last := ((levels.getLast?).map fun p => p.2.length).getD 0
  let space_amp_ratio := Double.mul r
    (Double.div r (Double.ofNat r (sizeBeforeLast levels)) (Double.ofNat r last)) (.fin 100)
  Double.le (Double.ofNat r options.max_size_amplification_percent) space_amp_ratio

/-- The condition of the compaction triggered by the size ratio, at the tier with index `id`. -/
def sizeRatioTrigger (r : Rounding) (options : TieredCompactionOptions)
    (levels : List (ℕ × List ℕ)) (id : ℕ) : Bool :=
  let size_ratio_trigger := Double.div r
    (Double.add r (.fin 100) (Double.ofNat r options.size_ratio)) (.fin 100)
  let size := ((levels.take (id + 1)).map fun p => p.2.length).sum
  let next_level_size := ((levels[id + 1]?).map fun p => p.2.length).getD 0
  let current_size_ratio := Double.div r (Double.ofNat r next_level_size) (Double.ofNat r size)
  Double.lt size_ratio_trigger current_size_ratio && decide (id + 1 ≥ options.min_merge_width)

/-- `TieredCompactionController::generate_compaction_task`. With no tiers at all, the bound of its
first loop wraps around and the loop reads outside of the vector: `none` stands for that as well.
Without a `max_merge_width`, the bound is the largest `size_t`, and no vector is longer. -/
def generateCompactionTask (r : Rounding) (options : TieredCompactionOptions)
    (snapshot : LsmStorageState) : Option TieredCompactionTask :=
  let levels := snapshot.levels
  if levels.length < options.num_tiers ∨ levels = [] then none
  else if spaceAmpTrigger r options levels then some ⟨levels, true⟩
  else
    match (List.range (levels.length - 1)).find? (sizeRatioTrigger r options levels) with
    | some id => some ⟨levels.take (id + 1), false⟩
    | none =>
      let num_tiers_to_take := options.max_merge_width.elim levels.length (min levels.length)
      some ⟨levels.take num_tiers_to_take, decide (levels.length ≥ num_tiers_to_take)⟩

/-- The loop of `apply_compaction_result`: the tiers that stay, with the new one behind the last
tier that is taken out, and the tables of the tiers taken out. -/
def applyLoop (output : List ℕ) : List (ℕ × List ℕ) → Bool → List (ℕ × List ℕ) →
    List (ℕ × List ℕ) × List ℕ
  | _, _, [] => ([], [])
  | tier_to_remove, new_tier_added, (tier_id, files) :: tiers =>
    let found := Assoc.lookup tier_id tier_to_remove
    let tier_to_remove := tier_to_remove.filter fun p => p.1 ≠ tier_id
    let kept := if found.isSome then [] else [(tier_id, files)]
    let added := tier_to_remove.isEmpty && !new_tier_added
    let new_tier := if added then [(output.head?.getD 0, output)] else []
    let (levels, files_to_remove) := applyLoop output tier_to_remove (new_tier_added || added) tiers
    (kept ++ (new_tier ++ levels), found.getD [] ++ files_to_remove)

/-- `TieredCompactionController::apply_compaction_result`. The map of the tiers to remove holds the
last of several tiers with the same identifier. -/
def applyCompactionResult (snapshot : LsmStorageState) (task : TieredCompactionTask)
    (output : List ℕ) : LsmStorageState × List ℕ :=
  let (levels, files_to_remove) := applyLoop output task.tiers.reverse false snapshot.levels
  ({ snapshot with levels := levels }, files_to_remove)

end TieredCompactionController

/-! ## `LeveledCompactionController` -/

namespace LeveledCompactionController

/-- The range of keys of some tables, or nothing where there are none. -/
def keyRange : List SsTable → Option (Bytes × Bytes)
  | [] => none
  | t :: ts => some (ts.foldl (fun range sst =>
      (if sst.first_key < range.1 then sst.first_key else range.1,
        if sst.last_key > range.2 then sst.last_key else range.2)) (t.first_key, t.last_key))

/-- `LeveledCompactionController::find_overlapping_ssts` -/
def findOverlappingSsts (snapshot : LsmStorageState) (sst_ids : List ℕ) (in_level : ℕ) : List ℕ :=
  match keyRange (snapshot.tables sst_ids) with
  | none => []
  | some (begin_key, end_key) =>
    if in_level = 0 ∨ in_level > snapshot.levels.length then []
    else (snapshot.levelIds (in_level - 1)).filter fun sst_id =>
      match snapshot.sstables sst_id with
      | none => false
      | some sst => !(decide (sst.last_key < begin_key) || decide (sst.first_key > end_key))

/-- The bytes of the tables in `levels[i]`. -/
def realLevelSize (snapshot : LsmStorageState) (i : ℕ) : ℕ :=
  ((snapshot.tables (snapshot.levelIds i)).map SsTable.tableSize).sum

/-- The bytes of the base level, in a product of 64-bit numbers. -/
def baseLevelSizeBytes (options : LeveledCompactionOptions) : ℕ :=
  options.base_level_size_mb * 1024 * 1024 % 2^64

/-- The loop that fills `target_level_size` from the last level up: the sizes from `levels[i]` on,
for `n` levels above those that `sizes` lists. -/
def targetLevelSizesLoop (options : LeveledCompactionOptions) : ℕ → List ℕ → List ℕ
  | 0, sizes => sizes
  | n + 1, sizes =>
    let next_level_size := sizes.headD 0
    let this_level_size := next_level_size / options.level_size_multiplier
    targetLevelSizesLoop options n
      ((if next_level_size > baseLevelSizeBytes options then this_level_size else 0) :: sizes)

/-- `target_level_size` of `generate_compaction_task` -/
def targetLevelSizes (options : LeveledCompactionOptions) (snapshot : LsmStorageState) : List ℕ :=
  targetLevelSizesLoop options (options.max_levels - 1)
    [max (realLevelSize snapshot (options.max_levels - 1)) (baseLevelSizeBytes options)]

/-- `base_level` of `generate_compaction_task`: the first level above the last one with a target
size, or the last level. -/
def baseLevel (options : LeveledCompactionOptions) (snapshot : LsmStorageState) : ℕ :=
  let sizes := (targetLevelSizes options snapshot).take (options.max_levels - 1)
  (sizes.findIdx? (· > 0)).elim options.max_levels (· + 1)

/-- The priority of the level with index `level`, if it has one. -/
def priority (r : Rounding) (options : LeveledCompactionOptions) (snapshot : LsmStorageState)
    (level : ℕ) : Option (Double × ℕ) :=
  let target := (targetLevelSizes options snapshot)[level]?.getD 0
  if target > 0 then
    let prio := Double.div r (Double.ofNat r (realLevelSize snapshot level)) (Double.ofNat r target)
    if Double.lt (.fin 1) prio then some (prio, level + 1) else none
  else none

/-- The priority that `std::sort` puts in front: the largest one, of the smallest level. -/
def frontPriority : List (Double × ℕ) → Option (Double × ℕ)
  | [] => none
  | p :: ps => some (ps.foldl (fun a b => if Double.lt a.1 b.1 then b else a) p)

/-- The smallest of some identifiers. -/
def minElement : List ℕ → Option ℕ
  | [] => none
  | x :: xs => some (xs.foldl min x)

/-- `LeveledCompactionController::generate_compaction_task` -/
def generateCompactionTask (r : Rounding) (options : LeveledCompactionOptions)
    (snapshot : LsmStorageState) : Option LeveledCompactionTask :=
  let base_level := baseLevel options snapshot
  if snapshot.l0_sstables.length ≥ options.level0_file_num_compaction_trigger then
    some
      { upper_level := none
        upper_level_sst_ids := snapshot.l0_sstables
        lower_level := base_level
        lower_level_sst_ids := findOverlappingSsts snapshot snapshot.l0_sstables base_level
        is_lower_level_bottom_level := base_level == options.max_levels }
  else
    match frontPriority ((List.range options.max_levels).filterMap
        (priority r options snapshot)) with
    | none => none
    | some (_, level) =>
      if level > snapshot.levels.length then none else
      match minElement (snapshot.levelIds (level - 1)) with
      | none => none
      | some selected_sst =>
        some
          { upper_level := some level
            upper_level_sst_ids := [selected_sst]
            lower_level := level + 1
            lower_level_sst_ids := findOverlappingSsts snapshot [selected_sst] (level + 1)
            is_lower_level_bottom_level := level + 1 == options.max_levels }

/-- The comparison by which the target level is sorted: by first key where both tables are open,
else by identifier. -/
def sstLt (snapshot : LsmStorageState) (x y : ℕ) : Bool :=
  match snapshot.sstables x, snapshot.sstables y with
  | some a, some b => decide (a.first_key < b.first_key)
  | _, _ => decide (x < y)

/-- `LeveledCompactionController::apply_compaction_result` -/
def applyCompactionResult (snapshot : LsmStorageState) (task : LeveledCompactionTask)
    (output : List ℕ) (in_recovery : Bool) : LsmStorageState × List ℕ :=
  let new_state :=
    match task.upper_level with
    | some upper_level =>
      { snapshot with
        levels := setLevel snapshot.levels (upper_level - 1)
          (removeOnce task.upper_level_sst_ids (snapshot.levelIds (upper_level - 1))) }
    | none =>
      { snapshot with l0_sstables := removeOnce task.upper_level_sst_ids snapshot.l0_sstables }
  let new_lower :=
    removeOnce task.lower_level_sst_ids (new_state.levelIds (task.lower_level - 1)) ++ output
  let new_lower :=
    if in_recovery then new_lower
    else new_lower.insertionSort fun x y => !sstLt snapshot y x
  ({ new_state with levels := setLevel new_state.levels (task.lower_level - 1) new_lower },
    task.upper_level_sst_ids ++ task.lower_level_sst_ids)

end LeveledCompactionController

/-! ## `CompactionController` -/

namespace CompactionController

/-- `CompactionController::flush_to_l0` -/
def flushToL0 : CompactionOptions → Bool
  | .tiered _ => false
  | _ => true

/-- `CompactionController::generate_compaction_task` -/
def generateCompactionTask (r : Rounding) (options : CompactionOptions)
    (snapshot : LsmStorageState) : Option CompactionTask :=
  match options with
  | .leveled o =>
    (LeveledCompactionController.generateCompactionTask r o snapshot).map CompactionTask.leveled
  | .tiered o =>
    (TieredCompactionController.generateCompactionTask r o snapshot).map CompactionTask.tiered
  | .simple o =>
    (SimpleLeveledCompactionController.generateCompactionTask r o snapshot).map CompactionTask.simple
  | .noCompaction => none

/-- The `ForceFull` branch of `CompactionController::apply_compaction_result`. -/
def applyForceFull (snapshot : LsmStorageState) (task : ForceFullCompactionTask)
    (output : List ℕ) : LsmStorageState × List ℕ :=
  ({ snapshot with
      sstables := fun id =>
        if id ∈ task.l0_sstables ∨ id ∈ task.l1_sstables then none else snapshot.sstables id
      levels := if snapshot.levels.isEmpty then [(1, output)] else setLevel snapshot.levels 0 output
      l0_sstables := snapshot.l0_sstables.filter (· ∉ task.l0_sstables) },
    task.l0_sstables ++ task.l1_sstables)

/-- `CompactionController::apply_compaction_result`. A task of another controller makes `std::get`
throw. -/
def applyCompactionResult (options : CompactionOptions) (snapshot : LsmStorageState)
    (task : CompactionTask) (output : List ℕ) (in_recovery : Bool) :
    Except Error (LsmStorageState × List ℕ) :=
  match task, options with
  | .forceFull t, _ => .ok (applyForceFull snapshot t output)
  | .leveled t, .leveled _ =>
    .ok (LeveledCompactionController.applyCompactionResult snapshot t output in_recovery)
  | .tiered t, .tiered _ => .ok (TieredCompactionController.applyCompactionResult snapshot t output)
  | .simple t, .simple _ =>
    .ok (SimpleLeveledCompactionController.applyCompactionResult snapshot t output)
  | _, .noCompaction => .error (.runtimeError "NoCompaction controller cannot apply result")
  | _, _ => .error (.runtimeError "bad_variant_access")

end CompactionController

end MiniLsm
