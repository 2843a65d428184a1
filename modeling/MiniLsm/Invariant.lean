import MiniLsm.CompactSpec

/-!
# The invariant of a store

`Inv` is what every operation of a store keeps: the memtables are sorted and hold storable entries,
those that are frozen hold some, the identifiers of memtables and tables are distinct and below the
next one, the open tables are exactly those that the state lists, each of them is what its file
opens to, and the tables of a level are in order.

The tables of a state are taken in groups here: each level-0 table by itself, and the tables of each
level or tier (`groups`). A flush puts a group in front, and a compaction replaces the groups of its
task by its output. The value of a key is that of the first group that has it (`view_eq`).
-/

namespace MiniLsm

open LsmStorageInner (InOrder)

/-! ## Groups of tables -/

namespace LsmStorageState

variable {E : Extern} {s s' : LsmStorageState}

/-- The tables of a state in groups, the newest group first. -/
def groups (s : LsmStorageState) : List (List ℕ) :=
  s.l0_sstables.map (fun id => [id]) ++ s.levels.map Prod.snd

/-- Groups of one identifier each. -/
theorem flatten_singletons (ids : List ℕ) : (ids.map fun id => [id]).flatten = ids := by
  induction ids with
  | nil => rfl
  | cons id ids ih => rw [List.map_cons, List.flatten_cons, ih, List.singleton_append]

/-- The groups are all the tables. -/
theorem flatten_groups (s : LsmStorageState) : s.groups.flatten = s.tableIds := by
  rw [groups, List.flatten_append, flatten_singletons, tableIds]

/-- A table is in one of the groups. -/
theorem mem_tableIds_iff {id : ℕ} : id ∈ s.tableIds ↔ ∃ g ∈ s.groups, id ∈ g := by
  rw [← flatten_groups, List.mem_flatten]

/-- The value of a key is that of the first memtable or group of tables that has it. -/
theorem view_eq (E : Extern) (s : LsmStorageState) (k : Bytes) :
    s.view E k = firstValue (s.memtables.map MemTable.map ++ s.groups.map (s.run E)) k := by
  rw [view, sources, tableSources, firstValue, firstValue, groups, List.map_append, List.map_map,
    List.map_map, List.findSome?_append, List.findSome?_append, findSome?_tables,
    List.findSome?_append, List.findSome?_append]
  rfl

/-- A write to the active memtable changes the value of its key only. -/
theorem view_put (s : LsmStorageState) (hs : Assoc.Sorted s.memtable.map) (key value k : Bytes) :
    LsmStorageState.view E { s with memtable := s.memtable.put E key value } k =
      if key = k then value else s.view E k := by
  rw [view_eq, view_eq, firstValue, firstValue]
  simp only [memtables, List.map_cons, List.cons_append, List.findSome?_cons]
  have hput : (s.memtable.put E key value).map = Assoc.insert key value s.memtable.map := rfl
  rw [hput, Assoc.lookup_insert _ _ _ hs]
  by_cases hk : key = k
  · simp [hk]
  · rw [if_neg hk, if_neg hk]
    rfl

/-- The entries of tables depend on these tables only. -/
theorem run_congr {ids : List ℕ} (h : ∀ id ∈ ids, s'.sstables id = s.sstables id) :
    s'.run E ids = s.run E ids := by
  rw [run, run, tables, tables, List.filterMap_congr h]

/-- Tables that are open alike are listed alike. -/
theorem tables_congr {ids : List ℕ} (h : ∀ id ∈ ids, s'.sstables id = s.sstables id) :
    s'.tables ids = s.tables ids :=
  List.filterMap_congr h

end LsmStorageState

/-- Sources may be replaced by others with the same lookups. -/
theorem firstValue_congr {S S' : List (List (Bytes × Bytes))} {k : Bytes}
    (h : S.findSome? (Assoc.lookup k) = S'.findSome? (Assoc.lookup k)) :
    firstValue S k = firstValue S' k := by
  rw [firstValue, firstValue, h]

/-- The value of a key in what a compaction keeps of a map. -/
theorem lookup_keptEntries (bottom : Bool) {l : List (Bytes × Bytes)} (hl : Assoc.Sorted l)
    (k : Bytes) :
    Assoc.lookup k (keptEntries bottom l) =
      if bottom then (Assoc.lookup k l).filter (fun v => !v.isEmpty) else Assoc.lookup k l := by
  cases bottom with
  | false => rfl
  | true =>
    rw [keptEntries, if_pos rfl, if_pos rfl, Assoc.lookup_filter _ _ hl]

/-- Some sources may be replaced by what a compaction keeps of their merge, if nothing is behind
them when empty values are dropped. -/
theorem firstValue_keptEntries (A S B : List (List (Bytes × Bytes))) (bottom : Bool)
    (hB : bottom = true → B = []) (k : Bytes) :
    firstValue (A ++ (keptEntries bottom (Assoc.overlays S) :: B)) k =
      firstValue (A ++ (S ++ B)) k := by
  rw [firstValue, firstValue, List.findSome?_append, List.findSome?_append, List.findSome?_append,
    List.findSome?_cons, lookup_keptEntries _ (Assoc.sorted_overlays S), Assoc.lookup_overlays]
  cases A.findSome? (Assoc.lookup k) with
  | some v => rfl
  | none =>
    cases bottom with
    | false =>
      simp only [Bool.false_eq_true, if_false]
      cases S.findSome? (Assoc.lookup k) <;> rfl
    | true =>
      obtain rfl := hB rfl
      rcases S.findSome? (Assoc.lookup k) with _ | _ | ⟨x, v⟩ <;> rfl

/-- Where a compaction keeps nothing of a merge, no key has a value. -/
theorem firstValue_of_keptEntries_nil {S : List (List (Bytes × Bytes))} (bottom : Bool)
    (h : keptEntries bottom (Assoc.overlays S) = []) (k : Bytes) : firstValue S k = [] := by
  have := firstValue_keptEntries [] S [] bottom (fun _ => rfl) k
  rw [h, List.nil_append, List.nil_append, List.append_nil] at this
  rw [← this]
  rfl

/-- Maps that are empty when they are laid over each other are all empty. -/
theorem eq_nil_of_overlays_nil {S : List (List (Bytes × Bytes))} (h : Assoc.overlays S = [])
    {l : List (Bytes × Bytes)} (hl : l ∈ S) : l = [] := by
  rcases l with _ | ⟨e, l⟩
  · rfl
  · have hlook := Assoc.lookup_overlays e.1 S
    rw [h, Assoc.lookup_nil, eq_comm, List.findSome?_eq_none_iff] at hlook
    have := hlook _ hl
    simp [Assoc.lookup_cons] at this

namespace LsmStorageInner

variable {M : Type}

/-- The invariant of a store. -/
structure Inv (E : Extern) (s : LsmStorageInner M) : Prop where
  block_size : s.options.block_size ≤ 65536
  next_pos : 0 < s.next_sst_id
  mem_sorted : ∀ m ∈ s.state.memtables, Assoc.Sorted m.map
  mem_storable : ∀ m ∈ s.state.memtables, ∀ e ∈ m.map, Storable e
  imm_ne_nil : ∀ m ∈ s.state.imm_memtables, m.map ≠ []
  /-- The newer a memtable, the larger its identifier. -/
  mem_ids : (s.state.memtables.map MemTable.id).Pairwise (· > ·)
  nodup : s.state.tableIds.Nodup
  mem_ids_disjoint : ∀ m ∈ s.state.memtables, m.id ∉ s.state.tableIds
  mem_ids_lt : ∀ m ∈ s.state.memtables, m.id < s.next_sst_id
  ids_lt : ∀ id ∈ s.state.tableIds, id < s.next_sst_id
  good : ∀ id ∈ s.state.tableIds, ∃ t, s.state.sstables id = some t ∧ t.Good E
  listed : ∀ id t, s.state.sstables id = some t →
    id ∈ s.state.tableIds ∧ t.id = id ∧ s.disk.Stores E t
  sorted : ∀ g ∈ s.state.groups, Assoc.Sorted (s.state.run E g)
  /-- A store with tiers has no level-0 tables. -/
  tiers : CompactionController.flushToL0 s.options.compaction_options = false →
    s.state.l0_sstables = []

namespace Inv

variable {E : Extern} {s s' : LsmStorageInner M}

/-- The state of the store can be read. -/
theorem readable (h : Inv E s) : s.state.Readable E where
  mem_sorted := h.mem_sorted
  good := h.good
  level_sorted := fun level hl =>
    h.sorted level.2 (List.mem_append_right _ (List.mem_map_of_mem hl))

/-- The groups of the state are in order. -/
theorem inOrder (h : Inv E s) {g : List ℕ} (hg : g ∈ s.state.groups) : InOrder E s.state g := by
  refine ⟨fun t ht => ?_, h.sorted g hg⟩
  obtain ⟨id, hid, hst⟩ := List.mem_filterMap.mp ht
  obtain ⟨t', ht', hgood⟩ := h.good id (LsmStorageState.mem_tableIds_iff.mpr ⟨g, hg, hid⟩)
  rw [hst] at ht'
  cases ht'
  exact hgood

end Inv

/-! ## Writes and freezes -/

/-- The store with a record in its manifest, if it has one, is the same otherwise. -/
theorem addRecord_eq (io : ManifestIO M) (s : LsmStorageInner M) (r : ManifestRecord) :
    s.addRecord io r = { s with disk := { s.disk with manifest := (s.addRecord io r).disk.manifest } } := by
  unfold addRecord
  split_ifs <;> rfl

/-- A record changes no state. -/
@[simp]
theorem addRecord_state (io : ManifestIO M) (s : LsmStorageInner M) (r : ManifestRecord) :
    (s.addRecord io r).state = s.state := by
  rw [addRecord_eq]

/-- A record takes no identifier. -/
@[simp]
theorem addRecord_next_sst_id (io : ManifestIO M) (s : LsmStorageInner M) (r : ManifestRecord) :
    (s.addRecord io r).next_sst_id = s.next_sst_id := by
  rw [addRecord_eq]

/-- A record changes no option. -/
@[simp]
theorem addRecord_options (io : ManifestIO M) (s : LsmStorageInner M) (r : ManifestRecord) :
    (s.addRecord io r).options = s.options := by
  rw [addRecord_eq]

/-- A record touches no table file. -/
@[simp]
theorem addRecord_ssts (io : ManifestIO M) (s : LsmStorageInner M) (r : ManifestRecord) :
    (s.addRecord io r).disk.ssts = s.disk.ssts := by
  rw [addRecord_eq]

/-- A record touches no log. -/
@[simp]
theorem addRecord_wals (io : ManifestIO M) (s : LsmStorageInner M) (r : ManifestRecord) :
    (s.addRecord io r).disk.wals = s.disk.wals := by
  rw [addRecord_eq]

/-- The memtable that a freeze puts in the place of the active one. -/
def freshMemtable (s : LsmStorageInner M) : MemTable :=
  if s.options.enable_wal then MemTable.createWithWal s.next_sst_id
  else MemTable.create s.next_sst_id

/-- The new memtable has the next identifier. -/
@[simp]
theorem freshMemtable_id (s : LsmStorageInner M) : s.freshMemtable.id = s.next_sst_id := by
  unfold freshMemtable
  split_ifs <;> rfl

/-- The new memtable is empty. -/
@[simp]
theorem freshMemtable_map (s : LsmStorageInner M) : s.freshMemtable.map = [] := by
  unfold freshMemtable
  split_ifs <;> rfl

/-- What a freeze does to the state. -/
theorem forceFreezeMemtable_state (io : ManifestIO M) (s : LsmStorageInner M) :
    (s.forceFreezeMemtable io).state = { s.state with
      memtable := s.freshMemtable
      imm_memtables := s.state.memtable :: s.state.imm_memtables } := by
  rcases hw : s.options.enable_wal with _ | _ <;>
    simp [forceFreezeMemtable, createWal, freshMemtable, hw]

/-- A freeze takes one identifier. -/
@[simp]
theorem forceFreezeMemtable_next_sst_id (io : ManifestIO M) (s : LsmStorageInner M) :
    (s.forceFreezeMemtable io).next_sst_id = s.next_sst_id + 1 := by
  simp only [forceFreezeMemtable, addRecord_next_sst_id]
  split_ifs <;> rfl

/-- A freeze changes no option. -/
@[simp]
theorem forceFreezeMemtable_options (io : ManifestIO M) (s : LsmStorageInner M) :
    (s.forceFreezeMemtable io).options = s.options := by
  simp only [forceFreezeMemtable, addRecord_options]
  split_ifs <;> rfl

/-- A freeze touches no table file. -/
@[simp]
theorem forceFreezeMemtable_ssts (io : ManifestIO M) (s : LsmStorageInner M) :
    (s.forceFreezeMemtable io).disk.ssts = s.disk.ssts := by
  simp only [forceFreezeMemtable, addRecord_ssts]
  split_ifs <;> rfl

/-- The store with an entry in its active memtable. -/
def write (E : Extern) (s : LsmStorageInner M) (key value : Bytes) : LsmStorageInner M :=
  { s with state := { s.state with memtable := s.state.memtable.put E key value } }

/-- A put writes the entry and may freeze the memtable. -/
theorem put_eq (E : Extern) (io : ManifestIO M) (s : LsmStorageInner M) (key value : Bytes) :
    s.put E io key value = s.write E key value ∨
      s.put E io key value = (s.write E key value).forceFreezeMemtable io := by
  unfold put write
  dsimp only
  split_ifs
  · exact .inr rfl
  · exact .inl rfl

namespace Inv

variable {E : Extern} {s s' : LsmStorageInner M}

/-- The tables of two stores are the same: those of the state, the open ones, and their files. -/
structure SameTables (s s' : LsmStorageInner M) : Prop where
  options : s'.options = s.options
  l0_sstables : s'.state.l0_sstables = s.state.l0_sstables
  levels : s'.state.levels = s.state.levels
  sstables : s'.state.sstables = s.state.sstables
  ssts : ∀ id < s.next_sst_id, s'.disk.ssts id = s.disk.ssts id
  next_le : s.next_sst_id ≤ s'.next_sst_id

/-- Stores with the same tables list the same tables. -/
theorem SameTables.tableIds (h : SameTables s s') : s'.state.tableIds = s.state.tableIds := by
  rw [LsmStorageState.tableIds, LsmStorageState.tableIds, h.l0_sstables, h.levels]

/-- Stores with the same tables have the same groups. -/
theorem SameTables.groups (h : SameTables s s') : s'.state.groups = s.state.groups := by
  rw [LsmStorageState.groups, LsmStorageState.groups, h.l0_sstables, h.levels]

/-- Stores with the same tables hold the same entries. -/
theorem SameTables.run (h : SameTables s s') (ids : List ℕ) :
    s'.state.run E ids = s.state.run E ids :=
  LsmStorageState.run_congr fun _ _ => by rw [h.sstables]

/-- The invariant of a store that has the same tables as another. -/
theorem of_sameTables (h : Inv E s) (hst : SameTables s s')
    (mem_sorted : ∀ m ∈ s'.state.memtables, Assoc.Sorted m.map)
    (mem_storable : ∀ m ∈ s'.state.memtables, ∀ e ∈ m.map, Storable e)
    (imm_ne_nil : ∀ m ∈ s'.state.imm_memtables, m.map ≠ [])
    (mem_ids : (s'.state.memtables.map MemTable.id).Pairwise (· > ·))
    (mem_ids_disjoint : ∀ m ∈ s'.state.memtables, m.id ∉ s.state.tableIds)
    (mem_ids_lt : ∀ m ∈ s'.state.memtables, m.id < s'.next_sst_id) : Inv E s' where
  block_size := by rw [hst.options]; exact h.block_size
  next_pos := h.next_pos.trans_le hst.next_le
  mem_sorted := mem_sorted
  mem_storable := mem_storable
  imm_ne_nil := imm_ne_nil
  mem_ids := mem_ids
  nodup := by rw [hst.tableIds]; exact h.nodup
  mem_ids_disjoint := by rw [hst.tableIds]; exact mem_ids_disjoint
  mem_ids_lt := mem_ids_lt
  ids_lt := by
    rw [hst.tableIds]
    exact fun id hid => (h.ids_lt id hid).trans_le hst.next_le
  good := by rw [hst.tableIds, hst.sstables]; exact h.good
  listed := by
    rw [hst.tableIds, hst.sstables]
    intro id t hid
    -- The file of a listed table is below the counter, so that it is still the same.
    obtain ⟨hl, rfl, b, hb, ho⟩ := h.listed id t hid
    exact ⟨hl, rfl, b, by rw [hst.ssts _ (h.ids_lt _ hl), hb], ho⟩
  sorted := by
    rw [hst.groups]
    intro g hg
    rw [hst.run]
    exact h.sorted g hg
  tiers := by rw [hst.options, hst.l0_sstables]; exact h.tiers

/-- A write changes no table. -/
theorem sameTables_write (s : LsmStorageInner M) (key value : Bytes) :
    SameTables s (s.write E key value) :=
  ⟨rfl, rfl, rfl, rfl, fun _ _ => rfl, le_rfl⟩

/-- A write of a storable entry. -/
theorem write (h : Inv E s) {key value : Bytes} (hs : Storable (key, value)) :
    Inv E (s.write E key value) := by
  have hmem : ∀ (P : MemTable → Prop), P (s.state.memtable.put E key value) →
      (∀ m ∈ s.state.memtables, P m) → ∀ m ∈ (s.write E key value).state.memtables, P m := by
    intro P hp hall m hm
    rcases List.mem_cons.mp hm with rfl | hm
    · exact hp
    · exact hall m (List.mem_cons_of_mem _ hm)
  have hfirst : s.state.memtable ∈ s.state.memtables := List.mem_cons_self
  refine h.of_sameTables (sameTables_write s key value) ?_ ?_ h.imm_ne_nil h.mem_ids ?_ ?_
  · exact hmem _ ((h.mem_sorted _ hfirst).insert key value) h.mem_sorted
  · refine hmem _ (fun e he => ?_) h.mem_storable
    rcases Assoc.mem_insert he with rfl | he
    · exact hs
    · exact h.mem_storable _ hfirst e he
  · exact hmem (fun m => m.id ∉ s.state.tableIds) (h.mem_ids_disjoint s.state.memtable hfirst)
      h.mem_ids_disjoint
  · exact hmem (fun m => m.id < s.next_sst_id) (h.mem_ids_lt s.state.memtable hfirst) h.mem_ids_lt

/-- A freeze keeps the tables. -/
theorem sameTables_freeze (io : ManifestIO M) (s : LsmStorageInner M) :
    SameTables s (s.forceFreezeMemtable io) := by
  refine ⟨by simp, ?_, ?_, ?_, by simp, by simp⟩ <;> rw [forceFreezeMemtable_state]

/-- A freeze of a memtable that is not empty. -/
theorem freeze (h : Inv E s) (io : ManifestIO M) (hne : s.state.memtable.map ≠ []) :
    Inv E (s.forceFreezeMemtable io) := by
  have hmems : (s.forceFreezeMemtable io).state.memtables =
      s.freshMemtable :: s.state.memtables := by
    rw [forceFreezeMemtable_state]
    rfl
  refine h.of_sameTables (sameTables_freeze io s) ?_ ?_ ?_ ?_ ?_ ?_
  · rw [hmems, List.forall_mem_cons, freshMemtable_map]
    exact ⟨List.Pairwise.nil, h.mem_sorted⟩
  · rw [hmems, List.forall_mem_cons, freshMemtable_map]
    exact ⟨by simp, h.mem_storable⟩
  · rw [forceFreezeMemtable_state]
    exact List.forall_mem_cons.mpr ⟨hne, h.imm_ne_nil⟩
  · rw [hmems, List.map_cons, List.pairwise_cons]
    refine ⟨fun id hid => ?_, h.mem_ids⟩
    obtain ⟨m, hm, rfl⟩ := List.mem_map.mp hid
    rw [freshMemtable_id]
    exact h.mem_ids_lt m hm
  · rw [hmems, List.forall_mem_cons, freshMemtable_id]
    exact ⟨fun hid => lt_irrefl _ (h.ids_lt _ hid), h.mem_ids_disjoint⟩
  · rw [hmems, List.forall_mem_cons, freshMemtable_id, forceFreezeMemtable_next_sst_id]
    exact ⟨Nat.lt_succ_self _, fun m hm => Nat.lt_succ_of_lt (h.mem_ids_lt m hm)⟩

/-- A put of a storable entry. -/
theorem put (h : Inv E s) (io : ManifestIO M) {key value : Bytes} (hs : Storable (key, value)) :
    Inv E (s.put E io key value) := by
  rcases put_eq E io s key value with heq | heq
  · rw [heq]
    exact h.write hs
  · rw [heq]
    refine (h.write hs).freeze io ?_
    exact Assoc.insert_ne_nil key value _

/-- A write changes the value of its key only. -/
theorem view_write (h : Inv E s) (key value k : Bytes) :
    (s.write E key value).state.view E k = if key = k then value else s.state.view E k :=
  s.state.view_put (h.mem_sorted _ List.mem_cons_self) key value k

/-- A freeze changes no value. -/
theorem view_freeze (io : ManifestIO M) (s : LsmStorageInner M) (k : Bytes) :
    (s.forceFreezeMemtable io).state.view E k = s.state.view E k := by
  rw [LsmStorageState.view_eq, LsmStorageState.view_eq, forceFreezeMemtable_state]
  simp only [LsmStorageState.memtables, List.map_cons, List.cons_append, firstValue,
    List.findSome?_cons, freshMemtable_map, Assoc.lookup_nil]
  rfl

/-- A put changes the value of its key only. -/
theorem view_put (h : Inv E s) (io : ManifestIO M) (key value k : Bytes) :
    (s.put E io key value).state.view E k = if key = k then value else s.state.view E k := by
  rcases put_eq E io s key value with heq | heq
  · rw [heq, h.view_write]
  · rw [heq, view_freeze, h.view_write]

end Inv

/-! ## Flushes -/

/-- The store `s'` is `s` with the table `t` in the place of its oldest memtable `m`. -/
structure Flushed (E : Extern) (s s' : LsmStorageInner M) (m : MemTable) (t : SsTable) : Prop where
  memtable : s'.state.memtable = s.state.memtable
  imm_memtables : s.state.imm_memtables = s'.state.imm_memtables ++ [m]
  options : s'.options = s.options
  next_sst_id : s'.next_sst_id = s.next_sst_id
  l0_sstables : s'.state.l0_sstables =
    if CompactionController.flushToL0 s.options.compaction_options then m.id :: s.state.l0_sstables
    else s.state.l0_sstables
  levels : s'.state.levels =
    if CompactionController.flushToL0 s.options.compaction_options then s.state.levels
    else (m.id, [m.id]) :: s.state.levels
  sstables : s'.state.sstables = Function.update s.state.sstables m.id (some t)
  ssts : ∀ id, id ≠ m.id → s'.disk.ssts id = s.disk.ssts id
  wals : s'.disk.wals = s.disk.wals
  holds : t.Holds E m.map
  id : t.id = m.id
  stores : s'.disk.Stores E t

/-- Without frozen memtables, a flush does nothing. -/
theorem flush_of_imm_nil (E : Extern) (io : ManifestIO M) {s : LsmStorageInner M}
    (h : s.state.imm_memtables = []) : s.forceFlushNextImmMemtable E io = (.ok (), s) := by
  rw [forceFlushNextImmMemtable, h]
  rfl

/-- A flush builds a table of the oldest memtable. -/
theorem flush_of_imm_concat (E : Extern) (io : ManifestIO M) {s : LsmStorageInner M}
    {imm : List MemTable} {m : MemTable} (h : s.state.imm_memtables = imm ++ [m]) :
    s.forceFlushNextImmMemtable E io = (s.build E (m.flush E (SsTableBuilder.create
      s.options.block_size s.options.compression)) m.id).bind fun sst s =>
        (.ok (), (s.addFlushed m.id sst).addRecord io (.flush m.id)) := by
  rw [forceFlushNextImmMemtable, h, List.getLast?_append, List.getLast?_singleton, Option.some_or]

/-- A flush keeps the active memtable, and takes no new one into the frozen ones. -/
theorem flush_memtables (E : Extern) (io : ManifestIO M)
    (s : LsmStorageInner M) :
    (s.forceFlushNextImmMemtable E io).2.state.memtable = s.state.memtable ∧
      ∀ m ∈ (s.forceFlushNextImmMemtable E io).2.state.imm_memtables,
        m ∈ s.state.imm_memtables := by
  rcases List.eq_nil_or_concat' s.state.imm_memtables with himm | ⟨imm, m, himm⟩
  · rw [flush_of_imm_nil E io himm]
    exact ⟨rfl, fun _ h => h⟩
  · rw [flush_of_imm_concat E io himm, build]
    rcases SsTable.open E m.id _ with e | t
    · exact ⟨rfl, fun _ h => h⟩
    · rw [Outcome.bind_ok, addRecord_state, addFlushed]
      split_ifs
      · exact ⟨rfl, fun _ h => List.mem_of_mem_dropLast h⟩
      · exact ⟨rfl, fun _ h => List.mem_of_mem_dropLast h⟩

/-- The files after a table is built and, unless that throws, put into the state. -/
theorem build_bind_ssts (E : Extern) (io : ManifestIO M) (s : LsmStorageInner M)
    (b : SsTableBuilder) (id : ℕ) (r : ManifestRecord) :
    ((s.build E b id).bind fun sst s =>
      ((.ok (), (s.addFlushed id sst).addRecord io r) : Outcome M Unit)).2.disk.ssts =
        Function.update s.disk.ssts id (some (b.fileBytes E)) := by
  rw [build]
  rcases SsTable.open E id (b.fileBytes E) with e | t
  · rfl
  · rw [Outcome.bind_ok, addRecord_ssts]
    rfl

/-- A flush turns the oldest memtable into a table. -/
theorem flush_spec {E : Extern} {io : ManifestIO M} {s : LsmStorageInner M} (h : Inv E s)
    (hne : s.state.imm_memtables ≠ [])
    (hsmall : (s.forceFlushNextImmMemtable E io).2.disk.Small) :
    (s.forceFlushNextImmMemtable E io).1 = .ok () ∧
      ∃ m t, Flushed E s (s.forceFlushNextImmMemtable E io).2 m t := by
  obtain ⟨imm, m, himm⟩ := (List.eq_nil_or_concat' s.state.imm_memtables).resolve_left hne
  have hm : m ∈ s.state.memtables := by
    rw [LsmStorageState.memtables, himm]
    simp
  -- The builder holds the entries of the oldest memtable.
  have hholds := MemTable.flush_holds
    (SsTableBuilder.create_holds E h.block_size s.options.compression) (h.mem_storable m hm)
  rw [List.nil_append] at hholds
  have hnem : m.map ≠ [] := h.imm_ne_nil m (by simp [himm])
  rw [flush_of_imm_concat E io himm] at hsmall ⊢
  generalize m.flush E (SsTableBuilder.create s.options.block_size s.options.compression) = b
    at hholds hsmall ⊢
  have hssts := build_bind_ssts E io s b m.id (.flush m.id)
  have hfile : Function.update s.disk.ssts m.id (some (b.fileBytes E)) m.id =
      some (b.fileBytes E) := Function.update_self _ _ _
  -- Its file is small, so that it is opened as a table of these entries.
  have hlen : (b.fileBytes E).length < 2^32 := hsmall m.id _ (by rw [hssts, hfile])
  obtain ⟨t, ht, hth, hid, -⟩ := SsTable.open_fileBytes hholds (h.mem_sorted m hm) hnem m.id hlen
  rw [build, ht, Outcome.bind_ok] at hssts ⊢
  refine ⟨rfl, m, t, ?_⟩
  constructor
  case holds => exact hth
  case id => exact hid
  case stores =>
    refine ⟨b.fileBytes E, ?_, ?_⟩
    · rw [hssts, hid, hfile]
    · rw [hid, ht]
  case ssts =>
    intro id hne
    rw [hssts, Function.update_of_ne hne]
  case wals => rw [addRecord_wals, addFlushed]
  case options => rw [addRecord_options, addFlushed]
  case next_sst_id => rw [addRecord_next_sst_id, addFlushed]
  -- What is left are the fields of the state, with or without level 0.
  all_goals
    rw [addRecord_state, addFlushed]
    dsimp only
    split_ifs <;> simp [himm]

namespace Flushed

variable {E : Extern} {s s' : LsmStorageInner M} {m : MemTable} {t : SsTable}

/-- The memtable that is flushed is one of the store. -/
theorem mem_memtables (hf : Flushed E s s' m t) : m ∈ s.state.memtables := by
  rw [LsmStorageState.memtables, hf.imm_memtables]
  simp

/-- It is the oldest one. -/
theorem memtables (hf : Flushed E s s' m t) :
    s.state.memtables = s'.state.memtables ++ [m] := by
  rw [LsmStorageState.memtables, LsmStorageState.memtables, hf.imm_memtables, hf.memtable]
  rfl

/-- A flush puts a group of one table in front of the others. -/
theorem groups (h : Inv E s) (hf : Flushed E s s' m t) :
    s'.state.groups = [m.id] :: s.state.groups := by
  rw [LsmStorageState.groups, LsmStorageState.groups, hf.l0_sstables, hf.levels]
  split_ifs with hl
  · rfl
  · rw [h.tiers (by simpa using hl)]
    rfl

/-- The tables are those from before and the new one. -/
theorem mem_tableIds (h : Inv E s) (hf : Flushed E s s' m t) {id : ℕ} :
    id ∈ s'.state.tableIds ↔ id = m.id ∨ id ∈ s.state.tableIds := by
  rw [← LsmStorageState.flatten_groups, hf.groups h, List.flatten_cons,
    LsmStorageState.flatten_groups]
  simp

/-- The tables that were there before a flush are the same after it. -/
theorem sstables_of_mem (h : Inv E s) (hf : Flushed E s s' m t) {id : ℕ}
    (hid : id ∈ s.state.tableIds) : s'.state.sstables id = s.state.sstables id := by
  have hne : id ≠ m.id := by
    rintro rfl
    exact h.mem_ids_disjoint m hf.mem_memtables hid
  rw [hf.sstables, Function.update_of_ne hne]

/-- The other tables hold what they have held. -/
theorem run_of_mem (h : Inv E s) (hf : Flushed E s s' m t) {ids : List ℕ}
    (hids : ∀ id ∈ ids, id ∈ s.state.tableIds) : s'.state.run E ids = s.state.run E ids :=
  LsmStorageState.run_congr fun id hid => hf.sstables_of_mem h (hids id hid)

/-- The new table holds what the memtable has held. -/
theorem run_new (hf : Flushed E s s' m t) : s'.state.run E [m.id] = m.map := by
  simp [LsmStorageState.run, LsmStorageState.tables, hf.sstables, hf.holds.contents_eq]

/-- A flush keeps the invariant. -/
theorem inv (h : Inv E s) (hf : Flushed E s s' m t) : Inv E s' := by
  have hsub : ∀ m' ∈ s'.state.memtables, m' ∈ s.state.memtables := by
    intro m' hm'
    rw [hf.memtables]
    exact List.mem_append_left _ hm'
  -- The memtables that are left are newer than the one that is flushed.
  have hids := h.mem_ids
  rw [hf.memtables, List.map_append, List.pairwise_append] at hids
  constructor
  case block_size => rw [hf.options]; exact h.block_size
  case next_pos => rw [hf.next_sst_id]; exact h.next_pos
  case mem_sorted => exact fun m' hm' => h.mem_sorted m' (hsub m' hm')
  case mem_storable => exact fun m' hm' => h.mem_storable m' (hsub m' hm')
  case imm_ne_nil =>
    intro m' hm'
    exact h.imm_ne_nil m' (by rw [hf.imm_memtables]; exact List.mem_append_left _ hm')
  case mem_ids => exact hids.1
  -- Its identifier has not been one of a table, so that the new table is listed once.
  case nodup =>
    rw [← LsmStorageState.flatten_groups, hf.groups h, List.flatten_cons,
      LsmStorageState.flatten_groups, List.singleton_append, List.nodup_cons]
    exact ⟨h.mem_ids_disjoint m hf.mem_memtables, h.nodup⟩
  case mem_ids_disjoint =>
    intro m' hm' hid
    rcases (hf.mem_tableIds h).mp hid with hid | hid
    · have := hids.2.2 m'.id (List.mem_map_of_mem hm') m.id (by simp)
      omega
    · exact h.mem_ids_disjoint m' (hsub m' hm') hid
  case mem_ids_lt =>
    rw [hf.next_sst_id]
    exact fun m' hm' => h.mem_ids_lt m' (hsub m' hm')
  case ids_lt =>
    intro id hid
    rw [hf.next_sst_id]
    rcases (hf.mem_tableIds h).mp hid with rfl | hid
    · exact h.mem_ids_lt m hf.mem_memtables
    · exact h.ids_lt id hid
  case good =>
    intro id hid
    rcases (hf.mem_tableIds h).mp hid with rfl | hid
    · exact ⟨t, by rw [hf.sstables, Function.update_self], hf.holds.good⟩
    · rw [hf.sstables_of_mem h hid]
      exact h.good id hid
  -- The new table has its own file, and the files of the others stay.
  case listed =>
    intro id t' ht'
    rw [hf.mem_tableIds h]
    by_cases hid : id = m.id
    · subst hid
      rw [hf.sstables, Function.update_self] at ht'
      cases ht'
      exact ⟨.inl rfl, hf.id, hf.stores⟩
    · rw [hf.sstables, Function.update_of_ne hid] at ht'
      obtain ⟨hl, rfl, b, hb, ho⟩ := h.listed id t' ht'
      exact ⟨.inr hl, rfl, b, by rw [hf.ssts _ hid, hb], ho⟩
  -- The new table is a group of its own, or goes in front of level 0.
  case sorted =>
    intro g hg
    rw [hf.groups h] at hg
    rcases List.mem_cons.mp hg with rfl | hg
    · rw [hf.run_new]
      exact h.mem_sorted m hf.mem_memtables
    · rw [hf.run_of_mem h fun id hid => LsmStorageState.mem_tableIds_iff.mpr ⟨g, hg, hid⟩]
      exact h.sorted g hg
  case tiers =>
    intro hl
    rw [hf.options] at hl
    rw [hf.l0_sstables, if_neg (by simp [hl])]
    exact h.tiers hl

/-- A flush changes no value. -/
theorem view (h : Inv E s) (hf : Flushed E s s' m t) (k : Bytes) :
    s'.state.view E k = s.state.view E k := by
  have hruns : s.state.groups.map (s'.state.run E) = s.state.groups.map (s.state.run E) :=
    List.map_congr_left fun g hg => hf.run_of_mem h fun id hid =>
      LsmStorageState.mem_tableIds_iff.mpr ⟨g, hg, hid⟩
  rw [LsmStorageState.view_eq, LsmStorageState.view_eq, hf.groups h, List.map_cons, hf.run_new,
    hruns, hf.memtables]
  simp

end Flushed

/-! ## Compactions -/

/-- Tables that a compaction has written and that no state lists yet. -/
structure Pending (E : Extern) (s : LsmStorageInner M) (ts : List SsTable) : Prop where
  nodup : (ts.map SsTable.id).Nodup
  ne_zero : ∀ t ∈ ts, t.id ≠ 0
  good : ∀ t ∈ ts, t.Good E
  lt_next : ∀ t ∈ ts, t.id < s.next_sst_id
  not_mem : ∀ t ∈ ts, t.id ∉ s.state.tableIds
  not_mem_memtables : ∀ t ∈ ts, ∀ m ∈ s.state.memtables, m.id ≠ t.id
  stores : ∀ t ∈ ts, s.disk.Stores E t
  sorted : Assoc.Sorted (ts.map (SsTable.contents E)).flatten

/-- The store `s'` is `s` with the tables `ts` in the place of those with the identifiers `old`. -/
structure Applied (s s' : LsmStorageInner M) (old : List ℕ) (ts : List SsTable) : Prop where
  memtable : s'.state.memtable = s.state.memtable
  imm_memtables : s'.state.imm_memtables = s.state.imm_memtables
  options : s'.options = s.options
  next_sst_id : s'.next_sst_id = s.next_sst_id
  tableIds : ∃ rest, s.state.tableIds.Perm (old ++ rest) ∧
    s'.state.tableIds.Perm (ts.map SsTable.id ++ rest)
  sstables : ∀ id, s'.state.sstables id =
    if id ∈ old then none else addTables s.state.sstables ts id
  ssts : ∀ id, id ∉ old → s'.disk.ssts id = s.disk.ssts id
  wals : s'.disk.wals = s.disk.wals

/-- Other tables stay as they are. -/
theorem addTables_of_not_mem (sstables : ℕ → Option SsTable) {ts : List SsTable} {id : ℕ}
    (h : id ∉ ts.map SsTable.id) : addTables sstables ts id = sstables id := by
  induction ts generalizing sstables with
  | nil => rfl
  | cons t ts ih =>
    rw [List.map_cons, List.mem_cons, not_or] at h
    have := ih (Function.update sstables t.id (some t)) h.2
    rw [Function.update_of_ne h.1] at this
    exact this

/-- A table that is added is open. -/
theorem addTables_of_mem (sstables : ℕ → Option SsTable) {ts : List SsTable}
    (hnd : (ts.map SsTable.id).Nodup) {t : SsTable} (ht : t ∈ ts) :
    addTables sstables ts t.id = some t := by
  induction ts generalizing sstables with
  | nil => cases ht
  | cons t' ts ih =>
    rw [List.map_cons, List.nodup_cons] at hnd
    rcases List.mem_cons.mp ht with rfl | ht
    · have := addTables_of_not_mem (Function.update sstables t.id (some t)) hnd.1
      rw [Function.update_self] at this
      exact this
    · exact ih _ hnd.2 ht

/-- The state of a store with the tables of a compaction open. -/
def withTables (s : LsmStorageInner M) (ts : List SsTable) : LsmStorageState :=
  { s.state with sstables := addTables s.state.sstables ts }

/-- The tables of the store stay open. -/
theorem withTables_of_mem {E : Extern} {s : LsmStorageInner M} {ts : List SsTable}
    (hp : Pending E s ts) {id : ℕ} (hid : id ∈ s.state.tableIds) :
    (s.withTables ts).sstables id = s.state.sstables id := by
  refine addTables_of_not_mem _ fun hmem => ?_
  obtain ⟨t', ht', rfl⟩ := List.mem_map.mp hmem
  exact hp.not_mem t' ht' hid

/-- The tables of the compaction are open as well. -/
theorem withTables_new {E : Extern} {s : LsmStorageInner M} {ts : List SsTable}
    (hp : Pending E s ts) {t : SsTable} (ht : t ∈ ts) : (s.withTables ts).sstables t.id = some t :=
  addTables_of_mem _ hp.nodup ht

namespace Applied

variable {E : Extern} {s s' : LsmStorageInner M} {old : List ℕ} {ts : List SsTable}

/-- A compaction keeps the memtables. -/
theorem memtables (ha : Applied s s' old ts) : s'.state.memtables = s.state.memtables := by
  rw [LsmStorageState.memtables, LsmStorageState.memtables, ha.memtable, ha.imm_memtables]

/-- A compaction replaces tables of the store. -/
theorem old_subset (ha : Applied s s' old ts) {id : ℕ} (hid : id ∈ old) :
    id ∈ s.state.tableIds := by
  obtain ⟨rest, hp, -⟩ := ha.tableIds
  exact hp.mem_iff.mpr (List.mem_append_left _ hid)

/-- The tables of the new state are the new ones and those that were not replaced. -/
theorem mem_tableIds (h : Inv E s) (ha : Applied s s' old ts) {id : ℕ} :
    id ∈ s'.state.tableIds ↔ id ∈ ts.map SsTable.id ∨ (id ∈ s.state.tableIds ∧ id ∉ old) := by
  obtain ⟨rest, hp, hp'⟩ := ha.tableIds
  have hnd := hp.nodup_iff.mp h.nodup
  rw [List.nodup_append] at hnd
  rw [hp'.mem_iff, hp.mem_iff, List.mem_append, List.mem_append]
  constructor
  · rintro (hid | hid)
    · exact .inl hid
    · exact .inr ⟨.inr hid, fun hold => hnd.2.2 id hold id hid rfl⟩
  · rintro (hid | ⟨hid | hid, hold⟩)
    · exact .inl hid
    · exact absurd hid hold
    · exact .inr hid

/-- A table that is not replaced stays open. -/
theorem sstables_of_mem (ha : Applied s s' old ts) (hp : Pending E s ts) {id : ℕ}
    (hid : id ∈ s.state.tableIds) (hold : id ∉ old) :
    s'.state.sstables id = s.state.sstables id := by
  rw [ha.sstables, if_neg hold, addTables_of_not_mem]
  intro hmem
  obtain ⟨t, ht, rfl⟩ := List.mem_map.mp hmem
  exact hp.not_mem t ht hid

/-- A new table is open. -/
theorem sstables_new (ha : Applied s s' old ts) (hp : Pending E s ts) {t : SsTable} (ht : t ∈ ts) :
    s'.state.sstables t.id = some t := by
  rw [ha.sstables, if_neg fun hold => hp.not_mem t ht (ha.old_subset hold),
    addTables_of_mem _ hp.nodup ht]

/-- The tables that stay hold what they have held. -/
theorem run_of_mem (ha : Applied s s' old ts) (hp : Pending E s ts) {ids : List ℕ}
    (hids : ∀ id ∈ ids, id ∈ s.state.tableIds ∧ id ∉ old) :
    s'.state.run E ids = s.state.run E ids :=
  LsmStorageState.run_congr fun id hid => ha.sstables_of_mem hp (hids id hid).1 (hids id hid).2

/-- A table of the new state is not one that was replaced. -/
theorem not_mem_old (h : Inv E s) (ha : Applied s s' old ts) (hp : Pending E s ts) {id : ℕ}
    (hid : id ∈ s'.state.tableIds) : id ∉ old := by
  rcases (ha.mem_tableIds h).mp hid with hid | hid
  · obtain ⟨t, ht, rfl⟩ := List.mem_map.mp hid
    exact fun hold => hp.not_mem t ht (ha.old_subset hold)
  · exact hid.2

/-- The new tables one after the other. -/
theorem tables_new (ha : Applied s s' old ts) (hp : Pending E s ts) :
    s'.state.tables (ts.map SsTable.id) = ts := by
  rw [LsmStorageState.tables, List.filterMap_map]
  have : ∀ t ∈ ts, (s'.state.sstables ∘ SsTable.id) t = some t := fun t ht =>
    ha.sstables_new hp ht
  rw [List.filterMap_congr this, List.filterMap_some]

/-- The new tables hold what the compaction has written. -/
theorem run_new (ha : Applied s s' old ts) (hp : Pending E s ts) :
    s'.state.run E (ts.map SsTable.id) = (ts.map (SsTable.contents E)).flatten := by
  rw [LsmStorageState.run, ha.tables_new hp]

/-- The result of a compaction keeps the invariant, if its groups are in order. -/
theorem inv (h : Inv E s) (ha : Applied s s' old ts) (hp : Pending E s ts)
    (hsorted : ∀ g ∈ s'.state.groups, Assoc.Sorted (s'.state.run E g))
    (htiers : CompactionController.flushToL0 s.options.compaction_options = false →
      s'.state.l0_sstables = []) : Inv E s' := by
  constructor
  case block_size => rw [ha.options]; exact h.block_size
  case next_pos => rw [ha.next_sst_id]; exact h.next_pos
  case mem_sorted => rw [ha.memtables]; exact h.mem_sorted
  case mem_storable => rw [ha.memtables]; exact h.mem_storable
  case imm_ne_nil => rw [ha.imm_memtables]; exact h.imm_ne_nil
  case mem_ids => rw [ha.memtables]; exact h.mem_ids
  -- The new tables take the places of the old ones, and none of them has been listed.
  case nodup =>
    obtain ⟨rest, hperm, hperm'⟩ := ha.tableIds
    have hnd := List.nodup_append.mp (hperm.nodup_iff.mp h.nodup)
    refine hperm'.nodup_iff.mpr (List.nodup_append.mpr ⟨hp.nodup, hnd.2.1, ?_⟩)
    rintro id hid _ hid' rfl
    obtain ⟨t, ht, rfl⟩ := List.mem_map.mp hid
    exact hp.not_mem t ht (hperm.mem_iff.mpr (List.mem_append_right _ hid'))
  case mem_ids_disjoint =>
    rw [ha.memtables]
    intro m hm hid
    rcases (ha.mem_tableIds h).mp hid with hid | hid
    · obtain ⟨t, ht, hid⟩ := List.mem_map.mp hid
      exact hp.not_mem_memtables t ht m hm hid.symm
    · exact h.mem_ids_disjoint m hm hid.1
  case mem_ids_lt => rw [ha.memtables, ha.next_sst_id]; exact h.mem_ids_lt
  case ids_lt =>
    intro id hid
    rw [ha.next_sst_id]
    rcases (ha.mem_tableIds h).mp hid with hid | hid
    · obtain ⟨t, ht, rfl⟩ := List.mem_map.mp hid
      exact hp.lt_next t ht
    · exact h.ids_lt id hid.1
  -- A table that is listed now is a new one, or an old one that stays.
  case good =>
    intro id hid
    rcases (ha.mem_tableIds h).mp hid with hid | hid
    · obtain ⟨t, ht, rfl⟩ := List.mem_map.mp hid
      exact ⟨t, ha.sstables_new hp ht, hp.good t ht⟩
    · rw [ha.sstables_of_mem hp hid.1 hid.2]
      exact h.good id hid.1
  -- Only the files of the old tables are removed.
  case listed =>
    intro id t ht
    have hold : id ∉ old := fun hold => by simp [ha.sstables, hold] at ht
    rw [ha.mem_tableIds h]
    by_cases hid : id ∈ ts.map SsTable.id
    · obtain ⟨t', ht', rfl⟩ := List.mem_map.mp hid
      rw [ha.sstables_new hp ht'] at ht
      cases ht
      obtain ⟨b, hb, ho⟩ := hp.stores _ ht'
      exact ⟨.inl hid, rfl, b, by rw [ha.ssts _ hold, hb], ho⟩
    · rw [ha.sstables, if_neg hold, addTables_of_not_mem _ hid] at ht
      obtain ⟨hl, rfl, b, hb, ho⟩ := h.listed id t ht
      exact ⟨.inr ⟨hl, hold⟩, rfl, b, by rw [ha.ssts _ hold, hb], ho⟩
  case sorted => exact hsorted
  case tiers => rw [ha.options]; exact htiers

/-- Groups that are replaced by the tables `ts`: the groups before and behind them stay, and empty
ones may be left in front of the new one. -/
structure Segment (st st' : LsmStorageState) (old : List (List ℕ)) (new : List ℕ)
    (bottom : Bool) : Prop where
  groups : ∃ A B C, st.groups = A ++ (old ++ B) ∧ st'.groups = A ++ (C ++ new :: B) ∧
    (∀ g ∈ C, g = []) ∧ (bottom = true → B = [])

/-- The tables that a segment replaces. -/
theorem Segment.tableIds {st st' : LsmStorageState} {old : List (List ℕ)} {new : List ℕ}
    {bottom : Bool} (h : Segment st st' old new bottom) :
    ∃ rest, st.tableIds.Perm (old.flatten ++ rest) ∧ st'.tableIds.Perm (new ++ rest) := by
  obtain ⟨A, B, C, hA, hA', hC, -⟩ := h.groups
  have hCf : C.flatten = [] := by
    rw [List.flatten_eq_nil_iff]
    exact hC
  refine ⟨A.flatten ++ B.flatten, ?_, ?_⟩
  · rw [← LsmStorageState.flatten_groups, hA, List.flatten_append, List.flatten_append]
    exact List.perm_append_comm_assoc _ _ _
  · rw [← LsmStorageState.flatten_groups, hA', List.flatten_append, List.flatten_append, hCf,
      List.nil_append, List.flatten_cons]
    exact List.perm_append_comm_assoc _ _ _

/-- A segment depends on the groups only. -/
theorem Segment.congr {st₁ st₁' st st' : LsmStorageState} {old : List (List ℕ)} {new : List ℕ}
    {bottom : Bool} (h : Segment st₁ st₁' old new bottom) (hg : st.groups = st₁.groups)
    (hg' : st'.groups = st₁'.groups) : Segment st st' old new bottom := by
  obtain ⟨A, B, C, hA, hA', hrest⟩ := h.groups
  exact ⟨A, B, C, hg.trans hA, hg'.trans hA', hrest⟩

/-- The groups that stay have the same entries as before. -/
theorem run_of_segment {groups A B : List (List ℕ)} (h : Inv E s)
    (ha : Applied s s' groups.flatten ts) (hp : Pending E s ts)
    (hA : s.state.groups = A ++ (groups ++ B)) {g : List ℕ} (hg : g ∈ A ++ B) :
    s'.state.run E g = s.state.run E g := by
  have hnd := h.nodup
  rw [← LsmStorageState.flatten_groups, hA, List.flatten_append, List.flatten_append,
    List.nodup_append, List.nodup_append] at hnd
  refine ha.run_of_mem hp fun id hid => ?_
  refine ⟨LsmStorageState.mem_tableIds_iff.mpr ⟨g, ?_, hid⟩, fun hold => ?_⟩
  · rw [hA]
    rcases List.mem_append.mp hg with hg | hg <;> simp [hg]
  · rcases List.mem_append.mp hg with hg | hg
    · exact hnd.2.2 id (List.mem_flatten.mpr ⟨g, hg, hid⟩) id (List.mem_append_left _ hold) rfl
    · exact hnd.2.1.2.2 id hold id (List.mem_flatten.mpr ⟨g, hg, hid⟩) rfl

/-- A compaction whose output takes the place of the groups of its task keeps the groups in order.
-/
theorem segment_sorted {groups : List (List ℕ)} {bottom : Bool} (h : Inv E s)
    (ha : Applied s s' groups.flatten ts) (hp : Pending E s ts)
    (hs : Segment s.state s'.state groups (ts.map SsTable.id) bottom) :
    ∀ g ∈ s'.state.groups, Assoc.Sorted (s'.state.run E g) := by
  obtain ⟨A, B, C, hA, hA', hC, -⟩ := hs.groups
  intro g hg
  rw [hA'] at hg
  have hkeep : g ∈ A ++ B → Assoc.Sorted (s'.state.run E g) := by
    intro hg
    rw [ha.run_of_segment h hp hA hg]
    refine h.sorted g ?_
    rw [hA]
    rcases List.mem_append.mp hg with hg | hg <;> simp [hg]
  rcases List.mem_append.mp hg with hg | hg
  · exact hkeep (List.mem_append_left _ hg)
  · rcases List.mem_append.mp hg with hg | hg
    · rw [hC g hg]
      exact List.Pairwise.nil
    · rcases List.mem_cons.mp hg with rfl | hg
      · rw [ha.run_new hp]
        exact hp.sorted
      · exact hkeep (List.mem_append_right _ hg)

/-- A compaction whose output takes the place of the groups of its task changes no value. -/
theorem segment_view {groups : List (List ℕ)} {bottom : Bool} (h : Inv E s)
    (ha : Applied s s' groups.flatten ts) (hp : Pending E s ts)
    (hc : (ts.map (SsTable.contents E)).flatten = keptEntries bottom (s.state.merged E groups))
    (hs : Segment s.state s'.state groups (ts.map SsTable.id) bottom) (k : Bytes) :
    s'.state.view E k = s.state.view E k := by
  obtain ⟨A, B, C, hA, hA', hC, hbot⟩ := hs.groups
  have hrun := fun g hg => ha.run_of_segment h hp hA (g := g) hg
  -- The empty groups in front of the new one have no value.
  have hCrun : ∀ S : List (List (Bytes × Bytes)),
      (C.map (s'.state.run E) ++ S).findSome? (Assoc.lookup k) = S.findSome? (Assoc.lookup k) := by
    intro S
    have : (C.map (s'.state.run E)).findSome? (Assoc.lookup k) = none := by
      rw [List.findSome?_eq_none_iff]
      intro l hl
      obtain ⟨g, hg, rfl⟩ := List.mem_map.mp hl
      rw [hC g hg]
      rfl
    rw [List.findSome?_append, this, Option.none_or]
  rw [LsmStorageState.view_eq, LsmStorageState.view_eq, ha.memtables, hA, hA']
  simp only [List.map_append, List.map_cons]
  rw [ha.run_new hp, hc, List.map_congr_left fun g hg => hrun g (List.mem_append_left _ hg),
    List.map_congr_left fun g hg => hrun g (List.mem_append_right _ hg)]
  -- Between the groups `A` and `B`, the merge has the values that its groups have had.
  have hkept := firstValue_keptEntries (s.state.memtables.map MemTable.map ++
    A.map (s.state.run E)) (groups.map (s.state.run E)) (B.map (s.state.run E)) bottom
    (fun hb => by rw [hbot hb, List.map_nil]) k
  rw [List.append_assoc, List.append_assoc] at hkept
  rw [← hkept]
  refine firstValue_congr ?_
  rw [List.findSome?_append, List.findSome?_append, hCrun, List.findSome?_append,
    List.findSome?_append]
  rfl

end Applied

end LsmStorageInner

end MiniLsm
