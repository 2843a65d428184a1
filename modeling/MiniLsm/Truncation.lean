import MiniLsm.Snapshots
import MiniLsm.Crashes

/-!
# Values of any length

`LsmStorageInner::put` takes a value of any length, and a memtable keeps it whole. The block of a
table has 16 bits for its length, so that a flush leaves as much of it as the low 16 bits of its
length say (`truncate`). What a read returns is the last write while a memtable has it, and from the
flush on the write cut, whatever is compacted later (`LongRun.get_eq_truncate`).

The proof goes by the store whose memtables are cut already (`LsmStorageInner.cut`). That store has
storable entries, so that it keeps the invariant of `Invariant.lean`. A step of the store is the
same step of the cut one: a compaction does not look at the memtables, and a flush makes of a
memtable the table that it holds when it is cut.
-/

namespace MiniLsm

open LsmStorageInner

/-! ## Compactions and the memtables -/

namespace LsmStorageInner

variable {M : Type} {E : Extern}

/-- An outcome with other memtables in the store. -/
def withMemtablesOut {α : Type} (o : Outcome M α) (m : MemTable) (imm : List MemTable) :
    Outcome M α := (o.1, o.2.withMemtables m imm)

/-- Steps that neither read the memtables nor change them, one after the other. -/
theorem bind_withMemtables {α β : Type} (o : Outcome M α) {f : α → LsmStorageInner M → Outcome M β}
    {m : MemTable} {imm : List MemTable}
    (h : ∀ a s, f a (s.withMemtables m imm) = withMemtablesOut (f a s) m imm) :
    (withMemtablesOut o m imm).bind f = withMemtablesOut (o.bind f) m imm := by
  obtain ⟨e | a, s⟩ := o
  · rfl
  · exact h a s

/-- The loop of a compaction neither reads the memtables nor changes them. -/
theorem compactLoop_withMemtables {ι : Type} [Cursor ι Bytes Bytes Error] (bottom : Bool)
    (m : MemTable) (imm : List MemTable) (n : ℕ) (iter : ι) (builder : Option SsTableBuilder)
    (new_sst : List SsTable) (s : LsmStorageInner M) :
    compactLoop E bottom n iter builder new_sst (s.withMemtables m imm) =
      withMemtablesOut (compactLoop E bottom n iter builder new_sst s) m imm := by
  -- Of the store, only the options, the next identifier and the files of tables are looked at.
  induction n generalizing iter builder new_sst s with
  | zero => rfl
  | succ n ih =>
    unfold compactLoop
    split_ifs with hvalid
    · refine bind_withMemtables (Cursor.next iter, s) fun iter' s' => ?_
      rw [show (s'.withMemtables m imm).options = s'.options from rfl]
      split_ifs
      · exact bind_withMemtables (s'.buildNext E _) fun sst s => ih iter' none _ s
      · exact ih iter' _ new_sst s'
    · rcases hfilter : builder.filter fun b => !b.isEmpty with _ | b
      · simp only [hfilter]
        rfl
      · simp only [hfilter]
        exact bind_withMemtables (s.buildNext E b)
          (f := fun sst s => (.ok (new_sst ++ [sst]), s)) fun _ _ => rfl

/-- A compaction writes the same tables whatever the memtables are. -/
theorem compact_withMemtables (s : LsmStorageInner M) (task : CompactionTask) (m : MemTable)
    (imm : List MemTable) :
    (s.withMemtables m imm).compact E task = withMemtablesOut (s.compact E task) m imm := by
  have hgen : ∀ {ι : Type} [Cursor ι Bytes Bytes Error] (iter : Except Error ι) (bottom : Bool),
      (s.withMemtables m imm).generateFrom E iter bottom =
        withMemtablesOut (s.generateFrom E iter bottom) m imm := fun iter bottom =>
    bind_withMemtables (iter, s) fun iter s =>
      compactLoop_withMemtables bottom m imm _ iter none [] s
  have hlevel : ∀ (upper_level : Option ℕ) (upper_ids lower_ids : List ℕ) (bottom : Bool),
      (s.withMemtables m imm).compactLevel E upper_level upper_ids lower_ids bottom =
        withMemtablesOut (s.compactLevel E upper_level upper_ids lower_ids bottom) m imm := by
    intro upper_level upper_ids lower_ids bottom
    rcases upper_level with _ | i
    · exact hgen (s.mergeL0 E upper_ids lower_ids) bottom
    · exact hgen (s.mergeLevels E upper_ids lower_ids) bottom
  cases task with
  | forceFull t => exact hgen (s.mergeL0 E t.l0_sstables t.l1_sstables) _
  | simple t => exact hlevel _ _ _ _
  | leveled t => exact hlevel _ _ _ _
  | tiered t => exact hgen (s.mergeTiers E t.tiers) _

/-- The task of a controller does not depend on the memtables. -/
theorem generateTask_withMemtables (s : LsmStorageInner M)
    (hp : s.options.compaction_options.Plain) (m : MemTable) (imm : List MemTable) :
    (s.withMemtables m imm).generateTask E = s.generateTask E := by
  unfold generateTask
  change CompactionController.generateCompactionTask E.rounding s.options.compaction_options
    (s.state.withMemtables m imm) = _
  -- What the plain controllers look at are the identifiers in level 0 and in the levels.
  rcases ho : s.options.compaction_options with o | o | o | _
  · rw [ho] at hp
    exact absurd hp id
  · rfl
  · rfl
  · rfl

end LsmStorageInner

/-! ## Values that are cut -/

/-- What a table is going to hold of the memtable. -/
def MemTable.cut (m : MemTable) : MemTable :=
  { m with map := m.map.map fun e => (e.1, truncate e.2) }

/-- The store with its memtables cut. -/
def LsmStorageInner.cut {M : Type} (s : LsmStorageInner M) : LsmStorageInner M :=
  s.withMemtables s.state.memtable.cut (s.state.imm_memtables.map MemTable.cut)

/-- The machine with the memtables of its store cut. -/
def Machine.cut {M τ : Type} (c : Machine M τ) : Machine M τ := { c with store := c.store.cut }

/-- The value of a key in the newest memtable that has it. -/
def LsmStorageState.newest (st : LsmStorageState) (k : Bytes) : Option Bytes :=
  st.memtables.findSome? fun m => m.get k

namespace MemTable

/-- The value of a key in the cut memtable. -/
theorem lookup_cut (l : List (Bytes × Bytes)) (k : Bytes) :
    Assoc.lookup k (l.map fun e => (e.1, truncate e.2)) = (Assoc.lookup k l).map truncate := by
  induction l with
  | nil => rfl
  | cons e l ih =>
    rw [List.map_cons, Assoc.lookup_cons, Assoc.lookup_cons, ih]
    split_ifs <;> rfl

/-- Writing and cutting is cutting and writing the value cut. -/
theorem insert_cut (k v : Bytes) (l : List (Bytes × Bytes)) :
    (Assoc.insert k v l).map (fun e => (e.1, truncate e.2)) =
      Assoc.insert k (truncate v) (l.map fun e => (e.1, truncate e.2)) := by
  induction l with
  | nil => rfl
  | cons e l ih =>
    rw [Assoc.insert, List.map_cons, Assoc.insert]
    split_ifs
    · rfl
    · rw [List.map_cons, ih]
    · rfl

theorem sorted_cut {l : List (Bytes × Bytes)} :
    Assoc.Sorted (l.map fun e => (e.1, truncate e.2)) ↔ Assoc.Sorted l :=
  List.pairwise_map

/-- The flush of a memtable stores its entries cut. -/
theorem flush_cut {E : Extern} {m : MemTable} {b : SsTableBuilder} {es : List (Bytes × Bytes)}
    (hb : b.Holds E es) (hs : ∀ e ∈ m.cut.map, Storable e) :
    (m.flush E b).Holds E (es ++ m.cut.map) := by
  unfold flush cut at *
  dsimp only at hs ⊢
  generalize m.map = l at hs
  induction l generalizing b es with
  | nil => simpa using hb
  | cons e l ih =>
    rw [List.map_cons, List.forall_mem_cons] at hs
    have := ih (SsTableBuilder.add_holds_truncate hb hs.1) hs.2
    rwa [List.append_assoc] at this

end MemTable

namespace LsmStorageInner

variable {M : Type} {E : Extern} {io : ManifestIO M} {s : LsmStorageInner M}

theorem cut_memtables (s : LsmStorageInner M) :
    s.cut.state.memtables = s.state.memtables.map MemTable.cut := rfl

/-- A store can be read where the one with its memtables cut can be. -/
theorem readable_of_cut (h : Inv E s.cut) : s.state.Readable E := by
  refine ⟨fun m hm => ?_, h.readable.good, h.readable.level_sorted⟩
  exact MemTable.sorted_cut.mp (h.mem_sorted m.cut (by
    rw [cut_memtables]
    exact List.mem_map_of_mem hm))

/-- The first of the memtables that has a key has its newest value. -/
theorem findSome?_memtables (st : LsmStorageState) (k : Bytes) :
    (st.memtables.map MemTable.map).findSome? (Assoc.lookup k) = st.newest k := by
  rw [List.findSome?_map]
  rfl

/-- Cutting the memtables cuts the values that they have, and no others. -/
theorem view_cut (s : LsmStorageInner M) (k : Bytes) :
    s.cut.state.view E k = match s.state.newest k with
      | some v => truncate v
      | none => s.state.view E k := by
  have hfind : (s.cut.state.memtables.map MemTable.map).findSome? (Assoc.lookup k) =
      (s.state.newest k).map truncate := by
    rw [cut_memtables]
    unfold LsmStorageState.newest
    induction s.state.memtables with
    | nil => rfl
    | cons m ms ih =>
      rw [List.map_cons, List.map_cons, List.findSome?_cons, List.findSome?_cons, ih]
      rw [show m.cut.map = m.map.map fun e => (e.1, truncate e.2) from rfl, MemTable.lookup_cut,
        show m.get k = Assoc.lookup k m.map from rfl]
      cases Assoc.lookup k m.map <;> rfl
  rw [LsmStorageState.view_eq, LsmStorageState.view_eq, firstValue, firstValue,
    List.findSome?_append, List.findSome?_append, hfind, findSome?_memtables]
  cases s.state.newest k <;> rfl

/-- Where a memtable has the key, its value is read. -/
theorem view_of_newest {k v : Bytes} (h : s.state.newest k = some v) : s.state.view E k = v := by
  rw [LsmStorageState.view_eq, firstValue, List.findSome?_append, findSome?_memtables, h]
  rfl

theorem addRecord_cut (io : ManifestIO M) (s : LsmStorageInner M) (r : ManifestRecord) :
    s.cut.addRecord io r = (s.addRecord io r).cut := by
  unfold addRecord
  rw [show s.cut.manifest = s.manifest from rfl]
  split_ifs <;> rfl

/-- A freeze of the cut store. -/
theorem freeze_cut (io : ManifestIO M) (s : LsmStorageInner M) :
    s.cut.forceFreezeMemtable io = (s.forceFreezeMemtable io).cut := by
  have hopt : s.cut.options = s.options := rfl
  rcases hw : s.options.enable_wal with _ | _
  · simp only [forceFreezeMemtable, hopt, hw, Bool.false_eq_true, if_false, ← addRecord_cut]
    rfl
  · simp only [forceFreezeMemtable, hopt, createWal, hw, if_true, ← addRecord_cut]
    rfl

/-- A flush of a store turns the oldest memtable into a table that has its values cut. -/
theorem flush_cut_spec (h : Inv E s.cut) (hne : s.state.imm_memtables ≠ [])
    (hsmall : (s.forceFlushNextImmMemtable E io).2.disk.Small) :
    ∃ m t, s.state.memtables = (s.forceFlushNextImmMemtable E io).2.state.memtables ++ [m] ∧
      Flushed E s.cut (s.forceFlushNextImmMemtable E io).2.cut m.cut t := by
  obtain ⟨imm, m, himm⟩ := (List.eq_nil_or_concat' s.state.imm_memtables).resolve_left hne
  have hm : m.cut ∈ s.cut.state.memtables := by
    rw [cut_memtables, LsmStorageState.memtables, himm]
    simp
  have hholds := MemTable.flush_cut
    (SsTableBuilder.create_holds E h.block_size s.options.compression) (h.mem_storable m.cut hm)
  rw [List.nil_append] at hholds
  have hnem : m.cut.map ≠ [] := h.imm_ne_nil m.cut (by
    rw [show s.cut.state.imm_memtables = s.state.imm_memtables.map MemTable.cut from rfl, himm]
    simp)
  change (m.flush E (SsTableBuilder.create s.options.block_size s.options.compression)).Holds E _
    at hholds
  rw [flush_of_imm_concat E io himm] at hsmall ⊢
  -- All that is known of the builder from here on is what it holds.
  generalize m.flush E (SsTableBuilder.create s.options.block_size s.options.compression) = b
    at hholds hsmall ⊢
  have hssts := build_bind_ssts E io s b m.id (.flush m.id)
  have hfile : Function.update s.disk.ssts m.id (some (b.fileBytes E)) m.id =
      some (b.fileBytes E) := Function.update_self _ _ _
  have hlen : (b.fileBytes E).length < 2^32 := hsmall m.id _ (by rw [hssts, hfile])
  obtain ⟨t, ht, hth, hid, -⟩ :=
    SsTable.open_fileBytes hholds (h.mem_sorted m.cut hm) hnem m.id hlen
  rw [build, ht, Outcome.bind_ok] at hssts ⊢
  have hstate : ((({ s with disk := { s.disk with
      ssts := Function.update s.disk.ssts m.id (some (b.fileBytes E)) } } :
        LsmStorageInner M).addFlushed m.id t).addRecord io (.flush m.id)).state.memtables ++ [m] =
      s.state.memtables := by
    rw [addRecord_state, addFlushed, LsmStorageState.memtables, LsmStorageState.memtables]
    dsimp only
    split_ifs <;> simp [himm]
  refine ⟨m, t, hstate.symm, ?_⟩
  -- What the record leaves of the store, field by field.
  rw [← addRecord_cut]
  constructor
  case holds => exact hth
  case id => exact hid
  case stores =>
    refine ⟨b.fileBytes E, ?_, ?_⟩
    · rw [addRecord_ssts] at hssts ⊢
      rw [hid]
      exact (congrFun hssts m.id).trans hfile
    · rw [hid, ht]
  case ssts =>
    intro id hne
    rw [addRecord_ssts] at hssts ⊢
    exact (congrFun hssts id).trans (Function.update_of_ne hne _ _)
  case wals =>
    rw [addRecord_wals]
    rfl
  case options =>
    rw [addRecord_options]
    rfl
  case next_sst_id =>
    rw [addRecord_next_sst_id]
    rfl
  all_goals
    rw [addRecord_state]
    unfold cut withMemtables LsmStorageState.withMemtables addFlushed MemTable.cut
    dsimp only
    split_ifs <;> simp [himm]

end LsmStorageInner

namespace Machine

variable {M τ : Type} {E : Extern} {io : ManifestIO M} {options : LsmStorageOptions}
  {ops : List (Op τ)} {c c' : Machine M τ}

/-- Of the active memtable, only its entries matter. -/
theorem Follows.congr_memtable (h : Follows E options ops c) {m : MemTable}
    (hid : m.id = c.store.state.memtable.id) (hmap : m.map = c.store.state.memtable.map) :
    Follows E options ops
      { c with store := c.store.withMemtables m c.store.state.imm_memtables } := by
  have hst : Inv.SameTables c.store (c.store.withMemtables m c.store.state.imm_memtables) :=
    ⟨rfl, rfl, rfl, rfl, fun _ _ => rfl, le_rfl⟩
  have hmem : ∀ P : MemTable → Prop, (P c.store.state.memtable → P m) →
      (∀ m' ∈ c.store.state.memtables, P m') →
      ∀ m' ∈ (c.store.withMemtables m c.store.state.imm_memtables).state.memtables, P m' := by
    intro P hP hall
    exact List.forall_mem_cons.mpr ⟨hP (hall _ List.mem_cons_self), fun m' hm' =>
      hall m' (List.mem_cons_of_mem _ hm')⟩
  have hstore := h.inv.store
  refine ⟨h.inv.of_sameTables (hstore.of_sameTables hst ?_ ?_ hstore.imm_ne_nil ?_ ?_ ?_) hst ?_,
    h.options_eq, h.sound.of_levels [] rfl, fun k => ?_⟩
  · exact hmem (fun m => Assoc.Sorted m.map) (fun h => by rwa [hmap]) hstore.mem_sorted
  · exact hmem (fun m => ∀ e ∈ m.map, MiniLsm.Storable e) (fun h => by rwa [hmap])
      hstore.mem_storable
  · have hids := hstore.mem_ids
    rw [LsmStorageState.memtables, List.map_cons, ← hid] at hids
    exact hids
  · exact hmem (fun m => m.id ∉ c.store.state.tableIds) (fun h => by rwa [hid])
      hstore.mem_ids_disjoint
  · exact hmem (fun m => m.id < c.store.next_sst_id) (fun h => by rwa [hid]) hstore.mem_ids_lt
  · exact hmem (fun m' => c.store.next_sst_id ≤ m'.id ∨ ∃ m ∈ c.store.state.memtables, m.id = m'.id)
      (fun h => by rwa [hid]) fun m' hm' => .inr ⟨m', hm', rfl⟩
  · refine Eq.trans ?_ (h.view k)
    rw [LsmStorageState.view_eq, LsmStorageState.view_eq]
    refine firstValue_congr ?_
    change ((m.map :: _) ++ _ : List (List (Bytes × Bytes))).findSome? _ = _
    rw [hmap]
    rfl

/-- A flush of the oldest memtable. -/
theorem Follows.flushed (h : Follows E options ops c) {s' : LsmStorageInner M} {m : MemTable}
    {t : SsTable} (hfl : Flushed E c.store s' m t) :
    Follows E options ops { c with store := s' } := by
  refine ⟨⟨hfl.inv h.inv.store, h.inv.shape.flushed h.inv.store hfl, fun i call hi hcur =>
    (h.inv.calls i call hi hcur).flushed h.inv.store h.inv.shape hfl⟩,
    hfl.options.trans h.options_eq, ?_, fun k => (hfl.view h.inv.store k).trans (h.view k)⟩
  have hlev := hfl.levels
  split_ifs at hlev
  · exact h.sound.of_levels [] hlev
  · exact h.sound.of_levels [(m.id, [m.id])] hlev

/-- A store in which the operations `ops` have put values of any length: with its memtables cut it
is one in which they have put the values cut, and its memtables have the values as they are. -/
structure Cuts (E : Extern) (options : LsmStorageOptions) (ops : List (Op τ)) (c : Machine M τ) :
    Prop where
  follows : ∃ cutOps : List (Op τ), Follows E options cutOps c.cut ∧
    ∀ k, lastWrite cutOps k = truncate (lastWrite ops k)
  newest : ∀ k v, c.store.state.newest k = some v → v = lastWrite ops k
  current : c.AllCurrent

end Machine

/-! ## Steps -/

/-- There is nothing to cut without entries. -/
theorem LsmStorageInner.cut_of_empty {M : Type} {s : LsmStorageInner M}
    (hm : s.state.memtable.map = []) (himm : s.state.imm_memtables = []) : s.cut = s := by
  have hcut : s.state.memtable.cut = s.state.memtable := by
    unfold MemTable.cut
    rw [hm]
    exact congrArg (fun l => { s.state.memtable with map := l }) hm.symm
  unfold LsmStorageInner.cut
  rw [hcut, himm, List.map_nil, ← himm]
  rfl

namespace Machine

variable {M τ : Type} {E : Extern} {io : ManifestIO M} {options : LsmStorageOptions}
  {ops : List (Op τ)} {c c' : Machine M τ} [DecidableEq τ]

theorem begin_cut {i : τ} {task : Option CompactionTask} (h : c.begin i task = some c') :
    c.cut.begin i task = some c'.cut := by
  obtain ⟨hi, t, rfl, rfl⟩ := begin_eq_some h
  unfold begin
  rw [show c.cut.calls i = none from hi]
  rfl

/-- A compaction writes the tables that it writes for the cut store. -/
theorem compactStep_cut (c : Machine M τ) (i : τ) (call : Call) :
    c.cut.compactStep E i call = (c.compactStep E i call).cut := by
  have hstate := (compact_wrote (E := E) c.store call.task).state
  unfold compactStep Machine.cut LsmStorageInner.cut
  dsimp only
  rw [compact_withMemtables, hstate]
  rfl

/-- A compaction changes the tables as it changes those of the cut store. -/
theorem applyStep_cut (c : Machine M τ) (i : τ) (call : Call) (ts : List SsTable) :
    c.cut.applyStep io i call ts = (c.applyStep io i call ts).cut := by
  have hmem := (applyResult_frame io c.store call.task ts).2.2.1
  simp only [LsmStorageState.memtables, List.cons.injEq] at hmem
  unfold applyStep Machine.cut LsmStorageInner.cut
  dsimp only
  rw [applyResult_withMemtables, hmem.1, hmem.2]

/-- A step that neither writes nor flushes is one of the machine with its memtables cut, and changes
what the newest memtables have of no key. -/
theorem step_cut {op : Op τ} (hp : c.store.options.compaction_options.Plain)
    (hw : op.entry = none) (hf : op ≠ .flush) (hstep : c.step E io op = some c') :
    c.cut.step E io op = some c'.cut ∧ ∀ k, c'.store.state.newest k = c.store.state.newest k := by
  cases op with
  | put key value => cases hw
  | del key => cases hw
  | flush => exact absurd rfl hf
  | freeze =>
    simp only [Machine.step] at hstep ⊢
    split_ifs at hstep with hemp
    cases hstep
    refine ⟨?_, fun k => ?_⟩
    -- Cutting the values keeps the keys, so that the memtable is not empty either.
    · have hemp' : ¬c.cut.store.state.memtable.isEmpty = true := by
        simpa [MemTable.isEmpty, Machine.cut, LsmStorageInner.cut, MemTable.cut,
          LsmStorageInner.withMemtables, LsmStorageState.withMemtables] using hemp
      rw [if_neg hemp']
      exact congrArg (fun s => some { c with store := s }) (freeze_cut io c.store)
    · rw [forceFreezeMemtable_state]
      unfold LsmStorageState.newest LsmStorageState.memtables
      rw [List.findSome?_cons, show (c.store.freshMemtable).get k = none by
        rw [MemTable.get, freshMemtable_map, Assoc.lookup_nil]]
  | trigger i =>
    obtain ⟨-, t, -, rfl⟩ := begin_eq_some hstep
    refine ⟨?_, fun k => rfl⟩
    -- The task depends on the tables only.
    change c.cut.begin i (c.store.cut.generateTask E) = _
    rw [LsmStorageInner.cut, generateTask_withMemtables _ hp]
    exact begin_cut hstep
  | full i =>
    obtain ⟨-, t, -, rfl⟩ := begin_eq_some hstep
    exact ⟨begin_cut hstep, fun k => rfl⟩
  | compact i =>
    obtain ⟨call, hi, hts, rfl⟩ := step_compact hstep
    refine ⟨?_, fun k => ?_⟩
    · rw [← compactStep_cut]
      simp only [Machine.step]
      rw [show c.cut.calls i = some call from hi]
      simp only [hts, Option.isNone_none, if_true]
    · rw [show (c.compactStep E i call).store.state = c.store.state from
        (compact_wrote c.store call.task).state]
  | apply i =>
    obtain ⟨call, ts, hi, hts, rfl⟩ := step_apply hstep
    refine ⟨?_, fun k => ?_⟩
    · rw [← applyStep_cut]
      simp only [Machine.step]
      rw [show c.cut.calls i = some call from hi]
      simp only [hts, Option.map_some]
    · unfold LsmStorageState.newest
      rw [show (c.applyStep io i call ts).store.state.memtables = c.store.state.memtables from
        (applyResult_frame io c.store call.task ts).2.2.1]

end Machine

/-- The key of the entry that a step writes fits the formats. Its value may be of any length. -/
def Op.KeyFits {τ : Type} (op : Op τ) : Prop :=
  ∀ e, op.entry = some e → e.1 ≠ [] ∧ e.1.length ≤ 65535

/-- A write is found in the memtable it went to. -/
theorem LsmStorageInner.newest_write {M : Type} {E : Extern} {s : LsmStorageInner M}
    (h : s.state.Readable E) (key value k : Bytes) :
    (s.write E key value).state.newest k = if key = k then some value else s.state.newest k := by
  have hs : Assoc.Sorted s.state.memtable.map := h.mem_sorted _ List.mem_cons_self
  unfold LsmStorageState.newest LsmStorageState.memtables
  rw [List.findSome?_cons, List.findSome?_cons, MemTable.get,
    show (s.write E key value).state.memtable.map = Assoc.insert key value s.state.memtable.map
      from rfl, Assoc.lookup_insert _ _ _ hs]
  by_cases hk : key = k
  · rw [if_pos hk, if_pos hk]
  · rw [if_neg hk, if_neg hk]
    rfl

namespace Machine.Cuts

variable {M τ : Type} {E : Extern} {io : ManifestIO M} {options : LsmStorageOptions}
  {ops ops' : List (Op τ)} {c c' : Machine M τ}

/-- The store can be read. -/
theorem readable (h : Cuts E options ops c) : c.store.state.Readable E := by
  obtain ⟨cutOps, hf, -⟩ := h.follows
  exact readable_of_cut hf.inv.store

/-- Only the last writes matter. -/
theorem congr (h : Cuts E options ops c) (heq : ∀ k, lastWrite ops' k = lastWrite ops k) :
    Cuts E options ops' c := by
  obtain ⟨cutOps, hf, hl⟩ := h.follows
  refine ⟨⟨cutOps, hf, fun k => ?_⟩, fun k v hv => ?_, h.current⟩
  · rw [hl, heq]
  · rw [heq]
    exact h.newest k v hv

/-- A write of a value of any length. -/
theorem write (h : Cuts E options ops c) {op : Op τ} {key value : Bytes}
    (hentry : op.entry = some (key, value)) (hkey : op.KeyFits) :
    Cuts E options (ops ++ [op]) { c with store := c.store.write E key value } := by
  obtain ⟨cutOps, hf, hl⟩ := h.follows
  obtain ⟨hne, hlen⟩ := hkey _ hentry
  have hwritten : ∀ k, lastWrite (ops ++ [op]) k = if key = k then value else lastWrite ops k := by
    intro k
    rw [lastWrite_concat, Op.written_eq, hentry, Option.bind_some]
    split_ifs <;> rfl
  -- The cut store writes the value cut, and its memtable has the entries that cutting leaves. The
  -- size that it counts is another one.
  have hw := (hf.write (storable_truncate hne hlen value)).congr_memtable
    (m := (c.store.write E key value).state.memtable.cut) rfl
    (MemTable.insert_cut key value c.store.state.memtable.map)
  refine ⟨⟨_, hw, fun k => ?_⟩, fun k v hv => ?_, h.current⟩
  · rw [lastWrite_concat, hwritten, hl, Op.written]
    split_ifs <;> rfl
  · rw [newest_write h.readable] at hv
    rw [hwritten]
    split_ifs at hv ⊢
    · exact (Option.some.inj hv).symm
    · exact h.newest k v hv

variable [DecidableEq τ] [Subsingleton τ]

/-- A step that neither writes nor flushes. -/
theorem step_of_none (h : Cuts E options ops c) (hplain : options.compaction_options.Plain)
    {op : Op τ} (hw : op.entry = none) (hflush : op ≠ .flush) (hstep : c.step E io op = some c')
    (hsmall : c'.store.disk.Small) : Cuts E options ops c' := by
  obtain ⟨cutOps, hf, hl⟩ := h.follows
  have hp : c.store.options.compaction_options.Plain := by
    rw [show c.store.options = options from hf.options_eq]
    exact hplain
  have hs : op.Storable := by
    cases op with
    | put key value => cases hw
    | del key => cases hw
    | _ => trivial
  obtain ⟨hcut, hnew⟩ := step_cut hp hw hflush hstep
  have hserial : c.cut.Serial op := (show c.cut.AllCurrent from h.current).serial op
  -- The last writes are those of before, as neither `ops` nor `cutOps` gets an entry.
  refine ⟨⟨cutOps ++ [op], hf.step hplain hserial hs hcut hsmall, fun k => ?_⟩, fun k v hv => ?_,
    h.current.step hstep⟩
  · rw [lastWrite_concat, Op.written_eq, hw, hl]
    rfl
  · rw [hnew] at hv
    exact h.newest k v hv

omit [DecidableEq τ] [Subsingleton τ] in
/-- A flush. -/
theorem flush (h : Cuts E options ops c)
    (hsmall : (c.store.forceFlushNextImmMemtable E io).2.disk.Small) :
    Cuts E options ops { c with store := (c.store.forceFlushNextImmMemtable E io).2 } := by
  by_cases himm : c.store.state.imm_memtables = []
  · rw [flush_of_imm_nil E io himm]
    exact h
  · obtain ⟨cutOps, hf, hl⟩ := h.follows
    obtain ⟨m, t, hmems, hfl⟩ := flush_cut_spec hf.inv.store himm hsmall
    refine ⟨⟨cutOps, hf.flushed hfl, hl⟩, fun k v hv => h.newest k v ?_, h.current⟩
    unfold LsmStorageState.newest at hv ⊢
    rw [hmems, List.findSome?_append, hv]
    rfl

/-- A step keeps what holds of a store with values of any length. -/
theorem step (h : Cuts E options ops c) (hplain : options.compaction_options.Plain) {op : Op τ}
    (hkey : op.KeyFits) (hstep : c.step E io op = some c') (hsmall : c'.store.disk.Small) :
    Cuts E options (ops ++ [op]) c' := by
  -- A step that writes nothing adds an operation that does not change what was written last.
  have hsame : op.entry = none → Cuts E options ops c' → Cuts E options (ops ++ [op]) c' :=
    fun hw h' => h'.congr fun k => by
      rw [lastWrite_concat, Op.written_eq, hw]
      rfl
  have hrest : op.entry = none → op ≠ .flush → Cuts E options (ops ++ [op]) c' :=
    fun hw hflush => hsame hw (h.step_of_none hplain hw hflush hstep hsmall)
  have hput : ∀ key value, op.entry = some (key, value) →
      (c.store.put E io key value).disk.Small →
      Cuts E options (ops ++ [op]) { c with store := c.store.put E io key value } := by
    intro key value hentry hsmall
    have hw := h.write hentry hkey
    rcases put_eq E io c.store key value with heq | heq
    · rw [heq]
      exact hw
    · -- The memtable is full: the freeze within `put` is a step of its own.
      rw [heq] at hsmall ⊢
      have hfreeze : Machine.step E io { c with store := c.store.write E key value } .freeze =
          some { c with store := (c.store.write E key value).forceFreezeMemtable io } :=
        if_neg (by
          rw [MemTable.isEmpty, List.isEmpty_iff]
          exact Assoc.insert_ne_nil _ _ _)
      have hflush : (Op.freeze : Op τ) ≠ .flush := by simp
      exact hw.step_of_none hplain rfl hflush hfreeze hsmall
  cases op with
  | put key value =>
    cases hstep
    exact hput key value rfl hsmall
  | del key =>
    cases hstep
    exact hput key [] rfl hsmall
  | flush =>
    cases hstep
    exact hsame rfl (h.flush hsmall)
  | freeze => exact hrest rfl (by simp)
  | trigger i => exact hrest rfl (by simp)
  | full i => exact hrest rfl (by simp)
  | compact i => exact hrest rfl (by simp)
  | apply i => exact hrest rfl (by simp)

omit [DecidableEq τ] [Subsingleton τ] in
/-- What is read: the last write where a memtable has it, and else the write cut. -/
theorem get_eq (h : Cuts E options ops c) (k : Bytes) :
    c.store.get E k = .ok (if (c.store.state.newest k).isSome then lastWrite ops k
      else truncate (lastWrite ops k)) := by
  obtain ⟨cutOps, hf, hl⟩ := h.follows
  rw [get_spec h.readable]
  rcases hnew : c.store.state.newest k with _ | v
  · have hview : c.store.cut.state.view E k = c.store.state.view E k := by rw [view_cut, hnew]
    rw [← hview, show c.store.cut.state.view E k = _ from hf.view k, hl]
    rfl
  · rw [view_of_newest hnew, h.newest k v hnew]
    rfl

end Machine.Cuts

/-! ## Runs with values of any length -/

/-- The runs of a store that one thread uses, with values of any length. -/
abbrev LongRun {M : Type} (E : Extern) (io : ManifestIO M) (options : LsmStorageOptions)
    (ops : List (Op Unit)) (c : Machine M Unit) : Prop :=
  Steps (Machine.step E io) (fun c op => op.KeyFits ∧
    ∀ c', c.step E io op = some c' → c'.store.disk.Small) (Machine.start io options) ops c

namespace LongRun

open Machine Cursor

variable {M : Type} {E : Extern} {io : ManifestIO M} {options : LsmStorageOptions}
  {ops : List (Op Unit)} {c : Machine M Unit}

/-- What holds in all runs. -/
theorem cuts (h : LongRun E io options ops c) (hsize : options.block_size ≤ 65536)
    (hplain : options.compaction_options.Plain) : Cuts E options ops c := by
  induction h with
  | refl =>
    obtain ⟨m, hmems, -, hmap⟩ := openFresh_memtables io Disk.empty options
    rw [LsmStorageState.memtables, List.cons.injEq] at hmems
    have hstart : Follows E options [] (Machine.start io options : Machine M Unit).cut := by
      rw [Machine.cut, show (Machine.start io options : Machine M Unit).store =
        openFresh io Disk.empty options from rfl, cut_of_empty (by rw [hmems.1, hmap]) hmems.2]
      exact .start io hsize hplain
    refine ⟨⟨[], hstart, fun k => rfl⟩, fun k v hv => ?_, by simp [AllCurrent, Machine.start]⟩
    unfold LsmStorageState.newest LsmStorageState.memtables at hv
    rw [show (Machine.start io options : Machine M Unit).store = openFresh io Disk.empty options
      from rfl, hmems.1, hmems.2] at hv
    simp [MemTable.get, hmap] at hv
  | snoc _ hP hstep ih => exact ih.step hplain hP.1 hstep (hP.2 _ hstep)

/-- What a read returns is the last write while a memtable has it. Once it has been flushed, it is
as much of it as the low 16 bits of its length say, and so it stays, whatever is compacted. A scan
shows what the reads return. -/
theorem get_eq_truncate (h : LongRun E io options ops c) (hsize : options.block_size ≤ 65536)
    (hplain : options.compaction_options.Plain) :
    (∀ k, c.store.get E k = .ok (if (c.store.state.newest k).isSome then lastWrite ops k
      else truncate (lastWrite ops k))) ∧
    ∀ lower upper, ∃ it l, c.store.scan E lower upper = .ok it ∧ Yields it l ∧ Assoc.Sorted l ∧
      ∀ k v, (k, v) ∈ l ↔ lower.above k = true ∧ upper.below k = true ∧
        c.store.get E k = .ok v ∧ v ≠ [] := by
  have hcuts := h.cuts hsize hplain
  refine ⟨hcuts.get_eq, fun lower upper => ?_⟩
  obtain ⟨it, hit, l, hy, hs, hmem⟩ := scan_spec hcuts.readable lower upper
  refine ⟨it, l, hit, hy, hs, fun k v => ?_⟩
  rw [hmem, get_spec hcuts.readable, Except.ok.injEq]

/-- A run goes on with a step. -/
theorem step {c' : Machine M Unit} {op : Op Unit} (h : LongRun E io options ops c)
    (hkey : op.KeyFits) (hstep : c.step E io op = some c') (hsmall : c'.store.disk.Small) :
    LongRun E io options (ops ++ [op]) c' := by
  refine h.snoc ⟨hkey, fun c'' hc'' => ?_⟩ hstep
  rw [hstep] at hc''
  cases hc''
  exact hsmall

/-- Whatever is put and frozen, there are no table files without a flush. -/
theorem small_frozenStore (value : Bytes) : (frozenStore value).disk.Small := by
  intro id buf hbuf
  unfold frozenStore at hbuf
  rw [forceFreezeMemtable_ssts] at hbuf
  cases hbuf

/-- The table of the long value keeps to the format. -/
theorem small_flush_frozenStore {value : Bytes} (hlen : value.length = 65536) :
    ((frozenStore value).forceFlushNextImmMemtable .lib .list).2.disk.Small := by
  intro id buf hbuf
  have himm : (frozenStore value).state.imm_memtables =
      [] ++ [(openFresh .list Disk.empty {} :
        LsmStorageInner (List ManifestRecord)).state.memtable.put .lib [97] value] := rfl
  rw [flush_of_imm_concat .lib .list himm, build_bind_ssts] at hbuf
  by_cases hid : id = 0
  · subst hid
    have hfile := Option.some.inj hbuf
    rw [← hfile]
    change (((SsTableBuilder.create 4096 .none).add .lib [97] value).fileBytes .lib).length < _
    rw [length_fileBytes_single, hlen]
    decide
  · exact small_frozenStore value id buf ((Function.update_of_ne hid _ _).symm.trans hbuf)

/-- The long value does not fill the memtable. -/
theorem put_longValue {value : Bytes} (hlen : value.length = 65536) :
    (openFresh .list Disk.empty {} :
      LsmStorageInner (List ManifestRecord)).put .lib .list [97] value =
      (openFresh .list Disk.empty {}).write .lib [97] value := by
  have hsize : ((openFresh .list Disk.empty {} :
      LsmStorageInner (List ManifestRecord)).state.memtable.put .lib [97] value).approximate_size =
        0 + (1 + value.length) := rfl
  have htarget : (openFresh .list Disk.empty {} :
      LsmStorageInner (List ManifestRecord)).options.target_sst_size = 2097152 := rfl
  unfold put
  dsimp only
  rw [hsize, htarget, hlen, if_neg (by omega)]
  rfl

/-- The run in which the long value is put and flushed. -/
theorem exists_longValue {value : Bytes} (hlen : value.length = 65536) :
    ∃ s : LsmStorageInner (List ManifestRecord),
      LongRun .lib .list {} [.put [97] value, .freeze, .flush] ⟨s, fun _ => none⟩ ∧
      s.state.newest [97] = none := by
  obtain ⟨s, hs⟩ : ∃ s, ((frozenStore value).forceFlushNextImmMemtable .lib .list).2 = s := ⟨_, rfl⟩
  have hsmall := small_flush_frozenStore hlen
  obtain ⟨t, -, hstate⟩ := flush_frozenStore hlen
  rw [hs] at hsmall hstate
  have h₁ : Machine.step .lib .list (Machine.start .list {}) (.put [97] value) =
      some (⟨(openFresh .list Disk.empty {}).write .lib [97] value, fun _ => none⟩ :
        Machine (List ManifestRecord) Unit) :=
    congrArg (fun s => some (⟨s, fun _ => none⟩ : Machine (List ManifestRecord) Unit))
      (put_longValue hlen)
  have h₂ : Machine.step .lib .list (⟨(openFresh .list Disk.empty {}).write .lib [97] value,
      fun _ => none⟩ : Machine (List ManifestRecord) Unit) .freeze =
        some ⟨frozenStore value, fun _ => none⟩ := rfl
  have h₃ : Machine.step .lib .list (⟨frozenStore value, fun _ => none⟩ :
      Machine (List ManifestRecord) Unit) .flush = some ⟨s, fun _ => none⟩ := by
    change some (⟨((frozenStore value).forceFlushNextImmMemtable .lib .list).2, fun _ => none⟩ :
      Machine (List ManifestRecord) Unit) = _
    rw [hs]
  have hput : (Op.put [97] value : Op Unit).KeyFits := by
    rintro e ⟨⟩
    exact ⟨List.cons_ne_nil _ _, Nat.le_add_left 1 65534⟩
  have hrun₁ : LongRun .lib .list {} [.put [97] value] _ :=
    step .refl hput h₁ fun id buf hbuf => by cases hbuf
  have hfreeze : (Op.freeze : Op Unit).KeyFits := fun e he => by cases he
  have hflush : (Op.flush : Op Unit).KeyFits := fun e he => by cases he
  refine ⟨s, (hrun₁.step hfreeze h₂ (small_frozenStore value)).step hflush h₃ hsmall, ?_⟩
  rw [hstate]
  rfl

/-- A value of 2^16 bytes is read as the empty one once it has been flushed. -/
theorem get_eq_truncate_longValue :
    ∃ (value : Bytes) (c : Machine (List ManifestRecord) Unit), value.length = 65536 ∧
      LongRun .lib .list {} [.put [97] value, .freeze, .flush] c ∧
      c.store.get .lib [97] = .ok [] := by
  obtain ⟨value, hlen⟩ : ∃ value : Bytes, value.length = 65536 :=
    ⟨List.replicate 65536 0, List.length_replicate⟩
  obtain ⟨s, hrun, hnew⟩ := exists_longValue hlen
  refine ⟨value, _, hlen, hrun, ?_⟩
  have hlast : lastWrite ([.put [97] value, .freeze, .flush] : List (Op Unit)) [97] = value :=
    lastWrite_cons (show (Op.put [97] value : Op Unit).written [97] = some value by
      rw [Op.written, if_pos rfl]) (by simp [Op.written])
  have hcut : truncate value = [] := by
    rw [truncate, hlen]
    rfl
  rw [(get_eq_truncate hrun (by decide) (show CompactionOptions.noCompaction.Plain from trivial)).1,
    hnew, hlast, hcut]
  rfl

end LongRun

end MiniLsm
