import MiniLsm.Reads
import MiniLsm.Lib.Steps

/-!
# Scans and other threads

`LsmStorageInner::scan` loads the pointer to the state under the lock, and copies each memtable of
that state later, under the lock of the memtable. Other threads may come in between: a memtable is
one object in all states that have it, so that a write to the memtable is seen in the snapshot as
long as it has not been copied, and no longer once it is frozen.

What the scan yields is what the store held at one moment of the call: when the active memtable of
the snapshot was copied, or, if it was frozen before that, when it was frozen (`ScanRun.snapshot`).
This needs entries that the tables can store: a value of 2^16 bytes is flushed as an empty one
(`ScanRun.no_snapshot_long_value`).
-/

namespace MiniLsm

open LsmStorageInner Cursor

variable {M τ : Type} {E : Extern} {io : ManifestIO M}

/-! ## The steps of a scan -/

/-- `LsmStorageInner::scan` behind the copies of the memtables: the iterators of the tables of the
snapshot, and the merges. -/
def LsmStorageInner.scanFrom (E : Extern) (snapshot : LsmStorageState)
    (memtable_iters : List MemTableIterator) (lower upper : Bound) :
    Except Error (ScanIterator E) := do
  let memtable_iter := MergeIterator.create memtable_iters
  let overlap := fun t : SsTable => rangeOverlap lower upper t.first_key t.last_key
  let table_iters ← ((snapshot.tables snapshot.l0_sstables).filter overlap).mapM fun t =>
    seekLower (SsTableIterator.createAndSeekToFirst E t) (SsTableIterator.createAndSeekToKey E t)
      lower
  let l0_iter := MergeIterator.create table_iters
  let level_iters ← snapshot.levels.mapM fun level =>
    let level_ssts := (snapshot.tables level.2).filter overlap
    if level_ssts.isEmpty then .ok ⟨none, 0, []⟩
    else
      seekLower (SstConcatIterator.createAndSeekToFirst E level_ssts)
        (SstConcatIterator.createAndSeekToKey E level_ssts) lower
  let level_iter := MergeIterator.create level_iters
  let two_merge_1 ← TwoMergeIterator.create memtable_iter l0_iter
  let two_merge_2 ← TwoMergeIterator.create two_merge_1 level_iter
  let lsm_iter ← LsmIterator.create two_merge_2 upper
  .ok (FusedIterator.create lsm_iter)

/-- A scan that nothing interrupts copies the memtables of the state. -/
theorem LsmStorageInner.scan_eq_scanFrom (s : LsmStorageInner M) (lower upper : Bound) :
    s.scan E lower upper =
      scanFrom E s.state (s.state.memtables.map fun m => m.scan lower upper) lower upper :=
  rfl

/-- A write to the memtable `id` as it is seen in a state that may have this memtable. -/
def LsmStorageState.writeShared (E : Extern) (id : ℕ) (key value : Bytes) (st : LsmStorageState) :
    LsmStorageState :=
  let written := fun m : MemTable => if m.id = id then m.put E key value else m
  { st with
    memtable := written st.memtable
    imm_memtables := st.imm_memtables.map written }

/-- How far a scan is. -/
inductive ScanPhase (E : Extern) where
  /-- It has not been called. -/
  | idle
  /-- It has loaded the state, and copied some of its memtables. -/
  | copying (lower upper : Bound) (snapshot : LsmStorageState)
      (memtable_iters : List MemTableIterator)
  /-- It has returned. -/
  | returned (lower upper : Bound) (result : Except Error (ScanIterator E))

/-- A machine, and a scan by a thread of its own. -/
structure Scanner (E : Extern) (M τ : Type) where
  machine : Machine M τ
  phase : ScanPhase E

/-- The steps of a scan and of the other threads. -/
inductive ScanStep (τ : Type) where
  /-- A step of another thread -/
  | op (op : Op τ)
  /-- The insertion of `LsmStorageInner::put`, whose freeze is a step of its own -/
  | write (key value : Bytes)
  /-- The scan loads the pointer to the state. -/
  | load (lower upper : Bound)
  /-- The scan copies the next memtable. -/
  | copy
  /-- The scan opens the tables and returns. -/
  | finish

/-- The entry that an operation writes. -/
def Op.entry : Op τ → Option (Bytes × Bytes)
  | .put key value => some (key, value)
  | .del key => some (key, [])
  | _ => none

theorem Op.written_eq (op : Op τ) (k : Bytes) :
    op.written k = op.entry.bind fun e => if e.1 = k then some e.2 else none := by
  cases op <;> rfl

/-- What a step does to the store, as an operation. -/
def ScanStep.toOp : ScanStep τ → Option (Op τ)
  | .op o => some o
  | .write key value => some (.put key value)
  | _ => none

/-- A write of an operation to the memtable `id`, as the scan sees it. -/
def ScanPhase.writeShared (id : ℕ) (entry : Option (Bytes × Bytes)) : ScanPhase E → ScanPhase E
  | .copying lower upper snapshot memtable_iters =>
    match entry with
    | some (key, value) =>
      .copying lower upper (snapshot.writeShared E id key value) memtable_iters
    | none => .copying lower upper snapshot memtable_iters
  | phase => phase

namespace Scanner

variable [DecidableEq τ]

/-- A step, where it can be taken. -/
def step (io : ManifestIO M) (c : Scanner E M τ) : ScanStep τ → Option (Scanner E M τ)
  | .op op => (c.machine.step E io op).map fun machine =>
      ⟨machine, c.phase.writeShared c.machine.store.state.memtable.id op.entry⟩
  | .write key value =>
    some ⟨{ c.machine with store := c.machine.store.write E key value },
      c.phase.writeShared c.machine.store.state.memtable.id (some (key, value))⟩
  | .load lower upper =>
    match c.phase with
    | .idle => some { c with phase := .copying lower upper c.machine.store.state [] }
    | _ => none
  | .copy =>
    match c.phase with
    | .copying lower upper snapshot memtable_iters =>
      snapshot.memtables[memtable_iters.length]?.map fun m =>
        { c with phase := .copying lower upper snapshot (memtable_iters ++ [m.scan lower upper]) }
    | _ => none
  | .finish =>
    match c.phase with
    | .copying lower upper snapshot memtable_iters =>
      if memtable_iters.length = snapshot.memtables.length then
        some { c with
          phase := .returned lower upper (scanFrom E snapshot memtable_iters lower upper) }
      else none
    | _ => none

/-- The entry that a step writes fits the formats, and the step leaves table files below 2^32
bytes. -/
def Stores (io : ManifestIO M) (c : Scanner E M τ) (a : ScanStep τ) : Prop :=
  (∀ op, a.toOp = some op → op.Storable) ∧
    ∀ c', c.step io a = some c' → c'.machine.store.disk.Small

end Scanner

/-- The runs of a store on an empty directory and of a scan, in which each step has the property
`P`. -/
abbrev ScanRun [DecidableEq τ] (io : ManifestIO M) (options : LsmStorageOptions)
    (P : Scanner E M τ → ScanStep τ → Prop) : List (ScanStep τ) → Scanner E M τ → Prop :=
  Steps (Scanner.step io) P ⟨.start io options, .idle⟩

/-! ## The moment of a scan -/

namespace Machine

/-- The identifier of the active memtable grows. -/
theorem step_memtable_id [DecidableEq τ] {c c' : Machine M τ} {op : Op τ}
    (hinv : LsmStorageInner.Inv E c.store) (hstep : c.step E io op = some c') :
    c.store.state.memtable.id ≤ c'.store.state.memtable.id := by
  have hlt := hinv.mem_ids_lt c.store.state.memtable List.mem_cons_self
  have hput : ∀ key value, c.store.state.memtable.id ≤
      (c.store.put E io key value).state.memtable.id := by
    intro key value
    rcases put_eq E io c.store key value with heq | heq
    · rw [heq]
      exact le_rfl
    · rw [heq, forceFreezeMemtable_state]
      dsimp only
      rw [freshMemtable_id]
      exact hlt.le
  cases op with
  | put key value =>
    cases hstep
    exact hput key value
  | del key =>
    cases hstep
    exact hput key []
  | freeze =>
    simp only [Machine.step] at hstep
    split_ifs at hstep
    cases hstep
    rw [forceFreezeMemtable_state]
    dsimp only
    rw [freshMemtable_id]
    exact hlt.le
  | flush =>
    cases hstep
    rw [(flush_memtables E io c.store).1]
  | trigger i =>
    obtain ⟨-, t, -, rfl⟩ := begin_eq_some hstep
    exact le_rfl
  | full i =>
    obtain ⟨-, t, -, rfl⟩ := begin_eq_some hstep
    exact le_rfl
  | compact i =>
    obtain ⟨call, -, -, rfl⟩ := step_compact hstep
    rw [show (c.compactStep E i call).store.state = c.store.state from
      (compact_wrote c.store call.task).state]
  | apply i =>
    obtain ⟨call, ts, -, -, rfl⟩ := step_apply hstep
    have hmem := (applyResult_frame io c.store call.task ts).2.2.1
    simp only [LsmStorageState.memtables, List.cons.injEq] at hmem
    exact (congrArg MemTable.id hmem.1).ge

/-- The insertion of a put, without its freeze. -/
theorem Follows.write {options : LsmStorageOptions} {ops : List (Op τ)} {c : Machine M τ}
    (h : Follows E options ops c) {key value : Bytes} (hs : MiniLsm.Storable (key, value)) :
    Follows E options (ops ++ [.put key value])
      { c with store := c.store.write E key value } where
  inv := h.inv.of_sameTables (h.inv.store.write hs) (Inv.sameTables_write _ _ _)
    (memtablesFrom_write _ _ _)
  options_eq := h.options_eq
  sound := h.sound.of_levels [] rfl
  view := by
    intro k
    rw [lastWrite_concat, ← h.view k, Op.written]
    refine (h.inv.store.view_write key value k).trans ?_
    split_ifs <;> rfl

end Machine

namespace Scanner

variable {options : LsmStorageOptions} {ops : List (ScanStep τ)} {lower upper : Bound}
  {st snapshot : LsmStorageState} {iters : List MemTableIterator}

/-- An iteration to the end shows, in order, the pairs within the bounds that are live after the
steps `ops`. -/
def Shows (ops : List (ScanStep τ)) (lower upper : Bound)
    (result : Except Error (ScanIterator E)) : Prop :=
  ∃ it l, result = .ok it ∧ Yields it l ∧ Assoc.Sorted l ∧
    ∀ k v, (k, v) ∈ l ↔ lower.above k = true ∧ upper.below k = true ∧
      lastWrite (ops.filterMap ScanStep.toOp) k = v ∧ v ≠ []

/-- A state has the view of the last writes at a moment, before which the scan has loaded its
pointer. -/
structure Caught (E : Extern) (ops : List (ScanStep τ)) (lower upper : Bound)
    (st : LsmStorageState) : Prop where
  load : .load lower upper ∈ ops
  readable : st.Readable E
  view : ∀ k, st.view E k = lastWrite (ops.filterMap ScanStep.toOp) k

/-- What the scan has copied is from the state `st`, which is that of a moment `ops₁`. As long as
the active memtable of the snapshot is that of the store and has not been copied, the moment is now.
-/
structure Copying (c : Scanner E M τ) (ops : List (ScanStep τ)) (lower upper : Bound)
    (snapshot : LsmStorageState) (iters : List MemTableIterator) : Prop where
  older : ∀ m ∈ snapshot.imm_memtables, m.id < snapshot.memtable.id
  le_active : snapshot.memtable.id ≤ c.machine.store.state.memtable.id
  caught : ∃ st ops₁ ops₂, ops = ops₁ ++ ops₂ ∧ Caught E ops₁ lower upper st ∧
    st = { snapshot with memtable := st.memtable } ∧
    iters = (st.memtables.map fun m => m.scan lower upper).take iters.length ∧
    (iters = [] → st = snapshot ∧
      (snapshot.memtable.id = c.machine.store.state.memtable.id → ops₂ = []))

/-- A write to another memtable than the active one of the snapshot is not seen. -/
theorem writeShared_of_ne {id : ℕ} (h : snapshot.memtable.id < id)
    (hold : ∀ m ∈ snapshot.imm_memtables, m.id < snapshot.memtable.id) (key value : Bytes) :
    snapshot.writeShared E id key value = snapshot := by
  have himm : (snapshot.imm_memtables.map fun m => if m.id = id then m.put E key value else m) =
      snapshot.imm_memtables := by
    refine (List.map_congr_left fun m hm => ?_).trans (List.map_id _)
    exact if_neg ((hold m hm).trans h).ne
  rw [LsmStorageState.writeShared]
  dsimp only
  rw [if_neg h.ne, himm]

/-- A write to the active memtable of the snapshot. -/
theorem writeShared_self (hold : ∀ m ∈ snapshot.imm_memtables, m.id < snapshot.memtable.id)
    (key value : Bytes) :
    snapshot.writeShared E snapshot.memtable.id key value =
      { snapshot with memtable := snapshot.memtable.put E key value } := by
  have himm : (snapshot.imm_memtables.map fun m =>
      if m.id = snapshot.memtable.id then m.put E key value else m) = snapshot.imm_memtables := by
    refine (List.map_congr_left fun m hm => ?_).trans (List.map_id _)
    exact if_neg (hold m hm).ne
  rw [LsmStorageState.writeShared]
  dsimp only
  rw [if_pos rfl, himm]

/-- A moment stays one when more steps come. -/
theorem Copying.extend {c c' : Scanner E M τ} (h : Copying c ops lower upper snapshot iters)
    (a : ScanStep τ) (hid : snapshot.memtable.id < c'.machine.store.state.memtable.id) :
    Copying c' (ops ++ [a]) lower upper snapshot iters := by
  obtain ⟨st, ops₁, ops₂, rfl, hcaught, hst, hiters, hnil⟩ := h.caught
  refine ⟨h.older, hid.le, st, ops₁, ops₂ ++ [a], List.append_assoc _ _ _, hcaught, hst, hiters,
    fun hi => ⟨(hnil hi).1, fun heq => absurd heq hid.ne⟩⟩

theorem filterMap_concat {a : ScanStep τ} {op : Op τ} (h : a.toOp = some op)
    (ops : List (ScanStep τ)) :
    (ops ++ [a]).filterMap ScanStep.toOp = ops.filterMap ScanStep.toOp ++ [op] := by
  rw [List.filterMap_append, List.filterMap_cons, h, List.filterMap_nil]

/-- What the scan is going to yield is kept by an operation of another thread. -/
theorem Copying.op {c : Scanner E M τ} (c' : Scanner E M τ) {a : ScanStep τ} {op : Op τ}
    (ha : a.toOp = some op)
    (hle : c.machine.store.state.memtable.id ≤ c'.machine.store.state.memtable.id)
    (hphase : c.phase = .copying lower upper snapshot iters)
    (h : Copying c ops lower upper snapshot iters) :
    ∃ snapshot', c.phase.writeShared c.machine.store.state.memtable.id op.entry =
        .copying lower upper snapshot' iters ∧
      Copying c' (ops ++ [a]) lower upper snapshot' iters := by
  -- What the operation writes is not seen where the active memtable is another one by now.
  rcases h.le_active.lt_or_eq with hlt | hactive
  · refine ⟨snapshot, ?_, h.extend a (hlt.trans_le hle)⟩
    rw [hphase]
    rcases hentry : op.entry with _ | ⟨key, value⟩
    · rfl
    · exact congrArg (ScanPhase.copying lower upper · iters) (writeShared_of_ne hlt h.older _ _)
  -- Otherwise the snapshot follows the store, and the moment is the new state.
  obtain ⟨st, ops₁, ops₂, hops, hcaught, hst, hiters, hnil⟩ := h.caught
  obtain ⟨m', hphase', hsorted, hid, hview⟩ : ∃ m', c.phase.writeShared
      c.machine.store.state.memtable.id op.entry =
        .copying lower upper { snapshot with memtable := m' } iters ∧
      (Assoc.Sorted snapshot.memtable.map → Assoc.Sorted m'.map) ∧ m'.id = snapshot.memtable.id ∧
      (Assoc.Sorted snapshot.memtable.map → ∀ k,
        LsmStorageState.view E { snapshot with memtable := m' } k =
          (op.written k).getD (snapshot.view E k)) := by
    rw [hphase, ← hactive]
    rcases hentry : op.entry with _ | ⟨key, value⟩
    · refine ⟨snapshot.memtable, rfl, id, rfl, fun _ k => ?_⟩
      rw [Op.written_eq, hentry]
      rfl
    · refine ⟨snapshot.memtable.put E key value, ?_, fun hs => hs.insert key value, rfl,
        fun hs k => ?_⟩
      · exact congrArg (ScanPhase.copying lower upper · iters) (writeShared_self h.older key value)
      · rw [Op.written_eq, hentry, snapshot.view_put hs key value k, Option.bind_some]
        split_ifs <;> rfl
  refine ⟨_, hphase', ?_, ?_, ?_⟩
  · intro m hm
    rw [hid]
    exact h.older m hm
  · exact hid.trans_le (h.le_active.trans hle)
  by_cases hi : iters = []
  · obtain ⟨rfl, hops₂⟩ := hnil hi
    have hs := hcaught.readable.mem_sorted st.memtable List.mem_cons_self
    obtain rfl := hops₂ hactive
    rw [List.append_nil] at hops
    subst hops hi
    refine ⟨_, ops ++ [a], [], (List.append_nil _).symm, ⟨?_, ?_, fun k => ?_⟩, rfl, rfl,
      fun _ => ⟨rfl, fun _ => rfl⟩⟩
    · exact List.mem_append_left _ hcaught.load
    · refine ⟨?_, hcaught.readable.good, hcaught.readable.level_sorted⟩
      intro m hm
      rcases List.mem_cons.mp hm with rfl | hm
      · exact hsorted hs
      · exact hcaught.readable.mem_sorted m (List.mem_cons_of_mem _ hm)
    · rw [hview hs k, hcaught.view k, filterMap_concat ha, lastWrite_concat]
  · refine ⟨st, ops₁, ops₂ ++ [a], ?_, hcaught, ?_, hiters, fun hnil => absurd hnil hi⟩
    · rw [hops, List.append_assoc]
    · rw [hst]

/-- The scan has just loaded the pointer. -/
theorem Copying.load {c : Scanner E M τ}
    (hf : Machine.Follows E options (ops.filterMap ScanStep.toOp) c.machine)
    (hphase : ScanPhase E) :
    Copying { c with phase := hphase } (ops ++ [.load lower upper]) lower upper
      c.machine.store.state [] := by
  have hids := hf.inv.store.mem_ids
  rw [LsmStorageState.memtables, List.map_cons, List.pairwise_cons] at hids
  refine ⟨fun m hm => hids.1 m.id (List.mem_map_of_mem hm), le_rfl, c.machine.store.state,
    ops ++ [.load lower upper], [], (List.append_nil _).symm, ⟨by simp, ?_, fun k => ?_⟩, rfl, rfl,
    fun _ => ⟨rfl, fun _ => rfl⟩⟩
  · exact hf.inv.store.readable
  · rw [hf.view k]
    congr 1
    simp [ScanStep.toOp]

/-- The scan has copied one memtable more. -/
theorem Copying.copy {c : Scanner E M τ} {m : MemTable}
    (h : Copying c ops lower upper snapshot iters)
    (hm : snapshot.memtables[iters.length]? = some m) (hphase : ScanPhase E) :
    Copying { c with phase := hphase } (ops ++ [.copy]) lower upper snapshot
      (iters ++ [m.scan lower upper]) := by
  obtain ⟨st, ops₁, ops₂, hops, hcaught, hst, hiters, hnil⟩ := h.caught
  have hm' : st.memtables[iters.length]? = some m := by
    rcases iters with _ | ⟨it, iters⟩
    · rwa [(hnil rfl).1]
    · rw [hst]
      exact hm
  refine ⟨h.older, h.le_active, st, ops₁, ops₂ ++ [.copy], ?_, hcaught, hst, ?_, by simp⟩
  · rw [hops, List.append_assoc]
  · rw [List.length_append, List.length_singleton, List.take_add_one, ← hiters, List.getElem?_map,
      hm']
    rfl

/-- What the scan returns, when it has copied all memtables. -/
theorem Copying.finish {c : Scanner E M τ} (h : Copying c ops lower upper snapshot iters)
    (hlen : iters.length = snapshot.memtables.length) :
    ∃ ops₁ ops₂, ops = ops₁ ++ ops₂ ∧ .load lower upper ∈ ops₁ ∧
      Shows ops₁ lower upper (scanFrom E snapshot iters lower upper) := by
  obtain ⟨st, ops₁, ops₂, hops, hcaught, hst, hiters, -⟩ := h.caught
  have hlen' : iters.length = (st.memtables.map fun m => m.scan lower upper).length := by
    rw [hlen, hst, List.length_map]
    rfl
  rw [hlen', List.take_length] at hiters
  have hscan : scanFrom E snapshot iters lower upper =
      LsmStorageInner.scan E { c.machine.store with state := st } lower upper := by
    rw [LsmStorageInner.scan_eq_scanFrom, hiters, hst]
    rfl
  have hread : LsmStorageState.Readable E
      (LsmStorageInner.state { c.machine.store with state := st }) := hcaught.readable
  obtain ⟨it, hit, l, hy, hs, hmem⟩ := scan_spec hread lower upper
  refine ⟨ops₁, ops₂, hops, hcaught.load, it, l, hscan.trans hit, hy, hs, fun k v => ?_⟩
  rw [hmem, ← hcaught.view k]

/-- The invariant of a scan among other threads. -/
structure Inv (options : LsmStorageOptions) (ops : List (ScanStep τ)) (c : Scanner E M τ) :
    Prop where
  machine : Machine.Follows E options (ops.filterMap ScanStep.toOp) c.machine
  current : c.machine.AllCurrent
  copying : ∀ lower upper snapshot iters, c.phase = .copying lower upper snapshot iters →
    Copying c ops lower upper snapshot iters
  returned : ∀ lower upper result, c.phase = .returned lower upper result →
    ∃ ops₁ ops₂, ops = ops₁ ++ ops₂ ∧ .load lower upper ∈ ops₁ ∧ .finish ∈ ops₂ ∧
      Shows ops₁ lower upper result

/-- An operation of another thread keeps the invariant. -/
theorem Inv.op {c : Scanner E M τ} {machine : Machine M τ} {a : ScanStep τ} {op : Op τ}
    (h : c.Inv options ops) (ha : a.toOp = some op)
    (hf : Machine.Follows E options (ops.filterMap ScanStep.toOp ++ [op]) machine)
    (hcur : machine.AllCurrent)
    (hle : c.machine.store.state.memtable.id ≤ machine.store.state.memtable.id) :
    Inv options (ops ++ [a])
      ⟨machine, c.phase.writeShared c.machine.store.state.memtable.id op.entry⟩ := by
  rw [← filterMap_concat ha] at hf
  rcases hphase : c.phase with _ | ⟨lower, upper, snapshot, iters⟩ | ⟨lower, upper, result⟩
  · exact ⟨hf, hcur, fun _ _ _ _ hp => (by cases hp), fun _ _ _ hp => (by cases hp)⟩
  · obtain ⟨snapshot', hphase', hcopy⟩ := (h.copying _ _ _ _ hphase).op
      ⟨machine, c.phase.writeShared c.machine.store.state.memtable.id op.entry⟩ ha hle hphase
    rw [hphase] at hphase' hcopy
    rw [hphase'] at hcopy ⊢
    refine ⟨hf, hcur, fun _ _ _ _ hp => ?_, fun _ _ _ hp => (by cases hp)⟩
    cases hp
    exact hcopy
  · refine ⟨hf, hcur, fun _ _ _ _ hp => (by cases hp), fun _ _ _ hp => ?_⟩
    cases hp
    obtain ⟨ops₁, ops₂, rfl, hload, hfin, hshows⟩ := h.returned _ _ _ hphase
    exact ⟨ops₁, ops₂ ++ [a], List.append_assoc _ _ _, hload, List.mem_append_left _ hfin, hshows⟩

/-- A step of the scan does not change what the operations have led to. -/
theorem Inv.machine_concat {c : Scanner E M τ} {a : ScanStep τ} (h : c.Inv options ops)
    (ha : a.toOp = none) :
    Machine.Follows E options ((ops ++ [a]).filterMap ScanStep.toOp) c.machine := by
  rw [List.filterMap_append, List.filterMap_cons, ha, List.filterMap_nil, List.append_nil]
  exact h.machine

/-- A step keeps the invariant. -/
theorem Inv.step [DecidableEq τ] [Subsingleton τ] {c c' : Scanner E M τ} {a : ScanStep τ}
    (h : c.Inv options ops) (hplain : options.compaction_options.Plain) (hs : c.Stores io a)
    (hstep : c.step io a = some c') : c'.Inv options (ops ++ [a]) := by
  have hsmall := hs.2 c' hstep
  cases a with
  | op op =>
    obtain ⟨machine, hmachine, rfl⟩ := Option.map_eq_some_iff.mp hstep
    exact h.op rfl (h.machine.step hplain (h.current.serial op) (hs.1 op rfl) hmachine hsmall)
      (h.current.step hmachine) (Machine.step_memtable_id h.machine.inv.store hmachine)
  | write key value =>
    cases hstep
    exact h.op rfl (h.machine.write (hs.1 (.put key value) rfl)) h.current le_rfl
  | load lower upper =>
    simp only [Scanner.step] at hstep
    split at hstep
    · cases hstep
      refine ⟨h.machine_concat rfl, h.current, fun _ _ _ _ hp => ?_, fun _ _ _ hp => (by cases hp)⟩
      cases hp
      exact .load h.machine _
    · cases hstep
  | copy =>
    simp only [Scanner.step] at hstep
    split at hstep
    · rename_i hphase
      obtain ⟨m, hm, rfl⟩ := Option.map_eq_some_iff.mp hstep
      refine ⟨h.machine_concat rfl, h.current, fun _ _ _ _ hp => ?_, fun _ _ _ hp => (by cases hp)⟩
      cases hp
      exact (h.copying _ _ _ _ hphase).copy hm _
    · cases hstep
  | finish =>
    simp only [Scanner.step] at hstep
    split at hstep
    · rename_i hphase
      split_ifs at hstep with hlen
      cases hstep
      refine ⟨h.machine_concat rfl, h.current, fun _ _ _ _ hp => (by cases hp), fun _ _ _ hp => ?_⟩
      cases hp
      obtain ⟨ops₁, ops₂, rfl, hload, hshows⟩ := (h.copying _ _ _ _ hphase).finish hlen
      exact ⟨ops₁, ops₂ ++ [.finish], List.append_assoc _ _ _, hload, by simp, hshows⟩
    · cases hstep

end Scanner

namespace ScanRun

variable {options : LsmStorageOptions} {ops : List (ScanStep Unit)} {c : Scanner E M Unit}
  {lower upper : Bound} {result : Except Error (ScanIterator E)}

/-- What a scan returns shows the pairs that are live at a moment between its load of the state and
its return. -/
theorem snapshot (hsize : options.block_size ≤ 65536) (hplain : options.compaction_options.Plain)
    (h : ScanRun io options (Scanner.Stores io) ops c)
    (hreturned : c.phase = .returned lower upper result) :
    ∃ ops₁ ops₂, ops = ops₁ ++ ops₂ ∧ .load lower upper ∈ ops₁ ∧ .finish ∈ ops₂ ∧
      Scanner.Shows ops₁ lower upper result := by
  have hinv : c.Inv options ops := by
    clear hreturned
    induction h with
    | refl =>
      exact ⟨.start io hsize hplain, fun i call hi => (by cases hi),
        fun _ _ _ _ hp => (by cases hp), fun _ _ _ hp => (by cases hp)⟩
    | snoc _ hs hstep ih => exact ih.step hplain hs hstep
  exact hinv.returned _ _ _ hreturned

/-- Whether a step stores what it is asked to. -/
def isStored (io : ManifestIO M) (c : Scanner E M Unit) (a : ScanStep Unit) : Bool :=
  a.toOp.all (fun op => decide op.Storable) &&
    (c.step io a).all fun c' => c'.machine.store.smallBelow

/-- Steps that have been checked are a run. -/
theorem exists_run (io : ManifestIO M) (options : LsmStorageOptions) {ops : List (ScanStep Unit)}
    {q : Scanner E M Unit → Bool}
    (h : (Steps.exec (Scanner.step io) (isStored io) ⟨.start io options, .idle⟩ ops).any q =
      true) : ∃ c, ScanRun io options (Scanner.Stores io) ops c ∧ q c = true := by
  obtain ⟨c, hrun, hc⟩ := Steps.of_exec (P := fun c a => isStored io c a = true) (fun _ _ h => h) h
  refine ⟨c, ?_, hc⟩
  have hstep : ∀ (c : Scanner E M Unit) a c', c.machine.store.Bounded → c.step io a = some c' →
      c'.machine.store.Bounded := by
    intro c a c' hb hstep
    cases a with
    | op op =>
      obtain ⟨machine, hmachine, rfl⟩ := Option.map_eq_some_iff.mp hstep
      exact Machine.step_bounded hb hmachine
    | write key value =>
      cases hstep
      exact hb.write key value
    | load lower upper =>
      simp only [Scanner.step] at hstep
      split at hstep <;> cases hstep
      exact hb
    | copy =>
      simp only [Scanner.step] at hstep
      split at hstep
      · obtain ⟨m, -, rfl⟩ := Option.map_eq_some_iff.mp hstep
        exact hb
      · cases hstep
    | finish =>
      simp only [Scanner.step] at hstep
      split at hstep
      · split_ifs at hstep
        cases hstep
        exact hb
      · cases hstep
  refine hrun.imp (I := fun c => c.machine.store.Bounded) (openFresh_bounded io options)
    (fun c a c' hb _ => hstep c a c' hb) fun c a hb hok => ⟨fun op hop => ?_, fun c' hc' => ?_⟩
  · simp only [isStored, hop, Option.all_some, Bool.and_eq_true, decide_eq_true_eq] at hok
    exact hok.1
  · simp only [isStored, hc', Option.all_some, Bool.and_eq_true] at hok
    exact (hstep c a c' hb hc').small hok.2

/-- The active memtable is frozen, and its key written again, between the load and the copy. -/
def scanAcrossFreeze : List (ScanStep Unit) :=
  [.write [97] [49], .load .unbounded .unbounded, .op .freeze, .write [97] [50], .copy,
    .write [98] [51], .finish]

/-- Whether the scan has returned. -/
def hasReturned (c : Scanner E M Unit) : Bool :=
  match c.phase with
  | .returned _ _ _ => true
  | _ => false

theorem snapshot_scanAcrossFreeze :
    ∃ (c : Scanner .lib (List ManifestRecord) Unit) (lower upper : Bound)
      (result : Except Error (ScanIterator .lib)),
      ScanRun .list {} (Scanner.Stores .list) scanAcrossFreeze c ∧
      c.phase = .returned lower upper result ∧
      ∃ ops₁ ops₂, scanAcrossFreeze = ops₁ ++ ops₂ ∧ .load lower upper ∈ ops₁ ∧ .finish ∈ ops₂ ∧
        Scanner.Shows ops₁ lower upper result := by
  obtain ⟨c, hrun, hc⟩ : ∃ c : Scanner .lib (List ManifestRecord) Unit,
      ScanRun .list {} (Scanner.Stores .list) scanAcrossFreeze c ∧ hasReturned c = true :=
    exists_run .list {} (by decide +kernel)
  rcases hphase : c.phase with _ | _ | ⟨lower, upper, result⟩
  · rw [hasReturned, hphase] at hc
    cases hc
  · rw [hasReturned, hphase] at hc
    cases hc
  · exact ⟨c, lower, upper, result, hrun, hphase, snapshot (by decide) (by trivial) hrun hphase⟩

end ScanRun

/-! ## A value that the tables cannot store -/

/-- A store whose memtable with one value has been frozen. -/
def frozenStore (value : Bytes) : LsmStorageInner (List ManifestRecord) :=
  ((openFresh .list Disk.empty {}).write .lib [97] value).forceFreezeMemtable .list

/-- The flush of a value whose length has no low bits stores the empty value. -/
theorem flush_frozenStore {value : Bytes} (hlen : value.length = 65536) :
    ∃ t : SsTable, t.Holds .lib [([97], [])] ∧
    ((frozenStore value).forceFlushNextImmMemtable .lib .list).2.state =
      ⟨MemTable.create 1, [], [0], [(1, [])], Function.update (fun _ => none) 0 (some t)⟩ := by
  have htr : truncate value = [] := by
    rw [truncate, hlen]
    rfl
  have hst : Storable ([97], truncate value) := by
    rw [htr]
    decide
  have hholds := SsTableBuilder.add_holds_truncate
    (SsTableBuilder.create_holds .lib (show 4096 ≤ 65536 by decide) .none) hst
  obtain ⟨t, hopen, ht, -, -⟩ := SsTable.open_fileBytes hholds (List.pairwise_singleton _ _)
    (List.cons_ne_nil _ []) 0 (by rw [length_fileBytes_single, hlen]; decide)
  rw [htr] at ht
  refine ⟨t, ht, ?_⟩
  obtain ⟨m, hm⟩ : ∃ m, m = (openFresh .list Disk.empty {} :
    LsmStorageInner (List ManifestRecord)).state.memtable.put .lib [97] value := ⟨_, rfl⟩
  have himm : (frozenStore value).state.imm_memtables = [] ++ [m] := by
    rw [hm]
    rfl
  have hopen' : SsTable.open .lib m.id ((m.flush .lib (SsTableBuilder.create
      (frozenStore value).options.block_size (frozenStore value).options.compression)).fileBytes .lib) = .ok t := by
    rw [hm]
    exact hopen
  have hid : m.id = 0 := by
    rw [hm]
    rfl
  rw [flush_of_imm_concat .lib .list himm, build, hopen', Outcome.bind_ok, addRecord_state, addFlushed,
    hid]
  rfl

/-- The last write to a key, when no later operation writes to it. -/
theorem lastWrite_cons {op : Op τ} {ops : List (Op τ)} {k v : Bytes} (h : op.written k = some v)
    (hrest : ∀ op ∈ ops, op.written k = none) : lastWrite (op :: ops) k = v := by
  have hnone : ops.reverse.findSome? (Op.written k) = none :=
    List.findSome?_eq_none_iff.mpr fun op hop => hrest op (List.mem_reverse.mp hop)
  rw [lastWrite, List.reverse_cons, List.findSome?_append, hnone, Option.none_or,
    List.findSome?_cons, h]
  rfl

/-- A scan behind the flush of the long value does not show it. -/
theorem ScanRun.no_snapshot_long_value :
    ¬ ∀ (ops : List (ScanStep Unit)) (c : Scanner .lib (List ManifestRecord) Unit)
      (lower upper : Bound) (result : Except Error (ScanIterator .lib)),
      ScanRun .list {} (fun _ a => ∀ op e, a.toOp = some op → op.entry = some e → e.1 ≠ []) ops c →
      c.phase = .returned lower upper result →
      ∃ ops₁ ops₂, ops = ops₁ ++ ops₂ ∧ .load lower upper ∈ ops₁ ∧ .finish ∈ ops₂ ∧
        Scanner.Shows ops₁ lower upper result := by
  intro h
  obtain ⟨value, hlen⟩ : ∃ value : Bytes, value.length = 65536 :=
    ⟨List.replicate 65536 0, List.length_replicate⟩
  obtain ⟨t, ht, hstate⟩ := flush_frozenStore hlen
  obtain ⟨s, hs⟩ : ∃ s, s = ((frozenStore value).forceFlushNextImmMemtable .lib .list).2 := ⟨_, rfl⟩
  rw [← hs] at hstate
  have himm : s.state.imm_memtables = [] := by rw [hstate]
  obtain ⟨c, hrun, hphase⟩ : ∃ c : Scanner .lib (List ManifestRecord) Unit,
      ScanRun .list {} (fun _ a => ∀ op e, a.toOp = some op → op.entry = some e → e.1 ≠ [])
        [.write [97] value, .op .freeze, .op .flush, .load .unbounded .unbounded, .copy, .finish]
        c ∧
      c.phase = .returned .unbounded .unbounded (s.scan .lib .unbounded .unbounded) := by
    let machine : Machine (List ManifestRecord) Unit := ⟨s, fun _ => none⟩
    let c₁ : Scanner .lib (List ManifestRecord) Unit :=
      ⟨⟨(openFresh .list Disk.empty {}).write .lib [97] value, fun _ => none⟩, .idle⟩
    let c₂ : Scanner .lib (List ManifestRecord) Unit := ⟨⟨frozenStore value, fun _ => none⟩, .idle⟩
    let c₃ : Scanner .lib (List ManifestRecord) Unit := ⟨machine, .idle⟩
    let c₄ : Scanner .lib (List ManifestRecord) Unit :=
      ⟨machine, .copying .unbounded .unbounded s.state []⟩
    let c₅ : Scanner .lib (List ManifestRecord) Unit :=
      ⟨machine, .copying .unbounded .unbounded s.state
        [s.state.memtable.scan .unbounded .unbounded]⟩
    let c₆ : Scanner .lib (List ManifestRecord) Unit :=
      ⟨machine, .returned .unbounded .unbounded (s.scan .lib .unbounded .unbounded)⟩
    have h₁ : Scanner.step .list ⟨.start .list {}, .idle⟩ (.write [97] value) = some c₁ := rfl
    have h₂ : c₁.step .list (.op .freeze) = some c₂ := rfl
    have h₃ : c₂.step .list (.op .flush) = some c₃ := by
      change some (⟨⟨((frozenStore value).forceFlushNextImmMemtable .lib .list).2, fun _ => none⟩, .idle⟩ :
        Scanner .lib (List ManifestRecord) Unit) = some c₃
      rw [← hs]
    have h₄ : c₃.step .list (.load .unbounded .unbounded) = some c₄ := rfl
    have h₅ : c₄.step .list .copy = some c₅ := rfl
    have h₆ : c₅.step .list .finish = some c₆ := by
      have hmem : s.state.memtables = [s.state.memtable] := by
        rw [LsmStorageState.memtables, himm]
      simp only [Scanner.step, c₅, c₆, hmem, List.length_singleton, if_true,
        LsmStorageInner.scan_eq_scanFrom, List.map_cons, List.map_nil]
    refine ⟨c₆, ((((((Steps.refl).snoc ?_ h₁).snoc ?_ h₂).snoc ?_ h₃).snoc ?_ h₄).snoc ?_ h₅).snoc ?_
      h₆, rfl⟩
    all_goals
      rintro op e ⟨⟩ ⟨⟩
      try exact List.cons_ne_nil _ _
  obtain ⟨ops₁, ops₂, hops, hload, -, it, l, hit, hy, -, hmem⟩ := h _ c _ _ _ hrun hphase
  have hcontents : t.contents .lib = [([97], [])] := ht.contents_eq
  have htable : (Function.update (fun _ => none) 0 (some t) : ℕ → Option SsTable) 0 = some t := by
    rw [Function.update_self]
  have hread : s.state.Readable .lib := by
    rw [hstate]
    constructor
    · intro m hm
      obtain rfl := List.mem_singleton.mp hm
      exact List.Pairwise.nil
    · intro id hid
      obtain rfl : id = 0 := by simpa [LsmStorageState.tableIds] using hid
      exact ⟨t, htable, ht.good⟩
    · intro level hlevel
      obtain rfl := List.mem_singleton.mp hlevel
      exact List.Pairwise.nil
  obtain ⟨it', hit', l', hy', -, hmem'⟩ := scan_spec hread .unbounded .unbounded
  rw [hit'] at hit
  cases hit
  obtain rfl := hy'.unique hy
  have hlast : lastWrite (ops₁.filterMap ScanStep.toOp) [97] = value := by
    obtain ⟨a, ops₁, rfl⟩ := List.exists_cons_of_ne_nil (List.ne_nil_of_mem hload)
    rw [List.cons_append, List.cons.injEq] at hops
    obtain ⟨rfl, hops⟩ := hops
    have hwritten : (Op.put [97] value : Op Unit).written [97] = some value := by
      rw [Op.written, if_pos rfl]
    refine lastWrite_cons hwritten fun op hop => ?_
    obtain ⟨a, ha, haop⟩ := List.mem_filterMap.mp hop
    have ha : a ∈ ops₁ ++ ops₂ := List.mem_append_left _ ha
    rw [← hops] at ha
    simp only [List.mem_cons, List.not_mem_nil, or_false] at ha
    rcases ha with rfl | rfl | rfl | rfl | rfl <;> cases haop <;> rfl
  have hview : s.state.view .lib [97] = [] := by
    rw [hstate]
    simp [LsmStorageState.view, LsmStorageState.sources, LsmStorageState.tableSources, firstValue,
      LsmStorageState.memtables, LsmStorageState.tables, hcontents, MemTable.create]
    rfl
  have hlong : value ≠ [] := by
    rw [← List.length_pos_iff, hlen]
    decide
  have hin := (hmem [97] value).mpr ⟨rfl, rfl, hlast, hlong⟩
  have hempty := ((hmem' [97] value).mp hin).2.2.1
  rw [hview] at hempty
  exact hlong hempty.symm

end MiniLsm
