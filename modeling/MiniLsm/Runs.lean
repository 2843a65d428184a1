import MiniLsm.Tasks

/-!
# Runs

A machine is a store with the compactions that its threads have begun. Its steps are the operations
of the store and the three steps of a compaction: the choice of the task, the writing of the new
tables, and the change of the state. Any number of threads may be within a compaction at a time; a
call is current as long as no other one has changed the state since its task was chosen.

A run starts with a store on an empty directory. `Run.inv` shows that the store keeps its invariant
in every run in which the calls that change the state are current, for each of the controllers.
-/

namespace MiniLsm

open LsmStorageInner LsmStorageInner.Applied

/-- A compaction that a thread has begun. -/
structure Call where
  task : CompactionTask
  /-- The tables that it has written, once it has. -/
  sstables : Option (List SsTable)
  /-- No other compaction has changed the state since the task was chosen. -/
  current : Bool

/-- A store, and the compactions that the threads have begun. -/
structure Machine (M τ : Type) where
  store : LsmStorageInner M
  calls : τ → Option Call

/-- The steps of a machine. -/
inductive Op (τ : Type) where
  /-- `LsmStorageInner::put` -/
  | put (key value : Bytes)
  /-- `LsmStorageInner::del` -/
  | del (key : Bytes)
  /-- `LsmStorageInner::force_freeze_memtable` -/
  | freeze
  /-- `LsmStorageInner::force_flush_next_imm_memtable` -/
  | flush
  /-- The snapshot and the task of `LsmStorageInner::trigger_compaction` -/
  | trigger (thread : τ)
  /-- The snapshot and the task of `LsmStorageInner::force_full_compaction` -/
  | full (thread : τ)
  /-- `LsmStorageInner::compact` on the task of the thread -/
  | compact (thread : τ)
  /-- The change of the state at the end of a compaction -/
  | apply (thread : τ)

/-- The entry that a step writes fits the formats. -/
def Op.Storable {τ : Type} : Op τ → Prop
  | .put key value => MiniLsm.Storable (key, value)
  | .del key => MiniLsm.Storable (key, [])
  | _ => True

namespace Machine

variable {M τ : Type} [DecidableEq τ]

/-- A store on an empty directory. -/
def start (io : ManifestIO M) (options : LsmStorageOptions) : Machine M τ :=
  ⟨openFresh io Disk.empty options, fun _ => none⟩

/-- A thread begins a compaction, if there is a task and the thread is not within one. -/
def begin (c : Machine M τ) (i : τ) (task : Option CompactionTask) : Option (Machine M τ) :=
  match c.calls i, task with
  | none, some task =>
    some { c with calls := Function.update c.calls i (some ⟨task, none, true⟩) }
  | _, _ => none

/-- The machine after the thread has written the tables of its task. A call that throws ends. -/
def compactStep (E : Extern) (c : Machine M τ) (i : τ) (call : Call) : Machine M τ where
  store := (c.store.compact E call.task).2
  calls := Function.update c.calls i ((c.store.compact E call.task).1.toOption.map fun ts =>
    { call with sstables := some ts })

/-- The machine after the thread has changed the state. The other calls are not current any more. -/
def applyStep (io : ManifestIO M) (c : Machine M τ) (i : τ) (call : Call) (ts : List SsTable) :
    Machine M τ where
  store := c.store.applyResult io call.task ts
  calls := fun j => if j = i then none else (c.calls j).map fun call => { call with current := false }

/-- A step of the machine, where it can be taken. -/
def step (E : Extern) (io : ManifestIO M) (c : Machine M τ) : Op τ → Option (Machine M τ)
  | .put key value => some { c with store := c.store.put E io key value }
  | .del key => some { c with store := c.store.del E io key }
  | .freeze =>
    if c.store.state.memtable.isEmpty then none
    else some { c with store := c.store.forceFreezeMemtable io }
  | .flush => some { c with store := (c.store.forceFlushNextImmMemtable E io).2 }
  | .trigger i => c.begin i (c.store.generateTask E)
  | .full i => c.begin i (c.store.fullTask.toOption.map CompactionTask.forceFull)
  | .compact i =>
    match c.calls i with
    | some call => if call.sstables.isNone then some (c.compactStep E i call) else none
    | none => none
  | .apply i =>
    match c.calls i with
    | some call => call.sstables.map (c.applyStep io i call)
    | none => none

/-- The runs of a store on an empty directory, in which every step has the property `P`, writes
storable entries, and leaves table files below 2^32 bytes. -/
inductive Run (E : Extern) (io : ManifestIO M) (options : LsmStorageOptions)
    (P : Machine M τ → Op τ → Prop) : List (Op τ) → Machine M τ → Prop
  | start : Run E io options P [] (start io options)
  | step {ops : List (Op τ)} {c c' : Machine M τ} {op : Op τ} : Run E io options P ops c →
      P c op → op.Storable → c.step E io op = some c' → c'.store.disk.Small →
      Run E io options P (ops ++ [op]) c'

/-- A compaction changes the state only while it is current. -/
def Serial (c : Machine M τ) (op : Op τ) : Prop :=
  ∀ i call, op = .apply i → c.calls i = some call → call.current = true

/-- A thread that begins was idle, and has the task now. -/
theorem begin_eq_some {c c' : Machine M τ} {i : τ} {task : Option CompactionTask}
    (h : c.begin i task = some c') : c.calls i = none ∧ ∃ t, task = some t ∧
      c' = { c with calls := Function.update c.calls i (some ⟨t, none, true⟩) } := by
  rcases hi : c.calls i with _ | call
  · rcases task with _ | t
    · simp [begin, hi] at h
    · simp only [begin, hi, Option.some.injEq] at h
      exact ⟨rfl, t, rfl, h.symm⟩
  · simp [begin, hi] at h

/-- A thread writes its tables once. -/
theorem step_compact {E : Extern} {io : ManifestIO M} {c c' : Machine M τ} {i : τ}
    (h : c.step E io (.compact i) = some c') : ∃ call, c.calls i = some call ∧
      call.sstables = none ∧ c' = c.compactStep E i call := by
  rcases hi : c.calls i with _ | call
  · simp [step, hi] at h
  · simp only [step, hi] at h
    split_ifs at h with hn
    exact ⟨call, rfl, Option.isNone_iff_eq_none.mp hn, (Option.some.inj h).symm⟩

/-- A thread changes the state with the tables that it has written. -/
theorem step_apply {E : Extern} {io : ManifestIO M} {c c' : Machine M τ} {i : τ}
    (h : c.step E io (.apply i) = some c') : ∃ call ts, c.calls i = some call ∧
      call.sstables = some ts ∧ c' = c.applyStep io i call ts := by
  rcases hi : c.calls i with _ | call
  · simp [step, hi] at h
  · simp only [step, hi] at h
    obtain ⟨ts, hts, hc⟩ := Option.map_eq_some_iff.mp h
    exact ⟨call, ts, rfl, hts, hc.symm⟩

/-! ### Compactions as calls -/

/-- A compaction whose task is chosen and that writes its tables goes on with its last step. -/
theorem compaction_steps {E : Extern} (io : ManifestIO M) {c : Machine M τ} {i : τ}
    (hi : c.calls i = none) {task : CompactionTask} {ts : List SsTable} {s : LsmStorageInner M}
    (h : c.store.compact E task = (.ok ts, s)) :
    ∃ c₁ c₂ c', c.begin i (some task) = some c₁ ∧ c₁.step E io (.compact i) = some c₂ ∧
      c₂.step E io (.apply i) = some c' ∧ c'.store = s.applyResult io task ts := by
  refine ⟨⟨c.store, Function.update c.calls i (some ⟨task, none, true⟩)⟩,
    ⟨s, Function.update c.calls i (some ⟨task, some ts, true⟩)⟩,
    applyStep io ⟨s, Function.update c.calls i (some ⟨task, some ts, true⟩)⟩ i
      ⟨task, some ts, true⟩ ts, ?_, ?_, ?_, rfl⟩
  · simp only [begin, hi]
  · simp [step, compactStep, h, Except.toOption]
  · simp [step]

/-- `force_full_compaction` takes the three steps of a full compaction. -/
theorem forceFullCompaction_steps {E : Extern} {io : ManifestIO M} {c : Machine M τ} {i : τ}
    (hi : c.calls i = none) {s' : LsmStorageInner M}
    (h : c.store.forceFullCompaction E io = (.ok (), s')) :
    ∃ c₁ c₂ c', c.step E io (.full i) = some c₁ ∧ c₁.step E io (.compact i) = some c₂ ∧
      c₂.step E io (.apply i) = some c' ∧ c'.store = s' := by
  unfold forceFullCompaction at h
  rcases htask : c.store.fullTask with e | t
  · rw [htask] at h
    cases h
  rw [htask, Outcome.bind_ok] at h
  rcases hc : c.store.compact E (.forceFull t) with ⟨e | ts, s⟩
  · rw [hc] at h
    cases h
  rw [hc, Outcome.bind_ok] at h
  obtain ⟨c₁, c₂, c', h₁, h₂, h₃, hs⟩ := compaction_steps io hi hc
  refine ⟨c₁, c₂, c', ?_, h₂, h₃, hs.trans (congrArg Prod.snd h)⟩
  rw [step, htask]
  exact h₁

/-- A `trigger_compaction` that compacts takes the three steps of a compaction. -/
theorem triggerCompaction_steps {E : Extern} {io : ManifestIO M} {c : Machine M τ} {i : τ}
    (hi : c.calls i = none) {s' : LsmStorageInner M}
    (h : c.store.triggerCompaction E io = (.ok true, s')) :
    ∃ c₁ c₂ c', c.step E io (.trigger i) = some c₁ ∧ c₁.step E io (.compact i) = some c₂ ∧
      c₂.step E io (.apply i) = some c' ∧ c'.store = s' := by
  unfold triggerCompaction at h
  rcases hgen : c.store.generateTask E with _ | task
  · rw [hgen] at h
    cases h
  rw [hgen] at h
  dsimp only at h
  rcases hc : c.store.compact E task with ⟨e | ts, s⟩
  · rw [hc] at h
    cases h
  rw [hc, Outcome.bind_ok] at h
  rcases ha : s.applyTrigger io task ts with ⟨e | u, s₁⟩
  · rw [ha] at h
    cases h
  rw [ha, Outcome.bind_ok] at h
  obtain ⟨c₁, c₂, c', h₁, h₂, h₃, hs⟩ := compaction_steps io hi hc
  refine ⟨c₁, c₂, c', ?_, h₂, h₃, hs.trans ?_⟩
  · rw [step, hgen]
    exact h₁
  · have happly : s.applyResult io task ts = (s.applyTrigger io task ts).2 := by
      -- No controller asks for a full compaction.
      cases task with
      | forceFull t =>
        rcases ho : c.store.options.compaction_options with o | o | o | _ <;>
          simp [generateTask, CompactionController.generateCompactionTask, ho] at hgen
      | simple t => rfl
      | leveled t => rfl
      | tiered t => rfl
    rw [happly, ha]
    exact congrArg Prod.snd h

end Machine

/-! ## The invariant of a machine -/

/-- What holds of a current call: its task fits, and the tables that it has written hold the merge
of those of the task. -/
structure Call.Ok {M : Type} (E : Extern) (s : LsmStorageInner M) (call : Call) : Prop where
  fits : call.task.Fits E s.options.compaction_options s.state
  written : ∀ ts, call.sstables = some ts → Pending E s ts ∧
    (ts.map (SsTable.contents E)).flatten =
      keptEntries call.task.compactToBottomLevel (s.state.merged E call.task.groups)

namespace Call.Ok

variable {M : Type} {E : Extern} {s s' : LsmStorageInner M} {call : Call}

/-- Steps that keep the tables keep what a call relies on. -/
theorem of_sameTables (hst : Inv.SameTables s s') (hmem : MemtablesFrom s s') (h : call.Ok E s) :
    call.Ok E s' := by
  refine ⟨?_, fun ts hts => ?_⟩
  · rw [hst.options]
    exact h.fits.of_sameTables hst
  · obtain ⟨hp, hc⟩ := h.written ts hts
    refine ⟨hp.of_sameTables hst hmem, ?_⟩
    have : s'.state.run E = s.state.run E := funext fun ids => hst.run ids
    rw [LsmStorageState.merged, this]
    exact hc

/-- A flush adds a table that no call has to do with. -/
theorem flushed {m : MemTable} {t : SsTable} (hinv : LsmStorageInner.Inv E s) (hsh : s.Shape)
    (hfl : Flushed E s s' m t) (h : call.Ok E s) : call.Ok E s' := by
  refine ⟨?_, fun ts hts => ?_⟩
  · rw [hfl.options]
    exact h.fits.flushed hinv hsh hfl
  · obtain ⟨hp, hc⟩ := h.written ts hts
    refine ⟨hp.flushed hinv hfl, ?_⟩
    rw [LsmStorageState.merged, List.map_congr_left fun g hg => hfl.run_of_mem hinv fun id hid =>
      h.fits.mem_tableIds (List.mem_flatten.mpr ⟨g, hg, hid⟩)]
    exact hc

/-- The tables that a current call writes. -/
theorem compact (hinv : LsmStorageInner.Inv E s) (h : call.Ok E s)
    (hsmall : (s.compact E call.task).2.disk.Small) :
    ∃ ts, (s.compact E call.task).1 = .ok ts ∧
      Call.Ok E (s.compact E call.task).2 { call with sstables := some ts } := by
  obtain ⟨ts, hts, hb⟩ := compact_spec (h.fits.inOrder hinv) hinv.block_size hsmall
  refine ⟨ts, hts, ?_, fun ts' hts' => ?_⟩
  · exact (hb.wrote.options ▸ h.fits.of_sameTables hb.wrote.sameTables)
  · cases hts'
    have hsorted : Assoc.Sorted (s.state.merged E call.task.groups) := Assoc.sorted_overlays _
    refine ⟨hb.pending hinv (hsorted.sublist (sublist_keptEntries _ _)), ?_⟩
    rw [hb.contents, hb.wrote.state]

end Call.Ok

namespace Machine

variable {M τ : Type} {E : Extern} {io : ManifestIO M}

/-- The invariant of a machine. -/
structure Inv (E : Extern) (c : Machine M τ) : Prop where
  store : LsmStorageInner.Inv E c.store
  shape : c.store.Shape
  calls : ∀ i call, c.calls i = some call → call.current = true → call.Ok E c.store

/-- A step that keeps the tables and the calls. -/
theorem Inv.of_sameTables {c : Machine M τ} {s' : LsmStorageInner M} (h : c.Inv E)
    (hinv : LsmStorageInner.Inv E s') (hst : Inv.SameTables c.store s')
    (hmem : MemtablesFrom c.store s') : Inv E { c with store := s' } := by
  refine ⟨hinv, h.shape.of_sameTables hst fun m' hm' => ?_, fun i call hi hcur => ?_⟩
  · rcases hmem m' hm' with hle | hex
    · have := h.store.next_pos
      exact .inl (by omega)
    · exact .inr hex
  · exact (h.calls i call hi hcur).of_sameTables hst hmem

/-- A write keeps the invariant. -/
theorem Inv.put {c : Machine M τ} (h : c.Inv E) {key value : Bytes}
    (hs : MiniLsm.Storable (key, value)) :
    Inv E { c with store := c.store.put E io key value } := by
  have hw := h.of_sameTables (h.store.write hs) (Inv.sameTables_write _ _ _)
    (memtablesFrom_write _ _ _)
  rcases put_eq E io c.store key value with heq | heq
  · rw [heq]
    exact hw
  · rw [heq]
    exact hw.of_sameTables (hw.store.freeze io (Assoc.insert_ne_nil _ _ _))
      (Inv.sameTables_freeze io _) (memtablesFrom_freeze io _)

/-- So does a flush. -/
theorem Inv.flush {c : Machine M τ} (h : c.Inv E)
    (hsmall : (c.store.forceFlushNextImmMemtable E io).2.disk.Small) :
    Inv E { c with store := (c.store.forceFlushNextImmMemtable E io).2 } := by
  by_cases himm : c.store.state.imm_memtables = []
  · rw [flush_of_imm_nil E io himm]
    exact h
  · obtain ⟨-, m, t, hfl⟩ := flush_spec h.store himm hsmall
    exact ⟨hfl.inv h.store, h.shape.flushed h.store hfl, fun i call hi hcur =>
      (h.calls i call hi hcur).flushed h.store h.shape hfl⟩

variable [DecidableEq τ]

/-- So does the choice of a task that fits the state. -/
theorem Inv.begin {c c' : Machine M τ} (h : c.Inv E) {i : τ} {task : Option CompactionTask}
    (hf : ∀ t, task = some t → t.Fits E c.store.options.compaction_options c.store.state)
    (hb : c.begin i task = some c') : c'.Inv E := by
  obtain ⟨-, t, rfl, rfl⟩ := begin_eq_some hb
  refine ⟨h.store, h.shape, fun j call hj hcur => ?_⟩
  dsimp only at hj
  by_cases hij : j = i
  · subst hij
    rw [Function.update_self] at hj
    cases hj
    exact ⟨hf t rfl, by simp⟩
  · rw [Function.update_of_ne hij] at hj
    exact h.calls j call hj hcur

/-- So does the writing of the tables of a task. -/
theorem Inv.compactStep {c : Machine M τ} (h : c.Inv E) {i : τ} {call : Call}
    (hi : c.calls i = some call) (hsmall : (c.compactStep E i call).store.disk.Small) :
    (c.compactStep E i call).Inv E := by
  have hw := compact_wrote (E := E) c.store call.task
  have hs := h.of_sameTables (hw.inv h.store) hw.sameTables hw.memtablesFrom
  refine ⟨hs.store, hs.shape, fun j call' hj hcur => ?_⟩
  by_cases hij : j = i
  · subst hij
    simp only [Machine.compactStep, Function.update_self, Option.map_eq_some_iff] at hj
    obtain ⟨ts, hts, rfl⟩ := hj
    obtain ⟨ts', hts', hok⟩ := (h.calls j call hi hcur).compact h.store hsmall
    rw [hts'] at hts
    cases hts
    exact hok
  · simp only [Machine.compactStep, Function.update_of_ne hij] at hj
    exact hs.calls j call' hj hcur

/-- And so does the last step of a compaction that is current. -/
theorem Inv.applyStep {c : Machine M τ} (h : c.Inv E) {i : τ} {call : Call} {ts : List SsTable}
    (hi : c.calls i = some call) (hcur : call.current = true) (hts : call.sstables = some ts) :
    (c.applyStep io i call ts).Inv E := by
  have hok := h.calls i call hi hcur
  obtain ⟨hp, hc⟩ := hok.written ts hts
  obtain ⟨-, hinv, hsh, -⟩ := applyResult_spec io h.store h.shape hp hok.fits hc
  refine ⟨hinv, hsh, fun j call' hj hcur' => ?_⟩
  simp only [Machine.applyStep] at hj
  split_ifs at hj
  obtain ⟨call'', -, rfl⟩ := Option.map_eq_some_iff.mp hj
  cases hcur'

/-- What a step may have to meet for the store to keep its invariant. -/
structure Admits (E : Extern) (c : Machine M τ) (op : Op τ) : Prop where
  serial : c.Serial op
  covered : ∀ i t, op = .trigger i → c.store.generateTask E = some (.tiered t) →
    c.store.Covered E t

/-- A step keeps the invariant. -/
theorem Inv.step {c c' : Machine M τ} {op : Op τ} (h : c.Inv E)
    (hv : c.store.options.compaction_options.Valid) (hadm : c.Admits E op) (hs : op.Storable)
    (hstep : c.step E io op = some c') (hsmall : c'.store.disk.Small) : c'.Inv E := by
  cases op with
  | put key value =>
    cases hstep
    exact h.put hs
  | del key =>
    cases hstep
    exact h.put hs
  | freeze =>
    simp only [Machine.step] at hstep
    split_ifs at hstep with hemp
    cases hstep
    exact h.of_sameTables (h.store.freeze io (by simpa [MemTable.isEmpty] using hemp))
      (Inv.sameTables_freeze io _) (memtablesFrom_freeze io _)
  | flush =>
    cases hstep
    exact h.flush hsmall
  | trigger i =>
    refine h.begin (fun t ht => ?_) hstep
    exact generateTask_fits h.shape hv (fun t' ht' => hadm.covered i t' rfl (ht' ▸ ht)) ht
  | full i =>
    refine h.begin (fun t ht => ?_) hstep
    obtain ⟨t', ht', rfl⟩ := Option.map_eq_some_iff.mp ht
    rcases hfull : c.store.fullTask with e | t''
    · rw [hfull] at ht'
      cases ht'
    · rw [hfull] at ht'
      cases ht'
      exact fullTask_fits h.shape hfull
  | compact i =>
    obtain ⟨call, hi, -, rfl⟩ := step_compact hstep
    exact h.compactStep hi hsmall
  | apply i =>
    obtain ⟨call, ts, hi, hts, rfl⟩ := step_apply hstep
    exact h.applyStep hi (hadm.serial i call rfl hi) hts

/-- The options of a store do not change. -/
theorem step_options {c c' : Machine M τ} {op : Op τ} (hstep : c.step E io op = some c') :
    c'.store.options = c.store.options := by
  cases op with
  | put key value =>
    cases hstep
    exact put_options E io c.store key value
  | del key =>
    cases hstep
    exact put_options E io c.store key []
  | freeze =>
    simp only [Machine.step] at hstep
    split_ifs at hstep
    cases hstep
    exact forceFreezeMemtable_options io c.store
  | flush =>
    cases hstep
    exact flush_options E io c.store
  | trigger i =>
    obtain ⟨-, t, -, rfl⟩ := begin_eq_some hstep
    rfl
  | full i =>
    obtain ⟨-, t, -, rfl⟩ := begin_eq_some hstep
    rfl
  | compact i =>
    obtain ⟨call, -, -, rfl⟩ := step_compact hstep
    exact (compact_wrote c.store call.task).options
  | apply i =>
    obtain ⟨call, ts, -, -, rfl⟩ := step_apply hstep
    exact (applyResult_frame io c.store call.task ts).1

variable {options : LsmStorageOptions} {P : Machine M τ → Op τ → Prop}

/-- The store keeps its invariant in every run. -/
theorem Run.inv {ops : List (Op τ)} {c : Machine M τ} (hsize : options.block_size ≤ 65536)
    (hv : options.compaction_options.Valid)
    (hP : ∀ c op, c.store.options = options → P c op → c.Admits E op)
    (h : Run E io options P ops c) : c.Inv E ∧ c.store.options = options := by
  induction h with
  | start =>
    exact ⟨⟨openFresh_inv io Disk.empty hsize, openFresh_shape io Disk.empty hv,
      by simp [Machine.start]⟩,
      openFresh_options io Disk.empty options⟩
  | step _ hop hs hstep hsmall ih =>
    exact ⟨ih.1.step (by rw [ih.2]; exact hv) (hP _ _ ih.2 hop) hs hstep hsmall,
      (step_options hstep).trans ih.2⟩

end Machine

end MiniLsm
