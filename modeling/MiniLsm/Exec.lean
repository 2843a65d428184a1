import MiniLsm.Runs
import MiniLsm.Libraries

/-!
# Executing runs

`exec` takes the steps of a run one after the other, and `check` also looks at what a run asks of
each step: that its entry is storable, and that the table files stay below 2^32 bytes. The directory
is a function of the identifier, so that the second is decided by way of the counter of
identifiers: there is no table file at or above it (`Bounded`).
-/

namespace MiniLsm

open LsmStorageInner

namespace LsmStorageInner

variable {M : Type} {E : Extern} {io : ManifestIO M} {s : LsmStorageInner M}

/-- The identifiers of the memtables and of the table files are below the counter. -/
structure Bounded (s : LsmStorageInner M) : Prop where
  memtables : ∀ m ∈ s.state.memtables, m.id < s.next_sst_id
  ssts : ∀ id ≥ s.next_sst_id, s.disk.ssts id = none

/-- The table files below the counter have fewer than 2^32 bytes. -/
def smallBelow (s : LsmStorageInner M) : Bool :=
  (List.range s.next_sst_id).all fun id => (s.disk.ssts id).all fun b => decide (b.length < 2^32)

/-- It is enough that the files below the counter are small. -/
theorem Bounded.small (h : s.Bounded) (hs : s.smallBelow = true) : s.disk.Small := by
  intro id b hb
  rcases lt_or_ge id s.next_sst_id with hlt | hge
  · have := List.all_eq_true.mp hs id (List.mem_range.mpr hlt)
    simpa [hb] using this
  · rw [h.ssts id hge] at hb
    cases hb

/-- A write touches no table file. -/
theorem Bounded.write (h : s.Bounded) (key value : Bytes) : (s.write E key value).Bounded := by
  refine ⟨fun m hm => ?_, h.ssts⟩
  rcases List.mem_cons.mp hm with rfl | hm
  · exact h.memtables s.state.memtable List.mem_cons_self
  · exact h.memtables m (List.mem_cons_of_mem _ hm)

/-- A freeze takes the next identifier, and no table file. -/
theorem Bounded.freeze (h : s.Bounded) : (s.forceFreezeMemtable io).Bounded := by
  constructor
  · intro m hm
    rw [forceFreezeMemtable_state] at hm
    rw [forceFreezeMemtable_next_sst_id]
    rcases List.mem_cons.mp hm with rfl | hm
    · simp
    · exact (h.memtables m hm).trans (Nat.lt_succ_self _)
  · intro id hid
    rw [forceFreezeMemtable_next_sst_id] at hid
    rw [forceFreezeMemtable_ssts]
    exact h.ssts id (by omega)

/-- A write that freezes the memtable keeps the files below the counter. -/
theorem Bounded.put (h : s.Bounded) (key value : Bytes) : (s.put E io key value).Bounded := by
  rcases put_eq E io s key value with heq | heq
  · rw [heq]
    exact h.write key value
  · rw [heq]
    exact (h.write key value).freeze

/-- A flush writes the file of an identifier that has been taken. -/
theorem Bounded.flush (h : s.Bounded) : (s.forceFlushNextImmMemtable E io).2.Bounded := by
  rcases List.eq_nil_or_concat' s.state.imm_memtables with himm | ⟨imm, m, himm⟩
  · rw [flush_of_imm_nil E io himm]
    exact h
  · have hm : m.id < s.next_sst_id := h.memtables m (List.mem_cons_of_mem _ (by simp [himm]))
    have hssts : ∀ buf, ∀ id ≥ s.next_sst_id,
        Function.update s.disk.ssts m.id (some buf) id = none := by
      intro buf id hid
      rw [Function.update_of_ne (by omega)]
      exact h.ssts id hid
    rw [flush_of_imm_concat E io himm, build]
    rcases SsTable.open E m.id _ with e | t
    · exact ⟨h.memtables, hssts _⟩
    · rw [Outcome.bind_ok]
      refine ⟨fun m' hm' => ?_, fun id hid => ?_⟩
      · rw [addRecord_state] at hm'
        rw [addRecord_next_sst_id]
        refine h.memtables m' ?_
        have hsub : ∀ b : Bool, (if b then { s.state with l0_sstables := m.id :: s.state.l0_sstables }
            else { s.state with levels := (m.id, [m.id]) :: s.state.levels }).memtables =
              s.state.memtables := by
          rintro (_ | _) <;> rfl
        rcases List.mem_cons.mp hm' with rfl | hm'
        · rw [← hsub (CompactionController.flushToL0 s.options.compaction_options)]
          exact List.mem_cons_self
        · rw [← hsub (CompactionController.flushToL0 s.options.compaction_options)]
          exact List.mem_cons_of_mem _ (List.mem_of_mem_dropLast hm')
      · rw [addRecord_next_sst_id] at hid
        rw [addRecord_ssts]
        exact hssts _ id hid

/-- A compaction takes an identifier for each file it writes. -/
theorem Bounded.wrote {s' : LsmStorageInner M} (h : s.Bounded) (hw : Wrote s s') : s'.Bounded := by
  refine ⟨fun m hm => ?_, fun id hid => ?_⟩
  · rw [hw.state] at hm
    exact (h.memtables m hm).trans_le hw.next_le
  · rw [hw.ssts_of_ge id hid]
    exact h.ssts id (hw.next_le.trans hid)

/-- The last step of a compaction removes files only. -/
theorem Bounded.applyResult (h : s.Bounded) (task : CompactionTask) (ts : List SsTable) :
    (s.applyResult io task ts).Bounded := by
  obtain ⟨-, hnext, hmem, hssts⟩ := applyResult_frame io s task ts
  refine ⟨?_, fun id hid => ?_⟩
  · rw [hmem, hnext]
    exact h.memtables
  · rw [hnext] at hid
    rcases hssts id with hnone | heq
    · exact hnone
    · rw [heq]
      exact h.ssts id hid

/-- A new store has no table files. -/
theorem openFresh_bounded (io : ManifestIO M) (options : LsmStorageOptions) :
    (openFresh io Disk.empty options).Bounded := by
  obtain ⟨m, hmems, hid, -⟩ := openFresh_memtables io Disk.empty options
  refine ⟨?_, fun id _ => ?_⟩
  · simp [hmems, hid, openFresh_next_sst_id]
  · rcases hw : options.enable_wal with _ | _ <;>
      simp [openFresh, hw, createWal, Disk.empty]

end LsmStorageInner

/-- Whether an entry fits the formats can be computed. -/
instance : DecidablePred Storable := fun e =>
  inferInstanceAs (Decidable (e.1 ≠ [] ∧ e.1.length ≤ 65535 ∧ e.2.length ≤ 65535))

/-- Whether the entry that a step writes fits the formats. -/
instance {τ : Type} : DecidablePred (@Op.Storable τ)
  | .put key value => inferInstanceAs (Decidable (MiniLsm.Storable (key, value)))
  | .del key => inferInstanceAs (Decidable (MiniLsm.Storable (key, [])))
  | .freeze => isTrue trivial
  | .flush => isTrue trivial
  | .trigger _ => isTrue trivial
  | .full _ => isTrue trivial
  | .compact _ => isTrue trivial
  | .apply _ => isTrue trivial

namespace Machine

variable {M τ : Type} [DecidableEq τ] {E : Extern} {io : ManifestIO M}

/-- Every step keeps the table files below the counter. -/
theorem step_bounded {c c' : Machine M τ} {op : Op τ} (h : c.store.Bounded)
    (hstep : c.step E io op = some c') : c'.store.Bounded := by
  cases op with
  | put key value =>
    cases hstep
    exact h.put key value
  | del key =>
    cases hstep
    exact h.put key []
  | freeze =>
    simp only [Machine.step] at hstep
    split_ifs at hstep
    cases hstep
    exact h.freeze
  | flush =>
    cases hstep
    exact h.flush
  | trigger i =>
    obtain ⟨-, t, -, rfl⟩ := begin_eq_some hstep
    exact h
  | full i =>
    obtain ⟨-, t, -, rfl⟩ := begin_eq_some hstep
    exact h
  | compact i =>
    obtain ⟨call, -, -, rfl⟩ := step_compact hstep
    exact h.wrote (compact_wrote c.store call.task)
  | apply i =>
    obtain ⟨call, ts, -, -, rfl⟩ := step_apply hstep
    exact h.applyResult call.task ts

/-- The machine after some steps, where they can be taken. -/
def exec (E : Extern) (io : ManifestIO M) (c : Machine M τ) : List (Op τ) → Option (Machine M τ)
  | [] => some c
  | op :: ops => (c.step E io op).bind fun c => c.exec E io ops

/-- The same, where each step also has the property `p` and meets what a run asks of it. -/
def check (E : Extern) (io : ManifestIO M) (p : Machine M τ → Op τ → Bool) (c : Machine M τ) :
    List (Op τ) → Option (Machine M τ)
  | [] => some c
  | op :: ops => (c.step E io op).bind fun c' =>
      if p c op && decide op.Storable && c'.store.smallBelow then c'.check E io p ops else none

/-- Steps after steps. -/
theorem exec_append (E : Extern) (io : ManifestIO M) (c : Machine M τ) (ops ops' : List (Op τ)) :
    c.exec E io (ops ++ ops') = (c.exec E io ops).bind fun c => c.exec E io ops' := by
  induction ops generalizing c with
  | nil => rfl
  | cons op ops ih =>
    simp only [List.cons_append, exec, Option.bind_assoc]
    exact congrArg _ (funext ih)

variable {options : LsmStorageOptions} {P : Machine M τ → Op τ → Prop}

/-- A run ends where its steps lead. -/
theorem Run.exec_eq {ops : List (Op τ)} {c : Machine M τ} (h : Run E io options P ops c) :
    (Machine.start io options).exec E io ops = some c := by
  induction h with
  | start => rfl
  | step _ _ _ hstep _ ih => simp [exec_append, ih, exec, hstep]

/-- The last step of a run. -/
theorem Run.of_concat {ops : List (Op τ)} {op : Op τ} {c' : Machine M τ}
    (h : Run E io options P (ops ++ [op]) c') :
    ∃ c, Run E io options P ops c ∧ P c op ∧ c.step E io op = some c' ∧ c'.store.disk.Small := by
  generalize hops : ops ++ [op] = l at h
  cases h with
  | start => simp at hops
  | step hrun hop _ hstep hsmall =>
    obtain ⟨rfl, hop'⟩ := List.append_inj' hops rfl
    cases hop'
    exact ⟨_, hrun, hop, hstep, hsmall⟩

/-- A run is determined by its steps. -/
theorem Run.unique {Q : Machine M τ → Op τ → Prop} {ops : List (Op τ)} {c c' : Machine M τ}
    (h : Run E io options P ops c) (h' : Run E io options Q ops c') : c = c' :=
  Option.some.inj (h.exec_eq.symm.trans h'.exec_eq)

/-- In every run the table files are below the counter. -/
theorem Run.bounded {ops : List (Op τ)} {c : Machine M τ} (h : Run E io options P ops c) :
    c.store.Bounded := by
  induction h with
  | start => exact openFresh_bounded io options
  | step _ _ _ hstep _ ih => exact step_bounded ih hstep

/-- A run goes on with steps that have been checked. -/
theorem Run.check {p : Machine M τ → Op τ → Bool} (hp : ∀ c op, p c op = true → P c op)
    {ops ops' : List (Op τ)} {c c' : Machine M τ} (h : Run E io options P ops c)
    (hc : c.check E io p ops' = some c') : Run E io options P (ops ++ ops') c' := by
  induction ops' generalizing ops c with
  | nil =>
    cases hc
    rwa [List.append_nil]
  | cons op ops' ih =>
    simp only [Machine.check, Option.bind_eq_some_iff] at hc
    obtain ⟨c₁, hstep, hc⟩ := hc
    split_ifs at hc with hok
    simp only [Bool.and_eq_true, decide_eq_true_eq] at hok
    have hrun := h.step (hp _ _ hok.1.1) hok.1.2 hstep ((step_bounded h.bounded hstep).small hok.2)
    rw [List.append_cons]
    exact ih hrun hc

/-- Steps that have been checked are a run, and its last machine is the one they lead to. -/
theorem exists_run {p : Machine M τ → Op τ → Bool} (q : Machine M τ → Bool) {ops : List (Op τ)}
    (hp : ∀ c op, p c op = true → P c op)
    (h : ((Machine.start io options).check E io p ops).any q = true) :
    ∃ c, Run E io options P ops c ∧ q c = true := by
  obtain ⟨c, hc, hq⟩ := (Option.any_eq_true _ _).mp h
  exact ⟨c, Run.check hp .start hc, hq⟩

end Machine

/-! ## A table with one entry -/

/-- A builder with one entry has it in its current block. -/
theorem SsTableBuilder.create_add (E : Extern) (block_size : ℕ) (compression : CompressionType)
    (key value : Bytes) : (create block_size compression).add E key value =
      ⟨⟨[0], entryBytes 0 key value, block_size, key⟩, key, key, [], [], block_size, compression,
        [E.fingerprint32 key]⟩ := by
  cases key <;> simp [add, create, BlockBuilder.create, BlockBuilder.add, BlockBuilder.isEmpty,
    computeOverlap]

/-- The length of a table file with one entry. -/
theorem length_fileBytes_single (value : Bytes) :
    (((SsTableBuilder.create 4096 .none).add .lib [97] value).fileBytes .lib).length =
      value.length + 55 := by
  rw [SsTableBuilder.create_add]
  unfold SsTableBuilder.fileBytes
  have hbits : Extern.lib.bloomBitsPerKey 1 = 10 := rfl
  simp [SsTableBuilder.finishBlock, BlockBuilder.isEmpty, SsTableBuilder.encodePayload,
    BlockBuilder.build, Block.encode, entryBytes, encodeBlockMeta, Bloom.encode,
    BlockMeta.length_encode, Bloom.buildFromKeyHashes, hbits]
  omega

end MiniLsm
