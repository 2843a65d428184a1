import MiniLsm.Sync

/-!
# The steps of a freeze

`LsmStorageInner::force_freeze_memtable` creates the new log, makes the new memtable visible, and
appends its record to the manifest, with the puts and syncs of other threads in between. A record
that is written and synced after the second step and before the third one is in a log that `open`
does not read (`not_durable_recorded_sync`). Without such a `sync`, the manifest has every memtable
whose log has something in its file, and `open` replays that log (`durable_recorded`).
-/

namespace MiniLsm

open LsmStorageInner

/-- How far the `force_freeze_memtable` has come that holds `state_lock`, if there is one, and the
identifier of its memtable. -/
inductive FreezePhase where
  | idle
  | created (memtable_id : ℕ)
  | swapped (memtable_id : ℕ)
  deriving DecidableEq

/-- A store, some of whose threads freeze its memtable. -/
structure Freezer (M : Type) where
  store : LsmStorageInner M
  phase : FreezePhase

/-- The steps of a freeze, and what other threads do in between. -/
inductive FreezeStep where
  /-- The insertion in `LsmStorageInner::put`, under the shared lock -/
  | put (key value : Bytes)
  /-- The same in `LsmStorageInner::del` -/
  | del (key : Bytes)
  /-- `LsmStorageInner::sync` -/
  | sync
  /-- The new identifier and the log with it, once `state_lock` is taken -/
  | create
  /-- The swap of the state, under the unique lock -/
  | swap
  /-- The record in the manifest, after which `state_lock` is released -/
  | record

namespace LsmStorageInner

variable {M : Type}

/-- The first step of `force_freeze_memtable`. -/
def createMemtable (s : LsmStorageInner M) : LsmStorageInner M :=
  let memtable_id := s.next_sst_id
  let s := { s with next_sst_id := memtable_id + 1 }
  if s.options.enable_wal then s.createWal memtable_id else s

/-- The second step. -/
def swapMemtable (s : LsmStorageInner M) (memtable_id : ℕ) : LsmStorageInner M :=
  let new_memtable :=
    if s.options.enable_wal then MemTable.createWithWal memtable_id else MemTable.create memtable_id
  { s with state := { s.state with
    memtable := new_memtable
    imm_memtables := s.state.memtable :: s.state.imm_memtables } }

/-- The steps of a freeze that nothing interrupts. -/
theorem forceFreezeMemtable_eq (io : ManifestIO M) (s : LsmStorageInner M) :
    s.forceFreezeMemtable io =
      (s.createMemtable.swapMemtable s.next_sst_id).addRecord io (.newMemtable s.next_sst_id) := by
  unfold forceFreezeMemtable createMemtable swapMemtable
  rcases s.options.enable_wal with _ | _ <;> rfl

end LsmStorageInner

namespace Freezer

variable {M : Type}

/-- A step, where it can be taken. One freeze at a time has `state_lock`. -/
def step (E : Extern) (io : ManifestIO M) (c : Freezer M) : FreezeStep → Option (Freezer M)
  | .put key value => some { c with store := c.store.write E key value }
  | .del key => some { c with store := c.store.write E key [] }
  | .sync => some { c with store := c.store.sync }
  | .create =>
    match c.phase with
    | .idle => some ⟨c.store.createMemtable, .created c.store.next_sst_id⟩
    | _ => none
  | .swap =>
    match c.phase with
    | .created memtable_id => some ⟨c.store.swapMemtable memtable_id, .swapped memtable_id⟩
    | _ => none
  | .record =>
    match c.phase with
    | .swapped memtable_id => some ⟨c.store.addRecord io (.newMemtable memtable_id), .idle⟩
    | _ => none

/-- No `sync` meets a write to a memtable that the manifest does not have yet. -/
def Quiet (c : Freezer M) (op : FreezeStep) : Prop :=
  op = .sync → ∀ id, c.phase = .swapped id → c.store.state.memtable.wal = some ⟨[]⟩

end Freezer

/-- The runs of the threads of a store, in which the steps have the property `P`. -/
abbrev FreezeRun {M : Type} (E : Extern) (io : ManifestIO M) (s : LsmStorageInner M)
    (P : Freezer M → FreezeStep → Prop) : List FreezeStep → Freezer M → Prop :=
  Steps (Freezer.step E io) P ⟨s, .idle⟩

namespace Freezer

variable {M : Type} {E : Extern} {io : ManifestIO M} {log : M → List ManifestRecord}
  {c c' : Freezer M}

/-- The replay of the manifest gives the tables of the store, whose files can be read, and ends with
its memtables. A memtable that it does not end with is the one of a freeze in progress, and nothing
has been passed on to its log. -/
structure Covered (E : Extern) (log : M → List ManifestRecord) (options : LsmStorageOptions)
    (c : Freezer M) : Prop where
  journaled : c.store.Journaled
  options_eq : c.store.options = options
  replays : ∃ r, replay options (c.store.records log) = .ok r ∧
    r.state.tableIds = c.store.state.tableIds ∧
    (∀ m ∈ c.store.state.imm_memtables, m.id ∈ r.memtables) ∧
    ((∀ id, c.phase ≠ .swapped id) → c.store.state.memtable.id ∈ r.memtables)
  tables : ∀ id ∈ c.store.state.tableIds, ∃ t, openSst E c.store.disk id = .ok t
  memtable_lt : c.store.state.memtable.id < c.store.next_sst_id
  created : ∀ id, c.phase = .created id → c.store.disk.wals id = some [] ∧
    c.store.state.memtable.id < id ∧ id < c.store.next_sst_id
  swapped : ∀ id, c.phase = .swapped id → c.store.disk.wals id = some [] ∧
    c.store.state.memtable.id = id

variable {options : LsmStorageOptions}

/-- A step that keeps the manifest, the counter and the tables, and changes the log of the active
memtable at most. -/
theorem Covered.of_memtable (h : c.Covered E log options) (hphase : c'.phase = c.phase)
    (hopt : c'.store.options = c.store.options) (hman : c'.store.manifest = c.store.manifest)
    (hdisk : c'.store.disk.manifest = c.store.disk.manifest)
    (hssts : c'.store.disk.ssts = c.store.disk.ssts)
    (hnext : c'.store.next_sst_id = c.store.next_sst_id)
    (hids : c'.store.state.tableIds = c.store.state.tableIds)
    (himm : c'.store.state.imm_memtables = c.store.state.imm_memtables)
    (hid : c'.store.state.memtable.id = c.store.state.memtable.id)
    (hwals : ∀ id, id ≠ c.store.state.memtable.id ∨ c.phase = .swapped id →
      c'.store.disk.wals id = c.store.disk.wals id) : c'.Covered E log options where
  journaled := h.journaled.congr hman hdisk
  options_eq := hopt.trans h.options_eq
  replays := by
    rw [records_congr hdisk, hids, himm, hid, hphase]
    exact h.replays
  tables := by
    rw [hids]
    intro id hmem
    obtain ⟨t, ht⟩ := h.tables id hmem
    refine ⟨t, ?_⟩
    rw [openSst] at ht ⊢
    rwa [hssts]
  memtable_lt := by
    rw [hid, hnext]
    exact h.memtable_lt
  created := by
    intro id hcreated
    rw [hphase] at hcreated
    obtain ⟨hwal, hlt, hnext'⟩ := h.created id hcreated
    rw [hwals id (.inl hlt.ne'), hid, hnext]
    exact ⟨hwal, hlt, hnext'⟩
  swapped := by
    intro id hswapped
    rw [hphase] at hswapped
    obtain ⟨hwal, hmem⟩ := h.swapped id hswapped
    rw [hwals id (.inr hswapped), hid]
    exact ⟨hwal, hmem⟩

theorem Covered.write (h : c.Covered E log options) (key value : Bytes) :
    ({ c with store := c.store.write E key value } : Freezer M).Covered E log options :=
  h.of_memtable rfl rfl rfl rfl rfl rfl rfl rfl rfl fun _ _ => rfl

/-- A `sync` with nothing in the buffer passes nothing on. -/
theorem Covered.sync (h : c.Covered E log options) (hquiet : c.Quiet .sync) :
    ({ c with store := c.store.sync } : Freezer M).Covered E log options := by
  have hdisk : c.store.sync.disk.manifest = c.store.disk.manifest ∧
      c.store.sync.disk.ssts = c.store.disk.ssts := by
    rw [LsmStorageInner.sync, flushWal]
    split
    · exact ⟨rfl, rfl⟩
    · exact ⟨rfl, rfl⟩
  refine h.of_memtable rfl rfl rfl hdisk.1 hdisk.2 rfl rfl rfl rfl fun id hid => ?_
  dsimp only
  rw [LsmStorageInner.sync, flushWal]
  dsimp only
  rcases hid with hid | hid
  · split
    · rfl
    · exact Function.update_of_ne hid _ _
  · obtain ⟨hwal, hmem⟩ := h.swapped id hid
    rw [hquiet rfl id hid]
    dsimp only
    rw [hmem, Function.update_self, hwal]
    rfl

theorem Covered.step (h : c.Covered E log options) (hio : io.Lawful log)
    (hwal : options.enable_wal = true) {op : FreezeStep} (hquiet : c.Quiet op)
    (hstep : c.step E io op = some c') : c'.Covered E log options := by
  cases op with
  | put key value =>
    cases hstep
    exact h.write key value
  | del key =>
    cases hstep
    exact h.write key []
  | sync =>
    cases hstep
    exact h.sync hquiet
  | create =>
    obtain ⟨s, phase⟩ := c
    cases phase with
    | idle =>
      cases hstep
      obtain ⟨r, hr, hids, himm, hmem⟩ := h.replays
      -- The log is created, and no memtable has it yet.
      have hs : s.createMemtable =
          ({ s with next_sst_id := s.next_sst_id + 1 } : LsmStorageInner M).createWal
            s.next_sst_id := by
        rw [createMemtable]
        exact if_pos (h.options_eq ▸ hwal)
      rw [hs]
      refine ⟨h.journaled.congr rfl rfl, h.options_eq,
        ⟨r, hr, hids, himm, fun _ => hmem (by simp)⟩, h.tables,
        h.memtable_lt.trans (Nat.lt_succ_self _), ?_, by simp⟩
      intro id hid
      cases hid
      exact ⟨Function.update_self _ _ _, h.memtable_lt, Nat.lt_succ_self _⟩
    | created => cases hstep
    | swapped => cases hstep
  | swap =>
    obtain ⟨s, phase⟩ := c
    cases phase with
    | idle => cases hstep
    | created memtable_id =>
      cases hstep
      obtain ⟨hfile, hlt, hnext⟩ := h.created memtable_id rfl
      obtain ⟨r, hr, hids, himm, hmem⟩ := h.replays
      -- The memtable that was active is frozen, and the manifest has it; the new one is not in it.
      have hnew : (s.swapMemtable memtable_id).state.memtable.id = memtable_id := by
        rw [swapMemtable]
        dsimp only
        split_ifs <;> rfl
      refine ⟨h.journaled.congr rfl rfl, h.options_eq, ⟨r, hr, hids, ?_, ?_⟩, h.tables, ?_,
        by simp, ?_⟩
      · exact List.forall_mem_cons.mpr ⟨hmem (by simp), himm⟩
      · intro hno
        exact absurd rfl (hno memtable_id)
      · dsimp only
        rw [hnew]
        exact hnext
      · intro id hid
        cases hid
        exact ⟨hfile, hnew⟩
    | swapped => cases hstep
  | record =>
    obtain ⟨s, phase⟩ := c
    cases phase with
    | idle => cases hstep
    | created => cases hstep
    | swapped memtable_id =>
      cases hstep
      obtain ⟨-, hid⟩ := h.swapped memtable_id rfl
      obtain ⟨r, hr, hids, himm, -⟩ := h.replays
      obtain ⟨hj, hrec⟩ := h.journaled.addRecord hio (.newMemtable memtable_id)
      obtain ⟨r', hr'⟩ : ∃ r', replayRecord options.compaction_options r
        (.newMemtable memtable_id) = .ok r' := ⟨_, rfl⟩
      -- With the record the replay has the new memtable, and forgets none.
      have hmems : ∀ id, id ∈ r'.memtables ↔ _ := fun id => mem_memtables_replayRecord hr'
      have hstate := addRecord_state io s (.newMemtable memtable_id)
      refine ⟨hj, (addRecord_options io s _).trans h.options_eq, ⟨r', ?_, ?_, ?_, ?_⟩, ?_, ?_,
        by simp, by simp⟩
      · dsimp only
        rw [hrec, replay_append, hr, ok_bind, hr']
      · dsimp only
        rw [hstate]
        cases hr'
        exact hids
      · dsimp only
        rw [hstate]
        intro m hm
        exact (hmems m.id).mpr (.inl ⟨himm m hm, by simp⟩)
      · intro _
        dsimp only
        rw [hstate]
        exact (hmems _).mpr (.inr (by rw [hid]))
      · dsimp only
        rw [hstate]
        intro id hmem
        obtain ⟨t, ht⟩ := h.tables id hmem
        refine ⟨t, ?_⟩
        rw [openSst] at ht ⊢
        rwa [addRecord_ssts]
      · dsimp only
        rw [hstate, addRecord_next_sst_id]
        exact h.memtable_lt

/-- The manifest covers a store that one thread has used. -/
theorem covered_of_durable {s : LsmStorageInner M} {K : Bytes → Prop} (h : s.Durable E log K)
    (hopt : s.options = options) : (⟨s, .idle⟩ : Freezer M).Covered E log options := by
  obtain ⟨r, hr, -⟩ := h.replays
  refine ⟨hr.journaled, hopt, ⟨r, ?_, ?_, fun m hm => ?_, fun _ => ?_⟩, fun id hid => ?_, ?_,
    by simp, by simp⟩
  · rw [← hopt]
    exact hr.replay_eq
  · rw [LsmStorageState.tableIds, LsmStorageState.tableIds, hr.l0_sstables, hr.levels]
  · exact hr.memtables m (List.mem_cons_of_mem _ hm)
  · exact hr.memtables _ List.mem_cons_self
  · obtain ⟨t, ht, -⟩ := h.inv.good id hid
    obtain ⟨-, rfl, b, hb, ho⟩ := h.inv.listed id t ht
    refine ⟨t, ?_⟩
    rw [openSst]
    dsimp only
    rw [hb]
    exact ho
  · exact h.inv.mem_ids_lt _ List.mem_cons_self

/-- Of a memtable whose log has something in its file, the manifest has the record. -/
theorem Covered.mem_records (h : c.Covered E log options) {m : MemTable}
    (hm : m ∈ c.store.state.memtables) (hfile : (c.store.disk.wals m.id).getD [] ≠ []) :
    .newMemtable m.id ∈ c.store.records log ∧
      ∀ r, replay options (c.store.records log) = .ok r → m.id ∈ r.memtables := by
  obtain ⟨r, hr, -, himm, hmem⟩ := h.replays
  have hid : m.id ∈ r.memtables := by
    rcases List.mem_cons.mp hm with rfl | hm
    · refine hmem fun id hid => ?_
      obtain ⟨hwal, hmemid⟩ := h.swapped id hid
      rw [hmemid, hwal] at hfile
      exact hfile rfl
    · exact himm m hm
  obtain ⟨-, hnew, -⟩ := replay_spec hr
  refine ⟨hnew _ hid, fun r' hr' => ?_⟩
  cases hr.symm.trans hr'
  exact hid

end Freezer

namespace FreezeRun

variable {M : Type} {E : Extern} {io : ManifestIO M} {log : M → List ManifestRecord}
  {s : LsmStorageInner M} {c : Freezer M} {disk : Disk M}

/-- In a run in which no `sync` meets a write to a memtable that the manifest does not have, the
manifest has every memtable whose log has something in its file, and `open` replays that log after a
crash. -/
theorem durable_recorded (hio : io.Lawful log) {options : LsmStorageOptions}
    (hsize : options.block_size ≤ 65536) (hwal : options.enable_wal = true)
    {ops₁ : List StoreOp} {ops₂ : List FreezeStep}
    (h₁ : Steps (storeStep E io) (Stores E io) (openFresh io Disk.empty options) ops₁ s)
    (h₂ : FreezeRun E io s Freezer.Quiet ops₂ c) {m : MemTable}
    (hm : m ∈ c.store.state.memtables) (hfile : (c.store.disk.wals m.id).getD [] ≠ []) :
    .newMemtable m.id ∈ c.store.records log ∧ ∀ disk, c.store.Crashed disk →
      ∃ t, LsmStorageInner.open E io disk options = .ok t ∧
        ∀ m', m' = MemTable.recoverFromWal E m.id ((disk.wals m.id).getD []) →
          m'.isEmpty = false → m' ∈ t.state.imm_memtables := by
  have hs : s.Durable E log fun _ => False := h₁.invariant (.start hio hsize hwal)
    fun _ _ _ hd hst hstep => hd.step hio hst (by simp) hstep
  have hopt : s.options = options := h₁.invariant (I := fun s => s.options = options)
    (openFresh_options io Disk.empty options) fun _ _ _ h _ hstep => (storeStep_options hstep).trans h
  have hc : c.Covered E log options := h₂.invariant (Freezer.covered_of_durable hs hopt)
    fun _ _ _ hc hquiet hstep => hc.step hio hwal hquiet hstep
  obtain ⟨hrecord, hmem⟩ := hc.mem_records hm hfile
  refine ⟨hrecord, fun disk hcrash => ?_⟩
  -- The manifest is recovered, and its tables are there.
  obtain ⟨m₀, hm₀⟩ := Option.isSome_iff_exists.mp hc.journaled.isSome
  obtain ⟨m₁, hrec, -⟩ := hio.recover_eq m₀
  have hrecords : c.store.records log = log m₀ := by
    rw [records, hm₀]
    rfl
  obtain ⟨r, hr, hids, -⟩ := hc.replays
  have hssts : ∀ id ∈ r.state.tableIds, ∃ t, openSst E disk id = .ok t := by
    rw [hids]
    intro id hid
    obtain ⟨t, ht⟩ := hc.tables id hid
    refine ⟨t, ?_⟩
    rw [openSst] at ht ⊢
    rwa [hcrash.ssts id hid]
  obtain ⟨t, hopen, -, -, himm⟩ := opensAs_of_recover (hcrash.manifest.trans hm₀) hrec options r
    (hrecords ▸ hr) hssts
  obtain ⟨hsorted, -⟩ := replay_spec hr
  refine ⟨t, hopen, ?_⟩
  rintro m' rfl hne
  rw [himm, if_pos hwal, (recoverMemtables_eq E disk (hsorted.imp ne_of_lt)).1, List.mem_filter]
  exact ⟨List.mem_map.mpr ⟨m.id, List.mem_reverse.mpr (hmem r hr), rfl⟩, by rw [hne]; rfl⟩

/-- Puts and syncs come between all steps of a freeze, a put to the new memtable behind the sync. -/
def quietFreeze : List FreezeStep :=
  [.create, .put [98] [50], .sync, .swap, .sync, .put [99] [51], .record, .sync]

/-- Whether a step is quiet. -/
def isQuiet (c : Freezer M) (op : FreezeStep) : Bool :=
  match op, c.phase with
  | .sync, .swapped _ => decide (c.store.state.memtable.wal = some ⟨[]⟩)
  | _, _ => true

theorem quiet_of_isQuiet {op : FreezeStep} (h : isQuiet c op = true) : c.Quiet op := by
  rintro rfl id hid
  unfold isQuiet at h
  split at h
  · exact of_decide_eq_true h
  · rename_i hno
    exact absurd hid (hno id rfl)

theorem durable_recorded_quietFreeze :
    ∃ (s : LsmStorageInner (List ManifestRecord)) (c : Freezer (List ManifestRecord)),
      Steps (storeStep .lib .list) (Stores .lib .list)
        (openFresh .list Disk.empty { enable_wal := true }) [.put [97] [49]] s ∧
      FreezeRun .lib .list s Freezer.Quiet quietFreeze c ∧
      (c.store.disk.wals 1).getD [] ≠ [] ∧ .newMemtable 1 ∈ c.store.records id ∧
      ∃ t, LsmStorageInner.open .lib .list c.store.disk { enable_wal := true } = .ok t := by
  obtain ⟨s, h₁, -, hs⟩ := exists_stores .lib .list (openFresh_bounded .list { enable_wal := true })
    (fun s => (Steps.exec (Freezer.step .lib .list) isQuiet ⟨s, .idle⟩ quietFreeze).any
      fun (c : Freezer (List ManifestRecord)) =>
      decide (c.store.state.memtable.id = 1 ∧ (c.store.disk.wals 1).getD [] ≠ []))
    (show (Steps.exec _ _ _ [.put [97] [49]]).any _ = true by decide +kernel)
  obtain ⟨c, h₂, hc⟩ := Steps.of_exec (P := Freezer.Quiet) (fun _ _ h => quiet_of_isQuiet h) hs
  obtain ⟨hid, hfile⟩ := of_decide_eq_true hc
  have hmem : c.store.state.memtable ∈ c.store.state.memtables := List.mem_cons_self
  obtain ⟨hrecord, hopen⟩ := durable_recorded ManifestIO.list_lawful (by decide) rfl h₁ h₂ hmem
    (by rwa [hid])
  rw [hid] at hrecord
  obtain ⟨t, ht, -⟩ := hopen c.store.disk c.store.crashed_self
  exact ⟨s, c, h₁, h₂, hfile, hrecord, t, ht⟩

/-- The new memtable takes a write, which is synced before the manifest has the memtable. -/
theorem not_durable_recorded_sync :
    ¬ ∀ (ops : List FreezeStep) (c : Freezer (List ManifestRecord)),
      FreezeRun .lib .list (openFresh .list Disk.empty { enable_wal := true }) (fun _ _ => True)
        ops c →
      ∀ m ∈ c.store.state.memtables, (c.store.disk.wals m.id).getD [] ≠ [] →
        .newMemtable m.id ∈ c.store.records id := by
  intro h
  obtain ⟨c, hrun, hc⟩ : ∃ c : Freezer (List ManifestRecord),
      FreezeRun .lib .list (openFresh .list Disk.empty { enable_wal := true }) (fun _ _ => True)
        [.create, .swap, .put [97] [49], .sync] c ∧
      decide ((c.store.disk.wals c.store.state.memtable.id).getD [] ≠ [] ∧
        .newMemtable c.store.state.memtable.id ∉ c.store.records id) = true :=
    Steps.of_exec (p := fun _ _ => true) (fun _ _ _ => trivial) (by decide +kernel)
  obtain ⟨hfile, hrecord⟩ := of_decide_eq_true hc
  exact hrecord (h _ c hrun c.store.state.memtable List.mem_cons_self hfile)

end FreezeRun

end MiniLsm
