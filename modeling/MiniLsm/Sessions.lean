import MiniLsm.Structure
import MiniLsm.Sync

/-!
# Sessions

A store that is opened, used by its threads, closed and destroyed, any number of times. The manifest
and the logs keep up with every step of a session (`step_recoverable`), and closing passes
everything on (`shutdown_spec`), so that the next `open` finds the tables in the same order and
every key with the same value.

* With the controllers of `Plain` this holds for all sessions (`Sessions.reopen_eq`).
* The leveled controller sorts a level by its keys while the store runs, and not in the replay. The
levels are the same again as long as each compaction appends to its level
(`Sessions.leveled_reopen_eq`).
-/

namespace MiniLsm

open LsmStorageInner Cursor

section Recoverable

variable {M τ : Type} {E : Extern} {io : ManifestIO M} {log : M → List ManifestRecord}
  {s s' : LsmStorageInner M}

/-- The manifest has the tables of the store, and the logs have its memtables. -/
def LsmStorageInner.Recoverable (E : Extern) (log : M → List ManifestRecord)
    (s : LsmStorageInner M) : Prop :=
  ∃ r, s.Replays log r ∧ (s.options.enable_wal = true → s.Logs E r)

namespace LsmStorageInner.Recoverable

/-- A write is in the buffer of the log. -/
theorem write (h : s.Recoverable E log) {key value : Bytes} (hs : Storable (key, value)) :
    (s.write E key value).Recoverable E log := by
  obtain ⟨r, hr, hl⟩ := h
  exact ⟨r, hr.write key value, fun hwal => (hl hwal).write hs⟩

/-- A freeze is recorded, and begins a log. -/
theorem freeze (h : s.Recoverable E log) (hio : io.Lawful log) (hinv : Inv E s) :
    (s.forceFreezeMemtable io).Recoverable E log := by
  obtain ⟨r, hr, hl⟩ := h
  obtain ⟨r', hr', hids⟩ := hr.freeze hio
  refine ⟨r', hr', fun hwal => ?_⟩
  rw [forceFreezeMemtable_options] at hwal
  exact (hl hwal).freeze hinv hwal hids

/-- So is a write that freezes the memtable. -/
theorem put (h : s.Recoverable E log) (hio : io.Lawful log) (hinv : Inv E s) {key value : Bytes}
    (hs : Storable (key, value)) : (s.put E io key value).Recoverable E log := by
  rcases put_eq E io s key value with heq | heq
  · rw [heq]
    exact h.write hs
  · rw [heq]
    exact (h.write hs).freeze hio (hinv.write hs)

/-- A flush is recorded, and the replay leaves its log out. -/
theorem flush (h : s.Recoverable E log) (hio : io.Lawful log) (hinv : Inv E s)
    (hsmall : (s.forceFlushNextImmMemtable E io).2.disk.Small) :
    (s.forceFlushNextImmMemtable E io).2.Recoverable E log := by
  by_cases himm : s.state.imm_memtables = []
  · rw [flush_of_imm_nil E io himm]
    exact h
  · obtain ⟨hok, m, t, hf⟩ := flush_spec hinv himm hsmall
    obtain ⟨r, hr, hl⟩ := h
    obtain ⟨r', hr', hids⟩ := hr.flush hio hinv hok hf
    refine ⟨r', hr', fun hwal => ?_⟩
    rw [hf.options] at hwal
    exact (hl hwal).flush hf hids

/-- `sync` moves records from the buffer to the file. -/
theorem sync (h : s.Recoverable E log) (hinv : Inv E s) : s.sync.Recoverable E log := by
  obtain ⟨r, hr, hl⟩ := h
  refine ⟨r, hr.sync, fun hwal => ⟨?_, fun id hid hno => ?_⟩⟩
  · rw [sync_memtables, List.forall_mem_cons]
    obtain ⟨durable, buffered, hlog⟩ := (hl hwal).logged s.state.memtable List.mem_cons_self
    refine ⟨⟨_, [], syncedMemtable_logged hlog⟩, fun m hm => ?_⟩
    obtain ⟨durable', buffered', hlog'⟩ := (hl hwal).logged m (List.mem_cons_of_mem _ hm)
    exact ⟨durable', buffered', hlog'.congr (hinv.sync_wals hm)⟩
  · rw [sync_memtables, List.forall_mem_cons] at hno
    rw [show s.sync.disk.wals id = s.disk.wals id from flushWal_wals_of_ne s.disk (Ne.symm hno.1)]
    exact (hl hwal).stale id hid (List.forall_mem_cons.mpr hno)

/-- Tables that are written and not recorded do not matter. -/
theorem wrote (h : s.Recoverable E log) (hw : Wrote s s') : s'.Recoverable E log := by
  obtain ⟨r, hr, hl⟩ := h
  have hmems : s'.state.memtables = s.state.memtables := by rw [hw.state]
  refine ⟨r, hr.of_sameTables hw.sameTables hw.manifest hw.disk_manifest fun m' hm' => ?_,
    fun hwal => ?_⟩
  · exact ⟨m', by rwa [← hmems], rfl⟩
  · rw [hw.options] at hwal
    exact (hl hwal).congr hmems hw.wals rfl

/-- The last step of a compaction is recorded, and the replay applies it to the same levels. -/
theorem applyResult (h : s.Recoverable E log) (hio : io.Lawful log) {task : CompactionTask}
    {ts : List SsTable}
    (hplace : ∀ t, task = .leveled t → t.InPlace (s.withTables ts) (ts.map SsTable.id)) :
    (s.applyResult io task ts).Recoverable E log := by
  obtain ⟨r, hr, hl⟩ := h
  obtain ⟨r', hr', hids⟩ := hr.applyResult hio hplace
  obtain ⟨hopt, -, hmems, -⟩ := applyResult_frame io s task ts
  have hwals : (s.applyResult io task ts).disk.wals = s.disk.wals := by
    rcases applyResult_cases io s task ts with heq | ⟨-, -, -, -, -, -, -, hw⟩
    · rw [heq]
    · exact hw
  refine ⟨r', hr', fun hwal => ?_⟩
  rw [hopt] at hwal
  exact (hl hwal).congr hmems hwals hids

end LsmStorageInner.Recoverable

namespace Machine

variable [DecidableEq τ]

/-- A leveled compaction that changes the state appends to its level. -/
def Appends (c : Machine M τ) (op : Op τ) : Prop :=
  ∀ i call ts t, op = .apply i → c.calls i = some call → call.sstables = some ts →
    call.task = .leveled t → t.InPlace (c.store.withTables ts) (ts.map SsTable.id)

/-- A step is in the manifest and the logs as soon as it is taken. -/
theorem step_recoverable (hio : io.Lawful log) {c c' : Machine M τ} {op : Op τ}
    (h : c.store.Recoverable E log) (hinv : c.Inv E) (happ : c.Appends op) (hs : op.Storable)
    (hstep : c.step E io op = some c') (hsmall : c'.store.disk.Small) :
    c'.store.Recoverable E log := by
  cases op with
  | put key value =>
    cases hstep
    exact h.put hio hinv.store hs
  | del key =>
    cases hstep
    exact h.put hio hinv.store hs
  | freeze =>
    simp only [Machine.step] at hstep
    split_ifs at hstep
    cases hstep
    exact h.freeze hio hinv.store
  | flush =>
    cases hstep
    exact h.flush hio hinv.store hsmall
  | trigger i =>
    obtain ⟨-, t, -, rfl⟩ := begin_eq_some hstep
    exact h
  | full i =>
    obtain ⟨-, t, -, rfl⟩ := begin_eq_some hstep
    exact h
  | compact i =>
    obtain ⟨call, -, -, rfl⟩ := step_compact hstep
    exact h.wrote (compact_wrote c.store call.task)
  | apply i =>
    obtain ⟨call, ts, hi, hts, rfl⟩ := step_apply hstep
    exact h.applyResult hio fun t ht => happ i call ts t rfl hi hts ht

end Machine

end Recoverable

/-! ## The end of a session -/

namespace LsmStorageInner

variable {M : Type} {E : Extern} {io : ManifestIO M} {log : M → List ManifestRecord}
  {s : LsmStorageInner M} {disk : Disk M} {r : Replay} {rs : ℕ → List (Bytes × Bytes)}

/-- What is left when the process ends: what a crash leaves, where the logs without a memtable are
as they were. -/
structure Killed (s : LsmStorageInner M) (disk : Disk M) : Prop extends s.Crashed disk where
  others : ∀ id < s.next_sst_id, (∀ m ∈ s.state.memtables, m.id ≠ id) →
    disk.wals id = s.disk.wals id

/-- The directory has the tables, and in the log of each memtable the records that have been passed
on, with a part of the others. -/
structure Kept (E : Extern) (s : LsmStorageInner M) (r : Replay) (disk : Disk M)
    (rs : ℕ → List (Bytes × Bytes)) : Prop extends s.Left E r disk rs where
  manifest : disk.manifest = s.disk.manifest
  logged : s.options.enable_wal = true → ∀ m ∈ s.state.memtables, ∃ durable buffered n,
    m.Logged E s.disk durable buffered ∧ rs m.id = durable ++ buffered.take n
  stale : ∀ id ∈ r.memtables, (∀ m ∈ s.state.memtables, m.id ≠ id) → rs id = []
  volatile : s.options.enable_wal = false → ∀ id, rs id = []

/-- What is left when the process ends is in order. -/
theorem Killed.kept (hk : s.Killed disk) (hinv : Inv E s) (hr : s.Replays log r)
    (hl : s.options.enable_wal = true → s.Logs E r) : ∃ rs, s.Kept E r disk rs := by
  rcases hwal : s.options.enable_wal with _ | _
  · refine ⟨fun _ => [], ⟨hk.ssts, ?_, ?_, ?_⟩, hk.manifest, ?_, fun _ _ _ => rfl, fun _ _ => rfl⟩
    all_goals
      intro hlogs
      rw [hwal] at hlogs
      cases hlogs
  · have hnd : (s.state.memtables.map MemTable.id).Nodup := hinv.mem_ids.imp ne_of_gt
    -- Each log that is going to be read has whole records and perhaps a torn one.
    have hlogs : ∀ id ∈ r.memtables, ∃ rs, (∃ torn, Wal.Torn E torn ∧
        (disk.wals id).getD [] = Wal.frames E rs ++ torn) ∧ (∀ e ∈ rs, Storable e) ∧
        (∀ m ∈ s.state.memtables, m.id = id → ∃ durable buffered n,
          m.Logged E s.disk durable buffered ∧ rs = durable ++ buffered.take n) ∧
        ((∀ m ∈ s.state.memtables, m.id ≠ id) → rs = []) := by
      intro id hid
      by_cases hlive : ∃ m ∈ s.state.memtables, m.id = id
      · obtain ⟨m, hm, rfl⟩ := hlive
        obtain ⟨durable, buffered, hlog⟩ := (hl hwal).logged m hm
        obtain ⟨n, hn⟩ := hk.wals m hm _ hlog.wal
        have hfits : ∀ e ∈ buffered, Wal.Fits e := fun e he =>
          (hlog.storable e (List.mem_append_right _ he)).fits
        obtain ⟨j, torn, htorn, htake, -⟩ := Wal.take_frames E hfits n
        refine ⟨durable ++ buffered.take j, ⟨torn, htorn, ?_⟩, fun e he => hlog.storable e ?_,
          fun m' hm' hid' => ?_, fun hno => absurd rfl (hno m hm)⟩
        · rw [hn, hlog.file, Option.map_some, Option.getD_some, htake, Wal.frames_append,
            List.append_assoc]
        · rcases List.mem_append.mp he with he | he
          · exact List.mem_append_left _ he
          · exact List.mem_append_right _ (List.mem_of_mem_take he)
        · rw [List.inj_on_of_nodup_map hnd hm' hm hid']
          exact ⟨durable, buffered, j, hlog, rfl⟩
      -- A log without a memtable is empty, and a crash leaves it so.
      · have hno : ∀ m ∈ s.state.memtables, m.id ≠ id := fun m hm heq => hlive ⟨m, hm, heq⟩
        refine ⟨[], ⟨[], .inl rfl, ?_⟩, by simp, fun m hm heq => absurd heq (hno m hm),
          fun _ => rfl⟩
        rw [hk.others id (hr.memtables_lt id hid) hno, (hl hwal).stale id hid hno]
        rfl
    choose! rs hfile hst hlog hstale using hlogs
    refine ⟨rs, ⟨hk.ssts, fun _ => hfile, fun _ => hst, fun _ id hid hne => ?_⟩, hk.manifest,
      fun _ m hm => hlog m.id (hr.memtables m hm) m hm rfl, hstale, ?_⟩
    · by_contra hno
      exact hne (hstale id hid fun m hm heq => hno ⟨m, hm, heq⟩)
    · intro hoff
      rw [hwal] at hoff
      cases hoff

/-- The logs of some memtables are passed on, and nothing else of the directory changes. -/
theorem foldl_flushWal {ms : List MemTable} (hnd : (ms.map MemTable.id).Nodup) (disk : Disk M) :
    (ms.foldl flushWal disk).manifest = disk.manifest ∧
      (ms.foldl flushWal disk).ssts = disk.ssts ∧
      (∀ m ∈ ms, ∀ w, m.wal = some w →
        (ms.foldl flushWal disk).wals m.id = (disk.wals m.id).map (· ++ w.buffered)) ∧
      ∀ id, (∀ m ∈ ms, m.id ≠ id) → (ms.foldl flushWal disk).wals id = disk.wals id := by
  induction ms generalizing disk with
  | nil => exact ⟨rfl, rfl, by simp, fun _ _ => rfl⟩
  | cons m ms ih =>
    rw [List.map_cons, List.nodup_cons] at hnd
    obtain ⟨hman, hssts, hmem, hrest⟩ := ih hnd.2 (flushWal disk m)
    have hother : ∀ m' ∈ ms, m.id ≠ m'.id := fun m' hm' heq =>
      hnd.1 (heq ▸ List.mem_map_of_mem hm')
    rw [List.foldl_cons]
    refine ⟨hman.trans (flushWal_manifest disk m), hssts.trans (flushWal_ssts disk m),
      fun m' hm' w hw => ?_, fun id hid => ?_⟩
    · rcases List.mem_cons.mp hm' with rfl | hm'
      · rw [hrest m'.id fun m'' hm'' heq => hother m'' hm'' heq.symm, flushWal, hw]
        exact Function.update_self _ _ _
      · rw [hmem m' hm' w hw, flushWal_wals_of_ne disk (hother m' hm').symm]
    · rw [List.forall_mem_cons] at hid
      rw [hrest id hid.2, flushWal_wals_of_ne disk (Ne.symm hid.1)]

/-- The destruction of a store passes all records on. -/
theorem destroy_wals (hinv : Inv E s) {m : MemTable} (hm : m ∈ s.state.memtables) {w : Wal}
    (hw : m.wal = some w) :
    s.destroy.wals m.id = (s.disk.wals m.id).map (· ++ w.buffered) :=
  (foldl_flushWal (hinv.mem_ids.imp ne_of_gt) s.disk).2.2.1 m hm w hw

/-- The destruction of the store is a crash that loses nothing. -/
theorem destroy_killed (hinv : Inv E s) : s.Killed s.destroy := by
  obtain ⟨hman, hssts, -, hrest⟩ := foldl_flushWal (hinv.mem_ids.imp ne_of_gt) s.disk
  refine ⟨⟨hman, fun id _ => congrFun hssts id, fun m hm w hw => ⟨w.buffered.length, ?_⟩⟩,
    fun id _ => hrest id⟩
  rw [destroy_wals hinv hm hw, List.take_length]

/-- A crash may pass nothing on. -/
theorem killed_self (s : LsmStorageInner M) : s.Killed s.disk := ⟨s.crashed_self, fun _ _ _ => rfl⟩

/-- The records of a log are determined by it. -/
theorem eq_of_frames {ws ws' : List (Bytes × Bytes)} {torn : Bytes} (hws : ∀ e ∈ ws, Storable e)
    (hws' : ∀ e ∈ ws', Storable e) (htorn : Wal.Torn E torn)
    (h : Wal.frames E ws ++ torn = Wal.frames E ws') : ws = ws' := by
  have hrec := Wal.recover_frames E (fun e he => (hws e he).fits) htorn
  have hrec' := Wal.recover_frames E (fun e he => (hws' e he).fits) (.inl rfl)
  rw [List.append_nil, ← h, hrec] at hrec'
  exact congrArg Prod.fst hrec'

/-- The directory that a store leaves: `MiniLsm::close`, once more in the destructor, and the
destruction of the store. -/
def shutdown (E : Extern) (io : ManifestIO M) (s : LsmStorageInner M) : Disk M :=
  ((s.close E io).2.close E io).2.destroy

/-- The store whose memtables `MiniLsm::close` flushes, where there are no logs. -/
def closing (io : ManifestIO M) (s : LsmStorageInner M) : LsmStorageInner M :=
  if s.state.memtable.isEmpty then s else s.forceFreezeMemtable io

/-- The table files that `MiniLsm::close` writes keep to the format. -/
def ClosesSmall (E : Extern) (io : ManifestIO M) (s : LsmStorageInner M) : Prop :=
  s.options.enable_wal = false → ∀ n, (flushAll E io n (s.closing io)).2.disk.Small

/-- With logs, `MiniLsm::close` passes the active one on. -/
theorem close_of_wal (hwal : s.options.enable_wal = true) : s.close E io = (.ok (), s.sync) := by
  rw [close, if_pos hwal]

/-- Without logs, it freezes the memtable and flushes them all. -/
theorem close_of_no_wal (hwal : s.options.enable_wal = false) : s.close E io =
    flushAll E io (s.closing io).state.imm_memtables.length (s.closing io) := by
  rw [close, if_neg (by simp [hwal])]
  rfl

/-- A `sync` before the destruction changes nothing. -/
theorem sync_destroy (s : LsmStorageInner M) : s.sync.destroy = s.destroy := by
  have htwice : flushWal s.sync.disk s.sync.state.memtable = flushWal s.disk s.state.memtable := by
    rw [sync]
    dsimp only
    unfold flushWal
    rcases s.state.memtable.wal with _ | w
    · rfl
    · simp [Function.comp_def]
  unfold destroy
  rw [List.foldl_cons, List.foldl_cons, htwice]
  rfl

/-- With logs, the destruction passes on what is left. -/
theorem shutdown_of_wal (hwal : s.options.enable_wal = true) : s.shutdown E io = s.destroy := by
  rw [shutdown, close_of_wal hwal, close_of_wal (s := s.sync) hwal, sync_destroy, sync_destroy]

/-- The loop of `MiniLsm::close` leaves no frozen memtables, and keeps what a flush keeps. -/
theorem flushAll_rule {P : LsmStorageInner M → Prop} (hinv : ∀ s, P s → Inv E s)
    (hP : ∀ s m t, P s → Flushed E s (s.forceFlushNextImmMemtable E io).2 m t →
      (s.forceFlushNextImmMemtable E io).2.disk.Small → P (s.forceFlushNextImmMemtable E io).2)
    {n : ℕ} (h : P s) (hlen : s.state.imm_memtables.length = n)
    (hsmall : ∀ n, (flushAll E io n s).2.disk.Small) :
    (flushAll E io n s).1 = .ok () ∧ P (flushAll E io n s).2 ∧
      (flushAll E io n s).2.state.imm_memtables = [] := by
  induction n generalizing s with
  | zero => exact ⟨rfl, h, List.length_eq_zero_iff.mp hlen⟩
  | succ n ih =>
    have hne : s.state.imm_memtables ≠ [] := fun hnil => by rw [hnil] at hlen; cases hlen
    have hone : (s.forceFlushNextImmMemtable E io).2.disk.Small := by
      have := hsmall 1
      rw [flushAll] at this
      rcases hf : s.forceFlushNextImmMemtable E io with ⟨_ | _, s'⟩ <;> rwa [hf] at this
    obtain ⟨hok, m, t, hf⟩ := flush_spec (hinv s h) hne hone
    have hstep : ∀ n, flushAll E io (n + 1) s =
        flushAll E io n (s.forceFlushNextImmMemtable E io).2 := by
      intro n
      rw [flushAll]
      rcases hs : s.forceFlushNextImmMemtable E io with ⟨e, s'⟩
      rw [hs] at hok
      rw [show e = .ok () from hok]
      rfl
    have hlen' : (s.forceFlushNextImmMemtable E io).2.state.imm_memtables.length = n := by
      rw [hf.imm_memtables, List.length_append, List.length_singleton] at hlen
      omega
    rw [hstep]
    exact ih (hP s m t h hf hone) hlen' fun n => hstep n ▸ hsmall (n + 1)

/-- What the loop of `MiniLsm::close` keeps. -/
theorem flushAll_spec (hio : io.Lawful log) (hinv : Inv E s) (hsh : s.Shape)
    (hrec : s.Recoverable E log) (hsmall : ∀ n, (flushAll E io n s).2.disk.Small) :
    let z := flushAll E io s.state.imm_memtables.length s
    z.1 = .ok () ∧ z.2.state.imm_memtables = [] ∧ Inv E z.2 ∧ z.2.Shape ∧ z.2.Recoverable E log ∧
      z.2.options = s.options ∧ z.2.state.memtable = s.state.memtable ∧
      ∀ k, z.2.state.view E k = s.state.view E k := by
  obtain ⟨hok, ⟨hinv', hrest⟩, himm⟩ := flushAll_rule
    (P := fun z => Inv E z ∧ z.Shape ∧ z.Recoverable E log ∧ z.options = s.options ∧
      z.state.memtable = s.state.memtable ∧ ∀ k, z.state.view E k = s.state.view E k)
    (fun _ hz => hz.1) (fun z m t hz hf hone => ⟨hf.inv hz.1, hz.2.1.flushed hz.1 hf,
      hz.2.2.1.flush hio hz.1 hone, hf.options.trans hz.2.2.2.1, hf.memtable.trans hz.2.2.2.2.1,
      fun k => (hf.view hz.1 k).trans (hz.2.2.2.2.2 k)⟩)
    ⟨hinv, hsh, hrec, rfl, rfl, fun _ => rfl⟩ rfl hsmall
  exact ⟨hok, himm, hinv', hrest⟩

/-- The freeze at the beginning of `MiniLsm::close`. -/
theorem closing_spec (hio : io.Lawful log) (hinv : Inv E s) (hsh : s.Shape)
    (hrec : s.Recoverable E log) :
    Inv E (s.closing io) ∧ (s.closing io).Shape ∧ (s.closing io).Recoverable E log ∧
      (s.closing io).options = s.options ∧ (s.closing io).state.memtable.map = [] ∧
      ∀ k, (s.closing io).state.view E k = s.state.view E k := by
  rw [closing]
  split_ifs with hemp
  · rw [MemTable.isEmpty, List.isEmpty_iff] at hemp
    exact ⟨hinv, hsh, hrec, rfl, hemp, fun _ => rfl⟩
  · have hne : s.state.memtable.map ≠ [] := fun hnil => hemp (by rw [MemTable.isEmpty, hnil]; rfl)
    refine ⟨hinv.freeze io hne, ?_, hrec.freeze hio hinv, forceFreezeMemtable_options io s, ?_,
      Inv.view_freeze io s⟩
    · refine hsh.of_sameTables (Inv.sameTables_freeze io s) fun m' hm' => ?_
      rcases memtablesFrom_freeze io s m' hm' with hle | hex
      · have := hinv.next_pos
        exact .inl (by omega)
      · exact .inr hex
    · rw [forceFreezeMemtable_state]
      exact freshMemtable_map s

/-- Closing `s` and its destruction leave what the store `z` has, which is `s` where there are logs,
and otherwise the store in which the memtables have been flushed. -/
structure Closed (E : Extern) (io : ManifestIO M) (log : M → List ManifestRecord)
    (s z : LsmStorageInner M) (r : Replay) (rs : ℕ → List (Bytes × Bytes)) : Prop where
  ok : (s.close E io).1 = .ok ()
  eq : z = if s.options.enable_wal then s else (s.close E io).2
  inv : Inv E z
  shape : z.Shape
  options : z.options = s.options
  l0_sstables : z.state.l0_sstables = (s.close E io).2.state.l0_sstables
  levels : z.state.levels = (s.close E io).2.state.levels
  get : ∀ k, (s.close E io).2.get E k = s.get E k
  view : ∀ k, z.state.view E k = s.state.view E k
  shutdown : s.shutdown E io = z.destroy
  replays : z.Replays log r
  kept : z.Kept E r (s.shutdown E io) rs
  map : ∀ m ∈ z.state.memtables, m.map = MemTable.replay (rs m.id)
  logged : ∀ m ∈ z.state.memtables, ∀ durable buffered, m.Logged E z.disk durable buffered →
    rs m.id = durable ++ buffered

/-- With logs, the destruction passes them on. -/
theorem closed_of_wal (io : ManifestIO M) (hinv : Inv E s) (hsh : s.Shape) (hrec : s.Recoverable E log)
    (hwal : s.options.enable_wal = true) : ∃ r rs, s.Closed E io log s r rs := by
  obtain ⟨r, hr, hl⟩ := hrec
  obtain ⟨rs, hkept⟩ := (destroy_killed hinv).kept hinv hr hl
  have hlogged : ∀ m ∈ s.state.memtables, ∀ durable buffered,
      m.Logged E s.disk durable buffered → rs m.id = durable ++ buffered := by
    intro m hm durable buffered hlog
    obtain ⟨torn, htorn, hfile⟩ := hkept.logs hwal m.id (hr.memtables m hm)
    rw [destroy_wals hinv hm hlog.wal, hlog.file, Option.map_some, Option.getD_some,
      ← Wal.frames_append] at hfile
    exact eq_of_frames (hkept.storable hwal m.id (hr.memtables m hm)) hlog.storable htorn hfile.symm
  have hshutdown : s.shutdown E io = s.destroy := shutdown_of_wal hwal
  refine ⟨r, rs, ⟨by rw [close_of_wal hwal], by rw [if_pos hwal], hinv, hsh, rfl, ?_, ?_, ?_,
    fun _ => rfl, hshutdown, hr, hshutdown ▸ hkept, fun m hm => ?_, hlogged⟩⟩
  · rw [close_of_wal hwal]
    rfl
  · rw [close_of_wal hwal]
    rfl
  · intro k
    rw [close_of_wal hwal]
    rfl
  · obtain ⟨durable, buffered, hlog⟩ := (hl hwal).logged m hm
    rw [hlogged m hm durable buffered hlog]
    exact hlog.map

/-- Without logs, closing flushes the memtables. -/
theorem closed_of_no_wal (hio : io.Lawful log) (hinv : Inv E s) (hsh : s.Shape)
    (hrec : s.Recoverable E log) (hsmall : s.ClosesSmall E io)
    (hwal : s.options.enable_wal = false) :
    ∃ r rs, s.Closed E io log (s.close E io).2 r rs := by
  obtain ⟨hinv₁, hsh₁, hrec₁, hopt₁, hmap₁, hview₁⟩ := closing_spec hio hinv hsh hrec
  obtain ⟨hok, himm', hinv', hsh', hrec', hopt', hmem', hview'⟩ :=
    flushAll_spec hio hinv₁ hsh₁ hrec₁ (hsmall hwal)
  rw [← close_of_no_wal hwal] at hok hinv' hsh' hrec' hopt' hmem' himm' hview'
  have hview : ∀ k, (s.close E io).2.state.view E k = s.state.view E k := fun k =>
    (hview' k).trans (hview₁ k)
  obtain ⟨z, hz⟩ : ∃ z, z = (s.close E io).2 := ⟨_, rfl⟩
  rw [← hz] at hinv' hsh' hrec' hopt' hmem' himm' hview ⊢
  have hmap : z.state.memtable.map = [] := by rw [hmem', hmap₁]
  have hopt : z.options = s.options := hopt'.trans hopt₁
  have hwal' : z.options.enable_wal = false := by rw [hopt, hwal]
  -- Closing the store once more does nothing.
  have hshutdown : s.shutdown E io = z.destroy := by
    have hclosing : z.closing io = z := by
      rw [closing, if_pos]
      rw [MemTable.isEmpty, hmap]
      rfl
    rw [shutdown, ← hz, close_of_no_wal hwal', hclosing, himm']
    rfl
  obtain ⟨r, hr, hl⟩ := hrec'
  obtain ⟨rs, hkept⟩ := (destroy_killed hinv').kept hinv' hr hl
  have hrs := hkept.volatile hwal'
  have hmems : ∀ m ∈ z.state.memtables, m.map = [] := by
    rw [LsmStorageState.memtables, himm', List.forall_mem_singleton]
    exact hmap
  refine ⟨r, rs, ⟨hok, by rw [hwal, hz]; rfl, hinv', hsh', hopt, by rw [hz], by rw [hz], fun k => ?_,
    hview, hshutdown, hr, hshutdown ▸ hkept, fun m hm => ?_, fun m hm durable buffered hlog => ?_⟩⟩
  · rw [← hz, get_spec hinv'.readable, get_spec hinv.readable, hview]
  · rw [hrs, hmems m hm]
    rfl
  · have hnil := hlog.map
    rw [hmems m hm, eq_comm, MemTable.replay_eq_nil_iff] at hnil
    rw [hrs, hnil]

/-- A session can be closed. -/
theorem exists_closed (hio : io.Lawful log) (hinv : Inv E s) (hsh : s.Shape)
    (hrec : s.Recoverable E log) (hsmall : s.ClosesSmall E io) :
    ∃ z r rs, s.Closed E io log z r rs := by
  rcases hwal : s.options.enable_wal with _ | _
  · obtain ⟨r, rs, h⟩ := closed_of_no_wal hio hinv hsh hrec hsmall hwal
    exact ⟨_, r, rs, h⟩
  · obtain ⟨r, rs, h⟩ := closed_of_wal io hinv hsh hrec hwal
    exact ⟨s, r, rs, h⟩

/-- A store that is opened where `s` has left everything. -/
theorem Reopened.recoverable {t : LsmStorageInner M} {r' : Replay}
    (h : s.Reopened E log r rs t r') : t.Recoverable E log := by
  refine ⟨r', h.replays, fun hwal => h.logs ?_⟩
  rwa [h.options] at hwal

/-- The next `open` finds what a closed session has left. -/
theorem Closed.reopened {z : LsmStorageInner M} (h : s.Closed E io log z r rs)
    (hio : io.Lawful log) : ∃ t r', LsmStorageInner.open E io (s.shutdown E io) s.options = .ok t ∧
      z.Reopened E log r rs t r' ∧ ∀ k, t.state.view E k = s.state.view E k := by
  obtain ⟨t, r', hopen, hre⟩ := open_spec hio h.inv h.replays h.kept.toLeft h.kept.manifest
  rw [h.options] at hopen
  refine ⟨t, r', hopen, hre, fun k => ?_⟩
  rw [hre.view, ← h.view, LsmStorageState.view_eq]
  refine firstValue_congr ?_
  rw [List.findSome?_append, List.findSome?_append]
  congr 1
  rcases hwal : z.options.enable_wal with _ | _
  · rw [leftMaps, if_neg (by simp [hwal]), List.findSome?_map, eq_comm, List.findSome?_nil,
      List.findSome?_eq_none_iff]
    intro m hm
    rw [Function.comp_apply, h.map m hm, h.kept.volatile hwal]
    rfl
  · exact h.replays.leftMaps_eq h.inv hwal (fun m hm => by rw [h.map m hm]) h.kept.stale

end LsmStorageInner

/-! ## Runs of sessions -/

/-- A step of a session, the end of it, or a crash. The next session opens the directory. -/
inductive SessionStep (M : Type) where
  | op (op : Op Unit)
  /-- `LsmStorageInner::sync` -/
  | sync
  /-- `MiniLsm::close`, the destruction, and `LsmStorageInner::open` -/
  | restart
  /-- The process ends, perhaps within a `put` that has written the entry. -/
  | crash (entry : Option (Bytes × Bytes)) (disk : Disk M)

/-- The store in which the process ends. -/
def LsmStorageInner.within {M : Type} (E : Extern) (s : LsmStorageInner M) :
    Option (Bytes × Bytes) → LsmStorageInner M
  | none => s
  | some (key, value) => s.write E key value

namespace Machine

variable {M : Type} {E : Extern} {io : ManifestIO M} {log : M → List ManifestRecord}
  {options : LsmStorageOptions} {c c' : Machine M Unit}

/-- The next session. -/
def reopen (E : Extern) (io : ManifestIO M) (c : Machine M Unit) (disk : Disk M) :
    Option (Machine M Unit) :=
  (LsmStorageInner.open E io disk c.store.options).toOption.map fun s => ⟨s, fun _ => none⟩

/-- A step. A session is closed with no compaction in flight. -/
def sessionStep (E : Extern) (io : ManifestIO M) (c : Machine M Unit) :
    SessionStep M → Option (Machine M Unit)
  | .op op => c.step E io op
  | .sync => some { c with store := c.store.sync }
  | .restart => if (c.calls ()).isSome then none else c.reopen E io (c.store.shutdown E io)
  | .crash _ disk => c.reopen E io disk

/-- The tables can store what a step writes, the table files keep to the format, and a crash leaves
what has been passed on. -/
structure Keeps (E : Extern) (io : ManifestIO M) (c : Machine M Unit) (step : SessionStep M) :
    Prop where
  storable : ∀ op, step = .op op → op.Storable
  small : ∀ op c', step = .op op → c.step E io op = some c' → c'.store.disk.Small
  closes : step = .restart → c.store.ClosesSmall E io
  entry : ∀ e disk, step = .crash (some e) disk → MiniLsm.Storable e
  killed : ∀ entry disk, step = .crash entry disk → (c.store.within E entry).Killed disk

/-- What holds in all sessions. -/
structure Session (E : Extern) (log : M → List ManifestRecord) (options : LsmStorageOptions)
    (c : Machine M Unit) : Prop where
  inv : c.Inv E
  options_eq : c.store.options = options
  current : c.AllCurrent
  recoverable : c.store.Recoverable E log

/-- A new store. -/
theorem Session.start (hio : io.Lawful log) (hsize : options.block_size ≤ 65536)
    (hv : options.compaction_options.Valid) :
    (Machine.start io options : Machine M Unit).Session E log options := by
  obtain ⟨r, hr, hmem⟩ := openFresh_replays hio options
  obtain ⟨m, hmems, hid, -⟩ := openFresh_memtables io Disk.empty options
  refine ⟨⟨openFresh_inv io Disk.empty hsize, openFresh_shape io Disk.empty hv,
    by simp [Machine.start]⟩, openFresh_options io Disk.empty options,
    by simp [AllCurrent, Machine.start], r, hr, fun hwal => ⟨fun m hm => ?_, fun id hid' hno => ?_⟩⟩
  · rw [Machine.start, openFresh_options] at hwal
    exact ⟨[], [], openFresh_logged E io hwal m hm⟩
  · rw [hmem, List.mem_singleton] at hid'
    refine absurd (hid.trans hid'.symm) (hno m ?_)
    rw [Machine.start, hmems]
    exact List.mem_singleton_self m

/-- A store that has been opened is the beginning of a session. -/
theorem Session.of_reopened {s t : LsmStorageInner M} {r r' : Replay}
    {rs : ℕ → List (Bytes × Bytes)} (h : s.Reopened E log r rs t r') (hsh : s.Shape)
    (hopt : s.options = options) : (⟨t, fun _ => none⟩ : Machine M Unit).Session E log options :=
  ⟨⟨h.inv, h.shape hsh, by simp⟩, h.options.trans hopt, by simp [AllCurrent], h.recoverable⟩

/-- The next session, behind one that has been closed. -/
theorem Session.restart (h : c.Session E log options) (hio : io.Lawful log)
    (hsmall : c.store.ClosesSmall E io) :
    ∃ z r rs t r', c.store.Closed E io log z r rs ∧
      LsmStorageInner.open E io (c.store.shutdown E io) c.store.options = .ok t ∧
      z.Reopened E log r rs t r' ∧ (∀ k, t.state.view E k = c.store.state.view E k) ∧
      (⟨t, fun _ => none⟩ : Machine M Unit).Session E log options := by
  obtain ⟨z, r, rs, hz⟩ := exists_closed hio h.inv.store h.inv.shape h.recoverable hsmall
  obtain ⟨t, r', hopen, hre, hview⟩ := hz.reopened hio
  exact ⟨z, r, rs, t, r', hz, hopen, hre, hview,
    .of_reopened hre hz.shape (hz.options.trans h.options_eq)⟩

/-- The store in which the process ends. -/
theorem Session.within (h : c.Session E log options) {entry : Option (Bytes × Bytes)}
    (hs : ∀ e, entry = some e → MiniLsm.Storable e) :
    LsmStorageInner.Inv E (c.store.within E entry) ∧ (c.store.within E entry).Shape ∧
      (c.store.within E entry).Recoverable E log := by
  rcases entry with _ | ⟨key, value⟩
  · exact ⟨h.inv.store, h.inv.shape, h.recoverable⟩
  · have hw := h.inv.of_sameTables (h.inv.store.write (hs _ rfl)) (Inv.sameTables_write _ key value)
      (memtablesFrom_write _ key value)
    exact ⟨hw.store, hw.shape, h.recoverable.write (hs _ rfl)⟩

/-- The next session, behind one in which the process has ended. -/
theorem Session.crash (h : c.Session E log options) (hio : io.Lawful log)
    {entry : Option (Bytes × Bytes)} {disk : Disk M}
    (hs : ∀ e, entry = some e → MiniLsm.Storable e)
    (hk : (c.store.within E entry).Killed disk) :
    ∃ r rs t r', (c.store.within E entry).Kept E r disk rs ∧
      (c.store.within E entry).Replays log r ∧
      LsmStorageInner.open E io disk c.store.options = .ok t ∧
      (c.store.within E entry).Reopened E log r rs t r' ∧
      (⟨t, fun _ => none⟩ : Machine M Unit).Session E log options := by
  obtain ⟨hinv, hsh, r, hr, hl⟩ := h.within hs
  obtain ⟨rs, hkept⟩ := hk.kept hinv hr hl
  have hopt : (c.store.within E entry).options = c.store.options := by
    rcases entry with _ | e <;> rfl
  obtain ⟨t, r', hopen, hre⟩ := open_spec hio hinv hr hkept.toLeft hkept.manifest
  rw [hopt] at hopen
  exact ⟨r, rs, t, r', hkept, hr, hopen, hre, .of_reopened hre hsh (hopt.trans h.options_eq)⟩

/-- `sync` keeps what holds in all sessions. -/
theorem Session.sync (h : c.Session E log options) :
    Session E log options { c with store := c.store.sync } := by
  refine ⟨h.inv.of_sameTables h.inv.store.sync (sync_sameTables c.store) fun m' hm' => ?_,
    h.options_eq, h.current, h.recoverable.sync h.inv.store⟩
  rw [sync_memtables] at hm'
  rcases List.mem_cons.mp hm' with rfl | hm'
  · exact .inr ⟨_, List.mem_cons_self, rfl⟩
  · exact .inr ⟨m', List.mem_cons_of_mem _ hm', rfl⟩

/-- An operation, of a controller whose compactions are in order. -/
theorem Session.op (h : c.Session E log options) (hio : io.Lawful log)
    (hv : options.compaction_options.Valid) {op : Op Unit} (hs : op.Storable)
    (hcov : ∀ t, c.store.generateTask E = some (.tiered t) → c.store.Covered E t)
    (happ : c.Appends op) (hstep : c.step E io op = some c') (hsmall : c'.store.disk.Small) :
    c'.Session E log options :=
  have hadm : c.Admits E op := ⟨h.current.serial op, fun _ t _ ht => hcov t ht⟩
  ⟨h.inv.step (by rwa [h.options_eq]) hadm hs hstep hsmall,
    (step_options hstep).trans h.options_eq, h.current.step hstep,
    step_recoverable hio h.recoverable h.inv happ hs hstep hsmall⟩

/-- What a step of `reopen` leads to. -/
theorem reopen_eq_some {disk : Disk M} {t : LsmStorageInner M}
    (hopen : LsmStorageInner.open E io disk c.store.options = .ok t)
    (h : c.reopen E io disk = some c') : c' = ⟨t, fun _ => none⟩ := by
  rw [reopen, hopen] at h
  cases h
  rfl

/-- A step keeps what holds in all sessions. -/
theorem Session.step (h : c.Session E log options) (hio : io.Lawful log)
    (hv : options.compaction_options.Valid) {step : SessionStep M} (hk : c.Keeps E io step)
    (hcov : ∀ t, c.store.generateTask E = some (.tiered t) → c.store.Covered E t)
    (happ : ∀ op, step = .op op → c.Appends op) (hstep : c.sessionStep E io step = some c') :
    c'.Session E log options := by
  cases step with
  | op op =>
    exact h.op hio hv (hk.storable op rfl) hcov (happ op rfl) hstep (hk.small op c' rfl hstep)
  | sync =>
    cases hstep
    exact h.sync
  | restart =>
    obtain ⟨-, -, -, t, -, -, hopen, -, -, ht⟩ := h.restart hio (hk.closes rfl)
    rw [sessionStep] at hstep
    split_ifs at hstep
    rw [reopen_eq_some hopen hstep]
    exact ht
  | crash entry disk =>
    obtain ⟨-, -, t, -, -, -, hopen, -, ht⟩ := h.crash hio
      (fun e he => hk.entry e disk (by rw [he])) (hk.killed entry disk rfl)
    rw [reopen_eq_some hopen hstep]
    exact ht

/-- A session without a compaction in flight can be followed by another one. -/
theorem Session.exists_restart (h : c.Session E log options) (hio : io.Lawful log)
    (hidle : (c.calls ()).isSome = false) (hsmall : c.store.ClosesSmall E io) :
    ∃ c', c.sessionStep E io .restart = some c' ∧ (c'.calls ()).isSome = false := by
  obtain ⟨-, -, -, t, -, -, hopen, -⟩ := h.restart hio hsmall
  refine ⟨⟨t, fun _ => none⟩, ?_, rfl⟩
  rw [sessionStep, hidle, reopen, hopen]
  rfl

/-- The process may end at any time. -/
theorem Session.exists_crash (h : c.Session E log options) (hio : io.Lawful log)
    {entry : Option (Bytes × Bytes)} {disk : Disk M}
    (hs : ∀ e, entry = some e → MiniLsm.Storable e)
    (hk : (c.store.within E entry).Killed disk) :
    ∃ c', c.sessionStep E io (.crash entry disk) = some c' ∧ (c'.calls ()).isSome = false := by
  obtain ⟨-, -, t, -, -, -, hopen, -, -⟩ := h.crash hio hs hk
  refine ⟨⟨t, fun _ => none⟩, ?_, rfl⟩
  rw [sessionStep, reopen, hopen]
  rfl

/-- A controller of `Plain` has no leveled tasks. -/
theorem Session.appends_of_plain (h : c.Session E log options)
    (hplain : options.compaction_options.Plain) (op : Op Unit) : c.Appends op := by
  intro i call ts t _ hi _ ht
  have hfits := (h.inv.calls i call hi (h.current i call hi)).fits
  rw [ht, h.options_eq] at hfits
  unfold CompactionTask.Fits at hfits
  split at hfits
  case h_4 ho ht' =>
    rw [ho] at hplain
    exact hplain.elim
  all_goals simp_all

/-- Every run of a plain controller keeps what holds in all sessions. -/
theorem Session.of_steps (hio : io.Lawful log) (hsize : options.block_size ≤ 65536)
    (hplain : options.compaction_options.Plain) {steps : List (SessionStep M)}
    (h : Steps (sessionStep E io) (Keeps E io) (Machine.start io options) steps c) :
    c.Session E log options := by
  refine h.invariant (.start hio hsize hplain.valid) fun c step c' hc hk hstep => ?_
  have hp : c.store.options.compaction_options.Plain := by rwa [hc.options_eq]
  exact hc.step hio hplain.valid hk (fun t ht => (generateTask_sound hp ht).2 t rfl)
    (fun op _ => hc.appends_of_plain hplain op) hstep

/-- In any session, a flush of a frozen memtable leaves tables that are not durable. -/
theorem Session.flush_not_durable (h : c.Session E log options) (hio : io.Lawful log)
    (himm : c.store.state.imm_memtables ≠ [])
    (hsmall : (c.store.forceFlushNextImmMemtable E io).2.disk.Small) :
    ¬ (c.store.forceFlushNextImmMemtable E io).2.DurableTables log := by
  obtain ⟨r, hr, -⟩ := h.recoverable
  exact LsmStorageInner.flush_not_durable hio hr.journaled hr.replay_eq himm
    (flush_spec h.inv.store himm hsmall).1

/-- `sync` asks for nothing. -/
theorem Keeps.sync : c.Keeps E io .sync where
  storable := nofun
  small := nofun
  closes := nofun
  entry := nofun
  killed := nofun

/-- A restart asks for small files. -/
theorem Keeps.restart (h : c.store.ClosesSmall E io) : c.Keeps E io .restart where
  storable := nofun
  small := nofun
  closes := fun _ => h
  entry := nofun
  killed := nofun

/-- A crash leaves what has been passed on. -/
theorem Keeps.crash {entry : Option (Bytes × Bytes)} {disk : Disk M}
    (hs : ∀ e, entry = some e → MiniLsm.Storable e)
    (hk : (c.store.within E entry).Killed disk) : c.Keeps E io (.crash entry disk) where
  storable := nofun
  small := nofun
  closes := nofun
  entry := fun e disk' he => by
    cases he
    exact hs e rfl
  killed := fun entry' disk' he => by
    cases he
    exact hk

/-- A run of the store is a session. -/
theorem Run.session_steps {P : Machine M Unit → Op Unit → Prop} {ops : List (Op Unit)}
    (h : Run E io options P ops c) :
    Steps (sessionStep E io) (fun c step => c.Keeps E io step ∧ ∀ op, step = .op op → P c op)
      (Machine.start io options) (ops.map .op) c := by
  induction h with
  | start => exact .refl
  | @step ops c c' op _ hP hs hstep hsmall ih =>
    rw [List.map_append, List.map_singleton]
    refine ih.snoc ⟨⟨?_, ?_, nofun, nofun, nofun⟩, ?_⟩ hstep
    · rintro op' he
      cases he
      exact hs
    · rintro op' c'' he hstep'
      cases he
      cases hstep.symm.trans hstep'
      exact hsmall
    · rintro op' he
      cases he
      exact hP

end Machine

/-! ## Opening a store again -/

namespace Sessions

open Machine

variable {M : Type} {E : Extern} {io : ManifestIO M} {log : M → List ManifestRecord}
  {options : LsmStorageOptions} {c : Machine M Unit}

/-- After any number of sessions of a plain controller, closed or crashed, a store that is closed is
opened again with the same tables in the same order and every key with the same value. The
identifiers of its memtables and tables are distinct and below the counter. -/
theorem reopen_eq (hio : io.Lawful log) (hsize : options.block_size ≤ 65536)
    (hplain : options.compaction_options.Plain) {steps : List (SessionStep M)}
    (h : Steps (sessionStep E io) (Keeps E io) (Machine.start io options) steps c)
    (hsmall : c.store.ClosesSmall E io) :
    (c.store.close E io).1 = .ok () ∧
      ∃ t, LsmStorageInner.open E io (c.store.shutdown E io) options = .ok t ∧
        t.state.l0_sstables = (c.store.close E io).2.state.l0_sstables ∧
        t.state.levels = (c.store.close E io).2.state.levels ∧
        (∀ k, (c.store.close E io).2.get E k = c.store.get E k ∧ t.get E k = c.store.get E k) ∧
        (t.state.memtables.map MemTable.id ++ t.state.tableIds).Nodup ∧
        ∀ id ∈ t.state.memtables.map MemTable.id ++ t.state.tableIds, id < t.next_sst_id := by
  have hc := Session.of_steps hio hsize hplain h
  obtain ⟨z, r, rs, t, r', hz, hopen, hre, hview, ht⟩ := hc.restart hio hsmall
  rw [hc.options_eq] at hopen
  have hinv : Inv E t := ht.inv.store
  refine ⟨hz.ok, t, hopen, hre.l0_sstables.trans hz.l0_sstables, hre.levels.trans hz.levels,
    fun k => ⟨hz.get k, ?_⟩, ?_, ?_⟩
  · rw [get_spec hinv.readable, get_spec hc.inv.store.readable, hview]
  · refine List.nodup_append.mpr ⟨hinv.mem_ids.imp ne_of_gt, hinv.nodup, ?_⟩
    rintro a ha b hb rfl
    obtain ⟨m, hm, rfl⟩ := List.mem_map.mp ha
    exact hinv.mem_ids_disjoint m hm hb
  · intro id hid
    rcases List.mem_append.mp hid with hid | hid
    · obtain ⟨m, hm, rfl⟩ := List.mem_map.mp hid
      exact hinv.mem_ids_lt m hm
    · exact hinv.ids_lt id hid

/-- Steps that have been checked are a session. -/
theorem exists_session {ops : List (Op Unit)} (q : Machine M Unit → Bool)
    (h : ((Machine.start io options).check E io (fun _ _ => true) ops).any q = true) :
    ∃ c, Steps (sessionStep E io) (Keeps E io) (Machine.start io options) (ops.map .op) c ∧
      q c = true := by
  obtain ⟨c, hrun, hq⟩ := exists_run (P := fun _ _ => True) q (fun _ _ _ => trivial) h
  exact ⟨c, hrun.session_steps.imp (I := fun _ => True) trivial (fun _ _ _ _ _ _ => trivial)
    fun _ _ _ hk => hk.1, hq⟩

/-- With logs, closing a store writes no tables. -/
theorem closesSmall_of_wal {s : LsmStorageInner M} (hwal : s.options.enable_wal = true) :
    s.ClosesSmall E io := by
  intro hoff
  rw [hwal] at hoff
  cases hoff

/-- With logs, every session can be synced, crash within a write, and be closed behind that. -/
theorem exists_sessions (hio : io.Lawful log) (hsize : options.block_size ≤ 65536)
    (hplain : options.compaction_options.Plain) (hwal : options.enable_wal = true)
    {steps : List (SessionStep M)}
    (h : Steps (sessionStep E io) (Keeps E io) (Machine.start io options) steps c)
    {e : Bytes × Bytes} (he : MiniLsm.Storable e) :
    ∃ disk c', Steps (sessionStep E io) (Keeps E io) c [.sync, .crash (some e) disk, .restart] c' := by
  have hst : ∀ e', some e = some e' → MiniLsm.Storable e' := by
    rintro e' heq
    cases heq
    exact he
  have hc := Session.of_steps hio hsize hplain (h.snoc .sync rfl)
  -- Nothing is passed on in the crash.
  have hk := killed_self (LsmStorageInner.within E c.store.sync (some e))
  obtain ⟨c₁, hcrash, hidle⟩ := hc.exists_crash hio hst hk
  have h₁ : Steps (sessionStep E io) (Keeps E io) c [.sync, .crash (some e) _] c₁ :=
    (Steps.refl.snoc .sync rfl).snoc (.crash hst hk) hcrash
  have hc₁ := Session.of_steps hio hsize hplain (h.append h₁)
  have hsmall : c₁.store.ClosesSmall E io := closesSmall_of_wal (by rw [hc₁.options_eq, hwal])
  obtain ⟨c', hstep, -⟩ := hc₁.exists_restart hio hidle hsmall
  exact ⟨_, c', h₁.snoc (.restart hsmall) hstep⟩

/-- A store with logs, whose tables are compacted by full compactions. -/
def withLogs : LsmStorageOptions := { enable_wal := true }

/-- Its controller is one of the plain ones. -/
theorem withLogs_plain : withLogs.compaction_options.Plain := trivial

/-- A full compaction of two tables, and a write behind it. -/
def compactedTables : List (Op Unit) :=
  [.put [97] [49], .freeze, .flush, .put [97] [50], .del [98], .freeze, .flush, .full (),
    .compact (), .apply (), .put [99] [51]]

/-- The tables are compacted, a write is lost with the process, and the store is opened again twice.
-/
theorem reopen_eq_compacted :
    ∃ (disk : Disk (List ManifestRecord)) (c : Machine (List ManifestRecord) Unit)
      (t : LsmStorageInner (List ManifestRecord)),
      Steps (sessionStep .lib .list) (Keeps .lib .list)
        (Machine.start .list withLogs)
        (compactedTables.map .op ++ [.sync, .crash (some ([100], [52])) disk, .restart]) c ∧
      LsmStorageInner.open .lib .list (c.store.shutdown .lib .list) withLogs = .ok t ∧
      t.get .lib [97] = c.store.get .lib [97] := by
  obtain ⟨c₁, h₁, -⟩ := exists_session (E := .lib) (fun _ => true)
    (show ((Machine.start ManifestIO.list withLogs).check _ _ _
      compactedTables).any _ = true by decide +kernel)
  obtain ⟨disk, c, h₂⟩ := exists_sessions ManifestIO.list_lawful (by decide) withLogs_plain rfl h₁
    (show MiniLsm.Storable ([100], [52]) by decide)
  have h := h₁.append h₂
  have hc := Session.of_steps ManifestIO.list_lawful (by decide) withLogs_plain h
  obtain ⟨-, t, hopen, -, -, hget, -⟩ := reopen_eq ManifestIO.list_lawful (by decide) withLogs_plain h
    (closesSmall_of_wal (by rw [hc.options_eq]; rfl))
  exact ⟨disk, c, t, h, hopen, (hget [97]).2⟩

/-- Stores with the same values scan the same entries. -/
theorem scan_eq {s t : LsmStorageInner M} (hs : Inv E s) (ht : Inv E t)
    (hview : ∀ k, t.state.view E k = s.state.view E k) (lower upper : Bound) :
    ∃ it it' l, s.scan E lower upper = .ok it ∧ t.scan E lower upper = .ok it' ∧
      Yields it l ∧ Yields it' l := by
  obtain ⟨it, hit, l, hy, hl, hmem⟩ := scan_spec hs.readable lower upper
  obtain ⟨it', hit', l', hy', hl', hmem'⟩ := scan_spec ht.readable lower upper
  have heq : l' = l := by
    refine Assoc.ext_of_lookup hl' hl fun k => Option.ext fun v => ?_
    rw [Assoc.lookup_eq_some_iff hl', Assoc.lookup_eq_some_iff hl, hmem', hmem, hview]
  exact ⟨it, it', l, hit, hit', hy, heq ▸ hy'⟩

/-- With the controllers with levels, after any number of sessions whose leveled compactions append
to their levels, a store that is closed is opened again with the same tables in the same order. Each
level is in order, and every scan yields what it has yielded before. -/
theorem leveled_reopen_eq (hio : io.Lawful log) (hsize : options.block_size ≤ 65536)
    (hlevels : options.compaction_options.Leveling) {steps : List (SessionStep M)}
    (h : Steps (sessionStep E io)
      (fun c step => c.Keeps E io step ∧ ∀ op, step = .op op → c.Appends op)
      (Machine.start io options) steps c)
    (hsmall : c.store.ClosesSmall E io) :
    (c.store.close E io).1 = .ok () ∧
      ∃ t, LsmStorageInner.open E io (c.store.shutdown E io) options = .ok t ∧
        t.state.l0_sstables = (c.store.close E io).2.state.l0_sstables ∧
        t.state.levels = (c.store.close E io).2.state.levels ∧
        t.state.Structured E ∧
        (∀ k, t.get E k = c.store.get E k) ∧
        ∀ lower upper, ∃ it it' l, c.store.scan E lower upper = .ok it ∧
          t.scan E lower upper = .ok it' ∧ Yields it l ∧ Yields it' l := by
  have hc : c.Session E log options := by
    refine h.invariant (.start hio hsize hlevels.valid) fun c step c' hc hk hstep => ?_
    have hl : c.store.options.compaction_options.Leveling := by rwa [hc.options_eq]
    exact hc.step hio hlevels.valid hk.1 (fun t ht => absurd ht (hl.generateTask_ne t)) hk.2 hstep
  obtain ⟨z, r, rs, t, r', hz, hopen, hre, hview, ht⟩ := hc.restart hio hsmall
  rw [hc.options_eq] at hopen
  have hinv : Inv E t := ht.inv.store
  refine ⟨hz.ok, t, hopen, hre.l0_sstables.trans hz.l0_sstables, hre.levels.trans hz.levels,
    hinv.state_structured, fun k => ?_, scan_eq hc.inv.store hinv hview⟩
  rw [get_spec hinv.readable, get_spec hc.inv.store.readable, hview]

/-- Whether a level has nothing to sort can be computed. -/
instance (t : LeveledCompactionTask) (st : LsmStorageState) (output : List ℕ) :
    Decidable (t.InPlace st output) :=
  inferInstanceAs (Decidable (List.Pairwise (fun x y =>
    LeveledCompactionController.sstLt st y x = false) (t.unsortedLower st output)))

/-- Whether a step appends to its level. -/
def appends (c : Machine M Unit) : Op Unit → Bool
  | .apply i => (c.calls i).all fun call => call.sstables.all fun ts =>
    match call.task with
    | .leveled t => decide (t.InPlace (c.store.withTables ts) (ts.map SsTable.id))
    | _ => true
  | _ => true

/-- What the test decides. -/
theorem appends_of_eq_true (c : Machine M Unit) (op : Op Unit) (h : appends c op = true) :
    c.Appends op := by
  rintro i call ts t rfl hi hts ht
  rw [appends, hi, Option.all_some, hts, Option.all_some, ht] at h
  exact of_decide_eq_true h

/-- A store with a leveled controller that has one level. -/
def oneLevel : LsmStorageOptions :=
  { enable_wal := true, compaction_options := .leveled ⟨1, 1, 1, 0⟩ }

/-- The second table lies behind the first one. -/
def ascendingTables : List (Op Unit) :=
  [.put [97] [49], .freeze, .flush, .trigger (), .compact (), .apply (),
    .put [109] [49], .freeze, .flush, .trigger (), .compact (), .apply ()]

/-- The level is opened again in its order. -/
theorem leveled_reopen_eq_ascending :
    ∃ (c : Machine (List ManifestRecord) Unit) (t : LsmStorageInner (List ManifestRecord)),
      LsmStorageInner.open .lib .list (c.store.shutdown .lib .list) oneLevel = .ok t ∧
      t.state.levels = [(1, [2, 4])] ∧ t.state.Structured .lib := by
  obtain ⟨c, hrun, hc⟩ := exists_run (E := .lib) (fun c =>
      decide (c.store.options.enable_wal = true) && decide (c.store.state.levels = [(1, [2, 4])]))
    appends_of_eq_true
    (show ((Machine.start ManifestIO.list oneLevel).check _ _ _ ascendingTables).any _ = true by
      decide +kernel)
  rw [Bool.and_eq_true, decide_eq_true_eq, decide_eq_true_eq] at hc
  obtain ⟨hwal, hlev⟩ := hc
  have hlevels : oneLevel.compaction_options.Leveling := ⟨by decide, by decide⟩
  obtain ⟨-, t, hopen, -, heq, hstr, -⟩ := leveled_reopen_eq ManifestIO.list_lawful (by decide)
    hlevels hrun.session_steps (closesSmall_of_wal hwal)
  rw [close_of_wal hwal] at heq
  exact ⟨c, t, hopen, heq.trans hlev, hstr⟩

/-- The second table lies before the first one. The store sorts the level, and the replay appends to
it. -/
def descendingTables : List (Op Unit) :=
  [.put [109] [49], .freeze, .flush, .trigger (), .compact (), .apply (),
    .put [97] [49], .freeze, .flush, .trigger (), .compact (), .apply ()]

/-- Without the condition on the leveled compactions the order of a level may be another one. -/
theorem not_leveled_reopen_eq :
    ¬ ∀ (steps : List (SessionStep (List ManifestRecord)))
      (c : Machine (List ManifestRecord) Unit) (t : LsmStorageInner (List ManifestRecord)),
      Steps (sessionStep .lib .list) (Keeps .lib .list) (Machine.start .list oneLevel) steps c →
      LsmStorageInner.open .lib .list (c.store.shutdown .lib .list) oneLevel = .ok t →
      t.state.levels = (c.store.close .lib .list).2.state.levels := by
  intro h
  obtain ⟨c, hrun, hc⟩ := exists_session (E := .lib)
    (fun c : Machine (List ManifestRecord) Unit =>
      decide ((c.store.close .lib .list).2.state.levels = [(1, [4, 2])]) &&
      (LsmStorageInner.open .lib .list (c.store.shutdown .lib .list) oneLevel).toOption.any
        fun t : LsmStorageInner (List ManifestRecord) =>
          decide (t.state.levels = [(1, [2, 4])]))
    (show ((Machine.start ManifestIO.list oneLevel).check _ _ _ descendingTables).any _ = true by
      decide +kernel)
  rw [Bool.and_eq_true, decide_eq_true_eq, Option.any_eq_true] at hc
  obtain ⟨hlev, t, hopen, hlev'⟩ := hc
  rcases ht : LsmStorageInner.open .lib .list (c.store.shutdown .lib .list) oneLevel with e | t'
  · rw [ht] at hopen
    cases hopen
  · rw [ht] at hopen
    cases hopen
    have heq := h _ c t hrun ht
    rw [hlev, of_decide_eq_true hlev'] at heq
    cases heq

end Sessions

end MiniLsm
