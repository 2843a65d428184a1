import MiniLsm.Exec
import MiniLsm.Recovery

/-!
# What sync makes durable

A store with logs that one thread uses, until the process crashes. `LsmStorageInner::sync` passes on
the buffer of the active memtable's log. The frozen memtables have logs of their own, whose buffers
it leaves as they are, so that a write that was frozen before the `sync` is lost in a crash
(`not_synced_get_eq_freeze`). What has no record left in those buffers is read again after the crash
(`synced_get_eq`).

`Durable K` is the invariant behind the `sync`: no record of a key in `K` is left in a buffer.
-/

namespace MiniLsm

open LsmStorageInner

/-- A step of a store that one thread uses. -/
inductive StoreOp where
  | put (key value : Bytes)
  | del (key : Bytes)
  | freeze
  | flush
  | sync

namespace StoreOp

/-- The entry that a step writes. -/
def entry : StoreOp → Option (Bytes × Bytes)
  | put key value => some (key, value)
  | del key => some (key, [])
  | _ => none

end StoreOp

namespace LsmStorageInner

variable {M : Type}

/-- A step. A memtable is not frozen while it is empty. -/
def storeStep (E : Extern) (io : ManifestIO M) (s : LsmStorageInner M) :
    StoreOp → Option (LsmStorageInner M)
  | .put key value => some (s.put E io key value)
  | .del key => some (s.del E io key)
  | .freeze => if s.state.memtable.isEmpty then none else some (s.forceFreezeMemtable io)
  | .flush => some (s.forceFlushNextImmMemtable E io).2
  | .sync => some s.sync

/-- The tables can store what the step writes, and the table files keep to the format. -/
structure Stores (E : Extern) (io : ManifestIO M) (s : LsmStorageInner M) (op : StoreOp) : Prop where
  storable : ∀ e, op.entry = some e → Storable e
  small : ∀ s', s.storeStep E io op = some s' → s'.disk.Small

/-- The stores that a crash in the middle of a step may find: `put` writes before it freezes the
memtable. -/
def during (E : Extern) (s : LsmStorageInner M) : StoreOp → List (LsmStorageInner M)
  | .put key value => [s, s.write E key value]
  | .del key => [s, s.write E key []]
  | _ => [s]

/-- What a crash of the process leaves: the manifest, the files of the tables, and in each log of a
memtable some of the bytes that have not been passed on. There may be more files, which a step has
begun and not recorded. -/
structure Crashed (s : LsmStorageInner M) (disk : Disk M) : Prop where
  manifest : disk.manifest = s.disk.manifest
  ssts : ∀ id ∈ s.state.tableIds, disk.ssts id = s.disk.ssts id
  wals : ∀ m ∈ s.state.memtables, ∀ w, m.wal = some w →
    ∃ n, disk.wals m.id = (s.disk.wals m.id).map fun b => b ++ w.buffered.take n

end LsmStorageInner

/-- The records whose frames are in the buffer of the log. -/
def MemTable.bufferedRecords (E : Extern) (m : MemTable) : List (Bytes × Bytes) :=
  match m.wal with
  | none => []
  | some w => (Wal.recover E w.buffered).1

/-- The records of the buffer are those that the file does not have. -/
theorem MemTable.Logged.bufferedRecords_eq {E : Extern} {M : Type} {disk : Disk M} {m : MemTable}
    {durable buffered : List (Bytes × Bytes)} (h : m.Logged E disk durable buffered) :
    m.bufferedRecords E = buffered := by
  have hfits : ∀ e ∈ buffered, Wal.Fits e := fun e he =>
    (h.storable e (List.mem_append_right _ he)).fits
  have hrec := Wal.recover_frames E hfits (.inl rfl)
  rw [List.append_nil] at hrec
  rw [MemTable.bufferedRecords, h.wal]
  dsimp only
  rw [hrec]

namespace LsmStorageInner

variable {M : Type}

/-! ## The invariant -/

variable {E : Extern} {io : ManifestIO M} {log : M → List ManifestRecord}
  {s s' t u : LsmStorageInner M} {disk : Disk M} {K K' : Bytes → Prop}

/-- What `sync` does to a log: its buffer is passed on. -/
def syncedMemtable (s : LsmStorageInner M) : MemTable :=
  { s.state.memtable with wal := s.state.memtable.wal.map fun _ => ⟨[]⟩ }

/-- `sync` changes the active memtable only. -/
theorem sync_memtables (s : LsmStorageInner M) :
    s.sync.state.memtables = s.syncedMemtable :: s.state.imm_memtables := rfl

/-- Passing a log on touches no table file. -/
theorem flushWal_ssts (disk : Disk M) (m : MemTable) : (flushWal disk m).ssts = disk.ssts := by
  rw [flushWal]
  split <;> rfl

/-- Passing a log on adds no record to the manifest. -/
theorem flushWal_manifest (disk : Disk M) (m : MemTable) :
    (flushWal disk m).manifest = disk.manifest := by
  rw [flushWal]
  split <;> rfl

/-- The other logs are not touched. -/
theorem flushWal_wals_of_ne (disk : Disk M) {m : MemTable} {id : ℕ} (h : id ≠ m.id) :
    (flushWal disk m).wals id = disk.wals id := by
  rw [flushWal]
  split
  · rfl
  · exact Function.update_of_ne h _ _

/-- `sync` changes no table. -/
theorem sync_sameTables (s : LsmStorageInner M) : Inv.SameTables s s.sync :=
  ⟨rfl, rfl, rfl, rfl, fun _ _ => congrFun (flushWal_ssts s.disk s.state.memtable) _, le_rfl⟩

/-- `sync` keeps the invariant. -/
theorem Inv.sync (h : Inv E s) : Inv E s.sync := by
  have hold : s.state.memtables = s.state.memtable :: s.state.imm_memtables := rfl
  have hfirst : s.state.memtable ∈ s.state.memtables := List.mem_cons_self
  have hrest : ∀ m ∈ s.state.imm_memtables, m ∈ s.state.memtables := fun m hm =>
    List.mem_cons_of_mem _ hm
  have hids := h.mem_ids
  rw [hold] at hids
  refine h.of_sameTables (sync_sameTables s) ?_ ?_ h.imm_ne_nil hids ?_ ?_
  all_goals rw [sync_memtables, List.forall_mem_cons]
  · exact ⟨h.mem_sorted s.state.memtable hfirst, fun m hm => h.mem_sorted m (hrest m hm)⟩
  · exact ⟨h.mem_storable s.state.memtable hfirst, fun m hm => h.mem_storable m (hrest m hm)⟩
  · exact ⟨h.mem_ids_disjoint s.state.memtable hfirst, fun m hm =>
      h.mem_ids_disjoint m (hrest m hm)⟩
  · exact ⟨h.mem_ids_lt s.state.memtable hfirst, fun m hm => h.mem_ids_lt m (hrest m hm)⟩

/-- `sync` passes on the buffer of the active memtable. -/
theorem syncedMemtable_logged {durable buffered : List (Bytes × Bytes)}
    (h : s.state.memtable.Logged E s.disk durable buffered) :
    s.syncedMemtable.Logged E s.sync.disk (durable ++ buffered) [] := by
  have hdisk : s.sync.disk.wals s.state.memtable.id =
      some (Wal.frames E (durable ++ buffered)) := by
    rw [LsmStorageInner.sync, flushWal, h.wal]
    dsimp only
    rw [Function.update_self, h.file, Option.map_some, Wal.frames_append]
  refine ⟨?_, hdisk, ?_, ?_⟩
  · rw [syncedMemtable, h.wal]
    rfl
  · rw [List.append_nil]
    exact h.storable
  · rw [List.append_nil]
    exact h.map

/-- The other logs are as they were. -/
theorem Inv.sync_wals (h : Inv E s) {m : MemTable} (hm : m ∈ s.state.imm_memtables) :
    s.sync.disk.wals m.id = s.disk.wals m.id := by
  have hids := h.mem_ids
  rw [show s.state.memtables = s.state.memtable :: s.state.imm_memtables from rfl, List.map_cons,
    List.pairwise_cons] at hids
  exact flushWal_wals_of_ne s.disk (hids.1 m.id (List.mem_map_of_mem hm)).ne

/-- The manifest lists what it has listed. -/
theorem Replays.sync {r : Replay} (h : s.Replays log r) : s.sync.Replays log r := by
  refine h.of_sameTables (sync_sameTables s) rfl (flushWal_manifest s.disk s.state.memtable) ?_
  intro m' hm'
  rw [sync_memtables] at hm'
  rcases List.mem_cons.mp hm' with rfl | hm'
  · exact ⟨_, List.mem_cons_self, rfl⟩
  · exact ⟨m', List.mem_cons_of_mem _ hm', rfl⟩

/-- The manifest and the logs have the state of the store, and the buffers of the logs have no
record of a key in `K`. -/
structure Durable (E : Extern) (log : M → List ManifestRecord) (K : Bytes → Prop)
    (s : LsmStorageInner M) : Prop where
  inv : Inv E s
  enable_wal : s.options.enable_wal = true
  replays : ∃ r, s.Replays log r ∧ ∀ id ∈ r.memtables, ∃ m ∈ s.state.memtables, m.id = id
  logged : ∀ m ∈ s.state.memtables, ∃ durable buffered,
    m.Logged E s.disk durable buffered ∧ ∀ e ∈ buffered, ¬ K e.1

namespace Durable

/-- A write of another key may stay in the buffer. -/
theorem write (h : s.Durable E log K) {key value : Bytes} (hs : Storable (key, value))
    (hk : ¬ K key) : (s.write E key value).Durable E log K := by
  obtain ⟨r, hr, hmem⟩ := h.replays
  refine ⟨h.inv.write hs, h.enable_wal, ⟨r, hr.write key value, fun id hid => ?_⟩, fun m hm => ?_⟩
  · obtain ⟨m, hm, rfl⟩ := hmem id hid
    rcases List.mem_cons.mp hm with rfl | hm
    · exact ⟨_, List.mem_cons_self, rfl⟩
    · exact ⟨m, List.mem_cons_of_mem _ hm, rfl⟩
  · rcases List.mem_cons.mp hm with rfl | hm
    · obtain ⟨durable, buffered, hlog, hno⟩ := h.logged s.state.memtable List.mem_cons_self
      refine ⟨durable, buffered ++ [(key, value)], hlog.put hs, fun e he => ?_⟩
      rcases List.mem_append.mp he with he | he
      · exact hno e he
      · rw [List.mem_singleton.mp he]
        exact hk
    · exact h.logged m (List.mem_cons_of_mem _ hm)

/-- The new memtable has an empty log. -/
theorem freeze (h : s.Durable E log K) (hio : io.Lawful log) (hne : s.state.memtable.map ≠ []) :
    (s.forceFreezeMemtable io).Durable E log K := by
  obtain ⟨r, hr, hmem⟩ := h.replays
  obtain ⟨r', hr', hids⟩ := hr.freeze hio
  have hmems : (s.forceFreezeMemtable io).state.memtables =
      s.freshMemtable :: s.state.memtables := by
    rw [forceFreezeMemtable_state]
    rfl
  refine ⟨h.inv.freeze io hne, by rw [forceFreezeMemtable_options, h.enable_wal], ⟨r', hr', ?_⟩, ?_⟩
  · intro id hid
    rw [hmems]
    rcases hids id hid with hid | rfl
    · obtain ⟨m, hm, hmid⟩ := hmem id hid
      exact ⟨m, List.mem_cons_of_mem _ hm, hmid⟩
    · exact ⟨_, List.mem_cons_self, freshMemtable_id s⟩
  · rw [hmems, List.forall_mem_cons]
    refine ⟨⟨[], [], Logs.freshMemtable_logged h.enable_wal io, by simp⟩, fun m hm => ?_⟩
    obtain ⟨durable, buffered, hlog, hno⟩ := h.logged m hm
    exact ⟨durable, buffered,
      hlog.congr (Logs.freeze_wals io s (h.inv.mem_ids_lt m hm).ne), hno⟩

/-- A write that freezes the memtable keeps them as well. -/
theorem put (h : s.Durable E log K) (hio : io.Lawful log) {key value : Bytes}
    (hs : Storable (key, value)) (hk : ¬ K key) : (s.put E io key value).Durable E log K := by
  rcases put_eq E io s key value with heq | heq
  · rw [heq]
    exact h.write hs hk
  · rw [heq]
    exact (h.write hs hk).freeze hio (Assoc.insert_ne_nil key value _)

/-- A flush moves a memtable into a table. -/
theorem flush (h : s.Durable E log K) (hio : io.Lawful log)
    (hsmall : (s.forceFlushNextImmMemtable E io).2.disk.Small) :
    (s.forceFlushNextImmMemtable E io).2.Durable E log K := by
  by_cases himm : s.state.imm_memtables = []
  · rw [flush_of_imm_nil E io himm]
    exact h
  · obtain ⟨hok, m, t, hf⟩ := flush_spec h.inv himm hsmall
    obtain ⟨r, hr, hmem⟩ := h.replays
    obtain ⟨r', hr', hids⟩ := hr.flush hio h.inv hok hf
    refine ⟨hf.inv h.inv, by rw [hf.options, h.enable_wal], ⟨r', hr', fun id hid => ?_⟩,
      fun m' hm' => ?_⟩
    · obtain ⟨hid, hne⟩ := (hids id).mp hid
      obtain ⟨m', hm', rfl⟩ := hmem id hid
      rw [hf.memtables] at hm'
      rcases List.mem_append.mp hm' with hm' | hm'
      · exact ⟨m', hm', rfl⟩
      · rw [List.mem_singleton.mp hm'] at hne
        exact absurd rfl hne
    · obtain ⟨durable, buffered, hlog, hno⟩ := h.logged m'
        (by rw [hf.memtables]; exact List.mem_append_left _ hm')
      exact ⟨durable, buffered, hlog.congr (by rw [hf.wals]), hno⟩

/-- `sync` passes on the buffer of the active memtable. What is left is in the frozen ones. -/
theorem sync (h : s.Durable E log K)
    (himm : ∀ m ∈ s.state.imm_memtables, ∃ durable buffered,
      m.Logged E s.disk durable buffered ∧ ∀ e ∈ buffered, ¬ K' e.1) :
    s.sync.Durable E log K' := by
  obtain ⟨r, hr, hmem⟩ := h.replays
  obtain ⟨durable, buffered, hlog, -⟩ := h.logged s.state.memtable List.mem_cons_self
  refine ⟨h.inv.sync, h.enable_wal, ⟨r, hr.sync, fun id hid => ?_⟩, ?_⟩
  · obtain ⟨m, hm, rfl⟩ := hmem id hid
    rw [sync_memtables]
    rcases List.mem_cons.mp hm with rfl | hm
    · exact ⟨s.syncedMemtable, List.mem_cons_self, rfl⟩
    · exact ⟨m, List.mem_cons_of_mem _ hm, rfl⟩
  · rw [sync_memtables, List.forall_mem_cons]
    refine ⟨⟨_, [], syncedMemtable_logged hlog, by simp⟩, fun m hm => ?_⟩
    obtain ⟨durable', buffered', hlog', hno⟩ := himm m hm
    exact ⟨durable', buffered', hlog'.congr (h.inv.sync_wals hm), hno⟩

/-- A `sync` where the buffers of the frozen memtables have no record of a key in `K` passes all
records of such keys on. -/
theorem sync_frozen (h : s.Durable E log K')
    (himm : ∀ m ∈ s.state.imm_memtables, ∀ e ∈ m.bufferedRecords E, ¬ K e.1) :
    s.sync.Durable E log K := by
  refine h.sync fun m hm => ?_
  obtain ⟨durable, buffered, hlog, -⟩ := h.logged m (List.mem_cons_of_mem _ hm)
  refine ⟨durable, buffered, hlog, ?_⟩
  rw [← hlog.bufferedRecords_eq]
  exact himm m hm

/-- A new store has written nothing. -/
theorem start (hio : io.Lawful log) {options : LsmStorageOptions}
    (hsize : options.block_size ≤ 65536) (hwal : options.enable_wal = true) :
    (openFresh io Disk.empty options).Durable E log K := by
  obtain ⟨m, hmems, hid, -⟩ := openFresh_memtables io Disk.empty options
  obtain ⟨r, hr, hmem⟩ := openFresh_replays hio options
  refine ⟨openFresh_inv io Disk.empty hsize, by rw [openFresh_options, hwal],
    ⟨r, hr, fun id hid' => ?_⟩, fun m hm => ⟨[], [], openFresh_logged E io hwal m hm, by simp⟩⟩
  rw [hmem, List.mem_singleton] at hid'
  exact ⟨m, by rw [hmems]; exact List.mem_singleton_self m, by rw [hid, hid']⟩

/-- Every step keeps the invariant for the keys that it does not write. -/
theorem step (h : s.Durable E log K) (hio : io.Lawful log) {op : StoreOp} (hs : s.Stores E io op)
    (hK : ∀ e, op.entry = some e → ¬ K e.1) (hstep : s.storeStep E io op = some s') :
    s'.Durable E log K := by
  have hsmall := hs.small s' hstep
  cases op with
  | put key value =>
    cases hstep
    exact h.put hio (hs.storable _ rfl) (hK _ rfl)
  | del key =>
    cases hstep
    exact h.put hio (hs.storable _ rfl) (hK _ rfl)
  | freeze =>
    simp only [storeStep] at hstep
    split_ifs at hstep with hempty
    cases hstep
    exact h.freeze hio fun hnil => hempty (by rw [MemTable.isEmpty, hnil]; rfl)
  | flush =>
    cases hstep
    exact h.flush hio hsmall
  | sync =>
    cases hstep
    exact h.sync fun m hm => h.logged m (List.mem_cons_of_mem _ hm)

/-- A crash in the middle of a step loses no key that the step does not write. -/
theorem during (h : s.Durable E log K) {op : StoreOp} (hs : ∀ e, op.entry = some e → Storable e)
    (hK : ∀ e, op.entry = some e → ¬ K e.1) (hu : u ∈ s.during E op) : u.Durable E log K := by
  have hwrite : ∀ key value, op.entry = some (key, value) → u ∈ [s, s.write E key value] →
      u.Durable E log K := by
    intro key value hentry hu
    rcases List.mem_cons.mp hu with rfl | hu
    · exact h
    · rw [List.mem_singleton.mp hu]
      exact h.write (hs _ hentry) (hK _ hentry)
  cases op with
  | put key value => exact hwrite key value rfl hu
  | del key => exact hwrite key [] rfl hu
  | freeze => rwa [List.mem_singleton.mp hu]
  | flush => rwa [List.mem_singleton.mp hu]
  | sync => rwa [List.mem_singleton.mp hu]

end Durable

/-! ## What a crash leaves -/

/-- Records of other keys do not change what a log has for a key. -/
theorem lookup_replay_of_ne {k : Bytes} {rs rs' : List (Bytes × Bytes)} (h : ∀ e ∈ rs', e.1 ≠ k) :
    Assoc.lookup k (MemTable.replay (rs ++ rs')) = Assoc.lookup k (MemTable.replay rs) := by
  induction rs' using List.reverseRecOn with
  | nil => rw [List.append_nil]
  | append_singleton rs' e ih =>
    rw [List.forall_mem_append, List.forall_mem_singleton] at h
    rw [← List.append_assoc, MemTable.lookup_replay_append, if_neg h.2, ih h.1]

/-- After a crash, a log has a part of the records, among which are all those of a key in `K`. -/
theorem Crashed.of_logged (hc : s.Crashed disk) {m : MemTable} (hm : m ∈ s.state.memtables)
    {durable buffered : List (Bytes × Bytes)} (hlog : m.Logged E s.disk durable buffered)
    (hK : ∀ e ∈ buffered, ¬ K e.1) :
    ∃ rs torn, Wal.Torn E torn ∧ (disk.wals m.id).getD [] = Wal.frames E rs ++ torn ∧
      (∀ e ∈ rs, Storable e) ∧
      ∀ k, K k → Assoc.lookup k (MemTable.replay rs) = Assoc.lookup k m.map := by
  obtain ⟨n, hn⟩ := hc.wals m hm _ hlog.wal
  have hfits : ∀ e ∈ buffered, Wal.Fits e := fun e he =>
    (hlog.storable e (List.mem_append_right _ he)).fits
  obtain ⟨j, torn, htorn, htake, -⟩ := Wal.take_frames E hfits n
  refine ⟨durable ++ buffered.take j, torn, htorn, ?_, fun e he => ?_, fun k hk => ?_⟩
  · rw [hn, hlog.file, Option.map_some, Option.getD_some, htake, Wal.frames_append,
      List.append_assoc]
  · refine hlog.storable e ?_
    rcases List.mem_append.mp he with he | he
    · exact List.mem_append_left _ he
    · exact List.mem_append_right _ (List.mem_of_mem_take he)
  · have hne : ∀ e ∈ buffered, e.1 ≠ k := fun e he hek => hK e he (by rwa [hek])
    rw [hlog.map, lookup_replay_of_ne hne, lookup_replay_of_ne fun e he =>
      hne e (List.mem_of_mem_take he)]

/-- The directory that a crash leaves has, for every key in `K`, the value of the store. -/
theorem Durable.left (h : s.Durable E log K) (hc : s.Crashed disk) :
    ∃ r rs, s.Replays log r ∧ s.Left E r disk rs ∧ ∀ k, K k →
      (s.leftMaps r rs).findSome? (Assoc.lookup k) =
        (s.state.memtables.map MemTable.map).findSome? (Assoc.lookup k) := by
  obtain ⟨r, hr, hmem⟩ := h.replays
  have hlogs : ∀ id ∈ r.memtables, ∃ rs, (∃ torn, Wal.Torn E torn ∧
      (disk.wals id).getD [] = Wal.frames E rs ++ torn) ∧ (∀ e ∈ rs, Storable e) ∧
      ∀ m ∈ s.state.memtables, m.id = id →
        ∀ k, K k → Assoc.lookup k (MemTable.replay rs) = Assoc.lookup k m.map := by
    intro id hid
    obtain ⟨m, hm, rfl⟩ := hmem id hid
    obtain ⟨durable, buffered, hlog, hK⟩ := h.logged m hm
    obtain ⟨rs, torn, htorn, hfile, hst, hlookup⟩ := hc.of_logged hm hlog hK
    refine ⟨rs, ⟨torn, htorn, hfile⟩, hst, fun m' hm' hid' => ?_⟩
    -- The identifiers of the memtables differ.
    have hnd : (s.state.memtables.map MemTable.id).Nodup := h.inv.mem_ids.imp ne_of_gt
    rwa [List.inj_on_of_nodup_map hnd hm' hm hid']
  choose! rs hfile hst hlookup using hlogs
  refine ⟨r, rs, hr, ⟨hc.ssts, fun _ => hfile, fun _ => hst, fun _ id hid _ => hmem id hid⟩, ?_⟩
  intro k hk
  refine hr.leftMaps_eq h.inv h.enable_wal (fun m hm => ?_) fun id hid hno => ?_
  · exact hlookup m.id (hr.memtables m hm) m hm rfl k hk
  · obtain ⟨m, hm, hmid⟩ := hmem id hid
    exact absurd hmid (hno m hm)

/-- After a crash, a key in `K` is read as before it. -/
theorem Durable.open_get (h : s.Durable E log K) (hio : io.Lawful log) (hc : s.Crashed disk)
    {k : Bytes} (hk : K k) :
    ∃ s', LsmStorageInner.open E io disk s.options = .ok s' ∧
      s'.get E k = .ok (s.state.view E k) := by
  obtain ⟨r, rs, hr, hl, hlookup⟩ := h.left hc
  obtain ⟨s', r', hopen, hre⟩ := open_spec hio h.inv hr hl hc.manifest
  refine ⟨s', hopen, ?_⟩
  rw [get_spec hre.inv.readable, hre.view, LsmStorageState.view_eq]
  refine congrArg Except.ok (firstValue_congr ?_)
  rw [List.findSome?_append, List.findSome?_append, hlookup k hk]

/-! ## Runs -/

/-- No step changes the options. -/
theorem storeStep_options {op : StoreOp} (h : s.storeStep E io op = some s') :
    s'.options = s.options := by
  cases op with
  | put key value =>
    cases h
    exact put_options E io s key value
  | del key =>
    cases h
    exact put_options E io s key []
  | freeze =>
    simp only [storeStep] at h
    split_ifs at h
    cases h
    exact forceFreezeMemtable_options io s
  | flush =>
    cases h
    exact flush_options E io s
  | sync =>
    cases h
    rfl

/-- A step changes only the value of the key that it writes. -/
theorem storeStep_view (hinv : Inv E s) {op : StoreOp} (h : s.storeStep E io op = some s')
    (hs : s.Stores E io op) {k : Bytes} (hk : ∀ e, op.entry = some e → e.1 ≠ k) :
    s'.state.view E k = s.state.view E k := by
  have hsmall := hs.small s' h
  cases op with
  | put key value =>
    cases h
    rw [hinv.view_put, if_neg (hk _ rfl)]
  | del key =>
    cases h
    rw [LsmStorageInner.del, hinv.view_put, if_neg (hk _ rfl)]
  | freeze =>
    simp only [storeStep] at h
    split_ifs at h
    cases h
    exact Inv.view_freeze io s k
  | flush =>
    cases h
    by_cases himm : s.state.imm_memtables = []
    · rw [flush_of_imm_nil E io himm]
    · obtain ⟨-, m, t, hf⟩ := flush_spec hinv himm hsmall
      exact hf.view hinv k
  | sync =>
    cases h
    rfl

/-- A crash in the middle of a step finds the other keys as they were before it. -/
theorem during_view (hinv : Inv E s) {op : StoreOp} (hu : u ∈ s.during E op) {k : Bytes}
    (hk : ∀ e, op.entry = some e → e.1 ≠ k) :
    u.state.view E k = s.state.view E k ∧ u.options = s.options := by
  have hwrite : ∀ key value, op.entry = some (key, value) → u ∈ [s, s.write E key value] →
      u.state.view E k = s.state.view E k ∧ u.options = s.options := by
    intro key value hentry hu
    rcases List.mem_cons.mp hu with rfl | hu
    · exact ⟨rfl, rfl⟩
    · rw [List.mem_singleton.mp hu, hinv.view_write, if_neg (hk _ hentry)]
      exact ⟨rfl, rfl⟩
  cases op with
  | put key value => exact hwrite key value rfl hu
  | del key => exact hwrite key [] rfl hu
  | freeze => exact List.mem_singleton.mp hu ▸ ⟨rfl, rfl⟩
  | flush => exact List.mem_singleton.mp hu ▸ ⟨rfl, rfl⟩
  | sync => exact List.mem_singleton.mp hu ▸ ⟨rfl, rfl⟩

/-- A run that does not write a key keeps what is durable of it. -/
theorem Durable.steps (hio : io.Lawful log) {k : Bytes} (h : s.Durable E log (· = k))
    {ops : List StoreOp} (hrun : Steps (storeStep E io) (Stores E io) s ops t)
    (hk : ∀ op ∈ ops, ∀ e, op.entry = some e → e.1 ≠ k) :
    t.Durable E log (· = k) ∧ t.state.view E k = s.state.view E k ∧ t.options = s.options := by
  induction hrun with
  | refl => exact ⟨h, rfl, rfl⟩
  | snoc _ hs hstep ih =>
    rw [List.forall_mem_append, List.forall_mem_singleton] at hk
    obtain ⟨hd, hview, hopt⟩ := ih hk.1
    exact ⟨hd.step hio hs hk.2 hstep, (storeStep_view hd.inv hstep hs hk.2).trans hview,
      (storeStep_options hstep).trans hopt⟩

/-- What `sync` has seen survives a crash at any later point, for a key that is not written after it
and of which no frozen memtable has a record left in its buffer at the `sync`. -/
theorem synced_get_eq (hio : io.Lawful log) {options : LsmStorageOptions}
    (hsize : options.block_size ≤ 65536) (hwal : options.enable_wal = true)
    {ops₁ ops₂ : List StoreOp} {op : StoreOp} {k : Bytes}
    (h₁ : Steps (storeStep E io) (Stores E io) (openFresh io Disk.empty options) ops₁ s)
    (himm : ∀ m ∈ s.state.imm_memtables, ∀ e ∈ m.bufferedRecords E, e.1 ≠ k)
    (h₂ : Steps (storeStep E io) (Stores E io) s.sync ops₂ t) (hop : t.Stores E io op)
    (hu : u ∈ t.during E op) (hc : u.Crashed disk)
    (hk : ∀ op' ∈ ops₂ ++ [op], ∀ e, op'.entry = some e → e.1 ≠ k) :
    ∃ s' v, LsmStorageInner.open E io disk options = .ok s' ∧
      s.sync.get E k = .ok v ∧ s'.get E k = .ok v := by
  rw [List.forall_mem_append, List.forall_mem_singleton] at hk
  -- Before the `sync` nothing is known of what is in the buffers.
  have hstart : (openFresh io Disk.empty options).Durable E log fun _ => False :=
    .start hio hsize hwal
  have hs : s.Durable E log fun _ => False := h₁.invariant hstart
    fun _ _ _ hd hst hstep => hd.step hio hst (by simp) hstep
  have hsopt : s.options = options := h₁.invariant (I := fun s => s.options = options)
    (openFresh_options io Disk.empty options) fun _ _ _ h _ hstep => (storeStep_options hstep).trans h
  have hsync : s.sync.Durable E log (· = k) := hs.sync_frozen himm
  obtain ⟨ht, hview, hopt⟩ := hsync.steps hio h₂ hk.1
  obtain ⟨huview, huopt⟩ := during_view ht.inv hu hk.2
  obtain ⟨s', hopen, hget⟩ := (ht.during hop.storable hk.2 hu).open_get hio hc rfl
  rw [huopt, hopt] at hopen
  refine ⟨s', _, ?_, get_spec hsync.inv.readable k, ?_⟩
  · rwa [← hsopt]
  · rw [hget, huview, hview]

/-! ### Runs on fixed inputs -/

/-- What a step asks of the store, for a store whose table files are below its counter. -/
def fits (E : Extern) (io : ManifestIO M) (s : LsmStorageInner M) (op : StoreOp) : Bool :=
  op.entry.all (fun e => decide (Storable e)) && (s.storeStep E io op).all smallBelow

/-- The bounds are kept by every step. -/
theorem storeStep_bounded {op : StoreOp} (hb : s.Bounded) (h : s.storeStep E io op = some s') :
    s'.Bounded := by
  cases op with
  | put key value =>
    cases h
    exact hb.put key value
  | del key =>
    cases h
    exact hb.put key []
  | freeze =>
    simp only [storeStep] at h
    split_ifs at h
    cases h
    exact hb.freeze
  | flush =>
    cases h
    exact hb.flush
  | sync =>
    cases h
    refine ⟨fun m hm => ?_, fun id hid => ?_⟩
    · rcases List.mem_cons.mp hm with rfl | hm
      · exact hb.memtables s.state.memtable List.mem_cons_self
      · exact hb.memtables m (List.mem_cons_of_mem _ hm)
    · rw [LsmStorageInner.sync, flushWal]
      split
      · exact hb.ssts id hid
      · exact hb.ssts id hid

/-- What a step asks of the store can be computed. -/
theorem Bounded.stores (hb : s.Bounded) {op : StoreOp} (h : s.fits E io op = true) :
    s.Stores E io op := by
  rw [fits, Bool.and_eq_true] at h
  constructor
  · intro e he
    have := h.1
    rw [he] at this
    exact of_decide_eq_true this
  · intro s' hs'
    have := h.2
    rw [hs'] at this
    exact (storeStep_bounded hb hs').small this

/-- A run that goes on from a store whose table files are below its counter. -/
theorem exists_stores (E : Extern) (io : ManifestIO M) {ops : List StoreOp} (hb : s.Bounded)
    (q : LsmStorageInner M → Bool)
    (h : (Steps.exec (storeStep E io) (fits E io) s ops).any q = true) :
    ∃ t, Steps (storeStep E io) (Stores E io) s ops t ∧ t.Bounded ∧ q t = true := by
  obtain ⟨t, hrun, hq⟩ := Steps.of_exec 
    (P := fun (s : LsmStorageInner M) op => s.fits E io op = true) (fun _ _ h => h) h
  refine ⟨t, hrun.imp (I := Bounded) hb (fun _ _ _ hb _ => storeStep_bounded hb)
    fun _ _ hb => hb.stores, ?_, hq⟩
  exact hrun.invariant hb fun _ _ _ hb _ => storeStep_bounded hb

/-- A crash may pass nothing on. -/
theorem crashed_self (s : LsmStorageInner M) : s.Crashed s.disk := by
  refine ⟨rfl, fun _ _ => rfl, fun m _ w _ => ⟨0, ?_⟩⟩
  simp

/-- The write that is frozen has been passed on before, and the one after the `sync` is lost. -/
theorem synced_get_eq_frozen : ∃ s t : LsmStorageInner (List ManifestRecord),
    Steps (storeStep .lib .list) (Stores .lib .list) (openFresh .list Disk.empty { enable_wal := true })
      [.put [97] [49], .sync, .freeze, .put [98] [50]] s ∧
    Steps (storeStep .lib .list) (Stores .lib .list) s.sync [.put [99] [51]] t ∧
    ∃ s' v, LsmStorageInner.open .lib .list t.disk { enable_wal := true } = .ok s' ∧
      s.sync.get .lib [97] = .ok v ∧ s'.get .lib [97] = .ok v := by
  obtain ⟨s, h₁, hb, hs⟩ := exists_stores .lib .list
    (openFresh_bounded .list { enable_wal := true })
    (fun s => decide (∀ m ∈ s.state.imm_memtables, ∀ e ∈ m.bufferedRecords .lib, e.1 ≠ [97]) &&
      (Steps.exec (storeStep .lib .list) (fits .lib .list) s.sync [.put [99] [51]]).any
        fun t => t.fits .lib .list .sync)
    (show (Steps.exec _ _ _ [.put [97] [49], .sync, .freeze, .put [98] [50]]).any _ = true by
      decide +kernel)
  rw [Bool.and_eq_true, decide_eq_true_eq] at hs
  have hbs : s.sync.Bounded :=
    storeStep_bounded hb (show s.storeStep .lib .list .sync = some s.sync from rfl)
  obtain ⟨t, h₂, hbt, ht⟩ := exists_stores .lib .list hbs _ hs.2
  exact ⟨s, t, h₁, h₂, synced_get_eq ManifestIO.list_lawful (by decide) rfl h₁ hs.1 h₂ (hbt.stores ht)
    (List.mem_singleton_self t) t.crashed_self (by decide)⟩

/-- `sync` passes on the log of the active memtable alone: a write that was frozen before it is lost
in a crash. -/
theorem not_synced_get_eq_freeze :
    ¬ ∀ (ops₁ ops₂ : List StoreOp) (s t : LsmStorageInner (List ManifestRecord))
      (disk : Disk (List ManifestRecord)) (k : Bytes),
      Steps (storeStep .lib .list) (Stores .lib .list)
        (openFresh .list Disk.empty { enable_wal := true }) ops₁ s →
      Steps (storeStep .lib .list) (Stores .lib .list) s.sync ops₂ t →
      t.Crashed disk → (∀ op ∈ ops₂, ∀ e, op.entry = some e → e.1 ≠ k) →
      ∃ s' v, LsmStorageInner.open .lib .list disk { enable_wal := true } = .ok s' ∧
        s.sync.get .lib k = .ok v ∧ s'.get .lib k = .ok v := by
  intro h
  obtain ⟨s, hrun, -, hs⟩ := exists_stores .lib .list
    (openFresh_bounded .list { enable_wal := true })
    (fun s => decide (s.sync.get .lib [97] = .ok [49]) &&
      decide ((LsmStorageInner.open .lib .list s.sync.disk { enable_wal := true } >>= fun s' =>
        s'.get .lib [97]) = .ok []))
    (show (Steps.exec _ _ _ [.put [97] [49], .freeze]).any _ = true by decide +kernel)
  rw [Bool.and_eq_true, decide_eq_true_eq, decide_eq_true_eq] at hs
  obtain ⟨s', v, hopen, hsync, hget⟩ := h _ [] s s.sync s.sync.disk [97] hrun .refl
    s.sync.crashed_self (by simp)
  rw [hopen, ok_bind, hget] at hs
  cases hs.1.symm.trans hsync
  cases hs.2

end LsmStorageInner

end MiniLsm
