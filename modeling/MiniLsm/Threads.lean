import MiniLsm.WalSpec
import MiniLsm.Exec
import MiniLsm.Lib.Steps

/-!
# Threads within an operation

Two operations that take more than one step, between which other threads may come.

* `MemTable::put` appends to the log under one lock and inserts into the map under another. The log
  replays to the map when no put is in progress, as long as the put of a key that was appended last
  is also inserted last (`PutRun.recover_eq`).
* `LsmStorageInner::put` compares the size of the memtable under the shared lock and freezes without
  it. No empty memtable is frozen as long as a thread that is going to freeze still finds the
  memtable that it has measured (`WriterRun.imm_ne_nil`).
-/

namespace MiniLsm

open LsmStorageInner

/-! ## The log and the map -/

/-- A put that has been appended to the log and not yet inserted into the map. -/
structure PendingPut (τ : Type) where
  thread : τ
  key : Bytes
  value : Bytes
  deriving DecidableEq

/-- A memtable with the file of its log, and the puts in progress in the order in which they were
appended. -/
structure LoggedTable (τ : Type) where
  memtable : MemTable
  file : Bytes
  pending : List (PendingPut τ)

/-- The steps of the calls of `MemTable::put`, and `MemTable::sync_wal`. -/
inductive PutStep (τ : Type) where
  /-- The append to the log, under the lock of the log -/
  | append (thread : τ) (key value : Bytes)
  /-- The insertion into the map, under the lock of the memtable -/
  | insert (thread : τ)
  /-- The bytes of the log are passed on to the file. -/
  | sync

namespace LoggedTable

variable {τ : Type} [DecidableEq τ]

/-- A memtable that is recovered from the file of its log, or a new one where the file is empty. -/
def start (E : Extern) (id : ℕ) (buf : Bytes) : LoggedTable τ :=
  ⟨MemTable.recoverFromWal E id buf, (Wal.recover E buf).2, []⟩

/-- A step, where it can be taken. -/
def step (E : Extern) (s : LoggedTable τ) : PutStep τ → Option (LoggedTable τ)
  | .append i key value =>
    if s.pending.any fun p => p.thread = i then none
    else some { s with
      memtable := { s.memtable with wal := s.memtable.wal.map fun w => w.put E key value }
      pending := s.pending ++ [⟨i, key, value⟩] }
  | .insert i => (s.pending.find? fun p => p.thread = i).map fun p =>
      { s with
        memtable := s.memtable.insert p.key p.value
        pending := s.pending.filter fun q => q.thread ≠ i }
  | .sync => some { s with
      memtable := { s.memtable with wal := s.memtable.wal.map fun _ => ⟨[]⟩ }
      file := s.file ++ (s.memtable.wal.map Wal.buffered).getD [] }

/-- What `MemTable::recover_from_wal` finds when all bytes of the log have reached the file. -/
def recovered (E : Extern) (s : LoggedTable τ) : MemTable :=
  MemTable.recoverFromWal E s.memtable.id (s.file ++ (s.memtable.wal.map Wal.buffered).getD [])

/-- The put of a key that was appended last, of those in progress. -/
def lastAppended (s : LoggedTable τ) (key : Bytes) : Option (PendingPut τ) :=
  s.pending.reverse.find? fun p => p.key = key

/-- The record that a step appends fits a frame. -/
def Fits : PutStep τ → Prop
  | .append _ key value => Wal.Fits (key, value)
  | _ => True

/-- A put that was appended last is inserted last: no other put of its key is in progress. -/
def InOrder (s : LoggedTable τ) : PutStep τ → Prop
  | .insert i => ∀ p ∈ s.pending, p.thread = i → s.lastAppended p.key = some p →
      ∀ q ∈ s.pending, q.key = p.key → q = p
  | _ => True

instance (s : LoggedTable τ) (op : PutStep τ) : Decidable (s.InOrder op) :=
  match op with
  | .append _ _ _ => .isTrue trivial
  | .insert i => inferInstanceAs (Decidable (∀ p ∈ s.pending, p.thread = i →
      s.lastAppended p.key = some p → ∀ q ∈ s.pending, q.key = p.key → q = p))
  | .sync => .isTrue trivial

instance (op : PutStep τ) : Decidable (Fits op) :=
  match op with
  | .append _ key value =>
    inferInstanceAs (Decidable (key.length ≤ 65535 ∧ value.length ≤ 65535))
  | .insert _ => .isTrue trivial
  | .sync => .isTrue trivial

end LoggedTable

/-- The runs of a memtable with a log, with keys and values that fit a frame, in which every step
has the property `P`. -/
abbrev PutRun {τ : Type} [DecidableEq τ] (E : Extern) (id : ℕ) (buf : Bytes)
    (P : LoggedTable τ → PutStep τ → Prop) : List (PutStep τ) → LoggedTable τ → Prop :=
  Steps (LoggedTable.step E) (fun s op => LoggedTable.Fits op ∧ P s op) (.start E id buf)

namespace LoggedTable

variable {τ : Type} [DecidableEq τ] {E : Extern} {id : ℕ}

/-- The log has the last appended put of each key, or what the map has. -/
structure Inv (E : Extern) (s : LoggedTable τ) : Prop where
  sorted : Assoc.Sorted s.memtable.map
  threads : (s.pending.map PendingPut.thread).Nodup
  log : ∃ rs w, (∀ r ∈ rs, Wal.Fits r) ∧ s.memtable.wal = some w ∧
    s.file ++ w.buffered = Wal.frames E rs ∧
    ∀ k, Assoc.lookup k (MemTable.replay rs) =
      ((s.lastAppended k).map PendingPut.value).or (Assoc.lookup k s.memtable.map)

theorem find?_and {α : Type} {p f : α → Bool} {l : List α} {a : α} (h : l.find? p = some a)
    (ha : f a = true) : (l.filter f).find? p = some a := by
  induction l with
  | nil => cases h
  | cons x l ih =>
    rw [List.find?_cons] at h
    rw [List.filter_cons]
    split at h
    · cases h
      rw [if_pos ha, List.find?_cons]
      simp [*]
    · split_ifs
      · rw [List.find?_cons]
        simp [*]
      · exact ih h

/-- The last appended put of a key does not change when a put of another thread ends. -/
theorem lastAppended_filter {s : LoggedTable τ} {i : τ} {k : Bytes} {m : MemTable}
    (h : ∀ q, s.lastAppended k = some q → q.thread ≠ i) :
    lastAppended { s with memtable := m, pending := s.pending.filter fun q => q.thread ≠ i } k =
      s.lastAppended k := by
  rw [lastAppended, ← List.filter_reverse]
  rcases hlast : s.lastAppended k with _ | q
  · rw [lastAppended, List.find?_eq_none] at hlast
    rw [List.find?_eq_none]
    exact fun q hq => hlast q (List.mem_of_mem_filter hq)
  · exact find?_and hlast (by simpa using h q hlast)

omit [DecidableEq τ] in
theorem Inv.start (E : Extern) (id : ℕ) (buf : Bytes) :
    Inv E (LoggedTable.start E id buf : LoggedTable τ) := by
  obtain ⟨hfits, hkept, -, -⟩ := Wal.recover_spec E buf
  obtain ⟨hmap, -, hwal⟩ := MemTable.foldl_insert (Wal.recover E buf).1 (MemTable.createWithWal id)
  have hreplay : (LoggedTable.start E id buf : LoggedTable τ).memtable.map =
      MemTable.replay (Wal.recover E buf).1 := hmap
  refine ⟨hreplay ▸ MemTable.sorted_replay _, List.nodup_nil, _, _, hfits, hwal, ?_, fun k => ?_⟩
  · exact (List.append_nil _).trans hkept
  · rw [hreplay]
    rfl

omit [DecidableEq τ] in
theorem Inv.append {s : LoggedTable τ} (h : s.Inv E) {i : τ} {key value : Bytes}
    (hi : ∀ p ∈ s.pending, p.thread ≠ i) (hfits : Wal.Fits (key, value)) :
    Inv E { s with
      memtable := { s.memtable with wal := s.memtable.wal.map fun w => w.put E key value }
      pending := s.pending ++ [⟨i, key, value⟩] } := by
  obtain ⟨rs, w, hrs, hwal, hlog, hlookup⟩ := h.log
  refine ⟨h.sorted, ?_, rs ++ [(key, value)], w.put E key value, ?_, ?_, ?_, fun k => ?_⟩
  · rw [List.map_append, List.nodup_append]
    refine ⟨h.threads, by simp, ?_⟩
    intro a ha b hb
    obtain ⟨p, hp, rfl⟩ := List.mem_map.mp ha
    simp only [List.map_cons, List.map_nil, List.mem_singleton] at hb
    rw [hb]
    exact hi p hp
  · intro r hr
    rcases List.mem_append.mp hr with hr | hr
    · exact hrs r hr
    · rw [List.mem_singleton.mp hr]
      exact hfits
  · rw [hwal]
    rfl
  · rw [Wal.frames_append, ← hlog]
    simp [Wal.put, Wal.frames]
  · rw [MemTable.lookup_replay_append, hlookup k]
    simp only [lastAppended, List.reverse_append, List.reverse_singleton, List.singleton_append,
      List.find?_cons]
    by_cases hk : key = k
    · simp [hk]
    · simp [hk]

theorem Inv.insert {s : LoggedTable τ} (h : s.Inv E) {i : τ} {p : PendingPut τ}
    (hp : (s.pending.find? fun p => p.thread = i) = some p)
    (hord : s.lastAppended p.key = some p → ∀ q ∈ s.pending, q.key = p.key → q = p) :
    Inv E { s with
      memtable := s.memtable.insert p.key p.value
      pending := s.pending.filter fun q => q.thread ≠ i } := by
  obtain ⟨rs, w, hrs, hwal, hlog, hlookup⟩ := h.log
  have hpi : p.thread = i := by simpa using List.find?_some hp
  have hpmem := List.mem_of_find?_eq_some hp
  -- A put of the thread is `p`.
  have huniq : ∀ q ∈ s.pending, q.thread = i → q = p := fun q hq hqi =>
    List.inj_on_of_nodup_map h.threads hq hpmem (hqi.trans hpi.symm)
  refine ⟨h.sorted.insert p.key p.value, ?_, rs, w, hrs, hwal, hlog, fun k => ?_⟩
  · exact h.threads.sublist (List.filter_sublist.map _)
  obtain ⟨m, hm⟩ : ∃ m, m = s.memtable.insert p.key p.value := ⟨_, rfl⟩
  have hmap : Assoc.lookup k m.map = if p.key = k then some p.value
      else Assoc.lookup k s.memtable.map := by
    rw [hm, MemTable.insert, Assoc.lookup_insert _ _ _ h.sorted]
    split_ifs <;> rfl
  rw [hlookup k, ← hm, hmap]
  by_cases hlast : ∃ q, s.lastAppended k = some q ∧ q.thread = i
  · -- The put that ends is the one that the log shows.
    obtain ⟨q, hq, hqi⟩ := hlast
    obtain rfl := huniq q (List.mem_reverse.mp (List.mem_of_find?_eq_some hq)) hqi
    obtain rfl : q.key = k := by simpa using List.find?_some hq
    have hnone : lastAppended { s with
        memtable := m, pending := s.pending.filter fun q => q.thread ≠ i } q.key = none := by
      rw [lastAppended, List.find?_eq_none]
      intro q' hq' hkey
      rw [List.mem_reverse, List.mem_filter] at hq'
      have := hord hq q' hq'.1 (by simpa using hkey)
      simp [this, hqi] at hq'
    rw [hq, hnone, if_pos rfl]
    rfl
  · push Not at hlast
    rw [lastAppended_filter hlast]
    by_cases hk : p.key = k
    · -- A later put of the same key is still in progress.
      have hsome : (s.lastAppended k).isSome = true := by
        rw [lastAppended, List.find?_isSome]
        exact ⟨p, List.mem_reverse.mpr hpmem, by simp [hk]⟩
      obtain ⟨q, hq⟩ := Option.isSome_iff_exists.mp hsome
      rw [hq]
      rfl
    · rw [if_neg hk]

omit [DecidableEq τ] in
theorem Inv.sync {s : LoggedTable τ} (h : s.Inv E) :
    Inv E { s with
      memtable := { s.memtable with wal := s.memtable.wal.map fun _ => ⟨[]⟩ }
      file := s.file ++ (s.memtable.wal.map Wal.buffered).getD [] } := by
  obtain ⟨rs, w, hrs, hwal, hlog, hlookup⟩ := h.log
  refine ⟨h.sorted, h.threads, rs, ⟨[]⟩, hrs, ?_, ?_, hlookup⟩
  · rw [hwal]
    rfl
  · rw [hwal, ← hlog]
    exact List.append_nil _

theorem Inv.step {s s' : LoggedTable τ} {op : PutStep τ} (h : s.Inv E) (hfits : Fits op)
    (hord : s.InOrder op) (hstep : s.step E op = some s') : s'.Inv E := by
  cases op with
  | append i key value =>
    simp only [LoggedTable.step] at hstep
    split_ifs at hstep with hany
    cases hstep
    exact h.append (by simpa using hany) hfits
  | insert i =>
    simp only [LoggedTable.step, Option.map_eq_some_iff] at hstep
    obtain ⟨p, hp, rfl⟩ := hstep
    exact h.insert hp
      (hord p (List.mem_of_find?_eq_some hp) (by simpa using List.find?_some hp))
  | sync =>
    cases hstep
    exact h.sync

end LoggedTable

namespace PutRun

variable {τ : Type} [DecidableEq τ] {E : Extern} {id : ℕ} {buf : Bytes}

/-- When no put is in progress, the log replays to the map, in every run in which the put of a key
that was appended last is also inserted last. -/
theorem recover_eq {ops : List (PutStep τ)} {s : LoggedTable τ}
    (h : PutRun E id buf LoggedTable.InOrder ops s) (hidle : s.pending = []) :
    (s.recovered E).map = s.memtable.map := by
  obtain ⟨hsorted, -, rs, w, hrs, hwal, hlog, hlookup⟩ :=
    Steps.invariant (LoggedTable.Inv.start E id buf)
      (fun _ _ _ hinv hP hstep => hinv.step hP.1 hP.2 hstep) h
  have hrec := (MemTable.recoverFromWal_spec E s.memtable.id hrs (.inl rfl)).1
  rw [List.append_nil, ← hlog] at hrec
  rw [LoggedTable.recovered, hwal]
  refine hrec.trans (Assoc.ext_of_lookup (MemTable.sorted_replay rs) hsorted fun k => ?_)
  rw [hlookup k, LoggedTable.lastAppended, hidle]
  rfl

/-- Two threads put the same key, one after the other. -/
theorem recover_eq_two_threads :
    ∃ (ops : List (PutStep Bool)) (s : LoggedTable Bool),
      PutRun .lib 0 [] LoggedTable.InOrder ops s ∧ s.pending = [] ∧ s.memtable.map ≠ [] ∧
      (s.recovered .lib).map = s.memtable.map := by
  obtain ⟨s, hrun, hs⟩ : ∃ s, PutRun .lib 0 [] LoggedTable.InOrder
      [.append true [97] [49], .append false [97] [50], .insert true, .sync, .insert false] s ∧
      decide (s.pending = [] ∧ s.memtable.map ≠ []) = true :=
    Steps.of_exec (p := fun s op => decide (LoggedTable.Fits op ∧ s.InOrder op))
      (fun _ _ h => of_decide_eq_true h) (by decide +kernel)
  obtain ⟨hidle, hmap⟩ := of_decide_eq_true hs
  exact ⟨_, s, hrun, hidle, hmap, recover_eq hrun hidle⟩

/-- Two threads append in one order and insert in the other one. -/
theorem recover_ne_two_threads :
    ¬ ∀ (ops : List (PutStep Bool)) (s : LoggedTable Bool),
      PutRun .lib 0 [] (fun _ _ => True) ops s → s.pending = [] →
        (s.recovered .lib).map = s.memtable.map := by
  intro h
  obtain ⟨s, hrun, hs⟩ : ∃ s, PutRun .lib 0 [] (fun _ _ => True)
      [.append true [97] [49], .append false [97] [50], .insert false, .insert true] s ∧
      decide (s.pending = [] ∧ (s.recovered .lib).map ≠ s.memtable.map) = true :=
    Steps.of_exec (p := fun _ op => decide (LoggedTable.Fits op ∧ True))
      (fun _ _ h => of_decide_eq_true h) (by decide +kernel)
  obtain ⟨hidle, hne⟩ := of_decide_eq_true hs
  exact hne (h _ s hrun hidle)

end PutRun

/-! ## The memtable that is full -/

/-- A store, and the threads that have found the memtable full and are going to freeze it. -/
structure Writers (M τ : Type) where
  store : LsmStorageInner M
  full : τ → Bool

/-- The steps of the calls of `LsmStorageInner::put` and `LsmStorageInner::del`, and the flushes of
another thread. -/
inductive WriteStep (τ : Type) where
  /-- The insertion and the comparison of the size in `put`, under the shared lock -/
  | put (thread : τ) (key value : Bytes)
  /-- The same in `del` -/
  | del (thread : τ) (key : Bytes)
  /-- `force_freeze_memtable`, which a thread calls that has found the memtable full -/
  | freeze (thread : τ)
  /-- `LsmStorageInner::force_flush_next_imm_memtable` -/
  | flush

namespace Writers

variable {M τ : Type} [DecidableEq τ]

/-- The first step of a put. -/
def insert (E : Extern) (c : Writers M τ) (i : τ) (key value : Bytes) : Option (Writers M τ) :=
  if c.full i then none
  else
    let s := c.store.write E key value
    some ⟨s, Function.update c.full i
      (decide (s.state.memtable.approximate_size ≥ s.options.target_sst_size))⟩

/-- A step, where it can be taken. -/
def step (E : Extern) (io : ManifestIO M) (c : Writers M τ) : WriteStep τ → Option (Writers M τ)
  | .put i key value => c.insert E i key value
  | .del i key => c.insert E i key []
  | .freeze i =>
    if c.full i then
      some ⟨c.store.forceFreezeMemtable io, Function.update c.full i false⟩
    else none
  | .flush => some { c with store := (c.store.forceFlushNextImmMemtable E io).2 }

/-- The table that a flush of the memtable builds has a block, and `SsTable::open` finds it. -/
def Buildable (E : Extern) (options : LsmStorageOptions) (m : MemTable) : Prop :=
  let builder := m.flush E (SsTableBuilder.create options.block_size options.compression)
  (builder.finishBlock E).metas ≠ [] ∧
    ((builder.fileBytes E).length < 2^32 → ∀ id, SsTable.open E id (builder.fileBytes E) ≠
      .error (.undefined "front() of an empty vector"))

/-- Whether there is something to freeze after some steps: the last one that is not a flush is a
put. -/
def putSince (b : Bool) (ops : List (WriteStep τ)) : Bool :=
  ops.foldl (fun b op =>
    match op with
    | .put _ _ _ | .del _ _ => true
    | .freeze _ => false
    | .flush => b) b

/-- A put comes between any two freezes, and before the first one unless the memtable had entries.
-/
def Spaced (s : LsmStorageInner M) (ops : List (WriteStep τ)) : Prop :=
  ∀ pre i post, ops = pre ++ .freeze i :: post → putSince (!s.state.memtable.isEmpty) pre = true

end Writers

/-- The runs of the writers of a store. -/
abbrev WriterRun {M τ : Type} [DecidableEq τ] (E : Extern) (io : ManifestIO M)
    (s : LsmStorageInner M) : List (WriteStep τ) → Writers M τ → Prop :=
  Steps (Writers.step E io) (fun _ _ => True) ⟨s, fun _ => false⟩

/-- A memtable with entries flushes to a table with a block. -/
theorem MemTable.buildable {m : MemTable} (h : m.map ≠ []) (E : Extern)
    (options : LsmStorageOptions) : Writers.Buildable E options m := by
  obtain ⟨es, e, hmap⟩ := (List.eq_nil_or_concat' m.map).resolve_left h
  have hmetas : ((m.flush E (SsTableBuilder.create options.block_size
      options.compression)).finishBlock E).metas ≠ [] := by
    rw [flush, hmap, List.foldl_append]
    exact SsTableBuilder.metas_finishBlock_ne_nil E (SsTableBuilder.isEmpty_add E _ e.1 e.2)
  exact ⟨hmetas, fun hlt id => SsTable.open_front_defined hmetas hlt id⟩

namespace WriterRun

variable {M τ : Type} [DecidableEq τ] {E : Extern} {io : ManifestIO M} {s : LsmStorageInner M}
  {ops : List (WriteStep τ)} {c : Writers M τ}

/-- The active memtable has entries if and only if the last step was a put, flushes aside. -/
theorem isEmpty_memtable (h : WriterRun E io s ops c) :
    c.store.state.memtable.isEmpty = !Writers.putSince (!s.state.memtable.isEmpty) ops := by
  induction h with
  | refl => exact (Bool.not_not _).symm
  | @snoc ops c c' op _ _ hstep ih =>
    have hins : ∀ i key value, c.insert E i key value = some c' →
        c'.store.state.memtable.isEmpty = false := by
      intro i key value hins
      rw [Writers.insert] at hins
      split_ifs at hins
      cases hins
      exact List.isEmpty_eq_false_iff.mpr (Assoc.insert_ne_nil _ _ _)
    rw [Writers.putSince, List.foldl_append]
    cases op with
    | put i key value => exact hins i key value hstep
    | del i key => exact hins i key [] hstep
    | freeze i =>
      simp only [Writers.step] at hstep
      split_ifs at hstep
      cases hstep
      rw [forceFreezeMemtable_state, freshMemtable]
      split_ifs <;> rfl
    | flush =>
      cases hstep
      rw [(flush_memtables E io c.store).1, ih]
      rfl

/-- No empty memtable is frozen in a run in which a put comes between any two freezes. -/
theorem imm_ne_nil (h₀ : ∀ m ∈ s.state.imm_memtables, m.map ≠ [])
    (hops : Writers.Spaced s ops) (h : WriterRun E io s ops c) :
    ∀ m ∈ c.store.state.imm_memtables, m.map ≠ [] := by
  induction h with
  | refl => exact h₀
  | @snoc ops c c' op hrun _ hstep ih =>
    have ih := ih fun pre i post heq => hops pre i (post ++ [op]) (by rw [heq]; simp)
    have hins : ∀ i key value, c.insert E i key value = some c' →
        c'.store.state.imm_memtables = c.store.state.imm_memtables := by
      intro i key value hins
      rw [Writers.insert] at hins
      split_ifs at hins
      cases hins
      rfl
    cases op with
    | put i key value => exact hins i key value hstep ▸ ih
    | del i key => exact hins i key [] hstep ▸ ih
    | freeze i =>
      have hemp := isEmpty_memtable hrun
      rw [hops ops i [] rfl] at hemp
      simp only [Writers.step] at hstep
      split_ifs at hstep
      cases hstep
      rw [forceFreezeMemtable_state]
      exact List.forall_mem_cons.mpr ⟨List.isEmpty_eq_false_iff.mp hemp, ih⟩
    | flush =>
      cases hstep
      exact fun m hm => ih m ((flush_memtables E io c.store).2 m hm)

/-- No empty memtable is frozen in a run, and each of those that are frozen can be flushed, if and
only if a put comes between any two freezes. -/
theorem imm_ne_nil_iff (h₀ : ∀ m ∈ s.state.imm_memtables, m.map ≠ [])
    (h : WriterRun E io s ops c) :
    (∀ pre c', pre <+: ops → WriterRun E io s pre c' → ∀ m ∈ c'.store.state.imm_memtables,
      m.map ≠ [] ∧ Writers.Buildable E c'.store.options m) ↔ Writers.Spaced s ops := by
  constructor
  · rintro hne pre i post rfl
    rw [← List.singleton_append, ← List.append_assoc] at h
    obtain ⟨c', h'⟩ := Steps.of_append h
    obtain ⟨c₁, h₁, -, hstep⟩ := Steps.of_concat h'
    have hemp := isEmpty_memtable h₁
    simp only [Writers.step] at hstep
    split_ifs at hstep
    cases hstep
    -- The memtable that the freeze of the thread has met is now the first frozen one.
    have hpre : pre ++ [WriteStep.freeze i] <+: pre ++ .freeze i :: post := ⟨post, by simp⟩
    have hmem := (hne _ _ hpre h' c₁.store.state.memtable (by
      rw [forceFreezeMemtable_state]
      exact List.mem_cons_self)).1
    rw [MemTable.isEmpty, List.isEmpty_eq_false_iff.mpr hmem] at hemp
    simpa using hemp.symm
  · rintro hops pre c' ⟨post, rfl⟩ h' m hm
    have hne := imm_ne_nil h₀ (fun pre' i post' heq => hops pre' i (post' ++ post) (by
      rw [heq]; simp)) h' m hm
    exact ⟨hne, MemTable.buildable hne E _⟩

/-- A store whose memtable is full with the second entry. -/
def smallStore : LsmStorageInner (List ManifestRecord) :=
  openFresh .list Disk.empty { target_sst_size := 4 }

/-- Two threads find the memtable full, and a third one puts between their freezes. -/
theorem imm_ne_nil_three_threads :
    ∃ (ops : List (WriteStep (Fin 3))) (c : Writers (List ManifestRecord) (Fin 3)),
      WriterRun .lib .list smallStore ops c ∧ c.store.state.imm_memtables.length = 2 ∧
      ∀ m ∈ c.store.state.imm_memtables, m.map ≠ [] := by
  obtain ⟨c, hrun, hc⟩ : ∃ c : Writers (List ManifestRecord) (Fin 3),
      WriterRun .lib .list smallStore [.put 0 [97] [49, 49, 49], .put 1 [98] [49], .freeze 0,
        .put 2 [99] [49], .freeze 1] c ∧ decide (c.store.state.imm_memtables.length = 2) = true :=
    Steps.of_exec (p := fun _ _ => true) (fun _ _ _ => trivial) (by decide +kernel)
  have hspaced : Writers.Spaced smallStore [WriteStep.put (0 : Fin 3) [97] [49, 49, 49],
      .put 1 [98] [49], .freeze 0, .put 2 [99] [49], .freeze 1] := by
    intro pre i post heq
    rcases pre with _ | ⟨_, _ | ⟨_, _ | ⟨_, _ | ⟨_, _ | ⟨_, pre⟩⟩⟩⟩⟩
    · simp at heq
    · simp at heq
    · simp only [List.cons_append, List.cons.injEq] at heq
      obtain ⟨rfl, rfl, -⟩ := heq
      rfl
    · simp at heq
    · simp only [List.cons_append, List.cons.injEq] at heq
      obtain ⟨rfl, rfl, rfl, rfl, -⟩ := heq
      rfl
    · simp at heq
  have himm := (imm_ne_nil_iff (fun m hm => by cases hm) hrun).mpr hspaced _ c
    (List.prefix_refl _) hrun
  exact ⟨_, c, hrun, of_decide_eq_true hc, fun m hm => (himm m hm).1⟩

/-- Two threads find the memtable full, and freeze one after the other. -/
theorem imm_eq_nil_two_threads :
    ¬ ∀ (ops : List (WriteStep Bool)) (c : Writers (List ManifestRecord) Bool),
      WriterRun .lib .list smallStore ops c → ∀ m ∈ c.store.state.imm_memtables, m.map ≠ [] := by
  intro h
  obtain ⟨c, hrun, hc⟩ : ∃ c : Writers (List ManifestRecord) Bool,
      WriterRun .lib .list smallStore [.put true [97] [49, 49, 49], .put false [98] [49],
        .freeze true, .freeze false] c ∧
      (c.store.state.imm_memtables.any fun m => m.map.isEmpty) = true :=
    Steps.of_exec (p := fun _ _ => true) (fun _ _ _ => trivial) (by decide +kernel)
  obtain ⟨m, hm, hemp⟩ := List.any_eq_true.mp hc
  exact h _ c hrun m hm (List.isEmpty_iff.mp hemp)

end WriterRun

end MiniLsm
