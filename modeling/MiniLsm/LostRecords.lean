import MiniLsm.ManifestSpec
import MiniLsm.Sizes

/-!
# Records that are lost

`Manifest::add_record` may return an error, and none of its callers looks at what it returns. Where
it has added nothing, the replay of the manifest falls behind the store: it lists the tables of the
store less some of level 0, and those of a level in another order, as long as no record of a
compaction is lost (`LsmStorageState.Behind`). All that it lists is on the disk, so that the store
can be opened (`LossyRun.opens_behind`). Of a compaction whose record is lost, the old tables are
removed all the same, and `open` fails where the replay lists one of them
(`LossyRun.opens_iff_unlisted`).

As everywhere, assertions are those of a build without them. One with them stops in the replay of a
compaction out of level 0 that has a table whose flush is lost.
-/

namespace MiniLsm

open LsmStorageInner

/-! ## States that are behind -/

/-- The levels have the same tables. -/
def SameLevels : List (ℕ × List ℕ) → List (ℕ × List ℕ) → Prop :=
  List.Forall₂ fun a b => a.1 = b.1 ∧ a.2.Perm b.2

/-- Some tables of level 0 are missing, and those of a level may be in another order. -/
structure LsmStorageState.Behind (st₁ st : LsmStorageState) : Prop where
  l0_sstables : st₁.l0_sstables.Sublist st.l0_sstables
  levels : SameLevels st₁.levels st.levels

/-- Levels are the same as themselves. -/
theorem SameLevels.refl (l : List (ℕ × List ℕ)) : SameLevels l l :=
  List.forall₂_same.mpr fun _ _ => ⟨rfl, List.Perm.refl _⟩

/-- The same tables are in all levels. -/
theorem SameLevels.flatten {l l' : List (ℕ × List ℕ)} (h : SameLevels l l') :
    ((l.map Prod.snd).flatten).Perm (l'.map Prod.snd).flatten := by
  induction h with
  | nil => exact List.Perm.refl _
  | cons hab _ ih => exact hab.2.append ih

/-- A level has the same tables. -/
theorem SameLevels.getElem? {l l' : List (ℕ × List ℕ)} (h : SameLevels l l') (i : ℕ) :
    (((l[i]?).map Prod.snd).getD []).Perm (((l'[i]?).map Prod.snd).getD []) := by
  induction h generalizing i with
  | nil => exact List.Perm.refl _
  | cons hab _ ih =>
    cases i with
    | zero => exact hab.2
    | succ i => exact ih i

/-- The same tables are assigned to a level. -/
theorem SameLevels.setLevel {l l' : List (ℕ × List ℕ)} (h : SameLevels l l') (i : ℕ)
    {ids ids' : List ℕ} (hids : ids.Perm ids') :
    SameLevels (MiniLsm.setLevel l i ids) (MiniLsm.setLevel l' i ids') := by
  unfold MiniLsm.setLevel
  induction h generalizing i with
  | nil => simpa using SameLevels.refl []
  | cons hab htail ih =>
    cases i with
    | zero => exact .cons ⟨hab.1, hids⟩ htail
    | succ i => exact .cons hab (ih i)

/-- One is empty if the other one is. -/
theorem SameLevels.isEmpty {l l' : List (ℕ × List ℕ)} (h : SameLevels l l') :
    l.isEmpty = l'.isEmpty := by
  cases h <;> rfl

/-- The loop takes one occurrence of each member of the set out. -/
theorem count_removeOnce (set xs : List ℕ) (id : ℕ) :
    (removeOnce set xs).count id = xs.count id - if id ∈ set then 1 else 0 := by
  induction xs generalizing set with
  | nil => simp [removeOnce]
  | cons x xs ih =>
    unfold removeOnce
    by_cases hx : x = id
    · subst hx
      split_ifs with hset <;> simp [ih, hset]
    · have hfilter : id ∈ set.filter (fun y => decide (y ≠ x)) ↔ id ∈ set := by
        simp [Ne.symm hx]
      rw [List.count_cons_of_ne hx]
      by_cases hset : x ∈ set
      · rw [if_pos hset, ih, if_congr hfilter rfl rfl]
      · rw [if_neg hset, List.count_cons_of_ne hx, ih]

/-- A removal does not depend on the order. -/
theorem removeOnce_perm {xs ys : List ℕ} (h : xs.Perm ys) (set : List ℕ) :
    (removeOnce set xs).Perm (removeOnce set ys) := by
  rw [List.perm_iff_count]
  intro id
  rw [count_removeOnce, count_removeOnce, h.count_eq]

/-- Fewer tables are fewer tables after a removal. -/
theorem removeOnce_sublist {xs ys : List ℕ} (h : xs.Sublist ys) (hnd : ys.Nodup) (set : List ℕ) :
    (removeOnce set xs).Sublist (removeOnce set ys) := by
  rw [removeOnce_eq_filter hnd, removeOnce_eq_filter (h.nodup hnd)]
  exact h.filter _

namespace LsmStorageState.Behind

variable {st₁ st : LsmStorageState}

/-- No table is missing, and none has moved. -/
theorem refl (st : LsmStorageState) : st.Behind st := ⟨List.Sublist.refl _, .refl _⟩

/-- A state that is behind lists no other tables. -/
theorem subset (h : st₁.Behind st) : st₁.tableIds ⊆ st.tableIds := by
  unfold LsmStorageState.tableIds
  intro id hid
  rw [List.mem_append] at hid ⊢
  exact hid.imp (fun hid => h.l0_sstables.subset hid) fun hid => h.levels.flatten.subset hid

end LsmStorageState.Behind

/-- The replay of a compaction stays behind the compaction. -/
theorem CompactionController.applyCompactionResult_behind {options : CompactionOptions}
    (hopt : flushToL0 options = true) {st st₁ st' : LsmStorageState} {task : CompactionTask}
    {out old : List ℕ} (h : applyCompactionResult options st task out false = .ok (st', old))
    (hb : st₁.Behind st) (hnd : st.l0_sstables.Nodup) :
    ∃ st₁' old₁, applyCompactionResult options st₁ task out true = .ok (st₁', old₁) ∧
      st₁'.Behind st' := by
  obtain ⟨hl0, hlev⟩ := hb
  unfold applyCompactionResult at h
  split at h
  case h_1 t _ =>
    cases h
    refine ⟨_, _, rfl, hl0.filter _, ?_⟩
    dsimp only [applyForceFull]
    rw [hlev.isEmpty]
    split_ifs
    · exact .refl _
    · exact hlev.setLevel 0 (List.Perm.refl _)
  case h_2 t _ =>
    rw [Except.ok.injEq] at h
    obtain rfl := (congrArg Prod.fst h).symm
    refine ⟨_, _, rfl, ?_⟩
    -- The sort, which the replay leaves out, only changes the order.
    have hlower : ∀ {levels₁ levels : List (ℕ × List ℕ)}, SameLevels levels₁ levels → SameLevels
        (setLevel levels₁ (t.lower_level - 1)
          (removeOnce t.lower_level_sst_ids
            (((levels₁[t.lower_level - 1]?).map Prod.snd).getD []) ++ out))
        (setLevel levels (t.lower_level - 1)
          ((removeOnce t.lower_level_sst_ids
            (((levels[t.lower_level - 1]?).map Prod.snd).getD []) ++ out).insertionSort
              fun x y => !LeveledCompactionController.sstLt st y x)) := fun hlev =>
      hlev.setLevel _ (((removeOnce_perm (hlev.getElem? _) _).append_right out).trans
        (List.perm_insertionSort _ _).symm)
    rcases hul : t.upper_level with _ | i
    all_goals
      simp only [LeveledCompactionController.applyCompactionResult, hul, Bool.false_eq_true,
        if_false, if_true]
    · exact ⟨removeOnce_sublist hl0 hnd _, hlower hlev⟩
    · exact ⟨hl0, hlower (hlev.setLevel _ (removeOnce_perm (hlev.getElem? _) _))⟩
  case h_3 t _ => cases hopt
  case h_4 t _ =>
    rw [Except.ok.injEq] at h
    obtain rfl := (congrArg Prod.fst h).symm
    refine ⟨_, _, rfl, ?_⟩
    -- Neither assignment depends on the tables that a level had.
    rcases hul : t.upper_level with _ | i
    all_goals simp only [SimpleLeveledCompactionController.applyCompactionResult, hul]
    · exact ⟨removeOnce_sublist hl0 hnd _, hlev.setLevel _ (List.Perm.refl _)⟩
    · exact ⟨hl0, (hlev.setLevel _ (List.Perm.refl _)).setLevel _ (List.Perm.refl _)⟩
  all_goals cases h

/-! ## Steps whose record is lost -/

/-- A manifest whose file takes nothing. -/
def ManifestIO.losing {M : Type} (io : ManifestIO M) : ManifestIO M :=
  { io with addRecord := fun m _ => m }

namespace LsmStorageInner

variable {M : Type} {E : Extern} {s s' : LsmStorageInner M}

/-- What is added depends on the manifest only. -/
theorem addRecord_disk_manifest (io : ManifestIO M) (hm : s'.manifest = s.manifest)
    (hd : s'.disk.manifest = s.disk.manifest) (r : ManifestRecord) :
    (s'.addRecord io r).disk.manifest = (s.addRecord io r).disk.manifest := by
  unfold addRecord
  by_cases hs : s.manifest = true
  · rw [if_pos hs, if_pos (hm.trans hs)]
    exact congrArg (Option.map _) hd
  · rw [if_neg hs, if_neg (by rwa [hm])]
    exact hd

/-- A record that is written does not change which manifest the store has. -/
theorem addRecord_manifest (io : ManifestIO M) (s : LsmStorageInner M) (r : ManifestRecord) :
    (s.addRecord io r).manifest = s.manifest := by
  rw [addRecord_eq]

/-- A record that is lost does not change the file. -/
theorem Journaled.addRecord_losing (h : s.Journaled) (io : ManifestIO M) (r : ManifestRecord) :
    (s.addRecord io.losing r).disk.manifest = s.disk.manifest := by
  unfold LsmStorageInner.addRecord
  rw [if_pos h.manifest]
  exact Option.map_id'

/-- The manifest behind a freeze. -/
theorem freeze_manifest (io : ManifestIO M) (s : LsmStorageInner M) :
    (s.forceFreezeMemtable io).manifest = s.manifest ∧ (s.forceFreezeMemtable io).disk.manifest =
      (s.addRecord io (.newMemtable s.next_sst_id)).disk.manifest := by
  unfold forceFreezeMemtable
  dsimp only
  refine ⟨?_, addRecord_disk_manifest io ?_ ?_ _⟩
  · rw [addRecord_manifest]
    split_ifs <;> rfl
  all_goals
    split_ifs <;> rfl

/-- A flush makes no table, or one of level 0 that it records. -/
theorem flush_manifest (io : ManifestIO M)
    (hl0 : CompactionController.flushToL0 s.options.compaction_options = true) :
    let s' := (s.forceFlushNextImmMemtable E io).2
    s'.manifest = s.manifest ∧ s'.state.levels = s.state.levels ∧
      ((s'.disk.manifest = s.disk.manifest ∧ s'.state.l0_sstables = s.state.l0_sstables) ∨
      ∃ id, s'.disk.manifest = (s.addRecord io (.flush id)).disk.manifest ∧
        s'.state.l0_sstables = id :: s.state.l0_sstables) := by
  rcases List.eq_nil_or_concat' s.state.imm_memtables with himm | ⟨imm, m, himm⟩
  · rw [flush_of_imm_nil E io himm]
    exact ⟨rfl, rfl, .inl ⟨rfl, rfl⟩⟩
  · rw [flush_of_imm_concat E io himm, build]
    rcases SsTable.open E m.id _ with e | t
    · exact ⟨rfl, rfl, .inl ⟨rfl, rfl⟩⟩
    · rw [Outcome.bind_ok]
      dsimp only
      rw [addRecord_state]
      unfold addFlushed
      rw [if_pos hl0]
      dsimp only
      refine ⟨addRecord_manifest io _ _, rfl, .inr ⟨m.id, addRecord_disk_manifest io ?_ ?_ _, rfl⟩⟩
      · rfl
      · rfl

end LsmStorageInner

/-- The manifest is replayed to a state behind that of the store. -/
structure LsmStorageInner.Lags {M : Type} (log : M → List ManifestRecord) (s : LsmStorageInner M)
    (r : Replay) : Prop where
  journaled : s.Journaled
  replay_eq : replay s.options (s.records log) = .ok r
  behind : r.state.Behind s.state

namespace Machine

variable {M τ : Type} [DecidableEq τ] {E : Extern} {io : ManifestIO M}
  {log : M → List ManifestRecord}

/-- A step of a machine, and whether the record that it may add is lost. -/
def lossyStep (E : Extern) (io : ManifestIO M) (c : Machine M τ) (o : Op τ × Bool) :
    Option (Machine M τ) :=
  c.step E (if o.2 then io.losing else io) o.1

/-- The record of a step, and the tables of the state behind it. -/
inductive Records (c : Machine M τ) : Op τ → ManifestRecord → List ℕ → List (ℕ × List ℕ) → Prop
  | newMemtable {op : Op τ} (id : ℕ) : Records c op (.newMemtable id) c.store.state.l0_sstables
      c.store.state.levels
  | flush (id : ℕ) : Records c .flush (.flush id) (id :: c.store.state.l0_sstables)
      c.store.state.levels
  | apply {i : τ} {task : CompactionTask} {ts : List SsTable} {st : LsmStorageState} {old : List ℕ}
      (h : CompactionController.applyCompactionResult c.store.options.compaction_options
        (c.store.withTables ts) task (ts.map SsTable.id) false = .ok (st, old)) :
      Records c (.apply i) (.compaction task (ts.map SsTable.id)) st.l0_sstables st.levels

/-- Whatever the manifest does with the record, a step adds one or none. Where it adds none, it
keeps the tables. -/
theorem step_manifest {c c' : Machine M τ} {op : Op τ}
    (hl0 : CompactionController.flushToL0 c.store.options.compaction_options = true)
    (hstep : c.step E io op = some c') :
    c'.store.manifest = c.store.manifest ∧
      ((c'.store.disk.manifest = c.store.disk.manifest ∧
        c'.store.state.l0_sstables = c.store.state.l0_sstables ∧
        c'.store.state.levels = c.store.state.levels) ∨
      ∃ r, c.Records op r c'.store.state.l0_sstables c'.store.state.levels ∧
        c'.store.disk.manifest = (c.store.addRecord io r).disk.manifest) := by
  -- A write adds a record only by the freeze of a memtable that it has filled.
  have hput : ∀ (op : Op τ) (key value : Bytes),
      let s' := c.store.put E io key value
      s'.manifest = c.store.manifest ∧
        ((s'.disk.manifest = c.store.disk.manifest ∧
          s'.state.l0_sstables = c.store.state.l0_sstables ∧
          s'.state.levels = c.store.state.levels) ∨
        ∃ r, c.Records op r s'.state.l0_sstables s'.state.levels ∧
          s'.disk.manifest = (c.store.addRecord io r).disk.manifest) := by
    intro op key value
    rcases put_eq E io c.store key value with heq | heq
    · rw [heq]
      exact ⟨rfl, .inl ⟨rfl, rfl, rfl⟩⟩
    · rw [heq]
      obtain ⟨hm, hd⟩ := freeze_manifest io (c.store.write E key value)
      dsimp only
      rw [forceFreezeMemtable_state]
      refine ⟨hm, .inr ⟨_, .newMemtable _, hd.trans (addRecord_disk_manifest io ?_ ?_ _)⟩⟩
      · rfl
      · rfl
  cases op with
  | put key value =>
    cases hstep
    exact hput _ key value
  | del key =>
    cases hstep
    exact hput _ key []
  | freeze =>
    simp only [Machine.step] at hstep
    split_ifs at hstep
    cases hstep
    obtain ⟨hm, hd⟩ := freeze_manifest io c.store
    dsimp only
    rw [forceFreezeMemtable_state]
    exact ⟨hm, .inr ⟨_, .newMemtable _, hd⟩⟩
  | flush =>
    cases hstep
    obtain ⟨hm, hlev, h⟩ := flush_manifest (E := E) io hl0
    refine ⟨hm, h.imp (fun h => ⟨h.1, h.2, hlev⟩) ?_⟩
    rintro ⟨id, hd, hl0'⟩
    refine ⟨_, ?_, hd⟩
    dsimp only
    rw [hl0', hlev]
    exact .flush id
  | trigger i =>
    obtain ⟨-, t, -, rfl⟩ := begin_eq_some hstep
    exact ⟨rfl, .inl ⟨rfl, rfl, rfl⟩⟩
  | full i =>
    obtain ⟨-, t, -, rfl⟩ := begin_eq_some hstep
    exact ⟨rfl, .inl ⟨rfl, rfl, rfl⟩⟩
  | compact i =>
    obtain ⟨call, -, -, rfl⟩ := step_compact hstep
    have hw := compact_wrote (E := E) c.store call.task
    exact ⟨hw.manifest, .inl ⟨hw.disk_manifest, by rw [compactStep, hw.state], by
      rw [compactStep, hw.state]⟩⟩
  | apply i =>
    obtain ⟨call, ts, -, -, rfl⟩ := step_apply hstep
    rcases applyResult_cases io c.store call.task ts with heq | ⟨st, old, h, hl0', hlev, hm, hd, -⟩
    · rw [applyStep, heq]
      exact ⟨rfl, .inl ⟨rfl, rfl, rfl⟩⟩
    · refine ⟨hm, .inr ⟨_, ?_, hd⟩⟩
      rw [applyStep]
      dsimp only
      rw [hl0', hlev]
      exact .apply h

/-- As long as the records of compactions are not lost, the replay stays behind the store. -/
theorem lossyStep_lags (hio : io.Lawful log) {c c' : Machine M τ} {o : Op τ × Bool} {r : Replay}
    (h : c.store.Lags log r) (hnd : c.store.state.l0_sstables.Nodup)
    (hl0 : CompactionController.flushToL0 c.store.options.compaction_options = true)
    (hno : o.2 = true → ∀ i, o.1 ≠ .apply i) (hstep : c.lossyStep E io o = some c') :
    ∃ r', c'.store.Lags log r' := by
  obtain ⟨op, lost⟩ := o
  unfold lossyStep at hstep
  dsimp only at hstep hno
  have hopt := step_options hstep
  obtain ⟨hm, ⟨hd, hl, hlev⟩ | ⟨record, hrec, hd⟩⟩ := step_manifest hl0 hstep
  -- A step without a record changes no level.
  · refine ⟨r, h.journaled.congr hm hd, ?_, ?_⟩
    · rw [hopt, records_congr hd]
      exact h.replay_eq
    · constructor
      · rw [hl]
        exact h.behind.l0_sstables
      · rw [hlev]
        exact h.behind.levels
  · -- A lost record leaves the replay where it was, and one that is not makes it do the step.
    cases lost with
    | true =>
      have hd' := hd.trans (h.journaled.addRecord_losing io record)
      refine ⟨r, h.journaled.congr hm hd', ?_, ?_⟩
      · rw [hopt, records_congr hd']
        exact h.replay_eq
      · generalize c'.store.state = st at hrec
        obtain ⟨m, imm, l0, levels, ssts⟩ := st
        cases hrec with
        | newMemtable id => exact ⟨h.behind.l0_sstables, h.behind.levels⟩
        | flush id => exact ⟨h.behind.l0_sstables.cons id, h.behind.levels⟩
        | apply _ => exact absurd rfl (hno rfl _)
    | false =>
      obtain ⟨hj, hr⟩ := h.journaled.addRecord hio record
      have hr' : c'.store.records log = c.store.records log ++ [record] := by
        rw [← hr]
        exact records_congr hd
      -- It is enough that the replay of the record stays behind the new state.
      have hreplay : ∀ r', replayRecord c.store.options.compaction_options r record = .ok r' →
          r'.state.Behind c'.store.state → ∃ r', c'.store.Lags log r' := by
        intro r' hok hb
        refine ⟨r', ⟨hm.trans h.journaled.manifest, ?_⟩, ?_, hb⟩
        · rw [show c'.store.disk.manifest = _ from hd]
          exact hj.isSome
        · rw [hopt, hr', replay_append, h.replay_eq, ok_bind]
          exact hok
      generalize c'.store.state = st at hrec hreplay
      obtain ⟨m, imm, l0, levels, ssts⟩ := st
      cases hrec with
      | newMemtable id => exact hreplay _ rfl ⟨h.behind.l0_sstables, h.behind.levels⟩
      | flush id =>
        refine hreplay _ rfl ?_
        rw [if_pos hl0]
        exact ⟨h.behind.l0_sstables.cons_cons id, h.behind.levels⟩
      | @apply _ task ts st old happly =>
        have hb : r.state.Behind (c.store.withTables ts) := ⟨h.behind.l0_sstables, h.behind.levels⟩
        obtain ⟨st₁, old₁, hok, hb'⟩ :=
          CompactionController.applyCompactionResult_behind hl0 happly hb hnd
        refine hreplay { r with
          state := st₁
          next_id := (ts.map SsTable.id).foldl max r.next_id } ?_ ⟨hb'.l0_sstables, hb'.levels⟩
        rw [replayRecord, hok, ok_bind]

end Machine

/-! ## What is removed -/

namespace LsmStorageInner

variable {M : Type} {E : Extern} {s : LsmStorageInner M} {task : CompactionTask} {ts : List SsTable}

/-- The end of a compaction removes the files of the old tables that are open. -/
theorem applyTrigger_removed (io : ManifestIO M) {st : LsmStorageState} {old : List ℕ}
    (happly : CompactionController.applyCompactionResult s.options.compaction_options
      (s.withTables ts) task (ts.map SsTable.id) false = .ok (st, old))
    {id : ℕ} (hid : id ∈ old) (hopen : (st.sstables id).isSome = true) :
    (s.applyTrigger io task ts).2.disk.ssts id = none := by
  unfold withTables at happly
  unfold applyTrigger
  dsimp only
  rw [happly, Outcome.bind_ok]
  dsimp only [removeSsts]
  exact if_pos (List.mem_filter.mpr ⟨hid, hopen⟩)

/-- A store whose flushes go to level 0 has tasks of three kinds. -/
theorem fits_of_flushToL0 {options : CompactionOptions} {st : LsmStorageState}
    (hl0 : CompactionController.flushToL0 options = true) (hf : task.Fits E options st) :
    (∃ o t, options = .leveled o ∧ task = .leveled t) ∨
      (∃ o t, options = .simple o ∧ task = .simple t ∧ t.Fits st) ∨
      ∃ t, options = .noCompaction ∧ task = .forceFull t := by
  unfold CompactionTask.Fits at hf
  split at hf
  · exact .inr (.inr ⟨_, rfl, rfl⟩)
  · exact .inr (.inl ⟨_, _, rfl, rfl, hf⟩)
  · cases hl0
  · exact .inl ⟨_, _, rfl, rfl⟩
  · cases hf

/-- A compaction removes the files of the tables of its task, whatever becomes of its record. -/
theorem applyResult_removed (io : ManifestIO M) (h : Inv E s) (hp : Pending E s ts)
    (hl0 : CompactionController.flushToL0 s.options.compaction_options = true)
    (hf : task.Fits E s.options.compaction_options s.state) {id : ℕ}
    (hid : id ∈ task.groups.flatten) : (s.applyResult io task ts).disk.ssts id = none := by
  have hopen : ((s.withTables ts).sstables id).isSome = true := by
    have hmem := hf.mem_tableIds hid
    obtain ⟨t, ht, -⟩ := h.good id hmem
    rw [withTables_of_mem hp hmem, ht]
    rfl
  rcases fits_of_flushToL0 hl0 hf with ⟨o, t, ho, rfl⟩ | ⟨o, t, ho, rfl, hft⟩ | ⟨t, -, rfl⟩
  · rw [LeveledCompactionTask.Fits.flatten_groups] at hid
    refine applyTrigger_removed io (by rw [ho]; rfl) hid ?_
    rcases hul : t.upper_level with _ | i <;>
      simpa [LeveledCompactionController.applyCompactionResult, hul] using hopen
  · obtain ⟨-, hold⟩ := SimpleLeveledCompactionController.applyCompactionResult_segment
      (s.withTables ts) hft h.nodup (ts.map SsTable.id)
    rw [← hold] at hid
    refine applyTrigger_removed io (by rw [ho]; rfl) hid ?_
    rcases hul : t.upper_level with _ | i <;>
      simpa [SimpleLeveledCompactionController.applyCompactionResult, hul] using hopen
  · -- A full compaction removes the files of its tables whether they are open or not.
    have hold : (CompactionTask.forceFull t).groups.flatten = t.l0_sstables ++ t.l1_sstables := by
      simp [CompactionTask.groups, LsmStorageState.flatten_singletons]
    rw [hold] at hid
    unfold applyResult applyFull
    dsimp only [removeSsts]
    exact if_pos hid

end LsmStorageInner

/-! ## Runs whose records are lost -/

/-- The controllers with levels flush to level 0. -/
theorem CompactionOptions.Leveling.flushToL0 {o : CompactionOptions} (h : o.Leveling) :
    CompactionController.flushToL0 o = true := by
  rcases o with o | o | o | _
  · rfl
  · exact absurd h id
  · rfl
  · rfl

/-- Where a file cannot be opened, the loading of the tables throws. -/
theorem mapM_error {α β : Type} {f : α → Except Error β} {e : Error} {l : List α}
    (h : ∀ x ∈ l, (∃ y, f x = .ok y) ∨ f x = .error e) (he : ∃ x ∈ l, f x = .error e) :
    l.mapM f = .error e := by
  induction l with
  | nil => simp at he
  | cons x l ih =>
    rw [List.forall_mem_cons] at h
    rw [List.mapM_cons]
    rcases h.1 with ⟨y, hy⟩ | hx
    · have hl : ∃ x ∈ l, f x = .error e := by
        obtain ⟨x', hx', hfx⟩ := he
        rcases List.mem_cons.mp hx' with rfl | hx'
        · rw [hy] at hfx
          cases hfx
        · exact ⟨x', hx', hfx⟩
      rw [hy, ok_bind, ih h.2 hl]
      rfl
    · rw [hx]
      rfl

/-- The runs of a store that one thread uses, in which any records but those of compactions are
lost. -/
abbrev LossyRun {M : Type} (E : Extern) (io : ManifestIO M) (options : LsmStorageOptions)
    (ops : List (Op Unit × Bool)) (c : Machine M Unit) : Prop :=
  Steps (Machine.lossyStep E io) (fun _ o => o.1.Storable ∧ (o.2 = true → o.1 ≠ .apply ()))
    (Machine.start io options) ops c

namespace LossyRun

open Machine

variable {M : Type} {E : Extern} {io : ManifestIO M} {log : M → List ManifestRecord}
  {options : LsmStorageOptions} {ops : List (Op Unit × Bool)} {c c' : Machine M Unit}

/-- The store keeps its invariant, and the replay of its manifest stays behind it. -/
theorem lags (h : LossyRun E io options ops c) (hE : E.Bounded) (hio : io.Lawful log)
    (hsize : options.block_size ≤ 65536) (htarget : options.target_sst_size ≤ 2^25)
    (hctrl : options.compaction_options.Leveling) :
    c.store.Light ∧ c.Inv E ∧ c.store.options = options ∧ c.AllCurrent ∧
      ∃ r, c.store.Lags log r := by
  induction h with
  | refl =>
    obtain ⟨r, hr, -⟩ := openFresh_replays hio options
    exact ⟨start_light io htarget, ⟨openFresh_inv io Disk.empty hsize,
      openFresh_shape io Disk.empty hctrl.valid, by simp [Machine.start]⟩,
      openFresh_options io Disk.empty options, by simp [AllCurrent, Machine.start], r,
      hr.journaled, hr.replay_eq, hr.l0_sstables ▸ List.Sublist.refl _, hr.levels ▸ .refl _⟩
  | @snoc ops c c' o _ hP hstep ih =>
    obtain ⟨hlight, hinv, hopt, hcur, r, hlags⟩ := ih
    have hlight' := step_light hE hlight hinv hcur hP.1 hstep
    have hlevels : c.store.options.compaction_options.Leveling := by rwa [hopt]
    refine ⟨hlight', ?_, (step_options hstep).trans hopt, hcur.step hstep, ?_⟩
    · exact hinv.step hlevels.valid ⟨hcur.serial _, fun _ t _ ht =>
        absurd ht (hlevels.generateTask_ne t)⟩ hP.1 hstep hlight'.small
    · exact lossyStep_lags hio hlags (List.nodup_append.mp hinv.store.nodup).1 hlevels.flushToL0
        (fun hlost i => hP.2 hlost) hstep

/-- A crash leaves the manifest and the files of the tables. -/
theorem opens_of_tables (hio : io.Lawful log) {s : LsmStorageInner M} {r : Replay}
    (hj : s.Journaled) (hr : replay options (s.records log) = .ok r) {disk : Disk M}
    (hm : disk.manifest = s.disk.manifest) :
    ((∀ id ∈ r.state.tableIds, ∃ t, openSst E disk id = .ok t) →
      ∃ t, LsmStorageInner.open E io disk options = .ok t ∧
        t.state.l0_sstables = r.state.l0_sstables ∧ t.state.levels = r.state.levels) ∧
    ∀ e, (∀ id ∈ r.state.tableIds,
        (∃ t, openSst E disk id = .ok t) ∨ openSst E disk id = .error e) →
      (∃ id ∈ r.state.tableIds, openSst E disk id = .error e) →
      LsmStorageInner.open E io disk options = .error e := by
  obtain ⟨m, hsome⟩ := Option.isSome_iff_exists.mp hj.isSome
  obtain ⟨m', hrec, -⟩ := hio.recover_eq m
  have hlog : s.records log = log m := by
    rw [records, hsome]
    rfl
  rw [hlog] at hr
  have hdisk := hm.trans hsome
  constructor
  · intro hssts
    obtain ⟨t, ht, hl0, hlev, -⟩ := opensAs_of_recover hdisk hrec options r hr hssts
    exact ⟨t, ht, hl0, hlev⟩
  · intro e hall herr
    have hload : r.state.tableIds.mapM (openSst E { disk with manifest := some m' }) = .error e :=
      mapM_error hall herr
    rw [LsmStorageInner.open, hdisk]
    dsimp only
    rw [hrec]
    dsimp only
    rw [openRecovered_eq, hr, ok_bind, hload]
    rfl

/-- The tables that the replay lists can be loaded where their files have not been removed. -/
theorem openSst_ok {s : LsmStorageInner M} (hinv : Inv E s) {disk : Disk M} {id : ℕ}
    (hid : id ∈ s.state.tableIds) (hssts : disk.ssts id = s.disk.ssts id) :
    ∃ t, openSst E disk id = .ok t := by
  obtain ⟨t, ht, -⟩ := hinv.good id hid
  obtain ⟨-, rfl, b, hb, ho⟩ := hinv.listed id t ht
  refine ⟨t, ?_⟩
  rw [openSst, hssts, hb]
  exact ho

/-- Whatever records of memtables and flushes are lost, and whenever the process ends, the store is
opened with the tables that it had, less some of level 0. -/
theorem opens_behind (h : LossyRun E io options ops c) (hE : E.Bounded) (hio : io.Lawful log)
    (hsize : options.block_size ≤ 65536) (htarget : options.target_sst_size ≤ 2^25)
    (hctrl : options.compaction_options.Leveling) {disk : Disk M}
    (hm : disk.manifest = c.store.disk.manifest) (hssts : disk.ssts = c.store.disk.ssts) :
    ∃ t, LsmStorageInner.open E io disk options = .ok t ∧ t.state.Behind c.store.state := by
  obtain ⟨-, hinv, hopt, -, r, hlags⟩ := h.lags hE hio hsize htarget hctrl
  have hr := hlags.replay_eq
  rw [hopt] at hr
  obtain ⟨t, ht, hl0, hlev⟩ := (opens_of_tables hio hlags.journaled hr hm).1 fun id hid =>
    openSst_ok hinv.store (hlags.behind.subset hid) (by rw [hssts])
  refine ⟨t, ht, ?_, ?_⟩
  · rw [hl0]
    exact hlags.behind.l0_sstables
  · rw [hlev]
    exact hlags.behind.levels

/-- Whether a step is storable and does not lose the record of a compaction. -/
def recorded : Op Unit × Bool → Bool
  | (.apply _, lost) => !lost
  | (op, _) => decide op.Storable

/-- What the test decides. -/
theorem of_recorded {o : Op Unit × Bool} (h : recorded o = true) :
    o.1.Storable ∧ (o.2 = true → o.1 ≠ .apply ()) := by
  obtain ⟨op, lost⟩ := o
  cases op with
  | apply i =>
    refine ⟨trivial, fun hlost => ?_⟩
    rw [show lost = true from hlost] at h
    cases h
  | _ => exact ⟨of_decide_eq_true h, fun _ => nofun⟩

/-- The first table is not in the manifest, nor is the memtable behind the second one. -/
def twoLost : List (Op Unit × Bool) :=
  [(.put [97] [49], false), (.freeze, false), (.flush, true), (.put [98] [50], false),
    (.freeze, true), (.flush, false)]

/-- The records of a flush and of a freeze are lost, and the store is opened without the first
table. -/
theorem opens_behind_twoLost :
    ∃ (c : Machine (List ManifestRecord) Unit) (t : LsmStorageInner (List ManifestRecord)),
      LossyRun .lib .list {} twoLost c ∧ c.store.state.l0_sstables = [1, 0] ∧
      LsmStorageInner.open .lib .list c.store.disk {} = .ok t ∧ t.state.Behind c.store.state := by
  obtain ⟨c, h, hl0⟩ : ∃ c, LossyRun .lib .list {} twoLost c ∧
      decide (c.store.state.l0_sstables = [1, 0]) = true :=
    Steps.of_exec (p := fun (_ : Machine (List ManifestRecord) Unit) o => recorded o)
      (fun _ _ h => of_recorded h) (by decide +kernel)
  obtain ⟨t, ht, hb⟩ := opens_behind h Extern.lib_bounded ManifestIO.list_lawful (by decide)
    (by decide) (show CompactionOptions.noCompaction.Leveling from trivial) rfl rfl
  exact ⟨c, t, h, of_decide_eq_true hl0, ht, hb⟩

/-- Where the record of a compaction is lost, the store can be opened if and only if the replay
lists none of the tables of its task. -/
theorem opens_iff_unlisted (h : LossyRun E io options ops c) (hE : E.Bounded) (hio : io.Lawful log)
    (hsize : options.block_size ≤ 65536) (htarget : options.target_sst_size ≤ 2^25)
    (hctrl : options.compaction_options.Leveling) {call : Call} (hcall : c.calls () = some call)
    (hstep : c.lossyStep E io (.apply (), true) = some c') {disk : Disk M}
    (hm : disk.manifest = c'.store.disk.manifest) (hssts : disk.ssts = c'.store.disk.ssts) :
    ∃ r, replay options (c.store.records log) = .ok r ∧
      ((∃ t, LsmStorageInner.open E io disk options = .ok t) ↔
        ∀ id ∈ call.task.groups.flatten, id ∉ r.state.tableIds) ∧
      ((∃ id ∈ call.task.groups.flatten, id ∈ r.state.tableIds) →
        LsmStorageInner.open E io disk options = .error (.runtimeError "Failed to open file")) := by
  obtain ⟨-, hinv, hopt, hcur, r, hlags⟩ := h.lags hE hio hsize htarget hctrl
  change c.step E io.losing (.apply ()) = some c' at hstep
  have hr := hlags.replay_eq
  rw [hopt] at hr
  have hl0 : CompactionController.flushToL0 c.store.options.compaction_options = true := by
    rw [hopt]
    exact hctrl.flushToL0
  have hmanifest : c'.store.disk.manifest = c.store.disk.manifest := by
    obtain ⟨-, ⟨hd, -⟩ | ⟨record, -, hd⟩⟩ := step_manifest hl0 hstep
    · exact hd
    · exact hd.trans (hlags.journaled.addRecord_losing io record)
  obtain ⟨hopens, hthrows⟩ := opens_of_tables (E := E) hio hlags.journaled hr (hm.trans hmanifest)
  -- What the step removes are the files of the tables of its task, and no others.
  obtain ⟨call', ts, hcall', hts, rfl⟩ := step_apply hstep
  obtain rfl := Option.some.inj (hcall'.symm.trans hcall)
  have hok := hinv.calls () call' hcall (hcur () call' hcall)
  obtain ⟨hp, hc⟩ := hok.written ts hts
  obtain ⟨ha, -⟩ := applyResult_spec io.losing hinv.store hinv.shape hp hok.fits hc
  have hremoved : ∀ id ∈ call'.task.groups.flatten,
      openSst E disk id = .error (.runtimeError "Failed to open file") := by
    intro id hid
    have hnone := applyResult_removed io.losing hinv.store hp hl0 hok.fits hid
    rw [openSst, hssts,
      show (c.applyStep io.losing () call' ts).store.disk.ssts id = none from hnone]
  have hkept : ∀ id ∈ r.state.tableIds, id ∉ call'.task.groups.flatten →
      ∃ t, openSst E disk id = .ok t := by
    intro id hid hno
    exact openSst_ok hinv.store (hlags.behind.subset hid) (by rw [hssts]; exact ha.ssts id hno)
  -- The tables are loaded in order, so that the first one that is missing makes `open` throw.
  have hthrow : (∃ id ∈ call'.task.groups.flatten, id ∈ r.state.tableIds) →
      LsmStorageInner.open E io disk options = .error (.runtimeError "Failed to open file") := by
    rintro ⟨id, hid, hlist⟩
    refine hthrows _ (fun id hid => ?_) ⟨id, hlist, hremoved id hid⟩
    by_cases hold : id ∈ call'.task.groups.flatten
    · exact .inr (hremoved id hold)
    · exact .inl (hkept id hid hold)
  refine ⟨r, hr, ⟨?_, fun hno => ?_⟩, hthrow⟩
  · rintro ⟨t, ht⟩ id hid hlist
    rw [hthrow ⟨id, hid, hlist⟩] at ht
    cases ht
  · obtain ⟨t, ht, -⟩ := hopens fun id hid => hkept id hid fun hold => hno id hold hid
    exact ⟨t, ht⟩

/-- The first of the two tables that are compacted is not in the manifest. -/
def compactLost : List (Op Unit × Bool) :=
  twoLost ++ [(.full (), false), (.compact (), false)]

/-- The record of the compaction is lost, and the next open meets a table that is gone. -/
theorem opens_iff_unlisted_compactLost :
    ∃ (c c' : Machine (List ManifestRecord) Unit), LossyRun .lib .list {} compactLost c ∧
      c.lossyStep .lib .list (.apply (), true) = some c' ∧
      LsmStorageInner.open .lib .list c'.store.disk {} =
        .error (.runtimeError "Failed to open file") := by
  obtain ⟨c, h, hc⟩ : ∃ c, LossyRun .lib .list {} compactLost c ∧
      ((c.lossyStep .lib .list (.apply (), true)).isSome && (c.calls ()).any fun call =>
        decide (1 ∈ call.task.groups.flatten) &&
          decide (((replay {} (c.store.records id)).toOption.map fun r => r.state.tableIds) =
            some [1])) = true :=
    Steps.of_exec (p := fun (_ : Machine (List ManifestRecord) Unit) o => recorded o)
      (fun _ _ h => of_recorded h) (by decide +kernel)
  rw [Bool.and_eq_true, Option.any_eq_true] at hc
  obtain ⟨hsome, call, hcall, htables⟩ := hc
  rw [Bool.and_eq_true, decide_eq_true_eq, decide_eq_true_eq] at htables
  obtain ⟨c', hstep⟩ := Option.isSome_iff_exists.mp hsome
  obtain ⟨r, hr, -, hthrow⟩ := opens_iff_unlisted h Extern.lib_bounded ManifestIO.list_lawful
    (by decide) (by decide) (show CompactionOptions.noCompaction.Leveling from trivial) hcall hstep
    rfl rfl
  rw [hr] at htables
  have hids : r.state.tableIds = [1] := Option.some.inj htables.2
  exact ⟨c, c', h, hstep, hthrow ⟨1, htables.1, by simp [hids]⟩⟩

end LossyRun

end MiniLsm
