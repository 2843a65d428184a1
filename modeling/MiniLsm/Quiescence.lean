import MiniLsm.Structure
import MiniLsm.Lib.Steps
import Mathlib.Data.List.Shortlex

/-!
# Compactions come to an end

Calls of `trigger_compaction` with no flush in between return false after finitely many of them, for
each of the controllers, whatever tables the compactions write (`TriggerCall`).

The controllers with levels take tables out of a level, or out of level 0, and put their output into
a lower one. So the numbers of tables, level by level, decrease in the lexicographic order, although
the number of tables of the lower level may grow (`LsmStorageState.sizes`).

The tiered controller replaces at least two tiers by one. It finds the tiers of its task by their
identifiers, and the identifier zero is both that of the first memtable and that of an empty output.
`TierInv` shows that the two do not meet: as long as there is a tier with the identifier zero, the
newer ones have one table each, so that no merge leaves it out.
-/

namespace MiniLsm

open LsmStorageInner

/-! ## Calls -/

/-- A table has the identifier that it is opened with. -/
theorem SsTable.open_id {E : Extern} {id : ℕ} {file : Bytes} {t : SsTable}
    (h : SsTable.open E id file = .ok t) : t.id = id := by
  unfold SsTable.open at h
  obtain ⟨_, -, h⟩ := bind_eq_ok.mp h
  obtain ⟨_, -, h⟩ := bind_eq_ok.mp h
  obtain ⟨_, -, h⟩ := bind_eq_ok.mp h
  obtain ⟨_, -, h⟩ := bind_eq_ok.mp h
  obtain ⟨_, -, h⟩ := bind_eq_ok.mp h
  obtain ⟨_, -, h⟩ := bind_eq_ok.mp h
  obtain ⟨_, -, h⟩ := bind_eq_ok.mp h
  obtain ⟨_, -, h⟩ := bind_eq_ok.mp h
  split at h
  · cases h
    rfl
  · cases h

namespace LsmStorageInner

variable {M : Type} {E : Extern} {io : ManifestIO M}

/-- The store `s'` is `s` after a compaction has written the tables `ts`, whatever they hold. -/
structure Written (s s' : LsmStorageInner M) (ts : List SsTable) : Prop where
  state : s'.state = s.state
  options : s'.options = s.options
  next_eq : s'.next_sst_id = s.next_sst_id + ts.length
  ids : ts.map SsTable.id = List.range' s.next_sst_id ts.length

theorem Written.refl (s : LsmStorageInner M) : Written s s [] := ⟨rfl, rfl, rfl, rfl⟩

theorem Written.append {s₁ s₂ s₃ : LsmStorageInner M} {ts ts' : List SsTable}
    (h : Written s₁ s₂ ts) (h' : Written s₂ s₃ ts') : Written s₁ s₃ (ts ++ ts') := by
  refine ⟨h'.state.trans h.state, h'.options.trans h.options, ?_, ?_⟩
  · rw [h'.next_eq, h.next_eq, List.length_append, Nat.add_assoc]
  · rw [List.map_append, h.ids, h'.ids, h.next_eq, List.length_append, ← List.range'_append_1]

theorem buildNext_written {s s' : LsmStorageInner M} {b : SsTableBuilder} {t : SsTable}
    (h : s.buildNext E b = (.ok t, s')) : Written s s' [t] := by
  obtain ⟨hopen, rfl⟩ := Prod.mk.injEq .. ▸ h
  exact ⟨rfl, rfl, rfl, by simp [SsTable.open_id hopen]⟩

/-- The tables that the loop of a compaction returns have the next identifiers. -/
theorem compactLoop_written {ι : Type} [Cursor ι Bytes Bytes Error] {bottom : Bool} {n : ℕ}
    {iter : ι} {builder : Option SsTableBuilder} {new_sst ts : List SsTable}
    {s s' : LsmStorageInner M}
    (h : compactLoop E bottom n iter builder new_sst s = (.ok ts, s')) :
    ∃ ts', ts = new_sst ++ ts' ∧ Written s s' ts' := by
  induction n generalizing iter builder new_sst s with
  | zero => cases h
  | succ n ih =>
    rw [compactLoop] at h
    by_cases hv : Cursor.isValid iter = true
    · rw [if_pos hv] at h
      dsimp only at h
      rcases hnext : Cursor.next iter with e | iter'
      · rw [hnext] at h
        cases h
      rw [hnext, Outcome.bind_ok] at h
      split_ifs at h with hfull
      · rcases hb : s.buildNext E (s.addEntry E bottom builder (Cursor.key iter)
            (Cursor.value iter)) with ⟨e | t, s₁⟩
        · rw [hb] at h
          cases h
        · rw [hb, Outcome.bind_ok] at h
          obtain ⟨ts', rfl, hw⟩ := ih h
          exact ⟨[t] ++ ts', by simp, (buildNext_written hb).append hw⟩
      · exact ih h
    · rw [if_neg hv] at h
      rcases hlast : builder.filter fun b => !b.isEmpty with _ | b
      · rw [hlast] at h
        cases h
        exact ⟨[], by simp, Written.refl _⟩
      · rw [hlast] at h
        dsimp only at h
        rcases hb : s.buildNext E b with ⟨e | t, s₁⟩
        · rw [hb] at h
          cases h
        · rw [hb] at h
          cases h
          exact ⟨[t], rfl, buildNext_written hb⟩

/-- The tables that a compaction returns have the next identifiers. -/
theorem compact_written {s s' : LsmStorageInner M} {task : CompactionTask} {ts : List SsTable}
    (h : s.compact E task = (.ok ts, s')) : Written s s' ts := by
  have hgen : ∀ {ι : Type} [Cursor ι Bytes Bytes Error] (iter : Except Error ι) (bottom : Bool),
      s.generateFrom E iter bottom = (.ok ts, s') → Written s s' ts := by
    intro ι _ iter bottom h
    rcases iter with e | iter
    · cases h
    · rw [generateFrom, Outcome.bind_ok, compactGenerateSstFromIter] at h
      obtain ⟨ts', rfl, hw⟩ := compactLoop_written h
      exact hw
  have hlevel : ∀ upper_level upper_ids lower_ids bottom,
      s.compactLevel E upper_level upper_ids lower_ids bottom = (.ok ts, s') →
      Written s s' ts := by
    intro upper_level upper_ids lower_ids bottom h
    rcases upper_level with _ | i
    · exact hgen _ _ h
    · exact hgen _ _ h
  cases task with
  | forceFull t => exact hgen _ _ h
  | simple t => exact hlevel _ _ _ _ h
  | leveled t => exact hlevel _ _ _ _ h
  | tiered t => exact hgen _ _ h

/-- A call of `trigger_compaction` that returns, whatever tables its compaction has written. -/
def TriggerCall (E : Extern) (io : ManifestIO M) (s : LsmStorageInner M) (result : Bool)
    (s' : LsmStorageInner M) : Prop :=
  match s.generateTask E with
  | none => result = false ∧ s' = s
  | some task => result = true ∧ ∃ s₁ ts, Written s s₁ ts ∧ s₁.applyTrigger io task ts = (.ok (), s')

/-- What the last step of a compaction leaves that does not throw. -/
theorem applyTrigger_eq_ok {s s' : LsmStorageInner M} {task : CompactionTask} {ts : List SsTable}
    (h : s.applyTrigger io task ts = (.ok (), s')) :
    ∃ st' old, CompactionController.applyCompactionResult s.options.compaction_options
        (s.withTables ts) task (ts.map SsTable.id) false = .ok (st', old) ∧
      s'.state.l0_sstables = st'.l0_sstables ∧ s'.state.levels = st'.levels ∧
      s'.options = s.options ∧ s'.next_sst_id = s.next_sst_id ∧
      s'.state.memtables = s.state.memtables := by
  rw [applyTrigger] at h
  dsimp only at h
  rcases happly : CompactionController.applyCompactionResult s.options.compaction_options
      { s.state with sstables := addTables s.state.sstables ts } task (ts.map SsTable.id) false with
    e | ⟨st', old⟩
  · rw [happly] at h
    cases h
  · rw [happly, Outcome.bind_ok] at h
    cases h
    have hmem := CompactionController.applyCompactionResult_memtables happly
    refine ⟨st', old, happly, by simp [removeSsts], by simp [removeSsts], by simp [removeSsts],
      by simp [removeSsts], Eq.trans ?_ hmem⟩
    simp [removeSsts, LsmStorageState.memtables]

end LsmStorageInner

/-! ## Controllers with levels -/

/-- The numbers of tables of level 0 and of the levels. -/
def LsmStorageState.sizes (st : LsmStorageState) : List ℕ :=
  st.l0_sstables.length :: st.levels.map fun level => level.2.length

/-- A task that takes tables from level 0 or from a level, and that puts its output into a level
below it, of `max_levels` levels. -/
def Descends (max_levels : ℕ) (st : LsmStorageState) (upper_level : Option ℕ)
    (upper_level_sst_ids : List ℕ) (lower_level : ℕ) : Prop :=
  1 ≤ lower_level ∧ lower_level ≤ max_levels ∧ upper_level_sst_ids ≠ [] ∧
    match upper_level with
    | none => upper_level_sst_ids = st.l0_sstables
    | some i => 1 ≤ i ∧ i < lower_level ∧ ∀ id ∈ upper_level_sst_ids, id ∈ st.levelIds (i - 1)

/-- The same of a task of either controller. -/
def CompactionTask.Descends (max_levels : ℕ) (st : LsmStorageState) : CompactionTask → Prop
  | .simple t => MiniLsm.Descends max_levels st t.upper_level t.upper_level_sst_ids t.lower_level
  | .leveled t => MiniLsm.Descends max_levels st t.upper_level t.upper_level_sst_ids t.lower_level
  | _ => False

/-- Fewer tables in one place, whatever comes behind it. -/
theorem shortlex_set {l : List ℕ} {i j x y : ℕ} (z : ℕ) (hij : i < j) (hi : l[i]? = some x)
    (hy : y < x) : List.Shortlex (· < ·) ((l.set i y).set j z) l := by
  refine List.Shortlex.of_lex (by simp) ?_
  induction l generalizing i j with
  | nil => cases hi
  | cons x' l ih =>
    obtain ⟨j, rfl⟩ : ∃ k, j = k + 1 := ⟨j - 1, by omega⟩
    rcases i with _ | i
    · cases hi
      exact List.Lex.rel hy
    · exact List.Lex.cons (ih (by omega) hi)

theorem map_setLevel (levels : List (ℕ × List ℕ)) (i : ℕ) (ids : List ℕ) :
    (setLevel levels i ids).map (fun level => level.2.length) =
      (levels.map fun level => level.2.length).set i ids.length := by
  induction levels generalizing i with
  | nil => simp [setLevel]
  | cons level levels ih =>
    rcases i with _ | i
    · rfl
    · exact congrArg (level.2.length :: ·) (ih i)

theorem length_removeOnce_le (set xs : List ℕ) : (removeOnce set xs).length ≤ xs.length := by
  induction xs generalizing set with
  | nil => exact le_rfl
  | cons y xs ih =>
    rw [removeOnce]
    split_ifs
    · exact (ih _).trans (Nat.le_succ _)
    · exact Nat.succ_le_succ (ih _)

theorem length_removeOnce_lt {set xs : List ℕ} {x : ℕ} (hset : x ∈ set) (hx : x ∈ xs) :
    (removeOnce set xs).length < xs.length := by
  induction xs with
  | nil => cases hx
  | cons y xs ih =>
    rw [removeOnce]
    split_ifs with hy
    · exact Nat.lt_succ_of_le (length_removeOnce_le _ _)
    · have hne : x ≠ y := by
        rintro rfl
        exact hy hset
      exact Nat.succ_lt_succ (ih ((List.mem_cons.mp hx).resolve_left hne))

/-- A level, among the numbers of tables. -/
theorem LsmStorageState.sizes_getElem? (st : LsmStorageState) {i : ℕ} (h : i < st.levels.length) :
    st.sizes[i + 1]? = some (st.levelIds i).length := by
  simp [sizes, levelIds, h]

namespace SimpleLeveledCompactionController

variable {r : Rounding} {options : SimpleLeveledCompactionOptions} {st : LsmStorageState}
  {t : SimpleLeveledCompactionTask}

/-- A generated task moves tables down. -/
theorem generateCompactionTask_descends (htrigger : 1 ≤ options.level0_file_num_compaction_trigger)
    (hlen : st.levels.length = options.max_levels)
    (h : generateCompactionTask r options st = some t) :
    Descends options.max_levels st t.upper_level t.upper_level_sst_ids t.lower_level := by
  rw [generateCompactionTask] at h
  split_ifs at h with h0 hl0
  · cases h
    have hpos : 0 < st.l0_sstables.length := by omega
    exact ⟨le_rfl, by dsimp only; omega, List.ne_nil_of_length_pos hpos, rfl⟩
  · obtain ⟨i, hi, ht⟩ := List.exists_of_findSome?_eq_some h
    rw [List.mem_range'_1] at hi
    obtain ⟨i, rfl⟩ : ∃ k, i = k + 1 := ⟨i - 1, by omega⟩
    simp only [sizeRatioTask] at ht
    split at ht
    next size lower_size hsize hlower =>
      split_ifs at ht with hzero
      cases ht
      have hlevel := st.sizes_getElem? (i := i) (by omega)
      rw [LsmStorageState.sizes, hsize, Option.some.injEq] at hlevel
      have hpos : 0 < (st.levelIds i).length := by omega
      exact ⟨by simp, by dsimp only; omega, List.ne_nil_of_length_pos hpos, by omega, by simp,
        fun id hid => hid⟩
    · cases ht

/-- Applying a task that moves tables down makes the numbers of tables smaller. -/
theorem applyCompactionResult_sizes (out : List ℕ) (hlen : st.levels.length = options.max_levels)
    (h : Descends options.max_levels st t.upper_level t.upper_level_sst_ids t.lower_level) :
    List.Shortlex (· < ·) (applyCompactionResult st t out).1.sizes st.sizes ∧
      (applyCompactionResult st t out).1.levels.length = st.levels.length := by
  obtain ⟨upper_level, upper, lower_level, lower, bottom⟩ := t
  obtain ⟨hlow, hmax, hne, h⟩ := h
  dsimp only at hlow hmax hne h
  obtain ⟨n, rfl⟩ : ∃ k, lower_level = k + 1 := ⟨lower_level - 1, by omega⟩
  refine ⟨?_, by rcases upper_level with _ | i <;> simp [applyCompactionResult, setLevel]⟩
  rcases upper_level with _ | i
  · obtain rfl : upper = st.l0_sstables := h
    obtain ⟨x, hx⟩ := List.exists_mem_of_ne_nil _ hne
    have hsizes : (applyCompactionResult st
        ⟨none, st.l0_sstables, n + 1, lower, bottom⟩ out).1.sizes =
        (st.sizes.set 0 (removeOnce st.l0_sstables st.l0_sstables).length).set (n + 1)
          out.length := by
      simp [applyCompactionResult, LsmStorageState.sizes, map_setLevel]
    rw [hsizes]
    exact shortlex_set _ (by omega) rfl (length_removeOnce_lt hx hx)
  · obtain ⟨hi, hlt, hmem⟩ := h
    obtain ⟨i, rfl⟩ : ∃ k, i = k + 1 := ⟨i - 1, by omega⟩
    have hsizes : (applyCompactionResult st ⟨some (i + 1), upper, n + 1, lower, bottom⟩
        out).1.sizes = (st.sizes.set (i + 1) 0).set (n + 1) out.length := by
      simp [applyCompactionResult, LsmStorageState.sizes, map_setLevel]
    rw [hsizes]
    obtain ⟨x, hx⟩ := List.exists_mem_of_ne_nil _ hne
    exact shortlex_set _ hlt (st.sizes_getElem? (by omega)) (List.length_pos_of_mem (hmem x hx))

end SimpleLeveledCompactionController

namespace LeveledCompactionController

variable {r : Rounding} {options : LeveledCompactionOptions} {st : LsmStorageState}
  {t : LeveledCompactionTask}

/-- A generated task moves tables down. -/
theorem generateCompactionTask_descends (hmax : 1 ≤ options.max_levels)
    (htrigger : 1 ≤ options.level0_file_num_compaction_trigger)
    (hlen : st.levels.length = options.max_levels)
    (h : generateCompactionTask r options st = some t) :
    Descends options.max_levels st t.upper_level t.upper_level_sst_ids t.lower_level := by
  obtain ⟨pre, b, ids, post, hlev, hll, -, -, hf⟩ := generateCompactionTask_fits hmax hlen h
  have hmem : t.lower_level ≤ options.max_levels := by
    have := congrArg List.length hlev
    rw [List.length_append, List.length_cons] at this
    omega
  refine ⟨by omega, hmem, ?_⟩
  rcases hul : t.upper_level with _ | i
  · -- The task takes all of level 0.
    rw [generateCompactionTask] at h
    split_ifs at h with hl0
    · cases h
      have hpos : 0 < st.l0_sstables.length := by omega
      exact ⟨List.ne_nil_of_length_pos hpos, rfl⟩
    · split at h
      · cases h
      · split_ifs at h
        split at h
        · cases h
        · cases h
          cases hul
  · rw [hul] at hf
    obtain ⟨above, a, up, x, rfl, rfl, hx, hup⟩ := hf
    rw [List.length_append, List.length_singleton] at hll
    refine ⟨by simp [hup], by omega, by omega, fun id hid => ?_⟩
    rw [hup, List.mem_singleton] at hid
    simpa [LsmStorageState.levelIds, hlev, hid] using hx

/-- Applying a task that moves tables down makes the numbers of tables smaller. -/
theorem applyCompactionResult_sizes (out : List ℕ) (hlen : st.levels.length = options.max_levels)
    (h : Descends options.max_levels st t.upper_level t.upper_level_sst_ids t.lower_level) :
    List.Shortlex (· < ·) (applyCompactionResult st t out false).1.sizes st.sizes ∧
      (applyCompactionResult st t out false).1.levels.length = st.levels.length := by
  obtain ⟨upper_level, upper, lower_level, lower, bottom⟩ := t
  obtain ⟨hlow, hmax, hne, h⟩ := h
  dsimp only at hlow hmax hne h
  obtain ⟨n, rfl⟩ : ∃ k, lower_level = k + 1 := ⟨lower_level - 1, by omega⟩
  refine ⟨?_, by rcases upper_level with _ | i <;> simp [applyCompactionResult, setLevel]⟩
  obtain ⟨x, hx⟩ := List.exists_mem_of_ne_nil _ hne
  rcases upper_level with _ | i
  · obtain rfl : upper = st.l0_sstables := h
    have hsizes : ∃ z, (applyCompactionResult st
        ⟨none, st.l0_sstables, n + 1, lower, bottom⟩ out false).1.sizes =
        (st.sizes.set 0 (removeOnce st.l0_sstables st.l0_sstables).length).set (n + 1) z :=
      ⟨_, by simp [applyCompactionResult, LsmStorageState.sizes, map_setLevel]; rfl⟩
    obtain ⟨z, hsizes⟩ := hsizes
    rw [hsizes]
    exact shortlex_set _ (by omega) rfl (length_removeOnce_lt hx hx)
  · obtain ⟨hi, hlt, hmem⟩ := h
    obtain ⟨i, rfl⟩ : ∃ k, i = k + 1 := ⟨i - 1, by omega⟩
    have hsizes : ∃ z, (applyCompactionResult st ⟨some (i + 1), upper, n + 1, lower, bottom⟩
        out false).1.sizes =
        (st.sizes.set (i + 1) (removeOnce upper (st.levelIds i)).length).set (n + 1) z :=
      ⟨_, by simp [applyCompactionResult, LsmStorageState.sizes, map_setLevel]; rfl⟩
    obtain ⟨z, hsizes⟩ := hsizes
    rw [hsizes]
    exact shortlex_set _ hlt (st.sizes_getElem? (by omega)) (length_removeOnce_lt hx (hmem x hx))

end LeveledCompactionController

/-- The options of a controller with `max_levels` levels. -/
def CompactionOptions.HasLevels (max_levels : ℕ) : CompactionOptions → Prop
  | .simple o => o.max_levels = max_levels ∧ 1 ≤ o.level0_file_num_compaction_trigger
  | .leveled o => o.max_levels = max_levels ∧ 1 ≤ o.level0_file_num_compaction_trigger ∧
      1 ≤ o.level_size_multiplier
  | _ => False

namespace LsmStorageInner

variable {M : Type} {E : Extern} {io : ManifestIO M} {s s' : LsmStorageInner M} {max_levels : ℕ}

/-- The task of a controller with levels moves tables down. -/
theorem generateTask_descends (hmax : 1 ≤ max_levels)
    (ho : s.options.compaction_options.HasLevels max_levels)
    (hlen : s.state.levels.length = max_levels) {task : CompactionTask}
    (h : s.generateTask E = some task) : task.Descends max_levels s.state := by
  simp only [generateTask, CompactionController.generateCompactionTask] at h
  rcases hopt : s.options.compaction_options with o | o | o | _
  · rw [hopt] at h ho
    obtain ⟨t, ht, rfl⟩ := Option.map_eq_some_iff.mp h
    obtain ⟨rfl, htrigger, -⟩ := ho
    exact LeveledCompactionController.generateCompactionTask_descends hmax htrigger hlen ht
  · rw [hopt] at ho
    cases ho
  · rw [hopt] at h ho
    obtain ⟨t, ht, rfl⟩ := Option.map_eq_some_iff.mp h
    obtain ⟨rfl, htrigger⟩ := ho
    exact SimpleLeveledCompactionController.generateCompactionTask_descends htrigger hlen ht
  · rw [hopt] at ho
    cases ho

/-- A call of `trigger_compaction` that returns true makes the numbers of tables smaller. -/
theorem TriggerCall.sizes (hmax : 1 ≤ max_levels)
    (ho : s.options.compaction_options.HasLevels max_levels)
    (hlen : s.state.levels.length = max_levels) (h : TriggerCall E io s true s') :
    List.Shortlex (· < ·) s'.state.sizes s.state.sizes ∧
      s'.state.levels.length = s.state.levels.length ∧ s'.options = s.options := by
  unfold TriggerCall at h
  rcases hgen : s.generateTask E with _ | task
  · rw [hgen] at h
    cases h.1
  rw [hgen] at h
  obtain ⟨-, s₁, ts, hw, happly⟩ := h
  have hdesc := generateTask_descends hmax ho hlen hgen
  obtain ⟨st', old, hres, hl0, hlev, hopts, -, -⟩ := applyTrigger_eq_ok happly
  have hsizes : s'.state.sizes = st'.sizes := by
    rw [LsmStorageState.sizes, LsmStorageState.sizes, hl0, hlev]
  have hlen₁ : (s₁.withTables ts).levels.length = max_levels := by
    rw [← hlen, ← hw.state]
    rfl
  have hsizes₁ : (s₁.withTables ts).sizes = s.state.sizes := by
    rw [← hw.state]
    rfl
  have hdesc₁ : task.Descends max_levels (s₁.withTables ts) := by
    rw [← hw.state] at hdesc
    exact hdesc
  -- The upper level has fewer tables and those above it have as many as before, so that the
  -- sizes are smaller in their order.
  have hstep : List.Shortlex (· < ·) st'.sizes (s₁.withTables ts).sizes ∧
      st'.levels.length = (s₁.withTables ts).levels.length := by
    rw [hw.options] at hres
    rcases hopt : s.options.compaction_options with o | o | o | _
    · rw [hopt] at ho hres
      obtain ⟨rfl, -⟩ := ho
      match task, hdesc₁, hres with
      | .leveled t, hdesc₁, hres =>
        have hres := Except.ok.inj hres
        have := LeveledCompactionController.applyCompactionResult_sizes (ts.map SsTable.id) hlen₁
          hdesc₁
        rwa [hres] at this
      | .simple t, _, hres => cases hres
    · rw [hopt] at ho
      cases ho
    · rw [hopt] at ho hres
      obtain ⟨rfl, -⟩ := ho
      match task, hdesc₁, hres with
      | .simple t, hdesc₁, hres =>
        have hres := Except.ok.inj hres
        have := SimpleLeveledCompactionController.applyCompactionResult_sizes (ts.map SsTable.id)
          hlen₁ hdesc₁
        rwa [hres] at this
      | .leveled t, _, hres => cases hres
    · rw [hopt] at ho
      cases ho
  rw [hsizes₁] at hstep
  refine ⟨hsizes ▸ hstep.1, ?_, hopts.trans hw.options⟩
  rw [hlev, hstep.2, hlen₁, hlen]

end LsmStorageInner

/-! ## Tiers -/

/-- The identifiers of the tiers are distinct and not those of memtables. The tiers that are newer
than one with the identifier zero have one table each. -/
structure TierInv {M : Type} (s : LsmStorageInner M) : Prop where
  next_pos : 0 < s.next_sst_id
  mem_ids : (s.state.memtables.map MemTable.id).Pairwise (· > ·)
  mem_lt : ∀ m ∈ s.state.memtables, m.id < s.next_sst_id
  mem_ne : ∀ m ∈ s.state.memtables, ∀ tier ∈ s.state.levels, m.id ≠ tier.1
  mem_pos : s.state.levels ≠ [] → ∀ m ∈ s.state.memtables, m.id ≠ 0
  tier_lt : ∀ tier ∈ s.state.levels, tier.1 < s.next_sst_id
  nodup : (s.state.levels.map Prod.fst).Nodup
  zero : ∀ pre tier post, s.state.levels = pre ++ tier :: post → tier.1 = 0 →
    tier.2.length ≤ 1 ∧ ∀ t ∈ pre, t.2.length = 1

/-- The tiers of a task are at least two. Since it was chosen, tables have been flushed in front of
them, and the tiers behind them do not have the identifier zero. -/
def TieredCompactionTask.Within (t : TieredCompactionTask) (st : LsmStorageState) : Prop :=
  2 ≤ t.tiers.length ∧ ∃ new rest, st.levels = new ++ (t.tiers ++ rest) ∧
    (∀ tier ∈ new, tier.2.length = 1 ∧ tier.1 ≠ 0) ∧ ∀ tier ∈ rest, tier.1 ≠ 0

/-- The identifiers of tables that are not in the state yet. -/
def Unused {M : Type} (s : LsmStorageInner M) (ts : List SsTable) : Prop :=
  ∀ t ∈ ts, t.id ≠ 0 ∧ t.id < s.next_sst_id ∧ (∀ tier ∈ s.state.levels, tier.1 ≠ t.id) ∧
    ∀ m ∈ s.state.memtables, m.id ≠ t.id

namespace TieredCompactionController

/-- With exact ratios, a tier of at most one table is not larger than two tiers or more of one table
each. -/
theorem sizeRatioTrigger_eq_false {options : TieredCompactionOptions} {levels : List (ℕ × List ℕ)}
    {id : ℕ} (hsize : 1 ≤ ((levels.take (id + 1)).map fun p => p.2.length).sum)
    (hnext : ((levels[id + 1]?).map fun p => p.2.length).getD 0 ≤
      ((levels.take (id + 1)).map fun p => p.2.length).sum) :
    sizeRatioTrigger Rounding.exact options levels id = false := by
  unfold sizeRatioTrigger
  dsimp only
  generalize ((levels.take (id + 1)).map fun p => p.2.length).sum = size at hsize hnext
  generalize ((levels[id + 1]?).map fun p => p.2.length).getD 0 = next at hnext
  rw [Bool.and_eq_false_iff]
  left
  have hpos : (0 : ℚ) < size := by exact_mod_cast hsize
  have hratio : (next : ℚ) / size ≤ 1 := (div_le_one hpos).mpr (by exact_mod_cast hnext)
  have htrigger : (1 : ℚ) ≤ (100 + options.size_ratio) / 100 := by
    rw [one_le_div (by norm_num)]
    exact le_add_of_nonneg_right (Nat.cast_nonneg _)
  simp only [Double.ofNat, Double.div, Double.add, Rounding.exact, id_eq, Double.lt, if_neg hpos.ne',
    OfNat.ofNat_ne_zero, if_false, decide_eq_false_iff_not, not_lt]
  exact hratio.trans htrigger

/-- A generated task takes at least two tiers from the newest on, and none of those it leaves has
the identifier zero. -/
theorem generateCompactionTask_within {options : TieredCompactionOptions} {M : Type}
    {s : LsmStorageInner M} {t : TieredCompactionTask} (hn : 2 ≤ options.num_tiers)
    (hmin : 2 ≤ options.min_merge_width) (hmax : options.max_merge_width = none) (hinv : TierInv s)
    (h : generateCompactionTask Rounding.exact options s.state = some t) :
    ∃ n, 2 ≤ n ∧ n ≤ s.state.levels.length ∧ t.tiers = s.state.levels.take n ∧
      ∀ tier ∈ s.state.levels.drop n, tier.1 ≠ 0 := by
  rw [generateCompactionTask] at h
  dsimp only at h
  split_ifs at h with h0 hamp
  · cases h
    exact ⟨s.state.levels.length, by omega, le_rfl, by simp, by simp⟩
  · split at h
    next id hid =>
      cases h
      have hmem := List.mem_of_find?_eq_some hid
      have htrigger := List.find?_some hid
      have hwidth : id + 1 ≥ options.min_merge_width := by
        unfold sizeRatioTrigger at htrigger
        simp only [Bool.and_eq_true, decide_eq_true_eq] at htrigger
        exact htrigger.2
      rw [List.mem_range] at hmem
      refine ⟨id + 1, by omega, by omega, rfl, fun tier htier hzero => ?_⟩
      -- The tiers before the one with the identifier zero have one table each.
      obtain ⟨i, hi, rfl⟩ := List.mem_iff_getElem.mp htier
      rw [List.length_drop] at hi
      obtain ⟨hle, hpre⟩ := hinv.zero (s.state.levels.take (id + 1 + i)) (s.state.levels.drop
        (id + 1))[i] (s.state.levels.drop (id + 1 + i + 1)) (by
          rw [List.getElem_drop, ← List.drop_eq_getElem_cons (by omega), List.take_append_drop]) hzero
      have hone : ∀ tier ∈ s.state.levels.take (id + 1), tier.2.length = 1 := fun tier ht =>
        hpre tier ((List.take_prefix_take_left (by omega)).subset ht)
      have hsum : ((s.state.levels.take (id + 1)).map fun p => p.2.length).sum = id + 1 := by
        rw [List.map_congr_left hone, List.map_const', List.sum_replicate, List.length_take]
        simp
        omega
      have hnext : ((s.state.levels[id + 1]?).map fun p => p.2.length).getD 0 ≤ 1 := by
        rw [List.getElem?_eq_getElem (by omega)]
        rcases i with _ | i
        · rw [List.getElem_drop] at hle
          exact hle
        · refine (hpre _ ?_).le
          rw [List.mem_take_iff_getElem]
          exact ⟨id + 1, by omega, rfl⟩
      rw [sizeRatioTrigger_eq_false (by omega) (by omega)] at htrigger
      cases htrigger
    · cases h
      rw [hmax]
      exact ⟨s.state.levels.length, by omega, le_rfl, rfl, by simp⟩

end TieredCompactionController

namespace TierInv

variable {M : Type} {E : Extern} {io : ManifestIO M} {s s' : LsmStorageInner M}

/-- A fresh store. -/
theorem openFresh (io : ManifestIO M) (disk : Disk M) {options : LsmStorageOptions}
    {o : TieredCompactionOptions} (ho : options.compaction_options = .tiered o) :
    TierInv (openFresh io disk options) := by
  obtain ⟨m, hmems, hid, -⟩ := openFresh_memtables io disk options
  have hlev : (LsmStorageInner.openFresh io disk options).state.levels = [] := by
    rw [openFresh_state]
    simp [LsmStorageState.create, ho]
  have hnext : (LsmStorageInner.openFresh io disk options).next_sst_id = 1 :=
    openFresh_next_sst_id io disk options
  refine ⟨by omega, ?_, ?_, ?_, ?_, ?_, ?_, ?_⟩
  · simp [hmems]
  · simp [hmems, hid, hnext]
  · simp [hlev]
  · simp [hlev]
  · simp [hlev]
  · simp [hlev]
  · simp [hlev]

/-- A step that keeps the tiers, and of the memtables the identifiers or all but a new one. -/
theorem of_levels (h : TierInv s) (hlev : s'.state.levels = s.state.levels)
    (hmem : s'.state.memtables.map MemTable.id = s.state.memtables.map MemTable.id ∨
      s'.state.memtables.map MemTable.id = s.next_sst_id :: s.state.memtables.map MemTable.id ∧
        s.next_sst_id < s'.next_sst_id) (hnext : s.next_sst_id ≤ s'.next_sst_id) :
    TierInv s' := by
  have hids : ∀ m' ∈ s'.state.memtables, (∃ m ∈ s.state.memtables, m.id = m'.id) ∨
      m'.id = s.next_sst_id ∧ s.next_sst_id < s'.next_sst_id := by
    intro m' hm'
    have hid := List.mem_map_of_mem (f := MemTable.id) hm'
    rcases hmem with hmem | ⟨hmem, hlt⟩
    · rw [hmem] at hid
      exact .inl (List.mem_map.mp hid)
    · rw [hmem] at hid
      rcases List.mem_cons.mp hid with hid | hid
      · exact .inr ⟨hid, hlt⟩
      · exact .inl (List.mem_map.mp hid)
  have hpos := h.next_pos
  refine ⟨by omega, ?_, fun m' hm' => ?_, ?_, ?_, ?_, ?_, ?_⟩
  · rcases hmem with hmem | ⟨hmem, -⟩
    · rw [hmem]
      exact h.mem_ids
    · rw [hmem, List.pairwise_cons]
      refine ⟨fun id hid => ?_, h.mem_ids⟩
      obtain ⟨m, hm, rfl⟩ := List.mem_map.mp hid
      exact h.mem_lt m hm
  · rcases hids m' hm' with ⟨m, hm, heq⟩ | ⟨heq, hlt⟩
    · have := h.mem_lt m hm
      omega
    · omega
  · rw [hlev]
    intro m' hm' tier ht
    rcases hids m' hm' with ⟨m, hm, heq⟩ | ⟨heq, -⟩
    · exact heq ▸ h.mem_ne m hm tier ht
    · have := h.tier_lt tier ht
      omega
  · rw [hlev]
    intro hne m' hm'
    rcases hids m' hm' with ⟨m, hm, heq⟩ | ⟨heq, -⟩
    · exact heq ▸ h.mem_pos hne m hm
    · omega
  · rw [hlev]
    exact fun tier ht => (h.tier_lt tier ht).trans_le hnext
  · rw [hlev]
    exact h.nodup
  · rw [hlev]
    exact h.zero

/-- The tier of the oldest memtable comes in front. -/
theorem flushed (h : TierInv s) {imm : List MemTable} {m : MemTable}
    (himm : s.state.imm_memtables = imm ++ [m]) (hmem : s'.state.memtable = s.state.memtable)
    (himm' : s'.state.imm_memtables = imm) (hnext : s'.next_sst_id = s.next_sst_id)
    (hlev : s'.state.levels = (m.id, [m.id]) :: s.state.levels) : TierInv s' := by
  have hmems : s.state.memtables = s'.state.memtables ++ [m] := by
    rw [LsmStorageState.memtables, LsmStorageState.memtables, himm, hmem, himm', List.cons_append]
  have hids := h.mem_ids
  rw [hmems, List.map_append, List.pairwise_append] at hids
  have hgt : ∀ m' ∈ s'.state.memtables, m.id < m'.id := fun m' hm' =>
    hids.2.2 m'.id (List.mem_map_of_mem hm') m.id (by simp)
  have hsub : ∀ m' ∈ s'.state.memtables, m' ∈ s.state.memtables := fun m' hm' => by
    rw [hmems]
    exact List.mem_append_left _ hm'
  have hm : m ∈ s.state.memtables := by simp [hmems]
  refine ⟨hnext ▸ h.next_pos, hids.1, fun m' hm' => hnext ▸ h.mem_lt m' (hsub m' hm'), ?_,
    fun _ m' hm' => ?_, ?_, ?_, ?_⟩
  · rw [hlev]
    intro m' hm' tier ht
    rcases List.mem_cons.mp ht with rfl | ht
    · exact (hgt m' hm').ne'
    · exact h.mem_ne m' (hsub m' hm') tier ht
  · have := hgt m' hm'
    omega
  · rw [hlev, hnext, List.forall_mem_cons]
    exact ⟨h.mem_lt m hm, h.tier_lt⟩
  · rw [hlev, List.map_cons, List.nodup_cons]
    refine ⟨fun hmem => ?_, h.nodup⟩
    obtain ⟨tier, ht, heq⟩ := List.mem_map.mp hmem
    exact h.mem_ne m hm tier ht heq.symm
  · rw [hlev]
    intro pre tier post heq hzero
    rcases pre with _ | ⟨first, pre⟩
    · rw [List.nil_append, List.cons.injEq] at heq
      rw [← heq.1]
      exact ⟨by simp, by simp⟩
    · rw [List.cons_append, List.cons.injEq] at heq
      obtain ⟨hle, hpre⟩ := h.zero pre tier post heq.2 hzero
      rw [← heq.1, List.forall_mem_cons]
      exact ⟨hle, by simp, hpre⟩

/-- What applying a task leaves: one tier in the place of those of the task. -/
theorem applied (h : TierInv s) {o : TieredCompactionOptions}
    (ho : s.options.compaction_options = .tiered o) {t : TieredCompactionTask}
    (ht : t.Within s.state) {ts : List SsTable} (hts : Unused s ts)
    (happly : s.applyTrigger io (.tiered t) ts = (.ok (), s')) :
    TierInv s' ∧ s'.options = s.options ∧ ∃ new rest, s.state.levels = new ++ (t.tiers ++ rest) ∧
      s'.state.levels = new ++ ((ts.map SsTable.id).head?.getD 0, ts.map SsTable.id) :: rest ∧
      s'.state.levels.length < s.state.levels.length := by
  obtain ⟨htwo, new, rest, hlev, hnew, hrest⟩ := ht
  obtain ⟨st', old, hres, -, hlev', hopts, hnext, hmems⟩ := applyTrigger_eq_ok happly
  have hne : t.tiers ≠ [] := by
    rintro hnil
    rw [hnil] at htwo
    cases htwo
  have heq := TieredCompactionController.applyCompactionResult_eq (s.withTables ts) hne hlev h.nodup
    (ts.map SsTable.id)
  rw [ho] at hres
  have hst := Except.ok.inj hres
  rw [heq, Prod.mk.injEq] at hst
  rw [← hst.1] at hlev'
  dsimp only at hlev'
  clear heq hres hst
  -- The new tier has a new identifier, or it is empty and has the identifier zero.
  obtain ⟨tier, htier⟩ : ∃ tier, tier =
    ((ts.map SsTable.id).head?.getD 0, ts.map SsTable.id) := ⟨_, rfl⟩
  rw [← htier] at hlev'
  have hcases : tier.1 = 0 ∧ tier.2.length = 0 ∨ tier.1 ≠ 0 ∧ tier.1 < s.next_sst_id ∧
      (∀ tier' ∈ s.state.levels, tier'.1 ≠ tier.1) ∧
      ∀ m ∈ s.state.memtables, m.id ≠ tier.1 := by
    rcases ts with _ | ⟨sst, ts⟩
    · exact .inl ⟨by rw [htier]; rfl, by rw [htier]; rfl⟩
    · rw [htier]
      exact .inr (hts sst (by simp))
  have hmem : ∀ tier', tier' ∈ new ∨ tier' ∈ rest → tier' ∈ s.state.levels := by
    intro tier' ht'
    rw [hlev]
    simp only [List.mem_append]
    tauto
  have hlevne : s.state.levels ≠ [] := by
    rw [hlev]
    simp [hne]
  have hnotin : ∀ tier', tier' ∈ new ∨ tier' ∈ rest → tier'.1 ≠ tier.1 := by
    intro tier' ht'
    rcases hcases with ⟨hzero, -⟩ | ⟨-, -, hfresh, -⟩
    · rw [hzero]
      exact ht'.elim (fun hn => (hnew tier' hn).2) (hrest tier')
    · exact hfresh tier' (hmem tier' ht')
  have hlevmem : ∀ tier' ∈ s'.state.levels, tier' = tier ∨ tier' ∈ new ∨ tier' ∈ rest := by
    intro tier' ht'
    rw [hlev', List.mem_append, List.mem_cons] at ht'
    tauto
  refine ⟨⟨hnext ▸ h.next_pos, hmems ▸ h.mem_ids, by rw [hmems, hnext]; exact h.mem_lt, ?_, ?_, ?_,
    ?_, ?_⟩, hopts, new, rest, hlev, hlev'.trans (by rw [htier]), ?_⟩
  · rw [hmems]
    intro m hm tier' ht'
    rcases hlevmem tier' ht' with rfl | hold
    · rcases hcases with ⟨hzero, -⟩ | ⟨-, -, -, hfresh⟩
      · rw [hzero]
        exact h.mem_pos hlevne m hm
      · exact hfresh m hm
    · exact h.mem_ne m hm tier' (hmem tier' hold)
  · rw [hmems]
    exact fun _ => h.mem_pos hlevne
  · intro tier' ht'
    rw [hnext]
    rcases hlevmem tier' ht' with rfl | hold
    · rcases hcases with ⟨hzero, -⟩ | ⟨-, hlt, -⟩
      · rw [hzero]
        exact h.next_pos
      · exact hlt
    · exact h.tier_lt tier' (hmem tier' hold)
  · have hnd := h.nodup
    rw [hlev, List.map_append, List.map_append, List.nodup_append] at hnd
    have hndrest := (List.nodup_append.mp hnd.2.1).2.1
    rw [hlev', List.map_append, List.map_cons, List.nodup_append, List.nodup_cons]
    refine ⟨hnd.1, ⟨fun hin => ?_, hndrest⟩, fun id hid id' hid' heq => ?_⟩
    · obtain ⟨tier', ht', heq⟩ := List.mem_map.mp hin
      exact hnotin tier' (.inr ht') heq
    · subst heq
      obtain ⟨tier', ht', rfl⟩ := List.mem_map.mp hid
      rcases List.mem_cons.mp hid' with heq | hin
      · exact hnotin tier' (.inl ht') heq
      · exact hnd.2.2 tier'.1 hid tier'.1 (List.mem_append_right _ hin) rfl
  · intro pre tier' post heq hzero
    rw [hlev'] at heq
    have hnot : tier' ∉ new ∧ tier' ∉ rest :=
      ⟨fun hin => (hnew tier' hin).2 hzero, fun hin => hrest tier' hin hzero⟩
    rcases List.append_eq_append_iff.mp heq with ⟨mid, hpre, hmid⟩ | ⟨mid, hpre, hmid⟩
    · rcases mid with _ | ⟨first, mid⟩
      · rw [List.nil_append, List.cons.injEq] at hmid
        rw [hpre, List.append_nil, ← hmid.1]
        refine ⟨?_, fun q hq => (hnew q hq).1⟩
        rcases hcases with ⟨-, hlen⟩ | ⟨hne', -⟩
        · omega
        · exact absurd (hmid.1 ▸ hzero) hne'
      · rw [List.cons_append, List.cons.injEq] at hmid
        exact absurd (by rw [hmid.2]; simp) hnot.2
    · rcases mid with _ | ⟨first, mid⟩
      · rw [List.nil_append, List.cons.injEq] at hmid
        rw [List.append_nil] at hpre
        rw [hmid.1, ← hpre]
        refine ⟨?_, fun q hq => (hnew q hq).1⟩
        rcases hcases with ⟨-, hlen⟩ | ⟨hne', -⟩
        · omega
        · exact absurd (hmid.1 ▸ hzero) hne'
      · rw [List.cons_append, List.cons.injEq] at hmid
        exact absurd (by rw [hpre, hmid.1]; simp) hnot.1
  · rw [hlev, hlev']
    simp only [List.length_append, List.length_cons]
    omega

/-- The tables that a compaction has written have identifiers that are not used yet. -/
theorem written (h : TierInv s) {ts : List SsTable} (hw : Written s s' ts) :
    TierInv s' ∧ Unused s' ts := by
  refine ⟨h.of_levels (by rw [hw.state]) (.inl (by rw [hw.state])) (by rw [hw.next_eq]; omega),
    fun t ht => ?_⟩
  have hid := List.mem_map_of_mem (f := SsTable.id) ht
  rw [hw.ids, List.mem_range'_1] at hid
  have hpos := h.next_pos
  rw [hw.state, hw.next_eq]
  refine ⟨by omega, hid.2, fun tier ht' => ?_, fun m hm => ?_⟩
  · have := h.tier_lt tier ht'
    omega
  · have := h.mem_lt m hm
    omega

section Options

variable {o : TieredCompactionOptions} (hn : 2 ≤ o.num_tiers) (hmin : 2 ≤ o.min_merge_width)
  (hmax : o.max_merge_width = none) (hexact : E.rounding = Rounding.exact)
include hn hmin hmax hexact

/-- A generated task takes at least two tiers, from the newest on. -/
theorem generated (h : TierInv s) (ho : s.options.compaction_options = .tiered o)
    {task : CompactionTask} (hgen : s.generateTask E = some task) :
    ∃ t n, task = .tiered t ∧ 2 ≤ n ∧ n ≤ s.state.levels.length ∧
      t.tiers = s.state.levels.take n ∧ t.Within s.state := by
  simp only [generateTask, CompactionController.generateCompactionTask, ho, hexact] at hgen
  obtain ⟨t, ht, rfl⟩ := Option.map_eq_some_iff.mp hgen
  obtain ⟨n, htwo, hle, htake, hdrop⟩ :=
    TieredCompactionController.generateCompactionTask_within hn hmin hmax h ht
  refine ⟨t, n, rfl, htwo, hle, htake, ?_, [], s.state.levels.drop n, ?_, by simp, hdrop⟩
  · rw [htake, List.length_take]
    omega
  · rw [htake, List.nil_append, List.take_append_drop]

end Options

end TierInv

/-- What a flush does to the tiers: nothing, or the one of the oldest memtable comes in front. -/
theorem LsmStorageInner.flush_tiers {M : Type} (E : Extern) (io : ManifestIO M)
    {s : LsmStorageInner M} {o : TieredCompactionOptions}
    (ho : s.options.compaction_options = .tiered o) :
    (s.forceFlushNextImmMemtable E io).2.next_sst_id = s.next_sst_id ∧
      ((s.forceFlushNextImmMemtable E io).2.state = s.state ∨
      ∃ imm m, s.state.imm_memtables = imm ++ [m] ∧
        (s.forceFlushNextImmMemtable E io).2.state.memtable = s.state.memtable ∧
        (s.forceFlushNextImmMemtable E io).2.state.imm_memtables = imm ∧
        (s.forceFlushNextImmMemtable E io).2.state.levels =
          (m.id, [m.id]) :: s.state.levels) := by
  rcases List.eq_nil_or_concat' s.state.imm_memtables with himm | ⟨imm, m, himm⟩
  · rw [flush_of_imm_nil E io himm]
    exact ⟨rfl, .inl rfl⟩
  · rw [flush_of_imm_concat E io himm, build]
    rcases SsTable.open E m.id _ with e | t
    · exact ⟨rfl, .inl rfl⟩
    · rw [Outcome.bind_ok, addRecord_next_sst_id, addRecord_state]
      refine ⟨rfl, .inr ⟨imm, m, himm, ?_⟩⟩
      simp [addFlushed, ho, CompactionController.flushToL0, himm]

namespace Machine

variable {M : Type} {E : Extern} {io : ManifestIO M} {options : LsmStorageOptions}

/-- The tiers of the store, and the task of the compaction that is in progress. -/
structure TierInv (c : Machine M Unit) : Prop where
  store : MiniLsm.TierInv c.store
  calls : ∀ call, c.calls () = some call → ∃ t, call.task = .tiered t ∧ t.Within c.store.state ∧
    ∀ ts, call.sstables = some ts → Unused c.store ts

/-- A step that keeps the tiers, and of the memtables the identifiers or all but a new one. -/
theorem TierInv.of_levels {c : Machine M Unit} {s' : LsmStorageInner M} (h : c.TierInv)
    (hlev : s'.state.levels = c.store.state.levels)
    (hmem : s'.state.memtables.map MemTable.id = c.store.state.memtables.map MemTable.id ∨
      s'.state.memtables.map MemTable.id =
          c.store.next_sst_id :: c.store.state.memtables.map MemTable.id ∧
        c.store.next_sst_id < s'.next_sst_id) (hnext : c.store.next_sst_id ≤ s'.next_sst_id) :
    TierInv { c with store := s' } := by
  refine ⟨h.store.of_levels hlev hmem hnext, fun call hcall => ?_⟩
  obtain ⟨t, htask, hwithin, hts⟩ := h.calls call hcall
  refine ⟨t, htask, ?_, fun ts hsst sst hmem' => ?_⟩
  · rw [TieredCompactionTask.Within, hlev]
    exact hwithin
  · obtain ⟨hne, hlt, htiers, hmems⟩ := hts ts hsst sst hmem'
    refine ⟨hne, hlt.trans_le hnext, by rw [hlev]; exact htiers, fun m' hm' => ?_⟩
    have hid := List.mem_map_of_mem (f := MemTable.id) hm'
    rcases hmem with hmem | ⟨hmem, -⟩
    · rw [hmem] at hid
      obtain ⟨m, hm, heq⟩ := List.mem_map.mp hid
      exact heq ▸ hmems m hm
    · rw [hmem] at hid
      rcases List.mem_cons.mp hid with hid | hid
      · omega
      · obtain ⟨m, hm, heq⟩ := List.mem_map.mp hid
        exact heq ▸ hmems m hm

theorem TierInv.freeze {c : Machine M Unit} (h : c.TierInv) :
    TierInv { c with store := c.store.forceFreezeMemtable io } := by
  have hstate := forceFreezeMemtable_state io c.store
  have hnext := forceFreezeMemtable_next_sst_id io c.store
  refine h.of_levels (by rw [hstate]) (.inr ⟨?_, by omega⟩) (by omega)
  rw [hstate]
  simp [LsmStorageState.memtables]

theorem TierInv.put {c : Machine M Unit} (h : c.TierInv) (key value : Bytes) :
    TierInv { c with store := c.store.put E io key value } := by
  have hw : TierInv { c with store := c.store.write E key value } :=
    h.of_levels rfl (.inl rfl) le_rfl
  rcases put_eq E io c.store key value with heq | heq
  · rw [heq]
    exact hw
  · rw [heq]
    exact hw.freeze

theorem TierInv.flush {c : Machine M Unit} {o : TieredCompactionOptions}
    (ho : c.store.options.compaction_options = .tiered o) (h : c.TierInv) :
    TierInv { c with store := (c.store.forceFlushNextImmMemtable E io).2 } := by
  obtain ⟨hnext, hstate | ⟨imm, m, himm, hmem, himm', hlev⟩⟩ := flush_tiers E io ho
  · exact h.of_levels (by rw [hstate]) (.inl (by rw [hstate])) hnext.ge
  have hm : m ∈ c.store.state.memtables := by simp [LsmStorageState.memtables, himm]
  refine ⟨h.store.flushed himm hmem himm' hnext hlev, fun call hcall => ?_⟩
  obtain ⟨t, htask, ⟨htwo, new, rest, hold, hnew, hrest⟩, hts⟩ := h.calls call hcall
  have hne : c.store.state.levels ≠ [] := by
    rw [hold]
    intro hnil
    simp only [List.append_eq_nil_iff] at hnil
    rw [hnil.2.1] at htwo
    cases htwo
  refine ⟨t, htask, ⟨htwo, (m.id, [m.id]) :: new, rest, ?_, ?_, hrest⟩, fun ts hsst sst hmem' => ?_⟩
  · rw [hlev, hold, List.cons_append]
  · rw [List.forall_mem_cons]
    exact ⟨⟨rfl, h.store.mem_pos hne m hm⟩, hnew⟩
  · obtain ⟨hzero, hlt, htiers, hmems⟩ := hts ts hsst sst hmem'
    refine ⟨hzero, hnext.symm ▸ hlt, ?_, fun m' hm' => hmems m' ?_⟩
    · dsimp only
      rw [hlev, List.forall_mem_cons]
      exact ⟨hmems m hm, htiers⟩
    · dsimp only at hm'
      rw [LsmStorageState.memtables, hmem, himm'] at hm'
      rw [LsmStorageState.memtables, himm]
      simp only [List.mem_cons, List.mem_append] at hm' ⊢
      tauto

section Options

variable {o : TieredCompactionOptions} (hn : 2 ≤ o.num_tiers) (hmin : 2 ≤ o.min_merge_width)
  (hmax : o.max_merge_width = none) (hexact : E.rounding = Rounding.exact)
include hn hmin hmax hexact

/-- A step keeps what is known of the tiers. -/
theorem TierInv.step {c c' : Machine M Unit} {op : Op Unit} (h : c.TierInv)
    (ho : c.store.options.compaction_options = .tiered o) (hstep : c.step E io op = some c') :
    c'.TierInv := by
  cases op with
  | put key value =>
    cases hstep
    exact h.put key value
  | del key =>
    cases hstep
    exact h.put key []
  | freeze =>
    simp only [Machine.step] at hstep
    split_ifs at hstep
    cases hstep
    exact h.freeze
  | flush =>
    cases hstep
    exact h.flush ho
  | trigger i =>
    obtain ⟨-, task, hgen, rfl⟩ := begin_eq_some hstep
    refine ⟨h.store, fun call hcall => ?_⟩
    have hcall : Function.update c.calls i (some ⟨task, none, true⟩) i = some call := hcall
    rw [Function.update_self] at hcall
    cases hcall
    obtain ⟨t, n, rfl, -, -, -, hwithin⟩ := h.store.generated hn hmin hmax hexact ho hgen
    exact ⟨t, rfl, hwithin, by simp⟩
  | full i =>
    -- A full compaction is refused.
    obtain ⟨-, task, hgen, -⟩ := begin_eq_some hstep
    simp [fullTask, ho, Except.toOption] at hgen
  | compact i =>
    obtain ⟨call, hcall, hnone, rfl⟩ := step_compact hstep
    rcases hc : c.store.compact E call.task with ⟨e | ts, s₁⟩
    · have hw := compact_wrote (E := E) c.store call.task
      rw [hc] at hw
      have hlev : s₁.state.levels = c.store.state.levels := by rw [hw.state]
      have hstore := h.store.of_levels hlev (.inl (by rw [hw.state])) hw.next_le
      simp only [compactStep, hc, Except.toOption, Option.map_none]
      refine ⟨hstore, fun call' hcall' => ?_⟩
      have hcall' : Function.update c.calls i none i = some call' := hcall'
      rw [Function.update_self] at hcall'
      cases hcall'
    · have hw := compact_written hc
      obtain ⟨hstore, hunused⟩ := h.store.written hw
      simp only [compactStep, hc, Except.toOption, Option.map_some]
      refine ⟨hstore, fun call' hcall' => ?_⟩
      have hcall' : Function.update c.calls i (some { call with sstables := some ts }) i =
        some call' := hcall'
      rw [Function.update_self] at hcall'
      cases hcall'
      obtain ⟨t, htask, hwithin, -⟩ := h.calls call hcall
      refine ⟨t, htask, hw.state ▸ hwithin, fun ts' hts' => ?_⟩
      cases hts'
      exact hunused
  | apply i =>
    obtain ⟨call, ts, hcall, hts, rfl⟩ := step_apply hstep
    obtain ⟨t, htask, hwithin, hunused⟩ := h.calls call hcall
    refine ⟨?_, fun call' hcall' => ?_⟩
    · have happly : c.store.applyTrigger io (.tiered t) ts =
          (.ok (), (c.store.applyTrigger io (.tiered t) ts).2) := by
        simp [applyTrigger, ho, CompactionController.applyCompactionResult]
      have hstore := (h.store.applied ho hwithin (hunused ts hts) happly).1
      simp only [applyStep, applyResult, htask]
      exact hstore
    · simp [applyStep] at hcall'

/-- What is known of the tiers in every run. -/
theorem TierInv.of_steps (ho : options.compaction_options = .tiered o) {ops : List (Op Unit)}
    {c : Machine M Unit}
    (h : Steps (Machine.step E io) (fun _ _ => True) (Machine.start io options) ops c) :
    c.TierInv ∧ c.store.options.compaction_options = .tiered o := by
  refine Steps.invariant (I := fun c => c.TierInv ∧ c.store.options.compaction_options = .tiered o)
    ⟨⟨MiniLsm.TierInv.openFresh io Disk.empty ho, by simp [Machine.start]⟩, ?_⟩ ?_ h
  · rw [Machine.start, openFresh_options]
    exact ho
  · intro c op c' hc _ hstep
    exact ⟨hc.1.step hn hmin hmax hexact hc.2 hstep, by rw [step_options hstep]; exact hc.2⟩

end Options

end Machine

end MiniLsm
