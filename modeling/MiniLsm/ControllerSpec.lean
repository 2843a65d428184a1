import MiniLsm.Invariant

/-!
# What the controllers do to a state

A task fits a state when the tables it names are where the controller will look for them: for the
two controllers with levels, behind the level-0 tables that were flushed since, and for the tiered
one, as a run of tiers that may have newer ones in front (`Fits`). The task that a controller
generates fits the state it was generated from, and a flush keeps a task fitting. Where a task fits,
applying its result puts the new tables in the place of the groups of the task (`Segment`), for all
controllers but the leveled one.
-/

namespace MiniLsm

open LsmStorageInner LsmStorageInner.Applied

/-! ## Lists of identifiers -/

/-- On distinct identifiers, the loop leaves those that are not in the set. -/
theorem removeOnce_eq_filter {xs : List ℕ} (h : xs.Nodup) (set : List ℕ) :
    removeOnce set xs = xs.filter (· ∉ set) := by
  induction xs generalizing set with
  | nil => rfl
  | cons x xs ih =>
    rw [List.nodup_cons] at h
    rw [removeOnce]
    split_ifs with hx
    · rw [ih h.2, List.filter_cons_of_neg (by simpa using hx)]
      refine List.filter_congr fun y hy => ?_
      have hne : y ≠ x := by
        rintro rfl
        exact h.1 hy
      simp [hne]
    · rw [ih h.2, List.filter_cons_of_pos (by simpa using hx)]

/-- What is left of distinct identifiers without the last ones. -/
theorem filter_not_mem_append {new old : List ℕ} (h : (new ++ old).Nodup) :
    (new ++ old).filter (· ∉ old) = new := by
  rw [List.nodup_append] at h
  rw [List.filter_append, List.filter_eq_self.mpr, List.filter_eq_nil_iff.mpr, List.append_nil]
  · intro id hid
    simpa using hid
  · intro id hid
    simpa using fun hold => h.2.2 id hid id hold rfl

theorem setLevel_append (pre post : List (ℕ × List ℕ)) (a : ℕ) (x ids : List ℕ) :
    setLevel (pre ++ (a, x) :: post) pre.length ids = pre ++ (a, ids) :: post := by
  induction pre with
  | nil => rfl
  | cons p pre ih =>
    rw [setLevel] at ih ⊢
    rw [List.cons_append, List.length_cons, List.modify_succ_cons, ih, List.cons_append]

theorem levelIds_append (st : LsmStorageState) {pre post : List (ℕ × List ℕ)} {a : ℕ}
    {x : List ℕ} (h : st.levels = pre ++ (a, x) :: post) : st.levelIds pre.length = x := by
  rw [LsmStorageState.levelIds, h]
  simp

/-- A level of a state, with those before and behind it. -/
theorem exists_levels_eq (st : LsmStorageState) {i : ℕ} (h : i < st.levels.length) :
    ∃ pre a post, st.levels = pre ++ (a, st.levelIds i) :: post ∧ pre.length = i := by
  refine ⟨st.levels.take i, st.levels[i].1, st.levels.drop (i + 1), ?_, by simp; omega⟩
  have hids : st.levelIds i = st.levels[i].2 := by
    rw [LsmStorageState.levelIds, List.getElem?_eq_getElem h]
    rfl
  rw [hids]
  exact (List.take_append_drop i st.levels).symm.trans (by rw [List.drop_eq_getElem_cons h])

/-! ## Applying a result -/

namespace LsmStorageInner

variable {M : Type} {E : Extern}

/-- The last step of a compaction, once its task has been applied to the state. -/
theorem applyTrigger_applied (io : ManifestIO M) {s : LsmStorageInner M} {task : CompactionTask}
    {ts : List SsTable} (st' : LsmStorageState) {old : List ℕ}
    (happly : CompactionController.applyCompactionResult s.options.compaction_options
      (s.withTables ts) task (ts.map SsTable.id) false = .ok (st', old))
    (hmem : st'.memtable = s.state.memtable) (himm : st'.imm_memtables = s.state.imm_memtables)
    (hsst : st'.sstables = addTables s.state.sstables ts)
    (hids : ∃ rest, s.state.tableIds.Perm (old ++ rest) ∧
      st'.tableIds.Perm (ts.map SsTable.id ++ rest)) :
    (s.applyTrigger io task ts).1 = .ok () ∧ Applied s (s.applyTrigger io task ts).2 old ts ∧
      (s.applyTrigger io task ts).2.state.l0_sstables = st'.l0_sstables ∧
      (s.applyTrigger io task ts).2.state.levels = st'.levels := by
  have heq : s.applyTrigger io task ts = (.ok (), (addRecord io { s with state := { st' with
      sstables := fun id => if id ∈ old then none else st'.sstables id } }
      (.compaction task (ts.map SsTable.id))).removeSsts
        (old.filter fun id => (st'.sstables id).isSome)) := by
    rw [withTables] at happly
    rw [applyTrigger]
    dsimp only
    rw [happly, Outcome.bind_ok]
  rw [heq]
  refine ⟨rfl, ?_, ?_, ?_⟩
  · constructor
    case tableIds => simpa [removeSsts, LsmStorageState.tableIds] using hids
    case ssts =>
      intro id hid
      simp [removeSsts, hid]
    case sstables =>
      intro id
      simp [removeSsts, hsst]
    all_goals simp [removeSsts, hmem, himm]
  · simp [removeSsts]
  · simp [removeSsts]

end LsmStorageInner

/-! ## `SimpleLeveledCompactionController` -/

/-- The tables of the task are where `apply_compaction_result` looks for them. -/
def SimpleLeveledCompactionTask.Fits (t : SimpleLeveledCompactionTask) (st : LsmStorageState) :
    Prop :=
  match t.upper_level with
  | none => ∃ new a post, st.l0_sstables = new ++ t.upper_level_sst_ids ∧
      st.levels = (a, t.lower_level_sst_ids) :: post ∧ t.lower_level = 1 ∧
      (t.is_lower_level_bottom_level = true → post = [])
  | some i => ∃ pre a b post, i = pre.length + 1 ∧ t.lower_level = pre.length + 2 ∧
      st.levels = pre ++ (a, t.upper_level_sst_ids) :: (b, t.lower_level_sst_ids) :: post ∧
      (t.is_lower_level_bottom_level = true → post = [])

namespace SimpleLeveledCompactionController

/-- A generated task fits. -/
theorem generateCompactionTask_fits {r : Rounding} {options : SimpleLeveledCompactionOptions}
    {st : LsmStorageState} {t : SimpleLeveledCompactionTask}
    (hlen : st.levels.length = options.max_levels)
    (h : generateCompactionTask r options st = some t) : t.Fits st := by
  rw [generateCompactionTask] at h
  split_ifs at h with h0 hl0
  · cases h
    obtain ⟨pre, a, post, hlev, hpre⟩ := exists_levels_eq st (i := 0) (by omega)
    rw [List.length_eq_zero_iff] at hpre
    subst hpre
    refine ⟨[], a, post, rfl, hlev, rfl, fun hb => ?_⟩
    have := congrArg List.length hlev
    simp only [beq_iff_eq] at hb
    simp only [List.nil_append, List.length_cons] at this
    exact List.length_eq_zero_iff.mp (by omega)
  · obtain ⟨i, hi, ht⟩ := List.exists_of_findSome?_eq_some h
    rw [List.mem_range'_1] at hi
    simp only [sizeRatioTask] at ht
    split at ht
    · split_ifs at ht
      cases ht
      obtain ⟨pre, a, post, hlev, hpre⟩ := exists_levels_eq st (i := i - 1) (by omega)
      obtain ⟨pre', b, post', hlev', hpre'⟩ := exists_levels_eq st (i := i) (by omega)
      -- The second level follows the first.
      have hpp : pre' = pre ++ [(a, st.levelIds (i - 1))] ∧
          post = (b, st.levelIds i) :: post' := by
        rw [hlev] at hlev'
        have hboth : (pre ++ [(a, st.levelIds (i - 1))]) ++ post =
            pre' ++ (b, st.levelIds i) :: post' := by simpa using hlev'
        have := List.append_inj hboth (by simp; omega)
        exact ⟨this.1.symm, this.2⟩
      refine ⟨pre, a, b, post', by omega, by dsimp only; omega, by rw [hlev, hpp.2], fun hb => ?_⟩
      have := congrArg List.length hlev
      rw [hpp.2] at this
      simp only [beq_iff_eq] at hb
      simp only [List.length_append, List.length_cons] at this
      exact List.length_eq_zero_iff.mp (by omega)
    · cases ht

/-- Applying the result of a fitting task replaces its groups. -/
theorem applyCompactionResult_segment (st : LsmStorageState) {t : SimpleLeveledCompactionTask}
    (hf : t.Fits st) (hnd : st.tableIds.Nodup) (out : List ℕ) :
    Segment st (applyCompactionResult st t out).1 (CompactionTask.simple t).groups out
        t.is_lower_level_bottom_level ∧
      (applyCompactionResult st t out).2 = (CompactionTask.simple t).groups.flatten := by
  obtain ⟨upper_level, upper, lower_level, lower, bottom⟩ := t
  rcases upper_level with _ | i
  · obtain ⟨new, a, post, hl0, hlev, hll, hpost⟩ := hf
    dsimp only at hl0 hlev hll hpost
    subst hll
    have hl0nd : (new ++ upper).Nodup := by
      rw [← hl0]
      exact (List.nodup_append.mp hnd).1
    -- From level 0: the newer tables of level 0 stay in front of the segment.
    have hset : setLevel st.levels 0 out = (a, out) :: post := by
      rw [hlev]
      rfl
    have hids : st.levelIds 0 = lower := by
      rw [LsmStorageState.levelIds, hlev]
      rfl
    refine ⟨⟨new.map (fun id => [id]), post.map Prod.snd, [], ?_, ?_, by simp, ?_⟩, ?_⟩
    · simp [LsmStorageState.groups, hl0, hlev, CompactionTask.groups, levelGroups]
    · simp only [LsmStorageState.groups, applyCompactionResult, Nat.sub_self, hset]
      rw [hl0, removeOnce_eq_filter hl0nd, filter_not_mem_append hl0nd]
      simp
    · intro hb
      rw [hpost hb]
      rfl
    · have hflat : (upper.map fun id => [id]).flatten = upper := LsmStorageState.flatten_singletons _
      simp only [applyCompactionResult, Nat.sub_self, CompactionTask.groups, levelGroups,
        List.flatten_append, hflat]
      simp only [LsmStorageState.levelIds] at hids ⊢
      rw [hids]
      simp
  · obtain ⟨pre, a, b, post, rfl, hll, hlev, hpost⟩ := hf
    dsimp only at hll hlev hpost
    subst hll
    -- From one level to the next: the upper one is emptied, and stays as an empty level.
    have hset : setLevel st.levels pre.length [] = (pre ++ [(a, [])]) ++ (b, lower) :: post := by
      rw [hlev, setLevel_append]
      simp
    have hset' : setLevel (setLevel st.levels pre.length []) (pre.length + 1) out =
        (pre ++ [(a, [])]) ++ (b, out) :: post := by
      have := setLevel_append (pre ++ [(a, [])]) post b lower out
      rwa [List.length_append, ← hset] at this
    have hids : st.levelIds pre.length = upper := levelIds_append st hlev
    have hids' : LsmStorageState.levelIds { st with levels := setLevel st.levels pre.length [] }
        (pre.length + 1) = lower := by
      have := levelIds_append { st with levels := setLevel st.levels pre.length [] } hset
      rwa [List.length_append] at this
    refine ⟨⟨st.l0_sstables.map (fun id => [id]) ++ pre.map Prod.snd, post.map Prod.snd, [[]],
      ?_, ?_, by simp, ?_⟩, ?_⟩
    · simp [LsmStorageState.groups, hlev, CompactionTask.groups, levelGroups]
    · simp only [LsmStorageState.groups, applyCompactionResult, Nat.add_one_sub_one]
      rw [hset']
      simp
    · intro hb
      rw [hpost hb]
      rfl
    · simp only [applyCompactionResult, CompactionTask.groups, levelGroups, Nat.add_sub_cancel]
      rw [hids, show pre.length + 2 - 1 = pre.length + 1 from rfl, hids']
      simp

/-- What the end of a compaction with simple levels leaves. -/
theorem applyTrigger_spec {M : Type} {E : Extern} (io : ManifestIO M) {s : LsmStorageInner M}
    {o : SimpleLeveledCompactionOptions} (ho : s.options.compaction_options = .simple o)
    (h : Inv E s) {t : SimpleLeveledCompactionTask} (ts : List SsTable) (hf : t.Fits s.state) :
    (s.applyTrigger io (.simple t) ts).1 = .ok () ∧
      Applied s (s.applyTrigger io (.simple t) ts).2 (CompactionTask.simple t).groups.flatten ts ∧
      Segment s.state (s.applyTrigger io (.simple t) ts).2.state (CompactionTask.simple t).groups
        (ts.map SsTable.id) t.is_lower_level_bottom_level ∧
      (s.applyTrigger io (.simple t) ts).2.state.levels.length = s.state.levels.length := by
  obtain ⟨hsg, hold⟩ := applyCompactionResult_segment (s.withTables ts) hf h.nodup
    (ts.map SsTable.id)
  have hids := hsg.tableIds
  have hstate : (applyCompactionResult (s.withTables ts) t (ts.map SsTable.id)).1 =
      { s.withTables ts with
        l0_sstables := (applyCompactionResult (s.withTables ts) t (ts.map SsTable.id)).1.l0_sstables
        levels := (applyCompactionResult (s.withTables ts) t (ts.map SsTable.id)).1.levels } := by
    rcases hul : t.upper_level with _ | i <;> simp [applyCompactionResult, hul]
  have hlen : (applyCompactionResult (s.withTables ts) t (ts.map SsTable.id)).1.levels.length =
      s.state.levels.length := by
    rcases hul : t.upper_level with _ | i <;>
      simp [applyCompactionResult, hul, setLevel, withTables]
  generalize hres : applyCompactionResult (s.withTables ts) t (ts.map SsTable.id) = res at *
  have happly : CompactionController.applyCompactionResult s.options.compaction_options
      (s.withTables ts) (.simple t) (ts.map SsTable.id) false =
        .ok (res.1, (CompactionTask.simple t).groups.flatten) := by
    rw [ho, ← hold, ← hres]
    rfl
  obtain ⟨hok, ha, hl0, hlev⟩ := applyTrigger_applied io res.1 happly (by rw [hstate]; rfl)
    (by rw [hstate]; rfl)
    (by rw [hstate]; rfl) hids
  refine ⟨hok, ha, ?_, by rw [hlev, hlen]⟩
  refine hsg.congr rfl ?_
  rw [LsmStorageState.groups, LsmStorageState.groups, hl0, hlev]

end SimpleLeveledCompactionController

/-! ## `TieredCompactionController` -/

/-- The tiers of the task are where `apply_compaction_result` looks for them. The tiers that were
flushed since are not the one of the first memtable. If the task drops deleted keys, then the tier
of the first memtable and the tier of an empty output, which has the same identifier, are not among
the older ones, unless some key has a value in the tiers of the task. -/
def TieredCompactionTask.Fits (E : Extern) (t : TieredCompactionTask) (st : LsmStorageState) :
    Prop :=
  t.tiers ≠ [] ∧ ∃ new rest, st.levels = new ++ (t.tiers ++ rest) ∧ (∀ p ∈ new, p.1 ≠ 0) ∧
    (t.bottom_tier_included = true → (∀ p ∈ rest, p.1 ≠ 0) ∨
      ∃ k, firstValue (t.tiers.map fun tier => st.run E tier.2) k ≠ [])

/-- A task that drops deleted keys has the oldest tiers. -/
def TieredCompactionTask.Sound (t : TieredCompactionTask) (st : LsmStorageState) : Prop :=
  t.bottom_tier_included = true → ∃ new, st.levels = new ++ t.tiers

namespace TieredCompactionController

/-- With no tiers to take out, the tiers stay. -/
theorem applyLoop_nil (out : List ℕ) (tiers : List (ℕ × List ℕ)) :
    applyLoop out [] true tiers = (tiers, []) := by
  induction tiers with
  | nil => rfl
  | cons p tiers ih =>
    obtain ⟨tier_id, files⟩ := p
    simp [applyLoop, Assoc.lookup_nil, ih]

/-- A list in which nothing can be found is empty. -/
theorem eq_nil_of_lookup {l : List (ℕ × List ℕ)} (h : ∀ id, Assoc.lookup id l = none) : l = [] := by
  rcases l with _ | ⟨p, l⟩
  · rfl
  · have := h p.1
    simp [Assoc.lookup_cons] at this

/-- The tiers to take out are replaced by the new one. -/
theorem applyLoop_tiers (out : List ℕ) {tiers rest tier_to_remove : List (ℕ × List ℕ)}
    (hne : tiers ≠ []) (hnd : (tiers.map Prod.fst).Nodup)
    (hr : ∀ id, Assoc.lookup id tier_to_remove = Assoc.lookup id tiers) :
    applyLoop out tier_to_remove false (tiers ++ rest) =
      ((out.head?.getD 0, out) :: rest, (tiers.map Prod.snd).flatten) := by
  induction tiers generalizing tier_to_remove with
  | nil => exact absurd rfl hne
  | cons p tiers ih =>
    obtain ⟨tier_id, files⟩ := p
    rw [List.map_cons, List.nodup_cons] at hnd
    have hfound : Assoc.lookup tier_id tier_to_remove = some files := by
      rw [hr]
      simp [Assoc.lookup_cons]
    have hr' : ∀ id, Assoc.lookup id (tier_to_remove.filter fun p => p.1 ≠ tier_id) =
        Assoc.lookup id tiers := by
      intro id
      rw [Assoc.lookup_filter_ne, hr, Assoc.lookup_cons]
      by_cases hid : id = tier_id
      · subst hid
        rw [if_pos rfl, eq_comm, Assoc.lookup_eq_none_iff]
        intro p hp hpid
        exact hnd.1 (List.mem_map.mpr ⟨p, hp, hpid⟩)
      · rw [if_neg hid, if_neg (Ne.symm hid)]
    rw [List.cons_append, applyLoop]
    simp only [hfound]
    generalize tier_to_remove.filter (fun p => p.1 ≠ tier_id) = r at hr'
    rcases tiers with _ | ⟨q, tiers⟩
    · -- This was the last one: the new tier comes here.
      rw [eq_nil_of_lookup hr']
      simp [applyLoop_nil]
    · have hemp : r.isEmpty = false := by
        rw [List.isEmpty_eq_false_iff]
        rintro rfl
        have := hr' q.1
        simp [Assoc.lookup_cons, Assoc.lookup_nil] at this
      rw [hemp, Bool.false_and, Bool.false_or, ih (by simp) hnd.2 hr']
      simp

/-- Newer tiers stay in front. -/
theorem applyLoop_new (out : List ℕ) {new : List (ℕ × List ℕ)}
    (tiers : List (ℕ × List ℕ)) {tier_to_remove : List (ℕ × List ℕ)}
    (hne : tier_to_remove ≠ []) (hnew : ∀ p ∈ new, Assoc.lookup p.1 tier_to_remove = none) :
    applyLoop out tier_to_remove false (new ++ tiers) =
      (new ++ (applyLoop out tier_to_remove false tiers).1,
        (applyLoop out tier_to_remove false tiers).2) := by
  induction new with
  | nil => rfl
  | cons p new ih =>
    obtain ⟨tier_id, files⟩ := p
    rw [List.forall_mem_cons] at hnew
    have hfilter : tier_to_remove.filter (fun p => p.1 ≠ tier_id) = tier_to_remove := by
      rw [List.filter_eq_self]
      intro q hq
      simpa using Assoc.lookup_eq_none_iff.mp hnew.1 q hq
    have hemp : tier_to_remove.isEmpty = false := List.isEmpty_eq_false_iff.mpr hne
    rw [List.cons_append, applyLoop, hfilter]
    simp [hnew.1, hemp, ih hnew.2]

/-- The levels that applying the result of a fitting task leaves. -/
theorem applyCompactionResult_eq (st : LsmStorageState) {t : TieredCompactionTask}
    {new rest : List (ℕ × List ℕ)} (hne : t.tiers ≠ [])
    (hlev : st.levels = new ++ (t.tiers ++ rest)) (hnd : (st.levels.map Prod.fst).Nodup)
    (out : List ℕ) :
    applyCompactionResult st t out =
      ({ st with levels := new ++ (out.head?.getD 0, out) :: rest },
        (t.tiers.map Prod.snd).flatten) := by
  have hnd' := hnd
  rw [hlev, List.map_append, List.map_append, List.nodup_append, List.nodup_append] at hnd'
  have htiers := hnd'.2.1.1
  have hrev : (t.tiers.reverse.map Prod.fst).Nodup := by
    rwa [List.map_reverse, List.nodup_reverse]
  have hr : ∀ id, Assoc.lookup id t.tiers.reverse = Assoc.lookup id t.tiers := by
    intro id
    apply Option.ext
    intro files
    rw [Assoc.lookup_eq_some_iff_of_nodup hrev, Assoc.lookup_eq_some_iff_of_nodup htiers,
      List.mem_reverse]
  have hnew : ∀ p ∈ new, Assoc.lookup p.1 t.tiers.reverse = none := by
    intro p hp
    rw [Assoc.lookup_eq_none_iff]
    intro q hq heq
    exact hnd'.2.2 p.1 (List.mem_map_of_mem hp) q.1
      (List.mem_append_left _ (List.mem_map_of_mem (List.mem_reverse.mp hq))) heq.symm
  have happly := applyLoop_new out (t.tiers ++ rest) (by simpa using hne) hnew
  rw [applyLoop_tiers out hne htiers hr] at happly
  rw [applyCompactionResult, hlev, happly]

/-- Tiers that replace those of a task replace its groups. -/
theorem segment_of_levels (bottom : Bool) {st st' : LsmStorageState} {t : TieredCompactionTask}
    {new rest : List (ℕ × List ℕ)} {id : ℕ} {out : List ℕ}
    (hlev : st.levels = new ++ (t.tiers ++ rest)) (hl0 : st.l0_sstables = [])
    (hlev' : st'.levels = new ++ (id, out) :: rest) (hl0' : st'.l0_sstables = [])
    (hbot : bottom = true → rest = []) :
    Segment st st' (CompactionTask.tiered t).groups out bottom := by
  refine ⟨new.map Prod.snd, rest.map Prod.snd, [], ?_, ?_, by simp, fun hb => ?_⟩
  · simp [LsmStorageState.groups, hl0, hlev, CompactionTask.groups]
  · simp [LsmStorageState.groups, hl0', hlev']
  · rw [hbot hb]
    rfl

/-- What the end of a tiered compaction leaves. -/
theorem applyTrigger_spec {M : Type} {E : Extern} (io : ManifestIO M) {s : LsmStorageInner M}
    {o : TieredCompactionOptions} (ho : s.options.compaction_options = .tiered o) (h : Inv E s)
    {t : TieredCompactionTask} (ts : List SsTable) {new rest : List (ℕ × List ℕ)}
    (hne : t.tiers ≠ []) (hlev : s.state.levels = new ++ (t.tiers ++ rest))
    (hnd : (s.state.levels.map Prod.fst).Nodup) :
    (s.applyTrigger io (.tiered t) ts).1 = .ok () ∧
      Applied s (s.applyTrigger io (.tiered t) ts).2 (CompactionTask.tiered t).groups.flatten ts ∧
      (s.applyTrigger io (.tiered t) ts).2.state.l0_sstables = [] ∧
      (s.applyTrigger io (.tiered t) ts).2.state.levels =
        new ++ ((ts.map SsTable.id).head?.getD 0, ts.map SsTable.id) :: rest := by
  have hl0 := h.tiers (by rw [ho]; rfl)
  have hl0' : (s.withTables ts).l0_sstables = [] := hl0
  have heq := applyCompactionResult_eq (s.withTables ts) hne hlev hnd (ts.map SsTable.id)
  have happly : CompactionController.applyCompactionResult s.options.compaction_options
      (s.withTables ts) (.tiered t) (ts.map SsTable.id) false = .ok ({ s.withTables ts with
        levels := new ++ ((ts.map SsTable.id).head?.getD 0, ts.map SsTable.id) :: rest },
          (CompactionTask.tiered t).groups.flatten) := by
    rw [ho]
    exact congrArg Except.ok heq
  obtain ⟨hok, ha, hl0'', hlev'⟩ := applyTrigger_applied io { s.withTables ts with
      levels := new ++ ((ts.map SsTable.id).head?.getD 0, ts.map SsTable.id) :: rest } happly rfl rfl rfl (by
      refine ⟨(new.map Prod.snd).flatten ++ (rest.map Prod.snd).flatten, ?_, ?_⟩
      · rw [LsmStorageState.tableIds, hl0, hlev]
        simp only [List.map_append, List.flatten_append, List.nil_append, CompactionTask.groups]
        exact List.perm_append_comm_assoc _ _ _
      · rw [LsmStorageState.tableIds, hl0']
        simp only [List.map_append, List.map_cons, List.flatten_append, List.flatten_cons,
          List.nil_append]
        exact List.perm_append_comm_assoc _ _ _)
  exact ⟨hok, ha, hl0''.trans hl0, hlev'⟩

/-- The tasks that can be generated: all tiers, or the newest ones. -/
theorem generateCompactionTask_cases {r : Rounding} {options : TieredCompactionOptions}
    {st : LsmStorageState} {t : TieredCompactionTask}
    (h : generateCompactionTask r options st = some t) :
    st.levels ≠ [] ∧ (t = ⟨st.levels, true⟩ ∨ (∃ n, t = ⟨st.levels.take (n + 1), false⟩) ∨
      t = ⟨st.levels.take (options.max_merge_width.elim st.levels.length (min st.levels.length)),
        true⟩) := by
  rw [generateCompactionTask] at h
  dsimp only at h
  split_ifs at h with h0 hamp
  · cases h
    exact ⟨fun hl => h0 (.inr hl), .inl rfl⟩
  · refine ⟨fun hl => h0 (.inr hl), .inr ?_⟩
    split at h
    · cases h
      exact .inl ⟨_, rfl⟩
    · cases h
      refine .inr ?_
      rcases options.max_merge_width with _ | w <;> simp

/-- Without a bound on the width of a merge, a generated task fits, and it has the oldest tiers if
it drops deleted keys. -/
theorem generateCompactionTask_fits (E : Extern) {r : Rounding} {options : TieredCompactionOptions}
    {st : LsmStorageState} {t : TieredCompactionTask} (hw : options.max_merge_width = none)
    (h : generateCompactionTask r options st = some t) : t.Fits E st ∧ t.Sound st := by
  obtain ⟨hne, rfl | ⟨n, rfl⟩ | rfl⟩ := generateCompactionTask_cases h
  · exact ⟨⟨hne, [], [], by simp, by simp, fun _ => .inl (by simp)⟩, fun _ => ⟨[], rfl⟩⟩
  · exact ⟨⟨by simpa using hne, [], st.levels.drop (n + 1), by simp, by simp, by simp⟩, by
      simp [TieredCompactionTask.Sound]⟩
  · exact ⟨⟨by simpa [hw] using hne, [], [], by simp [hw], by simp, fun _ => .inl (by simp)⟩,
      fun _ => ⟨[], by simp [hw]⟩⟩

end TieredCompactionController

/-! ## The full compaction -/

/-- The tables of the task are where `force_full_compaction` looks for them. -/
def ForceFullCompactionTask.Fits (t : ForceFullCompactionTask) (st : LsmStorageState) : Prop :=
  ∃ new a, st.l0_sstables = new ++ t.l0_sstables ∧ st.levels = [(a, t.l1_sstables)]

/-- Applying the result of a fitting task replaces its groups. -/
theorem CompactionController.applyForceFull_segment {st : LsmStorageState}
    {t : ForceFullCompactionTask} (hf : t.Fits st) (hnd : st.tableIds.Nodup) (out : List ℕ) :
    Segment st (applyForceFull st t out).1 (CompactionTask.forceFull t).groups out true := by
  obtain ⟨new, a, hl0, hlev⟩ := hf
  have hl0nd : (new ++ t.l0_sstables).Nodup := by
    rw [← hl0]
    exact (List.nodup_append.mp hnd).1
  refine ⟨new.map (fun id => [id]), [], [], ?_, ?_, by simp, fun _ => rfl⟩
  · simp [LsmStorageState.groups, hl0, hlev, CompactionTask.groups]
  · simp only [LsmStorageState.groups, applyForceFull]
    rw [hl0, filter_not_mem_append hl0nd, hlev]
    simp [setLevel]

namespace LsmStorageInner

variable {M : Type} {E : Extern}

/-- The last step of a full compaction. -/
theorem applyFull_applied (io : ManifestIO M) {s : LsmStorageInner M} (h : Inv E s)
    {t : ForceFullCompactionTask} {ts : List SsTable} (hp : Pending E s ts) (hf : t.Fits s.state) :
    Applied s (s.applyFull io t ts) (CompactionTask.forceFull t).groups.flatten ts ∧
      (s.applyFull io t ts).state.l0_sstables =
        (CompactionController.applyForceFull s.state t (ts.map SsTable.id)).1.l0_sstables ∧
      (s.applyFull io t ts).state.levels =
        (CompactionController.applyForceFull s.state t (ts.map SsTable.id)).1.levels := by
  have hold : (CompactionTask.forceFull t).groups.flatten = t.l0_sstables ++ t.l1_sstables := by
    simp [CompactionTask.groups, LsmStorageState.flatten_singletons]
  have hseg := (CompactionController.applyForceFull_segment hf h.nodup (ts.map SsTable.id)).tableIds
  rw [hold] at hseg ⊢
  refine ⟨?_, ?_, ?_⟩
  · constructor
    case tableIds =>
      simpa [applyFull, removeSsts, LsmStorageState.tableIds,
        CompactionController.applyForceFull] using hseg
    case ssts =>
      intro id hid
      rw [List.mem_append, not_or] at hid
      simp [applyFull, removeSsts, hid.1, hid.2]
    case sstables =>
      intro id
      obtain ⟨rest, hperm, -⟩ := hseg
      simp only [applyFull, removeSsts, addRecord_state]
      by_cases hid : id ∈ ts.map SsTable.id
      · obtain ⟨t', ht', rfl⟩ := List.mem_map.mp hid
        rw [addTables_of_mem _ hp.nodup ht', addTables_of_mem _ hp.nodup ht', if_neg]
        intro hmem
        exact hp.not_mem t' ht' (hperm.mem_iff.mpr (List.mem_append_left _ hmem))
      · rw [addTables_of_not_mem _ hid, addTables_of_not_mem _ hid]
        simp
    all_goals simp [applyFull, removeSsts]
  · simp [applyFull, removeSsts, CompactionController.applyForceFull]
  · simp [applyFull, removeSsts, CompactionController.applyForceFull]

end LsmStorageInner

end MiniLsm
