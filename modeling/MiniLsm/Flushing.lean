import MiniLsm.Sizes

/-!
# The flush thread

The loop of `spawn_flush_thread`, each round of which is a `trigger_flush`. However many memtables
have been frozen, the rounds bring them down to one less than `num_memtable_limit`, the oldest one
first, and then do nothing (`Machine.flushRounds_spec`). A limit of zero is one of one, but that
every round says that it has flushed.
-/

namespace MiniLsm

open LsmStorageInner

variable {M : Type} {E : Extern} {io : ManifestIO M}

namespace LsmStorageInner

variable {s s' : LsmStorageInner M}

/-- `n` rounds of the flush thread, between which the store is not used. -/
def flushRounds (E : Extern) (io : ManifestIO M) (n : ℕ) (s : LsmStorageInner M) :
    LsmStorageInner M :=
  (fun s => (s.triggerFlush E io).2)^[n] s

/-- One round more. -/
theorem flushRounds_succ (n : ℕ) (s : LsmStorageInner M) : flushRounds E io (n + 1) s =
    ((flushRounds E io n s).triggerFlush E io).2 :=
  Function.iterate_succ_apply' _ n s

/-- The store `s'` is `s` with the `n` newest of its frozen memtables. The others are tables, the
newest of which comes first. -/
structure Drained (E : Extern) (s s' : LsmStorageInner M) (n : ℕ) : Prop where
  inv : Inv E s'
  light : s'.Light
  options : s'.options = s.options
  memtable : s'.state.memtable = s.state.memtable
  imm_memtables : s'.state.imm_memtables = s.state.imm_memtables.take n
  l0_sstables : s'.state.l0_sstables =
    if CompactionController.flushToL0 s.options.compaction_options then
      (s.state.imm_memtables.drop n).map MemTable.id ++ s.state.l0_sstables
    else s.state.l0_sstables
  levels : s'.state.levels =
    if CompactionController.flushToL0 s.options.compaction_options then s.state.levels
    else (s.state.imm_memtables.drop n).map (fun m => (m.id, [m.id])) ++ s.state.levels
  view : ∀ k, s'.state.view E k = s.state.view E k

namespace Drained

variable {n : ℕ}

/-- At first there is nothing to take. -/
theorem refl (hinv : Inv E s) (hlight : s.Light) (hn : s.state.imm_memtables.length ≤ n) :
    Drained E s s n := by
  refine ⟨hinv, hlight, rfl, rfl, (List.take_of_length_le hn).symm, ?_, ?_, fun _ => rfl⟩
  all_goals
    rw [List.drop_of_length_le hn]
    split_ifs <;> rfl

/-- A flush takes the oldest memtable. -/
theorem flush (h : Drained E s s' (n + 1)) (hE : E.Bounded) (io : ManifestIO M)
    (hn : n < s.state.imm_memtables.length) :
    (s'.forceFlushNextImmMemtable E io).1 = .ok () ∧
      Drained E s (s'.forceFlushNextImmMemtable E io).2 n := by
  have hlight := h.light.flush hE io h.inv
  have htake : s.state.imm_memtables.take (n + 1) =
      s.state.imm_memtables.take n ++ [s.state.imm_memtables.get ⟨n, hn⟩] :=
    List.take_succ_eq_append_getElem hn
  have hdrop : s.state.imm_memtables.drop n =
      s.state.imm_memtables.get ⟨n, hn⟩ :: s.state.imm_memtables.drop (n + 1) :=
    List.drop_eq_getElem_cons hn
  have himm := h.imm_memtables
  rw [htake] at himm
  have hne : s'.state.imm_memtables ≠ [] := by
    rw [himm]
    exact List.append_ne_nil_of_right_ne_nil _ (List.cons_ne_nil _ _)
  obtain ⟨hok, m, t, hf⟩ := flush_spec h.inv hne hlight.small
  rw [hf.imm_memtables] at himm
  obtain ⟨hleft, hm⟩ := List.append_inj' himm rfl
  obtain rfl := List.singleton_inj.mp hm
  have hl0 := hf.l0_sstables
  have hlevels := hf.levels
  rw [h.options, h.l0_sstables] at hl0
  rw [h.options, h.levels] at hlevels
  refine ⟨hok, hf.inv h.inv, hlight, hf.options.trans h.options, hf.memtable.trans h.memtable, hleft,
    ?_, ?_, fun k => (hf.view h.inv k).trans (h.view k)⟩
  all_goals rw [hdrop, List.map_cons]
  · rw [hl0]
    split_ifs <;> rfl
  · rw [hlevels]
    split_ifs <;> rfl

end Drained

/-- How many frozen memtables are left behind `n` rounds. -/
def leftover (s : LsmStorageInner M) (n : ℕ) : ℕ :=
  max (min s.state.imm_memtables.length (s.options.num_memtable_limit - 1))
    (s.state.imm_memtables.length - n)

/-- A round flushes a memtable while there are as many as the limit. -/
theorem drained_flushRounds (hE : E.Bounded) (io : ManifestIO M) (hinv : Inv E s) (hlight : s.Light)
    (n : ℕ) : Drained E s (flushRounds E io n s) (s.leftover n) ∧
      ((flushRounds E io n s).triggerFlush E io).1 =
        .ok (decide (s.options.num_memtable_limit ≤ s.leftover n)) := by
  -- What a round does to a store in which `k` memtables are left.
  have hround : ∀ (s' : LsmStorageInner M) (k : ℕ), Drained E s s' k →
      k ≤ s.state.imm_memtables.length →
      Drained E s (s'.triggerFlush E io).2
          (if s.options.num_memtable_limit ≤ k then k - 1 else k) ∧
        (s'.triggerFlush E io).1 = .ok (decide (s.options.num_memtable_limit ≤ k)) := by
    intro s' k h hk
    have hlen : s'.state.imm_memtables.length = k := by
      rw [h.imm_memtables, List.length_take_of_le hk]
    unfold triggerFlush
    rw [h.options, hlen]
    by_cases hfull : s.options.num_memtable_limit ≤ k
    · rw [if_pos hfull, if_pos hfull, decide_eq_true hfull]
      rcases k with _ | k
      · rw [flush_of_imm_nil E io (List.length_eq_zero_iff.mp hlen)]
        exact ⟨h, rfl⟩
      · obtain ⟨hok, hd⟩ := h.flush hE io hk
        rcases hf : s'.forceFlushNextImmMemtable E io with ⟨r, s''⟩
        rw [hf] at hok hd
        rw [show r = .ok () from hok]
        exact ⟨hd, rfl⟩
    · rw [if_neg hfull, if_neg hfull, decide_eq_false hfull]
      exact ⟨h, rfl⟩
  have hle : ∀ n, s.leftover n ≤ s.state.imm_memtables.length := by
    intro n
    unfold leftover
    omega
  have hdrained : Drained E s (flushRounds E io n s) (s.leftover n) := by
    induction n with
    | zero =>
      refine .refl hinv hlight ?_
      unfold leftover
      omega
    | succ n ih =>
      have h := (hround _ _ ih (hle n)).1
      rw [flushRounds_succ]
      have heq : (if s.options.num_memtable_limit ≤ s.leftover n then s.leftover n - 1
          else s.leftover n) = s.leftover (n + 1) := by
        unfold leftover
        split_ifs <;> omega
      rwa [heq] at h
  exact ⟨hdrained, (hround _ _ hdrained (hle n)).2⟩

end LsmStorageInner

namespace Machine

variable {options : LsmStorageOptions}

/-- The flush thread brings the frozen memtables of any store down to one less than the limit, and
then does nothing. The oldest ones go to the tables, in their order, and no read is changed. -/
theorem flushRounds_spec (hE : E.Bounded) (hsize : options.block_size ≤ 65536)
    (htarget : options.target_sst_size ≤ 2^25)
    (hctrl : options.compaction_options.Plain ∨ options.compaction_options.Leveling)
    {ops : List (Op Unit)} {c : Machine M Unit}
    (h : Steps (Machine.step E io) (fun _ op => op.Storable) (Machine.start io options) ops c)
    (n : ℕ) :
    let imm := c.store.state.imm_memtables
    let left := max (min imm.length (options.num_memtable_limit - 1)) (imm.length - n)
    let s := flushRounds E io n c.store
    s.state.memtable = c.store.state.memtable ∧ s.state.imm_memtables = imm.take left ∧
      (s.triggerFlush E io).1 = .ok (decide (options.num_memtable_limit ≤ left)) ∧
      (s.state.l0_sstables, s.state.levels) =
        (if CompactionController.flushToL0 options.compaction_options then
          ((imm.drop left).map MemTable.id ++ c.store.state.l0_sstables, c.store.state.levels)
        else (c.store.state.l0_sstables,
          (imm.drop left).map (fun m => (m.id, [m.id])) ++ c.store.state.levels)) ∧
      ∀ k, s.get E k = c.store.get E k := by
  obtain ⟨-, hlight, hinv, hopt, -⟩ := light_of_steps hE hsize htarget hctrl h
  obtain ⟨hd, hres⟩ := drained_flushRounds hE io hinv.store hlight n
  have hl0 := hd.l0_sstables
  have hlevels := hd.levels
  unfold leftover at hd hres hl0 hlevels
  rw [hopt] at hd hres hl0 hlevels
  refine ⟨hd.memtable, hd.imm_memtables, hres, ?_, fun k => ?_⟩
  · rw [hl0, hlevels]
    split_ifs <;> rfl
  · rw [get_spec hd.inv.readable, get_spec hinv.store.readable, hd.view]

/-- A store whose flush thread leaves one frozen memtable. -/
def limitOfTwo : LsmStorageOptions := { num_memtable_limit := 2 }

/-- Three memtables are frozen, and none is flushed. -/
def threeFreezes : List (Op Unit) :=
  [.put [97] [49], .freeze, .put [98] [50], .freeze, .put [97] [51], .freeze]

/-- Five rounds flush two of the three memtables. -/
theorem flushRounds_spec_threeFreezes :
    ∃ c : Machine (List ManifestRecord) Unit,
      Steps (Machine.step .lib .list) (fun _ op => op.Storable) (Machine.start .list limitOfTwo)
        threeFreezes c ∧ c.store.state.imm_memtables.length = 3 ∧
      (flushRounds .lib .list 5 c.store).state.imm_memtables.length = 1 ∧
      (flushRounds .lib .list 5 c.store).get .lib [97] = .ok [51] := by
  obtain ⟨c, h, hc⟩ : ∃ c : Machine (List ManifestRecord) Unit,
      Steps (Machine.step .lib .list) (fun _ op => op.Storable) (Machine.start .list limitOfTwo)
        threeFreezes c ∧ (decide (c.store.state.imm_memtables.length = 3) &&
          decide (c.store.get .lib [97] = .ok [51])) = true :=
    Steps.of_exec (p := fun _ op => decide op.Storable) (fun _ _ h => of_decide_eq_true h)
      (by decide +kernel)
  rw [Bool.and_eq_true, decide_eq_true_eq, decide_eq_true_eq] at hc
  obtain ⟨-, himm, -, -, hget⟩ := flushRounds_spec Extern.lib_bounded (by decide) (by decide)
    (.inl (show limitOfTwo.compaction_options.Plain from trivial)) h 5
  rw [hc.1] at himm
  refine ⟨c, h, hc.1, ?_, (hget [97]).trans hc.2⟩
  rw [himm, List.length_take_of_le (by rw [hc.1]; decide)]
  rfl

end Machine

end MiniLsm
