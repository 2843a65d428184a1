import MiniLsm.Exec

/-!
# Reads over runs

What a read returns in a run is the last write to the key (`lastWrite`), for the controllers whose
compactions never drop a deleted key above an older value: no compaction at all, the simple leveled
controller, and the tiered one without a bound on the width of a merge. The step lemma is
`step_view`: a write changes the view of its key, and no other step changes any.

Whether a task drops what it must not depends on the tiers below it when its result is put into the
state, so that `Sound` is an invariant of the current calls. With one thread every call is current.
With several threads this is a condition on the run, without which a full compaction that starts
from an old snapshot undoes another one.
-/

namespace MiniLsm

open LsmStorageInner LsmStorageInner.Applied Cursor

variable {M τ : Type} {E : Extern} {io : ManifestIO M}

/-- The value that a step writes to a key. -/
def Op.written (k : Bytes) : Op τ → Option Bytes
  | .put key value => if key = k then some value else none
  | .del key => if key = k then some [] else none
  | _ => none

/-- The value that was last written to a key, or the empty one. -/
def lastWrite (ops : List (Op τ)) (k : Bytes) : Bytes :=
  (ops.reverse.findSome? (Op.written k)).getD []

/-- The last write of a run is that of its last step, if the step writes the key. -/
theorem lastWrite_concat (ops : List (Op τ)) (op : Op τ) (k : Bytes) :
    lastWrite (ops ++ [op]) k = (op.written k).getD (lastWrite ops k) := by
  rw [lastWrite, List.reverse_append, List.reverse_singleton, List.singleton_append,
    List.findSome?_cons]
  rcases op.written k with _ | v
  · rfl
  · rfl

/-- The controllers whose compactions drop a deleted key only with all older values of it. -/
def CompactionOptions.Plain : CompactionOptions → Prop
  | .noCompaction => True
  | .simple _ => True
  | .tiered o => o.max_merge_width = none
  | .leveled _ => False

/-- The options of the plain controllers are sound. -/
theorem CompactionOptions.Plain.valid {o : CompactionOptions} (h : o.Plain) : o.Valid := by
  rcases o with o | o | o | _
  · exact absurd h id
  · change o.max_merge_width ≠ some 0
    rw [show o.max_merge_width = none from h]
    simp
  · trivial
  · trivial

/-! ## Sound tasks -/

/-- A task stays sound when tiers are put in front of the others. -/
theorem CompactionTask.Sound.of_levels {task : CompactionTask} {st st' : LsmStorageState}
    (h : task.Sound st) (front : List (ℕ × List ℕ)) (hlev : st'.levels = front ++ st.levels) :
    task.Sound st' := by
  cases task with
  | tiered t =>
    intro hb
    obtain ⟨new, hnew⟩ := h hb
    exact ⟨front ++ new, by rw [hlev, hnew, List.append_assoc]⟩
  | leveled t => exact h
  | simple t => trivial
  | forceFull t => trivial

namespace LsmStorageInner

variable {s : LsmStorageInner M}

/-- A write changes no level. -/
theorem put_levels (E : Extern) (io : ManifestIO M) (s : LsmStorageInner M) (key value : Bytes) :
    (s.put E io key value).state.levels = s.state.levels := by
  rcases put_eq E io s key value with heq | heq
  · rw [heq]
    rfl
  · rw [heq, (Inv.sameTables_freeze io _).levels]
    rfl

/-- The generated tasks of the plain controllers are sound. -/
theorem generateTask_sound (hp : s.options.compaction_options.Plain) {task : CompactionTask}
    (h : s.generateTask E = some task) :
    task.Sound s.state ∧ ∀ t, task = .tiered t → s.Covered E t := by
  simp only [generateTask, CompactionController.generateCompactionTask] at h
  rcases ho : s.options.compaction_options with o | o | o | _
  · rw [ho] at hp
    exact absurd hp id
  · rw [ho] at h hp
    obtain ⟨t, ht, rfl⟩ := Option.map_eq_some_iff.mp h
    have hw : o.max_merge_width = none := hp
    obtain ⟨-, hs⟩ := TieredCompactionController.generateCompactionTask_fits E hw ht
    refine ⟨hs, ?_⟩
    rintro t' ⟨⟩ hb
    -- Nothing is left below the oldest tiers.
    obtain ⟨-, rfl | ⟨n, rfl⟩ | rfl⟩ := TieredCompactionController.generateCompactionTask_cases ht
    · exact .inl (by simp)
    · cases hb
    · exact .inl (by simp [hw])
  · rw [ho] at h
    obtain ⟨t, -, rfl⟩ := Option.map_eq_some_iff.mp h
    exact ⟨trivial, fun t' ht' => by cases ht'⟩
  · rw [ho] at h
    cases h

end LsmStorageInner

namespace Machine

/-- The tasks of the current calls are sound. -/
def Sound (c : Machine M τ) : Prop :=
  ∀ i call, c.calls i = some call → call.current = true → call.task.Sound c.store.state

/-- New levels in front keep what a task relies on. -/
theorem Sound.of_levels {c : Machine M τ} {s' : LsmStorageInner M} (h : c.Sound)
    (front : List (ℕ × List ℕ)) (hlev : s'.state.levels = front ++ c.store.state.levels) :
    Sound { c with store := s' } :=
  fun i call hi hcur => (h i call hi hcur).of_levels front hlev

variable [DecidableEq τ]

/-- A thread begins with a task that is sound. -/
theorem Sound.begin {c c' : Machine M τ} (h : c.Sound) {i : τ} {task : Option CompactionTask}
    (hs : ∀ t, task = some t → t.Sound c.store.state) (hb : c.begin i task = some c') :
    c'.Sound := by
  obtain ⟨-, t, rfl, rfl⟩ := begin_eq_some hb
  intro j call hj hcur
  dsimp only at hj
  by_cases hij : j = i
  · subst hij
    rw [Function.update_self] at hj
    cases hj
    exact hs t rfl
  · rw [Function.update_of_ne hij] at hj
    exact h j call hj hcur

/-- Writing tables changes no level. -/
theorem Sound.compactStep {c : Machine M τ} (h : c.Sound) {i : τ} {call : Call}
    (hi : c.calls i = some call) : (c.compactStep E i call).Sound := by
  intro j call' hj hcur
  rw [show (c.compactStep E i call).store.state = c.store.state from
    (compact_wrote c.store call.task).state]
  by_cases hij : j = i
  · subst hij
    simp only [Machine.compactStep, Function.update_self, Option.map_eq_some_iff] at hj
    obtain ⟨ts, -, rfl⟩ := hj
    exact h j call hi hcur
  · simp only [Machine.compactStep, Function.update_of_ne hij] at hj
    exact h j call' hj hcur

/-- A step keeps the tasks of the current calls sound. -/
theorem Sound.step {c c' : Machine M τ} {op : Op τ} (h : c.Sound) (hinv : c.Inv E)
    (hp : c.store.options.compaction_options.Plain) (hstep : c.step E io op = some c')
    (hsmall : c'.store.disk.Small) : c'.Sound := by
  cases op with
  | put key value =>
    cases hstep
    exact h.of_levels [] (put_levels E io c.store key value)
  | del key =>
    cases hstep
    exact h.of_levels [] (put_levels E io c.store key [])
  | freeze =>
    simp only [Machine.step] at hstep
    split_ifs at hstep
    cases hstep
    exact h.of_levels [] (Inv.sameTables_freeze io c.store).levels
  | flush =>
    cases hstep
    by_cases himm : c.store.state.imm_memtables = []
    · rw [flush_of_imm_nil E io himm]
      exact h
    · obtain ⟨-, m, t, hfl⟩ := flush_spec hinv.store himm hsmall
      have hlev := hfl.levels
      split_ifs at hlev
      · exact h.of_levels [] hlev
      · exact h.of_levels [(m.id, [m.id])] hlev
  | trigger i => exact h.begin (fun t ht => (generateTask_sound hp ht).1) hstep
  | full i =>
    refine h.begin (fun t ht => ?_) hstep
    obtain ⟨t', -, rfl⟩ := Option.map_eq_some_iff.mp ht
    trivial
  | compact i =>
    obtain ⟨call, hi, -, rfl⟩ := step_compact hstep
    exact h.compactStep hi
  | apply i =>
    obtain ⟨call, ts, -, -, rfl⟩ := step_apply hstep
    intro j call' hj hcur
    simp only [Machine.applyStep] at hj
    split_ifs at hj
    obtain ⟨call'', -, rfl⟩ := Option.map_eq_some_iff.mp hj
    cases hcur

/-- A step changes the view of the key that it writes, and no other. -/
theorem step_view {c c' : Machine M τ} {op : Op τ} (hinv : c.Inv E) (h : c.Sound)
    (hserial : c.Serial op) (hstep : c.step E io op = some c') (hsmall : c'.store.disk.Small)
    (k : Bytes) :
    c'.store.state.view E k = (op.written k).getD (c.store.state.view E k) := by
  cases op with
  | put key value =>
    cases hstep
    rw [hinv.store.view_put io key value k, Op.written]
    split_ifs <;> rfl
  | del key =>
    cases hstep
    rw [del, hinv.store.view_put io key [] k, Op.written]
    split_ifs <;> rfl
  | freeze =>
    simp only [Machine.step] at hstep
    split_ifs at hstep
    cases hstep
    exact Inv.view_freeze io c.store k
  | flush =>
    cases hstep
    by_cases himm : c.store.state.imm_memtables = []
    · rw [flush_of_imm_nil E io himm]
      rfl
    · obtain ⟨-, m, t, hfl⟩ := flush_spec hinv.store himm hsmall
      exact hfl.view hinv.store k
  | trigger i =>
    obtain ⟨-, t, -, rfl⟩ := begin_eq_some hstep
    rfl
  | full i =>
    obtain ⟨-, t, -, rfl⟩ := begin_eq_some hstep
    rfl
  | compact i =>
    obtain ⟨call, -, -, rfl⟩ := step_compact hstep
    rw [show (c.compactStep E i call).store.state = c.store.state from
      (compact_wrote c.store call.task).state]
    rfl
  | apply i =>
    obtain ⟨call, ts, hi, hts, rfl⟩ := step_apply hstep
    -- The compaction is current, so that its outputs hold what its inputs hold now.
    have hcur := hserial i call rfl hi
    have hok := hinv.calls i call hi hcur
    obtain ⟨hp, hc⟩ := hok.written ts hts
    obtain ⟨-, -, -, hview⟩ := applyResult_spec io hinv.store hinv.shape hp hok.fits hc
    exact hview (h i call hi hcur) k

/-! ## Runs -/

variable {options : LsmStorageOptions} {P : Machine M τ → Op τ → Prop}

/-- All calls are current. -/
def AllCurrent (c : Machine M τ) : Prop := ∀ i call, c.calls i = some call → call.current = true

/-- With one thread, every call stays current. -/
theorem AllCurrent.step [Subsingleton τ] {c c' : Machine M τ} {op : Op τ} (h : c.AllCurrent)
    (hstep : c.step E io op = some c') : c'.AllCurrent := by
  intro i call hi
  cases op with
  | trigger j =>
    obtain ⟨-, t, -, rfl⟩ := begin_eq_some hstep
    obtain rfl := Subsingleton.elim i j
    dsimp only at hi
    rw [Function.update_self] at hi
    cases hi
    rfl
  | full j =>
    obtain ⟨-, t, -, rfl⟩ := begin_eq_some hstep
    obtain rfl := Subsingleton.elim i j
    dsimp only at hi
    rw [Function.update_self] at hi
    cases hi
    rfl
  | compact j =>
    obtain ⟨call', hj, -, rfl⟩ := step_compact hstep
    obtain rfl := Subsingleton.elim i j
    simp only [compactStep, Function.update_self, Option.map_eq_some_iff] at hi
    obtain ⟨ts, -, rfl⟩ := hi
    exact h i call' hj
  | apply j =>
    obtain ⟨call', ts, -, -, rfl⟩ := step_apply hstep
    simp [applyStep, Subsingleton.elim i j] at hi
  | freeze =>
    simp only [Machine.step] at hstep
    split_ifs at hstep
    cases hstep
    exact h i call hi
  | put key value => cases hstep; exact h i call hi
  | del key => cases hstep; exact h i call hi
  | flush => cases hstep; exact h i call hi

omit [DecidableEq τ] in
/-- A compaction that changes the state is current where all are. -/
theorem AllCurrent.serial {c : Machine M τ} (h : c.AllCurrent) (op : Op τ) : c.Serial op :=
  fun i call _ hi => h i call hi

/-- With one thread, every call is current. -/
theorem Run.serial [Subsingleton τ] {ops : List (Op τ)} {c : Machine M τ}
    (h : Run E io options P ops c) :
    Run E io options (fun c op => P c op ∧ c.Serial op) ops c ∧ c.AllCurrent := by
  induction h with
  | start => exact ⟨.start, fun i call hi => by cases hi⟩
  | @step ops c c' op _ hop hs hstep hsmall ih =>
    obtain ⟨hrun, hcur⟩ := ih
    exact ⟨hrun.step ⟨hop, hcur.serial op⟩ hs hstep hsmall, hcur.step hstep⟩

/-- What the operations `ops` of a plain controller lead to: the view is that of the last writes. -/
structure Follows (E : Extern) (options : LsmStorageOptions) (ops : List (Op τ))
    (c : Machine M τ) : Prop where
  inv : c.Inv E
  options_eq : c.store.options = options
  sound : c.Sound
  view : ∀ k, c.store.state.view E k = lastWrite ops k

omit [DecidableEq τ] in
/-- A new store has no writes. -/
theorem Follows.start (io : ManifestIO M) (hsize : options.block_size ≤ 65536)
    (hplain : options.compaction_options.Plain) :
    Follows E options [] (Machine.start io options : Machine M τ) where
  inv := ⟨openFresh_inv io Disk.empty hsize, openFresh_shape io Disk.empty hplain.valid,
    by simp [Machine.start]⟩
  options_eq := openFresh_options io Disk.empty options
  sound := by simp [Sound, Machine.start]
  view := fun k => openFresh_view io Disk.empty options k

/-- One step, of any kind: the store follows the run. -/
theorem Follows.step {ops : List (Op τ)} {c c' : Machine M τ} {op : Op τ}
    (h : Follows E options ops c) (hplain : options.compaction_options.Plain)
    (hserial : c.Serial op) (hs : op.Storable) (hstep : c.step E io op = some c')
    (hsmall : c'.store.disk.Small) : Follows E options (ops ++ [op]) c' := by
  have hp : c.store.options.compaction_options.Plain := by rwa [h.options_eq]
  have hadm : c.Admits E op := ⟨hserial, fun i t _ ht => (generateTask_sound hp ht).2 t rfl⟩
  refine ⟨h.inv.step hp.valid hadm hs hstep hsmall, (step_options hstep).trans h.options_eq,
    h.sound.step h.inv hp hstep hsmall, fun k => ?_⟩
  rw [step_view h.inv h.sound hserial hstep hsmall k, h.view k, lastWrite_concat]

/-- In a run of a plain controller whose compactions are current, the view is that of the last
writes. -/
theorem Run.follows {ops : List (Op τ)} {c : Machine M τ} (hsize : options.block_size ≤ 65536)
    (hplain : options.compaction_options.Plain) (hP : ∀ c op, P c op → c.Serial op)
    (h : Run E io options P ops c) : Follows E options ops c := by
  induction h with
  | start => exact .start io hsize hplain
  | step _ hop hs hstep hsmall ih => exact ih.step hplain (hP _ _ hop) hs hstep hsmall

/-- With the controllers of `Plain`, and with one compaction at a time, a read returns the last
value written to its key, in every state of every run; no step but a write changes what it returns.
-/
theorem Run.get_eq_lastWrite {ops : List (Op Unit)} {c : Machine M Unit}
    (hsize : options.block_size ≤ 65536) (hplain : options.compaction_options.Plain)
    (h : Run E io options (fun _ _ => True) ops c) :
    (∀ k, c.store.get E k = .ok (lastWrite ops k)) ∧
      ∀ op c', op.Storable → c.step E io op = some c' → c'.store.disk.Small →
        ∀ k, op.written k = none → c'.store.get E k = c.store.get E k := by
  have hget : ∀ ops (c : Machine M Unit), Run E io options (fun _ _ => True) ops c →
      ∀ k, c.store.get E k = .ok (lastWrite ops k) := by
    intro ops c h k
    have hf := h.serial.1.follows hsize hplain fun _ _ h => h.2
    rw [get_spec hf.inv.store.readable, hf.view k]
  refine ⟨hget ops c h, fun op c' hs hstep hsmall k hk => ?_⟩
  rw [hget _ _ (h.step trivial hs hstep hsmall) k, hget _ _ h k, lastWrite_concat, hk]
  rfl

/-- A run in which a memtable is flushed while a compaction is going on. -/
def flushWithinCompaction : List (Op Unit) :=
  [.put [97] [49], .freeze, .flush, .trigger (), .put [97] [50], .freeze, .flush, .compact (),
    .put [98] [51], .del [98], .apply ()]

/-- A flush comes between the steps of a compaction. -/
theorem exists_run_flushWithinCompaction :
    ∃ c : Machine (List ManifestRecord) Unit,
      Run .lib .list { compaction_options := .simple ⟨100, 1, 2⟩ } (fun _ _ => True)
        flushWithinCompaction c ∧ decide (c.store.get .lib [97] = .ok [50]) = true :=
  exists_run (fun c => decide (c.store.get .lib [97] = .ok [50])) (fun _ _ (_ : true = true) => trivial)
    (by decide +kernel)

/-- What is read there. -/
theorem Run.get_flushWithinCompaction :
    ∃ c : Machine (List ManifestRecord) Unit,
      Run .lib .list { compaction_options := .simple ⟨100, 1, 2⟩ } (fun _ _ => True)
        flushWithinCompaction c ∧
      c.store.get .lib [97] = .ok [50] ∧ c.store.get .lib [98] = .ok [] := by
  obtain ⟨c, hrun, -⟩ := exists_run_flushWithinCompaction
  have hget := (hrun.get_eq_lastWrite (by decide) (by trivial)).1
  exact ⟨c, hrun, (hget [97]).trans (by decide), (hget [98]).trans (by decide)⟩

/-- A scan to the end yields, in order, the keys within its bounds that a read finds, with what it
returns. -/
theorem Run.scan_eq_gets {ops : List (Op Unit)} {c : Machine M Unit}
    (hsize : options.block_size ≤ 65536) (hplain : options.compaction_options.Plain)
    (h : Run E io options (fun _ _ => True) ops c) (lower upper : Bound) :
    ∃ it l, c.store.scan E lower upper = .ok it ∧ Yields it l ∧
      (l.map Prod.fst).Pairwise (· < ·) ∧
      ∀ k v, (k, v) ∈ l ↔ lower.above k = true ∧ upper.below k = true ∧
        c.store.get E k = .ok v ∧ v ≠ [] := by
  have hinv := (h.serial.1.follows hsize hplain fun _ _ h => h.2).inv
  obtain ⟨it, hit, l, hy, hs, hmem⟩ := scan_spec hinv.store.readable lower upper
  refine ⟨it, l, hit, hy, List.pairwise_map.mpr hs, fun k v => ?_⟩
  rw [hmem, get_spec hinv.store.readable, Except.ok.injEq]

/-- What is scanned there. -/
theorem Run.scan_flushWithinCompaction :
    ∃ (c : Machine (List ManifestRecord) Unit) (it : ScanIterator .lib)
      (l : List (Bytes × Bytes)),
      Run .lib .list { compaction_options := .simple ⟨100, 1, 2⟩ } (fun _ _ => True)
        flushWithinCompaction c ∧
      c.store.scan .lib (.included [97]) (.excluded [98]) = .ok it ∧ Yields it l ∧
      ([97], [50]) ∈ l := by
  obtain ⟨c, hrun, hget⟩ := exists_run_flushWithinCompaction
  obtain ⟨it, l, hit, hy, -, hmem⟩ := hrun.scan_eq_gets (by decide) (by trivial) (.included [97])
    (.excluded [98])
  exact ⟨c, it, l, hrun, hit, hy,
    (hmem _ _).mpr ⟨by decide, by decide, of_decide_eq_true hget, by decide⟩⟩

/-! ## Several threads -/

/-- A read returns the last value written to its key in every run of a store without a controller in
which no full compaction changes the state between the snapshot and the end of another one. -/
theorem Run.get_eq_of_serial {ops : List (Op τ)} {c : Machine M τ}
    (hsize : options.block_size ≤ 65536) (hno : options.compaction_options = .noCompaction)
    (h : Run E io options Serial ops c) (k : Bytes) :
    c.store.get E k = .ok (lastWrite ops k) := by
  have hf := h.follows hsize (by rw [hno]; trivial) fun _ _ h => h
  rw [get_spec hf.inv.store.readable, hf.view k]

/-- Whether a compaction that changes the state is current. -/
def isSerial (c : Machine M τ) : Op τ → Bool
  | .apply i => (c.calls i).all Call.current
  | _ => true

omit [DecidableEq τ] in
/-- Whether a step is serial can be computed. -/
theorem serial_of_isSerial {c : Machine M τ} {op : Op τ} (h : c.isSerial op = true) :
    c.Serial op := by
  rintro i call rfl hi
  simpa [isSerial, hi] using h

/-- Two threads compact, of which one does not come to its last step. -/
theorem Run.get_two_threads :
    ∃ c : Machine (List ManifestRecord) Bool,
      Run .lib .list {} Serial [.put [97] [49], .freeze, .flush, .full true, .full false,
        .compact true, .compact false, .apply true, .del [97]] c ∧
      c.store.get .lib [97] = .ok [] := by
  obtain ⟨c, hrun, -⟩ := exists_run (fun _ => true) (fun _ _ => serial_of_isSerial)
    (show ((Machine.start .list {}).check .lib .list isSerial [.put [97] [49], .freeze, .flush,
      .full true, .full false, .compact true, .compact false, .apply true, .del [97]]).any
        (fun _ => true) = true by decide +kernel)
  exact ⟨c, hrun, (hrun.get_eq_of_serial (by decide) rfl [97]).trans (by decide)⟩

/-- A full compaction that starts before a flush and ends after another full compaction loses the
flushed entry. -/
def staleCompaction : List (Op Bool) :=
  [.put [97] [49], .freeze, .flush, .full true, .compact true, .put [98] [50], .freeze, .flush,
    .full false, .compact false, .apply false, .apply true]

/-- A second compaction applies a result that is out of date. -/
theorem Run.get_staleCompaction :
    ¬ ∀ (ops : List (Op Bool)) (c : Machine (List ManifestRecord) Bool) (k : Bytes), k ≠ [] →
      Run .lib .list {} (fun _ _ => True) ops c → c.store.get .lib k = .ok (lastWrite ops k) := by
  intro h
  obtain ⟨c, hrun, hget⟩ := exists_run (P := fun _ _ => True)
    (fun c => decide (c.store.get .lib [98] = .ok [])) (fun _ _ _ => trivial)
    (show ((Machine.start .list {}).check .lib .list (fun _ _ => true) staleCompaction).any
      _ = true by decide +kernel)
  have hlost := h staleCompaction c [98] (by decide) hrun
  rw [of_decide_eq_true hget] at hlost
  cases hlost

end Machine

end MiniLsm
