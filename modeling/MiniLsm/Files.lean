import MiniLsm.Recovery

/-!
# The names of the files

The directory of a store in the model has the table and log files by identifier. On the disk they go
by names, which `path_of_sst_val` and `path_of_wal_val` make of the identifiers. The names pad an
identifier to five digits, and longer identifiers have longer names. As long as identifiers fit
`size_t`, no name is cut off, and no two files of a store have the same one (`Run.files_named`).
-/

namespace MiniLsm

/-- The format `%05zu`. -/
def padded (id : ℕ) : List Char :=
  List.replicate (5 - (Nat.toDigits 10 id).length) '0' ++ Nat.toDigits 10 id

/-- `std::snprintf` into a buffer of `size` characters, the last of which is a zero. -/
def snprintf (size : ℕ) (text : List Char) : List Char := text.take (size - 1)

/-- `LsmStorageInner::path_of_sst_val`, within the directory. -/
def pathOfSstVal (id : ℕ) : List Char := snprintf 64 (padded id ++ ".sst".toList)

/-- `LsmStorageInner::path_of_wal_val`, within the directory. -/
def pathOfWalVal (id : ℕ) : List Char := snprintf 64 (padded id ++ ".wal".toList)

/-- A file in the directory of a store. -/
inductive StoreFile where
  | manifest
  | sst (id : ℕ)
  | wal (id : ℕ)
  deriving DecidableEq

namespace StoreFile

/-- Its name. -/
def name : StoreFile → List Char
  | manifest => "MANIFEST".toList
  | sst id => pathOfSstVal id
  | wal id => pathOfWalVal id

/-- Its identifier is below a bound. -/
def Below (n : ℕ) : StoreFile → Prop
  | manifest => True
  | sst id => id < n
  | wal id => id < n

/-- The name before it is put into the buffer. -/
def text : StoreFile → List Char
  | manifest => "MANIFEST".toList
  | sst id => padded id ++ ".sst".toList
  | wal id => padded id ++ ".wal".toList

end StoreFile

/-! ## Names -/

/-- The digits of a padded identifier give it back. -/
theorem padded_injective {id id' : ℕ} (h : padded id = padded id') : id = id' := by
  have hdigits : ∀ id, Nat.ofDigitChars 10 (padded id) 0 = id := by
    intro id
    rw [padded, Nat.ofDigitChars_append, Nat.ofDigitChars_replicate_zero, Nat.mul_zero,
      Nat.ofDigitChars_ten_toDigits]
  rw [← hdigits id, h, hdigits id']

/-- An identifier of 64 bits has up to 20 digits. -/
theorem length_padded_le {id : ℕ} (h : id < 2^64) : (padded id).length ≤ 20 := by
  have hdigits : (Nat.toDigits 10 id).length ≤ 20 :=
    (Nat.length_toDigits_le_iff (by decide) (by decide)).mpr (h.trans (by decide))
  rw [padded, List.length_append, List.length_replicate]
  omega

/-- The buffer is long enough. -/
theorem snprintf_suffix {id : ℕ} (h : id < 2^64) {suffix : List Char} (hlen : suffix.length = 4) :
    snprintf 64 (padded id ++ suffix) = padded id ++ suffix := by
  have hpad := length_padded_le h
  refine List.take_of_length_le ?_
  rw [List.length_append, hlen]
  omega

namespace StoreFile

theorem name_eq_text {f : StoreFile} (h : f.Below (2^64)) : f.name = f.text := by
  cases f with
  | manifest => rfl
  | sst id => exact snprintf_suffix h rfl
  | wal id => exact snprintf_suffix h rfl

/-- The names tell the files apart. -/
theorem text_injective {f g : StoreFile} (h : f.text = g.text) : f = g := by
  -- The last four characters tell the kinds of files apart.
  have hsplit : ∀ f : StoreFile, ∃ front back, f.text = front ++ back ∧ back.length = 4 ∧
      match f with
      | manifest => back = "FEST".toList
      | sst id => front = padded id ∧ back = ".sst".toList
      | wal id => front = padded id ∧ back = ".wal".toList := by
    intro f
    cases f with
    | manifest => exact ⟨"MANI".toList, "FEST".toList, by decide, by decide, rfl⟩
    | sst id => exact ⟨_, _, rfl, by decide, rfl, rfl⟩
    | wal id => exact ⟨_, _, rfl, by decide, rfl, rfl⟩
  obtain ⟨front, back, hf, hlen, hkind⟩ := hsplit f
  obtain ⟨front', back', hg, hlen', hkind'⟩ := hsplit g
  rw [hf, hg] at h
  obtain ⟨rfl, rfl⟩ := List.append_inj' h (hlen.trans hlen'.symm)
  cases f with
  | manifest =>
    cases g with
    | manifest => rfl
    | sst id => exact absurd (hkind.symm.trans hkind'.2) (by decide)
    | wal id => exact absurd (hkind.symm.trans hkind'.2) (by decide)
  | sst id =>
    cases g with
    | manifest => exact absurd (hkind'.symm.trans hkind.2) (by decide)
    | sst id' => rw [padded_injective (hkind.1.symm.trans hkind'.1)]
    | wal id' => exact absurd (hkind.2.symm.trans hkind'.2) (by decide)
  | wal id =>
    cases g with
    | manifest => exact absurd (hkind'.symm.trans hkind.2) (by decide)
    | sst id' => exact absurd (hkind.2.symm.trans hkind'.2) (by decide)
    | wal id' => rw [padded_injective (hkind.1.symm.trans hkind'.1)]

end StoreFile

/-! ## The files of a store -/

variable {M τ : Type} {E : Extern} {io : ManifestIO M}

/-- The directory has a file. -/
def Disk.Has (disk : Disk M) : StoreFile → Prop
  | .manifest => disk.manifest.isSome = true
  | .sst id => (disk.ssts id).isSome = true
  | .wal id => (disk.wals id).isSome = true

namespace LsmStorageInner

variable {s s' : LsmStorageInner M}

/-- The identifiers of the logs are below the counter. -/
def WalsBelow (s : LsmStorageInner M) : Prop := ∀ id ≥ s.next_sst_id, s.disk.wals id = none

theorem WalsBelow.congr (h : s.WalsBelow) (hwals : s'.disk.wals = s.disk.wals)
    (hle : s.next_sst_id ≤ s'.next_sst_id) : s'.WalsBelow := by
  intro id hid
  rw [hwals]
  exact h id (hle.trans hid)

/-- A freeze creates the log of the identifier that it takes. -/
theorem WalsBelow.freeze (h : s.WalsBelow) (io : ManifestIO M) :
    (s.forceFreezeMemtable io).WalsBelow := by
  intro id hid
  rw [forceFreezeMemtable_next_sst_id] at hid
  rw [Logs.freeze_wals io s (show id ≠ s.next_sst_id by omega)]
  exact h id (by omega)

theorem WalsBelow.put (h : s.WalsBelow) (io : ManifestIO M) (key value : Bytes) :
    (s.put E io key value).WalsBelow := by
  rcases put_eq E io s key value with heq | heq
  · rw [heq]
    exact h
  · rw [heq]
    exact WalsBelow.freeze (s := s.write E key value) h io

/-- A flush keeps the logs and the counter. -/
theorem WalsBelow.flush (h : s.WalsBelow) (E : Extern) (io : ManifestIO M) :
    (s.forceFlushNextImmMemtable E io).2.WalsBelow := by
  rcases List.eq_nil_or_concat' s.state.imm_memtables with himm | ⟨imm, m, himm⟩
  · rw [flush_of_imm_nil E io himm]
    exact h
  · rw [flush_of_imm_concat E io himm, build]
    rcases SsTable.open E m.id _ with e | t
    · exact h
    · rw [Outcome.bind_ok]
      refine h.congr ?_ ?_
      · rw [addRecord_wals]
        rfl
      · rw [addRecord_next_sst_id]
        exact le_rfl

/-- A new store has the log of its first memtable. -/
theorem openFresh_walsBelow (io : ManifestIO M) (options : LsmStorageOptions) :
    (openFresh io Disk.empty options).WalsBelow := by
  intro id hid
  rw [openFresh_next_sst_id] at hid
  rcases hw : options.enable_wal with _ | _
  · simp [openFresh, hw, Disk.empty]
  · simp [openFresh, hw, Disk.empty, createWal, addRecord_wals]
    exact Function.update_of_ne (by omega) _ _

end LsmStorageInner

namespace Machine

open LsmStorageInner

variable [DecidableEq τ] {options : LsmStorageOptions}

theorem step_walsBelow {c c' : Machine M τ} {op : Op τ} (h : c.store.WalsBelow)
    (hstep : c.step E io op = some c') : c'.store.WalsBelow := by
  cases op with
  | put key value =>
    cases hstep
    exact h.put io key value
  | del key =>
    cases hstep
    exact h.put io key []
  | freeze =>
    simp only [Machine.step] at hstep
    split_ifs at hstep
    cases hstep
    exact h.freeze io
  | flush =>
    cases hstep
    exact h.flush E io
  | trigger i =>
    obtain ⟨-, t, -, rfl⟩ := begin_eq_some hstep
    exact h
  | full i =>
    obtain ⟨-, t, -, rfl⟩ := begin_eq_some hstep
    exact h
  | compact i =>
    obtain ⟨call, -, -, rfl⟩ := step_compact hstep
    have hw := compact_wrote (E := E) c.store call.task
    exact h.congr hw.wals hw.next_le
  | apply i =>
    obtain ⟨call, ts, -, -, rfl⟩ := step_apply hstep
    obtain ⟨-, hnext, -, -⟩ := applyResult_frame io c.store call.task ts
    refine h.congr ?_ hnext.ge
    rcases applyResult_cases io c.store call.task ts with heq | ⟨-, -, -, -, -, -, -, hwals⟩
    · rw [applyStep, heq]
    · exact hwals

/-- In every run, with any number of threads within compactions, no two files of the directory have
the same name as long as the counter fits `size_t`, and no name is cut off. -/
theorem Run.files_named {P : Machine M τ → Op τ → Prop} {ops : List (Op τ)} {c : Machine M τ}
    (h : Steps (Machine.step E io) P (Machine.start io options) ops c)
    (hlt : c.store.next_sst_id ≤ 2^64) :
    (∀ f, c.store.disk.Has f → f.Below c.store.next_sst_id ∧ f.name = f.text) ∧
      ∀ f g, c.store.disk.Has f → c.store.disk.Has g → f.name = g.name → f = g := by
  have hwals : c.store.WalsBelow := h.invariant (I := fun c => c.store.WalsBelow)
    (openFresh_walsBelow io options) fun _ _ _ hc _ hstep => step_walsBelow hc hstep
  have hbounded : c.store.Bounded := h.invariant (I := fun c => c.store.Bounded)
    (openFresh_bounded io options) fun _ _ _ hc _ hstep => step_bounded hc hstep
  have hbelow : ∀ f, c.store.disk.Has f → f.Below c.store.next_sst_id := by
    intro f hf
    cases f with
    | manifest => exact trivial
    | sst id =>
      by_contra hge
      rw [Disk.Has, hbounded.ssts id (not_lt.mp hge)] at hf
      cases hf
    | wal id =>
      by_contra hge
      rw [Disk.Has, hwals id (not_lt.mp hge)] at hf
      cases hf
  have hname : ∀ f, c.store.disk.Has f → f.name = f.text := by
    intro f hf
    have hb := hbelow f hf
    refine StoreFile.name_eq_text ?_
    cases f with
    | manifest => exact trivial
    | sst id => exact Nat.lt_of_lt_of_le hb hlt
    | wal id => exact Nat.lt_of_lt_of_le hb hlt
  refine ⟨fun f hf => ⟨hbelow f hf, hname f hf⟩, fun f g hf hg heq => ?_⟩
  rw [hname f hf, hname g hg] at heq
  exact StoreFile.text_injective heq

/-- Two tables on the disk, beside the manifest. -/
theorem Run.files_named_two_tables :
    ∃ c : Machine (List ManifestRecord) Unit,
      Steps (Machine.step .lib .list) (fun _ _ => True)
        (Machine.start .list { enable_wal := true })
        [.put [97] [49], .freeze, .flush, .put [98] [50], .freeze, .flush] c ∧
      (StoreFile.sst 1).Below c.store.next_sst_id ∧
      (StoreFile.wal 2).name = "00002.wal".toList ∧
      (StoreFile.sst 0).name ≠ (StoreFile.wal 0).name := by
  obtain ⟨c, h, hc⟩ : ∃ c : Machine (List ManifestRecord) Unit,
      Steps (Machine.step .lib .list) (fun _ _ => True)
        (Machine.start .list { enable_wal := true })
        [.put [97] [49], .freeze, .flush, .put [98] [50], .freeze, .flush] c ∧
      (decide (c.store.next_sst_id = 3) && (c.store.disk.ssts 0).isSome &&
        (c.store.disk.ssts 1).isSome && (c.store.disk.wals 0).isSome &&
          (c.store.disk.wals 2).isSome) = true :=
    Steps.of_exec (p := fun _ _ => true) (fun _ _ _ => trivial) (by decide +kernel)
  simp only [Bool.and_eq_true, decide_eq_true_eq] at hc
  obtain ⟨⟨⟨⟨hnext, h0⟩, h1⟩, hw0⟩, hw2⟩ := hc
  obtain ⟨hname, hinj⟩ := files_named h (by rw [hnext]; decide)
  refine ⟨c, h, (hname (.sst 1) h1).1, (hname (.wal 2) hw2).2.trans (by decide), fun heq => ?_⟩
  cases hinj (.sst 0) (.wal 0) h0 hw0 heq

end Machine

end MiniLsm
