import MiniLsm.StorageSpec

/-!
# What a compaction writes

`compact` reads the tables of its task in the order of their age and writes their merge to new
tables, without the empty values when the task reaches the bottom (`compact_spec`). The new tables
get the next identifiers, and nothing but the files of those identifiers and the counter changes
(`Wrote`).

A table file of 2^32 bytes or more does not open to the table that was written, since its offsets
are 32-bit numbers. `Disk.Small` says that no file is that large; the results here assume it of the
directory that the compaction leaves, and show that nothing throws then.
-/

namespace MiniLsm

open Cursor (Yields)

/-- Every table file is below 2^32 bytes. -/
def Disk.Small {M : Type} (d : Disk M) : Prop := ∀ id b, d.ssts id = some b → b.length < 2^32

/-- The table is what its file opens to. -/
def Disk.Stores {M : Type} (E : Extern) (d : Disk M) (t : SsTable) : Prop :=
  ∃ b, d.ssts t.id = some b ∧ SsTable.open E t.id b = .ok t

/-- The entries that a compaction keeps: those with a value, when it reaches the bottom. -/
def keptEntries (compact_to_bottom_level : Bool) (l : List (Bytes × Bytes)) :
    List (Bytes × Bytes) :=
  if compact_to_bottom_level then l.filter fun e => !e.2.isEmpty else l

theorem keptEntries_cons (bottom : Bool) (e : Bytes × Bytes) (l : List (Bytes × Bytes)) :
    keptEntries bottom (e :: l) =
      (if bottom && e.2.isEmpty then [] else [e]) ++ keptEntries bottom l := by
  cases bottom with
  | false => rfl
  | true =>
    rcases he : e.2 with _ | ⟨x, v⟩ <;> simp [keptEntries, he]

theorem sublist_keptEntries (bottom : Bool) (l : List (Bytes × Bytes)) :
    (keptEntries bottom l).Sublist l := by
  cases bottom with
  | false => exact List.Sublist.refl l
  | true => exact List.filter_sublist

/-- What a table has of an entry: of the value, as much as the low 16 bits of its length say. -/
def cutEntry (e : Bytes × Bytes) : Bytes × Bytes := (e.1, truncate e.2)

/-- Entries that are storable are kept whole. -/
theorem map_cutEntry {l : List (Bytes × Bytes)} (h : ∀ e ∈ l, Storable e) : l.map cutEntry = l := by
  conv_rhs => rw [← List.map_id l]
  refine List.map_congr_left fun e he => ?_
  rw [cutEntry, truncate_eq (h e he).2.2]
  rfl

/-- Cutting the values does not change the order of the keys. -/
theorem sorted_map_cutEntry {l : List (Bytes × Bytes)} :
    Assoc.Sorted (l.map cutEntry) ↔ Assoc.Sorted l :=
  List.pairwise_map

/-- A builder is empty exactly when it holds nothing. -/
theorem SsTableBuilder.Holds.isEmpty_iff {E : Extern} {b : SsTableBuilder}
    {es : List (Bytes × Bytes)} (h : b.Holds E es) : b.isEmpty = true ↔ es = [] := by
  obtain ⟨⟨bs, cur, hb, rfl, hcur⟩, -⟩ := h
  obtain ⟨chunks, hlay⟩ := hb.layout
  have hmetas : b.metas.isEmpty = true ↔ bs = [] := by
    rw [List.isEmpty_iff, ← List.length_eq_zero_iff, hlay.length_metas, List.length_eq_zero_iff]
  rw [SsTableBuilder.isEmpty, Bool.and_eq_true, hmetas, hb.builder.isEmpty_iff,
    List.append_eq_nil_iff]
  constructor
  · rintro ⟨rfl, rfl⟩
    exact ⟨rfl, rfl⟩
  · rintro ⟨-, rfl⟩
    exact ⟨hcur rfl, rfl⟩

namespace LsmStorageInner

variable {M : Type} {E : Extern}

/-- The store `s'` is `s` with new table files, from the next identifier on. -/
structure Wrote (s s' : LsmStorageInner M) : Prop where
  state : s'.state = s.state
  options : s'.options = s.options
  manifest : s'.manifest = s.manifest
  disk_manifest : s'.disk.manifest = s.disk.manifest
  wals : s'.disk.wals = s.disk.wals
  next_le : s.next_sst_id ≤ s'.next_sst_id
  ssts : ∀ id < s.next_sst_id, s'.disk.ssts id = s.disk.ssts id
  ssts_of_ge : ∀ id ≥ s'.next_sst_id, s'.disk.ssts id = s.disk.ssts id

theorem Wrote.refl (s : LsmStorageInner M) : Wrote s s :=
  ⟨rfl, rfl, rfl, rfl, rfl, le_rfl, fun _ _ => rfl, fun _ _ => rfl⟩

theorem Wrote.trans {s₁ s₂ s₃ : LsmStorageInner M} (h : Wrote s₁ s₂) (h' : Wrote s₂ s₃) :
    Wrote s₁ s₃ :=
  ⟨h'.state.trans h.state, h'.options.trans h.options, h'.manifest.trans h.manifest,
    h'.disk_manifest.trans h.disk_manifest, h'.wals.trans h.wals, h.next_le.trans h'.next_le,
    fun id hid => (h'.ssts id (hid.trans_le h.next_le)).trans (h.ssts id hid),
    fun id hid => (h'.ssts_of_ge id hid).trans (h.ssts_of_ge id (h'.next_le.trans hid))⟩

theorem bind_wrote {α β : Type} {s : LsmStorageInner M} {o : Outcome M α}
    {f : α → LsmStorageInner M → Outcome M β} (h : Wrote s o.2) (h' : ∀ a s', Wrote s' (f a s').2) :
    Wrote s (o.bind f).2 := by
  rcases o with ⟨e | a, s'⟩
  · exact h
  · exact h.trans (h' a s')

/-- A built table goes to the file of the next identifier. -/
theorem buildNext_wrote (s : LsmStorageInner M) (b : SsTableBuilder) :
    Wrote s (s.buildNext E b).2 ∧ (s.buildNext E b).2.next_sst_id = s.next_sst_id + 1 ∧
      (s.buildNext E b).2.disk.ssts s.next_sst_id = some (b.fileBytes E) := by
  refine ⟨⟨rfl, rfl, rfl, rfl, rfl, Nat.le_succ _, fun id hid => ?_, fun id hid => ?_⟩, rfl, ?_⟩
  · exact Function.update_of_ne hid.ne _ _
  · exact Function.update_of_ne (Nat.lt_of_succ_le hid).ne' _ _
  · exact Function.update_self _ _ _

section Loop

variable {ι : Type} [Cursor ι Bytes Bytes Error]

/-- Whatever its outcome, the loop writes new table files only. -/
theorem compactLoop_wrote (bottom : Bool) (n : ℕ) (iter : ι) (builder : Option SsTableBuilder)
    (new_sst : List SsTable) (s : LsmStorageInner M) :
    Wrote s (compactLoop E bottom n iter builder new_sst s).2 := by
  induction n generalizing iter builder new_sst s with
  | zero => exact Wrote.refl s
  | succ n ih =>
    rw [compactLoop]
    by_cases hv : Cursor.isValid iter = true
    · rw [if_pos hv]
      rcases Cursor.next iter with e | iter'
      · exact Wrote.refl s
      rw [Outcome.bind_ok]
      split_ifs with hfull
      · refine bind_wrote (buildNext_wrote s _).1 fun sst s' => ih iter' none _ s'
      · exact ih iter' _ _ s
    · rw [if_neg hv]
      split
      · exact Wrote.refl s
      · exact bind_wrote (buildNext_wrote s _).1 fun _ s' => Wrote.refl s'

/-- The tables that a compaction has written: they hold the entries in order, their files open to
them, and they have the next identifiers. -/
structure Built (E : Extern) (s s' : LsmStorageInner M) (ts : List SsTable)
    (es : List (Bytes × Bytes)) : Prop where
  wrote : Wrote s s'
  good : ∀ t ∈ ts, t.Good E
  contents : (ts.map (SsTable.contents E)).flatten = es
  ids : ts.map SsTable.id = List.range' s.next_sst_id ts.length
  next_eq : s'.next_sst_id = s.next_sst_id + ts.length
  stores : ∀ t ∈ ts, s'.disk.Stores E t

/-- A table that a filled builder writes opens, when its file is small enough. -/
theorem buildNext_spec {s : LsmStorageInner M} {b : SsTableBuilder} {es : List (Bytes × Bytes)}
    (hb : b.Holds E es) (hs : Assoc.Sorted es) (hne : es ≠ [])
    (hlt : (b.fileBytes E).length < 2^32) :
    ∃ t, s.buildNext E b = (.ok t, (s.buildNext E b).2) ∧ Built E s (s.buildNext E b).2 [t] es := by
  obtain ⟨t, ht, hholds, hid, -⟩ := SsTable.open_fileBytes hb hs hne s.next_sst_id hlt
  obtain ⟨hw, hnext, hfile⟩ := buildNext_wrote (E := E) s b
  refine ⟨t, ?_, hw, ?_, ?_, ?_, hnext, ?_⟩
  · exact Prod.ext ht rfl
  · simpa using hholds.good
  · simp [hholds.contents_eq]
  · simp [hid]
  · intro t' ht'
    obtain rfl := List.mem_singleton.mp ht'
    rw [Disk.Stores, hid]
    exact ⟨_, hfile, ht⟩

/-- Tables written one after the other. -/
theorem Built.append {s₁ s₂ s₃ : LsmStorageInner M} {ts ts' : List SsTable}
    {es es' : List (Bytes × Bytes)} (h : Built E s₁ s₂ ts es) (h' : Built E s₂ s₃ ts' es') :
    Built E s₁ s₃ (ts ++ ts') (es ++ es') := by
  refine ⟨h.wrote.trans h'.wrote, ?_, ?_, ?_, ?_, ?_⟩
  · intro t ht
    rcases List.mem_append.mp ht with ht | ht
    · exact h.good t ht
    · exact h'.good t ht
  · rw [List.map_append, List.flatten_append, h.contents, h'.contents]
  · rw [List.map_append, h.ids, h'.ids, h.next_eq, List.length_append, ← List.range'_append_1]
  · rw [h'.next_eq, h.next_eq, List.length_append, Nat.add_assoc]
  · intro t ht
    rcases List.mem_append.mp ht with ht | ht
    · obtain ⟨b, hb, ho⟩ := h.stores t ht
      refine ⟨b, ?_, ho⟩
      have hlt : t.id < s₂.next_sst_id := by
        have := List.mem_map_of_mem (f := SsTable.id) ht
        rw [h.ids, List.mem_range'_1] at this
        rw [h.next_eq]
        exact this.2
      rw [h'.wrote.ssts _ hlt, hb]
    · exact h'.stores t ht

/-- A file that a compaction has written stays as it is while the compaction runs. -/
theorem length_fileBytes_lt {s s' : LsmStorageInner M} {b : SsTableBuilder}
    (hw : Wrote (s.buildNext E b).2 s') (hsmall : s'.disk.Small) :
    (b.fileBytes E).length < 2^32 := by
  obtain ⟨-, hnext, hfile⟩ := buildNext_wrote (E := E) s b
  refine hsmall s.next_sst_id _ ?_
  rw [hw.ssts _ (by omega), hfile]

/-- The builder with which a round of the loop goes on. -/
theorem addEntry_holds {s : LsmStorageInner M} (bottom : Bool) {builder : Option SsTableBuilder}
    {cur : List (Bytes × Bytes)} (hsize : s.options.block_size ≤ 65536)
    (hb : ∀ b, builder = some b → b.Holds E cur) (hb' : builder = none → cur = [])
    {e : Bytes × Bytes} (he : (bottom && e.2.isEmpty) = false → Storable (cutEntry e)) :
    (s.addEntry E bottom builder e.1 e.2).Holds E
      (cur ++ if bottom && e.2.isEmpty then [] else [cutEntry e]) := by
  have hstart : (builder.getD
      (SsTableBuilder.create s.options.block_size s.options.compression)).Holds E cur := by
    rcases builder with _ | b
    · rw [hb' rfl]
      exact SsTableBuilder.create_holds E hsize _
    · exact hb b rfl
  simp only [addEntry]
  split_ifs with hdrop
  · rwa [List.append_nil]
  · exact SsTableBuilder.add_holds_truncate hstart (he (by simpa using hdrop))

/-- The last round of the loop writes what the builder holds. -/
theorem compactLoop_spec_end {bottom : Bool} {n : ℕ} {iter : ι} {cur : List (Bytes × Bytes)}
    {builder : Option SsTableBuilder} (new_sst : List SsTable) {s : LsmStorageInner M}
    (hv : Cursor.isValid iter = false)
    (hb : ∀ b, builder = some b → b.Holds E cur) (hb' : builder = none → cur = [])
    (hsort : Assoc.Sorted cur)
    (hsmall : (compactLoop E bottom (n + 1) iter builder new_sst s).2.disk.Small) :
    ∃ ts, (compactLoop E bottom (n + 1) iter builder new_sst s).1 = .ok (new_sst ++ ts) ∧
      Built E s (compactLoop E bottom (n + 1) iter builder new_sst s).2 ts cur := by
  rw [compactLoop, if_neg (by simp [hv])] at hsmall ⊢
  rcases hf : builder.filter fun b => !b.isEmpty with _ | b
  · have hcur : cur = [] := by
      rcases builder with _ | b
      · exact hb' rfl
      · rw [Option.filter_eq_none_iff] at hf
        exact ((hb b rfl).isEmpty_iff).mp (by simpa using hf b rfl)
    subst hcur
    simp only [hf]
    exact ⟨[], by simp, Wrote.refl s, by simp, rfl, rfl, by simp, by simp⟩
  · rw [hf] at hsmall
    obtain ⟨hbuilder, hne⟩ := Option.filter_eq_some_iff.mp hf
    have hholds := hb b hbuilder
    have hcur : cur ≠ [] := fun h => by simp [hholds.isEmpty_iff.mpr h] at hne
    obtain ⟨t, ht, hbuilt⟩ := buildNext_spec (s := s) hholds hsort hcur
      (length_fileBytes_lt (s := s) (bind_wrote (Wrote.refl _) fun _ s' => Wrote.refl s') hsmall)
    rw [hf]
    dsimp only
    rw [ht, Outcome.bind_ok]
    exact ⟨[t], rfl, hbuilt⟩

/-- A round of the loop, on an iterator whose entry goes to the builder `b`. -/
theorem compactLoop_round {bottom : Bool} (n : ℕ) {iter iter' : ι} {builder : Option SsTableBuilder}
    (new_sst : List SsTable) {s : LsmStorageInner M} {b : SsTableBuilder}
    (hv : Cursor.isValid iter = true) (hnext : Cursor.next iter = .ok iter')
    (hb : s.addEntry E bottom builder (Cursor.key iter) (Cursor.value iter) = b) :
    compactLoop E bottom (n + 1) iter builder new_sst s =
      if !b.isEmpty && decide (b.estimatedSize ≥ s.options.target_sst_size) then
        (s.buildNext E b).bind fun sst s =>
          compactLoop E bottom n iter' none (new_sst ++ [sst]) s
      else compactLoop E bottom n iter' (some b) new_sst s := by
  rw [compactLoop, if_pos hv, hnext, Outcome.bind_ok, hb]

/-- The last round of the loop, with a builder that has entries. -/
theorem compactLoop_last {bottom : Bool} (n : ℕ) {iter : ι} (new_sst : List SsTable)
    {s : LsmStorageInner M} {b : SsTableBuilder} (hv : Cursor.isValid iter = false)
    (hb : b.isEmpty = false) : compactLoop E bottom (n + 1) iter (some b) new_sst s =
      (s.buildNext E b).bind fun sst s => (.ok (new_sst ++ [sst]), s) := by
  have hfilter : (some b).filter (fun b => !b.isEmpty) = some b := by
    rw [Option.filter_some, hb]
    rfl
  rw [compactLoop, if_neg (by simp [hv]), hfilter]

/-- The loop writes the entries of the builder and of the iterator, the latter as tables have them. -/
theorem compactLoop_cut {bottom : Bool} {n : ℕ} {iter : ι} {l cur : List (Bytes × Bytes)}
    {builder : Option SsTableBuilder} (new_sst : List SsTable) {s : LsmStorageInner M}
    (hy : Yields iter l) (hn : l.length < n)
    (hb : ∀ b, builder = some b → b.Holds E cur) (hb' : builder = none → cur = [])
    (hsort : Assoc.Sorted (cur ++ (keptEntries bottom l).map cutEntry))
    (hl : ∀ e ∈ keptEntries bottom l, Storable (cutEntry e))
    (hsize : s.options.block_size ≤ 65536)
    (hsmall : (compactLoop E bottom n iter builder new_sst s).2.disk.Small) :
    ∃ ts, (compactLoop E bottom n iter builder new_sst s).1 = .ok (new_sst ++ ts) ∧
      Built E s (compactLoop E bottom n iter builder new_sst s).2 ts
        (cur ++ (keptEntries bottom l).map cutEntry) := by
  -- By induction on the rounds. The builder holds `cur`, which no table has yet.
  induction n generalizing iter l cur builder new_sst s with
  | zero => exact absurd hn (Nat.not_lt_zero _)
  | succ n ih =>
    rcases l with _ | ⟨e, l⟩
    · have hkept : keptEntries bottom [] = [] := by cases bottom <;> rfl
      rw [hkept, List.map_nil, List.append_nil] at hsort ⊢
      exact compactLoop_spec_end new_sst hy.isValid_nil hb hb' hsort hsmall
    · obtain ⟨hv, hkey, hval, -, iter', hnext, hy'⟩ := hy.isValid_cons
      rw [List.length_cons, Nat.add_lt_add_iff_right] at hn
      rw [compactLoop, if_pos hv, hnext, hkey, hval, Outcome.bind_ok] at hsmall ⊢
      have hmap : (if bottom && e.2.isEmpty then [] else [e]).map cutEntry =
          if bottom && e.2.isEmpty then [] else [cutEntry e] := by
        split_ifs <;> rfl
      have hrest : ∀ e' ∈ keptEntries bottom l, Storable (cutEntry e') := fun e' he' => hl e' (by
        rw [keptEntries_cons]
        exact List.mem_append_right _ he')
      have hbuilder := addEntry_holds (E := E) (e := e) bottom hsize hb hb' fun hkeep => hl e (by
        rw [keptEntries_cons, hkeep]
        exact List.mem_append_left _ List.mem_cons_self)
      rw [keptEntries_cons, List.map_append, hmap, ← List.append_assoc] at hsort ⊢
      generalize s.addEntry E bottom builder e.1 e.2 = b at hbuilder hsmall
      generalize cur ++ (if bottom && e.2.isEmpty then [] else [cutEntry e]) = cur'
        at hsort hbuilder
      split_ifs at hsmall ⊢ with hfull
      · -- The builder is full: it goes to a table, and the next round starts a new one.
        have hcur : cur' ≠ [] := fun h => by simp [hbuilder.isEmpty_iff.mpr h] at hfull
        have hw : Wrote (s.buildNext E b).2 ((s.buildNext E b).bind fun sst s =>
            compactLoop E bottom n iter' none (new_sst ++ [sst]) s).2 :=
          bind_wrote (Wrote.refl _) fun _ _ => compactLoop_wrote _ _ _ _ _ _
        obtain ⟨t, ht, hbuilt⟩ := buildNext_spec (s := s) hbuilder
          (List.pairwise_append.mp hsort).1 hcur (length_fileBytes_lt hw hsmall)
        rw [ht, Outcome.bind_ok] at hsmall ⊢
        have hnone : ∀ b : SsTableBuilder, none = some b → b.Holds E [] := fun b hb => by cases hb
        obtain ⟨ts, hts, hbuilt'⟩ := ih (new_sst ++ [t]) hy' hn hnone (fun _ => rfl)
          (List.pairwise_append.mp hsort).2.1 hrest (by rwa [hbuilt.wrote.options]) hsmall
        exact ⟨t :: ts, by simpa using hts, hbuilt.append hbuilt'⟩
      · exact ih new_sst hy' hn (fun b' hb' => by cases hb'; exact hbuilder) (by simp) hsort hrest
          hsize hsmall

/-- The loop writes the entries of the builder and of the iterator. -/
theorem compactLoop_spec {bottom : Bool} {n : ℕ} {iter : ι} {l cur : List (Bytes × Bytes)}
    {builder : Option SsTableBuilder} (new_sst : List SsTable) {s : LsmStorageInner M}
    (hy : Yields iter l) (hn : l.length < n)
    (hb : ∀ b, builder = some b → b.Holds E cur) (hb' : builder = none → cur = [])
    (hsort : Assoc.Sorted (cur ++ keptEntries bottom l)) (hl : ∀ e ∈ l, Storable e)
    (hsize : s.options.block_size ≤ 65536)
    (hsmall : (compactLoop E bottom n iter builder new_sst s).2.disk.Small) :
    ∃ ts, (compactLoop E bottom n iter builder new_sst s).1 = .ok (new_sst ++ ts) ∧
      Built E s (compactLoop E bottom n iter builder new_sst s).2 ts
        (cur ++ keptEntries bottom l) := by
  have hkept : ∀ e ∈ keptEntries bottom l, Storable e := fun e he =>
    hl e ((sublist_keptEntries bottom l).subset he)
  have hcut := map_cutEntry hkept
  have hcutst : ∀ e ∈ keptEntries bottom l, Storable (cutEntry e) := fun e he => by
    rw [← hcut] at hkept
    exact hkept _ (List.mem_map_of_mem he)
  have hspec := compactLoop_cut new_sst hy hn hb hb' (by rwa [hcut]) hcutst hsize hsmall
  rwa [hcut] at hspec

end Loop

/-! ## Tasks -/

/-- The tables are good, and their entries one after the other are in order. -/
structure InOrder (E : Extern) (s : LsmStorageState) (ids : List ℕ) : Prop where
  good : ∀ t ∈ s.tables ids, t.Good E
  sorted : Assoc.Sorted (s.run E ids)

/-- Good tables hold storable entries. -/
theorem SsTable.Good.storable {t : SsTable} (h : t.Good E) {e : Bytes × Bytes}
    (he : e ∈ t.contents E) : Storable e := by
  obtain ⟨blocks, hflat, hst⟩ := h.stores
  rw [← hflat] at he
  obtain ⟨bl, hbl, he⟩ := List.mem_flatten.mp he
  obtain ⟨i, hi⟩ := List.mem_iff_getElem?.mp hbl
  obtain ⟨m, b, -, -, -, hb⟩ := hst.block i bl hi
  exact hb.storable e he

theorem InOrder.storable {s : LsmStorageState} {ids : List ℕ} (h : InOrder E s ids)
    {e : Bytes × Bytes} (he : e ∈ s.run E ids) : Storable e := by
  obtain ⟨l, hl, he⟩ := List.mem_flatten.mp he
  obtain ⟨t, ht, rfl⟩ := List.mem_map.mp hl
  exact SsTable.Good.storable (h.good t ht) he

/-- An iterator over tables in order yields their entries. -/
theorem InOrder.concat_yields {s : LsmStorageState} {ids : List ℕ} (h : InOrder E s ids) :
    ∃ it, SstConcatIterator.createAndSeekToFirst E (s.tables ids) = .ok it ∧
      Yields it (s.run E ids) :=
  SstConcatIterator.createAndSeekToFirst_yields (LsmStorageState.forall₂_holds h.good)

end LsmStorageInner

/-- The tables that a compaction into a level reads, in groups, the newest first. -/
def levelGroups (upper_level : Option ℕ) (upper_ids lower_ids : List ℕ) : List (List ℕ) :=
  match upper_level with
  | some _ => [upper_ids, lower_ids]
  | none => upper_ids.map (fun id => [id]) ++ [lower_ids]

/-- The tables that a compaction reads, in groups of tables one after the other, the newest group
first. -/
def CompactionTask.groups : CompactionTask → List (List ℕ)
  | .forceFull t => t.l0_sstables.map (fun id => [id]) ++ [t.l1_sstables]
  | .simple t => levelGroups t.upper_level t.upper_level_sst_ids t.lower_level_sst_ids
  | .leveled t => levelGroups t.upper_level t.upper_level_sst_ids t.lower_level_sst_ids
  | .tiered t => t.tiers.map Prod.snd

/-- A lookup in tables is a lookup in the groups of a single table each. -/
theorem LsmStorageState.findSome?_tables (E : Extern) (s : LsmStorageState) (ids : List ℕ)
    (k : Bytes) :
    ((s.tables ids).map (SsTable.contents E)).findSome? (Assoc.lookup k) =
      (ids.map fun id => s.run E [id]).findSome? (Assoc.lookup k) := by
  induction ids with
  | nil => rfl
  | cons id ids ih =>
    rw [List.map_cons, List.findSome?_cons, ← ih]
    rcases hid : s.sstables id with _ | t
    · simp [tables, run, hid]
    · simp [tables, run, hid, List.findSome?_cons]

/-- The merge of groups of tables. -/
noncomputable def LsmStorageState.merged (E : Extern) (s : LsmStorageState)
    (groups : List (List ℕ)) : List (Bytes × Bytes) :=
  Assoc.overlays (groups.map (s.run E))

namespace LsmStorageInner

variable {M : Type} {E : Extern} {s : LsmStorageInner M}

/-- The iterator yields the merge of the groups. -/
def Merges {ι : Type} [Cursor ι Bytes Bytes Error] (E : Extern) (s : LsmStorageInner M)
    (iter : Except Error ι) (groups : List (List ℕ)) : Prop :=
  ∃ it, iter = .ok it ∧ Yields it (s.state.merged E groups)

theorem mergeLevels_merges {upper_ids lower_ids : List ℕ} (hu : InOrder E s.state upper_ids)
    (hl : InOrder E s.state lower_ids) :
    Merges E s (s.mergeLevels E upper_ids lower_ids) [upper_ids, lower_ids] := by
  obtain ⟨lower, hlower, hylower⟩ := hl.concat_yields
  obtain ⟨upper, hupper, hyupper⟩ := hu.concat_yields
  obtain ⟨it, hit, hy⟩ := TwoMergeIterator.create_yields hyupper hylower hu.sorted hl.sorted
  refine ⟨it, ?_, ?_⟩
  · rw [mergeLevels, hlower, ok_bind, hupper, ok_bind, hit]
  · simpa [LsmStorageState.merged, Assoc.overlays, Assoc.overlay_nil hl.sorted] using hy

theorem mergeL0_merges {upper_ids lower_ids : List ℕ} (hu : ∀ id ∈ upper_ids, InOrder E s.state [id])
    (hl : InOrder E s.state lower_ids) :
    Merges E s (s.mergeL0 E upper_ids lower_ids)
      (upper_ids.map (fun id => [id]) ++ [lower_ids]) := by
  have hgood : ∀ t ∈ s.state.tables upper_ids, t.Good E := by
    intro t ht
    obtain ⟨id, hid, hst⟩ := List.mem_filterMap.mp ht
    exact (hu id hid).good t (List.mem_filterMap.mpr ⟨id, by simp, hst⟩)
  obtain ⟨its, hits, hy⟩ := mapM_ok (R := Yields)
    (f := fun t => SsTableIterator.createAndSeekToFirst E t) (g := SsTable.contents E)
    (l := s.state.tables upper_ids)
    fun t ht => SsTableIterator.createAndSeekToFirst_yields (hgood t ht)
  obtain ⟨lower, hlower, hylower⟩ := hl.concat_yields
  have hyupper := MergeIterator.create_yields hy fun l hl => by
    obtain ⟨t, ht, rfl⟩ := List.mem_map.mp hl
    exact (hgood t ht).sorted
  obtain ⟨it, hit, hy⟩ := TwoMergeIterator.create_yields hyupper hylower (Assoc.sorted_overlays _)
    hl.sorted
  refine ⟨it, ?_, ?_⟩
  · rw [mergeL0, hits, ok_bind, hlower, ok_bind, hit]
  · convert hy using 1
    refine Assoc.ext_of_lookup (Assoc.sorted_overlays _) (hl.sorted.overlay _) fun k => ?_
    rw [LsmStorageState.merged, Assoc.lookup_overlays, Assoc.lookup_overlay _ _ hl.sorted,
      Assoc.lookup_overlays, List.map_append, List.findSome?_append,
      LsmStorageState.findSome?_tables, List.map_map]
    simp [Function.comp_def]

theorem mergeTiers_merges {tiers : List (ℕ × List ℕ)}
    (h : ∀ tier ∈ tiers, InOrder E s.state tier.2) :
    Merges E s (s.mergeTiers E tiers) (tiers.map Prod.snd) := by
  obtain ⟨its, hits, hy⟩ := mapM_ok (R := Yields)
    (f := fun tier : ℕ × List ℕ =>
      SstConcatIterator.createAndSeekToFirst E (s.state.tables tier.2))
    (g := fun tier : ℕ × List ℕ => s.state.run E tier.2) (l := tiers)
    fun tier ht => (h tier ht).concat_yields
  refine ⟨MergeIterator.create its, ?_, ?_⟩
  · rw [mergeTiers, hits, ok_bind]
  · rw [LsmStorageState.merged, List.map_map]
    refine MergeIterator.create_yields hy fun l hl => ?_
    obtain ⟨tier, ht, rfl⟩ := List.mem_map.mp hl
    exact (h tier ht).sorted

/-- A compaction writes the merge of its groups. -/
theorem generateFrom_spec {ι : Type} [Cursor ι Bytes Bytes Error] {iter : Except Error ι}
    {groups : List (List ℕ)} (hm : Merges E s iter groups)
    (hg : ∀ g ∈ groups, InOrder E s.state g) (hsize : s.options.block_size ≤ 65536) (bottom : Bool)
    (hsmall : (s.generateFrom E iter bottom).2.disk.Small) :
    ∃ ts, (s.generateFrom E iter bottom).1 = .ok ts ∧
      Built E s (s.generateFrom E iter bottom).2 ts
        (keptEntries bottom (s.state.merged E groups)) := by
  obtain ⟨it, rfl, hy⟩ := hm
  rw [generateFrom, Outcome.bind_ok, compactGenerateSstFromIter] at hsmall ⊢
  have hsorted : Assoc.Sorted (s.state.merged E groups) := Assoc.sorted_overlays _
  refine compactLoop_spec [] hy (Nat.lt_succ_of_le hy.length_le) (by simp) (fun _ => rfl)
    (hsorted.sublist (sublist_keptEntries bottom _)) ?_ hsize hsmall
  intro e he
  obtain ⟨l, hl, he⟩ := exists_mem_of_mem_overlays he
  obtain ⟨g, hgm, rfl⟩ := List.mem_map.mp hl
  exact (hg g hgm).storable he

/-- Whatever its outcome, a compaction writes new table files only. -/
theorem compact_wrote (s : LsmStorageInner M) (task : CompactionTask) :
    Wrote s (s.compact E task).2 := by
  have hgen : ∀ {ι : Type} [Cursor ι Bytes Bytes Error] (iter : Except Error ι) (bottom : Bool),
      Wrote s (s.generateFrom E iter bottom).2 := by
    intro ι _ iter bottom
    rcases iter with e | iter
    · exact Wrote.refl s
    · exact compactLoop_wrote bottom _ iter none [] s
  have hlevel : ∀ upper_level upper_ids lower_ids bottom,
      Wrote s (s.compactLevel E upper_level upper_ids lower_ids bottom).2 := by
    intro upper_level upper_ids lower_ids bottom
    rcases upper_level with _ | i
    · exact hgen _ _
    · exact hgen _ _
  cases task with
  | forceFull t => exact hgen _ _
  | simple t => exact hlevel _ _ _ _
  | leveled t => exact hlevel _ _ _ _
  | tiered t => exact hgen _ _

/-- What a compaction writes: the merge of the tables of its task, without the empty values when it
reaches the bottom. -/
theorem compact_spec {task : CompactionTask} (hg : ∀ g ∈ task.groups, InOrder E s.state g)
    (hsize : s.options.block_size ≤ 65536) (hsmall : (s.compact E task).2.disk.Small) :
    ∃ ts, (s.compact E task).1 = .ok ts ∧ Built E s (s.compact E task).2 ts
      (keptEntries task.compactToBottomLevel (s.state.merged E task.groups)) := by
  have hl0 : ∀ {upper_ids lower_ids : List ℕ},
      (∀ g ∈ upper_ids.map (fun id => [id]) ++ [lower_ids], InOrder E s.state g) →
      Merges E s (s.mergeL0 E upper_ids lower_ids)
        (upper_ids.map (fun id => [id]) ++ [lower_ids]) := fun h =>
    mergeL0_merges (fun id hid => h [id] (by simp [hid])) (h _ (by simp))
  have hlevel : ∀ {upper_level : Option ℕ} {upper_ids lower_ids : List ℕ} {bottom : Bool},
      (∀ g ∈ levelGroups upper_level upper_ids lower_ids, InOrder E s.state g) →
      (s.compactLevel E upper_level upper_ids lower_ids bottom).2.disk.Small →
      ∃ ts, (s.compactLevel E upper_level upper_ids lower_ids bottom).1 = .ok ts ∧
        Built E s (s.compactLevel E upper_level upper_ids lower_ids bottom).2 ts (keptEntries bottom
          (s.state.merged E (levelGroups upper_level upper_ids lower_ids))) := by
    intro upper_level upper_ids lower_ids bottom h hsmall
    rcases upper_level with _ | upper_level
    · exact generateFrom_spec (hl0 h) h hsize _ hsmall
    · exact generateFrom_spec (mergeLevels_merges (h _ (by simp [levelGroups]))
        (h _ (by simp [levelGroups]))) h hsize _ hsmall
  cases task with
  | forceFull t => exact generateFrom_spec (hl0 hg) hg hsize _ hsmall
  | simple t => exact hlevel hg hsmall
  | leveled t => exact hlevel hg hsmall
  | tiered t =>
    exact generateFrom_spec (mergeTiers_merges fun tier ht => hg _ (List.mem_map_of_mem ht)) hg hsize
      _ hsmall

end LsmStorageInner

end MiniLsm
