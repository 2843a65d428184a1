import MiniLsm.Reads
import MiniLsm.Lib.Steps

/-!
# The structure of the tables over runs

What the invariant of a run says in the terms of the source: each table is listed once and is open,
the tables of a level are in order with disjoint ranges of keys (the assertions of
`SstConcatIterator::check_sst_valid`), and the tables of a task are found where
`apply_compaction_result` asserts them to be. A table of the lower level that a leveled compaction
leaves behind lies before or behind its whole output.

For the tiered controller, the identifiers of the tiers stay distinct as long as no merge without
the oldest tiers drops all of its entries next to a tier with the identifier zero; that identifier
is both that of the first memtable and that of an empty output.
-/

namespace MiniLsm

open LsmStorageInner LsmStorageInner.Applied

/-! ## What is asserted -/

/-- Each table is listed once and open, and each level is in order. -/
structure LsmStorageState.Structured (E : Extern) (st : LsmStorageState) : Prop where
  nodup : st.tableIds.Nodup
  mem_iff : ∀ id, id ∈ st.tableIds ↔ (st.sstables id).isSome = true
  ne_nil : ∀ level ∈ st.levels, ∀ t ∈ st.tables level.2, t.contents E ≠ []
  ordered : ∀ level ∈ st.levels,
    (st.tables level.2).Pairwise fun t t' => t.last_key < t'.first_key

/-- What `SstConcatIterator::check_sst_valid` asserts holds of every level. -/
theorem LsmStorageState.Structured.checkSstValid {E : Extern} {st : LsmStorageState}
    (h : st.Structured E) {level : ℕ × List ℕ} (hlevel : level ∈ st.levels) :
    SstConcatIterator.checkSstValid (st.tables level.2) := by
  refine ⟨fun t ht => ?_, fun i a b ha hb => ?_⟩
  · have hgood : t.Good E := by
      by_contra hno
      refine h.ne_nil level hlevel t ht (dif_neg fun hex => hno ?_)
      rw [SsTable.Good, SsTable.contents, dif_pos hex]
      exact hex.choose_spec
    obtain ⟨e, es, he⟩ := List.exists_cons_of_ne_nil (h.ne_nil level hlevel t ht)
    obtain ⟨hlow, hhigh⟩ := hgood.key_mem_range (e := e) (by rw [he]; exact List.mem_cons_self)
    exact hlow.trans hhigh
  · obtain ⟨hi, rfl⟩ := List.getElem?_eq_some_iff.mp ha
    obtain ⟨hi', rfl⟩ := List.getElem?_eq_some_iff.mp hb
    exact List.pairwise_iff_getElem.mp (h.ordered level hlevel) i (i + 1) hi hi'
      (Nat.lt_succ_self i)

/-- The state after the assignment `levels[i].second = ids`. -/
def LsmStorageState.assignLevel (st : LsmStorageState) (i : ℕ) (ids : List ℕ) : LsmStorageState :=
  { st with levels := setLevel st.levels i ids }

/-- The assertions of `SimpleLeveledCompactionController::apply_compaction_result`. -/
def SimpleLeveledCompactionTask.Asserted (t : SimpleLeveledCompactionTask) (st : LsmStorageState) :
    Prop :=
  match t.upper_level with
  | some upper_level => t.upper_level_sst_ids = st.levelIds (upper_level - 1) ∧
      t.lower_level_sst_ids = (st.assignLevel (upper_level - 1) []).levelIds (t.lower_level - 1)
  | none => (∀ id ∈ t.upper_level_sst_ids, id ∈ st.l0_sstables) ∧
      t.lower_level_sst_ids = st.levelIds (t.lower_level - 1)

/-- The assertions of `LeveledCompactionController::apply_compaction_result`. -/
def LeveledCompactionTask.Asserted (t : LeveledCompactionTask) (st : LsmStorageState) : Prop :=
  match t.upper_level with
  | some upper_level => (∀ id ∈ t.upper_level_sst_ids, id ∈ st.levelIds (upper_level - 1)) ∧
      ∀ id ∈ t.lower_level_sst_ids, id ∈ (st.assignLevel (upper_level - 1)
        (removeOnce t.upper_level_sst_ids (st.levelIds (upper_level - 1)))).levelIds
          (t.lower_level - 1)
  | none => (∀ id ∈ t.upper_level_sst_ids, id ∈ st.l0_sstables) ∧
      ∀ id ∈ t.lower_level_sst_ids, id ∈ st.levelIds (t.lower_level - 1)

/-- The assertions on a task when its result is put into the state. A full compaction has none. -/
def CompactionTask.Asserted (task : CompactionTask) (st : LsmStorageState) : Prop :=
  match task with
  | .simple t => t.Asserted st
  | .leveled t => t.Asserted st
  | _ => True

/-- The invariant of a store, in the terms of the source. -/
theorem LsmStorageInner.Inv.state_structured {M : Type} {E : Extern} {s : LsmStorageInner M}
    (h : Inv E s) : s.state.Structured E := by
  have hmem : ∀ level ∈ s.state.levels, ∀ t ∈ s.state.tables level.2, t.Good E := fun level hl =>
    (h.inOrder (List.mem_append_right _ (List.mem_map_of_mem hl))).good
  refine ⟨h.nodup, fun id => ⟨fun hid => ?_, fun hid => ?_⟩, fun level hl t ht => ?_,
    fun level hl => ?_⟩
  · obtain ⟨t, ht, -⟩ := h.good id hid
    rw [ht]
    rfl
  · obtain ⟨t, ht⟩ := Option.isSome_iff_exists.mp hid
    exact (h.listed id t ht).1
  · exact (hmem level hl t ht).ne_nil
  · exact SsTable.Good.pairwise_ranges (hmem level hl)
      (h.sorted level.2 (List.mem_append_right _ (List.mem_map_of_mem hl)))

/-- The task files of a simple leveled task are where its controller looks for them. -/
theorem SimpleLeveledCompactionTask.Fits.asserted {t : SimpleLeveledCompactionTask}
    {st : LsmStorageState} (hf : t.Fits st) : t.Asserted st := by
  unfold Fits at hf
  unfold Asserted
  rcases hul : t.upper_level with _ | i
  · rw [hul] at hf
    obtain ⟨new, a, post, hl0, hlev, hone, -⟩ := hf
    exact ⟨fun id hid => by simp [hl0, hid], by simp [LsmStorageState.levelIds, hlev, hone]⟩
  · rw [hul] at hf
    obtain ⟨pre, a, b, post, rfl, hlower, hlev, -⟩ := hf
    refine ⟨by simp [LsmStorageState.levelIds, hlev], ?_⟩
    simp [LsmStorageState.levelIds, LsmStorageState.assignLevel, hlev, hlower, setLevel]

/-- So are those of a leveled task. -/
theorem LeveledCompactionTask.Fits.asserted {t : LeveledCompactionTask} {st : LsmStorageState}
    (hf : t.Fits st) : t.Asserted st := by
  obtain ⟨pre, b, ids, post, hlev, hlower, hids, -, hf⟩ := hf
  unfold Asserted
  rcases hul : t.upper_level with _ | i
  · rw [hul] at hf
    obtain ⟨new, hl0⟩ := hf
    refine ⟨fun id hid => by simp [hl0, hid], fun id hid => ?_⟩
    rw [hids] at hid
    simpa [LsmStorageState.levelIds, hlev, hlower] using List.mem_of_mem_filter hid
  · rw [hul] at hf
    obtain ⟨above, a, up, x, rfl, rfl, hx, hup⟩ := hf
    refine ⟨fun id hid => ?_, fun id hid => ?_⟩
    · rw [hup, List.mem_singleton] at hid
      simpa [LsmStorageState.levelIds, hlev, hid] using hx
    · rw [hids] at hid
      simpa [LsmStorageState.levelIds, LsmStorageState.assignLevel, hlev, hlower, setLevel]
        using List.mem_of_mem_filter hid

/-- So are those of every task that fits the state. -/
theorem CompactionTask.Fits.asserted {E : Extern} {options : CompactionOptions}
    {task : CompactionTask} {st : LsmStorageState} (hf : task.Fits E options st) :
    task.Asserted st := by
  match options, task, hf with
  | .noCompaction, .forceFull t, _ => trivial
  | .simple _, .simple t, hf => exact SimpleLeveledCompactionTask.Fits.asserted hf
  | .tiered _, .tiered t, _ => trivial
  | .leveled _, .leveled t, hf => exact LeveledCompactionTask.Fits.asserted hf

/-! ## Controllers with levels -/

/-- The controllers with levels, with options that they work with. -/
def CompactionOptions.Leveling : CompactionOptions → Prop
  | .noCompaction => True
  | .simple o => 1 ≤ o.max_levels
  | .leveled o => 1 ≤ o.max_levels ∧ 1 ≤ o.level_size_multiplier
  | .tiered _ => False

/-- The options of the controllers with levels are sound. -/
theorem CompactionOptions.Leveling.valid {o : CompactionOptions} (h : o.Leveling) : o.Valid := by
  rcases o with o | o | o | _
  · exact h.1
  · exact absurd h id
  · trivial
  · trivial

/-- The controllers with levels ask for no merge of tiers. -/
theorem CompactionOptions.Leveling.generateTask_ne {M : Type} {E : Extern} {s : LsmStorageInner M}
    (h : s.options.compaction_options.Leveling) (t : TieredCompactionTask) :
    s.generateTask E ≠ some (.tiered t) := by
  simp only [generateTask, CompactionController.generateCompactionTask]
  rcases ho : s.options.compaction_options with o | o | o | _
  · simp
  · rw [ho] at h
    exact absurd h id
  · simp
  · simp

namespace Machine

variable {M τ : Type} {E : Extern} {io : ManifestIO M} {options : LsmStorageOptions}

/-- With the controllers with levels and one compaction at a time, the tables keep their structure
in every run. Where a compaction is about to change the state, the tables of its task are where they
are asserted to be, and a table of the lower level that a leveled task leaves behind lies before or
behind all tables of the output. -/
theorem Run.structured {ops : List (Op Unit)} {c : Machine M Unit}
    (hsize : options.block_size ≤ 65536) (hlevels : options.compaction_options.Leveling)
    (h : Run E io options (fun _ _ => True) ops c) :
    c.store.state.Structured E ∧
      ∀ call ts, c.calls () = some call → call.sstables = some ts →
        call.task.Asserted c.store.state ∧
        ∀ t, call.task = .leveled t →
          ∀ id ∈ c.store.state.levelIds (t.lower_level - 1), id ∉ t.lower_level_sst_ids →
            ∀ sst, c.store.state.sstables id = some sst →
              (∀ out ∈ ts, sst.last_key < out.first_key) ∨
                ∀ out ∈ ts, out.last_key < sst.first_key := by
  obtain ⟨hrun, hcur⟩ := h.serial
  obtain ⟨hinv, hopt⟩ := hrun.inv hsize hlevels.valid fun c op hopt hop =>
    ⟨hop.2, fun i t _ ht => absurd ht ((hopt ▸ hlevels :
      c.store.options.compaction_options.Leveling).generateTask_ne t)⟩
  refine ⟨hinv.store.state_structured, fun call ts hcall hts => ?_⟩
  have hok := hinv.calls () call hcall (hcur () call hcall)
  obtain ⟨hp, hc⟩ := hok.written ts hts
  refine ⟨hok.fits.asserted, ?_⟩
  intro t ht id hid hnot sst hsst
  have hf := hok.fits
  rw [ht] at hf hc
  have hf : t.Fits c.store.state := by
    match c.store.options.compaction_options, hf with
    | .leveled _, hf => exact hf
  obtain ⟨pre, b, ids, post, hlev, hlower, hids, -, -⟩ := (show t.Fits c.store.state from hf)
  have hid' : id ∈ ids := by simpa [LsmStorageState.levelIds, hlev, hlower] using hid
  -- A table of the lower level that is not in the task does not overlap its inputs.
  have hno : LeveledCompactionController.overlaps c.store.state t.upper_level_sst_ids id = false := by
    by_contra hover
    exact hnot (by rw [hids, List.mem_filter]; exact ⟨hid', by simpa using hover⟩)
  -- So all outputs are on one side of it.
  have hsep := LeveledCompactionController.separated_output hinv.store hf hc
    (show (b, ids) ∈ c.store.state.levels by simp [hlev]) hids hid' hno
  rw [LsmStorageState.run_singleton hsst] at hsep
  have hgood : sst.Good E := by
    obtain ⟨sst', hsst', hg⟩ := hinv.store.good id (hinv.store.listed id sst hsst).1
    rw [hsst] at hsst'
    cases hsst'
    exact hg
  obtain ⟨e, he, hfirst⟩ := hgood.exists_first
  obtain ⟨e', he', hlast⟩ := hgood.exists_last
  refine hsep.imp (fun hsep out hout => ?_) fun hsep out hout => ?_
  · obtain ⟨o, ho, hofirst⟩ := (hp.good out hout).exists_first
    rw [← hlast, ← hofirst]
    exact hsep out hout e' he' o ho
  · obtain ⟨o, ho, holast⟩ := (hp.good out hout).exists_last
    rw [← hfirst, ← holast]
    exact hsep out hout o ho e he

/-- A leveled compaction of two tables into a level that has one. -/
def overlappingTables : List (Op Unit) :=
  [.put [97] [49], .put [99] [49], .freeze, .flush, .trigger (), .compact (), .apply (),
    .put [98] [50], .freeze, .flush, .trigger (), .put [99] [51], .freeze, .flush, .compact ()]

/-- A leveled compaction in a run, between its second and its last step. -/
theorem Run.structured_overlappingTables :
    ∃ c : Machine (List ManifestRecord) Unit,
      Run .lib .list { compaction_options := .leveled ⟨1, 1, 2, 0⟩ } (fun _ _ => True)
        overlappingTables c ∧ c.store.state.Structured .lib ∧
      ∃ call, c.calls () = some call ∧ call.task.Asserted c.store.state := by
  obtain ⟨c, hrun, hcall⟩ := exists_run (P := fun _ _ => True)
    (fun c : Machine (List ManifestRecord) Unit => (c.calls ()).any fun call => call.sstables.isSome)
    (fun _ _ _ => trivial)
    (show ((Machine.start .list { compaction_options := .leveled ⟨1, 1, 2, 0⟩ }).check .lib .list
      (fun _ _ => true) overlappingTables).any _ = true by decide +kernel)
  obtain ⟨call, hcall, hsome⟩ := (Option.any_eq_true _ _).mp hcall
  obtain ⟨ts, hts⟩ := Option.isSome_iff_exists.mp hsome
  have hstr := hrun.structured (by decide) (by exact ⟨by decide, by decide⟩)
  exact ⟨c, hrun, hstr.1, call, hcall, (hstr.2 call ts hcall hts).1⟩

end Machine

/-! ## Blocks of more than 2^16 bytes

The offsets of a block are stored in 16 bits. An entry of 2^16 bytes and one behind it give the
offsets zero and zero, so that the iterator reads the first entry twice and the second one never. -/

open Cursor (Yields)

namespace WideBlock

/-- Blocks of more than 2^16 bytes. -/
def options : LsmStorageOptions := { block_size := 65600, target_sst_size := 65540 }

variable {v : Bytes}

/-- The bytes of a block that is not compressed, in the file. -/
def chunk (b : Block) : Bytes :=
  (0 :: b.encode) ++ putU32 (crc32Hash .lib (0 :: b.encode))

/-- A block with one entry. -/
def single (key v : Bytes) : Block := ⟨entryBytes 0 key v, [0]⟩

/-- A block with an entry of 2^16 bytes and one behind it, whose offset is stored as zero. -/
def double (v : Bytes) : Block := ⟨entryBytes 0 [98] v ++ entryBytes 0 [99] [49], [0, 0]⟩

/-- A builder with one entry. -/
def one (x : UInt8) (v : Bytes) : SsTableBuilder :=
  (SsTableBuilder.create 65600 .none).add .lib [x] v

/-- A builder with two entries, of which the second one does not fit the block of the first. -/
def two (v : Bytes) : SsTableBuilder := (one 97 v).add .lib [98] v

/-- A builder with three entries, of which the last one fits the block of the second. -/
def three (v : Bytes) : SsTableBuilder := (two v).add .lib [99] [49]

/-- The first entry of a block, with a key of one byte, has 2^16 bytes. -/
theorem length_entryBytes (hlen : v.length = 65529) (x : UInt8) :
    (entryBytes 0 [x] v).length = 65536 := by
  simp [entryBytes, hlen]

/-- Behind it stand the offset and the number of offsets. -/
theorem length_encode_single (hlen : v.length = 65529) (x : UInt8) :
    (single [x] v).encode.length = 65540 := by
  simp [single, Block.encode, length_entryBytes hlen]

/-- In the file, the block has a tag and a checksum. -/
theorem length_chunk_single (hlen : v.length = 65529) (x : UInt8) :
    (chunk (single [x] v)).length = 65545 := by
  simp [chunk, length_encode_single hlen]

/-- The second entry adds eight bytes and an offset. -/
theorem length_chunk_double (hlen : v.length = 65529) : (chunk (double v)).length = 65555 := by
  have h := length_entryBytes hlen 98
  simp [chunk, double, Block.encode, h]
  simp [entryBytes]

/-- The second entry closes the first block. -/
theorem add_two (hlen : v.length = 65529) :
    two v =
      ⟨⟨[0], entryBytes 0 [98] v, 65600, [98]⟩, [98], [98], chunk (single [97] v),
        [⟨0, [97], [97]⟩], 65600, .none,
        [Extern.lib.fingerprint32 [97], Extern.lib.fingerprint32 [98]]⟩ := by
  have hadd : BlockBuilder.add ⟨[0], entryBytes 0 [97] v, 65600, [97]⟩ [98] v = none := by
    rw [BlockBuilder.add]
    refine if_pos ⟨?_, rfl⟩
    rw [length_entryBytes hlen, hlen]
    simp
  rw [two, one, SsTableBuilder.create_add, SsTableBuilder.add]
  simp only [hadd]
  simp [SsTableBuilder.finishBlock, BlockBuilder.isEmpty, BlockBuilder.create, BlockBuilder.add,
    SsTableBuilder.encodePayload, BlockBuilder.build, computeOverlap, single, chunk]

/-- The third entry starts at offset 2^16, which is stored as zero. -/
theorem add_three (hlen : v.length = 65529) :
    three v =
      ⟨⟨[0, 0], entryBytes 0 [98] v ++ entryBytes 0 [99] [49], 65600, [98]⟩, [98], [99],
        chunk (single [97] v), [⟨0, [97], [97]⟩], 65600, .none,
        [Extern.lib.fingerprint32 [97], Extern.lib.fingerprint32 [98],
          Extern.lib.fingerprint32 [99]]⟩ := by
  have hadd : BlockBuilder.add ⟨[0], entryBytes 0 [98] v, 65600, [98]⟩ [99] [49] =
      some ⟨[0, 0], entryBytes 0 [98] v ++ entryBytes 0 [99] [49], 65600, [98]⟩ := by
    simp [BlockBuilder.add, length_entryBytes hlen, computeOverlap]
  rw [three, add_two hlen, SsTableBuilder.add]
  simp only [hadd]
  rfl

/-- The filter of up to six keys has eight bytes. -/
theorem length_filter {hashes : List UInt32} (h : hashes.length ≤ 6) :
    (Bloom.buildFromKeyHashes .lib hashes 10).filter.length = 8 := by
  unfold Bloom.buildFromKeyHashes
  dsimp only
  rw [show (max (hashes.length * 10) 64 + 7) / 8 = 8 by omega]
  generalize hf : hashes.foldl _ _ = f
  obtain ⟨hlen, -⟩ := Bloom.foldl_setProbes (show 0 < 8 * 8 by decide) _ hashes
    (by rw [List.length_replicate]) hf
  rw [hlen, List.length_replicate]

/-- A builder with two blocks at most writes a small file. -/
theorem length_fileBytes_lt {b b' : SsTableBuilder} (hb : b.finishBlock .lib = b')
    (hhashes : b'.key_hashes.length ≤ 6) (hdata : b'.data.length ≤ 200000)
    (hmetas : (b'.metas.map BlockMeta.encode).flatten.length ≤ 100) :
    (b.fileBytes .lib).length < 2^32 := by
  have hbits : ∀ n, Extern.lib.bloomBitsPerKey n = 10 := fun _ => rfl
  have hfilter := length_filter hhashes
  unfold SsTableBuilder.fileBytes
  dsimp only
  rw [hb, hbits]
  simp only [encodeBlockMeta, Bloom.encode, List.length_append, length_putU32, hfilter,
    List.length_singleton]
  omega

/-- The last block of the table that is flushed holds its first entry twice. -/
theorem finish_three (hlen : v.length = 65529) :
    (three v).finishBlock .lib =
      ⟨BlockBuilder.create 65600, [], [], chunk (single [97] v) ++ chunk (double v),
        [⟨0, [97], [97]⟩, ⟨65545, [98], [99]⟩], 65600, .none,
        [Extern.lib.fingerprint32 [97], Extern.lib.fingerprint32 [98],
          Extern.lib.fingerprint32 [99]]⟩ := by
  rw [add_three hlen]
  simp [SsTableBuilder.finishBlock, BlockBuilder.isEmpty, SsTableBuilder.encodePayload,
    BlockBuilder.build, double, chunk]
  exact length_encode_single hlen 97

/-- The builder of the first output, when it is built. -/
theorem finish_two (hlen : v.length = 65529) :
    (two v).finishBlock .lib =
      ⟨BlockBuilder.create 65600, [], [], chunk (single [97] v) ++ chunk (single [98] v),
        [⟨0, [97], [97]⟩, ⟨65545, [98], [98]⟩], 65600, .none,
        [Extern.lib.fingerprint32 [97], Extern.lib.fingerprint32 [98]]⟩ := by
  rw [add_two hlen]
  simp [SsTableBuilder.finishBlock, BlockBuilder.isEmpty, SsTableBuilder.encodePayload,
    BlockBuilder.build, single, chunk]
  exact length_encode_single hlen 97

/-- The builder of the second output, when it is built. -/
theorem finish_one :
    (one 98 v).finishBlock .lib =
      ⟨BlockBuilder.create 65600, [], [], chunk (single [98] v), [⟨0, [98], [98]⟩], 65600, .none,
        [Extern.lib.fingerprint32 [98]]⟩ := by
  rw [one, SsTableBuilder.create_add]
  simp [SsTableBuilder.finishBlock, BlockBuilder.isEmpty, SsTableBuilder.encodePayload,
    BlockBuilder.build, single, chunk]

/-- The chunk of a block is read back as the block. -/
theorem decodePayload_encode {b : Block} (ho : ∀ o ∈ b.offsets, o < 65536)
    (hn : b.offsets.length < 65536) : decodePayload .lib 0 b.encode = .ok b :=
  Block.decode_encode ho hn

/-- The flushed table is read as if the entry of 2^16 bytes stood in it twice. -/
theorem exists_flushed (hlen : v.length = 65529) (id : ℕ) :
    ∃ t, SsTable.open .lib id ((three v).fileBytes .lib) = .ok t ∧ t.id = id ∧
      t.Stores .lib [[([97], v)], [([98], v), ([98], v)]] := by
  have h1 := length_chunk_single hlen 97
  have h2 := length_chunk_double hlen
  have hb := finish_three hlen
  generalize three v = b at hb
  have hlt := length_fileBytes_lt hb (by simp)
    (by rw [List.length_append, h1, h2]; decide) (by simp [BlockMeta.length_encode])
  obtain ⟨hopen, rest, hfile⟩ :=
    SsTable.open_of_metas hb (by simp [BlockMeta.Fits]) (by simp) rfl rfl id hlt
  have hst : ∀ k, k ≠ [] → k.length ≤ 65535 → Storable (k, v) := fun k hne hk =>
    ⟨hne, hk, by simp [hlen]⟩
  dsimp only at hopen hfile
  refine ⟨_, hopen, rfl, rfl, by simp, ?_⟩
  intro i bl hbl
  rcases i with _ | _ | i
  · cases hbl
    refine ⟨_, single [97] v, rfl, rfl, ?_, ?_⟩
    · refine (SsTable.readBlock_of_chunk (c := chunk (single [97] v)) rfl ?_ ?_ ?_ rfl).trans
        (decodePayload_encode (by simp [single]) (by simp [single]))
      · simp [h1]
      · simp [h1]
      · dsimp only
        rw [hfile, List.append_assoc]
        exact readFile_append [] _ _ rfl rfl
    · simpa [single] using Block.holds_replicate (hst [97] (by simp) (by simp)) 1 []
  · cases hbl
    refine ⟨_, double v, rfl, rfl, ?_, ?_⟩
    · refine (SsTable.readBlock_of_chunk (c := chunk (double v)) rfl ?_ ?_ ?_ rfl).trans
        (decodePayload_encode (by simp [double]) (by simp [double]))
      · simp [h1, h2]
      · simp [h2]
      · dsimp only
        rw [hfile, List.append_assoc]
        exact readFile_append _ _ _ h1.symm rfl
    · exact Block.holds_replicate (hst [98] (by simp) (by simp)) 2 _
  · simp at hbl

/-- The table of the first output. -/
theorem exists_two (hlen : v.length = 65529) (id : ℕ) :
    ∃ t, SsTable.open .lib id ((two v).fileBytes .lib) = .ok t ∧ t.id = id ∧
      t.last_key = [98] := by
  have hb := finish_two hlen
  have hlt := length_fileBytes_lt hb (by simp)
    (by rw [List.length_append, length_chunk_single hlen, length_chunk_single hlen]; decide)
    (by simp [BlockMeta.length_encode])
  exact ⟨_, (SsTable.open_of_metas hb (by simp [BlockMeta.Fits]) (by simp) rfl rfl id hlt).1, rfl,
    rfl⟩

/-- The table of the second output. -/
theorem exists_one (hlen : v.length = 65529) (id : ℕ) :
    ∃ t, SsTable.open .lib id ((one 98 v).fileBytes .lib) = .ok t ∧ t.id = id ∧
      t.first_key = [98] := by
  have hb := finish_one (v := v)
  have hlt := length_fileBytes_lt hb (by simp) (by rw [length_chunk_single hlen]; decide)
    (by simp [BlockMeta.length_encode])
  exact ⟨_, (SsTable.open_of_metas hb (by simp [BlockMeta.Fits]) (by simp) rfl rfl id hlt).1, rfl,
    rfl⟩

/-- A compaction that reads it cuts between its two copies. -/
theorem compact_flushed (hlen : v.length = 65529) {s : LsmStorageInner (List ManifestRecord)}
    (hopt : s.options = options) {t : SsTable} (htables : s.state.tables [0] = [t])
    (hst : t.Stores .lib [[([97], v)], [([98], v), ([98], v)]]) :
    ∃ t₁ t₂, (s.compact .lib (.forceFull ⟨[0], []⟩)).1 = .ok [t₁, t₂] ∧
      t₁.id = s.next_sst_id ∧ t₂.id = s.next_sst_id + 1 ∧ t₁.last_key = [98] ∧
      t₂.first_key = [98] := by
  obtain ⟨it₀, hit₀, hy₀⟩ := hst.createAndSeekToFirst_yields (List.cons_ne_nil _ _)
  obtain ⟨it, hit, hy⟩ := TwoMergeIterator.create_of_nil (MergeIterator.create_singleton hy₀)
    (b := (⟨none, 0, []⟩ : SstConcatIterator .lib)) (.nil rfl)
  have hmerge : s.mergeL0 .lib [0] [] = .ok it := by
    unfold mergeL0
    rw [htables]
    simp only [List.mapM_cons, List.mapM_nil, hit₀, ok_bind, LsmStorageState.tables,
      List.filterMap_nil, SstConcatIterator.createAndSeekToFirst]
    exact hit
  have hne : v ≠ [] := by
    rintro rfl
    cases hlen
  -- No entry is dropped.
  have hadd : ∀ {s : LsmStorageInner (List ManifestRecord)} (builder : Option SsTableBuilder)
      {iter : TwoMergeIterator (MergeIterator (SsTableIterator .lib)) (SstConcatIterator .lib)}
      {k : Bytes}, s.options = options → Cursor.key iter = k → Cursor.value iter = v →
      s.addEntry .lib true builder (Cursor.key iter) (Cursor.value iter) =
        (builder.getD (SsTableBuilder.create 65600 .none)).add .lib k v := by
    rintro s builder iter k hs rfl rfl
    unfold addEntry
    rw [hs]
    exact if_neg (by simp [hne])
  have htarget : ∀ s : LsmStorageInner (List ManifestRecord), s.options = options →
      s.options.target_sst_size = 65540 := fun s hs => by
    rw [hs]
    rfl
  obtain ⟨n, hn⟩ : ∃ n, Cursor.bound it = n + 3 :=
    ⟨Cursor.bound it - 3, by have := hy.length_le; simp at this; omega⟩
  obtain ⟨hv₁, hk₁, hw₁, -, it₁, hn₁, hy₁⟩ := hy.isValid_cons
  obtain ⟨hv₂, hk₂, hw₂, -, it₂, hn₂, hy₂⟩ := hy₁.isValid_cons
  obtain ⟨hv₃, hk₃, hw₃, -, it₃, hn₃, hy₃⟩ := hy₂.isValid_cons
  dsimp only at hk₁ hw₁ hk₂ hw₂ hk₃ hw₃
  obtain ⟨t₁, ht₁, hid₁, hlk₁⟩ := exists_two hlen s.next_sst_id
  obtain ⟨hwrote, hnext, -⟩ := buildNext_wrote (E := .lib) s (two v)
  have hbuild₁ : s.buildNext .lib (two v) = (.ok t₁, (s.buildNext .lib (two v)).2) :=
    Prod.ext ht₁ rfl
  generalize (s.buildNext .lib (two v)).2 = s₁ at hwrote hnext hbuild₁
  have hopt₁ : s₁.options = options := hwrote.options.trans hopt
  obtain ⟨t₂, ht₂, hid₂, hfk₂⟩ := exists_one hlen s₁.next_sst_id
  have hbuild₂ : s₁.buildNext .lib (one 98 v) = (.ok t₂, (s₁.buildNext .lib (one 98 v)).2) :=
    Prod.ext ht₂ rfl
  refine ⟨t₁, t₂, ?_, hid₁, hid₂.trans hnext, hlk₁, hfk₂⟩
  have hone : ∀ k, (one k v).estimatedSize = 0 ∧ (one k v).isEmpty = false := fun k => by
    rw [one, SsTableBuilder.create_add]
    exact ⟨rfl, rfl⟩
  have htwo : (two v).estimatedSize = 65545 ∧ (two v).isEmpty = false := by
    rw [add_two hlen]
    exact ⟨length_chunk_single hlen 97, rfl⟩
  have hadd₁ : s.addEntry .lib true none (Cursor.key it) (Cursor.value it) = one 97 v :=
    hadd none hopt hk₁ hw₁
  have hadd₂ : s.addEntry .lib true (some (one 97 v)) (Cursor.key it₁) (Cursor.value it₁) =
      two v :=
    hadd (some (one 97 v)) hopt hk₂ hw₂
  have hadd₃ : s₁.addEntry .lib true none (Cursor.key it₂) (Cursor.value it₂) = one 98 v :=
    hadd none hopt₁ hk₃ hw₃
  -- The builder is below its target until its first block is closed, by the second entry.
  have hround₁ : compactLoop .lib true (n + 3 + 1) it none [] s =
      compactLoop .lib true (n + 3) it₁ (some (one 97 v)) [] s := by
    rw [compactLoop_round (n + 3) [] hv₁ hn₁ hadd₁, (hone 97).1, htarget s hopt]
    exact if_neg (by simp)
  -- Then the table is built, and the third entry, a copy of the second one, starts another.
  have hround₂ : compactLoop .lib true (n + 2 + 1) it₁ (some (one 97 v)) [] s =
      compactLoop .lib true (n + 2) it₂ none [t₁] s₁ := by
    rw [compactLoop_round (n + 2) [] hv₂ hn₂ hadd₂, htwo.1, htwo.2, htarget s hopt, hbuild₁,
      Outcome.bind_ok]
    exact if_pos (by simp)
  have hround₃ : compactLoop .lib true (n + 1 + 1) it₂ none [t₁] s₁ =
      compactLoop .lib true (n + 1) it₃ (some (one 98 v)) [t₁] s₁ := by
    rw [compactLoop_round (n + 1) [t₁] hv₃ hn₃ hadd₃, (hone 98).1, htarget s₁ hopt₁]
    exact if_neg (by simp)
  have hlast : (compactLoop .lib true (n + 1) it₃ (some (one 98 v)) [t₁] s₁).1 =
      .ok [t₁, t₂] := by
    rw [compactLoop_last n [t₁] hy₃.isValid_nil (hone 98).2, hbuild₂, Outcome.bind_ok]
    rfl
  have hcompact : s.compact .lib (.forceFull ⟨[0], []⟩) =
      compactLoop .lib true (n + 3 + 1) it none [] s := by
    change generateFrom .lib s (s.mergeL0 .lib [0] []) true = _
    rw [hmerge, generateFrom, Outcome.bind_ok, compactGenerateSstFromIter, hn]
  rw [hcompact, hround₁, hround₂, hround₃, hlast]

/-- The store when the three entries have been put: the last one fills the memtable. -/
def frozen (v : Bytes) : LsmStorageInner (List ManifestRecord) :=
  ((((openFresh .list Disk.empty options).write .lib [99] [49]).write .lib [98] v).write .lib [97]
    v).forceFreezeMemtable .list

/-- The memtable stays below its limit until the last of the three puts. -/
theorem put_three (hlen : v.length = 65529) :
    (((openFresh .list Disk.empty options).put .lib .list [99] [49]).put .lib .list [98] v).put .lib
      .list [97] v = frozen v := by
  have h₁ : (openFresh .list Disk.empty options : LsmStorageInner (List ManifestRecord)).put .lib
      .list [99] [49] = (openFresh .list Disk.empty options).write .lib [99] [49] := rfl
  rw [h₁]
  obtain ⟨s, hs⟩ : ∃ s, (openFresh .list Disk.empty options :
      LsmStorageInner (List ManifestRecord)).write .lib [99] [49] = s := ⟨_, rfl⟩
  have htarget : s.options.target_sst_size = 65540 := by
    rw [← hs]
    rfl
  have hsize : s.state.memtable.approximate_size = 2 := by
    rw [← hs]
    rfl
  have h₂ : s.put .lib .list [98] v = s.write .lib [98] v := by
    rw [put]
    refine if_neg ?_
    change ¬ (s.state.memtable.approximate_size + (1 + v.length) ≥ s.options.target_sst_size)
    omega
  have h₃ : (s.write .lib [98] v).put .lib .list [97] v =
      ((s.write .lib [98] v).write .lib [97] v).forceFreezeMemtable .list := by
    rw [put]
    refine if_pos ?_
    change s.state.memtable.approximate_size + (1 + v.length) + (1 + v.length) ≥
      s.options.target_sst_size
    omega
  rw [frozen, hs, h₂, h₃]

/-- The flush of the three entries. -/
theorem flush_frozen (hlen : v.length = 65529) :
    ∃ t : SsTable, t.Stores .lib [[([97], v)], [([98], v), ([98], v)]] ∧
      ((frozen v).forceFlushNextImmMemtable .lib .list).2.state =
        ⟨MemTable.create 1, [], [0], [(1, [])], Function.update (fun _ => none) 0 (some t)⟩ ∧
      ((frozen v).forceFlushNextImmMemtable .lib .list).2.options = options ∧
      ((frozen v).forceFlushNextImmMemtable .lib .list).2.next_sst_id = 2 := by
  obtain ⟨t, hopen, -, hst⟩ := exists_flushed hlen 0
  obtain ⟨m, hm⟩ : ∃ m, m = ((((openFresh .list Disk.empty options :
    LsmStorageInner (List ManifestRecord)).write .lib [99] [49]).write .lib [98] v).write .lib [97]
      v).state.memtable := ⟨_, rfl⟩
  have himm : (frozen v).state.imm_memtables = [] ++ [m] := by
    rw [hm]
    rfl
  have hid : m.id = 0 := by
    rw [hm]
    rfl
  have hflush : m.flush .lib (SsTableBuilder.create (frozen v).options.block_size
      (frozen v).options.compression) = three v := by
    rw [hm]
    rfl
  refine ⟨t, hst, ?_⟩
  rw [flush_of_imm_concat .lib .list himm, hflush, hid, build, hopen, Outcome.bind_ok,
    addRecord_state, addRecord_options, addRecord_next_sst_id]
  exact ⟨rfl, rfl, rfl⟩

end WideBlock

namespace Machine

open WideBlock in
/-- With blocks of more than 2^16 bytes, a table is read in another order than it was written in,
and a compaction of it makes two tables that both have one of its keys. -/
theorem Run.not_structured_wideBlock :
    ¬ ∀ (ops : List (Op Unit)) (c : Machine (List ManifestRecord) Unit),
      Steps (Machine.step .lib .list) (fun _ op => op.Storable)
        (Machine.start .list WideBlock.options) ops c →
      c.store.state.Structured .lib := by
  intro h
  obtain ⟨v, hlen⟩ : ∃ v : Bytes, v.length = 65529 :=
    ⟨List.replicate 65529 0, List.length_replicate⟩
  obtain ⟨t, hst, hstate, hopt, hnext⟩ := flush_frozen hlen
  obtain ⟨s₁, hs₁⟩ : ∃ s₁, ((frozen v).forceFlushNextImmMemtable .lib .list).2 = s₁ := ⟨_, rfl⟩
  rw [hs₁] at hstate hopt hnext
  have htables : s₁.state.tables [0] = [t] := by
    rw [hstate]
    simp [LsmStorageState.tables]
  obtain ⟨t₁, t₂, hts, hid₁, hid₂, hlast, hfirst⟩ := compact_flushed hlen hopt htables hst
  have hcstate := (compact_wrote (E := .lib) s₁ (.forceFull ⟨[0], []⟩)).state
  obtain ⟨s₂, hs₂⟩ : ∃ s₂, (s₁.compact .lib (.forceFull ⟨[0], []⟩)).2 = s₂ := ⟨_, rfl⟩
  rw [hs₂, hstate] at hcstate
  rw [hnext] at hid₁ hid₂
  -- The steps of the run, and the machines between them.
  let call : Call := ⟨.forceFull ⟨[0], []⟩, none, true⟩
  let c₀ : Machine (List ManifestRecord) Unit := ⟨frozen v, fun _ => none⟩
  let c₁ : Machine (List ManifestRecord) Unit := ⟨s₁, fun _ => none⟩
  let c₂ : Machine (List ManifestRecord) Unit :=
    ⟨s₁, Function.update (fun _ => none) () (some call)⟩
  let c₃ : Machine (List ManifestRecord) Unit :=
    ⟨s₂, Function.update c₂.calls () (some { call with sstables := some [t₁, t₂] })⟩
  let c₄ := c₃.applyStep .list () { call with sstables := some [t₁, t₂] } [t₁, t₂]
  have hput : ∀ x : UInt8, (Op.put [x] v : Op Unit).Storable := fun x =>
    ⟨List.cons_ne_nil _ _, by simp, by simp [hlen]⟩
  have hput₁ : (Op.put [99] [49] : Op Unit).Storable :=
    ⟨List.cons_ne_nil _ _, by decide, by decide⟩
  have hrun₁ : Steps (Machine.step .lib .list) (fun _ op => op.Storable)
      (Machine.start .list WideBlock.options) [.put [99] [49]] _ := Steps.snoc .refl hput₁ rfl
  have hrun₂ : Steps (Machine.step .lib .list) (fun _ op => op.Storable)
      (Machine.start .list WideBlock.options) [.put [99] [49], .put [98] v] _ :=
    Steps.snoc hrun₁ (hput 98) rfl
  have hputs : (Machine.step .lib .list ⟨((openFresh .list Disk.empty WideBlock.options :
      LsmStorageInner (List ManifestRecord)).put .lib .list [99] [49]).put .lib .list [98] v,
        fun _ => none⟩ (.put [97] v) : Option (Machine (List ManifestRecord) Unit)) = some c₀ :=
    congrArg (fun s => some (⟨s, fun _ => none⟩ : Machine (List ManifestRecord) Unit))
      (put_three hlen)
  have hrun₃ : Steps (Machine.step .lib .list) (fun _ op => op.Storable)
      (Machine.start .list WideBlock.options) [.put [99] [49], .put [98] v, .put [97] v] c₀ :=
    Steps.snoc hrun₂ (hput 97) hputs
  have hflush : c₀.step .lib .list .flush = some c₁ := by
    change some (⟨((frozen v).forceFlushNextImmMemtable .lib .list).2, fun _ => none⟩ :
      Machine (List ManifestRecord) Unit) = some c₁
    rw [hs₁]
  have hfull : c₁.step .lib .list (.full ()) = some c₂ := by
    have htask : s₁.fullTask = .ok ⟨[0], []⟩ := by
      rw [fullTask, hopt, hstate]
      rfl
    change c₁.begin () (s₁.fullTask.toOption.map CompactionTask.forceFull) = some c₂
    rw [htask]
    rfl
  have hcompact : c₂.step .lib .list (.compact ()) = some c₃ := by
    change some (c₂.compactStep .lib () call) = some c₃
    rw [compactStep, show c₂.store.compact .lib call.task = s₁.compact .lib (.forceFull ⟨[0], []⟩)
      from rfl, hts, hs₂]
    rfl
  have happly : c₃.step .lib .list (.apply ()) = some c₄ := rfl
  have hrun₄ : Steps (Machine.step .lib .list) (fun _ op => op.Storable)
      (Machine.start .list WideBlock.options)
      [.put [99] [49], .put [98] v, .put [97] v, .flush] c₁ :=
    Steps.snoc hrun₃ trivial hflush
  have hrun₅ : Steps (Machine.step .lib .list) (fun _ op => op.Storable)
      (Machine.start .list WideBlock.options) [.put [99] [49], .put [98] v, .put [97] v, .flush,
        .full ()] c₂ := Steps.snoc hrun₄ trivial hfull
  have hrun₆ : Steps (Machine.step .lib .list) (fun _ op => op.Storable)
      (Machine.start .list WideBlock.options) [.put [99] [49], .put [98] v, .put [97] v, .flush,
        .full (), .compact ()] c₃ := Steps.snoc hrun₅ trivial hcompact
  have hstr := h [.put [99] [49], .put [98] v, .put [97] v, .flush, .full (), .compact (),
    .apply ()] c₄ (Steps.snoc hrun₆ trivial happly)
  -- Both tables of the level have the key.
  have hnd : ([t₁, t₂].map SsTable.id).Nodup := by simp [hid₁, hid₂]
  have hlevels : c₄.store.state.levels = [(1, [t₁.id, t₂.id])] := by
    change (s₂.applyFull .list ⟨[0], []⟩ [t₁, t₂]).state.levels = _
    rw [applyFull]
    simp [removeSsts, hcstate, setLevel]
  have hssts : ∀ t ∈ [t₁, t₂], c₄.store.state.sstables t.id = some t := by
    intro t ht
    change (s₂.applyFull .list ⟨[0], []⟩ [t₁, t₂]).state.sstables t.id = _
    rw [applyFull]
    simp only [removeSsts, addRecord_state]
    exact addTables_of_mem _ hnd ht
  have hpair := hstr.ordered (1, [t₁.id, t₂.id]) (by rw [hlevels]; exact List.mem_singleton_self _)
  rw [LsmStorageState.tables, List.filterMap_cons, hssts t₁ (by simp), List.filterMap_cons,
    hssts t₂ (by simp), List.filterMap_nil, List.pairwise_pair, hlast, hfirst] at hpair
  exact absurd hpair (by decide)

variable {M τ : Type} {E : Extern} {io : ManifestIO M} {options : LsmStorageOptions}

/-! ## Tables that are gone -/

/-- The identifier of a table that has been replaced: it is not one of a memtable or of a table, and
it is not handed out again. -/
structure Gone (c : Machine M τ) (id : ℕ) : Prop where
  lt_next : id < c.store.next_sst_id
  not_mem : id ∉ c.store.state.tableIds
  not_memtable : ∀ m ∈ c.store.state.memtables, m.id ≠ id
  not_written : ∀ i call ts, c.calls i = some call → call.current = true →
    call.sstables = some ts → ∀ t ∈ ts, t.id ≠ id

/-- Steps that keep the tables keep what is gone. -/
theorem Gone.of_sameTables {c : Machine M τ} {id : ℕ} {s' : LsmStorageInner M} (h : c.Gone id)
    (hst : Inv.SameTables c.store s') (hmem : MemtablesFrom c.store s') :
    Gone { c with store := s' } id where
  lt_next := h.lt_next.trans_le hst.next_le
  not_mem := by
    rw [hst.tableIds]
    exact h.not_mem
  not_memtable := by
    intro m' hm' heq
    have hlt := h.lt_next
    rcases hmem m' hm' with hle | ⟨m, hm, hid⟩
    · omega
    · exact h.not_memtable m hm (hid.trans heq)
  not_written := h.not_written

/-- A write may freeze the memtable under a new identifier. -/
theorem Gone.put {c : Machine M τ} {id : ℕ} (h : c.Gone id) (key value : Bytes) :
    Gone { c with store := c.store.put E io key value } id := by
  have hw := h.of_sameTables (Inv.sameTables_write (E := E) c.store key value)
    (memtablesFrom_write c.store key value)
  rcases put_eq E io c.store key value with heq | heq
  · rw [heq]
    exact hw
  · rw [heq]
    exact hw.of_sameTables (Inv.sameTables_freeze io _) (memtablesFrom_freeze io _)

variable [DecidableEq τ]

/-- The choice of a task changes no state. -/
theorem Gone.begin {c c' : Machine M τ} {id : ℕ} (h : c.Gone id) {i : τ}
    {task : Option CompactionTask} (hb : c.begin i task = some c') : c'.Gone id := by
  obtain ⟨-, t, rfl, rfl⟩ := begin_eq_some hb
  refine ⟨h.lt_next, h.not_mem, h.not_memtable, fun j call ts hj hcur hts => ?_⟩
  dsimp only at hj
  by_cases hij : j = i
  · subst hij
    rw [Function.update_self] at hj
    cases hj
    cases hts
  · rw [Function.update_of_ne hij] at hj
    exact h.not_written j call ts hj hcur hts

/-- The tables that a compaction writes have new identifiers. -/
theorem Gone.compactStep {c : Machine M τ} {id : ℕ} (h : c.Gone id) (hinv : c.Inv E) {i : τ}
    {call : Call} (hi : c.calls i = some call)
    (hsmall : (c.compactStep E i call).store.disk.Small) : (c.compactStep E i call).Gone id := by
  have hw := compact_wrote (E := E) c.store call.task
  have hs := h.of_sameTables hw.sameTables hw.memtablesFrom
  refine ⟨hs.lt_next, hs.not_mem, hs.not_memtable, fun j call' ts hj hcur hts t ht => ?_⟩
  by_cases hij : j = i
  · -- The identifiers of the output are new.
    subst hij
    simp only [Machine.compactStep, Function.update_self, Option.map_eq_some_iff] at hj
    obtain ⟨ts', hts', rfl⟩ := hj
    cases hts
    have hok := hinv.calls j call hi hcur
    obtain ⟨ts'', hts'', hb⟩ := compact_spec (hok.fits.inOrder hinv.store) hinv.store.block_size hsmall
    rw [hts''] at hts'
    cases hts'
    have hid := List.mem_map_of_mem (f := SsTable.id) ht
    rw [hb.ids, List.mem_range'_1] at hid
    have hlt := h.lt_next
    omega
  · simp only [Machine.compactStep, Function.update_of_ne hij] at hj
    exact h.not_written j call' ts hj hcur hts t ht

/-- Behind the last step of one compaction, no other one is current. -/
theorem applyStep_calls {c : Machine M τ} {i j : τ} {call call' : Call} {ts : List SsTable}
    (hj : (c.applyStep io i call ts).calls j = some call') : call'.current = false := by
  simp only [Machine.applyStep] at hj
  split_ifs at hj
  obtain ⟨call'', -, rfl⟩ := Option.map_eq_some_iff.mp hj
  rfl

/-- What the end of a current compaction leaves of the store. -/
theorem Inv.applied (io : ManifestIO M) {c : Machine M τ} (h : c.Inv E) {i : τ} {call : Call}
    {ts : List SsTable}
    (hi : c.calls i = some call) (hcur : call.current = true) (hts : call.sstables = some ts) :
    Pending E c.store ts ∧
      Applied c.store (c.applyStep io i call ts).store call.task.groups.flatten ts := by
  have hok := h.calls i call hi hcur
  obtain ⟨hp, hc⟩ := hok.written ts hts
  exact ⟨hp, (applyResult_spec io h.store h.shape hp hok.fits hc).1⟩

/-- The last step brings in the tables of its own compaction only. -/
theorem Gone.applyStep {c : Machine M τ} {id : ℕ} (h : c.Gone id) (hinv : c.Inv E) {i : τ}
    {call : Call} {ts : List SsTable} (hi : c.calls i = some call) (hcur : call.current = true)
    (hts : call.sstables = some ts) : (c.applyStep io i call ts).Gone id := by
  obtain ⟨hp, ha⟩ := hinv.applied io hi hcur hts
  refine ⟨?_, fun hmem => ?_, ?_, fun j call' ts' hj hcur' => ?_⟩
  · rw [ha.next_sst_id]
    exact h.lt_next
  · rcases (ha.mem_tableIds hinv.store).mp hmem with hid | hid
    · obtain ⟨t, ht, heq⟩ := List.mem_map.mp hid
      exact h.not_written i call ts hi hcur hts t ht heq
    · exact h.not_mem hid.1
  · rw [ha.memtables]
    exact h.not_memtable
  · rw [applyStep_calls hj] at hcur'
    cases hcur'

/-- The tables that a compaction replaces are gone. -/
theorem gone_of_apply {c : Machine M τ} {id : ℕ} (hinv : c.Inv E) {i : τ} {call : Call}
    {ts : List SsTable} (hi : c.calls i = some call) (hcur : call.current = true)
    (hts : call.sstables = some ts) (hid : id ∈ call.task.groups.flatten) :
    (c.applyStep io i call ts).Gone id := by
  obtain ⟨hp, ha⟩ := hinv.applied io hi hcur hts
  have hmem := (hinv.calls i call hi hcur).fits.mem_tableIds hid
  refine ⟨?_, fun hmem' => ha.not_mem_old hinv.store hp hmem' hid, ?_, fun j call' ts' hj hcur' => ?_⟩
  · rw [ha.next_sst_id]
    exact hinv.store.ids_lt id hmem
  · rw [ha.memtables]
    exact fun m hm heq => hinv.store.mem_ids_disjoint m hm (heq ▸ hmem)
  · rw [applyStep_calls hj] at hcur'
    cases hcur'

/-- A step keeps what is gone. -/
theorem Gone.step {c c' : Machine M τ} {op : Op τ} {id : ℕ} (h : c.Gone id) (hinv : c.Inv E)
    (hserial : c.Serial op) (hstep : c.step E io op = some c') (hsmall : c'.store.disk.Small) :
    c'.Gone id := by
  cases op with
  | put key value =>
    cases hstep
    exact h.put key value
  | del key =>
    cases hstep
    exact h.put key []
  | freeze =>
    simp only [Machine.step] at hstep
    split_ifs at hstep
    cases hstep
    exact h.of_sameTables (Inv.sameTables_freeze io _) (memtablesFrom_freeze io _)
  | flush =>
    cases hstep
    by_cases himm : c.store.state.imm_memtables = []
    · rw [flush_of_imm_nil E io himm]
      exact h
    · obtain ⟨-, m, t, hfl⟩ := flush_spec hinv.store himm hsmall
      refine ⟨hfl.next_sst_id.symm ▸ h.lt_next, fun hmem => ?_, fun m' hm' => ?_, h.not_written⟩
      · rcases (hfl.mem_tableIds hinv.store).mp hmem with heq | hmem
        · exact h.not_memtable m hfl.mem_memtables heq.symm
        · exact h.not_mem hmem
      · exact h.not_memtable m' (by rw [hfl.memtables]; exact List.mem_append_left _ hm')
  | trigger i => exact h.begin hstep
  | full i => exact h.begin hstep
  | compact i =>
    obtain ⟨call, hi, -, rfl⟩ := step_compact hstep
    exact h.compactStep hinv hi hsmall
  | apply i =>
    obtain ⟨call, ts, hi, hts, rfl⟩ := step_apply hstep
    exact h.applyStep hinv hi (hserial i call rfl hi) hts

variable {P : Machine M τ → Op τ → Prop}

/-- The tables that a compaction has replaced are gone for the rest of the run. -/
theorem Run.gone {ops : List (Op τ)} {c : Machine M τ} (hsize : options.block_size ≤ 65536)
    (hv : options.compaction_options.Valid)
    (hP : ∀ c op, c.store.options = options → P c op → c.Admits E op)
    (h : Run E io options P ops c) {ops₁ ops₂ : List (Op τ)} {i : τ}
    (hops : ops = ops₁ ++ .apply i :: ops₂) {c₁ : Machine M τ} {call : Call}
    (hc₁ : (Machine.start io options).exec E io ops₁ = some c₁) (hi : c₁.calls i = some call)
    {id : ℕ} (hid : id ∈ call.task.groups.flatten) : c.Gone id := by
  induction h generalizing ops₂ with
  | start => simp at hops
  | @step ops c c' op hrun hop hs hstep hsmall ih =>
    obtain ⟨hinv, hopt⟩ := hrun.inv hsize hv hP
    have hadm := hP c op hopt hop
    rcases List.eq_nil_or_concat' ops₂ with rfl | ⟨ops₂, op', rfl⟩
    · -- The step is the one that replaces the table.
      obtain ⟨rfl, hop'⟩ := List.append_inj' hops rfl
      cases hop'
      rw [hrun.exec_eq] at hc₁
      cases hc₁
      obtain ⟨call', ts, hi', hts, rfl⟩ := step_apply hstep
      rw [hi] at hi'
      cases hi'
      exact gone_of_apply hinv hi (hadm.serial i call rfl hi) hts hid
    · have hcons : ops₁ ++ .apply i :: (ops₂ ++ [op']) = (ops₁ ++ .apply i :: ops₂) ++ [op'] := by
        simp
      rw [hcons] at hops
      obtain ⟨rfl, hop'⟩ := List.append_inj' hops rfl
      cases hop'
      exact (ih rfl).step hinv hadm.serial hstep hsmall

/-- The first steps of a run are a run. -/
theorem Run.of_append {ops₁ ops₂ : List (Op τ)} {c : Machine M τ}
    (h : Run E io options P (ops₁ ++ ops₂) c) : ∃ c₁, Run E io options P ops₁ c₁ := by
  generalize hops : ops₁ ++ ops₂ = ops at h
  induction h generalizing ops₂ with
  | start =>
    rw [List.append_eq_nil_iff] at hops
    rw [hops.1]
    exact ⟨_, .start⟩
  | @step ops c c' op hrun hop hs hstep hsmall ih =>
    rcases List.eq_nil_or_concat' ops₂ with rfl | ⟨ops₂, op', rfl⟩
    · rw [List.append_nil] at hops
      exact ⟨c', hops ▸ hrun.step hop hs hstep hsmall⟩
    · rw [← List.append_assoc] at hops
      exact ih (List.append_inj' hops rfl).1

/-! ## Tiers -/

/-- A merge that drops deleted keys leaves no older tier with the identifier zero, unless some key
has a value in the tiers that it takes. -/
def Covers (E : Extern) (c : Machine M τ) (op : Op τ) : Prop :=
  ∀ i t, op = .trigger i → c.store.generateTask E = some (.tiered t) → c.store.Covered E t

/-- With the tiered controller, and with one compaction at a time, the tiers have distinct
identifiers, their tables are listed once and are open, and no table that a compaction has removed
is listed again, in every run whose merges are covered. -/
theorem Run.tiers_consistent {o : TieredCompactionOptions} {ops : List (Op Unit)}
    {c : Machine M Unit} (hsize : options.block_size ≤ 65536)
    (ho : options.compaction_options = .tiered o) (hw : o.max_merge_width ≠ some 0)
    (h : Run E io options (Covers E) ops c) :
    (c.store.state.levels.map Prod.fst).Nodup ∧
      (c.store.state.levels.map Prod.snd).flatten.Nodup ∧
      (∀ id ∈ (c.store.state.levels.map Prod.snd).flatten,
        (c.store.state.sstables id).isSome = true) ∧
      ∀ ops₁ ops₂ c₁ call ts t, ops = ops₁ ++ .apply () :: ops₂ →
        (Machine.start io options).exec E io ops₁ = some c₁ → c₁.calls () = some call →
        call.sstables = some ts → call.task = .tiered t →
        ∀ id ∈ (TieredCompactionController.applyCompactionResult (c₁.store.withTables ts) t
          (ts.map SsTable.id)).2, id ∉ (c.store.state.levels.map Prod.snd).flatten := by
  have hv : options.compaction_options.Valid := by
    rw [ho]
    exact hw
  have hadm : ∀ (c : Machine M Unit) op, c.store.options = options →
      (c.Covers E op ∧ c.Serial op) → c.Admits E op := fun c op _ hop => ⟨hop.2, hop.1⟩
  have hinvs : ∀ ops (c : Machine M Unit), Run E io options (Covers E) ops c →
      c.Inv E ∧ (c.store.state.levels.map Prod.fst).Nodup ∧
        ∀ i call, c.calls i = some call → call.current = true := by
    intro ops c h
    obtain ⟨hrun, hcur⟩ := h.serial
    obtain ⟨hinv, hopt⟩ := hrun.inv hsize hv hadm
    have hsh := hinv.shape
    simp only [Shape, hopt, ho] at hsh
    exact ⟨hinv, hsh.1, hcur⟩
  obtain ⟨hinv, hnd, -⟩ := hinvs ops c h
  refine ⟨hnd, (List.nodup_append.mp hinv.store.nodup).2.1, fun id hid => ?_, ?_⟩
  · exact (hinv.store.state_structured.mem_iff id).mp (List.mem_append_right _ hid)
  · rintro ops₁ ops₂ c₁ call ts t rfl hc₁ hi hts ht id hid hmem
    obtain ⟨c₁', hrun₁⟩ := h.of_append
    obtain rfl : c₁' = c₁ := Option.some.inj (hrun₁.exec_eq.symm.trans hc₁)
    obtain ⟨hinv₁, hnd₁, hcur₁⟩ := hinvs ops₁ c₁' hrun₁
    have hf := (hinv₁.calls () call hi (hcur₁ () call hi)).fits
    rw [ht] at hf
    -- The files that the result removes are those of the tiers of the task.
    have hfiles : id ∈ call.task.groups.flatten := by
      cases hopts : c₁'.store.options.compaction_options with
      | tiered =>
        rw [hopts] at hf
        obtain ⟨hne, new, rest, hlev, -⟩ := hf
        rw [TieredCompactionController.applyCompactionResult_eq (c₁'.store.withTables ts) hne
          hlev hnd₁] at hid
        rw [ht]
        exact hid
      | _ =>
        rw [hopts] at hf
        cases hf
    exact (h.serial.1.gone hsize hv hadm rfl hrun₁.exec_eq hi hfiles).not_mem
      (List.mem_append_right _ hmem)

/-- A merge of all tiers, of which the oldest one has the identifier zero and all keys are deleted.
-/
def emptyMerge : List (Op Unit) :=
  [.put [97] [49], .freeze, .flush, .del [97], .freeze, .flush, .del [98], .freeze, .flush,
    .trigger (), .del [98], .freeze, .flush, .compact (), .apply ()]

/-- The options of a controller that merges at most two of three tiers. -/
def twoOfThreeTiers : TieredCompactionOptions where
  max_size_amplification_percent := 1000
  max_merge_width := some 2

/-- A merge that drops all its entries, without a tier of identifier zero beside it. -/
theorem Run.tiers_emptyMerge :
    ∃ c : Machine (List ManifestRecord) Unit,
      Run .lib .list { compaction_options := .tiered {} } (Covers .lib) emptyMerge c ∧
      (c.store.state.levels.map Prod.fst).Nodup ∧ c.store.state.levels = [(3, [3]), (0, [])] := by
  obtain ⟨c, hrun, hlev⟩ := exists_run (P := Covers .lib)
    (fun c : Machine (List ManifestRecord) Unit => decide (c.store.state.levels = [(3, [3]), (0, [])]))
    (fun c op hop i t _ ht => (generateTask_sound (by rw [of_decide_eq_true hop]; rfl) ht).2 t rfl)
    (show ((Machine.start .list { compaction_options := .tiered {} }).check .lib .list
      (fun c _ => decide (c.store.options.compaction_options = .tiered {})) emptyMerge).any
      _ = true by decide +kernel)
  exact ⟨c, hrun, (hrun.tiers_consistent (by decide) rfl (by decide)).1, of_decide_eq_true hlev⟩

/-- The merge leaves out the oldest tier, whose identifier is zero, and is empty. -/
theorem Run.tiers_twoOfThree :
    ¬ ∀ (ops : List (Op Unit)) (c : Machine (List ManifestRecord) Unit),
      Run .lib .list { compaction_options := .tiered twoOfThreeTiers } (fun _ _ => True) ops c →
      (c.store.state.levels.map Prod.fst).Nodup := by
  intro h
  obtain ⟨c, hrun, hlev⟩ := exists_run (P := fun _ _ => True)
    (fun c : Machine (List ManifestRecord) Unit => decide (c.store.state.levels = [(0, []), (0, [0])]))
    (fun _ _ _ => trivial)
    (show ((Machine.start .list { compaction_options := .tiered twoOfThreeTiers }).check .lib .list
      (fun _ _ => true) [.put [97] [49], .freeze, .flush, .del [98], .freeze, .flush, .del [99],
        .freeze, .flush, .trigger (), .compact (), .apply ()]).any _ = true by decide +kernel)
  have hnd := h _ c hrun
  rw [of_decide_eq_true hlev] at hnd
  exact absurd hnd (by decide)

end Machine

end MiniLsm
