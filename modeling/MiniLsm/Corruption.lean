import MiniLsm.Libraries
import MiniLsm.Sequences

/-!
# Damaged table files

A table file has checksums behind each of its blocks, behind the entries of the block index, and
behind the Bloom filter. Bytes of these sections are replaced by others, such that their checksums
do not match any more (`Damage`). A block with a wrong checksum is refused when it is read, and a
block index when the table is opened. In a build without assertions the Bloom filter is not checked:
a lookup is reported or answered as before exactly if the filter that is read from the damaged
section still has every key of the table (`SsTable.reported_iff`).
-/

namespace MiniLsm

open Cursor (Yields)

/-! ## Sections -/

/-- The bytes `c`, with their checksum behind them, are damaged to `c'`: as many bytes, whose
checksum does not match if there is any change. -/
structure Damage (E : Extern) (c c' : Bytes) : Prop where
  length_eq : c'.length = c.length
  mismatch : c' ≠ c →
    BigEndian.get (c'.drop (c'.length - 4)) ≠ crc32Hash E (c'.take (c'.length - 4))

instance (E : Extern) (c c' : Bytes) : Decidable (Damage E c c') :=
  decidable_of_iff (c'.length = c.length ∧ (c' ≠ c →
    BigEndian.get (c'.drop (c'.length - 4)) ≠ crc32Hash E (c'.take (c'.length - 4))))
    ⟨fun h => ⟨h.1, h.2⟩, fun h => ⟨h.1, h.2⟩⟩

/-- The bytes of the blocks, each with its checksum, from its offset to the next one. -/
def SsTableBuilder.blockSections (b : SsTableBuilder) : List Bytes :=
  (List.range b.metas.length).map fun i =>
    let offset := (b.metas[i]?.map BlockMeta.offset).getD 0
    let offset_end := (b.metas[i + 1]?.map BlockMeta.offset).getD b.data.length
    (b.data.drop offset).take (offset_end - offset)

/-- The entries of the block index, with their checksum. -/
def metaSection (E : Extern) (metas : List BlockMeta) : Bytes :=
  let entries := (metas.map BlockMeta.encode).flatten
  entries ++ putU32 (crc32Hash E entries)

/-- The Bloom filter that `SsTableBuilder::build` writes. -/
def SsTableBuilder.bloom (E : Extern) (b : SsTableBuilder) : Bloom :=
  Bloom.buildFromKeyHashes E b.key_hashes (E.bloomBitsPerKey b.key_hashes.length)

/-- A table file with the given sections. -/
def fileOf (blocks : List Bytes) (num : ℕ) (meta_section bloom_section : Bytes) : Bytes :=
  let data := blocks.flatten
  let buf := data ++ ((putU32 num ++ meta_section) ++ putU32 data.length)
  buf ++ (bloom_section ++ putU32 buf.length)

/-- The sections of the table of a builder are damaged to the given ones. -/
structure SsTableBuilder.Damaged (E : Extern) (b : SsTableBuilder) (blocks : List Bytes)
    (meta_section bloom_section : Bytes) : Prop where
  blocks : List.Forall₂ (Damage E) (b.finishBlock E).blockSections blocks
  metas : Damage E (metaSection E (b.finishBlock E).metas) meta_section
  bloom : Damage E (((b.finishBlock E).bloom E).encode E) bloom_section

/-- The blocks that are laid out are the sections between the offsets. -/
theorem Layout.blockSections_eq {E : Extern} {b : SsTableBuilder}
    {bs : List (List (Bytes × Bytes))} {chunks : List Bytes}
    (h : Layout E b.data b.metas bs chunks) : b.blockSections = chunks := by
  have hlc := h.length_chunks
  have hlm := h.length_metas
  refine List.ext_getElem? fun i => ?_
  rw [SsTableBuilder.blockSections, List.getElem?_map]
  rcases lt_or_ge i bs.length with hi | hi
  · obtain ⟨c, m, hc, hm, hoff, -⟩ := h.block i bs[i] (List.getElem?_eq_getElem hi)
    have hend := h.offset_end hi
    have htake := flatten_take_succ hc
    have hsplit := flatten_split hc
    rw [← h.data_eq] at hsplit
    rw [List.getElem?_range (by omega), hc, Option.map_some]
    dsimp only
    rw [hm, Option.map_some, Option.getD_some, hend, hoff, htake, List.length_append,
      Nat.add_sub_cancel_left, hsplit, List.drop_left, List.take_left]
  · rw [List.getElem?_eq_none (by simpa using by omega), List.getElem?_eq_none (by omega)]
    rfl

/-- The sections of a table that nobody has damaged. -/
theorem SsTableBuilder.fileOf_sections {E : Extern} {b : SsTableBuilder}
    {bs : List (List (Bytes × Bytes))} {chunks : List Bytes}
    (h : Layout E (b.finishBlock E).data (b.finishBlock E).metas bs chunks) :
    fileOf (b.finishBlock E).blockSections (b.finishBlock E).metas.length
      (metaSection E (b.finishBlock E).metas) (((b.finishBlock E).bloom E).encode E) =
      b.fileBytes E := by
  rw [fileOf, h.blockSections_eq, ← h.data_eq, fileBytes]
  rfl

/-! ## Reads of a damaged file -/

/-- A result that is thrown. -/
def Throws {α : Type} (r : Except Error α) : Prop := ∃ what, r = .error (.runtimeError what)

/-- Block index entries with a wrong checksum are refused. -/
theorem decodeBlockMeta_mismatch {E : Extern} {num : ℕ} {c : Bytes} (hlen : 4 ≤ c.length)
    (h : BigEndian.get (c.drop (c.length - 4)) ≠ crc32Hash E (c.take (c.length - 4))) :
    decodeBlockMeta E (putU32 num ++ c) = .error (.runtimeError "meta checksum mismatched") := by
  have hraw : (putU32 num ++ c).length = c.length + 4 := by
    rw [List.length_append, length_putU32, Nat.add_comm]
  have hnum : readU32 (putU32 num ++ c) 0 =
      .ok (BigEndian.get (((putU32 num ++ c).drop 0).take 4)) := by
    rw [readU32, readBE, if_pos (by omega)]
  have hsum : readU32 (putU32 num ++ c) ((putU32 num ++ c).length - 4) =
      .ok (BigEndian.get (c.drop (c.length - 4))) := by
    rw [readU32, readBE, if_pos (by omega), hraw, Nat.add_sub_cancel]
    have hdrop : (putU32 num ++ c).drop c.length = c.drop (c.length - 4) := by
      have hpos : c.length = (putU32 num).length + (c.length - 4) := by
        rw [length_putU32]
        omega
      conv_lhs => rw [hpos, ← List.drop_drop, List.drop_left]
    rw [hdrop, List.take_of_length_le (by rw [List.length_drop]; omega)]
  have hbody : ((putU32 num ++ c).drop 4).take ((putU32 num ++ c).length - 8) =
      c.take (c.length - 4) := by
    rw [hraw, ← length_putU32 num, List.drop_left, length_putU32]
    congr 1
  rw [decodeBlockMeta, if_neg (by omega), hnum, ok_bind, hsum, ok_bind]
  dsimp only
  rw [hbody, if_pos h]

/-- A block with a wrong checksum is refused. -/
theorem SsTable.readBlock_mismatch {E : Extern} {t : SsTable} {i : ℕ} {m : BlockMeta} {c : Bytes}
    (hm : t.block_meta[i]? = some m)
    (hend : ((t.block_meta[i + 1]?).map BlockMeta.offset).getD t.block_meta_offset =
      m.offset + c.length) (hlt : m.offset + c.length < 2^32) (hlen : 4 ≤ c.length)
    (hread : readFile t.file m.offset c.length = .ok c)
    (h : BigEndian.get (c.drop (c.length - 4)) ≠ crc32Hash E (c.take (c.length - 4))) :
    t.readBlock E i = .error (.runtimeError "block checksum mismatched") := by
  have hsub : wrapSub 64 (m.offset + c.length) m.offset = c.length := by
    rw [wrapSub_eq (by omega) (by omega), Nat.add_sub_cancel_left]
  have hsub' : wrapSub 64 c.length 4 = c.length - 4 := wrapSub_eq hlen (by omega)
  have hsum : readU32 c (c.length - 4) = .ok (BigEndian.get (c.drop (c.length - 4))) := by
    rw [readU32, readBE, if_pos (by omega), List.take_of_length_le (by rw [List.length_drop]; omega)]
  unfold readBlock
  rw [hm]
  dsimp only
  rw [hend, hsub, hsub', hread, ok_bind, hsum, ok_bind, if_pos h]

/-- Two tables with the same block index, where the blocks of the second are those of the first or
cannot be read. -/
structure SsTable.Degrades (E : Extern) (t t' : SsTable) : Prop where
  block_meta : t'.block_meta = t.block_meta
  first_key : t'.first_key = t.first_key
  last_key : t'.last_key = t.last_key
  readBlock : ∀ i, Throws (t'.readBlock E i) ∨ t'.readBlock E i = t.readBlock E i

/-- The iterators over two such tables. -/
theorem SsTable.Degrades.createAndSeekToKey {E : Extern} {t t' : SsTable} (h : t.Degrades E t')
    (key : Bytes) : Throws (SsTableIterator.createAndSeekToKey E t' key) ∨
      SsTableIterator.createAndSeekToKey E t' key =
        (SsTableIterator.createAndSeekToKey E t key).map fun it => { it with table := some t' } := by
  have hnum : t'.numBlocks = t.numBlocks := by rw [numBlocks, numBlocks, h.block_meta]
  have hfind : t'.findBlockIdx key = t.findBlockIdx key := by
    rw [findBlockIdx, findBlockIdx, h.block_meta]
  simp only [SsTableIterator.createAndSeekToKey, hnum, hfind]
  split_ifs with hzero hnext
  · exact .inr rfl
  all_goals
    rcases h.readBlock (t.findBlockIdx key) with ⟨what, hthrow⟩ | hsame
    · rw [hthrow]
      exact .inl ⟨what, rfl⟩
    rw [hsame]
    rcases t.readBlock E (t.findBlockIdx key) with e | blk
    · exact .inr rfl
    rw [ok_bind, ok_bind]
    rcases BlockIterator.createAndSeekToKey blk key with e | it
    · exact .inr rfl
    rw [ok_bind, ok_bind]
    split_ifs
    · exact .inr rfl
  · -- The key is behind the last one of the block, and the next block is read as well.
    rcases h.readBlock (t.findBlockIdx key + 1) with ⟨what, hthrow⟩ | hsame'
    · rw [hthrow]
      exact .inl ⟨what, rfl⟩
    rw [hsame']
    rcases t.readBlock E (t.findBlockIdx key + 1) with e | blk'
    · exact .inr rfl
    rw [ok_bind, ok_bind]
    rcases BlockIterator.createAndSeekToFirst blk' with e | it'
    · exact .inr rfl
    · exact .inr rfl
  · exact .inr rfl

/-! ## Lookups -/

/-- The lookup of a key in one table, as `LsmStorageInner::get` does it. A value that is found may
be empty, for a deleted key. -/
def SsTable.lookup (E : Extern) (t : SsTable) (key : Bytes) : Except Error (Option Bytes) :=
  if LsmStorageInner.keepTable E key t then do
    let iter ← SsTableIterator.createAndSeekToKey E t key
    .ok (if Cursor.isValid iter && decide (Cursor.key iter = key) then some (Cursor.value iter)
      else none)
  else .ok none

/-- What an iterator finds that starts at a key. -/
theorem found_of_yields {ι : Type} [Cursor ι Bytes Bytes Error] {it : ι} {k : Bytes}
    {es : List (Bytes × Bytes)} (hs : Assoc.Sorted es) (hy : Yields it (Assoc.seek k es)) :
    (if Cursor.isValid it && decide (Cursor.key it = k) then some (Cursor.value it) else none) =
      Assoc.lookup k es := by
  rw [← lookup_seek hs]
  have hsort := hs.seek k
  have hge : ∀ e ∈ Assoc.seek k es, k ≤ e.1 := fun e he => ((Assoc.mem_seek_iff hs).mp he).2
  generalize Assoc.seek k es = l at hy hsort hge
  rcases l with _ | ⟨⟨a, v⟩, l⟩
  · simp [hy.isValid_nil, Assoc.lookup_nil]
  · obtain ⟨hv, hk, hw, -⟩ := hy.isValid_cons
    simp only at hk hw
    rw [hv, hk, hw, Assoc.lookup_cons]
    by_cases ha : a = k
    · simp [ha]
    · have hlt : k < a := lt_of_le_of_ne (hge (a, v) (by simp)) (Ne.symm ha)
      have hnone : Assoc.lookup k l = none := by
        rw [Assoc.lookup_eq_none_iff]
        intro e he
        exact (hlt.trans ((List.pairwise_cons.mp hsort).1 e he)).ne'
      simp [ha, hnone]

/-- The lookup in a table that holds its entries. -/
theorem SsTable.Holds.lookup_eq {E : Extern} {t : SsTable} {es : List (Bytes × Bytes)}
    (h : t.Holds E es) (k : Bytes) : t.lookup E k = .ok (Assoc.lookup k es) := by
  rw [SsTable.lookup]
  split_ifs with hkeep
  · obtain ⟨it, hit, hy⟩ := SsTableIterator.createAndSeekToKey_yields h k
    rw [hit, ok_bind, found_of_yields h.sorted hy]
  · have := lookup_of_not_keepTable h.good (by simpa using hkeep)
    rw [h.contents_eq] at this
    rw [this]

/-- The lookup in a damaged table, whose Bloom filter may be any. -/
theorem SsTable.Degrades.lookup {E : Extern} {t t' : SsTable} {es : List (Bytes × Bytes)}
    (hd : t.Degrades E t') (h : t.Holds E es) (k : Bytes) :
    Throws (t'.lookup E k) ∨ t'.lookup E k =
      .ok (if t'.bloom.mayContain (E.fingerprint32 k) then Assoc.lookup k es else none) := by
  by_cases hbloom : t'.bloom.mayContain (E.fingerprint32 k) = true
  · rw [if_pos hbloom, SsTable.lookup]
    split_ifs with hkeep
    · obtain ⟨it, hit, hy⟩ := SsTableIterator.createAndSeekToKey_yields h k
      rcases hd.createAndSeekToKey k with ⟨what, hthrow⟩ | hsame
      · rw [hthrow]
        exact .inl ⟨what, rfl⟩
      · have hfound := found_of_yields h.sorted hy
        rw [hsame, hit]
        exact .inr (congrArg Except.ok hfound)
    · -- The key is not between the first and the last one.
      refine .inr (congrArg Except.ok (Eq.symm ?_))
      rw [Assoc.lookup_eq_none_iff]
      rintro e he rfl
      rw [← h.contents_eq] at he
      obtain ⟨h1, h2⟩ := h.good.key_mem_range he
      rw [LsmStorageInner.keepTable, hd.first_key, hd.last_key, hbloom] at hkeep
      simp [h1, h2] at hkeep
  · rw [if_neg hbloom, SsTable.lookup, if_neg]
    · exact .inr rfl
    · rw [LsmStorageInner.keepTable]
      simp [hbloom]

/-- The damage to a file is reported: the table does not open, or each lookup throws or gives what
it gave before. -/
def SsTable.Reported (E : Extern) (id : ℕ) (file file' : Bytes) : Prop :=
  Throws (SsTable.open E id file') ∨ ∃ t t', SsTable.open E id file = .ok t ∧
    SsTable.open E id file' = .ok t' ∧ ∀ k, Throws (t'.lookup E k) ∨ t'.lookup E k = t.lookup E k

theorem forall₂_take_flatten {E : Extern} {cs cs' : List Bytes} (h : List.Forall₂ (Damage E) cs cs')
    (i : ℕ) : (cs'.take i).flatten.length = (cs.take i).flatten.length := by
  induction h generalizing i with
  | nil => simp
  | cons hc _ ih =>
    rcases i with _ | i
    · rfl
    · simp only [List.take_succ_cons, List.flatten_cons, List.length_append, ih i, hc.length_eq]

/-- The sections of a damaged file are where they were. -/
theorem SsTableBuilder.Damaged.file {E : Extern} {b : SsTableBuilder}
    {bs : List (List (Bytes × Bytes))} {chunks blocks : List Bytes}
    {meta_section bloom_section file : Bytes}
    (hlay : Layout E (b.finishBlock E).data (b.finishBlock E).metas bs chunks)
    (hlen : (b.fileBytes E).length < 2^32) (hd : b.Damaged E blocks meta_section bloom_section)
    (hfile : file = fileOf blocks (b.finishBlock E).metas.length meta_section bloom_section)
    (id : ℕ) :
    (SsTable.open E id file = Bloom.decode bloom_section >>= fun bloom =>
        decodeBlockMeta E (putU32 (b.finishBlock E).metas.length ++ meta_section) >>=
          SsTable.ofMeta id file (b.finishBlock E).data.length bloom) ∧
      blocks.flatten.length = (b.finishBlock E).data.length ∧ blocks.flatten <+: file := by
  have hdata : blocks.flatten.length = (b.finishBlock E).data.length := by
    have := forall₂_take_flatten hd.blocks (max blocks.length (b.finishBlock E).blockSections.length)
    rw [List.take_of_length_le (le_max_left _ _), List.take_of_length_le (le_max_right _ _)] at this
    rw [this, hlay.blockSections_eq, hlay.data_eq]
  have hsame : file.length = (b.fileBytes E).length := by
    rw [hfile, ← SsTableBuilder.fileOf_sections hlay]
    simp only [fileOf, List.length_append, length_putU32, hdata, hd.metas.length_eq,
      hd.bloom.length_eq, hlay.blockSections_eq, hlay.data_eq]
  have hopen := SsTable.open_raw (E := E) rfl hfile (hsame ▸ hlen) id
  rw [hdata] at hopen
  refine ⟨hopen, hdata, ?_⟩
  rw [hfile, fileOf, List.append_assoc]
  exact List.prefix_append _ _

/-- A damaged block is refused, and the other ones are read as before. -/
theorem Layout.readBlock_damaged {E : Extern} {data : Bytes} {metas : List BlockMeta}
    {bs : List (List (Bytes × Bytes))} {chunks blocks : List Bytes}
    (hlay : Layout E data metas bs chunks) (hlt : data.length < 2^32)
    (hd : List.Forall₂ (Damage E) chunks blocks) {t t' : SsTable} (hmeta : t.block_meta = metas)
    (hmeta' : t'.block_meta = metas) (hoff : t.block_meta_offset = data.length)
    (hoff' : t'.block_meta_offset = data.length) (hfile : data <+: t.file)
    (hfile' : blocks.flatten <+: t'.file) (i : ℕ) :
    Throws (t'.readBlock E i) ∨ t'.readBlock E i = t.readBlock E i := by
  rcases lt_or_ge i bs.length with hi | hi
  · obtain ⟨c, m, hc, hm, hmo, -, -, flag, payload, b, hcb, -, -⟩ :=
      hlay.block i bs[i] (List.getElem?_eq_getElem hi)
    have hib : i < blocks.length := by
      rw [← hd.length_eq, hlay.length_chunks]
      exact hi
    obtain ⟨c', hc'⟩ : ∃ c', blocks[i]? = some c' := ⟨_, List.getElem?_eq_getElem hib⟩
    have hdam : Damage E c c' := by
      obtain ⟨hic, rfl⟩ := List.getElem?_eq_some_iff.mp hc
      obtain ⟨-, rfl⟩ := List.getElem?_eq_some_iff.mp hc'
      exact hd.get hic hib
    have htake := flatten_take_succ hc
    have hsplit := flatten_split hc
    rw [← hlay.data_eq] at hsplit
    have hsplit' := flatten_split hc'
    have hpre := forall₂_take_flatten hd i
    have hdlen := congrArg List.length hsplit
    simp only [List.length_append] at hdlen
    have hclen := hdam.length_eq
    have hend : ((metas[i + 1]?).map BlockMeta.offset).getD data.length = m.offset + c.length := by
      rw [hlay.offset_end hi, htake, List.length_append, hmo]
    -- The bytes of the block in either file.
    have hread : readFile t.file m.offset c.length = .ok c := by
      obtain ⟨rest, hrest⟩ := hfile
      rw [← hrest, hsplit, hmo, List.append_assoc, List.append_assoc]
      exact readFile_append _ c _ rfl rfl
    have hread' : readFile t'.file m.offset c'.length = .ok c' := by
      obtain ⟨rest, hrest⟩ := hfile'
      rw [← hrest, hsplit', hmo, ← hpre, List.append_assoc, List.append_assoc]
      exact readFile_append _ c' _ rfl rfl
    by_cases hsame : c' = c
    · subst hsame
      right
      rw [SsTable.readBlock_of_chunk (hmeta ▸ hm) (by rw [hmeta, hoff, hend]) (by omega) hread hcb,
        SsTable.readBlock_of_chunk (hmeta' ▸ hm) (by rw [hmeta', hoff', hend]) (by omega) hread' hcb]
    · left
      refine ⟨_, SsTable.readBlock_mismatch (hmeta' ▸ hm) (by rw [hmeta', hoff', hend, hclen])
        (by omega) ?_ hread' (hdam.mismatch hsame)⟩
      rw [hclen, hcb, List.length_append, length_putU32]
      omega
  · right
    have hnone : metas[i]? = none := List.getElem?_eq_none (by rw [hlay.length_metas]; exact hi)
    unfold SsTable.readBlock
    rw [hmeta, hmeta', hnone]

/-- A builder that holds entries lays them out in blocks when it is finished. -/
theorem SsTableBuilder.Holds.finished {E : Extern} {b : SsTableBuilder} {es : List (Bytes × Bytes)}
    (h : b.Holds E es) (hne : es ≠ []) : ∃ bs chunks,
      Layout E (b.finishBlock E).data (b.finishBlock E).metas bs chunks ∧ bs ≠ [] ∧
      ∀ bl ∈ bs, bl ≠ [] := by
  obtain ⟨⟨bs, cur, hbs, rfl, hcur⟩, -⟩ := h
  have hcne : cur ≠ [] := by
    rintro rfl
    obtain rfl := hcur rfl
    exact hne rfl
  obtain ⟨⟨-, -, -, -, ⟨chunks, hlay⟩, hbsne⟩, -⟩ := finishBlock_holdsBlocks hbs hcne
  exact ⟨_, chunks, hlay, by simp, hbsne⟩

/-- Where the block index is not damaged, the table opens, and it may only have lost blocks and keys
of its Bloom filter. -/
theorem SsTableBuilder.Damaged.degrades {E : Extern} {b : SsTableBuilder}
    {es : List (Bytes × Bytes)} (hb : b.Holds E es) (hs : Assoc.Sorted es) (hne : es ≠ [])
    (hlen : (b.fileBytes E).length < 2^32) {blocks : List Bytes} {bloom_section : Bytes}
    (hd : b.Damaged E blocks (metaSection E (b.finishBlock E).metas) bloom_section) (id : ℕ) :
    ∃ t t' bloom, SsTable.open E id (b.fileBytes E) = .ok t ∧ SsTable.open E id (fileOf blocks
        (b.finishBlock E).metas.length (metaSection E (b.finishBlock E).metas) bloom_section) =
        .ok t' ∧
      t.Holds E es ∧ t.Degrades E t' ∧ Bloom.decode bloom_section = .ok bloom ∧ t'.bloom = bloom := by
  obtain ⟨bs, chunks, hlay, hbsne, hblne⟩ := hb.finished hne
  have hsections : b.Damaged E (b.finishBlock E).blockSections
      (metaSection E (b.finishBlock E).metas) (((b.finishBlock E).bloom E).encode E) :=
    ⟨List.forall₂_same.mpr fun c _ => ⟨rfl, fun h => absurd rfl h⟩, ⟨rfl, fun h => absurd rfl h⟩,
      ⟨rfl, fun h => absurd rfl h⟩⟩
  obtain ⟨hopen, -, hpre⟩ := hsections.file hlay hlen (SsTableBuilder.fileOf_sections hlay).symm id
  obtain ⟨hopen', -, hpre'⟩ := hd.file hlay hlen rfl id
  obtain ⟨t, ht, hholds, -, -⟩ := SsTable.open_fileBytes hb hs hne id hlen
  obtain ⟨front, back, hfront, hback, -, -⟩ := hlay.bounds hbsne hblne
  have hdlt : (b.finishBlock E).data.length < 2^32 := by
    have := hpre.length_le
    rw [hlay.blockSections_eq, ← hlay.data_eq] at this
    omega
  have hmeta : decodeBlockMeta E (putU32 (b.finishBlock E).metas.length ++
      metaSection E (b.finishBlock E).metas) = .ok (b.finishBlock E).metas :=
    decodeBlockMeta_encode E (hlay.fits hdlt hblne) (hlay.length_le.trans_lt hdlt)
  have hbloom : ∀ raw : Bytes, raw.length = (((b.finishBlock E).bloom E).encode E).length →
      ∃ bloom, Bloom.decode raw = .ok bloom := by
    intro raw hraw
    have h5 : 5 ≤ raw.length := by
      rw [hraw, Bloom.encode]
      simp only [List.length_append, length_putU32, List.length_singleton]
      omega
    exact ⟨_, if_neg (by omega)⟩
  obtain ⟨bl, hbl⟩ := hbloom _ rfl
  obtain ⟨bl', hbl'⟩ := hbloom bloom_section hd.bloom.length_eq
  rw [hbl, ok_bind, hmeta, ok_bind, SsTable.ofMeta, hfront, hback] at hopen
  rw [hbl', ok_bind, hmeta, ok_bind, SsTable.ofMeta, hfront, hback] at hopen'
  rw [hopen] at ht
  cases ht
  have hblocks := hd.blocks
  rw [hlay.blockSections_eq] at hblocks
  rw [hlay.blockSections_eq, ← hlay.data_eq] at hpre
  exact ⟨_, _, bl', hopen, hopen', hholds, ⟨rfl, rfl, rfl, fun i =>
    hlay.readBlock_damaged hdlt hblocks rfl rfl rfl rfl hpre hpre' i⟩, hbl', rfl⟩

/-- Damage to a table file is reported, or does not change what is found in the table, if and only
if it is to the block index or leaves a Bloom filter that has every key of the table. -/
theorem SsTable.reported_iff (E : Extern) {block_size : ℕ} (hsize : block_size ≤ 65536)
    (compression : CompressionType) {calls : List BuilderCall} {es : List (Bytes × Bytes)}
    (hes : calls.filterMap BuilderCall.entry = es) (hne : es ≠ [])
    (hsorted : (es.map Prod.fst).Pairwise (· < ·)) (hst : ∀ e ∈ es, Storable e) {b : SsTableBuilder}
    (hb : calls.foldl (BuilderCall.apply E) (SsTableBuilder.create block_size compression) = b)
    (hlt : (b.fileBytes E).length < 2^32) {blocks : List Bytes} {meta_section bloom_section : Bytes}
    (hd : b.Damaged E blocks meta_section bloom_section) (id : ℕ) :
    Reported E id (b.fileBytes E)
        (fileOf blocks (b.finishBlock E).metas.length meta_section bloom_section) ↔
      meta_section ≠ metaSection E (b.finishBlock E).metas ∨
        ∀ e ∈ es, ∀ bloom, Bloom.decode bloom_section = .ok bloom →
          bloom.mayContain (E.fingerprint32 e.1) = true := by
  have hholds : b.Holds E es := by
    subst hes hb
    exact (SsTableBuilder.create_holds E hsize compression).calls hst
  have hs : Assoc.Sorted es := List.pairwise_map.mp hsorted
  by_cases hmeta : meta_section = metaSection E (b.finishBlock E).metas
  · subst hmeta
    obtain ⟨t, t', bloom, hopen, hopen', ht, hdeg, hbloom, hbl⟩ := hd.degrades hholds hs hne hlt id
    constructor
    · rintro (⟨what, hthrow⟩ | ⟨t₁, t₁', h₁, h₁', hlookup⟩)
      · rw [hopen'] at hthrow
        cases hthrow
      · right
        rw [hopen] at h₁
        rw [hopen'] at h₁'
        cases h₁
        cases h₁'
        intro e he bloom' hbloom'
        rw [hbloom] at hbloom'
        cases hbloom'
        by_contra hno
        -- The filter hides a key of the table, and no block is read.
        have hmiss : t'.lookup E e.1 = .ok none := by
          rw [SsTable.lookup, if_neg]
          rw [LsmStorageInner.keepTable, hbl]
          simp [hno]
        have hfound : t.lookup E e.1 = .ok (some e.2) := by
          rw [ht.lookup_eq, (Assoc.lookup_eq_some_iff hs).mpr he]
        rcases hlookup e.1 with ⟨what, hthrow⟩ | hsame
        · rw [hmiss] at hthrow
          cases hthrow
        · rw [hmiss, hfound] at hsame
          cases hsame
    · rintro (hno | hall)
      · exact absurd rfl hno
      · refine .inr ⟨t, t', hopen, hopen', fun k => (hdeg.lookup ht k).imp_right fun heq => ?_⟩
        rw [heq, ht.lookup_eq, hbl]
        split_ifs with hmay
        · rfl
        · -- A key that the filter does not have is not in the table.
          refine congrArg Except.ok (Eq.symm ?_)
          rw [Assoc.lookup_eq_none_iff]
          rintro e he rfl
          exact hmay (hall e he bloom hbloom)
  · refine iff_of_true (.inl ?_) (.inl hmeta)
    obtain ⟨bs, chunks, hlay, -, -⟩ := hholds.finished hne
    obtain ⟨hopen, -, -⟩ := hd.file hlay hlt rfl id
    have h5 : 5 ≤ bloom_section.length := by
      rw [hd.bloom.length_eq, Bloom.encode]
      simp only [List.length_append, length_putU32, List.length_singleton]
      omega
    have h4 : 4 ≤ meta_section.length := by
      rw [hd.metas.length_eq, metaSection]
      simp only [List.length_append, length_putU32]
      omega
    refine ⟨"meta checksum mismatched", ?_⟩
    rw [hopen, Bloom.decode, if_neg (by omega), ok_bind,
      decodeBlockMeta_mismatch h4 (hd.metas.mismatch hmeta)]
    rfl

/-- A table with the entry `a` ↦ `1`. -/
def oneEntry : SsTableBuilder :=
  [BuilderCall.add [97] [49]].foldl (BuilderCall.apply .lib) (SsTableBuilder.create 4096 .none)

/-- The value in the block is overwritten, and the checksum of the block is not: a lookup throws, or
finds nothing as before. -/
theorem SsTable.reported_block :
    Reported .lib 0 (oneEntry.fileBytes .lib)
      (fileOf [[0, 0, 0, 0, 1, 97, 0, 1, 50, 0, 0, 0, 1, 36, 84, 128, 225]]
        (oneEntry.finishBlock .lib).metas.length (metaSection .lib (oneEntry.finishBlock .lib).metas)
        (((oneEntry.finishBlock .lib).bloom .lib).encode .lib)) := by
  have hes : [BuilderCall.add [97] [49]].filterMap BuilderCall.entry = [([97], [49])] := rfl
  have hb : [BuilderCall.add [97] [49]].foldl (BuilderCall.apply .lib)
    (SsTableBuilder.create 4096 .none) = oneEntry := rfl
  refine (reported_iff .lib (by decide) .none hes (by decide) (by decide) (by decide) hb
    (by decide +kernel) ⟨?_, by decide +kernel, by decide +kernel⟩ 0).mpr (.inr ?_)
  · rw [show (oneEntry.finishBlock .lib).blockSections =
      [[0, 0, 0, 0, 1, 97, 0, 1, 49, 0, 0, 0, 1, 36, 84, 128, 225]] by decide +kernel]
    exact .cons (by decide +kernel) .nil
  · rintro e he bloom hbloom
    obtain rfl : e = ([97], [49]) := by simpa using he
    have hmay : (Bloom.decode (((oneEntry.finishBlock .lib).bloom .lib).encode .lib)).map
        (fun bloom => bloom.mayContain (Extern.lib.fingerprint32 [97])) = .ok true := by
      decide +kernel
    rw [hbloom] at hmay
    exact Except.ok.inj hmay

/-- The bits of the Bloom filter are overwritten with zeros, and its checksum is not: the file is
opened, and a lookup of `a` finds nothing and does not throw. -/
theorem SsTable.not_reported_bloom :
    oneEntry.Damaged .lib (oneEntry.finishBlock .lib).blockSections
        (metaSection .lib (oneEntry.finishBlock .lib).metas)
        [0, 0, 0, 0, 0, 0, 0, 0, 6, 8, 210, 51, 103] ∧
      ¬ Reported .lib 0 (oneEntry.fileBytes .lib)
        (fileOf (oneEntry.finishBlock .lib).blockSections (oneEntry.finishBlock .lib).metas.length
          (metaSection .lib (oneEntry.finishBlock .lib).metas)
          [0, 0, 0, 0, 0, 0, 0, 0, 6, 8, 210, 51, 103]) := by
  refine ⟨⟨List.forall₂_same.mpr fun c _ => ⟨rfl, fun h => absurd rfl h⟩,
    ⟨rfl, fun h => absurd rfl h⟩, by decide +kernel⟩, ?_⟩
  -- What a lookup of `a` gives in each of the two files.
  have hlookup : ∀ {file : Bytes} {t : SsTable} {r : Option Bytes},
      (SsTable.open .lib 0 file >>= fun t => t.lookup .lib [97]) = .ok r →
      SsTable.open .lib 0 file = .ok t → t.lookup .lib [97] = .ok r := by
    intro file t r h ht
    rwa [ht, ok_bind] at h
  have hfile : (SsTable.open .lib 0 (oneEntry.fileBytes .lib) >>= fun t => t.lookup .lib [97]) =
      .ok (some [49]) := by decide +kernel
  have hfile' : (SsTable.open .lib 0 (fileOf (oneEntry.finishBlock .lib).blockSections
      (oneEntry.finishBlock .lib).metas.length (metaSection .lib (oneEntry.finishBlock .lib).metas)
      [0, 0, 0, 0, 0, 0, 0, 0, 6, 8, 210, 51, 103]) >>= fun t => t.lookup .lib [97]) = .ok none := by
    decide +kernel
  rintro (⟨what, hthrow⟩ | ⟨t, t', ht, ht', hsame⟩)
  · rw [hthrow] at hfile'
    cases hfile'
  · have hfound := hlookup hfile ht
    have hmiss := hlookup hfile' ht'
    rcases hsame [97] with ⟨what, hthrow⟩ | heq
    · rw [hmiss] at hthrow
      cases hthrow
    · rw [hmiss, hfound] at heq
      cases heq

end MiniLsm
