import MiniLsm.Table

/-!
# Tables hold their entries

`SsTable.Holds E t es` says that the open table `t` holds the entries `es`: sorted, in non-empty
blocks that can be read, with the first and the last key in the table's fields and every key in its
Bloom filter. The builder's file opens to such a table (`open_fileBytes`). The iterator yields the
entries of such a table from the first one (`createAndSeekToFirst_yields`) or from a key on
(`createAndSeekToKey_yields`).
-/

namespace MiniLsm

open Cursor (Yields)

/-- The last key of a list of entries, or the empty key. -/
def lastKey (es : List (Bytes × Bytes)) : Bytes := (es.getLast?.map Prod.fst).getD []

/-- The blocks of the table store the entries of `blocks`. -/
structure SsTable.Stores (E : Extern) (t : SsTable) (blocks : List (List (Bytes × Bytes))) :
    Prop where
  length_meta : t.block_meta.length = blocks.length
  ne_nil : ∀ bl ∈ blocks, bl ≠ []
  block : ∀ (i : ℕ) bl, blocks[i]? = some bl → ∃ m b, t.block_meta[i]? = some m ∧
    m.first_key = firstKey bl ∧ t.readBlock E i = .ok b ∧ b.Holds bl

/-- The table holds the entries `es`. -/
structure SsTable.Holds (E : Extern) (t : SsTable) (es : List (Bytes × Bytes)) : Prop where
  sorted : Assoc.Sorted es
  ne_nil : es ≠ []
  first_key : t.first_key = firstKey es
  last_key : t.last_key = lastKey es
  bloom : ∀ e ∈ es, t.bloom.mayContain (E.fingerprint32 e.1) = true
  stores : ∃ blocks, blocks.flatten = es ∧ t.Stores E blocks

/-! ## The iterator -/

section Iterator

variable {E : Extern} {t : SsTable} {blocks : List (List (Bytes × Bytes))}

/-- The blocks that can be read count all entries. -/
theorem SsTable.Stores.numEntries_eq (h : t.Stores E blocks) :
    t.numEntries E = blocks.flatten.length := by
  rw [numEntries, numBlocks, h.length_meta, List.length_flatten]
  congr 1
  apply List.ext_getElem
  · simp
  · intro i h1 h2
    simp only [List.length_map] at h2
    rw [List.getElem_map, List.getElem_map, List.getElem_range]
    obtain ⟨m, b, -, -, hr, hb⟩ := h.block i _ (List.getElem?_eq_getElem h2)
    rw [hr]
    exact hb.length_offsets

/-- An iterator within a block yields the rest of the block and then what the iterator yields that
`next` leaves when the block ends. -/
theorem SsTableIterator.yields_append {i : ℕ} {rest : List (Bytes × Bytes)}
    (hend : ∀ blk blk' : BlockIterator, blk.next = .ok blk' → blk'.isValid = false →
      ∃ it', SsTableIterator.next (⟨some t, blk, i⟩ : SsTableIterator E) = .ok it' ∧
        Yields it' rest)
    {l : List (Bytes × Bytes)} (hne : l ≠ []) {blk : BlockIterator} (hl : Yields blk l)
    (hlen : (l ++ rest).length ≤ t.numEntries E) :
    Yields (⟨some t, blk, i⟩ : SsTableIterator E) (l ++ rest) := by
  induction l generalizing blk with
  | nil => exact absurd rfl hne
  | cons e l ih =>
    obtain ⟨hv, hk, hw, -, blk', hn, hy⟩ := hl.isValid_cons
    have hn' : blk.next = .ok blk' := hn
    have hlt : (l ++ rest).length < t.numEntries E := by simpa using hlen
    rcases l with _ | ⟨e', l⟩
    · obtain ⟨it', hit, hyr⟩ := hend blk blk' hn' hy.isValid_nil
      exact Yields.cons_of hv hk hw hit hlt hyr
    · have hv' : blk'.isValid = true := hy.isValid_cons.1
      have hit : SsTableIterator.next (⟨some t, blk, i⟩ : SsTableIterator E) =
          .ok ⟨some t, blk', i⟩ := by
        simp only [SsTableIterator.next, hn', bind, Except.bind, hv', if_true]
      exact Yields.cons_of hv hk hw hit hlt (ih (by simp) hy hlt.le)

/-- An iterator within block `i` yields the rest of the block and then the blocks after it. -/
theorem SsTableIterator.yields_of_block (h : t.Stores E blocks)
    {rest : List (List (Bytes × Bytes))} {i : ℕ} (hrest : blocks.drop (i + 1) = rest)
    {l : List (Bytes × Bytes)} (hne : l ≠ []) {blk : BlockIterator} (hl : Yields blk l)
    (hlen : (l ++ rest.flatten).length ≤ t.numEntries E) :
    Yields (⟨some t, blk, i⟩ : SsTableIterator E) (l ++ rest.flatten) := by
  induction rest generalizing l i blk with
  | nil =>
    have hlast : ¬ i + 1 < t.numBlocks := by
      rw [SsTable.numBlocks, h.length_meta, not_lt]
      exact List.drop_eq_nil_iff.mp hrest
    refine yields_append (fun blk blk' hn hinv => ?_) hne hl hlen
    refine ⟨⟨some t, blk', i + 1⟩, ?_, .nil hinv⟩
    simp [SsTableIterator.next, hn, hinv, hlast, bind, Except.bind]
  | cons bl rest ih =>
    have hget : blocks[i + 1]? = some bl := by
      rw [← List.head?_drop, hrest]
      rfl
    have hlt : i + 1 < t.numBlocks := by
      rw [SsTable.numBlocks, h.length_meta]
      exact (List.getElem?_eq_some_iff.mp hget).1
    obtain ⟨m, b, -, -, hread, hb⟩ := h.block (i + 1) bl hget
    obtain ⟨blk₁, hc, hy₁⟩ := BlockIterator.createAndSeekToFirst_yields hb
    refine yields_append (fun blk blk' hn hinv => ?_) hne hl hlen
    refine ⟨⟨some t, blk₁, i + 1⟩, ?_, ?_⟩
    · simp [SsTableIterator.next, hn, hinv, hlt, hread, hc, bind, Except.bind]
    · rw [List.flatten_cons]
      refine ih ?_ (h.ne_nil bl (List.mem_of_getElem? hget)) hy₁ ?_
      · rw [← List.drop_drop, hrest]
        rfl
      · rw [List.length_append, List.flatten_cons] at hlen
        omega

/-- `create_and_seek_to_first` yields the entries of the blocks. -/
theorem SsTable.Stores.createAndSeekToFirst_yields (hs : t.Stores E blocks) (hne : blocks ≠ []) :
    ∃ it, SsTableIterator.createAndSeekToFirst E t = .ok it ∧ Yields it blocks.flatten := by
  rcases blocks with _ | ⟨bl, rest⟩
  · exact absurd rfl hne
  obtain ⟨m, b, hm, -, hread, hb⟩ := hs.block 0 bl rfl
  obtain ⟨blk, hc, hy⟩ := BlockIterator.createAndSeekToFirst_yields hb
  have hn : t.numBlocks ≠ 0 := by
    rw [SsTable.numBlocks, hs.length_meta]
    simp
  refine ⟨⟨some t, blk, 0⟩, ?_, ?_⟩
  · simp only [SsTableIterator.createAndSeekToFirst, if_neg hn, hread, hc, bind, Except.bind]
  · have hlen := hs.numEntries_eq
    rw [List.flatten_cons] at hlen ⊢
    exact SsTableIterator.yields_of_block hs rfl (hs.ne_nil bl (by simp)) hy hlen.ge

/-- `create_and_seek_to_first` yields the entries of the table. -/
theorem SsTableIterator.createAndSeekToFirst_yields {es : List (Bytes × Bytes)}
    (h : t.Holds E es) : ∃ it, createAndSeekToFirst E t = .ok it ∧ Yields it es := by
  obtain ⟨blocks, rfl, hs⟩ := h.stores
  refine hs.createAndSeekToFirst_yields ?_
  rintro rfl
  exact h.ne_nil rfl

/-- The first key of a non-empty list of entries is the key of one of them. -/
theorem exists_firstKey_eq {es : List (Bytes × Bytes)} (h : es ≠ []) :
    ∃ e ∈ es, e.1 = firstKey es := by
  obtain ⟨e, es, rfl⟩ := List.exists_cons_of_ne_nil h
  exact ⟨e, by simp, rfl⟩

/-- The first key of sorted entries is not above any of them. -/
theorem firstKey_le {es : List (Bytes × Bytes)} (hs : Assoc.Sorted es) {e : Bytes × Bytes}
    (he : e ∈ es) : firstKey es ≤ e.1 := by
  rcases es with _ | ⟨e₀, es⟩
  · simp at he
  · rw [Assoc.Sorted, List.pairwise_cons] at hs
    rcases List.mem_cons.mp he with rfl | he
    · exact le_rfl
    · exact (hs.1 e he).le

/-- In a list of sorted pieces, the last piece whose first key is not above the key, or the first
piece, is where the entries from the key on start. -/
theorem exists_piece_of_key {pieces : List (List (Bytes × Bytes))} (hne : pieces ≠ [])
    (hpieces : ∀ bl ∈ pieces, bl ≠ []) (hsort : Assoc.Sorted pieces.flatten) (key : Bytes) :
    ∃ pre bl post, pieces = pre ++ bl :: post ∧
      (pieces.takeWhile fun bl => !decide (key < firstKey bl)).length - 1 = pre.length ∧
      (∀ e ∈ pre.flatten, e.1 < key) ∧ ∀ e ∈ post.flatten, key ≤ e.1 := by
  have hfirst : ∀ bl ∈ pieces, ∃ e ∈ bl, e.1 = firstKey bl :=
    fun bl hbl => exists_firstKey_eq (hpieces bl hbl)
  -- The pieces up to the first one that starts above the key, and the others.
  have hsplit := List.takeWhile_append_dropWhile (p := fun bl => !decide (key < firstKey bl))
    (l := pieces)
  generalize hA : (pieces.takeWhile fun bl => !decide (key < firstKey bl)) = A at hsplit ⊢
  generalize hB : (pieces.dropWhile fun bl => !decide (key < firstKey bl)) = B at hsplit
  have hAle : ∀ bl ∈ A, firstKey bl ≤ key := fun bl hbl => by
    have := List.mem_takeWhile_imp (hA ▸ hbl)
    simpa using this
  have hsort' := hsort
  rw [← hsplit, List.flatten_append, Assoc.Sorted, List.pairwise_append] at hsort'
  have hBge : ∀ e ∈ B.flatten, key ≤ e.1 := by
    rcases B with _ | ⟨bl, B⟩
    · simp
    · have hlt : key < firstKey bl := by
        have := List.head_dropWhile_not (p := fun bl => !decide (key < firstKey bl)) (l := pieces)
          (by rw [hB]; simp)
        simpa [hB] using this
      intro e he
      have hbl : bl ≠ [] := hpieces bl (by rw [← hsplit]; simp)
      obtain ⟨e₀, bl, rfl⟩ := List.exists_cons_of_ne_nil hbl
      exact (hlt.trans_le (firstKey_le hsort'.2.1 he)).le
  rcases List.eq_nil_or_concat' A with rfl | ⟨A, bl, rfl⟩
  · -- Every piece starts above the key: the first piece it is.
    obtain ⟨bl, post, rfl⟩ := List.exists_cons_of_ne_nil hne
    obtain rfl : B = bl :: post := by simpa using hsplit
    exact ⟨[], bl, post, rfl, rfl, by simp, fun e he => hBge e (by simp [he])⟩
  · refine ⟨A, bl, B, by rw [← hsplit]; simp, by simp, ?_, hBge⟩
    intro e he
    obtain ⟨e₀, he₀, hfk⟩ := hfirst bl (by rw [← hsplit]; simp)
    have hsA := hsort'.1
    rw [List.flatten_append, List.pairwise_append] at hsA
    have hlt : e.1 < e₀.1 := hsA.2.2 e he e₀ (by simpa using he₀)
    exact hlt.trans_le (hfk ▸ hAle bl (by simp))

/-- `find_block_idx` finds the block where the entries from the key on start. -/
theorem SsTable.Stores.findBlockIdx_spec (h : t.Stores E blocks) (hne : blocks ≠ [])
    (hsort : Assoc.Sorted blocks.flatten) (key : Bytes) :
    ∃ pre bl post, blocks = pre ++ bl :: post ∧ t.findBlockIdx key = pre.length ∧
      (∀ e ∈ pre.flatten, e.1 < key) ∧ ∀ e ∈ post.flatten, key ≤ e.1 := by
  -- The block index lists the first keys of the blocks.
  have hmeta : t.block_meta.map BlockMeta.first_key = blocks.map firstKey := by
    apply List.ext_getElem?
    intro i
    rw [List.getElem?_map, List.getElem?_map]
    rcases hb : blocks[i]? with _ | bl
    · have : t.block_meta[i]? = none := by
        rw [List.getElem?_eq_none_iff, h.length_meta]
        exact List.getElem?_eq_none_iff.mp hb
      rw [this]
      rfl
    · obtain ⟨m, b, hm, hfk, -⟩ := h.block i bl hb
      rw [hm, Option.map_some, Option.map_some, hfk]
  have hcount : (t.block_meta.takeWhile fun m => !decide (key < m.first_key)).length =
      (blocks.takeWhile fun bl => !decide (key < firstKey bl)).length := by
    have := congrArg (fun l => (l.takeWhile fun k => !decide (key < k)).length) hmeta
    simpa [List.takeWhile_map, Function.comp_def] using this
  obtain ⟨pre, bl, post, heq, hlen, hpre, hpost⟩ := exists_piece_of_key hne h.ne_nil hsort key
  refine ⟨pre, bl, post, heq, ?_, hpre, hpost⟩
  rw [findBlockIdx, hcount, ← hlen]
  split_ifs with h0
  · rfl
  · omega

/-- `create_and_seek_to_key` yields the entries of the table from the key on. -/
theorem SsTableIterator.createAndSeekToKey_yields {es : List (Bytes × Bytes)}
    (h : t.Holds E es) (key : Bytes) :
    ∃ it, createAndSeekToKey E t key = .ok it ∧ Yields it (Assoc.seek key es) := by
  obtain ⟨blocks, rfl, hs⟩ := h.stores
  have hne : blocks ≠ [] := by
    rintro rfl
    exact h.ne_nil rfl
  -- The block is the last one whose first key is not behind the key: those before it have only
  -- smaller keys.
  obtain ⟨pre, bl, post, rfl, hidx, hpre, hpost⟩ := hs.findBlockIdx_spec hne h.sorted key
  have hn : t.numBlocks ≠ 0 := by
    rw [SsTable.numBlocks, hs.length_meta]
    simp
  obtain ⟨m, b, -, -, hread, hb⟩ := hs.block pre.length bl (by simp)
  have hsort : Assoc.Sorted bl := by
    have := h.sorted
    rw [List.flatten_append, List.flatten_cons, Assoc.Sorted, List.pairwise_append,
      List.pairwise_append] at this
    exact this.2.1.1
  have hlen := hs.numEntries_eq
  have hseek : Assoc.seek key (pre ++ bl :: post).flatten = Assoc.seek key bl ++ post.flatten := by
    rw [List.flatten_append, List.flatten_cons, Assoc.seek_append_of_lt hpre,
      Assoc.seek_append_of_le _ hpost]
  rw [List.flatten_append, List.flatten_cons, List.length_append, List.length_append] at hlen
  have hdrop : (pre ++ bl :: post).drop (pre.length + 1) = post := by
    rw [← List.drop_drop, List.drop_left]
    rfl
  obtain ⟨blk, hc, hy⟩ := BlockIterator.createAndSeekToKey_yields hb hsort key
  rw [hseek]
  simp only [createAndSeekToKey, if_neg hn, hidx, hread, hc, bind, Except.bind]
  by_cases hnil : Assoc.seek key bl = []
  · -- Nothing in the block is at or after the key: the next block starts there, if there is one.
    rw [hnil] at hy ⊢
    have hinv : blk.isValid = false := hy.isValid_nil
    rw [List.nil_append, hinv]
    rcases post with _ | ⟨bl', post⟩
    · have hlast : ¬ pre.length + 1 < t.numBlocks := by
        rw [SsTable.numBlocks, hs.length_meta]
        simp
      rw [if_neg hlast]
      exact ⟨_, rfl, .nil hinv⟩
    · have hlt : pre.length + 1 < t.numBlocks := by
        rw [SsTable.numBlocks, hs.length_meta]
        simp
      have hget : (pre ++ bl :: bl' :: post)[pre.length + 1]? = some bl' := by
        rw [← List.head?_drop, hdrop]
        rfl
      obtain ⟨m', b', -, -, hread', hb'⟩ := hs.block (pre.length + 1) bl' hget
      obtain ⟨blk', hc', hy'⟩ := BlockIterator.createAndSeekToFirst_yields hb'
      refine ⟨⟨some t, blk', pre.length + 1⟩, ?_, ?_⟩
      · simp only [if_pos hlt, hread', hc', Bool.false_eq_true, if_false]
      · rw [List.flatten_cons] at hlen ⊢
        refine yields_of_block hs ?_ (hs.ne_nil bl' (by simp)) hy' ?_
        · rw [← List.drop_drop, hdrop]
          rfl
        · rw [List.length_append] at hlen ⊢
          omega
  · have hv : blk.isValid = true := by
      obtain ⟨e, l, hel⟩ := List.exists_cons_of_ne_nil hnil
      rw [hel] at hy
      exact hy.isValid_cons.1
    refine ⟨⟨some t, blk, pre.length⟩, by rw [hv]; rfl, yields_of_block hs hdrop hnil hy ?_⟩
    have hle : (Assoc.seek key bl).length ≤ bl.length := (List.dropWhile_sublist _).length_le
    rw [List.length_append]
    omega

end Iterator

/-! ## The builder -/

/-- The bytes of a block in the file: a flag and a payload that decode to the block, and their
checksum. -/
def Chunk (E : Extern) (c : Bytes) (bl : List (Bytes × Bytes)) : Prop :=
  ∃ flag payload b, c = (flag :: payload) ++ putU32 (crc32Hash E (flag :: payload)) ∧
    decodePayload E flag payload = .ok b ∧ b.Holds bl

/-- The data section and the block index lay out the blocks `bs`, whose bytes are `chunks`. -/
structure Layout (E : Extern) (data : Bytes) (metas : List BlockMeta)
    (bs : List (List (Bytes × Bytes))) (chunks : List Bytes) : Prop where
  length_chunks : chunks.length = bs.length
  length_metas : metas.length = bs.length
  data_eq : data = chunks.flatten
  block : ∀ (i : ℕ) bl, bs[i]? = some bl → ∃ c m, chunks[i]? = some c ∧ metas[i]? = some m ∧
    m.offset = (chunks.take i).flatten.length ∧ m.first_key = firstKey bl ∧
    m.last_key = lastKey bl ∧ Chunk E c bl

/-- A new block goes behind those laid out before it. -/
theorem Layout.append {E : Extern} {data : Bytes} {metas : List BlockMeta}
    {bs : List (List (Bytes × Bytes))} {chunks : List Bytes} (h : Layout E data metas bs chunks)
    {c : Bytes} {bl : List (Bytes × Bytes)} (hc : Chunk E c bl) :
    Layout E (data ++ c) (metas ++ [⟨data.length, firstKey bl, lastKey bl⟩]) (bs ++ [bl])
      (chunks ++ [c]) := by
  have hlc := h.length_chunks
  have hlm := h.length_metas
  refine ⟨by simp [hlc], by simp [hlm], by simp [h.data_eq], ?_⟩
  intro i bl' hbl'
  rcases lt_or_ge i bs.length with hi | hi
  · rw [List.getElem?_append_left hi] at hbl'
    obtain ⟨c', m, h1, h2, h3, h4⟩ := h.block i bl' hbl'
    refine ⟨c', m, ?_, ?_, ?_, h4⟩
    · rw [List.getElem?_append_left (by omega), h1]
    · rw [List.getElem?_append_left (by omega), h2]
    · rw [h3, List.take_append_of_le_length (by omega)]
  · rw [List.getElem?_append_right hi, List.getElem?_singleton] at hbl'
    split_ifs at hbl' with hi0
    cases hbl'
    obtain rfl : i = bs.length := by omega
    refine ⟨c, ⟨data.length, firstKey bl, lastKey bl⟩, ?_, ?_, ?_, rfl, rfl, hc⟩
    · rw [← hlc, List.getElem?_concat_length]
    · rw [← hlm, List.getElem?_concat_length]
    · simp only [← hlc, List.take_left, h.data_eq]

/-- The builder has finished the blocks `bs` and has the entries `cur` in its current block. -/
structure SsTableBuilder.HoldsBlocks (E : Extern) (b : SsTableBuilder)
    (bs : List (List (Bytes × Bytes))) (cur : List (Bytes × Bytes)) : Prop where
  builder : b.builder.Holds cur
  block_size : b.block_size ≤ 65536
  first_key : b.first_key = firstKey cur
  last_key : b.last_key = lastKey cur
  layout : ∃ chunks, Layout E b.data b.metas bs chunks
  ne_nil : ∀ bl ∈ bs, bl ≠ []

/-- The builder holds the entries `es`: they are in its blocks, and their hashes are recorded. -/
def SsTableBuilder.Holds (E : Extern) (b : SsTableBuilder) (es : List (Bytes × Bytes)) : Prop :=
  (∃ bs cur, b.HoldsBlocks E bs cur ∧ bs.flatten ++ cur = es ∧ (cur = [] → bs = [])) ∧
    b.key_hashes = es.map fun e => E.fingerprint32 e.1

namespace SsTableBuilder

variable {E : Extern} {b : SsTableBuilder} {bs : List (List (Bytes × Bytes))}
  {cur : List (Bytes × Bytes)}

/-- A new builder holds nothing. -/
theorem create_holds (E : Extern) {block_size : ℕ} (h : block_size ≤ 65536)
    (compression : CompressionType) : (create block_size compression).Holds E [] :=
  ⟨⟨[], [], ⟨BlockBuilder.create_holds h, h, rfl, rfl, ⟨[], rfl, rfl, rfl, by simp⟩, by simp⟩, rfl,
    fun _ => rfl⟩, rfl⟩

/-- The flag and the payload that are written for a block read back as the block. -/
theorem decodePayload_encodePayload (E : Extern) (compression : CompressionType) {blk : Block}
    (hd : Block.decode blk.encode = .ok blk) :
    decodePayload E (encodePayload E compression blk.encode).1
      (encodePayload E compression blk.encode).2 = .ok blk := by
  rcases compression with _ | _
  · simpa [encodePayload, decodePayload] using hd
  · rcases hs : E.snappy with _ | snappy
    · simpa [encodePayload, decodePayload, hs] using hd
    · simpa [encodePayload, decodePayload, hs, snappy.uncompress_compress] using hd

/-- `finish_block` moves the current block to the finished ones. -/
theorem finishBlock_holdsBlocks (h : b.HoldsBlocks E bs cur) (hne : cur ≠ []) :
    (finishBlock E b).HoldsBlocks E (bs ++ [cur]) [] ∧
      (finishBlock E b).key_hashes = b.key_hashes := by
  have hemp : b.builder.isEmpty = false := by
    rw [Bool.eq_false_iff, ne_eq, h.builder.isEmpty_iff]
    exact hne
  obtain ⟨chunks, hlay⟩ := h.layout
  have hdec : Block.decode b.builder.build.encode = .ok b.builder.build :=
    Block.decode_encode h.builder.offsets_lt (by
      have := h.builder.length_le
      simp only [BlockBuilder.build]
      omega)
  have hpay := decodePayload_encodePayload E b.compression hdec
  simp only [finishBlock, hemp, Bool.false_eq_true, if_false]
  generalize encodePayload E b.compression b.builder.build.encode = fp at hpay ⊢
  obtain ⟨flag, payload⟩ := fp
  have hchunk : Chunk E ((flag :: payload) ++ putU32 (crc32Hash E (flag :: payload))) cur :=
    ⟨flag, payload, _, rfl, hpay, h.builder.block⟩
  refine ⟨⟨BlockBuilder.create_holds h.block_size, h.block_size, rfl, rfl, ?_, ?_⟩, trivial⟩
  · have := hlay.append hchunk
    rw [← h.first_key, ← h.last_key] at this
    exact ⟨_, this⟩
  · intro bl hbl
    rcases List.mem_append.mp hbl with hbl | hbl
    · exact h.ne_nil bl hbl
    · obtain rfl : bl = cur := by simpa using hbl
      exact hne

theorem lastKey_concat (es : List (Bytes × Bytes)) (e : Bytes × Bytes) :
    lastKey (es ++ [e]) = e.1 := by
  simp [lastKey]

/-- An entry that the current block accepts goes behind its entries. -/
theorem holdsBlocks_of_add {builder : BlockBuilder} (h : b.HoldsBlocks E bs cur) {key value : Bytes}
    (hs : Storable (key, truncate value)) (ha : b.builder.add key value = some builder)
    {hashes : List UInt32} {fk : Bytes} (hfk : fk = firstKey (cur ++ [(key, truncate value)])) :
    HoldsBlocks E { b with builder := builder, key_hashes := hashes, first_key := fk, last_key := key }
      bs (cur ++ [(key, truncate value)]) :=
  ⟨(BlockBuilder.add_holds_truncate h.builder hs ha).1, h.block_size, hfk,
    (lastKey_concat cur (key, truncate value)).symm, h.layout, h.ne_nil⟩

/-- An added entry is held behind those added before it, with its value truncated. -/
theorem add_holds_truncate {es : List (Bytes × Bytes)} (h : b.Holds E es) {key value : Bytes}
    (hs : Storable (key, truncate value)) :
    (add E b key value).Holds E (es ++ [(key, truncate value)]) := by
  obtain ⟨⟨bs, cur, hb, rfl, hcur⟩, hkh⟩ := h
  have hfk : (if b.first_key.isEmpty then key else b.first_key) =
      firstKey (cur ++ [(key, truncate value)]) := by
    rcases cur with _ | ⟨e, cur⟩
    · rw [hb.first_key]
      rfl
    · rw [hb.first_key, if_neg]
      · rfl
      · simpa [firstKey] using (hb.builder.block.storable e (by simp)).1
  simp only [add]
  rcases ha : b.builder.add key value with _ | builder
  · -- The current block is full: it is finished, and the entry starts a new one.
    have hne : cur ≠ [] := by
      rintro rfl
      obtain ⟨b', hb'⟩ := BlockBuilder.add_of_isEmpty (hb.builder.isEmpty_iff.mpr rfl) key value
      rw [ha] at hb'
      cases hb'
    have hfk₁ : (if b.first_key.isEmpty then key else b.first_key) = firstKey cur := by
      rw [hfk, firstKey_append hne]
    have hb₁ : HoldsBlocks E { b with
        first_key := if b.first_key.isEmpty then key else b.first_key
        key_hashes := b.key_hashes ++ [E.fingerprint32 key] } bs cur :=
      ⟨hb.builder, hb.block_size, hfk₁, hb.last_key, hb.layout, hb.ne_nil⟩
    obtain ⟨hb₂, hkh₂⟩ := finishBlock_holdsBlocks hb₁ hne
    obtain ⟨builder, hadd⟩ :=
      BlockBuilder.add_of_isEmpty (hb₂.builder.isEmpty_iff.mpr rfl) key value
    rw [hadd, Option.getD_some]
    refine ⟨⟨bs ++ [cur], [(key, truncate value)], holdsBlocks_of_add hb₂ hs hadd rfl, by simp, by simp⟩, ?_⟩
    refine hkh₂.trans ?_
    simp [hkh]
  · refine ⟨⟨bs, cur ++ [(key, truncate value)], holdsBlocks_of_add hb hs ha hfk, by simp, by simp⟩, ?_⟩
    simp [hkh]

/-- An added entry is held behind those added before it. -/
theorem add_holds {es : List (Bytes × Bytes)} (h : b.Holds E es) {key value : Bytes}
    (hs : Storable (key, value)) : (add E b key value).Holds E (es ++ [(key, value)]) := by
  have htr : truncate value = value := truncate_eq hs.2.2
  have hholds := add_holds_truncate h (by rwa [htr] : Storable (key, truncate value))
  rwa [htr] at hholds

end SsTableBuilder

/-! ## The file -/

/-- A subtraction that does not go below zero does not wrap around. -/
theorem wrapSub_eq {w a b : ℕ} (hb : b ≤ a) (ha : a < 2^w) : wrapSub w a b = a - b := by
  rw [wrapSub, Nat.mod_eq_of_lt (hb.trans_lt ha), show a + 2^w - b = (a - b) + 2^w by omega,
    Nat.add_mod_right, Nat.mod_eq_of_lt (by omega)]

/-- A part of a file is read from where it stands. -/
theorem readFile_append (pre mid post : Bytes) {pos len : ℕ} (hpos : pos = pre.length)
    (hlen : len = mid.length) : readFile (pre ++ (mid ++ post)) pos len = .ok mid := by
  subst hpos hlen
  rw [readFile, if_pos (by simp), List.drop_left, List.take_left]

/-- An entry of the block index that its fields can store. -/
def BlockMeta.Fits (m : BlockMeta) : Prop :=
  m.offset < 2^32 ∧ m.first_key.length < 65536 ∧ m.last_key.length < 65536

theorem BlockMeta.length_encode (m : BlockMeta) :
    m.encode.length = 8 + m.first_key.length + m.last_key.length := by
  simp only [encode, List.length_append, length_putU32, length_putU16]
  omega

/-- The fields of an entry of the block index read back from where they were written. -/
theorem BlockMeta.Fits.reads {m : BlockMeta} (h : m.Fits) (pre rest : Bytes) {pos : ℕ}
    (hpos : pos = pre.length) :
    readU32 (pre ++ (m.encode ++ rest)) pos = .ok m.offset ∧
      readU16 (pre ++ (m.encode ++ rest)) (pos + 4) = .ok m.first_key.length ∧
      slice (pre ++ (m.encode ++ rest)) (pos + 6) m.first_key.length = .ok m.first_key ∧
      readU16 (pre ++ (m.encode ++ rest)) (pos + 6 + m.first_key.length) = .ok m.last_key.length ∧
      slice (pre ++ (m.encode ++ rest)) (pos + 6 + m.first_key.length + 2) m.last_key.length =
        .ok m.last_key := by
  obtain ⟨ho, hf, hl⟩ := h
  have r1 := readU32_append m.offset pre (putU16 m.first_key.length ++ (m.first_key ++
    (putU16 m.last_key.length ++ m.last_key)) ++ rest) hpos ho
  have r2 := readU16_append m.first_key.length (pre ++ putU32 m.offset) (m.first_key ++
    (putU16 m.last_key.length ++ m.last_key) ++ rest)
    (show pos + 4 = (pre ++ putU32 m.offset).length by simp [hpos]) hf
  have s1 := slice_append (pre ++ putU32 m.offset ++ putU16 m.first_key.length) m.first_key
    (putU16 m.last_key.length ++ m.last_key ++ rest)
    (show pos + 6 = (pre ++ putU32 m.offset ++ putU16 m.first_key.length).length by
      simp [hpos]) rfl
  have r3 := readU16_append m.last_key.length
    (pre ++ putU32 m.offset ++ putU16 m.first_key.length ++ m.first_key) (m.last_key ++ rest)
    (show pos + 6 + m.first_key.length = _ by simp [hpos]; omega) hl
  have s2 := slice_append (pre ++ putU32 m.offset ++ putU16 m.first_key.length ++ m.first_key ++
    putU16 m.last_key.length) m.last_key rest
    (show pos + 6 + m.first_key.length + 2 = _ by simp [hpos]; omega) rfl
  refine ⟨?_, ?_, ?_, ?_, ?_⟩
  · simpa [BlockMeta.encode] using r1
  · simpa [BlockMeta.encode] using r2
  · simpa [BlockMeta.encode] using s1
  · simpa [BlockMeta.encode] using r3
  · simpa [BlockMeta.encode] using s2

/-- The entries of the block index read back from where they were written. -/
theorem readBlockMetas_append (metas : List BlockMeta) (h : ∀ m ∈ metas, m.Fits) (pre post : Bytes)
    {pos : ℕ} (hpos : pos = pre.length) :
    readBlockMetas (pre ++ ((metas.map BlockMeta.encode).flatten ++ post)) metas.length pos =
      .ok metas := by
  induction metas generalizing pre pos with
  | nil => rfl
  | cons m metas ih =>
    have hih := ih (fun m' hm' => h m' (by simp [hm'])) (pre ++ m.encode)
      (show pos + 6 + m.first_key.length + 2 + m.last_key.length = (pre ++ m.encode).length by
        rw [List.length_append, BlockMeta.length_encode]
        omega)
    generalize hrest : (metas.map BlockMeta.encode).flatten ++ post = rest at hih
    have hraw : pre ++ (((m :: metas).map BlockMeta.encode).flatten ++ post) =
        pre ++ (m.encode ++ rest) := by simp [← hrest]
    rw [hraw]
    rw [List.append_assoc] at hih
    obtain ⟨r1, r2, s1, r3, s2⟩ := (h m List.mem_cons_self).reads pre rest hpos
    simp only [List.length_cons, readBlockMetas, r1, r2, s1, r3, s2, hih, bind, Except.bind]

/-- `decode_block_meta` compares the checksums, and then it reads as many entries as the count says.
-/
theorem decodeBlockMeta_sections (E : Extern) {num sum : ℕ} (hnum : num < 2^32) (hsum : sum < 2^32)
    (body : Bytes) :
    decodeBlockMeta E (putU32 num ++ (body ++ putU32 sum)) =
      if sum ≠ crc32Hash E body then .error (.runtimeError "meta checksum mismatched")
      else readBlockMetas (putU32 num ++ (body ++ putU32 sum)) num 4 := by
  have hlen : (putU32 num ++ (body ++ putU32 sum)).length = body.length + 8 := by
    simp only [List.length_append, length_putU32]
    omega
  have r1 : readU32 (putU32 num ++ (body ++ putU32 sum)) 0 = .ok num :=
    readU32_append num [] _ rfl hnum
  have r2 : readU32 (putU32 num ++ (body ++ putU32 sum)) (body.length + 4) = .ok sum := by
    have := readU32_append sum (putU32 num ++ body) []
      (show body.length + 4 = _ by rw [List.length_append, length_putU32]; omega) hsum
    simpa using this
  have hbody : ((putU32 num ++ (body ++ putU32 sum)).drop 4).take body.length = body := by
    rw [← length_putU32 num, List.drop_left, List.take_left]
  rw [decodeBlockMeta, hlen, if_neg (by omega), r1, ok_bind,
    show body.length + 8 - 4 = body.length + 4 by omega, r2, ok_bind, Nat.add_sub_cancel]
  dsimp only
  rw [hbody]

/-- `decode_block_meta` finds the entries that `encode_block_meta` has written. -/
theorem decodeBlockMeta_eq (E : Extern) {metas : List BlockMeta} (hn : metas.length < 2^32) :
    decodeBlockMeta E (encodeBlockMeta E metas) =
      readBlockMetas (encodeBlockMeta E metas) metas.length 4 := by
  rw [encodeBlockMeta, decodeBlockMeta_sections E hn (crc32Hash_lt E _), if_neg (by simp)]

/-- `decode_block_meta` undoes `encode_block_meta` on an index that its fields can store. -/
theorem decodeBlockMeta_encode (E : Extern) {metas : List BlockMeta} (h : ∀ m ∈ metas, m.Fits)
    (hn : metas.length < 2^32) : decodeBlockMeta E (encodeBlockMeta E metas) = .ok metas := by
  rw [decodeBlockMeta_eq E hn, encodeBlockMeta]
  exact readBlockMetas_append metas h _ _ (by simp)

/-- A block is read from the bytes between its offset and the next one. -/
theorem SsTable.readBlock_of_chunk {E : Extern} {t : SsTable} {i : ℕ} {m : BlockMeta} {c : Bytes}
    (hm : t.block_meta[i]? = some m)
    (hend : ((t.block_meta[i + 1]?).map BlockMeta.offset).getD t.block_meta_offset =
      m.offset + c.length) (hlt : m.offset + c.length < 2^32)
    (hread : readFile t.file m.offset c.length = .ok c) {flag : UInt8} {payload : Bytes}
    (hc : c = (flag :: payload) ++ putU32 (crc32Hash E (flag :: payload))) :
    t.readBlock E i = decodePayload E flag payload := by
  have hclen : c.length = (flag :: payload).length + 4 := by
    rw [hc, List.length_append, length_putU32]
  have hsub : wrapSub 64 (m.offset + c.length) m.offset = c.length := by
    rw [wrapSub_eq (by omega) (by omega), Nat.add_sub_cancel_left]
  have hsub' : wrapSub 64 c.length 4 = (flag :: payload).length := by
    rw [wrapSub_eq (by omega) (by omega), hclen, Nat.add_sub_cancel]
  have hcrc : readU32 c (flag :: payload).length = .ok (crc32Hash E (flag :: payload)) := by
    have := readU32_append (crc32Hash E (flag :: payload)) (flag :: payload) [] rfl
      (crc32Hash_lt E _)
    rwa [List.append_nil, ← hc] at this
  have hbody : c.take (flag :: payload).length = flag :: payload := by
    rw [hc, List.take_left]
  unfold readBlock
  rw [hm]
  dsimp only
  rw [hend, hsub, hsub', hread]
  generalize hn : (flag :: payload).length = n at hcrc hbody
  simp only [bind, Except.bind]
  rw [hcrc]
  dsimp only
  rw [hbody, if_neg (not_not.mpr rfl)]

/-- The bytes of the blocks before a block, and its own. -/
theorem flatten_take_succ {cs : List Bytes} {i : ℕ} {c : Bytes} (h : cs[i]? = some c) :
    (cs.take (i + 1)).flatten = (cs.take i).flatten ++ c := by
  obtain ⟨hi, rfl⟩ := List.getElem?_eq_some_iff.mp h
  rw [List.take_succ_eq_append_getElem hi, List.flatten_append, List.flatten_singleton]

/-- A block stands between those before and behind it. -/
theorem flatten_split {cs : List Bytes} {i : ℕ} {c : Bytes} (h : cs[i]? = some c) :
    cs.flatten = (cs.take i).flatten ++ (c ++ (cs.drop (i + 1)).flatten) := by
  conv_lhs => rw [← List.take_append_drop (i + 1) cs]
  rw [List.flatten_append, flatten_take_succ h, List.append_assoc]

/-- The end of a block is the offset of the next one, or of the index. -/
theorem Layout.offset_end {E : Extern} {data : Bytes} {metas : List BlockMeta}
    {bs : List (List (Bytes × Bytes))} {chunks : List Bytes} (h : Layout E data metas bs chunks)
    {i : ℕ} (hi : i < bs.length) : ((metas[i + 1]?).map BlockMeta.offset).getD data.length =
      (chunks.take (i + 1)).flatten.length := by
  have hlc := h.length_chunks
  have hlm := h.length_metas
  rcases lt_or_ge (i + 1) bs.length with hi' | hi'
  · obtain ⟨-, m', -, hm', hoff', -⟩ := h.block (i + 1) bs[i + 1] (List.getElem?_eq_getElem hi')
    rw [hm', Option.map_some, Option.getD_some, hoff']
  · rw [List.getElem?_eq_none (by omega), Option.map_none, Option.getD_none, h.data_eq,
      List.take_of_length_le (by omega)]

/-- A block that the data section lays out is read from the file. -/
theorem SsTable.readBlock_of_layout {E : Extern} {t : SsTable} {data rest : Bytes}
    {bs : List (List (Bytes × Bytes))} {chunks : List Bytes}
    (hlay : Layout E data t.block_meta bs chunks) (hfile : t.file = data ++ rest)
    (hoff : t.block_meta_offset = data.length) (hlt : data.length < 2^32) {i : ℕ}
    {bl : List (Bytes × Bytes)} (hbl : bs[i]? = some bl) :
    ∃ m b, t.block_meta[i]? = some m ∧ m.first_key = firstKey bl ∧ t.readBlock E i = .ok b ∧
      b.Holds bl := by
  obtain ⟨c, m, hc, hm, hmo, hfk, -, flag, payload, b, hcb, hdec, hb⟩ := hlay.block i bl hbl
  -- The block's bytes stand between its offset and that of the next block, or the index.
  have hend := hlay.offset_end (List.getElem?_eq_some_iff.mp hbl).1
  rw [← hoff] at hend
  have htake := flatten_take_succ hc
  have hsplit := flatten_split hc
  rw [← hlay.data_eq] at hsplit
  have hdlen := congrArg List.length hsplit
  simp only [List.length_append] at hdlen
  refine ⟨m, b, hm, hfk, ?_, hb⟩
  rw [← hdec]
  refine readBlock_of_chunk hm ?_ ?_ ?_ hcb
  · rw [hend, htake, List.length_append, hmo]
  · rw [hmo]
    omega
  · rw [hfile, hsplit, hmo, List.append_assoc, List.append_assoc]
    exact readFile_append _ c _ rfl rfl

/-- The fields of a block index entry are wide enough for what the layout puts there. -/
theorem Layout.fits {E : Extern} {data : Bytes} {metas : List BlockMeta}
    {bs : List (List (Bytes × Bytes))} {chunks : List Bytes} (h : Layout E data metas bs chunks)
    (hlt : data.length < 2^32) (hne : ∀ bl ∈ bs, bl ≠ []) : ∀ m ∈ metas, m.Fits := by
  intro m hm
  obtain ⟨i, hi⟩ := List.mem_iff_getElem?.mp hm
  have hib : i < bs.length := by
    rw [← h.length_metas]
    exact (List.getElem?_eq_some_iff.mp hi).1
  obtain ⟨bl, hbl⟩ : ∃ bl, bs[i]? = some bl := ⟨_, List.getElem?_eq_getElem hib⟩
  obtain ⟨c, m', -, hm', hmo, hfk, hlk, flag, payload, b, -, -, hb⟩ := h.block i bl hbl
  rw [hi] at hm'
  cases hm'
  have hbl := hne bl (List.mem_of_getElem? hbl)
  refine ⟨?_, ?_, ?_⟩
  · have hle : (chunks.take i).flatten.length ≤ chunks.flatten.length := by
      conv_rhs => rw [← List.take_append_drop i chunks]
      rw [List.flatten_append, List.length_append]
      omega
    rw [hmo]
    rw [h.data_eq] at hlt
    omega
  · obtain ⟨e, he, hek⟩ := exists_firstKey_eq hbl
    have := (hb.storable e he).2.1
    rw [hfk, ← hek]
    omega
  · obtain ⟨es, e, hes⟩ := (List.eq_nil_or_concat' bl).resolve_left hbl
    have := (hb.storable e (by rw [hes]; simp)).2.1
    rw [hlk, hes, SsTableBuilder.lastKey_concat]
    omega

/-- The number of finished blocks is below the length of their bytes. -/
theorem Layout.length_le {E : Extern} {data : Bytes} {metas : List BlockMeta}
    {bs : List (List (Bytes × Bytes))} {chunks : List Bytes} (h : Layout E data metas bs chunks) :
    metas.length ≤ data.length := by
  have hpos : ∀ c ∈ chunks, 1 ≤ c.length := by
    intro c hc
    obtain ⟨i, hi⟩ := List.mem_iff_getElem?.mp hc
    have hib : i < bs.length := by
      rw [← h.length_chunks]
      exact (List.getElem?_eq_some_iff.mp hi).1
    obtain ⟨c', m, hc', -, -, -, -, flag, payload, b, hcb, -⟩ :=
      h.block i bs[i] (List.getElem?_eq_getElem hib)
    rw [hi] at hc'
    cases hc'
    rw [hcb]
    simp
  rw [h.length_metas, ← h.length_chunks, h.data_eq, List.length_flatten]
  calc chunks.length = (chunks.map List.length).length * 1 := by simp
    _ ≤ (chunks.map List.length).sum := List.card_nsmul_le_sum _ 1 (by simpa using hpos)

/-- The bounds of a layout: the first key of the first block, the last key of the last one. -/
theorem Layout.bounds {E : Extern} {data : Bytes} {metas : List BlockMeta}
    {bs : List (List (Bytes × Bytes))} {chunks : List Bytes} (h : Layout E data metas bs chunks)
    (hne : bs ≠ []) (hbs : ∀ bl ∈ bs, bl ≠ []) : ∃ front back, metas.head? = some front ∧
      metas.getLast? = some back ∧ front.first_key = firstKey bs.flatten ∧
      back.last_key = lastKey bs.flatten := by
  have hpos : 0 < bs.length := List.length_pos_iff.mpr hne
  obtain ⟨_, front, -, hm, -, hfk, -⟩ := h.block 0 bs[0] (List.getElem?_eq_getElem hpos)
  obtain ⟨_, back, -, hm', -, -, hlk, -⟩ :=
    h.block (bs.length - 1) bs[bs.length - 1] (List.getElem?_eq_getElem (by omega))
  refine ⟨front, back, ?_, ?_, ?_, ?_⟩
  · rw [List.head?_eq_getElem?, hm]
  · rw [List.getLast?_eq_getElem?, h.length_metas, hm']
  · rw [hfk]
    obtain ⟨bl, bs, rfl⟩ := List.exists_cons_of_ne_nil hne
    obtain ⟨e, bl, rfl⟩ := List.exists_cons_of_ne_nil (hbs bl (by simp))
    rfl
  · rw [hlk]
    obtain ⟨bs, bl, rfl⟩ := (List.eq_nil_or_concat' bs).resolve_left hne
    obtain ⟨es, e, rfl⟩ := (List.eq_nil_or_concat' bl).resolve_left (hbs bl (by simp))
    simp [lastKey]

/-- The end of `SsTable::open`, when the Bloom filter and the block index have been decoded. -/
def SsTable.ofMeta (id : ℕ) (file : Bytes) (block_meta_offset : ℕ) (bloom : Bloom)
    (block_meta : List BlockMeta) : Except Error SsTable :=
  match block_meta.head?, block_meta.getLast? with
  | some front, some back =>
    .ok ⟨id, file, front.first_key, back.last_key, block_meta, block_meta_offset, bloom⟩
  | _, _ => .error (.undefined "front() of an empty vector")

/-- `SsTable::open` finds the sections of a file: the data section, and what stands in the places of
the block index and of the Bloom filter. -/
theorem SsTable.open_raw {E : Extern} {data buf file raw_meta raw_bloom : Bytes}
    (hbuf : buf = data ++ (raw_meta ++ putU32 data.length))
    (hfile : file = buf ++ (raw_bloom ++ putU32 buf.length)) (hlt : file.length < 2^32) (id : ℕ) :
    SsTable.open E id file = Bloom.decode raw_bloom >>= fun bloom =>
      decodeBlockMeta E raw_meta >>= ofMeta id file data.length bloom := by
  have hflen : file.length = buf.length + raw_bloom.length + 4 := by
    rw [hfile, List.length_append, List.length_append, length_putU32]
    omega
  have hblen : buf.length = data.length + raw_meta.length + 4 := by
    rw [hbuf, List.length_append, List.length_append, length_putU32]
    omega
  have s1 : wrapSub 64 file.length 4 = (buf ++ raw_bloom).length := by
    rw [wrapSub_eq (by omega) (by omega), List.length_append]
    omega
  have s2 : wrapSub 64 (buf ++ raw_bloom).length buf.length = raw_bloom.length := by
    rw [List.length_append, wrapSub_eq (by omega) (by omega), Nat.add_sub_cancel_left]
  have s3 : wrapSub 32 buf.length 4 = (data ++ raw_meta).length := by
    rw [wrapSub_eq (by omega) (by omega), List.length_append]
    omega
  have s4 : wrapSub 32 (data ++ raw_meta).length data.length =
      raw_meta.length := by
    rw [List.length_append, wrapSub_eq (by omega) (by omega), Nat.add_sub_cancel_left]
  -- The four reads of the file, from its end towards its front.
  have f1 : readFile file (buf ++ raw_bloom).length 4 = .ok (putU32 buf.length) := by
    have := readFile_append (buf ++ raw_bloom) (putU32 buf.length) [] rfl
      (length_putU32 buf.length).symm
    rwa [List.append_nil, List.append_assoc, ← hfile] at this
  have f2 : readFile file buf.length raw_bloom.length = .ok raw_bloom := by
    rw [hfile]
    exact readFile_append _ _ _ rfl rfl
  have f3 : readFile file (data ++ raw_meta).length 4 =
      .ok (putU32 data.length) := by
    have := readFile_append (data ++ raw_meta) (putU32 data.length)
      (raw_bloom ++ putU32 buf.length) rfl (length_putU32 data.length).symm
    have hassoc : data ++ raw_meta ++ (putU32 data.length ++
        (raw_bloom ++ putU32 buf.length)) = file := by
      rw [hfile, hbuf]
      simp only [List.append_assoc]
    rwa [hassoc] at this
  have f4 : readFile file data.length raw_meta.length =
      .ok raw_meta := by
    have := readFile_append data raw_meta
      (putU32 data.length ++ (raw_bloom ++ putU32 buf.length)) rfl rfl
    have hassoc : data ++ (raw_meta ++ (putU32 data.length ++
        (raw_bloom ++ putU32 buf.length))) = file := by
      rw [hfile, hbuf]
      simp only [List.append_assoc]
    rwa [hassoc] at this
  have u1 : readU32 (putU32 buf.length) 0 = .ok buf.length := by
    rw [← List.append_nil (putU32 buf.length)]
    exact readU32_append buf.length [] [] rfl (by omega)
  have u2 : readU32 (putU32 data.length) 0 = .ok data.length := by
    rw [← List.append_nil (putU32 data.length)]
    exact readU32_append data.length [] [] rfl (by omega)
  unfold SsTable.open
  dsimp only
  rw [s1, f1, ok_bind, u1, ok_bind, s2, f2, ok_bind]
  refine congrArg (Bloom.decode raw_bloom >>= ·) (funext fun bloom => ?_)
  rw [s3, f3, ok_bind, u2, ok_bind, s4, f4, ok_bind]
  rfl

/-- `SsTable::open` finds the sections of a file of data blocks, block index, and Bloom filter. -/
theorem SsTable.open_sections {E : Extern} {data buf file : Bytes} {metas : List BlockMeta}
    {bloom : Bloom} (hbuf : buf = data ++ (encodeBlockMeta E metas ++ putU32 data.length))
    (hfile : file = buf ++ (bloom.encode E ++ putU32 buf.length)) (hlt : file.length < 2^32)
    (hk : bloom.k < 256) (id : ℕ) : SsTable.open E id file =
      decodeBlockMeta E (encodeBlockMeta E metas) >>= ofMeta id file data.length bloom := by
  rw [open_raw hbuf hfile hlt, Bloom.decode_encode E hk, ok_bind]

/-- `SsTable::open` on a file of data blocks, block index, and Bloom filter. -/
theorem SsTable.open_parts {E : Extern} {data buf file : Bytes} {metas : List BlockMeta}
    {bloom : Bloom} (hbuf : buf = data ++ (encodeBlockMeta E metas ++ putU32 data.length))
    (hfile : file = buf ++ (bloom.encode E ++ putU32 buf.length)) (hlt : file.length < 2^32)
    (hfits : ∀ m ∈ metas, m.Fits) (hn : metas.length < 2^32) (hk : bloom.k < 256)
    {front back : BlockMeta} (hfront : metas.head? = some front)
    (hback : metas.getLast? = some back) (id : ℕ) : SsTable.open E id file =
      .ok ⟨id, file, front.first_key, back.last_key, metas, data.length, bloom⟩ := by
  rw [open_sections hbuf hfile hlt hk, decodeBlockMeta_encode E hfits hn, ok_bind, ofMeta, hfront,
    hback]

/-- What `SsTableBuilder::build` writes opens to a table with the block index and the Bloom filter of
the builder, and begins with its blocks. -/
theorem SsTable.open_of_metas {E : Extern} {b b' : SsTableBuilder} (hb : b.finishBlock E = b')
    (hfits : ∀ m ∈ b'.metas, m.Fits) (hn : b'.metas.length < 2^32) {front back : BlockMeta}
    (hfront : b'.metas.head? = some front) (hback : b'.metas.getLast? = some back) (id : ℕ)
    (hlt : (b.fileBytes E).length < 2^32) :
    SsTable.open E id (b.fileBytes E) = .ok ⟨id, b.fileBytes E, front.first_key, back.last_key,
      b'.metas, b'.data.length,
      Bloom.buildFromKeyHashes E b'.key_hashes (E.bloomBitsPerKey b'.key_hashes.length)⟩ ∧
    ∃ rest, b.fileBytes E = b'.data ++ rest := by
  unfold SsTableBuilder.fileBytes at hlt ⊢
  dsimp only at hlt ⊢
  rw [hb] at hlt ⊢
  generalize hbloom : Bloom.buildFromKeyHashes E b'.key_hashes _ = bloom at hlt ⊢
  have hblk : bloom.k < 256 := by
    rw [← hbloom]
    exact (Bloom.buildFromKeyHashes_k_le E _ _).trans_lt (by decide)
  exact ⟨SsTable.open_parts rfl rfl hlt hfits hn hblk hfront hback id, _, List.append_assoc _ _ _⟩

/-- What `SsTableBuilder::build` writes opens to a table that holds the entries of the builder. -/
theorem SsTable.open_fileBytes {E : Extern} {b : SsTableBuilder} {es : List (Bytes × Bytes)}
    (hb : b.Holds E es) (hs : Assoc.Sorted es) (hne : es ≠ []) (id : ℕ)
    (hlt : (b.fileBytes E).length < 2^32) :
    ∃ t, SsTable.open E id (b.fileBytes E) = .ok t ∧ t.Holds E es ∧ t.id = id ∧
      t.file = b.fileBytes E := by
  obtain ⟨⟨bs, cur, hbs, rfl, hcur⟩, hkh⟩ := hb
  have hcne : cur ≠ [] := by
    rintro rfl
    obtain rfl := hcur rfl
    exact hne rfl
  obtain ⟨⟨-, -, -, -, ⟨chunks, hlay⟩, hbsne⟩, hkh'⟩ :=
    SsTableBuilder.finishBlock_holdsBlocks hbs hcne
  have hflat : (bs ++ [cur]).flatten = bs.flatten ++ cur := by simp
  obtain ⟨front, back, hfront, hback, hfk, hlk⟩ := hlay.bounds (by simp) hbsne
  have hdlt : (b.finishBlock E).data.length < 2^32 := by
    refine lt_of_le_of_lt ?_ hlt
    unfold SsTableBuilder.fileBytes
    simp only [List.length_append]
    omega
  obtain ⟨hopen, rest, hrest⟩ := open_of_metas rfl (hlay.fits hdlt hbsne)
    (hlay.length_le.trans_lt hdlt) hfront hback id hlt
  rw [hkh', hkh] at hopen
  refine ⟨_, hopen, ⟨hs, hne, by rw [← hflat, ← hfk], by rw [← hflat, ← hlk], ?_, bs ++ [cur],
    hflat, hlay.length_metas, hbsne, ?_⟩, rfl, rfl⟩
  · intro e he
    exact Bloom.mayContain_of_mem E _ _ (List.mem_map_of_mem he)
  · intro i bl hbl
    exact SsTable.readBlock_of_layout hlay hrest rfl hdlt hbl

/-! ## Tables of any entries

A builder that has been given an entry writes at least one block, whatever the lengths of the key
and
the value, so that `SsTable::open` finds an entry in the block index. -/

/-- Where a loop over the block index fails, it reads past its end. -/
theorem readBlockMetas_error {raw : Bytes} {n pos : ℕ} {e : Error}
    (h : readBlockMetas raw n pos = .error e) :
    e = .undefined "read past the end of the buffer" ∨
      e = .undefined "slice past the end of the buffer" := by
  induction n generalizing pos with
  | zero => cases h
  | succ n ih =>
    simp only [readBlockMetas, readU32, readU16, bind_eq_error] at h
    rcases h with h | ⟨_, -, h | ⟨_, -, h | ⟨_, -, h | ⟨_, -, h | ⟨_, -, h | ⟨_, -, h⟩⟩⟩⟩⟩⟩
    · exact .inl (readBE_error h)
    · exact .inl (readBE_error h)
    · exact .inr (slice_error h)
    · exact .inl (readBE_error h)
    · exact .inr (slice_error h)
    · exact ih h
    · cases h

/-- The loop over the block index returns as many entries as it is asked for. -/
theorem readBlockMetas_length {raw : Bytes} {n pos : ℕ} {metas : List BlockMeta}
    (h : readBlockMetas raw n pos = .ok metas) : metas.length = n := by
  induction n generalizing pos metas with
  | zero =>
    cases h
    rfl
  | succ n ih =>
    simp only [readBlockMetas, bind_eq_ok] at h
    obtain ⟨_, -, _, -, _, -, _, -, _, -, rest, hrest, h⟩ := h
    cases h
    rw [List.length_cons, ih hrest]

theorem length_le_flatten_encode (metas : List BlockMeta) :
    metas.length ≤ (metas.map BlockMeta.encode).flatten.length := by
  induction metas with
  | nil => simp
  | cons m metas ih =>
    rw [List.map_cons, List.flatten_cons, List.length_append, BlockMeta.length_encode,
      List.length_cons]
    omega

theorem SsTable.ofMeta_error {id offset : ℕ} {file : Bytes} {bloom : Bloom}
    {metas : List BlockMeta} (hne : metas ≠ []) {e : Error} :
    ofMeta id file offset bloom metas ≠ .error e := by
  rcases metas with _ | ⟨m, metas⟩
  · exact absurd rfl hne
  · rw [ofMeta, List.head?_cons, List.getLast?_cons]
    simp

/-- The current block has the entry that was added last. -/
theorem SsTableBuilder.isEmpty_add (E : Extern) (b : SsTableBuilder) (key value : Bytes) :
    (b.add E key value).builder.isEmpty = false := by
  rw [add]
  dsimp only
  rcases hadd : b.builder.add key value with _ | builder
  · -- The block that refuses the entry is not empty, so that the entry goes to a new one.
    have hfull : b.builder.isEmpty = false := BlockBuilder.isEmpty_of_add_eq_none hadd
    simp only [finishBlock, hfull, Bool.false_eq_true, if_false]
    rcases hnew : (BlockBuilder.create b.block_size).add key value with _ | builder
    · cases BlockBuilder.isEmpty_of_add_eq_none hnew
    · exact BlockBuilder.isEmpty_of_add hnew
  · exact BlockBuilder.isEmpty_of_add hadd

theorem SsTableBuilder.metas_finishBlock_ne_nil (E : Extern) {b : SsTableBuilder}
    (h : b.builder.isEmpty = false) : (finishBlock E b).metas ≠ [] := by
  simp [finishBlock, h]

/-- The block index that `SsTable::open` decodes from a file with at least one block has an entry.
-/
theorem SsTable.open_front_defined {E : Extern} {b : SsTableBuilder}
    (hne : (b.finishBlock E).metas ≠ []) (hlt : (b.fileBytes E).length < 2^32) (id : ℕ) :
    SsTable.open E id (b.fileBytes E) ≠ .error (.undefined "front() of an empty vector") := by
  unfold SsTableBuilder.fileBytes at hlt ⊢
  dsimp only at hlt ⊢
  generalize SsTableBuilder.finishBlock E b = b' at hne hlt ⊢
  obtain ⟨bloom, hbloom⟩ : ∃ bloom, bloom = Bloom.buildFromKeyHashes E b'.key_hashes
    (E.bloomBitsPerKey b'.key_hashes.length) := ⟨_, rfl⟩
  have hk : bloom.k < 256 := by
    rw [hbloom]
    exact (Bloom.buildFromKeyHashes_k_le E _ _).trans_lt (by decide)
  rw [← hbloom] at hlt ⊢
  obtain ⟨buf, hbuf⟩ : ∃ buf, buf =
    b'.data ++ (encodeBlockMeta E b'.metas ++ putU32 b'.data.length) := ⟨_, rfl⟩
  rw [← hbuf] at hlt ⊢
  have hn : b'.metas.length < 2^32 := by
    have hle : b'.metas.length ≤ (encodeBlockMeta E b'.metas).length := by
      simp only [encodeBlockMeta, List.length_append]
      have := length_le_flatten_encode b'.metas
      omega
    have h2 := congrArg List.length hbuf
    rw [List.length_append, List.length_append] at h2 hlt
    omega
  rw [open_sections hbuf rfl hlt hk, decodeBlockMeta_eq E hn]
  intro herr
  rcases bind_eq_error.mp herr with h | ⟨metas, hread, h⟩
  · rcases readBlockMetas_error h with h | h <;> simp at h
  · refine ofMeta_error (fun hnil => hne ?_) h
    rw [← List.length_eq_zero_iff, ← readBlockMetas_length hread, hnil, List.length_nil]

end MiniLsm
