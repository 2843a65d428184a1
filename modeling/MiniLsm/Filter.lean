import MiniLsm.Sequences

/-!
# The table filter of a read

`get` looks into a table only if the key lies between the first and the last key of the table and
the Bloom filter may contain its hash (`keep_table`). Neither depends on what the blocks of the
table store: the bounds come from the block index, where `finish_block` moves the keys of the
builder, and the filter from the hashes that `add` has recorded. `SsTableBuilder.Indexed` is what
the builder keeps of them, for any size of the blocks, and no key that was added is hidden
(`SsTable.keepTable_added`).
-/

namespace MiniLsm

namespace SsTableBuilder

variable {E : Extern} {b : SsTableBuilder} {es : List (Bytes × Bytes)}

/-- The first key of the table that the builder is going to write. -/
def frontKey (b : SsTableBuilder) : Bytes := (b.metas.head?.map BlockMeta.first_key).getD b.first_key

/-- The block index and the keys of the builder are those of the entries `es` that were added. -/
structure Indexed (E : Extern) (b : SsTableBuilder) (es : List (Bytes × Bytes)) : Prop where
  key_hashes : b.key_hashes = es.map fun e => E.fingerprint32 e.1
  /-- Every block has at least one byte. -/
  metas_le : b.metas.length ≤ b.data.length
  fits : ∀ m ∈ b.metas, m.offset ≤ b.data.length ∧ m.first_key.length < 65536 ∧
    m.last_key.length < 65536
  empty : es = [] → b.builder.isEmpty = true ∧ b.first_key = [] ∧ b.metas = []
  entries : es ≠ [] → b.builder.isEmpty = false ∧ b.first_key ≠ [] ∧
    b.first_key.length < 65536 ∧ b.last_key.length < 65536
  first_key : b.frontKey = firstKey es
  last_key : b.last_key = lastKey es

theorem create_indexed (E : Extern) (block_size : ℕ) (compression : CompressionType) :
    (create block_size compression).Indexed E [] :=
  ⟨rfl, le_rfl, by simp [create], fun _ => ⟨rfl, rfl, rfl⟩, fun h => absurd rfl h, rfl, rfl⟩

/-- `finish_block` appends the bytes of a block and moves the keys into the block index. -/
theorem finishBlock_eq (E : Extern) (h : b.builder.isEmpty = false) :
    ∃ c : Bytes, 0 < c.length ∧ finishBlock E b =
      { b with
        builder := BlockBuilder.create b.block_size
        metas := b.metas ++ [⟨b.data.length, b.first_key, b.last_key⟩]
        data := b.data ++ c
        first_key := []
        last_key := [] } := by
  unfold finishBlock
  rw [h, if_neg Bool.false_ne_true]
  dsimp only
  generalize encodePayload E b.compression b.builder.build.encode = fp
  obtain ⟨flag, payload⟩ := fp
  exact ⟨(flag :: payload) ++ putU32 (crc32Hash E (flag :: payload)), by simp, rfl⟩

/-- The block index behind `finish_block`, whatever hashes are recorded. -/
theorem Indexed.finishBlock (h : b.Indexed E es) (hne : es ≠ []) (hashes : List UInt32)
    {b' : SsTableBuilder} (hb' : b' = finishBlock E { b with key_hashes := hashes }) :
    b'.metas.length ≤ b'.data.length ∧
      (∀ m ∈ b'.metas, m.offset ≤ b'.data.length ∧ m.first_key.length < 65536 ∧
        m.last_key.length < 65536) ∧
      b'.builder.isEmpty = true ∧ b'.key_hashes = hashes ∧
      (∃ m, b'.metas.head? = some m ∧ m.first_key = firstKey es) ∧
      ∃ m, b'.metas.getLast? = some m ∧ m.last_key = lastKey es := by
  obtain ⟨hopen, -, hfk, hlk⟩ := h.entries hne
  have hopen' : ({ b with key_hashes := hashes } : SsTableBuilder).builder.isEmpty = false := hopen
  obtain ⟨c, hc, heq⟩ := finishBlock_eq E hopen'
  have hlen : (b.data ++ c).length = b.data.length + c.length := List.length_append
  rw [heq] at hb'
  subst hb'
  dsimp only
  refine ⟨?_, ?_, rfl, rfl, ?_, ?_⟩
  · have := h.metas_le
    rw [List.length_append, List.length_singleton, hlen]
    omega
  · intro m hm
    rcases List.mem_append.mp hm with hm | hm
    · obtain ⟨ho, hkeys⟩ := h.fits m hm
      exact ⟨by omega, hkeys⟩
    · rw [List.mem_singleton.mp hm]
      exact ⟨by dsimp only; omega, hfk, hlk⟩
  · have hfront := h.first_key
    rw [frontKey] at hfront
    rcases hmetas : b.metas with _ | ⟨m, metas⟩
    · rw [hmetas] at hfront
      exact ⟨_, rfl, hfront⟩
    · rw [hmetas] at hfront
      exact ⟨m, rfl, hfront⟩
  · exact ⟨_, List.getLast?_concat, h.last_key⟩

/-- An entry goes into the current block, or into a new one where that is full. -/
theorem Indexed.add (h : b.Indexed E es) {key : Bytes} (hkey : key ≠ []) (hlen : key.length < 65536)
    (value : Bytes) : (add E b key value).Indexed E (es ++ [(key, value)]) := by
  have hlast : lastKey (es ++ [(key, value)]) = key := lastKey_concat es (key, value)
  have hhashes : b.key_hashes ++ [E.fingerprint32 key] =
      (es ++ [(key, value)]).map fun e => E.fingerprint32 e.1 := by
    rw [h.key_hashes, List.map_append]
    rfl
  unfold SsTableBuilder.add
  dsimp only
  rcases hadd : b.builder.add key value with _ | builder
  · -- A full block has entries, and the new entry is the first one of the next block.
    have hne : es ≠ [] := by
      rintro rfl
      have hempty := BlockBuilder.isEmpty_of_add_eq_none hadd
      rw [(h.empty rfl).1] at hempty
      cases hempty
    have hfk : (if b.first_key.isEmpty then key else b.first_key) = b.first_key := by
      rw [if_neg]
      simpa using (h.entries hne).2.1
    rw [hfk]
    dsimp only
    obtain ⟨b', hb'⟩ : ∃ b', b' = SsTableBuilder.finishBlock E
      { b with key_hashes := b.key_hashes ++ [E.fingerprint32 key] } := ⟨_, rfl⟩
    rw [← hb']
    obtain ⟨hle, hfits, hempty, hkh, ⟨m, hm, hfront⟩, -⟩ := h.finishBlock hne _ hb'
    obtain ⟨builder, hbuilder⟩ := BlockBuilder.add_of_isEmpty hempty key value
    rw [hbuilder, Option.getD_some]
    refine ⟨hkh.trans hhashes, hle, hfits, by simp, fun _ => ?_, ?_, hlast.symm⟩
    · exact ⟨BlockBuilder.isEmpty_of_add hbuilder, hkey, hlen, hlen⟩
    · rw [firstKey_append hne, ← hfront, frontKey, hm]
      rfl
  · refine ⟨hhashes, h.metas_le, h.fits, by simp, fun _ => ?_, ?_, hlast.symm⟩
    · refine ⟨BlockBuilder.isEmpty_of_add hadd, ?_, ?_, hlen⟩
      all_goals
        by_cases hes : es = []
        · simp [(h.empty hes).2.1, hkey, hlen]
        · obtain ⟨-, hne, hfk, -⟩ := h.entries hes
          simp [hne, hfk]
    · by_cases hes : es = []
      · obtain ⟨-, hfk, hmetas⟩ := h.empty hes
        simp [frontKey, hes, hfk, hmetas, firstKey]
      · rw [firstKey_append hes, ← h.first_key, frontKey, frontKey]
        dsimp only
        rw [if_neg]
        simpa using (h.entries hes).2.1

/-- A builder keeps the keys of the entries that its calls have added. -/
theorem Indexed.calls (h : b.Indexed E es) {calls : List BuilderCall}
    (hkeys : ∀ e ∈ calls.filterMap BuilderCall.entry, e.1 ≠ [] ∧ e.1.length < 65536) :
    (calls.foldl (BuilderCall.apply E) b).Indexed E (es ++ calls.filterMap BuilderCall.entry) := by
  induction calls generalizing b es with
  | nil => simpa using h
  | cons call calls ih =>
    rw [List.foldl_cons]
    rcases call with ⟨key, value⟩ | compression
    · have hentry : (BuilderCall.add key value :: calls).filterMap BuilderCall.entry =
          (key, value) :: calls.filterMap BuilderCall.entry := rfl
      rw [hentry] at hkeys ⊢
      rw [List.forall_mem_cons] at hkeys
      have hcalls := ih (h.add hkeys.1.1 hkeys.1.2 value) hkeys.2
      rwa [List.append_assoc, List.singleton_append] at hcalls
    · exact ih ⟨h.key_hashes, h.metas_le, h.fits, h.empty, h.entries, h.first_key, h.last_key⟩ hkeys

/-- What the builder writes opens with the bounds of the entries and the filter of their hashes. -/
theorem Indexed.open_fileBytes (h : b.Indexed E es) (hne : es ≠ [])
    (hlt : (b.fileBytes E).length < 2^32) (id : ℕ) :
    ∃ t, SsTable.open E id (b.fileBytes E) = .ok t ∧ t.first_key = firstKey es ∧
      t.last_key = lastKey es ∧ t.bloom = Bloom.buildFromKeyHashes E
        (es.map fun e => E.fingerprint32 e.1) (E.bloomBitsPerKey es.length) := by
  obtain ⟨hle, hfits, -, hkh, ⟨front, hfront, hfk⟩, back, hback, hlk⟩ :=
    h.finishBlock hne b.key_hashes rfl
  have heta : { b with key_hashes := b.key_hashes } = b := rfl
  rw [heta] at hle hfits hkh hfront hback
  unfold fileBytes at hlt ⊢
  dsimp only at hlt ⊢
  generalize SsTableBuilder.finishBlock E b = b' at hle hfits hkh hfront hback hlt ⊢
  rw [hkh, h.key_hashes, List.length_map] at hlt ⊢
  obtain ⟨bloom, hbloom⟩ : ∃ bloom, bloom = Bloom.buildFromKeyHashes E
    (es.map fun e => E.fingerprint32 e.1) (E.bloomBitsPerKey es.length) := ⟨_, rfl⟩
  rw [← hbloom] at hlt ⊢
  have hk : bloom.k < 256 := by
    rw [hbloom]
    exact (Bloom.buildFromKeyHashes_k_le E _ _).trans_lt (by decide)
  obtain ⟨buf, hbuf⟩ : ∃ buf, buf =
    b'.data ++ (encodeBlockMeta E b'.metas ++ putU32 b'.data.length) := ⟨_, rfl⟩
  rw [← hbuf] at hlt ⊢
  have hdata : b'.data.length < 2^32 := by
    have hlen := congrArg List.length hbuf
    rw [List.length_append] at hlen hlt
    omega
  refine ⟨_, SsTable.open_parts hbuf rfl hlt (fun m hm => ?_) (hle.trans_lt hdata) hk hfront hback
    id, hfk, hlk, rfl⟩
  obtain ⟨ho, hfirst, hlast⟩ := hfits m hm
  exact ⟨ho.trans_lt hdata, hfirst, hlast⟩

end SsTableBuilder

/-- No key that was added is hidden: it lies between the bounds of the table that is opened, its
hash passes the filter, which has gone through its encoding, and `keep_table` keeps the table. -/
theorem SsTable.keepTable_added (E : Extern) (block_size : ℕ) (compression : CompressionType)
    {calls : List BuilderCall} {es : List (Bytes × Bytes)}
    (hes : calls.filterMap BuilderCall.entry = es) (hne : es ≠ [])
    (hsorted : (es.map Prod.fst).Pairwise (· < ·))
    (hkeys : ∀ e ∈ es, e.1 ≠ [] ∧ e.1.length ≤ 65535) {b : SsTableBuilder}
    (hb : calls.foldl (BuilderCall.apply E) (SsTableBuilder.create block_size compression) = b)
    (hlt : (b.fileBytes E).length < 2^32) (id : ℕ) :
    ∃ t, SsTable.open E id (b.fileBytes E) = .ok t ∧
      Bloom.decode ((Bloom.buildFromKeyHashes E (es.map fun e => E.fingerprint32 e.1)
        (E.bloomBitsPerKey es.length)).encode E) = .ok t.bloom ∧
      ∀ e ∈ es, t.first_key ≤ e.1 ∧ e.1 ≤ t.last_key ∧
        t.bloom.mayContain (E.fingerprint32 e.1) = true ∧
        LsmStorageInner.keepTable E e.1 t = true := by
  have hindexed : b.Indexed E es := by
    subst hes hb
    refine (SsTableBuilder.create_indexed E block_size compression).calls fun e he => ?_
    exact ⟨(hkeys e he).1, Nat.lt_succ_of_le (hkeys e he).2⟩
  obtain ⟨t, hopen, hfirst, hlast, hbloom⟩ := hindexed.open_fileBytes hne hlt id
  have hs : Assoc.Sorted es := List.pairwise_map.mp hsorted
  refine ⟨t, hopen, ?_, fun e he => ?_⟩
  · rw [hbloom]
    exact Bloom.decode_encode E ((Bloom.buildFromKeyHashes_k_le E _ _).trans_lt (by decide))
  have hlow : t.first_key ≤ e.1 := by
    rw [hfirst]
    exact firstKey_le hs he
  have hhigh : e.1 ≤ t.last_key := by
    rw [hlast]
    exact le_lastKey hs he
  have hmay : t.bloom.mayContain (E.fingerprint32 e.1) = true := by
    rw [hbloom]
    exact Bloom.mayContain_of_mem E _ _ (List.mem_map_of_mem he)
  refine ⟨hlow, hhigh, hmay, ?_⟩
  rw [LsmStorageInner.keepTable, hmay]
  simp [hlow, hhigh]

theorem SsTable.keepTable_mixed :
    ∃ t, SsTable.open .lib 7 ((mixedCalls.foldl (BuilderCall.apply .lib)
        (SsTableBuilder.create 16 .none)).fileBytes .lib) = .ok t ∧
      LsmStorageInner.keepTable .lib [98] t = true := by
  obtain ⟨t, hopen, -, hkeep⟩ := keepTable_added .lib 16 .none
    (show mixedCalls.filterMap BuilderCall.entry = [([97], [49]), ([98], []), ([99], [51])] from rfl)
    (by decide) (by decide) (by decide) rfl (by decide +kernel) 7
  exact ⟨t, hopen, (hkeep ([98], []) (by decide)).2.2.2⟩

end MiniLsm
