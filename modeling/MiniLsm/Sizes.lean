import MiniLsm.Crashes

/-!
# The sizes of table files

The offsets in a table file are 32-bit numbers, so that the runs of the other modules keep their
table files below 2^32 bytes. With a `target_sst_size` of up to 32 MiB there is nothing to keep: no
run of a store writes a longer file.

* What a builder writes is bounded by its entries, and by the bytes of its finished blocks
  (`SsTableBuilder.Sized`).
* A memtable is frozen when its `approximate_size` has reached the target, and this is at least the
  size of its entries (`Light`). A compaction ends a table when its blocks have reached it.
-/

namespace MiniLsm

open LsmStorageInner Cursor

/-- What is relied on of the libraries: the Bloom filter takes up to 16 bits for each key, and
Snappy makes a block longer by a sixth and 32 bytes at most, and shorter by a factor of 22 at most.
-/
structure Extern.Bounded (E : Extern) : Prop where
  bloomBitsPerKey_le : ∀ n, 0 < n → E.bloomBitsPerKey n ≤ 16
  length_compress_le : ∀ snappy, E.snappy = some snappy → ∀ raw,
    6 * (snappy.compress raw).length ≤ 7 * raw.length + 192
  le_length_compress : ∀ snappy, E.snappy = some snappy → ∀ raw,
    raw.length ≤ 22 * (snappy.compress raw).length

/-- Without Snappy, and with ten bits for each key, the libraries are within the bounds. -/
theorem Extern.lib_bounded : Extern.lib.Bounded :=
  ⟨fun _ _ => show 10 ≤ 16 by decide, nofun, nofun⟩

/-! ## Blocks -/

namespace BlockBuilder

variable {b b' : BlockBuilder} {key value : Bytes}

/-- The length of the block that is built, which `BlockBuilder::add` estimates. -/
def size (b : BlockBuilder) : ℕ := 2 + b.offsets.length * 2 + b.data.length

/-- The size of a block is the length of its encoding. -/
theorem length_encode (b : BlockBuilder) : b.build.encode.length = b.size := by
  have hflat : ∀ os : List ℕ, (os.map putU16).flatten.length = os.length * 2 := by
    intro os
    induction os with
    | nil => rfl
    | cons o os ih =>
      rw [List.map_cons, List.flatten_cons, List.length_append, ih, length_putU16,
        List.length_cons]
      omega
  unfold Block.encode size
  rw [List.length_append, List.length_append, hflat, length_putU16]
  unfold build
  dsimp only
  omega

/-- What an entry does to a block that accepts it. -/
theorem add_cases (h : b.add key value = some b') :
    (b.size + key.length + value.length + 6 ≤ b.block_size ∨ b.isEmpty = true) ∧
      b'.size + computeOverlap b.first_key key = b.size + 8 + key.length + value.length ∧
      b'.offsets.length = b.offsets.length + 1 ∧ b'.block_size = b.block_size ∧
      b'.first_key = if b.first_key.isEmpty then key else b.first_key := by
  have hover := (computeOverlap_spec b.first_key key).2.1
  unfold add at h
  dsimp only at h
  by_cases hfull : 2 + b.offsets.length * 2 + b.data.length + key.length + value.length + 2 * 3 >
      b.block_size ∧ b.isEmpty = false
  · rw [if_pos hfull] at h
    cases h
  · rw [if_neg hfull] at h
    cases h
    refine ⟨?_, ?_, by simp, rfl, rfl⟩
    · rcases hemp : b.isEmpty with _ | _
      · have hle := not_lt.mp fun hlt => hfull ⟨hlt, hemp⟩
        unfold size
        omega
      · exact .inr rfl
    · unfold size entryBytes
      simp only [List.length_append, length_putU16, List.length_drop, List.length_singleton]
      omega

end BlockBuilder

/-! ## Tables -/

/-- The filter of a table takes two bytes for each key. -/
theorem Bloom.length_filter_le {E : Extern} (hE : E.Bounded) (hashes : List UInt32) :
    (buildFromKeyHashes E hashes (E.bloomBitsPerKey hashes.length)).filter.length ≤
      2 * hashes.length + 9 := by
  have hbits : hashes.length * E.bloomBitsPerKey hashes.length ≤ hashes.length * 16 := by
    rcases Nat.eq_zero_or_pos hashes.length with hzero | hpos
    · rw [hzero, Nat.zero_mul, Nat.zero_mul]
    · exact Nat.mul_le_mul_left _ (hE.bloomBitsPerKey_le _ hpos)
  unfold buildFromKeyHashes
  dsimp only
  generalize hnbytes : (max (hashes.length * E.bloomBitsPerKey hashes.length) 64 + 7) / 8 = nbytes
  generalize hf : hashes.foldl _ _ = f
  obtain ⟨hlen, -⟩ := foldl_setProbes (show 0 < nbytes * 8 by omega) _ hashes
    (by rw [List.length_replicate]) hf
  rw [hlen, List.length_replicate]
  omega

/-- The longest block of storable entries that a builder makes, and the bytes it takes in the file.
-/
def maxBlock : ℕ := 131080

/-- The bytes that the longest block takes in a file. -/
def maxChunk : ℕ := 152963

namespace SsTableBuilder

variable {E : Extern} {b : SsTableBuilder} {raw : ℕ} {key value : Bytes}

/-- The sizes of a builder whose finished blocks had `raw` bytes before they were compressed. -/
structure Sized (b : SsTableBuilder) (raw : ℕ) : Prop where
  size_le : b.builder.size ≤ maxBlock
  block_size : b.block_size ≤ 65536
  builder_block_size : b.builder.block_size = b.block_size
  fresh : b.builder.isEmpty = true → b.builder.size = 2
  entries : 8 * b.builder.offsets.length + 2 ≤ b.builder.size
  named : b.builder.isEmpty = false → b.first_key ≠ []
  first_key : b.first_key.length ≤ b.builder.size
  last_key : b.last_key.length ≤ b.builder.size
  front : b.builder.first_key.length ≤ b.builder.size
  hashes : 8 * b.key_hashes.length + 2 ≤ raw + b.builder.size
  metas : (b.metas.map fun m => m.encode.length).sum ≤ 4 * raw
  data_le : b.data.length ≤ 5 * raw
  raw_le : raw ≤ 22 * b.data.length

/-- A new builder has no entries. -/
theorem create_sized {block_size : ℕ} (h : block_size ≤ 65536) (compression : CompressionType) :
    (create block_size compression).Sized 0 := by
  have hsize : (BlockBuilder.create block_size).size = 2 := rfl
  unfold create
  refine ⟨?_, h, rfl, fun _ => rfl, ?_, ?_, ?_, ?_, ?_, ?_, le_rfl, le_rfl, le_rfl⟩
  all_goals dsimp only
  · rw [hsize]
    decide
  all_goals simp [BlockBuilder.create, BlockBuilder.isEmpty, BlockBuilder.size]

/-- The payload of a block, compressed or not. -/
theorem length_encodePayload (hE : E.Bounded) (compression : CompressionType) (block_data : Bytes) :
    6 * (encodePayload E compression block_data).2.length ≤ 7 * block_data.length + 192 ∧
      block_data.length ≤ 22 * (encodePayload E compression block_data).2.length := by
  unfold encodePayload
  split
  · rename_i snappy hs
    exact ⟨hE.length_compress_le snappy hs block_data, hE.le_length_compress snappy hs block_data⟩
  · dsimp only
    omega

/-- The bytes that `finish_block` writes for a block. -/
theorem finishBlock_chunk (hE : E.Bounded) (h : b.builder.isEmpty = false) :
    ∃ c : Bytes, 6 * c.length ≤ 7 * b.builder.size + 222 ∧ b.builder.size ≤ 22 * c.length ∧
      finishBlock E b =
        { b with
          builder := BlockBuilder.create b.block_size
          metas := b.metas ++ [⟨b.data.length, b.first_key, b.last_key⟩]
          data := b.data ++ c
          first_key := []
          last_key := [] } := by
  have hpay := length_encodePayload hE b.compression b.builder.build.encode
  rw [BlockBuilder.length_encode] at hpay
  unfold finishBlock
  rw [h, if_neg Bool.false_ne_true]
  dsimp only
  generalize encodePayload E b.compression b.builder.build.encode = fp at hpay ⊢
  obtain ⟨flag, payload⟩ := fp
  obtain ⟨hle, hge⟩ := hpay
  have hlen : (flag :: payload ++ putU32 (crc32Hash E (flag :: payload))).length =
      payload.length + 5 := by
    rw [List.length_append, List.length_cons, length_putU32]
  dsimp only at hle hge
  refine ⟨flag :: payload ++ putU32 (crc32Hash E (flag :: payload)), ?_, ?_, rfl⟩
  · rw [hlen]
    omega
  · rw [hlen]
    omega

/-- `finish_block` writes at most `maxChunk` bytes. -/
theorem Sized.finishBlock (h : b.Sized raw) (hE : E.Bounded) :
    ∃ raw', (finishBlock E b).Sized raw' ∧ (finishBlock E b).builder.isEmpty = true ∧
      raw' + (finishBlock E b).builder.size ≤ raw + b.builder.size + 2 ∧
      (finishBlock E b).data.length ≤ b.data.length + maxChunk := by
  rcases hemp : b.builder.isEmpty with _ | _
  -- A block with entries goes to the data, with its tag and its checksum.
  · obtain ⟨c, hle, hge, heq⟩ := finishBlock_chunk hE hemp
    have hentries : 1 ≤ b.builder.offsets.length := by
      rw [BlockBuilder.isEmpty, List.isEmpty_eq_false_iff] at hemp
      exact List.length_pos_iff.mpr hemp
    obtain ⟨hsize, hblock, -, -, hent, -, hfirst, hlast, -, hhashes, hmetas, hdata, hraw⟩ := h
    have hmeta := BlockMeta.length_encode ⟨b.data.length, b.first_key, b.last_key⟩
    -- The next block begins with the number of its entries.
    have hnew : (BlockBuilder.create b.block_size).size = 2 := rfl
    unfold maxBlock at hsize
    dsimp only at hmeta
    rw [heq]
    refine ⟨raw + b.builder.size, ⟨?_, hblock, rfl, fun _ => rfl, ?_, ?_, ?_, ?_, ?_, ?_, ?_, ?_, ?_⟩,
      rfl, ?_, ?_⟩
    all_goals dsimp only
    · rw [hnew]
      decide
    · rw [hnew]
      simp [BlockBuilder.create]
    · simp [BlockBuilder.isEmpty, BlockBuilder.create]
    · simp
    · simp
    · simp [BlockBuilder.create]
    · omega
    · rw [List.map_append, List.sum_append, List.map_singleton, List.sum_singleton, hmeta]
      omega
    · rw [List.length_append]
      omega
    · rw [List.length_append]
      omega
    · exact le_rfl
    · rw [List.length_append]
      unfold maxChunk
      omega
  -- Without entries, nothing is written.
  · have heq : SsTableBuilder.finishBlock E b = b := by
      unfold SsTableBuilder.finishBlock
      rw [hemp, if_pos rfl]
    rw [heq]
    exact ⟨raw, h, hemp, by omega, by omega⟩

/-- The hashes of the keys do not change the blocks. -/
theorem finishBlock_key_hashes (E : Extern) (b : SsTableBuilder) (hashes : List UInt32) :
    SsTableBuilder.finishBlock E { b with key_hashes := hashes } =
      { SsTableBuilder.finishBlock E b with key_hashes := hashes } := by
  unfold SsTableBuilder.finishBlock
  dsimp only
  split_ifs <;> rfl

/-- An entry that the current block accepts. -/
theorem Sized.accept {builder : BlockBuilder} (h : b.Sized raw) (hs : Storable (key, value))
    (ha : b.builder.add key value = some builder) (hashes : List UInt32) {fk : Bytes}
    (hhashes : hashes.length ≤ b.key_hashes.length + 1) (hne : fk ≠ [])
    (hfk : fk.length ≤ max b.first_key.length key.length) :
    Sized { b with builder := builder, key_hashes := hashes, first_key := fk, last_key := key } raw ∧
      builder.size ≤ b.builder.size + 8 + key.length + value.length := by
  obtain ⟨hfits, hsize, hoffsets, hblk, hfirst⟩ := BlockBuilder.add_cases ha
  obtain ⟨hsz, hblock, hbb, hfresh, hent, -, hfk', hlast, hfront, hh, hmetas, hdata, hraw⟩ := h
  -- The rest of a key is no longer than the key.
  have hover := (computeOverlap_spec b.builder.first_key key)
  have hkey := hs.2.1
  have hvalue := hs.2.2
  unfold maxBlock at hsz
  dsimp only at hkey hvalue
  refine ⟨⟨?_, hblock, hblk.trans hbb, fun hemp => ?_, ?_, fun _ => hne, ?_, ?_, ?_, ?_, hmetas, hdata,
    hraw⟩, by omega⟩
  all_goals dsimp only
  · -- Either the block has been within its size, or this is its only entry.
    unfold maxBlock
    rcases hfits with hle | hemp
    · omega
    · have := hfresh hemp
      omega
  · rw [BlockBuilder.isEmpty_of_add ha] at hemp
    cases hemp
  · omega
  · omega
  · omega
  · rw [hfirst]
    split_ifs <;> omega
  · omega

/-- `SsTableBuilder::add` -/
theorem Sized.add (h : b.Sized raw) (hE : E.Bounded) (hs : Storable (key, value)) :
    ∃ raw', (add E b key value).Sized raw' ∧
      raw' + (add E b key value).builder.size ≤
        raw + b.builder.size + (10 + key.length + value.length) ∧
      (add E b key value).data.length ≤ b.data.length + maxChunk := by
  have hkey : key ≠ [] := hs.1
  unfold SsTableBuilder.add
  dsimp only
  rcases ha : b.builder.add key value with _ | builder
  · -- The current block is finished, and the entry is the first one of the next.
    have hemp := BlockBuilder.isEmpty_of_add_eq_none ha
    have hfk : (if b.first_key.isEmpty then key else b.first_key) = b.first_key :=
      if_neg (by simpa using h.named hemp)
    obtain ⟨raw', hsized, hemp', hle, hdata⟩ := h.finishBlock hE
    obtain ⟨builder, hadd⟩ := BlockBuilder.add_of_isEmpty hemp' key value
    rw [hfk, finishBlock_key_hashes]
    dsimp only
    rw [hadd, Option.getD_some]
    have hlen : (SsTableBuilder.finishBlock E b).key_hashes = b.key_hashes := by
      unfold SsTableBuilder.finishBlock
      split_ifs <;> rfl
    obtain ⟨hsized', hsize⟩ := hsized.accept hs hadd (b.key_hashes ++ [E.fingerprint32 key])
      (by rw [hlen]; simp) hkey (le_max_right _ _)
    exact ⟨raw', hsized', by omega, hdata⟩
  -- The current block accepts the entry.
  · have hfk : (if b.first_key.isEmpty then key else b.first_key).length ≤
        max b.first_key.length key.length := by
      split_ifs <;> omega
    have hne : (if b.first_key.isEmpty then key else b.first_key) ≠ [] := by
      split_ifs with hnil
      · exact hkey
      · simpa using hnil
    obtain ⟨hsized, hsize⟩ := h.accept hs ha (b.key_hashes ++ [E.fingerprint32 key])
      (by simp) hne hfk
    exact ⟨raw, hsized, by dsimp only; omega, Nat.le_add_right _ _⟩

/-- The file that a builder writes, by its finished blocks. -/
theorem Sized.length_fileBytes (h : b.Sized raw) (hE : E.Bounded) :
    ∃ raw', (fileBytes E b).length ≤ (SsTableBuilder.finishBlock E b).data.length + 5 * raw' + 40 ∧
      raw' ≤ raw + b.builder.size ∧ (SsTableBuilder.finishBlock E b).Sized raw' := by
  obtain ⟨raw', hsized, hemp, hle, -⟩ := h.finishBlock hE
  have hfresh := hsized.fresh hemp
  refine ⟨raw', ?_, by omega, hsized⟩
  unfold fileBytes
  dsimp only
  generalize SsTableBuilder.finishBlock E b = b' at hsized hfresh hle ⊢
  have hmetas : ∀ ms : List BlockMeta,
      (ms.map BlockMeta.encode).flatten.length = (ms.map fun m => m.encode.length).sum := by
    intro ms
    rw [List.length_flatten, List.map_map]
    rfl
  have hbloom := Bloom.length_filter_le hE b'.key_hashes
  have hh := hsized.hashes
  have hm := hsized.metas
  unfold encodeBlockMeta Bloom.encode
  simp only [List.length_append, length_putU32, List.length_singleton, hmetas]
  omega

/-- A builder that is built when its blocks have reached a target. -/
theorem Sized.fileBytes_lt_of_data (h : b.Sized raw) (hE : E.Bounded)
    (hdata : b.data.length ≤ 2^25 + maxChunk) : (fileBytes E b).length < 2^32 := by
  obtain ⟨-, -, -, -, hle⟩ := h.finishBlock hE
  obtain ⟨raw', hlen, -, hsized'⟩ := h.length_fileBytes hE
  have hraw := hsized'.raw_le
  unfold maxChunk at hdata hle
  omega

/-- A builder with few entries. -/
theorem Sized.fileBytes_lt_of_entries (h : b.Sized raw) (hE : E.Bounded)
    (hraw : raw + b.builder.size ≤ 2 + 11 * (2^25 + 131070)) : (fileBytes E b).length < 2^32 := by
  obtain ⟨raw', hlen, hle, hsized'⟩ := h.length_fileBytes hE
  have hdata := hsized'.data_le
  omega

end SsTableBuilder

/-! ## Memtables -/

/-- The bytes of the keys and values of some entries. -/
def totalSize (es : List (Bytes × Bytes)) : ℕ := (es.map fun e => e.1.length + e.2.length).sum

/-- The size of a list is the sum over its entries. -/
theorem totalSize_cons (e : Bytes × Bytes) (es : List (Bytes × Bytes)) :
    totalSize (e :: es) = e.1.length + e.2.length + totalSize es := by
  unfold totalSize
  rw [List.map_cons, List.sum_cons]

/-- The size of two lists is the sum of theirs. -/
theorem totalSize_append (es es' : List (Bytes × Bytes)) :
    totalSize (es ++ es') = totalSize es + totalSize es' := by
  unfold totalSize
  rw [List.map_append, List.sum_append]

/-- A write adds the bytes of its entry at most. -/
theorem totalSize_insert_le (key value : Bytes) (es : List (Bytes × Bytes)) :
    totalSize (Assoc.insert key value es) ≤ totalSize es + (key.length + value.length) := by
  induction es with
  | nil => simp [Assoc.insert, totalSize]
  | cons e es ih =>
    unfold Assoc.insert
    split_ifs <;> simp only [totalSize_cons] at ih ⊢ <;> omega

/-- A flushed memtable fills its builder with no more than its entries. -/
theorem MemTable.flush_sized {E : Extern} (hE : E.Bounded) {es : List (Bytes × Bytes)}
    (hes : ∀ e ∈ es, Storable e) {b : SsTableBuilder} {raw : ℕ} (h : b.Sized raw) :
    ∃ raw', (es.foldl (fun b r => b.add E r.1 r.2) b).Sized raw' ∧
      raw' + (es.foldl (fun b r => b.add E r.1 r.2) b).builder.size ≤
        raw + b.builder.size + 11 * totalSize es := by
  induction es generalizing b raw with
  | nil => exact ⟨raw, h, by simp⟩
  | cons e es ih =>
    rw [List.forall_mem_cons] at hes
    obtain ⟨raw₁, h₁, hle₁, -⟩ := h.add hE hes.1
    obtain ⟨raw', h', hle'⟩ := ih hes.2 h₁
    have hkey : 1 ≤ e.1.length := List.length_pos_iff.mpr hes.1.1
    rw [List.foldl_cons]
    refine ⟨raw', h', ?_⟩
    rw [totalSize_cons]
    omega

/-- The table file of a memtable. -/
theorem MemTable.length_fileBytes_lt {E : Extern} (hE : E.Bounded) {m : MemTable}
    (hes : ∀ e ∈ m.map, Storable e) {block_size : ℕ} (hsize : block_size ≤ 65536)
    (compression : CompressionType) (hle : totalSize m.map ≤ 2^25 + 131070) :
    ((m.flush E (SsTableBuilder.create block_size compression)).fileBytes E).length < 2^32 := by
  obtain ⟨raw, hsized, hraw⟩ := MemTable.flush_sized hE hes
    (SsTableBuilder.create_sized hsize compression)
  have hnew : (SsTableBuilder.create block_size compression).builder.size = 2 := rfl
  refine hsized.fileBytes_lt_of_entries hE (hraw.trans ?_)
  omega

/-! ## Compactions -/

namespace LsmStorageInner

variable {M : Type} {E : Extern} {io : ManifestIO M} {s : LsmStorageInner M}

/-- A small file more. -/
theorem Disk.Small.update {d : Disk M} (h : d.Small) (id : ℕ) {buf : Bytes} (hbuf : buf.length < 2^32) :
    ({ d with ssts := Function.update d.ssts id (some buf) } : Disk M).Small := by
  intro id' b hb
  dsimp only at hb
  by_cases hid : id' = id
  · rw [hid, Function.update_self] at hb
    cases hb
    exact hbuf
  · rw [Function.update_of_ne hid] at hb
    exact h id' b hb

/-- A table that a compaction writes. -/
theorem buildNext_small (hsmall : s.disk.Small) {b : SsTableBuilder}
    (hlt : (b.fileBytes E).length < 2^32) : (s.buildNext E b).2.disk.Small :=
  Disk.Small.update hsmall s.next_sst_id hlt

/-- Two operations, each of which leaves small files. -/
theorem bind_small {α β : Type} {o : Outcome M α} {f : α → LsmStorageInner M → Outcome M β}
    (h : o.2.disk.Small) (hf : ∀ a, (f a o.2).2.disk.Small) : (o.bind f).2.disk.Small := by
  rcases o with ⟨e | a, s⟩
  · exact h
  · exact hf a

/-- The builder with which a round of the loop goes on: it has not reached the target, unless an
entry was added to it. -/
theorem addEntry_sized (hE : E.Bounded) (bottom : Bool) {builder : Option SsTableBuilder}
    (hsize : s.options.block_size ≤ 65536)
    (hb : ∀ b, builder = some b → ∃ raw, b.Sized raw ∧ b.data.length ≤ 2^25) {e : Bytes × Bytes}
    (he : Storable e) :
    ∃ raw, (s.addEntry E bottom builder e.1 e.2).Sized raw ∧
      (s.addEntry E bottom builder e.1 e.2).data.length ≤ 2^25 + maxChunk ∧
      ((s.addEntry E bottom builder e.1 e.2).isEmpty = true →
        (s.addEntry E bottom builder e.1 e.2).data.length ≤ 2^25) := by
  have hstart : ∃ raw, (builder.getD
      (SsTableBuilder.create s.options.block_size s.options.compression)).Sized raw ∧
        (builder.getD
          (SsTableBuilder.create s.options.block_size s.options.compression)).data.length ≤ 2^25 := by
    rcases builder with _ | b
    · exact ⟨0, SsTableBuilder.create_sized hsize _, Nat.zero_le _⟩
    · exact hb b rfl
  obtain ⟨raw, hsized, hdata⟩ := hstart
  unfold addEntry
  dsimp only
  split_ifs
  · exact ⟨raw, hsized, by omega, fun _ => hdata⟩
  · obtain ⟨raw', hsized', -, hdata'⟩ := hsized.add hE he
    refine ⟨raw', hsized', by omega, fun hemp => ?_⟩
    rw [SsTableBuilder.isEmpty, SsTableBuilder.isEmpty_add, Bool.and_false] at hemp
    cases hemp

/-- The loop of a compaction ends a table when its blocks have reached the target. -/
theorem compactLoop_small {ι : Type} [Cursor ι Bytes Bytes Error] (hE : E.Bounded) {bottom : Bool}
    {n : ℕ} {iter : ι} {l : List (Bytes × Bytes)} {builder : Option SsTableBuilder}
    (new_sst : List SsTable) {s : LsmStorageInner M} (hy : Yields iter l)
    (hl : ∀ e ∈ l, Storable e) (hsize : s.options.block_size ≤ 65536)
    (htarget : s.options.target_sst_size ≤ 2^25)
    (hb : ∀ b, builder = some b → ∃ raw, b.Sized raw ∧ b.data.length ≤ 2^25)
    (hsmall : s.disk.Small) :
    (compactLoop E bottom n iter builder new_sst s).2.disk.Small := by
  -- The builder of each round is below the target, so that its file is small when it is built.
  induction n generalizing iter l builder new_sst s with
  | zero => exact hsmall
  | succ n ih =>
    rw [compactLoop]
    rcases l with _ | ⟨e, l⟩
    · rw [if_neg (by simp [hy.isValid_nil])]
      rcases hf : builder.filter fun b => !b.isEmpty with _ | b
      · rw [hf]
        exact hsmall
      -- The iterator is at its end, and the last table is built.
      · obtain ⟨raw, hsized, hdata⟩ := hb b (Option.filter_eq_some_iff.mp hf).1
        rw [hf]
        have hlt := hsized.fileBytes_lt_of_data hE (by omega)
        have hnext := buildNext_small hsmall hlt
        exact bind_small hnext fun _ => hnext
    · obtain ⟨hv, hkey, hval, -, iter', hnext, hy'⟩ := hy.isValid_cons
      rw [List.forall_mem_cons] at hl
      rw [if_pos hv, hnext, hkey, hval, Outcome.bind_ok]
      obtain ⟨raw, hsized, hdata, hemp⟩ := addEntry_sized (s := s) hE bottom hsize hb hl.1
      generalize s.addEntry E bottom builder e.1 e.2 = b at hsized hdata hemp ⊢
      split_ifs with hfull
      · -- The builder goes to a table, and the next round starts a new one.
        have hnext := buildNext_small hsmall (hsized.fileBytes_lt_of_data hE hdata)
        have hopt := (buildNext_wrote (E := E) s b).1.options
        refine bind_small hnext fun sst => ih (new_sst ++ [sst]) hy' hl.2 ?_ ?_ (by simp) hnext
        · rwa [hopt]
        · rwa [hopt]
      -- The builder goes on, and its finished blocks are below the target.
      · refine ih new_sst hy' hl.2 hsize htarget (fun b' hb' => ?_) hsmall
        cases hb'
        refine ⟨raw, hsized, ?_⟩
        rcases hb : b.isEmpty with _ | _
        · rw [hb, Bool.not_false, Bool.true_and, decide_eq_true_eq] at hfull
          unfold SsTableBuilder.estimatedSize at hfull
          omega
        · exact hemp hb

/-- The files of a compaction are small. -/
theorem generateFrom_small {ι : Type} [Cursor ι Bytes Bytes Error] (hE : E.Bounded)
    {iter : Except Error ι} {groups : List (List ℕ)} (hm : Merges E s iter groups)
    (hg : ∀ g ∈ groups, InOrder E s.state g) (hsize : s.options.block_size ≤ 65536)
    (htarget : s.options.target_sst_size ≤ 2^25) (bottom : Bool) (hsmall : s.disk.Small) :
    (s.generateFrom E iter bottom).2.disk.Small := by
  obtain ⟨it, rfl, hy⟩ := hm
  unfold generateFrom compactGenerateSstFromIter
  rw [Outcome.bind_ok]
  refine compactLoop_small hE [] hy (fun e he => ?_) hsize htarget (by simp) hsmall
  obtain ⟨l, hl, he⟩ := exists_mem_of_mem_overlays he
  obtain ⟨g, hgm, rfl⟩ := List.mem_map.mp hl
  exact (hg g hgm).storable he

/-- The table files of a compaction. -/
theorem compact_small (hE : E.Bounded) {task : CompactionTask}
    (hg : ∀ g ∈ task.groups, InOrder E s.state g) (hsize : s.options.block_size ≤ 65536)
    (htarget : s.options.target_sst_size ≤ 2^25) (hsmall : s.disk.Small) :
    (s.compact E task).2.disk.Small := by
  have hl0 : ∀ {upper_ids lower_ids : List ℕ} (bottom : Bool),
      (∀ g ∈ upper_ids.map (fun id => [id]) ++ [lower_ids], InOrder E s.state g) →
      (s.generateFrom E (s.mergeL0 E upper_ids lower_ids) bottom).2.disk.Small := fun bottom h =>
    generateFrom_small hE (mergeL0_merges (fun id hid => h [id] (by simp [hid])) (h _ (by simp))) h
      hsize htarget bottom hsmall
  have hlevel : ∀ {upper_level : Option ℕ} {upper_ids lower_ids : List ℕ} (bottom : Bool),
      (∀ g ∈ levelGroups upper_level upper_ids lower_ids, InOrder E s.state g) →
      (s.compactLevel E upper_level upper_ids lower_ids bottom).2.disk.Small := by
    intro upper_level upper_ids lower_ids bottom h
    rcases upper_level with _ | upper_level
    · exact hl0 bottom h
    · exact generateFrom_small hE (mergeLevels_merges (h _ (by simp [levelGroups]))
        (h _ (by simp [levelGroups]))) h hsize htarget bottom hsmall
  cases task with
  | forceFull t => exact hl0 _ hg
  | simple t => exact hlevel _ hg
  | leveled t => exact hlevel _ hg
  | tiered t =>
    exact generateFrom_small hE (mergeTiers_merges fun tier ht => hg _ (List.mem_map_of_mem ht)) hg
      hsize htarget _ hsmall

/-! ## Stores -/

/-- No memtable has outgrown the target by more than an entry, and the table files are small. -/
structure Light (s : LsmStorageInner M) : Prop where
  target : s.options.target_sst_size ≤ 2^25
  active : totalSize s.state.memtable.map ≤ s.state.memtable.approximate_size
  approximate_size_le : s.state.memtable.approximate_size ≤ s.options.target_sst_size
  imm_memtables : ∀ m ∈ s.state.imm_memtables,
    totalSize m.map ≤ s.options.target_sst_size + 131070
  small : s.disk.Small

namespace Light

/-- A step that keeps the memtables and writes no table files. -/
theorem congr {s' : LsmStorageInner M} (h : s.Light) (hopt : s'.options = s.options)
    (hmems : s'.state.memtables = s.state.memtables) (hsmall : s'.disk.Small) : s'.Light := by
  rw [LsmStorageState.memtables, LsmStorageState.memtables, List.cons.injEq] at hmems
  obtain ⟨target, active, hle, himm, -⟩ := h
  rw [← hopt] at target hle himm
  rw [← hmems.1] at active hle
  rw [← hmems.2] at himm
  exact ⟨target, active, hle, himm, hsmall⟩

/-- A freeze, also of a memtable that has outgrown the target by an entry. -/
theorem freeze (io : ManifestIO M) (htarget : s.options.target_sst_size ≤ 2^25)
    (hmems : ∀ m ∈ s.state.memtables, totalSize m.map ≤ s.options.target_sst_size + 131070)
    (hsmall : s.disk.Small) : (s.forceFreezeMemtable io).Light := by
  have hopt := forceFreezeMemtable_options io s
  have hstate := forceFreezeMemtable_state io s
  have hfresh : s.freshMemtable.approximate_size = 0 := by
    unfold freshMemtable
    split_ifs <;> rfl
  refine ⟨by rwa [hopt], ?_, ?_, ?_, ?_⟩
  · rw [hstate]
    dsimp only
    rw [freshMemtable_map]
    exact Nat.zero_le _
  · rw [hstate]
    dsimp only
    rw [hfresh]
    exact Nat.zero_le _
  · rw [hstate, hopt]
    exact hmems
  · intro id b hb
    rw [forceFreezeMemtable_ssts] at hb
    exact hsmall id b hb

/-- No memtable has outgrown the target by more than an entry. -/
theorem totalSize_le (h : s.Light) :
    ∀ m ∈ s.state.memtables, totalSize m.map ≤ s.options.target_sst_size + 131070 := by
  rw [LsmStorageState.memtables, List.forall_mem_cons]
  have := h.active.trans h.approximate_size_le
  exact ⟨by omega, h.imm_memtables⟩

/-- A write leaves the memtable light, and freezes it once it is full. -/
theorem put (h : s.Light) (io : ManifestIO M) {key value : Bytes} (hs : Storable (key, value)) :
    (s.put E io key value).Light := by
  have hkey : key.length ≤ 65535 := hs.2.1
  have hvalue : value.length ≤ 65535 := hs.2.2
  have hactive := h.active
  have hle := h.approximate_size_le
  have hmap := totalSize_insert_le key value s.state.memtable.map
  unfold LsmStorageInner.put
  dsimp only
  split_ifs with hfull
  · refine freeze io h.target ?_ h.small
    rw [LsmStorageState.memtables, List.forall_mem_cons]
    refine ⟨?_, h.imm_memtables⟩
    unfold MemTable.put MemTable.insert
    dsimp only
    omega
  · refine ⟨h.target, ?_, ?_, h.imm_memtables, h.small⟩
    · unfold MemTable.put MemTable.insert
      dsimp only
      omega
    · dsimp only
      omega

/-- A flush of a light memtable writes a small file. -/
theorem flush (h : s.Light) (hE : E.Bounded) (io : ManifestIO M) (hinv : Inv E s) :
    (s.forceFlushNextImmMemtable E io).2.Light := by
  rcases List.eq_nil_or_concat' s.state.imm_memtables with himm | ⟨imm, m, himm⟩
  · rw [flush_of_imm_nil E io himm]
    exact h
  · have hm : m ∈ s.state.imm_memtables := by simp [himm]
    have htarget := h.target
    have hle := h.imm_memtables m hm
    have hlt := MemTable.length_fileBytes_lt hE (hinv.mem_storable m (List.mem_cons_of_mem _ hm))
      hinv.block_size s.options.compression (hle.trans (by omega))
    have hsmall := Disk.Small.update h.small m.id hlt
    obtain ⟨hmem, hsub⟩ := flush_memtables E io s
    have hopt := flush_options E io s
    refine ⟨by rwa [hopt], by rw [hmem]; exact h.active, ?_, fun m' hm' => ?_, ?_⟩
    · rw [hmem, hopt]
      exact h.approximate_size_le
    · rw [hopt]
      exact h.imm_memtables m' (hsub m' hm')
    · rw [flush_of_imm_concat E io himm]
      refine bind_small hsmall fun sst => ?_
      intro id b hb
      rw [addRecord_ssts] at hb
      exact hsmall id b hb

end Light

/-- A new store has written no table, and its memtable is empty. -/
theorem openFresh_ssts (io : ManifestIO M) (disk : Disk M) (options : LsmStorageOptions) :
    (openFresh io disk options).disk.ssts = disk.ssts ∧
      (openFresh io disk options).state.memtable.approximate_size = 0 := by
  unfold openFresh
  rcases options.enable_wal with _ | _ <;>
    simp [addRecord_ssts, addRecord_state, createWal, LsmStorageState.create, MemTable.create,
      MemTable.createWithWal]

end LsmStorageInner

/-! ## Runs -/

namespace Machine

variable {M τ : Type} [DecidableEq τ] {E : Extern} {io : ManifestIO M} {options : LsmStorageOptions}

/-- A step keeps the memtables and the table files small. -/
theorem step_light (hE : E.Bounded) {c c' : Machine M τ} {op : Op τ} (h : c.store.Light)
    (hinv : c.Inv E) (hcur : c.AllCurrent) (hs : op.Storable) (hstep : c.step E io op = some c') :
    c'.store.Light := by
  cases op with
  | put key value =>
    cases hstep
    exact h.put io hs
  | del key =>
    cases hstep
    exact h.put io hs
  | freeze =>
    simp only [Machine.step] at hstep
    split_ifs at hstep
    cases hstep
    exact .freeze io h.target h.totalSize_le h.small
  | flush =>
    cases hstep
    exact h.flush hE io hinv.store
  | trigger i =>
    obtain ⟨-, t, -, rfl⟩ := begin_eq_some hstep
    exact h
  | full i =>
    obtain ⟨-, t, -, rfl⟩ := begin_eq_some hstep
    exact h
  -- The tables that are merged hold storable entries, and the outputs end at the target.
  | compact i =>
    obtain ⟨call, hi, -, rfl⟩ := step_compact hstep
    have hw := compact_wrote (E := E) c.store call.task
    have hok := hinv.calls i call hi (hcur i call hi)
    exact h.congr hw.options (by rw [compactStep, hw.state]) (compact_small hE
      (hok.fits.inOrder hinv.store) hinv.store.block_size h.target h.small)
  | apply i =>
    obtain ⟨call, ts, -, -, rfl⟩ := step_apply hstep
    obtain ⟨hopt, -, hmems, hssts⟩ := applyResult_frame io c.store call.task ts
    refine h.congr hopt hmems fun id b hb => ?_
    -- The last step removes files and writes none.
    rcases hssts id with hnone | heq
    · rw [show (c.applyStep io i call ts).store.disk.ssts id = none from hnone] at hb
      cases hb
    · exact h.small id b (heq ▸ hb)

omit [DecidableEq τ] in
/-- A new store has no table files. -/
theorem start_light (io : ManifestIO M) (htarget : options.target_sst_size ≤ 2^25) :
    (Machine.start io options : Machine M τ).store.Light := by
  obtain ⟨m, hmems, -, hmap⟩ := openFresh_memtables io Disk.empty options
  obtain ⟨hssts, hfresh⟩ := openFresh_ssts io Disk.empty options
  rw [LsmStorageState.memtables, List.cons.injEq] at hmems
  have hopt := openFresh_options io Disk.empty options
  unfold Machine.start
  refine ⟨by rwa [hopt], ?_, ?_, ?_, fun id b hb => ?_⟩
  all_goals dsimp only at *
  · rw [hmems.1, hmap]
    exact Nat.zero_le _
  · rw [hfresh]
    exact Nat.zero_le _
  · rw [hmems.2]
    simp
  · rw [hssts] at hb
    cases hb

/-- What storable operations lead to, with a target of up to 32 MiB. -/
theorem light_of_steps {io : ManifestIO M} (hE : E.Bounded) (hsize : options.block_size ≤ 65536)
    (htarget : options.target_sst_size ≤ 2^25)
    (hctrl : options.compaction_options.Plain ∨ options.compaction_options.Leveling)
    {ops : List (Op Unit)} {c : Machine M Unit}
    (h : Steps (Machine.step E io) (fun _ op => op.Storable) (Machine.start io options) ops c) :
    Run E io options (fun _ _ => True) ops c ∧ c.store.Light ∧ c.Inv E ∧
      c.store.options = options ∧ c.AllCurrent := by
  have hvalid : options.compaction_options.Valid :=
    hctrl.elim CompactionOptions.Plain.valid CompactionOptions.Leveling.valid
  -- The plain controllers merge all tiers, and the others none.
  have hcov : ∀ c : Machine M Unit, c.store.options = options → ∀ t,
      c.store.generateTask E = some (.tiered t) → c.store.Covered E t := by
    intro c hopt t ht
    rcases hctrl with hplain | hlevels
    · rw [← hopt] at hplain
      exact (generateTask_sound hplain ht).2 t rfl
    · rw [← hopt] at hlevels
      exact absurd ht (hlevels.generateTask_ne t)
  -- Along the run, the store is light, so that the next step leaves small files.
  induction h with
  | refl =>
    exact ⟨.start, start_light io htarget, ⟨openFresh_inv io Disk.empty hsize,
      openFresh_shape io Disk.empty hvalid, by simp [Machine.start]⟩,
      openFresh_options io Disk.empty options, by simp [AllCurrent, Machine.start]⟩
  | snoc _ hs hstep ih =>
    obtain ⟨hrun, hlight, hinv, hopt, hcur⟩ := ih
    have hlight' := step_light hE hlight hinv hcur hs hstep
    exact ⟨hrun.step trivial hs hstep hlight'.small, hlight',
      hinv.step (by rwa [hopt]) ⟨hcur.serial _, fun _ t _ ht => hcov _ hopt t ht⟩ hs hstep
        hlight'.small, (step_options hstep).trans hopt, hcur.step hstep⟩

/-- With a target of up to 32 MiB, every sequence of operations whose entries are storable is a run:
its table files stay below 2^32 bytes. Every memtable has at most the bytes of the target and of one
more entry. -/
theorem run_of_steps {io : ManifestIO M} (hE : E.Bounded) (hsize : options.block_size ≤ 65536)
    (htarget : options.target_sst_size ≤ 2^25)
    (hctrl : options.compaction_options.Plain ∨ options.compaction_options.Leveling)
    {ops : List (Op Unit)} {c : Machine M Unit}
    (h : Steps (Machine.step E io) (fun _ op => op.Storable) (Machine.start io options) ops c) :
    Run E io options (fun _ _ => True) ops c ∧ c.store.disk.Small ∧
      ∀ m ∈ c.store.state.memtables, totalSize m.map ≤ options.target_sst_size + 131070 := by
  obtain ⟨hrun, hlight, -, hopt, -⟩ := light_of_steps hE hsize htarget hctrl h
  exact ⟨hrun, hlight.small, hopt ▸ hlight.totalSize_le⟩

/-- A run with tables that are compacted. -/
theorem run_of_steps_compacted :
    ∃ c : Machine (List ManifestRecord) Unit,
      Run .lib .list Sessions.withLogs (fun _ _ => True) Sessions.compactedTables c ∧
        ∀ m ∈ c.store.state.memtables, totalSize m.map ≤ 2097152 + 131070 := by
  have hsteps : ∃ c : Machine (List ManifestRecord) Unit,
      Steps (Machine.step .lib .list) (fun _ op => op.Storable)
        (Machine.start .list Sessions.withLogs) Sessions.compactedTables c ∧ true = true :=
    Steps.of_exec (p := fun _ op => decide op.Storable) (fun _ _ h => of_decide_eq_true h)
      (q := fun _ => true) (by decide +kernel)
  obtain ⟨c, h, -⟩ := hsteps
  obtain ⟨hrun, -, hle⟩ := run_of_steps Extern.lib_bounded (by decide) (by decide)
    (.inl Sessions.withLogs_plain) h
  exact ⟨c, hrun, hle⟩

end Machine

/-! ## Sessions -/

namespace LsmStorageInner

variable {M : Type} {E : Extern} {io : ManifestIO M} {log : M → List ManifestRecord}
  {s s' t : LsmStorageInner M} {disk : Disk M} {options : LsmStorageOptions}

/-- Recovering logs touches no table file. -/
theorem recoverMemtables_ssts (E : Extern) (disk : Disk M) (ids : List ℕ) :
    (recoverMemtables E disk ids).2.ssts = disk.ssts := by
  unfold recoverMemtables
  suffices h : ∀ acc : List MemTable × Disk M, (ids.foldl (fun acc id =>
      let buf := (acc.2.wals id).getD []
      let mem := MemTable.recoverFromWal E id buf
      (if mem.isEmpty then acc.1 else mem :: acc.1,
        { acc.2 with wals := Function.update acc.2.wals id (some (Wal.recover E buf).2) }))
      acc).2.ssts = acc.2.ssts from h _
  induction ids with
  | nil => exact fun _ => rfl
  | cons id ids ih => exact fun acc => ih _

/-- `open` writes no table files, and its memtable is a new one. -/
theorem open_ssts (h : LsmStorageInner.open E io disk options = .ok t) :
    t.disk.ssts = disk.ssts ∧ t.state.memtable.approximate_size = 0 := by
  unfold LsmStorageInner.open at h
  rcases hman : disk.manifest with _ | m
  · rw [hman] at h
    cases h
    exact openFresh_ssts io disk options
  · rw [hman] at h
    dsimp only at h
    rcases hrec : io.recover m with e | ⟨records, m'⟩
    · rw [hrec] at h
      rcases e with _ | _
      all_goals cases h
      exact ⟨rfl, rfl⟩
    · rw [hrec] at h
      dsimp only at h
      rw [openRecovered_eq] at h
      obtain ⟨r, -, h⟩ := bind_eq_ok.mp h
      obtain ⟨ts, -, h⟩ := bind_eq_ok.mp h
      cases h
      unfold reopenedState reopenedDisk reopenedMemtables
      rcases options.enable_wal with _ | _
      · exact ⟨rfl, rfl⟩
      · exact ⟨recoverMemtables_ssts E _ r.memtables, rfl⟩

/-- The destruction writes no table files. -/
theorem destroy_ssts (s : LsmStorageInner M) : s.destroy.ssts = s.disk.ssts := by
  unfold destroy
  generalize s.state.memtable :: s.state.imm_memtables = ms
  generalize s.disk = d
  induction ms generalizing d with
  | nil => rfl
  | cons m ms ih => rw [List.foldl_cons, ih, flushWal_ssts]

/-- The rounds of the loop in `MiniLsm::close`. -/
theorem flushAll_light (hE : E.Bounded) (io : ManifestIO M) (n : ℕ) (hinv : Inv E s) (h : s.Light) :
    (flushAll E io n s).2.Light := by
  induction n generalizing s with
  | zero => exact h
  | succ n ih =>
    have hlight := h.flush hE io hinv
    rw [flushAll]
    by_cases himm : s.state.imm_memtables = []
    · rw [flush_of_imm_nil E io himm, Outcome.bind_ok]
      exact ih hinv h
    · obtain ⟨hok, m, t, hf⟩ := flush_spec hinv himm hlight.small
      rw [show s.forceFlushNextImmMemtable E io = (.ok (), (s.forceFlushNextImmMemtable E io).2) from
        Prod.ext hok rfl, Outcome.bind_ok]
      exact ih (hf.inv hinv) hlight

/-- The memtables that `MiniLsm::close` flushes are light. -/
theorem closing_light (h : s.Light) (io : ManifestIO M) : (s.closing io).Light := by
  unfold closing
  split_ifs
  · exact h
  · exact .freeze io h.target h.totalSize_le h.small

/-- The logs of the memtables have no more bytes in their records than the memtables count. -/
structure Weighed (E : Extern) (s : LsmStorageInner M) : Prop extends s.Light where
  active_log : s.options.enable_wal = true → ∃ durable buffered,
    s.state.memtable.Logged E s.disk durable buffered ∧
      totalSize (durable ++ buffered) ≤ s.state.memtable.approximate_size
  imm_logs : s.options.enable_wal = true → ∀ m ∈ s.state.imm_memtables, ∃ durable buffered,
    m.Logged E s.disk durable buffered ∧
      totalSize (durable ++ buffered) ≤ s.options.target_sst_size + 131070

namespace Weighed

/-- The bounds depend on the memtables, the logs and the files. -/
theorem congr (h : s.Weighed E) (hopt : s'.options = s.options)
    (hmems : s'.state.memtables = s.state.memtables) (hwals : s'.disk.wals = s.disk.wals)
    (hsmall : s'.disk.Small) : s'.Weighed E := by
  refine ⟨h.toLight.congr hopt hmems hsmall, ?_, ?_⟩
  all_goals
    rw [LsmStorageState.memtables, LsmStorageState.memtables, List.cons.injEq] at hmems
    intro hwal
    rw [hopt] at hwal
  · obtain ⟨durable, buffered, hlog, hle⟩ := h.active_log hwal
    rw [hmems.1]
    exact ⟨durable, buffered, hlog.congr (congrFun hwals _), hle⟩
  · rw [hmems.2, hopt]
    intro m hm
    obtain ⟨durable, buffered, hlog, hle⟩ := h.imm_logs hwal m hm
    exact ⟨durable, buffered, hlog.congr (congrFun hwals _), hle⟩

/-- A freeze begins an empty log. -/
theorem freeze (io : ManifestIO M) (hinv : Inv E s) (htarget : s.options.target_sst_size ≤ 2^25)
    (hmems : ∀ m ∈ s.state.memtables, totalSize m.map ≤ s.options.target_sst_size + 131070)
    (hsmall : s.disk.Small)
    (hlogs : s.options.enable_wal = true → ∀ m ∈ s.state.memtables, ∃ durable buffered,
      m.Logged E s.disk durable buffered ∧
        totalSize (durable ++ buffered) ≤ s.options.target_sst_size + 131070) :
    (s.forceFreezeMemtable io).Weighed E := by
  have hopt := forceFreezeMemtable_options io s
  have hstate := forceFreezeMemtable_state io s
  refine ⟨.freeze io htarget hmems hsmall, fun hwal => ?_, fun hwal => ?_⟩
  all_goals
    rw [hopt] at hwal
    rw [hstate]
    dsimp only
  · exact ⟨[], [], Logs.freshMemtable_logged hwal io, Nat.zero_le _⟩
  · intro m hm
    rw [hopt]
    obtain ⟨durable, buffered, hlog, hle⟩ := hlogs hwal m hm
    exact ⟨durable, buffered, hlog.congr (Logs.freeze_wals io s (hinv.mem_ids_lt m hm).ne), hle⟩

/-- The logs of all memtables are bounded. -/
theorem logs_le (h : s.Weighed E) (hwal : s.options.enable_wal = true) :
    ∀ m ∈ s.state.memtables, ∃ durable buffered, m.Logged E s.disk durable buffered ∧
      totalSize (durable ++ buffered) ≤ s.options.target_sst_size + 131070 := by
  rw [LsmStorageState.memtables, List.forall_mem_cons]
  obtain ⟨durable, buffered, hlog, hle⟩ := h.active_log hwal
  have := h.approximate_size_le
  exact ⟨⟨durable, buffered, hlog, by omega⟩, h.imm_logs hwal⟩

/-- The store in which the entry of a `put` has been written. -/
theorem write_logs (h : s.Weighed E) {key value : Bytes} (hs : Storable (key, value))
    (hwal : s.options.enable_wal = true) : ∃ durable buffered,
      (s.write E key value).state.memtable.Logged E s.disk durable buffered ∧
        totalSize (durable ++ buffered) ≤ (s.write E key value).state.memtable.approximate_size := by
  obtain ⟨durable, buffered, hlog, hle⟩ := h.active_log hwal
  refine ⟨durable, buffered ++ [(key, value)], hlog.put hs, ?_⟩
  rw [← List.append_assoc, totalSize_append]
  unfold write MemTable.put MemTable.insert
  simp only [totalSize, List.map_singleton, List.sum_singleton] at hle ⊢
  omega

/-- The store in which the process ends within a `put`, which may have outgrown the target by an
entry. -/
theorem write_logs_le (h : s.Weighed E) {key value : Bytes} (hs : Storable (key, value))
    (hwal : s.options.enable_wal = true) :
    ∀ m ∈ (s.write E key value).state.memtables, ∃ durable buffered,
      m.Logged E s.disk durable buffered ∧
        totalSize (durable ++ buffered) ≤ s.options.target_sst_size + 131070 := by
  have hkey : key.length ≤ 65535 := hs.2.1
  have hvalue : value.length ≤ 65535 := hs.2.2
  have hle := h.approximate_size_le
  obtain ⟨durable, buffered, hlog, hw⟩ := h.write_logs hs hwal
  have hsize : (s.write E key value).state.memtable.approximate_size =
    s.state.memtable.approximate_size + (key.length + value.length) := rfl
  rw [LsmStorageState.memtables, List.forall_mem_cons]
  exact ⟨⟨durable, buffered, hlog, by omega⟩, h.imm_logs hwal⟩

/-- A write appends its entry to the log. -/
theorem put (h : s.Weighed E) (io : ManifestIO M) (hinv : Inv E s) {key value : Bytes}
    (hs : Storable (key, value)) : (s.put E io key value).Weighed E := by
  have hlight := h.toLight.put (E := E) io hs
  rcases hfull : decide ((s.write E key value).state.memtable.approximate_size ≥
    s.options.target_sst_size) with _ | _
  · have heq : s.put E io key value = s.write E key value := if_neg (of_decide_eq_false hfull)
    rw [heq] at hlight ⊢
    exact ⟨hlight, fun hwal => h.write_logs hs hwal, fun hwal => h.imm_logs hwal⟩
  · have heq : s.put E io key value = (s.write E key value).forceFreezeMemtable io :=
      if_pos (of_decide_eq_true hfull)
    have hkey : key.length ≤ 65535 := hs.2.1
    have hvalue : value.length ≤ 65535 := hs.2.2
    rw [heq]
    refine .freeze io (hinv.write hs) h.target ?_ h.small fun hwal => h.write_logs_le hs hwal
    have hactive := h.active.trans h.approximate_size_le
    have hmap := totalSize_insert_le key value s.state.memtable.map
    rw [LsmStorageState.memtables, List.forall_mem_cons]
    refine ⟨?_, h.imm_memtables⟩
    change totalSize (Assoc.insert key value s.state.memtable.map) ≤ s.options.target_sst_size + _
    omega

/-- A flush leaves the logs. -/
theorem flush (h : s.Weighed E) (hE : E.Bounded) (io : ManifestIO M) (hinv : Inv E s) :
    (s.forceFlushNextImmMemtable E io).2.Weighed E := by
  obtain ⟨hmem, hsub⟩ := flush_memtables E io s
  have hopt := flush_options E io s
  have hlight := h.toLight.flush hE io hinv
  have hwals : (s.forceFlushNextImmMemtable E io).2.disk.wals = s.disk.wals := by
    rcases List.eq_nil_or_concat' s.state.imm_memtables with himm | ⟨imm, m, himm⟩
    · rw [flush_of_imm_nil E io himm]
    · obtain ⟨-, m, t, hf⟩ := flush_spec hinv (by simp [himm]) hlight.small
      exact hf.wals
  refine ⟨hlight, ?_, ?_⟩
  all_goals
    intro hwal
    rw [hopt] at hwal
  · obtain ⟨durable, buffered, hlog, hle⟩ := h.active_log hwal
    rw [hmem]
    exact ⟨durable, buffered, hlog.congr (congrFun hwals _), hle⟩
  · intro m hm
    obtain ⟨durable, buffered, hlog, hle⟩ := h.imm_logs hwal m (hsub m hm)
    rw [hopt]
    exact ⟨durable, buffered, hlog.congr (congrFun hwals _), hle⟩

/-- `sync` passes the log on, and adds nothing. -/
theorem sync (h : s.Weighed E) (hinv : Inv E s) : s.sync.Weighed E := by
  refine ⟨⟨h.target, h.active, h.approximate_size_le, h.imm_memtables, fun id b hb => ?_⟩,
    fun hwal => ?_, fun hwal m hm => ?_⟩
  · rw [show s.sync.disk.ssts = s.disk.ssts from flushWal_ssts s.disk s.state.memtable] at hb
    exact h.small id b hb
  · obtain ⟨durable, buffered, hlog, hle⟩ := h.active_log hwal
    refine ⟨durable ++ buffered, [], syncedMemtable_logged hlog, ?_⟩
    rw [List.append_nil]
    exact hle
  · obtain ⟨durable, buffered, hlog, hle⟩ := h.imm_logs hwal m hm
    exact ⟨durable, buffered, hlog.congr (hinv.sync_wals hm), hle⟩

end Weighed

/-- A memtable is no heavier than its log. -/
theorem totalSize_replay_le (rs : List (Bytes × Bytes)) :
    totalSize (MemTable.replay rs) ≤ totalSize rs := by
  induction rs using List.reverseRecOn with
  | nil => exact le_rfl
  | append_singleton rs r ih =>
    have hle := totalSize_insert_le r.1 r.2 (MemTable.replay rs)
    rw [MemTable.replay_append, totalSize_append]
    simp only [totalSize, List.map_singleton, List.sum_singleton] at ih hle ⊢
    omega

/-- A store that is opened where `s` has left its logs. -/
theorem Reopened.weighed {r r' : Replay} {rs : ℕ → List (Bytes × Bytes)}
    (hre : s.Reopened E log r rs t r') (hkept : s.Kept E r disk rs)
    (hopen : LsmStorageInner.open E io disk options = .ok t)
    (htarget : s.options.target_sst_size ≤ 2^25)
    (hlogs : s.options.enable_wal = true → ∀ m ∈ s.state.memtables, ∃ durable buffered,
      m.Logged E s.disk durable buffered ∧
        totalSize (durable ++ buffered) ≤ s.options.target_sst_size + 131070)
    (hsmall : disk.Small) : t.Weighed E := by
  obtain ⟨hssts, hnew⟩ := open_ssts hopen
  -- A memtable that is recovered has a part of the records of its log.
  have hrs : ∀ m ∈ t.state.imm_memtables, s.options.enable_wal = true ∧
      m.map = MemTable.replay (rs m.id) ∧
      totalSize (rs m.id) ≤ s.options.target_sst_size + 131070 := by
    intro m hm
    obtain ⟨hwal, hrec⟩ := hre.imm m hm
    obtain ⟨m₀, hm₀, hid⟩ := hkept.live hwal m.id hrec.mem hrec.ne_nil
    obtain ⟨durable, buffered, n, hlog, heq⟩ := hkept.logged hwal m₀ hm₀
    obtain ⟨durable', buffered', hlog', hle⟩ := hlogs hwal m₀ hm₀
    obtain ⟨rfl, rfl⟩ := hlog.unique hlog'
    -- What a crash leaves of the buffer is no more than the buffer.
    have htake : totalSize (buffered.take n) ≤ totalSize buffered := by
      conv_rhs => rw [← List.take_append_drop n buffered, totalSize_append]
      exact Nat.le_add_right _ _
    rw [totalSize_append] at hle
    refine ⟨hwal, hrec.map, ?_⟩
    rw [← hid, heq, totalSize_append]
    omega
  refine ⟨⟨by rwa [hre.options], ?_, ?_, fun m hm => ?_, fun id b hb => ?_⟩, fun hwal => ?_,
    fun hwal m hm => ?_⟩
  · rw [hre.memtable_map]
    exact Nat.zero_le _
  · rw [hnew]
    exact Nat.zero_le _
  · obtain ⟨-, hmap, hle⟩ := hrs m hm
    rw [hmap, hre.options]
    exact (totalSize_replay_le _).trans hle
  · rw [hssts] at hb
    exact hsmall id b hb
  · rw [hre.options] at hwal
    exact ⟨[], [], (hre.logged hwal).1, Nat.zero_le _⟩
  · rw [hre.options] at hwal
    refine ⟨rs m.id, [], (hre.logged hwal).2 m hm, ?_⟩
    rw [List.append_nil, hre.options]
    exact (hrs m hm).2.2

end LsmStorageInner

namespace Machine

variable {M : Type} {E : Extern} {io : ManifestIO M} {log : M → List ManifestRecord}
  {options : LsmStorageOptions} {c c' : Machine M Unit}

/-- A session can be closed. -/
theorem Session.closesSmall (h : c.Session E log options) (hE : E.Bounded) (hio : io.Lawful log)
    (hlight : c.store.Light) : c.store.ClosesSmall E io := by
  intro _ n
  obtain ⟨hinv, -⟩ := closing_spec hio h.inv.store h.inv.shape h.recoverable
  exact (flushAll_light hE io n hinv (closing_light hlight io)).small

/-- The next session, behind one that has been closed. -/
theorem Session.restart_weighed (h : c.Session E log options) (hE : E.Bounded) (hio : io.Lawful log)
    (hw : c.store.Weighed E) {t : LsmStorageInner M}
    (hopen : LsmStorageInner.open E io (c.store.shutdown E io) c.store.options = .ok t) :
    t.Weighed E := by
  have hsmall := h.closesSmall hE hio hw.toLight
  obtain ⟨z, r, rs, t', r', hz, hopen', hre, -, -⟩ := h.restart hio hsmall
  obtain rfl := Except.ok.inj (hopen.symm.trans hopen')
  have hsm : (c.store.shutdown E io).Small := by
    intro id b hb
    rw [hz.shutdown, destroy_ssts, hz.eq] at hb
    rcases hwal : c.store.options.enable_wal with _ | _
    · rw [hwal, if_neg Bool.false_ne_true, close_of_no_wal hwal] at hb
      exact hsmall hwal _ id b hb
    · rw [hwal, if_pos rfl] at hb
      exact hw.small id b hb
  refine hre.weighed hz.kept hopen (by rw [hz.options]; exact hw.target) (fun hwal => ?_) hsm
  have heq := hz.eq
  rw [hz.options] at hwal
  rw [hwal, if_pos rfl] at heq
  rw [heq]
  exact hw.logs_le hwal

/-- What a client and a crash promise at each step: the entries are storable, and a crash leaves
what has been passed on, and no long table files. -/
structure Promises (E : Extern) (c : Machine M Unit) (step : SessionStep M) : Prop where
  storable : ∀ op, step = .op op → op.Storable
  entry : ∀ e disk, step = .crash (some e) disk → MiniLsm.Storable e
  killed : ∀ entry disk, step = .crash entry disk → (c.store.within E entry).Killed disk
  small : ∀ entry disk, step = .crash entry disk → disk.Small

/-- A new store is within the bounds. -/
theorem start_weighed (E : Extern) (io : ManifestIO M) (htarget : options.target_sst_size ≤ 2^25) :
    (Machine.start io options : Machine M Unit).store.Weighed E := by
  obtain ⟨m, hmems, -⟩ := openFresh_memtables io Disk.empty options
  rw [LsmStorageState.memtables, List.cons.injEq] at hmems
  refine ⟨start_light io htarget, fun hwal => ?_, fun _ m' hm' => ?_⟩
  all_goals unfold Machine.start at *
  · rw [openFresh_options] at hwal
    exact ⟨[], [], openFresh_logged E io hwal _ List.mem_cons_self, Nat.zero_le _⟩
  · rw [hmems.2] at hm'
    cases hm'

/-- The logs of the store in which the process ends. -/
theorem within_logs_le {s : LsmStorageInner M} (h : s.Weighed E) {entry : Option (Bytes × Bytes)}
    (hs : ∀ e, entry = some e → MiniLsm.Storable e) :
    (s.within E entry).options = s.options ∧
      (s.options.enable_wal = true → ∀ m ∈ (s.within E entry).state.memtables, ∃ durable buffered,
        m.Logged E (s.within E entry).disk durable buffered ∧
          totalSize (durable ++ buffered) ≤ s.options.target_sst_size + 131070) := by
  rcases entry with _ | ⟨key, value⟩
  · exact ⟨rfl, h.logs_le⟩
  · exact ⟨rfl, h.write_logs_le (hs _ rfl)⟩

/-- The next session, behind one in which the process has ended. -/
theorem Session.crash_weighed (h : c.Session E log options) (hio : io.Lawful log)
    (hw : c.store.Weighed E) {entry : Option (Bytes × Bytes)} {disk : Disk M}
    (hs : ∀ e, entry = some e → MiniLsm.Storable e)
    (hk : (c.store.within E entry).Killed disk) (hsmall : disk.Small) {t : LsmStorageInner M}
    (hopen : LsmStorageInner.open E io disk c.store.options = .ok t) : t.Weighed E := by
  obtain ⟨r, rs, t', r', hkept, -, hopen', hre, -⟩ := h.crash hio hs hk
  obtain rfl := Except.ok.inj (hopen.symm.trans hopen')
  obtain ⟨hopt, hlogs⟩ := within_logs_le hw hs
  rw [← hopt] at hlogs
  exact hre.weighed hkept hopen (by rw [hopt]; exact hw.target) hlogs hsmall

/-- An operation keeps the logs small. -/
theorem Session.op_weighed (h : c.Session E log options) (hE : E.Bounded)
    (hw : c.store.Weighed E) {op : Op Unit} (hs : op.Storable) (hstep : c.step E io op = some c') :
    c'.store.Weighed E := by
  have hlight := step_light hE hw.toLight h.inv h.current hs hstep
  cases op with
  | put key value =>
    cases hstep
    exact hw.put io h.inv.store hs
  | del key =>
    cases hstep
    exact hw.put io h.inv.store hs
  | freeze =>
    simp only [Machine.step] at hstep
    split_ifs at hstep
    cases hstep
    exact .freeze io h.inv.store hw.target hw.totalSize_le hw.small hw.logs_le
  | flush =>
    cases hstep
    exact hw.flush hE io h.inv.store
  | trigger i =>
    obtain ⟨-, t, -, rfl⟩ := begin_eq_some hstep
    exact hw
  | full i =>
    obtain ⟨-, t, -, rfl⟩ := begin_eq_some hstep
    exact hw
  -- A compaction leaves the memtables and their logs as they are.
  | compact i =>
    obtain ⟨call, -, -, rfl⟩ := step_compact hstep
    have hwr := compact_wrote (E := E) c.store call.task
    exact hw.congr hwr.options (by rw [compactStep, hwr.state]) hwr.wals hlight.small
  | apply i =>
    obtain ⟨call, ts, -, -, rfl⟩ := step_apply hstep
    obtain ⟨hopt, -, hmems, -⟩ := applyResult_frame io c.store call.task ts
    refine hw.congr hopt hmems ?_ hlight.small
    rcases applyResult_cases io c.store call.task ts with heq | ⟨-, -, -, -, -, -, -, hwals⟩
    · rw [applyStep, heq]
    · exact hwals

/-- What the client promises is all that a step has to keep, and the next store is small again. -/
theorem Session.step_weighed (h : c.Session E log options) (hE : E.Bounded) (hio : io.Lawful log)
    (hw : c.store.Weighed E) {step : SessionStep M} (hp : c.Promises E step)
    (hstep : c.sessionStep E io step = some c') : c.Keeps E io step ∧ c'.store.Weighed E := by
  have hsmall := h.closesSmall hE hio hw.toLight
  refine ⟨⟨hp.storable, fun op c'' hop hstep' => ?_, fun _ => hsmall, hp.entry, hp.killed⟩, ?_⟩
  · exact (step_light hE hw.toLight h.inv h.current (hp.storable op hop) hstep').small
  · cases step with
    | op op => exact h.op_weighed hE hw (hp.storable op rfl) hstep
    | sync =>
      cases hstep
      exact hw.sync h.inv.store
    | restart =>
      obtain ⟨-, -, -, t, -, -, hopen, -⟩ := h.restart hio hsmall
      rw [sessionStep] at hstep
      split_ifs at hstep
      rw [reopen_eq_some hopen hstep]
      exact h.restart_weighed hE hio hw hopen
    | crash entry disk =>
      have hs : ∀ e, entry = some e → MiniLsm.Storable e := fun e he => hp.entry e disk (by rw [he])
      obtain ⟨-, -, t, -, -, -, hopen, -⟩ := h.crash hio hs (hp.killed entry disk rfl)
      rw [reopen_eq_some hopen hstep]
      exact h.crash_weighed hio hw hs (hp.killed entry disk rfl) (hp.small entry disk rfl) hopen

end Machine

namespace Sessions

open Machine

variable {M : Type} {E : Extern} {io : ManifestIO M} {log : M → List ManifestRecord}
  {options : LsmStorageOptions} {c : Machine M Unit}

/-- With a target of up to 32 MiB, every sequence of sessions whose entries are storable keeps to
the format, closed or crashed: neither the operations nor `MiniLsm::close` write a table file of
2^32 bytes, and no log that is recovered makes a larger memtable than the one it was written for. -/
theorem keeps_of_promises (hE : E.Bounded) (hio : io.Lawful log) (hsize : options.block_size ≤ 65536)
    (htarget : options.target_sst_size ≤ 2^25) (hplain : options.compaction_options.Plain)
    {steps : List (SessionStep M)}
    (h : Steps (sessionStep E io) (Promises E) (Machine.start io options) steps c) :
    Steps (sessionStep E io) (Keeps E io) (Machine.start io options) steps c ∧
      c.store.ClosesSmall E io ∧ c.store.disk.Small ∧
      ∀ m ∈ c.store.state.memtables, totalSize m.map ≤ options.target_sst_size + 131070 := by
  have hall : Steps (sessionStep E io) (Keeps E io) (Machine.start io options) steps c ∧
      c.store.Weighed E := by
    induction h with
    | refl => exact ⟨.refl, start_weighed E io htarget⟩
    | snoc _ hp hstep ih =>
      obtain ⟨hrun, hw⟩ := ih
      obtain ⟨hk, hw'⟩ := (Session.of_steps hio hsize hplain hrun).step_weighed hE hio hw hp hstep
      exact ⟨hrun.snoc hk hstep, hw'⟩
  obtain ⟨hrun, hw⟩ := hall
  have hc := Session.of_steps hio hsize hplain hrun
  exact ⟨hrun, hc.closesSmall hE hio hw.toLight, hw.small, hc.options_eq ▸ hw.totalSize_le⟩

/-- Whether the client promises what it has to, where no process ends. -/
def promises {M : Type} : SessionStep M → Bool
  | .op op => decide op.Storable
  | .sync => true
  | .restart => true
  | .crash _ _ => false

/-- What a step promises can be computed. -/
theorem promises_of_eq_true (c : Machine M Unit) (step : SessionStep M)
    (h : promises step = true) : c.Promises E step := by
  refine ⟨?_, ?_, ?_, ?_⟩
  · rintro op rfl
    exact of_decide_eq_true h
  all_goals
    rintro entry disk rfl
    cases h

/-- A sync, a restart and a crash, behind a compaction. -/
theorem keeps_of_promises_compacted :
    ∃ (c c' : Machine (List ManifestRecord) Unit),
      Steps (sessionStep .lib .list) (Promises .lib) (Machine.start .list withLogs)
        (compactedTables.map .op ++ [.sync, .restart]) c ∧
      Steps (sessionStep .lib .list) (Keeps .lib .list) (Machine.start .list withLogs)
        (compactedTables.map .op ++ [.sync, .restart] ++ [.crash none c.store.disk]) c' ∧
      c'.store.disk.Small := by
  have hsteps : ∃ c : Machine (List ManifestRecord) Unit,
      Steps (sessionStep .lib .list) (Promises .lib) (Machine.start .list withLogs)
        (compactedTables.map .op ++ [.sync, .restart]) c ∧ true = true :=
    Steps.of_exec (p := fun _ step => promises step) promises_of_eq_true (q := fun _ => true)
      (by decide +kernel)
  obtain ⟨c, h, -⟩ := hsteps
  obtain ⟨hk, -, hsmall, -⟩ := keeps_of_promises Extern.lib_bounded ManifestIO.list_lawful (by decide)
    (by decide) withLogs_plain h
  -- The process ends, and nothing more is passed on.
  have hkilled := killed_self c.store
  have hc := Session.of_steps ManifestIO.list_lawful (by decide) withLogs_plain hk
  obtain ⟨c', hcrash, -⟩ := hc.exists_crash ManifestIO.list_lawful
    (show ∀ e, (none : Option (Bytes × Bytes)) = some e → MiniLsm.Storable e from nofun) hkilled
  have hp : c.Promises .lib (.crash none c.store.disk) := by
    refine ⟨nofun, nofun, ?_, ?_⟩
    all_goals
      intro entry disk he
      cases he
    · exact hkilled
    · exact hsmall
  obtain ⟨hk', -, hsmall', -⟩ := keeps_of_promises Extern.lib_bounded ManifestIO.list_lawful (by decide)
    (by decide) withLogs_plain (h.snoc hp hcrash)
  exact ⟨c, c', h, hk', hsmall'⟩

end Sessions

end MiniLsm
