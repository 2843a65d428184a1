import MiniLsm.Block
import MiniLsm.Bloom

/-!
# Sorted string tables

`SsTable`, `SsTableBuilder`, and `SsTableIterator` of `src/table/`. A table file is the sequence of
its blocks, each with a compression flag in front and a checksum behind, then the index of the
blocks (`BlockMeta`), the Bloom filter of the keys, and the offsets of these two sections.

Reads go straight to the file (`SsTable::read_block`): the block cache in front of it holds nothing
but blocks that were read so. `FileObject` is the contents of the file, as it was when it was
opened.
-/

namespace MiniLsm

/-- `CompressionType` -/
inductive CompressionType where
  | none
  | snappy
  deriving DecidableEq

/-- `BlockMeta` -/
structure BlockMeta where
  offset : ℕ
  first_key : Bytes
  last_key : Bytes
  deriving DecidableEq

/-- The bytes of one entry of the block index. `putU32` and `putU16` keep the low bits, as the casts
do. -/
def BlockMeta.encode (m : BlockMeta) : Bytes :=
  putU32 m.offset ++ (putU16 m.first_key.length ++ (m.first_key ++
    (putU16 m.last_key.length ++ m.last_key)))

/-- `BlockMeta::encode_block_meta`, the bytes that it appends. -/
def encodeBlockMeta (E : Extern) (metas : List BlockMeta) : Bytes :=
  let entries := (metas.map BlockMeta.encode).flatten
  putU32 metas.length ++ (entries ++ putU32 (crc32Hash E entries))

/-- The loop of `BlockMeta::decode_block_meta`: `n` entries from `pos` on. -/
def readBlockMetas (raw : Bytes) : ℕ → ℕ → Except Error (List BlockMeta)
  | 0, _ => .ok []
  | n + 1, pos => do
    let offset ← readU32 raw pos
    let fk_len ← readU16 raw (pos + 4)
    let fk ← slice raw (pos + 6) fk_len
    let lk_len ← readU16 raw (pos + 6 + fk_len)
    let lk ← slice raw (pos + 6 + fk_len + 2) lk_len
    let rest ← readBlockMetas raw n (pos + 6 + fk_len + 2 + lk_len)
    .ok (⟨offset, fk, lk⟩ :: rest)

/-- `BlockMeta::decode_block_meta`, in a build without assertions. -/
def decodeBlockMeta (E : Extern) (raw : Bytes) : Except Error (List BlockMeta) := do
  if raw.length < 8 then .error (.undefined "block meta of less than eight bytes") else
  let num ← readU32 raw 0
  let expected_checksum ← readU32 raw (raw.length - 4)
  let actual_checksum := crc32Hash E ((raw.drop 4).take (raw.length - 8))
  if expected_checksum ≠ actual_checksum then .error (.runtimeError "meta checksum mismatched") else
  readBlockMetas raw num 4

/-- Subtraction of unsigned `w`-bit numbers, which wraps around. -/
@[irreducible]
def wrapSub (w a b : ℕ) : ℕ := (a + 2^w - b % 2^w) % 2^w

/-- `FileObject::read`. A read that is not within the file throws; so does the allocation of a
buffer whose length has wrapped around. -/
def readFile (file : Bytes) (offset len : ℕ) : Except Error Bytes :=
  if offset + len ≤ file.length then .ok ((file.drop offset).take len)
  else if len = 0 then .ok []
  else .error (.runtimeError "Unexpected EOF during pread")

/-- `SsTable`. `file` is the contents of the open file. -/
structure SsTable where
  id : ℕ
  file : Bytes
  first_key : Bytes
  last_key : Bytes
  block_meta : List BlockMeta
  block_meta_offset : ℕ
  bloom : Bloom
  deriving DecidableEq

/-- `SsTable::open` -/
@[irreducible]
def SsTable.open (E : Extern) (id : ℕ) (file : Bytes) : Except Error SsTable := do
  let file_len := file.length
  let raw_bloom_offset ← readFile file (wrapSub 64 file_len 4) 4
  let bloom_offset ← readU32 raw_bloom_offset 0
  let raw_bloom ← readFile file bloom_offset (wrapSub 64 (wrapSub 64 file_len 4) bloom_offset)
  let bloom ← Bloom.decode raw_bloom
  let raw_meta_offset ← readFile file (wrapSub 32 bloom_offset 4) 4
  let block_meta_offset ← readU32 raw_meta_offset 0
  let raw_meta ← readFile file block_meta_offset
    (wrapSub 32 (wrapSub 32 bloom_offset 4) block_meta_offset)
  let block_meta ← decodeBlockMeta E raw_meta
  match block_meta.head?, block_meta.getLast? with
  | some front, some back =>
    .ok ⟨id, file, front.first_key, back.last_key, block_meta, block_meta_offset, bloom⟩
  | _, _ => .error (.undefined "front() of an empty vector")

/-- The end of `SsTable::read_block`: the block behind the compression flag. -/
def decodePayload (E : Extern) (flag : UInt8) (payload : Bytes) : Except Error Block :=
  if flag = 0x00 then Block.decode payload
  else if flag = 0x01 then
    match E.snappy with
    | some snappy =>
      match snappy.uncompress payload with
      | some raw => Block.decode raw
      | none => .error (.runtimeError "failed to uncompress snappy block")
    | none => .error (.runtimeError
        "block was compressed with Snappy, but Snappy support is not enabled in this build")
  else .error (.runtimeError "unknown compression flag")

/-- `SsTable::read_block` -/
@[irreducible]
def SsTable.readBlock (E : Extern) (t : SsTable) (block_idx : ℕ) : Except Error Block := do
  match t.block_meta[block_idx]? with
  | none => .error (.undefined "block index out of range")
  | some m =>
    let offset := m.offset
    let offset_end := (t.block_meta[block_idx + 1]?.map BlockMeta.offset).getD t.block_meta_offset
    let block_len_with_flag := wrapSub 64 (wrapSub 64 offset_end offset) 4
    let data_with_chksum ← readFile t.file offset (wrapSub 64 offset_end offset)
    let expected_checksum ← readU32 data_with_chksum block_len_with_flag
    let actual_checksum := crc32Hash E (data_with_chksum.take block_len_with_flag)
    if expected_checksum ≠ actual_checksum then
      .error (.runtimeError "block checksum mismatched")
    else
    match data_with_chksum.take block_len_with_flag with
    | [] => .error (.undefined "block without a compression flag")
    | flag :: payload => decodePayload E flag payload

/-- `SsTable::num_blocks` -/
def SsTable.numBlocks (t : SsTable) : ℕ := t.block_meta.length

/-- `SsTable::table_size` -/
def SsTable.tableSize (t : SsTable) : ℕ := t.file.length

/-- `SsTable::find_block_idx`. The block index is sorted, so that `std::upper_bound` counts the
blocks whose first key is not above the key. -/
def SsTable.findBlockIdx (t : SsTable) (key : Bytes) : ℕ :=
  let idx := (t.block_meta.takeWhile fun m => !decide (key < m.first_key)).length
  if idx > 0 then idx - 1 else 0

/-! ## `SsTableBuilder` -/

/-- `SsTableBuilder` -/
structure SsTableBuilder where
  builder : BlockBuilder
  first_key : Bytes
  last_key : Bytes
  data : Bytes
  metas : List BlockMeta
  block_size : ℕ
  compression : CompressionType
  key_hashes : List UInt32

namespace SsTableBuilder

/-- The constructor of `SsTableBuilder`. -/
def create (block_size : ℕ) (compression : CompressionType) : SsTableBuilder :=
  ⟨BlockBuilder.create block_size, [], [], [], [], block_size, compression, []⟩

/-- The compression flag and the payload that `finish_block` writes for an encoded block. -/
def encodePayload (E : Extern) (compression : CompressionType) (block_data : Bytes) :
    UInt8 × Bytes :=
  match compression, E.snappy with
  | .snappy, some snappy => (0x01, snappy.compress block_data)
  | _, _ => (0x00, block_data)

/-- `SsTableBuilder::finish_block`. The keys are moved out into the block index. -/
def finishBlock (E : Extern) (b : SsTableBuilder) : SsTableBuilder :=
  if b.builder.isEmpty then b
  else
    let block_data := b.builder.build.encode
    let (flag, payload) := encodePayload E b.compression block_data
    { b with
      builder := BlockBuilder.create b.block_size
      metas := b.metas ++ [⟨b.data.length, b.first_key, b.last_key⟩]
      data := b.data ++ ((flag :: payload) ++ putU32 (crc32Hash E (flag :: payload)))
      first_key := []
      last_key := [] }

/-- `SsTableBuilder::add` -/
def add (E : Extern) (b : SsTableBuilder) (key value : Bytes) : SsTableBuilder :=
  let b := { b with
    first_key := if b.first_key.isEmpty then key else b.first_key
    key_hashes := b.key_hashes ++ [E.fingerprint32 key] }
  match b.builder.add key value with
  | some builder => { b with builder := builder, last_key := key }
  | none =>
    let b := finishBlock E b
    { b with
      builder := (b.builder.add key value).getD b.builder
      first_key := key
      last_key := key }

/-- `SsTableBuilder::set_compression` -/
def setCompression (b : SsTableBuilder) (compression : CompressionType) : SsTableBuilder :=
  { b with compression := compression }

/-- `SsTableBuilder::estimated_size` -/
def estimatedSize (b : SsTableBuilder) : ℕ := b.data.length

/-- `SsTableBuilder::is_empty` -/
def isEmpty (b : SsTableBuilder) : Bool := b.metas.isEmpty && b.builder.isEmpty

/-- The contents of the file that `SsTableBuilder::build` writes. -/
@[irreducible]
def fileBytes (E : Extern) (b : SsTableBuilder) : Bytes :=
  let b := finishBlock E b
  let buf := b.data ++ (encodeBlockMeta E b.metas ++ putU32 b.data.length)
  let bloom := Bloom.buildFromKeyHashes E b.key_hashes (E.bloomBitsPerKey b.key_hashes.length)
  buf ++ (bloom.encode E ++ putU32 buf.length)

end SsTableBuilder

/-! ## `SsTableIterator` -/

/-- `SsTableIterator`, over tables read with the libraries `E`. -/
structure SsTableIterator (E : Extern) where
  table : Option SsTable
  blk_iter : BlockIterator
  blk_idx : ℕ

namespace SsTableIterator

variable {E : Extern}

/-- `SsTableIterator::seek_to_first`, on a new iterator over the table. -/
def createAndSeekToFirst (E : Extern) (table : SsTable) : Except Error (SsTableIterator E) := do
  if table.numBlocks = 0 then .ok ⟨some table, BlockIterator.empty, 0⟩ else
  let blk ← table.readBlock E 0
  let blk_iter ← BlockIterator.createAndSeekToFirst blk
  .ok ⟨some table, blk_iter, 0⟩

/-- `SsTableIterator::seek_to_key`, on a new iterator over the table. -/
def createAndSeekToKey (E : Extern) (table : SsTable) (key : Bytes) :
    Except Error (SsTableIterator E) := do
  if table.numBlocks = 0 then .ok ⟨some table, BlockIterator.empty, 0⟩ else
  let blk_idx := table.findBlockIdx key
  let blk ← table.readBlock E blk_idx
  let blk_iter ← BlockIterator.createAndSeekToKey blk key
  if blk_iter.isValid then .ok ⟨some table, blk_iter, blk_idx⟩
  else if blk_idx + 1 < table.numBlocks then
    let blk ← table.readBlock E (blk_idx + 1)
    let blk_iter ← BlockIterator.createAndSeekToFirst blk
    .ok ⟨some table, blk_iter, blk_idx + 1⟩
  else .ok ⟨some table, blk_iter, blk_idx + 1⟩

/-- `SsTableIterator::next` -/
def next (it : SsTableIterator E) : Except Error (SsTableIterator E) := do
  let blk_iter ← it.blk_iter.next
  if blk_iter.isValid then .ok { it with blk_iter := blk_iter } else
  match it.table with
  | none => .error (.undefined "null table")
  | some table =>
    if it.blk_idx + 1 < table.numBlocks then
      let blk ← table.readBlock E (it.blk_idx + 1)
      let blk_iter ← BlockIterator.createAndSeekToFirst blk
      .ok ⟨some table, blk_iter, it.blk_idx + 1⟩
    else .ok ⟨some table, blk_iter, it.blk_idx + 1⟩

end SsTableIterator

/-- The number of entries in the blocks of a table that can be read. -/
def SsTable.numEntries (E : Extern) (t : SsTable) : ℕ :=
  ((List.range t.numBlocks).map fun i =>
    match t.readBlock E i with
    | .ok b => b.offsets.length
    | .error _ => 0).sum

instance {E : Extern} : Cursor (SsTableIterator E) Bytes Bytes Error where
  isValid it := it.blk_iter.isValid
  key it := it.blk_iter.key
  value it := it.blk_iter.value
  next := SsTableIterator.next
  bound it := (it.table.map fun t => t.numEntries E).getD 0

end MiniLsm
