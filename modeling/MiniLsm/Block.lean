import MiniLsm.Key
import MiniLsm.Lib.Cursor

/-!
# Blocks

`Block`, `BlockBuilder`, and `BlockIterator` of `src/block/`. A block is a buffer of entries and the
list of their offsets. An entry stores the length of the prefix that its key shares with the block's
first key, the rest of the key, and the value, each behind a 16-bit length.

`Block.Holds b es` says that a block stores the entries `es`. The builder keeps it (`add_holds`),
the encoding keeps the block (`decode_encode`), and the iterator reads the entries back: from the
first one (`seekToFirst_yields`), or, by binary search, from the first one at or after a key
(`seekToKey_yields`).
-/

namespace MiniLsm

open Cursor (Yields)

/-- `Block` of `include/mini_lsm/block.h`. The offsets are 16-bit numbers. -/
structure Block where
  data : Bytes
  offsets : List ℕ
  deriving DecidableEq

/-- `Block::encode` -/
def Block.encode (b : Block) : Bytes :=
  b.data ++ ((b.offsets.map putU16).flatten ++ putU16 b.offsets.length)

/-- The loop of `Block::decode`: `n` offsets from `pos` on. -/
def readOffsets (raw : Bytes) (pos : ℕ) : ℕ → Except Error (List ℕ)
  | 0 => .ok []
  | n + 1 => do
    let offset ← readU16 raw pos
    let offsets ← readOffsets raw (pos + 2) n
    .ok (offset :: offsets)

/-- `Block::decode`, in a build without assertions. -/
def Block.decode (raw : Bytes) : Except Error Block := do
  if raw.length < 2 then .error (.undefined "block of less than two bytes") else
  let num_entries ← readU16 raw (raw.length - 2)
  let offsets_len := num_entries * 2
  if raw.length - 2 < offsets_len then .error (.undefined "block shorter than its offsets") else
  let data_end := raw.length - 2 - offsets_len
  let offsets ← readOffsets raw data_end num_entries
  .ok ⟨raw.take data_end, offsets⟩

/-- `compute_overlap`: the length of the common prefix of two keys. -/
def computeOverlap : Bytes → Bytes → ℕ
  | a :: as, b :: bs => if a ≠ b then 0 else computeOverlap as bs + 1
  | _, _ => 0

/-- `BlockBuilder` -/
structure BlockBuilder where
  offsets : List ℕ
  data : Bytes
  block_size : ℕ
  first_key : Bytes
  deriving DecidableEq

/-- The constructor of `BlockBuilder`. -/
def BlockBuilder.create (block_size : ℕ) : BlockBuilder := ⟨[], [], block_size, []⟩

/-- `BlockBuilder::is_empty` -/
def BlockBuilder.isEmpty (b : BlockBuilder) : Bool := b.offsets.isEmpty

/-- The bytes that `BlockBuilder::add` appends for an entry whose key shares `overlap` bytes with
the first key. `putU16` keeps the low 16 bits, as the casts to `uint16_t` do. -/
def entryBytes (overlap : ℕ) (key value : Bytes) : Bytes :=
  putU16 overlap ++ (putU16 (key.length - overlap) ++ (key.drop overlap ++
    (putU16 value.length ++ value)))

/-- `BlockBuilder::add`: `none` where it returns `false`, with the builder unchanged. -/
def BlockBuilder.add (b : BlockBuilder) (key value : Bytes) : Option BlockBuilder :=
  let estimated := 2 + b.offsets.length * 2 + b.data.length
  if estimated + key.length + value.length + 2 * 3 > b.block_size ∧ b.isEmpty = false then none
  else
    let overlap := computeOverlap b.first_key key
    some
      { b with
        offsets := b.offsets ++ [b.data.length % 65536]
        data := b.data ++ entryBytes overlap key value
        first_key := if b.first_key.isEmpty then key else b.first_key }

theorem BlockBuilder.isEmpty_of_add {b b' : BlockBuilder} {key value : Bytes}
    (h : b.add key value = some b') : b'.isEmpty = false := by
  rw [add] at h
  dsimp only at h
  by_cases hfull : 2 + b.offsets.length * 2 + b.data.length + key.length + value.length + 2 * 3 >
      b.block_size ∧ b.isEmpty = false
  · rw [if_pos hfull] at h
    cases h
  · rw [if_neg hfull] at h
    cases h
    simp [isEmpty]

/-- Only a block with entries refuses one. -/
theorem BlockBuilder.isEmpty_of_add_eq_none {b : BlockBuilder} {key value : Bytes}
    (h : b.add key value = none) : b.isEmpty = false := by
  rw [add] at h
  split_ifs at h with hfull
  exact hfull.2

/-- `BlockBuilder::build` -/
def BlockBuilder.build (b : BlockBuilder) : Block := ⟨b.data, b.offsets⟩

/-- `BlockIterator` -/
structure BlockIterator where
  block : Option Block
  key : Bytes
  value_start : ℕ
  value_len : ℕ
  idx : ℕ
  first_key : Bytes
  deriving DecidableEq

/-- The default constructor of `BlockIterator`. -/
def BlockIterator.empty : BlockIterator := ⟨none, [], 0, 0, 0, []⟩

/-- The `len` bytes of a buffer from `pos` on. -/
def slice (buf : Bytes) (pos len : ℕ) : Except Error Bytes :=
  if pos + len ≤ buf.length then .ok ((buf.drop pos).take len)
  else .error (.undefined "slice past the end of the buffer")

theorem slice_error {buf : Bytes} {pos len : ℕ} {e : Error} (h : slice buf pos len = .error e) :
    e = .undefined "slice past the end of the buffer" := by
  rw [slice] at h
  split_ifs at h
  cases h
  rfl

/-- The constructor of `BlockIterator` from a block, which reads the first key. -/
def BlockIterator.create (block : Block) : Except Error BlockIterator := do
  if block.offsets.isEmpty then .ok ⟨some block, [], 0, 0, 0, []⟩ else
  let _overlap ← readU16 block.data 0
  let key_len ← readU16 block.data 2
  let first_key ← slice block.data 4 key_len
  .ok ⟨some block, [], 0, 0, 0, first_key⟩

/-- `BlockIterator::value` -/
def BlockIterator.value (it : BlockIterator) : Bytes :=
  match it.block with
  | none => []
  | some b => (b.data.drop it.value_start).take it.value_len

/-- `BlockIterator::is_valid` -/
def BlockIterator.isValid (it : BlockIterator) : Bool := !it.key.isEmpty

/-- `BlockIterator::seek_to_offset`, on the block and the offset of the entry `idx`. -/
def BlockIterator.seekToOffset (it : BlockIterator) (block : Block) (offset : ℕ) :
    Except Error BlockIterator := do
  let overlap_len ← readU16 block.data offset
  let key_len ← readU16 block.data (offset + 2)
  let shared ← slice it.first_key 0 overlap_len
  let rest ← slice block.data (offset + 4) key_len
  let val_len ← readU16 block.data (offset + 4 + key_len)
  .ok { it with
    key := shared ++ rest
    value_start := offset + 4 + key_len + 2
    value_len := val_len }

/-- `BlockIterator::seek_to` -/
def BlockIterator.seekTo (it : BlockIterator) (idx : ℕ) : Except Error BlockIterator :=
  match it.block.bind fun b => b.offsets[idx]?.map fun offset => (b, offset) with
  | none => .ok { it with key := [], value_start := 0, value_len := 0 }
  | some (b, offset) => { it with idx := idx }.seekToOffset b offset

/-- `BlockIterator::next` -/
def BlockIterator.next (it : BlockIterator) : Except Error BlockIterator :=
  { it with idx := it.idx + 1 }.seekTo (it.idx + 1)

/-- The binary search of `BlockIterator::seek_to_key` between `low` and `high`. Every round narrows
the range, so `fuel` rounds are enough for a range of that length. -/
def BlockIterator.search (target : Bytes) : ℕ → ℕ → ℕ → BlockIterator → Except Error BlockIterator
  | 0, low, _, it => it.seekTo low
  | fuel + 1, low, high, it => do
    if low < high then
      let mid := low + (high - low) / 2
      let it ← it.seekTo mid
      let cmp := compare it.key target
      if cmp < 0 then search target fuel (mid + 1) high it
      else if cmp > 0 then search target fuel low mid it
      else .ok it
    else it.seekTo low

/-- `BlockIterator::seek_to_key` -/
def BlockIterator.seekToKey (it : BlockIterator) (target : Bytes) : Except Error BlockIterator :=
  match it.block with
  | none => .ok it
  | some b => search target b.offsets.length 0 b.offsets.length it

/-- `BlockIterator::create_and_seek_to_first` -/
def BlockIterator.createAndSeekToFirst (block : Block) : Except Error BlockIterator := do
  let it ← BlockIterator.create block
  it.seekTo 0

/-- `BlockIterator::create_and_seek_to_key` -/
def BlockIterator.createAndSeekToKey (block : Block) (target : Bytes) :
    Except Error BlockIterator := do
  let it ← BlockIterator.create block
  it.seekToKey target

instance : Cursor BlockIterator Bytes Bytes Error where
  isValid := BlockIterator.isValid
  key := BlockIterator.key
  value := BlockIterator.value
  next := BlockIterator.next
  bound it := (it.block.map fun b => b.offsets.length).getD 0

/-! ## What a block stores -/

/-- An entry that the formats can store: a key of 1 to 65535 bytes and a value of at most 65535. -/
def Storable (e : Bytes × Bytes) : Prop :=
  e.1 ≠ [] ∧ e.1.length ≤ 65535 ∧ e.2.length ≤ 65535

/-- What is stored of a value: as many bytes as the low 16 bits of its length say. -/
def truncate (value : Bytes) : Bytes := value.take (value.length % 65536)

theorem length_truncate (value : Bytes) : (truncate value).length = value.length % 65536 := by
  rw [truncate, List.length_take]
  exact min_eq_left (Nat.mod_le _ _)

theorem truncate_eq {value : Bytes} (h : value.length ≤ 65535) : truncate value = value := by
  rw [truncate, Nat.mod_eq_of_lt (by omega), List.take_length]

theorem storable_truncate {key : Bytes} (hne : key ≠ []) (hlen : key.length ≤ 65535)
    (value : Bytes) : Storable (key, truncate value) := by
  refine ⟨hne, hlen, ?_⟩
  dsimp only
  rw [length_truncate]
  omega

/-- The first key of a list of entries, or the empty key. -/
def firstKey (es : List (Bytes × Bytes)) : Bytes := (es.head?.map Prod.fst).getD []

/-- The entry with index `i` in the block is `e`, with a prefix shared with the first key `fk`. -/
def Block.EntryAt (b : Block) (fk : Bytes) (i : ℕ) (e : Bytes × Bytes) : Prop :=
  ∃ pre post overlap, b.offsets[i]? = some pre.length ∧
    b.data = pre ++ (entryBytes overlap e.1 e.2 ++ post) ∧ overlap ≤ fk.length ∧
    overlap ≤ e.1.length ∧ fk.take overlap = e.1.take overlap

/-- The block stores the entries `es`, in this order. -/
structure Block.Holds (b : Block) (es : List (Bytes × Bytes)) : Prop where
  /-- There is one offset for each entry. -/
  length_offsets : b.offsets.length = es.length
  /-- Every entry fits the format. -/
  storable : ∀ e ∈ es, Storable e
  /-- The first entry, at the start of the buffer, has its key written out. -/
  first : ∀ e, es.head? = some e → ∃ post, b.data = entryBytes 0 e.1 e.2 ++ post
  /-- The entries stand where their offsets say. -/
  entryAt : ∀ i e, es[i]? = some e → b.EntryAt (firstKey es) i e

/-- A block whose offsets are all zero stores its first entry as often as it has offsets. -/
theorem Block.holds_replicate {e : Bytes × Bytes} (he : Storable e) (n : ℕ) (post : Bytes) :
    Block.Holds ⟨entryBytes 0 e.1 e.2 ++ post, List.replicate n 0⟩
      (List.replicate n e) where
  length_offsets := by simp
  storable e' he' := List.eq_of_mem_replicate he' ▸ he
  first e' he' := by
    obtain rfl : e' = e := List.eq_of_mem_replicate (List.mem_of_mem_head? he')
    exact ⟨post, rfl⟩
  entryAt i e' he' := by
    obtain ⟨hi, rfl⟩ := List.getElem?_eq_some_iff.mp he'
    rw [List.length_replicate] at hi
    refine ⟨[], post, 0, ?_, ?_, Nat.zero_le _, Nat.zero_le _, rfl⟩
    · simp [hi]
    · simp

/-! ## The builder -/

/-- The common prefix is no longer than either key, and it is common. -/
theorem computeOverlap_spec (a b : Bytes) :
    computeOverlap a b ≤ a.length ∧ computeOverlap a b ≤ b.length ∧
      a.take (computeOverlap a b) = b.take (computeOverlap a b) := by
  induction a generalizing b with
  | nil => simp [computeOverlap]
  | cons x a ih =>
    cases b with
    | nil => simp [computeOverlap]
    | cons y b =>
      obtain ⟨h1, h2, h3⟩ := ih b
      by_cases hxy : x = y
      · simp [computeOverlap, hxy, h1, h2, h3]
      · simp [computeOverlap, hxy]

/-- An entry stays where it is when the buffer and the offsets grow at the end. -/
theorem Block.EntryAt.append {b : Block} {fk : Bytes} {i : ℕ} {e : Bytes × Bytes}
    (h : b.EntryAt fk i e) (more : Bytes) (offs : List ℕ) :
    Block.EntryAt ⟨b.data ++ more, b.offsets ++ offs⟩ fk i e := by
  obtain ⟨pre, post, overlap, ho, hd, h1, h2, h3⟩ := h
  refine ⟨pre, post ++ more, overlap, ?_, by simp [hd], h1, h2, h3⟩
  rw [List.getElem?_append_left]
  · exact ho
  · exact (List.getElem?_eq_some_iff.mp ho).1

/-- The builder has accepted the entries `es`, few enough for 16-bit offsets and counts. -/
structure BlockBuilder.Holds (b : BlockBuilder) (es : List (Bytes × Bytes)) : Prop where
  block : b.build.Holds es
  data_nil : es = [] → b.data = []
  first_key : b.first_key = firstKey es
  length_le : b.offsets.length ≤ 32768
  offsets_lt : ∀ o ∈ b.offsets, o < 65536
  block_size : b.block_size ≤ 65536

/-- A new builder has accepted nothing. -/
theorem BlockBuilder.create_holds {block_size : ℕ} (h : block_size ≤ 65536) :
    (BlockBuilder.create block_size).Holds [] :=
  ⟨⟨rfl, by simp, by simp, by simp⟩, fun _ => rfl, rfl, by simp [create], by simp [create], h⟩

theorem BlockBuilder.Holds.isEmpty_iff {b : BlockBuilder} {es : List (Bytes × Bytes)}
    (h : b.Holds es) : b.isEmpty = true ↔ es = [] := by
  rw [isEmpty, List.isEmpty_iff_length_eq_zero, ← List.length_eq_zero_iff, ← h.block.length_offsets]
  rfl

/-- A first entry is always accepted. -/
theorem BlockBuilder.add_of_isEmpty {b : BlockBuilder} (h : b.isEmpty = true) (key value : Bytes) :
    ∃ b', b.add key value = some b' := by
  simp [add, h]

/-- The first key of a list that grows at its end is that of its first entry. -/
theorem firstKey_append {es : List (Bytes × Bytes)} (h : es ≠ []) (e : Bytes × Bytes) :
    firstKey (es ++ [e]) = firstKey es := by
  cases es with
  | nil => exact absurd rfl h
  | cons _ _ => rfl

/-- Where an entry is accepted, the buffer is short enough for its offset, and the count stays
small. -/
theorem BlockBuilder.Holds.room {b b' : BlockBuilder} {es : List (Bytes × Bytes)}
    {key value : Bytes} (h : b.Holds es) (ha : b.add key value = some b') :
    b.data.length < 65536 ∧ b.offsets.length + 1 ≤ 32768 := by
  have hlen : b.offsets.length = es.length := h.block.length_offsets
  have hempty := h.isEmpty_iff
  have hbs := h.block_size
  simp only [add] at ha
  split at ha
  · cases ha
  rename_i hfull
  by_cases he : es = []
  · simp [h.data_nil he, hlen, he]
  · have hne : b.isEmpty = false := by simpa [he] using hempty
    simp only [hne, and_true, not_lt, gt_iff_lt] at hfull
    omega

/-- The length of a value keeps its low 16 bits: the rest of the value stands behind the entry. -/
theorem entryBytes_truncate (overlap : ℕ) (key value : Bytes) :
    entryBytes overlap key value =
      entryBytes overlap key (truncate value) ++ value.drop (value.length % 65536) := by
  have hput : putU16 value.length = putU16 (truncate value).length := by
    rw [length_truncate]
    exact (BigEndian.put_mod 2 value.length).symm
  rw [entryBytes, entryBytes, hput]
  simp only [List.append_assoc, truncate, List.take_append_drop]

/-- An accepted entry is stored behind those accepted before it, with its value truncated to the low
16 bits of its length. -/
theorem BlockBuilder.add_holds_truncate {b b' : BlockBuilder} {es : List (Bytes × Bytes)}
    {key value : Bytes} (h : b.Holds es) (hs : Storable (key, truncate value))
    (ha : b.add key value = some b') :
    b'.Holds (es ++ [(key, truncate value)]) ∧ b'.block_size = b.block_size := by
  have hlen : b.offsets.length = es.length := h.block.length_offsets
  obtain ⟨ho1, ho2, ho3⟩ := computeOverlap_spec b.first_key key
  have hroom := h.room ha
  simp only [add] at ha
  split at ha
  · cases ha
  cases ha
  -- The first entry sets the first key, of which nothing is shared yet.
  have hfk : (if b.first_key.isEmpty then key else b.first_key) = firstKey (es ++ [(key, truncate value)]) ∧
      (es = [] → computeOverlap b.first_key key = 0) := by
    by_cases he : es = []
    · rw [h.first_key, he]
      exact ⟨rfl, fun _ => rfl⟩
    · refine ⟨?_, fun hn => absurd hn he⟩
      rw [firstKey_append he, if_neg, h.first_key]
      obtain ⟨e, hmem⟩ := List.exists_mem_of_ne_nil es he
      obtain ⟨e0, es0, rfl⟩ := List.exists_cons_of_ne_nil he
      have := (h.block.storable e0 (by simp)).1
      simpa [h.first_key, firstKey] using this
  refine ⟨⟨⟨?_, ?_, ?_, ?_⟩, by simp, hfk.1, ?_, ?_, h.block_size⟩, rfl⟩
  · simp [build, hlen]
  · intro e he
    rcases List.mem_append.mp he with he | he
    · exact h.block.storable e he
    · obtain rfl : e = (key, truncate value) := by simpa using he
      exact hs
  -- The block begins with its first entry, which no later one moves.
  · intro e he
    by_cases hes : es = []
    · obtain rfl : (key, truncate value) = e := by simpa [hes] using he
      refine ⟨value.drop (value.length % 65536), ?_⟩
      rw [← entryBytes_truncate]
      simp [build, h.data_nil hes, hfk.2 hes]
    · obtain ⟨post, hd⟩ := h.block.first e (by
        obtain ⟨e0, es0, rfl⟩ := List.exists_cons_of_ne_nil hes
        simpa using he)
      refine ⟨post ++ entryBytes (computeOverlap b.first_key key) key value, ?_⟩
      have hd' : b.data = entryBytes 0 e.1 e.2 ++ post := hd
      simp [build, hd']
  · intro i e he
    rcases lt_or_ge i es.length with hi | hi
    · -- An earlier entry keeps its place.
      rw [List.getElem?_append_left hi] at he
      have hes : es ≠ [] := by
        rintro rfl
        simp at hi
      rw [firstKey_append hes]
      exact (h.block.entryAt i e he).append _ _
    · -- The new entry stands at the end of the old buffer.
      rw [List.getElem?_append_right hi, List.getElem?_singleton] at he
      split_ifs at he with hi0
      cases he
      have hi' : i = b.offsets.length := by omega
      refine ⟨b.data, value.drop (value.length % 65536), computeOverlap b.first_key key, ?_, ?_, ?_,
        ho2, ?_⟩
      · simp [build, hi', Nat.mod_eq_of_lt hroom.1]
      · rw [← entryBytes_truncate]
        rfl
      · by_cases hes : es = []
        · simp [hfk.2 hes]
        · rw [firstKey_append hes, ← h.first_key]
          exact ho1
      · by_cases hes : es = []
        · simp [hfk.2 hes]
        · rw [firstKey_append hes, ← h.first_key]
          exact ho3
  · simpa using hroom.2
  · intro o ho
    rcases List.mem_append.mp ho with ho | ho
    · exact h.offsets_lt o ho
    · obtain rfl : o = b.data.length % 65536 := by simpa using ho
      exact Nat.mod_lt _ (by norm_num)

/-- An accepted entry is stored behind those accepted before it. -/
theorem BlockBuilder.add_holds {b b' : BlockBuilder} {es : List (Bytes × Bytes)} {key value : Bytes}
    (h : b.Holds es) (hs : Storable (key, value)) (ha : b.add key value = some b') :
    b'.Holds (es ++ [(key, value)]) ∧ b'.block_size = b.block_size := by
  have htr : truncate value = value := truncate_eq hs.2.2
  have hholds := add_holds_truncate h (by rwa [htr]) ha
  rwa [htr] at hholds

/-! ## The encoding -/

/-- The offsets read back from where they were written. -/
theorem readOffsets_append (offsets : List ℕ) (h : ∀ o ∈ offsets, o < 65536) (pre post : Bytes)
    {pos : ℕ} (hpos : pos = pre.length) :
    readOffsets (pre ++ ((offsets.map putU16).flatten ++ post)) pos offsets.length =
      .ok offsets := by
  induction offsets generalizing pre pos with
  | nil => rfl
  | cons o offsets ih =>
    have hsplit : pre ++ (((o :: offsets).map putU16).flatten ++ post) =
        pre ++ (putU16 o ++ ((offsets.map putU16).flatten ++ post)) := by simp
    have hih := ih (fun o' ho' => h o' (by simp [ho'])) (pre ++ putU16 o)
      (show pos + 2 = (pre ++ putU16 o).length by simp [hpos])
    rw [hsplit, List.length_cons, readOffsets, readU16_append o pre _ hpos (h o (by simp))]
    rw [List.append_assoc] at hih
    simp only [bind, Except.bind, hih]

/-- `decode` undoes `encode` on a block whose offsets and count are 16-bit numbers. -/
theorem Block.decode_encode {b : Block} (ho : ∀ o ∈ b.offsets, o < 65536)
    (hn : b.offsets.length < 65536) : Block.decode b.encode = .ok b := by
  have hflat : ((b.offsets.map putU16).flatten).length = b.offsets.length * 2 := by
    induction b.offsets with
    | nil => rfl
    | cons o os ih => simp [ih]; omega
  have hlen : b.encode.length = b.data.length + b.offsets.length * 2 + 2 := by
    simp only [encode, List.length_append, hflat, length_putU16]
    omega
  have hcount : readU16 b.encode (b.encode.length - 2) = .ok b.offsets.length := by
    have hpos : b.encode.length - 2 = (b.data ++ (b.offsets.map putU16).flatten).length := by
      simp only [List.length_append, hflat]
      omega
    have hread := readU16_append b.offsets.length (b.data ++ (b.offsets.map putU16).flatten) [] hpos hn
    simpa [encode] using hread
  have hend : b.encode.length - 2 - b.offsets.length * 2 = b.data.length := by omega
  have hoffs : readOffsets b.encode b.data.length b.offsets.length = .ok b.offsets :=
    readOffsets_append b.offsets ho b.data _ rfl
  have htake : b.encode.take b.data.length = b.data := by simp [encode]
  rw [decode, if_neg (by omega), hcount]
  simp only [bind, Except.bind]
  rw [if_neg (by omega), hend, hoffs, htake]

/-! ## The iterator -/

/-- The iterator is over a block that stores `es`, with the block's first key read. -/
def BlockIterator.Over (it : BlockIterator) (b : Block) (es : List (Bytes × Bytes)) : Prop :=
  it.block = some b ∧ it.first_key = firstKey es ∧ b.Holds es

/-- A part of a buffer is read from where it stands. -/
theorem slice_append (pre mid post : Bytes) {pos len : ℕ} (hpos : pos = pre.length)
    (hlen : len = mid.length) : slice (pre ++ (mid ++ post)) pos len = .ok mid := by
  subst hpos hlen
  rw [slice, if_pos (by simp), List.drop_left, List.take_left]

/-- `seek_to_offset` reads the entry that stands at the offset. -/
theorem BlockIterator.seekToOffset_spec {it : BlockIterator} {b : Block} {i : ℕ}
    {e : Bytes × Bytes} (hb : it.block = some b) (hs : Storable e) (h : b.EntryAt it.first_key i e) :
    ∃ offset it', b.offsets[i]? = some offset ∧ it.seekToOffset b offset = .ok it' ∧
      it'.block = it.block ∧ it'.first_key = it.first_key ∧ it'.idx = it.idx ∧ it'.key = e.1 ∧
      it'.value = e.2 := by
  obtain ⟨pre, post, overlap, ho, hd, h1, h2, h3⟩ := h
  obtain ⟨k, v⟩ := e
  obtain ⟨-, hk, hv⟩ := hs
  simp only [entryBytes] at hk hv h2 h3 hd
  have r1 : readU16 b.data pre.length = .ok overlap := by
    rw [hd, List.append_assoc]
    exact readU16_append _ pre _ rfl (by omega)
  have r2 : readU16 b.data (pre.length + 2) = .ok (k.length - overlap) := by
    have := readU16_append (k.length - overlap) (pre ++ putU16 overlap)
      (k.drop overlap ++ (putU16 v.length ++ v) ++ post)
      (show pre.length + 2 = (pre ++ putU16 overlap).length by simp) (by omega)
    simpa [hd] using this
  have s1 : slice it.first_key 0 overlap = .ok (k.take overlap) := by
    rw [slice, if_pos (by omega), List.drop_zero, h3]
  have s2 : slice b.data (pre.length + 4) (k.length - overlap) = .ok (k.drop overlap) := by
    have := slice_append (pre ++ putU16 overlap ++ putU16 (k.length - overlap)) (k.drop overlap)
      (putU16 v.length ++ v ++ post)
      (show pre.length + 4 = (pre ++ putU16 overlap ++ putU16 (k.length - overlap)).length by simp)
      (show k.length - overlap = (k.drop overlap).length by simp)
    simpa [hd] using this
  have hpos : pre.length + 4 + (k.length - overlap) =
      (pre ++ putU16 overlap ++ putU16 (k.length - overlap) ++ k.drop overlap).length := by
    simp only [List.length_append, length_putU16, List.length_drop]
  have r3 : readU16 b.data (pre.length + 4 + (k.length - overlap)) = .ok v.length := by
    have := readU16_append v.length _ (v ++ post) hpos (by omega)
    simpa [hd] using this
  have hval : (b.data.drop (pre.length + 4 + (k.length - overlap) + 2)).take v.length = v := by
    have hdata : b.data = (pre ++ putU16 overlap ++ putU16 (k.length - overlap) ++ k.drop overlap ++
        putU16 v.length) ++ (v ++ post) := by simp [hd]
    rw [hdata, hpos, ← length_putU16 v.length, ← List.length_append, List.drop_left,
      List.take_left]
  have hkey : k.take overlap ++ k.drop overlap = k := List.take_append_drop overlap k
  refine ⟨pre.length, { it with
    key := k
    value_start := pre.length + 4 + (k.length - overlap) + 2
    value_len := v.length }, ho, ?_, rfl, rfl, rfl, rfl, ?_⟩
  · simp only [seekToOffset, r1, r2, s1, s2, r3, bind, Except.bind, hkey]
  · simp only [value, hb, hval]

/-- `seek_to` an index in range reads the entry at its offset. -/
theorem BlockIterator.seekTo_eq {it : BlockIterator} {b : Block} {i offset : ℕ}
    (hb : it.block = some b) (ho : b.offsets[i]? = some offset) :
    it.seekTo i = { it with idx := i }.seekToOffset b offset := by
  obtain ⟨block, key, value_start, value_len, idx, first_key⟩ := it
  cases hb
  simp only [seekTo, Option.bind_some, ho, Option.map_some]

/-- `seek_to` an index in range shows the entry with that index. -/
theorem BlockIterator.Over.seekTo {it : BlockIterator} {b : Block} {es : List (Bytes × Bytes)}
    (h : it.Over b es) {i : ℕ} {e : Bytes × Bytes} (he : es[i]? = some e) :
    ∃ it', it.seekTo i = .ok it' ∧ it'.Over b es ∧ it'.idx = i ∧ it'.key = e.1 ∧
      it'.value = e.2 := by
  obtain ⟨hb, hfk, hh⟩ := h
  have hent : b.EntryAt { it with idx := i }.first_key i e := by
    simp only [hfk]
    exact hh.entryAt i e he
  obtain ⟨offset, it', ho, hseek, hb', hfk', hidx, hkey, hval⟩ :=
    seekToOffset_spec (show { it with idx := i }.block = some b from hb)
      (hh.storable e (List.mem_of_getElem? he)) hent
  refine ⟨it', ?_, ⟨hb'.trans hb, hfk'.trans hfk, hh⟩, hidx, hkey, hval⟩
  rw [seekTo_eq hb ho, hseek]

/-- `seek_to` an index past the last entry leaves the iterator without an entry. -/
theorem BlockIterator.Over.seekTo_end {it : BlockIterator} {b : Block} {es : List (Bytes × Bytes)}
    (h : it.Over b es) {i : ℕ} (hi : es.length ≤ i) :
    ∃ it', it.seekTo i = .ok it' ∧ it'.isValid = false := by
  obtain ⟨hb, -, hh⟩ := h
  have ho : b.offsets[i]? = none := by
    rw [List.getElem?_eq_none_iff, hh.length_offsets]
    exact hi
  refine ⟨{ it with key := [], value_start := 0, value_len := 0 }, ?_, rfl⟩
  simp only [BlockIterator.seekTo, hb, Option.bind_some, ho, Option.map_none]

/-- At an entry, the iterator is valid, within its bound, and has the rest of the entries ahead. -/
theorem BlockIterator.Over.at_entry {it : BlockIterator} {b : Block} {es : List (Bytes × Bytes)}
    (h : it.Over b es) {e : Bytes × Bytes} {rest : List (Bytes × Bytes)}
    (hd : es.drop it.idx = e :: rest) (hk : it.key = e.1) :
    it.isValid = true ∧ rest.length < Cursor.bound it ∧
      es.length = it.idx + (rest.length + 1) ∧ es.drop (it.idx + 1) = rest := by
  have hlen : es.length = it.idx + (rest.length + 1) := by
    have := congrArg List.length hd
    simp only [List.length_drop, List.length_cons] at this
    omega
  refine ⟨?_, ?_, hlen, ?_⟩
  · have hmem : e ∈ es := List.mem_of_mem_drop (hd ▸ List.mem_cons_self)
    simpa [isValid, hk] using (h.2.2.storable e hmem).1
  · simp only [Cursor.bound, h.1, Option.map_some, Option.getD_some, h.2.2.length_offsets]
    omega
  · rw [← List.drop_drop, hd]
    rfl

/-- An iterator at an entry yields the entries from there on. -/
theorem BlockIterator.Over.yields {b : Block} {es : List (Bytes × Bytes)} {e : Bytes × Bytes}
    {rest : List (Bytes × Bytes)} {it : BlockIterator} (h : it.Over b es)
    (hd : es.drop it.idx = e :: rest) (hk : it.key = e.1) (hv : it.value = e.2) :
    Yields it (e :: rest) := by
  induction rest generalizing it e with
  | nil =>
    obtain ⟨hvalid, hbound, hlen, -⟩ := h.at_entry hd hk
    obtain ⟨it', hn, hinv⟩ := seekTo_end (show Over { it with idx := it.idx + 1 } b es from h)
      (show es.length ≤ it.idx + 1 by simpa using hlen.le)
    exact Yields.cons_of hvalid hk hv hn hbound (.nil hinv)
  | cons e' rest ih =>
    obtain ⟨hvalid, hbound, -, htail⟩ := h.at_entry hd hk
    have he' : es[it.idx + 1]? = some e' := by
      rw [← List.head?_drop, htail]
      rfl
    obtain ⟨it', hn, hover', hidx, hk', hv'⟩ :=
      seekTo (show Over { it with idx := it.idx + 1 } b es from h) he'
    exact Yields.cons_of hvalid hk hv hn hbound (ih hover' (by rw [hidx, htail]) hk' hv')

/-- The constructor reads the first key of a block that has entries. -/
theorem BlockIterator.create_spec {b : Block} {es : List (Bytes × Bytes)} (h : b.Holds es) :
    ∃ it, BlockIterator.create b = .ok it ∧ it.Over b es := by
  rcases es with _ | ⟨⟨k, v⟩, es⟩
  · have ho : b.offsets = [] := List.length_eq_zero_iff.mp h.length_offsets
    exact ⟨⟨some b, [], 0, 0, 0, []⟩, by simp [create, ho], rfl, rfl, h⟩
  · obtain ⟨post, hd⟩ := h.first (k, v) rfl
    obtain ⟨-, hk, -⟩ := h.storable (k, v) (by simp)
    simp only [entryBytes, Nat.sub_zero, List.drop_zero] at hd hk
    have hne : b.offsets.isEmpty = false := by
      rw [List.isEmpty_eq_false_iff, ← List.length_pos_iff, h.length_offsets]
      simp
    have r1 : readU16 b.data 0 = .ok 0 := by
      have := readU16_append 0 [] (putU16 k.length ++ (k ++ (putU16 v.length ++ v)) ++ post)
        (show 0 = ([] : Bytes).length from rfl) (by norm_num)
      simpa [hd] using this
    have r2 : readU16 b.data 2 = .ok k.length := by
      have := readU16_append k.length (putU16 0) (k ++ (putU16 v.length ++ v) ++ post)
        (show 2 = (putU16 0).length by simp) (by omega)
      simpa [hd] using this
    have s1 : slice b.data 4 k.length = .ok k := by
      have := slice_append (putU16 0 ++ putU16 k.length) k (putU16 v.length ++ v ++ post)
        (show 4 = (putU16 0 ++ putU16 k.length).length by simp) rfl
      simpa [hd] using this
    refine ⟨⟨some b, [], 0, 0, 0, k⟩, ?_, rfl, rfl, h⟩
    simp only [create, hne, r1, r2, s1, bind, Except.bind]
    rfl

/-- `seek_to` an index yields the entries from that index on. -/
theorem BlockIterator.Over.seekTo_yields {it : BlockIterator} {b : Block}
    {es : List (Bytes × Bytes)} (h : it.Over b es) (i : ℕ) :
    ∃ it', it.seekTo i = .ok it' ∧ Yields it' (es.drop i) := by
  rcases hi : es[i]? with _ | e
  · have hle : es.length ≤ i := List.getElem?_eq_none_iff.mp hi
    obtain ⟨it', hn, hinv⟩ := h.seekTo_end hle
    exact ⟨it', hn, by rw [List.drop_eq_nil_of_le hle]; exact .nil hinv⟩
  · obtain ⟨it', hn, hover, hidx, hk, hv⟩ := h.seekTo hi
    obtain ⟨hlt, rfl⟩ := List.getElem?_eq_some_iff.mp hi
    have hdrop : es.drop i = es[i] :: es.drop (i + 1) := List.drop_eq_getElem_cons hlt
    refine ⟨it', hn, ?_⟩
    rw [hdrop]
    exact hover.yields (by rw [hidx, hdrop]) hk hv

/-- `seek_to` stays over the block, wherever it goes. -/
theorem BlockIterator.Over.of_seekTo {it : BlockIterator} {b : Block} {es : List (Bytes × Bytes)}
    (h : it.Over b es) (i : ℕ) : ∃ it', it.seekTo i = .ok it' ∧ it'.Over b es := by
  rcases hi : es[i]? with _ | e
  · have ho : b.offsets[i]? = none := by
      rw [List.getElem?_eq_none_iff, h.2.2.length_offsets]
      exact List.getElem?_eq_none_iff.mp hi
    refine ⟨{ it with key := [], value_start := 0, value_len := 0 }, ?_, h⟩
    simp only [BlockIterator.seekTo, h.1, Option.bind_some, ho, Option.map_none]
  · obtain ⟨it', hn, hover, -⟩ := h.seekTo hi
    exact ⟨it', hn, hover⟩

/-- The binary search stays over the block. -/
theorem BlockIterator.Over.of_search {b : Block} {es : List (Bytes × Bytes)} (target : Bytes)
    (fuel low high : ℕ) {it it' : BlockIterator} (h : it.Over b es)
    (hs : search target fuel low high it = .ok it') : it'.Over b es := by
  have hseek : ∀ {it it' : BlockIterator} {i : ℕ}, it.Over b es → it.seekTo i = .ok it' →
      it'.Over b es := by
    intro it it' i h hs
    obtain ⟨it₁, hn, hover⟩ := h.of_seekTo i
    rw [hn] at hs
    cases hs
    exact hover
  induction fuel generalizing low high it with
  | zero => exact hseek h hs
  | succ fuel ih =>
    rw [search] at hs
    split_ifs at hs with hlt
    · obtain ⟨it₁, hn, hs⟩ := bind_eq_ok.mp hs
      have hover := hseek h hn
      dsimp only at hs
      split_ifs at hs with hcmp hcmp
      · exact ih _ _ hover hs
      · exact ih _ _ hover hs
      · cases hs
        exact hover
    · exact hseek h hs

/-- `create_and_seek_to_first` yields the entries of the block. -/
theorem BlockIterator.createAndSeekToFirst_yields {b : Block} {es : List (Bytes × Bytes)}
    (h : b.Holds es) : ∃ it, BlockIterator.createAndSeekToFirst b = .ok it ∧ Yields it es := by
  obtain ⟨it, hc, hover⟩ := create_spec h
  obtain ⟨it', hn, hy⟩ := hover.seekTo_yields 0
  exact ⟨it', by simp only [createAndSeekToFirst, hc, hn, bind, Except.bind], hy⟩

/-- The binary search, from a range outside of which the keys are known to be below and above the
target, ends at the first entry that is not below the target. -/
theorem BlockIterator.search_yields {b : Block} {es : List (Bytes × Bytes)}
    (hsort : Assoc.Sorted es) (target : Bytes) (fuel low high : ℕ) {it : BlockIterator}
    (h : it.Over b es) (hfuel : high - low ≤ fuel) (hhigh : high ≤ es.length)
    (hlow : ∀ j p, es[j]? = some p → j < low → p.1 < target)
    (habove : ∀ j p, es[j]? = some p → high ≤ j → target ≤ p.1) (hle : low ≤ high) :
    ∃ it', search target fuel low high it = .ok it' ∧
      Yields it' (Assoc.seek target es) := by
  -- By induction on the fuel, of which the width of the range is enough: the keys below `low` are
  -- too small, and those from `high` on are not.
  induction fuel generalizing low high it with
  | zero =>
    obtain rfl : low = high := by omega
    rw [← Assoc.drop_eq_seek hlow habove]
    exact h.seekTo_yields low
  | succ fuel ih =>
    by_cases hlt : low < high
    · rw [search, if_pos hlt]
      obtain ⟨mid, hmid⟩ : ∃ mid, mid = low + (high - low) / 2 := ⟨_, rfl⟩
      rw [← hmid]
      have hget : es[mid]? = some es[mid] := List.getElem?_eq_getElem (by omega)
      obtain ⟨it', hn, hover, hidx, hk, hv⟩ := h.seekTo hget
      simp only [hn, bind, Except.bind, hk]
      rcases compare_spec es[mid].1 target with ⟨hcmp, e⟩ | ⟨hcmp, e⟩ | ⟨hcmp, e⟩
      · -- The middle key is below the target, and so are all before it.
        rw [e, if_pos (by norm_num)]
        refine ih (mid + 1) high hover (by omega) hhigh ?_ habove (by omega)
        intro j p hp hj
        rcases Nat.lt_succ_iff_lt_or_eq.mp hj with hj | rfl
        · exact (hsort.lt_of_getElem? hp hget hj).trans hcmp
        · rw [hget] at hp
          cases hp
          exact hcmp
      · -- The middle key is the target.
        rw [e, if_neg (by norm_num), if_neg (by norm_num)]
        refine ⟨it', rfl, ?_⟩
        rw [← Assoc.drop_eq_seek (i := mid)]
        · have hdrop : es.drop mid = es[mid] :: es.drop (mid + 1) := List.drop_eq_getElem_cons _
          rw [hdrop]
          exact hover.yields (by rw [hidx, hdrop]) hk hv
        · intro j p hp hj
          exact hcmp ▸ hsort.lt_of_getElem? hp hget hj
        · intro j p hp hj
          rcases hj.lt_or_eq with hj | rfl
          · exact hcmp ▸ (hsort.lt_of_getElem? hget hp hj).le
          · rw [hget] at hp
            cases hp
            exact hcmp.ge
      · -- The middle key is above the target, and so are all after it.
        rw [e, if_neg (by norm_num), if_pos (by norm_num)]
        refine ih low mid hover (by omega) (by omega) hlow ?_ (by omega)
        intro j p hp hj
        rcases hj.lt_or_eq with hj | rfl
        · exact (hcmp.trans (hsort.lt_of_getElem? hget hp hj)).le
        · rw [hget] at hp
          cases hp
          exact hcmp.le
    · obtain rfl : low = high := by omega
      rw [search, if_neg hlt, ← Assoc.drop_eq_seek hlow habove]
      exact h.seekTo_yields low

/-- `seek_to_key` yields the entries of a sorted block from the target on. -/
theorem BlockIterator.Over.seekToKey_yields {it : BlockIterator} {b : Block}
    {es : List (Bytes × Bytes)} (h : it.Over b es) (hsort : Assoc.Sorted es) (target : Bytes) :
    ∃ it', it.seekToKey target = .ok it' ∧ Yields it' (Assoc.seek target es) := by
  have hlen : b.offsets.length = es.length := h.2.2.length_offsets
  obtain ⟨it', hs, hy⟩ := search_yields hsort target es.length 0 es.length h (by simp) le_rfl
    (by simp) (fun j p hp hj => absurd hp (by rw [List.getElem?_eq_none_iff.mpr hj]; simp))
    (Nat.zero_le _)
  refine ⟨it', ?_, hy⟩
  simp only [seekToKey, h.1, hlen, hs]

/-- `create_and_seek_to_key` yields the entries of a sorted block from the target on. -/
theorem BlockIterator.createAndSeekToKey_yields {b : Block} {es : List (Bytes × Bytes)}
    (h : b.Holds es) (hsort : Assoc.Sorted es) (target : Bytes) :
    ∃ it, BlockIterator.createAndSeekToKey b target = .ok it ∧
      Yields it (Assoc.seek target es) := by
  obtain ⟨it, hc, hover⟩ := create_spec h
  obtain ⟨it', hs, hy⟩ := hover.seekToKey_yields hsort target
  refine ⟨it', ?_, hy⟩
  rw [createAndSeekToKey, hc, ok_bind, hs]

end MiniLsm
