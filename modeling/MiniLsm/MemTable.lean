import MiniLsm.Iterators

/-!
# The write-ahead log and the memtable

`Wal` of `src/wal.cpp` and `MemTable` of `src/mem_table.cpp`. A memtable is a sorted map from keys
to values, and each write goes to the log first where there is one. The log file is named by the
memtable's identifier, so that the handle in the memtable holds only the bytes handed to `fwrite`
that have not been passed on to the file.

A `write`, `fwrite`, or `fopen` that fails is left out: the calls succeed.
-/

namespace MiniLsm

/-! ## `Wal` -/

/-- `Wal`, open for appending: the bytes still in the buffer of its stream. -/
structure Wal where
  buffered : Bytes
  deriving DecidableEq

namespace Wal

/-- The frame that `Wal::put` appends. The lengths are cast to 16 bits. -/
def frame (E : Extern) (key value : Bytes) : Bytes :=
  let content := putU16 key.length ++ (key ++ (putU16 value.length ++ value))
  content ++ putU32 (crc32Hash E content)

/-- `Wal::put` -/
def put (E : Extern) (w : Wal) (key value : Bytes) : Wal := ⟨w.buffered ++ frame E key value⟩

/-- `Wal::put_batch`, which fills a buffer with the frames first. -/
def putBatch (E : Extern) (w : Wal) (batch : List (Bytes × Bytes)) : Wal :=
  ⟨w.buffered ++ batch.foldl (fun buffer r => buffer ++ frame E r.1 r.2) []⟩

/-- One round of the loop in `Wal::recover`: the record at `pos` and the position behind it, or
nothing where the loop breaks. -/
def recoverFrame (E : Extern) (buf : Bytes) (pos : ℕ) : Option ((Bytes × Bytes) × ℕ) :=
  if buf.length - pos < 2 then none else
  let key_len := BigEndian.get ((buf.drop pos).take 2)
  if buf.length - pos < 2 + key_len + 2 then none else
  let val_len := BigEndian.get ((buf.drop (pos + 2 + key_len)).take 2)
  let frame_content_len := 2 + key_len + 2 + val_len
  if buf.length - pos < frame_content_len + 4 then none else
  let computed_crc := crc32Hash E ((buf.drop pos).take frame_content_len)
  let expected_crc := BigEndian.get ((buf.drop (pos + frame_content_len)).take 4)
  if computed_crc ≠ expected_crc then none else
  some (((buf.drop (pos + 2)).take key_len, (buf.drop (pos + 2 + key_len + 2)).take val_len),
    pos + frame_content_len + 4)

/-- The loop in `Wal::recover`, with a number of rounds: the records, and the length of the file
that is kept. -/
def recoverLoop (E : Extern) (buf : Bytes) : ℕ → ℕ → List (Bytes × Bytes) × ℕ
  | 0, pos => ([], pos)
  | n + 1, pos =>
    if pos < buf.length then
      match recoverFrame E buf pos with
      | none => ([], pos)
      | some (rec, pos') =>
        let (records, len) := recoverLoop E buf n pos'
        (rec :: records, len)
    else ([], pos)

/-- `Wal::recover` on the contents of the file: the records and the contents after truncation. Each
round of the loop moves on in the file. -/
def recover (E : Extern) (buf : Bytes) : List (Bytes × Bytes) × Bytes :=
  let (records, len) := recoverLoop E buf buf.length 0
  (records, buf.take len)

end Wal

/-! ## `MemTable` -/

/-- `MemTable`. `map` is the `std::map`, in the order of its iteration. -/
structure MemTable where
  id : ℕ
  map : List (Bytes × Bytes)
  approximate_size : ℕ
  wal : Option Wal
  deriving DecidableEq

namespace MemTable

/-- The constructor of `MemTable` without a log. -/
def create (id : ℕ) : MemTable := ⟨id, [], 0, none⟩

/-- `MemTable::create_with_wal`; its file is empty. -/
def createWithWal (id : ℕ) : MemTable := ⟨id, [], 0, some ⟨[]⟩⟩

/-- The second part of `MemTable::put`, which holds the lock of the memtable. -/
def insert (m : MemTable) (key value : Bytes) : MemTable :=
  { m with
    map := Assoc.insert key value m.map
    approximate_size := m.approximate_size + (key.length + value.length) }

/-- `MemTable::put` -/
def put (E : Extern) (m : MemTable) (key value : Bytes) : MemTable :=
  { insert m key value with wal := m.wal.map fun w => w.put E key value }

/-- `MemTable::recover_from_wal` on the contents of the file. -/
def recoverFromWal (E : Extern) (id : ℕ) (buf : Bytes) : MemTable :=
  (Wal.recover E buf).1.foldl (fun m r => insert m r.1 r.2) (createWithWal id)

/-- `MemTable::get` -/
def get (m : MemTable) (key : Bytes) : Option Bytes := Assoc.lookup key m.map

/-- `MemTable::is_empty` -/
def isEmpty (m : MemTable) : Bool := m.map.isEmpty

/-- `MemTable::flush` -/
def flush (E : Extern) (m : MemTable) (builder : SsTableBuilder) : SsTableBuilder :=
  m.map.foldl (fun b r => b.add E r.1 r.2) builder

/-- The entries from the lower bound on: those from `std::map::begin`, `lower_bound`, or
`upper_bound` on. -/
def fromLower (lower : Bound) (map : List (Bytes × Bytes)) : List (Bytes × Bytes) :=
  match lower with
  | .unbounded => map
  | .included key => Assoc.seek key map
  | .excluded key => map.dropWhile fun p => p.1 ≤ key

/-- The entries up to where the loop of the constructor of `MemTableIterator` breaks. -/
def toUpper (upper : Bound) (map : List (Bytes × Bytes)) : List (Bytes × Bytes) :=
  match upper with
  | .unbounded => map
  | .included key => map.takeWhile fun p => !decide (key < p.1)
  | .excluded key => map.takeWhile fun p => !decide (key ≤ p.1)

end MemTable

/-- `MemTableIterator`, past the entries of its snapshot that it has shown. -/
structure MemTableIterator where
  snapshot : List (Bytes × Bytes)
  deriving DecidableEq

/-- `MemTable::scan` -/
def MemTable.scan (m : MemTable) (lower upper : Bound) : MemTableIterator :=
  ⟨toUpper upper (fromLower lower m.map)⟩

instance : Cursor MemTableIterator Bytes Bytes Error where
  isValid it := !it.snapshot.isEmpty
  key it := (it.snapshot.head?.map Prod.fst).getD []
  value it := (it.snapshot.head?.map Prod.snd).getD []
  next it := .ok ⟨it.snapshot.tail⟩
  bound it := it.snapshot.length

end MiniLsm
