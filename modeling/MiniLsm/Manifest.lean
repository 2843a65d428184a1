import MiniLsm.Compact

/-!
# The manifest

The records of `include/mini_lsm/manifest.h`, their JSON forms (`to_json` and `from_json` of
`src/manifest.cpp` and `src/compact.cpp`), and the file of framed records that `Manifest` writes and
recovers. The text of a JSON value is the business of another library: `JsonCodec` stands for
`dump` and `parse`.

`ManifestFile` is the file and the offset of its descriptor. `write` starts at the offset and moves
it; `pread`, by which `recover` reads, does not.

The store uses the manifest through `ManifestIO`, of which the file is one instance.
-/

namespace MiniLsm

/-- `ManifestRecord` -/
inductive ManifestRecord where
  | flush (sst_id : ℕ)
  | newMemtable (mem_id : ℕ)
  | compaction (task : CompactionTask) (output_sst_ids : List ℕ)
  deriving DecidableEq

/-! ## JSON -/

/-- A value of `nlohmann::json`, as far as the code makes them. An object lists its members in the
order of their names. -/
inductive Json where
  | null
  | bool (b : Bool)
  | num (n : ℕ)
  | arr (l : List Json)
  | obj (l : List (String × Json))

namespace Json

/-- `j.at(name)`, which throws where there is no such member. -/
def atKey (j : Json) (name : String) : Except String Json :=
  match j with
  | obj l =>
    match l.find? fun p => p.1 == name with
    | some p => .ok p.2
    | none => .error "key not found"
  | _ => .error "cannot use at()"

/-- `j.contains(name)` -/
def contains (j : Json) (name : String) : Bool :=
  match j with
  | obj l => l.any fun p => p.1 == name
  | _ => false

/-- `j.at(i)` of an array. -/
def atIdx (j : Json) (i : ℕ) : Except String Json :=
  match j with
  | arr l =>
    match l[i]? with
    | some x => .ok x
    | none => .error "array index is out of range"
  | _ => .error "cannot use at()"

/-- `j.get<size_t>()` -/
def getNat : Json → Except String ℕ
  | num n => .ok n
  | _ => .error "type must be number"

/-- `j.get<bool>()` -/
def getBool : Json → Except String Bool
  | bool b => .ok b
  | _ => .error "type must be boolean"

/-- The elements of an array, each converted. -/
def getList {α : Type} (f : Json → Except String α) : Json → Except String (List α)
  | arr l => l.mapM f
  | _ => .error "type must be array"

/-- The JSON form of `std::vector<size_t>`. -/
def ofNats (l : List ℕ) : Json := arr (l.map num)

/-- The JSON form of a tier, a `std::pair`. -/
def ofTier (p : ℕ × List ℕ) : Json := arr [num p.1, ofNats p.2]

/-- `j.get<std::pair<size_t, std::vector<size_t>>>()` -/
def getTier (j : Json) : Except String (ℕ × List ℕ) := do
  let id ← j.atIdx 0 >>= getNat
  let ids ← j.atIdx 1 >>= getList getNat
  .ok (id, ids)

end Json

/-- `to_json` of `SimpleLeveledCompactionTask` and of `LeveledCompactionTask`, which have the same
members. -/
def levelTaskToJson (upper_level : Option ℕ) (upper_level_sst_ids : List ℕ) (lower_level : ℕ)
    (lower_level_sst_ids : List ℕ) (is_lower_level_bottom_level : Bool) : Json :=
  .obj
    [("is_lower_level_bottom_level", .bool is_lower_level_bottom_level),
      ("lower_level", .num lower_level),
      ("lower_level_sst_ids", Json.ofNats lower_level_sst_ids),
      ("upper_level", (upper_level.map Json.num).getD .null),
      ("upper_level_sst_ids", Json.ofNats upper_level_sst_ids)]

/-- `from_json` of the two tasks. -/
def levelTaskFromJson {α : Type} (make : Option ℕ → List ℕ → ℕ → List ℕ → Bool → α) (j : Json) :
    Except String α := do
  let upper_level ←
    match ← j.atKey "upper_level" with
    | .null => .ok none
    | v => do
      let n ← v.getNat
      .ok (some n)
  let upper_level_sst_ids ← j.atKey "upper_level_sst_ids" >>= Json.getList Json.getNat
  let lower_level ← j.atKey "lower_level" >>= Json.getNat
  let lower_level_sst_ids ← j.atKey "lower_level_sst_ids" >>= Json.getList Json.getNat
  let is_lower_level_bottom_level ← j.atKey "is_lower_level_bottom_level" >>= Json.getBool
  .ok (make upper_level upper_level_sst_ids lower_level lower_level_sst_ids
    is_lower_level_bottom_level)

/-- `to_json` of `CompactionTask` -/
def CompactionTask.toJson : CompactionTask → Json
  | .simple t => .obj [("Simple", levelTaskToJson t.upper_level t.upper_level_sst_ids t.lower_level
      t.lower_level_sst_ids t.is_lower_level_bottom_level)]
  | .leveled t => .obj [("Leveled", levelTaskToJson t.upper_level t.upper_level_sst_ids t.lower_level
      t.lower_level_sst_ids t.is_lower_level_bottom_level)]
  | .tiered t => .obj [("Tiered", .obj
      [("bottom_tier_included", .bool t.bottom_tier_included),
        ("tiers", .arr (t.tiers.map Json.ofTier))])]
  | .forceFull t => .obj [("ForceFullCompaction", .obj
      [("l0_sstables", Json.ofNats t.l0_sstables), ("l1_sstables", Json.ofNats t.l1_sstables)])]

/-- `from_json` of `CompactionTask` -/
def CompactionTask.fromJson (j : Json) : Except String CompactionTask :=
  if j.contains "Simple" then do
    let t ← j.atKey "Simple" >>= levelTaskFromJson SimpleLeveledCompactionTask.mk
    .ok (.simple t)
  else if j.contains "Leveled" then do
    let t ← j.atKey "Leveled" >>= levelTaskFromJson LeveledCompactionTask.mk
    .ok (.leveled t)
  else if j.contains "Tiered" then do
    let t ← j.atKey "Tiered"
    let tiers ← t.atKey "tiers" >>= Json.getList Json.getTier
    let bottom_tier_included ← t.atKey "bottom_tier_included" >>= Json.getBool
    .ok (.tiered ⟨tiers, bottom_tier_included⟩)
  else if j.contains "ForceFullCompaction" then do
    let t ← j.atKey "ForceFullCompaction"
    let l0_sstables ← t.atKey "l0_sstables" >>= Json.getList Json.getNat
    let l1_sstables ← t.atKey "l1_sstables" >>= Json.getList Json.getNat
    .ok (.forceFull ⟨l0_sstables, l1_sstables⟩)
  else .error "Unknown CompactionTask type in JSON"

/-- `to_json` of `ManifestRecord` -/
def ManifestRecord.toJson : ManifestRecord → Json
  | .flush sst_id => .obj [("Flush", .num sst_id)]
  | .newMemtable mem_id => .obj [("NewMemtable", .num mem_id)]
  | .compaction task output_sst_ids =>
    .obj [("Compaction", .arr [task.toJson, Json.ofNats output_sst_ids])]

/-- `from_json` of `ManifestRecord` -/
def ManifestRecord.fromJson (j : Json) : Except String ManifestRecord :=
  if j.contains "Flush" then do
    let id ← j.atKey "Flush" >>= Json.getNat
    .ok (.flush id)
  else if j.contains "NewMemtable" then do
    let id ← j.atKey "NewMemtable" >>= Json.getNat
    .ok (.newMemtable id)
  else if j.contains "Compaction" then do
    let arr ← j.atKey "Compaction"
    let task ← arr.atIdx 0 >>= CompactionTask.fromJson
    let output_sst_ids ← arr.atIdx 1 >>= Json.getList Json.getNat
    .ok (.compaction task output_sst_ids)
  else .error "Unknown ManifestRecord type in JSON"

/-! ## The file -/

/-- The text of JSON values: `dump` and `parse` of `nlohmann::json`, the second of which may
throw. -/
structure JsonCodec where
  dump : Json → Bytes
  parse : Bytes → Option Json

/-- The frame that `Manifest::add_record_when_init` writes. -/
def recordFrame (E : Extern) (codec : JsonCodec) (record : ManifestRecord) : Bytes :=
  let json_str := codec.dump record.toJson
  putU64 json_str.length ++ (json_str ++ putU32 (crc32Hash E json_str))

/-- One round of the loop in `Manifest::recover`: the record at `offset`, and the offset behind it.
The sum `len + 4` is one of 64-bit numbers. -/
def recoverRecord (E : Extern) (codec : JsonCodec) (content : Bytes) (offset : ℕ) :
    Except Error (ManifestRecord × ℕ) := do
  if content.length - offset < 8 then
    .error (.runtimeError "Corrupted manifest: incomplete length header at EOF")
  else
  let len ← readU64 content offset
  let offset := offset + 8
  if content.length - offset < (len + 4) % 2^64 then
    .error (.runtimeError "Corrupted manifest: incomplete record payload/checksum at EOF")
  else
  let expected_checksum ← readU32 content (offset + len)
  let json_str ← slice content offset len
  if expected_checksum ≠ crc32Hash E json_str then
    .error (.runtimeError "Manifest record checksum mismatch")
  else
  match codec.parse json_str with
  | none => .error (.runtimeError "Failed to parse ManifestRecord JSON: parse error")
  | some j =>
    match ManifestRecord.fromJson j with
    | .error what => .error (.runtimeError ("Failed to parse ManifestRecord JSON: " ++ what))
    | .ok record => .ok (record, offset + len + 4)

/-- The loop in `Manifest::recover`, with a number of rounds. -/
def recoverRecords (E : Extern) (codec : JsonCodec) (content : Bytes) :
    ℕ → ℕ → Except Error (List ManifestRecord)
  | 0, _ => .error (.undefined "more records than bytes")
  | n + 1, offset =>
    if offset < content.length then do
      let (record, offset) ← recoverRecord E codec content offset
      let records ← recoverRecords E codec content n offset
      .ok (record :: records)
    else .ok []

/-- The manifest file, and the offset of the descriptor by which it is open. -/
structure ManifestFile where
  content : Bytes
  offset : ℕ
  deriving DecidableEq

namespace ManifestFile

/-- `Manifest::create`: the file is truncated. -/
def create : ManifestFile := ⟨[], 0⟩

/-- `Manifest::recover`: the records of the file, and the file as it is open now. Each round of the
loop moves on in the file. -/
def recover (E : Extern) (codec : JsonCodec) (f : ManifestFile) :
    Except Error (List ManifestRecord × ManifestFile) := do
  let records ← recoverRecords E codec f.content (f.content.length + 1) 0
  .ok (records, ⟨f.content, 0⟩)

/-- The `write` calls for `buf`, all of which succeed. -/
def write (f : ManifestFile) (buf : Bytes) : ManifestFile :=
  ⟨f.content.take f.offset ++ (buf ++ f.content.drop (f.offset + buf.length)),
    f.offset + buf.length⟩

/-- `Manifest::add_record_when_init`, which `Manifest::add_record` calls. -/
def addRecordWhenInit (E : Extern) (codec : JsonCodec) (f : ManifestFile)
    (record : ManifestRecord) : ManifestFile :=
  f.write (recordFrame E codec record)

end ManifestFile

/-! ## The manifest as the store sees it -/

/-- The operations of a manifest that is kept in an `M`. -/
structure ManifestIO (M : Type) where
  create : M
  recover : M → Except Error (List ManifestRecord × M)
  addRecord : M → ManifestRecord → M

/-- The manifest in its file. -/
def ManifestFile.io (E : Extern) (codec : JsonCodec) : ManifestIO ManifestFile :=
  ⟨ManifestFile.create, ManifestFile.recover E codec, ManifestFile.addRecordWhenInit E codec⟩

/-- A manifest that returns exactly the records added so far, whenever it is recovered. -/
structure ManifestIO.Lawful {M : Type} (io : ManifestIO M) (log : M → List ManifestRecord) :
    Prop where
  log_create : log io.create = []
  log_addRecord : ∀ m r, log (io.addRecord m r) = log m ++ [r]
  recover_eq : ∀ m, ∃ m', io.recover m = .ok (log m, m') ∧ log m' = log m

/-- The manifest that is the list of its records. -/
def ManifestIO.list : ManifestIO (List ManifestRecord) :=
  ⟨[], fun m => .ok (m, m), fun m r => m ++ [r]⟩

theorem ManifestIO.list_lawful : ManifestIO.list.Lawful id :=
  ⟨rfl, fun _ _ => rfl, fun m => ⟨m, rfl, rfl⟩⟩

end MiniLsm
