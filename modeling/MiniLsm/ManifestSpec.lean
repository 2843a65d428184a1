import MiniLsm.Libraries
import MiniLsm.Replay

/-!
# The manifest file

A record comes back from its JSON form as it was (`ManifestRecord.fromJson_toJson`), and from its
frame where the text of its JSON form does. The file of a session of appends is therefore the frames
of its records, and `Manifest::recover` reads them all. It does not leave the descriptor at the end
of the file, though: the next append starts at the first byte. The records of all sessions are
recovered exactly if at most one session has any (`ManifestFile.logLaw_iff`).

A frame that is cut within its bytes is an error, and not the end of the records: a manifest with
such an end is recovered, and opened as its records ask for, exactly if nothing is left of that
frame (`ManifestFile.recovers_torn_iff`).
-/

namespace MiniLsm

/-! ## JSON -/

namespace Json

/-- An array of converted elements comes back. -/
theorem getList_map {α : Type} {f : α → Json} {g : Json → Except String α}
    (h : ∀ a, g (f a) = .ok a) (l : List α) : getList g (.arr (l.map f)) = .ok l := by
  rw [getList]
  induction l with
  | nil => rfl
  | cons a l ih => rw [List.map_cons, List.mapM_cons, h, ok_bind, ih, ok_bind]; rfl

/-- A list of numbers is read back. -/
@[simp]
theorem getList_ofNats (l : List ℕ) : getList getNat (ofNats l) = .ok l :=
  getList_map (f := num) (fun _ => rfl) l

/-- A tier is read back. -/
theorem getTier_ofTier (p : ℕ × List ℕ) : getTier (ofTier p) = .ok p := by
  have hid : (ofTier p).atIdx 0 >>= getNat = .ok p.1 := rfl
  have hids : (ofTier p).atIdx 1 >>= getList getNat = .ok p.2 := getList_ofNats p.2
  rw [getTier, hid, ok_bind, hids]
  rfl

end Json

/-- The two tasks of levels come back. -/
theorem levelTaskFromJson_toJson {α : Type} (make : Option ℕ → List ℕ → ℕ → List ℕ → Bool → α)
    (upper_level : Option ℕ) (upper_level_sst_ids : List ℕ) (lower_level : ℕ)
    (lower_level_sst_ids : List ℕ) (is_lower_level_bottom_level : Bool) :
    levelTaskFromJson make (levelTaskToJson upper_level upper_level_sst_ids lower_level
      lower_level_sst_ids is_lower_level_bottom_level) =
      .ok (make upper_level upper_level_sst_ids lower_level lower_level_sst_ids
        is_lower_level_bottom_level) := by
  cases upper_level <;>
    simp [levelTaskFromJson, levelTaskToJson, Json.atKey, Json.getNat, Json.getBool]

/-- A compaction task comes back from its JSON form. -/
theorem CompactionTask.fromJson_toJson (task : CompactionTask) :
    CompactionTask.fromJson task.toJson = .ok task := by
  cases task with
  | simple t =>
    simp [toJson, fromJson, Json.contains, Json.atKey, levelTaskFromJson_toJson]
  | leveled t =>
    simp [toJson, fromJson, Json.contains, Json.atKey, levelTaskFromJson_toJson]
  | tiered t =>
    have htiers := Json.getList_map Json.getTier_ofTier t.tiers
    simp [toJson, fromJson, Json.contains, Json.atKey, Json.getBool, htiers]
  | forceFull t =>
    simp [toJson, fromJson, Json.contains, Json.atKey]

/-- A record comes back from its JSON form. -/
theorem ManifestRecord.fromJson_toJson (record : ManifestRecord) :
    ManifestRecord.fromJson record.toJson = .ok record := by
  cases record with
  | flush sst_id => simp [toJson, fromJson, Json.contains, Json.atKey, Json.getNat]
  | newMemtable mem_id => simp [toJson, fromJson, Json.contains, Json.atKey, Json.getNat]
  | compaction task ids =>
    simp [toJson, fromJson, Json.contains, Json.atKey, Json.atIdx, CompactionTask.fromJson_toJson]

/-! ## Frames -/

/-- The text of a record is one that a `std::string` can hold, and `parse` undoes `dump` on it. -/
structure JsonCodec.Faithful (codec : JsonCodec) (record : ManifestRecord) : Prop where
  parse_dump : codec.parse (codec.dump record.toJson) = some record.toJson
  length_lt : (codec.dump record.toJson).length < 2^63

/-- The frames of some records. -/
def recordFrames (E : Extern) (codec : JsonCodec) (records : List ManifestRecord) : Bytes :=
  (records.map (recordFrame E codec)).flatten

variable {E : Extern} {codec : JsonCodec} {record : ManifestRecord} {records : List ManifestRecord}

/-- The frames of some records come after those of others. -/
theorem recordFrames_append (records records' : List ManifestRecord) :
    recordFrames E codec (records ++ records') =
      recordFrames E codec records ++ recordFrames E codec records' := by
  rw [recordFrames, List.map_append, List.flatten_append]
  rfl

/-- A frame has twelve bytes more than its text. -/
theorem length_recordFrame :
    (recordFrame E codec record).length = (codec.dump record.toJson).length + 12 := by
  simp only [recordFrame, List.length_append, length_putU64, length_putU32]
  omega

/-- The frame of a text. -/
def textFrame (E : Extern) (text : Bytes) : Bytes :=
  putU64 text.length ++ (text ++ putU32 (crc32Hash E text))

/-- So has the frame of any text. -/
theorem length_textFrame (text : Bytes) : (textFrame E text).length = text.length + 12 := by
  simp only [textFrame, List.length_append, length_putU64, length_putU32]
  omega

/-- The text is one of the record. -/
def JsonCodec.Reads (codec : JsonCodec) (text : Bytes) (record : ManifestRecord) : Prop :=
  ∃ j, codec.parse text = some j ∧ ManifestRecord.fromJson j = .ok record

/-- A text is read from where its frame was written. -/
theorem recoverRecord_text {text : Bytes} (hlt : text.length < 2^63) (h : codec.Reads text record)
    (pre post : Bytes) :
    recoverRecord E codec (pre ++ (textFrame E text ++ post)) pre.length =
      .ok (record, (pre ++ textFrame E text).length) := by
  obtain ⟨j, hparse, hrecord⟩ := h
  have hcontent : pre ++ (textFrame E text ++ post) =
      pre ++ (putU64 text.length ++ (text ++ (putU32 (crc32Hash E text) ++ post))) := by
    simp only [textFrame, List.append_assoc]
  have hlen :
      (pre ++ (putU64 text.length ++ (text ++ (putU32 (crc32Hash E text) ++ post)))).length =
      pre.length + (text.length + 12 + post.length) := by
    simp only [List.length_append, length_putU64, length_putU32]
    omega
  have hmod : (text.length + 4) % 2^64 = text.length + 4 := Nat.mod_eq_of_lt (by omega)
  have hnum : readU64 (pre ++ (putU64 text.length ++ (text ++ (putU32 (crc32Hash E text) ++ post))))
      pre.length = .ok text.length := readU64_append _ _ _ rfl (by omega)
  have hsum : readU32 (pre ++ (putU64 text.length ++ (text ++ (putU32 (crc32Hash E text) ++ post))))
      (pre.length + 8 + text.length) = .ok (crc32Hash E text) := by
    rw [show pre ++ (putU64 text.length ++ (text ++ (putU32 (crc32Hash E text) ++ post))) =
      (pre ++ putU64 text.length ++ text) ++ (putU32 (crc32Hash E text) ++ post) by simp]
    exact readU32_append _ _ _ (by simp [Nat.add_assoc]) (crc32Hash_lt E text)
  have hslice : slice (pre ++ (putU64 text.length ++ (text ++ (putU32 (crc32Hash E text) ++ post))))
      (pre.length + 8) text.length = .ok text := by
    rw [show pre ++ (putU64 text.length ++ (text ++ (putU32 (crc32Hash E text) ++ post))) =
      (pre ++ putU64 text.length) ++ (text ++ (putU32 (crc32Hash E text) ++ post)) by simp]
    exact slice_append _ _ _ (by simp) rfl
  rw [hcontent, recoverRecord, hlen, if_neg (by omega), hnum, ok_bind]
  dsimp only
  rw [hmod, if_neg (by omega), hsum, ok_bind, hslice, ok_bind, if_neg (by simp), hparse]
  dsimp only
  rw [hrecord]
  dsimp only
  rw [List.length_append, length_textFrame]
  congr 2
  omega

/-- A record is read from where its frame was written. -/
theorem recoverRecord_frame (h : codec.Faithful record) (pre post : Bytes) :
    recoverRecord E codec (pre ++ (recordFrame E codec record ++ post)) pre.length =
      .ok (record, (pre ++ recordFrame E codec record).length) :=
  recoverRecord_text h.length_lt
    ⟨record.toJson, h.parse_dump, ManifestRecord.fromJson_toJson record⟩ pre post

/-- A frame of which some bytes are left, and not all, is an error. -/
theorem recoverRecord_torn (h : codec.Faithful record) (pre : Bytes) {torn : Bytes}
    (hpre : torn <+: recordFrame E codec record) (hne : torn ≠ recordFrame E codec record) :
    ∃ what, recoverRecord E codec (pre ++ torn) pre.length = .error (.runtimeError what) := by
  have hlt := h.length_lt
  have hshort : torn.length < (recordFrame E codec record).length := by
    refine lt_of_le_of_ne hpre.length_le fun hlen => hne ?_
    exact hpre.eq_of_length hlen
  rw [length_recordFrame] at hshort
  have hrest : (pre ++ torn).length - pre.length = torn.length := by simp
  rw [recoverRecord, hrest]
  by_cases h8 : torn.length < 8
  · exact ⟨_, if_pos h8⟩
  · -- The length is there, and says that more bytes follow than there are.
    obtain ⟨rest, hrest'⟩ : ∃ rest, torn = putU64 (codec.dump record.toJson).length ++ rest := by
      have hle : (putU64 (codec.dump record.toJson).length).length ≤ torn.length := by
        rw [length_putU64]
        omega
      obtain ⟨rest, hrest'⟩ := List.prefix_of_prefix_length_le
        (List.prefix_append (putU64 (codec.dump record.toJson).length) _) hpre hle
      exact ⟨rest, hrest'.symm⟩
    have hnum : readU64 (pre ++ torn) pre.length = .ok (codec.dump record.toJson).length := by
      rw [hrest']
      exact readU64_append _ _ _ rfl (by omega)
    have hmod : ((codec.dump record.toJson).length + 4) % 2^64 =
        (codec.dump record.toJson).length + 4 := Nat.mod_eq_of_lt (by omega)
    rw [if_neg h8, hnum, ok_bind]
    dsimp only
    rw [hmod, if_pos (by rw [List.length_append]; omega)]
    exact ⟨_, rfl⟩

/-- The loop of `Manifest::recover` on frames goes on behind them. -/
theorem recoverRecords_frames (h : ∀ record ∈ records, codec.Faithful record) (pre post : Bytes)
    (n : ℕ) :
    recoverRecords E codec (pre ++ (recordFrames E codec records ++ post)) (n + records.length)
        pre.length =
      recoverRecords E codec (pre ++ (recordFrames E codec records ++ post)) n
        (pre ++ recordFrames E codec records).length >>= fun rest => .ok (records ++ rest) := by
  induction records generalizing pre with
  | nil =>
    simp only [recordFrames, List.map_nil, List.flatten_nil, List.nil_append, List.append_nil,
      List.length_nil, Nat.add_zero]
    rcases recoverRecords E codec (pre ++ post) n pre.length with e | rest <;> rfl
  | cons record records ih =>
    obtain ⟨hrecord, h⟩ := List.forall_mem_cons.mp h
    have hcons : recordFrames E codec (record :: records) =
        recordFrame E codec record ++ recordFrames E codec records := rfl
    have hpos : pre.length <
        (pre ++ (recordFrame E codec record ++ (recordFrames E codec records ++ post))).length := by
      simp only [List.length_append, length_recordFrame]
      omega
    rw [hcons, List.append_assoc, List.length_cons, ← Nat.add_assoc, recoverRecords, if_pos hpos,
      recoverRecord_frame hrecord, ok_bind]
    dsimp only
    have hassoc : pre ++ (recordFrame E codec record ++ (recordFrames E codec records ++ post)) =
        (pre ++ recordFrame E codec record) ++ (recordFrames E codec records ++ post) :=
      (List.append_assoc _ _ _).symm
    rw [hassoc, ih h, ← List.append_assoc pre]
    rcases recoverRecords E codec _ n _ with e | rest <;> rfl

/-- A record has at least one byte. -/
theorem length_le_recordFrames (records : List ManifestRecord) :
    records.length ≤ (recordFrames E codec records).length := by
  induction records with
  | nil => exact Nat.zero_le _
  | cons record records ih =>
    have hcons : recordFrames E codec (record :: records) =
        recordFrame E codec record ++ recordFrames E codec records := rfl
    rw [hcons, List.length_cons, List.length_append, length_recordFrame]
    omega

namespace ManifestFile

/-- `Manifest::recover` on frames, and the first round behind them. -/
theorem recover_frames_append (h : ∀ record ∈ records, codec.Faithful record) (post : Bytes)
    (offset : ℕ) :
    ∃ n, recover E codec ⟨recordFrames E codec records ++ post, offset⟩ =
      recoverRecords E codec (recordFrames E codec records ++ post) (n + 1)
        (recordFrames E codec records).length >>= fun rest =>
          .ok (records ++ rest, ⟨recordFrames E codec records ++ post, 0⟩) := by
  have hle : records.length ≤ (recordFrames E codec records).length :=
    length_le_recordFrames records
  refine ⟨(recordFrames E codec records ++ post).length - records.length, ?_⟩
  have hfuel : (recordFrames E codec records ++ post).length + 1 =
      (recordFrames E codec records ++ post).length - records.length + 1 + records.length := by
    rw [List.length_append]
    omega
  have hloop := recoverRecords_frames (E := E) h [] post
    ((recordFrames E codec records ++ post).length - records.length + 1)
  rw [List.nil_append, List.nil_append, List.length_nil] at hloop
  rw [recover]
  dsimp only
  rw [hfuel, hloop]
  rcases recoverRecords E codec _ _ _ with e | rest <;> rfl

/-- Frames are recovered. -/
theorem recover_frames (h : ∀ record ∈ records, codec.Faithful record) {f : ManifestFile}
    (hf : f.content = recordFrames E codec records) :
    f.recover E codec = .ok (records, ⟨recordFrames E codec records, 0⟩) := by
  obtain ⟨n, hrec⟩ := recover_frames_append (E := E) h [] f.offset
  rw [List.append_nil, ← hf] at hrec
  rw [hrec, recoverRecords, if_neg (lt_irrefl _), ok_bind, List.append_nil, hf]

/-- Frames are read first. -/
theorem recover_frames_prefix (h : ∀ record ∈ records, codec.Faithful record) {post : Bytes}
    {offset : ℕ} {records' : List ManifestRecord} {f : ManifestFile}
    (hrec : recover E codec ⟨recordFrames E codec records ++ post, offset⟩ = .ok (records', f)) :
    records <+: records' := by
  obtain ⟨n, heq⟩ := recover_frames_append (E := E) h post offset
  rw [heq] at hrec
  obtain ⟨rest, -, hrest⟩ := bind_eq_ok.mp hrec
  cases hrest
  exact List.prefix_append records rest

/-! ## Sessions -/

/-- The calls of `Manifest::add_record` in a session. -/
def addRecords (E : Extern) (codec : JsonCodec) (f : ManifestFile) (records : List ManifestRecord) :
    ManifestFile :=
  records.foldl (addRecordWhenInit E codec) f

/-- A later session: the file is recovered, and records are added. -/
def reopen (E : Extern) (codec : JsonCodec) (f : ManifestFile) (records : List ManifestRecord) :
    Except Error ManifestFile := do
  let (_, f) ← f.recover E codec
  .ok (f.addRecords E codec records)

/-- The file after a session that creates it, and some later ones. -/
def sessions (E : Extern) (codec : JsonCodec) (first : List ManifestRecord)
    (later : List (List ManifestRecord)) : Except Error ManifestFile :=
  later.foldlM (reopen E codec) (create.addRecords E codec first)

/-- After each session, the records are recovered that have been added in it and before. -/
def LogLaw (E : Extern) (codec : JsonCodec) (first : List ManifestRecord)
    (later : List (List ManifestRecord)) : Prop :=
  ∀ earlier, earlier <+: later → ∃ f f', sessions E codec first earlier = .ok f ∧
    f.recover E codec = .ok (first ++ earlier.flatten, f')

/-- The records are written over what follows the offset. -/
theorem addRecords_eq (content : Bytes) (offset : ℕ) (records : List ManifestRecord)
    (hle : offset ≤ content.length) :
    addRecords E codec ⟨content, offset⟩ records =
      ⟨content.take offset ++ (recordFrames E codec records ++
        content.drop (offset + (recordFrames E codec records).length)),
        offset + (recordFrames E codec records).length⟩ := by
  induction records using List.reverseRecOn with
  | nil => simp [addRecords, recordFrames]
  | append_singleton records record ih =>
    have hone : recordFrames E codec [record] = recordFrame E codec record := by
      simp [recordFrames]
    have hsplit : addRecords E codec ⟨content, offset⟩ (records ++ [record]) =
        (addRecords E codec ⟨content, offset⟩ records).addRecordWhenInit E codec record :=
      List.foldl_append
    rw [hsplit, ih, recordFrames_append, hone, addRecordWhenInit, write]
    dsimp only
    have hlen : (content.take offset ++ recordFrames E codec records).length =
        offset + (recordFrames E codec records).length := by
      rw [List.length_append, List.length_take, min_eq_left hle]
    rw [← List.append_assoc (content.take offset), ← hlen, List.take_left, ← List.drop_drop,
      List.drop_left, List.drop_drop, hlen]
    simp only [List.append_assoc, List.length_append, Nat.add_assoc]

/-- Records that are added at the end follow the others. -/
theorem addRecords_frames (records records' : List ManifestRecord) :
    addRecords E codec ⟨recordFrames E codec records, (recordFrames E codec records).length⟩
        records' =
      ⟨recordFrames E codec (records ++ records'),
        (recordFrames E codec (records ++ records')).length⟩ := by
  rw [addRecords_eq _ _ _ le_rfl, List.take_length, List.drop_eq_nil_of_le (Nat.le_add_right _ _),
    List.append_nil, recordFrames_append, List.length_append]

/-- A session more at the end. -/
theorem sessions_concat {first : List ManifestRecord} {later : List (List ManifestRecord)}
    {f f' : ManifestFile} {records' : List ManifestRecord}
    (h : sessions E codec first later = .ok f)
    (hrec : f.recover E codec = .ok (records', f')) :
    sessions E codec first (later ++ [records]) = .ok (f'.addRecords E codec records) := by
  rw [sessions] at h
  rw [sessions, List.foldlM_append, h, ok_bind, List.foldlM_cons, reopen, hrec]
  rfl

/-- The number of the sessions that add a record. -/
def writers (first : List ManifestRecord) (later : List (List ManifestRecord)) : ℕ :=
  ((first :: later).filter fun records => !records.isEmpty).length

/-- It is a writer if it has records. -/
theorem writers_concat (first : List ManifestRecord) (later : List (List ManifestRecord)) :
    writers first (later ++ [records]) =
      writers first later + if records.isEmpty then 0 else 1 := by
  rw [writers, ← List.cons_append, List.filter_append, List.length_append, ← writers]
  rcases records with _ | ⟨record, records⟩ <;> rfl

/-- No session adds a record if there is none. -/
theorem writers_eq_zero {first : List ManifestRecord} {later : List (List ManifestRecord)} :
    writers first later = 0 ↔ first ++ later.flatten = [] := by
  rw [writers, List.length_eq_zero_iff, List.filter_eq_nil_iff, ← List.flatten_cons,
    List.flatten_eq_nil_iff]
  simp only [Bool.not_eq_true', Bool.not_eq_false, List.isEmpty_iff]

variable {first : List ManifestRecord} {later : List (List ManifestRecord)}

/-- One session at most that adds records: the file is the frames of all records. -/
theorem sessions_content (h : ∀ record ∈ first ++ later.flatten, codec.Faithful record)
    (hone : writers first later ≤ 1) :
    ∃ f, sessions E codec first later = .ok f ∧
      f.content = recordFrames E codec (first ++ later.flatten) := by
  induction later using List.reverseRecOn with
  | nil =>
    refine ⟨_, rfl, ?_⟩
    rw [List.flatten_nil, List.append_nil]
    have hframes : addRecords E codec ⟨[], 0⟩ first = _ := addRecords_frames [] first
    exact congrArg content hframes
  | append_singleton later records ih =>
    rw [List.flatten_append, List.flatten_singleton, ← List.append_assoc] at h ⊢
    rw [writers_concat] at hone
    have h₀ : ∀ record ∈ first ++ later.flatten, codec.Faithful record :=
      fun record hrecord => h record (List.mem_append_left _ hrecord)
    obtain ⟨f, hf, hcontent⟩ := ih h₀ (by omega)
    refine ⟨_, sessions_concat hf (recover_frames h₀ hcontent), ?_⟩
    rw [addRecords_eq _ _ _ (Nat.zero_le _), List.take_zero, List.nil_append, Nat.zero_add,
      recordFrames_append (first ++ later.flatten)]
    dsimp only
    rcases records with _ | ⟨record, records⟩
    · simp [recordFrames]
    · -- A session that adds records is the only one: the offset is the end of the file.
      simp only [List.isEmpty_cons, Bool.false_eq_true, if_false] at hone
      have hnil : recordFrames E codec (first ++ later.flatten) = [] := by
        rw [writers_eq_zero.mp (by omega)]
        rfl
      rw [hnil, List.drop_nil, List.append_nil, List.nil_append]

/-- Records that are written over others are not recovered behind them. -/
theorem recover_overwritten (h : ∀ record ∈ records, codec.Faithful record)
    {records' : List ManifestRecord} (h' : ∀ record ∈ records', codec.Faithful record)
    (hne : records ≠ []) (hne' : records' ≠ []) (f : ManifestFile) :
    recover E codec (addRecords E codec ⟨recordFrames E codec records, 0⟩ records') ≠
      .ok (records ++ records', f) := by
  rw [addRecords_eq _ _ _ (Nat.zero_le _), List.take_zero, List.nil_append, Nat.zero_add]
  intro hrec
  have hpre : records' <+: records ++ records' := recover_frames_prefix h' hrec
  rcases le_total records'.length records.length with hle | hle
  · -- The file is as it was.
    obtain ⟨rest, rfl⟩ := List.prefix_of_prefix_length_le hpre (List.prefix_append records _) hle
    rw [recordFrames_append, List.drop_left, ← recordFrames_append, recover_frames h rfl] at hrec
    have hsame := congrArg List.length (Prod.ext_iff.mp (Except.ok.inj hrec)).1
    simp [hne'] at hsame
  · -- All of the file is overwritten.
    obtain ⟨rest, rfl⟩ := List.prefix_of_prefix_length_le (List.prefix_append records _) hpre hle
    rw [recordFrames_append, List.drop_eq_nil_of_le (by simp), List.append_nil,
      ← recordFrames_append, recover_frames h' rfl] at hrec
    have hsame := congrArg List.length (Prod.ext_iff.mp (Except.ok.inj hrec)).1
    simp [hne] at hsame

/-- The records of all sessions are recovered after each of them if and only if at most one session
adds any. -/
theorem logLaw_iff (E : Extern) {codec : JsonCodec} {first : List ManifestRecord}
    {later : List (List ManifestRecord)}
    (h : ∀ record ∈ first ++ later.flatten, codec.Faithful record) :
    LogLaw E codec first later ↔ writers first later ≤ 1 := by
  constructor
  · intro hlaw
    induction later using List.reverseRecOn with
    | nil => exact (List.length_filter_le _ _).trans le_rfl
    | append_singleton later records ih =>
      rw [List.flatten_append, List.flatten_singleton, ← List.append_assoc] at h
      have h₀ : ∀ record ∈ first ++ later.flatten, codec.Faithful record :=
        fun record hrecord => h record (List.mem_append_left _ hrecord)
      have hone := ih h₀ fun earlier hearlier => hlaw earlier (hearlier.trans (List.prefix_append _ _))
      rw [writers_concat]
      by_contra hmore
      have hrecords : records ≠ [] := by
        rintro rfl
        simp only [List.isEmpty_nil, if_true] at hmore
        omega
      have hearlier : first ++ later.flatten ≠ [] := by
        intro hnil
        rw [writers_eq_zero.mpr hnil] at hmore
        split_ifs at hmore <;> omega
      obtain ⟨f, hf, hcontent⟩ := sessions_content (E := E) h₀ hone
      obtain ⟨f₁, f₁', hf₁, hrec₁⟩ := hlaw (later ++ [records]) List.prefix_rfl
      rw [sessions_concat hf (recover_frames h₀ hcontent)] at hf₁
      cases hf₁
      rw [List.flatten_append, List.flatten_singleton, ← List.append_assoc] at hrec₁
      refine recover_overwritten h₀ (fun record hrecord => h record ?_) hearlier hrecords _ hrec₁
      exact List.mem_append_right _ hrecord
  · rintro hone earlier ⟨rest, rfl⟩
    rw [List.flatten_append, ← List.append_assoc] at h
    have h₀ : ∀ record ∈ first ++ earlier.flatten, codec.Faithful record :=
      fun record hrecord => h record (List.mem_append_left _ hrecord)
    have hle : writers first earlier ≤ writers first (earlier ++ rest) := by
      rw [writers, writers, ← List.cons_append, List.filter_append, List.length_append]
      exact Nat.le_add_right _ _
    obtain ⟨f, hf, hcontent⟩ := sessions_content (E := E) h₀ (hle.trans hone)
    exact ⟨f, _, hf, recover_frames h₀ hcontent⟩

end ManifestFile

/-- The text of the records that name one memtable or table with a single digit, and its parser. -/
def JsonCodec.digit : JsonCodec where
  dump
    | .obj [("Flush", .num n)] => [123, 34, 70, 108, 117, 115, 104, 34, 58, UInt8.ofNat (48 + n), 125]
    | .obj [("NewMemtable", .num n)] =>
      [123, 34, 78, 101, 119, 77, 101, 109, 116, 97, 98, 108, 101, 34, 58, UInt8.ofNat (48 + n), 125]
    | _ => []
  parse
    | [123, 34, 70, 108, 117, 115, 104, 34, 58, d, 125] => some (.obj [("Flush", .num (d.toNat - 48))])
    | [123, 34, 78, 101, 119, 77, 101, 109, 116, 97, 98, 108, 101, 34, 58, d, 125] =>
      some (.obj [("NewMemtable", .num (d.toNat - 48))])
    | _ => none

namespace ManifestFile

/-- Sessions that add nothing find the records of the first one. -/
theorem logLaw_one_session : LogLaw .lib .digit [.newMemtable 0, .flush 0] [[], []] := by
  refine (logLaw_iff .lib fun record hrecord => ?_).mpr (by decide)
  have hcases : record = .newMemtable 0 ∨ record = .flush 0 := by simpa using hrecord
  rcases hcases with rfl | rfl
  · exact ⟨rfl, by decide⟩
  · exact ⟨rfl, by decide⟩

/-- A record that is added after the file has been recovered is written over the one before it. -/
theorem not_logLaw_second_session :
    JsonCodec.digit.Faithful (.newMemtable 0) ∧ JsonCodec.digit.Faithful (.newMemtable 1) ∧
      ¬ LogLaw .lib .digit [.newMemtable 0] [[.newMemtable 1]] := by
  refine ⟨⟨rfl, by decide⟩, ⟨rfl, by decide⟩, fun hlaw => ?_⟩
  obtain ⟨f, f', hf, hrec⟩ := hlaw [[.newMemtable 1]] List.prefix_rfl
  have hread : (sessions .lib .digit [.newMemtable 0] [[.newMemtable 1]] >>= fun f =>
      f.recover .lib .digit) = .ok ([.newMemtable 1],
        ⟨recordFrame .lib .digit (.newMemtable 1), 0⟩) := by decide +kernel
  rw [hf, ok_bind, hrec] at hread
  cases hread

end ManifestFile

/-! ## Torn records -/

/-- `LsmStorageInner::open` returns the store of the replay of some records, if the files of its
tables can be read. -/
def LsmStorageInner.OpensAs {M : Type} (E : Extern) (io : ManifestIO M) (disk : Disk M)
    (options : LsmStorageOptions) (records : List ManifestRecord) : Prop :=
  ∀ r, replay options records = .ok r →
    (∀ id ∈ r.state.tableIds, ∃ t, openSst E disk id = .ok t) →
    ∃ s, LsmStorageInner.open E io disk options = .ok s ∧
      s.state.l0_sstables = r.state.l0_sstables ∧ s.state.levels = r.state.levels ∧
      s.state.imm_memtables =
        if options.enable_wal then (recoverMemtables E disk r.memtables).1 else []

/-- The logs are read without the manifest. -/
theorem LsmStorageInner.recoverMemtables_manifest {M : Type} (E : Extern) (disk : Disk M) (m : M)
    (ids : List ℕ) :
    recoverMemtables E { disk with manifest := some m } ids =
      ((recoverMemtables E disk ids).1,
        { (recoverMemtables E disk ids).2 with manifest := some m }) := by
  induction ids using List.reverseRecOn with
  | nil => rfl
  | append_singleton ids id ih =>
    unfold recoverMemtables at ih ⊢
    rw [List.foldl_append, List.foldl_append, ih]
    rfl

/-- A manifest that is recovered is opened as its records ask for. -/
theorem LsmStorageInner.opensAs_of_recover {M : Type} {E : Extern} {io : ManifestIO M}
    {disk : Disk M} {m m' : M} {records : List ManifestRecord} (hdisk : disk.manifest = some m)
    (hrec : io.recover m = .ok (records, m')) (options : LsmStorageOptions) :
    OpensAs E io disk options records := by
  intro r hr hssts
  obtain ⟨ts, hts, -⟩ := mapM_ok (R := fun _ _ => True) (g := id)
    (f := openSst E { disk with manifest := some m' }) fun id hid =>
      (hssts id hid).imp fun t ht => ⟨ht, trivial⟩
  refine ⟨⟨reopenedState E { disk with manifest := some m' } options r ts, r.next_id + 2, options,
    true, reopenedDisk E io { disk with manifest := some m' } options r⟩, ?_, rfl, rfl, ?_⟩
  · rw [LsmStorageInner.open, hdisk]
    dsimp only
    rw [hrec]
    dsimp only
    rw [openRecovered_eq, hr, ok_bind, hts, ok_bind]
  · rw [reopenedState, reopenedMemtables, recoverMemtables_manifest]
    rcases options.enable_wal with _ | _ <;> rfl

/-- A manifest whose last record is torn is recovered without that record, and the store opened with
the others, if and only if no byte of the record is left. -/
theorem ManifestFile.recovers_torn_iff (E : Extern) {codec : JsonCodec}
    {records : List ManifestRecord} (h : ∀ record ∈ records, codec.Faithful record)
    {record : ManifestRecord} (hrecord : codec.Faithful record) {torn : Bytes}
    (hpre : torn <+: recordFrame E codec record) (hne : torn ≠ recordFrame E codec record)
    {disk : Disk ManifestFile} {f : ManifestFile} (hdisk : disk.manifest = some f)
    (hf : f.content = recordFrames E codec records ++ torn) (options : LsmStorageOptions) :
    ((∃ f', f.recover E codec = .ok (records, f')) ∧
      LsmStorageInner.OpensAs E (ManifestFile.io E codec) disk options records) ↔ torn = [] := by
  constructor
  · rintro ⟨⟨f', hrec⟩, -⟩
    by_contra hsome
    obtain ⟨n, heq⟩ := recover_frames_append (E := E) h torn f.offset
    obtain ⟨what, hthrow⟩ := recoverRecord_torn (E := E) hrecord (recordFrames E codec records) hpre hne
    -- The round behind the full frames throws.
    have hround : recoverRecords E codec (recordFrames E codec records ++ torn) (n + 1)
        (recordFrames E codec records).length = .error (.runtimeError what) := by
      rw [recoverRecords, if_pos, hthrow]
      · rfl
      · rw [List.length_append]
        exact Nat.lt_add_of_pos_right (List.length_pos_iff.mpr hsome)
    rw [← hf] at heq hround
    rw [heq, hround] at hrec
    cases hrec
  · rintro rfl
    rw [List.append_nil] at hf
    have hrec := recover_frames h hf
    have hio : (ManifestFile.io E codec).recover f = _ := hrec
    exact ⟨⟨_, hrec⟩, LsmStorageInner.opensAs_of_recover hdisk hio options⟩

/-- A record with nothing behind it is recovered. -/
theorem ManifestFile.recovers_torn_nothing :
    ∃ f', ManifestFile.recover .lib .digit ⟨recordFrame .lib .digit (.newMemtable 0), 0⟩ =
      .ok ([.newMemtable 0], f') := by
  have hfaithful : ∀ n < 10, JsonCodec.digit.Faithful (.newMemtable n) := by
    intro n hn
    interval_cases n <;> exact ⟨rfl, by decide⟩
  have hall : ∀ record ∈ [ManifestRecord.newMemtable 0], JsonCodec.digit.Faithful record := by
    intro record hrecord
    rw [List.mem_singleton.mp hrecord]
    exact hfaithful 0 (by decide)
  let disk : Disk ManifestFile :=
    ⟨some ⟨recordFrame .lib .digit (.newMemtable 0), 0⟩, fun _ => none, fun _ => none⟩
  have hdisk : disk.manifest = some ⟨recordFrame .lib .digit (.newMemtable 0), 0⟩ := rfl
  refine ((recovers_torn_iff .lib hall (hfaithful 1 (by decide)) (List.nil_prefix)
    (by decide +kernel) hdisk ?_ {}).mpr rfl).1
  rw [recordFrames, List.map_singleton, List.flatten_singleton, List.append_nil]

/-- One byte of the second record is left, and nothing is recovered. -/
theorem ManifestFile.recover_torn_byte :
    JsonCodec.digit.Faithful (.newMemtable 0) ∧ JsonCodec.digit.Faithful (.newMemtable 1) ∧
      [0] <+: recordFrame .lib .digit (.newMemtable 1) ∧
      ManifestFile.recover .lib .digit ⟨recordFrame .lib .digit (.newMemtable 0) ++ [0], 0⟩ =
        .error (.runtimeError "Corrupted manifest: incomplete length header at EOF") :=
  ⟨⟨rfl, by decide⟩, ⟨rfl, by decide⟩, by decide +kernel, by decide +kernel⟩

end MiniLsm
