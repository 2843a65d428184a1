import MiniLsm.Corruption
import MiniLsm.ManifestSpec

/-!
# The reads of two decoders

`Manifest::recover` and `BlockMeta::decode_block_meta` read a buffer whose bytes nobody vouches for.
Here are the places that they read, each with the number of its bytes, and the inputs on which these
are within the buffer.

The check in front of the reads of `recover` compares with `len + 4`, a sum of 64-bit numbers. From
`len = 2^64 - 4` on it wraps around, and the check says nothing (`ManifestFile.memoryBounded_iff`).
`decode_block_meta` reads as many entries as the count in front of them says, and the checksum does
not cover the count (`decodeBlockMeta_within_iff`).
-/

namespace MiniLsm

/-- The read of `len` bytes from `pos` on, for every pair, is a read of the buffer. -/
def InBounds (src : Bytes) (reads : List (ℕ × ℕ)) : Prop :=
  ∀ r ∈ reads, r.1 + r.2 ≤ src.length

/-- What stands in the buffer at a number that is read. -/
theorem readBE_of_le (n pos : ℕ) (src : Bytes) (h : pos + n ≤ src.length) :
    ∃ v, v < 256^n ∧ readBE n src pos = .ok v ∧
      src.drop pos = BigEndian.put n v ++ src.drop (pos + n) := by
  have hlen : ((src.drop pos).take n).length = n := by
    rw [List.length_take, List.length_drop]
    omega
  have hlt := BigEndian.get_lt ((src.drop pos).take n)
  have hput := BigEndian.put_get ((src.drop pos).take n)
  rw [hlen] at hlt hput
  refine ⟨BigEndian.get ((src.drop pos).take n), hlt, if_pos h, ?_⟩
  rw [hput, ← List.drop_drop, List.take_append_drop]

/-! ## The manifest -/

variable {E : Extern} {codec : JsonCodec} {content : Bytes} {offset : ℕ}

/-- The reads of one round of the loop in `Manifest::recover`: the length, the checksum, the range
of the CRC, and, if the checksums agree, the text. -/
def recordReads (E : Extern) (content : Bytes) (offset : ℕ) : List (ℕ × ℕ) :=
  if content.length - offset < 8 then [] else
  (offset, 8) ::
  match readU64 content offset with
  | .error _ => []
  | .ok len =>
    let offset := offset + 8
    if content.length - offset < (len + 4) % 2^64 then [] else
    ((offset + len) % 2^64, 4) :: (offset, len) ::
    match readU32 content (offset + len), slice content offset len with
    | .ok expected_checksum, .ok json_str =>
      if expected_checksum ≠ crc32Hash E json_str then [] else [(offset, len)]
    | _, _ => []

/-- The reads of the loop, which are those of its rounds. -/
def recoverReads (E : Extern) (codec : JsonCodec) (content : Bytes) : ℕ → ℕ → List (ℕ × ℕ)
  | 0, _ => []
  | n + 1, offset =>
    if offset < content.length then
      recordReads E content offset ++
        match recoverRecord E codec content offset with
        | .ok (_, offset) => recoverReads E codec content n offset
        | .error _ => []
    else []

/-- All reads of `n` rounds from `offset` on are within the content, and the rounds end with the
records or with an error string. -/
def RecoversInBounds (E : Extern) (codec : JsonCodec) (content : Bytes) (n offset : ℕ) : Prop :=
  InBounds content (recoverReads E codec content n offset) ∧
    ((∃ records, recoverRecords E codec content n offset = .ok records) ∨
      ∃ what, recoverRecords E codec content n offset = .error (.runtimeError what))

/-- Behind the frames of any texts of records, there is no length whose sum with four wraps around
to what the check lets pass. -/
def GuardHolds (E : Extern) (codec : JsonCodec) (content : Bytes) : Prop :=
  ∀ (texts : List Bytes) (len : ℕ) (rest : Bytes),
    (∀ text ∈ texts, ∃ record, codec.Reads text record) → 2^64 - 4 ≤ len → len < 2^64 →
    content = (texts.map (textFrame E)).flatten ++ (putU64 len ++ rest) →
      rest.length < (len + 4) % 2^64

/-- The check lets a wrapped sum pass, and the reads behind it are not within the content. -/
theorem recoverRecord_wraps (E : Extern) (codec : JsonCodec) (hsize : content.length < 2^63)
    (hle : offset ≤ content.length) {len : ℕ} {rest : Bytes}
    (hdrop : content.drop offset = putU64 len ++ rest) (hge : 2^64 - 4 ≤ len)
    (hlt : len < 2^64) (hguard : (len + 4) % 2^64 ≤ rest.length) :
    (∃ what, recoverRecord E codec content offset = .error (.undefined what)) ∧
      ¬ InBounds content (recordReads E content offset) := by
  have hlen : content.length = offset + (8 + rest.length) := by
    have := congrArg List.length hdrop
    rw [List.length_drop, List.length_append, length_putU64] at this
    omega
  have hcontent : content = content.take offset ++ (putU64 len ++ rest) := by
    rw [← hdrop, List.take_append_drop]
  have hnum : readU64 content offset = .ok len := by
    rw [hcontent]
    exact readU64_append len _ rest (by rw [List.length_take]; omega) hlt
  have hsum : readU32 content (offset + 8 + len) =
      .error (.undefined "read past the end of the buffer") := if_neg (by omega)
  constructor
  · refine ⟨"read past the end of the buffer", ?_⟩
    rw [recoverRecord, if_neg (by omega), hnum, ok_bind]
    dsimp only
    rw [if_neg (by omega), hsum]
    rfl
  · intro hreads
    have hcrc : (offset + 8, len) ∈ recordReads E content offset := by
      rw [recordReads, if_neg (by omega), hnum]
      dsimp only
      rw [if_neg (by omega)]
      simp
    have := hreads _ hcrc
    dsimp only at this
    omega

/-- What one round does, on any content. -/
theorem recoverRecord_cases (E : Extern) (codec : JsonCodec) (hsize : content.length < 2^63)
    (hlt : offset < content.length) :
    (InBounds content (recordReads E content offset) ∧
      ((∃ what, recoverRecord E codec content offset = .error (.runtimeError what)) ∨
        ∃ text record, codec.Reads text record ∧ text.length < 2^63 ∧
          content.drop offset = textFrame E text ++ content.drop (offset + (text.length + 12)) ∧
          offset + (text.length + 12) ≤ content.length)) ∨
    ∃ len rest, content.drop offset = putU64 len ++ rest ∧ 2^64 - 4 ≤ len ∧ len < 2^64 ∧
      (len + 4) % 2^64 ≤ rest.length := by
  by_cases h8 : content.length - offset < 8
  · refine .inl ⟨?_, .inl ⟨_, by rw [recoverRecord, if_pos h8]⟩⟩
    rw [recordReads, if_pos h8]
    exact fun r hr => absurd hr List.not_mem_nil
  -- The eight bytes of the length are there. The guard compares with `len + 4`, which may wrap.
  · obtain ⟨len, hlen, hnum, hdrop⟩ := readBE_of_le 8 offset content (by omega)
    rw [← readU64] at hnum
    have hlen64 : len < 2^64 := hlen
    by_cases hguard : content.length - (offset + 8) < (len + 4) % 2^64
    · refine .inl ⟨?_, .inl ⟨_, by
        rw [recoverRecord, if_neg h8, hnum, ok_bind]
        dsimp only
        rw [if_pos hguard]⟩⟩
      rw [recordReads, if_neg h8, hnum]
      dsimp only
      rw [if_pos hguard]
      intro r hr
      rw [List.mem_singleton.mp hr]
      dsimp only
      omega
    · by_cases hwrap : 2^64 - 4 ≤ len
      · refine .inr ⟨len, content.drop (offset + 8), hdrop, hwrap, hlen64, ?_⟩
        rw [List.length_drop]
        omega
      · -- The sum is the one of numbers, so that the whole frame is there.
        have hmod : (len + 4) % 2^64 = len + 4 := Nat.mod_eq_of_lt (by omega)
        rw [hmod] at hguard
        obtain ⟨sum, hsum32, hsum, hdropsum⟩ := readBE_of_le 4 (offset + 8 + len) content (by omega)
        rw [← readU32] at hsum
        obtain ⟨text, htext⟩ : ∃ text, text = (content.drop (offset + 8)).take len := ⟨_, rfl⟩
        have hslice : slice content (offset + 8) len = .ok text := by
          rw [slice, if_pos (by omega), htext]
        have htextlen : text.length = len := by
          rw [htext, List.length_take, List.length_drop]
          omega
        -- Three reads, all of them within the frame.
        have hreads : InBounds content (recordReads E content offset) := by
          rw [recordReads, if_neg h8, hnum]
          dsimp only
          have hpos : (offset + 8 + len) % 2^64 = offset + 8 + len := Nat.mod_eq_of_lt (by omega)
          rw [hmod, if_neg hguard, hsum, hslice, hpos]
          dsimp only
          intro r hr
          have hr : r = (offset, 8) ∨ r = (offset + 8 + len, 4) ∨ r = (offset + 8, len) := by
            split_ifs at hr <;> simp at hr <;> tauto
          rcases hr with rfl | rfl | rfl <;> dsimp only <;> omega
        refine .inl ⟨hreads, ?_⟩
        rw [recoverRecord, if_neg h8, hnum, ok_bind]
        dsimp only
        rw [hmod, if_neg hguard, hsum, ok_bind, hslice, ok_bind]
        -- A wrong checksum, a text that is not JSON and one that is not a record are errors.
        by_cases hcrc : sum ≠ crc32Hash E text
        · exact .inl ⟨_, by rw [if_pos hcrc]⟩
        rw [if_neg hcrc]
        rcases hparse : codec.parse text with _ | j
        · exact .inl ⟨_, rfl⟩
        dsimp only
        rcases hjson : ManifestRecord.fromJson j with what | record
        · exact .inl ⟨_, rfl⟩
        refine .inr ⟨text, record, ⟨j, hparse, hjson⟩, by omega, ?_, by omega⟩
        have hdroptext : content.drop (offset + 8) = text ++ content.drop (offset + 8 + len) := by
          have := List.take_append_drop len (content.drop (offset + 8))
          rw [List.drop_drop] at this
          rw [htext, this]
        calc content.drop offset
            = putU64 len ++ (text ++ (putU32 sum ++ content.drop (offset + 8 + len + 4))) := by
              rw [hdrop, hdroptext, hdropsum]
              rfl
          _ = textFrame E text ++ content.drop (offset + (text.length + 12)) := by
              rw [not_not.mp hcrc, textFrame, htextlen, List.append_assoc, List.append_assoc]
              congr 4
              omega

/-- The check holds behind a frame exactly where it holds from the frame on. -/
theorem guardHolds_textFrame {text rest : Bytes} {record : ManifestRecord}
    (h : codec.Reads text record) (hlt : (textFrame E text ++ rest).length < 2^63) :
    GuardHolds E codec (textFrame E text ++ rest) ↔ GuardHolds E codec rest := by
  have htextlt : text.length < 2^63 := by
    rw [List.length_append, length_textFrame] at hlt
    omega
  constructor
  · intro hguard texts len rest' htexts hge hlen hrest
    refine hguard (text :: texts) len rest' ?_ hge hlen ?_
    · exact List.forall_mem_cons.mpr ⟨⟨record, h⟩, htexts⟩
    · rw [hrest, List.map_cons, List.flatten_cons, List.append_assoc]
  · intro hguard texts len rest' htexts hge hlen heq
    have h8 : ∀ v (a b : Bytes), putU64 text.length ++ a = putU64 v ++ b → v < 2^64 →
        text.length = v ∧ a = b := by
      intro v a b hab hv
      obtain ⟨hput, hab⟩ := List.append_inj hab (by simp)
      have hget := congrArg BigEndian.get hput
      rw [putU64, putU64, BigEndian.get_put, BigEndian.get_put, Nat.mod_eq_of_lt (by omega),
        Nat.mod_eq_of_lt (by omega)] at hget
      exact ⟨hget, hab⟩
    rcases texts with _ | ⟨t, texts⟩
    · -- The length of a text does not wrap around.
      rw [textFrame, List.append_assoc] at heq
      obtain ⟨htl, -⟩ := h8 len _ _ heq hlen
      omega
    · obtain ⟨⟨record', htext⟩, htail⟩ := List.forall_mem_cons.mp htexts
      rw [List.map_cons, List.flatten_cons, List.append_assoc] at heq
      have htlt : t.length < 2^63 := by
        rw [heq, List.length_append, length_textFrame] at hlt
        omega
      have hframe : text = t := by
        rw [textFrame, textFrame, List.append_assoc, List.append_assoc, List.append_assoc,
          List.append_assoc] at heq
        obtain ⟨htl, heq⟩ := h8 t.length _ _ heq (by omega)
        exact (List.append_inj heq htl).1
      subst hframe
      exact hguard texts len rest' htail hge hlen (List.append_cancel_left heq)

/-- The text behind `offset`. -/
theorem recoverRecord_of_drop {text rest : Bytes} {record : ManifestRecord}
    (h : codec.Reads text record) (hlt : text.length < 2^63) (hle : offset ≤ content.length)
    (hdrop : content.drop offset = textFrame E text ++ rest) :
    recoverRecord E codec content offset = .ok (record, offset + (text.length + 12)) := by
  have hpre : (content.take offset).length = offset := by rw [List.length_take]; omega
  have hok := recoverRecord_text (E := E) hlt h (content.take offset) rest
  rwa [← hdrop, List.take_append_drop, List.length_append, length_textFrame, hpre] at hok

/-- The rounds behind one that reads a record. -/
theorem recoversInBounds_succ {record : ManifestRecord} {n offset' : ℕ}
    (hlt : offset < content.length) (hreads : InBounds content (recordReads E content offset))
    (hok : recoverRecord E codec content offset = .ok (record, offset')) :
    RecoversInBounds E codec content (n + 1) offset ↔
      RecoversInBounds E codec content n offset' := by
  have hrec : recoverRecords E codec content (n + 1) offset =
      recoverRecords E codec content n offset' >>= fun records => .ok (record :: records) := by
    rw [recoverRecords, if_pos hlt, hok]
    rfl
  have happend : recoverReads E codec content (n + 1) offset =
      recordReads E content offset ++ recoverReads E codec content n offset' := by
    rw [recoverReads, if_pos hlt, hok]
  unfold RecoversInBounds
  rw [hrec, happend]
  refine and_congr ?_ ?_
  · unfold InBounds
    rw [List.forall_mem_append]
    exact and_iff_right hreads
  · rcases recoverRecords E codec content n offset' with e | records
    · simp [bind, Except.bind]
    · simp

/-- The rounds from `offset` on recover the content in its bounds exactly where the check holds
there. Every round moves on, so that as many rounds as bytes are enough. -/
theorem recoversInBounds_iff (hsize : content.length < 2^63) (n : ℕ)
    (hle : offset ≤ content.length) (hn : content.length - offset < n) :
    RecoversInBounds E codec content n offset ↔ GuardHolds E codec (content.drop offset) := by
  induction n generalizing offset with
  | zero => omega
  | succ n ih =>
    by_cases hlt : offset < content.length
    · rcases recoverRecord_cases E codec hsize hlt with
        ⟨hreads, ⟨what, herror⟩ | ⟨text, record, htext, htextlt, hdrop, hle'⟩⟩ |
        ⟨len, rest, hdrop, hge, hlen, hguard⟩
      -- A record in error ends the loop, within bounds. No frames that can be read lead past it.
      · constructor
        · intro _ texts len rest htexts hge hlen heq
          by_contra hguard
          rcases texts with _ | ⟨text, texts⟩
          · obtain ⟨⟨what', hundef⟩, -⟩ := recoverRecord_wraps E codec hsize hle heq
              hge hlen (not_lt.mp hguard)
            rw [herror] at hundef
            cases hundef
          · obtain ⟨⟨record, htext⟩, -⟩ := List.forall_mem_cons.mp htexts
            rw [List.map_cons, List.flatten_cons, List.append_assoc] at heq
            have hshort := congrArg List.length heq
            rw [List.length_drop, List.length_append, length_textFrame] at hshort
            rw [recoverRecord_of_drop htext (by omega) hle heq] at herror
            cases herror
        · intro _
          unfold RecoversInBounds
          rw [recoverReads, recoverRecords, if_pos hlt, if_pos hlt, herror, List.append_nil]
          exact ⟨hreads, .inr ⟨what, rfl⟩⟩
      -- A record that is read: the loop goes on behind its frame.
      · have hok := recoverRecord_of_drop (E := E) htext htextlt hle hdrop
        rw [recoversInBounds_succ hlt hreads hok, ih hle' (by omega), hdrop,
          guardHolds_textFrame htext]
        rw [← hdrop, List.length_drop]
        omega
      -- The sum wraps, and a read goes past the end.
      · obtain ⟨-, hreads⟩ := recoverRecord_wraps E codec hsize hle hdrop hge hlen
          hguard
        constructor
        · intro hrec
          refine absurd (fun r hr => hrec.1 r ?_) hreads
          rw [recoverReads, if_pos hlt]
          exact List.mem_append_left _ hr
        · intro hholds
          exact absurd (hholds [] len rest (by simp) hge hlen hdrop) (by omega)
    · -- The loop ends at the end of the content.
      constructor
      · intro _ texts len rest _ _ _ heq
        have hlen := congrArg List.length heq
        rw [List.length_drop, List.length_append, List.length_append, length_putU64] at hlen
        omega
      · intro _
        unfold RecoversInBounds
        rw [recoverReads, recoverRecords, if_neg hlt, if_neg hlt]
        exact ⟨fun r hr => absurd hr List.not_mem_nil, .inl ⟨[], rfl⟩⟩

/-- The loop ends within as many rounds as there are bytes: further rounds change nothing. -/
theorem recoverRecords_rounds (hsize : content.length < 2^63) {n m : ℕ}
    (hle : offset ≤ content.length) (hn : content.length - offset < n)
    (hm : content.length - offset < m) :
    recoverRecords E codec content n offset = recoverRecords E codec content m offset := by
  induction n generalizing offset m with
  | zero => omega
  | succ n ih =>
    obtain ⟨m, rfl⟩ : ∃ k, m = k + 1 := ⟨m - 1, by omega⟩
    rw [recoverRecords, recoverRecords]
    by_cases hlt : offset < content.length
    · rw [if_pos hlt, if_pos hlt]
      rcases recoverRecord_cases E codec hsize hlt with
        ⟨-, ⟨what, herror⟩ | ⟨text, record, htext, htextlt, hdrop, hle'⟩⟩ |
        ⟨len, rest, hdrop, hge, hlen, hguard⟩
      · rw [herror]
        rfl
      · rw [recoverRecord_of_drop htext htextlt hle hdrop, ok_bind, ok_bind]
        dsimp only
        rw [ih hle' (by omega) (by omega : content.length - (offset + (text.length + 12)) < m)]
      · obtain ⟨⟨what, hundef⟩, -⟩ := recoverRecord_wraps E codec hsize hle hdrop
          hge hlen hguard
        rw [hundef]
        rfl
    · rw [if_neg hlt, if_neg hlt]

namespace ManifestFile

/-- `Manifest::recover` reads within the content only, and it ends with the records or with an error
string. -/
structure MemoryBounded (E : Extern) (codec : JsonCodec) (content : Bytes) : Prop where
  reads : InBounds content (recoverReads E codec content (content.length + 1) 0)
  result : (∃ r, recover E codec ⟨content, 0⟩ = .ok r) ∨
    ∃ what, recover E codec ⟨content, 0⟩ = .error (.runtimeError what)

theorem memoryBounded_iff_rounds : MemoryBounded E codec content ↔
    RecoversInBounds E codec content (content.length + 1) 0 := by
  have hresult : ((∃ r, recover E codec ⟨content, 0⟩ = .ok r) ∨
      ∃ what, recover E codec ⟨content, 0⟩ = .error (.runtimeError what)) ↔
      ((∃ records, recoverRecords E codec content (content.length + 1) 0 = .ok records) ∨
        ∃ what, recoverRecords E codec content (content.length + 1) 0 =
          .error (.runtimeError what)) := by
    rw [recover]
    dsimp only
    rcases recoverRecords E codec content (content.length + 1) 0 with e | records
    · simp [bind, Except.bind]
    · simp
  constructor
  · exact fun h => ⟨h.reads, hresult.mp h.result⟩
  · exact fun h => ⟨h.1, hresult.mpr h.2⟩

/-- On every content, the loop of `Manifest::recover` terminates. It is memory-bounded exactly where
the check in front of its reads does not wrap around. -/
theorem memoryBounded_iff (E : Extern) (codec : JsonCodec) {content : Bytes}
    (hsize : content.length < 2^63) :
    (∀ n, content.length < n → recoverRecords E codec content n 0 =
      recoverRecords E codec content (content.length + 1) 0) ∧
      (MemoryBounded E codec content ↔ GuardHolds E codec content) := by
  constructor
  · intro n hn
    exact recoverRecords_rounds hsize (Nat.zero_le _) (by omega) (by omega)
  · rw [memoryBounded_iff_rounds, recoversInBounds_iff hsize _ (Nat.zero_le _) (by omega),
      List.drop_zero]

/-- There is no length in less than eight bytes. -/
theorem guardHolds_short {rest : Bytes} (h : rest.length < 8) : GuardHolds E codec rest := by
  intro texts len rest' _ _ _ heq
  have hlen := congrArg List.length heq
  rw [List.length_append, List.length_append, length_putU64] at hlen
  omega

theorem memoryBounded_torn :
    MemoryBounded .lib .digit (recordFrame .lib .digit (.newMemtable 0) ++ [0, 0, 0]) :=
  (memoryBounded_iff .lib .digit (by decide)).2.mpr
    ((guardHolds_textFrame ⟨_, rfl, rfl⟩ (by decide)).mpr (guardHolds_short (by decide)))

/-- The length `2^64 - 4` in a file of eight bytes. -/
theorem not_memoryBounded_wraps :
    ¬ ∀ content : Bytes, content.length < 2^63 → MemoryBounded .lib .digit content := by
  intro h
  have hbounded := memoryBounded_iff_rounds.mp (h (putU64 (2^64 - 4)) (by simp))
  rw [recoversInBounds_iff (by simp) _ (Nat.zero_le _) (by simp), List.drop_zero] at hbounded
  exact absurd (hbounded [] (2^64 - 4) [] (by simp) le_rfl (by norm_num) (by simp)) (by simp)

end ManifestFile

/-! ## The block index -/

/-- The reads of the loop in `BlockMeta::decode_block_meta`: `n` entries from `pos` on. -/
def blockMetaReads (raw : Bytes) : ℕ → ℕ → List (ℕ × ℕ)
  | 0, _ => []
  | n + 1, pos =>
    (pos, 4) :: (pos + 4, 2) ::
    match readU16 raw (pos + 4) with
    | .error _ => []
    | .ok fk_len =>
      (pos + 6, fk_len) :: (pos + 6 + fk_len, 2) ::
      match readU16 raw (pos + 6 + fk_len) with
      | .error _ => []
      | .ok lk_len =>
        (pos + 6 + fk_len + 2, lk_len) :: blockMetaReads raw n (pos + 6 + fk_len + 2 + lk_len)

/-- The bytes between the count and the trailing checksum. -/
def metaBody (raw : Bytes) : Bytes := (raw.drop 4).take (raw.length - 8)

/-- The encoded entries. -/
def encodeEntries (metas : List BlockMeta) : Bytes := (metas.map BlockMeta.encode).flatten

variable {raw body : Bytes} {metas : List BlockMeta} {n pos : ℕ}

/-- The loop reads on. -/
theorem le_of_mem_blockMetaReads {r : ℕ × ℕ} (hr : r ∈ blockMetaReads raw n pos) : pos ≤ r.1 := by
  induction n generalizing pos with
  | zero => cases hr
  | succ n ih =>
    rw [blockMetaReads] at hr
    rcases h1 : readU16 raw (pos + 4) with e | fk_len
    · rw [h1] at hr
      simp only [List.mem_cons, List.not_mem_nil, or_false] at hr
      rcases hr with rfl | rfl <;> dsimp only <;> omega
    rw [h1] at hr
    dsimp only at hr
    rcases h2 : readU16 raw (pos + 6 + fk_len) with e | lk_len
    · rw [h2] at hr
      simp only [List.mem_cons, List.not_mem_nil, or_false] at hr
      rcases hr with rfl | rfl | rfl | rfl <;> dsimp only <;> omega
    · rw [h2] at hr
      simp only [List.mem_cons] at hr
      rcases hr with rfl | rfl | rfl | rfl | rfl | hr
      iterate 5 dsimp only; omega
      have := ih hr
      omega

/-- The reads of an entry that stands at `pos`, and those of the entries behind it. -/
theorem blockMetaReads_encode {m : BlockMeta} (h : m.Fits) (pre rest : Bytes) (n : ℕ)
    (hpos : pos = pre.length) :
    blockMetaReads (pre ++ (m.encode ++ rest)) (n + 1) pos =
      [(pos, 4), (pos + 4, 2), (pos + 6, m.first_key.length), (pos + 6 + m.first_key.length, 2),
        (pos + 6 + m.first_key.length + 2, m.last_key.length)] ++
      blockMetaReads (pre ++ (m.encode ++ rest)) n (pos + m.encode.length) := by
  obtain ⟨-, r2, -, r3, -⟩ := h.reads pre rest hpos
  have hnext : pos + 6 + m.first_key.length + 2 + m.last_key.length = pos + m.encode.length := by
    rw [BlockMeta.length_encode]
    omega
  rw [blockMetaReads, r2]
  dsimp only
  rw [r3]
  dsimp only
  rw [hnext]
  rfl

/-- A number is read from the bytes in the middle of a buffer. -/
theorem readBE_middle (pre post : Bytes) {i n : ℕ} (h : i + n ≤ body.length) :
    readBE n (pre ++ (body ++ post)) (pre.length + i) = readBE n body i := by
  rw [readBE, readBE, if_pos (by simp only [List.length_append]; omega), if_pos h,
    ← List.drop_drop, List.drop_left, List.drop_append_of_le_length (by omega),
    List.take_append_of_le_length (by rw [List.length_drop]; omega)]

/-- If the reads of an entry are within the bytes, an entry stands there. -/
theorem exists_encode_of_reads (pre post : Bytes) (hpos : pos = pre.length)
    (h : ∀ r ∈ blockMetaReads (pre ++ (body ++ post)) (n + 1) pos, r.1 + r.2 ≤ pos + body.length) :
    ∃ m : BlockMeta, m.Fits ∧ ∃ rest, body = m.encode ++ rest := by
  subst hpos
  rw [blockMetaReads] at h
  have h4 := h (pre.length, 4) (by simp)
  have h6 := h (pre.length + 4, 2) (by simp)
  dsimp only at h4 h6
  obtain ⟨offset, hoffset, -, hbody⟩ := readBE_of_le 4 0 body (by omega)
  obtain ⟨fk_len, hfk_len, hfk, hbody4⟩ := readBE_of_le 2 4 body (by omega)
  rw [readU16, readBE_middle pre post (by omega), hfk] at h
  dsimp only at h
  have hfk6 := h (pre.length + 6, fk_len) (by simp)
  have hfk8 := h (pre.length + 6 + fk_len, 2) (by simp)
  dsimp only at hfk6 hfk8
  obtain ⟨lk_len, hlk_len, hlk, hbody6⟩ := readBE_of_le 2 (6 + fk_len) body (by omega)
  rw [readU16, Nat.add_assoc pre.length, readBE_middle pre post (by omega), hlk] at h
  dsimp only at h
  have hlk8 := h (pre.length + (6 + fk_len) + 2, lk_len) (by simp)
  dsimp only at hlk8
  obtain ⟨fk, hfk⟩ : ∃ fk, fk = (body.drop 6).take fk_len := ⟨_, rfl⟩
  obtain ⟨lk, hlk⟩ : ∃ lk, lk = (body.drop (6 + fk_len + 2)).take lk_len := ⟨_, rfl⟩
  have hfklen : fk.length = fk_len := by rw [hfk, List.length_take, List.length_drop]; omega
  have hlklen : lk.length = lk_len := by rw [hlk, List.length_take, List.length_drop]; omega
  have hdrop6 : body.drop 6 = fk ++ body.drop (6 + fk_len) := by
    rw [hfk, ← List.drop_drop, List.take_append_drop]
  have hdrop8 : body.drop (6 + fk_len + 2) = lk ++ body.drop (6 + fk_len + 2 + lk_len) := by
    have := List.take_append_drop lk_len (body.drop (6 + fk_len + 2))
    rw [List.drop_drop] at this
    rw [hlk, this]
  refine ⟨⟨offset, fk, lk⟩, ⟨hoffset, hfklen ▸ hfk_len, hlklen ▸ hlk_len⟩,
    body.drop (6 + fk_len + 2 + lk_len), ?_⟩
  calc body = putU32 offset ++ (putU16 fk_len ++ (fk ++ (putU16 lk_len ++
        (lk ++ body.drop (6 + fk_len + 2 + lk_len))))) := by
        rw [← hdrop8, putU16, putU16, ← hbody6, ← hdrop6, ← hbody4, putU32, ← hbody, List.drop_zero]
    _ = BlockMeta.encode ⟨offset, fk, lk⟩ ++ body.drop (6 + fk_len + 2 + lk_len) := by
        simp only [BlockMeta.encode, hfklen, hlklen, List.append_assoc]

/-- The reads of the loop are within the bytes exactly where these begin with as many entries. -/
theorem blockMetaReads_iff (n : ℕ) (body pre post : Bytes) (hpos : pos = pre.length) :
    (∀ r ∈ blockMetaReads (pre ++ (body ++ post)) n pos, r.1 + r.2 ≤ pos + body.length) ↔
      ∃ metas : List BlockMeta, (∀ m ∈ metas, m.Fits) ∧ metas.length = n ∧
        encodeEntries metas <+: body := by
  induction n generalizing pre body pos with
  | zero =>
    constructor
    · exact fun _ => ⟨[], by simp, rfl, List.nil_prefix⟩
    · exact fun _ r hr => absurd hr List.not_mem_nil
  | succ n ih =>
    -- An entry in front, and what its five reads leave to the rest of the loop.
    have hstep : ∀ (m : BlockMeta) (rest : Bytes), m.Fits → body = m.encode ++ rest →
        ((∀ r ∈ blockMetaReads (pre ++ (body ++ post)) (n + 1) pos, r.1 + r.2 ≤ pos + body.length) ↔
          ∃ metas : List BlockMeta, (∀ m ∈ metas, m.Fits) ∧ metas.length = n ∧
            encodeEntries metas <+: rest) := by
      intro m rest hm hbody
      have hpre : pos + m.encode.length = (pre ++ m.encode).length := by
        rw [hpos, List.length_append]
      have hlen : pos + body.length = pos + m.encode.length + rest.length := by
        rw [hbody, List.length_append]
        omega
      have hraw : pre ++ (body ++ post) = (pre ++ m.encode) ++ (rest ++ post) := by
        rw [hbody, List.append_assoc, List.append_assoc]
      have hmlen := BlockMeta.length_encode m
      rw [← ih rest (pre ++ m.encode) hpre, ← hraw, ← hlen, hbody, List.append_assoc,
        blockMetaReads_encode hm pre _ n hpos, ← List.append_assoc m.encode, ← hbody,
        List.forall_mem_append]
      refine and_iff_right fun r hr => ?_
      simp only [List.mem_cons, List.not_mem_nil, or_false] at hr
      rcases hr with rfl | rfl | rfl | rfl | rfl <;> dsimp only <;> omega
    constructor
    · intro h
      obtain ⟨m, hm, rest, hbody⟩ := exists_encode_of_reads pre post hpos h
      obtain ⟨metas, hmetas, hlen, hprefix⟩ := (hstep m rest hm hbody).mp h
      refine ⟨m :: metas, List.forall_mem_cons.mpr ⟨hm, hmetas⟩, by rw [List.length_cons, hlen], ?_⟩
      rw [hbody, encodeEntries, List.map_cons, List.flatten_cons]
      exact (List.prefix_append_right_inj _).mpr hprefix
    · rintro ⟨_ | ⟨m, metas⟩, hmetas, hlen, hprefix⟩
      · cases hlen
      · obtain ⟨hm, hmetas⟩ := List.forall_mem_cons.mp hmetas
        rw [encodeEntries, List.map_cons, List.flatten_cons] at hprefix
        obtain ⟨tail, htail⟩ := hprefix
        rw [List.append_assoc] at htail
        refine (hstep m _ hm htail.symm).mpr ⟨metas, hmetas, by simpa using hlen, ?_⟩
        exact List.prefix_append _ _

theorem length_sections (num : ℕ) (body : Bytes) (sum : ℕ) :
    (putU32 num ++ (body ++ putU32 sum)).length = body.length + 8 := by
  simp only [List.length_append, length_putU32]
  omega

theorem drop_sections (num : ℕ) (body : Bytes) (sum : ℕ) :
    (putU32 num ++ (body ++ putU32 sum)).drop (body.length + 4) = putU32 sum := by
  rw [← List.append_assoc, List.drop_left' (by rw [List.length_append, length_putU32]; omega)]

theorem readU32_sections {num : ℕ} (hnum : num < 2^32) (rest : Bytes) :
    readU32 (putU32 num ++ rest) 0 = .ok num :=
  readU32_append num [] rest rfl hnum

/-- Bytes with a count in front and a checksum behind. -/
theorem exists_sections (h : 8 ≤ raw.length) :
    ∃ num sum, num < 2^32 ∧ sum < 2^32 ∧ raw = putU32 num ++ (metaBody raw ++ putU32 sum) ∧
      readU32 raw (raw.length - 4) = .ok sum := by
  obtain ⟨num, hnum, -, hdrop⟩ := readBE_of_le 4 0 raw (by omega)
  obtain ⟨sum, hsum, hread, hend⟩ := readBE_of_le 4 (raw.length - 4) raw (by omega)
  refine ⟨num, sum, hnum, hsum, ?_, hread⟩
  have hmid : raw.drop 4 = metaBody raw ++ raw.drop (raw.length - 4) := by
    have := List.take_append_drop (raw.length - 8) (raw.drop 4)
    rw [List.drop_drop, show 4 + (raw.length - 8) = raw.length - 4 by omega] at this
    rw [metaBody, this]
  have hnil : raw.drop (raw.length - 4 + 4) = [] := List.drop_eq_nil_of_le (by omega)
  rw [hnil, List.append_nil] at hend
  calc raw = putU32 num ++ raw.drop 4 := by rw [putU32, ← hdrop, List.drop_zero]
    _ = putU32 num ++ (metaBody raw ++ putU32 sum) := by
      rw [hmid, hend]
      rfl

/-- The loop of `decode_block_meta` does not throw. -/
theorem not_throws_readBlockMetas : ¬ Throws (readBlockMetas raw n pos) := by
  rintro ⟨what, h⟩
  rcases readBlockMetas_error h with h | h <;> cases h

/-- The entry loop of `decode_block_meta` reads between the count and the trailing checksum only and
returns, exactly where the count is the number of some first entries there. With the bytes in front
of the checksum changed, the result is an exception or the index that was encoded, exactly where the
count is the one of this index or some byte behind the count is changed. -/
theorem decodeBlockMeta_bounded (E : Extern) :
    (∀ raw num, 8 ≤ raw.length → readU32 raw 0 = .ok num →
      readU32 raw (raw.length - 4) = .ok (crc32Hash E (metaBody raw)) →
      (((∀ r ∈ blockMetaReads raw num 4, 4 ≤ r.1 ∧ r.1 + r.2 ≤ raw.length - 4) ∧
          ∃ metas, decodeBlockMeta E raw = .ok metas) ↔
        ∃ metas : List BlockMeta, (∀ m ∈ metas, m.Fits) ∧ metas.length = num ∧
          encodeEntries metas <+: metaBody raw)) ∧
    ∀ (metas : List BlockMeta) (raw : Bytes), (∀ m ∈ metas, m.Fits) →
      raw.length = (encodeBlockMeta E metas).length →
      raw.drop (raw.length - 4) = (encodeBlockMeta E metas).drop (raw.length - 4) →
      (crc32Hash E (metaBody raw) = crc32Hash E (encodeEntries metas) →
        metaBody raw = encodeEntries metas) →
      ((Throws (decodeBlockMeta E raw) ∨ decodeBlockMeta E raw = .ok metas) ↔
        readU32 raw 0 = .ok metas.length ∨ metaBody raw ≠ encodeEntries metas) := by
  constructor
  · intro raw num hlen hnum hsum
    obtain ⟨num', sum, hnum', hsum', hraw, hread⟩ := exists_sections hlen
    obtain ⟨body, hbody⟩ : ∃ body, body = metaBody raw := ⟨_, rfl⟩
    rw [hread, Except.ok.injEq, ← hbody] at hsum
    rw [← hbody] at hraw ⊢
    rw [hraw, readU32_sections hnum', Except.ok.injEq] at hnum
    rw [hraw, decodeBlockMeta_sections E hnum' hsum', if_neg (not_not.mpr hsum), hnum,
      length_sections, show body.length + 8 - 4 = 4 + body.length by omega]
    have hpos : 4 = (putU32 num).length := (length_putU32 num).symm
    have hiff := blockMetaReads_iff num body (putU32 num) (putU32 sum) hpos
    constructor
    · exact fun h => hiff.mp fun r hr => (h.1 r hr).2
    · rintro ⟨metas, hfits, hlength, tail, htail⟩
      refine ⟨fun r hr => ⟨le_of_mem_blockMetaReads hr, ?_⟩, metas, ?_⟩
      · exact hiff.mpr ⟨metas, hfits, hlength, tail, htail⟩ r hr
      · rw [← htail, ← hlength, List.append_assoc]
        exact readBlockMetas_append metas hfits _ _ (length_putU32 _).symm
  · intro metas raw hfits hlen htail hcollision
    have hraw8 : 8 ≤ raw.length := by
      rw [hlen, encodeBlockMeta, length_sections]
      omega
    obtain ⟨num, sum, hnum, hsum, hraw, -⟩ := exists_sections hraw8
    obtain ⟨body, hbody⟩ : ∃ body, body = metaBody raw := ⟨_, rfl⟩
    rw [← hbody] at hraw hcollision ⊢
    have hbodylen : body.length = (encodeEntries metas).length := by
      rw [hraw, encodeBlockMeta, length_sections, length_sections] at hlen
      exact Nat.add_right_cancel hlen
    -- The checksum is still the one of the encoded entries.
    have hsumeq : sum = crc32Hash E (encodeEntries metas) := by
      have hend : putU32 sum = putU32 (crc32Hash E (encodeEntries metas)) := by
        rw [hraw, length_sections, show body.length + 8 - 4 = body.length + 4 by omega,
          drop_sections, hbodylen, encodeBlockMeta] at htail
        exact htail.trans (drop_sections _ _ _)
      have hget := congrArg BigEndian.get hend
      rwa [putU32, putU32, BigEndian.get_put, BigEndian.get_put,
        Nat.mod_eq_of_lt (show sum < 256^4 from hsum),
        Nat.mod_eq_of_lt (show _ < 256^4 from crc32Hash_lt E _)] at hget
    rw [hraw, readU32_sections hnum, Except.ok.injEq, decodeBlockMeta_sections E hnum hsum]
    by_cases hsame : body = encodeEntries metas
    · rw [if_neg (by rw [hsumeq, hsame]; simp), or_iff_right not_throws_readBlockMetas,
        or_iff_left (not_not.mpr hsame)]
      constructor
      · exact fun h => (readBlockMetas_length h).symm
      · intro h
        rw [h, hsame]
        exact readBlockMetas_append metas hfits _ _ (length_putU32 _).symm
    · have hne : sum ≠ crc32Hash E body := fun h => hsame (hcollision (h.symm.trans hsumeq))
      rw [if_pos hne]
      exact iff_of_true (.inl ⟨_, rfl⟩) (.inr hsame)

/-- An index of one entry, and the same with another byte in the key. -/
theorem decodeBlockMeta_bounded_one :
    (∃ metas, decodeBlockMeta .lib (encodeBlockMeta .lib [⟨0, [97], [98]⟩]) = .ok metas) ∧
      (Throws (decodeBlockMeta .lib
        [0, 0, 0, 1, 0, 0, 0, 0, 0, 1, 99, 0, 1, 98, 0xE7, 0xD7, 0xE0, 0x95]) ∨
        decodeBlockMeta .lib [0, 0, 0, 1, 0, 0, 0, 0, 0, 1, 99, 0, 1, 98, 0xE7, 0xD7, 0xE0, 0x95] =
          .ok [⟨0, [97], [98]⟩]) := by
  have hfits : ∀ m ∈ [(⟨0, [97], [98]⟩ : BlockMeta)], m.Fits := by
    simp [BlockMeta.Fits]
  refine ⟨(((decodeBlockMeta_bounded .lib).1 _ 1 ?_ ?_ ?_).mpr ⟨_, hfits, rfl, ?_⟩).2,
    ((decodeBlockMeta_bounded .lib).2 _ _ hfits ?_ ?_ ?_).mpr (.inl ?_)⟩
  all_goals decide +kernel

/-- The count of an empty index is changed to one, which the checksum does not cover. -/
theorem not_decodeBlockMeta_bounded_count :
    (¬ ∀ raw num, 8 ≤ raw.length → readU32 raw 0 = .ok num →
      readU32 raw (raw.length - 4) = .ok (crc32Hash .lib (metaBody raw)) →
      ∀ r ∈ blockMetaReads raw num 4, 4 ≤ r.1 ∧ r.1 + r.2 ≤ raw.length - 4) ∧
    ¬ ∀ (metas : List BlockMeta) (raw : Bytes), (∀ m ∈ metas, m.Fits) →
      raw.length = (encodeBlockMeta .lib metas).length →
      raw.drop (raw.length - 4) = (encodeBlockMeta .lib metas).drop (raw.length - 4) →
      (crc32Hash .lib (metaBody raw) = crc32Hash .lib (encodeEntries metas) →
        metaBody raw = encodeEntries metas) →
      Throws (decodeBlockMeta .lib raw) ∨ decodeBlockMeta .lib raw = .ok metas := by
  constructor
  · intro h
    have hread := h [0, 0, 0, 1, 0, 0, 0, 0] 1 (by decide) (by decide) (by decide +kernel) (4, 4)
      (by decide)
    simp at hread
  · intro h
    have hdecode : decodeBlockMeta .lib [0, 0, 0, 1, 0, 0, 0, 0] =
        .error (.undefined "read past the end of the buffer") := by decide +kernel
    rcases h [] [0, 0, 0, 1, 0, 0, 0, 0] (by simp) (by decide +kernel) (by decide +kernel)
      (fun _ => rfl) with ⟨what, hthrows⟩ | hok
    · rw [hdecode] at hthrows
      cases hthrows
    · rw [hdecode] at hok
      cases hok

end MiniLsm
