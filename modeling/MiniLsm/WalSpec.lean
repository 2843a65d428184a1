import MiniLsm.MemTableSpec
import MiniLsm.Libraries

/-!
# The recovery of the log

What `Wal::recover` does on any file at all. A round of its loop that returns a record has read a
frame that `Wal::put` would have written (`recoverFrame_eq_some`), so that the file is cut to the
frames of the records that are returned (`recover_spec`). From there on the log is as if it had been
written by `put` alone: recovering it again changes nothing, and later records come behind the old
ones.

The bounds of the reads are made explicit by a second form of the loop, whose reads throw where they
leave the buffer (`readLoop`).

A call that fails may leave a part of its bytes in the file (`attempt`). The records of later calls
stand behind those bytes, where the recovery finds them only if the bytes end with a frame
(`recover_attempts`).
-/

namespace MiniLsm

/-- A call that writes to a log. -/
inductive WalCall where
  /-- `Wal::put` -/
  | put (key value : Bytes)
  /-- `Wal::put_batch` -/
  | putBatch (batch : List (Bytes × Bytes))

namespace WalCall

/-- The records that a call writes. -/
def records : WalCall → List (Bytes × Bytes)
  | put key value => [(key, value)]
  | putBatch batch => batch

/-- The log after a call. -/
def apply (E : Extern) (w : Wal) : WalCall → Wal
  | put key value => w.put E key value
  | putBatch batch => w.putBatch E batch

end WalCall

namespace Wal

/-- The records of some calls. -/
def records (calls : List WalCall) : List (Bytes × Bytes) := (calls.map WalCall.records).flatten

/-- The bytes that some calls append to a log. -/
def bytesOf (E : Extern) (calls : List WalCall) : Bytes :=
  (calls.foldl (WalCall.apply E) ⟨[]⟩).buffered

theorem foldl_frames (E : Extern) (rs : List (Bytes × Bytes)) (buffer : Bytes) :
    rs.foldl (fun buffer r => buffer ++ frame E r.1 r.2) buffer = buffer ++ frames E rs := by
  induction rs generalizing buffer with
  | nil => simp [frames]
  | cons r rs ih =>
    rw [List.foldl_cons, ih, List.append_assoc]
    rfl

/-- The calls append the frames of their records. -/
theorem bytesOf_eq (E : Extern) (calls : List WalCall) :
    bytesOf E calls = frames E (records calls) := by
  have hfold : ∀ (calls : List WalCall) (w : Wal),
      (calls.foldl (WalCall.apply E) w).buffered = w.buffered ++ frames E (records calls) := by
    intro calls
    induction calls with
    | nil => simp [records, frames]
    | cons call calls ih =>
      intro w
      have hcall : (call.apply E w).buffered = w.buffered ++ frames E call.records := by
        cases call with
        | put key value => simp [WalCall.apply, Wal.put, WalCall.records, frames]
        | putBatch batch =>
          rw [WalCall.apply, Wal.putBatch, foldl_frames, List.nil_append]
          rfl
      have hrecords : records (call :: calls) = call.records ++ records calls := rfl
      rw [List.foldl_cons, ih, hcall, hrecords, frames_append, List.append_assoc]
  rw [bytesOf, hfold, List.nil_append]

/-! ## Any file -/

/-- A round of the loop, with reads that throw where they leave the buffer. -/
def readFrame (E : Extern) (buf : Bytes) (pos : ℕ) : Except Error (Option ((Bytes × Bytes) × ℕ)) :=
  if buf.length - pos < 2 then .ok none else do
    let key_len ← readU16 buf pos
    if buf.length - pos < 2 + key_len + 2 then .ok none else do
      let val_len ← readU16 buf (pos + 2 + key_len)
      let frame_content_len := 2 + key_len + 2 + val_len
      if buf.length - pos < frame_content_len + 4 then .ok none else do
        let content ← slice buf pos frame_content_len
        let expected_crc ← readU32 buf (pos + frame_content_len)
        if crc32Hash E content ≠ expected_crc then .ok none else do
          let key ← slice buf (pos + 2) key_len
          let val ← slice buf (pos + 2 + key_len + 2) val_len
          .ok (some ((key, val), pos + frame_content_len + 4))

/-- The loop with such reads, which also throws where it runs out of rounds. -/
def readLoop (E : Extern) (buf : Bytes) : ℕ → ℕ → Except Error (List (Bytes × Bytes) × ℕ)
  | 0, _ => .error (.undefined "more frames than bytes")
  | n + 1, pos =>
    if pos < buf.length then do
      match ← readFrame E buf pos with
      | none => .ok ([], pos)
      | some (rec, pos') => do
        let (records, len) ← readLoop E buf n pos'
        .ok (rec :: records, len)
    else .ok ([], pos)

/-- No read of a round leaves the buffer. -/
theorem readFrame_eq (E : Extern) {buf : Bytes} {pos : ℕ} (hpos : pos ≤ buf.length) :
    readFrame E buf pos = .ok (recoverFrame E buf pos) := by
  rw [readFrame, recoverFrame]
  by_cases h1 : buf.length - pos < 2
  · rw [if_pos h1, if_pos h1]
  rw [if_neg h1, if_neg h1, readU16, readBE, if_pos (by omega), ok_bind]
  dsimp only
  generalize BigEndian.get ((buf.drop pos).take 2) = key_len
  by_cases h2 : buf.length - pos < 2 + key_len + 2
  · rw [if_pos h2, if_pos h2]
  rw [if_neg h2, if_neg h2, readU16, readBE, if_pos (by omega), ok_bind]
  generalize BigEndian.get ((buf.drop (pos + 2 + key_len)).take 2) = val_len
  by_cases h3 : buf.length - pos < 2 + key_len + 2 + val_len + 4
  · rw [if_pos h3, if_pos h3]
  rw [if_neg h3, if_neg h3, slice, if_pos (by omega), ok_bind, readU32, readBE, if_pos (by omega),
    ok_bind]
  split_ifs with h4
  · rfl
  · rw [slice, if_pos (by omega), ok_bind, slice, if_pos (by omega), ok_bind]

/-- What a round has read when it returns a record: a frame, as `Wal::put` writes it. -/
theorem recoverFrame_eq_some {E : Extern} {buf : Bytes} {pos pos' : ℕ} {r : Bytes × Bytes}
    (hpos : pos ≤ buf.length) (h : recoverFrame E buf pos = some (r, pos')) :
    Fits r ∧ pos' = pos + (frame E r.1 r.2).length ∧ pos' ≤ buf.length ∧
      (buf.drop pos).take (frame E r.1 r.2).length = frame E r.1 r.2 := by
  rw [recoverFrame] at h
  by_cases h1 : buf.length - pos < 2
  · rw [if_pos h1] at h
    cases h
  rw [if_neg h1] at h
  dsimp only at h
  have hklt := BigEndian.get_lt ((buf.drop pos).take 2)
  have hkput := BigEndian.put_get ((buf.drop pos).take 2)
  have hklen : ((buf.drop pos).take 2).length = 2 := by
    rw [List.length_take, List.length_drop]
    omega
  rw [hklen] at hklt hkput
  generalize BigEndian.get ((buf.drop pos).take 2) = key_len at h hklt hkput
  by_cases h2 : buf.length - pos < 2 + key_len + 2
  · rw [if_pos h2] at h
    cases h
  rw [if_neg h2] at h
  have hvlt := BigEndian.get_lt ((buf.drop (pos + 2 + key_len)).take 2)
  have hvput := BigEndian.put_get ((buf.drop (pos + 2 + key_len)).take 2)
  have hvlen : ((buf.drop (pos + 2 + key_len)).take 2).length = 2 := by
    rw [List.length_take, List.length_drop]
    omega
  rw [hvlen] at hvlt hvput
  generalize BigEndian.get ((buf.drop (pos + 2 + key_len)).take 2) = val_len at h hvlt hvput
  split_ifs at h with h3 h4
  simp only [Option.some.injEq, Prod.mk.injEq] at h
  obtain ⟨rfl, rfl⟩ := h
  have hk : ((buf.drop (pos + 2)).take key_len).length = key_len := by
    rw [List.length_take, List.length_drop]
    omega
  have hv : ((buf.drop (pos + 2 + key_len + 2)).take val_len).length = val_len := by
    rw [List.length_take, List.length_drop]
    omega
  -- The bytes from `pos` on, part by part.
  have hsplit : ∀ i m n : ℕ, (buf.drop i).take (m + n) =
      (buf.drop i).take m ++ (buf.drop (i + m)).take n := by
    intro i m n
    rw [List.take_add, List.drop_drop]
  have hcontent : (buf.drop pos).take (2 + key_len + 2 + val_len) =
      putU16 key_len ++ ((buf.drop (pos + 2)).take key_len ++ (putU16 val_len ++
        (buf.drop (pos + 2 + key_len + 2)).take val_len)) := by
    rw [hsplit, hsplit, hsplit, ← Nat.add_assoc, ← Nat.add_assoc, ← Nat.add_assoc, putU16, putU16,
      hkput, hvput, List.append_assoc, List.append_assoc]
  have hcrc : BigEndian.put 4 (crc32Hash E ((buf.drop pos).take (2 + key_len + 2 + val_len))) =
      (buf.drop (pos + (2 + key_len + 2 + val_len))).take 4 := by
    have hput := BigEndian.put_get ((buf.drop (pos + (2 + key_len + 2 + val_len))).take 4)
    rw [List.length_take, List.length_drop, min_eq_left (by omega)] at hput
    rw [not_not.mp h4, hput]
  have hframe : frame E ((buf.drop (pos + 2)).take key_len)
      ((buf.drop (pos + 2 + key_len + 2)).take val_len) =
      (buf.drop pos).take (2 + key_len + 2 + val_len + 4) := by
    rw [frame, hk, hv, ← hcontent, putU32, hcrc, ← hsplit]
  refine ⟨⟨?_, ?_⟩, ?_, by omega, ?_⟩
  · dsimp only
    omega
  · dsimp only
    omega
  · rw [length_frame, hk, hv]
    omega
  · dsimp only
    rw [length_frame, hk, hv, hframe]
    congr 1
    omega

/-- What the loop returns, from any position on: full frames up to where it stops. -/
theorem recoverLoop_spec (E : Extern) (buf : Bytes) {n pos : ℕ} (hpos : pos ≤ buf.length)
    (hn : buf.length - pos ≤ n) :
    (∀ r ∈ (recoverLoop E buf n pos).1, Fits r) ∧
      (recoverLoop E buf n pos).2 = pos + (frames E (recoverLoop E buf n pos).1).length ∧
      (recoverLoop E buf n pos).2 ≤ buf.length ∧
      frames E (recoverLoop E buf n pos).1 <+: buf.drop pos ∧
      readLoop E buf (n + 1) pos = .ok (recoverLoop E buf n pos) := by
  induction n generalizing pos with
  | zero =>
    rw [readLoop, if_neg (by omega), recoverLoop]
    exact ⟨by simp, by simp [frames], hpos, by simp [frames], rfl⟩
  | succ n ih =>
    rw [readLoop, recoverLoop]
    split_ifs with hlt
    · rw [readFrame_eq E hpos, ok_bind]
      rcases hf : recoverFrame E buf pos with _ | ⟨r, pos'⟩
      · exact ⟨by simp, by simp [frames], hpos, by simp [frames], rfl⟩
      · obtain ⟨hfits, hpos', hle, hframe⟩ := recoverFrame_eq_some hpos hf
        have hlen := length_frame E r.1 r.2
        obtain ⟨h1, h2, h3, h4, h5⟩ := ih hle (by omega)
        have hcons : frames E (r :: (recoverLoop E buf n pos').1) =
            frame E r.1 r.2 ++ frames E (recoverLoop E buf n pos').1 := rfl
        dsimp only
        rw [h5, ok_bind, hcons]
        refine ⟨?_, ?_, h3, ?_, rfl⟩
        · rw [List.forall_mem_cons]
          exact ⟨hfits, h1⟩
        · rw [h2, hpos', List.length_append]
          omega
        · rw [← List.take_append_drop (frame E r.1 r.2).length (buf.drop pos), hframe, List.drop_drop,
            ← hpos']
          exact (List.prefix_append_right_inj _).mpr h4
    · exact ⟨by simp, by simp [frames], hpos, by simp [frames], rfl⟩

/-- What `recover` does on any file: the file is cut to the frames of the records returned, and no
read leaves the buffer. -/
theorem recover_spec (E : Extern) (buf : Bytes) :
    (∀ r ∈ (recover E buf).1, Fits r) ∧ (recover E buf).2 = frames E (recover E buf).1 ∧
      (recover E buf).2 <+: buf ∧
      readLoop E buf (buf.length + 1) 0 = .ok ((recover E buf).1, (recover E buf).2.length) := by
  obtain ⟨h1, h2, h3, h4, h5⟩ := recoverLoop_spec E buf (Nat.zero_le _) (n := buf.length) (by omega)
  rw [Nat.zero_add] at h2
  rw [List.drop_zero] at h4
  have hkept : (recover E buf).2 = frames E (recover E buf).1 := by
    simp only [recover]
    rw [h2]
    exact (List.prefix_iff_eq_take.mp h4).symm
  refine ⟨h1, hkept, ?_, ?_⟩
  · rw [hkept]
    exact h4
  · rw [h5, hkept]
    refine congrArg Except.ok (Prod.ext rfl ?_)
    exact h2

/-! ## Cut logs -/

/-- A log that is cut at some byte: the frames that lie within what is kept, and a part of the next
one. -/
theorem take_frames (E : Extern) {rs : List (Bytes × Bytes)} (h : ∀ r ∈ rs, Fits r) (n : ℕ) :
    ∃ j torn, Torn E torn ∧ (frames E rs).take n = frames E (rs.take j) ++ torn ∧
      ∀ i < rs.length, i < j ↔ (frames E (rs.take (i + 1))).length ≤ n := by
  induction rs generalizing n with
  | nil => exact ⟨0, [], .inl rfl, by simp [frames], by simp⟩
  | cons r rs ih =>
    rw [List.forall_mem_cons] at h
    have hcons : ∀ rs, frames E (r :: rs) = frame E r.1 r.2 ++ frames E rs := fun _ => rfl
    by_cases hle : (frame E r.1 r.2).length ≤ n
    · obtain ⟨j, torn, ht, htake, hiff⟩ := ih h.2 (n - (frame E r.1 r.2).length)
      refine ⟨j + 1, torn, ht, ?_, fun i hi => ?_⟩
      · rw [hcons, List.take_append, List.take_of_length_le hle, htake, List.take_succ_cons, hcons,
          List.append_assoc]
      · rcases i with _ | i
        · simpa [hcons, frames] using hle
        · rw [List.take_succ_cons, hcons, List.length_append, Nat.add_lt_add_iff_right,
            hiff i (by simpa using hi)]
          omega
    · refine ⟨0, (frame E r.1 r.2).take n, .inr ⟨r, h.1, List.take_prefix _ _, ?_⟩, ?_, fun i _ => ?_⟩
      · rw [List.length_take]
        omega
      · rw [hcons, List.take_append_of_le_length (by omega)]
        rfl
      · rw [List.take_succ_cons, hcons, List.length_append]
        omega

/-- The recovery of a log. A log that calls have written and that is cut at some byte recovers to
the records whose frames lie within what is kept. Whatever the file, `recover` reads within it and
cuts it to the frames of the records it returns; a second recovery returns the same and cuts
nothing, and records written in between come behind them. -/
theorem recover_law (E : Extern) :
    (∀ calls : List WalCall, (∀ r ∈ records calls, Fits r) → ∀ n,
      ∃ j, (recover E ((bytesOf E calls).take n)).1 = (records calls).take j ∧
        ∀ i < (records calls).length,
          i < j ↔ (frames E ((records calls).take (i + 1))).length ≤ n) ∧
    ∀ buf : Bytes, ∃ rs kept, recover E buf = (rs, kept) ∧
      readLoop E buf (buf.length + 1) 0 = .ok (rs, kept.length) ∧
      kept = buf.take (frames E rs).length ∧ (frames E rs).length ≤ buf.length ∧
      recover E kept = (rs, kept) ∧
      ∀ calls : List WalCall, (∀ r ∈ records calls, Fits r) →
        recover E (kept ++ bytesOf E calls) = (rs ++ records calls, kept ++ bytesOf E calls) := by
  refine ⟨fun calls h n => ?_, fun buf => ?_⟩
  · obtain ⟨j, torn, ht, htake, hiff⟩ := take_frames E h n
    refine ⟨j, ?_, hiff⟩
    rw [bytesOf_eq, htake, recover_frames E (fun r hr => h r (List.mem_of_mem_take hr)) ht]
  · obtain ⟨hfits, hkept, hprefix, hread⟩ := recover_spec E buf
    generalize recover E buf = p at hfits hkept hprefix hread
    obtain ⟨rs, kept⟩ := p
    dsimp only at hfits hkept hprefix hread
    have hagain : ∀ calls, (∀ r ∈ records calls, Fits r) →
        recover E (frames E (rs ++ records calls) ++ []) =
          (rs ++ records calls, frames E (rs ++ records calls)) := fun calls h =>
      recover_frames E (fun r hr => (List.mem_append.mp hr).elim (hfits r) (h r)) (.inl rfl)
    refine ⟨rs, kept, rfl, hread, ?_, ?_, ?_, fun calls h => ?_⟩
    · rw [← hkept]
      exact List.prefix_iff_eq_take.mp hprefix
    · rw [← hkept]
      exact hprefix.length_le
    · have h0 := hagain [] (by simp [records])
      rw [List.append_nil, show records [] = [] from rfl, List.append_nil, ← hkept] at h0
      exact h0
    · have h1 := hagain calls h
      rw [List.append_nil, frames_append, ← hkept, ← bytesOf_eq] at h1
      exact h1

/-- The log of two calls, cut within the frame of the second one. -/
theorem recover_law_cut :
    ∃ kept, recover .lib ((bytesOf .lib [.put [97] [49], .put [98] [50]]).take 15) =
        ([([97], [49])], kept) ∧
      recover .lib kept = ([([97], [49])], kept) ∧
      recover .lib (kept ++ bytesOf .lib [.putBatch [([99], [51]), ([97], [])]]) =
        ([([97], [49]), ([99], [51]), ([97], [])],
          kept ++ bytesOf .lib [.putBatch [([99], [51]), ([97], [])]]) := by
  have hlaw := recover_law .lib
  obtain ⟨j, hread, hiff⟩ := hlaw.1 [.put [97] [49], .put [98] [50]] (by decide) 15
  have h0 := (hiff 0 (by decide)).mpr (by decide)
  have h1 : ¬ 1 < j := fun h => absurd ((hiff 1 (by decide)).mp h) (by decide)
  obtain rfl : j = 1 := by omega
  obtain ⟨rs, kept, hrec, -, -, -, hagain, happend⟩ :=
    hlaw.2 ((bytesOf .lib [.put [97] [49], .put [98] [50]]).take 15)
  obtain rfl : rs = [([97], [49])] := by
    rw [hrec] at hread
    exact hread
  exact ⟨kept, hrec, hagain, happend [.putBatch [([99], [51]), ([97], [])]] (by decide)⟩
/-! ## Calls that fail -/

end Wal

namespace WalCall

/-- The buffer that a call hands to `fwrite`. -/
def buffer (E : Extern) : WalCall → Bytes
  | put key value => Wal.frame E key value
  | putBatch batch => batch.foldl (fun buffer r => buffer ++ Wal.frame E r.1 r.2) []

/-- What a call returns when `fwrite` does not take all of the buffer. -/
def failure : WalCall → String
  | put _ _ => "Failed to write frame to WAL"
  | putBatch _ => "Failed to write batch to WAL"

/-- A call of which `fwrite` takes the first `written` bytes. -/
def attempt (E : Extern) (w : Wal) (call : WalCall) (written : ℕ) : Except Error Unit × Wal :=
  (if written ≠ (call.buffer E).length then .error (.runtimeError call.failure) else .ok (),
    ⟨w.buffered ++ (call.buffer E).take written⟩)

/-- The buffer holds the frames of the records. -/
theorem buffer_eq (E : Extern) (call : WalCall) : call.buffer E = Wal.frames E call.records := by
  cases call with
  | put key value => simp [buffer, records, Wal.frames]
  | putBatch batch =>
    rw [buffer, Wal.foldl_frames, List.nil_append]
    rfl

/-- The records of a call, if it returns without an error. -/
def acknowledged (E : Extern) (call : WalCall) (written : ℕ) : List (Bytes × Bytes) :=
  if written = (call.buffer E).length then call.records else []

/-- What `fwrite` takes of the buffer ends with a frame. -/
def EndsFrame (E : Extern) (call : WalCall) (written : ℕ) : Prop :=
  ∃ j ≤ call.records.length, written = (Wal.frames E (call.records.take j)).length

instance (E : Extern) (call : WalCall) (written : ℕ) : Decidable (call.EndsFrame E written) :=
  inferInstanceAs (Decidable (∃ j ≤ _, _))

end WalCall

namespace Wal

/-- The log after some calls, each with the number of bytes that `fwrite` takes. -/
def attempts (E : Extern) (w : Wal) (calls : List (WalCall × ℕ)) : Wal :=
  calls.foldl (fun w c => (c.1.attempt E w c.2).2) w

/-- The records of the calls that returned without an error. -/
def acknowledged (E : Extern) (calls : List (WalCall × ℕ)) : List (Bytes × Bytes) :=
  (calls.map fun c => c.1.acknowledged E c.2).flatten

/-- The bytes that some calls leave come behind those before them. -/
theorem attempts_buffered (E : Extern) (calls : List (WalCall × ℕ)) (w : Wal) :
    (attempts E w calls).buffered =
      w.buffered ++ (calls.map fun c => (c.1.buffer E).take c.2).flatten := by
  induction calls generalizing w with
  | nil => exact (List.append_nil _).symm
  | cons c calls ih =>
    rw [attempts, List.foldl_cons, ← attempts, ih, List.map_cons, List.flatten_cons,
      ← List.append_assoc]
    rfl

/-- The full frames at the front of a log are recovered, whatever comes behind them. -/
theorem prefix_recover_frames (E : Extern) {rs : List (Bytes × Bytes)} (h : ∀ r ∈ rs, Fits r)
    (rest : Bytes) : rs <+: (recover E (frames E rs ++ rest)).1 := by
  have hloop : ∀ (rs : List (Bytes × Bytes)) (pre : Bytes) (n : ℕ), (∀ r ∈ rs, Fits r) →
      (frames E rs ++ rest).length ≤ n →
      rs <+: (recoverLoop E (pre ++ (frames E rs ++ rest)) n pre.length).1 := by
    intro rs
    induction rs with
    | nil => exact fun _ _ _ _ => List.nil_prefix
    | cons r rs ih =>
      intro pre n h hn
      rw [List.forall_mem_cons] at h
      have hcons : frames E (r :: rs) = frame E r.1 r.2 ++ frames E rs := rfl
      have hflen := length_frame E r.1 r.2
      rw [hcons, List.append_assoc] at hn ⊢
      rw [List.length_append] at hn
      obtain ⟨n, rfl⟩ : ∃ m, n = m + 1 := ⟨n - 1, by omega⟩
      have hih := ih (pre ++ frame E r.1 r.2) n h.2 (by omega)
      rw [List.append_assoc, List.length_append] at hih
      rw [recoverLoop, if_pos (by simp only [List.length_append]; omega),
        recoverFrame_append E h.1]
      exact (List.prefix_cons_inj r).mpr hih
  exact hloop rs [] _ h le_rfl

/-- Calls that fail, and the log of those that do not. A log that has been recovered, or is new, and
to which calls append of which some fail, recovers to the records of all calls that returned without
an error, in order, as long as no call that has records succeeds after one that failed within a
frame. -/
theorem recover_attempts (E : Extern) (buf : Bytes) {calls : List (WalCall × ℕ)}
    (hfits : ∀ c ∈ calls, ∀ r ∈ c.1.records, Fits r)
    (hle : ∀ c ∈ calls, c.2 ≤ (c.1.buffer E).length)
    (hframe : calls.Pairwise fun c d => c.1.EndsFrame E c.2 ∨ d.1.acknowledged E d.2 = []) :
    ((recover E buf).1 ++ acknowledged E calls).Sublist
      (recover E ((recover E buf).2 ++ (attempts E ⟨[]⟩ calls).buffered)).1 := by
  obtain ⟨hrs, hkept, -, -⟩ := recover_spec E buf
  rw [hkept, attempts_buffered, List.nil_append]
  generalize (recover E buf).1 = rs at hrs
  clear hkept
  -- The records `rs` are those of the full frames before the calls that are left.
  induction calls generalizing rs with
  | nil =>
    rw [acknowledged, List.map_nil, List.flatten_nil, List.append_nil]
    exact (prefix_recover_frames E hrs _).sublist
  | cons c calls ih =>
    rw [List.forall_mem_cons] at hfits hle
    rw [List.pairwise_cons] at hframe
    have hack : acknowledged E (c :: calls) = c.1.acknowledged E c.2 ++ acknowledged E calls := rfl
    by_cases hends : c.1.EndsFrame E c.2
    · obtain ⟨j, hj, hwritten⟩ := hends
      have htake : (c.1.buffer E).take c.2 = frames E (c.1.records.take j) := by
        have hsplit := frames_append E (c.1.records.take j) (c.1.records.drop j)
        rw [List.take_append_drop] at hsplit
        rw [WalCall.buffer_eq, hsplit, hwritten, List.take_left]
      have hsub : (c.1.acknowledged E c.2).Sublist (c.1.records.take j) := by
        rw [WalCall.acknowledged]
        split_ifs with hall
        · -- All bytes are those of all frames.
          have hlen : (frames E (c.1.records.drop j)).length = 0 := by
            have hsplit := frames_append E (c.1.records.take j) (c.1.records.drop j)
            rw [List.take_append_drop, ← WalCall.buffer_eq] at hsplit
            have := congrArg List.length hsplit
            rw [List.length_append] at this
            omega
          have hdrop : c.1.records.drop j = [] := by
            rcases hd : c.1.records.drop j with _ | ⟨r, rs'⟩
            · rfl
            · rw [hd] at hlen
              have hcons : frames E (r :: rs') = frame E r.1 r.2 ++ frames E rs' := rfl
              rw [hcons, List.length_append, length_frame] at hlen
              omega
          rw [List.take_of_length_le (List.drop_eq_nil_iff.mp hdrop)]
        · exact List.nil_sublist _
      have hih := ih hfits.2 hle.2 hframe.2 (rs ++ c.1.records.take j) (by
        intro r hr
        rcases List.mem_append.mp hr with hr | hr
        · exact hrs r hr
        · exact hfits.1 r (List.mem_of_mem_take hr))
      rw [List.map_cons, List.flatten_cons, htake, ← List.append_assoc, ← frames_append, hack]
      refine List.Sublist.trans ?_ hih
      rw [List.append_assoc]
      exact (List.Sublist.refl rs).append (hsub.append (List.Sublist.refl _))
    · -- The call has failed, and so do all later ones that have records.
      have hnone : acknowledged E (c :: calls) = [] := by
        rw [hack, List.append_eq_nil_iff]
        constructor
        · rw [WalCall.acknowledged, if_neg]
          intro hall
          exact hends ⟨c.1.records.length, le_rfl, by
            rw [List.take_length, ← WalCall.buffer_eq, hall]⟩
        · rw [acknowledged, List.flatten_eq_nil_iff]
          intro l hl
          obtain ⟨d, hd, rfl⟩ := List.mem_map.mp hl
          exact (hframe.1 d hd).resolve_left hends
      rw [hnone, List.append_nil]
      exact (prefix_recover_frames E hrs _).sublist

/-- Of a batch of two records only the first frame is written, and then another record. -/
theorem recover_attempts_batch :
    ((recover .lib (frame .lib [97] [49])).1 ++ acknowledged .lib
        [(.putBatch [([98], [50]), ([99], [51])], 10), (.put [100] [52], 10)]).Sublist
      (recover .lib ((recover .lib (frame .lib [97] [49])).2 ++ (attempts .lib ⟨[]⟩
        [(.putBatch [([98], [50]), ([99], [51])], 10), (.put [100] [52], 10)]).buffered)).1 ∧
      acknowledged .lib [(.putBatch [([98], [50]), ([99], [51])], 10), (.put [100] [52], 10)] =
        [([100], [52])] :=
  ⟨recover_attempts .lib _ (by decide) (by decide +kernel) (by decide +kernel), by decide +kernel⟩

/-- The first three bytes of a frame stand before the frame of a record that is acknowledged, and
the record is lost. -/
theorem recover_attempts_torn :
    ¬ ∀ (E : Extern) (calls : List (WalCall × ℕ)), (∀ c ∈ calls, ∀ r ∈ c.1.records, Fits r) →
      (∀ c ∈ calls, c.2 ≤ (c.1.buffer E).length) →
      (acknowledged E calls).Sublist (recover E (attempts E ⟨[]⟩ calls).buffered).1 := by
  intro h
  have hsub := h .lib [(.put [97] [49], 3), (.put [98] [50], 10)] (by decide) (by decide +kernel)
  exact absurd hsub (by decide +kernel)

end Wal

end MiniLsm
