import MiniLsm.MemTable
import MiniLsm.IteratorsSpec

/-!
# The log replays to the memtable

A log that holds frames one after the other, and then perhaps a part of a frame, recovers to the
records of the full frames (`Wal.recover_frames`), so that a memtable recovers from its log
(`MemTable.recoverFromWal_eq`). The scan of a memtable shows its entries within the bounds, and its
flush hands all of them to the builder.
-/

namespace MiniLsm

open Cursor (Yields)

/-! ## Replay -/

namespace Wal

/-- A record whose lengths fit the frame. -/
def Fits (r : Bytes × Bytes) : Prop := r.1.length ≤ 65535 ∧ r.2.length ≤ 65535

/-- Whether the lengths fit can be computed. -/
instance (r : Bytes × Bytes) : Decidable (Fits r) :=
  inferInstanceAs (Decidable (r.1.length ≤ 65535 ∧ r.2.length ≤ 65535))

/-- The frames of records, one after the other. -/
def frames (E : Extern) (rs : List (Bytes × Bytes)) : Bytes :=
  (rs.map fun r => frame E r.1 r.2).flatten

/-- The frames of some records come after those of others. -/
theorem frames_append (E : Extern) (rs rs' : List (Bytes × Bytes)) :
    frames E (rs ++ rs') = frames E rs ++ frames E rs' := by
  rw [frames, frames, frames, List.map_append, List.flatten_append]

/-- A frame has eight bytes more than its key and its value. -/
theorem length_frame (E : Extern) (key value : Bytes) :
    (frame E key value).length = key.length + value.length + 8 := by
  simp only [frame, List.length_append, length_putU16, length_putU32]
  omega

/-- The length of the key stands at the front of a frame. -/
theorem get_key_len (E : Extern) {key : Bytes} (value : Bytes) (hk : key.length ≤ 65535)
    (pre post : Bytes) : BigEndian.get
      (((pre ++ (frame E key value ++ post)).drop pre.length).take 2) = key.length := by
  have hframe : frame E key value ++ post = BigEndian.put 2 key.length ++
      (key ++ (putU16 value.length ++ value) ++ putU32 (crc32Hash E
        (putU16 key.length ++ (key ++ (putU16 value.length ++ value)))) ++ post) := by
    simp [frame, putU16]
  rw [hframe, BigEndian.get_take_drop, Nat.mod_eq_of_lt (by omega)]

/-- The length of the value stands behind the key. -/
theorem get_val_len (E : Extern) (key : Bytes) {value : Bytes} (hv : value.length ≤ 65535)
    (pre post : Bytes) : BigEndian.get (((pre ++ (frame E key value ++ post)).drop
      (pre.length + 2 + key.length)).take 2) = value.length := by
  have hframe : pre ++ (frame E key value ++ post) = (pre ++ putU16 key.length ++ key) ++
      (BigEndian.put 2 value.length ++ (value ++ putU32 (crc32Hash E
        (putU16 key.length ++ (key ++ (putU16 value.length ++ value)))) ++ post)) := by
    simp [frame, putU16]
  have hlen : pre.length + 2 + key.length = (pre ++ putU16 key.length ++ key).length := by
    simp only [List.length_append, length_putU16]
  rw [hframe, hlen, BigEndian.get_take_drop, Nat.mod_eq_of_lt (by omega)]

/-- A frame is read from where it stands. -/
theorem recoverFrame_append (E : Extern) {r : Bytes × Bytes} (h : Fits r) (pre post : Bytes) :
    recoverFrame E (pre ++ (frame E r.1 r.2 ++ post)) pre.length =
      some (r, pre.length + (frame E r.1 r.2).length) := by
  obtain ⟨key, value⟩ := r
  obtain ⟨hk, hv⟩ := h
  simp only at hk hv
  have hklen := get_key_len E value hk pre post
  have hvlen := get_val_len E key hv pre post
  obtain ⟨content, hcon⟩ : ∃ content, content =
    putU16 key.length ++ (key ++ (putU16 value.length ++ value)) := ⟨_, rfl⟩
  have hclen : content.length = 2 + key.length + 2 + value.length := by
    rw [hcon]
    simp only [List.length_append, length_putU16]
    omega
  have hframe : frame E key value = content ++ putU32 (crc32Hash E content) := by
    rw [frame, ← hcon]
  obtain ⟨buf, hbuf⟩ : ∃ buf, buf = pre ++ (frame E key value ++ post) := ⟨_, rfl⟩
  rw [← hbuf] at hklen hvlen ⊢
  have hlen : buf.length = pre.length + (content.length + 4 + post.length) := by
    rw [hbuf, hframe]
    simp only [List.length_append, length_putU32]
  -- The other parts of the frame, each at its place in the buffer.
  have hcrc : BigEndian.get ((buf.drop (pre.length + content.length)).take 4) =
      crc32Hash E content := by
    have hb : buf = (pre ++ content) ++ (BigEndian.put 4 (crc32Hash E content) ++ post) := by
      rw [hbuf, hframe]
      simp [putU32]
    rw [hb, ← List.length_append, BigEndian.get_take_drop]
    exact Nat.mod_eq_of_lt (crc32Hash_lt E content)
  have hcontent : (buf.drop pre.length).take content.length = content := by
    rw [hbuf, List.drop_left, hframe, List.append_assoc, List.take_left]
  have hkey : (buf.drop (pre.length + 2)).take key.length = key := by
    have hb : buf = (pre ++ putU16 key.length) ++
        (key ++ (putU16 value.length ++ value ++ putU32 (crc32Hash E content) ++ post)) := by
      rw [hbuf, hframe, hcon]
      simp
    have hp : pre.length + 2 = (pre ++ putU16 key.length).length := by simp
    rw [hp, hb, List.drop_left, List.take_left]
  have hval : (buf.drop (pre.length + 2 + key.length + 2)).take value.length = value := by
    have hb : buf = (pre ++ putU16 key.length ++ key ++ putU16 value.length) ++
        (value ++ (putU32 (crc32Hash E content) ++ post)) := by
      rw [hbuf, hframe, hcon]
      simp
    have hp : pre.length + 2 + key.length + 2 =
        (pre ++ putU16 key.length ++ key ++ putU16 value.length).length := by
      simp only [List.length_append, length_putU16]
    rw [hp, hb, List.drop_left, List.take_left]
  rw [recoverFrame, if_neg (by omega)]
  simp only [hklen]
  rw [if_neg (by omega)]
  simp only [hvlen]
  rw [if_neg (by omega), ← hclen]
  simp only [hcontent, hcrc, hkey, hval, ne_eq, not_true_eq_false, if_false, hframe,
    List.length_append, length_putU32]
  rw [Nat.add_assoc]

/-- A part of a list is the same part of its prefixes that contain it. -/
theorem take_drop_eq_of_le {l l' : Bytes} (h : l <+: l') {i n : ℕ} (hi : i + n ≤ l.length) :
    (l.drop i).take n = (l'.drop i).take n := by
  obtain ⟨post, rfl⟩ := h
  rw [List.drop_append_of_le_length (by omega), List.take_append_of_le_length]
  rw [List.length_drop]
  omega

/-- Where the file ends within a frame, the loop breaks. -/
theorem recoverFrame_torn (E : Extern) {r : Bytes × Bytes} (h : Fits r) (pre : Bytes) {torn : Bytes}
    (ht : torn <+: frame E r.1 r.2) (hlt : torn.length < (frame E r.1 r.2).length) :
    recoverFrame E (pre ++ torn) pre.length = none := by
  have hpre : pre ++ torn <+: pre ++ (frame E r.1 r.2 ++ []) := by
    rw [List.append_nil]
    exact List.prefix_append_right_inj pre |>.mpr ht
  have hlen : (pre ++ torn).length = pre.length + torn.length := List.length_append
  rw [length_frame] at hlt
  rw [recoverFrame]
  by_cases h1 : (pre ++ torn).length - pre.length < 2
  · rw [if_pos h1]
  rw [if_neg h1, take_drop_eq_of_le hpre (by omega), get_key_len E _ h.1]
  by_cases h2 : (pre ++ torn).length - pre.length < 2 + r.1.length + 2
  · exact if_pos h2
  have hvlen : BigEndian.get (((pre ++ torn).drop (pre.length + 2 + r.1.length)).take 2) =
      r.2.length := by
    rw [take_drop_eq_of_le hpre (by omega), get_val_len E _ h.2]
  simp only [if_neg h2, hvlen]
  exact if_pos (by omega)

/-- What is left of a log when its last write was cut off: a proper part of a frame, or nothing. -/
def Torn (E : Extern) (torn : Bytes) : Prop :=
  torn = [] ∨ ∃ r, Fits r ∧ torn <+: frame E r.1 r.2 ∧ torn.length < (frame E r.1 r.2).length

/-- The loop of `recover` reads the full frames from where it stands. -/
theorem recoverLoop_frames (E : Extern) {rs : List (Bytes × Bytes)} (h : ∀ r ∈ rs, Fits r)
    {torn : Bytes} (ht : Torn E torn) (pre : Bytes) {n : ℕ}
    (hn : (frames E rs ++ torn).length ≤ n) :
    recoverLoop E (pre ++ (frames E rs ++ torn)) n pre.length =
      (rs, (pre ++ frames E rs).length) := by
  induction rs generalizing pre n with
  | nil =>
    have hnil : frames E [] = [] := rfl
    rw [hnil, List.nil_append, List.append_nil]
    rcases n with _ | n
    · rfl
    · rw [recoverLoop]
      split_ifs with hlt
      · rcases ht with rfl | ⟨r, hr, hp, hl⟩
        · simp at hlt
        · rw [recoverFrame_torn E hr pre hp hl]
      · rfl
  | cons r rs ih =>
    rw [List.forall_mem_cons] at h
    have hcons : frames E (r :: rs) = frame E r.1 r.2 ++ frames E rs := rfl
    have hflen := length_frame E r.1 r.2
    rw [hcons, List.append_assoc] at hn ⊢
    rw [List.length_append] at hn
    obtain ⟨n, rfl⟩ : ∃ m, n = m + 1 := ⟨n - 1, by omega⟩
    have hih := ih h.2 (pre ++ frame E r.1 r.2) (n := n) (by omega)
    simp only [List.append_assoc, List.length_append] at hih
    rw [recoverLoop, if_pos (by simp only [List.length_append]; omega),
      recoverFrame_append E h.1]
    simp only [List.length_append, hih]

/-- The log recovers to the records of its full frames, and is cut behind them. -/
theorem recover_frames (E : Extern) {rs : List (Bytes × Bytes)} (h : ∀ r ∈ rs, Fits r)
    {torn : Bytes} (ht : Torn E torn) :
    recover E (frames E rs ++ torn) = (rs, frames E rs) := by
  have := recoverLoop_frames E h ht [] (le_refl _)
  rw [List.nil_append, List.nil_append, List.length_nil] at this
  simp only [recover, this, List.take_left]

end Wal

/-! ## The memtable -/

namespace MemTable

/-- The map that a sequence of writes leaves. -/
def replay (rs : List (Bytes × Bytes)) : List (Bytes × Bytes) :=
  rs.foldl (fun map r => Assoc.insert r.1 r.2 map) []

/-- The last record is inserted last. -/
theorem replay_append (rs : List (Bytes × Bytes)) (r : Bytes × Bytes) :
    replay (rs ++ [r]) = Assoc.insert r.1 r.2 (replay rs) := by
  rw [replay, List.foldl_append]
  rfl

/-- The map that is recovered is sorted. -/
theorem sorted_replay (rs : List (Bytes × Bytes)) : Assoc.Sorted (replay rs) := by
  induction rs using List.reverseRecOn with
  | nil => exact List.Pairwise.nil
  | append_singleton rs r ih =>
    rw [replay_append]
    exact ih.insert r.1 r.2

/-- A replayed map shows the last write of each key. -/
theorem lookup_replay_append (k : Bytes) (rs : List (Bytes × Bytes)) (r : Bytes × Bytes) :
    Assoc.lookup k (replay (rs ++ [r])) =
      if r.1 = k then some r.2 else Assoc.lookup k (replay rs) := by
  rw [replay_append, Assoc.lookup_insert _ _ _ (sorted_replay rs)]
  split_ifs <;> rfl

/-- The insertions of `recover_from_wal` touch the map and the size only. -/
theorem foldl_insert (rs : List (Bytes × Bytes)) (m : MemTable) :
    (rs.foldl (fun m r => insert m r.1 r.2) m).map =
        rs.foldl (fun map r => Assoc.insert r.1 r.2 map) m.map ∧
      (rs.foldl (fun m r => insert m r.1 r.2) m).id = m.id ∧
      (rs.foldl (fun m r => insert m r.1 r.2) m).wal = m.wal := by
  induction rs generalizing m with
  | nil => exact ⟨rfl, rfl, rfl⟩
  | cons r rs ih =>
    obtain ⟨h1, h2, h3⟩ := ih (insert m r.1 r.2)
    exact ⟨h1, h2, h3⟩

/-- A memtable recovers from its log to the map that the logged writes leave. -/
theorem recoverFromWal_spec (E : Extern) (id : ℕ) {rs : List (Bytes × Bytes)}
    (h : ∀ r ∈ rs, Wal.Fits r) {torn : Bytes} (ht : Wal.Torn E torn) :
    (recoverFromWal E id (Wal.frames E rs ++ torn)).map = replay rs ∧
      (recoverFromWal E id (Wal.frames E rs ++ torn)).id = id ∧
      (recoverFromWal E id (Wal.frames E rs ++ torn)).wal = some ⟨[]⟩ := by
  rw [recoverFromWal, Wal.recover_frames E h ht]
  exact foldl_insert rs (createWithWal id)

/-- The flush of a memtable hands its entries to the builder. -/
theorem flush_holds {E : Extern} {m : MemTable} {b : SsTableBuilder} {es : List (Bytes × Bytes)}
    (hb : b.Holds E es) (hs : ∀ e ∈ m.map, Storable e) : (m.flush E b).Holds E (es ++ m.map) := by
  rw [flush]
  generalize m.map = l at hs
  induction l generalizing b es with
  | nil => simpa using hb
  | cons e l ih =>
    rw [List.forall_mem_cons] at hs
    have := ih (SsTableBuilder.add_holds hb hs.1) hs.2
    rwa [List.append_assoc] at this

end MemTable

/-- A memtable's iterator yields its snapshot. -/
theorem MemTableIterator.yields (l : List (Bytes × Bytes)) :
    Yields (⟨l⟩ : MemTableIterator) l := by
  induction l with
  | nil => exact .nil rfl
  | cons e l ih => exact Yields.cons_of rfl rfl rfl rfl (Nat.lt_succ_self _) ih

end MiniLsm
