import MiniLsm.Key

/-!
# Bloom filters

`Bloom` of `src/table/bloom.cpp`: a bit array into which every key hash sets the bits of `k` probes,
and its encoding with a checksum. The filter has no false negatives (`mayContain_of_mem`), and it
survives its encoding (`decode_encode`). The number of bits for each key and of probes come from
floating-point steps, which `Extern` leaves open.
-/

namespace MiniLsm

/-- `Bloom` of `include/mini_lsm/table.h` -/
structure Bloom where
  filter : Bytes
  k : ℕ
  deriving DecidableEq

namespace Bloom

/-- The step between the probes of a hash. -/
def delta (h : UInt32) : UInt32 := (h <<< 15) ||| (h >>> 17)

/-- The mask of a bit within its byte. -/
def mask (pos : ℕ) : UInt8 := 1 <<< UInt8.ofNat (pos % 8)

/-- `filter[bit_pos / 8] |= (1 << (bit_pos % 8))` -/
def setBit (filter : Bytes) (pos : ℕ) : Bytes := filter.modify (pos / 8) (· ||| mask pos)

/-- `filter[bit_pos / 8] & (1 << (bit_pos % 8))` -/
def testBit (filter : Bytes) (pos : ℕ) : Bool := (filter[pos / 8]?.getD 0 &&& mask pos) != 0

/-- The probes of one hash in `build_from_key_hashes`. -/
def setProbes (nbits : ℕ) (step : UInt32) : ℕ → UInt32 → Bytes → Bytes
  | 0, _, filter => filter
  | k + 1, h, filter => setProbes nbits step k (h + step) (setBit filter (h.toNat % nbits))

/-- The probes of one hash in `may_contain`. -/
def testProbes (nbits : ℕ) (step : UInt32) (filter : Bytes) : ℕ → UInt32 → Bool
  | 0, _ => true
  | k + 1, h =>
    if testBit filter (h.toNat % nbits) then testProbes nbits step filter k (h + step) else false

/-- `Bloom::build_from_key_hashes` -/
def buildFromKeyHashes (E : Extern) (hashes : List UInt32) (bits_per_key : ℕ) : Bloom :=
  let k := min (max (E.bloomProbes bits_per_key) 1) 30
  let nbytes := (max (hashes.length * bits_per_key) 64 + 7) / 8
  let nbits := nbytes * 8
  let filter := hashes.foldl (fun filter h => setProbes nbits (delta h) k h filter)
    (List.replicate nbytes 0)
  ⟨filter, k⟩

/-- `Bloom::may_contain` -/
def mayContain (b : Bloom) (h : UInt32) : Bool :=
  if b.k > 30 then true
  else
    let nbits := b.filter.length * 8
    if nbits = 0 then true else testProbes nbits (delta h) b.filter b.k h

/-- `Bloom::encode`, the bytes that it appends. -/
def encode (E : Extern) (b : Bloom) : Bytes :=
  let body := b.filter ++ [UInt8.ofNat b.k]
  body ++ putU32 (crc32Hash E body)

/-- `Bloom::decode`, in a build without assertions. -/
def decode (raw : Bytes) : Except Error Bloom :=
  if raw.length < 5 then .error (.undefined "bloom filter of less than five bytes")
  else .ok ⟨raw.take (raw.length - 5), (raw[raw.length - 5]?.getD 0).toNat⟩

/-! ## No false negatives -/

@[simp]
theorem length_setBit (filter : Bytes) (pos : ℕ) : (setBit filter pos).length = filter.length := by
  simp [setBit]

@[simp]
theorem length_setProbes (nbits : ℕ) (step : UInt32) (k : ℕ) (h : UInt32) (filter : Bytes) :
    (setProbes nbits step k h filter).length = filter.length := by
  induction k generalizing h filter with
  | zero => rfl
  | succ k ih => rw [setProbes, ih, length_setBit]

/-- The mask of a bit is one of the eight powers of two. -/
theorem mask_ne_zero (pos : ℕ) : mask pos ≠ 0 := by
  have h8 : pos % 8 < 8 := Nat.mod_lt _ (by norm_num)
  rw [mask]
  interval_cases pos % 8 <;> decide

/-- A bit is set after it was set. -/
theorem testBit_setBit_self {filter : Bytes} {pos : ℕ} (h : pos / 8 < filter.length) :
    testBit (setBit filter pos) pos = true := by
  have habs : (filter[pos / 8] ||| mask pos) &&& mask pos = mask pos := by
    rw [UInt8.and_comm, UInt8.or_comm]
    exact UInt8.toBitVec_inj.mp (by ext i; simp +contextual)
  rw [testBit, setBit, List.getElem?_modify_eq, List.getElem?_eq_getElem h]
  simp only [Option.map_eq_map, Option.map_some, Option.getD_some, habs, bne_iff_ne, ne_eq]
  exact mask_ne_zero pos

/-- A set bit stays set. -/
theorem testBit_setBit_of_testBit {filter : Bytes} {pos : ℕ} (q : ℕ)
    (h : testBit filter pos = true) : testBit (setBit filter q) pos = true := by
  rw [testBit, bne_iff_ne] at h ⊢
  rw [setBit]
  by_cases hq : q / 8 = pos / 8
  · rw [hq, List.getElem?_modify_eq]
    cases hf : filter[pos / 8]? with
    | none => simp [hf] at h
    | some b =>
      simp only [hf, Option.map_eq_map, Option.map_some, Option.getD_some] at h ⊢
      intro hz
      apply h
      have hdist : (b ||| mask q) &&& mask pos = (b &&& mask pos) ||| (mask q &&& mask pos) :=
        UInt8.toBitVec_inj.mp (by ext i; simp [Bool.and_or_distrib_right])
      rw [hdist] at hz
      exact (UInt8.or_eq_zero_iff.mp hz).1
  · rwa [List.getElem?_modify_ne _ _ hq]

/-- Probing keeps the bits that are set. -/
theorem testBit_setProbes_of_testBit {nbits : ℕ} {step : UInt32} {k : ℕ} {h : UInt32}
    {filter : Bytes} {pos : ℕ} (hp : testBit filter pos = true) :
    testBit (setProbes nbits step k h filter) pos = true := by
  induction k generalizing h filter with
  | zero => exact hp
  | succ k ih => exact ih (testBit_setBit_of_testBit _ hp)

/-- Setting bits keeps a hash that passes the probes passing them. -/
theorem testProbes_mono {nbits : ℕ} {step : UInt32} {f f' : Bytes}
    (hf : ∀ pos, testBit f pos = true → testBit f' pos = true) {k : ℕ} {h : UInt32}
    (ht : testProbes nbits step f k h = true) : testProbes nbits step f' k h = true := by
  induction k generalizing h with
  | zero => rfl
  | succ k ih =>
    rw [testProbes] at ht ⊢
    split_ifs at ht with hb
    rw [if_pos (hf _ hb)]
    exact ih ht

/-- A hash passes the probes that it has set. -/
theorem testProbes_setProbes {nbits : ℕ} (hn : 0 < nbits) {step : UInt32} {k : ℕ} {h : UInt32}
    {filter : Bytes} (hlen : filter.length * 8 = nbits) :
    testProbes nbits step (setProbes nbits step k h filter) k h = true := by
  induction k generalizing h filter with
  | zero => rfl
  | succ k ih =>
    have hpos : h.toNat % nbits / 8 < filter.length := by
      have := Nat.mod_lt h.toNat hn
      omega
    rw [setProbes, testProbes, if_pos (testBit_setProbes_of_testBit (testBit_setBit_self hpos))]
    exact ih (by rw [length_setBit, hlen])

/-- The filter built from a list of hashes has their length and passes each of them. -/
theorem foldl_setProbes {nbits : ℕ} (hn : 0 < nbits) (k : ℕ) (hashes : List UInt32)
    {filter : Bytes} (hlen : filter.length * 8 = nbits) {f : Bytes}
    (hf : hashes.foldl (fun f h => setProbes nbits (delta h) k h f) filter = f) :
    f.length = filter.length ∧ (∀ pos, testBit filter pos = true → testBit f pos = true) ∧
      ∀ h ∈ hashes, testProbes nbits (delta h) f k h = true := by
  induction hashes generalizing filter with
  | nil =>
    cases hf
    exact ⟨rfl, fun _ h => h, by simp⟩
  | cons h hashes ih =>
    rw [List.foldl_cons] at hf
    obtain ⟨h1, h2, h3⟩ := ih (by rw [length_setProbes, hlen]) hf
    refine ⟨by rw [h1, length_setProbes], ?_, ?_⟩
    · intro pos hp
      exact h2 pos (testBit_setProbes_of_testBit hp)
    · intro q hq
      rcases List.mem_cons.mp hq with rfl | hq
      · exact testProbes_mono h2 (testProbes_setProbes hn hlen)
      · exact h3 q hq

/-- A filter contains every hash that it was built from. -/
theorem mayContain_of_mem (E : Extern) (hashes : List UInt32) (bits_per_key : ℕ) {h : UInt32}
    (hm : h ∈ hashes) : (buildFromKeyHashes E hashes bits_per_key).mayContain h = true := by
  rw [buildFromKeyHashes, mayContain]
  generalize hb : (max (hashes.length * bits_per_key) 64 + 7) / 8 = nbytes
  have hpos : 0 < nbytes * 8 := by omega
  generalize hf : hashes.foldl _ _ = f
  obtain ⟨hlen, -, htest⟩ := foldl_setProbes hpos _ hashes (by rw [List.length_replicate]) hf
  rw [List.length_replicate] at hlen
  simp only [hlen]
  rw [if_neg (by omega), if_neg (by omega)]
  exact htest h hm

/-- `decode` undoes `encode` on a filter whose probe count is a byte. -/
theorem decode_encode (E : Extern) {b : Bloom} (hk : b.k < 256) : decode (encode E b) = .ok b := by
  have hlen : (encode E b).length = b.filter.length + 5 := by simp [encode]
  rw [decode, if_neg (by omega), hlen, Nat.add_sub_cancel]
  congr
  · simp [encode]
  · simp [encode, Nat.mod_eq_of_lt hk]

/-- A built filter has at most 30 probes. -/
theorem buildFromKeyHashes_k_le (E : Extern) (hashes : List UInt32) (bits_per_key : ℕ) :
    (buildFromKeyHashes E hashes bits_per_key).k ≤ 30 := by
  simp [buildFromKeyHashes]

end Bloom

end MiniLsm
