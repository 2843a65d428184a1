import MiniLsm.Lib.BigEndian
import MiniLsm.Lib.Double

/-!
# Byte strings, keys, and the code outside the repository

`KeySlice` and `KeyVec` of `include/mini_lsm/key.h` are byte strings, `List UInt8` here, and
`KeySlice::compare` orders them by `memcmp` on the common prefix and then by length.
`compare_lt_zero_iff` and its siblings show that this is the lexicographic order, which is the order
of `std::string` as well, so that the model writes the comparison operators of the source as `<`,
`≤`, and `=` on lists.

The libraries that the code links are parameters (`Extern`): zlib's CRC-32 and farmhash's
fingerprint are functions of the bytes, and Snappy's `Uncompress` undoes its `Compress`. Two steps
of the Bloom filter are computed in floating point; they are functions on numbers here. The rounding
of the other floating-point steps is a parameter as well.
-/

namespace MiniLsm

/-- A byte string: `std::vector<uint8_t>`, `std::string`, `KeySlice`, and `KeyVec`. -/
abbrev Bytes := List UInt8

/-- How an operation of the code fails: a thrown `std::runtime_error`, or an access outside of an
object, whose behaviour is undefined. -/
inductive Error where
  | runtimeError (what : String)
  | undefined (what : String)
  deriving DecidableEq, Repr

/-- Snappy, when the build has it. -/
structure Snappy where
  /-- `snappy::Compress` -/
  compress : Bytes → Bytes
  /-- `snappy::Uncompress`, which may refuse its input. -/
  uncompress : Bytes → Option Bytes
  /-- `Uncompress` undoes `Compress`. -/
  uncompress_compress : ∀ b, uncompress (compress b) = some b

/-- The functions that the code takes from other libraries, and the two floating-point steps of the
Bloom filter. -/
structure Extern where
  /-- zlib's `crc32` of a byte string -/
  crc32 : Bytes → ℕ
  /-- farmhash's `Fingerprint32` -/
  fingerprint32 : Bytes → UInt32
  /-- `Bloom::bloom_bits_per_key(entries, 0.01)` -/
  bloomBitsPerKey : ℕ → ℕ
  /-- `static_cast<uint32_t>(static_cast<double>(bits_per_key) * 0.69)` -/
  bloomProbes : ℕ → ℕ
  /-- Snappy, where `MINI_LSM_SNAPPY` is set -/
  snappy : Option Snappy
  /-- The rounding of `double`, in which the compaction controllers compare ratios -/
  rounding : Rounding

/-- `crc32_hash`: zlib takes the length as a 32-bit number and returns a 32-bit number. -/
@[irreducible]
def crc32Hash (E : Extern) (data : Bytes) : ℕ := E.crc32 (data.take (data.length % 2^32)) % 2^32

/-! ## Steps that may throw -/

/-- A step that does not throw hands its result on. -/
@[simp]
theorem ok_bind {ε α β : Type} (a : α) (f : α → Except ε β) : (Except.ok a >>= f) = f a := rfl

/-- A sequence of two steps that does not throw: neither does the first, nor the second on its
result. -/
theorem bind_eq_ok {ε α β : Type} {x : Except ε α} {f : α → Except ε β} {r : β} :
    x >>= f = .ok r ↔ ∃ a, x = .ok a ∧ f a = .ok r := by
  constructor
  · intro h
    cases x with
    | error e => cases h
    | ok a => exact ⟨a, rfl, h⟩
  · rintro ⟨a, rfl, h⟩
    exact h

/-- A sequence of two steps throws where the first one does, or the second on its result. -/
theorem bind_eq_error {ε α β : Type} {x : Except ε α} {f : α → Except ε β} {e : ε} :
    x >>= f = .error e ↔ x = .error e ∨ ∃ a, x = .ok a ∧ f a = .error e := by
  cases x with
  | error e' =>
    constructor
    · intro h
      cases h
      exact .inl rfl
    · rintro (h | ⟨a, h, -⟩)
      · cases h
        rfl
      · cases h
  | ok a =>
    constructor
    · exact fun h => .inr ⟨a, rfl, h⟩
    · rintro (h | ⟨a', h, hf⟩)
      · cases h
      · cases h
        exact hf

/-! ## `include/mini_lsm/endian.h` -/

/-- `put_u16_be` -/
def putU16 (val : ℕ) : Bytes := BigEndian.put 2 val

/-- `put_u32_be` -/
def putU32 (val : ℕ) : Bytes := BigEndian.put 4 val

/-- `put_u64_be` -/
def putU64 (val : ℕ) : Bytes := BigEndian.put 8 val

/-- The big-endian number in the `n` bytes of `src` from `pos` on. -/
def readBE (n : ℕ) (src : Bytes) (pos : ℕ) : Except Error ℕ :=
  if pos + n ≤ src.length then .ok (BigEndian.get ((src.drop pos).take n))
  else .error (.undefined "read past the end of the buffer")

/-- A read past the end is the only error. -/
theorem readBE_error {n pos : ℕ} {src : Bytes} {e : Error} (h : readBE n src pos = .error e) :
    e = .undefined "read past the end of the buffer" := by
  rw [readBE] at h
  split_ifs at h
  cases h
  rfl

/-- `read_u16_be` -/
def readU16 (src : Bytes) (pos : ℕ) : Except Error ℕ := readBE 2 src pos

/-- `read_u32_be` -/
def readU32 (src : Bytes) (pos : ℕ) : Except Error ℕ := readBE 4 src pos

/-- `read_u64_be` -/
def readU64 (src : Bytes) (pos : ℕ) : Except Error ℕ := readBE 8 src pos

/-- Two bytes are written. -/
@[simp]
theorem length_putU16 (v : ℕ) : (putU16 v).length = 2 := BigEndian.length_put 2 v

/-- Four bytes are written. -/
@[simp]
theorem length_putU32 (v : ℕ) : (putU32 v).length = 4 := BigEndian.length_put 4 v

/-- Eight bytes are written. -/
@[simp]
theorem length_putU64 (v : ℕ) : (putU64 v).length = 8 := BigEndian.length_put 8 v

/-- A number reads back from where it was written. -/
theorem readBE_append (n v : ℕ) (pre post : Bytes) {pos : ℕ} (hpos : pos = pre.length)
    (hv : v < 256^n) : readBE n (pre ++ (BigEndian.put n v ++ post)) pos = .ok v := by
  subst hpos
  rw [readBE, if_pos (by simp), BigEndian.get_take_drop, Nat.mod_eq_of_lt hv]

/-- What has been put is read, wherever it stands. -/
theorem readU16_append (v : ℕ) (pre post : Bytes) {pos : ℕ} (hpos : pos = pre.length)
    (hv : v < 65536) : readU16 (pre ++ (putU16 v ++ post)) pos = .ok v :=
  readBE_append 2 v pre post hpos hv

/-- The same with four bytes. -/
theorem readU32_append (v : ℕ) (pre post : Bytes) {pos : ℕ} (hpos : pos = pre.length)
    (hv : v < 2^32) : readU32 (pre ++ (putU32 v ++ post)) pos = .ok v :=
  readBE_append 4 v pre post hpos hv

/-- The same with eight bytes. -/
theorem readU64_append (v : ℕ) (pre post : Bytes) {pos : ℕ} (hpos : pos = pre.length)
    (hv : v < 2^64) : readU64 (pre ++ (putU64 v ++ post)) pos = .ok v :=
  readBE_append 8 v pre post hpos hv

/-- A checksum fits the four bytes it is stored in. -/
theorem crc32Hash_lt (E : Extern) (data : Bytes) : crc32Hash E data < 2^32 := by
  rw [crc32Hash]
  exact Nat.mod_lt _ (by norm_num)

/-! ## `KeySlice::compare` -/

/-- The sign of `memcmp` on two buffers of the same length. -/
def memcmp : Bytes → Bytes → ℤ
  | a :: as, b :: bs => if a < b then -1 else if b < a then 1 else memcmp as bs
  | _, _ => 0

/-- `KeySlice::compare` -/
def compare (a b : Bytes) : ℤ :=
  let minLen := min a.length b.length
  let cmp := memcmp (a.take minLen) (b.take minLen)
  if cmp ≠ 0 then cmp
  else if a.length < b.length then -1
  else if b.length < a.length then 1
  else 0

/-- Empty keys are equal. -/
theorem compare_nil_nil : compare [] [] = 0 := rfl

/-- The empty key is before the others. -/
theorem compare_nil_cons (b : UInt8) (bs : Bytes) : compare [] (b :: bs) = -1 := rfl

/-- The others are behind the empty key. -/
theorem compare_cons_nil (a : UInt8) (as : Bytes) : compare (a :: as) [] = 1 := rfl

/-- The comparison of two non-empty keys is decided by their first bytes where they differ. -/
theorem compare_cons_cons (a b : UInt8) (as bs : Bytes) :
    compare (a :: as) (b :: bs) = if a < b then -1 else if b < a then 1 else compare as bs := by
  simp only [compare, List.length_cons, Nat.add_min_add_right, List.take_succ_cons, memcmp,
    Nat.add_lt_add_iff_right]
  split_ifs <;> simp_all

/-- `compare` is negative, zero, or positive as the first key is before, equal to, or after the
second in the lexicographic order. -/
theorem compare_spec (a b : Bytes) :
    (a < b ∧ compare a b = -1) ∨ (a = b ∧ compare a b = 0) ∨ (b < a ∧ compare a b = 1) := by
  induction a generalizing b with
  | nil =>
    cases b with
    | nil => simp [compare_nil_nil]
    | cons b bs => simp [compare_nil_cons]
  | cons a as ih =>
    cases b with
    | nil => simp [compare_cons_nil]
    | cons b bs =>
      rw [compare_cons_cons]
      rcases lt_trichotomy a b with h | rfl | h
      · exact .inl ⟨List.cons_lt_cons_iff.mpr (.inl h), if_pos h⟩
      · rw [if_neg (lt_irrefl a), if_neg (lt_irrefl a)]
        rcases ih bs with ⟨h, e⟩ | ⟨rfl, e⟩ | ⟨h, e⟩
        · exact .inl ⟨List.cons_lt_cons_iff.mpr (.inr ⟨rfl, h⟩), e⟩
        · exact .inr (.inl ⟨rfl, e⟩)
        · exact .inr (.inr ⟨List.cons_lt_cons_iff.mpr (.inr ⟨rfl, h⟩), e⟩)
      · exact .inr (.inr ⟨List.cons_lt_cons_iff.mpr (.inl h), by rw [if_neg h.asymm, if_pos h]⟩)

/-- `operator<` of `KeySlice` -/
theorem compare_lt_zero_iff (a b : Bytes) : compare a b < 0 ↔ a < b := by
  rcases compare_spec a b with ⟨h, e⟩ | ⟨rfl, e⟩ | ⟨h, e⟩
  · simp [h, e]
  · simp [e]
  · simp [e, h.asymm]

/-- `operator==` of `KeySlice` -/
theorem compare_eq_zero_iff (a b : Bytes) : compare a b = 0 ↔ a = b := by
  rcases compare_spec a b with ⟨h, e⟩ | ⟨rfl, e⟩ | ⟨h, e⟩
  · simp [h.ne, e]
  · simp [e]
  · simp [e, h.ne']

end MiniLsm
