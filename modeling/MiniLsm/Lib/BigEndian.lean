import Mathlib

/-!
# Big-endian numbers in byte strings

`put n v` is the `n` low bytes of `v`, the most significant first, and `get` reads a byte string as
a number. Reading what was written gives the number back modulo `256^n` (`get_put`), wherever in a
buffer it stands (`get_take_drop`).
-/

/-- Bytes are ordered as numbers. -/
instance uint8LinearOrder : LinearOrder UInt8 where
  le_refl := UInt8.le_refl
  le_trans _ _ _ := UInt8.le_trans
  lt_iff_le_not_ge a b := by
    simp only [UInt8.lt_iff_toNat_lt, UInt8.le_iff_toNat_le]
    omega
  le_antisymm _ _ := UInt8.le_antisymm
  le_total := UInt8.le_total
  toDecidableLE := inferInstance

namespace BigEndian

/-- The `n` low bytes of a number, the most significant first. -/
def put : ℕ → ℕ → List UInt8
  | 0, _ => []
  | n + 1, v => UInt8.ofNat (v / 256^n) :: put n v

/-- The number that a byte string spells, the most significant byte first. -/
def get (b : List UInt8) : ℕ := b.foldl (fun acc x => acc * 256 + x.toNat) 0

@[simp]
theorem length_put (n v : ℕ) : (put n v).length = n := by
  induction n with
  | zero => rfl
  | succ n ih => simp [put, ih]

/-- Reading from an accumulated prefix shifts the prefix left. -/
theorem foldl_put (n v acc : ℕ) :
    (put n v).foldl (fun acc x => acc * 256 + x.toNat) acc = acc * 256^n + v % 256^n := by
  induction n generalizing acc with
  | zero => simp [put, Nat.mod_one]
  | succ n ih =>
    have hsplit : v % 256^(n + 1) = v % 256^n + 256^n * (v / 256^n % 256) := Nat.mod_pow_succ
    rw [put, List.foldl_cons, ih, UInt8.toNat_ofNat', hsplit, show 2^8 = 256 from rfl,
      pow_succ]
    ring

/-- Reading what was written gives the number back, modulo the range of its width. -/
theorem get_put (n v : ℕ) : get (put n v) = v % 256^n := by
  rw [get, foldl_put, zero_mul, zero_add]

/-- A number reads back from the place in a buffer where it was written. -/
theorem get_take_drop (n v : ℕ) (pre post : List UInt8) :
    get (((pre ++ (put n v ++ post)).drop pre.length).take n) = v % 256^n := by
  rw [List.drop_left, List.take_append_of_le_length (by simp), List.take_of_length_le (by simp),
    get_put]

/-- A number read from `n` bytes is below `256^n`. -/
theorem get_lt (b : List UInt8) : get b < 256^b.length := by
  induction b using List.reverseRecOn with
  | nil => simp [get]
  | append_singleton b x ih =>
    have hx := x.toNat_lt
    rw [get, List.foldl_append, ← get, List.length_append, List.length_singleton, pow_succ]
    simp only [List.foldl_cons, List.foldl_nil]
    omega

/-- Writing what was read gives the bytes back. -/
theorem put_get (b : List UInt8) : put b.length (get b) = b := by
  induction b using List.reverseRecOn with
  | nil => rfl
  | append_singleton b x ih =>
    have hget : get (b ++ [x]) = get b * 256 + x.toNat := by
      rw [get, List.foldl_append]
      rfl
    have hput : ∀ n v, put (n + 1) (v * 256 + x.toNat) = put n v ++ [x] := by
      intro n v
      induction n with
      | zero =>
        simp only [put, pow_zero, Nat.div_one, List.nil_append]
        refine congrArg (fun y => [y]) (UInt8.toNat_inj.mp ?_)
        have := x.toNat_lt
        simp
      | succ n ihn =>
        rw [put, ihn, put, List.cons_append]
        refine congrArg (fun y => UInt8.ofNat y :: (put n v ++ [x])) ?_
        have hx := x.toNat_lt
        rw [pow_succ', ← Nat.div_div_eq_div_mul]
        congr 1
        omega
    rw [hget, List.length_append, List.length_singleton, hput, ih]

/-- The number keeps its low bytes. -/
theorem put_mod (n v : ℕ) : put n (v % 256^n) = put n v := by
  have h := put_get (put n v)
  rwa [length_put, get_put] at h

end BigEndian
