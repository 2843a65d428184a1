import MiniLsm.Key

/-!
# The libraries on short inputs

`Extern.lib` has the functions of the libraries on the inputs of short runs: zlib's `crc32`, and
farmhash's `Fingerprint32` of up to four bytes. Runs on fixed inputs use it.
-/

namespace MiniLsm

/-- One bit of the polynomial division in zlib's `crc32`. -/
def crc32Bit (c : ℕ) : ℕ := if c % 2 = 1 then (c >>> 1) ^^^ 0xEDB88320 else c >>> 1

/-- zlib's `crc32` of a byte string. -/
def zlibCrc32 (data : Bytes) : ℕ :=
  (data.foldl (fun c b => crc32Bit^[8] (c ^^^ b.toNat)) 0xFFFFFFFF) ^^^ 0xFFFFFFFF

/-- `Rotate32` of farmhash. -/
def rotate32 (val : UInt32) (shift : UInt32) : UInt32 := (val >>> shift) ||| (val <<< (32 - shift))

/-- `Mur` of farmhash. -/
def mur (a h : UInt32) : UInt32 :=
  rotate32 (h ^^^ (rotate32 (a * 0xcc9e2d51) 17 * 0x1b873593)) 19 * 5 + 0xe6546b64

/-- `fmix` of farmhash. -/
def fmix (h : UInt32) : UInt32 :=
  let h := (h ^^^ (h >>> 16)) * 0x85ebca6b
  let h := (h ^^^ (h >>> 13)) * 0xc2b2ae35
  h ^^^ (h >>> 16)

/-- `Hash32Len0to4` of farmhash, which `Fingerprint32` is on up to four bytes. The bytes are added
as signed numbers. -/
def hash32Len0to4 (s : Bytes) : UInt32 :=
  let (b, c) := s.foldl (fun (b, c) x =>
    let v := if x.toNat < 128 then x.toUInt32 else x.toUInt32 - 256
    let b := b * 0xcc9e2d51 + v
    (b, c ^^^ b)) ((0 : UInt32), (9 : UInt32))
  fmix (mur b (mur s.length.toUInt32 c))

/-- The libraries, without Snappy, as far as short runs use them: keys have at most four bytes, and
the ratios of the controllers need no rounding. -/
def Extern.lib : Extern where
  crc32 := zlibCrc32
  fingerprint32 := hash32Len0to4
  bloomBitsPerKey := fun _ => 10
  bloomProbes := fun _ => 6
  snappy := none
  rounding := Rounding.exact

end MiniLsm
