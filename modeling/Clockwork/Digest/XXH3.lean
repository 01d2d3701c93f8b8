/-!
The 128-bit hash XXH3 with seed 0 and the standard secret. The hash distinguishes six classes of
input by length (none, 1 to 3, 4 to 8, 9 to 16, 17 to 128, 129 to 240 and more bytes) and mixes
each class in its own way; all arithmetic is on 64-bit words that wrap around.
-/

namespace Clockwork.Digest.XXH3

structure Words where
  low : UInt64
  high : UInt64
  deriving DecidableEq, Repr, Inhabited

def secret : ByteArray := ⟨#[
  0xb8, 0xfe, 0x6c, 0x39, 0x23, 0xa4, 0x4b, 0xbe, 0x7c, 0x01, 0x81, 0x2c, 0xf7, 0x21, 0xad, 0x1c,
  0xde, 0xd4, 0x6d, 0xe9, 0x83, 0x90, 0x97, 0xdb, 0x72, 0x40, 0xa4, 0xa4, 0xb7, 0xb3, 0x67, 0x1f,
  0xcb, 0x79, 0xe6, 0x4e, 0xcc, 0xc0, 0xe5, 0x78, 0x82, 0x5a, 0xd0, 0x7d, 0xcc, 0xff, 0x72, 0x21,
  0xb8, 0x08, 0x46, 0x74, 0xf7, 0x43, 0x24, 0x8e, 0xe0, 0x35, 0x90, 0xe6, 0x81, 0x3a, 0x26, 0x4c,
  0x3c, 0x28, 0x52, 0xbb, 0x91, 0xc3, 0x00, 0xcb, 0x88, 0xd0, 0x65, 0x8b, 0x1b, 0x53, 0x2e, 0xa3,
  0x71, 0x64, 0x48, 0x97, 0xa2, 0x0d, 0xf9, 0x4e, 0x38, 0x19, 0xef, 0x46, 0xa9, 0xde, 0xac, 0xd8,
  0xa8, 0xfa, 0x76, 0x3f, 0xe3, 0x9c, 0x34, 0x3f, 0xf9, 0xdc, 0xbb, 0xc7, 0xc7, 0x0b, 0x4f, 0x1d,
  0x8a, 0x51, 0xe0, 0x4b, 0xcd, 0xb4, 0x59, 0x31, 0xc8, 0x9f, 0x7e, 0xc9, 0xd9, 0x78, 0x73, 0x64,
  0xea, 0xc5, 0xac, 0x83, 0x34, 0xd3, 0xeb, 0xc3, 0xc5, 0x81, 0xa0, 0xff, 0xfa, 0x13, 0x63, 0xeb,
  0x17, 0x0d, 0xdd, 0x51, 0xb7, 0xf0, 0xda, 0x49, 0xd3, 0x16, 0x55, 0x26, 0x29, 0xd4, 0x68, 0x9e,
  0x2b, 0x16, 0xbe, 0x58, 0x7d, 0x47, 0xa1, 0xfc, 0x8f, 0xf8, 0xb8, 0xd1, 0x7a, 0xd0, 0x31, 0xce,
  0x45, 0xcb, 0x3a, 0x8f, 0x95, 0x16, 0x04, 0x28, 0xaf, 0xd7, 0xfb, 0xca, 0xbb, 0x4b, 0x40, 0x7e]⟩

def prime32x1 : UInt64 := 0x9E3779B1

def prime32x2 : UInt64 := 0x85EBCA77

def prime32x3 : UInt64 := 0xC2B2AE3D

def prime64x1 : UInt64 := 0x9E3779B185EBCA87

def prime64x2 : UInt64 := 0xC2B2AE3D27D4EB4F

def prime64x3 : UInt64 := 0x165667B19E3779F9

def prime64x4 : UInt64 := 0x85EBCA77C2B2AE63

def prime64x5 : UInt64 := 0x27D4EB2F165667C5

def primeMix1 : UInt64 := 0x165667919E3779F9

def primeMix2 : UInt64 := 0x9FB21C651E98DF25

def low32 (x : UInt64) : UInt64 := x &&& 0xFFFFFFFF

def byteAt (b : ByteArray) (i : Nat) : UInt64 := (b.data[i]?.getD 0).toUInt64

/-- The little-endian number in `n` bytes from `i` on. -/
def readLE (b : ByteArray) (i : Nat) : Nat → UInt64
  | 0 => 0
  | n + 1 => byteAt b i ||| (readLE b (i + 1) n <<< 8)

def read32 (b : ByteArray) (i : Nat) : UInt64 := readLE b i 4

def read64 (b : ByteArray) (i : Nat) : UInt64 := readLE b i 8

/-- The byte of a word that starts at bit `n`. -/
def part (x n : UInt64) : UInt64 := (x >>> n) &&& 0xFF

/-- The bytes of the low half of a word in reverse order. -/
def swap32 (x : UInt64) : UInt64 :=
  (part x 0 <<< 24) ||| (part x 8 <<< 16) ||| (part x 16 <<< 8) ||| part x 24

def swap64 (x : UInt64) : UInt64 := (swap32 x <<< 32) ||| swap32 (x >>> 32)

/-- The low half of a word rotated left by `n` places. -/
def rotate32 (x : UInt64) (n : UInt64) : UInt64 :=
  low32 (x <<< n) ||| (low32 x >>> (32 - n))

def product (a b : UInt64) : Words :=
  let p := a.toNat * b.toNat
  ⟨UInt64.ofNat p, UInt64.ofNat (p / Nat.pow 2 64)⟩

def fold (a b : UInt64) : UInt64 :=
  let p := product a b
  p.low ^^^ p.high

def shiftXor (x : UInt64) (n : UInt64) : UInt64 := x ^^^ (x >>> n)

def avalanche (h : UInt64) : UInt64 := shiftXor (shiftXor h 37 * primeMix1) 32

def avalancheShort (h : UInt64) : UInt64 :=
  shiftXor (shiftXor (shiftXor h 33 * prime64x2) 29 * prime64x3) 32

def hashEmpty : Words :=
  ⟨avalancheShort (read64 secret 64 ^^^ read64 secret 72),
   avalancheShort (read64 secret 80 ^^^ read64 secret 88)⟩

def hashTo3 (b : ByteArray) : Words :=
  let n := b.size
  let combined := (byteAt b 0 <<< 16) ||| (byteAt b (n / 2) <<< 24) ||| byteAt b (n - 1) |||
    (n.toUInt64 <<< 8)
  let turned := rotate32 (swap32 combined) 13
  ⟨avalancheShort (combined ^^^ (read32 secret 0 ^^^ read32 secret 4)),
   avalancheShort (turned ^^^ (read32 secret 8 ^^^ read32 secret 12))⟩

def hashTo8 (b : ByteArray) : Words :=
  let n := b.size
  let input := read32 b 0 + (read32 b (n - 4) <<< 32)
  let keyed := input ^^^ (read64 secret 16 ^^^ read64 secret 24)
  let m := product keyed (prime64x1 + (n.toUInt64 <<< 2))
  let high := m.high + (m.low <<< 1)
  let low := m.low ^^^ (high >>> 3)
  ⟨shiftXor (shiftXor low 35 * primeMix2) 28, avalanche high⟩

def hashTo16 (b : ByteArray) : Words :=
  let n := b.size
  let first := read64 b 0
  let last := read64 b (n - 8)
  let m := product (first ^^^ last ^^^ (read64 secret 32 ^^^ read64 secret 40)) prime64x1
  let low := m.low + ((n.toUInt64 - 1) <<< 54)
  let last := last ^^^ (read64 secret 48 ^^^ read64 secret 56)
  let high := m.high + (last + low32 last * (prime32x2 - 1))
  let low := low ^^^ swap64 high
  let h := product low prime64x2
  ⟨avalanche h.low, avalanche (h.high + high * prime64x2)⟩

/-- Sixteen bytes of input against sixteen of the secret. -/
def mix16 (b : ByteArray) (i : Nat) (s : Nat) : UInt64 :=
  fold (read64 b i ^^^ read64 secret s) (read64 b (i + 8) ^^^ read64 secret (s + 8))

/-- Two runs of sixteen bytes of input against 32 bytes of the secret. -/
def mix32 (b : ByteArray) (acc : Words) (i j : Nat) (s : Nat) : Words :=
  ⟨(acc.low + mix16 b i s) ^^^ (read64 b j + read64 b (j + 8)),
   (acc.high + mix16 b j (s + 16)) ^^^ (read64 b i + read64 b (i + 8))⟩

def finishMedium (n : Nat) (acc : Words) : Words :=
  ⟨avalanche (acc.low + acc.high),
   0 - avalanche (acc.low * prime64x1 + acc.high * prime64x4 + n.toUInt64 * prime64x2)⟩

/-- 17 to 128 bytes: pairs of runs from both ends towards the middle, the innermost first. -/
def hashTo128 (b : ByteArray) : Words :=
  let n := b.size
  let pairs := (List.range ((n - 1) / 32 + 1)).reverse
  finishMedium n (pairs.foldl (fun acc k => mix32 b acc (16 * k) (n - 16 * (k + 1)) (32 * k))
    ⟨n.toUInt64 * prime64x1, 0⟩)

/-- 129 to 240 bytes: four pairs of runs, a mix, the remaining whole pairs, and the last run. -/
def hashTo240 (b : ByteArray) : Words :=
  let n := b.size
  let acc := (List.range 4).foldl (fun acc k => mix32 b acc (32 * k) (32 * k + 16) (32 * k))
    (⟨n.toUInt64 * prime64x1, 0⟩ : Words)
  let acc : Words := ⟨avalanche acc.low, avalanche acc.high⟩
  let acc := (List.range (n / 32 - 4)).foldl
    (fun acc k => mix32 b acc (32 * (k + 4)) (32 * (k + 4) + 16) (3 + 32 * k)) acc
  finishMedium n (mix32 b acc (n - 16) (n - 32) 103)

def initial : Array UInt64 :=
  #[prime32x3, prime64x1, prime64x2, prime64x3, prime64x4, prime32x2, prime64x5, prime32x1]

def lane (acc : Array UInt64) (i : Nat) : UInt64 := acc[i]?.getD 0

/-- Adds 64 bytes of input to the accumulators. Each word goes to the neighbour's accumulator,
and the product of its keyed halves to its own. -/
def addStripe (b : ByteArray) (acc : Array UInt64) (i : Nat) (s : Nat) : Array UInt64 :=
  Array.ofFn fun k : Fin 8 =>
    let keyed := read64 b (i + 8 * k.val) ^^^ read64 secret (s + 8 * k.val)
    lane acc k.val + read64 b (i + 8 * (k.val ^^^ 1)) + low32 keyed * (keyed >>> 32)

def scramble (acc : Array UInt64) : Array UInt64 :=
  Array.ofFn fun k : Fin 8 =>
    (shiftXor (lane acc k.val) 47 ^^^ read64 secret (128 + 8 * k.val)) * prime32x1

def addStripes (b : ByteArray) (acc : Array UInt64) (i : Nat) (count : Nat) : Array UInt64 :=
  (List.range count).foldl (fun acc k => addStripe b acc (i + 64 * k) (8 * k)) acc

def merge (acc : Array UInt64) (s : Nat) (start : UInt64) : UInt64 :=
  avalanche ((List.range 4).foldl (fun r k =>
    r + fold (lane acc (2 * k) ^^^ read64 secret (s + 16 * k))
      (lane acc (2 * k + 1) ^^^ read64 secret (s + 16 * k + 8))) start)

/-- More than 240 bytes: blocks of 16 stripes, then the stripes that are left and the last one. -/
def hashLong (b : ByteArray) : Words :=
  let n := b.size
  let blocks := (n - 1) / 1024
  let acc := (List.range blocks).foldl
    (fun acc k => scramble (addStripes b acc (1024 * k) 16)) initial
  let acc := addStripes b acc (1024 * blocks) ((n - 1 - 1024 * blocks) / 64)
  let acc := addStripe b acc (n - 64) 121
  ⟨merge acc 11 (n.toUInt64 * prime64x1), merge acc 117 (~~~(n.toUInt64 * prime64x2))⟩

def hash (b : ByteArray) : Words :=
  let n := b.size
  if n = 0 then hashEmpty
  else if n ≤ 3 then hashTo3 b
  else if n ≤ 8 then hashTo8 b
  else if n ≤ 16 then hashTo16 b
  else if n ≤ 128 then hashTo128 b
  else if n ≤ 240 then hashTo240 b
  else hashLong b

end Clockwork.Digest.XXH3
