/-!
# EffectChain.Hash.Fingerprint

The XXH3 hash of 64 bits with seed zero, for texts of every length, and its hexadecimal text.
Nothing but what it does on a given text is known of it: two texts may have one hash, and what
is proved of fingerprints allows for that.
-/

namespace EffectChain.Hash

/-- The key material of the hash. -/
def secret : Array UInt8 := #[
  0xb8, 0xfe, 0x6c, 0x39, 0x23, 0xa4, 0x4b, 0xbe, 0x7c, 0x01, 0x81, 0x2c, 0xf7, 0x21, 0xad, 0x1c,
  0xde, 0xd4, 0x6d, 0xe9, 0x83, 0x90, 0x97, 0xdb, 0x72, 0x40, 0xa4, 0xa4, 0xb7, 0xb3, 0x67, 0x1f,
  0xcb, 0x79, 0xe6, 0x4e, 0xcc, 0xc0, 0xe5, 0x78, 0x82, 0x5a, 0xd0, 0x7d, 0xcc, 0xff, 0x72, 0x21,
  0xb8, 0x08, 0x46, 0x74, 0xf7, 0x43, 0x24, 0x8e, 0xe0, 0x35, 0x90, 0xe6, 0x81, 0x3a, 0x26, 0x4c,
  0x3c, 0x28, 0x52, 0xbb, 0x91, 0xc3, 0x00, 0xcb, 0x88, 0xd0, 0x65, 0x8b, 0x1b, 0x53, 0x2e, 0xa3,
  0x71, 0x64, 0x48, 0x97, 0xa2, 0x0d, 0xf9, 0x4e, 0x38, 0x19, 0xef, 0x46, 0xa9, 0xde, 0xac, 0xd8,
  0xa8, 0xfa, 0x76, 0x3f, 0xe3, 0x9c, 0x34, 0x3f, 0xf9, 0xdc, 0xbb, 0xc7, 0xc7, 0x0b, 0x4f, 0x1d,
  0x8a, 0x51, 0xe0, 0x4b, 0xcd, 0xb4, 0x59, 0x31, 0xc8, 0x9f, 0x7e, 0xc9, 0xd9, 0x78, 0x73, 0x64,
  0xea, 0xc5, 0xac, 0x83, 0x34, 0xd3, 0xeb, 0xc3, 0xc5, 0x81, 0xa0, 0xff, 0xfa, 0x13, 0x63, 0xeb,
  0x17, 0x0d, 0xdd, 0x51, 0xb7, 0xf0, 0xda, 0x49, 0xd3, 0x16, 0x55, 0x26, 0x29, 0xd4, 0x68, 0x9e,
  0x2b, 0x16, 0xbe, 0x58, 0x7d, 0x47, 0xa1, 0xfc, 0x8f, 0xf8, 0xb8, 0xd1, 0x7a, 0xd0, 0x31, 0xce,
  0x45, 0xcb, 0x3a, 0x8f, 0x95, 0x16, 0x04, 0x28, 0xaf, 0xd7, 0xfb, 0xca, 0xbb, 0x4b, 0x40, 0x7e]

/-! ## words -/

/-- The number of `n` bytes from `i` on, the lowest byte first. -/
def readBytes (a : Array UInt8) (i n : Nat) : UInt64 :=
  (List.range n).foldr (fun k acc => (acc <<< 8) ||| (a.getD (i + k) 0).toUInt64) 0

def read64 (a : Array UInt8) (i : Nat) : UInt64 := readBytes a i 8

def read32 (a : Array UInt8) (i : Nat) : UInt64 := readBytes a i 4

/-- The bytes of a word in reverse order. -/
def swapBytes (x : UInt64) : UInt64 :=
  (List.range 8).foldl (fun acc k => (acc <<< 8) ||| ((x >>> (8 * k.toUInt64)) &&& (0xff : UInt64)))
    0

def rotateLeft (x : UInt64) (r : UInt64) : UInt64 := (x <<< r) ||| (x >>> (64 - r))

/-- The two halves of a product, one laid over the other. -/
def foldedProduct (a b : UInt64) : UInt64 :=
  let p := a.toNat * b.toNat
  p.toUInt64 ^^^ (p / 0x10000000000000000).toUInt64

def prime32a : UInt64 := 0x9E3779B1
def prime32b : UInt64 := 0x85EBCA77
def prime32c : UInt64 := 0xC2B2AE3D
def prime64a : UInt64 := 0x9E3779B185EBCA87
def prime64b : UInt64 := 0xC2B2AE3D27D4EB4F
def prime64c : UInt64 := 0x165667B19E3779F9
def prime64d : UInt64 := 0x85EBCA77C2B2AE63
def prime64e : UInt64 := 0x27D4EB2F165667C5
def primeMixA : UInt64 := 0x165667919E3779F9
def primeMixB : UInt64 := 0x9FB21C651E98DF25

/-- Spreads every bit over the word. -/
def avalanche (h : UInt64) : UInt64 :=
  let h := (h ^^^ (h >>> 37)) * primeMixA
  h ^^^ (h >>> 32)

/-- Spreads the bits of a short input. -/
def avalancheShort (h : UInt64) : UInt64 :=
  let h := (h ^^^ (h >>> 33)) * prime64b
  let h := (h ^^^ (h >>> 29)) * prime64c
  h ^^^ (h >>> 32)

/-! ## short inputs -/

def hashUpTo16 (a : Array UInt8) : UInt64 :=
  let n := a.size
  if n = 0 then avalancheShort (read64 secret 56 ^^^ read64 secret 64)
  else if n ≤ 3 then
    let combined := (readBytes a 0 1 <<< 16) ||| (readBytes a (n / 2) 1 <<< 24) |||
      readBytes a (n - 1) 1 ||| (n.toUInt64 <<< 8)
    avalancheShort (combined ^^^ (read32 secret 0 ^^^ read32 secret 4))
  else if n ≤ 8 then
    let x := (read32 a (n - 4) + (read32 a 0 <<< 32)) ^^^ (read64 secret 8 ^^^ read64 secret 16)
    let x := (x ^^^ rotateLeft x 49 ^^^ rotateLeft x 24) * primeMixB
    let x := (x ^^^ ((x >>> 35) + n.toUInt64)) * primeMixB
    x ^^^ (x >>> 28)
  else
    let lo := read64 a 0 ^^^ (read64 secret 24 ^^^ read64 secret 32)
    let hi := read64 a (n - 8) ^^^ (read64 secret 40 ^^^ read64 secret 48)
    avalanche (n.toUInt64 + swapBytes lo + hi + foldedProduct lo hi)

/-! ## inputs of medium length -/

/-- Sixteen bytes at `i`, mixed with the key at `k`. -/
def mix16 (a : Array UInt8) (i k : Nat) : UInt64 :=
  foldedProduct (read64 a i ^^^ read64 secret k) (read64 a (i + 8) ^^^ read64 secret (k + 8))

def hashUpTo128 (a : Array UInt8) : UInt64 :=
  let n := a.size
  let rounds := (n - 1) / 32
  avalanche ((List.range (rounds + 1)).foldl (fun acc j =>
    acc + mix16 a (16 * j) (32 * j) + mix16 a (n - 16 * (j + 1)) (32 * j + 16))
    (n.toUInt64 * prime64a))

def hashUpTo240 (a : Array UInt8) : UInt64 :=
  let n := a.size
  let first := (List.range 8).foldl (fun acc j => acc + mix16 a (16 * j) (16 * j))
    (n.toUInt64 * prime64a)
  let more := (List.range (n / 16 - 8)).foldl
    (fun acc j => acc + mix16 a (16 * (j + 8)) (16 * j + 3)) (avalanche first)
  avalanche (more + mix16 a (n - 16) 119)

/-! ## long inputs -/

/-- Takes a stripe of 64 bytes at `i` into the eight sums with the key at `k`. -/
def stripe (a : Array UInt8) (i k : Nat) (sums : List UInt64) : List UInt64 :=
  let words := (List.range 8).map fun j => read64 a (i + 8 * j)
  sums.zipIdx.map fun (s, j) =>
    let other := words.getD (if j % 2 = 0 then j + 1 else j - 1) 0
    let key := words.getD j 0 ^^^ read64 secret (k + 8 * j)
    s + other + (key &&& (0xffffffff : UInt64)) * (key >>> 32)

/-- Mixes the sums at the end of a block of sixteen stripes. -/
def scramble (sums : List UInt64) : List UInt64 :=
  sums.zipIdx.map fun (s, j) => ((s ^^^ (s >>> 47)) ^^^ read64 secret (128 + 8 * j)) * prime32a

def initialSums : List UInt64 :=
  [prime32c, prime64a, prime64b, prime64c, prime64d, prime32b, prime64e, prime32a]

/-- The sums after `count` stripes from stripe `first` on. -/
def stripes (a : Array UInt8) (first count : Nat) (sums : List UInt64) : List UInt64 :=
  (List.range count).foldl (fun s j => stripe a (64 * (first + j)) (8 * j) s) sums

def hashLong (a : Array UInt8) : UInt64 :=
  let n := a.size
  let blocks := (n - 1) / 1024
  let sums := (List.range blocks).foldl (fun s b => scramble (stripes a (16 * b) 16 s)) initialSums
  let sums := stripes a (16 * blocks) ((n - 1 - 1024 * blocks) / 64) sums
  let sums := stripe a (n - 64) 121 sums
  avalanche ((List.range 4).foldl (fun acc j =>
    acc + foldedProduct (sums.getD (2 * j) 0 ^^^ read64 secret (11 + 16 * j))
      (sums.getD (2 * j + 1) 0 ^^^ read64 secret (19 + 16 * j)))
    (n.toUInt64 * prime64a))

/-- The hash of a sequence of bytes. -/
def hash (bs : List UInt8) : UInt64 :=
  let a := bs.toArray
  if a.size ≤ 16 then hashUpTo16 a
  else if a.size ≤ 128 then hashUpTo128 a
  else if a.size ≤ 240 then hashUpTo240 a
  else hashLong a

/-- The hash in hexadecimal digits without leading zeros. -/
def fingerprint (bs : List UInt8) : String := String.ofList (Nat.toDigits 16 (hash bs).toNat)

end EffectChain.Hash
