/-!
# A 64-bit digest of texts

The digest of a text is the 64-bit XXH3 hash of its UTF-8 bytes with seed zero
and the standard secret. Short inputs are hashed by one formula per range of
lengths; inputs of more than 240 bytes are folded in stripes of 64 bytes into
eight accumulators.
-/

set_option autoImplicit false

namespace LinkClosure

namespace Digest

def secret : ByteArray :=
  ⟨#[
    0xb8, 0xfe, 0x6c, 0x39, 0x23, 0xa4, 0x4b, 0xbe, 0x7c, 0x01, 0x81, 0x2c,
    0xf7, 0x21, 0xad, 0x1c, 0xde, 0xd4, 0x6d, 0xe9, 0x83, 0x90, 0x97, 0xdb,
    0x72, 0x40, 0xa4, 0xa4, 0xb7, 0xb3, 0x67, 0x1f, 0xcb, 0x79, 0xe6, 0x4e,
    0xcc, 0xc0, 0xe5, 0x78, 0x82, 0x5a, 0xd0, 0x7d, 0xcc, 0xff, 0x72, 0x21,
    0xb8, 0x08, 0x46, 0x74, 0xf7, 0x43, 0x24, 0x8e, 0xe0, 0x35, 0x90, 0xe6,
    0x81, 0x3a, 0x26, 0x4c, 0x3c, 0x28, 0x52, 0xbb, 0x91, 0xc3, 0x00, 0xcb,
    0x88, 0xd0, 0x65, 0x8b, 0x1b, 0x53, 0x2e, 0xa3, 0x71, 0x64, 0x48, 0x97,
    0xa2, 0x0d, 0xf9, 0x4e, 0x38, 0x19, 0xef, 0x46, 0xa9, 0xde, 0xac, 0xd8,
    0xa8, 0xfa, 0x76, 0x3f, 0xe3, 0x9c, 0x34, 0x3f, 0xf9, 0xdc, 0xbb, 0xc7,
    0xc7, 0x0b, 0x4f, 0x1d, 0x8a, 0x51, 0xe0, 0x4b, 0xcd, 0xb4, 0x59, 0x31,
    0xc8, 0x9f, 0x7e, 0xc9, 0xd9, 0x78, 0x73, 0x64, 0xea, 0xc5, 0xac, 0x83,
    0x34, 0xd3, 0xeb, 0xc3, 0xc5, 0x81, 0xa0, 0xff, 0xfa, 0x13, 0x63, 0xeb,
    0x17, 0x0d, 0xdd, 0x51, 0xb7, 0xf0, 0xda, 0x49, 0xd3, 0x16, 0x55, 0x26,
    0x29, 0xd4, 0x68, 0x9e, 0x2b, 0x16, 0xbe, 0x58, 0x7d, 0x47, 0xa1, 0xfc,
    0x8f, 0xf8, 0xb8, 0xd1, 0x7a, 0xd0, 0x31, 0xce, 0x45, 0xcb, 0x3a, 0x8f,
    0x95, 0x16, 0x04, 0x28, 0xaf, 0xd7, 0xfb, 0xca, 0xbb, 0x4b, 0x40, 0x7e]⟩

def prime32a : UInt64 := 0x9E3779B1
def prime32b : UInt64 := 0x85EBCA77
def prime32c : UInt64 := 0xC2B2AE3D
def prime64a : UInt64 := 0x9E3779B185EBCA87
def prime64b : UInt64 := 0xC2B2AE3D27D4EB4F
def prime64c : UInt64 := 0x165667B19E3779F9
def prime64d : UInt64 := 0x85EBCA77C2B2AE63
def prime64e : UInt64 := 0x27D4EB2F165667C5
def mixPrime : UInt64 := 0x165667919E3779F9
def shortPrime : UInt64 := 0x9FB21C651E98DF25

def byteAt (b : ByteArray) (i : Nat) : UInt64 := if h : i < b.size then b[i].toUInt64 else 0

def word (count : Nat) (b : ByteArray) (i : Nat) : UInt64 :=
  (List.range count).foldr (fun k w => (w <<< 8) ||| byteAt b (i + k)) 0

def word32 : ByteArray → Nat → UInt64 := word 4

def word64 : ByteArray → Nat → UInt64 := word 8

def rotateLeft (x k : UInt64) : UInt64 := (x <<< k) ||| (x >>> (64 - k))

def swapBytes (x : UInt64) : UInt64 :=
  (List.range 8).foldl (fun w k => (w <<< 8) ||| ((x >>> (8 * k.toUInt64)) &&& 0xff)) 0

def foldedProduct (x y : UInt64) : UInt64 :=
  let p := x.toNat * y.toNat
  p.toUInt64 ^^^ (p / 18446744073709551616).toUInt64

def avalanche (x : UInt64) : UInt64 :=
  let x := (x ^^^ (x >>> 37)) * mixPrime
  x ^^^ (x >>> 32)

def strongAvalanche (x : UInt64) : UInt64 :=
  let x := (x ^^^ (x >>> 33)) * prime64b
  let x := (x ^^^ (x >>> 29)) * prime64c
  x ^^^ (x >>> 32)

def upTo3 (b : ByteArray) (n : Nat) : UInt64 :=
  let combined := (byteAt b 0 <<< 16) ||| (byteAt b (n / 2) <<< 24) ||| byteAt b (n - 1) |||
    (n.toUInt64 <<< 8)
  strongAvalanche (combined ^^^ (word32 secret 0 ^^^ word32 secret 4))

def upTo8 (b : ByteArray) (n : Nat) : UInt64 :=
  let input := word32 b (n - 4) + (word32 b 0 <<< 32)
  let x := input ^^^ (word64 secret 8 ^^^ word64 secret 16)
  let x := (x ^^^ rotateLeft x 49 ^^^ rotateLeft x 24) * shortPrime
  let x := (x ^^^ ((x >>> 35) + n.toUInt64)) * shortPrime
  x ^^^ (x >>> 28)

def upTo16 (b : ByteArray) (n : Nat) : UInt64 :=
  let low := word64 b 0 ^^^ (word64 secret 24 ^^^ word64 secret 32)
  let high := word64 b (n - 8) ^^^ (word64 secret 40 ^^^ word64 secret 48)
  avalanche (n.toUInt64 + swapBytes low + high + foldedProduct low high)

def mix16 (b : ByteArray) (i k : Nat) : UInt64 :=
  foldedProduct (word64 b i ^^^ word64 secret k) (word64 b (i + 8) ^^^ word64 secret (k + 8))

/-- Pairs of blocks from both ends towards the middle. -/
def upTo128 (b : ByteArray) (n : Nat) : UInt64 :=
  let pairs := (n - 1) / 32 + 1
  avalanche ((List.range pairs).foldl (fun acc i =>
    acc + mix16 b (16 * i) (32 * i) + mix16 b (n - 16 * (i + 1)) (32 * i + 16))
    (n.toUInt64 * prime64a))

def upTo240 (b : ByteArray) (n : Nat) : UInt64 :=
  let first := (List.range 8).foldl (fun acc i => acc + mix16 b (16 * i) (16 * i))
    (n.toUInt64 * prime64a)
  let rest := (List.range (n / 16 - 8)).foldl
    (fun acc i => acc + mix16 b (16 * (i + 8)) (16 * i + 3)) (avalanche first)
  avalanche (rest + mix16 b (n - 16) 119)

abbrev Lanes := Vector UInt64 8

def initialLanes : Lanes :=
  #v[prime32c, prime64a, prime64b, prime64c, prime64d, prime32b, prime64e, prime32a]

/-- Fold the 64 bytes at `i` into the lanes: each lane takes the product of its keyed
halves and the plain word of its neighbour. -/
def accumulate (b : ByteArray) (i k : Nat) (lanes : Lanes) : Lanes :=
  Vector.ofFn fun j : Fin 8 =>
    let keyed := word64 b (i + 8 * j) ^^^ word64 secret (k + 8 * j)
    let neighbour := if j.val % 2 = 0 then j.val + 1 else j.val - 1
    lanes[j] + word64 b (i + 8 * neighbour) + (keyed &&& (0xffffffff : UInt64)) * (keyed >>> 32)

def scramble (lanes : Lanes) : Lanes :=
  Vector.ofFn fun j : Fin 8 =>
    ((lanes[j] ^^^ (lanes[j] >>> 47)) ^^^ word64 secret (128 + 8 * j)) * prime32a

def stripes (b : ByteArray) (i count : Nat) (lanes : Lanes) : Lanes :=
  (List.range count).foldl (fun acc k => accumulate b (i + 64 * k) (8 * k) acc) lanes

def mergeLanes (lanes : Lanes) (start : UInt64) : UInt64 :=
  let mix (i j : Fin 8) (k : Nat) : UInt64 :=
    foldedProduct (lanes[i] ^^^ word64 secret k) (lanes[j] ^^^ word64 secret (k + 8))
  avalanche (start + mix 0 1 11 + mix 2 3 27 + mix 4 5 43 + mix 6 7 59)

/-- Whole blocks of sixteen stripes, then what is left, then the last 64 bytes. -/
def long (b : ByteArray) (n : Nat) : UInt64 :=
  let blocks := (n - 1) / 1024
  let lanes := (List.range blocks).foldl
    (fun acc k => scramble (stripes b (1024 * k) 16 acc)) initialLanes
  let lanes := stripes b (1024 * blocks) ((n - 1 - 1024 * blocks) / 64) lanes
  mergeLanes (accumulate b (n - 64) 121 lanes) (n.toUInt64 * prime64a)

def ofBytes (b : ByteArray) : UInt64 :=
  let n := b.size
  if n = 0 then strongAvalanche (word64 secret 56 ^^^ word64 secret 64)
  else if n ≤ 3 then upTo3 b n
  else if n ≤ 8 then upTo8 b n
  else if n ≤ 16 then upTo16 b n
  else if n ≤ 128 then upTo128 b n
  else if n ≤ 240 then upTo240 b n
  else long b n

end Digest

def digest (text : String) : UInt64 := Digest.ofBytes text.toUTF8

def hexadecimal (width n : Nat) : String :=
  let digits := Nat.toDigits 16 n
  String.ofList (List.replicate (width - digits.length) '0' ++ digits)

end LinkClosure
