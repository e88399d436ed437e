import Sluice.BitAccess

/-!
# The 64-bit xxHash

The checksum of a byte array with seed 0. Groups of 32 bytes go through four lanes, which are then
merged; what remains is mixed in by 8, 4 and 1 bytes.
-/

namespace Sluice.XxHash

def prime1 : UInt64 := 0x9E3779B185EBCA87
def prime2 : UInt64 := 0xC2B2AE3D27D4EB4F
def prime3 : UInt64 := 0x165667B19E3779F9
def prime4 : UInt64 := 0x85EBCA77C2B2AE63
def prime5 : UInt64 := 0x27D4EB2F165667C5

/-- Rotate to the left; `count` lies between 1 and 63. -/
def rotate (x : UInt64) (count : UInt64) : UInt64 := x <<< count ||| x >>> (64 - count)

/-- The 8 bytes from `index` on, as a word. -/
def word64 (data : ByteArray) (index : Nat) : UInt64 := UInt64.ofNat (wordAt data index 8)

/-- Take one word into a lane. -/
def round (lane input : UInt64) : UInt64 := rotate (lane + input * prime2) 31 * prime1

/-- The four lanes. -/
structure Lanes where
  a : UInt64
  b : UInt64
  c : UInt64
  d : UInt64

def Lanes.start : Lanes := ⟨prime1 + prime2, prime2, 0, 0 - prime1⟩

/-- Take `groups` groups of 32 bytes. -/
def Lanes.run (data : ByteArray) (index : Nat) : (groups : Nat) → Lanes → Lanes
  | 0, lanes => lanes
  | groups + 1, ⟨a, b, c, d⟩ =>
    Lanes.run data (index + 32) groups
      ⟨round a (word64 data index), round b (word64 data (index + 8)),
        round c (word64 data (index + 16)), round d (word64 data (index + 24))⟩

/-- Merge one lane into the hash. -/
def mergeLane (hash lane : UInt64) : UInt64 := (hash ^^^ round 0 lane) * prime1 + prime4

def Lanes.merge (l : Lanes) : UInt64 :=
  let hash := rotate l.a 1 + rotate l.b 7 + rotate l.c 12 + rotate l.d 18
  mergeLane (mergeLane (mergeLane (mergeLane hash l.a) l.b) l.c) l.d

/-- Mix in `count` words of 8 bytes. -/
def mixWords (data : ByteArray) (index : Nat) : (count : Nat) → UInt64 → UInt64
  | 0, hash => hash
  | count + 1, hash =>
    mixWords data (index + 8) count
      (rotate (hash ^^^ round 0 (word64 data index)) 27 * prime1 + prime4)

/-- Mix in 4 bytes. -/
def mixHalf (data : ByteArray) (index : Nat) (hash : UInt64) : UInt64 :=
  rotate (hash ^^^ UInt64.ofNat (wordAt data index 4) * prime1) 23 * prime2 + prime3

/-- Mix in `count` single bytes. -/
def mixBytes (data : ByteArray) (index : Nat) : (count : Nat) → UInt64 → UInt64
  | 0, hash => hash
  | count + 1, hash =>
    mixBytes data (index + 1) count
      (rotate (hash ^^^ UInt64.ofNat (byteAt data index) * prime5) 11 * prime1)

/-- Spread every bit over the whole word. -/
def avalanche (hash : UInt64) : UInt64 :=
  let hash := (hash ^^^ hash >>> 33) * prime2
  let hash := (hash ^^^ hash >>> 29) * prime3
  hash ^^^ hash >>> 32

/-- The hash of all of `data`. -/
def hash64 (data : ByteArray) : UInt64 :=
  let size := data.size
  let groups := size / 32
  let hash := if groups = 0 then prime5 else (Lanes.run data 0 groups .start).merge
  let hash := hash + UInt64.ofNat size
  let words := size % 32 / 8
  let hash := mixWords data (32 * groups) words hash
  let index := 32 * groups + 8 * words
  let rest := size % 8
  let hash := if 4 ≤ rest then mixHalf data index hash else hash
  let index := if 4 ≤ rest then index + 4 else index
  avalanche (mixBytes data index (rest % 4) hash)

end Sluice.XxHash
