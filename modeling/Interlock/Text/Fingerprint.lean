/-! The 64-bit fingerprint of a text: the XXH64 digest, seed zero, of its UTF-8 bytes. Local
variables are told apart by the fingerprint of their name. -/

namespace Interlock.Text.Fingerprint

def prime1 : UInt64 := 0x9E3779B185EBCA87
def prime2 : UInt64 := 0xC2B2AE3D27D4EB4F
def prime3 : UInt64 := 0x165667B19E3779F9
def prime4 : UInt64 := 0x85EBCA77C2B2AE63
def prime5 : UInt64 := 0x27D4EB2F165667C5

def rotate (x : UInt64) (n : UInt64) : UInt64 := (x <<< n) ||| (x >>> (64 - n))

/-- The little-endian number that the bytes write. -/
def number : List UInt8 → UInt64
  | [] => 0
  | b :: bs => b.toUInt64 + 256 * number bs

def round (acc lane : UInt64) : UInt64 := rotate (acc + lane * prime2) 31 * prime1

def mergeLane (hash acc : UInt64) : UInt64 := (hash ^^^ round 0 acc) * prime1 + prime4

structure Lanes where
  v1 : UInt64
  v2 : UInt64
  v3 : UInt64
  v4 : UInt64

def Lanes.start : Lanes := ⟨prime1 + prime2, prime2, 0, 0 - prime1⟩

def Lanes.absorb (s : Lanes) (stripe : List UInt8) : Lanes :=
  let lane (i : Nat) := number ((stripe.drop (8 * i)).take 8)
  ⟨round s.v1 (lane 0), round s.v2 (lane 1), round s.v3 (lane 2), round s.v4 (lane 3)⟩

def Lanes.merge (s : Lanes) : UInt64 :=
  let sum := rotate s.v1 1 + rotate s.v2 7 + rotate s.v3 12 + rotate s.v4 18
  mergeLane (mergeLane (mergeLane (mergeLane sum s.v1) s.v2) s.v3) s.v4

/-- Absorbs all whole stripes of 32 bytes; the bytes after them are left. -/
def stripes : Nat → Lanes → List UInt8 → Lanes × List UInt8
  | 0, s, bytes => (s, bytes)
  | fuel + 1, s, bytes =>
    if bytes.length < 32 then (s, bytes)
    else stripes fuel (s.absorb (bytes.take 32)) (bytes.drop 32)

/-- Absorbs the bytes after the last stripe, by eight, by four and one by one. -/
def tail : Nat → UInt64 → List UInt8 → UInt64
  | 0, hash, _ => hash
  | fuel + 1, hash, bytes =>
    if 8 ≤ bytes.length then
      let hash := hash ^^^ round 0 (number (bytes.take 8))
      tail fuel (rotate hash 27 * prime1 + prime4) (bytes.drop 8)
    else if 4 ≤ bytes.length then
      let hash := hash ^^^ (number (bytes.take 4) * prime1)
      tail fuel (rotate hash 23 * prime2 + prime3) (bytes.drop 4)
    else match bytes with
      | [] => hash
      | b :: bytes => tail fuel (rotate (hash ^^^ (b.toUInt64 * prime5)) 11 * prime1) bytes

def avalanche (hash : UInt64) : UInt64 :=
  let hash := (hash ^^^ (hash >>> 33)) * prime2
  let hash := (hash ^^^ (hash >>> 29)) * prime3
  hash ^^^ (hash >>> 32)

def ofBytes (bytes : List UInt8) : UInt64 :=
  let length := bytes.length
  let (start, rest) :=
    if length < 32 then (prime5, bytes)
    else
      let (lanes, rest) := stripes length Lanes.start bytes
      (lanes.merge, rest)
  avalanche (tail (length + 1) (start + length.toUInt64) rest)

end Fingerprint

/-- The fingerprint of a text. -/
def fingerprint (text : String) : UInt64 := Fingerprint.ofBytes text.toUTF8.toList

end Interlock.Text
