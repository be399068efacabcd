/-! A 64-bit fingerprint of a byte sequence: the SipHash function with one compression round and
three finalisation rounds, under the key zero. -/
namespace CallChart

namespace Fingerprint

/-- The four words of the running state. -/
structure State where
  v0 : UInt64
  v1 : UInt64
  v2 : UInt64
  v3 : UInt64
  deriving DecidableEq, Repr

def rotate (x : UInt64) (by_ : UInt64) : UInt64 := (x <<< by_) ||| (x >>> (64 - by_))

def start : State :=
  ⟨0x736f6d6570736575, 0x646f72616e646f6d, 0x6c7967656e657261, 0x7465646279746573⟩

def round (s : State) : State :=
  let v0 := s.v0 + s.v1
  let v1 := rotate s.v1 13 ^^^ v0
  let v0 := rotate v0 32
  let v2 := s.v2 + s.v3
  let v3 := rotate s.v3 16 ^^^ v2
  let v0 := v0 + v3
  let v3 := rotate v3 21 ^^^ v0
  let v2 := v2 + v1
  let v1 := rotate v1 17 ^^^ v2
  let v2 := rotate v2 32
  ⟨v0, v1, v2, v3⟩

def absorb (s : State) (word : UInt64) : State :=
  let s := round { s with v3 := s.v3 ^^^ word }
  { s with v0 := s.v0 ^^^ word }

def littleEndian (bytes : List UInt8) : UInt64 :=
  bytes.foldr (fun byte word => (word <<< 8) ||| byte.toUInt64) 0

/-- Takes in whole words of eight bytes; the last word holds the bytes left over and the length. -/
def absorbAll (length : UInt64) (s : State) : List UInt8 → State
  | b0 :: b1 :: b2 :: b3 :: b4 :: b5 :: b6 :: b7 :: rest =>
    absorbAll length (absorb s (littleEndian [b0, b1, b2, b3, b4, b5, b6, b7])) rest
  | rest => absorb s ((length <<< 56) ||| littleEndian rest)

def ofBytes (bytes : List UInt8) : UInt64 :=
  let s := absorbAll (UInt64.ofNat bytes.length) start bytes
  let s := round (round (round { s with v2 := s.v2 ^^^ 0xff }))
  s.v0 ^^^ s.v1 ^^^ s.v2 ^^^ s.v3

/-- The lowest `count` bytes of a number, the lowest first. -/
def bytesOf (count n : Nat) : List UInt8 :=
  (List.range count).map fun i => UInt8.ofNat (n / Nat.pow 256 i)

/-- A text as bytes, closed by a byte that no text contains. -/
def textBytes (text : String) : List UInt8 := text.toUTF8.toList ++ [0xff]

end Fingerprint
end CallChart
