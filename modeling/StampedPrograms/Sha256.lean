import StampedPrograms.Text.Hex

/-!
SHA-256: a message is padded to blocks of sixteen words, and each block is mixed into a state of
eight words.
-/

namespace StampedPrograms.Sha256

structure State where
  a : UInt32
  b : UInt32
  c : UInt32
  d : UInt32
  e : UInt32
  f : UInt32
  g : UInt32
  h : UInt32

def initial : State :=
  ⟨0x6a09e667, 0xbb67ae85, 0x3c6ef372, 0xa54ff53a, 0x510e527f, 0x9b05688c, 0x1f83d9ab, 0x5be0cd19⟩

def roundConstants : List UInt32 :=
  [0x428a2f98, 0x71374491, 0xb5c0fbcf, 0xe9b5dba5, 0x3956c25b, 0x59f111f1, 0x923f82a4, 0xab1c5ed5,
   0xd807aa98, 0x12835b01, 0x243185be, 0x550c7dc3, 0x72be5d74, 0x80deb1fe, 0x9bdc06a7, 0xc19bf174,
   0xe49b69c1, 0xefbe4786, 0x0fc19dc6, 0x240ca1cc, 0x2de92c6f, 0x4a7484aa, 0x5cb0a9dc, 0x76f988da,
   0x983e5152, 0xa831c66d, 0xb00327c8, 0xbf597fc7, 0xc6e00bf3, 0xd5a79147, 0x06ca6351, 0x14292967,
   0x27b70a85, 0x2e1b2138, 0x4d2c6dfc, 0x53380d13, 0x650a7354, 0x766a0abb, 0x81c2c92e, 0x92722c85,
   0xa2bfe8a1, 0xa81a664b, 0xc24b8b70, 0xc76c51a3, 0xd192e819, 0xd6990624, 0xf40e3585, 0x106aa070,
   0x19a4c116, 0x1e376c08, 0x2748774c, 0x34b0bcb5, 0x391c0cb3, 0x4ed8aa4a, 0x5b9cca4f, 0x682e6ff3,
   0x748f82ee, 0x78a5636f, 0x84c87814, 0x8cc70208, 0x90befffa, 0xa4506ceb, 0xbef9a3f7, 0xc67178f2]

def rotateRight (x : UInt32) (n : UInt32) : UInt32 :=
  x >>> n ||| x <<< (32 - n)

/-- The next word of the schedule from the last sixteen. -/
def nextWord (window : List UInt32) : UInt32 :=
  let early := window.getD 1 0
  let late := window.getD 14 0
  (rotateRight late 17 ^^^ rotateRight late 19 ^^^ late >>> 10) + window.getD 9 0 +
    (rotateRight early 7 ^^^ rotateRight early 18 ^^^ early >>> 3) + window.getD 0 0

def round (s : State) (constant word : UInt32) : State :=
  let mixed := s.h + (rotateRight s.e 6 ^^^ rotateRight s.e 11 ^^^ rotateRight s.e 25) +
    (s.e &&& s.f ^^^ ~~~s.e &&& s.g) + constant + word
  let folded := (rotateRight s.a 2 ^^^ rotateRight s.a 13 ^^^ rotateRight s.a 22) +
    (s.a &&& s.b ^^^ s.a &&& s.c ^^^ s.b &&& s.c)
  ⟨mixed + folded, s.a, s.b, s.c, s.d + mixed, s.e, s.f, s.g⟩

/-- One round for each constant; the window slides over the schedule. -/
def rounds : (constants window : List UInt32) → State → State
  | [], _, s => s
  | constant :: constants, window, s =>
      rounds constants (window.drop 1 ++ [nextWord window]) (round s constant (window.getD 0 0))

def compress (s : State) (block : List UInt32) : State :=
  let mixed := rounds roundConstants block s
  ⟨s.a + mixed.a, s.b + mixed.b, s.c + mixed.c, s.d + mixed.d,
   s.e + mixed.e, s.f + mixed.f, s.g + mixed.g, s.h + mixed.h⟩

/-- The bytes of a number, the highest first. -/
def bigEndian : (count : Nat) → Nat → List UInt8
  | 0, _ => []
  | count + 1, n => bigEndian count (n / 256) ++ [UInt8.ofNat (n % 256)]

/-- A one bit, zeros up to eight bytes before the end of a block, and the length in bits. -/
def padding (length : Nat) : List UInt8 :=
  0x80 :: List.replicate ((119 - length % 64) % 64) 0 ++ bigEndian 8 (8 * length)

def words : List UInt8 → List UInt32
  | a :: b :: c :: d :: rest =>
      UInt32.ofNat (((a.toNat * 256 + b.toNat) * 256 + c.toNat) * 256 + d.toNat) :: words rest
  | _ => []

/-- Mixes in so many blocks of 64 bytes one after the other. -/
def absorb : (blocks : Nat) → State → List UInt8 → State
  | 0, s, _ => s
  | blocks + 1, s, bytes => absorb blocks (compress s (words (bytes.take 64))) (bytes.drop 64)

def State.bytes (s : State) : List UInt8 :=
  [s.a, s.b, s.c, s.d, s.e, s.f, s.g, s.h].flatMap fun word => bigEndian 4 word.toNat

def hash (message : List UInt8) : List UInt8 :=
  let padded := message ++ padding message.length
  (absorb (padded.length / 64) initial padded).bytes

def hexOf (message : List UInt8) : String :=
  Hex.ofBytes (hash message)

end StampedPrograms.Sha256
