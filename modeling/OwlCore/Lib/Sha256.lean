import OwlCore.Lib.Bytes

/-!
# Digests of 32 bytes

`Hash` is the interface the model depends on: a function whose digests are 32
bytes long. `sha256` is the function of FIPS 180-4, over natural numbers below
`2 ^ 32`, so that a concrete run can be evaluated.
-/
namespace OwlCore

structure Hash where
  digest : Bytes → Bytes
  length_digest : ∀ message, (digest message).length = 32

theorem Hash.digest_ne_nil (hash : Hash) (message : Bytes) : hash.digest message ≠ [] := by
  intro h
  have hlen := hash.length_digest message
  simp [h] at hlen

namespace Sha256

def word (x : Nat) : Nat := x % 4294967296

/-- A word written twice, so that the low words of its shifts are the rotations. -/
def twice (x : Nat) : Nat := x * 4294967297

def bigSigma0 (x : Nat) : Nat := word ((twice x >>> 2) ^^^ (twice x >>> 13) ^^^ (twice x >>> 22))

def bigSigma1 (x : Nat) : Nat := word ((twice x >>> 6) ^^^ (twice x >>> 11) ^^^ (twice x >>> 25))

def smallSigma0 (x : Nat) : Nat := word ((twice x >>> 7) ^^^ (twice x >>> 18)) ^^^ (x >>> 3)

def smallSigma1 (x : Nat) : Nat := word ((twice x >>> 17) ^^^ (twice x >>> 19)) ^^^ (x >>> 10)

def ch (x y z : Nat) : Nat := z ^^^ (x &&& (y ^^^ z))

def maj (x y z : Nat) : Nat := (x &&& y) ||| (z &&& (x ||| y))

/-- The fractional bits of the cube roots of the first 64 primes. -/
def roundConstants : List Nat :=
  [0x428a2f98, 0x71374491, 0xb5c0fbcf, 0xe9b5dba5, 0x3956c25b, 0x59f111f1,
   0x923f82a4, 0xab1c5ed5, 0xd807aa98, 0x12835b01, 0x243185be, 0x550c7dc3,
   0x72be5d74, 0x80deb1fe, 0x9bdc06a7, 0xc19bf174, 0xe49b69c1, 0xefbe4786,
   0x0fc19dc6, 0x240ca1cc, 0x2de92c6f, 0x4a7484aa, 0x5cb0a9dc, 0x76f988da,
   0x983e5152, 0xa831c66d, 0xb00327c8, 0xbf597fc7, 0xc6e00bf3, 0xd5a79147,
   0x06ca6351, 0x14292967, 0x27b70a85, 0x2e1b2138, 0x4d2c6dfc, 0x53380d13,
   0x650a7354, 0x766a0abb, 0x81c2c92e, 0x92722c85, 0xa2bfe8a1, 0xa81a664b,
   0xc24b8b70, 0xc76c51a3, 0xd192e819, 0xd6990624, 0xf40e3585, 0x106aa070,
   0x19a4c116, 0x1e376c08, 0x2748774c, 0x34b0bcb5, 0x391c0cb3, 0x4ed8aa4a,
   0x5b9cca4f, 0x682e6ff3, 0x748f82ee, 0x78a5636f, 0x84c87814, 0x8cc70208,
   0x90befffa, 0xa4506ceb, 0xbef9a3f7, 0xc67178f2]

structure State where
  (a b c d e f g h : Nat)

/-- The fractional bits of the square roots of the first 8 primes. -/
def initial : State :=
  ⟨0x6a09e667, 0xbb67ae85, 0x3c6ef372, 0xa54ff53a, 0x510e527f, 0x9b05688c, 0x1f83d9ab, 0x5be0cd19⟩

/-- The next 16 words of the schedule, the oldest one lowest. -/
def slide (window : Nat) : Nat :=
  (window >>> 32) + word (smallSigma1 (word (window >>> 448)) + word (window >>> 288)
    + smallSigma0 (word (window >>> 32)) + word window) <<< 480

def rounds : List Nat → Nat → State → State
  | [], _, s => s
  | k :: ks, window, ⟨a, b, c, d, e, f, g, h⟩ =>
    let t := h + bigSigma1 e + ch e f g + k + word window
    rounds ks (slide window) ⟨word (t + bigSigma0 a + maj a b c), a, b, c, word (d + t), e, f, g⟩

def State.add (s t : State) : State :=
  ⟨word (s.a + t.a), word (s.b + t.b), word (s.c + t.c), word (s.d + t.d), word (s.e + t.e),
   word (s.f + t.f), word (s.g + t.g), word (s.h + t.h)⟩

def words : Bytes → List Nat
  | b0 :: b1 :: b2 :: b3 :: rest =>
    (b0.toNat * 16777216 + b1.toNat * 65536 + b2.toNat * 256 + b3.toNat) :: words rest
  | _ => []

def compress (s : State) (block : List Nat) : State :=
  s.add (rounds roundConstants (block.foldr (fun w window => w + window <<< 32) 0) s)

def blocks : Nat → List Nat → State → State
  | 0, _, s => s
  | n + 1, ws, s => blocks n (ws.drop 16) (compress s (ws.take 16))

def wordBytes (w : Nat) : Bytes :=
  [UInt8.ofNat (w >>> 24), UInt8.ofNat (w >>> 16), UInt8.ofNat (w >>> 8), UInt8.ofNat w]

def pad (message : Bytes) : Bytes :=
  let bits := message.length * 8
  message ++ ((0x80 : UInt8) :: List.replicate ((119 - message.length % 64) % 64) 0)
    ++ wordBytes (bits >>> 32) ++ wordBytes bits

def State.bytes (s : State) : Bytes :=
  wordBytes s.a ++ wordBytes s.b ++ wordBytes s.c ++ wordBytes s.d
    ++ wordBytes s.e ++ wordBytes s.f ++ wordBytes s.g ++ wordBytes s.h

def digest (message : Bytes) : Bytes :=
  let padded := words (pad message)
  (blocks (padded.length / 16) padded initial).bytes

theorem length_digest (message : Bytes) : (digest message).length = 32 := by
  simp [digest, State.bytes, wordBytes]

end Sha256

def sha256 : Hash := ⟨Sha256.digest, Sha256.length_digest⟩

end OwlCore
