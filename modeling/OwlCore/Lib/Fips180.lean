import OwlCore.Lib.Sha256

/-!
# SHA-256 in the terms of FIPS 180-4

The functions and the message schedule over words of 32 bits, and the hash over the padded
blocks. `absorb` iterates any compression function: data that comes in pieces is absorbed piece
by piece when the rest of each is kept.
-/
namespace OwlCore

open List

section

variable {α σ : Type} (size : Nat) (compress : σ → List α → σ)

/-- The state after the whole blocks at the start of the data. -/
def absorb (s : σ) (data : List α) : σ :=
  if 0 < size ∧ size ≤ data.length then absorb (compress s (data.take size)) (data.drop size) else s
termination_by data.length
decreasing_by
  rw [length_drop]
  omega

def remainder (data : List α) : List α := data.drop (data.length / size * size)

variable {size compress}

theorem absorb_step (hsize : 0 < size) (h : size ≤ data.length) :
    absorb size compress s data = absorb size compress (compress s (data.take size)) (data.drop size) := by
  rw [absorb, if_pos ⟨hsize, h⟩]

theorem absorb_short (h : data.length < size) : absorb size compress s data = s := by
  rw [absorb, if_neg fun hlong => absurd hlong.2 (Nat.not_le.mpr h)]

theorem absorb_block (hsize : 0 < size) (h : block.length = size) (rest : List α) :
    absorb size compress s (block ++ rest) = absorb size compress (compress s block) rest := by
  subst h
  rw [absorb_step hsize (by simp), take_left, drop_left]

theorem absorb_single (hsize : 0 < size) (h : block.length = size) :
    absorb size compress s block = compress s block := by
  have hblock : absorb size compress s (block ++ []) = _ := absorb_block hsize h []
  have hnil : absorb size compress (compress s block) [] = compress s block := absorb_short hsize
  rwa [append_nil, hnil] at hblock

theorem remainder_short (h : data.length < size) : remainder size data = data := by
  rw [remainder, Nat.div_eq_of_lt h, Nat.zero_mul, drop_zero]

theorem length_remainder (data : List α) : (remainder size data).length = data.length % size := by
  rw [remainder, length_drop, Nat.mul_comm, ← Nat.mod_eq_sub_mul_div]

theorem length_remainder_lt (hsize : 0 < size) (data : List α) : (remainder size data).length < size :=
  length_remainder data ▸ Nat.mod_lt _ hsize

theorem remainder_drop (hsize : 0 < size) (h : size ≤ data.length) :
    remainder size (data.drop size) = remainder size data := by
  have hdiv : data.length / size = (data.length - size) / size + 1 := by rw [Nat.div_eq_sub_div hsize h]
  rw [remainder, remainder, drop_drop, length_drop, hdiv, Nat.add_mul, Nat.one_mul, Nat.add_comm]

variable (compress) in
theorem absorb_append (hsize : 0 < size) (s : σ) (first second : List α) :
    absorb size compress s (first ++ second) =
      absorb size compress (absorb size compress s first) (remainder size first ++ second) ∧
    remainder size (first ++ second) = remainder size (remainder size first ++ second) := by
  induction hn : first.length using Nat.strong_induction_on generalizing first s with
  | _ n ih =>
    by_cases h : size ≤ first.length
    · have hlong : size ≤ (first ++ second).length := by
        rw [length_append]
        exact Nat.le_add_right_of_le h
      have hless : (first.drop size).length < n := by
        rw [length_drop]
        omega
      obtain ⟨habsorb, hremainder⟩ := ih _ hless (compress s (first.take size)) _ rfl
      rw [absorb_step hsize hlong, absorb_step hsize h, take_append_of_le_length h, drop_append_of_le_length h,
        habsorb, remainder_drop hsize h]
      refine ⟨rfl, ?_⟩
      rw [← remainder_drop hsize hlong, drop_append_of_le_length h, hremainder, remainder_drop hsize h]
    · rw [absorb_short (Nat.not_le.mp h), remainder_short (Nat.not_le.mp h)]
      exact ⟨rfl, rfl⟩

end

namespace Fips180

abbrev Word := BitVec 32

variable (x : Word)

def ch (y z : Word) : Word := (x &&& y) ^^^ (~~~x &&& z)

def maj (y z : Word) : Word := (x &&& y) ^^^ (x &&& z) ^^^ (y &&& z)

def bigSigma0 : Word := x.rotateRight 2 ^^^ x.rotateRight 13 ^^^ x.rotateRight 22

def bigSigma1 : Word := x.rotateRight 6 ^^^ x.rotateRight 11 ^^^ x.rotateRight 25

def smallSigma0 : Word := x.rotateRight 7 ^^^ x.rotateRight 18 ^^^ (x >>> 3)

def smallSigma1 : Word := x.rotateRight 17 ^^^ x.rotateRight 19 ^^^ (x >>> 10)

/-- The words of a block, each with its first byte highest. -/
def blockWord (block : Bytes) (t : Nat) : Word :=
  let byte (i : Nat) : BitVec 8 := (block.getD (4 * t + i) 0).toBitVec
  byte 0 ++ byte 1 ++ byte 2 ++ byte 3

def schedule (block : Bytes) (t : Nat) : Word :=
  if t < 16 then blockWord block t
  else smallSigma1 (schedule block (t - 2)) + schedule block (t - 7) + smallSigma0 (schedule block (t - 15)) +
    schedule block (t - 16)
termination_by t

structure State where
  (a b c d e f g h : Word)

variable (s : State)

def round (k w : Word) : State :=
  let t1 := s.h + bigSigma1 s.e + ch s.e s.f s.g + k + w
  let t2 := bigSigma0 s.a + maj s.a s.b s.c
  ⟨t1 + t2, s.a, s.b, s.c, s.d + t1, s.e, s.f, s.g⟩

def State.add (t : State) : State :=
  ⟨s.a + t.a, s.b + t.b, s.c + t.c, s.d + t.d, s.e + t.e, s.f + t.f, s.g + t.g, s.h + t.h⟩

def roundConstants : List Word := Sha256.roundConstants.map (BitVec.ofNat 32)

def compress (block : Bytes) : State :=
  s.add ((roundConstants.zip ((List.range 64).map (schedule block))).foldl (fun t kw => round t kw.1 kw.2) s)

def initial : State :=
  ⟨0x6a09e667, 0xbb67ae85, 0x3c6ef372, 0xa54ff53a, 0x510e527f, 0x9b05688c, 0x1f83d9ab, 0x5be0cd19⟩

def State.bytes : Bytes :=
  [s.a, s.b, s.c, s.d, s.e, s.f, s.g, s.h].flatMap fun w => Sha256.wordBytes w.toNat

/-- The digest of a message, padded with a one, zeros and its length in bits. -/
def digest (message : Bytes) : Bytes := (absorb 64 compress initial (Sha256.pad message)).bytes

end Fips180

end OwlCore
