import OwlCore.Lib.Fips180

/-!
# The native streaming SHA-256

`Sha256` of the native module: a state, a block being filled and the bytes read modulo `2 ^ 64`.
Whatever the pieces of a message, the state and block are those of the message so far, and
`finish` completes the padding.
-/
namespace OwlCore

open Fips180 List

namespace Native

structure Sha256 where
  state : State
  block : Bytes
  blockLen : Nat
  bytes : BitVec 64

namespace Sha256

def new : Sha256 := ⟨initial, List.replicate 64 0, 0, 0⟩

/-- `words[index]`, from the words before it. -/
def nextWord (words : List Word) (index : Nat) : Word :=
  let word (back : Nat) : Word := words.getD (index - back) 0
  let s0 := (word 15).rotateRight 7 ^^^ (word 15).rotateRight 18 ^^^ (word 15 >>> 3)
  let s1 := (word 2).rotateRight 17 ^^^ (word 2).rotateRight 19 ^^^ (word 2 >>> 10)
  word 16 + s0 + word 7 + s1

def words (block : Bytes) : List Word :=
  (List.range' 16 48).foldl (fun words index => words ++ [nextWord words index]) ((List.range 16).map (blockWord block))

def step (s : State) (kw : Word × Word) : State :=
  let choice := (s.e &&& s.f) ^^^ (~~~s.e &&& s.g)
  let majority := (s.a &&& s.b) ^^^ (s.a &&& s.c) ^^^ (s.b &&& s.c)
  let upperA := s.a.rotateRight 2 ^^^ s.a.rotateRight 13 ^^^ s.a.rotateRight 22
  let upperE := s.e.rotateRight 6 ^^^ s.e.rotateRight 11 ^^^ s.e.rotateRight 25
  let first := s.h + upperE + choice + kw.1 + kw.2
  let second := upperA + majority
  ⟨first + second, s.a, s.b, s.c, s.d + first, s.e, s.f, s.g⟩

def compress (s : State) (block : Bytes) : State :=
  s.add ((roundConstants.zip (words block)).foldl step s)

/-- The part of `update` behind the buffered block: whole blocks, and the rest into the buffer. -/
def updateBlocks (hasher : Sha256) (data : Bytes) : Sha256 :=
  let rest := remainder 64 data
  { hasher with
    state := absorb 64 compress hasher.state data
    block := rest ++ hasher.block.drop rest.length
    blockLen := rest.length }

def update (hasher : Sha256) (data : Bytes) : Sha256 :=
  let hasher := { hasher with bytes := hasher.bytes + BitVec.ofNat 64 data.length }
  if hasher.blockLen ≠ 0 then
    let take := min (64 - hasher.blockLen) data.length
    let block := hasher.block.take hasher.blockLen ++ data.take take ++ hasher.block.drop (hasher.blockLen + take)
    if hasher.blockLen + take = 64 then
      updateBlocks { hasher with state := compress hasher.state block, block, blockLen := 0 } (data.drop take)
    else { hasher with block, blockLen := hasher.blockLen + take }
  else updateBlocks hasher data

/-- `u64::to_be_bytes`. -/
def toBeBytes (x : BitVec 64) : Bytes := Sha256.wordBytes (x.toNat >>> 32) ++ Sha256.wordBytes x.toNat

def finish (hasher : Sha256) : Bytes :=
  let bitLength := hasher.bytes * 8
  let block := hasher.block.set hasher.blockLen 0x80
  let blockLen := hasher.blockLen + 1
  let (state, block) :=
    if 56 < blockLen then
      (compress hasher.state (block.take blockLen ++ List.replicate (64 - blockLen) 0), List.replicate 64 0)
    else (hasher.state, block.take blockLen ++ List.replicate (56 - blockLen) 0 ++ block.drop 56)
  (compress state (block.take 56 ++ toBeBytes bitLength)).bytes

theorem nextWord_schedule (block : Bytes) (n : Nat) :
    nextWord ((List.range (16 + n)).map (schedule block)) (16 + n) = schedule block (16 + n) := by
  have hword : ∀ back, 0 < back → back ≤ 16 →
      ((List.range (16 + n)).map (schedule block)).getD (16 + n - back) 0 = schedule block (16 + n - back) := by
    intro back hpos hle
    have hlt : 16 + n - back < 16 + n := by omega
    simp [getD_eq_getElem?_getD, hlt]
  have hnot : ¬16 + n < 16 := by omega
  conv_rhs => rw [schedule, if_neg hnot]
  simp only [nextWord, hword 15 (by decide) (by decide), hword 2 (by decide) (by decide),
    hword 16 (by decide) (by decide), hword 7 (by decide) (by decide), smallSigma0, smallSigma1]
  ac_rfl

theorem words_eq (block : Bytes) : words block = (List.range 64).map (schedule block) := by
  have hloop : ∀ n, (List.range' 16 n).foldl (fun words index => words ++ [nextWord words index])
      ((List.range 16).map (blockWord block)) = (List.range (16 + n)).map (schedule block) := by
    intro n
    induction n with
    | zero =>
      refine map_congr_left fun t ht => ?_
      rw [schedule, if_pos (mem_range.mp ht)]
    | succ n ih =>
      rw [List.range'_1_concat, foldl_append, ih, foldl_cons, foldl_nil, nextWord_schedule,
        ← Nat.add_assoc, range_succ, map_append]
      rfl
  exact hloop 48

theorem compress_eq : compress = Fips180.compress := by
  funext s block
  rw [compress, words_eq]
  rfl

/-- The hasher has read a message: its state is behind the whole blocks, the rest is in the buffer. -/
structure Reads (hasher : Sha256) (message : Bytes) : Prop where
  state : hasher.state = absorb 64 compress initial message
  pending : hasher.block.take hasher.blockLen = remainder 64 message
  blockLen : hasher.blockLen = (remainder 64 message).length
  length : hasher.block.length = 64
  bytes : hasher.bytes = BitVec.ofNat 64 message.length

theorem reads_new : Reads new [] :=
  ⟨(absorb_short (by decide)).symm, rfl, rfl, rfl, rfl⟩

variable {hasher : Sha256} {message : Bytes}

theorem reads_updateBlocks (hlength : hasher.block.length = 64) (hstate : absorb 64 compress hasher.state data =
    absorb 64 compress initial message) (hremainder : remainder 64 data = remainder 64 message) (hbytes : hasher.bytes
    = BitVec.ofNat 64 message.length) :
    Reads (hasher.updateBlocks data) message where
  state := hstate
  pending := by rw [updateBlocks, take_left, hremainder]
  blockLen := by rw [updateBlocks, hremainder]
  length := by
    have hshort := length_remainder_lt (by decide : 0 < 64) data
    rw [updateBlocks, length_append, length_drop, hlength]
    omega
  bytes := hbytes

theorem Reads.update (h : Reads hasher message) (data : Bytes) : Reads (hasher.update data) (message ++ data) := by
  obtain ⟨state, block, blockLen, bytes⟩ := hasher
  obtain ⟨hstate, hpending, hblockLen, hlength, hbytes⟩ := h
  obtain ⟨habsorb, hremainder⟩ := absorb_append compress (by decide : 0 < 64) initial message data
  have hshort := length_remainder_lt (by decide : 0 < 64) message
  have htotal : bytes + BitVec.ofNat 64 data.length = BitVec.ofNat 64 (message ++ data).length := by
    rw [length_append, BitVec.ofNat_add, ← hbytes]
  dsimp only at hstate hpending hblockLen hlength
  generalize remainder 64 message = pending at *
  subst hblockLen
  rw [← hstate] at habsorb
  simp only [Sha256.update, hpending]
  split
  case isFalse hzero =>
    obtain rfl := eq_nil_of_length_eq_zero (not_not.mp hzero)
    exact reads_updateBlocks hlength habsorb.symm hremainder.symm htotal
  case isTrue =>
    split
    case isTrue hfull =>
      have hmin : min (64 - pending.length) data.length = 64 - pending.length := by omega
      have hlong : 64 ≤ (pending ++ data).length := by
        rw [length_append]
        omega
      have htake : (pending ++ data).take 64 = pending ++ data.take (64 - pending.length) := by
        rw [take_append, take_of_length_le hshort.le]
      have hdrop : (pending ++ data).drop 64 = data.drop (64 - pending.length) := by
        rw [drop_append, drop_of_length_le hshort.le, nil_append]
      rw [absorb_step (by decide) hlong, htake, hdrop] at habsorb
      rw [← remainder_drop (by decide) hlong, hdrop] at hremainder
      rw [hfull, hmin, drop_of_length_le hlength.le, append_nil, ← htake]
      rw [← htake] at habsorb
      exact reads_updateBlocks (length_take_of_le hlong) habsorb.symm hremainder.symm htotal
    case isFalse hpart =>
      have hmin : min (64 - pending.length) data.length = data.length := by omega
      have hless : (pending ++ data).length < 64 := by
        rw [length_append]
        omega
      rw [absorb_short hless] at habsorb
      rw [remainder_short hless] at hremainder
      rw [hmin, take_length, ← length_append]
      refine ⟨habsorb.symm, ?_, ?_, ?_, htotal⟩
      · rw [hremainder, take_left]
      · rw [hremainder]
      · rw [length_append, length_drop]
        omega

theorem Reads.finish (h : Reads hasher message) (hlength : message.length < 2 ^ 61) :
    hasher.finish = digest message := by
  obtain ⟨state, block, blockLen, bytes⟩ := hasher
  obtain ⟨hstate, hpending, hblockLen, hblock, rfl⟩ := h
  have hlast := @length_remainder _ 64 message
  have hbits : (BitVec.ofNat 64 message.length * 8).toNat = message.length * 8 := by
    rw [BitVec.toNat_mul, BitVec.toNat_ofNat]
    change message.length % 2 ^ 64 * 8 % 2 ^ 64 = _
    omega
  have hdigest : digest message = (absorb 64 compress initial (message ++
      (0x80 :: List.replicate ((119 - message.length % 64) % 64) 0 ++
        toBeBytes (BitVec.ofNat 64 message.length * 8)))).bytes := by
    rw [digest, ← compress_eq, Sha256.pad, toBeBytes, hbits]
    simp only [append_assoc]
  have height : (toBeBytes (BitVec.ofNat 64 message.length * 8)).length = 8 := rfl
  dsimp only at hstate hpending hblockLen hblock
  rw [hdigest, (absorb_append compress (by decide : 0 < 64) initial message _).1, ← hstate]
  simp only [Sha256.finish]
  generalize toBeBytes (BitVec.ofNat 64 message.length * 8) = bits at *
  generalize remainder 64 message = pending at *
  subst hblockLen
  have hset : (block.set pending.length 0x80).take (pending.length + 1) = pending ++ [0x80] := by
    rw [set_eq_take_append_cons_drop, if_pos (by omega), hpending, take_append, take_of_length_le (by omega)]
    simp
  rw [hset]
  split
  case isTrue hlong =>
    have hzeros : (119 - message.length % 64) % 64 = 64 - (pending.length + 1) + 56 := by omega
    have hfirst : (pending ++ [0x80] ++ List.replicate (64 - (pending.length + 1)) 0).length = 64 := by
      simp only [length_append, length_singleton, length_replicate]
      omega
    have hsecond : ((List.replicate 64 0).take 56 ++ bits).length = 64 := by simp [height]
    have hblocks : pending ++ (0x80 :: List.replicate (64 - (pending.length + 1) + 56) 0 ++ bits) =
        pending ++ [0x80] ++ List.replicate (64 - (pending.length + 1)) 0 ++ ((List.replicate 64 0).take 56 ++ bits) := by
      rw [replicate_add]
      simp
    rw [hzeros, hblocks, absorb_block (by decide) hfirst, absorb_single (by decide) hsecond]
  case isFalse hfits =>
    have hzeros : (119 - message.length % 64) % 64 = 56 - (pending.length + 1) := by omega
    have hfirst : (pending ++ [0x80] ++ List.replicate (56 - (pending.length + 1)) 0).length = 56 := by
      simp only [length_append, length_singleton, length_replicate]
      omega
    have hwhole : (pending ++ [0x80] ++ List.replicate (56 - (pending.length + 1)) 0 ++ bits).length = 64 := by
      rw [length_append, hfirst, height]
    have hblocks : pending ++ (0x80 :: List.replicate (56 - (pending.length + 1)) 0 ++ bits) =
        pending ++ [0x80] ++ List.replicate (56 - (pending.length + 1)) 0 ++ bits := by simp
    rw [take_left' hfirst, hzeros, hblocks, absorb_single (by decide) hwhole]

/-- Whatever the pieces of a message are, `finish` returns its digest. -/
theorem finish_updates (chunks : List Bytes) (h : chunks.flatten.length < 2 ^ 61) :
    (chunks.foldl update new).finish = digest chunks.flatten := by
  have hreads : ∀ (pieces : List Bytes) {hasher message}, Reads hasher message →
      Reads (pieces.foldl Sha256.update hasher) (message ++ pieces.flatten) := by
    intro pieces
    induction pieces with
    | nil => exact fun h => by simpa using h
    | cons piece pieces ih =>
      intro hasher message h
      simpa using ih (h.update piece)
  exact (hreads chunks reads_new).finish (by simpa using h)

theorem finish_updates_abc : (([[0x61], [], [0x62, 0x63]] : List Bytes).foldl update new).finish =
    digest [0x61, 0x62, 0x63] :=
  finish_updates [[0x61], [], [0x62, 0x63]] (by decide)

end Sha256

end Native

end OwlCore
