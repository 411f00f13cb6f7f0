import OwlCore.Lib.Bytes

/-!
# Little-endian base-128 integers and length framing

Seven payload bits per octet, the high bit set on every octet but the last. The
encoder is the loop of the source, driven by a step bound that always suffices.
-/
namespace OwlCore.Varint

open Function List

/-- The encoder loop: emit the low seven bits, shift, stop when nothing is left. -/
def emit : Nat → Nat → Bytes
  | 0, _ => []
  | steps + 1, value =>
    if value / 128 = 0 then [UInt8.ofNat (value % 128)]
    else UInt8.ofNat (value % 128 + 128) :: emit steps (value / 128)

def encode (value : Nat) : Bytes := emit (value + 1) value

theorem emit_stable : ∀ (steps more value : Nat), value < steps → value < more → emit steps value = emit more value
  | 0, _, _, h, _ => absurd h (Nat.not_lt_zero _)
  | _ + 1, 0, _, _, h => absurd h (Nat.not_lt_zero _)
  | steps + 1, more + 1, value, h, h' => by
    simp only [emit]
    split
    · rfl
    · rw [emit_stable steps more (value / 128) (by omega) (by omega)]

variable {value : Nat}

theorem encode_of_lt (h : value < 128) : encode value = [UInt8.ofNat value] := by
  have hd : value / 128 = 0 := by omega
  simp [encode, emit, hd, Nat.mod_eq_of_lt h]

theorem encode_of_ge (h : 128 ≤ value) :
    encode value = UInt8.ofNat (value % 128 + 128) :: encode (value / 128) := by
  have hd : value / 128 ≠ 0 := by omega
  rw [encode, emit, if_neg hd, encode, emit_stable value (value / 128 + 1) (value / 128) (by omega) (by omega)]

theorem encode_ne_nil (value : Nat) : encode value ≠ [] := by
  by_cases h : value < 128
  · simp [encode_of_lt h]
  · simp [encode_of_ge (Nat.le_of_not_lt h)]

theorem length_encode_pos (value : Nat) : 0 < (encode value).length :=
  length_pos_iff.mpr (encode_ne_nil value)

theorem toNat_last (h : value < 128) : (UInt8.ofNat value).toNat = value := by
  rw [UInt8.toNat_ofNat']
  omega

theorem toNat_more (value : Nat) : (UInt8.ofNat (value % 128 + 128)).toNat = value % 128 + 128 := by
  rw [UInt8.toNat_ofNat']
  omega

theorem encode_append_inj (a b : Nat) (x y : Bytes) (h : encode a ++ x = encode b ++ y) :
    a = b ∧ x = y := by
  induction a using Nat.strongRecOn generalizing b with
  | ind a ih =>
    by_cases ha : a < 128 <;> by_cases hb : b < 128
    · simp only [encode_of_lt ha, encode_of_lt hb, cons_append, nil_append, List.cons.injEq] at h
      have heq := congrArg UInt8.toNat h.1
      rw [toNat_last ha, toNat_last hb] at heq
      exact ⟨heq, h.2⟩
    · simp only [encode_of_lt ha, encode_of_ge (Nat.le_of_not_lt hb), cons_append, nil_append, List.cons.injEq] at h
      have heq := congrArg UInt8.toNat h.1
      rw [toNat_last ha, toNat_more] at heq
      omega
    · simp only [encode_of_lt hb, encode_of_ge (Nat.le_of_not_lt ha), cons_append, nil_append, List.cons.injEq] at h
      have heq := congrArg UInt8.toNat h.1
      rw [toNat_last hb, toNat_more] at heq
      omega
    · simp only [encode_of_ge (Nat.le_of_not_lt ha), encode_of_ge (Nat.le_of_not_lt hb),
        cons_append, List.cons.injEq] at h
      have heq := congrArg UInt8.toNat h.1
      rw [toNat_more, toNat_more] at heq
      obtain ⟨hdiv, hrest⟩ := ih (a / 128) (by omega) (b / 128) h.2
      exact ⟨by omega, hrest⟩

theorem prefixCode_encode : PrefixCode.On (fun _ => True) encode :=
  fun a b x y _ _ h => encode_append_inj a b x y h

theorem encode_injective : Injective encode :=
  fun _ _ h => prefixCode_encode.injective trivial trivial h

/-- The interpreter's `int.bit_length`. -/
def bitLength (value : Nat) : Nat := if value = 0 then 0 else Nat.log2 value + 1

theorem bitLength_le : bitLength value ≤ k ↔ value < 2 ^ k := by
  unfold bitLength
  split
  · simp [*, Nat.two_pow_pos]
  · rw [Nat.succ_le_iff, Nat.log2_lt ‹_›]

theorem bitLength_div (h : 128 ≤ value) :
    bitLength value = bitLength (value / 128) + 7 := by
  have hlong : 7 < bitLength value := by
    rw [← not_le, bitLength_le]
    omega
  have hlow : value / 128 < 2 ^ (bitLength value - 7) := by
    have hv : value < 2 ^ (bitLength value - 7 + 7) :=
      bitLength_le.mp (by omega)
    rw [Nat.pow_add] at hv
    omega
  have hhigh : value < 2 ^ (bitLength (value / 128) + 7) := by
    have hv : value / 128 < 2 ^ bitLength (value / 128) := bitLength_le.mp le_rfl
    rw [Nat.pow_add]
    omega
  have h₁ := bitLength_le.mpr hlow
  have h₂ := bitLength_le.mpr hhigh
  omega

def size (value : Nat) : Nat := max 1 ((bitLength value + 6) / 7)

theorem length_encode (value : Nat) : (encode value).length = size value := by
  induction value using Nat.strongRecOn with
  | ind value ih =>
    by_cases h : value < 128
    · have hshort : bitLength value ≤ 7 := bitLength_le.mpr (by omega)
      rw [encode_of_lt h, size]
      simp only [length_singleton]
      omega
    · have hge : 128 ≤ value := Nat.le_of_not_lt h
      have hpos : 0 < bitLength (value / 128) := by
        rw [Nat.pos_iff_ne_zero, Ne, ← Nat.le_zero, bitLength_le]
        omega
      rw [encode_of_ge hge, length_cons, ih (value / 128) (by omega), size, size, bitLength_div hge]
      omega

def frame (payload : Bytes) : Bytes := encode payload.length ++ payload

theorem frame_append_inj (a b x y : Bytes) (h : frame a ++ x = frame b ++ y) : a = b ∧ x = y := by
  simp only [frame, append_assoc] at h
  obtain ⟨hlen, h⟩ := encode_append_inj _ _ _ _ h
  exact append_inj_of_length hlen h

theorem prefixCode_frame : PrefixCode.On (fun _ => True) frame :=
  fun a b x y _ _ h => frame_append_inj a b x y h

theorem frame_injective : Injective frame :=
  fun _ _ h => prefixCode_frame.injective trivial trivial h

theorem frame_ne_nil (payload : Bytes) : frame payload ≠ [] := by
  simp [frame, encode_ne_nil]

def framedSize (payloadSize : Nat) : Nat := size payloadSize + payloadSize

theorem length_frame (payload : Bytes) : (frame payload).length = framedSize payload.length := by
  simp [frame, framedSize, length_encode]

/-- A list of payloads, each behind its length, behind the number of payloads. -/
def counted (payloads : List Bytes) : Bytes :=
  encode payloads.length ++ (payloads.map frame).flatten

theorem counted_append_inj (l l' : List Bytes) (x y : Bytes)
    (h : counted l ++ x = counted l' ++ y) : l = l' ∧ x = y := by
  simp only [counted, append_assoc] at h
  obtain ⟨hlen, h⟩ := encode_append_inj _ _ _ _ h
  exact prefixCode_frame.flatten l l' x y (by simp) (by simp) hlen h

theorem counted_injective : Injective counted :=
  fun l l' h => (counted_append_inj l l' [] [] (by rw [h])).1

theorem encode_last_ne_zero (v : Nat) : ∀ (front : Bytes) (last : UInt8), encode v = front ++ [last] →
    front ≠ [] → last ≠ 0 := by
  induction v using Nat.strongRecOn with
  | ind v ih =>
    intro front last hencode hfront
    by_cases hv : v < 128
    · rw [encode_of_lt hv] at hencode
      have hlength := congrArg List.length hencode
      have hpos := length_pos_iff.mpr hfront
      simp only [length_append, length_singleton] at hlength
      omega
    · have hge : 128 ≤ v := Nat.le_of_not_lt hv
      rw [encode_of_ge hge] at hencode
      cases front with
      | nil => exact absurd rfl hfront
      | cons byte front =>
        have htail : encode (v / 128) = front ++ [last] := (List.cons.inj hencode).2
        by_cases hrest : front = []
        · subst hrest
          by_cases hsmall : v / 128 < 128
          · rw [encode_of_lt hsmall] at htail
            obtain rfl : UInt8.ofNat (v / 128) = last := by simpa using htail
            intro hzero
            have hnat := toNat_last hsmall
            rw [hzero] at hnat
            have hquotient : v / 128 = 0 := hnat.symm
            omega
          · rw [encode_of_ge (Nat.le_of_not_lt hsmall)] at htail
            exact absurd (List.cons.inj htail).2 (encode_ne_nil _)
        · exact ih (v / 128) (by omega) front last htail hrest

end OwlCore.Varint
