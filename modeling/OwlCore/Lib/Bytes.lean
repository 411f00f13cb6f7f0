import Mathlib.Algebra.Ring.Int.Defs
import Mathlib.Algebra.Ring.Nat
import Mathlib.Data.List.Lex
import Mathlib.Data.List.Sort
import Mathlib.Data.String.Basic
import Mathlib.Tactic.Common

/-!
# Byte strings and prefix codes

Byte strings are lists of octets in lexicographic order, as the interpreter compares `bytes`. A
prefix code is an encoder whose output can be cut off the front of any longer string in exactly
one way; injectivity is assembled from prefix codes.
-/
namespace OwlCore

abbrev Bytes := List UInt8

instance byteLinearOrder : LinearOrder UInt8 where
  le_refl a := UInt8.le_refl a
  le_trans _ _ _ := UInt8.le_trans
  le_antisymm _ _ := UInt8.le_antisymm
  le_total a b := UInt8.le_total a b
  lt_iff_le_not_ge a b := by
    simp only [UInt8.lt_iff_toNat_lt, UInt8.le_iff_toNat_le]
    omega
  toDecidableLE := inferInstance
  toDecidableEq := inferInstance
  toDecidableLT := inferInstance

/-- The octets of `text.encode("utf-8")`. -/
def utf8Encode (text : String) : Bytes := text.toList.flatMap String.utf8EncodeChar

instance lawfulBEq_bytes : LawfulBEq Bytes := inferInstance

/-- The text of `payload.decode("utf-8")`, or nothing on malformed input. -/
def utf8Decode (payload : Bytes) : Option String := String.fromUTF8? ⟨payload.toArray⟩

theorem utf8Encode_toByteArray (text : String) :
    (⟨(utf8Encode text).toArray⟩ : ByteArray) = text.toByteArray := by
  rw [← String.utf8Encode_toList, List.utf8Encode]
  apply ByteArray.ext
  simp [utf8Encode]

theorem utf8Decode_encode (text : String) : utf8Decode (utf8Encode text) = some text := by
  rw [utf8Decode, utf8Encode_toByteArray, String.fromUTF8?, dif_pos text.isValidUTF8]
  rfl

theorem utf8Encode_injective : Function.Injective utf8Encode := by
  intro a b h
  have hdecode := utf8Decode_encode a
  rw [h, utf8Decode_encode] at hdecode
  exact (Option.some.inj hdecode).symm

namespace PrefixCode

variable {α : Type}

/-- On `s` the output of `f` marks its own end. -/
def On (s : α → Prop) (f : α → Bytes) : Prop :=
  ∀ a b x y, s a → s b → f a ++ x = f b ++ y → a = b ∧ x = y

theorem On.injective (hf : On s f) (ha : s a) (hb : s b) (h : f a = f b) : a = b :=
  (hf a b [] [] ha hb (by rw [h])).1

theorem On.flatten (hf : On s f) :
    ∀ (l l' : List α) (x y : Bytes), (∀ a ∈ l, s a) → (∀ a ∈ l', s a) →
      l.length = l'.length → (l.map f).flatten ++ x = (l'.map f).flatten ++ y → l = l' ∧ x = y
  | [], [], x, y, _, _, _, h => ⟨rfl, by simpa using h⟩
  | a :: l, b :: l', x, y, hl, hl', hlen, h => by
    simp only [List.map_cons, List.flatten_cons, List.append_assoc] at h
    obtain ⟨rfl, hrest⟩ := hf a b _ _ (hl a (by simp)) (hl' b (by simp)) h
    obtain ⟨rfl, htail⟩ := On.flatten hf l l' x y (fun c hc => hl c (by simp [hc]))
      (fun c hc => hl' c (by simp [hc])) (by simpa using hlen) hrest
    exact ⟨rfl, htail⟩

end PrefixCode

theorem append_inj_of_length {a b x y : Bytes} (hlen : a.length = b.length)
    (h : a ++ x = b ++ y) : a = b ∧ x = y := List.append_inj h hlen

end OwlCore
