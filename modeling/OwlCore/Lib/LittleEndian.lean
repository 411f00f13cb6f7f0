import OwlCore.Lib.Bytes

/-!
# Fixed-width fields of byte strings

Little-endian unsigned integers, slices by position, and rows of fixed-width
integers with the reader that takes one of them out by its position.
-/
namespace OwlCore

open List

namespace LittleEndian

/-- The lowest octets of a number, the least significant first. -/
def encode : Nat → Nat → Bytes
  | 0, _ => []
  | width + 1, n => UInt8.ofNat n :: encode width (n / 256)

def decode : Bytes → Nat
  | [] => 0
  | b :: rest => b.toNat + 256 * decode rest

@[simp] theorem length_encode (width n : Nat) : (encode width n).length = width := by
  induction width generalizing n with
  | zero => rfl
  | succ width ih => simp [encode, ih]

theorem decode_encode (h : n < 256 ^ width) : decode (encode width n) = n := by
  induction width generalizing n with
  | zero =>
    have hn : n = 0 := by simpa using h
    rw [hn]
    rfl
  | succ width ih =>
    have hdiv : n / 256 < 256 ^ width := by
      rw [Nat.div_lt_iff_lt_mul (by decide)]
      rwa [Nat.pow_succ] at h
    have hmod := Nat.mod_add_div n 256
    rwa [encode, decode, ih hdiv, UInt8.toNat_ofNat']

end LittleEndian

section

variable {data pre field post : Bytes} {start stop : Nat}

/-- `data[start:stop]`. -/
def slice (data : Bytes) (start stop : Nat) : Bytes := (data.drop start).take (stop - start)

theorem slice_append (hstart : start = pre.length) (hstop : stop = start + field.length) :
    slice (pre ++ (field ++ post)) start stop = field := by
  rw [slice, hstop, Nat.add_sub_cancel_left, hstart, drop_left, take_left]

theorem slice_add_append (start stop : Nat) :
    slice (pre ++ post) (pre.length + start) (pre.length + stop) = slice post start stop := by
  rw [slice, slice, Nat.add_sub_add_left, ← drop_drop, drop_left]

theorem slice_append_slice (hstart : start ≤ middle) (hstop : middle ≤ stop) :
    slice data start middle ++ slice data middle stop = slice data start stop := by
  have hlength : stop - start = (middle - start) + (stop - middle) := by omega
  have hdrop : start + (middle - start) = middle := by omega
  rw [slice, slice, slice, hlength, take_add, drop_drop, hdrop]

theorem slice_length (start : Nat) : slice data start data.length = data.drop start := by
  rw [slice, ← length_drop, take_length]

theorem slice_self : slice data start start = [] := by
  rw [slice, Nat.sub_self, take_zero]

/-- The unsigned integer of the given width at a position. -/
def uintAt (data : Bytes) (offset width : Nat) : Nat := LittleEndian.decode (slice data offset (offset + width))

end

/-- A row of fixed-width integers, given as pairs of width and value. -/
def packUints (fields : List (Nat × Nat)) : Bytes := fields.flatMap fun field => LittleEndian.encode field.1 field.2

@[simp] theorem packUints_append (fields fields' : List (Nat × Nat)) :
    packUints (fields ++ fields') = packUints fields ++ packUints fields' := flatMap_append

@[simp] theorem length_packUints (fields : List (Nat × Nat)) :
    (packUints fields).length = (fields.map Prod.fst).sum := by
  simp [packUints, length_flatMap]

theorem uintAt_packUints (hk : fields[k]? = some field) (hfield : field.2 < 256 ^ field.1) (hoffset : offset =
    pre.length + ((fields.take k).map Prod.fst).sum) :
    uintAt (pre ++ (packUints fields ++ post)) offset field.1 = field.2 := by
  obtain ⟨hlt, rfl⟩ := List.getElem?_eq_some_iff.mp hk
  have hsplit : packUints (fields.take k) ++ (LittleEndian.encode fields[k].1 fields[k].2 ++
      packUints (fields.drop (k + 1))) = packUints fields := by
    have hcons : LittleEndian.encode fields[k].1 fields[k].2 ++ packUints (fields.drop (k + 1)) =
        packUints (fields[k] :: fields.drop (k + 1)) := rfl
    rw [hcons, getElem_cons_drop, ← packUints_append, take_append_drop]
  have hdata : pre ++ (packUints fields ++ post) = (pre ++ packUints (fields.take k)) ++
      (LittleEndian.encode fields[k].1 fields[k].2 ++ (packUints (fields.drop (k + 1)) ++ post)) := by
    rw [← hsplit]
    simp only [append_assoc]
  rw [uintAt, hdata, slice_append (by simp [hoffset]) (by simp), LittleEndian.decode_encode hfield]

theorem uintAt_packUints_map {values : List Nat} {post : Bytes} {width i value : Nat}
    (hi : values[i]? = some value) (hvalue : value < 256 ^ width) :
    uintAt (packUints (values.map (width, ·)) ++ post) (width * i) width = value := by
  have hlt : i ≤ values.length := (List.getElem?_eq_some_iff.mp hi).1.le
  have hget : (values.map (width, ·))[i]? = some (width, value) := by simp [hi]
  have hoffset : (((values.map (width, ·)).take i).map Prod.fst).sum = width * i := by
    simp [← map_take, Function.comp_def, map_const', Nat.min_eq_left hlt, Nat.mul_comm]
  have h : uintAt ([] ++ (packUints (values.map (width, ·)) ++ post)) (width * i) width = value :=
    uintAt_packUints hget hvalue (by rw [hoffset]; simp)
  exact h

end OwlCore
