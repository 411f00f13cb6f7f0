import OwlCore.Wire.Table

/-!
# Reading rows

`ByteReader` takes fields off the front of a row. A reference list is a count and that
many ascending row numbers; it is read with or without keeping the numbers, and both
ways accept the same rows.
-/
namespace OwlCore

abbrev ByteReader := StateT Bytes (Except Error)

namespace ByteReader

def require (p : Prop) [Decidable p] (error : Error) : ByteReader Unit := StateT.lift (reject p error)

section

variable (name : String)

def take (size : Nat) : ByteReader Bytes := fun left =>
  if left.length < size then .error (corrupt ("truncated " ++ name ++ " row"))
  else .ok (left.take size, left.drop size)

/-- `u8`, `u16`, `u32` and `u64`, by their width. -/
def uint (width : Nat) : ByteReader Nat := LittleEndian.decode <$> take name width

def u8 : ByteReader Nat := uint name 1

def u16 : ByteReader Nat := uint name 2

def u32 : ByteReader Nat := uint name 4

def u64 : ByteReader Nat := uint name 8

def boolean : ByteReader Bool := do
  let value ← u8 name
  require (value ≠ 0 ∧ value ≠ 1) (corrupt ("invalid boolean in " ++ name))
  pure (value = 1)

def remaining : ByteReader Nat := List.length <$> get

/-- The loop of `references`. -/
def ascendingReferences (targetRows : Nat) : Nat → Nat → ByteReader (List Nat)
  | 0, _ => pure []
  | count + 1, previous => do
    let value ← u32 name
    require (value ≤ previous ∨ targetRows < value) (corrupt ("invalid canonical reference list in " ++ name))
    let rest ← ascendingReferences targetRows count value
    pure (value :: rest)

def references (maximum targetRows : Nat) (collect : Bool) : ByteReader (List Nat) := do
  let count ← u64 name
  require (maximum < count) (.wireLimit ("wire row reference count exceeds limit in " ++ name))
  let left ← remaining
  require (left / 4 < count) (corrupt ("invalid reference count in " ++ name))
  let values ← ascendingReferences name targetRows count 0
  pure (if collect then values else [])

def finish : ByteReader Unit := do
  let left ← remaining
  require (left ≠ 0) (corrupt ("trailing bytes in " ++ name ++ " row"))

theorem references_false (maximum targetRows : Nat) :
    references name maximum targetRows false = (fun _ => []) <$> references name maximum targetRows true := by
  simp [references]

/-- `read` on a whole row. -/
def onRow {α : Type} (read : ByteReader α) (row : Bytes) : Except Error α := Prod.fst <$> read row

end

end ByteReader

end OwlCore
