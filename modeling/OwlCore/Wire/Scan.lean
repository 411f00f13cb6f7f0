import OwlCore.Model.Decode
import OwlCore.View.Fingerprint
import OwlCore.Wire.Image

/-!
# Model rows of an image

A model row is decoded, or only scanned when the image is opened lazily: the scan checks
the framing of the canonical bytes and returns the constructor of the row without
building a value.
-/
namespace OwlCore

open Metered

section

/-- `_scan_varint`. -/
def scanVarintFrom (shift value : Nat) : Bytes → Except Error (Nat × Bytes)
  | [] => .error (corrupt "truncated canonical varint")
  | byte :: rest =>
    let value := value ||| ((byte.toNat % 128) <<< shift)
    if byte.toNat < 128 then
      if shift ≠ 0 ∧ byte = 0 then .error (corrupt "nonminimal canonical varint") else .ok (value, rest)
    else if shift + 7 > 1000000 then .error (corrupt "canonical varint is unreasonably long")
    else scanVarintFrom (shift + 7) value rest

def scanVarint (data : Bytes) : Except Error (Nat × Bytes) := scanVarintFrom 0 0 data

def scanFrame (data : Bytes) : Except Error (Bytes × Bytes) := do
  let (length, rest) ← scanVarint data
  reject (rest.length < length) (corrupt "truncated canonical framed component")
  pure (rest.take length, rest.drop length)

def scanScalar (marker : UInt8) (data : Bytes) : Except Error Bytes :=
  if marker = 0 then .ok data
  else if marker = 2 ∨ marker = 3 ∨ marker = 5 then do
    let (payload, rest) ← scanFrame data
    reject (marker = 2 ∧ utf8Decode payload = none ∨ marker = 5 ∧ asciiDecode payload = none)
      (corrupt "invalid canonical text encoding")
    pure rest
  else if marker = 4 then Prod.snd <$> scanVarint data
  else .error (corrupt "unknown canonical scalar marker")

variable (limits : ParseLimits)

/-- `_ScanBudget.enter`. -/
def scanEnter (depth : Nat) : Metered Error Unit := do
  modify (· + 1)
  free (reject (limits.maxNestingDepth < depth) (.wireLimit "canonical row nesting exceeds limits"))
  let terms ← get
  free (reject (limits.maxTerms < terms) (.wireLimit "canonical row term count exceeds limits"))

variable (scan : Bytes → Metered Error (Constructor × Bytes))

def scanNested (trailing : String) (data : Bytes) : Metered Error Bytes := do
  let (payload, rest) ← free (scanFrame data)
  let (_, left) ← scan payload
  free (reject (left ≠ []) (corrupt trailing))
  pure rest

def scanMembers : Nat → Option Bytes → Bytes → Metered Error Bytes
  | 0, _, data => pure data
  | count + 1, previous, data => do
    let (current, rest) ← free (scanFrame data)
    free (reject (previous.any fun last => current ≤ last) (corrupt "canonical set members are not strictly sorted"))
    let (_, left) ← scan current
    free (reject (left ≠ []) (corrupt "trailing bytes in canonical set member"))
    scanMembers count (some current) rest

def scanItems : Nat → Bytes → Metered Error Bytes
  | 0, data => pure data
  | _ + 1, [] => throw (corrupt "truncated canonical sequence")
  | count + 1, marker :: data =>
    if marker = 1 then do
      let rest ← scanNested scan "trailing bytes in canonical sequence node" data
      scanItems count rest
    else do
      let rest ← free (scanScalar marker data)
      scanItems count rest

def scanCount (noun : String) (data : Bytes) : Except Error (Nat × Bytes) := do
  let (count, rest) ← scanVarint data
  reject (limits.maxSequenceArity < count) (.wireLimit ("canonical " ++ noun ++ " arity exceeds limits"))
  reject (rest.length < count) (corrupt ("canonical " ++ noun ++ " count exceeds row bounds"))
  pure (count, rest)

def scanComponent (data : Bytes) : Metered Error Bytes :=
  match data with
  | [] => throw (corrupt "truncated canonical model component")
  | marker :: data =>
    if marker = 1 then scanNested scan "trailing bytes in nested canonical node" data
    else if marker = 6 then do
      let (count, rest) ← free (scanCount limits "set" data)
      scanMembers scan count none rest
    else if marker = 7 then do
      let (count, rest) ← free (scanCount limits "sequence" data)
      scanItems scan count rest
    else free (scanScalar marker data)

def scanComponents : Nat → Bytes → Metered Error Bytes
  | 0, data => pure data
  | count + 1, data => do
    let rest ← scanComponent limits scan data
    scanComponents count rest

/-- `_scan_node`; a nested value is shorter than the row, so its length is enough fuel. -/
def scanNode : Nat → Nat → Bytes → Metered Error (Constructor × Bytes)
  | 0, _, _ => throw (.assertionError "scanner out of fuel")
  | fuel + 1, depth, data => do
    scanEnter limits depth
    let (tag, data) ← free (scanVarint data)
    match Constructor.ofTag tag with
    | none => throw (corrupt "unknown canonical model tag")
    | some c => do
      let rest ← scanComponents limits (scanNode fuel (depth + 1)) c.arity data
      pure (c, rest)

def scanCanonical (row : Bytes) : Except Error Constructor := do
  let ((c, rest), _) ← scanNode limits (row.length + 1) 0 row 0
  reject (rest ≠ []) (corrupt "trailing bytes in canonical model row")
  pure c

end

section

variable (limits : ParseLimits)

def decodeModel (row : Bytes) : Except Error Node :=
  match decodeCanonical limits row with
  | .ok value => .ok value
  | .error (.resourceLimit _ _ _) => .error (.wireLimit "canonical model row exceeds wire limits")
  | .error error =>
    if error.isModelFailure ∨ error = .recursionError then .error (corrupt "invalid canonical model row")
    else .error error

/-- The constructor of a row and the name of its class, scanned or decoded. -/
def rowConstructor (lazily : Bool) (row : Bytes) : Except Error (Constructor × String) :=
  if lazily then (fun c => (c, c.name)) <$> scanCanonical limits row
  else (fun value => (value.constructor, value.className)) <$> decodeModel limits row

/-- `table.rows()`. -/
def TableView.rows (table : TableView) : Except Error (List Bytes) := (List.range table.count).mapM table.row

/-- The loop of `_validate_model_table`, `_validate_structural_table` and `_validate_terms`:
every row has a constructor of the given ones. -/
def validateRows (lazily : Bool) (section_ : String) (accepts : Constructor → Bool) (table : TableView) :
    Except Error Unit := do
  let rows ← table.rows
  rows.forM fun row => do
    let (c, name) ← rowConstructor limits lazily row
    reject (accepts c = false) (corrupt (section_ ++ " row has invalid " ++ name ++ " category"))

def validateTerms (lazily : Bool) (table : TableView) : Except Error Unit :=
  validateRows limits lazily "TERMS"
    (fun c => decide (c ∉ [.iri, .entity, .literal, .anonymousIndividual, .annotationNode] ++ axiomTypes)) table

/-- `image.table(kind)`: a section that is not there is a `KeyError`. -/
def WireImage.require (image : WireImage) (kind : SectionKind) : Except Error TableView :=
  match image.table kind with
  | some table => .ok table
  | none => .error (.keyError (toString kind.code))

end

end OwlCore
