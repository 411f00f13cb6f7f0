import OwlCore.Model.Normal

/-!
# Decoding canonical bytes

The decoder reads from the front of what is left of the data. Its recursion is
bounded by fuel; a nested value lies in a payload shorter than the data, so the
length of the data is enough.
-/
namespace OwlCore

open Varint Metered

/-- The loop of `_decode_varint`. -/
def decodeVarintFrom (shift value : Nat) (consumed : Bytes) : Bytes → Except Error (Nat × Bytes)
  | [] => .error (.structuralConstraint "truncated canonical varint")
  | byte :: rest =>
    let value := value ||| ((byte.toNat % 128) <<< shift)
    let consumed := consumed ++ [byte]
    if byte.toNat < 128 then
      if consumed ≠ encode value then .error (.structuralConstraint "nonminimal canonical varint")
      else .ok (value, rest)
    else if shift + 7 > 1000000 then
      .error (.structuralConstraint "canonical varint is unreasonably long")
    else decodeVarintFrom (shift + 7) value consumed rest

def decodeVarint (data : Bytes) : Except Error (Nat × Bytes) := decodeVarintFrom 0 0 [] data

def takeFramed (data : Bytes) : Except Error (Bytes × Bytes) := do
  let (length, rest) ← decodeVarint data
  if rest.length < length then .error (.structuralConstraint "truncated canonical framed value")
  else pure (rest.take length, rest.drop length)

/-- `payload.decode("ascii")`. -/
def asciiDecode (payload : Bytes) : Option String :=
  if payload.all fun octet => octet.toNat < 128 then utf8Decode payload else none

def decodeText (decoded : Option String) : Except Error Arg :=
  match decoded with
  | some text => .ok (.text text)
  | none => .error (.structuralConstraint "invalid canonical text encoding")

def decodeScalarComponent (marker : UInt8) (data : Bytes) : Except Error (Arg × Bytes) :=
  if marker = 0 then .ok (.none, data)
  else if marker = 3 then do
    let (payload, rest) ← takeFramed data
    pure (.bytes payload, rest)
  else if marker = 2 then do
    let (payload, rest) ← takeFramed data
    let text ← decodeText (utf8Decode payload)
    pure (text, rest)
  else if marker = 5 then do
    let (payload, rest) ← takeFramed data
    let text ← decodeText (asciiDecode payload)
    pure (text, rest)
  else if marker = 4 then do
    let (value, rest) ← decodeVarint data
    pure (.integer value, rest)
  else .error (.structuralConstraint ("unknown canonical component marker: " ++ toString marker.toNat))

/-- The exceptions that `_construct` reports as an invalid payload. -/
def Error.isModelFailure : Error → Bool
  | .typeError _ | .valueError _ | .structuralConstraint _ | .invalidIRI _ | .invalidLiteral _ => true
  | _ => false

/-- The constructor call of `_construct`; an entity kind arrives as text. -/
def constructorCall (c : Constructor) (args : List Arg) : Except Error Node :=
  match c, args with
  | .entity, [kind, iri] =>
    match kind.str?.bind EntityKind.ofValue with
    | some kind => construct .entity [.enum kind, iri]
    | none => .error (.valueError "not a valid EntityKind")
  | c, args => construct c args

/-- `_construct`. -/
def constructDecoded (c : Constructor) (args : List Arg) : Except Error Node :=
  match constructorCall c args with
  | .ok n => .ok n
  | .error e =>
    if e.isModelFailure then
      .error (.structuralConstraint ("invalid canonical " ++ c.name ++ " payload"))
    else .error e

section

/-- A reader that runs `count` times, each time on what the last run left. -/
def readMany {α : Type} (read : Bytes → Metered Error (α × Bytes)) :
    Nat → Bytes → Metered Error (List α × Bytes)
  | 0, data => pure ([], data)
  | count + 1, data => do
    let (value, data) ← read data
    let (values, data) ← readMany read count data
    pure (value :: values, data)

variable (limits : ParseLimits) (decode : Bytes → Metered Error (Node × Bytes))

def readNested (trailing : String) (data : Bytes) : Metered Error (Node × Bytes) := do
  let (payload, data) ← free (takeFramed data)
  let (value, left) ← decode payload
  if left ≠ [] then throw (.structuralConstraint trailing) else pure (value, data)

def readItem (data : Bytes) : Metered Error (Arg × Bytes) :=
  match data with
  | [] => throw (.structuralConstraint "truncated canonical sequence component")
  | marker :: data =>
    if marker = 1 then do
      let (value, data) ← readNested decode "trailing bytes in canonical sequence node" data
      pure (.node value, data)
    else free (decodeScalarComponent marker data)

def readComponent (data : Bytes) : Metered Error (Arg × Bytes) :=
  match data with
  | [] => throw (.structuralConstraint "truncated canonical component")
  | marker :: data =>
    if marker = 1 then do
      let (value, data) ← readNested decode "trailing bytes in nested canonical node" data
      pure (.node value, data)
    else if marker = 6 then do
      let (size, data) ← free (decodeVarint data)
      collection limits size
      let (members, data) ←
        readMany (readNested decode "trailing bytes in canonical set member") size data
      let set ← free (canonicalSetOf members)
      pure (.set set, data)
    else if marker = 7 then do
      let (size, data) ← free (decodeVarint data)
      collection limits size
      let (items, data) ← readMany (readItem decode) size data
      pure (.tuple items, data)
    else free (decodeScalarComponent marker data)

def decodeNode : Nat → Nat → Bytes → Metered Error (Node × Bytes)
  | 0, _, _ => throw (.assertionError "decoder out of fuel")
  | fuel + 1, depth, data => do
    enter limits depth
    let (tag, data) ← free (decodeVarint data)
    match Constructor.ofTag tag with
    | none => throw (.structuralConstraint ("unknown model schema tag: " ++ toString tag))
    | some c => do
      let (args, data) ← readMany (readComponent limits (decodeNode fuel (depth + 1))) c.arity data
      let value ← free (constructDecoded c args)
      pure (value, data)

/-- `decode_canonical`: decode, reject trailing bytes, and encode again to compare. -/
def decodeCanonical (data : Bytes) : Except Error Node := do
  enforceCanonicalRowSize data.length limits.maxCanonicalWork
  let ((value, rest), _) ← decodeNode limits (data.length + 1) 0 data 0
  if rest ≠ [] then .error (.structuralConstraint "trailing bytes after canonical model value")
  else do
    let encoded ← canonicalBytes limits value
    if encoded ≠ data then .error (.structuralConstraint "noncanonical structural encoding")
    else pure value

end

end OwlCore
