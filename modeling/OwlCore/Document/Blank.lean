import OwlCore.Anonymous.Graph
import OwlCore.Model.Replace

/-!
# Blank labels in parsed values

A provisional individual carries the label of a blank node. The skeleton of a value is its
encoding with the individuals blanked out, its occurrences are its labels with their paths. A
root contributes one arc for each occurrence and one for each pair.
-/
namespace OwlCore

def lexicalKey : Bytes := utf8Encode "pyowl-core:parser-blank-label:v2\x00"

/-- `_PROVISIONAL_SCOPE`. -/
def provisionalScope (hash : Hash) : Scope :=
  hash.scope (utf8Encode "pyowl-core:provisional-document-scope:v2\x00")

section

variable (hash : Hash)

theorem lexicalKey_ne : lexicalKey ≠ [] := by decide +kernel

/-- `provisional_anonymous` of a nonempty label. -/
def provisionalAnonymous (label : String) : AnonymousIndividual where
  documentScope := provisionalScope hash
  localKey := lexicalKey ++ Varint.frame (utf8Encode label)
  localKey_ne := by simp [lexicalKey_ne]

/-- `_decode_varint` of `document.py`: the value and the number of octets read. -/
def decodeLabelLength : Bytes → Except Error (Nat × Nat)
  | [] => .error (.valueError "truncated varint")
  | octet :: rest =>
    if octet.toNat < 128 then .ok (octet.toNat, 1)
    else do
      let (value, used) ← decodeLabelLength rest
      .ok (octet.toNat % 128 + 128 * value, used + 1)

def provisionalLabel (value : AnonymousIndividual) : Except Error (Option String) :=
  if value.documentScope ≠ provisionalScope hash ∨ ¬lexicalKey <+: value.localKey then .ok none
  else do
    let payload := value.localKey.drop lexicalKey.length
    let (length, offset) ← decodeLabelLength payload
    if offset + length ≠ payload.length then .ok none
    else match utf8Decode ((payload.drop offset).take length) with
      | some label => .ok (some label)
      | none => .error (.valueError "'utf-8' codec can't decode bytes")

end

def skeletonValue : Value (Except Error Bytes) → Except Error Bytes
  | .none => .ok (utf8Encode "0")
  | .node skeleton => skeleton
  | .text value => .ok (utf8Encode "T" ++ Varint.frame (utf8Encode value))
  | .enum value => .ok (utf8Encode "T" ++ Varint.frame (utf8Encode value.value))
  | .integer value => .ok (utf8Encode "I" ++ Varint.encode value)
  | .bytes _ => .error (.typeError "unsupported skeleton value bytes")
  | .set members => do
    let members ← members.mapM id
    .ok (utf8Encode "S" ++ Varint.counted (members.insertionSort (· ≤ ·)))
  | .sequence items => do
    let items ← items.mapM id
    .ok (utf8Encode "Q" ++ Varint.counted items)

/-- `_skeleton`: the encoding of a value with its anonymous individuals blanked out. -/
def skeleton : Node → Except Error Bytes :=
  Node.para fun n fields =>
    if n.constructor = .anonymousIndividual then .ok (utf8Encode "B")
    else if n.anonymousValues = [] then do
      let encoded ← canonicalBytes defaultLimits n
      .ok (utf8Encode "C" ++ Varint.frame encoded)
    else do
      let members ← fields.mapM skeletonValue
      .ok (utf8Encode "N" ++ Varint.encode n.constructor.tag ++ (members.map Varint.frame).flatten)

def nibble (n : Nat) : Char := "0123456789abcdef".toList.getD n '0'

def hexdigest (octets : Bytes) : String :=
  String.ofList (octets.flatMap fun octet => [nibble (octet.toNat / 16), nibble (octet.toNat % 16)])

theorem nibble_injOn : ∀ i < 16, ∀ j < 16, nibble i = nibble j → i = j := by decide +kernel

theorem hexdigest_injective : Function.Injective hexdigest := by
  intro octets octets' h
  have hchars := String.ofList_injective h
  induction octets generalizing octets' with
  | nil =>
    cases octets' with
    | nil => rfl
    | cons octet' octets' => simp at hchars
  | cons octet octets ih =>
    cases octets' with
    | nil => simp at hchars
    | cons octet' octets' =>
      simp only [List.flatMap_cons, List.cons_append, List.nil_append, List.cons.injEq] at hchars
      obtain ⟨hhigh, hlow, hrest⟩ := hchars
      have hlt := octet.toNat_lt
      have hlt' := octet'.toNat_lt
      have hhigh' := nibble_injOn _ (by omega) _ (by omega) hhigh
      have hlow' := nibble_injOn _ (by omega) _ (by omega) hlow
      have hoctet : octet = octet' := UInt8.toNat_inj.mp (by omega)
      rw [hoctet, ih (congrArg String.ofList hrest) hrest]

abbrev Occurrence := String × List String

section

variable (hash : Hash)

def bySkeleton {β : Type} (keys : List Bytes) (members : List β) : List (Bytes × β) :=
  (keys.zip members).insertionSort fun a b => a.1 ≤ b.1

/-- `_blank_occurrences` below one field. -/
def occurrencesValue (value : Value Node)
    (nested : Value (List String → Except Error (List Occurrence))) (path : List String) :
    Except Error (List Occurrence) :=
  match value, nested with
  | .set members, .set nested => do
    let keys ← members.mapM skeleton
    let found ← (bySkeleton keys nested).mapM fun (key, occurrences) =>
      occurrences (path ++ ["set:" ++ hexdigest (hash.digest key)])
    .ok found.flatten
  | _, .sequence nested => do
    let found ← nested.zipIdx.mapM fun (occurrences, index) => occurrences (path ++ [toString index])
    .ok found.flatten
  | _, .node occurrences => occurrences path
  | _, _ => .ok []

def blankOccurrences : Node → List String → Except Error (List Occurrence) :=
  Node.para fun n fields path =>
    match n.anonymous? with
    | some a => do
      match ← provisionalLabel hash a with
      | some label => .ok [(label, path)]
      | none => .ok []
    | none => do
      let names := n.constructor.fieldSpecs.map FieldSpec.name
      let found ← (names.zip (n.fields.zip fields)).mapM fun (name, value, nested) =>
        occurrencesValue hash value nested (path ++ [name])
      .ok found.flatten

end

/-- The checks of `BlankNodeArc`. -/
def BlankNodeArc.build (source role : String) (target : Option String) (payload : Bytes) :
    Except Error (BlankNodeArc String) :=
  if source = "" then .error (.valueError "BlankNodeArc.source must be a nonempty string")
  else if hrole : role = "" then .error (.valueError "BlankNodeArc.role must be a nonempty string")
  else if target = some "" then
    .error (.valueError "BlankNodeArc.target must be a nonempty string or None")
  else .ok ⟨source, role, target, payload, hrole⟩

def joinPath (path : List String) : String := String.intercalate "/" path

def pairArcs (payload : Bytes) : List Occurrence → List (Except Error (BlankNodeArc String))
  | [] => []
  | (source, sourcePath) :: rest =>
    (rest.map fun (target, targetPath) =>
      BlankNodeArc.build source (joinPath sourcePath ++ "->" ++ joinPath targetPath) (some target) payload)
    ++ pairArcs payload rest

/-- The arcs of a root, in the order in which they are appended. -/
def rootArcs (payload : Bytes) (occurrences : List Occurrence) : Except Error (List (BlankNodeArc String)) :=
  ((occurrences.map fun (label, path) => BlankNodeArc.build label (joinPath path) none payload)
    ++ pairArcs payload occurrences).mapM id

end OwlCore
