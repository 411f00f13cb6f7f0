import OwlCore.Closure.Snapshot
import OwlCore.Wire.Assembled
import OwlCore.Wire.Reader
import OwlCore.Wire.Scan

/-!
# Inspecting an image

`inspect_image` validates the rows of a framed image. The row of the view stores the number of
effective axioms beside the list of its axiom rows. The two are compared only where the list is
collected, so an image opened lazily reports the stored number.
-/
namespace OwlCore

open ByteReader Fallible

def decodeUtf8 (section_ : String) (value : Bytes) : Except Error String :=
  match utf8Decode value with
  | some text => .ok text
  | none => .error (corrupt ("invalid UTF-8 in " ++ section_))

/-- `_string`. -/
def stringAt (strings : TableView) (reference : Nat) : Except Error String := do
  reject (reference < 1 ∨ strings.count < reference) (corrupt "invalid STRINGS reference")
  decodeUtf8 "STRINGS" (← strings.row (reference - 1))

def requiredRef (targetRows : Nat) (label : String) (value : Nat) : ByteReader Nat := do
  require (value = 0 ∨ targetRows < value) (corrupt ("invalid required " ++ label ++ " reference"))
  pure value

def optionalRef (targetRows : Nat) (label : String) (value : Nat) : ByteReader Nat := do
  require (targetRows < value) (corrupt ("invalid optional " ++ label ++ " reference"))
  pure value

def enumTag {α : Type} (values : List (Nat × α)) (label : String) (value : Nat) : ByteReader α :=
  match values.lookup value with
  | some member => pure member
  | none => StateT.lift (.error (corrupt ("unknown " ++ label ++ " tag")))

def readFingerprint (name : String) : ByteReader Fingerprint := do
  let schema ← u32 name
  let digest ← take name 32
  require (schema < 1) (corrupt "invalid wire fingerprint")
  pure ⟨schema, digest⟩

/-- `count` readings, one after the other. -/
def readTimes {α : Type} (read : ByteReader α) : Nat → ByteReader (List α)
  | 0 => pure []
  | count + 1 => do
    let value ← read
    let rest ← readTimes read count
    pure (value :: rest)

inductive DocumentFormat where
  | rdfXml | turtle | owlXml | functional
  deriving DecidableEq

inductive DigestKind where
  | exactBytes | normalizedText
  deriving DecidableEq

inductive DetectionBasis where
  | explicit | mediaType | content | extension
  deriving DecidableEq

/-- `_FORMAT_BY_TAG`. -/
def formatByTag : List (Nat × DocumentFormat) := [(1, .rdfXml), (2, .turtle), (3, .owlXml), (4, .functional)]

/-- `_POLICY_BY_TAG`. -/
def policyByTag : List (Nat × ImportPolicy) :=
  [(1, .ignore), (2, .recordUnresolved), (3, .resolveLocal), (4, .resolveStrict)]

/-- `_DOCUMENT_STATUS_BY_TAG`. -/
def documentStatusByTag : List (Nat × DocumentStatus) := [(1, .root), (2, .resolved)]

/-- `_IMPORT_STATUS_BY_TAG`. -/
def importStatusByTag : List (Nat × ImportStatus) :=
  [(1, .resolved), (2, .unresolved), (3, .ignored), (4, .denied), (5, .failed)]

/-- `_DIGEST_KIND_BY_TAG`. -/
def digestKindByTag : List (Nat × DigestKind) := [(1, .exactBytes), (2, .normalizedText)]

/-- `_DETECTION_BASIS_BY_TAG`. -/
def detectionBasisByTag : List (Nat × DetectionBasis) :=
  [(1, .explicit), (2, .mediaType), (3, .content), (4, .extension)]

section

variable (limits : ParseLimits)

/-- One row of `SEQUENCES`. -/
def readSequence : ByteReader Unit := do
  let kind ← u8 "SEQUENCES"
  require (kind ≠ 1 ∧ kind ≠ 2) (corrupt "unknown SEQUENCES collection kind")
  let count ← u64 "SEQUENCES"
  require (limits.maxSequenceArity < count) (.wireLimit "SEQUENCES arity exceeds limits")
  let left ← remaining
  require (left / 32 < count ∨ left ≠ count * 32) (corrupt "invalid SEQUENCES digest vector")
  let _ ← take "SEQUENCES" (count * 32)
  finish "SEQUENCES"

def validateSequences (table : TableView) : Except Error Unit := do
  let rows ← table.rows
  rows.forM (onRow (readSequence limits))

end

/-- `_DocumentMeta` and `_DocumentWire`. -/
structure DocumentWire where
  key : String
  documentOntology : Nat
  documentVersion : Nat
  documentIri : Nat
  recordOntology : Nat
  recordVersion : Nat
  recordIri : Nat
  recordSource : Bytes
  fingerprint : Fingerprint
  recordFormat : DocumentFormat
  status : DocumentStatus
  provenanceSource : Bytes
  digestKind : DigestKind
  byteLength : Nat
  codepointLength : Nat
  provenanceIri : Nat
  provenanceFormat : DocumentFormat
  detectionBasis : DetectionBasis
  expected : Option Bytes
  parser : String
  backend : String
  apiVersion : Nat × Nat
  modelSchema : Nat
  directImports : List Nat
  rawAnnotations : List Nat
  rawAxioms : List Nat
  rawExtensions : List Nat
  effectiveAnnotations : List Nat
  effectiveAxioms : List Nat
  effectiveExtensions : List Nat

/-- `_ImportsWire`, an edge with its importer, IRI row, status, target, resolver and diagnostic. -/
structure ImportsWire where
  policy : ImportPolicy
  offline : Bool
  resolverDigest : Bytes
  edges : List (String × Nat × ImportStatus × Option String × Option String × Option String)

/-- `ViewSummary`. -/
structure WireSummary where
  rootDocumentKey : String
  complete : Bool
  context : Option StructuralContext
  structural : Fingerprint
  logical : Fingerprint
  signature : Fingerprint
  documentCount : Nat
  totalSourceBytes : Nat
  effectiveAxiomCount : Nat

structure ViewRefs where
  annotations : List Nat
  axioms : List Nat
  extensions : List Nat

/-- `FEATURE_SWRL`. -/
def featureSwrl : Nat := 1

section

variable (limits : ParseLimits) (image : WireImage)

def WireImage.rowCount (kind : SectionKind) : Nat := (image.table kind).elim 0 TableView.count

/-- The expected digest of a row of `DOCUMENTS`. -/
def readExpected : ByteReader (Option Bytes) := do
  let hasExpected ← boolean "DOCUMENTS"
  if hasExpected then some <$> take "DOCUMENTS" 32 else pure none

def readDocumentRow (strings iris : TableView) (annotations axioms extensions : Nat) (collect : Bool) :
    ByteReader DocumentWire := do
  let name := "DOCUMENTS"
  let key ← StateT.lift (stringAt strings (← requiredRef strings.count "document key" (← u32 name)))
  require (key = "") (corrupt "document key is empty")
  require (key.toList.any fun c : Char => 128 ≤ c.toNat) (corrupt "document key is not ASCII")
  let documentOntology ← optionalRef iris.count "document ontology IRI" (← u32 name)
  let documentVersion ← optionalRef iris.count "document version IRI" (← u32 name)
  let documentIri ← optionalRef iris.count "document IRI" (← u32 name)
  let recordOntology ← optionalRef iris.count "record ontology IRI" (← u32 name)
  let recordVersion ← optionalRef iris.count "record version IRI" (← u32 name)
  let recordIri ← optionalRef iris.count "record document IRI" (← u32 name)
  let recordSource ← take name 32
  let fingerprint ← readFingerprint name
  let recordFormat ← enumTag formatByTag "document format" (← u8 name)
  let status ← enumTag documentStatusByTag "document status" (← u8 name)
  let provenanceSource ← take name 32
  let digestKind ← enumTag digestKindByTag "digest kind" (← u8 name)
  let byteLength ← u64 name
  let codepointLength ← u64 name
  let provenanceIri ← optionalRef iris.count "provenance document IRI" (← u32 name)
  let provenanceFormat ← enumTag formatByTag "provenance format" (← u8 name)
  let detectionBasis ← enumTag detectionBasisByTag "detection basis" (← u8 name)
  let expected ← readExpected
  let parserId ← requiredRef strings.count "parser string" (← u32 name)
  let backendId ← requiredRef strings.count "backend string" (← u32 name)
  let parser ← StateT.lift (stringAt strings parserId)
  let backend ← StateT.lift (stringAt strings backendId)
  require (parser = "" ∨ backend = "") (corrupt "empty parser/backend metadata")
  let major ← u16 name
  let minor ← u16 name
  let schema ← u32 name
  require (schema ≠ modelSchema) (.wireVersion "document model schema is unsupported")
  let directImports ← references name limits.maxWireRows iris.count collect
  let rawAnnotations ← references name limits.maxWireRows annotations collect
  let rawAxioms ← references name limits.maxWireRows axioms collect
  let rawExtensions ← references name limits.maxWireRows extensions collect
  let effectiveAnnotations ← references name limits.maxWireRows annotations collect
  let effectiveAxioms ← references name limits.maxWireRows axioms collect
  let effectiveExtensions ← references name limits.maxWireRows extensions collect
  finish name
  pure ⟨key, documentOntology, documentVersion, documentIri, recordOntology, recordVersion, recordIri, recordSource,
    fingerprint, recordFormat, status, provenanceSource, digestKind, byteLength, codepointLength, provenanceIri,
    provenanceFormat, detectionBasis, expected, parser, backend, (major, minor), schema, directImports,
    rawAnnotations, rawAxioms, rawExtensions, effectiveAnnotations, effectiveAxioms, effectiveExtensions⟩

/-- One edge of `IMPORTS` with its sort key; an edge has a target exactly if it is resolved. -/
def readEdge (strings iris : TableView) (keys : List String) :
    ByteReader ((String × Nat × ImportStatus × Option String × Option String × Option String) × List Bytes) := do
  let name := "IMPORTS"
  let importer ← StateT.lift (stringAt strings (← requiredRef strings.count "importer" (← u32 name)))
  require (importer ∉ keys) (corrupt "IMPORTS edge importer is absent from DOCUMENTS")
  let iriId ← requiredRef iris.count "import IRI" (← u32 name)
  let status ← enumTag importStatusByTag "import status" (← u8 name)
  let targetId ← optionalRef strings.count "import target" (← u32 name)
  let resolverId ← optionalRef strings.count "resolver name" (← u32 name)
  let diagnosticId ← optionalRef strings.count "diagnostic code" (← u32 name)
  let optionalString := fun (reference : Nat) =>
    if reference = 0 then pure none else some <$> stringAt strings reference
  let target ← StateT.lift (optionalString targetId)
  let resolver ← StateT.lift (optionalString resolverId)
  let diagnostic ← StateT.lift (optionalString diagnosticId)
  require (status = .resolved ∧ ¬target.any (· ∈ keys) = true) (corrupt "resolved IMPORTS edge has no valid target")
  require (status ≠ .resolved ∧ target.isSome = true) (corrupt "non-resolved IMPORTS edge has a target")
  let iri ← StateT.lift (iris.row (iriId - 1))
  pure ((importer, iriId, status, target, resolver, diagnostic),
    [utf8Encode importer, iri, utf8Encode status.value, target.elim [] utf8Encode])

/-- The edges of `IMPORTS`, their sort keys ascending. -/
def readEdges (strings iris : TableView) (keys : List String) : Nat → Option (List Bytes) →
    ByteReader (List (String × Nat × ImportStatus × Option String × Option String × Option String))
  | 0, _ => pure []
  | count + 1, previous => do
    let (edge, sortKey) ← readEdge strings iris keys
    require (previous.any fun last => sortKey < last) (corrupt "IMPORTS edges are not in canonical order")
    let rest ← readEdges strings iris keys count (some sortKey)
    pure (edge :: rest)

/-- The row of `IMPORTS`. -/
def readImports (strings iris : TableView) (keys : List String) (collect : Bool) : ByteReader ImportsWire := do
  let name := "IMPORTS"
  let policy ← enumTag policyByTag "import policy" (← u8 name)
  let offline ← boolean name
  let resolverDigest ← take name 32
  let count ← u64 name
  require (limits.maxWireRows < count) (.wireLimit "IMPORTS edge count exceeds limits")
  let left ← remaining
  require (left / 21 < count) (corrupt "IMPORTS edge count exceeds row bounds")
  let edges ← readEdges strings iris keys count none
  finish name
  pure ⟨policy, offline, resolverDigest, if collect then edges else []⟩

def validateImports (keys : List String) (collect : Bool) : Except Error ImportsWire := do
  let table ← image.require .imports
  reject (table.count ≠ 1) (corrupt "IMPORTS must contain exactly one manifest row")
  let strings ← image.require .strings
  let iris ← image.require .iris
  onRow (readImports limits strings iris keys collect) (← table.row 0)

/-- The structural context in the row of `VIEW`. -/
def readContext : ByteReader (Option StructuralContext) := do
  let name := "VIEW"
  let tag ← u8 name
  let count ← u32 name
  require (limits.maxCompositeMembers < count) (.wireLimit "VIEW context count exceeds limits")
  let fingerprints ← readTimes (readFingerprint name) count
  require (tag = 0 ∧ count ≠ 0) (corrupt "plain VIEW has structural context members")
  require (tag = 1 ∧ count ≠ 1) (corrupt "overlay VIEW context must have one anchor")
  require (tag = 2 ∧ count < 2) (corrupt "composite VIEW context must have at least two members")
  require (tag ≠ 0 ∧ tag ≠ 1 ∧ tag ≠ 2) (corrupt "unknown VIEW structural context kind")
  pure (if tag = 0 then none else if tag = 1 then some ⟨.overlay, fingerprints⟩ else some ⟨.composite, fingerprints⟩)

/-- The row of `VIEW`, before the count is compared with the list. -/
def readViewFields (strings : TableView) (annotations axioms extensions : Nat) (keys : List String)
    (collect : Bool) : ByteReader (WireSummary × ViewRefs) := do
  let name := "VIEW"
  let root ← StateT.lift (stringAt strings (← requiredRef strings.count "root document key" (← u32 name)))
  require (root ∉ keys) (corrupt "VIEW root document key is invalid")
  let complete ← boolean name
  let context ← readContext limits
  let structural ← readFingerprint name
  let logical ← readFingerprint name
  let signature ← readFingerprint name
  let documentCount ← u64 name
  require (limits.maxDocuments < documentCount) (.wireLimit "VIEW document count exceeds limits")
  let effectiveAxiomCount ← u64 name
  require (limits.maxAxioms < effectiveAxiomCount) (.wireLimit "VIEW axiom count exceeds limits")
  let annotationRefs ← references name limits.maxAnnotations annotations collect
  let axiomRefs ← references name limits.maxAxioms axioms collect
  let extensionRefs ← references name limits.maxWireRows extensions collect
  finish name
  pure (⟨root, complete, context, structural, logical, signature, documentCount, 0, effectiveAxiomCount⟩,
    ⟨annotationRefs, axiomRefs, extensionRefs⟩)

/-- `_read_view` up to the end of its row. -/
def readViewRow (keys : List String) (collect : Bool) : Except Error (WireSummary × ViewRefs) := do
  let table ← image.require .view
  reject (table.count ≠ 1) (corrupt "VIEW must contain exactly one row")
  let strings ← image.require .strings
  let annotations ← image.require .annotations
  let axioms ← image.require .axioms
  onRow (readViewFields limits strings annotations.count axioms.count (image.rowCount .swrl) keys collect)
    (← table.row 0)

/-- `_read_view`: the count is compared with the list only if the list was collected. -/
def readView (keys : List String) (collect : Bool) : Except Error (WireSummary × ViewRefs) := do
  let (summary, refs) ← readViewRow limits image keys collect
  reject (collect = true ∧ refs.axioms.length ≠ summary.effectiveAxiomCount)
    (corrupt "VIEW effective axiom count disagrees with postings")
  pure (summary, refs)

def readIdentityText (label : String) : ByteReader String := do
  let name := "VIEW_PROVENANCE"
  let length ← u64 name
  let left ← remaining
  require (left < length) (corrupt ("VIEW_PROVENANCE " ++ label ++ " exceeds row bounds"))
  let payload ← take name length
  StateT.lift (decodeUtf8 name payload)

def readIdentityIri : ByteReader (Option Node) := do
  let present ← boolean "VIEW_PROVENANCE"
  if present then do
    let value ← readIdentityText "IRI"
    StateT.lift (enforceLimit "max_iri_bytes" (utf8Encode value).length limits.maxIriBytes)
    match construct .iri [.text value] with
    | .ok iri => pure (some iri)
    | .error _ => StateT.lift (.error (corrupt "VIEW_PROVENANCE contains invalid IRI"))
  else pure none

/-- The documents of `VIEW_PROVENANCE`, their keys ascending. -/
def readIdentities : Nat → Option Bytes → ByteReader (List (String × Option Node × Option Node))
  | 0, _ => pure []
  | count + 1, previous => do
    let key ← readIdentityText "document key"
    require (key = "" ∨ previous.any (fun last => utf8Encode key ≤ last) = true)
      (corrupt "VIEW_PROVENANCE document keys are not canonical")
    let ontologyIri ← readIdentityIri limits
    let versionIri ← readIdentityIri limits
    require (versionIri.isSome = true ∧ ontologyIri = none)
      (corrupt "VIEW_PROVENANCE contains invalid ontology identity")
    let rest ← readIdentities count (some (utf8Encode key))
    pure ((key, ontologyIri, versionIri) :: rest)

/-- The row of `VIEW_PROVENANCE`. -/
def readProvenance : ByteReader (List (String × Option Node × Option Node)) := do
  let name := "VIEW_PROVENANCE"
  let _ ← take name 32
  let _ ← take name 32
  let count ← u64 name
  require (limits.maxIndexRows < count) (.wireLimit "VIEW_PROVENANCE document count exceeds limits")
  let left ← remaining
  require (count = 0 ∨ left / 11 < count) (corrupt "VIEW_PROVENANCE document count exceeds row bounds")
  let documents ← readIdentities limits count none
  finish name
  pure documents

def readViewProvenance : Except Error (Option (List (String × Option Node × Option Node))) :=
  match image.table .viewProvenance with
  | none => .ok none
  | some table => do
    reject (image.header.minor < 1) (.wireVersion "VIEW_PROVENANCE requires wire minor 1")
    reject (table.count ≠ 1) (corrupt "VIEW_PROVENANCE must contain exactly one row")
    some <$> onRow (readProvenance limits) (← table.row 0)

/-- `_NONE_U64`. -/
def noneU64 : Nat := 0xFFFFFFFFFFFFFFFF

def optionalU64 (value : Nat) : Option Nat := if value = noneU64 then none else some value

/-- The checks of `SourceSpan` on byte and text coordinates. -/
def validSpan : List (Option Nat) → Bool
  | [byteStart, byteEnd, lineStart, columnStart, lineEnd, columnEnd] =>
    [lineStart, columnStart, lineEnd, columnEnd].all (fun value => value != some 0) &&
      (match byteStart, byteEnd with
      | some start, some stop => decide (start ≤ stop)
      | _, _ => true) &&
      (match lineStart, lineEnd with
      | some start, some stop =>
        decide (start < stop ∨ start = stop ∧ columnStart.getD 1 ≤ columnEnd.getD 1)
      | _, _ => true)
  | _ => false

/-- The occurrences of one row of `ORIGINS`, ascending. -/
def readOccurrences (strings : TableView) : Nat → Option (Bytes × List Nat) →
    ByteReader (List (String × Nat × List (Option Nat)))
  | 0, _ => pure []
  | count + 1, previous => do
    let name := "ORIGINS"
    let key ← StateT.lift (stringAt strings (← requiredRef strings.count "origin document" (← u32 name)))
    require (key = "") (corrupt "ORIGINS contains an empty document provenance key")
    let occurrence ← u64 name
    let stored ← readTimes (u64 name) 6
    let span := stored.map optionalU64
    require (span.any Option.isSome = true ∧ validSpan span = false) (corrupt "invalid ORIGINS source span")
    let sortKey := (utf8Encode key, occurrence :: stored)
    require (previous.any (fun last => decide (sortKey.1 < last.1 ∨ sortKey.1 = last.1 ∧ sortKey.2 ≤ last.2)) = true)
      (corrupt "ORIGINS occurrences are not canonical")
    let rest ← readOccurrences strings count (some sortKey)
    pure ((key, occurrence, span) :: rest)

/-- One row of `ORIGINS` after the given digest and number of entries. -/
def readOrigin (strings : TableView) (state : Option Bytes × Nat) : ByteReader (Option Bytes × Nat) := do
  let name := "ORIGINS"
  let digest ← take name 32
  require (state.1.any (fun last => decide (digest ≤ last)) = true) (corrupt "ORIGINS digests are not canonical")
  let count ← u64 name
  require (limits.maxOriginEntries < state.2 + count) (.wireLimit "ORIGINS entries exceed limits")
  let left ← remaining
  require (left / 60 < count) (corrupt "ORIGINS occurrence count exceeds row bounds")
  let _ ← readOccurrences strings count none
  finish name
  pure (some digest, state.2 + count)

/-- `_validate_origins` without collecting. -/
def validateOrigins : Except Error Unit := do
  let table ← image.require .origins
  let strings ← image.require .strings
  let rows ← table.rows
  let _ ← rows.foldlM (fun state row => onRow (readOrigin limits strings state) row) (none, 0)
  pure ()

def readLedger : List SectionKind → ByteReader Unit
  | [] => pure ()
  | expected :: rest => do
    let name := "FOOTER"
    let kind ← u16 name
    let rows ← u64 name
    let digest ← take name 32
    require (kind ≠ expected.code) (corrupt "FOOTER section kinds are not canonical")
    match image.entries.find? fun entry => entry.kind = kind with
    | none => StateT.lift (.error (.keyError (toString kind)))
    | some entry => do
      require (rows ≠ entry.rowCount ∨ digest ≠ entry.digest)
        (corrupt "FOOTER section ledger disagrees with directory")
      readLedger rest

/-- The row of `FOOTER`. -/
def readFooter (summary : WireSummary) : ByteReader Unit := do
  let name := "FOOTER"
  let fingerprints ← readTimes (readFingerprint name) 3
  require (fingerprints ≠ [summary.structural, summary.logical, summary.signature])
    (corrupt "FOOTER fingerprint ledger disagrees with VIEW")
  let count ← u16 name
  require (count ≠ SectionKind.required.length - 1) (corrupt "FOOTER required-section count is invalid")
  readLedger image SectionKind.required.dropLast
  finish name

def validateFooter (summary : WireSummary) : Except Error Unit := do
  let table ← image.require .footer
  reject (table.count ≠ 1) (corrupt "FOOTER must contain exactly one row")
  onRow (readFooter image summary) (← table.row 0)

def validateFeatureSections : Except Error Unit :=
  reject ((image.table .swrl).isSome ≠ decide (image.header.featureFlags &&& featureSwrl ≠ 0))
    (.wireVersion "SWRL section/feature capability mismatch")

def validateTables (lazily : Bool) : Except Error Unit := do
  let strings ← (← image.require .strings).rows
  strings.forM fun row => do
    let _ ← decodeUtf8 "STRINGS" row
  let only := fun (c c' : Constructor) => decide (c' = c)
  validateRows limits lazily "IRIS" (only .iri) (← image.require .iris)
  validateRows limits lazily "ENTITIES" (only .entity) (← image.require .entities)
  validateRows limits lazily "LITERALS" (only .literal) (← image.require .literals)
  validateRows limits lazily "ANONYMOUS" (only .anonymousIndividual) (← image.require .anonymous)
  validateSequences limits (← image.require .sequences)
  validateRows limits lazily "ANNOTATIONS" (only .annotationNode) (← image.require .annotations)
  validateTerms limits lazily (← image.require .terms)
  validateRows limits lazily "AXIOMS" (fun c => decide (c ∈ axiomTypes)) (← image.require .axioms)
  match image.table .swrl with
  | none => pure ()
  | some swrl => validateRows limits lazily "SWRL" (fun _ => true) swrl

/-- The documents of `inspect_image`. -/
def readDocuments (collect : Bool) : Except Error (List DocumentWire) := do
  let documents ← image.require .documents
  let strings ← image.require .strings
  let iris ← image.require .iris
  let annotations ← image.require .annotations
  let axioms ← image.require .axioms
  (← documents.rows).mapM (onRow (readDocumentRow limits strings iris annotations.count axioms.count
    (image.rowCount .swrl) collect))

/-- The columns of the encoded structural section: the digest of the roots that a row with
valid columns records, and the digest of root rows with their kinds. -/
structure EncodedColumns where
  rootDigest : Bytes → Except Error Bytes
  rowsDigest : List (Nat × Bytes) → Bytes

variable (columns : EncodedColumns)

/-- The rows that the view refers to, with their root kinds. -/
def viewRoots (refs : ViewRefs) : Except Error (List (Nat × Bytes)) := do
  let roots := fun (kind : Nat) (section_ : SectionKind) (postings : List Nat) =>
    if postings = [] then pure [] else do
      let table ← image.require section_
      postings.mapM fun reference => (kind, ·) <$> table.row (reference - 1)
  let annotations ← roots 1 .annotations refs.annotations
  let axioms ← roots 2 .axioms refs.axioms
  let extensions ← roots 3 .swrl refs.extensions
  pure (annotations ++ axioms ++ extensions)

/-- `_validate_encoded_structural_section_v2`. -/
def validateEncodedStructural (keys : List String) : Except Error Unit :=
  match image.table .encodedStructuralV2 with
  | none => .ok ()
  | some table => do
    reject (image.header.minor < 2) (.wireVersion "ENCODED_STRUCTURAL_V2 requires wire minor 2")
    reject (table.count ≠ 1) (corrupt "ENCODED_STRUCTURAL_V2 must contain exactly one row")
    let observed ← columns.rootDigest (← table.row 0)
    let (_, refs) ← readView limits image keys true
    let roots ← viewRoots image refs
    reject (columns.rowsDigest roots ≠ observed) (corrupt "ENCODED_STRUCTURAL_V2 roots disagree with VIEW postings")

/-- `inspect_image`; the summary of the view is what an opened image reports. -/
def inspectImage (lazily : Bool) : Except Error WireSummary := do
  validateFeatureSections image
  validateTables limits image lazily
  let documents ← readDocuments limits image false
  let keys := documents.map DocumentWire.key
  reject (¬keys.Nodup) (corrupt "duplicate document key in DOCUMENTS")
  reject ((documents.map DocumentWire.status).count .root ≠ 1)
    (corrupt "DOCUMENTS must contain exactly one root record")
  let _ ← validateImports limits image keys false
  let (view, _) ← readView limits image keys false
  let summary := { view with totalSourceBytes := (documents.map DocumentWire.byteLength).sum }
  reject (documents.length ≠ summary.documentCount) (corrupt "VIEW document count disagrees with DOCUMENTS")
  reject (summary.rootDocumentKey ∉ keys) (corrupt "VIEW root document is absent from DOCUMENTS")
  validateEncodedStructural limits image columns keys
  let _ ← readViewProvenance limits image
  validateOrigins limits image
  validateFooter image summary
  pure summary

/-- The part of `materialize_image` that reads the view. -/
def materializedView : Except Error (WireSummary × ViewRefs) := do
  let documents ← readDocuments limits image true
  let keys := documents.map DocumentWire.key
  let _ ← validateImports limits image keys true
  readView limits image keys true

def storedView : Except Error (WireSummary × ViewRefs) := do
  let documents ← readDocuments limits image true
  readViewRow limits image (documents.map DocumentWire.key) true

end

structure InspectedWire where
  image : WireImage
  summary : WireSummary

/-- The errors of `validate_bytes` in terms of the wire format. -/
def wireError : Error → Error
  | .resourceLimit _ _ _ => .wireLimit "wire validation exceeds resource limits"
  | .typeError _ | .valueError _ | .keyError _ => corrupt "wire semantic metadata is invalid"
  | error => error

def validateBytes (hash : Hash) (limits : ParseLimits) (columns : EncodedColumns) (data : Bytes) (verify lazily : Bool) :
    Except Error InspectedWire :=
  Except.mapError wireError do
    let image ← validateWire hash limits data verify
    let summary ← inspectImage limits image columns lazily
    pure ⟨image, summary⟩

section

variable {limits : ParseLimits} {columns : EncodedColumns}

/-- The lists of a row of `DOCUMENTS` left out. -/
def DocumentWire.withoutReferences (wire : DocumentWire) : DocumentWire :=
  { wire with
    directImports := []
    rawAnnotations := []
    rawAxioms := []
    rawExtensions := []
    effectiveAnnotations := []
    effectiveAxioms := []
    effectiveExtensions := [] }

/-- A row of `DOCUMENTS` is accepted alike whether its lists are collected or not. -/
theorem readDocumentRow_false (strings iris : TableView) (annotations axioms extensions : Nat) :
    readDocumentRow limits strings iris annotations axioms extensions false =
      DocumentWire.withoutReferences <$> readDocumentRow limits strings iris annotations axioms extensions true := by
  simp [readDocumentRow, references_false, DocumentWire.withoutReferences]

theorem readViewFields_false (strings : TableView) (annotations axioms extensions : Nat) (keys : List String) :
    readViewFields limits strings annotations axioms extensions keys false = (fun view => (view.1, ⟨[], [], []⟩)) <$>
        readViewFields limits strings annotations axioms extensions keys true := by
  simp [readViewFields, references_false]

theorem onRow_map (f : α → β) (read : ByteReader α) (row : Bytes) :
    onRow (f <$> read) row = f <$> onRow read row := by
  cases hread : read row with
  | error error => simp [onRow, StateT.map, Functor.map, Except.map, bind, Except.bind, hread]
  | ok result => simp [onRow, StateT.map, Functor.map, Except.map, bind, Except.bind, pure, Except.pure, hread]

/-- The documents are accepted alike whether their lists are collected or not. -/
theorem readDocuments_false : readDocuments limits image false =
    List.map DocumentWire.withoutReferences <$> readDocuments limits image true := by
  have hrows : ∀ (strings iris : TableView) (annotations axioms extensions : Nat) (rows : List Bytes),
      rows.mapM (onRow (readDocumentRow limits strings iris annotations axioms extensions false)) =
        List.map DocumentWire.withoutReferences <$>
          rows.mapM (onRow (readDocumentRow limits strings iris annotations axioms extensions true)) := by
    intro strings iris annotations axioms extensions rows
    induction rows with
    | nil => rfl
    | cons row rows ih =>
      rw [List.mapM_cons, List.mapM_cons, ih, readDocumentRow_false, onRow_map]
      simp
  simp [readDocuments, hrows]

theorem readViewRow_false (keys : List String) : readViewRow limits image keys false =
    (fun view => (view.1, ⟨[], [], []⟩)) <$> readViewRow limits image keys true := by
  simp [readViewRow, readViewFields_false, onRow_map]

theorem map_key_withoutReferences (documents : List DocumentWire) :
    (documents.map DocumentWire.withoutReferences).map DocumentWire.key = documents.map DocumentWire.key := by
  rw [List.map_map]
  rfl

theorem readView_true_eq_ok {keys : List String} {view : WireSummary × ViewRefs} :
    readView limits image keys true = .ok view ↔
      readViewRow limits image keys true = .ok view ∧ view.2.axioms.length = view.1.effectiveAxiomCount := by
  simp only [readView, bind_eq_ok, reject_eq_ok, pure, Except.pure, Except.ok.injEq]
  constructor
  · rintro ⟨read, hread, _, hcount, rfl⟩
    exact ⟨hread, by simpa using hcount⟩
  · rintro ⟨hread, hcount⟩
    exact ⟨view, hread, (), by simpa using hcount, rfl⟩

theorem inspectImage_view (h : inspectImage limits image columns lazily = .ok summary) :
    ∃ stored refs, storedView limits image = .ok (stored, refs) ∧
      summary.effectiveAxiomCount = stored.effectiveAxiomCount ∧
      ((image.table .encodedStructuralV2).isSome → stored.effectiveAxiomCount = refs.axioms.length) := by
  simp only [inspectImage, bind_eq_ok, reject_eq_ok] at h
  obtain ⟨_, -, _, -, plain, hplain, _, -, _, -, _, -, view, hview, h⟩ := h
  obtain ⟨_, -, _, -, _, hencoded, _, -, _, -, _, -, hsummary⟩ := h
  rw [readDocuments_false, map_eq_ok] at hplain
  obtain ⟨documents, hdocuments, rfl⟩ := hplain
  rw [map_key_withoutReferences] at hview hencoded
  obtain ⟨stored, refs, hstored, heq⟩ : ∃ stored refs,
      readViewRow limits image (documents.map DocumentWire.key) true = .ok (stored, refs) ∧ view.1 = stored := by
    simp only [readView, bind_eq_ok, readViewRow_false, map_eq_ok, pure, Except.pure, Except.ok.injEq] at hview
    obtain ⟨_, ⟨full, hfull, rfl⟩, _, -, rfl⟩ := hview
    exact ⟨full.1, full.2, hfull, rfl⟩
  refine ⟨stored, refs, ?_, ?_, fun hsome => ?_⟩
  · rw [storedView, hdocuments]
    exact hstored
  · rw [← Except.ok.inj hsummary, ← heq]
  · obtain ⟨table, htable⟩ := Option.isSome_iff_exists.mp hsome
    simp only [validateEncodedStructural, htable, bind_eq_ok] at hencoded
    obtain ⟨_, -, _, -, _, -, _, -, collected, hcollected, -⟩ := hencoded
    obtain ⟨hread, hcount⟩ := readView_true_eq_ok.mp hcollected
    obtain rfl := Except.ok.inj (hstored.symm.trans hread)
    exact hcount.symm

/-- The view of a materialized image is the stored one, and its count is right. -/
theorem materializedView_eq_ok (h : materializedView limits image = .ok view) :
    storedView limits image = .ok view ∧ view.2.axioms.length = view.1.effectiveAxiomCount := by
  simp only [materializedView, bind_eq_ok] at h
  obtain ⟨documents, hdocuments, _, -, hview⟩ := h
  obtain ⟨hread, hcount⟩ := readView_true_eq_ok.mp hview
  refine ⟨?_, hcount⟩
  rw [storedView, hdocuments]
  exact hread

theorem validateBytes_eq_ok {hash : Hash} :
    validateBytes hash limits columns data verify lazily = .ok inspected ↔
      validateWire hash limits data verify = .ok inspected.image ∧
        inspectImage limits inspected.image columns lazily = .ok inspected.summary := by
  unfold validateBytes
  cases hwire : validateWire hash limits data verify with
  | error error => simp [Except.mapError, bind, Except.bind]
  | ok image =>
    cases hinspect : inspectImage limits image columns lazily with
    | error error =>
      simp only [Except.mapError, bind, Except.bind, hinspect, reduceCtorEq, Except.ok.injEq, false_iff, not_and]
      rintro rfl
      simp [hinspect]
    | ok summary =>
      simp only [Except.mapError, bind, Except.bind, hinspect, pure, Except.pure, Except.ok.injEq]
      constructor
      · rintro rfl
        exact ⟨rfl, hinspect⟩
      · rintro ⟨rfl, hsummary⟩
        rw [hinspect] at hsummary
        rw [Except.ok.inj hsummary]

/-- An accepted image reports the number of its axiom rows exactly if it has encoded columns or
stores that number, and a materialized one always does. -/
theorem validateBytes_axiomCount_iff {hash : Hash} {data : Bytes} {lazily : Bool} {inspected : InspectedWire}
    (h : validateBytes hash limits columns data true lazily = .ok inspected) :
    ∃ stored refs, storedView limits inspected.image = .ok (stored, refs) ∧
      (inspected.summary.effectiveAxiomCount = refs.axioms.length ↔
        (inspected.image.table .encodedStructuralV2).isSome = true ∨ stored.effectiveAxiomCount = refs.axioms.length) ∧
      ∀ view, materializedView limits inspected.image = .ok view →
        view.2.axioms = refs.axioms ∧ inspected.summary.effectiveAxiomCount = refs.axioms.length := by
  have hinspect := (validateBytes_eq_ok.mp h).2
  obtain ⟨stored, refs, hstored, hreported, hencoded⟩ := inspectImage_view hinspect
  refine ⟨stored, refs, hstored, ?_, fun view hview => ?_⟩
  · rw [hreported]
    exact ⟨.inr, fun hcases => hcases.elim hencoded id⟩
  · obtain ⟨hsame, hcount⟩ := materializedView_eq_ok hview
    obtain rfl := Except.ok.inj (hstored.symm.trans hsame)
    exact ⟨rfl, hreported.trans hcount.symm⟩

end

def zeroFingerprint : Bytes := packUints [(4, 1)] ++ zeros 32

/-- The rows of an image with one document and no axioms whose view stores the given count. -/
def countedRows (count : Nat) : SectionKind → List Bytes
  | .strings => [utf8Encode "k"]
  | .documents => [packUints [(4, 1), (4, 0), (4, 0), (4, 0), (4, 0), (4, 0), (4, 0)] ++ zeros 32 ++
      zeroFingerprint ++ packUints [(1, 4), (1, 1)] ++ zeros 32 ++
      packUints [(1, 1), (8, 0), (8, 0), (4, 0), (1, 4), (1, 1), (1, 0), (4, 1), (4, 1), (2, 0), (2, 2), (4, 2)] ++
      packUints (List.replicate 7 (8, 0))]
  | .imports => [packUints [(1, 2), (1, 1)] ++ zeros 32 ++ packUints [(8, 0)]]
  | .view => [packUints [(4, 1), (1, 1), (1, 0), (4, 0)] ++ zeroFingerprint ++ zeroFingerprint ++ zeroFingerprint ++
      packUints [(8, 1), (8, count), (8, 0), (8, 0), (8, 0)]]
  | _ => []

def footerRow (rows : SectionKind → List Bytes) : Bytes :=
  zeroFingerprint ++ zeroFingerprint ++ zeroFingerprint ++ packUints [(2, 13)] ++
    SectionKind.required.dropLast.flatMap fun kind =>
      packUints [(2, kind.code), (8, (rows kind).length)] ++ sha256.digest (encodeTable (rows kind))

def countedSections (count : Nat) (kind : SectionKind) : Option (List Bytes) :=
  if kind ∈ SectionKind.required then
    some (if kind = .footer then [footerRow (countedRows count)] else countedRows count kind)
  else none

def countedImage (count : Nat) : Bytes :=
  ((assemble sha256 defaultLimits (orderedSections (countedSections count)) 0 2).toOption).getD []

def noColumns : EncodedColumns := ⟨fun _ => .error (corrupt "ENCODED_STRUCTURAL_V2 row is truncated"), fun _ => []⟩

theorem framable_countedSections {count : Nat} (hcount : count = 0 ∨ count = 1) :
    Framable defaultLimits (countedSections count) 0 2 := by
  rcases hcount with rfl | rfl
  all_goals
    refine ⟨by decide, fun kind rows hrows => ?_, rfl, le_rfl, .inl rfl, rfl, .inl rfl, by decide +kernel, by decide,
      fun kind rows hrows => ?_⟩
  all_goals
    unfold countedSections at hrows
    split at hrows
    · obtain rfl := Option.some.inj hrows
      revert kind
      decide +kernel
    · cases hrows

/-- Sections whose image passes the inspection, with a test of what it gives. -/
theorem Framable.exists_inspected {hash : Hash} {limits : ParseLimits} {columns : EncodedColumns}
    {sections : SectionKind → Option (List Bytes)} {featureFlags minor : Nat} (h : Framable limits sections featureFlags minor)
    {p : InspectedWire → Bool}
    (hrun : (inspectImage limits (assembledImage hash sections featureFlags minor) columns true).toOption.any
      fun summary => p ⟨assembledImage hash sections featureFlags minor, summary⟩) :
    ∃ data inspected, assemble hash limits (orderedSections sections) featureFlags minor = .ok data ∧
      validateBytes hash limits columns data true true = .ok inspected ∧ p inspected = true := by
  obtain ⟨data, image, hassemble, haccepted, -, -, rfl⟩ := h.accepted hash
  obtain ⟨summary, hinspect, htest⟩ := exists_of_toOption_any hrun
  exact ⟨data, ⟨_, summary⟩, hassemble, validateBytes_eq_ok.mpr ⟨validateWire_eq_ok.mpr haccepted, hinspect⟩, htest⟩

/-- An image without axioms that stores the count one is accepted lazily; reading it eagerly fails. -/
theorem exists_countedImage : ∃ inspected stored refs,
    validateBytes sha256 defaultLimits noColumns (countedImage 1) true true = .ok inspected ∧
      inspected.summary.effectiveAxiomCount = 1 ∧
      storedView defaultLimits inspected.image = .ok (stored, refs) ∧ refs.axioms = [] ∧
      (materializedView defaultLimits inspected.image).isOk = false := by
  obtain ⟨data, inspected, hassemble, hvalid, htest⟩ := (framable_countedSections (.inr rfl)).exists_inspected
    (p := fun inspected => decide (inspected.summary.effectiveAxiomCount = 1) &&
      ((storedView defaultLimits inspected.image).toOption.any fun view : WireSummary × ViewRefs => decide (view.2.axioms = [])) &&
      decide ((materializedView defaultLimits inspected.image).isOk = false))
    (show (inspectImage defaultLimits (assembledImage sha256 (countedSections 1) 0 2) noColumns true).toOption.any _ by
      decide +kernel)
  rw [Bool.and_eq_true, Bool.and_eq_true, decide_eq_true_eq, decide_eq_true_eq] at htest
  obtain ⟨⟨stored, refs⟩, hstored, hrefs⟩ := exists_of_toOption_any htest.1.2
  have hdata : countedImage 1 = data := by rw [countedImage, hassemble]; rfl
  exact ⟨inspected, stored, refs, hdata ▸ hvalid, htest.1.1, hstored, of_decide_eq_true hrefs, htest.2⟩

/-- The accepted image reports one axiom where its view lists none. -/
theorem validateBytes_countedImage : ∃ inspected stored refs,
    validateBytes sha256 defaultLimits noColumns (countedImage 1) true true = .ok inspected ∧
      storedView defaultLimits inspected.image = .ok (stored, refs) ∧
      inspected.summary.effectiveAxiomCount ≠ refs.axioms.length := by
  obtain ⟨inspected, stored, refs, hvalid, hcount, hstored, hrefs, -⟩ := exists_countedImage
  exact ⟨inspected, stored, refs, hvalid, hstored, by rw [hcount, hrefs]; decide⟩

/-- It has no encoded columns and does not store the number of its axiom rows. -/
theorem validateBytes_axiomCount_iff_countedImage : ∃ inspected stored refs,
    validateBytes sha256 defaultLimits noColumns (countedImage 1) true true = .ok inspected ∧
      storedView defaultLimits inspected.image = .ok (stored, refs) ∧
      (inspected.image.table .encodedStructuralV2).isSome = false ∧
      stored.effectiveAxiomCount ≠ refs.axioms.length := by
  obtain ⟨inspected, stored, refs, hvalid, hcount, hstored, hrefs, -⟩ := exists_countedImage
  obtain ⟨stored', refs', hstored', hiff, -⟩ := validateBytes_axiomCount_iff hvalid
  obtain ⟨rfl, rfl⟩ := Prod.mk.inj (Except.ok.inj (hstored.symm.trans hstored'))
  have hnot := mt hiff.mpr (by rw [hcount, hrefs]; decide)
  rw [not_or, Bool.not_eq_true] at hnot
  exact ⟨inspected, stored, refs, hvalid, hstored, hnot⟩

end OwlCore
