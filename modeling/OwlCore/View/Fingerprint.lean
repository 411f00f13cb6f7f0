import OwlCore.Model.Individuals

/-!
# Fingerprints of ontology views

The byte strings that are digested for the effective structural, the logical and the
signature fingerprint of a view, over the annotations, axioms and extensions it
enumerates.
-/
namespace OwlCore

/-- A fingerprint; the algorithm is always `sha256`. -/
structure Fingerprint where
  schema : Nat
  digest : Bytes
  deriving DecidableEq

def fingerprintBytes (value : Fingerprint) : Bytes :=
  Varint.frame (utf8Encode "sha256") ++ Varint.encode value.schema ++ value.digest

inductive StructuralContextKind where
  | overlay
  | composite
  deriving DecidableEq

def StructuralContextKind.value : StructuralContextKind → String
  | overlay => "overlay"
  | composite => "composite"

def StructuralContextKind.domain : StructuralContextKind → String
  | overlay => "pyowl-core:overlay-structural:v2\x00"
  | composite => "pyowl-core:composite-structural:v2\x00"

/-- The boundary manifest of an overlay or of a composite. -/
structure StructuralContext where
  kind : StructuralContextKind
  fingerprints : List Fingerprint
  deriving DecidableEq

namespace StructuralContext

/-- `StructuralContext.overlay`. -/
def ofAnchor (anchor : Fingerprint) : StructuralContext := ⟨.overlay, [anchor]⟩

/-- `StructuralContext.composite`: the members in the order of their bytes. -/
def ofMembers (members : List Fingerprint) : StructuralContext :=
  ⟨.composite, members.insertionSort fun a b => fingerprintBytes a ≤ fingerprintBytes b⟩

def canonicalBytes (context : StructuralContext) : Bytes :=
  utf8Encode "pyowl-core:view-structure-context:v2\x00" ++ Varint.frame (utf8Encode context.kind.value) ++
    Varint.encode context.fingerprints.length ++
    (context.fingerprints.map fun item => Varint.frame (fingerprintBytes item)).flatten

end StructuralContext

/-- `_update_collection` for a collection that reports `size` members. -/
def updateCollection (size : Nat) (values : List Node) : Bytes :=
  Varint.encode size ++ (values.map fun item => Varint.frame item.bytes).flatten

section

variable (hash : Hash)

/-- `effective_structural_fingerprint`, with the sizes its collections report. -/
def effectiveStructuralFingerprint (context : StructuralContext) (annotations : List Node)
    (axiomCount : Nat) (axioms extensions : List Node) : Fingerprint where
  schema := 2
  digest := hash.digest (utf8Encode context.kind.domain ++ Varint.frame context.canonicalBytes ++
    updateCollection annotations.length annotations ++ updateCollection axiomCount axioms ++
    updateCollection extensions.length extensions)

/-- `LOGICAL_AXIOM_TYPES`. -/
def logicalAxiomTypes : List Constructor :=
  [.subClassOf, .equivalentClasses, .disjointClasses, .disjointUnion, .subObjectPropertyOf,
    .equivalentObjectProperties, .disjointObjectProperties, .inverseObjectProperties,
    .objectPropertyDomain, .objectPropertyRange, .functionalObjectProperty,
    .inverseFunctionalObjectProperty, .reflexiveObjectProperty, .irreflexiveObjectProperty,
    .symmetricObjectProperty, .asymmetricObjectProperty, .transitiveObjectProperty,
    .subDataPropertyOf, .equivalentDataProperties, .disjointDataProperties, .dataPropertyDomain,
    .dataPropertyRange, .functionalDataProperty, .datatypeDefinition, .hasKey, .sameIndividual,
    .differentIndividuals, .classAssertion, .objectPropertyAssertion,
    .negativeObjectPropertyAssertion, .dataPropertyAssertion, .negativeDataPropertyAssertion]

/-- `ANNOTATION_AXIOM_TYPES`. -/
def annotationAxiomTypes : List Constructor :=
  [.annotationAssertion, .subAnnotationPropertyOf, .annotationPropertyDomain, .annotationPropertyRange]

/-- `AXIOM_TYPES`, the subclasses of `AxiomNode`. -/
def axiomTypes : List Constructor := [.declaration] ++ logicalAxiomTypes ++ annotationAxiomTypes

/-- `without_annotations`: only the annotations of the value itself go. -/
def withoutAnnotations (value : Node) : Node :=
  .mk value.constructor (List.zipWith (fun spec field =>
    if spec.name = "annotations" then .set [] else field) value.constructor.fieldSpecs value.fields)

/-- A set of byte strings in order, each behind its length. -/
def framedSet (lead : Bytes) (members : List Bytes) : Bytes :=
  let ordered := KeyedSet.ofList id members
  Varint.encode ordered.length ++ (ordered.map fun item => lead ++ Varint.frame item).flatten

def logicalFingerprint (axioms extensions : List Node) : Fingerprint where
  schema := 2
  digest :=
    let logical := (axioms.filter fun item => item.constructor ∈ logicalAxiomTypes).map fun item =>
      (withoutAnnotations item).bytes
    hash.digest (utf8Encode "pyowl-core:snapshot-logical:v2\x00" ++
      utf8Encode "datatype-policy:owl2-v1\x00" ++ framedSet [] logical ++
      framedSet (utf8Encode "E") (extensions.map fun item => (withoutAnnotations item).bytes))

/-- `walk`: a value and all values inside it. -/
def Node.walk : Node → List Node :=
  Node.para fun n fields => n :: fields.flatMap fun v => v.nodes.flatten

/-- `_collect_signature`: the entities of the roots in canonical order. -/
def collectSignature (roots : List Node) : List Node :=
  KeyedSet.ofList Node.bytes
    ((roots.flatMap Node.walk).filter fun node => node.constructor = .entity)

/-- `signature_fingerprint` with the built-in entities included. -/
def signatureFingerprint (values : List Node) : Fingerprint where
  schema := 2
  digest := hash.digest (utf8Encode "pyowl-core:snapshot-signature:v2\x00" ++ [1] ++
    framedSet [] (values.map Node.bytes))

structure Fingerprints where
  structural : Fingerprint
  logical : Fingerprint
  signature : Fingerprint
  deriving DecidableEq

def contentFingerprints (structural : Fingerprint) (annotations axioms extensions : List Node) :
    Fingerprints where
  structural := structural
  logical := logicalFingerprint hash axioms extensions
  signature := signatureFingerprint hash (collectSignature (annotations ++ axioms ++ extensions))

end

end OwlCore
