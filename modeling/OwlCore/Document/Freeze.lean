import OwlCore.Document.Partition
import OwlCore.Anonymous.Complete

/-!
# Freezing a document

`freezeDocumentAnonymous` canonicalizes the components of the blank graph, derives the document
scope from the multiset of their graphs and replaces every label by an individual keyed by its
place: the graph of its component, the ordinal of the component among its copies, and the
position in the canonical order.
-/
namespace OwlCore

/-- The identity of an ontology: IRIs, the version only with an ontology IRI. -/
structure OntologyID where
  ontologyIri : Option Node
  versionIri : Option Node
  version_requires : versionIri ≠ none → ontologyIri ≠ none

theorem OntologyID.unnamed_requires : (none : Option Node) ≠ none → (none : Option Node) ≠ none := id

/-- The arguments of `freeze_document_anonymous`. -/
structure DocumentInput where
  ontologyId : OntologyID
  directImports : List Node
  ontologyAnnotations : List Node
  axioms : List Node
  extensionComponents : List Node

def DocumentInput.roots (input : DocumentInput) : List Node :=
  input.ontologyAnnotations ++ input.axioms ++ input.extensionComponents

/-- The result of `freeze_document_anonymous`. -/
structure FrozenDocument where
  directImports : List Node
  ontologyAnnotations : List Node
  axioms : List Node
  extensionComponents : List Node
  deriving DecidableEq

def ontologyKey (ontologyId : OntologyID) : Except Error Bytes :=
  match ontologyId.ontologyIri with
  | none => .ok (utf8Encode "anonymous-ontology")
  | some ontologyIri => do
    let payload ← canonicalBytes defaultLimits ontologyIri
    match ontologyId.versionIri with
    | none => .ok payload
    | some versionIri => do
      let version ← canonicalBytes defaultLimits versionIri
      .ok (payload ++ version)

abbrev SolvedComponent := BlankComponent × AlphaCanonicalization String

section

variable (hash : Hash) (limits : ParseLimits)

/-- `_canonicalize_blank_components`, without its telemetry. -/
def canonicalizeBlankComponents (components : List BlankComponent) :
    Except Error (List SolvedComponent) :=
  components.mapM fun component => do
    let canonicalization ← alphaCanonicalizeBlankNodes hash limits component.arcs (provisionalScope hash)
      component.labels
    .ok (component, canonicalization)

def componentClass (solved : List SolvedComponent) (graph : Bytes) : List SolvedComponent :=
  (solved.filter fun item => item.2.canonicalGraph = graph).insertionSort
    fun item other => item.1.labels ≤ other.1.labels

/-- The assignments to `replacements`, in order. -/
def componentBindings (scope : Scope) (solved : List SolvedComponent) : List (BlankNodeBinding String) :=
  (KeyedSet.ofList id (solved.map fun item => item.2.canonicalGraph)).flatMap fun graph =>
    (componentClass solved graph).zipIdx.flatMap fun (item, occurrenceOrdinal) =>
      (bindComponentBlankNodes hash item.2 scope occurrenceOrdinal).bindings

/-- The dictionary the assignments leave: the last one to a label counts. -/
def lookupBinding (bindings : List (BlankNodeBinding String)) (label : String) :
    Option AnonymousIndividual :=
  (bindings.reverse.find? fun binding => binding.sourceLabel = label).map (·.individual)

/-- `_replace_blanks` at an anonymous individual. -/
def replaceBlank (bindings : List (BlankNodeBinding String)) (value : AnonymousIndividual) :
    Except Error AnonymousIndividual := do
  match ← provisionalLabel hash value with
  | none => .ok value
  | some label =>
    match lookupBinding bindings label with
    | some individual => .ok individual
    | none => .error (.keyError label)

/-- `CanonicalSet(_replace_blanks(item, replacements) for item in values)`. -/
def replaceBlanks (bindings : List (BlankNodeBinding String)) (values : List Node) :
    Except Error (List Node) := do
  let replaced ← values.mapM (replaceAnonymous (replaceBlank hash bindings))
  canonicalSetOf replaced

/-- The scope preimage of a document is determined by its key and the graphs of its components. -/
def scopePreimage (key : Bytes) (solved : List SolvedComponent) : Bytes :=
  scopeDomain ++ Varint.frame key ++
    Varint.frame (canonicalComponentManifest (solved.map fun item => item.2.canonicalGraph))

def freezeDocumentAnonymous (input : DocumentInput) : Except Error FrozenDocument := do
  let imports ← canonicalSetOf input.directImports
  let components ← partitionBlankGraph hash limits input.roots
  if components = [] then do
    let annotations ← canonicalSetOf input.ontologyAnnotations
    let axioms ← canonicalSetOf input.axioms
    let extensions ← canonicalSetOf input.extensionComponents
    .ok ⟨imports, annotations, axioms, extensions⟩
  else do
    let solved ← canonicalizeBlankComponents hash limits components
    let manifest := canonicalComponentManifest (solved.map fun item => item.2.canonicalGraph)
    let key ← ontologyKey input.ontologyId
    let scope := canonicalDocumentScope hash key manifest
    let bindings := componentBindings hash scope solved
    let annotations ← replaceBlanks hash bindings input.ontologyAnnotations
    let axioms ← replaceBlanks hash bindings input.axioms
    let extensions ← replaceBlanks hash bindings input.extensionComponents
    .ok ⟨imports, annotations, axioms, extensions⟩

end

end OwlCore
