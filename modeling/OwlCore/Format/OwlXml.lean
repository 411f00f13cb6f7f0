import OwlCore.Document.Origins
import OwlCore.Format.Render
import OwlCore.Model.Literals

/-!
# OWL/XML trees

`render_owlxml` builds a tree of elements and `OWLXMLParser` reads one. A method of the parser
is a `Reader`: it looks at the name and asks each child for the reading it calls for. Axioms,
class expressions and data ranges share a few ways to read children; a table says which.
-/
namespace OwlCore

open Schema

namespace Element

def tag : Element → String
  | mk tag _ _ _ => tag

def attributes : Element → List (String × String)
  | mk _ attributes _ _ => attributes

def text : Element → Option String
  | mk _ _ text _ => text

def children : Element → List Element
  | mk _ _ _ children => children

def get (element : Element) (key : String) : Option String := element.attributes.lookup key

end Element

namespace OwlXml

/-- Functions of the interpreter that the parser calls; below `10 ** 4300` they undo `str`. -/
structure Interpreter where
  isdigit : String → Bool
  int : String → Except Error Nat
  repr : String → String
  decimal : ∀ n : Nat, n < 10 ^ 4300 → isdigit (toString n) = true ∧ int (toString n) = .ok n

def owlNs : String := "http://www.w3.org/2002/07/owl#"

/-- `_namespace`. -/
def namespaceOf (tag : String) : String :=
  match tag.toList with
  | '\x7b' :: rest => String.ofList (rest.takeWhile (· ≠ '\x7d'))
  | _ => ""

/-- `_local`. -/
def localOf (tag : String) : String := String.ofList (tag.toList.reverse.takeWhile (· ≠ '\x7d')).reverse

/-- The characters that `str.strip` removes. -/
def isSpace (c : Char) : Bool :=
  0x09 ≤ c.toNat && c.toNat ≤ 0x0D || 0x1C ≤ c.toNat && c.toNat ≤ 0x20 || c.toNat == 0x85 || c.toNat == 0xA0 ||
    c.toNat == 0x1680 || 0x2000 ≤ c.toNat && c.toNat ≤ 0x200A || c.toNat == 0x2028 || c.toNat == 0x2029 ||
    c.toNat == 0x202F || c.toNat == 0x205F || c.toNat == 0x3000

def strip (text : String) : String :=
  String.ofList (((text.toList.dropWhile isSpace).reverse.dropWhile isSpace).reverse)

/-- `_syntax`. -/
def reject {α : Type} (message : String) : Except Error α := .error (.ontologySyntax message)

/-- What `_arity` raises. -/
def rejectArity {α : Type} (name : String) (expected : Nat) : Except Error α :=
  reject (name ++ " requires exactly " ++ toString expected ++ " child element(s)")

def enforce (limit : String) (value bound : Nat) : Except Error Unit :=
  if value ≤ bound then .ok () else .error (.resourceLimit limit value bound)

def name (element : Element) : Except Error String :=
  if namespaceOf element.tag ≠ owlNs then reject "all OWL/XML structural elements must use the OWL namespace"
  else .ok (localOf element.tag)

/-- A method of the parser that returns a structural value. -/
inductive Reader where
  | entity
  | entityOf (kind : EntityKind)
  | objectProperty | subObjectProperty | classExpression | dataRange | facet
  | individual | literal | iriElement | annotationSubject | annotationValue | annotationElement
  deriving DecidableEq, Repr

structure Child where
  element : Element
  read : Reader → Except Error Node

section

variable (hash : Hash) (interpreter : Interpreter) (limits : ParseLimits) (prefixes : List (String × String))

/-- `_expand`. -/
def expandIri (value : String) : Except Error Node :=
  if ':' ∉ value.toList then reject "abbreviatedIRI requires a prefix"
  else
    let key := String.ofList (value.toList.takeWhile (· ≠ ':')) ++ ":"
    match Dictionary.get? prefixes key with
    | some base => construct .iri [.text (base ++ String.ofList ((value.toList.dropWhile (· ≠ ':')).drop 1))]
    | none => reject ("undefined OWL/XML prefix " ++ interpreter.repr key)

def entityIri (element : Element) : Except Error Node :=
  match element.get "IRI", element.get "abbreviatedIRI" with
  | some direct, none => construct .iri [.text direct]
  | none, some abbreviated => expandIri interpreter prefixes abbreviated
  | _, _ => reject "entity element requires exactly one of IRI or abbreviatedIRI"

def entityNode (kind : EntityKind) (element : Element) : Except Error Node := do
  let iri ← entityIri interpreter prefixes element
  construct .entity [.enum kind, .node iri]

/-- `_class`, `_datatype`, `_data_property` and `_annotation_property`. -/
def typedEntity (kind : EntityKind) (element : Element) : Except Error Node := do
  let found ← name element
  if found ≠ kind.className then reject ("expected " ++ kind.className)
  else entityNode interpreter prefixes kind element

def entity (element : Element) : Except Error Node := do
  let found ← name element
  match EntityKind.all.find? fun kind => kind.className = found with
  | some kind => entityNode interpreter prefixes kind element
  | none => reject "expected an OWL entity element"

def individual (element : Element) : Except Error Node := do
  let found ← name element
  if found = "NamedIndividual" then entityNode interpreter prefixes .namedIndividual element
  else if found = "AnonymousIndividual" then
    match element.get "nodeID" with
    | some nodeId =>
      if nodeId = "" then reject "AnonymousIndividual requires nodeID"
      else .ok (provisionalAnonymous hash nodeId).node
    | none => reject "AnonymousIndividual requires nodeID"
  else reject "expected an individual"

/-- `element.get("lang") or element.get(...)`. -/
def languageOf (element : Element) : Option String :=
  match element.get "lang" with
  | some tag => if tag = "" then element.get "\x7bhttp://www.w3.org/XML/1998/namespace\x7dlang" else some tag
  | none => element.get "\x7bhttp://www.w3.org/XML/1998/namespace\x7dlang"

def literal (element : Element) : Except Error Node := do
  let found ← name element
  if found ≠ "Literal" then reject "expected Literal"
  else
    let lexical := element.text.getD ""
    enforce "max_literal_bytes" (utf8Encode lexical).length limits.maxLiteralBytes
    match languageOf element, element.get "datatypeIRI" with
    | some tag, _ => construct .literal [.text lexical, .node plainLiteral, .text tag]
    | none, none => construct .literal [.text lexical, .node plainLiteral, .none]
    | none, some value =>
      let iri ← construct .iri [.text value]
      let datatype ← construct .entity [.enum .datatype, .node iri]
      construct .literal [.text lexical, .node datatype, .none]

def iriElement (element : Element) : Except Error Node := do
  let found ← name element
  let text := strip (element.text.getD "")
  if found = "IRI" then construct .iri [.text text]
  else if found = "AbbreviatedIRI" then expandIri interpreter prefixes text
  else reject "expected IRI or AbbreviatedIRI element"

def annotationSubject (element : Element) : Except Error Node := do
  let found ← name element
  if found = "AnonymousIndividual" then individual hash interpreter prefixes element
  else iriElement interpreter prefixes element

def annotationValue (element : Element) : Except Error Node := do
  let found ← name element
  if found = "Literal" then literal limits element
  else if found = "AnonymousIndividual" then individual hash interpreter prefixes element
  else iriElement interpreter prefixes element

def cardinality (element : Element) : Except Error Nat :=
  match element.get "cardinality" with
  | some value =>
    if interpreter.isdigit value then interpreter.int value
    else reject "cardinality attribute must be a nonnegative integer"
  | none => reject "cardinality attribute must be a nonnegative integer"

end

section

variable (interpreter : Interpreter) (limits : ParseLimits) (prefixes : List (String × String))

def objectProperty (element : Element) (children : List Child) : Except Error Node := do
  let found ← name element
  if found = "ObjectProperty" then entityNode interpreter prefixes .objectProperty element
  else if found = "ObjectInverseOf" then
    match children with
    | [child] => do
      let prop ← child.read .objectProperty
      if prop.isInstance [objectPropertyClass] then construct .objectInverseOf [.node prop]
      else reject "ObjectInverseOf cannot directly contain another inverse"
    | _ => rejectArity found 1
  else reject "expected an object property expression"

def subObjectProperty (element : Element) (children : List Child) : Except Error Node := do
  let found ← name element
  if found = "ObjectPropertyChain" then do
    let properties ← children.mapM fun child => child.read .objectProperty
    construct .objectPropertyChain [.tuple (properties.map .node)]
  else objectProperty interpreter prefixes element children

def facet (element : Element) (children : List Child) : Except Error Node := do
  let found ← name element
  if found ≠ "FacetRestriction" then reject "expected FacetRestriction"
  else match element.get "facet", children with
    | some facet, [child] => do
      let iri ← construct .iri [.text facet]
      let value ← child.read .literal
      construct .facetRestriction [.node iri, .node value]
    | _, _ => reject "FacetRestriction requires facet and one Literal"

/-- `CanonicalSet(map(reader, children))`. -/
def readSet (reader : Reader) (children : List Child) : Except Error (List Node) := do
  let entries ← children.mapM fun child => do
    let value ← child.read reader
    keyed value
  pure ((KeyedSet.ofList Prod.fst entries).map Prod.snd)

def readNamed (names : List String) (reader : Reader) : List Child → Except Error (List Node)
  | [] => .ok []
  | child :: rest => do
    let found ← name child.element
    if found ∈ names then do
      let value ← child.read reader
      let values ← readNamed names reader rest
      .ok (value :: values)
    else readNamed names reader rest

/-- The loop of `_leading_annotations`, with the annotations read so far counted. -/
def leading : Nat → List Child → Except Error (List Node × List Child)
  | _, [] => .ok ([], [])
  | count, child :: rest => do
    let found ← name child.element
    if found = "Annotation" then do
      let value ← child.read .annotationElement
      enforce "max_annotations" (count + 1) limits.maxAnnotations
      let (values, others) ← leading (count + 1) rest
      .ok (value :: values, others)
    else .ok ([], child :: rest)

def leadingAnnotations (children : List Child) : Except Error (List Node × List Child) := do
  let (values, others) ← leading limits 0 children
  let annotations ← canonicalSetOf values
  .ok (annotations, others)

/-- How the children of an element become the arguments of a class. -/
inductive Form where
  /-- as many children as readers, one each -/
  | positional (readers : List Reader)
  /-- one set -/
  | members (reader : Reader)
  /-- one value, then a set -/
  | headed (minimum : Nat) (message : String) (head members : Reader)
  /-- data properties, then a data range -/
  | quantified
  /-- the attribute, a property and an optional filler -/
  | counted (property filler : Reader) (absent : Node)
  | hasKey

def owlThing : Node := .mk .entity [.enum .class, .node (.mk .iri [.text (owlNs ++ "Thing")])]

def rdfsLiteral : Node :=
  .mk .entity [.enum .datatype, .node (.mk .iri [.text "http://www.w3.org/2000/01/rdf-schema#Literal"])]

/-- The branches of `_axiom`. -/
def axiomForm : Constructor → Option Form
  | .declaration => some (.positional [.entity])
  | .subClassOf => some (.positional [.classExpression, .classExpression])
  | .equivalentClasses | .disjointClasses => some (.members .classExpression)
  | .disjointUnion => some (.headed 3 "DisjointUnion requires a class and at least two expressions"
      (.entityOf .class) .classExpression)
  | .subObjectPropertyOf => some (.positional [.subObjectProperty, .objectProperty])
  | .equivalentObjectProperties | .disjointObjectProperties => some (.members .objectProperty)
  | .inverseObjectProperties => some (.positional [.objectProperty, .objectProperty])
  | .objectPropertyDomain | .objectPropertyRange => some (.positional [.objectProperty, .classExpression])
  | .functionalObjectProperty | .inverseFunctionalObjectProperty | .reflexiveObjectProperty
  | .irreflexiveObjectProperty | .symmetricObjectProperty | .asymmetricObjectProperty
  | .transitiveObjectProperty => some (.positional [.objectProperty])
  | .subDataPropertyOf => some (.positional [.entityOf .dataProperty, .entityOf .dataProperty])
  | .equivalentDataProperties | .disjointDataProperties => some (.members (.entityOf .dataProperty))
  | .dataPropertyDomain => some (.positional [.entityOf .dataProperty, .classExpression])
  | .dataPropertyRange => some (.positional [.entityOf .dataProperty, .dataRange])
  | .functionalDataProperty => some (.positional [.entityOf .dataProperty])
  | .datatypeDefinition => some (.positional [.entityOf .datatype, .dataRange])
  | .hasKey => some .hasKey
  | .sameIndividual | .differentIndividuals => some (.members .individual)
  | .classAssertion => some (.positional [.classExpression, .individual])
  | .objectPropertyAssertion | .negativeObjectPropertyAssertion =>
    some (.positional [.objectProperty, .individual, .individual])
  | .dataPropertyAssertion | .negativeDataPropertyAssertion =>
    some (.positional [.entityOf .dataProperty, .individual, .literal])
  | .annotationAssertion =>
    some (.positional [.entityOf .annotationProperty, .annotationSubject, .annotationValue])
  | .subAnnotationPropertyOf =>
    some (.positional [.entityOf .annotationProperty, .entityOf .annotationProperty])
  | .annotationPropertyDomain | .annotationPropertyRange =>
    some (.positional [.entityOf .annotationProperty, .iriElement])
  | _ => none

/-- The branches of `_class_expression` after the first. -/
def classExpressionForm : Constructor → Option Form
  | .objectIntersectionOf | .objectUnionOf => some (.members .classExpression)
  | .objectComplementOf => some (.positional [.classExpression])
  | .objectOneOf => some (.members .individual)
  | .objectSomeValuesFrom | .objectAllValuesFrom => some (.positional [.objectProperty, .classExpression])
  | .objectHasValue => some (.positional [.objectProperty, .individual])
  | .objectHasSelf => some (.positional [.objectProperty])
  | .objectMinCardinality | .objectMaxCardinality | .objectExactCardinality =>
    some (.counted .objectProperty .classExpression owlThing)
  | .dataSomeValuesFrom | .dataAllValuesFrom => some .quantified
  | .dataHasValue => some (.positional [.entityOf .dataProperty, .literal])
  | .dataMinCardinality | .dataMaxCardinality | .dataExactCardinality =>
    some (.counted (.entityOf .dataProperty) .dataRange rdfsLiteral)
  | _ => none

/-- The branches of `_data_range` after the first. -/
def dataRangeForm : Constructor → Option Form
  | .dataIntersectionOf | .dataUnionOf => some (.members .dataRange)
  | .dataComplementOf => some (.positional [.dataRange])
  | .dataOneOf => some (.members .literal)
  | .datatypeRestriction => some (.headed 2 "DatatypeRestriction requires a datatype and facet restriction"
      (.entityOf .datatype) .facet)
  | _ => none

/-- The arguments that an element hands to the class it names, annotations apart. -/
def arguments (found : String) (element : Element) (children : List Child) : Form → Except Error (List Arg)
  | .positional readers =>
    if children.length ≠ readers.length then rejectArity found readers.length
    else do
      let values ← (readers.zip children).mapM fun slot => slot.2.read slot.1
      .ok (values.map .node)
  | .members reader => do
    let values ← readSet reader children
    .ok [.set values]
  | .headed minimum message head members =>
    if children.length < minimum then reject message
    else match children with
      | first :: rest => do
        let value ← first.read head
        let values ← readSet members rest
        .ok [.node value, .set values]
      | [] => reject message
  | .quantified =>
    if children.length < 2 then reject (found ++ " requires properties and a data range")
    else match children.getLast? with
      | some last => do
        let properties ← children.dropLast.mapM fun child => child.read (.entityOf .dataProperty)
        let filler ← last.read .dataRange
        .ok [.tuple (properties.map .node), .node filler]
      | none => reject (found ++ " requires properties and a data range")
  | .counted property filler absent => do
    let count ← cardinality interpreter element
    match children with
    | [first] => do
      let prop ← first.read property
      .ok [.integer count, .node prop, .node absent]
    | [first, second] => do
      let range ← second.read filler
      let prop ← first.read property
      .ok [.integer count, .node prop, .node range]
    | _ => reject (found ++ " requires a property and optional filler")
  | .hasKey =>
    match children with
    | first :: second :: rest => do
      let expression ← first.read .classExpression
      let objectProperties ←
        readNamed ["ObjectProperty", "ObjectInverseOf"] .objectProperty (second :: rest)
      let dataProperties ← readNamed ["DataProperty"] (.entityOf .dataProperty) (second :: rest)
      if objectProperties.length + dataProperties.length ≠ (second :: rest).length then
        reject "HasKey contains an invalid property expression"
      else do
        let objectProperties ← canonicalSetOf objectProperties
        let dataProperties ← canonicalSetOf dataProperties
        .ok [.node expression, .set objectProperties, .set dataProperties]
    | _ => reject "HasKey requires a class expression and a property"

/-- The class that an element names, with its row of a table. -/
def formOf (table : Constructor → Option Form) (found : String) : Option (Constructor × Form) := do
  let c ← Constructor.all.find? fun c => c.name = found
  let form ← table c
  some (c, form)

/-- `_class_expression` and `_data_range`: a named one, or a row of the table. -/
def expression (kind : EntityKind) (table : Constructor → Option Form) (noun : String) (element : Element)
    (children : List Child) : Except Error Node := do
  let found ← name element
  if found = kind.className then typedEntity interpreter prefixes kind element
  else match formOf table found with
    | some (c, form) => do
      let args ← arguments interpreter found element children form
      construct c args
    | none => reject ("unknown OWL/XML " ++ noun ++ " " ++ interpreter.repr found)

def classExpression (element : Element) (children : List Child) : Except Error Node :=
  expression interpreter prefixes .class classExpressionForm "class expression" element children

def dataRange (element : Element) (children : List Child) : Except Error Node :=
  expression interpreter prefixes .datatype dataRangeForm "data range" element children

/-- `_annotation`. -/
def annotationElement (children : List Child) : Except Error Node := do
  let (annotations, others) ← leadingAnnotations limits children
  match others with
  | [property, value] => do
    let property ← property.read (.entityOf .annotationProperty)
    let value ← value.read .annotationValue
    construct .annotationNode [.node property, .node value, .set annotations]
  | _ => rejectArity "Annotation" 2

/-- `_axiom`. -/
def axiomNode (element : Element) (children : List Child) : Except Error Node := do
  let found ← name element
  let (annotations, others) ← leadingAnnotations limits children
  match formOf axiomForm found with
  | some (c, form) => do
    let args ← arguments interpreter found element others form
    construct c (args ++ [.set annotations])
  | none => reject ("unknown OWL/XML axiom element " ++ interpreter.repr found)

end

section

variable (hash : Hash) (interpreter : Interpreter) (limits : ParseLimits) (prefixes : List (String × String))

def readElement (element : Element) (children : List Child) : Reader → Except Error Node
  | .entity => entity interpreter prefixes element
  | .entityOf kind => typedEntity interpreter prefixes kind element
  | .objectProperty => objectProperty interpreter prefixes element children
  | .subObjectProperty => subObjectProperty interpreter prefixes element children
  | .classExpression => classExpression interpreter prefixes element children
  | .dataRange => dataRange interpreter prefixes element children
  | .facet => facet element children
  | .individual => individual hash interpreter prefixes element
  | .literal => literal limits element
  | .iriElement => iriElement interpreter prefixes element
  | .annotationSubject => annotationSubject hash interpreter prefixes element
  | .annotationValue => annotationValue hash interpreter limits prefixes element
  | .annotationElement => annotationElement limits children

mutual

def reading : Element → Reader → Except Error Node
  | .mk tag attributes text children =>
    readElement hash interpreter limits prefixes (.mk tag attributes text children) (readings children)

def readings : List Element → List Child
  | [] => []
  | element :: rest => ⟨element, reading element⟩ :: readings rest

end

theorem readings_eq (elements : List Element) : readings hash interpreter limits prefixes elements =
    elements.map fun element => ⟨element, reading hash interpreter limits prefixes element⟩ := by
  induction elements with
  | nil => rfl
  | cons element rest ih => rw [readings, ih, List.map_cons]

end

section

/-- The lists that `parse` fills. -/
structure State where
  prefixes : List (String × String)
  imports : List Node
  annotations : List Node
  axioms : List Node
  occurrences : List (Node × Option Unit)

def initialState : State where
  prefixes := [("owl:", owlNs), ("rdf:", "http://www.w3.org/1999/02/22-rdf-syntax-ns#"),
    ("rdfs:", "http://www.w3.org/2000/01/rdf-schema#"), ("xsd:", "http://www.w3.org/2001/XMLSchema#")]
  imports := []
  annotations := []
  axioms := []
  occurrences := []

/-- The text of `iri.value`. -/
def iriText (iri : Node) : String := String.join (iri.fields.map fieldText)

variable (hash : Hash) (interpreter : Interpreter) (limits : ParseLimits)

/-- The body of the loop of `parse`. -/
def parseChild (s : State) (child : Element) : Except Error State := do
  let found ← name child
  if found = "Prefix" then
    match child.get "name", child.get "IRI" with
    | some key, some value => do
      let iri ← construct .iri [.text value]
      let prefixes := Dictionary.assign s.prefixes key (iriText iri)
      enforce "max_prefixes" prefixes.length limits.maxPrefixes
      .ok { s with prefixes }
    | _, _ => reject "Prefix requires name and IRI attributes"
  else if found = "Import" then do
    let iri ← construct .iri [.text (strip (child.text.getD ""))]
    .ok { s with imports := s.imports ++ [iri] }
  else if found = "Annotation" then do
    let value ← reading hash interpreter limits s.prefixes child .annotationElement
    .ok { s with annotations := s.annotations ++ [value], occurrences := s.occurrences ++ [(value, none)] }
  else do
    let value ← axiomNode interpreter limits child (readings hash interpreter limits s.prefixes child.children)
    enforce "max_axioms" (s.axioms.length + 1) limits.maxAxioms
    .ok { s with axioms := s.axioms ++ [value], occurrences := s.occurrences ++ [(value, none)] }

def optionalAttributeIri (element : Element) (key : String) : Except Error (Option Node) :=
  match element.get key with
  | none => .ok none
  | some value => some <$> construct .iri [.text value]

/-- `OntologyID(ontology_iri, version_iri)`. -/
def ontologyIdOf (ontologyIri versionIri : Option Node) : Except Error OntologyID :=
  if h : versionIri ≠ none → ontologyIri ≠ none then .ok ⟨ontologyIri, versionIri, h⟩
  else .error (.valueError "version_iri requires ontology_iri")

def parse (root : Element) : Except Error (ParsedOntology Unit) := do
  let ontologyIri ← optionalAttributeIri root "ontologyIRI"
  let versionIri ← optionalAttributeIri root "versionIRI"
  let s ← root.children.foldlM (parseChild hash interpreter limits) initialState
  let ontologyId ← ontologyIdOf ontologyIri versionIri
  .ok ⟨⟨ontologyId, s.imports, s.annotations, s.axioms, []⟩, s.occurrences⟩

mutual

/-- `ET.indent`: blank text in front of the first child, at every level. -/
def indent : Nat → Element → Element
  | level, .mk tag attributes text children =>
    .mk tag attributes (if children.isEmpty ∨ strip (text.getD "") ≠ "" then text
      else some ("\n" ++ String.join (List.replicate (level + 1) "  "))) (indentAll (level + 1) children)

def indentAll : Nat → List Element → List Element
  | _, [] => []
  | level, element :: rest => indent level element :: indentAll level rest

end

def identityAttribute (key : String) (iri : Option Node) : List (String × String) :=
  match iri with
  | some iri => [(key, iriText iri)]
  | none => []

def importElement (iri : Node) : Element := .mk (owlTag "Import") [] (some (iriText iri)) []

/-- What `render_owlxml` raises. -/
inductive RenderError where
  | unsupportedSyntax (message code : String)
  | raised (error : Error)

/-- The root that `render_owlxml` fills, before it is indented. -/
def ontologyElement (document : OntologyDocument) : Except Error Element := do
  let annotations ← document.ontologyAnnotations.mapM xmlNode
  let axioms ← document.axioms.mapM xmlNode
  .ok (.mk (owlTag "Ontology")
    (identityAttribute "ontologyIRI" document.ontologyId.ontologyIri ++
      identityAttribute "versionIRI" document.ontologyId.versionIri) none
    (document.directImports.map importElement ++ annotations ++ axioms))

/-- The tree of `render_owlxml`. -/
def renderOwlxml (document : OntologyDocument) : Except RenderError Element :=
  if document.extensionComponents ≠ [] then
    .error (.unsupportedSyntax "OWL/XML has no standard SWRL structural extension serialization"
      "OWLXML_EXTENSION_UNSUPPORTED")
  else match ontologyElement document with
    | .ok root => .ok (indent 0 root)
    | .error error => .error (.raised error)

end

end OwlXml

end OwlCore
