import OwlCore.Model.Registry

/-!
# Field schema

What each constructor requires of its fields, in the order of its checks. A member of a family
takes its row from the family's checking function, with its own class name in the field paths.
Fields marked `own` are checked by the body of their constructor.
-/
namespace OwlCore

/-- A class that `isinstance` is asked about. -/
inductive NodeClass where
  | anyEntity
  | entity (kind : EntityKind)
  | ofConstructor (c : Constructor)
  deriving DecidableEq, Repr

inductive FieldCheck where
  | own
  | node (expected : List NodeClass)
  | canonicalSet (expected : List NodeClass) (minimum : Nat) (flatten : Option Constructor)
  | structuralTuple (expected : List NodeClass) (minimum : Nat)
  | nonnegativeInteger
  | annotations
  deriving DecidableEq, Repr

structure FieldSpec where
  name : String
  path : String
  check : FieldCheck
  deriving DecidableEq, Repr

namespace Schema

open NodeClass Constructor

def iriClass : NodeClass := ofConstructor iri
def literalClass : NodeClass := ofConstructor literal
def annotationClass : NodeClass := ofConstructor annotationNode
def classClass : NodeClass := entity .class
def datatypeClass : NodeClass := entity .datatype
def objectPropertyClass : NodeClass := entity .objectProperty
def dataPropertyClass : NodeClass := entity .dataProperty
def annotationPropertyClass : NodeClass := entity .annotationProperty

def individualTypes : List NodeClass := [entity .namedIndividual, ofConstructor anonymousIndividual]

def annotationSubjectTypes : List NodeClass := [iriClass, ofConstructor anonymousIndividual]

def annotationValueTypes : List NodeClass :=
  [iriClass, literalClass, ofConstructor anonymousIndividual]

def objectPropertyExpressionTypes : List NodeClass :=
  [objectPropertyClass, ofConstructor objectInverseOf]

def subObjectPropertyExpressionTypes : List NodeClass :=
  [objectPropertyClass, ofConstructor objectInverseOf, ofConstructor objectPropertyChain]

def dataRangeTypes : List NodeClass :=
  [datatypeClass, ofConstructor dataIntersectionOf, ofConstructor dataUnionOf,
    ofConstructor dataComplementOf, ofConstructor dataOneOf, ofConstructor datatypeRestriction]

def classExpressionTypes : List NodeClass :=
  [classClass, ofConstructor objectIntersectionOf, ofConstructor objectUnionOf,
    ofConstructor objectComplementOf, ofConstructor objectOneOf,
    ofConstructor objectSomeValuesFrom, ofConstructor objectAllValuesFrom,
    ofConstructor objectHasValue, ofConstructor objectHasSelf,
    ofConstructor objectMinCardinality, ofConstructor objectMaxCardinality,
    ofConstructor objectExactCardinality, ofConstructor dataSomeValuesFrom,
    ofConstructor dataAllValuesFrom, ofConstructor dataHasValue,
    ofConstructor dataMinCardinality, ofConstructor dataMaxCardinality,
    ofConstructor dataExactCardinality]

def individualArgumentTypes : List NodeClass :=
  [entity .namedIndividual, ofConstructor anonymousIndividual, ofConstructor variableNode]

def dataArgumentTypes : List NodeClass := [literalClass, ofConstructor variableNode]

def atomTypes : List NodeClass :=
  [ofConstructor classAtom, ofConstructor dataRangeAtom, ofConstructor objectPropertyAtom,
    ofConstructor dataPropertyAtom, ofConstructor builtInAtom, ofConstructor sameIndividualAtom,
    ofConstructor differentIndividualsAtom]

/-- A field of `owner`, named in errors by its dotted path. -/
def field (owner : Constructor) (name : String) (check : FieldCheck) : FieldSpec :=
  ⟨name, owner.name ++ "." ++ name, check⟩

/-- The `annotations` field as `normalize_annotations` checks it, without an owner in its path. -/
def annotations : FieldSpec := ⟨"annotations", "annotations", .annotations⟩

section

variable (owner : Constructor)

def objectRestriction : List FieldSpec :=
  [field owner "property" (.node objectPropertyExpressionTypes), field owner "filler" (.node classExpressionTypes)]

def objectCardinality : List FieldSpec :=
  field owner "cardinality" .nonnegativeInteger :: objectRestriction owner

def dataQuantifier : List FieldSpec :=
  [field owner "properties" (.structuralTuple [dataPropertyClass] 1), field owner "filler" (.node dataRangeTypes)]

def dataCardinality : List FieldSpec :=
  [field owner "cardinality" .nonnegativeInteger, field owner "property" (.node [dataPropertyClass]),
    field owner "filler" (.node dataRangeTypes)]

/-- Operands of an intersection or a union, with nested ones of the same class spliced in. -/
def flattened (expected : List NodeClass) : List FieldSpec :=
  [field owner "operands" (.canonicalSet expected 2 (some owner))]

def objectPropertyClassAxiom (name : String) : List FieldSpec :=
  [field owner "property" (.node objectPropertyExpressionTypes),
    field owner name (.node classExpressionTypes), annotations]

def objectPropertyCharacteristic : List FieldSpec :=
  [field owner "property" (.node objectPropertyExpressionTypes), annotations]

def individualSetAxiom : List FieldSpec :=
  [field owner "individuals" (.canonicalSet individualTypes 2 none), annotations]

def objectAssertion : List FieldSpec :=
  [field owner "property" (.node objectPropertyExpressionTypes),
    field owner "source" (.node individualTypes), field owner "target" (.node individualTypes),
    annotations]

def dataAssertion : List FieldSpec :=
  [field owner "property" (.node [dataPropertyClass]), field owner "source" (.node individualTypes),
    field owner "value" (.node [literalClass]), annotations]

def annotationPropertyIriAxiom (name : String) : List FieldSpec :=
  [field owner "property" (.node [annotationPropertyClass]), field owner name (.node [iriClass]), annotations]

def setAxiom (name : String) (expected : List NodeClass) : List FieldSpec :=
  [field owner name (.canonicalSet expected 2 none), annotations]

def pairAxiom (first : String) (firstTypes : List NodeClass) (second : String)
    (secondTypes : List NodeClass) : List FieldSpec :=
  [field owner first (.node firstTypes), field owner second (.node secondTypes), annotations]

def individualPair : List FieldSpec :=
  [field owner "first" (.node individualArgumentTypes), field owner "second" (.node individualArgumentTypes)]

end

end Schema

open Schema in
def Constructor.fieldSpecs (c : Constructor) : List FieldSpec :=
  match c with
  | .iri => [field c "value" .own]
  | .entity => [field c "kind" .own, field c "iri" (.node [iriClass])]
  | .anonymousIndividual => [field c "document_scope" .own, field c "local_key" .own]
  | .literal => [field c "lexical_form" .own, field c "datatype" .own, field c "language" .own]
  | .annotationNode =>
    [field c "property" (.node [annotationPropertyClass]), field c "value" (.node annotationValueTypes),
      field c "annotations" (.canonicalSet [annotationClass] 0 none)]
  | .objectInverseOf => [field c "property" (.node [objectPropertyClass])]
  | .objectPropertyChain =>
    [field c "properties" (.structuralTuple objectPropertyExpressionTypes 2)]
  | .facetRestriction => [field c "facet" (.node [iriClass]), field c "value" (.node [literalClass])]
  | .dataIntersectionOf | .dataUnionOf => flattened c dataRangeTypes
  | .dataComplementOf => [field c "operand" (.node dataRangeTypes)]
  | .dataOneOf => [field c "values" (.canonicalSet [literalClass] 1 none)]
  | .datatypeRestriction =>
    [field c "datatype" (.node [datatypeClass]),
      field c "restrictions" (.canonicalSet [.ofConstructor .facetRestriction] 1 none)]
  | .objectIntersectionOf | .objectUnionOf => flattened c classExpressionTypes
  | .objectComplementOf => [field c "operand" (.node classExpressionTypes)]
  | .objectOneOf => [field c "individuals" (.canonicalSet individualTypes 1 none)]
  | .objectSomeValuesFrom | .objectAllValuesFrom => objectRestriction c
  | .objectHasValue =>
    [field c "property" (.node objectPropertyExpressionTypes), field c "value" (.node individualTypes)]
  | .objectHasSelf => [field c "property" (.node objectPropertyExpressionTypes)]
  | .objectMinCardinality | .objectMaxCardinality | .objectExactCardinality => objectCardinality c
  | .dataSomeValuesFrom | .dataAllValuesFrom => dataQuantifier c
  | .dataHasValue =>
    [field c "property" (.node [dataPropertyClass]), field c "value" (.node [literalClass])]
  | .dataMinCardinality | .dataMaxCardinality | .dataExactCardinality => dataCardinality c
  | .declaration => [field c "entity" (.node [.anyEntity]), annotations]
  | .subClassOf => pairAxiom c "sub_class" classExpressionTypes "super_class" classExpressionTypes
  | .equivalentClasses | .disjointClasses => setAxiom c "expressions" classExpressionTypes
  | .disjointUnion =>
    field c "defined_class" (.node [classClass]) :: setAxiom c "expressions" classExpressionTypes
  | .subObjectPropertyOf =>
    pairAxiom c "sub_property" subObjectPropertyExpressionTypes
      "super_property" objectPropertyExpressionTypes
  | .equivalentObjectProperties | .disjointObjectProperties =>
    setAxiom c "properties" objectPropertyExpressionTypes
  | .inverseObjectProperties =>
    pairAxiom c "first" objectPropertyExpressionTypes "second" objectPropertyExpressionTypes
  | .objectPropertyDomain => objectPropertyClassAxiom c "domain"
  | .objectPropertyRange => objectPropertyClassAxiom c "range"
  | .functionalObjectProperty | .inverseFunctionalObjectProperty | .reflexiveObjectProperty
  | .irreflexiveObjectProperty | .symmetricObjectProperty | .asymmetricObjectProperty
  | .transitiveObjectProperty => objectPropertyCharacteristic c
  | .subDataPropertyOf =>
    pairAxiom c "sub_property" [dataPropertyClass] "super_property" [dataPropertyClass]
  | .equivalentDataProperties | .disjointDataProperties =>
    setAxiom c "properties" [dataPropertyClass]
  | .dataPropertyDomain => pairAxiom c "property" [dataPropertyClass] "domain" classExpressionTypes
  | .dataPropertyRange => pairAxiom c "property" [dataPropertyClass] "range" dataRangeTypes
  | .functionalDataProperty => [field c "property" (.node [dataPropertyClass]), annotations]
  | .datatypeDefinition => pairAxiom c "datatype" [datatypeClass] "data_range" dataRangeTypes
  | .hasKey =>
    [field c "class_expression" (.node classExpressionTypes),
      field c "object_properties" (.canonicalSet objectPropertyExpressionTypes 0 none),
      field c "data_properties" (.canonicalSet [dataPropertyClass] 0 none), annotations]
  | .sameIndividual | .differentIndividuals => individualSetAxiom c
  | .classAssertion =>
    pairAxiom c "class_expression" classExpressionTypes "individual" individualTypes
  | .objectPropertyAssertion | .negativeObjectPropertyAssertion => objectAssertion c
  | .dataPropertyAssertion | .negativeDataPropertyAssertion => dataAssertion c
  | .annotationAssertion =>
    [field c "property" (.node [annotationPropertyClass]),
      field c "subject" (.node annotationSubjectTypes), field c "value" (.node annotationValueTypes),
      annotations]
  | .subAnnotationPropertyOf =>
    pairAxiom c "sub_property" [annotationPropertyClass] "super_property" [annotationPropertyClass]
  | .annotationPropertyDomain => annotationPropertyIriAxiom c "domain"
  | .annotationPropertyRange => annotationPropertyIriAxiom c "range"
  | .variableNode => [field c "iri" (.node [iriClass])]
  | .classAtom =>
    [field c "predicate" (.node classExpressionTypes), field c "argument" (.node individualArgumentTypes)]
  | .dataRangeAtom =>
    [field c "predicate" (.node dataRangeTypes), field c "argument" (.node dataArgumentTypes)]
  | .objectPropertyAtom =>
    [field c "predicate" (.node objectPropertyExpressionTypes), field c "source" (.node individualArgumentTypes),
      field c "target" (.node individualArgumentTypes)]
  | .dataPropertyAtom =>
    [field c "predicate" (.node [dataPropertyClass]),
      field c "source" (.node individualArgumentTypes), field c "target" (.node dataArgumentTypes)]
  | .builtInAtom =>
    [field c "predicate" (.node [iriClass]), field c "arguments" (.structuralTuple dataArgumentTypes 0)]
  | .sameIndividualAtom | .differentIndividualsAtom => individualPair c
  | .swrlRule =>
    [field c "body" (.canonicalSet atomTypes 0 none), field c "head" (.canonicalSet atomTypes 0 none), annotations]

def Constructor.arity (c : Constructor) : Nat := c.fieldSpecs.length

end OwlCore
