import OwlCore.Lib.Varint

/-!
# Constructors of the structural model

The registered constructors with their schema tags and class names, in registry
order. `Annotation` and `Variable` are spelled with the suffix `Node`.
-/
namespace OwlCore

inductive EntityKind where
  | class : EntityKind
  | datatype | objectProperty | dataProperty | annotationProperty | namedIndividual
  deriving DecidableEq, Repr

namespace EntityKind

def all : List EntityKind :=
  [.class, .datatype, .objectProperty, .dataProperty, .annotationProperty, .namedIndividual]

/-- The string an enumeration member stands for, which is also its wire text. -/
def value : EntityKind → String
  | .class => "class" | .datatype => "datatype" | .objectProperty => "object_property"
  | .dataProperty => "data_property" | .annotationProperty => "annotation_property"
  | .namedIndividual => "named_individual"

def className : EntityKind → String
  | .class => "Class" | .datatype => "Datatype" | .objectProperty => "ObjectProperty"
  | .dataProperty => "DataProperty" | .annotationProperty => "AnnotationProperty"
  | .namedIndividual => "NamedIndividual"

/-- `EntityKind(text)`: the member with this value. -/
def ofValue (text : String) : Option EntityKind := all.find? fun k => k.value = text

theorem ofValue_value (k : EntityKind) : ofValue k.value = some k := by
  cases k <;> decide

end EntityKind

inductive Constructor where
  | iri | entity | anonymousIndividual | literal | annotationNode | objectInverseOf
  | objectPropertyChain | facetRestriction | dataIntersectionOf | dataUnionOf | dataComplementOf
  | dataOneOf | datatypeRestriction | objectIntersectionOf | objectUnionOf | objectComplementOf
  | objectOneOf | objectSomeValuesFrom | objectAllValuesFrom | objectHasValue | objectHasSelf
  | objectMinCardinality | objectMaxCardinality | objectExactCardinality | dataSomeValuesFrom
  | dataAllValuesFrom | dataHasValue | dataMinCardinality | dataMaxCardinality
  | dataExactCardinality | declaration | subClassOf | equivalentClasses | disjointClasses
  | disjointUnion | subObjectPropertyOf | equivalentObjectProperties | disjointObjectProperties
  | inverseObjectProperties | objectPropertyDomain | objectPropertyRange
  | functionalObjectProperty | inverseFunctionalObjectProperty | reflexiveObjectProperty
  | irreflexiveObjectProperty | symmetricObjectProperty | asymmetricObjectProperty
  | transitiveObjectProperty | subDataPropertyOf | equivalentDataProperties
  | disjointDataProperties | dataPropertyDomain | dataPropertyRange | functionalDataProperty
  | datatypeDefinition | hasKey | sameIndividual | differentIndividuals | classAssertion
  | objectPropertyAssertion | negativeObjectPropertyAssertion | dataPropertyAssertion
  | negativeDataPropertyAssertion | annotationAssertion | subAnnotationPropertyOf
  | annotationPropertyDomain | annotationPropertyRange | variableNode | classAtom | dataRangeAtom
  | objectPropertyAtom | dataPropertyAtom | builtInAtom | sameIndividualAtom
  | differentIndividualsAtom | swrlRule
  deriving DecidableEq, Repr

namespace Constructor

def all : List Constructor :=
  [.iri, .entity, .anonymousIndividual, .literal, .annotationNode, .objectInverseOf,
    .objectPropertyChain, .facetRestriction, .dataIntersectionOf, .dataUnionOf,
    .dataComplementOf, .dataOneOf, .datatypeRestriction, .objectIntersectionOf, .objectUnionOf,
    .objectComplementOf, .objectOneOf, .objectSomeValuesFrom, .objectAllValuesFrom,
    .objectHasValue, .objectHasSelf, .objectMinCardinality, .objectMaxCardinality,
    .objectExactCardinality, .dataSomeValuesFrom, .dataAllValuesFrom, .dataHasValue,
    .dataMinCardinality, .dataMaxCardinality, .dataExactCardinality, .declaration, .subClassOf,
    .equivalentClasses, .disjointClasses, .disjointUnion, .subObjectPropertyOf,
    .equivalentObjectProperties, .disjointObjectProperties, .inverseObjectProperties,
    .objectPropertyDomain, .objectPropertyRange, .functionalObjectProperty,
    .inverseFunctionalObjectProperty, .reflexiveObjectProperty, .irreflexiveObjectProperty,
    .symmetricObjectProperty, .asymmetricObjectProperty, .transitiveObjectProperty,
    .subDataPropertyOf, .equivalentDataProperties, .disjointDataProperties,
    .dataPropertyDomain, .dataPropertyRange, .functionalDataProperty, .datatypeDefinition,
    .hasKey, .sameIndividual, .differentIndividuals, .classAssertion, .objectPropertyAssertion,
    .negativeObjectPropertyAssertion, .dataPropertyAssertion, .negativeDataPropertyAssertion,
    .annotationAssertion, .subAnnotationPropertyOf, .annotationPropertyDomain,
    .annotationPropertyRange, .variableNode, .classAtom, .dataRangeAtom, .objectPropertyAtom,
    .dataPropertyAtom, .builtInAtom, .sameIndividualAtom, .differentIndividualsAtom, .swrlRule]

def tag : Constructor → Nat
  | .iri => 1 | .entity => 2 | .anonymousIndividual => 3 | .literal => 4 | .annotationNode => 5
  | .objectInverseOf => 10 | .objectPropertyChain => 11 | .facetRestriction => 20
  | .dataIntersectionOf => 21 | .dataUnionOf => 22 | .dataComplementOf => 23 | .dataOneOf => 24
  | .datatypeRestriction => 25 | .objectIntersectionOf => 30 | .objectUnionOf => 31
  | .objectComplementOf => 32 | .objectOneOf => 33 | .objectSomeValuesFrom => 34
  | .objectAllValuesFrom => 35 | .objectHasValue => 36 | .objectHasSelf => 37
  | .objectMinCardinality => 38 | .objectMaxCardinality => 39 | .objectExactCardinality => 40
  | .dataSomeValuesFrom => 41 | .dataAllValuesFrom => 42 | .dataHasValue => 43
  | .dataMinCardinality => 44 | .dataMaxCardinality => 45 | .dataExactCardinality => 46
  | .declaration => 60 | .subClassOf => 61 | .equivalentClasses => 62 | .disjointClasses => 63
  | .disjointUnion => 64 | .subObjectPropertyOf => 70 | .equivalentObjectProperties => 71
  | .disjointObjectProperties => 72 | .inverseObjectProperties => 73
  | .objectPropertyDomain => 74 | .objectPropertyRange => 75 | .functionalObjectProperty => 76
  | .inverseFunctionalObjectProperty => 77 | .reflexiveObjectProperty => 78
  | .irreflexiveObjectProperty => 79 | .symmetricObjectProperty => 80
  | .asymmetricObjectProperty => 81 | .transitiveObjectProperty => 82 | .subDataPropertyOf => 90
  | .equivalentDataProperties => 91 | .disjointDataProperties => 92 | .dataPropertyDomain => 93
  | .dataPropertyRange => 94 | .functionalDataProperty => 95 | .datatypeDefinition => 100
  | .hasKey => 101 | .sameIndividual => 110 | .differentIndividuals => 111
  | .classAssertion => 112 | .objectPropertyAssertion => 113
  | .negativeObjectPropertyAssertion => 114 | .dataPropertyAssertion => 115
  | .negativeDataPropertyAssertion => 116 | .annotationAssertion => 120
  | .subAnnotationPropertyOf => 121 | .annotationPropertyDomain => 122
  | .annotationPropertyRange => 123 | .variableNode => 140 | .classAtom => 141
  | .dataRangeAtom => 142 | .objectPropertyAtom => 143 | .dataPropertyAtom => 144
  | .builtInAtom => 145 | .sameIndividualAtom => 146 | .differentIndividualsAtom => 147
  | .swrlRule => 148

def name : Constructor → String
  | .iri => "IRI" | .entity => "Entity" | .anonymousIndividual => "AnonymousIndividual"
  | .literal => "Literal" | .annotationNode => "Annotation" | .objectInverseOf => "ObjectInverseOf"
  | .objectPropertyChain => "ObjectPropertyChain" | .facetRestriction => "FacetRestriction"
  | .dataIntersectionOf => "DataIntersectionOf" | .dataUnionOf => "DataUnionOf"
  | .dataComplementOf => "DataComplementOf" | .dataOneOf => "DataOneOf"
  | .datatypeRestriction => "DatatypeRestriction"
  | .objectIntersectionOf => "ObjectIntersectionOf" | .objectUnionOf => "ObjectUnionOf"
  | .objectComplementOf => "ObjectComplementOf" | .objectOneOf => "ObjectOneOf"
  | .objectSomeValuesFrom => "ObjectSomeValuesFrom"
  | .objectAllValuesFrom => "ObjectAllValuesFrom" | .objectHasValue => "ObjectHasValue"
  | .objectHasSelf => "ObjectHasSelf" | .objectMinCardinality => "ObjectMinCardinality"
  | .objectMaxCardinality => "ObjectMaxCardinality"
  | .objectExactCardinality => "ObjectExactCardinality"
  | .dataSomeValuesFrom => "DataSomeValuesFrom" | .dataAllValuesFrom => "DataAllValuesFrom"
  | .dataHasValue => "DataHasValue" | .dataMinCardinality => "DataMinCardinality"
  | .dataMaxCardinality => "DataMaxCardinality" | .dataExactCardinality => "DataExactCardinality"
  | .declaration => "Declaration" | .subClassOf => "SubClassOf"
  | .equivalentClasses => "EquivalentClasses" | .disjointClasses => "DisjointClasses"
  | .disjointUnion => "DisjointUnion" | .subObjectPropertyOf => "SubObjectPropertyOf"
  | .equivalentObjectProperties => "EquivalentObjectProperties"
  | .disjointObjectProperties => "DisjointObjectProperties"
  | .inverseObjectProperties => "InverseObjectProperties"
  | .objectPropertyDomain => "ObjectPropertyDomain"
  | .objectPropertyRange => "ObjectPropertyRange"
  | .functionalObjectProperty => "FunctionalObjectProperty"
  | .inverseFunctionalObjectProperty => "InverseFunctionalObjectProperty"
  | .reflexiveObjectProperty => "ReflexiveObjectProperty"
  | .irreflexiveObjectProperty => "IrreflexiveObjectProperty"
  | .symmetricObjectProperty => "SymmetricObjectProperty"
  | .asymmetricObjectProperty => "AsymmetricObjectProperty"
  | .transitiveObjectProperty => "TransitiveObjectProperty"
  | .subDataPropertyOf => "SubDataPropertyOf"
  | .equivalentDataProperties => "EquivalentDataProperties"
  | .disjointDataProperties => "DisjointDataProperties"
  | .dataPropertyDomain => "DataPropertyDomain" | .dataPropertyRange => "DataPropertyRange"
  | .functionalDataProperty => "FunctionalDataProperty"
  | .datatypeDefinition => "DatatypeDefinition" | .hasKey => "HasKey"
  | .sameIndividual => "SameIndividual" | .differentIndividuals => "DifferentIndividuals"
  | .classAssertion => "ClassAssertion" | .objectPropertyAssertion => "ObjectPropertyAssertion"
  | .negativeObjectPropertyAssertion => "NegativeObjectPropertyAssertion"
  | .dataPropertyAssertion => "DataPropertyAssertion"
  | .negativeDataPropertyAssertion => "NegativeDataPropertyAssertion"
  | .annotationAssertion => "AnnotationAssertion"
  | .subAnnotationPropertyOf => "SubAnnotationPropertyOf"
  | .annotationPropertyDomain => "AnnotationPropertyDomain"
  | .annotationPropertyRange => "AnnotationPropertyRange" | .variableNode => "Variable"
  | .classAtom => "ClassAtom" | .dataRangeAtom => "DataRangeAtom"
  | .objectPropertyAtom => "ObjectPropertyAtom" | .dataPropertyAtom => "DataPropertyAtom"
  | .builtInAtom => "BuiltInAtom" | .sameIndividualAtom => "SameIndividualAtom"
  | .differentIndividualsAtom => "DifferentIndividualsAtom" | .swrlRule => "SWRLRule"

/-- The module of the model package that defines the class. -/
def moduleName : Constructor → String
  | .iri | .entity | .anonymousIndividual | .literal => "primitives"
  | .annotationNode => "annotations"
  | .objectInverseOf | .objectPropertyChain => "properties"
  | .facetRestriction | .dataIntersectionOf | .dataUnionOf | .dataComplementOf | .dataOneOf
  | .datatypeRestriction => "dataranges"
  | .objectIntersectionOf | .objectUnionOf | .objectComplementOf | .objectOneOf
  | .objectSomeValuesFrom | .objectAllValuesFrom | .objectHasValue | .objectHasSelf
  | .objectMinCardinality | .objectMaxCardinality | .objectExactCardinality
  | .dataSomeValuesFrom | .dataAllValuesFrom | .dataHasValue | .dataMinCardinality
  | .dataMaxCardinality | .dataExactCardinality => "expressions"
  | .declaration | .subClassOf | .equivalentClasses | .disjointClasses | .disjointUnion
  | .subObjectPropertyOf | .equivalentObjectProperties | .disjointObjectProperties
  | .inverseObjectProperties | .objectPropertyDomain | .objectPropertyRange
  | .functionalObjectProperty | .inverseFunctionalObjectProperty | .reflexiveObjectProperty
  | .irreflexiveObjectProperty | .symmetricObjectProperty | .asymmetricObjectProperty
  | .transitiveObjectProperty | .subDataPropertyOf | .equivalentDataProperties
  | .disjointDataProperties | .dataPropertyDomain | .dataPropertyRange
  | .functionalDataProperty | .datatypeDefinition | .hasKey | .sameIndividual
  | .differentIndividuals | .classAssertion | .objectPropertyAssertion
  | .negativeObjectPropertyAssertion | .dataPropertyAssertion | .negativeDataPropertyAssertion
  | .annotationAssertion | .subAnnotationPropertyOf | .annotationPropertyDomain
  | .annotationPropertyRange => "axioms"
  | .variableNode | .classAtom | .dataRangeAtom | .objectPropertyAtom | .dataPropertyAtom
  | .builtInAtom | .sameIndividualAtom | .differentIndividualsAtom | .swrlRule => "swrl"

/-- The lookup `SPEC_BY_TAG[tag]`. -/
def ofTag (tag : Nat) : Option Constructor := all.find? fun c => c.tag = tag

theorem ofTag_tag (c : Constructor) : ofTag c.tag = some c := by
  cases c <;> rfl

theorem tag_injective : Function.Injective tag := by
  intro a b h
  have ha := ofTag_tag a
  rw [h, ofTag_tag b] at ha
  exact (Option.some.inj ha).symm

end Constructor

end OwlCore
