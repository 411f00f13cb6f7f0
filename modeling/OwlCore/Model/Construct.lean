import OwlCore.Lib.Fallible
import OwlCore.Model.Text

/-!
# Constructors

`construct` is the call of a model class with positional arguments. Six classes
have bodies of their own; all others check and normalise their fields as the
schema says. A value is `Constructible` when some sequence of such calls builds
it.
-/
namespace OwlCore

inductive Arg where
  | none
  | node (value : Node)
  | text (value : String)
  | bytes (value : Bytes)
  | integer (value : Int)
  | enum (value : EntityKind)
  | set (members : List Node)
  | tuple (items : List Arg)

namespace Node

def kind? (n : Node) : Option EntityKind :=
  match n.constructor, n.fields with
  | .entity, .enum kind :: _ => some kind
  | _, _ => none

/-- The name of the class of a value, typed entity classes included. -/
def className (n : Node) : String :=
  match n.kind? with
  | some kind => kind.className
  | none => n.constructor.name

def hasClass (n : Node) : NodeClass → Bool
  | .anyEntity => n.constructor == .entity
  | .entity kind => n.kind? == some kind
  | .ofConstructor c => n.constructor == c

def isInstance (n : Node) (expected : List NodeClass) : Bool := expected.any n.hasClass

end Node

namespace Arg

/-- The structural values among an argument and its items. -/
def nodes : Arg → List Node
  | .node value => [value]
  | .set members => members
  | .tuple items => items.filterMap fun | .node value => some value | _ => Option.none
  | _ => []

def typeName : Arg → String
  | .none => "NoneType"
  | .node value => value.className
  | .text _ => "str"
  | .bytes _ => "bytes"
  | .integer _ => "int"
  | .enum _ => "EntityKind"
  | .set _ => "CanonicalSet"
  | .tuple _ => "tuple"

/-- The characters of an instance of `str`; the members of `EntityKind` are such instances. -/
def str? : Arg → Option String
  | .text value => some value
  | .enum value => some value.value
  | _ => Option.none

def iterate : Arg → Option (List Arg)
  | .set members => some (members.map .node)
  | .tuple items => some items
  | .text value => some (value.toList.map fun c => .text (String.singleton c))
  | .enum value => some (value.value.toList.map fun c => .text (String.singleton c))
  | .bytes value => some (value.map fun octet => .integer octet.toNat)
  | .none | .node _ | .integer _ => Option.none

def ofValue : Value Node → Arg
  | .none => .none
  | .node value => .node value
  | .text value => .text value
  | .bytes value => .bytes value
  | .integer value => .integer value
  | .enum value => .enum value
  | .set members => .set members
  | .sequence items => .tuple (items.map .node)

@[simp] theorem ofValue_node (value : Node) : ofValue (.node value) = .node value := rfl

@[simp] theorem ofValue_set (members : List Node) : ofValue (.set members) = .set members := rfl

@[simp] theorem nodes_none : Arg.none.nodes = [] := rfl

@[simp] theorem nodes_node (value : Node) : (Arg.node value).nodes = [value] := rfl

@[simp] theorem nodes_ofValue (v : Value Node) : (ofValue v).nodes = v.nodes := by
  cases v with
  | sequence items => simp [ofValue, nodes, List.filterMap_map]
  | _ => rfl

end Arg

namespace NodeClass

/-- The interpreter's `repr` of a class. -/
def repr : NodeClass → String
  | .anyEntity => "<class 'pyowl_core.model.primitives.Entity'>"
  | .entity kind => "<class 'pyowl_core.model.primitives." ++ kind.className ++ "'>"
  | .ofConstructor c => "<class 'pyowl_core.model." ++ c.moduleName ++ "." ++ c.name ++ "'>"

/-- The `repr` of an `isinstance` argument: one class, or a tuple of classes. -/
def reprAll : List NodeClass → String
  | [single] => single.repr
  | classes => "(" ++ String.intercalate ", " (classes.map repr) ++ ")"

end NodeClass

def Error.message : Error → String
  | .typeError message | .valueError message | .structuralConstraint message | .invalidIRI message
  | .invalidLiteral message | .assertionError message | .deltaError message
  | .deltaBaseMismatch message | .wireCorruption message | .wireVersion message | .wireLimit message
  | .ontologySyntax message | .documentIdentityConflict message | .backendProtocol message => message
  | .resourceLimit limit _ _ => "resource limit " ++ limit ++ " exceeded"
  | .keyError key => "'" ++ key ++ "'"
  | .indexError index => toString index
  | .memoryError => ""
  | .recursionError => "maximum recursion depth exceeded"

def requireNode (value : Arg) (expected : List NodeClass) (path : String) : Except Error Node :=
  let fail := Error.typeError (path ++ " must be a structural " ++ NodeClass.reprAll expected)
  match value with
  | .node n => if n.isInstance expected then .ok n else .error fail
  | _ => .error fail

def requireNonnegativeInteger (value : Arg) (path : String) : Except Error Nat :=
  match value with
  | .integer i =>
    if i < 0 then .error (.structuralConstraint (path ++ " must be nonnegative")) else .ok i.toNat
  | _ => .error (.typeError (path ++ " must be an integer"))

def requireText (value : Arg) (path : String) (nonempty : Bool) : Except Error String :=
  match value.str? with
  | none => .error (.typeError (path ++ " must be a string"))
  | some text =>
    if nonempty && text.isEmpty then .error (.structuralConstraint (path ++ " must be nonempty"))
    else .ok text

/-- A value with its canonical bytes under the default limits. -/
def keyed (value : Node) : Except Error (Bytes × Node) := do
  let encoded ← canonicalBytes defaultLimits value
  pure (encoded, value)

/-- `CanonicalSet(values)`: a dictionary by canonical bytes, read out in key order. -/
def canonicalSetOf (values : List Node) : Except Error (List Node) := do
  let entries ← values.mapM keyed
  pure ((KeyedSet.ofList Prod.fst entries).map Prod.snd)

/-- One step of the loop of `canonical_set`: the type check, then the splice of a nested set. -/
def expand (expected : List NodeClass) (path : String) (flatten : Option Constructor)
    (value : Arg) : Except Error (List Node) :=
  match value with
  | .node n =>
    if n.isInstance expected then
      if flatten = some n.constructor then
        match n.fields with
        | .set nested :: _ => .ok nested
        | _ => .error (.structuralConstraint (path ++ " has invalid nested canonical set"))
      else .ok [n]
    else .error (.typeError (path ++ " contains " ++ n.className ++ "; expected structural value"))
  | other => .error (.typeError (path ++ " contains " ++ other.typeName ++ "; expected structural value"))

def iterable (value : Arg) : Except Error (List Arg) :=
  match value.iterate with
  | some items => .ok items
  | none => .error (.typeError ("'" ++ value.typeName ++ "' object is not iterable"))

/-- `canonical_set` after the loop over its argument has been opened. -/
def canonicalSet (items : List Arg) (expected : List NodeClass) (path : String) (minimum : Nat)
    (flatten : Option Constructor) : Except Error (List Node) := do
  let expanded ← items.mapM (expand expected path flatten)
  let result ← canonicalSetOf expanded.flatten
  if result.length < minimum then
    .error (.structuralConstraint (path ++ " requires at least " ++ toString minimum ++
      " distinct value(s); got " ++ toString result.length))
  else pure result

def structuralTuple (items : List Arg) (expected : List NodeClass) (path : String) (minimum : Nat) :
    Except Error (List Node) := do
  let result ← items.mapM (expand expected path none)
  if result.length < minimum then
    .error (.structuralConstraint (path ++ " requires at least " ++ toString minimum ++
      " value(s); got " ++ toString result.length))
  else pure result.flatten

def normalizeAnnotations (value : Arg) : Except Error (List Node) :=
  match value.iterate with
  | some items => canonicalSet items [Schema.annotationClass] "annotations" 0 none
  | none => .error (.typeError "annotations must be an iterable of Annotation")

def checkField (spec : FieldSpec) (value : Arg) : Except Error (Value Node) :=
  match spec.check with
  | .own => .error (.typeError (spec.path ++ " has a check of its own"))
  | .node expected => .node <$> requireNode value expected spec.path
  | .canonicalSet expected minimum flatten => do
    let items ← iterable value
    .set <$> canonicalSet items expected spec.path minimum flatten
  | .structuralTuple expected minimum => do
    let items ← iterable value
    .sequence <$> structuralTuple items expected spec.path minimum
  | .nonnegativeInteger => .integer <$> requireNonnegativeInteger value spec.path
  | .annotations => .set <$> normalizeAnnotations value

def checkFields : List FieldSpec → List Arg → Except Error (List (Value Node))
  | [], [] => .ok []
  | spec :: specs, value :: values => do
    let field ← checkField spec value
    let fields ← checkFields specs values
    pure (field :: fields)
  | _, _ => .error (.typeError "wrong number of arguments")

section

open Schema

def textField : Arg → Value Node
  | .enum value => .enum value
  | value => .text (value.str?.getD "")

def constructIRI (value : Arg) : Except Error Node :=
  match requireText value "IRI.value" true with
  | .error e => .error (.invalidIRI e.message)
  | .ok text =>
    if !absoluteIri text.toList then
      .error (.invalidIRI "IRI must be absolute and include a valid scheme")
    else match forbiddenIri text.toList with
      | some complaint => .error (.invalidIRI complaint)
      | none =>
        if !percentEscapes text.toList then
          .error (.invalidIRI "IRI contains an invalid percent escape")
        else .ok (.mk .iri [textField value])

def constructEntity (kind iri : Arg) : Except Error Node :=
  match kind with
  | .enum kind => do
    let iri ← requireNode iri [iriClass] "Entity.iri"
    pure (.mk .entity [.enum kind, .node iri])
  | _ => .error (.typeError "Entity.kind must be EntityKind")

def constructAnonymousIndividual (documentScope localKey : Arg) : Except Error Node :=
  match documentScope with
  | .bytes scope =>
    if scope.length ≠ 32 then
      .error (.structuralConstraint "document_scope must be exactly 32 bytes")
    else match localKey with
      | .bytes key =>
        if key = [] then .error (.structuralConstraint "local_key must be nonempty bytes")
        else .ok (.mk .anonymousIndividual [.bytes scope, .bytes key])
      | _ => .error (.structuralConstraint "local_key must be nonempty bytes")
  | _ => .error (.structuralConstraint "document_scope must be exactly 32 bytes")

def rdfPlainLiteralIri : String := "http://www.w3.org/1999/02/22-rdf-syntax-ns#PlainLiteral"

def rdfLangStringIri : String := "http://www.w3.org/1999/02/22-rdf-syntax-ns#langString"

/-- The text of `entity.iri.value`. -/
def Node.entityIri (n : Node) : String :=
  match n.fields with
  | [_, .node (.mk .iri [.text value])] => value
  | _ => ""

/-- The language check of `Literal`, which also lowers the tag. -/
def literalLanguage (datatype : Node) : Arg → Except Error (Value Node)
  | .none => .ok .none
  | language =>
    match language.str? with
    | none => .error (.invalidLiteral "language must be a structurally valid BCP 47 tag")
    | some tag =>
      if !validLanguageTag tag.toList then
        .error (.invalidLiteral "language must be a structurally valid BCP 47 tag")
      else if datatype.entityIri ≠ rdfPlainLiteralIri then
        .error (.invalidLiteral "language is permitted only with rdf:PlainLiteral")
      else .ok (.text (String.ofList (lower tag.toList)))

def constructLiteral (lexicalForm datatype language : Arg) : Except Error Node :=
  match requireText lexicalForm "Literal.lexical_form" false with
  | .error e => .error (.invalidLiteral e.message)
  | .ok _ =>
    match requireNode datatype [datatypeClass] "Literal.datatype" with
    | .error e => .error (.invalidLiteral e.message)
    | .ok datatype => do
      let language ← literalLanguage datatype language
      if datatype.entityIri = rdfLangStringIri then
        .error (.invalidLiteral
          "rdf:langString is mapped to rdf:PlainLiteral at the RDF/OWL boundary")
      else .ok (.mk .literal [textField lexicalForm, .node datatype, language])

/-- `first < second` of structural values, under the default limits. -/
def nodeLt (first second : Node) : Except Error Bool := do
  let left ← canonicalBytes defaultLimits first
  let right ← canonicalBytes defaultLimits second
  pure (left < right)

def constructInverseObjectProperties (first second annotations : Arg) : Except Error Node := do
  let first ← requireNode first objectPropertyExpressionTypes "InverseObjectProperties.first"
  let second ← requireNode second objectPropertyExpressionTypes "InverseObjectProperties.second"
  let swapped ← nodeLt second first
  let annotations ← normalizeAnnotations annotations
  if swapped then .ok (.mk .inverseObjectProperties [.node second, .node first, .set annotations])
  else .ok (.mk .inverseObjectProperties [.node first, .node second, .set annotations])

def constructHasKey (classExpression objectProperties dataProperties annotations : Arg) :
    Except Error Node := do
  let classExpression ← requireNode classExpression classExpressionTypes "HasKey.class_expression"
  let items ← iterable objectProperties
  let objectProperties ←
    canonicalSet items objectPropertyExpressionTypes "HasKey.object_properties" 0 none
  let items ← iterable dataProperties
  let dataProperties ← canonicalSet items [dataPropertyClass] "HasKey.data_properties" 0 none
  if objectProperties = [] ∧ dataProperties = [] then
    .error (.structuralConstraint "HasKey requires at least one property")
  else do
    let annotations ← normalizeAnnotations annotations
    pure (.mk .hasKey [.node classExpression, .set objectProperties, .set dataProperties, .set annotations])

/-- The classes whose checks are not the plain ones of the schema. -/
def Constructor.ownBody : Constructor → Bool
  | .iri | .entity | .anonymousIndividual | .literal | .inverseObjectProperties | .hasKey => true
  | _ => false

def construct (c : Constructor) (args : List Arg) : Except Error Node :=
  match c, args with
  | .iri, [value] => constructIRI value
  | .entity, [kind, iri] => constructEntity kind iri
  | .anonymousIndividual, [documentScope, localKey] =>
    constructAnonymousIndividual documentScope localKey
  | .literal, [lexicalForm, datatype, language] => constructLiteral lexicalForm datatype language
  | .inverseObjectProperties, [first, second, annotations] =>
    constructInverseObjectProperties first second annotations
  | .hasKey, [classExpression, objectProperties, dataProperties, annotations] =>
    constructHasKey classExpression objectProperties dataProperties annotations
  | c, args =>
    if c.ownBody then .error (.typeError "wrong number of arguments")
    else .mk c <$> checkFields c.fieldSpecs args

/-- The values that calls of the model classes build, one from another. -/
inductive Constructible : Node → Prop where
  | intro {c : Constructor} {args : List Arg} {n : Node}
      (nested : ∀ a ∈ args, ∀ m ∈ a.nodes, Constructible m) (call : construct c args = .ok n) :
      Constructible n

end

end OwlCore
