import OwlCore.Document.Freeze

/-!
# Writing documents

The Functional-Style and OWL/XML writers as recursions over values, and the node labels of the
RDF writer. All name an anonymous individual by its local key alone, so individuals of different
documents with one key get one name.
-/
namespace OwlCore

open Fallible KeyedSet Node

/-- The structural part of `OntologyDocument`. -/
structure OntologyDocument where
  ontologyId : OntologyID
  directImports : List Node
  ontologyAnnotations : List Node
  axioms : List Node
  extensionComponents : List Node
  annotations_ascending : Ascending Node.bytes ontologyAnnotations
  axioms_ascending : Ascending Node.bytes axioms
  extensions_ascending : Ascending Node.bytes extensionComponents
  constructible : ∀ r ∈ ontologyAnnotations ++ axioms ++ extensionComponents, Constructible r

namespace OntologyDocument

def roots (document : OntologyDocument) : List Node :=
  document.ontologyAnnotations ++ document.axioms ++ document.extensionComponents

def individuals (document : OntologyDocument) : List AnonymousIndividual :=
  document.roots.flatMap Node.anonymousValues

end OntologyDocument

/-- `str.replace` for patterns of one character. -/
def escapeWith (table : Char → Option String) (text : String) : String :=
  String.ofList (text.toList.flatMap fun c => ((table c).map String.toList).getD [c])

/-- The characters of a `str` field. -/
def fieldText {N : Type} : Value N → String
  | .text value => value
  | .enum value => value.value
  | _ => ""

def renderIri (iri : Node) : String :=
  let value := String.join (iri.fields.map fieldText)
  "<" ++ escapeWith (fun c => if c = '\\' then some "\\\\" else if c = '>' then some "\\u003E" else none)
    value ++ ">"

/-- `"_:b" + value.local_key.hex()`. -/
def functionalId (individual : AnonymousIndividual) : String := "_:b" ++ hexdigest individual.localKey

def cannotRender {α : Type} (typeName : String) : Except Error α :=
  .error (.typeError ("cannot render " ++ typeName ++ " in Functional Syntax"))

/-- The members a field contributes to the argument list. -/
def renderedMembers : Value (Except Error String) → List (Except Error String)
  | .set members => members
  | .sequence items => items
  | .node item => [item]
  | .integer value => [.ok (toString value)]
  | .none => [cannotRender "NoneType"]
  | .text _ => [cannotRender "str"]
  | .bytes _ => [cannotRender "bytes"]
  | .enum _ => [cannotRender "EntityKind"]

/-- `" ".join(...)` over rendered members. -/
def joinRendered (members : List (Except Error String)) : Except Error String := do
  let members ← members.mapM id
  .ok (String.intercalate " " members)

def iriOfEntity (entity : Node) : Node :=
  match entity.fields with
  | [_, .node iri] => iri
  | _ => entity

def renderLiteral (literal : Node) : String :=
  match literal.fields with
  | [lexicalForm, .node datatype, language] =>
    let lexical := escapeWith
      (fun c => if c = '\\' then some "\\\\" else if c = '"' then some "\\\"" else none)
      (fieldText lexicalForm)
    match language with
    | .text tag => "\"" ++ lexical ++ "\"@" ++ tag
    | _ =>
      if datatype.entityIri = rdfPlainLiteralIri then "\"" ++ lexical ++ "\""
      else "\"" ++ lexical ++ "\"^^" ++ renderIri (iriOfEntity datatype)
  | _ => ""

def namedFields {N : Type} (c : Constructor) (fields : List (Value N)) : List (String × Value N) :=
  (c.fieldSpecs.map FieldSpec.name).zip fields

/-- The annotations first, then the other fields in order. -/
def orderedMembers (c : Constructor) (fields : List (Value (Except Error String))) :
    List (Except Error String) :=
  let named := namedFields c fields
  ((named.filter fun field => field.1 = "annotations").flatMap fun field => renderedMembers field.2) ++
    (named.filter fun field => field.1 ≠ "annotations").flatMap fun field => renderedMembers field.2

def renderNode : Node → Except Error String :=
  Node.para fun n fields =>
    match n.anonymous? with
    | some individual => .ok (functionalId individual)
    | none =>
      match n.constructor, n.fields, fields with
      | .iri, _, _ => .ok (renderIri n)
      | .entity, _, _ => .ok (renderIri (iriOfEntity n))
      | .literal, _, _ => .ok (renderLiteral n)
      | .datatypeRestriction, [_, .set restrictions], [.node datatype, .set rendered] => do
        let datatype ← datatype
        let restrictions ← (restrictions.zip rendered).mapM fun (restriction, _) =>
          match restriction.fields with
          | [.node facet, .node value] => .ok (renderIri facet ++ " " ++ renderLiteral value)
          | _ => cannotRender "FacetRestriction"
        .ok ("DatatypeRestriction(" ++ datatype ++ " " ++ String.intercalate " " restrictions ++ ")")
      | .declaration, [.node entity, _], [_, annotations] => do
        let members ← joinRendered (renderedMembers annotations ++
          [.ok (entity.className ++ "(" ++ renderIri (iriOfEntity entity) ++ ")")])
        .ok ("Declaration(" ++ members ++ ")")
      | .hasKey, _, [classExpression, objects, datas, annotations] => do
        let key ← joinRendered (renderedMembers annotations ++ renderedMembers classExpression)
        let objects ← joinRendered (renderedMembers objects)
        let datas ← joinRendered (renderedMembers datas)
        .ok ("HasKey(" ++ key ++ " (" ++ objects ++ ") (" ++ datas ++ "))")
      | .swrlRule, _, [body, head, annotations] => do
        let body ← joinRendered (renderedMembers body)
        let head ← joinRendered (renderedMembers head)
        let annotations ← joinRendered (renderedMembers annotations)
        let before := if annotations = "" then "" else annotations ++ " "
        .ok ("SWRLRule(" ++ before ++ "(" ++ body ++ ") (" ++ head ++ "))")
      | c, _, fields => do
        let members ← joinRendered (orderedMembers c fields)
        .ok (n.className ++ "(" ++ members ++ ")")

/-- `render_functional`, before its text is encoded. -/
def renderFunctional (document : OntologyDocument) : Except Error String := do
  let annotations ← document.ontologyAnnotations.mapM renderNode
  let axioms ← document.axioms.mapM renderNode
  let extensions ← document.extensionComponents.mapM renderNode
  let identity := match document.ontologyId.ontologyIri, document.ontologyId.versionIri with
    | none, _ => []
    | some ontologyIri, none => ["  " ++ renderIri ontologyIri]
    | some ontologyIri, some versionIri => ["  " ++ renderIri ontologyIri ++ " " ++ renderIri versionIri]
  let imports := document.directImports.map fun iri => "  Import(" ++ renderIri iri ++ ")"
  let lines := ["Ontology("] ++ identity ++ imports ++
    ((annotations ++ axioms ++ extensions).map fun rendered => "  " ++ rendered) ++ [")"]
  .ok (String.intercalate "\n" lines ++ "\n")

inductive Element where
  | mk (tag : String) (attributes : List (String × String)) (text : Option String) (children : List Element)

/-- `_tag`. -/
def owlTag (name : String) : String := "\x7bhttp://www.w3.org/2002/07/owl#\x7d" ++ name

/-- `"b" + value.local_key.hex()`. -/
def xmlNodeId (individual : AnonymousIndividual) : String := "b" ++ hexdigest individual.localKey

def cannotRenderXml {α : Type} (typeName : String) : Except Error α :=
  .error (.typeError ("cannot render " ++ typeName ++ " in OWL/XML"))

def xmlMembers : Value (Except Error Element) → List (Except Error Element)
  | .set members => members
  | .sequence items => items
  | .node item => [item]
  | .none => [cannotRenderXml "NoneType"]
  | .text _ => [cannotRenderXml "str"]
  | .bytes _ => [cannotRenderXml "bytes"]
  | .enum _ => [cannotRenderXml "EntityKind"]
  | .integer _ => [cannotRenderXml "int"]

/-- The `cardinality` attribute of a cardinality restriction. -/
def cardinalityAttribute (c : Constructor) (fields : List (Value Node)) : List (String × String) :=
  if c ∈ [Constructor.objectMinCardinality, .objectMaxCardinality, .objectExactCardinality,
      .dataMinCardinality, .dataMaxCardinality, .dataExactCardinality] then
    (namedFields c fields).filterMap fun field => match field with
      | ("cardinality", .integer value) => some ("cardinality", toString value)
      | _ => none
  else []

def xmlNode : Node → Except Error Element :=
  Node.para fun n fields =>
    match n.anonymous? with
    | some individual =>
      .ok (.mk (owlTag "AnonymousIndividual") [("nodeID", xmlNodeId individual)] none [])
    | none =>
      match n.constructor, n.fields with
      | .entity, _ => .ok (.mk (owlTag n.className) [("IRI", String.join ((iriOfEntity n).fields.map fieldText))] none [])
      | .literal, [lexicalForm, .node datatype, language] =>
        let attributes := match language with
          | .text tag => [("lang", tag)]
          | _ =>
            if datatype.entityIri ≠ rdfPlainLiteralIri then [("datatypeIRI", datatype.entityIri)] else []
        .ok (.mk (owlTag "Literal") attributes (some (fieldText lexicalForm)) [])
      | .iri, _ => .ok (.mk (owlTag "IRI") [] (some (String.join (n.fields.map fieldText))) [])
      | .facetRestriction, [.node facet, _] => do
        let children ← ((fields.drop 1).flatMap xmlMembers).mapM id
        .ok (.mk (owlTag "FacetRestriction") [("facet", String.join (facet.fields.map fieldText))] none children)
      | c, rawFields => do
        let named := namedFields c fields
        let annotations := (named.filter fun field => field.1 = "annotations").flatMap fun field =>
          xmlMembers field.2
        let others := (named.filter fun field => field.1 ≠ "annotations" ∧ field.1 ≠ "cardinality").flatMap
          fun field => xmlMembers field.2
        let children ← (annotations ++ others).mapM id
        .ok (.mk (owlTag n.className) (cardinalityAttribute c rawFields) none children)

/-- The label of `RDFEncoder._individual`, `_annotation_subject` and `_annotation_value`. -/
def rdfBlankLabel (individual : AnonymousIndividual) : String := "i" ++ hexdigest individual.localKey

theorem renderNode_node (individual : AnonymousIndividual) :
    renderNode individual.node = .ok (functionalId individual) := by
  rw [renderNode, para_eq, anonymous?_node]

theorem xmlNode_node (individual : AnonymousIndividual) : xmlNode individual.node =
    .ok (.mk (owlTag "AnonymousIndividual") [("nodeID", xmlNodeId individual)] none []) := by
  rw [xmlNode, para_eq, anonymous?_node]

theorem append_hexdigest_inj :
    stem ++ hexdigest key = stem ++ hexdigest key' ↔ key = key' := by
  constructor
  · intro h
    have hchars := congrArg String.toList h
    rw [String.toList_append, String.toList_append, List.append_cancel_left_eq] at hchars
    exact hexdigest_injective (String.toList_inj.mp hchars)
  · rintro rfl
    rfl

namespace OntologyDocument

/-- Every writer gives any two anonymous individuals of the document different names. -/
def NamesApart (document : OntologyDocument) : Prop :=
  ∀ a ∈ document.individuals, ∀ b ∈ document.individuals, a ≠ b →
    renderNode a.node ≠ renderNode b.node ∧ xmlNode a.node ≠ xmlNode b.node ∧ rdfBlankLabel a ≠ rdfBlankLabel b

/-- The writers keep the individuals of a document apart exactly when no local key occurs in it
under two scopes. -/
theorem namesApart_iff (document : OntologyDocument) :
    document.NamesApart ↔ ∀ a ∈ document.individuals, ∀ b ∈ document.individuals,
      a.localKey = b.localKey → a.documentScope = b.documentScope := by
  constructor
  · intro h a ha b hb hkey
    by_contra hscope
    have hne : a ≠ b := fun heq => hscope (heq ▸ rfl)
    apply (h a ha b hb hne).1
    rw [renderNode_node, renderNode_node, functionalId, functionalId, hkey]
  · intro h a ha b hb hne
    have hkey : a.localKey ≠ b.localKey := by
      intro hkey
      have hscope := h a ha b hb hkey
      cases a
      cases b
      simp_all
    refine ⟨fun heq => hkey ?_, fun heq => hkey ?_, fun heq => hkey ?_⟩
    · rw [renderNode_node, renderNode_node] at heq
      exact append_hexdigest_inj.mp (Except.ok.inj heq)
    · rw [xmlNode_node, xmlNode_node] at heq
      simp only [Except.ok.injEq, Element.mk.injEq, List.cons.injEq, Prod.mk.injEq] at heq
      exact append_hexdigest_inj.mp heq.2.1.1.2
    · exact append_hexdigest_inj.mp heq

def oneKeyTwoScopes : OntologyDocument :=
  let member (octet : UInt8) : Node := .mk .classAssertion
    [.node (.mk .entity [.enum .class, .node (.mk .iri [.text "urn:C"])]),
      .node (.mk .anonymousIndividual [.bytes (List.replicate 32 octet), .bytes [1]]), .set []]
  { ontologyId := ⟨none, none, OntologyID.unnamed_requires⟩
    directImports := []
    ontologyAnnotations := []
    axioms := [member 0, member 1]
    extensionComponents := []
    annotations_ascending := ascending_nil
    axioms_ascending := by
      have hlt : (member 0).bytes < (member 1).bytes := by decide +kernel
      simpa [Ascending] using hlt
    extensions_ascending := ascending_nil
    constructible := by
      have hrebuilds : ∀ r ∈ [member 0, member 1], r.rebuilds := by decide +kernel
      intro r hr
      exact constructible_of_rebuilds (hrebuilds r (by simpa using hr)) }

theorem not_namesApart_oneKeyTwoScopes : ¬oneKeyTwoScopes.NamesApart := by
  have hmem : ∀ octet ∈ [(0 : UInt8), 1], (⟨⟨List.replicate 32 octet, by simp⟩, [1], by simp⟩ :
      AnonymousIndividual) ∈ oneKeyTwoScopes.individuals := by decide +kernel
  intro h
  have hdiffer : List.replicate 32 (0 : UInt8) ≠ List.replicate 32 1 := by decide
  apply (h _ (hmem 0 (by simp)) _ (hmem 1 (by simp)) ?_).2.2 rfl
  intro heq
  exact hdiffer (congrArg (fun a => a.documentScope.val) heq)

end OntologyDocument

end OwlCore
