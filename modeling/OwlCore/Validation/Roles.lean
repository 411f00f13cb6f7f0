import Mathlib.Data.Prod.Lex
import OwlCore.Lib.Worklist
import OwlCore.Model.Preflight
import OwlCore.Model.Replace
import OwlCore.View.Fingerprint

/-!
# The analysis of object property roles

`analyze_object_property_roles` reads the axioms into three dictionaries: the property
expressions, the edges of the hierarchy and the composite properties. From the
composite properties it then follows the edges.
-/
namespace OwlCore

open Dictionary Fallible Schema

/-- `OWL_TOP_OBJECT_PROPERTY`. -/
def topObjectProperty : Node :=
  .mk .entity [.enum .objectProperty, .node (.mk .iri [.text "http://www.w3.org/2002/07/owl#topObjectProperty"])]

/-- `OWL_BOTTOM_OBJECT_PROPERTY`. -/
def bottomObjectProperty : Node :=
  .mk .entity [.enum .objectProperty, .node (.mk .iri [.text "http://www.w3.org/2002/07/owl#bottomObjectProperty"])]

/-- The inverse: an inverse is undone, a property is wrapped. -/
def Node.inverse (n : Node) : Node :=
  match n with
  | .mk .objectInverseOf [.node property] => property
  | n => .mk .objectInverseOf [.node n]

def inverseProperty (expression : Node) : Except Error Node := do
  let expression ← requireNode (.node expression) objectPropertyExpressionTypes "expression"
  if expression.constructor = .objectInverseOf then pure expression.inverse
  else construct .objectInverseOf [.node expression]

structure RoleState where
  properties : List (Bytes × Node)
  edges : List ((Bytes × Bytes) × (Node × Node))
  composite : List (Bytes × Node)

namespace RoleState

def empty : RoleState := ⟨[], [], []⟩

/-- `composite[canonical_bytes(property)] = property`. -/
def addComposite (state : RoleState) (property : Node) : Except Error RoleState := do
  let key ← canonicalBytes defaultLimits property
  pure { state with composite := assign state.composite key property }

def addProperty (state : RoleState) (property : Node) : Except Error RoleState := do
  let key ← canonicalBytes defaultLimits property
  pure { state with properties := assign state.properties key property }

def addEdge (state : RoleState) (sub sup : Node) : Except Error RoleState := do
  let subKey ← canonicalBytes defaultLimits sub
  let supKey ← canonicalBytes defaultLimits sup
  pure { state with edges := assign state.edges (subKey, supKey) (sub, sup) }

def retain (state : RoleState) (property : Node) : Except Error RoleState := do
  let state ← state.addProperty property
  let inverse ← inverseProperty property
  state.addProperty inverse

def edge (state : RoleState) (sub sup : Node) : Except Error RoleState := do
  let state ← state.retain sub
  let state ← state.retain sup
  let state ← state.addEdge sub sup
  let inverseSub ← inverseProperty sub
  let inverseSup ← inverseProperty sup
  state.addEdge inverseSub inverseSup

end RoleState

inductive RoleAxiom where
  | sub (sub sup : Node)
  | chain (sup : Node)
  | equivalent (properties : List Node)
  | inverse (first second : Node)
  | symmetric (property : Node)
  | transitive (property : Node)
  | other

def roleAxiom : Node → RoleAxiom
  | .mk .subObjectPropertyOf (.node sub :: .node sup :: _) =>
    if sub.constructor = .objectPropertyChain then .chain sup else .sub sub sup
  | .mk .equivalentObjectProperties (.set properties :: _) => .equivalent properties
  | .mk .inverseObjectProperties (.node first :: .node second :: _) => .inverse first second
  | .mk .symmetricObjectProperty (.node property :: _) => .symmetric property
  | .mk .transitiveObjectProperty (.node property :: _) => .transitive property
  | _ => .other

def isPropertyExpression (n : Node) : Bool := n.isInstance objectPropertyExpressionTypes

def readRoleAxiom (state : RoleState) : RoleAxiom → Except Error RoleState
  | .sub sub sup => state.edge sub sup
  | .chain sup => do
    let state ← state.addComposite sup
    let inverse ← inverseProperty sup
    state.addComposite inverse
  | .equivalent [] => .error (.indexError 0)
  | .equivalent (first :: rest) =>
    rest.foldlM (fun state second => do
      let state ← state.edge first second
      state.edge second first) state
  | .inverse first second => do
    let inverseSecond ← inverseProperty second
    let state ← state.edge first inverseSecond
    let inverseFirst ← inverseProperty first
    state.edge second inverseFirst
  | .symmetric property => do
    let inverse ← inverseProperty property
    state.edge property inverse
  | .transitive property => do
    let state ← state.retain property
    let state ← state.addComposite property
    let inverse ← inverseProperty property
    state.addComposite inverse
  | .other => .ok state

def readAxiom (state : RoleState) (ax : Node) : Except Error RoleState := do
  let state ← (ax.walk.filter isPropertyExpression).foldlM RoleState.retain state
  readRoleAxiom state (roleAxiom ax)

def readAxioms (axioms : List Node) : Except Error RoleState := do
  let state ← RoleState.empty.addComposite topObjectProperty
  let state ← state.addComposite bottomObjectProperty
  let state ← axioms.foldlM readAxiom state
  (state.composite.map Prod.snd).foldlM RoleState.retain state

/-- `adjacency[sub].add(sup)`. -/
def addSuper (adjacency : List (Bytes × List Bytes)) (key : Bytes × Bytes) : Except Error (List (Bytes × List Bytes)) :=
  match get? adjacency key.1 with
  | none => .error (.keyError (toString key.1))
  | some sups => .ok (assign adjacency key.1 (if key.2 ∈ sups then sups else sups ++ [key.2]))

/-- `d[key]`. -/
def lookupKey {ν : Type} (d : List (Bytes × ν)) (key : Bytes) : Except Error ν :=
  match get? d key with
  | none => .error (.keyError (toString key))
  | some value => .ok value

structure RoleAnalysis where
  properties : List Node
  hierarchy : List (Node × Node)
  composite : List Node
  nonSimple : List Node
  deriving DecidableEq

/-- `tuple(d[key] for key in sorted(d))`. -/
def sortedValues (d : List (Bytes × Node)) : List Node := (KeyedSet.ofList Prod.fst d).map Prod.snd

/-- `analyze_object_property_roles`; the order in which a set is iterated is not specified.
The stack is kept with its top first, and the last key of `composite` is on top. -/
def analyzeObjectPropertyRoles (order : List Bytes → List Bytes) (axioms : List Node) : Except Error RoleAnalysis := do
  if !axioms.all fun ax => ax.constructor ∈ axiomTypes then
    throw (.typeError "axioms must contain AxiomNode values")
  let state ← readAxioms axioms
  let adjacency ← (keys state.edges).foldlM addSuper ((keys state.properties).map fun key => (key, []))
  let (nonSimple, _) ← Worklist.drain (fun sub => order <$> lookupKey adjacency sub) (lookupKey state.properties)
    (state.composite.length + state.properties.length) (state.composite, (keys state.composite).reverse)
  pure {
    properties := sortedValues state.properties
    hierarchy := (KeyedSet.ofList (fun e => toLex e.1) state.edges).map Prod.snd
    composite := sortedValues state.composite
    nonSimple := sortedValues nonSimple }

end OwlCore
