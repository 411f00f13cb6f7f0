import OwlCore.Model.Operands
import Mathlib.Data.Set.Card
import Mathlib.Order.CompletePartialOrder
import Mathlib.Data.List.Duplicate

/-!
# Direct Semantics

The OWL 2 Direct Semantics of class expressions, data ranges and object property expressions,
and of the axioms that take a list of operands. Extensions follow by recursion from an
interpretation. An n-ary axiom compares its operands position by position, so a repeated operand
is compared with itself.
-/
namespace OwlCore

open List Node

def owlEntity (kind : EntityKind) (name : String) : Node :=
  .mk .entity [.enum kind, .node (.mk .iri [.text ("http://www.w3.org/2002/07/owl#" ++ name)])]

/-- A datatype map: the value spaces of datatypes and facets, and the values of literals. -/
structure DatatypeMap (V : Type) where
  datatype : Node → Set V
  facet : Node → Set V
  literal : Node → V

structure Interpretation (V : Type) extends DatatypeMap V where
  Object : Type
  classes : Node → Set Object
  objectProperties : Node → Set (Object × Object)
  dataProperties : Node → Set (Object × V)
  individual : Node → Object
  thing : classes (owlEntity .class "Thing") = Set.univ
  nothing : classes (owlEntity .class "Nothing") = ∅
  topObject : objectProperties (owlEntity .objectProperty "topObjectProperty") = Set.univ
  bottomObject : objectProperties (owlEntity .objectProperty "bottomObjectProperty") = ∅
  topData : dataProperties (owlEntity .dataProperty "topDataProperty") = Set.univ
  bottomData : dataProperties (owlEntity .dataProperty "bottomDataProperty") = ∅

/-- What a value denotes as a class expression, a data range and a property expression. -/
structure Extension (Object V : Type) where
  node : Node
  objects : Set Object := ∅
  values : Set V := ∅
  objectPairs : Set (Object × Object) := ∅
  dataPairs : Set (Object × V) := ∅

namespace Interpretation

variable {V : Type} (I : Interpretation V)

def countedFillers {A : Type} (accepts : ℕ∞ → Prop) (pairs : Set (I.Object × A)) (filler : Set A) : Set I.Object :=
  {x | accepts {y | (x, y) ∈ pairs ∧ y ∈ filler}.encard}

def row (n : Node) (fields : List (Value (Extension I.Object V))) : Extension I.Object V :=
  match n.constructor, fields with
  | .entity, _ =>
    { node := n, objects := I.classes n, values := I.datatype n, objectPairs := I.objectProperties n
      dataPairs := I.dataProperties n }
  | .objectInverseOf, [.node p] => { node := n, objectPairs := {pair | pair.swap ∈ p.objectPairs} }
  | .objectIntersectionOf, [.set operands] => { node := n, objects := {x | ∀ o ∈ operands, x ∈ o.objects} }
  | .objectUnionOf, [.set operands] => { node := n, objects := {x | ∃ o ∈ operands, x ∈ o.objects} }
  | .objectComplementOf, [.node operand] => { node := n, objects := operand.objectsᶜ }
  | .objectOneOf, [.set individuals] => { node := n, objects := {x | ∃ a ∈ individuals, I.individual a.node = x} }
  | .objectSomeValuesFrom, [.node p, .node filler] =>
    { node := n, objects := {x | ∃ y, (x, y) ∈ p.objectPairs ∧ y ∈ filler.objects} }
  | .objectAllValuesFrom, [.node p, .node filler] =>
    { node := n, objects := {x | ∀ y, (x, y) ∈ p.objectPairs → y ∈ filler.objects} }
  | .objectHasValue, [.node p, .node a] => { node := n, objects := {x | (x, I.individual a.node) ∈ p.objectPairs} }
  | .objectHasSelf, [.node p] => { node := n, objects := {x | (x, x) ∈ p.objectPairs} }
  | .objectMinCardinality, [.integer k, .node p, .node filler] =>
    { node := n, objects := I.countedFillers ((k : ℕ∞) ≤ ·) p.objectPairs filler.objects }
  | .objectMaxCardinality, [.integer k, .node p, .node filler] =>
    { node := n, objects := I.countedFillers (· ≤ (k : ℕ∞)) p.objectPairs filler.objects }
  | .objectExactCardinality, [.integer k, .node p, .node filler] =>
    { node := n, objects := I.countedFillers (· = (k : ℕ∞)) p.objectPairs filler.objects }
  -- data ranges have one position, so a restriction over several properties has no tuple in its filler
  | .dataSomeValuesFrom, [.sequence ps, .node filler] =>
    { node := n, objects := {x | ∃ y ∈ filler.values, ∃ p, ps = [p] ∧ (x, y) ∈ p.dataPairs} }
  | .dataAllValuesFrom, [.sequence ps, .node filler] =>
    { node := n
      objects := {x | ∀ ys, Forall₂ (fun p y => (x, y) ∈ p.dataPairs) ps ys → ∃ y ∈ filler.values, ys = [y]} }
  | .dataHasValue, [.node p, .node literal] =>
    { node := n, objects := {x | (x, I.literal literal.node) ∈ p.dataPairs} }
  | .dataMinCardinality, [.integer k, .node p, .node filler] =>
    { node := n, objects := I.countedFillers ((k : ℕ∞) ≤ ·) p.dataPairs filler.values }
  | .dataMaxCardinality, [.integer k, .node p, .node filler] =>
    { node := n, objects := I.countedFillers (· ≤ (k : ℕ∞)) p.dataPairs filler.values }
  | .dataExactCardinality, [.integer k, .node p, .node filler] =>
    { node := n, objects := I.countedFillers (· = (k : ℕ∞)) p.dataPairs filler.values }
  | .dataIntersectionOf, [.set operands] => { node := n, values := {v | ∀ o ∈ operands, v ∈ o.values} }
  | .dataUnionOf, [.set operands] => { node := n, values := {v | ∃ o ∈ operands, v ∈ o.values} }
  | .dataComplementOf, [.node operand] => { node := n, values := operand.valuesᶜ }
  | .dataOneOf, [.set literals] => { node := n, values := {v | ∃ l ∈ literals, I.literal l.node = v} }
  | .datatypeRestriction, [.node datatype, .set restrictions] =>
    { node := n, values := {v | v ∈ datatype.values ∧ ∀ r ∈ restrictions, v ∈ I.facet r.node} }
  | _, _ => { node := n }

noncomputable def extension : Node → Extension I.Object V := Node.para I.row

noncomputable def objects (n : Node) : Set I.Object := (I.extension n).objects

noncomputable def values (n : Node) : Set V := (I.extension n).values

noncomputable def objectPairs (n : Node) : Set (I.Object × I.Object) := (I.extension n).objectPairs

theorem node_row (n : Node) (fields : List (Value (Extension I.Object V))) : (I.row n fields).node = n := by
  unfold row
  split <;> rfl

@[simp] theorem node_extension (n : Node) : (I.extension n).node = n := by
  rw [extension, para_eq, node_row]

theorem objects_entity (kind iri : Value Node) : I.objects (.mk .entity [kind, iri]) = I.classes (.mk .entity [kind, iri]) := by
  rw [objects, extension, para_eq]
  rfl

theorem exists_mem_map {A B : Type} {f : A → B} {l : List A} {p : B → Prop} :
    (∃ b ∈ l.map f, p b) ↔ ∃ a ∈ l, p (f a) := by
  simp

theorem objects_intersection (operands : List Node) :
    I.objects (.mk .objectIntersectionOf [.set operands]) = {x | ∀ o ∈ operands, x ∈ I.objects o} := by
  rw [objects, extension, para_eq]
  ext x
  exact forall_mem_map

theorem objects_union (operands : List Node) :
    I.objects (.mk .objectUnionOf [.set operands]) = {x | ∃ o ∈ operands, x ∈ I.objects o} := by
  rw [objects, extension, para_eq]
  ext x
  exact exists_mem_map

theorem values_intersection (operands : List Node) :
    I.values (.mk .dataIntersectionOf [.set operands]) = {v | ∀ o ∈ operands, v ∈ I.values o} := by
  rw [values, extension, para_eq]
  ext v
  exact forall_mem_map

theorem values_union (operands : List Node) :
    I.values (.mk .dataUnionOf [.set operands]) = {v | ∃ o ∈ operands, v ∈ I.values o} := by
  rw [values, extension, para_eq]
  ext v
  exact exists_mem_map

theorem objects_oneOf (individuals : List Node) :
    I.objects (.mk .objectOneOf [.set individuals]) = {x | ∃ a ∈ individuals, I.individual a = x} := by
  rw [objects, extension, para_eq]
  ext x
  refine exists_mem_map.trans (exists_congr fun a => and_congr_right fun _ => ?_)
  exact (congrArg (I.individual · = x) (I.node_extension a)).to_iff

theorem values_oneOf (literals : List Node) :
    I.values (.mk .dataOneOf [.set literals]) = {v | ∃ l ∈ literals, I.literal l = v} := by
  rw [values, extension, para_eq]
  ext v
  refine exists_mem_map.trans (exists_congr fun l => and_congr_right fun _ => ?_)
  exact (congrArg (I.literal · = v) (I.node_extension l)).to_iff

end Interpretation

/-- The axioms over a list of operands; a disjoint union also names the class it defines. -/
inductive NaryAxiom where
  | equivalentClasses | disjointClasses | disjointUnion (definedClass : Node)
  | equivalentObjectProperties | disjointObjectProperties
  | equivalentDataProperties | disjointDataProperties
  | sameIndividual | differentIndividuals

namespace NaryAxiom

variable {V : Type} (I : Interpretation V)

def Relates : NaryAxiom → Node → Node → Prop
  | .equivalentClasses, a, b => I.objects a = I.objects b
  | .disjointClasses, a, b | .disjointUnion _, a, b => Disjoint (I.objects a) (I.objects b)
  | .equivalentObjectProperties, a, b => I.objectPairs a = I.objectPairs b
  | .disjointObjectProperties, a, b => Disjoint (I.objectPairs a) (I.objectPairs b)
  | .equivalentDataProperties, a, b => I.dataProperties a = I.dataProperties b
  | .disjointDataProperties, a, b => Disjoint (I.dataProperties a) (I.dataProperties b)
  | .sameIndividual, a, b => I.individual a = I.individual b
  | .differentIndividuals, a, b => I.individual a ≠ I.individual b

def Covers : NaryAxiom → List Node → Prop
  | .disjointUnion definedClass, operands => I.objects definedClass = {x | ∃ o ∈ operands, x ∈ I.objects o}
  | _, _ => True

/-- The truth of an axiom, with its operands compared at every two positions. -/
def Means (kind : NaryAxiom) (operands : List Node) : Prop :=
  operands.Pairwise (kind.Relates I) ∧ kind.Covers I operands

/-- The axiom sets its operands apart, which no operand is from itself unless it is empty. -/
def separates : NaryAxiom → Bool
  | .equivalentClasses | .equivalentObjectProperties | .equivalentDataProperties | .sameIndividual => false
  | .disjointClasses | .disjointUnion _ | .disjointObjectProperties | .disjointDataProperties
  | .differentIndividuals => true

variable {I} {kind : NaryAxiom}

theorem Relates.symm (h : kind.Relates I a b) : kind.Relates I b a := by
  cases kind with
  | disjointClasses | disjointUnion | disjointObjectProperties | disjointDataProperties => exact Disjoint.symm h
  | differentIndividuals => exact Ne.symm h
  | _ => exact Eq.symm h

theorem relates_self (h : kind.separates = false) (a : Node) : kind.Relates I a a := by
  cases kind with
  | equivalentClasses | equivalentObjectProperties | equivalentDataProperties | sameIndividual => rfl
  | _ => cases h

theorem covers_congr (h : ∀ o, o ∈ operands' ↔ o ∈ operands) :
    kind.Covers I operands' ↔ kind.Covers I operands := by
  cases kind with
  | disjointUnion definedClass => simp only [Covers, h]
  | _ => exact Iff.rfl

/-- A symmetric relation holds at every two positions when it holds between different members, and of a
repeated one with itself. -/
theorem pairwise_iff_repeated {A : Type} [DecidableEq A] {R : A → A → Prop} (hsymm : ∀ {a b}, R a b → R b a)
    {l : List A} :
    l.Pairwise R ↔ (∀ a ∈ l, ∀ b ∈ l, a ≠ b → R a b) ∧ ∀ a, 2 ≤ l.count a → R a a := by
  have : Std.Symm R := ⟨fun _ _ => hsymm⟩
  constructor
  · intro h
    refine ⟨fun a ha b hb hne => h.forall ha hb hne, fun a hcount => ?_⟩
    have hsub := duplicate_iff_sublist.mp (duplicate_iff_two_le_count.mpr hcount)
    exact pairwise_iff_forall_sublist.mp h hsub
  · rintro ⟨hne, hself⟩
    refine pairwise_iff_forall_sublist.mpr fun {a b} hsub => ?_
    by_cases heq : a = b
    · subst heq
      exact hself a (duplicate_iff_two_le_count.mp (duplicate_iff_sublist.mpr hsub))
    · exact hne a (hsub.subset (by simp)) b (hsub.subset (by simp)) heq

/-- Over a set of the operands an axiom says what it says over the list, but for the repeated ones. -/
theorem means_iff {operands members : List Node} (hnodup : members.Nodup) (hmem : ∀ o, o ∈ members ↔ o ∈ operands) :
    kind.Means I operands ↔ kind.Means I members ∧ ∀ o, 2 ≤ operands.count o → kind.Relates I o o := by
  have hsingle : ∀ o, ¬ 2 ≤ members.count o := fun o h =>
    absurd (nodup_iff_count_le_one.mp hnodup o) (by omega)
  rw [Means, Means, pairwise_iff_repeated Relates.symm, pairwise_iff_repeated Relates.symm, covers_congr hmem]
  simp only [hmem, hsingle, false_implies, implies_true, and_true]
  exact and_right_comm

end NaryAxiom

namespace Interpretation

variable {V : Type} (I : Interpretation V)

/-- The truth of the axioms that operand lists become; the operands of an n-ary axiom are its set. -/
def Holds : Node → Prop
  | .mk .subClassOf [.node subClass, .node superClass, _] => I.objects subClass ⊆ I.objects superClass
  | .mk .equivalentClasses [.set operands, _] => NaryAxiom.equivalentClasses.Means I operands
  | .mk .disjointClasses [.set operands, _] => NaryAxiom.disjointClasses.Means I operands
  | .mk .disjointUnion [.node definedClass, .set operands, _] => (NaryAxiom.disjointUnion definedClass).Means I operands
  | .mk .equivalentObjectProperties [.set operands, _] => NaryAxiom.equivalentObjectProperties.Means I operands
  | .mk .disjointObjectProperties [.set operands, _] => NaryAxiom.disjointObjectProperties.Means I operands
  | .mk .equivalentDataProperties [.set operands, _] => NaryAxiom.equivalentDataProperties.Means I operands
  | .mk .disjointDataProperties [.set operands, _] => NaryAxiom.disjointDataProperties.Means I operands
  | .mk .sameIndividual [.set operands, _] => NaryAxiom.sameIndividual.Means I operands
  | .mk .differentIndividuals [.set operands, _] => NaryAxiom.differentIndividuals.Means I operands
  | _ => False

end Interpretation

end OwlCore
