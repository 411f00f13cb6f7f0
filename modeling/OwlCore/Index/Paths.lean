import OwlCore.Index.Entities
import OwlCore.Lib.LittleEndian

/-!
# Constructor paths

The walk that the occurrence indexes share finds every nested value with its path and the role
of the last field. Following the path leads to the value. Moving individuals keeps the paths as
long as no set changes its order.
-/
namespace OwlCore

open List

inductive ReferenceRole where
  | root | structural | iri | declaration | annotations | subject | object | property | subProperty | superProperty
  | subclass | superclass | classExpression | filler | domain | range | value | individual | operand | definedClass
  | datatype | facet | ruleBody | ruleHead | rulePredicate | ruleArgument
  deriving DecidableEq

namespace ReferenceRole

def all : List ReferenceRole :=
  [.root, .structural, .iri, .declaration, .annotations, .subject, .object, .property, .subProperty, .superProperty,
    .subclass, .superclass, .classExpression, .filler, .domain, .range, .value, .individual, .operand, .definedClass,
    .datatype, .facet, .ruleBody, .ruleHead, .rulePredicate, .ruleArgument]

def text : ReferenceRole → String
  | .root => "root" | .structural => "structural" | .iri => "iri" | .declaration => "declaration"
  | .annotations => "annotation" | .subject => "subject" | .object => "object" | .property => "property"
  | .subProperty => "sub_property" | .superProperty => "super_property" | .subclass => "subclass"
  | .superclass => "superclass" | .classExpression => "class_expression" | .filler => "filler"
  | .domain => "domain" | .range => "range" | .value => "value" | .individual => "individual"
  | .operand => "operand" | .definedClass => "defined_class" | .datatype => "datatype" | .facet => "facet"
  | .ruleBody => "rule_body" | .ruleHead => "rule_head" | .rulePredicate => "rule_predicate"
  | .ruleArgument => "rule_argument"

def bytes (role : ReferenceRole) : Bytes := utf8Encode role.text

end ReferenceRole

def roleFor (constructorName field : String) : ReferenceRole :=
  if field = "annotations" then .annotations
  else if field = "entity" then .declaration
  else if field = "sub_class" then .subclass
  else if field = "super_class" then .superclass
  else if field = "sub_property" then .subProperty
  else if field = "super_property" then .superProperty
  else if field = "defined_class" then .definedClass
  else if field = "domain" then .domain
  else if field ∈ ["range", "data_range"] then .range
  else if field = "filler" then .filler
  else if field ∈ ["expressions", "operands", "properties", "restrictions"] then .operand
  else if field ∈ ["object_properties", "data_properties", "property"] then .property
  else if field = "individuals" then .individual
  else if field ∈ ["subject", "source", "first"] then .subject
  else if field ∈ ["target", "second"] then
    if "Atom".toList.isSuffixOf constructorName.toList then .ruleArgument else .object
  else if field ∈ ["argument", "arguments"] then .ruleArgument
  else if field = "predicate" then .rulePredicate
  else if field = "body" then .ruleBody
  else if field = "head" then .ruleHead
  else if field = "class_expression" then .classExpression
  else if field = "datatype" then .datatype
  else if field ∈ ["facet", "value"] then if field = "value" then .value else .facet
  else if field = "iri" then .iri
  else .structural

/-- A `ConstructorPathStep` with the parts of its `FieldID`. -/
structure PathStep where
  tag : Nat
  ordinal : Nat
  index : Option Nat
  deriving DecidableEq

/-- The nested values of a field with their positions in a collection. -/
def Value.items {N : Type} : Value N → List (Option Nat × N)
  | .node value => [(Option.none, value)]
  | .set members => members.zipIdx.map fun item => (some item.2, item.1)
  | .sequence items => items.zipIdx.map fun item => (some item.2, item.1)
  | _ => []

def Value.at {N : Type} : Value N → Option Nat → Option N
  | .node value, Option.none => some value
  | .set members, some index => members[index]?
  | .sequence items, some index => items[index]?
  | _, _ => Option.none

/-- The children of a value that the walk pushes, with the steps to them and their roles. -/
def walkItems {N : Type} (includeAnnotations : Bool) (c : Constructor) (fields : List (Value N)) :
    List (PathStep × ReferenceRole × N) :=
  (c.fieldSpecs.zip fields).zipIdx.flatMap fun field =>
    let role := roleFor c.name field.1.1.name
    if !includeAnnotations && decide (role = .annotations) then []
    else field.1.2.items.map fun item => (⟨c.tag, field.2, item.1⟩, role, item.2)

/-- `iter_structural_occurrences` of a value that was reached in the given role. -/
def Node.structuralOccurrences (includeAnnotations : Bool) :
    Node → ReferenceRole → List (Node × List PathStep × ReferenceRole) :=
  Node.para fun n fields role => (n, [], role) ::
    (walkItems includeAnnotations n.constructor fields).flatMap fun item =>
      (item.2.2 item.2.1).map fun found => (found.1, item.1 :: found.2.1, found.2.2)

def Node.stepTo (n : Node) (step : PathStep) : Option Node :=
  if n.constructor.tag = step.tag then n.fields[step.ordinal]?.bind fun v => v.at step.index else none

def Node.follow : List PathStep → Node → Option Node
  | [], n => some n
  | step :: path, n => (n.stepTo step).bind (Node.follow path)

/-- Moving the individuals of a value leaves all sets in it in order. -/
def Node.KeepsOrder (f : AnonymousIndividual → AnonymousIndividual) (n : Node) : Prop :=
  n.Everywhere fun m => ∀ ms, .set ms ∈ m.fields → KeyedSet.Ascending Node.bytes (ms.map (Node.mapAnonymous f))

/-- The collections in a value have fewer than `2 ^ 32` members. -/
def Node.Narrow (n : Node) : Prop := n.Everywhere fun m => ∀ v ∈ m.fields, v.nodes.length < 2 ^ 32

/-- `Node.Narrow`, computed. -/
def Node.isNarrow : Node → Bool := Node.para fun n fields =>
  (n.fields.all fun v => decide (v.nodes.length < 2 ^ 32)) && fields.all fun v => v.nodes.all id

theorem Node.narrow_of_isNarrow {n : Node} (h : n.isNarrow = true) : n.Narrow := by
  induction n using Node.induct with
  | step n ih =>
    rw [Node.isNarrow, Node.para_eq] at h
    simp only [Bool.and_eq_true, all_eq_true, decide_eq_true_eq, mem_map, forall_exists_index, and_imp,
      forall_apply_eq_imp_iff₂, Value.nodes_map, id_eq] at h
    refine .intro h.1 fun m hm => ih m hm ?_
    obtain ⟨v, hv, hm⟩ := Node.mem_children.mp hm
    exact h.2 v hv m hm

section

variable {includeAnnotations : Bool} {n k : Node} {f : AnonymousIndividual → AnonymousIndividual}
  {role found : ReferenceRole} {path : List PathStep}

theorem Value.items_map (g : M → N) (v : Value M) :
    (v.map g).items = v.items.map fun item => (item.1, g item.2) := by
  cases v <;> simp [Value.items, Value.map, zipIdx_map]

theorem Value.mem_items {v : Value N} {index : Option Nat} {x : N} :
    (index, x) ∈ v.items ↔ v.at index = some x := by
  cases v <;> cases index <;> simp [Value.items, Value.at, mem_zipIdx_iff_getElem?, eq_comm]

theorem Value.mem_nodes_of_at {v : Value N} {index : Option Nat} {x : N} (h : v.at index = some x) :
    x ∈ v.nodes := by
  cases v <;> cases index <;> simp_all [Value.at, Value.nodes] <;> exact mem_of_getElem? h

theorem walkItems_map (g : M → N) (c : Constructor) (fields : List (Value M)) :
    walkItems includeAnnotations c (fields.map (Value.map g)) =
      (walkItems includeAnnotations c fields).map fun item => (item.1, item.2.1, g item.2.2) := by
  simp only [walkItems, zip_map_right, zipIdx_map, flatMap_map, map_flatMap]
  apply flatMap_congr
  rintro ⟨⟨spec, v⟩, ordinal⟩ -
  simp only [Prod.map_apply, id_eq]
  split
  · rfl
  · rw [Value.items_map, List.map_map, List.map_map]
    rfl

theorem Node.structuralOccurrences_eq (n : Node) (role : ReferenceRole) :
    n.structuralOccurrences includeAnnotations role = (n, [], role) ::
      (walkItems includeAnnotations n.constructor n.fields).flatMap fun item =>
        (item.2.2.structuralOccurrences includeAnnotations item.2.1).map fun found =>
          (found.1, item.1 :: found.2.1, found.2.2) := by
  rw [Node.structuralOccurrences, Node.para_eq, walkItems_map, flatMap_map]

theorem stepTo_of_mem_walkItems {step : PathStep} (h : (step, found, k) ∈ walkItems includeAnnotations n.constructor n.fields) :
    n.stepTo step = some k ∧ step.tag = n.constructor.tag ∧ step.ordinal < n.constructor.arity ∧
      ∃ v ∈ n.fields, v.at step.index = some k := by
  obtain ⟨⟨⟨spec, v⟩, ordinal⟩, hfield, hitem⟩ := mem_flatMap.mp h
  have hget := mem_zipIdx_iff_getElem?.mp hfield
  simp only at hitem
  split at hitem
  · cases hitem
  · obtain ⟨⟨index, m⟩, hm, heq⟩ := mem_map.mp hitem
    simp only [Prod.mk.injEq] at heq
    obtain ⟨rfl, -, rfl⟩ := heq
    rw [getElem?_zip_eq_some] at hget
    have hat := Value.mem_items.mp hm
    refine ⟨?_, rfl, (List.getElem?_eq_some_iff.mp hget.1).1, v, mem_of_getElem? hget.2, hat⟩
    rw [Node.stepTo, if_pos rfl, hget.2]
    exact hat

theorem child_of_mem_walkItems {step : PathStep}
    (h : (step, found, k) ∈ walkItems includeAnnotations n.constructor n.fields) : k ∈ n.children := by
  obtain ⟨-, -, -, v, hv, hat⟩ := stepTo_of_mem_walkItems h
  exact Node.mem_children.mpr ⟨v, hv, Value.mem_nodes_of_at hat⟩

theorem Node.structuralOccurrences_induct {P : Node → Node → List PathStep → Prop} (hroot : ∀ n, P n n [])
    (hstep : ∀ n step m role k path, (step, role, m) ∈ walkItems includeAnnotations n.constructor n.fields →
      P m k path → P n k (step :: path)) (h : (k, path, found) ∈ n.structuralOccurrences includeAnnotations role) :
    P n k path := by
  induction n using Node.induct generalizing role k path found with
  | step n ih =>
    rw [Node.structuralOccurrences_eq, mem_cons] at h
    rcases h with h | h
    · simp only [Prod.mk.injEq] at h
      obtain ⟨rfl, rfl, -⟩ := h
      exact hroot k
    · obtain ⟨⟨step, childRole, m⟩, hm, h⟩ := mem_flatMap.mp h
      obtain ⟨⟨k', path', found'⟩, hfound, heq⟩ := mem_map.mp h
      simp only [Prod.mk.injEq] at heq
      obtain ⟨rfl, rfl, rfl⟩ := heq
      exact hstep n step m childRole k' path' hm (ih m (child_of_mem_walkItems hm) hfound)

theorem follow_of_mem (h : (k, path, found) ∈ n.structuralOccurrences includeAnnotations role) :
    Node.follow path n = some k := by
  refine Node.structuralOccurrences_induct (P := fun n k path => Node.follow path n = some k) (fun _ => rfl)
    (fun n step m role k path hm ih => ?_) h
  rw [Node.follow, (stepTo_of_mem_walkItems hm).1]
  exact ih

theorem everywhere_of_mem {P : Node → Prop} (hn : n.Everywhere P)
    (h : (k, path, found) ∈ n.structuralOccurrences includeAnnotations role) : k.Everywhere P := by
  refine Node.structuralOccurrences_induct (P := fun n k _ => n.Everywhere P → k.Everywhere P) (fun _ => id)
    (fun n step m role k path hm ih hn => ?_) h hn
  exact ih (hn.child (child_of_mem_walkItems hm))

theorem Node.KeepsOrder.fields_mapAnonymous (h : n.KeepsOrder f) (hnone : n.anonymous? = none) :
    (n.mapAnonymous f).fields = n.fields.map (Value.map (Node.mapAnonymous f)) := by
  rw [Node.fields_mapAnonymous hnone]
  apply map_congr_left
  intro v hv
  cases v with
  | set ms => exact congrArg Value.set (KeyedSet.ofList_eq_self (h.here ms hv))
  | _ => rfl

theorem walkItems_anonymous (a : AnonymousIndividual) :
    walkItems includeAnnotations a.node.constructor a.node.fields = [] := by
  rw [eq_nil_iff_forall_not_mem]
  rintro ⟨step, found, k⟩ hmem
  have hchild := child_of_mem_walkItems hmem
  rw [Node.children_node] at hchild
  cases hchild

theorem Node.KeepsOrder.structuralOccurrences_mapAnonymous (h : n.KeepsOrder f) (role : ReferenceRole) :
    (n.mapAnonymous f).structuralOccurrences includeAnnotations role =
      (n.structuralOccurrences includeAnnotations role).map fun found => (found.1.mapAnonymous f, found.2) := by
  induction n using Node.induct generalizing role with
  | step n ih =>
    rw [Node.structuralOccurrences_eq, Node.structuralOccurrences_eq n, map_cons]
    congr 1
    cases hnone : n.anonymous? with
    | some a =>
      obtain rfl := Node.anonymous?_eq_some.mp hnone
      rw [Node.mapAnonymous_node, walkItems_anonymous, walkItems_anonymous]
      rfl
    | none =>
      rw [h.fields_mapAnonymous hnone, Node.constructor_mapAnonymous, walkItems_map, flatMap_map, map_flatMap]
      apply flatMap_congr
      rintro ⟨step, childRole, m⟩ hm
      have hchild := child_of_mem_walkItems hm
      simp only [ih m hchild (h.child hchild), List.map_map]
      rfl

end

section

/-- `int.to_bytes(width, "big")`. -/
def bigEndian (width n : Nat) : Bytes := (LittleEndian.encode width n).reverse

def PathStep.bytes (step : PathStep) : Bytes :=
  bigEndian 2 step.tag ++ (bigEndian 2 step.ordinal ++ bigEndian 4 (step.index.getD 0xFFFFFFFF))

/-- What `_occurrence_key` puts behind the container. -/
def pathKey (path : List PathStep) (role : ReferenceRole) (key : Bytes) : Bytes :=
  path.flatMap PathStep.bytes ++ 0 :: (role.bytes ++ 0 :: key)

/-- The numbers of a step fit their fields, and no position is written as the absent one. -/
structure PathStep.Small (step : PathStep) : Prop where
  tag : step.tag < 256 ^ 2
  ordinal : step.ordinal < 256
  index : ∀ i ∈ step.index, i < 0xFFFFFFFF

theorem bigEndian_inj (hn : n < 256 ^ width) (hm : m < 256 ^ width) (h : bigEndian width n = bigEndian width m) : n = m := by
  rw [← LittleEndian.decode_encode hn, ← LittleEndian.decode_encode hm, reverse_injective h]

@[simp] theorem length_bigEndian (width n : Nat) : (bigEndian width n).length = width := by
  simp [bigEndian]

variable {x y : Bytes}

theorem PathStep.bytes_append_inj {s t : PathStep} (hs : s.Small) (ht : t.Small)
    (h : s.bytes ++ x = t.bytes ++ y) : s = t ∧ x = y := by
  have hlength : s.bytes.length = t.bytes.length := by simp [PathStep.bytes]
  obtain ⟨hbytes, hxy⟩ := append_inj h hlength
  obtain ⟨htag, hrest⟩ := append_inj hbytes (by simp)
  obtain ⟨hordinal, hindex⟩ := append_inj hrest (by simp)
  have hbound : ∀ step : PathStep, step.Small → step.index.getD 0xFFFFFFFF < 256 ^ 4 := by
    rintro ⟨tag, ordinal, index⟩ hsmall
    cases index with
    | none =>
      rw [Option.getD_none]
      decide
    | some i => exact lt_trans (hsmall.index i rfl) (by decide)
  have hcode := bigEndian_inj (hbound s hs) (hbound t ht) hindex
  obtain ⟨tag, ordinal, index⟩ := s
  obtain ⟨tag', ordinal', index'⟩ := t
  obtain rfl : tag = tag' := bigEndian_inj hs.tag ht.tag htag
  obtain rfl : ordinal = ordinal' :=
    bigEndian_inj (lt_trans hs.ordinal (by decide)) (lt_trans ht.ordinal (by decide)) hordinal
  refine ⟨?_, hxy⟩
  congr
  cases index with
  | none =>
    cases index' with
    | none => rfl
    | some i => exact absurd (ht.index i rfl) (by simp at hcode; omega)
  | some i =>
    cases index' with
    | none => exact absurd (hs.index i rfl) (by simp at hcode; omega)
    | some j => exact congrArg some hcode

theorem ReferenceRole.mem_all (role : ReferenceRole) : role ∈ all := by
  cases role <;> decide

theorem ReferenceRole.bytes_injective : Function.Injective ReferenceRole.bytes := by
  have hnodup : (all.map text).Nodup := by decide +kernel
  intro a b h
  exact inj_on_of_nodup_map hnodup a.mem_all b.mem_all (utf8Encode_injective h)

theorem ReferenceRole.bytes_ne_zero (role : ReferenceRole) : ∀ b ∈ role.bytes, b ≠ 0 := by
  cases role <;> decide +kernel

theorem ReferenceRole.exists_bytes (role : ReferenceRole) : ∃ a b rest, role.bytes = a :: b :: rest ∧ b ≠ 0 := by
  have hlength : 2 ≤ role.bytes.length := by cases role <;> decide +kernel
  match h : role.bytes with
  | [] | [_] => simp [h] at hlength
  | a :: b :: rest => exact ⟨a, b, rest, rfl, role.bytes_ne_zero b (by simp [h])⟩

theorem append_zero_inj (ha : ∀ c ∈ a, c ≠ 0) (hb : ∀ c ∈ b, c ≠ 0) (h : a ++ 0 :: x = b ++ 0 :: y) : a = b ∧ x = y := by
  induction a generalizing b with
  | nil =>
    cases b with
    | nil => exact ⟨rfl, (List.cons.inj h).2⟩
    | cons c b => exact absurd (List.cons.inj h).1.symm (hb c (by simp))
  | cons c a ih =>
    cases b with
    | nil => exact absurd (List.cons.inj h).1 (ha c (by simp))
    | cons d b =>
      obtain ⟨rfl, hrest⟩ := List.cons.inj h
      obtain ⟨rfl, hxy⟩ := ih (fun e he => ha e (by simp [he])) (fun e he => hb e (by simp [he])) hrest
      exact ⟨rfl, hxy⟩

variable {role : ReferenceRole}

/-- A step is not read as the end of a path: the third byte of a step is zero, that of the end is not. -/
theorem PathStep.bytes_append_ne {step : PathStep} (h : step.Small) :
    step.bytes ++ x ≠ 0 :: (role.bytes ++ y) := by
  intro heq
  obtain ⟨a, b, rest, hrole, hb⟩ := role.exists_bytes
  rw [hrole] at heq
  have hzero : step.ordinal / 256 = 0 := Nat.div_eq_of_lt h.ordinal
  simp only [PathStep.bytes, bigEndian, LittleEndian.encode, reverse_cons, reverse_nil, nil_append,
    cons_append, hzero, List.cons.injEq] at heq
  exact hb heq.2.2.1.symm

theorem pathKey_inj (hpath : ∀ s ∈ path, s.Small) (hpath' : ∀ s ∈ path', s.Small) (h : pathKey path role x = pathKey
    path' role' y) :
    path = path' ∧ role = role' ∧ x = y := by
  induction path generalizing path' with
  | nil =>
    cases path' with
    | nil =>
      obtain ⟨hrole, hxy⟩ := append_zero_inj role.bytes_ne_zero role'.bytes_ne_zero (List.cons.inj h).2
      exact ⟨rfl, ReferenceRole.bytes_injective hrole, hxy⟩
    | cons s path' =>
      rw [pathKey, pathKey, flatMap_cons, append_assoc] at h
      exact absurd h.symm (PathStep.bytes_append_ne (hpath' s (by simp)))
  | cons s path ih =>
    cases path' with
    | nil =>
      rw [pathKey, pathKey, flatMap_cons, append_assoc] at h
      exact absurd h (PathStep.bytes_append_ne (hpath s (by simp)))
    | cons t path' =>
      rw [pathKey, pathKey, flatMap_cons, flatMap_cons, append_assoc, append_assoc] at h
      obtain ⟨rfl, hrest⟩ := PathStep.bytes_append_inj (hpath s (by simp)) (hpath' t (by simp)) h
      obtain ⟨rfl, hrole⟩ := ih (fun u hu => hpath u (by simp [hu])) (fun u hu => hpath' u (by simp [hu])) hrest
      exact ⟨rfl, hrole⟩

theorem small_of_mem {includeAnnotations : Bool} {n k : Node} {found : ReferenceRole} {path : List PathStep}
    (hn : n.Narrow) (h : (k, path, found) ∈ n.structuralOccurrences includeAnnotations role) : ∀ s ∈ path, s.Small := by
  refine Node.structuralOccurrences_induct (P := fun n _ path => n.Narrow → ∀ s ∈ path, s.Small) (fun _ _ => by simp)
    (fun n step m role k path hm ih hn => ?_) h hn
  obtain ⟨-, htag, hordinal, v, hv, hat⟩ := stepTo_of_mem_walkItems hm
  have htags : n.constructor.tag < 256 ^ 2 := by cases n.constructor <;> decide
  have harity : n.constructor.arity < 256 := by cases n.constructor <;> decide
  have hindex : ∀ i ∈ step.index, i < 0xFFFFFFFF := by
    intro i hi
    have hlength := hn.here v hv
    rw [Option.mem_def.mp hi] at hat
    have hlt : i < v.nodes.length := by
      cases v <;> simp only [Value.at, reduceCtorEq] at hat <;> exact (List.getElem?_eq_some_iff.mp hat).1
    omega
  intro s hs
  rcases mem_cons.mp hs with rfl | hs
  · exact ⟨htag ▸ htags, lt_trans hordinal harity, hindex⟩
  · exact ih (hn.child (child_of_mem_walkItems hm)) s hs

end

end OwlCore
