import OwlCore.Semantics.Direct

/-!
# Operand lists

What the Functional parser and the RDF mapper make of a written list of operands. Both put it
into a canonical set, which forgets repetitions. `_disjoint_class_axioms` adds an axiom for each
repeated class expression, `_disjoint_classes` only where nothing else is left, the others none.
-/
namespace OwlCore

open Fallible KeyedSet List

/-- `OWL_NOTHING`. -/
def owlNothing : Node := owlEntity .class "Nothing"

namespace Functional

/-- The axiom of `_disjoint_class_axioms` over the different expressions, if there are two. -/
def distinctAxiom (canonical annotations : List Node) : Except Error (List Node) :=
  if 2 ≤ canonical.length then do
    let value ← construct .disjointClasses [.set canonical, .set annotations]
    .ok [value]
  else .ok []

def disjointClassAxioms (expressions annotations : List Node) : Except Error (List Node) := do
  let canonical ← canonicalSetOf expressions
  if expressions.length < 2 then do
    let value ← construct .disjointClasses [.set canonical, .set annotations]
    .ok [value]
  else do
    let keys ← expressions.mapM (canonicalBytes defaultLimits)
    let disjoint ← distinctAxiom canonical annotations
    let repeated ← (canonical.filter fun expression => 2 ≤ keys.count expression.bytes).mapM fun expression =>
      construct .subClassOf [.node expression, .node owlNothing, .set annotations]
    .ok (disjoint ++ repeated)

def axiomClass : NaryAxiom → Constructor
  | .equivalentClasses => .equivalentClasses
  | .disjointClasses => .disjointClasses
  | .disjointUnion _ => .disjointUnion
  | .equivalentObjectProperties => .equivalentObjectProperties
  | .disjointObjectProperties => .disjointObjectProperties
  | .equivalentDataProperties => .equivalentDataProperties
  | .disjointDataProperties => .disjointDataProperties
  | .sameIndividual => .sameIndividual
  | .differentIndividuals => .differentIndividuals

def leading : NaryAxiom → List Arg
  | .disjointUnion definedClass => [.node definedClass]
  | _ => []

/-- The branches of `_parse_axiom` over a list of operands, after the operands have been read. -/
def parseAxiom (operands annotations : List Node) : NaryAxiom → Except Error (List Node)
  | .disjointClasses => disjointClassAxioms operands annotations
  | kind => do
    let canonical ← canonicalSetOf operands
    let value ← construct (axiomClass kind) (leading kind ++ [.set canonical, .set annotations])
    .ok [value]

/-- Intersections and unions in `_parse_class_expression` and `_parse_data_range`. -/
def parseOperands (c : Constructor) (operands : List Node) : Except Error Node := do
  let canonical ← canonicalSetOf operands
  match canonical with
  | [value] => if 2 ≤ operands.length then .ok value else construct c [.set canonical]
  | _ => construct c [.set canonical]

/-- `ObjectOneOf` and `DataOneOf`. -/
def parseOneOf (c : Constructor) (operands : List Node) : Except Error Node := do
  let canonical ← canonicalSetOf operands
  construct c [.set canonical]

end Functional

/-- `_disjoint_classes` of the RDF mapper. -/
def disjointClasses (expressions annotations : List Node) : Except Error Node := do
  let canonical ← canonicalSetOf expressions
  match canonical with
  | [value] =>
    if 2 ≤ expressions.length then construct .subClassOf [.node value, .node owlNothing, .set annotations]
    else construct .disjointClasses [.set canonical, .set annotations]
  | _ => construct .disjointClasses [.set canonical, .set annotations]

section

variable {members annotations operands : List Node}

def IsSetOf (members operands : List Node) : Prop := members.Nodup ∧ ∀ o, o ∈ members ↔ o ∈ operands

theorem isSetOf_canonicalSetOf (hops : ∀ o ∈ operands, Constructible o) (h : canonicalSetOf operands = .ok members) :
    IsSetOf members operands := by
  obtain ⟨-, rfl⟩ := canonicalSetOf_ok_iff.mp h
  exact ⟨(ascending_ofList _).nodup, mem_ofList (Node.keyInjOn_canonical fun o ho => (hops o ho).canonical)⟩

theorem isSetOf_canonicalSet {minimum : Nat} {set : List Node} (hops : ∀ o ∈ operands, Constructible o) (hmembers :
    IsSetOf members operands) (h : canonicalSet (members.map .node) expected path minimum none = .ok set) : IsSetOf set operands := by
  have hconstructible : ∀ o ∈ members, Constructible o := fun o ho => hops o ((hmembers.2 o).mp ho)
  refine ⟨?_, fun o => ?_⟩
  · obtain ⟨-, -, rfl, -⟩ := canonicalSet_ok_iff.mp h
    exact (ascending_ofList _).nodup
  · rw [mem_canonicalSet hconstructible h, ← hmembers.2]
    simp [spliced]

theorem checkFields_setAxiom (h : checkFields (Schema.setAxiom c name expected) [.set members, .set annotations] = .ok
    fields) :
    ∃ set v, fields = [.set set, v] ∧
      canonicalSet (members.map .node) expected (c.name ++ "." ++ name) 2 none = .ok set := by
  obtain ⟨v, hv, h⟩ := bind_eq_ok.mp h
  obtain ⟨rest, hrest, h⟩ := bind_eq_ok.mp h
  obtain ⟨w, -, hrest⟩ := bind_eq_ok.mp hrest
  obtain rfl := Except.ok.inj h
  obtain ⟨items, hitems, hv⟩ := bind_eq_ok.mp hv
  obtain rfl := Except.ok.inj hitems
  obtain ⟨set, hset, rfl⟩ := map_eq_ok.mp hv
  obtain rfl := Except.ok.inj hrest
  exact ⟨set, w, rfl, hset⟩

theorem checkField_node (hspec : spec.check = .node expected) (h : checkField spec (.node n) = .ok v) : v = .node n := by
  unfold checkField at h
  rw [hspec] at h
  obtain ⟨m, hm, rfl⟩ := map_eq_ok.mp h
  simp only [requireNode] at hm
  split at hm
  · rw [Except.ok.inj hm]
  · cases hm

/-- An n-ary axiom is true when its set satisfies what is asked of the operands. -/
theorem holds_nary (I : Interpretation V) (hops : ∀ o ∈ operands, Constructible o) (hmembers : IsSetOf members
    operands) (kind : NaryAxiom) (h : construct (Functional.axiomClass kind) (Functional.leading kind ++ [.set
    members, .set annotations]) = .ok value) :
    ∃ set, IsSetOf set operands ∧ (I.Holds value ↔ kind.Means I set) := by
  cases kind with
  | disjointUnion definedClass =>
    obtain ⟨fields, hfields, rfl⟩ := map_eq_ok.mp h
    obtain ⟨v, hv, hfields⟩ := bind_eq_ok.mp hfields
    obtain ⟨rest, hrest, hfields⟩ := bind_eq_ok.mp hfields
    obtain rfl := Except.ok.inj hfields
    obtain ⟨set, w, rfl, hset⟩ := checkFields_setAxiom hrest
    obtain rfl := checkField_node rfl hv
    exact ⟨set, isSetOf_canonicalSet hops hmembers hset, Iff.rfl⟩
  | _ =>
    obtain ⟨fields, hfields, rfl⟩ := map_eq_ok.mp h
    obtain ⟨set, w, rfl, hset⟩ := checkFields_setAxiom hfields
    exact ⟨set, isSetOf_canonicalSet hops hmembers hset, Iff.rfl⟩

/-- `SubClassOf(e, OWL_NOTHING)` forces the expression empty. -/
theorem holds_subClassOf_nothing (I : Interpretation V) (h : construct .subClassOf [.node n, .node owlNothing, .set
    annotations] = .ok value) :
    I.Holds value ↔ NaryAxiom.disjointClasses.Relates I n n := by
  obtain ⟨fields, hfields, rfl⟩ := map_eq_ok.mp h
  obtain ⟨v, hv, hfields⟩ := bind_eq_ok.mp hfields
  obtain ⟨rest, hrest, hfields⟩ := bind_eq_ok.mp hfields
  obtain ⟨w, hw, hrest⟩ := bind_eq_ok.mp hrest
  obtain ⟨last, hlast, hrest⟩ := bind_eq_ok.mp hrest
  obtain ⟨u, -, hlast⟩ := bind_eq_ok.mp hlast
  obtain rfl := Except.ok.inj hfields
  obtain rfl := Except.ok.inj hrest
  obtain rfl := Except.ok.inj hlast
  obtain rfl := checkField_node rfl hv
  obtain rfl := checkField_node rfl hw
  change I.objects n ⊆ I.objects owlNothing ↔ Disjoint (I.objects n) (I.objects n)
  rw [owlNothing, owlEntity, I.objects_entity, ← owlEntity, I.nothing, Set.subset_empty_iff, disjoint_self,
    Set.bot_eq_empty]

end

section

variable {V : Type} (I : Interpretation V) {operands annotations : List Node}

theorem count_map_bytes (hops : ∀ o ∈ operands, Constructible o) (he : e ∈ operands) :
    (operands.map Node.bytes).count e.bytes = operands.count e := by
  rw [count_eq_countP, countP_map, count_eq_countP]
  refine countP_congr fun o ho => ?_
  simp only [Function.comp_apply, beq_iff_eq]
  exact ⟨fun h => (hops o ho).bytes_inj (hops e he) h, fun h => h ▸ rfl⟩

theorem mapM_canonicalBytes {keys : List Bytes} (h : operands.mapM (canonicalBytes defaultLimits) = .ok keys) :
    keys = operands.map Node.bytes :=
  ((mapM_eq_ok_iff fun _ _ => canonicalBytes_ok_iff).mp h).2

theorem mem_of_repeated (h : 2 ≤ operands.count o) : o ∈ operands :=
  count_pos_iff.mp (by omega)

theorem means_disjoint_of_length (h : members.length < 2) :
    NaryAxiom.disjointClasses.Means I members := by
  refine ⟨?_, trivial⟩
  rcases members with _ | ⟨o, _ | ⟨p, rest⟩⟩
  · exact List.Pairwise.nil
  · exact pairwise_singleton _ o
  · simp at h

/-- The axioms of `_disjoint_class_axioms` together say what the written list says. -/
theorem holds_disjointClassAxioms (hops : ∀ o ∈ operands, Constructible o) (hlength : 2 ≤ operands.length) (h :
    Functional.disjointClassAxioms operands annotations = .ok axioms) :
    (∀ a ∈ axioms, I.Holds a) ↔ NaryAxiom.disjointClasses.Means I operands := by
  obtain ⟨canonical, hcanonical, h⟩ := bind_eq_ok.mp h
  have hset := isSetOf_canonicalSetOf hops hcanonical
  rw [if_neg (not_lt.mpr hlength)] at h
  obtain ⟨keys, hkeys, h⟩ := bind_eq_ok.mp h
  obtain rfl := mapM_canonicalBytes hkeys
  obtain ⟨disjoint, hdisjoint, h⟩ := bind_eq_ok.mp h
  obtain ⟨repeated, hrepeated, h⟩ := bind_eq_ok.mp h
  obtain rfl := Except.ok.inj h
  rw [NaryAxiom.means_iff hset.1 hset.2, forall_mem_append]
  refine and_congr ?_ ?_
  · unfold Functional.distinctAxiom at hdisjoint
    by_cases htwo : 2 ≤ canonical.length
    · rw [if_pos htwo] at hdisjoint
      obtain ⟨value, hvalue, hdisjoint⟩ := bind_eq_ok.mp hdisjoint
      obtain rfl := Except.ok.inj hdisjoint
      obtain ⟨set, hmembers, hholds⟩ := holds_nary I hops hset .disjointClasses hvalue
      have hsame : ∀ o, o ∈ set ↔ o ∈ canonical := fun o => (hmembers.2 o).trans (hset.2 o).symm
      have hsingle : ∀ o, ¬ 2 ≤ canonical.count o := fun o h =>
        absurd (nodup_iff_count_le_one.mp hset.1 o) (by omega)
      rw [forall_mem_singleton, hholds, NaryAxiom.means_iff hmembers.1 hsame]
      simp [hsingle]
    · rw [if_neg htwo] at hdisjoint
      obtain rfl := Except.ok.inj hdisjoint
      simp [means_disjoint_of_length I (not_le.mp htwo)]
  · constructor
    · intro hholds o hcount
      have ho := mem_of_repeated hcount
      obtain ⟨value, hvalue, hconstruct⟩ := exists_of_mem_left hrepeated
        (mem_filter.mpr ⟨(hset.2 o).mpr ho, by simpa [count_map_bytes hops ho] using hcount⟩)
      exact (holds_subClassOf_nothing I hconstruct).mp (hholds value hvalue)
    · intro hempty value hvalue
      obtain ⟨o, ho, hconstruct⟩ := exists_of_mem_mapM hrepeated hvalue
      obtain ⟨ho, hcount⟩ := mem_filter.mp ho
      rw [decide_eq_true_eq, count_map_bytes hops ((hset.2 o).mp ho)] at hcount
      exact (holds_subClassOf_nothing I hconstruct).mpr (hempty o hcount)

variable {value : Node}

section

variable (hops : ∀ o ∈ operands, Constructible o)

include hops

/-- An axiom over the set of the operands says what the list says, but for the repeated operands. -/
theorem means_iff_holds (hmembers : IsSetOf members operands) (h : construct
    (Functional.axiomClass kind) (Functional.leading kind ++ [.set members, .set annotations]) = .ok value) :
    kind.Means I operands ↔ I.Holds value ∧ ∀ o, 2 ≤ operands.count o → kind.Relates I o o := by
  obtain ⟨set, hset, hholds⟩ := holds_nary I hops hmembers kind h
  rw [NaryAxiom.means_iff hset.1 hset.2, hholds]

theorem means_iff_disjointClasses (hlength : 2 ≤ operands.length) (h : disjointClasses operands annotations = .ok value) :
    NaryAxiom.disjointClasses.Means I operands ↔ I.Holds value ∧ ∀ o, 2 ≤ operands.count o → I.objects o = ∅ := by
  have hself : ∀ o, NaryAxiom.disjointClasses.Relates I o o ↔ I.objects o = ∅ := fun o => by
    rw [NaryAxiom.Relates, disjoint_self, Set.bot_eq_empty]
  obtain ⟨canonical, hcanonical, h⟩ := bind_eq_ok.mp h
  have hset := isSetOf_canonicalSetOf hops hcanonical
  split at h
  · rename_i o
    rw [if_pos hlength] at h
    rw [NaryAxiom.means_iff hset.1 hset.2, holds_subClassOf_nothing I h]
    have hmeans : NaryAxiom.disjointClasses.Means I [o] := means_disjoint_of_length I (by simp)
    have hcount : 2 ≤ operands.count o := by
      rwa [count_eq_length.mpr fun b hb => (mem_singleton.mp ((hset.2 b).mpr hb)).symm]
    simp only [hmeans, true_and, hself]
    exact ⟨fun h => ⟨h o hcount, h⟩, fun h => h.2⟩
  · obtain ⟨set, hmembers, hholds⟩ := holds_nary I hops hset .disjointClasses h
    rw [NaryAxiom.means_iff hmembers.1 hmembers.2, hholds]
    simp only [hself]

theorem holds_disjointClasses_same (hlength : 2 ≤ operands.length)
    (hsame : ∀ a ∈ operands, ∀ b ∈ operands, a = b)
    (h : disjointClasses operands annotations = .ok value) :
    I.Holds value ↔ NaryAxiom.disjointClasses.Means I operands := by
  rw [means_iff_disjointClasses I hops hlength h, iff_self_and]
  obtain ⟨canonical, hcanonical, h⟩ := bind_eq_ok.mp h
  have hset := isSetOf_canonicalSetOf hops hcanonical
  intro hholds o hcount
  have ho := mem_of_repeated hcount
  obtain rfl : canonical = [o] := by
    refine perm_singleton.mp ((perm_ext_iff_of_nodup hset.1 (nodup_singleton o)).mpr fun b => ?_)
    rw [hset.2, mem_singleton]
    exact ⟨fun hb => hsame b hb o ho, fun hb => hb ▸ ho⟩
  simp only [if_pos hlength] at h
  rwa [holds_subClassOf_nothing I h, NaryAxiom.Relates, disjoint_self, Set.bot_eq_empty] at hholds

end

end

section

variable {operands : List Node}

variable {value : Node}

/-- A property of values that an operand class passes to its operands, nested ones included. -/
theorem parseOperands_forall (hc : operandTypes c = some expected) {E : Node → Prop}
    (hE : ∀ s, E (.mk c [.set s]) ↔ ∀ o ∈ s, E o) (hops : ∀ o ∈ operands, Constructible o)
    (h : Functional.parseOperands c operands = .ok value) : E value ↔ ∀ o ∈ operands, E o := by
  obtain ⟨canonical, hcanonical, h⟩ := bind_eq_ok.mp h
  have hset := isSetOf_canonicalSetOf hops hcanonical
  simp only [← hset.2] at hops ⊢
  have hconstruct : ∀ value, construct c [.set canonical] = .ok value → (E value ↔ ∀ o ∈ canonical, E o) := by
    intro value h
    obtain ⟨a, items, s, ha, hitems, hs, rfl⟩ := (construct_operands_iff hc).mp h
    obtain rfl : .set canonical = a := by simpa using ha
    obtain rfl := Except.ok.inj hitems
    have hspliced : ∀ o ∈ canonical, (E o ↔ ∀ m ∈ spliced (some c) o, E m) := by
      intro o ho
      by_cases hclass : o.constructor = c
      · obtain ⟨nested, rfl, -⟩ := (hops o ho).exists_operands hc hclass
        rw [spliced_set, hE]
      · rw [spliced_of_ne fun heq => hclass (Option.some.inj heq).symm, forall_mem_singleton]
    rw [hE]
    simp only [mem_canonicalSet hops hs]
    constructor
    · intro hall o ho
      exact (hspliced o ho).mpr fun m hm => hall m ⟨o, ho, hm⟩
    · rintro hall m ⟨o, ho, hm⟩
      exact (hspliced o ho).mp (hall o ho) m hm
  split at h
  · split at h
    · obtain rfl := Except.ok.inj h
      rw [forall_mem_singleton]
    · exact hconstruct value h
  · exact hconstruct value h

theorem parseOperands_exists (hc : operandTypes c = some expected) {E : Node → Prop}
    (hE : ∀ s, E (.mk c [.set s]) ↔ ∃ o ∈ s, E o) (hops : ∀ o ∈ operands, Constructible o)
    (h : Functional.parseOperands c operands = .ok value) : E value ↔ ∃ o ∈ operands, E o := by
  have hnot := parseOperands_forall hc (E := fun n => ¬ E n) (fun s => by simp [hE]) hops h
  rw [← not_iff_not, hnot]
  simp

theorem parseOneOf_ok (hbody : c.ownBody = false) (hspecs : c.fieldSpecs = [Schema.field c name (.canonicalSet
    expected 1 none)]) (hops : ∀ o ∈ operands, Constructible o) (h : Functional.parseOneOf c operands = .ok value) :
    ∃ set, value = .mk c [.set set] ∧ IsSetOf set operands := by
  obtain ⟨canonical, hcanonical, h⟩ := bind_eq_ok.mp h
  rw [Constructor.construct_eq hbody, hspecs] at h
  obtain ⟨fields, hfields, rfl⟩ := map_eq_ok.mp h
  obtain ⟨v, hv, hfields⟩ := bind_eq_ok.mp hfields
  obtain rfl := Except.ok.inj hfields
  obtain ⟨items, hitems, hv⟩ := bind_eq_ok.mp hv
  obtain rfl := Except.ok.inj hitems
  obtain ⟨set, hset, rfl⟩ := map_eq_ok.mp hv
  exact ⟨set, rfl, isSetOf_canonicalSet hops (isSetOf_canonicalSetOf hops hcanonical) hset⟩

end

section

variable {I : Interpretation V} {operands annotations : List Node}

theorem means_iff_parseAxiom (hops : ∀ o ∈ operands, Constructible o) (hlength : 2 ≤ operands.length) (h :
    Functional.parseAxiom operands annotations kind = .ok axioms) :
    (kind.Means I operands ↔ (∀ a ∈ axioms, I.Holds a) ∧ ∀ o, 2 ≤ operands.count o → kind.Relates I o o) ∧
    (kind = .disjointClasses → ((∀ a ∈ axioms, I.Holds a) ↔ kind.Means I operands)) := by
  cases kind with
  | disjointClasses =>
    have hholds := holds_disjointClassAxioms I hops hlength h
    refine ⟨?_, fun _ => hholds⟩
    rw [hholds, iff_self_and]
    exact fun hmeans => ((NaryAxiom.pairwise_iff_repeated NaryAxiom.Relates.symm).mp hmeans.1).2
  | _ =>
    obtain ⟨canonical, hcanonical, h⟩ := bind_eq_ok.mp h
    obtain ⟨value, hvalue, h⟩ := bind_eq_ok.mp h
    obtain rfl := Except.ok.inj h
    refine ⟨?_, by rintro ⟨⟩⟩
    rw [forall_mem_singleton]
    exact means_iff_holds I hops (isSetOf_canonicalSetOf hops hcanonical) hvalue

/-- An axiom over the set of the operands says what the list says, in every interpretation, up to the
repeated operands. Nothing is lost by the axioms that an operand satisfies with itself, by
`DisjointClasses` and by the expressions; the others need different operands, the mapper different or
equal ones. -/
theorem operands_meaning_iff (hops : ∀ o ∈ operands, Constructible o) (hlength : 2 ≤ operands.length) :
    (∀ kind axioms, Functional.parseAxiom operands annotations kind = .ok axioms →
      (kind.Means I operands ↔ (∀ a ∈ axioms, I.Holds a) ∧ ∀ o, 2 ≤ operands.count o → kind.Relates I o o) ∧
      (kind.separates = false ∨ kind = .disjointClasses ∨ operands.Nodup →
        ((∀ a ∈ axioms, I.Holds a) ↔ kind.Means I operands))) ∧
    (∀ value, disjointClasses operands annotations = .ok value →
      (NaryAxiom.disjointClasses.Means I operands ↔ I.Holds value ∧ ∀ o, 2 ≤ operands.count o → I.objects o = ∅) ∧
      (operands.Nodup ∨ (∀ a ∈ operands, ∀ b ∈ operands, a = b) →
        (I.Holds value ↔ NaryAxiom.disjointClasses.Means I operands))) ∧
    (∀ value, Functional.parseOperands .objectIntersectionOf operands = .ok value →
      I.objects value = {x | ∀ o ∈ operands, x ∈ I.objects o}) ∧
    (∀ value, Functional.parseOperands .objectUnionOf operands = .ok value →
      I.objects value = {x | ∃ o ∈ operands, x ∈ I.objects o}) ∧
    (∀ value, Functional.parseOperands .dataIntersectionOf operands = .ok value →
      I.values value = {v | ∀ o ∈ operands, v ∈ I.values o}) ∧
    (∀ value, Functional.parseOperands .dataUnionOf operands = .ok value →
      I.values value = {v | ∃ o ∈ operands, v ∈ I.values o}) ∧
    (∀ value, Functional.parseOneOf .objectOneOf operands = .ok value →
      I.objects value = {x | ∃ o ∈ operands, I.individual o = x}) ∧
    (∀ value, Functional.parseOneOf .dataOneOf operands = .ok value →
      I.values value = {v | ∃ o ∈ operands, I.literal o = v}) := by
  have hnodup : operands.Nodup → ∀ o, ¬ 2 ≤ operands.count o := fun hnodup o h =>
    absurd (nodup_iff_count_le_one.mp hnodup o) (by omega)
  refine ⟨fun kind axioms h => ?_, fun value h => ?_, fun value h => ?_, fun value h => ?_, fun value h => ?_,
    fun value h => ?_, fun value h => ?_, fun value h => ?_⟩
  · obtain ⟨hmeans, hdisjoint⟩ := means_iff_parseAxiom (I := I) hops hlength h
    refine ⟨hmeans, ?_⟩
    rintro (hself | hkind | hdistinct)
    · rw [hmeans, iff_self_and]
      exact fun _ o _ => NaryAxiom.relates_self hself o
    · exact hdisjoint hkind
    · rw [hmeans, iff_self_and]
      exact fun _ o hcount => absurd hcount (hnodup hdistinct o)
  · have hmeans := means_iff_disjointClasses I hops hlength h
    refine ⟨hmeans, ?_⟩
    rintro (hdistinct | hsame)
    · rw [hmeans, iff_self_and]
      exact fun _ o hcount => absurd hcount (hnodup hdistinct o)
    · exact holds_disjointClasses_same I hops hlength hsame h
  · ext x
    exact parseOperands_forall (E := fun n => x ∈ I.objects n) rfl (fun s => Set.ext_iff.mp (I.objects_intersection s) x) hops h
  · ext x
    exact parseOperands_exists (E := fun n => x ∈ I.objects n) rfl (fun s => Set.ext_iff.mp (I.objects_union s) x) hops h
  · ext v
    exact parseOperands_forall (E := fun n => v ∈ I.values n) rfl (fun s => Set.ext_iff.mp (I.values_intersection s) v) hops h
  · ext v
    exact parseOperands_exists (E := fun n => v ∈ I.values n) rfl (fun s => Set.ext_iff.mp (I.values_union s) v) hops h
  · obtain ⟨set, rfl, hset⟩ := parseOneOf_ok rfl rfl hops h
    simp only [I.objects_oneOf, hset.2]
  · obtain ⟨set, rfl, hset⟩ := parseOneOf_ok rfl rfl hops h
    simp only [I.values_oneOf, hset.2]

end

def termEntity (kind : EntityKind) (iri : String) : Node := .mk .entity [.enum kind, .node (.mk .iri [.text iri])]

/-- Two objects. The classes `urn:A` and `urn:C` have the object `true`, the property `urn:p` relates it to itself,
and it is the individual `urn:a`; everything else is empty. -/
def twoObjects {V : Type} (datatypes : DatatypeMap V) : Interpretation V where
  toDatatypeMap := datatypes
  Object := Bool
  classes n :=
    if n = owlEntity .class "Thing" then Set.univ
    else if n = termEntity .class "urn:A" ∨ n = termEntity .class "urn:C" then {true} else ∅
  objectProperties n :=
    if n = owlEntity .objectProperty "topObjectProperty" then Set.univ
    else if n = termEntity .objectProperty "urn:p" then {(true, true)} else ∅
  dataProperties n := if n = owlEntity .dataProperty "topDataProperty" then Set.univ else ∅
  individual n := decide (n = termEntity .namedIndividual "urn:a")
  thing := if_pos rfl
  nothing := by rw [if_neg (by decide), if_neg (by decide)]
  topObject := if_pos rfl
  bottomObject := by rw [if_neg (by decide), if_neg (by decide)]
  topData := if_pos rfl
  bottomData := if_neg (by decide)

section

variable {V : Type} (datatypes : DatatypeMap V)

theorem objects_twoObjects (iri : String) (hthing : termEntity .class iri ≠ owlEntity .class "Thing") :
    (twoObjects datatypes).objects (termEntity .class iri) =
      if termEntity .class iri = termEntity .class "urn:A" ∨ termEntity .class iri = termEntity .class "urn:C" then {true}
      else ∅ := by
  rw [termEntity, Interpretation.objects_entity]
  exact if_neg hthing

/-- The class `urn:A` is disjoint from the empty class `urn:B`, and not from itself. -/
theorem relates_urnA (kind : NaryAxiom) (hkind : kind.Relates (twoObjects datatypes) =
      NaryAxiom.disjointClasses.Relates (twoObjects datatypes)) :
    kind.Relates (twoObjects datatypes) (termEntity .class "urn:A") (termEntity .class "urn:B") ∧
    ¬ kind.Relates (twoObjects datatypes) (termEntity .class "urn:A") (termEntity .class "urn:A") := by
  rw [hkind]
  constructor
  · rw [NaryAxiom.Relates, objects_twoObjects datatypes "urn:B" (by decide), if_neg (by decide)]
    exact Set.disjoint_empty _
  · rw [NaryAxiom.Relates, disjoint_self, objects_twoObjects datatypes "urn:A" (by decide), if_pos (by decide)]
    exact Set.singleton_ne_empty _

end

def repeatedClasses : List Node := [termEntity .class "urn:A", termEntity .class "urn:A", termEntity .class "urn:B"]

def distinctClasses : List Node := [termEntity .class "urn:A", termEntity .class "urn:B"]

def repeatedIndividuals : List Node :=
  [termEntity .namedIndividual "urn:a", termEntity .namedIndividual "urn:a", termEntity .namedIndividual "urn:b"]

def distinctIndividuals : List Node := [termEntity .namedIndividual "urn:a", termEntity .namedIndividual "urn:b"]

/-- `(A A B)` read as an `owl:AllDisjointClasses` list leaves `A` free, and so does the Functional parser in a
disjoint union; an individual named twice among different ones is not refused. -/
theorem operands_repeated_lost :
    disjointClasses repeatedClasses [] = .ok (.mk .disjointClasses [.set distinctClasses, .set []]) ∧
    Functional.parseAxiom repeatedClasses [] (.disjointUnion (termEntity .class "urn:C")) =
      .ok [.mk .disjointUnion [.node (termEntity .class "urn:C"), .set distinctClasses, .set []]] ∧
    Functional.parseAxiom repeatedIndividuals [] .differentIndividuals =
      .ok [.mk .differentIndividuals [.set distinctIndividuals, .set []]] ∧
    ∀ {V : Type} (datatypes : DatatypeMap V), ∃ I : Interpretation V, I.toDatatypeMap = datatypes ∧
      I.Holds (.mk .disjointClasses [.set distinctClasses, .set []]) ∧
      ¬ NaryAxiom.disjointClasses.Means I repeatedClasses ∧
      I.Holds (.mk .disjointUnion [.node (termEntity .class "urn:C"), .set distinctClasses, .set []]) ∧
      ¬ (NaryAxiom.disjointUnion (termEntity .class "urn:C")).Means I repeatedClasses ∧
      I.Holds (.mk .differentIndividuals [.set distinctIndividuals, .set []]) ∧
      ¬ NaryAxiom.differentIndividuals.Means I repeatedIndividuals := by
  refine ⟨rfl, rfl, rfl, fun datatypes => ⟨twoObjects datatypes, rfl, ?_⟩⟩
  have hclasses := relates_urnA datatypes .disjointClasses rfl
  have hunion := relates_urnA datatypes (.disjointUnion (termEntity .class "urn:C")) rfl
  refine ⟨⟨pairwise_pair.mpr hclasses.1, trivial⟩, fun h => ?_, ⟨pairwise_pair.mpr hunion.1, ?_⟩,
    fun h => ?_, ⟨pairwise_pair.mpr ?_, trivial⟩, fun h => ?_⟩
  · exact hclasses.2 (rel_of_pairwise_cons h.1 (by simp))
  · rw [NaryAxiom.Covers, objects_twoObjects datatypes "urn:C" (by decide), if_pos (by decide)]
    ext x
    constructor
    · intro hx
      refine ⟨termEntity .class "urn:A", by simp [distinctClasses], ?_⟩
      rwa [objects_twoObjects datatypes "urn:A" (by decide), if_pos (by decide)]
    · rintro ⟨o, ho, hx⟩
      rcases mem_pair.mp ho with rfl | rfl
      · rwa [objects_twoObjects datatypes "urn:A" (by decide), if_pos (by decide)] at hx
      · rw [objects_twoObjects datatypes "urn:B" (by decide), if_neg (by decide)] at hx
        exact absurd hx (Set.notMem_empty x)
  · exact hunion.2 (rel_of_pairwise_cons h.1 (by simp))
  · have hdiffer : decide (termEntity .namedIndividual "urn:a" = termEntity .namedIndividual "urn:a") ≠
        decide (termEntity .namedIndividual "urn:b" = termEntity .namedIndividual "urn:a") := by decide
    exact hdiffer
  · exact rel_of_pairwise_cons h.1 (mem_cons_self ..) rfl

/-- The Functional parser keeps the repetition in `DisjointClasses(A A B)`: it adds an axiom for `A`. -/
theorem operands_meaning_iff_classes :
    Functional.parseAxiom repeatedClasses [] .disjointClasses =
      .ok [.mk .disjointClasses [.set distinctClasses, .set []],
        .mk .subClassOf [.node (termEntity .class "urn:A"), .node owlNothing, .set []]] ∧
    ∀ {V : Type} (datatypes : DatatypeMap V),
      ¬ ((twoObjects datatypes).Holds (.mk .disjointClasses [.set distinctClasses, .set []]) ∧
        (twoObjects datatypes).Holds
          (.mk .subClassOf [.node (termEntity .class "urn:A"), .node owlNothing, .set []])) := by
  have hops : ∀ o ∈ repeatedClasses, Constructible o := by
    have hA : Constructible (termEntity .class "urn:A") := constructible_of_rebuilds (by decide +kernel)
    have hB : Constructible (termEntity .class "urn:B") := constructible_of_rebuilds (by decide +kernel)
    simp [repeatedClasses, hA, hB]
  have hparse : Functional.parseAxiom repeatedClasses [] .disjointClasses =
      .ok [.mk .disjointClasses [.set distinctClasses, .set []],
        .mk .subClassOf [.node (termEntity .class "urn:A"), .node owlNothing, .set []]] := rfl
  refine ⟨hparse, fun {V} datatypes hholds => ?_⟩
  have hmeaning := ((operands_meaning_iff (I := twoObjects datatypes) hops (by decide)).1 .disjointClasses _ hparse).2
    (.inr (.inl rfl))
  have hmeans := hmeaning.mp (forall_mem_cons.mpr ⟨hholds.1, forall_mem_singleton.mpr hholds.2⟩)
  exact (relates_urnA datatypes .disjointClasses rfl).2 (rel_of_pairwise_cons hmeans.1 (by simp))

end OwlCore
