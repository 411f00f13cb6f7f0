import Mathlib.Data.List.Dedup
import OwlCore.Index.AxiomTypes
import OwlCore.Index.Occurrences
import OwlCore.Lib.Dictionary
import OwlCore.Lib.UnionFind

/-!
# Asserted class hierarchies

`AssertedClassHierarchyView` lists the edges that the class axioms of a view assert, from a scan
of the merged axioms, and looks up parents and children in record maps: every layer files its
own axioms and merges them with the records below, moved for members. Origins are left out; a
snapshot stands with the axioms of its scope.
-/
namespace OwlCore

open Dictionary Face KeyedSet List Node UnionFind

inductive EquivalenceHandling where
  | preserve | bidirectional | component
  deriving DecidableEq

structure ClassHierarchyOptions where
  equivalenceHandling : EquivalenceHandling := .preserve
  includeDisjointUnion : Bool := false

/-- `isinstance(value, Class)`. -/
def isClass (n : Node) : Bool := n.kind? = some .class

inductive ClassAxiom where
  | sub (subClass superClass : Node)
  | equivalent (expressions : List Node)
  | disjointUnion (definedClass : Node) (expressions : List Node)
  | other

def classAxiom : Node → ClassAxiom
  | .mk .subClassOf (.node subClass :: .node superClass :: _) => .sub subClass superClass
  | .mk .equivalentClasses (.set expressions :: _) => .equivalent expressions
  | .mk .disjointUnion (.node definedClass :: .set expressions :: _) => .disjointUnion definedClass expressions
  | _ => .other

/-- A class or a component of classes, and a property or a component of properties. -/
inductive HierarchyNode where
  | named (value : Node)
  | component (members : List Node)
  deriving DecidableEq

structure HierarchyEdge where
  child : HierarchyNode
  parent : HierarchyNode
  ax : Node
  deriving DecidableEq

/-- `_class_node_key` and `_property_node_key`. -/
def HierarchyNode.key : HierarchyNode → Bytes
  | .named value => 0x30 :: value.bytes
  | .component members => 0x31 :: (members.map Node.bytes).flatten

/-- `_class_edge_key` and `_property_edge_key`. -/
def HierarchyEdge.key (edge : HierarchyEdge) : Bytes :=
  edge.child.key ++ 0 :: (edge.parent.key ++ 0 :: edge.ax.bytes)

/-- `combinations(values, 2)`. -/
def combinations {α : Type} : List α → List (α × α)
  | [] => []
  | a :: rest => rest.map (a, ·) ++ combinations rest

abbrev RawEdge := Node × Node × Node

def classEdges (options : ClassHierarchyOptions) (ax : Node) : List RawEdge :=
  match classAxiom ax with
  | .sub subClass superClass => if isClass subClass && isClass superClass then [(subClass, superClass, ax)] else []
  | .equivalent expressions =>
    if options.equivalenceHandling = .bidirectional then
      (combinations (expressions.filter isClass)).flatMap fun pair => [(pair.1, pair.2, ax), (pair.2, pair.1, ax)]
    else []
  | .disjointUnion definedClass expressions =>
    if options.includeDisjointUnion then (expressions.filter isClass).map fun member => (member, definedClass, ax)
    else []
  | .other => []

/-- `components.get(value, value)`. -/
def selectNode (components : List (Node × HierarchyNode)) (value : Node) : HierarchyNode :=
  (get? components value).getD (.named value)

/-- The edges between the selected nodes, without those from a node to itself. -/
def selectEdges (components : List (Node × HierarchyNode)) (raw : List RawEdge) : List HierarchyEdge :=
  (raw.map fun edge => ⟨selectNode components edge.1, selectNode components edge.2.1, edge.2.2⟩).filter fun edge =>
    edge.child ≠ edge.parent

/-- `unique` in the order of its keys. -/
def uniqueEdges (edges : List HierarchyEdge) : List HierarchyEdge :=
  (sortBy Prod.fst (ofEntries (edges.map fun edge => (edge.key, edge)))).map Prod.snd

def HierarchyNode.members : HierarchyNode → List Node
  | .named value => [value]
  | .component members => members

/-- `ClassComponent` and `PropertyComponent`: the members are a sorted set. -/
def componentNode (members : List Node) : HierarchyNode := .component (sortBy Node.bytes members.dedup)

/-- The dictionary `parent` of `_components`: its keys in order, and the parents. -/
structure ComponentState where
  members : List Node
  forest : Forest Node

namespace ComponentState

def initial : ComponentState := ⟨[], Forest.singletons⟩

/-- `find`, which adds a new value and compresses the path of the value itself only. -/
def find (state : ComponentState) (value : Node) : Node × ComponentState :=
  (state.forest.leader value,
    { members := if value ∈ state.members then state.members else state.members ++ [value]
      forest := state.forest.hang value })

/-- A round of the loop over the rest of a group; the anchor is the leader of its first value. -/
def join (anchor : Node) (state : ComponentState) (value : Node) : ComponentState :=
  let found := (state.find value).2
  { found with forest := found.forest.graft anchor value }

def group (state : ComponentState) : List Node → ComponentState
  | [] => state
  | first :: rest => rest.foldl (join (state.find first).1) (state.find first).2

/-- `collected`: the keys of `parent` by their leaders. -/
def collected (state : ComponentState) : List (Node × List Node) :=
  gather (state.members.map fun value => (state.forest.leader value, value))

end ComponentState

/-- `_components` and `_property_components`. -/
def components (groups : List (List Node)) : List HierarchyNode :=
  sortBy HierarchyNode.key
    ((groups.foldl ComponentState.group .initial).collected.map fun entry => componentNode entry.2)

/-- `_component_map` over the equivalence sets. -/
def componentMap (handling : EquivalenceHandling) (groups : List (List Node)) : List (Node × HierarchyNode) :=
  if handling = .component then
    ofEntries ((components groups).flatMap fun group => group.members.map fun member => (member, group))
  else []

/-- `equivalence_sets`: the named operands of the equivalence axioms that have at least two of them. -/
def equivalenceSets (named : Node → List Node) (axioms : List Node) : List (List Node × Node) :=
  sortBy (fun record => record.2.bytes)
    ((axioms.map fun ax => (named ax, ax)).filter fun record => 2 ≤ record.1.length)

def namedEquivalentClasses (ax : Node) : List Node :=
  match classAxiom ax with
  | .equivalent expressions => expressions.filter isClass
  | _ => []

section

/-- How a kind of records is filed by an axiom, compared, and moved. -/
structure RecordKind (ρ : Type) where
  /-- The classes that an axiom is filed under, each with its record. -/
  entries : Node → List (Node × ρ)
  key : ρ → Bytes
  axiomOf : ρ → Node
  move : (Node → Node) → ρ → ρ
  /-- Whether the runs are sorted again before they are merged. -/
  resorts : Bool

def namedRecordKey (record : Node × Node) : Bytes := record.1.bytes ++ 0 :: record.2.bytes

/-- Records of a class and an axiom. `_transform_class_records` moves the axiom only. -/
def namedRecords (entries : Node → List (Node × (Node × Node))) : RecordKind (Node × Node) where
  entries := entries
  key := namedRecordKey
  axiomOf := Prod.snd
  move := fun f record => (record.1, f record.2)
  resorts := true

/-- The entry of a subclass axiom between classes: the class it is filed under, and the other one. -/
def subClassEntries (file : Node → Node → Node × Node) (ax : Node) : List (Node × (Node × Node)) :=
  match classAxiom ax with
  | .sub subClass superClass =>
    if isClass subClass && isClass superClass then
      [((file subClass superClass).1, (file subClass superClass).2, ax)]
    else []
  | _ => []

/-- `_child_records`: the super class under the subclass. -/
def childRecords : RecordKind (Node × Node) := namedRecords (subClassEntries fun subClass superClass => (subClass, superClass))

/-- `_parent_records`: the subclass under the super class. -/
def parentRecords : RecordKind (Node × Node) := namedRecords (subClassEntries fun subClass superClass => (superClass, subClass))

def disjointUnionEntries (ax : Node) : List (Node × (Node × Node)) :=
  match classAxiom ax with
  | .disjointUnion definedClass expressions => (expressions.filter isClass).map fun member => (member, definedClass, ax)
  | _ => []

/-- `_disjoint_union_records`: the defined class under every named operand. -/
def disjointUnionRecords : RecordKind (Node × Node) := namedRecords disjointUnionEntries

/-- `_equivalences`: the axiom under every named operand. -/
def equivalenceRecords : RecordKind Node where
  entries := fun ax => (namedEquivalentClasses ax).map fun member => (member, ax)
  key := Node.bytes
  axiomOf := id
  move := id
  resorts := false

variable {ρ : Type} (kind : RecordKind ρ)

namespace RecordKind

def recordMap (values : List Node) : List (Node × List ρ) := gather (values.flatMap kind.entries)

def lookup (values : List Node) (value : Node) : List ρ := sortBy kind.key ((get? (kind.recordMap values) value).getD [])

def run (records : List ρ) : List ρ := if kind.resorts then sortBy kind.key records else records

/-- `canonical_merge` of the own records of a layer and those below, without the removals. -/
def merged (layer : LayeredRuns) (value : Node) (below : List (List ρ)) : List ρ :=
  KeyedSet.merge kind.key (fun record => decide (kind.axiomOf record ∈ layer.removals))
    ((kind.lookup (layer.own ++ layer.additions) value :: below).map kind.run)

end RecordKind

variable (hash : Hash)

def classLayer (view : View) : LayeredRuns := layeredRuns hash (typesSelection classAxiomTypes) view

/-- The records of the members of a composite, moved and sorted. -/
def movedRecords (sources : List Face) (records : List (List ρ)) : List (List ρ) :=
  records.zipIdx.map fun member =>
    sortBy kind.key (member.1.map (kind.move (scopeValue hash (sources.map Face.sourceScopes) member.2)))

mutual

def layeredRecords (value : Node) : View → List ρ
  | .snapshot snapshot => kind.merged (classLayer hash (.snapshot snapshot)) value []
  | .overlay base delta => kind.merged (classLayer hash (.overlay base delta)) value [layeredRecords value base]
  | .composite sources delta => kind.merged (classLayer hash (.composite sources delta)) value
      (movedRecords kind hash (View.faces hash sources) (layeredRecordsAll value sources))

def layeredRecordsAll (value : Node) : List View → List (List ρ)
  | [] => []
  | view :: rest => layeredRecords value view :: layeredRecordsAll value rest

end

end

section

variable (hash : Hash) (view : View)

def directParentRecords (value : Node) : List (Node × Node) := layeredRecords childRecords hash value view

def directChildRecords (value : Node) : List (Node × Node) := layeredRecords parentRecords hash value view

def equivalenceAxioms (value : Node) : List Node := layeredRecords equivalenceRecords hash value view

def disjointUnionParentRecords (value : Node) : List (Node × Node) :=
  layeredRecords disjointUnionRecords hash value view

/-- The keys of `_disjoint_union_records`, merged with those below. -/
def disjointUnionKeys (layer : LayeredRuns) (below : List (List Node)) : List Node :=
  KeyedSet.merge Node.bytes (fun _ => false)
    ((keys (disjointUnionRecords.recordMap (layer.own ++ layer.additions)) :: below).map (sortBy Node.bytes))

mutual

def allDisjointUnionChildren : View → List Node
  | .snapshot snapshot => disjointUnionKeys (classLayer hash (.snapshot snapshot)) []
  | .overlay base delta => disjointUnionKeys (classLayer hash (.overlay base delta)) [allDisjointUnionChildren base]
  | .composite sources delta =>
    disjointUnionKeys (classLayer hash (.composite sources delta)) (allDisjointUnionChildrenAll sources)

def allDisjointUnionChildrenAll : List View → List (List Node)
  | [] => []
  | view :: rest => allDisjointUnionChildren view :: allDisjointUnionChildrenAll rest

end

/-- `sorted(selected, key=_class_node_key)` of a set. -/
def sortedNodes (selected : List HierarchyNode) : List HierarchyNode := sortBy HierarchyNode.key selected.dedup

namespace AssertedClassHierarchyView

variable (options : ClassHierarchyOptions)

def componentMap : List (Node × HierarchyNode) :=
  OwlCore.componentMap options.equivalenceHandling
    ((equivalenceSets namedEquivalentClasses (classHierarchyAxioms hash view)).map Prod.fst)

def iterEdges : List HierarchyEdge :=
  uniqueEdges (selectEdges (componentMap hash view options)
    ((classHierarchyAxioms hash view).flatMap (classEdges options)))

def component (value : Node) : HierarchyNode := (get? (componentMap hash view options) value).getD (componentNode [value])

def equivalents (value : Node) : List Node :=
  if options.equivalenceHandling = .component then
    ((get? (componentMap hash view options) value).elim [] HierarchyNode.members).filter fun member => member ≠ value
  else
    sortBy Node.bytes
      (((equivalenceAxioms hash view value).flatMap namedEquivalentClasses).dedup.filter fun item => item ≠ value)

def edgeParents (value : HierarchyNode) : List HierarchyNode :=
  sortedNodes (((iterEdges hash view options).filter fun edge => edge.child = value).map HierarchyEdge.parent)

def edgeChildren (value : HierarchyNode) : List HierarchyNode :=
  sortedNodes (((iterEdges hash view options).filter fun edge => edge.parent = value).map HierarchyEdge.child)

def recordParents (value : Node) : List HierarchyNode :=
  sortedNodes (((directParentRecords hash view value).map Prod.fst ++
    (if options.equivalenceHandling = .bidirectional then equivalents hash view options value else []) ++
    (if options.includeDisjointUnion then (disjointUnionParentRecords hash view value).map Prod.fst else [])).map .named)

def recordChildren (value : Node) : List HierarchyNode :=
  sortedNodes (((directChildRecords hash view value).map Prod.fst ++
    (if options.equivalenceHandling = .bidirectional then equivalents hash view options value else []) ++
    (if options.includeDisjointUnion then
      (allDisjointUnionChildren hash view).filter fun child =>
        (disjointUnionParentRecords hash view child).any fun record => record.1 = value
    else [])).map .named)

def assertedParents : HierarchyNode → List HierarchyNode
  | .named value =>
    if options.equivalenceHandling = .component then edgeParents hash view options (.named value)
    else recordParents hash view options value
  | .component members => edgeParents hash view options (.component members)

def assertedChildren : HierarchyNode → List HierarchyNode
  | .named value =>
    if options.equivalenceHandling = .component then edgeChildren hash view options (.named value)
    else recordChildren hash view options value
  | .component members => edgeChildren hash view options (.component members)

end AssertedClassHierarchyView

end

section

variable {n : Node} {f : AnonymousIndividual → AnonymousIndividual}

/-- A canonical value whose entities hold no anonymous individuals. -/
structure Node.Readable (n : Node) : Prop where
  canonical : n.Canonical
  leaves : n.Everywhere Node.LeafHere

@[simp] theorem isClass_mapAnonymous : isClass (n.mapAnonymous f) = isClass n := by
  simp [isClass]

theorem Node.Readable.mapAnonymous_entity (h : n.Readable) (hkind : n.kind? = some kind) :
    n.mapAnonymous f = n := by
  refine mapAnonymous_eq_self h.canonical ?_
  rw [h.leaves.here (by simp [constructor_of_kind? hkind])]
  simp

theorem Node.Readable.child (h : n.Readable) (hm : m ∈ n.children) : m.Readable :=
  ⟨h.canonical.child hm, h.leaves.child hm⟩

/-- The operands of an image, where an expression is the image of one. -/
def ClassAxiom.map (f : Node → Node) : ClassAxiom → ClassAxiom
  | .sub subClass superClass => .sub (f subClass) (f superClass)
  | .equivalent expressions => .equivalent (KeyedSet.ofList Node.bytes (expressions.map f))
  | .disjointUnion definedClass expressions =>
    .disjointUnion (f definedClass) (KeyedSet.ofList Node.bytes (expressions.map f))
  | .other => .other

def ClassAxiom.operands : ClassAxiom → List Node
  | .sub subClass superClass => [subClass, superClass]
  | .equivalent expressions => expressions
  | .disjointUnion definedClass expressions => definedClass :: expressions
  | .other => []

theorem classAxiom_mapAnonymous : classAxiom (n.mapAnonymous f) = (classAxiom n).map (Node.mapAnonymous f) := by
  cases hnone : n.anonymous? with
  | some a =>
    obtain rfl := anonymous?_eq_some.mp hnone
    rw [mapAnonymous_node]
    rfl
  | none =>
    rw [mapAnonymous_of_none hnone]
    cases n with
    | mk c fields =>
      cases c <;> try rfl
      all_goals
        rcases fields with _ | ⟨v, _ | ⟨w, rest⟩⟩
        · rfl
        · cases v <;> rfl
        · cases v <;> cases w <;> rfl

structure ReadableAxiom (n : Node) : Prop where
  readable : n.Readable
  defined : ∀ definedClass expressions, classAxiom n = .disjointUnion definedClass expressions → isClass definedClass

theorem Constructible.defined (h : Constructible n) (definedClass : Node) (expressions : List Node)
    (hread : classAxiom n = .disjointUnion definedClass expressions) : isClass definedClass := by
  unfold classAxiom at hread
  split at hread <;> simp only [reduceCtorEq, ClassAxiom.disjointUnion.injEq] at hread
  obtain ⟨rfl, rfl⟩ := hread
  have hfields := h.fields_sound rfl
  obtain ⟨_, hvalue, hclass⟩ := (forall₂_cons.mp hfields).1.fits
  obtain rfl := Value.node.inj hvalue
  simpa [isClass, Node.isInstance, Node.hasClass, Schema.classClass] using hclass

theorem View.Layered.readableAxiom {hash : Hash} {view : View} (h : view.Layered hash) :
    ∀ n ∈ (view.face hash).axioms, ReadableAxiom n := by
  intro n hn
  have hroot := mem_roots.mpr (.inr (.inl hn))
  refine ⟨⟨h.sound.canonical n hroot, h.leaves n hroot⟩, ?_⟩
  refine h.forall_roots (fun n hn => hn.defined) (fun n f _ ih definedClass expressions hread => ?_) n hroot
  rw [classAxiom_mapAnonymous] at hread
  cases hread' : classAxiom n with
  | disjointUnion definedClass' expressions' =>
    rw [hread', ClassAxiom.map, ClassAxiom.disjointUnion.injEq] at hread
    rw [← hread.1, isClass_mapAnonymous]
    exact ih _ _ hread'
  | _ => simp [hread', ClassAxiom.map] at hread

theorem mem_operands_classAxiom (hm : m ∈ (classAxiom n).operands) :
    m ∈ n.children ∧ n.constructor ∈ classAxiomTypes := by
  unfold classAxiom at hm
  split at hm
  · refine ⟨?_, by simp [classAxiomTypes]⟩
    simp only [ClassAxiom.operands, mem_cons, not_mem_nil, or_false] at hm
    rcases hm with rfl | rfl <;> simp [Node.children]
  · exact ⟨mem_append_left _ hm, by simp [classAxiomTypes]⟩
  · refine ⟨?_, by simp [classAxiomTypes]⟩
    rcases mem_cons.mp hm with rfl | hm
    · simp [Node.children]
    · exact mem_append_right _ (mem_append_left _ hm)
  · cases hm

theorem Node.Readable.mapAnonymous_operand (h : n.Readable) (hm : m ∈ (classAxiom n).operands) (hclass : isClass m) : m.mapAnonymous f = m :=
  (h.child (mem_operands_classAxiom hm).1).mapAnonymous_entity (of_decide_eq_true hclass)

theorem mem_filter_isClass_moved {expressions : List Node} (h : ∀ m ∈ expressions, m.Readable) :
    x ∈ (KeyedSet.ofList Node.bytes (expressions.map (Node.mapAnonymous f))).filter isClass ↔
      x ∈ expressions.filter isClass := by
  have hcanonical : ∀ m ∈ expressions.map (Node.mapAnonymous f), m.Canonical := by
    intro m hm
    obtain ⟨k, hk, rfl⟩ := mem_map.mp hm
    exact canonical_mapAnonymous (h k hk).canonical
  rw [mem_filter, mem_filter, mem_ofList (keyInjOn_canonical hcanonical), mem_map]
  constructor
  · rintro ⟨⟨k, hk, rfl⟩, hclass⟩
    rw [isClass_mapAnonymous] at hclass
    rw [(h k hk).mapAnonymous_entity (of_decide_eq_true hclass)]
    exact ⟨hk, hclass⟩
  · rintro ⟨hx, hclass⟩
    exact ⟨⟨x, hx, (h x hx).mapAnonymous_entity (of_decide_eq_true hclass)⟩, hclass⟩

end

section

variable {ρ : Type} {kind : RecordKind ρ}

/-- What makes the records of a kind follow the axioms through the layers. -/
structure RecordKind.Sound (kind : RecordKind ρ) : Prop where
  axiomOf_entry : ∀ {ax e}, e ∈ kind.entries ax → kind.axiomOf e.2 = ax
  selected : ∀ {ax e}, e ∈ kind.entries ax → ax.constructor ∈ classAxiomTypes
  moved : ∀ {ax : Node} (f : AnonymousIndividual → AnonymousIndividual), ReadableAxiom ax → ∀ e,
    e ∈ kind.entries (ax.mapAnonymous f) ↔ ∃ e' ∈ kind.entries ax, e = (e'.1, kind.move (Node.mapAnonymous f) e'.2)
  key_inj : ∀ {ax ax' : Node} {e e'}, ax.Canonical → ax'.Canonical → e ∈ kind.entries ax → e' ∈ kind.entries ax' →
    kind.key e.2 = kind.key e'.2 → e.2 = e'.2

theorem namedRecords_sound (hax : ∀ {ax e}, e ∈ entries ax → e.2.2 = ax) (hother : ∀ {ax e}, e ∈ entries ax → e.2.1 ∈
    (classAxiom ax).operands) (hmoved : ∀ {ax : Node} (f : AnonymousIndividual → AnonymousIndividual), ReadableAxiom
    ax → ∀ e, e ∈ entries (ax.mapAnonymous f) ↔ ∃ e' ∈ entries ax, e = (e'.1, e'.2.1, e'.2.2.mapAnonymous f)) :
    (namedRecords entries).Sound where
  axiomOf_entry := hax
  selected := fun he => (mem_operands_classAxiom (hother he)).2
  moved := hmoved
  key_inj := by
    intro ax ax' e e' hcanonical hcanonical' he he' hkey
    obtain ⟨hnode, hrest⟩ := bytes_append_inj (hcanonical.child (mem_operands_classAxiom (hother he)).1)
      (hcanonical'.child (mem_operands_classAxiom (hother he')).1) hkey
    refine Prod.ext hnode (bytes_injOn ?_ ?_ (List.cons.inj hrest).2)
    · rwa [hax he]
    · rwa [hax he']

variable {ax : Node}

theorem mem_subClassEntries :
    e ∈ subClassEntries file ax ↔ ∃ subClass superClass, classAxiom ax = .sub subClass superClass ∧
      isClass subClass ∧ isClass superClass ∧
      e = ((file subClass superClass).1, (file subClass superClass).2, ax) := by
  rw [subClassEntries]
  cases classAxiom ax with
  | sub subClass superClass =>
    simp only [ClassAxiom.sub.injEq]
    by_cases hclass : isClass subClass && isClass superClass
    · rw [if_pos hclass, mem_singleton]
      obtain ⟨hsub, hsup⟩ := Bool.and_eq_true_iff.mp hclass
      constructor
      · rintro rfl
        exact ⟨_, _, ⟨rfl, rfl⟩, hsub, hsup, rfl⟩
      · rintro ⟨_, _, ⟨rfl, rfl⟩, -, -, rfl⟩
        rfl
    · rw [if_neg hclass]
      refine ⟨fun he => absurd he not_mem_nil, ?_⟩
      rintro ⟨_, _, ⟨rfl, rfl⟩, hsub, hsup, -⟩
      exact absurd (Bool.and_eq_true_iff.mpr ⟨hsub, hsup⟩) hclass
  | _ => simp

theorem subClassEntries_sound (hfile : ∀ subClass superClass, (file subClass superClass).2 ∈ [subClass, superClass]) :
    (namedRecords (subClassEntries file)).Sound := by
  apply namedRecords_sound
  · intro ax e he
    obtain ⟨_, _, -, -, -, rfl⟩ := mem_subClassEntries.mp he
    rfl
  · intro ax e he
    obtain ⟨_, _, hread, -, -, rfl⟩ := mem_subClassEntries.mp he
    rw [hread]
    exact hfile _ _
  · intro ax f ⟨hax, _⟩ e
    simp only [mem_subClassEntries, classAxiom_mapAnonymous]
    cases hread : classAxiom ax with
    | sub subClass superClass =>
      have hmoved : ∀ m ∈ [subClass, superClass], isClass m → m.mapAnonymous f = m := fun m hm =>
        hax.mapAnonymous_operand (by rwa [hread])
      simp only [forall_mem_cons] at hmoved
      simp only [ClassAxiom.map, ClassAxiom.sub.injEq]
      constructor
      · rintro ⟨_, _, ⟨rfl, rfl⟩, hsub, hsup, rfl⟩
        rw [isClass_mapAnonymous] at hsub hsup
        rw [hmoved.1 hsub, hmoved.2.1 hsup]
        exact ⟨_, ⟨_, _, ⟨rfl, rfl⟩, hsub, hsup, rfl⟩, rfl⟩
      · rintro ⟨_, ⟨_, _, ⟨rfl, rfl⟩, hsub, hsup, rfl⟩, rfl⟩
        exact ⟨_, _, ⟨hmoved.1 hsub, hmoved.2.1 hsup⟩, hsub, hsup, rfl⟩
    | _ => simp [ClassAxiom.map]

theorem mem_disjointUnionEntries :
    e ∈ disjointUnionEntries ax ↔ ∃ definedClass expressions, classAxiom ax = .disjointUnion definedClass expressions ∧
      ∃ member ∈ expressions.filter isClass, e = (member, definedClass, ax) := by
  rw [disjointUnionEntries]
  cases classAxiom ax with
  | disjointUnion definedClass expressions =>
    simp only [ClassAxiom.disjointUnion.injEq, mem_map, eq_comm (a := e)]
    constructor
    · exact fun h => ⟨_, _, ⟨rfl, rfl⟩, h⟩
    · rintro ⟨_, _, ⟨rfl, rfl⟩, h⟩
      exact h
  | _ => simp

theorem mem_equivalenceEntries :
    e ∈ equivalenceRecords.entries ax ↔ e.1 ∈ namedEquivalentClasses ax ∧ e.2 = ax := by
  constructor
  · intro he
    obtain ⟨member, hmember, rfl⟩ := mem_map.mp he
    exact ⟨hmember, rfl⟩
  · rintro ⟨hmember, rfl⟩
    exact mem_map.mpr ⟨e.1, hmember, rfl⟩

theorem disjointUnionRecords_sound : disjointUnionRecords.Sound := by
  apply namedRecords_sound
  · intro ax e he
    obtain ⟨_, _, -, _, -, rfl⟩ := mem_disjointUnionEntries.mp he
    rfl
  · intro ax e he
    obtain ⟨_, _, hread, _, -, rfl⟩ := mem_disjointUnionEntries.mp he
    rw [hread]
    exact mem_cons_self
  · intro ax f hax e
    refine mem_disjointUnionEntries.trans (Iff.trans ?_ (exists_congr fun _ =>
      and_congr_left fun _ => mem_disjointUnionEntries.symm))
    rw [classAxiom_mapAnonymous]
    cases hread : classAxiom ax with
    | disjointUnion definedClass expressions =>
      have hdefined := hax.readable.mapAnonymous_operand (f := f) (by rw [hread]; exact mem_cons_self)
        (hax.defined _ _ hread)
      have hexpressions : ∀ m ∈ expressions, m.Readable := fun m hm =>
        hax.readable.child (mem_operands_classAxiom (by rw [hread]; exact mem_cons_of_mem _ hm)).1
      simp only [ClassAxiom.map, ClassAxiom.disjointUnion.injEq, hdefined]
      constructor
      · rintro ⟨_, _, ⟨rfl, rfl⟩, member, hmember, rfl⟩
        exact ⟨_, ⟨_, _, ⟨rfl, rfl⟩, member, (mem_filter_isClass_moved hexpressions).mp hmember, rfl⟩, rfl⟩
      · rintro ⟨_, ⟨_, _, ⟨rfl, rfl⟩, member, hmember, rfl⟩, rfl⟩
        exact ⟨_, _, ⟨rfl, rfl⟩, member, (mem_filter_isClass_moved hexpressions).mpr hmember, rfl⟩
    | _ => simp [ClassAxiom.map]

theorem mem_namedEquivalentClasses (h : x ∈ namedEquivalentClasses ax) :
    x ∈ (classAxiom ax).operands ∧ isClass x := by
  unfold namedEquivalentClasses at h
  split at h
  · rename_i hread
    rw [hread]
    exact mem_filter.mp h
  · cases h

theorem mem_namedEquivalentClasses_moved {x : Node} (hax : ax.Readable) :
    x ∈ namedEquivalentClasses (ax.mapAnonymous f) ↔ x ∈ namedEquivalentClasses ax := by
  unfold namedEquivalentClasses
  rw [classAxiom_mapAnonymous]
  cases hread : classAxiom ax with
  | equivalent expressions =>
    exact mem_filter_isClass_moved fun m hm => hax.child (mem_operands_classAxiom (by rwa [hread])).1
  | _ => rfl

theorem equivalenceRecords_sound : equivalenceRecords.Sound where
  axiomOf_entry := fun he => (mem_equivalenceEntries.mp he).2
  selected := fun he =>
    (mem_operands_classAxiom (mem_namedEquivalentClasses (mem_equivalenceEntries.mp he).1).1).2
  moved := by
    intro ax f hax e
    simp only [mem_equivalenceEntries, mem_namedEquivalentClasses_moved hax.readable]
    constructor
    · rintro ⟨hmember, hmoved⟩
      exact ⟨(e.1, ax), ⟨hmember, rfl⟩, Prod.ext rfl hmoved⟩
    · rintro ⟨e', ⟨hmember, rfl⟩, rfl⟩
      exact ⟨hmember, rfl⟩
  key_inj := by
    intro ax ax' e e' hcanonical hcanonical' he he' hkey
    rw [(mem_equivalenceEntries.mp he).2, (mem_equivalenceEntries.mp he').2] at hkey ⊢
    exact bytes_injOn hcanonical hcanonical' hkey

end

section

variable {ρ : Type} {kind : RecordKind ρ} {hash : Hash} {view : View} {value : Node}

/-- A list holds the records that the axioms file under a class, each once and in order. -/
structure ListsRecords (kind : RecordKind ρ) (value : Node) (axioms : List Node) (records : List ρ) : Prop where
  ascending : Ascending kind.key records
  mem_iff : ∀ r, r ∈ records ↔ ∃ ax ∈ axioms, (value, r) ∈ kind.entries ax

theorem RecordKind.mem_lookup :
    r ∈ kind.lookup values value ↔ ∃ ax ∈ values, (value, r) ∈ kind.entries ax := by
  rw [RecordKind.lookup, KeyedIndex.mem_sortBy, RecordKind.recordMap, mem_get?_gather, mem_flatMap]

@[simp] theorem RecordKind.mem_run : r ∈ kind.run records ↔ r ∈ records := by
  unfold RecordKind.run
  split
  · exact KeyedIndex.mem_sortBy
  · rfl

theorem RecordKind.sorted_run (h : Sorted kind.key records) :
    Sorted kind.key (kind.run records) := by
  unfold RecordKind.run
  split
  · exact KeyedIndex.sorted_sortBy _
  · exact h

variable {axioms : List Node}

theorem listsRecords_merged (hkind : kind.Sound) {s : Set Node} (hsorted : ∀ run ∈ below, Sorted kind.key run) (hbelow
    : ∀ r, r ∈ below.flatten ↔ ∃ ax ∈ s, (value, r) ∈ kind.entries ax) (hcanonical : ∀ ax, ax ∈ layer.own ∨ ax ∈ s ∨
    ax ∈ layer.additions → ax.Canonical) (haxioms : ∀ ax, ax.constructor ∈ classAxiomTypes → (ax ∈ axioms ↔ (ax ∈
    layer.own ∨ ax ∈ s ∨ ax ∈ layer.additions) ∧ ax ∉ layer.removals)) :
    ListsRecords kind value axioms (kind.merged layer value below) := by
  have hmem : ∀ r, r ∈ ((kind.lookup (layer.own ++ layer.additions) value :: below).map kind.run).flatten ↔
      ∃ ax, (ax ∈ layer.own ∨ ax ∈ s ∨ ax ∈ layer.additions) ∧ (value, r) ∈ kind.entries ax := by
    intro r
    have hruns : r ∈ (below.map kind.run).flatten ↔ r ∈ below.flatten := by
      simp only [mem_flatten, mem_map, exists_exists_and_eq_and, RecordKind.mem_run]
    rw [map_cons, flatten_cons, mem_append, hruns, hbelow, RecordKind.mem_run, RecordKind.mem_lookup, ← exists_or]
    refine exists_congr fun ax => ?_
    rw [mem_append]
    tauto
  have hruns : ∀ run ∈ (kind.lookup (layer.own ++ layer.additions) value :: below).map kind.run,
      Sorted kind.key run := by
    intro run hrun
    obtain ⟨records, hrecords, rfl⟩ := mem_map.mp hrun
    apply RecordKind.sorted_run
    rcases mem_cons.mp hrecords with rfl | hrecords
    · exact KeyedIndex.sorted_sortBy _
    · exact hsorted records hrecords
  have hinj : KeyInjOn kind.key
      (· ∈ ((kind.lookup (layer.own ++ layer.additions) value :: below).map kind.run).flatten) := by
    intro r r' hr hr' hkey
    obtain ⟨ax, hax, he⟩ := (hmem r).mp hr
    obtain ⟨ax', hax', he'⟩ := (hmem r').mp hr'
    exact hkind.key_inj (hcanonical ax hax) (hcanonical ax' hax') he he' hkey
  refine ⟨ascending_merge _ hruns hinj, fun r => ?_⟩
  rw [RecordKind.merged, mem_merge _ hruns hinj, hmem, decide_eq_false_iff_not]
  constructor
  · rintro ⟨⟨ax, hax, he⟩, hkept⟩
    rw [hkind.axiomOf_entry he] at hkept
    exact ⟨ax, (haxioms ax (hkind.selected he)).mpr ⟨hax, hkept⟩, he⟩
  · rintro ⟨ax, hax, he⟩
    obtain ⟨hax, hkept⟩ := (haxioms ax (hkind.selected he)).mp hax
    refine ⟨⟨ax, hax, he⟩, ?_⟩
    rwa [hkind.axiomOf_entry he]

theorem layeredRecordsAll_eq_map (views : List View) :
    layeredRecordsAll kind hash value views = views.map (layeredRecords kind hash value) := by
  induction views with
  | nil => rfl
  | cons view rest ih => rw [layeredRecordsAll, ih, map_cons]

theorem mem_movedRecords :
    r ∈ (movedRecords kind hash faces records).flatten ↔ ∃ i run, records[i]? = some run ∧
      ∃ r' ∈ run, kind.move (scopeValue hash (faces.map Face.sourceScopes) i) r' = r := by
  simp only [movedRecords, mem_flatten, mem_map, Prod.exists, mem_zipIdx_iff_getElem?]
  constructor
  · rintro ⟨_, ⟨run, i, hrun, rfl⟩, hr⟩
    exact ⟨i, run, hrun, mem_map.mp (KeyedIndex.mem_sortBy.mp hr)⟩
  · rintro ⟨i, run, hrun, hr⟩
    exact ⟨_, ⟨run, i, hrun, rfl⟩, KeyedIndex.mem_sortBy.mpr (mem_map.mpr hr)⟩

theorem mem_movedRecords_layeredRecords (hkind : kind.Sound) {sources : List View}
    (hlayered : ∀ v ∈ sources, v.Layered hash)
    (h : ∀ v ∈ sources, ListsRecords kind value (v.face hash).axioms (layeredRecords kind hash value v)) {r : ρ} :
    r ∈ (movedRecords kind hash (sources.map (View.face hash)) (sources.map (layeredRecords kind hash value))).flatten ↔
      ∃ ax ∈ {n | n ∈ (Face.memberLists hash (sources.map (View.face hash)) Face.axioms).flatten},
        (value, r) ∈ kind.entries ax := by
  rw [mem_movedRecords]
  constructor
  · rintro ⟨i, run, hrun, r, hr, rfl⟩
    obtain ⟨v, hv, rfl⟩ := getElem?_map .. ▸ hrun |> Option.map_eq_some_iff.mp
    have hmem := mem_of_getElem? hv
    obtain ⟨ax, hax, he⟩ := ((h v hmem).mem_iff r).mp hr
    exact ⟨_, mem_memberLists.mpr ⟨i, v.face hash, by simp [hv], ax, hax, rfl⟩,
      (hkind.moved _ ((hlayered v hmem).readableAxiom ax hax) _).mpr ⟨_, he, rfl⟩⟩
  · rintro ⟨_, hax, hmoved⟩
    obtain ⟨i, source, hsource, ax, hax, rfl⟩ := mem_memberLists.mp hax
    obtain ⟨v, hv, rfl⟩ := getElem?_map .. ▸ hsource |> Option.map_eq_some_iff.mp
    have hmem := mem_of_getElem? hv
    obtain ⟨⟨_, r⟩, he, heq⟩ := (hkind.moved _ ((hlayered v hmem).readableAxiom ax hax) _).mp hmoved
    obtain ⟨rfl, rfl⟩ := Prod.mk.inj heq
    exact ⟨i, _, by simp [hv], r, ((h v hmem).mem_iff r).mpr ⟨ax, hax, he⟩, rfl⟩

/-- A layer with the additions and removals of a patch lists the records of the patched axioms. -/
theorem listsRecords_patched (hkind : kind.Sound) {patch : Patch} {below : List (List ρ)} (hsorted : ∀ run ∈ below,
    Sorted kind.key run) (hbelow : ∀ r, r ∈ below.flatten ↔ ∃ ax ∈ s, (value, r) ∈ kind.entries ax) (hcanonical : ∀ ax
    ∈ s, ax.Canonical) (haxioms : Enumerates axioms (patch.apply s)) :
    ListsRecords kind value axioms (kind.merged ⟨[], sources, (typesSelection classAxiomTypes).additions patch.add.items,
      (typesSelection classAxiomTypes).removals patch.remove.items⟩ value below) := by
  have hpicks := typesSelection_picks classAxiomTypes
  refine listsRecords_merged hkind hsorted hbelow (fun ax hax => ?_) fun ax hc => ?_
  · simp only [hpicks.mem_additions, not_mem_nil, false_or] at hax
    exact hax.elim (hcanonical ax) fun hadd => patch.add.canonical ax hadd.1
  · have hdisjoint := patch.disjoint ax
    simp only [haxioms.mem_iff, Patch.apply, Set.mem_ofPred_eq, not_mem_nil, false_or, hpicks.mem_additions,
      hpicks.mem_removals _ _ hc, CanonicalSet.mem_items, hc, and_true]
    tauto

/-- Over any stack the records under a class are those of the axioms that the view enumerates. -/
theorem listsRecords_layeredRecords (hkind : kind.Sound) (h : view.Layered hash) :
    ListsRecords kind value (view.face hash).axioms (layeredRecords kind hash value view) := by
  induction h with
  | snapshot snapshot =>
    have hpicks := typesSelection_picks classAxiomTypes
    refine listsRecords_merged hkind (s := ∅) (by simp) (by simp) (fun ax hax => ?_) fun ax hc => ?_
    · simp only [classLayer, layeredRuns, hpicks.mem_own, Set.mem_empty_iff_false, not_mem_nil, or_false] at hax
      exact snapshot.axioms.canonical ax hax.1
    · simp only [classLayer, layeredRuns, hpicks.mem_own, Set.mem_empty_iff_false, not_mem_nil, or_false,
        not_false_eq_true, and_true, hc]
      rfl
  | @overlay base delta layered axioms annotations ih =>
    have hbase := layered.sound.exposes.axioms
    rw [layeredRecords, classLayer, layeredRuns]
    refine listsRecords_patched hkind (fun run hrun => ?_) (fun r => ?_) hbase.canonical hbase.overlayAxioms
    · rw [mem_singleton.mp hrun]
      exact ih.ascending.sorted
    · rw [flatten_singleton]
      exact ih.mem_iff r
  | @composite sources delta layered axioms annotations ih =>
    have hsound := sound_faces layered
    rw [layeredRecords, classLayer, layeredRuns, layeredRecordsAll_eq_map, View.faces_eq_map, View.face_composite]
    refine listsRecords_patched hkind (fun run hrun => ?_)
      (fun r => mem_movedRecords_layeredRecords hkind layered ih)
      (canonical_memberLists hsound fun _ _ hn => mem_roots.mpr (.inr (.inl hn)))
      (exposes_composite hsound delta).axioms
    obtain ⟨_, -, rfl⟩ := mem_map.mp hrun
    exact KeyedIndex.sorted_sortBy _

/-- A list of canonical values with every class that the axioms file a disjoint union under. -/
structure CoversChildren (axioms children : List Node) : Prop where
  canonical : ∀ x ∈ children, x.Canonical
  covers : ∀ ax ∈ axioms, ∀ e ∈ disjointUnionEntries ax, e.1 ∈ children

theorem canonical_disjointUnionEntry (hax : ax.Canonical) (he : e ∈ disjointUnionEntries ax) : e.1.Canonical := by
  obtain ⟨_, _, hread, member, hmember, rfl⟩ := mem_disjointUnionEntries.mp he
  refine hax.child (mem_operands_classAxiom ?_).1
  rw [hread]
  exact mem_cons_of_mem _ (mem_of_mem_filter hmember)

theorem coversChildren_keys (hcanonical : ∀ ax, ax ∈ layer.own ∨ ax ∈ layer.additions → ax.Canonical) (hbelow : ∀ x ∈
    below.flatten, x.Canonical) (hcovers : ∀ ax ∈ axioms, ∀ e ∈ disjointUnionEntries ax, (ax ∈ layer.own ∨ ax ∈
    layer.additions) ∨ e.1 ∈ below.flatten) :
    CoversChildren axioms (disjointUnionKeys layer below) := by
  have hmem : ∀ x, x ∈ ((keys (disjointUnionRecords.recordMap (layer.own ++ layer.additions)) :: below).map
      (sortBy Node.bytes)).flatten ↔ (∃ ax, (ax ∈ layer.own ∨ ax ∈ layer.additions) ∧
        ∃ r, (x, r) ∈ disjointUnionEntries ax) ∨ x ∈ below.flatten := by
    intro x
    rw [KeyedIndex.mem_flatten_sortBy]
    simp only [mem_cons, exists_eq_or_imp, RecordKind.recordMap, mem_keys_gather, mem_flatMap, mem_append, mem_flatten]
    rw [exists_comm]
    simp only [exists_and_left]
    rfl
  have hall : ∀ x ∈ ((keys (disjointUnionRecords.recordMap (layer.own ++ layer.additions)) :: below).map
      (sortBy Node.bytes)).flatten, x.Canonical := by
    intro x hx
    rcases (hmem x).mp hx with ⟨ax, hax, r, he⟩ | hx
    · exact canonical_disjointUnionEntry (hcanonical ax hax) he
    · exact hbelow x hx
  have hkeys : ∀ x, x ∈ disjointUnionKeys layer below ↔ _ := fun x =>
    (mem_merge (fun _ => false) KeyedIndex.sorted_of_mem_map_sortBy (keyInjOn_canonical hall) x)
  refine ⟨fun x hx => hall x ((hkeys x).mp hx).1, fun ax hax e he => (hkeys e.1).mpr ⟨(hmem e.1).mpr ?_, rfl⟩⟩
  exact (hcovers ax hax e he).imp_left fun hown => ⟨ax, hown, e.2, he⟩

theorem allDisjointUnionChildrenAll_eq_map (views : List View) :
    allDisjointUnionChildrenAll hash views = views.map (allDisjointUnionChildren hash) := by
  induction views with
  | nil => rfl
  | cons view rest ih => rw [allDisjointUnionChildrenAll, ih, map_cons]

theorem selected_disjointUnionEntry (he : e ∈ disjointUnionEntries ax) :
    ax.constructor ∈ classAxiomTypes := disjointUnionRecords_sound.selected he

theorem coversChildren_allDisjointUnionChildren (h : view.Layered hash) :
    CoversChildren (view.face hash).axioms (allDisjointUnionChildren hash view) := by
  have hpicks := typesSelection_picks classAxiomTypes
  induction h with
  | snapshot snapshot =>
    rw [allDisjointUnionChildren, classLayer, layeredRuns]
    refine coversChildren_keys (fun ax hax => ?_) (by simp) fun ax hax e he => .inl (.inl ?_)
    · simp only [hpicks.mem_own, not_mem_nil, or_false] at hax
      exact snapshot.axioms.canonical ax hax.1
    · exact (hpicks.mem_own _ _).mpr ⟨hax, selected_disjointUnionEntry he⟩
  | @overlay base delta layered axioms annotations ih =>
    rw [allDisjointUnionChildren, classLayer, layeredRuns]
    refine coversChildren_keys (fun ax hax => ?_) (by simpa using ih.canonical) fun ax hax e he => ?_
    · simp only [hpicks.mem_additions, not_mem_nil, false_or] at hax
      exact delta.axioms.add.canonical ax hax.1
    · rcases (layered.sound.exposes.axioms.overlayAxioms.mem_iff ax).mp hax with hadd | ⟨hax, -⟩
      · exact .inl (.inr ((hpicks.mem_additions _ _).mpr ⟨hadd, selected_disjointUnionEntry he⟩))
      · exact .inr (by simpa using ih.covers ax hax e he)
  | @composite sources delta layered axioms annotations ih =>
    rw [allDisjointUnionChildren, classLayer, layeredRuns, allDisjointUnionChildrenAll_eq_map, View.face_composite]
    refine coversChildren_keys (fun ax hax => ?_) (fun x hx => ?_) fun ax hax e he => ?_
    · simp only [hpicks.mem_additions, not_mem_nil, false_or] at hax
      exact delta.axioms.add.canonical ax hax.1
    · obtain ⟨_, hlist, hx⟩ := mem_flatten.mp hx
      obtain ⟨v, hv, rfl⟩ := mem_map.mp hlist
      exact (ih v hv).canonical x hx
    · rcases ((exposes_composite (sound_faces layered) delta).axioms.mem_iff ax).mp hax with hadd | ⟨hax, -⟩
      · exact .inl (.inr ((hpicks.mem_additions _ _).mpr ⟨hadd, selected_disjointUnionEntry he⟩))
      · obtain ⟨i, source, hsource, ax, hax, rfl⟩ := mem_memberLists.mp hax
        obtain ⟨v, hv, rfl⟩ := getElem?_map .. ▸ hsource |> Option.map_eq_some_iff.mp
        have hmem := mem_of_getElem? hv
        obtain ⟨e', he', rfl⟩ := (disjointUnionRecords_sound.moved _ ((layered v hmem).readableAxiom ax hax) _).mp he
        exact .inr (mem_flatten.mpr ⟨_, mem_map_of_mem hmem, (ih v hmem).covers ax hax e' he'⟩)

end

end OwlCore
