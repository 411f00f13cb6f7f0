import Mathlib.Data.List.Count
import OwlCore.Index.Entities
import OwlCore.Lib.KeyedIndex
import OwlCore.View.Compose
import OwlCore.View.History

/-!
# Annotation index

The annotation assertions of a view by subject, and the annotations nested in its roots. A
layered index keeps the index below, adds what the delta adds and skips the assertions it
removes. That is a full build for the assertions but not for nested annotations: other
containers are never skipped, and one of several members is kept for each.
-/
namespace OwlCore

open Face KeyedIndex List Node

/-- The fields that `getattr(value, "annotations", ())` reads. -/
def annotationFields {N : Type} (c : Constructor) (fields : List (Value N)) : List (Value N) :=
  ((c.fieldSpecs.zip fields).filter fun field => field.1.name == "annotations").map Prod.snd

/-- A popped annotation with everything that is pushed from it. -/
def Node.annotationTree : Node → List Node :=
  Node.para fun n fields => n :: (annotationFields n.constructor fields).flatMap fun v => v.nodes.flatten

/-- What the stack of `_nested_occurrences` yields for a root. An annotation as root is pushed with its
own annotations, which it pushes once more when it is popped. -/
def Node.nestedAnnotations (root : Node) : List Node :=
  (if root.constructor = .annotationNode then root.annotationTree else []) ++
    (annotationFields root.constructor root.fields).flatMap fun v => v.nodes.flatMap Node.annotationTree

structure NestedAnnotationOccurrence where
  annotationNode : Node
  container : Node
  deriving DecidableEq

namespace NestedAnnotationOccurrence

/-- `_nested_key`. -/
def key (occurrence : NestedAnnotationOccurrence) : Bytes :=
  occurrence.container.bytes ++ ([0] ++ occurrence.annotationNode.bytes)

def map (move : Node → Node) (occurrence : NestedAnnotationOccurrence) : NestedAnnotationOccurrence :=
  ⟨move occurrence.annotationNode, move occurrence.container⟩

end NestedAnnotationOccurrence

def occurrencesOf (root : Node) : List NestedAnnotationOccurrence :=
  root.nestedAnnotations.map fun inner => ⟨inner, root⟩

def nestedOccurrences (roots : List Node) : List NestedAnnotationOccurrence :=
  sortBy NestedAnnotationOccurrence.key (roots.flatMap occurrencesOf)

/-- `isinstance(root, AnnotationAssertion)`. -/
def assertionsOf (roots : List Node) : List Node := roots.filter fun root => root.constructor = .annotationAssertion

/-- `subject` of an annotation assertion. -/
def annotationSubject : Node → Node
  | .mk _ (_ :: .node subject :: _) => subject
  | n => n

/-- `property` of an annotation. -/
def annotationProperty? : Node → Option Node
  | .mk _ (.node property :: _) => some property
  | _ => none

def OntologyDelta.addedRoots (delta : OntologyDelta) : List Node := delta.annotations.add.items ++ delta.axioms.add.items

/-- `_removals`: the removed annotation assertions. -/
def OntologyDelta.removedAssertions (delta : OntologyDelta) : List Node := assertionsOf delta.axioms.remove.items

/-- The assertions by subject, and the nested occurrences that are not skipped. -/
structure AnnotationAssertionIndex where
  assertions : KeyedIndex Node Node
  nestedValues : List NestedAnnotationOccurrence

namespace AnnotationAssertionIndex

def nested (index : AnnotationAssertionIndex) (property : Option Node) : List NestedAnnotationOccurrence :=
  sortBy NestedAnnotationOccurrence.key (index.nestedValues.filter fun occurrence =>
    property.all fun property => decide (annotationProperty? occurrence.annotationNode = some property))

/-- The full build over the roots that a view enumerates. -/
def ofFace (face : Face) : AnnotationAssertionIndex where
  assertions := build Node.bytes Node.bytes annotationSubject (assertionsOf face.axioms) [] [] fun _ => false
  nestedValues := nestedOccurrences face.roots

def overlay (source : AnnotationAssertionIndex) (delta : OntologyDelta) : AnnotationAssertionIndex where
  assertions := build Node.bytes Node.bytes annotationSubject [] (assertionsOf delta.addedRoots)
    [.ofIndex source.assertions] fun value => decide (value ∈ delta.removedAssertions)
  nestedValues := (nestedOccurrences delta.addedRoots ++ source.nested none).filter fun occurrence =>
    decide (occurrence.container ∉ delta.removedAssertions)

def transformSubject (move : Node → Node) (subject : Node) : Node :=
  if subject.constructor = .iri then subject else move subject

def composite (hash : Hash) (faces : List Face) (sources : List AnnotationAssertionIndex) (delta : OntologyDelta) :
    AnnotationAssertionIndex where
  assertions := build Node.bytes Node.bytes annotationSubject [] (assertionsOf delta.axioms.add.items)
    (sources.zipIdx.map fun source =>
      let move := scopeValue hash (faces.map Face.sourceScopes) source.2
      .moved move (transformSubject move) (fun subject => decide (subject.constructor ≠ .anonymousIndividual))
        source.1.assertions)
    fun value => decide (value ∈ delta.removedAssertions)
  nestedValues := (nestedOccurrences delta.addedRoots ++ sources.zipIdx.flatMap fun source : AnnotationAssertionIndex × Nat =>
      (source.1.nested none).map
        (NestedAnnotationOccurrence.map (scopeValue hash (faces.map Face.sourceScopes) source.2))).filter
    fun occurrence => decide (occurrence.container ∉ delta.removedAssertions)

end AnnotationAssertionIndex

section

variable (hash : Hash)

mutual

/-- `AnnotationAssertionIndex._build`. -/
def annotationIndex : View → AnnotationAssertionIndex
  | .snapshot value => .ofFace (.ofSnapshot hash value)
  | .overlay base delta => .overlay (annotationIndex base) delta
  | .composite sources delta => .composite hash (View.faces hash sources) (annotationIndexes sources) delta

def annotationIndexes : List View → List AnnotationAssertionIndex
  | [] => []
  | view :: rest => annotationIndex view :: annotationIndexes rest

end

def movedRoots (faces : List Face) (roots : List (List Node)) : List Node :=
  roots.zipIdx.flatMap fun source => source.1.map (scopeValue hash (faces.map Face.sourceScopes) source.2)

mutual

/-- The roots that the layers of a view put in and no layer above removes as annotation assertions, as
often as they were put in. -/
def carriedRoots : View → List Node
  | .snapshot value => (Face.ofSnapshot hash value).roots
  | .overlay base delta => (delta.addedRoots ++ carriedRoots base).filter fun root =>
      decide (root ∉ delta.removedAssertions)
  | .composite sources delta =>
    (delta.addedRoots ++ movedRoots hash (View.faces hash sources) (carriedRootsAll sources)).filter fun root =>
      decide (root ∉ delta.removedAssertions)

def carriedRootsAll : List View → List (List Node)
  | [] => []
  | view :: rest => carriedRoots view :: carriedRootsAll rest

end

/-- Moving a source into a composite keeps its anonymous individuals apart. -/
inductive View.MovesApart : View → Prop where
  | snapshot (value : Snapshot) : MovesApart (.snapshot value)
  | overlay {base : View} {delta : OntologyDelta} (below : MovesApart base) : MovesApart (.overlay base delta)
  | composite {sources : List View} {delta : OntologyDelta} (sources_apart : ∀ v ∈ sources, MovesApart v)
      (moves : ∀ i v, sources[i]? = some v →
        Set.InjOn (moveAnonymous hash ((sources.map (View.face hash)).map Face.sourceScopes) i)
          {a | ∃ n ∈ carriedRoots hash v, a ∈ n.anonymousValues}) :
      MovesApart (.composite sources delta)

/-- Annotations are annotations, axioms are axioms and extensions are neither, as snapshots and deltas check. -/
structure TypedRoots (annotations axioms extensions : Set Node) : Prop where
  annotations : ∀ n ∈ annotations, n.constructor = .annotationNode
  axioms : ∀ n ∈ axioms, n.constructor ∈ axiomTypes
  extensions : ∀ n ∈ extensions, n.constructor ∉ .annotationNode :: axiomTypes

inductive View.Typed : View → Prop where
  | snapshot {value : Snapshot} (roots : TypedRoots {n | n ∈ value.annotations} {n | n ∈ value.axioms}
      {n | n ∈ value.extensions}) : Typed (.snapshot value)
  | overlay {base : View} {delta : OntologyDelta} (below : Typed base)
      (roots : TypedRoots {n | n ∈ delta.annotations.add} {n | n ∈ delta.axioms.add} ∅) : Typed (.overlay base delta)
  | composite {sources : List View} {delta : OntologyDelta} (sources_typed : ∀ v ∈ sources, Typed v)
      (roots : TypedRoots {n | n ∈ delta.annotations.add} {n | n ∈ delta.axioms.add} ∅) :
      Typed (.composite sources delta)

end

section

variable {n m : Node} {f : AnonymousIndividual → AnonymousIndividual}

theorem annotationFields_map (g : Value M → Value N) (c : Constructor) (fields : List (Value M)) :
    annotationFields c (fields.map g) = (annotationFields c fields).map g := by
  simp only [annotationFields, zip_map_right, filter_map, List.map_map]
  rfl

theorem mem_of_mem_annotationFields {fields : List (Value N)} (h : v ∈ annotationFields c fields) : v ∈ fields := by
  obtain ⟨field, hfield, rfl⟩ := mem_map.mp h
  exact (of_mem_zip (mem_filter.mp hfield).1).2

theorem Node.annotationTree_eq (n : Node) : n.annotationTree =
    n :: (annotationFields n.constructor n.fields).flatMap fun v => v.nodes.flatMap Node.annotationTree := by
  rw [Node.annotationTree, para_eq, annotationFields_map, flatMap_map]
  simp only [Value.nodes_map, List.flatMap]

theorem nodes_rebuild_perm (hn : n.Canonical) (hinj : Set.InjOn f {a | a ∈ n.anonymousValues}) (hv : v ∈ n.fields) :
    (v.map (Node.mapAnonymous f)).rebuild.nodes.Perm (v.nodes.map (Node.mapAnonymous f)) := by
  cases v with
  | set ms => exact ofList_image_perm hn hinj hv
  | _ => exact .refl _

theorem annotationFields_anonymousIndividual (fields : List (Value N)) :
    annotationFields .anonymousIndividual fields = [] := by
  rw [annotationFields, map_eq_nil_iff, filter_eq_nil_iff]
  rintro ⟨spec, v⟩ hfield
  have hspec : spec ∈ Constructor.fieldSpecs .anonymousIndividual := (of_mem_zip hfield).1
  simp only [Constructor.fieldSpecs, mem_cons, not_mem_nil, or_false] at hspec
  rcases hspec with rfl | rfl <;> simp [Schema.field]

/-- Walking the annotations of a moved value, given what moving does below each of them. -/
theorem flatMap_annotationFields_mapAnonymous (hn : n.Canonical) (hinj : Set.InjOn f {a | a ∈ n.anonymousValues})
    (hg : ∀ m ∈ n.children, (g (m.mapAnonymous f)).Perm ((g m).map (Node.mapAnonymous f))) :
    ((annotationFields n.constructor (n.mapAnonymous f).fields).flatMap fun v => v.nodes.flatMap g).Perm
      (((annotationFields n.constructor n.fields).flatMap fun v => v.nodes.flatMap g).map (Node.mapAnonymous f)) := by
  cases hnone : n.anonymous? with
  | some a =>
    obtain rfl := anonymous?_eq_some.mp hnone
    have hc : a.node.constructor = .anonymousIndividual := rfl
    rw [hc, annotationFields_anonymousIndividual, annotationFields_anonymousIndividual]
    exact .refl _
  | none =>
    rw [fields_mapAnonymous hnone, annotationFields_map, flatMap_map, map_flatMap]
    refine Perm.flatMap_left _ fun v hv => ?_
    have hfield := mem_of_mem_annotationFields hv
    rw [map_flatMap]
    refine ((nodes_rebuild_perm hn hinj hfield).flatMap_right g).trans ?_
    rw [flatMap_map]
    exact Perm.flatMap_left _ fun m hm => hg m (mem_children.mpr ⟨v, hfield, hm⟩)

section

variable (hn : n.Canonical)

include hn

section

variable (hinj : Set.InjOn f {a | a ∈ n.anonymousValues})

include hinj

theorem Node.annotationTree_mapAnonymous :
    (n.mapAnonymous f).annotationTree.Perm (n.annotationTree.map (Node.mapAnonymous f)) := by
  induction n using Node.induct with
  | step n ih =>
    rw [annotationTree_eq, annotationTree_eq n, constructor_mapAnonymous, map_cons]
    exact .cons _ (flatMap_annotationFields_mapAnonymous hn hinj fun m hm => ih m hm (hn.child hm) (injOn_child hinj hm))

theorem Node.nestedAnnotations_mapAnonymous :
    (n.mapAnonymous f).nestedAnnotations.Perm (n.nestedAnnotations.map (Node.mapAnonymous f)) := by
  rw [Node.nestedAnnotations, Node.nestedAnnotations, constructor_mapAnonymous, map_append]
  refine .append ?_ ?_
  · split
    · exact annotationTree_mapAnonymous hn hinj
    · exact .refl _
  · exact flatMap_annotationFields_mapAnonymous hn hinj fun m hm =>
      annotationTree_mapAnonymous (hn.child hm) (injOn_child hinj hm)

theorem occurrencesOf_mapAnonymous :
    (occurrencesOf (n.mapAnonymous f)).Perm ((occurrencesOf n).map (.map (Node.mapAnonymous f))) := by
  have hperm := (nestedAnnotations_mapAnonymous hn hinj).map fun inner =>
    NestedAnnotationOccurrence.mk inner (n.mapAnonymous f)
  rw [List.map_map] at hperm
  rw [occurrencesOf, occurrencesOf, List.map_map]
  exact hperm

end

theorem Node.canonical_annotationTree : ∀ m ∈ n.annotationTree, m.Canonical := by
  induction n using Node.induct with
  | step n ih =>
    intro m hm
    rw [annotationTree_eq, mem_cons] at hm
    rcases hm with rfl | hm
    · exact hn
    · obtain ⟨v, hv, hm⟩ := mem_flatMap.mp hm
      obtain ⟨k, hk, hm⟩ := mem_flatMap.mp hm
      have hchild := mem_children.mpr ⟨v, mem_of_mem_annotationFields hv, hk⟩
      exact ih k hchild (hn.child hchild) m hm

theorem Node.canonical_nestedAnnotations : ∀ m ∈ n.nestedAnnotations, m.Canonical := by
  intro m hm
  rw [Node.nestedAnnotations, mem_append] at hm
  rcases hm with hm | hm
  · split at hm
    · exact canonical_annotationTree hn m hm
    · cases hm
  · obtain ⟨v, hv, hm⟩ := mem_flatMap.mp hm
    obtain ⟨k, hk, hm⟩ := mem_flatMap.mp hm
    have hchild := mem_children.mpr ⟨v, mem_of_mem_annotationFields hv, hk⟩
    exact canonical_annotationTree (hn.child hchild) m hm

end

end

section

variable {hash : Hash} {roots : List Node}

@[simp] theorem annotationIndexes_eq_map (views : List View) :
    annotationIndexes hash views = views.map (annotationIndex hash) := by
  induction views with
  | nil => rfl
  | cons view rest ih => rw [annotationIndexes, ih, map_cons]

@[simp] theorem carriedRootsAll_eq_map (views : List View) :
    carriedRootsAll hash views = views.map (carriedRoots hash) := by
  induction views with
  | nil => rfl
  | cons view rest ih => rw [carriedRootsAll, ih, map_cons]

theorem nestedOccurrences_perm (roots : List Node) : (nestedOccurrences roots).Perm (roots.flatMap occurrencesOf) :=
  sortBy_perm _ _

theorem AnnotationAssertionIndex.nested_none_perm (index : AnnotationAssertionIndex) :
    (index.nested none).Perm index.nestedValues := by
  refine (sortBy_perm _ _).trans (.of_eq ?_)
  exact filter_eq_self.mpr fun _ _ => rfl

theorem container_of_mem_occurrencesOf (h : occurrence ∈ occurrencesOf root) : occurrence.container = root := by
  obtain ⟨_, -, rfl⟩ := mem_map.mp h
  rfl

theorem filter_flatMap_occurrencesOf (removed : List Node) (roots : List Node) :
    ((roots.flatMap occurrencesOf).filter fun occurrence => decide (occurrence.container ∉ removed)) =
      (roots.filter fun root => decide (root ∉ removed)).flatMap occurrencesOf := by
  induction roots with
  | nil => rfl
  | cons root rest ih =>
    rw [flatMap_cons, filter_append, ih]
    have hroot : ∀ occurrence ∈ occurrencesOf root, occurrence.container = root := fun _ =>
      container_of_mem_occurrencesOf
    by_cases h : root ∈ removed
    · rw [filter_cons_of_neg (by simpa using h), filter_eq_nil_iff.mpr, nil_append]
      intro occurrence hmem
      simpa [hroot occurrence hmem] using h
    · rw [filter_cons_of_pos (by simpa using h), flatMap_cons, filter_eq_self.mpr]
      intro occurrence hmem
      simpa [hroot occurrence hmem] using h

theorem nested_filter_perm {delta : OntologyDelta} (h : below.Perm (roots.flatMap occurrencesOf)) :
    ((nestedOccurrences delta.addedRoots ++ below).filter fun occurrence =>
      decide (occurrence.container ∉ delta.removedAssertions)).Perm
      (((delta.addedRoots ++ roots).filter fun root => decide (root ∉ delta.removedAssertions)).flatMap
        occurrencesOf) := by
  rw [← filter_flatMap_occurrencesOf, flatMap_append]
  exact ((nestedOccurrences_perm _).append h).filter _

theorem canonical_carriedRoots (h : view.Layered hash) : ∀ n ∈ carriedRoots hash view, n.Canonical := by
  have hadded : ∀ (delta : OntologyDelta), ∀ n ∈ delta.addedRoots, n.Canonical := by
    intro delta n hn
    rcases mem_append.mp hn with hn | hn
    · exact delta.annotations.add.canonical n hn
    · exact delta.axioms.add.canonical n hn
  induction h with
  | snapshot value => exact (sound_ofSnapshot value).canonical
  | @overlay base delta layered axioms annotations ih =>
    intro n hn
    rw [carriedRoots, mem_filter, mem_append] at hn
    exact hn.1.elim (hadded delta n) (ih n)
  | @composite sources delta layered axioms annotations ih =>
    intro n hn
    rw [carriedRoots, mem_filter, mem_append, carriedRootsAll_eq_map, movedRoots] at hn
    rcases hn.1 with hn | hn
    · exact hadded delta n hn
    · obtain ⟨⟨roots, i⟩, hroots, hn⟩ := mem_flatMap.mp hn
      obtain ⟨v, hv, rfl⟩ := mem_map.mp (fst_mem_of_mem_zipIdx hroots)
      obtain ⟨r, hr, rfl⟩ := mem_map.mp hn
      exact canonical_scopeValue (ih v hv r hr)

/-- The nested occurrences of a layered index are those of the carried roots. -/
theorem nestedValues_perm {view : View} (h : view.Layered hash) (apart : view.MovesApart hash) :
    (annotationIndex hash view).nestedValues.Perm ((carriedRoots hash view).flatMap occurrencesOf) := by
  induction h with
  | snapshot value => exact nestedOccurrences_perm _
  | @overlay base delta layered axioms annotations ih =>
    cases apart with
    | overlay below =>
      exact nested_filter_perm ((AnnotationAssertionIndex.nested_none_perm _).trans (ih below))
  | @composite sources delta layered axioms annotations ih =>
    cases apart with
    | composite sources_apart moves =>
      rw [annotationIndex, carriedRoots, annotationIndexes_eq_map, carriedRootsAll_eq_map, View.faces_eq_map]
      refine nested_filter_perm ?_
      rw [movedRoots, zipIdx_map, zipIdx_map, flatMap_map, flatMap_map, flatMap_assoc]
      refine Perm.flatMap_left _ fun member hmember => ?_
      obtain ⟨v, i⟩ := member
      have hv : sources[i]? = some v := mem_zipIdx_iff_getElem?.mp hmember
      have hmem := mem_of_getElem? hv
      have hbelow := ((AnnotationAssertionIndex.nested_none_perm _).trans (ih v hmem (sources_apart v hmem))).map
        (NestedAnnotationOccurrence.map (scopeValue hash ((sources.map (View.face hash)).map Face.sourceScopes) i))
      refine hbelow.trans ?_
      rw [map_flatMap, flatMap_map]
      -- a root is moved with its nested annotations
      refine Perm.flatMap_left _ fun n hn => (occurrencesOf_mapAnonymous ?_ ?_).symm
      · exact canonical_carriedRoots (layered v hmem) n hn
      · refine (moves i v hv).mono fun a ha => ?_
        exact ⟨n, hn, ha⟩

theorem count_flatMap_occurrencesOf (roots : List Node) (inner container : Node) :
    (roots.flatMap occurrencesOf).count ⟨inner, container⟩ =
      roots.count container * container.nestedAnnotations.count inner := by
  induction roots with
  | nil => simp
  | cons root rest ih =>
    rw [flatMap_cons, count_append, ih, count_cons]
    by_cases h : root = container
    · subst h
      have hinj : Function.Injective fun inner => NestedAnnotationOccurrence.mk inner root := by
        intro a b hab
        exact (NestedAnnotationOccurrence.mk.inj hab).1
      rw [occurrencesOf, count_map_of_injective _ _ hinj]
      simp only [beq_self_eq_true, if_true]
      rw [Nat.add_mul, Nat.one_mul, Nat.add_comm]
    · have hzero : (occurrencesOf root).count ⟨inner, container⟩ = 0 := by
        rw [count_eq_zero]
        intro hmem
        exact h (container_of_mem_occurrencesOf hmem).symm
      simp [hzero, h]

/-- Two lists of roots have the same occurrences when they hold the annotated roots equally often. -/
theorem flatMap_occurrencesOf_perm_iff {roots roots' : List Node} :
    (roots.flatMap occurrencesOf).Perm (roots'.flatMap occurrencesOf) ↔
      ∀ n, n.nestedAnnotations ≠ [] → roots.count n = roots'.count n := by
  rw [perm_iff_count]
  constructor
  · intro h n hn
    obtain ⟨inner, hinner⟩ := exists_mem_of_ne_nil _ hn
    have hcount := h ⟨inner, n⟩
    rw [count_flatMap_occurrencesOf, count_flatMap_occurrencesOf] at hcount
    exact Nat.eq_of_mul_eq_mul_right (count_pos_iff.mpr hinner) hcount
  · rintro h ⟨inner, n⟩
    rw [count_flatMap_occurrencesOf, count_flatMap_occurrencesOf]
    by_cases hn : n.nestedAnnotations = []
    · simp [hn]
    · rw [h n hn]

end

section

variable {hash : Hash}

theorem keyInjOn_occurrences {occurrences : List NestedAnnotationOccurrence} {roots : List Node}
    (hroots : ∀ n ∈ roots, n.Canonical) (h : ∀ o ∈ occurrences, o ∈ roots.flatMap occurrencesOf) :
    KeyedSet.KeyInjOn NestedAnnotationOccurrence.key (· ∈ occurrences) := by
  have hcanonical : ∀ o ∈ occurrences, o.container.Canonical ∧ o.annotationNode.Canonical := by
    intro o ho
    obtain ⟨root, hroot, ho⟩ := mem_flatMap.mp (h o ho)
    obtain ⟨inner, hinner, rfl⟩ := mem_map.mp ho
    exact ⟨hroots root hroot, canonical_nestedAnnotations (hroots root hroot) inner hinner⟩
  rintro ⟨inner, container⟩ ⟨inner', container'⟩ ho ho' hkey
  obtain ⟨rfl, hrest⟩ := bytes_append_inj (hcanonical _ ho).1 (hcanonical _ ho').1 hkey
  have hbytes : inner.bytes = inner'.bytes := append_cancel_left hrest
  obtain rfl : inner = inner' := bytes_injOn (hcanonical _ ho).2 (hcanonical _ ho').2 hbytes
  rfl

/-- The nested occurrences of two indexes agree when they are those of equally many annotated roots. -/
theorem nested_eq_iff {index other : AnnotationAssertionIndex} {roots roots' : List Node}
    (hroots : ∀ n ∈ roots, n.Canonical) (h : index.nestedValues.Perm (roots.flatMap occurrencesOf))
    (h' : other.nestedValues.Perm (roots'.flatMap occurrencesOf)) :
    (∀ property, index.nested property = other.nested property) ↔
      ∀ n, n.nestedAnnotations ≠ [] → roots.count n = roots'.count n := by
  rw [← flatMap_occurrencesOf_perm_iff]
  constructor
  · intro heq
    have hnested : index.nestedValues.Perm other.nestedValues :=
      index.nested_none_perm.symm.trans ((Perm.of_eq (heq none)).trans other.nested_none_perm)
    exact h.symm.trans (hnested.trans h')
  · intro hperm property
    have hnested : index.nestedValues.Perm other.nestedValues := h.trans (hperm.trans h'.symm)
    refine sortBy_eq_of_perm (hnested.filter _) (keyInjOn_occurrences hroots fun o ho => ?_)
    exact h.mem_iff.mp (mem_filter.mp ho).1

end

section

variable {hash : Hash} {n : Node} {f : AnonymousIndividual → AnonymousIndividual}

/-- The subject of an annotation assertion is an IRI or an anonymous individual. -/
def Node.HasSubject (n : Node) : Prop :=
  n.constructor = .annotationAssertion → ∃ property subject rest, n.fields = property :: .node subject :: rest ∧
    (subject.constructor = .iri ∧ subject.anonymousValues = [] ∨ ∃ a : AnonymousIndividual, subject = a.node)

theorem Constructible.hasSubject (h : Constructible n) : n.HasSubject := by
  intro hc
  have hsound := h.fields_sound (by rw [hc]; rfl)
  rw [hc] at hsound
  obtain ⟨property, rest, -, hrest, hfields⟩ := forall₂_cons_left_iff.mp hsound
  obtain ⟨v, rest', hv, -, rfl⟩ := forall₂_cons_left_iff.mp hrest
  obtain ⟨subject, rfl, hinst⟩ := hv.fits
  have hchild : subject ∈ n.children :=
    mem_children.mpr ⟨.node subject, by simp [hfields], by simp [Value.nodes]⟩
  have htype : subject.constructor = .iri ∨ subject.constructor = .anonymousIndividual := by
    simpa [Node.isInstance, Node.hasClass, Schema.annotationSubjectTypes, Schema.iriClass] using hinst
  refine ⟨property, subject, rest', hfields, ?_⟩
  rcases htype with hiri | hanonymous
  · exact .inl ⟨hiri, (h.child hchild).anonymousValues_iri hiri⟩
  · exact .inr ((h.child hchild).anonymousIndividual_node hanonymous)

theorem anonymous?_of_assertion (hc : n.constructor = .annotationAssertion) : n.anonymous? = none := by
  rw [Option.eq_none_iff_forall_ne_some]
  intro a ha
  rw [anonymous?_eq_some.mp ha] at hc
  cases hc

theorem annotationSubject_of_fields (h : n.fields = property :: .node subject :: rest) :
    annotationSubject n = subject := by
  cases n
  rw [fields_mk] at h
  rw [h]
  rfl

theorem subject_mapAnonymous (hn : n.Canonical) (hsubject : n.HasSubject) (hc : n.constructor = .annotationAssertion) :
    ∃ property subject rest, (n.mapAnonymous f).fields = property :: .node subject :: rest ∧
      subject = AnnotationAssertionIndex.transformSubject (Node.mapAnonymous f) (annotationSubject n) ∧
      (subject.constructor = .iri ∧ subject.anonymousValues = [] ∨ ∃ a : AnonymousIndividual, subject = a.node) := by
  obtain ⟨property, subject, rest, hfields, htype⟩ := hsubject hc
  have hkey := annotationSubject_of_fields hfields
  have hcanonical : subject.Canonical := hn.child
    (mem_children.mpr ⟨.node subject, by simp [hfields], by simp⟩)
  refine ⟨(property.map (Node.mapAnonymous f)).rebuild, subject.mapAnonymous f, _,
    by rw [fields_mapAnonymous (anonymous?_of_assertion hc), hfields]; rfl, ?_, ?_⟩
  · rw [hkey, AnnotationAssertionIndex.transformSubject]
    split
    · rename_i hiri
      rcases htype with ⟨-, hnone⟩ | ⟨a, rfl⟩
      · exact mapAnonymous_eq_self hcanonical (by simp [hnone])
      · cases hiri
    · rfl
  · rcases htype with ⟨hiri, hnone⟩ | ⟨a, rfl⟩
    · rw [mapAnonymous_eq_self hcanonical (by simp [hnone])]
      exact .inl ⟨hiri, hnone⟩
    · exact .inr ⟨f a, mapAnonymous_node a⟩

theorem Node.HasSubject.mapAnonymous (hn : n.Canonical) (h : n.HasSubject) : (n.mapAnonymous f).HasSubject := by
  intro hc
  rw [constructor_mapAnonymous] at hc
  obtain ⟨property, subject, rest, hfields, -, htype⟩ := subject_mapAnonymous (f := f) hn h hc
  exact ⟨property, subject, rest, hfields, htype⟩

theorem canonical_annotationSubject (hn : n.Canonical) : (annotationSubject n).Canonical := by
  unfold annotationSubject
  split
  · rename_i subject _
    exact hn.child (mem_children.mpr ⟨.node subject, by simp, by simp⟩)
  · exact hn

end

section

variable {hash : Hash} {view : View}

def Face.assertions (face : Face) : Set Node := {n | n ∈ face.axioms ∧ n.constructor = .annotationAssertion}

theorem mem_assertionsOf {roots : List Node} :
    n ∈ assertionsOf roots ↔ n ∈ roots ∧ n.constructor = .annotationAssertion := by
  simp [assertionsOf]

theorem holds_assertions (hlayers : Offers annotationSubject layers below) (hcanonical : ∀ n, n ∈ own ∨ n ∈ below ∨ n
    ∈ additions → n.Canonical) (hitems : ∀ n, n ∈ items ↔ (n ∈ own ∨ n ∈ below ∨ n ∈ additions) ∧ excluded n = false) :
    Holds Node.bytes Node.bytes annotationSubject
      (build Node.bytes Node.bytes annotationSubject own additions layers excluded) items := by
  have hset : items = {n | (n ∈ own ∨ n ∈ below ∨ n ∈ additions) ∧ excluded n = false} := Set.ext hitems
  rw [hset]
  refine holds_build hlayers (fun a b ha hb => bytes_injOn (hcanonical a ha) (hcanonical b hb)) ?_
  rintro _ _ ⟨a, ha, rfl⟩ ⟨b, hb, rfl⟩
  exact bytes_injOn (canonical_annotationSubject (hcanonical a ha)) (canonical_annotationSubject (hcanonical b hb))

theorem holds_ofFace {face : Face} (h : face.Sound) : Holds Node.bytes Node.bytes annotationSubject
    (AnnotationAssertionIndex.ofFace face).assertions face.assertions := by
  refine holds_assertions offers_nil (fun n hn => ?_) fun n => ?_
  · rcases hn with hn | hn | hn
    · exact h.exposes.axioms.canonical n (mem_assertionsOf.mp hn).1
    · cases hn
    · cases hn
  · simp [Face.assertions, mem_assertionsOf]

theorem holds_layer {patch : Patch} {s : Set Node} (hlayers : Offers annotationSubject layers {n | n ∈ s ∧
    n.constructor = .annotationAssertion}) (hs : ∀ n ∈ s, n.Canonical) (hadditions : ∀ n, n ∈ additions ↔ n ∈
    patch.add ∧ n.constructor = .annotationAssertion) (hvalues : Enumerates values (patch.apply s)) :
    Holds Node.bytes Node.bytes annotationSubject
      (build Node.bytes Node.bytes annotationSubject [] additions layers fun value =>
        decide (value ∈ assertionsOf patch.remove.items))
      {n | n ∈ values ∧ n.constructor = .annotationAssertion} := by
  refine holds_assertions hlayers (fun n hn => ?_) fun n => ?_
  · rcases hn with hn | hn | hn
    · cases hn
    · exact hs n hn.1
    · exact patch.add.canonical n ((hadditions n).mp hn).1
  · have hdisjoint := patch.disjoint n
    simp only [Set.mem_ofPred_eq, hvalues.mem_iff, Patch.apply, not_mem_nil, false_or, hadditions,
      decide_eq_false_iff_not, mem_assertionsOf, CanonicalSet.mem_items]
    tauto

theorem offers_moved_assertions (move : AnonymousIndividual → AnonymousIndividual) (hs : ∀ n ∈ s, n.Canonical ∧
    n.HasSubject ∧ n.constructor = .annotationAssertion) (h : Holds Node.bytes Node.bytes annotationSubject index s) :
    Offers annotationSubject [.moved (Node.mapAnonymous move)
      (AnnotationAssertionIndex.transformSubject (Node.mapAnonymous move))
      (fun subject => decide (subject.constructor ≠ .anonymousIndividual)) index]
      (Set.image (Node.mapAnonymous move) s) := by
  refine h.offers_moved (fun n hn => ?_) (fun n hn => ?_) fun n hn hdirect => ?_
  · obtain ⟨hcanonical, hsubject, hc⟩ := hs n hn
    obtain ⟨property, subject, rest, hfields, rfl, -⟩ := subject_mapAnonymous (f := move) hcanonical hsubject hc
    exact annotationSubject_of_fields hfields
  · unfold AnnotationAssertionIndex.transformSubject
    split
    · rfl
    · rw [constructor_mapAnonymous]
  · obtain ⟨hcanonical, hsubject, hc⟩ := hs n hn
    obtain ⟨property, subject, rest, hfields, htype⟩ := hsubject hc
    rw [annotationSubject_of_fields hfields] at hdirect ⊢
    rcases htype with ⟨hiri, -⟩ | ⟨a, rfl⟩
    · exact if_pos hiri
    · exact absurd rfl (of_decide_eq_true hdirect)

theorem mem_moved_assertions {sources : List View} :
    (n ∈ {x | ∃ member ∈ sources.zipIdx, x ∈ Set.image
      (scopeValue hash ((sources.map (View.face hash)).map Face.sourceScopes) member.2)
      (member.1.face hash).assertions}) ↔
    n ∈ {n | n ∈ (Face.memberLists hash (sources.map (View.face hash)) Face.axioms).flatten ∧
      n.constructor = .annotationAssertion} := by
  simp only [Set.mem_ofPred_eq, mem_memberLists]
  constructor
  · rintro ⟨⟨v, i⟩, hmember, r, ⟨hr, hc⟩, rfl⟩
    have hv := mem_zipIdx_iff_getElem?.mp hmember
    refine ⟨⟨i, v.face hash, by simpa using ⟨v, hv, rfl⟩, r, hr, rfl⟩, ?_⟩
    rwa [scopeValue, constructor_mapAnonymous]
  · rintro ⟨⟨i, source, hi, r, hr, rfl⟩, hc⟩
    obtain ⟨v, hv, rfl⟩ := Option.map_eq_some_iff.mp (getElem?_map .. ▸ hi)
    rw [scopeValue, constructor_mapAnonymous] at hc
    exact ⟨(v, i), mem_zipIdx_iff_getElem?.mpr hv, r, ⟨hr, hc⟩, rfl⟩

theorem holds_annotationIndex (h : view.Layered hash) (typed : view.Typed) :
    Holds Node.bytes Node.bytes annotationSubject (annotationIndex hash view).assertions
      (view.face hash).assertions := by
  induction h with
  | snapshot value => exact holds_ofFace (sound_ofSnapshot value)
  | @overlay base delta layered axioms annotations ih =>
    cases typed with
    | overlay below hroots =>
      have hsound := layered.sound
      refine holds_layer (ih below).offers hsound.exposes.axioms.canonical (fun n => ?_)
        hsound.exposes.axioms.overlayAxioms
      rw [mem_assertionsOf, OntologyDelta.addedRoots, mem_append]
      constructor
      · rintro ⟨hn | hn, hc⟩
        · rw [hroots.annotations n hn] at hc
          cases hc
        · exact ⟨hn, hc⟩
      · exact fun hn => ⟨.inr hn.1, hn.2⟩
  | @composite sources delta layered axioms annotations ih =>
    cases typed with
    | composite sources_typed hroots =>
      have hsound : ∀ face ∈ sources.map (View.face hash), face.Sound := by
        intro face hface
        obtain ⟨v, hv, rfl⟩ := mem_map.mp hface
        exact (layered v hv).sound
      have hassertions : ∀ v ∈ sources, ∀ n ∈ (v.face hash).assertions,
          n.Canonical ∧ n.HasSubject ∧ n.constructor = .annotationAssertion := by
        intro v hv n hn
        have hroot : n ∈ (v.face hash).roots := mem_roots.mpr (.inr (.inl hn.1))
        exact ⟨(layered v hv).sound.canonical n hroot, (layered v hv).forall_roots (fun _ => Constructible.hasSubject)
          (fun _ _ => Node.HasSubject.mapAnonymous) n hroot, hn.2⟩
      rw [annotationIndex, annotationIndexes_eq_map, View.faces_eq_map, View.face_composite]
      generalize hscopes : (sources.map (View.face hash)).map Face.sourceScopes = scopes
      refine holds_layer ?_ (canonical_memberLists hsound fun _ _ hn => mem_roots.mpr (.inr (.inl hn)))
        (fun n => mem_assertionsOf) (exposes_composite hsound delta).axioms
      have hoffers := offers_map sources.zipIdx
        (fun member : View × Nat => IndexLayer.moved (scopeValue hash scopes member.2)
          (AnnotationAssertionIndex.transformSubject (scopeValue hash scopes member.2))
          (fun subject => decide (subject.constructor ≠ .anonymousIndividual)) (annotationIndex hash member.1).assertions)
        (fun member => Set.image (scopeValue hash scopes member.2) (member.1.face hash).assertions)
        fun member hmember => offers_moved_assertions (moveAnonymous hash scopes member.2)
          (hassertions member.1 (fst_mem_of_mem_zipIdx hmember))
          (ih member.1 (fst_mem_of_mem_zipIdx hmember) (sources_typed member.1 (fst_mem_of_mem_zipIdx hmember)))
      subst hscopes
      rw [zipIdx_map, List.map_map]
      refine (congrArg (Offers annotationSubject _) (Set.ext fun n => ?_)).mp hoffers
      exact mem_moved_assertions

/-- The lookups of a layered index are those of a full build. Its nested occurrences are those of a full build
exactly when every annotated root is carried as often as the view enumerates it. -/
theorem annotationIndex_exact_iff (h : view.Layered hash) (typed : view.Typed) (apart : view.MovesApart hash) :
    (annotationIndex hash view).assertions = (AnnotationAssertionIndex.ofFace (view.face hash)).assertions ∧
    ((∀ property, (annotationIndex hash view).nested property =
        (AnnotationAssertionIndex.ofFace (view.face hash)).nested property) ↔
      ∀ n, n.nestedAnnotations ≠ [] → (carriedRoots hash view).count n = (view.face hash).roots.count n) := by
  constructor
  · exact (holds_annotationIndex h typed).ext (holds_ofFace h.sound)
  · exact nested_eq_iff (canonical_carriedRoots h) (nestedValues_perm h apart) (nestedOccurrences_perm _)

end

def annotatedDeclaration : Node :=
  .mk .declaration [.node (.mk .entity [.enum .class, .node (.mk .iri [.text "urn:C"])]),
    .set [.mk .annotationNode [.node (.mk .entity [.enum .annotationProperty, .node (.mk .iri [.text "urn:p"])]),
      .node (.mk .iri [.text "urn:v"]), .set []]]]

theorem constructible_annotatedDeclaration : Constructible annotatedDeclaration :=
  constructible_of_rebuilds (by decide +kernel)

def annotatedClass : Snapshot := { oneClass with axioms := .single _ constructible_annotatedDeclaration }

theorem TypedRoots.ofItems {annotations axioms : CanonicalSet} {extensions : Set Node}
    (hannotations : ∀ n ∈ annotations.items, n.constructor = .annotationNode)
    (haxioms : ∀ n ∈ axioms.items, n.constructor ∈ axiomTypes) (hextensions : extensions = ∅) :
    TypedRoots {n | n ∈ annotations} {n | n ∈ axioms} extensions :=
  ⟨hannotations, haxioms, fun n hn => by rw [hextensions] at hn; cases hn⟩

theorem typed_annotatedClass : (View.snapshot annotatedClass).Typed :=
  .snapshot (.ofItems (by decide +kernel) (by decide +kernel) (by ext n; simp [annotatedClass, oneClass]))

def removeAnnotated : OntologyDelta where
  axioms := ⟨.empty, .single _ constructible_annotatedDeclaration, fun _ hadd => by cases hadd⟩
  annotations := emptyPatch

def removedAnnotated : View :=
  .overlay (.snapshot annotatedClass) (effectiveDelta ((View.snapshot annotatedClass).face sha256) removeAnnotated)

def sharedAnnotated : View :=
  .composite [.snapshot annotatedClass, .snapshot annotatedClass] { axioms := emptyPatch, annotations := emptyPatch }

theorem applyDelta_removedAnnotated :
    applyDelta sha256 defaultLimits (.snapshot annotatedClass) removeAnnotated = .ok removedAnnotated :=
  applyDelta_of_isOk sha256 (by decide +kernel)

/-- The annotation of a removed declaration is still found, and that of a shared one is found twice. -/
theorem nested_removedAnnotated :
    applyDelta sha256 defaultLimits (.snapshot annotatedClass) removeAnnotated = .ok removedAnnotated ∧
    ((annotationIndex sha256 removedAnnotated).nested none).length = 1 ∧
    (AnnotationAssertionIndex.ofFace (removedAnnotated.face sha256)).nested none = [] ∧
    composeViews sha256 defaultLimits [.snapshot annotatedClass, .snapshot annotatedClass]
      { axioms := emptyPatch, annotations := emptyPatch } = .ok sharedAnnotated ∧
    ((annotationIndex sha256 sharedAnnotated).nested none).length = 2 ∧
    ((AnnotationAssertionIndex.ofFace (sharedAnnotated.face sha256)).nested none).length = 1 :=
  ⟨applyDelta_removedAnnotated, by decide +kernel, by decide +kernel, rfl, by decide +kernel, by decide +kernel⟩

/-- The removed declaration is carried and not enumerated. -/
theorem annotationIndex_exact_iff_removedAnnotated :
    removedAnnotated.Layered sha256 ∧ removedAnnotated.Typed ∧ removedAnnotated.MovesApart sha256 ∧
    ¬ ∀ property, (annotationIndex sha256 removedAnnotated).nested property =
      (AnnotationAssertionIndex.ofFace (removedAnnotated.face sha256)).nested property := by
  have hlayered : removedAnnotated.Layered sha256 := (View.Layered.snapshot _).applyDelta applyDelta_removedAnnotated
  have htyped : removedAnnotated.Typed :=
    .overlay typed_annotatedClass (.ofItems (by decide +kernel) (by decide +kernel) rfl)
  have hapart : removedAnnotated.MovesApart sha256 := .overlay (.snapshot _)
  refine ⟨hlayered, htyped, hapart, fun hnested => ?_⟩
  have hcount := (annotationIndex_exact_iff hlayered htyped hapart).2.mp hnested annotatedDeclaration
    (by decide +kernel)
  revert hcount
  decide +kernel

end OwlCore
