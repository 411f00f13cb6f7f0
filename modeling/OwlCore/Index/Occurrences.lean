import OwlCore.Index.Annotations
import OwlCore.Index.Paths

/-!
# Occurrence indexes

`EntityReferenceIndex` and `ExpressionOccurrenceIndex` list where a key occurs in the roots of a
view and differ in their keys only. Over an overlay or a composite they keep the occurrences
below, moved for members, and scan what the delta adds, its ontology annotations also when a
full build leaves annotations out.
-/
namespace OwlCore

open Face KeyedIndex List Node

structure ReferenceOccurrence where
  key : Node
  container : Node
  path : List PathStep
  role : ReferenceRole
  deriving DecidableEq

/-- `_occurrence_key`. -/
def ReferenceOccurrence.order (occurrence : ReferenceOccurrence) : Bytes :=
  occurrence.container.bytes ++ 0 :: pathKey occurrence.path occurrence.role occurrence.key.bytes

/-- `_transform_occurrences`. -/
def ReferenceOccurrence.move (moveKey move : Node → Node) (occurrence : ReferenceOccurrence) : ReferenceOccurrence :=
  ⟨moveKey occurrence.key, move occurrence.container, occurrence.path, occurrence.role⟩

def Node.LeafHere (n : Node) : Prop := n.constructor ∈ [Constructor.entity, .iri] → n.anonymousValues = []

/-- The keys of an occurrence index and how it moves them; a direct key is looked up unchanged. -/
structure OccurrenceKind where
  isKey : Node → Bool
  moveKey : (Node → Node) → Node → Node
  direct : Node → Bool
  isKey_mapAnonymous : ∀ f n, isKey (n.mapAnonymous f) = isKey n
  moveKey_eq : ∀ f n, n.Canonical → n.LeafHere → isKey n = true → moveKey (Node.mapAnonymous f) n = n.mapAnonymous f
  direct_moveKey : ∀ f n, direct (moveKey (Node.mapAnonymous f) n) = direct n
  moveKey_direct : ∀ f n, direct n = true → moveKey (Node.mapAnonymous f) n = n

/-- The keys of `EntityReferenceIndex` and its `_transform_key`. -/
def entityReferences : OccurrenceKind where
  isKey := fun n => decide (n.constructor ∈ [Constructor.entity, .iri, .anonymousIndividual])
  moveKey := fun move n => if n.constructor = .anonymousIndividual then move n else n
  direct := fun n => decide (n.constructor ≠ .anonymousIndividual)
  isKey_mapAnonymous := by simp
  moveKey_eq := by
    intro f n hn hleaf hkey
    split
    · rfl
    · rename_i hc
      have hnone := hleaf (by simpa [hc] using hkey)
      exact (mapAnonymous_eq_self hn (by simp [hnone])).symm
  direct_moveKey := by
    intro f n
    split <;> simp
  moveKey_direct := by
    intro f n hdirect
    exact if_neg (of_decide_eq_true hdirect)

/-- The keys of `ExpressionOccurrenceIndex` and its `_transform_expression`. -/
def expressionOccurrences : OccurrenceKind where
  isKey := fun n => n.isInstance (Schema.classExpressionTypes ++ Schema.dataRangeTypes ++
    [Schema.objectPropertyClass, .ofConstructor .objectInverseOf, Schema.dataPropertyClass])
  moveKey := fun move n => move n
  direct := fun _ => false
  isKey_mapAnonymous := by simp
  moveKey_eq := fun _ _ _ _ _ => rfl
  direct_moveKey := fun _ _ => rfl
  moveKey_direct := fun _ _ h => by cases h

def OntologyDelta.removedRoots (delta : OntologyDelta) : List Node :=
  delta.axioms.remove.items ++ delta.annotations.remove.items

section

variable (hash : Hash) (kind : OccurrenceKind) (includeAnnotations : Bool)

def scan (roots : List Node) : List ReferenceOccurrence :=
  (roots.filter fun root => includeAnnotations || decide (root.constructor ∉ annotationAxiomTypes)).flatMap fun root =>
    ((root.structuralOccurrences includeAnnotations .root).filter fun found => kind.isKey found.1).map fun found =>
      ⟨found.1, root, found.2.1, found.2.2⟩

def fullRoots (face : Face) : List Node :=
  (if includeAnnotations then face.annotations else []) ++ face.axioms ++ face.extensions

def fullOccurrenceIndex (face : Face) : KeyedIndex Node ReferenceOccurrence :=
  build ReferenceOccurrence.order Node.bytes ReferenceOccurrence.key (scan kind includeAnnotations (fullRoots includeAnnotations face))
    [] [] fun _ => false

def layeredOccurrenceIndex (layers : List (IndexLayer Node ReferenceOccurrence)) (delta : OntologyDelta) :
    KeyedIndex Node ReferenceOccurrence :=
  build ReferenceOccurrence.order Node.bytes ReferenceOccurrence.key [] (scan kind includeAnnotations delta.addedRoots) layers
    fun occurrence => decide (occurrence.container ∈ delta.removedRoots)

def movedOccurrences (move : Node → Node) (source : KeyedIndex Node ReferenceOccurrence) : IndexLayer Node ReferenceOccurrence :=
  .moved (.move (kind.moveKey move) move) (kind.moveKey move) kind.direct source

mutual

/-- `_build` of both indexes. -/
def occurrenceIndex : View → KeyedIndex Node ReferenceOccurrence
  | .snapshot value => fullOccurrenceIndex kind includeAnnotations (.ofSnapshot hash value)
  | .overlay base delta => layeredOccurrenceIndex kind includeAnnotations [.ofIndex (occurrenceIndex base)] delta
  | .composite sources delta => layeredOccurrenceIndex kind includeAnnotations
      ((occurrenceIndexes sources).zipIdx.map fun source =>
        movedOccurrences kind (scopeValue hash ((View.faces hash sources).map Face.sourceScopes) source.2) source.1) delta

def occurrenceIndexes : List View → List (KeyedIndex Node ReferenceOccurrence)
  | [] => []
  | view :: rest => occurrenceIndex view :: occurrenceIndexes rest

end

mutual

/-- The ontology annotations that deltas of the stack added and that no delta above them removes. -/
def addedAnnotations : View → List Node
  | .snapshot _ => []
  | .overlay base delta => delta.annotations.add.items ++ (addedAnnotations base).filter fun root =>
      decide (root ∉ delta.annotations.remove.items)
  | .composite sources delta => delta.annotations.add.items ++
      (movedRoots hash (View.faces hash sources) (addedAnnotationsAll sources)).filter fun root =>
        decide (root ∉ delta.annotations.remove.items)

def addedAnnotationsAll : List View → List (List Node)
  | [] => []
  | view :: rest => addedAnnotations view :: addedAnnotationsAll rest

end

/-- Moving the roots of a member into a composite reorders no set in them, and no collection has `2 ^ 32` members. -/
inductive View.KeepsPaths : View → Prop where
  | snapshot {value : Snapshot} (narrow : ∀ n ∈ (Face.ofSnapshot hash value).roots, n.Narrow) :
      KeepsPaths (.snapshot value)
  | overlay {base : View} {delta : OntologyDelta} (below : KeepsPaths base)
      (narrow : ∀ n ∈ delta.addedRoots, n.Narrow) : KeepsPaths (.overlay base delta)
  | composite {sources : List View} {delta : OntologyDelta} (members : ∀ v ∈ sources, KeepsPaths v)
      (kept : ∀ (i : Nat) (v : View), sources[i]? = some v → ∀ n ∈ (v.face hash).roots,
        n.KeepsOrder (moveAnonymous hash ((sources.map (View.face hash)).map Face.sourceScopes) i))
      (narrow : ∀ n ∈ delta.addedRoots, n.Narrow) : KeepsPaths (.composite sources delta)

end

section

variable {kind : OccurrenceKind} {includeAnnotations : Bool} {o : ReferenceOccurrence}

structure ReferenceOccurrence.Occurs (kind : OccurrenceKind) (includeAnnotations : Bool) (o : ReferenceOccurrence) : Prop where
  scanned : includeAnnotations = true ∨ o.container.constructor ∉ annotationAxiomTypes
  found : (o.key, o.path, o.role) ∈ o.container.structuralOccurrences includeAnnotations .root
  isKey : kind.isKey o.key = true

def occurrencesIn (kind : OccurrenceKind) (includeAnnotations : Bool) (roots : Set Node) : Set ReferenceOccurrence :=
  {o | o.container ∈ roots ∧ o.Occurs kind includeAnnotations}

theorem mem_scan {roots : List Node} :
    o ∈ scan kind includeAnnotations roots ↔ o ∈ occurrencesIn kind includeAnnotations {n | n ∈ roots} := by
  simp only [scan, mem_flatMap, mem_filter, mem_map, Bool.or_eq_true, decide_eq_true_eq]
  constructor
  · rintro ⟨root, ⟨hroot, hscanned⟩, ⟨key, path, role⟩, ⟨hfound, hkey⟩, rfl⟩
    exact ⟨hroot, hscanned, hfound, hkey⟩
  · rintro ⟨hroot, hoccurs⟩
    exact ⟨o.container, ⟨hroot, hoccurs.scanned⟩, (o.key, o.path, o.role), ⟨hoccurs.found, hoccurs.isKey⟩, rfl⟩

theorem ReferenceOccurrence.Occurs.follow (h : o.Occurs kind includeAnnotations) : Node.follow o.path o.container = some o.key :=
  follow_of_mem h.found

theorem keyInjOn_order (h : ∀ o, s o → o.Occurs kind includeAnnotations ∧ o.container.Canonical ∧ o.container.Narrow) :
    KeyedSet.KeyInjOn ReferenceOccurrence.order s := by
  rintro ⟨key, container, path, role⟩ ⟨key', container', path', role'⟩ ho ho' heq
  obtain ⟨hoccurs, hcanonical, hnarrow⟩ := h _ ho
  obtain ⟨hoccurs', hcanonical', hnarrow'⟩ := h _ ho'
  obtain ⟨rfl, hrest⟩ := Node.bytes_append_inj hcanonical hcanonical' heq
  obtain ⟨rfl, rfl, hkey⟩ := pathKey_inj (small_of_mem hnarrow hoccurs.found) (small_of_mem hnarrow' hoccurs'.found)
    (List.cons.inj hrest).2
  obtain rfl : key = key' := bytes_injOn (everywhere_of_mem hcanonical hoccurs.found)
    (everywhere_of_mem hcanonical' hoccurs'.found) hkey
  rfl

theorem holds_occurrences (own additions : List Node) (excluded : Node → Bool) (hlayers : Offers
    ReferenceOccurrence.key layers (occurrencesIn kind includeAnnotations below)) (hgood : ∀ n, n ∈ own ∨ n ∈ below ∨
    n ∈ additions → n.Canonical ∧ n.Narrow) (hitems : ∀ n, n ∈ items ↔ (n ∈ own ∨ n ∈ below ∨ n ∈ additions) ∧
    excluded n = false) :
    Holds ReferenceOccurrence.order Node.bytes ReferenceOccurrence.key
      (build ReferenceOccurrence.order Node.bytes ReferenceOccurrence.key (scan kind includeAnnotations own)
        (scan kind includeAnnotations additions) layers fun o => excluded o.container)
      (occurrencesIn kind includeAnnotations items) := by
  have hmem : ∀ o, o ∈ scan kind includeAnnotations own ∨ o ∈ occurrencesIn kind includeAnnotations below ∨
      o ∈ scan kind includeAnnotations additions ↔
      (o.container ∈ own ∨ o.container ∈ below ∨ o.container ∈ additions) ∧ o.Occurs kind includeAnnotations := by
    intro o
    simp only [mem_scan, occurrencesIn, Set.mem_ofPred_eq]
    tauto
  have hset : occurrencesIn kind includeAnnotations items = {o | (o ∈ scan kind includeAnnotations own ∨
      o ∈ occurrencesIn kind includeAnnotations below ∨ o ∈ scan kind includeAnnotations additions) ∧
      excluded o.container = false} := by
    ext o
    rw [Set.mem_ofPred_eq, hmem]
    simp only [occurrencesIn, Set.mem_ofPred_eq, hitems]
    tauto
  have hocc : ∀ o, o ∈ scan kind includeAnnotations own ∨ o ∈ occurrencesIn kind includeAnnotations below ∨
      o ∈ scan kind includeAnnotations additions →
      o.Occurs kind includeAnnotations ∧ o.container.Canonical ∧ o.container.Narrow := by
    intro o ho
    obtain ⟨hcontainer, hoccurs⟩ := (hmem o).mp ho
    exact ⟨hoccurs, hgood _ hcontainer⟩
  rw [hset]
  refine holds_build hlayers (keyInjOn_order hocc) ?_
  rintro _ _ ⟨a, ha, rfl⟩ ⟨b, hb, rfl⟩
  obtain ⟨hoccurs, hcanonical, -⟩ := hocc a ha
  obtain ⟨hoccurs', hcanonical', -⟩ := hocc b hb
  exact bytes_injOn (everywhere_of_mem hcanonical hoccurs.found) (everywhere_of_mem hcanonical' hoccurs'.found)

end

section

variable {kind : OccurrenceKind} {includeAnnotations : Bool} {n : Node} {f : AnonymousIndividual → AnonymousIndividual}

theorem Constructible.leaves (h : Constructible n) : n.Everywhere Node.LeafHere := by
  induction n using Node.induct with
  | step n ih =>
    refine .intro (fun hc => ?_) fun m hm => ih m hm (h.child hm)
    simp only [mem_cons, not_mem_nil, or_false] at hc
    rcases hc with hc | hc
    · exact h.anonymousValues_entity hc
    · exact h.anonymousValues_iri hc

theorem leaves_mapAnonymous (hn : n.Canonical) (h : n.Everywhere Node.LeafHere) :
    (n.mapAnonymous f).Everywhere Node.LeafHere := by
  induction n using Node.induct with
  | step n ih =>
    have hhere : (n.mapAnonymous f).LeafHere := by
      intro hc
      rw [constructor_mapAnonymous] at hc
      have hnone := h.here hc
      rw [mapAnonymous_eq_self hn (by simp [hnone]), hnone]
    cases hnone : n.anonymous? with
    | some a =>
      obtain rfl := anonymous?_eq_some.mp hnone
      refine .intro hhere fun m hm => ?_
      rw [mapAnonymous_node, children_node] at hm
      cases hm
    | none =>
      refine .intro hhere fun m hm => ?_
      obtain ⟨k, hk, rfl⟩ := (mem_children_mapAnonymous hn hnone).mp hm
      exact ih k hk (hn.child hk) (h.child hk)

theorem View.Layered.leaves {hash : Hash} {view : View} (h : view.Layered hash) :
    ∀ n ∈ (view.face hash).roots, n.Everywhere Node.LeafHere :=
  h.forall_roots (fun _ => Constructible.leaves) fun _ _ => leaves_mapAnonymous

theorem Node.KeepsOrder.narrow (hn : n.Canonical) (h : n.KeepsOrder f) (hnarrow : n.Narrow) :
    (n.mapAnonymous f).Narrow := by
  induction n using Node.induct with
  | step n ih =>
    cases hnone : n.anonymous? with
    | some a =>
      obtain rfl := anonymous?_eq_some.mp hnone
      rw [mapAnonymous_node]
      refine .intro (fun v hv => ?_) fun m hm => ?_
      · simp only [AnonymousIndividual.node, fields_mk, mem_cons, not_mem_nil, or_false] at hv
        rcases hv with rfl | rfl <;> simp [Value.nodes]
      · rw [children_node] at hm
        cases hm
    | none =>
      refine .intro (fun v hv => ?_) fun m hm => ?_
      · rw [h.fields_mapAnonymous hnone] at hv
        obtain ⟨w, hw, rfl⟩ := mem_map.mp hv
        rw [Value.nodes_map, length_map]
        exact hnarrow.here w hw
      · obtain ⟨k, hk, rfl⟩ := (mem_children_mapAnonymous hn hnone).mp hm
        exact ih k hk (hn.child hk) (h.child hk) (hnarrow.child hk)

/-- Moving the occurrences of roots that keep their order gives the occurrences of the moved roots. -/
theorem image_occurrencesIn {roots : Set Node}
    (h : ∀ n ∈ roots, n.Canonical ∧ n.Everywhere Node.LeafHere ∧ n.KeepsOrder f) :
    Set.image (ReferenceOccurrence.move (kind.moveKey (Node.mapAnonymous f)) (Node.mapAnonymous f))
      (occurrencesIn kind includeAnnotations roots) =
      occurrencesIn kind includeAnnotations (Set.image (Node.mapAnonymous f) roots) := by
  ext o
  constructor
  · rintro ⟨o, ⟨hroot, hoccurs⟩, rfl⟩
    obtain ⟨hcanonical, hleaves, hkept⟩ := h _ hroot
    have hkey := kind.moveKey_eq f o.key (everywhere_of_mem hcanonical hoccurs.found)
      (everywhere_of_mem hleaves hoccurs.found).here hoccurs.isKey
    refine ⟨⟨_, hroot, rfl⟩, ?_, ?_, ?_⟩
    · simpa [ReferenceOccurrence.move] using hoccurs.scanned
    · simp only [ReferenceOccurrence.move, hkey, hkept.structuralOccurrences_mapAnonymous]
      exact mem_map.mpr ⟨_, hoccurs.found, rfl⟩
    · rw [ReferenceOccurrence.move, hkey, kind.isKey_mapAnonymous]
      exact hoccurs.isKey
  · rintro ⟨⟨root, hroot, hmoved⟩, hscanned, hfound, hisKey⟩
    obtain ⟨key, container, path, role⟩ := o
    obtain rfl : root.mapAnonymous f = container := hmoved
    obtain ⟨hcanonical, hleaves, hkept⟩ := h _ hroot
    simp only [hkept.structuralOccurrences_mapAnonymous] at hfound
    obtain ⟨⟨k, path', role'⟩, hk, heq⟩ := mem_map.mp hfound
    simp only [Prod.mk.injEq] at heq
    obtain ⟨rfl, rfl, rfl⟩ := heq
    rw [kind.isKey_mapAnonymous] at hisKey
    have hkey := kind.moveKey_eq f k (everywhere_of_mem hcanonical hk) (everywhere_of_mem hleaves hk).here hisKey
    refine ⟨⟨k, root, path', role'⟩, ⟨hroot, ?_, hk, hisKey⟩, ?_⟩
    · simpa using hscanned
    · simp [ReferenceOccurrence.move, hkey]

theorem offers_movedOccurrences {roots : Set Node} (h : ∀ n ∈ roots, n.Canonical ∧ n.Everywhere Node.LeafHere ∧
    n.KeepsOrder f) (hindex : Holds ReferenceOccurrence.order Node.bytes ReferenceOccurrence.key index (occurrencesIn
    kind includeAnnotations roots)) :
    Offers ReferenceOccurrence.key [movedOccurrences kind (Node.mapAnonymous f) index]
      (occurrencesIn kind includeAnnotations (Set.image (Node.mapAnonymous f) roots)) := by
  rw [← image_occurrencesIn h]
  exact hindex.offers_moved (fun _ _ => rfl) (fun o _ => kind.direct_moveKey f o.key)
    fun o _ => kind.moveKey_direct f o.key

end

section

variable {hash : Hash} {kind : OccurrenceKind} {includeAnnotations : Bool} {view : View}

@[simp] theorem occurrenceIndexes_eq_map (views : List View) :
    occurrenceIndexes hash kind includeAnnotations views = views.map (occurrenceIndex hash kind includeAnnotations) := by
  induction views with
  | nil => rfl
  | cons view rest ih => rw [occurrenceIndexes, ih, map_cons]

@[simp] theorem addedAnnotationsAll_eq_map (views : List View) :
    addedAnnotationsAll hash views = views.map (addedAnnotations hash) := by
  induction views with
  | nil => rfl
  | cons view rest ih => rw [addedAnnotationsAll, ih, map_cons]

theorem mem_fullRoots : n ∈ fullRoots includeAnnotations face ↔
    (includeAnnotations = true ∧ n ∈ face.annotations) ∨ n ∈ face.axioms ∨ n ∈ face.extensions := by
  cases includeAnnotations <;> simp [fullRoots]

variable {sources : List View}

theorem mem_movedRoots :
    n ∈ movedRoots hash (sources.map (View.face hash)) (sources.map values) ↔
      ∃ (i : Nat) (v : View), sources[i]? = some v ∧ ∃ r ∈ values v,
        scopeValue hash ((sources.map (View.face hash)).map Face.sourceScopes) i r = n := by
  simp only [movedRoots, zipIdx_map, flatMap_map, mem_flatMap, mem_map, Prod.exists, Prod.map_apply,
    id_eq, mem_zipIdx_iff_getElem?]
  constructor
  · rintro ⟨v, i, hv, hn⟩
    exact ⟨i, v, hv, hn⟩
  · rintro ⟨i, v, hv, hn⟩
    exact ⟨v, i, hv, hn⟩

theorem exists_view_iff {P : Nat → Face → Prop} :
    (∃ (i : Nat) (source : Face), (sources.map (View.face hash))[i]? = some source ∧ P i source) ↔
      ∃ (i : Nat) (v : View), sources[i]? = some v ∧ P i (v.face hash) := by
  simp only [getElem?_map, Option.map_eq_some_iff]
  constructor
  · rintro ⟨i, _, ⟨v, hv, rfl⟩, h⟩
    exact ⟨i, v, hv, h⟩
  · rintro ⟨i, v, hv, h⟩
    exact ⟨i, _, ⟨v, hv, rfl⟩, h⟩

theorem typedRoots_members (h : ∀ v ∈ sources,
      TypedRoots {n | n ∈ (v.face hash).annotations} {n | n ∈ (v.face hash).axioms} {n | n ∈ (v.face hash).extensions}) :
    TypedRoots {n | n ∈ Face.memberAnnotations hash (sources.map (View.face hash))}
      {n | n ∈ (Face.memberLists hash (sources.map (View.face hash)) Face.axioms).flatten}
      {n | n ∈ (Face.memberLists hash (sources.map (View.face hash)) Face.extensions).flatten} := by
  constructor
  · intro n hn
    obtain ⟨i, v, hv, r, hr, rfl⟩ := exists_view_iff.mp (mem_memberAnnotations.mp hn)
    rw [scopeValue, constructor_mapAnonymous]
    exact (h v (mem_of_getElem? hv)).annotations r hr
  · intro n hn
    obtain ⟨i, v, hv, r, hr, rfl⟩ := exists_view_iff.mp (mem_memberLists.mp hn)
    rw [scopeValue, constructor_mapAnonymous]
    exact (h v (mem_of_getElem? hv)).axioms r hr
  · intro n hn
    obtain ⟨i, v, hv, r, hr, rfl⟩ := exists_view_iff.mp (mem_memberLists.mp hn)
    rw [scopeValue, constructor_mapAnonymous]
    exact (h v (mem_of_getElem? hv)).extensions r hr

variable {delta : OntologyDelta} {A X E : Set Node}

theorem TypedRoots.apply (h : TypedRoots A X E)
    (hdelta : TypedRoots {n | n ∈ delta.annotations.add} {n | n ∈ delta.axioms.add} ∅) :
    TypedRoots (delta.annotations.apply A) (delta.axioms.apply X) E where
  annotations := fun n hn => hn.elim (hdelta.annotations n) fun hn => h.annotations n hn.1
  axioms := fun n hn => hn.elim (hdelta.axioms n) fun hn => h.axioms n hn.1
  extensions := h.extensions

theorem TypedRoots.congr (h : TypedRoots A X E) (hA : ∀ n, n ∈ A' ↔ n ∈ A) (hX : ∀ n, n ∈ X' ↔ n ∈ X) (hE : ∀ n, n ∈
    E' ↔ n ∈ E) : TypedRoots A' X' E' :=
  ⟨fun n hn => h.annotations n ((hA n).mp hn), fun n hn => h.axioms n ((hX n).mp hn),
    fun n hn => h.extensions n ((hE n).mp hn)⟩

theorem View.Layered.typedRoots (h : view.Layered hash) (typed : view.Typed) :
    TypedRoots {n | n ∈ (view.face hash).annotations} {n | n ∈ (view.face hash).axioms}
      {n | n ∈ (view.face hash).extensions} := by
  induction h with
  | snapshot value =>
    cases typed with
    | snapshot roots => exact roots
  | @overlay base delta layered axioms annotations ih =>
    cases typed with
    | overlay below roots =>
      have hexposes : ((View.overlay base delta).face hash).Exposes _ _ := layered.sound.exposes.overlay hash axioms
      exact ((ih below).apply roots).congr hexposes.annotations.mem_iff hexposes.axioms.mem_iff fun _ => Iff.rfl
  | @composite sources delta layered axioms annotations ih =>
    cases typed with
    | composite sources_typed roots =>
      have hsound := sound_faces layered
      have hexposes : (Face.composite hash (sources.map (View.face hash)) delta).Exposes _ _ :=
        exposes_composite hsound delta
      rw [View.face_composite]
      exact ((typedRoots_members fun v hv => ih v hv (sources_typed v hv)).apply roots).congr
        hexposes.annotations.mem_iff hexposes.axioms.mem_iff (enumerates_compositeExtensions hsound).mem_iff

theorem annotationNode_notMem_axiomTypes : Constructor.annotationNode ∉ axiomTypes := by decide

/-- What a delta makes of typed roots, with or without the annotations among them. -/
theorem mem_layer_iff (includeAnnotations : Bool) {D : Set Node} (typed : TypedRoots A X E)
    (hdelta : TypedRoots {n | n ∈ delta.annotations.add} {n | n ∈ delta.axioms.add} ∅)
    (haxioms : delta.axioms.Fits X) (hannotations : delta.annotations.Fits A) (hD : ∀ n ∈ D, n ∈ A) (n : Node) :
    (((includeAnnotations = true ∧ n ∈ delta.annotations.apply A) ∨ n ∈ delta.axioms.apply X ∨ n ∈ E) ∨
      n ∈ delta.annotations.add ∨ n ∈ D ∧ n ∉ delta.annotations.remove) ↔
    ((((includeAnnotations = true ∧ n ∈ A) ∨ n ∈ X ∨ n ∈ E) ∨ n ∈ D) ∨ n ∈ delta.addedRoots) ∧
      n ∉ delta.removedRoots := by
  have hapart : n ∈ A → n ∉ X := fun ha hx =>
    annotationNode_notMem_axiomTypes (typed.annotations n ha ▸ typed.axioms n hx)
  have hextension : n ∈ E → n ∉ A ∧ n ∉ X := by
    intro he
    have hc := typed.extensions n he
    rw [mem_cons, not_or] at hc
    exact ⟨fun ha => hc.1 (typed.annotations n ha), fun hx => hc.2 (typed.axioms n hx)⟩
  have hadd : n ∈ delta.annotations.add → n ∉ X := fun ha hx =>
    annotationNode_notMem_axiomTypes (hdelta.annotations n ha ▸ typed.axioms n hx)
  have hadd' : n ∈ delta.axioms.add → n ∉ A := fun hx ha =>
    annotationNode_notMem_axiomTypes (typed.annotations n ha ▸ hdelta.axioms n hx)
  have hremove := haxioms.remove n
  have hremove' := hannotations.remove n
  have hdisjoint := delta.axioms.disjoint n
  have hdisjoint' := delta.annotations.disjoint n
  have hDA := hD n
  simp only [Patch.apply, Set.mem_ofPred_eq, OntologyDelta.addedRoots, OntologyDelta.removedRoots, mem_append,
    CanonicalSet.mem_items]
  clear typed hdelta haxioms hannotations hD
  grind

/-- The ontology annotations that deltas added are among those the view enumerates. -/
theorem mem_annotations_of_mem_addedAnnotations (h : view.Layered hash) :
    ∀ n ∈ addedAnnotations hash view, n ∈ (view.face hash).annotations := by
  induction h with
  | snapshot value => exact fun n hn => absurd hn not_mem_nil
  | @overlay base delta layered axioms annotations ih =>
    have hexposes : ((View.overlay base delta).face hash).Exposes _ _ := layered.sound.exposes.overlay hash axioms
    intro n hn
    simp only [addedAnnotations, mem_append, mem_filter, decide_eq_true_eq] at hn
    exact (hexposes.annotations.mem_iff n).mpr (hn.imp id fun hn => ⟨ih n hn.1, hn.2⟩)
  | @composite sources delta layered axioms annotations ih =>
    have hexposes : (Face.composite hash (sources.map (View.face hash)) delta).Exposes _ _ :=
      exposes_composite (sound_faces layered) delta
    intro n hn
    simp only [addedAnnotations, mem_append, mem_filter, decide_eq_true_eq, addedAnnotationsAll_eq_map,
      View.faces_eq_map, mem_movedRoots] at hn
    rw [View.face_composite, hexposes.annotations.mem_iff]
    refine hn.imp id fun hn => ⟨?_, hn.2⟩
    obtain ⟨⟨i, v, hv, r, hr, hmoved⟩, -⟩ := hn
    exact mem_memberAnnotations.mpr (exists_view_iff.mpr ⟨i, v, hv, r, ih v (mem_of_getElem? hv) r hr, hmoved⟩)

def indexedRoots (hash : Hash) (includeAnnotations : Bool) (view : View) : Set Node :=
  {n | n ∈ fullRoots includeAnnotations (view.face hash) ∨ n ∈ addedAnnotations hash view}

theorem mem_roots_of_mem_indexedRoots (h : view.Layered hash) (hn : n ∈ indexedRoots hash includeAnnotations view) :
    n ∈ (view.face hash).roots := by
  rw [mem_roots]
  rcases hn with hn | hn
  · exact (mem_fullRoots.mp hn).imp And.right id
  · exact .inl (mem_annotations_of_mem_addedAnnotations h n hn)

theorem View.Layered.narrow (h : view.Layered hash) (kept : view.KeepsPaths hash) :
    ∀ n ∈ (view.face hash).roots, n.Narrow := by
  induction h with
  | snapshot value =>
    cases kept with
    | snapshot narrow => exact narrow
  | @overlay base delta layered axioms annotations ih =>
    cases kept with
    | overlay below narrow =>
      have hexposes : ((View.overlay base delta).face hash).Exposes _ _ := layered.sound.exposes.overlay hash axioms
      intro n hn
      rcases mem_roots.mp hn with hn | hn | hn
      · rcases (hexposes.annotations.mem_iff n).mp hn with hadd | ⟨hn, -⟩
        · exact narrow n (mem_append_left _ hadd)
        · exact ih below n (mem_roots.mpr (.inl hn))
      · rcases (hexposes.axioms.mem_iff n).mp hn with hadd | ⟨hn, -⟩
        · exact narrow n (mem_append_right _ hadd)
        · exact ih below n (mem_roots.mpr (.inr (.inl hn)))
      · exact ih below n (mem_roots.mpr (.inr (.inr hn)))
  | @composite sources delta layered axioms annotations ih =>
    cases kept with
    | composite members kept narrow =>
      intro n hn
      rw [View.face_composite] at hn
      rcases exists_source_root (sound_faces layered) hn with (hadd | hadd) | hmember
      · exact narrow n (mem_append_right _ hadd)
      · exact narrow n (mem_append_left _ hadd)
      · obtain ⟨i, v, hv, r, hr, rfl⟩ := exists_view_iff.mp hmember
        have hmem := mem_of_getElem? hv
        exact (kept i v hv r hr).narrow ((layered v hmem).sound.canonical r hr) (ih v hmem (members v hmem) r hr)

theorem holds_layeredOccurrenceIndex (hlayers : Offers ReferenceOccurrence.key layers (occurrencesIn kind
    includeAnnotations below)) (hgood : ∀ n, n ∈ below ∨ n ∈ delta.addedRoots → n.Canonical ∧ n.Narrow) (hitems : ∀ n,
    n ∈ items ↔ (n ∈ below ∨ n ∈ delta.addedRoots) ∧ n ∉ delta.removedRoots) :
    Holds ReferenceOccurrence.order Node.bytes ReferenceOccurrence.key (layeredOccurrenceIndex kind includeAnnotations layers delta)
      (occurrencesIn kind includeAnnotations items) := by
  refine holds_occurrences [] delta.addedRoots (fun root => decide (root ∈ delta.removedRoots)) hlayers
    (fun n hn => hgood n (by simpa using hn)) fun n => ?_
  simp [hitems]

theorem holds_fullOccurrenceIndex (hgood : ∀ n ∈ face.roots, n.Canonical ∧ n.Narrow) :
    Holds ReferenceOccurrence.order Node.bytes ReferenceOccurrence.key (fullOccurrenceIndex kind includeAnnotations face)
      (occurrencesIn kind includeAnnotations {n | n ∈ fullRoots includeAnnotations face}) := by
  have hnil : Offers ReferenceOccurrence.key [] (occurrencesIn kind includeAnnotations ∅) := by
    have hempty : occurrencesIn kind includeAnnotations ∅ = ∅ := by
      ext o
      simp [occurrencesIn]
    rw [hempty]
    exact offers_nil
  refine holds_occurrences (fullRoots includeAnnotations face) [] (fun _ => false) hnil (fun n hn => ?_) fun n => ?_
  · rcases hn with hn | hn | hn
    · exact hgood n (mem_roots.mpr ((mem_fullRoots.mp hn).imp And.right id))
    · cases hn
    · cases hn
  · simp

def movedIndexedRoots (hash : Hash) (includeAnnotations : Bool) (sources : List View) : Set Node :=
  {n | ∃ (i : Nat) (v : View), sources[i]? = some v ∧ ∃ r ∈ indexedRoots hash includeAnnotations v,
    scopeValue hash ((sources.map (View.face hash)).map Face.sourceScopes) i r = n}

theorem mem_movedIndexedRoots :
    n ∈ movedIndexedRoots hash includeAnnotations sources ↔
      ((includeAnnotations = true ∧ n ∈ Face.memberAnnotations hash (sources.map (View.face hash))) ∨
        n ∈ (Face.memberLists hash (sources.map (View.face hash)) Face.axioms).flatten ∨
        n ∈ (Face.memberLists hash (sources.map (View.face hash)) Face.extensions).flatten) ∨
      n ∈ movedRoots hash (sources.map (View.face hash)) (sources.map (addedAnnotations hash)) := by
  rw [mem_memberAnnotations, mem_memberLists, mem_memberLists, mem_movedRoots, exists_view_iff,
    exists_view_iff, exists_view_iff]
  simp only [movedIndexedRoots, indexedRoots, Set.mem_ofPred_eq, mem_fullRoots]
  constructor
  · rintro ⟨i, v, hv, r, ((⟨hinclude, hr⟩ | hr | hr) | hr), hmoved⟩
    · exact .inl (.inl ⟨hinclude, i, v, hv, r, hr, hmoved⟩)
    · exact .inl (.inr (.inl ⟨i, v, hv, r, hr, hmoved⟩))
    · exact .inl (.inr (.inr ⟨i, v, hv, r, hr, hmoved⟩))
    · exact .inr ⟨i, v, hv, r, hr, hmoved⟩
  · rintro ((⟨hinclude, i, v, hv, r, hr, hmoved⟩ | ⟨i, v, hv, r, hr, hmoved⟩ | ⟨i, v, hv, r, hr, hmoved⟩) |
      ⟨i, v, hv, r, hr, hmoved⟩)
    · exact ⟨i, v, hv, r, .inl (.inl ⟨hinclude, hr⟩), hmoved⟩
    · exact ⟨i, v, hv, r, .inl (.inr (.inl hr)), hmoved⟩
    · exact ⟨i, v, hv, r, .inl (.inr (.inr hr)), hmoved⟩
    · exact ⟨i, v, hv, r, .inr hr, hmoved⟩

theorem offers_members (layered : ∀ v ∈ sources, v.Layered hash)
    (kept : ∀ (i : Nat) (v : View), sources[i]? = some v → ∀ n ∈ (v.face hash).roots,
      n.KeepsOrder (moveAnonymous hash ((sources.map (View.face hash)).map Face.sourceScopes) i))
    (hindex : ∀ v ∈ sources, Holds ReferenceOccurrence.order Node.bytes ReferenceOccurrence.key
      (occurrenceIndex hash kind includeAnnotations v)
      (occurrencesIn kind includeAnnotations (indexedRoots hash includeAnnotations v))) :
    Offers ReferenceOccurrence.key ((sources.map (occurrenceIndex hash kind includeAnnotations)).zipIdx.map fun source =>
        movedOccurrences kind (scopeValue hash ((sources.map (View.face hash)).map Face.sourceScopes) source.2) source.1)
      (occurrencesIn kind includeAnnotations (movedIndexedRoots hash includeAnnotations sources)) := by
  have hoffers := offers_map sources.zipIdx
    (fun member => movedOccurrences kind
      (scopeValue hash ((sources.map (View.face hash)).map Face.sourceScopes) member.2)
      (occurrenceIndex hash kind includeAnnotations member.1))
    (fun member => occurrencesIn kind includeAnnotations
      (Set.image (scopeValue hash ((sources.map (View.face hash)).map Face.sourceScopes) member.2)
        (indexedRoots hash includeAnnotations member.1)))
    fun member hmember => by
      have hget : sources[member.2]? = some member.1 := mem_zipIdx_iff_getElem?.mp hmember
      have hv := mem_of_getElem? hget
      refine offers_movedOccurrences (fun n hn => ?_) (hindex member.1 hv)
      have hroot := mem_roots_of_mem_indexedRoots (layered member.1 hv) hn
      exact ⟨(layered member.1 hv).sound.canonical n hroot, (layered member.1 hv).leaves n hroot,
        kept member.2 member.1 hget n hroot⟩
  rw [zipIdx_map, List.map_map]
  refine (congrArg (Offers ReferenceOccurrence.key _) (Set.ext fun o => ?_)).mp hoffers
  simp only [occurrencesIn, movedIndexedRoots, Set.mem_ofPred_eq, Set.mem_image, Prod.exists, mem_zipIdx_iff_getElem?]
  constructor
  · rintro ⟨v, i, hv, hroot, hoccurs⟩
    exact ⟨⟨i, v, hv, hroot⟩, hoccurs⟩
  · rintro ⟨⟨i, v, hv, hroot⟩, hoccurs⟩
    exact ⟨v, i, hv, hroot, hoccurs⟩

theorem holds_occurrenceIndex (kind : OccurrenceKind) (includeAnnotations : Bool) (h : view.Layered hash) (typed : view.Typed) (kept : view.KeepsPaths hash) :
    Holds ReferenceOccurrence.order Node.bytes ReferenceOccurrence.key (occurrenceIndex hash kind includeAnnotations view)
      (occurrencesIn kind includeAnnotations (indexedRoots hash includeAnnotations view)) := by
  have hadded : ∀ (delta : OntologyDelta), (∀ n ∈ delta.addedRoots, n.Narrow) →
      ∀ n ∈ delta.addedRoots, n.Canonical ∧ n.Narrow := by
    intro delta narrow n hn
    refine ⟨?_, narrow n hn⟩
    exact (mem_append.mp hn).elim (delta.annotations.add.canonical n) (delta.axioms.add.canonical n)
  have hroots : ∀ {v : View}, v.Layered hash → v.KeepsPaths hash → ∀ n ∈ indexedRoots hash includeAnnotations v,
      n.Canonical ∧ n.Narrow := by
    intro v hv hkept n hn
    have hroot := mem_roots_of_mem_indexedRoots hv hn
    exact ⟨hv.sound.canonical n hroot, hv.narrow hkept n hroot⟩
  induction h with
  | snapshot value =>
    have hset : indexedRoots hash includeAnnotations (.snapshot value) =
        {n | n ∈ fullRoots includeAnnotations (Face.ofSnapshot hash value)} := by
      ext n
      simp [indexedRoots, addedAnnotations]
    rw [hset]
    cases kept with
    | snapshot narrow =>
      exact holds_fullOccurrenceIndex fun n hn => ⟨(sound_ofSnapshot value).canonical n hn, narrow n hn⟩
  | @overlay base delta layered axioms annotations ih =>
    cases typed with
    | overlay below htyped =>
      cases kept with
      | overlay keptBelow narrow =>
        have hexposes : ((View.overlay base delta).face hash).Exposes _ _ := layered.sound.exposes.overlay hash axioms
        refine holds_layeredOccurrenceIndex (ih below keptBelow).offers (fun n hn => ?_) fun n => ?_
        · exact hn.elim (hroots layered keptBelow n) (hadded delta narrow n)
        · have hlayer := mem_layer_iff includeAnnotations (layered.typedRoots below) htyped axioms annotations
            (mem_annotations_of_mem_addedAnnotations layered) n
          simp only [indexedRoots, Set.mem_ofPred_eq, mem_fullRoots, hexposes.annotations.mem_iff,
            hexposes.axioms.mem_iff, addedAnnotations, mem_append, mem_filter, decide_eq_true_eq,
            CanonicalSet.mem_items]
          exact hlayer
  | @composite sources delta layered axioms annotations ih =>
    cases typed with
    | composite sources_typed htyped =>
      cases kept with
      | composite members kept narrow =>
        have hexposes : (Face.composite hash (sources.map (View.face hash)) delta).Exposes _ _ :=
          exposes_composite (sound_faces layered) delta
        have hextensions : ∀ n, n ∈ (Face.composite hash (sources.map (View.face hash)) delta).extensions ↔
            n ∈ (Face.memberLists hash (sources.map (View.face hash)) Face.extensions).flatten :=
          (enumerates_compositeExtensions (sound_faces layered)).mem_iff
        rw [occurrenceIndex, occurrenceIndexes_eq_map, View.faces_eq_map]
        refine holds_layeredOccurrenceIndex
          (offers_members layered kept fun v hv => ih v hv (sources_typed v hv) (members v hv)) (fun n hn => ?_) fun n => ?_
        · rcases hn with ⟨i, v, hv, r, hr, rfl⟩ | hn
          · have hmem := mem_of_getElem? hv
            obtain ⟨hcanonical, hnarrow⟩ := hroots (layered v hmem) (members v hmem) r hr
            exact ⟨canonical_scopeValue hcanonical,
              (kept i v hv r (mem_roots_of_mem_indexedRoots (layered v hmem) hr)).narrow hcanonical hnarrow⟩
          · exact hadded delta narrow n hn
        · have hmoved : ∀ n ∈ movedRoots hash (sources.map (View.face hash)) (sources.map (addedAnnotations hash)),
              n ∈ Face.memberAnnotations hash (sources.map (View.face hash)) := by
            intro n hn
            obtain ⟨i, v, hv, r, hr, hmoved⟩ := mem_movedRoots.mp hn
            exact mem_memberAnnotations.mpr (exists_view_iff.mpr ⟨i, v, hv, r,
              mem_annotations_of_mem_addedAnnotations (layered v (mem_of_getElem? hv)) r hr, hmoved⟩)
          have hlayer := mem_layer_iff includeAnnotations
            (typedRoots_members fun v hv => (layered v hv).typedRoots (sources_typed v hv)) htyped axioms annotations
            hmoved n
          rw [mem_movedIndexedRoots]
          simp only [indexedRoots, Set.mem_ofPred_eq, mem_fullRoots, View.face_composite, hexposes.annotations.mem_iff,
            hexposes.axioms.mem_iff, hextensions, addedAnnotations, addedAnnotationsAll_eq_map, View.faces_eq_map,
            mem_append, mem_filter, decide_eq_true_eq, CanonicalSet.mem_items]
          exact hlayer

theorem occurrencesIn_indexedRoots_iff (h : view.Layered hash) (typed : view.Typed) :
    occurrencesIn kind includeAnnotations (indexedRoots hash includeAnnotations view) =
        occurrencesIn kind includeAnnotations {n | n ∈ fullRoots includeAnnotations (view.face hash)} ↔
      includeAnnotations = true ∨ ∀ n ∈ addedAnnotations hash view, scan kind includeAnnotations [n] = [] := by
  have hlisted := mem_annotations_of_mem_addedAnnotations h
  constructor
  · intro heq
    cases hinclude : includeAnnotations with
    | true => exact .inl rfl
    | false =>
      refine .inr fun n hn => ?_
      rw [eq_nil_iff_forall_not_mem]
      intro o ho
      obtain ⟨hcontainer, hoccurs⟩ := mem_scan.mp ho
      obtain rfl : o.container = n := mem_singleton.mp hcontainer
      have hfull : o ∈ occurrencesIn kind false {n | n ∈ fullRoots false (view.face hash)} := by
        rw [← hinclude, ← heq, hinclude]
        exact ⟨.inr hn, hoccurs⟩
      -- a full build without annotations meets no annotation
      have hc := (h.typedRoots typed).annotations _ (hlisted _ hn)
      rcases mem_fullRoots.mp hfull.1 with ⟨hfalse, -⟩ | haxiom | hextension
      · cases hfalse
      · exact annotationNode_notMem_axiomTypes (hc ▸ (h.typedRoots typed).axioms _ haxiom)
      · exact (h.typedRoots typed).extensions _ hextension (by rw [hc]; simp)
  · intro hcondition
    ext o
    simp only [occurrencesIn, indexedRoots, Set.mem_ofPred_eq]
    refine and_congr_left fun hoccurs => or_iff_left_of_imp fun hadded => ?_
    rcases hcondition with hinclude | hnone
    · exact mem_fullRoots.mpr (.inl ⟨hinclude, hlisted _ hadded⟩)
    · have hmem : o ∈ scan kind includeAnnotations [o.container] := mem_scan.mpr ⟨mem_singleton_self _, hoccurs⟩
      rw [hnone _ hadded] at hmem
      cases hmem

end

def ontologyAnnotation : Node :=
  .mk .annotationNode [.node (.mk .entity [.enum .annotationProperty, .node (.mk .iri [.text "urn:p"])]),
    .node (.mk .iri [.text "urn:v"]), .set []]

def annotateOntology : OntologyDelta where
  axioms := emptyPatch
  annotations := ⟨.single ontologyAnnotation (constructible_of_rebuilds (by decide +kernel)), .empty, by simp⟩

/-- `oneClass` with an ontology annotation added. -/
def annotatedOntology : View :=
  .overlay (.snapshot oneClass) (effectiveDelta ((View.snapshot oneClass).face sha256) annotateOntology)

theorem applyDelta_annotatedOntology :
    applyDelta sha256 defaultLimits (.snapshot oneClass) annotateOntology = .ok annotatedOntology :=
  applyDelta_of_isOk sha256 (by decide +kernel)

def lowScope (last : UInt8) : Scope := ⟨List.replicate 31 0 ++ [last], by simp⟩

def lowIndividual (last key : UInt8) : AnonymousIndividual := ⟨lowScope last, [key], by simp⟩

/-- A snapshot whose axiom mentions individuals of two scopes. -/
def twoScopes : Snapshot :=
  { oneClass with
    axioms := .single (.mk .sameIndividual [.set [(lowIndividual 0 1).node, (lowIndividual 1 1).node], .set []])
      (constructible_of_rebuilds (by decide +kernel)) }

def oneScope : Snapshot :=
  { oneClass with
    axioms := .single (.mk .differentIndividuals [.set [(lowIndividual 0 1).node, (lowIndividual 0 2).node], .set []])
      (constructible_of_rebuilds (by decide +kernel))
    structural := ⟨2, List.replicate 32 1⟩ }

def reorderedScopes : View :=
  .composite [.snapshot twoScopes, .snapshot oneScope] { axioms := emptyPatch, annotations := emptyPatch }

end OwlCore
