import OwlCore.Index.Signature
import OwlCore.View.Enumeration

/-!
# Encoded structural views

`produce_encoded_structural_view_v2` publishes the roots of a view: a direct view in its own
columns, an overlay or composite by reference to the views below, without the removed roots,
with moved scopes and with the additions as local roots. Columns are modelled by the rows of
their roots. Over the closure a view denotes what its owner enumerates; for other scopes a
composite is encoded although it enumerates nothing.
-/
namespace OwlCore

open CanonicalSet Face Fallible List

/-- `_ROOT_ONTOLOGY_ANNOTATION`, `_ROOT_AXIOM` and `_ROOT_EXTENSION`. -/
inductive RootKind where
  | annotations
  | axioms
  | extensions
  deriving DecidableEq

def RootKind.code : RootKind → Nat
  | .annotations => 1
  | .axioms => 2
  | .extensions => 3

abbrev Root := RootKind × Node

def rootRows (collections : RootKind → List Node) : List Root :=
  [RootKind.annotations, .axioms, .extensions].flatMap fun kind => (collections kind).map fun n => (kind, n)

inductive SegmentRole where
  | direct
  | overlayBase
  | overlayDelta
  | compositeMember
  | compositeBridge
  deriving DecidableEq

/-- `EncodedStructuralSegmentV2`; a segment without a source stands for the local roots, and the
postings exclude rows of the source. -/
structure Segment (View : Type) where
  role : SegmentRole
  source : Option View
  excluded : List Nat
  scopeMap : Scope → Option Scope
  memberToken : Option Bytes

/-- `EncodedStructuralViewV2`. -/
inductive EncodedView where
  | mk (roots : List Root) (segments : List (Segment EncodedView))

def localSegment (role : SegmentRole) : Segment EncodedView := ⟨role, none, [], fun _ => none, none⟩

namespace EncodedView

def roots : EncodedView → List Root
  | .mk roots _ => roots

def segments : EncodedView → List (Segment EncodedView)
  | .mk _ segments => segments

/-- `_is_direct_encoded_view`. -/
def isDirect (view : EncodedView) : Bool := decide (view.segments.map Segment.role = [.direct])

end EncodedView

/-- The rows whose identifiers, counted from one, are not excluded. -/
def keptRows (excluded : List Nat) (rows : List Root) : List Root :=
  (rows.zipIdx.filter fun row => row.2 + 1 ∉ excluded).map Prod.fst

/-- A root with its anonymous scopes replaced by the map of a segment. -/
def mapScopes (scopeMap : Scope → Option Scope) (root : Root) : Root :=
  (root.1, root.2.mapAnonymous fun a => { a with documentScope := (scopeMap a.documentScope).getD a.documentScope })

mutual

/-- The roots that a view denotes when some of its local rows are excluded. -/
def EncodedView.denoted (excluded : List Nat) : EncodedView → List Root
  | .mk roots segments => keptRows excluded roots ++ denotedSegments segments

def denotedSegments : List (Segment EncodedView) → List Root
  | [] => []
  | segment :: rest => denotedSegment segment ++ denotedSegments rest

def denotedSegment : Segment EncodedView → List Root
  | ⟨_, source, excluded, scopeMap, _⟩ => (denotedSource excluded source).map (mapScopes scopeMap)

def denotedSource (excluded : List Nat) : Option EncodedView → List Root
  | none => []
  | some view => view.denoted excluded

end

structure DocumentCollections where
  annotations : CanonicalSet
  axioms : CanonicalSet
  extensions : CanonicalSet

def DocumentCollections.collection (document : DocumentCollections) : RootKind → List Node
  | .annotations => document.annotations.items
  | .axioms => document.axioms.items
  | .extensions => document.extensions.items

/-- The closure, or the root or a document scope: what each snapshot has for it, or its error. -/
inductive Selection where
  | closure
  | selected (pick : Snapshot → Except Error DocumentCollections)

def Selection.isClosure : Selection → Bool
  | .closure => true
  | .selected _ => false

def Face.collection (face : Face) : RootKind → List Node
  | .annotations => face.annotations
  | .axioms => face.axioms
  | .extensions => face.extensions

section

variable (hash : Hash) (selection : Selection)

def enumeratedCollections : View → Except Error (RootKind → List Node)
  | .snapshot value => match selection with
    | .closure => .ok ((View.snapshot value).face hash).collection
    | .selected pick => do
      let document ← pick value
      .ok document.collection
  | .overlay base delta => match selection with
    | .closure => .ok ((View.overlay base delta).face hash).collection
    | .selected _ => enumeratedCollections base
  | .composite sources delta => match selection with
    | .closure => .ok ((View.composite sources delta).face hash).collection
    | .selected _ => .error closureOnly

/-- `roots.sort(key=lambda row: (row[0], row[2]))`. -/
def sortRows (rows : List Root) : List Root :=
  rows.insertionSort fun a b => a.1.code < b.1.code ∨ a.1.code = b.1.code ∧ a.2.bytes ≤ b.2.bytes

/-- `_produce_local_encoded_structural_view_v2` without segments. -/
def produceLocal (view : View) : Except Error EncodedView := do
  let collections ← enumeratedCollections hash selection view
  .ok (.mk (sortRows (rootRows collections)) [localSegment .direct])

def OntologyDelta.patch (delta : OntologyDelta) : RootKind → Patch
  | .annotations => delta.annotations
  | .axioms => delta.axioms
  | .extensions => emptyPatch

def deltaAdditionRoots (delta : OntologyDelta) : List Root :=
  delta.annotations.add.items.map (fun n => (.annotations, n)) ++ delta.axioms.add.items.map fun n => (.axioms, n)

def deltaRemovalKeys (delta : OntologyDelta) : List (RootKind × Bytes) :=
  delta.annotations.remove.items.map (fun n => (.annotations, n.bytes)) ++
    delta.axioms.remove.items.map fun n => (.axioms, n.bytes)

/-- `_matching_local_root_ids`: the identifiers of the matching rows and the keys found. -/
def matchingLocalRootIds (source : EncodedView) (targets : List (RootKind × Bytes)) (transform : Node → Node) :
    List Nat × List (RootKind × Bytes) :=
  let matched := source.roots.zipIdx.filter fun row => (row.1.1, (transform row.1.2).bytes) ∈ targets
  (matched.map fun row => row.2 + 1, matched.map fun row => (row.1.1, (transform row.1.2).bytes))

def sameKeys (found targets : List (RootKind × Bytes)) : Bool :=
  found.all (· ∈ targets) && targets.all (· ∈ found)

/-- A segmented view: the local roots have a segment when there are any. -/
def segmentedView (segments : List (Segment EncodedView)) (role : SegmentRole) (additions : List Root) :
    EncodedView :=
  .mk (sortRows additions) (segments ++ if additions = [] then [] else [localSegment role])

/-- `_produce_overlay_view_v2` over the view of the anchor. -/
def overlayView (source : EncodedView) (delta : OntologyDelta) : Option EncodedView :=
  let removalKeys := deltaRemovalKeys delta
  if removalKeys ≠ [] ∧ source.isDirect = false then none
  else
    let matched := matchingLocalRootIds source removalKeys id
    if sameKeys matched.2 removalKeys = false then none
    else some (segmentedView [⟨.overlayBase, some source, matched.1, fun _ => none, none⟩] .overlayDelta
      (deltaAdditionRoots delta))

/-- A member of a composite with its token, its view, the excluded rows, its scope map and the keys found. -/
structure MemberRow where
  token : Bytes
  source : EncodedView
  excluded : List Nat
  scopeMap : Scope → Option Scope
  found : List (RootKind × Bytes)

def MemberRow.segment (row : MemberRow) : Segment EncodedView :=
  ⟨.compositeMember, some row.source, row.excluded, row.scopeMap, some row.token⟩

def memberRows (faces : List Face) (lineages : List (List ScopeLineage)) (removalKeys : List (RootKind × Bytes))
    (sources : List EncodedView) : List MemberRow :=
  sources.zipIdx.map fun member =>
    let matched := matchingLocalRootIds member.1 removalKeys
      (scopeValue hash (faces.map Face.sourceScopes) member.2)
    ⟨sourceToken hash (faces.map fun face => face.fingerprints.structural) member.2, member.1, matched.1,
      scopeReplacement (scopeAssignments hash lineages) member.2, matched.2⟩

/-- `_validate_segment_family` of composite segments: at least two members with ascending tokens. -/
def validateSegmentFamily (rows : List MemberRow) : Except Error Unit :=
  if rows.length < 2 then .error (.backendProtocol "composite segment family is invalid")
  else if (rows.map MemberRow.token).Nodup then .ok ()
  else .error (.backendProtocol "composite member tokens collide or are unordered")

/-- `_produce_composite_view_v2` over the views of the members, with known lineages. -/
def compositeView (faces : List Face) (lineages : List (List ScopeLineage)) (sources : List EncodedView)
    (delta : OntologyDelta) : Except Error (Option EncodedView) := do
  let removalKeys := deltaRemovalKeys delta
  if removalKeys ≠ [] ∧ sources.any (fun source => !source.isDirect) = true then .ok none
  else
    let rows := memberRows hash faces lineages removalKeys sources
    if sameKeys (rows.flatMap MemberRow.found) removalKeys = false then .ok none
    else do
      validateSegmentFamily rows
      let sorted := rows.insertionSort fun a b => a.token ≤ b.token
      .ok (some (segmentedView (sorted.map MemberRow.segment) .compositeBridge (deltaAdditionRoots delta)))

/-- A composite; without known lineages, or without a segmented form, its enumeration is encoded. -/
def produceComposite (sources : List View) (delta : OntologyDelta) (encoded : Except Error (List EncodedView)) :
    Except Error EncodedView :=
  let faces := sources.map (View.face hash)
  match knownLineages (faces.map Face.sourceScopes) with
  | none => produceLocal hash selection (.composite sources delta)
  | some lineages => do
    let encoded ← encoded
    match ← compositeView hash faces lineages encoded delta with
    | some view => .ok view
    | none => produceLocal hash selection (.composite sources delta)

/-- The delta that an overlay encodes: the cumulative one for the closure. -/
def encodedDelta (base : View) (delta : OntologyDelta) : OntologyDelta :=
  if selection.isClosure then (((View.overlay base delta).face hash).cumulative).getD delta
  else .ofPatches emptyPatch emptyPatch

mutual

def encodeAnchor : View → Except Error EncodedView
  | .snapshot value => produceLocal hash selection (.snapshot value)
  | .overlay base _ => encodeAnchor base
  | .composite sources delta => produceComposite hash selection sources delta (encodeViews sources)

/-- The encoded view, segmented where the owner allows it. -/
def encodeView : View → Except Error EncodedView
  | .snapshot value => produceLocal hash selection (.snapshot value)
  | .overlay base delta => do
    let source ← encodeAnchor base
    match overlayView source (encodedDelta hash selection base delta) with
    | some view => .ok view
    | none => produceLocal hash selection (.overlay base delta)
  | .composite sources delta => produceComposite hash selection sources delta (encodeViews sources)

def encodeViews : List View → Except Error (List EncodedView)
  | [] => .ok []
  | view :: rest => do
    let first ← encodeView view
    let others ← encodeViews rest
    .ok (first :: others)

end

/-- `produce_encoded_structural_view_v2`. -/
def produceEncodedStructuralView (materializeSegments : Bool) (view : View) : Except Error EncodedView :=
  if materializeSegments then produceLocal hash selection view else encodeView hash selection view

end

section

variable {kind : RootKind} {n : Node}

theorem mem_rootRows :
    (kind, n) ∈ rootRows collections ↔ n ∈ collections kind := by
  cases kind <;> simp [rootRows]

variable {root : Root}

@[simp] theorem mem_sortRows : root ∈ sortRows rows ↔ root ∈ rows :=
  (perm_insertionSort _ _).mem_iff

theorem mem_keptRows :
    root ∈ keptRows excluded rows ↔ ∃ i, rows[i]? = some root ∧ i + 1 ∉ excluded := by
  simp [keptRows, mem_zipIdx_iff_getElem?]

theorem mem_keptRows_nil : root ∈ keptRows [] rows ↔ root ∈ rows := by
  rw [mem_keptRows, mem_iff_getElem?]
  simp

theorem mem_keptRows_matching : root ∈ keptRows (matchingLocalRootIds source targets transform).1 source.roots ↔
      root ∈ source.roots ∧ (root.1, (transform root.2).bytes) ∉ targets := by
  have hexcluded : ∀ i, source.roots[i]? = some root → (i + 1 ∈ (matchingLocalRootIds source targets transform).1 ↔
      (root.1, (transform root.2).bytes) ∈ targets) := by
    intro i hi
    simp only [matchingLocalRootIds, mem_map, mem_filter, decide_eq_true_eq, Prod.exists,
      mem_zipIdx_iff_getElem?, Nat.add_right_cancel_iff]
    constructor
    · rintro ⟨kind, value, j, ⟨hj, hkey⟩, rfl⟩
      obtain rfl := Option.some.inj (hi.symm.trans hj)
      exact hkey
    · exact fun hkey => ⟨root.1, root.2, i, ⟨hi, hkey⟩, rfl⟩
  rw [mem_keptRows, mem_iff_getElem?]
  constructor
  · rintro ⟨i, hi, hkept⟩
    exact ⟨⟨i, hi⟩, fun hkey => hkept ((hexcluded i hi).mpr hkey)⟩
  · rintro ⟨⟨i, hi⟩, hkey⟩
    exact ⟨i, hi, fun hkept => hkey ((hexcluded i hi).mp hkept)⟩

theorem mem_deltaAdditionRoots :
    (kind, n) ∈ deltaAdditionRoots delta ↔ n ∈ (delta.patch kind).add := by
  cases kind <;> simp [deltaAdditionRoots, OntologyDelta.patch, emptyPatch, mem_items]

theorem mem_deltaRemovalKeys (hn : n.Canonical) :
    (kind, n.bytes) ∈ deltaRemovalKeys delta ↔ n ∈ (delta.patch kind).remove := by
  have hkeys : ∀ s : CanonicalSet, (∃ m ∈ s, m.bytes = n.bytes) ↔ n ∈ s := fun s =>
    ⟨fun ⟨m, hm, heq⟩ => Node.bytes_injOn (s.canonical m hm) hn heq ▸ hm, fun hm => ⟨n, hm, rfl⟩⟩
  cases kind
  · simpa [deltaRemovalKeys, OntologyDelta.patch, mem_items] using hkeys delta.annotations.remove
  · simpa [deltaRemovalKeys, OntologyDelta.patch, mem_items] using hkeys delta.axioms.remove
  · simp [deltaRemovalKeys, OntologyDelta.patch, emptyPatch]

end

section

/-- A view denotes the given values of each kind; a direct view has local roots only. -/
structure EncodedView.Denotes (view : EncodedView) (values : RootKind → Set Node) : Prop where
  mem_iff : ∀ kind n, (kind, n) ∈ view.denoted [] ↔ n ∈ values kind
  direct : view.isDirect = true → view.segments = [localSegment .direct]

variable {view source : EncodedView} {values : RootKind → Set Node} {targets : List (RootKind × Bytes)}
  {transform : Node → Node} {kind : RootKind} {n : Node}

theorem mem_denoted : root ∈ view.denoted excluded ↔
    root ∈ keptRows excluded view.roots ∨ ∃ segment ∈ view.segments, root ∈ denotedSegment segment := by
  obtain ⟨roots, segments⟩ := view
  have hsegments : ∀ segments, root ∈ denotedSegments segments ↔ ∃ segment ∈ segments, root ∈ denotedSegment segment := by
    intro segments
    induction segments with
    | nil => simp [denotedSegments]
    | cons segment rest ih => simp [denotedSegments, ih]
  rw [EncodedView.denoted, mem_append, hsegments]
  rfl

@[simp] theorem denotedSegment_local (role : SegmentRole) : denotedSegment (localSegment role) = [] := rfl

/-- The rows that are left of a view when the matching ones are excluded; only a direct view is matched. -/
theorem EncodedView.Denotes.mem_excluding (h : view.Denotes values) (hdirect : targets ≠ [] → view.isDirect = true) :
    (kind, n) ∈ view.denoted (matchingLocalRootIds view targets transform).1 ↔
      n ∈ values kind ∧ (kind, (transform n).bytes) ∉ targets := by
  by_cases htargets : targets = []
  · have hnone : (matchingLocalRootIds view targets transform).1 = [] := by simp [matchingLocalRootIds, htargets]
    rw [hnone, h.mem_iff, htargets]
    simp
  · have hsegments := h.direct (hdirect htargets)
    have hlocal := h.mem_iff kind n
    rw [mem_denoted, hsegments] at hlocal ⊢
    simp only [mem_singleton, exists_eq_left, denotedSegment_local, not_mem_nil, or_false, mem_keptRows_nil] at hlocal ⊢
    rw [mem_keptRows_matching, hlocal]

theorem mem_denoted_segmentedView : root ∈ (segmentedView segments role additions).denoted [] ↔
      root ∈ additions ∨ ∃ segment ∈ segments, root ∈ denotedSegment segment := by
  rw [mem_denoted, segmentedView, EncodedView.roots, mem_keptRows_nil, mem_sortRows, EncodedView.segments]
  by_cases hnone : additions = []
  · simp [hnone]
  · simp [hnone, or_and_right, exists_or]

theorem isDirect_segmentedView (h : ∃ segment ∈ segments, segment.role ≠ .direct) :
    (segmentedView segments role additions).isDirect = false := by
  obtain ⟨segment, hsegment, hrole⟩ := h
  rw [EncodedView.isDirect, decide_eq_false_iff_not, segmentedView, EncodedView.segments, map_append]
  intro heq
  have hmem : segment.role ∈ [SegmentRole.direct] := by
    rw [← heq]
    exact mem_append_left _ (mem_map_of_mem hsegment)
  exact hrole (mem_singleton.mp hmem)

theorem produceLocal_ok {hash : Hash} (h : produceLocal hash selection owner = .ok view) :
    ∃ collections, enumeratedCollections hash selection owner = .ok collections ∧
      view.Denotes fun kind => {n | n ∈ collections kind} := by
  obtain ⟨collections, hcollections, h⟩ := bind_eq_ok.mp h
  obtain rfl := Except.ok.inj h
  refine ⟨collections, hcollections, fun kind n => ?_, fun _ => rfl⟩
  rw [mem_denoted, EncodedView.roots, mem_keptRows_nil, mem_sortRows, mem_rootRows]
  simp [EncodedView.segments]

/-- An overlay of the view of its anchor denotes what the delta makes of the values of the anchor. -/
theorem overlayView_denotes (hsource : source.Denotes values) (hcanonical : ∀ kind, ∀ n ∈ values kind, n.Canonical) (h
    : overlayView source delta = some view) :
    view.Denotes fun kind => (delta.patch kind).apply (values kind) := by
  unfold overlayView at h
  simp only [Option.ite_none_left_eq_some] at h
  obtain ⟨hdirect, -, h⟩ := h
  obtain rfl := Option.some.inj h
  refine ⟨fun kind n => ?_, fun hfalse => ?_⟩
  · have hself : ∀ root : Root, root.2.Canonical → mapScopes (fun _ => none) root = root := fun root hroot =>
      Prod.ext rfl (Node.mapAnonymous_eq_self hroot fun a _ => rfl)
    have hbase : (kind, n) ∈ denotedSegment ⟨.overlayBase, some source,
        (matchingLocalRootIds source (deltaRemovalKeys delta) id).1, fun _ => none, none⟩ ↔
        n ∈ values kind ∧ n ∉ (delta.patch kind).remove := by
      have hleft : ∀ k m, (k, m) ∈ source.denoted (matchingLocalRootIds source (deltaRemovalKeys delta) id).1 ↔
          m ∈ values k ∧ (k, m.bytes) ∉ deltaRemovalKeys delta := fun k m =>
        hsource.mem_excluding fun hsome => by simpa [hsome] using hdirect
      rw [denotedSegment, denotedSource, mem_map]
      constructor
      · rintro ⟨⟨k, m⟩, hm, heq⟩
        obtain ⟨hvalue, hkey⟩ := (hleft k m).mp hm
        have hm' := hcanonical k m hvalue
        rw [hself _ hm'] at heq
        obtain ⟨rfl, rfl⟩ := Prod.mk.inj heq
        exact ⟨hvalue, fun hremove => hkey ((mem_deltaRemovalKeys hm').mpr hremove)⟩
      · rintro ⟨hvalue, hkept⟩
        have hn := hcanonical kind n hvalue
        exact ⟨(kind, n), (hleft kind n).mpr ⟨hvalue, fun hkey => hkept ((mem_deltaRemovalKeys hn).mp hkey)⟩,
          hself _ hn⟩
    rw [mem_denoted_segmentedView, mem_deltaAdditionRoots]
    simp only [mem_singleton, exists_eq_left, hbase]
    rfl
  · rw [isDirect_segmentedView ⟨_, mem_singleton_self _, by simp⟩] at hfalse
    cases hfalse

end

section

variable {hash : Hash} {faces : List Face} {lineages : List (List ScopeLineage)} {sources : List EncodedView}
  {removalKeys : List (RootKind × Bytes)}

/-- With known lineages the map of a member moves its values as the composite does. -/
theorem mapScopes_scopeReplacement (hlineages : knownLineages (faces.map Face.sourceScopes) = some lineages)
    (index : Nat) (root : Root) : mapScopes (scopeReplacement (scopeAssignments hash lineages) index) root =
      (root.1, scopeValue hash (faces.map Face.sourceScopes) index root.2) := by
  have hmove : moveAnonymous hash (faces.map Face.sourceScopes) index = fun a => { a with
      documentScope := (scopeReplacement (scopeAssignments hash lineages) index a.documentScope).getD
        a.documentScope } := by
    funext a
    simp only [moveAnonymous, newScope, hlineages]
  rw [mapScopes, scopeValue, hmove]

theorem mem_memberRows : row ∈ memberRows hash faces lineages removalKeys sources ↔
    ∃ i source, sources[i]? = some source ∧ row = ⟨sourceToken hash (faces.map fun face => face.fingerprints.structural) i,
      source, (matchingLocalRootIds source removalKeys (scopeValue hash (faces.map Face.sourceScopes) i)).1,
      scopeReplacement (scopeAssignments hash lineages) i,
      (matchingLocalRootIds source removalKeys (scopeValue hash (faces.map Face.sourceScopes) i)).2⟩ := by
  simp only [memberRows, mem_map, Prod.exists, mem_zipIdx_iff_getElem?]
  constructor
  · rintro ⟨source, i, hsource, rfl⟩
    exact ⟨i, source, hsource, rfl⟩
  · rintro ⟨i, source, hsource, rfl⟩
    exact ⟨source, i, hsource, rfl⟩

variable {delta : OntologyDelta} {kind : RootKind} {n : Node}
  (hlineages : knownLineages (faces.map Face.sourceScopes) = some lineages)
  (hsources : Forall₂ (fun face source => source.Denotes fun kind => {n | n ∈ face.collection kind}) faces sources)
  (hcanonical : ∀ face ∈ faces, ∀ kind, ∀ n ∈ face.collection kind, n.Canonical)

include hlineages hsources hcanonical

/-- The member segments denote the moved values that the bridge does not remove. -/
theorem mem_denotedSegment_memberRows
    (hdirect : deltaRemovalKeys delta ≠ [] → ∀ source ∈ sources, source.isDirect = true) :
    (∃ row ∈ memberRows hash faces lineages (deltaRemovalKeys delta) sources, (kind, n) ∈ denotedSegment row.segment) ↔
      n ∈ rescopedValues hash faces (fun face => face.collection kind) ∧ n ∉ (delta.patch kind).remove := by
  have hleft : ∀ i face source, faces[i]? = some face → sources[i]? = some source → ∀ k m,
      (k, m) ∈ source.denoted (matchingLocalRootIds source (deltaRemovalKeys delta)
        (scopeValue hash (faces.map Face.sourceScopes) i)).1 ↔ m ∈ face.collection k ∧
          scopeValue hash (faces.map Face.sourceScopes) i m ∉ (delta.patch k).remove := by
    intro i face source hface hsource k m
    obtain ⟨source', hsource', hdenotes⟩ := getElem?_of_forall₂ hsources hface
    obtain rfl := Option.some.inj (hsource.symm.trans hsource')
    rw [hdenotes.mem_excluding fun hsome => hdirect hsome source (mem_of_getElem? hsource)]
    refine and_congr_right fun hm => not_congr ?_
    exact mem_deltaRemovalKeys (canonical_scopeValue (hcanonical face (mem_of_getElem? hface) k m hm))
  constructor
  · rintro ⟨row, hrow, hmem⟩
    obtain ⟨i, source, hsource, rfl⟩ := mem_memberRows.mp hrow
    obtain ⟨face, hface, -⟩ := getElem?_of_forall₂ hsources.flip hsource
    rw [MemberRow.segment, denotedSegment, denotedSource, mem_map] at hmem
    obtain ⟨⟨k, m⟩, hm, heq⟩ := hmem
    rw [mapScopes_scopeReplacement hlineages] at heq
    obtain ⟨rfl, rfl⟩ := Prod.mk.inj heq
    obtain ⟨hvalue, hkept⟩ := (hleft i face source hface hsource k m).mp hm
    exact ⟨⟨i, face, hface, m, hvalue, rfl⟩, hkept⟩
  · rintro ⟨⟨i, face, hface, m, hm, rfl⟩, hkept⟩
    obtain ⟨source, hsource, -⟩ := getElem?_of_forall₂ hsources hface
    refine ⟨_, mem_memberRows.mpr ⟨i, source, hsource, rfl⟩, ?_⟩
    rw [MemberRow.segment, denotedSegment, denotedSource, mem_map]
    exact ⟨(kind, m), (hleft i face source hface hsource kind m).mpr ⟨hm, hkept⟩, mapScopes_scopeReplacement hlineages i _⟩

/-- A composite of the views of its members denotes what the bridge makes of their moved values. -/
theorem compositeView_denotes (h : compositeView hash faces lineages sources delta = .ok (some view)) :
    view.Denotes fun kind => (delta.patch kind).apply (rescopedValues hash faces fun face => face.collection kind) := by
  unfold compositeView at h
  simp only at h
  split at h
  · cases Except.ok.inj h
  · rename_i hdirect
    split at h
    · cases Except.ok.inj h
    · obtain ⟨_, hfamily, h⟩ := bind_eq_ok.mp h
      obtain rfl := Option.some.inj (Except.ok.inj h)
      have hdirect' : deltaRemovalKeys delta ≠ [] → ∀ source ∈ sources, source.isDirect = true := by
        intro hsome source hsource
        by_contra hnot
        exact hdirect ⟨hsome, any_eq_true.mpr ⟨source, hsource, by simpa using hnot⟩⟩
      have hperm := perm_insertionSort (fun a b : MemberRow => a.token ≤ b.token)
        (memberRows hash faces lineages (deltaRemovalKeys delta) sources)
      refine ⟨fun kind n => ?_, fun hfalse => ?_⟩
      · rw [mem_denoted_segmentedView, mem_deltaAdditionRoots]
        simp only [mem_map, exists_exists_and_eq_and, hperm.mem_iff]
        rw [mem_denotedSegment_memberRows hlineages hsources hcanonical hdirect']
        rfl
      · unfold validateSegmentFamily at hfamily
        split at hfamily
        · cases hfamily
        · rename_i hlength
          obtain ⟨row, hrow⟩ := exists_mem_of_length_pos (l := memberRows hash faces lineages
            (deltaRemovalKeys delta) sources) (by omega)
          rw [isDirect_segmentedView ⟨row.segment, mem_map_of_mem (hperm.mem_iff.mpr hrow),
            by simp [MemberRow.segment]⟩] at hfalse
          cases hfalse

end

section

variable {hash : Hash} {selection : Selection} {view : View} {encoded : EncodedView}

theorem emptyPatch_apply (s : Set Node) : emptyPatch.apply s = s := by
  ext n
  simp [Patch.apply, emptyPatch]

theorem Face.mem_roots_of_collection {face : Face} (hn : n ∈ face.collection kind) :
    n ∈ face.roots := by
  cases kind
  · exact mem_roots.mpr (.inl hn)
  · exact mem_roots.mpr (.inr (.inl hn))
  · exact mem_roots.mpr (.inr (.inr hn))

theorem View.Layered.canonical_collection (h : view.Layered hash) :
    ∀ kind, ∀ n ∈ (view.face hash).collection kind, n.Canonical :=
  fun _ n hn => h.sound.canonical n (mem_roots_of_collection hn)

theorem View.Layered.extensions_anchor (h : view.Layered hash) :
    (view.face hash).extensions = (view.anchor.face hash).extensions := by
  induction h with
  | snapshot value => rfl
  | overlay layered axioms annotations ih => exact ih
  | composite layered axioms annotations ih => rfl

/-- The cumulative delta of an overlay leads from the collections of the anchor to its own. -/
theorem View.Layered.collection_overlay (h : (View.overlay base delta).Layered hash) (hc : ((View.overlay base
    delta).face hash).cumulative = some c) (kind : RootKind) :
    {n | n ∈ ((View.overlay base delta).face hash).collection kind} =
      (c.patch kind).apply {n | n ∈ (base.anchor.face hash).collection kind} := by
  have hleads := h.collapses.cumulative c hc
  rw [View.anchor_overlay] at hleads
  cases kind
  · exact hleads.apply_annotations.symm
  · exact hleads.apply_axioms.symm
  · rw [OntologyDelta.patch, emptyPatch_apply]
    exact congrArg (fun values : List Node => {n | n ∈ values}) h.extensions_anchor

/-- The collections of a composite are the moved collections of its sources under its bridge. -/
theorem collection_composite (h : ∀ v ∈ sources, v.Layered hash) (kind : RootKind) :
    {n | n ∈ ((View.composite sources delta).face hash).collection kind} =
      (delta.patch kind).apply (rescopedValues hash (sources.map (View.face hash)) fun face => face.collection kind) := by
  have hsound := sound_faces h
  have hexposes : (Face.composite hash _ delta).Exposes _ _ := exposes_composite hsound delta
  rw [memberLists_eq_rescopedValues, memberAnnotations_eq_rescopedValues] at hexposes
  have hextensions : Enumerates (Face.compositeExtensions hash _) _ := enumerates_compositeExtensions hsound
  rw [memberLists_eq_rescopedValues] at hextensions
  rw [View.face_composite]
  cases kind
  · exact Set.ext hexposes.annotations.mem_iff
  · exact Set.ext hexposes.axioms.mem_iff
  · rw [OntologyDelta.patch, emptyPatch_apply]
    exact Set.ext hextensions.mem_iff

theorem encodeViews_ok (h : encodeViews hash selection sources = .ok encodings) :
    Forall₂ (fun v e => encodeView hash selection v = .ok e) sources encodings := by
  induction sources generalizing encodings with
  | nil =>
    obtain rfl := Except.ok.inj h
    exact .nil
  | cons v rest ih =>
    rw [encodeViews] at h
    obtain ⟨first, hfirst, h⟩ := bind_eq_ok.mp h
    obtain ⟨others, hothers, h⟩ := bind_eq_ok.mp h
    obtain rfl := Except.ok.inj h
    exact .cons hfirst (ih hothers)

theorem produceLocal_closure (h : produceLocal hash .closure view = .ok encoded) :
    encoded.Denotes fun kind => {n | n ∈ (view.face hash).collection kind} := by
  obtain ⟨collections, hcollections, hdenotes⟩ := produceLocal_ok h
  have hface : enumeratedCollections hash .closure view = .ok (view.face hash).collection := by cases view <;> rfl
  obtain rfl := Except.ok.inj (hface.symm.trans hcollections)
  exact hdenotes

/-- Over the closure an encoded view and that of the anchor denote what their owners expose. -/
theorem View.Layered.encode_denotes (h : view.Layered hash) :
    (∀ encoded, encodeView hash .closure view = .ok encoded →
      encoded.Denotes fun kind => {n | n ∈ (view.face hash).collection kind}) ∧
    ∀ encoded, encodeAnchor hash .closure view = .ok encoded →
      encoded.Denotes fun kind => {n | n ∈ (view.anchor.face hash).collection kind} := by
  induction h with
  | snapshot value => exact ⟨fun _ he => produceLocal_closure he, fun _ he => produceLocal_closure he⟩
  | @overlay base delta layered axioms annotations ih =>
    refine ⟨fun encoded he => ?_, fun encoded he => ih.2 encoded he⟩
    rw [encodeView] at he
    obtain ⟨source, hsource, he⟩ := bind_eq_ok.mp he
    obtain ⟨c, hc⟩ : ∃ c, ((View.overlay base delta).face hash).cumulative = some c := ⟨_, rfl⟩
    have hdelta : encodedDelta hash .closure base delta = c := by
      rw [encodedDelta, Selection.isClosure, if_pos rfl, hc, Option.getD_some]
    have hlayered : (View.overlay base delta).Layered hash := .overlay layered axioms annotations
    rw [hdelta] at he
    cases hoverlay : overlayView source c with
    | none =>
      rw [hoverlay] at he
      exact produceLocal_closure he
    | some result =>
      rw [hoverlay] at he
      obtain rfl := Except.ok.inj he
      have hdenotes := overlayView_denotes (ih.2 source hsource) layered.collapses.anchor.canonical_collection hoverlay
      simp only [← hlayered.collection_overlay hc] at hdenotes
      exact hdenotes
  | @composite sources delta layered axioms annotations ih =>
    have hcomposite : ∀ encoded, produceComposite hash .closure sources delta (encodeViews hash .closure sources) =
        .ok encoded → encoded.Denotes fun kind =>
          {n | n ∈ ((View.composite sources delta).face hash).collection kind} := by
      intro encoded he
      unfold produceComposite at he
      simp only at he
      split at he
      · exact produceLocal_closure he
      · rename_i lineages hlineages
        obtain ⟨encodings, hencodings, he⟩ := bind_eq_ok.mp he
        obtain ⟨result, hresult, he⟩ := bind_eq_ok.mp he
        cases result with
        | none => exact produceLocal_closure he
        | some result =>
          obtain rfl := Except.ok.inj he
          have hsources : Forall₂ (fun (face : Face) source => source.Denotes fun kind =>
              {n | n ∈ face.collection kind}) (sources.map (View.face hash)) encodings := by
            rw [forall₂_map_left_iff]
            exact ((forall₂_and_left _ _).mpr ⟨fun v hv => hv, encodeViews_ok hencodings⟩).imp fun v e hv =>
              (ih v hv.1).1 e hv.2
          have hdenotes := compositeView_denotes hlineages hsources (fun face hface => by
            obtain ⟨v, hv, rfl⟩ := mem_map.mp hface
            exact (layered v hv).canonical_collection) hresult
          simp only [← collection_composite layered] at hdenotes
          exact hdenotes
    exact ⟨hcomposite, hcomposite⟩

end

section

variable {hash : Hash} {selection : Selection} {view : View} {encoded : EncodedView}
  {pick : Snapshot → Except Error DocumentCollections}

def DenotesOwner (hash : Hash) (selection : Selection) (view : View) (encoded : EncodedView) : Prop :=
  ∃ collections, enumeratedCollections hash selection view = .ok collections ∧
    ∀ kind n, (kind, n) ∈ encoded.denoted [] ↔ n ∈ collections kind

section

variable (h : view.Layered hash)

include h

theorem enumeratedCollections_anchor :
    enumeratedCollections hash (.selected pick) view = enumeratedCollections hash (.selected pick) view.anchor := by
  induction h with
  | snapshot value => rfl
  | overlay layered axioms annotations ih => exact ih
  | composite layered axioms annotations ih => rfl

theorem anchor_ne_overlay :
    view.anchor ≠ .overlay base delta := by
  induction h with
  | snapshot value => intro heq; cases heq
  | overlay layered axioms annotations ih => exact ih
  | composite layered axioms annotations ih => intro heq; cases heq

theorem encodeAnchor_eq (hanchor : view.anchor = .snapshot value) :
    encodeAnchor hash selection view = produceLocal hash selection (.snapshot value) := by
  induction h with
  | snapshot other => rw [← hanchor]; rfl
  | overlay layered axioms annotations ih => exact ih hanchor
  | composite layered axioms annotations ih => cases hanchor

/-- A selected scope over a snapshot: the overlays above it add and remove nothing. -/
theorem encode_selected {value : Snapshot} (hanchor : view.anchor = .snapshot value)
    (he : encodeView hash (.selected pick) view = .ok encoded) : DenotesOwner hash (.selected pick) view encoded := by
  have hlocal : ∀ owner e, produceLocal hash (.selected pick) owner = .ok e →
      DenotesOwner hash (.selected pick) owner e := by
    intro owner e howner
    obtain ⟨collections, hcollections, hdenotes⟩ := produceLocal_ok howner
    exact ⟨collections, hcollections, hdenotes.mem_iff⟩
  cases h with
  | snapshot other => exact hlocal _ _ he
  | composite layered axioms annotations => cases hanchor
  | @overlay base delta layered axioms annotations =>
    rw [encodeView, encodeAnchor_eq layered hanchor] at he
    obtain ⟨source, hsource, he⟩ := bind_eq_ok.mp he
    cases hoverlay : overlayView source (encodedDelta hash (.selected pick) base delta) with
    | none =>
      rw [hoverlay] at he
      exact hlocal _ _ he
    | some result =>
      rw [hoverlay] at he
      obtain rfl := Except.ok.inj he
      obtain ⟨collections, hcollections, hdenotes⟩ := produceLocal_ok hsource
      have hcanonical : ∀ kind, ∀ n ∈ collections kind, n.Canonical := by
        obtain ⟨document, -, hdocument⟩ := bind_eq_ok.mp hcollections
        obtain rfl := Except.ok.inj hdocument
        intro kind n hn
        cases kind
        · exact document.annotations.canonical n hn
        · exact document.axioms.canonical n hn
        · exact document.extensions.canonical n hn
      have hpatch : ∀ kind, (encodedDelta hash (.selected pick) base delta).patch kind = emptyPatch := by
        intro kind
        cases kind <;> rfl
      refine ⟨collections, ?_, fun kind n => ?_⟩
      · rw [enumeratedCollections_anchor (.overlay layered axioms annotations), hanchor, hcollections]
      · have hmem := (overlayView_denotes hdenotes hcanonical hoverlay).mem_iff kind n
        rwa [hpatch, emptyPatch_apply] at hmem

end

/-- A returned view denotes what its owner enumerates if and only if it was materialized, selects the
closure, or rests on a snapshot. -/
theorem produceEncodedStructuralView_denotes_iff {materializeSegments : Bool} (h : view.Assembled hash)
    (he : produceEncodedStructuralView hash selection materializeSegments view = .ok encoded) :
    DenotesOwner hash selection view encoded ↔
      materializeSegments = true ∨ selection.isClosure = true ∨ ∃ value, view.anchor = .snapshot value := by
  have hlayered := h.layered
  constructor
  · rintro ⟨collections, hcollections, -⟩
    cases selection with
    | closure => exact .inr (.inl rfl)
    | selected pick =>
      -- a composite anchor enumerates nothing for another scope
      rw [enumeratedCollections_anchor hlayered] at hcollections
      cases hanchor : view.anchor with
      | snapshot value => exact .inr (.inr ⟨value, rfl⟩)
      | overlay base delta => exact absurd hanchor (anchor_ne_overlay hlayered)
      | composite sources delta =>
        rw [hanchor] at hcollections
        cases hcollections
  · intro hcases
    unfold produceEncodedStructuralView at he
    split at he
    · obtain ⟨collections, hcollections, hdenotes⟩ := produceLocal_ok he
      exact ⟨collections, hcollections, hdenotes.mem_iff⟩
    · rename_i hsegmented
      cases selection with
      | closure =>
        have hface : enumeratedCollections hash .closure view = .ok (view.face hash).collection := by
          cases view <;> rfl
        exact ⟨_, hface, (hlayered.encode_denotes.1 encoded he).mem_iff⟩
      | selected pick =>
        obtain ⟨value, hanchor⟩ := (hcases.resolve_left hsegmented).resolve_left (by simp [Selection.isClosure])
        exact encode_selected hlayered hanchor he

end

/-- A snapshot composed with a copy of itself under a bridge that replaces its class. -/
theorem produceEncodedStructuralView_denotes_replaced : ∃ view encoded,
    composeViews sha256 defaultLimits [.snapshot oneClass, .snapshot oneClass] replaceClass = .ok view ∧
      produceEncodedStructuralView sha256 .closure false view = .ok encoded ∧
      DenotesOwner sha256 .closure view encoded := by
  obtain ⟨view, hview, hok⟩ := exists_of_toOption_any
    (x := composeViews sha256 defaultLimits [.snapshot oneClass, .snapshot oneClass] replaceClass)
    (p := fun view => (produceEncodedStructuralView sha256 .closure false view).isOk) (by decide +kernel)
  obtain ⟨encoded, hencoded⟩ := exists_of_isOk hok
  have hassembled : view.Assembled sha256 := .composed (by simpa using View.Assembled.snapshot oneClass) hview
  exact ⟨view, encoded, hview, hencoded,
    (produceEncodedStructuralView_denotes_iff hassembled hencoded).mpr (.inr (.inl rfl))⟩

def rootScope : Selection := .selected fun s => .ok ⟨s.annotations, s.axioms, s.extensions⟩

/-- For the root scope the composite enumerates nothing, but it is encoded. -/
theorem produceEncodedStructuralView_rootScope : ∃ view encoded,
    composeViews sha256 defaultLimits [.snapshot oneClass, .snapshot oneClass] replaceClass = .ok view ∧
      produceEncodedStructuralView sha256 rootScope false view = .ok encoded ∧
      enumeratedCollections sha256 rootScope view = .error closureOnly := by
  obtain ⟨view, hview, hok⟩ := exists_of_toOption_any
    (x := composeViews sha256 defaultLimits [.snapshot oneClass, .snapshot oneClass] replaceClass)
    (p := fun view => (produceEncodedStructuralView sha256 rootScope false view).isOk) (by decide +kernel)
  obtain ⟨encoded, hencoded⟩ := exists_of_isOk hok
  obtain ⟨-, effective, rfl, -⟩ := composeViews_ok hview
  exact ⟨_, encoded, hview, hencoded, rfl⟩

end OwlCore
