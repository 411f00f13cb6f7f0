import OwlCore.View.Compose

/-!
# Layered axiom iteration

The axiom type index, the hierarchy views and the domain and range view iterate the axioms of
chosen constructors: what the views below iterate, moved for members, merged with the additions
and without the removals of the delta. They give the axioms that the view enumerates.
-/
namespace OwlCore

open CanonicalSet KeyedSet List

structure LayeredRuns where
  own : List Node
  sources : List (List Node)
  additions : List Node
  removals : List Node

/-- `canonical_merge` of the runs without the removals; an empty run adds nothing. -/
def LayeredRuns.iter (runs : LayeredRuns) : List Node :=
  KeyedSet.merge Node.bytes (fun value => decide (value ∈ runs.removals))
    ([runs.own] ++ runs.sources ++ [runs.additions])

/-- How a view picks its values from the axioms of a snapshot and from the two halves of a delta. -/
structure AxiomSelection where
  own : List Node → List Node
  additions : List Node → List Node
  removals : List Node → List Node

/-- `sorted(values, key=canonical_bytes)`. -/
def sortCanonical (values : List Node) : List Node := values.insertionSort fun a b => a.bytes ≤ b.bytes

section

variable (hash : Hash) (selection : AxiomSelection)

/-- The runs of the members of a composite, moved and sorted. -/
def movedRuns (sources : List Face) (runs : List LayeredRuns) : List (List Node) :=
  runs.zipIdx.map fun member =>
    sortCanonical (member.1.iter.map (scopeValue hash (sources.map Face.sourceScopes) member.2))

mutual

def layeredRuns : View → LayeredRuns
  | .snapshot value => ⟨selection.own value.axioms.items, [], [], []⟩
  | .overlay base delta => ⟨[], [(layeredRuns base).iter], selection.additions delta.axioms.add.items,
      selection.removals delta.axioms.remove.items⟩
  | .composite sources delta => ⟨[], movedRuns hash (View.faces hash sources) (layeredRunsAll sources),
      selection.additions delta.axioms.add.items, selection.removals delta.axioms.remove.items⟩

def layeredRunsAll : List View → List LayeredRuns
  | [] => []
  | view :: rest => layeredRuns view :: layeredRunsAll rest

end

end

def ofType (c : Constructor) (values : List Node) : List Node := values.filter fun value => value.constructor = c

def ofTypes (types : List Constructor) (values : List Node) : List Node :=
  values.filter fun value => value.constructor ∈ types

/-- The selection of `AxiomTypeIndex` for one constructor: all removals are kept. -/
def typeSelection (c : Constructor) : AxiomSelection where
  own := fun values => sortCanonical (ofType c values)
  additions := fun values => sortCanonical (ofType c values)
  removals := id

/-- The selection of `_build_hierarchy` and of `PropertyDomainRangeView`. -/
def typesSelection (types : List Constructor) : AxiomSelection where
  own := fun values => sortCanonical (types.flatMap fun c => ofType c values)
  additions := fun values => sortCanonical (ofTypes types values)
  removals := ofTypes types

inductive AxiomCategory where
  | declaration | logical | annotations
  deriving DecidableEq

/-- `CATEGORY_TYPES`. -/
def categoryTypes : AxiomCategory → List Constructor
  | .declaration => [.declaration]
  | .logical => logicalAxiomTypes
  | .annotations => annotationAxiomTypes

/-- `_CLASS_AXIOM_TYPES`. -/
def classAxiomTypes : List Constructor := [.subClassOf, .equivalentClasses, .disjointUnion]

/-- `_PROPERTY_AXIOM_TYPES`. -/
def propertyAxiomTypes : List Constructor :=
  [.subObjectPropertyOf, .subDataPropertyOf, .equivalentObjectProperties, .equivalentDataProperties,
    .inverseObjectProperties]

/-- `_DOMAIN_RANGE_TYPES`. -/
def domainRangeTypes : List Constructor :=
  [.objectPropertyDomain, .objectPropertyRange, .dataPropertyDomain, .dataPropertyRange, .annotationPropertyDomain,
    .annotationPropertyRange]

section

variable (hash : Hash) (view : View)

namespace AxiomTypeIndex

def iter (c : Constructor) : List Node := (layeredRuns hash (typeSelection c) view).iter

def iterCategory (category : AxiomCategory) : List Node :=
  KeyedSet.merge Node.bytes (fun _ => false) ((categoryTypes category).map (iter hash view))

def iterAll : List Node := KeyedSet.merge Node.bytes (fun _ => false) (axiomTypes.map (iter hash view))

def count (c : Constructor) : Nat :=
  let runs := layeredRuns hash (typeSelection c) view
  if runs.sources = [] ∧ runs.additions = [] ∧ runs.removals = [] then runs.own.length else runs.iter.length

end AxiomTypeIndex

/-- `_iter_axioms` of a hierarchy view over its constructors. -/
def hierarchyAxioms (types : List Constructor) : List Node := (layeredRuns hash (typesSelection types) view).iter

/-- `_iter_axioms` of `AssertedClassHierarchyView`. -/
def classHierarchyAxioms : List Node := hierarchyAxioms hash view classAxiomTypes

/-- `_iter_axioms` of `AssertedPropertyHierarchyView`. -/
def propertyHierarchyAxioms : List Node := hierarchyAxioms hash view propertyAxiomTypes

/-- `PropertyDomainRangeView._iter_axioms`. -/
def domainRangeAxioms : List Node := (layeredRuns hash (typesSelection domainRangeTypes) view).iter

end

section

variable {hash : Hash} {selection : AxiomSelection} {types : List Constructor}

/-- A selection picks the values of the given constructors and keeps their removals. -/
structure AxiomSelection.Picks (selection : AxiomSelection) (types : List Constructor) : Prop where
  own_sorted : ∀ values, Sorted Node.bytes (selection.own values)
  mem_own : ∀ values n, n ∈ selection.own values ↔ n ∈ values ∧ n.constructor ∈ types
  additions_sorted : ∀ values, Sorted Node.bytes (selection.additions values)
  mem_additions : ∀ values n, n ∈ selection.additions values ↔ n ∈ values ∧ n.constructor ∈ types
  mem_removals : ∀ values n, n.constructor ∈ types → (n ∈ selection.removals values ↔ n ∈ values)

theorem sorted_sortCanonical (values : List Node) : Sorted Node.bytes (sortCanonical values) :=
  pairwise_insertionSort _ _

variable {n : Node}

@[simp] theorem mem_sortCanonical : n ∈ sortCanonical values ↔ n ∈ values :=
  (perm_insertionSort _ _).mem_iff

theorem mem_ofTypes : n ∈ ofTypes types values ↔ n ∈ values ∧ n.constructor ∈ types := by
  simp [ofTypes]

theorem typeSelection_picks (c : Constructor) : (typeSelection c).Picks [c] where
  own_sorted := fun _ => sorted_sortCanonical _
  mem_own := by simp [typeSelection, ofType]
  additions_sorted := fun _ => sorted_sortCanonical _
  mem_additions := by simp [typeSelection, ofType]
  mem_removals := fun _ _ _ => Iff.rfl

theorem typesSelection_picks (types : List Constructor) : (typesSelection types).Picks types where
  own_sorted := fun _ => sorted_sortCanonical _
  mem_own := by
    intro values n
    simp only [typesSelection, mem_sortCanonical, mem_flatMap, ofType, mem_filter, decide_eq_true_eq]
    constructor
    · rintro ⟨c, hc, hn, rfl⟩
      exact ⟨hn, hc⟩
    · rintro ⟨hn, hc⟩
      exact ⟨_, hc, hn, rfl⟩
  additions_sorted := fun _ => sorted_sortCanonical _
  mem_additions := by simp [typesSelection, mem_ofTypes]
  mem_removals := fun _ _ hc => by simp [typesSelection, mem_ofTypes, hc]

/-- A merge is the ascending list of what the sorted lists hold and the merge does not exclude. -/
theorem merge_eq (hsorted : ∀ l ∈ lists, Sorted Node.bytes l) (hcanonical : ∀ n ∈ lists.flatten, n.Canonical) (hvalues
    : Ascending Node.bytes values) (hmem : ∀ n, n ∈ values ↔ n ∈ lists.flatten ∧ excluded n = false) :
    KeyedSet.merge Node.bytes excluded lists = values := by
  have hinj := Node.keyInjOn_canonical hcanonical
  refine (ascending_merge _ hsorted hinj).ext hvalues fun n => ?_
  rw [mem_merge _ hsorted hinj, hmem]

/-- The merge of sorted runs is the ascending list of what they hold and do not remove. -/
theorem LayeredRuns.iter_eq {runs : LayeredRuns}
    (hsorted : ∀ run ∈ [runs.own] ++ runs.sources ++ [runs.additions], Sorted Node.bytes run)
    (hcanonical : ∀ n ∈ ([runs.own] ++ runs.sources ++ [runs.additions]).flatten, n.Canonical)
    (hvalues : Ascending Node.bytes values)
    (hmem : ∀ n, n ∈ values ↔ (n ∈ runs.own ∨ n ∈ runs.sources.flatten ∨ n ∈ runs.additions) ∧ n ∉ runs.removals) :
    runs.iter = values := by
  apply merge_eq hsorted hcanonical hvalues
  intro n
  rw [hmem]
  simp

theorem ascending_ofTypes (h : Ascending Node.bytes values) :
    Ascending Node.bytes (ofTypes types values) := h.filter _

theorem iter_snapshot (hpicks : selection.Picks types) (value : Snapshot) :
    (layeredRuns hash selection (.snapshot value)).iter = ofTypes types value.axioms.items := by
  apply LayeredRuns.iter_eq
  · intro run hrun
    simp only [layeredRuns, append_nil, cons_append, nil_append, mem_cons, not_mem_nil, or_false] at hrun
    rcases hrun with rfl | rfl
    · exact hpicks.own_sorted _
    · exact List.Pairwise.nil
  · intro n hn
    simp only [layeredRuns, append_nil, cons_append, nil_append, flatten_cons, flatten_nil, hpicks.mem_own] at hn
    exact value.axioms.canonical n hn.1
  · exact ascending_ofTypes value.axioms.ascending
  · intro n
    simp [layeredRuns, mem_ofTypes, hpicks.mem_own]

theorem iter_layered (hpicks : selection.Picks types) {sources : List (List Node)} {patch : Patch} {below : Set Node} (hsorted : ∀ run ∈ sources, Sorted Node.bytes run)
    (hsources : ∀ n, n ∈ sources.flatten ↔ n ∈ below ∧ n.constructor ∈ types)
    (hcanonical : ∀ n ∈ below, n.Canonical) (hvalues : Enumerates values (patch.apply below)) :
    (LayeredRuns.mk [] sources (selection.additions patch.add.items)
      (selection.removals patch.remove.items)).iter = ofTypes types values := by
  apply LayeredRuns.iter_eq
  · intro run hrun
    simp only [cons_append, nil_append, mem_cons, mem_append, not_mem_nil, or_false] at hrun
    rcases hrun with rfl | hrun | rfl
    · exact List.Pairwise.nil
    · exact hsorted run hrun
    · exact hpicks.additions_sorted _
  · intro n hn
    simp only [cons_append, nil_append, flatten_cons, flatten_append, flatten_nil,
      append_nil, mem_append, hsources, hpicks.mem_additions] at hn
    exact hn.elim (fun hn => hcanonical n hn.1) fun hn => patch.add.canonical n hn.1
  · exact ascending_ofTypes hvalues.ascending
  · intro n
    rw [mem_ofTypes, hvalues.mem_iff, hsources, hpicks.mem_additions]
    simp only [Patch.apply, Set.mem_ofPred_eq, not_mem_nil, false_or, mem_items]
    by_cases hc : n.constructor ∈ types
    · rw [hpicks.mem_removals _ _ hc, mem_items]
      have hdisjoint := patch.disjoint n
      tauto
    · tauto

@[simp] theorem layeredRunsAll_eq_map (views : List View) :
    layeredRunsAll hash selection views = views.map (layeredRuns hash selection) := by
  induction views with
  | nil => rfl
  | cons view rest ih => rw [layeredRunsAll, ih, map_cons]

theorem mem_movedRuns :
    n ∈ (movedRuns hash faces runs).flatten ↔ ∃ i run, runs[i]? = some run ∧
      ∃ r ∈ run.iter, scopeValue hash (faces.map Face.sourceScopes) i r = n := by
  simp only [movedRuns, mem_flatten, mem_map, Prod.exists, mem_zipIdx_iff_getElem?]
  constructor
  · rintro ⟨_, ⟨run, i, hrun, rfl⟩, hn⟩
    exact ⟨i, run, hrun, mem_map.mp (mem_sortCanonical.mp hn)⟩
  · rintro ⟨i, run, hrun, hn⟩
    exact ⟨_, ⟨run, i, hrun, rfl⟩, mem_sortCanonical.mpr (mem_map.mpr hn)⟩

/-- Moving keeps the constructor, so the moved runs hold the moved axioms of the chosen constructors. -/
theorem mem_movedRuns_layeredRuns {sources : List View}
    (hsources : ∀ v ∈ sources, (layeredRuns hash selection v).iter = ofTypes types (v.face hash).axioms) :
    n ∈ (movedRuns hash (sources.map (View.face hash)) (sources.map (layeredRuns hash selection))).flatten ↔
      n ∈ (Face.memberLists hash (sources.map (View.face hash)) Face.axioms).flatten ∧ n.constructor ∈ types := by
  rw [mem_movedRuns, Face.mem_memberLists]
  constructor
  · rintro ⟨i, run, hrun, r, hr, rfl⟩
    obtain ⟨v, hv, rfl⟩ := getElem?_map .. ▸ hrun |> Option.map_eq_some_iff.mp
    rw [hsources v (mem_of_getElem? hv), mem_ofTypes] at hr
    refine ⟨⟨i, v.face hash, by simp [hv], r, hr.1, rfl⟩, ?_⟩
    rw [scopeValue, Node.constructor_mapAnonymous]
    exact hr.2
  · rintro ⟨⟨i, source, hsource, r, hr, rfl⟩, hc⟩
    obtain ⟨v, hv, rfl⟩ := getElem?_map .. ▸ hsource |> Option.map_eq_some_iff.mp
    refine ⟨i, layeredRuns hash selection v, by simp [hv], r, ?_, rfl⟩
    rw [scopeValue, Node.constructor_mapAnonymous] at hc
    rw [hsources v (mem_of_getElem? hv), mem_ofTypes]
    exact ⟨hr, hc⟩

/-- The layered iteration over any stack gives the enumerated axioms of the chosen constructors. -/
theorem iter_layeredRuns {view : View} (h : view.Layered hash) (hpicks : selection.Picks types) :
    (layeredRuns hash selection view).iter = ofTypes types (view.face hash).axioms := by
  induction h with
  | snapshot value => exact iter_snapshot hpicks value
  | @overlay base delta layered axioms annotations ih =>
    have hsound := layered.sound
    have hascending := hsound.exposes.axioms.ascending
    rw [layeredRuns, ih]
    refine iter_layered hpicks (fun run hrun => ?_) (fun n => ?_) hsound.exposes.axioms.canonical
      hsound.exposes.axioms.overlayAxioms
    · rw [mem_singleton.mp hrun]
      exact (ascending_ofTypes hascending).sorted
    · rw [flatten_singleton, mem_ofTypes]
      exact Iff.rfl
  | @composite sources delta layered axioms annotations ih =>
    have hsound := sound_faces layered
    rw [layeredRuns, layeredRunsAll_eq_map, View.faces_eq_map, View.face_composite]
    refine iter_layered hpicks (fun run hrun => ?_) (fun n => mem_movedRuns_layeredRuns ih)
      (Face.canonical_memberLists hsound fun _ _ hn => Face.mem_roots.mpr (.inr (.inl hn)))
      (Face.exposes_composite hsound delta).axioms
    obtain ⟨_, -, rfl⟩ := mem_map.mp hrun
    exact sorted_sortCanonical _

theorem merge_iter (h : view.Layered hash) (types : List Constructor) :
    KeyedSet.merge Node.bytes (fun _ => false) (types.map (AxiomTypeIndex.iter hash view)) =
      ofTypes types (view.face hash).axioms := by
  have haxioms := h.sound.exposes.axioms
  have hiter : ∀ c, AxiomTypeIndex.iter hash view c = ofTypes [c] (view.face hash).axioms := fun c =>
    iter_layeredRuns h (typeSelection_picks c)
  have hsorted : ∀ run ∈ types.map (AxiomTypeIndex.iter hash view), Sorted Node.bytes run := by
    intro run hrun
    obtain ⟨c, -, rfl⟩ := mem_map.mp hrun
    rw [hiter]
    exact (ascending_ofTypes haxioms.ascending).sorted
  have hmem : ∀ n, n ∈ (types.map (AxiomTypeIndex.iter hash view)).flatten ↔
      n ∈ (view.face hash).axioms ∧ n.constructor ∈ types := by
    intro n
    simp only [mem_flatten, mem_map, exists_exists_and_eq_and, hiter, mem_ofTypes, mem_singleton]
    constructor
    · rintro ⟨c, hc, hn, rfl⟩
      exact ⟨hn, hc⟩
    · rintro ⟨hn, hc⟩
      exact ⟨_, hc, hn, rfl⟩
  apply merge_eq hsorted (fun n hn => haxioms.canonical n ((hmem n).mp hn).1) (ascending_ofTypes haxioms.ascending)
  intro n
  rw [hmem, mem_ofTypes]
  simp

theorem count_eq (h : view.Layered hash) (c : Constructor) :
    AxiomTypeIndex.count hash view c = (ofTypes [c] (view.face hash).axioms).length := by
  have hiter := iter_layeredRuns h (typeSelection_picks c)
  rw [AxiomTypeIndex.count]
  split
  · rename_i hplain
    cases h with
    | snapshot value =>
      have hperm := perm_insertionSort (fun a b : Node => a.bytes ≤ b.bytes) (ofType c value.axioms.items)
      have htypes : ofTypes [c] value.axioms.items = ofType c value.axioms.items := by simp [ofTypes, ofType]
      exact hperm.length_eq.trans (congrArg List.length htypes.symm)
    | overlay layered axioms annotations => simp [layeredRuns] at hplain
    | composite layered axioms annotations =>
      obtain ⟨hsources, hadditions, hremovals⟩ := hplain
      rw [← hiter, LayeredRuns.iter, hsources, hadditions, hremovals]
      rfl
  · rw [hiter]

/-- A list holds the axioms of the given constructors, each once and in ascending canonical order. -/
structure IteratesTypes (axioms : List Node) (types : List Constructor) (iterated : List Node) : Prop where
  ascending : Ascending Node.bytes iterated
  nodup : iterated.Nodup
  mem_iff : ∀ n, n ∈ iterated ↔ n ∈ axioms ∧ n.constructor ∈ types

theorem iteratesTypes_ofTypes (h : Ascending Node.bytes values) :
    IteratesTypes values types (ofTypes types values) :=
  ⟨ascending_ofTypes h, (ascending_ofTypes h).nodup, fun _ => mem_ofTypes⟩

/-- Every layered iteration refines the axioms of the view. -/
theorem layeredAxioms_exact {view : View} (h : view.Layered hash) :
    (∀ c, IteratesTypes (view.face hash).axioms [c] (AxiomTypeIndex.iter hash view c) ∧
      AxiomTypeIndex.count hash view c = (AxiomTypeIndex.iter hash view c).length) ∧
    (∀ category, IteratesTypes (view.face hash).axioms (categoryTypes category)
      (AxiomTypeIndex.iterCategory hash view category)) ∧
    IteratesTypes (view.face hash).axioms axiomTypes (AxiomTypeIndex.iterAll hash view) ∧
    IteratesTypes (view.face hash).axioms classAxiomTypes (classHierarchyAxioms hash view) ∧
    IteratesTypes (view.face hash).axioms propertyAxiomTypes (propertyHierarchyAxioms hash view) ∧
    IteratesTypes (view.face hash).axioms domainRangeTypes (domainRangeAxioms hash view) := by
  have hexact : ∀ types, IteratesTypes (view.face hash).axioms types (ofTypes types (view.face hash).axioms) :=
    fun types => iteratesTypes_ofTypes h.sound.exposes.axioms.ascending
  have hhierarchy : ∀ types, hierarchyAxioms hash view types = ofTypes types (view.face hash).axioms :=
    fun types => iter_layeredRuns h (typesSelection_picks types)
  refine ⟨fun c => ?_, fun category => ?_, ?_, ?_, ?_, ?_⟩
  · have hiter : AxiomTypeIndex.iter hash view c = ofTypes [c] (view.face hash).axioms :=
      iter_layeredRuns h (typeSelection_picks c)
    rw [hiter, count_eq h]
    exact ⟨hexact [c], rfl⟩
  · rw [AxiomTypeIndex.iterCategory, merge_iter h]
    exact hexact _
  · rw [AxiomTypeIndex.iterAll, merge_iter h]
    exact hexact _
  · rw [classHierarchyAxioms, hhierarchy]
    exact hexact _
  · rw [propertyHierarchyAxioms, hhierarchy]
    exact hexact _
  · rw [domainRangeAxioms, iter_layeredRuns h (typesSelection_picks _)]
    exact hexact _

/-- A class replaced by another one in an overlay: the iterations give the new declaration. -/
theorem layeredAxioms_exact_replaced : ∃ view, applyDelta sha256 defaultLimits (.snapshot oneClass) replaceClass =
    .ok view ∧ IteratesTypes (view.face sha256).axioms [.declaration]
      (AxiomTypeIndex.iter sha256 view .declaration) := by
  obtain ⟨view, hview⟩ := Fallible.exists_of_isOk
    (show (applyDelta sha256 defaultLimits (.snapshot oneClass) replaceClass).isOk by decide +kernel)
  exact ⟨view, hview, ((layeredAxioms_exact ((View.Layered.snapshot oneClass).applyDelta hview)).1 .declaration).1⟩

end

end OwlCore
