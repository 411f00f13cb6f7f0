import OwlCore.Index.AxiomTypes

/-!
# Exact enumeration of composed views

`iter_axioms` with an axiom type passes the type on to the views below, which filter and merge.
On the views that `apply_delta`, `compact` and `compose_views` build, the typed iteration is the
subsequence of the untyped one, and a composite enumerates the moved values of its sources under
its bridge.
-/
namespace OwlCore

open Face Fallible KeyedSet List

section

variable (hash : Hash) (axiomType : Option Constructor)

/-- The values of exactly the given type, or all values when there is none. -/
def ofAxiomType (values : List Node) : List Node :=
  match axiomType with
  | none => values
  | some c => ofType c values

/-- `_member_values` over what each source iterates. -/
def memberStreams (sources : List Face) (streams : List (List Node)) : List (List Node) :=
  streams.zipIdx.map fun stream => memberValues hash (sources.map Face.sourceScopes) stream.2 stream.1

mutual

/-- `iter_axioms` of a view. -/
def iterAxioms : View → List Node
  | .snapshot value => ofAxiomType axiomType value.axioms.items
  | .overlay base delta => KeyedSet.merge Node.bytes delta.axioms.remove.contains
      [iterAxioms base, ofAxiomType axiomType delta.axioms.add.items]
  | .composite sources delta => KeyedSet.merge Node.bytes delta.axioms.remove.contains
      (memberStreams hash (View.faces hash sources) (iterAxiomsAll sources) ++
        [ofAxiomType axiomType delta.axioms.add.items])

def iterAxiomsAll : List View → List (List Node)
  | [] => []
  | view :: rest => iterAxioms view :: iterAxiomsAll rest

end

end

section

variable {hash : Hash} {axiomType : Option Constructor}

theorem mem_ofAxiomType : n ∈ ofAxiomType axiomType values ↔
    n ∈ values ∧ ∀ c ∈ axiomType, n.constructor = c := by
  cases axiomType <;> simp [ofAxiomType, ofType]

theorem ascending_ofAxiomType (h : Ascending Node.bytes values) :
    Ascending Node.bytes (ofAxiomType axiomType values) := by
  cases axiomType with
  | none => exact h
  | some c => exact h.filter _

theorem iterAxiomsAll_eq_map (views : List View) :
    iterAxiomsAll hash axiomType views = views.map (iterAxioms hash axiomType) := by
  induction views with
  | nil => rfl
  | cons view rest ih => rw [iterAxiomsAll, ih, map_cons]

theorem memberStreams_map (sources : List Face) (g : Face → List Node) :
    memberStreams hash sources (sources.map g) = Face.memberLists hash sources g := by
  simp only [memberStreams, Face.memberLists, zipIdx_map, map_map]
  rfl

/-- Moving keeps the constructor, so the typed member lists hold the moved axioms of the type. -/
theorem mem_memberLists_ofAxiomType :
    n ∈ (Face.memberLists hash sources fun face => ofAxiomType axiomType face.axioms).flatten ↔
      n ∈ (Face.memberLists hash sources Face.axioms).flatten ∧ ∀ c ∈ axiomType, n.constructor = c := by
  rw [mem_memberLists, mem_memberLists]
  constructor
  · rintro ⟨i, source, hsource, r, hr, rfl⟩
    obtain ⟨hr, htype⟩ := mem_ofAxiomType.mp hr
    refine ⟨⟨i, source, hsource, r, hr, rfl⟩, ?_⟩
    rwa [scopeValue, Node.constructor_mapAnonymous]
  · rintro ⟨⟨i, source, hsource, r, hr, rfl⟩, htype⟩
    rw [scopeValue, Node.constructor_mapAnonymous] at htype
    exact ⟨i, source, hsource, r, mem_ofAxiomType.mpr ⟨hr, htype⟩, rfl⟩

theorem merge_ofAxiomType {lists : List (List Node)} {patch : Patch} {below : Set Node}
    (hsorted : ∀ l ∈ lists, Sorted Node.bytes l)
    (hlists : ∀ n, n ∈ lists.flatten ↔ n ∈ below ∧ ∀ c ∈ axiomType, n.constructor = c)
    (hcanonical : ∀ n ∈ below, n.Canonical) (hvalues : Enumerates values (patch.apply below)) :
    KeyedSet.merge Node.bytes patch.remove.contains (lists ++ [ofAxiomType axiomType patch.add.items]) =
      ofAxiomType axiomType values := by
  have hflatten : ∀ n, n ∈ (lists ++ [ofAxiomType axiomType patch.add.items]).flatten ↔
      (n ∈ below ∨ n ∈ patch.add) ∧ ∀ c ∈ axiomType, n.constructor = c := by
    intro n
    rw [flatten_append, flatten_singleton, mem_append, hlists, mem_ofAxiomType, CanonicalSet.mem_items, or_and_right]
  have hall : ∀ n ∈ (lists ++ [ofAxiomType axiomType patch.add.items]).flatten, n.Canonical := fun n hn =>
    ((hflatten n).mp hn).1.elim (hcanonical n) (patch.add.canonical n)
  apply merge_eq _ hall (ascending_ofAxiomType hvalues.ascending)
  · intro n
    rw [hflatten, mem_ofAxiomType, hvalues.mem_iff]
    simp only [Patch.apply, Set.mem_ofPred_eq]
    have hdisjoint := patch.disjoint n
    by_cases hn : n ∈ below ∨ n ∈ patch.add
    · have hremove : patch.remove.contains n = false ↔ n ∉ patch.remove := by
        rw [← Bool.not_eq_true, CanonicalSet.contains_iff (hn.elim (hcanonical n) (patch.add.canonical n))]
      rw [hremove]
      tauto
    · tauto
  · intro l hl
    rcases mem_append.mp hl with hl | hl
    · exact hsorted l hl
    · rw [mem_singleton.mp hl]
      exact (ascending_ofAxiomType patch.add.ascending).sorted

/-- The typed iteration over any stack is the subsequence of the enumerated axioms of that type. -/
theorem iterAxioms_eq {view : View} (h : view.Layered hash) :
    iterAxioms hash axiomType view = ofAxiomType axiomType (view.face hash).axioms := by
  induction h with
  | snapshot value => rw [iterAxioms]; rfl
  | @overlay base delta layered axioms annotations ih =>
    have hbase := layered.sound.exposes.axioms
    rw [iterAxioms, ih]
    rw [← singleton_append]
    refine merge_ofAxiomType ?_ ?_ hbase.canonical hbase.overlayAxioms
    · simpa using (ascending_ofAxiomType hbase.ascending).sorted
    · intro n
      rw [flatten_singleton, mem_ofAxiomType]
      exact Iff.rfl
  | @composite sources delta layered axioms annotations ih =>
    have hsound := sound_faces layered
    have hroots : ∀ source : Face, ∀ n ∈ source.axioms, n ∈ source.roots := fun _ _ hn =>
      mem_roots.mpr (.inr (.inl hn))
    have hstreams : sources.map (iterAxioms hash axiomType) =
        (sources.map (View.face hash)).map fun face => ofAxiomType axiomType face.axioms := by
      rw [map_map]
      exact map_congr_left ih
    rw [iterAxioms, iterAxiomsAll_eq_map, View.faces_eq_map, hstreams, memberStreams_map, View.face_composite]
    refine merge_ofAxiomType ?_ (fun n => mem_memberLists_ofAxiomType) (canonical_memberLists hsound hroots)
      (exposes_composite hsound delta).axioms
    exact sorted_memberLists hsound
      (fun source hsource => ascending_ofAxiomType (hsound source hsource).exposes.axioms.ascending)
      fun source n hn => hroots source n (mem_ofAxiomType.mp hn).1

end

section

variable {hash : Hash}

theorem Patch.Fits.combine {first patch : Patch} {s : Set Node} (h : first.Fits s) (hpatch : patch.Fits (first.apply s)) :
    (first.combine patch).Fits s ∧ (first.combine patch).apply s = patch.apply (first.apply s) := by
  refine ⟨⟨fun n => ?_, fun n => ?_⟩, Set.ext fun n => ?_⟩ <;>
  · have hadd := h.add n
    have hremove := h.remove n
    have hpatchAdd := hpatch.add n
    have hpatchRemove := hpatch.remove n
    have hfirst := first.disjoint n
    have hsecond := patch.disjoint n
    simp only [Patch.mem_add_combine, Patch.mem_remove_combine, Patch.apply, Set.mem_ofPred_eq] at *
    tauto

/-- The cumulative delta of an overlay leads from the anchor to the overlay. -/
structure OntologyDelta.LeadsFrom (delta : OntologyDelta) (anchor face : Face) : Prop where
  axioms : delta.axioms.Fits {n | n ∈ anchor.axioms}
  annotations : delta.annotations.Fits {n | n ∈ anchor.annotations}
  apply_axioms : delta.axioms.apply {n | n ∈ anchor.axioms} = {n | n ∈ face.axioms}
  apply_annotations : delta.annotations.apply {n | n ∈ anchor.annotations} = {n | n ∈ face.annotations}

structure Collapses (hash : Hash) (view : View) : Prop where
  anchor : view.anchor.Layered hash
  cumulative : ∀ c ∈ (view.face hash).cumulative, c.LeadsFrom (view.anchor.face hash) (view.face hash)
  bare : (view.face hash).cumulative = none → view.anchor = view

theorem View.Layered.collapses {view : View} (h : view.Layered hash) : Collapses hash view := by
  induction h with
  | snapshot value => exact ⟨.snapshot value, by simp [Face.ofSnapshot], fun _ => rfl⟩
  | composite layered axioms annotations ih =>
    exact ⟨.composite layered axioms annotations, by simp [Face.composite], fun _ => rfl⟩
  | @overlay base delta layered axioms annotations ih =>
    have hexposes : ((View.overlay base delta).face hash).Exposes _ _ := layered.sound.exposes.overlay hash axioms
    have haxioms : delta.axioms.apply {n | n ∈ (base.face hash).axioms} =
        {n | n ∈ ((View.overlay base delta).face hash).axioms} :=
      Set.ext fun n => (hexposes.axioms.mem_iff n).symm
    have hannotations : delta.annotations.apply {n | n ∈ (base.face hash).annotations} =
        {n | n ∈ ((View.overlay base delta).face hash).annotations} :=
      Set.ext fun n => (hexposes.annotations.mem_iff n).symm
    refine ⟨ih.anchor, fun c hc => ?_, by simp [Face.overlay]⟩
    cases hbase : (base.face hash).cumulative with
    | none =>
      obtain rfl : delta = c := by simpa [Face.overlay, hbase] using hc
      rw [View.anchor_overlay, ih.bare hbase]
      exact ⟨axioms, annotations, haxioms, hannotations⟩
    | some earlier =>
      obtain rfl : combineDeltas earlier delta = c := by simpa [Face.overlay, hbase] using hc
      have hearlier := ih.cumulative earlier hbase
      obtain ⟨hfits, happly⟩ := hearlier.axioms.combine (hearlier.apply_axioms ▸ axioms)
      obtain ⟨hfits', happly'⟩ := hearlier.annotations.combine (hearlier.apply_annotations ▸ annotations)
      rw [View.anchor_overlay]
      refine ⟨hfits, hfits', ?_, ?_⟩
      · exact happly.trans (hearlier.apply_axioms ▸ haxioms)
      · exact happly'.trans (hearlier.apply_annotations ▸ hannotations)

theorem View.Layered.compact (h : (View.overlay base delta).Layered hash) (hview : compact hash limits base delta =
    .ok view) :
    view.Layered hash := by
  rw [OwlCore.compact] at hview
  split at hview
  · exact Except.ok.inj hview ▸ h
  · obtain ⟨-, -, hview⟩ := bind_eq_ok.mp hview
    obtain ⟨-, -, hview⟩ := bind_eq_ok.mp hview
    have hcollapses := h.collapses
    obtain ⟨c, hc⟩ : ∃ c, ((View.overlay base delta).face hash).cumulative = some c := ⟨_, rfl⟩
    have hleads := hcollapses.cumulative c hc
    rw [hc, Option.getD_some] at hview
    rw [← Except.ok.inj hview]
    exact .overlay hcollapses.anchor hleads.axioms hleads.annotations

/-- The views that `apply_delta`, `compact` and `compose_views` build from snapshots. -/
inductive View.Assembled (hash : Hash) : View → Prop where
  | snapshot (value : Snapshot) : Assembled hash (.snapshot value)
  | applied {limits : ParseLimits} {base view : View} {requested : OntologyDelta} (base_assembled : Assembled hash base)
      (step : applyDelta hash limits base requested = .ok view) : Assembled hash view
  | compacted {limits : ParseLimits} {base view : View} {delta : OntologyDelta}
      (overlay_assembled : Assembled hash (.overlay base delta))
      (step : compact hash limits base delta = .ok view) : Assembled hash view
  | composed {limits : ParseLimits} {views : List View} {view : View} {requested : OntologyDelta}
      (members_assembled : ∀ v ∈ views, Assembled hash v)
      (step : composeViews hash limits views requested = .ok view) : Assembled hash view

theorem View.Assembled.layered {view : View} (h : view.Assembled hash) : view.Layered hash := by
  induction h with
  | snapshot value => exact .snapshot value
  | applied _ step ih => exact ih.applyDelta step
  | compacted _ step ih => exact ih.compact step
  | composed _ step ih => exact View.Layered.composeViews ih step

end

section

variable {hash : Hash} {limits : ParseLimits} {views : List View} {view : View} {requested : OntologyDelta}

/-- The union of what the sources hold, moved into the scopes of the composition. -/
def rescopedValues (hash : Hash) (sources : List Face) (values : Face → List Node) : Set Node :=
  {n | ∃ i source, sources[i]? = some source ∧
    ∃ r ∈ values source, scopeValue hash (sources.map Face.sourceScopes) i r = n}

theorem memberLists_eq_rescopedValues (sources : List Face) (values : Face → List Node) :
    {n | n ∈ (Face.memberLists hash sources values).flatten} = rescopedValues hash sources values :=
  Set.ext fun _ => mem_memberLists

theorem memberAnnotations_eq_rescopedValues (sources : List Face) :
    {n | n ∈ Face.memberAnnotations hash sources} = rescopedValues hash sources Face.annotations :=
  Set.ext fun _ => mem_memberAnnotations

theorem apply_validateBridge (hsound : ∀ face ∈ sources, face.Sound) (h : validateBridge hash sources requested = .ok
    effective) :
    effective.axioms.apply (rescopedValues hash sources Face.axioms) =
        requested.axioms.apply (rescopedValues hash sources Face.axioms) ∧
      effective.annotations.apply (rescopedValues hash sources Face.annotations) =
        requested.annotations.apply (rescopedValues hash sources Face.annotations) := by
  rcases validateBridge_ok h with ⟨-, rfl⟩ | rfl
  · exact ⟨rfl, rfl⟩
  · rw [← memberLists_eq_rescopedValues, ← memberAnnotations_eq_rescopedValues]
    have hannotations : Enumerates _ {n | n ∈ Face.memberAnnotations hash sources} :=
      enumerates_ofList (canonical_memberAnnotations hsound)
    exact ⟨Patch.apply_reduce fun n hn => baseContains_iff hsound hn,
      Patch.apply_reduce fun n hn => hannotations.contains_iff hn⟩

/-- The face of a composition: the moved values of its sources under the requested bridge. -/
structure ExactComposite (hash : Hash) (sources : List Face) (requested : OntologyDelta) (view : View) : Prop where
  axioms : Enumerates (iterAxioms hash none view)
    (requested.axioms.apply (rescopedValues hash sources Face.axioms))
  extensions : Enumerates (view.face hash).extensions (rescopedValues hash sources Face.extensions)
  annotations : Enumerates (view.face hash).annotations
    (requested.annotations.apply (rescopedValues hash sources Face.annotations))
  contains : ∀ n, Constructible n → ((view.face hash).contains n = true ↔ n ∈ iterAxioms hash none view)
  typed : ∀ c, iterAxioms hash (some c) view = (iterAxioms hash none view).filter fun value => value.constructor = c

/-- Every accepted composition enumerates exactly the moved values of its semantic members under its bridge. -/
theorem composeViews_exact (hviews : ∀ v ∈ views, v.Assembled hash)
    (h : composeViews hash limits views requested = .ok view) :
    ExactComposite hash ((views.flatMap View.semanticMembers).map (View.face hash)) requested view := by
  have hlayered : view.Layered hash := View.Layered.composeViews (fun v hv => (hviews v hv).layered) h
  obtain ⟨-, effective, rfl, heffective⟩ := composeViews_ok h
  have hsound : ∀ face ∈ (views.flatMap View.semanticMembers).map (View.face hash), face.Sound := by
    apply sound_faces
    intro v hv
    obtain ⟨argument, hargument, hv⟩ := mem_flatMap.mp hv
    exact (hviews argument hargument).layered.semanticMembers v hv
  have hexposes : (Face.composite hash _ effective).Exposes _ _ := exposes_composite hsound effective
  obtain ⟨haxioms, hannotations⟩ := apply_validateBridge hsound heffective
  rw [memberLists_eq_rescopedValues, haxioms, memberAnnotations_eq_rescopedValues, hannotations] at hexposes
  have hiter : iterAxioms hash none _ = _ := iterAxioms_eq hlayered
  rw [View.face_composite] at hiter
  have hextensions : Enumerates (Face.compositeExtensions hash _) _ := enumerates_compositeExtensions hsound
  rw [memberLists_eq_rescopedValues] at hextensions
  constructor
  · rw [hiter]
    exact hexposes.axioms
  · rw [View.face_composite]
    exact hextensions
  · rw [View.face_composite]
    exact hexposes.annotations
  · intro n hn
    rw [hiter, View.face_composite]
    exact hexposes.self.contains n hn.canonical
  · intro c
    rw [iterAxioms_eq hlayered, iterAxioms_eq hlayered]
    rfl

/-- A snapshot composed with itself under a bridge that replaces its class. -/
theorem composeViews_exact_replaced : ∃ view,
    composeViews sha256 defaultLimits [.snapshot oneClass, .snapshot oneClass] replaceClass = .ok view ∧
      ExactComposite sha256 [.ofSnapshot sha256 oneClass, .ofSnapshot sha256 oneClass] replaceClass view := by
  obtain ⟨view, hview⟩ := exists_of_isOk
    (show (composeViews sha256 defaultLimits [.snapshot oneClass, .snapshot oneClass] replaceClass).isOk by
      decide +kernel)
  exact ⟨view, hview, composeViews_exact (by simpa using View.Assembled.snapshot oneClass) hview⟩

end

end OwlCore
