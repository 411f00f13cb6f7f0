import OwlCore.View.Overlay

/-!
# Composed views

A composite enumerates the rescoped values of its sources under the bridge delta, in canonical
order. `Layered` collects the views whose deltas were validated against the view below,
`Face.Sound` what holds of their faces.
-/
namespace OwlCore

open Face KeyedSet List Node

section

variable {hash : Hash} {sources : List SourceScopes} {index : Nat}

theorem moveAnonymous_eq_self (h : newScope hash sources index a.documentScope = a.documentScope) :
    moveAnonymous hash sources index a = a := by
  rw [moveAnonymous, h]

theorem scopeValue_eq_self (hn : n.Canonical) (h : ∀ a ∈ n.anonymousValues, newScope hash sources index
    a.documentScope = a.documentScope) :
    scopeValue hash sources index n = n :=
  mapAnonymous_eq_self hn fun a ha => moveAnonymous_eq_self (h a ha)

theorem canonical_scopeValue (hn : n.Canonical) : (scopeValue hash sources index n).Canonical :=
  canonical_mapAnonymous hn

theorem mem_anonymousValues_scopeValue (hn : n.Canonical) :
    a ∈ (scopeValue hash sources index n).anonymousValues ↔
      ∃ b ∈ n.anonymousValues, moveAnonymous hash sources index b = a :=
  mem_anonymousValues_mapAnonymous hn

theorem newScope_eq_self (h : reordered hash sources index = false) (hsource : sources[index]? = some source) (hscope
    : ∀ scopes ∈ source.scopes, scope ∈ scopes) :
    newScope hash sources index scope = scope := by
  unfold reordered at h
  unfold newScope
  split at h
  · rename_i lineages hlineages
    have hnone : scopeReplacement (scopeAssignments hash lineages) index scope = none := by
      rw [scopeReplacement, Option.map_eq_none_iff, find?_eq_none]
      intro row hrow hmatch
      rw [any_eq_false] at h
      have hrow' := h row (mem_reverse.mp hrow)
      simp only [decide_eq_true_eq] at hrow' hmatch
      exact hrow' hmatch.1
    rw [hnone, Option.getD_none]
  · apply if_neg
    rw [hsource, Option.bind_some] at h
    split at h
    · rw [Bool.not_eq_false', List.isEmpty_iff] at h
      simp [h]
    · rename_i scopes hscopes
      rw [any_eq_false] at h
      simpa using h scope (hscope scopes hscopes)

theorem memberValues_perm (values : List Node) :
    (memberValues hash sources index values).Perm (values.map (scopeValue hash sources index)) := by
  unfold memberValues
  split
  · exact perm_insertionSort _ _
  · exact .refl _

theorem sorted_memberValues (hsource : sources[index]? = some source) (hvalues : Ascending Node.bytes values)
    (hcanonical : ∀ n ∈ values, n.Canonical) (hscopes : ∀ scopes ∈ source.scopes, ∀ n ∈ values, ∀ a ∈
    n.anonymousValues, a.documentScope ∈ scopes) :
    Sorted Node.bytes (memberValues hash sources index values) := by
  unfold memberValues
  split
  · exact pairwise_insertionSort _ _
  · rename_i hkept
    have hself : values.map (scopeValue hash sources index) = values := by
      conv_rhs => rw [← map_id values]
      apply map_congr_left
      intro n hn
      exact scopeValue_eq_self (hcanonical n hn) fun a ha =>
        newScope_eq_self (by simpa using hkept) hsource fun scopes hs => hscopes scopes hs n hn a ha
    rw [hself]
    exact hvalues.sorted

end

structure Face.Sound (face : Face) : Prop where
  exposes : face.Exposes {n | n ∈ face.axioms} {n | n ∈ face.annotations}
  extensions : Enumerates face.extensions {n | n ∈ face.extensions}
  scopes : ∀ scopes ∈ face.scopes, ∀ n ∈ face.roots, ∀ a ∈ n.anonymousValues, a.documentScope ∈ scopes
  lineage : face.lineage.isSome = face.scopes.isSome
  lineage_current : ∀ rows ∈ face.lineage, ∀ scopes ∈ face.scopes, ∀ scope,
    scope ∈ scopes ↔ ∃ row ∈ rows, row.current = scope

/-- The views whose effective deltas change exactly what they name in the view below. -/
inductive View.Layered (hash : Hash) : View → Prop where
  | snapshot (value : Snapshot) : Layered hash (.snapshot value)
  | overlay {base : View} {delta : OntologyDelta} (layered : Layered hash base)
      (axioms : delta.axioms.Fits {n | n ∈ (base.face hash).axioms})
      (annotations : delta.annotations.Fits {n | n ∈ (base.face hash).annotations}) :
      Layered hash (.overlay base delta)
  | composite {sources : List View} {delta : OntologyDelta} (layered : ∀ v ∈ sources, Layered hash v)
      (axioms : delta.axioms.Fits {n | n ∈ (Face.memberLists hash (sources.map (View.face hash)) Face.axioms).flatten})
      (annotations : delta.annotations.Fits
        {n | n ∈ Face.memberAnnotations hash (sources.map (View.face hash))}) :
      Layered hash (.composite sources delta)

namespace Face

variable {hash : Hash} {face : Face}

theorem mem_roots : n ∈ face.roots ↔ n ∈ face.annotations ∨ n ∈ face.axioms ∨ n ∈ face.extensions := by
  simp [roots]

theorem Sound.canonical (h : face.Sound) : ∀ n ∈ face.roots, n.Canonical := by
  intro n hn
  rcases mem_roots.mp hn with hn | hn | hn
  · exact h.exposes.annotations.canonical n hn
  · exact h.exposes.axioms.canonical n hn
  · exact h.extensions.canonical n hn

theorem mem_scopesOf :
    scope ∈ scopesOf values ↔ ∃ n ∈ values, ∃ a ∈ n.anonymousValues, a.documentScope = scope := by
  rw [scopesOf, mem_ofList fun _ _ _ _ h => Scope.octets_injective h]
  simp only [mem_map, mem_flatMap]
  constructor
  · rintro ⟨a, ⟨n, hn, ha⟩, rfl⟩
    exact ⟨n, hn, a, ha, rfl⟩
  · rintro ⟨n, hn, a, ha, rfl⟩
    exact ⟨a, ⟨n, hn, ha⟩, rfl⟩

theorem exists_ownLineage {scopes : List Scope} {structural : Fingerprint} {scope : Scope} :
    scope ∈ scopes ↔ ∃ row ∈ ownLineage scopes structural, row.current = scope := by
  simp [ownLineage]

theorem sound_ofSnapshot (s : Snapshot) : (Face.ofSnapshot hash s).Sound where
  exposes := exposes_ofSnapshot hash s
  extensions := s.extensions.enumerates
  scopes := by
    intro scopes hscopes n hn a ha
    rw [← Option.some.inj hscopes]
    exact mem_scopesOf.mpr ⟨n, hn, a, ha, rfl⟩
  lineage := rfl
  lineage_current := by
    intro rows hrows scopes hscopes scope
    rw [← Option.some.inj hrows, ← Option.some.inj hscopes]
    exact exists_ownLineage

theorem notMem_of_changesAnonymous (h : changesAnonymous delta = false) (hn : n ∈ delta.axioms.add ∨ n ∈
    delta.annotations.add) : n.anonymousValues = [] := by
  rw [changesAnonymous, any_eq_false] at h
  have hkeep := h n (by
    simp only [mem_append, CanonicalSet.mem_items]
    tauto)
  simpa [holdsAnonymous] using hkeep

theorem Sound.overlay (h : base.Sound) (hfits : delta.axioms.Fits {n | n ∈ base.axioms}) :
    (Face.overlay hash base delta).Sound := by
  have hexposes : (Face.overlay hash base delta).Exposes _ _ := h.exposes.overlay hash hfits
  have haxioms : {n | n ∈ (Face.overlay hash base delta).axioms} = delta.axioms.apply {n | n ∈ base.axioms} :=
    Set.ext hexposes.axioms.mem_iff
  have hannotations : {n | n ∈ (Face.overlay hash base delta).annotations} =
      delta.annotations.apply {n | n ∈ base.annotations} := Set.ext hexposes.annotations.mem_iff
  refine ⟨hexposes.self, h.extensions, ?_, ?_, ?_⟩
  · intro scopes hscopes n hn a ha
    simp only [Face.overlay, Option.mem_def, Option.ite_none_left_eq_some] at hscopes
    have hnone : ∀ {n : Node}, n ∈ delta.axioms.add ∨ n ∈ delta.annotations.add → n.anonymousValues = [] :=
      notMem_of_changesAnonymous (by simpa using hscopes.1)
    have hbase : n ∈ base.roots := by
      rcases mem_roots.mp hn with hn | hn | hn
      · rcases (Set.ext_iff.mp hannotations n).mp hn with hadd | ⟨hn, -⟩
        · rw [hnone (.inr hadd)] at ha
          cases ha
        · exact mem_roots.mpr (.inl hn)
      · rcases (Set.ext_iff.mp haxioms n).mp hn with hadd | ⟨hn, -⟩
        · rw [hnone (.inl hadd)] at ha
          cases ha
        · exact mem_roots.mpr (.inr (.inl hn))
      · exact mem_roots.mpr (.inr (.inr hn))
    exact h.scopes scopes hscopes.2 n hbase a ha
  · simp [Face.overlay]
  · intro rows hrows scopes hscopes scope
    simp only [Face.overlay, Option.mem_def] at hrows hscopes
    rw [hscopes, Option.map_some] at hrows
    rw [← Option.some.inj hrows]
    exact exists_ownLineage

section

variable {sources : List Face} {values : Face → List Node}

theorem getElem?_sourceScopes {i : Nat} {source : Face} (h : sources[i]? = some source) :
    (sources.map sourceScopes)[i]? = some source.sourceScopes := by
  rw [getElem?_map, h, Option.map_some]

variable {n : Node}

theorem mem_memberLists : n ∈ (memberLists hash sources values).flatten ↔ ∃ i source, sources[i]? = some source ∧
      ∃ r ∈ values source, scopeValue hash (sources.map sourceScopes) i r = n := by
  simp only [memberLists, mem_flatten, mem_map, Prod.exists, mem_zipIdx_iff_getElem?]
  constructor
  · rintro ⟨_, ⟨source, i, hsource, rfl⟩, hn⟩
    exact ⟨i, source, hsource, mem_map.mp ((memberValues_perm (values source)).mem_iff.mp hn)⟩
  · rintro ⟨i, source, hsource, hn⟩
    exact ⟨_, ⟨source, i, hsource, rfl⟩, (memberValues_perm (values source)).mem_iff.mpr (mem_map.mpr hn)⟩

theorem mem_memberAnnotations : n ∈ memberAnnotations hash sources ↔ ∃ i source, sources[i]? = some source ∧
      ∃ r ∈ source.annotations, scopeValue hash (sources.map sourceScopes) i r = n := by
  simp only [memberAnnotations, mem_flatMap, mem_map, Prod.exists, mem_zipIdx_iff_getElem?]
  constructor
  · rintro ⟨source, i, hsource, hn⟩
    exact ⟨i, source, hsource, hn⟩
  · rintro ⟨i, source, hsource, hn⟩
    exact ⟨source, i, hsource, hn⟩

theorem compositeLineage_eq_some (h : compositeLineage hash sources delta = some rows) :
    changesAnonymous delta = false ∧
      (∀ source ∈ sources, ∃ earlier, source.lineage = some earlier) ∧
      ∀ row, row ∈ rows ↔ ∃ (i : Nat) (source : Face), sources[i]? = some source ∧
        ∃ earlier, source.lineage = some earlier ∧ ∃ r ∈ earlier,
          row = ⟨newScope hash (sources.map sourceScopes) i r.current, r.original, r.leaf⟩ := by
  simp only [compositeLineage, Option.ite_none_left_eq_some, Option.map_eq_some_iff] at h
  obtain ⟨hdelta, lineages, hlineages, rfl⟩ := h
  refine ⟨by simpa using hdelta, fun source => Fallible.exists_of_mapM_eq_some hlineages, fun row => ?_⟩
  simp only [mem_flatMap, mem_map, Prod.exists, mem_zipIdx_iff_getElem?,
    Fallible.getElem?_of_mapM_eq_some hlineages, Option.bind_eq_some_iff]
  constructor
  · rintro ⟨earlier, i, ⟨source, hsource, hearlier⟩, r, hr, rfl⟩
    exact ⟨i, source, hsource, earlier, hearlier, r, hr, rfl⟩
  · rintro ⟨i, source, hsource, earlier, hearlier, r, hr, rfl⟩
    exact ⟨earlier, i, ⟨source, hsource, hearlier⟩, r, hr, rfl⟩

variable (hsources : ∀ source ∈ sources, source.Sound)

include hsources

theorem sorted_memberLists (hvalues : ∀ source ∈ sources, Ascending Node.bytes (values source))
    (hroots : ∀ source, ∀ n ∈ values source, n ∈ source.roots) :
    ∀ l ∈ memberLists hash sources values, Sorted Node.bytes l := by
  intro l hl
  simp only [memberLists, mem_map, Prod.exists, mem_zipIdx_iff_getElem?] at hl
  obtain ⟨source, i, hsource, rfl⟩ := hl
  have hmem := mem_of_getElem? hsource
  have hsound := hsources source hmem
  apply sorted_memberValues (getElem?_sourceScopes hsource) (hvalues source hmem)
  · exact fun n hn => hsound.canonical n (hroots source n hn)
  · exact fun scopes hscopes n hn => hsound.scopes scopes hscopes n (hroots source n hn)

theorem canonical_memberLists (hroots : ∀ source, ∀ n ∈ values source, n ∈ source.roots) :
    ∀ n ∈ (memberLists hash sources values).flatten, n.Canonical := by
  intro n hn
  obtain ⟨i, source, hsource, r, hr, rfl⟩ := mem_memberLists.mp hn
  exact canonical_scopeValue ((hsources source (mem_of_getElem? hsource)).canonical r (hroots source r hr))

theorem canonical_memberAnnotations : ∀ n ∈ memberAnnotations hash sources, n.Canonical := by
  intro n hn
  obtain ⟨i, source, hsource, r, hr, rfl⟩ := mem_memberAnnotations.mp hn
  exact canonical_scopeValue
    ((hsources source (mem_of_getElem? hsource)).exposes.annotations.canonical r hr)

theorem enumerates_memberLists (hvalues : ∀ source ∈ sources, Ascending Node.bytes (values source))
    (hroots : ∀ source, ∀ n ∈ values source, n ∈ source.roots) :
    Enumerates (KeyedSet.merge Node.bytes (fun _ => false) (memberLists hash sources values))
      {n | n ∈ (memberLists hash sources values).flatten} := by
  have hsorted : ∀ l ∈ memberLists hash sources values, Sorted Node.bytes l :=
    sorted_memberLists hsources hvalues hroots
  have hcanonical : ∀ n ∈ (memberLists hash sources values).flatten, n.Canonical :=
    canonical_memberLists hsources hroots
  have hmem := mem_merge (fun _ => false) hsorted (keyInjOn_canonical hcanonical)
  refine ⟨ascending_merge _ hsorted (keyInjOn_canonical hcanonical), fun n hn => ?_, fun n => ?_⟩
  · exact hcanonical n ((hmem n).mp hn).1
  · simpa using hmem n

theorem enumerates_baseAxioms : Enumerates (baseAxioms hash sources)
    {n | n ∈ (memberLists hash sources Face.axioms).flatten} :=
  enumerates_memberLists hsources (fun source h => (hsources source h).exposes.axioms.ascending)
    fun _ _ hn => mem_roots.mpr (.inr (.inl hn))

/-- A value without anonymous individuals belongs to the composition iff it belongs to a source. -/
theorem baseContains_iff (hn : n.Canonical) :
    baseContains hash sources n = true ↔ n ∈ (memberLists hash sources Face.axioms).flatten := by
  unfold baseContains
  split
  · rw [any_eq_true]
    simp only [decide_eq_true_eq, exists_eq_right]
    exact (enumerates_baseAxioms hsources).mem_iff n
  · rename_i hnone
    have hnone : n.anonymousValues = [] := by simpa [holdsAnonymous] using hnone
    rw [any_eq_true, mem_memberLists]
    constructor
    · rintro ⟨source, hsource, hcontains⟩
      obtain ⟨i, hi⟩ := getElem?_of_mem hsource
      refine ⟨i, source, hi, n, ((hsources source hsource).exposes.contains n hn).mp hcontains, ?_⟩
      exact scopeValue_eq_self hn (by simp [hnone])
    · rintro ⟨i, source, hi, r, hr, rfl⟩
      have hsource := mem_of_getElem? hi
      have hcanonical := (hsources source hsource).exposes.axioms.canonical r hr
      have hr' : ∀ a, a ∉ r.anonymousValues := by
        intro a ha
        have hmoved : moveAnonymous hash (sources.map sourceScopes) i a ∈ _ :=
          (mem_anonymousValues_scopeValue hcanonical).mpr ⟨a, ha, rfl⟩
        rw [hnone] at hmoved
        cases hmoved
      rw [scopeValue_eq_self hcanonical fun a ha => absurd ha (hr' a)]
      exact ⟨source, hsource, ((hsources source hsource).exposes.contains r hcanonical).mpr hr⟩

theorem exposes_composite (delta : OntologyDelta) : (Face.composite hash sources delta).Exposes
    (delta.axioms.apply {n | n ∈ (memberLists hash sources Face.axioms).flatten})
    (delta.annotations.apply {n | n ∈ memberAnnotations hash sources}) where
  axioms := enumerates_merge
    (sorted_memberLists hsources (fun source h => (hsources source h).exposes.axioms.ascending)
      fun _ _ hn => mem_roots.mpr (.inr (.inl hn)))
    (canonical_memberLists hsources fun _ _ hn => mem_roots.mpr (.inr (.inl hn)))
  annotations := enumerates_overlayAnnotations (canonical_memberAnnotations hsources)
  contains := by
    intro n hn
    simp only [Face.composite, Bool.or_eq_true, Bool.and_eq_true, Bool.not_eq_true', ← Bool.not_eq_true,
      CanonicalSet.contains_iff hn, baseContains_iff hsources hn, Patch.apply, Set.mem_ofPred_eq]
    tauto
  count := rfl

theorem enumerates_compositeExtensions : Enumerates (compositeExtensions hash sources)
    {n | n ∈ (memberLists hash sources Face.extensions).flatten} :=
  enumerates_memberLists hsources (fun source h => (hsources source h).extensions.ascending)
    fun _ _ hn => mem_roots.mpr (.inr (.inr hn))

/-- A root of a composite is an addition of the bridge or the moved root of a source. -/
theorem exists_source_root (hn : n ∈ (Face.composite hash sources delta).roots) :
    (n ∈ delta.axioms.add ∨ n ∈ delta.annotations.add) ∨ ∃ i source, sources[i]? = some source ∧
      ∃ r ∈ source.roots, scopeValue hash (sources.map sourceScopes) i r = n := by
  have hexposes : (Face.composite hash sources delta).Exposes _ _ := exposes_composite hsources delta
  rcases mem_roots.mp hn with hn | hn | hn
  · rcases (hexposes.annotations.mem_iff n).mp hn with hadd | ⟨hn, -⟩
    · exact .inl (.inr hadd)
    · obtain ⟨i, source, hi, r, hr, hmoved⟩ := mem_memberAnnotations.mp hn
      exact .inr ⟨i, source, hi, r, mem_roots.mpr (.inl hr), hmoved⟩
  · rcases (hexposes.axioms.mem_iff n).mp hn with hadd | ⟨hn, -⟩
    · exact .inl (.inl hadd)
    · obtain ⟨i, source, hi, r, hr, hmoved⟩ := mem_memberLists.mp hn
      exact .inr ⟨i, source, hi, r, mem_roots.mpr (.inr (.inl hr)), hmoved⟩
  · obtain ⟨i, source, hi, r, hr, hmoved⟩ :=
      mem_memberLists.mp (((enumerates_compositeExtensions hsources).mem_iff n).mp hn)
    exact .inr ⟨i, source, hi, r, mem_roots.mpr (.inr (.inr hr)), hmoved⟩

theorem Sound.composite (delta : OntologyDelta) : (Face.composite hash sources delta).Sound := by
  have hexposes : (Face.composite hash sources delta).Exposes _ _ := exposes_composite hsources delta
  have hextensions : Enumerates (compositeExtensions hash sources) _ := enumerates_compositeExtensions hsources
  refine ⟨?_, ?_, ?_, ?_, ?_⟩
  · exact hexposes.self
  · exact hextensions.self
  · intro scopes hscopes n hn a ha
    obtain ⟨rows, hrows, rfl⟩ := Option.map_eq_some_iff.mp (Option.mem_def.mp hscopes)
    obtain ⟨hdelta, hlineages, hmem⟩ := compositeLineage_eq_some hrows
    rw [mem_ofList fun _ _ _ _ h => Scope.octets_injective h, mem_map]
    rcases exists_source_root hsources hn with hadd | ⟨i, source, hi, r, hr, rfl⟩
    · rw [notMem_of_changesAnonymous hdelta hadd] at ha
      cases ha
    · have hsource := mem_of_getElem? hi
      have hsound := hsources source hsource
      obtain ⟨b, hb, rfl⟩ := (mem_anonymousValues_scopeValue (hsound.canonical r hr)).mp ha
      obtain ⟨earlier, hearlier⟩ := hlineages source hsource
      obtain ⟨own, hown⟩ : ∃ own, source.scopes = some own := by
        rw [← Option.isSome_iff_exists, ← hsound.lineage, hearlier, Option.isSome_some]
      obtain ⟨row, hrow, hcurrent⟩ := (hsound.lineage_current earlier hearlier own hown b.documentScope).mp
        (hsound.scopes own hown r hr b hb)
      refine ⟨_, (hmem _).mpr ⟨i, source, hi, earlier, hearlier, row, hrow, rfl⟩, ?_⟩
      rw [hcurrent]
      rfl
  · simp [Face.composite]
  · intro rows hrows scopes hscopes scope
    obtain ⟨rows', hrows', rfl⟩ := Option.map_eq_some_iff.mp (Option.mem_def.mp hscopes)
    obtain rfl : rows' = rows := Option.some.inj (hrows'.symm.trans hrows)
    rw [mem_ofList fun _ _ _ _ h => Scope.octets_injective h, mem_map]

end

end Face

theorem View.Layered.sound {hash : Hash} {view : View} (h : view.Layered hash) : (view.face hash).Sound := by
  induction h with
  | snapshot value => exact sound_ofSnapshot value
  | overlay layered axioms annotations ih => exact ih.overlay axioms
  | composite layered axioms annotations ih =>
    rw [View.face_composite]
    refine Face.Sound.composite (fun source hsource => ?_) _
    obtain ⟨view, hview, rfl⟩ := mem_map.mp hsource
    exact ih view hview

theorem sound_faces {hash : Hash} {sources : List View} (h : ∀ v ∈ sources, v.Layered hash) :
    ∀ face ∈ sources.map (View.face hash), face.Sound := by
  intro face hface
  obtain ⟨v, hv, rfl⟩ := mem_map.mp hface
  exact (h v hv).sound

/-- What holds of constructed values and is kept by moving holds of all roots. -/
theorem View.Layered.forall_roots {hash : Hash} {view : View} {P : Node → Prop} (h : view.Layered hash)
    (hbuilt : ∀ n, Constructible n → P n) (hmoved : ∀ n f, n.Canonical → P n → P (n.mapAnonymous f)) :
    ∀ n ∈ (view.face hash).roots, P n := by
  induction h with
  | snapshot value =>
    intro n hn
    rcases mem_roots.mp hn with hn | hn | hn
    · exact hbuilt n (value.annotations.constructible n hn)
    · exact hbuilt n (value.axioms.constructible n hn)
    · exact hbuilt n (value.extensions.constructible n hn)
  | @overlay base delta layered axioms annotations ih =>
    have hexposes : ((View.overlay base delta).face hash).Exposes _ _ := layered.sound.exposes.overlay hash axioms
    intro n hn
    rcases mem_roots.mp hn with hn | hn | hn
    · rcases (hexposes.annotations.mem_iff n).mp hn with hadd | ⟨hn, -⟩
      · exact hbuilt n (delta.annotations.add.constructible n hadd)
      · exact ih n (mem_roots.mpr (.inl hn))
    · rcases (hexposes.axioms.mem_iff n).mp hn with hadd | ⟨hn, -⟩
      · exact hbuilt n (delta.axioms.add.constructible n hadd)
      · exact ih n (mem_roots.mpr (.inr (.inl hn)))
    · exact ih n (mem_roots.mpr (.inr (.inr hn)))
  | @composite sources delta layered axioms annotations ih =>
    have hsound : ∀ source ∈ sources.map (View.face hash), source.Sound := by
      intro source hsource
      obtain ⟨v, hv, rfl⟩ := mem_map.mp hsource
      exact (layered v hv).sound
    intro n hn
    rw [View.face_composite] at hn
    rcases exists_source_root hsound hn with (hadd | hadd) | ⟨i, source, hi, r, hr, rfl⟩
    · exact hbuilt n (delta.axioms.add.constructible n hadd)
    · exact hbuilt n (delta.annotations.add.constructible n hadd)
    · obtain ⟨v, hv, rfl⟩ := mem_map.mp (mem_of_getElem? hi)
      exact hmoved r _ ((layered v hv).sound.canonical r hr) (ih v hv r hr)

end OwlCore
