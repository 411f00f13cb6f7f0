import OwlCore.Anonymous.Graph
import OwlCore.Model.Replace
import OwlCore.View.Basic

/-!
# Runs of overlays over a snapshot

`apply_delta` and `compact` as steps on views. Every reached view enumerates what the requested
removals and additions make of the snapshot, and its cumulative delta is the difference from the
anchor.
-/
namespace OwlCore

open CanonicalSet Fallible KeyedSet List Patch

/-- One loop of `validate_delta`: under the strict policy an entry without effect is an error. -/
def rejectNoOps (policy : DeltaPolicy) (message : String) (noOp : Node → Bool) (items : List Node) :
    Except Error Unit :=
  if policy = .strict ∧ items.any noOp = true then .error (.deltaError message) else .ok ()

/-- The entries of a patch that change a view in which `present` holds of the members. -/
def Patch.reduce (patch : Patch) (present : Node → Bool) : Patch where
  add := .ofValues (patch.add.items.filter fun item => !present item)
    fun n hn => patch.add.constructible n (mem_of_mem_filter hn)
  remove := .ofValues (patch.remove.items.filter present)
    fun n hn => patch.remove.constructible n (mem_of_mem_filter hn)
  disjoint := by
    intro n hadd hremove
    simp only [mem_ofValues, mem_filter] at hadd hremove
    exact patch.disjoint n hadd.1 hremove.1

def validatePatch (policy : DeltaPolicy) (addExists removeAbsent : String) (present : Node → Bool)
    (patch : Patch) : Except Error Patch := do
  rejectNoOps policy addExists present patch.add.items
  rejectNoOps policy removeAbsent (fun item => !present item) patch.remove.items
  .ok (patch.reduce present)

/-- `validate_delta`, without the entries it reports as having no effect. -/
def validateDelta (base : Face) (requested : OntologyDelta) : Except Error OntologyDelta := do
  if requested.expectedBaseFingerprint.any (· ≠ base.fingerprints.structural) then
    .error (.deltaBaseMismatch "delta expected-base fingerprint does not match the supplied view")
  else
    let axioms ← validatePatch requested.policy "delta adds an existing axiom"
      "delta removes an absent axiom" base.contains requested.axioms
    let annotations ← validatePatch requested.policy "delta adds an existing ontology annotation"
      "delta removes an absent ontology annotation"
      (fun item => KeyedSet.contains Node.bytes base.annotations item.bytes) requested.annotations
    .ok (.ofPatches axioms annotations)

section

variable (hash : Hash) (limits : ParseLimits)

/-- `apply_delta`: `OntologyOverlay(base, requested)`. -/
def applyDelta (base : View) (requested : OntologyDelta) : Except Error View := do
  enforceLimit "max_delta_entries" requested.entryCount limits.maxDeltaEntries
  let effective ← validateDelta (base.face hash) requested
  let overlay := (View.overlay base effective).face hash
  enforceLimit "max_overlay_depth" overlay.depth limits.maxOverlayDepth
  enforceLimit "max_delta_entries" ((overlay.cumulative.map OntologyDelta.entryCount).getD 0)
    limits.maxDeltaEntries
  .ok (.overlay base effective)

def View.anchor : View → View
  | .overlay base _ => base.anchor
  | view => view

/-- `compact` of the overlay of `delta` over `base`. -/
def compact (base : View) (delta : OntologyDelta) : Except Error View := do
  let overlay := (View.overlay base delta).face hash
  if overlay.depth = 1 then .ok (.overlay base delta)
  else
    let cumulative := overlay.cumulative.getD delta
    enforceLimit "max_delta_entries" cumulative.entryCount limits.maxDeltaEntries
    enforceLimit "max_overlay_depth" 1 limits.maxOverlayDepth
    .ok (.overlay base.anchor cumulative)

/-- The views that runs of `apply_delta` and `compact` reach, with the deltas requested so far. -/
inductive OverlayRun (anchor : Snapshot) : List OntologyDelta → View → Prop where
  | start : OverlayRun anchor [] (.snapshot anchor)
  | apply {requests : List OntologyDelta} {base view : View} (requested : OntologyDelta)
      (run : OverlayRun anchor requests base) (step : applyDelta hash limits base requested = .ok view) :
      OverlayRun anchor (requests ++ [requested]) view
  | compact {requests : List OntologyDelta} {base view : View} {delta : OntologyDelta}
      (run : OverlayRun anchor requests (.overlay base delta))
      (step : compact hash limits base delta = .ok view) : OverlayRun anchor requests view

end

/-- The set that a list of requested patches makes of the members of the anchor. -/
def appliedAll (patches : List Patch) (anchor : CanonicalSet) : Set Node :=
  patches.foldl (fun values patch => patch.apply values) {n | n ∈ anchor}

theorem appliedAll_append (patches : List Patch) (patch : Patch) (anchor : CanonicalSet) :
    appliedAll (patches ++ [patch]) anchor = patch.apply (appliedAll patches anchor) := by
  rw [appliedAll, foldl_append]
  rfl

section

variable {values : List Node} {patch : Patch}

structure Enumerates (enumerated : List Node) (values : Set Node) : Prop where
  ascending : Ascending Node.bytes enumerated
  canonical : ∀ n ∈ enumerated, n.Canonical
  mem_iff : ∀ n, n ∈ enumerated ↔ n ∈ values

structure Patch.Fits (patch : Patch) (s : Set Node) : Prop where
  add : ∀ n ∈ patch.add, n ∉ s
  remove : ∀ n ∈ patch.remove, n ∈ s

theorem CanonicalSet.enumerates (s : CanonicalSet) : Enumerates s.items {n | n ∈ s} :=
  ⟨s.ascending, s.canonical, fun _ => Iff.rfl⟩

theorem Enumerates.contains_iff (h : Enumerates values s) (hn : n.Canonical) :
    KeyedSet.contains Node.bytes values n.bytes = true ↔ n ∈ s := by
  rw [KeyedSet.contains_iff h.ascending, ← h.mem_iff]
  constructor
  · rintro ⟨m, hm, heq⟩
    exact Node.bytes_injOn (h.canonical m hm) hn heq ▸ hm
  · exact fun hm => ⟨n, hm, rfl⟩

/-- `canonical_merge` of `document/overlay.py`. The heap holds the head of every iterator that is not
exhausted, ordered by its bytes and the position of its iterator. -/
def canonicalMerge (iterators : List (List Node)) (excluded : Option CanonicalSet) : List Node :=
  KeyedSet.merge Node.bytes (fun value => excluded.any fun set => set.contains value) iterators

theorem Face.overlayAxioms_eq_canonicalMerge (base : List Node) (patch : Patch) :
    Face.overlayAxioms base patch = canonicalMerge [base, patch.add.items] (some patch.remove) := rfl

/-- `canonical_merge` of `index/common.py`, over any values with a key. -/
def indexCanonicalMerge {α : Type} (key : α → Bytes) (iterables : List (List α)) (excluded : Option (α → Bool)) : List α :=
  KeyedSet.merge key (fun value => excluded.any fun test => test value) iterables

/-- Both merges of strictly ascending runs are strictly ascending and hold the union of the runs
without the excluded values. -/
theorem canonicalMerge_exact :
    (∀ (iterators : List (List Node)) (excluded : Option CanonicalSet),
      (∀ run ∈ iterators, Ascending Node.bytes run) → (∀ run ∈ iterators, ∀ n ∈ run, Constructible n) →
      Ascending Node.bytes (canonicalMerge iterators excluded) ∧
        ∀ n, n ∈ canonicalMerge iterators excluded ↔ (∃ run ∈ iterators, n ∈ run) ∧ ∀ set ∈ excluded, n ∉ set) ∧
    ∀ {α : Type} (key : α → Bytes) (iterables : List (List α)) (excluded : Option (α → Bool)),
      (∀ run ∈ iterables, Ascending key run) → KeyInjOn key (fun x => ∃ run ∈ iterables, x ∈ run) →
      Ascending key (indexCanonicalMerge key iterables excluded) ∧
        ∀ x, x ∈ indexCanonicalMerge key iterables excluded ↔
          (∃ run ∈ iterables, x ∈ run) ∧ ∀ test ∈ excluded, test x = false := by
  constructor
  · intro iterators excluded hruns hvalues
    have hsorted : ∀ run ∈ iterators, Sorted Node.bytes run := fun run hrun => (hruns run hrun).sorted
    have hcanonical : ∀ n ∈ iterators.flatten, n.Canonical := by
      intro n hn
      obtain ⟨run, hrun, hn⟩ := mem_flatten.mp hn
      exact (hvalues run hrun n hn).canonical
    have hinj := Node.keyInjOn_canonical hcanonical
    refine ⟨ascending_merge _ hsorted hinj, fun n => ?_⟩
    rw [canonicalMerge, mem_merge _ hsorted hinj, mem_flatten]
    refine and_congr_right fun hn => ?_
    -- a value of the runs is canonical, so that looking up its bytes decides membership
    have hmember := fun set => CanonicalSet.contains_iff (s := set) (hcanonical n (mem_flatten.mpr hn))
    cases excluded with
    | none => simp
    | some set => simp [← hmember]
  · intro α key iterables excluded hruns hinj
    have hsorted : ∀ run ∈ iterables, Sorted key run := fun run hrun => (hruns run hrun).sorted
    simp only [← mem_flatten] at hinj ⊢
    refine ⟨ascending_merge _ hsorted hinj, fun x => ?_⟩
    rw [indexCanonicalMerge, mem_merge _ hsorted hinj]
    cases excluded <;> simp

/-- Merging sorted lists under a patch enumerates what the patch makes of their values. -/
theorem enumerates_merge (hlists : ∀ l ∈ lists, Sorted Node.bytes l) (hcanonical : ∀ n ∈ lists.flatten, n.Canonical) :
    Enumerates (KeyedSet.merge Node.bytes patch.remove.contains (lists ++ [patch.add.items]))
      (patch.apply {n | n ∈ lists.flatten}) := by
  have hflatten : ∀ n, n ∈ (lists ++ [patch.add.items]).flatten ↔ n ∈ lists.flatten ∨ n ∈ patch.add := by
    intro n
    rw [flatten_append, mem_append, flatten_cons, flatten_nil, append_nil, mem_items]
  have hall : ∀ n ∈ (lists ++ [patch.add.items]).flatten, n.Canonical := fun n hn =>
    ((hflatten n).mp hn).elim (hcanonical n) (patch.add.canonical n)
  have hsorted : ∀ l ∈ lists ++ [patch.add.items], Sorted Node.bytes l := by
    intro l hl
    rcases mem_append.mp hl with hl | hl
    · exact hlists l hl
    · exact mem_singleton.mp hl ▸ patch.add.ascending.sorted
  have hinj := Node.keyInjOn_canonical hall
  have hmem := mem_merge patch.remove.contains hsorted hinj
  refine ⟨ascending_merge patch.remove.contains hsorted hinj, fun n hn => ?_, fun n => ?_⟩
  · exact hall n ((hmem n).mp hn).1
  · rw [hmem, hflatten]
    simp only [Patch.apply, Set.mem_ofPred_eq]
    constructor
    · rintro ⟨hn, hremove⟩
      rw [← Bool.not_eq_true, CanonicalSet.contains_iff (hall n ((hflatten n).mpr hn))] at hremove
      exact hn.elim (fun hn => .inr ⟨hn, hremove⟩) .inl
    · intro hn
      have hn' : n.Canonical := hn.elim (patch.add.canonical n) fun hn => hcanonical n hn.1
      rw [← Bool.not_eq_true, CanonicalSet.contains_iff hn']
      rcases hn with hn | ⟨hn, hremove⟩
      · exact ⟨.inr hn, patch.disjoint n hn⟩
      · exact ⟨.inl hn, hremove⟩

theorem Enumerates.overlayAxioms (h : Enumerates values s) :
    Enumerates (Face.overlayAxioms values patch) (patch.apply s) := by
  have hvalues : {n | n ∈ [values].flatten} = s := Set.ext fun n => by simpa using h.mem_iff n
  have hsorted : ∀ l ∈ [values], Sorted Node.bytes l := by simpa using h.ascending.sorted
  rw [← hvalues]
  exact enumerates_merge hsorted (by simpa using h.canonical)

/-- Setting canonical values under a patch enumerates what the patch makes of them. -/
theorem enumerates_overlayAnnotations (h : ∀ n ∈ values, n.Canonical) :
    Enumerates (Face.overlayAnnotations values patch) (patch.apply {n | n ∈ values}) := by
  have hall : ∀ n ∈ (values.filter fun item => !patch.remove.contains item) ++ patch.add.items, n.Canonical := by
    intro n hn
    rcases mem_append.mp hn with hn | hn
    · exact h n (mem_of_mem_filter hn)
    · exact patch.add.canonical n hn
  have hmem := mem_ofList (Node.keyInjOn_canonical hall)
  refine ⟨ascending_ofList _, fun n hn => hall n ((hmem n).mp hn), fun n => ?_⟩
  rw [Face.overlayAnnotations, hmem, mem_append, mem_filter]
  simp only [Patch.apply, Set.mem_ofPred_eq]
  constructor
  · rintro (⟨hn, hremove⟩ | hn)
    · rw [Bool.not_eq_true', ← Bool.not_eq_true, CanonicalSet.contains_iff (h n hn)] at hremove
      exact .inr ⟨hn, hremove⟩
    · exact .inl hn
  · rintro (hn | ⟨hn, hremove⟩)
    · exact .inr hn
    · refine .inl ⟨hn, ?_⟩
      rwa [Bool.not_eq_true', ← Bool.not_eq_true, CanonicalSet.contains_iff (h n hn)]

theorem Enumerates.overlayAnnotations (h : Enumerates values s) :
    Enumerates (Face.overlayAnnotations values patch) (patch.apply s) := by
  have hvalues : {n | n ∈ values} = s := Set.ext h.mem_iff
  rw [← hvalues]
  exact enumerates_overlayAnnotations h.canonical

section

variable {present : Node → Bool} {s : Set Node} (hpresent : ∀ n, n.Canonical → (present n = true ↔ n ∈ s))

include hpresent

theorem Patch.mem_add_reduce (n : Node) : n ∈ (patch.reduce present).add ↔ n ∈ patch.add ∧ n ∉ s := by
  simp only [Patch.reduce, mem_ofValues, mem_filter, Bool.not_eq_true', ← Bool.not_eq_true]
  exact and_congr_right fun hn => not_congr (hpresent n (patch.add.canonical n hn))

theorem Patch.mem_remove_reduce (n : Node) : n ∈ (patch.reduce present).remove ↔ n ∈ patch.remove ∧ n ∈ s := by
  simp only [Patch.reduce, mem_ofValues, mem_filter]
  exact and_congr_right fun hn => hpresent n (patch.remove.canonical n hn)

theorem Patch.apply_reduce : (patch.reduce present).apply s = patch.apply s := by
  ext n
  have hdisjoint := patch.disjoint n
  simp only [Patch.apply, Set.mem_ofPred_eq, mem_add_reduce hpresent, mem_remove_reduce hpresent]
  tauto

theorem Patch.fits_reduce : (patch.reduce present).Fits s :=
  ⟨fun n hn => ((mem_add_reduce hpresent n).mp hn).2, fun n hn => ((mem_remove_reduce hpresent n).mp hn).2⟩

end

end

/-- The cumulative patch of a view: what the view has and the anchor has not, and conversely. -/
structure Patch.IsDifference (patch : Patch) (anchor : CanonicalSet) (s : Set Node) : Prop where
  mem_add : ∀ n, n ∈ patch.add ↔ n ∈ s ∧ n ∉ anchor
  mem_remove : ∀ n, n ∈ patch.remove ↔ n ∈ anchor ∧ n ∉ s

section

variable {first patch : Patch} {anchor : CanonicalSet} {s : Set Node}

theorem Patch.Fits.isDifference (h : patch.Fits {n | n ∈ anchor}) :
    patch.IsDifference anchor (patch.apply {n | n ∈ anchor}) := by
  constructor
  · intro n
    have hadd := h.add n
    simp only [Patch.apply, Set.mem_ofPred_eq] at hadd ⊢
    tauto
  · intro n
    have hremove := h.remove n
    have hdisjoint := patch.disjoint n
    simp only [Patch.apply, Set.mem_ofPred_eq] at hremove ⊢
    tauto

/-- Collapsing a further layer into the cumulative patch keeps it the difference from the anchor. -/
theorem Patch.IsDifference.combine (h : first.IsDifference anchor s) (hfits : patch.Fits s) :
    (first.combine patch).IsDifference anchor (patch.apply s) := by
  constructor
  · intro n
    have hadd := hfits.add n
    have hremove := hfits.remove n
    have hdisjoint := patch.disjoint n
    simp only [mem_add_combine, h.mem_add, h.mem_remove, Patch.apply, Set.mem_ofPred_eq]
    tauto
  · intro n
    have hadd := hfits.add n
    have hremove := hfits.remove n
    have hdisjoint := patch.disjoint n
    simp only [mem_remove_combine, h.mem_add, h.mem_remove, Patch.apply, Set.mem_ofPred_eq]
    tauto

theorem Patch.IsDifference.fits (h : patch.IsDifference anchor s) : patch.Fits {n | n ∈ anchor} :=
  ⟨fun n hn => ((h.mem_add n).mp hn).2, fun n hn => ((h.mem_remove n).mp hn).1⟩

theorem Patch.IsDifference.apply_eq (h : patch.IsDifference anchor s) : patch.apply {n | n ∈ anchor} = s := by
  ext n
  simp only [Patch.apply, Set.mem_ofPred_eq, h.mem_add, h.mem_remove]
  tauto

end

section

variable (hash : Hash)

/-- A view enumerates, answers and counts the given axioms and annotations. -/
structure Face.Exposes (face : Face) (axiomSet annotationSet : Set Node) : Prop where
  axioms : Enumerates face.axioms axiomSet
  annotations : Enumerates face.annotations annotationSet
  contains : ∀ n, n.Canonical → (face.contains n = true ↔ n ∈ axiomSet)
  count : face.effectiveAxiomCount = face.axioms.length

theorem Enumerates.self (h : Enumerates l s) : Enumerates l {n | n ∈ l} :=
  ⟨h.ascending, h.canonical, fun _ => Iff.rfl⟩

theorem Face.Exposes.self {face : Face} (h : face.Exposes axiomSet annotationSet) :
    face.Exposes {n | n ∈ face.axioms} {n | n ∈ face.annotations} where
  axioms := h.axioms.self
  annotations := h.annotations.self
  contains := fun n hn => (h.contains n hn).trans (h.axioms.mem_iff n).symm
  count := h.count

theorem Face.exposes_ofSnapshot (s : Snapshot) :
    (Face.ofSnapshot hash s).Exposes {n | n ∈ s.axioms} {n | n ∈ s.annotations} where
  axioms := s.axioms.enumerates
  annotations := s.annotations.enumerates
  contains := fun _ hn => CanonicalSet.contains_iff hn
  count := rfl

theorem length_overlayAxioms (h : Enumerates values s) (hfits : patch.Fits s) :
    (Face.overlayAxioms values patch).length + patch.remove.items.length =
      values.length + patch.add.items.length := by
  have hnew : Enumerates (Face.overlayAxioms values patch) (patch.apply s) := h.overlayAxioms
  have hperm : (Face.overlayAxioms values patch ++ patch.remove.items).Perm (values ++ patch.add.items) := by
    have hleft : (Face.overlayAxioms values patch ++ patch.remove.items).Nodup := by
      refine List.Nodup.append hnew.ascending.nodup patch.remove.ascending.nodup fun n hn hremove => ?_
      rcases (hnew.mem_iff n).mp hn with hadd | ⟨-, hkept⟩
      · exact patch.disjoint n hadd hremove
      · exact hkept hremove
    have hright : (values ++ patch.add.items).Nodup :=
      List.Nodup.append h.ascending.nodup patch.add.ascending.nodup
        fun n hn hadd => hfits.add n hadd ((h.mem_iff n).mp hn)
    refine (perm_ext_iff_of_nodup hleft hright).mpr fun n => ?_
    have hremove := hfits.remove n
    simp only [mem_append, hnew.mem_iff, h.mem_iff, mem_items, Patch.apply, Set.mem_ofPred_eq]
    tauto
  simpa using hperm.length_eq

theorem Face.Exposes.overlay {axioms annotations : Set Node} (h : base.Exposes axioms annotations) (hfits :
    delta.axioms.Fits axioms) :
    (Face.overlay hash base delta).Exposes (delta.axioms.apply axioms)
      (delta.annotations.apply annotations) where
  axioms := h.axioms.overlayAxioms
  annotations := h.annotations.overlayAnnotations
  contains := by
    intro n hn
    simp only [Face.overlay, Bool.or_eq_true, Bool.and_eq_true, Bool.not_eq_true', ← Bool.not_eq_true,
      CanonicalSet.contains_iff hn, h.contains n hn, Patch.apply, Set.mem_ofPred_eq]
    tauto
  count := by
    have hlength := length_overlayAxioms h.axioms hfits
    simp only [Face.overlay, h.count]
    omega

end

section

variable {hash : Hash} {limits : ParseLimits} {anchor : Snapshot} {requests : List OntologyDelta} {base view : View}

/-- The delta that `validate_delta` leaves of a request. -/
def effectiveDelta (face : Face) (requested : OntologyDelta) : OntologyDelta :=
  .ofPatches (requested.axioms.reduce face.contains)
    (requested.annotations.reduce fun item => KeyedSet.contains Node.bytes face.annotations item.bytes)

theorem validatePatch_ok (h : validatePatch policy addExists removeAbsent present patch = .ok effective) :
    effective = patch.reduce present := by
  obtain ⟨-, -, h⟩ := bind_eq_ok.mp h
  obtain ⟨-, -, h⟩ := bind_eq_ok.mp h
  exact (Except.ok.inj h).symm

variable {requested : OntologyDelta}

theorem validateDelta_ok (h : validateDelta face requested = .ok effective) :
    effective = effectiveDelta face requested := by
  unfold validateDelta at h
  split at h
  · cases h
  · obtain ⟨axioms, haxioms, h⟩ := bind_eq_ok.mp h
    obtain ⟨annotations, hannotations, h⟩ := bind_eq_ok.mp h
    rw [← Except.ok.inj h, validatePatch_ok haxioms, validatePatch_ok hannotations]
    rfl

/-- What a successful `apply_delta` returns. -/
theorem applyDelta_ok (h : applyDelta hash limits base requested = .ok view) :
    view = .overlay base (effectiveDelta (base.face hash) requested) ∧
      ((view.face hash).cumulative.map OntologyDelta.entryCount).getD 0 ≤ limits.maxDeltaEntries := by
  obtain ⟨-, -, h⟩ := bind_eq_ok.mp h
  obtain ⟨effective, heffective, h⟩ := bind_eq_ok.mp h
  obtain ⟨-, -, h⟩ := bind_eq_ok.mp h
  obtain ⟨_, hcount, h⟩ := bind_eq_ok.mp h
  rw [← Except.ok.inj h, ← validateDelta_ok heffective]
  exact ⟨rfl, enforceLimit_ok.mp hcount⟩

structure RunInvariant (hash : Hash) (limits : ParseLimits) (anchor : Snapshot)
    (requests : List OntologyDelta) (view : View) : Prop where
  anchor_eq : view.anchor = .snapshot anchor
  exposes : (view.face hash).Exposes (appliedAll (requests.map OntologyDelta.axioms) anchor.axioms)
    (appliedAll (requests.map OntologyDelta.annotations) anchor.annotations)
  cumulative : ∀ c ∈ (view.face hash).cumulative,
    c.axioms.IsDifference anchor.axioms (appliedAll (requests.map OntologyDelta.axioms) anchor.axioms) ∧
    c.annotations.IsDifference anchor.annotations
      (appliedAll (requests.map OntologyDelta.annotations) anchor.annotations) ∧
    c.entryCount ≤ limits.maxDeltaEntries
  untouched : (view.face hash).cumulative = none → view = .snapshot anchor ∧ requests = []

theorem runInvariant_start : RunInvariant hash limits anchor [] (.snapshot anchor) where
  anchor_eq := rfl
  exposes := Face.exposes_ofSnapshot hash anchor
  cumulative := by simp [Face.ofSnapshot]
  untouched := fun _ => ⟨rfl, rfl⟩

theorem RunInvariant.apply (h : RunInvariant hash limits anchor requests base)
    (hstep : applyDelta hash limits base requested = .ok view) :
    RunInvariant hash limits anchor (requests ++ [requested]) view := by
  obtain ⟨rfl, hcount⟩ := applyDelta_ok hstep
  have hannotations := fun n hn => h.exposes.annotations.contains_iff (n := n) hn
  have haxiomsFit : (effectiveDelta (base.face hash) requested).axioms.Fits _ :=
    fits_reduce h.exposes.contains
  have hannotationsFit : (effectiveDelta (base.face hash) requested).annotations.Fits _ :=
    fits_reduce hannotations
  have haxiomsApply : (effectiveDelta (base.face hash) requested).axioms.apply _ = requested.axioms.apply _ :=
    apply_reduce h.exposes.contains
  have hannotationsApply : (effectiveDelta (base.face hash) requested).annotations.apply _ =
      requested.annotations.apply _ := apply_reduce hannotations
  constructor
  · exact h.anchor_eq
  · rw [map_append, map_append, map_singleton, map_singleton, appliedAll_append,
      appliedAll_append, ← haxiomsApply, ← hannotationsApply]
    exact h.exposes.overlay hash haxiomsFit
  · intro c hc
    rw [map_append, map_append, map_singleton, map_singleton, appliedAll_append,
      appliedAll_append, ← haxiomsApply, ← hannotationsApply]
    rw [Option.mem_def.mp hc] at hcount
    rw [View.face_overlay] at hc
    cases hearlier : (base.face hash).cumulative with
    | none =>
      simp only [Face.overlay, hearlier, Option.map_none, Option.getD_none, Option.mem_some_iff] at hc
      obtain ⟨rfl, rfl⟩ := h.untouched hearlier
      subst hc
      exact ⟨haxiomsFit.isDifference, hannotationsFit.isDifference, hcount⟩
    | some earlier =>
      simp only [Face.overlay, hearlier, Option.map_some, Option.getD_some, Option.mem_some_iff] at hc
      obtain ⟨haxioms, hannotations, -⟩ := h.cumulative earlier hearlier
      subst hc
      exact ⟨haxioms.combine haxiomsFit, hannotations.combine hannotationsFit, hcount⟩
  · exact fun hnone => absurd hnone (by simp [Face.overlay])

theorem View.anchor_overlay (base : View) (delta : OntologyDelta) : (View.overlay base delta).anchor = base.anchor :=
  rfl

variable {delta : OntologyDelta}

section

variable (h : RunInvariant hash limits anchor requests (.overlay base delta))

include h

/-- The compacted overlay of a reached view holds the cumulative delta over the anchor. -/
theorem compact_eq :
    ∃ c, ((View.overlay base delta).face hash).cumulative = some c ∧
      (compact hash limits base delta = .ok (.overlay base delta) ∨
        compact hash limits base delta = .ok (.overlay (.snapshot anchor) c)) := by
  obtain ⟨c, hc⟩ : ∃ c, ((View.overlay base delta).face hash).cumulative = some c := ⟨_, rfl⟩
  refine ⟨c, hc, ?_⟩
  by_cases hdepth : ((View.overlay base delta).face hash).depth = 1
  · exact .inl (by rw [compact, if_pos hdepth])
  · have hcount := (h.cumulative c hc).2.2
    have hanchor := h.anchor_eq
    rw [View.anchor_overlay] at hanchor
    refine .inr ?_
    rw [compact, if_neg hdepth, hc, hanchor]
    refine bind_eq_ok.mpr ⟨(), enforceLimit_ok.mpr hcount, ?_⟩
    exact bind_eq_ok.mpr ⟨(), enforceLimit_ok.mpr limits.positive.2.2.2.2.1, rfl⟩

theorem RunInvariant.compact (hstep : compact hash limits base delta = .ok view) :
    RunInvariant hash limits anchor requests view ∧
      (view.face hash).cumulative = ((View.overlay base delta).face hash).cumulative := by
  obtain ⟨c, hc, hself | hanchor⟩ := compact_eq h
  · rw [hself] at hstep
    rw [← Except.ok.inj hstep]
    exact ⟨h, rfl⟩
  · rw [hanchor] at hstep
    rw [← Except.ok.inj hstep, hc]
    obtain ⟨haxioms, hannotations, hcount⟩ := h.cumulative c hc
    refine ⟨⟨rfl, ?_, ?_, ?_⟩, rfl⟩
    · rw [← haxioms.apply_eq, ← hannotations.apply_eq]
      exact (Face.exposes_ofSnapshot hash anchor).overlay hash haxioms.fits
    · intro c' hc'
      obtain rfl : c = c' := Option.some.inj hc'
      exact ⟨haxioms, hannotations, hcount⟩
    · exact fun hnone => absurd hnone (by simp [Face.overlay])

end

theorem runInvariant_of_overlayRun (run : OverlayRun hash limits anchor requests view) :
    RunInvariant hash limits anchor requests view := by
  induction run with
  | start => exact runInvariant_start
  | apply requested run step ih => exact ih.apply step
  | compact run step ih => exact (ih.compact step).1

theorem Enumerates.eq (h : Enumerates l s) (h' : Enumerates l' s) : l = l' :=
  h.ascending.ext h'.ascending fun n => (h.mem_iff n).trans (h'.mem_iff n).symm

/-- Two faces that agree on everything a reader of an overlay sees of its axioms and annotations. -/
structure Face.Agree (first second : Face) : Prop where
  axioms : first.axioms = second.axioms
  annotations : first.annotations = second.annotations
  contains : ∀ n, n.Canonical → first.contains n = second.contains n
  count : first.effectiveAxiomCount = second.effectiveAxiomCount
  cumulative : first.cumulative = second.cumulative

theorem RunInvariant.agree_compact (h : RunInvariant hash limits anchor requests (.overlay base delta)) (hstep :
    OwlCore.compact hash limits base delta = .ok compacted) :
    (compacted.face hash).Agree ((View.overlay base delta).face hash) := by
  obtain ⟨h', hcumulative⟩ := h.compact hstep
  have haxioms := h'.exposes.axioms.eq h.exposes.axioms
  refine ⟨haxioms, h'.exposes.annotations.eq h.exposes.annotations, fun n hn => ?_, ?_, hcumulative⟩
  · rw [Bool.eq_iff_iff, h'.exposes.contains n hn, h.exposes.contains n hn]
  · rw [h'.exposes.count, h.exposes.count, haxioms]

end

section

variable (hash : Hash) (limits : ParseLimits) (anchor : Snapshot)

/-- What a reached view shows: ascending enumerations of what the requested removals and additions make
of the anchor in order, membership and count that agree with them, a cumulative delta that is the
difference from the anchor in both directions, and a compaction that changes none of it. -/
structure ImplementsRequests (requests : List OntologyDelta) (view : View) : Prop where
  axioms_ascending : Ascending Node.bytes (view.face hash).axioms
  mem_axioms : ∀ n, n ∈ (view.face hash).axioms ↔ n ∈ appliedAll (requests.map OntologyDelta.axioms) anchor.axioms
  annotations_ascending : Ascending Node.bytes (view.face hash).annotations
  mem_annotations : ∀ n, n ∈ (view.face hash).annotations ↔
    n ∈ appliedAll (requests.map OntologyDelta.annotations) anchor.annotations
  contains_iff : ∀ n, n.Canonical → ((view.face hash).contains n = true ↔ n ∈ (view.face hash).axioms)
  count : (view.face hash).effectiveAxiomCount = (view.face hash).axioms.length
  cumulative : ∀ base delta, view = .overlay base delta → ∃ c, (view.face hash).cumulative = some c ∧
    c.axioms.IsDifference anchor.axioms {n | n ∈ (view.face hash).axioms} ∧
    c.annotations.IsDifference anchor.annotations {n | n ∈ (view.face hash).annotations}
  compact : ∀ base delta, view = .overlay base delta → ∃ compacted,
    compact hash limits base delta = .ok compacted ∧ (compacted.face hash).Agree (view.face hash)

variable {hash limits anchor}

theorem overlayRun_implementsRequests {requests : List OntologyDelta} {view : View}
    (run : OverlayRun hash limits anchor requests view) :
    ImplementsRequests hash limits anchor requests view := by
  have h := runInvariant_of_overlayRun run
  have haxioms : {n | n ∈ (view.face hash).axioms} = appliedAll (requests.map OntologyDelta.axioms) anchor.axioms :=
    Set.ext h.exposes.axioms.mem_iff
  have hannotations : {n | n ∈ (view.face hash).annotations} =
      appliedAll (requests.map OntologyDelta.annotations) anchor.annotations :=
    Set.ext h.exposes.annotations.mem_iff
  constructor
  · exact h.exposes.axioms.ascending
  · exact h.exposes.axioms.mem_iff
  · exact h.exposes.annotations.ascending
  · exact h.exposes.annotations.mem_iff
  · intro n hn
    rw [h.exposes.contains n hn, h.exposes.axioms.mem_iff]
  · exact h.exposes.count
  · rintro base delta rfl
    obtain ⟨c, hc, -⟩ := compact_eq h
    obtain ⟨hc₁, hc₂, -⟩ := h.cumulative c hc
    rw [haxioms, hannotations]
    exact ⟨c, hc, hc₁, hc₂⟩
  · rintro base delta rfl
    obtain ⟨c, -, hstep | hstep⟩ := compact_eq h <;> exact ⟨_, hstep, h.agree_compact hstep⟩

end

/-- `Declaration(Class(iri))`. -/
def classDeclaration (iri : String) : Node :=
  .mk .declaration [.node (.mk .entity [.enum .class, .node (.mk .iri [.text iri])]), .set []]

theorem canonicalMerge_exact_octets :
    Ascending (fun n : UInt8 => [n]) (indexCanonicalMerge (fun n => [n]) [[1, 2], [2, 3]] (some (· == 3))) ∧
      2 ∈ indexCanonicalMerge (fun n : UInt8 => [n]) [[1, 2], [2, 3]] (some (· == 3)) := by
  have hruns : ∀ run ∈ [[1, 2], [2, 3]], Ascending (fun n : UInt8 => [n]) run := by decide
  have hinj : KeyInjOn (fun n : UInt8 => [n]) fun x => ∃ run ∈ [[1, 2], [2, 3]], x ∈ run := by
    intro x y _ _ hkey
    exact (cons.inj hkey).1
  obtain ⟨hascending, hmem⟩ := canonicalMerge_exact.2 _ _ (some (· == 3)) hruns hinj
  exact ⟨hascending, (hmem 2).mpr ⟨⟨[1, 2], .head _, by decide⟩, by simp⟩⟩

def CanonicalSet.single (n : Node) (h : Constructible n) : CanonicalSet :=
  ⟨[n], pairwise_singleton _ n, by simpa using h⟩

def emptyPatch : Patch := ⟨.empty, .empty, by simp⟩

def oneClass : Snapshot where
  annotations := .empty
  axioms := .single (classDeclaration "urn:C") (constructible_of_rebuilds (by decide +kernel))
  extensions := .empty
  structural := ⟨2, List.replicate 32 0⟩

def replaceClass : OntologyDelta where
  axioms :=
    { add := .single (classDeclaration "urn:D") (constructible_of_rebuilds (by decide +kernel))
      remove := .single (classDeclaration "urn:C") (constructible_of_rebuilds (by decide +kernel))
      disjoint := fun n hadd hremove => by
        have hd : n = classDeclaration "urn:D" := mem_singleton.mp hadd
        have hc : n = classDeclaration "urn:C" := mem_singleton.mp hremove
        exact absurd (hd.symm.trans hc) (by decide +kernel) }
  annotations := emptyPatch

theorem overlayRun_oneClass_replaceClass : ∃ view, OverlayRun sha256 defaultLimits oneClass [replaceClass] view ∧
    ImplementsRequests sha256 defaultLimits oneClass [replaceClass] view := by
  obtain ⟨view, hview⟩ := exists_of_isOk
    (x := applyDelta sha256 defaultLimits (.snapshot oneClass) replaceClass) (by decide +kernel)
  have hrun : OverlayRun sha256 defaultLimits oneClass [replaceClass] view := .apply replaceClass .start hview
  exact ⟨view, hrun, overlayRun_implementsRequests hrun⟩

end OwlCore
