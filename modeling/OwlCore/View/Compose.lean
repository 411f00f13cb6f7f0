import OwlCore.View.Composite

/-!
# Building composed views

`compose_views` flattens composites without a bridge among its arguments, rejects a bridge with
ambiguous anonymous scopes and validates it against what the sources enumerate together. Views
built by `apply_delta` and `compose_views` are layered.
-/
namespace OwlCore

open Fallible KeyedSet Patch

namespace View

def isComposite : View → Bool
  | .composite _ _ => true
  | _ => false

/-- `_is_bridge_free`; bridge-free members were flattened when the composite was built. -/
def isBridgeFree (sources : List View) (delta : OntologyDelta) : Bool :=
  delta.isEmpty && !sources.any isComposite

def semanticMembers : View → List View
  | .composite sources delta => if isBridgeFree sources delta then sources else [.composite sources delta]
  | view => [view]

mutual

def memberCount : View → Nat
  | .composite sources _ => memberCounts sources
  | _ => 1

def memberCounts : List View → Nat
  | [] => 0
  | view :: rest => memberCount view + memberCounts rest

end

end View

section

variable (hash : Hash) (sources : List Face) (requested : OntologyDelta)

def requestedScopes : List Scope :=
  scopesOf (requested.axioms.add.items ++ requested.axioms.remove.items ++ requested.annotations.add.items ++
    requested.annotations.remove.items)

/-- `_reject_ambiguous_anonymous_bridge`; sources without a known lineage are passed over. -/
def rejectAmbiguousAnonymousBridge : Except Error Unit :=
  let originals := (sources.filterMap Face.lineage).flatten.map ScopeLineage.original
  if (requestedScopes requested).any fun scope => 1 < originals.count scope then
    .error (.deltaError ("anonymous bridge scope identifies more than one composition member; " ++
      "compose first and apply a delta using the composed identity"))
  else .ok ()

def baseStructuralFingerprint : Fingerprint :=
  let axioms := Face.baseAxioms hash sources
  effectiveStructuralFingerprint hash (.ofMembers (sources.flatMap Face.members))
    (KeyedSet.ofList Node.bytes (Face.memberAnnotations hash sources)) axioms.length axioms
    (Face.compositeExtensions hash sources)

/-- The delta that `_validate_bridge` leaves of a request. -/
def effectiveBridge : OntologyDelta :=
  .ofPatches (requested.axioms.reduce (Face.baseContains hash sources))
    (requested.annotations.reduce fun item =>
      KeyedSet.contains Node.bytes (KeyedSet.ofList Node.bytes (Face.memberAnnotations hash sources)) item.bytes)

/-- `_validate_bridge`, without the entries it reports as having no effect. -/
def validateBridge : Except Error OntologyDelta := do
  if requested.expectedBaseFingerprint = none ∧ requested.isEmpty = true then .ok requested
  else if requested.expectedBaseFingerprint.any (· ≠ baseStructuralFingerprint hash sources) then
    .error (.deltaBaseMismatch "bridge delta expected-base fingerprint does not match the composition")
  else
    let axioms ← validatePatch requested.policy "bridge adds an existing axiom"
      "bridge removes an absent axiom" (Face.baseContains hash sources) requested.axioms
    let annotations ← validatePatch requested.policy "bridge adds an existing ontology annotation"
      "bridge removes an absent ontology annotation"
      (fun item =>
        KeyedSet.contains Node.bytes (KeyedSet.ofList Node.bytes (Face.memberAnnotations hash sources)) item.bytes)
      requested.annotations
    .ok (.ofPatches axioms annotations)

end

def composeViews (hash : Hash) (limits : ParseLimits) (views : List View) (requested : OntologyDelta) :
    Except Error View := do
  if views.length < 2 then .error (.valueError "composition requires at least two member views")
  else
    let sources := views.flatMap View.semanticMembers
    enforceLimit "max_composite_members" (View.memberCounts views) limits.maxCompositeMembers
    enforceLimit "max_delta_entries" requested.entryCount limits.maxDeltaEntries
    rejectAmbiguousAnonymousBridge (sources.map (View.face hash)) requested
    let effective ← validateBridge hash (sources.map (View.face hash)) requested
    .ok (.composite sources effective)

section

variable {hash : Hash} {limits : ParseLimits} {base view : View} {views : List View} {requested : OntologyDelta}

theorem View.Layered.applyDelta (h : base.Layered hash) (hview : applyDelta hash limits base requested = .ok view) :
    view.Layered hash := by
  obtain ⟨rfl, -⟩ := applyDelta_ok hview
  have hexposes := h.sound.exposes
  exact .overlay h (fits_reduce hexposes.contains)
    (fits_reduce fun n hn => hexposes.annotations.contains_iff hn)

theorem validateBridge_ok (h : validateBridge hash sources requested = .ok effective) :
    (requested.isEmpty = true ∧ effective = requested) ∨ effective = effectiveBridge hash sources requested := by
  unfold validateBridge at h
  split at h
  · rename_i hempty
    exact .inl ⟨hempty.2, (Except.ok.inj h).symm⟩
  · split at h
    · cases h
    · obtain ⟨axioms, haxioms, h⟩ := bind_eq_ok.mp h
      obtain ⟨annotations, hannotations, h⟩ := bind_eq_ok.mp h
      rw [← Except.ok.inj h, validatePatch_ok haxioms, validatePatch_ok hannotations]
      exact .inr rfl

/-- What a successful `compose_views` returns. -/
theorem composeViews_ok (h : composeViews hash limits views requested = .ok view) :
    2 ≤ views.length ∧ ∃ effective, view = .composite (views.flatMap View.semanticMembers) effective ∧
      validateBridge hash ((views.flatMap View.semanticMembers).map (View.face hash)) requested = .ok effective := by
  unfold composeViews at h
  split at h
  · cases h
  · rename_i hlength
    obtain ⟨-, -, h⟩ := bind_eq_ok.mp h
    obtain ⟨-, -, h⟩ := bind_eq_ok.mp h
    obtain ⟨-, -, h⟩ := bind_eq_ok.mp h
    obtain ⟨effective, heffective, h⟩ := bind_eq_ok.mp h
    exact ⟨Nat.le_of_not_lt hlength, effective, (Except.ok.inj h).symm, heffective⟩

theorem View.Layered.semanticMembers (h : view.Layered hash) : ∀ v ∈ view.semanticMembers, v.Layered hash := by
  cases h with
  | snapshot value => simpa [View.semanticMembers] using View.Layered.snapshot value
  | overlay layered axioms annotations => simpa [View.semanticMembers] using .overlay layered axioms annotations
  | composite layered axioms annotations =>
    rw [View.semanticMembers]
    split
    · exact layered
    · simpa using .composite layered axioms annotations

theorem Patch.fits_of_forall {patch : Patch} {s : Set Node} (h : ∀ n, n ∉ patch.add ∧ n ∉ patch.remove) :
    patch.Fits s :=
  ⟨fun n hn => absurd hn (h n).1, fun n hn => absurd hn (h n).2⟩

theorem enumerates_ofList (h : ∀ n ∈ values, n.Canonical) :
    Enumerates (KeyedSet.ofList Node.bytes values) {n | n ∈ values} :=
  ⟨ascending_ofList values, fun n hn => h n (mem_of_mem_ofList hn), mem_ofList (Node.keyInjOn_canonical h)⟩

theorem View.Layered.composeViews (h : ∀ v ∈ views, v.Layered hash)
    (hview : composeViews hash limits views requested = .ok view) : view.Layered hash := by
  obtain ⟨-, effective, rfl, heffective⟩ := composeViews_ok hview
  have hsources : ∀ v ∈ views.flatMap View.semanticMembers, v.Layered hash := by
    intro v hv
    obtain ⟨argument, hargument, hv⟩ := List.mem_flatMap.mp hv
    exact (h argument hargument).semanticMembers v hv
  have hsound := sound_faces hsources
  rcases validateBridge_ok heffective with ⟨hempty, rfl⟩ | rfl
  · obtain ⟨haxioms, hannotations⟩ := OntologyDelta.isEmpty_iff.mp hempty
    exact .composite hsources (fits_of_forall haxioms) (fits_of_forall hannotations)
  · have hannotations : Enumerates _ {n | n ∈ Face.memberAnnotations hash
        ((views.flatMap View.semanticMembers).map (View.face hash))} :=
      enumerates_ofList (Face.canonical_memberAnnotations hsound)
    exact .composite hsources (fits_reduce fun n hn => Face.baseContains_iff hsound hn)
      (fits_reduce fun n hn => hannotations.contains_iff hn)

end

def sharedClass : View :=
  .composite [.snapshot oneClass, .snapshot oneClass] { axioms := emptyPatch, annotations := emptyPatch }

theorem composeViews_sharedClass : composeViews sha256 defaultLimits [.snapshot oneClass, .snapshot oneClass]
    { axioms := emptyPatch, annotations := emptyPatch } = .ok sharedClass := rfl

end OwlCore
