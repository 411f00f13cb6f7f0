import OwlCore.Wire.Content

/-!
# Fingerprints of decoded snapshots

A decoded plain snapshot computes its structural fingerprint. For a view with a structural
context the fingerprint of the summary is compared with itself, so it is that of the content
only when the image was written that way.
-/
namespace OwlCore

open Fallible

section

variable {hash : Hash} {content : WireContent} {s : OntologySnapshot}

/-- A structural fingerprint belongs to a context and its effective values: it is computed
from them, or the view is an unchanged overlay and shares it with the anchor. -/
def EffectiveFingerprint (hash : Hash) (context : StructuralContext) (structural : Fingerprint)
    (annotations axioms extensions : List Node) : Prop :=
  structural = effectiveStructuralFingerprint hash context annotations axioms.length axioms extensions ∨
    context.kind = .overlay ∧ context.fingerprints = [structural]

def OntologySnapshot.OwnFingerprint (hash : Hash) (s : OntologySnapshot) : Prop :=
  match s.context with
  | none => s.fingerprints.structural =
      snapshotStructuralFingerprint hash s.manifest (manifestEntries s.manifest s.entries)
  | some context => EffectiveFingerprint hash context s.fingerprints.structural s.annotations s.axioms s.extensions

/-- The summary is plain, or its fingerprint is the one of its context and its postings. -/
def ViewSummary.OwnFingerprint (hash : Hash) (view : ViewSummary) : Prop :=
  ∀ context, view.context = some context →
    EffectiveFingerprint hash context view.fingerprints.structural view.annotations view.axioms view.extensions

theorem updateCollection_congr (h : values.map Node.bytes = values'.map Node.bytes) :
    updateCollection size values = updateCollection size values' := by
  have hframes : ∀ items : List Node, (items.map fun item => Varint.frame item.bytes) =
      (items.map Node.bytes).map Varint.frame := fun items => by
    rw [List.map_map]
    rfl
  rw [updateCollection, updateCollection, hframes, hframes, h]

theorem EffectiveFingerprint.congr (hannotations : annotations.map Node.bytes = annotations'.map Node.bytes) (haxioms
    : axioms.map Node.bytes = axioms'.map Node.bytes) (hextensions : extensions.map Node.bytes = extensions'.map
    Node.bytes) :
    EffectiveFingerprint hash context structural annotations axioms extensions ↔
      EffectiveFingerprint hash context structural annotations' axioms' extensions' := by
  have hlength : ∀ {l l' : List Node}, l.map Node.bytes = l'.map Node.bytes → l.length = l'.length := by
    intro l l' h
    simpa using congrArg List.length h
  simp only [EffectiveFingerprint, effectiveStructuralFingerprint, updateCollection_congr hannotations,
    updateCollection_congr haxioms, updateCollection_congr hextensions, hlength hannotations, hlength haxioms,
    hlength hextensions]

theorem assertPostings_eq_ok :
    assertPostings expected values label = .ok () ↔ values.map Node.bytes = expected.map Node.bytes := by
  simp only [assertPostings, check_bind_eq_ok, reject_eq_ok, ne_eq, not_not]
  refine ⟨And.right, fun h => ⟨?_, h⟩⟩
  simpa using congrArg List.length h

theorem compareDecodedView_ok (h : compareDecodedView content s = .ok ()) :
    s.fingerprints = content.view.fingerprints ∧
      s.annotations.map Node.bytes = content.view.annotations.map Node.bytes ∧
      s.axioms.map Node.bytes = content.view.axioms.map Node.bytes ∧
      s.extensions.map Node.bytes = content.view.extensions.map Node.bytes := by
  simp only [compareDecodedView, check_bind_eq_ok, reject_eq_ok, assertPostings_eq_ok, ne_eq, not_not] at h
  exact ⟨h.1, h.2.2.2⟩

/-- The snapshot has the context of the summary, and computes its fingerprint without one. -/
theorem constructSnapshot_ok (h : constructSnapshot hash content.view manifest rows = .ok s) :
    s.context = content.view.context ∧ (content.view.context = none → s.fingerprints.structural =
      snapshotStructuralFingerprint hash s.manifest (manifestEntries s.manifest s.entries)) := by
  unfold constructSnapshot at h
  cases hcontext : content.view.context with
  | none =>
    simp only [hcontext] at h
    obtain ⟨-, rfl⟩ := OntologySnapshot.construct_eq_ok.mp h
    exact ⟨rfl, fun _ => rfl⟩
  | some context =>
    simp only [hcontext] at h
    obtain ⟨-, rfl⟩ := OntologySnapshot.construct_eq_ok.mp h
    exact ⟨rfl, fun hnone => by cases hnone⟩

/-- A decoded snapshot has the fingerprint of its content exactly when the summary of the
image has the fingerprint of its context and its postings, or has no context. -/
theorem materializeImage_ownFingerprint_iff (h : materializeImage hash content = .ok s) :
    s.OwnFingerprint hash ↔ content.view.OwnFingerprint hash := by
  simp only [materializeImage, bind_eq_ok] at h
  obtain ⟨_, -, decoded, -, manifest, -, snapshot, hconstruct, _, hcompare, hresult⟩ := h
  obtain rfl : snapshot = s := Except.ok.inj hresult
  obtain ⟨hcontext, hplain⟩ := constructSnapshot_ok hconstruct
  obtain ⟨hfingerprints, hannotations, haxioms, hextensions⟩ := compareDecodedView_ok hcompare
  rw [OntologySnapshot.OwnFingerprint, ViewSummary.OwnFingerprint, hcontext]
  cases hview : content.view.context with
  | none =>
    -- Without a context nothing is taken over.
    refine ⟨fun _ context hsome => ?_, fun _ => hplain hview⟩
    cases hsome
  | some context =>
    simp only [Option.some.injEq, forall_eq']
    rw [hfingerprints]
    exact EffectiveFingerprint.congr hannotations haxioms hextensions

end

theorem constructible_noRoots : ∀ n ∈ ([] ++ [] ++ [] : List Node), Constructible n := by simp

def emptyWireDocument : WireDocument where
  record := ⟨utf8Encode "d", ⟨none, none, OntologyID.unnamed_requires⟩, List.replicate 32 0,
    (unnamedDocument [] [] Node.ascending_nil Node.ascending_nil rebuilds_nil "").document.fingerprint sha256, .root⟩
  ontologyId := ⟨none, none, OntologyID.unnamed_requires⟩
  directImports := []
  rawAnnotations := []
  rawAxioms := []
  rawExtensions := []
  effective := ⟨[], [], []⟩
  constructible := constructible_noRoots

def overlaidContext : StructuralContext := .ofAnchor ⟨2, List.replicate 32 5⟩

/-- An image of an overlay with the given structural fingerprint in its summary. -/
def overlaidContent (structural : Fingerprint) : WireContent where
  documents := [emptyWireDocument]
  policy := .resolveLocal
  offline := true
  resolverDigest := List.replicate 32 0
  edges := []
  view := ⟨utf8Encode "d", some overlaidContext, contentFingerprints sha256 structural [] [] [], [], [], []⟩

/-- Any digest passes as the structural fingerprint of an overlay. -/
theorem materializeImage_foreignFingerprint : ∃ s,
    materializeImage sha256 (overlaidContent ⟨2, List.replicate 32 7⟩) = .ok s ∧ s.context = some overlaidContext ∧
      s.fingerprints.structural = ⟨2, List.replicate 32 7⟩ ∧ ¬s.OwnFingerprint sha256 := by
  have hrun : (materializeImage sha256 (overlaidContent ⟨2, List.replicate 32 7⟩)).toOption.any
      fun s : OntologySnapshot => s.context = some overlaidContext ∧
        s.fingerprints.structural = ⟨2, List.replicate 32 7⟩ ∧
        s.fingerprints.structural ≠ effectiveStructuralFingerprint sha256 overlaidContext s.annotations
          s.axioms.length s.axioms s.extensions := by decide +kernel
  obtain ⟨s, h, htest⟩ := exists_of_toOption_any hrun
  obtain ⟨hcontext, hstructural, hdiffer⟩ := of_decide_eq_true htest
  refine ⟨s, h, hcontext, hstructural, ?_⟩
  rw [OntologySnapshot.OwnFingerprint, hcontext]
  rintro (heffective | ⟨-, hanchor⟩)
  · exact hdiffer heffective
  · rw [hstructural] at hanchor
    exact absurd hanchor (by decide)

/-- The fingerprint that the encoder writes. -/
theorem materializeImage_ownFingerprint_overlay : ∃ s,
    materializeImage sha256 (overlaidContent (effectiveStructuralFingerprint sha256 overlaidContext [] 0 [] [])) =
      .ok s ∧ s.OwnFingerprint sha256 := by
  have hok : (materializeImage sha256 (overlaidContent
      (effectiveStructuralFingerprint sha256 overlaidContext [] 0 [] []))).isOk := by decide +kernel
  obtain ⟨s, h⟩ := exists_of_isOk hok
  refine ⟨s, h, (materializeImage_ownFingerprint_iff h).mpr fun context hcontext => ?_⟩
  obtain rfl : overlaidContext = context := Option.some.inj hcontext
  exact .inl rfl

end OwlCore
