import OwlCore.View.Overlay

/-!
# Edit histories with materialization

A history applies deltas, compacts and materializes. The logical and signature fingerprints of
the reached view depend on its content alone. The structural one has two forms, that of the
anchor and that of the content; which of them a view with the content of the anchor shows
depends on the materializations on the way.
-/
namespace OwlCore

open Fallible KeyedSet

variable (hash : Hash)

def Face.effective (face : Face) (context : StructuralContext) : Fingerprint :=
  effectiveStructuralFingerprint hash context face.annotations face.axioms.length face.axioms face.extensions

/-- `materialize`: the snapshot keeps the fingerprint of the anchor when nothing has changed. -/
def materialize (face : Face) (h : ∀ n ∈ face.roots, Constructible n) : Snapshot where
  annotations := .ofValues face.annotations fun n hn => h n (by simp [Face.roots, hn])
  axioms := .ofValues face.axioms fun n hn => h n (by simp [Face.roots, hn])
  extensions := .ofValues face.extensions fun n hn => h n (by simp [Face.roots, hn])
  structural :=
    if face.cumulative.any OntologyDelta.isEmpty then face.anchor.structural
    else (face.context.map (face.effective hash)).getD face.fingerprints.structural
  context := face.context

/-- The views that histories reach. The flag says whether some materialization was made of an overlay
whose cumulative delta was not empty. -/
inductive History (limits : ParseLimits) (anchor : Snapshot) : Bool → View → Prop where
  | start : History limits anchor false (.snapshot anchor)
  | apply {detached : Bool} {base view : View} (requested : OntologyDelta)
      (run : History limits anchor detached base) (step : applyDelta hash limits base requested = .ok view) :
      History limits anchor detached view
  | compact {detached : Bool} {base view : View} {delta : OntologyDelta}
      (run : History limits anchor detached (.overlay base delta))
      (step : compact hash limits base delta = .ok view) : History limits anchor detached view
  | materialize {detached : Bool} {base : View} {delta : OntologyDelta}
      (run : History limits anchor detached (.overlay base delta))
      (roots : ∀ n ∈ ((View.overlay base delta).face hash).roots, Constructible n) :
      History limits anchor
        (detached || !((View.overlay base delta).face hash).cumulative.any OntologyDelta.isEmpty)
        (.snapshot (materialize hash ((View.overlay base delta).face hash) roots))

def Snapshot.overlayContext (s : Snapshot) : StructuralContext :=
  .ofAnchor (Face.ofSnapshot hash s).anchorFingerprint

def Face.Shows (face : Face) (s : Snapshot) : Prop :=
  face.annotations = s.annotations.items ∧ face.axioms = s.axioms.items

instance (face : Face) (s : Snapshot) : Decidable (face.Shows s) :=
  inferInstanceAs (Decidable (_ ∧ _))

section

variable {hash} {anchor : Snapshot} {view : View}

/-- What overlays inherit unchanged from the snapshot below them. -/
structure Inherits (hash : Hash) (anchor : Snapshot) (view : View) : Prop where
  extensions : (view.face hash).extensions = anchor.extensions.items
  anchorFingerprints : (view.face hash).anchor = (Face.ofSnapshot hash anchor).fingerprints
  anchorFingerprint : (view.face hash).anchorFingerprint = (Face.ofSnapshot hash anchor).anchorFingerprint

theorem Inherits.overlay (h : Inherits hash anchor base) (delta : OntologyDelta) :
    Inherits hash anchor (.overlay base delta) := ⟨h.extensions, h.anchorFingerprints, h.anchorFingerprint⟩

theorem inherits_snapshot : Inherits hash anchor (.snapshot anchor) := ⟨rfl, rfl, rfl⟩

theorem inherits_of_overlayRun (run : OverlayRun hash limits anchor requests view) :
    Inherits hash anchor view := by
  induction run with
  | start => exact inherits_snapshot
  | apply requested run step ih =>
    obtain ⟨rfl, -⟩ := applyDelta_ok step
    exact ih.overlay _
  | compact run step ih =>
    obtain ⟨c, -, hself | hanchor⟩ := compact_eq (runInvariant_of_overlayRun run)
    · rw [hself] at step
      exact Except.ok.inj step ▸ ih
    · rw [hanchor] at step
      exact Except.ok.inj step ▸ inherits_snapshot.overlay c

theorem Patch.IsDifference.eq_iff {patch : Patch} {anchor : CanonicalSet} {s : Set Node}
    (h : patch.IsDifference anchor s) :
    (∀ n, n ∉ patch.add ∧ n ∉ patch.remove) ↔ s = {n | n ∈ anchor} := by
  rw [Set.ext_iff]
  refine forall_congr' fun n => ?_
  rw [h.mem_add, h.mem_remove, Set.mem_ofPred_eq]
  tauto

theorem Enumerates.eq_items_iff (h : Enumerates l s) (t : CanonicalSet) :
    l = t.items ↔ s = {n | n ∈ t} := by
  constructor
  · rintro rfl
    exact Set.ext fun n => (h.mem_iff n).symm
  · rintro rfl
    exact h.eq t.enumerates

/-- The cumulative delta is empty exactly when the view shows the content of its anchor. -/
theorem isEmpty_iff_shows {c : OntologyDelta} (run : OverlayRun hash limits anchor requests view)
    (hc : (view.face hash).cumulative = some c) : c.isEmpty = true ↔ (view.face hash).Shows anchor := by
  have h := runInvariant_of_overlayRun run
  obtain ⟨haxioms, hannotations, -⟩ := h.cumulative c hc
  rw [OntologyDelta.isEmpty_iff, haxioms.eq_iff, hannotations.eq_iff, Face.Shows,
    h.exposes.axioms.eq_items_iff, h.exposes.annotations.eq_items_iff, and_comm]

theorem fingerprints_of_overlayRun (run : OverlayRun hash limits anchor requests view) :
    (view.face hash).fingerprints = contentFingerprints hash
      (if (view.face hash).Shows anchor then anchor.structural
        else (view.face hash).effective hash (anchor.overlayContext hash))
      (view.face hash).annotations (view.face hash).axioms (view.face hash).extensions := by
  have h := runInvariant_of_overlayRun run
  have hinherits := inherits_of_overlayRun run
  cases hview : view with
  | composite sources delta =>
    have hanchor := h.anchor_eq
    rw [hview] at hanchor
    cases hanchor
  | snapshot s =>
    have hanchor := h.anchor_eq
    rw [hview] at hanchor
    obtain rfl : s = anchor := View.snapshot.inj hanchor
    rw [if_pos ⟨rfl, rfl⟩]
    rfl
  | overlay base delta =>
    subst hview
    obtain ⟨c, hc⟩ : ∃ c, ((View.overlay base delta).face hash).cumulative = some c := ⟨_, rfl⟩
    have hempty := isEmpty_iff_shows run hc
    have hcount : ((View.overlay base delta).face hash).effectiveAxiomCount.toNat =
        ((View.overlay base delta).face hash).axioms.length := by
      rw [h.exposes.count, Int.toNat_natCast]
    have hface : ((View.overlay base delta).face hash).fingerprints =
        if c.isEmpty then ((View.overlay base delta).face hash).anchor
        else contentFingerprints hash (effectiveStructuralFingerprint hash
            (.ofAnchor ((View.overlay base delta).face hash).anchorFingerprint)
            ((View.overlay base delta).face hash).annotations
            ((View.overlay base delta).face hash).effectiveAxiomCount.toNat
            ((View.overlay base delta).face hash).axioms ((View.overlay base delta).face hash).extensions)
          ((View.overlay base delta).face hash).annotations ((View.overlay base delta).face hash).axioms
          ((View.overlay base delta).face hash).extensions := by
      rw [← Option.some.inj hc]
      rfl
    rw [hface, hcount, hinherits.anchorFingerprint]
    by_cases hshows : ((View.overlay base delta).face hash).Shows anchor
    · rw [if_pos (hempty.mpr hshows), if_pos hshows, hinherits.anchorFingerprints, hshows.1, hshows.2, hinherits.extensions]
      rfl
    · rw [if_neg (fun h => hshows (hempty.mp h)), if_neg hshows]
      rfl

end

section

variable {hash} {limits : ParseLimits} {anchor : Snapshot} {detached : Bool} {view : View}

/-- A snapshot from which a history goes on, after the materializations made so far. -/
structure Restart (hash : Hash) (anchor : Snapshot) (detached : Bool) (s : Snapshot) : Prop where
  extensions : s.extensions = anchor.extensions
  context : s.overlayContext hash = anchor.overlayContext hash
  kept : detached = false → (Face.ofSnapshot hash s).Shows anchor ∧ s.structural = anchor.structural
  lost : detached = true → s.structural = (Face.ofSnapshot hash s).effective hash (anchor.overlayContext hash)

theorem restart_start : Restart hash anchor false anchor :=
  ⟨rfl, rfl, fun _ => ⟨⟨rfl, rfl⟩, rfl⟩, fun h => by cases h⟩

theorem Restart.materialize (h : Restart hash anchor detached s) (run : OverlayRun hash limits s requests (.overlay
    base delta)) (roots : ∀ n ∈ ((View.overlay base delta).face hash).roots, Constructible n) :
    Restart hash anchor
      (detached || !((View.overlay base delta).face hash).cumulative.any OntologyDelta.isEmpty)
      (OwlCore.materialize hash ((View.overlay base delta).face hash) roots) := by
  have hinvariant := runInvariant_of_overlayRun run
  have hinherits := inherits_of_overlayRun run
  obtain ⟨c, hc⟩ : ∃ c, ((View.overlay base delta).face hash).cumulative = some c := ⟨_, rfl⟩
  have hempty := isEmpty_iff_shows run hc
  have hcontext : ((View.overlay base delta).face hash).context = some (s.overlayContext hash) := by
    rw [Snapshot.overlayContext, ← hinherits.anchorFingerprint]
    rfl
  have hannotations : (OwlCore.materialize hash ((View.overlay base delta).face hash) roots).annotations.items =
      ((View.overlay base delta).face hash).annotations :=
    ofList_eq_self hinvariant.exposes.annotations.ascending
  have haxioms : (OwlCore.materialize hash ((View.overlay base delta).face hash) roots).axioms.items =
      ((View.overlay base delta).face hash).axioms :=
    ofList_eq_self hinvariant.exposes.axioms.ascending
  have hascending : Ascending Node.bytes ((View.overlay base delta).face hash).extensions :=
    hinherits.extensions ▸ s.extensions.ascending
  have hextensions : (OwlCore.materialize hash ((View.overlay base delta).face hash) roots).extensions.items =
      ((View.overlay base delta).face hash).extensions := ofList_eq_self hascending
  have hstructural : (OwlCore.materialize hash ((View.overlay base delta).face hash) roots).structural =
      if c.isEmpty then s.structural
      else ((View.overlay base delta).face hash).effective hash (anchor.overlayContext hash) := by
    simp only [OwlCore.materialize, hc, Option.any_some, hcontext, Option.map_some, Option.getD_some, h.context,
      hinherits.anchorFingerprints]
    rfl
  have heffective : (Face.ofSnapshot hash (OwlCore.materialize hash ((View.overlay base delta).face hash) roots)).effective
      hash (anchor.overlayContext hash) =
      ((View.overlay base delta).face hash).effective hash (anchor.overlayContext hash) := by
    simp only [Face.effective, Face.ofSnapshot, hextensions, hannotations, haxioms]
  constructor
  · rw [← h.extensions]
    exact CanonicalSet.ext fun n => by rw [← CanonicalSet.mem_items, hextensions, hinherits.extensions]; rfl
  · rw [← h.context]
    simp only [Snapshot.overlayContext, Face.ofSnapshot, OwlCore.materialize, hcontext, StructuralContext.ofAnchor]
  · intro hdetached
    rw [hc, Option.any_some, Bool.or_eq_false_iff, Bool.not_eq_false'] at hdetached
    obtain ⟨hshows, hkept⟩ := h.kept hdetached.1
    have hview := hempty.mp hdetached.2
    refine ⟨⟨?_, ?_⟩, by rw [hstructural, if_pos hdetached.2, hkept]⟩
    · exact hannotations.trans (hview.1.trans hshows.1)
    · exact haxioms.trans (hview.2.trans hshows.2)
  · intro hdetached
    rw [hc, Option.any_some, Bool.or_eq_true, Bool.not_eq_true'] at hdetached
    rw [heffective, hstructural]
    split
    · rename_i hc'
      have hview := hempty.mp hc'
      have hlost := h.lost (hdetached.resolve_right (by simp [hc']))
      rw [hlost, Face.effective, Face.effective, hview.1, hview.2, hinherits.extensions]
      rfl
    · rfl

theorem exists_restart (run : History hash limits anchor detached view) :
    ∃ s requests, Restart hash anchor detached s ∧ OverlayRun hash limits s requests view := by
  induction run with
  | start => exact ⟨anchor, [], restart_start, .start⟩
  | apply requested run step ih =>
    obtain ⟨s, requests, hs, hrun⟩ := ih
    exact ⟨s, _, hs, .apply requested hrun step⟩
  | compact run step ih =>
    obtain ⟨s, requests, hs, hrun⟩ := ih
    exact ⟨s, requests, hs, .compact hrun step⟩
  | materialize run roots ih =>
    obtain ⟨s, requests, hs, hrun⟩ := ih
    exact ⟨_, [], hs.materialize hrun roots, .start⟩

theorem fingerprints_of_history (run : History hash limits anchor detached view) :
    (view.face hash).extensions = anchor.extensions.items ∧
    (view.face hash).fingerprints = contentFingerprints hash
      (if detached = false ∧ (view.face hash).Shows anchor then anchor.structural
        else (view.face hash).effective hash (anchor.overlayContext hash))
      (view.face hash).annotations (view.face hash).axioms (view.face hash).extensions := by
  obtain ⟨s, requests, hs, hrun⟩ := exists_restart run
  have hextensions := (inherits_of_overlayRun hrun).extensions
  rw [hs.extensions] at hextensions
  refine ⟨hextensions, ?_⟩
  rw [fingerprints_of_overlayRun hrun, hs.context]
  congr 1
  cases hdetached : detached with
  | false =>
    obtain ⟨hshows, hstructural⟩ := hs.kept hdetached
    have hsame : (view.face hash).Shows s ↔ (view.face hash).Shows anchor := by
      rw [Face.Shows, Face.Shows, ← hshows.1, ← hshows.2]
      rfl
    simp only [hsame, hstructural, true_and]
  | true =>
    simp only [Bool.true_eq_false, false_and, if_false, ite_eq_right_iff]
    intro hshows
    rw [hs.lost hdetached, Face.effective, Face.effective, hshows.1, hshows.2, hextensions, ← hs.extensions]
    rfl

theorem Face.effective_congr {first second : Face} (hannotations : first.annotations = second.annotations)
    (haxioms : first.axioms = second.axioms) (hextensions : first.extensions = second.extensions)
    (context : StructuralContext) : first.effective hash context = second.effective hash context := by
  rw [Face.effective, Face.effective, hannotations, haxioms, hextensions]

/-- Histories that end with the same content show the same logical and signature fingerprints, and the
same structural one unless the content is that of the anchor, only one history has materialized a
changed overlay, and the anchor's own fingerprint is not the effective one. -/
theorem history_fingerprints_eq_iff {first second : Bool} {view other : View}
    (run : History hash limits anchor first view) (otherRun : History hash limits anchor second other)
    (hannotations : (view.face hash).annotations = (other.face hash).annotations)
    (haxioms : (view.face hash).axioms = (other.face hash).axioms)
    (hextensions : (view.face hash).extensions = (other.face hash).extensions) :
    (view.face hash).fingerprints.logical = (other.face hash).fingerprints.logical ∧
    (view.face hash).fingerprints.signature = (other.face hash).fingerprints.signature ∧
    ((view.face hash).fingerprints.structural = (other.face hash).fingerprints.structural ↔
      first = second ∨ ¬(view.face hash).Shows anchor ∨
        anchor.structural = (Face.ofSnapshot hash anchor).effective hash (anchor.overlayContext hash)) := by
  obtain ⟨hanchor, hfirst⟩ := fingerprints_of_history run
  obtain ⟨-, hsecond⟩ := fingerprints_of_history otherRun
  have hshows : (other.face hash).Shows anchor ↔ (view.face hash).Shows anchor := by
    rw [Face.Shows, Face.Shows, hannotations, haxioms]
  have heffective : (view.face hash).effective hash (anchor.overlayContext hash) =
      (other.face hash).effective hash (anchor.overlayContext hash) :=
    Face.effective_congr hannotations haxioms hextensions _
  rw [hfirst, hsecond, heffective, hannotations, haxioms, hextensions]
  refine ⟨rfl, rfl, ?_⟩
  simp only [contentFingerprints, hshows]
  by_cases hsame : (view.face hash).Shows anchor
  · have hown : (other.face hash).effective hash (anchor.overlayContext hash) =
        (Face.ofSnapshot hash anchor).effective hash (anchor.overlayContext hash) :=
      heffective.symm.trans (Face.effective_congr hsame.1 hsame.2 hanchor _)
    rw [hown]
    cases first <;> cases second <;> simp [hsame, eq_comm]
  · simp [hsame]

end

/-- The inverse of `replaceClass`. -/
def restoreClass : OntologyDelta where
  axioms :=
    { add := replaceClass.axioms.remove
      remove := replaceClass.axioms.add
      disjoint := fun n hadd hremove => replaceClass.axioms.disjoint n hremove hadd }
  annotations := emptyPatch

theorem applyDelta_of_isOk (h : (applyDelta hash limits base requested).isOk) : applyDelta hash limits base requested =
      .ok (.overlay base (effectiveDelta (base.face hash) requested)) := by
  obtain ⟨view, hview⟩ := exists_of_isOk h
  rw [hview, (applyDelta_ok hview).1]

/-- `oneClass` with the class replaced. -/
def replacedClass : View :=
  .overlay (.snapshot oneClass) (effectiveDelta ((View.snapshot oneClass).face sha256) replaceClass)

theorem history_replacedClass : History sha256 defaultLimits oneClass false replacedClass :=
  .apply replaceClass .start (applyDelta_of_isOk sha256 (by decide +kernel))

theorem constructible_replacedClass : ∀ n ∈ (replacedClass.face sha256).roots, Constructible n := by
  have hroots : (replacedClass.face sha256).roots = [classDeclaration "urn:D"] := by decide +kernel
  intro n hn
  rw [hroots, List.mem_singleton] at hn
  rw [hn]
  exact constructible_of_rebuilds (by decide +kernel)

def restoredClass : View :=
  let base := View.snapshot (materialize sha256 (replacedClass.face sha256) constructible_replacedClass)
  .overlay base (effectiveDelta (base.face sha256) restoreClass)

theorem history_restoredClass : History sha256 defaultLimits oneClass true restoredClass := by
  have hchanged : !(replacedClass.face sha256).cumulative.any OntologyDelta.isEmpty := by decide +kernel
  have hrun := History.materialize history_replacedClass constructible_replacedClass
  have hflag : (false || !(replacedClass.face sha256).cumulative.any OntologyDelta.isEmpty) = true := by
    rw [hchanged]
    rfl
  have hmaterialized : History sha256 defaultLimits oneClass true
      (.snapshot (materialize sha256 (replacedClass.face sha256) constructible_replacedClass)) := hflag ▸ hrun
  exact hmaterialized.apply restoreClass (applyDelta_of_isOk sha256 (by decide +kernel))

theorem shows_restoredClass : (restoredClass.face sha256).annotations = oneClass.annotations.items ∧
    (restoredClass.face sha256).axioms = oneClass.axioms.items ∧
    (restoredClass.face sha256).extensions = oneClass.extensions.items := by decide +kernel

/-- The theorem at the history that materializes a replacement and undoes it, against the anchor itself. -/
theorem history_fingerprints_restoredClass :
    (restoredClass.face sha256).fingerprints.logical = (Face.ofSnapshot sha256 oneClass).fingerprints.logical ∧
    (restoredClass.face sha256).fingerprints.signature = (Face.ofSnapshot sha256 oneClass).fingerprints.signature := by
  obtain ⟨hannotations, haxioms, hextensions⟩ := shows_restoredClass
  have h := history_fingerprints_eq_iff history_restoredClass (.start : History sha256 defaultLimits oneClass false (.snapshot oneClass))
    hannotations haxioms hextensions
  exact ⟨h.1, h.2.1⟩

theorem restoredClass_structural_ne : History sha256 defaultLimits oneClass true restoredClass ∧
    (restoredClass.face sha256).annotations = (Face.ofSnapshot sha256 oneClass).annotations ∧
    (restoredClass.face sha256).axioms = (Face.ofSnapshot sha256 oneClass).axioms ∧
    (restoredClass.face sha256).extensions = (Face.ofSnapshot sha256 oneClass).extensions ∧
    (restoredClass.face sha256).fingerprints.structural ≠
      (Face.ofSnapshot sha256 oneClass).fingerprints.structural := by
  obtain ⟨hannotations, haxioms, hextensions⟩ := shows_restoredClass
  refine ⟨history_restoredClass, hannotations, haxioms, hextensions, ?_⟩
  decide +kernel

end OwlCore
