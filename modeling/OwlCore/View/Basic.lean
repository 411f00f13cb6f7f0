import OwlCore.Lib.Merge
import OwlCore.View.Scope

/-!
# Ontology views

A view is a snapshot, an overlay of a delta, or a composite of views with a bridge delta. `Face`
is what a view exposes: its enumerations, its fingerprints and what the layers above read. Every
field of a layer is a function of the faces below it.
-/
namespace OwlCore

/-- A snapshot by its closure collections and the fingerprint chosen at construction. -/
structure Snapshot where
  annotations : CanonicalSet
  axioms : CanonicalSet
  extensions : CanonicalSet
  structural : Fingerprint
  context : Option StructuralContext := none

/-- A view; an overlay holds its effective delta, a composite its semantic sources. -/
inductive View where
  | snapshot (value : Snapshot)
  | overlay (base : View) (delta : OntologyDelta)
  | composite (sources : List View) (delta : OntologyDelta)

structure Face where
  annotations : List Node
  axioms : List Node
  extensions : List Node
  contains : Node → Bool
  effectiveAxiomCount : Int
  fingerprints : Fingerprints
  context : Option StructuralContext
  scopes : Option (List Scope)
  lineage : Option (List ScopeLineage)
  /-- The members' fingerprints that a composite puts into its context. -/
  members : List Fingerprint
  /-- The fingerprints of the anchor, and the one that names it in a context. -/
  anchor : Fingerprints
  anchorFingerprint : Fingerprint
  cumulative : Option OntologyDelta
  depth : Nat

namespace Face

variable (hash : Hash)

def roots (face : Face) : List Node := face.annotations ++ face.axioms ++ face.extensions

def ofSnapshot (s : Snapshot) : Face :=
  let fingerprints := contentFingerprints hash s.structural s.annotations.items s.axioms.items s.extensions.items
  let scopes := scopesOf (s.annotations.items ++ s.axioms.items ++ s.extensions.items)
  { annotations := s.annotations.items
    axioms := s.axioms.items
    extensions := s.extensions.items
    contains := s.axioms.contains
    effectiveAxiomCount := s.axioms.items.length
    fingerprints
    context := s.context
    scopes := some scopes
    lineage := some (ownLineage scopes s.structural)
    members := match s.context with
      | some ⟨.composite, members⟩ => members
      | _ => [s.structural]
    anchor := fingerprints
    anchorFingerprint := match s.context with
      | some ⟨.overlay, anchor :: _⟩ => anchor
      | _ => s.structural
    cumulative := none
    depth := 0 }

/-- `_delta_changes_anonymous`. -/
def changesAnonymous (delta : OntologyDelta) : Bool :=
  (delta.axioms.add.items ++ delta.axioms.remove.items ++ delta.annotations.add.items ++
    delta.annotations.remove.items).any holdsAnonymous

/-- `iter_axioms` of an overlay. -/
def overlayAxioms (base : List Node) (patch : Patch) : List Node :=
  KeyedSet.merge Node.bytes patch.remove.contains [base, patch.add.items]

/-- `ontology_annotations` of an overlay. -/
def overlayAnnotations (base : List Node) (patch : Patch) : List Node :=
  KeyedSet.ofList Node.bytes ((base.filter fun item => !patch.remove.contains item) ++ patch.add.items)

/-- `OntologyOverlay` over `base`. -/
def overlay (base : Face) (delta : OntologyDelta) : Face :=
  let annotations := overlayAnnotations base.annotations delta.annotations
  let axioms := overlayAxioms base.axioms delta.axioms
  let count := base.effectiveAxiomCount + delta.axioms.add.items.length - delta.axioms.remove.items.length
  let cumulative := (base.cumulative.map fun earlier => combineDeltas earlier delta).getD delta
  let context := StructuralContext.ofAnchor base.anchorFingerprint
  let fingerprints :=
    if cumulative.isEmpty then base.anchor
    else contentFingerprints hash
      (effectiveStructuralFingerprint hash context annotations count.toNat axioms base.extensions)
      annotations axioms base.extensions
  let scopes := if changesAnonymous delta then none else base.scopes
  { annotations
    axioms
    extensions := base.extensions
    contains := fun item =>
      delta.axioms.add.contains item || !delta.axioms.remove.contains item && base.contains item
    effectiveAxiomCount := count
    fingerprints
    context := some context
    scopes
    lineage := scopes.map fun scopes => ownLineage scopes fingerprints.structural
    members := [fingerprints.structural]
    anchor := base.anchor
    anchorFingerprint := base.anchorFingerprint
    cumulative := some cumulative
    depth := base.depth + 1 }

def sourceScopes (face : Face) : SourceScopes where
  fingerprint := face.fingerprints.structural
  scopes := face.scopes
  lineage := face.lineage
  roots := face.roots

def memberLists (sources : List Face) (values : Face → List Node) : List (List Node) :=
  sources.zipIdx.map fun source =>
    memberValues hash (sources.map sourceScopes) source.2 (values source.1)

def baseAxioms (sources : List Face) : List Node :=
  KeyedSet.merge Node.bytes (fun _ => false) (memberLists hash sources Face.axioms)

/-- `_base_annotations` before they are put into a set. -/
def memberAnnotations (sources : List Face) : List Node :=
  sources.zipIdx.flatMap fun source =>
    source.1.annotations.map (scopeValue hash (sources.map sourceScopes) source.2)

def baseContains (sources : List Face) (item : Node) : Bool :=
  if holdsAnonymous item then (baseAxioms hash sources).any (· = item)
  else sources.any fun source => source.contains item

/-- `iter_extensions` of a composite. -/
def compositeExtensions (sources : List Face) : List Node :=
  KeyedSet.merge Node.bytes (fun _ => false) (memberLists hash sources Face.extensions)

/-- `_anonymous_scope_lineage` of a composite. -/
def compositeLineage (sources : List Face) (delta : OntologyDelta) : Option (List ScopeLineage) :=
  if changesAnonymous delta then none
  else (sources.mapM Face.lineage).map fun lineages =>
    lineages.zipIdx.flatMap fun source => source.1.map fun row =>
      { row with current := newScope hash (sources.map sourceScopes) source.2 row.current }

/-- `OntologyComposite` over its semantic sources. -/
def composite (sources : List Face) (delta : OntologyDelta) : Face :=
  let annotations := overlayAnnotations (memberAnnotations hash sources) delta.annotations
  let axioms := KeyedSet.merge Node.bytes delta.axioms.remove.contains
    (memberLists hash sources Face.axioms ++ [delta.axioms.add.items])
  let extensions := compositeExtensions hash sources
  let members := sources.flatMap Face.members
  let context := StructuralContext.ofMembers members
  let fingerprints := contentFingerprints hash
    (effectiveStructuralFingerprint hash context annotations axioms.length axioms extensions)
    annotations axioms extensions
  let lineage := compositeLineage hash sources delta
  { annotations
    axioms
    extensions
    contains := fun item => delta.axioms.add.contains item ||
      !delta.axioms.remove.contains item && baseContains hash sources item
    effectiveAxiomCount := axioms.length
    fingerprints
    context := some context
    scopes := lineage.map fun rows => KeyedSet.ofList Scope.octets (rows.map ScopeLineage.current)
    lineage
    members
    anchor := fingerprints
    anchorFingerprint := fingerprints.structural
    cumulative := none
    depth := 0 }

end Face

namespace View

section

variable (hash : Hash)

mutual

def face : View → Face
  | .snapshot value => .ofSnapshot hash value
  | .overlay base delta => .overlay hash (face base) delta
  | .composite sources delta => .composite hash (faces sources) delta

def faces : List View → List Face
  | [] => []
  | view :: rest => face view :: faces rest

end

@[simp] theorem faces_eq_map (views : List View) : faces hash views = views.map (face hash) := by
  induction views with
  | nil => rfl
  | cons view rest ih => rw [faces, ih, List.map_cons]

@[simp] theorem face_snapshot (value : Snapshot) : face hash (.snapshot value) = .ofSnapshot hash value := rfl

@[simp] theorem face_overlay (base : View) (delta : OntologyDelta) :
    face hash (.overlay base delta) = .overlay hash (face hash base) delta := rfl

@[simp] theorem face_composite (sources : List View) (delta : OntologyDelta) :
    face hash (.composite sources delta) = .composite hash (sources.map (face hash)) delta := by
  rw [face, faces_eq_map]

end

end View

end OwlCore
