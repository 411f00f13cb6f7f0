import OwlCore.Closure.Scoping

/-!
# Manifests and snapshots

The import manifest of a closure, the structural fingerprint over it and its scoped documents,
and the construction of a snapshot, which computes its structural fingerprint or accepts one
from outside.
-/
namespace OwlCore

open Orders Fallible

inductive ImportPolicy where
  | ignore
  | recordUnresolved
  | resolveLocal
  | resolveStrict
  deriving DecidableEq

def ImportPolicy.value : ImportPolicy → String
  | ignore => "ignore"
  | recordUnresolved => "record_unresolved"
  | resolveLocal => "resolve_local"
  | resolveStrict => "resolve_strict"

inductive ImportStatus where
  | resolved
  | unresolved
  | ignored
  | denied
  | failed
  deriving DecidableEq

def ImportStatus.value : ImportStatus → String
  | resolved => "resolved"
  | unresolved => "unresolved"
  | ignored => "ignored"
  | denied => "denied"
  | failed => "failed"

/-- `ImportEdge`; of the diagnostic only the code is used. -/
structure ImportEdge where
  importingDocumentKey : DocumentKey
  importIri : Node
  status : ImportStatus
  resolvedDocumentKey : Option DocumentKey
  resolverName : Option String
  diagnosticCode : Option String
  target_iff : status = .resolved ↔ resolvedDocumentKey.isSome

def ImportEdge.sortKey (edge : ImportEdge) : Lex (Bytes × Lex (Bytes × Lex (Bytes × Bytes))) :=
  toLex (edge.importingDocumentKey, toLex (edge.importIri.bytes,
    toLex (utf8Encode edge.status.value, edge.resolvedDocumentKey.getD [])))

def optionalText : Option Bytes → Bytes
  | none => utf8Encode "0"
  | some text => utf8Encode "1" ++ Varint.frame text

/-- `_edge_bytes`. -/
def ImportEdge.bytes (edge : ImportEdge) : Bytes :=
  Varint.frame edge.importingDocumentKey ++ Varint.frame edge.importIri.bytes ++
    Varint.frame (utf8Encode edge.status.value) ++ optionalText edge.resolvedDocumentKey ++
    optionalText (edge.resolverName.map utf8Encode) ++ optionalText (edge.diagnosticCode.map utf8Encode)

/-- `_record_bytes`. -/
def DocumentRecord.bytes (record : DocumentRecord) : Bytes :=
  Varint.frame record.documentKey ++ optionalIri record.ontologyId.ontologyIri ++
    optionalIri record.ontologyId.versionIri ++ record.documentFingerprint.digest ++
    Varint.frame (utf8Encode record.status.value)

/-- `ImportManifest`: the records in the order of their keys. -/
@[ext] structure ImportManifest where
  policy : ImportPolicy
  offline : Bool
  resolverConfigurationFingerprint : Bytes
  documents : List DocumentRecord
  edges : List ImportEdge
  ascending : KeyedSet.Ascending DocumentRecord.documentKey documents

namespace ImportManifest

def checkEdge (keys : List DocumentKey) (edge : ImportEdge) : Except Error Unit :=
  if edge.importingDocumentKey ∉ keys then .error (.valueError "edge importer is absent from manifest")
  else if edge.resolvedDocumentKey.any (· ∉ keys) then .error (.valueError "edge target is absent from manifest")
  else .ok ()

theorem ascending_insertionSort {documents : List DocumentRecord}
    (h : (documents.map DocumentRecord.documentKey).Nodup) : KeyedSet.Ascending DocumentRecord.documentKey
      (documents.insertionSort fun a b => a.documentKey ≤ b.documentKey) := by
  have hperm := List.perm_insertionSort (fun a b : DocumentRecord => a.documentKey ≤ b.documentKey) documents
  have hsorted := List.pairwise_insertionSort (fun a b : DocumentRecord => a.documentKey ≤ b.documentKey) documents
  have hdistinct := List.pairwise_map.mp ((hperm.map DocumentRecord.documentKey).nodup_iff.mpr h)
  exact (hsorted.and hdistinct).imp fun hab => lt_of_le_of_ne hab.1 hab.2

def make (policy : ImportPolicy) (offline : Bool) (configuration : Bytes) (documents : List DocumentRecord)
    (edges : List ImportEdge) : Except Error ImportManifest :=
  if h : (documents.map DocumentRecord.documentKey).Nodup then do
    let ordered := edges.insertionSort fun a b => a.sortKey ≤ b.sortKey
    ordered.forM (checkEdge (documents.map DocumentRecord.documentKey))
    pure ⟨policy, offline, configuration, documents.insertionSort fun a b => a.documentKey ≤ b.documentKey,
      ordered, ascending_insertionSort h⟩
  else .error (.valueError "manifest document keys must be unique")

def canonicalBytes (manifest : ImportManifest) : Bytes :=
  utf8Encode "pyowl-core:import-manifest:v1\x00" ++ Varint.frame (utf8Encode manifest.policy.value) ++
    [if manifest.offline then 1 else 0] ++ manifest.resolverConfigurationFingerprint ++
    Varint.encode manifest.documents.length ++ (manifest.documents.map DocumentRecord.bytes).flatten ++
    Varint.encode manifest.edges.length ++ (manifest.edges.map ImportEdge.bytes).flatten

end ImportManifest

def snapshotStructuralFingerprint (hash : Hash) (manifest : ImportManifest)
    (documents : List (DocumentKey × ScopedDocument)) : Fingerprint where
  schema := 2
  digest := hash.digest (utf8Encode "pyowl-core:snapshot-structural:v2\x00" ++
    Varint.frame manifest.canonicalBytes ++ documents.flatMap fun entry =>
      Varint.frame entry.1 ++ collectionParts entry.2.annotations ++ collectionParts entry.2.axioms ++
        collectionParts entry.2.extensions)

/-- `OntologySnapshot`: the fields that its constructor derives are stored. -/
structure OntologySnapshot where
  manifest : ImportManifest
  rows : List ClosureRow
  rootDocumentKey : DocumentKey
  context : Option StructuralContext
  entries : List (DocumentKey × ScopedDocument)
  annotations : List Node
  axioms : List Node
  extensions : List Node
  fingerprints : Fingerprints

section

variable (hash : Hash)

/-- The members of all scoped documents; the set of a single document is taken as it is. -/
def closureMembers (select : ScopedDocument → List Node) : List ScopedDocument → List Node
  | [only] => select only
  | values => KeyedSet.ofList Node.bytes (values.flatMap select)

/-- `scoped[record.document_key]` for the records of the manifest. -/
def manifestEntries (manifest : ImportManifest) (entries : List (DocumentKey × ScopedDocument)) :
    List (DocumentKey × ScopedDocument) :=
  manifest.documents.filterMap fun record => (scopedAt entries record.documentKey).map (record.documentKey, ·)

/-- The structural fingerprint of a snapshot without an override. -/
def computedStructural (manifest : ImportManifest) (context : Option StructuralContext)
    (entries : List (DocumentKey × ScopedDocument)) (annotations axioms extensions : List Node) : Fingerprint :=
  match context with
  | none => snapshotStructuralFingerprint hash manifest (manifestEntries manifest entries)
  | some context => effectiveStructuralFingerprint hash context annotations axioms.length axioms extensions

def preservedDocuments (rows : List ClosureRow) : List (DocumentKey × ScopedDocument) :=
  rows.map fun row => (row.record.documentKey, .ofDocument row.document)

/-- The fields of a snapshot from those given to the constructor. -/
def OntologySnapshot.derive (manifest : ImportManifest) (rows : List ClosureRow)
    (rootDocumentKey : DocumentKey) (preserveDocumentScopes : Bool) (context : Option StructuralContext)
    (override : Option Fingerprint) : OntologySnapshot :=
  let entries := if preserveDocumentScopes then preservedDocuments rows else scopeDocuments hash rows
  let values := entries.map Prod.snd
  let annotations := closureMembers ScopedDocument.annotations values
  let axioms := closureMembers ScopedDocument.axioms values
  let extensions := closureMembers ScopedDocument.extensions values
  let structural := override.getD (computedStructural hash manifest context entries annotations axioms extensions)
  ⟨manifest, rows, rootDocumentKey, context, entries, annotations, axioms, extensions,
    contentFingerprints hash structural annotations axioms extensions⟩

/-- `OntologySnapshot.__post_init__`. -/
def OntologySnapshot.construct (manifest : ImportManifest) (rows : List ClosureRow)
    (rootDocumentKey : DocumentKey) (preserveDocumentScopes : Bool) (context : Option StructuralContext)
    (override : Option Fingerprint) : Except Error OntologySnapshot :=
  if rootDocumentKey ∉ rows.map fun row => row.record.documentKey then
    .error (.valueError "root_document_key must identify the exact root document")
  else .ok (derive hash manifest rows rootDocumentKey preserveDocumentScopes context override)

end

section

variable {hash : Hash}

theorem OntologySnapshot.construct_eq_ok {manifest : ImportManifest} {rows : List ClosureRow}
    {rootDocumentKey : DocumentKey} {preserve : Bool} {context : Option StructuralContext}
    {override : Option Fingerprint} {s : OntologySnapshot} :
    construct hash manifest rows rootDocumentKey preserve context override = .ok s ↔
      rootDocumentKey ∈ rows.map (fun row => row.record.documentKey) ∧
        s = derive hash manifest rows rootDocumentKey preserve context override := by
  unfold construct
  split
  · rename_i h
    simp [h]
  · rename_i h
    rw [not_not] at h
    simp only [h, true_and, Except.ok.injEq]
    exact eq_comm

theorem ImportManifest.make_eq_ok {policy : ImportPolicy} {offline : Bool} {configuration : Bytes}
    {documents : List DocumentRecord} {edges : List ImportEdge} {manifest : ImportManifest} :
    make policy offline configuration documents edges = .ok manifest ↔
      ∃ h : (documents.map DocumentRecord.documentKey).Nodup,
        (∀ edge ∈ edges, checkEdge (documents.map DocumentRecord.documentKey) edge = .ok ()) ∧
        manifest = ⟨policy, offline, configuration, documents.insertionSort fun a b => a.documentKey ≤ b.documentKey,
          edges.insertionSort fun a b => a.sortKey ≤ b.sortKey, ascending_insertionSort h⟩ := by
  unfold make
  split
  · rename_i h
    simp only [check_bind_eq_ok, forM_eq_ok, List.mem_insertionSort, pure, Except.pure, Except.ok.injEq]
    exact ⟨fun hmade => ⟨h, hmade.1, hmade.2.symm⟩, fun ⟨_, hedges, hmade⟩ => ⟨hedges, hmade.symm⟩⟩
  · rename_i h
    simp [h]

end

end OwlCore
