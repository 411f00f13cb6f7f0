import OwlCore.Closure.Snapshot

/-!
# Loading an import closure

The loader processes pending imports batch by batch. A document is retained once for each source
digest and fingerprint, and no identity is claimed twice. The state carries that its keys are
distinct and one node is the root. How an import is located and parsed is a parameter.
-/
namespace OwlCore

open KeyedSet List Orders

structure SourcedDocument where
  document : OntologyDocument
  sourceSha256 : Bytes
  imports_ascending : Ascending Node.bytes document.directImports

def iriNode (iri : String) : Node := .mk .iri [.text iri]

/-- `iri.value`. -/
def iriValue (iri : Node) : String := String.join (iri.fields.map fieldText)

def identityClaim (document : OntologyDocument) : Option (List String) :=
  document.ontologyId.ontologyIri.map fun ontology =>
    match document.ontologyId.versionIri with
    | none => ["ontology", iriValue ontology]
    | some version => ["version", iriValue ontology, iriValue version]

def documentKey (hash : Hash) (document : OntologyDocument) (importIri : Option Node) : DocumentKey :=
  let payload := match identityClaim document with
    | none => utf8Encode "anonymous" ++ (document.fingerprint hash).digest ++
        (importIri.elim [] fun iri => Varint.frame iri.bytes)
    | some identity => utf8Encode "named" ++ identity.flatMap fun item => Varint.frame (utf8Encode item)
  utf8Encode ("d2:" ++ hexdigest (hash.digest (utf8Encode "pyowl-core:document-key:v2\x00" ++ payload)))

def SourcedDocument.sourceIdentity (hash : Hash) (sourced : SourcedDocument) : Bytes × Bytes :=
  (sourced.sourceSha256, (sourced.document.fingerprint hash).digest)

/-- `_Node`. -/
structure ClosureNode where
  key : DocumentKey
  source : SourcedDocument
  status : DocumentStatus

/-- `_record`, with the document. -/
def ClosureNode.row (hash : Hash) (node : ClosureNode) : ClosureRow where
  record := ⟨node.key, node.source.document.ontologyId, node.source.sourceSha256,
    node.source.document.fingerprint hash, node.status⟩
  document := node.source.document
  imports_ascending := node.source.imports_ascending

/-- `_Pending`. -/
structure PendingImport where
  importingDocumentKey : DocumentKey
  importIri : Node
  chain : List Node
  depth : Nat

/-- `_pending_key`. -/
def PendingImport.sortKey (item : PendingImport) : Lex (Bytes × Lex (Bytes × List Bytes)) :=
  toLex (item.importIri.bytes, toLex (item.importingDocumentKey, item.chain.map Node.bytes))

inductive ImportOutcome where
  | resolved (source : SourcedDocument) (resolverName : String)
  | failed (status : ImportStatus) (unresolved : status ≠ .resolved) (resolverName : String) (code : String)

/-- `_register_identity`: the nodes retained so far answer the look-ups. -/
def registerIdentity (nodes : List ClosureNode) (source : SourcedDocument) : Except Error Unit :=
  match identityClaim source.document with
  | none => .ok ()
  | some claim =>
    if (nodes.find? fun node => identityClaim node.source.document = some claim).any
        fun retained => retained.source.sourceSha256 ≠ source.sourceSha256 then
      .error (.documentIdentityConflict "distinct byte sources claim the same ontology identity")
    else
      match source.document.ontologyId.versionIri with
      | none => .ok ()
      | some version =>
        if (nodes.find? fun node => node.source.document.ontologyId.versionIri.map iriValue =
            some (iriValue version)).any fun retained =>
              (retained.source.document.ontologyId.ontologyIri, retained.source.document.ontologyId.versionIri) ≠
                (source.document.ontologyId.ontologyIri, source.document.ontologyId.versionIri) then
          .error (.documentIdentityConflict "one version IRI is claimed by different ontology identities")
        else .ok ()

def initialPending (limits : ParseLimits) (key : DocumentKey) (document : OntologyDocument)
    (parent : Option PendingImport) : Except Error (List PendingImport) :=
  let depth := parent.elim 1 fun item => item.depth + 1
  document.directImports.mapM fun iri => do
    enforceLimit "max_import_depth" depth limits.maxImportDepth
    pure ⟨key, iri, parent.elim [] PendingImport.chain ++ [iri], depth⟩

structure LoadState (rootKey : DocumentKey) where
  nodes : List ClosureNode
  edges : List ImportEdge
  pending : List PendingImport
  keys_nodup : (nodes.map ClosureNode.key).Nodup
  one_root : (nodes.map ClosureNode.status).count .root = 1
  root_mem : ∃ node ∈ nodes, node.key = rootKey ∧ node.status = .root

section

variable (hash : Hash) (limits : ParseLimits) (resolve : PendingImport → Except Error ImportOutcome)
  {rootKey : DocumentKey}

def resolvedEdge (item : PendingImport) (target : DocumentKey) (resolverName : String) : ImportEdge :=
  ⟨item.importingDocumentKey, item.importIri, .resolved, some target, some resolverName, none, by simp⟩

def failedEdge (item : PendingImport) (status : ImportStatus) (h : status ≠ .resolved) (resolverName code : String) :
    ImportEdge :=
  ⟨item.importingDocumentKey, item.importIri, status, none, some resolverName, some code, by simpa using h⟩

/-- A new document: its node, its edge and its own imports are added. -/
def LoadState.add (state : LoadState rootKey) (item : PendingImport) (source : SourcedDocument)
    (resolverName : String) : Except Error (LoadState rootKey) :=
  let key := documentKey hash source.document (some item.importIri)
  if h : key ∈ state.nodes.map ClosureNode.key then
    .error (.documentIdentityConflict "canonical document key collision")
  else do
    enforceLimit "max_documents" (state.nodes.length + 1) limits.maxDocuments
    let next ← initialPending limits key source.document (some item)
    pure
      { nodes := state.nodes ++ [⟨key, source, .resolved⟩]
        edges := state.edges ++ [resolvedEdge item key resolverName]
        pending := state.pending ++ next
        keys_nodup := by
          rw [map_append, map_singleton, nodup_append]
          refine ⟨state.keys_nodup, nodup_singleton _, fun a ha b hb hab => h ?_⟩
          have hkey : a = key := hab.trans (mem_singleton.mp hb)
          exact hkey ▸ ha
        one_root := by simp [state.one_root]
        root_mem := state.root_mem.imp fun _ hnode => ⟨mem_append_left _ hnode.1, hnode.2⟩ }

def LoadState.process (state : LoadState rootKey) (item : PendingImport) : Except Error (LoadState rootKey) := do
  match ← resolve item with
  | .failed status h resolverName code =>
    pure { state with edges := state.edges ++ [failedEdge item status h resolverName code] }
  | .resolved source resolverName =>
    match state.nodes.find? fun node => node.source.sourceIdentity hash = source.sourceIdentity hash with
    | some retained => pure { state with edges := state.edges ++ [resolvedEdge item retained.key resolverName] }
    | none => do
      registerIdentity state.nodes source
      state.add hash limits item source resolverName

/-- The batches; the imports of the last admitted depth have no imports of their own. -/
def loadBatches : Nat → LoadState rootKey → Except Error (LoadState rootKey)
  | 0, state => .ok state
  | depth + 1, state =>
    if state.pending.isEmpty then .ok state
    else do
      let batch := state.pending.insertionSort fun a b => a.sortKey ≤ b.sortKey
      let next ← batch.foldlM (LoadState.process hash limits resolve) { state with pending := [] }
      loadBatches depth next

def LoadState.initial (root : SourcedDocument) (pending : List PendingImport) :
    LoadState (documentKey hash root.document none) where
  nodes := [⟨documentKey hash root.document none, root, .root⟩]
  edges := []
  pending := pending
  keys_nodup := nodup_singleton _
  one_root := rfl
  root_mem := ⟨_, mem_singleton_self _, rfl, rfl⟩

def LoadState.rows (state : LoadState rootKey) : List ClosureRow :=
  (state.nodes.map (ClosureNode.row hash)).insertionSort fun a b => a.record.documentKey ≤ b.record.documentKey

structure LoadOptions where
  imports : ImportPolicy
  offline : Bool
  resolverConfigurationFingerprint : Bytes

def ignoredEdge (item : PendingImport) : ImportEdge :=
  ⟨item.importingDocumentKey, item.importIri, .ignored, none, none, none, by decide⟩

def loadState (options : LoadOptions) (root : SourcedDocument) :
    Except Error (LoadState (documentKey hash root.document none)) := do
  let pending ← initialPending limits (documentKey hash root.document none) root.document none
  if options.imports = .ignore then
    pure { LoadState.initial hash root [] with edges := pending.map ignoredEdge }
  else loadBatches hash limits resolve limits.maxImportDepth (LoadState.initial hash root pending)

/-- `SnapshotLoader.load`. -/
def loadSnapshot (options : LoadOptions) (root : SourcedDocument) : Except Error OntologySnapshot := do
  let state ← loadState hash limits resolve options root
  let rows := state.rows hash
  let manifest ← ImportManifest.make options.imports options.offline options.resolverConfigurationFingerprint
    (rows.map ClosureRow.record) state.edges
  OntologySnapshot.construct hash manifest rows (documentKey hash root.document none) false none none

end

section

variable {hash : Hash}

structure OntologySnapshot.Loaded (hash : Hash) (s : OntologySnapshot) : Prop where
  ascending : Ascending (fun row : ClosureRow => row.record.documentKey) s.rows
  fingerprinted : Fingerprinted hash s.rows
  one_root : (s.rows.map fun row => row.record.status).count .root = 1
  root_row : ∃ row ∈ s.rows, row.record.documentKey = s.rootDocumentKey ∧ row.record.status = .root
  made : ∃ edges, ImportManifest.make s.manifest.policy s.manifest.offline
    s.manifest.resolverConfigurationFingerprint (s.rows.map ClosureRow.record) edges = .ok s.manifest
  derived : s = OntologySnapshot.derive hash s.manifest s.rows s.rootDocumentKey false none none

variable {s : OntologySnapshot}

theorem OntologySnapshot.Loaded.distinctKeys (h : s.Loaded hash) : DistinctKeys s.rows :=
  pairwise_map.mpr (h.ascending.imp fun hlt => ne_of_lt hlt)

theorem OntologySnapshot.Loaded.documents_eq (h : s.Loaded hash) : s.manifest.documents = s.rows.map ClosureRow.record := by
  obtain ⟨_, hmade⟩ := h.made
  obtain ⟨_, -, hmanifest⟩ := ImportManifest.make_eq_ok.mp hmade
  rw [hmanifest]
  refine List.Pairwise.insertionSort_eq (pairwise_map.mpr ?_)
  exact h.ascending.imp fun hlt => le_of_lt hlt

theorem LoadState.rows_perm (state : LoadState rootKey) :
    Perm (state.rows hash) (state.nodes.map (ClosureNode.row hash)) :=
  perm_insertionSort _ _

theorem LoadState.ascending_rows (state : LoadState rootKey) :
    Ascending (fun row : ClosureRow => row.record.documentKey) (state.rows hash) := by
  have hsorted := pairwise_insertionSort
    (fun a b : ClosureRow => a.record.documentKey ≤ b.record.documentKey) (state.nodes.map (ClosureNode.row hash))
  have hkeys : ((state.rows hash).map fun row => row.record.documentKey).Nodup := by
    rw [(state.rows_perm.map _).nodup_iff, map_map]
    exact state.keys_nodup
  exact (hsorted.and (pairwise_map.mp hkeys)).imp fun hab => lt_of_le_of_ne hab.1 hab.2

theorem loadSnapshot_loaded (h : loadSnapshot hash limits resolve options root = .ok s) : s.Loaded hash := by
  simp only [loadSnapshot, Fallible.bind_eq_ok] at h
  obtain ⟨state, -, manifest, hmade, hconstruct⟩ := h
  obtain ⟨-, rfl⟩ := OntologySnapshot.construct_eq_ok.mp hconstruct
  refine ⟨state.ascending_rows, fun row hrow => ?_, ?_, ?_, ⟨state.edges, ?_⟩, rfl⟩
  · obtain ⟨node, -, rfl⟩ := mem_map.mp (state.rows_perm.mem_iff.mp hrow)
    rfl
  · refine (Perm.count_eq (state.rows_perm.map _) _).trans ?_
    rw [map_map]
    exact state.one_root
  · obtain ⟨node, hnode, hkey, hstatus⟩ := state.root_mem
    exact ⟨node.row hash, state.rows_perm.mem_iff.mpr (mem_map_of_mem hnode), hkey, hstatus⟩
  · obtain ⟨_, _, hmanifest⟩ := ImportManifest.make_eq_ok.mp hmade
    subst hmanifest
    exact hmade

end

end OwlCore
