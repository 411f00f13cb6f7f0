import OwlCore.Closure.Loader
import OwlCore.Closure.Preimages

/-!
# What the loader retains

A library answers an import IRI with a document or not at all. The loader retains exactly the
documents that imports lead to from the root, whatever cycles, diamonds and aliases there are,
and one edge for every import. The invariant: each import of a retained document has its edge or
waits in the queue.
-/
namespace OwlCore

open Fallible KeyedSet List Orders Varint

/-- The documents that the resolver finds, by import IRI. -/
abbrev Library := Node → Option SourcedDocument

/-- The outcome of an import under `RECORD_UNRESOLVED`. -/
def Library.resolve (library : Library) (item : PendingImport) : Except Error ImportOutcome :=
  .ok (match library item.importIri with
    | some source => .resolved source "mapping"
    | none => .failed .unresolved (by decide) "mapping" "UNRESOLVED_IMPORT")

/-- A chain of the given number of imports leads from the root to the document. -/
inductive ReachableIn (library : Library) (root : SourcedDocument) : Nat → SourcedDocument → Prop where
  | root : ReachableIn library root 0 root
  | step {n : Nat} {source target : SourcedDocument} {iri : Node} (hsource : ReachableIn library root n source)
      (himport : iri ∈ source.document.directImports) (htarget : library iri = some target) :
      ReachableIn library root (n + 1) target

def Reachable (library : Library) (root source : SourcedDocument) : Prop :=
  ∃ n, ReachableIn library root n source

def documentKeyPreimage (hash : Hash) (document : OntologyDocument) (importIri : Option Node) : Bytes :=
  utf8Encode "pyowl-core:document-key:v2\x00" ++ match identityClaim document with
    | none => utf8Encode "anonymous" ++ (document.fingerprint hash).digest ++
        (importIri.elim [] fun iri => Varint.frame iri.bytes)
    | some identity => utf8Encode "named" ++ identity.flatMap fun item => Varint.frame (utf8Encode item)

theorem documentKey_eq {hash : Hash} :
    documentKey hash document importIri =
      utf8Encode ("d2:" ++ hexdigest (hash.digest (documentKeyPreimage hash document importIri))) := rfl

theorem digest_eq_of_documentKey_eq {hash : Hash} (h : documentKey hash document importIri = documentKey hash
    document' importIri') :
    hash.digest (documentKeyPreimage hash document importIri) = hash.digest (documentKeyPreimage hash document' importIri') := by
  rw [documentKey_eq, documentKey_eq] at h
  exact append_hexdigest_inj.mp (utf8Encode_injective h)

theorem flatMap_frame_inj : ∀ {l l' : List String},
    (l.flatMap fun item => Varint.frame (utf8Encode item)) = (l'.flatMap fun item => Varint.frame (utf8Encode item)) →
      l = l'
  | [], [], _ => rfl
  | [], item :: _, h => by
    have hne := frame_ne_nil (utf8Encode item)
    simp [flatMap_cons, hne] at h
  | item :: _, [], h => by
    have hne := frame_ne_nil (utf8Encode item)
    simp [flatMap_cons, hne] at h
  | item :: l, item' :: l', h => by
    rw [flatMap_cons, flatMap_cons] at h
    obtain ⟨hitem, hrest⟩ := frame_append_inj _ _ _ _ h
    rw [utf8Encode_injective hitem, flatMap_frame_inj hrest]

/-- What a key says about its document: the identity of a named document, the structure and
the import IRI of any other. -/
theorem identity_of_documentKeyPreimage_eq {hash : Hash} (h : documentKeyPreimage hash document importIri =
    documentKeyPreimage hash document' importIri') :
    identityClaim document = identityClaim document' ∧
      (identityClaim document = none → importIri.map Node.bytes = importIri'.map Node.bytes) := by
  have hanonymous : ∃ rest, utf8Encode "anonymous" = 97 :: rest := ⟨_, rfl⟩
  have hnamed : ∃ rest, utf8Encode "named" = 110 :: rest := ⟨_, rfl⟩
  obtain ⟨restA, hrestA⟩ := hanonymous
  obtain ⟨restN, hrestN⟩ := hnamed
  have hpayload := append_cancel_left h
  cases hclaim : identityClaim document with
  | none =>
    cases hclaim' : identityClaim document' with
    | none =>
      simp only [hclaim, hclaim', append_assoc] at hpayload
      have hparts := append_inj (append_cancel_left hpayload)
        ((hash.length_digest _).trans (hash.length_digest _).symm)
      refine ⟨rfl, fun _ => ?_⟩
      cases importIri with
      | none =>
        cases importIri' with
        | none => rfl
        | some iri => exact absurd hparts.2.symm (frame_ne_nil _)
      | some iri =>
        cases importIri' with
        | none => exact absurd hparts.2 (frame_ne_nil _)
        | some iri' => exact congrArg some (frame_injective hparts.2)
    | some _ => simp [hclaim, hclaim', hrestA, hrestN] at hpayload
  | some _ =>
    cases hclaim' : identityClaim document' with
    | none => simp [hclaim, hclaim', hrestA, hrestN] at hpayload
    | some _ =>
      simp only [hclaim, hclaim'] at hpayload
      refine ⟨congrArg some (flatMap_frame_inj (append_cancel_left hpayload)), fun hnone => by cases hnone⟩

def importsOf (nodes : List ClosureNode) : List (DocumentKey × Node) :=
  nodes.flatMap fun node => node.source.document.directImports.map (node.key, ·)

def ImportEdge.place (edge : ImportEdge) : DocumentKey × Node := (edge.importingDocumentKey, edge.importIri)

def PendingImport.place (item : PendingImport) : DocumentKey × Node := (item.importingDocumentKey, item.importIri)

/-- The edge has the node of the document that the library gives as its target, or no target. -/
def EdgeFits (library : Library) (nodes : List ClosureNode) (edge : ImportEdge) : Prop :=
  match library edge.importIri with
  | some target => ∃ node ∈ nodes, node.source = target ∧ edge.resolvedDocumentKey = some node.key
  | none => edge.resolvedDocumentKey = none

/-- The IRIs under which a document can be retained: none for the root, else one of the imports. -/
def retainingIris (documents : List SourcedDocument) : List (Option Node) :=
  none :: documents.flatMap fun source => source.document.directImports.map some

/-- The reachable documents can be loaded: not too many, none too deep to follow its imports, none with
the identity of another, and told apart by digests. -/
structure Loadable (hash : Hash) (limits : ParseLimits) (library : Library) (root : SourcedDocument)
    (documents : List SourcedDocument) : Prop where
  reachable : ∀ source, source ∈ documents ↔ Reachable library root source
  count : documents.length ≤ limits.maxDocuments
  depth : ∀ source ∈ documents, source.document.directImports ≠ [] →
    ∃ n < limits.maxImportDepth, ReachableIn library root n source
  identified : ∀ source ∈ documents, source.document.Identified
  identity : ∀ a ∈ documents, ∀ b ∈ documents, identityClaim a.document ≠ none →
    identityClaim a.document = identityClaim b.document → a = b
  version : ∀ a ∈ documents, ∀ b ∈ documents, ∀ iri ∈ a.document.ontologyId.versionIri,
    b.document.ontologyId.versionIri.map iriValue = some (iriValue iri) → a = b
  fingerprints : ∀ a ∈ documents, ∀ b ∈ documents,
    hash.digest a.document.fingerprintPreimage = hash.digest b.document.fingerprintPreimage →
      a.document.fingerprintPreimage = b.document.fingerprintPreimage
  keys : ∀ a ∈ documents, ∀ b ∈ documents, ∀ iri ∈ retainingIris documents, ∀ iri' ∈ retainingIris documents,
    hash.digest (documentKeyPreimage hash a.document iri) = hash.digest (documentKeyPreimage hash b.document iri') →
      documentKeyPreimage hash a.document iri = documentKeyPreimage hash b.document iri'

theorem ParseLimits.maxImportDepth_pos (limits : ParseLimits) : 0 < limits.maxImportDepth := by
  obtain ⟨-, -, -, -, -, -, -, -, -, -, -, -, -, -, -, hdepth, -⟩ := limits.positive
  exact hdepth

section

variable {hash : Hash} {limits : ParseLimits} {library : Library} {root : SourcedDocument}
  {documents : List SourcedDocument}

theorem OntologyID.ext_iris {a b : OntologyID} (h : a.ontologyIri = b.ontologyIri) (h' : a.versionIri = b.versionIri) :
    a = b := by
  cases a
  cases b
  simp_all

section

variable (h : Loadable hash limits library root documents)

include h

theorem Loadable.mem_retainingIris (himporter : Reachable library
    root importer) (hiri : iri ∈ importer.document.directImports) :
    some iri ∈ retainingIris documents :=
  mem_cons_of_mem _
    (mem_flatMap.mpr ⟨importer, (h.reachable _).mpr himporter, mem_map_of_mem hiri⟩)

theorem Loadable.constructible_import (himporter : Reachable library
    root importer) (hiri : iri ∈ importer.document.directImports) :
    Constructible iri :=
  (h.identified _ ((h.reachable _).mpr himporter)).imports _ hiri

/-- A document with the source digest and the fingerprint of another is the other. -/
theorem Loadable.eq_of_sourceIdentity_eq {a b : SourcedDocument}
    (ha : a ∈ documents) (hb : b ∈ documents) (heq : a.sourceIdentity hash = b.sourceIdentity hash) : a = b := by
  have hsource : a.sourceSha256 = b.sourceSha256 := congrArg Prod.fst heq
  have hbytes := h.fingerprints a ha b hb (congrArg Prod.snd heq)
  obtain ⟨hontology, hversion, himports, hannotations, haxioms, hextensions⟩ :=
    documentFingerprintBytes_inj (h.identified a ha) (h.identified b hb)
      ((documentFingerprintBytes_v2 _).trans (hbytes.trans (documentFingerprintBytes_v2 _).symm))
  have hid := OntologyID.ext_iris hontology hversion
  obtain ⟨⟨_, _, _, _, _, _, _, _, _⟩, _, _⟩ := a
  obtain ⟨⟨_, _, _, _, _, _, _, _, _⟩, _, _⟩ := b
  simp only at hid himports hannotations haxioms hextensions hsource
  subst hid himports hannotations haxioms hextensions hsource
  rfl

end

/-- The state of a batch: the queue holds what is left of it. -/
structure Progress (hash : Hash) (limits : ParseLimits) (library : Library) (root : SourcedDocument)
    {rootKey : DocumentKey} (level : Nat) (state : LoadState rootKey) (queue : List PendingImport) : Prop where
  reachable : ∀ node ∈ state.nodes, Reachable library root node.source
  sources_nodup : (state.nodes.map ClosureNode.source).Nodup
  keys : ∀ node ∈ state.nodes, node.source = root ∧ node.key = documentKey hash root.document none ∨
    ∃ iri importer, Reachable library root importer ∧ iri ∈ importer.document.directImports ∧
      library iri = some node.source ∧ node.key = documentKey hash node.source.document (some iri)
  places : Perm (importsOf state.nodes)
    (state.edges.map ImportEdge.place ++ (queue ++ state.pending).map PendingImport.place)
  fits : ∀ edge ∈ state.edges, EdgeFits library state.nodes edge
  queue_level : ∀ item ∈ queue, item.depth = level ∧ level ≤ limits.maxImportDepth
  pending_level : ∀ item ∈ state.pending, item.depth = level + 1 ∧ level < limits.maxImportDepth
  below : ∀ source n, n < level → ReachableIn library root n source → source ∈ state.nodes.map ClosureNode.source

theorem initialPending_eq_ok (h : document.directImports ≠ [] → (parent.elim 1 fun item => item.depth + 1) ≤
    limits.maxImportDepth) :
    initialPending limits key document parent = .ok (document.directImports.map fun iri =>
      ⟨key, iri, parent.elim [] PendingImport.chain ++ [iri], parent.elim 1 fun item => item.depth + 1⟩) := by
  rw [initialPending, mapM_eq_ok, forall₂_map_right_iff, forall₂_same]
  intro iri hiri
  rw [check_bind_eq_ok]
  exact ⟨enforceLimit_ok.mpr (h (ne_nil_of_mem hiri)), rfl⟩

theorem registerIdentity_eq_ok (hidentity : ∀ node ∈ nodes, identityClaim source.document ≠ none → identityClaim
    node.source.document ≠ identityClaim source.document) (hversion : ∀ node ∈ nodes, ∀ iri ∈
    source.document.ontologyId.versionIri, node.source.document.ontologyId.versionIri.map iriValue ≠ some (iriValue
    iri)) :
    registerIdentity nodes source = .ok () := by
  unfold registerIdentity
  split
  · rfl
  · rename_i claim hclaim
    have hnone : (nodes.find? fun node => identityClaim node.source.document = some claim) = none := by
      rw [find?_eq_none]
      intro node hnode
      have hne := hidentity node hnode (by simp [hclaim])
      rw [hclaim] at hne
      simpa using hne
    rw [hnone]
    simp only [Option.any_none, Bool.false_eq_true, if_false]
    split
    · rfl
    · rename_i version hiri
      have hnone : (nodes.find? fun node => node.source.document.ontologyId.versionIri.map iriValue =
          some (iriValue version)) = none := by
        rw [find?_eq_none]
        intro node hnode
        simpa using hversion node hnode version hiri
      rw [hnone]
      simp

section

variable {level : Nat} {state : LoadState rootKey} {item : PendingImport} {queue : List PendingImport}

theorem EdgeFits.mono (h : EdgeFits library nodes edge) (hnodes : ∀ node ∈ nodes, node ∈ nodes') :
    EdgeFits library nodes' edge := by
  unfold EdgeFits at h ⊢
  split
  · rename_i target htarget
    rw [htarget] at h
    obtain ⟨node, hnode, hfits⟩ := h
    exact ⟨node, hnodes node hnode, hfits⟩
  · rename_i hnone
    rwa [hnone] at h

section

variable (h : Progress hash limits library root level state (item :: queue))

include h

theorem Progress.importer :
    ∃ importer, Reachable library root importer ∧ item.importIri ∈ importer.document.directImports := by
  have hplace : item.place ∈ importsOf state.nodes :=
    h.places.mem_iff.mpr (mem_append_right _ (mem_map_of_mem (by simp)))
  obtain ⟨node, hnode, hplace⟩ := mem_flatMap.mp hplace
  obtain ⟨iri, hiri, heq⟩ := mem_map.mp hplace
  have hsame : iri = item.importIri := congrArg Prod.snd heq
  exact ⟨node.source, h.reachable node hnode, hsame ▸ hiri⟩

theorem Progress.target_reachable (htarget :
    library item.importIri = some target) : Reachable library root target := by
  obtain ⟨importer, ⟨n, hn⟩, himport⟩ := h.importer
  exact ⟨n + 1, hn.step himport htarget⟩

theorem Progress.link (hplace : edge.place =
    item.place) (hfits : EdgeFits library state.nodes edge) :
    Progress hash limits library root level { state with edges := state.edges ++ [edge] } queue where
  reachable := h.reachable
  sources_nodup := h.sources_nodup
  keys := h.keys
  places := by
    refine h.places.trans ?_
    simp only [map_append, map_cons, map_nil, hplace, cons_append, append_assoc, nil_append]
    exact Perm.refl _
  fits := by
    intro other hother
    rcases mem_append.mp hother with hother | hother
    · exact h.fits other hother
    · rw [mem_singleton.mp hother]
      exact hfits
  queue_level := fun other hother => h.queue_level other (mem_cons_of_mem _ hother)
  pending_level := h.pending_level
  below := h.below

theorem Progress.key_new (hload : Loadable hash limits library root documents) {target : SourcedDocument}
    (htarget : library item.importIri = some target) (hnew : ∀ node ∈ state.nodes, node.source ≠ target) :
    documentKey hash target.document (some item.importIri) ∉ state.nodes.map ClosureNode.key := by
  intro hmem
  obtain ⟨node, hnode, hkey⟩ := mem_map.mp hmem
  have hin := (hload.reachable _).mpr (h.reachable node hnode)
  have htin := (hload.reachable _).mpr (h.target_reachable htarget)
  obtain ⟨importer, himporter, himport⟩ := h.importer
  have hidentity : ∀ iri ∈ retainingIris documents, node.key = documentKey hash node.source.document iri →
      identityClaim node.source.document = identityClaim target.document ∧
        (identityClaim node.source.document = none → iri.map Node.bytes = some item.importIri.bytes) := by
    intro iri hused hnodeKey
    have hdigest := digest_eq_of_documentKey_eq (hnodeKey.symm.trans hkey)
    exact identity_of_documentKeyPreimage_eq
      (hload.keys _ hin _ htin _ hused _ (hload.mem_retainingIris himporter himport) hdigest)
  rcases h.keys node hnode with ⟨hroot, hnodeKey⟩ | ⟨iri, first, hfirst, hiri, hlibrary, hnodeKey⟩
  · obtain ⟨hclaim, hiris⟩ := hidentity none mem_cons_self (hroot ▸ hnodeKey)
    by_cases hnone : identityClaim node.source.document = none
    · simpa using hiris hnone
    · exact hnew node hnode (hload.identity _ hin _ htin hnone hclaim)
  · obtain ⟨hclaim, hiris⟩ := hidentity (some iri) (hload.mem_retainingIris hfirst hiri) hnodeKey
    by_cases hnone : identityClaim node.source.document = none
    · have heq := (hload.constructible_import hfirst hiri).bytes_inj (hload.constructible_import himporter himport)
        (Option.some.inj (hiris hnone))
      rw [heq, htarget] at hlibrary
      exact hnew node hnode (Option.some.inj hlibrary).symm
    · exact hnew node hnode (hload.identity _ hin _ htin hnone hclaim)

end

/-- What `LoadState.add` changes. -/
theorem LoadState.add_eq_ok (name : String) (hkey : documentKey hash source.document (some item.importIri) ∉
    state.nodes.map ClosureNode.key) (hcount : state.nodes.length + 1 ≤ limits.maxDocuments) (hdepth :
    source.document.directImports ≠ [] → item.depth + 1 ≤ limits.maxImportDepth) :
    ∃ next, state.add hash limits item source name = .ok next ∧
      next.nodes = state.nodes ++ [⟨documentKey hash source.document (some item.importIri), source, .resolved⟩] ∧
      next.edges = state.edges ++
        [resolvedEdge item (documentKey hash source.document (some item.importIri)) name] ∧
      next.pending = state.pending ++ source.document.directImports.map fun iri =>
        ⟨documentKey hash source.document (some item.importIri), iri, item.chain ++ [iri], item.depth + 1⟩ := by
  unfold LoadState.add
  simp only [dif_neg hkey, bind_eq_ok]
  exact ⟨_, ⟨(), enforceLimit_ok.mpr hcount, _, initialPending_eq_ok hdepth, rfl⟩, rfl, rfl, rfl⟩

section

variable (h : Progress hash limits library root level state (item :: queue))

include h

theorem Progress.add (hload : Loadable hash limits library root documents) {target : SourcedDocument}
    (htarget : library item.importIri = some target) (hnew : ∀ node ∈ state.nodes, node.source ≠ target)
    (name : String) : ∃ next, state.add hash limits item target name = .ok next ∧
      Progress hash limits library root level next queue ∧ (∀ edge ∈ state.edges, edge ∈ next.edges) ∧
        ∃ edge ∈ next.edges, edge.place = item.place := by
  have hreachable := h.target_reachable htarget
  have hlevel : item.depth = level := (h.queue_level item mem_cons_self).1
  have hsources : (state.nodes.map ClosureNode.source ++ [target]).Nodup := by
    rw [nodup_append]
    refine ⟨h.sources_nodup, nodup_singleton _, fun source hsource other hother heq => ?_⟩
    obtain ⟨node, hnode, rfl⟩ := mem_map.mp hsource
    exact hnew node hnode (heq.trans (mem_singleton.mp hother))
  have hcount : state.nodes.length + 1 ≤ limits.maxDocuments := by
    refine Nat.le_trans ?_ hload.count
    have hsubset : (state.nodes.map ClosureNode.source ++ [target]) ⊆ documents := by
      intro source hsource
      rw [hload.reachable]
      rcases mem_append.mp hsource with hsource | hsource
      · obtain ⟨node, hnode, rfl⟩ := mem_map.mp hsource
        exact h.reachable node hnode
      · rwa [mem_singleton.mp hsource]
    have hlength := (subperm_of_subset hsources hsubset).length_le
    simpa using hlength
  -- A document found in this batch is not reachable by a shorter chain.
  have hdeep : target.document.directImports ≠ [] → level < limits.maxImportDepth := by
    intro himports
    obtain ⟨n, hn, hchain⟩ := hload.depth target ((hload.reachable _).mpr hreachable) himports
    by_contra hle
    obtain ⟨node, hnode, hsource⟩ := mem_map.mp (h.below target n (by omega) hchain)
    exact hnew node hnode hsource
  have hkey := h.key_new hload htarget hnew
  obtain ⟨importer, himporter, himport⟩ := h.importer
  obtain ⟨next, hadd, hnodes, hedges, hpending⟩ := LoadState.add_eq_ok name hkey hcount
    (fun himports => by rw [hlevel]; exact hdeep himports)
  refine ⟨next, hadd, ?_, ?_, ?_⟩
  · refine ⟨?_, ?_, ?_, ?_, ?_, ?_, ?_, ?_⟩
    · intro node hnode
      rw [hnodes, mem_append, mem_singleton] at hnode
      rcases hnode with hnode | rfl
      · exact h.reachable node hnode
      · exact hreachable
    · rw [hnodes, map_append]
      exact hsources
    · intro node hnode
      rw [hnodes, mem_append, mem_singleton] at hnode
      rcases hnode with hnode | rfl
      · exact h.keys node hnode
      · exact .inr ⟨item.importIri, importer, himporter, himport, htarget, rfl⟩
    · have hsplit : importsOf next.nodes = importsOf state.nodes ++ target.document.directImports.map
          (documentKey hash target.document (some item.importIri), ·) := by
        rw [hnodes, importsOf, flatMap_append, flatMap_singleton]
        rfl
      rw [hsplit, hedges, hpending]
      refine (h.places.append_right _).trans ?_
      simp only [map_append, map_cons, map_nil, cons_append, append_assoc, nil_append, map_map]
      exact Perm.refl _
    · intro edge hedge
      rw [hedges, mem_append, mem_singleton] at hedge
      rcases hedge with hedge | rfl
      · exact (h.fits edge hedge).mono fun node hnode => by rw [hnodes]; exact mem_append_left _ hnode
      · rw [EdgeFits, resolvedEdge, htarget]
        refine ⟨⟨documentKey hash target.document (some item.importIri), target, .resolved⟩, ?_, rfl, rfl⟩
        rw [hnodes]
        exact mem_append_right _ (mem_singleton_self _)
    · exact fun other hother => h.queue_level other (mem_cons_of_mem _ hother)
    · intro other hother
      rw [hpending, mem_append] at hother
      rcases hother with hother | hother
      · exact h.pending_level other hother
      · obtain ⟨iri, himport, rfl⟩ := mem_map.mp hother
        exact ⟨congrArg (· + 1) hlevel, hdeep (ne_nil_of_mem himport)⟩
    · intro source n hn hchain
      rw [hnodes, map_append]
      exact mem_append_left _ (h.below source n hn hchain)
  · intro edge hedge
    rw [hedges]
    exact mem_append_left _ hedge
  · refine ⟨resolvedEdge item (documentKey hash target.document (some item.importIri)) name, ?_, rfl⟩
    rw [hedges]
    exact mem_append_right _ (mem_singleton_self _)

/-- One import of a batch: it is processed without an error and gets its edge. -/
theorem Progress.step (hload : Loadable hash limits library root documents) :
    ∃ next, state.process hash limits library.resolve item = .ok next ∧
      Progress hash limits library root level next queue ∧ (∀ edge ∈ state.edges, edge ∈ next.edges) ∧
        ∃ edge ∈ next.edges, edge.place = item.place := by
  have hlinked : ∀ edge : ImportEdge, edge.place = item.place → EdgeFits library state.nodes edge →
      Progress hash limits library root level { state with edges := state.edges ++ [edge] } queue ∧
        (∀ other ∈ state.edges, other ∈ state.edges ++ [edge]) ∧
          ∃ other ∈ state.edges ++ [edge], other.place = item.place := fun edge hplace hfits =>
    ⟨h.link hplace hfits, fun _ => mem_append_left _, edge, by simp, hplace⟩
  cases htarget : library item.importIri with
  | none =>
    refine ⟨_, ?_, hlinked (failedEdge item .unresolved (by decide) "mapping" "UNRESOLVED_IMPORT") rfl ?_⟩
    · simp only [LoadState.process, Library.resolve, htarget]
      rfl
    · rw [EdgeFits, failedEdge, htarget]
  | some target =>
    have hin := (hload.reachable _).mpr (h.target_reachable htarget)
    cases hfind : state.nodes.find? fun node => node.source.sourceIdentity hash = target.sourceIdentity hash with
    | some retained =>
      have hnode := mem_of_find?_eq_some hfind
      have hsource : retained.source = target := by
        refine hload.eq_of_sourceIdentity_eq ((hload.reachable _).mpr (h.reachable _ hnode)) hin ?_
        simpa using find?_some hfind
      refine ⟨_, ?_, hlinked (resolvedEdge item retained.key "mapping") rfl ?_⟩
      · simp only [LoadState.process, Library.resolve, htarget]
        simp only [bind, Except.bind, hfind]
        rfl
      · rw [EdgeFits, resolvedEdge, htarget]
        exact ⟨retained, hnode, hsource, rfl⟩
    | none =>
      have hnew : ∀ node ∈ state.nodes, node.source ≠ target := by
        intro node hnode heq
        simpa [heq] using find?_eq_none.mp hfind node hnode
      have hregister : registerIdentity state.nodes target = .ok () := by
        refine registerIdentity_eq_ok (fun node hnode hnamed hclaim => ?_) fun node hnode iri hiri hversion => ?_
        · exact hnew node hnode
            (hload.identity _ hin _ ((hload.reachable _).mpr (h.reachable _ hnode)) hnamed hclaim.symm).symm
        · exact hnew node hnode
            (hload.version _ hin _ ((hload.reachable _).mpr (h.reachable _ hnode)) iri hiri hversion).symm
      obtain ⟨next, hadd, hnext⟩ := h.add hload htarget hnew "mapping"
      refine ⟨next, ?_, hnext⟩
      simp only [LoadState.process, Library.resolve, htarget]
      simp only [bind, Except.bind, hfind, hregister]
      exact hadd

end

theorem Progress.batch (hload : Loadable hash limits library root documents) {queue : List PendingImport} :
    ∀ {state : LoadState rootKey}, Progress hash limits library root level state queue →
      ∃ next, queue.foldlM (LoadState.process hash limits library.resolve) state = .ok next ∧
        Progress hash limits library root level next [] ∧ (∀ edge ∈ state.edges, edge ∈ next.edges) ∧
          ∀ item ∈ queue, ∃ edge ∈ next.edges, edge.place = item.place := by
  induction queue with
  | nil => exact fun {state} h => ⟨state, rfl, h, fun _ => id, by simp⟩
  | cons item queue ih =>
    intro state h
    obtain ⟨middle, hstep, hmiddle, hkept, edge, hedge, hplace⟩ := h.step hload
    obtain ⟨next, hrest, hnext, hkept', hplaced⟩ := ih hmiddle
    refine ⟨next, ?_, hnext, fun other hother => hkept' other (hkept other hother), ?_⟩
    · rw [foldlM_cons, bind_eq_ok]
      exact ⟨middle, hstep, hrest⟩
    · intro other hother
      rcases mem_cons.mp hother with rfl | hother
      · exact ⟨edge, hkept' edge hedge, hplace⟩
      · exact hplaced other hother

section

variable (h : Progress hash limits library root level state queue)

include h

theorem Progress.perm (hperm : Perm queue queue') :
    Progress hash limits library root level state queue' :=
  { h with
    places := h.places.trans (((hperm.append_right _).map _).append_left _)
    queue_level := fun item hitem => h.queue_level item (hperm.mem_iff.mpr hitem) }

/-- The imports of a document that was retained before the batch lead to retained documents. -/
theorem Progress.target_retained {next : LoadState rootKey} (hempty : state.pending = [])
    (hnext : Progress hash limits library root level next []) (hkept : ∀ edge ∈ state.edges, edge ∈ next.edges)
    (hplaced : ∀ item ∈ queue, ∃ edge ∈ next.edges, edge.place = item.place) {source target : SourcedDocument}
    {iri : Node} (hsource : source ∈ state.nodes.map ClosureNode.source)
    (himport : iri ∈ source.document.directImports) (htarget : library iri = some target) :
    target ∈ next.nodes.map ClosureNode.source := by
  obtain ⟨node, hnode, rfl⟩ := mem_map.mp hsource
  have hplace : (node.key, iri) ∈ importsOf state.nodes :=
    mem_flatMap.mpr ⟨node, hnode, mem_map_of_mem himport⟩
  obtain ⟨edge, hedge, hat⟩ : ∃ edge ∈ next.edges, edge.place = (node.key, iri) := by
    have hcases := h.places.mem_iff.mp hplace
    rw [hempty, append_nil, mem_append] at hcases
    rcases hcases with hcases | hcases
    · obtain ⟨edge, hedge, hat⟩ := mem_map.mp hcases
      exact ⟨edge, hkept edge hedge, hat⟩
    · obtain ⟨item, hitem, hat⟩ := mem_map.mp hcases
      obtain ⟨edge, hedge, hitemPlace⟩ := hplaced item hitem
      exact ⟨edge, hedge, hitemPlace.trans hat⟩
  have hiri : edge.importIri = iri := congrArg Prod.snd hat
  have hfits := hnext.fits edge hedge
  rw [EdgeFits, hiri, htarget] at hfits
  obtain ⟨other, hother, rfl, -⟩ := hfits
  exact mem_map_of_mem hother

theorem Progress.advance {next : LoadState rootKey} (hpositive : 0 < level) (hempty : state.pending = [])
    (hnext : Progress hash limits library root level next []) (hkept : ∀ edge ∈ state.edges, edge ∈ next.edges)
    (hplaced : ∀ item ∈ queue, ∃ edge ∈ next.edges, edge.place = item.place) :
    Progress hash limits library root (level + 1) { next with pending := [] } next.pending where
  reachable := hnext.reachable
  sources_nodup := hnext.sources_nodup
  keys := hnext.keys
  places := by
    have hplaces := hnext.places
    rwa [nil_append, ← append_nil next.pending] at hplaces
  fits := hnext.fits
  queue_level := hnext.pending_level
  pending_level := by simp
  below := by
    intro source n hn hchain
    rcases Nat.lt_succ_iff_lt_or_eq.mp hn with hless | rfl
    · exact hnext.below source n hless hchain
    · cases hchain with
      | root => exact absurd hpositive (Nat.lt_irrefl 0)
      | step hparent himport htarget =>
        exact h.target_retained hempty hnext hkept hplaced (h.below _ _ (Nat.lt_succ_self _) hparent) himport htarget

end

theorem loadBatches_progress (hload : Loadable hash limits library root documents) (depth : Nat) :
    ∀ {level : Nat} {state : LoadState rootKey}, 0 < level → depth + level = limits.maxImportDepth + 1 →
      Progress hash limits library root level { state with pending := [] } state.pending →
      ∃ final finalLevel, loadBatches hash limits library.resolve depth state = .ok final ∧ 0 < finalLevel ∧
        Progress hash limits library root finalLevel final [] ∧ final.pending = [] := by
  induction depth with
  | zero =>
    intro level state hpositive hlevel h
    -- Every pending import would be deeper than the limit admits.
    have hpending : state.pending = [] := by
      refine eq_nil_iff_forall_not_mem.mpr fun item hitem => ?_
      have hbound := (h.queue_level item hitem).2
      omega
    refine ⟨state, level, rfl, hpositive, ?_, hpending⟩
    obtain ⟨_, _, _, _, _, _⟩ := state
    simp only at hpending
    subst hpending
    exact h
  | succ depth ih =>
    intro level state hpositive hlevel h
    by_cases hpending : state.pending = []
    · refine ⟨state, level, ?_, hpositive, ?_, hpending⟩
      · rw [loadBatches, hpending]
        rfl
      · obtain ⟨_, _, _, _, _, _⟩ := state
        simp only at hpending
        subst hpending
        exact h
    · have hsorted := h.perm (perm_insertionSort (fun a b => a.sortKey ≤ b.sortKey) state.pending).symm
      obtain ⟨next, hbatch, hnext, hkept, hplaced⟩ := hsorted.batch hload
      obtain ⟨final, finalLevel, hfinal, hresult⟩ := ih (Nat.succ_pos level) (by omega)
        (hsorted.advance hpositive rfl hnext hkept hplaced)
      refine ⟨final, finalLevel, ?_, hresult⟩
      rw [loadBatches, if_neg (by simpa using hpending), bind_eq_ok]
      exact ⟨next, hbatch, hfinal⟩

theorem progress_initial (pending : List PendingImport)
    (hpending : pending = root.document.directImports.map fun iri =>
      ⟨documentKey hash root.document none, iri, [iri], 1⟩) :
    Progress hash limits library root 1 (LoadState.initial hash root []) pending where
  reachable := by
    intro node hnode
    rw [mem_singleton.mp hnode]
    exact ⟨0, .root⟩
  sources_nodup := nodup_singleton _
  keys := by
    intro node hnode
    rw [mem_singleton.mp hnode]
    exact .inl ⟨rfl, rfl⟩
  places := by
    subst hpending
    simp only [LoadState.initial, importsOf, flatMap_cons, flatMap_nil, append_nil, map_nil, nil_append, map_map]
    exact Perm.refl _
  fits := by
    intro edge hedge
    cases hedge
  queue_level := by
    subst hpending
    intro item hitem
    obtain ⟨iri, -, rfl⟩ := mem_map.mp hitem
    exact ⟨rfl, limits.maxImportDepth_pos⟩
  pending_level := by
    intro item hitem
    cases hitem
  below := by
    intro source n hn hchain
    obtain rfl : n = 0 := by omega
    cases hchain
    exact mem_singleton_self _

theorem Progress.complete (h : Progress hash limits library root level state []) (hpositive : 0 < level)
    (hpending : state.pending = []) {source : SourcedDocument} (hsource : Reachable library root source) :
    source ∈ state.nodes.map ClosureNode.source := by
  obtain ⟨n, hchain⟩ := hsource
  induction hchain with
  | root => exact h.below root 0 hpositive .root
  | step _ himport htarget ih =>
    exact h.target_retained hpending h (fun _ => id) (by simp) ih himport htarget

end

def OntologySnapshot.RowOf (s : OntologySnapshot) (source : SourcedDocument) (row : ClosureRow) : Prop :=
  row ∈ s.rows ∧ row.document = source.document ∧ row.record.sourceSha256 = source.sourceSha256

/-- The manifest of a snapshot describes the import graph of the library from the root. -/
structure ExactManifest (library : Library) (root : SourcedDocument) (s : OntologySnapshot) : Prop where
  records : s.manifest.documents = s.rows.map ClosureRow.record
  retained : ∀ source, Reachable library root source → ∃ row, s.RowOf source row
  reached : ∀ row ∈ s.rows, ∃ source, Reachable library root source ∧ s.RowOf source row
  once : ∀ row ∈ s.rows, ∀ row' ∈ s.rows, row.document = row'.document →
    row.record.sourceSha256 = row'.record.sourceSha256 → row = row'
  edges_nodup : (s.manifest.edges.map ImportEdge.place).Nodup
  edges : ∀ place, place ∈ s.manifest.edges.map ImportEdge.place ↔
    ∃ row ∈ s.rows, ∃ iri ∈ row.document.directImports, place = (row.record.documentKey, iri)
  resolved : ∀ edge ∈ s.manifest.edges, ∀ target, library edge.importIri = some target →
    edge.status = .resolved ∧ ∃ row, s.RowOf target row ∧ edge.resolvedDocumentKey = some row.record.documentKey
  unresolved : ∀ edge ∈ s.manifest.edges, library edge.importIri = none →
    edge.status ≠ .resolved ∧ edge.resolvedDocumentKey = none

theorem SourcedDocument.ext_parts {a b : SourcedDocument} (h : a.document = b.document)
    (h' : a.sourceSha256 = b.sourceSha256) : a = b := by
  cases a
  cases b
  simp only at h h'
  subst h h'
  rfl

section

variable {level : Nat} {state : LoadState rootKey}

theorem LoadState.mem_rows : row ∈ state.rows hash ↔ ∃ node ∈ state.nodes, node.row hash = row := by
  rw [state.rows_perm.mem_iff, mem_map]

theorem nodup_importsOf (state : LoadState rootKey) : (importsOf state.nodes).Nodup := by
  rw [importsOf, nodup_flatMap]
  refine ⟨fun node _ => ?_, ?_⟩
  · exact node.source.imports_ascending.nodup.map fun a b h => congrArg Prod.snd h
  · refine (pairwise_map.mp state.keys_nodup).imp fun {a b} hne => ?_
    intro place hplace hplace'
    obtain ⟨_, -, rfl⟩ := mem_map.mp hplace
    obtain ⟨_, -, heq⟩ := mem_map.mp hplace'
    exact hne (congrArg Prod.fst heq).symm

section

variable (h : Progress hash limits library root level state [])

include h

theorem Progress.edges_perm (hpending : state.pending = []) :
    Perm (importsOf state.nodes) (state.edges.map ImportEdge.place) := by
  have hplaces := h.places
  rwa [hpending, append_nil, map_nil, append_nil] at hplaces

theorem Progress.checkEdge_eq_ok (hpending : state.pending =
    []) (hedge : edge ∈ state.edges) :
    ImportManifest.checkEdge (((state.rows hash).map ClosureRow.record).map DocumentRecord.documentKey) edge =
      .ok () := by
  have hkey : ∀ node ∈ state.nodes,
      node.key ∈ ((state.rows hash).map ClosureRow.record).map DocumentRecord.documentKey := by
    intro node hnode
    rw [map_map]
    exact mem_map.mpr ⟨node.row hash, LoadState.mem_rows.mpr ⟨node, hnode, rfl⟩, rfl⟩
  have himporter : edge.importingDocumentKey ∈
      ((state.rows hash).map ClosureRow.record).map DocumentRecord.documentKey := by
    have hplace := (h.edges_perm hpending).mem_iff.mpr (mem_map_of_mem hedge)
    obtain ⟨node, hnode, hplace⟩ := mem_flatMap.mp hplace
    obtain ⟨_, -, heq⟩ := mem_map.mp hplace
    have himporting : node.key = edge.importingDocumentKey := congrArg Prod.fst heq
    exact himporting ▸ hkey node hnode
  have htarget : edge.resolvedDocumentKey.any
      (· ∉ ((state.rows hash).map ClosureRow.record).map DocumentRecord.documentKey) = false := by
    have hfits := h.fits edge hedge
    unfold EdgeFits at hfits
    split at hfits
    · obtain ⟨node, hnode, -, hresolved⟩ := hfits
      simpa [hresolved] using hkey node hnode
    · rw [hfits]
      rfl
  rw [ImportManifest.checkEdge, if_neg (not_not.mpr himporter), htarget]
  rfl

theorem Progress.exactManifest (hpositive : 0 < level)
    (hpending : state.pending = []) {s : OntologySnapshot} (hrows : s.rows = state.rows hash)
    (hrecords : s.manifest.documents = s.rows.map ClosureRow.record)
    (hedges : Perm s.manifest.edges state.edges) : ExactManifest library root s := by
  have hnode : ∀ {node : ClosureNode}, node ∈ state.nodes → s.RowOf node.source (node.row hash) := by
    intro node hnode
    refine ⟨?_, rfl, rfl⟩
    rw [hrows]
    exact LoadState.mem_rows.mpr ⟨node, hnode, rfl⟩
  have hrow : ∀ {row : ClosureRow}, row ∈ s.rows → ∃ node ∈ state.nodes, node.row hash = row := by
    intro row hrow
    rw [hrows] at hrow
    exact LoadState.mem_rows.mp hrow
  have hplaces : Perm (importsOf state.nodes) (s.manifest.edges.map ImportEdge.place) :=
    (h.edges_perm hpending).trans (hedges.map _).symm
  have hfits : ∀ edge ∈ s.manifest.edges, EdgeFits library state.nodes edge := fun edge hedge =>
    h.fits edge (hedges.mem_iff.mp hedge)
  refine ⟨hrecords, fun source hsource => ?_, fun row hmem => ?_, ?_, ?_, fun place => ?_, ?_, ?_⟩
  · obtain ⟨node, hmem, rfl⟩ := mem_map.mp (h.complete hpositive hpending hsource)
    exact ⟨_, hnode hmem⟩
  · obtain ⟨node, hin, rfl⟩ := hrow hmem
    exact ⟨node.source, h.reachable node hin, hnode hin⟩
  · intro row hmem row' hmem' hdocument hsource
    obtain ⟨node, hin, rfl⟩ := hrow hmem
    obtain ⟨node', hin', rfl⟩ := hrow hmem'
    have heq : node.source = node'.source := SourcedDocument.ext_parts hdocument hsource
    rw [inj_on_of_nodup_map h.sources_nodup hin hin' heq]
  · exact hplaces.nodup_iff.mp (nodup_importsOf state)
  · rw [← hplaces.mem_iff, importsOf, mem_flatMap]
    constructor
    · rintro ⟨node, hmem, hplace⟩
      obtain ⟨iri, hiri, rfl⟩ := mem_map.mp hplace
      exact ⟨node.row hash, (hnode hmem).1, iri, hiri, rfl⟩
    · rintro ⟨row, hmem, iri, hiri, rfl⟩
      obtain ⟨node, hin, rfl⟩ := hrow hmem
      exact ⟨node, hin, mem_map_of_mem hiri⟩
  · intro edge hedge target htarget
    have hedgeFits := hfits edge hedge
    rw [EdgeFits, htarget] at hedgeFits
    obtain ⟨node, hmem, rfl, hresolved⟩ := hedgeFits
    exact ⟨edge.target_iff.mpr (by rw [hresolved]; rfl), _, hnode hmem, hresolved⟩
  · intro edge hedge hnone
    have hedgeFits := hfits edge hedge
    rw [EdgeFits, hnone] at hedgeFits
    refine ⟨fun hstatus => ?_, hedgeFits⟩
    have hsome := edge.target_iff.mp hstatus
    rw [hedgeFits] at hsome
    cases hsome

end

end

/-- The batches of a load under `RECORD_UNRESOLVED`. -/
theorem loadState_progress (hload : Loadable hash limits library root documents) (hpolicy : options.imports =
    .recordUnresolved) :
    ∃ final level, loadState hash limits library.resolve options root = .ok final ∧ 0 < level ∧
      Progress hash limits library root level final [] ∧ final.pending = [] := by
  obtain ⟨pending, hqueue⟩ : ∃ pending, pending = root.document.directImports.map fun iri =>
      (⟨documentKey hash root.document none, iri, [iri], 1⟩ : PendingImport) := ⟨_, rfl⟩
  have hpending : initialPending limits (documentKey hash root.document none) root.document none = .ok pending := by
    rw [hqueue]
    exact initialPending_eq_ok fun _ => limits.maxImportDepth_pos
  have hinitial : Progress hash limits library root 1 { LoadState.initial hash root pending with pending := [] }
      (LoadState.initial hash root pending).pending := progress_initial pending hqueue
  obtain ⟨final, level, hrun, hresult⟩ :=
    loadBatches_progress hload limits.maxImportDepth Nat.one_pos rfl hinitial
  refine ⟨final, level, ?_, hresult⟩
  rw [loadState, hpolicy, bind_eq_ok]
  exact ⟨_, hpending, hrun⟩

end

/-- What the root leads to lies in every set that has the root and is closed under imports. -/
theorem Reachable.mem_of_closed {documents : List SourcedDocument} (h : Reachable library root source) (hroot : root ∈
    documents) (hclosed : ∀ importer ∈ documents, ∀ iri ∈ importer.document.directImports, ∀ target ∈ library iri,
    target ∈ documents) : source ∈ documents := by
  obtain ⟨n, hchain⟩ := h
  induction hchain with
  | root => exact hroot
  | step _ himport htarget ih => exact hclosed _ ih _ himport _ htarget

def importsOnly (ontologyIri : Option Node) (imports : List Node) (himports : Ascending Node.bytes imports)
    (text : String) : SourcedDocument where
  document := ⟨⟨ontologyIri, none, by simp⟩, imports, [], [], [], Node.ascending_nil, Node.ascending_nil,
    Node.ascending_nil, by simp⟩
  sourceSha256 := sha256.digest (utf8Encode text)
  imports_ascending := himports

/-- An ontology that imports itself, another one and one that is not found. -/
def cyclicRoot : SourcedDocument :=
  importsOnly (some (iriNode "urn:r")) [iriNode "urn:a", iriNode "urn:r", iriNode "urn:x"]
    (by unfold Ascending; decide +kernel)
    "Ontology(<urn:r> Import(<urn:a>) Import(<urn:r>) Import(<urn:x>))"

def cyclicImport : SourcedDocument :=
  importsOnly none [iriNode "urn:r"] (by unfold Ascending; decide +kernel) "Ontology(Import(<urn:r>))"

def cyclicLibrary : Library := fun iri =>
  if iri = iriNode "urn:a" then some cyclicImport else if iri = iriNode "urn:r" then some cyclicRoot else none

theorem loadable_cyclic :
    Loadable sha256 defaultLimits cyclicLibrary cyclicRoot [cyclicRoot, cyclicImport] where
  reachable := by
    intro source
    constructor
    · intro h
      rcases mem_pair.mp h with rfl | rfl
      · exact ⟨0, .root⟩
      · exact ⟨1, .step .root mem_cons_self rfl⟩
    · intro h
      refine h.mem_of_closed mem_cons_self fun importer _ iri _ target htarget => ?_
      unfold cyclicLibrary at htarget
      split at htarget
      · simp [← Option.mem_some.mp htarget]
      · split at htarget
        · simp [← Option.mem_some.mp htarget]
        · cases htarget
  count := by decide
  depth := by
    intro source h _
    rcases mem_pair.mp h with rfl | rfl
    · exact ⟨0, by decide, .root⟩
    · exact ⟨1, by decide, .step .root mem_cons_self rfl⟩
  identified := by
    intro source h
    have hiris : ∀ source ∈ [cyclicRoot, cyclicImport], (∀ iri ∈ source.document.ontologyId.ontologyIri, iri.rebuilds) ∧
        (∀ iri ∈ source.document.ontologyId.versionIri, iri.rebuilds) ∧
          ∀ iri ∈ source.document.directImports, iri.rebuilds := by decide +kernel
    obtain ⟨hontology, hversion, himports⟩ := hiris source h
    exact ⟨fun iri hiri => constructible_of_rebuilds (hontology iri hiri),
      fun iri hiri => constructible_of_rebuilds (hversion iri hiri),
      fun iri hiri => constructible_of_rebuilds (himports iri hiri)⟩
  identity := by
    intro a ha b hb
    rcases mem_pair.mp ha with rfl | rfl
    · rcases mem_pair.mp hb with rfl | rfl
      · exact fun _ _ => rfl
      · exact fun _ hclaim => by cases hclaim
    · exact fun hnamed => absurd rfl hnamed
  version := by
    intro a ha b _ iri hiri
    rcases mem_pair.mp ha with rfl | rfl <;> cases hiri
  fingerprints := by decide +kernel
  keys := by decide +kernel

def twoSources : Library := fun iri =>
  some (importsOnly (some (iriNode "urn:d")) [] Node.ascending_nil
    (if iri = iriNode "urn:a" then "Ontology(<urn:d>)" else "Ontology( <urn:d>)"))

def loadTwoSources : Except Error OntologySnapshot :=
  loadSnapshot sha256 defaultLimits twoSources.resolve ⟨.recordUnresolved, true, List.replicate 32 0⟩
    (importsOnly none [iriNode "urn:a", iriNode "urn:b"] (by unfold Ascending; decide +kernel)
      "Ontology(Import(<urn:a>) Import(<urn:b>))")

end OwlCore
