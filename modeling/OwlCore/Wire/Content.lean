import OwlCore.Closure.Loader
import OwlCore.Document.Faithful
import OwlCore.Wire.Table

/-!
# Snapshots on the wire

What the rows of an image say: the documents with raw and effective values, the manifest and the
summary of the view. Writing a snapshot replaces every source digest by the digest of the
structure; reading rebuilds the snapshot and compares it with the summary and the effective
values.
-/
namespace OwlCore

open Fallible KeyedSet List

/-- A decoded row of `DOCUMENTS`; the model rows it refers to are constructed values. -/
structure WireDocument where
  record : DocumentRecord
  ontologyId : OntologyID
  directImports : List Node
  rawAnnotations : List Node
  rawAxioms : List Node
  rawExtensions : List Node
  effective : ScopedDocument
  constructible : ∀ n ∈ rawAnnotations ++ rawAxioms ++ rawExtensions, Constructible n

/-- The row of `VIEW`. -/
structure ViewSummary where
  rootDocumentKey : DocumentKey
  context : Option StructuralContext
  fingerprints : Fingerprints
  annotations : List Node
  axioms : List Node
  extensions : List Node

structure WireContent where
  documents : List WireDocument
  policy : ImportPolicy
  offline : Bool
  resolverDigest : Bytes
  edges : List ImportEdge
  view : ViewSummary

section

variable (hash : Hash)

/-- The document of a row, its sets and its imports put into canonical order. -/
def WireDocument.document (wire : WireDocument) : OntologyDocument where
  ontologyId := wire.ontologyId
  directImports := KeyedSet.ofList Node.bytes wire.directImports
  ontologyAnnotations := KeyedSet.ofList Node.bytes wire.rawAnnotations
  axioms := KeyedSet.ofList Node.bytes wire.rawAxioms
  extensionComponents := KeyedSet.ofList Node.bytes wire.rawExtensions
  annotations_ascending := ascending_ofList _
  axioms_ascending := ascending_ofList _
  extensions_ascending := ascending_ofList _
  constructible := by
    intro n hn
    refine wire.constructible n ?_
    simp only [mem_append] at hn ⊢
    exact hn.imp (Or.imp mem_of_mem_ofList mem_of_mem_ofList) mem_of_mem_ofList

/-- The row as it goes into the manifest and the snapshot. -/
def WireDocument.row (wire : WireDocument) : ClosureRow where
  record := wire.record
  document := wire.document
  imports_ascending := ascending_ofList _

def decodeDocumentRow (wire : WireDocument) : Except Error ClosureRow := do
  reject (wire.document.fingerprint hash ≠ wire.record.documentFingerprint)
    (corrupt "DOCUMENTS document fingerprint mismatch")
  pure wire.row

/-- The checks of `inspect_image` and `_read_view` on the decoded rows. -/
def checkSummary (content : WireContent) : Except Error Unit := do
  let keys := content.documents.map fun wire => wire.record.documentKey
  reject (¬ keys.Nodup) (corrupt "duplicate document key in DOCUMENTS")
  reject ((content.documents.map fun wire => wire.record.status).count .root ≠ 1)
    (corrupt "DOCUMENTS must contain exactly one root record")
  reject (content.view.rootDocumentKey ∉ keys) (corrupt "VIEW root document key is invalid")
  reject (content.view.context.any fun context =>
      context.kind = .overlay ∧ context.fingerprints.length ≠ 1)
    (corrupt "overlay VIEW context must have one anchor")
  reject (content.view.context.any fun context =>
      context.kind = .composite ∧ context.fingerprints.length < 2)
    (corrupt "composite VIEW context must have at least two members")

/-- `_assert_postings`: the values against the rows that are referred to. -/
def assertPostings (expected values : List Node) (label : String) : Except Error Unit := do
  reject (values.length ≠ expected.length) (corrupt (label ++ " count mismatch"))
  reject (values.map Node.bytes ≠ expected.map Node.bytes) (corrupt (label ++ " reference mismatch"))

/-- The values of a document against its effective postings. -/
def assertDocument (entries : List (DocumentKey × ScopedDocument)) (wire : WireDocument) : Except Error Unit := do
  let values := (scopedAt entries wire.record.documentKey).getD ⟨[], [], []⟩
  assertPostings wire.effective.annotations values.annotations "DOCUMENTS effective annotations"
  assertPostings wire.effective.axioms values.axioms "DOCUMENTS effective axioms"
  assertPostings wire.effective.extensions values.extensions "DOCUMENTS effective extensions"

def compareDecodedView (content : WireContent) (snapshot : OntologySnapshot) : Except Error Unit := do
  reject (snapshot.fingerprints ≠ content.view.fingerprints)
    (corrupt "decoded ontology fingerprints disagree with VIEW")
  reject ((content.documents.find? fun wire => wire.record.documentKey = content.view.rootDocumentKey).any
      fun wire => wire.record.status ≠ .root)
    (corrupt "VIEW root key does not identify the root document record")
  content.documents.forM (assertDocument snapshot.entries)
  assertPostings content.view.annotations snapshot.annotations "VIEW annotations"
  assertPostings content.view.axioms snapshot.axioms "VIEW axioms"
  assertPostings content.view.extensions snapshot.extensions "VIEW extensions"

/-- The constructor call of `materialize_image`: with a context the scopes are kept and the
structural fingerprint of the view is taken over. -/
def constructSnapshot (view : ViewSummary) (manifest : ImportManifest) (rows : List ClosureRow) :
    Except Error OntologySnapshot :=
  match view.context with
  | none => OntologySnapshot.construct hash manifest rows view.rootDocumentKey false none none
  | some context => OntologySnapshot.construct hash manifest rows view.rootDocumentKey true (some context)
      (some view.fingerprints.structural)

def materializeImage (content : WireContent) : Except Error OntologySnapshot := do
  checkSummary content
  let decoded ← content.documents.mapM (decodeDocumentRow hash)
  let manifest ← ImportManifest.make content.policy content.offline content.resolverDigest
    (decoded.map ClosureRow.record) content.edges
  let rows := decoded.insertionSort fun a b => a.record.documentKey ≤ b.record.documentKey
  let snapshot ← constructSnapshot hash content.view manifest rows
  compareDecodedView content snapshot
  pure snapshot

end

/-- `_document_row`: the record is written with the digest of the structure as source. -/
def wireDocument (entries : List (DocumentKey × ScopedDocument)) (row : ClosureRow) : WireDocument where
  record := row.canonicalSource.record
  ontologyId := row.document.ontologyId
  directImports := row.document.directImports
  rawAnnotations := row.document.ontologyAnnotations
  rawAxioms := row.document.axioms
  rawExtensions := row.document.extensionComponents
  effective := (scopedAt entries row.record.documentKey).getD ⟨[], [], []⟩
  constructible := row.document.constructible

/-- The rows that `encode_snapshot` writes for a snapshot. -/
def wireContent (s : OntologySnapshot) : WireContent where
  documents := s.rows.map (wireDocument s.entries)
  policy := s.manifest.policy
  offline := s.manifest.offline
  resolverDigest := s.manifest.resolverConfigurationFingerprint
  edges := s.manifest.edges
  view := ⟨s.rootDocumentKey, s.context, s.fingerprints, s.annotations, s.axioms, s.extensions⟩

section

variable {hash : Hash} {s : OntologySnapshot}

theorem document_wireDocument : (wireDocument entries row).document = row.document := by
  obtain ⟨_, document, himports⟩ := row
  obtain ⟨_, _, _, _, _, hannotations, haxioms, hextensions, _⟩ := document
  simp only [WireDocument.document, wireDocument, ofList_eq_self himports,
    ofList_eq_self hannotations, ofList_eq_self haxioms, ofList_eq_self hextensions]

theorem row_wireDocument : (wireDocument entries row).row = row.canonicalSource := by
  have hdocument : (wireDocument entries row).document = row.document := document_wireDocument
  obtain ⟨_, document, himports⟩ := row
  simp only [WireDocument.row, ClosureRow.canonicalSource, hdocument]
  rfl

theorem decodeDocumentRow_wireDocument (h : row.record.documentFingerprint = row.document.fingerprint hash) :
    decodeDocumentRow hash (wireDocument entries row) = .ok row.canonicalSource := by
  have hmatch : (wireDocument entries row).document.fingerprint hash =
      (wireDocument entries row).record.documentFingerprint := by
    rw [document_wireDocument]
    exact h.symm
  rw [decodeDocumentRow, check_bind_eq_ok, reject_eq_ok, row_wireDocument]
  exact ⟨not_not.mpr hmatch, rfl⟩

theorem mapM_decodeDocumentRow (h : Fingerprinted hash rows) :
    (rows.map (wireDocument entries)).mapM (decodeDocumentRow hash) = .ok (rows.map ClosureRow.canonicalSource) := by
  rw [mapM_eq_ok, forall₂_map_left_iff, forall₂_map_right_iff, forall₂_same]
  exact fun row hrow => decodeDocumentRow_wireDocument (h row hrow)

def ImportManifest.canonicalSource (manifest : ImportManifest) : ImportManifest :=
  { manifest with
    documents := manifest.documents.map fun record =>
      { record with sourceSha256 := record.documentFingerprint.digest }
    ascending := by
      rw [Ascending, pairwise_map]
      exact manifest.ascending }

theorem ImportManifest.canonicalBytes_canonicalSource (manifest : ImportManifest) :
    manifest.canonicalSource.canonicalBytes = manifest.canonicalBytes := by
  simp only [canonicalBytes, canonicalSource, length_map, map_map]
  rfl

namespace OntologySnapshot.Loaded

section

variable (h : s.Loaded hash)

include h

theorem rows_sorted : (s.rows.map ClosureRow.canonicalSource).insertionSort
    (fun a b => a.record.documentKey ≤ b.record.documentKey) = s.rows.map ClosureRow.canonicalSource := by
  refine List.Pairwise.insertionSort_eq (pairwise_map.mpr ?_)
  exact h.ascending.imp fun hlt => le_of_lt hlt

theorem make_canonicalSource :
    ImportManifest.make s.manifest.policy s.manifest.offline s.manifest.resolverConfigurationFingerprint
      ((s.rows.map ClosureRow.canonicalSource).map ClosureRow.record) s.manifest.edges =
        .ok s.manifest.canonicalSource := by
  have hkeys : ((s.rows.map ClosureRow.canonicalSource).map ClosureRow.record).map DocumentRecord.documentKey =
      (s.rows.map ClosureRow.record).map DocumentRecord.documentKey := by
    simp only [map_map]
    rfl
  obtain ⟨edges, hmade⟩ := h.made
  obtain ⟨hnodup, hedges, hmanifest⟩ := ImportManifest.make_eq_ok.mp hmade
  have hsorted : s.manifest.edges = edges.insertionSort fun a b => a.sortKey ≤ b.sortKey := by rw [hmanifest]
  refine ImportManifest.make_eq_ok.mpr ⟨hkeys ▸ hnodup, fun edge hedge => ?_, ImportManifest.ext rfl rfl rfl ?_ ?_⟩
  · rw [hsorted, mem_insertionSort] at hedge
    rw [hkeys]
    exact hedges edge hedge
  · have hdocuments : s.manifest.canonicalSource.documents =
        (s.rows.map ClosureRow.canonicalSource).map ClosureRow.record := by
      simp only [ImportManifest.canonicalSource, h.documents_eq, map_map]
      rfl
    rw [hdocuments]
    refine (List.Pairwise.insertionSort_eq ?_).symm
    rw [map_map, pairwise_map]
    exact h.ascending.imp fun hlt => le_of_lt hlt
  · change s.manifest.edges = _
    rw [hsorted]
    exact (List.Pairwise.insertionSort_eq (pairwise_insertionSort _ _)).symm

theorem entries_eq : s.entries = scopeDocuments hash s.rows :=
  congrArg OntologySnapshot.entries h.derived

theorem context_eq : s.context = none := congrArg OntologySnapshot.context h.derived

theorem checkSummary_wireContent : checkSummary (wireContent s) = .ok () := by
  have hkeys : (wireContent s).documents.map (fun wire => wire.record.documentKey) =
      s.rows.map fun row => row.record.documentKey := by
    simp only [wireContent, map_map]
    rfl
  have hroots : (wireContent s).documents.map (fun wire => wire.record.status) =
      s.rows.map fun row => row.record.status := by
    simp only [wireContent, map_map]
    rfl
  have hcontext : (wireContent s).view.context = none := h.context_eq
  obtain ⟨row, hrow, hkey, -⟩ := h.root_row
  simp only [checkSummary, check_bind_eq_ok, reject_eq_ok, hkeys, hroots, hcontext]
  refine ⟨not_not.mpr h.distinctKeys, not_not.mpr h.one_root, not_not.mpr ?_, by simp, by simp⟩
  exact mem_map.mpr ⟨row, hrow, hkey⟩

theorem root_status (hwire : wire ∈ (wireContent s).documents) (hkey : wire.record.documentKey =
    s.rootDocumentKey) : wire.record.status = .root := by
  obtain ⟨row, hrow, rfl⟩ := mem_map.mp hwire
  obtain ⟨root, hroot, hrootKey, hstatus⟩ := h.root_row
  obtain rfl := h.distinctKeys.eq hrow hroot (hkey.trans hrootKey.symm)
  exact hstatus

end

end OntologySnapshot.Loaded

def OntologySnapshot.canonicalSource (hash : Hash) (s : OntologySnapshot) : OntologySnapshot :=
  .derive hash s.manifest.canonicalSource (s.rows.map ClosureRow.canonicalSource) s.rootDocumentKey false none none

def SameScoping (hash : Hash) (s : OntologySnapshot) : Prop :=
  ∀ key, scopedAt (scopeDocuments hash (s.rows.map ClosureRow.canonicalSource)) key =
    scopedAt (scopeDocuments hash s.rows) key

theorem assertPostings_self : assertPostings values values label = .ok () := by
  simp [assertPostings, check_bind_eq_ok]

theorem manifestEntries_canonicalSource (hsame : SameScoping hash s) :
    manifestEntries s.manifest.canonicalSource (scopeDocuments hash (s.rows.map ClosureRow.canonicalSource)) =
      manifestEntries s.manifest (scopeDocuments hash s.rows) := by
  simp only [manifestEntries, ImportManifest.canonicalSource, filterMap_map]
  refine filterMap_congr fun record _ => ?_
  simp only [Function.comp_apply]
  rw [hsame]

namespace OntologySnapshot.Loaded

section

variable (h : s.Loaded hash)

include h

theorem members_canonicalSource (hhash : ∀ x ∈ closurePreimages s.rows, ∀ y ∈ closurePreimages s.rows, hash.digest x = hash.digest y → x = y) :
    (s.canonicalSource hash).annotations = s.annotations ∧ (s.canonicalSource hash).axioms = s.axioms ∧
      (s.canonicalSource hash).extensions = s.extensions := by
  have hvalues := scopedValues_canonicalSource h.fingerprinted hhash
  have hmembers : ∀ select, closureMembers select
      ((scopeDocuments hash (s.rows.map ClosureRow.canonicalSource)).map Prod.snd) =
        closureMembers select ((scopeDocuments hash s.rows).map Prod.snd) := fun select => by rw [hvalues]
  exact ⟨(hmembers _).trans (congrArg OntologySnapshot.annotations h.derived).symm,
    (hmembers _).trans (congrArg OntologySnapshot.axioms h.derived).symm,
    (hmembers _).trans (congrArg OntologySnapshot.extensions h.derived).symm⟩

theorem structural_canonicalSource (hsame : SameScoping hash s) :
    (s.canonicalSource hash).fingerprints.structural = s.fingerprints.structural := by
  calc (s.canonicalSource hash).fingerprints.structural
      = snapshotStructuralFingerprint hash s.manifest.canonicalSource (manifestEntries s.manifest.canonicalSource
          (scopeDocuments hash (s.rows.map ClosureRow.canonicalSource))) := rfl
    _ = snapshotStructuralFingerprint hash s.manifest (manifestEntries s.manifest (scopeDocuments hash s.rows)) := by
        rw [snapshotStructuralFingerprint, snapshotStructuralFingerprint,
          ImportManifest.canonicalBytes_canonicalSource, manifestEntries_canonicalSource hsame]
    _ = s.fingerprints.structural := by
        conv_rhs => rw [h.derived]
        rfl

theorem fingerprints_canonicalSource (hhash : ∀ x ∈ closurePreimages s.rows, ∀ y ∈ closurePreimages s.rows, hash.digest x = hash.digest y → x = y)
    (hsame : SameScoping hash s) : (s.canonicalSource hash).fingerprints = s.fingerprints := by
  obtain ⟨hannotations, haxioms, hextensions⟩ := h.members_canonicalSource hhash
  calc (s.canonicalSource hash).fingerprints
      = contentFingerprints hash (s.canonicalSource hash).fingerprints.structural (s.canonicalSource hash).annotations
          (s.canonicalSource hash).axioms (s.canonicalSource hash).extensions := rfl
    _ = contentFingerprints hash s.fingerprints.structural s.annotations s.axioms s.extensions := by
        rw [h.structural_canonicalSource hsame, hannotations, haxioms, hextensions]
    _ = s.fingerprints := by
        rw [h.derived]
        rfl

/-- The written rows are read as the snapshot over canonical sources, which is compared with the view. -/
theorem materializeImage_eq : materializeImage hash (wireContent s) =
    (fun _ => s.canonicalSource hash) <$> compareDecodedView (wireContent s) (s.canonicalSource hash) := by
  have hcontext : (wireContent s).view.context = none := h.context_eq
  have hconstruct : constructSnapshot hash (wireContent s).view s.manifest.canonicalSource
      (s.rows.map ClosureRow.canonicalSource) = .ok (s.canonicalSource hash) := by
    obtain ⟨row, hrow, hkey, -⟩ := h.root_row
    rw [constructSnapshot, hcontext]
    refine OntologySnapshot.construct_eq_ok.mpr ⟨?_, rfl⟩
    rw [map_map]
    exact mem_map.mpr ⟨row, hrow, hkey⟩
  rw [← h.rows_sorted] at hconstruct
  have hdecoded : (wireContent s).documents.mapM (decodeDocumentRow hash) = .ok (s.rows.map ClosureRow.canonicalSource) :=
    mapM_decodeDocumentRow h.fingerprinted
  have hmake : ImportManifest.make (wireContent s).policy (wireContent s).offline (wireContent s).resolverDigest
      ((s.rows.map ClosureRow.canonicalSource).map ClosureRow.record) (wireContent s).edges =
        .ok s.manifest.canonicalSource := h.make_canonicalSource
  simp only [materializeImage, h.checkSummary_wireContent, hdecoded, bind, Except.bind, hmake, hconstruct]
  cases compareDecodedView (wireContent s) (s.canonicalSource hash) <;> rfl

/-- With unchanged scoping the written rows are read back without an error. -/
theorem materializeImage_wireContent (hhash : ∀ x ∈ closurePreimages s.rows, ∀ y ∈ closurePreimages s.rows, hash.digest x = hash.digest y → x = y)
    (hsame : SameScoping hash s) :
    materializeImage hash (wireContent s) = .ok (s.canonicalSource hash) := by
  obtain ⟨hannotations, haxioms, hextensions⟩ := h.members_canonicalSource hhash
  have hcompare : compareDecodedView (wireContent s) (s.canonicalSource hash) = .ok () := by
    simp only [compareDecodedView, check_bind_eq_ok, reject_eq_ok, forM_eq_ok]
    refine ⟨not_not.mpr (h.fingerprints_canonicalSource hhash hsame), ?_, fun wire hwire => ?_, ?_, ?_, ?_⟩
    · rw [Option.any_eq_true]
      rintro ⟨wire, hfind, hstatus⟩
      have hkey : wire.record.documentKey = (wireContent s).view.rootDocumentKey := by
        simpa using find?_some hfind
      have hroot := h.root_status (mem_of_find?_eq_some hfind) hkey
      simp [hroot] at hstatus
    · obtain ⟨row, hrow, rfl⟩ := mem_map.mp hwire
      have hvalues : (scopedAt (s.canonicalSource hash).entries row.record.documentKey).getD ⟨[], [], []⟩ =
          (wireDocument s.entries row).effective := by
        rw [wireDocument, h.entries_eq]
        exact congrArg (Option.getD · _) (hsame _)
      change assertDocument (s.canonicalSource hash).entries (wireDocument s.entries row) = _
      simp only [assertDocument, check_bind_eq_ok]
      change assertPostings _ ((scopedAt (s.canonicalSource hash).entries row.record.documentKey).getD _).annotations _ = _ ∧
        assertPostings _ ((scopedAt (s.canonicalSource hash).entries row.record.documentKey).getD _).axioms _ = _ ∧
        assertPostings _ ((scopedAt (s.canonicalSource hash).entries row.record.documentKey).getD _).extensions _ = _
      rw [hvalues]
      exact ⟨assertPostings_self, assertPostings_self, assertPostings_self⟩
    · rw [hannotations]
      exact assertPostings_self
    · rw [haxioms]
      exact assertPostings_self
    · rw [hextensions]
      exact assertPostings_self
  rw [h.materializeImage_eq, hcompare]
  rfl

end

end OntologySnapshot.Loaded

/-- A loaded snapshot keeps its scoped documents under canonical source digests, and is read back from
the wire with the same sets, exactly when structurally equal documents with anonymous individuals have
their source digests in the order of their keys. -/
theorem loadSnapshot_wire_iff {limits : ParseLimits} {resolve : PendingImport → Except Error ImportOutcome}
    {options : LoadOptions} {root : SourcedDocument} (hload : loadSnapshot hash limits resolve options root = .ok s)
    (hhash : ∀ x ∈ closurePreimages s.rows, ∀ y ∈ closurePreimages s.rows, hash.digest x = hash.digest y → x = y) :
    (SameScoping hash s ∧ ∃ decoded, materializeImage hash (wireContent s) = .ok decoded ∧
      (∀ key, scopedAt decoded.entries key = scopedAt s.entries key) ∧ decoded.annotations = s.annotations ∧
        decoded.axioms = s.axioms ∧ decoded.extensions = s.extensions) ↔ SourceOrderAgrees s.rows := by
  have h := loadSnapshot_loaded hload
  have hscoping := scopedAt_canonicalSource_iff h.distinctKeys h.fingerprinted hhash
  constructor
  · rintro ⟨hsame, -⟩
    exact hscoping.mp hsame
  · intro hagrees
    have hsame : SameScoping hash s := hscoping.mpr hagrees
    refine ⟨hsame, s.canonicalSource hash, h.materializeImage_wireContent hhash hsame, fun key => ?_,
      h.members_canonicalSource hhash⟩
    rw [h.entries_eq]
    exact hsame key

end

def unnamedDocument (imports axioms : List Node) (himports : Ascending Node.bytes imports)
    (haxioms : Ascending Node.bytes axioms) (hrebuilds : ∀ r ∈ axioms, r.rebuilds) (text : String) :
    SourcedDocument where
  document := ⟨⟨none, none, OntologyID.unnamed_requires⟩, imports, [], axioms, [], Node.ascending_nil, haxioms, Node.ascending_nil,
    fun r hr => constructible_of_rebuilds (hrebuilds r (by simpa using hr))⟩
  sourceSha256 := sha256.digest (utf8Encode text)
  imports_ascending := himports

/-- The axioms of `Ontology(ClassAssertion(<urn:C> _:x))`. -/
def importedAxioms : List Node :=
  ((freezeDocumentAnonymous sha256 defaultLimits (axiomsInput [classAssertionNode (entityNode .class "urn:C")
    (provisionalAnonymous sha256 "x").node])).toOption.map FrozenDocument.axioms).getD []

/-- The imported ontology, with the given text before its axiom. -/
def importedDocument (layout : String) : SourcedDocument :=
  unnamedDocument [] importedAxioms Node.ascending_nil (by unfold Ascending; decide +kernel)
    (by decide +kernel) ("Ontology(" ++ layout ++ "ClassAssertion(<urn:C> _:x))")

theorem ascending_importing : Ascending Node.bytes [iriNode "urn:a", iriNode "urn:b"] := by
  unfold Ascending
  decide +kernel

theorem rebuilds_nil : ∀ r ∈ ([] : List Node), r.rebuilds := fun _ hr => absurd hr not_mem_nil

def importingDocument : SourcedDocument :=
  unnamedDocument [iriNode "urn:a", iriNode "urn:b"] [] ascending_importing
    Node.ascending_nil rebuilds_nil "Ontology(Import(<urn:a>) Import(<urn:b>))"

def loadTwoImports (layoutA layoutB : String) : Except Error OntologySnapshot :=
  loadSnapshot sha256 defaultLimits (fun item => .ok (.resolved
    (importedDocument (if item.importIri = iriNode "urn:a" then layoutA else layoutB)) "mapping"))
    ⟨.resolveLocal, true, List.replicate 32 0⟩ importingDocument

/-- A blank in one of the copies, and the snapshot is not accepted from the wire. -/
theorem loadTwoImports_rejected : ∃ s, loadTwoImports "" " " = .ok s ∧ ¬SameScoping sha256 s ∧
    materializeImage sha256 (wireContent s) =
      .error (.wireCorruption "decoded ontology fingerprints disagree with VIEW") := by
  have hrun : (loadTwoImports "" " ").toOption.any fun s =>
      (s.canonicalSource sha256).fingerprints.structural ≠ s.fingerprints.structural := by decide +kernel
  obtain ⟨s, hload, htest⟩ := exists_of_toOption_any hrun
  have hdiffer := of_decide_eq_true htest
  have h := loadSnapshot_loaded hload
  refine ⟨s, hload, fun hsame => hdiffer (h.structural_canonicalSource hsame), ?_⟩
  have hfingerprints : (s.canonicalSource sha256).fingerprints ≠ (wireContent s).view.fingerprints :=
    fun heq => hdiffer (congrArg _ heq)
  rw [h.materializeImage_eq, compareDecodedView, reject, if_pos hfingerprints]
  rfl

instance {rows : List ClosureRow} : Decidable (SourceOrderAgrees rows) :=
  inferInstanceAs (Decidable (∀ a ∈ rows, ∀ b ∈ rows, _))

/-- With the blank in the other copy the snapshot comes back. -/
theorem loadTwoImports_accepted : ∃ s decoded, loadTwoImports " " "" = .ok s ∧ SameScoping sha256 s ∧
    materializeImage sha256 (wireContent s) = .ok decoded ∧ decoded.axioms = s.axioms := by
  have hrun : (loadTwoImports " " "").toOption.any fun s : OntologySnapshot => decide (SourceOrderAgrees s.rows) &&
      decide (∀ x ∈ closurePreimages s.rows, ∀ y ∈ closurePreimages s.rows,
        sha256.digest x = sha256.digest y → x = y) := by decide +kernel
  obtain ⟨s, hload, htest⟩ := exists_of_toOption_any hrun
  rw [Bool.and_eq_true, decide_eq_true_eq, decide_eq_true_eq] at htest
  obtain ⟨hsame, decoded, hread, -, -, haxioms, -⟩ := (loadSnapshot_wire_iff hload htest.2).mpr htest.1
  exact ⟨s, decoded, hload, hsame, hread, haxioms⟩

end OwlCore
