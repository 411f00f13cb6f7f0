import OwlCore.Closure.Snapshot

/-!
# What fingerprints identify

The byte strings behind the document, the snapshot and the logical fingerprint, for both schema
versions. Document bytes determine the document, the streamed digest of a snapshot is that of
its bytes, and logical bytes determine exactly the set of logical axioms and extensions without
annotations.
-/
namespace OwlCore

open KeyedSet List Node

inductive FingerprintVersion where
  | v1
  | v2
  deriving DecidableEq

def FingerprintVersion.domain (name : String) : FingerprintVersion → Bytes
  | v1 => utf8Encode ("pyowl-core:" ++ name ++ ":v1\x00")
  | v2 => utf8Encode ("pyowl-core:" ++ name ++ ":v2\x00")

def documentFingerprintBytes (version : FingerprintVersion) (document : OntologyDocument) : Bytes :=
  version.domain "document-fingerprint" ++ (optionalIri document.ontologyId.ontologyIri ++
    (optionalIri document.ontologyId.versionIri ++ (collectionParts document.directImports ++
      (collectionParts document.ontologyAnnotations ++ (collectionParts document.axioms ++
        collectionParts document.extensionComponents)))))

theorem documentFingerprintBytes_v2 (document : OntologyDocument) :
    documentFingerprintBytes .v2 document = document.fingerprintPreimage := rfl

structure OntologyDocument.Identified (document : OntologyDocument) : Prop where
  ontologyIri : ∀ iri ∈ document.ontologyId.ontologyIri, Constructible iri
  versionIri : ∀ iri ∈ document.ontologyId.versionIri, Constructible iri
  imports : ∀ iri ∈ document.directImports, Constructible iri

theorem option_eq_of_bytes {iri iri' : Option Node} (h : ∀ n ∈ iri, Constructible n)
    (h' : ∀ n ∈ iri', Constructible n) (hbytes : iri.map Node.bytes = iri'.map Node.bytes) : iri = iri' := by
  cases iri with
  | none => simpa [eq_comm] using hbytes
  | some n =>
    cases iri' with
    | none => simp at hbytes
    | some m => rw [(h n rfl).bytes_inj (h' m rfl) (Option.some.inj hbytes)]

theorem documentFingerprintBytes_inj {version : FingerprintVersion} {document document' : OntologyDocument}
    (hidentified : document.Identified) (hidentified' : document'.Identified)
    (h : documentFingerprintBytes version document = documentFingerprintBytes version document') :
    document.ontologyId.ontologyIri = document'.ontologyId.ontologyIri ∧
      document.ontologyId.versionIri = document'.ontologyId.versionIri ∧
      document.directImports = document'.directImports ∧
      document.ontologyAnnotations = document'.ontologyAnnotations ∧ document.axioms = document'.axioms ∧
      document.extensionComponents = document'.extensionComponents := by
  have hrest := append_cancel_left h
  obtain ⟨hontology, hversion⟩ := optionalIri_append_inj hrest
  obtain ⟨hversion, himports⟩ := optionalIri_append_inj hversion
  obtain ⟨himports, hcollections⟩ := collectionParts_append_inj himports
  refine ⟨option_eq_of_bytes hidentified.ontologyIri hidentified'.ontologyIri hontology,
    option_eq_of_bytes hidentified.versionIri hidentified'.versionIri hversion,
    map_bytes_inj (fun a ha b hb => (hidentified.imports a ha).bytes_inj (hidentified'.imports b hb)) himports, ?_⟩
  exact OntologyDocument.collections_eq_of_parts hcollections

/-- An iterable as the hasher sees it: its values, and its size if it reports one. -/
structure IterableValues where
  values : List Node
  size : Option Nat
  size_eq : ∀ n ∈ size, n = values.length

structure IterableDocument where
  documentKey : DocumentKey
  annotations : IterableValues
  axioms : IterableValues
  extensions : IterableValues

/-- The arguments of `hasher.update` in `_update_collection`. -/
def IterableValues.updates (collection : IterableValues) : List Bytes :=
  Varint.encode (collection.size.getD collection.values.length) ::
    collection.values.map fun item => Varint.frame item.bytes

def streamedDigest (hash : Hash) (updates : List Bytes) : Bytes := hash.digest updates.flatten

/-- `_snapshot_structural_fingerprint_digest`. -/
def snapshotStructuralDigest (hash : Hash) (version : FingerprintVersion) (manifest : ImportManifest)
    (documents : List IterableDocument) : Bytes :=
  streamedDigest hash ([version.domain "snapshot-structural", Varint.frame manifest.canonicalBytes] ++
    documents.flatMap fun document => Varint.frame document.documentKey ::
      (document.annotations.updates ++ document.axioms.updates ++ document.extensions.updates))

/-- `_snapshot_structural_fingerprint_bytes`. -/
def snapshotStructuralBytes (version : FingerprintVersion) (manifest : ImportManifest)
    (documents : List IterableDocument) : Bytes :=
  version.domain "snapshot-structural" ++ Varint.frame manifest.canonicalBytes ++
    documents.flatMap fun document => Varint.frame document.documentKey ++
      collectionParts document.annotations.values ++ collectionParts document.axioms.values ++
      collectionParts document.extensions.values

theorem IterableValues.flatten_updates (collection : IterableValues) :
    collection.updates.flatten = collectionParts collection.values := by
  have hsize : collection.size.getD collection.values.length = collection.values.length := by
    cases hreported : collection.size with
    | none => rfl
    | some n => exact collection.size_eq n hreported
  rw [updates, flatten_cons, hsize, collectionParts, Varint.counted, length_map, List.map_map]
  rfl

theorem snapshotStructuralDigest_eq (hash : Hash) (version : FingerprintVersion) (manifest : ImportManifest)
    (documents : List IterableDocument) : snapshotStructuralDigest hash version manifest documents =
      hash.digest (snapshotStructuralBytes version manifest documents) := by
  have hdocuments : (documents.flatMap fun document => Varint.frame document.documentKey ::
      (document.annotations.updates ++ document.axioms.updates ++ document.extensions.updates)).flatten =
      documents.flatMap fun document => Varint.frame document.documentKey ++
        collectionParts document.annotations.values ++ collectionParts document.axioms.values ++
        collectionParts document.extensions.values := by
    induction documents with
    | nil => rfl
    | cons document documents ih =>
      rw [flatMap_cons, flatMap_cons, flatten_append, ih]
      simp only [flatten_cons, flatten_append, IterableValues.flatten_updates, append_assoc]
  rw [snapshotStructuralDigest, streamedDigest, flatten_append, hdocuments, snapshotStructuralBytes]
  simp only [flatten_cons, flatten_nil, append_nil]

/-- The logical axioms of a set without their annotations. -/
def logicalForms (axioms : List Node) : List Node :=
  (axioms.filter fun item => item.constructor ∈ logicalAxiomTypes).map withoutAnnotations

def logicalFingerprintBytes (version : FingerprintVersion) (axioms extensions : List Node) : Bytes :=
  version.domain "snapshot-logical" ++ utf8Encode "datatype-policy:owl2-v1\x00" ++
    (framedSet [] ((logicalForms axioms).map Node.bytes) ++
      framedSet (utf8Encode "E") ((extensions.map withoutAnnotations).map Node.bytes))

theorem digest_logicalFingerprint (hash : Hash) (axioms extensions : List Node) :
    (logicalFingerprint hash axioms extensions).digest =
      hash.digest (logicalFingerprintBytes .v2 axioms extensions) := by
  simp only [logicalFingerprint, logicalFingerprintBytes, logicalForms, List.map_map, append_assoc]
  rfl

/-- A framed set is read back up to the order and the number of its members. -/
theorem framedSet_append_inj (h : framedSet lead members ++ x = framedSet lead members' ++ y) :
    KeyedSet.ofList id members = KeyedSet.ofList id members' ∧ x = y := by
  have hcode : PrefixCode.On (fun _ => True) fun item : Bytes => lead ++ Varint.frame item := by
    intro a b x y _ _ hab
    simp only [append_assoc] at hab
    exact Varint.frame_append_inj _ _ _ _ (append_cancel_left hab)
  simp only [framedSet, append_assoc] at h
  obtain ⟨hlength, hitems⟩ := Varint.encode_append_inj _ _ _ _ h
  exact hcode.flatten _ _ _ _ (fun _ _ => trivial) (fun _ _ => trivial) hlength hitems

theorem framedSet_inj (h : framedSet lead members = framedSet lead members') (item : Bytes) :
    item ∈ members ↔ item ∈ members' := by
  have happend : framedSet lead members ++ [] = framedSet lead members' ++ [] := by rw [h]
  exact ofList_id_inj (framedSet_append_inj happend).1 item

theorem mem_zipWith : ∀ {l : List α} {l' : List β},
    c ∈ List.zipWith f l l' → ∃ a ∈ l, ∃ b ∈ l', c = f a b
  | [], _, h => by simp at h
  | _ :: _, [], h => by simp at h
  | a :: l, b :: l', h => by
    rw [zipWith_cons_cons, mem_cons] at h
    rcases h with rfl | h
    · exact ⟨a, by simp, b, by simp, rfl⟩
    · obtain ⟨a', ha', b', hb', hc⟩ := mem_zipWith h
      exact ⟨a', by simp [ha'], b', by simp [hb'], hc⟩

theorem mem_fields_withoutAnnotations (h : v ∈ (withoutAnnotations n).fields) :
    v = .set [] ∨ v ∈ n.fields := by
  obtain ⟨spec, -, field, hfield, rfl⟩ := mem_zipWith h
  split
  · exact .inl rfl
  · exact .inr hfield

theorem canonical_withoutAnnotations (h : n.Canonical) : (withoutAnnotations n).Canonical := by
  refine .intro ⟨?_, fun ms hms => ?_⟩ fun m hm => ?_
  · have harity := h.here.arity
    simp only [withoutAnnotations, fields_mk, constructor_mk, length_zipWith, harity, Constructor.arity, Nat.min_self]
  · rcases mem_fields_withoutAnnotations hms with hempty | hfield
    · obtain rfl : ms = [] := by simpa using hempty
      exact List.Pairwise.nil
    · exact h.here.ascending ms hfield
  · obtain ⟨v, hv, hm⟩ := mem_children.mp hm
    rcases mem_fields_withoutAnnotations hv with rfl | hfield
    · simp [Value.nodes] at hm
    · exact h.child (mem_children.mpr ⟨v, hfield, hm⟩)

theorem forall_mem_iff_of_bytes {values values' : List Node} (h : ∀ n ∈ values, n.Canonical)
    (h' : ∀ n ∈ values', n.Canonical) :
    (∀ item, item ∈ values.map Node.bytes ↔ item ∈ values'.map Node.bytes) ↔ ∀ n, n ∈ values ↔ n ∈ values' := by
  constructor
  · intro hbytes n
    constructor
    · intro hn
      obtain ⟨m, hm, heq⟩ := mem_map.mp ((hbytes _).mp (mem_map_of_mem hn))
      rwa [bytes_injOn (h n hn) (h' m hm) heq.symm]
    · intro hn
      obtain ⟨m, hm, heq⟩ := mem_map.mp ((hbytes _).mpr (mem_map_of_mem hn))
      rwa [bytes_injOn (h' n hn) (h m hm) heq.symm]
  · intro hvalues item
    simp only [mem_map, hvalues]

theorem canonical_logicalForms (s : CanonicalSet) : ∀ n ∈ logicalForms s.items, n.Canonical := by
  intro n hn
  obtain ⟨m, hm, rfl⟩ := mem_map.mp hn
  exact canonical_withoutAnnotations (s.canonical m (mem_of_mem_filter hm))

theorem canonical_map_withoutAnnotations (s : CanonicalSet) :
    ∀ n ∈ s.items.map withoutAnnotations, n.Canonical := by
  intro n hn
  obtain ⟨m, hm, rfl⟩ := mem_map.mp hn
  exact canonical_withoutAnnotations (s.canonical m hm)

/-- The logical bytes determine the stripped logical axioms and extensions, and nothing else. -/
theorem logicalFingerprintBytes_eq_iff (version : FingerprintVersion)
    (axioms extensions axioms' extensions' : CanonicalSet) :
    logicalFingerprintBytes version axioms.items extensions.items =
        logicalFingerprintBytes version axioms'.items extensions'.items ↔
      (∀ n, n ∈ logicalForms axioms.items ↔ n ∈ logicalForms axioms'.items) ∧
        ∀ n, n ∈ extensions.items.map withoutAnnotations ↔ n ∈ extensions'.items.map withoutAnnotations := by
  rw [← forall_mem_iff_of_bytes (canonical_logicalForms axioms) (canonical_logicalForms axioms'),
    ← forall_mem_iff_of_bytes (canonical_map_withoutAnnotations extensions)
      (canonical_map_withoutAnnotations extensions')]
  constructor
  · intro h
    obtain ⟨haxioms, hextensions⟩ := framedSet_append_inj (append_cancel_left h)
    exact ⟨ofList_id_inj haxioms, framedSet_inj hextensions⟩
  · rintro ⟨haxioms, hextensions⟩
    simp only [logicalFingerprintBytes, framedSet, ofList_id_congr haxioms, ofList_id_congr hextensions]

/-- The preimages of the fingerprints identify what they are computed from. -/
theorem fingerprint_preimages (hash : Hash) (version : FingerprintVersion) :
    (∀ document document' : OntologyDocument, document.Identified → document'.Identified →
      documentFingerprintBytes version document = documentFingerprintBytes version document' →
      document.ontologyId.ontologyIri = document'.ontologyId.ontologyIri ∧
        document.ontologyId.versionIri = document'.ontologyId.versionIri ∧
        document.directImports = document'.directImports ∧
        document.ontologyAnnotations = document'.ontologyAnnotations ∧ document.axioms = document'.axioms ∧
        document.extensionComponents = document'.extensionComponents) ∧
    (∀ manifest documents, snapshotStructuralDigest hash version manifest documents =
      hash.digest (snapshotStructuralBytes version manifest documents)) ∧
    ∀ axioms extensions axioms' extensions' : CanonicalSet,
      logicalFingerprintBytes version axioms.items extensions.items =
          logicalFingerprintBytes version axioms'.items extensions'.items ↔
        (∀ n, n ∈ logicalForms axioms.items ↔ n ∈ logicalForms axioms'.items) ∧
          ∀ n, n ∈ extensions.items.map withoutAnnotations ↔ n ∈ extensions'.items.map withoutAnnotations :=
  ⟨fun _ _ => documentFingerprintBytes_inj, snapshotStructuralDigest_eq hash version,
    logicalFingerprintBytes_eq_iff version⟩

def withoutAxioms (document : OntologyDocument) : OntologyDocument :=
  { document with
    axioms := []
    axioms_ascending := ascending_nil
    constructible := fun r hr => document.constructible r (by
      simp only [append_nil, mem_append] at hr ⊢
      exact hr.imp .inl id) }

/-- Leaving out the axioms of a document changes its bytes. -/
theorem fingerprint_preimages_withoutAxioms :
    OntologyDocument.oneKeyTwoScopes.Identified ∧ (withoutAxioms OntologyDocument.oneKeyTwoScopes).Identified ∧
      documentFingerprintBytes .v2 OntologyDocument.oneKeyTwoScopes ≠
        documentFingerprintBytes .v2 (withoutAxioms OntologyDocument.oneKeyTwoScopes) := by
  have hidentified : OntologyDocument.oneKeyTwoScopes.Identified := by
    constructor <;> intro iri h <;> cases h
  have hidentified' : (withoutAxioms OntologyDocument.oneKeyTwoScopes).Identified := by
    constructor <;> intro iri h <;> cases h
  refine ⟨hidentified, hidentified', fun hbytes => ?_⟩
  obtain ⟨-, -, -, -, haxioms, -⟩ :=
    (fingerprint_preimages sha256 .v2).1 _ _ hidentified hidentified' hbytes
  cases haxioms

end OwlCore
