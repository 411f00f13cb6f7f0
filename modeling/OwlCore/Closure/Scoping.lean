import Mathlib.Data.Prod.Lex
import OwlCore.Format.Render
import OwlCore.View.Scope

/-!
# Documents of an import closure

The fingerprint and the record of a document, and the scopes that a snapshot gives to the
anonymous individuals of its documents. An ordinal tells documents of one fingerprint apart, in
the order of their source digests.
-/
namespace OwlCore

open KeyedSet List Orders Varint

/-- A document key. Keys are ASCII texts; a key is held as its bytes. -/
abbrev DocumentKey := Bytes

inductive DocumentStatus where
  | root
  | resolved
  deriving DecidableEq

def DocumentStatus.value : DocumentStatus → String
  | root => "root"
  | resolved => "resolved"

def optionalIri : Option Node → Bytes
  | none => utf8Encode "0"
  | some iri => utf8Encode "1" ++ Varint.frame iri.bytes

theorem optionalIri_append_inj (h : optionalIri iri ++ x = optionalIri iri' ++ y) :
    iri.map Node.bytes = iri'.map Node.bytes ∧ x = y := by
  have hzero : utf8Encode "0" = [48] := by decide +kernel
  have hone : utf8Encode "1" = [49] := by decide +kernel
  cases iri with
  | none =>
    cases iri' with
    | none => exact ⟨rfl, append_cancel_left h⟩
    | some _ => simp [optionalIri, hzero, hone] at h
  | some _ =>
    cases iri' with
    | none => simp [optionalIri, hzero, hone] at h
    | some _ =>
      simp only [optionalIri, append_assoc] at h
      obtain ⟨hbytes, hrest⟩ := frame_append_inj _ _ _ _ (append_cancel_left h)
      exact ⟨congrArg some hbytes, hrest⟩

def collectionParts (values : List Node) : Bytes := Varint.counted (values.map Node.bytes)

theorem collectionParts_append_inj (h : collectionParts values ++ x = collectionParts values' ++ y) :
    values.map Node.bytes = values'.map Node.bytes ∧ x = y :=
  counted_append_inj _ _ _ _ h

namespace OntologyDocument

/-- `document_fingerprint_bytes`. -/
def fingerprintPreimage (document : OntologyDocument) : Bytes :=
  utf8Encode "pyowl-core:document-fingerprint:v2\x00" ++ (optionalIri document.ontologyId.ontologyIri ++
    (optionalIri document.ontologyId.versionIri ++ (collectionParts document.directImports ++
      (collectionParts document.ontologyAnnotations ++ (collectionParts document.axioms ++
        collectionParts document.extensionComponents)))))

/-- `document_fingerprint`. -/
def fingerprint (hash : Hash) (document : OntologyDocument) : Fingerprint :=
  ⟨2, hash.digest document.fingerprintPreimage⟩

def hasAnonymous (document : OntologyDocument) : Bool := document.roots.any holdsAnonymous

theorem collections_eq_of_parts {document document' : OntologyDocument}
    (h : collectionParts document.ontologyAnnotations ++ (collectionParts document.axioms ++
        collectionParts document.extensionComponents) =
      collectionParts document'.ontologyAnnotations ++ (collectionParts document'.axioms ++
        collectionParts document'.extensionComponents)) :
    document.ontologyAnnotations = document'.ontologyAnnotations ∧ document.axioms = document'.axioms ∧
      document.extensionComponents = document'.extensionComponents := by
  have hbytes : ∀ a ∈ document.roots, ∀ b ∈ document'.roots, a.bytes = b.bytes → a = b := fun a ha b hb =>
    (document.constructible a ha).bytes_inj (document'.constructible b hb)
  obtain ⟨hannotations, hrest⟩ := collectionParts_append_inj h
  obtain ⟨haxioms, hextensions⟩ := collectionParts_append_inj hrest
  refine ⟨map_bytes_inj (fun a ha b hb => hbytes a ?_ b ?_) hannotations,
    map_bytes_inj (fun a ha b hb => hbytes a ?_ b ?_) haxioms,
    map_bytes_inj (fun a ha b hb => hbytes a ?_ b ?_) (counted_injective hextensions)⟩ <;>
    simp [roots, ha, hb]

theorem collections_eq {document document' : OntologyDocument}
    (h : document.fingerprintPreimage = document'.fingerprintPreimage) :
    document.ontologyAnnotations = document'.ontologyAnnotations ∧ document.axioms = document'.axioms ∧
      document.extensionComponents = document'.extensionComponents := by
  have hrest := (optionalIri_append_inj (optionalIri_append_inj (append_cancel_left h)).2).2
  exact collections_eq_of_parts (collectionParts_append_inj hrest).2

end OntologyDocument

structure DocumentRecord where
  documentKey : DocumentKey
  ontologyId : OntologyID
  sourceSha256 : Bytes
  documentFingerprint : Fingerprint
  status : DocumentStatus

/-- A record with its document, whose imports are in canonical order. -/
structure ClosureRow where
  record : DocumentRecord
  document : OntologyDocument
  imports_ascending : Ascending Node.bytes document.directImports

structure ScopedDocument where
  annotations : List Node
  axioms : List Node
  extensions : List Node
  deriving DecidableEq

namespace ScopedDocument

def roots (values : ScopedDocument) : List Node := values.annotations ++ values.axioms ++ values.extensions

def ofDocument (document : OntologyDocument) : ScopedDocument :=
  ⟨document.ontologyAnnotations, document.axioms, document.extensionComponents⟩

end ScopedDocument

section

variable (hash : Hash)

def reScopeAnonymous (scope : Scope) (individual : AnonymousIndividual) : AnonymousIndividual where
  documentScope := scope
  localKey := hash.digest (keyDomain ++ scope.octets ++ individual.documentScope.octets ++ individual.localKey)
  localKey_ne := hash.digest_ne_nil _

def rescopeValue (scope : Scope) (value : Node) : Node := value.mapAnonymous (reScopeAnonymous hash scope)

def rescopeValues (scope : Scope) (values : List Node) : List Node :=
  KeyedSet.ofList Node.bytes (values.map (rescopeValue hash scope))

def documentScopePreimage (fingerprint : Bytes) (ordinal : Nat) : Bytes :=
  utf8Encode "pyowl-core:snapshot-document-scope:v2\x00" ++ fingerprint ++ Varint.encode ordinal

def scopeDocument (fingerprint : Bytes) (ordinal : Nat) (document : OntologyDocument) : ScopedDocument :=
  if document.hasAnonymous then
    let scope := hash.scope (documentScopePreimage fingerprint ordinal)
    ⟨rescopeValues hash scope document.ontologyAnnotations, rescopeValues hash scope document.axioms,
      rescopeValues hash scope document.extensionComponents⟩
  else .ofDocument document

def ClosureRow.sortKey (row : ClosureRow) : Lex (Bytes × Bytes) :=
  toLex (row.record.sourceSha256, row.record.documentKey)

/-- The rows of one fingerprint, in the order of `rows`. -/
def rowsOf (rows : List ClosureRow) (fingerprint : Bytes) : List ClosureRow :=
  rows.filter fun row => row.record.documentFingerprint.digest = fingerprint

/-- `_scope_documents`, as the entries of the mapping. -/
def scopeDocuments (rows : List ClosureRow) : List (DocumentKey × ScopedDocument) :=
  (KeyedSet.ofList id (rows.map fun row => row.record.documentFingerprint.digest)).flatMap fun fingerprint =>
    let group := (rowsOf rows fingerprint).insertionSort fun a b => a.sortKey ≤ b.sortKey
    group.zipIdx.map fun entry =>
      (entry.1.record.documentKey, scopeDocument hash fingerprint entry.2 entry.1.document)

/-- `result[key]`. -/
def scopedAt (entries : List (DocumentKey × ScopedDocument)) (key : DocumentKey) : Option ScopedDocument :=
  (entries.find? fun entry => entry.1 = key).map Prod.snd

/-- The number of a row among the rows of its fingerprint. -/
def ordinal (rows : List ClosureRow) (row : ClosureRow) : Nat :=
  rank ClosureRow.sortKey (rowsOf rows row.record.documentFingerprint.digest) row

end

section

variable {hash : Hash} {rows : List ClosureRow} {row : ClosureRow}

def DistinctKeys (rows : List ClosureRow) : Prop := (rows.map fun row => row.record.documentKey).Nodup

theorem DistinctKeys.eq (h : DistinctKeys rows) (ha : a ∈ rows) (hb : b ∈ rows) (hkey : a.record.documentKey =
    b.record.documentKey) : a = b :=
  inj_on_of_nodup_map h ha hb hkey

theorem mem_rowsOf :
    row ∈ rowsOf rows fingerprint ↔ row ∈ rows ∧ row.record.documentFingerprint.digest = fingerprint := by
  simp [rowsOf]

section

variable (h : DistinctKeys rows)

include h

theorem DistinctKeys.nodup_sortKey (fingerprint : Bytes) :
    ((rowsOf rows fingerprint).map ClosureRow.sortKey).Nodup := by
  refine List.Nodup.of_map (fun key => (ofLex key).2) ?_
  rw [map_map]
  exact List.Nodup.sublist (filter_sublist.map _) h

theorem mem_scopeDocuments :
    entry ∈ scopeDocuments hash rows ↔ ∃ row ∈ rows, entry = (row.record.documentKey,
      scopeDocument hash row.record.documentFingerprint.digest (ordinal rows row) row.document) := by
  simp only [scopeDocuments, mem_flatMap, mem_map, mem_ofList_id]
  constructor
  · rintro ⟨_, _, ⟨row, i⟩, hrow, rfl⟩
    rw [mk_mem_zipIdx_iff_getElem?] at hrow
    obtain ⟨hmem, rfl⟩ := mem_rowsOf.mp ((mem_insertionSort _).mp (mem_of_getElem? hrow))
    exact ⟨row, hmem, by rw [eq_rank_of_getElem? (h.nodup_sortKey _) hrow, ordinal]⟩
  · rintro ⟨row, hrow, rfl⟩
    have hsorted := (mem_insertionSort fun a b : ClosureRow => a.sortKey ≤ b.sortKey).mpr
      (mem_rowsOf.mpr ⟨hrow, rfl⟩)
    obtain ⟨i, hi⟩ := mem_iff_getElem?.mp hsorted
    refine ⟨_, ⟨row, hrow, rfl⟩, (row, i), mk_mem_zipIdx_iff_getElem?.mpr hi, ?_⟩
    rw [eq_rank_of_getElem? (h.nodup_sortKey _) hi, ordinal]

theorem scopedAt_scopeDocuments (hrow : row ∈ rows) :
    scopedAt (scopeDocuments hash rows) row.record.documentKey =
      some (scopeDocument hash row.record.documentFingerprint.digest (ordinal rows row) row.document) := by
  have hentry : _ ∈ scopeDocuments hash rows := (mem_scopeDocuments h).mpr ⟨row, hrow, rfl⟩
  cases hfind : (scopeDocuments hash rows).find? fun entry => entry.1 = row.record.documentKey with
  | none => simpa using find?_eq_none.mp hfind _ hentry
  | some entry =>
    have hkey : entry.1 = row.record.documentKey := by simpa using find?_some hfind
    obtain ⟨other, hother, rfl⟩ := (mem_scopeDocuments h).mp (mem_of_find?_eq_some hfind)
    obtain rfl := h.eq hother hrow hkey
    rw [scopedAt, hfind, Option.map_some]

theorem scopedAt_eq_none (hkey : ∀ row ∈ rows, row.record.documentKey ≠ key) :
    scopedAt (scopeDocuments hash rows) key = none := by
  rw [scopedAt, Option.map_eq_none_iff, find?_eq_none]
  intro entry hentry
  obtain ⟨row, hrow, rfl⟩ := (mem_scopeDocuments h).mp hentry
  simpa using hkey row hrow

end

end

section

variable {hash : Hash} {scope : Scope} {document : OntologyDocument} {fingerprint : Bytes} {i j : Nat}

theorem mem_rescopeValues (h : ∀ v ∈ values, v.Canonical) :
    n ∈ rescopeValues hash scope values ↔ ∃ v ∈ values, rescopeValue hash scope v = n := by
  rw [rescopeValues, mem_ofList, mem_map]
  refine Node.keyInjOn_canonical fun m hm => ?_
  obtain ⟨v, hv, rfl⟩ := mem_map.mp hm
  exact Node.canonical_mapAnonymous (h v hv)

theorem OntologyDocument.canonical (h : n ∈ document.roots) : n.Canonical :=
  (document.constructible n h).canonical

theorem mem_roots_scopeDocument (hdocument : document.hasAnonymous) :
    n ∈ (scopeDocument hash fingerprint i document).roots ↔
      ∃ v ∈ document.roots, rescopeValue hash (hash.scope (documentScopePreimage fingerprint i)) v = n := by
  have hroots : ∀ v ∈ document.roots, v.Canonical := fun _ => document.canonical
  simp only [OntologyDocument.roots, mem_append, or_imp, forall_and] at hroots
  obtain ⟨⟨hannotations, haxioms⟩, hextensions⟩ := hroots
  simp only [scopeDocument, hdocument, if_true, ScopedDocument.roots, OntologyDocument.roots, mem_append,
    mem_rescopeValues hannotations, mem_rescopeValues haxioms, mem_rescopeValues hextensions, or_and_right, exists_or]

/-- Different ordinals give different values to a document with anonymous individuals. -/
theorem scope_eq_of_scopeDocument_eq (hdocument : document.hasAnonymous)
    (h : scopeDocument hash fingerprint i document = scopeDocument hash fingerprint j document) :
    hash.scope (documentScopePreimage fingerprint i) = hash.scope (documentScopePreimage fingerprint j) := by
  obtain ⟨root, hroot, hholds⟩ := any_eq_true.mp hdocument
  obtain ⟨a, ha⟩ : ∃ a, a ∈ root.anonymousValues := by
    simpa [holdsAnonymous, List.isEmpty_iff, eq_nil_iff_forall_not_mem] using hholds
  have hmoved : rescopeValue hash (hash.scope (documentScopePreimage fingerprint i)) root ∈
      (scopeDocument hash fingerprint j document).roots := by
    rw [← h]
    exact (mem_roots_scopeDocument hdocument).mpr ⟨root, hroot, rfl⟩
  obtain ⟨other, hother, hvalue⟩ := (mem_roots_scopeDocument hdocument).mp hmoved
  have hindividual : reScopeAnonymous hash (hash.scope (documentScopePreimage fingerprint i)) a ∈
      (rescopeValue hash (hash.scope (documentScopePreimage fingerprint i)) root).anonymousValues :=
    (Node.mem_anonymousValues_mapAnonymous (document.canonical hroot)).mpr ⟨a, ha, rfl⟩
  rw [← hvalue] at hindividual
  obtain ⟨b, -, hb⟩ := (Node.mem_anonymousValues_mapAnonymous (document.canonical hother)).mp hindividual
  exact (congrArg AnonymousIndividual.documentScope hb).symm

end

section

variable {hash : Hash} {rows : List ClosureRow} {row a b : ClosureRow}

/-- The row with the digest of its structure in place of the digest of its source. -/
def ClosureRow.canonicalSource (row : ClosureRow) : ClosureRow :=
  { row with record := { row.record with sourceSha256 := row.record.documentFingerprint.digest } }

def Fingerprinted (hash : Hash) (rows : List ClosureRow) : Prop :=
  ∀ row ∈ rows, row.record.documentFingerprint = row.document.fingerprint hash

/-- What is digested for the fingerprints and for the scopes of the documents. -/
def closurePreimages (rows : List ClosureRow) : List Bytes :=
  (rows.map fun row => row.document.fingerprintPreimage) ++ rows.flatMap fun row =>
    (List.range rows.length).map (documentScopePreimage row.record.documentFingerprint.digest)

/-- Structurally equal documents with anonymous individuals have their source digests in
the order of their keys. -/
def SourceOrderAgrees (rows : List ClosureRow) : Prop :=
  ∀ a ∈ rows, ∀ b ∈ rows, a.record.documentFingerprint.digest = b.record.documentFingerprint.digest →
    a.document.hasAnonymous ∨ b.document.hasAnonymous →
      a.record.documentKey < b.record.documentKey → a.record.sourceSha256 ≤ b.record.sourceSha256

theorem DistinctKeys.canonicalSource (h : DistinctKeys rows) :
    DistinctKeys (rows.map ClosureRow.canonicalSource) := by
  rw [DistinctKeys, map_map]
  exact h

theorem rowsOf_canonicalSource (fingerprint : Bytes) :
    rowsOf (rows.map ClosureRow.canonicalSource) fingerprint =
      (rowsOf rows fingerprint).map ClosureRow.canonicalSource := by
  rw [rowsOf, filter_map]
  rfl

theorem ordinal_canonicalSource : ordinal (rows.map ClosureRow.canonicalSource) row.canonicalSource =
    rank (fun row => row.record.documentKey) (rowsOf rows row.record.documentFingerprint.digest) row := by
  have hgroup : rowsOf (rows.map ClosureRow.canonicalSource)
      row.canonicalSource.record.documentFingerprint.digest =
      (rowsOf rows row.record.documentFingerprint.digest).map ClosureRow.canonicalSource :=
    rowsOf_canonicalSource _
  rw [ordinal, hgroup, rank, countP_map, rank]
  refine countP_congr fun other hother => ?_
  obtain ⟨-, hsame⟩ := mem_rowsOf.mp hother
  simp [ClosureRow.sortKey, ClosureRow.canonicalSource, Prod.Lex.toLex_lt_toLex, hsame]

theorem ordinal_lt_length (hrow : row ∈ rows) : ordinal rows row < rows.length :=
  lt_of_lt_of_le (rank_lt_length (mem_rowsOf.mpr ⟨hrow, rfl⟩)) (length_filter_le _ _)

theorem sourceOrder_of_lt (h : a.sortKey < b.sortKey) : a.record.sourceSha256 ≤ b.record.sourceSha256 := by
  rcases Prod.Lex.toLex_lt_toLex.mp h with hlt | ⟨heq, -⟩
  · exact hlt.le
  · exact heq.le

theorem SourceOrderAgrees.ordinal_eq (h : SourceOrderAgrees rows) (hkeys : DistinctKeys rows)
    (hrow : row ∈ rows) (hanonymous : row.document.hasAnonymous) :
    ordinal (rows.map ClosureRow.canonicalSource) row.canonicalSource = ordinal rows row := by
  rw [ordinal_canonicalSource, ordinal, rank, rank]
  refine countP_congr fun other hother => ?_
  obtain ⟨hmem, hsame⟩ := mem_rowsOf.mp hother
  simp only [decide_eq_true_eq]
  constructor
  · intro hlt
    rcases (h other hmem row hrow hsame (.inr hanonymous) hlt).lt_or_eq with hsource | hsource
    · exact Prod.Lex.toLex_lt_toLex.mpr (.inl hsource)
    · exact Prod.Lex.toLex_lt_toLex.mpr (.inr ⟨hsource, hlt⟩)
  · intro hlt
    by_contra hle
    rcases (not_lt.mp hle).lt_or_eq with hkey | hkey
    · have hsource := h row hrow other hmem hsame.symm (.inl hanonymous) hkey
      rcases Prod.Lex.toLex_lt_toLex.mp hlt with hless | ⟨-, hless⟩
      · exact absurd hless (not_lt.mpr hsource)
      · exact hle hless
    · obtain rfl := hkeys.eq hrow hmem hkey
      exact lt_irrefl _ hlt

theorem collections_eq_of_digest_eq (hfingerprints : Fingerprinted hash rows)
    (hhash : ∀ x ∈ closurePreimages rows, ∀ y ∈ closurePreimages rows, hash.digest x = hash.digest y → x = y)
    (ha : a ∈ rows) (hb : b ∈ rows)
    (h : a.record.documentFingerprint.digest = b.record.documentFingerprint.digest) :
    a.document.ontologyAnnotations = b.document.ontologyAnnotations ∧ a.document.axioms = b.document.axioms ∧
      a.document.extensionComponents = b.document.extensionComponents := by
  have hpreimage : ∀ row ∈ rows, row.document.fingerprintPreimage ∈ closurePreimages rows := fun row hrow =>
    mem_append_left _ (mem_map_of_mem hrow)
  refine OntologyDocument.collections_eq (hhash _ (hpreimage a ha) _ (hpreimage b hb) ?_)
  rwa [hfingerprints a ha, hfingerprints b hb] at h

theorem scopeDocument_congr (h : document.ontologyAnnotations = document'.ontologyAnnotations ∧ document.axioms =
    document'.axioms ∧ document.extensionComponents = document'.extensionComponents) :
    scopeDocument hash fingerprint i document = scopeDocument hash fingerprint i document' := by
  obtain ⟨hannotations, haxioms, hextensions⟩ := h
  have hanonymous : document.hasAnonymous = document'.hasAnonymous := by
    simp only [OntologyDocument.hasAnonymous, OntologyDocument.roots, hannotations, haxioms, hextensions]
  rw [scopeDocument, scopeDocument, hanonymous, ScopedDocument.ofDocument, ScopedDocument.ofDocument,
    hannotations, haxioms, hextensions]

/-- The scoped documents keep their values under their keys exactly when the orders agree. -/
theorem scopedAt_canonicalSource_iff (hkeys : DistinctKeys rows) (hfingerprints : Fingerprinted hash rows)
    (hhash : ∀ x ∈ closurePreimages rows, ∀ y ∈ closurePreimages rows, hash.digest x = hash.digest y → x = y) :
    (∀ key, scopedAt (scopeDocuments hash (rows.map ClosureRow.canonicalSource)) key =
      scopedAt (scopeDocuments hash rows) key) ↔ SourceOrderAgrees rows := by
  have hlookup : ∀ row ∈ rows, scopedAt (scopeDocuments hash (rows.map ClosureRow.canonicalSource))
      row.record.documentKey = some (scopeDocument hash row.record.documentFingerprint.digest
        (ordinal (rows.map ClosureRow.canonicalSource) row.canonicalSource) row.document) := fun row hrow =>
    scopedAt_scopeDocuments hkeys.canonicalSource (mem_map_of_mem hrow)
  constructor
  · intro hsame a ha b hb hdigest hanonymous hlt
    have hcollections := collections_eq_of_digest_eq hfingerprints hhash ha hb hdigest
    have hboth : a.document.hasAnonymous ∧ b.document.hasAnonymous := by
      have heq : a.document.hasAnonymous = b.document.hasAnonymous := by
        simp only [OntologyDocument.hasAnonymous, OntologyDocument.roots, hcollections]
      rw [heq] at hanonymous ⊢
      simpa using hanonymous
    -- An unchanged document keeps its ordinal, because the scope is a digest of it.
    have hordinal : ∀ row ∈ rows, row.document.hasAnonymous →
        ordinal (rows.map ClosureRow.canonicalSource) row.canonicalSource = ordinal rows row := by
      intro row hrow hrowAnonymous
      have hvalues := hsame row.record.documentKey
      rw [hlookup row hrow, scopedAt_scopeDocuments hkeys hrow] at hvalues
      have hscope := scope_eq_of_scopeDocument_eq hrowAnonymous (Option.some.inj hvalues)
      have hpreimage : ∀ i < rows.length, documentScopePreimage row.record.documentFingerprint.digest i ∈
          closurePreimages rows := fun i hi =>
        mem_append_right _ (mem_flatMap.mpr ⟨row, hrow, mem_map_of_mem (mem_range.mpr hi)⟩)
      have hlength := ordinal_lt_length (mem_map_of_mem (f := ClosureRow.canonicalSource) hrow)
      rw [length_map] at hlength
      have hbytes := hhash _ (hpreimage _ hlength) _ (hpreimage _ (ordinal_lt_length hrow))
        (congrArg Subtype.val hscope)
      exact encode_injective (append_cancel_left hbytes)
    have hranks : ordinal rows a < ordinal rows b := by
      rw [← hordinal a ha hboth.1, ← hordinal b hb hboth.2, ordinal_canonicalSource, ordinal_canonicalSource,
        hdigest, rank_lt_rank (mem_rowsOf.mpr ⟨ha, hdigest⟩)]
      exact hlt
    rw [ordinal, ordinal, hdigest, rank_lt_rank (mem_rowsOf.mpr ⟨ha, hdigest⟩)] at hranks
    exact sourceOrder_of_lt hranks
  · intro hagrees key
    by_cases hkey : ∃ row ∈ rows, row.record.documentKey = key
    · obtain ⟨row, hrow, rfl⟩ := hkey
      rw [hlookup row hrow, scopedAt_scopeDocuments hkeys hrow]
      by_cases hanonymous : row.document.hasAnonymous
      · rw [hagrees.ordinal_eq hkeys hrow hanonymous]
      · simp only [scopeDocument, hanonymous, Bool.false_eq_true, if_false]
    · have hnone : ∀ row ∈ rows, row.record.documentKey ≠ key := fun row hrow h => hkey ⟨row, hrow, h⟩
      rw [scopedAt_eq_none hkeys hnone, scopedAt_eq_none hkeys.canonicalSource]
      intro other hother
      obtain ⟨row, hrow, rfl⟩ := mem_map.mp hother
      exact hnone row hrow

/-- The scoped values of the rows of one fingerprint depend on their number only. -/
theorem scopedValues_of_group {group : List ClosureRow} (h : ∀ row ∈ group, ∀ i, scopeDocument hash fingerprint i
    row.document = scopeDocument hash fingerprint i document) :
    group.zipIdx.map (fun entry => scopeDocument hash fingerprint entry.2 entry.1.document) =
      (List.range' 0 group.length).map fun i => scopeDocument hash fingerprint i document := by
  rw [← zipIdx_map_snd 0 group, map_map]
  refine map_congr_left fun entry hentry => ?_
  exact h entry.1 (fst_mem_of_mem_zipIdx hentry) entry.2

/-- The scoped values do not depend on the source digests; only their keys do. -/
theorem scopedValues_canonicalSource (hfingerprints : Fingerprinted hash rows)
    (hhash : ∀ x ∈ closurePreimages rows, ∀ y ∈ closurePreimages rows, hash.digest x = hash.digest y → x = y) :
    (scopeDocuments hash (rows.map ClosureRow.canonicalSource)).map Prod.snd =
      (scopeDocuments hash rows).map Prod.snd := by
  simp only [scopeDocuments, map_flatMap, map_map]
  refine flatMap_congr fun fingerprint _ => ?_
  cases hgroup : rowsOf rows fingerprint with
  | nil => simp [rowsOf_canonicalSource, hgroup]
  | cons first rest =>
    have hfirst := mem_rowsOf.mp (hgroup ▸ mem_cons_self : first ∈ rowsOf rows fingerprint)
    have hsame : ∀ row ∈ rowsOf rows fingerprint, ∀ i, scopeDocument hash fingerprint i row.document =
        scopeDocument hash fingerprint i first.document := by
      intro row hrow i
      obtain ⟨hmem, hdigest⟩ := mem_rowsOf.mp hrow
      exact scopeDocument_congr (collections_eq_of_digest_eq hfingerprints hhash hmem hfirst.1
        (hdigest.trans hfirst.2.symm))
    rw [← hgroup]
    have hleft : ∀ row ∈ (rowsOf (rows.map ClosureRow.canonicalSource) fingerprint).insertionSort
        fun a b => a.sortKey ≤ b.sortKey, ∀ i, scopeDocument hash fingerprint i row.document =
          scopeDocument hash fingerprint i first.document := by
      intro row hrow
      rw [mem_insertionSort, rowsOf_canonicalSource, mem_map] at hrow
      obtain ⟨source, hsource, rfl⟩ := hrow
      exact hsame source hsource
    have hright : ∀ row ∈ (rowsOf rows fingerprint).insertionSort fun a b => a.sortKey ≤ b.sortKey, ∀ i,
        scopeDocument hash fingerprint i row.document = scopeDocument hash fingerprint i first.document :=
      fun row hrow => hsame row ((mem_insertionSort _).mp hrow)
    refine (scopedValues_of_group hleft).trans (Eq.trans ?_ (scopedValues_of_group hright).symm)
    rw [length_insertionSort, length_insertionSort, rowsOf_canonicalSource, length_map]

end

end OwlCore
