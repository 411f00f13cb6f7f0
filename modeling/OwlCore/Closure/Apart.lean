import OwlCore.Closure.Snapshot

/-!
# Scoped documents are kept apart

Two documents of a snapshot never share an anonymous individual after scoping: a scope is a
digest of fingerprint and ordinal, and the ordinal separates documents of one fingerprint. The
new local key is a digest of the old scope and key, so nothing is merged within a document.
-/
namespace OwlCore

open KeyedSet List Node Orders

variable {hash : Hash} {rows : List ClosureRow} {a b row : ClosureRow}

def ClosureRow.scopePreimage (rows : List ClosureRow) (row : ClosureRow) : Bytes :=
  documentScopePreimage row.record.documentFingerprint.digest (ordinal rows row)

/-- What is digested for the local key of an individual in a new scope. -/
def rescopedKeyPreimage (scope : Scope) (individual : AnonymousIndividual) : Bytes :=
  keyDomain ++ scope.octets ++ individual.documentScope.octets ++ individual.localKey

def scopingPreimages (hash : Hash) (rows : List ClosureRow) : List Bytes :=
  rows.flatMap fun row => row.scopePreimage rows ::
    row.document.individuals.map (rescopedKeyPreimage (hash.scope (row.scopePreimage rows)))

def ScopedDocument.individuals (values : ScopedDocument) : List AnonymousIndividual :=
  values.roots.flatMap Node.anonymousValues

theorem scopePreimage_mem (hrow : row ∈ rows) : row.scopePreimage rows ∈ scopingPreimages hash rows :=
  mem_flatMap.mpr ⟨row, hrow, mem_cons_self⟩

theorem rescopedKeyPreimage_mem (hrow : row ∈ rows) (h : individual ∈ row.document.individuals) :
    rescopedKeyPreimage (hash.scope (row.scopePreimage rows)) individual ∈ scopingPreimages hash rows :=
  mem_flatMap.mpr ⟨row, hrow, mem_cons_of_mem _ (mem_map_of_mem h)⟩

theorem DistinctKeys.eq_of_ordinal_eq (h : DistinctKeys rows) (ha : a ∈ rows) (hb : b ∈ rows)
    (hdigest : a.record.documentFingerprint.digest = b.record.documentFingerprint.digest)
    (hordinal : ordinal rows a = ordinal rows b) : a = b := by
  have hmem : a ∈ rowsOf rows b.record.documentFingerprint.digest := mem_rowsOf.mpr ⟨ha, hdigest⟩
  have hmem' : b ∈ rowsOf rows b.record.documentFingerprint.digest := mem_rowsOf.mpr ⟨hb, rfl⟩
  rw [ordinal, ordinal, hdigest] at hordinal
  have hless : ¬a.sortKey < b.sortKey := fun hlt =>
    absurd ((rank_lt_rank hmem).mpr hlt) (hordinal ▸ Nat.lt_irrefl _)
  have hgreater : ¬b.sortKey < a.sortKey := fun hlt =>
    absurd ((rank_lt_rank hmem').mpr hlt) (hordinal ▸ Nat.lt_irrefl _)
  have hkey : a.sortKey = b.sortKey := le_antisymm (not_lt.mp hgreater) (not_lt.mp hless)
  exact h.eq ha hb (congrArg (fun key => (ofLex key).2) hkey)

theorem DistinctKeys.eq_of_scopePreimage_eq (h : DistinctKeys rows)
    (hdigests : ∀ row ∈ rows, row.record.documentFingerprint.digest.length = 32) (ha : a ∈ rows) (hb : b ∈ rows)
    (hpreimage : a.scopePreimage rows = b.scopePreimage rows) : a = b := by
  simp only [ClosureRow.scopePreimage, documentScopePreimage, append_assoc] at hpreimage
  have hparts := append_inj (append_cancel_left hpreimage) ((hdigests a ha).trans (hdigests b hb).symm)
  exact h.eq_of_ordinal_eq ha hb hparts.1 (Varint.encode_injective hparts.2)

theorem reScopeAnonymous_injOn (hrow : row ∈ rows)
    (hhash : ∀ x ∈ scopingPreimages hash rows, ∀ y ∈ scopingPreimages hash rows,
      hash.digest x = hash.digest y → x = y) :
    Set.InjOn (reScopeAnonymous hash (hash.scope (row.scopePreimage rows)))
      {individual | individual ∈ row.document.individuals} := by
  intro x hx y hy hxy
  have hdigest := congrArg AnonymousIndividual.localKey hxy
  have hpreimage := hhash _ (rescopedKeyPreimage_mem hrow hx) _ (rescopedKeyPreimage_mem hrow hy) hdigest
  simp only [rescopedKeyPreimage, append_assoc] at hpreimage
  have hparts := append_inj (append_cancel_left (append_cancel_left hpreimage))
    (x.documentScope.property.trans y.documentScope.property.symm)
  cases x
  cases y
  simp only [AnonymousIndividual.mk.injEq]
  exact ⟨Subtype.ext hparts.1, hparts.2⟩

theorem length_rescopeValues (hascending : Ascending Node.bytes values) (hcanonical : ∀ v ∈ values, v.Canonical)
    (hvalues : ∀ v ∈ values, ∀ x ∈ v.anonymousValues, x ∈ s) (hinj : Set.InjOn (reScopeAnonymous hash scope) s) :
    (rescopeValues hash scope values).length = values.length := by
  have hdistinct : (values.map (rescopeValue hash scope)).Nodup := by
    refine List.Nodup.map_on (fun v hv w hw h => ?_) hascending.nodup
    refine mapAnonymous_injOn (hcanonical v hv) (hcanonical w hw) (hinj.mono ?_) h
    rintro x (hx | hx)
    · exact hvalues v hv x hx
    · exact hvalues w hw x hx
  have hkeys : KeyInjOn Node.bytes (· ∈ values.map (rescopeValue hash scope)) := by
    refine keyInjOn_canonical fun n hn => ?_
    obtain ⟨v, hv, rfl⟩ := mem_map.mp hn
    exact canonical_mapAnonymous (hcanonical v hv)
  rw [rescopeValues, (ofList_perm hkeys hdistinct).length_eq, length_map]

theorem OntologyDocument.mem_individuals {document : OntologyDocument} {v : Node} (hv : v ∈ document.roots)
    {x : AnonymousIndividual} (hx : x ∈ v.anonymousValues) : x ∈ document.individuals :=
  mem_flatMap.mpr ⟨v, hv, hx⟩

theorem length_scopeDocument (hrow : row ∈ rows)
    (hhash : ∀ x ∈ scopingPreimages hash rows, ∀ y ∈ scopingPreimages hash rows,
      hash.digest x = hash.digest y → x = y) {values : ScopedDocument}
    (hvalues : values = scopeDocument hash row.record.documentFingerprint.digest (ordinal rows row) row.document) :
    values.annotations.length = row.document.ontologyAnnotations.length ∧
      values.axioms.length = row.document.axioms.length ∧
      values.extensions.length = row.document.extensionComponents.length := by
  subst hvalues
  unfold scopeDocument
  split
  · have hcount : ∀ members : List Node, Ascending Node.bytes members → (∀ v ∈ members, v ∈ row.document.roots) →
        (rescopeValues hash (hash.scope (row.scopePreimage rows)) members).length = members.length := by
      intro members hascending hmembers
      exact length_rescopeValues hascending (fun v hv => row.document.canonical (hmembers v hv))
        (fun v hv x hx => OntologyDocument.mem_individuals (hmembers v hv) hx) (reScopeAnonymous_injOn hrow hhash)
    refine ⟨hcount _ row.document.annotations_ascending fun v hv => ?_,
      hcount _ row.document.axioms_ascending fun v hv => ?_,
      hcount _ row.document.extensions_ascending fun v hv => ?_⟩ <;> simp [OntologyDocument.roots, hv]
  · exact ⟨rfl, rfl, rfl⟩

theorem hasAnonymous_iff {document : OntologyDocument} :
    document.hasAnonymous ↔ document.individuals ≠ [] := by
  simp [OntologyDocument.hasAnonymous, OntologyDocument.individuals, holdsAnonymous, flatMap_eq_nil_iff]

theorem documentScope_of_mem_individuals {values : ScopedDocument} {x : AnonymousIndividual}
    (hvalues : values = scopeDocument hash row.record.documentFingerprint.digest (ordinal rows row) row.document)
    (hx : x ∈ values.individuals) : x.documentScope = hash.scope (row.scopePreimage rows) := by
  subst hvalues
  obtain ⟨n, hn, hx⟩ := mem_flatMap.mp hx
  by_cases hanonymous : row.document.hasAnonymous
  · obtain ⟨v, hv, rfl⟩ := (mem_roots_scopeDocument hanonymous).mp hn
    obtain ⟨y, -, rfl⟩ := (mem_anonymousValues_mapAnonymous (row.document.canonical hv)).mp hx
    rfl
  · have hnone : row.document.individuals = [] := not_not.mp (mt hasAnonymous_iff.mpr hanonymous)
    rw [scopeDocument, if_neg hanonymous] at hn
    have hmem : x ∈ row.document.individuals := OntologyDocument.mem_individuals hn hx
    rw [hnone] at hmem
    cases hmem

/-- Documents of different keys share no anonymous individual, and scoping a document merges neither
individuals nor values. -/
theorem construct_standardizes_apart {manifest : ImportManifest} {rootDocumentKey : DocumentKey}
    {context : Option StructuralContext} {override : Option Fingerprint} {s : OntologySnapshot}
    (hrecords : manifest.documents = rows.map ClosureRow.record)
    (hdigests : ∀ row ∈ rows, row.record.documentFingerprint.digest.length = 32)
    (hconstruct : OntologySnapshot.construct hash manifest rows rootDocumentKey false context override = .ok s)
    (hhash : ∀ x ∈ scopingPreimages hash rows, ∀ y ∈ scopingPreimages hash rows,
      hash.digest x = hash.digest y → x = y) :
    (∀ a ∈ rows, ∀ b ∈ rows, a.record.documentKey ≠ b.record.documentKey →
      ∀ values ∈ scopedAt s.entries a.record.documentKey, ∀ values' ∈ scopedAt s.entries b.record.documentKey,
        values.individuals.Disjoint values'.individuals) ∧
    ∀ row ∈ rows, Set.InjOn (reScopeAnonymous hash (hash.scope (row.scopePreimage rows)))
        {individual | individual ∈ row.document.individuals} ∧
      ∃ values, scopedAt s.entries row.record.documentKey = some values ∧
        values.annotations.length = row.document.ontologyAnnotations.length ∧
        values.axioms.length = row.document.axioms.length ∧
        values.extensions.length = row.document.extensionComponents.length := by
  have hkeys : DistinctKeys rows := by
    have hascending := manifest.ascending
    rw [hrecords] at hascending
    have hdistinct : (rows.map ClosureRow.record).Pairwise fun r r' => r.documentKey ≠ r'.documentKey :=
      hascending.imp fun hlt => ne_of_lt hlt
    have hnodup : ((rows.map ClosureRow.record).map DocumentRecord.documentKey).Nodup :=
      pairwise_map.mpr hdistinct
    rwa [map_map] at hnodup
  obtain ⟨-, rfl⟩ := OntologySnapshot.construct_eq_ok.mp hconstruct
  have hentry : ∀ row ∈ rows, scopedAt (scopeDocuments hash rows) row.record.documentKey = some
      (scopeDocument hash row.record.documentFingerprint.digest (ordinal rows row) row.document) :=
    fun row hrow => scopedAt_scopeDocuments hkeys hrow
  constructor
  · intro a ha b hb hne values hvalues values' hvalues' x hx hx'
    have hscope := documentScope_of_mem_individuals (Option.some.inj (hvalues.symm.trans (hentry a ha))) hx
    have hscope' := documentScope_of_mem_individuals (Option.some.inj (hvalues'.symm.trans (hentry b hb))) hx'
    have hdigest := congrArg Subtype.val (hscope.symm.trans hscope')
    have hpreimage := hhash _ (scopePreimage_mem ha) _ (scopePreimage_mem hb) hdigest
    exact hne (congrArg (fun row => row.record.documentKey) (hkeys.eq_of_scopePreimage_eq hdigests ha hb hpreimage))
  · intro row hrow
    exact ⟨reScopeAnonymous_injOn hrow hhash, _, hentry row hrow, length_scopeDocument hrow hhash rfl⟩

def copyRow (key : String) (status : DocumentStatus) : ClosureRow where
  record := ⟨utf8Encode key, ⟨none, none, OntologyID.unnamed_requires⟩, List.replicate 32 0, OntologyDocument.oneKeyTwoScopes.fingerprint sha256, status⟩
  document := OntologyDocument.oneKeyTwoScopes
  imports_ascending := ascending_nil

def copiesManifest : ImportManifest where
  policy := .recordUnresolved
  offline := true
  resolverConfigurationFingerprint := List.replicate 32 0
  documents := [(copyRow "a" .root).record, (copyRow "b" .resolved).record]
  edges := []
  ascending := by
    have hlt : utf8Encode "a" < utf8Encode "b" := by decide +kernel
    simpa [Ascending, copyRow] using hlt

/-- Two copies of a document in which one local key occurs under two scopes. -/
theorem construct_standardizes_apart_copies : ∃ s values values',
    OntologySnapshot.construct sha256 copiesManifest [copyRow "a" .root, copyRow "b" .resolved] (utf8Encode "a")
      false none none = .ok s ∧
    scopedAt s.entries (utf8Encode "a") = some values ∧ scopedAt s.entries (utf8Encode "b") = some values' ∧
    values.axioms.length = 2 ∧ values'.axioms.length = 2 ∧ values.individuals.Disjoint values'.individuals := by
  have hhash : ∀ x ∈ scopingPreimages sha256 [copyRow "a" .root, copyRow "b" .resolved],
      ∀ y ∈ scopingPreimages sha256 [copyRow "a" .root, copyRow "b" .resolved],
        sha256.digest x = sha256.digest y → x = y := by decide +kernel
  have hdigests : ∀ row ∈ [copyRow "a" .root, copyRow "b" .resolved],
      row.record.documentFingerprint.digest.length = 32 := by
    intro row hrow
    simp only [mem_cons, not_mem_nil, or_false] at hrow
    rcases hrow with rfl | rfl <;> exact sha256.length_digest _
  have hconstruct : OntologySnapshot.construct sha256 copiesManifest [copyRow "a" .root, copyRow "b" .resolved]
      (utf8Encode "a") false none none = .ok _ := OntologySnapshot.construct_eq_ok.mpr ⟨mem_cons_self, rfl⟩
  obtain ⟨hapart, hsizes⟩ := construct_standardizes_apart rfl hdigests hconstruct hhash
  obtain ⟨-, values, hvalues, -, haxioms, -⟩ := hsizes _ mem_cons_self
  obtain ⟨-, values', hvalues', -, haxioms', -⟩ := hsizes (copyRow "b" .resolved) (by simp)
  refine ⟨_, values, values', hconstruct, hvalues, hvalues', haxioms, haxioms', ?_⟩
  exact hapart _ mem_cons_self (copyRow "b" .resolved) (by simp) (by decide +kernel) _ hvalues _ hvalues'

end OwlCore
