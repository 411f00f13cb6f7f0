import OwlCore.Document.Shape
import OwlCore.Lib.Dictionary

/-!
# Origins of a parsed document

After freezing, `_FrozenMatcher` reconnects every occurrence with the frozen document: by the
root itself, by digest, or by type and skeleton. The origin index records the occurrence under
the digest of what was found. Skeletons keep one value for a key, so occurrences reach their own
images if and only if no two roots share type and skeleton.
-/
namespace OwlCore

open Fallible List Node

/-- The bytes that `structural_digest` hashes. -/
def structuralPreimage (encoded : Bytes) : Bytes :=
  utf8Encode "pyowl-core:structural-value:v1\x00" ++ Varint.encode 2 ++ encoded

def structuralDigest (hash : Hash) (value : Node) : Except Error Bytes := do
  let encoded ← canonicalBytes defaultLimits value
  .ok (hash.digest (structuralPreimage encoded))

/-- The values that `_FrozenMatcher` is given. -/
def FrozenDocument.values (frozen : FrozenDocument) : List Node :=
  frozen.ontologyAnnotations ++ frozen.axioms ++ frozen.extensionComponents

/-- An occurrence as the origin index keeps it; spans are carried along unread. -/
structure OriginOccurrence (Span : Type) where
  documentKey : String
  occurrence : Nat
  span : Option Span
  deriving DecidableEq

abbrev OriginIndex (Span : Type) := List (Bytes × List (OriginOccurrence Span))

/-- `origins_for` at the digest of a value. -/
def OriginIndex.origins {Span : Type} (index : OriginIndex Span) (digest : Bytes) : List (OriginOccurrence Span) :=
  (Dictionary.get? index digest).getD []

/-- What a format parser hands over: the parts to freeze and its roots in order of occurrence. -/
structure ParsedOntology (Span : Type) where
  input : DocumentInput
  occurrences : List (Node × Option Span)

section

variable (hash : Hash) (values : List Node)

/-- A dictionary of the values under a key, asked for one key. -/
def lookupBy {κ : Type} [DecidableEq κ] (key : Node → Except Error κ) (k : κ) : Except Error (Option Node) := do
  let entries ← values.mapM fun item => do
    let own ← key item
    .ok (own, item)
  .ok (Dictionary.get? (Dictionary.ofEntries entries) k)

/-- The key of `_by_skeleton`. -/
def skeletonKey (value : Node) : Except Error (Constructor × Bytes) := do
  let own ← skeleton value
  .ok (value.constructor, own)

/-- The three lookups of `_FrozenMatcher.match`; whether the occurrence is itself one of the frozen
objects is not visible in its value, so `identical` is an argument. -/
def findFrozen (identical : Bool) (original : Node) : Except Error (Option Node) :=
  if identical then .ok (some original)
  else do
    let digest ← structuralDigest hash original
    match ← lookupBy values (structuralDigest hash) digest with
    | some candidate => .ok (some candidate)
    | none => do
      let key ← skeletonKey original
      lookupBy values skeletonKey key

/-- `_FrozenMatcher.match`. -/
def matchFrozen (identical : Bool) (original : Node) : Except Error (Option Node × Bytes) := do
  match ← findFrozen hash values identical original with
  | none => .ok (none, List.replicate 32 0)
  | some candidate => do
    let digest ← structuralDigest hash candidate
    .ok (some candidate, digest)

end

section

variable {Span : Type} (hash : Hash) (limits : ParseLimits) (identical : Nat → Bool)

/-- One round of the loop over `parsed.occurrences`. -/
def recordOccurrence (values : List Node) (documentKey : String) (index : OriginIndex Span)
    (item : (Node × Option Span) × Nat) : Except Error (OriginIndex Span) := do
  match ← matchFrozen hash values (identical item.2) item.1.1 with
  | (none, _) => .ok index
  | (some _, digest) => .ok (Dictionary.push index digest ⟨documentKey, item.2, item.1.2⟩)

/-- The frozen document and its origin index; `documentKey` is the fingerprint of the document. -/
def documentOrigins (documentKey : FrozenDocument → String) (parsed : ParsedOntology Span) :
    Except Error (FrozenDocument × OriginIndex Span) := do
  let frozen ← freezeDocumentAnonymous hash limits parsed.input
  let index ← parsed.occurrences.zipIdx.foldlM
    (recordOccurrence hash identical frozen.values (documentKey frozen)) []
  .ok (frozen, index)

end

section

variable {hash : Hash} {values : List Node}

theorem structuralDigest_ok_iff : structuralDigest hash n = .ok digest ↔
    n.Encodable defaultLimits ∧ digest = hash.digest (structuralPreimage n.bytes) := by
  rw [structuralDigest, bind_eq_ok]
  constructor
  · rintro ⟨encoded, hencoded, h⟩
    obtain ⟨hn, rfl⟩ := canonicalBytes_ok_iff.mp hencoded
    exact ⟨hn, (Except.ok.inj h).symm⟩
  · rintro ⟨hn, rfl⟩
    exact ⟨n.bytes, canonicalBytes_of_encodable hn, rfl⟩

theorem skeletonKey_ok_iff : skeletonKey n = .ok key ↔
    n.constructor = key.1 ∧ skeleton n = .ok key.2 := by
  rw [skeletonKey, bind_eq_ok]
  constructor
  · rintro ⟨own, hown, h⟩
    obtain rfl := Except.ok.inj h
    exact ⟨rfl, hown⟩
  · rintro ⟨hconstructor, hskeleton⟩
    exact ⟨key.2, hskeleton, by rw [hconstructor]⟩

/-- A dictionary finds a value with the key, and finds one whenever there is one. -/
theorem lookupBy_ok [DecidableEq κ] {k : κ} (h : lookupBy values key k = .ok found) :
    (∀ c, found = some c → c ∈ values ∧ key c = .ok k) ∧ ∀ v ∈ values, key v = .ok k → ∃ c, found = some c := by
  obtain ⟨entries, hentries, h⟩ := bind_eq_ok.mp h
  obtain rfl := Except.ok.inj h
  constructor
  · intro c hc
    obtain ⟨v, hv, hentry⟩ := exists_of_mem_mapM hentries (Dictionary.mem_of_get?_ofEntries hc)
    obtain ⟨own, hown, hentry⟩ := bind_eq_ok.mp hentry
    obtain ⟨rfl, rfl⟩ := Prod.mk.inj (Except.ok.inj hentry)
    exact ⟨hv, hown⟩
  · intro v hv hkey
    obtain ⟨entry, hentry, hown⟩ := exists_of_mem_left hentries hv
    rw [hkey] at hown
    obtain rfl := Except.ok.inj hown
    exact Dictionary.exists_get?_ofEntries hentry

/-- What `match` returns is the digest of the value that was found. -/
theorem matchFrozen_ok_iff :
    matchFrozen hash values identical original = .ok result ↔
      ∃ found, findFrozen hash values identical original = .ok found ∧ match found with
        | none => result = (none, List.replicate 32 0)
        | some c => ∃ digest, structuralDigest hash c = .ok digest ∧ result = (some c, digest) := by
  rw [matchFrozen, bind_eq_ok]
  refine exists_congr fun found => and_congr_right fun _ => ?_
  cases found with
  | none => exact ⟨fun h => (Except.ok.inj h).symm, fun h => by rw [h]⟩
  | some c =>
    rw [bind_eq_ok]
    refine exists_congr fun digest => and_congr_right fun _ => ?_
    exact ⟨fun h => (Except.ok.inj h).symm, fun h => by rw [h]⟩

end

section

variable {Span : Type} {hash : Hash} {identical : Nat → Bool} {values : List Node} {documentKey : String}

theorem recordOccurrence_ok {index next : OriginIndex Span} {item : (Node × Option Span) × Nat}
    (h : recordOccurrence hash identical values documentKey index item = .ok next) :
    ∃ result, matchFrozen hash values (identical item.2) item.1.1 = .ok result ∧ ∀ digest origin,
      origin ∈ next.origins digest ↔ origin ∈ index.origins digest ∨
        (∃ c, result = (some c, digest)) ∧ origin = ⟨documentKey, item.2, item.1.2⟩ := by
  obtain ⟨⟨found, own⟩, hresult, h⟩ := bind_eq_ok.mp h
  refine ⟨_, hresult, fun digest origin => ?_⟩
  cases found with
  | none =>
    obtain rfl := Except.ok.inj h
    simp
  | some c =>
    obtain rfl := Except.ok.inj h
    rw [OriginIndex.origins, Dictionary.mem_get?_push]
    simp only [Prod.mk.injEq, Option.some.injEq, exists_and_right, exists_eq', true_and, eq_comm (a := digest)]
    rfl

/-- The loop asks the matcher about every occurrence and records it under the digest it gets. -/
theorem foldlM_recordOccurrence_ok {items : List ((Node × Option Span) × Nat)} (h : items.foldlM (recordOccurrence
    hash identical values documentKey) start = .ok index) :
    (∀ item ∈ items, ∃ result, matchFrozen hash values (identical item.2) item.1.1 = .ok result) ∧
      ∀ digest origin, origin ∈ index.origins digest ↔ origin ∈ start.origins digest ∨ ∃ item ∈ items,
        (∃ c, matchFrozen hash values (identical item.2) item.1.1 = .ok (some c, digest)) ∧
          origin = ⟨documentKey, item.2, item.1.2⟩ := by
  induction items generalizing start with
  | nil =>
    obtain rfl := Except.ok.inj h
    simp
  | cons item items ih =>
    rw [foldlM_cons] at h
    obtain ⟨next, hnext, h⟩ := bind_eq_ok.mp h
    obtain ⟨result, hresult, hstep⟩ := recordOccurrence_ok hnext
    obtain ⟨hall, hrun⟩ := ih h
    refine ⟨fun other hother => ?_, fun digest origin => ?_⟩
    · rcases mem_cons.mp hother with rfl | hother
      · exact ⟨result, hresult⟩
      · exact hall other hother
    · rw [hrun, hstep]
      simp only [mem_cons, exists_eq_or_imp, hresult, Except.ok.injEq, or_assoc]

end

/-- What the format parsers build: the individuals are provisional, every occurrence is a root and
every extension is an occurrence. -/
structure ParsedOntology.FromParser {Span : Type} (hash : Hash) (parsed : ParsedOntology Span) : Prop where
  constructible : ∀ r ∈ parsed.input.roots, Constructible r
  provisional : ∀ r ∈ parsed.input.roots, ∀ a ∈ r.anonymousValues, ∃ label, a = provisionalAnonymous hash label
  occurrences : ∀ item ∈ parsed.occurrences, item.1 ∈ parsed.input.roots
  extensions : ∀ r ∈ parsed.input.extensionComponents, ∃ item ∈ parsed.occurrences, item.1 = r

/-- What matching relies on: the frozen values are the images of the roots under an injective renaming
that keeps skeletons, and digests tell both apart. -/
structure Tracked (hash : Hash) (σ : String → AnonymousIndividual) (roots values : List Node) : Prop where
  canonical : ∀ r ∈ roots, r.Canonical
  mem_values : ∀ v, v ∈ values ↔ ∃ r ∈ roots, v = renameBlanks hash σ r
  encodable : ∀ r ∈ roots, (renameBlanks hash σ r).Encodable defaultLimits
  skeletons : ∀ r ∈ roots, ∃ s, skeleton r = .ok s ∧ skeleton (renameBlanks hash σ r) = .ok s
  settled : ∀ r ∈ roots, r ∈ values → r.anonymousValues = []
  injective : ∀ r ∈ roots, ∀ r' ∈ roots, renameBlanks hash σ r = renameBlanks hash σ r' → r = r'
  digests : ∀ n ∈ roots ++ values, ∀ m ∈ roots ++ values,
    hash.digest (structuralPreimage n.bytes) = hash.digest (structuralPreimage m.bytes) → n = m

/-- The bytes of the structural digests that matching compares. -/
def originPreimages (input : DocumentInput) (frozen : FrozenDocument) : List Bytes :=
  (input.roots ++ frozen.values).map fun n => structuralPreimage n.bytes

section

variable {hash : Hash} {limits : ParseLimits} {input : DocumentInput} {frozen : FrozenDocument}
  {arcs : List (BlankNodeArc String)} {solved : List SolvedComponent} {σ : String → AnonymousIndividual}

section

variable (h : Freezes hash limits input frozen arcs solved σ)

include h

theorem Freezes.mem_values :
    v ∈ frozen.values ↔ ∃ r ∈ input.roots, v = renameBlanks hash σ r := by
  simp only [FrozenDocument.values, mem_append, h.annotations.mem_iff, h.axioms.mem_iff, h.extensions.mem_iff,
    DocumentInput.mem_roots, or_and_right, exists_or, or_assoc]

theorem Freezes.encodable (hr : r ∈ input.roots) :
    (renameBlanks hash σ r).Encodable defaultLimits := by
  rcases DocumentInput.mem_roots.mp hr with hr | hr | hr
  · exact h.annotations.encodable r hr
  · exact h.axioms.encodable r hr
  · exact h.extensions.encodable r hr

theorem Freezes.skeleton_ok (hr : r ∈ input.roots) :
    ∃ s, skeleton r = .ok s := by
  obtain ⟨datas, hdatas, -⟩ := h.arcs_eq
  obtain ⟨data, -, hdata⟩ := exists_of_mem_left hdatas hr
  obtain ⟨s, hs, -⟩ := bind_eq_ok.mp hdata
  exact ⟨s, hs⟩

theorem Freezes.tracked (hroots : ∀ r ∈ input.roots, Constructible r)
    (hprovisional : ∀ r ∈ input.roots, ∀ a ∈ r.anonymousValues, ∃ label, a = provisionalAnonymous hash label)
    (hfreeze : ∀ x ∈ freezePreimages hash limits input, ∀ y ∈ freezePreimages hash limits input,
      hash.digest x = hash.digest y → x = y)
    (horigin : ∀ x ∈ originPreimages input frozen, ∀ y ∈ originPreimages input frozen,
      hash.digest x = hash.digest y → x = y) :
    Tracked hash σ input.roots frozen.values := by
  have hcanonical : ∀ r ∈ input.roots, r.Canonical := fun r hr => (hroots r hr).canonical
  have hinj : ∀ l l', input.HasLabel hash l → input.HasLabel hash l' → σ l = σ l' → l = l' := fun l l' hl hl' =>
    h.injective hcanonical hfreeze hl hl'
  have hlabel : ∀ r ∈ input.roots, ∀ label, provisionalAnonymous hash label ∈ r.anonymousValues →
      input.HasLabel hash label := fun r hr label ha =>
    ⟨r, hr, _, ha, provisionalLabel_provisionalAnonymous hash label⟩
  have hall : ∀ n ∈ input.roots ++ frozen.values, n.Canonical := by
    intro n hn
    rcases mem_append.mp hn with hn | hn
    · exact hcanonical n hn
    · obtain ⟨r, hr, rfl⟩ := h.mem_values.mp hn
      exact canonical_mapAnonymous (hcanonical r hr)
  constructor
  · exact hcanonical
  · exact fun v => h.mem_values
  · exact fun r hr => h.encodable hr
  · intro r hr
    obtain ⟨s, hs⟩ := h.skeleton_ok hr
    refine ⟨s, hs, skeleton_mapAnonymous (hcanonical r hr) (fun a ha b hb hab => ?_) hs⟩
    obtain ⟨l, rfl⟩ := hprovisional r hr a ha
    obtain ⟨l', rfl⟩ := hprovisional r hr b hb
    rw [renameBlank_provisionalAnonymous, renameBlank_provisionalAnonymous] at hab
    rw [hinj l l' (hlabel r hr l ha) (hlabel r hr l' hb) hab]
  · intro r hr hvalue
    obtain ⟨r', hr', hrename⟩ := h.mem_values.mp hvalue
    rw [eq_nil_iff_forall_not_mem]
    intro a ha
    obtain ⟨label, rfl⟩ := hprovisional r hr a ha
    have hnone := h.label_none hcanonical hr' (hrename ▸ ha)
    rw [provisionalLabel_provisionalAnonymous] at hnone
    cases hnone
  · intro r hr r' hr' heq
    refine h.root_unique hcanonical hinj hr hr' (fun a ha => .inl ?_) heq
    exact ha.elim (hprovisional r hr a) (hprovisional r' hr' a)
  · intro n hn m hm heq
    have hbytes := horigin _ (mem_map_of_mem hn) _ (mem_map_of_mem hm) heq
    exact bytes_injOn (hall n hn) (hall m hm) (append_cancel_left hbytes)

end

end

section

variable {n m : Node} {s : Bytes}

theorem Constructible.skeleton_of_none (hn : Constructible n) (hnone : n.anonymousValues = [])
    (h : skeleton n = .ok s) : s = utf8Encode "C" ++ Varint.frame n.bytes := by
  have hc : n.constructor ≠ .anonymousIndividual := by
    intro hc
    obtain ⟨a, rfl⟩ := hn.anonymousIndividual_node hc
    have ha : a ∈ a.node.anonymousValues := mem_anonymousValues.mpr (.inl rfl)
    rw [hnone] at ha
    cases ha
  rw [skeleton_eq, if_neg hc, if_pos hnone] at h
  obtain ⟨encoded, hencoded, h⟩ := bind_eq_ok.mp h
  obtain ⟨-, rfl⟩ := canonicalBytes_ok_iff.mp hencoded
  exact (Except.ok.inj h).symm

theorem Constructible.eq_of_skeleton (hn : Constructible n) (hm : Constructible m) (hnone : n.anonymousValues = [])
    (h : skeleton n = .ok s) (h' : skeleton m = .ok s) : n = m := by
  obtain rfl := hn.skeleton_of_none hnone h
  by_cases hmnone : m.anonymousValues = []
  · have hframes := append_cancel_left (hm.skeleton_of_none hmnone h')
    exact bytes_injOn hn.canonical hm.canonical (Varint.frame_injective hframes)
  · -- the first byte of the skeleton of a value with individuals is another one
    have hB : utf8Encode "B" = [66] := by decide
    have hC : utf8Encode "C" = [67] := by decide
    have hN : utf8Encode "N" = [78] := by decide
    rw [skeleton_eq, if_neg hmnone] at h'
    split at h'
    · simp [hB, hC] at h'
    · obtain ⟨members, -, h'⟩ := bind_eq_ok.mp h'
      simp [hN, hC] at h'

end

section

variable {hash : Hash} {σ : String → AnonymousIndividual} {roots values : List Node} {identical : Bool} {r : Node}
  {found : Option Node}

section

variable (t : Tracked hash σ roots values)

include t

section

variable (hr : r ∈ roots)

include hr

theorem Tracked.image_eq (hnone : r.anonymousValues = []) :
    renameBlanks hash σ r = r :=
  mapAnonymous_eq_self (t.canonical r hr) (by simp [hnone])

theorem Tracked.digest_ok :
    structuralDigest hash (renameBlanks hash σ r) =
      .ok (hash.digest (structuralPreimage (renameBlanks hash σ r).bytes)) :=
  structuralDigest_ok_iff.mpr ⟨t.encodable r hr, rfl⟩

theorem Tracked.digest_injective (hr' : r' ∈ roots) (h :
    structuralDigest hash (renameBlanks hash σ r) = .ok digest) (h' : structuralDigest hash (renameBlanks hash σ r') =
    .ok digest) : r = r' := by
  have heq := Except.ok.inj (((t.digest_ok hr).symm.trans h).trans (((t.digest_ok hr').symm.trans h').symm))
  have hvalue : ∀ r ∈ roots, renameBlanks hash σ r ∈ roots ++ values := fun r hr =>
    mem_append_right _ ((t.mem_values _).mpr ⟨r, hr, rfl⟩)
  exact t.injective r hr r' hr' (t.digests _ (hvalue r hr) _ (hvalue r' hr') heq)

/-- A root is found as itself, when it has no individuals, or by its skeleton. -/
theorem Tracked.findFrozen_cases (hidentical : identical = true → r ∈ values) (h : findFrozen hash values identical r = .ok found) :
    (r.anonymousValues = [] ∧ found = some r) ∨
      ∃ key, skeletonKey r = .ok key ∧ lookupBy values skeletonKey key = .ok found := by
  rw [findFrozen] at h
  split at h
  · rename_i hsame
    exact .inl ⟨t.settled r hr (hidentical hsame), (Except.ok.inj h).symm⟩
  · obtain ⟨digest, hdigest, h⟩ := bind_eq_ok.mp h
    obtain ⟨candidate, hlookup, h⟩ := bind_eq_ok.mp h
    cases candidate with
    | none =>
      obtain ⟨key, hkey, h⟩ := bind_eq_ok.mp h
      exact .inr ⟨key, hkey, h⟩
    | some c =>
      obtain ⟨hc, hcdigest⟩ := (lookupBy_ok hlookup).1 c rfl
      have hsame := (structuralDigest_ok_iff.mp hcdigest).2.symm.trans (structuralDigest_ok_iff.mp hdigest).2
      obtain rfl : c = r := t.digests c (mem_append_right _ hc) r (mem_append_left _ hr) hsame
      exact .inl ⟨t.settled c hr hc, (Except.ok.inj h).symm⟩

theorem Tracked.matchFrozen_root (hidentical : identical = true → r ∈ values) {result : Option Node × Bytes}
    (h : matchFrozen hash values identical r = .ok result) :
    ∃ r' ∈ roots, r'.constructor = r.constructor ∧ skeleton r' = skeleton r ∧
      ∃ digest, structuralDigest hash (renameBlanks hash σ r') = .ok digest ∧
        result = (some (renameBlanks hash σ r'), digest) := by
  obtain ⟨found, hfound, h⟩ := matchFrozen_ok_iff.mp h
  rcases t.findFrozen_cases hr hidentical hfound with ⟨hnone, rfl⟩ | ⟨key, hkey, hlookup⟩
  · refine ⟨r, hr, rfl, rfl, ?_⟩
    rwa [t.image_eq hr hnone]
  · obtain ⟨hsound, hcomplete⟩ := lookupBy_ok hlookup
    obtain ⟨hconstructor, hskeleton⟩ := skeletonKey_ok_iff.mp hkey
    obtain ⟨s, hs, himage⟩ := t.skeletons r hr
    have hown : skeletonKey (renameBlanks hash σ r) = .ok key := by
      refine skeletonKey_ok_iff.mpr ⟨?_, ?_⟩
      · rw [renameBlanks, constructor_mapAnonymous, hconstructor]
      · rw [himage, ← hs, hskeleton]
    obtain ⟨c, rfl⟩ := hcomplete _ ((t.mem_values _).mpr ⟨r, hr, rfl⟩) hown
    obtain ⟨hc, hckey⟩ := hsound c rfl
    obtain ⟨r', hr', rfl⟩ := (t.mem_values c).mp hc
    obtain ⟨hconstructor', hskeleton'⟩ := skeletonKey_ok_iff.mp hckey
    obtain ⟨s', hs', himage'⟩ := t.skeletons r' hr'
    refine ⟨r', hr', ?_, ?_, h⟩
    · rw [hconstructor, ← hconstructor', renameBlanks, constructor_mapAnonymous]
    · rw [hs', ← himage', hskeleton', hskeleton]

/-- Roots with individuals that share type and skeleton are matched with the same value. -/
theorem Tracked.matchFrozen_shared (hr' : r' ∈ roots) (hsome :
    r.anonymousValues ≠ []) (hsome' : r'.anonymousValues ≠ []) (hconstructor : r.constructor = r'.constructor)
    (hskeleton : skeleton r = skeleton r') (hidentical : identical = true → r ∈ values) (hidentical' : identical' =
    true → r' ∈ values) (h : matchFrozen hash values identical r = .ok result) (h' : matchFrozen hash values
    identical' r' = .ok result') : result = result' := by
  obtain ⟨found, hfound, hresult⟩ := matchFrozen_ok_iff.mp h
  obtain ⟨found', hfound', hresult'⟩ := matchFrozen_ok_iff.mp h'
  obtain ⟨key, hkey, hlookup⟩ := (t.findFrozen_cases hr hidentical hfound).resolve_left fun hnone => hsome hnone.1
  obtain ⟨key', hkey', hlookup'⟩ := (t.findFrozen_cases hr' hidentical' hfound').resolve_left fun hnone =>
    hsome' hnone.1
  have hkeys : skeletonKey r = skeletonKey r' := by rw [skeletonKey, skeletonKey, hconstructor, hskeleton]
  obtain rfl : key = key' := Except.ok.inj ((hkey.symm.trans hkeys).trans hkey')
  obtain rfl : found = found' := Except.ok.inj (hlookup.symm.trans hlookup')
  cases found with
  | none => exact hresult.trans hresult'.symm
  | some c =>
    obtain ⟨digest, hdigest, rfl⟩ := hresult
    obtain ⟨digest', hdigest', rfl⟩ := hresult'
    rw [Except.ok.inj (hdigest.symm.trans hdigest')]

end

end

end

section

variable {Span : Type} {hash : Hash} {limits : ParseLimits} {identical : Nat → Bool}
  {documentKey : FrozenDocument → String} {parsed : ParsedOntology Span} {frozen : FrozenDocument}
  {index : OriginIndex Span}

/-- Every occurrence is recorded under the digest of the image of its root, and every annotation and
axiom of the frozen document has an origin. -/
structure Attributes (hash : Hash) (σ : String → AnonymousIndividual) (documentKey : String)
    (parsed : ParsedOntology Span) (frozen : FrozenDocument) (index : OriginIndex Span) : Prop where
  occurrence : ∀ i root span, parsed.occurrences[i]? = some (root, span) →
    ∃ digest, structuralDigest hash (renameBlanks hash σ root) = .ok digest ∧
      ⟨documentKey, i, span⟩ ∈ index.origins digest
  origin : ∀ value ∈ frozen.ontologyAnnotations ++ frozen.axioms,
    ∃ digest, structuralDigest hash value = .ok digest ∧ index.origins digest ≠ []

/-- Every annotation and axiom is an occurrence, and no two roots share type and skeleton. -/
structure ParsedOntology.Attributable (parsed : ParsedOntology Span) : Prop where
  occurs : ∀ r ∈ parsed.input.ontologyAnnotations ++ parsed.input.axioms, ∃ item ∈ parsed.occurrences, item.1 = r
  distinct : ∀ r ∈ parsed.input.roots, ∀ r' ∈ parsed.input.roots, r.constructor = r'.constructor →
    skeleton r = skeleton r' → r = r'

/-- What the origin index holds, occurrence by occurrence. -/
structure Records (hash : Hash) (identical : Nat → Bool) (documentKey : String) (values : List Node)
    (occurrences : List (Node × Option Span)) (index : OriginIndex Span) : Prop where
  matched : ∀ i root span, occurrences[i]? = some (root, span) →
    ∃ result, matchFrozen hash values (identical i) root = .ok result
  mem_origins : ∀ digest origin, origin ∈ index.origins digest ↔ ∃ i root span, occurrences[i]? = some (root, span) ∧
      (∃ c, matchFrozen hash values (identical i) root = .ok (some c, digest)) ∧ origin = ⟨documentKey, i, span⟩

theorem documentOrigins_ok (h : documentOrigins hash limits identical documentKey parsed = .ok (frozen, index)) :
    freezeDocumentAnonymous hash limits parsed.input = .ok frozen ∧
      Records hash identical (documentKey frozen) frozen.values parsed.occurrences index := by
  obtain ⟨frozen', hfreeze, h⟩ := bind_eq_ok.mp h
  obtain ⟨index', hindex, h⟩ := bind_eq_ok.mp h
  obtain ⟨rfl, rfl⟩ := Prod.mk.inj (Except.ok.inj h)
  obtain ⟨hmatched, hrun⟩ := foldlM_recordOccurrence_ok hindex
  refine ⟨hfreeze, fun i root span hi => ?_, fun digest origin => ?_⟩
  · exact hmatched ((root, span), i) (mem_zipIdx_iff_getElem?.mpr hi)
  · rw [hrun]
    constructor
    · rintro (hnil | ⟨⟨⟨root, span⟩, i⟩, hitem, hmatch, rfl⟩)
      · cases hnil
      · exact ⟨i, root, span, mem_zipIdx_iff_getElem?.mp hitem, hmatch, rfl⟩
    · rintro ⟨i, root, span, hi, hmatch, rfl⟩
      exact .inr ⟨((root, span), i), mem_zipIdx_iff_getElem?.mpr hi, hmatch, rfl⟩

/-- Whether an object is one of the frozen objects shows in its value. -/
def ParsedOntology.Identifies (parsed : ParsedOntology Span) (identical : Nat → Bool) (values : List Node) : Prop :=
  ∀ i root span, parsed.occurrences[i]? = some (root, span) → identical i = true → root ∈ values

section

variable {σ : String → AnonymousIndividual} {key : String}

theorem Records.digest_unique (h : Records hash identical key values occurrences index) {span span' : Option Span}
    {digest digest' : Bytes} {c : Option Node} (hi : occurrences[i]? = some (root, span)) (hmatch : matchFrozen hash
    values (identical i) root = .ok (c, digest)) (hrecorded : ⟨key, i, span'⟩ ∈ index.origins digest') : digest = digest' := by
  obtain ⟨j, root', span'', hj, ⟨c', hmatch'⟩, horigin⟩ := (h.mem_origins _ _).mp hrecorded
  obtain ⟨-, rfl, rfl⟩ := OriginOccurrence.mk.inj horigin
  obtain ⟨rfl, rfl⟩ := Prod.mk.inj (Option.some.inj (hi.symm.trans hj))
  exact (Prod.mk.inj (Except.ok.inj (hmatch.symm.trans hmatch'))).2

variable (t : Tracked hash σ parsed.input.roots frozen.values)
  (hrecords : Records hash identical key frozen.values parsed.occurrences index)
  (hidentical : parsed.Identifies identical frozen.values) (hparser : parsed.FromParser hash)
  (hannotations : Replaces hash σ parsed.input.ontologyAnnotations frozen.ontologyAnnotations)
  (haxioms : Replaces hash σ parsed.input.axioms frozen.axioms)

include t hrecords hidentical hparser hannotations haxioms

theorem attributes_of_attributable (h : parsed.Attributable) : Attributes hash σ key parsed frozen index := by
  have hoccurrence : ∀ i root span, parsed.occurrences[i]? = some (root, span) →
      ∃ digest, structuralDigest hash (renameBlanks hash σ root) = .ok digest ∧
        ⟨key, i, span⟩ ∈ index.origins digest := by
    intro i root span hi
    have hroot := hparser.occurrences _ (mem_of_getElem? hi)
    obtain ⟨result, hresult⟩ := hrecords.matched i root span hi
    obtain ⟨r', hr', hconstructor, hskeleton, digest, hdigest, rfl⟩ :=
      t.matchFrozen_root hroot (hidentical i root span hi) hresult
    obtain rfl := h.distinct r' hr' root hroot hconstructor hskeleton
    exact ⟨digest, hdigest, (hrecords.mem_origins _ _).mpr ⟨i, r', span, hi, ⟨_, hresult⟩, rfl⟩⟩
  refine ⟨hoccurrence, fun value hvalue => ?_⟩
  obtain ⟨r, hr, rfl⟩ : ∃ r ∈ parsed.input.ontologyAnnotations ++ parsed.input.axioms,
      value = renameBlanks hash σ r := by
    rcases mem_append.mp hvalue with hvalue | hvalue
    · obtain ⟨r, hr, rfl⟩ := (hannotations.mem_iff value).mp hvalue
      exact ⟨r, mem_append_left _ hr, rfl⟩
    · obtain ⟨r, hr, rfl⟩ := (haxioms.mem_iff value).mp hvalue
      exact ⟨r, mem_append_right _ hr, rfl⟩
  obtain ⟨⟨root, span⟩, hitem, rfl⟩ := h.occurs r hr
  obtain ⟨i, hi⟩ := getElem?_of_mem hitem
  obtain ⟨digest, hdigest, hrecorded⟩ := hoccurrence i root span hi
  exact ⟨digest, hdigest, ne_nil_of_mem hrecorded⟩

theorem attributable_of_attributes (h : Attributes hash σ key parsed frozen index) : parsed.Attributable := by
  have hoccurs : ∀ r ∈ parsed.input.ontologyAnnotations ++ parsed.input.axioms,
      ∃ item ∈ parsed.occurrences, item.1 = r := by
    intro r hr
    have hroot : r ∈ parsed.input.roots := mem_append_left _ hr
    have hvalue : renameBlanks hash σ r ∈ frozen.ontologyAnnotations ++ frozen.axioms := by
      rcases mem_append.mp hr with hr | hr
      · exact mem_append_left _ ((hannotations.mem_iff _).mpr ⟨r, hr, rfl⟩)
      · exact mem_append_right _ ((haxioms.mem_iff _).mpr ⟨r, hr, rfl⟩)
    obtain ⟨digest, hdigest, hsome⟩ := h.origin _ hvalue
    obtain ⟨origin, horigin⟩ := exists_mem_of_ne_nil _ hsome
    obtain ⟨i, root, span, hi, ⟨c, hmatch⟩, rfl⟩ := (hrecords.mem_origins _ _).mp horigin
    obtain ⟨own, hown, hrecorded⟩ := h.occurrence i root span hi
    obtain rfl := hrecords.digest_unique hi hmatch hrecorded
    have hitem := mem_of_getElem? hi
    exact ⟨_, hitem, t.digest_injective (hparser.occurrences _ hitem) hroot hown hdigest⟩
  refine ⟨hoccurs, fun r hr r' hr' hconstructor hskeleton => ?_⟩
  -- every root is an occurrence, and is recorded under the digest of its own image
  have hmatched : ∀ r ∈ parsed.input.roots, ∃ same c digest, (same = true → r ∈ frozen.values) ∧
      matchFrozen hash frozen.values same r = .ok (some c, digest) ∧
        structuralDigest hash (renameBlanks hash σ r) = .ok digest := by
    intro r hr
    obtain ⟨⟨root, span⟩, hitem, rfl⟩ : ∃ item ∈ parsed.occurrences, item.1 = r := by
      rcases mem_append.mp hr with hr | hr
      · exact hoccurs r hr
      · exact hparser.extensions r hr
    obtain ⟨i, hi⟩ := getElem?_of_mem hitem
    obtain ⟨digest, hdigest, hrecorded⟩ := h.occurrence i root span hi
    obtain ⟨j, root', span', hj, ⟨c, hmatch⟩, horigin⟩ := (hrecords.mem_origins _ _).mp hrecorded
    obtain ⟨-, rfl, rfl⟩ := OriginOccurrence.mk.inj horigin
    obtain ⟨rfl, -⟩ := Prod.mk.inj (Option.some.inj (hi.symm.trans hj))
    exact ⟨identical i, c, digest, hidentical i root span hi, hmatch, hdigest⟩
  obtain ⟨s, hs, -⟩ := t.skeletons r hr
  have hs' : skeleton r' = .ok s := hskeleton ▸ hs
  by_cases hnone : r.anonymousValues = []
  · exact (hparser.constructible r hr).eq_of_skeleton (hparser.constructible r' hr') hnone hs hs'
  · by_cases hnone' : r'.anonymousValues = []
    · exact ((hparser.constructible r' hr').eq_of_skeleton (hparser.constructible r hr) hnone' hs' hs).symm
    · obtain ⟨same, c, digest, hsame, hmatch, hdigest⟩ := hmatched r hr
      obtain ⟨same', c', digest', hsame', hmatch', hdigest'⟩ := hmatched r' hr'
      have hshared := t.matchFrozen_shared hr hr' hnone hnone' hconstructor hskeleton hsame hsame' hmatch hmatch'
      obtain ⟨-, rfl⟩ := Prod.mk.inj hshared
      exact t.digest_injective hr hr' hdigest hdigest'

end

/-- The origins of a parsed document are those of its roots if and only if every annotation and axiom
is an occurrence and no two roots share type and skeleton. -/
theorem documentOrigins_attributes_iff (hparser : parsed.FromParser hash)
    (hfreeze : ∀ x ∈ freezePreimages hash limits parsed.input, ∀ y ∈ freezePreimages hash limits parsed.input,
      hash.digest x = hash.digest y → x = y)
    (horigin : ∀ x ∈ originPreimages parsed.input frozen, ∀ y ∈ originPreimages parsed.input frozen,
      hash.digest x = hash.digest y → x = y)
    (hidentical : parsed.Identifies identical frozen.values)
    (h : documentOrigins hash limits identical documentKey parsed = .ok (frozen, index)) :
    ∃ arcs solved σ, Freezes hash limits parsed.input frozen arcs solved σ ∧
      (Attributes hash σ (documentKey frozen) parsed frozen index ↔ parsed.Attributable) := by
  obtain ⟨hfrozen, hrecords⟩ := documentOrigins_ok h
  obtain ⟨arcs, solved, σ, hfreezes⟩ := freezeDocumentAnonymous_ok hparser.constructible hfrozen
  have t := hfreezes.tracked hparser.constructible hparser.provisional hfreeze horigin
  refine ⟨arcs, solved, σ, hfreezes, fun hattributes => ?_, fun hattributable => ?_⟩
  · exact attributable_of_attributes t hrecords hidentical hparser hfreezes.annotations hfreezes.axioms hattributes
  · exact attributes_of_attributable t hrecords hidentical hparser hfreezes.annotations hfreezes.axioms hattributable

end

/-- Class assertions about blank nodes, each an occurrence. -/
def assertedBlanks (labels : List String) : ParsedOntology Unit :=
  let axioms := labels.map fun label =>
    classAssertionNode (entityNode .class "urn:C") (provisionalAnonymous sha256 label).node
  ⟨axiomsInput axioms, axioms.map fun root => (root, none)⟩

/-- One blank node: the frozen axiom has its occurrence. -/
theorem documentOrigins_attributes_blank : ∃ frozen index arcs solved σ,
    documentOrigins sha256 defaultLimits (fun _ => false) (fun _ => "document") (assertedBlanks ["a"]) =
      .ok (frozen, index) ∧
    Freezes sha256 defaultLimits (assertedBlanks ["a"]).input frozen arcs solved σ ∧
    Attributes sha256 σ "document" (assertedBlanks ["a"]) frozen index := by
  obtain ⟨⟨frozen, index⟩, h, horigin⟩ := exists_of_toOption_any
    (x := documentOrigins sha256 defaultLimits (fun _ => false) (fun _ => "document") (assertedBlanks ["a"]))
    (p := fun result => decide (∀ x ∈ originPreimages (assertedBlanks ["a"]).input result.1,
      ∀ y ∈ originPreimages (assertedBlanks ["a"]).input result.1, sha256.digest x = sha256.digest y → x = y))
    (by decide +kernel)
  have hrebuilds : ∀ r ∈ (assertedBlanks ["a"]).input.roots, r.rebuilds := by decide +kernel
  have hvalues : ∀ r ∈ (assertedBlanks ["a"]).input.roots, ∀ a ∈ r.anonymousValues,
      a = provisionalAnonymous sha256 "a" := by decide +kernel
  have hparser : (assertedBlanks ["a"]).FromParser sha256 :=
    ⟨fun r hr => constructible_of_rebuilds (hrebuilds r hr), fun r hr a ha => ⟨"a", hvalues r hr a ha⟩,
      by decide +kernel, by decide +kernel⟩
  obtain ⟨arcs, solved, σ, hfreezes, hiff⟩ := documentOrigins_attributes_iff hparser (by decide +kernel)
    (of_decide_eq_true horigin) (fun _ _ _ _ hfalse => absurd hfalse (by decide)) h
  refine ⟨frozen, index, arcs, solved, σ, h, hfreezes, hiff.mpr ⟨?_, ?_⟩⟩
  · decide +kernel
  · intro r hr r' hr' _ _
    have hsingle : (assertedBlanks ["a"]).input.roots.length = 1 := by decide +kernel
    obtain ⟨x, hx⟩ := length_eq_one_iff.mp hsingle
    rw [hx, mem_singleton] at hr hr'
    rw [hr, hr']

/-- Two blank nodes: the assertions share their skeleton, and one frozen axiom has no origin. -/
theorem documentOrigins_shared_skeleton : ∃ frozen index,
    documentOrigins sha256 defaultLimits (fun _ => false) (fun _ => "document") (assertedBlanks ["a", "b"]) =
      .ok (frozen, index) ∧
    ∃ value ∈ frozen.axioms, ∃ digest, structuralDigest sha256 value = .ok digest ∧ index.origins digest = [] := by
  obtain ⟨⟨frozen, index⟩, h, hmissing⟩ := exists_of_toOption_any
    (x := documentOrigins sha256 defaultLimits (fun _ => false) (fun _ => "document") (assertedBlanks ["a", "b"]))
    (p := fun result => result.1.axioms.any fun value => (structuralDigest sha256 value).toOption.any fun digest =>
      decide (result.2.origins digest = [])) (by decide +kernel)
  obtain ⟨value, hvalue, hdigest⟩ := any_eq_true.mp hmissing
  obtain ⟨digest, hdigest, hnone⟩ := exists_of_toOption_any hdigest
  exact ⟨frozen, index, h, value, hvalue, digest, hdigest, of_decide_eq_true hnone⟩

end OwlCore
