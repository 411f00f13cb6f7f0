import OwlCore.Document.Labels
import OwlCore.Document.Places

/-!
# Freezing keeps the structure of a document

A successful freeze replaces the labels of a document along one map and does nothing else.
Labels at different places get different keys as long as the digest separates the preimages of
the document, so the map is injective and distinct roots stay distinct.
-/
namespace OwlCore

open Fallible KeyedSet List Node

structure IsImage (f : Node → Node) (values result : List Node) : Prop where
  ascending : Ascending Node.bytes result
  mem_iff : ∀ m, m ∈ result ↔ ∃ n ∈ values, m = f n

section

variable (hash : Hash) (σ : String → AnonymousIndividual)

def renameBlank (a : AnonymousIndividual) : AnonymousIndividual :=
  match provisionalLabel hash a with
  | .ok (some label) => σ label
  | _ => a

/-- The value with every label replaced by its individual. -/
def renameBlanks : Node → Node := Node.mapAnonymous (renameBlank hash σ)

@[simp] theorem renameBlank_provisionalAnonymous (label : String) :
    renameBlank hash σ (provisionalAnonymous hash label) = σ label := by
  rw [renameBlank, provisionalLabel_provisionalAnonymous]

theorem renameBlank_of_none (h : provisionalLabel hash a = .ok none) :
    renameBlank hash σ a = a := by
  rw [renameBlank, h]

theorem renameBlank_of_some (h : provisionalLabel hash a = .ok (some label)) : renameBlank hash σ a = σ label := by
  rw [renameBlank, h]

end

section

variable {hash : Hash} {σ : String → AnonymousIndividual} {values result : List Node}

theorem IsImage.result_unique (h : IsImage f values result) (h' : IsImage g values' result') (hmem : ∀ m, (∃ n ∈
    values, m = f n) ↔ ∃ n ∈ values', m = g n) : result = result' := by
  apply h.ascending.ext h'.ascending
  intro m
  rw [h.mem_iff, h'.mem_iff, hmem]

/-- The result is the canonical set of the renamed values, which all have canonical bytes. -/
structure Replaces (hash : Hash) (σ : String → AnonymousIndividual) (values result : List Node) : Prop
    extends IsImage (renameBlanks hash σ) values result where
  setsEncodable : ∀ n ∈ values, (renameBlanks hash σ n).SetsEncodable
  encodable : ∀ n ∈ values, (renameBlanks hash σ n).Encodable defaultLimits

theorem replaces_of_canonicalSetOf (hcanonical : ∀ n ∈ values, n.Canonical)
    (hsets : ∀ n ∈ values, (renameBlanks hash σ n).SetsEncodable)
    (h : canonicalSetOf (values.map (renameBlanks hash σ)) = .ok result) : Replaces hash σ values result := by
  obtain ⟨hencodable, rfl⟩ := canonicalSetOf_ok_iff.mp h
  have himages : ∀ m ∈ values.map (renameBlanks hash σ), m.Canonical := by
    intro m hm
    obtain ⟨n, hn, rfl⟩ := mem_map.mp hm
    exact canonical_mapAnonymous (hcanonical n hn)
  refine ⟨⟨ascending_ofList _, fun m => ?_⟩, hsets, fun n hn => hencodable _ (mem_map_of_mem hn)⟩
  rw [mem_ofList (keyInjOn_canonical himages), mem_map]
  simp only [eq_comm]

theorem replaces_self (hvalues : ∀ n ∈ values, Constructible n)
    (hself : ∀ n ∈ values, renameBlanks hash σ n = n) (h : canonicalSetOf values = .ok result) :
    Replaces hash σ values result := by
  have hmap : values.map (renameBlanks hash σ) = values := (map_congr_left hself).trans (map_id _)
  rw [← hmap] at h
  refine replaces_of_canonicalSetOf (fun n hn => (hvalues n hn).canonical) (fun n hn => ?_) h
  rw [hself n hn]
  exact (hvalues n hn).setsEncodable

/-- A list of constructible values whose labels are all bound is replaced by its images. -/
theorem replaceBlanks_ok (hvalues : ∀ n ∈ values, Constructible n) (hbound : ∀ n ∈ values, ∀ a ∈ n.anonymousValues,
    replaceBlank hash bindings a = .ok (renameBlank hash σ a)) (h : replaceBlanks hash bindings values = .ok result) :
    Replaces hash σ values result := by
  obtain ⟨replaced, hreplaced, h⟩ := bind_eq_ok.mp h
  obtain ⟨rfl, hsets⟩ := forall₂_eq_map (g := renameBlanks hash σ)
    (p := fun n => (renameBlanks hash σ n).SetsEncodable) (mapM_eq_ok.mp hreplaced) fun n hn m hm => by
      obtain ⟨rfl, hsets⟩ := replaceAnonymous_ok (hvalues n hn) (hbound n hn) hm
      exact ⟨rfl, hsets⟩
  exact replaces_of_canonicalSetOf (fun n hn => (hvalues n hn).canonical) hsets h

end

section

variable (hash : Hash)

def classPreimage (graph : Bytes) : Bytes := componentClassDomain ++ Varint.frame graph

def keyPreimage (scope : Scope) (place : Place) : Bytes :=
  keyDomain ++ scope.val ++ hash.digest (classPreimage place.graph) ++ Varint.encode place.ordinal ++
    Varint.encode place.index

def places (solved : List SolvedComponent) : List Place :=
  (solved.map fun item => item.2.canonicalGraph).flatMap fun graph =>
    (componentClass solved graph).zipIdx.flatMap fun (item, ordinal) =>
      (List.range item.2.order.length).map fun index => ⟨graph, ordinal, index⟩

/-- The ontology key and the canonicalized components of a document. -/
def solveBlanks (limits : ParseLimits) (input : DocumentInput) :
    Except Error (Bytes × List SolvedComponent) := do
  let components ← partitionBlankGraph hash limits input.roots
  let solved ← canonicalizeBlankComponents hash limits components
  let key ← ontologyKey input.ontologyId
  .ok (key, solved)

def solvedScope (key : Bytes) (solved : List SolvedComponent) : Scope := hash.scope (scopePreimage key solved)

/-- What is hashed for the scope, the component classes and the local keys of a document. -/
def freezePreimages (limits : ParseLimits) (input : DocumentInput) : List Bytes :=
  match solveBlanks hash limits input with
  | .error _ => []
  | .ok (key, solved) =>
    scopePreimage key solved :: (places solved).flatMap fun place =>
      [classPreimage place.graph, keyPreimage hash (solvedScope hash key solved) place]

variable {hash}

theorem PlacedAt.mem_places (h : PlacedAt solved l place) : place ∈ places solved := by
  obtain ⟨item, hclass, horder⟩ := h
  obtain ⟨hitem, hgraph⟩ := mem_componentClass.mp (mem_of_getElem? hclass)
  simp only [places, mem_flatMap, mem_map, Prod.exists, mem_zipIdx_iff_getElem?, mem_range]
  refine ⟨place.graph, ⟨item.1, item.2, hitem, hgraph⟩, item.1, item.2, place.ordinal, hclass, place.index, ?_, rfl⟩
  exact (List.getElem?_eq_some_iff.mp horder).1

theorem place_eq_of_individual {preimages : List Bytes} (hhash : ∀ x ∈ preimages, ∀ y ∈ preimages, hash.digest x =
    hash.digest y → x = y) (hmem : classPreimage place.graph ∈ preimages ∧ keyPreimage hash scope place ∈ preimages)
    (hmem' : classPreimage place'.graph ∈ preimages ∧ keyPreimage hash scope place' ∈ preimages) (h : place.individual
    hash scope = place'.individual hash scope) : place = place' := by
  have hkeys : keyPreimage hash scope place = keyPreimage hash scope place' :=
    hhash _ hmem.2 _ hmem'.2 (congrArg AnonymousIndividual.localKey h)
  simp only [keyPreimage, append_assoc, append_cancel_left_eq] at hkeys
  obtain ⟨hclass, hrest⟩ := append_inj_of_length (by simp [hash.length_digest]) hkeys
  obtain ⟨hordinal, hrest⟩ := Varint.encode_append_inj _ _ _ _ hrest
  have hindex : place.index = place'.index := (Varint.encode_append_inj _ _ [] [] (by simpa using hrest)).1
  have hgraph : place.graph = place'.graph := by
    have hpreimage := hhash _ hmem.1 _ hmem'.1 hclass
    exact Varint.frame_injective (append_cancel_left hpreimage)
  cases place
  cases place'
  simp_all

end

section

variable {hash : Hash} {limits : ParseLimits} {input : DocumentInput} {frozen : FrozenDocument}

def Node.HasLabel (n : Node) (hash : Hash) (label : String) : Prop :=
  ∃ a ∈ n.anonymousValues, provisionalLabel hash a = .ok (some label)

def DocumentInput.HasLabel (input : DocumentInput) (hash : Hash) (label : String) : Prop :=
  ∃ r ∈ input.roots, r.HasLabel hash label

@[simp] theorem DocumentInput.mem_roots : r ∈ input.roots ↔
    r ∈ input.ontologyAnnotations ∨ r ∈ input.axioms ∨ r ∈ input.extensionComponents := by
  simp [DocumentInput.roots]

/-- What a successful freeze has done: `arcs` are the arcs of the roots, `solved` the canonicalized
components, and `σ` the individuals of the labels. -/
structure Freezes (hash : Hash) (limits : ParseLimits) (input : DocumentInput) (frozen : FrozenDocument)
    (arcs : List (BlankNodeArc String)) (solved : List SolvedComponent)
    (σ : String → AnonymousIndividual) : Prop where
  imports : canonicalSetOf input.directImports = .ok frozen.directImports
  arcs_eq : ∃ datas, input.roots.mapM (rootData hash) = .ok datas ∧ arcs = datas.flatMap Prod.snd
  terms : blankTerms arcs ≤ limits.maxTerms
  solves : Solves arcs solved
  canonicalized : ∀ item ∈ solved, alphaCanonicalizeBlankNodes hash limits item.1.arcs
    (provisionalScope hash) item.1.labels = .ok item.2
  individuals : solved ≠ [] → ∃ key, ontologyKey input.ontologyId = .ok key ∧
    solveBlanks hash limits input = .ok (key, solved) ∧
    ∀ l place, PlacedAt solved l place → σ l = place.individual hash (solvedScope hash key solved)
  annotations : Replaces hash σ input.ontologyAnnotations frozen.ontologyAnnotations
  axioms : Replaces hash σ input.axioms frozen.axioms
  extensions : Replaces hash σ input.extensionComponents frozen.extensionComponents

theorem rootData_labels (hn : n.Canonical) (h : rootData hash n = .ok data) :
    (∀ a ∈ n.anonymousValues, ∃ label?, provisionalLabel hash a = .ok label?) ∧ ∀ label,
      (∃ arc ∈ data.2, label ∈ arc.ends) ↔ n.HasLabel hash label := by
  have hshape := rootShape_of_rootData h
  obtain ⟨payload, -, h⟩ := bind_eq_ok.mp h
  obtain ⟨occurrences, hoccurrences, h⟩ := bind_eq_ok.mp h
  obtain ⟨arcs, -, h⟩ := bind_eq_ok.mp h
  obtain rfl := Except.ok.inj h
  have hfinds := blankOccurrences_ok hn hoccurrences
  refine ⟨hfinds.readable, fun label => ?_⟩
  rw [← hshape.mem_labels, mem_ofList_id, hfinds.mem_iff]
  rfl

theorem mem_ends_iff_hasLabel (hroots : ∀ r ∈ input.roots, r.Canonical) (h : input.roots.mapM (rootData hash) = .ok
    datas) (label : String) :
    (∃ arc ∈ datas.flatMap Prod.snd, label ∈ arc.ends) ↔ input.HasLabel hash label := by
  constructor
  · rintro ⟨arc, harc, hlabel⟩
    obtain ⟨data, hdata, harc⟩ := mem_flatMap.mp harc
    obtain ⟨r, hr, hroot⟩ := exists_of_mem_mapM h hdata
    obtain ⟨a, ha, hread⟩ := ((rootData_labels (hroots r hr) hroot).2 label).mp ⟨arc, harc, hlabel⟩
    exact ⟨r, hr, a, ha, hread⟩
  · rintro ⟨r, hr, a, ha, hread⟩
    obtain ⟨data, hdata, hroot⟩ := exists_of_mem_left h hr
    obtain ⟨arc, harc, hlabel⟩ := ((rootData_labels (hroots r hr) hroot).2 label).mpr ⟨a, ha, hread⟩
    exact ⟨arc, mem_flatMap.mpr ⟨data, hdata, harc⟩, hlabel⟩

theorem readable_of_rootData (hroots : ∀ r ∈ input.roots, r.Canonical) (h : input.roots.mapM (rootData hash) = .ok
    datas) :
    ∀ r ∈ input.roots, ∀ a ∈ r.anonymousValues, ∃ label?, provisionalLabel hash a = .ok label? := by
  intro r hr a ha
  obtain ⟨data, -, hroot⟩ := exists_of_mem_left h hr
  exact (rootData_labels (hroots r hr) hroot).1 a ha

/-- A label that the bindings hold is replaced by its individual; other individuals stay. -/
theorem replaceBlank_eq (hread : ∃ label?, provisionalLabel hash a = .ok label?) (hbound : ∀ label, provisionalLabel
    hash a = .ok (some label) → lookupBinding bindings label = some (σ label)) :
    replaceBlank hash bindings a = .ok (renameBlank hash σ a) := by
  obtain ⟨label?, hlabel⟩ := hread
  cases label? with
  | none =>
    rw [renameBlank_of_none hash σ hlabel, replaceBlank, hlabel]
    rfl
  | some label =>
    rw [renameBlank_of_some hash σ hlabel, replaceBlank, hlabel]
    simp only [bind, Except.bind, hbound label hlabel]

/-- A successful freeze renames the labels of the roots to the individuals of their places. -/
theorem freezeDocumentAnonymous_ok (hroots : ∀ r ∈ input.roots, Constructible r)
    (h : freezeDocumentAnonymous hash limits input = .ok frozen) :
    ∃ arcs solved σ, Freezes hash limits input frozen arcs solved σ := by
  have hcanonical : ∀ r ∈ input.roots, r.Canonical := fun r hr => (hroots r hr).canonical
  obtain ⟨imports, himports, h⟩ := bind_eq_ok.mp h
  obtain ⟨components, hcomponents, h⟩ := bind_eq_ok.mp h
  obtain ⟨datas, hdatas, hpartition, hterms⟩ := partitionBlankGraph_ok hcomponents
  have hlabels := mem_ends_iff_hasLabel hcanonical hdatas
  have hreadable := readable_of_rootData hcanonical hdatas
  by_cases hempty : components = []
  · rw [if_pos hempty] at h
    obtain ⟨annotations, hannotations, h⟩ := bind_eq_ok.mp h
    obtain ⟨axioms, haxioms, h⟩ := bind_eq_ok.mp h
    obtain ⟨extensions, hextensions, h⟩ := bind_eq_ok.mp h
    obtain rfl := Except.ok.inj h
    subst hempty
    have hself : ∀ r ∈ input.roots, renameBlanks hash (provisionalAnonymous hash) r = r := by
      intro r hr
      refine mapAnonymous_eq_self (hcanonical r hr) fun a ha => ?_
      obtain ⟨label?, hlabel⟩ := hreadable r hr a ha
      cases label? with
      | none => exact renameBlank_of_none hash _ hlabel
      | some label =>
        obtain ⟨arc, harc, hend⟩ := (hlabels label).mpr ⟨r, hr, a, ha, hlabel⟩
        obtain ⟨c, hc, -⟩ := hpartition.exists_component arc harc label hend
        simp at hc
    have hreplaces : ∀ values result, (∀ n ∈ values, n ∈ input.roots) → canonicalSetOf values = .ok result →
        Replaces hash (provisionalAnonymous hash) values result :=
      fun values result hmem hset => replaces_self (fun n hn => hroots n (hmem n hn))
        (fun n hn => hself n (hmem n hn)) hset
    exact ⟨_, [], _, himports, ⟨datas, hdatas, rfl⟩, hterms, ⟨hpartition, by simp, by simp⟩, by simp,
      by simp, hreplaces _ _ (by simp +contextual) hannotations,
      hreplaces _ _ (by simp +contextual) haxioms, hreplaces _ _ (by simp +contextual) hextensions⟩
  · rw [if_neg hempty] at h
    obtain ⟨solved, hsolved, h⟩ := bind_eq_ok.mp h
    obtain ⟨key, hkey, h⟩ := bind_eq_ok.mp h
    obtain ⟨annotations, hannotations, h⟩ := bind_eq_ok.mp h
    obtain ⟨axioms, haxioms, h⟩ := bind_eq_ok.mp h
    obtain ⟨extensions, hextensions, h⟩ := bind_eq_ok.mp h
    obtain rfl := Except.ok.inj h
    obtain ⟨hcomponentsEq, hsolves, hcanonicalized⟩ := canonicalizeBlankComponents_ok hpartition hsolved
    let bindings := componentBindings hash (solvedScope hash key solved) solved
    let σ : String → AnonymousIndividual := fun l =>
      (lookupBinding bindings l).getD (provisionalAnonymous hash l)
    have hplaced : ∀ l place, PlacedAt solved l place →
        lookupBinding bindings l = some (place.individual hash (solvedScope hash key solved)) :=
      fun l place hplace => lookupBinding_eq hsolves hplace
    have hbound : ∀ r ∈ input.roots, ∀ a ∈ r.anonymousValues,
        replaceBlank hash bindings a = .ok (renameBlank hash σ a) := by
      intro r hr a ha
      refine replaceBlank_eq (hreadable r hr a ha) fun label hlabel => ?_
      obtain ⟨place, hplace⟩ := hsolves.exists_place ((hlabels label).mpr ⟨r, hr, a, ha, hlabel⟩)
      simp only [σ, hplaced label place hplace, Option.getD_some]
    have hreplaces : ∀ values result, (∀ n ∈ values, n ∈ input.roots) →
        replaceBlanks hash bindings values = .ok result → Replaces hash σ values result :=
      fun values result hmem hok => replaceBlanks_ok (fun n hn => hroots n (hmem n hn))
        (fun n hn => hbound n (hmem n hn)) hok
    have hsolve : solveBlanks hash limits input = .ok (key, solved) := by
      simp only [solveBlanks, hcomponents, hsolved, hkey, bind, Except.bind]
    refine ⟨_, solved, σ, himports, ⟨datas, hdatas, rfl⟩, hterms, hsolves, hcanonicalized,
      fun _ => ⟨key, hkey, hsolve, fun l place hplace => ?_⟩,
      hreplaces _ _ (by simp +contextual) hannotations,
      hreplaces _ _ (by simp +contextual) haxioms, hreplaces _ _ (by simp +contextual) hextensions⟩
    simp only [σ, hplaced l place hplace, Option.getD_some]

variable {arcs : List (BlankNodeArc String)} {solved : List SolvedComponent}
  {σ : String → AnonymousIndividual}

section

variable (h : Freezes hash limits input frozen arcs solved σ)

include h

section

variable (hroots : ∀ r ∈ input.roots, r.Canonical)

include hroots

/-- Every label of a frozen document has a place, and its individual is that of the place. -/
theorem Freezes.exists_place (hl : input.HasLabel hash l) :
    ∃ key place, solveBlanks hash limits input = .ok (key, solved) ∧ PlacedAt solved l place ∧
      σ l = place.individual hash (solvedScope hash key solved) := by
  obtain ⟨datas, hdatas, rfl⟩ := h.arcs_eq
  obtain ⟨place, hplace⟩ := h.solves.exists_place ((mem_ends_iff_hasLabel hroots hdatas l).mpr hl)
  have hsome : solved ≠ [] := by
    obtain ⟨item, hitem, -⟩ := hplace.item h.solves
    exact ne_nil_of_mem hitem
  obtain ⟨key, -, hsolve, hindividual⟩ := h.individuals hsome
  exact ⟨key, place, hsolve, hplace, hindividual l place hplace⟩

theorem Freezes.injective (hhash : ∀ x ∈ freezePreimages hash limits input, ∀ y ∈ freezePreimages hash limits input,
      hash.digest x = hash.digest y → x = y)
    {l l' : String} (hl : input.HasLabel hash l) (hl' : input.HasLabel hash l') (heq : σ l = σ l') :
    l = l' := by
  obtain ⟨key, place, hsolve, hplace, hindividual⟩ := h.exists_place hroots hl
  obtain ⟨key', place', hsolve', hplace', hindividual'⟩ := h.exists_place hroots hl'
  obtain rfl : key = key' := by
    have hpair := Except.ok.inj (hsolve.symm.trans hsolve')
    exact congrArg Prod.fst hpair
  have hpreimages : ∀ place ∈ places solved, classPreimage place.graph ∈ freezePreimages hash limits input ∧
      keyPreimage hash (solvedScope hash key solved) place ∈ freezePreimages hash limits input := by
    intro place hplace
    simp only [freezePreimages, hsolve, mem_cons, mem_flatMap]
    exact ⟨.inr ⟨place, hplace, by simp⟩, .inr ⟨place, hplace, by simp⟩⟩
  have hplaces : place = place' := by
    apply place_eq_of_individual hhash (hpreimages place hplace.mem_places)
      (hpreimages place' hplace'.mem_places)
    rw [← hindividual, ← hindividual', heq]
  exact hplace.label_unique (hplaces ▸ hplace')

theorem Freezes.label_none (hr : r ∈ input.roots) (ha : a ∈ (renameBlanks hash σ r).anonymousValues) :
    provisionalLabel hash a = .ok none := by
  obtain ⟨b, hb, rfl⟩ := (mem_anonymousValues_mapAnonymous (hroots r hr)).mp ha
  obtain ⟨datas, hdatas, -⟩ := h.arcs_eq
  obtain ⟨label?, hlabel⟩ := readable_of_rootData hroots hdatas r hr b hb
  cases label? with
  | none =>
    rw [renameBlank_of_none hash σ hlabel]
    exact hlabel
  | some label =>
    obtain ⟨key, place, -, -, hindividual⟩ := h.exists_place hroots ⟨r, hr, b, hb, hlabel⟩
    rw [renameBlank_of_some hash σ hlabel, hindividual]
    exact provisionalLabel_componentIndividual hash _ _ _ _

end

end

/-- An individual that `provisional_anonymous` builds, or one that is not the image of a label. -/
def DocumentInput.Apart (input : DocumentInput) (hash : Hash) (σ : String → AnonymousIndividual)
    (a : AnonymousIndividual) : Prop :=
  (∃ label, a = provisionalAnonymous hash label) ∨
    provisionalLabel hash a = .ok none ∧ ∀ label, input.HasLabel hash label → σ label ≠ a

theorem Freezes.root_unique (h : Freezes hash limits input frozen arcs solved σ) (hroots : ∀ r ∈ input.roots,
    r.Canonical) (hinj : ∀ l l', input.HasLabel hash l → input.HasLabel hash l' → σ l = σ l' → l = l') (hr : r ∈
    input.roots) (hr' : r' ∈ input.roots) (hapart : ∀ a, a ∈ r.anonymousValues ∨ a ∈ r'.anonymousValues → input.Apart
    hash σ a) (heq : renameBlanks hash σ r = renameBlanks hash σ r') : r = r' := by
  apply mapAnonymous_injOn (hroots r hr) (hroots r' hr') _ heq
  have hlabel : ∀ label, provisionalAnonymous hash label ∈ r.anonymousValues ∨
      provisionalAnonymous hash label ∈ r'.anonymousValues → input.HasLabel hash label := by
    rintro label (ha | ha)
    · exact ⟨r, hr, _, ha, provisionalLabel_provisionalAnonymous hash label⟩
    · exact ⟨r', hr', _, ha, provisionalLabel_provisionalAnonymous hash label⟩
  intro a ha b hb hab
  rcases hapart a ha with ⟨l, rfl⟩ | ⟨hnone, hforeign⟩
  · rw [renameBlank_provisionalAnonymous] at hab
    rcases hapart b hb with ⟨l', rfl⟩ | ⟨hnone', hforeign'⟩
    · rw [renameBlank_provisionalAnonymous] at hab
      rw [hinj l l' (hlabel l ha) (hlabel l' hb) hab]
    · rw [renameBlank_of_none hash σ hnone'] at hab
      exact absurd hab (hforeign' l (hlabel l ha))
  · rw [renameBlank_of_none hash σ hnone] at hab
    rcases hapart b hb with ⟨l', rfl⟩ | ⟨hnone', -⟩
    · rw [renameBlank_provisionalAnonymous] at hab
      exact absurd hab.symm (hforeign l' (hlabel l' hb))
    · rwa [renameBlank_of_none hash σ hnone'] at hab

end

def entityNode (kind : EntityKind) (iri : String) : Node :=
  .mk .entity [.enum kind, .node (.mk .iri [.text iri])]

/-- `ClassAssertion(class, individual)`. -/
def classAssertionNode (cls individual : Node) : Node :=
  .mk .classAssertion [.node cls, .node individual, .set []]

def axiomsInput (axioms : List Node) : DocumentInput :=
  ⟨⟨none, none, OntologyID.unnamed_requires⟩, [], [], axioms, []⟩

def twoCopies : DocumentInput :=
  axiomsInput (["a", "b"].map fun label =>
    classAssertionNode (entityNode .class "urn:C") (provisionalAnonymous sha256 label).node)

end OwlCore
