import OwlCore.Format.OwlXmlValues
import OwlCore.View.Fingerprint

/-!
# OWL/XML round trip

The parser takes out of a tree what the writer put in, for documents within its budgets. It
strips the text of an IRI element or an import: an IRI that begins or ends with a space outside
ASCII is not read back.
-/
namespace OwlCore

open Fallible List Schema

namespace OwlXml

section

variable (hash : Hash) (interpreter : Interpreter) (limits : ParseLimits)

/-- What `OntologyDocument` checks of its parts. -/
structure Typed (document : OntologyDocument) : Prop where
  identity : ∀ iri, document.ontologyId.ontologyIri = some iri ∨ document.ontologyId.versionIri = some iri →
    Constructible iri ∧ iri.constructor = .iri
  imports : ∀ iri ∈ document.directImports, Constructible iri ∧ iri.constructor = .iri
  annotations : ∀ a ∈ document.ontologyAnnotations, a.constructor = .annotationNode
  axioms : ∀ a ∈ document.axioms, a.constructor ∈ axiomTypes

/-- No two anonymous individuals of the document share a local key. -/
def DistinctKeys (document : OntologyDocument) : Prop :=
  ∀ a ∈ document.individuals, ∀ b ∈ document.individuals, a.localKey = b.localKey → a = b

/-- The document keeps to the parser's budgets, and its texts survive the parser. -/
structure Fits (document : OntologyDocument) : Prop where
  extensions : document.extensionComponents = []
  roots : ∀ r ∈ document.roots, r.Everywhere (Legible limits)
  imports : ∀ text, .mk .iri [.text text] ∈ document.directImports → strip text = text
  axioms : document.axioms.length ≤ limits.maxAxioms
  encodable : ∀ r ∈ document.roots, (r.mapAnonymous (renamed hash)).SetsEncodable

/-- The parser takes the document out of the tree that the writer builds for it, with the
individuals renamed as their node ids say. -/
def RoundTrips (document : OntologyDocument) : Prop :=
  ∃ tree parsed, renderOwlxml document = .ok tree ∧ parse hash interpreter limits tree = .ok parsed ∧
    parsed.input = ⟨document.ontologyId, document.directImports,
      document.ontologyAnnotations.map (Node.mapAnonymous (renamed hash)),
      document.axioms.map (Node.mapAnonymous (renamed hash)),
      document.extensionComponents.map (Node.mapAnonymous (renamed hash))⟩

variable {hash interpreter limits} {document : OntologyDocument}

theorem renamed_injOn (h : DistinctKeys document) (hn : n ∈ document.roots) :
    Set.InjOn (renamed hash) {a | a ∈ n.anonymousValues} := by
  intro a ha b hb heq
  have hkeys : a.localKey = b.localKey := append_hexdigest_inj.mp (provisionalAnonymous_injective hash heq)
  exact h a (mem_flatMap.mpr ⟨n, hn, ha⟩) b (mem_flatMap.mpr ⟨n, hn, hb⟩) hkeys

theorem Fits.ready (h : Fits hash limits document) (hkeys : DistinctKeys document) (hn : n ∈ document.roots) : Ready hash limits n :=
  ⟨document.constructible n hn, h.roots n hn, renamed_injOn hkeys hn, h.encodable n hn⟩

theorem axiomForm_isSome (h : c ∈ axiomTypes) :
    (axiomForm c).isSome ∧ c.name ∉ ["Prefix", "Import", "Annotation"] := by
  have hall : axiomTypes.all fun c => (axiomForm c).isSome && decide (c.name ∉ ["Prefix", "Import", "Annotation"]) := by
    decide +kernel
  simpa using all_eq_true.mp hall c h

/-- What the axioms of a document need to be read back by the loop. -/
def ReadsAxiom (hash : Hash) (interpreter : Interpreter) (limits : ParseLimits) (k : Node) (element : Element) : Prop :=
  name element = .ok k.className ∧ k.className ∉ ["Prefix", "Import", "Annotation"] ∧
    axiomNode interpreter limits element
      (readings hash interpreter limits initialState.prefixes element.children) = .ok (k.mapAnonymous (renamed hash))

variable (hash interpreter limits) in
theorem parse_imports (s : State) (h : ∀ iri ∈ imports, Constructible iri ∧ iri.constructor = .iri) (hstrip : ∀ text,
    .mk .iri [.text text] ∈ imports → strip text = text) :
    (indentAll 1 (imports.map importElement)).foldlM (parseChild hash interpreter limits) s =
      .ok { s with imports := s.imports ++ imports } := by
  induction imports generalizing s with
  | nil => simp [indentAll, pure, Except.pure]
  | cons iri imports ih =>
    obtain ⟨text, rfl⟩ := (h iri (by simp)).1.exists_text (h iri (by simp)).2
    have hname : name (.mk (owlTag "Import") [] (some text) []) = .ok "Import" :=
      name_of_tag (by decide +kernel) rfl
    have hleaf : indent 1 (importElement (.mk .iri [.text text])) = .mk (owlTag "Import") [] (some text) [] := by
      simp [importElement, indent, indentAll, iriText, fieldText]
    have htext : strip ((Element.mk (owlTag "Import") [] (some text) []).text.getD "") = text :=
      hstrip text (by simp)
    have hstep : parseChild hash interpreter limits s (.mk (owlTag "Import") [] (some text) []) =
        .ok { s with imports := s.imports ++ [.mk .iri [.text text]] } := by
      have hmade := construct_iriText (h (.mk .iri [.text text]) (by simp)).1
      rw [parseChild, hname]
      simp only [bind, Except.bind, htext, hmade]
      rfl
    rw [map_cons, indentAll, hleaf, foldlM_cons, hstep]
    refine (ih _ (fun iri hiri => h iri (by simp [hiri])) fun text hmem => hstrip text (by simp [hmem])).trans ?_
    simp

theorem parse_annotations (s : State) (hprefixes : s.prefixes = initialState.prefixes) (hks : ∀ k ∈ ks, k.isInstance
    [annotationClass]) (h : Forall₂ (fun k element => Child.Reads (renamed hash) k ⟨element, reading hash interpreter
    limits initialState.prefixes element⟩) ks elements) :
    ∃ occurrences, elements.foldlM (parseChild hash interpreter limits) s =
      .ok { s with annotations := s.annotations ++ ks.map (Node.mapAnonymous (renamed hash)), occurrences } := by
  induction h generalizing s with
  | nil => exact ⟨s.occurrences, by simp [pure, Except.pure]⟩
  | @cons k element ks elements hk _ ih =>
    have hinst := hks k (by simp)
    have hstep : parseChild hash interpreter limits s element = .ok { s with
        annotations := s.annotations ++ [k.mapAnonymous (renamed hash)]
        occurrences := s.occurrences ++ [(k.mapAnonymous (renamed hash), none)] } := by
      have hread : reading hash interpreter limits initialState.prefixes element .annotationElement =
          .ok (k.mapAnonymous (renamed hash)) := hk.read .annotationElement hinst
      rw [parseChild, hk.named, className_annotation hinst, hprefixes]
      simp only [bind, Except.bind, hread]
      rfl
    obtain ⟨occurrences, hrest⟩ := ih { s with
      annotations := s.annotations ++ [k.mapAnonymous (renamed hash)]
      occurrences := s.occurrences ++ [(k.mapAnonymous (renamed hash), none)] } hprefixes
      fun k hk => hks k (by simp [hk])
    refine ⟨occurrences, ?_⟩
    rw [foldlM_cons, hstep]
    refine hrest.trans ?_
    simp

theorem parse_axioms (s : State) (hprefixes : s.prefixes = initialState.prefixes) (hcount : s.axioms.length +
    ks.length ≤ limits.maxAxioms) (h : Forall₂ (ReadsAxiom hash interpreter limits) ks elements) :
    ∃ occurrences, elements.foldlM (parseChild hash interpreter limits) s =
      .ok { s with axioms := s.axioms ++ ks.map (Node.mapAnonymous (renamed hash)), occurrences } := by
  induction h generalizing s with
  | nil => exact ⟨s.occurrences, by simp [pure, Except.pure]⟩
  | @cons k element ks elements hk _ ih =>
    obtain ⟨hname, hnames, hread⟩ := hk
    simp only [mem_cons, not_mem_nil, or_false, not_or] at hnames
    rw [length_cons] at hcount
    have henforce : enforce "max_axioms" (s.axioms.length + 1) limits.maxAxioms = .ok () := if_pos (by omega)
    have hstep : parseChild hash interpreter limits s element = .ok { s with
        axioms := s.axioms ++ [k.mapAnonymous (renamed hash)]
        occurrences := s.occurrences ++ [(k.mapAnonymous (renamed hash), none)] } := by
      rw [parseChild, hname, hprefixes]
      simp only [bind, Except.bind, if_neg hnames.1, if_neg hnames.2.1, if_neg hnames.2.2, hread, henforce]
    obtain ⟨occurrences, hrest⟩ := ih { s with
      axioms := s.axioms ++ [k.mapAnonymous (renamed hash)]
      occurrences := s.occurrences ++ [(k.mapAnonymous (renamed hash), none)] } hprefixes (by simp; omega)
    refine ⟨occurrences, ?_⟩
    rw [foldlM_cons, hstep]
    refine hrest.trans ?_
    simp

theorem indentAll_append (level : Nat) (es es' : List Element) :
    indentAll level (es ++ es') = indentAll level es ++ indentAll level es' := by
  induction es with
  | nil => rfl
  | cons e es ih => rw [cons_append, indentAll, indentAll, ih, cons_append]

variable (interpreter) in
theorem exists_axiom_elements (h : ∀ k ∈ ks, Ready hash limits k) (hks : ∀ k ∈ ks, k.constructor ∈ axiomTypes) :
    ∃ es, ks.mapM xmlNode = .ok es ∧ Forall₂ (ReadsAxiom hash interpreter limits) ks (indentAll 1 es) := by
  induction ks with
  | nil => exact ⟨[], rfl, .nil⟩
  | cons k ks ih =>
    obtain ⟨es, hes, hreads⟩ := ih (fun k hk => h k (by simp [hk])) fun k hk => hks k (by simp [hk])
    obtain ⟨hsome, hnames⟩ := axiomForm_isSome (hks k (by simp))
    obtain ⟨form, hform⟩ := Option.isSome_iff_exists.mp hsome
    obtain ⟨attributes, children, hwritten, hread⟩ := exists_renders_axiom (h k (by simp)) hform
    refine ⟨.mk (owlTag k.className) attributes none children :: es, ?_, ?_⟩
    · rw [mapM_cons, hwritten, hes]
      rfl
    · rw [indentAll]
      refine .cons ⟨name_className (by rw [tag_indent]; rfl), ?_, ?_⟩ hreads
      · rw [className_of_ne_entity fun heq => by rw [heq] at hform; cases hform]
        exact hnames
      · rw [indent]
        exact hread 2 _

theorem optionalAttributeIri_some (h : Constructible iri) (hc : iri.constructor = .iri) (hget : element.get key = some
    (iriText iri)) :
    optionalAttributeIri element key = .ok (some iri) := by
  obtain ⟨text, rfl⟩ := h.exists_text hc
  have htext : iriText (.mk .iri [.text text]) = text := by simp [iriText, fieldText]
  rw [optionalAttributeIri, hget, htext]
  simp [construct_iriText h, Functor.map, Except.map]

theorem optionalAttributeIri_none (hget : element.get key = none) :
    optionalAttributeIri element key = .ok none := by
  rw [optionalAttributeIri, hget]

theorem identity_ok (htyped : Typed document) (tag : String) (text : Option String) (children : List Element) :
    optionalAttributeIri (.mk tag (identityAttribute "ontologyIRI" document.ontologyId.ontologyIri ++
      identityAttribute "versionIRI" document.ontologyId.versionIri) text children) "ontologyIRI" =
        .ok document.ontologyId.ontologyIri ∧
    optionalAttributeIri (.mk tag (identityAttribute "ontologyIRI" document.ontologyId.ontologyIri ++
      identityAttribute "versionIRI" document.ontologyId.versionIri) text children) "versionIRI" =
        .ok document.ontologyId.versionIri := by
  have hidentity := htyped.identity
  cases hontology : document.ontologyId.ontologyIri with
  | none =>
    cases hversion : document.ontologyId.versionIri with
    | none => exact ⟨optionalAttributeIri_none rfl, optionalAttributeIri_none rfl⟩
    | some version => exact absurd hontology (document.ontologyId.version_requires (by simp [hversion]))
  | some iri =>
    obtain ⟨hiri, hc⟩ := hidentity iri (.inl hontology)
    cases hversion : document.ontologyId.versionIri with
    | none => exact ⟨optionalAttributeIri_some hiri hc rfl, optionalAttributeIri_none rfl⟩
    | some version =>
      obtain ⟨hversionIri, hversionC⟩ := hidentity version (.inr hversion)
      exact ⟨optionalAttributeIri_some hiri hc rfl, optionalAttributeIri_some hversionIri hversionC rfl⟩

theorem decimal_toString (n : Nat) : ((toString n).toList.all Char.isDigit && !(toString n).toList.isEmpty) = true ∧
    (Except.ok (Nat.ofDigitChars 10 (toString n).toList 0) : Except Error Nat) = .ok n := by
  have hdigits : (toString n).toList = Nat.toDigits 10 n := by
    rw [Nat.toString_eq_ofList_toDigits, String.toList_ofList]
  rw [hdigits, Nat.ofDigitChars_ten_toDigits]
  have hall : (Nat.toDigits 10 n).all Char.isDigit = true :=
    all_eq_true.mpr fun c hc => Nat.isDigit_of_mem_toDigits (by decide) (by decide) hc
  simp [hall, Nat.toDigits_ne_nil]

def decimalInterpreter : Interpreter where
  isdigit text := text.toList.all Char.isDigit && !text.toList.isEmpty
  int text := .ok (Nat.ofDigitChars 10 text.toList 0)
  repr text := "'" ++ text ++ "'"
  decimal n _ := decimal_toString n

def assertedClass : Node := .mk .entity [.enum .class, .node (.mk .iri [.text "urn:C"])]

def assertedIndividual : Node := .mk .anonymousIndividual [.bytes (List.replicate 32 0), .bytes [1]]

/-- `ClassAssertion` of an anonymous individual. -/
def assertedAxiom : Node := .mk .classAssertion [.node assertedClass, .node assertedIndividual, .set []]

theorem constructible_assertedAxiom : Constructible assertedAxiom :=
  constructible_of_rebuilds (by decide +kernel)

/-- A document that imports one IRI and asserts one axiom. -/
def importing (text : String) : OntologyDocument where
  ontologyId := ⟨none, none, OntologyID.unnamed_requires⟩
  directImports := [.mk .iri [.text text]]
  ontologyAnnotations := []
  axioms := [assertedAxiom]
  extensionComponents := []
  annotations_ascending := Node.ascending_nil
  axioms_ascending := pairwise_singleton _ _
  extensions_ascending := Node.ascending_nil
  constructible r hr := mem_singleton.mp hr ▸ constructible_assertedAxiom

theorem roots_importing (text : String) : (importing text).roots = [assertedAxiom] := rfl

theorem typed_importing (h : construct .iri [.text text] = .ok (.mk .iri [.text text])) :
    Typed (importing text) where
  identity iri hiri := by simp [importing] at hiri
  imports iri hiri := by
    obtain rfl := mem_singleton.mp hiri
    exact ⟨.intro (by simp [Arg.nodes]) h, rfl⟩
  annotations a ha := by simp [importing] at ha
  axioms a ha := by
    obtain rfl := mem_singleton.mp ha
    decide

theorem distinctKeys_importing (text : String) : DistinctKeys (importing text) := by
  have hindividuals : ∀ a ∈ (importing text).individuals, a = ⟨⟨List.replicate 32 0, by simp⟩, [1], by simp⟩ := by
    have hsingle : (importing text).individuals = [⟨⟨List.replicate 32 0, by simp⟩, [1], by simp⟩] := by
      rw [OntologyDocument.individuals, roots_importing]
      decide +kernel
    simp [hsingle]
  intro a ha b hb _
  rw [hindividuals a ha, hindividuals b hb]

/-- A value without numbers, literals and annotations, whose own IRIs are in attributes. -/
theorem legible_simple (hc : n.constructor ≠ .literal) (hintegers : ∀ i, .integer i ∉ n.fields) (hsets : ∀ ms, .set ms
    ∈ n.fields → ms = []) (hiri : n.constructor ≠ .entity → ∀ text, .mk .iri [.text text] ∉ n.children) : Legible limits n where
  plain h := absurd h hc
  ascii h := absurd h hc
  literal h := absurd h hc
  integers i hi := absurd hi (hintegers i)
  annotations ms hms := by
    rw [hsets ms (of_mem_zip hms).2]
    exact Nat.zero_le _
  stripped h text htext := absurd htext (hiri (fun heq => h (by simp [heq])) text)

theorem legible_assertedAxiom : assertedAxiom.Everywhere (Legible limits) := by
  have hiri : Node.Everywhere (Legible limits) (.mk .iri [.text "urn:C"]) :=
    .intro (legible_simple (by simp) (by simp) (by simp) (by simp [Node.children, Value.nodes]))
      (by simp [Node.children, Value.nodes])
  have hclass : assertedClass.Everywhere (Legible limits) := by
    refine .intro (legible_simple (by simp [assertedClass]) (by simp [assertedClass]) (by simp [assertedClass])
      (by simp [assertedClass])) fun m hm => ?_
    obtain rfl : m = .mk .iri [.text "urn:C"] := by simpa [assertedClass, Node.children, Value.nodes] using hm
    exact hiri
  have hindividual : assertedIndividual.Everywhere (Legible limits) :=
    .intro (legible_simple (by simp [assertedIndividual]) (by simp [assertedIndividual]) (by simp [assertedIndividual])
      (by simp [assertedIndividual, Node.children, Value.nodes])) (by simp [assertedIndividual, Node.children, Value.nodes])
  refine .intro (legible_simple (by simp [assertedAxiom]) (by simp [assertedAxiom]) (by simp [assertedAxiom])
    (by simp [assertedAxiom, assertedClass, assertedIndividual, Node.children])) fun m hm => ?_
  have hcases : m = assertedClass ∨ m = assertedIndividual := by simpa [assertedAxiom, Node.children] using hm
  rcases hcases with rfl | rfl
  · exact hclass
  · exact hindividual

theorem encodable_assertedAxiom (hash : Hash) : (assertedAxiom.mapAnonymous (renamed hash)).SetsEncodable := by
  have hclassMade : Constructible assertedClass :=
    constructible_assertedAxiom.child (by simp [assertedAxiom, Node.children])
  have hclass : assertedClass.mapAnonymous (renamed hash) = assertedClass :=
    mapAnonymous_leaf hash hclassMade (by simp [assertedClass])
  obtain ⟨a, ha⟩ := (constructible_assertedAxiom.child (m := assertedIndividual)
    (by simp [assertedAxiom, Node.children])).anonymousIndividual_node rfl
  have himage : assertedAxiom.mapAnonymous (renamed hash) =
      .mk .classAssertion [.node assertedClass, .node (renamed hash a).node, .set []] := by
    rw [Node.mapAnonymous_of_none rfl]
    simp [assertedAxiom, Value.map, Value.rebuild, hclass, ha, Node.mapAnonymous_node]
  rw [himage]
  refine .intro (by simp) fun m hm => ?_
  have hcases : m = assertedClass ∨ m = (renamed hash a).node := by simpa [Node.children] using hm
  rcases hcases with rfl | rfl
  · exact hclassMade.setsEncodable
  · exact .intro (by simp [AnonymousIndividual.node]) (by simp)

theorem fits_importing (hash : Hash) (h : strip text = text) :
    Fits hash defaultLimits (importing text) where
  extensions := rfl
  roots r hr := mem_singleton.mp hr ▸ legible_assertedAxiom
  imports text' htext' := by
    obtain rfl : text' = text := by simpa [importing] using htext'
    exact h
  axioms := (by decide : 1 ≤ defaultLimits.maxAxioms)
  encodable r hr := mem_singleton.mp hr ▸ encodable_assertedAxiom hash

end

end OwlXml

end OwlCore
