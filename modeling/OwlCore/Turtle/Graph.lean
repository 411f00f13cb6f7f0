import OwlCore.Lib.Simulation
import OwlCore.Turtle.Parser

/-!
# The graph of a Turtle text

The graph of a text keeps written and generated blank nodes apart. Every run of the parser is
followed by a run that builds this graph, and the parsed triples are its triples with labels put
in for the nodes.
-/
namespace OwlCore.Turtle

open Fallible List Simulation

/-- A blank node of a text: written with a label, or made for brackets or a list cell. -/
inductive TextBlank where
  | written (label : String)
  | generated (stem : Stem) (ordinal : Nat)
  deriving DecidableEq, Repr

def TextBlank.label : TextBlank → String
  | .written label => label
  | .generated stem ordinal => stem.text ++ "-" ++ toString ordinal

/-- The blank nodes of `TurtleParser`, with the limit on the set of triples. -/
def labelled (limits : ParseLimits) : Blanks String where
  written := fun label => label
  fresh := fun stem ordinal => stem.text ++ "-" ++ toString ordinal
  permit := fun triples => enforceLimit "max_triples" triples.eraseDups.length limits.maxTriples

def textual : Blanks TextBlank where
  written := .written
  fresh := .generated
  permit := fun _ => .ok ()

section

variable {α β : Type} (f : α → β)

def RDFResource.map : RDFResource α → RDFResource β
  | .iri value => .iri value
  | .blank node => .blank (f node)

def RDFTerm.map : RDFTerm α → RDFTerm β
  | .resource value => .resource (value.map f)
  | .literal lexical datatype language => .literal lexical datatype language

def Triple.map (triple : Triple α) : Triple β where
  subject := triple.subject.map f
  predicate := triple.predicate
  object := triple.object.map f

def ParserState.map (state : ParserState α) : ParserState β where
  tokens := state.tokens
  base := state.base
  prefixes := state.prefixes
  triples := state.triples.map (Triple.map f)
  blankCounter := state.blankCounter
  terms := state.terms

end

/-- The state of the parser beside the state that keeps the nodes apart. -/
def Labels (s : ParserState TextBlank) (t : ParserState String) : Prop := t = s.map TextBlank.label

def Maps {A B : Type} (f : A → B) (a : A) (b : B) : Prop := b = f a

section

variable (limits : ParseLimits) (library : TextLibrary)

theorem follows_lift (x : Except Error α) : Follows Labels Eq (StateT.lift x) (StateT.lift x) :=
  .lift fun b hb => ⟨b, hb, rfl⟩

theorem follows_enforce (limit : String) (observed allowed : Nat) :
    Follows Labels Eq (enforce limit observed allowed) (enforce limit observed allowed) := follows_lift _

theorem follows_peek : Follows Labels Eq peek peek := by
  refine .bind_map .get fun s => ?_
  cases htokens : s.tokens with
  | nil =>
    simp only [ParserState.map, htokens]
    exact .throw
  | cons token rest =>
    simp only [ParserState.map, htokens]
    exact .pure rfl

theorem follows_take : Follows Labels Eq (take limits) (take limits) := by
  refine .bind_eq follows_peek fun token => ?_
  refine .bind (.modify ?_) fun _ _ _ => ?_
  · rintro s _ rfl
    rfl
  · refine .bind_map .get fun s => ?_
    exact .bind_eq (follows_enforce _ _ _) fun _ => .pure rfl

theorem follows_atKind (kind : TokenKind) : Follows Labels Eq (atKind kind) (atKind kind) := by
  exact .bind_eq follows_peek fun _ => .pure rfl

theorem follows_expect (kind : TokenKind) :
    Follows Labels Eq (expect limits library kind) (expect limits library kind) := by
  refine .bind_eq follows_peek fun token => ?_
  exact .ite (fun _ => follows_take limits) fun _ => .throw

theorem follows_resolveIri (value : String) :
    Follows Labels Eq (resolveIri limits library value) (resolveIri limits library value) := by
  refine .bind_map .get fun s => ?_
  refine .bind_eq (follows_lift _) fun result => ?_
  exact .bind_eq (follows_enforce _ _ _) fun _ => .pure rfl

theorem follows_iri : Follows Labels Eq (iri limits library) (iri limits library) := by
  refine .bind_eq (follows_take limits) fun token => ?_
  refine .ite (fun _ => ?_) fun _ => .ite (fun _ => .throw) fun _ => ?_
  · refine .bind_eq (follows_lift _) fun decoded => ?_
    exact follows_resolveIri limits library decoded
  · refine .bind_map .get fun s => ?_
    exact follows_lift _

theorem follows_verb : Follows Labels Eq (verb limits library) (verb limits library) := by
  refine .bind_eq follows_peek fun token => ?_
  refine .ite (fun _ => ?_) fun _ => follows_iri limits library
  exact .bind_eq (follows_take limits) fun _ => .pure rfl

end

section

variable (limits : ParseLimits) (library : TextLibrary)

theorem follows_add (subject : RDFResource TextBlank) (predicate : String) (object : RDFTerm TextBlank) :
    Follows Labels Eq (add textual subject predicate object)
      (add (labelled limits) (subject.map TextBlank.label) predicate (object.map TextBlank.label)) := by
  refine .bind (.modify ?_) fun _ _ _ => ?_
  · rintro s _ rfl
    simp only [Labels, ParserState.map, map_append]
    rfl
  · refine .bind_map .get fun s => ?_
    exact .lift fun _ _ => ⟨(), rfl, rfl⟩

theorem follows_fresh (stem : Stem) : Follows Labels (Maps (RDFResource.map TextBlank.label)) (fresh textual stem)
    (fresh (labelled limits) stem) := by
  refine .bind (.modify ?_) fun _ _ _ => ?_
  · rintro s _ rfl
    rfl
  · exact .bind_map .get fun _ => .pure rfl

theorem follows_freshList (count : Nat) : Follows Labels (Maps (List.map (RDFResource.map TextBlank.label)))
    (freshList textual count) (freshList (labelled limits) count) := by
  induction count with
  | zero => exact .pure rfl
  | succ count ih =>
    refine .bind_map (follows_fresh limits .list) fun node => ?_
    exact .bind_map ih fun _ => .pure rfl

theorem follows_addCells (nodes : List (RDFResource TextBlank)) (values : List (RDFTerm TextBlank)) :
    Follows Labels Eq (addCells textual nodes values) (addCells (labelled limits)
      (nodes.map (RDFResource.map TextBlank.label)) (values.map (RDFTerm.map TextBlank.label))) := by
  induction nodes generalizing values with
  | nil => exact .pure rfl
  | cons node nodes ih =>
    cases values with
    | nil => exact .pure rfl
    | cons value values =>
      have hrest : (nodes.map (RDFResource.map TextBlank.label)).head?.getD (.iri (rdf "nil")) =
          (nodes.head?.getD (.iri (rdf "nil"))).map TextBlank.label := by
        cases nodes <;> rfl
      refine .bind_eq (follows_add limits node (rdf "first") value) fun _ => ?_
      rw [hrest]
      refine .bind_eq (follows_add limits node (rdf "rest") (.resource (nodes.head?.getD (.iri (rdf "nil"))))) fun _ => ?_
      exact ih values

theorem follows_stringLiteral (value : String) : Follows Labels (Maps (RDFTerm.map TextBlank.label))
    (stringLiteral limits library value) (stringLiteral limits library value) := by
  refine .bind_eq (follows_atKind _) fun hasLang => ?_
  refine .ite (fun _ => ?_) fun _ => ?_
  · exact .bind_eq (follows_take limits) fun _ => .pure rfl
  · refine .bind_eq (follows_atKind _) fun hasHat => ?_
    refine .ite (fun _ => ?_) fun _ => .pure rfl
    refine .bind_eq (follows_take limits) fun _ => ?_
    exact .bind_eq (follows_iri limits library) fun _ => .pure rfl

theorem follows_skipSemicolons (fuel : Nat) : Follows Labels Eq (skipSemicolons limits fuel) (skipSemicolons limits fuel) := by
  induction fuel with
  | zero => exact .throw
  | succ fuel ih =>
    refine .bind_eq (follows_atKind _) fun more => ?_
    refine .ite (fun _ => ?_) fun _ => .pure rfl
    refine .bind_eq (follows_take limits) fun _ => ?_
    exact ih

structure GrammarFollows (fuel : Nat) : Prop where
  object : Follows Labels (Maps (RDFTerm.map TextBlank.label)) (object textual limits library fuel)
    (object (labelled limits) limits library fuel)
  blankPropertyList : Follows Labels (Maps (RDFResource.map TextBlank.label))
    (blankPropertyList textual limits library fuel) (blankPropertyList (labelled limits) limits library fuel)
  collection : Follows Labels (Maps (RDFResource.map TextBlank.label)) (collection textual limits library fuel)
    (collection (labelled limits) limits library fuel)
  collectionValues : ∀ values, Follows Labels (Maps (List.map (RDFTerm.map TextBlank.label)))
    (collectionValues textual limits library fuel values)
    (collectionValues (labelled limits) limits library fuel (values.map (RDFTerm.map TextBlank.label)))
  predicateObjectList : ∀ subject terminator, Follows Labels Eq
    (predicateObjectList textual limits library fuel subject terminator)
    (predicateObjectList (labelled limits) limits library fuel (subject.map TextBlank.label) terminator)
  objectList : ∀ subject predicate, Follows Labels Eq (objectList textual limits library fuel subject predicate)
    (objectList (labelled limits) limits library fuel (subject.map TextBlank.label) predicate)

variable {limits library}

section

variable (h : GrammarFollows limits library fuel)

include h

theorem follows_object :
    Follows Labels (Maps (RDFTerm.map TextBlank.label)) (object textual limits library (fuel + 1))
      (object (labelled limits) limits library (fuel + 1)) := by
  rw [object, object]
  refine .bind_eq follows_peek fun token => ?_
  -- one case for each kind of token that starts an object
  refine .ite (fun _ => ?_) fun _ => .ite (fun _ => ?_) fun _ => .ite (fun _ => ?_) fun _ =>
    .ite (fun _ => ?_) fun _ => .ite (fun _ => ?_) fun _ => .ite (fun _ => ?_) fun _ =>
    .ite (fun _ => ?_) fun _ => .throw
  · refine .bind_eq (follows_take limits) fun _ => ?_
    exact follows_stringLiteral limits library token.value
  · exact .bind_eq (follows_take limits) fun _ => .pure rfl
  · exact .bind_eq (follows_take limits) fun _ => .pure rfl
  · exact .bind_eq (follows_take limits) fun _ => .pure rfl
  · exact .bind_eq (follows_iri limits library) fun _ => .pure rfl
  · exact .bind_map h.blankPropertyList fun _ => .pure rfl
  · exact .bind_map h.collection fun _ => .pure rfl

theorem follows_blankPropertyList :
    Follows Labels (Maps (RDFResource.map TextBlank.label)) (blankPropertyList textual limits library (fuel + 1))
      (blankPropertyList (labelled limits) limits library (fuel + 1)) := by
  rw [blankPropertyList, blankPropertyList]
  refine .bind_eq (follows_expect limits library _) fun _ => ?_
  refine .bind_map (follows_fresh limits .anon) fun node => ?_
  refine .bind_eq (follows_atKind _) fun closed => ?_
  have hclose : Follows Labels (Maps (RDFResource.map TextBlank.label))
      (expect limits library (.punctuation ']') >>= fun _ => pure node)
      (expect limits library (.punctuation ']') >>= fun _ => pure (node.map TextBlank.label)) := by
    exact .bind_eq (follows_expect limits library _) fun _ => .pure rfl
  refine .ite (fun _ => hclose) fun _ => ?_
  refine .bind_eq (h.predicateObjectList node _) fun _ => ?_
  exact hclose

theorem follows_collection :
    Follows Labels (Maps (RDFResource.map TextBlank.label)) (collection textual limits library (fuel + 1))
      (collection (labelled limits) limits library (fuel + 1)) := by
  rw [collection, collection]
  refine .bind_eq (follows_expect limits library _) fun _ => ?_
  refine .bind_map (h.collectionValues []) fun values => ?_
  refine .bind_eq (follows_expect limits library _) fun _ => ?_
  by_cases hvalues : values = []
  · rw [if_pos hvalues, if_pos (by rw [hvalues]; rfl)]
    exact .pure rfl
  · rw [if_neg hvalues, if_neg (by simpa using hvalues), length_map]
    refine .bind_map (follows_freshList limits values.length) fun nodes => ?_
    refine .bind_eq (follows_addCells limits nodes values) fun _ => ?_
    refine .pure ?_
    cases nodes <;> rfl

theorem follows_collectionValues (values : List (RDFTerm TextBlank)) :
    Follows Labels (Maps (List.map (RDFTerm.map TextBlank.label)))
      (collectionValues textual limits library (fuel + 1) values)
      (collectionValues (labelled limits) limits library (fuel + 1) (values.map (RDFTerm.map TextBlank.label))) := by
  rw [collectionValues, collectionValues]
  refine .bind_eq (follows_atKind _) fun closed => ?_
  refine .ite (fun _ => .pure rfl) fun _ => ?_
  refine .bind_map h.object fun value => ?_
  rw [length_map]
  refine .bind_eq (follows_enforce _ _ _) fun _ => ?_
  have hnext := h.collectionValues (values ++ [value])
  rwa [map_append] at hnext

theorem follows_predicateObjectList (subject : RDFResource TextBlank)
    (terminator : TokenKind) : Follows Labels Eq
      (predicateObjectList textual limits library (fuel + 1) subject terminator)
      (predicateObjectList (labelled limits) limits library (fuel + 1) (subject.map TextBlank.label)
        terminator) := by
  rw [predicateObjectList, predicateObjectList]
  refine .bind_eq (follows_verb limits library) fun predicate => ?_
  refine .bind_eq (h.objectList subject predicate) fun _ => ?_
  refine .bind_eq (follows_atKind _) fun more => ?_
  refine .ite (fun _ => ?_) fun _ => .pure rfl
  refine .bind_eq (follows_skipSemicolons limits fuel) fun _ => ?_
  refine .bind_eq follows_peek fun token => ?_
  exact .ite (fun _ => .pure rfl) fun _ => h.predicateObjectList subject terminator

theorem follows_objectList (subject : RDFResource TextBlank) (predicate :
    String) : Follows Labels Eq
      (objectList textual limits library (fuel + 1) subject predicate)
      (objectList (labelled limits) limits library (fuel + 1) (subject.map TextBlank.label) predicate) := by
  rw [objectList, objectList]
  refine .bind_map h.object fun value => ?_
  refine .bind_eq (follows_add limits subject predicate value) fun _ => ?_
  refine .bind_eq (follows_atKind _) fun more => ?_
  refine .ite (fun _ => ?_) fun _ => .pure rfl
  refine .bind_eq (follows_take limits) fun _ => ?_
  exact h.objectList subject predicate

end

theorem grammarFollows (fuel : Nat) : GrammarFollows limits library fuel := by
  induction fuel with
  | zero => exact ⟨.throw, .throw, .throw, fun _ => .throw, fun _ _ => .throw, fun _ _ => .throw⟩
  | succ fuel ih =>
    exact ⟨follows_object ih, follows_blankPropertyList ih, follows_collection ih, follows_collectionValues ih,
      follows_predicateObjectList ih, follows_objectList ih⟩

theorem follows_subject (fuel : Nat) : Follows Labels (Maps (RDFResource.map TextBlank.label))
    (subject textual limits library fuel) (subject (labelled limits) limits library fuel) := by
  refine .bind_eq follows_peek fun token => ?_
  refine .ite (fun _ => ?_) fun _ => .ite (fun _ => ?_) fun _ =>
    .ite (fun _ => (grammarFollows fuel).blankPropertyList) fun _ =>
    .ite (fun _ => (grammarFollows fuel).collection) fun _ => .throw
  · exact .bind_eq (follows_take limits) fun _ => .pure rfl
  · exact .bind_eq (follows_iri limits library) fun _ => .pure rfl

theorem follows_prefixDirective : Follows Labels Eq (prefixDirective limits library) (prefixDirective limits library) := by
  refine .bind_eq (follows_expect limits library _) fun name => ?_
  refine .ite (fun _ => ?_) fun _ => .throw
  refine .bind_eq (follows_expect limits library _) fun token => ?_
  refine .bind_eq (follows_lift _) fun decoded => ?_
  refine .bind_eq (follows_resolveIri limits library decoded) fun resolved => ?_
  refine .bind (.modify ?_) fun _ _ _ => ?_
  · rintro s _ rfl
    rfl
  · refine .bind_map .get fun s => ?_
    exact follows_enforce _ _ _

theorem follows_baseDirective : Follows Labels Eq (baseDirective limits library) (baseDirective limits library) := by
  refine .bind_eq (follows_expect limits library _) fun token => ?_
  refine .bind_eq (follows_lift _) fun decoded => ?_
  refine .bind_eq (follows_resolveIri limits library decoded) fun resolved => ?_
  refine (Follows.modify ?_).imp fun _ _ _ => rfl
  rintro s _ rfl
  rfl

theorem follows_parseDirective : Follows Labels Eq (parseDirective limits library) (parseDirective limits library) := by
  refine .bind_eq (follows_take limits) fun token => ?_
  have hbody : ∀ value, Follows Labels Eq (directiveBody limits library token value)
      (directiveBody limits library token value) := by
    intro value
    exact .ite (fun _ => follows_prefixDirective) fun _ => .ite (fun _ => follows_baseDirective) fun _ => .throw
  refine .bind_eq (hbody _) fun _ => ?_
  refine .ite (fun _ => ?_) fun _ => .pure rfl
  exact .bind_eq (follows_expect limits library _) fun _ => .pure rfl

theorem follows_statements (limits : ParseLimits) (library : TextLibrary) (fuel : Nat) : Follows Labels Eq (statements textual limits library fuel)
    (statements (labelled limits) limits library fuel) := by
  induction fuel with
  | zero => exact .throw
  | succ fuel ih =>
    refine .bind_eq follows_peek fun token => ?_
    refine .ite (fun _ => .pure rfl) fun _ => .ite (fun _ => ?_) fun _ => ?_
    · refine .bind_eq follows_parseDirective fun _ => ?_
      exact ih
    · refine .bind_map (follows_subject fuel) fun node => ?_
      refine .bind_eq ((grammarFollows fuel).predicateObjectList node _) fun _ => ?_
      refine .bind_eq (follows_expect limits library _) fun _ => ?_
      exact ih

theorem exists_textGraph (h : parse (labelled limits) limits library fuel text documentIri = .ok (triples, prefixes)) :
    ∃ graph, parse textual limits library fuel text documentIri = .ok (graph, prefixes) ∧
      triples = graph.map (Triple.map TextBlank.label) := by
  obtain ⟨⟨tokens, terms⟩, htokens, h⟩ := bind_eq_ok.mp h
  obtain ⟨⟨done, final⟩, hrun, h⟩ := bind_eq_ok.mp h
  obtain ⟨_, -, h⟩ := bind_eq_ok.mp h
  obtain ⟨rfl, rfl⟩ := Prod.mk.inj (Except.ok.inj h)
  obtain ⟨done', final', hrun', -, rfl⟩ := follows_statements limits library fuel
    { tokens, base := documentIri, prefixes := [], triples := [], blankCounter := 0, terms } _ rfl _ _ hrun
  refine ⟨final'.triples, ?_, rfl⟩
  refine bind_eq_ok.mpr ⟨(tokens, terms), htokens, ?_⟩
  refine bind_eq_ok.mpr ⟨(done', final'), hrun', ?_⟩
  exact bind_eq_ok.mpr ⟨(), rfl, rfl⟩

end

section

variable {limits : ParseLimits} {library : TextLibrary} {fuel : Nat} {text : String} {documentIri : Option String}
  {triples : List (Triple String)} {prefixes : List (String × String)}

def RDFResource.blanks {β : Type} : RDFResource β → List β
  | .iri _ => []
  | .blank node => [node]

def RDFTerm.blanks {β : Type} : RDFTerm β → List β
  | .resource value => value.blanks
  | .literal _ _ _ => []

def blankNodes {β : Type} (graph : List (Triple β)) : List β :=
  graph.flatMap fun triple => triple.subject.blanks ++ triple.object.blanks

/-- Different blank nodes of the text have different labels. -/
def KeepsApart (graph : List (Triple TextBlank)) : Prop :=
  ∀ a ∈ blankNodes graph, ∀ b ∈ blankNodes graph, a.label = b.label → a = b

/-- No label that the text writes is the label of a node generated for it. -/
def NoCapture (graph : List (Triple TextBlank)) : Prop :=
  ∀ label, .written label ∈ blankNodes graph → ∀ stem ordinal, .generated stem ordinal ∈ blankNodes graph →
    label ≠ stem.text ++ "-" ++ toString ordinal

theorem toList_toString_injective {n n' : Nat} (h : (toString n).toList = (toString n').toList) : n = n' := by
  have hdigits : ∀ n : Nat, (toString n).toList = Nat.toDigits 10 n := by
    intro n
    change n.repr.toList = _
    rw [Nat.repr_eq_ofList_toDigits, String.toList_ofList]
  have hvalue := congrArg (Nat.ofDigitChars 10 · 0) h
  simpa only [hdigits, Nat.ofDigitChars_toDigits (b := 10) (by decide) (by decide)] using hvalue

theorem generated_label_injective {stem stem' : Stem} {ordinal ordinal' : Nat}
    (h : (TextBlank.generated stem ordinal).label = (TextBlank.generated stem' ordinal').label) :
    stem = stem' ∧ ordinal = ordinal' := by
  have hlist : stem.text.toList ++ ('-' :: (toString ordinal).toList) =
      stem'.text.toList ++ ('-' :: (toString ordinal').toList) := by
    have happend := congrArg String.toList h
    simpa [TextBlank.label] using happend
  have hlength : stem.text.toList.length = stem'.text.toList.length := by
    cases stem <;> cases stem' <;> rfl
  obtain ⟨hstem, hordinal⟩ := append_inj hlist hlength
  have hstem' : stem = stem' := by
    cases stem <;> cases stem' <;> first | rfl | (revert hstem; decide)
  exact ⟨hstem', toList_toString_injective (List.cons.inj hordinal).2⟩

theorem keepsApart_iff_noCapture (graph : List (Triple TextBlank)) : KeepsApart graph ↔ NoCapture graph := by
  constructor
  · intro h label hlabel stem ordinal hgenerated heq
    cases h _ hlabel _ hgenerated heq
  · intro h a ha b hb heq
    cases a with
    | written label =>
      cases b with
      | written label' => exact congrArg _ heq
      | generated stem ordinal => exact absurd heq (h label ha stem ordinal hb)
    | generated stem ordinal =>
      cases b with
      | written label => exact absurd heq.symm (h label hb stem ordinal ha)
      | generated stem' ordinal' =>
        obtain ⟨rfl, rfl⟩ := generated_label_injective heq
        rfl

/-- What the parser returns for a text is the graph of the text under the labels of its nodes, and
these labels keep the nodes apart exactly if no written label is a generated one. -/
theorem parse_keepsApart_iff (h : parse (labelled limits) limits library fuel text documentIri = .ok (triples, prefixes)) :
    ∃ graph, parse textual limits library fuel text documentIri = .ok (graph, prefixes) ∧
      triples = graph.map (Triple.map TextBlank.label) ∧ (KeepsApart graph ↔ NoCapture graph) := by
  obtain ⟨graph, hgraph, htriples⟩ := exists_textGraph h
  exact ⟨graph, hgraph, htriples, keepsApart_iff_noCapture graph⟩

end

/-- Functions of the interpreter for texts without relative IRIs. -/
def plainLibrary : TextLibrary := ⟨fun _ value => value, fun value => value⟩

/-- A written individual of one class and an individual in brackets of another one. -/
def twoIndividuals : String :=
  "<urn:C> a <http://www.w3.org/2002/07/owl#Class> . <urn:D> a <http://www.w3.org/2002/07/owl#Class> . " ++
    "_:anon-1 a <urn:C> . [] a <urn:D> ."

theorem blankNodes_twoIndividuals :
    ((parse (labelled defaultLimits) defaultLimits plainLibrary 40 twoIndividuals none).toOption.map fun result =>
      blankNodes result.1) = some ["anon-1", "anon-1"] ∧
    ((parse textual defaultLimits plainLibrary 40 twoIndividuals none).toOption.map fun result =>
      blankNodes result.1) = some [.written "anon-1", .generated .anon 1] := by
  decide +kernel

/-- Both individuals become one blank node. -/
theorem parse_twoIndividuals : ∃ triples graph prefixes,
    parse (labelled defaultLimits) defaultLimits plainLibrary 40 twoIndividuals none = .ok (triples, prefixes) ∧
    parse textual defaultLimits plainLibrary 40 twoIndividuals none = .ok (graph, prefixes) ∧
    blankNodes triples = ["anon-1", "anon-1"] ∧
    blankNodes graph = [.written "anon-1", .generated .anon 1] ∧ ¬KeepsApart graph := by
  obtain ⟨hlabelled, htextual⟩ := blankNodes_twoIndividuals
  obtain ⟨⟨triples, prefixes⟩, htriples⟩ := exists_of_isOk
    (x := parse (labelled defaultLimits) defaultLimits plainLibrary 40 twoIndividuals none) (by decide +kernel)
  obtain ⟨graph, hgraph, -⟩ := exists_textGraph htriples
  rw [htriples] at hlabelled
  rw [hgraph] at htextual
  have hnodes : blankNodes graph = [.written "anon-1", .generated .anon 1] := Option.some.inj htextual
  refine ⟨triples, graph, prefixes, htriples, hgraph, Option.some.inj hlabelled, hnodes, ?_⟩
  intro h
  have heq := h (.written "anon-1") (by simp [hnodes]) (.generated .anon 1) (by simp [hnodes]) rfl
  cases heq

/-- A text with a list and a written node under another label. -/
theorem parse_keepsApart_list : ∃ triples prefixes,
    parse (labelled defaultLimits) defaultLimits plainLibrary 40 "_:x a ( [] ) ." none = .ok (triples, prefixes) ∧
    ∃ graph, triples = graph.map (Triple.map TextBlank.label) ∧ (KeepsApart graph ↔ NoCapture graph) := by
  obtain ⟨⟨triples, prefixes⟩, htriples⟩ := exists_of_isOk
    (x := parse (labelled defaultLimits) defaultLimits plainLibrary 40 "_:x a ( [] ) ." none) (by decide +kernel)
  obtain ⟨graph, -, hmap, hiff⟩ := parse_keepsApart_iff htriples
  exact ⟨triples, prefixes, htriples, graph, hmap, hiff⟩

end OwlCore.Turtle
