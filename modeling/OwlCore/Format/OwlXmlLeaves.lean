import OwlCore.Format.OwlXmlForms

/-!
# Elements and leaves

The writer puts annotations in front of the other fields. An element renders a value when the
writer makes it of the value and every method for its class reads it back, anonymous individuals
renamed to the provisional ones of their node ids. Entities, individuals, literals and IRIs have
no children.
-/
namespace OwlCore

open Fallible List Node Schema

namespace OwlXml

/-- The nested values in the order in which they are written. -/
def renderOrder (n : Node) : List Node :=
  ((namedFields n.constructor n.fields).filter fun f => f.1 = "annotations").flatMap (fun f => f.2.nodes) ++
    ((namedFields n.constructor n.fields).filter fun f => f.1 ≠ "annotations" ∧ f.1 ≠ "cardinality").flatMap
      fun f => f.2.nodes

def Written (v : Value Node) : Prop := (∃ k, v = .node k) ∨ (∃ ms, v = .set ms) ∨ ∃ ms, v = .sequence ms

theorem xmlMembers_map (render : Node → Except Error Element) (h : Written v) :
    xmlMembers (v.map render) = v.nodes.map render := by
  rcases h with ⟨k, rfl⟩ | ⟨ms, rfl⟩ | ⟨ms, rfl⟩ <;> rfl

theorem members_filter (render : Node → Except Error Element) {fields : List (Value Node)} (p : String → Bool) (h : ∀
    f ∈ namedFields c fields, p f.1 = true → Written f.2) :
    ((namedFields c (fields.map (Value.map render))).filter fun f => p f.1).flatMap (fun f => xmlMembers f.2) =
      (((namedFields c fields).filter fun f => p f.1).flatMap fun f => f.2.nodes).map render := by
  have hnamed : namedFields c (fields.map (Value.map render)) =
      (namedFields c fields).map (Prod.map id (Value.map render)) := by
    rw [namedFields, namedFields, zip_map_right]
  rw [hnamed, filter_map, flatMap_map, map_flatMap]
  refine flatMap_congr fun f hf => ?_
  obtain ⟨hf, hp⟩ := mem_filter.mp hf
  exact xmlMembers_map render (h f hf hp)

theorem xmlNode_inner (hnone : n.anonymous? = none) (hc : n.constructor ∉ [Constructor.iri, .entity, .literal,
    .facetRestriction]) (hwritten : ∀ f ∈ namedFields n.constructor n.fields, f.1 ≠ "cardinality" → Written f.2) (hes
    : (renderOrder n).mapM xmlNode = .ok es) :
    xmlNode n = .ok (.mk (owlTag n.className) (cardinalityAttribute n.constructor n.fields) none es) := by
  simp only [mem_cons, not_mem_nil, or_false, not_or] at hc
  rw [xmlNode] at hes ⊢
  rw [para_eq, hnone]
  simp only
  split
  · exact absurd ‹_› hc.2.1
  · exact absurd ‹_› hc.2.2.1
  · exact absurd ‹_› hc.1
  · exact absurd ‹_› hc.2.2.2
  · have hfirst := fun render => members_filter render (fun s => decide (s = "annotations"))
      (fun f hf hp => hwritten f hf fun heq => by simp [heq] at hp)
    have hsecond := fun render => members_filter render (fun s => decide (s ≠ "annotations" ∧ s ≠ "cardinality"))
      (fun f hf hp => hwritten f hf (of_decide_eq_true hp).2)
    beta_reduce at hfirst hsecond
    have hid : ∀ render : Node → Except Error Element, ((renderOrder n).map render).mapM id =
        (renderOrder n).mapM render := fun render => by rw [mapM_map]; rfl
    rw [hfirst, hsecond, ← map_append]
    exact bind_eq_ok.mpr ⟨es, (hid _).trans hes, rfl⟩

theorem flatMap_filter {l : List α} (h : ∀ a ∈ l, p a = false → f a = []) : (l.filter p).flatMap f = l.flatMap f := by
  induction l with
  | nil => rfl
  | cons a l ih =>
    have hrest := ih fun b hb => h b (by simp [hb])
    cases hp : p a with
    | true => rw [filter_cons_of_pos hp, flatMap_cons, flatMap_cons, hrest]
    | false =>
      rw [filter_cons_of_neg (by simp [hp]), flatMap_cons, hrest, h a (by simp) hp, nil_append]

theorem flatMap_zip {names : List String} {fields : List (Value Node)} (h : names.length = fields.length) :
    ((names.zip fields).flatMap fun f => f.2.nodes) = fields.flatMap Value.nodes := by
  have hsnd : (names.zip fields).map Prod.snd = fields := map_snd_zip (by omega)
  conv_rhs => rw [← hsnd, flatMap_map]

theorem renderOrder_plain {n : Node} (hlength : n.fields.length = n.constructor.fieldSpecs.length)
    (hnames : ∀ f ∈ namedFields n.constructor n.fields, f.1 ≠ "annotations" ∧ (f.1 = "cardinality" → f.2.nodes = [])) :
    renderOrder n = n.fields.flatMap Value.nodes := by
  have hnone : (namedFields n.constructor n.fields).filter (fun f => f.1 = "annotations") = [] :=
    filter_eq_nil_iff.mpr fun f hf => by simpa using (hnames f hf).1
  rw [renderOrder, hnone, flatMap_nil, nil_append, flatMap_filter, namedFields, flatMap_zip]
  · rw [length_map, hlength]
  · intro f hf hdropped
    refine (hnames f hf).2 (by_contra fun hcard => ?_)
    exact absurd ⟨(hnames f hf).1, hcard⟩ (of_decide_eq_false hdropped)

theorem renderOrder_annotated {n : Node} (names : List String) (body : List (Value Node)) {as : List Node}
    (hnames : n.constructor.fieldSpecs.map FieldSpec.name = names ++ ["annotations"])
    (hother : ∀ x ∈ names, x ≠ "annotations" ∧ x ≠ "cardinality") (hfields : n.fields = body ++ [.set as])
    (hlength : names.length = body.length) : renderOrder n = as ++ body.flatMap Value.nodes := by
  have hzip : namedFields n.constructor n.fields = names.zip body ++ [("annotations", .set as)] := by
    rw [namedFields, hnames, hfields, zip_append hlength]
    rfl
  have hmem : ∀ f ∈ names.zip body, f.1 ≠ "annotations" ∧ f.1 ≠ "cardinality" :=
    fun f hf => hother f.1 (of_mem_zip hf).1
  have hnone : (names.zip body).filter (fun f => f.1 = "annotations") = [] :=
    filter_eq_nil_iff.mpr fun f hf => by simpa using (hmem f hf).1
  have hall : (names.zip body).filter (fun f => f.1 ≠ "annotations" ∧ f.1 ≠ "cardinality") = names.zip body :=
    filter_eq_self.mpr fun f hf => by simpa using hmem f hf
  rw [renderOrder, hzip, filter_append, filter_append, hnone, hall]
  simp [flatMap_zip hlength]

section

theorem cardinality_iff (c : Constructor) : ∀ spec ∈ c.fieldSpecs,
    (spec.name = "cardinality" ↔ spec.check = .nonnegativeInteger) := by
  have hall : c.fieldSpecs.all fun spec =>
      decide (spec.name = "cardinality" ↔ spec.check = .nonnegativeInteger) := by
    cases c <;> decide +kernel
  exact fun spec hspec => of_decide_eq_true (all_eq_true.mp hall spec hspec)

variable {c : Constructor}

theorem annotated_names (h : (axiomForm c).isSome ∨ c = .annotationNode) :
    ∃ names, c.fieldSpecs.map FieldSpec.name = names ++ ["annotations"] ∧
      ∀ x ∈ names, x ≠ "annotations" ∧ x ≠ "cardinality" := by
  have hall : c.fieldSpecs.map FieldSpec.name = (c.fieldSpecs.map FieldSpec.name).dropLast ++ ["annotations"] ∧
      ((c.fieldSpecs.map FieldSpec.name).dropLast.all fun x => x ≠ "annotations" ∧ x ≠ "cardinality") := by
    cases c <;> first | decide +kernel | simp [axiomForm] at h
  exact ⟨_, hall.1, fun x hx => of_decide_eq_true (all_eq_true.mp hall.2 x hx)⟩

theorem plain_names (h : (classExpressionForm c).isSome ∨ (dataRangeForm c).isSome) :
    ∀ spec ∈ c.fieldSpecs, spec.name ≠ "annotations" := by
  have hall : c.fieldSpecs.all fun spec => spec.name ≠ "annotations" := by
    cases c <;> first | decide +kernel | simp [classExpressionForm, dataRangeForm] at h
  exact fun spec hspec => of_decide_eq_true (all_eq_true.mp hall spec hspec)

theorem exists_spec {fields : List (Value Node)} (h : Forall₂ FieldSound c.fieldSpecs fields) (hf : f ∈ namedFields c
    fields) :
    ∃ spec ∈ c.fieldSpecs, spec.name = f.1 ∧ FieldSound spec f.2 := by
  rw [namedFields] at hf
  generalize c.fieldSpecs = specs at h hf
  induction h with
  | nil => simp at hf
  | @cons spec v specs fields hv _ ih =>
    rw [map_cons, zip_cons_cons, mem_cons] at hf
    rcases hf with rfl | hf
    · exact ⟨spec, by simp, rfl, hv⟩
    · obtain ⟨spec', hmem, hrest⟩ := ih hf
      exact ⟨spec', by simp [hmem], hrest⟩

theorem FieldSound.written (h : FieldSound spec v) (hcheck : spec.check ≠ .nonnegativeInteger) : Written v := by
  have hfits := h.fits
  unfold FieldFits at hfits
  split at hfits
  · exact hfits.elim
  · obtain ⟨k, rfl, -⟩ := hfits
    exact .inl ⟨k, rfl⟩
  · obtain ⟨ms, rfl, -⟩ := hfits
    exact .inr (.inl ⟨ms, rfl⟩)
  · obtain ⟨ms, rfl, -⟩ := hfits
    exact .inr (.inr ⟨ms, rfl⟩)
  · exact absurd ‹_› hcheck
  · obtain ⟨ms, rfl, -⟩ := hfits
    exact .inr (.inl ⟨ms, rfl⟩)

theorem FieldSound.nodes_eq_nil (h : FieldSound spec v) (hcheck : spec.check = .nonnegativeInteger) : v.nodes = [] := by
  have hfits := h.fits
  simp only [FieldFits, hcheck] at hfits
  obtain ⟨i, rfl⟩ := hfits
  rfl

end

theorem lower_eq_nil (h : lower text = []) : text = [] := by
  cases text with
  | nil => rfl
  | cons c text =>
    have hc : lowerChar c = [] := (append_eq_nil_iff.mp (show lowerChar c ++ lower text = [] from h)).1
    unfold lowerChar at hc
    split_ifs at hc

theorem literal_fields (h : Constructible n) (hc : n.constructor = .literal) (hplain : n.PlainText) :
    ∃ lexical datatype language, n.fields = [.text lexical,
        .node (.mk .entity [.enum .datatype, .node (.mk .iri [.text datatype])]), language] ∧
      Constructible (.mk .entity [.enum .datatype, .node (.mk .iri [.text datatype])]) ∧
      (language = .none ∨ ∃ tag, language = .text tag ∧ tag ≠ "" ∧ datatype = rdfPlainLiteralIri) := by
  obtain ⟨args, call, -⟩ := h.call
  rw [hc] at call
  rcases args with _ | ⟨lexical, _ | ⟨datatype, _ | ⟨language, _ | ⟨_, _⟩⟩⟩⟩
  · cases call
  · cases call
  · cases call
  · obtain ⟨text, d, v, htext, rfl, hinst, hv, -, rfl⟩ := constructLiteral_ok call
    have hd : Constructible d := h.child (by simp [Node.children])
    have hkind : d.kind? = some .datatype := by
      simpa [Node.isInstance, Node.hasClass, datatypeClass] using hinst
    obtain ⟨kind, iri, rfl⟩ := hd.isEntity (constructor_of_kind? hkind)
    obtain rfl : kind = .datatype := by simpa [Node.kind?] using hkind
    have hlexical : ∃ text, textField lexical = .text text := by
      cases lexical with
      | enum kind => exact absurd rfl (hplain rfl kind)
      | _ => exact ⟨_, rfl⟩
    obtain ⟨text, htext⟩ := hlexical
    refine ⟨text, iri, v, by simp [htext], hd, ?_⟩
    obtain ⟨-, rfl⟩ | ⟨tag, -, hvalid, hiri, rfl⟩ := literalLanguage_ok hv
    · exact .inl rfl
    · refine .inr ⟨_, rfl, fun hempty => ?_, hiri⟩
      have hlower : lower tag.toList = [] := by simpa using congrArg String.toList hempty
      rw [lower_eq_nil hlower] at hvalid
      exact absurd hvalid (by decide +kernel)
  · cases call

section

variable (hash : Hash) (interpreter : Interpreter) (limits : ParseLimits) (prefixes : List (String × String))

def renamed (a : AnonymousIndividual) : AnonymousIndividual := provisionalAnonymous hash (xmlNodeId a)

/-- An element that is read back as the renamed value, at any depth of the tree. -/
structure Renders (n : Node) (element : Element) : Prop where
  written : xmlNode n = .ok element
  tagged : element.tag = owlTag n.className
  read : ∀ level (r : Reader), n.isInstance r.expected →
    reading hash interpreter limits prefixes (indent level element) r = .ok (n.mapAnonymous (renamed hash))

variable {hash interpreter limits prefixes} {n : Node}

theorem tag_indent (level : Nat) (element : Element) : (indent level element).tag = element.tag := by
  cases element with
  | mk tag attributes text children => rfl

theorem name_className (h : element.tag = owlTag n.className) :
    name element = .ok n.className := name_of_tag (brace_not_mem_className n) h

theorem Renders.reads (h : Renders hash interpreter limits prefixes n element) (level : Nat) :
    Child.Reads (renamed hash) n
      ⟨indent level element, reading hash interpreter limits prefixes (indent level element)⟩ where
  named := name_className (by rw [tag_indent, h.tagged])
  read := h.read level

variable (hash interpreter limits prefixes) in
theorem exists_elements (ks : List Node) (h : ∀ k ∈ ks, ∃ element, Renders hash interpreter limits prefixes k element) :
    ∃ es, ks.mapM xmlNode = .ok es ∧ ∀ level,
      Forall₂ (Child.Reads (renamed hash)) ks (readings hash interpreter limits prefixes (indentAll level es)) := by
  induction ks with
  | nil => exact ⟨[], rfl, fun _ => .nil⟩
  | cons k ks ih =>
    obtain ⟨element, helement⟩ := h k (by simp)
    obtain ⟨es, hes, hreads⟩ := ih fun k hk => h k (by simp [hk])
    refine ⟨element :: es, ?_, fun level => ?_⟩
    · rw [mapM_cons, helement.written, hes]
      rfl
    · rw [indentAll, readings]
      exact .cons (helement.reads level) (hreads level)

theorem reading_leaf (level : Nat) (tag : String) (attributes : List (String × String)) (text : Option String)
    (r : Reader) : reading hash interpreter limits prefixes (indent level (.mk tag attributes text [])) r =
      readElement hash interpreter limits prefixes (.mk tag attributes text []) [] r := by
  rw [indent, indentAll, reading, readings]
  simp

theorem mem_expected {r : Reader} (hr : n.isInstance r.expected) (hc : n.constructor ≠ .entity) :
    NodeClass.ofConstructor n.constructor ∈ r.expected := by
  obtain ⟨cls, hmem, hcls⟩ := any_eq_true.mp hr
  cases cls with
  | anyEntity => exact absurd (by simpa [Node.hasClass] using hcls) hc
  | entity kind => exact absurd (constructor_of_kind? (by simpa [Node.hasClass] using hcls)) hc
  | ofConstructor c =>
    obtain rfl : n.constructor = c := by simpa [Node.hasClass] using hcls
    exact hmem

/-- A property of the constructors that a reader accepts, checked over the registry. -/
theorem forall_expected [DecidablePred p] {r : Reader} (hall : Constructor.all.all fun c => NodeClass.ofConstructor c
    ∈ r.expected → p c) (c : Constructor) (hc : NodeClass.ofConstructor c ∈ r.expected) : p c :=
  of_decide_eq_true (all_eq_true.mp hall c (mem_of_find?_eq_some (find?_name c))) hc

theorem reader_of_leaf {r : Reader} (c : Constructor) (h : NodeClass.ofConstructor c ∈ r.expected) :
    (c = .iri → r = .iriElement ∨ r = .annotationSubject ∨ r = .annotationValue) ∧
      (c = .anonymousIndividual → r = .individual ∨ r = .annotationSubject ∨ r = .annotationValue) ∧
      (c = .literal → r = .literal ∨ r = .annotationValue) := by
  revert c
  refine forall_expected ?_
  cases r with
  | entityOf kind => cases kind <;> decide +kernel
  | _ => decide +kernel

section

variable (hash) in
theorem mapAnonymous_leaf (hn : Constructible n) (hc : n.constructor ∈ [Constructor.iri, .entity, .literal]) :
    n.mapAnonymous (renamed hash) = n :=
  mapAnonymous_eq_self hn.canonical (by simp [hn.anonymousValues_leaf hc])

variable {text : String}

theorem construct_iriText (h : Constructible (.mk .iri [.text text])) :
    construct .iri [.text text] = .ok (.mk .iri [.text text]) :=
  h.sound.stable fun hc => by cases hc

section

variable (h : Constructible (.mk .entity [.enum kind, .node (.mk .iri [.text text])]))

include h

theorem construct_entityText :
    construct .iri [.text text] = .ok (.mk .iri [.text text]) ∧
      construct .entity [.enum kind, .node (.mk .iri [.text text])] =
        .ok (.mk .entity [.enum kind, .node (.mk .iri [.text text])]) :=
  ⟨construct_iriText (h.child (by simp [Node.children, Value.nodes])), h.sound.stable fun hc => by cases hc⟩

/-- An entity is read back by every method that returns entities of its kind. -/
theorem renders_entity :
    Renders hash interpreter limits prefixes (.mk .entity [.enum kind, .node (.mk .iri [.text text])])
      (.mk (owlTag kind.className) [("IRI", text)] none []) := by
  have hself := mapAnonymous_leaf hash h (by simp)
  obtain ⟨hiri, hentity⟩ := construct_entityText h
  have hname : name (.mk (owlTag kind.className) [("IRI", text)] none []) = .ok kind.className :=
    name_className (n := .mk .entity [.enum kind, .node (.mk .iri [.text text])]) rfl
  have hnode : entityNode interpreter prefixes kind (.mk (owlTag kind.className) [("IRI", text)] none []) =
      .ok (.mk .entity [.enum kind, .node (.mk .iri [.text text])]) := by
    have hget : entityIri interpreter prefixes (.mk (owlTag kind.className) [("IRI", text)] none []) =
        construct .iri [.text text] := rfl
    rw [entityNode, hget, hiri]
    exact hentity
  have htyped : typedEntity interpreter prefixes kind (.mk (owlTag kind.className) [("IRI", text)] none []) =
      .ok (.mk .entity [.enum kind, .node (.mk .iri [.text text])]) := by
    rw [typedEntity, hname]
    simp only [bind, Except.bind, ne_eq, not_true_eq_false, if_false, hnode]
  refine ⟨?_, rfl, fun level r hr => ?_⟩
  · rw [xmlNode, para_eq]
    simp [Node.anonymous?, Node.className, Node.kind?, iriOfEntity, fieldText]
  · rw [reading_leaf, hself]
    have hkind : ∀ kind', (Node.mk .entity [.enum kind, .node (.mk .iri [.text text])]).kind? = some kind' ↔
        kind = kind' := by simp [Node.kind?]
    cases r with
    | entity =>
      simp only [readElement, entity, hname, bind, Except.bind, find?_className, hnode]
    | entityOf kind' =>
      obtain rfl : kind = kind' := by simpa [Reader.expected, Node.isInstance, Node.hasClass, hkind] using hr
      exact htyped
    | objectProperty =>
      obtain rfl : kind = .objectProperty := by
        simpa [Reader.expected, objectPropertyExpressionTypes, objectPropertyClass, Node.isInstance, Node.hasClass,
          hkind] using hr
      simp only [readElement, objectProperty, hname, bind, Except.bind]
      exact hnode
    | subObjectProperty =>
      obtain rfl : kind = .objectProperty := by
        simpa [Reader.expected, subObjectPropertyExpressionTypes, objectPropertyClass, Node.isInstance, Node.hasClass,
          hkind] using hr
      simp only [readElement, subObjectProperty, objectProperty, hname, bind, Except.bind]
      exact hnode
    | classExpression =>
      obtain rfl : kind = .class := by
        simpa [Reader.expected, classExpressionTypes, classClass, Node.isInstance, Node.hasClass, hkind] using hr
      simp only [readElement, classExpression, expression, hname, bind, Except.bind, if_true]
      exact htyped
    | dataRange =>
      obtain rfl : kind = .datatype := by
        simpa [Reader.expected, dataRangeTypes, datatypeClass, Node.isInstance, Node.hasClass, hkind] using hr
      simp only [readElement, dataRange, expression, hname, bind, Except.bind, if_true]
      exact htyped
    | individual =>
      obtain rfl : kind = .namedIndividual := by
        simpa [Reader.expected, individualTypes, Node.isInstance, Node.hasClass, hkind] using hr
      simp only [readElement, individual, hname, bind, Except.bind]
      exact hnode
    | facet | literal | iriElement | annotationSubject | annotationValue | annotationElement =>
      simp [Reader.expected, literalClass, iriClass, annotationClass, annotationSubjectTypes, annotationValueTypes,
        Node.isInstance, Node.hasClass] at hr

end

theorem renders_anonymous (a : AnonymousIndividual) : Renders hash interpreter limits prefixes a.node
    (.mk (owlTag "AnonymousIndividual") [("nodeID", xmlNodeId a)] none []) := by
  have hname : name (.mk (owlTag "AnonymousIndividual") [("nodeID", xmlNodeId a)] none []) =
      .ok "AnonymousIndividual" := name_className (n := a.node) rfl
  have hne : xmlNodeId a ≠ "" := by
    intro h
    have hlist := congrArg String.toList h
    simp [xmlNodeId] at hlist
  have hread : individual hash interpreter prefixes (.mk (owlTag "AnonymousIndividual") [("nodeID", xmlNodeId a)] none []) =
      .ok (renamed hash a).node := by
    have hget : (Element.mk (owlTag "AnonymousIndividual") [("nodeID", xmlNodeId a)] none []).get "nodeID" =
        some (xmlNodeId a) := rfl
    simp [individual, hname, hget, hne, renamed, bind, Except.bind]
  refine ⟨xmlNode_node a, rfl, fun level r hr => ?_⟩
  rw [reading_leaf, mapAnonymous_node]
  rcases (reader_of_leaf _ (mem_expected hr (by simp [AnonymousIndividual.node]))).2.1 rfl with rfl | rfl | rfl
  · exact hread
  · simp only [readElement, annotationSubject, hname, bind, Except.bind, if_true]
    exact hread
  · simp only [readElement, annotationValue, hname, bind, Except.bind, if_true]
    exact hread

theorem renders_iri (h : Constructible (.mk .iri [.text text])) (hstrip : strip text = text) :
    Renders hash interpreter limits prefixes (.mk .iri [.text text]) (.mk (owlTag "IRI") [] (some text) []) := by
  have hself := mapAnonymous_leaf hash h (by simp)
  have hname : name (.mk (owlTag "IRI") [] (some text) []) = .ok "IRI" :=
    name_className (n := .mk .iri [.text text]) rfl
  have hread : iriElement interpreter prefixes (.mk (owlTag "IRI") [] (some text) []) = .ok (.mk .iri [.text text]) := by
    have htext : (Element.mk (owlTag "IRI") [] (some text) []).text.getD "" = text := rfl
    simp only [iriElement, hname, bind, Except.bind, if_true, htext, hstrip]
    exact construct_iriText h
  refine ⟨?_, rfl, fun level r hr => ?_⟩
  · rw [xmlNode, para_eq]
    simp [Node.anonymous?, fieldText]
  · rw [reading_leaf, hself]
    rcases (reader_of_leaf _ (mem_expected hr (by simp))).1 rfl with rfl | rfl | rfl
    · exact hread
    · simp only [readElement, annotationSubject, hname, bind, Except.bind]
      exact hread
    · simp only [readElement, annotationValue, hname, bind, Except.bind]
      exact hread

section

variable (element : Element)

section

variable (htag : element.tag = owlTag "Literal")

include htag

section

variable (henforce : enforce "max_literal_bytes" (utf8Encode (element.text.getD "")).length limits.maxLiteralBytes = .ok ())

include henforce

theorem literal_tagged (hlanguage : languageOf element = some tag) :
    literal limits element = construct .literal [.text (element.text.getD ""), .node plainLiteral, .text tag] := by
  have hname : name element = .ok "Literal" := name_className (n := .mk .literal []) htag
  simp only [literal, hname, bind, Except.bind, ne_eq, not_true_eq_false, if_false, henforce, hlanguage]

theorem literal_plain (hlanguage : languageOf element = none) (hdatatype : element.get "datatypeIRI" = none) :
    literal limits element = construct .literal [.text (element.text.getD ""), .node plainLiteral, .none] := by
  have hname : name element = .ok "Literal" := name_className (n := .mk .literal []) htag
  simp only [literal, hname, bind, Except.bind, ne_eq, not_true_eq_false, if_false, henforce, hlanguage, hdatatype]

theorem literal_typed (hlanguage : languageOf element = none) (hdatatype
    : element.get "datatypeIRI" = some value) (hiri : construct .iri [.text value] = .ok iri) (hentity : construct
    .entity [.enum .datatype, .node iri] = .ok datatype) :
    literal limits element = construct .literal [.text (element.text.getD ""), .node datatype, .none] := by
  have hname : name element = .ok "Literal" := name_className (n := .mk .literal []) htag
  simp only [literal, hname, bind, Except.bind, ne_eq, not_true_eq_false, if_false, henforce, hlanguage, hdatatype,
    hiri, hentity]

end

end

end

theorem exists_renders_literal (h : Constructible n) (hc : n.constructor = .literal) (hplain : n.PlainText)
    (hascii : n.AsciiLanguage)
    (hbytes : ∀ text rest, n.fields = .text text :: rest → (utf8Encode text).length ≤ limits.maxLiteralBytes) :
    ∃ element, Renders hash interpreter limits prefixes n element := by
  have hself := mapAnonymous_leaf hash h (by simp [hc])
  have hstable := h.sound.stable hascii
  obtain ⟨lexical, datatype, language, hfields, hdatatype, hlanguage⟩ := literal_fields h hc hplain
  obtain rfl : n = .mk .literal [.text lexical, .node (.mk .entity [.enum .datatype, .node (.mk .iri [.text datatype])]),
      language] := ext_fields hc hfields
  obtain ⟨hiri, hentity⟩ := construct_entityText hdatatype
  have henforce : enforce "max_literal_bytes" (utf8Encode lexical).length limits.maxLiteralBytes = .ok () :=
    if_pos (hbytes lexical _ rfl)
  -- the readings are those of `literal` for both methods that accept a literal
  have hrenders : ∀ attributes,
      xmlNode (.mk .literal [.text lexical, .node (.mk .entity [.enum .datatype, .node (.mk .iri [.text datatype])]),
        language]) = .ok (.mk (owlTag "Literal") attributes (some lexical) []) →
      literal limits (.mk (owlTag "Literal") attributes (some lexical) []) =
        .ok (.mk .literal [.text lexical, .node (.mk .entity [.enum .datatype, .node (.mk .iri [.text datatype])]),
          language]) →
      Renders hash interpreter limits prefixes (.mk .literal [.text lexical,
        .node (.mk .entity [.enum .datatype, .node (.mk .iri [.text datatype])]), language])
        (.mk (owlTag "Literal") attributes (some lexical) []) := by
    intro attributes hwritten hread
    have hname : name (.mk (owlTag "Literal") attributes (some lexical) []) = .ok "Literal" :=
      name_className (n := .mk .literal []) rfl
    refine ⟨hwritten, rfl, fun level r hr => ?_⟩
    rw [reading_leaf, hself]
    rcases (reader_of_leaf _ (mem_expected hr (by simp))).2.2 rfl with rfl | rfl
    · exact hread
    · simp only [readElement, annotationValue, hname, bind, Except.bind, if_true]
      exact hread
  rcases hlanguage with rfl | ⟨tag, rfl, htag, rfl⟩
  · by_cases hplainType : datatype = rdfPlainLiteralIri
    · subst hplainType
      refine ⟨_, hrenders [] ?_ ?_⟩
      · rw [xmlNode, para_eq]
        simp [Node.anonymous?, fieldText, Node.entityIri]
      · exact (literal_plain (.mk (owlTag "Literal") [] (some lexical) []) rfl henforce rfl rfl).trans
          hstable
    · refine ⟨_, hrenders [("datatypeIRI", datatype)] ?_ ?_⟩
      · rw [xmlNode, para_eq]
        simp [Node.anonymous?, fieldText, Node.entityIri, hplainType]
      · exact (literal_typed (.mk (owlTag "Literal") [("datatypeIRI", datatype)] (some lexical) []) rfl
          henforce rfl rfl hiri hentity).trans hstable
  · refine ⟨_, hrenders [("lang", tag)] ?_ ?_⟩
    · rw [xmlNode, para_eq]
      simp [Node.anonymous?, fieldText]
    · have hget : (Element.mk (owlTag "Literal") [("lang", tag)] (some lexical) []).get "lang" = some tag := rfl
      exact (literal_tagged (.mk (owlTag "Literal") [("lang", tag)] (some lexical) []) rfl henforce
        (by simp only [languageOf, hget, if_neg htag])).trans hstable

end

end

end OwlXml

end OwlCore
