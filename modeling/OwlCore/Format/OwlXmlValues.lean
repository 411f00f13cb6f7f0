import OwlCore.Format.OwlXmlLeaves

/-!
# Values with children

By induction: when the nested values of a value are rendered, the element written for it is read
back. The forms of the tables carry class expressions, data ranges and axioms; annotations,
facets, inverses and chains have methods of their own.
-/
namespace OwlCore

open Fallible List Node Schema

namespace OwlXml

section

variable {hash : Hash} {interpreter : Interpreter} {limits : ParseLimits} {prefixes : List (String × String)} {n : Node}

/-- What the parser's budgets and the forms of its texts ask of one value. -/
structure Legible (limits : ParseLimits) (n : Node) : Prop where
  plain : n.PlainText
  ascii : n.AsciiLanguage
  literal : n.constructor = .literal → ∀ text rest, n.fields = .text text :: rest →
    (utf8Encode text).length ≤ limits.maxLiteralBytes
  integers : ∀ i, .integer i ∈ n.fields → i < 10 ^ 4300
  annotations : ∀ ms, ("annotations", .set ms) ∈ namedFields n.constructor n.fields → ms.length ≤ limits.maxAnnotations
  stripped : n.constructor ∉ [Constructor.entity, .facetRestriction] → ∀ text, .mk .iri [.text text] ∈ n.children →
    strip text = text

structure Ready (hash : Hash) (limits : ParseLimits) (n : Node) : Prop where
  constructible : Constructible n
  legible : n.Everywhere (Legible limits)
  apart : Set.InjOn (renamed hash) {a | a ∈ n.anonymousValues}
  encodable : (n.mapAnonymous (renamed hash)).SetsEncodable

namespace Ready

theorem child (h : Ready hash limits n) (hnone : n.anonymous? = none) (hk : k ∈ n.children) :
    Ready hash limits k where
  constructible := h.constructible.child hk
  legible := h.legible.child hk
  apart := injOn_child h.apart hk
  encodable := h.encodable.child ((mem_children_mapAnonymous h.constructible.canonical hnone).mpr ⟨k, hk, rfl⟩)

theorem construct_ok (h : Ready hash limits n) (hnone : n.anonymous? = none)
    (hleaf : n.constructor ∉ [Constructor.iri, .entity, .literal]) :
    construct n.constructor (n.fields.map fun v => Arg.ofValue (image (renamed hash) v)) =
      .ok (n.mapAnonymous (renamed hash)) := by
  have hfields : n.fields.map (fun v => Arg.ofValue (image (renamed hash) v)) =
      (n.mapAnonymous (renamed hash)).fields.map Arg.ofValue := by
    rw [fields_mapAnonymous hnone, List.map_map]
    rfl
  rw [hfields]
  exact (constructsImage h.constructible hnone hleaf).ok
    (fun k hk j hj heq => mapAnonymous_injOn_children h.constructible.canonical h.apart hk hj heq)
    h.encodable.here

theorem encodable_set (h : Ready hash limits n) (hnone : n.anonymous? = none) (hms : .set ms ∈ n.fields) :
    ∀ m ∈ ms, (m.mapAnonymous (renamed hash)).Encodable defaultLimits := by
  intro m hm
  refine h.encodable.here (KeyedSet.ofList Node.bytes (ms.map (Node.mapAnonymous (renamed hash)))) ?_ _ ?_
  · rw [fields_mapAnonymous hnone]
    exact mem_map.mpr ⟨.set ms, hms, rfl⟩
  · refine (KeyedSet.mem_ofList (keyInjOn_canonical fun k hk => ?_) _).mpr (mem_map_of_mem hm)
    obtain ⟨j, hj, rfl⟩ := mem_map.mp hk
    exact canonical_mapAnonymous
      (h.constructible.child (mem_children.mpr ⟨.set ms, hms, hj⟩)).canonical

end Ready

variable (hash interpreter limits prefixes) in
theorem reading_inner (level : Nat) (tag : String) (attributes : List (String × String)) (es : List Element)
    (r : Reader) : ∃ text, reading hash interpreter limits prefixes (indent level (.mk tag attributes none es)) r =
      readElement hash interpreter limits prefixes (.mk tag attributes text (indentAll (level + 1) es))
        (readings hash interpreter limits prefixes (indentAll (level + 1) es)) r :=
  ⟨_, by rw [indent, reading]⟩

theorem readings_singleton (level : Nat) (element : Element) :
    readings hash interpreter limits prefixes (indentAll level [element]) =
      [⟨indent level element, reading hash interpreter limits prefixes (indent level element)⟩] := by
  rw [indentAll, indentAll, readings, readings]

/-- The rows of the tables are none of the classes that are written in a way of their own. -/
theorem inner_of_form (htable : table = axiomForm ∨ table = classExpressionForm ∨ table = dataRangeForm) (h : (table
    c).isSome) :
    c ∉ [Constructor.iri, .entity, .literal, .facetRestriction] := by
  intro hmem
  simp only [mem_cons, not_mem_nil, or_false] at hmem
  rcases htable with rfl | rfl | rfl <;> rcases hmem with rfl | rfl | rfl | rfl <;> cases h

theorem counted_of_check (c : Constructor) : (c.fieldSpecs.any fun spec => spec.check = .nonnegativeInteger) = true →
    c ∈ [Constructor.objectMinCardinality, .objectMaxCardinality, .objectExactCardinality, .dataMinCardinality,
      .dataMaxCardinality, .dataExactCardinality] := by
  cases c <;> decide +kernel

theorem integer_of_sound (h : FieldSound spec (.integer i)) :
    spec.check = .nonnegativeInteger := by
  have hfits := h.fits
  unfold FieldFits at hfits
  cases hcheck : spec.check <;> simp [hcheck] at hfits
  rfl

theorem cardinalityAttribute_eq {fields : List (Value Node)} (h : Forall₂ FieldSound c.fieldSpecs fields) (hi :
    .integer i ∈ fields) :
    cardinalityAttribute c fields = [("cardinality", toString i)] := by
  obtain ⟨spec, hspec, hsound⟩ := exists_of_forall₂ h.flip hi
  have hc := counted_of_check c (any_eq_true.mpr ⟨spec, hspec, decide_eq_true (integer_of_sound hsound)⟩)
  have hshape : ∃ count property filler, c.fieldSpecs = [count, property, filler] ∧
      count.check = .nonnegativeInteger ∧ (∃ expected, property.check = .node expected) ∧
      ∃ expected, filler.check = .node expected := by
    simp only [mem_cons, not_mem_nil, or_false] at hc
    rcases hc with rfl | rfl | rfl | rfl | rfl | rfl <;> exact ⟨_, _, _, rfl, rfl, ⟨_, rfl⟩, _, rfl⟩
  have hnames : c.fieldSpecs.map FieldSpec.name = ["cardinality", "property", "filler"] := by
    simp only [mem_cons, not_mem_nil, or_false] at hc
    rcases hc with rfl | rfl | rfl | rfl | rfl | rfl <;> rfl
  obtain ⟨count, property, filler, hspecs, hcount, ⟨expected, hproperty⟩, expected', hfiller⟩ := hshape
  rw [hspecs] at h
  obtain ⟨v, w, u, rfl, hv, hw, hu⟩ := forall₂_triple h
  have hfits := hv.fits
  simp only [FieldFits, hcount] at hfits
  obtain ⟨j, rfl⟩ := hfits
  obtain ⟨k, rfl, -⟩ := Form.node_of_sound hw hproperty
  obtain ⟨m, rfl, -⟩ := Form.node_of_sound hu hfiller
  obtain rfl : i = j := by simpa using hi
  simp [cardinalityAttribute, hc, namedFields, hnames]

theorem cardinality_ok {children : List Element} (hi : i < 10 ^ 4300) :
    cardinality interpreter (.mk tag [("cardinality", toString i)] text children) = .ok i := by
  obtain ⟨hdigit, hint⟩ := interpreter.decimal i hi
  have hget : (Element.mk tag [("cardinality", toString i)] text children).get "cardinality" = some (toString i) := rfl
  simp only [cardinality, hget, hdigit, if_true, hint]

theorem find?_kind (kind : EntityKind) : Constructor.all.find? (fun c => c.name = kind.className) = none := by
  cases kind <;> decide +kernel

theorem name_ne_className (c : Constructor) (kind : EntityKind) : c.name ≠ kind.className := by
  intro h
  have hfound := find?_name c
  rw [h, find?_kind] at hfound
  cases hfound

variable (hchildren : ∀ k ∈ n.children, (∃ r : Reader, k.isInstance r.expected) → ∃ element, Renders hash interpreter
  limits prefixes k element)

include hchildren in
/-- A class expression or a data range of the table is read back from what is written for it. -/
theorem exists_renders_form (h : Ready hash limits n) (hnone : n.anonymous? = none)
    {table : Constructor → Option Form} (hform : table n.constructor = some form)
    (hagrees : form.agrees (n.constructor.fieldSpecs.map FieldSpec.check)) (hown : n.constructor.ownBody = false)
    (hnames : ∀ spec ∈ n.constructor.fieldSpecs, spec.name ≠ "annotations")
    (hc : n.constructor ∉ [Constructor.iri, .entity, .literal, .facetRestriction]) (kind : EntityKind) (noun : String) :
    ∃ attributes es, xmlNode n = .ok (.mk (owlTag n.className) attributes none es) ∧ ∀ level text,
      expression interpreter prefixes kind table noun
        (.mk (owlTag n.className) attributes text (indentAll level es))
        (readings hash interpreter limits prefixes (indentAll level es)) = .ok (n.mapAnonymous (renamed hash)) := by
  have hsound := h.constructible.fields_sound hown
  have hfits := Form.agrees_fits hagrees hsound
  have hspec := fun (f : String × Value Node) hf => exists_spec hsound (f := f) hf
  have hcardinal := cardinality_iff n.constructor
  have horder : renderOrder n = n.fields.flatMap Value.nodes := by
    refine renderOrder_plain hsound.length_eq.symm fun f hf => ?_
    obtain ⟨spec, hmem, hname, hfield⟩ := hspec f hf
    refine ⟨hname ▸ hnames spec hmem, fun hcard => ?_⟩
    exact FieldSound.nodes_eq_nil hfield ((hcardinal spec hmem).mp (hname.trans hcard))
  obtain ⟨es, hes, hreads⟩ := exists_elements hash interpreter limits prefixes (renderOrder n)
    (fun k hk => by
      rw [horder] at hk
      obtain ⟨r, hinst, -⟩ := hfits.exists_reader hk
      exact hchildren k hk ⟨r, hinst⟩)
  have hwritten := xmlNode_inner hnone hc (fun f hf hcard => by
    obtain ⟨spec, hmem, hname, hfield⟩ := hspec f hf
    exact FieldSound.written hfield fun hcheck => hcard (hname.symm.trans ((hcardinal spec hmem).mpr hcheck))) hes
  refine ⟨_, es, hwritten, fun level text => ?_⟩
  have hentity : n.constructor ≠ .entity := fun heq => hc (by simp [heq])
  have hclass := className_of_ne_entity hentity
  have hname : name (.mk (owlTag n.className) (cardinalityAttribute n.constructor n.fields) text
      (indentAll level es)) = .ok n.className := name_className rfl
  have hreads := hreads level
  rw [horder] at hreads
  have hargs := arguments_ok interpreter (.mk (owlTag n.className)
    (cardinalityAttribute n.constructor n.fields) text (indentAll level es)) n.className
    hfits hreads (fun ms hms => h.encodable_set hnone hms) (fun i hi => by
      rw [cardinalityAttribute_eq hsound hi]
      exact cardinality_ok (h.legible.here.integers i hi))
  have hconstruct := h.construct_ok hnone fun hmem => hc (by simp at hmem ⊢; tauto)
  have hrow : formOf table n.className = some (n.constructor, form) := by
    rw [hclass]
    exact formOf_name hform
  have hkind : n.className ≠ kind.className := by
    rw [hclass]
    exact name_ne_className _ _
  rw [expression, hname]
  simp only [bind, Except.bind, if_neg hkind, hrow, hargs]
  exact hconstruct

/-- The methods that return the values of a constructor, as far as it has one method or two. -/
theorem reader_of_mem {r : Reader} (c : Constructor) (h : NodeClass.ofConstructor c ∈ r.expected) :
    (c = .facetRestriction → r = .facet) ∧ (c = .annotationNode → r = .annotationElement) ∧
      (c = .objectPropertyChain → r = .subObjectProperty) ∧
      (c = .objectInverseOf → r = .objectProperty ∨ r = .subObjectProperty) ∧
      ((classExpressionForm c).isSome → r = .classExpression) ∧ ((dataRangeForm c).isSome → r = .dataRange) := by
  revert c
  refine forall_expected ?_
  cases r with
  | entityOf kind => cases kind <;> decide +kernel
  | _ => decide +kernel

section

variable (h : Ready hash limits n)

include h

theorem exists_renders_facet (hc : n.constructor = .facetRestriction)
    (hchildren : ∀ k ∈ n.children, k.isInstance [literalClass] →
      ∃ element, Renders hash interpreter limits prefixes k element) :
    ∃ element, Renders hash interpreter limits prefixes n element := by
  have hsound := h.constructible.fields_sound (by rw [hc]; rfl)
  rw [hc] at hsound
  obtain ⟨v, w, hfields, hv, hw⟩ := forall₂_pair hsound
  obtain ⟨iri, rfl, hiri⟩ := Form.node_of_sound hv rfl
  obtain ⟨value, rfl, hvalue⟩ := Form.node_of_sound hw rfl
  obtain rfl : n = .mk .facetRestriction [.node iri, .node value] := ext_fields hc hfields
  have hiriMade : Constructible iri := h.constructible.child (by simp [Node.children])
  obtain ⟨text, rfl⟩ := hiriMade.exists_text (by simpa [Node.isInstance, Node.hasClass, iriClass] using hiri)
  obtain ⟨element, helement⟩ := hchildren value (by simp [Node.children]) hvalue
  refine ⟨.mk (owlTag "FacetRestriction") [("facet", text)] none [element], ?_, rfl, fun level r hr => ?_⟩
  · have hlist : [xmlNode value].mapM id = .ok [element] := by
      rw [mapM_cons, helement.written]
      rfl
    exact (para_eq _ _).trans (bind_eq_ok.mpr ⟨[element], hlist, by simp [fieldText]⟩)
  · obtain rfl : r = .facet := (reader_of_mem _ (mem_expected hr (by simp))).1 rfl
    obtain ⟨blank, hreading⟩ := reading_inner hash interpreter limits prefixes level (owlTag "FacetRestriction")
      [("facet", text)] [element] .facet
    rw [hreading]
    have hname : name (.mk (owlTag "FacetRestriction") [("facet", text)] blank (indentAll (level + 1) [element])) =
        .ok "FacetRestriction" := name_className (n := .mk .facetRestriction []) rfl
    have hget : (Element.mk (owlTag "FacetRestriction") [("facet", text)] blank (indentAll (level + 1) [element])).get
        "facet" = some text := rfl
    have hread := helement.read (level + 1) .literal hvalue
    have hconstruct := h.construct_ok (by simp [Node.anonymous?]) (by simp)
    have hself := mapAnonymous_leaf hash hiriMade (by simp)
    simp only [readElement, facet, hname, hget, readings_singleton, bind, Except.bind, ne_eq, not_true_eq_false, if_false,
      construct_iriText hiriMade, hread]
    simpa [image, Value.map, Value.rebuild, hself] using hconstruct

include hchildren in
theorem exists_renders_annotation (hc : n.constructor = .annotationNode) :
    ∃ element, Renders hash interpreter limits prefixes n element := by
  have hsound := h.constructible.fields_sound (by rw [hc]; rfl)
  rw [hc] at hsound
  obtain ⟨v, w, u, hfields, hv, hw, hu⟩ := forall₂_triple hsound
  obtain ⟨property, rfl, hproperty⟩ := Form.node_of_sound hv rfl
  obtain ⟨value, rfl, hvalue⟩ := Form.node_of_sound hw rfl
  obtain ⟨as, rfl, has, -⟩ := Form.set_of_sound hu rfl
  obtain rfl : n = .mk .annotationNode [.node property, .node value, .set as] := ext_fields hc hfields
  have hnone : (Node.mk .annotationNode [.node property, .node value, .set as]).anonymous? = none := by
    simp [Node.anonymous?]
  have horder : renderOrder (.mk .annotationNode [.node property, .node value, .set as]) = as ++ [property, value] :=
    renderOrder_annotated ["property", "value"] [.node property, .node value] rfl (by simp) rfl rfl
  obtain ⟨es, hes, hreads⟩ := exists_elements hash interpreter limits prefixes
    (renderOrder (.mk .annotationNode [.node property, .node value, .set as])) (by
      intro k hk
      rw [horder] at hk
      have hcases : k ∈ as ∨ k = property ∨ k = value := by simpa using hk
      refine hchildren k (by simp [Node.children]; tauto) ?_
      rcases hcases with hk | rfl | rfl
      · exact ⟨.annotationElement, has k hk⟩
      · exact ⟨.entityOf .annotationProperty, hproperty⟩
      · exact ⟨.annotationValue, hvalue⟩)
  have hwritten := xmlNode_inner hnone (by simp) (fun f hf _ => by
    have hcases : f.2 = .node property ∨ f.2 = .node value ∨ f.2 = .set as := by
      simpa using (of_mem_zip hf).2
    rcases hcases with heq | heq | heq <;> rw [heq]
    · exact .inl ⟨_, rfl⟩
    · exact .inl ⟨_, rfl⟩
    · exact .inr (.inl ⟨_, rfl⟩)) hes
  refine ⟨_, hwritten, rfl, fun level r hr => ?_⟩
  obtain rfl : r = .annotationElement := (reader_of_mem _ (mem_expected hr (by simp))).2.1 rfl
  obtain ⟨blank, hreading⟩ := reading_inner hash interpreter limits prefixes level _
    (cardinalityAttribute .annotationNode [.node property, .node value, .set as]) es
    .annotationElement
  refine hreading.trans ?_
  have hreads := hreads (level + 1)
  rw [horder] at hreads
  obtain ⟨annotated, others, hsplit, hannotated, hothers⟩ := forall₂_append_left hreads
  have hplain : ∀ k ∈ [property, value], k.className ≠ "Annotation" := by
    intro k hk
    have hcases : k = property ∨ k = value := by simpa using hk
    rcases hcases with rfl | rfl
    · exact Form.className_ne (r := .entityOf .annotationProperty) (by simp) hproperty
    · exact Form.className_ne (r := .annotationValue) (by simp) hvalue
  have hleading := leadingAnnotations_ok limits hannotated has hothers hplain
    (h.legible.here.annotations as (by simp [namedFields, Constructor.fieldSpecs, field]))
    (h.encodable_set hnone (by simp))
  obtain ⟨first, second, rfl, hfirst, hsecond⟩ := forall₂_pair hothers
  have hconstruct := h.construct_ok hnone (by simp)
  simp only [readElement, annotationElement, hsplit, hleading, bind, Except.bind,
    hfirst.read (.entityOf .annotationProperty) hproperty, hsecond.read .annotationValue hvalue]
  exact hconstruct

include hchildren in
theorem exists_renders_inverse (hc : n.constructor = .objectInverseOf) :
    ∃ element, Renders hash interpreter limits prefixes n element := by
  have hsound := h.constructible.fields_sound (by rw [hc]; rfl)
  rw [hc] at hsound
  obtain ⟨v, hfields, hv⟩ := forall₂_single hsound
  obtain ⟨property, rfl, hproperty⟩ := Form.node_of_sound hv rfl
  obtain rfl : n = .mk .objectInverseOf [.node property] := ext_fields hc hfields
  have hnone : (Node.mk .objectInverseOf [.node property]).anonymous? = none := by simp [Node.anonymous?]
  obtain ⟨element, helement⟩ := hchildren property (by simp [Node.children])
    ⟨.entityOf .objectProperty, hproperty⟩
  have horder : renderOrder (.mk .objectInverseOf [.node property]) = [property] := rfl
  have hes : (renderOrder (.mk .objectInverseOf [.node property])).mapM xmlNode = .ok [element] := by
    rw [horder, mapM_cons, helement.written]
    rfl
  have hwritten := xmlNode_inner hnone (by simp) (fun f hf _ => by
    have heq : f.2 = .node property := by simpa using (of_mem_zip hf).2
    exact .inl ⟨property, heq⟩) hes
  refine ⟨_, hwritten, rfl, fun level r hr => ?_⟩
  have hinst : property.isInstance objectPropertyExpressionTypes := by
    have hkind : property.kind? = some .objectProperty := by
      simpa [Node.isInstance, Node.hasClass, objectPropertyClass] using hproperty
    simp [Node.isInstance, objectPropertyExpressionTypes, Node.hasClass, objectPropertyClass, hkind]
  have hread := helement.read (level + 1) .objectProperty hinst
  have hconstruct := h.construct_ok hnone (by simp)
  have hname : ∀ blank, name (.mk (owlTag "ObjectInverseOf") (cardinalityAttribute .objectInverseOf [.node property])
      blank (indentAll (level + 1) [element])) = .ok "ObjectInverseOf" :=
    fun blank => name_className (n := .mk .objectInverseOf []) rfl
  have hobject : ∀ blank, objectProperty interpreter prefixes (.mk (owlTag "ObjectInverseOf")
      (cardinalityAttribute .objectInverseOf [.node property]) blank (indentAll (level + 1) [element]))
      (readings hash interpreter limits prefixes (indentAll (level + 1) [element])) =
        .ok (Node.mapAnonymous (renamed hash) (.mk .objectInverseOf [.node property])) := by
    intro blank
    have hstill : (property.mapAnonymous (renamed hash)).isInstance [objectPropertyClass] := by simpa using hproperty
    rw [objectProperty, hname]
    simp only [bind, Except.bind, readings_singleton, hread, hstill, if_true]
    exact hconstruct
  obtain ⟨blank, hreading⟩ := reading_inner hash interpreter limits prefixes level _
    (cardinalityAttribute .objectInverseOf [.node property]) [element] r
  refine hreading.trans ?_
  rcases (reader_of_mem _ (mem_expected hr (by simp))).2.2.2.1 rfl with rfl | rfl
  · exact hobject blank
  · refine Eq.trans ?_ (hobject blank)
    show subObjectProperty interpreter prefixes _ _ = _
    rw [subObjectProperty]
    exact (congrArg (· >>= _) (hname blank)).trans rfl

include hchildren in
theorem exists_renders_chain (hc : n.constructor = .objectPropertyChain) :
    ∃ element, Renders hash interpreter limits prefixes n element := by
  have hsound := h.constructible.fields_sound (by rw [hc]; rfl)
  rw [hc] at hsound
  obtain ⟨v, hfields, hv⟩ := forall₂_single hsound
  obtain ⟨ps, rfl, hps, -⟩ := hv.fits
  obtain rfl : n = .mk .objectPropertyChain [.sequence ps] := ext_fields hc hfields
  have hnone : (Node.mk .objectPropertyChain [.sequence ps]).anonymous? = none := by simp [Node.anonymous?]
  have horder : renderOrder (.mk .objectPropertyChain [.sequence ps]) = ps := append_nil ps
  obtain ⟨es, hes, hreads⟩ := exists_elements hash interpreter limits prefixes ps fun k hk =>
      hchildren k (by simpa [Node.children] using hk) ⟨.objectProperty, hps k hk⟩
  rw [← horder] at hes
  have hwritten := xmlNode_inner hnone (by simp) (fun f hf _ => by
    have heq : f.2 = .sequence ps := by simpa using (of_mem_zip hf).2
    exact .inr (.inr ⟨ps, heq⟩)) hes
  refine ⟨_, hwritten, rfl, fun level r hr => ?_⟩
  obtain rfl : r = .subObjectProperty := (reader_of_mem _ (mem_expected hr (by simp))).2.2.1 rfl
  obtain ⟨blank, hreading⟩ := reading_inner hash interpreter limits prefixes level _
    (cardinalityAttribute .objectPropertyChain [.sequence ps]) es .subObjectProperty
  refine hreading.trans ?_
  have hname : name (.mk (owlTag "ObjectPropertyChain") (cardinalityAttribute .objectPropertyChain [.sequence ps])
      blank (indentAll (level + 1) es)) = .ok "ObjectPropertyChain" :=
    name_className (n := .mk .objectPropertyChain []) rfl
  have hread := readAll (r := .objectProperty) (hreads (level + 1)) hps
  have hconstruct := h.construct_ok hnone (by simp)
  show subObjectProperty interpreter prefixes (.mk (owlTag "ObjectPropertyChain")
    (cardinalityAttribute .objectPropertyChain [.sequence ps]) blank (indentAll (level + 1) es)) _ = _
  rw [subObjectProperty, hname]
  simp only [bind, Except.bind, if_true, hread]
  exact hconstruct

end

theorem readable_cases {r : Reader} (hr : n.isInstance r.expected) :
    n.constructor ∈ [Constructor.entity, .anonymousIndividual, .literal, .iri, .facetRestriction, .annotationNode,
      .objectInverseOf, .objectPropertyChain] ∨
    (classExpressionForm n.constructor).isSome ∨ (dataRangeForm n.constructor).isSome := by
  by_cases hc : n.constructor = .entity
  · exact .inl (by simp [hc])
  · refine forall_expected (p := fun c => c ∈ [Constructor.entity, .anonymousIndividual, .literal, .iri,
      .facetRestriction, .annotationNode, .objectInverseOf, .objectPropertyChain] ∨ (classExpressionForm c).isSome ∨
      (dataRangeForm c).isSome) ?_ _ (mem_expected hr hc)
    cases r with
    | entityOf kind => cases kind <;> decide +kernel
    | _ => decide +kernel

/-- Every value that some method of the parser returns is read back from its element. -/
theorem exists_renders (h : Ready hash limits n) (hiri : ∀ text, n = .mk .iri [.text text] → strip text = text)
    {r : Reader} (hr : n.isInstance r.expected) : ∃ element, Renders hash interpreter limits prefixes n element := by
  induction n using Node.induct generalizing r with
  | step n ih =>
    cases hnone : n.anonymous? with
    | some a =>
      obtain rfl := anonymous?_eq_some.mp hnone
      exact ⟨_, renders_anonymous a⟩
    | none =>
      -- below an entity or a facet the IRI stands in an attribute and is not stripped
      have hchildren : n.constructor ∉ [Constructor.entity, .facetRestriction] →
          ∀ k ∈ n.children, (∃ r : Reader, k.isInstance r.expected) →
            ∃ element, Renders hash interpreter limits prefixes k element := by
        rintro hc k hk ⟨r, hr⟩
        exact ih k hk (h.child hnone hk) (fun text heq => h.legible.here.stripped hc text (heq ▸ hk)) hr
      rcases readable_cases hr with hc | hc | hc
      · simp only [mem_cons, not_mem_nil, or_false] at hc
        rcases hc with hc | hc | hc | hc | hc | hc | hc | hc
        · obtain ⟨kind, text, rfl⟩ := h.constructible.isEntity hc
          exact ⟨_, renders_entity h.constructible⟩
        · obtain ⟨a, rfl⟩ := h.constructible.anonymousIndividual_node hc
          simp at hnone
        · exact exists_renders_literal h.constructible hc h.legible.here.plain h.legible.here.ascii
            (h.legible.here.literal hc)
        · obtain ⟨text, rfl⟩ := h.constructible.exists_text hc
          exact ⟨_, renders_iri h.constructible (hiri text rfl)⟩
        · refine exists_renders_facet h hc fun k hk hinst => ih k hk (h.child hnone hk) (fun text heq => ?_)
            (r := .literal) hinst
          rw [heq] at hinst
          simp [Node.isInstance, Node.hasClass, literalClass] at hinst
        · exact exists_renders_annotation (hchildren (by simp [hc])) h hc
        · exact exists_renders_inverse (hchildren (by simp [hc])) h hc
        · exact exists_renders_chain (hchildren (by simp [hc])) h hc
      · obtain ⟨form, hsome⟩ := Option.isSome_iff_exists.mp hc
        have hagrees := classExpressionForm_agrees hsome
        have hleaf := inner_of_form (.inr (.inl rfl)) hc
        obtain ⟨attributes, es, hwritten, hread⟩ := exists_renders_form
          (hchildren fun hmem => hleaf (by simp at hmem ⊢; tauto)) h hnone hsome hagrees.1 hagrees.2 (plain_names (.inl hc))
          hleaf .class "class expression"
        refine ⟨_, hwritten, rfl, fun level r hr => ?_⟩
        obtain rfl := (reader_of_mem _ (mem_expected hr fun heq => hleaf (by simp [heq]))).2.2.2.2.1 hc
        obtain ⟨blank, hreading⟩ := reading_inner hash interpreter limits prefixes level (owlTag n.className)
          attributes es .classExpression
        exact hreading.trans (hread (level + 1) blank)
      · obtain ⟨form, hsome⟩ := Option.isSome_iff_exists.mp hc
        have hagrees := dataRangeForm_agrees hsome
        have hleaf := inner_of_form (.inr (.inr rfl)) hc
        obtain ⟨attributes, es, hwritten, hread⟩ := exists_renders_form
          (hchildren fun hmem => hleaf (by simp at hmem ⊢; tauto)) h hnone hsome hagrees.1 hagrees.2 (plain_names (.inr hc))
          hleaf .datatype "data range"
        refine ⟨_, hwritten, rfl, fun level r hr => ?_⟩
        obtain rfl := (reader_of_mem _ (mem_expected hr fun heq => hleaf (by simp [heq]))).2.2.2.2.2 hc
        obtain ⟨blank, hreading⟩ := reading_inner hash interpreter limits prefixes level (owlTag n.className)
          attributes es .dataRange
        exact hreading.trans (hread (level + 1) blank)

theorem axiom_fields (hn : Constructible n) (hform : axiomForm n.constructor = some form) :
    ∃ body as, n.fields = body ++ [.set as] ∧ form.Fits body ∧ (∀ a ∈ as, a.isInstance [annotationClass]) ∧
      body.length + 1 = n.constructor.fieldSpecs.length := by
  cases hown : n.constructor.ownBody with
  | false =>
    obtain ⟨hagrees, hlast⟩ := axiomForm_agrees hform hown
    have hsound := hn.fields_sound hown
    rw [← dropLast_append_getLast? _ hlast] at hsound
    obtain ⟨body, last, hfields, hbody, hsingle⟩ := forall₂_append_left hsound
    obtain ⟨v, rfl, hv⟩ := forall₂_single hsingle
    obtain ⟨as, rfl, has⟩ := hv.fits
    refine ⟨body, as, hfields, Form.agrees_fits hagrees hbody, has, ?_⟩
    rw [(hn.fields_sound hown).length_eq, hfields, length_append, length_singleton]
  | true =>
    cases hc : n.constructor <;> rw [hc] at hform hown <;> simp [axiomForm] at hform <;>
      simp [Constructor.ownBody] at hown
    case inverseObjectProperties =>
      obtain ⟨first, second, as, hfields, hfirst, hsecond, -, hset⟩ := hn.inverseObjectProperties_fields hc
      subst hform
      have hpair : Form.Fits (.positional [.objectProperty, .objectProperty]) ([first, second].map .node) :=
        .positional (.cons hfirst (.cons hsecond .nil))
      exact ⟨[.node first, .node second], as, hfields, hpair, hset.instances, rfl⟩
    case hasKey =>
      obtain ⟨cls, objects, datas, as, hfields, hcls, hobjects, hdatas, hne, hset⟩ := hn.hasKey_fields hc
      subst hform
      exact ⟨[.node cls, .set objects, .set datas], as, hfields,
        .hasKey hcls hobjects.instances hdatas.instances hne, hset.instances, rfl⟩

theorem axiomForm_written (hform : axiomForm c = some form) (h : form.Fits body) : ∀ v ∈ body, Written v := by
  intro v hv
  cases h with
  | positional h =>
    obtain ⟨k, -, rfl⟩ := mem_map.mp hv
    exact .inl ⟨k, rfl⟩
  | @members r ms h => exact .inr (.inl ⟨ms, by simpa using hv⟩)
  | @headed minimum message h r k ms hk hms hmin =>
    have hcases : v = .node k ∨ v = .set ms := by simpa using hv
    exact hcases.imp (fun h => ⟨k, h⟩) fun h => .inl ⟨ms, h⟩
  | @quantified ps k hps hne hk =>
    have hcases : v = .sequence ps ∨ v = .node k := by simpa using hv
    exact hcases.elim (fun h => .inr (.inr ⟨ps, h⟩)) fun h => .inl ⟨k, h⟩
  | counted hk hm => cases c <;> simp [axiomForm] at hform
  | @hasKey k objects datas hk hobjects hdatas hne =>
    have hcases : v = .node k ∨ v = .set objects ∨ v = .set datas := by simpa using hv
    rcases hcases with h | h | h
    · exact .inl ⟨k, h⟩
    · exact .inr (.inl ⟨objects, h⟩)
    · exact .inr (.inl ⟨datas, h⟩)

theorem exists_renders_axiom (h : Ready hash limits n) (hform : axiomForm n.constructor = some form) :
    ∃ attributes es, xmlNode n = .ok (.mk (owlTag n.className) attributes none es) ∧ ∀ level text,
      axiomNode interpreter limits (.mk (owlTag n.className) attributes text (indentAll level es))
        (readings hash interpreter limits prefixes (indentAll level es)) = .ok (n.mapAnonymous (renamed hash)) := by
  obtain ⟨body, as, hfields, hfits, has, hlength⟩ := axiom_fields h.constructible hform
  obtain ⟨names, hnames, hother⟩ := annotated_names (c := n.constructor) (.inl (by simp [hform]))
  have hleaf := inner_of_form (.inl rfl) (Option.isSome_of_eq_some hform)
  have hnone : n.anonymous? = none := by
    cases hanonymous : n.anonymous? with
    | none => rfl
    | some a =>
      obtain rfl := anonymous?_eq_some.mp hanonymous
      cases hform
  have hnamesLength : names.length = body.length := by
    have heq := congrArg List.length hnames
    simp only [length_map, length_append, length_singleton] at heq
    omega
  have horder := renderOrder_annotated names body hnames hother hfields hnamesLength
  have hwrittenBody := axiomForm_written hform hfits
  have hmem : ∀ k ∈ renderOrder n, k ∈ n.children := by
    intro k hk
    rw [horder] at hk
    rw [Node.children, hfields, flatMap_append]
    simpa [or_comm] using hk
  obtain ⟨es, hes, hreads⟩ := exists_elements hash interpreter limits prefixes (renderOrder n) (by
      intro k hk
      have hchild := hmem k hk
      have hreader : ∃ r : Reader, k.isInstance r.expected := by
        rw [horder] at hk
        rcases mem_append.mp hk with hk | hk
        · exact ⟨.annotationElement, has k hk⟩
        · obtain ⟨r, hr, -⟩ := hfits.exists_reader hk
          exact ⟨r, hr⟩
      obtain ⟨r, hr⟩ := hreader
      refine exists_renders (h.child hnone hchild) (fun text heq => ?_) hr
      exact h.legible.here.stripped (fun hc => hleaf (by simp at hc ⊢; tauto)) text (heq ▸ hchild))
  have hwritten := xmlNode_inner hnone hleaf (fun f hf _ => by
    have hmemField : f.2 ∈ n.fields := (of_mem_zip hf).2
    rw [hfields] at hmemField
    rcases mem_append.mp hmemField with hbody | hset
    · exact hwrittenBody _ hbody
    · exact .inr (.inl ⟨as, by simpa using hset⟩)) hes
  refine ⟨_, es, hwritten, fun level text => ?_⟩
  have hreads := hreads level
  rw [horder] at hreads
  obtain ⟨annotated, others, hsplit, hannotated, hothers⟩ := forall₂_append_left hreads
  have hset : .set as ∈ n.fields := by simp [hfields]
  have hnamed : ("annotations", Value.set as) ∈ namedFields n.constructor n.fields := by
    rw [namedFields, hnames, hfields, zip_append hnamesLength]
    simp
  have hleading := leadingAnnotations_ok limits hannotated has hothers
    (hfits.className_ne (axiomForm_plain hform)) (h.legible.here.annotations as hnamed) (h.encodable_set hnone hset)
  have hargs := arguments_ok interpreter (.mk (owlTag n.className)
    (cardinalityAttribute n.constructor n.fields) text (indentAll level es)) n.className hfits hothers
    (fun ms hms => h.encodable_set hnone (by rw [hfields]; exact mem_append_left _ hms)) (fun i hi => by
      rcases hwrittenBody _ hi with ⟨k, hk⟩ | ⟨ms, hms⟩ | ⟨ms, hms⟩
      · cases hk
      · cases hms
      · cases hms)
  have hclass := className_of_ne_entity (n := n) fun heq => hleaf (by simp [heq])
  have hrow : formOf axiomForm n.className = some (n.constructor, form) := by
    rw [hclass]
    exact formOf_name hform
  have hname : name (.mk (owlTag n.className) (cardinalityAttribute n.constructor n.fields) text
      (indentAll level es)) = .ok n.className := name_className rfl
  have hconstruct := h.construct_ok hnone fun hc => hleaf (by simp at hc ⊢; tauto)
  rw [hfields, map_append] at hconstruct
  rw [axiomNode, hname, hsplit]
  simp only [bind, Except.bind, hleading, hrow, hargs]
  exact hconstruct

end

end OwlXml

end OwlCore
