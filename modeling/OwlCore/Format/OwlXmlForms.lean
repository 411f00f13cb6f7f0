import OwlCore.Format.OwlXml

/-!
# Forms against the schema

The readers of a form accept the classes that the fields of its constructor admit. The rows are
compared with the schema once, and each form then returns the renamed fields of a value from
readings of its children.
-/
namespace OwlCore

open Fallible List Schema

namespace OwlXml

section

variable {m : List β}

theorem forall₂_single (h : Forall₂ R [a] m) : ∃ x, m = [x] ∧ R a x := by
  obtain ⟨x, rest, hx, hend, rfl⟩ := forall₂_cons_left_iff.mp h
  exact ⟨x, by rw [forall₂_nil_left_iff.mp hend], hx⟩

theorem forall₂_pair (h : Forall₂ R [a, b] m) : ∃ x y, m = [x, y] ∧ R a x ∧ R b y := by
  obtain ⟨x, rest, hx, hrest, rfl⟩ := forall₂_cons_left_iff.mp h
  obtain ⟨y, rfl, hy⟩ := forall₂_single hrest
  exact ⟨x, y, rfl, hx, hy⟩

theorem forall₂_triple (h : Forall₂ R [a, b, c] m) : ∃ x y z, m = [x, y, z] ∧ R a x ∧ R b y ∧ R c z := by
  obtain ⟨x, rest, hx, hrest, rfl⟩ := forall₂_cons_left_iff.mp h
  obtain ⟨y, z, rfl, hy, hz⟩ := forall₂_pair hrest
  exact ⟨x, y, z, rfl, hx, hy, hz⟩

end

section

theorem toList_owlStem :
    "\x7bhttp://www.w3.org/2002/07/owl#\x7d".toList = '\x7b' :: (owlNs.toList ++ ['\x7d']) := by
  rfl

theorem toList_owlTag (found : String) :
    (owlTag found).toList = '\x7b' :: (owlNs.toList ++ '\x7d' :: found.toList) := by
  have happend : ∀ l : List Char, '\x7b' :: (l ++ ['\x7d']) ++ found.toList = '\x7b' :: (l ++ '\x7d' :: found.toList) :=
    fun l => by simp
  calc (owlTag found).toList
      = "\x7bhttp://www.w3.org/2002/07/owl#\x7d".toList ++ found.toList := String.toList_append
    _ = '\x7b' :: (owlNs.toList ++ ['\x7d']) ++ found.toList := congrArg (· ++ found.toList) toList_owlStem
    _ = '\x7b' :: (owlNs.toList ++ '\x7d' :: found.toList) := happend _

theorem namespaceOf_owlTag (found : String) : namespaceOf (owlTag found) = owlNs := by
  have hns : ∀ c ∈ owlNs.toList, decide (c ≠ '\x7d') = true := by
    have hall : owlNs.toList.all (fun c => decide (c ≠ '\x7d')) = true := by decide +kernel
    exact all_eq_true.mp hall
  simp only [namespaceOf, toList_owlTag]
  rw [takeWhile_append_of_pos hns]
  simp [String.ofList_toList]

theorem localOf_owlTag (h : '\x7d' ∉ found.toList) : localOf (owlTag found) = found := by
  have hpos : ∀ c ∈ found.toList.reverse, decide (c ≠ '\x7d') = true := by
    intro c hc
    simpa using fun heq : c = '\x7d' => h (heq ▸ mem_reverse.mp hc)
  have hreverse : (owlTag found).toList.reverse =
      found.toList.reverse ++ '\x7d' :: (owlNs.toList.reverse ++ ['\x7b']) := by
    simp [toList_owlTag]
  rw [localOf, hreverse, takeWhile_append_of_pos hpos]
  simp [String.ofList_toList]

theorem name_of_tag (h : '\x7d' ∉ found.toList) (htag : element.tag = owlTag found) : name element = .ok found := by
  have hns : namespaceOf element.tag = owlNs := htag ▸ namespaceOf_owlTag found
  rw [name, if_neg (not_not.mpr hns), htag, localOf_owlTag h]

theorem brace_not_mem_name (c : Constructor) : '\x7d' ∉ c.name.toList := by
  cases c <;> decide +kernel

theorem brace_not_mem_className (n : Node) : '\x7d' ∉ n.className.toList := by
  unfold Node.className
  split
  · rename_i kind _
    cases kind <;> decide +kernel
  · exact brace_not_mem_name _

theorem find?_name (c : Constructor) : Constructor.all.find? (fun c' => c'.name = c.name) = some c := by
  cases c <;> decide +kernel

theorem find?_className (kind : EntityKind) :
    EntityKind.all.find? (fun kind' => kind'.className = kind.className) = some kind := by
  cases kind <;> decide +kernel

theorem formOf_name (h : table c = some form) :
    formOf table c.name = some (c, form) := by
  simp [formOf, find?_name, h]

variable {n : Node}

theorem kind?_eq_none (h : n.constructor ≠ .entity) : n.kind? = none := by
  cases hkind : n.kind? with
  | none => rfl
  | some kind => exact absurd (Node.constructor_of_kind? hkind) h

theorem className_of_ne_entity (h : n.constructor ≠ .entity) : n.className = n.constructor.name := by
  simp [Node.className, kind?_eq_none h]

theorem className_annotation (h : n.isInstance [annotationClass]) : n.className = "Annotation" := by
  have hc : n.constructor = .annotationNode := by
    simpa [Node.isInstance, Node.hasClass, annotationClass] using h
  rw [className_of_ne_entity (by simp [hc]), hc]
  rfl

theorem className_eq_annotation (h : n.className = "Annotation") : n.constructor = .annotationNode := by
  unfold Node.className at h
  split at h
  · rename_i kind _
    cases kind <;> exact absurd h (by decide +kernel)
  · cases hc : n.constructor <;> rw [hc] at h <;> first | rfl | exact absurd h (by decide +kernel)

end

/-- The classes whose values a method of the parser returns. -/
def Reader.expected : Reader → List NodeClass
  | .entity => [.anyEntity]
  | .entityOf kind => [.entity kind]
  | .objectProperty => objectPropertyExpressionTypes
  | .subObjectProperty => subObjectPropertyExpressionTypes
  | .classExpression => classExpressionTypes
  | .dataRange => dataRangeTypes
  | .facet => [.ofConstructor .facetRestriction]
  | .individual => individualTypes
  | .literal => [literalClass]
  | .iriElement => [iriClass]
  | .annotationSubject => annotationSubjectTypes
  | .annotationValue => annotationValueTypes
  | .annotationElement => [annotationClass]

namespace Form

/-- The checks of a constructor's fields are those the form was written for. -/
def agrees : Form → List FieldCheck → Bool
  | .positional readers, checks => checks = readers.map fun r => .node r.expected
  | .members r, [.canonicalSet expected _ _] => expected = r.expected
  | .headed minimum _ h r, [.node first, .canonicalSet expected least _] =>
    first = h.expected ∧ expected = r.expected ∧ minimum ≤ least + 1
  | .quantified, [.structuralTuple properties least, .node filler] =>
    properties = [dataPropertyClass] ∧ 1 ≤ least ∧ filler = dataRangeTypes
  | .counted p f _, [.nonnegativeInteger, .node property, .node filler] =>
    property = p.expected ∧ filler = f.expected
  | _, _ => false

/-- The fields that a form reads back, annotations apart. -/
inductive Fits : Form → List (Value Node) → Prop where
  | positional {readers : List Reader} {ks : List Node}
      (h : Forall₂ (fun r k => k.isInstance r.expected) readers ks) :
      Fits (.positional readers) (ks.map .node)
  | members {r : Reader} {ms : List Node} (h : ∀ m ∈ ms, m.isInstance r.expected) : Fits (.members r) [.set ms]
  | headed {minimum : Nat} {message : String} {h r : Reader} {k : Node} {ms : List Node}
      (hk : k.isInstance h.expected) (hms : ∀ m ∈ ms, m.isInstance r.expected) (hmin : minimum ≤ ms.length + 1) :
      Fits (.headed minimum message h r) [.node k, .set ms]
  | quantified {ps : List Node} {k : Node} (hps : ∀ p ∈ ps, p.isInstance [dataPropertyClass]) (hne : ps ≠ [])
      (hk : k.isInstance dataRangeTypes) : Fits .quantified [.sequence ps, .node k]
  | counted {p f : Reader} {absent : Node} {i : Nat} {k m : Node} (hk : k.isInstance p.expected)
      (hm : m.isInstance f.expected) : Fits (.counted p f absent) [.integer i, .node k, .node m]
  | hasKey {k : Node} {objects datas : List Node} (hk : k.isInstance classExpressionTypes)
      (hobjects : ∀ m ∈ objects, m.isInstance objectPropertyExpressionTypes)
      (hdatas : ∀ m ∈ datas, m.isInstance [dataPropertyClass]) (hne : ¬(objects = [] ∧ datas = [])) :
      Fits .hasKey [.node k, .set objects, .set datas]

theorem node_of_sound (h : FieldSound spec v) (hcheck : spec.check = .node expected) :
    ∃ k, v = .node k ∧ k.isInstance expected := by
  have hfits := h.fits
  simpa only [FieldFits, hcheck] using hfits

theorem set_of_sound {spec : FieldSpec} {v : Value Node} (h : FieldSound spec v) {expected : List NodeClass}
    {least : Nat} {flatten : Option Constructor} (hcheck : spec.check = .canonicalSet expected least flatten) :
    ∃ ms, v = .set ms ∧ (∀ m ∈ ms, m.isInstance expected) ∧ least ≤ ms.length := by
  have hfits := h.fits
  simp only [FieldFits, hcheck] at hfits
  obtain ⟨ms, rfl, hms⟩ := hfits
  exact ⟨ms, rfl, fun m hm => (hms m hm).1, h.minimum _ _ _ hcheck⟩

variable {fields : List (Value Node)}

theorem fits_positional {readers : List Reader} {specs : List FieldSpec}
    (hchecks : specs.map FieldSpec.check = readers.map fun r => .node r.expected)
    (hfields : Forall₂ FieldSound specs fields) :
    ∃ ks : List Node, fields = ks.map .node ∧ Forall₂ (fun r k => k.isInstance r.expected) readers ks := by
  induction hfields generalizing readers with
  | nil =>
    obtain rfl : readers = [] := by simpa using hchecks.symm
    exact ⟨[], rfl, .nil⟩
  | @cons spec v specs fields hv _ ih =>
    cases readers with
    | nil => simp at hchecks
    | cons r readers =>
      rw [map_cons, map_cons, List.cons.injEq] at hchecks
      obtain ⟨ks, rfl, hks⟩ := ih hchecks.2
      have hfits := hv.fits
      simp only [FieldFits, hchecks.1] at hfits
      obtain ⟨k, rfl, hk⟩ := hfits
      exact ⟨k :: ks, rfl, .cons hk hks⟩

theorem agrees_fits {form : Form} {specs : List FieldSpec}
    (hagrees : form.agrees (specs.map FieldSpec.check)) (hfields : Forall₂ FieldSound specs fields) :
    form.Fits fields := by
  have hpaired : Forall₂ (fun check v => ∃ spec, spec.check = check ∧ FieldSound spec v)
      (specs.map FieldSpec.check) fields :=
    forall₂_map_left_iff.mpr (hfields.imp fun spec v hv => ⟨spec, rfl, hv⟩)
  generalize hchecks : specs.map FieldSpec.check = checks at hagrees hpaired
  unfold agrees at hagrees
  split at hagrees
  · obtain ⟨ks, rfl, hks⟩ := fits_positional (hchecks.trans (of_decide_eq_true hagrees)) hfields
    exact .positional hks
  · obtain ⟨v, rfl, spec, hspec, hv⟩ := forall₂_single hpaired
    obtain ⟨ms, rfl, hms, -⟩ := set_of_sound hv hspec
    obtain rfl := of_decide_eq_true hagrees
    exact .members hms
  · obtain ⟨v, w, rfl, ⟨first, hfirst, hv⟩, second, hsecond, hw⟩ := forall₂_pair hpaired
    obtain ⟨k, rfl, hk⟩ := node_of_sound hv hfirst
    obtain ⟨ms, rfl, hms, hleast⟩ := set_of_sound hw hsecond
    obtain ⟨rfl, rfl, hmin⟩ := of_decide_eq_true hagrees
    exact .headed hk hms (by omega)
  · obtain ⟨v, w, rfl, ⟨first, hfirst, hv⟩, second, hsecond, hw⟩ := forall₂_pair hpaired
    have hfits := hv.fits
    simp only [FieldFits, hfirst] at hfits
    obtain ⟨ps, rfl, hps, hleast⟩ := hfits
    obtain ⟨k, rfl, hk⟩ := node_of_sound hw hsecond
    obtain ⟨rfl, hone, rfl⟩ := of_decide_eq_true hagrees
    exact .quantified hps (ne_nil_of_length_pos (by omega)) hk
  · obtain ⟨v, w, u, rfl, ⟨first, hfirst, hv⟩, ⟨second, hsecond, hw⟩, third, hthird, hu⟩ := forall₂_triple hpaired
    have hfits := hv.fits
    simp only [FieldFits, hfirst] at hfits
    obtain ⟨i, rfl⟩ := hfits
    obtain ⟨k, rfl, hk⟩ := node_of_sound hw hsecond
    obtain ⟨m, rfl, hm⟩ := node_of_sound hu hthird
    obtain ⟨rfl, rfl⟩ := of_decide_eq_true hagrees
    exact .counted hk hm
  · cases hagrees

/-- None of the readers of a form is the one for annotations. -/
def plain : Form → Bool
  | .positional readers => readers.all (· ≠ .annotationElement)
  | .members r => r ≠ .annotationElement
  | .headed _ _ h r => h ≠ .annotationElement ∧ r ≠ .annotationElement
  | .counted p f _ => p ≠ .annotationElement ∧ f ≠ .annotationElement
  | .quantified | .hasKey => true

theorem className_ne {r : Reader} {k : Node} (hr : r ≠ .annotationElement) (h : k.isInstance r.expected) :
    k.className ≠ "Annotation" := by
  intro hname
  have hc := className_eq_annotation hname
  have hkind : k.kind? = none := kind?_eq_none (by simp [hc])
  cases r <;>
    simp [Reader.expected, Node.isInstance, Node.hasClass, hc, hkind, objectPropertyExpressionTypes,
      subObjectPropertyExpressionTypes, classExpressionTypes, dataRangeTypes, individualTypes, annotationSubjectTypes,
      annotationValueTypes, objectPropertyClass, classClass, datatypeClass, iriClass, literalClass] at h hr

theorem Fits.exists_reader {form : Form} (h : form.Fits fields) {k : Node}
    (hk : k ∈ fields.flatMap Value.nodes) : ∃ r : Reader, k.isInstance r.expected ∧ (form.plain → r ≠ .annotationElement) := by
  cases h with
  | positional h =>
    simp only [flatMap_map, Value.nodes_node, flatMap_singleton'] at hk
    obtain ⟨r, hr, hinst⟩ := exists_of_forall₂ (R := fun (k : Node) (r : Reader) => k.isInstance r.expected) h.flip hk
    exact ⟨r, hinst, fun hplain => by simpa using all_eq_true.mp hplain r hr⟩
  | @members r ms h => exact ⟨r, h k (by simpa using hk), fun hplain => by simpa [plain] using hplain⟩
  | @headed minimum message h r k' ms hk' hms _ =>
    have hk : k = k' ∨ k ∈ ms := by simpa using hk
    rcases hk with rfl | hk
    · exact ⟨h, hk', fun hplain => (of_decide_eq_true hplain).1⟩
    · exact ⟨r, hms k hk, fun hplain => (of_decide_eq_true hplain).2⟩
  | @quantified ps k' hps _ hk' =>
    have hk : k ∈ ps ∨ k = k' := by simpa using hk
    rcases hk with hk | rfl
    · exact ⟨.entityOf .dataProperty, hps k hk, by simp⟩
    · exact ⟨.dataRange, hk', by simp⟩
  | @counted p f absent i k' m hk' hm =>
    have hk : k = k' ∨ k = m := by simpa [Value.nodes] using hk
    rcases hk with rfl | rfl
    · exact ⟨p, hk', fun hplain => (of_decide_eq_true hplain).1⟩
    · exact ⟨f, hm, fun hplain => (of_decide_eq_true hplain).2⟩
  | @hasKey k' objects datas hk' hobjects hdatas _ =>
    have hk : k = k' ∨ k ∈ objects ∨ k ∈ datas := by simpa using hk
    rcases hk with rfl | hk | hk
    · exact ⟨.classExpression, hk', by simp⟩
    · exact ⟨.objectProperty, hobjects k hk, by simp⟩
    · exact ⟨.entityOf .dataProperty, hdatas k hk, by simp⟩

theorem Fits.className_ne {form : Form} (h : form.Fits fields) (hplain : form.plain) :
    ∀ k ∈ fields.flatMap Value.nodes, k.className ≠ "Annotation" := by
  intro k hk
  obtain ⟨r, hinst, hr⟩ := h.exists_reader hk
  exact Form.className_ne (hr hplain) hinst

end Form

section

variable {form : Form}

theorem axiomForm_agrees (h : axiomForm c = some form)
    (hown : c.ownBody = false) : form.agrees (c.fieldSpecs.dropLast.map FieldSpec.check) ∧
      c.fieldSpecs.getLast? = some annotations := by
  cases c <;> simp only [axiomForm, Option.some.injEq, reduceCtorEq] at h <;> subst h <;>
    first | exact ⟨by decide +kernel, rfl⟩ | exact absurd hown (by decide)

theorem axiomForm_plain (h : axiomForm c = some form) : form.plain := by
  cases c <;> simp only [axiomForm, Option.some.injEq, reduceCtorEq] at h <;> subst h <;> decide +kernel

theorem classExpressionForm_agrees (h : classExpressionForm c = some form) :
    form.agrees (c.fieldSpecs.map FieldSpec.check) ∧ c.ownBody = false := by
  cases c <;> simp only [classExpressionForm, Option.some.injEq, reduceCtorEq] at h <;> subst h <;>
    exact ⟨by decide +kernel, rfl⟩

theorem dataRangeForm_agrees (h : dataRangeForm c = some form) :
    form.agrees (c.fieldSpecs.map FieldSpec.check) ∧ c.ownBody = false := by
  cases c <;> simp only [dataRangeForm, Option.some.injEq, reduceCtorEq] at h <;> subst h <;>
    exact ⟨by decide +kernel, rfl⟩

end

section

variable {g : AnonymousIndividual → AnonymousIndividual}

/-- A child whose readings are a value renamed by `g`. -/
structure Child.Reads (g : AnonymousIndividual → AnonymousIndividual) (k : Node) (child : Child) : Prop where
  named : name child.element = .ok k.className
  read : ∀ r : Reader, k.isInstance r.expected → child.read r = .ok (k.mapAnonymous g)

/-- A field with its nested values renamed and its set built anew. -/
def image (g : AnonymousIndividual → AnonymousIndividual) (v : Value Node) : Value Node :=
  (v.map (Node.mapAnonymous g)).rebuild

variable {ms : List Node} {children : List Child} {r : Reader}

theorem readAll (h : Forall₂ (Child.Reads g) ms children) (hms : ∀ m ∈ ms, m.isInstance r.expected) :
    (children.mapM fun child => child.read r) = .ok (ms.map (Node.mapAnonymous g)) := by
  rw [mapM_eq_ok, forall₂_map_right_iff]
  refine ((forall₂_and_left _ _).mpr ⟨hms, h⟩).flip.imp ?_
  exact fun child m hm => hm.2.read r hm.1

theorem readSet_eq (h : Forall₂ (Child.Reads g) ms children) (hms : ∀ m ∈ ms, m.isInstance r.expected) :
    readSet r children = canonicalSetOf (ms.map (Node.mapAnonymous g)) := by
  have hloop : (children.mapM fun child => do let value ← child.read r; keyed value) =
      (ms.map (Node.mapAnonymous g)).mapM keyed := by
    induction h with
    | nil => rfl
    | cons hk _ ih =>
      rw [map_cons, mapM_cons, mapM_cons, hk.read r (hms _ (by simp)), ih fun m hm => hms m (by simp [hm])]
      rfl
  rw [readSet, hloop]
  rfl

theorem canonicalSetOf_image (h : ∀ m ∈ ms, (m.mapAnonymous g).Encodable defaultLimits) :
    canonicalSetOf (ms.map (Node.mapAnonymous g)) = .ok (KeyedSet.ofList Node.bytes (ms.map (Node.mapAnonymous g))) :=
  canonicalSetOf_ok_iff.mpr ⟨by simpa using h, rfl⟩

theorem readNamed_ok (names : List String) (h : Forall₂ (Child.Reads g) ms children)
    (hms : ∀ m ∈ ms, m.className ∈ names → m.isInstance r.expected) :
    readNamed names r children = .ok ((ms.filter fun m => m.className ∈ names).map (Node.mapAnonymous g)) := by
  induction h with
  | nil => rfl
  | @cons k child ms children hk _ ih =>
    have hrest := ih fun m hm => hms m (by simp [hm])
    rw [readNamed, hk.named]
    by_cases hmem : k.className ∈ names
    · simp only [bind, Except.bind, if_pos hmem, hk.read r (hms k (by simp) hmem), hrest]
      simp [hmem]
    · simp only [bind, Except.bind, if_neg hmem, hrest]
      simp [hmem]

theorem readSlots (hr : Forall₂ (fun r k => k.isInstance r.expected) readers ms) (h : Forall₂ (Child.Reads g) ms
    children) :
    ((readers.zip children).mapM fun slot => slot.2.read slot.1) = .ok (ms.map (Node.mapAnonymous g)) := by
  induction hr generalizing children with
  | nil => rfl
  | @cons r k readers ms hinst _ ih =>
    obtain ⟨child, rest, hk, hrest, rfl⟩ := forall₂_cons_left_iff.mp h
    rw [zip_cons_cons, mapM_cons, hk.read r hinst, ih hrest]
    rfl

theorem forall₂_append_left (h : Forall₂ R (l ++ l') m) : ∃ u v, m = u ++ v ∧ Forall₂ R l u ∧ Forall₂ R l' v := by
  induction l generalizing m with
  | nil => exact ⟨[], m, rfl, .nil, h⟩
  | cons a l ih =>
    obtain ⟨b, m, hab, hrest, rfl⟩ := forall₂_cons_left_iff.mp h
    obtain ⟨u, v, rfl, hu, hv⟩ := ih hrest
    exact ⟨b :: u, v, rfl, .cons hab hu, hv⟩

theorem className_objectProperty {m : Node} (h : m.isInstance objectPropertyExpressionTypes) :
    m.className = "ObjectProperty" ∨ m.className = "ObjectInverseOf" := by
  have hcases : m.kind? = some .objectProperty ∨ m.constructor = .objectInverseOf := by
    simpa [Node.isInstance, objectPropertyExpressionTypes, Node.hasClass, objectPropertyClass] using h
  rcases hcases with hkind | hc
  · exact .inl (by simp [Node.className, hkind, EntityKind.className])
  · exact .inr (by rw [className_of_ne_entity (by simp [hc]), hc]; rfl)

theorem className_entity {m : Node} {kind : EntityKind} (h : m.isInstance [.entity kind]) :
    m.className = kind.className := by
  have hkind : m.kind? = some kind := by simpa [Node.isInstance, Node.hasClass] using h
  simp [Node.className, hkind]

theorem arguments_ok (interpreter : Interpreter) (element : Element) (found : String) {form : Form}
    {fields : List (Value Node)}
    (hfits : form.Fits fields) (hchildren : Forall₂ (Child.Reads g) (fields.flatMap Value.nodes) children)
    (hencodable : ∀ ms, .set ms ∈ fields → ∀ m ∈ ms, (m.mapAnonymous g).Encodable defaultLimits)
    (hcardinality : ∀ i, .integer i ∈ fields → cardinality interpreter element = .ok i) :
    arguments interpreter found element children form = .ok (fields.map fun v => Arg.ofValue (image g v)) := by
  cases hfits with
  | @positional readers ks h =>
    have hflat : (ks.map Value.node).flatMap Value.nodes = ks := by simp [flatMap_map]
    rw [hflat] at hchildren
    have hlength : children.length = readers.length := by rw [← hchildren.length_eq, h.length_eq]
    simp only [arguments, if_neg (not_not.mpr hlength), readSlots h hchildren, bind, Except.bind]
    simp [Function.comp_def, image, Value.map, Value.rebuild]
  | @members r ms h =>
    rw [flatMap_singleton, Value.nodes_set] at hchildren
    rw [arguments, readSet_eq hchildren h, canonicalSetOf_image (hencodable ms (by simp))]
    rfl
  | @headed minimum message h r k ms hk hms hmin =>
    obtain ⟨first, rest, hfirst, hrest, rfl⟩ := forall₂_cons_left_iff.mp hchildren
    have hrest : Forall₂ (Child.Reads g) ms rest := by simpa using hrest
    have hlength : ¬(first :: rest).length < minimum := by
      rw [length_cons, ← hrest.length_eq]
      omega
    simp only [arguments, if_neg hlength, hfirst.read h hk, readSet_eq hrest hms,
      canonicalSetOf_image (hencodable ms (by simp)), bind, Except.bind]
    rfl
  | @quantified ps k hps hne hk =>
    rw [flatMap_cons, flatMap_singleton, Value.nodes_sequence, Value.nodes_node] at hchildren
    obtain ⟨properties, tail, rfl, hproperties, htail⟩ := forall₂_append_left hchildren
    obtain ⟨last, rfl, hlast⟩ := forall₂_single htail
    have hlength : ¬(properties ++ [last]).length < 2 := by
      have hpos := length_pos_iff.mpr hne
      rw [length_append, ← hproperties.length_eq, length_singleton]
      omega
    simp only [arguments, if_neg hlength, getLast?_concat, dropLast_concat,
      readAll (r := .entityOf .dataProperty) hproperties hps, hlast.read .dataRange hk, bind, Except.bind]
    simp [image, Value.map, Value.rebuild, Arg.ofValue]
  | @counted p f absent i k m hk hm =>
    have hchildren : Forall₂ (Child.Reads g) [k, m] children := by simpa [Value.nodes] using hchildren
    obtain ⟨first, second, rfl, hfirst, hsecond⟩ := forall₂_pair hchildren
    simp only [arguments, hcardinality i (by simp), hfirst.read p hk, hsecond.read f hm, bind, Except.bind]
    rfl
  | @hasKey k objects datas hk hobjects hdatas hne =>
    obtain ⟨first, rest, hfirst, hrest, rfl⟩ := forall₂_cons_left_iff.mp hchildren
    have hrest : Forall₂ (Child.Reads g) (objects ++ datas) rest := by simpa using hrest
    have hdataName : ∀ m ∈ datas, m.className = "DataProperty" := fun m hm => className_entity (hdatas m hm)
    have hobjectsOnly : (objects ++ datas).filter (fun m => m.className ∈ ["ObjectProperty", "ObjectInverseOf"]) =
        objects := by
      rw [filter_append, filter_eq_self.mpr, filter_eq_nil_iff.mpr, append_nil]
      · exact fun m hm => by simp [hdataName m hm]
      · exact fun m hm => by simpa using className_objectProperty (hobjects m hm)
    have hdatasOnly : (objects ++ datas).filter (fun m => m.className ∈ ["DataProperty"]) = datas := by
      rw [filter_append, filter_eq_nil_iff.mpr, filter_eq_self.mpr, nil_append]
      · exact fun m hm => by simp [hdataName m hm]
      · intro m hm
        rcases className_objectProperty (hobjects m hm) with hname | hname <;> simp [hname]
    have hobjectRead := readNamed_ok (r := .objectProperty) ["ObjectProperty", "ObjectInverseOf"] hrest (by
      intro m hm hname
      rcases mem_append.mp hm with hm | hm
      · exact hobjects m hm
      · simp [hdataName m hm] at hname)
    have hdataRead := readNamed_ok (r := .entityOf .dataProperty) ["DataProperty"] hrest (by
      intro m hm hname
      rcases mem_append.mp hm with hm | hm
      · rcases className_objectProperty (hobjects m hm) with hobject | hobject <;> simp [hobject] at hname
      · exact hdatas m hm)
    rw [hobjectsOnly] at hobjectRead
    rw [hdatasOnly] at hdataRead
    have hlength : (objects.map (Node.mapAnonymous g)).length + (datas.map (Node.mapAnonymous g)).length =
        rest.length := by
      rw [length_map, length_map, ← hrest.length_eq, length_append]
    cases rest with
    | nil =>
      have hnil := forall₂_nil_right_iff.mp hrest
      exact absurd (append_eq_nil_iff.mp hnil) hne
    | cons second rest =>
      simp only [arguments, hfirst.read .classExpression hk, hobjectRead, hdataRead, bind, Except.bind,
        if_neg (not_not.mpr hlength), canonicalSetOf_image (hencodable objects (by simp)),
        canonicalSetOf_image (hencodable datas (by simp))]
      rfl

theorem leading_ok (count : Nat) (h : Forall₂ (Child.Reads g) ms children) (hms : ∀ m ∈ ms, m.isInstance
    [annotationClass]) (hothers : Forall₂ (Child.Reads g) others rest) (hplain : ∀ k ∈ others, k.className ≠
    "Annotation") (hcount : count + ms.length ≤ limits.maxAnnotations) :
    leading limits count (children ++ rest) = .ok (ms.map (Node.mapAnonymous g), rest) := by
  induction h generalizing count with
  | nil =>
    cases hothers with
    | nil => rfl
    | @cons k child _ _ hk _ =>
      rw [nil_append, leading, hk.named]
      simp only [bind, Except.bind, if_neg (hplain k (by simp))]
      rfl
  | @cons k child ms children hk _ ih =>
    have hinst := hms k (by simp)
    have hname : k.className = "Annotation" := className_annotation hinst
    rw [length_cons] at hcount
    have henforce : enforce "max_annotations" (count + 1) limits.maxAnnotations = .ok () := if_pos (by omega)
    rw [cons_append, leading, hk.named]
    simp only [bind, Except.bind, hname, if_true, hk.read .annotationElement hinst, henforce,
      ih (count + 1) (fun m hm => hms m (by simp [hm])) (by omega)]
    rfl

theorem leadingAnnotations_ok (limits : ParseLimits) (h : Forall₂ (Child.Reads g) ms children) (hms : ∀ m ∈ ms,
    m.isInstance [annotationClass]) (hothers : Forall₂ (Child.Reads g) others rest) (hplain : ∀ k ∈ others,
    k.className ≠ "Annotation") (hcount : ms.length ≤ limits.maxAnnotations) (hencodable : ∀ m ∈ ms, (m.mapAnonymous
    g).Encodable defaultLimits) :
    leadingAnnotations limits (children ++ rest) =
      .ok (KeyedSet.ofList Node.bytes (ms.map (Node.mapAnonymous g)), rest) := by
  rw [leadingAnnotations, leading_ok 0 h hms hothers hplain (by omega)]
  simp only [bind, Except.bind, canonicalSetOf_image hencodable]

end

end OwlXml

end OwlCore
