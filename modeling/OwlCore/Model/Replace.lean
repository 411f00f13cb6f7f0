import OwlCore.Model.Individuals

/-!
# Replacing anonymous individuals through the constructors

A value is rebuilt with other anonymous individuals by calling the class of every value on its
rebuilt fields. When `replaceAnonymous` succeeds it returns the renaming, and a renaming that
keeps the individuals apart can fail only on a set member without canonical bytes.
-/
namespace OwlCore

open Fallible KeyedSet List Node

def replaceArg : Value (Except Error Node) → Except Error Arg
  | .none => .ok .none
  | .node replaced => .node <$> replaced
  | .text value => .ok (.text value)
  | .bytes value => .ok (.bytes value)
  | .integer value => .ok (.integer value)
  | .enum value => .ok (.enum value)
  | .set members => do
    let members ← members.mapM id
    .set <$> canonicalSetOf members
  | .sequence items => do
    let items ← items.mapM id
    .ok (.tuple (items.map .node))

/-- `_replace_blanks` and its siblings, with the image of one individual as a parameter. -/
def replaceAnonymous (replace : AnonymousIndividual → Except Error AnonymousIndividual) :
    Node → Except Error Node :=
  Node.para fun n fields => match n.anonymous? with
    | some a => AnonymousIndividual.node <$> replace a
    | none =>
      if n.constructor ∈ [Constructor.iri, .entity, .literal] then .ok n
      else do
        let args ← fields.mapM replaceArg
        construct n.constructor args

theorem Node.constructor_of_kind? {n : Node} (h : n.kind? = some kind) :
    n.constructor = .entity := by
  unfold Node.kind? at h
  split at h
  · assumption
  · cases h

theorem Node.constructor_of_entity {n : Node} (h : n.isInstance [.entity kind]) : n.constructor = .entity := by
  have hkind : n.kind? = some kind := by simpa [Node.isInstance, Node.hasClass] using h
  exact constructor_of_kind? hkind

theorem Constructible.call (h : Constructible n) :
    ∃ args, construct n.constructor args = .ok n ∧ ∀ a ∈ args, ∀ m ∈ a.nodes, Constructible m := by
  cases h with
  | @intro c args _ nested call =>
    have hsound := construct_sound call fun a ha m hm => (nested a ha m hm).sound
    rw [← hsound.2.constructor_eq] at call
    exact ⟨args, call, nested⟩

/-- At every level, the class called on the fields of the value returns the value. -/
def Node.rebuilds : Node → Bool :=
  Node.para fun n nested =>
    construct n.constructor (n.fields.map .ofValue) = .ok n ∧ nested.all fun v => v.nodes.all id

theorem constructible_of_rebuilds (h : n.rebuilds) : Constructible n := by
  induction n using Node.induct with
  | step n ih =>
    have hunfold : n.rebuilds = decide (construct n.constructor (n.fields.map .ofValue) = .ok n ∧
        (n.fields.map (Value.map Node.rebuilds)).all fun v => v.nodes.all id) := para_eq _ n
    simp only [hunfold, decide_eq_true_eq, all_map, Function.comp_def, Value.nodes_map, all_eq_true, id_eq] at h
    obtain ⟨hcall, hnested⟩ := h
    refine .intro (fun a ha m hm => ?_) hcall
    obtain ⟨v, hv, rfl⟩ := mem_map.mp ha
    rw [Arg.nodes_ofValue] at hm
    exact ih m (mem_children.mpr ⟨v, hv, hm⟩) (hnested v hv m hm)

theorem construct_iri_ok (h : construct .iri args = .ok n) :
    n.children = [] := by
  match args, h with
  | [value], h =>
    obtain ⟨rfl, -⟩ := constructIRI_ok h
    cases value <;> rfl
  | [], h | _ :: _ :: _, h => cases h

theorem construct_entity_ok (h : construct .entity args = .ok n) :
    ∃ iri, n.children = [iri] ∧ iri.constructor = .iri := by
  match args, h with
  | [kind, iri], h =>
    cases kind with
    | enum kind =>
      obtain ⟨m, hm, hresult⟩ := bind_eq_ok.mp h
      obtain ⟨rfl, hinst⟩ := requireNode_ok hm
      obtain rfl := Except.ok.inj hresult
      refine ⟨m, rfl, ?_⟩
      simpa [Node.isInstance, Node.hasClass, Schema.iriClass] using hinst
    | _ => cases h
  | [], h | [_], h | _ :: _ :: _ :: _, h => cases h

theorem construct_literal_ok {n : Node} (h : construct .literal args = .ok n) :
    ∃ datatype, n.children = [datatype] ∧ datatype.constructor = .entity := by
  match args, h with
  | [lexical, datatype, language], h =>
    obtain ⟨text, d, v, htext, rfl, hinst, hv, -, rfl⟩ := constructLiteral_ok h
    have hvnodes : v.nodes = [] := by
      obtain ⟨-, rfl⟩ | ⟨_, _, _, _, rfl⟩ := literalLanguage_ok hv <;> rfl
    have htnodes : (textField lexical).nodes = [] := by cases lexical <;> rfl
    exact ⟨d, by simp [Node.children, hvnodes, htnodes], constructor_of_entity hinst⟩
  | [], h | [_], h | [_, _], h | _ :: _ :: _ :: _ :: _, h => cases h

/-- A value whose nested values hold no anonymous individual, and which is not one itself. -/
theorem Node.anonymousValues_eq_nil {n : Node} (hc : n.constructor ≠ .anonymousIndividual)
    (h : ∀ m ∈ n.children, m.anonymousValues = []) : n.anonymousValues = [] := by
  rw [eq_nil_iff_forall_not_mem]
  intro a ha
  rcases mem_anonymousValues.mp ha with rfl | ⟨m, hm, hma⟩
  · exact hc rfl
  · simp [h m hm] at hma

namespace Constructible

variable {n : Node}

section

variable (h : Constructible n)

include h

theorem anonymousValues_iri (hc : n.constructor = .iri) :
    n.anonymousValues = [] := by
  obtain ⟨args, call, -⟩ := h.call
  rw [hc] at call
  apply anonymousValues_eq_nil (by simp [hc])
  simp [construct_iri_ok call]

theorem anonymousValues_entity (hc : n.constructor = .entity) :
    n.anonymousValues = [] := by
  obtain ⟨args, call, -⟩ := h.call
  rw [hc] at call
  obtain ⟨iri, hchildren, hiri⟩ := construct_entity_ok call
  apply anonymousValues_eq_nil (by simp [hc])
  intro m hm
  have hm' : m = iri := by simpa [hchildren] using hm
  exact (h.child hm).anonymousValues_iri (hm' ▸ hiri)

theorem anonymousValues_literal (hc : n.constructor = .literal) :
    n.anonymousValues = [] := by
  obtain ⟨args, call, -⟩ := h.call
  rw [hc] at call
  obtain ⟨datatype, hchildren, hdatatype⟩ := construct_literal_ok call
  apply anonymousValues_eq_nil (by simp [hc])
  intro m hm
  have hm' : m = datatype := by simpa [hchildren] using hm
  exact (h.child hm).anonymousValues_entity (hm' ▸ hdatatype)

theorem anonymousValues_leaf (hc : n.constructor ∈ [Constructor.iri, .entity, .literal]) : n.anonymousValues = [] := by
  simp only [mem_cons, not_mem_nil, or_false] at hc
  rcases hc with hc | hc | hc
  · exact h.anonymousValues_iri hc
  · exact h.anonymousValues_entity hc
  · exact h.anonymousValues_literal hc

theorem fields_sound (hc : n.constructor.ownBody = false) :
    Forall₂ FieldSound n.constructor.fieldSpecs n.fields := by
  have hstable := h.sound.stable fun hliteral => by simp [hliteral, Constructor.ownBody] at hc
  rw [Constructor.construct_eq hc] at hstable
  obtain ⟨fields, hfields, hn⟩ := map_eq_ok.mp hstable
  obtain rfl : fields = n.fields := by rw [← hn, fields_mk]
  refine (checkFields_sound hfields ?_).1
  intro a ha m hm spec hspec expected minimum flatten hcheck
  obtain ⟨v, hv, rfl⟩ := mem_map.mp ha
  rw [Arg.nodes_ofValue] at hm
  exact (h.child (mem_children.mpr ⟨v, hv, hm⟩)).sound.spliceable hspec hcheck

theorem anonymousValues_objectPropertyExpression (hinst : n.isInstance Schema.objectPropertyExpressionTypes) : n.anonymousValues = [] := by
  have hcases : n.kind? = some .objectProperty ∨ n.constructor = .objectInverseOf := by
    simpa [Node.isInstance, Schema.objectPropertyExpressionTypes, Node.hasClass, Schema.objectPropertyClass] using hinst
  rcases hcases with hkind | hc
  · exact h.anonymousValues_entity (constructor_of_kind? hkind)
  · have hfields := h.fields_sound (by rw [hc]; rfl)
    rw [hc] at hfields
    obtain ⟨v, rest, hfield, hrest, hn⟩ := forall₂_cons_left_iff.mp hfields
    rw [forall₂_nil_left_iff] at hrest
    obtain ⟨k, rfl, hk⟩ := hfield.fits
    apply anonymousValues_eq_nil (by simp [hc])
    intro m hm
    have hm' : m = k := by simpa [Node.children, hn, hrest] using hm
    rw [hm'] at hm ⊢
    exact (h.child hm).anonymousValues_entity (constructor_of_entity hk)

end

end Constructible

section

variable {g : AnonymousIndividual → AnonymousIndividual} {n : Node}

@[simp] theorem Node.kind?_mapAnonymous : (n.mapAnonymous g).kind? = n.kind? := by
  cases hnone : n.anonymous? with
  | some a =>
    obtain rfl := anonymous?_eq_some.mp hnone
    rw [mapAnonymous_node]
    rfl
  | none =>
    rw [mapAnonymous_of_none hnone]
    cases n with
    | mk c fields =>
      cases fields with
      | nil => rfl
      | cons v rest => cases c <;> first | rfl | cases v <;> rfl

@[simp] theorem Node.isInstance_mapAnonymous (expected : List NodeClass) :
    (n.mapAnonymous g).isInstance expected = n.isInstance expected := by
  have hclass : (n.mapAnonymous g).hasClass = n.hasClass := by
    funext cls
    cases cls <;> simp [Node.hasClass]
  rw [Node.isInstance, Node.isInstance, hclass]

variable {v : Value Node}

theorem mem_of_mem_rebuild (hm : m ∈ (v.map h).rebuild.nodes) : ∃ k ∈ v.nodes, m = h k := by
  have himage : m ∈ (v.map h).nodes := by
    cases v with
    | set ms => exact mem_of_mem_ofList hm
    | _ => exact hm
  rw [Value.nodes_map, mem_map] at himage
  obtain ⟨k, hk, rfl⟩ := himage
  exact ⟨k, hk, rfl⟩

theorem ascending_rebuild (h : v.rebuild = .set ms) :
    Ascending Node.bytes ms := by
  cases v <;> simp only [Value.rebuild, Value.set.injEq, reduceCtorEq] at h
  rw [← h]
  exact ascending_ofList _

theorem FieldFits.image (h : FieldFits spec v) :
    FieldFits spec (v.map (Node.mapAnonymous g)).rebuild := by
  unfold FieldFits at h ⊢
  cases hcheck : spec.check with
  | own => simp [hcheck] at h
  | node expected =>
    simp only [hcheck] at h ⊢
    obtain ⟨k, rfl, hk⟩ := h
    exact ⟨k.mapAnonymous g, rfl, by simpa using hk⟩
  | canonicalSet expected minimum flatten =>
    simp only [hcheck] at h ⊢
    obtain ⟨ms, rfl, hms⟩ := h
    refine ⟨_, rfl, fun m hm => ?_⟩
    obtain ⟨k, hk, rfl⟩ := mem_of_mem_rebuild (v := .set ms) hm
    simpa using hms k hk
  | structuralTuple expected minimum =>
    simp only [hcheck] at h ⊢
    obtain ⟨ms, rfl, hms, hmin⟩ := h
    refine ⟨_, rfl, fun m hm => ?_, by simpa using hmin⟩
    obtain ⟨k, hk, rfl⟩ := mem_map.mp hm
    simpa using hms k hk
  | nonnegativeInteger =>
    simp only [hcheck] at h ⊢
    obtain ⟨i, rfl⟩ := h
    exact ⟨i, rfl⟩
  | annotations =>
    simp only [hcheck] at h ⊢
    obtain ⟨ms, rfl, hms⟩ := h
    refine ⟨_, rfl, fun m hm => ?_⟩
    obtain ⟨k, hk, rfl⟩ := mem_of_mem_rebuild (v := .set ms) hm
    simpa using hms k hk

theorem length_ofList_image (hms : Ascending Node.bytes ms) (hcanonical : ∀ m ∈ ms, m.Canonical) (hinj : ∀ m ∈ ms, ∀ k
    ∈ ms, m.mapAnonymous g = k.mapAnonymous g → m = k) :
    (KeyedSet.ofList Node.bytes (ms.map (Node.mapAnonymous g))).length = ms.length := by
  have hnodup : (ms.map (Node.mapAnonymous g)).Nodup := List.Nodup.map_on hinj hms.nodup
  have hkeys : KeyInjOn Node.bytes (· ∈ ms.map (Node.mapAnonymous g)) := by
    apply keyInjOn_canonical
    intro k hk
    obtain ⟨m, hm, rfl⟩ := mem_map.mp hk
    exact canonical_mapAnonymous (hcanonical m hm)
  rw [(ofList_perm hkeys hnodup).length_eq, length_map]

theorem FieldSound.image (h : FieldSound spec v) (hcanonical : ∀ m ∈ v.nodes, m.Canonical) (hinj : ∀ m ∈ v.nodes, ∀ k
    ∈ v.nodes, m.mapAnonymous g = k.mapAnonymous g → m = k) (hencodable : ∀ ms, (v.map (Node.mapAnonymous g)).rebuild
    = .set ms → ∀ m ∈ ms, m.Encodable defaultLimits) :
    FieldSound spec (v.map (Node.mapAnonymous g)).rebuild := by
  refine ⟨h.fits.image, ?_, fun ms hms => ascending_rebuild hms, hencodable⟩
  intro expected minimum flatten hcheck
  have hfits := h.fits
  simp only [FieldFits, hcheck] at hfits
  obtain ⟨ms, rfl, -⟩ := hfits
  have hlength := length_ofList_image (h.ascending ms rfl) hcanonical hinj
  have hminimum := h.minimum _ _ _ hcheck
  simp only [Value.map, Value.rebuild, Value.arity] at hminimum ⊢
  rwa [hlength]

end

section

variable {n : Node}

/-- The fields of an `InverseObjectProperties` axiom: a pair in order, and annotations. -/
theorem Constructible.inverseObjectProperties_fields (h : Constructible n)
    (hc : n.constructor = .inverseObjectProperties) :
    ∃ first second annotations, n.fields = [.node first, .node second, .set annotations] ∧
      first.isInstance Schema.objectPropertyExpressionTypes ∧
      second.isInstance Schema.objectPropertyExpressionTypes ∧
      nodeLt second first = .ok false ∧ SetSound [Schema.annotationClass] 0 none annotations := by
  obtain ⟨args, call, nested⟩ := h.call
  rw [hc] at call
  match args, call with
  | [a, b, c], call =>
    obtain ⟨p, hp, call⟩ := bind_eq_ok.mp call
    obtain ⟨q, hq, call⟩ := bind_eq_ok.mp call
    obtain ⟨swapped, hlt, call⟩ := bind_eq_ok.mp call
    obtain ⟨members, hmembers, call⟩ := bind_eq_ok.mp call
    obtain ⟨rfl, hpinst⟩ := requireNode_ok hp
    obtain ⟨rfl, hqinst⟩ := requireNode_ok hq
    obtain ⟨hqenc, hpenc, rfl⟩ := nodeLt_ok_iff.mp hlt
    have hset := (normalizeAnnotations_sound hmembers).1
    by_cases hswap : q.bytes < p.bytes
    · simp only [hswap, decide_true, if_true] at call
      obtain rfl := Except.ok.inj call
      refine ⟨q, p, members, rfl, hqinst, hpinst, nodeLt_ok_iff.mpr ⟨hpenc, hqenc, ?_⟩, hset⟩
      simpa using le_of_lt hswap
    · simp only [hswap, decide_false, Bool.false_eq_true, if_false] at call
      obtain rfl := Except.ok.inj call
      exact ⟨p, q, members, rfl, hpinst, hqinst, nodeLt_ok_iff.mpr ⟨hqenc, hpenc, by simpa using hswap⟩, hset⟩
  | [], call | [_], call | [_, _], call | _ :: _ :: _ :: _ :: _, call => cases call

/-- The fields of a `HasKey` axiom. -/
theorem Constructible.hasKey_fields (h : Constructible n) (hc : n.constructor = .hasKey) :
    ∃ cls objects datas annotations, n.fields = [.node cls, .set objects, .set datas, .set annotations] ∧
      cls.isInstance Schema.classExpressionTypes ∧
      SetSound Schema.objectPropertyExpressionTypes 0 none objects ∧
      SetSound [Schema.dataPropertyClass] 0 none datas ∧ ¬(objects = [] ∧ datas = []) ∧
      SetSound [Schema.annotationClass] 0 none annotations := by
  obtain ⟨args, call, nested⟩ := h.call
  rw [hc] at call
  match args, call with
  | [a, b, c, d], call =>
    obtain ⟨e, he, call⟩ := bind_eq_ok.mp call
    obtain ⟨objectItems, hoitems, call⟩ := bind_eq_ok.mp call
    obtain ⟨os, hos, call⟩ := bind_eq_ok.mp call
    obtain ⟨dataItems, hditems, call⟩ := bind_eq_ok.mp call
    obtain ⟨ds, hds, call⟩ := bind_eq_ok.mp call
    obtain ⟨hnonempty, call⟩ := guard_eq_ok.mp call
    obtain ⟨as, has, call⟩ := bind_eq_ok.mp call
    obtain rfl := Except.ok.inj call
    exact ⟨e, os, ds, as, rfl, (requireNode_ok he).2, (canonicalSet_origin hoitems hos).1,
      (canonicalSet_origin hditems hds).1, hnonempty, (normalizeAnnotations_sound has).1⟩
  | [], call | [_], call | [_, _], call | [_, _, _], call | _ :: _ :: _ :: _ :: _ :: _, call => cases call

theorem Constructible.anonymousIndividual_node (h : Constructible n)
    (hc : n.constructor = .anonymousIndividual) : ∃ a : AnonymousIndividual, n = a.node := by
  obtain ⟨args, call, -⟩ := h.call
  rw [hc] at call
  match args, call with
  | [scope, key], call =>
    simp only [construct] at call
    unfold constructAnonymousIndividual at call
    split at call
    · rename_i octets
      split at call
      · cases call
      · rename_i hscope
        split at call
        · rename_i localKey
          split at call
          · cases call
          · rename_i hkey
            exact ⟨⟨⟨octets, not_not.mp hscope⟩, localKey, hkey⟩, (Except.ok.inj call).symm⟩
        · cases call
    · cases call
  | [], call | [_], call | _ :: _ :: _ :: _, call => cases call

end

section

variable {g : AnonymousIndividual → AnonymousIndividual} {n : Node}

theorem checkField_eq_self (hfits : FieldFits spec v) (hascending : ∀ ms, v = .set ms → Ascending Node.bytes ms) (h :
    checkField spec (Arg.ofValue v) = .ok w) : w = v := by
  unfold FieldFits at hfits
  cases hcheck : spec.check with
  | own => simp [hcheck] at hfits
  | node expected =>
    simp only [hcheck] at hfits
    obtain ⟨k, rfl, hk⟩ := hfits
    simp only [checkField, hcheck, Arg.ofValue, requireNode_node hk] at h
    exact (Except.ok.inj h).symm
  | canonicalSet expected minimum flatten =>
    simp only [hcheck] at hfits
    obtain ⟨ms, rfl, hms⟩ := hfits
    simp only [checkField, hcheck, Arg.ofValue] at h
    rw [show iterable (.set ms) = .ok (ms.map .node) from rfl] at h
    obtain ⟨result, hset, rfl⟩ := map_eq_ok.mp h
    rw [canonicalSet_eq_self (fun m hm => (hms m hm).1) (fun m hm => (hms m hm).2)
      (hascending ms rfl) hset]
  | structuralTuple expected minimum =>
    simp only [hcheck] at hfits
    obtain ⟨ms, rfl, hinst, hmin⟩ := hfits
    simp only [checkField, hcheck, Arg.ofValue] at h
    rw [show iterable (.tuple (ms.map .node)) = .ok (ms.map .node) from rfl] at h
    simp only [bind, Except.bind, structuralTuple_map hinst hmin] at h
    exact (Except.ok.inj h).symm
  | nonnegativeInteger =>
    simp only [hcheck] at hfits
    obtain ⟨i, rfl⟩ := hfits
    have hnat : ¬(i : Int) < 0 := by omega
    simp [checkField, hcheck, Arg.ofValue, requireNonnegativeInteger, hnat, Functor.map, Except.map] at h
    exact h.symm
  | annotations =>
    simp only [hcheck] at hfits
    obtain ⟨ms, rfl, hms⟩ := hfits
    simp only [checkField, hcheck, Arg.ofValue] at h
    obtain ⟨result, hset, rfl⟩ := map_eq_ok.mp h
    rw [canonicalSet_eq_self hms (by simp) (hascending ms rfl) hset]

theorem checkFields_eq_self {fields result : List (Value Node)} (hfits : Forall₂ FieldFits specs fields) (hascending :
    ∀ ms, .set ms ∈ fields → Ascending Node.bytes ms) (h : checkFields specs (fields.map Arg.ofValue) = .ok result) : result = fields := by
  induction hfits generalizing result with
  | nil => exact (Except.ok.inj h).symm
  | @cons spec v specs vs hfield _ ih =>
    obtain ⟨w, hw, h⟩ := bind_eq_ok.mp h
    obtain ⟨ws, hws, h⟩ := bind_eq_ok.mp h
    obtain rfl := Except.ok.inj h
    rw [checkField_eq_self hfield (fun ms hms => hascending ms (by simp [hms])) hw,
      ih (fun ms hms => hascending ms (.tail _ hms)) hws]

/-- The sets of a value and of everything nested in it have canonical bytes. -/
def Node.SetsEncodable (n : Node) : Prop :=
  n.Everywhere fun k => ∀ ms, .set ms ∈ k.fields → ∀ m ∈ ms, m.Encodable defaultLimits

theorem Constructible.setsEncodable (h : Constructible n) : n.SetsEncodable := by
  induction n using Node.induct with
  | step n ih => exact .intro h.sound.encodable fun m hm => ih m hm (h.child hm)

theorem forall₂_image {fields : List (Value Node)} (hP : Forall₂ P specs fields) (hPQ : ∀ spec, ∀ v ∈ fields, P spec v
    → Q spec (h v)) : Forall₂ Q specs (fields.map h) := by
  induction hP with
  | nil => exact .nil
  | @cons spec v specs fields hhead _ ih =>
    exact .cons (hPQ spec v (.head _) hhead) (ih fun spec w hw => hPQ spec w (.tail _ hw))

variable {ms : List Node}

theorem normalizeAnnotations_eq_self (hinst : ∀ m ∈ ms, m.isInstance [Schema.annotationClass]) (hascending : Ascending
    Node.bytes ms) (h : normalizeAnnotations (.set ms) = .ok result) : result = ms :=
  canonicalSet_eq_self hinst (by simp) hascending h

/-- The image of a set that meets the guarantee, as far as it does not depend on its size. -/
theorem SetSound.instances_image {minimum : Nat} {flatten : Option Constructor} (h : SetSound expected minimum flatten
    ms) :
    ∀ m ∈ KeyedSet.ofList Node.bytes (ms.map (Node.mapAnonymous g)), m.isInstance expected := by
  intro m hm
  obtain ⟨k, hk, rfl⟩ := mem_map.mp (mem_of_mem_ofList hm)
  simpa using h.instances k hk

theorem SetSound.image (h : SetSound expected 0 none ms) (hencodable : ∀ m ∈ KeyedSet.ofList Node.bytes (ms.map
    (Node.mapAnonymous g)), m.Encodable defaultLimits) :
    SetSound expected 0 none (KeyedSet.ofList Node.bytes (ms.map (Node.mapAnonymous g))) :=
  ⟨h.instances_image, by simp, hencodable, ascending_ofList _, Nat.zero_le _⟩

theorem mapAnonymous_objectPropertyExpression (hn : Constructible n) (hk : k ∈ n.children) (hinst : k.isInstance
    Schema.objectPropertyExpressionTypes) : k.mapAnonymous g = k := by
  apply mapAnonymous_eq_self (hn.child hk).canonical
  simp [(hn.child hk).anonymousValues_objectPropertyExpression hinst]

/-- What calling the class of a value on its renamed fields can return, and when it returns. -/
structure ConstructsImage (g : AnonymousIndividual → AnonymousIndividual) (n : Node) : Prop where
  eq : ∀ m, construct n.constructor ((n.mapAnonymous g).fields.map Arg.ofValue) = .ok m → m = n.mapAnonymous g
  ok : (∀ m ∈ n.children, ∀ k ∈ n.children, m.mapAnonymous g = k.mapAnonymous g → m = k) →
    (∀ ms, .set ms ∈ (n.mapAnonymous g).fields → ∀ m ∈ ms, m.Encodable defaultLimits) →
    construct n.constructor ((n.mapAnonymous g).fields.map Arg.ofValue) = .ok (n.mapAnonymous g)

section

variable (hn : Constructible n)

include hn

theorem constructsImage_plain (hnone : n.anonymous? = none)
    (hown : n.constructor.ownBody = false) : ConstructsImage g n := by
  have hsound := hn.fields_sound hown
  constructor
  · intro m h
    rw [Constructor.construct_eq hown] at h
    obtain ⟨fields, hfields, rfl⟩ := map_eq_ok.mp h
    apply ext_fields (by simp)
    refine checkFields_eq_self ?_ (canonical_mapAnonymous hn.canonical).here.2 hfields
    rw [fields_mapAnonymous hnone]
    exact forall₂_image hsound fun spec v _ hv => hv.fits.image
  · intro hinj hencodable
    rw [Constructor.construct_eq hown]
    have himage : Forall₂ FieldSound n.constructor.fieldSpecs (n.mapAnonymous g).fields := by
      rw [fields_mapAnonymous hnone]
      refine forall₂_image hsound fun spec v hv hfield => ?_
      have hchild : ∀ m ∈ v.nodes, m ∈ n.children := fun m hm => mem_children.mpr ⟨v, hv, hm⟩
      refine hfield.image (fun m hm => (hn.child (hchild m hm)).canonical)
        (fun m hm k hk => hinj m (hchild m hm) k (hchild k hk)) fun ms hms => hencodable ms ?_
      rw [fields_mapAnonymous hnone, ← hms]
      exact mem_map_of_mem hv
    rw [checkFields_stable himage, mapAnonymous_of_none hnone]
    rfl

theorem constructsImage_inverseObjectProperties (hnone : n.anonymous? = none)
    (hc : n.constructor = .inverseObjectProperties) : ConstructsImage g n := by
  obtain ⟨first, second, annotations, hfields, hfirst, hsecond, hlt, hset⟩ :=
    hn.inverseObjectProperties_fields hc
  have hfirstSelf : first.mapAnonymous g = first :=
    mapAnonymous_objectPropertyExpression hn (by simp [Node.children, hfields]) hfirst
  have hsecondSelf : second.mapAnonymous g = second :=
    mapAnonymous_objectPropertyExpression hn (by simp [Node.children, hfields]) hsecond
  have himage : n.mapAnonymous g = .mk .inverseObjectProperties [.node first, .node second,
      .set (KeyedSet.ofList Node.bytes (annotations.map (Node.mapAnonymous g)))] := by
    rw [mapAnonymous_of_none hnone, hfields, hc]
    simp [Value.map, Value.rebuild, hfirstSelf, hsecondSelf]
  rw [← constructor_mapAnonymous (f := g)] at hc
  constructor
  · intro m h
    rw [← constructor_mapAnonymous (f := g), hc, himage] at h
    obtain ⟨p, hp, h⟩ := bind_eq_ok.mp h
    obtain ⟨q, hq, h⟩ := bind_eq_ok.mp h
    obtain ⟨rfl⟩ := (requireNode_ok hp).1
    obtain ⟨rfl⟩ := (requireNode_ok hq).1
    obtain ⟨swapped, hswapped, h⟩ := bind_eq_ok.mp h
    obtain rfl := Except.ok.inj (hlt.symm.trans hswapped)
    obtain ⟨members, hmembers, h⟩ := bind_eq_ok.mp h
    rw [normalizeAnnotations_eq_self hset.instances_image (ascending_ofList _) hmembers] at h
    rw [himage]
    exact (Except.ok.inj h).symm
  · intro _ hencodable
    rw [← constructor_mapAnonymous (f := g), hc]
    rw [himage] at hencodable ⊢
    exact constructInverseObjectProperties_ordered hfirst hsecond hlt
      (hset.image (hencodable _ (by simp)))

theorem constructsImage_hasKey (hnone : n.anonymous? = none)
    (hc : n.constructor = .hasKey) : ConstructsImage g n := by
  obtain ⟨cls, objects, datas, annotations, hfields, hcls, hobjects, hdatas, hne, hset⟩ :=
    hn.hasKey_fields hc
  have himage : n.mapAnonymous g = .mk .hasKey [.node (cls.mapAnonymous g),
      .set (KeyedSet.ofList Node.bytes (objects.map (Node.mapAnonymous g))),
      .set (KeyedSet.ofList Node.bytes (datas.map (Node.mapAnonymous g))),
      .set (KeyedSet.ofList Node.bytes (annotations.map (Node.mapAnonymous g)))] := by
    rw [mapAnonymous_of_none hnone, hfields, hc]
    simp [Value.map, Value.rebuild]
  rw [← constructor_mapAnonymous (f := g)] at hc
  constructor
  · intro m h
    rw [← constructor_mapAnonymous (f := g), hc, himage] at h
    obtain ⟨e, he, h⟩ := bind_eq_ok.mp h
    obtain ⟨rfl⟩ := (requireNode_ok he).1
    obtain ⟨objectItems, hoitems, h⟩ := bind_eq_ok.mp h
    obtain rfl := Except.ok.inj hoitems
    obtain ⟨os, hos, h⟩ := bind_eq_ok.mp h
    obtain ⟨dataItems, hditems, h⟩ := bind_eq_ok.mp h
    obtain rfl := Except.ok.inj hditems
    obtain ⟨ds, hds, h⟩ := bind_eq_ok.mp h
    obtain ⟨-, h⟩ := guard_eq_ok.mp h
    obtain ⟨as, has, h⟩ := bind_eq_ok.mp h
    rw [canonicalSet_eq_self hobjects.instances_image (by simp) (ascending_ofList _) hos,
      canonicalSet_eq_self hdatas.instances_image (by simp) (ascending_ofList _) hds,
      normalizeAnnotations_eq_self hset.instances_image (ascending_ofList _) has] at h
    rw [himage]
    exact (Except.ok.inj h).symm
  · intro _ hencodable
    rw [← constructor_mapAnonymous (f := g), hc]
    rw [himage] at hencodable ⊢
    have hobjects' := hobjects.image (g := g) (hencodable _ (by simp))
    have hdatas' := hdatas.image (g := g) (hencodable _ (by simp))
    have hset' := hset.image (g := g) (hencodable _ (by simp))
    have hne' : ¬(KeyedSet.ofList Node.bytes (objects.map (Node.mapAnonymous g)) = [] ∧
        KeyedSet.ofList Node.bytes (datas.map (Node.mapAnonymous g)) = []) := by
      simpa using hne
    simp only [fields_mk, map_cons, map_nil, construct, Arg.ofValue_node,
      Arg.ofValue_set, constructHasKey, requireNode_node (n := cls.mapAnonymous g) (by simpa using hcls)]
    simp only [iterable, Arg.iterate, bind, Except.bind, hobjects'.stable, hdatas'.stable, if_neg hne',
      hset'.normalizeAnnotations, pure, Except.pure]

theorem constructsImage (hnone : n.anonymous? = none)
    (hleaf : n.constructor ∉ [Constructor.iri, .entity, .literal]) : ConstructsImage g n := by
  cases hown : n.constructor.ownBody with
  | false => exact constructsImage_plain hn hnone hown
  | true =>
    cases hc : n.constructor <;> simp [hc] at hleaf <;> simp [hc, Constructor.ownBody] at hown
    case anonymousIndividual =>
      obtain ⟨a, rfl⟩ := hn.anonymousIndividual_node hc
      simp at hnone
    case inverseObjectProperties => exact constructsImage_inverseObjectProperties hn hnone hc
    case hasKey => exact constructsImage_hasKey hn hnone hc

end

end

section

variable {replace : AnonymousIndividual → Except Error AnonymousIndividual}
  {g : AnonymousIndividual → AnonymousIndividual} {n : Node}

theorem replaceAnonymous_node (a : AnonymousIndividual) :
    replaceAnonymous replace a.node = AnonymousIndividual.node <$> replace a := by
  simp [replaceAnonymous, para_eq]

theorem replaceAnonymous_leaf (hnone : n.anonymous? = none)
    (hleaf : n.constructor ∈ [Constructor.iri, .entity, .literal]) :
    replaceAnonymous replace n = .ok n := by
  rw [replaceAnonymous, para_eq, hnone]
  simp only [if_pos hleaf]

theorem replaceAnonymous_inner (hnone : n.anonymous? = none)
    (hleaf : n.constructor ∉ [Constructor.iri, .entity, .literal]) :
    replaceAnonymous replace n = (n.fields.map (Value.map (replaceAnonymous replace))).mapM replaceArg >>=
        construct n.constructor := by
  rw [replaceAnonymous, para_eq, hnone]
  simp only [if_neg hleaf]

theorem mapM_id_map_ok {r : Node → Except Error Node} {ms result : List Node} (hr : ∀ k ∈ ms, ∀ k', r k = .ok k' → k'
    = h k) (hok : (ms.map r).mapM id = .ok result) :
    result = ms.map h ∧ ∀ k ∈ ms, r k = .ok (h k) := by
  rw [mapM_eq_ok, forall₂_map_left_iff] at hok
  refine forall₂_eq_map hok fun k hk k' hk' => ?_
  obtain rfl := hr k hk k' hk'
  exact ⟨rfl, hk'⟩

/-- A rebuilt field is the field with its nested values renamed and its set built anew. -/
theorem replaceArg_ok {r : Node → Except Error Node} {v : Value Node} (hr : ∀ k ∈ v.nodes, ∀ k', r k = .ok k' → k' = h
    k) (hok : replaceArg (v.map r) = .ok a) :
    a = Arg.ofValue (v.map h).rebuild ∧ (∀ k ∈ v.nodes, r k = .ok (h k)) ∧
      ∀ ms, (v.map h).rebuild = .set ms → ∀ m ∈ ms, m.Encodable defaultLimits := by
  cases v with
  | node k =>
    obtain ⟨k', hk', rfl⟩ := map_eq_ok.mp hok
    obtain rfl := hr k (by simp) k' hk'
    exact ⟨rfl, by simpa using hk', by simp [Value.map, Value.rebuild]⟩
  | set ms =>
    obtain ⟨replaced, hreplaced, hset⟩ := bind_eq_ok.mp hok
    obtain ⟨rfl, hall⟩ := mapM_id_map_ok hr hreplaced
    obtain ⟨result, hresult, rfl⟩ := map_eq_ok.mp hset
    obtain ⟨hencodable, rfl⟩ := canonicalSetOf_ok_iff.mp hresult
    refine ⟨rfl, hall, fun members hmembers m hm => ?_⟩
    obtain rfl := Value.set.inj hmembers
    exact hencodable m (mem_of_mem_ofList hm)
  | sequence items =>
    obtain ⟨replaced, hreplaced, hresult⟩ := bind_eq_ok.mp hok
    obtain ⟨rfl, hall⟩ := mapM_id_map_ok hr hreplaced
    exact ⟨(Except.ok.inj hresult).symm, hall, by simp [Value.map, Value.rebuild]⟩
  | _ => exact ⟨(Except.ok.inj hok).symm, by simp [Value.nodes], by simp [Value.map, Value.rebuild]⟩

/-- A successful replacement returns the renamed value, with canonical bytes for its sets. -/
theorem replaceAnonymous_ok (hn : Constructible n)
    (hreplace : ∀ a ∈ n.anonymousValues, replace a = .ok (g a)) {m : Node}
    (h : replaceAnonymous replace n = .ok m) : m = n.mapAnonymous g ∧ m.SetsEncodable := by
  induction n using Node.induct generalizing m with
  | step n ih =>
    cases hnone : n.anonymous? with
    | some a =>
      obtain rfl := anonymous?_eq_some.mp hnone
      rw [replaceAnonymous_node, hreplace a (mem_anonymousValues.mpr (.inl rfl))] at h
      obtain rfl := Except.ok.inj h
      rw [mapAnonymous_node]
      exact ⟨rfl, .intro (by simp [AnonymousIndividual.node]) (by simp)⟩
    | none =>
      by_cases hleaf : n.constructor ∈ [Constructor.iri, .entity, .literal]
      · rw [replaceAnonymous_leaf hnone hleaf] at h
        obtain rfl := Except.ok.inj h
        have hself := mapAnonymous_eq_self (f := g) hn.canonical
          (by simp [hn.anonymousValues_leaf hleaf])
        exact ⟨hself.symm, hn.setsEncodable⟩
      · rw [replaceAnonymous_inner hnone hleaf] at h
        obtain ⟨args, hargs, hcall⟩ := bind_eq_ok.mp h
        have hnested : ∀ k ∈ n.children, ∀ k', replaceAnonymous replace k = .ok k' →
            k' = k.mapAnonymous g ∧ k'.SetsEncodable := fun k hk k' hk' =>
          ih k hk (hn.child hk) (fun a ha => hreplace a (anonymousValues_child hk ha)) hk'
        rw [mapM_eq_ok, forall₂_map_left_iff] at hargs
        have hfield : ∀ v ∈ n.fields, ∀ a, replaceArg (v.map (replaceAnonymous replace)) = .ok a →
            a = Arg.ofValue (v.map (Node.mapAnonymous g)).rebuild ∧
            (∀ k ∈ v.nodes, replaceAnonymous replace k = .ok (k.mapAnonymous g)) ∧
            ∀ ms, (v.map (Node.mapAnonymous g)).rebuild = .set ms → ∀ m ∈ ms, m.Encodable defaultLimits :=
          fun v hv a ha => replaceArg_ok
            (fun k hk k' hk' => (hnested k (mem_children.mpr ⟨v, hv, hk⟩) k' hk').1) ha
        obtain ⟨rfl, hall⟩ := forall₂_eq_map hargs hfield
        have himages : n.fields.map (fun v => Arg.ofValue (v.map (Node.mapAnonymous g)).rebuild) =
            (n.mapAnonymous g).fields.map Arg.ofValue := by
          rw [fields_mapAnonymous hnone, List.map_map]
          rfl
        rw [himages] at hcall
        obtain rfl := (constructsImage hn hnone hleaf).eq m hcall
        refine ⟨rfl, .intro ?_ ?_⟩
        · intro ms hms
          rw [fields_mapAnonymous hnone, mem_map] at hms
          obtain ⟨v, hv, hms⟩ := hms
          exact (hall v hv).2 ms hms
        · intro k' hk'
          obtain ⟨k, hk, rfl⟩ := (mem_children_mapAnonymous hn.canonical hnone).mp hk'
          obtain ⟨v, hv, hkv⟩ := mem_children.mp hk
          exact (hnested k hk _ ((hall v hv).1 k hkv)).2

end

end OwlCore
