import OwlCore.Lib.Merge
import OwlCore.Model.Replace

/-!
# Entities of a root

The entities that a root contributes to a signature: all it mentions, those it mentions
outside of annotations, and the one it declares. Renaming anonymous individuals changes
none of them.
-/
namespace OwlCore

open Fallible List Node

def walkedFields {N : Type} (includeAnnotations : Bool) (c : Constructor) (fields : List (Value N)) :
    List (Value N) :=
  ((c.fieldSpecs.zip fields).filter fun field => includeAnnotations || field.1.name != "annotations").map Prod.snd

/-- `_entities`: the entities among the structural occurrences of a root. -/
def Node.entities (includeAnnotations : Bool) : Node → List Node :=
  Node.para fun n fields => (if n.constructor = .entity then [n] else []) ++
    (walkedFields includeAnnotations n.constructor fields).flatMap fun v => v.nodes.flatten

inductive SignatureMode where
  | referenced
  | nonannotations
  | declared
  deriving DecidableEq

/-- `isinstance(root, Annotation)` or an annotation axiom. -/
def annotationRoot (root : Node) : Bool :=
  root.constructor ∈ [Constructor.annotationNode, .annotationAssertion, .subAnnotationPropertyOf,
    .annotationPropertyDomain, .annotationPropertyRange]

/-- `root.entity` of a declaration. -/
def declaredEntity (root : Node) : List Node :=
  match root.constructor, root.fields with
  | .declaration, .node entity :: _ => [entity]
  | _, _ => []

def contribution (root : Node) : SignatureMode → List Node
  | .referenced => root.entities true
  | .nonannotations => if annotationRoot root then [] else root.entities false
  | .declared => declaredEntity root

/-- `bytes((_KIND_ORDER[entity.kind],)) + entity.iri.value.encode("utf-8")`. -/
def entityKey (entity : Node) : Bytes :=
  UInt8.ofNat ((entity.kind?.map fun kind => EntityKind.all.idxOf kind).getD 0) :: utf8Encode entity.entityIri

def Node.IsEntity (n : Node) : Prop :=
  ∃ kind iri, n = .mk .entity [.enum kind, .node (.mk .iri [.text iri])]

/-- What the entities inside constructed values look like. -/
structure Node.PlainHere (n : Node) : Prop where
  entity : n.constructor = .entity → n.IsEntity
  declaration : n.constructor = .declaration → ∀ entity rest, n.fields = .node entity :: rest → entity.IsEntity

structure Node.Plain (n : Node) : Prop where
  canonical : n.Canonical
  plain : n.Everywhere Node.PlainHere

section

variable {n m e : Node} {includeAnnotations : Bool} {f : AnonymousIndividual → AnonymousIndividual}

theorem Node.IsEntity.anonymousValues (h : n.IsEntity) : n.anonymousValues = [] := by
  obtain ⟨kind, iri, rfl⟩ := h
  apply anonymousValues_eq_nil (by simp)
  intro m hm
  have hm : m = .mk .iri [.text iri] := by simpa [Node.children, Value.nodes] using hm
  rw [hm]
  exact anonymousValues_eq_nil (by simp) (by simp [Node.children, Value.nodes])

theorem EntityKind.eq_of_position (h : UInt8.ofNat (EntityKind.all.idxOf kind) = UInt8.ofNat (EntityKind.all.idxOf
    kind')) : kind = kind' := by
  revert h
  cases kind <;> cases kind' <;> decide

theorem entityKey_injOn (hn : n.IsEntity) (hm : m.IsEntity) (h : entityKey n = entityKey m) : n = m := by
  obtain ⟨kind, iri, rfl⟩ := hn
  obtain ⟨kind', iri', rfl⟩ := hm
  obtain ⟨hkind, hiri⟩ := List.cons.inj h
  obtain rfl : iri = iri' := utf8Encode_injective hiri
  obtain rfl : kind = kind' := EntityKind.eq_of_position hkind
  rfl

theorem Node.Plain.child (h : n.Plain) (hm : m ∈ n.children) : m.Plain := ⟨h.canonical.child hm, h.plain.child hm⟩

theorem mem_walkedFields {N : Type} {c : Constructor} {fields : List (Value N)} {v : Value N} :
    v ∈ walkedFields includeAnnotations c fields ↔
      ∃ spec, (spec, v) ∈ c.fieldSpecs.zip fields ∧ (includeAnnotations || spec.name != "annotations") = true := by
  simp only [walkedFields, mem_map, mem_filter, Prod.exists, exists_eq_right]

theorem walkedFields_map (g : M → N) (c : Constructor) (fields : List (Value M)) :
    walkedFields includeAnnotations c (fields.map (Value.map g)) =
      (walkedFields includeAnnotations c fields).map (Value.map g) := by
  simp only [walkedFields, zip_map_right, filter_map, List.map_map]
  rfl

theorem Node.mem_entities : e ∈ n.entities includeAnnotations ↔ n.constructor = .entity ∧ e = n ∨
    ∃ v ∈ walkedFields includeAnnotations n.constructor n.fields, ∃ k ∈ v.nodes, e ∈ k.entities includeAnnotations := by
  rw [Node.entities, para_eq, walkedFields_map, mem_append]
  refine or_congr ?_ ?_
  · split <;> simp [*]
  · simp only [mem_flatMap, mem_map, exists_exists_and_eq_and, Value.nodes_map, mem_flatten]

theorem mem_fields_of_mem_walkedFields {N : Type} {c : Constructor} {fields : List (Value N)} {v : Value N}
    (h : v ∈ walkedFields includeAnnotations c fields) : v ∈ fields := by
  obtain ⟨spec, hzip, -⟩ := mem_walkedFields.mp h
  exact (of_mem_zip hzip).2

theorem Node.entities_node (a : AnonymousIndividual) : a.node.entities includeAnnotations = [] := by
  rw [eq_nil_iff_forall_not_mem]
  intro e he
  rcases mem_entities.mp he with ⟨hc, -⟩ | ⟨v, hv, k, hk, -⟩
  · cases hc
  · have hchild := mem_children.mpr ⟨v, mem_fields_of_mem_walkedFields hv, hk⟩
    rw [children_node] at hchild
    cases hchild

theorem Node.mem_entities_mapAnonymous (h : n.Plain) :
    e ∈ (n.mapAnonymous f).entities includeAnnotations ↔ e ∈ n.entities includeAnnotations := by
  induction n using Node.induct with
  | step n ih =>
    cases hnone : n.anonymous? with
    | some a =>
      obtain rfl := anonymous?_eq_some.mp hnone
      rw [mapAnonymous_node, entities_node, entities_node]
    | none =>
      by_cases hc : n.constructor = .entity
      · rw [mapAnonymous_eq_self h.canonical (by simp [(h.plain.here.entity hc).anonymousValues])]
      · rw [mem_entities, mem_entities, constructor_mapAnonymous, fields_mapAnonymous hnone]
        simp only [hc, false_and, false_or, mem_walkedFields, zip_map_right, mem_map, Prod.exists,
          Prod.map_apply, id_eq, Prod.mk.injEq]
        have hfield : ∀ v ∈ n.fields, (∃ k ∈ (v.map (Node.mapAnonymous f)).rebuild.nodes,
            e ∈ k.entities includeAnnotations) ↔ ∃ k ∈ v.nodes, e ∈ k.entities includeAnnotations := by
          intro v hv
          have hchild : ∀ k ∈ v.nodes, k ∈ n.children := fun k hk => mem_children.mpr ⟨v, hv, hk⟩
          have hmapped : ∀ k, k ∈ (v.map (Node.mapAnonymous f)).rebuild.nodes ↔
              ∃ j ∈ v.nodes, j.mapAnonymous f = k := by
            intro k
            rw [mem_rebuild, Value.nodes_map, mem_map]
            intro k hk
            rw [Value.nodes_map, mem_map] at hk
            obtain ⟨j, hj, rfl⟩ := hk
            exact canonical_mapAnonymous (h.child (hchild j hj)).canonical
          constructor
          · rintro ⟨k, hk, he⟩
            obtain ⟨j, hj, rfl⟩ := (hmapped k).mp hk
            exact ⟨j, hj, (ih j (hchild j hj) (h.child (hchild j hj))).mp he⟩
          · rintro ⟨j, hj, he⟩
            exact ⟨_, (hmapped _).mpr ⟨j, hj, rfl⟩, (ih j (hchild j hj) (h.child (hchild j hj))).mpr he⟩
        constructor
        · rintro ⟨_, ⟨spec, ⟨spec', v, hzip, rfl, rfl⟩, hname⟩, he⟩
          exact ⟨v, ⟨spec', hzip, hname⟩, (hfield v (of_mem_zip hzip).2).mp he⟩
        · rintro ⟨v, ⟨spec, hzip, hname⟩, he⟩
          exact ⟨_, ⟨spec, ⟨spec, v, hzip, rfl, rfl⟩, hname⟩, (hfield v (of_mem_zip hzip).2).mpr he⟩

theorem Node.Plain.mapAnonymous (h : n.Plain) : (n.mapAnonymous f).Plain := by
  refine ⟨canonical_mapAnonymous h.canonical, ?_⟩
  induction n using Node.induct with
  | step n ih =>
    cases hnone : n.anonymous? with
    | some a =>
      obtain rfl := anonymous?_eq_some.mp hnone
      rw [mapAnonymous_node]
      exact .intro ⟨(nomatch ·), (nomatch ·)⟩ (by simp)
    | none =>
      refine .intro ⟨fun hc => ?_, fun hc entity rest hfields => ?_⟩ fun m hm => ?_
      · rw [constructor_mapAnonymous] at hc
        have hentity := h.plain.here.entity hc
        rwa [mapAnonymous_eq_self h.canonical (by simp [hentity.anonymousValues])]
      · rw [constructor_mapAnonymous] at hc
        rw [fields_mapAnonymous hnone] at hfields
        obtain ⟨v, rest', hn, hv, -⟩ := map_eq_cons_iff.mp hfields
        cases v with
        | node k =>
          have hk : k.mapAnonymous f = entity := Value.node.inj hv
          have hentity := h.plain.here.declaration hc k rest' hn
          have hchild : k ∈ n.children := mem_children.mpr ⟨.node k, by simp [hn], by simp [Value.nodes]⟩
          rw [← hk, mapAnonymous_eq_self (h.child hchild).canonical (by simp [hentity.anonymousValues])]
          exact hentity
        | _ => cases hv
      · obtain ⟨k, hk, rfl⟩ := (mem_children_mapAnonymous h.canonical hnone).mp hm
        exact ih k hk (h.child hk)

theorem Node.Plain.isEntity_of_mem_entities (h : n.Plain) (he : e ∈ n.entities includeAnnotations) : e.IsEntity := by
  induction n using Node.induct with
  | step n ih =>
    rcases mem_entities.mp he with ⟨hc, rfl⟩ | ⟨v, hv, k, hk, hek⟩
    · exact h.plain.here.entity hc
    · have hchild := mem_children.mpr ⟨v, mem_fields_of_mem_walkedFields hv, hk⟩
      exact ih k hchild (h.child hchild) hek

theorem mem_declaredEntity : e ∈ declaredEntity n ↔
    n.constructor = .declaration ∧ ∃ rest, n.fields = .node e :: rest := by
  unfold declaredEntity
  split
  · rename_i entity rest hc hfields
    simp [hc, hfields, eq_comm]
  · rename_i hother
    simp only [not_mem_nil, false_iff, not_and, not_exists]
    exact fun hc rest hfields => hother e rest hc hfields

theorem Node.Plain.isEntity_of_mem_contribution (h : n.Plain) (he : e ∈ contribution n mode) : e.IsEntity := by
  cases mode with
  | referenced => exact h.isEntity_of_mem_entities he
  | nonannotations =>
    simp only [contribution] at he
    split at he
    · cases he
    · exact h.isEntity_of_mem_entities he
  | declared =>
    obtain ⟨hc, rest, hfields⟩ := mem_declaredEntity.mp he
    exact h.plain.here.declaration hc e rest hfields

theorem mem_declaredEntity_mapAnonymous (h : n.Plain) :
    e ∈ declaredEntity (n.mapAnonymous f) ↔ e ∈ declaredEntity n := by
  rw [mem_declaredEntity, mem_declaredEntity, constructor_mapAnonymous]
  refine and_congr_right fun hc => ?_
  have hnone : n.anonymous? = none := by
    rw [Option.eq_none_iff_forall_ne_some]
    intro a ha
    rw [anonymous?_eq_some.mp ha] at hc
    cases hc
  rw [fields_mapAnonymous hnone]
  constructor
  · rintro ⟨rest, hfields⟩
    obtain ⟨v, rest', hn, hv, -⟩ := map_eq_cons_iff.mp hfields
    cases v with
    | node k =>
      have hk : k.mapAnonymous f = e := Value.node.inj hv
      have hentity := h.plain.here.declaration hc k rest' hn
      have hchild : k ∈ n.children := mem_children.mpr ⟨.node k, by simp [hn], by simp [Value.nodes]⟩
      rw [mapAnonymous_eq_self (h.child hchild).canonical (by simp [hentity.anonymousValues])] at hk
      exact ⟨rest', hk ▸ hn⟩
    | _ => cases hv
  · rintro ⟨rest, hfields⟩
    have hentity := h.plain.here.declaration hc e rest hfields
    have hchild : e ∈ n.children := mem_children.mpr ⟨.node e, by simp [hfields], by simp [Value.nodes]⟩
    have hself : e.mapAnonymous f = e :=
      mapAnonymous_eq_self (h.child hchild).canonical (by simp [hentity.anonymousValues])
    refine ⟨rest.map fun v => (v.map (Node.mapAnonymous f)).rebuild, ?_⟩
    rw [hfields, map_cons, Value.map, hself]
    rfl

theorem mem_contribution_mapAnonymous (h : n.Plain) :
    e ∈ contribution (n.mapAnonymous f) mode ↔ e ∈ contribution n mode := by
  cases mode with
  | referenced => exact mem_entities_mapAnonymous h
  | nonannotations =>
    have hroot : annotationRoot (n.mapAnonymous f) = annotationRoot n := by
      rw [annotationRoot, constructor_mapAnonymous]
      rfl
    simp only [contribution, hroot]
    by_cases hannotation : annotationRoot n = true
    · rw [if_pos hannotation, if_pos hannotation]
    · rw [if_neg hannotation, if_neg hannotation]
      exact mem_entities_mapAnonymous h
  | declared => exact mem_declaredEntity_mapAnonymous h

end

section

variable {n : Node}

theorem Constructible.exists_text (h : Constructible n) (hc : n.constructor = .iri) :
    ∃ text, n = .mk .iri [.text text] := by
  obtain ⟨args, call, -⟩ := h.call
  rw [hc] at call
  rcases args with _ | ⟨value, _ | ⟨_, _⟩⟩
  · cases call
  · obtain ⟨rfl, text, htext⟩ := constructIRI_ok call
    cases value with
    | text text => exact ⟨text, rfl⟩
    | enum other =>
      obtain ⟨e, he⟩ := constructIRI_enum other
      rw [show construct .iri [.enum other] = constructIRI (.enum other) from rfl, he] at call
      cases call
    | _ => cases htext
  · cases call

theorem Constructible.isEntity (h : Constructible n) (hc : n.constructor = .entity) : n.IsEntity := by
  obtain ⟨args, call, -⟩ := h.call
  rw [hc] at call
  rcases args with _ | ⟨kind, _ | ⟨iri, _ | ⟨_, _⟩⟩⟩
  · cases call
  · cases call
  · cases kind with
    | enum kind =>
      obtain ⟨m, hm, hresult⟩ := bind_eq_ok.mp call
      obtain ⟨rfl, hinst⟩ := requireNode_ok hm
      obtain rfl := Except.ok.inj hresult
      have hiri : m.constructor = .iri := by
        simpa [Node.isInstance, Node.hasClass, Schema.iriClass] using hinst
      have hm : Constructible m := h.child (by simp [Node.children, Value.nodes])
      obtain ⟨text, rfl⟩ := hm.exists_text hiri
      exact ⟨kind, text, rfl⟩
    | _ => cases call
  · cases call

theorem Constructible.plain (h : Constructible n) : n.Plain := by
  refine ⟨h.canonical, ?_⟩
  induction n using Node.induct with
  | step n ih =>
    refine .intro ⟨h.isEntity, fun hc entity rest hfields => ?_⟩ fun m hm => ih m hm (h.child hm)
    have hsound := h.fields_sound (by rw [hc]; rfl)
    rw [hc, hfields] at hsound
    obtain ⟨k, hk, hinst⟩ := (forall₂_cons.mp hsound).1.fits
    obtain rfl : entity = k := Value.node.inj hk
    have hchild : entity ∈ n.children :=
      mem_children.mpr ⟨.node entity, by simp [hfields], by simp [Value.nodes]⟩
    exact (h.child hchild).isEntity (by simpa [Node.isInstance, Node.hasClass] using hinst)

end

end OwlCore
