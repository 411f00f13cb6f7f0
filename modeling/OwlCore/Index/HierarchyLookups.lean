import OwlCore.Index.Hierarchy

/-!
# Lookups and edges of class hierarchies

The edges of a hierarchy view are the joined pairs of its axioms. The lookups of a class differ
from the edges only in the pairs of a class with itself: a lookup gives such a class back, and
the edges leave it out.
-/
namespace OwlCore

open Dictionary List

theorem Constructor.tag_ne_zero (c : Constructor) : c.tag ≠ 0 := by
  cases c <;> decide

theorem Node.bytes_append_ne_zero (n : Node) (x y : Bytes) : n.bytes ++ x ≠ 0 :: y := by
  intro h
  have hzero : (0 : UInt8) :: y = Varint.encode 0 ++ y := rfl
  rw [Node.bytes_eq, append_assoc, hzero] at h
  exact n.constructor.tag_ne_zero (Varint.encode_append_inj _ _ _ _ h).1

theorem flatten_bytes_append_inj {members members' : List Node} (h : ∀ m ∈ members, m.Canonical) (h' : ∀ m ∈ members',
    m.Canonical) (heq : (members.map Node.bytes).flatten ++ 0 :: x = (members'.map Node.bytes).flatten ++ 0 :: y) :
    members = members' ∧ x = y := by
  induction members generalizing members' with
  | nil =>
    cases members' with
    | nil => exact ⟨rfl, (List.cons.inj heq).2⟩
    | cons m' rest' =>
      rw [map_cons, flatten_cons, append_assoc] at heq
      exact absurd heq.symm (m'.bytes_append_ne_zero _ _)
  | cons m rest ih =>
    cases members' with
    | nil =>
      rw [map_cons, flatten_cons, append_assoc] at heq
      exact absurd heq (m.bytes_append_ne_zero _ _)
    | cons m' rest' =>
      simp only [map_cons, flatten_cons, append_assoc] at heq
      obtain ⟨rfl, hrest⟩ := Node.bytes_append_inj (h m mem_cons_self) (h' m' mem_cons_self) heq
      obtain ⟨rfl, hxy⟩ := ih (fun k hk => h k (mem_cons_of_mem _ hk))
        (fun k hk => h' k (mem_cons_of_mem _ hk)) hrest
      exact ⟨rfl, hxy⟩

def HierarchyNode.Canonical (node : HierarchyNode) : Prop := ∀ m ∈ node.members, m.Canonical

theorem HierarchyNode.key_append_inj {a b : HierarchyNode} (ha : a.Canonical) (hb : b.Canonical) (h : a.key ++ 0 :: x
    = b.key ++ 0 :: y) : a = b ∧ x = y := by
  cases a with
  | named value =>
    cases b with
    | named value' =>
      obtain ⟨rfl, hrest⟩ := Node.bytes_append_inj (ha value mem_cons_self) (hb value' mem_cons_self)
        (List.cons.inj h).2
      exact ⟨rfl, (List.cons.inj hrest).2⟩
    | component members => exact absurd (List.cons.inj h).1 (by decide)
  | component members =>
    cases b with
    | named value => exact absurd (List.cons.inj h).1 (by decide)
    | component members' =>
      obtain ⟨rfl, hxy⟩ := flatten_bytes_append_inj ha hb (List.cons.inj h).2
      exact ⟨rfl, hxy⟩

theorem HierarchyNode.key_inj {a b : HierarchyNode} (ha : a.Canonical) (hb : b.Canonical) (h : a.key = b.key) : a = b :=
  (HierarchyNode.key_append_inj ha hb (congrArg (· ++ [0]) h)).1

structure HierarchyEdge.Canonical (edge : HierarchyEdge) : Prop where
  child : edge.child.Canonical
  parent : edge.parent.Canonical
  ax : edge.ax.Canonical

theorem HierarchyEdge.key_inj {e e' : HierarchyEdge} (he : e.Canonical) (he' : e'.Canonical) (h : e.key = e'.key) :
    e = e' := by
  obtain ⟨hchild, hrest⟩ := HierarchyNode.key_append_inj he.child he'.child h
  obtain ⟨hparent, hax⟩ := HierarchyNode.key_append_inj he.parent he'.parent hrest
  cases e
  cases e'
  obtain rfl := hchild
  obtain rfl := hparent
  obtain rfl := Node.bytes_injOn he.ax he'.ax hax
  rfl

/-- The unique edges are the edges, each once and in the order of their keys. -/
theorem uniqueEdges_spec {edges : List HierarchyEdge} (h : ∀ e ∈ edges, e.Canonical) :
    KeyedSet.Ascending HierarchyEdge.key (uniqueEdges edges) ∧ ∀ e, e ∈ uniqueEdges edges ↔ e ∈ edges := by
  have hentries : ∀ e ∈ edges.map fun edge => (edge.key, edge), ∀ e' ∈ edges.map fun edge => (edge.key, edge),
      e.1 = e'.1 → e = e' := by
    intro e he e' he' hkey
    obtain ⟨edge, hedge, rfl⟩ := mem_map.mp he
    obtain ⟨edge', hedge', rfl⟩ := mem_map.mp he'
    rw [HierarchyEdge.key_inj (h edge hedge) (h edge' hedge') hkey]
  have hmem : ∀ e, e ∈ sortBy Prod.fst (ofEntries (edges.map fun edge => (edge.key, edge))) ↔
      ∃ edge ∈ edges, (edge.key, edge) = e := fun e => by
    rw [KeyedIndex.mem_sortBy, mem_ofEntries hentries, mem_map]
  constructor
  · have hnodup : (sortBy Prod.fst (ofEntries (edges.map fun edge => (edge.key, edge)))).Pairwise
        fun e e' => e.1 ≠ e'.1 := by
      have hkeys := ((KeyedIndex.sortBy_perm Prod.fst _).map Prod.fst).nodup_iff.mpr
        (nodup_keys_ofEntries (edges.map fun edge => (edge.key, edge)))
      exact pairwise_map.mp hkeys
    refine pairwise_map.mpr ((List.Pairwise.and (KeyedIndex.sorted_sortBy _) hnodup).imp_of_mem ?_)
    rintro e e' he he' ⟨hle, hne⟩
    obtain ⟨edge, -, rfl⟩ := (hmem e).mp he
    obtain ⟨edge', -, rfl⟩ := (hmem e').mp he'
    exact lt_of_le_of_ne hle hne
  · intro e
    rw [uniqueEdges, mem_map]
    constructor
    · rintro ⟨entry, hentry, rfl⟩
      obtain ⟨edge, hedge, rfl⟩ := (hmem entry).mp hentry
      exact hedge
    · intro he
      exact ⟨(e.key, e), (hmem _).mpr ⟨e, he, rfl⟩, rfl⟩

section

variable {options : ClassHierarchyOptions} {ax : Node}

theorem mem_combinations (h : l.Nodup) :
    (a, b) ∈ combinations l ∨ (b, a) ∈ combinations l ↔ a ∈ l ∧ b ∈ l ∧ a ≠ b := by
  induction l with
  | nil => simp [combinations]
  | cons c l ih =>
    obtain ⟨hc, hl⟩ := nodup_cons.mp h
    have hpair : ∀ x y, (x, y) ∈ combinations (c :: l) ↔ x = c ∧ y ∈ l ∨ (x, y) ∈ combinations l := by
      intro x y
      rw [combinations, mem_append, mem_map]
      simp only [Prod.mk.injEq]
      constructor
      · rintro (⟨z, hz, rfl, rfl⟩ | h)
        · exact .inl ⟨rfl, hz⟩
        · exact .inr h
      · rintro (⟨rfl, hy⟩ | h)
        · exact .inl ⟨y, hy, rfl, rfl⟩
        · exact .inr h
    rw [hpair, hpair, or_or_or_comm, ih hl, mem_cons, mem_cons]
    constructor
    · rintro ((⟨rfl, hb⟩ | ⟨rfl, ha⟩) | ⟨ha, hb, hne⟩)
      · exact ⟨.inl rfl, .inr hb, fun heq => hc (heq ▸ hb)⟩
      · exact ⟨.inr ha, .inl rfl, fun heq => hc (heq ▸ ha)⟩
      · exact ⟨.inr ha, .inr hb, hne⟩
    · rintro ⟨rfl | ha, rfl | hb, hne⟩
      · exact absurd rfl hne
      · exact .inl (.inl ⟨rfl, hb⟩)
      · exact .inl (.inr ⟨rfl, ha⟩)
      · exact .inr ⟨ha, hb, hne⟩

/-- An axiom joins a child with a parent under the options. -/
inductive JoinedBy (options : ClassHierarchyOptions) (ax : Node) : Node → Node → Prop where
  | sub {subClass superClass : Node} (read : classAxiom ax = .sub subClass superClass) (sub_class : isClass subClass)
      (super_class : isClass superClass) : JoinedBy options ax subClass superClass
  | equivalent {a b : Node} (handling : options.equivalenceHandling = .bidirectional)
      (left : a ∈ namedEquivalentClasses ax) (right : b ∈ namedEquivalentClasses ax) (ne : a ≠ b) :
      JoinedBy options ax a b
  | disjointUnion {definedClass member : Node} {expressions : List Node} (included : options.includeDisjointUnion)
      (read : classAxiom ax = .disjointUnion definedClass expressions) (named : member ∈ expressions.filter isClass) :
      JoinedBy options ax member definedClass

theorem nodup_namedEquivalentClasses (h : ax.Canonical) : (namedEquivalentClasses ax).Nodup := by
  unfold namedEquivalentClasses
  split
  · rename_i expressions hread
    refine List.Nodup.filter _ ?_
    unfold classAxiom at hread
    split at hread <;> simp only [reduceCtorEq, ClassAxiom.equivalent.injEq] at hread
    subst hread
    exact (h.here.ascending _ mem_cons_self).nodup
  · exact nodup_nil

theorem mem_classEdges (h : ax.Canonical) :
    e ∈ classEdges options ax ↔ JoinedBy options ax e.1 e.2.1 ∧ e.2.2 = ax := by
  obtain ⟨child, parent, ax'⟩ := e
  have hnodup := nodup_namedEquivalentClasses h
  constructor
  · intro he
    unfold classEdges at he
    split at he
    · rename_i subClass superClass hread
      split at he
      · rename_i hclass
        obtain ⟨hsub, hsup⟩ := Bool.and_eq_true_iff.mp hclass
        simp only [mem_singleton, Prod.mk.injEq] at he
        obtain ⟨rfl, rfl, rfl⟩ := he
        exact ⟨.sub hread hsub hsup, rfl⟩
      · cases he
    · rename_i expressions hread
      have hnamed : namedEquivalentClasses ax = expressions.filter isClass := by
        simp only [namedEquivalentClasses, hread]
      split at he
      · rename_i hhandling
        obtain ⟨⟨a, b⟩, hpair, he⟩ := mem_flatMap.mp he
        rw [← hnamed] at hpair
        obtain ⟨ha, hb, hne⟩ := (mem_combinations hnodup).mp (.inl hpair)
        simp only [mem_cons, Prod.mk.injEq, not_mem_nil, or_false] at he
        rcases he with ⟨rfl, rfl, rfl⟩ | ⟨rfl, rfl, rfl⟩
        · exact ⟨.equivalent hhandling ha hb hne, rfl⟩
        · exact ⟨.equivalent hhandling hb ha (Ne.symm hne), rfl⟩
      · cases he
    · rename_i definedClass expressions hread
      split at he
      · rename_i hincluded
        obtain ⟨member, hmember, heq⟩ := mem_map.mp he
        simp only [Prod.mk.injEq] at heq
        obtain ⟨rfl, rfl, rfl⟩ := heq
        exact ⟨.disjointUnion hincluded hread hmember, rfl⟩
      · cases he
    · cases he
  · rintro ⟨hjoined, heq⟩
    obtain rfl : ax' = ax := heq
    cases hjoined with
    | sub hread hsub hsup =>
      have hsub : isClass child = true := hsub
      have hsup : isClass parent = true := hsup
      simp [classEdges, hread, hsub, hsup]
    | equivalent hhandling hleft hright hne =>
      have hread : ∃ expressions, classAxiom ax' = .equivalent expressions := by
        unfold namedEquivalentClasses at hleft
        split at hleft
        · exact ⟨_, by assumption⟩
        · cases hleft
      obtain ⟨expressions, hread⟩ := hread
      have hnamed : namedEquivalentClasses ax' = expressions.filter isClass := by
        simp only [namedEquivalentClasses, hread]
      simp only [classEdges, hread, if_pos hhandling, mem_flatMap]
      rw [hnamed] at hnodup hleft hright
      rcases (mem_combinations hnodup).mpr ⟨hleft, hright, hne⟩ with hpair | hpair
      · exact ⟨_, hpair, mem_cons_self⟩
      · exact ⟨_, hpair, mem_cons_of_mem _ mem_cons_self⟩
    | disjointUnion hincluded hread hmember =>
      simp only [classEdges, hread, if_pos hincluded]
      exact mem_map_of_mem hmember

theorem JoinedBy.operands (h : JoinedBy options ax child parent) :
    child ∈ (classAxiom ax).operands ∧ parent ∈ (classAxiom ax).operands := by
  cases h with
  | sub hread => simp [hread, ClassAxiom.operands]
  | equivalent _ hleft hright =>
    exact ⟨(mem_namedEquivalentClasses hleft).1, (mem_namedEquivalentClasses hright).1⟩
  | disjointUnion _ hread hmember =>
    rw [hread]
    exact ⟨mem_cons_of_mem _ (mem_of_mem_filter hmember), mem_cons_self⟩

end

section

variable {hash : Hash} {view : View} {options : ClassHierarchyOptions}

theorem mem_classHierarchyAxioms (h : view.Layered hash) :
    ax ∈ classHierarchyAxioms hash view ↔ ax ∈ (view.face hash).axioms ∧ ax.constructor ∈ classAxiomTypes := by
  rw [classHierarchyAxioms, hierarchyAxioms, iter_layeredRuns h (typesSelection_picks _), mem_ofTypes]

theorem mem_rawClassEdges (h : view.Layered hash) :
    e ∈ (classHierarchyAxioms hash view).flatMap (classEdges options) ↔
      e.2.2 ∈ (view.face hash).axioms ∧ JoinedBy options e.2.2 e.1 e.2.1 := by
  rw [mem_flatMap]
  constructor
  · rintro ⟨ax, hax, he⟩
    obtain ⟨hax, -⟩ := (mem_classHierarchyAxioms h).mp hax
    obtain ⟨hjoined, rfl⟩ := (mem_classEdges (h.readableAxiom ax hax).readable.canonical).mp he
    exact ⟨hax, hjoined⟩
  · rintro ⟨hax, hjoined⟩
    refine ⟨e.2.2, (mem_classHierarchyAxioms h).mpr ⟨hax, (mem_operands_classAxiom hjoined.operands.1).2⟩, ?_⟩
    exact (mem_classEdges (h.readableAxiom _ hax).readable.canonical).mpr ⟨hjoined, rfl⟩

theorem mem_selectEdges {components : List (Node × HierarchyNode)} :
    e ∈ selectEdges components raw ↔ e.child ≠ e.parent ∧ ∃ child parent, (child, parent, e.ax) ∈ raw ∧
      e.child = selectNode components child ∧ e.parent = selectNode components parent := by
  simp only [selectEdges, mem_filter, mem_map, decide_eq_true_eq]
  constructor
  · rintro ⟨⟨⟨child, parent, ax⟩, hraw, rfl⟩, hne⟩
    exact ⟨hne, child, parent, hraw, rfl, rfl⟩
  · rintro ⟨hne, child, parent, hraw, hchild, hparent⟩
    refine ⟨⟨_, hraw, ?_⟩, hne⟩
    rw [← hchild, ← hparent]

theorem canonical_selectEdges {components : List (Node × HierarchyNode)} (hcomponents : ∀ value node, get? components
    value = some node → node.Canonical) (hraw : ∀ e ∈ raw, e.1.Canonical ∧ e.2.1.Canonical ∧ e.2.2.Canonical) :
    ∀ e ∈ selectEdges components raw, e.Canonical := by
  have hselect : ∀ value : Node, value.Canonical → (selectNode components value).Canonical := by
    intro value hvalue
    rw [selectNode]
    cases hnode : get? components value with
    | some node => exact hcomponents value node hnode
    | none =>
      intro m hm
      obtain rfl := mem_singleton.mp hm
      exact hvalue
  intro e he
  obtain ⟨-, child, parent, hmem, hchild, hparent⟩ := mem_selectEdges.mp he
  obtain ⟨hc, hp, hax⟩ := hraw _ hmem
  refine ⟨?_, ?_, hax⟩
  · rw [hchild]
    exact hselect child hc
  · rw [hparent]
    exact hselect parent hp

theorem canonical_rawClassEdges (h : view.Layered hash) :
    ∀ e ∈ (classHierarchyAxioms hash view).flatMap (classEdges options),
      e.1.Canonical ∧ e.2.1.Canonical ∧ e.2.2.Canonical := by
  intro e he
  obtain ⟨hax, hjoined⟩ := (mem_rawClassEdges h).mp he
  have hcanonical := (h.readableAxiom _ hax).readable.canonical
  obtain ⟨hchild, hparent⟩ := hjoined.operands
  exact ⟨hcanonical.child (mem_operands_classAxiom hchild).1, hcanonical.child (mem_operands_classAxiom hparent).1,
    hcanonical⟩

open AssertedClassHierarchyView

theorem componentMap_of_ne (hhandling : options.equivalenceHandling ≠ .component) :
    AssertedClassHierarchyView.componentMap hash view options = [] := by
  rw [AssertedClassHierarchyView.componentMap, OwlCore.componentMap, if_neg hhandling]

/-- Without components the edges are the joined pairs of different classes. -/
theorem mem_iterEdges_of_ne (h : view.Layered hash) (hhandling : options.equivalenceHandling ≠ .component)
    {e : HierarchyEdge} : e ∈ iterEdges hash view options ↔ ∃ child parent, child ≠ parent ∧
      e = ⟨.named child, .named parent, e.ax⟩ ∧ e.ax ∈ (view.face hash).axioms ∧ JoinedBy options e.ax child parent := by
  have hselect : ∀ value, selectNode [] value = .named value := fun _ => rfl
  rw [iterEdges, componentMap_of_ne hhandling,
    (uniqueEdges_spec (canonical_selectEdges (by simp [get?]) (canonical_rawClassEdges h))).2, mem_selectEdges]
  simp only [mem_rawClassEdges h, hselect]
  obtain ⟨c, p, ax⟩ := e
  constructor
  · rintro ⟨hne, child, parent, ⟨hax, hjoined⟩, rfl, rfl⟩
    exact ⟨child, parent, fun heq => hne (by rw [heq]), rfl, hax, hjoined⟩
  · rintro ⟨child, parent, hne, heq, hax, hjoined⟩
    obtain ⟨rfl, rfl⟩ : c = .named child ∧ p = .named parent := by simpa using heq
    exact ⟨fun heq => hne (HierarchyNode.named.inj heq), child, parent, ⟨hax, hjoined⟩, rfl, rfl⟩

variable {node : HierarchyNode}

theorem mem_sortedNodes :
    node ∈ sortedNodes selected ↔ node ∈ selected := by
  rw [sortedNodes, KeyedIndex.mem_sortBy, mem_dedup]

variable {value other : Node}

theorem mem_subClassRecords (h : view.Layered hash) (hfile : ∀ subClass superClass, (file subClass superClass).2 ∈
    [subClass, superClass]) :
    other ∈ (layeredRecords (namedRecords (subClassEntries file)) hash value view).map Prod.fst ↔
      ∃ ax ∈ (view.face hash).axioms, ∃ subClass superClass, classAxiom ax = .sub subClass superClass ∧
        isClass subClass ∧ isClass superClass ∧ file subClass superClass = (value, other) := by
  have hrecords : ListsRecords (namedRecords (subClassEntries file)) value _ _ :=
    listsRecords_layeredRecords (subClassEntries_sound hfile) h
  rw [mem_map]
  constructor
  · rintro ⟨record, hrecord, rfl⟩
    obtain ⟨ax, hax, he⟩ := (hrecords.mem_iff record).mp hrecord
    obtain ⟨_, _, hread, hsub, hsup, heq⟩ := mem_subClassEntries.mp he
    obtain ⟨rfl, rfl⟩ := Prod.mk.inj heq
    exact ⟨ax, hax, _, _, hread, hsub, hsup, rfl⟩
  · rintro ⟨ax, hax, subClass, superClass, hread, hsub, hsup, heq⟩
    refine ⟨(other, ax), (hrecords.mem_iff _).mpr ⟨ax, hax, mem_subClassEntries.mpr ⟨_, _, hread, hsub, hsup, ?_⟩⟩, rfl⟩
    rw [heq]

theorem mem_disjointUnionParentRecords (h : view.Layered hash) :
    other ∈ (disjointUnionParentRecords hash view value).map Prod.fst ↔ ∃ ax ∈ (view.face hash).axioms,
      ∃ expressions, classAxiom ax = .disjointUnion other expressions ∧ value ∈ expressions.filter isClass := by
  have hrecords : ListsRecords disjointUnionRecords value _ (disjointUnionParentRecords hash view value) :=
    listsRecords_layeredRecords disjointUnionRecords_sound h
  rw [mem_map]
  constructor
  · rintro ⟨record, hrecord, rfl⟩
    obtain ⟨ax, hax, he⟩ := (hrecords.mem_iff record).mp hrecord
    obtain ⟨_, expressions, hread, member, hmember, heq⟩ := mem_disjointUnionEntries.mp he
    obtain ⟨rfl, rfl⟩ := Prod.mk.inj heq
    exact ⟨ax, hax, expressions, hread, hmember⟩
  · rintro ⟨ax, hax, expressions, hread, hmember⟩
    exact ⟨(other, ax), (hrecords.mem_iff _).mpr
      ⟨ax, hax, mem_disjointUnionEntries.mpr ⟨_, _, hread, value, hmember, rfl⟩⟩, rfl⟩

theorem mem_equivalents_of_ne (h : view.Layered hash) (hhandling : options.equivalenceHandling ≠ .component) : other ∈ equivalents hash view options value ↔ other ≠ value ∧
      ∃ ax ∈ (view.face hash).axioms, value ∈ namedEquivalentClasses ax ∧ other ∈ namedEquivalentClasses ax := by
  have hrecords : ListsRecords equivalenceRecords value _ (equivalenceAxioms hash view value) :=
    listsRecords_layeredRecords equivalenceRecords_sound h
  rw [equivalents, if_neg hhandling, KeyedIndex.mem_sortBy, mem_filter, mem_dedup, mem_flatMap,
    decide_eq_true_eq, and_comm]
  refine and_congr_right fun _ => ?_
  constructor
  · rintro ⟨record, hrecord, hother⟩
    obtain ⟨ax, hax, he⟩ := (hrecords.mem_iff record).mp hrecord
    obtain ⟨hvalue, rfl⟩ := mem_equivalenceEntries.mp he
    exact ⟨record, hax, hvalue, hother⟩
  · rintro ⟨ax, hax, hvalue, hother⟩
    exact ⟨ax, (hrecords.mem_iff ax).mpr ⟨ax, hax, mem_equivalenceEntries.mpr ⟨hvalue, rfl⟩⟩, hother⟩

theorem exists_joinedBy_iff {axioms : List Node} :
    (∃ ax ∈ axioms, JoinedBy options ax child parent) ↔
      (∃ ax ∈ axioms, classAxiom ax = .sub child parent ∧ isClass child ∧ isClass parent) ∨
      (options.equivalenceHandling = .bidirectional ∧ child ≠ parent ∧
        ∃ ax ∈ axioms, child ∈ namedEquivalentClasses ax ∧ parent ∈ namedEquivalentClasses ax) ∨
      (options.includeDisjointUnion ∧ ∃ ax ∈ axioms, ∃ expressions,
        classAxiom ax = .disjointUnion parent expressions ∧ child ∈ expressions.filter isClass) := by
  constructor
  · rintro ⟨ax, hax, hjoined⟩
    cases hjoined with
    | sub hread hsub hsup => exact .inl ⟨ax, hax, hread, hsub, hsup⟩
    | equivalent hhandling hleft hright hne => exact .inr (.inl ⟨hhandling, hne, ax, hax, hleft, hright⟩)
    | disjointUnion hincluded hread hmember => exact .inr (.inr ⟨hincluded, ax, hax, _, hread, hmember⟩)
  · rintro (⟨ax, hax, hread, hsub, hsup⟩ | ⟨hhandling, hne, ax, hax, hleft, hright⟩ |
      ⟨hincluded, ax, hax, _, hread, hmember⟩)
    · exact ⟨ax, hax, .sub hread hsub hsup⟩
    · exact ⟨ax, hax, .equivalent hhandling hleft hright hne⟩
    · exact ⟨ax, hax, .disjointUnion hincluded hread hmember⟩

theorem mem_directRecords (h : view.Layered hash) :
    (other ∈ (directParentRecords hash view value).map Prod.fst ↔
      ∃ ax ∈ (view.face hash).axioms, classAxiom ax = .sub value other ∧ isClass value ∧ isClass other) ∧
    (other ∈ (directChildRecords hash view value).map Prod.fst ↔
      ∃ ax ∈ (view.face hash).axioms, classAxiom ax = .sub other value ∧ isClass other ∧ isClass value) := by
  constructor <;>
  · refine (mem_subClassRecords h (by simp)).trans (exists_congr fun ax => and_congr_right fun _ => ?_)
    constructor
    · rintro ⟨_, _, hread, hsub, hsup, heq⟩
      obtain ⟨rfl, rfl⟩ := Prod.mk.inj heq
      exact ⟨hread, hsub, hsup⟩
    · rintro ⟨hread, hsub, hsup⟩
      exact ⟨_, _, hread, hsub, hsup, rfl⟩

/-- Without components the parents of a class are all that the axioms join it with, itself included. -/
theorem mem_assertedParents_of_ne (h : view.Layered hash) (hhandling : options.equivalenceHandling ≠ .component) : node ∈ assertedParents hash view options (.named value) ↔
      ∃ other, (∃ ax ∈ (view.face hash).axioms, JoinedBy options ax value other) ∧ .named other = node := by
  rw [assertedParents, if_neg hhandling, recordParents, mem_sortedNodes, mem_map]
  refine exists_congr fun other => and_congr_left fun _ => ?_
  rw [exists_joinedBy_iff, mem_append, mem_append, or_assoc, (mem_directRecords h).1]
  refine or_congr_right (or_congr ?_ ?_)
  · rw [mem_ite_nil_right, mem_equivalents_of_ne h hhandling, ne_comm]
  · rw [mem_ite_nil_right, mem_disjointUnionParentRecords h]

/-- Without components the children of a class are all that the axioms join with it, itself included. -/
theorem mem_assertedChildren_of_ne (h : view.Layered hash) (hhandling : options.equivalenceHandling ≠ .component) : node ∈ assertedChildren hash view options (.named value) ↔
      ∃ other, (∃ ax ∈ (view.face hash).axioms, JoinedBy options ax other value) ∧ .named other = node := by
  have hunion : ∀ other, other ∈ ((allDisjointUnionChildren hash view).filter fun child =>
      (disjointUnionParentRecords hash view child).any fun record => record.1 = value) ↔
      ∃ ax ∈ (view.face hash).axioms, ∃ expressions, classAxiom ax = .disjointUnion value expressions ∧
        other ∈ expressions.filter isClass := by
    intro other
    have hany : ((disjointUnionParentRecords hash view other).any fun record => decide (record.1 = value)) = true ↔
        value ∈ (disjointUnionParentRecords hash view other).map Prod.fst := by
      simp [any_eq_true]
    rw [mem_filter, hany, mem_disjointUnionParentRecords h, and_iff_right_iff_imp]
    rintro ⟨ax, hax, expressions, hread, hmember⟩
    exact (coversChildren_allDisjointUnionChildren h).covers ax hax _
      (mem_disjointUnionEntries.mpr ⟨_, _, hread, other, hmember, rfl⟩)
  rw [assertedChildren, if_neg hhandling, recordChildren, mem_sortedNodes, mem_map]
  refine exists_congr fun other => and_congr_left fun _ => ?_
  rw [exists_joinedBy_iff, mem_append, mem_append, or_assoc, (mem_directRecords h).2]
  refine or_congr_right (or_congr ?_ ?_)
  · rw [mem_ite_nil_right, mem_equivalents_of_ne h hhandling]
    simp only [and_comm (a := value ∈ namedEquivalentClasses _)]
  · rw [mem_ite_nil_right, hunion]

/-- The lookups of a class give the other ends of its edges. -/
structure LookupsAgree (hash : Hash) (view : View) (options : ClassHierarchyOptions) (value : Node) : Prop where
  parents : ∀ node, node ∈ assertedParents hash view options (.named value) ↔
    ∃ e ∈ iterEdges hash view options, e.child = .named value ∧ e.parent = node
  children : ∀ node, node ∈ assertedChildren hash view options (.named value) ↔
    ∃ e ∈ iterEdges hash view options, e.parent = .named value ∧ e.child = node

theorem lookupsAgree_of_component (hhandling : options.equivalenceHandling = .component) (value : Node) :
    LookupsAgree hash view options value := by
  constructor <;> intro node
  · rw [assertedParents, if_pos hhandling, edgeParents, mem_sortedNodes, mem_map]
    simp only [mem_filter, decide_eq_true_eq, and_assoc]
  · rw [assertedChildren, if_pos hhandling, edgeChildren, mem_sortedNodes, mem_map]
    simp only [mem_filter, decide_eq_true_eq, and_assoc]

/-- Without components the edges at a class are what the axioms join with it, other than itself. -/
theorem exists_edge_of_ne (h : view.Layered hash) (hhandling : options.equivalenceHandling ≠ .component) :
    ((∃ e ∈ iterEdges hash view options, e.child = .named value ∧ e.parent = node) ↔
      ∃ other, other ≠ value ∧ (∃ ax ∈ (view.face hash).axioms, JoinedBy options ax value other) ∧ .named other = node) ∧
    ((∃ e ∈ iterEdges hash view options, e.parent = .named value ∧ e.child = node) ↔
      ∃ other, other ≠ value ∧ (∃ ax ∈ (view.face hash).axioms, JoinedBy options ax other value) ∧
        .named other = node) := by
  refine ⟨⟨?_, ?_⟩, ⟨?_, ?_⟩⟩
  · rintro ⟨⟨_, _, ax⟩, he, rfl, rfl⟩
    obtain ⟨child, parent, hne, heq, hax, hjoined⟩ := (mem_iterEdges_of_ne h hhandling).mp he
    cases heq
    exact ⟨parent, hne.symm, ⟨ax, hax, hjoined⟩, rfl⟩
  · rintro ⟨other, hne, ⟨ax, hax, hjoined⟩, rfl⟩
    exact ⟨⟨_, _, ax⟩, (mem_iterEdges_of_ne h hhandling).mpr ⟨value, other, hne.symm, rfl, hax, hjoined⟩, rfl, rfl⟩
  · rintro ⟨⟨_, _, ax⟩, he, rfl, rfl⟩
    obtain ⟨child, parent, hne, heq, hax, hjoined⟩ := (mem_iterEdges_of_ne h hhandling).mp he
    cases heq
    exact ⟨child, hne, ⟨ax, hax, hjoined⟩, rfl⟩
  · rintro ⟨other, hne, ⟨ax, hax, hjoined⟩, rfl⟩
    exact ⟨⟨_, _, ax⟩, (mem_iterEdges_of_ne h hhandling).mpr ⟨other, value, hne, rfl, hax, hjoined⟩, rfl, rfl⟩

theorem lookups_iff_edges (h : view.Layered hash) (hhandling : options.equivalenceHandling ≠ .component)
    (hself : node = .named value → ∀ ax ∈ (view.face hash).axioms, ¬JoinedBy options ax value value) :
    (node ∈ assertedParents hash view options (.named value) ↔
      ∃ e ∈ iterEdges hash view options, e.child = .named value ∧ e.parent = node) ∧
    (node ∈ assertedChildren hash view options (.named value) ↔
      ∃ e ∈ iterEdges hash view options, e.parent = .named value ∧ e.child = node) := by
  rw [mem_assertedParents_of_ne h hhandling, mem_assertedChildren_of_ne h hhandling, (exists_edge_of_ne h hhandling).1,
    (exists_edge_of_ne h hhandling).2]
  constructor <;>
  · refine exists_congr fun other => ⟨fun hother => ⟨?_, hother⟩, fun hother => hother.2⟩
    rintro rfl
    obtain ⟨⟨ax, hax, hjoined⟩, heq⟩ := hother
    exact hself heq.symm ax hax hjoined

/-- The lookups of a class agree with the edges exactly when classes are put into components, or no
axiom joins the class with itself. What they give besides the class itself always agrees. -/
theorem classLookups_agree_iff (h : view.Layered hash) (options : ClassHierarchyOptions) (value : Node) :
    (LookupsAgree hash view options value ↔ options.equivalenceHandling = .component ∨
      ∀ ax ∈ (view.face hash).axioms, ¬JoinedBy options ax value value) ∧
    ∀ node, node ≠ .named value → (node ∈ assertedParents hash view options (.named value) ↔
        ∃ e ∈ iterEdges hash view options, e.child = .named value ∧ e.parent = node) ∧
      (node ∈ assertedChildren hash view options (.named value) ↔
        ∃ e ∈ iterEdges hash view options, e.parent = .named value ∧ e.child = node) := by
  by_cases hhandling : options.equivalenceHandling = .component
  · have hagree : LookupsAgree hash view options value := lookupsAgree_of_component hhandling value
    exact ⟨iff_of_true hagree (.inl hhandling), fun node _ => ⟨hagree.parents node, hagree.children node⟩⟩
  refine ⟨?_, fun node hnode => lookups_iff_edges h hhandling fun heq => absurd heq hnode⟩
  rw [or_iff_right hhandling]
  constructor
  · intro hagree ax hax hjoined
    have hself := (hagree.parents (.named value)).mp
      ((mem_assertedParents_of_ne h hhandling).mpr ⟨value, ⟨ax, hax, hjoined⟩, rfl⟩)
    obtain ⟨other, hne, -, heq⟩ := (exists_edge_of_ne h hhandling).1.mp hself
    exact hne (HierarchyNode.named.inj heq)
  · intro hnone
    exact ⟨fun node => (lookups_iff_edges h hhandling fun _ => hnone).1,
      fun node => (lookups_iff_edges h hhandling fun _ => hnone).2⟩

end

section

def namedClass (iri : String) : Node := .mk .entity [.enum .class, .node (.mk .iri [.text iri])]

/-- `SubClassOf(subClass superClass)`. -/
def subClassAxiom (subClass superClass : Node) : Node := .mk .subClassOf [.node subClass, .node superClass, .set []]

def oneAxiom (ax : Node) (h : Constructible ax) : Snapshot where
  annotations := .empty
  axioms := .single ax h
  extensions := .empty
  structural := oneClass.structural

def reflexiveSnapshot : Snapshot :=
  oneAxiom (subClassAxiom (namedClass "urn:A") (namedClass "urn:A")) (constructible_of_rebuilds (by decide +kernel))

def subClassSnapshot : Snapshot :=
  oneAxiom (subClassAxiom (namedClass "urn:A") (namedClass "urn:B")) (constructible_of_rebuilds (by decide +kernel))

open AssertedClassHierarchyView

/-- A subclass of itself is its own parent and child by the lookups, and there is no edge. -/
theorem classLookups_reflexive :
    assertedParents sha256 (.snapshot reflexiveSnapshot) {} (.named (namedClass "urn:A")) = [.named (namedClass "urn:A")] ∧
      assertedChildren sha256 (.snapshot reflexiveSnapshot) {} (.named (namedClass "urn:A")) =
        [.named (namedClass "urn:A")] ∧
      iterEdges sha256 (.snapshot reflexiveSnapshot) {} = [] := by
  decide +kernel

/-- A subclass of another class: the lookups agree with the edges. -/
theorem classLookups_agree_subClass :
    assertedParents sha256 (.snapshot subClassSnapshot) {} (.named (namedClass "urn:A")) = [.named (namedClass "urn:B")] ∧
      LookupsAgree sha256 (.snapshot subClassSnapshot) {} (namedClass "urn:A") := by
  refine ⟨by decide +kernel, (classLookups_agree_iff (.snapshot subClassSnapshot) _ _).1.mpr (.inr ?_)⟩
  intro ax hax hjoined
  obtain rfl : ax = subClassAxiom (namedClass "urn:A") (namedClass "urn:B") := mem_singleton.mp hax
  have hcanonical := (subClassSnapshot.axioms.constructible _ hax).canonical
  have hedge := (mem_classEdges (e := (namedClass "urn:A", namedClass "urn:A", subClassAxiom (namedClass "urn:A") (namedClass "urn:B")))
    hcanonical).mpr ⟨hjoined, rfl⟩
  exact absurd hedge (by decide +kernel)

end

end OwlCore
