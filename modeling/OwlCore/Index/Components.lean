import OwlCore.Index.HierarchyLookups

/-!
# Components of equivalent classes and properties

Under the handling by components a hierarchy view joins the named operands of its equivalence
axioms and puts the component of a class in its place. The union-find has no ranks and
compresses one step at a time. It gives the classes of the equivalence closure, whatever the
order of the axioms.
-/
namespace OwlCore

open Dictionary List Relation UnionFind

/-- `isinstance(value, ObjectProperty)`. -/
def isObjectProperty (n : Node) : Bool := n.kind? = some .objectProperty

def namedEquivalentProperties : Node → List Node
  | .mk .equivalentObjectProperties (.set properties :: _) => properties.filter isObjectProperty
  | .mk .equivalentDataProperties (.set properties :: _) => properties
  | _ => []

def propertyEdges (handling : EquivalenceHandling) (ax : Node) : List RawEdge :=
  match ax with
  | .mk .subObjectPropertyOf (.node subProperty :: .node superProperty :: _) =>
    if isObjectProperty subProperty && isObjectProperty superProperty then [(subProperty, superProperty, ax)] else []
  | .mk .subDataPropertyOf (.node subProperty :: .node superProperty :: _) => [(subProperty, superProperty, ax)]
  | _ =>
    if handling = .bidirectional then
      (combinations (namedEquivalentProperties ax)).flatMap fun pair => [(pair.1, pair.2, ax), (pair.2, pair.1, ax)]
    else []

namespace AssertedPropertyHierarchyView

variable (hash : Hash) (view : View) (handling : EquivalenceHandling)

def componentMap : List (Node × HierarchyNode) :=
  OwlCore.componentMap handling
    ((equivalenceSets namedEquivalentProperties (propertyHierarchyAxioms hash view)).map Prod.fst)

def iterEdges : List HierarchyEdge :=
  uniqueEdges (selectEdges (componentMap hash view handling)
    ((propertyHierarchyAxioms hash view).flatMap (propertyEdges handling)))

def equivalents (value : Node) : List Node :=
  if handling = .component then
    ((get? (componentMap hash view handling) value).elim [] HierarchyNode.members).filter fun member => member ≠ value
  else
    sortBy Node.bytes
      ((((equivalenceSets namedEquivalentProperties (propertyHierarchyAxioms hash view)).map Prod.fst).flatMap
        fun properties => if value ∈ properties then properties else []).dedup.filter fun item => item ≠ value)

end AssertedPropertyHierarchyView

section

def joinedIn (groups : List (List Node)) : Setoid Node := EqvGen.setoid fun u v => ∃ g ∈ groups, u ∈ g ∧ v ∈ g

theorem joinedIn_append (groups : List (List Node)) (group : List Node) :
    joinedIn (groups ++ [group]) = joinedIn groups ⊔ EqvGen.setoid fun u v => u ∈ group ∧ v ∈ group := by
  rw [joinedIn, joinedIn, Forest.eqvGen_sup]
  congr 1
  funext u v
  simp only [mem_append, mem_singleton, or_and_right, exists_or, exists_eq_left]

namespace ComponentState

variable {state : ComponentState} {groups : List (List Node)}

/-- The state after some groups: its keys are their values, and its classes the closure. -/
structure Joined (state : ComponentState) (groups : List (List Node)) : Prop where
  nodup : state.members.Nodup
  mem_members : ∀ x, x ∈ state.members ↔ ∃ g ∈ groups, x ∈ g
  classes : state.forest.classes = joinedIn groups

theorem mem_members_find : x ∈ (state.find value).2.members ↔ x ∈ state.members ∨ x = value := by
  change x ∈ (if value ∈ state.members then state.members else state.members ++ [value]) ↔ _
  split
  · rename_i hvalue
    refine ⟨.inl, ?_⟩
    rintro (hx | rfl)
    · exact hx
    · exact hvalue
  · rw [mem_append, mem_singleton]

theorem nodup_find (h : state.members.Nodup) (value : Node) : (state.find value).2.members.Nodup := by
  change (if value ∈ state.members then state.members else state.members ++ [value]).Nodup
  split
  · exact h
  · rename_i hvalue
    exact nodup_append.mpr ⟨h, nodup_singleton value, fun a ha b hb heq =>
      hvalue (mem_singleton.mp hb ▸ heq ▸ ha)⟩

theorem classes_join (anchor value : Node) (state : ComponentState) : (state.join anchor value).forest.classes =
    state.forest.classes ⊔ EqvGen.setoid fun u w => u = anchor ∧ w = value := by
  rw [← Forest.classes_hang state.forest value]
  exact Forest.classes_graft _ anchor value

theorem mem_members_joins (anchor : Node) (rest : List Node) :
    ∀ state : ComponentState, x ∈ (rest.foldl (join anchor) state).members ↔ x ∈ state.members ∨ x ∈ rest := by
  induction rest with
  | nil => simp
  | cons value rest ih =>
    intro state
    rw [foldl_cons, ih, mem_cons, ← or_assoc]
    exact or_congr_left mem_members_find

theorem nodup_joins (anchor : Node) (rest : List Node) :
    ∀ state : ComponentState, state.members.Nodup → (rest.foldl (join anchor) state).members.Nodup := by
  induction rest with
  | nil => exact fun _ h => h
  | cons value rest ih => exact fun state h => ih _ (nodup_find h value)

theorem Joined.group (h : state.Joined groups) (group : List Node) : (state.group group).Joined (groups ++ [group]) := by
  have hmembers : ∀ x, (∃ g ∈ groups ++ [group], x ∈ g) ↔ (∃ g ∈ groups, x ∈ g) ∨ x ∈ group := by
    simp only [mem_append, mem_singleton, or_and_right, exists_or, exists_eq_left, implies_true]
  cases group with
  | nil =>
    refine ⟨h.nodup, fun x => ?_, ?_⟩
    · rw [hmembers, ← h.mem_members]
      exact (or_iff_left not_mem_nil).symm
    · rw [joinedIn_append, ← h.classes]
      exact (sup_eq_left.mpr (Setoid.eqvGen_le (by simp))).symm
  | cons first rest =>
    refine ⟨nodup_joins _ rest _ (nodup_find h.nodup first), fun x => ?_, ?_⟩
    · rw [hmembers, ComponentState.group, mem_members_joins, mem_members_find, h.mem_members, mem_cons, or_assoc]
    · have hanchor : state.forest.classes (state.find first).1 first :=
        state.forest.classes.symm' (state.forest.classes_leader first)
      rw [joinedIn_append, ← h.classes, ← Forest.eqvGen_star, ← Forest.sup_star_congr hanchor]
      refine (Forest.classes_foldl (fun s value => classes_join _ value s) rest (state.find first).2).trans ?_
      rw [find, Forest.classes_hang]

theorem joined_foldl (groups : List (List Node)) : (groups.foldl ComponentState.group initial).Joined groups := by
  induction groups using List.reverseRecOn with
  | nil =>
    refine ⟨nodup_nil, by simp [initial], ?_⟩
    ext u v
    rw [Forest.classes_iff]
    constructor
    · intro huv
      obtain rfl : u = v := huv
      exact Setoid.refl' _ u
    · intro huv
      have hle : joinedIn [] ≤ ⊥ := Setoid.eqvGen_le (by simp)
      exact hle huv
  | append_singleton groups group ih =>
    rw [foldl_append]
    exact ih.group group

end ComponentState

/-- A list of the values related to a value, each once and in order. -/
structure ListsClass (s : Setoid Node) (x : Node) (members : List Node) : Prop where
  ascending : KeyedSet.Ascending Node.bytes members
  mem_iff : ∀ y, y ∈ members ↔ s x y

variable {x : Node} {members : List Node}

theorem ListsClass.of_related (h : ListsClass s x members) (hxy : s x y) : ListsClass s y members where
  ascending := h.ascending
  mem_iff z := (h.mem_iff z).trans ⟨s.trans' (s.symm' hxy), s.trans' hxy⟩

theorem ListsClass.ext (h : ListsClass s x members) (h' : ListsClass s x members') : members = members' :=
  h.ascending.ext h'.ascending fun z => (h.mem_iff z).trans (h'.mem_iff z).symm

variable {groups : List (List Node)}

theorem joinedIn_mem (h : joinedIn groups x y) : x = y ∨ (∃ g ∈ groups, x ∈ g) ∧ ∃ g ∈ groups, y ∈ g := by
  replace h : EqvGen (fun u v => ∃ g ∈ groups, u ∈ g ∧ v ∈ g) x y := h
  induction h with
  | rel u v huv =>
    obtain ⟨g, hg, hu, hv⟩ := huv
    exact .inr ⟨⟨g, hg, hu⟩, g, hg, hv⟩
  | refl u => exact .inl rfl
  | symm u v _ ih => exact ih.imp Eq.symm And.symm
  | trans u v w _ _ ih ih' =>
    rcases ih with rfl | ⟨hu, hv⟩
    · exact ih'
    · rcases ih' with rfl | ⟨-, hw⟩
      · exact .inr ⟨hu, hv⟩
      · exact .inr ⟨hu, hw⟩

theorem exists_group_of_joinedIn (hx : ∃ g ∈ groups, x ∈ g) (h : joinedIn groups x y) :
    ∃ g ∈ groups, y ∈ g := by
  rcases joinedIn_mem h with rfl | ⟨-, hy⟩
  · exact hx
  · exact hy

variable {values : List Node}

theorem ascending_sortBy_dedup (h : ∀ n ∈ values, n.Canonical) :
    KeyedSet.Ascending Node.bytes (sortBy Node.bytes values.dedup) := by
  have hnodup : (sortBy Node.bytes values.dedup).Nodup :=
    (KeyedIndex.sortBy_perm _ _).nodup_iff.mpr values.nodup_dedup
  refine (List.Pairwise.and (KeyedIndex.sorted_sortBy _) hnodup).imp_of_mem ?_
  rintro a b ha hb ⟨hle, hne⟩
  refine lt_of_le_of_ne hle fun heq => hne (Node.bytes_injOn ?_ ?_ heq)
  · exact h a (mem_dedup.mp (KeyedIndex.mem_sortBy.mp ha))
  · exact h b (mem_dedup.mp (KeyedIndex.mem_sortBy.mp hb))

theorem ComponentState.Joined.mem_collected {state : ComponentState} (h : state.Joined groups) (he : (leader, values)
    ∈ state.collected) :
    ∃ x, (∃ g ∈ groups, x ∈ g) ∧ ∀ y, y ∈ values ↔ joinedIn groups x y := by
  obtain ⟨hmem, hne⟩ := mem_gather he
  have hvalues : ∀ y, y ∈ values ↔ (∃ g ∈ groups, y ∈ g) ∧ state.forest.leader y = leader := by
    intro y
    rw [hmem, mem_map, ← h.mem_members]
    constructor
    · rintro ⟨z, hz, heq⟩
      obtain ⟨rfl, rfl⟩ := Prod.mk.inj heq
      exact ⟨hz, rfl⟩
    · rintro ⟨hy, rfl⟩
      exact ⟨y, hy, rfl⟩
  obtain ⟨x, hx⟩ := exists_mem_of_ne_nil values hne
  obtain ⟨hgroup, rfl⟩ := (hvalues x).mp hx
  refine ⟨x, hgroup, fun y => ?_⟩
  rw [hvalues, ← h.classes, Forest.classes_iff, eq_comm (a := state.forest.leader y)]
  refine ⟨And.right, fun hxy => ⟨exists_group_of_joinedIn hgroup ?_, hxy⟩⟩
  rwa [← h.classes, Forest.classes_iff]

theorem ComponentState.Joined.exists_collected {state : ComponentState} (h : state.Joined groups)
    (hx : ∃ g ∈ groups, x ∈ g) : ∃ leader values, (leader, values) ∈ state.collected ∧ x ∈ values := by
  have hentry := mem_map_of_mem (f := fun value => (state.forest.leader value, value)) ((h.mem_members x).mpr hx)
  obtain ⟨values, hvalues⟩ := exists_mem_gather hentry
  exact ⟨_, values, hvalues⟩

section

variable (hcanonical : ∀ g ∈ groups, ∀ x ∈ g, x.Canonical)

include hcanonical

theorem listsClass_componentNode (hx : ∃ g ∈ groups, x ∈ g) (h : ∀ y, y ∈ values ↔ joinedIn groups x y) :
    ListsClass (joinedIn groups) x (sortBy Node.bytes values.dedup) := by
  refine ⟨ascending_sortBy_dedup fun y hy => ?_, fun y => ?_⟩
  · obtain ⟨g, hg, hyg⟩ := exists_group_of_joinedIn hx ((h y).mp hy)
    exact hcanonical g hg y hyg
  · rw [KeyedIndex.mem_sortBy, mem_dedup, h]

theorem mem_components {node : HierarchyNode} :
    node ∈ components groups ↔ ∃ x members, (∃ g ∈ groups, x ∈ g) ∧ ListsClass (joinedIn groups) x members ∧
      node = .component members := by
  have hjoined := ComponentState.joined_foldl groups
  rw [components, KeyedIndex.mem_sortBy, mem_map]
  constructor
  · rintro ⟨⟨leader, values⟩, he, rfl⟩
    obtain ⟨x, hx, hvalues⟩ := hjoined.mem_collected he
    exact ⟨x, _, hx, listsClass_componentNode hcanonical hx hvalues, rfl⟩
  · rintro ⟨x, members, hx, hmembers, rfl⟩
    obtain ⟨leader, values, he, hxv⟩ := hjoined.exists_collected hx
    obtain ⟨x', hx', hvalues⟩ := hjoined.mem_collected he
    refine ⟨(leader, values), he, ?_⟩
    rw [componentNode, ((listsClass_componentNode hcanonical hx' hvalues).of_related ((hvalues x).mp hxv)).ext hmembers]

theorem get?_componentMap :
    get? (componentMap .component groups) x = some node ↔ (∃ g ∈ groups, x ∈ g) ∧
      ∃ members, ListsClass (joinedIn groups) x members ∧ node = .component members := by
  have hentries : ∀ e : Node × HierarchyNode,
      e ∈ ((components groups).flatMap fun group => group.members.map fun member => (member, group)) ↔
        (∃ g ∈ groups, e.1 ∈ g) ∧ ∃ members, ListsClass (joinedIn groups) e.1 members ∧ e.2 = .component members := by
    rintro ⟨y, node⟩
    simp only [mem_flatMap, mem_map, Prod.mk.injEq, mem_components hcanonical]
    constructor
    · rintro ⟨_, ⟨x, members, hx, hmembers, rfl⟩, y, hy, rfl, rfl⟩
      have hxy := (hmembers.mem_iff y).mp hy
      exact ⟨exists_group_of_joinedIn hx hxy, members, hmembers.of_related hxy, rfl⟩
    · rintro ⟨hy, members, hmembers, rfl⟩
      exact ⟨_, ⟨y, members, hy, hmembers, rfl⟩, y, (hmembers.mem_iff y).mpr (Setoid.refl' _ y), rfl, rfl⟩
  have hunique : ∀ e ∈ (components groups).flatMap fun group => group.members.map fun member => (member, group),
      ∀ e' ∈ (components groups).flatMap fun group => group.members.map fun member => (member, group),
        e.1 = e'.1 → e = e' := by
    rintro ⟨y, node⟩ he ⟨y', node'⟩ he' heq
    obtain rfl : y = y' := heq
    obtain ⟨-, members, hmembers, rfl⟩ := (hentries _).mp he
    obtain ⟨-, members', hmembers', rfl⟩ := (hentries _).mp he'
    rw [hmembers.ext hmembers']
  rw [componentMap, if_pos rfl, ← hentries (x, node), ← mem_ofEntries hunique]
  exact ⟨mem_of_get?, get?_of_mem (nodup_keys_ofEntries _)⟩

theorem canonical_component (hx : ∃ g ∈ groups, x ∈ g) (h : ListsClass (joinedIn groups) x members) :
    (HierarchyNode.component members).Canonical := by
  intro y hy
  obtain ⟨g, hg, hyg⟩ := exists_group_of_joinedIn hx ((h.mem_iff y).mp hy)
  exact hcanonical g hg y hyg

end

theorem nodup_components (groups : List (List Node)) : (components groups).Nodup := by
  have hjoined := ComponentState.joined_foldl groups
  refine (KeyedIndex.sortBy_perm _ _).nodup_iff.mpr ?_
  have hkeys : ((groups.foldl ComponentState.group .initial).collected).Nodup :=
    .of_map Prod.fst (nodup_keys_gather _)
  refine hkeys.map_on fun e he e' he' heq => ?_
  -- lists with one set of values have one leader
  obtain ⟨leader, values⟩ := e
  obtain ⟨leader', values'⟩ := e'
  have hsame : ∀ y, y ∈ values ↔ y ∈ values' := by
    intro y
    have hsorted := HierarchyNode.component.inj heq
    rw [← mem_dedup (l := values), ← mem_dedup (l := values')]
    have hmem := congrArg (y ∈ ·) hsorted
    simpa only [KeyedIndex.mem_sortBy, eq_iff_iff] using hmem
  obtain ⟨hmem, hne⟩ := mem_gather he
  obtain ⟨hmem', -⟩ := mem_gather he'
  obtain ⟨y, hy⟩ := exists_mem_of_ne_nil values hne
  obtain ⟨z, -, hz⟩ := mem_map.mp ((hmem y).mp hy)
  obtain ⟨z', -, hz'⟩ := mem_map.mp ((hmem' y).mp ((hsame y).mp hy))
  obtain ⟨rfl, rfl⟩ := Prod.mk.inj hz
  obtain ⟨rfl, rfl⟩ := Prod.mk.inj hz'
  have hget := get?_of_mem (nodup_keys_gather _) he
  rw [get?_of_mem (nodup_keys_gather _) he', Option.some.injEq] at hget
  rw [hget]

theorem components_congr (hcanonical : ∀ g ∈ groups, ∀ x ∈ g, x.Canonical) (h : ∀ x y, (∃ g ∈ groups, x ∈ g ∧ y ∈ g) ↔
    ∃ g ∈ groups', x ∈ g ∧ y ∈ g) :
    components groups = components groups' := by
  have hgroups : ∀ x, (∃ g ∈ groups, x ∈ g) ↔ ∃ g ∈ groups', x ∈ g := by
    intro x
    simpa only [and_self] using h x x
  have hcanonical' : ∀ g ∈ groups', ∀ x ∈ g, x.Canonical := by
    intro g hg x hx
    obtain ⟨g', hg', hx'⟩ := (hgroups x).mpr ⟨g, hg, hx⟩
    exact hcanonical g' hg' x hx'
  have hrelation : joinedIn groups = joinedIn groups' := by
    rw [joinedIn, joinedIn]
    congr 1
    funext u v
    exact propext (h u v)
  have hmem : ∀ node, node ∈ components groups ↔ node ∈ components groups' := by
    intro node
    rw [mem_components hcanonical, mem_components hcanonical', hrelation]
    simp only [hgroups]
  have hperm : (components groups).Perm (components groups') :=
    (perm_ext_iff_of_nodup (nodup_components _) (nodup_components _)).mpr hmem
  refine hperm.eq_of_pairwise (fun a b ha hb hab hba => ?_) (KeyedIndex.sorted_sortBy _) (KeyedIndex.sorted_sortBy _)
  have hnode : ∀ node ∈ components groups, node.Canonical := by
    intro node hnode
    obtain ⟨x, members, hx, hmembers, rfl⟩ := (mem_components hcanonical).mp hnode
    exact canonical_component hcanonical hx hmembers
  exact HierarchyNode.key_inj (hnode a ha) (hnode b ((hmem b).mpr hb)) (le_antisymm hab hba)

end

section

variable {named : Node → List Node} {axioms : List Node}

/-- The closure of standing among the named operands of one axiom. -/
def equivalenceClosure (named : Node → List Node) (axioms : List Node) : Setoid Node :=
  EqvGen.setoid fun x y => ∃ ax ∈ axioms, x ∈ named ax ∧ y ∈ named ax

def HasEquivalent (named : Node → List Node) (axioms : List Node) (x : Node) : Prop :=
  ∃ ax ∈ axioms, x ∈ named ax ∧ ∃ y ∈ named ax, y ≠ x

/-- The node of a value: its component if it has an asserted equivalent, and otherwise itself. -/
inductive SelectsNode (named : Node → List Node) (axioms : List Node) (x : Node) : HierarchyNode → Prop where
  | component {members : List Node} (equivalent : HasEquivalent named axioms x)
      (lists : ListsClass (equivalenceClosure named axioms) x members) : SelectsNode named axioms x (.component members)
  | named (alone : ¬HasEquivalent named axioms x) : SelectsNode named axioms x (.named x)

/-- The named operands of every axiom are a set of canonical values. -/
structure NamedSets (named : Node → List Node) (axioms : List Node) : Prop where
  canonical : ∀ ax ∈ axioms, ∀ x ∈ named ax, x.Canonical
  nodup : ∀ ax ∈ axioms, (named ax).Nodup

def equivalenceGroups (named : Node → List Node) (axioms : List Node) : List (List Node) :=
  (equivalenceSets named axioms).map Prod.fst

theorem mem_equivalenceGroups :
    g ∈ equivalenceGroups named axioms ↔ ∃ ax ∈ axioms, named ax = g ∧ 2 ≤ g.length := by
  simp only [equivalenceGroups, equivalenceSets, mem_map, KeyedIndex.mem_sortBy, mem_filter, decide_eq_true_eq]
  constructor
  · rintro ⟨_, ⟨⟨ax, hax, rfl⟩, hlength⟩, rfl⟩
    exact ⟨ax, hax, rfl, hlength⟩
  · rintro ⟨ax, hax, rfl, hlength⟩
    exact ⟨_, ⟨⟨ax, hax, rfl⟩, hlength⟩, rfl⟩

variable {x : Node}

theorem eq_of_length_lt_two {l : List Node} (h : ¬2 ≤ l.length) (hx : x ∈ l) (hy : y ∈ l) : x = y := by
  obtain ⟨z, rfl⟩ := length_eq_one_iff.mp (show l.length = 1 by have := length_pos_of_mem hx; omega)
  exact (mem_singleton.mp hx).trans (mem_singleton.mp hy).symm

theorem joinedIn_equivalenceGroups : joinedIn (equivalenceGroups named axioms) = equivalenceClosure named axioms := by
  apply le_antisymm
  · apply Setoid.eqvGen_mono
    rintro x y ⟨g, hg, hx, hy⟩
    obtain ⟨ax, hax, rfl, -⟩ := mem_equivalenceGroups.mp hg
    exact ⟨ax, hax, hx, hy⟩
  · apply Setoid.eqvGen_le
    rintro x y ⟨ax, hax, hx, hy⟩
    by_cases hlength : 2 ≤ (named ax).length
    · exact .rel _ _ ⟨_, mem_equivalenceGroups.mpr ⟨ax, hax, rfl, hlength⟩, hx, hy⟩
    · rw [eq_of_length_lt_two hlength hx hy]

section

variable (h : NamedSets named axioms)

include h

theorem mem_group_iff :
    (∃ g ∈ equivalenceGroups named axioms, x ∈ g) ↔ HasEquivalent named axioms x := by
  constructor
  · rintro ⟨g, hg, hx⟩
    obtain ⟨ax, hax, rfl, hlength⟩ := mem_equivalenceGroups.mp hg
    refine ⟨ax, hax, hx, ?_⟩
    by_contra hall
    have hsubset : named ax ⊆ [x] := fun y hy => mem_singleton.mpr (not_not.mp fun hne => hall ⟨y, hy, hne⟩)
    have hle := (subperm_of_subset (h.nodup ax hax) hsubset).length_le
    rw [length_singleton] at hle
    omega
  · rintro ⟨ax, hax, hx, y, hy, hne⟩
    refine ⟨named ax, mem_equivalenceGroups.mpr ⟨ax, hax, rfl, ?_⟩, hx⟩
    by_contra hlength
    exact hne (eq_of_length_lt_two hlength hy hx)

theorem canonical_equivalenceGroups :
    ∀ g ∈ equivalenceGroups named axioms, ∀ x ∈ g, x.Canonical := by
  intro g hg x hx
  obtain ⟨ax, hax, rfl, -⟩ := mem_equivalenceGroups.mp hg
  exact h.canonical ax hax x hx

theorem get?_equivalenceGroups :
    get? (componentMap .component (equivalenceGroups named axioms)) x = some node ↔ HasEquivalent named axioms x ∧
      ∃ members, ListsClass (equivalenceClosure named axioms) x members ∧ node = .component members := by
  rw [get?_componentMap (canonical_equivalenceGroups h), mem_group_iff h, joinedIn_equivalenceGroups]

theorem exists_get?_equivalenceGroups (hx : HasEquivalent named axioms x) :
    ∃ members, ListsClass (equivalenceClosure named axioms) x members ∧
      get? (componentMap .component (equivalenceGroups named axioms)) x = some (.component members) := by
  have hjoined := ComponentState.joined_foldl (equivalenceGroups named axioms)
  obtain ⟨leader, values, he, hxv⟩ := hjoined.exists_collected ((mem_group_iff h).mpr hx)
  obtain ⟨x', hx', hvalues⟩ := hjoined.mem_collected he
  have hlists := (listsClass_componentNode (canonical_equivalenceGroups h) hx' hvalues).of_related ((hvalues x).mp hxv)
  rw [joinedIn_equivalenceGroups] at hlists
  exact ⟨_, hlists, (get?_equivalenceGroups h).mpr ⟨hx, _, hlists, rfl⟩⟩

theorem get?_of_alone (hx : ¬HasEquivalent named axioms x) :
    get? (componentMap .component (equivalenceGroups named axioms)) x = none := by
  rw [Option.eq_none_iff_forall_ne_some]
  exact fun node hnode => hx ((get?_equivalenceGroups h).mp hnode).1

theorem listsClass_singleton (hx : ¬HasEquivalent named axioms x) :
    ListsClass (equivalenceClosure named axioms) x [x] := by
  refine ⟨pairwise_singleton _ x, fun y => ?_⟩
  rw [mem_singleton]
  constructor
  · rintro rfl
    exact Setoid.refl' _ y
  · intro hxy
    rw [← joinedIn_equivalenceGroups] at hxy
    rcases joinedIn_mem hxy with rfl | ⟨hgroup, -⟩
    · rfl
    · exact absurd ((mem_group_iff h).mp hgroup) hx

theorem selectNode_eq_iff :
    node = selectNode (componentMap .component (equivalenceGroups named axioms)) x ↔ SelectsNode named axioms x node := by
  rw [selectNode]
  by_cases hx : HasEquivalent named axioms x
  · obtain ⟨members, hmembers, hget⟩ := exists_get?_equivalenceGroups h hx
    rw [hget, Option.getD_some]
    constructor
    · rintro rfl
      exact .component hx hmembers
    · intro hselects
      cases hselects with
      | component _ hmembers' => rw [hmembers.ext hmembers']
      | named halone => exact absurd hx halone
  · rw [get?_of_alone h hx, Option.getD_none]
    constructor
    · rintro rfl
      exact .named hx
    · intro hselects
      cases hselects with
      | component hequivalent => exact absurd hequivalent hx
      | named => rfl

end

/-- The edges of a view: one for every axiom and pair of different nodes that the axiom joins. -/
structure ExactEdges (axioms : List Node) (joins : Node → Node → Node → Prop)
    (selects : Node → HierarchyNode → Prop) (edges : List HierarchyEdge) : Prop where
  nodup : edges.Nodup
  mem_iff : ∀ e, e ∈ edges ↔ e.child ≠ e.parent ∧ e.ax ∈ axioms ∧
    ∃ child parent, joins e.ax child parent ∧ selects child e.child ∧ selects parent e.parent

theorem exactEdges_component (h : NamedSets named axioms) (hraw : ∀ e : RawEdge, e ∈ raw ↔ e.2.2 ∈ listed ∧ joins
    e.2.2 e.1 e.2.1) (hcanonical : ∀ e ∈ raw, e.1.Canonical ∧ e.2.1.Canonical ∧ e.2.2.Canonical) :
    ExactEdges listed joins (SelectsNode named axioms)
      (uniqueEdges (selectEdges (componentMap .component (equivalenceGroups named axioms)) raw)) := by
  have hcomponents : ∀ value node, get? (componentMap .component (equivalenceGroups named axioms)) value = some node →
      node.Canonical := by
    intro value node hget
    obtain ⟨hgroup, members, hmembers, rfl⟩ := (get?_componentMap (canonical_equivalenceGroups h)).mp hget
    exact canonical_component (canonical_equivalenceGroups h) hgroup hmembers
  obtain ⟨hascending, hmem⟩ := uniqueEdges_spec (canonical_selectEdges hcomponents hcanonical)
  refine ⟨hascending.nodup, fun e => ?_⟩
  rw [hmem, mem_selectEdges]
  simp only [selectNode_eq_iff h, hraw, and_assoc, exists_and_left]

theorem exists_listsClass (h : NamedSets named axioms) (x : Node) :
    ∃ members, ListsClass (equivalenceClosure named axioms) x members ∧
      (get? (componentMap .component (equivalenceGroups named axioms)) x).getD (componentNode [x]) =
        .component members ∧
      ((get? (componentMap .component (equivalenceGroups named axioms)) x).elim [] HierarchyNode.members).filter
        (fun member => member ≠ x) = members.filter fun member => member ≠ x := by
  by_cases hx : HasEquivalent named axioms x
  · obtain ⟨members, hmembers, hget⟩ := exists_get?_equivalenceGroups h hx
    refine ⟨members, hmembers, ?_, ?_⟩ <;> rw [hget] <;> rfl
  · refine ⟨[x], listsClass_singleton h hx, ?_, ?_⟩
    · rw [get?_of_alone h hx]
      rfl
    · rw [get?_of_alone h hx]
      simp

end

section

variable {hash : Hash} {view : View}

theorem namedSets_classes (h : view.Layered hash) :
    NamedSets namedEquivalentClasses (classHierarchyAxioms hash view) := by
  have hcanonical : ∀ ax ∈ classHierarchyAxioms hash view, ax.Canonical := fun ax hax =>
    (h.readableAxiom ax ((mem_classHierarchyAxioms h).mp hax).1).readable.canonical
  refine ⟨fun ax hax x hx => ?_, fun ax hax => nodup_namedEquivalentClasses (hcanonical ax hax)⟩
  exact (hcanonical ax hax).child (mem_operands_classAxiom (mem_namedEquivalentClasses hx).1).1

theorem mem_propertyHierarchyAxioms (h : view.Layered hash) :
    ax ∈ propertyHierarchyAxioms hash view ↔ ax ∈ (view.face hash).axioms ∧ ax.constructor ∈ propertyAxiomTypes := by
  rw [propertyHierarchyAxioms, hierarchyAxioms, iter_layeredRuns h (typesSelection_picks _), mem_ofTypes]

theorem namedEquivalentProperties_spec (ax : Node) :
    (ax.Canonical → (namedEquivalentProperties ax).Nodup) ∧ ∀ x ∈ namedEquivalentProperties ax,
      x ∈ ax.children ∧ ax.constructor ∈ propertyAxiomTypes := by
  unfold namedEquivalentProperties
  split
  · refine ⟨fun h => (h.here.ascending _ mem_cons_self).nodup.filter _, fun x hx => ⟨?_, ?_⟩⟩
    · exact mem_append_left _ (mem_of_mem_filter hx)
    · simp [propertyAxiomTypes]
  · refine ⟨fun h => (h.here.ascending _ mem_cons_self).nodup, fun x hx => ⟨?_, ?_⟩⟩
    · exact mem_append_left _ hx
    · simp [propertyAxiomTypes]
  · exact ⟨fun _ => nodup_nil, by simp⟩

theorem canonical_propertyAxiom (h : view.Layered hash) :
    ∀ ax ∈ propertyHierarchyAxioms hash view, ax.Canonical := fun ax hax =>
  h.sound.canonical ax (Face.mem_roots.mpr (.inr (.inl ((mem_propertyHierarchyAxioms h).mp hax).1)))

theorem namedSets_properties (h : view.Layered hash) :
    NamedSets namedEquivalentProperties (propertyHierarchyAxioms hash view) := by
  refine ⟨fun ax hax x hx => ?_, fun ax hax => ?_⟩
  · exact (canonical_propertyAxiom h ax hax).child ((namedEquivalentProperties_spec ax).2 x hx).1
  · exact (namedEquivalentProperties_spec ax).1 (canonical_propertyAxiom h ax hax)

inductive PropertyInclusion (ax : Node) : Node → Node → Prop where
  | object {subProperty superProperty : Node} {rest : List (Value Node)}
      (read : ax = .mk .subObjectPropertyOf (.node subProperty :: .node superProperty :: rest))
      (sub_property : isObjectProperty subProperty) (super_property : isObjectProperty superProperty) :
      PropertyInclusion ax subProperty superProperty
  | data {subProperty superProperty : Node} {rest : List (Value Node)}
      (read : ax = .mk .subDataPropertyOf (.node subProperty :: .node superProperty :: rest)) :
      PropertyInclusion ax subProperty superProperty

theorem mem_propertyEdges :
    e ∈ propertyEdges .component ax ↔ PropertyInclusion ax e.1 e.2.1 ∧ e.2.2 = ax := by
  obtain ⟨child, parent, ax'⟩ := e
  constructor
  · intro he
    unfold propertyEdges at he
    split at he
    · split at he
      · rename_i hnamed
        obtain ⟨hsub, hsup⟩ := Bool.and_eq_true_iff.mp hnamed
        simp only [mem_singleton, Prod.mk.injEq] at he
        obtain ⟨rfl, rfl, rfl⟩ := he
        exact ⟨.object rfl hsub hsup, rfl⟩
      · cases he
    · simp only [mem_singleton, Prod.mk.injEq] at he
      obtain ⟨rfl, rfl, rfl⟩ := he
      exact ⟨.data rfl, rfl⟩
    · simp at he
  · rintro ⟨hincluded, heq⟩
    obtain rfl : ax' = ax := heq
    dsimp only at hincluded
    cases hincluded with
    | object hread hsub hsup =>
      subst hread
      simp [propertyEdges, hsub, hsup]
    | data hread =>
      subst hread
      simp [propertyEdges]

theorem PropertyInclusion.children (h : PropertyInclusion ax child parent) :
    child ∈ ax.children ∧ parent ∈ ax.children ∧ ax.constructor ∈ propertyAxiomTypes := by
  cases h with
  | object hread => simp [hread, Node.children, propertyAxiomTypes]
  | data hread => simp [hread, Node.children, propertyAxiomTypes]

theorem mem_rawPropertyEdges (h : view.Layered hash) :
    e ∈ (propertyHierarchyAxioms hash view).flatMap (propertyEdges .component) ↔
      e.2.2 ∈ (view.face hash).axioms ∧ PropertyInclusion e.2.2 e.1 e.2.1 := by
  rw [mem_flatMap]
  constructor
  · rintro ⟨ax, hax, he⟩
    obtain ⟨hincluded, rfl⟩ := mem_propertyEdges.mp he
    exact ⟨((mem_propertyHierarchyAxioms h).mp hax).1, hincluded⟩
  · rintro ⟨hax, hincluded⟩
    exact ⟨_, (mem_propertyHierarchyAxioms h).mpr ⟨hax, hincluded.children.2.2⟩, mem_propertyEdges.mpr ⟨hincluded, rfl⟩⟩

theorem selectsNode_congr (h : ∀ ax x, x ∈ named ax → (ax ∈ axioms ↔ ax ∈ axioms')) :
    equivalenceClosure named axioms = equivalenceClosure named axioms' ∧
      SelectsNode named axioms = SelectsNode named axioms' := by
  have hclosure : equivalenceClosure named axioms = equivalenceClosure named axioms' := by
    rw [equivalenceClosure, equivalenceClosure]
    congr 1
    funext x y
    refine propext (exists_congr fun ax => and_congr_left fun hx => h ax x hx.1)
  have hequivalent : HasEquivalent named axioms = HasEquivalent named axioms' :=
    funext fun x => propext (exists_congr fun ax => and_congr_left fun hx => h ax x hx.1)
  refine ⟨hclosure, ?_⟩
  funext x node
  refine propext ⟨?_, ?_⟩ <;>
  · intro hselects
    cases hselects with
    | component hx hlists => exact .component (hequivalent ▸ hx) (hclosure ▸ hlists)
    | named hx => exact .named (hequivalent ▸ hx)

/-- A snapshot of `EquivalentClasses(A B)`. -/
def equivalentSnapshot : Snapshot :=
  oneAxiom (.mk .equivalentClasses [.set [namedClass "urn:A", namedClass "urn:B"], .set []])
    (constructible_of_rebuilds (by decide +kernel))

/-- The component of a class is its class in the closure of the asserted equivalences, its equivalents
are the others of that class; likewise for properties. There is one edge for every inclusion axiom and
pair of different nodes it joins. Components depend only on which values stand in one group. -/
theorem hierarchyComponents_exact (h : view.Layered hash) :
    (∀ options : ClassHierarchyOptions, options.equivalenceHandling = .component →
      (∀ x, ∃ members, ListsClass (equivalenceClosure namedEquivalentClasses (view.face hash).axioms) x members ∧
        AssertedClassHierarchyView.component hash view options x = .component members ∧
        AssertedClassHierarchyView.equivalents hash view options x = members.filter fun member => member ≠ x) ∧
      ExactEdges (view.face hash).axioms (JoinedBy options)
        (SelectsNode namedEquivalentClasses (view.face hash).axioms)
        (AssertedClassHierarchyView.iterEdges hash view options)) ∧
    (∀ x, ∃ members, ListsClass (equivalenceClosure namedEquivalentProperties (view.face hash).axioms) x members ∧
      AssertedPropertyHierarchyView.equivalents hash view .component x = members.filter fun member => member ≠ x) ∧
    ExactEdges (view.face hash).axioms PropertyInclusion
      (SelectsNode namedEquivalentProperties (view.face hash).axioms)
      (AssertedPropertyHierarchyView.iterEdges hash view .component) ∧
    ∀ groups groups' : List (List Node), (∀ g ∈ groups, ∀ x ∈ g, x.Canonical) →
      (∀ x y, (∃ g ∈ groups, x ∈ g ∧ y ∈ g) ↔ ∃ g ∈ groups', x ∈ g ∧ y ∈ g) →
      components groups = components groups' := by
  have hclass : ∀ ax x, x ∈ namedEquivalentClasses ax →
      (ax ∈ classHierarchyAxioms hash view ↔ ax ∈ (view.face hash).axioms) := fun ax x hx =>
    (mem_classHierarchyAxioms h).trans (and_iff_left (mem_operands_classAxiom (mem_namedEquivalentClasses hx).1).2)
  have hproperty : ∀ ax x, x ∈ namedEquivalentProperties ax →
      (ax ∈ propertyHierarchyAxioms hash view ↔ ax ∈ (view.face hash).axioms) := fun ax x hx =>
    (mem_propertyHierarchyAxioms h).trans (and_iff_left ((namedEquivalentProperties_spec ax).2 x hx).2)
  rw [← (selectsNode_congr hclass).1, ← (selectsNode_congr hclass).2, ← (selectsNode_congr hproperty).1,
    ← (selectsNode_congr hproperty).2]
  have hclasses := namedSets_classes h
  have hproperties := namedSets_properties h
  refine ⟨fun options hhandling => ⟨fun x => ?_, ?_⟩, fun x => ?_, ?_, fun groups groups' hcanonical hsame =>
    components_congr hcanonical hsame⟩
  · obtain ⟨members, hlists, hcomponent, hequivalents⟩ := exists_listsClass hclasses x
    refine ⟨members, hlists, ?_, ?_⟩
    · rw [AssertedClassHierarchyView.component, AssertedClassHierarchyView.componentMap, hhandling]
      exact hcomponent
    · rw [AssertedClassHierarchyView.equivalents, if_pos hhandling, AssertedClassHierarchyView.componentMap, hhandling]
      exact hequivalents
  · rw [AssertedClassHierarchyView.iterEdges, AssertedClassHierarchyView.componentMap, hhandling]
    exact exactEdges_component hclasses (fun e => mem_rawClassEdges h) (canonical_rawClassEdges h)
  · obtain ⟨members, hlists, -, hequivalents⟩ := exists_listsClass hproperties x
    refine ⟨members, hlists, ?_⟩
    rw [AssertedPropertyHierarchyView.equivalents, if_pos rfl]
    exact hequivalents
  · refine exactEdges_component hproperties (fun e => mem_rawPropertyEdges h) fun e he => ?_
    obtain ⟨hax, hincluded⟩ := (mem_rawPropertyEdges h).mp he
    have hcanonical := h.sound.canonical _ (Face.mem_roots.mpr (.inr (.inl hax)))
    obtain ⟨hchild, hparent, -⟩ := hincluded.children
    exact ⟨hcanonical.child hchild, hcanonical.child hparent, hcanonical⟩

/-- Two equivalent classes are one component. -/
theorem hierarchyComponents_exact_equivalent : ∃ members,
    AssertedClassHierarchyView.component sha256 (.snapshot equivalentSnapshot) { equivalenceHandling := .component }
      (namedClass "urn:A") = .component members ∧
    ListsClass (equivalenceClosure namedEquivalentClasses ((View.snapshot equivalentSnapshot).face sha256).axioms)
      (namedClass "urn:A") members ∧ members = [namedClass "urn:A", namedClass "urn:B"] := by
  obtain ⟨members, hlists, hcomponent, -⟩ := ((hierarchyComponents_exact (.snapshot equivalentSnapshot)).1
    { equivalenceHandling := .component } rfl).1 (namedClass "urn:A")
  refine ⟨members, hcomponent, hlists, ?_⟩
  have hboth : AssertedClassHierarchyView.component sha256 (.snapshot equivalentSnapshot)
      { equivalenceHandling := .component } (namedClass "urn:A") =
        .component [namedClass "urn:A", namedClass "urn:B"] := by decide +kernel
  exact HierarchyNode.component.inj (hcomponent.symm.trans hboth)

end

end OwlCore
