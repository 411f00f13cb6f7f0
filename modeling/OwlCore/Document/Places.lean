import OwlCore.Document.Freeze

/-!
# Places of blank labels

A label is placed by the canonical graph of its component, the ordinal of that component in its
class and the position in the canonical order. Labels have distinct places, which depend on the
multiset of graphs only.
-/
namespace OwlCore

open Fallible List

def AlphaCanonicalization.order {L : Type} (canonicalization : AlphaCanonicalization L) : List L :=
  canonicalization.bindings.map (·.sourceLabel)

theorem map_sourceLabel_bindingsForOrder (hash : Hash) (order : List L) (scope : Scope) (graph : Bytes) (ordinal :
    Nat) :
    (bindingsForOrder hash order scope graph ordinal).map (·.sourceLabel) = order := by
  simp [bindingsForOrder, Function.comp_def]

/-- The components of some arcs, each with a canonical order of its labels. -/
structure Solves (arcs : List (BlankNodeArc String)) (solved : List SolvedComponent) : Prop where
  partition : IsPartition arcs (solved.map Prod.fst)
  order_perm : ∀ item ∈ solved, item.2.order.Perm item.1.labels
  graph_eq : ∀ item ∈ solved, item.2.canonicalGraph = serializeGraph item.2.order item.1.arcs

theorem IsPartition.ends_mem {arcs : List (BlankNodeArc String)} {components : List BlankComponent}
    (h : IsPartition arcs components) {c : BlankComponent} (hc : c ∈ components)
    {arc : BlankNodeArc String} (harc : arc ∈ c.arcs) : ∀ l ∈ arc.ends, l ∈ c.labels := by
  intro l hl
  obtain ⟨hmem, hsource⟩ := mem_filter.mp ((h.arcs_perm c hc).mem_iff.mp harc)
  have hsource : arc.source ∈ c.labels := by simpa using hsource
  exact (h.mem_labels c hc _ hsource l).mpr (connected_of_mem hmem arc.source_mem_ends hl)

theorem IsPartition.component_unique {arcs : List (BlankNodeArc String)} {components : List BlankComponent}
    (h : IsPartition arcs components) {c c' : BlankComponent} (hc : c ∈ components)
    (hc' : c' ∈ components) {l : String} (hl : l ∈ c.labels) (hl' : l ∈ c'.labels) : c = c' := by
  have hlabels : c.labels = c'.labels := by
    refine (h.labels_ascending c hc).ext (h.labels_ascending c' hc') fun x => ?_
    rw [h.mem_labels c hc l hl, h.mem_labels c' hc' l hl']
  exact h.ascending.keyInjOn _ _ hc hc' hlabels

theorem IsPartition.labelSet_eq {arcs : List (BlankNodeArc String)} {components : List BlankComponent}
    (h : IsPartition arcs components) {c : BlankComponent} (hc : c ∈ components) :
    labelSet c.arcs c.labels = c.labels := by
  refine (KeyedSet.ascending_ofList _).ext (h.labels_ascending c hc) fun l => ?_
  change l ∈ labelSet c.arcs c.labels ↔ l ∈ c.labels
  rw [mem_labelSet]
  constructor
  · rintro (hl | ⟨arc, harc, hl⟩)
    · exact hl
    · exact h.ends_mem hc harc l hl
  · exact .inl

theorem canonicalizeBlankComponents_ok {hash : Hash} {limits : ParseLimits}
    {arcs : List (BlankNodeArc String)} {components : List BlankComponent} {solved : List SolvedComponent}
    (hpartition : IsPartition arcs components)
    (h : canonicalizeBlankComponents hash limits components = .ok solved) :
    solved.map Prod.fst = components ∧ Solves arcs solved ∧ ∀ item ∈ solved,
      alphaCanonicalizeBlankNodes hash limits item.1.arcs (provisionalScope hash) item.1.labels = .ok item.2 := by
  rw [canonicalizeBlankComponents, mapM_eq_ok] at h
  have hfirst : solved.map Prod.fst = components := by
    clear hpartition
    induction h with
    | nil => rfl
    | cons hitem _ ih =>
      obtain ⟨r, -, hr⟩ := bind_eq_ok.mp hitem
      simp [← Except.ok.inj hr, ih]
  have hcall : ∀ item ∈ solved, item.1 ∈ components ∧
      alphaCanonicalizeBlankNodes hash limits item.1.arcs (provisionalScope hash) item.1.labels = .ok item.2 := by
    intro item hitem
    obtain ⟨c, hc, hok⟩ := exists_of_mem_mapM (mapM_eq_ok.mpr h) hitem
    obtain ⟨r, hcall, hr⟩ := bind_eq_ok.mp hok
    rw [← Except.ok.inj hr]
    exact ⟨hc, hcall⟩
  have horder : ∀ item ∈ solved, item.2.order.Perm item.1.labels ∧
      item.2.canonicalGraph = serializeGraph item.2.order item.1.arcs := by
    intro item hitem
    obtain ⟨hmem, hok⟩ := hcall item hitem
    obtain ⟨order, hperm, hgraph, hbindings⟩ := alphaCanonicalizeBlankNodes_ok hash limits hok
    have heq : item.2.order = order := by
      rw [AlphaCanonicalization.order, hbindings, map_sourceLabel_bindingsForOrder]
    rw [hpartition.labelSet_eq hmem] at hperm
    exact ⟨heq ▸ hperm, heq ▸ hgraph⟩
  refine ⟨hfirst, ⟨hfirst ▸ hpartition, fun item hi => (horder item hi).1, fun item hi => (horder item hi).2⟩,
    fun item hi => (hcall item hi).2⟩

structure Place where
  graph : Bytes
  ordinal : Nat
  index : Nat
  deriving DecidableEq

def PlacedAt (solved : List SolvedComponent) (label : String) (place : Place) : Prop :=
  ∃ item, (componentClass solved place.graph)[place.ordinal]? = some item ∧ item.2.order[place.index]? = some label

def Place.individual (hash : Hash) (scope : Scope) (place : Place) : AnonymousIndividual :=
  componentIndividual hash scope place.graph place.ordinal place.index

theorem mem_componentClass :
    item ∈ componentClass solved graph ↔ item ∈ solved ∧ item.2.canonicalGraph = graph := by
  rw [componentClass, mem_insertionSort, mem_filter, decide_eq_true_eq]

section

variable (h : Solves arcs solved)

include h

theorem Solves.nodup : solved.Nodup :=
  h.partition.ascending.nodup.of_map _

theorem Solves.nodup_componentClass (graph : Bytes) :
    (componentClass solved graph).Nodup :=
  (perm_insertionSort _ _).nodup_iff.mpr (h.nodup.filter _)

theorem Solves.nodup_order (hitem : item ∈ solved) :
    item.2.order.Nodup :=
  (h.order_perm item hitem).nodup_iff.mpr
    (h.partition.labels_ascending item.1 (mem_map_of_mem hitem)).nodup

theorem Solves.item_unique (hitem : item ∈ solved) (hitem' : item' ∈ solved) (hl : l ∈
    item.1.labels) (hl' : l ∈ item'.1.labels) : item = item' := by
  have hfirst : item.1 = item'.1 := h.partition.component_unique (mem_map_of_mem hitem)
    (mem_map_of_mem hitem') hl hl'
  exact inj_on_of_nodup_map h.partition.ascending.nodup hitem hitem' hfirst

theorem PlacedAt.item (hplace : PlacedAt solved l place) :
    ∃ item ∈ solved, item.2.canonicalGraph = place.graph ∧ l ∈ item.1.labels ∧
      (componentClass solved place.graph)[place.ordinal]? = some item ∧
      item.2.order[place.index]? = some l := by
  obtain ⟨item, hclass, horder⟩ := hplace
  obtain ⟨hitem, hgraph⟩ := mem_componentClass.mp (mem_of_getElem? hclass)
  exact ⟨item, hitem, hgraph, (h.order_perm item hitem).mem_iff.mp (mem_of_getElem? horder), hclass, horder⟩

end

theorem getElem?_inj_of_nodup {α : Type} {l : List α} (h : l.Nodup) {i j : Nat} {a : α}
    (hi : l[i]? = some a) (hj : l[j]? = some a) : i = j := by
  obtain ⟨hi', hia⟩ := List.getElem?_eq_some_iff.mp hi
  obtain ⟨hj', hja⟩ := List.getElem?_eq_some_iff.mp hj
  exact (h.getElem_inj_iff).mp (hia.trans hja.symm)

theorem PlacedAt.place_unique (h : Solves arcs solved) {l : String} {place place' : Place}
    (hplace : PlacedAt solved l place) (hplace' : PlacedAt solved l place') : place = place' := by
  obtain ⟨item, hitem, hgraph, hl, hclass, horder⟩ := hplace.item h
  obtain ⟨item', hitem', hgraph', hl', hclass', horder'⟩ := hplace'.item h
  obtain rfl := h.item_unique hitem hitem' hl hl'
  have hsame : place.graph = place'.graph := hgraph.symm.trans hgraph'
  rw [← hsame] at hclass'
  have hordinal := getElem?_inj_of_nodup (h.nodup_componentClass _) hclass hclass'
  have hindex := getElem?_inj_of_nodup (h.nodup_order hitem) horder horder'
  cases place
  cases place'
  simp_all

theorem PlacedAt.label_unique (hplace : PlacedAt solved l place) (hplace' : PlacedAt solved l' place) : l = l' := by
  obtain ⟨item, hclass, horder⟩ := hplace
  obtain ⟨item', hclass', horder'⟩ := hplace'
  obtain rfl := Option.some.inj (hclass.symm.trans hclass')
  exact Option.some.inj (horder.symm.trans horder')

theorem Solves.exists_place (h : Solves arcs solved) (hl : ∃ arc ∈ arcs, l ∈ arc.ends) :
    ∃ place, PlacedAt solved l place := by
  obtain ⟨arc, harc, hend⟩ := hl
  obtain ⟨c, hc, hlabel⟩ := h.partition.exists_component arc harc l hend
  obtain ⟨item, hitem, rfl⟩ := mem_map.mp hc
  have hclass : item ∈ componentClass solved item.2.canonicalGraph := mem_componentClass.mpr ⟨hitem, rfl⟩
  obtain ⟨ordinal, hordinal⟩ := mem_iff_getElem?.mp hclass
  obtain ⟨index, hindex⟩ := mem_iff_getElem?.mp ((h.order_perm item hitem).mem_iff.mpr hlabel)
  exact ⟨⟨item.2.canonicalGraph, ordinal, index⟩, item, hordinal, hindex⟩

theorem mem_componentBindings {hash : Hash} {scope : Scope} {binding : BlankNodeBinding String} :
    binding ∈ componentBindings hash scope solved ↔
      ∃ place, PlacedAt solved binding.sourceLabel place ∧ binding.canonicalIndex = place.index ∧
        binding.individual = place.individual hash scope := by
  simp only [componentBindings, mem_flatMap, bindComponentBlankNodes, bindingsForOrder,
    mem_map, KeyedSet.mem_ofList_id, Prod.exists, mem_zipIdx_iff_getElem?]
  constructor
  · rintro ⟨graph, -, c, r, ordinal, hclass, l, index, hl, rfl⟩
    have hgraph : r.canonicalGraph = graph := (mem_componentClass.mp (mem_of_getElem? hclass)).2
    exact ⟨⟨graph, ordinal, index⟩, ⟨(c, r), hclass, hl⟩, rfl, by rw [hgraph]; rfl⟩
  · rintro ⟨place, ⟨⟨c, r⟩, hclass, hl⟩, hindex, hindividual⟩
    obtain ⟨hmem, hgraph⟩ := mem_componentClass.mp (mem_of_getElem? hclass)
    refine ⟨place.graph, ⟨c, r, hmem, hgraph⟩, c, r, place.ordinal, hclass, binding.sourceLabel, place.index, hl, ?_⟩
    cases binding
    simp_all [Place.individual]

/-- The dictionary of replacements maps a label to the individual of its place. -/
theorem lookupBinding_eq (h : Solves arcs solved) {hash : Hash} {scope : Scope} {l : String}
    {place : Place} (hplace : PlacedAt solved l place) :
    lookupBinding (componentBindings hash scope solved) l = some (place.individual hash scope) := by
  have hmem : ⟨l, place.index, place.individual hash scope⟩ ∈ componentBindings hash scope solved :=
    mem_componentBindings.mpr ⟨place, hplace, rfl, rfl⟩
  unfold lookupBinding
  cases hfind : (componentBindings hash scope solved).reverse.find? fun b => b.sourceLabel = l with
  | none =>
    have hmissing := find?_eq_none.mp hfind _ (mem_reverse.mpr hmem)
    simp at hmissing
  | some binding =>
    have hlabel : binding.sourceLabel = l := by simpa using find?_some hfind
    obtain ⟨place', hplace', -, hindividual⟩ :=
      mem_componentBindings.mp (mem_reverse.mp (mem_of_find?_eq_some hfind))
    rw [hlabel] at hplace'
    rw [Option.map_some, hindividual, hplace'.place_unique h hplace]

end OwlCore
