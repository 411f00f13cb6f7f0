import OwlCore.Document.Carry
import OwlCore.Document.Faithful

/-!
# Repeated roots

A root that is listed again adds its arcs again. The serialized graph is a set and does not see
this, but the colors are digests of multisets, and their order decides which label gets which
place. So repetition is harmless in components with one label, in general only there.
-/
namespace OwlCore

open Fallible List

section

/-- What the places of a canonicalized component depend on. -/
def itemSummary (item : SolvedComponent) : List String × List String × Bytes :=
  (item.1.labels, item.2.order, item.2.canonicalGraph)

variable {solved solved' : List SolvedComponent}

theorem map_itemSummary_componentClass (graph : Bytes) :
    (componentClass solved graph).map itemSummary =
      ((solved.map itemSummary).filter fun s => s.2.2 = graph).insertionSort fun s t => s.1 ≤ t.1 := by
  rw [componentClass, filter_map]
  exact map_insertionSort _ _ _ _ fun _ _ _ _ => Iff.rfl

theorem placedAt_iff :
    PlacedAt solved l place ↔ ∃ s, ((componentClass solved place.graph).map itemSummary)[place.ordinal]? =
      some s ∧ s.2.1[place.index]? = some l := by
  simp only [PlacedAt, getElem?_map, Option.map_eq_some_iff]
  constructor
  · rintro ⟨item, hitem, hl⟩
    exact ⟨_, ⟨item, hitem, rfl⟩, hl⟩
  · rintro ⟨_, ⟨item, hitem, rfl⟩, hl⟩
    exact ⟨item, hitem, hl⟩

theorem placedAt_congr (h : solved.map itemSummary = solved'.map itemSummary) (l : String) (place : Place) :
    PlacedAt solved l place ↔ PlacedAt solved' l place := by
  rw [placedAt_iff, placedAt_iff, map_itemSummary_componentClass, map_itemSummary_componentClass, h]

theorem map_eq_map_of_keys {α β γ : Type} {f : α → β} {g : α → γ} {l l' : List α}
    (hkeys : l.map f = l'.map f) (h : ∀ a ∈ l, ∀ b ∈ l', f a = f b → g a = g b) : l.map g = l'.map g := by
  induction l generalizing l' with
  | nil =>
    rw [map_nil, eq_comm, map_eq_nil_iff] at hkeys
    rw [hkeys]
  | cons a l ih =>
    cases l' with
    | nil => simp at hkeys
    | cons b l' =>
      rw [map_cons, map_cons, List.cons.injEq] at hkeys
      rw [map_cons, map_cons, h a (.head _) b (.head _) hkeys.1,
        ih hkeys.2 fun c hc d hd => h c (.tail _ hc) d (.tail _ hd)]

variable {arcs arcs' : List (BlankNodeArc String)}

theorem carries_id (h : ∀ arc, arc ∈ arcs' ↔ arc ∈ arcs) : Carries id arcs arcs' := by
  refine ⟨Set.injOn_id _, fun arc => ?_⟩
  have hself : ∀ arc : BlankNodeArc String, arc.map id = arc :=
    fun arc => BlankNodeArc.map_id_of fun _ _ => rfl
  simp [h, hself]

theorem Solves.map_labels_eq (h : Solves arcs solved) (h' : Solves arcs' solved')
    (hmem : ∀ arc, arc ∈ arcs' ↔ arc ∈ arcs) :
    solved.map (fun item => item.1.labels) = solved'.map fun item => item.1.labels := by
  have hsub : ∀ {arcs arcs'} {solved solved' : List SolvedComponent}, Solves arcs solved →
      Solves arcs' solved' → (∀ arc, arc ∈ arcs' ↔ arc ∈ arcs) →
      ∀ labels, labels ∈ solved.map (fun item => item.1.labels) → labels ∈ solved'.map fun item => item.1.labels := by
    intro arcs arcs' solved solved' h h' hmem labels hlabels
    obtain ⟨item, hitem, rfl⟩ := mem_map.mp hlabels
    have hc := mem_map_of_mem (f := Prod.fst) hitem
    obtain ⟨c', hc', himage⟩ := (carries_id hmem).exists_component h.partition h'.partition hc
    obtain ⟨item', hitem', rfl⟩ := mem_map.mp hc'
    refine mem_map.mpr ⟨item', hitem', ?_⟩
    refine (h'.partition.labels_ascending _ hc').ext (h.partition.labels_ascending _ hc) fun l => ?_
    simpa using himage l
  have hascending : ∀ {arcs} {solved : List SolvedComponent}, Solves arcs solved →
      KeyedSet.Ascending id (solved.map fun item => item.1.labels) := by
    intro arcs solved h
    have hpairs : (solved.map Prod.fst).Pairwise fun c c' : BlankComponent => c.labels < c'.labels :=
      h.partition.ascending
    rw [pairwise_map] at hpairs
    exact pairwise_map.mpr hpairs
  apply (hascending h).ext (hascending h')
  intro labels
  exact ⟨hsub h h' hmem labels, hsub h' h (fun arc => (hmem arc).symm) labels⟩

theorem Solves.map_itemSummary_eq (h : Solves arcs solved) (h' : Solves arcs' solved')
    (hmem : ∀ arc, arc ∈ arcs' ↔ arc ∈ arcs)
    (horder : ∀ item ∈ solved, ∀ item' ∈ solved', item.1.labels = item'.1.labels →
      item.2.order = item'.2.order) : solved.map itemSummary = solved'.map itemSummary := by
  apply map_eq_map_of_keys (h.map_labels_eq h' hmem)
  intro item hitem item' hitem' hlabels
  have harcs : ∀ arc, arc ∈ item.1.arcs ↔ arc ∈ item'.1.arcs := by
    intro arc
    rw [(h.partition.arcs_perm _ (mem_map_of_mem hitem)).mem_iff,
      (h'.partition.arcs_perm _ (mem_map_of_mem hitem')).mem_iff, mem_filter, mem_filter, hmem, hlabels]
  have hgraph : item.2.canonicalGraph = item'.2.canonicalGraph := by
    rw [h.graph_eq item hitem, h'.graph_eq item' hitem', horder item hitem item' hitem' hlabels,
      serializeGraph_congr _ harcs]
  rw [itemSummary, itemSummary, hlabels, horder item hitem item' hitem' hlabels, hgraph]

end

section

variable {hash : Hash} {limits : ParseLimits} {input input' : DocumentInput} {frozen frozen' : FrozenDocument}
  {arcs arcs' : List (BlankNodeArc String)} {solved solved' : List SolvedComponent}
  {σ σ' : String → AnonymousIndividual}

/-- The inputs differ only in the order and the multiplicity of their roots. -/
structure SameRoots (input input' : DocumentInput) : Prop where
  ontologyId : input.ontologyId = input'.ontologyId
  directImports : input.directImports = input'.directImports
  annotations : ∀ r, r ∈ input.ontologyAnnotations ↔ r ∈ input'.ontologyAnnotations
  axioms : ∀ r, r ∈ input.axioms ↔ r ∈ input'.axioms
  extensions : ∀ r, r ∈ input.extensionComponents ↔ r ∈ input'.extensionComponents

theorem SameRoots.mem_roots (h : SameRoots input input') (r : Node) :
    r ∈ input.roots ↔ r ∈ input'.roots := by
  rw [DocumentInput.mem_roots, DocumentInput.mem_roots, h.annotations, h.axioms, h.extensions]

/-- Documents with one identity and equal places give a label the same individual. -/
theorem Freezes.individual_eq (h : Freezes hash limits input frozen arcs solved σ) (h' : Freezes hash limits input'
    frozen' arcs' solved' σ') (hroots : ∀ r ∈ input.roots, r.Canonical) (hid : input.ontologyId = input'.ontologyId)
    (hsummary : solved.map itemSummary = solved'.map itemSummary) (hl : input.HasLabel hash l) : σ l = σ' l := by
  obtain ⟨place, hplace⟩ : ∃ place, PlacedAt solved l place := by
    obtain ⟨datas, hdatas, rfl⟩ := h.arcs_eq
    exact h.solves.exists_place ((mem_ends_iff_hasLabel hroots hdatas l).mpr hl)
  have hplace' := (placedAt_congr hsummary l place).mp hplace
  obtain ⟨item, hitem, -⟩ := hplace.item h.solves
  obtain ⟨item', hitem', -⟩ := hplace'.item h'.solves
  obtain ⟨key, hkey, -, hindividual⟩ := h.individuals (ne_nil_of_mem hitem)
  obtain ⟨key', hkey', -, hindividual'⟩ := h'.individuals (ne_nil_of_mem hitem')
  obtain rfl : key = key' := by
    rw [hid, hkey'] at hkey
    exact (Except.ok.inj hkey).symm
  have hgraphs : solved.map (fun item => item.2.canonicalGraph) = solved'.map fun item => item.2.canonicalGraph := by
    simpa [itemSummary, Function.comp_def] using congrArg (List.map fun s => s.2.2) hsummary
  rw [hindividual l place hplace, hindividual' l place hplace', solvedScope, solvedScope, scopePreimage,
    scopePreimage, hgraphs]

/-- Documents with the same roots whose labels get the same individuals freeze alike. -/
theorem Freezes.frozen_eq (h : Freezes hash limits input frozen arcs solved σ)
    (h' : Freezes hash limits input' frozen' arcs' solved' σ')
    (hsame : SameRoots input input') (hσ : ∀ l, input.HasLabel hash l → σ l = σ' l) : frozen = frozen' := by
  have himports : frozen.directImports = frozen'.directImports := by
    have hboth := h.imports
    rw [hsame.directImports, h'.imports] at hboth
    exact (Except.ok.inj hboth).symm
  have hrename : ∀ r ∈ input.roots, renameBlanks hash σ r = renameBlanks hash σ' r := by
    intro r hr
    apply Node.mapAnonymous_congr
    intro a ha
    unfold renameBlank
    split
    · next label hlabel => exact hσ label ⟨r, hr, a, ha, hlabel⟩
    · rfl
  have hresult : ∀ {values values' result result'}, (∀ r ∈ values, r ∈ input.roots) →
      (∀ r, r ∈ values ↔ r ∈ values') → Replaces hash σ values result →
      Replaces hash σ' values' result' → result = result' := by
    intro values values' result result' hsub hmem hreplaces hreplaces'
    apply hreplaces.toIsImage.result_unique hreplaces'.toIsImage
    intro m
    constructor
    · rintro ⟨n, hn, rfl⟩
      exact ⟨n, (hmem n).mp hn, hrename n (hsub n hn)⟩
    · rintro ⟨n, hn, rfl⟩
      exact ⟨n, (hmem n).mpr hn, (hrename n (hsub n ((hmem n).mpr hn))).symm⟩
  have hannotations := hresult (by simp +contextual) hsame.annotations h.annotations h'.annotations
  have haxioms := hresult (by simp +contextual) hsame.axioms h.axioms h'.axioms
  have hextensions := hresult (by simp +contextual) hsame.extensions h.extensions h'.extensions
  cases frozen
  cases frozen'
  simp_all

end

section

variable {hash : Hash} {limits : ParseLimits} {input input' : DocumentInput}

def arcsOf (hash : Hash) (root : Node) : List (BlankNodeArc String) :=
  match rootData hash root with
  | .ok data => data.2
  | .error _ => []

variable {roots : List Node} {datas : List (List String × List (BlankNodeArc String))}

theorem flatMap_snd_eq
    (h : roots.mapM (rootData hash) = .ok datas) : datas.flatMap Prod.snd = roots.flatMap (arcsOf hash) := by
  rw [mapM_eq_ok] at h
  induction h with
  | nil => rfl
  | cons hdata _ ih => rw [flatMap_cons, flatMap_cons, ih, arcsOf, hdata]

/-- The arcs that start in a set of labels depend on the roots that touch the set. -/
theorem filter_arcs_perm {roots' : List Node} {p : BlankNodeArc String → Bool}
    (h : ∀ r, (∃ arc ∈ arcsOf hash r, p arc) → roots.count r = roots'.count r) :
    ((roots.flatMap (arcsOf hash)).filter p).Perm ((roots'.flatMap (arcsOf hash)).filter p) := by
  have hfilter : ∀ roots : List Node, (roots.flatMap (arcsOf hash)).filter p =
      (roots.filter fun r => (arcsOf hash r).any p).flatMap fun r => (arcsOf hash r).filter p := by
    intro roots
    induction roots with
    | nil => rfl
    | cons r roots ih =>
      cases htouch : (arcsOf hash r).any p with
      | true => simp [htouch, ih]
      | false =>
        have hnone : (arcsOf hash r).filter p = [] := by
          rw [filter_eq_nil_iff]
          simpa using htouch
        simp [htouch, ih, hnone]
  rw [hfilter, hfilter]
  refine Perm.flatMap_right _ (perm_iff_count.mpr fun r => ?_)
  cases htouch : (arcsOf hash r).any p with
  | true =>
    have hcount : ∀ roots : List Node, (roots.filter fun r => (arcsOf hash r).any p).count r = roots.count r :=
      fun roots => count_filter htouch
    rw [hcount, hcount]
    exact h r (by simpa using htouch)
  | false =>
    rw [count_eq_zero_of_not_mem, count_eq_zero_of_not_mem]
    · simp [htouch]
    · simp [htouch]

theorem mem_ends_arcsOf (h : roots.mapM (rootData hash) = .ok datas) (hr : r ∈ roots) (hn : r.Canonical) (label :
    String) : (∃ arc ∈ arcsOf hash r, label ∈ arc.ends) ↔ r.HasLabel hash label := by
  obtain ⟨data, -, hdata⟩ := exists_of_mem_left h hr
  rw [arcsOf, hdata]
  exact (rootData_labels hn hdata).2 label

/-- No root of the document combines a label of this root with another label. -/
def DocumentInput.Alone (input : DocumentInput) (hash : Hash) (r : Node) : Prop :=
  ∀ l, r.HasLabel hash l → ∀ r' ∈ input.roots, r'.HasLabel hash l → ∀ l', r'.HasLabel hash l' → l' = l

theorem DocumentInput.Alone.labels_eq {r : Node} (h : input.Alone hash r) (hroots : ∀ r ∈ input.roots, r.Canonical)
    (hdatas : input.roots.mapM (rootData hash) = .ok datas) {components : List BlankComponent}
    (hp : IsPartition (input.roots.flatMap (arcsOf hash)) components) {c : BlankComponent}
    (hc : c ∈ components) {l : String} (hl : l ∈ c.labels) (hr : r.HasLabel hash l) : c.labels = [l] := by
  have hclass : connected (input.roots.flatMap (arcsOf hash)) ≤ Setoid.ker fun x => x = l := by
    apply Setoid.eqvGen_le
    rintro x y ⟨arc, harc, hx, hy⟩
    obtain ⟨r', hr', harc⟩ := mem_flatMap.mp harc
    have hlabel := mem_ends_arcsOf hdatas hr' (hroots r' hr')
    have hxr := (hlabel x).mp ⟨arc, harc, hx⟩
    have hyr := (hlabel y).mp ⟨arc, harc, hy⟩
    apply propext
    constructor
    · rintro rfl
      exact h x hr r' hr' hxr y hyr
    · rintro rfl
      exact h y hr r' hr' hyr x hxr
  have honly : ∀ y ∈ c.labels, y = l := by
    intro y hy
    have hconnected := hclass ((hp.mem_labels c hc l hl y).mp hy)
    exact (Setoid.ker_def.mp hconnected).mp rfl
  have hsingle : KeyedSet.Ascending id [l] := pairwise_singleton _ _
  refine (hp.labels_ascending c hc).ext hsingle fun y => ?_
  rw [mem_singleton]
  constructor
  · exact honly y
  · rintro rfl
    exact hl

theorem component_arcs_perm (hroots : ∀ r ∈ input.roots, r.Canonical) (hsame : SameRoots input input')
    (hrepeat : ∀ r ∈ input.roots, input.roots.count r = input'.roots.count r ∨ input.Alone hash r)
    (hdatas : input.roots.mapM (rootData hash) = .ok datas)
    {components components' : List BlankComponent}
    (hp : IsPartition (input.roots.flatMap (arcsOf hash)) components)
    (hp' : IsPartition (input'.roots.flatMap (arcsOf hash)) components') {c c' : BlankComponent}
    (hc : c ∈ components) (hc' : c' ∈ components') (hlabels : c.labels = c'.labels)
    (hseveral : ∀ l, c.labels ≠ [l]) : c.arcs.Perm c'.arcs := by
  refine (hp.arcs_perm c hc).trans (Perm.trans ?_ (hp'.arcs_perm c' hc').symm)
  rw [← hlabels]
  apply filter_arcs_perm
  rintro r ⟨arc, harc, hsource⟩
  have hsource : arc.source ∈ c.labels := by simpa using hsource
  by_cases hr : r ∈ input.roots
  · rcases hrepeat r hr with hcount | halone
    · exact hcount
    · have hlabel := (mem_ends_arcsOf hdatas hr (hroots r hr) _).mp ⟨arc, harc, arc.source_mem_ends⟩
      exact absurd (halone.labels_eq hroots hdatas hp hc hsource hlabel) (hseveral _)
  · have hr' : r ∉ input'.roots := fun h => hr ((hsame.mem_roots r).mpr h)
    rw [count_eq_zero_of_not_mem hr, count_eq_zero_of_not_mem hr']

/-- Documents that differ in how often they list their roots freeze alike, if every such root has no
label or one label that occurs with no other one. -/
theorem freezeDocumentAnonymous_repeated {frozen frozen' : FrozenDocument}
    (hroots : ∀ r ∈ input.roots, Constructible r) (hsame : SameRoots input input')
    (hrepeat : ∀ r ∈ input.roots, input.roots.count r = input'.roots.count r ∨ input.Alone hash r)
    (h : freezeDocumentAnonymous hash limits input = .ok frozen)
    (h' : freezeDocumentAnonymous hash limits input' = .ok frozen') : frozen = frozen' := by
  have hcanonical : ∀ r ∈ input.roots, r.Canonical := fun r hr => (hroots r hr).canonical
  obtain ⟨arcs, solved, σ, hfreezes⟩ := freezeDocumentAnonymous_ok hroots h
  obtain ⟨arcs', solved', σ', hfreezes'⟩ :=
    freezeDocumentAnonymous_ok (fun r hr => hroots r ((hsame.mem_roots r).mpr hr)) h'
  obtain ⟨datas, hdatas, harcs⟩ := hfreezes.arcs_eq
  obtain ⟨datas', hdatas', harcs'⟩ := hfreezes'.arcs_eq
  rw [flatMap_snd_eq hdatas] at harcs
  rw [flatMap_snd_eq hdatas'] at harcs'
  subst harcs harcs'
  have hmem : ∀ arc, arc ∈ input'.roots.flatMap (arcsOf hash) ↔ arc ∈ input.roots.flatMap (arcsOf hash) := by
    intro arc
    simp only [mem_flatMap, hsame.mem_roots]
  have horder : ∀ item ∈ solved, ∀ item' ∈ solved', item.1.labels = item'.1.labels → item.2.order = item'.2.order := by
    intro item hitem item' hitem' hlabels
    have hperm := hfreezes.solves.order_perm item hitem
    have hperm' := hfreezes'.solves.order_perm item' hitem'
    by_cases hsingle : ∃ l, item.1.labels = [l]
    · obtain ⟨l, hl⟩ := hsingle
      rw [hl, perm_singleton] at hperm
      rw [← hlabels, hl, perm_singleton] at hperm'
      rw [hperm, hperm']
    · have harcs := component_arcs_perm hcanonical hsame hrepeat hdatas hfreezes.solves.partition
        hfreezes'.solves.partition (mem_map_of_mem hitem) (mem_map_of_mem hitem') hlabels
        fun l hl => hsingle ⟨l, hl⟩
      have hcall := hfreezes.canonicalized item hitem
      rw [alphaCanonicalizeBlankNodes_perm hash limits harcs, hlabels, hfreezes'.canonicalized item' hitem'] at hcall
      rw [Except.ok.inj hcall]
  have hsummary := hfreezes.solves.map_itemSummary_eq hfreezes'.solves hmem horder
  exact hfreezes.frozen_eq hfreezes' hsame fun l hl =>
    hfreezes.individual_eq hfreezes' hcanonical hsame.ontologyId hsummary hl

end

/-- `ObjectPropertyAssertion(property, source, target)`. -/
def objectPropertyAssertionNode (property source target : Node) : Node :=
  .mk .objectPropertyAssertion [.node property, .node source, .node target, .set []]

def blankInClass (hash : Hash) : Node :=
  classAssertionNode (entityNode .class "urn:C") (provisionalAnonymous hash "a").node

/-- The statement that a property leads from one blank node to another. -/
def blankToBlank (hash : Hash) : Node :=
  objectPropertyAssertionNode (entityNode .objectProperty "urn:p") (provisionalAnonymous hash "b").node
    (provisionalAnonymous hash "c").node

def constantHash : Hash := ⟨fun _ => List.replicate 32 0, by simp⟩

/-- Listing a statement about one blank node twice changes nothing. -/
theorem freezeDocumentAnonymous_blankInClass_twice :
    let once := axiomsInput [blankInClass constantHash, blankToBlank constantHash]
    let twice := axiomsInput [blankInClass constantHash, blankInClass constantHash, blankToBlank constantHash]
    ∃ frozen, freezeDocumentAnonymous constantHash defaultLimits once = .ok frozen ∧
      freezeDocumentAnonymous constantHash defaultLimits twice = .ok frozen := by
  intro once twice
  have hroot : ∀ r ∈ once.roots, r = blankInClass constantHash ∨ r = blankToBlank constantHash := by
    simp [once, axiomsInput]
  have hrebuilds : ∀ r ∈ once.roots, r.rebuilds := by decide +kernel
  have hok : (freezeDocumentAnonymous constantHash defaultLimits once).isOk := by decide +kernel
  have hok' : (freezeDocumentAnonymous constantHash defaultLimits twice).isOk := by decide +kernel
  have hsame : SameRoots once twice := by constructor <;> simp [once, twice, axiomsInput]
  have hlabel : ∀ l, (blankInClass constantHash).HasLabel constantHash l ↔ l = "a" := by
    have hvalues : (blankInClass constantHash).anonymousValues = [provisionalAnonymous constantHash "a"] := by
      decide +kernel
    simp [Node.HasLabel, hvalues, eq_comm]
  have hother : ¬(blankToBlank constantHash).HasLabel constantHash "a" := by
    have hvalues : (blankToBlank constantHash).anonymousValues =
        ["b", "c"].map (provisionalAnonymous constantHash) := by decide +kernel
    simp [Node.HasLabel, hvalues]
  have halone : once.Alone constantHash (blankInClass constantHash) := by
    intro l hl r hr hrl l' hl'
    rw [hlabel] at hl
    subst hl
    rcases hroot r hr with rfl | rfl
    · exact (hlabel l').mp hl'
    · exact absurd hrl hother
  have hrepeat : ∀ r ∈ once.roots, once.roots.count r = twice.roots.count r ∨ once.Alone constantHash r := by
    intro r hr
    rcases hroot r hr with rfl | rfl
    · exact .inr halone
    · exact .inl (by decide +kernel)
  obtain ⟨frozen, h⟩ := exists_of_isOk hok
  obtain ⟨frozen', h'⟩ := exists_of_isOk hok'
  obtain rfl := freezeDocumentAnonymous_repeated
    (fun r hr => constructible_of_rebuilds (hrebuilds r hr)) hsame hrepeat h h'
  exact ⟨frozen, h, h'⟩

/-- Listing a statement about two blank nodes twice exchanges their keys. -/
theorem freezeDocumentAnonymous_blankToBlank_twice :
    let r := blankToBlank sha256
    Constructible r ∧ ∃ frozen frozen', freezeDocumentAnonymous sha256 defaultLimits (axiomsInput [r]) = .ok frozen ∧
      freezeDocumentAnonymous sha256 defaultLimits (axiomsInput [r, r]) = .ok frozen' ∧ frozen ≠ frozen' := by
  intro r
  have hdiffer : (freezeDocumentAnonymous sha256 defaultLimits (axiomsInput [r])).toOption.any fun frozen =>
      (freezeDocumentAnonymous sha256 defaultLimits (axiomsInput [r, r])).toOption.any fun frozen' =>
        frozen ≠ frozen' := by decide +kernel
  exact ⟨constructible_of_rebuilds (by decide +kernel), exists_ok_ne hdiffer⟩

end OwlCore
