import OwlCore.Anonymous.Graph

/-!
# Canonical graphs do not see labels

Renaming the labels of a graph one to one and reordering its arcs changes neither the outcome of
`alphaCanonicalizeBlankNodes` nor what it reports. Each stage has one lemma that says how it
moves along a renaming.
-/
namespace OwlCore

open KeyedSet List Orders

variable {L L' : Type}

def BlankNodeArc.map (f : L → L') (arc : BlankNodeArc L) : BlankNodeArc L' :=
  ⟨f arc.source, arc.role, arc.target.map f, arc.payload, arc.role_ne⟩

@[simp] theorem BlankNodeArc.ends_map (f : L → L') (arc : BlankNodeArc L) :
    (arc.map f).ends = arc.ends.map f := by
  cases h : arc.target <;> simp [BlankNodeArc.map, BlankNodeArc.ends, h]

theorem BlankNodeArc.source_mem_ends (arc : BlankNodeArc L) : arc.source ∈ arc.ends := by
  simp [BlankNodeArc.ends]

theorem BlankNodeArc.target_mem_ends {arc : BlankNodeArc L} {target : L}
    (h : arc.target = some target) : target ∈ arc.ends := by
  simp [BlankNodeArc.ends, h]

section

variable (first second : L → Bytes)

theorem lookup_getD_eq_iff {f g : L → Bytes} {seen : List L}
    (hfun : ∀ a ∈ seen, ∀ b ∈ seen, f a = f b → g a = g b) (k v : Bytes) :
    ((seen.map fun a => (f a, g a)).lookup k).getD v = v ↔ ∀ a ∈ seen, f a = k → g a = v := by
  induction seen with
  | nil => simp
  | cons b seen ih =>
    have htail := ih fun a ha c hc => hfun a (.tail _ ha) c (.tail _ hc)
    by_cases hb : k = f b
    · have hlookup : List.lookup k ((b :: seen).map fun a => (f a, g a)) = some (g b) := by
        simp [hb]
      rw [hlookup, Option.getD_some]
      constructor
      · intro hv a ha hka
        rw [← hv]
        exact hfun a ha b (.head _) (hka.trans hb)
      · intro hall
        exact hall b (.head _) hb.symm
    · have hlookup : List.lookup k ((b :: seen).map fun a => (f a, g a)) =
          List.lookup k (seen.map fun a => (f a, g a)) := by
        simp [lookup_cons, beq_eq_false_iff_ne.mpr hb]
      rw [hlookup, htail]
      simp [Ne.symm hb]

theorem samePartitionFrom_iff (labels seen : List L)
    (hseen : ∀ a ∈ seen, ∀ b ∈ seen, first a = first b ↔ second a = second b) :
    samePartitionFrom first second (seen.map fun a => (first a, second a))
        (seen.map fun a => (second a, first a)) labels = true ↔
      ∀ a ∈ seen ++ labels, ∀ b ∈ seen ++ labels, first a = first b ↔ second a = second b := by
  induction labels generalizing seen with
  | nil => simpa [samePartitionFrom] using hseen
  | cons l labels ih =>
    have hforward := lookup_getD_eq_iff (fun a ha b hb => (hseen a ha b hb).mp) (first l) (second l)
    have hreverse := lookup_getD_eq_iff (fun a ha b hb => (hseen a ha b hb).mpr) (second l) (first l)
    have hmem : ∀ a, a ∈ seen ++ l :: labels ↔ a ∈ (l :: seen) ++ labels := by
      intro a
      simp only [mem_append, mem_cons]
      tauto
    simp only [samePartitionFrom, hmem]
    by_cases hl : ∀ a ∈ seen, first a = first l ↔ second a = second l
    · have hf := hforward.mpr fun a ha => (hl a ha).mp
      have hr := hreverse.mpr fun a ha => (hl a ha).mpr
      have hnext : ∀ a ∈ l :: seen, ∀ b ∈ l :: seen, first a = first b ↔ second a = second b := by
        intro a ha b hb
        rcases mem_cons.mp ha with ha | ha <;> rcases mem_cons.mp hb with hb | hb
        · simp [ha, hb]
        · rw [ha, eq_comm, hl b hb, eq_comm]
        · rw [hb, hl a ha]
        · exact hseen a ha b hb
      simpa [hf, hr] using ih (l :: seen) hnext
    · have hfail : ¬ ∀ a ∈ l :: seen ++ labels, ∀ b ∈ l :: seen ++ labels, first a = first b ↔ second a = second b := by
        intro hall
        exact hl fun a ha => hall a (by simp [ha]) l (by simp)
      have hdict : ¬ ((∀ a ∈ seen, first a = first l → second a = second l) ∧
          ∀ a ∈ seen, second a = second l → first a = first l) := by
        intro h
        exact hl fun a ha => ⟨h.1 a ha, h.2 a ha⟩
      rw [← hforward, ← hreverse] at hdict
      rw [iff_false_right hfail]
      by_cases hf : ((seen.map fun a => (first a, second a)).lookup (first l)).getD (second l) = second l
      · have hr : ((seen.map fun a => (second a, first a)).lookup (second l)).getD (first l) ≠ first l :=
          fun hr => hdict ⟨hf, hr⟩
        simp [hf, hr]
      · simp [hf]

/-- Two colorings are accepted as one partition when they tell the same labels apart. -/
theorem samePartition_iff :
    samePartition labels first second = true ↔ ∀ a ∈ labels, ∀ b ∈ labels, first a = first b ↔ second a = second b := by
  have h := samePartitionFrom_iff first second labels [] (by simp)
  simpa [samePartition] using h

end

section

variable [LinearOrder L] [LinearOrder L']

theorem mem_labelSet {l : L} :
    l ∈ labelSet arcs labels ↔ l ∈ labels ∨ ∃ arc ∈ arcs, l ∈ arc.ends := by
  simp [labelSet, mem_ofList_id]

theorem nodup_labelSet (arcs : List (BlankNodeArc L)) (labels : List L) :
    (labelSet arcs labels).Nodup := nodup_ofList_id

/-- The second graph is the first one under a one-to-one renaming, its arcs in any order. -/
structure Renames (f : L → L') (arcs : List (BlankNodeArc L)) (labels : List L)
    (arcs' : List (BlankNodeArc L')) (labels' : List L') : Prop where
  injOn : ∀ a ∈ labelSet arcs labels, ∀ b ∈ labelSet arcs labels, f a = f b → a = b
  arcs_perm : Perm arcs' (arcs.map (BlankNodeArc.map f))
  mem_labels : ∀ l, l ∈ labels' ↔ ∃ a ∈ labels, f a = l

variable {f : L → L'} {S : List L} {arcs : List (BlankNodeArc L)} {arcs' : List (BlankNodeArc L')}

theorem Renames.labelSet_perm (h : Renames f arcs labels arcs' labels') :
    Perm (labelSet arcs' labels') ((labelSet arcs labels).map f) := by
  have hnodup : ((labelSet arcs labels).map f).Nodup :=
    List.Nodup.map_on h.injOn (nodup_labelSet arcs labels)
  refine (perm_ext_iff_of_nodup (nodup_labelSet _ _) hnodup).mpr fun l => ?_
  have harcs : (∃ arc ∈ arcs', l ∈ arc.ends) ↔ ∃ arc ∈ arcs, ∃ a ∈ arc.ends, f a = l := by
    simp [h.arcs_perm.mem_iff]
  rw [mem_labelSet, h.mem_labels, harcs]
  simp only [mem_map, mem_labelSet]
  constructor
  · rintro (⟨a, ha, rfl⟩ | ⟨arc, harc, a, ha, rfl⟩)
    · exact ⟨a, .inl ha, rfl⟩
    · exact ⟨a, .inr ⟨arc, harc, ha⟩, rfl⟩
  · rintro ⟨a, ha | ⟨arc, harc, ha⟩, rfl⟩
    · exact .inl ⟨a, ha, rfl⟩
    · exact .inr ⟨arc, harc, a, ha, rfl⟩

section

variable (colors : Option (L → Bytes)) (colors' : Option (L' → Bytes))

theorem arcSignature_map (hinj : ∀ a ∈ S, ∀ b ∈ S, f a = f b → a = b) (hcolors : ∀ a ∈ S, neighborColor colors' (f a)
    = neighborColor colors a) {arc : BlankNodeArc L} (harc : ∀ a ∈ arc.ends, a ∈ S) (hl : l ∈ S) :
    arcSignature (f l) (arc.map f) colors' = arcSignature l arc colors := by
  have heq : ∀ a ∈ S, f a = f l ↔ a = l := fun a ha => ⟨hinj a ha l hl, fun h => h ▸ rfl⟩
  have hsource := harc arc.source arc.source_mem_ends
  cases htarget : arc.target with
  | none => simp [arcSignature, BlankNodeArc.map, htarget, heq _ hsource]
  | some target =>
    have hmem := harc target (BlankNodeArc.target_mem_ends htarget)
    simp [arcSignature, BlankNodeArc.map, htarget, heq _ hsource, heq _ hmem, hcolors _ hsource, hcolors _ hmem]

theorem neighborhoodSignatures_map (hinj : ∀ a ∈ S, ∀ b ∈ S, f a = f b → a = b) (hcolors : ∀ a ∈ S, neighborColor
    colors' (f a) = neighborColor colors a) (harcs : ∀ arc ∈ arcs, ∀ a ∈ arc.ends, a ∈ S) (hperm : Perm arcs'
    (arcs.map (BlankNodeArc.map f))) (hl : l ∈ S) :
    neighborhoodSignatures arcs' colors' (f l) = neighborhoodSignatures arcs colors l := by
  apply insertionSort_eq_of_perm
  have hmap : (arcs.map (BlankNodeArc.map f)).filterMap (arcSignature (f l) · colors') =
      arcs.filterMap (arcSignature l · colors) := by
    rw [filterMap_map]
    apply filterMap_congr
    intro arc harc
    exact arcSignature_map _ _ hinj hcolors (harcs arc harc) hl
  rw [← hmap]
  exact hperm.filterMap _

end

section

variable {colors : L → Bytes} (hash : Hash) (hinj : ∀ a ∈ S, ∀ b ∈ S, f a = f b → a = b) (harcs : ∀ arc ∈ arcs, ∀ a ∈
  arc.ends, a ∈ S) (hperm : Perm arcs' (arcs.map (BlankNodeArc.map f)))

include hinj harcs hperm

theorem initialColors_map (hl : l ∈ S) :
    initialColors hash arcs' (f l) = initialColors hash arcs l := by
  have h := neighborhoodSignatures_map none none hinj
    (fun _ _ => rfl) harcs hperm hl
  simp [initialColors, colorsFromSignatures, h]

theorem refineColors_map (hcolors : ∀ a ∈ S, colors' (f a) = colors a) (hl : l ∈ S) :
    refineColors hash arcs' colors' (f l) = refineColors hash arcs colors l := by
  have h := neighborhoodSignatures_map (some colors) (some colors') hinj
    (fun a ha => by simp [neighborColor, hcolors a ha]) harcs hperm hl
  simp [refineColors, colorsFromSignatures, h, hcolors l hl]

omit hinj harcs hperm in
theorem samePartition_map (hlabels : Perm labels' (S.map f)) (hcolors : ∀ a ∈ S, colors' (f a) = colors a) (hrefined :
    ∀ a ∈ S, refined' (f a) = refined a) :
    samePartition labels' colors' refined' = samePartition S colors refined := by
  rw [Bool.eq_iff_iff, samePartition_iff, samePartition_iff]
  simp only [hlabels.mem_iff, forall_mem_map]
  refine forall₄_congr fun a ha b hb => ?_
  rw [hcolors a ha, hcolors b hb, hrefined a ha, hrefined b hb]

/-- Both loops stop in the same round, with the same work, and with colors that agree. -/
theorem refineLoop_map (hlabels : Perm labels' (S.map f)) (maximum left : Nat) (rounds work : Nat) (hcolors : ∀ a ∈ S,
    colors' (f a) = colors a) :
    (∃ e, refineLoop hash S arcs maximum left rounds work colors = .error e ∧
      refineLoop hash labels' arcs' maximum left rounds work colors' = .error e) ∨
    ∃ stable stable' rest, refineLoop hash S arcs maximum left rounds work colors = .ok (stable, rest) ∧
      refineLoop hash labels' arcs' maximum left rounds work colors' = .ok (stable', rest) ∧
      ∀ a ∈ S, stable' (f a) = stable a := by
  induction left generalizing rounds work colors colors' with
  | zero => exact .inl ⟨_, rfl, rfl⟩
  | succ left ih =>
    have hrefined : ∀ a ∈ S, refineColors hash arcs' colors' (f a) = refineColors hash arcs colors a :=
      fun a ha => refineColors_map hash hinj harcs hperm hcolors ha
    have hsame := samePartition_map hlabels hcolors hrefined
    have hlabelsLength : labels'.length = S.length := by simpa using hlabels.length_eq
    have harcsLength : arcs'.length = arcs.length := by simpa using hperm.length_eq
    simp only [refineLoop, hlabelsLength, harcsLength, hsame]
    cases hwork : enforceWork (work + (2 * S.length + 2 * arcs.length)) maximum with
    | error e => exact .inl ⟨e, rfl, rfl⟩
    | ok done =>
      cases hstop : samePartition S colors (refineColors hash arcs colors) with
      | true => exact .inr ⟨_, _, _, rfl, rfl, hrefined⟩
      | false => exact ih (rounds + 1) _ hrefined

end

section

variable {colors : L → Bytes}

theorem partitions_map (hlabels : Perm labels' (S.map f)) (hcolors : ∀ a ∈ S, colors' (f a) = colors a) :
    Forall₂ (fun image group => Perm image (group.map f)) (partitions labels' colors')
      (partitions S colors) := by
  have hused : KeyedSet.ofList id (labels'.map colors') = KeyedSet.ofList id (S.map colors) := by
    apply ofList_id_congr
    intro color
    rw [(hlabels.map colors').mem_iff, List.map_map]
    rw [map_congr_left (f := colors' ∘ f) (g := colors) hcolors]
  rw [partitions, partitions, hused, forall₂_map_left_iff, forall₂_map_right_iff]
  refine forall₂_same.mpr fun color _ => ?_
  have hfilter : (S.map f).filter (fun l => colors' l = color) = (S.filter fun l => colors l = color).map f := by
    rw [filter_map]
    congr 1
    apply filter_congr
    intro a ha
    simp [hcolors a ha]
  rw [← hfilter]
  exact hlabels.filter _

theorem boundedPermutationCount_map (h : Forall₂ (fun image group => Perm image (group.map f)) images groups) (maximum
    consumed : Nat) :
    boundedPermutationCount images maximum consumed = boundedPermutationCount groups maximum consumed := by
  have hlengths : images.map List.length = groups.map List.length := by
    induction h with
    | nil => rfl
    | cons hhead _ ih => simp [ih, hhead.length_eq]
  have hfactors : ∀ {α : Type} (lists : List (List α)), (lists.flatMap fun list => List.range' 2 (list.length - 1)) =
        (lists.map List.length).flatMap fun size => List.range' 2 (size - 1) := by
    intro α lists
    rw [flatMap_map]
  simp only [boundedPermutationCount, hfactors, hlengths]

theorem length_candidateOrders_map (h : Forall₂ (fun image group => Perm image (group.map f)) images groups) :
    (candidateOrders images).length = (candidateOrders groups).length := by
  rw [candidateOrders, candidateOrders, length_grouped, length_grouped]
  induction h with
  | nil => rfl
  | cons hhead _ ih => simp [ih, hhead.length_eq]

theorem flatten_partitions_perm (hS : S.Nodup) (colors : L → Bytes) :
    Perm (partitions S colors).flatten S := by
  refine (perm_ext_iff_of_nodup ?_ hS).mpr fun l => ?_
  · rw [nodup_flatten]
    constructor
    · intro group hgroup
      obtain ⟨color, -, rfl⟩ := mem_map.mp hgroup
      exact hS.filter _
    · rw [partitions, pairwise_map]
      refine List.Pairwise.imp ?_ (nodup_ofList_id (l := S.map colors))
      intro color color' hne l hl hl'
      simp only [mem_filter, decide_eq_true_eq] at hl hl'
      exact hne (hl.2.symm.trans hl'.2)
  · simp only [partitions, mem_flatten, mem_map, mem_ofList_id]
    constructor
    · rintro ⟨_, ⟨color, -, rfl⟩, hl⟩
      exact (mem_filter.mp hl).1
    · intro hl
      exact ⟨_, ⟨colors l, ⟨l, hl, rfl⟩, rfl⟩, by simp [hl]⟩

theorem perm_of_mem_candidateOrders (hS : S.Nodup) (h : order ∈ candidateOrders (partitions S colors)) : Perm order S :=
  (perm_of_mem_grouped h).trans (flatten_partitions_perm hS colors)

end

section

variable {order : List L}

section

variable (hinj : ∀ a ∈ S, ∀ b ∈ S, f a = f b → a = b)

include hinj

section

variable (horder : ∀ a ∈ order, a ∈ S)

include horder

theorem idxOf_map_of_injOn (hl : l ∈ S) :
    (order.map f).idxOf (f l) = order.idxOf l := by
  induction order with
  | nil => rfl
  | cons a order ih =>
    have htail := ih fun b hb => horder b (.tail _ hb)
    by_cases hal : a = l
    · simp [hal]
    · have hne : f a ≠ f l := fun h => hal (hinj a (horder a (.head _)) l hl h)
      rw [map_cons, idxOf_cons_ne _ hne, idxOf_cons_ne _ hal, htail]

theorem encodeArc_map {arc : BlankNodeArc L} (harc : ∀ a ∈ arc.ends, a ∈ S) :
    encodeArc (order.map f) (arc.map f) = encodeArc order arc := by
  have hsource := idxOf_map_of_injOn hinj horder (harc arc.source arc.source_mem_ends)
  cases htarget : arc.target with
  | none => simp [encodeArc, BlankNodeArc.map, htarget, hsource]
  | some target =>
    have hmem := idxOf_map_of_injOn hinj horder (harc target (BlankNodeArc.target_mem_ends htarget))
    simp [encodeArc, BlankNodeArc.map, htarget, hsource, hmem]

theorem serializeGraph_map (harcs : ∀ arc ∈ arcs, ∀ a ∈ arc.ends, a ∈ S)
    (hperm : Perm arcs' (arcs.map (BlankNodeArc.map f))) :
    serializeGraph (order.map f) arcs' = serializeGraph order arcs := by
  have hmembers : KeyedSet.ofList id (arcs'.map (encodeArc (order.map f))) =
      KeyedSet.ofList id (arcs.map (encodeArc order)) := by
    apply ofList_id_congr
    intro member
    rw [(hperm.map _).mem_iff, List.map_map]
    have hencode : arcs.map (encodeArc (order.map f) ∘ BlankNodeArc.map f) = arcs.map (encodeArc order) :=
      map_congr_left fun arc harc => encodeArc_map hinj horder (harcs arc harc)
    rw [hencode]
  simp [serializeGraph, hmembers]

end

end

end

section

variable (hash : Hash) (limits : ParseLimits)

theorem exists_best_order (arcs : List (BlankNodeArc L)) (groups : List (List L)) :
    ∃ best, Orders.firstLeast (serializeGraph · arcs) (candidateOrders groups) = some best :=
  exists_firstLeast _ (ne_nil_of_mem (flatten_mem_grouped groups))

/-- What a completed search returns: an order of the labels with its serialization. -/
theorem searchOrders_ok (hS : S.Nodup) (h : searchOrders hash limits arcs documentScope S = .ok result) :
    ∃ order, Perm order S ∧ result.canonicalGraph = serializeGraph order arcs ∧
      result.bindings = bindingsForOrder hash order documentScope result.canonicalGraph 0 := by
  simp only [searchOrders, Fallible.bind_eq_ok] at h
  obtain ⟨-, -, -, -, ⟨colors, rounds, work⟩, -, count, -, -, -, h⟩ := h
  obtain ⟨best, hbest⟩ := exists_best_order arcs (partitions S colors)
  simp only [hbest, Except.ok.injEq] at h
  subst h
  exact ⟨best, perm_of_mem_candidateOrders hS (mem_of_firstLeast hbest), rfl, rfl⟩

theorem alphaCanonicalizeBlankNodes_ok {result : AlphaCanonicalization L} (h : alphaCanonicalizeBlankNodes hash limits
    arcs documentScope labels = .ok result) :
    ∃ order, Perm order (labelSet arcs labels) ∧ result.canonicalGraph = serializeGraph order arcs ∧
      result.bindings = bindingsForOrder hash order documentScope result.canonicalGraph 0 := by
  simp only [alphaCanonicalizeBlankNodes] at h
  split at h
  case isTrue hempty =>
    have harcs : arcs = [] := by
      rw [eq_nil_iff_forall_not_mem]
      intro arc harc
      have hmem : arc.source ∈ labelSet arcs labels :=
        mem_labelSet.mpr (.inr ⟨arc, harc, arc.source_mem_ends⟩)
      simp [hempty] at hmem
    rw [Except.ok.injEq] at h
    subst h
    exact ⟨[], by rw [hempty], by simp [serializeGraph, Varint.counted, KeyedSet.ofList, harcs], rfl⟩
  case isFalse => exact searchOrders_ok hash limits (nodup_labelSet _ _) h

/-- The parts of a result that mention neither labels nor scope. -/
def AlphaCanonicalization.shape (result : AlphaCanonicalization L) : Bytes × Nat × Nat :=
  (result.canonicalGraph, result.refinementRounds, result.permutationsExamined)

theorem graphs_map (hS : S.Nodup) (hinj : ∀ a ∈ S, ∀ b ∈ S, f a = f b → a = b) (harcs : ∀ arc ∈ arcs, ∀ a ∈ arc.ends,
    a ∈ S) (hperm : Perm arcs' (arcs.map (BlankNodeArc.map f))) (hgroups : Forall₂ (fun image group => Perm image
    (group.map f)) images (partitions S colors)) (graph : Bytes) :
    graph ∈ (candidateOrders images).map (serializeGraph · arcs') ↔
      graph ∈ (candidateOrders (partitions S colors)).map (serializeGraph · arcs) := by
  have hserialize : ∀ order ∈ candidateOrders (partitions S colors),
      serializeGraph (order.map f) arcs' = serializeGraph order arcs := by
    intro order horder
    have horderPerm := perm_of_mem_candidateOrders hS horder
    exact serializeGraph_map hinj (fun a ha => horderPerm.mem_iff.mp ha) harcs hperm
  simp only [mem_map, candidateOrders, mem_grouped_map hgroups] at hserialize ⊢
  constructor
  · rintro ⟨_, ⟨order, horder, rfl⟩, rfl⟩
    exact ⟨order, horder, (hserialize order horder).symm⟩
  · rintro ⟨order, horder, rfl⟩
    exact ⟨order.map f, ⟨order, horder, rfl⟩, hserialize order horder⟩

theorem searchOrders_map (hS : S.Nodup) (hinj : ∀ a ∈ S, ∀ b ∈ S, f a = f b → a = b) (harcs : ∀ arc ∈ arcs, ∀ a ∈
    arc.ends, a ∈ S) (hperm : Perm arcs' (arcs.map (BlankNodeArc.map f))) (hlabels : Perm labels' (S.map f))
    (documentScope documentScope' : Scope) :
    (searchOrders hash limits arcs' documentScope' labels').map AlphaCanonicalization.shape =
      (searchOrders hash limits arcs documentScope S).map AlphaCanonicalization.shape := by
  have hlabelsLength : labels'.length = S.length := by simpa using hlabels.length_eq
  have harcsLength : arcs'.length = arcs.length := by simpa using hperm.length_eq
  have hinitial : ∀ a ∈ S, initialColors hash arcs' (f a) = initialColors hash arcs a :=
    fun a ha => initialColors_map hash hinj harcs hperm ha
  simp only [searchOrders, hlabelsLength, harcsLength]
  simp only [bind, Except.bind]
  cases enforceLimit "max_terms" (S.length + arcs.length) limits.maxTerms with
  | error e => rfl
  | ok _ =>
    cases enforceWork (S.length + 2 * arcs.length) limits.maxCanonicalWork with
    | error e => rfl
    | ok _ =>
      rcases refineLoop_map hash hinj harcs hperm hlabels limits.maxCanonicalWork (S.length + 2) 0
        (S.length + 2 * arcs.length) hinitial with
        ⟨e, hloop, hloop'⟩ | ⟨stable, stable', rest, hloop, hloop', hstable⟩
      · simp only [hloop, hloop']
        rfl
      · have hgroups := partitions_map hlabels hstable
        simp only [hloop, hloop', boundedPermutationCount_map hgroups]
        cases boundedPermutationCount (partitions S stable) limits.maxCanonicalWork rest.2 with
        | error e => rfl
        | ok count =>
          simp only
          cases enforceWork (rest.2 + count * max 1 (S.length + arcs.length)) limits.maxCanonicalWork with
          | error e => rfl
          | ok _ =>
            obtain ⟨best, hbest⟩ := exists_best_order arcs (partitions S stable)
            obtain ⟨best', hbest'⟩ := exists_best_order arcs' (partitions labels' stable')
            have hgraph : serializeGraph best' arcs' = serializeGraph best arcs :=
              firstLeast_value_eq (f := (serializeGraph · arcs')) (g := (serializeGraph · arcs))
                (graphs_map hS hinj harcs hperm hgroups) hbest' hbest
            simp only [hbest, hbest', Except.map, AlphaCanonicalization.shape, hgraph,
              length_candidateOrders_map hgroups]

theorem alphaCanonicalizeBlankNodes_map (h : Renames f arcs labels arcs' labels') (documentScope documentScope' :
    Scope) :
    (alphaCanonicalizeBlankNodes hash limits arcs' documentScope' labels').map
        AlphaCanonicalization.shape =
      (alphaCanonicalizeBlankNodes hash limits arcs documentScope labels).map
        AlphaCanonicalization.shape := by
  have hlabels := h.labelSet_perm
  have hempty : labelSet arcs' labels' = [] ↔ labelSet arcs labels = [] := by
    rw [← length_eq_zero_iff, hlabels.length_eq, length_map, length_eq_zero_iff]
  simp only [alphaCanonicalizeBlankNodes, hempty]
  split
  · rfl
  · refine searchOrders_map hash limits (nodup_labelSet _ _) h.injOn ?_ h.arcs_perm hlabels _ _
    intro arc harc a ha
    exact mem_labelSet.mpr (.inr ⟨arc, harc, ha⟩)

end

section

variable {arcs' : List (BlankNodeArc L)} (hash : Hash) (limits : ParseLimits)

theorem serializeGraph_congr (order : List L) (h : ∀ arc, arc ∈ arcs' ↔ arc ∈ arcs) :
    serializeGraph order arcs' = serializeGraph order arcs := by
  have hmembers : KeyedSet.ofList id (arcs'.map (encodeArc order)) =
      KeyedSet.ofList id (arcs.map (encodeArc order)) := by
    apply ofList_id_congr
    intro member
    simp only [mem_map, h]
  rw [serializeGraph, serializeGraph, hmembers]

theorem neighborhoodSignatures_perm (h : arcs'.Perm arcs) :
    neighborhoodSignatures arcs' = neighborhoodSignatures arcs := by
  funext colors label
  exact insertionSort_eq_of_perm (h.filterMap _)

theorem refineLoop_perm (h : arcs'.Perm arcs) (labels : List L) (maximum left rounds work : Nat)
    (colors : L → Bytes) : refineLoop hash labels arcs' maximum left rounds work colors =
      refineLoop hash labels arcs maximum left rounds work colors := by
  induction left generalizing rounds work colors with
  | zero => rfl
  | succ left ih =>
    have hrefine : refineColors hash arcs' = refineColors hash arcs := by
      funext colors
      rw [refineColors, refineColors, neighborhoodSignatures_perm h]
    simp only [refineLoop, hrefine, h.length_eq, ih]

theorem alphaCanonicalizeBlankNodes_perm (h : arcs'.Perm arcs) (documentScope : Scope) (labels : List L) :
    alphaCanonicalizeBlankNodes hash limits arcs' documentScope labels =
      alphaCanonicalizeBlankNodes hash limits arcs documentScope labels := by
  have hlabels : labelSet arcs' labels = labelSet arcs labels := by
    apply ofList_id_congr
    intro l
    simp only [mem_append, mem_flatMap, h.mem_iff]
  have hinitial : initialColors hash arcs' = initialColors hash arcs := by
    rw [initialColors, initialColors, neighborhoodSignatures_perm h]
  have hserialize : ∀ order, serializeGraph order arcs' = serializeGraph order arcs :=
    fun order => serializeGraph_congr order fun arc => h.mem_iff
  simp only [alphaCanonicalizeBlankNodes, searchOrders, hlabels, hinitial, hserialize, h.length_eq,
    refineLoop_perm hash h]

end

end

end OwlCore
