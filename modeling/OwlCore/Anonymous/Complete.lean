import OwlCore.Anonymous.Invariance
import Mathlib.Data.Set.Function

/-!
# Canonical graphs determine the graph

The serialization of a graph over an order of its labels can be read back: equal bytes give
equal arcs over positions, whatever the digest function is. So the canonical graph is a complete
invariant.
-/
namespace OwlCore

open List Varint

variable {L L' : Type} [LinearOrder L] [LinearOrder L']

theorem encodeArc_inj {order : List L} {order' : List L'} {arc : BlankNodeArc L}
    {arc' : BlankNodeArc L'} (h : encodeArc order arc = encodeArc order' arc') :
    order.idxOf arc.source = order'.idxOf arc'.source ∧ arc.role = arc'.role ∧
      arc.target.map order.idxOf = arc'.target.map order'.idxOf ∧ arc.payload = arc'.payload := by
  simp only [encodeArc, append_assoc] at h
  obtain ⟨hsource, hrest⟩ := encode_append_inj _ _ _ _ h
  obtain ⟨hrole, hrest⟩ := frame_append_inj _ _ _ _ hrest
  have htarget : arc.target.map order.idxOf = arc'.target.map order'.idxOf ∧
      Varint.frame arc.payload = Varint.frame arc'.payload := by
    cases ht : arc.target <;> cases ht' : arc'.target <;> simp [ht, ht'] at hrest ⊢
    · exact hrest
    · obtain ⟨hindex, hpayload⟩ := encode_append_inj _ _ _ _ hrest
      exact ⟨hindex, hpayload⟩
  exact ⟨hsource, utf8Encode_injective hrole, htarget.1, frame_injective htarget.2⟩

theorem serializeGraph_inj {order : List L} {order' : List L'} {arcs : List (BlankNodeArc L)}
    {arcs' : List (BlankNodeArc L')} (h : serializeGraph order arcs = serializeGraph order' arcs') :
    order.length = order'.length ∧
      ∀ member, member ∈ arcs.map (encodeArc order) ↔ member ∈ arcs'.map (encodeArc order') := by
  simp only [serializeGraph, append_assoc, append_cancel_left_eq] at h
  obtain ⟨hlength, hmembers⟩ := encode_append_inj _ _ _ _ h
  exact ⟨hlength, KeyedSet.ofList_id_inj (counted_injective hmembers)⟩

section

variable {order order' : List L}

/-- Move a label to the label at its position in another order. -/
def transport (order order' : List L) (l : L) : L := (order'[order.idxOf l]?).getD l

theorem idxOf_transport (horder' : order'.Nodup) (hlength : order.length = order'.length) (hl : l ∈ order) :
    order'.idxOf (transport order order' l) = order.idxOf l := by
  have hindex : order.idxOf l < order'.length := hlength ▸ idxOf_lt_length_of_mem hl
  simp only [transport, getElem?_eq_getElem hindex, Option.getD_some]
  exact horder'.idxOf_getElem _ hindex

theorem transport_eq_of_idxOf_eq (hl' : l' ∈ order') (h : order.idxOf l = order'.idxOf l') :
    transport order order' l = l' := by
  have hindex : order'.idxOf l' < order'.length := idxOf_lt_length_of_mem hl'
  simp [transport, h, getElem?_eq_getElem hindex]

theorem bijOn_transport (horder : order.Nodup) (horder' : order'.Nodup)
    (hlength : order.length = order'.length) :
    Set.BijOn (transport order order') {l | l ∈ order} {l | l ∈ order'} := by
  refine ⟨fun l hl => ?_, fun a ha b hb hab => ?_, fun l' hl' => ?_⟩
  · have hindex := idxOf_transport horder' hlength hl
    have hlt := idxOf_lt_length_of_mem hl
    rw [← hindex, hlength] at hlt
    exact idxOf_lt_length_iff.mp hlt
  · have hindexes : order.idxOf a = order.idxOf b := by
      rw [← idxOf_transport horder' hlength ha, ← idxOf_transport horder' hlength hb, hab]
    exact (idxOf_inj ha).mp hindexes
  · have hlt : order'.idxOf l' < order.length := hlength ▸ idxOf_lt_length_of_mem hl'
    refine ⟨order[order'.idxOf l'], getElem_mem hlt, ?_⟩
    exact transport_eq_of_idxOf_eq hl' (horder.idxOf_getElem _ hlt)

theorem arc_eq_map_transport {arc arc' : BlankNodeArc L} (harc' : ∀ l ∈ arc'.ends, l ∈ order')
    (h : encodeArc order arc = encodeArc order' arc') : arc' = arc.map (transport order order') := by
  obtain ⟨hsource, hrole, htarget, hpayload⟩ := encodeArc_inj h
  have hmoved : transport order order' arc.source = arc'.source :=
    transport_eq_of_idxOf_eq (harc' _ arc'.source_mem_ends) hsource
  have hmovedTarget : arc.target.map (transport order order') = arc'.target := by
    cases ht : arc.target with
    | none => simpa [ht, eq_comm] using htarget
    | some target =>
      cases ht' : arc'.target with
      | none => simp [ht, ht'] at htarget
      | some target' =>
        simp only [ht, ht', Option.map_some, Option.some.injEq] at htarget ⊢
        exact transport_eq_of_idxOf_eq (harc' _ (BlankNodeArc.target_mem_ends ht')) htarget
  cases arc'
  simp only [BlankNodeArc.map, BlankNodeArc.mk.injEq]
  exact ⟨hmoved.symm, hrole.symm, hmovedTarget.symm, hpayload.symm⟩

end

/-- Some bijection between the label sets carries one arc set onto the other. -/
def Isomorphic (arcs : List (BlankNodeArc L)) (labels : List L) (arcs' : List (BlankNodeArc L))
    (labels' : List L) : Prop :=
  ∃ f : L → L, Set.BijOn f {l | l ∈ labelSet arcs labels} {l | l ∈ labelSet arcs' labels'} ∧
    BlankNodeArc.map f '' {arc | arc ∈ arcs} = {arc | arc ∈ arcs'}

theorem isomorphic_of_serializeGraph_eq {arcs arcs' : List (BlankNodeArc L)}
    {labels labels' order order' : List L} (horder : Perm order (labelSet arcs labels))
    (horder' : Perm order' (labelSet arcs' labels'))
    (h : serializeGraph order arcs = serializeGraph order' arcs') :
    Isomorphic arcs labels arcs' labels' := by
  obtain ⟨hlength, hmembers⟩ := serializeGraph_inj h
  have hnodup : order.Nodup := horder.nodup_iff.mpr (nodup_labelSet _ _)
  have hnodup' : order'.Nodup := horder'.nodup_iff.mpr (nodup_labelSet _ _)
  have hends' : ∀ arc ∈ arcs', ∀ l ∈ arc.ends, l ∈ order' := by
    intro arc harc l hl
    exact horder'.mem_iff.mpr (mem_labelSet.mpr (.inr ⟨arc, harc, hl⟩))
  refine ⟨transport order order', ?_, Set.Subset.antisymm ?_ ?_⟩
  · have hbij := bijOn_transport hnodup hnodup' hlength
    simpa only [horder.mem_iff, horder'.mem_iff] using hbij
  · rintro _ ⟨arc, harc, rfl⟩
    obtain ⟨arc', harc', hencode⟩ := mem_map.mp ((hmembers _).mp (mem_map_of_mem harc))
    rw [← arc_eq_map_transport (hends' arc' harc') hencode.symm]
    exact harc'
  · intro arc' harc'
    obtain ⟨arc, harc, hencode⟩ := mem_map.mp ((hmembers _).mpr (mem_map_of_mem harc'))
    exact ⟨arc, harc, (arc_eq_map_transport (hends' arc' harc') hencode).symm⟩

/-- Renaming labels and reordering arcs changes no outcome, and equal canonical graphs come
from isomorphic inputs only, whatever the digests, limits and scopes of the two calls. -/
theorem canonicalGraph_complete_invariant :
    (∀ (hash : Hash) (limits : ParseLimits) (f : L → L') (arcs : List (BlankNodeArc L))
        (labels : List L) (arcs' : List (BlankNodeArc L')) (labels' : List L')
        (documentScope documentScope' : Scope), Renames f arcs labels arcs' labels' →
      (alphaCanonicalizeBlankNodes hash limits arcs' documentScope' labels').map
          AlphaCanonicalization.shape =
        (alphaCanonicalizeBlankNodes hash limits arcs documentScope labels).map
          AlphaCanonicalization.shape) ∧
    (∀ (hash hash' : Hash) (limits limits' : ParseLimits) (arcs arcs' : List (BlankNodeArc L))
        (labels labels' : List L) (documentScope documentScope' : Scope)
        (result result' : AlphaCanonicalization L),
      alphaCanonicalizeBlankNodes hash limits arcs documentScope labels = .ok result →
      alphaCanonicalizeBlankNodes hash' limits' arcs' documentScope' labels' = .ok result' →
      result.canonicalGraph = result'.canonicalGraph → Isomorphic arcs labels arcs' labels') := by
  constructor
  · intro hash limits f arcs labels arcs' labels' documentScope documentScope' h
    exact alphaCanonicalizeBlankNodes_map hash limits h documentScope documentScope'
  · intro hash hash' limits limits' arcs arcs' labels labels' _ _ result result' hok hok' hgraph
    obtain ⟨order, horder, hserialize, -⟩ := alphaCanonicalizeBlankNodes_ok hash limits hok
    obtain ⟨order', horder', hserialize', -⟩ := alphaCanonicalizeBlankNodes_ok hash' limits' hok'
    rw [hserialize, hserialize'] at hgraph
    exact isomorphic_of_serializeGraph_eq horder horder' hgraph

end OwlCore
