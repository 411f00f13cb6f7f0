import OwlCore.Document.Places

/-!
# Carrying one blank graph onto another

A map of labels carries a graph onto another when it is one to one on the labels
and the image of the arc set is the other arc set. It then carries connected
components onto connected components.
-/
namespace OwlCore

open List

section

variable {L L' : Type}

def endLabels (arcs : List (BlankNodeArc L)) : Set L := {l | ∃ arc ∈ arcs, l ∈ arc.ends}

structure Carries (f : L → L') (arcs : List (BlankNodeArc L)) (arcs' : List (BlankNodeArc L')) : Prop where
  injOn : Set.InjOn f (endLabels arcs)
  mem_iff : ∀ arc', arc' ∈ arcs' ↔ ∃ arc ∈ arcs, arc.map f = arc'

theorem BlankNodeArc.map_congr {f g : L → L'} {arc : BlankNodeArc L} (h : ∀ l ∈ arc.ends, f l = g l) :
    arc.map f = arc.map g := by
  cases htarget : arc.target with
  | none => simp [BlankNodeArc.map, htarget, h arc.source arc.source_mem_ends]
  | some target =>
    simp [BlankNodeArc.map, htarget, h arc.source arc.source_mem_ends, h target (BlankNodeArc.target_mem_ends htarget)]

theorem BlankNodeArc.map_map (f : L → L') (g : L' → L'') (arc : BlankNodeArc L) :
    (arc.map f).map g = arc.map fun l => g (f l) := by
  simp [BlankNodeArc.map, Function.comp_def]

theorem BlankNodeArc.map_id_of {f : L → L} {arc : BlankNodeArc L} (h : ∀ l ∈ arc.ends, f l = l) :
    arc.map f = arc := by
  rw [BlankNodeArc.map_congr (g := id) h]
  simp [BlankNodeArc.map]

variable {f : L → L'} {arcs : List (BlankNodeArc L)} {arcs' : List (BlankNodeArc L')}

theorem Carries.mem_endLabels (h : Carries f arcs arcs') (l' : L') :
    l' ∈ endLabels arcs' ↔ ∃ l ∈ endLabels arcs, f l = l' := by
  constructor
  · rintro ⟨arc', harc', hl'⟩
    obtain ⟨arc, harc, rfl⟩ := (h.mem_iff arc').mp harc'
    rw [BlankNodeArc.ends_map, mem_map] at hl'
    obtain ⟨l, hl, rfl⟩ := hl'
    exact ⟨l, ⟨arc, harc, hl⟩, rfl⟩
  · rintro ⟨l, ⟨arc, harc, hl⟩, rfl⟩
    refine ⟨arc.map f, (h.mem_iff _).mpr ⟨arc, harc, rfl⟩, ?_⟩
    rw [BlankNodeArc.ends_map]
    exact mem_map_of_mem hl

theorem Carries.symm [Nonempty L] (h : Carries f arcs arcs') :
    ∃ g, Carries g arcs' arcs ∧ (∀ l ∈ endLabels arcs, g (f l) = l) ∧ ∀ l ∈ endLabels arcs', f (g l) = l := by
  let g := Function.invFunOn f (endLabels arcs)
  have hleft : ∀ l ∈ endLabels arcs, g (f l) = l := h.injOn.leftInvOn_invFunOn
  have hright : ∀ l ∈ endLabels arcs', f (g l) = l := by
    intro l' hl'
    obtain ⟨l, hl, rfl⟩ := (h.mem_endLabels l').mp hl'
    rw [hleft l hl]
  have hback : ∀ arc ∈ arcs, (arc.map f).map g = arc := by
    intro arc harc
    rw [BlankNodeArc.map_map]
    exact BlankNodeArc.map_id_of fun l hl => hleft l ⟨arc, harc, hl⟩
  refine ⟨g, ⟨fun a ha b hb hab => ?_, fun arc => ⟨fun harc => ?_, ?_⟩⟩, hleft, hright⟩
  · rw [← hright a ha, ← hright b hb, hab]
  · exact ⟨arc.map f, (h.mem_iff _).mpr ⟨arc, harc, rfl⟩, hback arc harc⟩
  · rintro ⟨arc', harc', rfl⟩
    obtain ⟨arc, harc, rfl⟩ := (h.mem_iff arc').mp harc'
    rw [hback arc harc]
    exact harc

theorem connected_map (h : ∀ arc ∈ arcs, arc.map f ∈ arcs') (hxy : connected arcs x y) :
    connected arcs' (f x) (f y) := by
  have hle : connected arcs ≤ (connected arcs').comap f := by
    apply Setoid.eqvGen_le
    rintro x y ⟨arc, harc, hx, hy⟩
    refine connected_of_mem (h arc harc) ?_ ?_ <;> rw [BlankNodeArc.ends_map]
    · exact mem_map_of_mem hx
    · exact mem_map_of_mem hy
  exact hle hxy

theorem Carries.connected_iff [Nonempty L] (h : Carries f arcs arcs') (hx : x ∈ endLabels arcs) (hy : y ∈ endLabels
    arcs) : connected arcs' (f x) (f y) ↔ connected arcs x y := by
  obtain ⟨g, hg, hleft, -⟩ := h.symm
  constructor
  · intro hxy
    have hback := connected_map (fun arc harc => (hg.mem_iff _).mpr ⟨arc, harc, rfl⟩) hxy
    rwa [hleft x hx, hleft y hy] at hback
  · exact connected_map fun arc harc => (h.mem_iff _).mpr ⟨arc, harc, rfl⟩

end

section

variable {f : String → String} {arcs arcs' : List (BlankNodeArc String)}
  {components components' : List BlankComponent}

def ImageLabels (f : String → String) (c c' : BlankComponent) : Prop :=
  ∀ l', l' ∈ c'.labels ↔ ∃ l ∈ c.labels, f l = l'

theorem Carries.imageLabels (h : Carries f arcs arcs') (hp : IsPartition arcs components) (hp' : IsPartition arcs'
    components') (hc : c ∈ components) (hc' : c' ∈ components') (hx : x ∈ c.labels) (hx' : f x ∈ c'.labels) :
    ImageLabels f c c' := by
  have hend : ∀ l ∈ c.labels, l ∈ endLabels arcs := fun l hl => hp.exists_arc c hc l hl
  intro l'
  rw [hp'.mem_labels c' hc' _ hx']
  constructor
  · intro hconnected
    have hl' : l' ∈ endLabels arcs' :=
      connected_end hconnected ((h.mem_endLabels _).mpr ⟨x, hend x hx, rfl⟩)
    obtain ⟨l, hl, rfl⟩ := (h.mem_endLabels l').mp hl'
    have hxl := (h.connected_iff (hend x hx) hl).mp hconnected
    exact ⟨l, (hp.mem_labels c hc x hx l).mpr hxl, rfl⟩
  · rintro ⟨l, hl, rfl⟩
    exact (h.connected_iff (hend x hx) (hend l hl)).mpr ((hp.mem_labels c hc x hx l).mp hl)

theorem Carries.exists_component (h : Carries f arcs arcs') (hp : IsPartition arcs components) (hp' : IsPartition
    arcs' components') (hc : c ∈ components) :
    ∃ c' ∈ components', ImageLabels f c c' := by
  obtain ⟨x, hx⟩ := exists_mem_of_ne_nil _ (hp.labels_ne c hc)
  have hend : f x ∈ endLabels arcs' := (h.mem_endLabels _).mpr ⟨x, hp.exists_arc c hc x hx, rfl⟩
  obtain ⟨arc, harc, hmem⟩ := hend
  obtain ⟨c', hc', hx'⟩ := hp'.exists_component arc harc _ hmem
  exact ⟨c', hc', h.imageLabels hp hp' hc hc' hx hx'⟩

end

end OwlCore
