import OwlCore.Validation.Simple

/-!
# The property hierarchy

The hierarchy that the axioms assert, closed under inverses, and what it makes of the
writes of the analysis. An equivalence is asserted of every two of its properties; the
analysis links each of them with the first one only.
-/
namespace OwlCore

open Dictionary Fallible List Relation Schema

section

variable (axioms : List Node)

def Asserted (role : RoleAxiom) : Prop := ∃ ax ∈ axioms, roleAxiom ax = role

inductive Below : Node → Node → Prop where
  | sub {a b : Node} (h : Asserted axioms (.sub a b)) : Below a b
  | equivalent {ps : List Node} {a b : Node} (h : Asserted axioms (.equivalent ps)) (ha : a ∈ ps) (hb : b ∈ ps) :
      Below a b
  | first {a b : Node} (h : Asserted axioms (.inverse a b)) : Below a b.inverse
  | second {a b : Node} (h : Asserted axioms (.inverse a b)) : Below b a.inverse
  | symmetric {p : Node} (h : Asserted axioms (.symmetric p)) : Below p p.inverse
  | inverse {a b : Node} (h : Below a b) : Below a.inverse b.inverse

def ChainOrTransitive (p : Node) : Prop :=
  ∃ q, (Asserted axioms (.chain q) ∨ Asserted axioms (.transitive q)) ∧ (p = q ∨ p = q.inverse)

def Composite (p : Node) : Prop :=
  p = topObjectProperty ∨ p = bottomObjectProperty ∨ ChainOrTransitive axioms p

def NonSimple (p : Node) : Prop := ∃ q, Composite axioms q ∧ ReflTransGen (Below axioms) q p

def Edge (a b : Node) : Prop := ∃ ax ∈ axioms, .edge a b ∈ roleAxiomOps (roleAxiom ax)

end

section

variable {ax : Node} {role : RoleAxiom} {a b n p : Node}

theorem mem_edgeOps_nodes (hop : op ∈ edgeOps a b) (hn : n ∈ op.nodes) :
    n = a ∨ n = a.inverse ∨ n = b ∨ n = b.inverse := by
  simp only [edgeOps, retainOps, mem_append, mem_singleton] at hop
  rcases hop with (rfl | rfl) | (rfl | rfl) | rfl | rfl
  all_goals
    simp only [RoleOp.nodes, mem_cons, not_mem_nil, or_false] at hn
    tauto

theorem RoleAxiom.Sound.isProperty (h : role.Sound) (hp : p ∈ role.nodes) : IsProperty p := by
  cases role with
  | sub first second =>
    rcases (by simpa [RoleAxiom.nodes] using hp : p = first ∨ p = second) with rfl | rfl
    · exact h.1
    · exact h.2
  | inverse first second =>
    rcases (by simpa [RoleAxiom.nodes] using hp : p = first ∨ p = second) with rfl | rfl
    · exact h.1
    · exact h.2
  | equivalent properties => exact h.2 p hp
  | chain property => exact mem_singleton.mp hp ▸ h
  | symmetric property => exact mem_singleton.mp hp ▸ h
  | transitive property => exact mem_singleton.mp hp ▸ h
  | other => cases hp

theorem roleAxiomOps_nodes (h : role.Sound) (hop : op ∈ roleAxiomOps role) (hn : n ∈ op.nodes) :
    ∃ p ∈ role.nodes, n = p ∨ n = p.inverse := by
  cases role with
  | sub first second =>
    rcases mem_edgeOps_nodes hop hn with rfl | rfl | rfl | rfl <;> simp [RoleAxiom.nodes]
  | chain property =>
    simp only [roleAxiomOps, mem_append, mem_singleton] at hop
    refine ⟨property, by simp [RoleAxiom.nodes], ?_⟩
    rcases hop with rfl | rfl
    · exact .inl (mem_singleton.mp hn)
    · exact .inr (mem_singleton.mp hn)
  | equivalent properties =>
    cases properties with
    | nil => cases hop
    | cons first rest =>
      obtain ⟨second, hsecond, hop⟩ := mem_flatMap.mp hop
      have hcases : n = first ∨ n = first.inverse ∨ n = second ∨ n = second.inverse := by
        rcases mem_append.mp hop with hop | hop
        · exact mem_edgeOps_nodes hop hn
        · have := mem_edgeOps_nodes hop hn
          tauto
      rcases hcases with hn | hn | hn | hn
      · exact ⟨first, mem_cons_self, .inl hn⟩
      · exact ⟨first, mem_cons_self, .inr hn⟩
      · exact ⟨second, mem_cons_of_mem _ hsecond, .inl hn⟩
      · exact ⟨second, mem_cons_of_mem _ hsecond, .inr hn⟩
  | inverse first second =>
    have hcases : n = first ∨ n = first.inverse ∨ n = second ∨ n = second.inverse := by
      rcases mem_append.mp hop with hop | hop
      · have := mem_edgeOps_nodes hop hn
        rw [h.2.inverse_inverse] at this
        tauto
      · have := mem_edgeOps_nodes hop hn
        rw [h.1.inverse_inverse] at this
        tauto
    rcases hcases with rfl | rfl | rfl | rfl <;> simp [RoleAxiom.nodes]
  | symmetric property =>
    have := mem_edgeOps_nodes hop hn
    rw [IsProperty.inverse_inverse h] at this
    exact ⟨property, by simp [RoleAxiom.nodes], by tauto⟩
  | transitive property =>
    simp only [roleAxiomOps, retainOps, mem_append, mem_singleton] at hop
    refine ⟨property, by simp [RoleAxiom.nodes], ?_⟩
    rcases hop with (rfl | rfl) | rfl | rfl
    · exact .inl (mem_singleton.mp hn)
    · exact .inr (mem_singleton.mp hn)
    · exact .inl (mem_singleton.mp hn)
    · exact .inr (mem_singleton.mp hn)
  | other => cases hop

theorem mem_mentioned_of_roleAxiom (h : Constructible ax) (hp : p ∈ (roleAxiom ax).nodes) : p ∈ mentioned ax :=
  mem_filter.mpr ⟨Node.mem_walk_child (mem_children_of_roleAxiom hp), ((roleAxiom_sound h).isProperty hp).instance_of⟩

theorem axiomOps_nodes (h : Constructible ax) (hop : op ∈ axiomOps ax) (hn : n ∈ op.nodes) :
    ∃ p ∈ mentioned ax, n = p ∨ n = p.inverse := by
  rcases mem_append.mp hop with hop | hop
  · obtain ⟨p, hp, hop⟩ := mem_flatMap.mp hop
    refine ⟨p, hp, ?_⟩
    simp only [retainOps, mem_append, mem_singleton] at hop
    rcases hop with rfl | rfl
    · exact .inl (by simpa [RoleOp.nodes] using hn)
    · exact .inr (by simpa [RoleOp.nodes] using hn)
  · obtain ⟨p, hp, hn⟩ := roleAxiomOps_nodes (roleAxiom_sound h) hop hn
    exact ⟨p, mem_mentioned_of_roleAxiom h hp, hn⟩

theorem axiomOps_sound (h : Constructible ax) (hop : op ∈ axiomOps ax) : op.Sound := by
  intro n hn
  obtain ⟨p, hp, rfl | rfl⟩ := axiomOps_nodes h hop hn
  · exact isProperty_of_mentioned h hp
  · exact (isProperty_of_mentioned h hp).inverse

theorem loopOps_sound (h : ∀ ax ∈ axioms, Constructible ax) (hop : op ∈ loopOps axioms) : op.Sound := by
  simp only [loopOps, mem_append, mem_singleton] at hop
  rcases hop with rfl | rfl | hop
  · intro n hn
    obtain rfl := mem_singleton.mp hn
    exact isProperty_top
  · intro n hn
    obtain rfl := mem_singleton.mp hn
    exact isProperty_bottom
  · obtain ⟨ax, hax, hop⟩ := mem_flatMap.mp hop
    exact axiomOps_sound (h ax hax) hop

theorem mem_loop_composite (h : ∀ ax ∈ axioms, Constructible ax) :
    p ∈ ((loopOps axioms).foldl RoleOp.apply .empty).composite.map Prod.snd ↔ .composite p ∈ loopOps axioms := by
  have hdescribes := describes_foldl fun op hop => loopOps_sound h hop
  simp only [mem_map, hdescribes.composite]
  constructor
  · rintro ⟨_, ⟨q, hq, rfl⟩, rfl⟩
    exact hq
  · exact fun hp => ⟨_, ⟨p, hp, rfl⟩, rfl⟩

theorem mem_allOps (h : ∀ ax ∈ axioms, Constructible ax) :
    op ∈ allOps axioms ↔ op ∈ loopOps axioms ∨ ∃ q, .composite q ∈ loopOps axioms ∧ op ∈ retainOps q := by
  simp only [allOps, mem_append, mem_flatMap, mem_loop_composite h]

theorem allOps_sound (h : ∀ ax ∈ axioms, Constructible ax) (hop : op ∈ allOps axioms) : op.Sound := by
  rcases (mem_allOps h).mp hop with hop | ⟨q, hq, hop⟩
  · exact loopOps_sound h hop
  · have hproperty : IsProperty q := loopOps_sound h hq q (by simp [RoleOp.nodes])
    simp only [retainOps, mem_append, mem_singleton] at hop
    intro n hn
    rcases hop with rfl | rfl
    · exact mem_singleton.mp hn ▸ hproperty
    · exact mem_singleton.mp hn ▸ hproperty.inverse

theorem edge_mem_allOps (h : ∀ ax ∈ axioms, Constructible ax) :
    .edge a b ∈ allOps axioms ↔ Edge axioms a b := by
  simp only [Edge, mem_allOps h, loopOps, axiomOps, retainOps, mem_append, mem_flatMap, mem_singleton,
    reduceCtorEq, or_false, false_or, and_false, exists_false]

theorem composite_mem_roleAxiomOps :
    .composite p ∈ roleAxiomOps role ↔ ∃ q, (role = .chain q ∨ role = .transitive q) ∧ (p = q ∨ p = q.inverse) := by
  cases role with
  | chain q => simp [roleAxiomOps]
  | transitive q => simp [roleAxiomOps, retainOps]
  | equivalent properties =>
    cases properties with
    | nil => simp [roleAxiomOps]
    | cons first rest => simp [roleAxiomOps, edgeOps, retainOps]
  | _ => simp [roleAxiomOps, edgeOps, retainOps]

theorem composite_mem_loopOps : .composite p ∈ loopOps axioms ↔ Composite axioms p := by
  simp only [loopOps, axiomOps, retainOps, mem_append, mem_flatMap, mem_singleton, reduceCtorEq,
    or_false, false_or, and_false, exists_false, composite_mem_roleAxiomOps, RoleOp.composite.injEq, Composite,
    ChainOrTransitive, Asserted]
  refine or_congr_right (or_congr_right ?_)
  constructor
  · rintro ⟨ax, hax, q, hrole | hrole, hp⟩
    · exact ⟨q, .inl ⟨ax, hax, hrole⟩, hp⟩
    · exact ⟨q, .inr ⟨ax, hax, hrole⟩, hp⟩
  · rintro ⟨q, ⟨ax, hax, hrole⟩ | ⟨ax, hax, hrole⟩, hp⟩
    · exact ⟨ax, hax, q, .inl hrole, hp⟩
    · exact ⟨ax, hax, q, .inr hrole, hp⟩

theorem composite_mem_allOps (h : ∀ ax ∈ axioms, Constructible ax) :
    .composite p ∈ allOps axioms ↔ Composite axioms p := by
  simp only [mem_allOps h, retainOps, mem_append, mem_singleton, reduceCtorEq, or_false, and_false,
    exists_false, composite_mem_loopOps]

end

section

variable {role : RoleAxiom} {a b p q x y : Node}

theorem edge_mem_edgeOps : .edge x y ∈ edgeOps a b ↔ (x = a ∧ y = b) ∨ (x = a.inverse ∧ y = b.inverse) := by
  simp [edgeOps, retainOps]

theorem inverse_mem_edgeOps (ha : IsProperty a) (hb : IsProperty b) (h : .edge x y ∈ edgeOps a b) :
    .edge x.inverse y.inverse ∈ edgeOps a b := by
  rw [edge_mem_edgeOps] at h ⊢
  rcases h with ⟨rfl, rfl⟩ | ⟨rfl, rfl⟩
  · exact .inr ⟨rfl, rfl⟩
  · exact .inl ⟨ha.inverse_inverse, hb.inverse_inverse⟩

theorem inverse_mem_roleAxiomOps (hsound : role.Sound) (h : .edge x y ∈ roleAxiomOps role) :
    .edge x.inverse y.inverse ∈ roleAxiomOps role := by
  cases role with
  | sub first second => exact inverse_mem_edgeOps hsound.1 hsound.2 h
  | equivalent properties =>
    cases properties with
    | nil => cases h
    | cons first rest =>
      obtain ⟨second, hsecond, h⟩ := mem_flatMap.mp h
      have hfirst := hsound.2 first mem_cons_self
      have hproperty := hsound.2 second (mem_cons_of_mem first hsecond)
      refine mem_flatMap.mpr ⟨second, hsecond, mem_append.mpr ?_⟩
      rcases mem_append.mp h with h | h
      · exact .inl (inverse_mem_edgeOps hfirst hproperty h)
      · exact .inr (inverse_mem_edgeOps hproperty hfirst h)
  | inverse first second =>
    refine mem_append.mpr ?_
    rcases mem_append.mp h with h | h
    · exact .inl (inverse_mem_edgeOps hsound.1 hsound.2.inverse h)
    · exact .inr (inverse_mem_edgeOps hsound.2 hsound.1.inverse h)
  | symmetric property => exact inverse_mem_edgeOps hsound (IsProperty.inverse hsound) h
  | chain property => simp [roleAxiomOps] at h
  | transitive property => simp [roleAxiomOps, retainOps] at h
  | other => cases h

theorem retain_of_edge (h : .edge x y ∈ roleAxiomOps role) :
    .retain x ∈ roleAxiomOps role ∧ .retain y ∈ roleAxiomOps role := by
  have hends : ∀ {a b}, RoleOp.edge x y ∈ edgeOps a b → .retain x ∈ edgeOps a b ∧ .retain y ∈ edgeOps a b := by
    intro a b h
    rcases edge_mem_edgeOps.mp h with ⟨rfl, rfl⟩ | ⟨rfl, rfl⟩ <;> simp [edgeOps, retainOps]
  cases role with
  | sub first second => exact hends h
  | equivalent properties =>
    cases properties with
    | nil => cases h
    | cons first rest =>
      obtain ⟨second, hsecond, h⟩ := mem_flatMap.mp h
      have hboth : .retain x ∈ edgeOps first second ++ edgeOps second first ∧
          .retain y ∈ edgeOps first second ++ edgeOps second first := by
        rcases mem_append.mp h with h | h
        · exact ⟨mem_append_left _ (hends h).1, mem_append_left _ (hends h).2⟩
        · exact ⟨mem_append_right _ (hends h).1, mem_append_right _ (hends h).2⟩
      exact ⟨mem_flatMap.mpr ⟨second, hsecond, hboth.1⟩, mem_flatMap.mpr ⟨second, hsecond, hboth.2⟩⟩
  | inverse first second =>
    rcases mem_append.mp h with h | h
    · exact ⟨mem_append_left _ (hends h).1, mem_append_left _ (hends h).2⟩
    · exact ⟨mem_append_right _ (hends h).1, mem_append_right _ (hends h).2⟩
  | symmetric property => exact hends h
  | chain property => simp [roleAxiomOps] at h
  | transitive property => simp [roleAxiomOps, retainOps] at h
  | other => cases h

theorem below_of_edge (h : Edge axioms x y) : Below axioms x y := by
  obtain ⟨ax, hax, h⟩ := h
  have hpair : ∀ {a b}, Below axioms a b → RoleOp.edge x y ∈ edgeOps a b → Below axioms x y := by
    intro a b hbelow h
    rcases edge_mem_edgeOps.mp h with ⟨rfl, rfl⟩ | ⟨rfl, rfl⟩
    · exact hbelow
    · exact hbelow.inverse
  have hasserted : Asserted axioms (roleAxiom ax) := ⟨ax, hax, rfl⟩
  generalize roleAxiom ax = role at h hasserted
  cases role with
  | sub first second => exact hpair (.sub hasserted) h
  | equivalent properties =>
    cases properties with
    | nil => cases h
    | cons first rest =>
      obtain ⟨second, hsecond, h⟩ := mem_flatMap.mp h
      have hmem : second ∈ first :: rest := mem_cons_of_mem first hsecond
      rcases mem_append.mp h with h | h
      · exact hpair (.equivalent hasserted mem_cons_self hmem) h
      · exact hpair (.equivalent hasserted hmem mem_cons_self) h
  | inverse first second =>
    rcases mem_append.mp h with h | h
    · exact hpair (.first hasserted) h
    · exact hpair (.second hasserted) h
  | symmetric property => exact hpair (.symmetric hasserted) h
  | chain property => simp [roleAxiomOps] at h
  | transitive property => simp [roleAxiomOps, retainOps] at h
  | other => cases h

/-- What is asserted can be reached along the edges; an equivalence through its first property. -/
theorem edges_of_below (haxioms : ∀ ax ∈ axioms, Constructible ax) (h : Below axioms x y) :
    ReflTransGen (Edge axioms) x y := by
  have hedge : ∀ {a b role}, Asserted axioms role → RoleOp.edge a b ∈ roleAxiomOps role → Edge axioms a b := by
    rintro a b _ ⟨ax, hax, rfl⟩ h
    exact ⟨ax, hax, h⟩
  induction h with
  | sub h => exact .single (hedge h (edge_mem_edgeOps.mpr (.inl ⟨rfl, rfl⟩)))
  | @equivalent ps a b h ha hb =>
    cases ps with
    | nil => cases ha
    | cons first rest =>
      have hto : ReflTransGen (Edge axioms) a first := by
        rcases mem_cons.mp ha with rfl | ha
        · exact .refl
        · refine .single (hedge h (mem_flatMap.mpr ⟨a, ha, mem_append_right _ ?_⟩))
          exact edge_mem_edgeOps.mpr (.inl ⟨rfl, rfl⟩)
      have hfrom : ReflTransGen (Edge axioms) first b := by
        rcases mem_cons.mp hb with rfl | hb
        · exact .refl
        · refine .single (hedge h (mem_flatMap.mpr ⟨b, hb, mem_append_left _ ?_⟩))
          exact edge_mem_edgeOps.mpr (.inl ⟨rfl, rfl⟩)
      exact hto.trans hfrom
  | first h => exact .single (hedge h (mem_append_left _ (edge_mem_edgeOps.mpr (.inl ⟨rfl, rfl⟩))))
  | second h => exact .single (hedge h (mem_append_right _ (edge_mem_edgeOps.mpr (.inl ⟨rfl, rfl⟩))))
  | symmetric h => exact .single (hedge h (edge_mem_edgeOps.mpr (.inl ⟨rfl, rfl⟩)))
  | inverse h ih =>
    refine ih.lift Node.inverse fun a b => ?_
    rintro ⟨ax, hax, hab⟩
    exact ⟨ax, hax, inverse_mem_roleAxiomOps (roleAxiom_sound (haxioms ax hax)) hab⟩

theorem nonSimple_iff_edges (haxioms : ∀ ax ∈ axioms, Constructible ax) :
    NonSimple axioms p ↔ ∃ q, Composite axioms q ∧ ReflTransGen (Edge axioms) q p := by
  refine exists_congr fun q => and_congr_right fun _ => ⟨fun h => ?_, fun h => ?_⟩
  · induction h with
    | refl => exact .refl
    | tail _ hstep ih => exact ih.trans (edges_of_below haxioms hstep)
  · induction h with
    | refl => exact .refl
    | tail _ hstep ih => exact ih.tail (below_of_edge hstep)

theorem reachable_inverse (h : ReflTransGen (Below axioms) x y) :
    ReflTransGen (Below axioms) x.inverse y.inverse := h.lift Node.inverse fun _ _ hab => hab.inverse

theorem ChainOrTransitive.isProperty (haxioms : ∀ ax ∈ axioms, Constructible ax)
    (h : ChainOrTransitive axioms q) : IsProperty q ∧ ChainOrTransitive axioms q.inverse := by
  obtain ⟨k, hk, hq⟩ := h
  have hproperty : IsProperty k := by
    rcases hk with ⟨ax, hax, hrole⟩ | ⟨ax, hax, hrole⟩
    all_goals
      have hsound := roleAxiom_sound (haxioms ax hax)
      rwa [hrole] at hsound
  rcases hq with rfl | rfl
  · exact ⟨hproperty, q, hk, .inr rfl⟩
  · exact ⟨hproperty.inverse, k, hk, .inl hproperty.inverse_inverse⟩

/-- What lies above a chain or a transitive property is non-simple together with its inverse. -/
theorem nonSimple_inverse (haxioms : ∀ ax ∈ axioms, Constructible ax) (hq : ChainOrTransitive axioms q)
    (h : ReflTransGen (Below axioms) q p) : NonSimple axioms p.inverse :=
  ⟨q.inverse, .inr (.inr (hq.isProperty haxioms).2), reachable_inverse h⟩

/-- Closure under inverses fails at the two built-in properties, if it fails. -/
theorem inverse_closed_iff (haxioms : ∀ ax ∈ axioms, Constructible ax) :
    (∀ p, NonSimple axioms p → NonSimple axioms p.inverse) ↔
      NonSimple axioms topObjectProperty.inverse ∧ NonSimple axioms bottomObjectProperty.inverse := by
  constructor
  · intro h
    exact ⟨h _ ⟨_, .inl rfl, .refl⟩, h _ ⟨_, .inr (.inl rfl), .refl⟩⟩
  · rintro ⟨htop, hbottom⟩ p ⟨q, hq, hreach⟩
    rcases hq with rfl | rfl | hq
    · obtain ⟨k, hk, hk'⟩ := htop
      exact ⟨k, hk, hk'.trans (reachable_inverse hreach)⟩
    · obtain ⟨k, hk, hk'⟩ := hbottom
      exact ⟨k, hk, hk'.trans (reachable_inverse hreach)⟩
    · exact nonSimple_inverse haxioms hq hreach

end

end OwlCore
