import OwlCore.Validation.Hierarchy

/-!
# The result of the role analysis

The reading of the axioms fails only for want of resources, the lookups after it never
miss a key, and the four lists of the result are determined by the set of axioms.
-/
namespace OwlCore

open Dictionary Fallible KeyedSet List Relation

variable {axioms : List Node}

theorem encodable_of_bytes (h : canonicalBytes defaultLimits n = .ok encoded) :
    n.Encodable defaultLimits := (canonicalBytes_ok_iff.mp h).1

theorem encodable_builtin (n : Node) (h : n = topObjectProperty ∨ n = bottomObjectProperty) :
    n.Encodable defaultLimits ∧ n.inverse.Encodable defaultLimits := by
  have hall : ∀ m ∈ [topObjectProperty, topObjectProperty.inverse, bottomObjectProperty, bottomObjectProperty.inverse],
      canonicalBytes defaultLimits m = .ok m.bytes := by decide +kernel
  rcases h with rfl | rfl <;>
    exact ⟨encodable_of_bytes (hall _ (by simp)), encodable_of_bytes (hall _ (by simp))⟩

/-- The property expressions of the axioms and their inverses have bytes. -/
def Keyed (axioms : List Node) : Prop :=
  ∀ ax ∈ axioms, ∀ p ∈ mentioned ax, p.Encodable defaultLimits ∧ p.inverse.Encodable defaultLimits

theorem encodable_allOps_iff (h : ∀ ax ∈ axioms, Constructible ax) :
    RoleOp.Encodable (allOps axioms) ↔ Keyed axioms := by
  constructor
  · intro hops ax hax p hp
    have hmem : ∀ op ∈ retainOps p, op ∈ allOps axioms := fun op hop => (mem_allOps h).mpr (.inl (by
      simp only [loopOps, mem_append]
      exact .inr (.inr (mem_flatMap.mpr ⟨ax, hax, mem_append_left _ (mem_flatMap.mpr ⟨p, hp, hop⟩)⟩))))
    exact ⟨hops _ (hmem (.retain p) (by simp [retainOps])) p (by simp [RoleOp.nodes]),
      hops _ (hmem (.retain p.inverse) (by simp [retainOps])) p.inverse (by simp [RoleOp.nodes])⟩
  · intro hkeyed
    have hloop : ∀ op ∈ loopOps axioms, ∀ n ∈ op.nodes,
        n.Encodable defaultLimits ∧ n.inverse.Encodable defaultLimits := by
      intro op hop n hn
      simp only [loopOps, mem_append, mem_singleton] at hop
      rcases hop with rfl | rfl | hop
      · exact encodable_builtin n (.inl (mem_singleton.mp hn))
      · exact encodable_builtin n (.inr (mem_singleton.mp hn))
      · obtain ⟨ax, hax, hop⟩ := mem_flatMap.mp hop
        obtain ⟨p, hp, rfl | rfl⟩ := axiomOps_nodes (h ax hax) hop hn
        · exact hkeyed ax hax n hp
        · rw [(isProperty_of_mentioned (h ax hax) hp).inverse_inverse]
          exact (hkeyed ax hax p hp).symm
    intro op hop n hn
    rcases (mem_allOps h).mp hop with hop | ⟨q, hq, hop⟩
    · exact (hloop op hop n hn).1
    · have hboth := hloop _ hq q (by simp [RoleOp.nodes])
      simp only [retainOps, mem_append, mem_singleton] at hop
      rcases hop with rfl | rfl
      · exact mem_singleton.mp hn ▸ hboth.1
      · exact mem_singleton.mp hn ▸ hboth.2

theorem readAxioms_cases (h : ∀ ax ∈ axioms, Constructible ax) :
    (Keyed axioms → readAxioms axioms = .ok ((allOps axioms).foldl RoleOp.apply .empty)) ∧
      (¬Keyed axioms → ∃ e, readAxioms axioms = .error e ∧ ∀ key, e ≠ .keyError key) := by
  have hloop : Performs (fun state => state.addComposite topObjectProperty >>= fun state =>
      state.addComposite bottomObjectProperty >>= fun state => axioms.foldlM readAxiom state) (loopOps axioms) :=
    (performs_addComposite _).bind ((performs_addComposite _).bind
      (.foldlM fun ax hax => performs_readAxiom (h ax hax)))
  have hread : readAxioms axioms = ((RoleState.empty.addComposite topObjectProperty >>= fun state =>
      state.addComposite bottomObjectProperty >>= fun state => axioms.foldlM readAxiom state) >>= fun state =>
        (state.composite.map Prod.snd).foldlM RoleState.retain state) := by
    simp only [readAxioms, bind_assoc]
  have hlast : Performs (fun state => (((loopOps axioms).foldl RoleOp.apply .empty).composite.map Prod.snd).foldlM
      RoleState.retain state) ((((loopOps axioms).foldl RoleOp.apply .empty).composite.map Prod.snd).flatMap retainOps) :=
    .foldlM fun q hq => performs_retain
      (loopOps_sound h ((mem_loop_composite h).mp hq) q (by simp [RoleOp.nodes]))
  rw [← encodable_allOps_iff h, allOps, RoleOp.encodable_append, hread]
  constructor
  · rintro ⟨hops, hops'⟩
    rw [hloop.ok .empty hops, foldl_append]
    exact hlast.ok _ hops'
  · intro hnot
    by_cases hops : RoleOp.Encodable (loopOps axioms)
    · rw [hloop.ok .empty hops]
      exact hlast.error _ fun hops' => hnot ⟨hops, hops'⟩
    · obtain ⟨e, he, hkey⟩ := hloop.error .empty hops
      exact ⟨e, by rw [he]; rfl, hkey⟩

/-- The adjacency sets hold the edges, if no first end of an edge is missing. -/
theorem foldlM_addSuper (es : List (Bytes × Bytes)) : ∀ adjacency : List (Bytes × List Bytes),
    (∀ e ∈ es, e.1 ∈ keys adjacency) →
    ∃ adjacency', es.foldlM addSuper adjacency = .ok adjacency' ∧ ∀ k sups, get? adjacency k = some sups →
        ∃ sups', get? adjacency' k = some sups' ∧ ∀ y, y ∈ sups' ↔ y ∈ sups ∨ (k, y) ∈ es := by
  induction es with
  | nil => exact fun adjacency _ => ⟨adjacency, rfl, fun k sups hk => ⟨sups, hk, by simp⟩⟩
  | cons e es ih =>
    intro adjacency hkeys
    obtain ⟨he, hes⟩ := forall_mem_cons.mp hkeys
    obtain ⟨old, hold⟩ : ∃ old, get? adjacency e.1 = some old := by
      cases hget : get? adjacency e.1 with
      | none => exact absurd he (get?_eq_none.mp hget)
      | some old => exact ⟨old, rfl⟩
    have hstep : addSuper adjacency e = .ok (assign adjacency e.1 (if e.2 ∈ old then old else old ++ [e.2])) := by
      simp [addSuper, hold]
    obtain ⟨adjacency', hrun, hspec⟩ := ih (assign adjacency e.1 (if e.2 ∈ old then old else old ++ [e.2]))
      fun e' he' => mem_keys_assign.mpr (.inl (hes e' he'))
    refine ⟨adjacency', by simp [foldlM_cons, hstep, bind, Except.bind, hrun], fun k sups hk => ?_⟩
    by_cases hek : k = e.1
    · subst hek
      obtain rfl := Option.some.inj (hold.symm.trans hk)
      obtain ⟨sups', hget, hsups⟩ := hspec e.1 _ (by rw [get?_assign, if_pos rfl])
      refine ⟨sups', hget, fun y => ?_⟩
      rw [hsups]
      have hnew : y ∈ (if e.2 ∈ old then old else old ++ [e.2]) ↔ y ∈ old ∨ y = e.2 := by
        split
        · rename_i hmem
          exact ⟨.inl, fun h => h.elim id fun heq => heq ▸ hmem⟩
        · simp
      have hpair : (e.1, y) ∈ e :: es ↔ y = e.2 ∨ (e.1, y) ∈ es := by
        rw [mem_cons, Prod.ext_iff]
        simp
      rw [hnew, hpair, or_assoc]
    · obtain ⟨sups', hget, hsups⟩ := hspec k sups (by rw [get?_assign, if_neg hek]; exact hk)
      refine ⟨sups', hget, fun y => ?_⟩
      have hpair : (k, y) ∈ e :: es ↔ (k, y) ∈ es := by
        rw [mem_cons, Prod.ext_iff]
        simp [hek]
      rw [hsups, hpair]

theorem reach_keys_iff (h : ∀ ax ∈ axioms, Constructible ax) (hstep : ∀ k k', step k k' ↔ ∃ a b, Edge axioms a b ∧ k =
    a.bytes ∧ k' = b.bytes) (hq : IsProperty q) (k : Bytes) :
    ReflTransGen step q.bytes k ↔ ∃ p, IsProperty p ∧ k = p.bytes ∧ ReflTransGen (Edge axioms) q p := by
  have hends : ∀ {a b}, Edge axioms a b → IsProperty a ∧ IsProperty b := by
    intro a b hab
    have hsound := allOps_sound h ((edge_mem_allOps h).mpr hab)
    exact ⟨hsound a (by simp [RoleOp.nodes]), hsound b (by simp [RoleOp.nodes])⟩
  constructor
  · intro hreach
    induction hreach with
    | refl => exact ⟨q, hq, rfl, .refl⟩
    | tail _ hnext ih =>
      obtain ⟨p, hp, rfl, hreach⟩ := ih
      obtain ⟨a, b, hab, hbytes, rfl⟩ := (hstep _ _).mp hnext
      obtain rfl := hp.bytes_inj (hends hab).1 hbytes
      exact ⟨b, (hends hab).2, rfl, hreach.tail hab⟩
  · rintro ⟨p, -, rfl, hreach⟩
    exact hreach.lift Node.bytes fun a b hab => (hstep _ _).mpr ⟨a, b, hab, rfl, rfl⟩

def Retained (axioms : List Node) (p : Node) : Prop :=
  (∃ ax ∈ axioms, .retain p ∈ axiomOps ax) ∨ ∃ q, Composite axioms q ∧ (p = q ∨ p = q.inverse)

theorem retain_mem_allOps (h : ∀ ax ∈ axioms, Constructible ax) :
    .retain p ∈ allOps axioms ↔ Retained axioms p := by
  simp only [mem_allOps h, composite_mem_loopOps, Retained]
  refine or_congr ?_ (exists_congr fun q => and_congr_right fun _ => ?_)
  · simp [loopOps]
  · simp [retainOps]

theorem retained_of_edge (h : Edge axioms a b) : Retained axioms a ∧ Retained axioms b := by
  obtain ⟨ax, hax, hab⟩ := h
  obtain ⟨ha, hb⟩ := retain_of_edge hab
  exact ⟨.inl ⟨ax, hax, mem_append_right _ ha⟩, .inl ⟨ax, hax, mem_append_right _ hb⟩⟩

theorem isProperty_of_retained (h : ∀ ax ∈ axioms, Constructible ax) (hp : Retained axioms p) :
    IsProperty p := allOps_sound h ((retain_mem_allOps h).mpr hp) p (by simp [RoleOp.nodes])

theorem retained_of_composite (h : Composite axioms p) : Retained axioms p := .inr ⟨p, h, .inl rfl⟩

theorem retained_of_nonSimple (h : ∀ ax ∈ axioms, Constructible ax) (hp : NonSimple axioms p) :
    Retained axioms p := by
  obtain ⟨q, hq, hqp⟩ := (nonSimple_iff_edges h).mp hp
  cases hqp with
  | refl => exact retained_of_composite hq
  | tail _ hab => exact (retained_of_edge hab).2

theorem mem_keys_bytes {d : List (Bytes × Node)} {P : Node → Prop} (hd : ∀ e, e ∈ d ↔ ∃ p, P p ∧ e = (p.bytes, p))
    (k : Bytes) : k ∈ keys d ↔ ∃ p, P p ∧ k = p.bytes := by
  simp only [Dictionary.mem_keys, hd, Prod.mk.injEq]
  constructor
  · rintro ⟨_, p, hp, rfl, rfl⟩
    exact ⟨_, hp, rfl⟩
  · rintro ⟨p, hp, rfl⟩
    exact ⟨p, p, hp, rfl, rfl⟩

theorem drain_nonSimple (h : ∀ ax ∈ axioms, Constructible ax) (horder : ∀ l k, k ∈ order l ↔ k ∈ l)
    (hstate : Describes state (allOps axioms)) :
    ∃ adjacency seen,
      (keys state.edges).foldlM addSuper ((keys state.properties).map fun key => (key, [])) = .ok adjacency ∧
      Worklist.drain (fun sub => order <$> lookupKey adjacency sub) (lookupKey state.properties)
        (state.composite.length + state.properties.length) (state.composite, (keys state.composite).reverse) =
          .ok (seen, []) ∧
      ∀ e, e ∈ seen ↔ ∃ p, NonSimple axioms p ∧ e = (p.bytes, p) := by
  have hretained := mem_keys_bytes (by simpa only [retain_mem_allOps h] using hstate.properties)
  have hedges : ∀ k k', (k, k') ∈ keys state.edges ↔ ∃ a b, Edge axioms a b ∧ k = a.bytes ∧ k' = b.bytes := by
    intro k k'
    simp only [Dictionary.mem_keys, hstate.edges, edge_mem_allOps h, Prod.mk.injEq]
    constructor
    · rintro ⟨_, a, b, hab, ⟨rfl, rfl⟩, rfl⟩
      exact ⟨a, b, hab, rfl, rfl⟩
    · rintro ⟨a, b, hab, rfl, rfl⟩
      exact ⟨_, a, b, hab, ⟨rfl, rfl⟩, rfl⟩
  have hcomposite : ∀ e, e ∈ state.composite ↔ ∃ p, Composite axioms p ∧ e = (p.bytes, p) := by
    simpa only [composite_mem_allOps h] using hstate.composite
  have hkeys := mem_keys_bytes hcomposite
  have hget : ∀ p, Retained axioms p → get? state.properties p.bytes = some p := fun p hp =>
    get?_of_mem hstate.nodup ((hstate.properties _).mpr ⟨p, (retain_mem_allOps h).mpr hp, rfl⟩)
  obtain ⟨adjacency, hadjacency, hsups⟩ := foldlM_addSuper (keys state.edges)
    ((keys state.properties).map fun key => (key, [])) (by
      rintro ⟨k, k'⟩ hkk'
      obtain ⟨a, b, hab, rfl, rfl⟩ := (hedges k k').mp hkk'
      simp only [Dictionary.keys, List.map_map, Function.comp_def]
      exact (hretained _).mpr ⟨a, (retained_of_edge hab).1, rfl⟩)
  have hclosed : Worklist.Closed (fun sub => order <$> lookupKey adjacency sub) (lookupKey state.properties)
      (fun k k' => (k, k') ∈ keys state.edges) (fun k => (get? state.properties k).getD topObjectProperty)
      (keys state.properties).toFinset := by
    refine ⟨fun k hk => ?_, fun k hk => ?_, fun k hk k' hstep => ?_⟩
    · obtain ⟨sups, hsup, hmem⟩ := hsups k [] (get?_map_const (mem_toFinset.mp hk))
      refine ⟨order sups, by simp [lookupKey, hsup, Functor.map, Except.map], fun k' => ?_⟩
      simp [horder, hmem]
    · obtain ⟨p, hp, rfl⟩ := (hretained k).mp (mem_toFinset.mp hk)
      simp [lookupKey, hget p hp]
    · obtain ⟨a, b, hab, rfl, rfl⟩ := (hedges k k').mp hstep
      exact mem_toFinset.mpr ((hretained _).mpr ⟨b, (retained_of_edge hab).2, rfl⟩)
  have hinv : Worklist.Invariant (fun k k' => (k, k') ∈ keys state.edges)
      (fun k => (get? state.properties k).getD topObjectProperty) (keys state.properties).toFinset
      (· ∈ keys state.composite) (state.composite, (keys state.composite).reverse) := by
    refine ⟨fun e he => ?_, fun k hk => ?_, fun k hk => ⟨k, hk, .refl⟩, fun k hk => hk, fun k hk => mem_reverse.mp hk⟩
    · obtain ⟨p, hp, rfl⟩ := (hcomposite e).mp he
      simp [hget p (retained_of_composite hp)]
    · obtain ⟨p, hp, rfl⟩ := (hkeys k).mp hk
      exact mem_toFinset.mpr ((hretained _).mpr ⟨p, retained_of_composite hp, rfl⟩)
  have hfuel : Worklist.measure (keys state.properties).toFinset
      (state.composite, (keys state.composite).reverse) ≤ state.composite.length + state.properties.length := by
    have hsubset : (keys state.properties).toFinset \ (keys state.composite).toFinset ⊆ (keys state.properties).toFinset :=
      Finset.sdiff_subset
    have hcard := (Finset.card_le_card hsubset).trans (toFinset_card_le _)
    simp only [Worklist.measure, length_reverse, Dictionary.keys, length_map] at hcard ⊢
    omega
  obtain ⟨seen, hrun, hfinal, hseen⟩ := Worklist.drain_spec hclosed _ hfuel hinv fun k hk hnot =>
    absurd (mem_reverse.mpr hk) hnot
  refine ⟨adjacency, seen, hadjacency, hrun, fun e => ?_⟩
  have hreach : ∀ k, k ∈ keys seen ↔ ∃ p, NonSimple axioms p ∧ k = p.bytes := by
    intro k
    rw [hseen]
    constructor
    · rintro ⟨a, ha, hak⟩
      obtain ⟨q, hq, rfl⟩ := (hkeys a).mp ha
      have hproperty := isProperty_of_retained h (retained_of_composite hq)
      obtain ⟨p, -, rfl, hqp⟩ := (reach_keys_iff h hedges hproperty k).mp hak
      exact ⟨p, (nonSimple_iff_edges h).mpr ⟨q, hq, hqp⟩, rfl⟩
    · rintro ⟨p, hp, rfl⟩
      obtain ⟨q, hq, hqp⟩ := (nonSimple_iff_edges h).mp hp
      refine ⟨q.bytes, (hkeys _).mpr ⟨q, hq, rfl⟩, ?_⟩
      exact hqp.lift Node.bytes fun a b hab => (hedges _ _).mpr ⟨a, b, hab, rfl, rfl⟩
  have hvalue : ∀ p, NonSimple axioms p → get? state.properties p.bytes = some p := fun p hp =>
    hget p (retained_of_nonSimple h hp)
  constructor
  · intro he
    obtain ⟨p, hp, hbytes⟩ := (hreach e.1).mp (mem_keys.mpr ⟨e.2, he⟩)
    refine ⟨p, hp, ?_⟩
    rw [hfinal.entries e he, hbytes, hvalue p hp]
    rfl
  · rintro ⟨p, hp, rfl⟩
    obtain ⟨v, hv⟩ := mem_keys.mp ((hreach p.bytes).mpr ⟨p, hp, rfl⟩)
    have hentry := hfinal.entries _ hv
    rw [hvalue p hp] at hentry
    rwa [hentry] at hv

section

theorem sorted_spec [LinearOrder κ'] {k : α → κ} {f : κ → κ'} {P : α → Prop} (hd : ∀ e, e ∈ d ↔ ∃ x, P x ∧ e = (k x,
    x)) (hP : ∀ x y, P x → P y → f (k x) = f (k y) → x = y) :
    Ascending (fun x => f (k x)) ((KeyedSet.ofList (fun e => f e.1) d).map Prod.snd) ∧
      ∀ x, x ∈ (KeyedSet.ofList (fun e => f e.1) d).map Prod.snd ↔ P x := by
  have hentries : d = (d.map Prod.snd).map fun x => (k x, x) := by
    rw [List.map_map]
    conv_lhs => rw [← map_id d]
    refine map_congr_left fun e he => ?_
    obtain ⟨x, -, rfl⟩ := (hd e).mp he
    rfl
  have hvalues : ∀ x, x ∈ d.map Prod.snd ↔ P x := by
    intro x
    rw [mem_map]
    constructor
    · rintro ⟨e, he, rfl⟩
      obtain ⟨x, hx, rfl⟩ := (hd e).mp he
      exact hx
    · exact fun hx => ⟨_, (hd _).mpr ⟨x, hx, rfl⟩, rfl⟩
  have hsorted : (KeyedSet.ofList (fun e => f e.1) d).map Prod.snd =
      KeyedSet.ofList (fun x => f (k x)) (d.map Prod.snd) := by
    conv_lhs => rw [hentries, ofList_map, List.map_map]
    exact map_id _
  rw [hsorted]
  refine ⟨ascending_ofList _, fun x => ?_⟩
  rw [mem_ofList (fun x y hx hy => hP x y ((hvalues x).mp hx) ((hvalues y).mp hy)), hvalues]

theorem sortedValues_spec {P : Node → Prop} (hd : ∀ e, e ∈ d ↔ ∃ p, P p ∧ e = (p.bytes, p)) (hP : ∀ p, P p →
    IsProperty p) :
    Ascending Node.bytes (sortedValues d) ∧ ∀ p, p ∈ sortedValues d ↔ P p :=
  sorted_spec (f := id) hd fun p q hp hq => (hP p hp).bytes_inj (hP q hq)

def edgeKey (e : Node × Node) : Bytes ×ₗ Bytes := toLex (e.1.bytes, e.2.bytes)

theorem sortedEdges_spec {P : Node → Node → Prop} (hd : ∀ e, e ∈ d ↔ ∃ a b, P a b ∧ e = ((a.bytes, b.bytes), (a, b)))
    (hP : ∀ a b, P a b → IsProperty a ∧ IsProperty b) :
    Ascending edgeKey ((KeyedSet.ofList (fun e => toLex e.1) d).map Prod.snd) ∧
      ∀ e, e ∈ (KeyedSet.ofList (fun e => toLex e.1) d).map Prod.snd ↔ P e.1 e.2 := by
  refine sorted_spec (k := fun e : Node × Node => (e.1.bytes, e.2.bytes)) (f := toLex)
    (by simpa only [Prod.exists] using hd) fun e e' he he' hkey => ?_
  obtain ⟨h1, h2⟩ := Prod.mk.inj (toLex_inj.mp hkey)
  exact Prod.ext ((hP _ _ he).1.bytes_inj (hP _ _ he').1 h1) ((hP _ _ he).2.bytes_inj (hP _ _ he').2 h2)

/-- What the result of the analysis says about a set of axioms. -/
structure RoleAnalysis.Describes (r : RoleAnalysis) (axioms : List Node) : Prop where
  properties : Ascending Node.bytes r.properties ∧ ∀ p, p ∈ r.properties ↔ Retained axioms p
  hierarchy : Ascending edgeKey r.hierarchy ∧ ∀ e, e ∈ r.hierarchy ↔ Edge axioms e.1 e.2
  composite : Ascending Node.bytes r.composite ∧ ∀ p, p ∈ r.composite ↔ Composite axioms p
  nonSimple : Ascending Node.bytes r.nonSimple ∧ ∀ p, p ∈ r.nonSimple ↔ NonSimple axioms p

variable {axioms' : List Node}

theorem composite_congr (hmem : ∀ ax, ax ∈ axioms' ↔ ax ∈ axioms) (p : Node) :
    Composite axioms' p ↔ Composite axioms p := by
  simp only [Composite, ChainOrTransitive, Asserted, hmem]

theorem edge_congr (hmem : ∀ ax, ax ∈ axioms' ↔ ax ∈ axioms) :
    Edge axioms' = Edge axioms := by
  funext a b
  simp only [Edge, hmem]

theorem RoleAnalysis.Describes.unique {r r' : RoleAnalysis}
    (h : ∀ ax ∈ axioms, Constructible ax) (hmem : ∀ ax, ax ∈ axioms' ↔ ax ∈ axioms)
    (hr : r.Describes axioms) (hr' : r'.Describes axioms') : r' = r := by
  have h' : ∀ ax ∈ axioms', Constructible ax := fun ax hax => h ax ((hmem ax).mp hax)
  have hproperties : r'.properties = r.properties := by
    refine hr'.properties.1.ext hr.properties.1 fun p => ?_
    rw [hr'.properties.2, hr.properties.2]
    simp only [Retained, hmem, composite_congr hmem]
  have hhierarchy : r'.hierarchy = r.hierarchy := by
    refine hr'.hierarchy.1.ext hr.hierarchy.1 fun e => ?_
    rw [hr'.hierarchy.2, hr.hierarchy.2, edge_congr hmem]
  have hcomposite : r'.composite = r.composite := by
    refine hr'.composite.1.ext hr.composite.1 fun p => ?_
    rw [hr'.composite.2, hr.composite.2, composite_congr hmem]
  have hnonSimple : r'.nonSimple = r.nonSimple := by
    refine hr'.nonSimple.1.ext hr.nonSimple.1 fun p => ?_
    rw [hr'.nonSimple.2, hr.nonSimple.2, nonSimple_iff_edges h', nonSimple_iff_edges h, edge_congr hmem]
    simp only [composite_congr hmem]
  cases r
  cases r'
  simp_all

variable {order : List Bytes → List Bytes}

theorem analyze_cases (h : ∀ ax ∈ axioms, Constructible ax) (htypes : ∀ ax ∈ axioms, ax.constructor ∈ axiomTypes)
    (horder : ∀ l k, k ∈ order l ↔ k ∈ l) :
    (Keyed axioms → ∃ r, analyzeObjectPropertyRoles order axioms = .ok r ∧ r.Describes axioms) ∧
      (¬Keyed axioms → ∃ e, analyzeObjectPropertyRoles order axioms = .error e ∧ ∀ key, e ≠ .keyError key) := by
  have hall : (axioms.all fun ax => ax.constructor ∈ axiomTypes) = true := by
    rw [all_eq_true]
    exact fun ax hax => decide_eq_true (htypes ax hax)
  constructor
  · intro hkeyed
    obtain ⟨state, hread, hstate⟩ : ∃ state, readAxioms axioms = .ok state ∧ Describes state (allOps axioms) :=
      ⟨_, (readAxioms_cases h).1 hkeyed, describes_foldl fun op hop => allOps_sound h hop⟩
    obtain ⟨adjacency, seen, hadjacency, hdrain, hseen⟩ := drain_nonSimple h horder hstate
    have hproperty := fun p hp => isProperty_of_retained h (p := p) hp
    have hrun : analyzeObjectPropertyRoles order axioms = .ok ⟨sortedValues state.properties,
        (KeyedSet.ofList (fun e => toLex e.1) state.edges).map Prod.snd, sortedValues state.composite,
        sortedValues seen⟩ := by
      unfold analyzeObjectPropertyRoles
      simp only [hall, Bool.not_true, Bool.false_eq_true, if_false, hread, hadjacency, hdrain, bind, Except.bind,
        pure, Except.pure]
    refine ⟨_, hrun, ⟨?_, ?_, ?_, ?_⟩⟩
    · exact sortedValues_spec (by simpa only [retain_mem_allOps h] using hstate.properties) hproperty
    · refine sortedEdges_spec (by simpa only [edge_mem_allOps h] using hstate.edges) fun a b hab => ?_
      obtain ⟨ha, hb⟩ := retained_of_edge hab
      exact ⟨hproperty a ha, hproperty b hb⟩
    · exact sortedValues_spec (by simpa only [composite_mem_allOps h] using hstate.composite)
        fun p hp => hproperty p (retained_of_composite hp)
    · exact sortedValues_spec hseen fun p hp => hproperty p (retained_of_nonSimple h hp)
  · intro hkeyed
    obtain ⟨e, he, hkey⟩ := (readAxioms_cases h).2 hkeyed
    refine ⟨e, ?_, hkey⟩
    unfold analyzeObjectPropertyRoles
    simp only [hall, Bool.not_true, Bool.false_eq_true, if_false, he, bind, Except.bind]

/-- The analysis never misses a key and returns whenever the property expressions have bytes: the
closure of the composite properties under the asserted hierarchy, for every order of the axioms. It is
closed under inverses above chains and transitive properties, and altogether if the inverses of the two
built-in properties are in it. -/
theorem roles_closure (horder : ∀ l k, k ∈ order l ↔ k ∈ l) (h : ∀ ax ∈ axioms, Constructible ax)
    (htypes : ∀ ax ∈ axioms, ax.constructor ∈ axiomTypes) :
    (∀ key, analyzeObjectPropertyRoles order axioms ≠ .error (.keyError key)) ∧
    ((∃ r, analyzeObjectPropertyRoles order axioms = .ok r) ↔ Keyed axioms) ∧
    ∀ r, analyzeObjectPropertyRoles order axioms = .ok r → (∀ p, p ∈ r.nonSimple ↔ NonSimple axioms p) ∧
      (∀ axioms' order', (∀ ax, ax ∈ axioms' ↔ ax ∈ axioms) → (∀ l k, k ∈ order' l ↔ k ∈ l) →
        analyzeObjectPropertyRoles order' axioms' = .ok r) ∧
      (∀ q p, ChainOrTransitive axioms q → ReflTransGen (Below axioms) q p → p.inverse ∈ r.nonSimple) ∧
      ((∀ p ∈ r.nonSimple, p.inverse ∈ r.nonSimple) ↔
        topObjectProperty.inverse ∈ r.nonSimple ∧ bottomObjectProperty.inverse ∈ r.nonSimple) := by
  obtain ⟨hok, herror⟩ := analyze_cases h htypes horder
  have hdefined : (∃ r, analyzeObjectPropertyRoles order axioms = .ok r) ↔ Keyed axioms := by
    refine ⟨fun ⟨r, hr⟩ => ?_, fun hkeyed => ?_⟩
    · by_contra hkeyed
      obtain ⟨e, he, -⟩ := herror hkeyed
      rw [hr] at he
      cases he
    · obtain ⟨r, hr, -⟩ := hok hkeyed
      exact ⟨r, hr⟩
  refine ⟨fun key hfail => ?_, hdefined, fun r hr => ?_⟩
  · by_cases hkeyed : Keyed axioms
    · obtain ⟨r, hr, -⟩ := hok hkeyed
      rw [hr] at hfail
      cases hfail
    · obtain ⟨e, he, hkey⟩ := herror hkeyed
      exact hkey key (Except.error.inj (he.symm.trans hfail))
  · have hkeyed := hdefined.mp ⟨r, hr⟩
    obtain ⟨_, hr', hdescribes⟩ := hok hkeyed
    obtain rfl := Except.ok.inj (hr.symm.trans hr')
    have hmem := hdescribes.nonSimple.2
    refine ⟨hmem, fun axioms' order' hsame horder' => ?_, fun q p hq hqp => ?_, ?_⟩
    · have h' : ∀ ax ∈ axioms', Constructible ax := fun ax hax => h ax ((hsame ax).mp hax)
      obtain ⟨r', hrun, hdescribes'⟩ := (analyze_cases h' (fun ax hax => htypes ax ((hsame ax).mp hax)) horder').1
        fun ax hax => hkeyed ax ((hsame ax).mp hax)
      rw [hrun, hdescribes.unique h hsame hdescribes']
    · exact (hmem _).mpr (nonSimple_inverse h hq hqp)
    · simp only [hmem]
      exact inverse_closed_iff h

def partOf : Node := .mk .entity [.enum .objectProperty, .node (.mk .iri [.text "urn:partOf"])]

/-- The result for a transitive property: it and its inverse are non-simple. -/
theorem roles_closure_transitive :
    ∃ r, analyzeObjectPropertyRoles id [.mk .transitiveObjectProperty [.node partOf, .set []]] = .ok r ∧
      partOf ∈ r.nonSimple ∧ partOf.inverse ∈ r.nonSimple := by
  have haxiom : Constructible (.mk .transitiveObjectProperty [.node partOf, .set []]) :=
    constructible_of_rebuilds (by decide +kernel)
  have hok : (analyzeObjectPropertyRoles id [.mk .transitiveObjectProperty [.node partOf, .set []]]).isOk = true := by
    decide +kernel
  obtain ⟨r, hr⟩ := exists_of_isOk hok
  have haxioms : ∀ ax ∈ [Node.mk .transitiveObjectProperty [.node partOf, .set []]], Constructible ax := by
    simpa using haxiom
  have htypes : ∀ ax ∈ [Node.mk .transitiveObjectProperty [.node partOf, .set []]], ax.constructor ∈ axiomTypes := by
    decide
  obtain ⟨-, -, hspec⟩ := roles_closure (fun l k => Iff.rfl) haxioms htypes
  obtain ⟨hmem, -, hinverse, -⟩ := hspec r hr
  have hsource : ChainOrTransitive [.mk .transitiveObjectProperty [.node partOf, .set []]] partOf :=
    ⟨partOf, .inr ⟨_, mem_singleton_self _, rfl⟩, .inl rfl⟩
  exact ⟨r, hr, (hmem _).mpr ⟨partOf, .inr (.inr hsource), .refl⟩, hinverse partOf partOf hsource .refl⟩

/-- Without axioms the two built-in properties are non-simple and their inverses are not. A
property above the universal one is non-simple with neither a chain nor a transitive property. -/
theorem roles_not_inverse_closed :
    ((analyzeObjectPropertyRoles id []).toOption.map RoleAnalysis.nonSimple) =
      some [topObjectProperty, bottomObjectProperty] ∧
    topObjectProperty.inverse ∉ [topObjectProperty, bottomObjectProperty] ∧
    ((analyzeObjectPropertyRoles id [.mk .subObjectPropertyOf [.node topObjectProperty, .node partOf, .set []]]).toOption.map
      RoleAnalysis.nonSimple) = some [partOf, topObjectProperty, bottomObjectProperty] := by
  decide +kernel

end

end OwlCore
