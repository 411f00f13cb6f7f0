import OwlCore.Validation.Roles

/-!
# Simple and composite properties

The calls of the analysis are listed as operations on the dictionaries, for one axiom and then
for all. The list says what the dictionaries hold, and the result is compared with the hierarchy
that the axioms assert.
-/
namespace OwlCore

open Dictionary Fallible List Node Schema

section

structure IsProperty (n : Node) : Prop where
  constructible : Constructible n
  instance_of : isPropertyExpression n

variable {p q : Node}

theorem IsProperty.cases (h : IsProperty p) :
    p.kind? = some .objectProperty ∨
      ∃ k, p = .mk .objectInverseOf [.node k] ∧ Constructible k ∧ k.kind? = some .objectProperty := by
  have hinst := h.instance_of
  simp only [isPropertyExpression, Node.isInstance, objectPropertyExpressionTypes, any_cons, any_nil,
    Bool.or_false, Bool.or_eq_true, Node.hasClass, objectPropertyClass, beq_iff_eq] at hinst
  rcases hinst with hkind | hc
  · exact .inl hkind
  · have hfields := h.constructible.fields_sound (by rw [hc]; rfl)
    rw [hc] at hfields
    cases p with
    | mk c fields =>
      obtain rfl : c = .objectInverseOf := hc
      obtain ⟨v, hv, rfl⟩ : ∃ v, FieldSound _ v ∧ fields = [v] := by
        cases hfields with
        | cons hv hnil =>
          cases hnil
          exact ⟨_, hv, rfl⟩
      obtain ⟨k, rfl, hk⟩ := hv.fits
      refine .inr ⟨k, rfl, h.constructible.child (by simp [Node.children, Value.nodes]), ?_⟩
      simpa [Node.isInstance, Node.hasClass, objectPropertyClass] using hk

theorem inverse_of_kind (h : p.kind? = some .objectProperty) : p.inverse = .mk .objectInverseOf [.node p] := by
  have hc := constructor_of_kind? h
  cases p with
  | mk c fields =>
    obtain rfl : c = .entity := hc
    rfl

theorem isProperty_of_kind (h : Constructible p) (hkind : p.kind? = some .objectProperty) : IsProperty p :=
  ⟨h, by simp [isPropertyExpression, Node.isInstance, objectPropertyExpressionTypes, Node.hasClass,
    objectPropertyClass, hkind]⟩

theorem construct_inverse (hkind : p.kind? = some .objectProperty) :
    construct .objectInverseOf [.node p] = .ok (.mk .objectInverseOf [.node p]) := by
  have hinst : p.isInstance [objectPropertyClass] := by
    simp [Node.isInstance, Node.hasClass, objectPropertyClass, hkind]
  simp [construct, Constructor.ownBody, Constructor.fieldSpecs, checkFields, checkField, field,
    requireNode_node hinst, Functor.map, Except.map, bind, Except.bind, pure, Except.pure]

theorem IsProperty.inverse (h : IsProperty p) : IsProperty p.inverse := by
  rcases h.cases with hkind | ⟨k, rfl, hk, hkind⟩
  · rw [inverse_of_kind hkind]
    refine ⟨.intro (fun a ha m hm => ?_) (construct_inverse hkind), rfl⟩
    obtain rfl := mem_singleton.mp ha
    obtain rfl : m = p := by simpa using hm
    exact h.constructible
  · exact isProperty_of_kind hk hkind

@[simp] theorem IsProperty.inverse_inverse (h : IsProperty p) : p.inverse.inverse = p := by
  rcases h.cases with hkind | ⟨k, rfl, hk, hkind⟩
  · rw [inverse_of_kind hkind]
    rfl
  · exact inverse_of_kind hkind

theorem IsProperty.inverseProperty (h : IsProperty p) : inverseProperty p = .ok p.inverse := by
  have hinst := h.instance_of
  rw [isPropertyExpression] at hinst
  rcases h.cases with hkind | ⟨k, rfl, hk, hkind⟩
  · have hc : p.constructor ≠ .objectInverseOf := by
      rw [constructor_of_kind? hkind]
      nofun
    simp only [OwlCore.inverseProperty, requireNode_node hinst, bind, Except.bind, if_neg hc, construct_inverse hkind,
      inverse_of_kind hkind]
  · simp only [OwlCore.inverseProperty, requireNode_node hinst, bind, Except.bind]
    rfl

theorem IsProperty.bytes_inj (hp : IsProperty p) (hq : IsProperty q) (h : p.bytes = q.bytes) : p = q :=
  hp.constructible.bytes_inj hq.constructible h

end

section

inductive RoleOp where
  | retain (property : Node)
  | edge (sub sup : Node)
  | composite (property : Node)

namespace RoleOp

def nodes : RoleOp → List Node
  | .retain property => [property]
  | .edge sub sup => [sub, sup]
  | .composite property => [property]

def apply (state : RoleState) : RoleOp → RoleState
  | .retain property => { state with properties := assign state.properties property.bytes property }
  | .edge sub sup => { state with edges := assign state.edges (sub.bytes, sup.bytes) (sub, sup) }
  | .composite property => { state with composite := assign state.composite property.bytes property }

def Encodable (ops : List RoleOp) : Prop := ∀ op ∈ ops, ∀ n ∈ op.nodes, n.Encodable defaultLimits

theorem encodable_append :
    Encodable (ops ++ ops') ↔ Encodable ops ∧ Encodable ops' := by
  simp only [Encodable, mem_append, or_imp, forall_and]

end RoleOp

/-- The calls write what is listed, or fail for want of resources. -/
structure Performs (run : RoleState → Except Error RoleState) (ops : List RoleOp) : Prop where
  ok : ∀ state, RoleOp.Encodable ops → run state = .ok (ops.foldl RoleOp.apply state)
  error : ∀ state, ¬RoleOp.Encodable ops → ∃ e, run state = .error e ∧ ∀ key, e ≠ .keyError key

theorem performs_pure : Performs .ok [] :=
  ⟨fun _ _ => rfl, fun _ h => absurd (fun _ hop => absurd hop (by simp)) h⟩

theorem Performs.bind (h : Performs run ops) (h' : Performs run' ops') :
    Performs (fun state => run state >>= run') (ops ++ ops') := by
  constructor
  · intro state hall
    obtain ⟨hops, hops'⟩ := RoleOp.encodable_append.mp hall
    rw [h.ok state hops, foldl_append]
    exact h'.ok _ hops'
  · intro state hnot
    by_cases hops : RoleOp.Encodable ops
    · rw [h.ok state hops]
      exact h'.error _ fun hops' => hnot (RoleOp.encodable_append.mpr ⟨hops, hops'⟩)
    · obtain ⟨e, he, hkey⟩ := h.error state hops
      exact ⟨e, by rw [he]; rfl, hkey⟩

theorem Performs.foldlM {l : List α} (h : ∀ a ∈ l, Performs (fun state => run state a) (ops a)) :
    Performs (fun state => l.foldlM run state) (l.flatMap ops) := by
  induction l with
  | nil => exact performs_pure
  | cons a l ih =>
    obtain ⟨ha, hl⟩ := forall_mem_cons.mp h
    simp only [foldlM_cons]
    exact ha.bind (ih hl)

theorem canonicalBytes_cases (n : Node) :
    (n.Encodable defaultLimits ∧ canonicalBytes defaultLimits n = .ok n.bytes) ∨
      (¬n.Encodable defaultLimits ∧ ∃ e, canonicalBytes defaultLimits n = .error e ∧ ∀ key, e ≠ .keyError key) := by
  by_cases hn : n.Encodable defaultLimits
  · exact .inl ⟨hn, canonicalBytes_ok_iff.mpr ⟨hn, rfl⟩⟩
  · refine .inr ⟨hn, ?_⟩
    cases hrun : canonicalBytes defaultLimits n with
    | ok encoded => exact absurd (canonicalBytes_ok_iff.mp hrun).1 hn
    | error e =>
      refine ⟨e, rfl, fun key => ?_⟩
      rcases canonicalBytes_error hrun with ⟨_, _, _, rfl⟩ | rfl
      · nofun
      · nofun

theorem performs_keyed (hnodes : op.nodes = [n]) {write : Bytes → RoleState → RoleState} (hrun : ∀ state, run state =
    canonicalBytes defaultLimits n >>= fun key => .ok (write key state)) (hwrite : ∀ state, write n.bytes state =
    op.apply state) : Performs run [op] := by
  have hall : RoleOp.Encodable [op] ↔ n.Encodable defaultLimits := by simp [RoleOp.Encodable, hnodes]
  rcases canonicalBytes_cases n with ⟨hn, hkey⟩ | ⟨hn, e, hkey, hne⟩
  · refine ⟨fun state _ => ?_, fun _ hnot => absurd (hall.mpr hn) hnot⟩
    rw [hrun, hkey]
    exact congrArg Except.ok (hwrite state)
  · refine ⟨fun _ h => absurd (hall.mp h) hn, fun state _ => ⟨e, ?_, hne⟩⟩
    rw [hrun, hkey]
    rfl

theorem performs_addProperty (n : Node) : Performs (fun state => state.addProperty n) [.retain n] :=
  performs_keyed rfl (fun _ => rfl) fun _ => rfl

theorem performs_addComposite (n : Node) : Performs (fun state => state.addComposite n) [.composite n] :=
  performs_keyed rfl (fun _ => rfl) fun _ => rfl

theorem performs_addEdge (sub sup : Node) : Performs (fun state => state.addEdge sub sup) [.edge sub sup] := by
  have hall : RoleOp.Encodable [.edge sub sup] ↔ sub.Encodable defaultLimits ∧ sup.Encodable defaultLimits := by
    simp [RoleOp.Encodable, RoleOp.nodes]
  rcases canonicalBytes_cases sub with ⟨hsub, hrun⟩ | ⟨hsub, e, hrun, hkey⟩
  · rcases canonicalBytes_cases sup with ⟨hsup, hrun'⟩ | ⟨hsup, e, hrun', hkey⟩
    · exact ⟨fun state _ => by
        simp [RoleState.addEdge, hrun, hrun', bind, Except.bind, pure, Except.pure, RoleOp.apply],
        fun _ hnot => absurd (hall.mpr ⟨hsub, hsup⟩) hnot⟩
    · exact ⟨fun _ h => absurd (hall.mp h).2 hsup,
        fun state _ => ⟨e, by simp [RoleState.addEdge, hrun, hrun', bind, Except.bind], hkey⟩⟩
  · exact ⟨fun _ h => absurd (hall.mp h).1 hsub,
      fun state _ => ⟨e, by simp [RoleState.addEdge, hrun, bind, Except.bind], hkey⟩⟩

def retainOps (p : Node) : List RoleOp := [.retain p] ++ [.retain p.inverse]

def edgeOps (sub sup : Node) : List RoleOp :=
  retainOps sub ++ (retainOps sup ++ ([.edge sub sup] ++ [.edge sub.inverse sup.inverse]))

variable {p sub sup : Node}

theorem performs_retain (hp : IsProperty p) : Performs (fun state => state.retain p) (retainOps p) := by
  unfold RoleState.retain
  simp only [hp.inverseProperty]
  exact (performs_addProperty p).bind (performs_addProperty p.inverse)

theorem performs_edge (hsub : IsProperty sub) (hsup : IsProperty sup) :
    Performs (fun state => state.edge sub sup) (edgeOps sub sup) := by
  unfold RoleState.edge
  simp only [hsub.inverseProperty, hsup.inverseProperty]
  exact (performs_retain hsub).bind ((performs_retain hsup).bind
    ((performs_addEdge sub sup).bind (performs_addEdge sub.inverse sup.inverse)))

def roleAxiomOps : RoleAxiom → List RoleOp
  | .sub sub sup => edgeOps sub sup
  | .chain sup => [.composite sup] ++ [.composite sup.inverse]
  | .equivalent [] => []
  | .equivalent (first :: rest) => rest.flatMap fun second => edgeOps first second ++ edgeOps second first
  | .inverse first second => edgeOps first second.inverse ++ edgeOps second first.inverse
  | .symmetric property => edgeOps property property.inverse
  | .transitive property => retainOps property ++ ([.composite property] ++ [.composite property.inverse])
  | .other => []

/-- The expressions an axiom relates can be built, and an equivalence has a first one. -/
def RoleAxiom.Sound : RoleAxiom → Prop
  | .sub sub sup => IsProperty sub ∧ IsProperty sup
  | .chain sup => IsProperty sup
  | .equivalent properties => properties ≠ [] ∧ ∀ p ∈ properties, IsProperty p
  | .inverse first second => IsProperty first ∧ IsProperty second
  | .symmetric property => IsProperty property
  | .transitive property => IsProperty property
  | .other => True

theorem performs_readRoleAxiom {role : RoleAxiom} (h : role.Sound) :
    Performs (fun state => readRoleAxiom state role) (roleAxiomOps role) := by
  cases role with
  | sub sub sup => exact performs_edge h.1 h.2
  | chain sup =>
    simp only [readRoleAxiom, IsProperty.inverseProperty h]
    exact (performs_addComposite sup).bind (performs_addComposite sup.inverse)
  | equivalent properties =>
    cases properties with
    | nil => exact absurd rfl h.1
    | cons first rest =>
      refine Performs.foldlM fun second hsecond => ?_
      have hfirst := h.2 first mem_cons_self
      have hsecond := h.2 second (mem_cons_of_mem first hsecond)
      exact (performs_edge hfirst hsecond).bind (performs_edge hsecond hfirst)
  | inverse first second =>
    simp only [readRoleAxiom, h.1.inverseProperty, h.2.inverseProperty]
    exact (performs_edge h.1 h.2.inverse).bind (performs_edge h.2 h.1.inverse)
  | symmetric property =>
    simp only [readRoleAxiom, IsProperty.inverseProperty h]
    exact performs_edge h (IsProperty.inverse h)
  | transitive property =>
    simp only [readRoleAxiom, IsProperty.inverseProperty h]
    exact (performs_retain h).bind ((performs_addComposite property).bind (performs_addComposite property.inverse))
  | other => exact performs_pure

end

section

variable {m n : Node}

theorem Node.mem_walk : m ∈ n.walk ↔ m = n ∨ ∃ k ∈ n.children, m ∈ k.walk := by
  have hwalk : n.walk = n :: (n.fields.map (Value.map Node.walk)).flatMap fun v => v.nodes.flatten := para_eq _ n
  rw [hwalk, mem_cons]
  refine or_congr_right ?_
  simp only [mem_flatMap, mem_map, mem_flatten, mem_children]
  constructor
  · rintro ⟨_, ⟨v, hv, rfl⟩, l, hl, hm⟩
    rw [Value.nodes_map, mem_map] at hl
    obtain ⟨k, hk, rfl⟩ := hl
    exact ⟨k, ⟨v, hv, hk⟩, hm⟩
  · rintro ⟨k, ⟨v, hv, hk⟩, hm⟩
    exact ⟨_, ⟨v, hv, rfl⟩, k.walk, by rw [Value.nodes_map]; exact mem_map_of_mem hk, hm⟩

theorem Node.mem_walk_child (h : m ∈ n.children) : m ∈ n.walk :=
  mem_walk.mpr (.inr ⟨m, h, mem_walk.mpr (.inl rfl)⟩)

theorem Constructible.of_mem_walk (h : Constructible n) (hm : m ∈ n.walk) : Constructible m := by
  induction n using Node.induct with
  | step n ih =>
    rcases mem_walk.mp hm with rfl | ⟨k, hk, hm⟩
    · exact h
    · exact ih k hk (h.child hk) hm

variable {ax : Node}

/-- The fields of an inverse axiom are two property expressions and the annotations. -/
theorem Constructible.inverse_fields (h : Constructible ax) (hc : ax.constructor = .inverseObjectProperties) :
    ∃ first second rest, ax.fields = .node first :: .node second :: rest ∧
      isPropertyExpression first ∧ isPropertyExpression second := by
  obtain ⟨args, call, -⟩ := h.call
  rw [hc] at call
  rcases args with _ | ⟨a, _ | ⟨b, _ | ⟨annotations, _ | ⟨_, _⟩⟩⟩⟩
  · cases call
  · cases call
  · cases call
  · obtain ⟨p, hp, call⟩ := bind_eq_ok.mp call
    obtain ⟨q, hq, call⟩ := bind_eq_ok.mp call
    obtain ⟨swapped, -, call⟩ := bind_eq_ok.mp call
    obtain ⟨members, -, call⟩ := bind_eq_ok.mp call
    have hpinst := (requireNode_ok hp).2
    have hqinst := (requireNode_ok hq).2
    cases swapped with
    | true =>
      obtain rfl := Except.ok.inj call
      exact ⟨q, p, _, rfl, hqinst, hpinst⟩
    | false =>
      obtain rfl := Except.ok.inj call
      exact ⟨p, q, _, rfl, hpinst, hqinst⟩
  · cases call

theorem FieldSound.isInstance (h : FieldSound spec (.node n)) (hcheck : spec.check = .node expected) : n.isInstance expected := by
  have hfits := h.fits
  simp only [FieldFits, hcheck] at hfits
  obtain ⟨m, hm, hinst⟩ := hfits
  exact Value.node.inj hm ▸ hinst

theorem FieldSound.members {minimum : Nat} {flatten : Option Constructor} (h : FieldSound spec (.set ms)) (hcheck :
    spec.check = .canonicalSet expected minimum flatten) :
    (∀ m ∈ ms, m.isInstance expected) ∧ minimum ≤ ms.length := by
  have hfits := h.fits
  simp only [FieldFits, hcheck] at hfits
  obtain ⟨members, hmembers, hinst⟩ := hfits
  obtain rfl := Value.set.inj hmembers
  exact ⟨fun m hm => (hinst m hm).1, h.minimum _ _ _ hcheck⟩

theorem isPropertyExpression_of_sub (h : sub.isInstance subObjectPropertyExpressionTypes) (hchain : sub.constructor ≠
    .objectPropertyChain) : isPropertyExpression sub := by
  simp only [subObjectPropertyExpressionTypes, Node.isInstance, any_cons, any_nil, Bool.or_false,
    Bool.or_eq_true, Node.hasClass, beq_iff_eq] at h
  simp only [isPropertyExpression, objectPropertyExpressionTypes, Node.isInstance, any_cons, any_nil,
    Bool.or_false, Bool.or_eq_true, Node.hasClass, beq_iff_eq]
  tauto

theorem roleAxiom_sound (h : Constructible ax) : (roleAxiom ax).Sound := by
  have hprop : ∀ m ∈ ax.children, isPropertyExpression m → IsProperty m := fun m hm hinst => ⟨h.child hm, hinst⟩
  unfold roleAxiom
  split
  · rename_i sub sup rest
    have hfields := h.fields_sound rfl
    cases hfields with
    | cons hsub hfields =>
      cases hfields with
      | cons hsup hrest =>
        have hsupProperty : IsProperty sup := hprop sup (by simp [Node.children, Value.nodes]) (hsup.isInstance rfl)
        split
        · exact hsupProperty
        · rename_i hchain
          exact ⟨hprop sub (by simp [Node.children, Value.nodes])
            (isPropertyExpression_of_sub (hsub.isInstance rfl) hchain), hsupProperty⟩
  · rename_i properties rest
    have hfields := h.fields_sound rfl
    cases hfields with
    | cons hset hrest =>
      obtain ⟨hinst, hlength⟩ := hset.members rfl
      refine ⟨?_, fun p hp => hprop p (by simp [Node.children, Value.nodes, hp]) (hinst p hp)⟩
      rintro rfl
      simp at hlength
  · rename_i first second rest
    obtain ⟨a, b, rest', hfields, ha, hb⟩ := h.inverse_fields rfl
    obtain ⟨rfl, rfl, -⟩ : first = a ∧ second = b ∧ rest = rest' := by simpa using hfields
    exact ⟨hprop first (by simp [Node.children, Value.nodes]) ha,
      hprop second (by simp [Node.children, Value.nodes]) hb⟩
  · rename_i property rest
    have hfields := h.fields_sound rfl
    cases hfields with
    | cons hproperty hrest => exact hprop property (by simp [Node.children, Value.nodes]) (hproperty.isInstance rfl)
  · rename_i property rest
    have hfields := h.fields_sound rfl
    cases hfields with
    | cons hproperty hrest => exact hprop property (by simp [Node.children, Value.nodes]) (hproperty.isInstance rfl)
  · trivial

/-- The expressions that an axiom relates are among its fields. -/
def RoleAxiom.nodes : RoleAxiom → List Node
  | .sub first second | .inverse first second => [first, second]
  | .chain property | .symmetric property | .transitive property => [property]
  | .equivalent properties => properties
  | .other => []

theorem mem_children_of_roleAxiom (h : m ∈ (roleAxiom ax).nodes) : m ∈ ax.children := by
  unfold roleAxiom at h
  split at h
  · split at h
    · obtain rfl := mem_singleton.mp h
      simp [Node.children, Value.nodes]
    · rename_i first second _ _
      have hm : m = first ∨ m = second := by simpa [RoleAxiom.nodes] using h
      rcases hm with rfl | rfl <;> simp [Node.children, Value.nodes]
  · simp only [RoleAxiom.nodes] at h
    simp [Node.children, Value.nodes, h]
  · rename_i first second _
    have hm : m = first ∨ m = second := by simpa [RoleAxiom.nodes] using h
    rcases hm with rfl | rfl <;> simp [Node.children, Value.nodes]
  · obtain rfl := mem_singleton.mp h
    simp [Node.children, Value.nodes]
  · obtain rfl := mem_singleton.mp h
    simp [Node.children, Value.nodes]
  · cases h

def mentioned (ax : Node) : List Node := ax.walk.filter isPropertyExpression

theorem isProperty_of_mentioned (h : Constructible ax) (hp : p ∈ mentioned ax) : IsProperty p := by
  obtain ⟨hwalk, hinst⟩ := mem_filter.mp hp
  exact ⟨h.of_mem_walk hwalk, hinst⟩

def axiomOps (ax : Node) : List RoleOp := (mentioned ax).flatMap retainOps ++ roleAxiomOps (roleAxiom ax)

theorem performs_readAxiom (h : Constructible ax) : Performs (fun state => readAxiom state ax) (axiomOps ax) :=
  (Performs.foldlM fun _ hp => performs_retain (isProperty_of_mentioned h hp)).bind
    (performs_readRoleAxiom (roleAxiom_sound h))

end

section

namespace RoleOp

def Sound (op : RoleOp) : Prop := ∀ n ∈ op.nodes, IsProperty n

end RoleOp

/-- The dictionaries hold what was written, under the bytes of the values. -/
structure Describes (state : RoleState) (ops : List RoleOp) : Prop where
  properties : ∀ e, e ∈ state.properties ↔ ∃ p, .retain p ∈ ops ∧ e = (p.bytes, p)
  edges : ∀ e, e ∈ state.edges ↔ ∃ a b, .edge a b ∈ ops ∧ e = ((a.bytes, b.bytes), (a, b))
  composite : ∀ e, e ∈ state.composite ↔ ∃ p, .composite p ∈ ops ∧ e = (p.bytes, p)
  nodup : (keys state.properties).Nodup

theorem describes_empty : Describes .empty [] :=
  ⟨by simp [RoleState.empty], by simp [RoleState.empty], by simp [RoleState.empty], nodup_nil⟩

theorem Describes.apply (h : Describes state ops) (hops : ∀ op ∈ ops, op.Sound) (hop : op.Sound) :
    Describes (op.apply state) (ops ++ [op]) := by
  cases op with
  | retain p =>
    have hsame : ∀ v, (p.bytes, v) ∈ state.properties → v = p := by
      intro v hv
      obtain ⟨q, hq, heq⟩ := (h.properties _).mp hv
      obtain ⟨hbytes, rfl⟩ := Prod.mk.inj heq
      exact (hops _ hq v (by simp [RoleOp.nodes])).bytes_inj (hop p (by simp [RoleOp.nodes])) hbytes.symm
    refine ⟨fun e => ?_, fun e => ?_, fun e => ?_, nodup_assign h.nodup⟩
    · simp only [RoleOp.apply, mem_assign hsame, h.properties, mem_append, mem_singleton,
        RoleOp.retain.injEq, or_and_right, exists_or, exists_eq_left]
    · simpa [RoleOp.apply] using h.edges e
    · simpa [RoleOp.apply] using h.composite e
  | edge a b =>
    have hsame : ∀ v, ((a.bytes, b.bytes), v) ∈ state.edges → v = (a, b) := by
      intro v hv
      obtain ⟨a', b', hab, heq⟩ := (h.edges _).mp hv
      obtain ⟨hkey, rfl⟩ := Prod.mk.inj heq
      obtain ⟨ha, hb⟩ := Prod.mk.inj hkey
      rw [(hops _ hab a' (by simp [RoleOp.nodes])).bytes_inj (hop a (by simp [RoleOp.nodes])) ha.symm,
        (hops _ hab b' (by simp [RoleOp.nodes])).bytes_inj (hop b (by simp [RoleOp.nodes])) hb.symm]
    refine ⟨fun e => ?_, fun e => ?_, fun e => ?_, h.nodup⟩
    · simpa [RoleOp.apply] using h.properties e
    · simp only [RoleOp.apply, mem_assign hsame, h.edges, mem_append, mem_singleton]
      constructor
      · rintro (⟨a', b', hab, rfl⟩ | rfl)
        · exact ⟨a', b', .inl hab, rfl⟩
        · exact ⟨a, b, .inr rfl, rfl⟩
      · rintro ⟨a', b', hab | hab, rfl⟩
        · exact .inl ⟨a', b', hab, rfl⟩
        · obtain ⟨rfl, rfl⟩ := RoleOp.edge.inj hab
          exact .inr rfl
    · simpa [RoleOp.apply] using h.composite e
  | composite p =>
    have hsame : ∀ v, (p.bytes, v) ∈ state.composite → v = p := by
      intro v hv
      obtain ⟨q, hq, heq⟩ := (h.composite _).mp hv
      obtain ⟨hbytes, rfl⟩ := Prod.mk.inj heq
      exact (hops _ hq v (by simp [RoleOp.nodes])).bytes_inj (hop p (by simp [RoleOp.nodes])) hbytes.symm
    refine ⟨fun e => ?_, fun e => ?_, fun e => ?_, h.nodup⟩
    · simpa [RoleOp.apply] using h.properties e
    · simpa [RoleOp.apply] using h.edges e
    · simp only [RoleOp.apply, mem_assign hsame, h.composite, mem_append, mem_singleton,
        RoleOp.composite.injEq, or_and_right, exists_or, exists_eq_left]

theorem describes_foldl (hops : ∀ op ∈ ops, op.Sound) :
    Describes (ops.foldl RoleOp.apply .empty) ops := by
  induction ops using List.reverseRecOn with
  | nil => exact describes_empty
  | append_singleton ops op ih =>
    rw [foldl_append]
    have hold : ∀ op' ∈ ops, op'.Sound := fun op' hop' => hops op' (mem_append_left _ hop')
    exact (ih hold).apply hold (hops op (by simp))

variable {axioms : List Node}

def loopOps (axioms : List Node) : List RoleOp :=
  [.composite topObjectProperty] ++ ([.composite bottomObjectProperty] ++ axioms.flatMap axiomOps)

/-- The writes of the whole reading: the composite properties are retained at the end. -/
def allOps (axioms : List Node) : List RoleOp :=
  loopOps axioms ++ (((loopOps axioms).foldl RoleOp.apply .empty).composite.map Prod.snd).flatMap retainOps

theorem isProperty_top : IsProperty topObjectProperty :=
  isProperty_of_kind (constructible_of_rebuilds (by decide +kernel)) rfl

theorem isProperty_bottom : IsProperty bottomObjectProperty :=
  isProperty_of_kind (constructible_of_rebuilds (by decide +kernel)) rfl

end

end OwlCore
