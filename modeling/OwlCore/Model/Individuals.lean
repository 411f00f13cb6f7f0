import OwlCore.Lib.Sha256
import OwlCore.Model.Normal

/-!
# Anonymous individuals inside values

The anonymous individuals of a value and the renaming of all of them. Renaming rebuilds every
canonical set, so it is a functor only up to the order of set members, and keeping individuals
apart keeps values apart.
-/
namespace OwlCore

open Function KeyedSet List

def Scope : Type := {scope : Bytes // scope.length = 32}

instance : DecidableEq Scope := inferInstanceAs (DecidableEq {scope : Bytes // scope.length = 32})

def Hash.scope (hash : Hash) (message : Bytes) : Scope := ⟨hash.digest message, hash.length_digest message⟩

/-- The fields of an `AnonymousIndividual`, checked as its class checks them. -/
structure AnonymousIndividual where
  documentScope : Scope
  localKey : Bytes
  localKey_ne : localKey ≠ []
  deriving DecidableEq

def AnonymousIndividual.node (a : AnonymousIndividual) : Node :=
  .mk .anonymousIndividual [.bytes a.documentScope.val, .bytes a.localKey]

/-- A component with its set built anew from its members. -/
def Value.rebuild : Value Node → Value Node
  | .set members => .set (KeyedSet.ofList Node.bytes members)
  | v => v

namespace Node

section

variable {β : Type} (row : Node → List (Value β) → β)

/-- The bottom-up recursion in which `row` also sees the value itself. -/
def para (n : Node) : β :=
  (fold (fun c (fields : List (Value (Node × β))) =>
    let n := mk c (fields.map (Value.map Prod.fst))
    (n, row n (fields.map (Value.map Prod.snd)))) n).2

theorem para_eq (n : Node) : para row n = row n (n.fields.map (Value.map (para row))) := by
  have hfst : ∀ n, (fold (fun c (fields : List (Value (Node × β))) =>
      let n := mk c (fields.map (Value.map Prod.fst))
      (n, row n (fields.map (Value.map Prod.snd)))) n).1 = n := by
    intro n
    induction n using Node.induct with
    | step n ih =>
      cases n with
      | mk c fields =>
        simp only [fold_mk, List.map_map, Node.mk.injEq, true_and]
        conv_rhs => rw [← map_id fields]
        apply map_congr_left
        intro v hv
        simp only [comp_apply, Value.map_map, id_eq]
        exact Value.map_eq_self fun m hm => ih m (mem_children.mpr ⟨v, hv, hm⟩)
  cases n with
  | mk c fields =>
    have hfields : (fields.map (Value.map (fold fun c (fields : List (Value (Node × β))) =>
        let n := mk c (fields.map (Value.map Prod.fst))
        (n, row n (fields.map (Value.map Prod.snd)))))).map (Value.map Prod.fst) = fields := by
      have := hfst (mk c fields)
      simpa only [fold_mk, Node.mk.injEq, true_and] using this
    simp only [para, fold_mk, hfields]
    simp only [List.map_map, fields_mk]
    congr 1
    apply map_congr_left
    intro v _
    simp only [comp_apply, Value.map_map]
    rfl

end

def anonymous? : Node → Option AnonymousIndividual
  | .mk .anonymousIndividual [.bytes scope, .bytes key] =>
    if h : scope.length = 32 ∧ key ≠ [] then some ⟨⟨scope, h.1⟩, key, h.2⟩ else none
  | _ => none

@[simp] theorem anonymous?_node (a : AnonymousIndividual) : a.node.anonymous? = some a := by
  obtain ⟨⟨scope, hscope⟩, key, hkey⟩ := a
  simp [AnonymousIndividual.node, anonymous?, hscope, hkey]

theorem anonymous?_eq_some {n : Node} {a : AnonymousIndividual} :
    n.anonymous? = some a ↔ n = a.node := by
  constructor
  · intro h
    unfold anonymous? at h
    split at h
    · split at h
      · obtain rfl := Option.some.inj h
        rfl
      · cases h
    · cases h
  · rintro rfl
    exact anonymous?_node a

@[simp] theorem children_node (a : AnonymousIndividual) : a.node.children = [] := rfl

/-- `_anonymous_values`: the anonymous individuals of a value, in iteration order. -/
def anonymousValues : Node → List AnonymousIndividual :=
  para fun n fields => match n.anonymous? with
    | some a => [a]
    | none => fields.flatMap fun v => v.nodes.flatten

/-- The value with every anonymous individual replaced by its image. -/
def mapAnonymous (f : AnonymousIndividual → AnonymousIndividual) : Node → Node :=
  para fun n fields => match n.anonymous? with
    | some a => (f a).node
    | none => mk n.constructor (fields.map Value.rebuild)

section

variable {f g : AnonymousIndividual → AnonymousIndividual} {n m : Node}

theorem mapAnonymous_node (a : AnonymousIndividual) : mapAnonymous f a.node = (f a).node := by
  simp [mapAnonymous, para_eq]

theorem mapAnonymous_of_none (h : n.anonymous? = none) :
    mapAnonymous f n = mk n.constructor (n.fields.map fun v => (v.map (mapAnonymous f)).rebuild) := by
  rw [mapAnonymous, para_eq, h]
  simp only [List.map_map, comp_def]

@[simp] theorem constructor_mapAnonymous : (mapAnonymous f n).constructor = n.constructor := by
  cases h : n.anonymous? with
  | none => rw [mapAnonymous_of_none h, constructor_mk]
  | some a =>
    obtain rfl := anonymous?_eq_some.mp h
    rw [mapAnonymous_node]
    rfl

theorem fields_mapAnonymous (h : n.anonymous? = none) :
    (mapAnonymous f n).fields = n.fields.map fun v => (v.map (mapAnonymous f)).rebuild := by
  rw [mapAnonymous_of_none h, fields_mk]

variable {a : AnonymousIndividual}

theorem mem_anonymousValues :
    a ∈ n.anonymousValues ↔ n = a.node ∨ ∃ m ∈ n.children, a ∈ m.anonymousValues := by
  rw [anonymousValues, para_eq]
  cases h : n.anonymous? with
  | some b =>
    obtain rfl := anonymous?_eq_some.mp h
    have hnode : b.node = a.node ↔ a = b := by
      rw [← anonymous?_eq_some, anonymous?_node, Option.some.injEq, eq_comm]
    simp [hnode]
  | none =>
    have hne : n ≠ a.node := by
      rintro rfl
      simp at h
    simp only [hne, false_or, mem_children, mem_flatMap, mem_map, mem_flatten]
    constructor
    · rintro ⟨w, ⟨v, hv, rfl⟩, l, hl, ha⟩
      rw [Value.nodes_map, mem_map] at hl
      obtain ⟨m, hm, rfl⟩ := hl
      exact ⟨m, ⟨v, hv, hm⟩, ha⟩
    · rintro ⟨m, ⟨v, hv, hm⟩, ha⟩
      exact ⟨_, ⟨v, hv, rfl⟩, _, by rw [Value.nodes_map]; exact mem_map_of_mem hm, ha⟩

theorem anonymousValues_child (hm : m ∈ n.children) (ha : a ∈ m.anonymousValues) : a ∈ n.anonymousValues :=
  mem_anonymousValues.mpr (.inr ⟨m, hm, ha⟩)

theorem mapAnonymous_congr (h : ∀ a ∈ n.anonymousValues, f a = g a) :
    mapAnonymous f n = mapAnonymous g n := by
  induction n using Node.induct with
  | step n ih =>
    cases hn : n.anonymous? with
    | some a =>
      obtain rfl := anonymous?_eq_some.mp hn
      rw [mapAnonymous_node, mapAnonymous_node, h a (mem_anonymousValues.mpr (.inl rfl))]
    | none =>
      rw [mapAnonymous_of_none hn, mapAnonymous_of_none hn]
      congr 1
      apply map_congr_left
      intro v hv
      congr 1
      apply Value.map_congr
      intro m hm
      have hchild := mem_children.mpr ⟨v, hv, hm⟩
      exact ih m hchild fun a ha => h a (anonymousValues_child hchild ha)

theorem mapAnonymous_eq_self (hn : n.Canonical) (h : ∀ a ∈ n.anonymousValues, f a = a) :
    mapAnonymous f n = n := by
  induction n using Node.induct with
  | step n ih =>
    cases hnone : n.anonymous? with
    | some a =>
      obtain rfl := anonymous?_eq_some.mp hnone
      rw [mapAnonymous_node, h a (mem_anonymousValues.mpr (.inl rfl))]
    | none =>
      apply ext_fields constructor_mapAnonymous
      rw [fields_mapAnonymous hnone]
      conv_rhs => rw [← map_id n.fields]
      apply map_congr_left
      intro v hv
      have hself : v.map (mapAnonymous f) = v := Value.map_eq_self fun m hm => by
        have hchild := mem_children.mpr ⟨v, hv, hm⟩
        exact ih m hchild (hn.child hchild) fun a ha => h a (anonymousValues_child hchild ha)
      rw [hself]
      cases v with
      | set ms => exact congrArg Value.set (ofList_eq_self (hn.here.2 ms hv))
      | _ => rfl

theorem canonical_mapAnonymous (hn : n.Canonical) : (mapAnonymous f n).Canonical := by
  induction n using Node.induct with
  | step n ih =>
    cases hnone : n.anonymous? with
    | some a =>
      obtain rfl := anonymous?_eq_some.mp hnone
      rw [mapAnonymous_node]
      exact .intro ⟨rfl, by simp [AnonymousIndividual.node]⟩ (by simp)
    | none =>
      rw [mapAnonymous_of_none hnone]
      refine .intro ⟨?_, ?_⟩ ?_
      · simpa using hn.here.1
      · intro ms hms
        obtain ⟨v, -, hv⟩ := mem_map.mp hms
        cases v <;> simp only [Value.map, Value.rebuild, Value.set.injEq, reduceCtorEq] at hv
        rw [← hv]
        exact ascending_ofList _
      · intro m hm
        obtain ⟨w, hw, hmw⟩ := mem_children.mp hm
        obtain ⟨v, hv, rfl⟩ := mem_map.mp hw
        have himage : m ∈ (v.map (mapAnonymous f)).nodes := by
          cases v with
          | set ms => exact mem_of_mem_ofList hmw
          | _ => exact hmw
        rw [Value.nodes_map, mem_map] at himage
        obtain ⟨k, hk, rfl⟩ := himage
        have hchild := mem_children.mpr ⟨v, hv, hk⟩
        exact ih k hchild (hn.child hchild)

theorem keyInjOn_canonical (h : ∀ n, s n → n.Canonical) :
    KeyInjOn Node.bytes s := fun _ _ ha hb => Node.bytes_injOn (h _ ha) (h _ hb)

theorem mem_rebuild {v : Value Node} (hv : ∀ k ∈ v.nodes, k.Canonical) :
    m ∈ v.rebuild.nodes ↔ m ∈ v.nodes := by
  cases v with
  | set ms => exact mem_ofList (keyInjOn_canonical hv) m
  | _ => rfl

theorem mem_children_mapAnonymous (hn : n.Canonical) (hnone : n.anonymous? = none) :
    m ∈ (mapAnonymous f n).children ↔ ∃ k ∈ n.children, m = mapAnonymous f k := by
  have hfield : ∀ v ∈ n.fields, m ∈ (v.map (mapAnonymous f)).rebuild.nodes ↔ ∃ k ∈ v.nodes, m = mapAnonymous f k := by
    intro v hv
    rw [mem_rebuild, Value.nodes_map, mem_map]
    · simp only [eq_comm]
    · intro k hk
      rw [Value.nodes_map, mem_map] at hk
      obtain ⟨j, hj, rfl⟩ := hk
      exact canonical_mapAnonymous (hn.child (mem_children.mpr ⟨v, hv, hj⟩))
  rw [mem_children, fields_mapAnonymous hnone]
  constructor
  · rintro ⟨w, hw, hm⟩
    obtain ⟨v, hv, rfl⟩ := mem_map.mp hw
    obtain ⟨k, hk, rfl⟩ := (hfield v hv).mp hm
    exact ⟨k, mem_children.mpr ⟨v, hv, hk⟩, rfl⟩
  · rintro ⟨k, hk, hm⟩
    obtain ⟨v, hv, hkv⟩ := mem_children.mp hk
    exact ⟨_, mem_map_of_mem hv, (hfield v hv).mpr ⟨k, hkv, hm⟩⟩

theorem rebuild_map_eq_bytes {h : Node → Node} {v : Value Node} {octets : Bytes} :
    (v.map h).rebuild = .bytes octets ↔ v = .bytes octets := by
  cases v <;> simp [Value.map, Value.rebuild]

theorem anonymous?_mapAnonymous (hn : n.anonymous? = none) : (mapAnonymous f n).anonymous? = none := by
  rw [Option.eq_none_iff_forall_ne_some]
  intro a ha
  have himage := anonymous?_eq_some.mp ha
  rw [mapAnonymous_of_none hn, AnonymousIndividual.node, Node.mk.injEq] at himage
  obtain ⟨hc, hfields⟩ := himage
  rw [map_eq_cons_iff] at hfields
  obtain ⟨v, rest, hv, hscope, hrest⟩ := hfields
  rw [map_eq_cons_iff] at hrest
  obtain ⟨w, last, hw, hkey, hlast⟩ := hrest
  rw [map_eq_nil_iff] at hlast
  rw [rebuild_map_eq_bytes] at hscope hkey
  have : n = a.node := ext_fields hc (by rw [hv, hw, hlast, hscope, hkey]; rfl)
  rw [this, anonymous?_node] at hn
  cases hn

theorem mem_anonymousValues_mapAnonymous (hn : n.Canonical) :
    a ∈ (mapAnonymous f n).anonymousValues ↔ ∃ b ∈ n.anonymousValues, f b = a := by
  induction n using Node.induct with
  | step n ih =>
    cases hnone : n.anonymous? with
    | some b =>
      obtain rfl := anonymous?_eq_some.mp hnone
      have hvalues : ∀ b : AnonymousIndividual, b.node.anonymousValues = [b] := by
        intro b
        simp [anonymousValues, para_eq]
      simp [mapAnonymous_node, hvalues, eq_comm]
    | none =>
      have hne : ∀ b : AnonymousIndividual, n ≠ b.node := by
        rintro b rfl
        simp at hnone
      have hne' : mapAnonymous f n ≠ a.node := by
        intro h
        have := anonymous?_mapAnonymous (f := f) hnone
        simp [h] at this
      rw [mem_anonymousValues]
      simp only [hne', false_or, mem_children_mapAnonymous hn hnone]
      constructor
      · rintro ⟨_, ⟨k, hk, rfl⟩, ha⟩
        obtain ⟨b, hb, rfl⟩ := (ih k hk (hn.child hk)).mp ha
        exact ⟨b, anonymousValues_child hk hb, rfl⟩
      · rintro ⟨b, hb, rfl⟩
        rcases mem_anonymousValues.mp hb with h | ⟨k, hk, hbk⟩
        · exact absurd h (hne b)
        · exact ⟨_, ⟨k, hk, rfl⟩, (ih k hk (hn.child hk)).mpr ⟨b, hbk, rfl⟩⟩

theorem mapAnonymous_mapAnonymous (hn : n.Canonical) :
    mapAnonymous g (mapAnonymous f n) = mapAnonymous (fun a => g (f a)) n := by
  induction n using Node.induct with
  | step n ih =>
    cases hnone : n.anonymous? with
    | some a =>
      obtain rfl := anonymous?_eq_some.mp hnone
      simp only [mapAnonymous_node]
    | none =>
      rw [mapAnonymous_of_none (anonymous?_mapAnonymous hnone), mapAnonymous_of_none hnone, mapAnonymous_of_none hnone]
      simp only [constructor_mk, fields_mk, List.map_map, Node.mk.injEq, true_and]
      apply map_congr_left
      intro v hv
      have hnested : ∀ k ∈ v.nodes, k.Canonical ∧
          mapAnonymous g (mapAnonymous f k) = mapAnonymous (fun a => g (f a)) k := by
        intro k hk
        have hchild := mem_children.mpr ⟨v, hv, hk⟩
        exact ⟨hn.child hchild, ih k hchild (hn.child hchild)⟩
      simp only [comp_apply]
      cases v with
      | set ms =>
        simp only [Value.map, Value.rebuild, Value.nodes_set, Value.set.injEq] at hnested ⊢
        have hkeys : ∀ h : AnonymousIndividual → AnonymousIndividual, ∀ k ∈ ms.map (mapAnonymous h), k.Canonical := by
          intro h k hk
          obtain ⟨j, hj, rfl⟩ := mem_map.mp hk
          exact canonical_mapAnonymous (hnested j hj).1
        apply ofList_congr
        · apply keyInjOn_canonical
          rintro k (hk | hk)
          · obtain ⟨j, hj, rfl⟩ := mem_map.mp hk
            exact canonical_mapAnonymous (hkeys f j (mem_of_mem_ofList hj))
          · exact hkeys _ k hk
        · intro k
          simp only [mem_map, mem_ofList (keyInjOn_canonical (hkeys f))]
          constructor
          · rintro ⟨_, ⟨j, hj, rfl⟩, rfl⟩
            exact ⟨j, hj, (hnested j hj).2.symm⟩
          · rintro ⟨j, hj, rfl⟩
            exact ⟨_, ⟨j, hj, rfl⟩, (hnested j hj).2⟩
      | node k => simpa [Value.map, Value.rebuild] using (hnested k (by simp)).2
      | sequence ms => simpa [Value.map, Value.rebuild] using fun k hk => (hnested k hk).2
      | _ => rfl

/-- A renaming that keeps some individuals apart can be undone on the values over them. -/
theorem exists_mapAnonymous_back (hinj : Set.InjOn f s) :
    ∃ back, (∀ a ∈ s, back (f a) = a) ∧ ∀ k : Node, k.Canonical → (∀ a ∈ k.anonymousValues, a ∈ s) →
      mapAnonymous back (mapAnonymous f k) = k := by
  classical
  let back : AnonymousIndividual → AnonymousIndividual := fun b =>
    if hb : ∃ a ∈ s, f a = b then hb.choose else b
  have hback : ∀ a ∈ s, back (f a) = a := by
    intro a ha
    have hex : ∃ a' ∈ s, f a' = f a := ⟨a, ha, rfl⟩
    simp only [back, dif_pos hex]
    exact hinj hex.choose_spec.1 ha hex.choose_spec.2
  refine ⟨back, hback, fun k hk hvalues => ?_⟩
  rw [mapAnonymous_mapAnonymous hk]
  exact mapAnonymous_eq_self hk fun a ha => hback a (hvalues a ha)

/-- A renaming that keeps the individuals of two values apart keeps the values apart. -/
theorem mapAnonymous_injOn (hn : n.Canonical) (hm : m.Canonical)
    (hinj : Set.InjOn f {a | a ∈ n.anonymousValues ∨ a ∈ m.anonymousValues})
    (h : mapAnonymous f n = mapAnonymous f m) : n = m := by
  obtain ⟨back, -, hreturn⟩ := exists_mapAnonymous_back hinj
  rw [← hreturn n hn fun a ha => .inl ha, ← hreturn m hm fun a ha => .inr ha, h]

theorem injOn_child (hinj : Set.InjOn f {a | a ∈ n.anonymousValues}) (hm : m ∈ n.children) :
    Set.InjOn f {a | a ∈ m.anonymousValues} :=
  hinj.mono fun _ ha => anonymousValues_child hm ha

/-- A renaming that keeps the individuals of a value apart keeps the nested values apart. -/
theorem mapAnonymous_injOn_children (hn : n.Canonical) (hinj : Set.InjOn f {a | a ∈ n.anonymousValues}) :
    Set.InjOn (mapAnonymous f) {m | m ∈ n.children} := by
  intro k hk j hj h
  refine mapAnonymous_injOn (hn.child hk) (hn.child hj) (hinj.mono ?_) h
  rintro a (ha | ha)
  · exact anonymousValues_child hk ha
  · exact anonymousValues_child hj ha

theorem ofList_image_perm (hn : n.Canonical) (hinj : Set.InjOn f {a | a ∈ n.anonymousValues}) (hms : .set ms ∈
    n.fields) :
    (KeyedSet.ofList Node.bytes (ms.map (mapAnonymous f))).Perm (ms.map (mapAnonymous f)) := by
  have hchild : ∀ m ∈ ms, m ∈ n.children := fun m hm => mem_children.mpr ⟨_, hms, hm⟩
  apply ofList_perm
  · apply keyInjOn_canonical
    intro k hk
    obtain ⟨m, hm, rfl⟩ := mem_map.mp hk
    exact canonical_mapAnonymous (hn.child (hchild m hm))
  · refine List.Nodup.map_on (fun a ha b hb h => ?_) (hn.here.ascending ms hms).nodup
    exact mapAnonymous_injOn_children hn hinj (hchild a ha) (hchild b hb) h

end

end Node

end OwlCore
