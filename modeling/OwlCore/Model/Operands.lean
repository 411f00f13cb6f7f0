import OwlCore.Model.Replace

/-!
# Canonical sets and nested operands

The result of `canonical_set` depends only on which values are in its argument. Intersections
and unions splice nested values of their own class, so a value built by any nesting of calls is
determined by the leaves.
-/
namespace OwlCore

open Fallible KeyedSet List

section

/-- `CanonicalSet.__contains__`. The members have bytes, since the set was built from them. -/
def setContains (items : List Node) : Arg → Except Error Bool
  | .node value => do
    let target ← canonicalBytes defaultLimits value
    pure (KeyedSet.contains Node.bytes items target)
  | _ => .ok false

/-- What one value of the argument contributes to the set. -/
def spliced (flatten : Option Constructor) (n : Node) : List Node :=
  if flatten = some n.constructor then
    match n.fields with
    | .set nested :: _ => nested
    | _ => []
  else [n]

def HasNested (flatten : Option Constructor) (n : Node) : Prop :=
  flatten = some n.constructor → ∃ nested rest, n.fields = .set nested :: rest

theorem spliced_of_ne {flatten : Option Constructor} {n : Node} (h : flatten ≠ some n.constructor) :
    spliced flatten n = [n] := if_neg h

@[simp] theorem spliced_set (c : Constructor) (nested : List Node) (rest : List (Value Node)) :
    spliced (some c) (.mk c (.set nested :: rest)) = nested := if_pos rfl

theorem mem_spliced {flatten : Option Constructor} {m n : Node} (h : m ∈ spliced flatten n) :
    m = n ∨ m ∈ n.children := by
  unfold spliced at h
  split at h
  · split at h
    · rename_i nested rest hfields
      exact .inr (Node.mem_children.mpr ⟨.set nested, by simp [hfields], h⟩)
    · cases h
  · exact .inl (mem_singleton.mp h)

theorem Constructible.spliced {flatten : Option Constructor} {m n : Node} (h : Constructible n)
    (hm : m ∈ spliced flatten n) : Constructible m := by
  rcases mem_spliced hm with rfl | hm
  · exact h
  · exact h.child hm

variable {expected : List NodeClass} {path : String} {minimum : Nat} {flatten : Option Constructor}

theorem expand_node_iff (n : Node) (l : List Node) : expand expected path flatten (.node n) = .ok l ↔
    (n.isInstance expected ∧ HasNested flatten n) ∧ l = spliced flatten n := by
  constructor
  · intro h
    obtain ⟨k, hk, hinst, hcases⟩ := expand_ok h
    obtain rfl := Arg.node.inj hk
    rcases hcases with ⟨hne, rfl⟩ | ⟨heq, rest, hfields⟩
    · exact ⟨⟨hinst, fun heq => absurd heq hne⟩, (spliced_of_ne hne).symm⟩
    · refine ⟨⟨hinst, fun _ => ⟨l, rest, hfields⟩⟩, ?_⟩
      rw [spliced, if_pos heq, hfields]
  · rintro ⟨⟨hinst, hnested⟩, rfl⟩
    by_cases heq : flatten = some n.constructor
    · obtain ⟨nested, rest, hfields⟩ := hnested heq
      simp [expand, spliced, hinst, heq, hfields]
    · rw [spliced_of_ne heq]
      exact expand_node hinst heq

/-- What `canonical_set` accepts, and the set it makes of it. -/
theorem canonicalSet_ok_iff {l s : List Node} :
    canonicalSet (l.map .node) expected path minimum flatten = .ok s ↔
      (∀ n ∈ l, n.isInstance expected ∧ HasNested flatten n) ∧
      (∀ m ∈ l.flatMap (spliced flatten), m.Encodable defaultLimits) ∧
      s = KeyedSet.ofList Node.bytes (l.flatMap (spliced flatten)) ∧ minimum ≤ s.length := by
  have hloop : ∀ expanded, (l.map Arg.node).mapM (expand expected path flatten) = .ok expanded ↔
      (∀ n ∈ l, n.isInstance expected ∧ HasNested flatten n) ∧ expanded = l.map (spliced flatten) := by
    intro expanded
    rw [mapM_map]
    exact mapM_eq_ok_iff expand_node_iff
  simp only [canonicalSet, bind_eq_ok, hloop, canonicalSetOf_ok_iff, guard_eq_ok, pure, Except.pure,
    Except.ok.injEq, flatMap_def]
  constructor
  · rintro ⟨_, ⟨hinst, rfl⟩, _, ⟨hencodable, rfl⟩, hmin, rfl⟩
    exact ⟨hinst, hencodable, rfl, not_lt.mp hmin⟩
  · rintro ⟨hinst, hencodable, rfl, hmin⟩
    exact ⟨_, ⟨hinst, rfl⟩, _, ⟨hencodable, rfl⟩, not_lt.mpr hmin, rfl⟩

variable {l l' s : List Node}

section

variable (hl : ∀ n ∈ l, Constructible n)

include hl

theorem mem_flatMap_spliced (hm : m ∈ l.flatMap (spliced flatten)) :
    Constructible m := by
  obtain ⟨n, hn, hm⟩ := mem_flatMap.mp hm
  exact (hl n hn).spliced hm

theorem mem_canonicalSet (h : canonicalSet (l.map .node) expected path minimum flatten = .ok s) (m : Node) :
    m ∈ s ↔ ∃ n ∈ l, m ∈ spliced flatten n := by
  obtain ⟨-, -, rfl, -⟩ := canonicalSet_ok_iff.mp h
  rw [mem_ofList (Node.keyInjOn_canonical fun m hm => (mem_flatMap_spliced hl hm).canonical), mem_flatMap]

theorem canonicalSet_congr (hmem : ∀ n, n ∈ l' ↔ n ∈ l)
    (h : canonicalSet (l.map .node) expected path minimum flatten = .ok s) :
    canonicalSet (l'.map .node) expected path minimum flatten = .ok s := by
  obtain ⟨hinst, hencodable, rfl, hmin⟩ := canonicalSet_ok_iff.mp h
  have hmem' : ∀ m, m ∈ l.flatMap (spliced flatten) ↔ m ∈ l'.flatMap (spliced flatten) := by
    simp [mem_flatMap, hmem]
  have heq : KeyedSet.ofList Node.bytes (l.flatMap (spliced flatten)) =
      KeyedSet.ofList Node.bytes (l'.flatMap (spliced flatten)) := by
    refine ofList_congr (Node.keyInjOn_canonical fun m hm => ?_) hmem'
    rw [← hmem', or_self] at hm
    exact (mem_flatMap_spliced hl hm).canonical
  exact canonicalSet_ok_iff.mpr ⟨fun n hn => hinst n ((hmem n).mp hn),
    fun m hm => hencodable m ((hmem' m).mpr hm), heq, hmin⟩

/-- The binary search finds the members, and fails only for a value without bytes. -/
theorem setContains_iff (h : canonicalSet (l.map .node) expected path minimum flatten = .ok s) {x : Node} (hx : Constructible x) :
    (setContains s (.node x) = .ok true ↔ ∃ n ∈ l, x ∈ spliced flatten n) ∧
      (x.Encodable defaultLimits → ∃ found, setContains s (.node x) = .ok found) := by
  have hmem := mem_canonicalSet hl h
  obtain ⟨hinst, hencodable, hs, hmin⟩ := canonicalSet_ok_iff.mp h
  have hascending : Ascending Node.bytes s := hs ▸ ascending_ofList _
  have hrun : ∀ found, setContains s (.node x) = .ok found ↔
      x.Encodable defaultLimits ∧ KeyedSet.contains Node.bytes s x.bytes = found := by
    intro found
    simp only [setContains, bind_eq_ok, canonicalBytes_ok_iff, pure, Except.pure, Except.ok.injEq]
    constructor
    · rintro ⟨_, ⟨hx, rfl⟩, hfound⟩
      exact ⟨hx, hfound⟩
    · rintro ⟨hx, hfound⟩
      exact ⟨_, ⟨hx, rfl⟩, hfound⟩
  refine ⟨?_, fun hencodes => ⟨_, (hrun _).mpr ⟨hencodes, rfl⟩⟩⟩
  rw [hrun, KeyedSet.contains_iff hascending, ← hmem]
  constructor
  · rintro ⟨-, m, hm, hbytes⟩
    obtain ⟨n, hn, hspliced⟩ := (hmem m).mp hm
    exact ((hl n hn).spliced hspliced).bytes_inj hx hbytes ▸ hm
  · intro hm
    refine ⟨hencodable x ?_, x, hm, rfl⟩
    exact mem_flatMap.mpr ((hmem x).mp hm)

end

end

section

def operandTypes : Constructor → Option (List NodeClass)
  | .objectIntersectionOf | .objectUnionOf => some Schema.classExpressionTypes
  | .dataIntersectionOf | .dataUnionOf => some Schema.dataRangeTypes
  | _ => none

/-- The value that some nesting of calls of `c` builds from the leaves. -/
inductive Built (c : Constructor) : List Node → Node → Prop where
  | leaf {n : Node} (h : Constructible n) : Built c [n] n
  | call {parts : List (List Node × Node)} {n : Node} (nested : ∀ part ∈ parts, Built c part.1 part.2)
      (call : construct c [.tuple ((parts.map Prod.snd).map .node)] = .ok n) : Built c (parts.flatMap Prod.fst) n

variable {c : Constructor} {expected : List NodeClass}

theorem fieldSpecs_operands (hc : operandTypes c = some expected) :
    c.ownBody = false ∧ c.fieldSpecs = Schema.flattened c expected := by
  cases c <;> simp only [operandTypes, Option.some.injEq, reduceCtorEq] at hc <;> subst hc <;> exact ⟨rfl, rfl⟩

def operandsPath (c : Constructor) : String := c.name ++ "." ++ "operands"

variable {n : Node}

section

variable (hc : operandTypes c = some expected)

include hc

theorem construct_operands_iff :
    construct c args = .ok n ↔ ∃ a items s, args = [a] ∧ iterable a = .ok items ∧
      canonicalSet items expected (operandsPath c) 2 (some c) = .ok s ∧ n = .mk c [.set s] := by
  obtain ⟨hbody, hspecs⟩ := fieldSpecs_operands hc
  have hfield : ∀ a v, checkField (Schema.field c "operands" (.canonicalSet expected 2 (some c))) a = .ok v ↔
      ∃ items s, iterable a = .ok items ∧ canonicalSet items expected (operandsPath c) 2 (some c) = .ok s ∧
        v = .set s := by
    intro a v
    simp only [checkField, Schema.field, bind_eq_ok, map_eq_ok, operandsPath]
    constructor
    · rintro ⟨items, hitems, s, hs, rfl⟩
      exact ⟨items, s, hitems, hs, rfl⟩
    · rintro ⟨items, s, hitems, hs, rfl⟩
      exact ⟨items, hitems, s, hs, rfl⟩
  rw [Constructor.construct_eq hbody, hspecs, map_eq_ok, Schema.flattened]
  constructor
  · rintro ⟨fields, hfields, rfl⟩
    rcases args with _ | ⟨a, _ | ⟨b, rest⟩⟩
    · cases hfields
    · obtain ⟨v, hv, hfields⟩ := bind_eq_ok.mp hfields
      obtain ⟨items, s, hitems, hs, rfl⟩ := (hfield a v).mp hv
      obtain rfl := Except.ok.inj hfields
      exact ⟨a, items, s, rfl, hitems, hs, rfl⟩
    · obtain ⟨v, hv, hfields⟩ := bind_eq_ok.mp hfields
      cases hfields
  · rintro ⟨a, items, s, rfl, hitems, hs, rfl⟩
    refine ⟨[.set s], bind_eq_ok.mpr ⟨.set s, (hfield a _).mpr ⟨items, s, hitems, hs, rfl⟩, rfl⟩, rfl⟩

theorem construct_tuple_iff {l : List Node} :
    construct c [.tuple (l.map .node)] = .ok n ↔
      ∃ s, canonicalSet (l.map .node) expected (operandsPath c) 2 (some c) = .ok s ∧ n = .mk c [.set s] := by
  rw [construct_operands_iff hc]
  constructor
  · rintro ⟨a, items, s, ha, hitems, hs, rfl⟩
    obtain rfl : .tuple (l.map .node) = a := by simpa using ha
    obtain rfl := Except.ok.inj hitems
    exact ⟨s, hs, rfl⟩
  · rintro ⟨s, hs, rfl⟩
    exact ⟨_, _, s, rfl, rfl, hs, rfl⟩

theorem Constructible.exists_operands (h : Constructible n)
    (hn : n.constructor = c) :
    ∃ s, n = .mk c [.set s] ∧ Ascending Node.bytes s ∧ 2 ≤ s.length := by
  obtain ⟨args, call, -⟩ := h.call
  rw [hn] at call
  obtain ⟨a, items, s, -, -, hs, rfl⟩ := (construct_operands_iff hc).mp call
  refine ⟨s, rfl, h.sound.shape.ascending s (by simp), ?_⟩
  obtain ⟨_, _, hs⟩ := bind_eq_ok.mp hs
  obtain ⟨_, _, hs⟩ := bind_eq_ok.mp hs
  obtain ⟨hmin, hs⟩ := guard_eq_ok.mp hs
  obtain rfl := Except.ok.inj hs
  exact not_lt.mp hmin

theorem ascending_spliced (h : Constructible n) :
    Ascending Node.bytes (spliced (some c) n) := by
  by_cases hn : n.constructor = c
  · obtain ⟨s, rfl, hascending, -⟩ := h.exists_operands hc hn
    simpa using hascending
  · rw [spliced_of_ne fun heq => hn (Option.some.inj heq).symm]
    exact pairwise_singleton _ _

/-- The operands determine the value: one of the class has two of them, any other one is its own. -/
theorem eq_of_spliced_eq (hv : Constructible v) (hw : Constructible w) (h :
    spliced (some c) v = spliced (some c) w) : v = w := by
  by_cases hvc : v.constructor = c
  · obtain ⟨s, rfl, -, hs⟩ := hv.exists_operands hc hvc
    by_cases hwc : w.constructor = c
    · obtain ⟨s', rfl, -, -⟩ := hw.exists_operands hc hwc
      rw [spliced_set, spliced_set] at h
      rw [h]
    · rw [spliced_set, spliced_of_ne fun heq => hwc (Option.some.inj heq).symm] at h
      simp [h] at hs
  · rw [spliced_of_ne fun heq => hvc (Option.some.inj heq).symm] at h
    by_cases hwc : w.constructor = c
    · obtain ⟨s', rfl, -, hs⟩ := hw.exists_operands hc hwc
      rw [spliced_set] at h
      simp [← h] at hs
    · rw [spliced_of_ne fun heq => hwc (Option.some.inj heq).symm] at h
      exact singleton_inj.mp h

end

variable {leaves : List Node}

theorem Built.constructible (h : Built c leaves n) : Constructible n := by
  induction h with
  | leaf h => exact h
  | call nested call ih =>
    refine .intro (fun a ha m hm => ?_) call
    obtain rfl := mem_singleton.mp ha
    obtain ⟨k, hk, heq⟩ := mem_map.mp (Arg.mem_nodes_tuple.mp hm)
    obtain ⟨part, hpart, rfl⟩ := mem_map.mp hk
    obtain rfl := Arg.node.inj heq
    exact ih part hpart

section

variable (hc : operandTypes c = some expected)

include hc

/-- The operands of a built value are those of its leaves, whatever the nesting. -/
theorem Built.mem_spliced (h : Built c leaves n) (m : Node) : m ∈ OwlCore.spliced (some c) n ↔ ∃ k ∈ leaves, m ∈ OwlCore.spliced (some c) k := by
  induction h with
  | leaf h => simp
  | @call parts n nested call ih =>
    obtain ⟨s, hs, rfl⟩ := (construct_tuple_iff hc).mp call
    have hparts : ∀ k ∈ parts.map Prod.snd, Constructible k := by
      intro k hk
      obtain ⟨part, hpart, rfl⟩ := mem_map.mp hk
      exact (nested part hpart).constructible
    rw [spliced_set, mem_canonicalSet hparts hs]
    constructor
    · rintro ⟨k, hk, hm⟩
      obtain ⟨part, hpart, rfl⟩ := mem_map.mp hk
      obtain ⟨leaf, hleaf, hm⟩ := (ih part hpart).mp hm
      exact ⟨leaf, mem_flatMap.mpr ⟨part, hpart, hleaf⟩, hm⟩
    · rintro ⟨leaf, hleaf, hm⟩
      obtain ⟨part, hpart, hleaf⟩ := mem_flatMap.mp hleaf
      exact ⟨part.2, mem_map_of_mem hpart, (ih part hpart).mpr ⟨leaf, hleaf, hm⟩⟩

theorem Built.eq_of_leaves (hv : Built c leaves v) (hw : Built c leaves' w)
    (hleaves : ∀ n, n ∈ leaves ↔ n ∈ leaves') : v = w := by
  refine eq_of_spliced_eq hc hv.constructible hw.constructible ?_
  refine (ascending_spliced hc hv.constructible).ext (ascending_spliced hc hw.constructible) fun m => ?_
  rw [hv.mem_spliced hc, hw.mem_spliced hc]
  exact exists_congr fun n => and_congr_left' (hleaves n)

theorem Constructible.operand_ne (h : Constructible n) (hn : n.constructor = c)
    (hm : m ∈ n.children) : m.constructor ≠ c := by
  have hspec : Schema.field c "operands" (.canonicalSet expected 2 (some c)) ∈ n.constructor.fieldSpecs := by
    rw [hn, (fieldSpecs_operands hc).2]
    exact mem_singleton_self _
  subst hn
  exact (h.sound.operands _ hspec expected 2 rfl m hm).2

end

theorem two_le_length_iff {l : List Node} (h : l.Nodup) : 2 ≤ l.length ↔ ∃ a ∈ l, ∃ b ∈ l, a ≠ b := by
  rcases l with _ | ⟨a, _ | ⟨b, l⟩⟩
  · simp
  · simp
  · have hab : a ≠ b := fun heq => (nodup_cons.mp h).1 (by simp [heq])
    refine ⟨fun _ => ⟨a, by simp, b, by simp, hab⟩, fun _ => by simp⟩

/-- A call on built operands goes through when they are of the expected classes and the leaves have
bytes and two different operands among them. -/
theorem construct_parts_iff (hc : operandTypes c = some expected) {parts : List (List Node × Node)}
    (hparts : ∀ part ∈ parts, Built c part.1 part.2) :
    (∃ n, construct c [.tuple ((parts.map Prod.snd).map .node)] = .ok n) ↔
      (∀ part ∈ parts, part.2.isInstance expected) ∧
      (∀ m ∈ (parts.flatMap Prod.fst).flatMap (spliced (some c)), m.Encodable defaultLimits) ∧
      ∃ a ∈ (parts.flatMap Prod.fst).flatMap (spliced (some c)),
        ∃ b ∈ (parts.flatMap Prod.fst).flatMap (spliced (some c)), a ≠ b := by
  have hvalues : ∀ k ∈ parts.map Prod.snd, Constructible k := by
    intro k hk
    obtain ⟨part, hpart, rfl⟩ := mem_map.mp hk
    exact (hparts part hpart).constructible
  have hmem : ∀ m, m ∈ (parts.map Prod.snd).flatMap (spliced (some c)) ↔
      m ∈ (parts.flatMap Prod.fst).flatMap (spliced (some c)) := by
    intro m
    simp only [mem_flatMap, mem_map]
    constructor
    · rintro ⟨_, ⟨part, hpart, rfl⟩, hm⟩
      obtain ⟨leaf, hleaf, hm⟩ := ((hparts part hpart).mem_spliced hc m).mp hm
      exact ⟨leaf, ⟨part, hpart, hleaf⟩, hm⟩
    · rintro ⟨leaf, ⟨part, hpart, hleaf⟩, hm⟩
      exact ⟨part.2, ⟨part, hpart, rfl⟩, ((hparts part hpart).mem_spliced hc m).mpr ⟨leaf, hleaf, hm⟩⟩
  have hnested : ∀ part ∈ parts, HasNested (some c) part.2 := by
    intro part hpart heq
    obtain ⟨s, hs, -⟩ := (hparts part hpart).constructible.exists_operands hc (Option.some.inj heq).symm
    exact ⟨s, [], by rw [hs]; rfl⟩
  have hreadout : ∀ m, m ∈ KeyedSet.ofList Node.bytes ((parts.map Prod.snd).flatMap (spliced (some c))) ↔
      m ∈ (parts.flatMap Prod.fst).flatMap (spliced (some c)) := by
    intro m
    rw [mem_ofList (Node.keyInjOn_canonical fun m hm => (mem_flatMap_spliced hvalues hm).canonical), hmem]
  simp only [construct_tuple_iff hc, canonicalSet_ok_iff]
  constructor
  · rintro ⟨_, s, ⟨hinst, hencodable, rfl, hlength⟩, rfl⟩
    refine ⟨fun part hpart => (hinst part.2 (mem_map_of_mem hpart)).1, fun m hm => hencodable m ((hmem m).mpr hm), ?_⟩
    obtain ⟨a, ha, b, hb, hab⟩ := (two_le_length_iff (ascending_ofList _).nodup).mp hlength
    exact ⟨a, (hreadout a).mp ha, b, (hreadout b).mp hb, hab⟩
  · rintro ⟨hinst, hencodable, a, ha, b, hb, hab⟩
    refine ⟨_, _, ⟨?_, fun m hm => hencodable m ((hmem m).mp hm), rfl, ?_⟩, rfl⟩
    · intro k hk
      obtain ⟨part, hpart, rfl⟩ := mem_map.mp hk
      exact ⟨hinst part hpart, hnested part hpart⟩
    · exact (two_le_length_iff (ascending_ofList _).nodup).mpr
        ⟨a, (hreadout a).mpr ha, b, (hreadout b).mpr hb, hab⟩

end

/-- Canonical sets are normal forms of lists, and intersections and unions are normal forms of
the nestings that build them; a call builds when it sees two different operands. -/
theorem canonical_normal_form :
    (∀ expected path minimum flatten, ∀ l s : List Node, (∀ n ∈ l, Constructible n) →
      canonicalSet (l.map .node) expected path minimum flatten = .ok s → Ascending Node.bytes s ∧
        (∀ l' : List Node, (∀ n, n ∈ l' ↔ n ∈ l) → canonicalSet (l'.map .node) expected path minimum flatten = .ok s) ∧
        ∀ x, Constructible x → (setContains s (.node x) = .ok true ↔ ∃ n ∈ l, x ∈ spliced flatten n) ∧
          (x.Encodable defaultLimits → ∃ found, setContains s (.node x) = .ok found)) ∧
    ∀ c expected, operandTypes c = some expected →
      (∀ leaves leaves' v w, Built c leaves v → Built c leaves' w → (∀ n, n ∈ leaves ↔ n ∈ leaves') →
        v = w ∧ (v.constructor = c → ∀ m ∈ v.children, m.constructor ≠ c)) ∧
      ∀ parts : List (List Node × Node), (∀ part ∈ parts, Built c part.1 part.2) →
        ((∃ n, construct c [.tuple ((parts.map Prod.snd).map .node)] = .ok n) ↔
          (∀ part ∈ parts, part.2.isInstance expected) ∧
          (∀ m ∈ (parts.flatMap Prod.fst).flatMap (spliced (some c)), m.Encodable defaultLimits) ∧
          ∃ a ∈ (parts.flatMap Prod.fst).flatMap (spliced (some c)),
            ∃ b ∈ (parts.flatMap Prod.fst).flatMap (spliced (some c)), a ≠ b) := by
  refine ⟨fun expected path minimum flatten l s hl h => ⟨?_, fun l' hmem => canonicalSet_congr hl hmem h,
    fun x hx => setContains_iff hl h hx⟩, fun c expected hc => ⟨fun leaves leaves' v w hv hw hleaves =>
      ⟨hv.eq_of_leaves hc hw hleaves, fun hvc m hm => hv.constructible.operand_ne hc hvc hm⟩,
    fun parts hparts => construct_parts_iff hc hparts⟩⟩
  obtain ⟨-, -, rfl, -⟩ := canonicalSet_ok_iff.mp h
  exact ascending_ofList _

def classA : Node := .mk .entity [.enum .class, .node (.mk .iri [.text "urn:A"])]

def classB : Node := .mk .entity [.enum .class, .node (.mk .iri [.text "urn:B"])]

/-- A class is found in the set of two classes, and their intersection is the same value for
the operands `(B, A, A)` and `(A, B)`. -/
theorem canonical_normal_form_classes :
    setContains [classA, classB] (.node classA) = .ok true ∧
    construct .objectIntersectionOf [.tuple [.node classB, .node classA, .node classA]] =
      construct .objectIntersectionOf [.tuple [.node classA, .node classB]] := by
  have hA : Constructible classA := constructible_of_rebuilds (by decide +kernel)
  have hB : Constructible classB := constructible_of_rebuilds (by decide +kernel)
  have hset : canonicalSet ([classB, classA].map .node) [Schema.classClass] "" 0 none = .ok [classA, classB] := by
    decide +kernel
  have hl : ∀ n ∈ [classB, classA], Constructible n := by simp [hA, hB]
  have hleaf : ∀ l : List Node, (∀ n ∈ l, Constructible n) →
      ∀ part ∈ l.map fun n => ([n], n), Built .objectIntersectionOf part.1 part.2 := by
    intro l hl part hpart
    obtain ⟨n, hn, rfl⟩ := mem_map.mp hpart
    exact .leaf (hl n hn)
  have hfirst : construct .objectIntersectionOf [.tuple [.node classB, .node classA, .node classA]] =
      .ok (.mk .objectIntersectionOf [.set [classA, classB]]) := by decide +kernel
  have hsecond : construct .objectIntersectionOf [.tuple [.node classA, .node classB]] =
      .ok (.mk .objectIntersectionOf [.set [classA, classB]]) := by decide +kernel
  refine ⟨((canonical_normal_form.1 _ _ _ _ _ _ hl hset).2.2 classA hA).1.mpr ⟨classA, by simp, by simp [spliced]⟩, ?_⟩
  have hv := Built.call (hleaf [classB, classA, classA] (by simp [hA, hB])) hfirst
  have hw := Built.call (hleaf [classA, classB] (by simp [hA, hB])) hsecond
  rw [hfirst, hsecond, ((canonical_normal_form.2 _ _ rfl).1 _ _ _ _ hv hw (by simp [or_comm])).1]

/-- The same three leaves in another nesting build nothing: the inner call sees one operand. -/
theorem nested_intersection_rejected :
    construct .objectIntersectionOf [.tuple [.node classA, .node classA, .node classB]] =
      .ok (.mk .objectIntersectionOf [.set [classA, classB]]) ∧
    construct .objectIntersectionOf [.tuple [.node classA, .node classA]] = .error (.structuralConstraint
        "ObjectIntersectionOf.operands requires at least 2 distinct value(s); got 1") := by
  decide +kernel

end OwlCore
