import OwlCore.Model.Construct

/-!
# Constructed values are normal forms

One soundness statement per check leads to `Constructible.sound`: a class called
on the fields of a constructible value returns that value again, and the values
nested in a constructible value are constructible.
-/
namespace OwlCore

open KeyedSet List Node

section

open Fallible

theorem keyed_ok_iff (n : Node) (entry : Bytes × Node) :
    keyed n = .ok entry ↔ n.Encodable defaultLimits ∧ entry = (n.bytes, n) := by
  rw [keyed, bind_eq_ok]
  simp only [canonicalBytes_ok_iff, pure, Except.pure, Except.ok.injEq]
  constructor
  · rintro ⟨_, ⟨h, rfl⟩, rfl⟩
    exact ⟨h, rfl⟩
  · rintro ⟨h, rfl⟩
    exact ⟨n.bytes, ⟨h, rfl⟩, rfl⟩

/-- `CanonicalSet` fails only on members that have no canonical bytes. -/
theorem canonicalSetOf_ok_iff :
    canonicalSetOf values = .ok result ↔
      (∀ n ∈ values, n.Encodable defaultLimits) ∧ result = KeyedSet.ofList Node.bytes values := by
  have hreadout : (KeyedSet.ofList Prod.fst (values.map fun n => (n.bytes, n))).map Prod.snd =
      KeyedSet.ofList Node.bytes values := by
    rw [ofList_map, List.map_map]
    exact map_id _
  rw [canonicalSetOf, bind_eq_ok]
  simp only [mapM_eq_ok_iff keyed_ok_iff, pure, Except.pure, Except.ok.injEq]
  constructor
  · rintro ⟨_, ⟨h, rfl⟩, rfl⟩
    exact ⟨h, hreadout⟩
  · rintro ⟨h, rfl⟩
    exact ⟨_, ⟨h, rfl⟩, hreadout⟩

variable {expected : List NodeClass} {path : String} {flatten : Option Constructor}

theorem expand_ok (h : expand expected path flatten value = .ok l) :
    ∃ n, value = .node n ∧ n.isInstance expected ∧ (flatten ≠ some n.constructor ∧ l = [n] ∨
        flatten = some n.constructor ∧ ∃ rest, n.fields = .set l :: rest) := by
  cases value with
  | node n =>
    refine ⟨n, rfl, ?_⟩
    simp only [expand] at h
    split at h
    · rename_i hinst
      refine ⟨hinst, ?_⟩
      split at h
      · rename_i hflat
        split at h
        · rename_i nested rest hfields
          obtain rfl := Except.ok.inj h
          exact .inr ⟨hflat, rest, hfields⟩
        · cases h
      · exact .inl ⟨‹_›, (Except.ok.inj h).symm⟩
    · cases h
  | _ => simp [expand] at h

variable {n : Node}

theorem expand_node (hinst : n.isInstance expected) (hflat : flatten ≠ some n.constructor) :
    expand expected path flatten (.node n) = .ok [n] := by
  simp [expand, hinst, hflat]

/-- What `canonical_set` guarantees of its result. -/
structure SetSound (expected : List NodeClass) (minimum : Nat) (flatten : Option Constructor)
    (members : List Node) : Prop where
  instances : ∀ n ∈ members, n.isInstance expected
  spliced : ∀ n ∈ members, flatten ≠ some n.constructor
  encodable : ∀ n ∈ members, n.Encodable defaultLimits
  ascending : Ascending Node.bytes members
  minimum : minimum ≤ members.length

variable {members : List Node}

/-- On instances that need no splice `canonical_set` is `CanonicalSet` and the size check. -/
theorem canonicalSet_map
    (hinst : ∀ n ∈ members, n.isInstance expected) (hspliced : ∀ n ∈ members, flatten ≠ some n.constructor)
    (path : String) (minimum : Nat) :
    canonicalSet (members.map .node) expected path minimum flatten = (canonicalSetOf members >>= fun result =>
        if result.length < minimum then
          .error (.structuralConstraint (path ++ " requires at least " ++ toString minimum ++
            " distinct value(s); got " ++ toString result.length))
        else .ok result) := by
  have hloop : (members.map Arg.node).mapM (expand expected path flatten) = .ok (members.map fun n => [n]) := by
    rw [mapM_eq_ok, forall₂_map_left_iff, forall₂_map_right_iff, forall₂_same]
    exact fun n hn => expand_node (hinst n hn) (hspliced n hn)
  have hflat : (members.map fun n => [n]).flatten = members := by
    rw [← flatMap_def, flatMap_singleton']
  rw [canonicalSet, hloop]
  simp only [bind, Except.bind, hflat, pure, Except.pure]

variable {minimum : Nat}

theorem SetSound.stable (h : SetSound expected minimum flatten members) (path : String) :
    canonicalSet (members.map .node) expected path minimum flatten = .ok members := by
  have hset : canonicalSetOf members = .ok members :=
    canonicalSetOf_ok_iff.mpr ⟨h.encodable, (ofList_eq_self h.ascending).symm⟩
  have hmin : ¬members.length < minimum := not_lt.mpr h.minimum
  rw [canonicalSet_map h.instances h.spliced, hset]
  simp only [bind, Except.bind, if_neg hmin]

/-- On an ascending list `canonical_set` returns that list, if it returns. -/
theorem canonicalSet_eq_self (hinst : ∀ n ∈ members, n.isInstance expected) (hspliced : ∀ n ∈ members, flatten ≠ some
    n.constructor) (hascending : Ascending Node.bytes members) (h : canonicalSet (members.map .node) expected path
    minimum flatten = .ok result) :
    result = members := by
  rw [canonicalSet_map hinst hspliced] at h
  obtain ⟨readout, hset, hresult⟩ := bind_eq_ok.mp h
  obtain ⟨-, rfl⟩ := canonicalSetOf_ok_iff.mp hset
  obtain ⟨-, hresult⟩ := guard_eq_ok.mp hresult
  rw [← Except.ok.inj hresult, ofList_eq_self hascending]

/-- The operands of a nested value that `canonical_set` would splice in are themselves
instances of the expected classes and need no further splice. -/
def Spliceable (expected : List NodeClass) (flatten : Option Constructor) (n : Node) : Prop :=
  flatten = some n.constructor → ∀ nested rest, n.fields = .set nested :: rest →
    ∀ m ∈ nested, m.isInstance expected ∧ m.constructor ≠ n.constructor

variable {items : List Arg}

theorem canonicalSet_sound (h : canonicalSet items expected path minimum flatten = .ok members)
    (hsplice : ∀ n, .node n ∈ items → Spliceable expected flatten n) :
    SetSound expected minimum flatten members ∧ ∀ m ∈ members, ∃ n, .node n ∈ items ∧ (m = n ∨ m ∈ n.children) := by
  obtain ⟨expanded, hloop, h⟩ := bind_eq_ok.mp h
  obtain ⟨result, hset, h⟩ := bind_eq_ok.mp h
  obtain ⟨hmin, h⟩ := guard_eq_ok.mp h
  obtain rfl := Except.ok.inj h
  obtain ⟨hencodable, rfl⟩ := canonicalSetOf_ok_iff.mp hset
  have horigin : ∀ m ∈ expanded.flatten, ∃ n, .node n ∈ items ∧ (m = n ∨ m ∈ n.children) ∧
      m.isInstance expected ∧ flatten ≠ some m.constructor := by
    intro m hm
    obtain ⟨l, hl, hml⟩ := mem_flatten.mp hm
    obtain ⟨a, ha, hal⟩ := exists_of_mem_mapM hloop hl
    obtain ⟨n, rfl, hinst, ⟨hflat, rfl⟩ | ⟨hflat, rest, hfields⟩⟩ := expand_ok hal
    · obtain rfl := mem_singleton.mp hml
      exact ⟨m, ha, .inl rfl, hinst, hflat⟩
    · obtain ⟨hm_inst, hm_ne⟩ := hsplice n ha hflat l rest hfields m hml
      refine ⟨n, ha, .inr ?_, hm_inst, ?_⟩
      · exact mem_children.mpr ⟨.set l, by simp [hfields], hml⟩
      · rw [hflat]
        exact fun heq => hm_ne (Option.some.inj heq).symm
  have hmem : ∀ m ∈ KeyedSet.ofList Node.bytes expanded.flatten, m ∈ expanded.flatten :=
    fun m hm => mem_of_mem_ofList hm
  refine ⟨⟨?_, ?_, ?_, ascending_ofList _, not_lt.mp hmin⟩, ?_⟩
  · intro m hm
    obtain ⟨_, _, _, hinst, _⟩ := horigin m (hmem m hm)
    exact hinst
  · intro m hm
    obtain ⟨_, _, _, _, hflat⟩ := horigin m (hmem m hm)
    exact hflat
  · exact fun m hm => hencodable m (hmem m hm)
  · intro m hm
    obtain ⟨n, hn, horig, _⟩ := horigin m (hmem m hm)
    exact ⟨n, hn, horig⟩

theorem Arg.mem_nodes_tuple :
    n ∈ (Arg.tuple items).nodes ↔ .node n ∈ items := by
  simp only [Arg.nodes, mem_filterMap]
  constructor
  · rintro ⟨item, hitem, h⟩
    split at h
    · obtain rfl := Option.some.inj h
      exact hitem
    · cases h
  · exact fun h => ⟨_, h, rfl⟩

variable {a : Arg}

theorem Arg.mem_nodes_of_iterate (h : a.iterate = some items) (hn : .node n ∈ items) : n ∈ a.nodes := by
  cases a <;> simp only [Arg.iterate, Option.some.injEq, reduceCtorEq] at h <;> subst h
  case set members => simpa [Arg.nodes] using hn
  case tuple items => exact Arg.mem_nodes_tuple.mpr hn
  all_goals simp at hn

theorem iterable_ok (h : iterable a = .ok items) :
    a.iterate = some items := by
  unfold iterable at h
  split at h
  · rename_i hitems
    rw [hitems, Except.ok.inj h]
  · cases h

theorem requireNode_ok (h : requireNode a expected path = .ok n) : a = .node n ∧ n.isInstance expected := by
  unfold requireNode at h
  split at h
  · split at h
    · obtain rfl := Except.ok.inj h
      exact ⟨rfl, ‹_›⟩
    · cases h
  · cases h

theorem requireNode_node (h : n.isInstance expected) (path : String) : requireNode (.node n) expected path = .ok n := by
  simp [requireNode, h]

theorem normalizeAnnotations_sound (h : normalizeAnnotations a = .ok members) :
    SetSound [Schema.annotationClass] 0 none members ∧ ∀ m ∈ members, ∃ n ∈ a.nodes, m = n ∨ m ∈ n.children := by
  unfold normalizeAnnotations at h
  split at h
  · rename_i items hitems
    obtain ⟨hsound, horigin⟩ := canonicalSet_sound h fun n _ hflat => by simp at hflat
    refine ⟨hsound, fun m hm => ?_⟩
    obtain ⟨n, hn, hor⟩ := horigin m hm
    exact ⟨n, Arg.mem_nodes_of_iterate hitems hn, hor⟩
  · cases h

theorem SetSound.normalizeAnnotations (h : SetSound [Schema.annotationClass] 0 none members) :
    normalizeAnnotations (.set members) = .ok members := h.stable _

theorem mapM_expand_none_ok (h : items.mapM (expand expected path none) = .ok expanded) :
    ∃ members : List Node, items = members.map .node ∧ expanded = members.map (fun n => [n]) ∧
      ∀ n ∈ members, n.isInstance expected := by
  rw [mapM_eq_ok] at h
  induction h with
  | nil => exact ⟨[], rfl, rfl, by simp⟩
  | cons hcall _ ih =>
    obtain ⟨members, rfl, rfl, hall⟩ := ih
    obtain ⟨n, rfl, hinst, ⟨_, rfl⟩ | ⟨hflat, _⟩⟩ := expand_ok hcall
    · exact ⟨n :: members, rfl, rfl, by simpa using ⟨hinst, hall⟩⟩
    · simp at hflat

theorem structuralTuple_ok (h : structuralTuple items expected path minimum = .ok members) :
    items = members.map .node ∧ (∀ n ∈ members, n.isInstance expected) ∧ minimum ≤ members.length := by
  obtain ⟨expanded, hloop, h⟩ := bind_eq_ok.mp h
  obtain ⟨hmin, h⟩ := guard_eq_ok.mp h
  obtain ⟨nodes, rfl, rfl, hall⟩ := mapM_expand_none_ok hloop
  have hmembers : members = nodes := by
    simpa [pure, Except.pure, ← flatMap_def] using h.symm
  subst hmembers
  exact ⟨rfl, hall, by simpa using hmin⟩

theorem structuralTuple_map
    (hinst : ∀ n ∈ members, n.isInstance expected) (hmin : minimum ≤ members.length) (path : String) :
    structuralTuple (members.map .node) expected path minimum = .ok members := by
  have hloop : (members.map Arg.node).mapM (expand expected path none) = .ok (members.map fun n => [n]) := by
    rw [mapM_eq_ok, forall₂_map_left_iff, forall₂_map_right_iff, forall₂_same]
    exact fun n hn => expand_node (hinst n hn) (by simp)
  have hmin' : ¬(members.map fun n => [n]).length < minimum := by simpa using hmin
  rw [structuralTuple, hloop]
  simp only [bind, Except.bind, if_neg hmin', pure, Except.pure, ← flatMap_def, flatMap_singleton']

/-- The field holds what its check asks for, up to the size of a set. -/
def FieldFits (spec : FieldSpec) (v : Value Node) : Prop :=
  match spec.check with
  | .own => False
  | .node expected => ∃ n, v = .node n ∧ n.isInstance expected
  | .canonicalSet expected _ flatten =>
    ∃ ms, v = .set ms ∧ ∀ m ∈ ms, m.isInstance expected ∧ flatten ≠ some m.constructor
  | .structuralTuple expected minimum =>
    ∃ ms, v = .sequence ms ∧ (∀ m ∈ ms, m.isInstance expected) ∧ minimum ≤ ms.length
  | .nonnegativeInteger => ∃ i, v = .integer i
  | .annotations => ∃ ms, v = .set ms ∧ ∀ m ∈ ms, m.isInstance [Schema.annotationClass]

/-- What a field check guarantees of the field it returns. -/
structure FieldSound (spec : FieldSpec) (v : Value Node) : Prop where
  fits : FieldFits spec v
  minimum : ∀ expected minimum flatten, spec.check = .canonicalSet expected minimum flatten → minimum ≤ v.arity
  ascending : ∀ ms, v = .set ms → Ascending Node.bytes ms
  encodable : ∀ ms, v = .set ms → ∀ m ∈ ms, m.Encodable defaultLimits

namespace FieldSound

variable {spec : FieldSpec} {v : Value Node}

theorem stable (h : FieldSound spec v) : checkField spec (Arg.ofValue v) = .ok v := by
  have hfits := h.fits
  unfold FieldFits at hfits
  cases hcheck : spec.check with
  | own => simp [hcheck] at hfits
  | node expected =>
    simp only [hcheck] at hfits
    obtain ⟨n, rfl, hinst⟩ := hfits
    simp only [checkField, hcheck, Arg.ofValue, requireNode_node hinst]
    rfl
  | canonicalSet expected minimum flatten =>
    simp only [hcheck] at hfits
    obtain ⟨ms, rfl, hms⟩ := hfits
    have hset : SetSound expected minimum flatten ms :=
      ⟨fun m hm => (hms m hm).1, fun m hm => (hms m hm).2, h.encodable ms rfl, h.ascending ms rfl,
        h.minimum _ _ _ hcheck⟩
    simp only [checkField, hcheck, Arg.ofValue]
    rw [show iterable (.set ms) = .ok (ms.map .node) from rfl]
    simp only [bind, Except.bind, hset.stable]
    rfl
  | structuralTuple expected minimum =>
    simp only [hcheck] at hfits
    obtain ⟨ms, rfl, hinst, hmin⟩ := hfits
    simp only [checkField, hcheck, Arg.ofValue]
    rw [show iterable (.tuple (ms.map .node)) = .ok (ms.map .node) from rfl]
    simp only [bind, Except.bind, structuralTuple_map hinst hmin]
    rfl
  | nonnegativeInteger =>
    simp only [hcheck] at hfits
    obtain ⟨i, rfl⟩ := hfits
    have hnat : ¬(i : Int) < 0 := by omega
    simp [checkField, hcheck, Arg.ofValue, requireNonnegativeInteger, hnat, Functor.map, Except.map]
  | annotations =>
    simp only [hcheck] at hfits
    obtain ⟨ms, rfl, hms⟩ := hfits
    have hset : SetSound [Schema.annotationClass] 0 none ms :=
      ⟨hms, by simp, h.encodable ms rfl, h.ascending ms rfl, Nat.zero_le _⟩
    simp only [checkField, hcheck, Arg.ofValue, hset.normalizeAnnotations]
    rfl

theorem noEnum (h : FieldSound spec v) (kind : EntityKind) : v ≠ .enum kind := by
  rintro rfl
  have hfits := h.fits
  unfold FieldFits at hfits
  cases hcheck : spec.check <;> simp [hcheck] at hfits

theorem operands (h : FieldSound spec v) {expected : List NodeClass} {minimum : Nat} {c : Constructor}
    (hcheck : spec.check = .canonicalSet expected minimum (some c)) :
    ∀ m ∈ v.nodes, m.isInstance expected ∧ m.constructor ≠ c := by
  have hfits := h.fits
  simp only [FieldFits, hcheck] at hfits
  obtain ⟨ms, rfl, hms⟩ := hfits
  intro m hm
  exact ⟨(hms m hm).1, fun heq => (hms m hm).2 (by rw [heq])⟩

end FieldSound

theorem checkField_sound (h : checkField spec a = .ok v) (hsplice : ∀ n ∈ a.nodes, ∀ expected minimum flatten,
    spec.check = .canonicalSet expected minimum flatten → Spliceable expected flatten n) :
    FieldSound spec v ∧ ∀ m ∈ v.nodes, ∃ n ∈ a.nodes, m = n ∨ m ∈ n.children := by
  cases hcheck : spec.check with
  | own => simp [checkField, hcheck] at h
  | node expected =>
    simp only [checkField, hcheck] at h
    obtain ⟨n, hn, rfl⟩ := map_eq_ok.mp h
    obtain ⟨rfl, hinst⟩ := requireNode_ok hn
    refine ⟨⟨?_, by simp [hcheck], by simp, by simp⟩, by simp⟩
    simpa [FieldFits, hcheck] using hinst
  | canonicalSet expected minimum flatten =>
    simp only [checkField, hcheck] at h
    obtain ⟨items, hitems, h⟩ := bind_eq_ok.mp h
    obtain ⟨members, hset, rfl⟩ := map_eq_ok.mp h
    have hiter := iterable_ok hitems
    obtain ⟨hsound, horigin⟩ := canonicalSet_sound hset fun n hn =>
      hsplice n (Arg.mem_nodes_of_iterate hiter hn) expected minimum flatten hcheck
    refine ⟨⟨?_, ?_, fun ms hms => Value.set.inj hms ▸ hsound.ascending,
      fun ms hms => Value.set.inj hms ▸ hsound.encodable⟩, ?_⟩
    · simp only [FieldFits, hcheck]
      exact ⟨members, rfl, fun m hm => ⟨hsound.instances m hm, hsound.spliced m hm⟩⟩
    · intro expected' minimum' flatten' hcheck'
      rw [hcheck] at hcheck'
      obtain ⟨rfl, rfl, rfl⟩ := FieldCheck.canonicalSet.inj hcheck'
      exact hsound.minimum
    · intro m hm
      obtain ⟨n, hn, hor⟩ := horigin m hm
      exact ⟨n, Arg.mem_nodes_of_iterate hiter hn, hor⟩
  | structuralTuple expected minimum =>
    simp only [checkField, hcheck] at h
    obtain ⟨items, hitems, h⟩ := bind_eq_ok.mp h
    obtain ⟨members, htuple, rfl⟩ := map_eq_ok.mp h
    have hiter := iterable_ok hitems
    obtain ⟨rfl, hinst, hmin⟩ := structuralTuple_ok htuple
    refine ⟨⟨?_, by simp [hcheck], by simp, by simp⟩, ?_⟩
    · simp only [FieldFits, hcheck]
      exact ⟨members, rfl, hinst, hmin⟩
    · intro m hm
      exact ⟨m, Arg.mem_nodes_of_iterate hiter (mem_map_of_mem hm), .inl rfl⟩
  | nonnegativeInteger =>
    simp only [checkField, hcheck] at h
    obtain ⟨i, hi, rfl⟩ := map_eq_ok.mp h
    refine ⟨⟨?_, by simp [hcheck], by simp, by simp⟩, by simp [Value.nodes]⟩
    simp only [FieldFits, hcheck]
    exact ⟨i, rfl⟩
  | annotations =>
    simp only [checkField, hcheck] at h
    obtain ⟨members, hset, rfl⟩ := map_eq_ok.mp h
    obtain ⟨hsound, horigin⟩ := normalizeAnnotations_sound hset
    refine ⟨⟨?_, by simp [hcheck], fun ms hms => Value.set.inj hms ▸ hsound.ascending,
      fun ms hms => Value.set.inj hms ▸ hsound.encodable⟩, horigin⟩
    simp only [FieldFits, hcheck]
    exact ⟨members, rfl, hsound.instances⟩

theorem checkFields_sound {fields : List (Value Node)} (h : checkFields specs args = .ok fields) (hsplice : ∀ a ∈
    args, ∀ n ∈ a.nodes, ∀ spec ∈ specs, ∀ expected minimum flatten, spec.check = .canonicalSet expected minimum
    flatten → Spliceable expected flatten n) :
    Forall₂ FieldSound specs fields ∧
      ∀ v ∈ fields, ∀ m ∈ v.nodes, ∃ a ∈ args, ∃ n ∈ a.nodes, m = n ∨ m ∈ n.children := by
  induction specs generalizing args fields with
  | nil =>
    cases args with
    | nil =>
      obtain rfl := Except.ok.inj h
      simp
    | cons a args => simp [checkFields] at h
  | cons spec specs ih =>
    cases args with
    | nil => simp [checkFields] at h
    | cons a args =>
      obtain ⟨v, hv, h⟩ := bind_eq_ok.mp h
      obtain ⟨vs, hvs, h⟩ := bind_eq_ok.mp h
      obtain rfl := Except.ok.inj h
      obtain ⟨hsound, hnodes⟩ := checkField_sound hv fun n hn => hsplice a (by simp) n hn spec (by simp)
      obtain ⟨hsounds, hrest⟩ := ih hvs fun b hb n hn s hs =>
        hsplice b (by simp [hb]) n hn s (by simp [hs])
      refine ⟨Forall₂.cons hsound hsounds, ?_⟩
      intro w hw m hm
      rcases mem_cons.mp hw with rfl | hw
      · obtain ⟨n, hn, hor⟩ := hnodes m hm
        exact ⟨a, by simp, n, hn, hor⟩
      · obtain ⟨b, hb, n, hn, hor⟩ := hrest w hw m hm
        exact ⟨b, by simp [hb], n, hn, hor⟩

theorem checkFields_stable {fields : List (Value Node)} (h : Forall₂ FieldSound specs fields) :
    checkFields specs (fields.map Arg.ofValue) = .ok fields := by
  induction h with
  | nil => rfl
  | cons hfield _ ih =>
    simp only [map_cons, checkFields, hfield.stable, ih]
    rfl

end

namespace Constructor

theorem construct_eq (h : c.ownBody = false) (args : List Arg) :
    construct c args = .mk c <$> checkFields c.fieldSpecs args := by
  cases c <;> first | rfl | simp [ownBody] at h

/-- Only operand sets splice, and they splice values of the class that has them. -/
theorem flatten_eq {c c' : Constructor} {spec : FieldSpec} (hs : spec ∈ c.fieldSpecs)
    {expected : List NodeClass} {minimum : Nat}
    (h : spec.check = .canonicalSet expected minimum (some c')) :
    c' = c ∧ c.fieldSpecs.length = 1 := by
  have htable : ∀ s ∈ c.fieldSpecs, (match s.check with
      | .canonicalSet _ _ (some c') => decide (c' = c ∧ c.fieldSpecs.length = 1)
      | _ => true) = true := by
    cases c <;> decide
  simpa [h] using htable spec hs

end Constructor

section

open Fallible Schema

def Node.AsciiLanguage (n : Node) : Prop :=
  n.constructor = .literal → ∀ lexical datatype tag, n.fields = [lexical, datatype, .text tag] →
    tag.toList.all asciiChar

structure Sound (n : Node) : Prop where
  shape : n.Shape
  encodable : ∀ ms, .set ms ∈ n.fields → ∀ m ∈ ms, m.Encodable defaultLimits
  enums : ∀ kind, .enum kind ∈ n.fields → n.constructor = .entity ∨
    n.constructor = .literal ∧ n.fields.head? = some (.enum kind)
  stable : n.AsciiLanguage → construct n.constructor (n.fields.map Arg.ofValue) = .ok n
  operands : ∀ spec ∈ n.constructor.fieldSpecs, ∀ expected minimum,
    spec.check = .canonicalSet expected minimum (some n.constructor) →
      ∀ m ∈ n.children, m.isInstance expected ∧ m.constructor ≠ n.constructor

variable {c : Constructor} {n : Node}

/-- A nested sound value can be spliced into a set of the class that has it. -/
theorem Sound.spliceable (h : Sound n) {spec : FieldSpec}
    (hs : spec ∈ c.fieldSpecs) {expected : List NodeClass} {minimum : Nat}
    {flatten : Option Constructor} (hcheck : spec.check = .canonicalSet expected minimum flatten) :
    Spliceable expected flatten n := by
  intro hflat nested rest hfields m hm
  subst hflat
  have hc := (Constructor.flatten_eq hs hcheck).1
  refine h.operands spec (hc ▸ hs) expected minimum hcheck m ?_
  exact mem_children.mpr ⟨.set nested, by simp [hfields], hm⟩

/-- A value of class `c` whose nested values come from the arguments or from values in these. -/
structure BuiltFrom (c : Constructor) (args : List Arg) (n : Node) : Prop where
  constructor_eq : n.constructor = c
  children : ∀ m ∈ n.children, ∃ a ∈ args, ∃ k ∈ a.nodes, m = k ∨ m ∈ k.children

variable {a : Arg}

theorem ofValue_textField (h : a.str? = some text) :
    Arg.ofValue (textField a) = a := by
  cases a <;> simp_all [Arg.str?, textField, Arg.ofValue]

theorem requireText_ok (h : requireText a path nonempty = .ok text) : a.str? = some text := by
  unfold requireText at h
  split at h
  · cases h
  · rename_i hstr
    split at h
    · cases h
    · rw [hstr, Except.ok.inj h]

theorem constructIRI_enum (kind : EntityKind) : ∃ e, constructIRI (.enum kind) = .error e := by
  cases kind <;> exact ⟨_, rfl⟩

theorem constructIRI_ok (h : constructIRI a = .ok n) :
    n = .mk .iri [textField a] ∧ ∃ text, a.str? = some text := by
  unfold constructIRI at h
  split at h
  · cases h
  · rename_i htext
    split at h
    · cases h
    · split at h
      · cases h
      · split at h
        · cases h
        · exact ⟨(Except.ok.inj h).symm, _, requireText_ok htext⟩

theorem sound_iri (h : constructIRI a = .ok n) :
    Sound n ∧ BuiltFrom .iri [a] n := by
  obtain ⟨rfl, text, htext⟩ := constructIRI_ok h
  have hstable : construct .iri [Arg.ofValue (textField a)] = .ok (.mk .iri [textField a]) := by
    rw [ofValue_textField htext]
    exact h
  have hnodes : (textField a).nodes = [] := by cases a <;> rfl
  have hset : ∀ ms, .set ms ∉ [textField a] := by
    intro ms hms
    cases a <;> simp [textField] at hms
  refine ⟨⟨⟨rfl, fun ms hms => absurd hms (hset ms)⟩, fun ms hms => absurd hms (hset ms), ?_,
    fun _ => hstable, ?_⟩, rfl, ?_⟩
  · intro kind hkind
    obtain ⟨e, he⟩ := constructIRI_enum kind
    have ha : a = .enum kind := by cases a <;> simp_all [textField]
    rw [ha, he] at h
    cases h
  · intro spec _ expected minimum _ m hm
    simp [Node.children, hnodes] at hm
  · intro m hm
    simp [Node.children, hnodes] at hm

theorem sound_entity {kind iri : Arg} (h : constructEntity kind iri = .ok n) :
    Sound n ∧ BuiltFrom .entity [kind, iri] n := by
  unfold constructEntity at h
  split at h
  · rename_i k
    obtain ⟨m, hm, hresult⟩ := bind_eq_ok.mp h
    obtain ⟨rfl, hinst⟩ := requireNode_ok hm
    obtain rfl := Except.ok.inj hresult
    refine ⟨⟨⟨rfl, by simp⟩, by simp, by simp, fun _ => h, ?_⟩, rfl, ?_⟩
    · intro spec hs expected minimum hcheck
      exact absurd (Constructor.flatten_eq hs hcheck).2 (show ¬Constructor.entity.arity = 1 by decide)
    · intro k hk
      obtain rfl : k = m := by simpa [Node.children, Value.nodes] using hk
      exact ⟨.node k, by simp, k, by simp, .inl rfl⟩
  · cases h

theorem sound_anonymousIndividual (h : constructAnonymousIndividual scope key = .ok n) :
    Sound n ∧ BuiltFrom .anonymousIndividual [scope, key] n := by
  have hcall := h
  unfold constructAnonymousIndividual at h
  split at h
  · split at h
    · cases h
    · split at h
      · split at h
        · cases h
        · obtain rfl := Except.ok.inj h
          refine ⟨⟨⟨rfl, by simp⟩, by simp, by simp, fun _ => hcall, ?_⟩, rfl, by simp [Node.children, Value.nodes]⟩
          intro spec _ expected minimum _ m hm
          simp [Node.children, Value.nodes] at hm
      · cases h
  · cases h

theorem literalLanguage_ok (h : literalLanguage datatype a = .ok v) :
    (a = .none ∧ v = .none) ∨ ∃ tag : String, a.str? = some tag ∧ validLanguageTag tag.toList ∧
      datatype.entityIri = rdfPlainLiteralIri ∧ v = .text (String.ofList (lower tag.toList)) := by
  unfold literalLanguage at h
  split at h
  · exact .inl ⟨rfl, (Except.ok.inj h).symm⟩
  · split at h
    · cases h
    · rename_i tag htag
      split at h
      · cases h
      · split at h
        · cases h
        · exact .inr ⟨tag, htag, by simp_all, by simp_all, (Except.ok.inj h).symm⟩

theorem literalLanguage_stable (h : literalLanguage datatype a = .ok v) (hascii : ∀ tag, v = .text tag →
    tag.toList.all asciiChar) :
    literalLanguage datatype (Arg.ofValue v) = .ok v := by
  obtain ⟨-, rfl⟩ | ⟨tag, -, hvalid, hplain, rfl⟩ := literalLanguage_ok h
  · rfl
  · have hlow : (lower tag.toList).all asciiChar := by simpa using hascii _ rfl
    obtain ⟨hvalid', hfix⟩ := validLanguageTag_lower hlow hvalid
    simp [literalLanguage, Arg.ofValue, Arg.str?, hvalid', hplain, hfix]

theorem constructLiteral_ok (h : constructLiteral lexical datatype language = .ok n) :
    ∃ text d v, requireText lexical "Literal.lexical_form" false = .ok text ∧ datatype = .node d ∧
      d.isInstance [datatypeClass] ∧ literalLanguage d language = .ok v ∧
      d.entityIri ≠ rdfLangStringIri ∧ n = .mk .literal [textField lexical, .node d, v] := by
  unfold constructLiteral at h
  split at h
  · cases h
  · rename_i text htext
    split at h
    · cases h
    · rename_i d hd
      obtain ⟨rfl, hinst⟩ := requireNode_ok hd
      obtain ⟨v, hv, hrest⟩ := bind_eq_ok.mp h
      obtain ⟨hlang, hrest⟩ := guard_eq_ok.mp hrest
      exact ⟨text, d, v, htext, rfl, hinst, hv, hlang, (Except.ok.inj hrest).symm⟩

theorem sound_literal {lexical datatype language : Arg} (h : constructLiteral lexical datatype language = .ok n) :
    Sound n ∧ BuiltFrom .literal [lexical, datatype, language] n := by
  obtain ⟨text, d, v, htext, rfl, hinst, hv, hlang, rfl⟩ := constructLiteral_ok h
  have hnodes : (textField lexical).nodes = [] := by cases lexical <;> rfl
  have hvnodes : v.nodes = [] := by
    obtain ⟨-, rfl⟩ | ⟨_, _, _, _, rfl⟩ := literalLanguage_ok hv <;> rfl
  have hset : ∀ ms, .set ms ∉ [textField lexical, .node d, v] := by
    intro ms hms
    have hcases : .set ms = textField lexical ∨ .set ms = v := by simpa using hms
    rcases hcases with hms | hms
    · cases lexical <;> simp [textField] at hms
    · obtain ⟨-, rfl⟩ | ⟨_, _, _, _, rfl⟩ := literalLanguage_ok hv <;> cases hms
  refine ⟨⟨⟨rfl, fun ms hms => absurd hms (hset ms)⟩, fun ms hms => absurd hms (hset ms), ?_, ?_, ?_⟩, rfl, ?_⟩
  · intro kind hkind
    have hcases : .enum kind = textField lexical ∨ .enum kind = v := by simpa using hkind
    rcases hcases with hkind | hkind
    · exact .inr ⟨rfl, by simp [hkind]⟩
    · obtain ⟨-, rfl⟩ | ⟨_, _, _, _, rfl⟩ := literalLanguage_ok hv <;> cases hkind
  · intro hascii
    have htag : ∀ tag, v = .text tag → tag.toList.all asciiChar := by
      rintro tag rfl
      exact hascii rfl _ _ tag rfl
    simp only [constructor_mk, fields_mk, map_cons, map_nil, construct,
      constructLiteral, ofValue_textField (requireText_ok htext), htext, Arg.ofValue_node,
      requireNode_node hinst, literalLanguage_stable hv htag, bind, Except.bind, if_neg hlang]
  · intro spec hs expected minimum hcheck
    exact absurd (Constructor.flatten_eq hs hcheck).2 (show ¬Constructor.literal.arity = 1 by decide)
  · intro m hm
    obtain rfl : m = d := by simpa [Node.children, hnodes, hvnodes] using hm
    exact ⟨.node m, by simp, m, by simp, .inl rfl⟩

theorem nodeLt_ok_iff :
    nodeLt first second = .ok b ↔ first.Encodable defaultLimits ∧ second.Encodable defaultLimits ∧
      b = decide (first.bytes < second.bytes) := by
  rw [nodeLt, bind_eq_ok]
  constructor
  · rintro ⟨x, hx, h⟩
    obtain ⟨y, hy, h⟩ := bind_eq_ok.mp h
    obtain ⟨hfirst, rfl⟩ := canonicalBytes_ok_iff.mp hx
    obtain ⟨hsecond, rfl⟩ := canonicalBytes_ok_iff.mp hy
    exact ⟨hfirst, hsecond, (Except.ok.inj h).symm⟩
  · rintro ⟨hfirst, hsecond, rfl⟩
    exact ⟨_, canonicalBytes_of_encodable hfirst, bind_eq_ok.mpr ⟨_, canonicalBytes_of_encodable hsecond, rfl⟩⟩

theorem constructInverseObjectProperties_ordered {annotations : List Node} (hfirst : first.isInstance
    objectPropertyExpressionTypes) (hsecond : second.isInstance objectPropertyExpressionTypes) (hlt : nodeLt second
    first = .ok false) (hset : SetSound [annotationClass] 0 none annotations) :
    constructInverseObjectProperties (.node first) (.node second) (.set annotations) =
      .ok (.mk .inverseObjectProperties [.node first, .node second, .set annotations]) := by
  simp only [constructInverseObjectProperties, requireNode_node hfirst, requireNode_node hsecond, hlt,
    hset.normalizeAnnotations, bind, Except.bind, Bool.false_eq_true, if_false]

theorem sound_inverseObjectProperties {first second annotations : Arg}
    (h : constructInverseObjectProperties first second annotations = .ok n) :
    Sound n ∧ BuiltFrom .inverseObjectProperties [first, second, annotations] n := by
  obtain ⟨p, hp, h⟩ := bind_eq_ok.mp h
  obtain ⟨q, hq, h⟩ := bind_eq_ok.mp h
  obtain ⟨swapped, hlt, h⟩ := bind_eq_ok.mp h
  obtain ⟨members, hmembers, h⟩ := bind_eq_ok.mp h
  obtain ⟨rfl, hpinst⟩ := requireNode_ok hp
  obtain ⟨rfl, hqinst⟩ := requireNode_ok hq
  obtain ⟨hset, horigin⟩ := normalizeAnnotations_sound hmembers
  obtain ⟨hqenc, hpenc, rfl⟩ := nodeLt_ok_iff.mp hlt
  have hall : ∀ a b : Node, a.isInstance objectPropertyExpressionTypes →
      b.isInstance objectPropertyExpressionTypes → nodeLt b a = .ok false →
      (∀ m, m = a ∨ m = b → m = p ∨ m = q) →
      Sound (.mk .inverseObjectProperties [.node a, .node b, .set members]) ∧
        BuiltFrom .inverseObjectProperties [.node p, .node q, annotations]
          (.mk .inverseObjectProperties [.node a, .node b, .set members]) := by
    intro a b ha hb hle hpq
    have hms : ∀ ms, .set ms ∈ [Value.node a, .node b, .set members] → ms = members := by simp
    refine ⟨⟨⟨rfl, fun ms h => hms ms h ▸ hset.ascending⟩, fun ms h => hms ms h ▸ hset.encodable, by simp,
      fun _ => constructInverseObjectProperties_ordered ha hb hle hset, ?_⟩, rfl, ?_⟩
    · intro spec hs expected minimum hcheck
      exact absurd (Constructor.flatten_eq hs hcheck).2
        (show ¬Constructor.inverseObjectProperties.arity = 1 by decide)
    · intro m hm
      have hm' : (m = a ∨ m = b) ∨ m ∈ members := by simpa [Node.children, or_assoc] using hm
      rcases hm' with hm' | hm'
      · rcases hpq m hm' with rfl | rfl <;> exact ⟨.node m, by simp, m, by simp, .inl rfl⟩
      · obtain ⟨k, hk, hor⟩ := horigin m hm'
        exact ⟨annotations, by simp, k, hk, hor⟩
  by_cases hswap : q.bytes < p.bytes
  · simp only [hswap, decide_true, if_true] at h
    obtain rfl := Except.ok.inj h
    refine hall q p hqinst hpinst (nodeLt_ok_iff.mpr ⟨hpenc, hqenc, ?_⟩) (by tauto)
    simpa using le_of_lt hswap
  · simp only [hswap, decide_false, Bool.false_eq_true, if_false] at h
    obtain rfl := Except.ok.inj h
    exact hall p q hpinst hqinst (nodeLt_ok_iff.mpr ⟨hqenc, hpenc, by simpa using hswap⟩) (by tauto)

theorem canonicalSet_origin (hitems : iterable a = .ok items) (h : canonicalSet items expected path 0 none = .ok
    members) :
    SetSound expected 0 none members ∧ ∀ m ∈ members, ∃ n ∈ a.nodes, m = n ∨ m ∈ n.children := by
  obtain ⟨hsound, horigin⟩ := canonicalSet_sound h fun n _ hflat => by simp at hflat
  refine ⟨hsound, fun m hm => ?_⟩
  obtain ⟨n, hn, hor⟩ := horigin m hm
  exact ⟨n, Arg.mem_nodes_of_iterate (iterable_ok hitems) hn, hor⟩

theorem sound_hasKey {cls objects datas annotations : Arg} (h : constructHasKey cls objects datas annotations = .ok n) :
    Sound n ∧ BuiltFrom .hasKey [cls, objects, datas, annotations] n := by
  obtain ⟨e, he, h⟩ := bind_eq_ok.mp h
  obtain ⟨objectItems, hoitems, h⟩ := bind_eq_ok.mp h
  obtain ⟨os, hos, h⟩ := bind_eq_ok.mp h
  obtain ⟨dataItems, hditems, h⟩ := bind_eq_ok.mp h
  obtain ⟨ds, hds, h⟩ := bind_eq_ok.mp h
  obtain ⟨hnonempty, h⟩ := guard_eq_ok.mp h
  obtain ⟨as, has, h⟩ := bind_eq_ok.mp h
  obtain rfl := Except.ok.inj h
  obtain ⟨rfl, hinst⟩ := requireNode_ok he
  obtain ⟨hosound, hoorigin⟩ := canonicalSet_origin hoitems hos
  obtain ⟨hdsound, hdorigin⟩ := canonicalSet_origin hditems hds
  obtain ⟨hasound, haorigin⟩ := normalizeAnnotations_sound has
  have hsets : ∀ ms, .set ms ∈ [Value.node e, .set os, .set ds, .set as] →
      Ascending Node.bytes ms ∧ ∀ m ∈ ms, m.Encodable defaultLimits := by
    intro ms hms
    have hcases : ms = os ∨ ms = ds ∨ ms = as := by simpa using hms
    rcases hcases with rfl | rfl | rfl
    · exact ⟨hosound.ascending, hosound.encodable⟩
    · exact ⟨hdsound.ascending, hdsound.encodable⟩
    · exact ⟨hasound.ascending, hasound.encodable⟩
  refine ⟨⟨⟨rfl, fun ms h => (hsets ms h).1⟩, fun ms h => (hsets ms h).2, by simp, fun _ => ?_, ?_⟩, rfl, ?_⟩
  · simp only [constructor_mk, fields_mk, map_cons, map_nil, construct,
      Arg.ofValue_node, Arg.ofValue_set, constructHasKey, requireNode_node hinst]
    rw [show iterable (.set os) = .ok (os.map .node) from rfl, show iterable (.set ds) = .ok (ds.map .node) from rfl]
    simp only [bind, Except.bind, hosound.stable, hdsound.stable, if_neg hnonempty,
      hasound.normalizeAnnotations, pure, Except.pure]
  · intro spec hs expected minimum hcheck
    exact absurd (Constructor.flatten_eq hs hcheck).2 (show ¬Constructor.hasKey.arity = 1 by decide)
  · intro m hm
    have hcases : m = e ∨ m ∈ os ∨ m ∈ ds ∨ m ∈ as := by simpa [Node.children] using hm
    rcases hcases with rfl | hm | hm | hm
    · exact ⟨.node m, by simp, m, by simp, .inl rfl⟩
    · obtain ⟨k, hk, hor⟩ := hoorigin m hm
      exact ⟨objects, by simp, k, hk, hor⟩
    · obtain ⟨k, hk, hor⟩ := hdorigin m hm
      exact ⟨datas, by simp, k, hk, hor⟩
    · obtain ⟨k, hk, hor⟩ := haorigin m hm
      exact ⟨annotations, by simp, k, hk, hor⟩

theorem sound_plain {args : List Arg} (hc : c.ownBody = false)
    (h : construct c args = .ok n) (hargs : ∀ a ∈ args, ∀ m ∈ a.nodes, Sound m) :
    Sound n ∧ BuiltFrom c args n := by
  rw [Constructor.construct_eq hc] at h
  obtain ⟨fields, hfields, rfl⟩ := map_eq_ok.mp h
  obtain ⟨hsound, horigin⟩ := checkFields_sound hfields
    fun a ha m hm spec hs expected minimum flatten hcheck => (hargs a ha m hm).spliceable hs hcheck
  have hspec : ∀ v ∈ fields, ∃ spec ∈ c.fieldSpecs, FieldSound spec v := by
    intro v hv
    obtain ⟨i, hi, rfl⟩ := getElem_of_mem hv
    have hlen := hsound.length_eq
    exact ⟨c.fieldSpecs[i], getElem_mem _, hsound.get (by omega) hi⟩
  refine ⟨⟨⟨hsound.length_eq.symm, fun ms hms => ?_⟩, fun ms hms => ?_, fun kind hkind => ?_, fun _ => ?_, ?_⟩, rfl, ?_⟩
  · obtain ⟨spec, _, hfield⟩ := hspec _ hms
    exact hfield.ascending ms rfl
  · obtain ⟨spec, _, hfield⟩ := hspec _ hms
    exact hfield.encodable ms rfl
  · obtain ⟨spec, _, hfield⟩ := hspec _ hkind
    exact absurd rfl (hfield.noEnum kind)
  · rw [constructor_mk, fields_mk, Constructor.construct_eq hc, checkFields_stable hsound]
    rfl
  · intro spec hs expected minimum hcheck m hm
    obtain ⟨v, hv, hmv⟩ := mem_children.mp hm
    obtain ⟨spec', hs', hfield⟩ := hspec v hv
    obtain ⟨single, hsingle⟩ := length_eq_one_iff.mp (Constructor.flatten_eq hs hcheck).2
    have hsame : spec' = spec := by
      rw [constructor_mk] at hsingle hs
      rw [hsingle, mem_singleton] at hs hs'
      rw [hs, hs']
    subst hsame
    exact hfield.operands hcheck m hmv
  · intro m hm
    obtain ⟨v, hv, hmv⟩ := mem_children.mp hm
    exact horigin v hv m hmv

theorem construct_sound (h : construct c args = .ok n) (hargs : ∀ a ∈ args, ∀ m ∈ a.nodes, Sound m) :
    Sound n ∧ BuiltFrom c args n := by
  cases hc : c.ownBody with
  | false => exact sound_plain hc h hargs
  | true =>
    unfold construct at h
    split at h
    · exact sound_iri h
    · exact sound_entity h
    · exact sound_anonymousIndividual h
    · exact sound_literal h
    · exact sound_inverseObjectProperties h
    · exact sound_hasKey h
    · rw [if_pos hc] at h
      cases h

section

variable (h : Constructible n)

include h

theorem Constructible.sound_and_nested :
    Sound n ∧ ∀ m ∈ n.children, Constructible m := by
  induction h with
  | intro nested call ih =>
    obtain ⟨hsound, horigin⟩ := construct_sound call fun a ha m hm => (ih a ha m hm).1
    refine ⟨hsound, fun m hm => ?_⟩
    obtain ⟨a, ha, k, hk, rfl | hmk⟩ := horigin.children m hm
    · exact nested a ha m hk
    · exact (ih a ha k hk).2 m hmk

theorem Constructible.sound : Sound n := h.sound_and_nested.1

theorem Constructible.child (hm : m ∈ n.children) :
    Constructible m := h.sound_and_nested.2 m hm

theorem Constructible.canonical : n.Canonical := by
  induction n using Node.induct with
  | step n ih => exact .intro h.sound.shape fun m hm => ih m hm (h.child hm)

end

/-- The canonical bytes of a value any constructor can return determine the value. -/
theorem Constructible.bytes_inj (hn : Constructible n) (hm : Constructible m) (h : n.bytes = m.bytes) :
    n = m := bytes_injOn hn.canonical hm.canonical h

end

end OwlCore
