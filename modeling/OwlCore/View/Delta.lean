import OwlCore.View.Fingerprint

/-!
# Canonical sets and repair deltas

A delta holds additions and removals for the axioms and the ontology annotations of a view. Both
halves follow one algebra, so a delta is a pair of patches: an addition and a removal set
without a common member.
-/
namespace OwlCore

open KeyedSet List

/-- `CanonicalSet`: constructed values in strictly ascending canonical order. -/
structure CanonicalSet where
  items : List Node
  ascending : Ascending Node.bytes items
  constructible : ∀ n ∈ items, Constructible n

theorem keyInjOn_constructible (h : ∀ n, s n → Constructible n) :
    KeyInjOn Node.bytes s := fun a b ha hb => (h a ha).bytes_inj (h b hb)

namespace CanonicalSet

instance : Membership Node CanonicalSet := ⟨fun s n => n ∈ s.items⟩

variable {s : CanonicalSet} {n : Node}

theorem mem_items : n ∈ s.items ↔ n ∈ s := Iff.rfl

@[ext] theorem ext (h : ∀ n, n ∈ s ↔ n ∈ t) : s = t := by
  cases s with
  | mk l hl hc =>
    cases t with
    | mk l' hl' hc' =>
      have heq : l = l' := hl.ext hl' h
      subst heq
      rfl

/-- `CanonicalSet(())`. -/
def empty : CanonicalSet := ⟨[], Node.ascending_nil, by simp⟩

@[simp] theorem notMem_empty : n ∉ empty := not_mem_nil

/-- `CanonicalSet(values)`. -/
def ofValues (values : List Node) (h : ∀ n ∈ values, Constructible n) : CanonicalSet where
  items := KeyedSet.ofList Node.bytes values
  ascending := ascending_ofList values
  constructible := fun n hn => h n (mem_of_mem_ofList hn)

@[simp] theorem mem_ofValues :
    n ∈ ofValues values h ↔ n ∈ values :=
  mem_ofList (keyInjOn_constructible h) n

/-- `value in set`, by bisection. -/
def contains (s : CanonicalSet) (n : Node) : Bool := KeyedSet.contains Node.bytes s.items n.bytes

theorem canonical (s : CanonicalSet) : ∀ n ∈ s, n.Canonical := fun n hn => (s.constructible n hn).canonical

theorem contains_iff (hn : n.Canonical) :
    s.contains n = true ↔ n ∈ s := by
  rw [contains, KeyedSet.contains_iff s.ascending]
  constructor
  · rintro ⟨m, hm, heq⟩
    exact Node.bytes_injOn (s.canonical m hm) hn heq ▸ hm
  · exact fun h => ⟨n, h, rfl⟩

/-- `(item for item in self if item not in other)`. -/
def without (s other : CanonicalSet) : List Node := s.items.filter fun n => !other.contains n

@[simp] theorem mem_without :
    n ∈ s.without other ↔ n ∈ s ∧ n ∉ other := by
  rw [without, mem_filter]
  refine and_congr_right fun hn => ?_
  rw [← contains_iff (s.canonical n hn), Bool.not_eq_true', Bool.not_eq_true]

theorem constructible_without (h : n ∈ s.without other) :
    Constructible n := s.constructible n (mem_without.mp h).1

theorem length_eq_zero : s.items.length = 0 ↔ ∀ n, n ∉ s := by
  rw [length_eq_zero_iff, eq_nil_iff_forall_not_mem]
  exact Iff.rfl

end CanonicalSet

structure Patch where
  add : CanonicalSet
  remove : CanonicalSet
  disjoint : ∀ n, n ∈ add → n ∉ remove

namespace Patch

def apply (p : Patch) (values : Set Node) : Set Node := {n | n ∈ p.add ∨ n ∈ values ∧ n ∉ p.remove}

def entryCount (p : Patch) : Nat := p.add.items.length + p.remove.items.length

/-- One half of `combine_deltas`. -/
def combine (first second : Patch) : Patch where
  add := .ofValues (first.add.without second.remove ++ second.add.without first.remove) fun n hn => by
    rcases mem_append.mp hn with h | h <;> exact CanonicalSet.constructible_without h
  remove := .ofValues (first.remove.without second.add ++ second.remove.without first.add) fun n hn => by
    rcases mem_append.mp hn with h | h <;> exact CanonicalSet.constructible_without h
  disjoint := by
    intro n
    have hfirst := first.disjoint n
    have hsecond := second.disjoint n
    simp only [CanonicalSet.mem_ofValues, mem_append, CanonicalSet.mem_without]
    tauto

@[simp] theorem mem_add_combine {first second : Patch} {n : Node} : n ∈ (first.combine second).add ↔
    n ∈ first.add ∧ n ∉ second.remove ∨ n ∈ second.add ∧ n ∉ first.remove := by
  simp [combine]

@[simp] theorem mem_remove_combine {first second : Patch} {n : Node} :
    n ∈ (first.combine second).remove ↔
    n ∈ first.remove ∧ n ∉ second.add ∨ n ∈ second.remove ∧ n ∉ first.add := by
  simp [combine]

end Patch

inductive DeltaPolicy where
  | strict
  | idempotent
  deriving DecidableEq

structure OntologyDelta where
  axioms : Patch
  annotations : Patch
  expectedBaseFingerprint : Option Fingerprint := none
  policy : DeltaPolicy := .strict

namespace OntologyDelta

def entryCount (delta : OntologyDelta) : Nat := delta.axioms.entryCount + delta.annotations.entryCount

def isEmpty (delta : OntologyDelta) : Bool := delta.entryCount = 0

theorem isEmpty_iff {delta : OntologyDelta} : delta.isEmpty = true ↔
    (∀ n, n ∉ delta.axioms.add ∧ n ∉ delta.axioms.remove) ∧
      ∀ n, n ∉ delta.annotations.add ∧ n ∉ delta.annotations.remove := by
  rw [isEmpty, decide_eq_true_iff, entryCount, Patch.entryCount, Patch.entryCount,
    Nat.add_eq_zero_iff, Nat.add_eq_zero_iff, Nat.add_eq_zero_iff, CanonicalSet.length_eq_zero,
    CanonicalSet.length_eq_zero, CanonicalSet.length_eq_zero, CanonicalSet.length_eq_zero, forall_and, forall_and]

/-- The delta as the layers keep it: no expected base, strict. -/
def ofPatches (axioms annotations : Patch) : OntologyDelta := { axioms, annotations }

end OntologyDelta

def combineDeltas (first second : OntologyDelta) : OntologyDelta :=
  .ofPatches (first.axioms.combine second.axioms) (first.annotations.combine second.annotations)

end OwlCore
