import Mathlib.Data.Finset.Card
import Mathlib.Logic.Relation
import OwlCore.Lib.Dictionary
import OwlCore.Lib.Fallible

/-!
# Worklists

A worklist keeps a dictionary of the keys seen so far and a stack of those still to be expanded.
If the lookups succeed inside a finite set closed under successors, the loop ends with exactly
the reachable keys.
-/
namespace OwlCore.Worklist

open Dictionary Fallible List

variable {ε κ ν : Type} [DecidableEq κ]

section

variable (next : κ → Except ε (List κ)) (value : κ → Except ε ν)

/-- The keys seen with their values, and the stack with its top first. -/
abbrev State (κ ν : Type) := List (κ × ν) × List κ

/-- One successor: entered and pushed, unless it was seen before. -/
def visit (state : State κ ν) (k : κ) : Except ε (State κ ν) :=
  if k ∈ keys state.1 then .ok state
  else do
    let v ← value k
    pure (state.1 ++ [(k, v)], k :: state.2)

/-- At most `fuel` rounds of the loop. -/
def drain : Nat → State κ ν → Except ε (State κ ν)
  | 0, state => .ok state
  | fuel + 1, state =>
    match state.2 with
    | [] => .ok state
    | k :: pending => do
      let successors ← next k
      let state ← successors.foldlM (visit value) (state.1, pending)
      drain fuel state

end

section

variable {next : κ → Except ε (List κ)} {value : κ → Except ε ν}

/-- A finite set in which the lookups succeed and which successors do not leave. -/
structure Closed (next : κ → Except ε (List κ)) (value : κ → Except ε ν) (step : κ → κ → Prop) (valueOf : κ → ν)
    (within : Finset κ) : Prop where
  next : ∀ k ∈ within, ∃ successors, next k = .ok successors ∧ ∀ k', k' ∈ successors ↔ step k k'
  value : ∀ k ∈ within, value k = .ok (valueOf k)
  step : ∀ k ∈ within, ∀ k', step k k' → k' ∈ within

structure Invariant (step : κ → κ → Prop) (valueOf : κ → ν) (within : Finset κ) (start : κ → Prop)
    (state : State κ ν) : Prop where
  entries : ∀ e ∈ state.1, e = (e.1, valueOf e.1)
  within : ∀ k ∈ keys state.1, k ∈ within
  sound : ∀ k ∈ keys state.1, ∃ a, start a ∧ Relation.ReflTransGen step a k
  started : ∀ k, start k → k ∈ keys state.1
  pending : ∀ k ∈ state.2, k ∈ keys state.1

def measure (within : Finset κ) (state : State κ ν) : Nat :=
  state.2.length + (within \ (keys state.1).toFinset).card

variable {step : κ → κ → Prop} {state : State κ ν}

theorem visit_spec (hclosed : Closed next value step valueOf within) (hinv : Invariant step valueOf within start
    state) (hk : k ∈ keys state.1) (hstep : step k k') :
    ∃ state', visit value state k' = .ok state' ∧ Invariant step valueOf within start state' ∧
      k' ∈ keys state'.1 ∧ (∀ a ∈ keys state.1, a ∈ keys state'.1) ∧
      (∀ a ∈ keys state'.1, a ∉ state'.2 → a ∈ keys state.1 ∧ a ∉ state.2) ∧
      measure within state' ≤ measure within state := by
  by_cases hseen : k' ∈ keys state.1
  · refine ⟨state, if_pos hseen, hinv, hseen, fun _ h => h, fun a ha hnot => ⟨ha, hnot⟩, le_rfl⟩
  · have hwithin := hclosed.step k (hinv.within k hk) k' hstep
    have hkeys : ∀ a, a ∈ keys (state.1 ++ [(k', valueOf k')]) ↔ a ∈ keys state.1 ∨ a = k' := by
      simp [Dictionary.keys]
    refine ⟨(state.1 ++ [(k', valueOf k')], k' :: state.2), ?_, ⟨?_, ?_, ?_, ?_, ?_⟩, ?_, ?_, ?_, ?_⟩
    · simp [visit, hseen, hclosed.value k' hwithin, bind, Except.bind, pure, Except.pure]
    · intro e he
      rcases mem_append.mp he with he | he
      · exact hinv.entries e he
      · rw [mem_singleton.mp he]
    · intro a ha
      rcases (hkeys a).mp ha with ha | rfl
      · exact hinv.within a ha
      · exact hwithin
    · intro a ha
      rcases (hkeys a).mp ha with ha | rfl
      · exact hinv.sound a ha
      · obtain ⟨b, hb, hreach⟩ := hinv.sound k hk
        exact ⟨b, hb, hreach.tail hstep⟩
    · exact fun a ha => (hkeys a).mpr (.inl (hinv.started a ha))
    · intro a ha
      rcases mem_cons.mp ha with rfl | ha
      · exact (hkeys a).mpr (.inr rfl)
      · exact (hkeys a).mpr (.inl (hinv.pending a ha))
    · exact (hkeys k').mpr (.inr rfl)
    · exact fun a ha => (hkeys a).mpr (.inl ha)
    · intro a ha hnot
      obtain ⟨hne, hnot⟩ := not_or.mp fun h => hnot (mem_cons.mpr h)
      exact ⟨((hkeys a).mp ha).resolve_right hne, hnot⟩
    · -- the pushed key was counted among those not seen
      have hless : (within \ (keys (state.1 ++ [(k', valueOf k')])).toFinset).card <
          (within \ (keys state.1).toFinset).card := by
        refine Finset.card_lt_card (Finset.ssubset_iff_of_subset ?_ |>.mpr ⟨k', ?_, ?_⟩)
        · intro a ha
          obtain ⟨haw, hak⟩ := Finset.mem_sdiff.mp ha
          refine Finset.mem_sdiff.mpr ⟨haw, fun hmem => hak ?_⟩
          exact mem_toFinset.mpr ((hkeys a).mpr (.inl (mem_toFinset.mp hmem)))
        · exact Finset.mem_sdiff.mpr ⟨hwithin, fun hmem => hseen (mem_toFinset.mp hmem)⟩
        · intro hmem
          exact (Finset.mem_sdiff.mp hmem).2 (mem_toFinset.mpr ((hkeys k').mpr (.inr rfl)))
      simp only [measure, length_cons]
      omega

theorem visits_spec (hclosed : Closed next value step valueOf within) (successors : List κ) (hsuccessors : ∀ k' ∈
    successors, step k k') : ∀ {state : State κ ν},
    Invariant step valueOf within start state → k ∈ keys state.1 →
    ∃ state', successors.foldlM (visit value) state = .ok state' ∧ Invariant step valueOf within start state' ∧
      (∀ k' ∈ successors, k' ∈ keys state'.1) ∧ (∀ a ∈ keys state.1, a ∈ keys state'.1) ∧
      (∀ a ∈ keys state'.1, a ∉ state'.2 → a ∈ keys state.1 ∧ a ∉ state.2) ∧
      measure within state' ≤ measure within state := by
  induction successors with
  | nil =>
    intro state hinv _
    exact ⟨state, rfl, hinv, by simp, fun _ h => h, fun a ha hnot => ⟨ha, hnot⟩, le_rfl⟩
  | cons k' successors ih =>
    intro state hinv hk
    obtain ⟨hk', hrest⟩ := forall_mem_cons.mp hsuccessors
    obtain ⟨middle, hvisit, hmiddle, hin, hgrows, hdone, hmeasure⟩ := visit_spec hclosed hinv hk hk'
    obtain ⟨state', hrun, hinv', hall, hgrows', hdone', hmeasure'⟩ := ih hrest hmiddle (hgrows k hk)
    refine ⟨state', ?_, hinv', ?_, fun a ha => hgrows' a (hgrows a ha), ?_, hmeasure'.trans hmeasure⟩
    · simp [foldlM_cons, hvisit, bind, Except.bind, hrun]
    · exact forall_mem_cons.mpr ⟨hgrows' k' hin, hall⟩
    · intro a ha hnot
      obtain ⟨ha, hnot⟩ := hdone' a ha hnot
      exact hdone a ha hnot

/-- The seen keys off the stack have their successors among the seen keys. -/
def Expanded (step : κ → κ → Prop) (state : State κ ν) : Prop :=
  ∀ k ∈ keys state.1, k ∉ state.2 → ∀ k', step k k' → k' ∈ keys state.1

/-- With enough rounds the loop ends, and what it has seen is what is reachable. -/
theorem drain_spec (hclosed : Closed next value step valueOf within) : ∀ (fuel : Nat) {state : State κ ν},
    measure within state ≤ fuel → Invariant step valueOf within start state → Expanded step state →
    ∃ seen, drain next value fuel state = .ok (seen, []) ∧ Invariant step valueOf within start (seen, []) ∧
      ∀ k, k ∈ keys seen ↔ ∃ a, start a ∧ Relation.ReflTransGen step a k := by
  have hend : ∀ {seen : List (κ × ν)}, Invariant step valueOf within start (seen, []) → Expanded step (seen, []) →
      ∀ k, k ∈ keys seen ↔ ∃ a, start a ∧ Relation.ReflTransGen step a k := by
    intro seen hinv hexpanded k
    refine ⟨hinv.sound k, ?_⟩
    rintro ⟨a, ha, hreach⟩
    induction hreach with
    | refl => exact hinv.started a ha
    | tail _ hstep ih => exact hexpanded _ ih (by simp) _ hstep
  intro fuel
  induction fuel with
  | zero =>
    rintro ⟨seen, pending⟩ hmeasure hinv hexpanded
    obtain rfl : pending = [] := by
      simp only [measure] at hmeasure
      exact length_eq_zero_iff.mp (by omega)
    exact ⟨seen, rfl, hinv, hend hinv hexpanded⟩
  | succ fuel ih =>
    rintro ⟨seen, pending⟩ hmeasure hinv hexpanded
    cases pending with
    | nil => exact ⟨seen, rfl, hinv, hend hinv hexpanded⟩
    | cons k pending =>
      have hk : k ∈ keys seen := hinv.pending k mem_cons_self
      obtain ⟨successors, hnext, hsuccessors⟩ := hclosed.next k (hinv.within k hk)
      have hpopped : Invariant step valueOf within start (seen, pending) :=
        ⟨hinv.entries, hinv.within, hinv.sound, hinv.started, fun a ha => hinv.pending a (mem_cons_of_mem k ha)⟩
      obtain ⟨state', hrun, hinv', hall, hgrows, hdone, hmeasure'⟩ :=
        visits_spec hclosed successors (fun k' hk' => (hsuccessors k').mp hk') hpopped hk
      have hexpanded' : Expanded step state' := by
        intro a ha hnot k' hstep
        obtain ⟨ha, hnot⟩ := hdone a ha hnot
        by_cases hak : a = k
        · subst hak
          exact hall k' ((hsuccessors k').mpr hstep)
        · exact hgrows k' (hexpanded a ha (by simpa [hak] using hnot) k' hstep)
      have hfuel : measure within state' ≤ fuel := by
        simp only [measure, length_cons] at hmeasure hmeasure' ⊢
        omega
      obtain ⟨final, hfinal, hspec⟩ := ih hfuel hinv' hexpanded'
      refine ⟨final, ?_, hspec⟩
      simp [drain, hnext, hrun, bind, Except.bind, hfinal]

end

end OwlCore.Worklist
