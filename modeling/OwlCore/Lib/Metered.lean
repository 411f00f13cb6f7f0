import Mathlib.Algebra.Ring.Nat
import Mathlib.Tactic.Common

/-!
# Computations under a counter budget

A metered computation threads a counter of work and may fail. `Spends` describes one completely:
below the budget it returns a known result at a known cost, otherwise it fails. The rules follow
the shape of a program, one rule application per step.
-/
namespace OwlCore

abbrev Metered (ε α : Type) := StateT Nat (Except ε) α

namespace Metered

variable {ε α β : Type}

def free (x : Except ε α) : Metered ε α := fun t => x.map fun a => (a, t)

variable {t : Nat} {a : α}

theorem free_eq_ok :
    free x t = .ok (a, s) ↔ x = .ok a ∧ s = t := by
  cases x <;> simp [free, Except.map, eq_comm]

variable {m : Metered ε α}

theorem bind_eq_ok :
    (m >>= f) t = .ok r ↔ ∃ a s, m t = .ok (a, s) ∧ f a s = .ok r := by
  cases h : m t with
  | error e => simp [bind, StateT.bind, Except.bind, h]
  | ok p => simp [bind, StateT.bind, Except.bind, h, Prod.ext_iff]

theorem pure_eq_ok :
    (pure a : Metered ε α) t = .ok (b, s) ↔ a = b ∧ t = s := by
  have hrun : (pure a : Metered ε α) t = .ok (a, t) := rfl
  simp [hrun]

theorem throw_ne_ok :
    (throw e : Metered ε α) t ≠ .ok r := by
  simp [throw, throwThe, MonadExceptOf.throw, StateT.lift, bind, Except.bind]

theorem guard_eq_ok [Decidable p] :
    (if p then throw e else m) t = .ok r ↔ ¬p ∧ m t = .ok r := by
  by_cases h : p
  · simp [h, throw_ne_ok]
  · simp [h]

/-- From any count within the budget `m` returns `a` at price `cost` if `ok` holds and
the budget suffices, and fails otherwise. -/
def Spends (budget : Nat) (m : Metered ε α) (ok : Prop) (cost : Nat) (a : α) : Prop :=
  ∀ t ≤ budget, (ok ∧ t + cost ≤ budget → m t = .ok (a, t + cost)) ∧ (¬(ok ∧ t + cost ≤ budget) → ∃ e, m t = .error e)

theorem Spends.pure (a : α) : Spends budget (pure a : Metered ε α) True 0 a :=
  fun t ht => ⟨fun _ => rfl, fun h => absurd ⟨trivial, by simpa using ht⟩ h⟩

/-- A free check that fails unless `p` holds. -/
theorem Spends.check [Decidable p] (e : ε) :
    Spends budget (if p then Pure.pure () else throw e : Metered ε Unit) p 0 () := by
  intro t ht
  by_cases hp : p
  · simp only [hp, if_true]
    exact Spends.pure () t ht
  · simp only [hp, if_false]
    exact ⟨fun h => absurd h.1 (by simp), fun _ => ⟨e, rfl⟩⟩

theorem Spends.bind (hm : Spends budget m p c a) (hf : Spends budget (f a) q d b) :
    Spends budget (m >>= f) (p ∧ q) (c + d) b := by
  intro t ht
  have hrun : ∀ s, m t = .ok (a, s) → (m >>= f) t = f a s := by
    intro s hs
    simp [Bind.bind, StateT.bind, Except.bind, hs]
  have hfail : ∀ e, m t = .error e → (m >>= f) t = .error e := by
    intro e he
    simp [Bind.bind, StateT.bind, Except.bind, he]
  by_cases hfirst : p ∧ t + c ≤ budget
  · have hok := hrun _ ((hm t ht).1 hfirst)
    obtain ⟨hyes, hno⟩ := hf (t + c) hfirst.2
    rw [hok]
    refine ⟨fun h => ?_, fun h => hno fun hq => h ⟨⟨hfirst.1, hq.1⟩, by omega⟩⟩
    rw [hyes ⟨h.1.2, by omega⟩]
    simp [Nat.add_assoc]
  · obtain ⟨e, he⟩ := (hm t ht).2 hfirst
    refine ⟨fun h => absurd ⟨h.1.1, by omega⟩ hfirst, fun _ => ⟨e, hfail e he⟩⟩

theorem Spends.congr (h : Spends budget m p c a) (hpq : p ↔ q) (hcd : c = d) (hab : a = b) : Spends budget m q d b := by
  rw [← hcd, ← hab]
  intro t ht
  rw [← hpq]
  exact h t ht

theorem Spends.map (f : α → β) (hm : Spends budget m p c a) : Spends budget (f <$> m) p c (f a) := by
  rw [map_eq_pure_bind]
  exact (hm.bind (Spends.pure (f a))).congr (by simp) (by simp) rfl

theorem Spends.mapM {ok : α → Prop} {cost : α → Nat} {g : α → β} {l : List α}
    (h : ∀ x ∈ l, Spends budget (f x) (ok x) (cost x) (g x)) :
    Spends budget (l.mapM f) (∀ x ∈ l, ok x) (l.map cost).sum (l.map g) := by
  induction l with
  | nil => exact (Spends.pure []).congr (by simp) (by simp) (by simp)
  | cons x l ih =>
    rw [List.mapM_cons]
    have htail := ih fun y hy => h y (List.mem_cons_of_mem x hy)
    refine ((h x (by simp)).bind (htail.bind (Spends.pure (g x :: l.map g)))).congr ?_ ?_ ?_
    · simp
    · simp
    · simp

end Metered

end OwlCore
