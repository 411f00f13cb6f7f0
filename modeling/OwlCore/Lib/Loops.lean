import Mathlib.Algebra.Ring.Nat
import Mathlib.Tactic.Common

/-!
# Loops in a monad

A loop over a list that collects its results, and a loop that folds each result
into an accumulator as it goes, are compared by what one round of them does.
-/
namespace OwlCore.Loops

open List

variable {m : Type → Type} [Monad m] [LawfulMonad m] {α β γ : Type}

variable {f : α → m β}

/-- A collecting loop whose rounds are images of other rounds is the image of the other loop. -/
theorem mapM_eq_map {g : α → m γ} {h : β → γ} {l : List α} (hround : ∀ x ∈ l, g x = h <$> f x) :
    l.mapM g = List.map h <$> l.mapM f := by
  induction l with
  | nil => simp
  | cons x l ih =>
    have hrest := ih fun y hy => hround y (mem_cons_of_mem x hy)
    rw [mapM_cons, mapM_cons, hround x mem_cons_self, hrest]
    simp

theorem foldlM_eq_map {combine : γ → β → γ} {step : γ → α → m γ} {l : List α}
    (hround : ∀ acc, ∀ x ∈ l, step acc x = combine acc <$> f x) (init : γ) :
    l.foldlM step init = List.foldl combine init <$> l.mapM f := by
  induction l generalizing init with
  | nil => simp
  | cons x l ih =>
    have hrest := ih fun acc y hy => hround acc y (mem_cons_of_mem x hy)
    rw [foldlM_cons, mapM_cons, hround init x mem_cons_self]
    simp [hrest]

theorem map_length_mapM {l : List α} (result : List β → Nat → γ) :
    (fun rs => result rs rs.length) <$> l.mapM f = (fun rs => result rs l.length) <$> l.mapM f := by
  induction l generalizing result with
  | nil => simp
  | cons x l ih =>
    rw [mapM_cons]
    simp only [map_bind, map_pure, length_cons]
    refine bind_congr fun r => ?_
    have hrest := ih fun rs n => result (r :: rs) (n + 1)
    simpa only [map_eq_pure_bind] using hrest

theorem foldl_append (init : List α) (parts : List (List α)) :
    parts.foldl (· ++ ·) init = init ++ parts.flatten := by
  induction parts generalizing init with
  | nil => simp
  | cons part parts ih => simp [ih]

theorem foldl_add (size : α → Nat) (init : Nat) (parts : List α) :
    parts.foldl (fun total part => total + size part) init = init + (parts.map size).sum := by
  induction parts generalizing init with
  | nil => simp
  | cons part parts ih =>
    rw [foldl_cons, ih, map_cons, sum_cons, Nat.add_assoc]

end OwlCore.Loops
