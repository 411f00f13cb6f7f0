import Mathlib.Tactic.Common

/-!
# Simulation of stateful computations that may fail

`Follows rel val x y`: from related states `x` succeeds whenever `y` does, with related results
in related states. The rules go through a program construct by construct.
-/
namespace OwlCore.Simulation

variable {ε σ τ α β γ δ : Type} {rel : σ → τ → Prop} {val : α → β → Prop}

/-- Every successful run of `y` has a successful run of `x` beside it. -/
def Follows (rel : σ → τ → Prop) (val : α → β → Prop) (x : StateT σ (Except ε) α) (y : StateT τ (Except ε) β) :
    Prop :=
  ∀ s t, rel s t → ∀ b t', y t = .ok (b, t') → ∃ a s', x s = .ok (a, s') ∧ val a b ∧ rel s' t'

theorem Follows.imp {val' : α → β → Prop}
    (h : Follows rel val x y) (hval : ∀ a b, val a b → val' a b) : Follows rel val' x y := by
  intro s t hrel b t' hrun
  obtain ⟨a, s', hx, hab, hrel'⟩ := h s t hrel b t' hrun
  exact ⟨a, s', hx, hval a b hab, hrel'⟩

theorem Follows.pure (h : val a b) :
    Follows (ε := ε) rel val (Pure.pure a) (Pure.pure b) := by
  intro s t hrel b' t' hrun
  obtain ⟨rfl, rfl⟩ := Prod.mk.inj (Except.ok.inj hrun)
  exact ⟨a, s, rfl, h, hrel⟩

theorem Follows.bind (h : Follows rel val x y) (hnext : ∀ a b, val a b → Follows rel val' (f a) (g b)) :
    Follows rel val' (x >>= f) (y >>= g) := by
  intro s t hrel d t'' hrun
  change (y t >>= fun p => g p.1 p.2) = .ok (d, t'') at hrun
  cases hy : y t with
  | error e =>
    rw [hy] at hrun
    cases hrun
  | ok p =>
    rw [hy] at hrun
    obtain ⟨a, s', hx, hval, hrel'⟩ := h s t hrel p.1 p.2 hy
    obtain ⟨c, s'', hf, hval', hrel''⟩ := hnext a p.1 hval s' p.2 hrel' d t'' hrun
    refine ⟨c, s'', ?_, hval', hrel''⟩
    change (x s >>= fun p => f p.1 p.2) = .ok (c, s'')
    rw [hx]
    exact hf

theorem Follows.bind_eq {y : StateT τ (Except ε) α} {f : α → StateT σ (Except ε) γ} {g : α → StateT τ (Except ε) δ}
    (h : Follows rel Eq x y) (hnext : ∀ a, Follows rel val' (f a) (g a)) : Follows rel val' (x >>= f) (y >>= g) :=
  h.bind fun a _ hab => hab ▸ hnext a

theorem Follows.bind_map {φ : α → β} {f : α → StateT σ (Except ε) γ} {g : β → StateT τ (Except ε) δ}
    (h : Follows rel (fun a b => b = φ a) x y) (hnext : ∀ a, Follows rel val' (f a) (g (φ a))) :
    Follows rel val' (x >>= f) (y >>= g) :=
  h.bind fun a _ hab => hab ▸ hnext a

theorem Follows.throw :
    Follows rel val x (MonadExcept.throw e : StateT τ (Except ε) β) := by
  intro s t _ b t' hrun
  cases hrun

theorem Follows.ite [Decidable p] (hthen : p → Follows rel val x y) (helse : ¬p → Follows rel val x' y') :
    Follows rel val (if p then x else x') (if p then y else y') := by
  by_cases hp : p
  · rw [if_pos hp, if_pos hp]
    exact hthen hp
  · rw [if_neg hp, if_neg hp]
    exact helse hp

theorem Follows.get : Follows (ε := ε) rel rel MonadState.get MonadState.get := by
  intro s t hrel b t' hrun
  obtain ⟨rfl, rfl⟩ := Prod.mk.inj (Except.ok.inj hrun)
  exact ⟨s, s, rfl, hrel, hrel⟩

theorem Follows.modify (h : ∀ s t, rel s t → rel (f s) (g t)) :
    Follows (ε := ε) rel (fun _ _ => True) (modifyThe σ f) (modifyThe τ g) := by
  intro s t hrel b t' hrun
  obtain ⟨rfl, rfl⟩ := Prod.mk.inj (Except.ok.inj hrun)
  exact ⟨_, f s, rfl, trivial, h s t hrel⟩

/-- A computation without state beside another one that succeeds less often. -/
theorem Follows.lift {x : Except ε α} {y : Except ε β} (h : ∀ b, y = .ok b → ∃ a, x = .ok a ∧ val a b) :
    Follows rel val (StateT.lift x) (StateT.lift y) := by
  intro s t hrel b t' hrun
  cases hy : y with
  | error e =>
    rw [hy] at hrun
    cases hrun
  | ok b' =>
    rw [hy] at hrun
    obtain ⟨rfl, rfl⟩ := Prod.mk.inj (Except.ok.inj hrun)
    obtain ⟨a, hx, hval⟩ := h b' hy
    exact ⟨a, s, by rw [hx]; rfl, hval, hrel⟩

end OwlCore.Simulation
