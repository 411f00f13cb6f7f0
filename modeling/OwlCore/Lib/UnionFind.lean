import Mathlib.Data.Setoid.Basic
import Mathlib.Order.ConditionallyCompleteLattice.Basic
import Mathlib.Logic.Function.Basic
import Mathlib.Tactic.Common

/-!
# Union-find with ranks and path compression

A forest has a parent for every element, the element itself at a root, and ranks that grow along
parents, so every climb ends. Finding compresses the path it walks, and union links the root of
smaller rank below the other; both are described by what they do to the leaders.
-/
namespace OwlCore.UnionFind

open Function List

variable {α : Type} [DecidableEq α]

structure Forest (α : Type) where
  parent : α → α
  rank : α → Nat
  height : Nat
  ranked : ∀ x, parent x ≠ x → rank x < rank (parent x)
  rank_le : ∀ x, rank x ≤ height

/-- Walk up at most `n` parents. -/
def climb (parent : α → α) : Nat → α → α
  | 0, x => x
  | n + 1, x => if parent x = x then x else climb parent n (parent x)

namespace Forest

def singletons : Forest α := ⟨id, fun _ => 0, 0, by simp, by simp⟩

variable (f : Forest α)

def leader (x : α) : α := climb f.parent f.height x

theorem climb_of_root (h : f.parent x = x) (n : Nat) : climb f.parent n x = x := by
  cases n <;> simp [climb, h]

theorem climb_of_ne (h : f.parent x ≠ x) (n : Nat) :
    climb f.parent (n + 1) x = climb f.parent n (f.parent x) := by
  rw [climb, if_neg h]

theorem parent_climb (n : Nat) (x : α) (hn : f.height - f.rank x ≤ n) :
    f.parent (climb f.parent n x) = climb f.parent n x := by
  induction n generalizing x with
  | zero =>
    by_contra hroot
    have hlt := f.ranked x hroot
    have hle := f.rank_le (f.parent x)
    omega
  | succ n ih =>
    by_cases hroot : f.parent x = x
    · simp [climb, hroot]
    · have hlt := f.ranked x hroot
      simp only [climb, if_neg hroot]
      exact ih (f.parent x) (by omega)

@[simp] theorem parent_leader (x : α) : f.parent (f.leader x) = f.leader x :=
  f.parent_climb f.height x (Nat.sub_le _ _)

theorem leader_of_root (h : f.parent x = x) : f.leader x = x := f.climb_of_root h _

@[simp] theorem leader_leader (x : α) : f.leader (f.leader x) = f.leader x :=
  f.leader_of_root (f.parent_leader x)

/-- The leaders are the only assignment that is constant along parents and fixes the roots. -/
theorem leader_unique (assign : α → α) (hroot : ∀ x, f.parent x = x → assign x = x)
    (hstep : ∀ x, f.parent x ≠ x → assign (f.parent x) = assign x) (x : α) :
    f.leader x = assign x := by
  have hclimb : ∀ n x, assign (climb f.parent n x) = assign x := by
    intro n
    induction n with
    | zero => exact fun _ => rfl
    | succ n ih =>
      intro x
      by_cases hx : f.parent x = x
      · simp [climb, hx]
      · rw [climb, if_neg hx, ih, hstep x hx]
  rw [← hclimb f.height x]
  exact (hroot _ (f.parent_leader x)).symm

theorem climb_stable (h : f.parent (climb f.parent n x) = climb f.parent n x) :
    climb f.parent (n + 1) x = climb f.parent n x := by
  induction n generalizing x with
  | zero => exact f.climb_of_root h _
  | succ n ih =>
    by_cases hx : f.parent x = x
    · rw [f.climb_of_root hx, f.climb_of_root hx]
    · rw [f.climb_of_ne hx n] at h ⊢
      rw [f.climb_of_ne hx (n + 1), ih h]

theorem leader_parent (x : α) : f.leader (f.parent x) = f.leader x := by
  by_cases hx : f.parent x = x
  · rw [hx]
  · have hlt := f.ranked x hx
    have hle := f.rank_le (f.parent x)
    obtain ⟨n, hn⟩ : ∃ n, f.height = n + 1 := ⟨f.height - 1, by omega⟩
    have hdone := f.parent_climb n (f.parent x) (by omega)
    rw [leader, leader, hn, f.climb_stable hdone, f.climb_of_ne hx]

theorem rank_lt_leader (h : f.leader x ≠ x) : f.rank x < f.rank (f.leader x) := by
  have hclimb : ∀ n x, climb f.parent n x ≠ x → f.rank x < f.rank (climb f.parent n x) := by
    intro n
    induction n with
    | zero => exact fun x hx => absurd rfl hx
    | succ n ih =>
      intro x hx
      by_cases hroot : f.parent x = x
      · simp [climb, hroot] at hx
      · simp only [climb, if_neg hroot] at hx ⊢
        have hlt := f.ranked x hroot
        by_cases hnext : climb f.parent n (f.parent x) = f.parent x
        · rwa [hnext]
        · exact Nat.lt_trans hlt (ih _ hnext)
  exact hclimb f.height x h

def point (x : α) (hx : f.leader x ≠ x) : Forest α where
  parent := update f.parent x (f.leader x)
  rank := f.rank
  height := f.height
  ranked := by
    intro y hy
    by_cases hyx : y = x
    · rw [hyx, update_self]
      exact f.rank_lt_leader hx
    · rw [update_of_ne hyx] at hy ⊢
      exact f.ranked y hy
  rank_le := f.rank_le

theorem parent_point (hx : f.leader x ≠ x) :
    (f.point x hx).parent = update f.parent x (f.leader x) := rfl

theorem leader_point (hx : f.leader x ≠ x) (y : α) : (f.point x hx).leader y = f.leader y := by
  apply leader_unique (f.point x hx) f.leader
  · intro z hz
    by_cases hzx : z = x
    · rw [parent_point, hzx, update_self] at hz
      exact absurd hz hx
    · rw [parent_point, update_of_ne hzx] at hz
      exact f.leader_of_root hz
  · intro z _
    by_cases hzx : z = x
    · rw [parent_point, hzx, update_self, leader_leader]
    · rw [parent_point, update_of_ne hzx, leader_parent]

/-- The second loop of a find: hang everything on the path directly below the root. -/
def compress : Nat → Forest α → α → Forest α
  | 0, f, _ => f
  | n + 1, f, x => if hx : f.leader x ≠ x then compress n (f.point x hx) (f.parent x) else f

theorem leader_compress (n : Nat) (f : Forest α) (x y : α) :
    (compress n f x).leader y = f.leader y := by
  induction n generalizing f x with
  | zero => rfl
  | succ n ih =>
    rw [compress]
    split
    · rw [ih, leader_point]
    · rfl

def find (x : α) : α × Forest α := (f.leader x, compress f.height f x)

@[simp] theorem leader_find (x y : α) : (f.find x).2.leader y = f.leader y := leader_compress ..

/-- Link the root `below` under the root `above`, raising the rank on a tie. -/
def link (above below : α) (habove : f.parent above = above) (hne : above ≠ below)
    (hrank : f.rank below ≤ f.rank above) : Forest α where
  parent := update f.parent below above
  rank := if f.rank above = f.rank below then update f.rank above (f.rank above + 1) else f.rank
  height := f.height + 1
  ranked := by
    intro y hy
    by_cases hyb : y = below
    · rw [hyb, update_self]
      split
      · rename_i htie
        rw [update_self, update_of_ne (Ne.symm hne)]
        omega
      · omega
    · rw [update_of_ne hyb] at hy ⊢
      have hlt := f.ranked y hy
      split
      · have hya : y ≠ above := by
          rintro rfl
          exact hy habove
        rw [update_of_ne hya]
        by_cases hpa : f.parent y = above
        · rw [hpa, update_self]
          rw [hpa] at hlt
          omega
        · rwa [update_of_ne hpa]
      · exact hlt
  rank_le := by
    intro y
    have hy := f.rank_le y
    split
    · by_cases hya : y = above
      · rw [hya, update_self]
        have := f.rank_le above
        omega
      · rw [update_of_ne hya]
        omega
    · omega

theorem parent_link (habove : f.parent above = above) (hne : above ≠ below) (hrank : f.rank below ≤ f.rank above) :
    (f.link above below habove hne hrank).parent = update f.parent below above := rfl

/-- Linking one root below another moves exactly the class of the lower one. -/
theorem leader_of_relinked {g : Forest α} {above below : α} (hparent : g.parent = update f.parent below above)
    (habove : f.parent above = above) (hbelow : f.parent below = below) (hne : above ≠ below) (y : α) :
    g.leader y = if f.leader y = below then above else f.leader y := by
  apply leader_unique g fun y => if f.leader y = below then above else f.leader y
  · intro z hz
    by_cases hzb : z = below
    · rw [hparent, hzb, update_self] at hz
      exact absurd hz hne
    · rw [hparent, update_of_ne hzb] at hz
      rw [f.leader_of_root hz, if_neg hzb]
  · intro z _
    by_cases hzb : z = below
    · rw [hparent, hzb, update_self, f.leader_of_root habove, f.leader_of_root hbelow, if_neg hne, if_pos rfl]
    · rw [hparent, update_of_ne hzb, leader_parent]

theorem leader_link (habove : f.parent above = above) (hbelow : f.parent below = below) (hne : above ≠ below) (hrank :
    f.rank below ≤ f.rank above) (y : α) :
    (f.link above below habove hne hrank).leader y = if f.leader y = below then above else f.leader y :=
  f.leader_of_relinked (f.parent_link habove hne hrank) habove hbelow hne y

/-- Merge two classes: the forest, and the two leaders when they were different, the one
that stays first. -/
def union (x y : α) : Forest α × Option (α × α) :=
  let f := (f.find x).2
  let f := (f.find y).2
  if h : f.leader x = f.leader y then (f, none)
  else if hrank : f.rank (f.leader x) < f.rank (f.leader y) then
    (f.link (f.leader y) (f.leader x) (f.parent_leader y) (Ne.symm h) (Nat.le_of_lt hrank),
      some (f.leader y, f.leader x))
  else
    (f.link (f.leader x) (f.leader y) (f.parent_leader x) h (Nat.le_of_not_lt hrank), some (f.leader x, f.leader y))

/-- A union keeps all leaders, or moves one class below the leader of the other. -/
theorem union_cases (x y : α) :
    ((f.union x y).2 = none ∧ f.leader x = f.leader y ∧ ∀ z, (f.union x y).1.leader z = f.leader z) ∨
    ∃ above below, (f.union x y).2 = some (above, below) ∧ above ≠ below ∧
      (above = f.leader x ∧ below = f.leader y ∨ above = f.leader y ∧ below = f.leader x) ∧
      ∀ z, (f.union x y).1.leader z = if f.leader z = below then above else f.leader z := by
  unfold union
  have hkeep : ∀ z, ((f.find x).2.find y).2.leader z = f.leader z := by simp
  simp only [hkeep]
  split
  · rename_i heq
    exact .inl ⟨rfl, heq, hkeep⟩
  · rename_i hne
    split
    · refine .inr ⟨_, _, rfl, Ne.symm hne, .inr ⟨rfl, rfl⟩, fun z => ?_⟩
      have hroot : ∀ w, ((f.find x).2.find y).2.parent (f.leader w) = f.leader w := by
        intro w
        rw [← hkeep w, parent_leader]
      rw [leader_link _ (hroot y) (hroot x), hkeep]
    · refine .inr ⟨_, _, rfl, hne, .inl ⟨rfl, rfl⟩, fun z => ?_⟩
      have hroot : ∀ w, ((f.find x).2.find y).2.parent (f.leader w) = f.leader w := by
        intro w
        rw [← hkeep w, parent_leader]
      rw [leader_link _ (hroot x) (hroot y), hkeep]

/-- Two elements are in one class when they have one leader. -/
def classes : Setoid α := Setoid.ker f.leader

theorem classes_iff : f.classes x y ↔ f.leader x = f.leader y := Iff.rfl

theorem classes_leader (x : α) : f.classes x (f.leader x) := (f.leader_leader x).symm

/-- A forest that comes from another one by joining the classes of two elements, if they differ. -/
def Joins (f g : Forest α) (x y : α) : Prop :=
  (f.leader x = f.leader y ∧ ∀ z, g.leader z = f.leader z) ∨
    ∃ above below, (above = f.leader x ∧ below = f.leader y ∨ above = f.leader y ∧ below = f.leader x) ∧
      ∀ z, g.leader z = if f.leader z = below then above else f.leader z

theorem Joins.classes_eq (h : f.Joins g x y) :
    g.classes = f.classes ⊔ Relation.EqvGen.setoid fun u v => u = x ∧ v = y := by
  set joined := f.classes ⊔ Relation.EqvGen.setoid fun u v => u = x ∧ v = y with hjoined
  have hkeep : f.classes ≤ joined := le_sup_left
  have hpair : joined (f.leader x) (f.leader y) := by
    have hxy : joined x y := (le_sup_right : Relation.EqvGen.setoid _ ≤ joined) (.rel _ _ ⟨rfl, rfl⟩)
    exact joined.trans' (joined.symm' (hkeep (f.classes_leader x)))
      (joined.trans' hxy (hkeep (f.classes_leader y)))
  rcases h with ⟨hxy, hleader⟩ | ⟨above, below, hends, hleader⟩
  · apply le_antisymm
    · intro u v huv
      rw [classes_iff, hleader, hleader] at huv
      exact hkeep huv
    · refine sup_le (fun u v huv => ?_) (Setoid.eqvGen_le ?_)
      · rw [classes_iff, hleader, hleader]
        exact huv
      · rintro u v ⟨rfl, rfl⟩
        rw [classes_iff, hleader, hleader, hxy]
  · have hlink : joined below above := by
      rcases hends with ⟨rfl, rfl⟩ | ⟨rfl, rfl⟩
      · exact joined.symm' hpair
      · exact hpair
    have hmove : ∀ u, joined u (g.leader u) := by
      intro u
      have hu : joined u (f.leader u) := hkeep (f.classes_leader u)
      rw [hleader]
      split
      · rename_i hbelow
        rw [hbelow] at hu
        exact joined.trans' hu hlink
      · exact hu
    apply le_antisymm
    · intro u v huv
      rw [classes_iff] at huv
      have hv := hmove v
      rw [← huv] at hv
      exact joined.trans' (hmove u) (joined.symm' hv)
    · refine sup_le (fun u v huv => ?_) (Setoid.eqvGen_le ?_)
      · rw [classes_iff] at huv ⊢
        rw [hleader, hleader, huv]
      · rintro u v ⟨rfl, rfl⟩
        rw [classes_iff, hleader, hleader]
        rcases hends with ⟨rfl, rfl⟩ | ⟨rfl, rfl⟩ <;> simp

theorem classes_union (x y : α) :
    (f.union x y).1.classes = f.classes ⊔ Relation.EqvGen.setoid fun u v => u = x ∧ v = y := by
  apply Joins.classes_eq
  rcases f.union_cases x y with ⟨-, hkept⟩ | ⟨above, below, -, -, hmoved⟩
  · exact .inl hkept
  · exact .inr ⟨above, below, hmoved⟩

/-- A find that compresses one step only: the element hangs directly below its leader. -/
def hang (x : α) : Forest α := if hx : f.leader x ≠ x then f.point x hx else f

@[simp] theorem leader_hang (x y : α) : (f.hang x).leader y = f.leader y := by
  rw [hang]
  split
  · exact f.leader_point _ y
  · rfl

theorem classes_hang (x : α) : (f.hang x).classes = f.classes := by
  ext u v
  rw [classes_iff, classes_iff, leader_hang, leader_hang]

/-- Link the root `below` under the root `above` whatever their ranks; the rank of `above` grows if it must. -/
def mount (above below : α) (habove : f.parent above = above) (hne : above ≠ below) : Forest α where
  parent := update f.parent below above
  rank := update f.rank above (max (f.rank above) (f.rank below + 1))
  height := f.height + 1
  ranked := by
    intro y hy
    by_cases hyb : y = below
    · rw [hyb, update_self, update_self, update_of_ne (Ne.symm hne)]
      exact lt_of_lt_of_le (Nat.lt_succ_self _) (le_max_right _ _)
    · rw [update_of_ne hyb] at hy ⊢
      have hlt := f.ranked y hy
      have hya : y ≠ above := by
        rintro rfl
        exact hy habove
      rw [update_of_ne hya]
      by_cases hpa : f.parent y = above
      · rw [hpa, update_self]
        rw [hpa] at hlt
        exact lt_of_lt_of_le hlt (le_max_left _ _)
      · rwa [update_of_ne hpa]
  rank_le := by
    intro y
    by_cases hya : y = above
    · rw [hya, update_self]
      exact max_le (Nat.le_succ_of_le (f.rank_le above)) (Nat.succ_le_succ (f.rank_le below))
    · rw [update_of_ne hya]
      exact Nat.le_succ_of_le (f.rank_le y)

/-- Link the leader of `y` below the leader of `x`, unless it is the same. -/
def graft (x y : α) : Forest α :=
  if h : f.leader x ≠ f.leader y then f.mount (f.leader x) (f.leader y) (f.parent_leader x) h else f

theorem leader_graft (x y z : α) :
    (f.graft x y).leader z = if f.leader z = f.leader y then f.leader x else f.leader z := by
  rw [graft]
  split
  · rename_i hne
    exact f.leader_of_relinked rfl (f.parent_leader x) (f.parent_leader y) hne z
  · rename_i heq
    rw [not_not.mp heq]
    split
    · assumption
    · rfl

theorem classes_graft (x y : α) :
    (f.graft x y).classes = f.classes ⊔ Relation.EqvGen.setoid fun u v => u = x ∧ v = y :=
  Joins.classes_eq f (.inr ⟨_, _, .inl ⟨rfl, rfl⟩, f.leader_graft x y⟩)

omit [DecidableEq α] in
theorem eqvGen_sup (r s : α → α → Prop) :
    Relation.EqvGen.setoid r ⊔ Relation.EqvGen.setoid s = Relation.EqvGen.setoid fun u v => r u v ∨ s u v := by
  apply le_antisymm
  · exact sup_le (Setoid.eqvGen_mono fun _ _ h => .inl h) (Setoid.eqvGen_mono fun _ _ h => .inr h)
  · apply Setoid.eqvGen_le
    rintro u v (h | h)
    · exact (le_sup_left : Relation.EqvGen.setoid r ≤ _) (.rel _ _ h)
    · exact (le_sup_right : Relation.EqvGen.setoid s ≤ _) (.rel _ _ h)

omit [DecidableEq α] in
theorem eqvGen_star (x : α) (rest : List α) :
    (Relation.EqvGen.setoid fun u v => u = x ∧ v ∈ rest) =
      Relation.EqvGen.setoid fun u v => u ∈ x :: rest ∧ v ∈ x :: rest := by
  apply le_antisymm
  · apply Setoid.eqvGen_mono
    rintro u v ⟨rfl, hv⟩
    exact ⟨mem_cons_self, mem_cons_of_mem _ hv⟩
  · apply Setoid.eqvGen_le
    have hfirst : ∀ u ∈ x :: rest, (Relation.EqvGen.setoid fun u v => u = x ∧ v ∈ rest) x u := by
      intro u hu
      rcases mem_cons.mp hu with rfl | hu
      · exact Setoid.refl' _ _
      · exact .rel _ _ ⟨rfl, hu⟩
    rintro u v ⟨hu, hv⟩
    exact Setoid.trans' _ (Setoid.symm' _ (hfirst u hu)) (hfirst v hv)

omit [DecidableEq α] in
/-- Over a relation it does not matter which of two related elements the others are joined with. -/
theorem sup_star_congr (h : c x y) (rest : List α) :
    (c ⊔ Relation.EqvGen.setoid fun u v => u = x ∧ v ∈ rest) =
      c ⊔ Relation.EqvGen.setoid fun u v => u = y ∧ v ∈ rest := by
  have hle : ∀ {x y : α}, c x y → (Relation.EqvGen.setoid fun u v => u = x ∧ v ∈ rest) ≤
      c ⊔ Relation.EqvGen.setoid fun u v => u = y ∧ v ∈ rest := by
    intro x y h
    apply Setoid.eqvGen_le
    rintro u v ⟨rfl, hv⟩
    exact Setoid.trans' _ ((le_sup_left : c ≤ _) h)
      ((le_sup_right : Relation.EqvGen.setoid _ ≤ _) (.rel _ _ ⟨rfl, hv⟩))
  exact le_antisymm (sup_le le_sup_left (hle h)) (sup_le le_sup_left (hle (c.symm' h)))

/-- A loop whose rounds join one element with the others, one after the other. -/
theorem classes_foldl {σ : Type} {forest : σ → Forest α} {step : σ → α → σ} {x : α}
    (hstep : ∀ state v, (forest (step state v)).classes =
      (forest state).classes ⊔ Relation.EqvGen.setoid fun u w => u = x ∧ w = v) (rest : List α) (state : σ) :
    (forest (rest.foldl step state)).classes =
      (forest state).classes ⊔ Relation.EqvGen.setoid fun u w => u = x ∧ w ∈ rest := by
  induction rest generalizing state with
  | nil =>
    refine (sup_eq_left.mpr ?_).symm
    exact Setoid.eqvGen_le (by simp)
  | cons v rest ih =>
    rw [foldl_cons, ih, hstep, sup_assoc, eqvGen_sup]
    congr 2
    funext u w
    simp only [mem_cons, ← and_or_left]

end Forest

end OwlCore.UnionFind
