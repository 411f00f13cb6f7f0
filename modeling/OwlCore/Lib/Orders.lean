import Mathlib.Data.List.Perm.Basic
import Mathlib.Data.List.MinMax
import Mathlib.Data.List.Sort
import Mathlib.Data.Nat.Factorial.Basic
import Mathlib.Data.List.Forall2
import Mathlib.Algebra.BigOperators.Group.List.Basic

/-!
# Enumerated orders

All orders of a list, positions first to last, and all ways of choosing one
member from each list of a family, rightmost choice fastest. The two together
enumerate every order of a family of groups that keeps the groups apart.
-/
namespace OwlCore.Orders

open List

variable {α β : Type*}

/-- Every way of taking one entry out of a list, with the entries left behind. -/
def picks : List α → List (α × List α)
  | [] => []
  | x :: xs => (x, xs) :: (picks xs).map fun pick => (pick.1, x :: pick.2)

/-- The orders of a list of the given length, by the position of the first entry. -/
def ordersOf : Nat → List α → List (List α)
  | 0, _ => [[]]
  | n + 1, xs => (picks xs).flatMap fun pick => (ordersOf n pick.2).map (pick.1 :: ·)

def permutations (xs : List α) : List (List α) := ordersOf xs.length xs

/-- One member of each list, the last list varying fastest. -/
def product : List (List α) → List (List α)
  | [] => [[]]
  | xs :: rest => xs.flatMap fun x => (product rest).map (x :: ·)

variable {xs : List α}

theorem perm_of_mem_picks (h : pick ∈ picks xs) :
    Perm (pick.1 :: pick.2) xs := by
  induction xs generalizing pick with
  | nil => simp [picks] at h
  | cons x xs ih =>
    simp only [picks, mem_cons, mem_map] at h
    rcases h with rfl | ⟨inner, hinner, rfl⟩
    · exact Perm.refl _
    · exact (Perm.swap x inner.1 inner.2).trans ((ih hinner).cons x)

theorem exists_pick (h : x ∈ xs) : ∃ rest, (x, rest) ∈ picks xs := by
  induction xs with
  | nil => simp at h
  | cons y ys ih =>
    rcases mem_cons.mp h with rfl | hys
    · exact ⟨ys, by simp [picks]⟩
    · obtain ⟨rest, hrest⟩ := ih hys
      exact ⟨y :: rest, by simpa [picks] using Or.inr hrest⟩

@[simp] theorem length_picks (xs : List α) : (picks xs).length = xs.length := by
  induction xs with
  | nil => rfl
  | cons x xs ih => simp [picks, ih]

variable {order : List α}

theorem mem_ordersOf (hn : xs.length = n) :
    order ∈ ordersOf n xs ↔ Perm order xs := by
  induction n generalizing xs order with
  | zero =>
    rw [length_eq_zero_iff] at hn
    simp [ordersOf, hn]
  | succ n ih =>
    simp only [ordersOf, mem_flatMap, mem_map]
    constructor
    · rintro ⟨pick, hpick, rest, hrest, rfl⟩
      have hperm := perm_of_mem_picks hpick
      have hlen : pick.2.length = n := by
        have := hperm.length_eq
        simp only [length_cons] at this
        omega
      exact (((ih hlen).mp hrest).cons pick.1).trans hperm
    · intro horder
      cases order with
      | nil => simp [horder.nil_eq.symm] at hn
      | cons x order =>
        obtain ⟨rest, hrest⟩ := exists_pick (horder.subset (mem_cons_self ..))
        have hperm := perm_of_mem_picks hrest
        have hinner : Perm order rest := (horder.trans hperm.symm).cons_inv
        have hlen : rest.length = n := by
          have := hperm.length_eq
          simp only [length_cons] at this
          omega
        exact ⟨(x, rest), hrest, order, (ih hlen).mpr hinner, rfl⟩

theorem mem_permutations : order ∈ permutations xs ↔ Perm order xs :=
  mem_ordersOf rfl

theorem length_ordersOf (hn : xs.length = n) :
    (ordersOf n xs).length = n.factorial := by
  induction n generalizing xs with
  | zero => simp [ordersOf]
  | succ n ih =>
    have hinner : ∀ pick ∈ picks xs, ((ordersOf n pick.2).map (pick.1 :: ·)).length = n.factorial := by
      intro pick hpick
      have := (perm_of_mem_picks hpick).length_eq
      simp only [length_cons] at this
      rw [length_map]
      exact ih (by omega)
    rw [ordersOf, length_flatMap, map_congr_left hinner]
    simp [hn, Nat.factorial_succ]

theorem length_permutations (xs : List α) : (permutations xs).length = xs.length.factorial :=
  length_ordersOf rfl

theorem mem_product :
    chosen ∈ product choices ↔ Forall₂ (fun x xs => x ∈ xs) chosen choices := by
  induction choices generalizing chosen with
  | nil => simp [product]
  | cons xs rest ih =>
    simp only [product, mem_flatMap, mem_map, forall₂_cons_right_iff]
    constructor
    · rintro ⟨x, hx, tail, htail, rfl⟩
      exact ⟨x, tail, hx, ih.mp htail, rfl⟩
    · rintro ⟨x, tail, hx, htail, rfl⟩
      exact ⟨x, hx, tail, ih.mpr htail, rfl⟩

theorem length_product (choices : List (List α)) :
    (product choices).length = (choices.map List.length).prod := by
  induction choices with
  | nil => rfl
  | cons xs rest ih => simp [product, ih]

/-- The orders of a family of groups: each group in any order, the groups in theirs. -/
def grouped (groups : List (List α)) : List (List α) :=
  (product (groups.map permutations)).map List.flatten

variable {groups : List (List α)}

theorem mem_grouped :
    order ∈ grouped groups ↔ ∃ parts, Forall₂ Perm parts groups ∧ order = parts.flatten := by
  simp only [grouped, mem_map, mem_product, forall₂_map_right_iff, mem_permutations]
  exact exists_congr fun parts => and_congr_right fun _ => eq_comm

theorem mem_grouped_cons :
    order ∈ grouped (group :: rest) ↔ ∃ part tail, Perm part group ∧ tail ∈ grouped rest ∧ order = part ++ tail := by
  simp only [mem_grouped, forall₂_cons_right_iff]
  constructor
  · rintro ⟨_, ⟨part, parts, hpart, hparts, rfl⟩, rfl⟩
    exact ⟨part, parts.flatten, hpart, ⟨parts, hparts, rfl⟩, rfl⟩
  · rintro ⟨part, _, hpart, ⟨parts, hparts, rfl⟩, rfl⟩
    exact ⟨part :: parts, ⟨part, parts, hpart, hparts, rfl⟩, rfl⟩

theorem length_grouped (groups : List (List α)) :
    (grouped groups).length = (groups.map fun group => group.length.factorial).prod := by
  simp only [grouped, length_map, length_product, map_map]
  congr 1
  apply map_congr_left
  intro group _
  exact length_permutations group

theorem perm_flatten_of_forall₂ (h : Forall₂ Perm parts groups) : Perm parts.flatten groups.flatten := by
  induction h with
  | nil => exact Perm.refl _
  | cons hhead _ ih => exact hhead.append ih

theorem perm_of_mem_grouped (h : order ∈ grouped groups) : Perm order groups.flatten := by
  obtain ⟨parts, hparts, rfl⟩ := mem_grouped.mp h
  exact perm_flatten_of_forall₂ hparts

theorem flatten_mem_grouped (groups : List (List α)) : groups.flatten ∈ grouped groups := by
  refine mem_grouped.mpr ⟨groups, ?_, rfl⟩
  exact forall₂_same.mpr fun group _ => Perm.refl group

theorem exists_of_perm_map (h : Perm image (xs.map f)) : ∃ source, Perm source xs ∧ image = source.map f := by
  have hrel : Forall₂ (fun b a => b = f a) (xs.map f) xs := by
    rw [forall₂_map_left_iff]
    exact forall₂_same.mpr fun _ _ => rfl
  obtain ⟨source, hsource, hperm⟩ := perm_comp_forall₂ h hrel
  refine ⟨source, hperm, ?_⟩
  clear h hrel hperm
  induction hsource with
  | nil => rfl
  | cons hhead _ ih => simp [hhead, ih]

theorem mem_grouped_map (h : Forall₂ (fun image group => Perm image (group.map f)) images groups) (order : List β) :
    order ∈ grouped images ↔ ∃ source ∈ grouped groups, order = source.map f := by
  induction h generalizing order with
  | nil => simp [grouped, product]
  | @cons image group images groups himage _ ih =>
    rw [mem_grouped_cons]
    constructor
    · rintro ⟨part, tail, hpart, htail, rfl⟩
      obtain ⟨source, hsource, rfl⟩ := exists_of_perm_map (hpart.trans himage)
      obtain ⟨rest, hrest, rfl⟩ := (ih tail).mp htail
      exact ⟨source ++ rest, mem_grouped_cons.mpr ⟨source, rest, hsource, hrest, rfl⟩, by simp⟩
    · rintro ⟨_, hsource, rfl⟩
      obtain ⟨source, rest, hperm, hrest, rfl⟩ := mem_grouped_cons.mp hsource
      refine ⟨source.map f, rest.map f, (hperm.map f).trans himage.symm, ?_, by simp⟩
      exact (ih _).mpr ⟨rest, hrest, rfl⟩

section

variable {κ : Type*} [LinearOrder κ]

theorem insertionSort_eq_of_perm {xs ys : List κ} (h : Perm xs ys) :
    xs.insertionSort (· ≤ ·) = ys.insertionSort (· ≤ ·) := by
  have hperm : Perm (xs.insertionSort (· ≤ ·)) (ys.insertionSort (· ≤ ·)) :=
    (perm_insertionSort _ xs).trans (h.trans (perm_insertionSort _ ys).symm)
  exact hperm.eq_of_pairwise' (pairwise_insertionSort _ xs) (pairwise_insertionSort _ ys)

def rank (key : α → κ) (xs : List α) (x : α) : Nat := xs.countP fun y => key y < key x

variable {xs : List α} {x : α}

theorem countP_lt_countP (hle : ∀ y ∈ xs, p y → q y) (hx : x ∈ xs) (hp : p x = false) (hq : q x) :
    xs.countP p < xs.countP q := by
  obtain ⟨before, after, rfl⟩ := append_of_mem hx
  have hbefore : before.countP p ≤ before.countP q := countP_mono_left fun y hy => hle y (by simp [hy])
  have hafter : after.countP p ≤ after.countP q := countP_mono_left fun y hy => hle y (by simp [hy])
  simp only [countP_append, countP_cons, hp, hq, if_true, Bool.false_eq_true, if_false]
  omega

variable {key : α → κ}

theorem rank_lt_rank (hx : x ∈ xs) :
    rank key xs x < rank key xs y ↔ key x < key y := by
  constructor
  · intro h
    by_contra hle
    refine absurd h (Nat.not_lt.mpr (countP_mono_left fun z _ hz => ?_))
    simp only [decide_eq_true_eq] at hz ⊢
    exact lt_of_lt_of_le hz (not_lt.mp hle)
  · intro h
    refine countP_lt_countP (fun z _ hz => ?_) hx (by simp) (by simpa using h)
    simp only [decide_eq_true_eq] at hz ⊢
    exact hz.trans h

theorem rank_lt_length (hx : x ∈ xs) : rank key xs x < xs.length := by
  have h : rank key xs x < xs.countP fun _ => true := countP_lt_countP (fun _ _ _ => rfl) hx (by simp) rfl
  rwa [countP_true] at h

theorem eq_rank_of_getElem? (hkeys : (xs.map key).Nodup) (h : (xs.insertionSort fun a b => key a ≤ key b)[i]? = some
    x) :
    i = rank key xs x := by
  have hperm := perm_insertionSort (fun a b => key a ≤ key b) xs
  have hsorted := pairwise_insertionSort (fun a b => key a ≤ key b) xs
  generalize xs.insertionSort (fun a b => key a ≤ key b) = ys at h hperm hsorted
  have hstrict : ys.Pairwise fun a b => key a < key b := by
    have hnodup : ys.Pairwise fun a b => key a ≠ key b :=
      pairwise_map.mp ((hperm.map key).nodup_iff.mpr hkeys)
    exact (hsorted.and hnodup).imp fun hab => lt_of_le_of_ne hab.1 hab.2
  obtain ⟨hi, hx⟩ := List.getElem?_eq_some_iff.mp h
  have hsplit : ys = ys.take i ++ x :: ys.drop (i + 1) := by
    rw [← hx, getElem_cons_drop, take_append_drop]
  rw [hsplit, pairwise_append, pairwise_cons] at hstrict
  obtain ⟨-, ⟨hgreater, -⟩, hless⟩ := hstrict
  have hbefore : (ys.take i).countP (fun y => key y < key x) = i := by
    rw [countP_eq_length.mpr, length_take, Nat.min_eq_left hi.le]
    intro y hy
    exact decide_eq_true (hless y hy x mem_cons_self)
  have hafter : (ys.drop (i + 1)).countP (fun y => key y < key x) = 0 := by
    rw [countP_eq_zero]
    intro y hy
    simpa using (hgreater y hy).le
  calc i = (ys.take i ++ x :: ys.drop (i + 1)).countP fun y => key y < key x := by
        rw [countP_append, countP_cons, hbefore, hafter]
        simp
    _ = ys.countP fun y => key y < key x := by rw [← hsplit]
    _ = rank key xs x := hperm.countP_eq _

def firstLeast (f : α → κ) (xs : List α) : Option α := xs.argmin f

theorem exists_firstLeast (f : α → κ) (h : xs ≠ []) :
    ∃ x, firstLeast f xs = some x := by
  rwa [← Option.ne_none_iff_exists', Ne, firstLeast, argmin_eq_none]

variable {f : α → κ}

theorem mem_of_firstLeast (h : firstLeast f xs = some x) : x ∈ xs :=
  argmin_mem h

theorem firstLeast_le (h : firstLeast f xs = some x) (hy : y ∈ xs) : f x ≤ f y :=
  le_of_mem_argmin hy h

/-- The least value over two lists is the same when they take the same values. -/
theorem firstLeast_value_eq {g : β → κ} {ys : List β} {y : β}
    (hvalues : ∀ k, k ∈ xs.map f ↔ k ∈ ys.map g) (hx : firstLeast f xs = some x)
    (hy : firstLeast g ys = some y) : f x = g y := by
  have hfx : f x ∈ ys.map g := (hvalues _).mp (mem_map_of_mem (mem_of_firstLeast hx))
  have hgy : g y ∈ xs.map f := (hvalues _).mpr (mem_map_of_mem (mem_of_firstLeast hy))
  obtain ⟨y', hy', hfy'⟩ := mem_map.mp hfx
  obtain ⟨x', hx', hgx'⟩ := mem_map.mp hgy
  apply le_antisymm
  · rw [← hgx']
    exact firstLeast_le hx hx'
  · rw [← hfy']
    exact firstLeast_le hy hy'

end

end OwlCore.Orders
