import OwlCore.Lib.KeyedSet

/-!
# Merging sorted lists

Lists sorted by a key are merged by taking the least head. A value with the key last emitted or
excluded by a test is skipped. The result is strictly ascending and holds the values that are
not excluded.
-/
namespace OwlCore.KeyedSet

open List

variable {α κ : Type} [LinearOrder κ] (key : α → κ)

/-- Sorted by `key`, possibly with equal keys. -/
def Sorted (l : List α) : Prop := l.Pairwise fun a b => key a ≤ key b

/-- Take the least head; among equal keys the list with the smallest position gives way. -/
def popLeast : List (List α) → Option (α × List (List α))
  | [] => none
  | [] :: rest => (popLeast rest).map fun popped => (popped.1, [] :: popped.2)
  | (a :: l) :: rest =>
    match popLeast rest with
    | none => some (a, l :: rest)
    | some (b, rest') => if key b < key a then some (b, (a :: l) :: rest') else some (a, l :: rest)

/-- The merge after `previous` was emitted, for at most `fuel` values. -/
def mergeFrom (excluded : α → Bool) : Nat → Option κ → List (List α) → List α
  | 0, _, _ => []
  | fuel + 1, previous, lists =>
    match popLeast key lists with
    | none => []
    | some (a, rest) =>
      if some (key a) ≠ previous ∧ excluded a = false then
        a :: mergeFrom excluded fuel (some (key a)) rest
      else mergeFrom excluded fuel previous rest

/-- Merge the lists, dropping repeated keys and excluded values. -/
def merge (excluded : α → Bool) (lists : List (List α)) : List α :=
  mergeFrom key excluded lists.flatten.length none lists

variable {key}

instance total_key : Std.Total fun a b : α => key a ≤ key b := ⟨fun a b => le_total (key a) (key b)⟩

instance trans_key : IsTrans α fun a b => key a ≤ key b := ⟨fun _ _ _ => le_trans⟩

theorem Ascending.sorted (h : Ascending key l) : Sorted key l := h.imp le_of_lt

variable {lists : List (List α)}

theorem flatten_eq_nil_of_popLeast (h : popLeast key lists = none) :
    lists.flatten = [] := by
  induction lists with
  | nil => rfl
  | cons l rest ih =>
    cases l with
    | nil => simpa using ih (by simpa [popLeast] using h)
    | cons a l =>
      simp only [popLeast] at h
      split at h
      · cases h
      · split at h <;> cases h

/-- What taking the least head does to the values still to come. -/
structure Pops (key : α → κ) (lists : List (List α)) (a : α) (rest : List (List α)) : Prop where
  perm : lists.flatten.Perm (a :: rest.flatten)
  least : ∀ x ∈ rest.flatten, key a ≤ key x
  sorted : ∀ l ∈ rest, Sorted key l

theorem pops_of_popLeast (hlists : ∀ l ∈ lists, Sorted key l) (h : popLeast key lists = some (a, rest)) : Pops key lists a rest := by
  induction lists generalizing a rest with
  | nil => cases h
  | cons l lists ih =>
    have htail : ∀ l ∈ lists, Sorted key l := fun l hl => hlists l (mem_cons_of_mem _ hl)
    cases l with
    | nil =>
      simp only [popLeast, Option.map_eq_some_iff, Prod.mk.injEq] at h
      obtain ⟨⟨b, rest'⟩, hpop, rfl, rfl⟩ := h
      have hrest := ih htail hpop
      refine ⟨by simpa using hrest.perm, by simpa using hrest.least, ?_⟩
      simpa [Sorted] using hrest.sorted
    | cons b l =>
      have hb : Sorted key (b :: l) := hlists _ (mem_cons_self ..)
      obtain ⟨hbl, hl⟩ := pairwise_cons.mp hb
      simp only [popLeast] at h
      split at h
      · rename_i hpop
        obtain ⟨rfl, rfl⟩ := Prod.mk.injEq .. ▸ Option.some.inj h
        have hnil := flatten_eq_nil_of_popLeast hpop
        refine ⟨by simp, fun x hx => ?_, forall_mem_cons.mpr ⟨hl, htail⟩⟩
        rw [flatten_cons, hnil, append_nil] at hx
        exact (hbl x hx)
      · rename_i c rest' hpop
        have hrest := ih htail hpop
        have hc : ∀ x ∈ lists.flatten, key c ≤ key x := fun x hx => by
          rcases mem_cons.mp (hrest.perm.mem_iff.mp hx) with rfl | hx
          · exact le_rfl
          · exact hrest.least x hx
        split at h
        · rename_i hlt
          obtain ⟨rfl, rfl⟩ := Prod.mk.injEq .. ▸ Option.some.inj h
          refine ⟨?_, fun x hx => ?_, forall_mem_cons.mpr ⟨hb, hrest.sorted⟩⟩
          · rw [flatten_cons, flatten_cons]
            exact (hrest.perm.append_left _).trans perm_middle
          · rw [flatten_cons, mem_append] at hx
            rcases hx with hx | hx
            · rcases mem_cons.mp hx with rfl | hx
              · exact hlt.le
              · exact hlt.le.trans (hbl x hx)
            · exact hrest.least x hx
        · rename_i hge
          obtain ⟨rfl, rfl⟩ := Prod.mk.injEq .. ▸ Option.some.inj h
          refine ⟨by simp, fun x hx => ?_, forall_mem_cons.mpr ⟨hl, htail⟩⟩
          rw [flatten_cons, mem_append] at hx
          rcases hx with hx | hx
          · exact (hbl x hx)
          · exact (not_lt.mp hge).trans (hc x hx)

/-- What a merge started after `previous` gives out of `values`. -/
structure Merges (key : α → κ) (excluded : α → Bool) (previous : Option κ) (values result : List α) :
    Prop where
  ascending : Ascending key result
  mem_iff : ∀ x, x ∈ result ↔ x ∈ values ∧ excluded x = false ∧ some (key x) ≠ previous

theorem mergeFrom_merges (excluded : α → Bool) : ∀ (previous : Option κ) {lists : List (List α)},
    lists.flatten.length ≤ fuel → (∀ l ∈ lists, Sorted key l) →
    KeyInjOn key (· ∈ lists.flatten) →
    (∀ p ∈ previous, ∀ x ∈ lists.flatten, p ≤ key x) →
    Merges key excluded previous lists.flatten (mergeFrom key excluded fuel previous lists) := by
  induction fuel with
  | zero =>
    intro previous lists hfuel _ _ _
    have hnil : lists.flatten = [] := length_eq_zero_iff.mp (Nat.le_zero.mp hfuel)
    exact ⟨List.Pairwise.nil, fun x => by simp [mergeFrom, hnil]⟩
  | succ fuel ih =>
    intro previous lists hfuel hlists hinj hprevious
    simp only [mergeFrom]
    split
    · rename_i hpop
      exact ⟨List.Pairwise.nil, fun x => by simp [flatten_eq_nil_of_popLeast hpop]⟩
    · rename_i a rest hpop
      have hpops := pops_of_popLeast hlists hpop
      have hmem : ∀ x, x ∈ lists.flatten ↔ x = a ∨ x ∈ rest.flatten := fun x => by
        rw [hpops.perm.mem_iff, mem_cons]
      have hlength : rest.flatten.length ≤ fuel := by
        have := hpops.perm.length_eq
        rw [length_cons] at this
        omega
      have hrestInj : KeyInjOn key (· ∈ rest.flatten) :=
        hinj.mono fun x hx => (hmem x).mpr (.inr hx)
      split
      · rename_i hemit
        have hrest := ih (some (key a)) hlength hpops.sorted hrestInj
          (fun p hp x hx => Option.some.inj hp ▸ hpops.least x hx)
        refine ⟨pairwise_cons.mpr ⟨fun x hx => ?_, hrest.ascending⟩, fun x => ?_⟩
        · obtain ⟨hx, -, hne⟩ := (hrest.mem_iff x).mp hx
          exact lt_of_le_of_ne (hpops.least x hx) fun heq => hne (by rw [heq])
        · rw [mem_cons, hrest.mem_iff, hmem]
          constructor
          · rintro (rfl | ⟨hx, hexcluded, hne⟩)
            · exact ⟨.inl rfl, hemit.2, hemit.1⟩
            · refine ⟨.inr hx, hexcluded, fun heq => hne ?_⟩
              have hle := hprevious (key x) heq.symm a ((hmem a).mpr (.inl rfl))
              rw [le_antisymm hle (hpops.least x hx)]
          · rintro ⟨rfl | hx, hexcluded, hne⟩
            · exact .inl rfl
            · by_cases heq : key x = key a
              · exact .inl (hinj x a ((hmem x).mpr (.inr hx)) ((hmem a).mpr (.inl rfl)) heq)
              · exact .inr ⟨hx, hexcluded, fun h => heq (Option.some.inj h)⟩
      · rename_i hskip
        have hrest := ih previous hlength hpops.sorted hrestInj
          (fun p hp x hx => hprevious p hp x ((hmem x).mpr (.inr hx)))
        refine ⟨hrest.ascending, fun x => ?_⟩
        rw [hrest.mem_iff, hmem]
        constructor
        · rintro ⟨hx, hrest⟩
          exact ⟨.inr hx, hrest⟩
        · rintro ⟨rfl | hx, hexcluded, hne⟩
          · exact absurd ⟨hne, hexcluded⟩ hskip
          · exact ⟨hx, hexcluded, hne⟩

theorem ascending_merge (excluded : α → Bool)
    (hlists : ∀ l ∈ lists, Sorted key l) (hinj : KeyInjOn key (· ∈ lists.flatten)) :
    Ascending key (merge key excluded lists) :=
  (mergeFrom_merges excluded none le_rfl hlists hinj (by simp)).ascending

theorem mem_merge (excluded : α → Bool)
    (hlists : ∀ l ∈ lists, Sorted key l) (hinj : KeyInjOn key (· ∈ lists.flatten)) (x : α) :
    x ∈ merge key excluded lists ↔ x ∈ lists.flatten ∧ excluded x = false := by
  rw [merge, (mergeFrom_merges excluded none le_rfl hlists hinj (by simp)).mem_iff]
  simp

end OwlCore.KeyedSet
