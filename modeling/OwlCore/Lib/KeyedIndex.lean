import OwlCore.Lib.Merge

/-!
# Layered indexes

An index lists the items of every key, and its keys, in order. A layered index merges for each
key its own and added items with the runs below and skips excluded items. What an index holds is
a set of items, which determines all its lists.
-/
namespace OwlCore

open KeyedSet List

structure KeyedIndex (κ ι : Type) where
  keys : List κ
  iter : κ → List ι

/-- What a layered index sees of an index below it: its keys, and some runs for every key. -/
structure IndexLayer (κ ι : Type) where
  keys : List κ
  runs : κ → List (List ι)

variable {κ ι τ σ : Type} [LinearOrder τ] [LinearOrder σ]

def sortBy (order : ι → τ) (values : List ι) : List ι := values.insertionSort fun a b => order a ≤ order b

namespace IndexLayer

def ofIndex (index : KeyedIndex κ ι) : IndexLayer κ ι := ⟨index.keys, fun k => [index.iter k]⟩

/-- An index whose items and keys are moved; a direct key is looked up as it is, any other one through
the keys that are moved to it. -/
def moved [DecidableEq κ] (move : ι → ι) (moveKey : κ → κ) (direct : κ → Bool) (index : KeyedIndex κ ι) : IndexLayer κ ι where
  keys := index.keys.map moveKey
  runs := fun k =>
    if direct k then [(index.iter k).map move]
    else (index.keys.filter fun source => !direct source && decide (moveKey source = k)).map fun source => (index.iter source).map move

end IndexLayer

namespace KeyedIndex

section

variable (order : ι → τ) (keyOrder : κ → σ) (key : ι → κ)

/-- The items of a key: the sorted runs, merged without the excluded items. -/
def lookup [DecidableEq κ] (own additions : List ι) (layers : List (IndexLayer κ ι)) (excluded : ι → Bool) (k : κ) : List ι :=
  merge order excluded (([own.filter fun x => key x = k] ++ layers.flatMap (fun layer => layer.runs k) ++
    [additions.filter fun x => key x = k]).map (sortBy order))

def build [DecidableEq κ] (own additions : List ι) (layers : List (IndexLayer κ ι)) (excluded : ι → Bool) : KeyedIndex κ ι where
  keys := (merge keyOrder (fun _ => false)
    (([own.map key, additions.map key] ++ layers.map IndexLayer.keys).map (sortBy keyOrder))).filter fun k =>
      !(lookup order key own additions layers excluded k).isEmpty
  iter := lookup order key own additions layers excluded

structure Holds (index : KeyedIndex κ ι) (items : Set ι) : Prop where
  ascending : ∀ k, Ascending order (index.iter k)
  mem_iter : ∀ k x, x ∈ index.iter k ↔ x ∈ items ∧ key x = k
  keys_ascending : Ascending keyOrder index.keys
  mem_keys : ∀ k, k ∈ index.keys ↔ ∃ x ∈ items, key x = k

structure Offers (layers : List (IndexLayer κ ι)) (items : Set ι) : Prop where
  mem_runs : ∀ k x, x ∈ (layers.flatMap fun layer => layer.runs k).flatten ↔ x ∈ items ∧ key x = k
  mem_keys : ∀ k, k ∈ layers.flatMap IndexLayer.keys ↔ ∃ x ∈ items, key x = k

end

section

variable {order : ι → τ} {keyOrder : κ → σ} {key : ι → κ} {index : KeyedIndex κ ι} {items : Set ι}

theorem sorted_sortBy (values : List ι) : Sorted order (sortBy order values) := pairwise_insertionSort _ _

theorem sortBy_perm (order : ι → τ) (values : List ι) : (sortBy order values).Perm values :=
  perm_insertionSort _ _

@[simp] theorem mem_sortBy : x ∈ sortBy order values ↔ x ∈ values :=
  (sortBy_perm order values).mem_iff

theorem sortBy_eq_of_perm (h : values.Perm values') (hinj : KeyInjOn order (· ∈ values)) :
    sortBy order values = sortBy order values' := by
  have hperm : (sortBy order values).Perm (sortBy order values') :=
    (sortBy_perm _ _).trans (h.trans (sortBy_perm _ _).symm)
  refine hperm.eq_of_pairwise (fun a b ha hb hab hba => ?_) (sorted_sortBy _) (sorted_sortBy _)
  exact hinj a b (mem_sortBy.mp ha) (h.mem_iff.mpr (mem_sortBy.mp hb)) (le_antisymm hab hba)

theorem mem_flatten_sortBy {runs : List (List ι)} {x : ι} :
    x ∈ (runs.map (sortBy order)).flatten ↔ ∃ run ∈ runs, x ∈ run := by
  simp only [mem_flatten, mem_map, exists_exists_and_eq_and, mem_sortBy]

theorem sorted_of_mem_map_sortBy {runs : List (List ι)} : ∀ run ∈ runs.map (sortBy order), Sorted order run := by
  intro run hrun
  obtain ⟨_, -, rfl⟩ := mem_map.mp hrun
  exact sorted_sortBy _

theorem Holds.ext (h : Holds order keyOrder key index items) (h' : Holds order keyOrder key other items) : index = other := by
  obtain ⟨keys, iter⟩ := index
  obtain ⟨keys', iter'⟩ := other
  have hkeys : keys = keys' := h.keys_ascending.ext h'.keys_ascending fun k => by
    rw [h.mem_keys k, h'.mem_keys k]
  have hiter : iter = iter' := funext fun k => (h.ascending k).ext (h'.ascending k) fun x => by
    rw [h.mem_iter k x, h'.mem_iter k x]
  rw [hkeys, hiter]

theorem Holds.eq_iff (h : Holds order keyOrder key index items) (h' : Holds order keyOrder key other items') :
    index = other ↔ items = items' := by
  constructor
  · rintro rfl
    ext x
    have hx := h.mem_iter (key x) x
    rw [h'.mem_iter] at hx
    simpa using hx.symm
  · rintro rfl
    exact h.ext h'

theorem offers_nil : Offers key ([] : List (IndexLayer κ ι)) ∅ := ⟨by simp, by simp⟩

theorem Holds.offers (h : Holds order keyOrder key index items) : Offers key [.ofIndex index] items := by
  refine ⟨fun k x => ?_, fun k => ?_⟩
  · simpa [IndexLayer.ofIndex] using h.mem_iter k x
  · simpa [IndexLayer.ofIndex] using h.mem_keys k

theorem Holds.offers_moved [DecidableEq κ] (h : Holds order keyOrder key index items) (hkey : ∀ x ∈ items, key (move
    x) = moveKey (key x)) (hkind : ∀ x ∈ items, direct (moveKey (key x)) = direct (key x)) (hself : ∀ x ∈ items,
    direct (key x) = true → moveKey (key x) = key x) :
    Offers key [.moved move moveKey direct index] (Set.image move items) := by
  have hruns : ∀ k x, x ∈ ((IndexLayer.moved move moveKey direct index).runs k).flatten ↔
      ∃ y ∈ items, moveKey (key y) = k ∧ move y = x := by
    intro k x
    simp only [IndexLayer.moved]
    split
    · rename_i hk
      simp only [flatten_cons, flatten_nil, append_nil, mem_map, h.mem_iter]
      constructor
      · rintro ⟨y, ⟨hy, rfl⟩, rfl⟩
        exact ⟨y, hy, hself y hy hk, rfl⟩
      · rintro ⟨y, hy, rfl, rfl⟩
        exact ⟨y, ⟨hy, (hself y hy (hkind y hy ▸ hk)).symm⟩, rfl⟩
    · rename_i hk
      simp only [mem_flatten, mem_map, mem_filter, Bool.and_eq_true, decide_eq_true_eq]
      constructor
      · rintro ⟨_, ⟨source, ⟨-, -, hsource⟩, rfl⟩, hx⟩
        obtain ⟨y, hy, rfl⟩ := mem_map.mp hx
        obtain ⟨hitem, rfl⟩ := (h.mem_iter source y).mp hy
        exact ⟨y, hitem, hsource, rfl⟩
      · rintro ⟨y, hy, rfl, rfl⟩
        have hcandidate : (!direct (key y)) = true := by
          rw [← hkind y hy]
          simpa using hk
        exact ⟨_, ⟨key y, ⟨(h.mem_keys _).mpr ⟨y, hy, rfl⟩, hcandidate, rfl⟩, rfl⟩,
          mem_map_of_mem ((h.mem_iter _ y).mpr ⟨hy, rfl⟩)⟩
  refine ⟨fun k x => ?_, fun k => ?_⟩
  · rw [flatMap_singleton, hruns]
    constructor
    · rintro ⟨y, hy, hyk, rfl⟩
      exact ⟨⟨y, hy, rfl⟩, (hkey y hy).trans hyk⟩
    · rintro ⟨⟨y, hy, rfl⟩, hyk⟩
      exact ⟨y, hy, (hkey y hy).symm.trans hyk, rfl⟩
  · simp only [flatMap_singleton, IndexLayer.moved, mem_map, h.mem_keys]
    constructor
    · rintro ⟨_, ⟨y, hy, rfl⟩, rfl⟩
      exact ⟨move y, ⟨y, hy, rfl⟩, hkey y hy⟩
    · rintro ⟨_, ⟨y, hy, rfl⟩, rfl⟩
      exact ⟨key y, ⟨y, hy, rfl⟩, (hkey y hy).symm⟩

theorem offers_map (members : List α) (layer : α → IndexLayer κ ι) (held : α → Set ι) (h : ∀ m ∈ members, Offers key
    [layer m] (held m)) :
    Offers key (members.map layer) {x | ∃ m ∈ members, x ∈ held m} := by
  refine ⟨fun k x => ?_, fun k => ?_⟩
  · have hmember : ∀ m ∈ members, (∃ run ∈ (layer m).runs k, x ∈ run) ↔ x ∈ held m ∧ key x = k := by
      intro m hm
      rw [← (h m hm).mem_runs k x]
      simp
    simp only [mem_flatten, mem_flatMap, mem_map, Set.mem_ofPred_eq]
    constructor
    · rintro ⟨run, ⟨_, ⟨m, hm, rfl⟩, hrun⟩, hx⟩
      obtain ⟨hheld, hk⟩ := (hmember m hm).mp ⟨run, hrun, hx⟩
      exact ⟨⟨m, hm, hheld⟩, hk⟩
    · rintro ⟨⟨m, hm, hheld⟩, hk⟩
      obtain ⟨run, hrun, hx⟩ := (hmember m hm).mpr ⟨hheld, hk⟩
      exact ⟨run, ⟨_, ⟨m, hm, rfl⟩, hrun⟩, hx⟩
  · have hmember : ∀ m ∈ members, k ∈ (layer m).keys ↔ ∃ x ∈ held m, key x = k := by
      intro m hm
      rw [← (h m hm).mem_keys k]
      simp
    simp only [mem_flatMap, mem_map, Set.mem_ofPred_eq]
    constructor
    · rintro ⟨_, ⟨m, hm, rfl⟩, hk⟩
      obtain ⟨x, hx, hxk⟩ := (hmember m hm).mp hk
      exact ⟨x, ⟨m, hm, hx⟩, hxk⟩
    · rintro ⟨x, ⟨m, hm, hx⟩, hxk⟩
      exact ⟨_, ⟨m, hm, rfl⟩, (hmember m hm).mpr ⟨x, hx, hxk⟩⟩

/-- The layered index holds what its layers offer and what was added, without the excluded items. -/
theorem holds_build [DecidableEq κ] {own additions : List ι} {layers : List (IndexLayer κ ι)}
    {excluded : ι → Bool} {below : Set ι} (hlayers : Offers key layers below)
    (hinj : KeyInjOn order fun x => x ∈ own ∨ x ∈ below ∨ x ∈ additions)
    (hkeys : KeyInjOn keyOrder fun k => ∃ x, (x ∈ own ∨ x ∈ below ∨ x ∈ additions) ∧ key x = k) :
    Holds order keyOrder key (build order keyOrder key own additions layers excluded)
      {x | (x ∈ own ∨ x ∈ below ∨ x ∈ additions) ∧ excluded x = false} := by
  have hmem : ∀ k x, x ∈ (([own.filter fun x => key x = k] ++ layers.flatMap (fun layer => layer.runs k) ++
      [additions.filter fun x => key x = k]).map (sortBy order)).flatten ↔
      (x ∈ own ∨ x ∈ below ∨ x ∈ additions) ∧ key x = k := by
    intro k x
    have hruns := hlayers.mem_runs k x
    rw [mem_flatten] at hruns
    simp only [mem_flatten_sortBy, mem_append, mem_singleton, or_and_right, exists_or, exists_eq_left,
      mem_filter, decide_eq_true_eq, hruns, or_assoc]
  have hmerged := fun k => hinj.mono fun x hx => ((hmem k x).mp hx).1
  have hiter : ∀ k x, x ∈ lookup order key own additions layers excluded k ↔
      ((x ∈ own ∨ x ∈ below ∨ x ∈ additions) ∧ excluded x = false) ∧ key x = k := by
    intro k x
    rw [lookup, mem_merge _ sorted_of_mem_map_sortBy (hmerged k), hmem]
    tauto
  have hall : ∀ k, k ∈ (([own.map key, additions.map key] ++ layers.map IndexLayer.keys).map
      (sortBy keyOrder)).flatten ↔ ∃ x, (x ∈ own ∨ x ∈ below ∨ x ∈ additions) ∧ key x = k := by
    intro k
    have hlayer := hlayers.mem_keys k
    rw [mem_flatMap] at hlayer
    simp only [mem_flatten_sortBy, cons_append, nil_append, exists_mem_cons_iff, mem_map,
      or_and_right, exists_or, exists_exists_and_eq_and, hlayer]
    exact or_congr_right or_comm
  have hkeysInj := hkeys.mono fun k hk => (hall k).mp hk
  constructor
  · exact fun k => ascending_merge _ sorted_of_mem_map_sortBy (hmerged k)
  · exact hiter
  · exact (ascending_merge _ sorted_of_mem_map_sortBy hkeysInj).filter _
  · intro k
    rw [build, mem_filter, mem_merge _ sorted_of_mem_map_sortBy hkeysInj, hall]
    simp only [Bool.not_eq_true', isEmpty_eq_false_iff_exists_mem, hiter]
    constructor
    · rintro ⟨-, x, hx, rfl⟩
      exact ⟨x, hx, rfl⟩
    · rintro ⟨x, hx, rfl⟩
      exact ⟨⟨⟨x, hx.1, rfl⟩, trivial⟩, x, hx, rfl⟩

end

end KeyedIndex

end OwlCore
