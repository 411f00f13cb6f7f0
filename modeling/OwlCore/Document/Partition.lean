import OwlCore.Document.Blank
import OwlCore.Anonymous.Invariance
import OwlCore.Lib.UnionFind

/-!
# Components of the blank graph

`partitionBlankGraph` threads the arcs of the roots through a union-find forest over the labels.
Its components are the connected components of the graph of all arcs, and each has exactly the
arcs that start in it.
-/
namespace OwlCore

open Function KeyedSet List UnionFind

/-- `_BlankComponent`, without the root indexes that only the telemetry reads. -/
structure BlankComponent where
  labels : List String
  arcs : List (BlankNodeArc String)
  deriving DecidableEq

/-- The local dictionaries of `_partition_blank_graph`; `labels` are the keys of `parents`. -/
structure PartitionState where
  labels : List String
  forest : Forest String
  arcs : String → List (BlankNodeArc String)
  arcCount : Nat

namespace PartitionState

def initial : PartitionState := ⟨[], Forest.singletons, fun _ => [], 0⟩

variable (maximum : Nat)

def addLabel (state : PartitionState) (label : String) : Except Error PartitionState :=
  if label ∈ state.labels then .ok state
  else do
    enforceLimit "max_terms" (state.labels.length + 1 + state.arcCount) maximum
    .ok { state with labels := state.labels ++ [label] }

/-- `union`, which also moves the arcs of the leader that goes. -/
def union (first : String) (state : PartitionState) (label : String) : PartitionState :=
  match state.forest.union first label with
  | (forest, none) => { state with forest }
  | (forest, some (above, below)) =>
    { state with
      forest
      arcs := update (update state.arcs below []) above
        (state.arcs above ++ state.arcs below) }

def appendArc (leader : String) (state : PartitionState) (arc : BlankNodeArc String) :
    Except Error PartitionState := do
  enforceLimit "max_terms" (state.labels.length + (state.arcCount + 1)) maximum
  .ok { state with
    arcs := update state.arcs leader (state.arcs leader ++ [arc])
    arcCount := state.arcCount + 1 }

/-- The loop body of `_partition_blank_graph`. -/
def addRoot (hash : Hash) (state : PartitionState) (root : Node) : Except Error PartitionState := do
  let payload ← skeleton root
  let occurrences ← blankOccurrences hash root [root.className]
  match KeyedSet.ofList id (occurrences.map Prod.fst) with
  | [] => .ok state
  | first :: rest => do
    let state ← (first :: rest).foldlM (addLabel maximum) state
    let state := rest.foldl (union first) state
    let (leader, forest) := state.forest.find first
    let arcs ← rootArcs payload occurrences
    arcs.foldlM (appendArc maximum leader) { state with forest }

/-- The grouping after the loop: one component for each leader, sorted by labels. -/
def components (state : PartitionState) : List BlankComponent :=
  let ordered := KeyedSet.ofList id state.labels
  KeyedSet.ofList BlankComponent.labels <| ordered.map fun label =>
    let leader := state.forest.leader label
    ⟨ordered.filter fun other => state.forest.leader other = leader, state.arcs leader⟩

end PartitionState

def partitionBlankGraph (hash : Hash) (limits : ParseLimits) (roots : List Node) :
    Except Error (List BlankComponent) := do
  let state ← roots.foldlM (PartitionState.addRoot limits.maxTerms hash) PartitionState.initial
  .ok state.components

section

open Fallible

theorem BlankNodeArc.build_ok {source role : String} {target : Option String} {payload : Bytes} :
    BlankNodeArc.build source role target payload = .ok arc ↔
      source ≠ "" ∧ target ≠ some "" ∧ arc.source = source ∧ arc.role = role ∧ arc.target = target ∧
        arc.payload = payload := by
  obtain ⟨s, r, t, p, hr⟩ := arc
  unfold BlankNodeArc.build
  by_cases hs : source = ""
  · simp [hs]
  · by_cases hrole : role = ""
    · simp only [if_neg hs, dif_pos hrole, reduceCtorEq, false_iff]
      rintro ⟨-, -, -, rfl, -, -⟩
      exact hr hrole
    · by_cases ht : target = some ""
      · simp [hs, hrole, ht]
      · simp only [if_neg hs, dif_neg hrole, if_neg ht, Except.ok.injEq, BlankNodeArc.mk.injEq]
        constructor
        · rintro ⟨rfl, rfl, rfl, rfl⟩
          exact ⟨hs, ht, rfl, rfl, rfl, rfl⟩
        · rintro ⟨-, -, rfl, rfl, rfl, rfl⟩
          exact ⟨rfl, rfl, rfl, rfl⟩

theorem mem_pairArcs :
    built ∈ pairArcs payload occurrences ↔ ∃ source target : Occurrence, [source, target].Sublist occurrences ∧
        built = BlankNodeArc.build source.1 (joinPath source.2 ++ "->" ++ joinPath target.2)
          (some target.1) payload := by
  induction occurrences with
  | nil => simp [pairArcs]
  | cons first rest ih =>
    simp only [pairArcs, mem_append, mem_map, ih]
    constructor
    · rintro (⟨target, htarget, rfl⟩ | ⟨source, target, hsub, rfl⟩)
      · exact ⟨first, target, by simpa using htarget, rfl⟩
      · exact ⟨source, target, hsub.cons _, rfl⟩
    · rintro ⟨source, target, hsub, rfl⟩
      rw [sublist_cons_iff] at hsub
      rcases hsub with hsub | ⟨tail, htail, hsub⟩
      · exact .inr ⟨source, target, hsub, rfl⟩
      · obtain ⟨rfl, rfl⟩ := List.cons.inj htail
        exact .inl ⟨target, by simpa using hsub, rfl⟩

theorem pair_sublist (ha : a ∈ l) (hb : b ∈ l) (hne : a ≠ b) :
    [a, b].Sublist l ∨ [b, a].Sublist l := by
  induction l with
  | nil => simp at ha
  | cons c l ih =>
    rcases mem_cons.mp ha with rfl | ha' <;> rcases mem_cons.mp hb with rfl | hb'
    · exact absurd rfl hne
    · exact .inl (by simpa using hb')
    · exact .inr (by simpa using ha')
    · exact (ih ha' hb').imp (·.cons _) (·.cons _)

variable {arcs : List (BlankNodeArc String)}

theorem mem_ends_rootArcs (h : rootArcs payload occurrences = .ok arcs) (label : String) :
    (∃ arc ∈ arcs, label ∈ arc.ends) ↔ label ∈ occurrences.map Prod.fst := by
  constructor
  · rintro ⟨arc, harc, hlabel⟩
    obtain ⟨built, hbuilt, hok⟩ := exists_of_mem_mapM h harc
    rcases mem_append.mp hbuilt with hunary | hpair
    · obtain ⟨o, ho, rfl⟩ := mem_map.mp hunary
      obtain ⟨-, -, hs, -, ht, -⟩ := BlankNodeArc.build_ok.mp hok
      have : label = o.1 := by simpa [BlankNodeArc.ends, hs, ht] using hlabel
      exact this ▸ mem_map_of_mem ho
    · obtain ⟨source, target, hsub, rfl⟩ := mem_pairArcs.mp hpair
      obtain ⟨-, -, hs, -, ht, -⟩ := BlankNodeArc.build_ok.mp hok
      have hends : label = source.1 ∨ label = target.1 := by simpa [BlankNodeArc.ends, hs, ht] using hlabel
      rcases hends with rfl | rfl <;> exact mem_map_of_mem (hsub.subset (by simp))
  · intro hlabel
    obtain ⟨o, ho, rfl⟩ := mem_map.mp hlabel
    -- the arc of the occurrence itself
    obtain ⟨arc, harc, hok⟩ := exists_of_mem_left h
      (mem_append_left _ (mem_map.mpr ⟨o, ho, rfl⟩))
    obtain ⟨-, -, hs, -⟩ := BlankNodeArc.build_ok.mp hok
    exact ⟨arc, harc, hs ▸ arc.source_mem_ends⟩

theorem exists_arc_of_labels (h : rootArcs payload occurrences = .ok arcs) {x y : String}
    (hx : x ∈ occurrences.map Prod.fst) (hy : y ∈ occurrences.map Prod.fst) (hne : x ≠ y) :
    ∃ arc ∈ arcs, x ∈ arc.ends ∧ y ∈ arc.ends := by
  obtain ⟨o, ho, rfl⟩ := mem_map.mp hx
  obtain ⟨o', ho', rfl⟩ := mem_map.mp hy
  have harc : ∀ source target : Occurrence, [source, target].Sublist occurrences →
      ∃ arc ∈ arcs, source.1 ∈ arc.ends ∧ target.1 ∈ arc.ends := by
    intro source target hsub
    have hpair : BlankNodeArc.build source.1 (joinPath source.2 ++ "->" ++ joinPath target.2)
        (some target.1) payload ∈ pairArcs payload occurrences :=
      mem_pairArcs.mpr ⟨source, target, hsub, rfl⟩
    obtain ⟨arc, harc, hok⟩ := exists_of_mem_left h (mem_append_right _ hpair)
    obtain ⟨-, -, hs, -, ht, -⟩ := BlankNodeArc.build_ok.mp hok
    exact ⟨arc, harc, hs ▸ arc.source_mem_ends, BlankNodeArc.target_mem_ends ht⟩
  rcases pair_sublist ho ho' (fun heq => hne (by rw [heq])) with hsub | hsub
  · exact harc o o' hsub
  · obtain ⟨arc, hmem, hx', hy'⟩ := harc o' o hsub
    exact ⟨arc, hmem, hy', hx'⟩

end

/-- What the loop body reads of a root: its labels in order, and its arcs. -/
def rootData (hash : Hash) (root : Node) : Except Error (List String × List (BlankNodeArc String)) := do
  let payload ← skeleton root
  let occurrences ← blankOccurrences hash root [root.className]
  let arcs ← rootArcs payload occurrences
  .ok (KeyedSet.ofList id (occurrences.map Prod.fst), arcs)

/-- The labels of a root are the ends of its arcs, and any two of them share an arc. -/
structure RootShape (data : List String × List (BlankNodeArc String)) : Prop where
  mem_labels : ∀ label, label ∈ data.1 ↔ ∃ arc ∈ data.2, label ∈ arc.ends
  linked : ∀ x ∈ data.1, ∀ y ∈ data.1, x ≠ y → ∃ arc ∈ data.2, x ∈ arc.ends ∧ y ∈ arc.ends
  ascending : Ascending id data.1

theorem rootShape_of_rootData {hash : Hash} (h : rootData hash root = .ok data) : RootShape data := by
  obtain ⟨payload, -, h⟩ := Fallible.bind_eq_ok.mp h
  obtain ⟨occurrences, -, h⟩ := Fallible.bind_eq_ok.mp h
  obtain ⟨arcs, harcs, h⟩ := Fallible.bind_eq_ok.mp h
  obtain rfl := Except.ok.inj h
  refine ⟨fun label => ?_, fun x hx y hy hne => ?_, ascending_ofList _⟩
  · rw [mem_ofList_id, mem_ends_rootArcs harcs]
  · rw [mem_ofList_id] at hx hy
    exact exists_arc_of_labels harcs hx hy hne

namespace PartitionState

def size (state : PartitionState) : Nat := state.labels.length + state.arcCount

def insertLabel (state : PartitionState) (label : String) : PartitionState :=
  if label ∈ state.labels then state else { state with labels := state.labels ++ [label] }

def pushArc (leader : String) (state : PartitionState) (arc : BlankNodeArc String) : PartitionState :=
  { state with
    arcs := update state.arcs leader (state.arcs leader ++ [arc])
    arcCount := state.arcCount + 1 }

def insertRoot (state : PartitionState) (data : List String × List (BlankNodeArc String)) :
    PartitionState :=
  match data.1 with
  | [] => state
  | first :: rest =>
    let state := (first :: rest).foldl insertLabel state
    let state := rest.foldl (union first) state
    data.2.foldl (pushArc (state.forest.leader first))
      { state with forest := (state.forest.find first).2 }

section

open Fallible

variable {maximum : Nat} {state state' : PartitionState}

theorem addLabel_ok (hsize : state.size ≤ maximum) (label : String) :
    addLabel maximum state label = .ok state' ↔
      (insertLabel state label).size ≤ maximum ∧ state' = insertLabel state label := by
  unfold addLabel insertLabel
  split
  · simp [hsize, eq_comm]
  · rw [bind_eq_ok]
    simp only [enforceLimit_ok, size, length_append, length_singleton, Except.ok.injEq]
    constructor
    · rintro ⟨-, hle, rfl⟩
      exact ⟨by omega, rfl⟩
    · rintro ⟨hle, rfl⟩
      exact ⟨(), by omega, rfl⟩

theorem size_insertLabel (state : PartitionState) (label : String) :
    state.size ≤ (insertLabel state label).size := by
  unfold insertLabel
  split
  · exact Nat.le_refl _
  · simp [size]

theorem appendArc_ok (arc : BlankNodeArc String) :
    appendArc maximum leader state arc = .ok state' ↔
      (pushArc leader state arc).size ≤ maximum ∧ state' = pushArc leader state arc := by
  unfold appendArc pushArc
  rw [bind_eq_ok]
  simp only [enforceLimit_ok, size, Except.ok.injEq]
  constructor
  · rintro ⟨-, hle, rfl⟩
    exact ⟨by omega, rfl⟩
  · rintro ⟨hle, rfl⟩
    exact ⟨(), by omega, rfl⟩

theorem size_pushArc (leader : String) (state : PartitionState) (arc : BlankNodeArc String) :
    state.size ≤ (pushArc leader state arc).size := by
  simp [size, pushArc]

@[simp] theorem labels_union (first label : String) (state : PartitionState) :
    (union first state label).labels = state.labels := by
  unfold union
  split <;> rfl

@[simp] theorem arcCount_union (first label : String) (state : PartitionState) :
    (union first state label).arcCount = state.arcCount := by
  unfold union
  split <;> rfl

@[simp] theorem labels_foldl_union (first : String) (rest : List String) (state : PartitionState) :
    (rest.foldl (union first) state).labels = state.labels := by
  induction rest generalizing state with
  | nil => rfl
  | cons label rest ih => simp [ih]

@[simp] theorem arcCount_foldl_union (first : String) (rest : List String) (state : PartitionState) :
    (rest.foldl (union first) state).arcCount = state.arcCount := by
  induction rest generalizing state with
  | nil => rfl
  | cons label rest ih => simp [ih]

theorem size_le_foldl {step : PartitionState → α → PartitionState} (hstep : ∀ s a, s.size ≤ (step s a).size) (l : List
    α) (state : PartitionState) :
    state.size ≤ (l.foldl step state).size := by
  induction l generalizing state with
  | nil => exact Nat.le_refl _
  | cons a l ih => exact Nat.le_trans (hstep state a) (ih _)

theorem size_insertRoot (state : PartitionState) (data : List String × List (BlankNodeArc String)) :
    state.size ≤ (insertRoot state data).size := by
  unfold insertRoot
  split
  · exact Nat.le_refl _
  · rename_i first rest _
    have hlabels := size_le_foldl size_insertLabel (first :: rest) state
    refine Nat.le_trans ?_ (size_le_foldl (size_pushArc _) data.2 _)
    simpa only [size, labels_foldl_union, arcCount_foldl_union] using hlabels

/-- The loop body does what it does without limits, as long as the limit is not exceeded. -/
theorem addRoot_ok {hash : Hash} (hsize : state.size ≤ maximum) (root : Node) :
    addRoot maximum hash state root = .ok state' ↔
      ∃ data, rootData hash root = .ok data ∧ (insertRoot state data).size ≤ maximum ∧
        state' = insertRoot state data := by
  have hlabels : ∀ (labels : List String) s', labels.foldlM (addLabel maximum) state = .ok s' ↔
      (labels.foldl insertLabel state).size ≤ maximum ∧ s' = labels.foldl insertLabel state :=
    fun labels s' => foldlM_guarded size_insertLabel (fun s label s' hs => addLabel_ok hs label) hsize
  have harcs : ∀ leader (arcs : List (BlankNodeArc String)) s s', s.size ≤ maximum →
      (arcs.foldlM (appendArc maximum leader) s = .ok s' ↔
        (arcs.foldl (pushArc leader) s).size ≤ maximum ∧ s' = arcs.foldl (pushArc leader) s) :=
    fun leader arcs s s' hs =>
      foldlM_guarded (size_pushArc leader) (fun s arc s' _ => appendArc_ok arc) hs
  simp only [addRoot, rootData, bind_eq_ok, Except.ok.injEq]
  constructor
  · rintro ⟨payload, hpayload, occurrences, hoccurrences, h⟩
    cases hofList : KeyedSet.ofList id (occurrences.map Prod.fst) with
    | nil =>
      have hnil : occurrences = [] := by simpa using hofList
      simp only [hofList, Except.ok.injEq] at h
      refine ⟨([], []), ⟨payload, hpayload, occurrences, hoccurrences, [], ?_, ?_⟩, hsize, h.symm⟩
      · rw [hnil]
        rfl
      · rw [hofList]
    | cons first rest =>
      simp only [hofList, bind_eq_ok] at h
      obtain ⟨s, hs, arcs, hroot, h⟩ := h
      obtain ⟨hbound, rfl⟩ := (hlabels _ _).mp hs
      refine ⟨(first :: rest, arcs), ⟨payload, hpayload, occurrences, hoccurrences, arcs, hroot, ?_⟩, ?_⟩
      · rw [hofList]
      · refine (harcs _ _ _ _ ?_).mp h
        simpa [size] using hbound
  · rintro ⟨data, ⟨payload, hpayload, occurrences, hoccurrences, arcs, hroot, rfl⟩, hbound, rfl⟩
    refine ⟨payload, hpayload, occurrences, hoccurrences, ?_⟩
    cases hofList : KeyedSet.ofList id (occurrences.map Prod.fst) with
    | nil => rfl
    | cons first rest =>
      simp only [hofList, insertRoot] at hbound ⊢
      have hmid := Nat.le_trans (size_le_foldl (size_pushArc _) _ _) hbound
      rw [bind_eq_ok]
      refine ⟨_, (hlabels _ _).mpr ⟨?_, rfl⟩, ?_⟩
      · simpa [size] using hmid
      · rw [bind_eq_ok]
        exact ⟨arcs, hroot, (harcs _ _ _ _ hmid).mpr ⟨hbound, rfl⟩⟩

theorem foldlM_addRoot_ok {hash : Hash} {roots : List Node} (hsize : state.size ≤ maximum) :
    roots.foldlM (addRoot maximum hash) state = .ok state' ↔
      ∃ datas, roots.mapM (rootData hash) = .ok datas ∧ (datas.foldl insertRoot state).size ≤ maximum ∧
        state' = datas.foldl insertRoot state := by
  induction roots generalizing state with
  | nil =>
    simp only [foldlM_nil, mapM_nil, pure, Except.pure, Except.ok.injEq]
    constructor
    · rintro rfl
      exact ⟨[], rfl, hsize, rfl⟩
    · rintro ⟨_, rfl, -, rfl⟩
      rfl
  | cons root roots ih =>
    simp only [foldlM_cons, mapM_cons, bind_eq_ok, pure, Except.pure, Except.ok.injEq]
    constructor
    · rintro ⟨s, hs, h⟩
      obtain ⟨data, hdata, hbound, rfl⟩ := (addRoot_ok hsize root).mp hs
      obtain ⟨datas, hdatas, hrest, rfl⟩ := (ih hbound).mp h
      exact ⟨data :: datas, ⟨data, hdata, datas, hdatas, rfl⟩, hrest, rfl⟩
    · rintro ⟨_, ⟨data, hdata, datas, hdatas, rfl⟩, hbound, rfl⟩
      rw [foldl_cons] at hbound
      have hmid := Nat.le_trans (size_le_foldl size_insertRoot datas _) hbound
      exact ⟨insertRoot state data, (addRoot_ok hsize root).mpr ⟨data, hdata, hmid, rfl⟩,
        (ih hmid).mpr ⟨datas, hdatas, hbound, rfl⟩⟩

end

end PartitionState

section

variable {L : Type}

def connected (arcs : List (BlankNodeArc L)) : Setoid L :=
  Relation.EqvGen.setoid fun x y => ∃ arc ∈ arcs, x ∈ arc.ends ∧ y ∈ arc.ends

theorem connected_of_mem (harc : arc ∈ arcs) (hx : x ∈ arc.ends) (hy : y ∈ arc.ends) : connected arcs x y :=
  .rel _ _ ⟨arc, harc, hx, hy⟩

theorem connected_mono (h : ∀ arc ∈ arcs, arc ∈ arcs') :
    connected arcs ≤ connected arcs' :=
  Setoid.eqvGen_mono fun _ _ ⟨arc, harc, hends⟩ => ⟨arc, h arc harc, hends⟩

theorem connected_append (arcs arcs' : List (BlankNodeArc L)) :
    connected (arcs ++ arcs') = connected arcs ⊔ connected arcs' := by
  apply le_antisymm
  · apply Setoid.eqvGen_le
    rintro x y ⟨arc, harc, hx, hy⟩
    rcases mem_append.mp harc with harc | harc
    · exact (le_sup_left : connected arcs ≤ _) (connected_of_mem harc hx hy)
    · exact (le_sup_right : connected arcs' ≤ _) (connected_of_mem harc hx hy)
  · exact sup_le (connected_mono fun _ => mem_append_left _)
      (connected_mono fun _ => mem_append_right _)

theorem connected_root (h : RootShape (first :: rest, arcs)) :
    connected arcs = Relation.EqvGen.setoid fun u v => u = first ∧ v ∈ rest := by
  apply le_antisymm
  · apply Setoid.eqvGen_le
    have hfirst : ∀ x ∈ first :: rest, (Relation.EqvGen.setoid fun u v => u = first ∧ v ∈ rest) first x := by
      intro x hx
      rcases mem_cons.mp hx with rfl | hx
      · exact Setoid.refl' _ _
      · exact .rel _ _ ⟨rfl, hx⟩
    rintro x y ⟨arc, harc, hx, hy⟩
    exact Setoid.trans' _ (Setoid.symm' _ (hfirst x ((h.mem_labels x).mpr ⟨arc, harc, hx⟩)))
      (hfirst y ((h.mem_labels y).mpr ⟨arc, harc, hy⟩))
  · apply Setoid.eqvGen_le
    rintro u v ⟨rfl, hv⟩
    have hne : u ≠ v := by
      rintro rfl
      exact (nodup_cons.mp h.ascending.nodup).1 hv
    obtain ⟨arc, harc, hu', hv'⟩ := h.linked u (.head _) v (.tail _ hv) hne
    exact connected_of_mem harc hu' hv'

end

namespace PartitionState

def HoldsArcs (state : PartitionState) (arcs : List (BlankNodeArc String)) : Prop :=
  ∀ leader, state.forest.leader leader = leader →
    (state.arcs leader).Perm (arcs.filter fun arc => state.forest.leader arc.source = leader)

structure Covers (state : PartitionState) (arcs : List (BlankNodeArc String)) : Prop where
  nodup : state.labels.Nodup
  mem_labels : ∀ label, label ∈ state.labels ↔ ∃ arc ∈ arcs, label ∈ arc.ends
  classes : state.forest.classes = connected arcs
  holdsArcs : state.HoldsArcs arcs
  arcCount : state.arcCount = arcs.length

theorem covers_initial : Covers initial [] := by
  refine ⟨by simp [initial], by simp [initial], ?_, by simp [initial, HoldsArcs], rfl⟩
  apply le_antisymm
  · intro x y hxy
    have heq : x = y := hxy
    rw [heq]
  · apply Setoid.eqvGen_le
    simp

theorem filter_append_filter_perm (l : List α) (h : ∀ a, ¬(p a ∧ q a)) :
    (l.filter p ++ l.filter q).Perm (l.filter fun a => p a || q a) := by
  induction l with
  | nil => simp
  | cons a l ih =>
    by_cases hp : p a
    · have hq : q a = false := by simpa [hp] using h a
      simp [hp, hq, ih]
    · by_cases hq : q a
      · simp only [filter_cons, hp, hq, Bool.false_or, if_true, if_false, Bool.false_eq_true]
        exact perm_middle.trans (ih.cons a)
      · simp [hp, hq, ih]

theorem classes_union (first label : String) (state : PartitionState) :
    (union first state label).forest.classes =
      state.forest.classes ⊔ Relation.EqvGen.setoid fun u v => u = first ∧ v = label := by
  rw [← Forest.classes_union]
  unfold union
  split <;> simp_all

theorem classes_foldl_union (first : String) (rest : List String) (state : PartitionState) :
    (rest.foldl (union first) state).forest.classes =
      state.forest.classes ⊔ Relation.EqvGen.setoid fun u v => u = first ∧ v ∈ rest :=
  Forest.classes_foldl (fun state label => classes_union first label state) rest state

theorem HoldsArcs.union {arcs : List (BlankNodeArc String)} (h : state.HoldsArcs arcs) (first label : String) :
    (union first state label).HoldsArcs arcs := by
  rcases state.forest.union_cases first label with
    ⟨hnone, -, hleader⟩ | ⟨above, below, hsome, hne, hends, hleader⟩
  · have hunion : PartitionState.union first state label =
        { state with forest := (state.forest.union first label).1 } := by
      unfold PartitionState.union
      split <;> simp_all
    intro leader hroot
    rw [hunion] at hroot ⊢
    simp only [hleader] at hroot ⊢
    exact h leader hroot
  · have hunion : PartitionState.union first state label = { state with
          forest := (state.forest.union first label).1
          arcs := update (update state.arcs below []) above
            (state.arcs above ++ state.arcs below) } := by
      unfold PartitionState.union
      split <;> simp_all
    have habove : state.forest.leader above = above := by
      rcases hends with ⟨rfl, -⟩ | ⟨rfl, -⟩ <;> simp
    have hbelow : state.forest.leader below = below := by
      rcases hends with ⟨-, rfl⟩ | ⟨-, rfl⟩ <;> simp
    intro leader hroot
    rw [hunion] at hroot ⊢
    simp only [hleader] at hroot ⊢
    by_cases hla : leader = above
    · subst hla
      rw [update_self]
      refine ((h leader habove).append (h below hbelow)).trans ?_
      refine (filter_append_filter_perm arcs ?_).trans ?_
      · intro arc harc
        simp only [decide_eq_true_eq] at harc
        exact hne (harc.1.symm.trans harc.2)
      · apply Perm.of_eq
        apply filter_congr
        intro arc _
        by_cases hb : state.forest.leader arc.source = below <;> simp [hb]
    · have hlb : leader ≠ below := by
        rintro rfl
        rw [if_pos hbelow] at hroot
        exact hne hroot
      rw [update_of_ne hla, update_of_ne hlb]
      have hroot' : state.forest.leader leader = leader := by
        by_cases hb : state.forest.leader leader = below
        · rw [if_pos hb] at hroot
          exact absurd hroot.symm hla
        · rwa [if_neg hb] at hroot
      refine (h leader hroot').trans (Perm.of_eq ?_)
      apply filter_congr
      intro arc _
      by_cases hb : state.forest.leader arc.source = below
      · simp [hb, Ne.symm hla, Ne.symm hlb]
      · simp [hb]

theorem HoldsArcs.foldl_union {arcs : List (BlankNodeArc String)} (h : state.HoldsArcs arcs) (first : String) (rest :
    List String) :
    (rest.foldl (PartitionState.union first) state).HoldsArcs arcs := by
  induction rest generalizing state with
  | nil => exact h
  | cons label rest ih => exact ih (h.union first label)

theorem insertLabel_eq (state : PartitionState) (label : String) :
    insertLabel state label = { state with labels := (insertLabel state label).labels } := by
  unfold insertLabel
  split <;> rfl

theorem foldl_insertLabel_eq (labels : List String) (state : PartitionState) :
    labels.foldl insertLabel state = { state with labels := (labels.foldl insertLabel state).labels } := by
  induction labels generalizing state with
  | nil => rfl
  | cons label labels ih =>
    rw [foldl_cons, ih, insertLabel_eq state label]

theorem mem_labels_insertLabel :
    l ∈ (insertLabel state label).labels ↔ l ∈ state.labels ∨ l = label := by
  unfold insertLabel
  split
  · constructor
    · exact .inl
    · rintro (h | rfl) <;> assumption
  · simp

theorem mem_labels_foldl_insertLabel {labels : List String} :
    l ∈ (labels.foldl insertLabel state).labels ↔ l ∈ state.labels ∨ l ∈ labels := by
  induction labels generalizing state with
  | nil => simp
  | cons label labels ih =>
    rw [foldl_cons, ih, mem_labels_insertLabel, mem_cons]
    tauto

theorem nodup_foldl_insertLabel {labels : List String} (h : state.labels.Nodup) :
    (labels.foldl insertLabel state).labels.Nodup := by
  induction labels generalizing state with
  | nil => exact h
  | cons label labels ih =>
    refine ih ?_
    unfold insertLabel
    split
    · exact h
    · rename_i hnew
      refine nodup_append.mpr ⟨h, by simp, ?_⟩
      rintro a ha b hb rfl
      exact hnew (mem_singleton.mp hb ▸ ha)

theorem foldl_pushArc (leader : String) (arcs : List (BlankNodeArc String)) (state : PartitionState) :
    arcs.foldl (pushArc leader) state = { state with
        arcs := update state.arcs leader (state.arcs leader ++ arcs)
        arcCount := state.arcCount + arcs.length } := by
  induction arcs generalizing state with
  | nil => simp
  | cons arc arcs ih =>
    rw [foldl_cons, ih]
    simp only [pushArc, update_self, update_idem, append_assoc, singleton_append, length_cons]
    congr 1
    omega

theorem covers_insertRoot {state : PartitionState} {arcs : List (BlankNodeArc String)} (h : state.Covers arcs) (hdata
    : RootShape data) :
    (insertRoot state data).Covers (arcs ++ data.2) := by
  obtain ⟨labels, added⟩ := data
  cases labels with
  | nil =>
    have hadded : added = [] := by
      rw [eq_nil_iff_forall_not_mem]
      intro arc harc
      have := (hdata.mem_labels arc.source).mpr ⟨arc, harc, arc.source_mem_ends⟩
      simp at this
    subst hadded
    simpa [insertRoot] using h
  | cons first rest =>
    set labelled := (first :: rest).foldl insertLabel state with hlabelled
    set merged := rest.foldl (union first) labelled with hmerged
    have hforest : labelled.forest = state.forest := by rw [hlabelled, foldl_insertLabel_eq]
    have hholds : merged.HoldsArcs arcs := by
      apply HoldsArcs.foldl_union
      have heq : labelled.HoldsArcs arcs = state.HoldsArcs arcs := by
        rw [hlabelled, foldl_insertLabel_eq]
        rfl
      rw [heq]
      exact h.holdsArcs
    have hclasses : merged.forest.classes = connected (arcs ++ added) := by
      rw [hmerged, classes_foldl_union, hforest, h.classes, connected_append, connected_root hdata]
    have hsource : ∀ arc ∈ added, merged.forest.leader arc.source = merged.forest.leader first := by
      intro arc harc
      have hlabel := (hdata.mem_labels arc.source).mpr ⟨arc, harc, arc.source_mem_ends⟩
      rw [← Forest.classes_iff, hclasses]
      by_cases heq : arc.source = first
      · rw [heq]
      · obtain ⟨link, hlink, hs, hf⟩ := hdata.linked _ hlabel first (.head _) heq
        exact connected_of_mem (mem_append_right _ hlink) hs hf
    have hinsert : insertRoot state (first :: rest, added) = { merged with
          forest := (merged.forest.find first).2
          arcs := update merged.arcs (merged.forest.leader first)
            (merged.arcs (merged.forest.leader first) ++ added)
          arcCount := merged.arcCount + added.length } := by
      simp only [insertRoot, foldl_pushArc]
      rfl
    have hleader : ∀ x, (insertRoot state (first :: rest, added)).forest.leader x = merged.forest.leader x := by
      intro x
      rw [hinsert, Forest.leader_find]
    have hlabels : (insertRoot state (first :: rest, added)).labels = labelled.labels := by
      rw [hinsert]
      simp [hmerged]
    have harcs : (insertRoot state (first :: rest, added)).arcs =
        update merged.arcs (merged.forest.leader first)
          (merged.arcs (merged.forest.leader first) ++ added) := by
      rw [hinsert]
    refine ⟨?_, ?_, ?_, ?_, ?_⟩
    · rw [hlabels]
      exact nodup_foldl_insertLabel h.nodup
    · intro label
      rw [hlabels, mem_labels_foldl_insertLabel, h.mem_labels, hdata.mem_labels]
      simp only [mem_append, or_and_right, exists_or]
    · rw [← hclasses]
      ext x y
      rw [Forest.classes_iff, Forest.classes_iff, hleader, hleader]
    · intro leader hroot
      rw [hleader] at hroot
      simp only [hleader, filter_append, harcs]
      by_cases heq : leader = merged.forest.leader first
      · have hall : added.filter (fun arc => merged.forest.leader arc.source = leader) = added := by
          rw [filter_eq_self]
          intro arc harc
          simp [hsource arc harc, heq]
        rw [hall, ← heq, update_self]
        exact (hholds leader hroot).append_right added
      · have hnone : added.filter (fun arc => merged.forest.leader arc.source = leader) = [] := by
          rw [filter_eq_nil_iff]
          intro arc harc
          simp [hsource arc harc, Ne.symm heq]
        rw [hnone, append_nil, update_of_ne heq]
        exact hholds leader hroot
    · rw [hinsert, length_append]
      have hcount : merged.arcCount = state.arcCount := by
        rw [hmerged, arcCount_foldl_union, hlabelled, foldl_insertLabel_eq]
      simp only [hcount, h.arcCount]

theorem covers_foldl_insertRoot {datas : List (List String × List (BlankNodeArc String))} (hdatas : ∀ data ∈ datas,
    RootShape data) {arcs : List (BlankNodeArc String)} (h : state.Covers arcs) :
    (datas.foldl insertRoot state).Covers (arcs ++ datas.flatMap Prod.snd) := by
  induction datas generalizing state arcs with
  | nil => simpa using h
  | cons data datas ih =>
    have hstep := covers_insertRoot h (hdatas data (.head _))
    have hrest := ih (fun d hd => hdatas d (.tail _ hd)) hstep
    simpa [append_assoc] using hrest

end PartitionState

structure IsPartition (arcs : List (BlankNodeArc String)) (components : List BlankComponent) : Prop where
  ascending : Ascending BlankComponent.labels components
  labels_ascending : ∀ c ∈ components, Ascending id c.labels
  labels_ne : ∀ c ∈ components, c.labels ≠ []
  exists_component : ∀ arc ∈ arcs, ∀ l ∈ arc.ends, ∃ c ∈ components, l ∈ c.labels
  exists_arc : ∀ c ∈ components, ∀ l ∈ c.labels, ∃ arc ∈ arcs, l ∈ arc.ends
  mem_labels : ∀ c ∈ components, ∀ x ∈ c.labels, ∀ y, y ∈ c.labels ↔ connected arcs x y
  arcs_perm : ∀ c ∈ components, c.arcs.Perm (arcs.filter fun arc => arc.source ∈ c.labels)

theorem connected_end (h : connected arcs x y) (hx : ∃ arc ∈ arcs, x ∈ arc.ends) : ∃ arc ∈ arcs, y ∈ arc.ends := by
  have hboth : ∀ {x y}, Relation.EqvGen (fun x y => ∃ arc ∈ arcs, x ∈ arc.ends ∧ y ∈ arc.ends) x y →
      ((∃ arc ∈ arcs, x ∈ arc.ends) ↔ ∃ arc ∈ arcs, y ∈ arc.ends) := by
    intro x y hxy
    induction hxy with
    | rel x y hrel =>
      obtain ⟨arc, harc, hx, hy⟩ := hrel
      exact ⟨fun _ => ⟨arc, harc, hy⟩, fun _ => ⟨arc, harc, hx⟩⟩
    | refl x => exact Iff.rfl
    | symm x y _ ih => exact ih.symm
    | trans x y z _ _ ih ih' => exact ih.trans ih'
  exact (hboth h).mp hx

theorem PartitionState.Covers.isPartition {state : PartitionState} {arcs : List (BlankNodeArc String)}
    (h : state.Covers arcs) : IsPartition arcs state.components := by
  have hlabels : ∀ l, l ∈ KeyedSet.ofList id state.labels ↔ ∃ arc ∈ arcs, l ∈ arc.ends := by
    intro l
    rw [mem_ofList_id, h.mem_labels]
  have hclass : ∀ x y, state.forest.leader x = state.forest.leader y ↔ connected arcs x y := by
    intro x y
    rw [← h.classes, UnionFind.Forest.classes_iff]
  have hcomponent : ∀ c ∈ state.components, ∃ x, (∃ arc ∈ arcs, x ∈ arc.ends) ∧
      c = ⟨(KeyedSet.ofList id state.labels).filter fun y =>
        state.forest.leader y = state.forest.leader x, state.arcs (state.forest.leader x)⟩ := by
    intro c hc
    obtain ⟨x, hx, rfl⟩ := mem_map.mp (mem_of_mem_ofList hc)
    exact ⟨x, (hlabels x).mp hx, rfl⟩
  have hmem : ∀ x, (∃ arc ∈ arcs, x ∈ arc.ends) → ∀ y, y ∈ (KeyedSet.ofList id state.labels).filter (fun y =>
        state.forest.leader y = state.forest.leader x) ↔ connected arcs x y := by
    intro x hx y
    rw [mem_filter, hlabels, decide_eq_true_eq, eq_comm, hclass]
    exact ⟨fun hy => hy.2, fun hxy => ⟨connected_end hxy hx, hxy⟩⟩
  refine ⟨ascending_ofList _, ?_, ?_, ?_, ?_, ?_, ?_⟩
  · intro c hc
    obtain ⟨x, -, rfl⟩ := hcomponent c hc
    exact (ascending_ofList _).filter _
  · intro c hc
    obtain ⟨x, hx, rfl⟩ := hcomponent c hc
    exact ne_nil_of_mem ((hmem x hx x).mpr (Setoid.refl' _ x))
  · intro arc harc l hl
    have hend : ∃ arc ∈ arcs, l ∈ arc.ends := ⟨arc, harc, hl⟩
    refine ⟨_, (mem_ofList ?_ _).mpr (mem_map_of_mem ((hlabels l).mpr hend)), (hmem l hend l).mpr (Setoid.refl' _ l)⟩
    intro c c' hc hc' heq
    obtain ⟨x, hx, rfl⟩ := mem_map.mp hc
    obtain ⟨x', hx', rfl⟩ := mem_map.mp hc'
    have hxx' := (hmem x ((hlabels x).mp hx) x).mpr (Setoid.refl' _ x)
    simp only at heq
    rw [heq, hmem x' ((hlabels x').mp hx'), ← hclass] at hxx'
    rw [hxx']
  · intro c hc l hl
    obtain ⟨x, -, rfl⟩ := hcomponent c hc
    exact (hlabels l).mp (mem_filter.mp hl).1
  · intro c hc x hx y
    obtain ⟨z, hz, rfl⟩ := hcomponent c hc
    rw [hmem z hz] at hx ⊢
    exact ⟨fun hy => Setoid.trans' _ (Setoid.symm' _ hx) hy, fun hy => Setoid.trans' _ hx hy⟩
  · intro c hc
    obtain ⟨x, hx, rfl⟩ := hcomponent c hc
    refine (h.holdsArcs _ (by simp)).trans (Perm.of_eq ?_)
    apply filter_congr
    intro arc harc
    rw [decide_eq_decide, hmem x hx, eq_comm, hclass]

/-- The number of labels and arcs that the term limit bounds. -/
def blankTerms (arcs : List (BlankNodeArc String)) : Nat := (labelSet arcs []).length + arcs.length

theorem PartitionState.Covers.size_eq {state : PartitionState} {arcs : List (BlankNodeArc String)}
    (h : state.Covers arcs) : state.size = blankTerms arcs := by
  have hperm : state.labels.Perm (labelSet arcs []) := by
    refine (perm_ext_iff_of_nodup h.nodup (nodup_labelSet _ _)).mpr fun l => ?_
    rw [h.mem_labels, mem_labelSet]
    simp
  rw [size, blankTerms, hperm.length_eq, h.arcCount]

section

variable {hash : Hash} {limits : ParseLimits} {roots : List Node} {components : List BlankComponent}

theorem covers_roots {datas : List (List String × List (BlankNodeArc String))}
    (h : roots.mapM (rootData hash) = .ok datas) :
    (datas.foldl PartitionState.insertRoot PartitionState.initial).Covers (datas.flatMap Prod.snd) := by
  have hshape : ∀ data ∈ datas, RootShape data := by
    intro data hdata
    obtain ⟨root, -, hroot⟩ := Fallible.exists_of_mem_mapM h hdata
    exact rootShape_of_rootData hroot
  simpa using PartitionState.covers_foldl_insertRoot hshape PartitionState.covers_initial

theorem partitionBlankGraph_ok (h : partitionBlankGraph hash limits roots = .ok components) :
    ∃ datas, roots.mapM (rootData hash) = .ok datas ∧ IsPartition (datas.flatMap Prod.snd) components ∧
      blankTerms (datas.flatMap Prod.snd) ≤ limits.maxTerms := by
  obtain ⟨state, hstate, h⟩ := Fallible.bind_eq_ok.mp h
  obtain rfl := Except.ok.inj h
  obtain ⟨datas, hdatas, hbound, rfl⟩ := (PartitionState.foldlM_addRoot_ok (Nat.zero_le _)).mp hstate
  have hcovers := covers_roots hdatas
  exact ⟨datas, hdatas, hcovers.isPartition, hcovers.size_eq ▸ hbound⟩

/-- The partition succeeds exactly where every root has its arcs and the labels and arcs are within the
term limit, and its components are then the connected components of the arcs. -/
theorem partitionBlankGraph_exact (hash : Hash) (limits : ParseLimits) (roots : List Node) :
    ((∃ components, partitionBlankGraph hash limits roots = .ok components) ↔ ∃ datas,
      roots.mapM (rootData hash) = .ok datas ∧ blankTerms (datas.flatMap Prod.snd) ≤ limits.maxTerms) ∧
    ∀ components datas, partitionBlankGraph hash limits roots = .ok components →
      roots.mapM (rootData hash) = .ok datas → IsPartition (datas.flatMap Prod.snd) components := by
  refine ⟨⟨?_, ?_⟩, fun components datas h hdatas => ?_⟩
  · rintro ⟨components, h⟩
    obtain ⟨datas, hdatas, -, hbound⟩ := partitionBlankGraph_ok h
    exact ⟨datas, hdatas, hbound⟩
  · rintro ⟨datas, hdatas, hbound⟩
    refine ⟨_, Fallible.bind_eq_ok.mpr ⟨_, (PartitionState.foldlM_addRoot_ok (Nat.zero_le _)).mpr
      ⟨datas, hdatas, ?_, rfl⟩, rfl⟩⟩
    rwa [(covers_roots hdatas).size_eq]
  · obtain ⟨datas', hdatas', hpartition, -⟩ := partitionBlankGraph_ok h
    rwa [Except.ok.inj (hdatas.symm.trans hdatas')]

end

end OwlCore
