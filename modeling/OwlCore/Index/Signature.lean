import OwlCore.Index.Entities
import OwlCore.View.Compose
import OwlCore.View.History

/-!
# Layered signature views

A signature view of a snapshot counts the entities of all roots; over layers it keeps the views
below and a table of adjustments. `counted` is the bag of roots that the counts stand for. It
covers the enumerated roots, and the view is exact as long as its surplus adds no entity.
-/
namespace OwlCore

open Face Fallible KeyedSet List

/-- `SignatureOptions`, without the scope. -/
structure SignatureOptions where
  kind : Option EntityKind := none
  declaredOnly : Bool := false
  includeBuiltins : Bool := true
  includeAnnotationOnly : Bool := true

/-- The closure, or what each snapshot enumerates for the root or a document scope. -/
inductive AxiomScope where
  | closure
  | selected (roots : Snapshot → List Node) (constructible : ∀ s, ∀ n ∈ roots s, Constructible n)

/-- A signature view: its counts and the tables its candidates come from. -/
structure SignatureView where
  count : SignatureMode → Node → Int
  material : List Node
  adjusted : List Node
  inherited : List (List Node)

/-- The sum of the amounts of the edited roots that contribute the entity. -/
def tally (edits : List (Node × Int)) (mode : SignatureMode) (entity : Node) : Int :=
  (edits.map fun edit => if entity ∈ contribution edit.1 mode then edit.2 else 0).sum

def tableKeys (roots : List Node) : List Node :=
  roots.flatMap (contribution · .referenced) ++ roots.flatMap (contribution · .nonannotations) ++
    roots.flatMap (contribution · .declared)

namespace SignatureView

def allCandidates (view : SignatureView) : List Node :=
  view.material ++ view.adjusted ++ view.inherited.flatten

def ofRoots (roots : List Node) : SignatureView where
  count := fun mode entity => max 0 (tally (roots.map (·, 1)) mode entity)
  material := tableKeys roots
  adjusted := []
  inherited := []

def layered (sources : List SignatureView) (edits : List (Node × Int)) : SignatureView where
  count := fun mode entity => max 0 ((sources.map fun source => source.count mode entity).sum +
    tally edits mode entity)
  material := []
  adjusted := tableKeys (edits.map Prod.fst)
  inherited := sources.map allCandidates

variable (isBuiltin : Node → Bool) (options : SignatureOptions) (view : SignatureView)

def mode : SignatureMode :=
  if options.declaredOnly then .declared
  else if options.includeAnnotationOnly then .referenced else .nonannotations

def selected (entity : Node) : Bool :=
  !(options.kind.any fun kind => entity.kind? ≠ some kind) &&
    (options.includeBuiltins || !isBuiltin entity) && decide (0 < view.count (mode options) entity)

/-- `iter`: the sorted candidate tables merged, then filtered. -/
def iter : List Node :=
  let candidates := view.material :: (view.inherited ++ [view.adjusted])
  let sorted := candidates.map fun values => values.insertionSort fun a b => entityKey a ≤ entityKey b
  (KeyedSet.merge entityKey (fun _ => false) sorted).filter (selected isBuiltin options view)

end SignatureView

def overlayEdits (delta : OntologyDelta) : List (Node × Int) :=
  delta.axioms.add.items.map (·, 1) ++ delta.axioms.remove.items.map (·, -1) ++
    delta.annotations.add.items.map (·, 1) ++ delta.annotations.remove.items.map (·, -1)

section

variable (hash : Hash)

def movedValues (sources : List Face) (values : Face → List Node) : List Node :=
  sources.zipIdx.flatMap fun source =>
    (values source.1).map (scopeValue hash (sources.map Face.sourceScopes) source.2)

/-- How many enumerated values of the sources are moved to a removed value. -/
def matchCount (sources : List Face) (values : Face → List Node) (removed : Node) : Nat :=
  (movedValues hash sources values).count removed

/-- The edits of a composite: a removal is made once for every match. -/
def compositeEdits (sources : List Face) (delta : OntologyDelta) : List (Node × Int) :=
  delta.axioms.add.items.map (·, 1) ++ delta.annotations.add.items.map (·, 1) ++
    (delta.axioms.remove.items.flatMap fun removed =>
      List.replicate (matchCount hash sources Face.axioms removed) (removed, -1)) ++
    delta.annotations.remove.items.flatMap fun removed =>
      List.replicate (matchCount hash sources Face.annotations removed) (removed, -1)

/-- What composites raise for another scope than the closure. -/
def closureOnly : Error := .valueError "composite views support CLOSURE scope only"

def enumeratedRoots (scope : AxiomScope) : View → Except Error (List Node)
  | .snapshot value => match scope with
    | .closure => .ok (Face.ofSnapshot hash value).roots
    | .selected roots _ => .ok (roots value)
  | .overlay base delta => match scope with
    | .closure => .ok ((View.overlay base delta).face hash).roots
    | .selected _ _ => enumeratedRoots scope base
  | .composite sources delta => match scope with
    | .closure => .ok ((View.composite sources delta).face hash).roots
    | .selected _ _ => .error closureOnly

mutual

/-- `SignatureView._build`. -/
def buildSignature (scope : AxiomScope) : View → Except Error SignatureView
  | .snapshot value => match scope with
    | .closure => .ok (.ofRoots (Face.ofSnapshot hash value).roots)
    | .selected roots _ => .ok (.ofRoots (roots value))
  | .overlay base delta => do
    let source ← buildSignature scope base
    match scope with
    | .closure => .ok (.layered [source] (overlayEdits delta))
    | .selected _ _ => .ok (.layered [source] [])
  | .composite sources delta => match scope with
    | .closure => do
      let views ← buildSignatures .closure sources
      .ok (.layered views (compositeEdits hash (View.faces hash sources) delta))
    | .selected _ _ => .error closureOnly

def buildSignatures (scope : AxiomScope) : List View → Except Error (List SignatureView)
  | [] => .ok []
  | view :: rest => do
    let first ← buildSignature scope view
    let others ← buildSignatures scope rest
    .ok (first :: others)

end

end

structure Bag where
  annotations : List Node
  axioms : List Node
  extensions : List Node

namespace Bag

def roots (bag : Bag) : List Node := bag.annotations ++ bag.axioms ++ bag.extensions

variable (hash : Hash)

/-- The additions of a delta come once, each removal takes one occurrence away. -/
def overlay (base : Bag) (delta : OntologyDelta) : Bag where
  annotations := (base.annotations ++ delta.annotations.add.items).diff delta.annotations.remove.items
  axioms := (base.axioms ++ delta.axioms.add.items).diff delta.axioms.remove.items
  extensions := base.extensions

def moved (faces : List Face) (bags : List Bag) (values : Bag → List Node) : List Node :=
  bags.zipIdx.flatMap fun bag => (values bag.1).map (scopeValue hash (faces.map Face.sourceScopes) bag.2)

def removals (faces : List Face) (values : Face → List Node) (removed : List Node) : List Node :=
  removed.flatMap fun item => List.replicate (matchCount hash faces values item) item

def composite (faces : List Face) (bags : List Bag) (delta : OntologyDelta) : Bag where
  annotations := (moved hash faces bags Bag.annotations ++ delta.annotations.add.items).diff
    (removals hash faces Face.annotations delta.annotations.remove.items)
  axioms := (moved hash faces bags Bag.axioms ++ delta.axioms.add.items).diff
    (removals hash faces Face.axioms delta.axioms.remove.items)
  extensions := moved hash faces bags Bag.extensions

end Bag

section

variable (hash : Hash)

mutual

/-- The roots that the layered counts stand for, with multiplicity. -/
def counted : View → Bag
  | .snapshot value => ⟨value.annotations.items, value.axioms.items, value.extensions.items⟩
  | .overlay base delta => .overlay (counted base) delta
  | .composite sources delta => .composite hash (View.faces hash sources) (countedAll sources) delta

def countedAll : List View → List Bag
  | [] => []
  | view :: rest => counted view :: countedAll rest

end

theorem countedAll_eq_map (views : List View) : countedAll hash views = views.map (counted hash) := by
  induction views with
  | nil => rfl
  | cons view rest ih => rw [countedAll, ih, map_cons]

end

section

variable {mode : SignatureMode} {entity : Node}

def contributors (mode : SignatureMode) (entity : Node) (roots : List Node) : Nat :=
  roots.countP fun root => entity ∈ contribution root mode

@[simp] theorem contributors_nil : contributors mode entity [] = 0 := rfl

@[simp] theorem contributors_append (l l' : List Node) :
    contributors mode entity (l ++ l') = contributors mode entity l + contributors mode entity l' :=
  countP_append

theorem contributors_pos {roots : List Node} :
    0 < contributors mode entity roots ↔ ∃ root ∈ roots, entity ∈ contribution root mode := by
  simp [contributors, countP_pos_iff]

@[simp] theorem tally_nil : tally [] mode entity = 0 := rfl

@[simp] theorem tally_append (l l' : List (Node × Int)) :
    tally (l ++ l') mode entity = tally l mode entity + tally l' mode entity := by
  simp [tally]

@[simp] theorem tally_map (roots : List Node) (amount : Int) :
    tally (roots.map (·, amount)) mode entity = amount * contributors mode entity roots := by
  induction roots with
  | nil => simp [tally]
  | cons root roots ih =>
    have hcons : tally ((root :: roots).map (·, amount)) mode entity =
        (if entity ∈ contribution root mode then amount else 0) + tally (roots.map (·, amount)) mode entity := by
      simp [tally]
    rw [hcons, ih, contributors, contributors, countP_cons]
    by_cases h : entity ∈ contribution root mode <;> simp [h, Int.mul_add, add_comm]

theorem flatMap_replicate_pair (removed : List Node) (count : Node → Nat) (amount : Int) :
    (removed.flatMap fun item => List.replicate (count item) (item, amount)) =
      (removed.flatMap fun item => List.replicate (count item) item).map (·, amount) := by
  simp [map_flatMap]

theorem contributors_diff (mode : SignatureMode) (entity : Node) (h : r.Subperm l) :
    contributors mode entity (l.diff r) + contributors mode entity r = contributors mode entity l := by
  have hperm := subperm_append_diff_self_of_count_le (subperm_ext_iff.mp h)
  have hcount := hperm.countP_eq fun root => decide (entity ∈ contribution root mode)
  rw [countP_append] at hcount
  simp only [contributors]
  omega

end

section

variable {hash : Hash} {mode : SignatureMode} {entity : Node} {sources : List View}

theorem scopeValue_plain {scopes : List SourceScopes} (h : n.Plain) :
    (scopeValue hash scopes index n).Plain := h.mapAnonymous

theorem contributors_map_scopeValue {scopes : List SourceScopes} {roots : List Node} (h : ∀ n ∈ roots, n.Plain) :
    contributors mode entity (roots.map (scopeValue hash scopes index)) = contributors mode entity roots := by
  rw [contributors, countP_map]
  apply countP_congr
  intro n hn
  simp only [Function.comp_apply, decide_eq_true_eq]
  exact mem_contribution_mapAnonymous (h n hn)

theorem subperm_flatMap {l : List α} {f g : α → List β} (h : ∀ a ∈ l, (f a).Subperm (g a)) :
    (l.flatMap f).Subperm (l.flatMap g) := by
  induction l with
  | nil => exact nil_subperm
  | cons a l ih =>
    rw [flatMap_cons, flatMap_cons]
    have hrest := ih fun b hb => h b (mem_cons_of_mem _ hb)
    exact ((subperm_append_right _).mpr (h a (mem_cons_self ..))).trans
      ((subperm_append_left _).mpr hrest)

theorem count_flatMap_replicate {removed : List Node} (count : Node → Nat) (hremoved : removed.Nodup) (hx : x ∈
    removed) : (removed.flatMap fun item => List.replicate (count item) item).count x = count x := by
  induction removed with
  | nil => cases hx
  | cons item rest ih =>
    obtain ⟨hitem, hrest⟩ := nodup_cons.mp hremoved
    rw [flatMap_cons, count_append]
    rcases mem_cons.mp hx with rfl | hx
    · have hzero : (rest.flatMap fun item => List.replicate (count item) item).count x = 0 := by
        rw [count_eq_zero]
        intro hmem
        obtain ⟨other, hother, hmem⟩ := mem_flatMap.mp hmem
        exact hitem (eq_of_mem_replicate hmem ▸ hother)
      rw [hzero, count_replicate_self, Nat.add_zero]
    · have hne : item ≠ x := fun h => hitem (h ▸ hx)
      rw [ih hrest hx, count_replicate, if_neg (by simpa using hne), Nat.zero_add]

theorem removals_subperm {faces : List Face} (hremoved : removed.Nodup) (hmoved : (movedValues hash faces
    values).Subperm moved) :
    (Bag.removals hash faces values removed).Subperm moved := by
  rw [subperm_ext_iff]
  intro x hx
  have hx' : x ∈ removed := by
    obtain ⟨item, hitem, hx⟩ := mem_flatMap.mp hx
    exact eq_of_mem_replicate hx ▸ hitem
  have hcount : (Bag.removals hash faces values removed).count x = matchCount hash faces values x :=
    count_flatMap_replicate _ hremoved hx'
  rw [hcount]
  exact hmoved.count_le x

theorem movedValues_eq (values : Face → List Node) : movedValues hash (sources.map (View.face hash)) values =
    sources.zipIdx.flatMap fun source => (values (source.1.face hash)).map
      (scopeValue hash ((sources.map (View.face hash)).map Face.sourceScopes) source.2) := by
  rw [movedValues, zipIdx_map, flatMap_map]
  rfl

theorem moved_eq (values : Bag → List Node) :
    Bag.moved hash (sources.map (View.face hash)) (sources.map (counted hash)) values =
    sources.zipIdx.flatMap fun source => (values (counted hash source.1)).map
      (scopeValue hash ((sources.map (View.face hash)).map Face.sourceScopes) source.2) := by
  rw [Bag.moved, zipIdx_map, flatMap_map]
  rfl

theorem mem_moved :
    n ∈ Bag.moved hash (sources.map (View.face hash)) (sources.map (counted hash)) values ↔
    ∃ (i : Nat) (source : View), sources[i]? = some source ∧ ∃ r ∈ values (counted hash source),
      scopeValue hash ((sources.map (View.face hash)).map Face.sourceScopes) i r = n := by
  rw [moved_eq]
  simp only [mem_flatMap, mem_map, Prod.exists, mem_zipIdx_iff_getElem?]
  constructor
  · rintro ⟨source, i, h, hn⟩
    exact ⟨i, source, h, hn⟩
  · rintro ⟨i, source, h, hn⟩
    exact ⟨source, i, h, hn⟩

theorem contributors_moved (mode : SignatureMode) (entity : Node) {values : Bag → List Node}
    (h : ∀ source ∈ sources, ∀ n ∈ values (counted hash source), n.Plain) :
    contributors mode entity (Bag.moved hash (sources.map (View.face hash)) (sources.map (counted hash)) values) =
      (sources.map fun source => contributors mode entity (values (counted hash source))).sum := by
  rw [moved_eq, contributors, countP_flatMap]
  have hmap : sources.map (fun source => contributors mode entity (values (counted hash source))) =
      sources.zipIdx.map fun source => contributors mode entity (values (counted hash source.1)) := by
    conv_lhs => rw [← zipIdx_map_fst 0 sources, map_map]
    rfl
  rw [hmap]
  congr 1
  apply map_congr_left
  intro source hsource
  exact contributors_map_scopeValue (h source.1 (fst_mem_of_mem_zipIdx hsource))

end

section

variable {hash : Hash} {view : View}

structure Covers (hash : Hash) (view : View) : Prop where
  plain : ∀ n ∈ (counted hash view).roots, n.Plain
  annotations : ∀ n ∈ (view.face hash).annotations, n ∈ (counted hash view).annotations
  axioms : ∀ n ∈ (view.face hash).axioms, n ∈ (counted hash view).axioms
  extensions : ∀ n ∈ (view.face hash).extensions, n ∈ (counted hash view).extensions

variable {n : Node}

theorem Bag.mem_roots {bag : Bag} :
    n ∈ bag.roots ↔ n ∈ bag.annotations ∨ n ∈ bag.axioms ∨ n ∈ bag.extensions := by
  simp [Bag.roots]

theorem CanonicalSet.plain (s : CanonicalSet) : ∀ n ∈ s, n.Plain := fun n hn => (s.constructible n hn).plain

theorem covers_snapshot (value : Snapshot) : Covers hash (.snapshot value) where
  plain := by
    intro n hn
    rcases Bag.mem_roots.mp hn with hn | hn | hn
    · exact value.annotations.plain n hn
    · exact value.axioms.plain n hn
    · exact value.extensions.plain n hn
  annotations := fun _ => id
  axioms := fun _ => id
  extensions := fun _ => id

variable {removed : List Node}

theorem mem_diff_of_apply {patch : Patch} (hn : n ∈ patch.apply s) (hs : ∀ n ∈ s, n ∈ l) (hremoved : ∀ n ∈ removed, n
    ∈ patch.remove) :
    n ∈ (l ++ patch.add.items).diff removed := by
  apply mem_diff_of_mem
  · rcases hn with hn | ⟨hn, -⟩
    · exact mem_append_right l hn
    · exact mem_append_left _ (hs n hn)
  · intro hmem
    rcases hn with hn | ⟨-, hn⟩
    · exact patch.disjoint n hn (hremoved n hmem)
    · exact hn (hremoved n hmem)

theorem plain_of_mem_diff {added : CanonicalSet} (hn : n ∈ (l ++ added.items).diff removed) (hl : ∀ n ∈ l, n.Plain) : n.Plain := by
  rcases mem_append.mp (diff_subset _ _ hn) with hn | hn
  · exact hl n hn
  · exact added.plain n hn

theorem Covers.overlay {base : View} {delta : OntologyDelta} (h : Covers hash base)
    (hbase : (base.face hash).Sound) (haxioms : delta.axioms.Fits {n | n ∈ (base.face hash).axioms}) :
    Covers hash (.overlay base delta) := by
  have hexposes : ((View.overlay base delta).face hash).Exposes _ _ := hbase.exposes.overlay hash haxioms
  constructor
  · intro n hn
    rcases Bag.mem_roots.mp hn with hn | hn | hn
    · exact plain_of_mem_diff hn fun n hn => h.plain n (Bag.mem_roots.mpr (.inl hn))
    · exact plain_of_mem_diff hn fun n hn => h.plain n (Bag.mem_roots.mpr (.inr (.inl hn)))
    · exact h.plain n (Bag.mem_roots.mpr (.inr (.inr hn)))
  · exact fun n hn => mem_diff_of_apply ((hexposes.annotations.mem_iff n).mp hn) h.annotations fun _ => id
  · exact fun n hn => mem_diff_of_apply ((hexposes.axioms.mem_iff n).mp hn) h.axioms fun _ => id
  · exact h.extensions

theorem mem_of_mem_removals (h : n ∈ Bag.removals hash faces values removed) : n ∈ removed := by
  obtain ⟨item, hitem, hn⟩ := mem_flatMap.mp h
  exact eq_of_mem_replicate hn ▸ hitem

theorem counted_composite (sources : List View) (delta : OntologyDelta) :
    counted hash (.composite sources delta) =
      .composite hash (sources.map (View.face hash)) (sources.map (counted hash)) delta := by
  rw [counted, View.faces_eq_map, countedAll_eq_map]

theorem Covers.composite {sources : List View} {delta : OntologyDelta} (h : ∀ v ∈ sources, Covers hash v)
    (hsound : ∀ v ∈ sources, (v.face hash).Sound) : Covers hash (.composite sources delta) := by
  have hfaces : ∀ source ∈ sources.map (View.face hash), source.Sound := by
    intro source hsource
    obtain ⟨v, hv, rfl⟩ := mem_map.mp hsource
    exact hsound v hv
  have hexposes : (Face.composite hash (sources.map (View.face hash)) delta).Exposes _ _ :=
    exposes_composite hfaces delta
  have hmoved : ∀ {values : Bag → List Node}, (∀ bag n, n ∈ values bag → n ∈ bag.roots) →
      ∀ n ∈ Bag.moved hash (sources.map (View.face hash)) (sources.map (counted hash)) values, n.Plain := by
    intro values hvalues n hn
    obtain ⟨i, source, hi, r, hr, rfl⟩ := mem_moved.mp hn
    exact scopeValue_plain ((h source (mem_of_getElem? hi)).plain r (hvalues _ r hr))
  have hlift : ∀ {values : Face → List Node} {bagValues : Bag → List Node},
      (∀ v ∈ sources, ∀ n ∈ values (v.face hash), n ∈ bagValues (counted hash v)) →
      ∀ {n : Node}, (∃ (i : Nat) (source : Face), (sources.map (View.face hash))[i]? = some source ∧
        ∃ r ∈ values source, scopeValue hash ((sources.map (View.face hash)).map Face.sourceScopes) i r = n) →
      n ∈ Bag.moved hash (sources.map (View.face hash)) (sources.map (counted hash)) bagValues := by
    intro values bagValues hvalues n hn
    obtain ⟨i, source, hi, r, hr, hmove⟩ := hn
    rw [getElem?_map, Option.map_eq_some_iff] at hi
    obtain ⟨v, hv, rfl⟩ := hi
    exact mem_moved.mpr ⟨i, v, hv, r, hvalues v (mem_of_getElem? hv) r hr, hmove⟩
  constructor
  · rw [counted_composite]
    intro n hn
    rcases Bag.mem_roots.mp hn with hn | hn | hn
    · exact plain_of_mem_diff hn (hmoved fun _ _ hn => Bag.mem_roots.mpr (.inl hn))
    · exact plain_of_mem_diff hn (hmoved fun _ _ hn => Bag.mem_roots.mpr (.inr (.inl hn)))
    · exact hmoved (fun _ _ hn => Bag.mem_roots.mpr (.inr (.inr hn))) n hn
  · rw [counted_composite, View.face_composite]
    exact fun n hn => mem_diff_of_apply ((hexposes.annotations.mem_iff n).mp hn)
      (fun n hn => hlift (fun v hv => (h v hv).annotations) (mem_memberAnnotations.mp hn))
      fun _ => mem_of_mem_removals
  · rw [counted_composite, View.face_composite]
    exact fun n hn => mem_diff_of_apply ((hexposes.axioms.mem_iff n).mp hn)
      (fun n hn => hlift (fun v hv => (h v hv).axioms) (mem_memberLists.mp hn))
      fun _ => mem_of_mem_removals
  · rw [counted_composite, View.face_composite]
    exact fun n hn => hlift (fun v hv => (h v hv).extensions)
      (mem_memberLists.mp (((enumerates_compositeExtensions hfaces).mem_iff n).mp hn))

theorem View.Layered.covers (h : view.Layered hash) : Covers hash view := by
  induction h with
  | snapshot value => exact covers_snapshot value
  | overlay layered axioms annotations ih => exact ih.overlay layered.sound axioms
  | composite layered axioms annotations ih => exact Covers.composite ih fun v hv => (layered v hv).sound

end

section

variable {hash : Hash} {view : View} {mode : SignatureMode} {entity : Node}

structure SignatureView.Counts (index : SignatureView) (roots : List Node) : Prop where
  count : ∀ mode entity, index.count mode entity = contributors mode entity roots
  candidates : ∀ mode entity, ∀ n ∈ roots, entity ∈ contribution n mode → entity ∈ index.allCandidates
  entities : ∀ entity ∈ index.allCandidates, entity.IsEntity

variable {roots : List Node}

theorem mem_tableKeys :
    entity ∈ tableKeys roots ↔ ∃ n ∈ roots, ∃ mode, entity ∈ contribution n mode := by
  simp only [tableKeys, mem_append, mem_flatMap]
  constructor
  · rintro ((⟨n, hn, h⟩ | ⟨n, hn, h⟩) | ⟨n, hn, h⟩) <;> exact ⟨n, hn, _, h⟩
  · rintro ⟨n, hn, mode, h⟩
    cases mode with
    | referenced => exact .inl (.inl ⟨n, hn, h⟩)
    | nonannotations => exact .inl (.inr ⟨n, hn, h⟩)
    | declared => exact .inr ⟨n, hn, h⟩

theorem isEntity_of_mem_tableKeys (h : ∀ n ∈ roots, n.Plain) (he : entity ∈ tableKeys roots) :
    entity.IsEntity := by
  obtain ⟨n, hn, mode, he⟩ := mem_tableKeys.mp he
  exact (h n hn).isEntity_of_mem_contribution he

theorem SignatureView.counts_ofRoots (h : ∀ n ∈ roots, n.Plain) :
    (SignatureView.ofRoots roots).Counts roots where
  count := by
    intro mode entity
    simp [SignatureView.ofRoots]
  candidates := by
    intro mode entity n hn he
    simp only [SignatureView.allCandidates, SignatureView.ofRoots, append_nil, flatten_nil]
    exact mem_tableKeys.mpr ⟨n, hn, mode, he⟩
  entities := by
    intro entity he
    simp only [SignatureView.allCandidates, SignatureView.ofRoots, append_nil, flatten_nil] at he
    exact isEntity_of_mem_tableKeys h he

theorem SignatureView.counts_layered (hcount : ∀ mode entity, (sources.map fun source => source.count mode entity).sum
    + tally edits mode entity = contributors mode entity roots) (hroots : ∀ n ∈ roots, (∃ edit ∈ edits, edit.1 = n) ∨
    ∃ source ∈ sources, ∀ mode, ∀ entity ∈ contribution n mode, entity ∈ source.allCandidates) (hedits : ∀ edit ∈
    edits, edit.1.Plain) (hsources : ∀ source ∈ sources, ∀ entity ∈ source.allCandidates, entity.IsEntity) :
    (SignatureView.layered sources edits).Counts roots where
  count := by
    intro mode entity
    simp [SignatureView.layered, hcount]
  candidates := by
    intro mode entity n hn he
    simp only [SignatureView.allCandidates, SignatureView.layered, nil_append, mem_append]
    rcases hroots n hn with ⟨edit, hedit, rfl⟩ | ⟨source, hsource, hcandidates⟩
    · exact .inl (mem_tableKeys.mpr ⟨edit.1, mem_map_of_mem hedit, mode, he⟩)
    · exact .inr (mem_flatten_of_mem (mem_map_of_mem hsource) (hcandidates mode entity he))
  entities := by
    intro entity he
    simp only [SignatureView.allCandidates, SignatureView.layered, nil_append, mem_append, mem_flatten, mem_map] at he
    rcases he with he | ⟨_, ⟨source, hsource, rfl⟩, he⟩
    · refine isEntity_of_mem_tableKeys (fun n hn => ?_) he
      obtain ⟨edit, hedit, rfl⟩ := mem_map.mp hn
      exact hedits edit hedit
    · exact hsources source hsource entity he

theorem plain_of_mem_map {s : CanonicalSet} (h : edit ∈ s.items.map (·, amount)) : edit.1.Plain := by
  obtain ⟨n, hn, rfl⟩ := mem_map.mp h
  exact s.plain n hn

theorem SignatureView.Counts.overlay {base : View} (h : index.Counts (counted hash base).roots) (hcovers : Covers hash
    base) (haxioms : delta.axioms.Fits {n | n ∈ (base.face hash).axioms}) (hannotations : delta.annotations.Fits {n |
    n ∈ (base.face hash).annotations}) :
    (SignatureView.layered [index] (overlayEdits delta)).Counts (counted hash (.overlay base delta)).roots := by
  have hsub : ∀ {l : List Node} {patch : Patch}, (∀ n ∈ patch.remove, n ∈ l) →
      patch.remove.items.Subperm (l ++ patch.add.items) := fun hl =>
    subperm_of_subset (CanonicalSet.ascending _).nodup fun n hn => mem_append_left _ (hl n hn)
  have hA := hsub fun n hn => hcovers.axioms n (haxioms.remove n hn)
  have hN := hsub fun n hn => hcovers.annotations n (hannotations.remove n hn)
  apply SignatureView.counts_layered
  · intro mode entity
    have hA := contributors_diff mode entity hA
    have hN := contributors_diff mode entity hN
    simp only [contributors_append] at hA hN
    simp only [map_cons, map_nil, sum_cons, sum_nil, h.count, overlayEdits, tally_append,
      tally_map, counted, Bag.overlay, Bag.roots, contributors_append]
    omega
  · intro n hn
    have hbase : ∀ n ∈ (counted hash base).roots, ∃ source ∈ [index], ∀ mode, ∀ entity ∈ contribution n mode,
        entity ∈ source.allCandidates := fun n hn =>
      ⟨index, mem_singleton_self index, fun mode entity he => h.candidates mode entity n hn he⟩
    have hpart : ∀ {l removed : List Node} {added : CanonicalSet}, (∀ n ∈ l, n ∈ (counted hash base).roots) →
        (∀ n ∈ added, (n, 1) ∈ overlayEdits delta) → n ∈ (l ++ added.items).diff removed →
        (∃ edit ∈ overlayEdits delta, edit.1 = n) ∨ ∃ source ∈ [index], ∀ mode, ∀ entity ∈ contribution n mode,
          entity ∈ source.allCandidates := by
      intro l removed added hl hadded hmem
      rcases mem_append.mp (diff_subset _ _ hmem) with hmem | hmem
      · exact .inr (hbase n (hl n hmem))
      · exact .inl ⟨(n, 1), hadded n hmem, rfl⟩
    rcases Bag.mem_roots.mp hn with hn | hn | hn
    · refine hpart (fun n hn => Bag.mem_roots.mpr (.inl hn)) (fun n hn => ?_) hn
      simp only [overlayEdits, mem_append]
      exact .inl (.inr (mem_map_of_mem hn))
    · refine hpart (fun n hn => Bag.mem_roots.mpr (.inr (.inl hn))) (fun n hn => ?_) hn
      simp only [overlayEdits, mem_append]
      exact .inl (.inl (.inl (mem_map_of_mem hn)))
    · exact .inr (hbase n (Bag.mem_roots.mpr (.inr (.inr hn))))
  · intro edit hedit
    simp only [overlayEdits, mem_append] at hedit
    rcases hedit with ((h | h) | h) | h <;> exact plain_of_mem_map h
  · simpa using h.entities

section

variable {sources : List View} {views : List SignatureView}

theorem exists_buildSignatures (h : ∀ v ∈ sources, ∃ index, buildSignature hash .closure v = .ok index ∧
    index.Counts (counted hash v).roots) : ∃ views, buildSignatures hash .closure sources = .ok views ∧
      Forall₂ (fun v index => SignatureView.Counts index (counted hash v).roots) sources views := by
  induction sources with
  | nil => exact ⟨[], rfl, .nil⟩
  | cons v rest ih =>
    obtain ⟨index, hindex, hcounts⟩ := h v (mem_cons_self ..)
    obtain ⟨views, hviews, hrest⟩ := ih fun v hv => h v (mem_cons_of_mem _ hv)
    exact ⟨index :: views, by rw [buildSignatures, hindex, hviews]; rfl, .cons hcounts hrest⟩

theorem sum_count_eq (h : Forall₂ (fun v index => SignatureView.Counts index (counted hash v).roots) sources views)
    (mode : SignatureMode) (entity : Node) : (views.map fun index => index.count mode entity).sum =
      ((sources.map fun v => contributors mode entity (counted hash v).annotations).sum +
        (sources.map fun v => contributors mode entity (counted hash v).axioms).sum +
        (sources.map fun v => contributors mode entity (counted hash v).extensions).sum : Nat) := by
  induction h with
  | nil => rfl
  | cons hcounts hrest ih =>
    simp only [map_cons, sum_cons, ih, hcounts.count, Bag.roots, contributors_append]
    omega

theorem movedValues_subperm {bagValues : Bag → List Node} (hnodup : ∀ v ∈ sources, (values (v.face hash)).Nodup)
    (hvalues : ∀ v ∈ sources, ∀ n ∈ values (v.face hash), n ∈ bagValues (counted hash v)) :
    (movedValues hash (sources.map (View.face hash)) values).Subperm
      (Bag.moved hash (sources.map (View.face hash)) (sources.map (counted hash)) bagValues) := by
  rw [movedValues_eq, moved_eq]
  apply subperm_flatMap
  intro source hsource
  have hmem := fst_mem_of_mem_zipIdx hsource
  obtain ⟨l, hperm, hsublist⟩ := subperm_of_subset (hnodup source.1 hmem) (hvalues source.1 hmem)
  exact ⟨l.map _, hperm.map _, hsublist.map _⟩

theorem SignatureView.counts_composite {delta : OntologyDelta}
    (h : Forall₂ (fun v index => SignatureView.Counts index (counted hash v).roots) sources views)
    (hcovers : ∀ v ∈ sources, Covers hash v) (hsound : ∀ v ∈ sources, (v.face hash).Sound) :
    (SignatureView.layered views (compositeEdits hash (sources.map (View.face hash)) delta)).Counts
      (counted hash (.composite sources delta)).roots := by
  have hA : (Bag.removals hash (sources.map (View.face hash)) Face.axioms delta.axioms.remove.items).Subperm
      (Bag.moved hash (sources.map (View.face hash)) (sources.map (counted hash)) Bag.axioms ++
        delta.axioms.add.items) :=
    (removals_subperm delta.axioms.remove.ascending.nodup
      (movedValues_subperm (fun v hv => (hsound v hv).exposes.axioms.ascending.nodup)
        fun v hv => (hcovers v hv).axioms)).trans (sublist_append_left _ _).subperm
  have hN : (Bag.removals hash (sources.map (View.face hash)) Face.annotations
      delta.annotations.remove.items).Subperm
      (Bag.moved hash (sources.map (View.face hash)) (sources.map (counted hash)) Bag.annotations ++
        delta.annotations.add.items) :=
    (removals_subperm delta.annotations.remove.ascending.nodup
      (movedValues_subperm (fun v hv => (hsound v hv).exposes.annotations.ascending.nodup)
        fun v hv => (hcovers v hv).annotations)).trans (sublist_append_left _ _).subperm
  have hplain : ∀ {values : Bag → List Node}, (∀ bag n, n ∈ values bag → n ∈ bag.roots) →
      ∀ v ∈ sources, ∀ n ∈ values (counted hash v), n.Plain :=
    fun hvalues v hv n hn => (hcovers v hv).plain n (hvalues _ n hn)
  rw [counted_composite]
  apply SignatureView.counts_layered
  · intro mode entity
    have hA := contributors_diff mode entity hA
    have hN := contributors_diff mode entity hN
    have hannotations := contributors_moved mode entity (hplain fun _ _ hn => Bag.mem_roots.mpr (.inl hn))
    have haxioms := contributors_moved mode entity (hplain fun _ _ hn => Bag.mem_roots.mpr (.inr (.inl hn)))
    have hextensions := contributors_moved mode entity (hplain fun _ _ hn => Bag.mem_roots.mpr (.inr (.inr hn)))
    simp only [contributors_append] at hA hN
    rw [sum_count_eq h, ← hannotations, ← haxioms, ← hextensions]
    simp only [compositeEdits, flatMap_replicate_pair, tally_append, tally_map, Bag.composite, Bag.roots,
      contributors_append]
    simp only [Bag.removals] at hA hN ⊢
    omega
  · intro n hn
    have hmoved : ∀ {values : Bag → List Node}, (∀ bag n, n ∈ values bag → n ∈ bag.roots) →
        n ∈ Bag.moved hash (sources.map (View.face hash)) (sources.map (counted hash)) values →
        ∃ source ∈ views, ∀ mode, ∀ entity ∈ contribution n mode, entity ∈ source.allCandidates := by
      intro values hvalues hmem
      obtain ⟨i, v, hi, r, hr, rfl⟩ := mem_moved.mp hmem
      have hv := mem_of_getElem? hi
      obtain ⟨index, hindex, hcounts⟩ := exists_of_forall₂ h hv
      refine ⟨index, hindex, fun mode entity he => ?_⟩
      have hr' := hvalues _ r hr
      exact hcounts.candidates mode entity r hr' ((mem_contribution_mapAnonymous ((hcovers v hv).plain r hr')).mp he)
    rcases Bag.mem_roots.mp hn with hn | hn | hn
    · rcases mem_append.mp (diff_subset _ _ hn) with hn | hn
      · exact .inr (hmoved (fun _ _ hn => Bag.mem_roots.mpr (.inl hn)) hn)
      · refine .inl ⟨(n, 1), ?_, rfl⟩
        simp only [compositeEdits, mem_append]
        exact .inl (.inl (.inr (mem_map_of_mem hn)))
    · rcases mem_append.mp (diff_subset _ _ hn) with hn | hn
      · exact .inr (hmoved (fun _ _ hn => Bag.mem_roots.mpr (.inr (.inl hn))) hn)
      · refine .inl ⟨(n, 1), ?_, rfl⟩
        simp only [compositeEdits, mem_append]
        exact .inl (.inl (.inl (mem_map_of_mem hn)))
    · exact .inr (hmoved (fun _ _ hn => Bag.mem_roots.mpr (.inr (.inr hn))) hn)
  · intro edit hedit
    simp only [compositeEdits, flatMap_replicate_pair, mem_append] at hedit
    rcases hedit with ((hedit | hedit) | hedit) | hedit
    · exact plain_of_mem_map hedit
    · exact plain_of_mem_map hedit
    · obtain ⟨n, hn, rfl⟩ := mem_map.mp hedit
      exact delta.axioms.remove.plain n (mem_of_mem_removals hn)
    · obtain ⟨n, hn, rfl⟩ := mem_map.mp hedit
      exact delta.annotations.remove.plain n (mem_of_mem_removals hn)
  · intro index hindex entity he
    obtain ⟨v, hv, hcounts⟩ := exists_of_forall₂ h.flip hindex
    exact hcounts.entities entity he

end

theorem View.Layered.exists_buildSignature (h : view.Layered hash) :
    ∃ index, buildSignature hash .closure view = .ok index ∧ index.Counts (counted hash view).roots := by
  induction h with
  | snapshot value =>
    have hcovers : Covers hash (.snapshot value) := covers_snapshot value
    exact ⟨_, rfl, SignatureView.counts_ofRoots hcovers.plain⟩
  | overlay layered axioms annotations ih =>
    obtain ⟨index, hindex, hcounts⟩ := ih
    exact ⟨_, by rw [buildSignature, hindex]; rfl, hcounts.overlay layered.covers axioms annotations⟩
  | composite layered axioms annotations ih =>
    obtain ⟨views, hviews, hcounts⟩ := exists_buildSignatures ih
    refine ⟨_, by rw [buildSignature, hviews]; rfl, ?_⟩
    rw [View.faces_eq_map]
    exact SignatureView.counts_composite hcounts (fun v hv => (layered v hv).covers) fun v hv => (layered v hv).sound

end

section

variable {hash : Hash} {view : View} {isBuiltin : Node → Bool} {options : SignatureOptions}
  {index other : SignatureView} {roots otherRoots : List Node}

/-- The entities that the options do not exclude for their kind or as built-in ones. -/
def SignatureOptions.admits (isBuiltin : Node → Bool) (options : SignatureOptions) (entity : Node) : Bool :=
  !(options.kind.any fun kind => entity.kind? ≠ some kind) && (options.includeBuiltins || !isBuiltin entity)

section

variable (h : index.Counts roots)

include h

theorem SignatureView.Counts.selected_iff :
    index.selected isBuiltin options entity = true ↔ options.admits isBuiltin entity = true ∧
      ∃ n ∈ roots, entity ∈ contribution n (SignatureView.mode options) := by
  rw [SignatureView.selected, Bool.and_eq_true, decide_eq_true_iff, h.count, Int.natCast_pos, contributors_pos]
  rfl

theorem SignatureView.Counts.merged :
    Ascending entityKey (index.iter isBuiltin options) ∧ ∀ entity, entity ∈ index.iter isBuiltin options ↔
        entity ∈ index.allCandidates ∧ index.selected isBuiltin options entity = true := by
  have hflatten : ∀ entity, entity ∈ ((index.material :: (index.inherited ++ [index.adjusted])).map fun values =>
      values.insertionSort fun a b => entityKey a ≤ entityKey b).flatten ↔ entity ∈ index.allCandidates := by
    intro entity
    simp only [mem_flatten, mem_map, exists_exists_and_eq_and, mem_insertionSort,
      SignatureView.allCandidates, mem_append, mem_cons, not_mem_nil, or_false]
    constructor
    · rintro ⟨l, rfl | hl | rfl, he⟩
      · exact .inl (.inl he)
      · exact .inr ⟨l, hl, he⟩
      · exact .inl (.inr he)
    · rintro ((he | he) | ⟨l, hl, he⟩)
      · exact ⟨_, .inl rfl, he⟩
      · exact ⟨_, .inr (.inr rfl), he⟩
      · exact ⟨l, .inr (.inl hl), he⟩
  have hsorted : ∀ l ∈ (index.material :: (index.inherited ++ [index.adjusted])).map fun values =>
      values.insertionSort fun a b => entityKey a ≤ entityKey b, Sorted entityKey l := by
    intro l hl
    obtain ⟨values, -, rfl⟩ := mem_map.mp hl
    exact pairwise_insertionSort _ values
  have hinj : KeyInjOn entityKey fun entity => entity ∈ ((index.material :: (index.inherited ++
      [index.adjusted])).map fun values => values.insertionSort fun a b => entityKey a ≤ entityKey b).flatten :=
    fun a b ha hb => entityKey_injOn (h.entities a ((hflatten a).mp ha)) (h.entities b ((hflatten b).mp hb))
  constructor
  · exact List.Pairwise.filter _ (ascending_merge _ hsorted hinj)
  · intro entity
    rw [SignatureView.iter, mem_filter, mem_merge _ hsorted hinj, hflatten]
    simp

theorem SignatureView.Counts.mem_iter :
    entity ∈ index.iter isBuiltin options ↔ index.selected isBuiltin options entity = true := by
  rw [h.merged.2]
  refine and_iff_right_of_imp fun hselected => ?_
  obtain ⟨-, n, hn, he⟩ := h.selected_iff.mp hselected
  exact h.candidates _ entity n hn he

/-- Two signature views enumerate the same list as soon as they select the same entities. -/
theorem SignatureView.Counts.iter_eq_iff (h' : other.Counts otherRoots) :
    index.iter isBuiltin options = other.iter isBuiltin options ↔
      ∀ entity, index.selected isBuiltin options entity = other.selected isBuiltin options entity := by
  constructor
  · intro heq entity
    rw [Bool.eq_iff_iff, ← h.mem_iter, ← h'.mem_iter, heq]
  · intro hselected
    refine h.merged.1.ext h'.merged.1 fun entity => ?_
    rw [h.mem_iter, h'.mem_iter, hselected]

end

/-- The signature view of a view agrees with the full build over what the view enumerates. -/
def ExactSignature (hash : Hash) (scope : AxiomScope) (isBuiltin : Node → Bool) (options : SignatureOptions)
    (view : View) : Prop :=
  (∃ e, buildSignature hash scope view = .error e ∧ enumeratedRoots hash scope view = .error e) ∨
  ∃ index roots, buildSignature hash scope view = .ok index ∧ enumeratedRoots hash scope view = .ok roots ∧
    index.iter isBuiltin options = (SignatureView.ofRoots roots).iter isBuiltin options ∧
    ∀ entity, index.selected isBuiltin options entity = (SignatureView.ofRoots roots).selected isBuiltin options entity

/-- No entity is counted only for a root that the view no longer enumerates. -/
def NoSurplus (hash : Hash) (view : View) : Prop :=
  ∀ mode entity, (∃ n ∈ (counted hash view).roots, entity ∈ contribution n mode) →
    ∃ n ∈ (view.face hash).roots, entity ∈ contribution n mode

theorem enumeratedRoots_closure (view : View) : enumeratedRoots hash .closure view = .ok (view.face hash).roots := by
  cases view <;> rfl

/-- Outside of the closure overlays change nothing and composites are rejected. -/
theorem exactSignature_selected (hash : Hash) (select : Snapshot → List Node)
    (hselect : ∀ s, ∀ n ∈ select s, Constructible n) (view : View) :
    (buildSignature hash (.selected select hselect) view = .error closureOnly ∧
      enumeratedRoots hash (.selected select hselect) view = .error closureOnly) ∨
    ∃ index roots, buildSignature hash (.selected select hselect) view = .ok index ∧
      enumeratedRoots hash (.selected select hselect) view = .ok roots ∧ (∀ n ∈ roots, n.Plain) ∧
      index.Counts roots := by
  match view with
  | .snapshot value =>
    have hplain : ∀ n ∈ select value, n.Plain := fun n hn => (hselect value n hn).plain
    exact .inr ⟨_, _, rfl, rfl, hplain, SignatureView.counts_ofRoots hplain⟩
  | .composite sources delta => exact .inl ⟨rfl, rfl⟩
  | .overlay base delta =>
    rcases exactSignature_selected hash select hselect base with
      ⟨hbuild, hroots⟩ | ⟨index, roots, hbuild, hroots, hplain, hcounts⟩
    · exact .inl ⟨by rw [buildSignature, hbuild]; rfl, hroots⟩
    · refine .inr ⟨_, roots, by rw [buildSignature, hbuild]; rfl, hroots, hplain, ?_⟩
      apply SignatureView.counts_layered
      · intro mode entity
        simp [hcounts.count]
      · exact fun n hn => .inr ⟨index, mem_singleton_self index,
          fun mode entity he => hcounts.candidates mode entity n hn he⟩
      · simp
      · simpa using hcounts.entities

/-- Layered signature views are exact for every scope and option set if and only if there is no surplus. -/
theorem exactSignature_iff_noSurplus (h : view.Layered hash) :
    (∀ scope isBuiltin options, ExactSignature hash scope isBuiltin options view) ↔ NoSurplus hash view := by
  obtain ⟨index, hindex, hcounts⟩ := h.exists_buildSignature
  have hcovers := h.covers
  have hface : ∀ n ∈ (view.face hash).roots, n ∈ (counted hash view).roots := by
    intro n hn
    rcases Face.mem_roots.mp hn with hn | hn | hn
    · exact Bag.mem_roots.mpr (.inl (hcovers.annotations n hn))
    · exact Bag.mem_roots.mpr (.inr (.inl (hcovers.axioms n hn)))
    · exact Bag.mem_roots.mpr (.inr (.inr (hcovers.extensions n hn)))
  have hfull := SignatureView.counts_ofRoots fun n hn => hcovers.plain n (hface n hn)
  constructor
  · intro hexact mode entity hentity
    obtain ⟨options, hmode⟩ : ∃ options : SignatureOptions, SignatureView.mode options = mode ∧ options.kind = none ∧
        options.includeBuiltins = true := by
      cases mode with
      | referenced => exact ⟨{}, rfl, rfl, rfl⟩
      | nonannotations => exact ⟨{ includeAnnotationOnly := false }, rfl, rfl, rfl⟩
      | declared => exact ⟨{ declaredOnly := true }, rfl, rfl, rfl⟩
    obtain ⟨rfl, hkind, hbuiltins⟩ := hmode
    have hadmits : options.admits (fun _ => false) entity = true := by
      simp [SignatureOptions.admits, hkind, hbuiltins]
    rcases hexact .closure (fun _ => false) options with ⟨e, herror, -⟩ | ⟨index', roots, hbuild, hroots, -, hselected⟩
    · rw [hindex] at herror
      cases herror
    · obtain rfl : index = index' := Except.ok.inj (hindex.symm.trans hbuild)
      obtain rfl : (view.face hash).roots = roots := Except.ok.inj ((enumeratedRoots_closure view).symm.trans hroots)
      have hlayered := hcounts.selected_iff.mpr ⟨hadmits, hentity⟩
      rw [hselected entity] at hlayered
      exact (hfull.selected_iff.mp hlayered).2
  · intro hsurplus scope isBuiltin options
    cases scope with
    | closure =>
      have hselected : ∀ entity, index.selected isBuiltin options entity =
          (SignatureView.ofRoots (view.face hash).roots).selected isBuiltin options entity := by
        intro entity
        rw [Bool.eq_iff_iff, hcounts.selected_iff, hfull.selected_iff]
        refine and_congr_right fun _ => ⟨hsurplus _ entity, ?_⟩
        rintro ⟨n, hn, he⟩
        exact ⟨n, hface n hn, he⟩
      exact .inr ⟨index, _, hindex, enumeratedRoots_closure view, (hcounts.iter_eq_iff hfull).mpr hselected, hselected⟩
    | selected select hselect =>
      rcases exactSignature_selected hash select hselect view with
        ⟨hbuild, hroots⟩ | ⟨index, roots, hbuild, hroots, hplain, hcounts⟩
      · exact .inl ⟨_, hbuild, hroots⟩
      · have hfull := SignatureView.counts_ofRoots hplain
        have hselected : ∀ entity, index.selected isBuiltin options entity =
            (SignatureView.ofRoots roots).selected isBuiltin options entity := by
          intro entity
          rw [Bool.eq_iff_iff, hcounts.selected_iff, hfull.selected_iff]
        exact .inr ⟨index, roots, hbuild, hroots, (hcounts.iter_eq_iff hfull).mpr hselected, hselected⟩

end

/-- The removal of the declaration of `oneClass`. -/
def removeClass : OntologyDelta where
  axioms := { replaceClass.axioms with add := .empty, disjoint := fun _ hadd => by cases hadd }
  annotations := emptyPatch

/-- The composite of the two members without the declaration they share. -/
def removedClass : View := .overlay sharedClass (effectiveDelta (sharedClass.face sha256) removeClass)

theorem applyDelta_removedClass : applyDelta sha256 defaultLimits sharedClass removeClass = .ok removedClass :=
  applyDelta_of_isOk sha256 (by decide +kernel)

/-- After the removal the view enumerates nothing, and its signature still holds the class. -/
theorem not_exactSignature_removedClass :
    composeViews sha256 defaultLimits [.snapshot oneClass, .snapshot oneClass]
      { axioms := emptyPatch, annotations := emptyPatch } = .ok sharedClass ∧
    applyDelta sha256 defaultLimits sharedClass removeClass = .ok removedClass ∧
    (removedClass.face sha256).roots = [] ∧
    ((buildSignature sha256 .closure removedClass).toOption.map fun index => (index.iter (fun _ => false) {}).length) =
      some 1 ∧
    ¬ ExactSignature sha256 .closure (fun _ => false) {} removedClass := by
  have hroots : (removedClass.face sha256).roots = [] := by decide +kernel
  have hlength : ((buildSignature sha256 .closure removedClass).toOption.map fun index =>
      (index.iter (fun _ => false) {}).length) = some 1 := by decide +kernel
  refine ⟨composeViews_sharedClass, applyDelta_removedClass, hroots, hlength, ?_⟩
  rintro (⟨e, -, herror⟩ | ⟨index, roots, hbuild, henumerated, hiter, -⟩)
  · rw [enumeratedRoots_closure] at herror
    cases herror
  · rw [enumeratedRoots_closure, hroots] at henumerated
    rw [hbuild] at hlength
    obtain rfl : [] = roots := Except.ok.inj henumerated
    have hone : (index.iter (fun _ => false) {}).length = 1 := Option.some.inj hlength
    rw [hiter] at hone
    revert hone
    decide

/-- A replaced class leaves no surplus over a snapshot. -/
theorem exactSignature_replacedClass : ExactSignature sha256 .closure (fun _ => false) {} replacedClass := by
  have happly : applyDelta sha256 defaultLimits (.snapshot oneClass) replaceClass = .ok replacedClass :=
    applyDelta_of_isOk sha256 (by decide +kernel)
  have hlayered : replacedClass.Layered sha256 := View.Layered.applyDelta (.snapshot oneClass) happly
  have hroots : (counted sha256 replacedClass).roots = (replacedClass.face sha256).roots := by decide +kernel
  have hsurplus : NoSurplus sha256 replacedClass := by
    intro mode entity h
    rwa [hroots] at h
  exact (exactSignature_iff_noSurplus hlayered).mpr hsurplus .closure (fun _ => false) {}

end OwlCore
