import OwlCore.Index.Occurrences
import OwlCore.View.Enumeration

/-!
# Declaration indexes

`DeclarationIndex` posts the declarations of a view under their entities and merges the postings
below with those of the delta, members as they are. A view moves the values of its members into
the scopes of the composition, so the index of a composite lists what the view enumerates when
moving keeps the declarations.
-/
namespace OwlCore

open CanonicalSet KeyedIndex List

/-- `value.entity`. -/
def declarationEntity : Node → Node
  | .mk .declaration (.node entity :: _) => entity
  | n => n

/-- The index over own declarations, indexes below and a patch. The postings below are in order, and stay so
when `build` sorts them. -/
def declarationLayer (own : List Node) (layers : List (IndexLayer Node Node)) (patch : Patch) : KeyedIndex Node Node :=
  build Node.bytes Node.bytes declarationEntity own (ofType .declaration patch.add.items) layers fun value =>
    decide (value ∈ ofType .declaration patch.remove.items)

mutual

/-- `DeclarationIndex._build`; `iter` and `entities` of the index are its lists. -/
def declarationIndex : View → KeyedIndex Node Node
  | .snapshot value => declarationLayer (ofType .declaration value.axioms.items) [] emptyPatch
  | .overlay base delta => declarationLayer [] [.ofIndex (declarationIndex base)] delta.axioms
  | .composite sources delta => declarationLayer [] ((declarationIndexes sources).map .ofIndex) delta.axioms

def declarationIndexes : List View → List (KeyedIndex Node Node)
  | [] => []
  | view :: rest => declarationIndex view :: declarationIndexes rest

end

def enumeratedDeclarations (hash : Hash) (view : View) (entity : Node) : List Node :=
  (iterAxioms hash (some .declaration) view).filter fun value => declarationEntity value = entity

/-- The declarations that the layers of a view put in and that no layer above them removes. -/
inductive CarriesDeclaration : View → Node → Prop where
  | snapshot {value : Snapshot} {n : Node} (mem : n ∈ value.axioms) (declares : n.constructor = .declaration) :
      CarriesDeclaration (.snapshot value) n
  | added {base : View} {delta : OntologyDelta} {n : Node} (mem : n ∈ delta.axioms.add)
      (declares : n.constructor = .declaration) : CarriesDeclaration (.overlay base delta) n
  | base {base : View} {delta : OntologyDelta} {n : Node} (below : CarriesDeclaration base n)
      (kept : n ∉ delta.axioms.remove) : CarriesDeclaration (.overlay base delta) n
  | bridge {sources : List View} {delta : OntologyDelta} {n : Node} (mem : n ∈ delta.axioms.add)
      (declares : n.constructor = .declaration) : CarriesDeclaration (.composite sources delta) n
  | member {sources : List View} {delta : OntologyDelta} {v : View} {n : Node} (mem : v ∈ sources)
      (below : CarriesDeclaration v n) (kept : n ∉ delta.axioms.remove) :
      CarriesDeclaration (.composite sources delta) n

/-- Every composite of the stack keeps the declarations of its members as they are. -/
inductive View.KeepsDeclarations (hash : Hash) : View → Prop where
  | snapshot (value : Snapshot) : KeepsDeclarations hash (.snapshot value)
  | overlay {base : View} {delta : OntologyDelta} (below : KeepsDeclarations hash base) :
      KeepsDeclarations hash (.overlay base delta)
  | composite {sources : List View} {delta : OntologyDelta} (below : ∀ v ∈ sources, KeepsDeclarations hash v)
      (kept : ∀ i v, sources[i]? = some v → ∀ n ∈ (v.face hash).axioms, n.constructor = .declaration →
        scopeValue hash ((sources.map (View.face hash)).map Face.sourceScopes) i n = n) :
      KeepsDeclarations hash (.composite sources delta)

section

variable {hash : Hash} {view : View}

theorem mem_ofType :
    n ∈ ofType c values ↔ n ∈ values ∧ n.constructor = c := by
  simp [ofType]

theorem CarriesDeclaration.spec (h : CarriesDeclaration view n) :
    n.constructor = .declaration ∧ n.Canonical := by
  induction h with
  | @snapshot value n mem declares => exact ⟨declares, value.axioms.canonical n mem⟩
  | @added _ delta n mem declares => exact ⟨declares, delta.axioms.add.canonical n mem⟩
  | base _ _ ih => exact ih
  | @bridge _ delta n mem declares => exact ⟨declares, delta.axioms.add.canonical n mem⟩
  | member _ _ _ ih => exact ih

theorem canonical_declarationEntity (h : n.Canonical) : (declarationEntity n).Canonical := by
  unfold declarationEntity
  split
  · exact h.child (by simp [Node.children])
  · exact h

theorem holds_declarationLayer {own : List Node} {layers : List (IndexLayer Node Node)} {patch : Patch}
    {below items : Set Node} (hlayers : Offers declarationEntity layers below)
    (hcanonical : ∀ n, n ∈ own ∨ n ∈ below → n.constructor = .declaration ∧ n.Canonical)
    (hitems : ∀ n, n ∈ items ↔ (n ∈ own ∨ n ∈ below) ∧ n ∉ patch.remove ∨
      n ∈ patch.add ∧ n.constructor = .declaration) :
    Holds Node.bytes Node.bytes declarationEntity (declarationLayer own layers patch) items := by
  have hall : ∀ n, n ∈ own ∨ n ∈ below ∨ n ∈ ofType .declaration patch.add.items → n.Canonical := by
    rintro n (hn | hn | hn)
    · exact (hcanonical n (.inl hn)).2
    · exact (hcanonical n (.inr hn)).2
    · exact patch.add.canonical n (mem_ofType.mp hn).1
  have hset : items = {n | (n ∈ own ∨ n ∈ below ∨ n ∈ ofType .declaration patch.add.items) ∧
      decide (n ∈ ofType .declaration patch.remove.items) = false} := by
    ext n
    have hdisjoint := patch.disjoint n
    have hdeclares := hcanonical n
    rw [hitems, Set.mem_ofPred_eq, decide_eq_false_iff_not, mem_ofType, mem_ofType, mem_items, mem_items]
    tauto
  rw [hset]
  refine holds_build hlayers (fun a b ha hb => Node.bytes_injOn (hall a ha) (hall b hb)) ?_
  rintro _ _ ⟨a, ha, rfl⟩ ⟨b, hb, rfl⟩
  exact Node.bytes_injOn (canonical_declarationEntity (hall a ha)) (canonical_declarationEntity (hall b hb))

theorem declarationIndexes_eq_map (views : List View) : declarationIndexes views = views.map declarationIndex := by
  induction views with
  | nil => rfl
  | cons view rest ih => rw [declarationIndexes, ih, map_cons]

theorem holds_declarationIndex (h : view.Layered hash) :
    Holds Node.bytes Node.bytes declarationEntity (declarationIndex view) {n | CarriesDeclaration view n} := by
  induction h with
  | snapshot value =>
    refine holds_declarationLayer offers_nil (fun n hn => ?_) fun n => ?_
    · obtain ⟨hn, hc⟩ := mem_ofType.mp (hn.resolve_right (Set.notMem_empty n))
      exact ⟨hc, value.axioms.canonical n hn⟩
    · rw [Set.mem_ofPred_eq, mem_ofType, mem_items]
      constructor
      · rintro ⟨hn, hc⟩
        exact .inl ⟨.inl ⟨hn, hc⟩, not_mem_nil⟩
      · rintro (⟨⟨hn, hc⟩ | hn, -⟩ | ⟨hn, -⟩)
        · exact .snapshot hn hc
        · cases hn
        · cases hn
  | @overlay base delta layered axioms annotations ih =>
    refine holds_declarationLayer ih.offers (fun n hn => ?_) fun n => ?_
    · exact CarriesDeclaration.spec (hn.resolve_left not_mem_nil)
    · constructor
      · intro hcarries
        cases hcarries with
        | added hn hc => exact .inr ⟨hn, hc⟩
        | base hbelow hkept => exact .inl ⟨.inr hbelow, hkept⟩
      · rintro (⟨hn | hbelow, hkept⟩ | ⟨hn, hc⟩)
        · cases hn
        · exact .base hbelow hkept
        · exact .added hn hc
  | @composite sources delta layered axioms annotations ih =>
    rw [declarationIndex, declarationIndexes_eq_map, map_map]
    refine holds_declarationLayer (offers_map sources (fun v => .ofIndex (declarationIndex v))
      (fun v => {n | CarriesDeclaration v n}) fun v hv => (ih v hv).offers) (fun n hn => ?_) fun n => ?_
    · obtain ⟨v, -, hcarries⟩ := hn.resolve_left not_mem_nil
      exact CarriesDeclaration.spec hcarries
    · constructor
      · intro hcarries
        cases hcarries with
        | bridge hn hc => exact .inr ⟨hn, hc⟩
        | member hv hbelow hkept => exact .inl ⟨.inr ⟨_, hv, hbelow⟩, hkept⟩
      · rintro (⟨hn | ⟨v, hv, hbelow⟩, hkept⟩ | ⟨hn, hc⟩)
        · cases hn
        · exact .member hv hbelow hkept
        · exact .bridge hn hc

end

section

variable {hash : Hash} {view : View}

def EnumeratesDeclaration (hash : Hash) (view : View) (n : Node) : Prop :=
  n ∈ (view.face hash).axioms ∧ n.constructor = .declaration

/-- When moving keeps the declarations, the layers carry what the view enumerates. -/
theorem View.KeepsDeclarations.carries_iff (h : view.Layered hash) (hkeeps : view.KeepsDeclarations hash) :
    ∀ n, CarriesDeclaration view n ↔ EnumeratesDeclaration hash view n := by
  induction h with
  | snapshot value =>
    intro n
    constructor
    · rintro ⟨hn, hc⟩
      exact ⟨hn, hc⟩
    · exact fun hn => .snapshot hn.1 hn.2
  | @overlay base delta layered axioms annotations ih =>
    cases hkeeps with
    | overlay hbelow =>
      intro n
      have hmem : n ∈ ((View.overlay base delta).face hash).axioms ↔ _ :=
        layered.sound.exposes.axioms.overlayAxioms.mem_iff n
      constructor
      · intro hcarries
        cases hcarries with
        | added hn hc => exact ⟨hmem.mpr (.inl hn), hc⟩
        | base hcarries hkept =>
          obtain ⟨hn, hc⟩ := (ih hbelow n).mp hcarries
          exact ⟨hmem.mpr (.inr ⟨hn, hkept⟩), hc⟩
      · rintro ⟨hn, hc⟩
        rcases hmem.mp hn with hadd | ⟨hn, hkept⟩
        · exact .added hadd hc
        · exact .base ((ih hbelow n).mpr ⟨hn, hc⟩) hkept
  | @composite sources delta layered axioms annotations ih =>
    cases hkeeps with
    | composite hbelow hkept =>
      intro n
      have hexposes : (Face.composite hash _ delta).Exposes _ _ := Face.exposes_composite (sound_faces layered) delta
      rw [EnumeratesDeclaration, View.face_composite, hexposes.axioms.mem_iff n]
      constructor
      · intro hcarries
        cases hcarries with
        | bridge hn hc => exact ⟨.inl hn, hc⟩
        | @member _ _ v _ hv hcarries hremove =>
          obtain ⟨hn, hc⟩ := (ih v hv (hbelow v hv) n).mp hcarries
          obtain ⟨i, hi⟩ := mem_iff_getElem?.mp hv
          refine ⟨.inr ⟨Face.mem_memberLists.mpr ⟨i, v.face hash, by simp [hi], n, hn, ?_⟩, hremove⟩, hc⟩
          exact hkept i v hi n hn hc
      · rintro ⟨hadd | ⟨hn, hremove⟩, hc⟩
        · exact .bridge hadd hc
        · obtain ⟨i, source, hsource, r, hr, rfl⟩ := Face.mem_memberLists.mp hn
          obtain ⟨v, hv, rfl⟩ := getElem?_map .. ▸ hsource |> Option.map_eq_some_iff.mp
          rw [scopeValue, Node.constructor_mapAnonymous] at hc
          rw [hkept i v hv r hr hc] at hremove ⊢
          have hmember := mem_of_getElem? hv
          exact .member hmember ((ih v hmember (hbelow v hmember) r).mpr ⟨hr, hc⟩) hremove

theorem mem_enumeratedDeclarations (h : view.Layered hash) :
    n ∈ enumeratedDeclarations hash view entity ↔ EnumeratesDeclaration hash view n ∧ declarationEntity n = entity := by
  rw [enumeratedDeclarations, iterAxioms_eq h, mem_filter, decide_eq_true_eq, mem_ofAxiomType]
  simp [EnumeratesDeclaration]

/-- The index lists the declarations as the view enumerates them exactly when its layers carry the
enumerated declarations, so when every composite of the stack keeps those of its members. -/
theorem declarationIndex_exact_iff (h : view.Layered hash) :
    ((∀ entity, (declarationIndex view).iter entity = enumeratedDeclarations hash view entity) ↔
      ∀ n, CarriesDeclaration view n ↔ EnumeratesDeclaration hash view n) ∧
    (view.KeepsDeclarations hash → ∀ entity,
      (declarationIndex view).iter entity = enumeratedDeclarations hash view entity ∧
      KeyedSet.Ascending Node.bytes ((declarationIndex view).iter entity)) := by
  have hholds := holds_declarationIndex h
  have hascending : ∀ entity, KeyedSet.Ascending Node.bytes (enumeratedDeclarations hash view entity) := by
    intro entity
    rw [enumeratedDeclarations, iterAxioms_eq h]
    exact (ascending_ofAxiomType h.sound.exposes.axioms.ascending).filter _
  have hiff : (∀ entity, (declarationIndex view).iter entity = enumeratedDeclarations hash view entity) ↔
      ∀ n, CarriesDeclaration view n ↔ EnumeratesDeclaration hash view n := by
    constructor
    · intro heq n
      have hn := hholds.mem_iter (declarationEntity n) n
      rw [heq, mem_enumeratedDeclarations h] at hn
      simpa using hn.symm
    · intro hcarries entity
      refine (hholds.ascending entity).ext (hascending entity) fun n => ?_
      rw [hholds.mem_iter, mem_enumeratedDeclarations h, Set.mem_ofPred_eq, hcarries]
  exact ⟨hiff, fun hkeeps entity => ⟨hiff.mpr (hkeeps.carries_iff h) entity, hholds.ascending entity⟩⟩

end

/-- The declaration of a class whose annotation has an anonymous individual for its value. -/
def describedDeclaration : Node :=
  .mk .declaration [.node (.mk .entity [.enum .class, .node (.mk .iri [.text "urn:C"])]),
    .set [.mk .annotationNode [.node (.mk .entity [.enum .annotationProperty, .node (.mk .iri [.text "urn:p"])]),
      .node (.mk .anonymousIndividual [.bytes (List.replicate 32 7), .bytes [1]]), .set []]]]

def describedClass : Snapshot :=
  { oneClass with axioms := .single describedDeclaration (constructible_of_rebuilds (by decide +kernel)) }

def sharedDescribed : View :=
  .composite [.snapshot describedClass, .snapshot describedClass] { axioms := emptyPatch, annotations := emptyPatch }

/-- The view enumerates a declaration for each member, and the index has one that is neither of them. -/
theorem declarationIndex_sharedDescribed :
    composeViews sha256 defaultLimits [.snapshot describedClass, .snapshot describedClass]
      { axioms := emptyPatch, annotations := emptyPatch } = .ok sharedDescribed ∧
    (declarationIndex sharedDescribed).iter (declarationEntity describedDeclaration) = [describedDeclaration] ∧
    (enumeratedDeclarations sha256 sharedDescribed (declarationEntity describedDeclaration)).length = 2 ∧
    describedDeclaration ∉ enumeratedDeclarations sha256 sharedDescribed (declarationEntity describedDeclaration) :=
  ⟨rfl, by decide +kernel, by decide +kernel, by decide +kernel⟩

/-- Declarations of named classes only are kept, and the shared one is listed once. -/
theorem declarationIndex_exact_iff_shared : ∃ view,
    composeViews sha256 defaultLimits [.snapshot oneClass, .snapshot oneClass]
      { axioms := emptyPatch, annotations := emptyPatch } = .ok view ∧ view.Layered sha256 ∧
    view.KeepsDeclarations sha256 ∧ ∀ entity,
      (declarationIndex view).iter entity = enumeratedDeclarations sha256 view entity := by
  have hassembled := View.Assembled.composed (by simpa using View.Assembled.snapshot oneClass) composeViews_sharedClass
  have hkeeps : sharedClass.KeepsDeclarations sha256 := by
    refine .composite (by simpa using .snapshot oneClass) fun i v hi n hn _ => ?_
    obtain rfl : v = .snapshot oneClass := by simpa using mem_of_getElem? hi
    have hcanonical : n.Canonical := oneClass.axioms.canonical n hn
    obtain rfl : n = classDeclaration "urn:C" := mem_singleton.mp hn
    have hanonymous : (classDeclaration "urn:C").anonymousValues = [] := by decide +kernel
    exact scopeValue_eq_self hcanonical fun a ha => by rw [hanonymous] at ha; cases ha
  exact ⟨_, composeViews_sharedClass, hassembled.layered, hkeeps, fun entity =>
    ((declarationIndex_exact_iff hassembled.layered).2 hkeeps entity).1⟩

end OwlCore
