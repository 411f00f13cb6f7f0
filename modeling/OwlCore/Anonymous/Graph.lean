import OwlCore.Lib.Orders
import OwlCore.Model.Individuals

/-!
# Canonicalization of blank-node graphs

The translation of `model/anonymous.py`. Labels of an ordered type are coloured by digests of
their neighbourhoods, the colours are refined until the partition is stable, and among the
orders that list the colour classes in order the first with the least serialization is taken.
Mappings keyed by label are functions.
-/
namespace OwlCore

def scopeDomain : Bytes := utf8Encode "pyowl-core:document-scope:v2\x00"
def keyDomain : Bytes := utf8Encode "pyowl-core:anonymous-key:v2\x00"
def graphDomain : Bytes := utf8Encode "pyowl-core:blank-graph:v2\x00"
def colorDomain : Bytes := utf8Encode "pyowl-core:blank-color:v2\x00"
def componentClassDomain : Bytes := utf8Encode "pyowl-core:blank-component-class:v2\x00"
def componentManifestDomain : Bytes := utf8Encode "pyowl-core:blank-component-manifest:v2\x00"

/-- One role-labelled occurrence of a label, alone or beside another one. -/
structure BlankNodeArc (L : Type) where
  source : L
  role : String
  target : Option L
  payload : Bytes
  role_ne : role ≠ ""
  deriving DecidableEq

def BlankNodeArc.ends {L : Type} (arc : BlankNodeArc L) : List L := arc.source :: arc.target.toList

structure BlankNodeBinding (L : Type) where
  sourceLabel : L
  canonicalIndex : Nat
  individual : AnonymousIndividual
  deriving DecidableEq

structure AlphaCanonicalization (L : Type) where
  bindings : List (BlankNodeBinding L)
  canonicalGraph : Bytes
  refinementRounds : Nat
  permutationsExamined : Nat
  deriving DecidableEq

/-- `canonical_document_scope`; every caller passes a nonempty key. -/
def canonicalDocumentScope (hash : Hash) (key canonicalGraph : Bytes) : Scope :=
  hash.scope (scopeDomain ++ Varint.frame key ++ Varint.frame canonicalGraph)

/-- `_canonical_component_manifest`: the graphs in order, each with its multiplicity. -/
def canonicalComponentManifest (graphs : List Bytes) : Bytes :=
  let distinct := KeyedSet.ofList id graphs
  componentManifestDomain ++ Varint.encode distinct.length ++
    (distinct.map fun graph => Varint.frame graph ++ Varint.encode (graphs.count graph)).flatten

section

variable {L : Type} [DecidableEq L]

/-- What the signature of an arc says about the other end of the arc. -/
def neighborColor (colors : Option (L → Bytes)) (other : L) : Bytes :=
  match colors with
  | none => utf8Encode "B"
  | some color => utf8Encode "C" ++ color other

/-- `_arc_signature`: the arc as seen from the label, if the label is one of its ends. -/
def arcSignature (label : L) (arc : BlankNodeArc L) (colors : Option (L → Bytes)) : Option Bytes :=
  let sides : Option (Bytes × Bytes) :=
    if arc.source = label then
      match arc.target with
      | none => some (utf8Encode "S", utf8Encode "N")
      | some target =>
        if target = label then some (utf8Encode "S", utf8Encode "L")
        else some (utf8Encode "S", neighborColor colors target)
    else if arc.target = some label then some (utf8Encode "T", neighborColor colors arc.source)
    else none
  sides.map fun (direction, neighbor) =>
    direction ++ Varint.frame (utf8Encode arc.role) ++ neighbor ++ Varint.frame arc.payload

/-- `_neighborhood_signatures` at one label. Each arc is gathered at its source and, when
the target is another label, at its target. -/
def neighborhoodSignatures (arcs : List (BlankNodeArc L)) (colors : Option (L → Bytes)) (label : L) :
    List Bytes :=
  (arcs.filterMap fun arc => arcSignature label arc colors).insertionSort (· ≤ ·)

def colorsFromSignatures (hash : Hash) (signatures : L → List Bytes) (label : L) : Bytes :=
  hash.digest (colorDomain ++ ((signatures label).map Varint.frame).flatten)

def initialColors (hash : Hash) (arcs : List (BlankNodeArc L)) : L → Bytes :=
  colorsFromSignatures hash (neighborhoodSignatures arcs none)

def refineColors (hash : Hash) (arcs : List (BlankNodeArc L)) (colors : L → Bytes) : L → Bytes :=
  colorsFromSignatures hash fun label => colors label :: neighborhoodSignatures arcs (some colors) label

/-- The loop of `_same_partition` with its two dictionaries. -/
def samePartitionFrom (first second : L → Bytes) (forward reverse : List (Bytes × Bytes)) :
    List L → Bool
  | [] => true
  | label :: labels =>
    let firstColor := first label
    let secondColor := second label
    if (forward.lookup firstColor).getD secondColor ≠ secondColor then false
    else if (reverse.lookup secondColor).getD firstColor ≠ firstColor then false
    else samePartitionFrom first second ((firstColor, secondColor) :: forward)
      ((secondColor, firstColor) :: reverse) labels

def samePartition (labels : List L) (first second : L → Bytes) : Bool :=
  samePartitionFrom first second [] [] labels

/-- `_partitions`: the labels of each color, the colors ascending. -/
def partitions (labels : List L) (colors : L → Bytes) : List (List L) :=
  (KeyedSet.ofList id (labels.map colors)).map fun color => labels.filter fun label => colors label = color

def candidateOrders (groups : List (List L)) : List (List L) := Orders.grouped groups

def encodeArc (order : List L) (arc : BlankNodeArc L) : Bytes :=
  let target : Bytes := match arc.target with
    | none => [0]
    | some target => 1 :: Varint.encode (order.idxOf target)
  Varint.encode (order.idxOf arc.source) ++ Varint.frame (utf8Encode arc.role) ++ target ++
    Varint.frame arc.payload

def serializeGraph (order : List L) (arcs : List (BlankNodeArc L)) : Bytes :=
  graphDomain ++ Varint.encode order.length ++
    Varint.counted (KeyedSet.ofList id (arcs.map (encodeArc order)))

end

/-- The individual at one position of a component, `occurrenceOrdinal` among its isomorphic copies. -/
def componentIndividual (hash : Hash) (documentScope : Scope) (canonicalGraph : Bytes)
    (occurrenceOrdinal index : Nat) : AnonymousIndividual where
  documentScope := documentScope
  localKey := hash.digest (keyDomain ++ documentScope.val ++
    hash.digest (componentClassDomain ++ Varint.frame canonicalGraph) ++
    Varint.encode occurrenceOrdinal ++ Varint.encode index)
  localKey_ne := hash.digest_ne_nil _

def bindingsForOrder {L : Type} (hash : Hash) (order : List L) (documentScope : Scope)
    (canonicalGraph : Bytes) (occurrenceOrdinal : Nat) : List (BlankNodeBinding L) :=
  order.zipIdx.map fun (label, index) =>
    ⟨label, index, componentIndividual hash documentScope canonicalGraph occurrenceOrdinal index⟩

def bindComponentBlankNodes {L : Type} (hash : Hash) (canonicalization : AlphaCanonicalization L)
    (documentScope : Scope) (occurrenceOrdinal : Nat) : AlphaCanonicalization L :=
  { canonicalization with
    bindings := bindingsForOrder hash (canonicalization.bindings.map (·.sourceLabel)) documentScope
      canonicalization.canonicalGraph occurrenceOrdinal }

def enforceLimit (limit : String) (observed allowed : Nat) : Except Error Unit :=
  if observed > allowed then .error (.resourceLimit limit observed allowed) else .ok ()

theorem enforceLimit_ok :
    enforceLimit limit observed allowed = .ok done ↔ observed ≤ allowed := by
  unfold enforceLimit
  split
  · simp_all
  · simp_all

def enforceWork (observed maximum : Nat) : Except Error Unit :=
  enforceLimit "max_canonical_work" observed maximum

/-- The loop of `_bounded_permutation_count` over its factors. -/
def countFactors (maximum remaining : Nat) : List Nat → Nat → Except Error Nat
  | [], count => .ok count
  | factor :: factors, count =>
    if count > remaining / factor then
      .error (.resourceLimit "max_canonical_work" (maximum + 1) maximum)
    else countFactors maximum remaining factors (count * factor)

def boundedPermutationCount {L : Type} (groups : List (List L)) (maximum consumed : Nat) :
    Except Error Nat :=
  countFactors maximum (maximum - consumed)
    (groups.flatMap fun group => List.range' 2 (group.length - 1)) 1

section

variable {L : Type} [LinearOrder L] (hash : Hash)

/-- The stable colors, the rounds and the work done. The first argument counts down the rounds left
before the source gives up, `labels.length + 2` in all. -/
def refineLoop (labels : List L) (arcs : List (BlankNodeArc L)) (maximum : Nat) :
    Nat → Nat → Nat → (L → Bytes) → Except Error ((L → Bytes) × Nat × Nat)
  | 0, _, _, _ => .error (.structuralConstraint "blank-node partition refinement did not converge")
  | left + 1, rounds, work, colors => do
    let rounds := rounds + 1
    let refined := refineColors hash arcs colors
    let work := work + (2 * labels.length + 2 * arcs.length)
    enforceWork work maximum
    if samePartition labels colors refined then .ok (refined, rounds, work)
    else refineLoop labels arcs maximum left rounds work refined

/-- The labels of a call, in order: those given and those of the arcs. -/
def labelSet (arcs : List (BlankNodeArc L)) (labels : List L) : List L :=
  KeyedSet.ofList id (labels ++ arcs.flatMap BlankNodeArc.ends)

/-- The search of `alpha_canonicalize_blank_nodes` over a nonempty label set. -/
def searchOrders (limits : ParseLimits) (arcs : List (BlankNodeArc L)) (documentScope : Scope)
    (orderedLabels : List L) : Except Error (AlphaCanonicalization L) := do
  let maximum := limits.maxCanonicalWork
  enforceLimit "max_terms" (orderedLabels.length + arcs.length) limits.maxTerms
  let work := orderedLabels.length + 2 * arcs.length
  enforceWork work maximum
  let (colors, rounds, work) ← refineLoop hash orderedLabels arcs maximum (orderedLabels.length + 2) 0 work
    (initialColors hash arcs)
  let groups := partitions orderedLabels colors
  let candidateCount ← boundedPermutationCount groups maximum work
  enforceWork (work + candidateCount * max 1 (orderedLabels.length + arcs.length)) maximum
  let orders := candidateOrders groups
  match Orders.firstLeast (serializeGraph · arcs) orders with
  | none => .error (.assertionError "blank-node canonicalization produced no candidate")
  | some bestOrder =>
    let bestGraph := serializeGraph bestOrder arcs
    .ok ⟨bindingsForOrder hash bestOrder documentScope bestGraph 0, bestGraph, rounds, orders.length⟩

def alphaCanonicalizeBlankNodes (limits : ParseLimits) (arcs : List (BlankNodeArc L))
    (documentScope : Scope) (labels : List L) : Except Error (AlphaCanonicalization L) :=
  let orderedLabels := labelSet arcs labels
  if orderedLabels = [] then .ok ⟨[], graphDomain ++ Varint.encode 0 ++ Varint.encode 0, 0, 1⟩
  else searchOrders hash limits arcs documentScope orderedLabels

end

end OwlCore
