import OwlCore.Anonymous.Invariance
import Mathlib.Data.Finset.Card
import Mathlib.Data.List.Range
import Mathlib.Algebra.Order.BigOperators.GroupWithZero.List
import Mathlib.Algebra.Order.Ring.Nat

/-!
# The work of a canonicalization

`alpha_canonicalize_blank_nodes` meters the setup, the rounds of the refinement and the
candidate orders. The stages are read off the graph and its colors; the error of the work limit
is raised exactly when one of them is over it, before any order is enumerated. Without
collisions the refinement is stable within as many rounds as there are labels.
-/
namespace OwlCore

open List

section

variable {L : Type} [LinearOrder L] (hash : Hash) (arcs : List (BlankNodeArc L)) (labels : List L)

def colorsAfter : Nat → L → Bytes
  | 0 => initialColors hash arcs
  | round + 1 => refineColors hash arcs (colorsAfter round)

/-- Round `round + 1` leaves the partition as it was. -/
def stableAt (round : Nat) : Bool :=
  samePartition labels (colorsAfter hash arcs round) (colorsAfter hash arcs (round + 1))

/-- The last round before the partition is seen to be stable, among those the source tries. -/
def stableRound : Option Nat := (List.range (labels.length + 2)).find? (stableAt hash arcs labels)

def roundsMade : Nat := (stableRound hash arcs labels).elim (labels.length + 2) (· + 1)

omit [LinearOrder L] in
def workAfter (rounds : Nat) : Nat :=
  labels.length + 2 * arcs.length + rounds * (2 * labels.length + 2 * arcs.length)

/-- The work with the candidate orders: the product of the factorials of the sizes of the classes, each
at the price of a serialization. -/
def candidateWork (rounds : Nat) : Nat :=
  workAfter arcs labels rounds +
    ((partitions labels (colorsAfter hash arcs rounds)).map fun group => group.length.factorial).prod *
      max 1 (labels.length + arcs.length)

/-- The accumulated work at each stage of a call. An empty graph has no stage, and without a
stable partition there is no stage of candidate orders. -/
def workStages : List Nat :=
  if labels = [] then []
  else (List.range (roundsMade hash arcs labels + 1)).map (workAfter arcs labels) ++
    ((stableRound hash arcs labels).map fun round => candidateWork hash arcs labels (round + 1)).toList

end

/-- The computation stops with the error of the work limit. -/
def RaisesWork {α : Type} (maximum : Nat) (outcome : Except Error α) : Prop :=
  ∃ observed, outcome = .error (.resourceLimit "max_canonical_work" observed maximum)

section

variable {maximum : Nat}

@[simp] theorem not_raisesWork_ok (a : α) : ¬RaisesWork maximum (.ok a : Except Error α) := by
  simp [RaisesWork]

theorem raisesWork_bind :
    RaisesWork maximum (x >>= f) ↔ RaisesWork maximum x ∨ ∃ a, x = .ok a ∧ RaisesWork maximum (f a) := by
  cases x with
  | error e => simp [RaisesWork, bind, Except.bind]
  | ok a => simp [RaisesWork, bind, Except.bind]

theorem raisesWork_enforceWork :
    RaisesWork maximum (enforceWork observed maximum) ↔ maximum < observed := by
  unfold enforceWork enforceLimit
  split
  · rename_i h
    exact ⟨fun _ => h, fun _ => ⟨observed, rfl⟩⟩
  · rename_i h
    simp only [not_raisesWork_ok, false_iff]
    exact h

theorem raisesWork_enforceWork_bind :
    RaisesWork maximum (enforceWork observed maximum >>= f) ↔
      maximum < observed ∨ observed ≤ maximum ∧ RaisesWork maximum (f ()) := by
  rw [raisesWork_bind, raisesWork_enforceWork]
  constructor
  · rintro (hover | ⟨done, hok, hraise⟩)
    · exact .inl hover
    · exact .inr ⟨enforceLimit_ok.mp hok, hraise⟩
  · rintro (hover | ⟨hle, hraise⟩)
    · exact .inl hover
    · exact .inr ⟨(), enforceLimit_ok.mpr hle, hraise⟩

theorem not_raisesWork_enforceTerms :
    ¬RaisesWork maximum (enforceLimit "max_terms" observed allowed) := by
  unfold enforceLimit
  split <;> simp [RaisesWork]

end

section

variable {maximum remaining : Nat}

/-- The bounded product stops exactly when a further factor takes it over what is left. -/
theorem raisesWork_countFactors (hfactors : ∀ factor ∈ factors, 0 < factor) (count : Nat) :
    RaisesWork maximum (countFactors maximum remaining factors count) ↔
      factors ≠ [] ∧ remaining < count * factors.prod := by
  induction factors generalizing count with
  | nil => simp [countFactors]
  | cons factor factors ih =>
    have hfactor : 0 < factor := hfactors factor (by simp)
    have hrest : ∀ f ∈ factors, 0 < f := fun f hf => hfactors f (by simp [hf])
    have hprod : 0 < factors.prod := prod_pos hrest
    have hgrow : count * factor ≤ count * (factor * factors.prod) :=
      Nat.mul_le_mul_left _ (Nat.le_mul_of_pos_right _ hprod)
    simp only [countFactors, prod_cons, ne_eq, reduceCtorEq, not_false_eq_true, true_and]
    split
    · rename_i hover
      have hexceeds : remaining < count * factor := (Nat.div_lt_iff_lt_mul hfactor).mp hover
      exact ⟨fun _ => by omega, fun _ => ⟨maximum + 1, rfl⟩⟩
    · rename_i hunder
      have hwithin : count * factor ≤ remaining := (Nat.le_div_iff_mul_le hfactor).mp (by omega)
      rw [ih hrest, Nat.mul_assoc]
      constructor
      · exact And.right
      · intro hlt
        refine ⟨?_, hlt⟩
        rintro rfl
        simp only [prod_nil, Nat.mul_one] at hlt
        omega

theorem countFactors_ok {count total : Nat} (h : countFactors maximum remaining factors count = .ok total) :
    total = count * factors.prod := by
  induction factors generalizing count with
  | nil => simpa [countFactors, eq_comm] using h
  | cons factor factors ih =>
    simp only [countFactors] at h
    split at h
    · cases h
    · rw [ih h, prod_cons, Nat.mul_assoc]

theorem countFactors_ok_or_raises (factors : List Nat) (count : Nat) :
    (∃ total, countFactors maximum remaining factors count = .ok total) ∨
      RaisesWork maximum (countFactors maximum remaining factors count) := by
  induction factors generalizing count with
  | nil => exact .inl ⟨count, rfl⟩
  | cons factor factors ih =>
    simp only [countFactors]
    split
    · exact .inr ⟨_, rfl⟩
    · exact ih _

theorem prod_range'_two (n : Nat) : (List.range' 2 (n - 1)).prod = n.factorial := by
  induction n with
  | zero => rfl
  | succ n ih =>
    cases n with
    | zero => rfl
    | succ n =>
      simp only [Nat.add_sub_cancel] at ih ⊢
      rw [range'_1_concat, prod_append, ih, Nat.factorial_succ (n + 1), prod_singleton, Nat.mul_comm, Nat.add_comm 2 n]

theorem prod_flatMap_range' (groups : List (List L)) :
    (groups.flatMap fun group => List.range' 2 (group.length - 1)).prod =
      (groups.map fun group => group.length.factorial).prod := by
  induction groups with
  | nil => rfl
  | cons group groups ih => simp [ih, prod_range'_two]

/-- The count of the orders and the check of their work: over the limit exactly when the priced product
of the factorials is. -/
theorem raisesWork_candidates {groups : List (List L)} {work unit : Nat} (hwork : work ≤ maximum) (hunit : 0 < unit)
    (hrest : ¬RaisesWork maximum rest) :
    RaisesWork maximum (do
        let count ← boundedPermutationCount groups maximum work
        enforceWork (work + count * unit) maximum
        rest) ↔
      maximum < work + (groups.map fun group => group.length.factorial).prod * unit := by
  have hfactors : ∀ factor ∈ groups.flatMap fun group => List.range' 2 (group.length - 1), 0 < factor := by
    intro factor hfactor
    obtain ⟨group, -, hmem⟩ := mem_flatMap.mp hfactor
    rw [mem_range'_1] at hmem
    omega
  have hprod := prod_flatMap_range' groups
  have hprice : (groups.map fun group => group.length.factorial).prod ≤
      (groups.map fun group => group.length.factorial).prod * unit := Nat.le_mul_of_pos_right _ hunit
  rw [raisesWork_bind, boundedPermutationCount, raisesWork_countFactors hfactors, Nat.one_mul, hprod]
  constructor
  · rintro (⟨-, hover⟩ | ⟨count, hcount, hraise⟩)
    · omega
    · rw [countFactors_ok hcount, Nat.one_mul, hprod, raisesWork_enforceWork_bind] at hraise
      exact hraise.resolve_right fun h => hrest h.2
  · intro hover
    rcases countFactors_ok_or_raises
      (groups.flatMap fun group => List.range' 2 (group.length - 1)) 1 with ⟨count, hcount⟩ | hraise
    · refine .inr ⟨count, hcount, ?_⟩
      rw [countFactors_ok hcount, Nat.one_mul, hprod, raisesWork_enforceWork_bind]
      exact .inl hover
    · rw [raisesWork_countFactors hfactors, Nat.one_mul, hprod] at hraise
      exact .inl hraise

end

section

variable {L : Type} [LinearOrder L] (hash : Hash) (arcs : List (BlankNodeArc L)) (labels : List L)

theorem stableRound_eq_some {round : Nat} :
    stableRound hash arcs labels = some round ↔ round < labels.length + 2 ∧ stableAt hash arcs labels round ∧
        ∀ earlier < round, ¬stableAt hash arcs labels earlier := by
  rw [stableRound, find?_range_eq_some]
  simp [and_left_comm]

theorem stableRound_eq_none (h : ∀ round < labels.length + 2, ¬stableAt hash arcs labels round) :
    stableRound hash arcs labels = none := by
  rw [stableRound, find?_range_eq_none]
  simpa using h

omit [LinearOrder L] in
theorem workAfter_mono (h : rounds ≤ rounds') :
    workAfter arcs labels rounds ≤ workAfter arcs labels rounds' :=
  Nat.add_le_add_left (Nat.mul_le_mul_right _ h) _

variable {hash arcs labels}

omit [LinearOrder L] in
theorem workAfter_succ (rounds : Nat) :
    workAfter arcs labels rounds + (2 * labels.length + 2 * arcs.length) = workAfter arcs labels (rounds + 1) := by
  simp only [workAfter, Nat.add_one_mul]
  omega

theorem roundsMade_eq {round : Nat} (h : stableRound hash arcs labels = some round) :
    roundsMade hash arcs labels = round + 1 := by
  simp [roundsMade, h]

theorem lt_roundsMade (hrounds : rounds < labels.length + 2) (hearlier : ∀ earlier < rounds, ¬stableAt hash arcs
    labels earlier) :
    rounds < roundsMade hash arcs labels := by
  unfold roundsMade
  cases hround : stableRound hash arcs labels with
  | none => exact hrounds
  | some round =>
    obtain ⟨-, hstable, -⟩ := (stableRound_eq_some hash arcs labels).mp hround
    have hge : ¬round < rounds := fun hlt => hearlier round hlt hstable
    simp only [Option.elim_some]
    omega

theorem refineLoop_succ {maximum left rounds : Nat} (hpass : workAfter arcs labels (rounds + 1) ≤ maximum) :
    refineLoop hash labels arcs maximum (left + 1) rounds (workAfter arcs labels rounds)
        (colorsAfter hash arcs rounds) =
      if stableAt hash arcs labels rounds then
        .ok (colorsAfter hash arcs (rounds + 1), rounds + 1, workAfter arcs labels (rounds + 1))
      else refineLoop hash labels arcs maximum left (rounds + 1) (workAfter arcs labels (rounds + 1))
        (colorsAfter hash arcs (rounds + 1)) := by
  have hcheck : enforceWork (workAfter arcs labels (rounds + 1)) maximum = .ok () :=
    enforceLimit_ok.mpr hpass
  rw [refineLoop, workAfter_succ, hcheck]
  rfl

/-- The refinement loop ends at the stable round, at the first round over the limit, or after all its
rounds. -/
theorem refineLoop_cases {maximum left rounds : Nat} (hleft : rounds + left = labels.length + 2)
    (hwork : workAfter arcs labels rounds ≤ maximum)
    (hearlier : ∀ earlier < rounds, ¬stableAt hash arcs labels earlier) :
    let outcome := refineLoop hash labels arcs maximum left rounds (workAfter arcs labels rounds)
      (colorsAfter hash arcs rounds)
    (∃ round, stableRound hash arcs labels = some round ∧ workAfter arcs labels (round + 1) ≤ maximum ∧
      outcome = .ok (colorsAfter hash arcs (round + 1), round + 1, workAfter arcs labels (round + 1))) ∨
    (RaisesWork maximum outcome ∧ ∃ made ≤ roundsMade hash arcs labels, maximum < workAfter arcs labels made) ∨
    (stableRound hash arcs labels = none ∧ workAfter arcs labels (labels.length + 2) ≤ maximum ∧
      outcome = .error (.structuralConstraint "blank-node partition refinement did not converge")) := by
  induction left generalizing rounds with
  | zero =>
    obtain rfl : rounds = labels.length + 2 := by omega
    exact .inr (.inr ⟨stableRound_eq_none hash arcs labels hearlier, hwork, rfl⟩)
  | succ left ih =>
    have hmade : rounds < roundsMade hash arcs labels := lt_roundsMade (by omega) hearlier
    by_cases hover : maximum < workAfter arcs labels (rounds + 1)
    · refine .inr (.inl ⟨?_, rounds + 1, hmade, hover⟩)
      rw [refineLoop, workAfter_succ]
      exact raisesWork_enforceWork_bind.mpr (.inl hover)
    · have hpass : workAfter arcs labels (rounds + 1) ≤ maximum := by omega
      rw [refineLoop_succ hpass]
      by_cases hstable : stableAt hash arcs labels rounds
      · have hsome := (stableRound_eq_some hash arcs labels).mpr ⟨by omega, hstable, hearlier⟩
        exact .inl ⟨rounds, hsome, hpass, if_pos hstable⟩
      · rw [if_neg hstable]
        refine ih (by omega) hpass fun earlier hlt => ?_
        rcases Nat.lt_succ_iff_lt_or_eq.mp hlt with hlt | rfl
        · exact hearlier earlier hlt
        · exact hstable

end

section

variable {L : Type} [LinearOrder L] {hash : Hash} {arcs : List (BlankNodeArc L)} {labels : List L}

/-- What is hashed for a label in the refinement of some colors. -/
def colorMessage (arcs : List (BlankNodeArc L)) (colors : L → Bytes) (label : L) : Bytes :=
  colorDomain ++
    ((colors label :: neighborhoodSignatures arcs (some colors) label).map Varint.frame).flatten

/-- The labels of two refined colors that agree already had one color: the old color is the
first thing that is hashed. -/
theorem colors_eq_of_message_eq (h : colorMessage arcs colors a = colorMessage arcs colors b) : colors a = colors b := by
  simp only [colorMessage, map_cons, flatten_cons, append_cancel_left_eq] at h
  exact (Varint.frame_append_inj _ _ _ _ h).1

/-- No two labels of one round with different neighbourhoods get one color. -/
def CollisionFree (hash : Hash) (arcs : List (BlankNodeArc L)) (labels : List L) : Prop :=
  ∀ round, Set.InjOn hash.digest
    {message | ∃ l ∈ labels, message = colorMessage arcs (colorsAfter hash arcs round) l}

theorem CollisionFree.colors_eq (h : CollisionFree hash arcs labels) {round : Nat} {a b : L}
    (ha : a ∈ labels) (hb : b ∈ labels)
    (hab : colorsAfter hash arcs (round + 1) a = colorsAfter hash arcs (round + 1) b) :
    colorsAfter hash arcs round a = colorsAfter hash arcs round b :=
  colors_eq_of_message_eq (h round ⟨a, ha, rfl⟩ ⟨b, hb, rfl⟩ hab)

def classCount (hash : Hash) (arcs : List (BlankNodeArc L)) (labels : List L) (round : Nat) : Nat :=
  (labels.toFinset.image (colorsAfter hash arcs round)).card

/-- A coloring that tells apart all that another one does, and more, has more classes. -/
theorem card_image_lt_card_image [DecidableEq β] [DecidableEq γ] {s : Finset α} {coarse : α → β} {fine : α → γ}
    (hsplits : ∀ a ∈ s, ∀ b ∈ s, fine a = fine b → coarse a = coarse b) {a b : α} (ha : a ∈ s) (hb : b ∈ s) (hcoarse :
    coarse a = coarse b) (hfine : fine a ≠ fine b) :
    (s.image coarse).card < (s.image fine).card := by
  classical
  -- a representative of each fine class gives its coarse class, and two fine classes meet in one
  let back : γ → β := fun c => if h : ∃ x ∈ s, fine x = c then coarse h.choose else coarse a
  have hback : ∀ x ∈ s, back (fine x) = coarse x := by
    intro x hx
    have hex : ∃ y ∈ s, fine y = fine x := ⟨x, hx, rfl⟩
    simp only [back, dif_pos hex]
    exact hsplits _ hex.choose_spec.1 _ hx hex.choose_spec.2
  have himage : s.image coarse = (s.image fine).image back := by
    rw [Finset.image_image]
    exact Finset.image_congr fun x hx => (hback x hx).symm
  rw [himage]
  refine lt_of_le_of_ne Finset.card_image_le fun heq => ?_
  have hinj := Finset.card_image_iff.mp heq
  refine hfine (hinj (Finset.mem_coe.mpr (Finset.mem_image_of_mem _ ha))
    (Finset.mem_coe.mpr (Finset.mem_image_of_mem _ hb)) ?_)
  rw [hback a ha, hback b hb, hcoarse]

theorem CollisionFree.classCount_lt (h : CollisionFree hash arcs labels) {round : Nat}
    (hstable : ¬stableAt hash arcs labels round) :
    classCount hash arcs labels round < classCount hash arcs labels (round + 1) := by
  rw [stableAt, samePartition_iff] at hstable
  push Not at hstable
  obtain ⟨a, ha, b, hb, hdiffer⟩ := hstable
  have hsplits : ∀ a ∈ labels.toFinset, ∀ b ∈ labels.toFinset,
      colorsAfter hash arcs (round + 1) a = colorsAfter hash arcs (round + 1) b →
        colorsAfter hash arcs round a = colorsAfter hash arcs round b := by
    intro a ha b hb hab
    exact h.colors_eq (mem_toFinset.mp ha) (mem_toFinset.mp hb) hab
  rcases hdiffer with ⟨hcoarse, hfine⟩ | ⟨hcoarse, hfine⟩
  · exact card_image_lt_card_image hsplits (mem_toFinset.mpr ha) (mem_toFinset.mpr hb)
      hcoarse hfine
  · exact absurd (h.colors_eq ha hb hfine) hcoarse

/-- After rounds none of which was stable there are more classes than rounds. -/
theorem CollisionFree.lt_classCount (h : CollisionFree hash arcs labels) (hne : labels ≠ [])
    {round : Nat} (hearlier : ∀ earlier < round, ¬stableAt hash arcs labels earlier) :
    round < classCount hash arcs labels round := by
  induction round with
  | zero =>
    obtain ⟨l, hl⟩ := exists_mem_of_ne_nil labels hne
    exact Finset.card_pos.mpr ⟨_, Finset.mem_image_of_mem _ (mem_toFinset.mpr hl)⟩
  | succ round ih =>
    have hbefore := ih fun earlier hlt => hearlier earlier (by omega)
    have hgrows := h.classCount_lt (hearlier round (by omega))
    omega

theorem classCount_le (round : Nat) : classCount hash arcs labels round ≤ labels.length :=
  Finset.card_image_le.trans (toFinset_card_le labels)

/-- Without collisions some round before the number of labels is the last to change anything. -/
theorem CollisionFree.stableRound_lt (h : CollisionFree hash arcs labels) (hne : labels ≠ []) :
    ∃ round < labels.length, stableRound hash arcs labels = some round := by
  have hex : ∃ round < labels.length, stableAt hash arcs labels round := by
    by_contra hnone
    push Not at hnone
    have hmany := h.lt_classCount hne fun earlier hlt => hnone earlier hlt
    have hfew : classCount hash arcs labels labels.length ≤ labels.length := classCount_le _
    omega
  obtain ⟨hlt, hstable⟩ := Nat.find_spec hex
  refine ⟨Nat.find hex, hlt, (stableRound_eq_some hash arcs labels).mpr ⟨by omega, hstable, ?_⟩⟩
  intro earlier hearlier hstable'
  exact Nat.find_min hex hearlier ⟨by omega, hstable'⟩

end

section

variable {L : Type} [LinearOrder L] (hash : Hash) (limits : ParseLimits) (arcs : List (BlankNodeArc L))

/-- What `searchOrders` does before it enumerates: the classes and the rounds, if every check
of the work passes. -/
def checkWork (orderedLabels : List L) : Except Error (List (List L) × Nat) := do
  let maximum := limits.maxCanonicalWork
  enforceLimit "max_terms" (orderedLabels.length + arcs.length) limits.maxTerms
  let work := orderedLabels.length + 2 * arcs.length
  enforceWork work maximum
  let (colors, rounds, work) ← refineLoop hash orderedLabels arcs maximum (orderedLabels.length + 2) 0 work
    (initialColors hash arcs)
  let groups := partitions orderedLabels colors
  let candidateCount ← boundedPermutationCount groups maximum work
  enforceWork (work + candidateCount * max 1 (orderedLabels.length + arcs.length)) maximum
  .ok (groups, rounds)

/-- What `searchOrders` does with the classes: enumerate their orders and take the first least. -/
def enumerateOrders (documentScope : Scope) (classes : List (List L) × Nat) :
    Except Error (AlphaCanonicalization L) :=
  let orders := candidateOrders classes.1
  match Orders.firstLeast (serializeGraph · arcs) orders with
  | none => .error (.assertionError "blank-node canonicalization produced no candidate")
  | some bestOrder =>
    let bestGraph := serializeGraph bestOrder arcs
    .ok ⟨bindingsForOrder hash bestOrder documentScope bestGraph 0, bestGraph, classes.2, orders.length⟩

theorem searchOrders_eq (documentScope : Scope) (orderedLabels : List L) :
    searchOrders hash limits arcs documentScope orderedLabels =
      checkWork hash limits arcs orderedLabels >>= enumerateOrders hash arcs documentScope := by
  simp only [searchOrders, checkWork, bind_assoc]
  rfl

theorem enumerateOrders_ok (documentScope : Scope) (classes : List (List L) × Nat) :
    ∃ result, enumerateOrders hash arcs documentScope classes = .ok result ∧
      result.permutationsExamined = (candidateOrders classes.1).length := by
  obtain ⟨best, hbest⟩ := exists_best_order arcs classes.1
  simp only [enumerateOrders, hbest, Except.ok.injEq, exists_eq_left']

variable {hash limits arcs}

theorem mem_workStages (hne : labels ≠ []) :
    work ∈ workStages hash arcs labels ↔ (∃ made ≤ roundsMade hash arcs labels, work = workAfter arcs labels made) ∨
        ∃ round, stableRound hash arcs labels = some round ∧ work = candidateWork hash arcs labels (round + 1) := by
  simp only [workStages, if_neg hne, mem_append, mem_map, mem_range, Option.mem_toList,
    Option.map_eq_some_iff, Nat.lt_succ_iff]
  simp only [eq_comm]

theorem raisesWork_checkWork {labels : List L} (hne : labels ≠ []) :
    RaisesWork limits.maxCanonicalWork (checkWork hash limits arcs labels) ↔
      labels.length + arcs.length ≤ limits.maxTerms ∧
        ∃ work ∈ workStages hash arcs labels, limits.maxCanonicalWork < work := by
  have hsetup : labels.length + 2 * arcs.length = workAfter arcs labels 0 := by simp [workAfter]
  simp only [mem_workStages hne]
  by_cases hterms : labels.length + arcs.length ≤ limits.maxTerms
  swap
  · simp only [hterms, false_and, iff_false, checkWork]
    rw [raisesWork_bind]
    rintro (hraise | ⟨done, hok, -⟩)
    · exact not_raisesWork_enforceTerms hraise
    · exact hterms (enforceLimit_ok.mp hok)
  have htermsOk : enforceLimit "max_terms" (labels.length + arcs.length) limits.maxTerms = .ok () :=
    enforceLimit_ok.mpr hterms
  simp only [hterms, true_and, checkWork, htermsOk, hsetup]
  by_cases hwork : workAfter arcs labels 0 ≤ limits.maxCanonicalWork
  swap
  · have hover : limits.maxCanonicalWork < workAfter arcs labels 0 := by omega
    exact ⟨fun _ => ⟨_, .inl ⟨0, Nat.zero_le _, rfl⟩, hover⟩, fun _ => raisesWork_enforceWork_bind.mpr (.inl hover)⟩
  have hworkOk : enforceWork (workAfter arcs labels 0) limits.maxCanonicalWork = .ok () :=
    enforceLimit_ok.mpr hwork
  have hcases := @refineLoop_cases L _ hash arcs labels limits.maxCanonicalWork (labels.length + 2) 0
    (by omega) hwork (by simp)
  simp only [colorsAfter] at hcases
  rcases hcases with ⟨round, hround, hle, hloop⟩ | ⟨hraise, made, hmade, hover⟩ | ⟨hround, hle, hloop⟩
  · -- the classes are stable, and only the candidate orders are left
    rw [hworkOk, hloop]
    have hcandidates : RaisesWork limits.maxCanonicalWork (do
        let count ← boundedPermutationCount (partitions labels (colorsAfter hash arcs (round + 1)))
          limits.maxCanonicalWork (workAfter arcs labels (round + 1))
        enforceWork (workAfter arcs labels (round + 1) + count * max 1 (labels.length + arcs.length))
          limits.maxCanonicalWork
        .ok (partitions labels (colorsAfter hash arcs (round + 1)), round + 1)) ↔
        limits.maxCanonicalWork < candidateWork hash arcs labels (round + 1) :=
      raisesWork_candidates hle (by omega) (not_raisesWork_ok _)
    refine hcandidates.trans ⟨fun hover => ⟨_, .inr ⟨round, hround, rfl⟩, hover⟩, ?_⟩
    rintro ⟨work, ⟨made, hmade, rfl⟩ | ⟨round', hround', rfl⟩, hover⟩
    · rw [roundsMade_eq hround] at hmade
      have hwithin := workAfter_mono arcs labels hmade
      omega
    · obtain rfl : round = round' := Option.some.inj (hround.symm.trans hround')
      exact hover
  · rw [hworkOk]
    exact ⟨fun _ => ⟨_, .inl ⟨made, hmade, rfl⟩, hover⟩, fun _ =>
      raisesWork_bind.mpr (.inr ⟨(), rfl, raisesWork_bind.mpr (.inr ⟨(), rfl, raisesWork_bind.mpr (.inl hraise)⟩)⟩)⟩
  · rw [hworkOk, hloop]
    constructor
    · rintro ⟨observed, hraise⟩
      cases hraise
    · rintro ⟨work, ⟨made, hmade, rfl⟩ | ⟨round, hround', rfl⟩, hover⟩
      · simp only [roundsMade, hround, Option.elim_none] at hmade
        have hwithin := workAfter_mono arcs labels hmade
        omega
      · simp [hround] at hround'

/-- With a stable partition in reach the checks never say that the refinement did not converge. -/
theorem checkWork_ne_notConverged {labels : List L} {round : Nat} (hround : stableRound hash arcs labels = some round) :
    checkWork hash limits arcs labels ≠
      .error (.structuralConstraint "blank-node partition refinement did not converge") := by
  have hlimit : ∀ (limit : String) (observed allowed : Nat), enforceLimit limit observed allowed ≠
      .error (.structuralConstraint "blank-node partition refinement did not converge") := by
    intro limit observed allowed
    unfold enforceLimit
    split <;> simp
  have hsetup : labels.length + 2 * arcs.length = workAfter arcs labels 0 := by simp [workAfter]
  simp only [checkWork, hsetup, ne_eq, Fallible.bind_eq_error, hlimit, enforceWork, false_or, not_exists,
    not_and, enforceLimit_ok]
  rintro - - - hwork hfails
  have hcases := @refineLoop_cases L _ hash arcs labels limits.maxCanonicalWork (labels.length + 2) 0
    (by omega) hwork (by simp)
  simp only [colorsAfter] at hcases
  rcases hfails with hloop | ⟨outcome, hloop, hcount | ⟨count, -, hfails⟩⟩
  · rcases hcases with ⟨stable, -, -, hok⟩ | ⟨⟨observed, hraise⟩, -⟩ | ⟨hnone, -⟩
    · rw [hok] at hloop
      cases hloop
    · rw [hraise] at hloop
      cases hloop
    · simp [hround] at hnone
  · rcases countFactors_ok_or_raises _ _ with ⟨total, hok⟩ | ⟨observed, hraise⟩
    · exact absurd (hok.symm.trans hcount) (by simp)
    · exact absurd (hraise.symm.trans hcount) (by simp)
  · obtain ⟨-, -, hfails⟩ := hfails
    cases hfails

/-- The error of the work limit is raised exactly when the terms are within their limit and the work of
some stage is over `max_canonical_work`; the enumeration raises nothing and examines as many orders as
the last stage priced. Without collisions the refinement is stable within as many rounds as there are
labels. -/
theorem canonicalWork_limit (hash : Hash) (limits : ParseLimits) (arcs : List (BlankNodeArc L))
    (documentScope : Scope) (labels : List L) :
    (RaisesWork limits.maxCanonicalWork
        (alphaCanonicalizeBlankNodes hash limits arcs documentScope labels) ↔
      (labelSet arcs labels).length + arcs.length ≤ limits.maxTerms ∧
        ∃ work ∈ workStages hash arcs (labelSet arcs labels), limits.maxCanonicalWork < work) ∧
    (searchOrders hash limits arcs documentScope (labelSet arcs labels) =
        checkWork hash limits arcs (labelSet arcs labels) >>= enumerateOrders hash arcs documentScope ∧
      ∀ classes, ∃ result, enumerateOrders hash arcs documentScope classes = .ok result ∧ result.permutationsExamined =
          (classes.1.map fun group => group.length.factorial).prod) ∧
    (CollisionFree hash arcs (labelSet arcs labels) → (labelSet arcs labels ≠ [] →
        ∃ round < (labelSet arcs labels).length, stableRound hash arcs (labelSet arcs labels) = some round) ∧
      alphaCanonicalizeBlankNodes hash limits arcs documentScope labels ≠
        .error (.structuralConstraint "blank-node partition refinement did not converge")) := by
  refine ⟨?_, ⟨searchOrders_eq hash limits arcs documentScope _, fun classes => ?_⟩, fun hfree => ⟨?_, ?_⟩⟩
  · by_cases hne : labelSet arcs labels = []
    · simp [alphaCanonicalizeBlankNodes, hne, workStages]
    · rw [alphaCanonicalizeBlankNodes, if_neg hne, searchOrders_eq, raisesWork_bind, ← raisesWork_checkWork hne]
      refine ⟨?_, .inl⟩
      rintro (hraise | ⟨classes, -, hraise⟩)
      · exact hraise
      · obtain ⟨result, hok, -⟩ := enumerateOrders_ok hash arcs documentScope classes
        rw [hok] at hraise
        exact absurd hraise (not_raisesWork_ok _)
  · obtain ⟨result, hok, hexamined⟩ := enumerateOrders_ok hash arcs documentScope classes
    exact ⟨result, hok, hexamined.trans (Orders.length_grouped _)⟩
  · exact hfree.stableRound_lt
  · by_cases hne : labelSet arcs labels = []
    · simp [alphaCanonicalizeBlankNodes, hne]
    · obtain ⟨round, -, hround⟩ := hfree.stableRound_lt hne
      rw [alphaCanonicalizeBlankNodes, if_neg hne, searchOrders_eq, ne_eq, Fallible.bind_eq_error]
      rintro (hfails | ⟨classes, -, hfails⟩)
      · exact checkWork_ne_notConverged hround hfails
      · obtain ⟨result, hok, -⟩ := enumerateOrders_ok hash arcs documentScope classes
        exact absurd (hok.symm.trans hfails) (by simp)

end

theorem colorsAfter_isolated [LinearOrder L] (hash : Hash) (round : Nat) (a b : L) :
    colorsAfter hash [] round a = colorsAfter hash [] round b := by
  induction round with
  | zero => rfl
  | succ round ih =>
    simp only [colorsAfter, refineColors, colorsFromSignatures, neighborhoodSignatures, filterMap_nil, ih]

theorem collisionFree_isolated [LinearOrder L] (hash : Hash) (labels : List L) :
    CollisionFree hash [] labels := by
  rintro round _ ⟨a, -, rfl⟩ _ ⟨b, -, rfl⟩ -
  simp only [colorMessage, neighborhoodSignatures, filterMap_nil, colorsAfter_isolated hash round a b]

/-- Two labels without arcs are told apart by no round: the first one is stable. -/
theorem canonicalWork_limit_isolated :
    CollisionFree sha256 [] (labelSet [] ["a", "b"]) ∧
      ∃ round < 2, stableRound sha256 [] (labelSet [] ["a", "b"]) = some round := by
  have hlabels : labelSet ([] : List (BlankNodeArc String)) ["a", "b"] = ["a", "b"] := by decide +kernel
  have hfree := collisionFree_isolated sha256 (labelSet ([] : List (BlankNodeArc String)) ["a", "b"])
  have hne : labelSet ([] : List (BlankNodeArc String)) ["a", "b"] ≠ [] := by simp [hlabels]
  obtain ⟨round, hlt, hround⟩ :=
    ((canonicalWork_limit sha256 {} [] (sha256.scope []) ["a", "b"]).2.2 hfree).1 hne
  rw [hlabels] at hlt
  exact ⟨hfree, round, hlt, hround⟩

/-- The limit on terms is checked first: the work of the setup is over its limit, but the error
is the one of the terms. -/
theorem canonicalWork_terms_first :
    ¬(RaisesWork 1 (alphaCanonicalizeBlankNodes sha256 { maxTerms := 1, maxCanonicalWork := 1 } []
          (sha256.scope []) ["a", "b"]) ↔
        ∃ work ∈ workStages sha256 [] (labelSet [] ["a", "b"]), 1 < work) := by
  have hlabels : labelSet ([] : List (BlankNodeArc String)) ["a", "b"] = ["a", "b"] := by decide +kernel
  intro h
  have hover : ∃ work ∈ workStages sha256 [] (labelSet [] ["a", "b"]), 1 < work := by
    rw [hlabels]
    exact ⟨2, (mem_workStages (by simp)).mpr (.inl ⟨0, Nat.zero_le _, rfl⟩), by decide⟩
  obtain ⟨observed, hraise⟩ := h.mpr hover
  simp only [alphaCanonicalizeBlankNodes, hlabels] at hraise
  exact absurd hraise (by simp [searchOrders, enforceLimit, bind, Except.bind])

end OwlCore
