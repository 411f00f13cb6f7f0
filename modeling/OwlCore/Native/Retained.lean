import OwlCore.View.Overlay
import OwlCore.Wire.Table

/-!
# Pages of the native axiom index

The index keeps the axiom roots in canonical order and the positions at which each constructor
starts. The rows of a constructor are read page by page under the bounds of each call.
Cancellation, the memory of the arena and overflow are left out; allocations have the size asked
for.
-/
namespace OwlCore.Native

open Fallible KeyedSet List

def axiomCategoryCode (tag : Nat) : Option Nat :=
  if tag = 60 then some 1
  else if 61 ≤ tag ∧ tag ≤ 64 ∨ 70 ≤ tag ∧ tag ≤ 82 ∨ 90 ≤ tag ∧ tag ≤ 95 ∨ 100 ≤ tag ∧ tag ≤ 101 ∨
    110 ≤ tag ∧ tag ≤ 116 then some 2
  else if 120 ≤ tag ∧ tag ≤ 123 then some 3
  else none

structure RetainedAxiomTypeIndex where
  roots : List Node
  tags : List Nat
  offsets : List Nat
  postings : List Nat
  canonicalSizes : List Nat

structure RetainedAxiomTypePage where
  totalCount : Nat
  nextCursor : Option Nat
  rows : List Bytes

/-- The first loop of the build over the tags of the roots, after a tag and its category. -/
def checkRoots : Option (Nat × Nat) → List Nat → Except Error Unit
  | _, [] => .ok ()
  | previous, tag :: rest => do
    reject (tag < 60 ∨ 123 < tag) (.backendProtocol "retained axiom-type index received a non-axiom root")
    match axiomCategoryCode tag with
    | none => .error (.backendProtocol "retained axiom-type index received a non-root axiom constructor")
    | some category => do
      reject (previous.any (tag < ·.1) = true)
        (.backendProtocol "retained axiom-type roots are not canonical by constructor")
      reject (previous.any (category < ·.2) = true)
        (.backendProtocol "retained axiom-type roots are not canonical by category")
      checkRoots (some (tag, category)) rest

/-- The tags and offsets that the second loop pushes from a position on. -/
def groupTags : Nat → Option Nat → List Nat → List Nat × List Nat
  | position, previous, [] => ([], if previous.isSome then [position] else [])
  | position, previous, tag :: rest =>
    let (tags, offsets) := groupTags (position + 1) (some tag) rest
    if previous = some tag then (tags, offsets)
    else (tag :: tags, if previous.isSome then position :: offsets else offsets)

section

variable (limits : ParseLimits) (index : RetainedAxiomTypeIndex)

/-- `build_retained_axiom_type_index_v1`. -/
def buildRetainedAxiomTypeIndex (roots : List Node) : Except Error RetainedAxiomTypeIndex := do
  enforceLimit "max_axioms" roots.length limits.maxAxioms
  enforceLimit "max_index_rows" roots.length limits.maxIndexRows
  let tags := roots.map (·.constructor.tag)
  checkRoots none tags
  let (groups, offsets) := groupTags 0 none tags
  .ok ⟨roots, groups, 0 :: offsets, List.range roots.length, roots.map (·.bytes.length)⟩

/-- The offsets on both sides of the group that `binary_search` finds in the ascending tags. -/
def postingRange : List Nat → List Nat → Nat → Nat × Nat
  | tag :: tags, start :: offsets, target =>
    if tag = target then (start, offsets.headD 0) else postingRange tags offsets target
  | _, _, _ => (0, 0)

/-- The loop over the postings of a page, after `rows` with `payload` bytes. -/
def pageLoop (outerBytes maxBytes : Nat) : List Nat → Nat → List Bytes → Except Error (List Bytes)
  | [], _, rows => .ok rows
  | ordinal :: rest, payload, rows =>
    match index.roots[ordinal]?, index.canonicalSizes[ordinal]? with
    | some root, some size =>
      if rows ≠ [] ∧ maxBytes < payload + size then .ok rows
      else do
        reject (root.bytes.length ≠ size) (.backendProtocol "retained axiom-type canonical row size drifted")
        enforceLimit "max_temporary_bytes" (outerBytes + (payload + size)) limits.maxTemporaryBytes
        pageLoop outerBytes maxBytes rest (payload + size) (rows ++ [root.bytes])
    | none, _ => .error (.backendProtocol "retained axiom-type posting is out of bounds")
    | _, none => .error (.backendProtocol "retained axiom-type canonical size is absent")

/-- `constructor_page`; a row of the page takes 24 bytes besides its own. -/
def constructorPage (tag start : Nat) (bounds : Nat × Nat) : Except Error RetainedAxiomTypePage := do
  let (maxRows, maxBytes) := bounds
  reject (maxRows = 0 ∨ 64 < maxRows ∨ maxBytes = 0 ∨ 8 * 1024 * 1024 < maxBytes)
    (.backendProtocol "retained axiom-type page bounds are invalid")
  enforceLimit "max_temporary_bytes" maxBytes limits.maxTemporaryBytes
  let (postingStart, postingStop) := postingRange index.tags index.offsets tag
  reject (postingStop < postingStart ∨ index.postings.length < postingStop)
    (.backendProtocol "retained axiom-type page offsets are invalid")
  let totalCount := postingStop - postingStart
  reject (totalCount < start) (.backendProtocol "retained axiom-type page start exceeds its total")
  let rowCount := min (totalCount - start) maxRows
  let rows ← pageLoop limits index (rowCount * 24) maxBytes ((index.postings.drop (postingStart + start)).take rowCount) 0 []
  let stop := start + rows.length
  .ok ⟨totalCount, if stop ≠ totalCount then some stop else none, rows⟩

/-- Following `next_cursor` from a cursor until it is absent, the calls numbered from `call` on. -/
inductive PageRun (tag : Nat) (bounds : Nat → Nat × Nat) : Nat → Nat → List (List Bytes) → Prop where
  | last {call cursor : Nat} {page : RetainedAxiomTypePage} (h : constructorPage limits index tag cursor (bounds call) = .ok page)
      (hnext : page.nextCursor = none) : PageRun tag bounds call cursor [page.rows]
  | more {call cursor next : Nat} {page : RetainedAxiomTypePage} {pages : List (List Bytes)}
      (h : constructorPage limits index tag cursor (bounds call) = .ok page) (hnext : page.nextCursor = some next)
      (run : PageRun tag bounds (call + 1) next pages) : PageRun tag bounds call cursor (page.rows :: pages)

end

section

variable {α : Type} {key : α → Nat} {prior t : Nat} {l : List α}

theorem notMem_of_sorted (h : (prior :: tag :: rest).Pairwise (· ≤ ·)) (hne : tag ≠ prior) :
    prior ∉ tag :: rest := by
  obtain ⟨hprior, hrest⟩ := pairwise_cons.mp h
  have hle := hprior tag (.head _)
  intro hmem
  rcases mem_cons.mp hmem with rfl | hmem
  · exact hne rfl
  · have := (pairwise_cons.mp hrest).1 prior hmem
    omega

theorem take_count_eq_filter (h : (prior :: l.map key).Pairwise (· ≤ ·)) :
    l.take ((l.map key).count prior) = l.filter (key · = prior) := by
  induction l with
  | nil => rfl
  | cons a l ih =>
    by_cases ha : key a = prior
    · have hih := ih (ha ▸ (pairwise_cons.mp h).2)
      simp [ha, hih]
    · have hnot := notMem_of_sorted h ha
      rw [map_cons, count_eq_zero.mpr hnot, take_zero, eq_comm, filter_eq_nil_iff]
      intro b hb heq
      exact hnot (mem_map.mpr ⟨b, hb, of_decide_eq_true heq⟩)

theorem headD_groupTags (h : (prior :: tags).Pairwise (· ≤ ·)) (position : Nat) :
    (groupTags position (some prior) tags).2.headD 0 = position + tags.count prior := by
  induction tags generalizing position with
  | nil => simp [groupTags]
  | cons tag rest ih =>
    by_cases htag : tag = prior
    · have hih := ih (htag ▸ (pairwise_cons.mp h).2) (position + 1)
      simp only [groupTags, htag, if_true, hih, count_cons_self]
      omega
    · rw [count_eq_zero.mpr (notMem_of_sorted h htag)]
      simp [groupTags, Ne.symm htag]

theorem exists_postingRange (front : List α) (h : (prior :: l.map key).Pairwise (· ≤ ·)) (ht : t ≠ prior) (start : Nat) :
    ∃ first ≤ (front ++ l).length,
      postingRange (prior :: (groupTags front.length (some prior) (l.map key)).1)
          (start :: (groupTags front.length (some prior) (l.map key)).2) t = (first, first + (l.map key).count t) ∧
      ((front ++ l).drop first).take ((l.map key).count t) = l.filter (key · = t) := by
  induction l generalizing front prior start with
  | nil => exact ⟨0, Nat.zero_le _, by simp [groupTags, postingRange, Ne.symm ht], by simp⟩
  | cons a l ih =>
    have hrest := (pairwise_cons.mp h).2
    have hfront : (front ++ [a]).length = front.length + 1 := length_append
    have happend : front ++ a :: l = (front ++ [a]) ++ l := by simp
    by_cases hprior : key a = prior
    · obtain ⟨first, hle, hrange, hfilter⟩ := ih (front ++ [a]) (hprior ▸ hrest) ht start
      rw [hfront] at hrange
      rw [happend]
      simp only [map_cons, groupTags, hprior, if_true, count_cons_of_ne (Ne.symm ht), filter_cons, Ne.symm ht, decide_false]
      exact ⟨first, hle, hrange, hfilter⟩
    · have hnone : some prior ≠ some (key a) := fun heq => hprior (Option.some.inj heq).symm
      simp only [map_cons, groupTags, hnone, if_false, Option.isSome_some, if_true]
      rw [postingRange, if_neg (Ne.symm ht)]
      by_cases hta : t = key a
      · subst hta
        refine ⟨front.length, by simp, ?_, ?_⟩
        · rw [postingRange, if_pos rfl, headD_groupTags hrest, count_cons_self]
          simp [Nat.add_comm, Nat.add_left_comm]
        · simp [take_count_eq_filter hrest]
      · obtain ⟨first, hle, hrange, hfilter⟩ := ih (front ++ [a]) hrest hta front.length
        rw [hfront] at hrange
        rw [happend]
        simp only [count_cons_of_ne (Ne.symm hta), filter_cons, Ne.symm hta, decide_false]
        exact ⟨first, hle, hrange, hfilter⟩

end

section

variable {roots : List Node}

theorem axiomCategoryCode_mono (h : a ≤ b) (ha : axiomCategoryCode a = some c) (hb : axiomCategoryCode b = some d) : c ≤ d := by
  unfold axiomCategoryCode at ha hb
  split_ifs at ha hb <;> simp only [Option.some.injEq] at ha hb <;> omega

theorem axiomTag_spec (h : c ∈ axiomTypes) :
    60 ≤ c.tag ∧ c.tag ≤ 123 ∧ (axiomCategoryCode c.tag).isSome = true := by
  revert c
  decide

theorem tag_le_of_bytes_lt {m n : Node} (hm : m.constructor ∈ axiomTypes) (hn : n.constructor ∈ axiomTypes)
    (h : m.bytes < n.bytes) : m.constructor.tag ≤ n.constructor.tag := by
  have hmtag := axiomTag_spec hm
  have hntag := axiomTag_spec hn
  rw [Node.bytes_eq, Node.bytes_eq, Varint.encode_of_lt (by omega), Varint.encode_of_lt (by omega),
    singleton_append, singleton_append, cons_lt_cons_iff] at h
  have hle : UInt8.ofNat m.constructor.tag ≤ UInt8.ofNat n.constructor.tag := h.elim le_of_lt fun h => h.1.le
  rw [UInt8.le_iff_toNat_le, UInt8.toNat_ofNat', UInt8.toNat_ofNat'] at hle
  omega

theorem pairwise_tags (h : Ascending Node.bytes roots) (htypes : ∀ n ∈ roots, n.constructor ∈ axiomTypes) :
    (roots.map (·.constructor.tag)).Pairwise (· ≤ ·) := by
  rw [pairwise_map]
  exact h.imp_of_mem fun hm hn => tag_le_of_bytes_lt (htypes _ hm) (htypes _ hn)

theorem checkRoots_ok (hsorted : tags.Pairwise (· ≤ ·)) (htags : ∀ tag ∈ tags, ∃ c ∈ axiomTypes, c.tag = tag)
    (hprevious : ∀ prior ∈ previous, axiomCategoryCode prior.1 = some prior.2 ∧ ∀ tag ∈ tags, prior.1 ≤ tag) :
    checkRoots previous tags = .ok () := by
  induction tags generalizing previous with
  | nil => rfl
  | cons tag rest ih =>
    obtain ⟨hfirst, hrest⟩ := pairwise_cons.mp hsorted
    obtain ⟨c, hc, rfl⟩ := htags tag (.head _)
    obtain ⟨hlow, hhigh, hcode⟩ := axiomTag_spec hc
    obtain ⟨category, hcategory⟩ := Option.isSome_iff_exists.mp hcode
    simp only [checkRoots, check_bind_eq_ok, reject_eq_ok, hcategory]
    refine ⟨by omega, ?_, ?_, ih hrest (fun tag htag => htags tag (.tail _ htag)) ?_⟩
    · cases previous with
      | none => simp
      | some prior => simpa using (hprevious prior rfl).2 _ (.head _)
    · cases previous with
      | none => simp
      | some prior =>
        obtain ⟨hprior, hle⟩ := hprevious prior rfl
        simpa using axiomCategoryCode_mono (hle _ (.head _)) hprior hcategory
    · rintro _ ⟨rfl⟩
      exact ⟨hcategory, hfirst⟩

end

section

variable {limits : ParseLimits} {index : RetainedAxiomTypeIndex}

theorem pageLoop_spec (h : Forall₂ (fun o n => index.roots[o]? = some n ∧ index.canonicalSizes[o]? = some
    n.bytes.length) ordinals nodes) (hroom : outerBytes + (rows ++ nodes.map Node.bytes).flatten.length ≤
    limits.maxTemporaryBytes) (hrows : rows.flatten.length ≤ maxBytes ∨ rows.length ≤ 1) :
    ∃ n ≤ nodes.length, pageLoop limits index outerBytes maxBytes ordinals rows.flatten.length rows =
        .ok (rows ++ (nodes.take n).map Node.bytes) ∧ (rows = [] → nodes ≠ [] → 0 < n) ∧
      ((rows ++ (nodes.take n).map Node.bytes).flatten.length ≤ maxBytes ∨
        (rows ++ (nodes.take n).map Node.bytes).length ≤ 1) := by
  induction h generalizing rows with
  | nil => exact ⟨0, le_rfl, by simp [pageLoop], by simp, by simpa using hrows⟩
  | @cons o node ordinals nodes hroot _ ih =>
    simp only [pageLoop, hroot.1, hroot.2]
    by_cases hbreak : rows ≠ [] ∧ maxBytes < rows.flatten.length + node.bytes.length
    · refine ⟨0, Nat.zero_le _, by rw [if_pos hbreak]; simp, fun hnil => absurd hnil hbreak.1, by simpa using hrows⟩
    · have happend : (rows ++ [node.bytes]).flatten.length = rows.flatten.length + node.bytes.length := by simp
      have hassoc : rows ++ (node :: nodes).map Node.bytes = (rows ++ [node.bytes]) ++ nodes.map Node.bytes := by simp
      rw [hassoc] at hroom
      obtain ⟨n, hn, hloop, -, hbounds⟩ := ih hroom (by
        rw [happend]
        by_cases hnil : rows = []
        · simp [hnil]
        · exact .inl (not_lt.mp fun hlt => hbreak ⟨hnil, hlt⟩))
      refine ⟨n + 1, Nat.succ_le_succ hn, ?_, fun _ _ => Nat.succ_pos n, ?_⟩
      · rw [if_neg hbreak, take_succ_cons, map_cons]
        have hle : outerBytes + (rows.flatten.length + node.bytes.length) ≤ limits.maxTemporaryBytes := by
          rw [flatten_append, length_append, happend] at hroom
          omega
        refine check_bind_eq_ok.mpr ⟨reject_eq_ok.mpr (by simp), check_bind_eq_ok.mpr ⟨enforceLimit_ok.mpr hle, ?_⟩⟩
        rw [← happend, hloop]
        simp
      · simpa using hbounds

def constructorRows (roots : List Node) (tag : Nat) : List Bytes :=
  (roots.filter (·.constructor.tag = tag)).map Node.bytes

structure Admits (limits : ParseLimits) (roots : List Node) : Prop where
  axioms : roots.length ≤ limits.maxAxioms
  rows : roots.length ≤ limits.maxIndexRows
  bytes : 64 * 24 + (roots.map Node.bytes).flatten.length ≤ limits.maxTemporaryBytes

/-- Bounds that a call accepts: up to 64 rows and up to 8 MiB. -/
def ValidBounds (limits : ParseLimits) (bounds : Nat × Nat) : Prop :=
  (0 < bounds.1 ∧ bounds.1 ≤ 64) ∧ (0 < bounds.2 ∧ bounds.2 ≤ 8 * 1024 * 1024) ∧ bounds.2 ≤ limits.maxTemporaryBytes

/-- The number of rows, and a page of up to 64 rows that is larger than asked for only with one row. -/
def WithinBounds (bounds : Nat × Nat) (page : List Bytes) : Prop :=
  page.length ≤ bounds.1 ∧ (bounds.2 < page.flatten.length → page.length = 1)

variable {roots : List Node}

/-- An index of the roots: every constructor has the positions of its rows. -/
structure Retains (roots : List Node) (index : RetainedAxiomTypeIndex) : Prop where
  roots_eq : index.roots = roots
  postings : index.postings = List.range roots.length
  sizes : index.canonicalSizes = roots.map (·.bytes.length)
  ranges : ∀ tag, ∃ start ≤ roots.length,
    postingRange index.tags index.offsets tag = (start, start + (constructorRows roots tag).length) ∧
      (roots.drop start).take (constructorRows roots tag).length = roots.filter (·.constructor.tag = tag)

theorem exists_retains (hroots : Ascending Node.bytes roots) (htypes : ∀ n ∈ roots, n.constructor ∈ axiomTypes)
    (hlimits : Admits limits roots) :
    ∃ index, buildRetainedAxiomTypeIndex limits roots = .ok index ∧ Retains roots index := by
  have hsorted := pairwise_tags hroots htypes
  have hcheck : checkRoots none (roots.map (·.constructor.tag)) = .ok () := by
    refine checkRoots_ok hsorted (fun tag htag => ?_) (by simp)
    obtain ⟨n, hn, rfl⟩ := mem_map.mp htag
    exact ⟨_, htypes n hn, rfl⟩
  refine ⟨_, check_bind_eq_ok.mpr ⟨enforceLimit_ok.mpr hlimits.axioms, check_bind_eq_ok.mpr
    ⟨enforceLimit_ok.mpr hlimits.rows, check_bind_eq_ok.mpr ⟨hcheck, rfl⟩⟩⟩, rfl, rfl, rfl, fun tag => ?_⟩
  have hlength : (constructorRows roots tag).length = (roots.map (·.constructor.tag)).count tag := by
    rw [constructorRows, length_map, ← countP_eq_length_filter, count, countP_map]
    rfl
  rw [hlength]
  cases roots with
  | nil => exact ⟨0, le_rfl, rfl, rfl⟩
  | cons root rest =>
    simp only [map_cons, groupTags, reduceCtorEq, if_false, Option.isSome_none, Bool.false_eq_true]
    by_cases htag : tag = root.constructor.tag
    · subst htag
      refine ⟨0, Nat.zero_le _, ?_, ?_⟩
      · rw [postingRange, if_pos rfl, headD_groupTags hsorted, count_cons_self]
        simp [Nat.add_comm]
      · simp [take_count_eq_filter hsorted]
    · have hrange := exists_postingRange [root] hsorted htag 0
      simpa [count_cons_of_ne (Ne.symm htag), Ne.symm htag] using hrange

/-- A call at a cursor gives a part of the rows that are left, and the cursor behind it. -/
def GivesPage (limits : ParseLimits) (index : RetainedAxiomTypeIndex) (tag : Nat) (rows : List Bytes) (cursor : Nat)
    (bounds : Nat × Nat) : Prop :=
  ∃ n, constructorPage limits index tag cursor bounds =
      .ok ⟨rows.length, if cursor + n ≠ rows.length then some (cursor + n) else none, (rows.drop cursor).take n⟩ ∧
    cursor + n ≤ rows.length ∧ (cursor < rows.length → 0 < n) ∧ WithinBounds bounds ((rows.drop cursor).take n)

theorem Retains.givesPage (h : Retains roots index) (hlimits : Admits limits roots) (hbounds : ValidBounds limits
    bounds) (hcursor : cursor ≤ (constructorRows roots tag).length) :
    GivesPage limits index tag (constructorRows roots tag) cursor bounds := by
  obtain ⟨start, hstart, hrange, hrows⟩ := h.ranges tag
  unfold GivesPage
  obtain ⟨maxRows, maxBytes⟩ := bounds
  obtain ⟨⟨hmin, hmax⟩, ⟨hlow, hhigh⟩, htemporary⟩ := hbounds
  obtain ⟨total, htotal⟩ : ∃ total, total = (constructorRows roots tag).length := ⟨_, rfl⟩
  rw [← htotal] at hrange hrows hcursor ⊢
  obtain ⟨count, hcount⟩ : ∃ count, count = min (total - cursor) maxRows := ⟨_, rfl⟩
  obtain ⟨nodes, hnodes⟩ : ∃ nodes, nodes = (roots.drop (start + cursor)).take count := ⟨_, rfl⟩
  have hpart : nodes = ((roots.filter (·.constructor.tag = tag)).drop cursor).take count := by
    rw [hnodes, ← hrows, drop_take, drop_drop, take_take, hcount, min_right_comm, min_self]
  have hmap : ∀ n ≤ count, (nodes.take n).map Node.bytes = ((constructorRows roots tag).drop cursor).take n := by
    intro n hn
    rw [hpart, take_take, min_eq_left hn, map_take, map_drop]
    rfl
  have hlength : nodes.length = count := by
    have hwhole := congrArg List.length (hmap count le_rfl)
    rw [length_map, length_take, length_take, length_drop, ← htotal] at hwhole
    have hle : nodes.length ≤ count := hnodes ▸ length_take_le _ _
    omega
  have hall : Forall₂ (fun o n => index.roots[o]? = some n ∧ index.canonicalSizes[o]? = some n.bytes.length)
      ((index.postings.drop (start + cursor)).take count) nodes := by
    rw [h.roots_eq, h.sizes, h.postings, hnodes]
    refine forall₂_take _ (forall₂_drop _ (forall₂_iff_get.mpr ⟨by simp, fun i hi hi' => ?_⟩))
    simp [getElem?_eq_getElem hi']
  have hroom : count * 24 + (([] : List Bytes) ++ nodes.map Node.bytes).flatten.length ≤ limits.maxTemporaryBytes := by
    have hsplit : roots.take (start + cursor) ++ (nodes ++ (roots.drop (start + cursor)).drop count) = roots := by
      rw [hnodes, take_append_drop, take_append_drop]
    have hbytes := hlimits.bytes
    rw [← hsplit, map_append, map_append, flatten_append, flatten_append, length_append, length_append] at hbytes
    rw [nil_append]
    omega
  obtain ⟨n, hn, hloop, hpositive, hwithin⟩ := pageLoop_spec hall hroom (.inl (Nat.zero_le maxBytes))
  rw [hlength] at hn
  rw [nil_append, hmap n hn] at hloop hwithin
  have htaken : (((constructorRows roots tag).drop cursor).take n).length = n := by
    rw [length_take, length_drop, ← htotal]
    omega
  refine ⟨n, ?_, by omega, fun hlt => ?_, ?_, fun hlarge => ?_⟩
  · have hinside : start + total ≤ index.postings.length := by
      have hfilter := congrArg List.length hrows
      rw [length_take, length_drop] at hfilter
      have hsame : (roots.filter (·.constructor.tag = tag)).length = total := by rw [htotal, constructorRows, length_map]
      rw [h.postings, length_range]
      omega
    simp only [constructorPage, hrange, Nat.add_sub_cancel_left, check_bind_eq_ok, reject_eq_ok, enforceLimit_ok,
      ← hcount]
    exact ⟨by omega, htemporary, by omega, by omega, bind_eq_ok.mpr ⟨_, hloop, by rw [htaken]⟩⟩
  · refine hpositive rfl (ne_nil_of_length_pos ?_)
    omega
  · rw [htaken]
    omega
  · have hone := hwithin.resolve_left (not_le.mpr hlarge)
    have hne : 0 < (((constructorRows roots tag).drop cursor).take n).length := by
      rw [length_pos_iff]
      rintro hnil
      simp [hnil] at hlarge
    omega

theorem exists_pageRun (hpage : ∀ call cursor, cursor ≤ rows.length → GivesPage limits index tag rows cursor (bounds
    call)) (call cursor : Nat) (hcursor : cursor ≤ rows.length) :
    ∃ pages, PageRun limits index tag bounds call cursor pages ∧ pages.flatten = rows.drop cursor ∧
      ∀ i page, pages[i]? = some page → WithinBounds (bounds (call + i)) page ∧ (rows.drop cursor ≠ [] → page ≠ []) := by
  -- every page but the last one moves the cursor
  induction hleft : rows.length - cursor using Nat.strong_induction_on generalizing call cursor with
  | _ left ih =>
    obtain ⟨n, hcall, hle, hpositive, hwithin⟩ := hpage call cursor hcursor
    have hnonempty : rows.drop cursor ≠ [] → (rows.drop cursor).take n ≠ [] := by
      intro hne
      have hlt : cursor < rows.length := by simpa [drop_eq_nil_iff] using hne
      have hn := hpositive hlt
      simp only [ne_eq, take_eq_nil_iff, hne, or_false]
      omega
    by_cases hend : cursor + n = rows.length
    · refine ⟨_, .last hcall (by simp [hend]), ?_, fun i page hpage => ?_⟩
      · rw [flatten_singleton, take_of_length_le]
        rw [length_drop]
        omega
      · rcases i with _ | i
        · obtain rfl := Option.some.inj hpage
          exact ⟨hwithin, hnonempty⟩
        · simp at hpage
    · have hlt : cursor < rows.length := by omega
      have hn := hpositive hlt
      obtain ⟨pages, hrun, hflatten, hpages⟩ := ih (rows.length - (cursor + n)) (by omega) (call + 1) (cursor + n) hle rfl
      refine ⟨_, .more hcall (by simp [hend]) hrun, ?_, fun i page hpage => ?_⟩
      · rw [flatten_cons, hflatten, ← drop_drop, take_append_drop]
      · rcases i with _ | i
        · obtain rfl := Option.some.inj hpage
          exact ⟨hwithin, hnonempty⟩
        · obtain ⟨hbounds, hne⟩ := hpages i page hpage
          rw [Nat.add_right_comm] at hbounds
          refine ⟨hbounds, fun _ => hne ?_⟩
          rw [ne_eq, drop_eq_nil_iff]
          omega

/-- Whatever bounds the calls bring, following `next_cursor` ends, and the pages put together are the
rows of the constructor in canonical order. -/
theorem constructorPages_exact (hroots : Ascending Node.bytes roots) (htypes : ∀ n ∈ roots, n.constructor ∈ axiomTypes)
    (hlimits : Admits limits roots) : ∃ index, buildRetainedAxiomTypeIndex limits roots = .ok index ∧
      ∀ (tag : Nat) (bounds : Nat → Nat × Nat), (∀ call, ValidBounds limits (bounds call)) →
        ∃ pages, PageRun limits index tag bounds 0 0 pages ∧ pages.flatten = constructorRows roots tag ∧
          ∀ i page, pages[i]? = some page →
            WithinBounds (bounds i) page ∧ (constructorRows roots tag ≠ [] → page ≠ []) := by
  obtain ⟨index, hbuild, hretains⟩ := exists_retains hroots htypes hlimits
  refine ⟨index, hbuild, fun tag bounds hbounds => ?_⟩
  obtain ⟨pages, hrun, hflatten, hpages⟩ := exists_pageRun
    (fun call cursor hcursor => hretains.givesPage hlimits (hbounds call) hcursor) 0 0 (Nat.zero_le _)
  refine ⟨pages, hrun, hflatten, fun i page hpage => ?_⟩
  simpa using hpages i page hpage

/-- Two declarations in pages of one row. -/
theorem constructorPages_exact_declarations : ∃ index,
    buildRetainedAxiomTypeIndex defaultLimits [classDeclaration "urn:A", classDeclaration "urn:B"] = .ok index ∧
      ∃ pages, PageRun defaultLimits index 60 (fun _ => (1, 1)) 0 0 pages ∧
        pages.flatten = [(classDeclaration "urn:A").bytes, (classDeclaration "urn:B").bytes] := by
  have hroots : Ascending Node.bytes [classDeclaration "urn:A", classDeclaration "urn:B"] :=
    pairwise_pair.mpr (by decide +kernel)
  have hlimits : Admits defaultLimits [classDeclaration "urn:A", classDeclaration "urn:B"] :=
    ⟨by decide, by decide, by decide +kernel⟩
  obtain ⟨index, hbuild, hpages⟩ := constructorPages_exact hroots (by decide) hlimits
  obtain ⟨pages, hrun, hflatten, -⟩ := hpages 60 (fun _ => (1, 1)) fun _ => by unfold ValidBounds; decide
  exact ⟨index, hbuild, pages, hrun, hflatten⟩

end

end OwlCore.Native
