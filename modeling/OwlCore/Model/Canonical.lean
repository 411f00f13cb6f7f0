import OwlCore.Lib.KeyedSet
import OwlCore.Lib.Metered
import OwlCore.Model.Node
import OwlCore.Model.Schema

/-!
# Canonical bytes

Measuring and encoding make the same `walk` over a value under the same budget with their own
row functions, and `canonicalBytes` runs one after the other. `canonicalBytes_ok_iff` says when
the call succeeds and what it returns.
-/
namespace OwlCore

open Function KeyedSet List Node

/-- The exceptions of the modelled functions, with the text or the limit they carry. -/
inductive Error where
  | typeError (message : String)
  | valueError (message : String)
  | structuralConstraint (message : String)
  | invalidIRI (message : String)
  | invalidLiteral (message : String)
  | resourceLimit (limit : String) (observed allowed : Nat)
  | assertionError (message : String)
  | keyError (key : String)
  | memoryError
  | deltaError (message : String)
  | deltaBaseMismatch (message : String)
  | indexError (index : Nat)
  | wireCorruption (message : String)
  | wireVersion (message : String)
  | wireLimit (message : String)
  | ontologySyntax (message : String)
  | recursionError
  | documentIdentityConflict (message : String)
  | backendProtocol (message : String)
  deriving DecidableEq, Repr

/-- The budgets the modelled functions read; every one is a positive integer. -/
structure ParseLimits where
  maxTerms : Nat := 500000000
  maxNestingDepth : Nat := 512
  maxSequenceArity : Nat := 10000000
  maxCanonicalWork : Nat := 1000000000
  maxOverlayDepth : Nat := 32
  maxDeltaEntries : Nat := 10000000
  maxCompositeMembers : Nat := 1024
  maxWireRows : Nat := 500000000
  maxWireBytes : Nat := 17179869184
  maxTemporaryBytes : Nat := 17179869184
  maxRdfListLength : Nat := 10000000
  maxLiteralBytes : Nat := 67108864
  maxIriBytes : Nat := 1048576
  maxPrefixes : Nat := 1000000
  maxTriples : Nat := 100000000
  maxImportDepth : Nat := 128
  maxDocuments : Nat := 1000
  maxAxioms : Nat := 100000000
  maxAnnotations : Nat := 100000000
  maxOriginEntries : Nat := 100000000
  maxIndexRows : Nat := 500000000
  positive : 0 < maxTerms ∧ 0 < maxNestingDepth ∧ 0 < maxSequenceArity ∧ 0 < maxCanonicalWork ∧
    0 < maxOverlayDepth ∧ 0 < maxDeltaEntries ∧ 0 < maxCompositeMembers ∧ 0 < maxWireRows ∧
    0 < maxWireBytes ∧ 0 < maxTemporaryBytes ∧ 0 < maxRdfListLength ∧ 0 < maxLiteralBytes ∧
    0 < maxIriBytes ∧ 0 < maxPrefixes ∧ 0 < maxTriples ∧ 0 < maxImportDepth ∧ 0 < maxDocuments ∧
    0 < maxAxioms ∧ 0 < maxAnnotations ∧ 0 < maxOriginEntries ∧ 0 < maxIndexRows := by
    decide

def defaultLimits : ParseLimits := {}

def maxsize : Nat := 2 ^ 63 - 1

section

variable (limits : ParseLimits)

/-- `_Budget.enter`: count a value and check its depth, then the count. -/
def enter (depth : Nat) : Metered Error Unit := do
  modify (· + 1)
  if depth ≤ limits.maxNestingDepth then pure ()
  else throw (.resourceLimit "max_nesting_depth" depth limits.maxNestingDepth)
  let terms ← get
  if terms ≤ limits.maxTerms then pure ()
  else throw (.resourceLimit "max_terms" terms limits.maxTerms)

def collection (size : Nat) : Metered Error Unit :=
  if size ≤ limits.maxSequenceArity then pure ()
  else throw (.resourceLimit "max_sequence_arity" size limits.maxSequenceArity)

variable {γ : Type} (row : Constructor → List (Value γ) → γ)

def walkComponent (depth : Nat) : Value (Nat → Metered Error γ) → Metered Error (Value γ)
  | .none => pure .none
  | .text value => pure (.text value)
  | .bytes value => pure (.bytes value)
  | .integer value => pure (.integer value)
  | .enum value => pure (.enum value)
  | .node walkNode => .node <$> walkNode depth
  | .set members => do
    collection limits members.length
    .set <$> members.mapM fun walkNode => walkNode depth
  | .sequence items => do
    collection limits items.length
    .sequence <$> items.mapM fun walkNode => walkNode depth

/-- The traversal shared by `_canonical_node_size` and `_encode_node`. -/
def walk : Node → Nat → Metered Error γ :=
  Node.fold fun c fields depth => do
    enter limits depth
    let components ← fields.mapM (walkComponent limits (depth + 1))
    pure (row c components)

end

def Value.arity {N : Type} : Value N → Nat
  | .set members => members.length
  | .sequence items => items.length
  | _ => 0

theorem Value.arity_map (f : M → N) (v : Value M) : (v.map f).arity = v.arity := by
  cases v <;> simp [Value.map, Value.arity]

namespace Node

def terms : Node → Nat := fold fun _ fields => 1 + (fields.map fun v => v.nodes.sum).sum

/-- Nesting and collection sizes stay within the limits when the value stands at `depth`. -/
def Fits (limits : ParseLimits) : Node → Nat → Prop :=
  fold fun _ fields depth => depth ≤ limits.maxNestingDepth ∧
    ∀ v ∈ fields, v.arity ≤ limits.maxSequenceArity ∧ ∀ fits ∈ v.nodes, fits (depth + 1)

theorem terms_eq (n : Node) :
    n.terms = 1 + (n.fields.map fun v => (v.nodes.map terms).sum).sum := by
  cases n with
  | mk c fields => simp [terms, Node.fields, comp_def, Value.nodes_map]

theorem fits_iff {limits : ParseLimits} {n : Node} {depth : Nat} :
    n.Fits limits depth ↔ depth ≤ limits.maxNestingDepth ∧
      ∀ v ∈ n.fields, v.arity ≤ limits.maxSequenceArity ∧ ∀ m ∈ v.nodes, m.Fits limits (depth + 1) := by
  cases n with
  | mk c fields => simp [Fits, Node.fields, Value.nodes_map, Value.arity_map]

end Node

section

open Metered

variable {limits : ParseLimits} {γ : Type} {row : Constructor → List (Value γ) → γ}

theorem enter_apply (depth t : Nat) : enter limits depth t = if depth ≤ limits.maxNestingDepth then
      if t + 1 ≤ limits.maxTerms then .ok ((), t + 1)
      else .error (.resourceLimit "max_terms" (t + 1) limits.maxTerms)
    else .error (.resourceLimit "max_nesting_depth" depth limits.maxNestingDepth) := by
  by_cases hd : depth ≤ limits.maxNestingDepth
  · simp only [enter, if_pos hd]
    change (if t + 1 ≤ limits.maxTerms then pure () else throw _ : Metered Error Unit) (t + 1) = _
    by_cases ht : t + 1 ≤ limits.maxTerms
    · rw [if_pos ht, if_pos ht]
      rfl
    · rw [if_neg ht, if_neg ht]
      rfl
  · simp only [enter, if_neg hd]
    rfl

theorem enter_spends (depth : Nat) :
    Spends limits.maxTerms (enter limits depth) (depth ≤ limits.maxNestingDepth) 1 () := by
  intro t _
  rw [enter_apply]
  refine ⟨fun h => by rw [if_pos h.1, if_pos h.2], fun h => ?_⟩
  by_cases hd : depth ≤ limits.maxNestingDepth
  · exact ⟨_, by rw [if_pos hd, if_neg fun ht => h ⟨hd, ht⟩]⟩
  · exact ⟨_, by rw [if_neg hd]⟩

theorem collection_spends (size : Nat) :
    Spends limits.maxTerms (collection limits size) (size ≤ limits.maxSequenceArity) 0 () :=
  Spends.check _

theorem walkComponent_spends {w : Node → Nat → Metered Error γ} {g : Node → γ} {depth : Nat}
    {v : Value Node}
    (h : ∀ n ∈ v.nodes, Spends limits.maxTerms (w n depth) (n.Fits limits depth) n.terms (g n)) :
    Spends limits.maxTerms (walkComponent limits depth (v.map w))
      (v.arity ≤ limits.maxSequenceArity ∧ ∀ n ∈ v.nodes, n.Fits limits depth)
      (v.nodes.map Node.terms).sum (v.map g) := by
  have hlist : ∀ l : List Node, (∀ n ∈ l, Spends limits.maxTerms (w n depth) (n.Fits limits depth)
      n.terms (g n)) → Spends limits.maxTerms ((l.map w).mapM fun walkNode => walkNode depth)
        (∀ n ∈ l, n.Fits limits depth) (l.map Node.terms).sum (l.map g) := by
    intro l hl
    rw [mapM_map]
    exact Spends.mapM hl
  cases v with
  | node n =>
    refine ((h n (by simp [Value.nodes])).map Value.node).congr ?_ ?_ rfl
    · simp [Value.nodes, Value.arity]
    · simp [Value.nodes]
  | set ms =>
    refine ((collection_spends (ms.map w).length).bind ((hlist ms h).map Value.set)).congr ?_ ?_ rfl
    · simp [Value.nodes, Value.arity]
    · simp [Value.nodes]
  | sequence ms =>
    refine ((collection_spends (ms.map w).length).bind
      ((hlist ms h).map Value.sequence)).congr ?_ ?_ rfl
    · simp [Value.nodes, Value.arity]
    · simp [Value.nodes]
  | _ => exact (Spends.pure _).congr (by simp [Value.nodes, Value.arity]) (by simp [Value.nodes]) rfl

/-- The walk succeeds exactly within the budget and then returns the folded row. -/
theorem walk_spends (n : Node) : ∀ depth, Spends limits.maxTerms (walk limits row n depth)
    (n.Fits limits depth) n.terms (n.fold row) := by
  induction n using Node.induct with
  | step n ih =>
    intro depth
    cases n with
    | mk c fields =>
      have hfields : Spends limits.maxTerms
          ((fields.map (Value.map (walk limits row))).mapM (walkComponent limits (depth + 1)))
          (∀ v ∈ fields, v.arity ≤ limits.maxSequenceArity ∧ ∀ m ∈ v.nodes, m.Fits limits (depth + 1))
          (fields.map fun v => (v.nodes.map Node.terms).sum).sum
          (fields.map (Value.map (Node.fold row))) := by
        rw [mapM_map]
        refine Spends.mapM fun v hv => walkComponent_spends fun m hm => ih m ?_ (depth + 1)
        exact mem_children.mpr ⟨v, hv, hm⟩
      have hrow : Spends limits.maxTerms (pure (row c (fields.map (Value.map (Node.fold row)))) :
          Metered Error γ) True 0 (Node.fold row (.mk c fields)) := by
        rw [fold_mk]
        exact Spends.pure _
      have hwalk : walk limits row (.mk c fields) depth = (do
          enter limits depth
          let components ← (fields.map (Value.map (walk limits row))).mapM
            (walkComponent limits (depth + 1))
          pure (row c components)) := by
        rw [walk, fold_mk]
      rw [hwalk]
      refine ((enter_spends depth).bind (hfields.bind hrow)).congr ?_ ?_ rfl
      · rw [fits_iff]
        simp [Node.fields]
      · rw [terms_eq]
        simp [Node.fields]

end

section

open Varint

/-- `_text_size` for UTF-8, one summand per code point. -/
def textSize (text : String) : Nat :=
  (text.toList.map fun c => if c.val ≤ 0x7F then 1 else if c.val ≤ 0x7FF then 2
    else if c.val ≤ 0xFFFF then 3 else 4).sum

/-- The size of one component from the sizes of its nested rows. -/
def componentSize : Value Nat → Nat
  | .none => 1
  | .node size => 1 + framedSize size
  | .text value => 1 + framedSize (textSize value)
  | .bytes value => 1 + framedSize value.length
  | .integer value => 1 + Varint.size value
  | .enum value => 1 + framedSize (textSize value.value)
  | .set sizes => 1 + Varint.size sizes.length + (sizes.map framedSize).sum
  | .sequence sizes => 1 + Varint.size sizes.length + (sizes.map fun size => 1 + framedSize size).sum

def sizeRow (c : Constructor) (fields : List (Value Nat)) : Nat :=
  Varint.size c.tag + (fields.map componentSize).sum

def marker {N : Type} : Value N → UInt8
  | .none => 0 | .node _ => 1 | .text _ => 2 | .bytes _ => 3
  | .integer _ => 4 | .enum _ => 5 | .set _ => 6 | .sequence _ => 7

/-- What follows the marker; set members are sorted by their bytes. -/
def encodePayload : Value Bytes → Bytes
  | .none => []
  | .node encoded => frame encoded
  | .text value => frame (utf8Encode value)
  | .bytes value => frame value
  | .integer value => encode value
  | .enum value => frame (utf8Encode value.value)
  | .set members => encode members.length ++ ((members.insertionSort (· ≤ ·)).map frame).flatten
  | .sequence items => encode items.length ++ (items.map fun item => 1 :: frame item).flatten

def encodeComponent (v : Value Bytes) : Bytes := marker v :: encodePayload v

def encodeRow (c : Constructor) (fields : List (Value Bytes)) : Bytes :=
  encode c.tag ++ (fields.map encodeComponent).flatten

theorem length_utf8Encode (text : String) : (utf8Encode text).length = textSize text := by
  simp only [utf8Encode, length_flatMap, String.length_utf8EncodeChar, textSize]
  rfl

theorem length_encodeComponent (v : Value Bytes) :
    (encodeComponent v).length = componentSize (v.map fun encoded => encoded.length) := by
  cases v with
  | set members =>
    have hsum : ((members.insertionSort (· ≤ ·)).map fun m => framedSize m.length).sum =
        (members.map fun m => framedSize m.length).sum :=
      ((members.perm_insertionSort (· ≤ ·)).map _).sum_nat
    simp only [encodeComponent, encodePayload, componentSize, Value.map, length_cons, length_append, length_flatten,
      List.map_map, comp_def, length_encode, length_frame, length_map, hsum]
    omega
  | sequence items =>
    simp only [encodeComponent, encodePayload, componentSize, Value.map, length_cons, length_append, length_flatten,
      List.map_map, comp_def, length_encode, length_frame, length_map, Nat.add_comm _ 1]
    omega
  | _ =>
    simp [encodeComponent, encodePayload, componentSize, Value.map, length_encode, length_frame,
      length_utf8Encode, Nat.add_comm]

def Node.bytes : Node → Bytes := Node.fold encodeRow

theorem Node.ascending_nil : Ascending Node.bytes [] := List.Pairwise.nil

theorem Node.bytes_eq (n : Node) :
    n.bytes = encode n.constructor.tag ++
      (n.fields.map fun v => encodeComponent (v.map Node.bytes)).flatten := by
  cases n with
  | mk c fields => simp [Node.bytes, Node.fields, Node.constructor, encodeRow, comp_def]

theorem fold_sizeRow (n : Node) : n.fold sizeRow = n.bytes.length := by
  induction n using Node.induct with
  | step n ih =>
    cases n with
    | mk c fields =>
      have hfields : (fields.map fun v => componentSize (v.map (Node.fold sizeRow))) =
          fields.map fun v => (encodeComponent (v.map Node.bytes)).length := by
        refine map_congr_left fun v hv => ?_
        rw [length_encodeComponent, Value.map_map]
        exact congrArg _ (Value.map_congr fun m hm => ih m (mem_children.mpr ⟨v, hv, hm⟩))
      rw [fold_mk, sizeRow, List.map_map, bytes_eq]
      simp only [comp_def, hfields, Node.fields, Node.constructor, length_append,
        length_encode, length_flatten, List.map_map]

end

section

variable (limits : ParseLimits)

def canonicalNodeSize : Node → Nat → Metered Error Nat := walk limits sizeRow

def encodeNode : Node → Nat → Metered Error Bytes := walk limits encodeRow

def enforceCanonicalRowSize (size maximum : Nat) : Except Error Unit :=
  if size > maximum then .error (.resourceLimit "max_canonical_work" size maximum) else .ok ()

/-- Measure within the limits, then encode and compare the lengths. -/
def canonicalBytes (value : Node) : Except Error Bytes := do
  let (measured, _) ← canonicalNodeSize limits value 0 0
  enforceCanonicalRowSize measured limits.maxCanonicalWork
  if measured > maxsize then throw .memoryError
  let (encoded, _) ← encodeNode limits value 0 0
  if encoded.length ≠ measured then
    throw (.assertionError "canonical row length preflight disagrees with encoder")
  pure encoded

/-- The values `canonicalBytes` accepts. -/
structure Node.Encodable (n : Node) : Prop where
  fits : n.Fits limits 0
  terms : n.terms ≤ limits.maxTerms
  work : n.bytes.length ≤ limits.maxCanonicalWork
  memory : n.bytes.length ≤ maxsize

end

theorem walk_run (ht : t + n.terms ≤ limits.maxTerms) (h : n.Fits limits depth) :
    walk limits row n depth t = .ok (n.fold row, t + n.terms) :=
  (walk_spends n depth t (by omega)).1 ⟨h, ht⟩

theorem canonicalBytes_of_encodable (h : n.Encodable limits) :
    canonicalBytes limits n = .ok n.bytes := by
  have hterms : 0 + n.terms ≤ limits.maxTerms := by simpa using h.terms
  have hwork : ¬ n.bytes.length > limits.maxCanonicalWork := not_lt.mpr h.work
  have hmemory : ¬ n.bytes.length > maxsize := not_lt.mpr h.memory
  simp only [canonicalBytes, canonicalNodeSize, encodeNode, walk_run hterms h.fits, fold_sizeRow,
    enforceCanonicalRowSize, hwork, hmemory, bind, Except.bind, if_false]
  simp [Node.bytes, pure, Except.pure]

/-- `canonical_bytes` succeeds on the encodable values only, and returns their bytes. -/
theorem canonicalBytes_ok_iff :
    canonicalBytes limits n = .ok b ↔ n.Encodable limits ∧ b = n.bytes := by
  refine ⟨fun h => ?_, fun ⟨h, hb⟩ => by rw [hb, canonicalBytes_of_encodable h]⟩
  have hencodable : n.Encodable limits := by
    by_cases hfits : n.Fits limits 0 ∧ 0 + n.terms ≤ limits.maxTerms
    · simp only [canonicalBytes, canonicalNodeSize, walk_run hfits.2 hfits.1, fold_sizeRow,
        enforceCanonicalRowSize, bind, Except.bind] at h
      by_cases hwork : n.bytes.length > limits.maxCanonicalWork
      · simp [hwork] at h
      · by_cases hmemory : n.bytes.length > maxsize
        · simp [hwork, hmemory, throw, throwThe, MonadExceptOf.throw] at h
        · exact ⟨hfits.1, by simpa using hfits.2, not_lt.mp hwork, not_lt.mp hmemory⟩
    · obtain ⟨e, he⟩ : ∃ e, canonicalNodeSize limits n 0 0 = .error e :=
        (walk_spends n 0 0 (Nat.zero_le _)).2 hfits
      simp [canonicalBytes, he, bind, Except.bind] at h
  rw [canonicalBytes_of_encodable hencodable] at h
  exact ⟨hencodable, (Except.ok.inj h).symm⟩

section

open Varint

/-- As many fields as declared, and sets in ascending order. -/
structure Node.Shape (n : Node) : Prop where
  arity : n.fields.length = n.constructor.arity
  ascending : ∀ ms, .set ms ∈ n.fields → Ascending Node.bytes ms

def Node.Canonical (n : Node) : Prop := n.Everywhere Node.Shape

theorem insertionSort_bytes (h : Ascending Node.bytes ms) :
    (ms.map Node.bytes).insertionSort (· ≤ ·) = ms.map Node.bytes := by
  refine List.Pairwise.insertionSort_eq ?_
  exact pairwise_map.mpr (h.imp fun hlt => le_of_lt hlt)

theorem map_bytes_inj {l l' : List Node} (h : ∀ a ∈ l, ∀ b ∈ l', a.bytes = b.bytes → a = b)
    (heq : l.map Node.bytes = l'.map Node.bytes) : l = l' := by
  induction l generalizing l' with
  | nil => simpa using heq.symm
  | cons a l ih =>
    cases l' with
    | nil => simp at heq
    | cons b l' =>
      simp only [map_cons, List.cons.injEq] at heq
      rw [h a (by simp) b (by simp) heq.1, ih (fun c hc d hd => h c (by simp [hc]) d (by simp [hd])) heq.2]

theorem marker_map (f : M → N) (v : Value M) : marker (v.map f) = marker v := by
  cases v <;> rfl

theorem prefixCode_item : PrefixCode.On (fun _ => True) fun item : Bytes => (1 : UInt8) :: frame item :=
  fun a b x y _ _ h => frame_append_inj a b x y (List.cons.inj h).2

theorem encodeComponent_append_inj {v w : Value Node} {x y : Bytes}
    (hinj : ∀ a ∈ v.nodes, ∀ b ∈ w.nodes, a.bytes = b.bytes → a = b)
    (hv : ∀ ms, v = .set ms → Ascending Node.bytes ms)
    (hw : ∀ ms, w = .set ms → Ascending Node.bytes ms)
    (h : encodeComponent (v.map Node.bytes) ++ x = encodeComponent (w.map Node.bytes) ++ y) :
    v = w ∧ x = y := by
  simp only [encodeComponent, marker_map, cons_append, List.cons.injEq] at h
  obtain ⟨hmarker, h⟩ := h
  cases v <;> cases w <;>
    first | (refine absurd hmarker ?_; simp [marker]; done) | simp only [Value.map, encodePayload] at h
  case none.none => exact ⟨rfl, by simpa using h⟩
  case node.node a b =>
    obtain ⟨hbytes, hrest⟩ := frame_append_inj _ _ _ _ h
    exact ⟨by rw [hinj a (by simp [Value.nodes]) b (by simp [Value.nodes]) hbytes], hrest⟩
  case text.text a b =>
    obtain ⟨hbytes, hrest⟩ := frame_append_inj _ _ _ _ h
    exact ⟨by rw [utf8Encode_injective hbytes], hrest⟩
  case bytes.bytes a b =>
    obtain ⟨hbytes, hrest⟩ := frame_append_inj _ _ _ _ h
    exact ⟨by rw [hbytes], hrest⟩
  case integer.integer a b =>
    obtain ⟨hvalue, hrest⟩ := encode_append_inj _ _ _ _ h
    exact ⟨by rw [hvalue], hrest⟩
  case enum.enum a b =>
    obtain ⟨hbytes, hrest⟩ := frame_append_inj _ _ _ _ h
    have hkind := congrArg EntityKind.ofValue (utf8Encode_injective hbytes)
    rw [EntityKind.ofValue_value, EntityKind.ofValue_value] at hkind
    exact ⟨by rw [Option.some.inj hkind], hrest⟩
  case set.set ms ns =>
    simp only [insertionSort_bytes (hv ms rfl), insertionSort_bytes (hw ns rfl), append_assoc] at h
    obtain ⟨hlen, h⟩ := encode_append_inj _ _ _ _ h
    obtain ⟨hmembers, hrest⟩ := prefixCode_frame.flatten _ _ _ _ (by simp) (by simp) hlen h
    exact ⟨congrArg Value.set (map_bytes_inj hinj hmembers), hrest⟩
  case sequence.sequence ms ns =>
    simp only [append_assoc] at h
    obtain ⟨hlen, h⟩ := encode_append_inj _ _ _ _ h
    obtain ⟨hitems, hrest⟩ := prefixCode_item.flatten _ _ _ _ (by simp) (by simp) hlen h
    exact ⟨congrArg Value.sequence (map_bytes_inj hinj hitems), hrest⟩

theorem flatten_components_append_inj {vs ws : List (Value Node)} {x y : Bytes} (hlen : vs.length = ws.length)
    (hinj : ∀ v ∈ vs, ∀ w ∈ ws, ∀ a ∈ v.nodes, ∀ b ∈ w.nodes, a.bytes = b.bytes → a = b)
    (hvs : ∀ ms, .set ms ∈ vs → Ascending Node.bytes ms)
    (hws : ∀ ms, .set ms ∈ ws → Ascending Node.bytes ms)
    (h : (vs.map fun v => encodeComponent (v.map Node.bytes)).flatten ++ x =
      (ws.map fun v => encodeComponent (v.map Node.bytes)).flatten ++ y) : vs = ws ∧ x = y := by
  induction vs generalizing ws with
  | nil =>
    obtain rfl := length_eq_zero_iff.mp hlen.symm
    exact ⟨rfl, h⟩
  | cons v vs ih =>
    cases ws with
    | nil => simp at hlen
    | cons w ws =>
      simp only [map_cons, flatten_cons, append_assoc] at h
      obtain ⟨rfl, hrest⟩ := encodeComponent_append_inj (hinj v (by simp) w (by simp))
        (fun ms hms => hvs ms (by simp [hms])) (fun ms hms => hws ms (by simp [hms])) h
      obtain ⟨rfl, hxy⟩ := ih (by simpa using hlen) (fun a ha b hb => hinj a (by simp [ha]) b (by simp [hb]))
        (fun ms hms => hvs ms (by simp [hms])) (fun ms hms => hws ms (by simp [hms])) hrest
      exact ⟨rfl, hxy⟩

theorem Node.bytes_append_inj {n m : Node} {x y : Bytes} (hn : n.Canonical) (hm : m.Canonical)
    (h : n.bytes ++ x = m.bytes ++ y) : n = m ∧ x = y := by
  induction n using Node.induct generalizing m x y with
  | step n ih =>
    rw [bytes_eq, bytes_eq, append_assoc, append_assoc] at h
    obtain ⟨htag, hfields⟩ := encode_append_inj _ _ _ _ h
    have hc := Constructor.tag_injective htag
    obtain ⟨hfs, hxy⟩ : n.fields = m.fields ∧ x = y := by
      refine flatten_components_append_inj (by rw [hn.here.arity, hm.here.arity, hc]) ?_
        hn.here.ascending hm.here.ascending hfields
      intro v hv w hw a ha b hb hab
      have hac := mem_children.mpr ⟨v, hv, ha⟩
      have hbc := mem_children.mpr ⟨w, hw, hb⟩
      exact (ih a hac (hn.child hac) (hm.child hbc) (congrArg (· ++ []) hab)).1
    exact ⟨ext_fields hc hfs, hxy⟩

/-- Canonical values of whatever constructors are determined by their bytes. -/
theorem Node.bytes_injOn {n m : Node} (hn : n.Canonical) (hm : m.Canonical) (h : n.bytes = m.bytes) : n = m :=
  (bytes_append_inj hn hm (congrArg (· ++ []) h)).1

end

end OwlCore
