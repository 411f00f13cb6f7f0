import OwlCore.Lib.Loops
import OwlCore.Model.Canonical

/-!
# The size preflight

`_canonical_node_size` and `_encode_node` as loops: one adds to a number, the other appends to a
buffer, and a set is measured member by member but encoded as a whole. Both are the shared walk
with their own rows, so one is the length of the other, errors included.
-/
namespace OwlCore

open List Metered Varint

namespace Loop

section

variable (limits : ParseLimits) (depth : Nat)

/-- One round of the field loop of `_canonical_node_size`. -/
def addComponent (size : Nat) : Value (Nat → Metered Error Nat) → Metered Error Nat
  | .node measure => do
    let child ← measure depth
    pure (size + (1 + framedSize child))
  | .set members => do
    collection limits members.length
    members.foldlM (fun size measure => do
      let child ← measure depth
      pure (size + framedSize child)) (size + (1 + Varint.size members.length))
  | .sequence items => do
    collection limits items.length
    items.foldlM (fun size measure => do
      let child ← measure depth
      pure (size + (1 + framedSize child))) (size + (1 + Varint.size items.length))
  | .none => pure (size + 1)
  | .text value => pure (size + (1 + framedSize (textSize value)))
  | .bytes value => pure (size + (1 + framedSize value.length))
  | .integer value => pure (size + (1 + Varint.size value))
  | .enum value => pure (size + (1 + framedSize (textSize value.value)))

/-- One round of the field loop of `_encode_node`. -/
def appendComponent (output : Bytes) : Value (Nat → Metered Error Bytes) → Metered Error Bytes
  | .node encodeChild => do
    let encoded ← encodeChild depth
    pure (output ++ ([1] ++ frame encoded))
  | .set members => do
    collection limits members.length
    let encoded ← members.mapM fun encodeChild => encodeChild depth
    let sorted := encoded.insertionSort (· ≤ ·)
    pure (sorted.foldl (fun output member => output ++ frame member) (output ++ ([6] ++ encode sorted.length)))
  | .sequence items => do
    collection limits items.length
    items.foldlM (fun output encodeChild => do
      let encoded ← encodeChild depth
      pure (output ++ ([1] ++ frame encoded))) (output ++ ([7] ++ encode items.length))
  | .none => pure (output ++ [0])
  | .text value => pure (output ++ ([2] ++ frame (utf8Encode value)))
  | .bytes value => pure (output ++ ([3] ++ frame value))
  | .integer value => pure (output ++ ([4] ++ encode value))
  | .enum value => pure (output ++ ([5] ++ frame (utf8Encode value.value)))

end

variable (limits : ParseLimits)

def canonicalNodeSize : Node → Nat → Metered Error Nat :=
  Node.fold fun c fields depth => do
    enter limits depth
    fields.foldlM (addComponent limits (depth + 1)) (Varint.size c.tag)

def encodeNode : Node → Nat → Metered Error Bytes :=
  Node.fold fun c fields depth => do
    enter limits depth
    fields.foldlM (appendComponent limits (depth + 1)) (encode c.tag)

end Loop

theorem addComponent_eq (size : Nat) (v : Value (Nat → Metered Error Nat)) :
    Loop.addComponent limits depth size v =
      (fun component => size + componentSize component) <$> walkComponent limits depth v := by
  cases v with
  | node measure => simp [Loop.addComponent, walkComponent, componentSize]
  | set members =>
    have hround : ∀ total, ∀ measure ∈ members, (measure depth >>= fun child => pure (total + framedSize child)) =
        (fun child => total + framedSize child) <$> measure depth := fun _ _ _ => (map_eq_pure_bind _ _).symm
    simp only [Loop.addComponent, walkComponent, map_bind, Functor.map_map, componentSize]
    refine bind_congr fun _ => ?_
    rw [Loops.foldlM_eq_map hround,
      Loops.map_length_mapM fun sizes count => size + (1 + Varint.size count + (sizes.map framedSize).sum)]
    refine congrArg (· <$> _) (funext fun sizes => ?_)
    rw [Loops.foldl_add, Nat.add_assoc, Nat.add_assoc]
  | sequence items =>
    have hround : ∀ total, ∀ measure ∈ items, (measure depth >>= fun child => pure (total + (1 + framedSize child))) =
        (fun child => total + (1 + framedSize child)) <$> measure depth := fun _ _ _ => (map_eq_pure_bind _ _).symm
    simp only [Loop.addComponent, walkComponent, map_bind, Functor.map_map, componentSize]
    refine bind_congr fun _ => ?_
    rw [Loops.foldlM_eq_map hround, Loops.map_length_mapM fun sizes count =>
      size + (1 + Varint.size count + (sizes.map fun size => 1 + framedSize size).sum)]
    refine congrArg (· <$> _) (funext fun sizes => ?_)
    rw [Loops.foldl_add fun size => 1 + framedSize size, Nat.add_assoc, Nat.add_assoc]
  | _ => simp [Loop.addComponent, walkComponent, componentSize]

theorem appendComponent_eq (output : Bytes) (v : Value (Nat → Metered Error Bytes)) :
    Loop.appendComponent limits depth output v =
      (fun component => output ++ encodeComponent component) <$> walkComponent limits depth v := by
  cases v with
  | node encodeChild => simp [Loop.appendComponent, walkComponent, encodeComponent, encodePayload, marker]
  | set members =>
    simp only [Loop.appendComponent, walkComponent, map_bind, Functor.map_map, encodeComponent, encodePayload, marker,
      length_insertionSort]
    refine bind_congr fun _ => ?_
    rw [map_eq_pure_bind]
    refine bind_congr fun encoded => congrArg pure ?_
    rw [← foldl_map, Loops.foldl_append]
    simp
  | sequence items =>
    have hround : ∀ output : Bytes, ∀ encodeChild ∈ items,
        (encodeChild depth >>= fun encoded => pure (output ++ ([1] ++ frame encoded))) =
          (fun encoded => output ++ ([1] ++ frame encoded)) <$> encodeChild depth :=
      fun _ _ _ => (map_eq_pure_bind _ _).symm
    simp only [Loop.appendComponent, walkComponent, map_bind, Functor.map_map, encodeComponent, encodePayload, marker]
    refine bind_congr fun _ => ?_
    rw [Loops.foldlM_eq_map hround, Loops.map_length_mapM fun encoded count =>
      output ++ 7 :: (encode count ++ (encoded.map fun item => 1 :: frame item).flatten)]
    refine congrArg (· <$> _) (funext fun encoded => ?_)
    rw [← foldl_map, Loops.foldl_append]
    simp
  | _ => simp [Loop.appendComponent, walkComponent, encodeComponent, encodePayload, marker]

theorem loop_canonicalNodeSize : Loop.canonicalNodeSize limits = canonicalNodeSize limits := by
  rw [canonicalNodeSize, walk, Loop.canonicalNodeSize]
  refine congrArg Node.fold (funext fun c => funext fun fields => funext fun depth => bind_congr fun _ => ?_)
  rw [Loops.foldlM_eq_map fun size v _ => addComponent_eq size v, ← map_eq_pure_bind]
  refine congrArg (· <$> _) (funext fun components => ?_)
  rw [Loops.foldl_add componentSize, sizeRow]

theorem loop_encodeNode : Loop.encodeNode limits = encodeNode limits := by
  rw [encodeNode, walk, Loop.encodeNode]
  refine congrArg Node.fold (funext fun c => funext fun fields => funext fun depth => bind_congr fun _ => ?_)
  rw [Loops.foldlM_eq_map fun output v _ => appendComponent_eq output v, ← map_eq_pure_bind]
  refine congrArg (· <$> _) (funext fun components => ?_)
  rw [← foldl_map, Loops.foldl_append]
  rfl

section

variable {limits : ParseLimits}

theorem walk_mk (row : Constructor → List (Value γ) → γ) (c : Constructor) (fields : List (Value Node)) (depth : Nat) :
    walk limits row (.mk c fields) depth = (do
      enter limits depth
      let components ← (fields.map (Value.map (walk limits row))).mapM (walkComponent limits (depth + 1))
      pure (row c components)) := by
  rw [walk, Node.fold_mk]

/-- A walk with rows that are images of other rows is the image of the other walk. -/
theorem walk_eq_map {γ δ : Type} {row : Constructor → List (Value γ) → γ} {row' : Constructor → List (Value δ) → δ}
    {image : γ → δ} (hrow : ∀ c fields, row' c (fields.map (Value.map image)) = image (row c fields)) (n : Node) :
    ∀ depth, walk limits row' n depth = image <$> walk limits row n depth := by
  induction n using Node.induct with
  | step n ih =>
    intro depth
    cases n with
    | mk c fields =>
      have hlist : ∀ ms : List Node, (∀ m ∈ ms, walk limits row' m (depth + 1) = image <$> walk limits row m (depth + 1)) →
          (ms.map (walk limits row')).mapM (fun walkNode => walkNode (depth + 1)) =
            List.map image <$> (ms.map (walk limits row)).mapM fun walkNode => walkNode (depth + 1) := by
        intro ms hms
        rw [mapM_map, mapM_map]
        exact Loops.mapM_eq_map hms
      have hcomponent : ∀ v ∈ fields, walkComponent limits (depth + 1) (v.map (walk limits row')) =
          Value.map image <$> walkComponent limits (depth + 1) (v.map (walk limits row)) := by
        intro v hv
        have hnested : ∀ m ∈ v.nodes, walk limits row' m (depth + 1) = image <$> walk limits row m (depth + 1) :=
          fun m hm => ih m (Node.mem_children.mpr ⟨v, hv, hm⟩) (depth + 1)
        cases v with
        | node m => simp [walkComponent, Value.map, hnested m (by simp [Value.nodes])]
        | set members =>
          simp only [walkComponent, Value.map, length_map, map_bind, Functor.map_map]
          refine bind_congr fun _ => ?_
          rw [hlist members hnested, Functor.map_map]
        | sequence items =>
          simp only [walkComponent, Value.map, length_map, map_bind, Functor.map_map]
          refine bind_congr fun _ => ?_
          rw [hlist items hnested, Functor.map_map]
        | _ => simp [walkComponent, Value.map]
      have hfields : (fields.map (Value.map (walk limits row'))).mapM (walkComponent limits (depth + 1)) =
          List.map (Value.map image) <$>
            (fields.map (Value.map (walk limits row))).mapM (walkComponent limits (depth + 1)) := by
        rw [mapM_map, mapM_map]
        exact Loops.mapM_eq_map hcomponent
      rw [walk_mk, walk_mk, hfields, map_bind]
      refine bind_congr fun _ => ?_
      simp only [bind_map_left, map_bind, map_pure, hrow]

theorem sizeRow_map_length (c : Constructor) (fields : List (Value Bytes)) :
    sizeRow c (fields.map (Value.map List.length)) = (encodeRow c fields).length := by
  rw [sizeRow, encodeRow, length_append, length_encode, length_flatten, List.map_map, List.map_map]
  exact congrArg (_ + List.sum ·) (map_congr_left fun v _ => (length_encodeComponent v).symm)

/-- Measuring is encoding followed by `len`. -/
theorem canonicalNodeSize_eq (n : Node) (depth : Nat) :
    canonicalNodeSize limits n depth = List.length <$> encodeNode limits n depth :=
  walk_eq_map sizeRow_map_length n depth

def OnlyLimits {α : Type} (m : Metered Error α) : Prop :=
  ∀ t e, m t = .error e → ∃ limit observed allowed, e = .resourceLimit limit observed allowed

theorem OnlyLimits.pure (a : α) : OnlyLimits (pure a : Metered Error α) := by
  intro t e h
  cases h

theorem OnlyLimits.bind (hm : OnlyLimits m) (hf : ∀ a, OnlyLimits (f a)) : OnlyLimits (m >>= f) := by
  intro t e h
  cases hrun : m t with
  | error e' =>
    have hfail : (m >>= f) t = .error e' := by simp [Bind.bind, StateT.bind, Except.bind, hrun]
    obtain rfl := Except.error.inj (hfail.symm.trans h)
    exact hm t e' hrun
  | ok p =>
    have hnext : (m >>= f) t = f p.1 p.2 := by simp [Bind.bind, StateT.bind, Except.bind, hrun]
    exact hf p.1 p.2 e (hnext.symm.trans h)

theorem OnlyLimits.map (f : α → β) (hm : OnlyLimits m) : OnlyLimits (f <$> m) := by
  rw [map_eq_pure_bind]
  exact hm.bind fun a => .pure (f a)

theorem OnlyLimits.mapM {f : α → Metered Error β} {l : List α} (h : ∀ x ∈ l, OnlyLimits (f x)) :
    OnlyLimits (l.mapM f) := by
  induction l with
  | nil => exact .pure []
  | cons x l ih =>
    rw [mapM_cons]
    exact (h x mem_cons_self).bind fun b =>
      (ih fun y hy => h y (mem_cons_of_mem x hy)).bind fun bs => .pure (b :: bs)

theorem onlyLimits_guard [Decidable p] (limit : String) (observed allowed : Nat) :
    OnlyLimits (if p then Pure.pure () else throw (.resourceLimit limit observed allowed) : Metered Error Unit) := by
  by_cases hp : p
  · rw [if_pos hp]
    exact .pure ()
  · rw [if_neg hp]
    intro t e h
    exact ⟨limit, observed, allowed, (Except.error.inj h).symm⟩

theorem onlyLimits_enter (depth : Nat) : OnlyLimits (enter limits depth) := by
  intro t e h
  rw [enter_apply] at h
  split at h
  · split at h
    · cases h
    · exact ⟨_, _, _, (Except.error.inj h).symm⟩
  · exact ⟨_, _, _, (Except.error.inj h).symm⟩

theorem onlyLimits_walk {γ : Type} (row : Constructor → List (Value γ) → γ) (n : Node) :
    ∀ depth, OnlyLimits (walk limits row n depth) := by
  induction n using Node.induct with
  | step n ih =>
    intro depth
    cases n with
    | mk c fields =>
      rw [walk_mk, mapM_map]
      refine (onlyLimits_enter depth).bind fun _ => .bind (.mapM fun v hv => ?_) fun _ => .pure _
      have hnested : ∀ m ∈ v.nodes, OnlyLimits (walk limits row m (depth + 1)) :=
        fun m hm => ih m (Node.mem_children.mpr ⟨v, hv, hm⟩) (depth + 1)
      cases v with
      | node m => exact (hnested m (by simp [Value.nodes])).map _
      | set members =>
        refine (onlyLimits_guard _ _ _).bind fun _ => .map _ ?_
        rw [mapM_map]
        exact .mapM hnested
      | sequence items =>
        refine (onlyLimits_guard _ _ _).bind fun _ => .map _ ?_
        rw [mapM_map]
        exact .mapM hnested
      | _ => exact .pure _

theorem canonicalNodeSize_apply (n : Node) (depth t : Nat) : canonicalNodeSize limits n depth t =
    match encodeNode limits n depth t with
    | .ok (encoded, s) => .ok (encoded.length, s)
    | .error e => .error e := by
  rw [canonicalNodeSize_eq]
  cases hrun : encodeNode limits n depth t with
  | error e => simp [Functor.map, StateT.map, Except.bind, bind, hrun]
  | ok p => simp [Functor.map, StateT.map, Except.bind, bind, hrun, Pure.pure, Except.pure]

/-- What `canonical_bytes` does, in terms of the encoder alone. -/
theorem canonicalBytes_eq (n : Node) : canonicalBytes limits n = match encodeNode limits n 0 0 with
    | .ok (encoded, _) =>
      if limits.maxCanonicalWork < encoded.length then
        .error (.resourceLimit "max_canonical_work" encoded.length limits.maxCanonicalWork)
      else if maxsize < encoded.length then .error .memoryError else .ok encoded
    | .error e => .error e := by
  unfold canonicalBytes
  rw [canonicalNodeSize_apply]
  cases hrun : encodeNode limits n 0 0 with
  | error e => rfl
  | ok p =>
    by_cases hwork : limits.maxCanonicalWork < p.1.length
    · simp [enforceCanonicalRowSize, hwork, bind, Except.bind]
    · by_cases hmemory : maxsize < p.1.length
      · simp [enforceCanonicalRowSize, hwork, hmemory, bind, Except.bind, throw, throwThe, MonadExceptOf.throw]
      · simp [enforceCanonicalRowSize, hwork, hmemory, bind, Except.bind, Pure.pure, Except.pure]

/-- `canonical_bytes` fails for want of resources only. -/
theorem canonicalBytes_error (h : canonicalBytes limits n = .error e) :
    (∃ limit observed allowed, e = .resourceLimit limit observed allowed) ∨ e = .memoryError := by
  rw [canonicalBytes_eq] at h
  cases hrun : encodeNode limits n 0 0 with
  | error e' =>
    simp only [hrun] at h
    obtain rfl := Except.error.inj h
    exact .inl (onlyLimits_walk encodeRow n 0 0 e' hrun)
  | ok p =>
    simp only [hrun] at h
    split at h
    · exact .inl ⟨_, _, _, (Except.error.inj h).symm⟩
    · split at h
      · exact .inr (Except.error.inj h).symm
      · cases h

/-- The preflight stops with the error of the encoder or returns the length of what the encoder returns,
and the limit is held against the length of the row. -/
theorem preflight_exact (limits : ParseLimits) (n : Node) :
    (∀ depth t, Loop.canonicalNodeSize limits n depth t = match Loop.encodeNode limits n depth t with
      | .ok (encoded, s) => .ok (encoded.length, s)
      | .error e => .error e) ∧
    (∀ message, canonicalBytes limits n ≠ .error (.assertionError message)) ∧
    (∀ encoded s, Loop.encodeNode limits n 0 0 = .ok (encoded, s) → limits.maxCanonicalWork < encoded.length →
      canonicalBytes limits n = .error (.resourceLimit "max_canonical_work" encoded.length limits.maxCanonicalWork)) ∧
    ∀ encoded, canonicalBytes limits n = .ok encoded →
      encoded.length ≤ limits.maxCanonicalWork ∧ ∃ s, Loop.encodeNode limits n 0 0 = .ok (encoded, s) := by
  rw [loop_canonicalNodeSize, loop_encodeNode]
  refine ⟨canonicalNodeSize_apply n, ?_, ?_, ?_⟩
  · intro message h
    rcases canonicalBytes_error h with ⟨_, _, _, he⟩ | he
    · cases he
    · cases he
  · intro encoded s hrun hwork
    rw [canonicalBytes_eq, hrun]
    exact if_pos hwork
  · intro encoded h
    rw [canonicalBytes_eq] at h
    cases hrun : encodeNode limits n 0 0 with
    | error e => simp [hrun] at h
    | ok p =>
      simp only [hrun] at h
      split at h
      · cases h
      · rename_i hwork
        split at h
        · cases h
        · obtain rfl := Except.ok.inj h
          exact ⟨not_lt.mp hwork, p.2, rfl⟩

end

end OwlCore
