import OwlCore.Model.Registry

/-!
# Structural values

A structural value is a constructor with its fields. `Value` is parametric in what stands for
the nested values, so a recursion over structural values is one algebra on `Value`, run by
`Node.fold`.
-/
namespace OwlCore

inductive Value (N : Type) where
  | none
  | node (value : N)
  | text (value : String)
  | bytes (value : Bytes)
  | integer (value : Nat)
  | enum (value : EntityKind)
  | set (members : List N)
  | sequence (items : List N)
  deriving DecidableEq, Repr

inductive Node where
  | mk (constructor : Constructor) (fields : List (Value Node))

namespace Value

variable {M N P : Type}

def map (f : M → N) : Value M → Value N
  | .none => .none
  | .node value => .node (f value)
  | .text value => .text value
  | .bytes value => .bytes value
  | .integer value => .integer value
  | .enum value => .enum value
  | .set members => .set (members.map f)
  | .sequence items => .sequence (items.map f)

def nodes : Value N → List N
  | .node value => [value]
  | .set members => members
  | .sequence items => items
  | _ => []

@[simp] theorem nodes_none : (Value.none : Value N).nodes = [] := rfl

@[simp] theorem nodes_node (value : N) : (Value.node value).nodes = [value] := rfl

@[simp] theorem nodes_set (members : List N) : (Value.set members).nodes = members := rfl

@[simp] theorem nodes_sequence (items : List N) : (Value.sequence items).nodes = items := rfl

theorem nodes_map (f : M → N) (v : Value M) : (v.map f).nodes = v.nodes.map f := by
  cases v <;> simp [map, nodes]

theorem map_congr {f g : M → N} {v : Value M} (h : ∀ n ∈ v.nodes, f n = g n) :
    v.map f = v.map g := by
  cases v with
  | node n => simp [map, h n (by simp [nodes])]
  | set ms => simpa [map, nodes] using h
  | sequence ms => simpa [map, nodes] using h
  | _ => rfl

theorem map_map (g : N → P) (f : M → N) (v : Value M) :
    (v.map f).map g = v.map fun n => g (f n) := by
  cases v <;> simp [map]

theorem map_eq_self {f : N → N} {v : Value N} (h : ∀ n ∈ v.nodes, f n = n) : v.map f = v := by
  rw [map_congr h]
  cases v <;> simp [map]

end Value

namespace Node

def constructor : Node → Constructor
  | .mk c _ => c

def fields : Node → List (Value Node)
  | .mk _ fields => fields

@[simp] theorem constructor_mk (c : Constructor) (fields : List (Value Node)) :
    (mk c fields).constructor = c := rfl

@[simp] theorem fields_mk (c : Constructor) (fields : List (Value Node)) :
    (mk c fields).fields = fields := rfl

theorem ext_fields {n m : Node} (hc : n.constructor = m.constructor) (hf : n.fields = m.fields) :
    n = m := by
  cases n
  cases m
  simp_all

def children (n : Node) : List Node := n.fields.flatMap Value.nodes

theorem mem_children {m n : Node} : m ∈ n.children ↔ ∃ v ∈ n.fields, m ∈ v.nodes := by
  simp [children]

section

variable {β : Type} (row : Constructor → List (Value β) → β)

mutual

/-- The bottom-up recursion: `row` sees each field with the nested results in place. -/
def fold : Node → β
  | .mk c fields => row c (foldFields fields)

def foldFields : List (Value Node) → List (Value β)
  | [] => []
  | v :: vs => foldValue v :: foldFields vs

def foldValue : Value Node → Value β
  | .none => .none
  | .node value => .node (fold value)
  | .text value => .text value
  | .bytes value => .bytes value
  | .integer value => .integer value
  | .enum value => .enum value
  | .set members => .set (foldNodes members)
  | .sequence items => .sequence (foldNodes items)

def foldNodes : List Node → List β
  | [] => []
  | n :: ns => fold n :: foldNodes ns

end

theorem foldNodes_eq (ns : List Node) : foldNodes row ns = ns.map (fold row) := by
  induction ns with
  | nil => simp [foldNodes]
  | cons n ns ih => simp [foldNodes, ih]

theorem foldValue_eq (v : Value Node) : foldValue row v = v.map (fold row) := by
  cases v <;> simp [foldValue, Value.map, foldNodes_eq]

theorem foldFields_eq (vs : List (Value Node)) :
    foldFields row vs = vs.map (Value.map (fold row)) := by
  induction vs with
  | nil => simp [foldFields]
  | cons v vs ih => simp [foldFields, ih, foldValue_eq]

@[simp] theorem fold_mk (c : Constructor) (fields : List (Value Node)) :
    fold row (.mk c fields) = row c (fields.map (Value.map (fold row))) := by
  rw [fold, foldFields_eq]

end

theorem sizeOf_lt_of_mem_children {m n : Node} (h : m ∈ n.children) : sizeOf m < sizeOf n := by
  obtain ⟨c, fields⟩ := n
  obtain ⟨v, hv, hm⟩ := mem_children.mp h
  have hfield := List.sizeOf_lt_of_mem hv
  have hvalue : sizeOf m < sizeOf v := by
    cases v with
    | node value => simp [List.mem_singleton.mp hm]
    | set members | sequence members => exact (List.sizeOf_lt_of_mem hm).trans_le (by simp)
    | _ => cases hm
  rw [mk.sizeOf_spec]
  exact (hvalue.trans hfield).trans_le (Nat.le_add_left _ _)

/-- A property that passes from the nested values to the value holds of every value. -/
theorem induct {P : Node → Prop} (step : ∀ n : Node, (∀ m ∈ n.children, P m) → P n) (n : Node) : P n :=
  step n fun m _ => induct step m
termination_by sizeOf n
decreasing_by exact sizeOf_lt_of_mem_children ‹_›

/-- A property of a value and of all values nested in it. -/
inductive Everywhere (P : Node → Prop) : Node → Prop where
  | intro {n : Node} (here : P n) (nested : ∀ m ∈ n.children, Everywhere P m) : Everywhere P n

theorem Everywhere.here {P : Node → Prop} {n : Node} (h : n.Everywhere P) : P n := by
  cases h with
  | intro here _ => exact here

theorem Everywhere.child {P : Node → Prop} {m n : Node} (h : n.Everywhere P) (hm : m ∈ n.children) :
    m.Everywhere P := by
  cases h with
  | intro _ nested => exact nested m hm

mutual

def decEq : (a b : Node) → Decidable (a = b)
  | .mk c fields, .mk c' fields' =>
    if hc : c = c' then
      match decEqFields fields fields' with
      | .isTrue h => .isTrue (by rw [hc, h])
      | .isFalse h => .isFalse fun heq => h (by injection heq)
    else .isFalse fun heq => hc (by injection heq)
termination_by structural a => a

def decEqFields : (a b : List (Value Node)) → Decidable (a = b)
  | [], [] => .isTrue rfl
  | [], _ :: _ => .isFalse (by simp)
  | _ :: _, [] => .isFalse (by simp)
  | v :: vs, w :: ws =>
    match decEqValue v w, decEqFields vs ws with
    | .isTrue h, .isTrue h' => .isTrue (by rw [h, h'])
    | .isFalse h, _ => .isFalse fun heq => h (List.cons.inj heq).1
    | _, .isFalse h => .isFalse fun heq => h (List.cons.inj heq).2

def decEqValue : (a b : Value Node) → Decidable (a = b)
  | .none, w => match w with
    | .none => .isTrue rfl
    | .node _ | .text _ | .bytes _ | .integer _ | .enum _ | .set _ | .sequence _ => .isFalse nofun
  | .node n, w => match w with
    | .node m => match decEq n m with
      | .isTrue h => .isTrue (by rw [h])
      | .isFalse h => .isFalse fun heq => h (by injection heq)
    | .none | .text _ | .bytes _ | .integer _ | .enum _ | .set _ | .sequence _ => .isFalse nofun
  | .set ns, w => match w with
    | .set ms => match decEqNodes ns ms with
      | .isTrue h => .isTrue (by rw [h])
      | .isFalse h => .isFalse fun heq => h (by injection heq)
    | .none | .node _ | .text _ | .bytes _ | .integer _ | .enum _ | .sequence _ => .isFalse nofun
  | .sequence ns, w => match w with
    | .sequence ms => match decEqNodes ns ms with
      | .isTrue h => .isTrue (by rw [h])
      | .isFalse h => .isFalse fun heq => h (by injection heq)
    | .none | .node _ | .text _ | .bytes _ | .integer _ | .enum _ | .set _ => .isFalse nofun
  | .text s, w => match w with
    | .text t => decidable_of_iff (s = t) (by simp)
    | .none | .node _ | .bytes _ | .integer _ | .enum _ | .set _ | .sequence _ => .isFalse nofun
  | .bytes s, w => match w with
    | .bytes t => decidable_of_iff (s = t) (by simp)
    | .none | .node _ | .text _ | .integer _ | .enum _ | .set _ | .sequence _ => .isFalse nofun
  | .integer s, w => match w with
    | .integer t => decidable_of_iff (s = t) (by simp)
    | .none | .node _ | .text _ | .bytes _ | .enum _ | .set _ | .sequence _ => .isFalse nofun
  | .enum s, w => match w with
    | .enum t => decidable_of_iff (s = t) (by simp)
    | .none | .node _ | .text _ | .bytes _ | .integer _ | .set _ | .sequence _ => .isFalse nofun

def decEqNodes : (a b : List Node) → Decidable (a = b)
  | [], [] => .isTrue rfl
  | [], _ :: _ => .isFalse (by simp)
  | _ :: _, [] => .isFalse (by simp)
  | n :: ns, m :: ms =>
    match decEq n m, decEqNodes ns ms with
    | .isTrue h, .isTrue h' => .isTrue (by rw [h, h'])
    | .isFalse h, _ => .isFalse fun heq => h (List.cons.inj heq).1
    | _, .isFalse h => .isFalse fun heq => h (List.cons.inj heq).2

end

instance : DecidableEq Node := decEq

end Node

end OwlCore
