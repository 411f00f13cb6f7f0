import OwlCore.Lib.Fallible
import OwlCore.Lib.LittleEndian
import OwlCore.Model.Canonical

/-!
# Tables of the wire format

A table is the number of its rows, the offset of every row and the end of the last one in eight
octets each, and the rows. `validate_table` accepts exactly the tables whose offsets tile the
payload, with ascending rows.
-/
namespace OwlCore

open Fallible List

/-- A check that raises `error` if `p` holds. -/
def reject (p : Prop) [Decidable p] (error : Error) : Except Error Unit := if p then .error error else .ok ()

@[simp] theorem reject_eq_ok [Decidable p] :
    reject p error = .ok u ↔ ¬p := by
  unfold reject
  split <;> simp_all

def corrupt (message : String) : Error := .wireCorruption message

/-- The offsets of the rows in the payload and the end of the last one. -/
def rowOffsets : Nat → List Bytes → List Nat
  | offset, [] => [offset]
  | offset, row :: rest => offset :: rowOffsets (offset + row.length) rest

def encodeTable (rows : List Bytes) : Bytes :=
  packUints ((rows.length :: rowOffsets 0 rows).map (8, ·)) ++ rows.flatten

structure DirectoryEntry where
  kind : Nat
  flags : Nat
  schema : Nat
  offset : Nat
  storedLength : Nat
  decodedLength : Nat
  rowCount : Nat
  digest : Bytes
  deriving DecidableEq

def DirectoryEntry.stop (entry : DirectoryEntry) : Nat := entry.offset + entry.storedLength

structure TableView where
  kind : Nat
  count : Nat
  data : Bytes
  payload : Nat

namespace TableView

def ofEntry (data : Bytes) (entry : DirectoryEntry) : TableView where
  kind := entry.kind
  count := entry.rowCount
  data := slice data entry.offset entry.stop
  payload := 8 * (entry.rowCount + 2)

/-- The offset that the table stores at a position of its offset array. -/
def rowOffset (data : Bytes) (index : Nat) : Nat := uintAt data (8 + 8 * index) 8

def row (table : TableView) (index : Nat) : Except Error Bytes :=
  if table.count ≤ index then .error (.indexError index)
  else .ok (slice table.data (table.payload + rowOffset table.data index)
    (table.payload + rowOffset table.data (index + 1)))

end TableView

section

variable (data : Bytes) (count : Nat)

def storedRow (index : Nat) : Bytes :=
  slice data (8 * (count + 2) + TableView.rowOffset data index) (8 * (count + 2) + TableView.rowOffset data (index + 1))

/-- One round of the loop of `_validate_table` over the previous offset and the previous row. -/
def validateRow (state : Nat × Option Bytes) (index : Nat) : Except Error (Nat × Option Bytes) := do
  let offset := TableView.rowOffset data index
  reject (index = 0 ∧ offset ≠ 0) (corrupt "wire table first row offset is not zero")
  reject (offset < state.1 ∨ data.length - 8 * (count + 2) < offset) (corrupt "wire table row offsets are invalid")
  if index < count then
    reject (TableView.rowOffset data (index + 1) < offset) (corrupt "wire table contains a reversed row slice")
    -- a single row is not compared with anything
    if 1 < count then
      let current := storedRow data count index
      reject (state.2.any (current ≤ ·) = true) (corrupt "wire table rows are not strictly canonical")
      .ok (offset, some current)
    else .ok (offset, state.2)
  else .ok (offset, state.2)

def validateTable : Except Error Unit := do
  reject (data.length < 16) (corrupt "wire table is shorter than its offset header")
  reject (uintAt data 0 8 ≠ count) (corrupt "wire table row count disagrees with directory")
  reject (data.length < 8 * (count + 2)) (corrupt "wire table offset array exceeds section bounds")
  let state ← (List.range (count + 1)).foldlM (validateRow data count) (0, none)
  reject (state.1 ≠ data.length - 8 * (count + 2)) (corrupt "wire table offsets do not exactly cover the payload")

end

/-- The offsets of a table tile its payload, and several rows are ascending. -/
structure Tiled (data : Bytes) (count : Nat) : Prop where
  count_eq : uintAt data 0 8 = count
  header : 8 * (count + 2) ≤ data.length
  first : TableView.rowOffset data 0 = 0
  mono : ∀ i < count, TableView.rowOffset data i ≤ TableView.rowOffset data (i + 1)
  last : TableView.rowOffset data count = data.length - 8 * (count + 2)
  ascending : ∀ i, i + 1 < count → storedRow data count i < storedRow data count (i + 1)

section

variable {data : Bytes} {count : Nat}

def tableState (data : Bytes) (count : Nat) : Nat → Nat × Option Bytes
  | 0 => (0, none)
  | i + 1 => (TableView.rowOffset data i, if 1 < count then some (storedRow data count (min i (count - 1))) else none)

def RowValid (data : Bytes) (count i : Nat) : Prop :=
  (i = 0 → TableView.rowOffset data 0 = 0) ∧
  (∀ j, i = j + 1 → TableView.rowOffset data j ≤ TableView.rowOffset data i) ∧
  TableView.rowOffset data i ≤ data.length - 8 * (count + 2) ∧
  (i < count → TableView.rowOffset data i ≤ TableView.rowOffset data (i + 1)) ∧
  ∀ j, i = j + 1 → i < count → storedRow data count j < storedRow data count i

theorem tableState_snd_any (hi : i < count) (hmany : 1 < count) (row : Bytes) :
    (tableState data count i).2.any (row ≤ ·) = false ↔ ∀ j, i = j + 1 → storedRow data count j < row := by
  cases i with
  | zero => simp [tableState]
  | succ i =>
    have hmin : min i (count - 1) = i := by omega
    simp [tableState, hmany, hmin]

theorem tableState_fst_le : (tableState data count i).1 ≤ TableView.rowOffset data i ↔
    ∀ j, i = j + 1 → TableView.rowOffset data j ≤ TableView.rowOffset data i := by
  cases i with
  | zero => simp [tableState]
  | succ i => simp [tableState]

theorem tableState_snd (data : Bytes) (h : count ≤ i ∨ count ≤ 1) (hi : i < count + 1) :
    (tableState data count i).2 = (tableState data count (i + 1)).2 := by
  cases i with
  | zero =>
    have hcount : ¬1 < count := by omega
    simp [tableState, hcount]
  | succ i =>
    by_cases hcount : 1 < count
    · have hmin : min i (count - 1) = min (i + 1) (count - 1) := by omega
      simp [tableState, hcount, hmin]
    · simp [tableState, hcount]

theorem validateRow_eq_ok (data : Bytes) (hi : i < count + 1) (state : Nat × Option Bytes) :
    validateRow data count (tableState data count i) i = .ok state ↔
      RowValid data count i ∧ state = tableState data count (i + 1) := by
  have hfirst : ¬(i = 0 ∧ TableView.rowOffset data i ≠ 0) ↔ (i = 0 → TableView.rowOffset data 0 = 0) := by
    constructor
    · rintro h rfl
      by_contra hne
      exact h ⟨rfl, hne⟩
    · rintro h ⟨rfl, hne⟩
      exact hne (h rfl)
  have hnext : (TableView.rowOffset data i, (tableState data count (i + 1)).2) = tableState data count (i + 1) := rfl
  simp only [validateRow, bind_eq_ok, reject_eq_ok, exists_and_left, exists_const, not_or, not_lt, hfirst,
    tableState_fst_le, RowValid, eq_comm (a := state)]
  by_cases hcount : i < count
  · by_cases hmany : 1 < count
    · have hmin : min i (count - 1) = i := by omega
      have hrow : (TableView.rowOffset data i, some (storedRow data count i)) = tableState data count (i + 1) := by
        simp [tableState, hmany, hmin]
      simp only [hcount, hmany, if_true, bind_eq_ok, reject_eq_ok, exists_and_left, exists_const, not_lt,
        Bool.not_eq_true, tableState_snd_any hcount hmany, Except.ok.injEq, hrow, forall_true_left]
      tauto
    · have hsnd := tableState_snd data (.inr (not_lt.mp hmany)) hi
      have hzero : ∀ j, i ≠ j + 1 := by omega
      simp only [hcount, hmany, if_true, if_false, bind_eq_ok, reject_eq_ok, exists_and_left, exists_const, not_lt,
        Except.ok.injEq, hsnd, hnext, forall_true_left, hzero, false_implies, implies_true, and_true, true_and]
      tauto
  · have hsnd := tableState_snd data (.inl (not_lt.mp hcount)) hi
    simp only [hcount, if_false, Except.ok.injEq, hsnd, hnext, false_implies, implies_true, and_true]
    tauto

/-- `_validate_table` accepts exactly the tiled tables. -/
theorem validateTable_eq_ok : validateTable data count = .ok () ↔ Tiled data count := by
  have hloop := fun state => foldlM_range_eq_ok (f := validateRow data count) (s := state)
    (fun i hi => validateRow_eq_ok data hi)
  have hstart : tableState data count 0 = (0, none) := rfl
  rw [hstart] at hloop
  simp only [validateTable, bind_eq_ok, reject_eq_ok, exists_and_left, exists_const, hloop, not_lt, ne_eq, not_not]
  constructor
  · rintro ⟨-, hcount, hheader, state, ⟨hvalid, rfl⟩, hlast⟩
    exact ⟨hcount, hheader, (hvalid 0 (Nat.succ_pos _)).1 rfl, fun i hi => (hvalid i (by omega)).2.2.2.1 hi, hlast,
      fun i hi => (hvalid (i + 1) (by omega)).2.2.2.2 i rfl hi⟩
  · intro h
    have hmono : ∀ i ≤ count, ∀ j ≤ i, TableView.rowOffset data j ≤ TableView.rowOffset data i := by
      intro i hi
      induction i with
      | zero =>
        intro j hj
        rw [Nat.le_zero.mp hj]
      | succ i ih =>
        intro j hj
        rcases Nat.le_succ_iff.mp hj with hj | rfl
        · exact (ih (by omega) j hj).trans (h.mono i hi)
        · exact Nat.le_refl _
    have hheader := h.header
    refine ⟨by omega, h.count_eq, hheader, _, ⟨fun i hi => ?_, rfl⟩, h.last⟩
    refine ⟨fun _ => h.first, ?_, ?_, h.mono i, ?_⟩
    · rintro j rfl
      exact h.mono j (by omega)
    · exact (hmono count le_rfl i (by omega)).trans h.last.le
    · rintro j rfl hj
      exact h.ascending j hj

end

section

variable {rows : List Bytes}

theorem rowOffsets_eq_map (offset : Nat) (rows : List Bytes) : rowOffsets offset rows =
    (List.range (rows.length + 1)).map fun i => offset + (rows.take i).flatten.length := by
  induction rows generalizing offset with
  | nil => simp [rowOffsets]
  | cons row rest ih =>
    conv_rhs => rw [length_cons, range_succ_eq_map, map_cons, map_map]
    rw [rowOffsets, ih]
    simp [Function.comp_def, Nat.add_assoc]

theorem length_encodeTable (rows : List Bytes) :
    (encodeTable rows).length = 8 * (rows.length + 2) + rows.flatten.length := by
  have hlength : (rowOffsets 0 rows).length = rows.length + 1 := by
    rw [rowOffsets_eq_map, length_map, length_range]
  rw [encodeTable, length_append, length_packUints, map_map]
  simp only [Function.comp_def, map_const', sum_replicate_nat, length_cons, hlength]
  omega

theorem length_flatten_take_le (rows : List Bytes) (i : Nat) : (rows.take i).flatten.length ≤ rows.flatten.length := by
  conv_rhs => rw [← take_append_drop i rows, flatten_append, length_append]
  exact Nat.le_add_right _ _

variable (hsize : (encodeTable rows).length < 256 ^ 8)

include hsize

theorem uintAt_encodeTable : uintAt (encodeTable rows) 0 8 = rows.length := by
  have hlength := length_encodeTable rows
  exact uintAt_packUints_map (i := 0) rfl (by omega)

theorem rowOffset_encodeTable (hi : i ≤ rows.length) :
    TableView.rowOffset (encodeTable rows) i = (rows.take i).flatten.length := by
  have hlength := length_encodeTable rows
  have htake := length_flatten_take_le rows i
  have hoffset : 8 + 8 * i = 8 * (i + 1) := by omega
  have hget : (rows.length :: rowOffsets 0 rows)[i + 1]? = some (rows.take i).flatten.length := by
    rw [getElem?_cons_succ, rowOffsets_eq_map, getElem?_map, getElem?_range (by omega)]
    simp
  rw [TableView.rowOffset, hoffset]
  exact uintAt_packUints_map hget (by omega)

theorem storedRow_encodeTable (hi : rows[i]? = some row) :
    storedRow (encodeTable rows) rows.length i = row := by
  obtain ⟨hlt, rfl⟩ := List.getElem?_eq_some_iff.mp hi
  have hheader : (packUints ((rows.length :: rowOffsets 0 rows).map (8, ·))).length = 8 * (rows.length + 2) := by
    have hlength := length_encodeTable rows
    rw [encodeTable, length_append] at hlength
    omega
  have hsplit : rows.flatten = (rows.take i).flatten ++ (rows[i] ++ (rows.drop (i + 1)).flatten) := by
    rw [← flatten_cons, getElem_cons_drop, ← flatten_append, take_append_drop]
  have hnext : (rows.take (i + 1)).flatten.length = (rows.take i).flatten.length + rows[i].length := by
    rw [take_succ_eq_append_getElem hlt, flatten_append, length_append]
    simp
  rw [storedRow, rowOffset_encodeTable hsize hlt.le, rowOffset_encodeTable hsize hlt, encodeTable, ← hheader,
    slice_add_append, hsplit]
  exact slice_append rfl hnext

theorem tiled_encodeTable (hrows : rows.Pairwise (· < ·)) : Tiled (encodeTable rows) rows.length where
  count_eq := uintAt_encodeTable hsize
  header := by
    rw [length_encodeTable]
    exact Nat.le_add_right _ _
  first := by
    rw [rowOffset_encodeTable hsize (Nat.zero_le _)]
    rfl
  mono := by
    intro i hi
    rw [rowOffset_encodeTable hsize hi.le, rowOffset_encodeTable hsize hi,
      take_succ_eq_append_getElem hi, flatten_append, length_append]
    exact Nat.le_add_right _ _
  last := by
    rw [rowOffset_encodeTable hsize le_rfl, length_encodeTable, Nat.add_sub_cancel_left, take_length]
  ascending := by
    intro i hi
    rw [storedRow_encodeTable hsize (getElem?_eq_getElem (Nat.lt_of_succ_lt hi)),
      storedRow_encodeTable hsize (getElem?_eq_getElem hi)]
    exact pairwise_iff_getElem.mp hrows i (i + 1) _ hi (Nat.lt_succ_self i)

end

end OwlCore
