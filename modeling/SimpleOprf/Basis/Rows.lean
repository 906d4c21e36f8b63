import Mathlib.Data.List.Basic

/-!
# Vectors laid out row by row

A buffer that a nested loop fills holds entry `column` of row `row` at index
`row * width + column`, provided that every row has the same width.

The entries come out in order whatever loop computes them, so a table is known
from one equation for a row and a column.
-/

namespace SimpleOprf.Basis

variable {α β : Type}

/-- The length of a buffer of rows of one width. -/
theorem length_rows {rows : List α} {fill : α → List β} {width : Nat}
    (uniform : ∀ row ∈ rows, (fill row).length = width) :
    (rows.flatMap fill).length = rows.length * width := by
  induction rows with
  | nil => simp
  | cons row rest ih =>
    have tail := ih fun other member => uniform other (List.mem_cons_of_mem _ member)
    rw [List.flatMap_cons, List.length_append, tail, uniform row List.mem_cons_self,
      List.length_cons, Nat.succ_mul, Nat.add_comm]

/-- Reading a buffer of rows at a row and a column. -/
theorem getElem?_rows {rows : List α} {fill : α → List β} {width : Nat}
    (uniform : ∀ row ∈ rows, (fill row).length = width) {index column : Nat}
    (inside : column < width) {row : α} (found : rows[index]? = some row) :
    (rows.flatMap fill)[index * width + column]? = (fill row)[column]? := by
  induction rows generalizing index with
  | nil => cases found
  | cons first rest ih =>
    have size := uniform first List.mem_cons_self
    rw [List.flatMap_cons]
    cases index with
    | zero =>
      have head : first = row := Option.some.inj found
      subst head
      rw [Nat.zero_mul, Nat.zero_add, List.getElem?_append_left (by omega)]
    | succ index =>
      have beyond : (fill first).length ≤ (index + 1) * width + column := by
        rw [size, Nat.succ_mul]
        omega
      have position : (index + 1) * width + column - (fill first).length =
          index * width + column := by
        rw [size, Nat.succ_mul]
        omega
      rw [List.getElem?_append_right beyond, position]
      exact ih (fun other member => uniform other (List.mem_cons_of_mem _ member)) found

/-- A row as a section of the buffer. -/
theorem section_rows {rows : List α} {fill : α → List β} {width : Nat}
    (uniform : ∀ row ∈ rows, (fill row).length = width) {index : Nat} {row : α}
    (found : rows[index]? = some row) :
    ((rows.flatMap fill).drop (index * width)).take width = fill row := by
  induction rows generalizing index with
  | nil => cases found
  | cons first rest ih =>
    have size := uniform first List.mem_cons_self
    rw [List.flatMap_cons]
    cases index with
    | zero =>
      have head : first = row := Option.some.inj found
      subst head
      rw [Nat.zero_mul, List.drop_zero, List.take_left' size]
    | succ index =>
      rw [Nat.succ_mul, Nat.add_comm, ← List.drop_drop, List.drop_left' size]
      exact ih (fun other member => uniform other (List.mem_cons_of_mem _ member)) found

end SimpleOprf.Basis
