import Mathlib.Data.List.FinRange
import SimpleOprf.Basis.Outcome
import SimpleOprf.Basis.Rows

/-!
# Buffers filled by indexed writes

A message is put together in an uninitialised buffer by loops that write one
entry after the other. The writes of such loops are listed in the order in which
they are made; where the listed places are consecutive the buffer ends up with
the written values, whatever it held before.
-/

namespace SimpleOprf.Basis

variable {α : Type}

/-- The writes of `for i < values.size(): buffer[offset + i] = values[i]`. -/
def copyTo (offset : Nat) (values : List α) : List (Nat × α) :=
  values.mapIdx fun i value => (offset + i, value)

/-- Make the writes in their order. -/
def perform (buffer : List α) (writes : List (Nat × α)) : Outcome (List α) :=
  writes.foldlM (fun buffer write => writeAt buffer write.1 write.2) buffer

theorem copyTo_cons (offset : Nat) (value : α) (rest : List α) :
    copyTo offset (value :: rest) = (offset, value) :: copyTo (offset + 1) rest := by
  unfold copyTo
  rw [List.mapIdx_cons]
  congr 2
  funext i value
  rw [Nat.add_assoc, Nat.add_comm 1 i]

theorem copyTo_append (offset : Nat) (front back : List α) :
    copyTo offset (front ++ back) = copyTo offset front ++ copyTo (offset + front.length) back := by
  induction front generalizing offset with
  | nil => rfl
  | cons value rest ih =>
    rw [List.cons_append, copyTo_cons, copyTo_cons, ih, List.cons_append, List.length_cons,
      Nat.add_assoc, Nat.add_comm 1]

/-- A loop of loops that copies rows of one width to consecutive places. -/
theorem copyTo_rows {n : Nat} {fill : Fin n → List α} {width : Nat}
    (uniform : ∀ j, (fill j).length = width) (offset : Nat) :
    ((List.finRange n).flatMap fun j : Fin n => copyTo (offset + j * width) (fill j)) =
      copyTo offset ((List.finRange n).flatMap fill) := by
  induction n with
  | zero => rfl
  | succ n ih =>
    have earlier : ((List.finRange n).flatMap fun j => fill j.castSucc).length = n * width := by
      rw [length_rows fun j _ => uniform j.castSucc, List.length_finRange]
    rw [List.finRange_succ_last, List.flatMap_append, List.flatMap_append, List.flatMap_map,
      List.flatMap_map, copyTo_append, earlier, List.flatMap_singleton, List.flatMap_singleton]
    exact congrArg (· ++ _) (ih fun j => uniform j.castSucc)

/-- The places that a copy writes, each once and in increasing order. -/
theorem places_copyTo (offset : Nat) (values : List α) :
    (copyTo offset values).map Prod.fst = List.range' offset values.length := by
  induction values generalizing offset with
  | nil => rfl
  | cons value rest ih =>
    rw [copyTo_cons, List.map_cons, ih, List.length_cons, List.range'_succ]

/-- A copy replaces as many entries as it has values. -/
theorem perform_copyTo {before old values : List α} (sized : old.length = values.length) :
    perform (before ++ old) (copyTo before.length values) = .ok (before ++ values) := by
  induction values generalizing before old with
  | nil =>
    rw [List.length_eq_zero_iff.mp sized]
    rfl
  | cons value rest ih =>
    obtain ⟨first, old, rfl⟩ := List.exists_cons_of_length_eq_add_one sized
    have inside : before.length < (before ++ first :: old).length := by
      rw [List.length_append, List.length_cons]
      omega
    have written : (before ++ first :: old).set before.length value = (before ++ [value]) ++ old := by
      rw [List.set_append_right _ _ (Nat.le_refl _), Nat.sub_self, List.set_cons_zero,
        List.append_cons]
    have next : before.length + 1 = (before ++ [value]).length := by
      rw [List.length_append, List.length_singleton]
    unfold perform
    rw [copyTo_cons, List.foldlM_cons, writeAt_of_lt _ inside, Outcome.ok_bind, written, next,
      List.append_cons before value rest]
    exact ih (Nat.succ.inj sized)

/-- A buffer that is written once at every place holds the values. -/
theorem perform_fill {buffer values : List α} (sized : buffer.length = values.length) :
    perform buffer (copyTo 0 values) = .ok values :=
  @perform_copyTo _ [] buffer values sized

end SimpleOprf.Basis
