import Mathlib.Data.List.Nodup

/-!
# Loops that write one place at a time

Iteration `k` of a loop writes the place `place k` of a state and leaves every
other place alone. A place then keeps the value of its own iteration, which
reads places that no earlier iteration wrote as they were before the loop.
-/

namespace SimpleOprf.Basis

variable {σ κ ι β : Type} {body : σ → κ → σ} {look : σ → ι → β} {place : κ → ι}

section

variable (frame : ∀ s k j, j ≠ place k → look (body s k) j = look s j)
include frame

/-- A place that no iteration writes keeps its value. -/
theorem foldl_untouched {steps : List κ} {j : ι} (outside : ∀ k ∈ steps, j ≠ place k) (s : σ) :
    look (steps.foldl body s) j = look s j := by
  induction steps generalizing s with
  | nil => rfl
  | cons k rest ih =>
    rw [List.foldl_cons, ih (fun other member => outside other (List.mem_cons_of_mem _ member)),
      frame s k j (outside k List.mem_cons_self)]

/-- The value that iteration `k` writes survives the iterations after it. -/
theorem foldl_written {before after : List κ} {k : κ}
    (last : ∀ other ∈ after, place k ≠ place other) (s : σ) :
    look ((before ++ k :: after).foldl body s) (place k) =
      look (body (before.foldl body s) k) (place k) := by
  rw [List.foldl_append, List.foldl_cons, foldl_untouched frame last]

end

section Disjoint

variable (body : σ → κ → σ) (look : σ → ι → β) (touches : κ → ι → Prop)

/-- A place that no iteration touches keeps its value. -/
theorem foldl_outside (frame : ∀ s k j, ¬touches k j → look (body s k) j = look s j) {steps : List κ}
    {j : ι} (outside : ∀ k ∈ steps, ¬touches k j) (s : σ) : look (steps.foldl body s) j = look s j := by
  induction steps generalizing s with
  | nil => rfl
  | cons first rest ih =>
    rw [List.foldl_cons, ih fun k found => outside k (List.mem_cons_of_mem _ found),
      frame s first j (outside first List.mem_cons_self)]

/-- A loop whose iterations touch disjoint places, each from its own places: a place
ends up with what its iteration makes of the state before the loop. -/
theorem foldl_disjoint (frame : ∀ s k j, ¬touches k j → look (body s k) j = look s j)
    (own : ∀ s s' k, (∀ j, touches k j → look s j = look s' j) →
      ∀ j, touches k j → look (body s k) j = look (body s' k) j)
    {steps : List κ} (distinct : steps.Nodup)
    (once : ∀ k ∈ steps, ∀ k' ∈ steps, ∀ j, touches k j → touches k' j → k = k')
    (s : σ) {k : κ} (member : k ∈ steps) {j : ι} (touched : touches k j) :
    look (steps.foldl body s) j = look (body s k) j := by
  obtain ⟨before, after, rfl⟩ := List.append_of_mem member
  obtain ⟨absent, -⟩ := List.nodup_cons.mp (List.nodup_middle.mp distinct)
  have apart : ∀ other ∈ before ++ after, ∀ j, touches k j → ¬touches other j := by
    intro other found j mine theirs
    have inside : other ∈ before ++ k :: after := by
      rcases List.mem_append.mp found with early | late
      · exact List.mem_append_left _ early
      · exact List.mem_append_right _ (List.mem_cons_of_mem _ late)
    exact absent (once k member other inside j mine theirs ▸ found)
  rw [List.foldl_append, List.foldl_cons, foldl_outside body look touches frame fun other found =>
    apart other (List.mem_append_right _ found) j touched]
  exact own _ s k (fun i mine => foldl_outside body look touches frame (fun other found =>
    apart other (List.mem_append_left _ found) i mine) s) j touched

end Disjoint

/-- A loop that rewrites every part of a state from that part alone. -/
theorem foldl_parts {parts : List ι} {body : σ → ι → σ} (distinct : parts.Nodup)
    (frame : ∀ s k j, j ≠ k → look (body s k) j = look s j) (rewrite : β → β)
    (own : ∀ s k, look (body s k) k = rewrite (look s k)) (s : σ) {part : ι}
    (member : part ∈ parts) : look (parts.foldl body s) part = rewrite (look s part) := by
  obtain ⟨before, after, rfl⟩ := List.append_of_mem member
  have disjoint := List.nodup_middle.mp distinct
  have absent : part ∉ before ++ after := (List.nodup_cons.mp disjoint).1
  have late : ∀ other ∈ after, part ≠ other := fun other found same =>
    absent (List.mem_append_right _ (same ▸ found))
  have early : ∀ other ∈ before, part ≠ other := fun other found same =>
    absent (List.mem_append_left _ (same ▸ found))
  have kept : look (before.foldl body s) part = look s part :=
    @foldl_untouched _ _ _ _ body look id frame before part early s
  rw [← kept, ← own]
  exact @foldl_written _ _ _ _ body look id frame before after part late s

end SimpleOprf.Basis
