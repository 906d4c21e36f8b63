import Mathlib.Data.List.Basic
import Mathlib.Logic.Function.Basic

/-!
# Hash trees built level by level

A level of digests is hashed pairwise into the next one, an odd level after
repeating its last node, until one node is left. Over any hash function two
levels of one length with the same result are equal, or two different messages
with one digest are among those that were hashed.
-/

namespace SimpleOprf.Basis

variable {M D : Type} (hash : M → D) (join : D → D → M)

/-- The messages that are hashed into the next level. -/
def joins : List D → List M
  | [] => []
  | [last] => [join last last]
  | left :: right :: rest => join left right :: joins rest

theorem length_joins (level : List D) : (joins join level).length = (level.length + 1) / 2 := by
  induction level using joins.induct with
  | case1 => simp [joins]
  | case2 last => simp [joins]
  | case3 left right rest ih =>
    simp only [joins, List.length_cons, ih]
    omega

/-- Hash levels together until one node remains. -/
def climb (level : List D) : List D :=
  if 1 < level.length then climb ((joins join level).map hash) else level
termination_by level.length
decreasing_by
  rw [List.length_map, length_joins]
  omega

/-- Every message that is hashed on the way. -/
def climbed (level : List D) : List M :=
  if 1 < level.length then joins join level ++ climbed ((joins join level).map hash) else []
termination_by level.length
decreasing_by
  rw [List.length_map, length_joins]
  omega

/-- Two different messages of the two lists have one digest. -/
def Collision (left right : List M) : Prop := ∃ m ∈ left, ∃ m' ∈ right, m ≠ m' ∧ hash m = hash m'

variable {hash join}

/-- A collision stays one among more messages. -/
theorem Collision.mono {left right left' right' : List M} (collision : Collision hash left right)
    (leftIn : ∀ m ∈ left, m ∈ left') (rightIn : ∀ m ∈ right, m ∈ right') :
    Collision hash left' right' := by
  obtain ⟨m, member, m', member', different, same⟩ := collision
  exact ⟨m, leftIn m member, m', rightIn m' member', different, same⟩

/-- Messages of which all digests agree in order are equal or collide. -/
theorem eq_or_collision {left right : List M} (same : left.map hash = right.map hash) :
    left = right ∨ Collision hash left right := by
  induction left generalizing right with
  | nil => exact .inl (List.map_eq_nil_iff.mp same.symm).symm
  | cons m left ih =>
    cases right with
    | nil => cases same
    | cons m' right =>
      obtain ⟨head, tail⟩ := List.cons.inj same
      by_cases equal : m = m'
      · rcases ih tail with rest | collision
        · exact .inl (by rw [equal, rest])
        · exact .inr (collision.mono (fun _ => List.mem_cons_of_mem m)
            fun _ => List.mem_cons_of_mem m')
      · exact .inr ⟨m, List.mem_cons_self, m', List.mem_cons_self, equal, head⟩

/-- Levels of one length are told apart by their messages. -/
theorem joins_inj (injective : Function.Injective2 join) {left right : List D}
    (sized : left.length = right.length) (same : joins join left = joins join right) :
    left = right := by
  induction left using joins.induct generalizing right with
  | case1 => exact (List.length_eq_zero_iff.mp sized.symm).symm
  | case2 last =>
    obtain ⟨other, rfl⟩ := List.length_eq_one_iff.mp sized.symm
    rw [(injective (List.cons.inj same).1).1]
  | case3 first second rest ih =>
    match right, sized with
    | first' :: second' :: rest', sized =>
      obtain ⟨head, tail⟩ := List.cons.inj same
      obtain ⟨rfl, rfl⟩ := injective head
      rw [ih (Nat.succ.inj (Nat.succ.inj sized)) tail]

/-- The joins of a level are hashed on the way up. -/
theorem mem_climbed_here {level : List D} (long : 1 < level.length) {m : M}
    (member : m ∈ joins join level) : m ∈ climbed hash join level := by
  rw [climbed, if_pos long]
  exact List.mem_append_left _ member

/-- So are those of the levels above it. -/
theorem mem_climbed_above {level : List D} (long : 1 < level.length) {m : M}
    (member : m ∈ climbed hash join ((joins join level).map hash)) :
    m ∈ climbed hash join level := by
  rw [climbed, if_pos long]
  exact List.mem_append_right _ member

/-- Every join is of two nodes. -/
theorem exists_of_mem_joins {level : List D} {m : M} (member : m ∈ joins join level) :
    ∃ left right, m = join left right := by
  induction level using joins.induct with
  | case1 => simp [joins] at member
  | case2 last => exact ⟨last, last, List.mem_singleton.mp member⟩
  | case3 left right rest ih =>
    rcases List.mem_cons.mp member with rfl | later
    · exact ⟨left, right, rfl⟩
    · exact ih later

/-- What is hashed above the leaves joins two nodes. -/
theorem exists_of_mem_climbed {level : List D} {m : M} (member : m ∈ climbed hash join level) :
    ∃ left right, m = join left right := by
  induction level using climbed.induct hash join with
  | case1 level long ih =>
    rw [climbed, if_pos long, List.mem_append] at member
    rcases member with here | above
    · exact exists_of_mem_joins here
    · exact ih above
  | case2 level short =>
    rw [climbed, if_neg short] at member
    cases member

/-- Levels of one length that end alike are equal or collide on the way. -/
theorem climb_binding (injective : Function.Injective2 join) {left right : List D}
    (sized : left.length = right.length) (same : climb hash join left = climb hash join right) :
    left = right ∨ Collision hash (climbed hash join left) (climbed hash join right) := by
  induction left using climb.induct hash join generalizing right with
  | case1 left long ih =>
    have longRight : 1 < right.length := by rwa [← sized]
    have above : ((joins join left).map hash).length = ((joins join right).map hash).length := by
      rw [List.length_map, List.length_map, length_joins, length_joins, sized]
    rw [climb.eq_def hash join left, if_pos long, climb.eq_def hash join right,
      if_pos longRight] at same
    rcases ih above same with levels | collision
    · rcases eq_or_collision levels with messages | collision
      · exact .inl (joins_inj injective sized messages)
      · exact .inr (collision.mono (fun _ => mem_climbed_here long)
          fun _ => mem_climbed_here longRight)
    · exact .inr (collision.mono (fun _ => mem_climbed_above long)
        fun _ => mem_climbed_above longRight)
  | case2 left short =>
    have shortRight : ¬ 1 < right.length := by rwa [← sized]
    rw [climb, if_neg short, climb, if_neg shortRight] at same
    exact .inl same

/-- What is left of a level with a node in it is one node. -/
theorem length_climb {level : List D} (filled : 0 < level.length) :
    (climb hash join level).length = 1 := by
  induction level using climb.induct hash join with
  | case1 level long ih =>
    rw [climb, if_pos long]
    refine ih ?_
    rw [List.length_map, length_joins]
    omega
  | case2 level short =>
    rw [climb, if_neg short]
    omega

end SimpleOprf.Basis
