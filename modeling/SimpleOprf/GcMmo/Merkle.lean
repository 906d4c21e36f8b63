import SimpleOprf.Basis.HashTree
import SimpleOprf.GcMmo.Garble

/-!
# What a Merkle root fixes

`merkleRootPairs` is a hash tree over the label pairs. Two lists of one length
with the same root are equal, or two different inputs of one size with the same
digest were hashed for the two roots.

The two inputs are an explicit collision, found on the way up the tree. An odd
level repeats its last node, so lists of different lengths are not separated.
-/

namespace SimpleOprf.GcMmo

open SimpleOprf.Basis

variable (sha256 : List UInt8 → Digest)

/-- The 32 bytes that are hashed for a pair. -/
def leafInput (pair : Block × Block) : List UInt8 := pair.1.bytes ++ pair.2.bytes

/-- The 64 bytes that are hashed for two nodes. -/
def nodeInput (left right : Digest) : List UInt8 := left.toList ++ right.toList

/-- A level of the code is a level of the hash tree. -/
theorem merkleLevel_eq (level : List Digest) :
    merkleLevel sha256 level = (joins nodeInput level).map sha256 := by
  induction level using merkleLevel.induct with
  | case1 => simp [merkleLevel, joins]
  | case2 last => simp [merkleLevel, joins, nodeInput]
  | case3 left right rest ih => simp [merkleLevel, joins, nodeInput, ih]

/-- The loop climbs the tree. -/
theorem merkleClimb_eq (level : List Digest) :
    merkleClimb sha256 level = climb sha256 nodeInput level := by
  induction level using merkleClimb.induct sha256 with
  | case1 level long ih =>
    rw [merkleClimb, if_pos long, ih, merkleLevel_eq, climb.eq_def sha256 nodeInput level, if_pos long]
  | case2 level short => rw [merkleClimb, if_neg short, climb, if_neg short]

/-- Every input that is hashed for the root of the pairs. -/
def merkleInputs (pairs : List (Block × Block)) : List (List UInt8) :=
  pairs.map leafInput ++ climbed sha256 nodeInput ((pairs.map leafInput).map sha256)

variable {sha256}

/-- A block is known from its bytes. -/
theorem Block.bytes_injective : Function.Injective Block.bytes :=
  Function.LeftInverse.injective Block.ofBytes_bytes

/-- A pair is known from what is hashed for its leaf. -/
theorem leafInput_injective : Function.Injective leafInput := by
  rintro ⟨a, b⟩ ⟨a', b'⟩ same
  obtain ⟨first, second⟩ := List.append_inj same (by simp only [Block.length_bytes])
  exact Prod.ext (Block.bytes_injective first) (Block.bytes_injective second)

/-- Two children are known from what is hashed for their node. -/
theorem nodeInput_injective2 : Function.Injective2 nodeInput := by
  intro left left' right right' same
  obtain ⟨first, second⟩ := List.append_inj same (by simp only [Vector.length_toList])
  exact ⟨Vector.toList_inj.mp first, Vector.toList_inj.mp second⟩

theorem length_nodeInput (left right : Digest) : (nodeInput left right).length = 64 := by
  simp only [nodeInput, List.length_append, Vector.length_toList]

theorem length_leafInput (pair : Block × Block) : (leafInput pair).length = 32 := by
  simp only [leafInput, List.length_append, Block.length_bytes]

/-- The one node that is left of the leaves is the root. -/
theorem merkleRootPairs_eq {pairs : List (Block × Block)} (filled : 0 < pairs.length) :
    climb sha256 nodeInput ((pairs.map leafInput).map sha256) = [merkleRootPairs sha256 pairs] := by
  have leaves : 0 < ((pairs.map leafInput).map sha256).length := by
    rwa [List.length_map, List.length_map]
  have one : (climb sha256 nodeInput ((pairs.map leafInput).map sha256)).length = 1 :=
    length_climb leaves
  obtain ⟨root, single⟩ := List.length_eq_one_iff.mp one
  have climbs : merkleClimb sha256 (pairs.map fun p => sha256 (p.1.bytes ++ p.2.bytes)) = [root] := by
    rw [merkleClimb_eq, ← single, List.map_map]
    rfl
  rw [single, merkleRootPairs, climbs]

/-- Equal roots of lists of one length come from equal lists, or two different
inputs of one size with one digest were hashed for them. -/
theorem merkle_root_binds (sha256 : List UInt8 → Digest) (pairs pairs' : List (Block × Block))
    (sized : pairs.length = pairs'.length)
    (same : merkleRootPairs sha256 pairs = merkleRootPairs sha256 pairs') :
    pairs = pairs' ∨ ∃ m ∈ merkleInputs sha256 pairs, ∃ m' ∈ merkleInputs sha256 pairs',
      m ≠ m' ∧ sha256 m = sha256 m' ∧
        (m.length = 32 ∧ m'.length = 32 ∨ m.length = 64 ∧ m'.length = 64) := by
  rcases Nat.eq_zero_or_pos pairs.length with empty | filled
  · rw [List.length_eq_zero_iff.mp empty, List.length_eq_zero_iff.mp (sized.symm.trans empty)]
    exact .inl rfl
  · have climbs : climb sha256 nodeInput ((pairs.map leafInput).map sha256) =
        climb sha256 nodeInput ((pairs'.map leafInput).map sha256) := by
      rw [merkleRootPairs_eq filled, merkleRootPairs_eq (sized ▸ filled), same]
    have levels : ((pairs.map leafInput).map sha256).length =
        ((pairs'.map leafInput).map sha256).length := by
      simp only [List.length_map, sized]
    rcases climb_binding nodeInput_injective2 levels climbs with leaves | collision
    · rcases eq_or_collision leaves with inputs | collision
      · exact .inl (List.map_injective_iff.mpr leafInput_injective inputs)
      · obtain ⟨m, member, m', member', different, digests⟩ := collision
        obtain ⟨pair, -, rfl⟩ := List.mem_map.mp member
        obtain ⟨pair', -, rfl⟩ := List.mem_map.mp member'
        exact .inr ⟨_, List.mem_append_left _ member, _, List.mem_append_left _ member', different,
          digests, .inl ⟨length_leafInput pair, length_leafInput pair'⟩⟩
    · obtain ⟨m, member, m', member', different, digests⟩ := collision
      obtain ⟨left, right, rfl⟩ := exists_of_mem_climbed member
      obtain ⟨left', right', rfl⟩ := exists_of_mem_climbed member'
      exact .inr ⟨_, List.mem_append_right _ member, _, List.mem_append_right _ member', different,
        digests, .inr ⟨length_nodeInput left right, length_nodeInput left' right'⟩⟩

/-- Three pairs, the last of which an odd level repeats, under a hash that tells
nothing apart. -/
theorem three_pairs_collide : ∃ m ∈ merkleInputs (fun _ => Vector.replicate 32 0)
      [(0, 0), (0, 0), (0, 0)], ∃ m' ∈ merkleInputs (fun _ => Vector.replicate 32 0)
      [(0, 0), (0, 0), (0, Block.ofBytes [1])], m ≠ m' := by
  rcases merkle_root_binds (fun _ => Vector.replicate 32 0) [(0, 0), (0, 0), (0, 0)]
    [(0, 0), (0, 0), (0, Block.ofBytes [1])] rfl rfl with same | ⟨m, member, m', member', different, -⟩
  · exact absurd same (by decide)
  · exact ⟨m, member, m', member', different⟩

end SimpleOprf.GcMmo
