import PolkadotSdk.MerkleTree.Binary

/-!
# Snowbridge's `merkle-tree`

The outbound-queue `merkle-tree` crate of Snowbridge builds its tree with the same `merkelize` as
`binary-merkle-tree`, with three differences: the leaves are `H256` hashes already, two nodes are
combined by hashing them in sorted order, and `verify_proof` sorts each pair the same way, so
that it needs neither the leaf's position nor the row's width.

Since combining in sorted order is commutative, climbing the authentication path of a leaf in any
order of sides gives the root (`verifyProof_path`), and `merkle_proof` is complete; the theorem
`merkleProof_verifies` states completeness for both crates.
-/

namespace PolkadotSdk.MerkleTree.Snowbridge

open PolkadotSdk.Lib.PairTree

/-- `H256`. -/
abbrev H256 := List.Vector UInt8 32

/-- `H256::default()`: all zero bytes. -/
def zero : H256 := List.Vector.replicate 32 0

/-- A `Hash<Output = H256>`. -/
structure Hasher where
  /-- `Hash::hash` -/
  hash : List UInt8 → H256

/-- Two nodes combined as `merkelize_row` and `verify_proof` do: hashed in sorted order, the
`H256` order comparing the bytes lexicographically. -/
def Hasher.combine (H : Hasher) (a b : H256) : H256 :=
  if a.toList < b.toList then H.hash (a.toList ++ b.toList) else H.hash (b.toList ++ a.toList)

variable (H : Hasher)

/-- `merkle_root`: `merkelize` of the leaves with the no-op visitor. -/
def merkleRoot (leaves : List H256) : H256 :=
  (merkelize H.combine unitVisitor zero leaves ()).1

/-- `merkle_proof`, with `None` where it panics: `leaf_index` is not below the number of leaves. -/
def merkleProof (leaves : List H256) (leafIndex : ℕ) : Option (MerkleProof H256 H256) :=
  let collected := merkelize H.combine proofCollection zero leaves ⟨[], leafIndex⟩
  match leaves[leafIndex]? with
  | none => none
  | some leaf => some ⟨collected.1, collected.2.proof, leaves.length, leafIndex, leaf⟩

/-- `verify_proof`: the proof items folded into the leaf hash, each pair sorted. -/
def verifyProof (root : H256) (proof : List H256) (numberOfLeaves leafIndex : ℕ)
    (leaf : Binary.Leaf H256) : Bool :=
  if leafIndex ≥ numberOfLeaves then false
  else
    let leafHash := match leaf with
      | .value content => H.hash content
      | .hash h => h
    decide (root = proof.foldl H.combine leafHash)

/-! ## Completeness -/

theorem combine_comm (a b : H256) : H.combine a b = H.combine b a := by
  unfold Hasher.combine
  by_cases hab : a.toList < b.toList
  · rw [if_pos hab, if_neg (List.lt_asymm hab)]
  · by_cases hba : b.toList < a.toList
    · rw [if_neg hab, if_pos hba]
    · -- neither is below the other: they are equal
      obtain rfl : a = b := List.Vector.toList_injective (List.le_antisymm hba hab)
      rfl

theorem merkleRoot_eq_climb {leaves : List H256} {i : ℕ} {y : H256} (hy : leaves[i]? = some y) :
    merkleRoot H leaves = climb H.combine y (path H.combine leaves i) := by
  rw [merkleRoot, merkelize_fst, root_eq_climb H.combine hy, Option.getD_some]

theorem merkleProof_eq {leaves : List H256} {i : ℕ} (hi : i < leaves.length) :
    merkleProof H leaves i = some ⟨merkleRoot H leaves, (path H.combine leaves i).map Prod.snd,
      leaves.length, i, leaves[i]⟩ := by
  unfold merkleProof
  rw [List.getElem?_eq_getElem hi]
  dsimp only
  rw [merkelize_fst, merkelize_proofCollection _ _ _ hi, merkleRoot, merkelize_fst]

theorem verifyProof_path {leaves : List H256} {i : ℕ} (hi : i < leaves.length) :
    verifyProof H (merkleRoot H leaves) ((path H.combine leaves i).map Prod.snd) leaves.length i
      (.hash leaves[i]) = true := by
  rw [verifyProof, if_neg (by omega)]
  dsimp only
  rw [← climb_eq_foldl_of_comm (combine_comm H),
    ← merkleRoot_eq_climb H (List.getElem?_eq_getElem hi)]
  exact decide_eq_true rfl

/-- **`merkle_proof` is complete in both crates.** For every leaf, `merkle_proof` returns the root,
the number of leaves, the index and the leaf, and its proof verifies: in `binary-merkle-tree`
given as the leaf's value or as its hash, with the verifier's sides from `position` and `width`
agreeing with the tree at every shape of promotion; in Snowbridge's crate given as the leaf. -/
theorem merkleProof_verifies :
    (∀ (H : Binary.Hasher) (leaves : List (List UInt8)) (i : ℕ), i < leaves.length →
      ∃ mp, Binary.merkleProof H leaves i = some mp ∧ mp.root = Binary.merkleRoot H leaves ∧
        mp.numberOfLeaves = leaves.length ∧ mp.leafIndex = i ∧ leaves[i]? = some mp.leaf ∧
        Binary.verifyProof H mp.root mp.proof leaves.length i (.value mp.leaf) = true ∧
        Binary.verifyProof H mp.root mp.proof leaves.length i (.hash (H.hash mp.leaf)) = true) ∧
    (∀ (H : Hasher) (leaves : List H256) (i : ℕ), i < leaves.length →
      ∃ mp, merkleProof H leaves i = some mp ∧ mp.root = merkleRoot H leaves ∧
        mp.numberOfLeaves = leaves.length ∧ mp.leafIndex = i ∧ leaves[i]? = some mp.leaf ∧
        verifyProof H mp.root mp.proof leaves.length i (.hash mp.leaf) = true) := by
  refine ⟨fun H leaves i hi => Binary.merkleProof_complete H hi, fun H leaves i hi => ?_⟩
  exact ⟨_, merkleProof_eq H hi, rfl, rfl, rfl, List.getElem?_eq_getElem hi, verifyProof_path H hi⟩

/-- A hasher of `H256`s by the length of the input. -/
def lengthHasher : Hasher := ⟨fun s => List.Vector.replicate 32 s.length.toUInt8⟩

/-- The last of three leaves, promoted once, in both crates. -/
theorem merkleProof_verifies_last_of_three :
    (∃ mp, Binary.merkleProof Binary.byteHasher [[0], [1], [2]] 2 = some mp ∧
      Binary.verifyProof Binary.byteHasher mp.root mp.proof 3 2 (.value mp.leaf) = true) ∧
    (∃ mp, merkleProof lengthHasher [zero, zero, zero] 2 = some mp ∧
      verifyProof lengthHasher mp.root mp.proof 3 2 (.hash mp.leaf) = true) := by
  obtain ⟨hbin, hsnow⟩ := merkleProof_verifies
  obtain ⟨mp, hmp, -, -, -, -, hv, -⟩ := hbin Binary.byteHasher [[0], [1], [2]] 2 (by decide)
  obtain ⟨mp', hmp', -, -, -, -, hv'⟩ := hsnow lengthHasher [zero, zero, zero] 2 (by decide)
  exact ⟨⟨mp, hmp, hv⟩, ⟨mp', hmp', hv'⟩⟩

end PolkadotSdk.MerkleTree.Snowbridge
