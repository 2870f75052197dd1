import Devnet.Ssz.Binding
import Mathlib.Order.Bounds.Basic

/-!
Merkleization against its definition: the complete binary tree over the chunks and the zero
chunks behind them, built from above, half by half. The source never builds that tree.
-/

set_option autoImplicit false

namespace Devnet.Ssz
open Devnet.Types HashTree

theorem two_pow_depthOf_isLeast (n : Nat) :
    IsLeast { width | max n 1 ≤ width ∧ ∃ k, width = 2^k } (2^depthOf n) := by
  refine ⟨⟨max_le (le_two_pow_depthOf n) Nat.one_le_two_pow,_,rfl⟩,?_⟩
  rintro _ ⟨hwide,k,rfl⟩
  refine Nat.pow_le_pow_right (by decide) ?_
  unfold depthOf
  split
  · exact Nat.zero_le k
  · have hlt : n-1 < 2^k := by omega
    exact (Nat.log2_lt (by omega)).mpr hlt

theorem depthOf_lt {n : Nat} (h : n ≤ 2^63) : depthOf n < 64 := by
  have hle := (two_pow_depthOf_isLeast n).2 ⟨max_le h (by decide),63,rfl⟩
  have := (Nat.pow_le_pow_iff_right (by decide)).mp hle
  omega

section
variable [HashPair]

def completeRoot : Nat → List Bytes32 → Bytes32
  | 0, leaves => leaves.headD ByteVector.zero
  | depth+1, leaves =>
    hashPair (completeRoot depth (leaves.take (2^depth))) (completeRoot depth (leaves.drop (2^depth)))

theorem root_perfect_leaves (depth : Nat) (leaves : List Bytes32) :
    (perfect depth (padded (leaves.map .leaf))).root hashPair = completeRoot depth leaves := by
  induction depth generalizing leaves with
  | zero => cases leaves <;> rfl
  | succ depth ih =>
    rw [perfect_halves,root,completeRoot,← ih,← ih]
    congr 2
    · refine perfect_congr fun i hi => ?_
      simp [padded,List.getElem?_take_of_lt hi]
    · refine perfect_congr fun i _ => ?_
      simp [padded]

theorem completeRoot_padded (depth : Nat) (leaves : List Bytes32) (zeros : Nat) :
    completeRoot depth (leaves ++ List.replicate zeros ByteVector.zero) =
      completeRoot depth leaves := by
  rw [← root_perfect_leaves,← root_perfect_leaves]
  refine congrArg _ (perfect_congr fun i _ => ?_)
  rw [padded,padded,List.map_append,List.getD_eq_getElem?_getD,List.getElem?_append]
  split
  · rw [List.getD_eq_getElem?_getD]
  · next hpast =>
    rw [List.getD_eq_getElem?_getD,List.getElem?_eq_none (Nat.le_of_not_lt hpast),
      List.map_replicate,List.getElem?_replicate]
    split <;> rfl

theorem merkleizeWithLimit_error {chunks : List Bytes32} {limit : Nat} {e : SszError} :
    merkleizeWithLimit chunks limit = .error e ↔
      chunks ≠ [] ∧ limit < chunks.length ∧ e = .inputExceedsLimit chunks.length limit := by
  rw [merkleizeWithLimit,← List.length_pos_iff]
  by_cases hempty : chunks.length = 0
  · simp [hempty]
  · by_cases hover : limit < chunks.length
    · simp [hempty,hover,Nat.pos_of_ne_zero hempty,eq_comm]
    · simp only [if_neg hempty,if_neg hover]
      split <;> simp [hover]

theorem merkleizeWithLimit_self (chunks : List Bytes32) :
    merkleizeWithLimit chunks chunks.length = .ok (merkleize chunks) := by
  rw [merkleizeWithLimit,merkleize]
  by_cases hempty : chunks = []
  · simp [hempty,powerOfTwoCeil,zeroTreeRoot]
  · simp [hempty]

theorem merkleize_full_tree (chunks : List Bytes32) (limit : Nat) :
    (chunks.length ≤ limit → limit ≤ 2^63 → ∃ depth,
        IsLeast { width | max limit 1 ≤ width ∧ ∃ k, width = 2^k } (2^depth) ∧
          merkleizeWithLimit chunks limit = .ok (completeRoot depth
            (chunks ++ List.replicate (2^depth - chunks.length) ByteVector.zero))) ∧
      (∀ e, merkleizeWithLimit chunks limit = .error e ↔
        chunks ≠ [] ∧ limit < chunks.length ∧ e = .inputExceedsLimit chunks.length limit) ∧
      merkleizeWithLimit chunks chunks.length = .ok (merkleize chunks) := by
  refine ⟨fun hfits hlimit => ⟨depthOf limit,two_pow_depthOf_isLeast limit,?_⟩,
    fun e => merkleizeWithLimit_error,merkleizeWithLimit_self chunks⟩
  have hleaves : (chunks.map HashTree.leaf).length ≤ limit := by simpa using hfits
  have hrun := merkleizeWithLimit_eq hleaves (depthOf_lt hlimit)
  rwa [map_root_leaf,root_perfect_leaves,← completeRoot_padded] at hrun

end

end Devnet.Ssz
