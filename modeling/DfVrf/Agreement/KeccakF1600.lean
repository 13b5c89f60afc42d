import DfVrf.Contracts.KeccakF1600

/-!
# The two permutations agree in C and Solidity

Both compute Keccak-f[1600], so that `f1600` and `process_block` return the same lanes.

* `f1600_eq_processBlock`: for every state.
* `f1600Lanes_eq`: what is proved for every permutation relates the contract with the one to the C code with the other.
-/

namespace DfVrf

open Crypto Contracts

/-- `f1600` returns the lanes that `process_block` returns, in words below `2 ^ 64`. -/
theorem f1600_eq_processBlock (A : Lanes) (l : Fin 25) :
    f1600 (fun l => ofLane (A l)) l = ofLane (processBlock A l) ∧
      (f1600 (fun l => ofLane (A l)) l).toNat < 2 ^ 64 := by
  rw [f1600_ofLane, processBlock_eq]
  exact ⟨rfl, toNat_ofLane_lt _⟩

/-- The lane that a word holds. -/
def toLane (w : Word) : UInt64 := UInt64.ofBitVec (w.setWidth 64)

/-- `f1600` on lanes. -/
def f1600Lanes (A : Lanes) : Lanes := fun l => toLane (f1600 (fun l => ofLane (A l)) l)

private theorem toLane_ofLane (x : UInt64) : toLane (ofLane x) = x := by
  apply UInt64.toBitVec_inj.1
  apply BitVec.eq_of_getLsbD_eq
  intro i hi
  show ((ofLane x).setWidth 64).getLsbD i = _
  rw [BitVec.getLsbD_setWidth, getLsbD_ofLane x (by omega), decide_eq_true hi, Bool.true_and]

theorem f1600Lanes_eq : f1600Lanes = processBlock := by
  funext A l
  rw [f1600Lanes, f1600_ofLane, toLane_ofLane, processBlock_eq]

end DfVrf
