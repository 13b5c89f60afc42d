import DfVrf.Crypto.ProcessBlock
import DfVrf.Lib.Word

/-!
# The permutation in the contracts (`f1600` in `DFVRF_shake.sol`)

The assembly keeps a lane of 64 bits in a word of 256 bits.  Shifts to the left and complements reach the upper bits, so
that every rotation is masked and a complement is the exclusive or with the mask.

* `f1600_ofLane`: on words that hold lanes it computes Keccak-f[1600] on the lanes.
-/

namespace DfVrf.Contracts

open KeccakF Crypto

/-- The words of `state`; the word `i` is at the offset `32 * i`. -/
abbrev WordState := Fin 25 → Word

/-- `_keccakPi`. -/
def keccakPi : List (Fin 25) :=
  [10, 7, 11, 17, 18, 3, 5, 16, 8, 21, 24, 4, 15, 23, 19, 13, 12, 2, 20, 14, 22, 9, 6, 1]

/-- `_keccakRc`. -/
def keccakRc : List Word := [
  0x0000000000000001, 0x0000000000008082, 0x800000000000808a, 0x8000000080008000, 0x000000000000808b,
  0x0000000080000001, 0x8000000080008081, 0x8000000000008009, 0x000000000000008a, 0x0000000000000088,
  0x0000000080008009, 0x000000008000000a, 0x000000008000808b, 0x800000000000008b, 0x8000000000008089,
  0x8000000000008003, 0x8000000000008002, 0x8000000000000080, 0x000000000000800a, 0x800000008000000a,
  0x8000000080008081, 0x8000000000008080, 0x0000000080000001, 0x8000000080008008]

/-- `_keccakRho`. -/
def keccakRho : List ℕ :=
  [1, 3, 6, 10, 15, 21, 28, 36, 45, 55, 2, 14, 27, 41, 56, 8, 25, 43, 62, 18, 39, 61, 20, 44]

/-- `and(0xffffffffffffffff, xor(shl(s, x), shr(sub(64, s), x)))`. -/
def rotateWord (s : ℕ) (x : Word) : Word := 0xffffffffffffffff &&& ((x <<< s) ^^^ (x >>> (64 - s)))

/-- `and(xor(x, 0xffffffffffffffff), y)`. -/
def andNotWord (x y : Word) : Word := (x ^^^ 0xffffffffffffffff) &&& y

/-- `mstore(i, xor(mload(i), d))` for the given words. -/
def xorWords (is : List (Fin 25)) (d : Word) (state : WordState) : WordState :=
  is.foldl (fun state i => Function.update state i (state i ^^^ d)) state

/-- The first step of theta, which computes `bc`. -/
def thetaParity (state : WordState) (x : Fin 5) : Word :=
  let temp := state (lane x 0)
  let temp := temp ^^^ state (lane x 1)
  let temp := temp ^^^ state (lane x 2)
  let temp := temp ^^^ state (lane x 3)
  temp ^^^ state (lane x 4)

/-- Theta. -/
def thetaStep (state : WordState) : WordState :=
  let bc := thetaParity state
  let state := xorWords [0, 5, 10, 15, 20] (bc 4 ^^^ rotateWord 1 (bc 1)) state
  let state := xorWords [1, 6, 11, 16, 21] (bc 0 ^^^ rotateWord 1 (bc 2)) state
  let state := xorWords [2, 7, 12, 17, 22] (bc 1 ^^^ rotateWord 1 (bc 3)) state
  let state := xorWords [3, 8, 13, 18, 23] (bc 2 ^^^ rotateWord 1 (bc 4)) state
  xorWords [4, 9, 14, 19, 24] (bc 3 ^^^ rotateWord 1 (bc 0)) state

/-- Rho and pi along the cycle of all lanes but the first; `t` holds the lane that moves next and `bc0` the one
that it replaces. -/
def rhoPiStep (state : WordState) : WordState :=
  let t := state 1
  ((keccakPi.zip keccakRho).foldl (fun (state, t) (kpix, rho) =>
    let bc0 := state kpix
    (Function.update state kpix (rotateWord rho t), bc0)) (state, t)).1

/-- Chi on the row whose words are at `i`. -/
def chiRow (i : Fin 5 → Fin 25) (state : WordState) : WordState :=
  let c := fun x => state (i x)
  let state := Function.update state (i 0) (c 0 ^^^ andNotWord (c 1) (c 2))
  let state := Function.update state (i 1) (c 1 ^^^ andNotWord (c 2) (c 3))
  let state := Function.update state (i 2) (c 2 ^^^ andNotWord (c 3) (c 4))
  let state := Function.update state (i 3) (c 3 ^^^ andNotWord (c 4) (c 0))
  Function.update state (i 4) (c 4 ^^^ andNotWord (c 0) (c 1))

/-- Chi on the first row, with the round constant. -/
def chiFirstRow (rc : Word) (state : WordState) : WordState :=
  let c0 := state 0
  let c1 := state 1
  let c2 := state 2
  let c3 := state 3
  let c4 := state 4
  let state := Function.update state 0 (((c0 ^^^ andNotWord c1 c2) ^^^ rc) &&& 0xffffffffffffffff)
  let state := Function.update state 1 (c1 ^^^ andNotWord c2 c3)
  let state := Function.update state 2 (c2 ^^^ andNotWord c3 c4)
  let state := Function.update state 3 (c3 ^^^ andNotWord c4 c0)
  Function.update state 4 (c4 ^^^ andNotWord c0 c1)

/-- Chi and the round constant. -/
def chiStep (rc : Word) (state : WordState) : WordState :=
  let state := chiFirstRow rc state
  let state := chiRow ![5, 6, 7, 8, 9] state
  let state := chiRow ![10, 11, 12, 13, 14] state
  let state := chiRow ![15, 16, 17, 18, 19] state
  chiRow ![20, 21, 22, 23, 24] state

def f1600 (state : WordState) : WordState :=
  (List.range 24).foldl (fun state i => chiStep (keccakRc.getD i 0) (rhoPiStep (thetaStep state))) state

/-! ### The operations on words -/

/-- The operations of the assembly. -/
def wordOps : LaneOps Word where
  xor x y := x ^^^ y
  rotl := rotateWord
  andNot := andNotWord

/-- The word that holds a lane. -/
def ofLane (x : UInt64) : Word := x.toBitVec.setWidth 256

private theorem getLsbD_mask (i : ℕ) : (0xffffffffffffffff : Word).getLsbD i = decide (i < 64) := by
  have hmask : (0xffffffffffffffff : Word) = (BitVec.allOnes 64).setWidth 256 := by decide
  rw [hmask, BitVec.getLsbD_setWidth, BitVec.getLsbD_allOnes]
  by_cases hi : i < 64
  · simp [hi, show i < 256 by omega]
  · simp [hi]

theorem getLsbD_ofLane (x : UInt64) {i : ℕ} (hi : i < 256) : (ofLane x).getLsbD i = x.toBitVec.getLsbD i := by
  rw [ofLane, BitVec.getLsbD_setWidth, decide_eq_true hi, Bool.true_and]

/-- The mask leaves a word that holds a lane as it is. -/
private theorem ofLane_and_mask (x : UInt64) : ofLane x &&& 0xffffffffffffffff = ofLane x := by
  apply BitVec.eq_of_getLsbD_eq
  intro i hi
  rw [BitVec.getLsbD_and, getLsbD_mask, getLsbD_ofLane x hi]
  by_cases h : i < 64
  · simp [h]
  · simp [BitVec.getLsbD_of_ge _ _ (not_lt.1 h)]

theorem toNat_ofLane_lt (x : UInt64) : (ofLane x).toNat < 2 ^ 64 := by
  rw [ofLane, BitVec.toNat_setWidth_of_le (by omega)]
  exact x.toBitVec.isLt

/-- A masked rotation of a word that holds a lane rotates the lane. -/
private theorem ofLane_rotate {k : ℕ} (hk : k < 64) (x : UInt64) : ofLane (rotate k x) = rotateWord k (ofLane x) := by
  apply BitVec.eq_of_getLsbD_eq
  intro i hi
  rw [getLsbD_ofLane _ hi, rotateWord, BitVec.getLsbD_and, getLsbD_mask, BitVec.getLsbD_xor, BitVec.getLsbD_shiftLeft,
    BitVec.getLsbD_ushiftRight]
  by_cases h : i < 64
  · rw [getLsbD_rotate hk x h, getLsbD_ofLane x (by omega), getLsbD_ofLane x (by omega)]
    by_cases hik : i < k
    · simp [h, hi, hik, show 64 - k + i = i + 64 - k by omega]
    · simp [h, hi, hik, BitVec.getLsbD_of_ge x.toBitVec (64 - k + i) (by omega)]
  · simp [h, BitVec.getLsbD_of_ge _ i (not_lt.1 h)]

/-- The masked complement of a word that holds a lane complements the lane. -/
private theorem ofLane_andNot (x y : UInt64) : ofLane (~~~x &&& y) = andNotWord (ofLane x) (ofLane y) := by
  apply BitVec.eq_of_getLsbD_eq
  intro i hi
  rw [getLsbD_ofLane _ hi, andNotWord, BitVec.getLsbD_and, BitVec.getLsbD_xor, getLsbD_mask, getLsbD_ofLane x hi,
    getLsbD_ofLane y hi, UInt64.toBitVec_and, UInt64.toBitVec_not, BitVec.getLsbD_and, BitVec.getLsbD_not]
  by_cases h : i < 64
  · simp [h]
  · simp [BitVec.getLsbD_of_ge y.toBitVec i (not_lt.1 h)]

/-- Lanes in words. -/
private theorem hom_ofLane : lane64.Hom wordOps ofLane where
  xor _ _ := BitVec.setWidth_xor
  rotl _ hk x := ofLane_rotate hk x
  andNot := ofLane_andNot

/-! ### The steps of a round -/

private theorem thetaStep_eq (state : WordState) : thetaStep state = theta wordOps state := by
  funext l
  fin_cases l <;> rfl

private theorem rhoPiStep_eq (state : WordState) (l : Fin 25) :
    rhoPiStep state l = if l = 0 then state 0 else rhoPi wordOps state l := by
  fin_cases l <;> rfl

private theorem chiStep_eq (rc : Word) (state : WordState) (l : Fin 25) :
    chiStep rc state l =
      if l = 0 then iota wordOps rc (chi wordOps state) 0 &&& 0xffffffffffffffff else chi wordOps state l := by
  fin_cases l <;> rfl

/-- A round on words that hold lanes. -/
private theorem round_ofLane (rc : UInt64) (A : Lanes) :
    chiStep (ofLane rc) (rhoPiStep (thetaStep fun l => ofLane (A l))) =
      fun l => ofLane (KeccakF.round lane64 rc A l) := by
  have htheta : thetaStep (fun l => ofLane (A l)) = fun l => ofLane (theta lane64 A l) := by
    rw [thetaStep_eq]
    exact funext (theta_map hom_ofLane A)
  have hrhoPi : rhoPiStep (fun l => ofLane (theta lane64 A l)) =
      fun l => ofLane (rhoPi lane64 (theta lane64 A) l) := by
    funext l
    rw [rhoPiStep_eq]
    split
    -- the first lane is not rotated
    · next h =>
      rw [h]
      exact congrArg ofLane (rotate_zero (theta lane64 A 0)).symm
    · exact rhoPi_map hom_ofLane _ l
  have hchi := funext (chi_map hom_ofLane (rhoPi lane64 (theta lane64 A)))
  rw [htheta, hrhoPi]
  funext l
  rw [chiStep_eq, hchi, iota_map hom_ofLane, ofLane_and_mask, KeccakF.round]
  split
  · next h => rw [h]
  · next h => rw [iota, if_neg h]

/-! ### The loop -/

private theorem keccakRc_eq {n : ℕ} (hn : n < 24) : keccakRc.getD n 0 = ofLane (RC.getD n 0) := by
  have h : ∀ m : Fin 24, keccakRc.getD m 0 = ofLane (RC.getD m 0) := by decide
  exact h ⟨n, hn⟩

theorem f1600_ofLane (A : Lanes) : f1600 (fun l => ofLane (A l)) = fun l => ofLane (rounds lane64 RC A l) := by
  have hlen : RC.length = 24 := rfl
  have hloop : ∀ n ≤ 24, (List.range n).foldl (fun state i => chiStep (keccakRc.getD i 0) (rhoPiStep (thetaStep state)))
      (fun l => ofLane (A l)) = fun l => ofLane (rounds lane64 (RC.take n) A l) := by
    intro n hn
    induction n with
    | zero => rfl
    | succ n ih =>
      rw [List.range_succ, List.foldl_append, ih (by omega), List.foldl_cons, List.foldl_nil,
        keccakRc_eq (by omega), round_ofLane, rounds_take_succ lane64 RC 0 (by omega)]
  exact hloop 24 (le_refl 24)

end DfVrf.Contracts
