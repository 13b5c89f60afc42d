import DfVrf.Crypto.Shake
import DfVrf.Lib.KeccakF
import Mathlib.Data.Fintype.Basic
import Mathlib.Tactic.FinCases

/-!
# The permutation in the C code (`shake.c`)

`process_block` keeps six lanes complemented, which saves complements in the nonlinear step, and computes two rounds in
an iteration: the lanes that the first one moves stay where they are, the second one finds them there, and only behind
it they are brought back in order.

* `processBlock_eq`: it computes Keccak-f[1600].
-/

namespace DfVrf.Crypto

open KeccakF

/-- `RC`. -/
def RC : List UInt64 := [
  0x0000000000000001, 0x0000000000008082, 0x800000000000808A, 0x8000000080008000, 0x000000000000808B,
  0x0000000080000001, 0x8000000080008081, 0x8000000000008009, 0x000000000000008A, 0x0000000000000088,
  0x0000000080008009, 0x000000008000000A, 0x000000008000808B, 0x800000000000008B, 0x8000000000008089,
  0x8000000000008003, 0x8000000000008002, 0x8000000000000080, 0x000000000000800A, 0x800000008000000A,
  0x8000000080008081, 0x8000000000008080, 0x0000000080000001, 0x8000000080008008]

/-- `(x << k) | (x >> (64 - k))`. -/
def rotate (k : ℕ) (x : UInt64) : UInt64 := (x <<< UInt64.ofNat k) ||| (x >>> UInt64.ofNat (64 - k))

/-- The inversion of some words, at the beginning and at the end. -/
def invertWords (A : Lanes) : Lanes :=
  [1, 2, 8, 12, 17, 20].foldl (fun A i => Function.update A i (~~~A i)) A

/-- The computation of one of `t0, …, t4` from the lanes of two columns. -/
def thetaTerm (A : Lanes) (a0 a1 a2 a3 a4 b0 b1 b2 b3 b4 : Fin 25) : UInt64 :=
  let tt0 := A a0 ^^^ A a1
  let tt1 := A a2 ^^^ A a3
  let tt0 := tt0 ^^^ (A a4 ^^^ tt1)
  let tt0 := (tt0 <<< 1) ||| (tt0 >>> 63)
  let tt2 := A b0 ^^^ A b1
  let tt3 := A b2 ^^^ A b3
  let tt0 := tt0 ^^^ A b4
  let tt2 := tt2 ^^^ tt3
  tt0 ^^^ tt2

/-- `A[i] = A[i] ^ t` for the given lanes. -/
def xorLanes (is : List (Fin 25)) (t : UInt64) (A : Lanes) : Lanes :=
  is.foldl (fun A i => Function.update A i (A i ^^^ t)) A

/-- The rotations of lanes in place. -/
def rotateLanes (ks : List (Fin 25 × ℕ)) (A : Lanes) : Lanes :=
  ks.foldl (fun A k => Function.update A k.1 (rotate k.2 (A k.1))) A

/-- The values `c0, …, c4` that the five blocks of the nonlinear step compute from their lanes. -/
def khi : Fin 5 → (Fin 5 → UInt64) → Fin 5 → UInt64
  | 0, a =>
    let bnn := ~~~a 2
    ![a 0 ^^^ (a 1 ||| a 2), a 1 ^^^ (bnn ||| a 3), a 2 ^^^ (a 3 &&& a 4), a 3 ^^^ (a 4 ||| a 0), a 4 ^^^ (a 0 &&& a 1)]
  | 1, a =>
    let bnn := ~~~a 4
    ![a 0 ^^^ (a 1 ||| a 2), a 1 ^^^ (a 2 &&& a 3), a 2 ^^^ (a 3 ||| bnn), a 3 ^^^ (a 4 ||| a 0), a 4 ^^^ (a 0 &&& a 1)]
  | 2, a =>
    let bnn := ~~~a 3
    ![a 0 ^^^ (a 1 ||| a 2), a 1 ^^^ (a 2 &&& a 3), a 2 ^^^ (bnn &&& a 4), bnn ^^^ (a 4 ||| a 0), a 4 ^^^ (a 0 &&& a 1)]
  | 3, a =>
    let bnn := ~~~a 3
    ![a 0 ^^^ (a 1 &&& a 2), a 1 ^^^ (a 2 ||| a 3), a 2 ^^^ (bnn ||| a 4), bnn ^^^ (a 4 &&& a 0), a 4 ^^^ (a 0 ||| a 1)]
  | 4, a =>
    let bnn := ~~~a 1
    ![a 0 ^^^ (bnn &&& a 2), bnn ^^^ (a 2 ||| a 3), a 2 ^^^ (a 3 &&& a 4), a 3 ^^^ (a 4 ||| a 0), a 4 ^^^ (a 0 &&& a 1)]

/-- A block of the nonlinear step on the lanes at `i`. -/
def khiLanes (y : Fin 5) (i : Fin 5 → Fin 25) (A : Lanes) : Lanes :=
  let c := khi y fun x => A (i x)
  [0, 1, 2, 3, 4].foldl (fun A x => Function.update A (i x) (c x)) A

/-- The linear step in place; `p` tells where the lanes are. -/
def thetaLanes (p : Fin 25 → Fin 25) (A : Lanes) : Lanes :=
  let t0 := thetaTerm A (p 1) (p 6) (p 11) (p 16) (p 21) (p 4) (p 9) (p 14) (p 19) (p 24)
  let t1 := thetaTerm A (p 2) (p 7) (p 12) (p 17) (p 22) (p 0) (p 5) (p 10) (p 15) (p 20)
  let t2 := thetaTerm A (p 3) (p 8) (p 13) (p 18) (p 23) (p 1) (p 6) (p 11) (p 16) (p 21)
  let t3 := thetaTerm A (p 4) (p 9) (p 14) (p 19) (p 24) (p 2) (p 7) (p 12) (p 17) (p 22)
  let t4 := thetaTerm A (p 0) (p 5) (p 10) (p 15) (p 20) (p 3) (p 8) (p 13) (p 18) (p 23)
  let A := xorLanes [p 0, p 5, p 10, p 15, p 20] t0 A
  let A := xorLanes [p 1, p 6, p 11, p 16, p 21] t1 A
  let A := xorLanes [p 2, p 7, p 12, p 17, p 22] t2 A
  let A := xorLanes [p 3, p 8, p 13, p 18, p 23] t3 A
  xorLanes [p 4, p 9, p 14, p 19, p 24] t4 A

/-- The rotations of a round. -/
def rotations (p : Fin 25 → Fin 25) : List (Fin 25 × ℕ) :=
  [(p 5, 36), (p 10, 3), (p 15, 41), (p 20, 18), (p 1, 1), (p 6, 44), (p 11, 10), (p 16, 45), (p 21, 2), (p 2, 62),
    (p 7, 6), (p 12, 43), (p 17, 15), (p 22, 61), (p 3, 28), (p 8, 55), (p 13, 25), (p 18, 21), (p 23, 56), (p 4, 27),
    (p 9, 20), (p 14, 39), (p 19, 8), (p 24, 14)]

/-- One round.  In the first round of an iteration every lane is in its place. -/
def processRound (p : Fin 25 → Fin 25) (rc : UInt64) (A : Lanes) : Lanes :=
  let A := thetaLanes p A
  let A := rotateLanes (rotations p) A
  let A := khiLanes 0 ![p 0, p 6, p 12, p 18, p 24] A
  let A := khiLanes 1 ![p 3, p 9, p 10, p 16, p 22] A
  let A := khiLanes 2 ![p 1, p 7, p 13, p 19, p 20] A
  let A := khiLanes 3 ![p 4, p 5, p 11, p 17, p 23] A
  let A := khiLanes 4 ![p 2, p 8, p 14, p 15, p 21] A
  Function.update A (p 0) (A (p 0) ^^^ rc)

/-- Where the lanes are behind the first round. -/
def moved : Fin 25 → Fin 25 :=
  ![0, 6, 12, 18, 24, 3, 9, 10, 16, 22, 1, 7, 13, 19, 20, 4, 5, 11, 17, 23, 2, 8, 14, 15, 21]

/-- The exchange of lanes at the end of an iteration. -/
def exchangeLanes (A : Lanes) : Lanes :=
  let t := A 5
  let A := [(5, 18), (18, 11), (11, 10), (10, 6), (6, 22), (22, 20), (20, 12), (12, 19), (19, 15), (15, 24),
    (24, 8)].foldl (fun A k => Function.update A k.1 (A k.2)) A
  let A := Function.update A 8 t
  let t := A 1
  let A := [(1, 9), (9, 14), (14, 2), (2, 13), (13, 23), (23, 4), (4, 21), (21, 16), (16, 3), (3, 17),
    (17, 7)].foldl (fun A k => Function.update A k.1 (A k.2)) A
  Function.update A 7 t

/-- `process_block`; `j` advances by two. -/
def processBlock (A : Lanes) : Lanes :=
  let A := invertWords A
  let A := (List.range 12).foldl (fun A i =>
    let j := 2 * i
    let A := processRound id (RC.getD j 0) A
    let A := processRound moved (RC.getD (j + 1) 0) A
    exchangeLanes A) A
  invertWords A

/-! ### The operations on lanes -/

/-- The operations of the C code. -/
def lane64 : LaneOps UInt64 where
  xor x y := x ^^^ y
  rotl := rotate
  andNot x y := ~~~x &&& y

/-- The bits of a rotation. -/
theorem getLsbD_rotate {k : ℕ} (hk : k < 64) (x : UInt64) {i : ℕ} (hi : i < 64) :
    (rotate k x).toBitVec.getLsbD i = x.toBitVec.getLsbD (if i < k then i + 64 - k else i - k) := by
  have hl : (UInt64.ofNat k).toBitVec.toNat % 64 = k := by
    rw [UInt64.toNat_toBitVec, UInt64.toNat_ofNat']
    omega
  have hr : (UInt64.ofNat (64 - k)).toBitVec.toNat % 64 = (64 - k) % 64 := by
    rw [UInt64.toNat_toBitVec, UInt64.toNat_ofNat']
    omega
  have h64 : (64 : BitVec 64).toNat = 64 := rfl
  rw [rotate, UInt64.toBitVec_or, UInt64.toBitVec_shiftLeft, UInt64.toBitVec_shiftRight, BitVec.getLsbD_or,
    BitVec.shiftLeft_eq', BitVec.ushiftRight_eq', BitVec.getLsbD_shiftLeft, BitVec.getLsbD_ushiftRight,
    BitVec.toNat_umod, BitVec.toNat_umod, h64, hl, hr]
  by_cases hik : i < k
  · rw [if_pos hik, show (64 - k) % 64 + i = i + 64 - k by omega]
    simp [hik]
  · rw [if_neg hik]
    obtain rfl | h0 := Nat.eq_zero_or_pos k
    · simp [hi]
    · rw [BitVec.getLsbD_of_ge _ ((64 - k) % 64 + i) (by omega)]
      simp [hi, hik]

private theorem rotate_xor {k : ℕ} (hk : k < 64) (x y : UInt64) : rotate k (x ^^^ y) = rotate k x ^^^ rotate k y := by
  apply UInt64.toBitVec_inj.1
  apply BitVec.eq_of_getLsbD_eq
  intro i hi
  rw [UInt64.toBitVec_xor, BitVec.getLsbD_xor, getLsbD_rotate hk _ hi, getLsbD_rotate hk _ hi, getLsbD_rotate hk _ hi,
    UInt64.toBitVec_xor, BitVec.getLsbD_xor]

theorem rotate_zero (x : UInt64) : rotate 0 x = x := by
  apply UInt64.toBitVec_inj.1
  apply BitVec.eq_of_getLsbD_eq
  intro i hi
  rw [getLsbD_rotate (by omega) x hi, if_neg (by omega), Nat.sub_zero]

private theorem linear_lane64 : lane64.Linear where
  assoc := UInt64.xor_assoc
  comm := UInt64.xor_comm
  rotl_xor _ hk := rotate_xor hk

/-! ### A round on lanes in their order -/

private theorem thetaTerm_eq (A : Lanes) (a0 a1 a2 a3 a4 b0 b1 b2 b3 b4 : Fin 25) :
    thetaTerm A a0 a1 a2 a3 a4 b0 b1 b2 b3 b4 = (A b0 ^^^ A b1 ^^^ A b2 ^^^ A b3 ^^^ A b4) ^^^
      rotate 1 (A a0 ^^^ A a1 ^^^ A a2 ^^^ A a3 ^^^ A a4) := by
  have hrotate : ∀ x : UInt64, (x <<< 1) ||| (x >>> 63) = rotate 1 x := fun x => rfl
  have hcol : A a0 ^^^ A a1 ^^^ (A a4 ^^^ (A a2 ^^^ A a3)) = A a0 ^^^ A a1 ^^^ A a2 ^^^ A a3 ^^^ A a4 := by
    ac_rfl
  simp only [thetaTerm, hrotate, hcol]
  ac_rfl

private theorem thetaLanes_id (A : Lanes) : thetaLanes id A = theta lane64 A := by
  funext l
  simp only [thetaLanes, thetaTerm_eq]
  fin_cases l <;> rfl

private theorem rotateLanes_id (A : Lanes) : rotateLanes (rotations id) A = fun l => rotate (rho l) (A l) := by
  funext l
  fin_cases l
  · exact (rotate_zero (A 0)).symm
  all_goals rfl

/-- The nonlinear step of the C code, on lanes in their order. -/
def khiAll (B : Lanes) (l : Fin 25) : UInt64 := khi (row l) (fun x => B (lane x (row l))) (col l)

/-- A round leaves the lanes where they are before they are moved. -/
private theorem processRound_id (rc : UInt64) (A : Lanes) (l : Fin 25) :
    processRound id rc A (moved l) = iota lane64 rc (khiAll (rhoPi lane64 (theta lane64 A))) l := by
  simp only [processRound, thetaLanes_id, rotateLanes_id]
  generalize theta lane64 A = T
  fin_cases l <;> rfl

/-! ### A round on lanes that have been moved -/

/-- Updates at moved lanes are updates of the lanes in their order. -/
private theorem foldl_update_comp {p : Fin 25 → Fin 25} (hp : p.Injective) {β : Type} (g : β → Fin 25)
    (f f' : Lanes → β → UInt64) (hf : ∀ A k, f A k = f' (A ∘ p) k) (ks : List β) (A : Lanes) :
    ks.foldl (fun A k => Function.update A (p (g k)) (f A k)) A ∘ p =
      ks.foldl (fun A k => Function.update A (g k) (f' A k)) (A ∘ p) := by
  induction ks generalizing A with
  | nil => rfl
  | cons k ks ih => rw [List.foldl_cons, List.foldl_cons, ih, Function.update_comp_eq_of_injective A hp, hf]

private theorem xorLanes_comp {p : Fin 25 → Fin 25} (hp : p.Injective) (a b c d e : Fin 25) (t : UInt64) (A : Lanes) :
    xorLanes [p a, p b, p c, p d, p e] t A ∘ p = xorLanes [a, b, c, d, e] t (A ∘ p) := by
  have h := foldl_update_comp hp id (fun A i => A (p i) ^^^ t) (fun A i => A i ^^^ t) (fun _ _ => rfl)
    [a, b, c, d, e] A
  exact h

private theorem rotateLanes_comp {p : Fin 25 → Fin 25} (hp : p.Injective) (A : Lanes) :
    rotateLanes (rotations p) A ∘ p = rotateLanes (rotations id) (A ∘ p) := by
  have hmap : rotations p = (rotations id).map fun k => (p k.1, k.2) := rfl
  rw [hmap, rotateLanes, List.foldl_map]
  exact foldl_update_comp hp Prod.fst (fun A k => rotate k.2 (A (p k.1))) (fun A k => rotate k.2 (A k.1))
    (fun _ _ => rfl) (rotations id) A

private theorem khiLanes_comp {p : Fin 25 → Fin 25} (hp : p.Injective) (y : Fin 5) (a b c d e : Fin 25) (A : Lanes) :
    khiLanes y ![p a, p b, p c, p d, p e] A ∘ p = khiLanes y ![a, b, c, d, e] (A ∘ p) := by
  have hi : ![p a, p b, p c, p d, p e] = fun x => p (![a, b, c, d, e] x) := by
    funext x
    fin_cases x <;> rfl
  rw [hi]
  exact foldl_update_comp hp ![a, b, c, d, e] (fun _ => khi y fun x => A (p (![a, b, c, d, e] x)))
    (fun _ => khi y fun x => A (p (![a, b, c, d, e] x))) (fun _ _ => rfl) [0, 1, 2, 3, 4] A

private theorem thetaLanes_comp {p : Fin 25 → Fin 25} (hp : p.Injective) (A : Lanes) :
    thetaLanes p A ∘ p = thetaLanes id (A ∘ p) := by
  simp only [thetaLanes, xorLanes_comp hp]
  rfl

private theorem processRound_comp {p : Fin 25 → Fin 25} (hp : p.Injective) (rc : UInt64) (A : Lanes) :
    processRound p rc A ∘ p = processRound id rc (A ∘ p) := by
  have hiota : ∀ B : Lanes, Function.update B (p 0) (B (p 0) ^^^ rc) ∘ p =
      Function.update (B ∘ p) 0 ((B ∘ p) 0 ^^^ rc) := fun B => Function.update_comp_eq_of_injective B hp 0 _
  simp only [processRound, hiota, khiLanes_comp hp, rotateLanes_comp hp, thetaLanes_comp hp]
  rfl

/-! ### The inverted lanes -/

/-- The words that are kept inverted. -/
def inverted (l : Fin 25) : UInt64 := if l ∈ [1, 2, 8, 12, 17, 20] then 0xFFFFFFFFFFFFFFFF else 0

/-- The words that are inverted before the nonlinear step. -/
def invertedRows (l : Fin 25) : UInt64 :=
  if l ∈ [0, 2, 3, 5, 7, 10, 12, 16, 18, 19, 20, 23] then 0xFFFFFFFFFFFFFFFF else 0

theorem xor_allOnes (x : UInt64) : x ^^^ 0xFFFFFFFFFFFFFFFF = ~~~x := by
  apply UInt64.toBitVec_inj.1
  rw [UInt64.toBitVec_xor, UInt64.toBitVec_not]
  exact BitVec.xor_allOnes

private theorem or_compl (b c : UInt64) : b ||| ~~~c = ~~~(~~~b &&& c) := by
  apply UInt64.toBitVec_inj.1
  ext i hi
  simp

private theorem khi_compl (B : Lanes) (l : Fin 25) :
    khiAll (fun l => B l ^^^ invertedRows l) l = chi lane64 B l ^^^ inverted l := by
  fin_cases l <;>
    simp +decide [khiAll, khi, row, col, lane, invertedRows, inverted, chi, lane64, xor_allOnes, or_compl,
      UInt64.not_xor, UInt64.xor_not]

private theorem rhoPi_theta_inverted : rhoPi lane64 (theta lane64 inverted) = invertedRows := by
  decide +kernel

private theorem invertWords_eq (A : Lanes) : invertWords A = fun l => A l ^^^ inverted l := by
  funext l
  fin_cases l
  all_goals first | exact (xor_allOnes _).symm | exact UInt64.xor_zero.symm

private theorem exchangeLanes_eq (A : Lanes) : exchangeLanes A = fun l => A (moved (moved l)) := by
  funext l
  fin_cases l <;> rfl

/-! ### The loop -/

/-- One round on the lanes that are kept inverted. -/
def invertedRound (rc : UInt64) (A : Lanes) : Lanes := iota lane64 rc (khiAll (rhoPi lane64 (theta lane64 A)))

private theorem exchangeLanes_processRounds (rc rc' : UInt64) (A : Lanes) :
    exchangeLanes (processRound moved rc' (processRound id rc A)) = invertedRound rc' (invertedRound rc A) := by
  have hround : ∀ rc A, processRound id rc A ∘ moved = invertedRound rc A := fun rc A => funext (processRound_id rc A)
  have hinj : moved.Injective := by decide
  calc exchangeLanes (processRound moved rc' (processRound id rc A))
      = (processRound moved rc' (processRound id rc A) ∘ moved) ∘ moved := exchangeLanes_eq _
    _ = processRound id rc' (processRound id rc A ∘ moved) ∘ moved := by rw [processRound_comp hinj]
    _ = invertedRound rc' (invertedRound rc A) := by rw [hround, hround]

private theorem invertedRound_inverted (rc : UInt64) (A : Lanes) :
    invertedRound rc (fun l => A l ^^^ inverted l) = fun l => KeccakF.round lane64 rc A l ^^^ inverted l := by
  have hlinear : rhoPi lane64 (theta lane64 fun l => A l ^^^ inverted l) =
      fun l => rhoPi lane64 (theta lane64 A) l ^^^ invertedRows l := by
    rw [← rhoPi_theta_inverted]
    exact (congrArg _ (theta_xor linear_lane64 A inverted)).trans (rhoPi_xor linear_lane64 _ _)
  have hcomm : ∀ a b c : UInt64, a ^^^ b ^^^ c = a ^^^ c ^^^ b := by
    intro a b c
    ac_rfl
  funext l
  rw [invertedRound, hlinear, iota, khi_compl, KeccakF.round, iota]
  split
  · exact hcomm _ _ _
  · rfl

private theorem foldl_processRounds {n : ℕ} (hn : n ≤ 12) (A : Lanes) :
    (List.range n).foldl (fun A i => exchangeLanes (processRound moved (RC.getD (2 * i + 1) 0)
      (processRound id (RC.getD (2 * i) 0) A))) (fun l => A l ^^^ inverted l) =
      fun l => rounds lane64 (RC.take (2 * n)) A l ^^^ inverted l := by
  induction n with
  | zero => rfl
  | succ n ih =>
    have hlen : RC.length = 24 := rfl
    rw [List.range_succ, List.foldl_append, ih (by omega), List.foldl_cons, List.foldl_nil, exchangeLanes_processRounds,
      invertedRound_inverted, invertedRound_inverted, show 2 * (n + 1) = 2 * n + 1 + 1 by omega,
      rounds_take_succ lane64 RC 0 (by omega), rounds_take_succ lane64 RC 0 (by omega)]

theorem processBlock_eq (A : Lanes) : processBlock A = rounds lane64 RC A := by
  have hfold := foldl_processRounds (le_refl 12) A
  rw [processBlock, invertWords_eq A]
  refine (congrArg invertWords hfold).trans ?_
  rw [invertWords_eq]
  funext l
  rw [UInt64.xor_assoc, UInt64.xor_self, UInt64.xor_zero]
  rfl

end DfVrf.Crypto
