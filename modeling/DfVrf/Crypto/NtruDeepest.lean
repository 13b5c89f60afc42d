import DfVrf.Crypto.Mq
import DfVrf.Lib.Limbs

/-!
# The NTRU equation at the deepest level (`keygen.c`)

At the deepest level `f` and `g` are integers, the resultants `x` and `y` that `make_fg` and `zint_rebuild_CRT` have left
in the temporary area, in limbs of 31 bits.  The binary algorithm for the Bézout cofactors needs odd operands, so that an
even resultant is replaced by the sum of both, and the cofactors are corrected.

* `solveNtruDeepest_spec`: what is returned solves `x * G - y * F = 12289`; for positive resultants no subtraction
  borrows.
-/

namespace DfVrf.Crypto

open Limbs

/-! ### Arithmetic on limbs -/

/-- `LIMB_MASK`. -/
def limbMask : UInt32 := 0x7FFFFFFF

/-- One iteration of `z31_add`. -/
def z31AddStep (x y cc : UInt32) : UInt32 × UInt32 :=
  let w : UInt64 := (x &&& limbMask).toUInt64 + (y &&& limbMask).toUInt64 + cc.toUInt64
  ((w &&& limbMask.toUInt64).toUInt32, (w >>> 31).toUInt32)

/-- `z31_add`, on the arrays of `len` limbs at `d`, `a` and `b`; the carry is returned. -/
def z31Add (mem : ℕ → UInt32) (d a b len : ℕ) : (ℕ → UInt32) × UInt32 := carryLoop z31AddStep d a b len mem 0

/-- One iteration of `z31_sub`. -/
def z31SubStep (x y cc : UInt32) : UInt32 × UInt32 :=
  let aw := x &&& limbMask
  let bw := y &&& limbMask
  let w := aw - bw - cc
  (w &&& limbMask, if aw < bw + cc then 1 else 0)

/-- `z31_sub`; the borrow is returned. -/
def z31Sub (mem : ℕ → UInt32) (d a b len : ℕ) : (ℕ → UInt32) × UInt32 := carryLoop z31SubStep d a b len mem 0

/-- One iteration of `zint_mul_small`, on one array. -/
def zintMulSmallStep (x m _m cc : UInt32) : UInt32 × UInt32 :=
  let z : UInt64 := m.toUInt64 * x.toUInt64 + cc.toUInt64
  (z.toUInt32 &&& 0x7FFFFFFF, (z >>> 31).toUInt32)

/-- `zint_mul_small`; the carry is returned. -/
def zintMulSmall (mem : ℕ → UInt32) (m mlen : ℕ) (x : UInt32) : (ℕ → UInt32) × UInt32 :=
  carryLoop (zintMulSmallStep x) m m m mlen mem 0

/-- The loops that copy `len` limbs. -/
def copyLimbs (mem : ℕ → UInt32) (d a len : ℕ) : ℕ → UInt32 :=
  (carryLoop (fun x _ (_ : Unit) => (x, ())) d a a len mem ()).1

/-- The limbs have 31 bits. -/
def IsLimbs (mem : ℕ → UInt32) (a len : ℕ) : Prop := ∀ i < len, (mem (a + i)).toNat < 2 ^ 31

/-- The number in `len` limbs of 31 bits. -/
def limbValue (mem : ℕ → UInt32) (a len : ℕ) : ℕ := Limbs.value (2 ^ 31) UInt32.toNat mem a len

theorem toNat_and_limbMask (x : UInt32) : (x &&& limbMask).toNat = x.toNat % 2 ^ 31 := by
  rw [UInt32.toNat_and, show limbMask.toNat = 2 ^ 31 - 1 from rfl, Nat.and_two_pow_sub_one_eq_mod]

/-- The low 31 bits and the rest of a sum of two words. -/
theorem toNat_split {w : UInt64} (hw : w.toNat < 2 ^ 62) :
    (w &&& limbMask.toUInt64).toUInt32.toNat = w.toNat % 2 ^ 31 ∧ (w >>> 31).toUInt32.toNat = w.toNat / 2 ^ 31 := by
  have hshift : (w >>> 31).toNat = w.toNat / 2 ^ 31 := by
    rw [UInt64.toNat_shiftRight, Nat.shiftRight_eq_div_pow]
    rfl
  constructor
  · rw [UInt64.toNat_toUInt32, UInt64.toNat_and, show limbMask.toUInt64.toNat = 2 ^ 31 - 1 from rfl,
      Nat.and_two_pow_sub_one_eq_mod]
    omega
  · rw [UInt64.toNat_toUInt32, hshift]
    omega

private theorem z31AddStep_exact :
    ExactStep (2 ^ 31) UInt32.toNat (fun c : UInt32 => (c.toNat : ℤ)) (fun x => x.toNat < 2 ^ 31)
    (fun c => c.toNat ≤ 1) z31AddStep fun x y => (x.toNat : ℤ) + y.toNat := by
  intro x y c hx hy hc
  obtain ⟨w, hw⟩ : ∃ w : UInt64, (x &&& limbMask).toUInt64 + (y &&& limbMask).toUInt64 + c.toUInt64 = w := ⟨_, rfl⟩
  have hnat : w.toNat = x.toNat + y.toNat + c.toNat := by
    rw [← hw, UInt64.toNat_add, UInt64.toNat_add, UInt32.toNat_toUInt64, UInt32.toNat_toUInt64, UInt32.toNat_toUInt64,
      toNat_and_limbMask, toNat_and_limbMask]
    omega
  obtain ⟨hlow, hhigh⟩ := toNat_split (show w.toNat < 2 ^ 62 by omega)
  simp only [z31AddStep, hw, hlow, hhigh, hnat]
  push_cast
  refine ⟨Nat.mod_lt _ (by omega), by omega, by omega⟩

private theorem z31SubStep_exact : ExactStep (2 ^ 31) UInt32.toNat (fun c : UInt32 => -(c.toNat : ℤ))
    (fun x => x.toNat < 2 ^ 31) (fun c => c.toNat ≤ 1) z31SubStep fun x y => (x.toNat : ℤ) - y.toNat := by
  intro x y c hx hy hc
  have hsub : ((x &&& limbMask) - (y &&& limbMask) - c &&& limbMask).toNat =
      (2 ^ 31 + x.toNat - y.toNat - c.toNat) % 2 ^ 31 := by
    rw [toNat_and_limbMask, UInt32.toNat_sub, UInt32.toNat_sub, toNat_and_limbMask, toNat_and_limbMask]
    omega
  have hlt : (x &&& limbMask) < (y &&& limbMask) + c ↔ x.toNat < y.toNat + c.toNat := by
    rw [UInt32.lt_iff_toNat_lt, UInt32.toNat_add, toNat_and_limbMask, toNat_and_limbMask]
    omega
  simp only [z31SubStep, hsub, hlt]
  refine ⟨Nat.mod_lt _ (by omega), ?_, ?_⟩
  · split <;> decide
  · split
    · rw [show (1 : UInt32).toNat = 1 from rfl]
      omega
    · rw [show (0 : UInt32).toNat = 0 from rfl]
      omega

theorem zintMulSmallStep_exact {q : UInt32} (hq : q.toNat < 2 ^ 31) : ExactStep (2 ^ 31) UInt32.toNat
    (fun c : UInt32 => (c.toNat : ℤ)) (fun x => x.toNat < 2 ^ 31) (fun c => c.toNat ≤ q.toNat) (zintMulSmallStep q)
    fun x _ => (q.toNat : ℤ) * x.toNat := by
  intro x _ c hx _ hc
  have hle : x.toNat * q.toNat ≤ (2 ^ 31 - 1) * q.toNat := Nat.mul_le_mul_right _ (by omega)
  obtain ⟨z, hz⟩ : ∃ z : UInt64, x.toUInt64 * q.toUInt64 + c.toUInt64 = z := ⟨_, rfl⟩
  have hnat : z.toNat = x.toNat * q.toNat + c.toNat := by
    rw [← hz, UInt64.toNat_add, UInt64.toNat_mul, UInt32.toNat_toUInt64, UInt32.toNat_toUInt64, UInt32.toNat_toUInt64]
    omega
  have hlow : (z.toUInt32 &&& 0x7FFFFFFF).toNat = z.toNat % 2 ^ 31 := by
    rw [show (0x7FFFFFFF : UInt32) = limbMask from rfl, toNat_and_limbMask, UInt64.toNat_toUInt32]
    omega
  obtain ⟨-, hhigh⟩ := toNat_split (show z.toNat < 2 ^ 62 by omega)
  have hcomm : (q.toNat : ℤ) * x.toNat = (x.toNat * q.toNat : ℕ) := by
    push_cast
    exact mul_comm _ _
  simp only [zintMulSmallStep, hz, hlow, hhigh, hnat, hcomm]
  push_cast
  refine ⟨Nat.mod_lt _ (by omega), by omega, by omega⟩

/-! ### The loops -/

section Loops

variable {mem : ℕ → UInt32} {d a b len : ℕ}

theorem limbValue_lt (h : IsLimbs mem a len) : limbValue mem a len < (2 ^ 31) ^ len := value_lt (by omega) h

theorem limbValue_congr {mem' : ℕ → UInt32} (h : ∀ i < len, mem' (a + i) = mem (a + i)) :
    limbValue mem' a len = limbValue mem a len := value_congr h

theorem IsLimbs.congr {mem' : ℕ → UInt32} (ha : IsLimbs mem a len) (h : ∀ i < len, mem' (a + i) = mem (a + i)) :
    IsLimbs mem' a len := fun i hi => by rw [h i hi]; exact ha i hi

theorem z31Add_frame {j : ℕ} (hj : j < d ∨ d + len ≤ j) : (z31Add mem d a b len).1 j = mem j :=
  carryLoop_frame d a b len mem 0 hj

private theorem z31Sub_frame {j : ℕ} (hj : j < d ∨ d + len ≤ j) : (z31Sub mem d a b len).1 j = mem j :=
  carryLoop_frame d a b len mem 0 hj

theorem zintMulSmall_frame {x : UInt32} {j : ℕ} (hj : j < a ∨ a + len ≤ j) : (zintMulSmall mem a len x).1 j = mem j :=
  carryLoop_frame a a a len mem 0 hj

theorem copyLimbs_frame {j : ℕ} (hj : j < d ∨ d + len ≤ j) : copyLimbs mem d a len j = mem j :=
  carryLoop_frame d a a len mem () hj

/-- Without a carry out of the top limb, the sum is exact. -/
theorem z31Add_spec (hda : Aligned d a len) (hdb : Aligned d b len) (ha : IsLimbs mem a len) (hb : IsLimbs mem b len) :
    IsLimbs (z31Add mem d a b len).1 d len ∧ ((z31Add mem d a b len).2 = 0 →
      limbValue (z31Add mem d a b len).1 d len = limbValue mem a len + limbValue mem b len) := by
  obtain ⟨hok, -, hval⟩ := carryLoop_spec z31AddStep_exact hda hdb ha hb (show (0 : UInt32).toNat ≤ 1 by decide) le_rfl
  refine ⟨hok, fun hc => ?_⟩
  change (carryLoop z31AddStep d a b len mem 0).2 = 0 at hc
  rw [sum_add_eq, hc] at hval
  simp only [UInt32.toNat_zero, Nat.cast_zero, mul_zero, add_zero] at hval
  exact_mod_cast hval

/-- Without a borrow out of the top limb, the difference is exact; otherwise it is negative. -/
theorem z31Sub_spec (hda : Aligned d a len) (hdb : Aligned d b len) (ha : IsLimbs mem a len) (hb : IsLimbs mem b len) :
    IsLimbs (z31Sub mem d a b len).1 d len ∧ ((z31Sub mem d a b len).2 = 0 →
      limbValue (z31Sub mem d a b len).1 d len + limbValue mem b len = limbValue mem a len) ∧
    ((z31Sub mem d a b len).2 ≠ 0 → limbValue mem a len < limbValue mem b len) := by
  obtain ⟨hok, hcarry, hval⟩ :=
    carryLoop_spec z31SubStep_exact hda hdb ha hb (show (0 : UInt32).toNat ≤ 1 by decide) le_rfl
  have hlt := limbValue_lt hok
  rw [sum_sub_eq] at hval
  refine ⟨hok, fun hc => ?_, fun hc => ?_⟩
  · change (carryLoop z31SubStep d a b len mem 0).2 = 0 at hc
    rw [hc] at hval
    simp only [UInt32.toNat_zero, Nat.cast_zero, neg_zero, mul_zero, add_zero] at hval
    have h := eq_sub_iff_add_eq.1 hval
    exact_mod_cast h
  · have hone : (carryLoop z31SubStep d a b len mem 0).2.toNat = 1 := by
      have hpos : (carryLoop z31SubStep d a b len mem 0).2.toNat ≠ 0 := fun h0 => hc (UInt32.toNat_inj.1 h0)
      omega
    rw [hone] at hval
    simp only [UInt32.toNat_zero, Nat.cast_zero, neg_zero, Nat.cast_one] at hval
    have hlt' : (limbValue (carryLoop z31SubStep d a b len mem 0).1 d len : ℤ) < ((2 ^ 31 : ℕ) : ℤ) ^ len := by
      exact_mod_cast hlt
    have hneg : (limbValue mem a len : ℤ) < limbValue mem b len := by
      unfold limbValue at hlt' ⊢
      linarith
    exact_mod_cast hneg

/-- Without a carry out of the top limb, the product is exact. -/
theorem zintMulSmall_spec {x : UInt32} (hx : x.toNat < 2 ^ 31) (ha : IsLimbs mem a len) :
    IsLimbs (zintMulSmall mem a len x).1 a len ∧ ((zintMulSmall mem a len x).2 = 0 →
      limbValue (zintMulSmall mem a len x).1 a len = x.toNat * limbValue mem a len) := by
  obtain ⟨hok, -, hval⟩ := carryLoop_spec (zintMulSmallStep_exact hx) (.refl a len) (.refl a len) ha ha
    (show (0 : UInt32).toNat ≤ x.toNat from Nat.zero_le _) le_rfl
  refine ⟨hok, fun hc => ?_⟩
  change (carryLoop (zintMulSmallStep x) a a a len mem 0).2 = 0 at hc
  rw [sum_mul_eq, hc] at hval
  simp only [UInt32.toNat_zero, Nat.cast_zero, mul_zero, add_zero] at hval
  exact_mod_cast hval

theorem copyLimbs_spec (hda : Aligned d a len) (ha : IsLimbs mem a len) :
    IsLimbs (copyLimbs mem d a len) d len ∧ limbValue (copyLimbs mem d a len) d len = limbValue mem a len := by
  have hstep : ExactStep (2 ^ 31) UInt32.toNat (fun _ : Unit => (0 : ℤ)) (fun x => x.toNat < 2 ^ 31) (fun _ => True)
      (fun x _ _ => (x, ())) fun x _ => (x.toNat : ℤ) := by
    intro x y c hx _ _
    exact ⟨hx, trivial, by simp⟩
  obtain ⟨hok, -, hval⟩ := carryLoop_spec hstep hda hda ha ha (c := ()) trivial le_rfl
  refine ⟨hok, ?_⟩
  rw [← cast_value, mul_zero, add_zero, add_zero] at hval
  exact_mod_cast hval

end Loops

/-! ### The solver -/

/-- The returns of zero in `solve_NTRU_deepest`. -/
inductive DeepestReject
  | bothEven
  | notCoprime
  | addOverflow
  | borrow
  | mulOverflow
  deriving DecidableEq

/-- `if (... != 0) return 0;` on the carry word of a loop. -/
def checked (r : (ℕ → UInt32) × UInt32) (e : DeepestReject) : Except DeepestReject (ℕ → UInt32) :=
  if r.2 ≠ 0 then .error e else .ok r.1

/-- `zint_bezout(u, v, x, y, len, tmp)` on memory, with the result 1 or 0. -/
abbrev ZintBezout := (ℕ → UInt32) → (u v x y len tmp : ℕ) → (ℕ → UInt32) × Bool

/-- `if (!zint_bezout(...)) return 0;` -/
def checkedBezout (r : (ℕ → UInt32) × Bool) : Except DeepestReject (ℕ → UInt32) :=
  if r.2 then .ok r.1 else .error .notCoprime

section Solver

variable (bezout : ZintBezout) (len : ℕ) (tmp : ℕ → UInt32)

/-- Both resultants are odd. -/
def deepestOddOdd : Except DeepestReject (ℕ → UInt32) :=
  let Fp := 0
  let Gp := Fp + len
  let fp := Gp + len
  let gp := fp + len
  let t1 := gp + len
  checkedBezout (bezout tmp Gp Fp fp gp len t1)

/-- Only `x` is odd: `y` is replaced by `y + x`. -/
def deepestOddEven : Except DeepestReject (ℕ → UInt32) :=
  let Fp := 0
  let Gp := Fp + len
  let fp := Gp + len
  let gp := fp + len
  let t1 := gp + len
  let yp := t1
  let tb := yp + len
  (checked (z31Add tmp yp gp fp len) .addOverflow).bind fun tmp =>
  (checkedBezout (bezout tmp Gp Fp fp yp len tb)).bind fun tmp =>
  let tmpU := yp
  (checked (z31Add tmp tmpU Gp gp len) .addOverflow).bind fun tmp =>
  (checked (z31Sub tmp tmpU tmpU Fp len) .borrow).bind fun tmp =>
  (checked (z31Add tmp Fp Fp fp len) .addOverflow).bind fun tmp =>
  .ok (copyLimbs tmp Gp tmpU len)

/-- Only `y` is odd: `x` is replaced by `x + y`. -/
def deepestEvenOdd : Except DeepestReject (ℕ → UInt32) :=
  let Fp := 0
  let Gp := Fp + len
  let fp := Gp + len
  let gp := fp + len
  let t1 := gp + len
  let xp := t1
  let tb := xp + len
  (checked (z31Add tmp xp fp gp len) .addOverflow).bind fun tmp =>
  (checkedBezout (bezout tmp Gp Fp xp gp len tb)).bind fun tmp =>
  let tmpU := xp
  let tmp := copyLimbs tmp tmpU Gp len
  (checked (z31Add tmp Gp Gp gp len) .addOverflow).bind fun tmp =>
  (checked (z31Add tmp Fp Fp fp len) .addOverflow).bind fun tmp =>
  checked (z31Sub tmp Fp Fp tmpU len) .borrow

/-- The multiplication of both values by `q`. -/
def deepestScale : Except DeepestReject (ℕ → UInt32) :=
  let Fp := 0
  let Gp := Fp + len
  let q : UInt32 := 12289
  (checked (zintMulSmall tmp Fp len q) .mulOverflow).bind fun tmp =>
  checked (zintMulSmall tmp Gp len q) .mulOverflow

/-- `solve_NTRU_deepest` from the resultants on, which are at `fp = 2 * len` and `gp = 3 * len`.  A result is the return
value 1, with `F` at 0 and `G` at `len`; an error is the return value 0, with its reason. -/
def solveNtruDeepest : Except DeepestReject (ℕ → UInt32) :=
  let Fp := 0
  let Gp := Fp + len
  let fp := Gp + len
  let gp := fp + len
  let px := tmp fp &&& 1
  let py := tmp gp &&& 1
  if px ||| py = 0 then .error .bothEven
  else
    (if px ≠ 0 ∧ py ≠ 0 then deepestOddOdd bezout len tmp
    else if px ≠ 0 ∧ py = 0 then deepestOddEven bezout len tmp
    else deepestEvenOdd bezout len tmp).bind fun tmp =>
    deepestScale len tmp

/-- The branches of `solve_NTRU_deepest`. -/
inductive DeepestBranch
  | bothEven
  | oddOdd
  | oddEven
  | evenOdd
  deriving DecidableEq

/-- The branch that is taken, by the lowest bits of the resultants. -/
def deepestBranch : DeepestBranch :=
  let px := tmp (len + len) &&& 1
  let py := tmp (len + len + len) &&& 1
  if px ||| py = 0 then .bothEven
  else if px ≠ 0 ∧ py ≠ 0 then .oddOdd
  else if px ≠ 0 ∧ py = 0 then .oddEven
  else .evenOdd

theorem solveNtruDeepest_eq : solveNtruDeepest bezout len tmp = match deepestBranch len tmp with
    | .bothEven => .error .bothEven
    | .oddOdd => (deepestOddOdd bezout len tmp).bind (deepestScale len)
    | .oddEven => (deepestOddEven bezout len tmp).bind (deepestScale len)
    | .evenOdd => (deepestEvenOdd bezout len tmp).bind (deepestScale len) := by
  unfold solveNtruDeepest deepestBranch
  simp only [zero_add]
  by_cases hboth : (tmp (len + len) &&& 1) ||| (tmp (len + len + len) &&& 1) = 0
  · rw [if_pos hboth, if_pos hboth]
  · rw [if_neg hboth, if_neg hboth]
    split
    · rfl
    · split <;> rfl

end Solver

/-! ### The cofactors -/

/-- The arrays of a call of `zint_bezout` do not overlap, but for the operands. -/
structure Separate (u v x y len tmp : ℕ) : Prop where
  uv : u + len ≤ v ∨ v + len ≤ u
  ux : u + len ≤ x ∨ x + len ≤ u
  uy : u + len ≤ y ∨ y + len ≤ u
  vx : v + len ≤ x ∨ x + len ≤ v
  vy : v + len ≤ y ∨ y + len ≤ v
  ut : u + len ≤ tmp ∨ tmp + 4 * len ≤ u
  vt : v + len ≤ tmp ∨ tmp + 4 * len ≤ v
  xt : x + len ≤ tmp ∨ tmp + 4 * len ≤ x
  yt : y + len ≤ tmp ∨ tmp + 4 * len ≤ y

/-- The contract of `zint_bezout`, for odd operands: only the arrays `u`, `v` and `tmp` are written, and with the result
1 the first two are the cofactors. -/
structure BezoutContract (bezout : ZintBezout) : Prop where
  frame : ∀ mem u v x y len tmp, Separate u v x y len tmp → ∀ j, (j < u ∨ u + len ≤ j) → (j < v ∨ v + len ≤ j) →
    (j < tmp ∨ tmp + 4 * len ≤ j) → (bezout mem u v x y len tmp).1 j = mem j
  cofactors : ∀ mem u v x y len tmp, Separate u v x y len tmp → IsLimbs mem x len → IsLimbs mem y len →
    limbValue mem x len % 2 = 1 → limbValue mem y len % 2 = 1 → (bezout mem u v x y len tmp).2 = true →
    IsLimbs (bezout mem u v x y len tmp).1 u len ∧ IsLimbs (bezout mem u v x y len tmp).1 v len ∧
      IsBezout (limbValue mem x len) (limbValue mem y len) (limbValue (bezout mem u v x y len tmp).1 u len)
        (limbValue (bezout mem u v x y len tmp).1 v len)

/-- The cofactors of `x` and `y` that the case analysis makes of those that `zint_bezout` returns, with all sums below
the bound `W` of the arrays. -/
def Corrected (W x y U V : ℕ) : Prop :=
  (x % 2 = 1 ∧ y % 2 = 1 ∧ IsBezout x y U V) ∨
  (x % 2 = 1 ∧ y % 2 = 0 ∧ ∃ u v, IsBezout x (x + y) u v ∧ x + y < W ∧ u + y < W ∧ v + x < W ∧
    U + v = u + y ∧ V = v + x) ∨
  (x % 2 = 0 ∧ y % 2 = 1 ∧ ∃ u v, IsBezout (x + y) y u v ∧ x + y < W ∧ u + y < W ∧ v + x < W ∧
    U = u + y ∧ V + u = v + x)

/-- Corrected cofactors are cofactors. -/
theorem Corrected.eq {W x y U V : ℕ} (h : Corrected W x y U V) : x * U = y * V + 1 := by
  rcases h with ⟨-, -, h, -⟩ | ⟨-, -, u, v, ⟨h, -⟩, -, -, -, hU, rfl⟩ | ⟨-, -, u, v, ⟨h, -⟩, -, -, -, rfl, hV⟩
  · exact h
  · zify at h hU ⊢
    linear_combination h + (x : ℤ) * hU
  · zify at h hV ⊢
    linear_combination h - (y : ℤ) * hV

/-! ### The checked steps -/

/-- A result satisfies `P`, and a rejection for a borrow implies `C`. -/
def Yields (r : Except DeepestReject (ℕ → UInt32)) (C : Prop) (P : (ℕ → UInt32) → Prop) : Prop :=
  (∀ m, r = .ok m → P m) ∧ (r = .error .borrow → C)

section Yields

variable {C : Prop} {P Q : (ℕ → UInt32) → Prop}

theorem Yields.ok {m : ℕ → UInt32} (h : P m) : Yields (.ok m) C P := by
  refine ⟨fun m' hm => ?_, fun hc => (nomatch hc)⟩
  obtain rfl := Except.ok.inj hm
  exact h

theorem Yields.imp {r : Except DeepestReject (ℕ → UInt32)} (h : Yields r C P) (hPQ : ∀ m, P m → Q m) : Yields r C Q :=
  ⟨fun m hm => hPQ m (h.1 m hm), h.2⟩

theorem Yields.bind {r : Except DeepestReject (ℕ → UInt32)} {f : (ℕ → UInt32) → Except DeepestReject (ℕ → UInt32)}
    (h : Yields r C P) (hf : ∀ m, P m → Yields (f m) C Q) : Yields (r.bind f) C Q := by
  rcases r with e | m
  · refine ⟨fun m hm => (nomatch hm), fun hc => h.2 ?_⟩
    obtain rfl : e = .borrow := Except.error.inj hc
    rfl
  · exact hf m (h.1 m rfl)

/-- A carry is an overflow. -/
private theorem yields_checked {r : (ℕ → UInt32) × UInt32} {e : DeepestReject} (he : e ≠ .borrow)
    (h : r.2 = 0 → P r.1) :
    Yields (checked r e) C P := by
  unfold checked
  split
  · exact ⟨fun m hm => (nomatch hm), fun hc => absurd (Except.error.inj hc) he⟩
  · rename_i hc
    exact .ok (h (not_not.1 hc))

private theorem yields_checked_borrow {r : (ℕ → UInt32) × UInt32} (h : r.2 = 0 → P r.1) (hc : r.2 ≠ 0 → C) :
    Yields (checked r .borrow) C P := by
  unfold checked
  split
  · rename_i hne
    exact ⟨fun m hm => (nomatch hm), fun _ => hc hne⟩
  · rename_i hz
    exact .ok (h (not_not.1 hz))

private theorem yields_checkedBezout {r : (ℕ → UInt32) × Bool} (h : r.2 = true → P r.1) :
    Yields (checkedBezout r) C P := by
  unfold checkedBezout
  split
  · rename_i hr
    exact .ok (h hr)
  · exact ⟨fun m hm => (nomatch hm), fun hc => (nomatch hc)⟩

end Yields

section Rules

variable {C : Prop} {mem : ℕ → UInt32} {d a b len : ℕ}

private theorem yields_z31Add (hda : Aligned d a len) (hdb : Aligned d b len) (ha : IsLimbs mem a len)
    (hb : IsLimbs mem b len) :
    Yields (checked (z31Add mem d a b len) .addOverflow) C fun m => IsLimbs m d len ∧
      limbValue m d len = limbValue mem a len + limbValue mem b len ∧
      limbValue mem a len + limbValue mem b len < (2 ^ 31) ^ len ∧ ∀ j, j < d ∨ d + len ≤ j → m j = mem j := by
  refine yields_checked (by decide) fun hc => ?_
  obtain ⟨hok, hval⟩ := z31Add_spec hda hdb ha hb
  have hlt := limbValue_lt hok
  rw [hval hc] at hlt
  exact ⟨hok, hval hc, hlt, fun j hj => z31Add_frame hj⟩

/-- The difference borrows only if it is negative. -/
private theorem yields_z31Sub (hda : Aligned d a len) (hdb : Aligned d b len) (ha : IsLimbs mem a len)
    (hb : IsLimbs mem b len) (hneg : limbValue mem a len < limbValue mem b len → C) :
    Yields (checked (z31Sub mem d a b len) .borrow) C fun m => IsLimbs m d len ∧
      limbValue m d len + limbValue mem b len = limbValue mem a len ∧ ∀ j, j < d ∨ d + len ≤ j → m j = mem j := by
  obtain ⟨hok, hval, hlt⟩ := z31Sub_spec hda hdb ha hb
  exact yields_checked_borrow (fun hc => ⟨hok, hval hc, fun j hj => z31Sub_frame hj⟩) fun hc => hneg (hlt hc)

private theorem yields_zintMulSmall {x : UInt32} (hx : x.toNat < 2 ^ 31) (ha : IsLimbs mem a len) :
    Yields (checked (zintMulSmall mem a len x) .mulOverflow) C fun m => IsLimbs m a len ∧
      limbValue m a len = x.toNat * limbValue mem a len ∧ ∀ j, j < a ∨ a + len ≤ j → m j = mem j := by
  refine yields_checked (by decide) fun hc => ?_
  obtain ⟨hok, hval⟩ := zintMulSmall_spec hx ha
  exact ⟨hok, hval hc, fun j hj => zintMulSmall_frame hj⟩

private theorem yields_bezout {bezout : ZintBezout} (hbez : BezoutContract bezout) {u v x y tmp : ℕ}
    (hsep : Separate u v x y len tmp) (hx : IsLimbs mem x len) (hy : IsLimbs mem y len)
    (hxodd : limbValue mem x len % 2 = 1) (hyodd : limbValue mem y len % 2 = 1) :
    Yields (checkedBezout (bezout mem u v x y len tmp)) C fun m => IsLimbs m u len ∧ IsLimbs m v len ∧
      IsBezout (limbValue mem x len) (limbValue mem y len) (limbValue m u len) (limbValue m v len) ∧
      ∀ j, j < u ∨ u + len ≤ j → j < v ∨ v + len ≤ j → j < tmp ∨ tmp + 4 * len ≤ j → m j = mem j := by
  refine yields_checkedBezout fun hone => ?_
  obtain ⟨hu, hv, hb⟩ := hbez.cofactors mem _ _ _ _ len _ hsep hx hy hxodd hyodd hone
  exact ⟨hu, hv, hb, hbez.frame mem _ _ _ _ len _ hsep⟩

end Rules

/-! ### The three cases -/

section Cases

variable {bezout : ZintBezout} (hbez : BezoutContract bezout) {len : ℕ} {tmp : ℕ → UInt32}
  (hx : IsLimbs tmp (len + len) len) (hy : IsLimbs tmp (len + len + len) len)
include hbez hx hy

private theorem deepestOddOdd_yields {C : Prop} (hxodd : limbValue tmp (len + len) len % 2 = 1)
    (hyodd : limbValue tmp (len + len + len) len % 2 = 1) :
    Yields (deepestOddOdd bezout len tmp) C fun m => IsLimbs m 0 len ∧ IsLimbs m len len ∧
      Corrected ((2 ^ 31) ^ len) (limbValue tmp (len + len) len) (limbValue tmp (len + len + len) len)
        (limbValue m len len) (limbValue m 0 len) := by
  simp only [deepestOddOdd, zero_add]
  have hsep : Separate len 0 (len + len) (len + len + len) len (len + len + len + len) := by
    constructor <;> omega
  refine (yields_bezout hbez hsep hx hy hxodd hyodd).imp fun m hm => ?_
  obtain ⟨hG, hF, hb, -⟩ := hm
  exact ⟨hF, hG, .inl ⟨hxodd, hyodd, hb⟩⟩

private theorem deepestOddEven_yields {C : Prop} (hxodd : limbValue tmp (len + len) len % 2 = 1)
    (hyeven : limbValue tmp (len + len + len) len % 2 = 0) :
    Yields (deepestOddEven bezout len tmp) C fun m => IsLimbs m 0 len ∧ IsLimbs m len len ∧
      Corrected ((2 ^ 31) ^ len) (limbValue tmp (len + len) len) (limbValue tmp (len + len + len) len)
        (limbValue m len len) (limbValue m 0 len) := by
  simp only [deepestOddEven, zero_add]
  generalize hfp : len + len = fp at hx hy hxodd hyeven ⊢
  generalize hgp : fp + len = gp at hy hyeven ⊢
  generalize ht1 : gp + len = t1
  generalize hxv : limbValue tmp fp len = x at hxodd ⊢
  generalize hyv : limbValue tmp gp len = y at hyeven ⊢
  -- `yp = y + x`
  refine Yields.bind (yields_z31Add (.inr (.inr (by omega))) (.inr (.inr (by omega))) hy hx) ?_
  rintro m1 ⟨hyp, hypv, hxyW, hframe1⟩
  rw [hyv, hxv, add_comm] at hypv hxyW
  have hfp1 : ∀ i < len, m1 (fp + i) = tmp (fp + i) := fun i hi => hframe1 _ (by omega)
  have hxv1 : limbValue m1 fp len = x := by rw [limbValue_congr hfp1, hxv]
  -- the cofactors of `x` and `yp`
  have hsep : Separate len 0 fp t1 len (t1 + len) := by constructor <;> omega
  refine Yields.bind (yields_bezout hbez hsep (hx.congr hfp1) hyp (by rw [hxv1]; exact hxodd)
    (by rw [hypv]; omega)) ?_
  rintro m2 ⟨hG, hF, hb, hframe2⟩
  rw [hxv1, hypv] at hb
  generalize hu : limbValue m2 len len = u at hb
  generalize hv : limbValue m2 0 len = v at hb
  have hfp2 : ∀ i < len, m2 (fp + i) = tmp (fp + i) := fun i hi =>
    (hframe2 _ (by omega) (by omega) (by omega)).trans (hfp1 i hi)
  have hgp2 : ∀ i < len, m2 (gp + i) = tmp (gp + i) := fun i hi =>
    (hframe2 _ (by omega) (by omega) (by omega)).trans (hframe1 _ (by omega))
  -- `tmpU = u + y`
  refine Yields.bind (yields_z31Add (.inr (.inr (by omega))) (.inr (.inr (by omega))) hG (hy.congr hgp2)) ?_
  rintro m3 ⟨hU, hUv, huyW, hframe3⟩
  rw [hu, limbValue_congr hgp2, hyv] at hUv huyW
  have hF3 : ∀ i < len, m3 (0 + i) = m2 (0 + i) := fun i hi => hframe3 _ (by omega)
  have hv3 : limbValue m3 0 len = v := by rw [limbValue_congr hF3, hv]
  have hle := hb.le_of_add
  -- `tmpU = u + y - v`
  refine Yields.bind (yields_z31Sub (.refl t1 len) (.inr (.inr (by omega))) hU (hF.congr hF3) (by omega)) ?_
  rintro m4 ⟨hU, hUv4, hframe4⟩
  rw [hv3, hUv] at hUv4
  have hF4 : ∀ i < len, m4 (0 + i) = m2 (0 + i) := fun i hi => (hframe4 _ (by omega)).trans (hF3 i hi)
  have hfp4 : ∀ i < len, m4 (fp + i) = tmp (fp + i) := fun i hi =>
    ((hframe4 _ (by omega)).trans (hframe3 _ (by omega))).trans (hfp2 i hi)
  -- `Fp = v + x`
  refine Yields.bind (yields_z31Add (.refl 0 len) (.inr (.inl (by omega))) (hF.congr hF4) (hx.congr hfp4)) ?_
  rintro m5 ⟨hF, hFv, hvxW, hframe5⟩
  rw [limbValue_congr hF4, hv, limbValue_congr hfp4, hxv] at hFv hvxW
  have hU5 : ∀ i < len, m5 (t1 + i) = m4 (t1 + i) := fun i hi => hframe5 _ (by omega)
  -- `Gp = tmpU`
  obtain ⟨hG, hGv⟩ := copyLimbs_spec (d := len) (.inr (.inl (by omega))) (hU.congr hU5)
  have hF5 : ∀ i < len, copyLimbs m5 len t1 len (0 + i) = m5 (0 + i) := fun i hi => copyLimbs_frame (.inl (by omega))
  refine .ok ⟨hF.congr hF5, hG, .inr (.inl ⟨hxodd, hyeven, u, v, hb, hxyW, huyW, hvxW, ?_, ?_⟩)⟩
  · rw [hGv, limbValue_congr hU5, hUv4]
  · rw [limbValue_congr hF5, hFv]

private theorem deepestEvenOdd_yields (hxeven : limbValue tmp (len + len) len % 2 = 0)
    (hyodd : limbValue tmp (len + len + len) len % 2 = 1) :
    Yields (deepestEvenOdd bezout len tmp) (limbValue tmp (len + len) len = 0) fun m => IsLimbs m 0 len ∧
      IsLimbs m len len ∧ Corrected ((2 ^ 31) ^ len) (limbValue tmp (len + len) len)
        (limbValue tmp (len + len + len) len) (limbValue m len len) (limbValue m 0 len) := by
  simp only [deepestEvenOdd, zero_add]
  generalize hfp : len + len = fp at hx hy hxeven hyodd ⊢
  generalize hgp : fp + len = gp at hy hyodd ⊢
  generalize ht1 : gp + len = t1
  generalize hxv : limbValue tmp fp len = x at hxeven ⊢
  generalize hyv : limbValue tmp gp len = y at hyodd ⊢
  -- `xp = x + y`
  refine Yields.bind (yields_z31Add (.inr (.inr (by omega))) (.inr (.inr (by omega))) hx hy) ?_
  rintro m1 ⟨hxp, hxpv, hxyW, hframe1⟩
  rw [hxv, hyv] at hxpv hxyW
  have hgp1 : ∀ i < len, m1 (gp + i) = tmp (gp + i) := fun i hi => hframe1 _ (by omega)
  have hyv1 : limbValue m1 gp len = y := by rw [limbValue_congr hgp1, hyv]
  -- the cofactors of `xp` and `y`
  have hsep : Separate len 0 t1 gp len (t1 + len) := by constructor <;> omega
  refine Yields.bind (yields_bezout hbez hsep hxp (hy.congr hgp1) (by rw [hxpv]; omega)
    (by rw [hyv1]; exact hyodd)) ?_
  rintro m2 ⟨hG, hF, hb, hframe2⟩
  rw [hyv1, hxpv] at hb
  generalize hu : limbValue m2 len len = u at hb
  generalize hv : limbValue m2 0 len = v at hb
  have hfp2 : ∀ i < len, m2 (fp + i) = tmp (fp + i) := fun i hi =>
    (hframe2 _ (by omega) (by omega) (by omega)).trans (hframe1 _ (by omega))
  have hgp2 : ∀ i < len, m2 (gp + i) = tmp (gp + i) := fun i hi =>
    (hframe2 _ (by omega) (by omega) (by omega)).trans (hgp1 i hi)
  -- `tmpU = u`
  obtain ⟨hU, hUv⟩ := copyLimbs_spec (d := t1) (.inr (.inr (by omega))) hG
  have hframe3 : ∀ j < t1, copyLimbs m2 t1 len len j = m2 j := fun j hj => copyLimbs_frame (.inl hj)
  generalize copyLimbs m2 t1 len len = m3 at hU hUv hframe3 ⊢
  rw [hu] at hUv
  have hG3 : ∀ i < len, m3 (len + i) = m2 (len + i) := fun i hi => hframe3 _ (by omega)
  have hgp3 : ∀ i < len, m3 (gp + i) = tmp (gp + i) := fun i hi => (hframe3 _ (by omega)).trans (hgp2 i hi)
  -- `Gp = u + y`
  refine Yields.bind (yields_z31Add (.refl len len) (.inr (.inl (by omega))) (hG.congr hG3) (hy.congr hgp3)) ?_
  rintro m4 ⟨hG, hGv, huyW, hframe4⟩
  rw [limbValue_congr hG3, hu, limbValue_congr hgp3, hyv] at hGv huyW
  have hF4 : ∀ i < len, m4 (0 + i) = m2 (0 + i) := fun i hi => (hframe4 _ (by omega)).trans (hframe3 _ (by omega))
  have hfp4 : ∀ i < len, m4 (fp + i) = tmp (fp + i) := fun i hi =>
    ((hframe4 _ (by omega)).trans (hframe3 _ (by omega))).trans (hfp2 i hi)
  -- `Fp = v + x`
  refine Yields.bind (yields_z31Add (.refl 0 len) (.inr (.inl (by omega))) (hF.congr hF4) (hx.congr hfp4)) ?_
  rintro m5 ⟨hF, hFv, hvxW, hframe5⟩
  rw [limbValue_congr hF4, hv, limbValue_congr hfp4, hxv] at hFv hvxW
  have hU5 : ∀ i < len, m5 (t1 + i) = m3 (t1 + i) := fun i hi =>
    (hframe5 _ (by omega)).trans (hframe4 _ (by omega))
  have hUv5 : limbValue m5 t1 len = u := by rw [limbValue_congr hU5, hUv]
  -- `v + x < u` only if `x = 0`
  have hneg : limbValue m5 0 len < limbValue m5 t1 len → x = 0 := by
    intro hlt
    rw [hFv, hUv5] at hlt
    by_contra hpos
    have hge := hb.ge_of_add (Nat.pos_of_ne_zero hpos)
    omega
  -- `Fp = v + x - u`
  refine (yields_z31Sub (.refl 0 len) (.inr (.inl (by omega))) hF (hU.congr hU5) hneg).imp fun m6 hm => ?_
  obtain ⟨hF6, hFv6, hframe6⟩ := hm
  rw [hUv5, hFv] at hFv6
  have hG6 : ∀ i < len, m6 (len + i) = m4 (len + i) := fun i hi =>
    (hframe6 _ (by omega)).trans (hframe5 _ (by omega))
  have hGv6 : limbValue m6 len len = u + y := by rw [limbValue_congr hG6, hGv]
  exact ⟨hF6, hG.congr hG6, .inr (.inr ⟨hxeven, hyodd, u, v, hb, hxyW, huyW, hvxW, hGv6, hFv6⟩)⟩

end Cases

/-- Both values are multiplied by `q`. -/
private theorem deepestScale_yields {C : Prop} {len : ℕ} {m : ℕ → UInt32} (hF : IsLimbs m 0 len)
    (hG : IsLimbs m len len) :
    Yields (deepestScale len m) C fun m' => IsLimbs m' 0 len ∧ IsLimbs m' len len ∧
      limbValue m' 0 len = 12289 * limbValue m 0 len ∧ limbValue m' len len = 12289 * limbValue m len len := by
  have hq : (12289 : UInt32).toNat < 2 ^ 31 := by decide
  simp only [deepestScale, zero_add]
  refine Yields.bind (yields_zintMulSmall hq hF) ?_
  rintro m1 ⟨hF1, hFv1, hframe1⟩
  have hG1 : ∀ i < len, m1 (len + i) = m (len + i) := fun i hi => hframe1 _ (by omega)
  refine (yields_zintMulSmall hq (hG.congr hG1)).imp fun m2 hm => ?_
  obtain ⟨hG2, hGv2, hframe2⟩ := hm
  have hF2 : ∀ i < len, m2 (0 + i) = m1 (0 + i) := fun i hi => hframe2 _ (by omega)
  refine ⟨hF1.congr hF2, hG2, ?_, ?_⟩
  · rw [limbValue_congr hF2, hFv1]
    rfl
  · rw [hGv2, limbValue_congr hG1]
    rfl

/-! ### The equation -/

/-- A sum or a product of the algorithm does not fit below the bound `W` of the arrays. -/
def Overflows (W x y : ℕ) : Prop :=
  (x % 2 = 1 ∧ y % 2 = 1 ∧ ∃ u v, IsBezout x y u v ∧ (W ≤ 12289 * u ∨ W ≤ 12289 * v)) ∨
  (x % 2 = 1 ∧ y % 2 = 0 ∧ (W ≤ x + y ∨ ∃ u v, IsBezout x (x + y) u v ∧
    (W ≤ u + y ∨ W ≤ v + x ∨ W ≤ 12289 * (u + y - v) ∨ W ≤ 12289 * (v + x)))) ∨
  (x % 2 = 0 ∧ y % 2 = 1 ∧ (W ≤ x + y ∨ ∃ u v, IsBezout (x + y) y u v ∧
    (W ≤ u + y ∨ W ≤ v + x ∨ W ≤ 12289 * (u + y) ∨ W ≤ 12289 * (v + x - u))))

/-- Corrected cofactors that can be multiplied by `q` exclude an overflow, since cofactors are unique. -/
private theorem Corrected.not_overflows {W x y U V : ℕ} (h : Corrected W x y U V) (hU : 12289 * U < W)
    (hV : 12289 * V < W) :
    ¬ Overflows W x y := by
  rintro (⟨hx, hy, u', v', hb', hlarge⟩ | ⟨hx, hy, hlarge⟩ | ⟨hx, hy, hlarge⟩) <;>
    rcases h with ⟨hx1, hy1, hb⟩ | ⟨hx1, hy1, u, v, hb, hxy, huy, hvx, hUv, hVv⟩ |
      ⟨hx1, hy1, u, v, hb, hxy, huy, hvx, hUv, hVv⟩ <;> try omega
  · obtain ⟨rfl, rfl⟩ := hb.unique hb'
    omega
  · rcases hlarge with hlarge | ⟨u', v', hb', hlarge⟩
    · omega
    · obtain ⟨rfl, rfl⟩ := hb.unique hb'
      omega
  · rcases hlarge with hlarge | ⟨u', v', hb', hlarge⟩
    · omega
    · obtain ⟨rfl, rfl⟩ := hb.unique hb'
      omega

theorem and_one_eq_zero_iff (w : UInt32) : w &&& 1 = 0 ↔ w.toNat % 2 = 0 := by
  rw [← UInt32.toNat_inj, UInt32.toNat_and, show (1 : UInt32).toNat = 2 ^ 1 - 1 from rfl,
    Nat.and_two_pow_sub_one_eq_mod, pow_one]
  exact Iff.rfl

/-- The lowest bit of an array is the parity of its number. -/
private theorem limbValue_mod_two (mem : ℕ → UInt32) (a : ℕ) {len : ℕ} (hlen : 0 < len) :
    mem a &&& 1 = 0 ↔ limbValue mem a len % 2 = 0 := by
  rw [and_one_eq_zero_iff, limbValue, value_mod_two (by decide) hlen]

/-- Of two resultants with an odd sum exactly one is odd. -/
theorem deepestBranch_of_odd {tmp : ℕ → UInt32} {len : ℕ} (hlen : 0 < len)
    (h : (limbValue tmp (len + len) len + limbValue tmp (len + len + len) len) % 2 = 1) :
    deepestBranch len tmp = .oddEven ∨ deepestBranch len tmp = .evenOdd := by
  have hpx := limbValue_mod_two tmp (len + len) hlen
  have hpy := limbValue_mod_two tmp (len + len + len) hlen
  unfold deepestBranch
  simp only
  rcases Nat.mod_two_eq_zero_or_one (limbValue tmp (len + len) len) with hx | hx
  · right
    have hy : ¬ tmp (len + len + len) &&& 1 = 0 := by
      rw [hpy]
      omega
    rw [hpx.2 hx, UInt32.zero_or, if_neg hy, if_neg (fun hc => hc.1 rfl), if_neg (fun hc => hc.1 rfl)]
  · left
    have hx' : ¬ tmp (len + len) &&& 1 = 0 := by
      rw [hpx]
      omega
    have hy : tmp (len + len + len) &&& 1 = 0 := by
      rw [hpy]
      omega
    rw [hy, UInt32.or_zero, if_neg hx', if_neg (fun hc => hc.2 rfl), if_pos ⟨hx', rfl⟩]

section Solve

variable {bezout : ZintBezout} (hbez : BezoutContract bezout) {len : ℕ} (hlen : 0 < len) {tmp : ℕ → UInt32}
  (hx : IsLimbs tmp (len + len) len) (hy : IsLimbs tmp (len + len + len) len)

include hlen in
private theorem solveNtruDeepest_bothEven (hxeven : limbValue tmp (len + len) len % 2 = 0)
    (hyeven : limbValue tmp (len + len + len) len % 2 = 0) : solveNtruDeepest bezout len tmp = .error .bothEven := by
  simp only [solveNtruDeepest, zero_add]
  rw [if_pos]
  rw [(limbValue_mod_two tmp _ hlen).2 hxeven, (limbValue_mod_two tmp _ hlen).2 hyeven]
  rfl

include hbez hlen hx hy

theorem solveNtruDeepest_yields :
    Yields (solveNtruDeepest bezout len tmp) (limbValue tmp (len + len) len = 0) fun m =>
      ∃ U V, Corrected ((2 ^ 31) ^ len) (limbValue tmp (len + len) len) (limbValue tmp (len + len + len) len) U V ∧
        IsLimbs m 0 len ∧ IsLimbs m len len ∧ limbValue m 0 len = 12289 * V ∧ limbValue m len len = 12289 * U := by
  have hpx := limbValue_mod_two tmp (len + len) hlen
  have hpy := limbValue_mod_two tmp (len + len + len) hlen
  by_cases hboth : limbValue tmp (len + len) len % 2 = 0 ∧ limbValue tmp (len + len + len) len % 2 = 0
  · rw [solveNtruDeepest_bothEven hlen hboth.1 hboth.2]
    exact ⟨fun m hm => (nomatch hm), fun hc => (nomatch hc)⟩
  have hor : ¬ (tmp (len + len) &&& 1) ||| (tmp (len + len + len) &&& 1) = 0 := by
    intro hz
    have hz' := congrArg UInt32.toNat hz
    rw [UInt32.toNat_or, UInt32.toNat_zero, Nat.or_eq_zero_iff] at hz'
    exact hboth ⟨hpx.1 (UInt32.toNat_inj.1 hz'.1), hpy.1 (UInt32.toNat_inj.1 hz'.2)⟩
  simp only [solveNtruDeepest, zero_add]
  rw [if_neg hor]
  refine Yields.bind (P := fun m => IsLimbs m 0 len ∧ IsLimbs m len len ∧ Corrected ((2 ^ 31) ^ len)
    (limbValue tmp (len + len) len) (limbValue tmp (len + len + len) len) (limbValue m len len) (limbValue m 0 len)) ?_ ?_
  · simp only [ne_eq, hpx, hpy]
    by_cases hxeven : limbValue tmp (len + len) len % 2 = 0
    · rw [if_neg (fun hc => hc.1 hxeven), if_neg (fun hc => hc.1 hxeven)]
      exact deepestEvenOdd_yields hbez hx hy hxeven (by omega)
    · by_cases hyeven : limbValue tmp (len + len + len) len % 2 = 0
      · rw [if_neg (fun hc => hc.2 hyeven), if_pos ⟨hxeven, hyeven⟩]
        exact deepestOddEven_yields hbez hx hy (by omega) hyeven
      · rw [if_pos ⟨hxeven, hyeven⟩]
        exact deepestOddOdd_yields hbez hx hy (by omega) (by omega)
  · rintro m ⟨hF, hG, hcor⟩
    refine (deepestScale_yields hF hG).imp fun m' hm' => ?_
    obtain ⟨hF', hG', hFv, hGv⟩ := hm'
    exact ⟨_, _, hcor, hF', hG', hFv, hGv⟩

/-- If the solver returns 1, it leaves `F` and `G` with `x * G - y * F = 12289`; no subtraction borrows for positive
resultants; and it returns 0 if both resultants are even, or if a sum or a product does not fit. -/
theorem solveNtruDeepest_spec :
    (∀ m, solveNtruDeepest bezout len tmp = .ok m → limbValue tmp (len + len) len * limbValue m len len =
      limbValue tmp (len + len + len) len * limbValue m 0 len + 12289) ∧
    (0 < limbValue tmp (len + len) len → 0 < limbValue tmp (len + len + len) len →
      solveNtruDeepest bezout len tmp ≠ .error .borrow) ∧
    (limbValue tmp (len + len) len % 2 = 0 → limbValue tmp (len + len + len) len % 2 = 0 →
      solveNtruDeepest bezout len tmp = .error .bothEven) ∧
    (Overflows ((2 ^ 31) ^ len) (limbValue tmp (len + len) len) (limbValue tmp (len + len + len) len) →
      ∀ m, solveNtruDeepest bezout len tmp ≠ .ok m) := by
  obtain ⟨hok, hborrow⟩ := solveNtruDeepest_yields hbez hlen hx hy
  refine ⟨fun m hm => ?_, fun hxpos hypos hc => ?_, solveNtruDeepest_bothEven hlen, fun hover m hm => ?_⟩
  · obtain ⟨U, V, hcor, -, -, hFv, hGv⟩ := hok m hm
    have heq := hcor.eq
    rw [hFv, hGv]
    zify at heq ⊢
    linear_combination 12289 * heq
  · have hzero := hborrow hc
    omega
  · obtain ⟨U, V, hcor, hF, hG, hFv, hGv⟩ := hok m hm
    have hFlt := limbValue_lt hF
    have hGlt := limbValue_lt hG
    rw [hFv] at hFlt
    rw [hGv] at hGlt
    exact hcor.not_overflows hGlt hFlt hover

end Solve

/-- The number 1 in the array at `u`, and 0 in the array at `v`. -/
def storeOneZero (mem : ℕ → UInt32) (u v len : ℕ) : ℕ → UInt32 := fun j =>
  if u ≤ j ∧ j < u + len then (if j = u then 1 else 0) else if v ≤ j ∧ j < v + len then 0 else mem j

private theorem storeOneZero_one (mem : ℕ → UInt32) (u v : ℕ) {len : ℕ} (hlen : 0 < len) :
    IsLimbs (storeOneZero mem u v len) u len ∧ limbValue (storeOneZero mem u v len) u len = 1 := by
  have hlimb : ∀ i < len, storeOneZero mem u v len (u + i) = if i = 0 then 1 else 0 := by
    intro i hi
    unfold storeOneZero
    rw [if_pos (by omega)]
    simp
  constructor
  · intro i hi
    rw [hlimb i hi]
    split <;> decide
  · unfold limbValue Limbs.value
    rw [Finset.sum_eq_single_of_mem 0 (Finset.mem_range.2 hlen), hlimb 0 hlen]
    · rfl
    · intro i hi hne
      rw [hlimb i (Finset.mem_range.1 hi), if_neg hne]
      exact Nat.zero_mul _

private theorem storeOneZero_zero (mem : ℕ → UInt32) {u v len : ℕ} (huv : u + len ≤ v ∨ v + len ≤ u) :
    IsLimbs (storeOneZero mem u v len) v len ∧ limbValue (storeOneZero mem u v len) v len = 0 := by
  have hlimb : ∀ i < len, storeOneZero mem u v len (v + i) = 0 := by
    intro i hi
    unfold storeOneZero
    rw [if_neg (by omega), if_pos (by omega)]
  constructor
  · intro i hi
    rw [hlimb i hi]
    decide
  · unfold limbValue Limbs.value
    refine Finset.sum_eq_zero fun i hi => ?_
    rw [hlimb i (Finset.mem_range.1 hi)]
    exact Nat.zero_mul _

/-- The cofactors of an operand 1, which are 1 and 0; for the other operands the result is 0. -/
def unitBezout : ZintBezout := fun mem u v x _y len _tmp =>
  if limbValue mem x len = 1 then (storeOneZero mem u v len, true) else (mem, false)

private theorem unitBezout_contract : BezoutContract unitBezout where
  frame mem u v x y len tmp _ j hu hv _ := by
    unfold unitBezout
    split
    · simp only [storeOneZero]
      rw [if_neg (by omega), if_neg (by omega)]
    · rfl
  cofactors mem u v x y len tmp hsep hx _ hxodd hyodd hone := by
    unfold unitBezout at hone ⊢
    split at hone
    · rename_i h1
      have hlen : 0 < len := by
        rcases Nat.eq_zero_or_pos len with rfl | h
        · simp [limbValue, Limbs.value] at h1
        · exact h
      obtain ⟨hu, hu1⟩ := storeOneZero_one mem u v hlen
      obtain ⟨hv, hv0⟩ := storeOneZero_zero mem hsep.uv
      rw [if_pos h1]
      refine ⟨hu, hv, ?_⟩
      simp only [h1, hu1, hv0]
      exact ⟨rfl, by omega, Nat.zero_le 1⟩
    · exact absurd hone (by simp)

/-- The resultants 1 and 2, in one limb each. -/
def oneTwo : ℕ → UInt32 := fun j => if j = 2 then 1 else if j = 3 then 2 else 0

theorem solveNtruDeepest_oneTwo : ∃ m, solveNtruDeepest unitBezout 1 oneTwo = .ok m ∧ m 1 = 36867 ∧ m 0 = 12289 ∧
    limbValue oneTwo 2 1 * limbValue m 1 1 = limbValue oneTwo 3 1 * limbValue m 0 1 + 12289 ∧
    solveNtruDeepest unitBezout 1 oneTwo ≠ .error .borrow := by
  have hx : IsLimbs oneTwo (1 + 1) 1 := fun i hi => by
    rw [Nat.lt_one_iff.1 hi]
    decide
  have hy : IsLimbs oneTwo (1 + 1 + 1) 1 := fun i hi => by
    rw [Nat.lt_one_iff.1 hi]
    decide
  obtain ⟨hok, hborrow, -, -⟩ := solveNtruDeepest_spec unitBezout_contract (show 0 < 1 by decide) hx hy
  refine ⟨_, rfl, rfl, rfl, hok _ rfl, hborrow ?_ ?_⟩ <;> decide

end DfVrf.Crypto
