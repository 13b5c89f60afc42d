import DfVrf.Crypto.Bezout
import DfVrf.Crypto.MakeFg

/-!
# Solving the NTRU equation (`keygen.c`)

`solve_NTRU` goes from the deepest level up to polynomials of full degree.  The levels above the deepest one compute in
floating point and are parameters.  What they leave is not trusted: the last steps check the ranges of `F` and `G`, and
the equation `f * G - g * F = q` modulo one small prime.

* `checkNtru_iff`: the check modulo the prime is exact for the equation over the integers.
* `solveNtru_spec`: whatever the levels leave, polynomials that are returned solve the equation.
-/

namespace DfVrf.Crypto

open InPlace Negacyclic

/-! ### The code -/

/-- `zint_one_to_plain`. -/
def zintOneToPlain (w : UInt32) : Int32 := (w ||| ((w &&& 0x40000000) <<< 1)).toInt32

/-- `poly_big_to_small`, on the words from `s` on; `none` where the code returns zero. -/
def polyBigToSmall (tmp : ℕ → UInt32) (s : ℕ) (lim : Int32) (logn : ℕ) : Option (List Int8) :=
  (List.range (1 <<< logn)).mapM fun u =>
    let z := zintOneToPlain (tmp (s + u))
    if z < -lim ∨ z > lim then none else some z.toInt8

/-- The last part of `solve_NTRU`: the NTRU equation modulo the first prime, in NTT representation. -/
def checkNtru (f g F G : List Int8) (logn : ℕ) : Bool :=
  let n := 1 <<< logn
  let p := (rd PRIMES 0).p
  let p0i := modpNinv31 p
  let gm := (modpMkgm2 logn (rd PRIMES 0).g p p0i).1
  let load := fun a : List Int8 => modpNtt2 ((List.range n).map fun u => modpSet (rd a u).toInt32 p) gm logn p p0i
  let Gt := load G
  let ft := load f
  let gt := load g
  let Ft := load F
  let r := modpMontymul 12289 1 p p0i
  (List.range n).all fun u =>
    modpSub (modpMontymul (rd ft u) (rd Gt u) p p0i) (modpMontymul (rd gt u) (rd Ft u) p p0i) p = r

/-- The levels above the deepest one, on the temporary area; `none` is the return value 0. -/
structure Levels where
  /-- `solve_NTRU_intermediate`. -/
  intermediate : (logn : ℕ) → (f g : List Int8) → (depth : ℕ) → (ℕ → UInt32) → Option (ℕ → UInt32)
  /-- `solve_NTRU_binary_depth1`. -/
  binaryDepth1 : (logn : ℕ) → (f g : List Int8) → (ℕ → UInt32) → Option (ℕ → UInt32)
  /-- `solve_NTRU_binary_depth0`. -/
  binaryDepth0 : (logn : ℕ) → (f g : List Int8) → (ℕ → UInt32) → Option (ℕ → UInt32)

section Solver

variable (levels : Levels)

/-- The loop `while (depth -- > low)` of `solve_NTRU`, from `depth = low + k` on. -/
def intermediateLevels (logn : ℕ) (f g : List Int8) (low : ℕ) : ℕ → (ℕ → UInt32) → Option (ℕ → UInt32)
  | 0, tmp => some tmp
  | k + 1, tmp => (levels.intermediate logn f g (low + k) tmp).bind (intermediateLevels logn f g low k)

/-- `solve_NTRU`, with the words of the temporary area before the call. -/
def solveNtru (logn : ℕ) (f g : List Int8) (lim : Int32) (tmp : ℕ → UInt32) : Option (List Int8 × List Int8) :=
  let n := 1 <<< logn
  ((solveNtruDeepest zintBezout (rd MAX_BL_SMALL logn) (deepestResultants logn f g tmp)).toOption.bind fun tmp =>
    if logn ≤ 2 then intermediateLevels levels logn f g 0 logn tmp
    else (intermediateLevels levels logn f g 2 (logn - 2) tmp).bind fun tmp =>
      (levels.binaryDepth1 logn f g tmp).bind (levels.binaryDepth0 logn f g)).bind fun tmp =>
  (polyBigToSmall tmp 0 lim logn).bind fun F =>
  (polyBigToSmall tmp n lim logn).bind fun G =>
  if checkNtru f g F G logn then some (F, G) else none

end Solver

/-! ### The deepest level -/

/-- `zint_bezout`, with the result 0 for the operand that it does not treat. -/
def bezoutUnlessOne : ZintBezout := fun mem u v x y len tmp =>
  if limbValue mem y len = 1 then (mem, false) else zintBezout mem u v x y len tmp

private theorem bezoutUnlessOne_contract : BezoutContract bezoutUnlessOne where
  frame mem u v x y len tmp _ j hu hv ht := by
    unfold bezoutUnlessOne
    split
    · rfl
    · exact zintBezout_frame mem u v x y len tmp j hu hv ht
  cofactors mem u v x y len tmp hsep hx hy _ hyodd hone := by
    unfold bezoutUnlessOne at hone ⊢
    split at hone
    · exact absurd hone Bool.false_ne_true
    · rename_i hne
      rw [if_neg hne]
      obtain ⟨hu, hv, hult, hvlt, heq, -⟩ := zintBezout_cofactors hsep hx hy (Prod.ext rfl hone)
      exact ⟨hu, hv, heq.2 (by omega), hult.le, hvlt.le⟩

section Deepest

variable {len : ℕ} {tmp : ℕ → UInt32}

private theorem checked_bind_congr {r : (ℕ → UInt32) × UInt32} {e : DeepestReject}
    {f f' : (ℕ → UInt32) → Except DeepestReject (ℕ → UInt32)} (h : r.2 = 0 → f r.1 = f' r.1) :
    (checked r e).bind f = (checked r e).bind f' := by
  unfold checked
  split
  · rfl
  · rename_i hz
    exact h (not_not.1 hz)

/-- In the three cases the second operand of `zint_bezout` is not one, if neither the second resultant nor the sum is.
-/
private theorem solveNtruDeepest_unlessOne (hx : IsLimbs tmp (len + len) len) (hy : IsLimbs tmp (len + len + len) len)
    (hone : limbValue tmp (len + len + len) len ≠ 1)
    (hsum : limbValue tmp (len + len) len + limbValue tmp (len + len + len) len ≠ 1) :
    solveNtruDeepest zintBezout len tmp = solveNtruDeepest bezoutUnlessOne len tmp := by
  rw [solveNtruDeepest_eq, solveNtruDeepest_eq]
  cases deepestBranch len tmp with
  | bothEven => rfl
  | oddOdd =>
    simp only [deepestOddOdd, zero_add, bezoutUnlessOne]
    rw [if_neg hone]
  | oddEven =>
    simp only [deepestOddEven, zero_add, bezoutUnlessOne]
    congr 1
    refine checked_bind_congr fun hc => ?_
    obtain ⟨-, hval⟩ := z31Add_spec (d := len + len + len + len) (.inr (.inr (by omega))) (.inr (.inr (by omega))) hy hx
    rw [if_neg (by rw [hval hc]; omega)]
  | evenOdd =>
    simp only [deepestEvenOdd, zero_add, bezoutUnlessOne]
    congr 1
    refine checked_bind_congr fun _ => ?_
    rw [if_neg (by rwa [limbValue_congr fun i hi => z31Add_frame (.inl (by omega))])]

/-- The deepest level solves the equation of the resultants, if they fit into their words. -/
theorem solveNtruDeepest_resultants {logn : ℕ} (hl : logn ≤ 10) {f g : List Int8} (hf : NormsFit logn f)
    (hg : NormsFit logn g) (hlen : rd MAX_BL_SMALL logn = len)
    (hfres : 0 ≤ res (2 ^ logn) (fun u => (rd f u).toInt) ∧
      res (2 ^ logn) (fun u => (rd f u).toInt) < primeProduct PRIMES len)
    (hgres : 0 ≤ res (2 ^ logn) (fun u => (rd g u).toInt) ∧
      res (2 ^ logn) (fun u => (rd g u).toInt) < primeProduct PRIMES len)
    (hone : res (2 ^ logn) (fun u => (rd g u).toInt) ≠ 1)
    (hsum : res (2 ^ logn) (fun u => (rd f u).toInt) + res (2 ^ logn) (fun u => (rd g u).toInt) ≠ 1) {m : ℕ → UInt32}
    (hm : solveNtruDeepest zintBezout len (deepestResultants logn f g tmp) = .ok m) :
    IsLimbs m 0 len ∧ IsLimbs m len len ∧
      res (2 ^ logn) (fun u => (rd f u).toInt) * limbValue m len len -
        res (2 ^ logn) (fun u => (rd g u).toInt) * limbValue m 0 len = 12289 := by
  obtain ⟨hx, hy, hxv, hyv⟩ := deepestResultants_spec hl hf hg tmp hlen
  rw [Int.emod_eq_of_lt hfres.1 hfres.2] at hxv
  rw [Int.emod_eq_of_lt hgres.1 hgres.2] at hyv
  have hpos : 0 < len := by
    rw [← hlen]
    exact (MAX_BL_SMALL_bounds logn hl).1
  rw [← hyv] at hone
  rw [← hxv, ← hyv] at hsum
  rw [solveNtruDeepest_unlessOne hx hy (by exact_mod_cast hone) (by exact_mod_cast hsum)] at hm
  obtain ⟨U, V, hcor, hF, hG, hFv, hGv⟩ := (solveNtruDeepest_yields bezoutUnlessOne_contract hpos hx hy).1 m hm
  have heq := hcor.eq
  zify at heq
  rw [← hxv, ← hyv, hFv, hGv]
  push_cast
  exact ⟨hF, hG, by linear_combination 12289 * heq⟩

end Deepest

theorem solveNtruDeepest_resultants_small : ∃ m : ℕ → UInt32,
    solveNtruDeepest zintBezout 1 (deepestResultants 0 [3] [2] (fun _ => 0)) = .ok m ∧
      (3 * limbValue m 1 1 : ℤ) - 2 * limbValue m 0 1 = 12289 := by
  have hok : (match solveNtruDeepest zintBezout 1 (deepestResultants 0 [3] [2] (fun _ => 0)) with
      | .ok _ => true
      | .error _ => false) = true := by decide +kernel
  have h3 : res (2 ^ 0) (fun u => (rd ([3] : List Int8) u).toInt) = 3 := res_eq_normAt 0 _
  have h2 : res (2 ^ 0) (fun u => (rd ([2] : List Int8) u).toInt) = 2 := res_eq_normAt 0 _
  have hP : (3 : ℤ) < primeProduct PRIMES 1 := by decide
  cases hm : solveNtruDeepest zintBezout 1 (deepestResultants 0 [3] [2] (fun _ => 0)) with
  | error e =>
    rw [hm] at hok
    exact absurd hok Bool.false_ne_true
  | ok m =>
    have hfit : ∀ f, NormsFit 0 f := fun f d hd => absurd hd (Nat.not_lt_zero d)
    have h := (solveNtruDeepest_resultants (Nat.zero_le 10) (hfit [3]) (hfit [2]) rfl
      (by rw [h3]; exact ⟨by norm_num, hP⟩) (by rw [h2]; exact ⟨by norm_num, lt_trans (by norm_num) hP⟩) (by rw [h2]; norm_num)
      (by rw [h3, h2]; norm_num) hm).2.2
    rw [h3, h2] at h
    exact ⟨m, rfl, h⟩

/-! ### The equation -/

/-- The coefficients of a polynomial, as integers. -/
abbrev intCoeffs (f : List Int8) (u : ℕ) : ℤ := (rd f u).toInt

/-- `f * G - g * F = q` modulo `X ^ n + 1`, over the integers. -/
def NtruEquation (logn : ℕ) (f g F G : List Int8) : Prop :=
  ∀ e < 2 ^ logn, mulMod (2 ^ logn) (intCoeffs f) (intCoeffs G) e - mulMod (2 ^ logn) (intCoeffs g) (intCoeffs F) e =
    if e = 0 then 12289 else 0

private theorem abs_conv_le {n : ℕ} {a b : ℕ → ℤ} {A B : ℤ} (ha : ∀ i, |a i| ≤ A) (hb : ∀ i, |b i| ≤ B) (k : ℕ) :
    |conv n a b k| ≤ n * (A * B) := by
  have hterm : ∀ i j, |a i * b j| ≤ A * B := fun i j => by
    rw [abs_mul]
    exact mul_le_mul (ha i) (hb j) (abs_nonneg _) ((abs_nonneg _).trans (ha i))
  unfold conv
  calc |∑ i ∈ Finset.range n, if i ≤ k then a i * b (k - i) else -(a i * b (k + n - i))|
      ≤ ∑ i ∈ Finset.range n, |if i ≤ k then a i * b (k - i) else -(a i * b (k + n - i))| :=
        Finset.abs_sum_le_sum_abs _ _
    _ ≤ ∑ _i ∈ Finset.range n, A * B := by
        refine Finset.sum_le_sum fun i _ => ?_
        split
        · exact hterm _ _
        · rw [abs_neg]
          exact hterm _ _
    _ = n * (A * B) := by rw [Finset.sum_const, Finset.card_range, nsmul_eq_mul]

private theorem abs_intCoeffs_le (f : List Int8) (u : ℕ) : |intCoeffs f u| ≤ 128 := by
  have h1 := (rd f u).le_toInt
  have h2 := (rd f u).toInt_lt
  rw [abs_le]
  constructor
  · linarith
  · linarith

/-- The two sides differ by less than the prime. -/
private theorem abs_products_le {logn : ℕ} (hl : logn ≤ 10) (f g F G : List Int8) {e : ℕ} (he : e < 2 ^ logn) :
    |mulMod (2 ^ logn) (intCoeffs f) (intCoeffs G) e - mulMod (2 ^ logn) (intCoeffs g) (intCoeffs F) e| ≤ 2 ^ 25 := by
  have hn : ((2 ^ logn : ℕ) : ℤ) ≤ 2 ^ 10 := by exact_mod_cast Nat.pow_le_pow_right (by omega) hl
  rw [mulMod_eq_conv _ _ he, mulMod_eq_conv _ _ he]
  have h1 := abs_conv_le (n := 2 ^ logn) (abs_intCoeffs_le f) (abs_intCoeffs_le G) e
  have h2 := abs_conv_le (n := 2 ^ logn) (abs_intCoeffs_le g) (abs_intCoeffs_le F) e
  have h3 := abs_sub (conv (2 ^ logn) (intCoeffs f) (intCoeffs G) e) (conv (2 ^ logn) (intCoeffs g) (intCoeffs F) e)
  linarith

section Check

variable {q : SmallPrime} {P logn : ℕ} (hq : IsSmallPrime q P)
include hq

/-- The transform modulo the prime determines a polynomial with integer coefficients modulo the prime. -/
theorem IsSmallPrime.fwd_intCast_iff (hl : logn ≤ 10) (a b : ℕ → ℤ) :
    (∀ e < 2 ^ logn, fwd (twiddleOf (toZp q.p q.g)) logn logn (fun e => (a e : ZMod q.p.toNat)) e =
      fwd (twiddleOf (toZp q.p q.g)) logn logn (fun e => (b e : ZMod q.p.toNat)) e) ↔
    ∀ e < 2 ^ logn, (a e : ZMod q.p.toNat) = b e := by
  have hu : (2 : ZMod q.p.toNat) ^ logn * (2 ^ (31 - logn) * (2 ^ 31)⁻¹) = 1 := by
    rw [← mul_assoc, ← pow_add, Nat.add_sub_cancel' (by omega)]
    exact radix_mul_inv_of hq.isModulus
  exact ⟨fun h e he => eq_of_fwd_eq hu (fun i _ _ => twiddleOf_mul hq.root_mul i) h he,
    fun h e he => fwd_congr le_rfl h he⟩

/-- The transform of the difference of the two products. -/
private theorem IsSmallPrime.fwd_products (hl : logn ≤ 10) (a b c d : ℕ → ℤ) {u : ℕ} (hu : u < 2 ^ logn) :
    fwd (twiddleOf (toZp q.p q.g)) logn logn
        (fun e => ((mulMod (2 ^ logn) a b e - mulMod (2 ^ logn) c d e : ℤ) : ZMod q.p.toNat)) u =
      fwd (twiddleOf (toZp q.p q.g)) logn logn (fun e => (a e : ZMod q.p.toNat)) u *
        fwd (twiddleOf (toZp q.p q.g)) logn logn (fun e => (b e : ZMod q.p.toNat)) u -
      fwd (twiddleOf (toZp q.p q.g)) logn logn (fun e => (c e : ZMod q.p.toNat)) u *
        fwd (twiddleOf (toZp q.p q.g)) logn logn (fun e => (d e : ZMod q.p.toNat)) u := by
  have hlo := hq.lower
  have : Fact (1 < q.p.toNat) := ⟨by omega⟩
  have htable := isTable_twiddleOf hq.root_pow hl
  have hcast : ∀ x y : ℕ → ℤ, ∀ e < 2 ^ logn, ((mulMod (2 ^ logn) x y e : ℤ) : ZMod q.p.toNat) =
      mulMod (2 ^ logn) (fun e => (x e : ZMod q.p.toNat)) (fun e => (y e : ZMod q.p.toNat)) e := by
    intro x y e he
    rw [mulMod_eq_conv _ _ he, mulMod_eq_conv _ _ he]
    exact map_conv (Int.castRingHom (ZMod q.p.toNat)) _ x y e
  rw [← fwd_mulMod htable _ _ hu, ← fwd_mulMod htable _ _ hu, fwd_eq_sum htable _ hu, fwd_eq_sum htable _ hu,
    fwd_eq_sum htable _ hu, ← Finset.sum_sub_distrib]
  refine Finset.sum_congr rfl fun e he => ?_
  have he' := Finset.mem_range.1 he
  rw [Int.cast_sub, hcast a b e he', hcast c d e he', sub_mul]

/-- The comparison of one entry. -/
theorem IsSmallPrime.montymul_sub_eq_iff {a b c d : UInt32} (ha : Below q.p a) (hb : Below q.p b) (hc : Below q.p c)
    (hd : Below q.p d) :
    modpSub (modpMontymul a b q.p (modpNinv31 q.p)) (modpMontymul c d q.p (modpNinv31 q.p)) q.p =
      modpMontymul 12289 1 q.p (modpNinv31 q.p) ↔ toZp q.p a * toZp q.p b - toZp q.p c * toZp q.p d = 12289 := by
  have hlo := hq.lower
  have hm := hq.isModulus
  have hR := radix_mul_inv_of hm
  have hq1 : Below q.p 12289 := lt_trans (by decide) hlo
  have hq2 : Below q.p 1 := lt_trans (by decide) hlo
  obtain ⟨h1, h1'⟩ := modpMontymul_spec hm ha hb
  obtain ⟨h2, h2'⟩ := modpMontymul_spec hm hc hd
  obtain ⟨h3, h3'⟩ := modpMontymul_spec hm hq1 hq2
  obtain ⟨h4, h4'⟩ := modpSub_spec hm h1 h2
  rw [h1', h2', ← sub_mul] at h4'
  have hr : toZp q.p 12289 * toZp q.p 1 * (2 ^ 31)⁻¹ = 12289 * (2 ^ 31)⁻¹ := by
    unfold toZp
    simp
  rw [hr] at h3'
  constructor
  · intro h
    rw [h, h3'] at h4'
    linear_combination (2 ^ 31) * (h4'.symm) - (toZp q.p a * toZp q.p b - toZp q.p c * toZp q.p d - 12289) * hR
  · intro h
    rw [h, ← h3'] at h4'
    have hval := toNat_eq_of_toZp h4 h4'
    rw [Nat.mod_eq_of_lt h3] at hval
    exact UInt32.toNat_inj.1 hval

end Check

/-- The check modulo the prime is exact. -/
theorem checkNtru_iff {logn : ℕ} (hl : logn ≤ 10) (f g F G : List Int8) :
    checkNtru f g F G logn = true ↔ NtruEquation logn f g F G := by
  have hq : IsSmallPrime (rd PRIMES 0) (primeProduct PRIMES 0) := isPrimes_PRIMES 0 (by norm_num)
  have hlo := hq.lower
  have : Fact (1 < (rd PRIMES 0).p.toNat) := ⟨by omega⟩
  have htable := isTable_twiddleOf hq.root_pow hl
  have hrep := fun a : List Int8 => modpNtt2_rep hq.isModulus (hq.tables hl).1 (modpSet_column hq a logn)
  simp only [Nat.shiftLeft_eq, one_mul] at hrep
  have hconst : ∀ u < 2 ^ logn, fwd (twiddleOf (toZp (rd PRIMES 0).p (rd PRIMES 0).g)) logn logn
      (fun e => (((if e = 0 then 12289 else 0 : ℤ) : ℤ) : ZMod (rd PRIMES 0).p.toNat)) u = 12289 := by
    intro u hu
    have h1 := fwd_one htable hu
    rw [fwd_eq_sum htable _ hu] at h1 ⊢
    have h12289 := congrArg (12289 * ·) h1
    simp only [mul_one, Finset.mul_sum] at h12289
    rw [← h12289]
    refine Finset.sum_congr rfl fun e _ => ?_
    split
    · push_cast
      ring
    · push_cast
      ring
  have hcheck : checkNtru f g F G logn = true ↔ ∀ u < 2 ^ logn,
      fwd (twiddleOf (toZp (rd PRIMES 0).p (rd PRIMES 0).g)) logn logn
        (fun e => ((mulMod (2 ^ logn) (intCoeffs f) (intCoeffs G) e -
          mulMod (2 ^ logn) (intCoeffs g) (intCoeffs F) e : ℤ) : ZMod (rd PRIMES 0).p.toNat)) u =
      fwd (twiddleOf (toZp (rd PRIMES 0).p (rd PRIMES 0).g)) logn logn
        (fun e => (((if e = 0 then 12289 else 0 : ℤ) : ℤ) : ZMod (rd PRIMES 0).p.toNat)) u := by
    simp only [checkNtru, List.all_eq_true, List.mem_range, decide_eq_true_eq]
    rw [Nat.shiftLeft_eq, one_mul]
    refine forall₂_congr fun u hu => ?_
    rw [hq.fwd_products hl _ _ _ _ hu, hconst u hu,
      hq.montymul_sub_eq_iff ((hrep f).ok_rd u hu) ((hrep G).ok_rd u hu) ((hrep g).ok_rd u hu) ((hrep F).ok_rd u hu),
      (hrep f).val_rd u hu, (hrep G).val_rd u hu, (hrep g).val_rd u hu, (hrep F).val_rd u hu]
    rfl
  rw [hcheck, hq.fwd_intCast_iff hl]
  refine forall₂_congr fun e he => ?_
  rw [ZMod.intCast_eq_intCast_iff_dvd_sub]
  have hle := abs_le.1 (abs_products_le hl f g F G he)
  constructor
  · intro hdvd
    have hzero := Int.eq_zero_of_abs_lt_dvd hdvd (by
      rw [abs_lt]
      split <;> constructor <;> omega)
    exact (sub_eq_zero.1 hzero).symm
  · intro h
    rw [h, sub_self]
    exact dvd_zero _

/-! ### The solver -/

/-- The coefficients that are returned are within the limit. -/
theorem polyBigToSmall_spec {tmp : ℕ → UInt32} {s logn : ℕ} {lim : Int32} {F : List Int8}
    (hlim : 0 ≤ lim.toInt ∧ lim.toInt ≤ 127) (h : polyBigToSmall tmp s lim logn = some F) :
    F.length = 2 ^ logn ∧ ∀ c ∈ F, |c.toInt| ≤ lim.toInt := by
  unfold polyBigToSmall at h
  rw [Nat.shiftLeft_eq, one_mul] at h
  obtain ⟨hlen, hmem⟩ := of_mapM_eq_some h
  refine ⟨by rw [hlen, List.length_range], fun c hc => ?_⟩
  obtain ⟨u, -, hu⟩ := hmem c hc
  simp only at hu
  split at hu
  · exact absurd hu (by simp)
  · rename_i hz
    obtain rfl := Option.some.inj hu
    rw [not_or, Int32.lt_iff_toInt_lt, gt_iff_lt, Int32.lt_iff_toInt_lt, Int32.toInt_neg,
      Int.bmod_eq_of_le (by omega) (by omega)] at hz
    rw [Int32.toInt_toInt8, Int.bmod_eq_of_le (by omega) (by omega)]
    exact abs_le.2 ⟨by omega, by omega⟩

/-- Whatever the levels leave in the temporary area, polynomials that are returned have their coefficients within the
limit and solve the NTRU equation. -/
theorem solveNtru_spec {levels : Levels} {logn : ℕ} (hl : logn ≤ 10) {f g F G : List Int8} {lim : Int32}
    (hlim : 0 ≤ lim.toInt ∧ lim.toInt ≤ 127) {tmp : ℕ → UInt32} (h : solveNtru levels logn f g lim tmp = some (F, G)) :
    (F.length = 2 ^ logn ∧ ∀ c ∈ F, |c.toInt| ≤ lim.toInt) ∧ (G.length = 2 ^ logn ∧ ∀ c ∈ G, |c.toInt| ≤ lim.toInt) ∧
      NtruEquation logn f g F G := by
  unfold solveNtru at h
  simp only at h
  obtain ⟨tmp', -, h⟩ := Option.bind_eq_some_iff.1 h
  obtain ⟨F', hF, h⟩ := Option.bind_eq_some_iff.1 h
  obtain ⟨G', hG, h⟩ := Option.bind_eq_some_iff.1 h
  split at h
  · rename_i hcheck
    obtain ⟨rfl, rfl⟩ := Prod.mk.inj (Option.some.inj h)
    exact ⟨polyBigToSmall_spec hlim hF, polyBigToSmall_spec hlim hG, (checkNtru_iff hl _ _ _ _).1 hcheck⟩
  · exact absurd h (by simp)

end DfVrf.Crypto
