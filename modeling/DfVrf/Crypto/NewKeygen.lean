import DfVrf.Crypto.KeyCodec
import DfVrf.Crypto.Mkgauss
import DfVrf.Crypto.Norm
import DfVrf.Crypto.PrivateKey
import DfVrf.Crypto.SolveNtru
import DfVrf.Lib.NormBound

/-!
# The new key generator (`keygen.c`)

`Zf(new_keygen)` draws `f` and `g` from a byte stream, with coefficient sums of opposite parity, until all checks pass
and `solve_NTRU` succeeds.

* `newKeygen_calls`: what the vectors that are handed to `solve_NTRU` satisfy.
* `newKeygen_parity`: the parities, and the branches of `solve_NTRU_deepest`.
* `newKeygen_spec`: a key that is returned solves the NTRU equation, and its public key is the quotient.
-/

namespace DfVrf.Crypto

open InPlace Negacyclic

/-! ### The checks -/

/-- `poly_small_sqnorm`. -/
def polySmallSqnorm (f : List Int8) (logn : ℕ) : UInt32 :=
  let st := (List.range (1 <<< logn)).foldl (fun (st : UInt32 × UInt32) u =>
    let z := (rd f u).toInt32
    let s := st.1 + (z * z).toUInt32
    (s, st.2 ||| s)) (0, 0)
  st.1 ||| -(st.2 >>> 31)

/-- `Zf(compute_public)`. -/
def computePublic (f g : List Int8) (logn : ℕ) : Option (List UInt16) :=
  let h := mqNtt (g.map fun x => (mqConvSmall x.toInt32).toUInt16) logn
  let tt := mqNtt (f.map fun x => (mqConvSmall x.toInt32).toUInt16) logn
  if tt.any (· == 0) then none
  else some (mqINtt (List.zipWith (fun x y => (mqDiv12289 x.toUInt32 y.toUInt32).toUInt16) h tt) logn)

/-- The check of the coefficients against `lim`. -/
def coeffsBelow (f g : List Int8) (logn : ℕ) : Bool :=
  let lim : ℤ := 1 <<< (rd maxFgBits logn - 1)
  (List.range (1 <<< logn)).all fun u =>
    (rd f u).toInt < lim ∧ -lim < (rd f u).toInt ∧ (rd g u).toInt < lim ∧ -lim < (rd g u).toInt

/-- The check of the squared norm of `(g, -f)`. -/
def normBelow (f g : List Int8) (logn : ℕ) : Bool :=
  let normf := polySmallSqnorm f logn
  let normg := polySmallSqnorm g logn
  let norm := (normf + normg) ||| -((normf ||| normg) >>> 31)
  norm < 16823

/-! ### The loop -/

/-- `f`, `g`, `F`, `G` and `h`. -/
structure NtruKey where
  f : List Int8
  g : List Int8
  F : List Int8
  G : List Int8
  h : List UInt16

/-- The vectors `f` and `g` of an iteration of `Zf(new_keygen)`. -/
def newKeygenDraw (logn fuel : ℕ) (rng : Rng) : Option (List Int8 × List Int8 × Rng) :=
  let r := extractBytes rng 1
  let bb := rd r.1 0
  let pf := (bb &&& 1).toUInt32.toInt32
  let pg := pf ^^^ 1
  (polySmallMkgaussChoose fuel r.2 logn pf).bind fun rf =>
  (polySmallMkgaussChoose fuel rf.2 logn pg).map fun rg => (rf.1, rg.1, rg.2)

/-- What is computed in floating point, and the temporary area. -/
structure KeygenEnv where
  /-- The comparison of the norm of the orthogonalized vector with `fpr_bnorm_max`. -/
  bnormLt : List Int8 → List Int8 → Bool
  levels : Levels
  /-- The words of the temporary area when `solve_NTRU` is called. -/
  tmp : List Int8 → List Int8 → ℕ → UInt32

section Loop

variable (env : KeygenEnv)

/-- `Zf(new_keygen)`, with at most `iters` iterations: the pairs that are handed to `solve_NTRU`, in order, and the key
if the loop ends. -/
def newKeygen (logn fuel : ℕ) : ℕ → Rng → List (List Int8 × List Int8) × Option NtruKey
  | 0, _ => ([], none)
  | iters + 1, rng =>
    match newKeygenDraw logn fuel rng with
    | none => ([], none)
    | some (f, g, rng) =>
      if !coeffsBelow f g logn then newKeygen logn fuel iters rng
      else if !normBelow f g logn then newKeygen logn fuel iters rng
      else if !env.bnormLt f g then newKeygen logn fuel iters rng
      else
        match computePublic f g logn with
        | none => newKeygen logn fuel iters rng
        | some h =>
          let lim := Int32.ofNat ((1 <<< (rd maxFGBits logn - 1)) - 1)
          match solveNtru env.levels logn f g lim (env.tmp f g) with
          | none =>
            let r := newKeygen logn fuel iters rng
            ((f, g) :: r.1, r.2)
          | some (F, G) => ([(f, g)], some ⟨f, g, F, G, h⟩)

end Loop

/-! ### The calls of the solver -/

/-- What the vectors that are handed to `solve_NTRU` satisfy. -/
structure Handed (env : KeygenEnv) (logn : ℕ) (f g : List Int8) : Prop where
  lengths : f.length = 1 <<< logn ∧ g.length = 1 <<< logn
  range : (∀ c ∈ f, |c.toInt| ≤ coeffBound logn) ∧ ∀ c ∈ g, |c.toInt| ≤ coeffBound logn
  opposite : (coeffSum f + coeffSum g) % 2 = 1
  coeffs : coeffsBelow f g logn = true
  norm : normBelow f g logn = true
  bnorm : env.bnormLt f g = true
  invertible : (computePublic f g logn).isSome = true

/-- The two requested parities are opposite. -/
theorem newKeygenDraw_spec {logn fuel : ℕ} {rng rng' : Rng} {f g : List Int8}
    (h : newKeygenDraw logn fuel rng = some (f, g, rng')) : (f.length = 1 <<< logn ∧ g.length = 1 <<< logn) ∧
      ((∀ c ∈ f, |c.toInt| ≤ coeffBound logn) ∧ ∀ c ∈ g, |c.toInt| ≤ coeffBound logn) ∧
      (coeffSum f + coeffSum g) % 2 = 1 := by
  unfold newKeygenDraw at h
  obtain ⟨⟨f', rng1⟩, hf, h⟩ := Option.bind_eq_some_iff.1 h
  obtain ⟨⟨g', rng2⟩, hg, heq⟩ := Option.map_eq_some_iff.1 h
  simp only [Prod.mk.injEq] at hg heq
  obtain ⟨rfl, rfl, -⟩ := heq
  obtain ⟨hf1, hf2, hf3⟩ := polySmallMkgaussChoose_spec hf
  obtain ⟨hg1, hg2, hg3⟩ := polySmallMkgaussChoose_spec hg
  refine ⟨⟨hf1, hg1⟩, ⟨hf2, hg2⟩, ?_⟩
  have hbit : rd (extractBytes rng 1).1 0 &&& 1 = 0 ∨ rd (extractBytes rng 1).1 0 &&& 1 = 1 := by
    have hmod : (rd (extractBytes rng 1).1 0 &&& 1).toNat = (rd (extractBytes rng 1).1 0).toNat % 2 := by
      rw [UInt8.toNat_and, show (1 : UInt8).toNat = 2 ^ 1 - 1 from rfl, Nat.and_two_pow_sub_one_eq_mod]
    rcases (show (rd (extractBytes rng 1).1 0 &&& 1).toNat = 0 ∨ (rd (extractBytes rng 1).1 0 &&& 1).toNat = 1 by omega)
      with hb | hb
    · exact .inl (UInt8.toNat_inj.1 hb)
    · exact .inr (UInt8.toNat_inj.1 hb)
  rcases hbit with hb | hb
  · rw [hb, show (0 : UInt8).toUInt32.toInt32.toInt % 2 = 0 from rfl] at hf3
    rw [hb, show ((0 : UInt8).toUInt32.toInt32 ^^^ 1).toInt % 2 = 1 from rfl] at hg3
    omega
  · rw [hb, show (1 : UInt8).toUInt32.toInt32.toInt % 2 = 1 from rfl] at hf3
    rw [hb, show ((1 : UInt8).toUInt32.toInt32 ^^^ 1).toInt % 2 = 0 from rfl] at hg3
    omega

section Calls

variable {env : KeygenEnv} {logn fuel iters : ℕ} {rng : Rng}

/-- Every pair that is handed to `solve_NTRU` has passed the checks. -/
theorem newKeygen_calls {f g : List Int8} (h : (f, g) ∈ (newKeygen env logn fuel iters rng).1) :
    Handed env logn f g := by
  induction iters generalizing rng with
  | zero => exact absurd h List.not_mem_nil
  | succ iters ih =>
    unfold newKeygen at h
    split at h
    · exact absurd h List.not_mem_nil
    · rename_i f' g' rng' hdraw
      obtain ⟨h1, h2, h3⟩ := newKeygenDraw_spec hdraw
      split at h
      · exact ih h
      rename_i hc
      split at h
      · exact ih h
      rename_i hn
      split at h
      · exact ih h
      rename_i hb
      split at h
      · exact ih h
      · rename_i pk hpk
        rw [Bool.not_eq_true', Bool.not_eq_false] at hc hn hb
        have hpair : Handed env logn f' g' := ⟨h1, h2, h3, hc, hn, hb, by rw [hpk]; rfl⟩
        simp only at h
        split at h
        · rcases List.mem_cons.1 h with heq | h
          · obtain ⟨rfl, rfl⟩ := Prod.mk.inj heq
            exact hpair
          · exact ih h
        · obtain ⟨rfl, rfl⟩ := Prod.mk.inj (List.mem_singleton.1 h)
          exact hpair

/-- The key that is returned is made of the last pair that is handed to `solve_NTRU`. -/
theorem newKeygen_key {key : NtruKey} (h : (newKeygen env logn fuel iters rng).2 = some key) :
    (key.f, key.g) ∈ (newKeygen env logn fuel iters rng).1 ∧ computePublic key.f key.g logn = some key.h ∧
      solveNtru env.levels logn key.f key.g (Int32.ofNat ((1 <<< (rd maxFGBits logn - 1)) - 1)) (env.tmp key.f key.g) =
        some (key.F, key.G) := by
  induction iters generalizing rng with
  | zero => exact absurd h (by simp [newKeygen])
  | succ iters ih =>
    unfold newKeygen at h ⊢
    split at h
    · exact absurd h (by simp)
    · rename_i f' g' rng' hdraw
      split at h
      · rename_i hc
        rw [if_pos hc]
        exact ih h
      rename_i hc
      rw [if_neg hc]
      split at h
      · rename_i hn
        rw [if_pos hn]
        exact ih h
      rename_i hn
      rw [if_neg hn]
      split at h
      · rename_i hb
        rw [if_pos hb]
        exact ih h
      rename_i hb
      rw [if_neg hb]
      split at h
      · exact ih h
      · rename_i pk hpk
        simp only at h ⊢
        split at h
        · obtain ⟨k1, k2⟩ := ih h
          exact ⟨List.mem_cons_of_mem _ k1, k2⟩
        · rename_i F G hsolve
          obtain rfl := Option.some.inj h
          exact ⟨List.mem_singleton.2 rfl, hpk, hsolve⟩

end Calls

/-! ### The resultants -/

section Fits

/-- The norms that are rebuilt on the way fit into their words, and so does the resultant. -/
def Fits (logn : ℕ) (f : List Int8) : Prop :=
  NormsFit logn f ∧ res (2 ^ logn) (fun u => (rd f u).toInt) < primeProduct PRIMES (rd MAX_BL_SMALL logn)

private theorem sum_rd (f : List Int8) {n : ℕ} (h : f.length = n) :
    ∑ u ∈ Finset.range n, (rd f u).toInt = coeffSum f := by
  subst h
  unfold coeffSum
  induction f with
  | nil => rfl
  | cons c f ih =>
    rw [List.length_cons, Finset.sum_range_succ', List.map_cons, List.sum_cons, ← ih, add_comm]
    rfl

/-- The accumulation of the squared norm saturates. -/
private theorem saturates_polySmallSqnorm (f : List Int8) (logn : ℕ) :
    ∃ (st : UInt32 × UInt32) (T : ℕ), polySmallSqnorm f logn = st.1 ||| -(st.2 >>> 31) ∧ Saturates st T ∧
      (T : ℤ) = ∑ u ∈ Finset.range (2 ^ logn), (rd f u).toInt ^ 2 := by
  have hstep : ∀ n, Saturates ((List.range n).foldl (fun (st : UInt32 × UInt32) u =>
      let z := (rd f u).toInt32
      let s := st.1 + (z * z).toUInt32
      (s, st.2 ||| s)) (0, 0)) (∑ u ∈ Finset.range n, sq (rd f u).toInt16) := by
    intro n
    induction n with
    | zero => exact .inl ⟨by norm_num, rfl, show (0 : UInt32).toNat < 2 ^ 31 by decide⟩
    | succ n ih =>
      rw [List.range_succ, List.foldl_append, Finset.sum_range_succ]
      have h := ih.step (rd f n).toInt16
      unfold isShortStep at h
      rwa [Int8.toInt32_toInt16] at h
  refine ⟨_, _, rfl, hstep _, ?_⟩
  rw [Nat.shiftLeft_eq, one_mul, Nat.cast_sum]
  refine Finset.sum_congr rfl fun u _ => ?_
  rw [sq, Nat.cast_pow, Int.natCast_natAbs, sq_abs, Int8.toInt_toInt16]

/-- The check of the squared norm is exact. -/
theorem normBelow_iff (f g : List Int8) (logn : ℕ) : normBelow f g logn = true ↔
    ∑ u ∈ Finset.range (2 ^ logn), (rd f u).toInt ^ 2 + ∑ u ∈ Finset.range (2 ^ logn), (rd g u).toInt ^ 2 < 16823 := by
  obtain ⟨st, T, hf, hs, hT⟩ := saturates_polySmallSqnorm f logn
  obtain ⟨st', T', hg, hs', hT'⟩ := saturates_polySmallSqnorm g logn
  have hnf := hs.toNat
  have hng := hs'.toNat
  rw [← hf] at hnf
  rw [← hg] at hng
  have hor := two_pow_31_le_or (polySmallSqnorm f logn) (polySmallSqnorm g logn)
  rw [← hT, ← hT']
  simp only [normBelow, decide_eq_true_eq]
  rw [neg_shift_31, UInt32.lt_iff_toNat_lt, show (16823 : UInt32).toNat = 16823 from rfl]
  split
  · rw [UInt32.or_zero, UInt32.toNat_add]
    omega
  · have hall : 2 ^ 31 ≤ (polySmallSqnorm f logn + polySmallSqnorm g logn ||| 0xFFFFFFFF).toNat :=
      (two_pow_31_le_or _ _).2 (.inr (by decide))
    omega

/-- Exactly one of the resultants is odd. -/
private theorem Handed.resultants {env : KeygenEnv} {logn : ℕ} {f g : List Int8} (h : Handed env logn f g) :
    (res (2 ^ logn) (fun u => (rd f u).toInt) + res (2 ^ logn) (fun u => (rd g u).toInt)) % 2 = 1 := by
  have hf := res_emod_two logn fun u => (rd f u).toInt
  have hg := res_emod_two logn fun u => (rd g u).toInt
  have hlen : ∀ {a : List Int8}, a.length = 1 <<< logn → a.length = 2 ^ logn := by
    intro a ha
    rwa [Nat.shiftLeft_eq, one_mul] at ha
  rw [sum_rd f (hlen h.lengths.1)] at hf
  rw [sum_rd g (hlen h.lengths.2)] at hg
  have hopp := h.opposite
  omega

/-- Up to degree 16 the lengths are enough for all vectors that pass the check of the norm. -/
private theorem bound_check : ∀ logn ≤ 4, ∀ d ≤ logn,
    4 * (2 ^ (logn - d) * 16822) ^ 2 ^ d < primeProduct PRIMES (rd MAX_BL_SMALL d) ^ 2 := by decide +kernel

private theorem fits_of_sq_lt {f : List Int8} {logn : ℕ} (hl : logn ≤ 4)
    (h : ∑ u ∈ Finset.range (2 ^ logn), (rd f u).toInt ^ 2 < 16823) : Fits logn f := by
  have hall : ∀ d ≤ logn, ∀ v < 2 ^ (logn - d),
      2 * |normAt logn (fun u => (rd f u).toInt) d v| < primeProduct PRIMES (rd MAX_BL_SMALL d) := by
    intro d hd v hv
    have hsq := normAt_sq_le logn (fun u => (rd f u).toInt) hd hv
    have hcheck := bound_check logn hl d hd
    zify at hcheck
    refine lt_of_pow_lt_pow_left₀ 2 (by positivity) ?_
    rw [mul_pow, sq_abs]
    calc 2 ^ 2 * normAt logn (fun u => (rd f u).toInt) d v ^ 2
        ≤ 2 ^ 2 * (2 ^ (logn - d) * 16822) ^ 2 ^ d := by
          refine mul_le_mul_of_nonneg_left (hsq.trans ?_) (by norm_num)
          refine pow_le_pow_left₀ (by positivity) (mul_le_mul_of_nonneg_left (by linarith) (by positivity)) _
      _ < _ := by exact_mod_cast hcheck
  refine ⟨fun d hd => hall d hd.le, ?_⟩
  have hres := hall logn le_rfl 0 (by positivity)
  rw [← res_eq_normAt] at hres
  linarith [le_abs_self (res (2 ^ logn) fun u => (rd f u).toInt),
    abs_nonneg (res (2 ^ logn) fun u => (rd f u).toInt)]

/-- If the norms fit, the lowest bits that `solve_NTRU_deepest` tests are the parities of the coefficient sums. -/
private theorem deepestBranch_of_fits {logn : ℕ} (h1 : 1 ≤ logn) (h10 : logn ≤ 10) {f g : List Int8} (hf : Fits logn f)
    (hg : Fits logn g)
    (hodd : (res (2 ^ logn) (fun u => (rd f u).toInt) + res (2 ^ logn) (fun u => (rd g u).toInt)) % 2 = 1)
    (tmp : ℕ → UInt32) :
    deepestBranch (rd MAX_BL_SMALL logn) (deepestResultants logn f g tmp) = .oddEven ∨
      deepestBranch (rd MAX_BL_SMALL logn) (deepestResultants logn f g tmp) = .evenOdd := by
  obtain ⟨-, -, hx, hy⟩ := deepestResultants_spec h10 hf.1 hg.1 tmp rfl
  rw [Int.emod_eq_of_lt (res_nonneg h1 _) hf.2] at hx
  rw [Int.emod_eq_of_lt (res_nonneg h1 _) hg.2] at hy
  refine deepestBranch_of_odd (MAX_BL_SMALL_bounds logn h10).1 ?_
  omega

/-- Whatever the stream, a pair that is handed to `solve_NTRU` has coefficient sums, and hence resultants, of opposite
parity.  The branches of `solve_NTRU_deepest` for two even and for two odd resultants are not taken up to degree 16, nor
above if the norms of both vectors fit into their words. -/
theorem newKeygen_parity {logn : ℕ} (h1 : 1 ≤ logn) (h10 : logn ≤ 10) {fuel iters : ℕ} {env : KeygenEnv} {rng : Rng}
    {f g : List Int8} (h : (f, g) ∈ (newKeygen env logn fuel iters rng).1) :
    (coeffSum f + coeffSum g) % 2 = 1 ∧
      (res (2 ^ logn) (fun u => (rd f u).toInt) + res (2 ^ logn) (fun u => (rd g u).toInt)) % 2 = 1 ∧
      (logn ≤ 4 ∨ (Fits logn f ∧ Fits logn g) → ∀ tmp,
        deepestBranch (rd MAX_BL_SMALL logn) (deepestResultants logn f g tmp) = .oddEven ∨
          deepestBranch (rd MAX_BL_SMALL logn) (deepestResultants logn f g tmp) = .evenOdd) := by
  have hcall := newKeygen_calls h
  have hodd := hcall.resultants
  refine ⟨hcall.opposite, hodd, fun hfits tmp => ?_⟩
  have hboth : Fits logn f ∧ Fits logn g := by
    rcases hfits with h4 | hfits
    · have hnorm := (normBelow_iff f g logn).1 hcall.norm
      have hpos : ∀ a : List Int8, 0 ≤ ∑ u ∈ Finset.range (2 ^ logn), (rd a u).toInt ^ 2 := fun a =>
        Finset.sum_nonneg fun _ _ => sq_nonneg _
      exact ⟨fits_of_sq_lt h4 (by linarith [hpos g]), fits_of_sq_lt h4 (by linarith [hpos f])⟩
    · exact hfits
  exact deepestBranch_of_fits h1 h10 hboth.1 hboth.2 hodd tmp

end Fits

/-! ### The public key -/

/-- The polynomial over `ℤ_q` of a vector. -/
abbrev zqCoeffs (f : List Int8) (e : ℕ) : Zq := ofInt8 (rd f e)

/-- `h` is reduced and satisfies `f * h = g` modulo `q` and `X ^ n + 1`. -/
structure IsPublicKey (logn : ℕ) (f g : List Int8) (h : List UInt16) : Prop where
  length : h.length = 2 ^ logn
  reduced : ∀ w ∈ h, w.toNat < 12289
  quotient : ∀ e < 2 ^ logn, mulMod (2 ^ logn) (zqCoeffs f) (fun e => toZq (rd h e).toUInt32) e = zqCoeffs g e

theorem IsPublicKey.rep {logn : ℕ} {f g : List Int8} {h : List UInt16} (hh : IsPublicKey logn f g h) :
    Rep (2 ^ logn) h (fun e => toZq (rd h e).toUInt32) := by
  refine Represents.of_forall_mem hh.length fun w hw => ?_
  rw [Reduced, UInt16.toNat_toUInt32]
  exact hh.reduced w hw

section PublicKey

variable {logn : ℕ} (hl : logn ≤ 10)

private theorem exists_two_pow_mul (logn : ℕ) : ∃ u : Zq, 2 ^ logn * u = 1 := by
  obtain ⟨-, h⟩ := mqNInv_spec logn
  exact ⟨2304 * toZq (mqNInv logn), by linear_combination 2304 * h + radix_mul_inv⟩

include hl in
/-- A polynomial is invertible exactly if its transform has no zero. -/
theorem exists_isInverse_iff (a : ℕ → Zq) :
    (∃ b, IsInverse (2 ^ logn) a b) ↔ ∀ e < 2 ^ logn, fwd twiddle logn logn a e ≠ 0 := by
  have := Fact.mk prime_q
  obtain ⟨u, hu⟩ := exists_two_pow_mul logn
  have hiff := isInverse_iff hu (isTable_twiddle hl) (twiddle_inv hl) a
  constructor
  · rintro ⟨b, hb⟩ e he h0
    have h1 := (hiff b).1 hb e he
    rw [h0, zero_mul] at h1
    exact zero_ne_one h1
  · intro hne
    obtain ⟨b, hb⟩ := exists_fwd_eq hu (twiddle_inv hl) fun e => (fwd twiddle logn logn a e)⁻¹
    refine ⟨b, (hiff b).2 fun e he => ?_⟩
    rw [hb e he]
    exact mul_inv_cancel₀ (hne e he)

include hl in
/-- Two public keys of an invertible polynomial are equal. -/
theorem IsPublicKey.unique {f g : List Int8} {h h' : List UInt16}
    (hne : ∀ e < 2 ^ logn, fwd twiddle logn logn (zqCoeffs f) e ≠ 0) (hh : IsPublicKey logn f g h)
    (hh' : IsPublicKey logn f g h') : h = h' := by
  have := Fact.mk prime_q
  obtain ⟨u, hu⟩ := exists_two_pow_mul logn
  refine hh.rep.unique (hh'.rep.congr fun e he => ?_)
  refine eq_of_fwd_eq (a := fun e => toZq (rd h' e).toUInt32) (b := fun e => toZq (rd h e).toUInt32) hu (twiddle_inv hl)
    (fun e he => ?_) he
  refine mul_left_cancel₀ (hne e he) ?_
  rw [← fwd_mulMod (isTable_twiddle hl) _ _ he, ← fwd_mulMod (isTable_twiddle hl) _ _ he]
  exact fwd_congr le_rfl (fun e he => (hh'.quotient e he).trans (hh.quotient e he).symm) he

include hl in
/-- `compute_public` returns the quotient of `g` and `f`, and fails exactly if `f` is not invertible. -/
theorem computePublic_iff {f g : List Int8} (hf : f.length = 2 ^ logn) (hg : g.length = 2 ^ logn) (h : List UInt16) :
    computePublic f g logn = some h ↔ (∃ b, IsInverse (2 ^ logn) (zqCoeffs f) b) ∧ IsPublicKey logn f g h := by
  have := Fact.mk prime_q
  obtain ⟨u, hu⟩ := exists_two_pow_mul logn
  have htt := mqNtt_rep hl (map_mqConvSmall_rep hf)
  have hht := mqNtt_rep hl (map_mqConvSmall_rep hg)
  rw [exists_isInverse_iff hl]
  unfold computePublic
  simp only
  by_cases hany : (mqNtt (f.map fun x => (mqConvSmall x.toInt32).toUInt16) logn).any (· == 0) = true
  · rw [if_pos hany]
    refine ⟨fun hc => absurd hc (by simp), fun hc => ?_⟩
    obtain ⟨y, hy, hzero⟩ := List.any_eq_true.1 hany
    obtain ⟨i, hi, rfl⟩ := List.mem_iff_getElem.1 hy
    rw [← rd_eq_getElem hi, beq_iff_eq] at hzero
    rw [htt.length] at hi
    have hval := htt.val_rd i hi
    rw [hzero] at hval
    exact absurd hval.symm (hc.1 i hi)
  · rw [if_neg hany]
    have hne : ∀ e < 2 ^ logn, fwd twiddle logn logn (zqCoeffs f) e ≠ 0 := by
      intro e he h0
      have hval := htt.val_rd e he
      rw [h0] at hval
      have hzero : rd (mqNtt (f.map fun x => (mqConvSmall x.toInt32).toUInt16) logn) e = 0 :=
        eq_of_toZq (htt.ok_rd e he) (show (0 : UInt16).toUInt32.toNat < 12289 by decide) (hval.trans rfl)
      refine hany (List.any_eq_true.2 ⟨_, mem_rd (by rwa [htt.length]), ?_⟩)
      rw [hzero]
      rfl
    -- the quotient as a polynomial
    obtain ⟨c, hc⟩ := exists_fwd_eq hu (twiddle_inv hl) fun e =>
      fwd twiddle logn logn (zqCoeffs g) e / fwd twiddle logn logn (zqCoeffs f) e
    have hprod : ∀ e < 2 ^ logn, fwd twiddle logn logn (zqCoeffs g) e =
        fwd twiddle logn logn c e * fwd twiddle logn logn (zqCoeffs f) e := by
      intro e he
      rw [hc e he, div_mul_cancel₀ _ (hne e he)]
    have hquot := zipWith_mqDiv12289_rep (hht.congr hprod) htt hne
    have hres := mqINtt_rep hl hquot fun e he => inv_fwd (twiddle_inv hl) _ he
    have hkey : IsPublicKey logn f g (mqINtt (List.zipWith
        (fun x y => (mqDiv12289 x.toUInt32 y.toUInt32).toUInt16)
        (mqNtt (g.map fun x => (mqConvSmall x.toInt32).toUInt16) logn)
        (mqNtt (f.map fun x => (mqConvSmall x.toInt32).toUInt16) logn)) logn) := by
      refine ⟨hres.length, fun w hw => ?_, fun e he => ?_⟩
      · have hred := hres.forall_mem w hw
        rwa [Reduced, UInt16.toNat_toUInt32] at hred
      · refine eq_of_fwd_eq hu (twiddle_inv hl) (fun e he => ?_) he
        rw [fwd_mulMod (isTable_twiddle hl) _ _ he, fwd_congr le_rfl hres.val_rd he, hprod e he, mul_comm]
    constructor
    · intro hsome
      rw [← Option.some.inj hsome]
      exact ⟨hne, hkey⟩
    · rintro ⟨-, hh⟩
      rw [hkey.unique hl hne hh]

end PublicKey

/-! ### The key -/

/-- A complete key: what the checks and the solver establish. -/
structure IsNtruKey (logn : ℕ) (key : NtruKey) : Prop where
  lengths : key.f.length = 2 ^ logn ∧ key.g.length = 2 ^ logn ∧ key.F.length = 2 ^ logn ∧ key.G.length = 2 ^ logn
  rangeFg : (∀ c ∈ key.f, TrimRange (rd maxFgBits logn) c) ∧ ∀ c ∈ key.g, TrimRange (rd maxFgBits logn) c
  rangeFG : (∀ c ∈ key.F, TrimRange (rd maxFGBits logn) c) ∧ ∀ c ∈ key.G, TrimRange (rd maxFGBits logn) c
  short : ∑ u ∈ Finset.range (2 ^ logn), (rd key.f u).toInt ^ 2 +
    ∑ u ∈ Finset.range (2 ^ logn), (rd key.g u).toInt ^ 2 < 16823
  ntru : NtruEquation logn key.f key.g key.F key.G
  invertible : ∃ b, IsInverse (2 ^ logn) (zqCoeffs key.f) b
  publicKey : IsPublicKey logn key.f key.g key.h

/-- The check of the coefficients is the range of their encoding. -/
private theorem range_of_coeffsBelow {logn : ℕ} {f g : List Int8} (hf : f.length = 2 ^ logn) (hg : g.length = 2 ^ logn)
    (h : coeffsBelow f g logn = true) :
    (∀ c ∈ f, TrimRange (rd maxFgBits logn) c) ∧ ∀ c ∈ g, TrimRange (rd maxFgBits logn) c := by
  unfold coeffsBelow at h
  simp only [List.all_eq_true, List.mem_range, Nat.shiftLeft_eq, one_mul, decide_eq_true_eq] at h
  constructor
  · intro c hc
    obtain ⟨u, hu, rfl⟩ := List.mem_iff_getElem.1 hc
    have hcu := h u (by omega)
    rw [rd_eq_getElem hu] at hcu
    exact ⟨hcu.2.1, hcu.1⟩
  · intro c hc
    obtain ⟨u, hu, rfl⟩ := List.mem_iff_getElem.1 hc
    have hcu := h u (by omega)
    rw [rd_eq_getElem (a := g) hu] at hcu
    exact ⟨hcu.2.2.2, hcu.2.2.1⟩

/-- Whatever the stream, the floating-point computations and the temporary area: a key that `Zf(new_keygen)` returns is
complete. -/
theorem newKeygen_spec {logn : ℕ} (h1 : 1 ≤ logn) (h10 : logn ≤ 10) {fuel iters : ℕ} {env : KeygenEnv} {rng : Rng}
    {key : NtruKey}
    (h : (newKeygen env logn fuel iters rng).2 = some key) : IsNtruKey logn key := by
  obtain ⟨hmem, hpub, hsolve⟩ := newKeygen_key h
  have hcall := newKeygen_calls hmem
  obtain ⟨hf, hg⟩ := hcall.lengths
  rw [Nat.shiftLeft_eq, one_mul] at hf hg
  have hbits : rd maxFGBits logn = 8 := by
    have hall : ∀ k ≤ 10, 1 ≤ k → rd maxFGBits k = 8 := by decide
    exact hall logn h10 h1
  rw [hbits] at hsolve
  obtain ⟨⟨hF, hFr⟩, ⟨hG, hGr⟩, heq⟩ := solveNtru_spec h10 (by decide) hsolve
  have hrange : ∀ c : Int8, |c.toInt| ≤ (Int32.ofNat ((1 <<< (8 - 1)) - 1)).toInt →
    TrimRange (rd maxFGBits logn) c := by
    intro c hc
    rw [show (Int32.ofNat ((1 <<< (8 - 1)) - 1)).toInt = 127 from rfl, abs_le] at hc
    rw [hbits]
    constructor <;> norm_num <;> omega
  obtain ⟨hinv, hkey⟩ := (computePublic_iff h10 hf hg _).1 hpub
  exact ⟨⟨hf, hg, hF, hG⟩, range_of_coeffsBelow hf hg hcall.coeffs,
    ⟨fun c hc => hrange c (hFr c hc), fun c hc => hrange c (hGr c hc)⟩,
    (normBelow_iff _ _ _).1 hcall.norm, heq, hinv, hkey⟩

/-- An iteration that passes all checks ends the loop. -/
private theorem newKeygen_of_passed {env : KeygenEnv} {logn fuel iters : ℕ} {rng rng' : Rng} {f g F G : List Int8}
    {h : List UInt16} (hdraw : newKeygenDraw logn fuel rng = some (f, g, rng')) (hc : coeffsBelow f g logn = true)
    (hn : normBelow f g logn = true) (hb : env.bnormLt f g = true) (hpub : computePublic f g logn = some h)
    (hsolve : solveNtru env.levels logn f g (Int32.ofNat ((1 <<< (rd maxFGBits logn - 1)) - 1)) (env.tmp f g) =
      some (F, G)) :
    newKeygen env logn fuel (iters + 1) rng = ([(f, g)], some ⟨f, g, F, G, h⟩) := by
  rw [newKeygen, hdraw]
  simp only [hc, hn, hb, hpub, hsolve, Bool.not_true, Bool.false_eq_true, if_false]

/-- Levels that leave `F = -120 - 5 * X` and `G = 47 + 53 * X`. -/
def smallEnv : KeygenEnv where
  bnormLt := fun _ _ => true
  levels := ⟨fun _ _ _ _ _ => some fun j => rd [0x7FFFFF88, 0x7FFFFFFB, 47, 53] j, fun _ _ _ _ => none,
    fun _ _ _ _ => none⟩
  tmp := fun _ _ _ => 0

/-- The key with `f = 1 - 9 * X` and `g = 98 - X`. -/
def smallKey : NtruKey := ⟨[1, -9], [98, -1], [-120, -5], [47, 53], [7045, 1959]⟩

/-- A stream from which the small key is drawn. -/
def smallRng : Rng :=
  [0] ++ₛ (([1, -9] : List Int8).flatMap (fun c => coeffBytes (2 ^ (10 - 1)) c.toInt) ++ₛ
    (([98, -1] : List Int8).flatMap (fun c => coeffBytes (2 ^ (10 - 1)) c.toInt) ++ₛ Stream'.const 0))

private theorem smallKey_check : (coeffsBelow [1, -9] [98, -1] 1 = true ∧ normBelow [1, -9] [98, -1] 1 = true) ∧
    computePublic [1, -9] [98, -1] 1 = some smallKey.h ∧
    solveNtru smallEnv.levels 1 [1, -9] [98, -1] (Int32.ofNat ((1 <<< (rd maxFGBits 1 - 1)) - 1))
      (smallEnv.tmp [1, -9] [98, -1]) = some (smallKey.F, smallKey.G) := by decide +kernel

theorem newKeygen_small : newKeygen smallEnv 1 1 1 smallRng = ([([1, -9], [98, -1])], some smallKey) := by
  obtain ⟨⟨h1, h2⟩, h3, h4⟩ := smallKey_check
  have hdraw : newKeygenDraw 1 1 smallRng = some ([1, -9], [98, -1], Stream'.const 0) := by
    have hf := polySmallMkgaussChoose_append (show ([1, -9] : List Int8).length = 1 <<< 1 from rfl)
      (by simp [coeffBound])
      (show coeffSum [1, -9] % 2 = (0 : Int32).toInt % 2 by decide)
      (([98, -1] : List Int8).flatMap (fun c => coeffBytes (2 ^ (10 - 1)) c.toInt) ++ₛ Stream'.const 0)
    have hg := polySmallMkgaussChoose_append (show ([98, -1] : List Int8).length = 1 <<< 1 from rfl)
      (by simp [coeffBound])
      (show coeffSum [98, -1] % 2 = (1 : Int32).toInt % 2 by decide)
      (Stream'.const 0)
    have hbyte : ∀ s : Rng, extractBytes ([0] ++ₛ s) 1 = ([0], s) := fun s => rfl
    unfold newKeygenDraw smallRng
    rw [hbyte]
    simp only
    rw [show ((rd [(0 : UInt8)] 0 &&& 1).toUInt32.toInt32) = 0 from rfl, show ((0 : Int32) ^^^ 1) = 1 from rfl, hf,
      Option.bind_some, hg, Option.map_some]
  exact newKeygen_of_passed hdraw h1 h2 rfl h3 h4

theorem newKeygen_parity_small : (coeffSum [1, -9] + coeffSum [98, -1]) % 2 = 1 ∧
    (res (2 ^ 1) (fun u => (rd [1, -9] u : Int8).toInt) + res (2 ^ 1) (fun u => (rd [98, -1] u : Int8).toInt)) % 2 = 1 ∧
    ∀ tmp, deepestBranch (rd MAX_BL_SMALL 1) (deepestResultants 1 [1, -9] [98, -1] tmp) = .oddEven ∨
      deepestBranch (rd MAX_BL_SMALL 1) (deepestResultants 1 [1, -9] [98, -1] tmp) = .evenOdd := by
  have hmem : ([1, -9], [98, -1]) ∈ (newKeygen smallEnv 1 1 1 smallRng).1 := by
    rw [newKeygen_small]
    exact List.mem_singleton.2 rfl
  obtain ⟨h1, h2, h3⟩ := newKeygen_parity (by decide) (by decide) hmem
  exact ⟨h1, h2, h3 (.inl (by decide))⟩

end DfVrf.Crypto
