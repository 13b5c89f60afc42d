import DfVrf.Crypto.Verify
import Mathlib.FieldTheory.Finite.Basic
import Mathlib.Tactic.NormNum.Prime

/-!
# Completing the private key in the C code (`vrfy.c`)

A stored private key consists of `f`, `g` and `F`; `complete_private` computes `G = g * F / f` modulo `q`, dividing
pointwise in the transformed domain.

* `mqDiv12289_spec`: the addition chain computes `y ^ (q - 2)`, the inverse of `y`.
* `completePrivate_complete`: if `f` is invertible and `f * G = g * F` for a polynomial `G` with small coefficients,
  then `G` is found.
-/

namespace DfVrf.Crypto

open InPlace Negacyclic

/-- The body of the last loop of `complete_private`: a value below `q` as a small signed coefficient. -/
def completeCoeff (x : UInt16) : Option Int8 :=
  let w := x.toUInt32
  let w := w - (Q &&& ~~~(-((w - (Q >>> 1)) >>> 31)))
  let gi := w.toInt32
  if gi < -127 ∨ gi > 127 then none else some gi.toInt8

/-- `complete_private`: `G = g * F / f` modulo `q`; `none` where the code returns zero. -/
def completePrivate (f g F : List Int8) (logn : ℕ) : Option (List Int8) :=
  let t1 := g.map fun x => (mqConvSmall x.toInt32).toUInt16
  let t2 := F.map fun x => (mqConvSmall x.toInt32).toUInt16
  let t1 := mqNtt t1 logn
  let t2 := mqNtt t2 logn
  let t1 := mqPolyTomonty t1
  let t1 := mqPolyMontymulNtt t1 t2
  let t2 := f.map fun x => (mqConvSmall x.toInt32).toUInt16
  let t2 := mqNtt t2 logn
  if t2.any fun y => y = 0 then none
  else
    let t1 := List.zipWith (fun x y => (mqDiv12289 x.toUInt32 y.toUInt32).toUInt16) t1 t2
    let t1 := mqINtt t1 logn
    t1.mapM completeCoeff

/-! ### Division -/

theorem prime_q : Nat.Prime 12289 := by norm_num

/-- `y` is the Montgomery representation of a power of `c`. -/
structure MontyPow (c : Zq) (e : ℕ) (y : UInt32) : Prop where
  reduced : Reduced y
  val : toZq y = c ^ e * 65536

/-- The Montgomery product adds exponents. -/
theorem MontyPow.mul {c : Zq} {e e' : ℕ} {x y : UInt32} (hx : MontyPow c e x) (hy : MontyPow c e' y) :
    MontyPow c (e + e') (mqMontymul x y) := by
  obtain ⟨h1, h2⟩ := mqMontymul_of_monty hx.reduced hy.reduced hy.val
  refine ⟨h1, ?_⟩
  rw [h2, hx.val, pow_add]
  ring

private theorem MontyPow.sqr {c : Zq} {e : ℕ} {x : UInt32} (hx : MontyPow c e x) :
    MontyPow c (2 * e) (mqMontysqr x) := by
  rw [two_mul]
  exact hx.mul hx

theorem mqDiv12289_spec {x y : UInt32} (hx : Reduced x) (hy : Reduced y) (h0 : toZq y ≠ 0) :
    Reduced (mqDiv12289 x y) ∧ toZq (mqDiv12289 x y) * toZq y = toZq x := by
  have hR2 : toZq R2 = 65536 * 65536 := by decide
  have h1 : MontyPow (toZq y) 1 (mqMontymul y R2) := by
    obtain ⟨h, hval⟩ := mqMontymul_of_monty hy (show R2.toNat < 12289 by decide) hR2
    exact ⟨h, by rw [hval, pow_one]⟩
  have h2 := h1.sqr
  have h3 := h2.mul h1
  have h5 := h3.mul h2
  have h10 := h5.sqr
  have h160 := h10.sqr.sqr.sqr.sqr
  have h163 := h160.mul h3
  have h323 := h163.mul h160
  have h1292 := h323.sqr.sqr
  have h1455 := h1292.mul h163
  have h5820 := h1455.sqr.sqr
  have h6143 := h5820.mul h323
  have h12287 := h6143.sqr.mul h1
  obtain ⟨hred, hval⟩ : Reduced (mqDiv12289 x y) ∧ toZq (mqDiv12289 x y) * 65536 = _ :=
    mqMontymul_spec h12287.reduced hx
  rw [h12287.val] at hval
  refine ⟨hred, ?_⟩
  have hfermat : toZq y ^ 12287 * toZq y = 1 := by
    have := Fact.mk prime_q
    rw [← pow_succ]
    exact ZMod.pow_card_sub_one_eq_one h0
  obtain ⟨c, hc⟩ : ∃ c, toZq y ^ 12287 = c := ⟨_, rfl⟩
  have hval : toZq (mqDiv12289 x y) * 65536 = c * 65536 * toZq x := by rw [hval, hc]
  rw [hc] at hfermat
  linear_combination 2304 * toZq y * hval - toZq (mqDiv12289 x y) * toZq y * radix_mul_inv +
    2304 * 65536 * toZq x * hfermat + toZq x * radix_mul_inv

/-- Dividing pointwise by an array without zeros. -/
theorem zipWith_mqDiv12289_rep {n : ℕ} {a b : List UInt16} {f g : ℕ → Zq} (ha : Rep n a (fun e => g e * f e))
    (hb : Rep n b f) (hne : ∀ e < n, f e ≠ 0) :
    Rep n (List.zipWith (fun x y => (mqDiv12289 x.toUInt32 y.toUInt32).toUInt16) a b) g := by
  refine ha.zipWith hb _ fun e he x y hx hy hxe hye => ?_
  have := Fact.mk prime_q
  have h0 : toZq y.toUInt32 ≠ 0 := by
    rw [hye]
    exact hne e he
  obtain ⟨hred, hval⟩ := mqDiv12289_spec hx hy h0
  rw [hxe, ← hye] at hval
  exact hred.store (mul_right_cancel₀ h0 hval)

/-! ### Small coefficients -/

/-- The element of `ℤ_q` that a coefficient of a private key represents. -/
def ofInt8 (x : Int8) : Zq := (x.toInt : Zq)

/-- The conversion of a polynomial of the private key. -/
theorem map_mqConvSmall_rep {n : ℕ} {a : List Int8} (hl : a.length = n) :
    Rep n (a.map fun x => (mqConvSmall x.toInt32).toUInt16) (fun e => ofInt8 (rd a e)) := by
  have ha : Represents ofInt8 (fun _ => True) n a (fun e => ofInt8 (rd a e)) :=
    Represents.of_forall_mem hl fun _ _ => trivial
  refine ha.map _ fun e _ x _ hx => ?_
  have h1 := x.le_toInt
  have h2 := x.toInt_lt
  rw [← Int8.toInt_toInt32] at h1 h2
  obtain ⟨hred, hval⟩ := mqConvSmall_spec (x := x.toInt32) (by omega) (by omega)
  rw [Int8.toInt_toInt32] at hval
  exact hred.store (hval.trans hx)

/-- A value that represents a small coefficient is stored as this coefficient. -/
private theorem completeCoeff_eq {y : UInt16} {x : Int8} (hy : Reduced y.toUInt32) (hx : x ≠ -128)
    (h : toZq y.toUInt32 = ofInt8 x) : completeCoeff y = some x := by
  have hall : ∀ v < 256, (UInt8.ofNat v).toInt8 ≠ -128 →
      completeCoeff (UInt16.ofNat ((UInt8.ofNat v).toInt8.toInt % 12289).toNat) = some (UInt8.ofNat v).toInt8 := by
    decide +kernel
  have hx8 : (UInt8.ofNat x.toUInt8.toNat).toInt8 = x := by
    rw [UInt8.ofNat_toNat]
    rfl
  have hval : y.toNat = (x.toInt % 12289).toNat := by
    have hmod : ((y.toUInt32.toNat : ℤ) : Zq) = (x.toInt : Zq) := by
      rw [Int.cast_natCast]
      exact h
    have hint := (ZMod.intCast_eq_intCast_iff' _ _ _).1 hmod
    unfold Reduced at hy
    rw [UInt16.toNat_toUInt32] at hint hy
    push_cast at hint
    omega
  have hy' : y = UInt16.ofNat (x.toInt % 12289).toNat := by rw [← hval, UInt16.ofNat_toNat]
  have hv := hall x.toUInt8.toNat x.toUInt8.toNat_lt
  rw [hx8, ← hy'] at hv
  exact hv hx

/-! ### The product `g * F / f` -/

private theorem mqPolyMontymulNtt_comm (a b : List UInt16) : mqPolyMontymulNtt a b = mqPolyMontymulNtt b a := by
  have hcomm : ∀ x y, mqMontymul x y = mqMontymul y x := by
    intro x y
    rw [mqMontymul, mqMontymul, UInt32.mul_comm x y]
  rw [mqPolyMontymulNtt, mqPolyMontymulNtt]
  exact List.zipWith_comm_of_comm fun x y => by rw [hcomm]

/-- If `f` is invertible and `f * G = g * F` modulo `q` for a polynomial with coefficients in `[-127, 127]`, then
`complete_private` returns it. -/
theorem completePrivate_complete {logn : ℕ} (hl : logn ≤ 10) {f g F G : List Int8} (hf : f.length = 2 ^ logn)
    (hg : g.length = 2 ^ logn) (hF : F.length = 2 ^ logn) (hG : G.length = 2 ^ logn) (hsmall : ∀ x ∈ G, x ≠ -128)
    (hinv : ∀ e < 2 ^ logn, fwd twiddle logn logn (fun e => ofInt8 (rd f e)) e ≠ 0)
    (heq : ∀ e < 2 ^ logn, mulMod (2 ^ logn) (fun e => ofInt8 (rd f e)) (fun e => ofInt8 (rd G e)) e =
      mulMod (2 ^ logn) (fun e => ofInt8 (rd g e)) (fun e => ofInt8 (rd F e)) e) :
    completePrivate f g F logn = some G := by
  -- the two sides of the equation, transformed
  have ht1 := mqPolyMontymulNtt_rep (mqNtt_rep hl (map_mqConvSmall_rep hF))
    (mqPolyTomonty_rep (mqNtt_rep hl (map_mqConvSmall_rep hg)))
  have ht2 := mqNtt_rep hl (map_mqConvSmall_rep hf)
  rw [mqPolyMontymulNtt_comm] at ht1
  have hfwd : ∀ e < 2 ^ logn, fwd twiddle logn logn (fun e => ofInt8 (rd F e)) e *
      fwd twiddle logn logn (fun e => ofInt8 (rd g e)) e = fwd twiddle logn logn (fun e => ofInt8 (rd G e)) e *
      fwd twiddle logn logn (fun e => ofInt8 (rd f e)) e := by
    intro e he
    rw [mul_comm, ← fwd_mulMod (isTable_twiddle hl) _ _ he, mul_comm, ← fwd_mulMod (isTable_twiddle hl) _ _ he]
    exact (fwd_congr (le_refl _) heq he).symm
  -- the division
  have hany : (mqNtt (f.map fun x => (mqConvSmall x.toInt32).toUInt16) logn).any (fun y => y = 0) = false := by
    rw [List.any_eq_false]
    intro y hy
    obtain ⟨i, hi, rfl⟩ := List.mem_iff_getElem.1 hy
    have hne := hinv i (by rwa [ht2.length] at hi)
    rw [← ht2.val_rd i (by rwa [ht2.length] at hi), rd_eq_getElem hi] at hne
    intro h0
    rw [of_decide_eq_true h0] at hne
    exact hne rfl
  have hquot : Rep (2 ^ logn) (List.zipWith (fun x y => (mqDiv12289 x.toUInt32 y.toUInt32).toUInt16)
      (mqPolyMontymulNtt (mqPolyTomonty (mqNtt (g.map fun x => (mqConvSmall x.toInt32).toUInt16) logn))
        (mqNtt (F.map fun x => (mqConvSmall x.toInt32).toUInt16) logn))
      (mqNtt (f.map fun x => (mqConvSmall x.toInt32).toUInt16) logn))
      (fwd twiddle logn logn fun e => ofInt8 (rd G e)) :=
    zipWith_mqDiv12289_rep (ht1.congr hfwd) ht2 hinv
  have hres := mqINtt_rep hl hquot fun e he => inv_fwd (twiddle_inv hl) _ he
  simp only [completePrivate, hany]
  refine mapM_eq_some (hres.length.trans hG.symm) fun i hi => ?_
  rw [hres.length] at hi
  exact completeCoeff_eq (hres.ok_rd i hi) (hsmall _ (mem_rd (by rwa [hG]))) (hres.val_rd i hi)

end DfVrf.Crypto
