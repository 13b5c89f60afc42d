import DfVrf.Crypto.MqNtt
import DfVrf.Crypto.Norm
import Mathlib.Data.ZMod.ValMinAbs

/-!
# The Falcon verification equation in the C code (`vrfy.c`)

`to_ntt_monty` prepares the public key, `verify_raw` computes `s2 * h - c` through the transform, centres the
coefficients and tests the norm.  `verifyRaw_iff_sigNorm`: the signature is accepted exactly when the squared norm of
`(c - s2 * h, s2)` over all coefficients, with the product modulo `X ^ n + 1`, is at most the bound.
-/

namespace DfVrf

/-- The square of the centred representative of an element of `ℤ_q`. -/
def normSq (x : Zq) : ℕ := x.valMinAbs.natAbs ^ 2

private theorem normSq_neg (x : Zq) : normSq (-x) = normSq x := by
  rw [normSq, normSq, ZMod.natAbs_valMinAbs_neg]

namespace Crypto

open InPlace Negacyclic

/-- `to_ntt_monty`: a public key in NTT and Montgomery representation. -/
def toNttMonty (h : List UInt16) (logn : ℕ) : List UInt16 :=
  mqPolyTomonty (mqNtt h logn)

/-- The body of the first loop of `verify_raw`: a coefficient of `s2` modulo `q`. -/
def reduceS2 (z : Int16) : UInt16 :=
  let w := z.toInt32.toUInt32
  (w + (Q &&& -(w >>> 31))).toUInt16

/-- The body of the second loop of `verify_raw`: a value below `q` in the range `[-q/2, q/2]`. -/
def normalizeS1 (t : UInt16) : Int16 :=
  let w := t.toUInt32.toInt32
  let w := w - (Q &&& -(((Q >>> 1) - w.toUInt32) >>> 31)).toInt32
  w.toInt16

def verifyRaw (c0 : List UInt16) (s2 : List Int16) (h : List UInt16) (logn : ℕ) : Bool :=
  let tt := s2.map reduceS2
  let tt := mqNtt tt logn
  let tt := mqPolyMontymulNtt tt h
  let tt := mqINtt tt logn
  let tt := mqPolySub tt c0
  let tt := tt.map normalizeS1
  isShort tt s2 logn

/-! ### Reduction and centring -/

/-- The element of `ℤ_q` that a signed coefficient represents. -/
def ofInt16 (z : Int16) : Zq := (z.toInt : Zq)

/-- `s2` has length `n`, its entries lie strictly between `-q` and `q` and represent `s`. -/
abbrev RepSigned (n : ℕ) (s2 : List Int16) (s : ℕ → Zq) : Prop :=
  Represents ofInt16 (fun z => -12289 < z.toInt ∧ z.toInt < 12289) n s2 s

/-- As `RepSigned`, with entries in the range `[-q/2, q/2]`. -/
abbrev RepCentred (n : ℕ) (s2 : List Int16) (s : ℕ → Zq) : Prop :=
  Represents ofInt16 (fun z => -6145 < z.toInt ∧ z.toInt < 6145) n s2 s

theorem reduceS2_spec {z : Int16} (h1 : -12289 < z.toInt) (h2 : z.toInt < 12289) :
    Reduced (reduceS2 z).toUInt32 ∧ toZq (reduceS2 z).toUInt32 = ofInt16 z := by
  rw [← Int16.toInt_toInt32] at h1 h2
  obtain ⟨hred, hval⟩ := mqConvSmall_spec h1 h2
  rw [Int16.toInt_toInt32] at hval
  exact hred.store hval

theorem normalizeS1_spec {t : UInt16} (ht : Reduced t.toUInt32) :
    (normalizeS1 t).toInt = (toZq t.toUInt32).valMinAbs := by
  unfold Reduced at ht
  have hw := toInt_toInt32 (show t.toUInt32.toNat < 2 ^ 31 by omega)
  have hsub : (Q >>> 1 - t.toUInt32).toNat = (6144 + (2 ^ 32 - t.toUInt32.toNat)) % 2 ^ 32 := by
    rw [UInt32.toNat_sub, show (Q >>> 1).toNat = 6144 from rfl]
    omega
  have hmask := q_and_neg_shift (Q >>> 1 - t.toUInt32)
  rw [hsub] at hmask
  have hval : (toZq t.toUInt32).val = t.toUInt32.toNat := ZMod.val_natCast_of_lt ht
  have hfit : ∀ d : ℤ, -6145 < d → d < 6145 → (d.bmod (2 ^ 32)).bmod (2 ^ 16) = d := by
    intro d h1 h2
    rw [Int.bmod_eq_of_le (n := d) (by omega) (by omega), Int.bmod_eq_of_le (by omega) (by omega)]
  rw [ZMod.valMinAbs_def_pos, hval, normalizeS1, UInt32.toUInt32_toInt32, hmask, Int32.toInt_toInt16,
    Int32.toInt_sub, hw]
  by_cases h : t.toUInt32.toNat ≤ 6144
  · rw [if_pos (show t.toUInt32.toNat ≤ 12289 / 2 by omega), if_pos (by omega),
      show (0 : UInt32).toInt32.toInt = 0 from rfl, sub_zero, hfit _ (by omega) (by omega)]
  · rw [if_neg (show ¬ t.toUInt32.toNat ≤ 12289 / 2 by omega), if_neg (by omega),
      show Q.toInt32.toInt = 12289 from rfl, hfit _ (by omega) (by omega)]
    rfl

private theorem sq_normalizeS1 {t : UInt16} (ht : Reduced t.toUInt32) :
    sq (normalizeS1 t) = normSq (toZq t.toUInt32) := by
  rw [sq, normSq, normalizeS1_spec ht]

/-! ### The operations on arrays -/

theorem map_reduceS2_rep {n : ℕ} {s2 : List Int16} {s : ℕ → Zq} (hs : RepSigned n s2 s) :
    Rep n (s2.map reduceS2) s := by
  refine hs.map reduceS2 fun e _ z hz hze => ?_
  obtain ⟨h1, h2⟩ := reduceS2_spec hz.1 hz.2
  exact ⟨h1, h2.trans hze⟩

theorem mqPolyTomonty_rep {n : ℕ} {a : List UInt16} {f : ℕ → Zq} (ha : Rep n a f) :
    Rep n (mqPolyTomonty a) (fun e => f e * 65536) := by
  refine ha.map _ fun e _ x hx hxe => ?_
  have hR2 : toZq R2 = 65536 * 65536 := by decide
  obtain ⟨h1, h2⟩ := mqMontymul_of_monty hx (show R2.toNat < 12289 by decide) hR2
  rw [hxe] at h2
  exact h1.store h2

theorem mqPolyMontymulNtt_rep {n : ℕ} {a b : List UInt16} {f g : ℕ → Zq} (ha : Rep n a f)
    (hb : Rep n b (fun e => g e * 65536)) : Rep n (mqPolyMontymulNtt a b) (fun e => f e * g e) := by
  refine ha.zipWith hb _ fun e _ x y hx hy hxe hye => ?_
  obtain ⟨h1, h2⟩ := mqMontymul_of_monty hx hy hye
  rw [hxe] at h2
  exact h1.store h2

theorem mqPolySub_rep {n : ℕ} {a b : List UInt16} {f g : ℕ → Zq} (ha : Rep n a f) (hb : Rep n b g) :
    Rep n (mqPolySub a b) (fun e => f e - g e) := by
  refine ha.zipWith hb _ fun e _ x y hx hy hxe hye => ?_
  obtain ⟨h1, h2⟩ := mqSub_spec hx hy
  rw [hxe, hye] at h2
  exact h1.store h2

/-- `to_ntt_monty` computes the transform in Montgomery representation. -/
theorem toNttMonty_rep {logn : ℕ} (hl : logn ≤ 10) {a : List UInt16} {f : ℕ → Zq} (ha : Rep (2 ^ logn) a f) :
    Rep (2 ^ logn) (toNttMonty a logn) (fun e => fwd twiddle logn logn f e * 65536) :=
  mqPolyTomonty_rep (mqNtt_rep hl ha)

/-- The product of two polynomials modulo `X ^ n + 1`, by the transform. -/
theorem mqINtt_mul_rep {logn : ℕ} (hl : logn ≤ 10) {a b : List UInt16} {f g : ℕ → Zq} (ha : Rep (2 ^ logn) a f)
    (hb : Rep (2 ^ logn) b (fun e => fwd twiddle logn logn g e * 65536)) :
    Rep (2 ^ logn) (mqINtt (mqPolyMontymulNtt (mqNtt a logn) b) logn) (mulMod (2 ^ logn) f g) := by
  apply mqINtt_rep hl (mqPolyMontymulNtt_rep (mqNtt_rep hl ha) hb)
  intro e he
  exact inv_mul_fwd (isTable_twiddle hl) (twiddle_inv hl) f g he

/-! ### The verification equation -/

/-- The squared norm of the pair `(c - s * h, s)` over the first `n` coefficients. -/
noncomputable def sigNorm (n : ℕ) (c s h : ℕ → Zq) : ℕ :=
  ∑ u ∈ Finset.range n, normSq (c u - mulMod n s h u) + ∑ u ∈ Finset.range n, normSq (s u)

/-- `verify_raw` adds the norm of `c - s2 * h` and that of the array `s2`. -/
theorem verifyRaw_iff {logn : ℕ} (hl : logn ≤ 10) {c0 h : List UInt16} {s2 : List Int16} {c s g : ℕ → Zq}
    (hc : Rep (2 ^ logn) c0 c) (hs : RepSigned (2 ^ logn) s2 s)
    (hh : Rep (2 ^ logn) h (fun e => fwd twiddle logn logn g e * 65536)) : verifyRaw c0 s2 h logn = true ↔
      ∑ u ∈ Finset.range (2 ^ logn), normSq (c u - mulMod (2 ^ logn) s g u) +
        ∑ u ∈ Finset.range (2 ^ logn), sq (rd s2 u) ≤ (rd l2bound logn).toNat := by
  have ht := mqPolySub_rep (mqINtt_mul_rep hl (map_reduceS2_rep hs) hh) hc
  rw [verifyRaw, isShort_iff, Finset.sum_add_distrib]
  have hsum : ∀ u ∈ Finset.range (2 ^ logn), sq (rd ((mqPolySub (mqINtt (mqPolyMontymulNtt
      (mqNtt (s2.map reduceS2) logn) h) logn) c0).map normalizeS1) u) =
      normSq (c u - mulMod (2 ^ logn) s g u) := by
    intro u hu
    rw [Finset.mem_range] at hu
    rw [rd_map _ (by rw [ht.length]; exact hu), sq_normalizeS1 (ht.ok_rd u hu), ht.val_rd u hu, ← normSq_neg,
      neg_sub]
  rw [Finset.sum_congr rfl hsum]

theorem sq_eq_normSq {z : Int16} (hz : -6145 < z.toInt ∧ z.toInt < 6145) : sq z = normSq (ofInt16 z) := by
  have h : (ofInt16 z).valMinAbs = z.toInt :=
    (ZMod.valMinAbs_spec _ _).2 ⟨rfl, by constructor <;> norm_num <;> omega⟩
  rw [sq, normSq, h]

/-- On centred coefficients `verify_raw` accepts exactly the signatures whose norm is at most the bound. -/
theorem verifyRaw_iff_sigNorm {logn : ℕ} (hl : logn ≤ 10) {c0 h : List UInt16} {s2 : List Int16}
    {c s g : ℕ → Zq} (hc : Rep (2 ^ logn) c0 c) (hs : RepCentred (2 ^ logn) s2 s)
    (hh : Rep (2 ^ logn) h (fun e => fwd twiddle logn logn g e * 65536)) :
    verifyRaw c0 s2 h logn = true ↔ sigNorm (2 ^ logn) c s g ≤ (rd l2bound logn).toNat := by
  rw [verifyRaw_iff hl hc (hs.mono fun z hz => ⟨by omega, by omega⟩) hh, sigNorm]
  have hsum : ∀ u ∈ Finset.range (2 ^ logn), sq (rd s2 u) = normSq (s u) := by
    intro u hu
    rw [Finset.mem_range] at hu
    rw [sq_eq_normSq (hs.ok_rd u hu), hs.val_rd u hu]
  rw [Finset.sum_congr rfl hsum]

end Crypto

end DfVrf
