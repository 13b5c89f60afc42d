import DfVrf.Lib.Bytes

/-!
# Bit strings, most significant bit first

`Bits.ofNat k x` are the low `k` bits of `x`, `Bits.ofBytes` the bits of a byte string.  A reader that shifts bytes
into an accumulator and takes bits from its low end has ahead of it the unread low bits of the accumulator
followed by the bits of the unread bytes (`ofNat_shift` is the step that loads a byte).
-/

open InPlace

namespace Bits

/-- The low `k` bits of `x`, most significant first. -/
def ofNat : ℕ → ℕ → List Bool
  | 0, _ => []
  | k + 1, x => x.testBit k :: ofNat k x

/-- The bits of a byte string. -/
def ofBytes (bs : List UInt8) : List Bool := bs.flatMap fun b => ofNat 8 b.toNat

@[simp] theorem ofNat_zero (x : ℕ) : ofNat 0 x = [] := rfl

@[simp] theorem length_ofNat (k x : ℕ) : (ofNat k x).length = k := by
  induction k with
  | zero => rfl
  | succ k ih => simp [ofNat, ih]

/-- The high and the low bits. -/
theorem ofNat_add (a b x : ℕ) : ofNat (a + b) x = ofNat a (x / 2 ^ b) ++ ofNat b x := by
  induction a with
  | zero => simp
  | succ a ih =>
    rw [Nat.succ_add, ofNat, ofNat, ih, Nat.testBit_div_two_pow, List.cons_append]

/-- Bits beyond the low `k` do not matter. -/
theorem ofNat_congr {k x y : ℕ} (h : x % 2 ^ k = y % 2 ^ k) : ofNat k x = ofNat k y := by
  have hbit : ∀ j < k, x.testBit j = y.testBit j := by
    intro j hj
    have := congrArg (fun z => z.testBit j) h
    simpa [Nat.testBit_mod_two_pow, hj] using this
  induction k with
  | zero => rfl
  | succ k ih =>
    rw [ofNat, ofNat, hbit k (by omega)]
    congr 1
    apply ih
    · apply Nat.eq_of_testBit_eq
      intro j
      simp only [Nat.testBit_mod_two_pow]
      by_cases hj : j < k
      · rw [hbit j (by omega)]
      · simp [hj]
    · intro j hj
      exact hbit j (by omega)

theorem ofNat_injective {k x y : ℕ} (h : ofNat k x = ofNat k y) : x % 2 ^ k = y % 2 ^ k := by
  apply Nat.eq_of_testBit_eq
  intro j
  simp only [Nat.testBit_mod_two_pow]
  induction k with
  | zero => simp
  | succ k ih =>
    rw [ofNat, ofNat] at h
    obtain ⟨h1, h2⟩ := List.cons.inj h
    by_cases hj : j = k
    · rw [hj, h1]
    · have := ih h2
      by_cases hlt : j < k
      · simpa [hlt, show j < k + 1 by omega] using this
      · simp [show ¬ j < k + 1 by omega]

theorem ofNat_zero_right (k : ℕ) : ofNat k 0 = List.replicate k false := by
  induction k with
  | zero => rfl
  | succ k ih => rw [ofNat, Nat.zero_testBit, List.replicate_succ, ih]

/-- The low bits of a multiple of `2 ^ k` are zero. -/
theorem ofNat_eq_replicate {k x : ℕ} (h : x % 2 ^ k = 0) : ofNat k x = List.replicate k false := by
  rw [← ofNat_zero_right]
  exact ofNat_congr (by rw [h, Nat.zero_mod])

/-- Shifting a value below `2 ^ j` into an accumulator puts its bits behind the low bits of the accumulator. -/
theorem ofNat_shift (k acc : ℕ) {j v : ℕ} (hv : v < 2 ^ j) :
    ofNat (k + j) (acc * 2 ^ j + v) = ofNat k acc ++ ofNat j v := by
  have hdiv : (acc * 2 ^ j + v) / 2 ^ j = acc := by
    rw [Nat.mul_comm, Nat.mul_add_div (Nat.two_pow_pos j), Nat.div_eq_of_lt hv, Nat.add_zero]
  have hmod : (acc * 2 ^ j + v) % 2 ^ j = v % 2 ^ j := by rw [Nat.mul_comm, Nat.mul_add_mod]
  rw [ofNat_add, hdiv, ofNat_congr hmod]

/-- A unary number is delimited by its last bit. -/
theorem eq_of_unary {k l : ℕ} {as bs : List Bool}
    (h : List.replicate k false ++ true :: as = List.replicate l false ++ true :: bs) : k = l ∧ as = bs := by
  induction k generalizing l with
  | zero =>
    cases l with
    | zero => simpa using h
    | succ l => simp [List.replicate_succ] at h
  | succ k ih =>
    cases l with
    | zero => simp [List.replicate_succ] at h
    | succ l =>
      simp only [List.replicate_succ, List.cons_append, List.cons.injEq, true_and] at h
      obtain ⟨hkl, hab⟩ := ih h
      exact ⟨by omega, hab⟩

/-! ### Byte strings -/

@[simp] theorem ofBytes_nil : ofBytes [] = [] := rfl

theorem ofBytes_cons (b : UInt8) (bs : List UInt8) : ofBytes (b :: bs) = ofNat 8 b.toNat ++ ofBytes bs := rfl

theorem ofBytes_append (as bs : List UInt8) : ofBytes (as ++ bs) = ofBytes as ++ ofBytes bs := by
  simp [ofBytes]

theorem length_ofBytes (bs : List UInt8) : (ofBytes bs).length = 8 * bs.length := by
  induction bs with
  | nil => rfl
  | cons b bs ih =>
    rw [ofBytes_cons, List.length_append, length_ofNat, ih, List.length_cons]
    omega

theorem ofBytes_replicate_zero (k : ℕ) : ofBytes (List.replicate k 0) = List.replicate (8 * k) false := by
  induction k with
  | zero => rfl
  | succ k ih =>
    rw [List.replicate_succ, ofBytes_cons, ih, UInt8.toNat_zero, ofNat_zero_right, List.replicate_append_replicate,
      Nat.mul_succ, Nat.add_comm]

/-- A byte string is determined by its bits. -/
private theorem ofBytes_injective {as bs : List UInt8} (h : ofBytes as = ofBytes bs) : as = bs := by
  have hl := congrArg List.length h
  rw [length_ofBytes, length_ofBytes] at hl
  induction as generalizing bs with
  | nil =>
    cases bs with
    | nil => rfl
    | cons b bs => simp at hl
  | cons a as ih =>
    cases bs with
    | nil => simp at hl
    | cons b bs =>
      rw [ofBytes_cons, ofBytes_cons] at h
      obtain ⟨h1, h2⟩ := List.append_inj h (by simp)
      have hab := ofNat_injective h1
      have ha := a.toNat_lt
      have hb := b.toNat_lt
      rw [UInt8.toNat_inj.1 (show a.toNat = b.toNat by omega), ih h2 (by simpa using hl)]

/-- The bits of a byte string from an index on. -/
theorem ofBytes_drop {bs : List UInt8} {v : ℕ} (h : v < bs.length) :
    ofBytes (bs.drop v) = ofNat 8 (rd bs v).toNat ++ ofBytes (bs.drop (v + 1)) := by
  rw [List.drop_eq_getElem_cons h, ofBytes_cons, rd_eq_getElem h]

/-- Two byte strings that consist of the same bits and of less than eight bits of padding are equal. -/
theorem eq_of_padding {as bs : List UInt8} {w : List Bool} {r s : ℕ} (hr : r < 8) (hs : s < 8)
    (ha : ofBytes as = w ++ List.replicate r false) (hb : ofBytes bs = w ++ List.replicate s false) : as = bs := by
  have la := congrArg List.length ha
  have lb := congrArg List.length hb
  rw [length_ofBytes, List.length_append, List.length_replicate] at la lb
  obtain rfl : r = s := by omega
  exact ofBytes_injective (ha.trans hb.symm)

end Bits
