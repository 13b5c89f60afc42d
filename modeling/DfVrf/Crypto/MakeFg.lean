import DfVrf.Crypto.ModpNtt
import DfVrf.Crypto.RebuildCrt
import DfVrf.Lib.FieldNorm

/-!
# The norms of `f` and `g` (`keygen.c`)

`make_fg` takes the norm of a polynomial from one degree to half the degree, down to degree one, where it is the
resultant with `X ^ n + 1`.  A polynomial is kept modulo small primes, as one array of residues for each prime; a step
multiplies the entries of the NTT representations in pairs.  Since a norm needs more primes than its operand, the step
also rebuilds the operand and reduces it modulo the additional primes.

* `makeFgStep_spec`, `makeFg_spec`: the arrays represent the norm if the operands fit into their words.
-/

namespace DfVrf.Crypto

open InPlace Limbs Negacyclic

/-! ### The loops -/

/-- The products of the entries in pairs. -/
def makeFgPairs (hn : ℕ) (t1 : List UInt32) (p p0i r2 : UInt32) : List UInt32 :=
  (List.range hn).map fun v =>
    modpMontymul (modpMontymul (rd t1 ((v <<< 1) + 0)) (rd t1 ((v <<< 1) + 1)) p p0i) r2 p p0i

/-- An iteration of the first loop of `make_fg_step` on one polynomial `x` modulo the prime `q`: the new residues, and
the old ones out of the NTT representation. -/
def makeFgReuse (logn : ℕ) (inNtt outNtt : Bool) (q : SmallPrime) (x : List UInt32) : List UInt32 × List UInt32 :=
  let n := 1 <<< logn
  let hn := n >>> 1
  let p0i := modpNinv31 q.p
  let r2 := modpR2 q.p p0i
  let gm := modpMkgm2 logn q.g q.p p0i
  let t1 := if !inNtt then modpNtt2 x gm.1 logn q.p p0i else x
  let fd := makeFgPairs hn t1 q.p p0i r2
  let fs := if inNtt then modpINtt2 x gm.2 logn q.p p0i else x
  (if !outNtt then modpINtt2 fd gm.2 (logn - 1) q.p p0i else fd, fs)

/-- An iteration of the second loop of `make_fg_step`: the new residues modulo the prime `q`, from the old polynomial in
`slen` words for each coefficient. -/
def makeFgReduce (logn slen : ℕ) (outNtt : Bool) (q : SmallPrime) (fs : ℕ → UInt32) : List UInt32 :=
  let n := 1 <<< logn
  let hn := n >>> 1
  let p0i := modpNinv31 q.p
  let r2 := modpR2 q.p p0i
  let rx := modpRx slen q.p p0i r2
  let gm := modpMkgm2 logn q.g q.p p0i
  let t1 := (List.range n).map fun v => zintModSmallSigned fs (v * slen) slen q.p p0i r2 rx
  let t1 := modpNtt2 t1 gm.1 logn q.p p0i
  let fd := makeFgPairs hn t1 q.p p0i r2
  if !outNtt then modpINtt2 fd gm.2 (logn - 1) q.p p0i else fd

/-- The residues of one polynomial in memory, `slen` words for each coefficient. -/
def interleave (slen : ℕ) (cols : List (List UInt32)) : ℕ → UInt32 := fun j => rd (rd cols (j % slen)) (j / slen)

/-- `make_fg_step` on one of the two polynomials, which are treated alike.  The entry `u` of `data` holds the residues
modulo the prime `u` of all coefficients. -/
def makeFgStep (logn depth : ℕ) (inNtt outNtt : Bool) (data : List (List UInt32)) : List (List UInt32) :=
  let n := 1 <<< logn
  let slen := rd MAX_BL_SMALL depth
  let tlen := rd MAX_BL_SMALL (depth + 1)
  let first := (List.range slen).map fun u => makeFgReuse logn inNtt outNtt (rd PRIMES u) (rd data u)
  let fs := zintRebuildCrt (interleave slen (first.map Prod.snd)) 0 slen slen n PRIMES true (n * slen)
  first.map Prod.fst ++ (List.range' slen (tlen - slen)).map fun u => makeFgReduce logn slen outNtt (rd PRIMES u) fs

/-- `make_fg` on one of the two polynomials. -/
def makeFg (f : List Int8) (logn depth : ℕ) (outNtt : Bool) : List (List UInt32) :=
  let n := 1 <<< logn
  let q := rd PRIMES 0
  let ft := (List.range n).map fun u => modpSet (rd f u).toInt32 q.p
  if depth = 0 ∧ outNtt then
    let p0i := modpNinv31 q.p
    [modpNtt2 ft (modpMkgm2 logn q.g q.p p0i).1 logn q.p p0i]
  else
    (List.range depth).foldl (fun data d => makeFgStep (logn - d) d (d ≠ 0) (d + 1 < depth ∨ outNtt) data) [ft]

/-! ### The roots of the primes -/

section Root

variable {q : SmallPrime} {P : ℕ}

theorem IsSmallPrime.root_pow (hq : IsSmallPrime q P) : toZp q.p q.g ^ 1024 = -1 := by
  have hlo := hq.lower
  have hcast := toZp_eq (p := q.p) (a := q.g.toNat ^ 1024) (b := q.p.toNat - 1) (by
    rw [hq.root]
    exact (Nat.mod_eq_of_lt (by omega)).symm)
  rw [Nat.cast_pow, Nat.cast_sub (by omega), ZMod.natCast_self, Nat.cast_one, zero_sub] at hcast
  exact hcast

/-- The exponent `p - 2` inverts the powers of the root. -/
private theorem IsSmallPrime.root_inverse (hq : IsSmallPrime q P) (k : ℕ) :
    (toZp q.p q.g ^ 2 ^ k) ^ (q.p.toNat - 2) = (toZp q.p q.g ^ 2047) ^ 2 ^ k := by
  have hlo := hq.lower
  have hmod := hq.cyclotomic
  have hunit : toZp q.p q.g ^ 2048 = 1 := by
    rw [show 2048 = 1024 * 2 from rfl, pow_mul, hq.root_pow, neg_one_sq]
  obtain ⟨m, hm⟩ : ∃ m, q.p.toNat - 2 = 2048 * m + 2047 := ⟨q.p.toNat / 2048 - 1, by omega⟩
  rw [hm, ← pow_mul, ← pow_mul, mul_add, pow_add, mul_left_comm, pow_mul, hunit, one_pow, one_mul, mul_comm]

theorem IsSmallPrime.root_mul (hq : IsSmallPrime q P) : toZp q.p q.g * toZp q.p q.g ^ 2047 = 1 := by
  rw [← pow_succ', show 2047 + 1 = 1024 * 2 from rfl, pow_mul, hq.root_pow, neg_one_sq]

/-- The tables of a prime. -/
theorem IsSmallPrime.tables (hq : IsSmallPrime q P) {logn : ℕ} (hl : logn ≤ 10) :
    IsTableOf q.p (toZp q.p q.g) logn (modpMkgm2 logn q.g q.p (modpNinv31 q.p)).1 ∧
      IsTableOf q.p (toZp q.p q.g ^ 2047) logn (modpMkgm2 logn q.g q.p (modpNinv31 q.p)).2 :=
  modpMkgm2_spec hq.isModulus hl hq.g_lt hq.root_inverse

end Root

/-! ### One prime -/

section Column

variable {q : SmallPrime} {P : ℕ} {L : ℕ} {F : ℕ → ℤ}

/-- The residues of a polynomial of degree `2 ^ L`, in NTT representation or not. -/
def column (ntt : Bool) (L : ℕ) (q : SmallPrime) (F : ℕ → ℤ) : ℕ → ZMod q.p.toNat :=
  if ntt then fwd (twiddleOf (toZp q.p q.g)) L L fun e => (F e : ZMod q.p.toNat) else fun e => (F e : ZMod q.p.toNat)

theorem IsTableOf.mono {p : UInt32} {γ : ZMod p.toNat} {logn logm : ℕ} {gm : List UInt32} (h : IsTableOf p γ logn gm)
    (hle : logm ≤ logn) : IsTableOf p γ logm gm :=
  fun v hv => h v (lt_of_lt_of_le hv (Nat.pow_le_pow_right (by omega) hle))

/-- The inverse transform with a table that may be larger. -/
private theorem modpINtt2_column (hq : IsSmallPrime q P) {logn : ℕ} (hl : logn ≤ 10) (hL : L ≤ logn) {x : List UInt32}
    (hx : RepZp q.p (2 ^ L) x (column true L q F)) :
    RepZp q.p (2 ^ L) (modpINtt2 x (modpMkgm2 logn q.g q.p (modpNinv31 q.p)).2 L q.p (modpNinv31 q.p))
      (column false L q F) :=
  modpINtt2_rep hq.isModulus ((hq.tables hl).2.mono hL) (hL.trans hl) hx
    fun _ he => inv_fwd (fun i _ _ => twiddleOf_mul hq.root_mul i) _ he

/-- The products in pairs are the transform of the norm. -/
private theorem makeFgPairs_rep (hq : IsSmallPrime q P) (hL : L + 1 ≤ 10) {t1 : List UInt32}
    (ht : RepZp q.p (2 ^ (L + 1)) t1 (column true (L + 1) q F)) :
    RepZp q.p (2 ^ L) (makeFgPairs (2 ^ L) t1 q.p (modpNinv31 q.p) (modpR2 q.p (modpNinv31 q.p)))
      (column true L q (norm (2 ^ L) F)) := by
  have hm := hq.isModulus
  have htab := isTable_twiddleOf hq.root_pow hL
  have hentry : ∀ e < 2 ^ L,
      Below q.p (rd (makeFgPairs (2 ^ L) t1 q.p (modpNinv31 q.p) (modpR2 q.p (modpNinv31 q.p))) e) ∧
      toZp q.p (rd (makeFgPairs (2 ^ L) t1 q.p (modpNinv31 q.p) (modpR2 q.p (modpNinv31 q.p))) e) =
        column true L q (norm (2 ^ L) F) e := by
    intro e he
    have h0 : 2 * e < 2 ^ (L + 1) := by
      rw [pow_succ]
      omega
    have h1 : 2 * e + 1 < 2 ^ (L + 1) := by
      rw [pow_succ]
      omega
    obtain ⟨h2, h3⟩ := modpMontymul_spec hm (ht.ok_rd _ h0) (ht.ok_rd _ h1)
    obtain ⟨h4, h5⟩ := modpMontymul_plain hm h2 (monty_modpR2 hm)
    unfold makeFgPairs
    rw [rd_map_range _ he, Nat.shiftLeft_eq, pow_one, mul_comm e 2, add_zero]
    refine ⟨h4, ?_⟩
    have hmap : ∀ k, ((norm (2 ^ L) F k : ℤ) : ZMod q.p.toNat) = norm (2 ^ L) (fun i => (F i : ZMod q.p.toNat)) k :=
      fun k => map_norm (Int.castRingHom (ZMod q.p.toNat)) (2 ^ L) F k
    rw [h5, h3, ht.val_rd _ h0, ht.val_rd _ h1]
    unfold column
    rw [if_pos rfl, if_pos rfl, funext hmap, fwd_norm htab _ he]
    linear_combination (fwd (twiddleOf (toZp q.p q.g)) (L + 1) (L + 1) (fun e => (F e : ZMod q.p.toNat)) (2 * e) *
      fwd (twiddleOf (toZp q.p q.g)) (L + 1) (L + 1) (fun e => (F e : ZMod q.p.toNat)) (2 * e + 1)) *
      radix_mul_inv_of hm
  exact ⟨by simp [makeFgPairs], fun e he => (hentry e he).1, fun e he => (hentry e he).2⟩

/-- The transform back, unless the result stays in NTT representation. -/
private theorem out_column (hq : IsSmallPrime q P) {logn : ℕ} (hl : logn ≤ 10) (hL : L ≤ logn) (outNtt : Bool)
    {x : List UInt32} (hx : RepZp q.p (2 ^ L) x (column true L q F)) :
    RepZp q.p (2 ^ L) (if !outNtt then modpINtt2 x (modpMkgm2 logn q.g q.p (modpNinv31 q.p)).2 L q.p (modpNinv31 q.p)
      else x) (column outNtt L q F) := by
  cases outNtt with
  | false => exact modpINtt2_column hq hl hL hx
  | true => exact hx

private theorem shiftRight_shiftLeft (L : ℕ) : 1 <<< (L + 1) >>> 1 = 2 ^ L := by
  rw [Nat.shiftLeft_eq, one_mul, Nat.shiftRight_eq_div_pow, pow_one, pow_succ, Nat.mul_div_cancel _ (by omega)]

/-- One prime of the first loop. -/
theorem makeFgReuse_spec (hq : IsSmallPrime q P) (hL : L + 1 ≤ 10) {inNtt : Bool} (outNtt : Bool) {x : List UInt32}
    (hx : RepZp q.p (2 ^ (L + 1)) x (column inNtt (L + 1) q F)) :
    RepZp q.p (2 ^ L) (makeFgReuse (L + 1) inNtt outNtt q x).1 (column outNtt L q (norm (2 ^ L) F)) ∧
      RepZp q.p (2 ^ (L + 1)) (makeFgReuse (L + 1) inNtt outNtt q x).2 (column false (L + 1) q F) := by
  simp only [makeFgReuse, shiftRight_shiftLeft, Nat.add_sub_cancel]
  cases inNtt with
  | false =>
    have ht := modpNtt2_rep hq.isModulus (hq.tables hL).1 hx
    exact ⟨out_column hq hL (by omega) outNtt (makeFgPairs_rep hq hL ht), hx⟩
  | true => exact ⟨out_column hq hL (by omega) outNtt (makeFgPairs_rep hq hL hx), modpINtt2_column hq hL le_rfl hx⟩

/-- One prime of the second loop. -/
theorem makeFgReduce_spec (hq : IsSmallPrime q P) (hL : L + 1 ≤ 10) (outNtt : Bool) {slen : ℕ} (hs : 0 < slen)
    {fs : ℕ → UInt32} (hfs : ∀ v < 2 ^ (L + 1), IsSigned fs (v * slen) slen (F v)) :
    RepZp q.p (2 ^ L) (makeFgReduce (L + 1) slen outNtt q fs) (column outNtt L q (norm (2 ^ L) F)) := by
  have hm := hq.isModulus
  have hcol : RepZp q.p (2 ^ (L + 1))
    ((List.range (1 <<< (L + 1))).map fun v => zintModSmallSigned fs (v * slen) slen q.p
      (modpNinv31 q.p) (modpR2 q.p (modpNinv31 q.p)) (modpRx slen q.p (modpNinv31 q.p) (modpR2 q.p (modpNinv31 q.p))))
      (column false (L + 1) q F) := by
    rw [Nat.shiftLeft_eq, one_mul]
    refine ⟨by simp, fun e he => ?_, fun e he => ?_⟩
    · rw [rd_map_range _ he]
      exact (zintModSmallSigned_spec hm (hfs e he) hs).1
    · rw [rd_map_range _ he]
      exact (zintModSmallSigned_spec hm (hfs e he) hs).2
  simp only [makeFgReduce, shiftRight_shiftLeft, Nat.add_sub_cancel]
  exact out_column hq hL (by omega) outNtt (makeFgPairs_rep hq hL (modpNtt2_rep hm (hq.tables hL).1 hcol))

end Column

/-! ### All primes -/

/-- The entries of `data` are the residues modulo the first `len` primes of a polynomial of degree `2 ^ L`. -/
def IsRns (ntt : Bool) (L len : ℕ) (F : ℕ → ℤ) (data : List (List UInt32)) : Prop :=
  ∀ u < len, RepZp (rd PRIMES u).p (2 ^ L) (rd data u) (column ntt L (rd PRIMES u) F)

/-- The coefficients of a polynomial of degree `2 ^ L` fit into signed words at a depth. -/
def FitsAt (depth L : ℕ) (F : ℕ → ℤ) : Prop :=
  ∀ v < 2 ^ L, 2 * |F v| < primeProduct PRIMES (rd MAX_BL_SMALL depth)

theorem MAX_BL_SMALL_bounds : ∀ d ≤ 10, 0 < rd MAX_BL_SMALL d ∧ rd MAX_BL_SMALL d ≤ 209 := by decide

private theorem MAX_BL_SMALL_mono : ∀ d < 10, rd MAX_BL_SMALL d ≤ rd MAX_BL_SMALL (d + 1) := by decide

private theorem isPrimes_MAX_BL_SMALL {d : ℕ} (hd : d ≤ 10) : IsPrimes PRIMES (rd MAX_BL_SMALL d) :=
  fun u hu => isPrimes_PRIMES u (lt_of_lt_of_le hu (MAX_BL_SMALL_bounds d hd).2)

private theorem interleave_apply {slen i : ℕ} (cols : List (List UInt32)) (v : ℕ) (hi : i < slen) :
    interleave slen cols (0 + v * slen + i) = rd (rd cols i) v := by
  unfold interleave
  rw [zero_add, Nat.mul_add_mod', Nat.mod_eq_of_lt hi, mul_comm, Nat.mul_add_div (by omega),
    Nat.div_eq_of_lt hi, add_zero]

section Step

variable {L depth : ℕ} {F : ℕ → ℤ} {inNtt : Bool} {data : List (List UInt32)}

/-- The rebuilt coefficients. -/
theorem rebuild_spec (hd : depth ≤ 10) {cols : List (List UInt32)} (h : IsRns false L (rd MAX_BL_SMALL depth) F cols)
    (hfit : FitsAt depth L F) {v : ℕ} (hv : v < 2 ^ L) :
    IsSigned (zintRebuildCrt (interleave (rd MAX_BL_SMALL depth) cols) 0 (rd MAX_BL_SMALL depth) (rd MAX_BL_SMALL depth)
      (2 ^ L) PRIMES true (2 ^ L * rd MAX_BL_SMALL depth)) (v * rd MAX_BL_SMALL depth) (rd MAX_BL_SMALL depth)
      (F v) := by
  have hs : IsSigned (zintRebuildCrt (interleave (rd MAX_BL_SMALL depth) cols) 0 (rd MAX_BL_SMALL depth)
      (rd MAX_BL_SMALL depth) (2 ^ L) PRIMES true (2 ^ L * rd MAX_BL_SMALL depth)) (0 + v * rd MAX_BL_SMALL depth)
      (rd MAX_BL_SMALL depth) (F v) :=
    zintRebuildCrt_signed (isPrimes_MAX_BL_SMALL hd) ⟨le_rfl, by omega⟩ (MAX_BL_SMALL_bounds depth hd).1
      (fun v hv i hi => by
        rw [interleave_apply cols v hi]
        exact ⟨(h i hi).ok_rd v hv, (h i hi).val_rd v hv⟩) hfit hv
  rwa [zero_add] at hs

/-- A step of `make_fg` takes the norm, if the coefficients fit into their words. -/
theorem makeFgStep_spec (hL : L + 1 ≤ 10) (hd : depth < 10) (outNtt : Bool)
    (h : IsRns inNtt (L + 1) (rd MAX_BL_SMALL depth) F data) (hfit : FitsAt depth (L + 1) F) :
    IsRns outNtt L (rd MAX_BL_SMALL (depth + 1)) (norm (2 ^ L) F) (makeFgStep (L + 1) depth inNtt outNtt data) := by
  obtain ⟨slen, hslen⟩ : ∃ slen, rd MAX_BL_SMALL depth = slen := ⟨_, rfl⟩
  have hpos := (MAX_BL_SMALL_bounds depth (by omega)).1
  have hmono := MAX_BL_SMALL_mono depth hd
  have hprimes := isPrimes_MAX_BL_SMALL (show depth + 1 ≤ 10 by omega)
  rw [hslen] at h hpos hmono
  have hreuse : ∀ u < slen, RepZp (rd PRIMES u).p (2 ^ L) (makeFgReuse (L + 1) inNtt outNtt (rd PRIMES u) (rd data u)).1
      (column outNtt L (rd PRIMES u) (norm (2 ^ L) F)) ∧ RepZp (rd PRIMES u).p (2 ^ (L + 1))
      (makeFgReuse (L + 1) inNtt outNtt (rd PRIMES u) (rd data u)).2 (column false (L + 1) (rd PRIMES u) F) :=
    fun u hu => makeFgReuse_spec (hprimes u (by omega)) hL outNtt (h u hu)
  have hfirst : IsRns false (L + 1) slen F
      (((List.range slen).map fun u => makeFgReuse (L + 1) inNtt outNtt (rd PRIMES u) (rd data u)).map Prod.snd) := by
    intro u hu
    rw [List.map_map, rd_map_range _ hu]
    exact (hreuse u hu).2
  intro u hu
  unfold makeFgStep
  simp only [Nat.shiftLeft_eq, one_mul, hslen]
  rcases Nat.lt_or_ge u slen with hlt | hge
  · rw [rd_append_left _ (by simpa using hlt), List.map_map, rd_map_range _ hlt]
    exact (hreuse u hlt).1
  · rw [rd_append_right _ (by simpa using hge), rd_map _ (by simp; omega)]
    have hentry : rd (List.range' slen (rd MAX_BL_SMALL (depth + 1) - slen)) (u - slen) = u := by
      rw [rd_eq_getElem (by simp; omega), List.getElem_range', one_mul]
      omega
    simp only [List.length_map, List.length_range]
    rw [hentry]
    refine makeFgReduce_spec (hprimes u hu) hL outNtt (by omega) fun v hv => ?_
    have hreb := rebuild_spec (by omega) (by rwa [hslen]) hfit hv
    rwa [hslen] at hreb

end Step

section Run

variable {logn depth : ℕ} {f : List Int8}

/-- The coefficients modulo the first prime. -/
theorem modpSet_column {q : SmallPrime} {P : ℕ} (hq : IsSmallPrime q P) (f : List Int8) (L : ℕ) :
    RepZp q.p (2 ^ L) ((List.range (1 <<< L)).map fun u => modpSet (rd f u).toInt32 q.p)
      (column false L q fun u => (rd f u).toInt) := by
  have hlo := hq.lower
  rw [Nat.shiftLeft_eq, one_mul]
  have hset : ∀ e, Below q.p (modpSet (rd f e).toInt32 q.p) ∧
      toZp q.p (modpSet (rd f e).toInt32 q.p) = ((rd f e).toInt : ZMod q.p.toNat) := by
    intro e
    have h1 := (rd f e).le_toInt
    have h2 := (rd f e).toInt_lt
    have h := modpSet_spec hq.isModulus (x := (rd f e).toInt32) (by rw [Int8.toInt_toInt32]; omega)
      (by rw [Int8.toInt_toInt32]; omega)
    rwa [Int8.toInt_toInt32] at h
  refine ⟨by simp, fun e he => ?_, fun e he => ?_⟩
  · rw [rd_map_range _ he]
    exact (hset e).1
  · rw [rd_map_range _ he]
    exact (hset e).2

/-- The state after `k` steps. -/
private theorem foldl_makeFgStep (hl : logn ≤ 10) (outNtt : Bool) {F : ℕ → ℤ} {data : List (List UInt32)}
    (h : IsRns false logn 1 F data) (hfit : ∀ d < depth, FitsAt d (logn - d) (normAt logn F d))
      (hd : depth ≤ logn) {k : ℕ}
    (hk : k ≤ depth) : IsRns (decide (k ≠ 0 ∧ (k < depth ∨ outNtt))) (logn - k) (rd MAX_BL_SMALL k) (normAt logn F k)
      ((List.range k).foldl
        (fun data d => makeFgStep (logn - d) d (d ≠ 0) (d + 1 < depth ∨ outNtt) data) data) := by
  induction k with
  | zero => exact h
  | succ k ih =>
    rw [List.range_succ, List.foldl_append, List.foldl_cons, List.foldl_nil]
    have hprev := ih (by omega)
    have hflag : decide (k ≠ 0 ∧ (k < depth ∨ outNtt)) = decide (k ≠ 0) := by
      simp only [show k < depth by omega, true_or, and_true]
    have hflag' : decide (k + 1 ≠ 0 ∧ (k + 1 < depth ∨ outNtt)) = decide (k + 1 < depth ∨ outNtt) := by
      simp only [ne_eq, Nat.succ_ne_zero, not_false_eq_true, true_and]
    have hL : logn - k = logn - (k + 1) + 1 := by omega
    have hfitk := hfit k (by omega)
    rw [hflag, hL] at hprev
    rw [hL] at hfitk
    rw [hflag', hL]
    exact makeFgStep_spec (by omega) (by omega) _ hprev hfitk

/-- `make_fg` computes the norm at a depth, if the norms before it fit into their words. -/
theorem makeFg_spec (hl : logn ≤ 10) (hd : depth ≤ logn) (outNtt : Bool)
    (hfit : ∀ d < depth, FitsAt d (logn - d) (normAt logn (fun u => (rd f u).toInt) d)) :
    IsRns outNtt (logn - depth) (rd MAX_BL_SMALL depth) (normAt logn (fun u => (rd f u).toInt) depth)
      (makeFg f logn depth outNtt) := by
  have hq := isPrimes_MAX_BL_SMALL (show 0 ≤ 10 by omega) 0 (by decide)
  have hcol := modpSet_column hq f logn
  unfold makeFg
  simp only
  split
  · rename_i hcase
    obtain ⟨h0, hout⟩ := hcase
    subst h0
    rw [hout]
    intro u hu
    have hu0 : u = 0 := Nat.lt_one_iff.1 hu
    subst hu0
    exact modpNtt2_rep hq.isModulus (hq.tables hl).1 hcol
  · rename_i hcase
    have hdata : IsRns false logn 1 (fun u => (rd f u).toInt)
        [(List.range (1 <<< logn)).map fun u => modpSet (rd f u).toInt32 (rd PRIMES 0).p] := by
      intro u hu
      have hu0 : u = 0 := Nat.lt_one_iff.1 hu
      subst hu0
      exact hcol
    have hrun := foldl_makeFgStep hl outNtt hdata hfit hd le_rfl
    have hflag : decide (depth ≠ 0 ∧ (depth < depth ∨ outNtt)) = outNtt := by
      cases outNtt with
      | false => simp
      | true => simpa using hcase
    rwa [hflag] at hrun

end Run

/-! ### The resultants -/

/-- The temporary area of `solve_NTRU_deepest` when the resultants of `f` and `g` have been rebuilt, at `fp` and `gp`.
-/
def deepestResultants (logn : ℕ) (f g : List Int8) (tmp : ℕ → UInt32) : ℕ → UInt32 :=
  let len := rd MAX_BL_SMALL logn
  let Fp := 0
  let Gp := Fp + len
  let fp := Gp + len
  let gp := fp + len
  let t1 := gp + len
  let fd := makeFg f logn logn false
  let gd := makeFg g logn logn false
  let data := fun j =>
    if fp ≤ j ∧ j < gp then rd (rd fd (j - fp)) 0 else if gp ≤ j ∧ j < t1 then rd (rd gd (j - gp)) 0 else tmp j
  zintRebuildCrt data fp len len 2 PRIMES false t1

/-- The intermediate norms of a polynomial fit into their words. -/
def NormsFit (logn : ℕ) (f : List Int8) : Prop :=
  ∀ d < logn, FitsAt d (logn - d) (normAt logn (fun u => (rd f u).toInt) d)

/-- The resultants are rebuilt modulo the product of the primes, if the intermediate norms fit. -/
theorem deepestResultants_spec {logn : ℕ} (hl : logn ≤ 10) {f g : List Int8} (hf : NormsFit logn f)
    (hg : NormsFit logn g)
    (tmp : ℕ → UInt32) {len : ℕ} (hlen : rd MAX_BL_SMALL logn = len) :
    IsLimbs (deepestResultants logn f g tmp) (len + len) len ∧
    IsLimbs (deepestResultants logn f g tmp) (len + len + len) len ∧
    (limbValue (deepestResultants logn f g tmp) (len + len) len : ℤ) =
      res (2 ^ logn) (fun u => (rd f u).toInt) % primeProduct PRIMES len ∧
    (limbValue (deepestResultants logn f g tmp) (len + len + len) len : ℤ) =
      res (2 ^ logn) (fun u => (rd g u).toInt) % primeProduct PRIMES len := by
  have hpos := (MAX_BL_SMALL_bounds logn hl).1
  have hprimes := isPrimes_MAX_BL_SMALL hl
  have hfd := makeFg_spec hl le_rfl false hf
  have hgd := makeFg_spec hl le_rfl false hg
  rw [hlen] at hpos hprimes
  rw [hlen, Nat.sub_self] at hfd hgd
  obtain ⟨F, hF0, hF1⟩ : ∃ F : ℕ → ℤ, F 0 = res (2 ^ logn) (fun u => (rd f u).toInt) ∧
      F 1 = res (2 ^ logn) (fun u => (rd g u).toInt) := ⟨fun v => if v = 0 then _ else _, rfl, rfl⟩
  have hunsigned : ∀ v < 2, IsLimbs (deepestResultants logn f g tmp) (len + len + v * len) len ∧
      (limbValue (deepestResultants logn f g tmp) (len + len + v * len) len : ℤ) = F v % primeProduct PRIMES len := by
    intro v hv
    unfold deepestResultants
    simp only [hlen, zero_add]
    refine zintRebuildCrt_unsigned hprimes ⟨le_rfl, by omega⟩ hpos (fun v hv i hi => ?_) hv
    have hcases : v = 0 ∨ v = 1 := by omega
    rcases hcases with rfl | rfl
    · rw [if_pos (by omega), show len + len + 0 * len + i - (len + len) = i by omega, hF0, res_eq_normAt]
      exact ⟨(hfd i hi).ok_rd 0 (by omega), (hfd i hi).val_rd 0 (by omega)⟩
    · rw [if_neg (by omega), if_pos (by omega), show len + len + 1 * len + i - (len + len + len) = i by omega, hF1,
        res_eq_normAt]
      exact ⟨(hgd i hi).ok_rd 0 (by omega), (hgd i hi).val_rd 0 (by omega)⟩
  have h0 := hunsigned 0 (by omega)
  have h1 := hunsigned 1 (by omega)
  rw [zero_mul, add_zero, hF0] at h0
  rw [one_mul, hF1] at h1
  exact ⟨h0.1, h1.1, h0.2, h1.2⟩

end DfVrf.Crypto
