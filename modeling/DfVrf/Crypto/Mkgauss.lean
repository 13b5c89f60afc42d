import DfVrf.Lib.InPlace
import Mathlib.Data.Stream.Init

/-!
# The sampler of the new key generator (`keygen.c`)

A coefficient is a sum of values that are drawn from a Gaussian distribution by means of a table.  The sampler draws the
coefficients one after the other, and the last one until the sum has the requested parity.

* `toInt_mkgaussValue`: the value of a draw, by its two words.
* `polySmallMkgaussChoose_iff`: the sampler returns the vectors whose coefficients are in range and whose sum has the
  requested parity, and no other.
-/

namespace DfVrf.Crypto

open InPlace

/-! ### The random generator -/

/-- A SHAKE-256 context in output mode, by the bytes that are still to be extracted. -/
abbrev Rng := Stream' UInt8

/-- `inner_shake256_extract`. -/
def extractBytes (rng : Rng) (len : ℕ) : List UInt8 × Rng := (rng.take len, rng.drop len)

/-- The word that `get_rng_u64` makes of eight bytes, the least significant first. -/
def wordOfBytes (bs : List UInt8) : UInt64 := bs.foldr (fun b w => (w <<< 8) ||| b.toUInt64) 0

/-- `get_rng_u64`. -/
def getRngU64 (rng : Rng) : UInt64 × Rng :=
  let r := extractBytes rng 8
  (wordOfBytes r.1, r.2)

/-! ### The Gaussian distribution -/

/-- `gauss_1024_12289`. -/
def gauss_1024_12289 : List UInt64 := [
  1283868770400643928, 6416574995475331444, 4078260278032692663, 2353523259288686585, 1227179971273316331,
  575931623374121527, 242543240509105209, 91437049221049666, 30799446349977173, 9255276791179340, 2478152334826140,
  590642893610164, 125206034929641, 23590435911403, 3948334035941, 586753615614, 77391054539, 9056793210, 940121950,
  86539696, 7062824, 510971, 32764, 1862, 94, 4, 0]

/-- The iteration `k` of the loop over the table, on the state `(v, f)`. -/
def mkgaussEntry (r : UInt64) (st : UInt32 × UInt32) (k : ℕ) : UInt32 × UInt32 :=
  let t := ((r - rd gauss_1024_12289 k) >>> 63).toUInt32 ^^^ 1
  (st.1 ||| (UInt32.ofNat k &&& -(t &&& (st.2 ^^^ 1))), st.2 ||| t)

/-- The value that `mkgauss` makes of two random words. -/
def mkgaussValue (r1 r2 : UInt64) : Int32 :=
  let neg := (r1 >>> 63).toUInt32
  let r1 := r1 &&& ~~~((1 : UInt64) <<< 63)
  let f := ((r1 - rd gauss_1024_12289 0) >>> 63).toUInt32
  let r2 := r2 &&& ~~~((1 : UInt64) <<< 63)
  let v := ((List.range' 1 (gauss_1024_12289.length - 1)).foldl (mkgaussEntry r2) (0, f)).1
  ((v ^^^ -neg) + neg).toInt32

/-- An iteration of `mkgauss`, on the state `(val, rng)`. -/
def mkgaussStep (st : Int32 × Rng) (_u : ℕ) : Int32 × Rng :=
  let r1 := getRngU64 st.2
  let r2 := getRngU64 r1.2
  (st.1 + mkgaussValue r1.1 r2.1, r2.2)

/-- `mkgauss`. -/
def mkgauss (rng : Rng) (logn : ℕ) : Int32 × Rng := (List.range (1 <<< (10 - logn))).foldl mkgaussStep (0, rng)

/-! ### One vector -/

/-- The value of one coefficient in `poly_small_mkgauss_choose`, from the label `restart` on; `none` beyond `fuel`
draws. -/
def chooseCoeff (logn : ℕ) (req mod2 : UInt32) (last : Bool) : ℕ → Rng → Option (Int32 × Rng)
  | 0, _ => none
  | fuel + 1, rng =>
    let r := mkgauss rng logn
    let s := r.1
    if s < -127 ∨ s > 127 then chooseCoeff logn req mod2 last fuel r.2
    else if last ∧ mod2 ^^^ (s &&& 1).toUInt32 ≠ req then chooseCoeff logn req mod2 last fuel r.2
    else some (s, r.2)

/-- The iteration `u` of `poly_small_mkgauss_choose`, on the state `(f, mod2, rng)`. -/
def chooseStep (logn fuel : ℕ) (req : UInt32) (st : List Int8 × UInt32 × Rng) (u : ℕ) :
    Option (List Int8 × UInt32 × Rng) :=
  let last : Bool := u = (1 <<< logn) - 1
  (chooseCoeff logn req st.2.1 last fuel st.2.2).map fun r =>
    (st.1 ++ [r.1.toInt8], if last then st.2.1 else st.2.1 ^^^ (r.1 &&& 1).toUInt32, r.2)

/-- `poly_small_mkgauss_choose`, with at most `fuel` draws for a coefficient. -/
def polySmallMkgaussChoose (fuel : ℕ) (rng : Rng) (logn : ℕ) (parity : Int32) : Option (List Int8 × Rng) :=
  let req := parity.toUInt32 &&& 1
  ((List.range (1 <<< logn)).foldlM (chooseStep logn fuel req) ([], 0, rng)).map fun st => (st.1, st.2.2)

/-! ### Parities -/

/-- The sum of the coefficients. -/
def coeffSum (f : List Int8) : ℤ := (f.map Int8.toInt).sum

/-- A word holds the parity of an integer. -/
def HasParity (w : UInt32) (x : ℤ) : Prop := (w.toNat : ℤ) = x % 2

private theorem hasParity_and_one (s : Int32) : HasParity (s &&& 1).toUInt32 s.toInt := by
  have htwo : s.toInt = s.toUInt32.toNat ∨ s.toInt = (s.toUInt32.toNat : ℤ) - 2 ^ 32 := by
    have hcond := BitVec.toInt_eq_toNat_cond s.toBitVec
    rw [Int32.toNat_toBitVec, Int32.toInt_toBitVec] at hcond
    rw [hcond]
    split
    · exact .inl rfl
    · exact .inr rfl
  have hand : (s &&& 1).toUInt32.toNat = s.toUInt32.toNat % 2 := by
    rw [Int32.toUInt32_and, UInt32.toNat_and, show (1 : Int32).toUInt32.toNat = 2 ^ 1 - 1 from rfl,
      Nat.and_two_pow_sub_one_eq_mod]
  unfold HasParity
  rw [hand]
  omega

theorem HasParity.xor {v w : UInt32} {x y : ℤ} (hv : HasParity v x) (hw : HasParity w y) :
    HasParity (v ^^^ w) (x + y) := by
  unfold HasParity at hv hw ⊢
  have hv' : v = 0 ∨ v = 1 := by
    rcases (show v.toNat = 0 ∨ v.toNat = 1 by omega) with h | h
    · exact .inl (UInt32.toNat_inj.1 h)
    · exact .inr (UInt32.toNat_inj.1 h)
  have hw' : w = 0 ∨ w = 1 := by
    rcases (show w.toNat = 0 ∨ w.toNat = 1 by omega) with h | h
    · exact .inl (UInt32.toNat_inj.1 h)
    · exact .inr (UInt32.toNat_inj.1 h)
  rcases hv' with rfl | rfl <;> rcases hw' with rfl | rfl <;> simp at hv hw ⊢ <;> omega

/-! ### The values of a draw -/

/-- The first index of the table, after 0, whose entry is at most `z`. -/
def gaussIndex (z : ℕ) : ℕ := ((List.range' 1 26).find? fun k => (rd gauss_1024_12289 k).toNat ≤ z).getD 0

private theorem gauss_1024_12289_check : gauss_1024_12289.length = 27 ∧ rd gauss_1024_12289 26 = 0 ∧
    ∀ k < 27, (rd gauss_1024_12289 k).toNat < 2 ^ 63 := by decide +kernel

/-- The comparison by a sign bit. -/
private theorem sub_shift_63 {x y : UInt64} (hx : x.toNat < 2 ^ 63) (hy : y.toNat < 2 ^ 63) :
    ((x - y) >>> 63).toUInt32 = if x.toNat < y.toNat then 1 else 0 := by
  have hsub : ((x - y) >>> 63).toNat = (2 ^ 64 - y.toNat + x.toNat) % 2 ^ 64 / 2 ^ 63 := by
    rw [UInt64.toNat_shiftRight, Nat.shiftRight_eq_div_pow, UInt64.toNat_sub]
    rfl
  apply UInt32.toNat_inj.1
  rw [UInt64.toNat_toUInt32, hsub]
  split
  · rw [show (1 : UInt32).toNat = 1 from rfl]
    omega
  · rw [show (0 : UInt32).toNat = 0 from rfl]
    omega

/-- One entry: the index is stored if none has been found before. -/
private theorem mkgaussEntry_eq {r : UInt64} (hr : r.toNat < 2 ^ 63) {v f : UInt32} {k : ℕ} (hk : k < 27)
    (hf : f = 0 ∨ f = 1) :
    mkgaussEntry r (v, f) k =
      if (rd gauss_1024_12289 k).toNat ≤ r.toNat then (if f = 0 then v ||| UInt32.ofNat k else v, 1) else (v, f) := by
  unfold mkgaussEntry
  simp only
  rw [sub_shift_63 hr (gauss_1024_12289_check.2.2 k hk)]
  split
  · rw [if_neg (by omega)]
    rcases hf with rfl | rfl
    · simp
    · simp
  · rw [if_pos (by omega)]
    rcases hf with rfl | rfl
    · simp
    · simp

private theorem foldl_mkgaussEntry {r : UInt64} (hr : r.toNat < 2 ^ 63) (l : List ℕ) (hl : ∀ k ∈ l, k < 27) :
    (∀ v, (l.foldl (mkgaussEntry r) (v, 1)).1 = v) ∧
      (l.foldl (mkgaussEntry r) (0, 0)).1 =
        UInt32.ofNat ((l.find? fun k => (rd gauss_1024_12289 k).toNat ≤ r.toNat).getD 0) := by
  induction l with
  | nil => exact ⟨fun v => rfl, rfl⟩
  | cons k l ih =>
    obtain ⟨h1, h2⟩ := ih fun k hk => hl k (List.mem_cons_of_mem _ hk)
    have hk := hl k List.mem_cons_self
    refine ⟨fun v => ?_, ?_⟩
    · rw [List.foldl_cons, mkgaussEntry_eq hr hk (.inr rfl)]
      split
      · exact h1 v
      · exact h1 v
    · rw [List.foldl_cons, mkgaussEntry_eq hr hk (.inl rfl), List.find?_cons]
      split
      · rename_i hle
        simp only [hle, decide_true, Option.getD_some, if_true]
        rw [h1, UInt32.zero_or]
      · rename_i hle
        simp only [hle, decide_false]
        exact h2

private theorem toNat_and_not_top (r : UInt64) : (r &&& ~~~((1 : UInt64) <<< 63)).toNat = r.toNat % 2 ^ 63 := by
  rw [UInt64.toNat_and, show (~~~((1 : UInt64) <<< 63)).toNat = 2 ^ 63 - 1 from rfl, Nat.and_two_pow_sub_one_eq_mod]

private theorem gaussIndex_lt (z : ℕ) : gaussIndex z < 27 := by
  unfold gaussIndex
  cases h : (List.range' 1 26).find? fun k => (rd gauss_1024_12289 k).toNat ≤ z with
  | none => simp
  | some k =>
    have hmem := List.mem_of_find?_eq_some h
    rw [List.mem_range'_1] at hmem
    simp only [Option.getD_some]
    omega

private theorem toInt_signed : ∀ k < 27, (UInt32.ofNat k).toInt32.toInt = k ∧
    ((UInt32.ofNat k ^^^ -1) + 1).toInt32.toInt = -(k : ℤ) := by decide

/-- A draw: zero if the first word, without its sign, is below the first entry, and otherwise the index of the second
word with that sign. -/
theorem toInt_mkgaussValue (r1 r2 : UInt64) : (mkgaussValue r1 r2).toInt =
    if r1.toNat % 2 ^ 63 < 1283868770400643928 then 0
    else if r1.toNat < 2 ^ 63 then (gaussIndex (r2.toNat % 2 ^ 63) : ℤ) else -(gaussIndex (r2.toNat % 2 ^ 63) : ℤ) := by
  have hlow := toNat_and_not_top r1
  have hlow2 := toNat_and_not_top r2
  have hneg : (r1 >>> 63).toUInt32 = if r1.toNat < 2 ^ 63 then 0 else 1 := by
    have hr := r1.toNat_lt
    apply UInt32.toNat_inj.1
    rw [UInt64.toNat_toUInt32, UInt64.toNat_shiftRight, Nat.shiftRight_eq_div_pow,
      show (63 : UInt64).toNat % 64 = 63 from rfl]
    split
    · rw [UInt32.toNat_zero]
      omega
    · rw [show (1 : UInt32).toNat = 1 from rfl]
      omega
  have hl : ∀ k ∈ List.range' 1 (gauss_1024_12289.length - 1), k < 27 := by
    intro k hk
    rw [gauss_1024_12289_check.1, List.mem_range'_1] at hk
    omega
  obtain ⟨h1, h2⟩ := foldl_mkgaussEntry (r := r2 &&& ~~~((1 : UInt64) <<< 63)) (by rw [hlow2]; omega) _ hl
  have hidx := gaussIndex_lt (r2.toNat % 2 ^ 63)
  unfold mkgaussValue
  simp only
  rw [sub_shift_63 (by rw [hlow]; omega) (gauss_1024_12289_check.2.2 0 (by omega)), hlow, hneg,
    show (rd gauss_1024_12289 0).toNat = 1283868770400643928 from rfl]
  split
  · rw [h1]
    split <;> rfl
  · rw [h2, hlow2, gauss_1024_12289_check.1, show 27 - 1 = 26 from rfl]
    change (((UInt32.ofNat (gaussIndex (r2.toNat % 2 ^ 63))) ^^^ -_) + _).toInt32.toInt = _
    obtain ⟨h3, h4⟩ := toInt_signed _ hidx
    split
    · rw [UInt32.neg_zero, UInt32.xor_zero, UInt32.add_zero]
      exact h3
    · exact h4

private theorem mkgaussValue_range (r1 r2 : UInt64) :
    -26 ≤ (mkgaussValue r1 r2).toInt ∧ (mkgaussValue r1 r2).toInt ≤ 26 := by
  have hidx := gaussIndex_lt (r2.toNat % 2 ^ 63)
  rw [toInt_mkgaussValue]
  split
  · omega
  · split <;> omega

/-- A sum of draws. -/
private theorem foldl_mkgaussStep_range {k : ℕ} (hk : k ≤ 1024) (rng : Rng) :
    -(26 * k : ℤ) ≤ ((List.range k).foldl mkgaussStep (0, rng)).1.toInt ∧
      ((List.range k).foldl mkgaussStep (0, rng)).1.toInt ≤ 26 * k := by
  induction k with
  | zero => exact ⟨le_rfl, le_rfl⟩
  | succ k ih =>
    obtain ⟨h1, h2⟩ := ih (by omega)
    rw [List.range_succ, List.foldl_append, List.foldl_cons, List.foldl_nil]
    generalize (List.range k).foldl mkgaussStep (0, rng) = st at h1 h2 ⊢
    obtain ⟨h3, h4⟩ := mkgaussValue_range (getRngU64 st.2).1 (getRngU64 (getRngU64 st.2).2).1
    simp only [mkgaussStep, Int32.toInt_add]
    rw [Int.bmod_eq_of_le (by omega) (by omega)]
    push_cast
    omega

private theorem mkgauss_range {logn : ℕ} (rng : Rng) : -(26 * 2 ^ (10 - logn) : ℤ) ≤ (mkgauss rng logn).1.toInt ∧
    (mkgauss rng logn).1.toInt ≤ 26 * 2 ^ (10 - logn) := by
  have hle : 2 ^ (10 - logn) ≤ 2 ^ 10 := Nat.pow_le_pow_right (by omega) (by omega)
  have h := foldl_mkgaussStep_range (k := 2 ^ (10 - logn)) hle rng
  unfold mkgauss
  rw [Nat.shiftLeft_eq, one_mul]
  push_cast at h
  exact h

/-! ### The sampler -/

section Sampler

variable {logn fuel : ℕ} {req mod2 : UInt32}

/-- The largest absolute value of a coefficient. -/
def coeffBound (logn : ℕ) : ℤ := min 127 (26 * 2 ^ (10 - logn))

/-- An accepted coefficient. -/
theorem chooseCoeff_spec {last : Bool} {rng rng' : Rng} {s : Int32}
    (h : chooseCoeff logn req mod2 last fuel rng = some (s, rng')) :
    |s.toInt| ≤ coeffBound logn ∧ (last = true → mod2 ^^^ (s &&& 1).toUInt32 = req) := by
  induction fuel generalizing rng with
  | zero => exact absurd h (by simp [chooseCoeff])
  | succ fuel ih =>
    unfold chooseCoeff at h
    simp only at h
    split at h
    · exact ih h
    · rename_i hrange
      split at h
      · exact ih h
      · rename_i hlast
        obtain ⟨rfl, -⟩ := Prod.mk.inj (Option.some.inj h)
        rw [not_or, Int32.lt_iff_toInt_lt, gt_iff_lt, Int32.lt_iff_toInt_lt] at hrange
        obtain ⟨hlow, hhigh⟩ := hrange
        have h127 : (127 : Int32).toInt = 127 ∧ (-127 : Int32).toInt = -127 := by decide
        refine ⟨le_min (abs_le.2 ⟨by omega, by omega⟩) (abs_le.2 (mkgauss_range rng)), fun hl => ?_⟩
        by_contra hne
        exact hlast ⟨hl, hne⟩

/-- What holds after `u` coefficients: they are in range, and `mod2` is the parity of their sum, or they have the
requested parity if they are all. -/
structure Chosen (logn : ℕ) (req : UInt32) (u : ℕ) (st : List Int8 × UInt32 × Rng) : Prop where
  length : st.1.length = u
  range : ∀ c ∈ st.1, |c.toInt| ≤ coeffBound logn
  running : u < 1 <<< logn → HasParity st.2.1 (coeffSum st.1)
  complete : u = 1 <<< logn → HasParity req (coeffSum st.1)

theorem Chosen.step {u : ℕ} {st st' : List Int8 × UInt32 × Rng} (hu : u < 1 <<< logn) (h : Chosen logn req u st)
    (hstep : chooseStep logn fuel req st u = some st') : Chosen logn req (u + 1) st' := by
  unfold chooseStep at hstep
  obtain ⟨⟨s, rng'⟩, hdraw, rfl⟩ := Option.map_eq_some_iff.1 hstep
  obtain ⟨hrange, hpar⟩ := chooseCoeff_spec hdraw
  have hval : s.toInt8.toInt = s.toInt := by
    obtain ⟨hlow, hhigh⟩ := abs_le.1 (hrange.trans (min_le_left _ _))
    rw [Int32.toInt_toInt8]
    exact Int.bmod_eq_of_le (by omega) (by omega)
  have hsum : coeffSum (st.1 ++ [s.toInt8]) = coeffSum st.1 + s.toInt := by
    unfold coeffSum
    rw [List.map_append, List.sum_append, List.map_singleton, List.sum_singleton, hval]
  have hxor := (h.running hu).xor (hasParity_and_one s)
  refine ⟨by simp [h.length], fun c hc => ?_, fun hlt => ?_, fun heq => ?_⟩
  · rcases List.mem_append.1 hc with hc | hc
    · exact h.range c hc
    · rw [List.mem_singleton.1 hc, hval]
      exact hrange
  · have hlast : decide (u = (1 <<< logn) - 1) = false := decide_eq_false (by omega)
    simp only [hlast, Bool.false_eq_true, if_false]
    rwa [hsum]
  · have hlast : u = (1 <<< logn) - 1 := by omega
    simp only
    rwa [hsum, ← hpar (decide_eq_true hlast)]

/-- The loop up to `k`. -/
private theorem Chosen.of_foldlM {rng : Rng} {k : ℕ} (hk : k ≤ 1 <<< logn) {st : List Int8 × UInt32 × Rng}
    (h : (List.range k).foldlM (chooseStep logn fuel req) ([], 0, rng) = some st) : Chosen logn req k st := by
  induction k generalizing st with
  | zero =>
    obtain rfl := Option.some.inj h
    have hpos : 0 < 1 <<< logn := by
      rw [Nat.shiftLeft_eq, one_mul]
      positivity
    exact ⟨rfl, fun c hc => absurd hc List.not_mem_nil, fun _ => rfl, fun h => absurd h (by omega)⟩
  | succ k ih =>
    rw [List.range_succ, List.foldlM_append] at h
    obtain ⟨st', hst', hstep⟩ := Option.bind_eq_some_iff.1 h
    rw [List.foldlM_cons] at hstep
    obtain ⟨st'', hst'', hpure⟩ := Option.bind_eq_some_iff.1 hstep
    obtain rfl := Option.some.inj hpure
    exact (ih (by omega) hst').step (by omega) hst''

private theorem hasParity_req {parity : Int32} {x : ℤ} :
    HasParity (parity.toUInt32 &&& 1) x ↔ x % 2 = parity.toInt % 2 := by
  have hreq := hasParity_and_one parity
  unfold HasParity at hreq ⊢
  rw [Int32.toUInt32_and] at hreq
  exact ⟨fun h => h.symm.trans hreq, fun h => hreq.trans h.symm⟩

/-- Whenever the sampler finishes, the coefficients are in range and their sum has the requested parity. -/
theorem polySmallMkgaussChoose_spec {rng rng' : Rng} {parity : Int32} {f : List Int8}
    (h : polySmallMkgaussChoose fuel rng logn parity = some (f, rng')) :
    f.length = 1 <<< logn ∧ (∀ c ∈ f, |c.toInt| ≤ coeffBound logn) ∧ coeffSum f % 2 = parity.toInt % 2 := by
  obtain ⟨st, hrun, heq⟩ := Option.map_eq_some_iff.1 h
  obtain ⟨rfl, -⟩ := Prod.mk.inj heq
  have hst := Chosen.of_foldlM le_rfl hrun
  exact ⟨hst.length, hst.range, hasParity_req.1 (hst.complete rfl)⟩

end Sampler

/-! ### The vectors that can be drawn -/

/-- The bytes of a word in the stream. -/
def wordBytes (w : UInt64) : List UInt8 := (List.range 8).map fun i => (w >>> UInt64.ofNat (8 * i)).toUInt8

/-- Two words that make the draw `d`. -/
def drawWords (d : ℤ) : UInt64 × UInt64 :=
  if d = 0 then (0, 0) else (if d < 0 then 0xC000000000000000 else 0x4000000000000000, rd gauss_1024_12289 d.natAbs)

/-- The bytes that make the draw `d`. -/
def drawBytes (d : ℤ) : List UInt8 := wordBytes (drawWords d).1 ++ wordBytes (drawWords d).2

/-- A coefficient as a sum of draws. -/
def drawsOf : ℕ → ℤ → List ℤ
  | 0, _ => []
  | g + 1, c => max (-26) (min 26 c) :: drawsOf g (c - max (-26) (min 26 c))

/-- The bytes that make the coefficient `c` from `g` draws. -/
def coeffBytes (g : ℕ) (c : ℤ) : List UInt8 := (drawsOf g c).flatMap drawBytes

private theorem drawWords_check : ∀ i : ℕ, i < 53 →
    wordOfBytes (wordBytes (drawWords ((i : ℤ) - 26)).1) = (drawWords ((i : ℤ) - 26)).1 ∧
    wordOfBytes (wordBytes (drawWords ((i : ℤ) - 26)).2) = (drawWords ((i : ℤ) - 26)).2 ∧
    (mkgaussValue (drawWords ((i : ℤ) - 26)).1 (drawWords ((i : ℤ) - 26)).2).toInt = (i : ℤ) - 26 := by decide +kernel

private theorem getRngU64_append {w : UInt64} (hw : wordOfBytes (wordBytes w) = w) (s : Rng) :
    getRngU64 (wordBytes w ++ₛ s) = (w, s) := by
  have htake : (wordBytes w ++ₛ s).take 8 = wordBytes w := Stream'.take_append_of_le_length (n := 8) _ _ (by rfl)
  have hdrop : (wordBytes w ++ₛ s).drop 8 = s := Stream'.drop_append_stream (wordBytes w) s
  simp only [getRngU64, extractBytes, htake, hdrop, hw]

/-- One draw from its bytes. -/
private theorem mkgaussStep_append {d : ℤ} (h1 : -26 ≤ d) (h2 : d ≤ 26) (val : Int32) (s : Rng) (u : ℕ) :
    mkgaussStep (val, drawBytes d ++ₛ s) u = (val + Int32.ofInt d, s) := by
  obtain ⟨i, hi, rfl⟩ : ∃ i : ℕ, i < 53 ∧ d = (i : ℤ) - 26 := ⟨(d + 26).toNat, by omega, by omega⟩
  obtain ⟨h3, h4, h5⟩ := drawWords_check i hi
  have hval : mkgaussValue (drawWords ((i : ℤ) - 26)).1 (drawWords ((i : ℤ) - 26)).2 = Int32.ofInt ((i : ℤ) - 26) := by
    have h := congrArg Int32.ofInt h5
    rwa [Int32.ofInt_toInt] at h
  unfold mkgaussStep drawBytes
  rw [Stream'.append_append_stream, getRngU64_append h3]
  simp only
  rw [getRngU64_append h4, hval]

private theorem foldl_mkgaussStep_append {ds : List ℤ} (h : ∀ d ∈ ds, -26 ≤ d ∧ d ≤ 26) (l : List ℕ)
    (hl : l.length = ds.length) (val : Int32) (s : Rng) :
    l.foldl mkgaussStep (val, ds.flatMap drawBytes ++ₛ s) = (val + Int32.ofInt ds.sum, s) := by
  induction ds generalizing l val with
  | nil =>
    obtain rfl := List.eq_nil_of_length_eq_zero hl
    simp
  | cons d ds ih =>
    obtain ⟨u, l, rfl⟩ := List.exists_cons_of_length_eq_add_one hl
    have hd := h d List.mem_cons_self
    rw [List.foldl_cons, List.flatMap_cons, Stream'.append_append_stream, mkgaussStep_append hd.1 hd.2,
      ih (fun d hd => h d (List.mem_cons_of_mem _ hd)) l (by simpa using hl), List.sum_cons, Int32.ofInt_add,
      Int32.add_assoc]

theorem drawsOf_spec (g : ℕ) {c : ℤ} (h1 : -(26 * g : ℤ) ≤ c) (h2 : c ≤ 26 * g) :
    (drawsOf g c).length = g ∧ (drawsOf g c).sum = c ∧ ∀ d ∈ drawsOf g c, -26 ≤ d ∧ d ≤ 26 := by
  induction g generalizing c with
  | zero =>
    refine ⟨rfl, ?_, fun d hd => absurd hd List.not_mem_nil⟩
    simp only [drawsOf, List.sum_nil]
    omega
  | succ g ih =>
    push_cast at h1 h2
    obtain ⟨h3, h4, h5⟩ := ih (c := c - max (-26) (min 26 c)) (by omega) (by omega)
    refine ⟨by rw [drawsOf, List.length_cons, h3], by rw [drawsOf, List.sum_cons, h4]; omega, fun d hd => ?_⟩
    rcases List.mem_cons.1 hd with rfl | hd
    · omega
    · exact h5 d hd

/-- A coefficient from its bytes. -/
private theorem mkgauss_append {logn : ℕ} {c : ℤ} (h1 : -(26 * 2 ^ (10 - logn) : ℤ) ≤ c)
    (h2 : c ≤ 26 * 2 ^ (10 - logn)) (s : Rng) :
    mkgauss (coeffBytes (2 ^ (10 - logn)) c ++ₛ s) logn = (Int32.ofInt c, s) := by
  obtain ⟨h3, h4, h5⟩ := drawsOf_spec (2 ^ (10 - logn)) (c := c) (by push_cast; exact h1) (by push_cast; exact h2)
  unfold mkgauss coeffBytes
  rw [foldl_mkgaussStep_append h5 _ (by rw [List.length_range, h3, Nat.shiftLeft_eq, one_mul]), h4, Int32.zero_add]

/-- A coefficient from its bytes, at the first draw. -/
private theorem chooseCoeff_append {logn : ℕ} {req mod2 : UInt32} {last : Bool} {c : Int8}
    (hc : |c.toInt| ≤ coeffBound logn) (hlast : last = true → mod2 ^^^ (c.toInt32 &&& 1).toUInt32 = req) (s : Rng) :
    chooseCoeff logn req mod2 last 1 (coeffBytes (2 ^ (10 - logn)) c.toInt ++ₛ s) = some (c.toInt32, s) := by
  obtain ⟨hc1, hc2⟩ := le_min_iff.1 hc
  obtain ⟨h1, h2⟩ := abs_le.1 hc1
  obtain ⟨h3, h4⟩ := abs_le.1 hc2
  have hofInt : Int32.ofInt c.toInt = c.toInt32 := by
    have h := congrArg Int32.ofInt (Int8.toInt_toInt32 c)
    rw [← h, Int32.ofInt_toInt]
  have hrange : ¬(c.toInt32 < -127 ∨ c.toInt32 > 127) := by
    have h127 : (127 : Int32).toInt = 127 ∧ (-127 : Int32).toInt = -127 := by decide
    rw [not_or, Int32.lt_iff_toInt_lt, gt_iff_lt, Int32.lt_iff_toInt_lt, Int8.toInt_toInt32]
    omega
  unfold chooseCoeff
  simp only
  rw [mkgauss_append h3 h4, hofInt, if_neg hrange, if_neg]
  rintro ⟨hl, hne⟩
  exact hne (hlast hl)

/-- The sampler on the bytes of a vector. -/
theorem polySmallMkgaussChoose_append {logn : ℕ} {parity : Int32} {f : List Int8} (hlen : f.length = 1 <<< logn)
    (hrange : ∀ c ∈ f, |c.toInt| ≤ coeffBound logn) (hparity : coeffSum f % 2 = parity.toInt % 2) (s : Rng) :
    polySmallMkgaussChoose 1 (f.flatMap (fun c => coeffBytes (2 ^ (10 - logn)) c.toInt) ++ₛ s) logn parity =
      some (f, s) := by
  have hrun : ∀ k ≤ 1 <<< logn, ∃ mod2, (List.range k).foldlM (chooseStep logn 1 (parity.toUInt32 &&& 1)) ([], 0,
      f.flatMap (fun c => coeffBytes (2 ^ (10 - logn)) c.toInt) ++ₛ s) =
      some (f.take k, mod2, (f.drop k).flatMap (fun c => coeffBytes (2 ^ (10 - logn)) c.toInt) ++ₛ s) := by
    intro k hk
    induction k with
    | zero => exact ⟨0, rfl⟩
    | succ k ih =>
      obtain ⟨mod2, hk'⟩ := ih (by omega)
      have hchosen := Chosen.of_foldlM (by omega) hk'
      have hlt : k < f.length := by omega
      have hmem := List.getElem_mem hlt
      have hsum : coeffSum (f.take (k + 1)) = coeffSum (f.take k) + f[k].toInt := by
        unfold coeffSum
        rw [List.take_add_one, List.getElem?_eq_getElem hlt, List.map_append, List.sum_append]
        simp
      have hlast : decide (k = (1 <<< logn) - 1) = true →
        mod2 ^^^ (f[k].toInt32 &&& 1).toUInt32 = parity.toUInt32 &&& 1 := by
        intro hl
        have hall : f.take (k + 1) = f := List.take_of_length_le (by have := of_decide_eq_true hl; omega)
        have hxor := (hchosen.running (by omega)).xor (hasParity_and_one f[k].toInt32)
        have hreq := hasParity_req.2 hparity
        rw [Int8.toInt_toInt32, ← hsum, hall] at hxor
        unfold HasParity at hxor hreq
        exact UInt32.toNat_inj.1 (Int.ofNat_inj.1 (hxor.trans hreq.symm))
      refine ⟨if decide (k = (1 <<< logn) - 1) then mod2 else mod2 ^^^ (f[k].toInt32 &&& 1).toUInt32, ?_⟩
      rw [List.range_succ, List.foldlM_append, hk', List.drop_eq_getElem_cons hlt, List.flatMap_cons,
        Stream'.append_append_stream, List.take_add_one, List.getElem?_eq_getElem hlt]
      simp only [Option.bind_eq_bind, Option.bind_some, List.foldlM_cons, List.foldlM_nil, chooseStep]
      rw [chooseCoeff_append (hrange _ hmem) hlast]
      simp
  obtain ⟨mod2, hn⟩ := hrun _ le_rfl
  unfold polySmallMkgaussChoose
  simp only
  rw [hn, Option.map_some, ← hlen, List.take_length, List.drop_length]
  rfl

/-- The sampler returns the vectors with coefficients in range and a sum of the requested parity, and no other. -/
theorem polySmallMkgaussChoose_iff (logn : ℕ) (parity : Int32) (f : List Int8) :
    (∃ fuel rng rng', polySmallMkgaussChoose fuel rng logn parity = some (f, rng')) ↔
      f.length = 1 <<< logn ∧ (∀ c ∈ f, |c.toInt| ≤ coeffBound logn) ∧ coeffSum f % 2 = parity.toInt % 2 := by
  constructor
  · rintro ⟨fuel, rng, rng', h⟩
    exact polySmallMkgaussChoose_spec h
  · rintro ⟨hlen, hrange, hparity⟩
    exact ⟨1, _, _, polySmallMkgaussChoose_append hlen hrange hparity (Stream'.const 0)⟩

end DfVrf.Crypto
