import DfVrf.Crypto.HashToPoint
import DfVrf.Lib.Compaction

/-!
# Hashing to a polynomial in constant time (`common.c`)

`hash_to_point_ct` draws a fixed number of samples, marks the rejected ones, and moves the accepted ones to the front
in passes with the jumps 1, 2, 4, …, the exchanges being selected by masks.  The arrays `x`, `tt1` and `tt2` of the
code hold the samples one after the other; here they are one array.  If enough samples have been accepted, the result
is that of `hash_to_point_vartime` (`first_hashToPointCt`); otherwise it shows a marker (`hashToPointCt_eq_vartime`).
-/

namespace DfVrf.Crypto

open InPlace

/-- The number of samples beyond `2 ^ logn`, indexed by `logn`. -/
def overtab : List ℕ := [0, 65, 67, 71, 77, 86, 100, 122, 154, 205, 287]

/-- The reduced value of a sample, `0xFFFF` for a rejected one. -/
def ctSample (buf : List UInt8) : UInt16 :=
  let w := ((rd buf 0).toUInt32 <<< 8) ||| (rd buf 1).toUInt32
  let wr := w - ((24578 : UInt32) &&& (((w - 24578) >>> 31) - 1))
  let wr := wr - ((24578 : UInt32) &&& (((wr - 24578) >>> 31) - 1))
  let wr := wr - ((12289 : UInt32) &&& (((wr - 12289) >>> 31) - 1))
  let wr := wr ||| (((w - 61445) >>> 31) - 1)
  wr.toUInt16

/-- One iteration of a pass with the jump `p`, on the final index `v` of the next value and the array. -/
def ctStep (p : ℕ) (st : UInt32 × List UInt16) (u : ℕ) : UInt32 × List UInt16 :=
  let sv := (rd st.2 u).toUInt32
  let j := UInt32.ofNat u - st.1
  -- all ones for an accepted sample
  let mk := (sv >>> 15) - 1
  let v := st.1 - mk
  if u < p then (v, st.2)
  else
    let dv := (rd st.2 (u - p)).toUInt32
    let mk := mk &&& -(((j &&& UInt32.ofNat p) + 0x1FF) >>> 9)
    (v, (st.2.set u (sv ^^^ (mk &&& (sv ^^^ dv))).toUInt16).set (u - p) (dv ^^^ (mk &&& (sv ^^^ dv))).toUInt16)

/-- The passes of `hash_to_point_ct` over `m` samples; `p` doubles from `1` while it is at most `oversample`, which is
less than `2 ^ 9`. -/
def ctCompact (m oversample : ℕ) (x : List UInt16) : List UInt16 :=
  ((List.range 9).filter fun k => 2 ^ k ≤ oversample).foldl
    (fun x k => ((List.range m).foldl (ctStep (2 ^ k)) (0, x)).2) x

/-- `hash_to_point_ct`. -/
def hashToPointCt (f : Lanes → Lanes) (sc : Shake256) (logn : ℕ) : List UInt16 :=
  let n := 1 <<< logn
  let oversample := rd overtab logn
  let m := n + oversample
  let x := (Sampling.drawAll (fun sc => ((sc.extract f 2).2, (sc.extract f 2).1)) m sc).map ctSample
  (ctCompact m oversample x).take n

/-- `keccak_hash_to_point_ct`. -/
def keccakHashToPointCt (K : Keccak256) (kc : KeccakPrng) (logn : ℕ) : List UInt16 :=
  let n := 1 <<< logn
  let oversample := rd overtab logn
  let m := n + oversample
  let x := (Sampling.drawAll (fun kc => ((kc.extract K 2).2.2, (kc.extract K 2).2.1)) m kc).map ctSample
  (ctCompact m oversample x).take n

/-! ### A sample -/

/-- The masked subtraction of the code. -/
private theorem toNat_sub_mask {x c : UInt32} (hx : x.toNat < 2 ^ 31) (hc : c.toNat < 2 ^ 31) :
    (((x - c) >>> 31) - 1 = if x.toNat < c.toNat then 0 else 0xFFFFFFFF) ∧
      (x - (c &&& (((x - c) >>> 31) - 1))).toNat = if x.toNat < c.toNat then x.toNat else x.toNat - c.toNat := by
  have hsub : (x - c).toNat = (2 ^ 32 - c.toNat + x.toNat) % 2 ^ 32 := UInt32.toNat_sub x c
  have hshift : ((x - c) >>> 31).toNat = (x - c).toNat / 2 ^ 31 := by
    rw [UInt32.toNat_shiftRight, show (31 : UInt32).toNat % 32 = 31 from rfl, Nat.shiftRight_eq_div_pow]
  by_cases h : x.toNat < c.toNat
  · have hone : (x - c) >>> 31 = 1 := by
      apply UInt32.toNat_inj.1
      rw [hshift, hsub, show (1 : UInt32).toNat = 1 from rfl]
      omega
    rw [if_pos h, if_pos h, hone, UInt32.sub_self, UInt32.and_zero, UInt32.sub_zero]
    exact ⟨rfl, rfl⟩
  · have hzero : (x - c) >>> 31 = 0 := by
      apply UInt32.toNat_inj.1
      rw [hshift, hsub, show (0 : UInt32).toNat = 0 from rfl]
      omega
    have hmask : (0 : UInt32) - 1 = 0xFFFFFFFF := by decide
    have hand : c &&& 0xFFFFFFFF = c := UInt32.and_neg_one
    rw [if_neg h, if_neg h, hzero, hmask, hand, hsub]
    refine ⟨rfl, ?_⟩
    omega

/-- An accepted sample; the other entries have their highest bit set. -/
def ctAccepted (x : UInt16) : Option UInt16 := if x.toNat < 2 ^ 15 then some x else none

/-- The sample of an accepted value is the reduced value, that of a rejected one the marker. -/
private theorem ctSample_eq (buf : List UInt8) :
    ctSample buf = if (rd buf 0).toNat * 256 + (rd buf 1).toNat < 61445
      then UInt16.ofNat (((rd buf 0).toNat * 256 + (rd buf 1).toNat) % 12289) else 0xFFFF := by
  have hb0 := (rd buf 0).toNat_lt
  have hb1 := (rd buf 1).toNat_lt
  have hw := toNat_be16 (rd buf 0) (rd buf 1)
  rw [ctSample, ← hw]
  generalize ((rd buf 0).toUInt32 <<< 8) ||| (rd buf 1).toUInt32 = w at hw ⊢
  have hlt : w.toNat < 65536 := by omega
  obtain ⟨_, h1⟩ := toNat_sub_mask (x := w) (c := 24578) (by omega) (by decide)
  generalize w - ((24578 : UInt32) &&& (((w - 24578) >>> 31) - 1)) = w1 at h1 ⊢
  rw [show (24578 : UInt32).toNat = 24578 from rfl] at h1
  have hlt1 : w1.toNat < 65536 := by split at h1 <;> omega
  obtain ⟨_, h2⟩ := toNat_sub_mask (x := w1) (c := 24578) (by omega) (by decide)
  generalize w1 - ((24578 : UInt32) &&& (((w1 - 24578) >>> 31) - 1)) = w2 at h2 ⊢
  rw [show (24578 : UInt32).toNat = 24578 from rfl] at h2
  have hlt2 : w2.toNat < 65536 := by split at h2 <;> omega
  obtain ⟨_, h3⟩ := toNat_sub_mask (x := w2) (c := 12289) (by omega) (by decide)
  generalize w2 - ((12289 : UInt32) &&& (((w2 - 12289) >>> 31) - 1)) = w3 at h3 ⊢
  rw [show (12289 : UInt32).toNat = 12289 from rfl] at h3
  obtain ⟨h4, _⟩ := toNat_sub_mask (x := w) (c := 61445) (by omega) (by decide)
  rw [show (61445 : UInt32).toNat = 61445 from rfl] at h4
  rw [h4]
  by_cases h : w.toNat < 61445
  · -- at most two subtractions of `2 * q` and one of `q`
    have hmod : w3.toNat = w.toNat % 12289 := by
      split at h1 <;> split at h2 <;> split at h3 <;> omega
    rw [if_pos h, if_pos h, UInt32.or_zero]
    apply UInt16.toNat_inj.1
    rw [UInt32.toNat_toUInt16, UInt16.toNat_ofNat', hmod]
  · rw [if_neg h, if_neg h, show w3 ||| 0xFFFFFFFF = 0xFFFFFFFF from UInt32.or_neg_one]
    rfl

/-- A sample is accepted and reduced as in `hash_to_point_vartime`. -/
private theorem ctAccepted_ctSample (buf : List UInt8) : ctAccepted (ctSample buf) = sampleCoeff buf := by
  rw [sampleCoeff_eq, ctSample_eq, acceptSample]
  generalize (rd buf 0).toNat * 256 + (rd buf 1).toNat = w
  by_cases h : w < 61445
  · have hmod := Nat.mod_lt w (show 0 < 12289 by omega)
    rw [if_pos h, if_pos h, Option.map_some, ctAccepted, UInt16.toNat_ofNat', if_pos (by omega)]
  · rw [if_neg h, if_neg h]
    rfl

/-- A rejected sample is the marker. -/
private theorem ctSample_of_none {buf : List UInt8} (h : ctAccepted (ctSample buf) = none) : ctSample buf = 0xFFFF := by
  rw [ctAccepted_ctSample, sampleCoeff_eq, acceptSample] at h
  rw [ctSample_eq]
  split at h
  · exact absurd h (by simp)
  · rename_i hw
    exact if_neg hw

/-! ### The passes -/

private theorem set_rd_self (a : List UInt16) (i : ℕ) : a.set i (rd a i) = a := by
  apply ext_rd (List.length_set ..)
  intro j _
  rw [rd_set]
  split
  · rename_i h
    rw [h.1]
  · rfl

/-- The mask of an entry: all ones for an accepted sample. -/
private theorem mask_eq (x : UInt16) : (x.toUInt32 >>> 15) - 1 = if x.toNat < 2 ^ 15 then 0xFFFFFFFF else 0 := by
  have hx := x.toNat_lt
  have hshift : (x.toUInt32 >>> 15).toNat = x.toNat / 2 ^ 15 := by
    rw [UInt32.toNat_shiftRight, UInt16.toNat_toUInt32, show (15 : UInt32).toNat % 32 = 15 from rfl,
      Nat.shiftRight_eq_div_pow]
  by_cases h : x.toNat < 2 ^ 15
  · have hzero : x.toUInt32 >>> 15 = 0 := by
      apply UInt32.toNat_inj.1
      rw [hshift, show (0 : UInt32).toNat = 0 from rfl]
      omega
    rw [if_pos h, hzero]
    decide
  · have hone : x.toUInt32 >>> 15 = 1 := by
      apply UInt32.toNat_inj.1
      rw [hshift, show (1 : UInt32).toNat = 1 from rfl]
      omega
    rw [if_neg h, hone]
    decide

/-- The mask of a jump: all ones if the distance has the bit of the jump. -/
private theorem jump_mask_eq {k d : ℕ} (hk : k < 9) (hd : d < 2 ^ 32) :
    -(((UInt32.ofNat d &&& UInt32.ofNat (2 ^ k)) + 0x1FF) >>> 9) = if d.testBit k then 0xFFFFFFFF else 0 := by
  have hand : UInt32.ofNat d &&& UInt32.ofNat (2 ^ k) = UInt32.ofNat ((d.testBit k).toNat * 2 ^ k) := by
    have hpow : 2 ^ k < 2 ^ 32 := Nat.pow_lt_pow_right (by omega) (by omega)
    apply UInt32.toNat_inj.1
    rw [UInt32.toNat_and, UInt32.toNat_ofNat', UInt32.toNat_ofNat', UInt32.toNat_ofNat', Nat.mod_eq_of_lt hd,
      Nat.mod_eq_of_lt hpow, Nat.and_two_pow]
    refine (Nat.mod_eq_of_lt ?_).symm
    cases d.testBit k with
    | false => simp
    | true => simpa using hpow
  have hall : ∀ k < 9, ∀ b : Bool, -((UInt32.ofNat (b.toNat * 2 ^ k) + 0x1FF) >>> 9) =
      if b then 0xFFFFFFFF else 0 := by decide
  rw [hand]
  exact hall k hk _

/-- A selected exchange. -/
private theorem xor_all (x y : UInt16) : (x.toUInt32 ^^^ (0xFFFFFFFF &&& (x.toUInt32 ^^^ y.toUInt32))).toUInt16 = y ∧
    (y.toUInt32 ^^^ (0xFFFFFFFF &&& (x.toUInt32 ^^^ y.toUInt32))).toUInt16 = x := by
  have hand : 0xFFFFFFFF &&& (x.toUInt32 ^^^ y.toUInt32) = x.toUInt32 ^^^ y.toUInt32 := UInt32.neg_one_and
  rw [hand]
  constructor
  · rw [← UInt32.xor_assoc, UInt32.xor_self, UInt32.zero_xor]
    exact UInt16.toUInt16_toUInt32 y
  · rw [UInt32.xor_comm x.toUInt32, ← UInt32.xor_assoc, UInt32.xor_self, UInt32.zero_xor]
    exact UInt16.toUInt16_toUInt32 x

/-- An exchange that is not selected. -/
private theorem xor_none (x y z : UInt16) : (x.toUInt32 ^^^ (0 &&& (y.toUInt32 ^^^ z.toUInt32))).toUInt16 = x := by
  rw [UInt32.zero_and, UInt32.xor_zero]
  exact UInt16.toUInt16_toUInt32 x

/-- One iteration on machine values is one iteration of the abstract pass. -/
private theorem ctStep_eq {k v u : ℕ} {a : List UInt16} (hk : k < 9) (hv : v ≤ u) (hu : u < 2 ^ 31) :
    ctStep (2 ^ k) (UInt32.ofNat v, a) u = (UInt32.ofNat (Compaction.step ctAccepted k (v, a) u).1,
      (Compaction.step ctAccepted k (v, a) u).2) := by
  have hj : UInt32.ofNat u - UInt32.ofNat v = UInt32.ofNat (u - v) := by
    apply UInt32.toNat_inj.1
    rw [UInt32.toNat_sub, UInt32.toNat_ofNat', UInt32.toNat_ofNat', UInt32.toNat_ofNat']
    omega
  rw [ctStep, Compaction.step]
  simp only [hj, jump_mask_eq hk (show u - v < 2 ^ 32 by omega), mask_eq]
  by_cases h : (rd a u).toNat < 2 ^ 15
  · -- an accepted sample
    have hacc : (ctAccepted (rd a u)).isSome = true := by rw [ctAccepted, if_pos h]; rfl
    have hnext : UInt32.ofNat v - 0xFFFFFFFF = UInt32.ofNat (v + 1) := by
      apply UInt32.toNat_inj.1
      rw [UInt32.toNat_sub, UInt32.toNat_ofNat', UInt32.toNat_ofNat', show (0xFFFFFFFF : UInt32).toNat = 2 ^ 32 - 1
        from rfl]
      omega
    rw [if_pos h, if_pos hacc, hnext]
    by_cases hbit : (u - v).testBit k = true
    · have hpow := Nat.ge_two_pow_of_testBit hbit
      rw [if_pos hbit, if_pos hbit, if_neg (by omega), show (0xFFFFFFFF : UInt32) &&& 0xFFFFFFFF = 0xFFFFFFFF from rfl,
        (xor_all (rd a u) (rd a (u - 2 ^ k))).1, (xor_all (rd a u) (rd a (u - 2 ^ k))).2, Compaction.swap]
    · rw [if_neg hbit, if_neg hbit, show (0xFFFFFFFF : UInt32) &&& 0 = 0 from rfl, xor_none, xor_none, set_rd_self,
        set_rd_self, ite_self]
  · have hacc : ¬ (ctAccepted (rd a u)).isSome = true := by rw [ctAccepted, if_neg h]; decide
    rw [if_neg h, if_neg hacc, UInt32.zero_and, xor_none, xor_none, set_rd_self, set_rd_self, UInt32.sub_zero,
      ite_self]

/-- A pass on machine values is an abstract pass. -/
private theorem ctPass_eq {k m : ℕ} (hk : k < 9) (hm : m ≤ 2 ^ 31) (a : List UInt16) :
    ((List.range m).foldl (ctStep (2 ^ k)) (0, a)).2 = Compaction.pass ctAccepted m a k := by
  have hfold : ∀ u ≤ m, ((List.range u).foldl (Compaction.step ctAccepted k) (0, a)).1 ≤ u ∧
      (List.range u).foldl (ctStep (2 ^ k)) (0, a) =
        (UInt32.ofNat ((List.range u).foldl (Compaction.step ctAccepted k) (0, a)).1,
          ((List.range u).foldl (Compaction.step ctAccepted k) (0, a)).2) := by
    intro u hu
    induction u with
    | zero => exact ⟨le_refl 0, rfl⟩
    | succ u ih =>
      obtain ⟨hle, heq⟩ := ih (by omega)
      rw [List.range_succ, List.foldl_append, List.foldl_append, heq]
      generalize (List.range u).foldl (Compaction.step ctAccepted k) (0, a) = st at hle ⊢
      refine ⟨?_, ctStep_eq hk hle (by omega)⟩
      rw [List.foldl_cons, List.foldl_nil, Compaction.step]
      split
      · exact Nat.succ_le_succ hle
      · exact Nat.le_succ_of_le hle
  rw [(hfold m (le_refl m)).2, Compaction.pass]

/-! ### The whole function -/

/-- What the marker of `ctSample` says of a draw is what the variable-time functions compute of it. -/
private theorem filterMap_ctSample (bufs : List (List UInt8)) :
    (bufs.map ctSample).filterMap ctAccepted = (bufs.map sampleCoeff).filterMap id := by
  rw [List.filterMap_map, List.filterMap_map]
  congr 1
  funext buf
  exact ctAccepted_ctSample buf

/-- The samples of the code, and those of `hash_to_point_vartime`. -/
private theorem samples_eq (f : Lanes → Lanes) (inputs : List (List UInt8)) (m : ℕ) :
    ((Sampling.drawAll (fun sc => ((Shake256.extract f sc 2).2, (Shake256.extract f sc 2).1)) m
      (Shake256.seeded f inputs)).map ctSample).filterMap ctAccepted =
      Sampling.accepted (fun j => (draws (Shake256.keystream f inputs.flatten) j).map UInt16.ofNat) m := by
  have hI : ∀ d sc, Shake256.AtPos f inputs.flatten sc (2 * d) →
      sampleCoeff (Shake256.extract f sc 2).2 =
        (draws (Shake256.keystream f inputs.flatten) d).map UInt16.ofNat ∧
        Shake256.AtPos f inputs.flatten (Shake256.extract f sc 2).1 (2 * (d + 1)) := by
    intro d sc h
    obtain ⟨h1, h2⟩ := Shake256.extract_spec h 2
    exact ⟨by rw [h2, sampleCoeff_stream], h1⟩
  have hstart : Shake256.AtPos f inputs.flatten (Shake256.seeded f inputs) (2 * 0) := Shake256.atPos_seeded f inputs
  have hdraw : (Sampling.drawAll (fun sc => ((Shake256.extract f sc 2).2, (Shake256.extract f sc 2).1)) m
      (Shake256.seeded f inputs)).map sampleCoeff = (List.range' 0 m).map
        fun j => (draws (Shake256.keystream f inputs.flatten) j).map UInt16.ofNat :=
    Sampling.map_drawAll hI m hstart
  rw [filterMap_ctSample, hdraw, List.filterMap_map, ← List.range_eq_range']
  rfl

private theorem ctCompact_eq (x : List UInt16) :
    ctCompact 717 205 x = (List.range 8).foldl (Compaction.pass ctAccepted 717) x := by
  have hfilter : (List.range 9).filter (fun k => 2 ^ k ≤ 205) = List.range 8 := by decide
  rw [ctCompact, hfilter]
  apply List.foldl_ext
  intro a k hk
  have hk := List.mem_range.1 hk
  exact ctPass_eq (by omega) (by decide) a

/-- If enough samples are accepted, they stand at the front after the passes. -/
private theorem take_ctCompact {x : List UInt16} (hx : x.length = 717) (h : 512 ≤ (x.filterMap ctAccepted).length) :
    (ctCompact 717 205 x).take 512 = (x.filterMap ctAccepted).take 512 := by
  obtain ⟨pos, hspread⟩ := Compaction.exists_spread ctAccepted x
  have hpass := hspread.passes (k := 8) (by rw [hx]; omega)
  rw [hx] at hpass
  rw [ctCompact_eq]
  generalize (List.range 8).foldl (Compaction.pass ctAccepted 717) x = b at hpass ⊢
  generalize x.filterMap ctAccepted = vals at h hpass ⊢
  obtain ⟨hlast, hfront⟩ := hpass
  -- the entry of rank `r` is the accepted value of rank `r`
  apply ext_rd
  · rw [List.length_take, List.length_take, hlast]
    omega
  · intro r hr
    rw [List.length_take] at hr
    have hval := hfront.at_pos r (by omega)
    rw [ctAccepted] at hval
    split at hval
    · rw [rd_take (by omega), rd_take (by omega), rd_eq_getElem (show r < vals.length by omega)]
      exact Option.some.inj hval
    · exact absurd hval (by simp)

/-- If not enough samples are accepted, a rejected one remains at the front. -/
private theorem mem_take_ctCompact {x : List UInt16} (hx : x.length = 717) (h : (x.filterMap ctAccepted).length < 512)
    (hmark : ∀ y ∈ x, ctAccepted y = none → y = 0xFFFF) : 0xFFFF ∈ (ctCompact 717 205 x).take 512 := by
  obtain ⟨pos, hspread⟩ := Compaction.exists_spread ctAccepted x
  obtain ⟨hlast, hfront⟩ := hspread.foldl_pass 8
  obtain ⟨-, hmem⟩ := Compaction.foldl_pass_mem ctAccepted x 8
  rw [ctCompact_eq, ← hx]
  obtain ⟨i, hi, hgap⟩ := hfront.exists_gap (n := 512) (by omega) h
  have hentry := hmark _ (hmem _ (mem_rd (show i < _ by omega))) hgap
  rw [← hentry, ← rd_take hi]
  exact mem_rd (by rw [List.length_take]; omega)

/-- If enough samples are accepted, `hash_to_point_ct` returns the first of them. -/
theorem first_hashToPointCt (f : Lanes → Lanes) (inputs : List (List UInt8))
    (h : 512 ≤ (Sampling.accepted (draws (Shake256.keystream f inputs.flatten)) 717).length) :
    Sampling.First (fun j => (draws (Shake256.keystream f inputs.flatten) j).map UInt16.ofNat) 512
      (hashToPointCt f (Shake256.seeded f inputs) 9) := by
  have hsamples := samples_eq f inputs 717
  have hlen : (((Sampling.drawAll (fun sc => ((Shake256.extract f sc 2).2, (Shake256.extract f sc 2).1)) 717
      (Shake256.seeded f inputs)).map ctSample)).length = 717 := by
    rw [List.length_map, Sampling.length_drawAll]
  rw [← List.length_map (f := UInt16.ofNat), Sampling.map_accepted] at h
  rw [hashToPointCt, show rd overtab 9 = 205 from rfl, show (1 <<< 9 : ℕ) = 512 from rfl]
  rw [take_ctCompact hlen (by rw [hsamples]; exact h), hsamples]
  exact ⟨717, rfl, by rw [List.length_take]; omega⟩

/-! ### Every stream of samples -/

/-- The draw `j` from a generator of two bytes in the state `st`. -/
def drawAt {σ : Type*} (next : σ → List UInt8 × σ) (st : σ) (j : ℕ) : Option ℕ :=
  let buf := Sampling.drawn next st j
  acceptSample ((rd buf 0).toNat * 256 + (rd buf 1).toNat)

/-- Two bytes of `i_shake256_extract`. -/
abbrev shakeNext (f : Lanes → Lanes) (sc : Shake256) : List UInt8 × Shake256 :=
  ((sc.extract f 2).2, (sc.extract f 2).1)

/-- Two bytes of `i_keccak256_extract`. -/
abbrev keccakNext (K : Keccak256) (kc : KeccakPrng) : List UInt8 × KeccakPrng :=
  ((kc.extract K 2).2.2, (kc.extract K 2).2.1)

section Streams

variable {σ : Type*} (next : σ → List UInt8 × σ) (st : σ)

private theorem accepted_sampleCoeff (m : ℕ) : (Sampling.accepted (drawAt next st) m).map UInt16.ofNat =
    Sampling.accepted (fun j => sampleCoeff (Sampling.drawn next st j)) m := by
  rw [Sampling.map_accepted]
  congr 1
  funext j
  exact sampleCoeff_eq.symm

private theorem filterMap_samples (m : ℕ) : ((Sampling.drawAll next m st).map ctSample).filterMap ctAccepted =
    (Sampling.accepted (drawAt next st) m).map UInt16.ofNat := by
  rw [filterMap_ctSample, Sampling.map_drawAll_drawn, List.filterMap_map, accepted_sampleCoeff]
  rfl

/-- The samples that the passes leave at the front, for any generator. -/
private theorem take_ctCompact_samples :
    (512 ≤ (Sampling.accepted (drawAt next st) 717).length →
      (ctCompact 717 205 ((Sampling.drawAll next 717 st).map ctSample)).take 512 =
        ((Sampling.accepted (drawAt next st) 717).take 512).map UInt16.ofNat) ∧
    ((Sampling.accepted (drawAt next st) 717).length < 512 →
      0xFFFF ∈ (ctCompact 717 205 ((Sampling.drawAll next 717 st).map ctSample)).take 512) := by
  have hlen : ((Sampling.drawAll next 717 st).map ctSample).length = 717 := by
    rw [List.length_map, Sampling.length_drawAll]
  have hsamples := filterMap_samples next st 717
  constructor
  · intro h
    rw [take_ctCompact hlen (by rw [hsamples, List.length_map]; exact h), hsamples, List.map_take]
  · intro h
    refine mem_take_ctCompact hlen (by rw [hsamples, List.length_map]; exact h) fun y hy hnone => ?_
    obtain ⟨buf, -, rfl⟩ := List.mem_map.1 hy
    exact ctSample_of_none hnone

/-- The loop of the variable-time functions, for any generator. -/
private theorem exists_collect (h : 512 ≤ (Sampling.accepted (drawAt next st) 717).length) :
    ∃ fuel, Sampling.collect next sampleCoeff fuel (1 <<< 9) st =
      some (((Sampling.accepted (drawAt next st) 717).take 512).map UInt16.ofNat) := by
  refine (Sampling.collect_iff (Sampling.follows_drawn next sampleCoeff st) rfl _).2 ⟨717, ?_, ?_⟩
  · rw [List.map_take, accepted_sampleCoeff]
    rfl
  · rw [List.length_map, List.length_take]
    exact Nat.min_eq_left h

end Streams

/-- If at least 512 of the first 717 samples are accepted, the constant-time functions return the first 512 of them
in their order, as the variable-time functions do; otherwise the marker `0xFFFF` is among the coefficients. -/
theorem hashToPointCt_eq_vartime (f : Lanes → Lanes) (K : Keccak256) (sc : Shake256) (kc : KeccakPrng) :
    ((512 ≤ (Sampling.accepted (drawAt (shakeNext f) sc) 717).length →
        hashToPointCt f sc 9 = ((Sampling.accepted (drawAt (shakeNext f) sc) 717).take 512).map UInt16.ofNat ∧
        ∃ fuel, hashToPointVartime f fuel sc 9 = some (hashToPointCt f sc 9)) ∧
      ((Sampling.accepted (drawAt (shakeNext f) sc) 717).length < 512 → 0xFFFF ∈ hashToPointCt f sc 9)) ∧
    (512 ≤ (Sampling.accepted (drawAt (keccakNext K) kc) 717).length →
        keccakHashToPointCt K kc 9 =
          ((Sampling.accepted (drawAt (keccakNext K) kc) 717).take 512).map UInt16.ofNat ∧
        ∃ fuel, keccakHashToPointVartime K fuel kc 9 = some (keccakHashToPointCt K kc 9)) ∧
      ((Sampling.accepted (drawAt (keccakNext K) kc) 717).length < 512 → 0xFFFF ∈ keccakHashToPointCt K kc 9) := by
  have hshake : hashToPointCt f sc 9 =
      (ctCompact 717 205 ((Sampling.drawAll (shakeNext f) 717 sc).map ctSample)).take 512 := rfl
  have hkeccak : keccakHashToPointCt K kc 9 =
      (ctCompact 717 205 ((Sampling.drawAll (keccakNext K) 717 kc).map ctSample)).take 512 := rfl
  obtain ⟨hs, hsmark⟩ := take_ctCompact_samples (shakeNext f) sc
  obtain ⟨hk, hkmark⟩ := take_ctCompact_samples (keccakNext K) kc
  rw [hshake, hkeccak]
  refine ⟨⟨fun h => ⟨hs h, ?_⟩, hsmark⟩, fun h => ⟨hk h, ?_⟩, hkmark⟩
  · rw [hs h]
    exact exists_collect (shakeNext f) sc h
  · rw [hk h]
    exact exists_collect (keccakNext K) kc h

end DfVrf.Crypto
