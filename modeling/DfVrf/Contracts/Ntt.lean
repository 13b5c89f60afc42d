import DfVrf.Contracts.NttFalcon
import DfVrf.Lib.Checked

/-!
# The transform with a plain table (`DFVRF_NTT.sol`)

The stateless `ZKNOX_NTTFW` and `ZKNOX_NTTINV` loop over indices in checked arithmetic, with one twiddle factor a
word; `none` means that the call reverts.  On words below `q` no check fails, and the transforms are those of the
packed tables.

* `zknoxNttfw_eq_nttfw`, `zknoxNttinv_eq_nttinv`: the transforms of both contracts agree.
* `ntt_agree`: moreover the results are below `q`, and the inverse transform undoes the forward one.
-/

namespace DfVrf.Contracts

open InPlace Negacyclic Word

/-- `psi_rev`. -/
def psiRev : List Word := [
    1, 10810, 7143, 4043, 10984, 722, 5736, 8155, 3542, 8785, 9744, 3621, 10643, 1212, 3195, 5860, 7468, 2639, 9664,
    11340, 11726, 9314, 9283, 9545, 5728, 7698, 5023, 5828, 8961, 6512, 7311, 1351, 2319, 11119, 11334, 11499, 9088,
    3014, 5086, 10963, 4846, 9542, 9154, 3712, 4805, 8736, 11227, 9995, 3091, 12208, 7969, 11289, 9326, 7393, 9238,
    2366, 11112, 8034, 10654, 9521, 12149, 10436, 7678, 11563, 1260, 4388, 4632, 6534, 2426, 334, 1428, 1696, 2013,
    9000, 729, 3241, 2881, 3284, 7197, 10200, 8595, 7110, 10530, 8582, 3382, 11934, 9741, 8058, 3637, 3459, 145, 6747,
    9558, 8357, 7399, 6378, 9447, 480, 1022, 9, 9821, 339, 5791, 544, 10616, 4278, 6958, 7300, 8112, 8705, 1381, 9764,
    11336, 8541, 827, 5767, 2476, 118, 2197, 7222, 3949, 8993, 4452, 2396, 7935, 130, 2837, 6915, 2401, 442, 7188,
    11222, 390, 773, 8456, 3778, 354, 4861, 9377, 5698, 5012, 9808, 2859, 11244, 1017, 7404, 1632, 7205, 27, 9223,
    8526, 10849, 1537, 242, 4714, 8146, 9611, 3704, 5019, 11744, 1002, 5011, 5088, 8005, 7313, 10682, 8509, 11414,
    9852, 3646, 6022, 2987, 9723, 10102, 6250, 9867, 11224, 2143, 11885, 7644, 1168, 5277, 11082, 3248, 493, 8193,
    6845, 2381, 7952, 11854, 1378, 1912, 2166, 3915, 12176, 7370, 12129, 3149, 12286, 4437, 3636, 4938, 5291, 2704,
    10863, 7635, 1663, 10512, 3364, 1689, 4057, 9018, 9442, 7875, 2174, 4372, 7247, 9984, 4053, 2645, 5195, 9509,
    7394, 1484, 9042, 9603, 8311, 9320, 9919, 2865, 5332, 3510, 1630, 10163, 5407, 3186, 11136, 9405, 10040, 8241,
    9890, 8889, 7098, 9153, 9289, 671, 3016, 243, 6730, 420, 10111, 1544, 3985, 4905, 3531, 476, 49, 1263, 5915, 1483,
    9789, 10800, 10706, 6347, 1512, 350, 10474, 5383, 5369, 10232, 9087, 4493, 9551, 6421, 6554, 2655, 9280, 1693,
    174, 723, 10314, 8532, 347, 2925, 8974, 11863, 1858, 4754, 3030, 4115, 2361, 10446, 2908, 218, 3434, 8760, 3963,
    576, 6142, 9842, 1954, 10238, 9407, 10484, 3991, 8320, 9522, 156, 2281, 5876, 10258, 5333, 3772, 418, 5908, 11836,
    5429, 7515, 7552, 1293, 295, 6099, 5766, 652, 8273, 4077, 8527, 9370, 325, 10885, 11143, 11341, 5990, 1159, 8561,
    8240, 3329, 4298, 12121, 2692, 5961, 7183, 10327, 1594, 6167, 9734, 7105, 11089, 1360, 3956, 6170, 5297, 8210,
    11231, 922, 441, 1958, 4322, 1112, 2078, 4046, 709, 9139, 1319, 4240, 8719, 6224, 11454, 2459, 683, 3656, 12225,
    10723, 5782, 9341, 9786, 9166, 10542, 9235, 6803, 7856, 6370, 3834, 7032, 7048, 9369, 8120, 9162, 6821, 1010,
    8807, 787, 5057, 4698, 4780, 8844, 12097, 1321, 4912, 10240, 677, 6415, 6234, 8953, 1323, 9523, 12237, 3174, 1579,
    11858, 9784, 5906, 3957, 9450, 151, 10162, 12231, 12048, 3532, 11286, 1956, 7280, 11404, 6281, 3477, 6608, 142,
    11184, 9445, 3438, 11314, 4212, 9260, 6695, 4782, 5886, 8076, 504, 2302, 11684, 11868, 8209, 3602, 6068, 8689,
    3263, 6077, 7665, 7822, 7500, 6752, 4749, 4449, 6833, 12142, 8500, 6118, 8471, 1190, 9606, 3860, 5445, 7753,
    11239, 5079, 9027, 2169, 11767, 7965, 4916, 8214, 5315, 11011, 9945, 1973, 6715, 8775, 11248, 5925, 11271, 654,
    3565, 1702, 1987, 6760, 5206, 3199, 12233, 6136, 6427, 6874, 8646, 4948, 6152, 400, 10561, 5339, 5446, 3710, 6093,
    468, 8301, 316, 11907, 10256, 8291, 3879, 1922, 10930, 6854, 973, 11035]

/-- `psi_inv_rev`. -/
def psiInvRev : List Word := [
    1, 1479, 8246, 5146, 4134, 6553, 11567, 1305, 6429, 9094, 11077, 1646, 8668, 2545, 3504, 8747, 10938, 4978, 5777,
    3328, 6461, 7266, 4591, 6561, 2744, 3006, 2975, 563, 949, 2625, 9650, 4821, 726, 4611, 1853, 140, 2768, 1635,
    4255, 1177, 9923, 3051, 4896, 2963, 1000, 4320, 81, 9198, 2294, 1062, 3553, 7484, 8577, 3135, 2747, 7443, 1326,
    7203, 9275, 3201, 790, 955, 1170, 9970, 5374, 9452, 12159, 4354, 9893, 7837, 3296, 8340, 5067, 10092, 12171, 9813,
    6522, 11462, 3748, 953, 2525, 10908, 3584, 4177, 4989, 5331, 8011, 1673, 11745, 6498, 11950, 2468, 12280, 11267,
    11809, 2842, 5911, 4890, 3932, 2731, 5542, 12144, 8830, 8652, 4231, 2548, 355, 8907, 3707, 1759, 5179, 3694, 2089,
    5092, 9005, 9408, 9048, 11560, 3289, 10276, 10593, 10861, 11955, 9863, 5755, 7657, 7901, 11029, 11813, 8758, 7384,
    8304, 10745, 2178, 11869, 5559, 12046, 9273, 11618, 3000, 3136, 5191, 3400, 2399, 4048, 2249, 2884, 1153, 9103,
    6882, 2126, 10659, 8779, 6957, 9424, 2370, 2969, 3978, 2686, 3247, 10805, 4895, 2780, 7094, 9644, 8236, 2305,
    5042, 7917, 10115, 4414, 2847, 3271, 8232, 10600, 8925, 1777, 10626, 4654, 1426, 9585, 6998, 7351, 8653, 7852, 3,
    9140, 160, 4919, 113, 8374, 10123, 10377, 10911, 435, 4337, 9908, 5444, 4096, 11796, 9041, 1207, 7012, 11121,
    4645, 404, 10146, 1065, 2422, 6039, 2187, 2566, 9302, 6267, 8643, 2437, 875, 3780, 1607, 4976, 4284, 7201, 7278,
    11287, 545, 7270, 8585, 2678, 4143, 7575, 12047, 10752, 1440, 3763, 3066, 12262, 5084, 10657, 4885, 11272, 1045,
    9430, 2481, 7277, 6591, 2912, 7428, 11935, 8511, 3833, 11516, 11899, 1067, 5101, 11847, 9888, 1254, 11316, 5435,
    1359, 10367, 8410, 3998, 2033, 382, 11973, 3988, 11821, 6196, 8579, 6843, 6950, 1728, 11889, 6137, 7341, 3643,
    5415, 5862, 6153, 56, 9090, 7083, 5529, 10302, 10587, 8724, 11635, 1018, 6364, 1041, 3514, 5574, 10316, 2344,
    1278, 6974, 4075, 7373, 4324, 522, 10120, 3262, 7210, 1050, 4536, 6844, 8429, 2683, 11099, 3818, 6171, 3789, 147,
    5456, 7840, 7540, 5537, 4789, 4467, 4624, 6212, 9026, 3600, 6221, 8687, 4080, 421, 605, 9987, 11785, 4213, 6403,
    7507, 5594, 3029, 8077, 975, 8851, 2844, 1105, 12147, 5681, 8812, 6008, 885, 5009, 10333, 1003, 8757, 241, 58,
    2127, 12138, 2839, 8332, 6383, 2505, 431, 10710, 9115, 52, 2766, 10966, 3336, 6055, 5874, 11612, 2049, 7377,
    10968, 192, 3445, 7509, 7591, 7232, 11502, 3482, 11279, 5468, 3127, 4169, 2920, 5241, 5257, 8455, 5919, 4433,
    5486, 3054, 1747, 3123, 2503, 2948, 6507, 1566, 64, 8633, 11606, 9830, 835, 6065, 3570, 8049, 10970, 3150, 11580,
    8243, 10211, 11177, 7967, 10331, 11848, 11367, 1058, 4079, 6992, 6119, 8333, 10929, 1200, 5184, 2555, 6122, 10695,
    1962, 5106, 6328, 9597, 168, 7991, 8960, 4049, 3728, 11130, 6299, 948, 1146, 1404, 11964, 2919, 3762, 8212, 4016,
    11637, 6523, 6190, 11994, 10996, 4737, 4774, 6860, 453, 6381, 11871, 8517, 6956, 2031, 6413, 10008, 12133, 2767,
    3969, 8298, 1805, 2882, 2051, 10335, 2447, 6147, 11713, 8326, 3529, 8855, 12071, 9381, 1843, 9928, 8174, 9259,
    7535, 10431, 426, 3315, 9364, 11942, 3757, 1975, 11566, 12115, 10596, 3009, 9634, 5735, 5868, 2738, 7796, 3202,
    2057, 6920, 6906, 1815, 11939, 10777, 5942, 1583, 1489, 2500, 10806, 6374, 11026, 12240]

/-- `addmod` of the language, which reverts on the modulus zero. -/
def addmodChecked (a b m : Word) : Option Word := if m = 0 then none else some (addmod a b m)

/-- `mulmod` of the language, which reverts on the modulus zero. -/
def mulmodChecked (a b m : Word) : Option Word := if m = 0 then none else some (mulmod a b m)

/-- The body of the inner loop of `ZKNOX_NTTFW`. -/
def zknoxNttfwButterfly (q S : Word) (t : ℕ) (a : List Word) (j : ℕ) : Option (List Word) := do
  let U ← a[j]?
  let W ← a[j + t]?
  let V ← mulmodChecked W S q
  let sum ← addmodChecked U V q
  let a ← Checked.store a j sum
  let negV ← Checked.sub q V
  let diff ← addmodChecked U negV q
  Checked.store a (j + t) diff

/-- The body of the loop over `i` in `ZKNOX_NTTFW`. -/
def zknoxNttfwBlock (q : Word) (t m : ℕ) (a : List Word) (i : ℕ) : Option (List Word) := do
  let j1 := (i * t) <<< 1
  let j2 ← Checked.sub (j1 + t) 1
  let S ← psiRev[m + i]?
  (List.range' j1 (j2 + 1 - j1)).foldlM (zknoxNttfwButterfly q S t) a

/-- One iteration of the outer loop of `ZKNOX_NTTFW` on the state `(t, m, a)`. -/
def zknoxNttfwRound (q : Word) (st : ℕ × ℕ × List Word) : Option (ℕ × ℕ × List Word) := do
  let t := st.1 >>> 1
  let m := st.2.1
  let a ← (List.range m).foldlM (zknoxNttfwBlock q t m) st.2.2
  some (t, m <<< 1, a)

/-- `ZKNOX_NTTFW` without storage; `m` doubles from `1` while it is below `n`, hence at most `n` times. -/
def zknoxNttfw (a : List Word) (q : Word) : Option (List Word) :=
  let n := a.length
  (Checked.runWhile (fun st => decide (st.2.1 < n)) (zknoxNttfwRound q) n (n, 1, a)).map fun st => st.2.2

/-- The body of the inner loop of `ZKNOX_NTTINV`. -/
def zknoxNttinvButterfly (q S : Word) (t : ℕ) (a : List Word) (j : ℕ) : Option (List Word) := do
  let U ← a[j]?
  let V ← a[j + t]?
  let sum ← addmodChecked U V q
  let a ← Checked.store a j sum
  let negV ← Checked.sub q V
  let diff ← addmodChecked U negV q
  let prod ← mulmodChecked diff S q
  Checked.store a (j + t) prod

/-- The body of the loop over `i` in `ZKNOX_NTTINV`, on the state `(j1, a)`. -/
def zknoxNttinvBlock (q : Word) (t h : ℕ) (st : ℕ × List Word) (i : ℕ) : Option (ℕ × List Word) := do
  let j1 := st.1
  let j2 ← Checked.sub (j1 + t) 1
  let S ← psiInvRev[h + i]?
  let a ← (List.range' j1 (j2 + 1 - j1)).foldlM (zknoxNttinvButterfly q S t) st.2
  some (j1 + t <<< 1, a)

/-- One iteration of the outer loop of `ZKNOX_NTTINV` on the state `(t, m, a)`. -/
def zknoxNttinvRound (q : Word) (st : ℕ × ℕ × List Word) : Option (ℕ × ℕ × List Word) := do
  let t := st.1
  let h := st.2.1 >>> 1
  let r ← (List.range h).foldlM (zknoxNttinvBlock q t h) (0, st.2.2)
  some (t <<< 1, st.2.1 >>> 1, r.2)

/-- `ZKNOX_NTTINV` without storage, but for the inverse of the length; `m` halves from `n` while it is above `1`,
hence at most `n` times. -/
def zknoxNttinv (storageNm1modq : Word) (a : List Word) (q : Word) : Option (List Word) := do
  let st ← Checked.runWhile (fun st => decide (st.2.1 > 1)) (zknoxNttinvRound q) a.length (1, a.length, a)
  let t := storageNm1modq
  (List.range st.2.2.length).foldlM (fun a m => do
    let x ← a[m]?
    let y ← mulmodChecked x t q
    Checked.store a m y) st.2.2

/-! ### The transforms of the packed tables, with a check

The assembly of the packed transforms does not check the subtraction `q - V`. -/

/-- The body of the inner loop of `_ZKNOX_NTTFW_vectorized`, with a check of the subtraction. -/
def nttfwButterflyChecked (S : Word) (t : ℕ) (a : List Word) (j : ℕ) : Option (List Word) := do
  let U := rd a j
  let V := mulmod (rd a (j + t)) S q
  let negV ← Checked.sub q V
  let a := a.set (j + t) (addmod U negV q)
  some (a.set j (addmod U V q))

/-- The body of the inner loop of `_ZKNOX_NTTINV_vectorized`, with a check of the subtraction. -/
def nttinvButterflyChecked (S : Word) (t : ℕ) (a : List Word) (j : ℕ) : Option (List Word) := do
  let U := rd a j
  let V := rd a (j + t)
  let negV ← Checked.sub q V
  let a := a.set (j + t) (mulmod (addmod U negV q) S q)
  some (a.set j (addmod U V q))

/-- One iteration of the outer loop of `_ZKNOX_NTTFW_vectorized`, with a check of the subtractions. -/
def nttfwRoundChecked (st : ℕ × ℕ × List Word) : Option (ℕ × ℕ × List Word) := do
  let t := st.1 >>> 1
  let m := st.2.1
  let a ← (List.range m).foldlM (fun a i =>
    let S := twiddleAt psirev (m + i)
    (List.range' (2 * (i * t)) t).foldlM (nttfwButterflyChecked S t) a) st.2.2
  some (t, m <<< 1, a)

/-- One iteration of the outer loop of `_ZKNOX_NTTINV_vectorized`, with a check of the subtractions. -/
def nttinvRoundChecked (st : ℕ × ℕ × List Word) : Option (ℕ × ℕ × List Word) := do
  let t := st.1
  let h := st.2.1 >>> 1
  let a ← (List.range h).foldlM (fun a i =>
    let S := twiddleAt psirevInv (h + i)
    (List.range' (2 * t * i) t).foldlM (nttinvButterflyChecked S t) a) st.2.2
  some (t <<< 1, st.2.1 >>> 1, a)

/-- `_ZKNOX_NTTFW_vectorized`, with a check of the subtractions. -/
def nttfwChecked (a : List Word) : Option (List Word) :=
  (Checked.runWhile (fun st => decide (st.2.1 < 512)) nttfwRoundChecked 9 (512, 1, a)).map fun st => st.2.2

/-- `_ZKNOX_NTTINV_vectorized`, with a check of the subtractions. -/
def nttinvChecked (a : List Word) : Option (List Word) :=
  (Checked.runWhile (fun st => decide (st.2.1 > 1)) nttinvRoundChecked 9 (1, 512, a)).map fun st =>
    st.2.2.map fun x => mulmod x nm1modq q

/-! ### The tables -/

private theorem psiRev_eq : psiRev = (List.range 512).map (twiddleAt psirev) := by decide +kernel

private theorem psiInvRev_eq : psiInvRev = (List.range 512).map (twiddleAt psirevInv) := by decide +kernel

private theorem getElem?_psiRev {i : ℕ} (hi : i < 512) : psiRev[i]? = some (twiddleAt psirev i) := by
  rw [psiRev_eq, List.getElem?_map, List.getElem?_range hi, Option.map_some]

private theorem getElem?_psiInvRev {i : ℕ} (hi : i < 512) : psiInvRev[i]? = some (twiddleAt psirevInv i) := by
  rw [psiInvRev_eq, List.getElem?_map, List.getElem?_range hi, Option.map_some]

/-! ### The checks -/

/-- 512 words below `q`, the invariant of all loops. -/
def AllReduced (a : List Word) : Prop := a.length = 512 ∧ ∀ x ∈ a, WordReduced x

theorem AllReduced.set {a : List Word} (ha : AllReduced a) (i : ℕ) {x : Word} (hx : WordReduced x) :
    AllReduced (a.set i x) := by
  refine ⟨by rw [List.length_set, ha.1], fun y hy => ?_⟩
  rcases List.mem_or_eq_of_mem_set hy with hy | rfl
  · exact ha.2 y hy
  · exact hx

private theorem AllReduced.getElem? {a : List Word} (ha : AllReduced a) {i : ℕ} (hi : i < 512) :
    a[i]? = some (rd a i) ∧ WordReduced (rd a i) := by
  have hlt : i < a.length := by rw [ha.1]; exact hi
  exact ⟨by rw [rd_eq_getElem hlt, List.getElem?_eq_getElem hlt], ha.2 _ (mem_rd hlt)⟩

theorem AllReduced.store {a : List Word} (ha : AllReduced a) {i : ℕ} (hi : i < 512) (x : Word) :
    Checked.store a i x = some (a.set i x) :=
  Checked.store_eq_some (by rw [ha.1]; exact hi) x

private theorem addmodChecked_q (x y : Word) : addmodChecked x y q = some (addmod x y q) := if_neg (by decide)

private theorem mulmodChecked_q (x y : Word) : mulmodChecked x y q = some (mulmod x y q) := if_neg (by decide)

/-- The subtraction from `q` of a word below `q`. -/
private theorem sub_q {y : Word} (hy : WordReduced y) : Checked.sub q y = some (q - y) := by
  refine Checked.sub_eq_some ?_
  rw [BitVec.le_def]
  exact Nat.le_of_lt hy

/-- The block `i` of a layer of `m` blocks ends within the array. -/
private theorem block_lt {t m i j : ℕ} (hn : 2 * t * m = 512) (hi : i < m) (hj : j < 2 * t * i + t) : j + t < 512 := by
  have h : 2 * t * i + 2 * t ≤ 2 * t * m := by
    rw [← Nat.mul_succ]
    exact Nat.mul_le_mul_left _ hi
  omega

/-! ### The forward transform -/

section Forward

variable {S : Word} {t : ℕ} {a : List Word} {j : ℕ}

private theorem allReduced_nttfwButterfly (ha : AllReduced a) : AllReduced (nttfwButterfly S t a j) :=
  (ha.set _ (submod_spec _ (mulmod_spec _ _).1).1).set _ (addmod_spec _ _).1

private theorem zknoxNttfwButterfly_eq (ht : 0 < t) (ha : AllReduced a) (hj : j + t < 512) :
    zknoxNttfwButterfly q S t a j = some (nttfwButterfly S t a j) := by
  have hV := (mulmod_spec (rd a (j + t)) S).1
  have hsum := ha.set j (addmod_spec (rd a j) (mulmod (rd a (j + t)) S q)).1
  simp only [zknoxNttfwButterfly, (ha.getElem? hj).1, (ha.getElem? (show j < 512 by omega)).1, mulmodChecked_q,
    addmodChecked_q, ha.store (show j < 512 by omega), sub_q hV, hsum.store hj, Option.bind_eq_bind, Option.bind_some]
  rw [nttfwButterfly, List.set_comm _ _ (by omega)]

private theorem nttfwButterflyChecked_eq : nttfwButterflyChecked S t a j = some (nttfwButterfly S t a j) := by
  simp only [nttfwButterflyChecked, sub_q (mulmod_spec (rd a (j + t)) S).1, Option.bind_eq_bind, Option.bind_some,
    nttfwButterfly]

/-- The state of the forward transform while `r` rounds remain. -/
def FwState (r : ℕ) (st : ℕ × ℕ × List Word) : Prop := r ≤ 9 ∧ ∃ a, st = (2 ^ r, 2 ^ (9 - r), a) ∧ AllReduced a

/-- The block `i` of a layer in `ZKNOX_NTTFW`. -/
private theorem zknoxNttfwBlock_eq {m i : ℕ} (ht : 0 < t) (hn : 2 * t * m = 512) (hi : i < m) (ha : AllReduced a) :
    zknoxNttfwBlock q t m a i = some ((List.range' (2 * (i * t)) t).foldl
      (nttfwButterfly (twiddleAt psirev (m + i)) t) a) := by
  have hm : 2 * m ≤ 512 := by
    rw [← hn, Nat.mul_assoc]
    exact Nat.mul_le_mul_left 2 (Nat.le_mul_of_pos_left m ht)
  have hj1 : (i * t) <<< 1 = 2 * (i * t) := by rw [Nat.shiftLeft_eq, Nat.mul_comm]
  have hidx : 2 * (i * t) = 2 * t * i := by ring
  have hloop := Checked.foldlM_eq_some AllReduced (l := List.range' (2 * (i * t)) t)
    (f := zknoxNttfwButterfly q (twiddleAt psirev (m + i)) t) (fun a ha j hj => by
      rw [List.mem_range'_1, hidx] at hj
      exact ⟨zknoxNttfwButterfly_eq ht ha (block_lt hn hi hj.2), allReduced_nttfwButterfly ha⟩) ha
  simp only [zknoxNttfwBlock, hj1, Checked.sub_eq_some (show 1 ≤ 2 * (i * t) + t by omega),
    getElem?_psiRev (show m + i < 512 by omega), Option.bind_eq_bind, Option.bind_some,
    show 2 * (i * t) + t - 1 + 1 - 2 * (i * t) = t by omega]
  exact hloop.1

/-- A round of the plain table and a checked round of the packed table. -/
private theorem nttfwRound_checks {r : ℕ} {st : ℕ × ℕ × List Word} (h : FwState (r + 1) st) :
    zknoxNttfwRound q st = some (nttfwRound st) ∧ nttfwRoundChecked st = some (nttfwRound st) ∧
      FwState r (nttfwRound st) := by
  obtain ⟨hr, a, rfl, ha⟩ := h
  obtain ⟨t, ht⟩ : ∃ t, 2 ^ r = t := ⟨_, rfl⟩
  obtain ⟨m, hm⟩ : ∃ m, 2 ^ (9 - (r + 1)) = m := ⟨_, rfl⟩
  have htpos : 0 < t := by rw [← ht]; positivity
  have hn : 2 * t * m = 512 := by
    rw [← ht, ← hm, ← pow_succ', ← pow_add, show r + 1 + (9 - (r + 1)) = 9 by omega]
    rfl
  have hshift : (2 ^ (r + 1)) >>> 1 = t := by rw [Nat.shiftRight_one, pow_succ, ht, Nat.mul_div_cancel _ (by omega)]
  have hred : ∀ a, AllReduced a → ∀ i, AllReduced ((List.range' (2 * (i * t)) t).foldl
      (nttfwButterfly (twiddleAt psirev (m + i)) t) a) :=
    fun a ha i => List.foldlRecOn _ _ ha fun a ha j _ => allReduced_nttfwButterfly ha
  have hplain := Checked.foldlM_eq_some AllReduced (l := List.range m) (f := zknoxNttfwBlock q t m)
    (fun a ha i hi => ⟨zknoxNttfwBlock_eq htpos hn (List.mem_range.1 hi) ha, hred a ha i⟩) ha
  have hpacked := Checked.foldlM_eq_some AllReduced (l := List.range m)
    (f := fun a i => (List.range' (2 * (i * t)) t).foldlM (nttfwButterflyChecked (twiddleAt psirev (m + i)) t) a)
    (fun a ha i _ => Checked.foldlM_eq_some AllReduced
      (fun a ha j _ => ⟨nttfwButterflyChecked_eq, allReduced_nttfwButterfly ha⟩) ha) ha
  simp only [zknoxNttfwRound, nttfwRoundChecked, nttfwRound, hshift, hm, Option.bind_eq_bind]
  rw [hplain.1, hpacked.1]
  refine ⟨rfl, rfl, by omega, _, Prod.ext ht.symm (Prod.ext ?_ rfl), hplain.2⟩
  rw [Nat.shiftLeft_eq, ← hm, ← pow_add, show 9 - (r + 1) + 1 = 9 - r by omega]

private theorem fwState_start (ha : AllReduced a) : FwState 9 (512, 1, a) := ⟨le_refl 9, a, rfl, ha⟩

private theorem nttfw_eq_iterate (a : List Word) : nttfw a = (nttfwRound^[9] (512, 1, a)).2.2 := by
  rw [nttfw, List.foldl_const, List.length_range]

/-- The forward rounds go on while `m` is below 512. -/
theorem FwState.cond {r : ℕ} {st : ℕ × ℕ × List Word} (h : FwState r st) : decide (st.2.1 < 512) = decide (0 < r) := by
  obtain ⟨hr, a, rfl, -⟩ := h
  have h512 : 512 = 2 ^ 9 := rfl
  rw [decide_eq_decide, h512, Nat.pow_lt_pow_iff_right (by omega)]
  omega

/-- `ZKNOX_NTTFW` and `_ZKNOX_NTTFW_vectorized` compute the same array, and no subtraction of the latter
underflows. -/
theorem zknoxNttfw_eq_nttfw (ha : AllReduced a) :
    zknoxNttfw a q = some (nttfw a) ∧ nttfwChecked a = some (nttfw a) ∧ AllReduced (nttfw a) := by
  have hplain : Checked.runWhile (fun st => decide (st.2.1 < 512)) (zknoxNttfwRound q) 512 (512, 1, a) =
      some (nttfwRound^[9] (512, 1, a)) ∧ FwState 0 _ := Checked.runWhile_eq_some FwState
    (fun r st h => ⟨by rw [h.cond]; simp, (nttfwRound_checks h).1, (nttfwRound_checks h).2.2⟩)
    (fun st h => by rw [h.cond]; simp) (fwState_start ha) (show 9 ≤ 512 by omega)
  have hpacked : Checked.runWhile (fun st => decide (st.2.1 < 512)) nttfwRoundChecked 9 (512, 1, a) =
      some (nttfwRound^[9] (512, 1, a)) ∧ FwState 0 _ := Checked.runWhile_eq_some FwState
    (fun r st h => ⟨by rw [h.cond]; simp, (nttfwRound_checks h).2⟩) (fun st h => by rw [h.cond]; simp)
    (fwState_start ha) (le_refl 9)
  rw [nttfw_eq_iterate, zknoxNttfw, nttfwChecked, ha.1, hplain.1, hpacked.1]
  obtain ⟨-, a', he, ha'⟩ := hplain.2
  exact ⟨rfl, rfl, by rw [he]; exact ha'⟩

end Forward

/-! ### The inverse transform -/

section Inverse

variable {S : Word} {t : ℕ} {a : List Word} {j : ℕ}

private theorem allReduced_nttinvButterfly (ha : AllReduced a) : AllReduced (nttinvButterfly S t a j) :=
  (ha.set _ (mulmod_spec _ _).1).set _ (addmod_spec _ _).1

private theorem zknoxNttinvButterfly_eq (ht : 0 < t) (ha : AllReduced a) (hj : j + t < 512) :
    zknoxNttinvButterfly q S t a j = some (nttinvButterfly S t a j) := by
  have hV := (ha.getElem? hj).2
  have hsum := ha.set j (addmod_spec (rd a j) (rd a (j + t))).1
  simp only [zknoxNttinvButterfly, (ha.getElem? hj).1, (ha.getElem? (show j < 512 by omega)).1, mulmodChecked_q,
    addmodChecked_q, ha.store (show j < 512 by omega), sub_q hV, hsum.store hj, Option.bind_eq_bind, Option.bind_some]
  rw [nttinvButterfly, List.set_comm _ _ (by omega)]

private theorem nttinvButterflyChecked_eq (ha : AllReduced a) (hj : j + t < 512) :
    nttinvButterflyChecked S t a j = some (nttinvButterfly S t a j) := by
  simp only [nttinvButterflyChecked, sub_q (ha.getElem? hj).2, Option.bind_eq_bind, Option.bind_some, nttinvButterfly]

/-- The block `i` of a layer in `ZKNOX_NTTINV`, which starts at the index that the blocks before it have left. -/
private theorem zknoxNttinvBlock_eq {h i : ℕ} (ht : 0 < t) (hn : 2 * t * h = 512) (hi : i < h) (ha : AllReduced a) :
    zknoxNttinvBlock q t h (2 * t * i, a) i = some (2 * t * (i + 1), (List.range' (2 * t * i) t).foldl
      (nttinvButterfly (twiddleAt psirevInv (h + i)) t) a) := by
  have hh : 2 * h ≤ 512 := by
    rw [← hn, Nat.mul_assoc]
    exact Nat.mul_le_mul_left 2 (Nat.le_mul_of_pos_left h ht)
  have hnext : 2 * t * i + t <<< 1 = 2 * t * (i + 1) := by
    rw [Nat.shiftLeft_eq]
    ring
  have hloop := Checked.foldlM_eq_some AllReduced (l := List.range' (2 * t * i) t)
    (f := zknoxNttinvButterfly q (twiddleAt psirevInv (h + i)) t) (fun a ha j hj => by
      rw [List.mem_range'_1] at hj
      exact ⟨zknoxNttinvButterfly_eq ht ha (block_lt hn hi hj.2), allReduced_nttinvButterfly ha⟩) ha
  simp only [zknoxNttinvBlock, Checked.sub_eq_some (show 1 ≤ 2 * t * i + t by omega),
    getElem?_psiInvRev (show h + i < 512 by omega), Option.bind_eq_bind, Option.bind_some,
    show 2 * t * i + t - 1 + 1 - 2 * t * i = t by omega, hloop.1, hnext]

private theorem allReduced_nttinvBlock (ha : AllReduced a) (h i : ℕ) : AllReduced ((List.range' (2 * t * i) t).foldl
    (nttinvButterfly (twiddleAt psirevInv (h + i)) t) a) :=
  List.foldlRecOn _ _ ha fun _ ha _ _ => allReduced_nttinvButterfly ha

/-- The loop over `i` in `ZKNOX_NTTINV`. -/
private theorem foldlM_zknoxNttinvBlock {h k : ℕ} (ht : 0 < t) (hn : 2 * t * h = 512) (hk : k ≤ h) (ha : AllReduced a) :
    (List.range k).foldlM (zknoxNttinvBlock q t h) (0, a) = some (2 * t * k, (List.range k).foldl (fun a i =>
      (List.range' (2 * t * i) t).foldl (nttinvButterfly (twiddleAt psirevInv (h + i)) t) a) a) := by
  induction k with
  | zero => rfl
  | succ k ih =>
    have hred : AllReduced ((List.range k).foldl (fun a i => (List.range' (2 * t * i) t).foldl
        (nttinvButterfly (twiddleAt psirevInv (h + i)) t) a) a) :=
      List.foldlRecOn _ _ ha fun a ha i _ => allReduced_nttinvBlock ha h i
    rw [List.range_succ, List.foldlM_append, ih (by omega), List.foldl_append]
    simp only [Option.bind_eq_bind, Option.bind_some, List.foldlM_cons, List.foldlM_nil, List.foldl_cons,
      List.foldl_nil]
    rw [zknoxNttinvBlock_eq ht hn (by omega) hred]
    rfl

/-- The state of the inverse transform while `r` rounds remain. -/
def InvState (r : ℕ) (st : ℕ × ℕ × List Word) : Prop := r ≤ 9 ∧ ∃ a, st = (2 ^ (9 - r), 2 ^ r, a) ∧ AllReduced a

/-- A round of the plain table and a checked round of the packed table. -/
private theorem nttinvRound_checks {r : ℕ} {st : ℕ × ℕ × List Word} (h : InvState (r + 1) st) :
    zknoxNttinvRound q st = some (nttinvRound st) ∧ nttinvRoundChecked st = some (nttinvRound st) ∧
      InvState r (nttinvRound st) := by
  obtain ⟨hr, a, rfl, ha⟩ := h
  obtain ⟨t, ht⟩ : ∃ t, 2 ^ (9 - (r + 1)) = t := ⟨_, rfl⟩
  obtain ⟨h, hh⟩ : ∃ h, 2 ^ r = h := ⟨_, rfl⟩
  have htpos : 0 < t := by rw [← ht]; positivity
  have hn : 2 * t * h = 512 := by
    rw [← ht, ← hh, ← pow_succ', ← pow_add, show 9 - (r + 1) + 1 + r = 9 by omega]
    rfl
  have hshift : (2 ^ (r + 1)) >>> 1 = h := by rw [Nat.shiftRight_one, pow_succ, hh, Nat.mul_div_cancel _ (by omega)]
  have hpacked := Checked.foldlM_eq_some AllReduced (l := List.range h)
    (f := fun a i => (List.range' (2 * t * i) t).foldlM (nttinvButterflyChecked (twiddleAt psirevInv (h + i)) t) a)
    (fun a ha i hi => Checked.foldlM_eq_some AllReduced (fun a ha j hj => by
      rw [List.mem_range'_1] at hj
      exact ⟨nttinvButterflyChecked_eq ha (block_lt hn (List.mem_range.1 hi) hj.2),
        allReduced_nttinvButterfly ha⟩) ha) ha
  simp only [zknoxNttinvRound, nttinvRoundChecked, nttinvRound, hshift, ht, Option.bind_eq_bind]
  rw [foldlM_zknoxNttinvBlock htpos hn (le_refl h) ha, hpacked.1]
  refine ⟨rfl, rfl, by omega, _, Prod.ext ?_ (Prod.ext hh.symm rfl), hpacked.2⟩
  rw [Nat.shiftLeft_eq, ← ht, ← pow_add, show 9 - (r + 1) + 1 = 9 - r by omega]

/-- The inverse rounds go on while `m` is above 1. -/
theorem InvState.cond {r : ℕ} {st : ℕ × ℕ × List Word} (h : InvState r st) :
    decide (st.2.1 > 1) = decide (0 < r) := by
  obtain ⟨hr, a, rfl, -⟩ := h
  have h1 : 1 = 2 ^ 0 := rfl
  rw [decide_eq_decide, gt_iff_lt, h1, Nat.pow_lt_pow_iff_right (by omega)]

/-- `ZKNOX_NTTINV` and `_ZKNOX_NTTINV_vectorized` compute the same array, and no subtraction of the latter
underflows. -/
theorem zknoxNttinv_eq_nttinv (ha : AllReduced a) : zknoxNttinv nm1modq a q = some (nttinv a) ∧
    nttinvChecked a = some (nttinv a) ∧ AllReduced (nttinv a) := by
  have hstart : InvState 9 (1, 512, a) := ⟨le_refl 9, a, rfl, ha⟩
  have hplain : Checked.runWhile (fun st => decide (st.2.1 > 1)) (zknoxNttinvRound q) 512 (1, 512, a) =
      some (nttinvRound^[9] (1, 512, a)) ∧ InvState 0 _ := Checked.runWhile_eq_some InvState
    (fun r st h => ⟨by rw [h.cond]; simp, (nttinvRound_checks h).1, (nttinvRound_checks h).2.2⟩)
    (fun st h => by rw [h.cond]; simp) hstart (by omega)
  have hpacked : Checked.runWhile (fun st => decide (st.2.1 > 1)) nttinvRoundChecked 9 (1, 512, a) =
      some (nttinvRound^[9] (1, 512, a)) ∧ InvState 0 _ := Checked.runWhile_eq_some InvState
    (fun r st h => ⟨by rw [h.cond]; simp, (nttinvRound_checks h).2⟩) (fun st h => by rw [h.cond]; simp)
    hstart (le_refl 9)
  obtain ⟨-, a', he, ha'⟩ := hplain.2
  have hinv : nttinv a = a'.map fun x => mulmod x nm1modq q := by
    rw [nttinv, List.foldl_const, List.length_range, he]
  rw [hinv, zknoxNttinv, nttinvChecked, ha.1, hplain.1, hpacked.1, he]
  refine ⟨?_, rfl, by rw [List.length_map, ha'.1], fun x hx => ?_⟩
  · simp only [Option.bind_eq_bind, Option.bind_some, mulmodChecked_q]
    exact Checked.foldlM_store _ a'
  · obtain ⟨y, -, rfl⟩ := List.mem_map.1 hx
    exact (mulmod_spec _ _).1

end Inverse

/-! ### Both contracts -/

private theorem ExpandedPoly.allReduced (h : ExpandedPoly) : AllReduced h.words := ⟨h.length, h.reduced⟩

/-- The inverse transform undoes the forward one. -/
private theorem nttinv_nttfw (a : ExpandedPoly) : nttinv (nttfw a.words) = a.words := by
  have hinv := nttinv_rep (nttfw_rep a.rep) (g := fun e => ofWord (rd a.words e)) fun e he =>
    inv_fwd (Crypto.twiddle_inv (show 9 ≤ 10 by omega)) _ he
  exact hinv.unique (fun x y hx hy hxy => WordReduced.eq_of_ofWord hx hy hxy) a.rep

/-- On 512 words below `q` the transforms of the plain table and of the packed tables agree, no call reverts and no
subtraction from `q` underflows, all results are below `q`, and the inverse transforms undo the forward ones. -/
theorem ntt_agree (a : ExpandedPoly) :
    zknoxNttfw a.words 12289 = some (nttfw a.words) ∧ zknoxNttinv 12265 a.words 12289 = some (nttinv a.words) ∧
    nttfwChecked a.words = some (nttfw a.words) ∧ nttinvChecked a.words = some (nttinv a.words) ∧
    ((nttfw a.words).length = 512 ∧ ∀ x ∈ nttfw a.words, WordReduced x) ∧
    ((nttinv a.words).length = 512 ∧ ∀ x ∈ nttinv a.words, WordReduced x) ∧
    nttinv (nttfw a.words) = a.words ∧
    (zknoxNttfw a.words 12289).bind (fun b => zknoxNttinv 12265 b 12289) = some a.words := by
  obtain ⟨hfw, hfwc, hfwr⟩ := zknoxNttfw_eq_nttfw a.allReduced
  obtain ⟨hinv, hinvc, hinvr⟩ := zknoxNttinv_eq_nttinv a.allReduced
  refine ⟨hfw, hinv, hfwc, hinvc, hfwr, hinvr, nttinv_nttfw a, ?_⟩
  have hback := (zknoxNttinv_eq_nttinv hfwr).1
  rw [nttinv_nttfw] at hback
  rw [show (12289 : Word) = q from rfl, hfw, Option.bind_some]
  exact hback

end DfVrf.Contracts
