import DfVrf.Contracts.FalconUtils
import DfVrf.Crypto.MqNtt

/-!
# The number-theoretic transform of the contracts (`DFVRF_NTT_falcon.sol`)

The twiddle factors are packed sixteen to a word.  They are the ones of the C code (`slots_psirev`,
`slots_psirevInv`), so that both implementations compute the same abstract transform.  The butterflies of
`_ZKNOX_NTTFW_vectorized` reduce every value they store, hence the transform of an array of arbitrary words is
reduced and depends on the residues of the words only (`nttfw_rep`).

* `halfmul_rep`, `halfmul_eq_mulMod`: `_ZKNOX_NTT_HALFMUL_ExpandedResult` computes the product modulo
  `X ^ 512 + 1`.
* `expand_halfmulCompact`: `_ZKNOX_NTT_HALFMUL_Compact` computes the same.
-/

namespace DfVrf.Contracts

open InPlace Negacyclic Word

/-- The twiddle factors of `_ZKNOX_NTTFW_vectorized`. -/
def psirev : List Word := [
  0x16e40c7b04bc29930e25261022510dd61fdb166802d22ae80fcb1be72a3a0001,
  0x5471c8f1970230116c4139f1e1216602549244324622dce2c4c25c00a4f1d2c,
  0x270b2bdb222012c50e8023c2254612ee2ad313de0bc623802ceb2c462b6f090f,
  0x2d2b1dfe28c42f752531299e1f622b68093e24161ce1246e2c191f212fb00c13,
  0x27d81c1d0cd40b410ca902d9232807dd06a00594014e097a19861218112404ec,
  0x18ea1ce720a525561a5b00910d830e351f7a260d2e9e0d36218629221bc62193,
  0x2624056522011fb01c841b2e10b629780220169f0153265d000903fe01e024e7,
  0x1b030b1500821eff095c116423210f6d1c360895007609ac1687033b215d2c48,
  0x2bec0b2b26501394164224a112fd01620ec22108030501862bd61c1401ba0961,
  0x2de0139b0e78258b1fd2126a00f206012a61214e2407001b1c2506601cec03f9,
  0x268b186a277625fb0bab17860e3e267c2c96213d29ba1c911f4513e0139303ea,
  0x77805622e4e1f10094d1abd200101ed0cb02b4a149d04901ddc2e6d085f2bd8,
  0x2910067f1dd32a6f0a9014ab134a0e3411552ffe0c4d2f611cca2f900f4b0876,
  0x5cc1ce22525144b0a550fd527001c4f1114087e1ec324e2233a0fd906990d24,
  0x2031273824bd2b800c72151f27b3065e0db614d40b3126bf2468207725832352,
  0x1dc0dcb13290f910608277f01a41a4a00f30bc8029f244923c11bba22b926a2,
  0x118d237f27f814f9150728ea015e05e818cb29d22a30263d05cb171b04ef0031,
  0x129207422e57230e0b6d015b2154284a02d300ae069d24400a5f199a1915254f,
  0x28f424bf27fe07a2267217fe02400f7b22380d6a00da0b5c28ce093910130bd6,
  0x50d1d801d5b15352e3c171401a20ebc14d5281216f408e9009c253220800f97,
  0x20302171048717662c4d2b872a850145249a214f0fed2051028c168617d30127,
  0x14b1181a0f7405502b511bc126061817063a28571c0f17490a842f5910ca0d01,
  0x2cbe1850220f1090052723b302c50fce081e045810e207a601b9039a2bdf2012,
  0x1b780efa18e21eb01a932413292e23ce263a247d169629e32fc10e4802ab099b,
  0x2800133005292f41228c12ac125a13c10313226703f21aa523ca1fb824991b88,
  0x27b2009724ea0f75171226382e52062b0c662fcd2533052b22f9185a190f02a5,
  0x10742c320d6e24e52bb0008e19d00d9518892c8c1c7007a42c160dcc2f102fc7,
  0x1df117bd0cbf21f117b40e1220112e5c2da408fe01f81f8c16fe12ae1a27242c,
  0x2be71e4915450f14258604a6211717e621342f6e1ab11161128d1a601d4c1e8e,
  0x2c0717252bf022471a3b07b526d92b0314c3201613341f1d2df70879234313d7,
  0x294101901808135421c61ada191b17f82fc90c7f14561a6807c306a60ded028e,
  0x2b1b03cd1ac62ab207820f27206328102e83013c206d01d417cd0e7e154614db]

/-- The twiddle factors of `_ZKNOX_NTTINV_vectorized`. -/
def psirevInv : List Word := [
  0x222b0db009f121dc066e2b452386191d05192d2f19991026141a203605c70001,
  0x12d525b20a4103b502330b9f0bbe0ab819a111ef1c62193d0d00169113722aba,
  0x23ee005110e003e80b9313200beb26c30499109f06630ad0008c073d120302d6,
  0x26f2049203bb03160c81243b1c23052e1d130abb0c3f21811d3c0de1042608f6,
  0x3b90ea42cc6197a26552f8b276c13cb20940ce01e9d26a511022f7f24ec14fe,
  0xb1a2e212c032ff809a42eae19622de106891f4b14d3137d10510e002a9c09dd,
  0xe6e143b06df0e7b22cb016309f4108721cc227e2f7015a60aab0f5c131a1717,
  0x2b151edd1de9167b26872eb32a6d296128240cd92d28235824c0232d13e40829,
  0x95f0d4814470c400bb82d6224392f0e15b72e5d088229f920701cd822362e25,
  0xcaf0a7e0f8a0b99094224d01b2d224b29a3084e1ae2238f04810b4408c90fd0,
  0x22dd296820280cc70b1f113e27831eed13b20901202c25ac1bb60adc131f2a35,
  0x278b20b60071133700a023b400031eac21cd1cb71b5625710592122e298206f1,
  0x42927a2019412252b711b6404b723512e141000154426b410f101b32a9f2889,
  0x2c171c6e1c2110bc137006470ec4036b098521c3187b24560a06088b17970976,
  0x2c08131529a113dc2fe60bfa0eb305a02a002f0f1d97102f0a7621891c660221,
  0x26a02e4713ed042b2e7b2cfc0ef9213f2e9f1d040b6019bf1c6d09b124d60415,
  0x1b261abb218318342e2d0f942ec5017e07f10f9e20da287f054f153b2c3404e6,
  0x2d732214295b283e15991bab23820038180916e615270e3b1cad17f92e7106c0,
  0x1c2a0cbe2788020a10e41ccd0feb1b3e04fe0928284c15c60dba041118dc03fa,
  0x117312b515a11d741ea0155000930ecd181b0eea2b5b0a7b20ed1abc11b8041a,
  0xbd515da1d53190310752e092703025d01a50ff021ef184d0e10234218441210,
  0x3a00f1223503eb285d139103751778226c16312f7304510b1c229303cf1f8d,
  0x2d5c16f217a70d082ad60ace0034239b29d601af09c918ef208c0b172f6a084f,
  0x14790b6810490c37155c2c0f0d9a2cee1c401da71d550d7500c02ad81cd10801,
  0x26662d5621b90040061e196b0b8409c70c3306d30bee156e1151171f21071489,
  0xfef04222c672e48285b1f1f2ba927e320332d3c0c4e2ada1f710df217b10343,
  0x23001f3700a8257d18b813f207aa29c717ea09fb144004b02ab1208d17e71b50,
  0x2eda182e197b2d750fb020140eb20b672ebc057c047a03b4189b2b7a0e900fd1,
  0x206a0f810acf2f652718190d07ef1b2c21452e5f18ed01c51acc12a612812af4,
  0x242b1fee26c8073324a52f2722970dc920862dc11803098f285f08030b42070d,
  0xab216ec166725a20bc129642f532d2e07b70ead2ea624940cf301aa28bf1d6f,
  0x2fd02b1218e62a3609c405d1062f17362a192ea307171afa1b0808090c821e74]

/-- The body of the inner loop of `_ZKNOX_NTTFW_vectorized`; `j` is the index of the word at `ptr`. -/
def nttfwButterfly (S : Word) (t : ℕ) (a : List Word) (j : ℕ) : List Word :=
  let U := rd a j
  let V := mulmod (rd a (j + t)) S q
  let a := a.set (j + t) (addmod U (q - V) q)
  a.set j (addmod U V q)

/-- The twiddle factor `mi` of a packed table. -/
def twiddleAt (psirev : List Word) (mi : ℕ) : Word :=
  (rd psirev (mi >>> 4) >>> ((mi &&& 0xf) <<< 4)) &&& 0xffff

/-- One iteration of the outer loop of `_ZKNOX_NTTFW_vectorized` on the state `(t, m, a)`; the block `i` starts at
the byte offset `i * t * 64`, which is the word `2 * (i * t)`. -/
def nttfwRound (st : ℕ × ℕ × List Word) : ℕ × ℕ × List Word :=
  let t := st.1 >>> 1
  let m := st.2.1
  let a := (List.range m).foldl (fun a i =>
    let S := twiddleAt psirev (m + i)
    (List.range' (2 * (i * t)) t).foldl (nttfwButterfly S t) a) st.2.2
  (t, m <<< 1, a)

/-- `_ZKNOX_NTTFW_vectorized`: `m` doubles from `1` while it is below `512`, in nine rounds. -/
def nttfw (a : List Word) : List Word :=
  ((List.range 9).foldl (fun st _ => nttfwRound st) (512, 1, a)).2.2

/-- The body of the inner loop of `_ZKNOX_NTTINV_vectorized`. -/
def nttinvButterfly (S : Word) (t : ℕ) (a : List Word) (j : ℕ) : List Word :=
  let U := rd a j
  let V := rd a (j + t)
  let a := a.set (j + t) (mulmod (addmod U (q - V) q) S q)
  a.set j (addmod U V q)

/-- One iteration of the outer loop of `_ZKNOX_NTTINV_vectorized` on the state `(t, m, a)`; `group_ptr` advances by
`2 * t` words. -/
def nttinvRound (st : ℕ × ℕ × List Word) : ℕ × ℕ × List Word :=
  let t := st.1
  let h := st.2.1 >>> 1
  let a := (List.range h).foldl (fun a i =>
    let S := twiddleAt psirevInv (h + i)
    (List.range' (2 * t * i) t).foldl (nttinvButterfly S t) a) st.2.2
  (t <<< 1, st.2.1 >>> 1, a)

/-- `_ZKNOX_NTTINV_vectorized`: `m` halves from `512` while it is above `1`, in nine rounds. -/
def nttinv (a : List Word) : List Word :=
  let a := ((List.range 9).foldl (fun st _ => nttinvRound st) (1, 512, a)).2.2
  a.map fun x => mulmod x nm1modq q

/-- The pointwise product of `_ZKNOX_NTT_HALFMUL_ExpandedResult`, its second factor packed. -/
def halfmulProduct (nttA bCompact res : List Word) : List Word :=
  (List.range 32).foldl (fun res wi =>
    let bword := rd bCompact wi
    (List.range 16).foldl (fun res j =>
      res.set (16 * wi + j) (mulmod (rd nttA (16 * wi + j)) (slot bword j) q)) res) res

/-- `_ZKNOX_NTT_HALFMUL_ExpandedResult`. -/
def halfmulExpandedResult (a bCompact : List Word) : List Word :=
  let nttA := nttfw (nttExpand a)
  nttinv (halfmulProduct nttA bCompact (List.replicate 512 0))

/-- `_ZKNOX_VECMULMOD`. -/
def vecMulMod (a b : List Word) : List Word :=
  (List.range n).foldl (fun res i => res.set i (mulmod (rd a i) (rd b i) q)) (List.replicate n 0)

/-- `_ZKNOX_NTT_HALFMUL_Compact`. -/
def halfmulCompact (a b : List Word) : List Word :=
  nttCompact (nttinv (vecMulMod (nttfw (nttExpand a)) (nttExpand b)))

/-- The address of the array that `_ZKNOX_NTT_HALFMUL_ExpandedResult` returns, when the free memory pointer is
`fmp` on entry: behind the expanded array and the table of the forward transform. -/
def halfmulResultPtr (fmp : ℕ) : ℕ := fmp + 32 * (1 + 512) + 32 * 32

/-! ### Arrays of words -/

/-- The element of `ℤ_q` that a word represents. -/
def ofWord (w : Word) : Zq := (w.toNat : Zq)

/-- A word below `q`. -/
def WordReduced (w : Word) : Prop := w.toNat < 12289

/-- `a` has length `n`, every word is below `q` and the words represent `f`. -/
abbrev WordRep (n : ℕ) (a : List Word) (f : ℕ → Zq) : Prop := Represents ofWord WordReduced n a f

theorem WordReduced.eq_of_ofWord {x y : Word} (hx : WordReduced x) (hy : WordReduced y)
    (h : ofWord x = ofWord y) : x = y := by
  have h' := (ZMod.natCast_eq_natCast_iff _ _ 12289).1 h
  unfold Nat.ModEq at h'
  rw [Nat.mod_eq_of_lt hx, Nat.mod_eq_of_lt hy] at h'
  exact BitVec.eq_of_toNat_eq h'

theorem addmod_spec (x y : Word) : WordReduced (addmod x y q) ∧ ofWord (addmod x y q) = ofWord x + ofWord y := by
  have h : (addmod x y q).toNat = (x.toNat + y.toNat) % 12289 := toNat_addmod x y (by decide)
  constructor
  · rw [WordReduced, h]
    exact Nat.mod_lt _ (by omega)
  · rw [ofWord, h, ZMod.natCast_mod, Nat.cast_add]
    rfl

theorem mulmod_spec (x y : Word) : WordReduced (mulmod x y q) ∧ ofWord (mulmod x y q) = ofWord x * ofWord y := by
  have h : (mulmod x y q).toNat = x.toNat * y.toNat % 12289 := toNat_mulmod x y (by decide)
  constructor
  · rw [WordReduced, h]
    exact Nat.mod_lt _ (by omega)
  · rw [ofWord, h, ZMod.natCast_mod, Nat.cast_mul]
    rfl

theorem ofWord_q_sub {y : Word} (hy : y.toNat ≤ 12289) : ofWord (q - y) = -ofWord y := by
  have hy' : y.toNat ≤ q.toNat := hy
  have hq : ((12289 : ℕ) : Zq) = 0 := ZMod.natCast_self 12289
  rw [ofWord, toNat_sub_of_le hy', Nat.cast_sub hy', show q.toNat = 12289 from rfl, hq, zero_sub]
  rfl

/-- The modular difference, for a subtrahend below `q`. -/
theorem submod_spec (x : Word) {y : Word} (hy : WordReduced y) :
    WordReduced (addmod x (q - y) q) ∧ ofWord (addmod x (q - y) q) = ofWord x - ofWord y := by
  obtain ⟨h1, h2⟩ := addmod_spec x (q - y)
  rw [ofWord_q_sub (le_of_lt hy), ← sub_eq_add_neg] at h2
  exact ⟨h1, h2⟩

/-! ### The tables -/

private theorem twiddleAt_eq_slots (T : List Word) (mi : ℕ) : twiddleAt T mi = slots T mi := by
  rw [twiddleAt, slots, slot, Nat.shiftRight_eq_div_pow, show (0xf : ℕ) = 2 ^ 4 - 1 from rfl,
    Nat.and_two_pow_sub_one_eq_mod]

private theorem psirev_eq_GMb : checkZip (fun w x => w.toNat * 65536 % 12289 = x.toNat)
    ((List.range 512).map (slots psirev)) Crypto.GMb = true := by decide +kernel

private theorem psirevInv_eq_iGMb : checkZip (fun w x => w.toNat * 65536 % 12289 = x.toNat)
    ((List.range 512).map (slots psirevInv)) Crypto.iGMb = true := by decide +kernel

/-- The entries of a packed table are those of a table of the C code without their Montgomery factor. -/
private theorem ofWord_twiddleAt {T : List Word} {G : List UInt16} (hG : 512 ≤ G.length)
    (hT : checkZip (fun w x => w.toNat * 65536 % 12289 = x.toNat) ((List.range 512).map (slots T)) G = true) {i : ℕ}
    (hi : i < 512) : ofWord (twiddleAt T i) = Crypto.toZq (rd G i).toUInt32 * 2304 := by
  have h := checkZip_rd hT (i := i) (by simpa using hi) (by omega)
  have h' := congrArg (Nat.cast : ℕ → Zq) (of_decide_eq_true h)
  rw [rd_map_range _ hi, ZMod.natCast_mod, Nat.cast_mul, ← UInt16.toNat_toUInt32] at h'
  rw [twiddleAt_eq_slots, Crypto.toZq, ofWord, ← h']
  linear_combination -((slots T i).toNat : Zq) * Crypto.radix_mul_inv

private theorem ofWord_psirev {i : ℕ} (hi : i < 512) : ofWord (twiddleAt psirev i) = Crypto.twiddle i :=
  ofWord_twiddleAt (by rw [Crypto.length_GMb]; omega) psirev_eq_GMb hi

private theorem ofWord_psirevInv {i : ℕ} (hi : i < 512) : ofWord (twiddleAt psirevInv i) = Crypto.itwiddle i :=
  ofWord_twiddleAt (by rw [Crypto.length_iGMb]; omega) psirevInv_eq_iGMb hi

/-! ### The forward transform -/

/-- The body of the inner loop as a butterfly. -/
def nttfwPair (S U W : Word) : Word × Word :=
  let V := mulmod W S q
  (addmod U V q, addmod U (q - V) q)

private theorem nttfwButterfly_eq {t : ℕ} (ht : 0 < t) (S : Word) :
    nttfwButterfly S t = butterfly t (nttfwPair S) := by
  funext a j
  rw [nttfwButterfly, butterfly, List.set_comm _ _ (show j + t ≠ j by omega)]
  rfl

/-- One round of the forward transform, on words whose reduction is not assumed. -/
private theorem nttfwRound_rep {m t : ℕ} {ok : Word → Prop} {a : List Word} {f : ℕ → Zq} (ht : 0 < t)
    (hn : 2 * t * m = 512) (ha : Represents ofWord ok 512 a f) : ∃ a', nttfwRound (2 * t, m, a) =
      (t, 2 * m, a') ∧ WordRep 512 a' (fwdLayer Crypto.twiddle m t f) := by
  have hm : 2 * m ≤ 512 := by
    rw [← hn, Nat.mul_assoc]
    exact Nat.mul_le_mul_left 2 (Nat.le_mul_of_pos_left m ht)
  have ht' : (2 * t) >>> 1 = t := by rw [Nat.shiftRight_one]; omega
  have hm' : m <<< 1 = 2 * m := by rw [Nat.shiftLeft_eq]; omega
  refine ⟨sweep t m (fun i => nttfwPair (twiddleAt psirev (m + i))) a, ?_, ?_⟩
  · have hidx : ∀ i, 2 * (i * t) = 2 * t * i := fun i => by ring
    simp only [nttfwRound, ht', hm', nttfwButterfly_eq ht, sweep, block, hidx]
  · refine ha.sweep_fwd ht hn fun i hi x y _ _ => ?_
    obtain ⟨hv, hvc⟩ := mulmod_spec y (twiddleAt psirev (m + i))
    obtain ⟨h1, h1c⟩ := addmod_spec x (mulmod y (twiddleAt psirev (m + i)) q)
    obtain ⟨h2, h2c⟩ := submod_spec x hv
    rw [hvc, ofWord_psirev (by omega), mul_comm] at h1c h2c
    exact ⟨⟨h1, h1c⟩, h2, h2c⟩

/-- The state after the first `k` rounds; from the first round on the words are reduced. -/
private theorem foldl_nttfwRound {ok : Word → Prop} {a : List Word} {f : ℕ → Zq} (ha : Represents ofWord ok 512 a f)
    {k : ℕ} (hk : k ≤ 9) : ∃ a', (List.range k).foldl (fun st _ => nttfwRound st) (512, 1, a) =
      (2 ^ (9 - k), 2 ^ k, a') ∧
      Represents ofWord (fun w => 0 < k → WordReduced w) 512 a' (fwd Crypto.twiddle 9 k f) := by
  induction k with
  -- nothing is known about the words of the input
  | zero => exact ⟨a, rfl, ha.length, fun _ _ h => absurd h (by omega), ha.val_rd⟩
  | succ k ih =>
    obtain ⟨a', he, hr⟩ := ih (by omega)
    have ht : 2 ^ (9 - k) = 2 * 2 ^ (9 - (k + 1)) := by
      rw [← pow_succ', show 9 - (k + 1) + 1 = 9 - k by omega]
    obtain ⟨a'', he', hr'⟩ := nttfwRound_rep (by positivity) (two_pow_layer (show k < 9 by omega)) hr
    refine ⟨a'', ?_, hr'.mono fun _ h _ => h⟩
    rw [List.range_succ, List.foldl_append, he, ht, pow_succ' 2 k]
    exact he'

/-- `_ZKNOX_NTTFW_vectorized` computes the forward transform of an array of arbitrary words. -/
theorem nttfw_rep {ok : Word → Prop} {a : List Word} {f : ℕ → Zq} (ha : Represents ofWord ok 512 a f) :
    WordRep 512 (nttfw a) (fwd Crypto.twiddle 9 9 f) := by
  obtain ⟨a', he, hr⟩ := foldl_nttfwRound ha (le_refl 9)
  rw [nttfw, he]
  exact hr.mono fun _ h => h (by omega)

/-! ### The inverse transform -/

/-- The body of the inner loop as a butterfly. -/
def nttinvPair (S U V : Word) : Word × Word :=
  (addmod U V q, mulmod (addmod U (q - V) q) S q)

private theorem nttinvButterfly_eq {t : ℕ} (ht : 0 < t) (S : Word) :
    nttinvButterfly S t = butterfly t (nttinvPair S) := by
  funext a j
  rw [nttinvButterfly, butterfly, List.set_comm _ _ (show j + t ≠ j by omega)]
  rfl

private theorem nttinvRound_rep {m t : ℕ} {a : List Word} {f : ℕ → Zq} (ht : 0 < t) (hn : 2 * t * m = 512)
    (ha : WordRep 512 a f) : ∃ a', nttinvRound (t, 2 * m, a) = (2 * t, m, a') ∧
      WordRep 512 a' (invLayer Crypto.itwiddle m t f) := by
  have hm : 2 * m ≤ 512 := by
    rw [← hn, Nat.mul_assoc]
    exact Nat.mul_le_mul_left 2 (Nat.le_mul_of_pos_left m ht)
  have ht' : t <<< 1 = 2 * t := by rw [Nat.shiftLeft_eq]; omega
  have hm' : (2 * m) >>> 1 = m := by rw [Nat.shiftRight_one]; omega
  refine ⟨sweep t m (fun i => nttinvPair (twiddleAt psirevInv (m + i))) a, ?_, ?_⟩
  · simp only [nttinvRound, ht', hm', nttinvButterfly_eq ht, sweep, block]
  · refine ha.sweep_inv ht hn fun i hi x y _ hy => ?_
    obtain ⟨h1, h1c⟩ := addmod_spec x y
    obtain ⟨h2, h2c⟩ := submod_spec x hy
    obtain ⟨h3, h3c⟩ := mulmod_spec (addmod x (q - y) q) (twiddleAt psirevInv (m + i))
    rw [h2c, ofWord_psirevInv (by omega)] at h3c
    exact ⟨⟨h1, h1c⟩, h3, h3c⟩

/-- The state after `k` rounds: what the remaining layers make of the current array is what all layers make of the
input. -/
private theorem foldl_nttinvRound {a : List Word} {f : ℕ → Zq} (ha : WordRep 512 a f) {k : ℕ} (hk : k ≤ 9) :
    ∃ a' f', (List.range k).foldl (fun st _ => nttinvRound st) (1, 512, a) = (2 ^ k, 2 ^ (9 - k), a') ∧
      WordRep 512 a' f' ∧ inv Crypto.itwiddle 9 (9 - k) f' = inv Crypto.itwiddle 9 9 f := by
  induction k with
  | zero => exact ⟨a, f, rfl, ha, rfl⟩
  | succ k ih =>
    obtain ⟨a', f', he, hr, hi⟩ := ih (by omega)
    obtain ⟨m, hm⟩ : ∃ m, 9 - k = m + 1 := ⟨9 - k - 1, by omega⟩
    have hn := two_pow_layer (show m < 9 by omega)
    rw [show 9 - (m + 1) = k by omega] at hn
    obtain ⟨a'', he', hr'⟩ := nttinvRound_rep (by positivity) hn hr
    refine ⟨a'', invLayer Crypto.itwiddle (2 ^ m) (2 ^ k) f', ?_, hr', ?_⟩
    · rw [List.range_succ, List.foldl_append, he, hm, pow_succ' 2 m, pow_succ' 2 k, show 9 - (k + 1) = m by omega]
      exact he'
    · rw [← hi, hm, inv, show 9 - (k + 1) = m by omega, show 9 - (m + 1) = k by omega]

/-- `_ZKNOX_NTTINV_vectorized` computes the inverse transform, divided by the length. -/
theorem nttinv_rep {a : List Word} {f g : ℕ → Zq} (ha : WordRep 512 a f)
    (hg : ∀ e < 512, inv Crypto.itwiddle 9 9 f e = 2 ^ 9 * g e) : WordRep 512 (nttinv a) g := by
  obtain ⟨a', f', he, hr, hi⟩ := foldl_nttinvRound ha (le_refl 9)
  rw [Nat.sub_self, inv] at hi
  rw [nttinv, he]
  refine hr.map _ fun e he x _ hxe => ?_
  obtain ⟨h1, h2⟩ := mulmod_spec x nm1modq
  have hinv : (2 : Zq) ^ 9 * ofWord nm1modq = 1 := by decide +kernel
  refine ⟨h1, ?_⟩
  rw [h2, hxe, hi, hg e he]
  linear_combination g e * hinv

/-- Whatever the reduced words, the result is reduced. -/
private theorem nttinv_reduced {a : List Word} {f : ℕ → Zq} (ha : WordRep 512 a f) :
    WordRep 512 (nttinv a) (fun e => ofWord nm1modq * inv Crypto.itwiddle 9 9 f e) := by
  apply nttinv_rep ha
  intro e _
  have hinv : (2 : Zq) ^ 9 * ofWord nm1modq = 1 := by decide +kernel
  rw [← mul_assoc, hinv, one_mul]

/-! ### The product -/

private theorem halfmulProduct_eq_fillRows (nttA bCompact res : List Word) : halfmulProduct nttA bCompact res =
    fillRows 32 16 (fun wi j => mulmod (rd nttA (16 * wi + j)) (slot (rd bCompact wi) j) q) res := rfl

private theorem length_halfmulProduct (nttA bCompact : List Word) :
    (halfmulProduct nttA bCompact (List.replicate 512 0)).length = 512 := by
  rw [halfmulProduct_eq_fillRows, length_fillRows, List.length_replicate]

private theorem rd_halfmulProduct (nttA bCompact : List Word) {e : ℕ} (he : e < 512) :
    rd (halfmulProduct nttA bCompact (List.replicate 512 0)) e = mulmod (rd nttA e) (slots bCompact e) q := by
  rw [halfmulProduct_eq_fillRows, rd_fillRows (by omega) _ (by rw [List.length_replicate]) he, Nat.div_add_mod, slots]

private theorem halfmulProduct_rep {nttA bCompact : List Word} {f g : ℕ → Zq} (ha : WordRep 512 nttA f)
    (hb : ∀ e < 512, ofWord (slots bCompact e) = g e) :
    WordRep 512 (halfmulProduct nttA bCompact (List.replicate 512 0)) (fun e => f e * g e) := by
  refine ⟨length_halfmulProduct _ _, ?_, ?_⟩
  · intro e he
    rw [rd_halfmulProduct _ _ he]
    exact (mulmod_spec _ _).1
  · intro e he
    rw [rd_halfmulProduct _ _ he, (mulmod_spec _ _).2, ha.val_rd e he, hb e he]

private theorem vecMulMod_eq_fill (a b : List Word) :
    vecMulMod a b = fill 0 n (fun i => mulmod (rd a i) (rd b i) q) (List.replicate n 0) := by
  simp only [vecMulMod, fill, Nat.zero_add]

private theorem length_vecMulMod (a b : List Word) : (vecMulMod a b).length = 512 := by
  rw [vecMulMod_eq_fill, length_fill, List.length_replicate, n]

private theorem rd_vecMulMod (a b : List Word) {e : ℕ} (he : e < 512) :
    rd (vecMulMod a b) e = mulmod (rd a e) (rd b e) q := by
  rw [vecMulMod_eq_fill, rd_fill _ (by simp), if_pos ⟨Nat.zero_le e, by rw [n]; omega⟩, Nat.sub_zero]

/-- Unpacking the second factor while multiplying. -/
private theorem vecMulMod_nttExpand (nttA bCompact : List Word) :
    vecMulMod nttA (nttExpand bCompact) = halfmulProduct nttA bCompact (List.replicate 512 0) := by
  apply ext_rd
  · rw [length_vecMulMod, length_halfmulProduct]
  · intro e he
    rw [length_vecMulMod] at he
    rw [rd_vecMulMod _ _ he, rd_halfmulProduct _ _ he, rd_nttExpand _ he]

theorem nttExpand_rep (a : List Word) :
    Represents ofWord (fun _ => True) 512 (nttExpand a) (fun e => ofWord (slots a e)) where
  length := length_nttExpand a
  ok_rd _ _ := trivial
  val_rd e he := by rw [rd_nttExpand a he]

/-- `_ZKNOX_NTT_HALFMUL_ExpandedResult` computes the product modulo `X ^ 512 + 1` of the polynomial with the slots
of `a` and the polynomial whose transform is packed in `bCompact`. -/
theorem halfmul_rep (a : List Word) {bCompact : List Word} {g : ℕ → Zq}
    (hb : ∀ e < 512, ofWord (slots bCompact e) = fwd Crypto.twiddle 9 9 g e) :
    WordRep 512 (halfmulExpandedResult a bCompact) (mulMod 512 (fun e => ofWord (slots a e)) g) := by
  apply nttinv_rep (halfmulProduct_rep (nttfw_rep (nttExpand_rep a)) hb)
  intro e he
  exact inv_mul_fwd (Crypto.isTable_twiddle (by omega)) (Crypto.twiddle_inv (by omega)) _ g he

/-- Compacting a reduced array keeps the polynomial in its slots. -/
theorem slots_nttCompact_rep {a : List Word} {f : ℕ → Zq} (ha : WordRep 512 a f) {e : ℕ} (he : e < 512) :
    WordReduced (slots (nttCompact a) e) ∧ ofWord (slots (nttCompact a) e) = f e := by
  have hlt : ∀ e < 512, (rd a e).toNat < 2 ^ 16 := by
    intro e he
    have hred := ha.ok_rd e he
    unfold WordReduced at hred
    omega
  rw [slots_nttCompact hlt he]
  exact ⟨ha.ok_rd e he, ha.val_rd e he⟩

/-- 512 words below `q`. -/
structure ExpandedPoly where
  words : List Word
  length : words.length = 512
  reduced : ∀ w ∈ words, WordReduced w

theorem ExpandedPoly.rep (h : ExpandedPoly) : WordRep 512 h.words (fun e => ofWord (rd h.words e)) :=
  Represents.of_forall_mem h.length h.reduced

/-- Words below `q` fit their slots. -/
def ExpandedPoly.slotValues (h : ExpandedPoly) : SlotValues where
  words := h.words
  length := h.length
  fits w hw := lt_trans (h.reduced w hw) (by omega)

/-- Packing the result of `_ZKNOX_NTTINV_vectorized` loses nothing. -/
theorem expand_halfmulCompact (a b : List.Vector Word 32) :
    nttExpand (halfmulCompact a.1 b.1) = halfmulExpandedResult a.1 b.1 := by
  have hprod : WordRep 512 (halfmulProduct (nttfw (nttExpand a.1)) b.1 (List.replicate 512 0)) _ :=
    halfmulProduct_rep (nttfw_rep (nttExpand_rep a.1)) fun e _ => rfl
  have hrep := nttinv_reduced hprod
  rw [halfmulCompact, vecMulMod_nttExpand]
  exact nttExpand_nttCompact (ExpandedPoly.slotValues ⟨_, hrep.length, hrep.forall_mem⟩)

/-- Given the compacted transform of `h`, the half-multiplication returns 512 words below `q`, the coefficients of
the product of `h` and the slots of `s2` modulo `X ^ 512 + 1`. -/
theorem halfmul_eq_mulMod (h : ExpandedPoly) (s2 : List Word) :
    (halfmulExpandedResult s2 (nttCompact (nttfw h.words))).length = 512 ∧
    ∀ e < 512, WordReduced (rd (halfmulExpandedResult s2 (nttCompact (nttfw h.words))) e) ∧
      ofWord (rd (halfmulExpandedResult s2 (nttCompact (nttfw h.words))) e) =
        mulMod 512 (fun e => ofWord (slots s2 e)) (fun e => ofWord (rd h.words e)) e := by
  have hb : ∀ e < 512, ofWord (slots (nttCompact (nttfw h.words)) e) = fwd Crypto.twiddle 9 9
      (fun e => ofWord (rd h.words e)) e := fun e he => (slots_nttCompact_rep (nttfw_rep h.rep) he).2
  have hrep := halfmul_rep s2 hb
  exact ⟨hrep.length, fun e he => ⟨hrep.ok_rd e he, hrep.val_rd e he⟩⟩

/-- Whatever is packed in `bCompact`, the result depends on the slots of `a` modulo `q` only. -/
theorem halfmul_congr {a a' : List Word} (h : ∀ e < 512, ofWord (slots a e) = ofWord (slots a' e))
    (bCompact : List Word) : halfmulExpandedResult a bCompact = halfmulExpandedResult a' bCompact := by
  have hrep : ∀ b : List Word, WordRep 512 (halfmulExpandedResult b bCompact) (fun e => ofWord nm1modq *
      inv Crypto.itwiddle 9 9 (fun e => fwd Crypto.twiddle 9 9 (fun e => ofWord (slots b e)) e *
        ofWord (slots bCompact e)) e) := by
    intro b
    exact nttinv_reduced (halfmulProduct_rep (nttfw_rep (nttExpand_rep b)) fun e _ => rfl)
  refine (hrep a).unique (fun x y hx hy hxy => WordReduced.eq_of_ofWord hx hy hxy) ((hrep a').congr ?_)
  intro e he
  have hprod : ∀ i < 2 ^ 9, fwd Crypto.twiddle 9 9 (fun e => ofWord (slots a' e)) i * ofWord (slots bCompact i) =
      fwd Crypto.twiddle 9 9 (fun e => ofWord (slots a e)) i * ofWord (slots bCompact i) := by
    intro i hi
    rw [fwd_congr (le_refl 9) (fun e he => (h e he).symm) hi]
  rw [inv_congr (le_refl 9) hprod he]

end DfVrf.Contracts
