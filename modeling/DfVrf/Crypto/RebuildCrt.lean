import DfVrf.Crypto.Zint
import Mathlib.Algebra.Order.BigOperators.Ring.Finset

/-!
# Rebuilding integers from residues (`keygen.c`)

The intermediate values of the key generator are kept modulo many small primes.  `zint_rebuild_CRT` rebuilds them one
prime after the other: a residue modulo the product of the primes so far, and the residue modulo the next one.

* `zintRebuildCrt_unsigned`, `zintRebuildCrt_signed`: an integer with the given residues, modulo the product of all
  primes, and the integer itself when it is small enough.
-/

namespace DfVrf.Crypto

open InPlace Limbs

/-! ### The primes -/

/-- `small_prime`: the prime `p`, a primitive root `g` of `X ^ 1024 + 1`, and `s`, the inverse of the product of all
previous primes in Montgomery representation. -/
structure SmallPrime where
  p : UInt32
  g : UInt32
  s : UInt32
  deriving Inhabited

/-- `PRIMES`; the last length in `MAX_BL_SMALL` is that of this part of the table. -/
def PRIMES : List SmallPrime := [
  ⟨2147473409, 383167813, 10239⟩, ⟨2147389441, 211808905, 471403745⟩, ⟨2147387393, 37672282, 1329335065⟩,
  ⟨2147377153, 1977035326, 968223422⟩, ⟨2147358721, 1067163706, 132460015⟩, ⟨2147352577, 1606082042, 598693809⟩,
  ⟨2147346433, 2033915641, 1056257184⟩, ⟨2147338241, 1653770625, 421286710⟩, ⟨2147309569, 631200819, 1111201074⟩,
  ⟨2147297281, 2038364663, 1042003613⟩, ⟨2147295233, 1962540515, 19440033⟩, ⟨2147239937, 2100082663, 353296760⟩,
  ⟨2147235841, 1991153006, 1703918027⟩, ⟨2147217409, 516405114, 1258919613⟩, ⟨2147205121, 409347988, 1089726929⟩,
  ⟨2147196929, 927788991, 1946238668⟩, ⟨2147178497, 1136922411, 1347028164⟩, ⟨2147100673, 868626236, 701164723⟩,
  ⟨2147082241, 1897279176, 617820870⟩, ⟨2147074049, 1888819123, 158382189⟩, ⟨2147051521, 25006327, 522758543⟩,
  ⟨2147043329, 327546255, 37227845⟩, ⟨2147039233, 766324424, 1133356428⟩, ⟨2146988033, 1862817362, 73861329⟩,
  ⟨2146963457, 404622040, 653019435⟩, ⟨2146959361, 1936581214, 995143093⟩, ⟨2146938881, 1559770096, 634921513⟩,
  ⟨2146908161, 422623708, 1985060172⟩, ⟨2146885633, 1751189170, 298238186⟩, ⟨2146871297, 578919515, 291810829⟩,
  ⟨2146846721, 1114060353, 915902322⟩, ⟨2146834433, 2069565474, 47859524⟩, ⟨2146818049, 1552824584, 646281055⟩,
  ⟨2146775041, 1906267847, 1597832891⟩, ⟨2146756609, 1847414714, 1228090888⟩, ⟨2146744321, 1818792070, 1176377637⟩,
  ⟨2146738177, 1118066398, 1054971214⟩, ⟨2146736129, 52057278, 933422153⟩, ⟨2146713601, 592259376, 1406621510⟩,
  ⟨2146695169, 263161877, 1514178701⟩, ⟨2146656257, 685363115, 384505091⟩, ⟨2146650113, 927727032, 537575289⟩,
  ⟨2146646017, 52575506, 1799464037⟩, ⟨2146643969, 1276803876, 1348954416⟩, ⟨2146603009, 814028633, 1521547704⟩,
  ⟨2146572289, 1846678872, 1310832121⟩, ⟨2146547713, 919368090, 1019041349⟩, ⟨2146508801, 671847612, 38582496⟩,
  ⟨2146492417, 283911680, 532424562⟩, ⟨2146490369, 1780044827, 896447978⟩, ⟨2146459649, 327980850, 1327906900⟩,
  ⟨2146447361, 1310561493, 958645253⟩, ⟨2146441217, 412148926, 287271128⟩, ⟨2146437121, 293186449, 2009822534⟩,
  ⟨2146430977, 179034356, 1359155584⟩, ⟨2146418689, 1517345488, 1790248672⟩, ⟨2146406401, 1615820390, 1584833571⟩,
  ⟨2146404353, 826651445, 607120498⟩, ⟨2146379777, 3816988, 1897049071⟩, ⟨2146363393, 1221409784, 1986921567⟩,
  ⟨2146355201, 1388081168, 849968120⟩, ⟨2146336769, 1803473237, 1655544036⟩, ⟨2146312193, 1023484977, 273671831⟩,
  ⟨2146293761, 1074591448, 467406983⟩, ⟨2146283521, 831604668, 1523950494⟩, ⟨2146203649, 712865423, 1170834574⟩,
  ⟨2146154497, 1764991362, 1064856763⟩, ⟨2146142209, 627386213, 1406840151⟩, ⟨2146127873, 1638674429, 2088393537⟩,
  ⟨2146099201, 1516001018, 690673370⟩, ⟨2146093057, 1294931393, 315136610⟩, ⟨2146091009, 1942399533, 973539425⟩,
  ⟨2146078721, 1843461814, 2132275436⟩, ⟨2146060289, 1098740778, 360423481⟩, ⟨2146048001, 1617213232, 1951981294⟩,
  ⟨2146041857, 1805783169, 2075683489⟩, ⟨2146019329, 272027909, 1753219918⟩, ⟨2145986561, 1206530344, 2034028118⟩,
  ⟨2145976321, 1243769360, 1173377644⟩, ⟨2145964033, 887200839, 1281344586⟩, ⟨2145906689, 1651026455, 906178216⟩,
  ⟨2145875969, 1673238256, 1043521212⟩, ⟨2145871873, 1226591210, 1399796492⟩, ⟨2145841153, 1465353397, 1324527802⟩,
  ⟨2145832961, 1150638905, 554084759⟩, ⟨2145816577, 221601706, 427340863⟩, ⟨2145785857, 608896761, 316590738⟩,
  ⟨2145755137, 1712054942, 1684294304⟩, ⟨2145742849, 1302302867, 724873116⟩, ⟨2145728513, 516717693, 431671476⟩,
  ⟨2145699841, 524575579, 1619722537⟩, ⟨2145691649, 1925625239, 982974435⟩, ⟨2145687553, 463795662, 1293154300⟩,
  ⟨2145673217, 771716636, 881778029⟩, ⟨2145630209, 1509556977, 837364988⟩, ⟨2145595393, 229091856, 851648427⟩,
  ⟨2145587201, 1796903241, 635342424⟩, ⟨2145525761, 715310882, 1677228081⟩, ⟨2145495041, 1040930522, 200685896⟩,
  ⟨2145466369, 949804237, 1809146322⟩, ⟨2145445889, 1673903706, 95316881⟩, ⟨2145390593, 806941852, 1428671135⟩,
  ⟨2145372161, 1402525292, 159350694⟩, ⟨2145361921, 2124760298, 1589134749⟩, ⟨2145359873, 1217503067, 1561543010⟩,
  ⟨2145355777, 338341402, 83865711⟩, ⟨2145343489, 1381532164, 641430002⟩, ⟨2145325057, 1883895478, 1528469895⟩,
  ⟨2145318913, 1335370424, 65809740⟩, ⟨2145312769, 2000008042, 1919775760⟩, ⟨2145300481, 961450962, 1229540578⟩,
  ⟨2145282049, 910466767, 1964062701⟩, ⟨2145232897, 816527501, 450152063⟩, ⟨2145218561, 1435128058, 1794509700⟩,
  ⟨2145187841, 33505311, 1272467582⟩, ⟨2145181697, 269767433, 1380363849⟩, ⟨2145175553, 56386299, 1316870546⟩,
  ⟨2145079297, 2106880293, 1391797340⟩, ⟨2145021953, 1347906152, 720510798⟩, ⟨2145015809, 206769262, 1651459955⟩,
  ⟨2145003521, 1885513236, 1393381284⟩, ⟨2144960513, 1810381315, 31937275⟩, ⟨2144944129, 1306487838, 2019419520⟩,
  ⟨2144935937, 37304730, 1841489054⟩, ⟨2144894977, 1601434616, 157985831⟩, ⟨2144888833, 98749330, 2128592228⟩,
  ⟨2144880641, 1772327002, 2076128344⟩, ⟨2144864257, 1404514762, 2029969964⟩, ⟨2144827393, 801236594, 406627220⟩,
  ⟨2144806913, 349217443, 1501080290⟩, ⟨2144796673, 1542656776, 2084736519⟩, ⟨2144778241, 1210734884, 1746416203⟩,
  ⟨2144759809, 1146598851, 716464489⟩, ⟨2144757761, 286328400, 1823728177⟩, ⟨2144729089, 1347555695, 1836644881⟩,
  ⟨2144727041, 1795703790, 520296412⟩, ⟨2144696321, 1302475157, 852964281⟩, ⟨2144667649, 1075877614, 504992927⟩,
  ⟨2144573441, 198765808, 1617144982⟩, ⟨2144555009, 321528767, 155821259⟩, ⟨2144550913, 814139516, 1819937644⟩,
  ⟨2144536577, 571143206, 962942255⟩, ⟨2144524289, 1746733766, 2471321⟩, ⟨2144512001, 1821415077, 124190939⟩,
  ⟨2144468993, 917871546, 1260072806⟩, ⟨2144458753, 378417981, 1569240563⟩, ⟨2144421889, 175229668, 1825620763⟩,
  ⟨2144409601, 1699216963, 351648117⟩, ⟨2144370689, 1071885991, 958186029⟩, ⟨2144348161, 1763151227, 540353574⟩,
  ⟨2144335873, 1060214804, 919598847⟩, ⟨2144329729, 663515846, 1448552668⟩, ⟨2144327681, 1057776305, 590222840⟩,
  ⟨2144309249, 1705149168, 1459294624⟩, ⟨2144296961, 325823721, 1649016934⟩, ⟨2144290817, 738775789, 447427206⟩,
  ⟨2144243713, 962347618, 893050215⟩, ⟨2144237569, 1655257077, 900860862⟩, ⟨2144161793, 242206694, 1567868672⟩,
  ⟨2144155649, 769415308, 1247993134⟩, ⟨2144137217, 320492023, 515841070⟩, ⟨2144120833, 1639388522, 770877302⟩,
  ⟨2144071681, 1761785233, 964296120⟩, ⟨2144065537, 419817825, 204564472⟩, ⟨2144028673, 666050597, 2091019760⟩,
  ⟨2144010241, 1413657615, 1518702610⟩, ⟨2143952897, 1238327946, 475672271⟩, ⟨2143940609, 307063413, 1176750846⟩,
  ⟨2143918081, 2062905559, 786785803⟩, ⟨2143899649, 1338112849, 1562292083⟩, ⟨2143891457, 68149545, 87166451⟩,
  ⟨2143885313, 921750778, 394460854⟩, ⟨2143854593, 719766593, 133877196⟩, ⟨2143836161, 1149399850, 1861591875⟩,
  ⟨2143762433, 1848739366, 1335934145⟩, ⟨2143756289, 1326674710, 102999236⟩, ⟨2143713281, 808061791, 1156900308⟩,
  ⟨2143690753, 388399459, 1926468019⟩, ⟨2143670273, 1427891374, 1756689401⟩, ⟨2143666177, 1912173949, 986629565⟩,
  ⟨2143645697, 2041160111, 371842865⟩, ⟨2143641601, 1279906897, 2023974350⟩, ⟨2143635457, 720473174, 1389027526⟩,
  ⟨2143621121, 1298309455, 1732632006⟩, ⟨2143598593, 1548762216, 1825417506⟩, ⟨2143567873, 620475784, 1073787233⟩,
  ⟨2143561729, 1932954575, 949167309⟩, ⟨2143553537, 354315656, 1652037534⟩, ⟨2143541249, 577424288, 1097027618⟩,
  ⟨2143531009, 357862822, 478640055⟩, ⟨2143522817, 2017706025, 1550531668⟩, ⟨2143506433, 2078127419, 1824320165⟩,
  ⟨2143488001, 613475285, 1604011510⟩, ⟨2143469569, 1466594987, 502095196⟩, ⟨2143426561, 1115430331, 1044637111⟩,
  ⟨2143383553, 9778045, 1902463734⟩, ⟨2143377409, 1557401276, 2056861771⟩, ⟨2143363073, 652036455, 1965915971⟩,
  ⟨2143260673, 1464581171, 1523257541⟩, ⟨2143246337, 1876119649, 764541916⟩, ⟨2143209473, 1614992673, 1920672844⟩,
  ⟨2143203329, 981052047, 2049774209⟩, ⟨2143160321, 1847355533, 728535665⟩, ⟨2143129601, 965558457, 603052992⟩,
  ⟨2143123457, 2140817191, 8348679⟩, ⟨2143100929, 1547263683, 694209023⟩, ⟨2143092737, 643459066, 1979934533⟩,
  ⟨2143082497, 188603778, 2026175670⟩, ⟨2143062017, 1657329695, 377451099⟩]

/-- `MAX_BL_SMALL`. -/
def MAX_BL_SMALL : List ℕ := [1, 1, 2, 2, 4, 7, 14, 27, 53, 106, 209]

/-- What the table promises about a prime, the product of the previous ones being `P`. -/
structure IsSmallPrime (q : SmallPrime) (P : ℕ) : Prop where
  lower : 2 ^ 30 < q.p.toNat
  upper : q.p.toNat < 2 ^ 31
  cyclotomic : q.p.toNat % 2048 = 1
  g_lt : q.g.toNat < q.p.toNat
  root : q.g.toNat ^ 1024 % q.p.toNat = q.p.toNat - 1
  s_lt : q.s.toNat < q.p.toNat
  inverse : q.s.toNat * P % q.p.toNat = 2 ^ 31 % q.p.toNat

/-- The product of the first `u` primes. -/
def primeProduct (primes : List SmallPrime) (u : ℕ) : ℕ := ∏ i ∈ Finset.range u, (rd primes i).p.toNat

/-- The first `len` entries are as the table promises. -/
def IsPrimes (primes : List SmallPrime) (len : ℕ) : Prop :=
  ∀ u < len, IsSmallPrime (rd primes u) (primeProduct primes u)

/-- The check of the entries of a table, with the product `P` of the primes before them. -/
def checkPrimes : ℕ → List SmallPrime → Bool
  | _, [] => true
  | P, q :: qs => (2 ^ 30 < q.p.toNat && q.p.toNat < 2 ^ 31 && q.p.toNat % 2048 == 1 && q.g.toNat < q.p.toNat &&
      q.g.toNat ^ 1024 % q.p.toNat == q.p.toNat - 1 && q.s.toNat < q.p.toNat &&
      q.s.toNat * P % q.p.toNat == 2 ^ 31 % q.p.toNat) && checkPrimes (P * q.p.toNat) qs

private theorem isSmallPrime_of_checkPrimes {P : ℕ} {qs : List SmallPrime} (h : checkPrimes P qs = true) {u : ℕ}
    (hu : u < qs.length) : IsSmallPrime (rd qs u) (P * primeProduct qs u) := by
  induction qs generalizing P u with
  | nil => exact absurd hu (Nat.not_lt_zero u)
  | cons q qs ih =>
    simp only [checkPrimes, Bool.and_eq_true, decide_eq_true_eq, beq_iff_eq] at h
    obtain ⟨⟨⟨⟨⟨⟨⟨h1, h2⟩, h3⟩, h4⟩, h5⟩, h6⟩, h7⟩, hqs⟩ := h
    cases u with
    | zero =>
      rw [primeProduct, Finset.range_zero, Finset.prod_empty, mul_one, show rd (q :: qs) 0 = q from rfl]
      exact ⟨h1, h2, h3, h4, h5, h6, h7⟩
    | succ u =>
      have hnext := ih hqs (Nat.lt_of_succ_lt_succ hu)
      rw [primeProduct, Finset.prod_range_succ', mul_comm (∏ i ∈ _, _), ← mul_assoc]
      exact hnext

private theorem PRIMES_check : checkPrimes 1 PRIMES = true ∧ PRIMES.length = 209 := by decide +kernel

theorem isPrimes_PRIMES : IsPrimes PRIMES 209 := by
  intro u hu
  have h := isSmallPrime_of_checkPrimes PRIMES_check.1 (by rwa [PRIMES_check.2])
  rwa [one_mul] at h

section Prime

variable {q : SmallPrime} {P : ℕ}

theorem IsSmallPrime.isModulus (hq : IsSmallPrime q P) : IsModulus q.p (modpNinv31 q.p) :=
  isModulus_ninv31 hq.lower hq.upper (by
    have := hq.cyclotomic
    omega)

/-- `s` inverts the product of the previous primes. -/
private theorem IsSmallPrime.exists_inverse (hq : IsSmallPrime q P) :
    ∃ c : ZMod q.p.toNat, Monty q.p q.s c ∧ c * (P : ZMod q.p.toNat) = 1 := by
  have hinv := radix_mul_inv_of hq.isModulus
  have hs := toZp_eq (p := q.p) hq.inverse
  push_cast at hs
  refine ⟨toZp q.p q.s * (2 ^ 31)⁻¹, ⟨hq.s_lt, ?_⟩, ?_⟩
  · linear_combination -toZp q.p q.s * hinv
  · unfold toZp
    linear_combination (2 ^ 31)⁻¹ * hs + hinv

end Prime

/-! ### The loops -/

/-- The rebuilding of one integer at `x` from `u` words to `u + 1` words. -/
def zintRebuildCrtValue (q : SmallPrime) (u tmp : ℕ) (mem : ℕ → UInt32) (x : ℕ) : ℕ → UInt32 :=
  let p0i := modpNinv31 q.p
  let r2 := modpR2 q.p p0i
  let xp := mem (x + u)
  let xq := zintModSmallUnsigned mem x u q.p p0i r2
  let xr := modpMontymul q.s (modpSub xp xq q.p) q.p p0i
  zintAddMulSmall mem x tmp u xr

/-- The iteration `u` of `zint_rebuild_CRT`. -/
def zintRebuildCrtStep (xx xstride num : ℕ) (primes : List SmallPrime) (tmp : ℕ) (mem : ℕ → UInt32) (u : ℕ) :
    ℕ → UInt32 :=
  let q := rd primes u
  let mem := (List.range num).foldl (fun mem v => zintRebuildCrtValue q u tmp mem (xx + v * xstride)) mem
  let r := zintMulSmall mem tmp u q.p
  Function.update r.1 (tmp + u) r.2

/-- `zint_rebuild_CRT`. -/
def zintRebuildCrt (mem : ℕ → UInt32) (xx xlen xstride num : ℕ) (primes : List SmallPrime) (normalizeSigned : Bool)
    (tmp : ℕ) : ℕ → UInt32 :=
  let mem := Function.update mem tmp (rd primes 0).p
  let mem := (List.range' 1 (xlen - 1)).foldl (zintRebuildCrtStep xx xstride num primes tmp) mem
  if normalizeSigned then (List.range num).foldl (fun mem v => zintNormZero mem (xx + v * xstride) tmp xlen) mem
  else mem

/-! ### One integer -/

/-- The residues of an integer modulo `P` and modulo `p` make its residue modulo `P * p`. -/
private theorem emod_mul_of_residue {F : ℤ} {P p r : ℕ} {c : ZMod p} (hP : 0 < P) (hr : r < p)
    (hc : c * (P : ZMod p) = 1) (h : (r : ZMod p) = c * (F - (F % P : ℤ))) : F % (P * p : ℕ) = F % P + r * P := by
  have hsplit := Int.emod_add_mul_ediv F P
  have hcong : ((r : ℤ) : ZMod p) = ((F / P : ℤ) : ZMod p) := by
    have hcast := congrArg (Int.cast : ℤ → ZMod p) hsplit
    push_cast at hcast ⊢
    rw [h]
    linear_combination -c * hcast + ((F / P : ℤ) : ZMod p) * hc
  have hmod : F / P % p = r := by
    rw [← (ZMod.intCast_eq_intCast_iff' _ _ _).1 hcong]
    exact Int.emod_eq_of_lt (by positivity) (by exact_mod_cast hr)
  have hbound : 0 ≤ F % P ∧ F % P < P := ⟨Int.emod_nonneg F (by omega), Int.emod_lt_of_pos F (by omega)⟩
  have hdiv := Int.emod_add_mul_ediv (F / P) p
  have hF : F = F % P + r * P + (P * p : ℕ) * (F / P / p) := by
    push_cast
    linear_combination -hsplit - (P : ℤ) * hdiv + (P : ℤ) * hmod
  have hlt : F % P + r * P < (P * p : ℕ) := by
    push_cast
    nlinarith
  conv_lhs => rw [hF]
  rw [Int.add_mul_emod_self_left]
  exact Int.emod_eq_of_lt (add_nonneg hbound.1 (by positivity)) hlt

/-- The memory at `x` when `u` words of `F` are rebuilt and the others are residues. -/
structure IsRebuilt (primes : List SmallPrime) (len u : ℕ) (F : ℤ) (mem : ℕ → UInt32) (x : ℕ) : Prop where
  limbs : IsLimbs mem x u
  value : (limbValue mem x u : ℤ) = F % primeProduct primes u
  below : ∀ i, u ≤ i → i < len → Below (rd primes i).p (mem (x + i))
  residue : ∀ i, u ≤ i → i < len → toZp (rd primes i).p (mem (x + i)) = F

section Value

variable {primes : List SmallPrime} {len u : ℕ} {F : ℤ} {mem : ℕ → UInt32} {x tmp : ℕ}

theorem IsRebuilt.congr {mem' : ℕ → UInt32} (h : IsRebuilt primes len u F mem x) (hu : u ≤ len)
    (hmem : ∀ i < len, mem' (x + i) = mem (x + i)) : IsRebuilt primes len u F mem' x where
  limbs := h.limbs.congr fun i hi => hmem i (by omega)
  value := by
    rw [limbValue_congr fun i hi => hmem i (by omega)]
    exact h.value
  below i h1 h2 := by
    rw [hmem i h2]
    exact h.below i h1 h2
  residue i h1 h2 := by
    rw [hmem i h2]
    exact h.residue i h1 h2

private theorem primeProduct_succ (primes : List SmallPrime) (u : ℕ) :
    primeProduct primes (u + 1) = primeProduct primes u * (rd primes u).p.toNat := Finset.prod_range_succ _ _

private theorem IsPrimes.primeProduct_pos (hp : IsPrimes primes len) (hu : u ≤ len) : 0 < primeProduct primes u := by
  refine Finset.prod_pos fun i hi => ?_
  have := (hp i (lt_of_lt_of_le (Finset.mem_range.1 hi) hu)).lower
  omega

/-- The first word is a residue. -/
theorem IsRebuilt.one (hp : IsPrimes primes len) (hlen : 0 < len)
    (hres : ∀ i < len, Below (rd primes i).p (mem (x + i)) ∧ toZp (rd primes i).p (mem (x + i)) = F) :
    IsRebuilt primes len 1 F mem x where
  limbs i hi := by
    have hb := (hres i (by omega)).1
    have hup := (hp i (by omega)).upper
    unfold Below at hb
    omega
  value := by
    obtain ⟨hb, hv⟩ := hres 0 hlen
    rw [limbValue_succ_low, limbValue, Limbs.value, Finset.range_zero, Finset.sum_empty, mul_zero, add_zero,
      primeProduct_succ,
      primeProduct, Finset.range_zero, Finset.prod_empty, one_mul]
    rw [toZp, ← Int.cast_natCast, ZMod.intCast_eq_intCast_iff'] at hv
    rw [← hv]
    refine (Int.emod_eq_of_lt (by positivity) ?_).symm
    exact_mod_cast hb
  below i _ hi := (hres i hi).1
  residue i _ hi := (hres i hi).2

private theorem zintRebuildCrtValue_frame {q : SmallPrime} {j : ℕ} (hj : j < x ∨ x + u < j) :
    zintRebuildCrtValue q u tmp mem x j = mem j := zintAddMulSmall_frame hj

/-- The multiple of the product that is added to one integer. -/
private theorem zintRebuildCrtValue_eq (tmp : ℕ) (hp : IsPrimes primes len) (hu : u < len)
    (h : IsRebuilt primes len u F mem x) :
    ∃ xr, zintRebuildCrtValue (rd primes u) u tmp mem x = zintAddMulSmall mem x tmp u xr ∧
      xr.toNat < (rd primes u).p.toNat ∧ ∃ c : ZMod (rd primes u).p.toNat, c * (primeProduct primes u : ℕ) = 1 ∧
        (xr.toNat : ZMod (rd primes u).p.toNat) = c * (F - (F % primeProduct primes u : ℤ)) := by
  have hm := (hp u hu).isModulus
  obtain ⟨c, hc, hinv⟩ := (hp u hu).exists_inverse
  obtain ⟨h1, h2⟩ := zintModSmallUnsigned_spec hm h.limbs
  obtain ⟨h3, h4⟩ := modpSub_spec hm (h.below u le_rfl hu) h1
  obtain ⟨h5, h6⟩ := modpMontymul_spec hm hc.below h3
  refine ⟨_, rfl, h5, c, hinv, ?_⟩
  unfold toZp at h6
  rw [h6]
  change toZp _ _ * toZp _ _ * _ = _
  rw [h4, h.residue u le_rfl hu, h2, hc.val, ← h.value]
  push_cast
  linear_combination c * (F - limbValue mem x u) * radix_mul_inv_of hm

/-- One more word is rebuilt. -/
theorem IsRebuilt.step (hp : IsPrimes primes len) (hu : u < len) (h : IsRebuilt primes len u F mem x)
    (htmp : IsLimbs mem tmp u) (hprod : limbValue mem tmp u = primeProduct primes u) (hsep : Aligned x tmp u) :
    IsRebuilt primes len (u + 1) F (zintRebuildCrtValue (rd primes u) u tmp mem x) x := by
  obtain ⟨xr, heq, hlt, c, hinv, hval⟩ := zintRebuildCrtValue_eq tmp hp hu h
  have hup := (hp u hu).upper
  obtain ⟨h7, h8⟩ := zintAddMulSmall_spec (show xr.toNat < 2 ^ 31 by omega) hsep h.limbs htmp
  rw [← heq] at h7 h8
  refine ⟨h7, ?_, fun i h1 h2 => ?_, fun i h1 h2 => ?_⟩
  · rw [primeProduct_succ, emod_mul_of_residue (hp.primeProduct_pos hu.le) hlt hinv hval, ← h.value, ← hprod]
    exact_mod_cast h8
  · rw [zintRebuildCrtValue_frame (by omega)]
    exact h.below i (by omega) h2
  · rw [zintRebuildCrtValue_frame (by omega)]
    exact h.residue i (by omega) h2

end Value

/-! ### All integers -/

/-- The integers of `xlen` words each, `xstride` words apart, are separate and below `tmp`. -/
structure Strided (xx xlen xstride num tmp : ℕ) : Prop where
  fits : xlen ≤ xstride
  below : xx + num * xstride ≤ tmp

/-- At the entry of the iteration `u`, the first `u` words of each integer have been reassembled, and the first `u`
words of `tmp` are the product of the primes so far. -/
structure Rebuilding (primes : List SmallPrime) (xx xlen xstride num tmp : ℕ) (F : ℕ → ℤ) (u : ℕ) (mem : ℕ → UInt32) :
    Prop where
  limbs : IsLimbs mem tmp u
  product : limbValue mem tmp u = primeProduct primes u
  rebuilt : ∀ v < num, IsRebuilt primes xlen u (F v) mem (xx + v * xstride)

section Loops

variable {primes : List SmallPrime} {xx xlen xstride num tmp : ℕ} {F : ℕ → ℤ} {mem : ℕ → UInt32}

private theorem Strided.fits_at (h : Strided xx xlen xstride num tmp) {v : ℕ} (hv : v < num) :
    xx + v * xstride + xlen ≤ tmp := by
  have hle := Nat.mul_le_mul_right xstride (Nat.succ_le_of_lt hv)
  have hfits := h.fits
  have hbelow := h.below
  rw [Nat.succ_mul] at hle
  omega

private theorem Strided.apart (h : Strided xx xlen xstride num tmp) {v w : ℕ} (hvw : v ≠ w) :
    xx + w * xstride + xlen ≤ xx + v * xstride ∨ xx + v * xstride + xlen ≤ xx + w * xstride := by
  have hfits := h.fits
  rcases Nat.lt_or_gt_of_ne hvw with hlt | hgt
  · have hle := Nat.mul_le_mul_right xstride (Nat.succ_le_of_lt hlt)
    rw [Nat.succ_mul] at hle
    omega
  · have hle := Nat.mul_le_mul_right xstride (Nat.succ_le_of_lt hgt)
    rw [Nat.succ_mul] at hle
    omega

theorem Rebuilding.step (hp : IsPrimes primes xlen) (hs : Strided xx xlen xstride num tmp) {u : ℕ} (hu : u < xlen)
    (h : Rebuilding primes xx xlen xstride num tmp F u mem) :
    Rebuilding primes xx xlen xstride num tmp F (u + 1) (zintRebuildCrtStep xx xstride num primes tmp mem u) := by
  obtain ⟨⟨h1, h2⟩, h3⟩ := foldl_independent (n := num)
    (fun mem v => zintRebuildCrtValue (rd primes u) u tmp mem (xx + v * xstride))
    (fun mem => IsLimbs mem tmp u ∧ limbValue mem tmp u = primeProduct primes u)
    (fun v mem => IsRebuilt primes xlen u (F v) mem (xx + v * xstride))
    (fun v mem => IsRebuilt primes xlen (u + 1) (F v) mem (xx + v * xstride))
    (fun v hv mem hinv hpre => by
      have hat := hs.fits_at hv
      have hframe : ∀ i < u, zintRebuildCrtValue (rd primes u) u tmp mem (xx + v * xstride) (tmp + i) = mem (tmp + i) :=
        fun i _ => zintRebuildCrtValue_frame (by omega)
      refine ⟨⟨hinv.1.congr hframe, ?_⟩, hpre.step hp hu hinv.1 hinv.2 (.inr (.inl (by omega)))⟩
      rw [limbValue_congr hframe]
      exact hinv.2)
    (fun v _ w _ hvw mem => by
      have hframe : ∀ i < xlen, zintRebuildCrtValue (rd primes u) u tmp mem (xx + v * xstride) (xx + w * xstride + i) =
          mem (xx + w * xstride + i) := by
        intro i hi
        have := hs.apart hvw
        exact zintRebuildCrtValue_frame (by omega)
      exact ⟨fun hpre => hpre.congr (by omega) hframe, fun hpost => hpost.congr (by omega) hframe⟩)
    ⟨h.limbs, h.product⟩ h.rebuilt
  have hup := (hp u hu).upper
  obtain ⟨h4, h5⟩ := zintMulSmall_push hup h1
  refine ⟨h4, ?_, fun v hv => (h3 v hv).congr (by omega) fun i hi => ?_⟩
  · rw [primeProduct_succ, mul_comm, ← h2]
    exact h5
  · have hat := hs.fits_at hv
    unfold zintRebuildCrtStep
    rw [Function.update_of_ne (by omega), zintMulSmall_frame (by omega)]

/-- The loop over the primes. -/
private theorem foldl_zintRebuildCrtStep (hp : IsPrimes primes xlen) (hs : Strided xx xlen xstride num tmp)
    (hlen : 0 < xlen) (hres : ∀ v < num, ∀ i < xlen, Below (rd primes i).p (mem (xx + v * xstride + i)) ∧
      toZp (rd primes i).p (mem (xx + v * xstride + i)) = F v) : Rebuilding primes xx xlen xstride num tmp F xlen
    ((List.range' 1 (xlen - 1)).foldl (zintRebuildCrtStep xx xstride num primes tmp)
      (Function.update mem tmp (rd primes 0).p)) := by
  have hrun : ∀ k < xlen, Rebuilding primes xx xlen xstride num tmp F (1 + k)
      ((List.range' 1 k).foldl (zintRebuildCrtStep xx xstride num primes tmp)
        (Function.update mem tmp (rd primes 0).p)) := by
    intro k hk
    induction k with
    | zero =>
      refine ⟨fun i hi => ?_, ?_, fun v hv => IsRebuilt.one hp hlen fun i hi => ?_⟩
      · rw [show tmp + i = tmp by omega]
        change (Function.update mem tmp (rd primes 0).p tmp).toNat < 2 ^ 31
        rw [Function.update_self]
        exact (hp 0 hlen).upper
      · simp [limbValue, Limbs.value, primeProduct]
      · have hat := hs.fits_at hv
        rw [List.range'_zero, List.foldl_nil, Function.update_of_ne (by omega)]
        exact hres v hv i hi
    | succ k ih =>
      rw [List.range'_1_concat, List.foldl_append, List.foldl_cons, List.foldl_nil, ← add_assoc]
      exact (ih (by omega)).step hp hs (by omega)
  have h := hrun (xlen - 1) (by omega)
  rwa [Nat.add_sub_cancel' hlen] at h

/-- Without normalization, the integers are rebuilt modulo the product of the primes. -/
theorem zintRebuildCrt_unsigned (hp : IsPrimes primes xlen) (hs : Strided xx xlen xstride num tmp) (hlen : 0 < xlen)
    (hres : ∀ v < num, ∀ i < xlen, Below (rd primes i).p (mem (xx + v * xstride + i)) ∧
      toZp (rd primes i).p (mem (xx + v * xstride + i)) = F v) {v : ℕ} (hv : v < num) :
    IsLimbs (zintRebuildCrt mem xx xlen xstride num primes false tmp) (xx + v * xstride) xlen ∧
      (limbValue (zintRebuildCrt mem xx xlen xstride num primes false tmp) (xx + v * xstride) xlen : ℤ) =
        F v % primeProduct primes xlen := by
  have h := (foldl_zintRebuildCrtStep hp hs hlen hres).rebuilt v hv
  exact ⟨h.limbs, h.value⟩

/-- With normalization, integers that are less than half the product in absolute value are rebuilt. -/
theorem zintRebuildCrt_signed (hp : IsPrimes primes xlen) (hs : Strided xx xlen xstride num tmp) (hlen : 0 < xlen)
    (hres : ∀ v < num, ∀ i < xlen, Below (rd primes i).p (mem (xx + v * xstride + i)) ∧
      toZp (rd primes i).p (mem (xx + v * xstride + i)) = F v) (hF : ∀ v < num, 2 * |F v| < primeProduct primes xlen)
    {v : ℕ} (hv : v < num) :
    IsSigned (zintRebuildCrt mem xx xlen xstride num primes true tmp) (xx + v * xstride) xlen (F v) := by
  have h := foldl_zintRebuildCrtStep hp hs hlen hres
  obtain ⟨-, h3⟩ := foldl_independent (n := num) (fun mem v => zintNormZero mem (xx + v * xstride) tmp xlen)
    (fun mem => IsLimbs mem tmp xlen ∧ limbValue mem tmp xlen = primeProduct primes xlen)
    (fun v mem => IsRebuilt primes xlen xlen (F v) mem (xx + v * xstride))
    (fun v mem => IsSigned mem (xx + v * xstride) xlen (F v))
    (fun v hv mem hinv hpre => by
      have hat := hs.fits_at hv
      have hframe : ∀ i < xlen, zintNormZero mem (xx + v * xstride) tmp xlen (tmp + i) = mem (tmp + i) :=
        fun i _ => zintNormZero_frame (by omega)
      refine ⟨⟨hinv.1.congr hframe, ?_⟩, zintNormZero_spec (.inr (.inl (by omega))) hpre.limbs hinv.1 ?_ ?_⟩
      · rw [limbValue_congr hframe]
        exact hinv.2
      · rw [hinv.2]
        exact hF v hv
      · rw [hinv.2]
        exact hpre.value)
    (fun v _ w _ hvw mem => by
      have hframe : ∀ i < xlen, zintNormZero mem (xx + v * xstride) tmp xlen (xx + w * xstride + i) =
          mem (xx + w * xstride + i) := by
        intro i hi
        have := hs.apart hvw
        exact zintNormZero_frame (by omega)
      exact ⟨fun hpre => hpre.congr le_rfl hframe, fun hpost => hpost.congr hframe⟩)
    ⟨h.limbs, h.product⟩ h.rebuilt
  exact h3 v hv

end Loops

end DfVrf.Crypto
