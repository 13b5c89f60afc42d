import DfVrf.Crypto.Modp
import DfVrf.Lib.Butterfly

/-!
# The number-theoretic transform of the key generator (`keygen.c`)

`modp_mkgm2` fills the tables for a modulus from a root of `X ^ 1024 + 1`, in bit-reversed order and in Montgomery
representation.  `modpNtt2_rep`, `modpINtt2_rep`: over the table `twiddleOf` the loops compute the abstract forward
transform and the abstract inverse transform divided by the length.  Polynomials with a stride are taken by their
elements.
-/

namespace DfVrf.Crypto

open InPlace Negacyclic

def REV10 : List UInt16 := [
    0, 512, 256, 768, 128, 640, 384, 896, 64, 576, 320, 832, 192, 704, 448, 960, 32, 544, 288, 800, 160, 672,
    416, 928, 96, 608, 352, 864, 224, 736, 480, 992, 16, 528, 272, 784, 144, 656, 400, 912, 80, 592, 336, 848,
    208, 720, 464, 976, 48, 560, 304, 816, 176, 688, 432, 944, 112, 624, 368, 880, 240, 752, 496, 1008, 8, 520,
    264, 776, 136, 648, 392, 904, 72, 584, 328, 840, 200, 712, 456, 968, 40, 552, 296, 808, 168, 680, 424, 936,
    104, 616, 360, 872, 232, 744, 488, 1000, 24, 536, 280, 792, 152, 664, 408, 920, 88, 600, 344, 856, 216, 728,
    472, 984, 56, 568, 312, 824, 184, 696, 440, 952, 120, 632, 376, 888, 248, 760, 504, 1016, 4, 516, 260, 772,
    132, 644, 388, 900, 68, 580, 324, 836, 196, 708, 452, 964, 36, 548, 292, 804, 164, 676, 420, 932, 100, 612,
    356, 868, 228, 740, 484, 996, 20, 532, 276, 788, 148, 660, 404, 916, 84, 596, 340, 852, 212, 724, 468, 980,
    52, 564, 308, 820, 180, 692, 436, 948, 116, 628, 372, 884, 244, 756, 500, 1012, 12, 524, 268, 780, 140, 652,
    396, 908, 76, 588, 332, 844, 204, 716, 460, 972, 44, 556, 300, 812, 172, 684, 428, 940, 108, 620, 364, 876,
    236, 748, 492, 1004, 28, 540, 284, 796, 156, 668, 412, 924, 92, 604, 348, 860, 220, 732, 476, 988, 60, 572,
    316, 828, 188, 700, 444, 956, 124, 636, 380, 892, 252, 764, 508, 1020, 2, 514, 258, 770, 130, 642, 386, 898,
    66, 578, 322, 834, 194, 706, 450, 962, 34, 546, 290, 802, 162, 674, 418, 930, 98, 610, 354, 866, 226, 738,
    482, 994, 18, 530, 274, 786, 146, 658, 402, 914, 82, 594, 338, 850, 210, 722, 466, 978, 50, 562, 306, 818,
    178, 690, 434, 946, 114, 626, 370, 882, 242, 754, 498, 1010, 10, 522, 266, 778, 138, 650, 394, 906, 74, 586,
    330, 842, 202, 714, 458, 970, 42, 554, 298, 810, 170, 682, 426, 938, 106, 618, 362, 874, 234, 746, 490,
    1002, 26, 538, 282, 794, 154, 666, 410, 922, 90, 602, 346, 858, 218, 730, 474, 986, 58, 570, 314, 826, 186,
    698, 442, 954, 122, 634, 378, 890, 250, 762, 506, 1018, 6, 518, 262, 774, 134, 646, 390, 902, 70, 582, 326,
    838, 198, 710, 454, 966, 38, 550, 294, 806, 166, 678, 422, 934, 102, 614, 358, 870, 230, 742, 486, 998, 22,
    534, 278, 790, 150, 662, 406, 918, 86, 598, 342, 854, 214, 726, 470, 982, 54, 566, 310, 822, 182, 694, 438,
    950, 118, 630, 374, 886, 246, 758, 502, 1014, 14, 526, 270, 782, 142, 654, 398, 910, 78, 590, 334, 846, 206,
    718, 462, 974, 46, 558, 302, 814, 174, 686, 430, 942, 110, 622, 366, 878, 238, 750, 494, 1006, 30, 542, 286,
    798, 158, 670, 414, 926, 94, 606, 350, 862, 222, 734, 478, 990, 62, 574, 318, 830, 190, 702, 446, 958, 126,
    638, 382, 894, 254, 766, 510, 1022, 1, 513, 257, 769, 129, 641, 385, 897, 65, 577, 321, 833, 193, 705, 449,
    961, 33, 545, 289, 801, 161, 673, 417, 929, 97, 609, 353, 865, 225, 737, 481, 993, 17, 529, 273, 785, 145,
    657, 401, 913, 81, 593, 337, 849, 209, 721, 465, 977, 49, 561, 305, 817, 177, 689, 433, 945, 113, 625, 369,
    881, 241, 753, 497, 1009, 9, 521, 265, 777, 137, 649, 393, 905, 73, 585, 329, 841, 201, 713, 457, 969, 41,
    553, 297, 809, 169, 681, 425, 937, 105, 617, 361, 873, 233, 745, 489, 1001, 25, 537, 281, 793, 153, 665,
    409, 921, 89, 601, 345, 857, 217, 729, 473, 985, 57, 569, 313, 825, 185, 697, 441, 953, 121, 633, 377, 889,
    249, 761, 505, 1017, 5, 517, 261, 773, 133, 645, 389, 901, 69, 581, 325, 837, 197, 709, 453, 965, 37, 549,
    293, 805, 165, 677, 421, 933, 101, 613, 357, 869, 229, 741, 485, 997, 21, 533, 277, 789, 149, 661, 405, 917,
    85, 597, 341, 853, 213, 725, 469, 981, 53, 565, 309, 821, 181, 693, 437, 949, 117, 629, 373, 885, 245, 757,
    501, 1013, 13, 525, 269, 781, 141, 653, 397, 909, 77, 589, 333, 845, 205, 717, 461, 973, 45, 557, 301, 813,
    173, 685, 429, 941, 109, 621, 365, 877, 237, 749, 493, 1005, 29, 541, 285, 797, 157, 669, 413, 925, 93, 605,
    349, 861, 221, 733, 477, 989, 61, 573, 317, 829, 189, 701, 445, 957, 125, 637, 381, 893, 253, 765, 509,
    1021, 3, 515, 259, 771, 131, 643, 387, 899, 67, 579, 323, 835, 195, 707, 451, 963, 35, 547, 291, 803, 163,
    675, 419, 931, 99, 611, 355, 867, 227, 739, 483, 995, 19, 531, 275, 787, 147, 659, 403, 915, 83, 595, 339,
    851, 211, 723, 467, 979, 51, 563, 307, 819, 179, 691, 435, 947, 115, 627, 371, 883, 243, 755, 499, 1011, 11,
    523, 267, 779, 139, 651, 395, 907, 75, 587, 331, 843, 203, 715, 459, 971, 43, 555, 299, 811, 171, 683, 427,
    939, 107, 619, 363, 875, 235, 747, 491, 1003, 27, 539, 283, 795, 155, 667, 411, 923, 91, 603, 347, 859, 219,
    731, 475, 987, 59, 571, 315, 827, 187, 699, 443, 955, 123, 635, 379, 891, 251, 763, 507, 1019, 7, 519, 263,
    775, 135, 647, 391, 903, 71, 583, 327, 839, 199, 711, 455, 967, 39, 551, 295, 807, 167, 679, 423, 935, 103,
    615, 359, 871, 231, 743, 487, 999, 23, 535, 279, 791, 151, 663, 407, 919, 87, 599, 343, 855, 215, 727, 471,
    983, 55, 567, 311, 823, 183, 695, 439, 951, 119, 631, 375, 887, 247, 759, 503, 1015, 15, 527, 271, 783, 143,
    655, 399, 911, 79, 591, 335, 847, 207, 719, 463, 975, 47, 559, 303, 815, 175, 687, 431, 943, 111, 623, 367,
    879, 239, 751, 495, 1007, 31, 543, 287, 799, 159, 671, 415, 927, 95, 607, 351, 863, 223, 735, 479, 991, 63,
    575, 319, 831, 191, 703, 447, 959, 127, 639, 383, 895, 255, 767, 511, 1023]

/-! ### The loops -/

/-- The body of the last loop of `modp_mkgm2`, on the state `(x1, x2, gm, igm)`. -/
def modpMkgm2Step (k : ℕ) (g ig p p0i : UInt32) (st : UInt32 × UInt32 × List UInt32 × List UInt32) (u : ℕ) :
    UInt32 × UInt32 × List UInt32 × List UInt32 :=
  let v := (rd REV10 (u <<< k)).toNat
  (modpMontymul st.1 g p p0i, modpMontymul st.2.1 ig p p0i, st.2.2.1.set v st.1, st.2.2.2.set v st.2.1)

/-- `modp_mkgm2`: the tables `gm` and `igm`. -/
def modpMkgm2 (logn : ℕ) (g p p0i : UInt32) : List UInt32 × List UInt32 :=
  let n := 1 <<< logn
  let r2 := modpR2 p p0i
  let g := modpMontymul g r2 p p0i
  let g := (List.range (10 - logn)).foldl (fun g _ => modpMontymul g g p p0i) g
  let ig := modpDiv r2 g p p0i (modpR p)
  let k := 10 - logn
  let x := modpR p
  ((List.range n).foldl (modpMkgm2Step k g ig p p0i) (x, x, List.replicate n 0, List.replicate n 0)).2.2

/-- The body of the inner loop of `modp_NTT2_ext`. -/
def modpNtt2Butterfly (s p p0i : UInt32) (ht : ℕ) (a : List UInt32) (v : ℕ) : List UInt32 :=
  let x := rd a v
  let y := modpMontymul (rd a (v + ht)) s p p0i
  (a.set v (modpAdd x y p)).set (v + ht) (modpSub x y p)

def modpNtt2Layer (gm : List UInt32) (p p0i : UInt32) (m t ht : ℕ) (a : List UInt32) : List UInt32 :=
  (List.range m).foldl (fun a u => (List.range' (u * t) ht).foldl (modpNtt2Butterfly (rd gm (m + u)) p p0i ht) a) a

/-- `modp_NTT2`: `m` doubles from `1` while it is below `n`, and `t` halves from `n`. -/
def modpNtt2 (a gm : List UInt32) (logn : ℕ) (p p0i : UInt32) : List UInt32 :=
  let n := 1 <<< logn
  ((List.range logn).foldl (fwdStep (modpNtt2Layer gm p p0i)) (n, a)).2

/-- The body of the inner loop of `modp_iNTT2_ext`. -/
def modpINtt2Butterfly (s p p0i : UInt32) (t : ℕ) (a : List UInt32) (v : ℕ) : List UInt32 :=
  let x := rd a v
  let y := rd a (v + t)
  (a.set v (modpAdd x y p)).set (v + t) (modpMontymul (modpSub x y p) s p p0i)

def modpINtt2Layer (igm : List UInt32) (p p0i : UInt32) (hm t dt : ℕ) (a : List UInt32) : List UInt32 :=
  (List.range hm).foldl (fun a u => (List.range' (u * dt) t).foldl (modpINtt2Butterfly (rd igm (hm + u)) p p0i t) a) a

/-- `modp_iNTT2`: `m` halves from `n` while it is above `1`, and `t` doubles from `1`.  For degree one nothing is
done. -/
def modpINtt2 (a igm : List UInt32) (logn : ℕ) (p p0i : UInt32) : List UInt32 :=
  if logn = 0 then a
  else
    let n := 1 <<< logn
    let a := ((List.range logn).foldl (fun st _ => invStep (modpINtt2Layer igm p p0i) st) (1, n, a)).2.2
    let ni : UInt32 := (1 : UInt32) <<< UInt32.ofNat (31 - logn)
    a.map fun x => modpMontymul x ni p p0i

/-! ### Bit reversal -/

/-- The bits of `i < 1024` in reverse. -/
def rev10 (i : ℕ) : ℕ :=
  512 * (i % 2) + 256 * (i / 2 % 2) + 128 * (i / 4 % 2) + 64 * (i / 8 % 2) + 32 * (i / 16 % 2) + 16 * (i / 32 % 2) +
    8 * (i / 64 % 2) + 4 * (i / 128 % 2) + 2 * (i / 256 % 2) + i / 512 % 2

/-- The table, and what its use needs of bit reversal. -/
private theorem REV10_check : REV10.map UInt16.toNat = (List.range 1024).map rev10 ∧
    (List.range 1024).all (fun i => rev10 (rev10 i) == i && Nat.blt (rev10 i) 1024) = true ∧
    (List.range 512).all (fun i => 2 * rev10 (2 * i) == rev10 i && 2 * rev10 (2 * i + 1) == rev10 i + 1024) = true := by
  decide +kernel

private theorem rd_REV10 {i : ℕ} (hi : i < 1024) : (rd REV10 i).toNat = rev10 i := by
  have hl : REV10.length = 1024 := by
    rw [← List.length_map (f := UInt16.toNat), REV10_check.1, List.length_map, List.length_range]
  rw [← rd_map UInt16.toNat (by rwa [hl]), REV10_check.1, rd_map_range _ hi]

private theorem rev10_rev10 {i : ℕ} (hi : i < 1024) : rev10 (rev10 i) = i ∧ rev10 i < 1024 := by
  have h := List.all_eq_true.1 REV10_check.2.1 i (List.mem_range.2 hi)
  simpa [Nat.blt] using h

private theorem rev10_halves {i : ℕ} (hi : i < 512) :
    2 * rev10 (2 * i) = rev10 i ∧ 2 * rev10 (2 * i + 1) = rev10 i + 1024 := by
  have h := List.all_eq_true.1 REV10_check.2.2 i (List.mem_range.2 hi)
  simpa using h

/-- A shift of the argument is a shift back of the value. -/
private theorem rev10_shift {i k : ℕ} (h : i * 2 ^ k < 1024) : rev10 i = 2 ^ k * rev10 (i * 2 ^ k) := by
  induction k with
  | zero => rw [pow_zero, mul_one, one_mul]
  | succ k ih =>
    rw [pow_succ, ← mul_assoc] at h
    rw [ih (by omega), ← (rev10_halves (i := i * 2 ^ k) (by omega)).1, pow_succ, mul_comm 2 (i * 2 ^ k),
      mul_assoc i, mul_assoc (2 ^ k)]

private theorem rev10_lt {i k : ℕ} (hk : k ≤ 10) (h : i < 2 ^ (10 - k)) : rev10 (i * 2 ^ k) < 2 ^ (10 - k) := by
  have hpow : 2 ^ (10 - k) * 2 ^ k = 1024 := by
    rw [← pow_add, Nat.sub_add_cancel hk]
    rfl
  have hlt : i * 2 ^ k < 1024 := by
    rw [← hpow]
    exact Nat.mul_lt_mul_of_pos_right h (by positivity)
  have hi : i < 1024 := lt_of_lt_of_le h (Nat.pow_le_pow_right (by omega) (show 10 - k ≤ 10 by omega))
  have hrev := (rev10_rev10 hi).2
  rw [rev10_shift hlt, ← hpow, mul_comm] at hrev
  exact Nat.lt_of_mul_lt_mul_right hrev

/-! ### The tables -/

section Tables

variable {p p0i : UInt32} {γ δ : ZMod p.toNat}

/-- The table of twiddle factors of a root `γ` of `X ^ 1024 + 1`. -/
def twiddleOf (γ : ZMod p.toNat) (v : ℕ) : ZMod p.toNat := γ ^ rev10 v

theorem isTable_twiddleOf (hγ : γ ^ 1024 = -1) {L : ℕ} (hL : L ≤ 10) : IsTable (twiddleOf γ) L where
  one := by
    rw [twiddleOf, ← pow_mul]
    exact hγ
  even i _ hi := by
    have hi' : i < 512 := lt_of_lt_of_le hi (Nat.pow_le_pow_right (by omega) (show L - 1 ≤ 9 by omega))
    rw [twiddleOf, twiddleOf, ← pow_mul, mul_comm, (rev10_halves hi').1]
  odd i _ hi := by
    have hi' : i < 512 := lt_of_lt_of_le hi (Nat.pow_le_pow_right (by omega) (show L - 1 ≤ 9 by omega))
    rw [twiddleOf, twiddleOf, ← pow_mul, mul_comm, (rev10_halves hi').2, pow_add, hγ, mul_neg_one]

theorem twiddleOf_mul (h : γ * δ = 1) (v : ℕ) : twiddleOf γ v * twiddleOf δ v = 1 := by
  rw [twiddleOf, twiddleOf, ← mul_pow, h, one_pow]

/-- The first `2 ^ logn` entries of `gm` represent the twiddle factors of `γ`. -/
def IsTableOf (p : UInt32) (γ : ZMod p.toNat) (logn : ℕ) (gm : List UInt32) : Prop :=
  ∀ v < 2 ^ logn, Monty p (rd gm v) (twiddleOf γ v)

private theorem monty_iterate_sq (h : IsModulus p p0i) {g : UInt32} (hg : Monty p g γ) (k : ℕ) :
    Monty p ((List.range k).foldl (fun g _ => modpMontymul g g p p0i) g) (γ ^ 2 ^ k) := by
  induction k with
  | zero => rwa [pow_zero, pow_one]
  | succ k ih =>
    rw [List.range_succ, List.foldl_append, List.foldl_cons, List.foldl_nil, pow_succ 2 k, pow_mul]
    exact ih.sq h

/-- The state after the first `m` iterations of the loop that fills the tables. -/
private theorem foldl_modpMkgm2Step (h : IsModulus p p0i) {k : ℕ} (hk : k ≤ 10) {g ig x : UInt32} (hx : Monty p x 1)
    (hg : Monty p g (γ ^ 2 ^ k)) (hig : Monty p ig (δ ^ 2 ^ k)) {a : List UInt32} (ha : a.length = 2 ^ (10 - k)) {m : ℕ}
    (hm : m ≤ 2 ^ (10 - k)) : ∃ x1 x2 gm igm,
      (List.range m).foldl (modpMkgm2Step k g ig p p0i) (x, x, a, a) = (x1, x2, gm, igm) ∧
      Monty p x1 (γ ^ (m * 2 ^ k)) ∧ Monty p x2 (δ ^ (m * 2 ^ k)) ∧ gm.length = 2 ^ (10 - k) ∧
      igm.length = 2 ^ (10 - k) ∧ ∀ u < m, Monty p (rd gm (rev10 (u * 2 ^ k))) (γ ^ (u * 2 ^ k)) ∧
        Monty p (rd igm (rev10 (u * 2 ^ k))) (δ ^ (u * 2 ^ k)) := by
  induction m with
  | zero =>
    refine ⟨x, x, a, a, rfl, ?_, ?_, ha, ha, fun u hu => absurd hu (by omega)⟩
    · rwa [Nat.zero_mul, pow_zero]
    · rwa [Nat.zero_mul, pow_zero]
  | succ m ih =>
    obtain ⟨x1, x2, gm, igm, he, h1, h2, hl1, hl2, htab⟩ := ih (by omega)
    have hpow : 2 ^ (10 - k) * 2 ^ k = 1024 := by
      rw [← pow_add, Nat.sub_add_cancel hk]
      rfl
    have hlt : ∀ u < 2 ^ (10 - k), u * 2 ^ k < 1024 := by
      intro u hu
      rw [← hpow]
      exact Nat.mul_lt_mul_of_pos_right hu (by positivity)
    have hv : (rd REV10 (m <<< k)).toNat = rev10 (m * 2 ^ k) := by
      rw [Nat.shiftLeft_eq, rd_REV10 (hlt m (by omega))]
    have hnext : (m + 1) * 2 ^ k = m * 2 ^ k + 2 ^ k := by ring
    -- the table has no entry of a later iteration
    have hne : ∀ u < m, rev10 (m * 2 ^ k) ≠ rev10 (u * 2 ^ k) := by
      intro u hu heq
      have hback := congrArg rev10 heq
      rw [(rev10_rev10 (hlt m (by omega))).1, (rev10_rev10 (hlt u (by omega))).1] at hback
      have := Nat.eq_of_mul_eq_mul_right (by positivity) hback
      omega
    rw [List.range_succ, List.foldl_append, he, List.foldl_cons, List.foldl_nil, modpMkgm2Step, hv]
    refine ⟨_, _, _, _, rfl, ?_, ?_, by rw [List.length_set, hl1], by rw [List.length_set, hl2], fun u hu => ?_⟩
    · rw [hnext, pow_add]
      exact h1.mul h hg
    · rw [hnext, pow_add]
      exact h2.mul h hig
    · rw [rd_set, rd_set, hl1, hl2]
      rcases Nat.lt_succ_iff_lt_or_eq.1 hu with hum | rfl
      · rw [if_neg (fun hc => hne u hum hc.1), if_neg (fun hc => hne u hum hc.1)]
        exact htab u hum
      · rw [if_pos ⟨rfl, rev10_lt hk (by omega)⟩, if_pos ⟨rfl, rev10_lt hk (by omega)⟩]
        exact ⟨h1, h2⟩

/-- The tables that `modp_mkgm2` fills, for a modulus at which the exponent `p - 2` inverts. -/
theorem modpMkgm2_spec (h : IsModulus p p0i) {logn : ℕ} (hl : logn ≤ 10) {g : UInt32} (hg : Below p g)
    (hδ : ∀ k, (toZp p g ^ 2 ^ k) ^ (p.toNat - 2) = δ ^ 2 ^ k) :
    IsTableOf p (toZp p g) logn (modpMkgm2 logn g p p0i).1 ∧ IsTableOf p δ logn (modpMkgm2 logn g p p0i).2 := by
  have hr2 := monty_modpR2 h
  obtain ⟨hm1, hm2⟩ := modpMontymul_plain h hg hr2
  have hmonty : Monty p (modpMontymul g (modpR2 p p0i) p p0i) (toZp p g) := ⟨hm1, hm2⟩
  have hsq := monty_iterate_sq h hmonty (10 - logn)
  obtain ⟨hd1, hd2⟩ := modpDiv_spec h hr2 hsq
  rw [hδ, mul_comm] at hd2
  have hlen : (List.replicate (1 <<< logn) (0 : UInt32)).length = 2 ^ (10 - (10 - logn)) := by
    rw [List.length_replicate, Nat.shiftLeft_eq, one_mul, Nat.sub_sub_self hl]
  obtain ⟨x1, x2, gm, igm, he, -, -, -, -, htab⟩ :=
    foldl_modpMkgm2Step h (Nat.sub_le 10 logn) (monty_modpR h) hsq ⟨hd1, hd2⟩ hlen le_rfl
  have hpair : modpMkgm2 logn g p p0i = (gm, igm) := by
    rw [Nat.sub_sub_self hl] at he
    simp only [modpMkgm2, Nat.shiftLeft_eq, one_mul] at he ⊢
    rw [he]
  have hentry : ∀ v < 2 ^ logn, rev10 (v * 2 ^ (10 - logn)) < 2 ^ (10 - (10 - logn)) ∧
      rev10 (v * 2 ^ (10 - logn)) * 2 ^ (10 - logn) = rev10 v ∧ rev10 (rev10 v) = v := by
    intro v hv
    have hv' : v < 2 ^ (10 - (10 - logn)) := by rwa [Nat.sub_sub_self hl]
    have hlt : v * 2 ^ (10 - logn) < 1024 := by
      calc v * 2 ^ (10 - logn) < 2 ^ logn * 2 ^ (10 - logn) := Nat.mul_lt_mul_of_pos_right hv (by positivity)
        _ = 1024 := by
          rw [← pow_add, Nat.add_sub_cancel' hl]
          rfl
    refine ⟨rev10_lt (Nat.sub_le _ _) hv', by rw [mul_comm, ← rev10_shift hlt], (rev10_rev10 ?_).1⟩
    exact lt_of_lt_of_le hv (Nat.pow_le_pow_right (by omega) hl)
  rw [hpair]
  constructor
  · intro v hv
    obtain ⟨h1, h2, h3⟩ := hentry v hv
    have hu := (htab _ h1).1
    rwa [h2, h3] at hu
  · intro v hv
    obtain ⟨h1, h2, h3⟩ := hentry v hv
    have hu := (htab _ h1).2
    rwa [h2, h3] at hu

end Tables

/-! ### The transforms -/

section Transforms

variable {p p0i : UInt32}

/-- `a` has length `n`, every entry is below `p` and the entries represent `f`. -/
abbrev RepZp (p : UInt32) (n : ℕ) (a : List UInt32) (f : ℕ → ZMod p.toNat) : Prop :=
  Represents (toZp p) (Below p) n a f

/-- The body of the inner loop of `modp_NTT2_ext` as a butterfly. -/
def modpNtt2Pair (s p p0i x y : UInt32) : UInt32 × UInt32 :=
  let y := modpMontymul y s p p0i
  (modpAdd x y p, modpSub x y p)

private theorem modpNtt2Layer_eq_sweep (gm : List UInt32) (p p0i : UInt32) (m ht : ℕ) (a : List UInt32) :
    modpNtt2Layer gm p p0i m (2 * ht) ht a = sweep ht m (fun u => modpNtt2Pair (rd gm (m + u)) p p0i) a := by
  unfold modpNtt2Layer sweep block
  simp only [Nat.mul_comm (2 * ht)]
  rfl

/-- The body of the inner loop of `modp_iNTT2_ext` as a butterfly. -/
def modpINtt2Pair (s p p0i x y : UInt32) : UInt32 × UInt32 :=
  (modpAdd x y p, modpMontymul (modpSub x y p) s p p0i)

private theorem modpINtt2Layer_eq_sweep (igm : List UInt32) (p p0i : UInt32) (m t : ℕ) (a : List UInt32) :
    modpINtt2Layer igm p p0i m t (2 * t) a = sweep t m (fun u => modpINtt2Pair (rd igm (m + u)) p p0i) a := by
  unfold modpINtt2Layer sweep block
  simp only [Nat.mul_comm (2 * t)]
  rfl

section Layers

variable (h : IsModulus p p0i) {γ : ZMod p.toNat} {logn : ℕ} {gm : List UInt32} (hgm : IsTableOf p γ logn gm)
include h hgm

private theorem modpNtt2Layer_rep {m ht : ℕ} {a : List UInt32} {f : ℕ → ZMod p.toNat} (hh : 0 < ht)
    (hn : 2 * ht * m = 2 ^ logn) (ha : RepZp p (2 ^ logn) a f) :
    RepZp p (2 ^ logn) (modpNtt2Layer gm p p0i m (2 * ht) ht a) (fwdLayer (twiddleOf γ) m ht f) := by
  rw [modpNtt2Layer_eq_sweep]
  refine ha.sweep_fwd hh hn fun u hu x y hx hy => ?_
  have hle : 2 * m ≤ 2 ^ logn := by
    rw [← hn]
    exact Nat.mul_le_mul_right m (by omega)
  obtain ⟨h1, h2⟩ := modpMontymul_plain h hy (hgm (m + u) (by omega))
  obtain ⟨h3, h4⟩ := modpAdd_spec h hx h1
  obtain ⟨h5, h6⟩ := modpSub_spec h hx h1
  rw [h2, mul_comm] at h4 h6
  exact ⟨⟨h3, h4⟩, h5, h6⟩

private theorem modpINtt2Layer_rep {m t : ℕ} {a : List UInt32} {f : ℕ → ZMod p.toNat} (hh : 0 < t)
    (hn : 2 * t * m = 2 ^ logn) (ha : RepZp p (2 ^ logn) a f) :
    RepZp p (2 ^ logn) (modpINtt2Layer gm p p0i m t (2 * t) a) (invLayer (twiddleOf γ) m t f) := by
  rw [modpINtt2Layer_eq_sweep]
  refine ha.sweep_inv hh hn fun u hu x y hx hy => ?_
  have hle : 2 * m ≤ 2 ^ logn := by
    rw [← hn]
    exact Nat.mul_le_mul_right m (by omega)
  obtain ⟨h1, h2⟩ := modpAdd_spec h hx hy
  obtain ⟨h3, h4⟩ := modpSub_spec h hx hy
  obtain ⟨h5, h6⟩ := modpMontymul_plain h h3 (hgm (m + u) (by omega))
  rw [h4] at h6
  exact ⟨⟨h1, h2⟩, h5, h6⟩

/-- `modp_NTT2` computes the forward transform. -/
theorem modpNtt2_rep {a : List UInt32} {f : ℕ → ZMod p.toNat} (ha : RepZp p (2 ^ logn) a f) :
    RepZp p (2 ^ logn) (modpNtt2 a gm logn p p0i) (fwd (twiddleOf γ) logn logn f) := by
  obtain ⟨a', he, hr⟩ := foldl_fwdStep (T := modpNtt2Layer gm p p0i)
    (fun m ht a f hh hn ha => modpNtt2Layer_rep h hgm hh hn ha) ha le_rfl
  simp only [modpNtt2, he]
  exact hr

/-- `modp_iNTT2` computes the inverse transform, divided by the length. -/
theorem modpINtt2_rep (hl : logn ≤ 10) {a : List UInt32} {f g : ℕ → ZMod p.toNat} (ha : RepZp p (2 ^ logn) a f)
    (hg : ∀ e < 2 ^ logn, inv (twiddleOf γ) logn logn f e = 2 ^ logn * g e) :
    RepZp p (2 ^ logn) (modpINtt2 a gm logn p p0i) g := by
  unfold modpINtt2
  split
  · rename_i h0
    subst h0
    refine ha.congr fun e he => ?_
    have hge := hg e he
    rwa [inv, pow_zero, one_mul] at hge
  · rename_i h0
    obtain ⟨a', f', he, hr, hi⟩ := foldl_invStep (T := modpINtt2Layer gm p p0i)
      (fun m t a f hh hn ha => modpINtt2Layer_rep h hgm hh hn ha) ha le_rfl
    rw [Nat.sub_self, inv] at hi
    obtain ⟨ni, hni⟩ : ∃ ni, (1 : UInt32) <<< UInt32.ofNat (31 - logn) = ni := ⟨_, rfl⟩
    have hnat : ni.toNat = 2 ^ (31 - logn) := by
      have hlt : 2 ^ (31 - logn) < 2 ^ 32 := Nat.pow_lt_pow_right (by omega) (by omega)
      rw [← hni, UInt32.toNat_shiftLeft, UInt32.toNat_ofNat', Nat.mod_eq_of_lt (show 31 - logn < 2 ^ 32 by omega),
        Nat.mod_eq_of_lt (show 31 - logn < 32 by omega), show (1 : UInt32).toNat = 1 from rfl,
          Nat.shiftLeft_eq, one_mul,
        Nat.mod_eq_of_lt hlt]
    have hbelow : Below p ni := by
      have hlo := h.lower
      have hle : 2 ^ (31 - logn) ≤ 2 ^ 30 := Nat.pow_le_pow_right (by omega) (by omega)
      rw [Below, hnat]
      omega
    have hval : toZp p ni = 2 ^ (31 - logn) := by
      rw [toZp, hnat, Nat.cast_pow, Nat.cast_ofNat]
    have hpow : (2 : ZMod p.toNat) ^ logn * 2 ^ (31 - logn) = 2 ^ 31 := by
      rw [← pow_add, Nat.add_sub_cancel' (by omega)]
    simp only [he, hni]
    refine hr.map _ fun e he x hx hxe => ?_
    obtain ⟨h1, h2⟩ := modpMontymul_spec h hx hbelow
    refine ⟨h1, ?_⟩
    rw [h2, hxe, hi, hg e he, hval]
    linear_combination (g e * (2 ^ 31)⁻¹) * hpow + g e * radix_mul_inv_of h

end Layers

end Transforms

end DfVrf.Crypto
