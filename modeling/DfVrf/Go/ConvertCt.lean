import DfVrf.Crypto.Bounds
import DfVrf.Crypto.ConstantTime
import DfVrf.Go.Falcon

/-!
# The conversion of a signature in bounded memory (`deterministic.c`, `falcon.go`)

`falcon_det512_convert_compressed_to_ct` subtracts two from the length of the signature, which wraps for a single byte,
and takes no notice of how many bytes the decoder has read.

* `convertOk_iff`: from which signatures the conversion reads within bounds and only accepts complete encodings.
-/

namespace DfVrf

open InPlace

namespace Crypto

/-- `falcon_det512_convert_compressed_to_ct`; `none` if an access is out of bounds. -/
def convertCompressedToCtIn (sigCompressed : List UInt8) : Option (Except ℤ (List UInt8)) :=
  let mem := within sigCompressed
  (mem 0).bind fun head =>
    if head ≠ det512SigCompressedHeader then some (.error errBadSig)
    else
      (compDecodeIn (fun i => mem (2 + i)) (bodyLen sigCompressed) (1 <<< det512Logn) det512Logn).bind fun
        | none => some (.error errSize)
        | some (coeffs, v) =>
          if v = 0 then some (.error errSize)
          else
            (mem 1).map fun saltVersion =>
              match trimI16Encode (det512SigCtSize - 2) coeffs det512Logn (rd maxSigBits det512Logn) with
              | none => .error errSize
              | some out => .ok (det512SigCtHeader :: saltVersion :: out)

/-- A decoder that cannot read its first byte leaves the bounds. -/
private theorem compDecodeIn_of_unreadable {mem : ℕ → Option UInt8} {maxInLen : ℕ} (capacity logn : ℕ)
    (hmem : mem 0 = none) (hlen : 0 < maxInLen) : compDecodeIn mem maxInLen capacity logn = none := by
  have hcoeff : compDecodeCoeffIn mem maxInLen ⟨0, 0, 0⟩ = none := by
    rw [compDecodeCoeffIn, if_neg (by simp only; omega), Reader.loadIn, hmem]
    rfl
  obtain ⟨k, hk⟩ : ∃ k, 1 <<< logn = k + 1 := by
    have hpos := Nat.two_pow_pos logn
    exact ⟨2 ^ logn - 1, by rw [Nat.shiftLeft_eq]; omega⟩
  rw [compDecodeIn, hk, compDecodeLoopIn, hcoeff]
  rfl

/-- From a signature of two bytes or more the conversion reads within bounds, and does what it does in any memory. -/
private theorem convertCompressedToCtIn_eq {sig : List UInt8} (h : 2 ≤ sig.length) (beyond : ℕ → UInt8) :
    convertCompressedToCtIn sig = some (convertCompressedToCt beyond sig) := by
  have hmem : ∀ i < (sig.drop 2).length, within sig (2 + i) = some (rd (sig.drop 2) i) := by
    intro i hi
    rw [List.length_drop] at hi
    rw [within_eq (by omega), rd_drop]
  have hlen : bodyLen sig = (sig.drop 2).length := by rw [bodyLen, if_neg (by omega), List.length_drop]
  have hbytes : bodyBytes sig beyond (bodyLen sig) = sig.drop 2 := by
    rw [hlen, List.length_drop, bodyBytes_eq_drop beyond h]
  have hmemory : ∀ i < sig.length, memory sig beyond i = rd sig i := fun i hi => if_pos hi
  unfold convertCompressedToCtIn convertCompressedToCt
  simp only
  rw [hbytes, hlen, within_eq (by omega), Option.bind_some, hmemory 0 (by omega),
    compDecodeIn_eq hmem (by rw [Nat.shiftLeft_eq, one_mul]), Option.bind_some]
  by_cases hhead : rd sig 0 ≠ det512SigCompressedHeader
  · rw [if_pos hhead, if_pos hhead]
  · rw [if_neg hhead, if_neg hhead]
    cases compDecode det512Logn (sig.drop 2) with
    | none => rfl
    | some p =>
      obtain ⟨coeffs, v⟩ := p
      simp only
      by_cases hv : v = 0
      · rw [if_pos hv, if_pos hv]
      · rw [within_eq (show 1 < sig.length by omega), hmemory 1 (by omega)]
        cases trimI16Encode (det512SigCtSize - 2) coeffs det512Logn (rd maxSigBits det512Logn) with
        | none => simp only [hv, if_false, Option.map_some]
        | some out => simp only [hv, if_false, Option.map_some]

/-- From a single byte with the right header the decoder is sent over the whole memory. -/
private theorem convertCompressedToCtIn_header : convertCompressedToCtIn [0xB9] = none := by
  have hfault : compDecodeIn (fun i => within [0xB9] (2 + i)) (bodyLen [0xB9]) (1 <<< det512Logn) det512Logn = none :=
    compDecodeIn_of_unreadable _ _ rfl (by decide)
  have hhead : within [0xB9] 0 = some det512SigCompressedHeader := rfl
  unfold convertCompressedToCtIn
  simp only [hfault, hhead]
  rfl

/-- Without the header nothing is converted. -/
private theorem convertCompressedToCtIn_of_head {b : UInt8} (bs : List UInt8) (hb : b ≠ 0xB9) :
    convertCompressedToCtIn (b :: bs) = some (.error errBadSig) := by
  unfold convertCompressedToCtIn
  simp only
  rw [within_eq (Nat.succ_pos _), Option.bind_some]
  exact if_pos hb

end Crypto

namespace Go

open Crypto

def errConvertFail : String := "falcon convert to CT failed"

/-- `ConvertToCT` on a signature that is not empty; `none` if the C code accesses memory out of bounds. -/
def convertToCT (sig : List UInt8) : Option (Except String (List UInt8)) :=
  (convertCompressedToCtIn sig).map fun
    | .error r => .error (errorCode r errConvertFail)
    | .ok sigCT => .ok sigCT

/-- What a caller of `ConvertToCT` relies on: it reads within bounds, and it succeeds only on the header of a compressed
deterministic signature, a salt version and a complete encoding. -/
def ConvertOk (sig : List UInt8) : Prop :=
  ∃ r, convertToCT sig = some r ∧ ∀ ct, r = .ok ct → rd sig 0 = 0xB9 ∧ IsEncoding 9 (sig.drop 2)

/-- The bytes that the decoder sees of a signature with a salt version. -/
private theorem bodyBytes_cons {head version : UInt8} {body : List UInt8} {k : ℕ} (hk : k ≤ body.length)
    (beyond : ℕ → UInt8) :
    bodyBytes (head :: version :: body) beyond k = body.take k := by
  have h := bodyBytes_eq_drop beyond (show 2 ≤ (head :: version :: body).length by simp)
  have hlen : (head :: version :: body).length - 2 = body.length := by simp
  rw [hlen, List.drop_succ_cons, List.drop_succ_cons, List.drop_zero] at h
  rw [← take_bodyBytes _ beyond hk, h]

/-- A signature with the header and a salt version is converted exactly when some prefix of its body is a complete
encoding. -/
theorem exists_convert_iff (version : UInt8) (body : List UInt8) (beyond : ℕ → UInt8) :
    (∃ ct, convertCompressedToCt beyond (0xB9 :: version :: body) = .ok ct) ↔
      ∃ v ≤ body.length, IsEncoding 9 (body.take v) := by
  have hlen : bodyLen (0xB9 :: version :: body) = body.length := by
    rw [bodyLen, if_neg (by simp)]
    rfl
  have hhead : memory (0xB9 :: version :: body) beyond 0 = 0xB9 := rfl
  constructor
  · rintro ⟨ct, h⟩
    obtain ⟨-, k, s2, hk, hdec, -⟩ := convertCompressedToCt_eq_ok.1 h
    rw [hlen] at hk
    rw [bodyBytes_cons hk] at hdec
    obtain ⟨-, henc⟩ := exists_compDecode_iff.1 ⟨s2, hdec⟩
    rw [List.take_take, Nat.min_self] at henc
    exact ⟨k, hk, henc⟩
  · rintro ⟨v, hv, henc⟩
    obtain ⟨s2, hdec⟩ := exists_compDecode_iff.2 ⟨hv, henc⟩
    refine ⟨_, convertCompressedToCt_eq_ok.2 ⟨hhead, v, s2, by rw [hlen]; exact hv, ?_, rfl⟩⟩
    rw [bodyBytes_cons hv]
    exact (compDecode_take_iff.1 hdec).2

/-- The conversion of a signature with the header and a salt version. -/
private theorem convertOk_header (version : UInt8) (body : List UInt8) :
    ConvertOk (0xB9 :: version :: body) ↔ ∀ v < body.length, ¬ IsEncoding 9 (body.take v) := by
  unfold ConvertOk convertToCT
  rw [convertCompressedToCtIn_eq (by simp) (fun _ => 0), Option.map_some]
  have hiff := exists_convert_iff version body (fun _ => 0)
  rw [show (0xB9 :: version :: body).drop 2 = body from rfl]
  cases hconv : convertCompressedToCt (fun _ => 0) (0xB9 :: version :: body) with
  | error e =>
    simp only [hconv, reduceCtorEq, exists_false, false_iff] at hiff
    refine iff_of_true ⟨_, rfl, fun ct hct => nomatch hct⟩ fun v hv henc => hiff ⟨v, Nat.le_of_lt hv, henc⟩
  | ok ct =>
    constructor
    · rintro ⟨r, hr, hok⟩
      cases hr
      exact IsEncoding.not_prefix (hok ct rfl).2
    · intro h
      exact ⟨_, rfl, fun _ _ => ⟨rfl, IsEncoding.of_prefix h (hiff.1 ⟨ct, hconv⟩)⟩⟩

/-- The conversion is as it should be exactly when the header is another one, or it is followed by a salt version and a
body without a complete encoding that ends before it. -/
theorem convertOk_iff (b : UInt8) (bs : List UInt8) : ConvertOk (b :: bs) ↔
    (b = 0xB9 → bs ≠ [] ∧ ∀ v < (bs.drop 1).length, ¬ IsEncoding 9 ((bs.drop 1).take v)) := by
  by_cases hb : b = 0xB9
  · subst hb
    rw [imp_iff_right rfl]
    cases bs with
    | nil =>
      refine iff_of_false ?_ (fun h => h.1 rfl)
      rintro ⟨r, hr, -⟩
      rw [convertToCT, convertCompressedToCtIn_header] at hr
      exact absurd hr (by simp)
    | cons version body =>
      rw [and_iff_right (List.cons_ne_nil _ _), List.drop_succ_cons, List.drop_zero]
      exact convertOk_header version body
  · refine iff_of_true ?_ (fun h => absurd h hb)
    refine ⟨.error (errorCode errBadSig errConvertFail), ?_, fun ct hct => nomatch hct⟩
    rw [convertToCT, convertCompressedToCtIn_of_head bs hb]
    rfl

/-- A single byte is read behind its end. -/
theorem convert_single_byte : ¬ ConvertOk [0xB9] := by
  rintro ⟨r, hr, -⟩
  rw [convertToCT, convertCompressedToCtIn_header] at hr
  exact absurd hr (by simp)

end Go

end DfVrf
