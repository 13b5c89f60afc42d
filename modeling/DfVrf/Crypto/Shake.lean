import DfVrf.Lib.KeccakF
import DfVrf.Lib.Sponge

/-!
# SHAKE256 in the C code (`shake.c`)

The state is 25 lanes of 64 bits with a position `dptr`; input bytes are added to the state in place, and the
permutation Keccak-f[1600] is a parameter.  The loops of `i_shake256_inject` and `i_shake256_extract` are those
of a sponge with a rate of 136 bytes.
-/

namespace DfVrf

/-- The lanes of the Keccak-f[1600] state. -/
abbrev Lanes := Fin 25 → UInt64

/-- Add a byte at position `v` of the state: `A[v >> 3] ^= (uint64_t)x << ((v & 7) << 3)`. -/
def xorByte (A : Lanes) (v : ℕ) (x : UInt8) : Lanes := fun j =>
  if j.val = v >>> 3 then A j ^^^ (x.toUInt64 <<< UInt64.ofNat ((v &&& 7) <<< 3)) else A j

/-- The byte at position `v` of the state: `A[v >> 3] >> ((v & 7) << 3)`. -/
def getByte (A : Lanes) (v : ℕ) : UInt8 :=
  ((if h : v >>> 3 < 25 then A ⟨v >>> 3, h⟩ else 0) >>> UInt64.ofNat ((v &&& 7) <<< 3)).toUInt8

namespace Crypto

/-- `inner_shake256_context`. -/
structure Shake256 where
  A : Lanes
  dptr : ℕ

namespace Shake256

/-- `i_shake256_init`. -/
def init : Shake256 := ⟨fun _ => 0, 0⟩

/-- `i_shake256_inject`; `process_block` is `f`. -/
def inject (f : Lanes → Lanes) (sc : Shake256) (input : List UInt8) : Shake256 :=
  let st := Sponge.absorbLoop f xorByte 136 input.length (sc.A, sc.dptr) input
  ⟨st.1, st.2⟩

/-- `i_shake256_flip`. -/
def flip (sc : Shake256) : Shake256 :=
  let A := xorByte sc.A sc.dptr 0x1F
  let A := xorByte A 135 0x80
  ⟨A, 136⟩

/-- `i_shake256_extract`: the new context and the output. -/
def extract (f : Lanes → Lanes) (sc : Shake256) (len : ℕ) : Shake256 × List UInt8 :=
  let r := Sponge.squeezeLoop f getByte 136 len (sc.A, sc.dptr) len
  (⟨r.1.1, r.1.2⟩, r.2)

/-- The context after the input phase: `init`, one `inject` for each input, `flip`. -/
def seeded (f : Lanes → Lanes) (inputs : List (List UInt8)) : Shake256 :=
  flip (inputs.foldl (inject f) init)

/-- The sponge after absorbing a string from the initial state. -/
def absorbed (f : Lanes → Lanes) (bs : List UInt8) : Lanes × ℕ :=
  Sponge.absorb f xorByte 136 (init.A, init.dptr) bs

/-- Byte `p` of the output for the input `bs`. -/
def keystream (f : Lanes → Lanes) (bs : List UInt8) (p : ℕ) : UInt8 :=
  let st := absorbed f bs
  Sponge.stream f getByte 136 (xorByte (xorByte st.1 st.2 0x1F) 135 0x80) p

private theorem inject_eq {f : Lanes → Lanes} {sc : Shake256} (h : sc.dptr < 136) (input : List UInt8) :
    inject f sc input = ⟨(Sponge.absorb f xorByte 136 (sc.A, sc.dptr) input).1,
      (Sponge.absorb f xorByte 136 (sc.A, sc.dptr) input).2⟩ := by
  rw [inject, Sponge.absorbLoop_eq_absorb f xorByte h sc.A (Nat.le_refl _)]

/-- Several injections absorb the concatenation. -/
private theorem foldl_inject {f : Lanes → Lanes} {sc : Shake256} (h : sc.dptr < 136) (inputs : List (List UInt8)) :
    inputs.foldl (inject f) sc = ⟨(Sponge.absorb f xorByte 136 (sc.A, sc.dptr) inputs.flatten).1,
      (Sponge.absorb f xorByte 136 (sc.A, sc.dptr) inputs.flatten).2⟩ := by
  induction inputs generalizing sc with
  | nil => rfl
  | cons input inputs ih =>
    have hlt : (Sponge.absorb f xorByte 136 (sc.A, sc.dptr) input).2 < 136 := Sponge.absorb_snd_lt h input
    rw [List.foldl_cons, inject_eq h, ih hlt, List.flatten_cons, Sponge.absorb_append]

/-- The context `sc` after `p` bytes of output for the input `bs`. -/
def AtPos (f : Lanes → Lanes) (bs : List UInt8) (sc : Shake256) (p : ℕ) : Prop :=
  Sponge.AtPos f 136 (xorByte (xorByte (absorbed f bs).1 (absorbed f bs).2 0x1F) 135 0x80) (sc.A, sc.dptr) p

theorem atPos_seeded (f : Lanes → Lanes) (inputs : List (List UInt8)) :
    AtPos f inputs.flatten (seeded f inputs) 0 := by
  rw [seeded, foldl_inject (by decide), flip]
  exact Sponge.atPos_zero f 136 _

/-- Whatever is requested, the output continues the stream. -/
theorem extract_spec {f : Lanes → Lanes} {bs : List UInt8} {sc : Shake256} {p : ℕ} (h : AtPos f bs sc p)
    (len : ℕ) : AtPos f bs (extract f sc len).1 (p + len) ∧
      (extract f sc len).2 = (List.range' p len).map (keystream f bs) :=
  Sponge.squeezeLoop_spec (by omega) h (Nat.le_refl len)

end Shake256

end Crypto

end DfVrf
