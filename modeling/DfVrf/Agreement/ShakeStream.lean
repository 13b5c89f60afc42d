import DfVrf.Agreement.KeccakF1600
import DfVrf.Contracts.Shake

/-!
# The interface of SHAKE256 in the contracts as a stream

Updates and squeezes of any sizes read one stream, the one of the C code.  `shakeDigest` adds the padding as long as
the direction is `_SPONGE_ABSORBING`, and no function sets another direction.

* `streamOk_iff`: a sequence of digests is one stream if there is only one.
-/

namespace DfVrf

open Contracts

/-- A sequence of digests on one context: the concatenated outputs, and how many of them added the padding. -/
def digestAll (f : Lanes → Lanes) : CtxShake → List ℕ → List UInt8 × ℕ
  | _, [] => ([], 0)
  | ctx, size8 :: sizes =>
    let r := shakeDigest f ctx size8
    let rest := digestAll f r.1 sizes
    (r.2 ++ rest.1, (if !ctx.direction then 1 else 0) + rest.2)

/-- Nothing changes the direction, so that every digest pads. -/
private theorem digestAll_pads (f : Lanes → Lanes) {ctx : CtxShake} (hd : ctx.direction = false) (sizes : List ℕ) :
    (digestAll f ctx sizes).2 = sizes.length := by
  induction sizes generalizing ctx with
  | nil => rfl
  | cons size8 sizes ih =>
    rw [digestAll, hd, ih (shakeDigest_direction f hd size8), List.length_cons, Nat.add_comm]
    rfl

/-- The outputs of the digests for `sizes` behind the updates for `chunks` are one stream, that of the concatenated
chunks, and the padding is added once if there is a digest. -/
structure StreamOk (f : Lanes → Lanes) (chunks : List (List UInt8)) (sizes : List ℕ) : Prop where
  stream : (digestAll f (chunks.foldl (shakeUpdate f) shakeInit) sizes).1 =
    (List.range sizes.sum).map (Crypto.Shake256.keystream f chunks.flatten)
  single : (digestAll f (chunks.foldl (shakeUpdate f) shakeInit) sizes).1 =
    (shakeSqueeze f (shakePad f (chunks.foldl (shakeUpdate f) shakeInit)) sizes.sum).2
  padded : (digestAll f (chunks.foldl (shakeUpdate f) shakeInit) sizes).2 = min 1 sizes.length

/-- The interface is one stream for a single digest only. -/
theorem streamOk_iff (f : Lanes → Lanes) (chunks : List (List UInt8)) (sizes : List ℕ) :
    StreamOk f chunks sizes ↔ sizes.length ≤ 1 := by
  have hd := updates_direction f chunks
  have hpads := digestAll_pads f hd sizes
  constructor
  · intro h
    have hone := h.padded
    omega
  · intro h
    have hsingle : (digestAll f (chunks.foldl (shakeUpdate f) shakeInit) sizes).1 =
        (shakeSqueeze f (shakePad f (chunks.foldl (shakeUpdate f) shakeInit)) sizes.sum).2 := by
      rcases sizes with _ | ⟨size8, _ | ⟨size8', sizes⟩⟩
      · rfl
      · simp [digestAll, shakeDigest_eq f hd]
      · simp at h
    exact ⟨hsingle.trans (shakeSqueeze_updates f chunks _), hsingle, by omega⟩

/-- Two digests of one byte without any input. -/
theorem not_streamOk_twice : ¬ StreamOk f1600Lanes [] [1, 1] := by
  intro h
  have hpads := digestAll_pads f1600Lanes (updates_direction f1600Lanes []) [1, 1]
  have hone := h.padded
  rw [hpads] at hone
  exact absurd hone (by decide)

end DfVrf
