import DfVrf.Crypto.Shake
import Mathlib.Data.List.Basic
import Mathlib.Data.Nat.Bitwise
import Mathlib.Tactic.IntervalCases

/-!
# SHAKE256 in the contracts (`DFVRF_shake.sol`)

Input bytes are collected in a buffer of 200 bytes beside the state.  `shakePermute` adds the buffer to the 25
lanes, eight bytes at a time, applies Keccak-f[1600] and returns a buffer of zeros.

* `simulates`: the state of the C code is at all times the sum of state and buffer.
* `shakeSqueeze_spec`, `shakeSqueeze_updates`: squeezes of any sizes are one stream of the concatenated input.
* `shakeDigest_squeezedCtx`: a digest behind another one pads once more and starts another stream.
-/

namespace DfVrf.Contracts

/-- The buffer of 200 bytes. -/
abbrev Buff := Fin 200 → UInt8

structure CtxShake where
  state : Lanes
  buff : Buff
  i : ℕ
  direction : Bool

/-- A context as Solidity creates it. -/
def CtxShake.default : CtxShake := ⟨fun _ => 0, fun _ => 0, 0, false⟩

def readBuff (buf : Buff) (k : ℕ) : UInt8 := if h : k < 200 then buf ⟨k, h⟩ else 0

/-- `buf[k] ^= x`. -/
def xorBuff (buf : Buff) (k : ℕ) (x : UInt8) : Buff := fun j => if j.val = k then buf j ^^^ x else buf j

/-- The `uint64` assembled from the eight buffer bytes of lane `w`. -/
def laneOfBuff (buf : Buff) (w : ℕ) : UInt64 :=
  let val := (readBuff buf (w * 8)).toUInt64
  let val := val ||| ((readBuff buf (w * 8 + 1)).toUInt64 <<< 8)
  let val := val ||| ((readBuff buf (w * 8 + 2)).toUInt64 <<< 16)
  let val := val ||| ((readBuff buf (w * 8 + 3)).toUInt64 <<< 24)
  let val := val ||| ((readBuff buf (w * 8 + 4)).toUInt64 <<< 32)
  let val := val ||| ((readBuff buf (w * 8 + 5)).toUInt64 <<< 40)
  let val := val ||| ((readBuff buf (w * 8 + 6)).toUInt64 <<< 48)
  val ||| ((readBuff buf (w * 8 + 7)).toUInt64 <<< 56)

/-- The sum of the state and the buffer. -/
def addBuff (buf : Buff) (state : Lanes) : Lanes := fun w => state w ^^^ laneOfBuff buf w.val

/-- `shakePermute`; the buffer it returns is its named return value, which is never assigned. -/
def shakePermute (f : Lanes → Lanes) (st : Buff × Lanes) : Buff × Lanes :=
  (fun _ => 0, f (addBuff st.1 st.2))

/-- `shakeAbsorb`, on the pair of buffer and state with the position `i`. -/
def shakeAbsorb (f : Lanes → Lanes) (i : ℕ) (st : Buff × Lanes) (input : List UInt8) : (Buff × Lanes) × ℕ :=
  Sponge.absorbLoop (shakePermute f) (fun st k x => (xorBuff st.1 k x, st.2)) 136 input.length (st, i) input

def shakeUpdate (f : Lanes → Lanes) (ctx : CtxShake) (input : List UInt8) : CtxShake :=
  let st := if ctx.direction then shakePermute f (ctx.buff, ctx.state) else (ctx.buff, ctx.state)
  let r := shakeAbsorb f ctx.i st input
  ⟨r.1.2, r.1.1, r.2, false⟩

/-- The loop of `shakeSqueeze`; every iteration produces a byte, so `tosqueeze` bounds their number. -/
def shakeSqueezeLoop (f : Lanes → Lanes) : ℕ → CtxShake → ℕ → CtxShake × List UInt8
  | 0, ctx, _ => (ctx, [])
  | fuel + 1, ctx, tosqueeze =>
    if tosqueeze = 0 then (ctx, [])
    else
      let cansqueeze := 136 - ctx.i
      let willsqueeze := if cansqueeze < tosqueeze then cansqueeze else tosqueeze
      let out := (List.range willsqueeze).map fun j => getByte ctx.state (ctx.i + j)
      let ctx := { ctx with i := ctx.i + willsqueeze }
      let ctx := if ctx.i = 136 then
          let st := shakePermute f (ctx.buff, ctx.state)
          { ctx with buff := st.1, state := st.2, i := 0 }
        else ctx
      let r := shakeSqueezeLoop f fuel ctx (tosqueeze - willsqueeze)
      (r.1, out ++ r.2)

def shakeSqueeze (f : Lanes → Lanes) (ctx : CtxShake) (n : ℕ) : CtxShake × List UInt8 :=
  shakeSqueezeLoop f n ctx n

def shakePad (f : Lanes → Lanes) (ctx : CtxShake) : CtxShake :=
  let buff := xorBuff ctx.buff ctx.i 0x1f
  let buff := xorBuff buff 135 0x80
  let st := shakePermute f (buff, ctx.state)
  { ctx with buff := st.1, state := st.2, i := 0 }

/-- `shakeInit`; the direction is `_SPONGE_ABSORBING`, which is `false`. -/
def shakeInit : CtxShake := ⟨fun _ => 0, fun _ => 0, 0, false⟩

/-- `shakeDigest`: the context, which it changes in place, and the output. -/
def shakeDigest (f : Lanes → Lanes) (ctx : CtxShake) (size8 : ℕ) : CtxShake × List UInt8 :=
  let ctx := if !ctx.direction then
      let buff := xorBuff ctx.buff ctx.i 0x1f
      let buff := xorBuff buff 135 0x80
      let st := shakePermute f (buff, ctx.state)
      { ctx with buff := st.1, state := st.2, i := 0 }
    else ctx
  shakeSqueeze f ctx size8

/-! ### Lanes and bytes -/

/-- The bits of a byte shifted to the place `t` of a lane. -/
private theorem getLsbD_shifted (b : UInt8) {s : UInt64} {t i : ℕ} (hs : s.toNat = 8 * t) (ht : t < 8) (hi : i < 64) :
    (b.toUInt64 <<< s).toBitVec.getLsbD i = (decide (i / 8 = t) && b.toBitVec.getLsbD (i % 8)) := by
  have hshift : (b.toUInt64 <<< s).toBitVec = b.toUInt64.toBitVec <<< (8 * t) := by
    rw [UInt64.toBitVec_shiftLeft, BitVec.shiftLeft_eq', BitVec.toNat_umod, UInt64.toNat_toBitVec, hs,
      show (64 : BitVec 64).toNat = 64 from rfl, Nat.mod_eq_of_lt (by omega)]
  rw [hshift, BitVec.getLsbD_shiftLeft, UInt8.toBitVec_toUInt64, BitVec.getLsbD_setWidth]
  by_cases h : i / 8 = t
  · have hm : i - 8 * t = i % 8 := by omega
    simp [h, hi, hm, show ¬ i < 8 * t by omega, show i % 8 < 64 by omega]
  · by_cases hlt : i < 8 * t
    · simp [h, hlt]
    · have hz : b.toBitVec.getLsbD (i - 8 * t) = false := BitVec.getLsbD_of_ge _ _ (by omega)
      simp [h, hz]

/-- The bits of an assembled lane are the bits of its bytes. -/
private theorem getLsbD_laneOfBuff (buf : Buff) (w : ℕ) {i : ℕ} (hi : i < 64) :
    (laneOfBuff buf w).toBitVec.getLsbD i = (readBuff buf (w * 8 + i / 8)).toBitVec.getLsbD (i % 8) := by
  have h0 := getLsbD_shifted (readBuff buf (w * 8)) (s := 0) (t := 0) rfl (by omega) hi
  have h1 := getLsbD_shifted (readBuff buf (w * 8 + 1)) (s := 8) (t := 1) rfl (by omega) hi
  have h2 := getLsbD_shifted (readBuff buf (w * 8 + 2)) (s := 16) (t := 2) rfl (by omega) hi
  have h3 := getLsbD_shifted (readBuff buf (w * 8 + 3)) (s := 24) (t := 3) rfl (by omega) hi
  have h4 := getLsbD_shifted (readBuff buf (w * 8 + 4)) (s := 32) (t := 4) rfl (by omega) hi
  have h5 := getLsbD_shifted (readBuff buf (w * 8 + 5)) (s := 40) (t := 5) rfl (by omega) hi
  have h6 := getLsbD_shifted (readBuff buf (w * 8 + 6)) (s := 48) (t := 6) rfl (by omega) hi
  have h7 := getLsbD_shifted (readBuff buf (w * 8 + 7)) (s := 56) (t := 7) rfl (by omega) hi
  rw [UInt64.shiftLeft_zero] at h0
  simp only [laneOfBuff, UInt64.toBitVec_or, BitVec.getLsbD_or, h0, h1, h2, h3, h4, h5, h6, h7]
  have hd : i / 8 < 8 := by omega
  generalize i / 8 = t at hd ⊢
  interval_cases t <;> simp

/-- Adding a byte to the buffer adds it to the lane it belongs to. -/
private theorem addBuff_xorBuff (buf : Buff) (state : Lanes) (k : ℕ) (x : UInt8) :
    addBuff (xorBuff buf k x) state = xorByte (addBuff buf state) k x := by
  funext w
  have hw := w.isLt
  have hshift : (k &&& 7) <<< 3 = 8 * (k % 8) := by
    rw [show (7 : ℕ) = 2 ^ 3 - 1 from rfl, Nat.and_two_pow_sub_one_eq_mod, Nat.shiftLeft_eq]
    omega
  have hrd : ∀ j < 200, readBuff (xorBuff buf k x) j = if j = k then readBuff buf j ^^^ x else readBuff buf j := by
    intro j hj
    simp only [readBuff, hj, xorBuff, dite_true]
  have hs : (UInt64.ofNat (8 * (k % 8))).toNat = 8 * (k % 8) := by
    rw [UInt64.toNat_ofNat']
    omega
  rw [xorByte, addBuff, hshift, Nat.shiftRight_eq_div_pow, show 2 ^ 3 = 8 from rfl]
  apply UInt64.toBitVec_inj.1
  apply BitVec.eq_of_getLsbD_eq
  intro i hi
  by_cases h : w.val = k / 8
  · rw [if_pos h, addBuff, UInt64.toBitVec_xor, UInt64.toBitVec_xor, UInt64.toBitVec_xor, BitVec.getLsbD_xor,
      BitVec.getLsbD_xor, BitVec.getLsbD_xor, getLsbD_laneOfBuff _ _ hi, getLsbD_laneOfBuff _ _ hi,
      getLsbD_shifted x hs (Nat.mod_lt _ (by omega)) hi, hrd _ (by omega)]
    by_cases hb : i / 8 = k % 8
    · rw [if_pos (by omega), UInt8.toBitVec_xor, BitVec.getLsbD_xor]
      simp [hb]
    · rw [if_neg (by omega)]
      simp [hb]
  · rw [if_neg h, addBuff, UInt64.toBitVec_xor, UInt64.toBitVec_xor, BitVec.getLsbD_xor, BitVec.getLsbD_xor,
      getLsbD_laneOfBuff _ _ hi, getLsbD_laneOfBuff _ _ hi, hrd _ (by omega), if_neg (by omega)]

private theorem addBuff_zero (state : Lanes) : addBuff (fun _ => 0) state = state := by
  have hz : ∀ k, readBuff (fun _ => 0) k = 0 := by
    intro k
    rw [readBuff]
    split <;> rfl
  funext w
  have hl : laneOfBuff (fun _ => 0) w.val = 0 := by
    simp only [laneOfBuff, hz]
    rfl
  rw [addBuff, hl, UInt64.xor_zero]

/-! ### Absorbing -/

/-- The state of the C code is the sum of state and buffer of the contract. -/
theorem simulates (f : Lanes → Lanes) : Sponge.Simulates (fun A st => A = addBuff st.1 st.2) f xorByte
    (shakePermute f) (fun st k x => (xorBuff st.1 k x, st.2)) 136 where
  perm A st h := by
    subst h
    exact (addBuff_zero _).symm
  add A st i b _ h := by
    subst h
    exact (addBuff_xorBuff st.1 st.2 i b).symm

/-- After absorbing and padding, the contract holds the permuted state of the C code. -/
theorem shakePad_shakeUpdate (f : Lanes → Lanes) (bs : List UInt8) :
    shakePad f (shakeUpdate f CtxShake.default bs) = ⟨f (xorByte (xorByte (Crypto.Shake256.absorbed f bs).1
      (Crypto.Shake256.absorbed f bs).2 0x1F) 135 0x80), fun _ => 0, 0, false⟩ := by
  have hz : Crypto.Shake256.init.A = addBuff (fun _ => 0) (fun _ => 0) := (addBuff_zero _).symm
  obtain ⟨h1, h2⟩ := (simulates f).absorb (B := (fun _ => 0, fun _ => 0)) (show 0 < 136 by omega) hz bs
  have hlt : (Sponge.absorb f xorByte 136 (Crypto.Shake256.init.A, 0) bs).2 < 136 :=
    Sponge.absorb_snd_lt (show 0 < 136 by omega) bs
  have hloop : shakeAbsorb f 0 (fun _ => 0, fun _ => 0) bs = _ :=
    Sponge.absorbLoop_eq_absorb (shakePermute f) (fun st k x => (xorBuff st.1 k x, st.2)) (show 0 < 136 by omega)
      (fun _ => 0, fun _ => 0) (Nat.le_refl _)
  rw [shakeUpdate, CtxShake.default]
  simp only [Bool.false_eq_true, if_false, hloop, ← h2]
  rw [shakePad, shakePermute]
  simp only
  rw [addBuff_xorBuff, addBuff_xorBuff, ← h1]
  rfl

/-! ### Squeezing -/

/-- A whole block squeezed from position zero with an empty buffer. -/
theorem shakeSqueeze_rate (f : Lanes → Lanes) (A : Lanes) (d : Bool) :
    shakeSqueeze f ⟨A, fun _ => 0, 0, d⟩ 136 =
      (⟨f A, fun _ => 0, 0, d⟩, (List.range 136).map fun j => getByte A j) := by
  simp [shakeSqueeze, shakeSqueezeLoop, shakePermute, addBuff_zero]

private theorem shakeSqueezeLoop_eq (f : Lanes → Lanes) (fuel : ℕ) (ctx : CtxShake) (n : ℕ) :
    shakeSqueezeLoop f fuel ctx n =
      let r := Sponge.squeezeEager (shakePermute f) (fun st => getByte st.2) 136 fuel ((ctx.buff, ctx.state), ctx.i) n
      (⟨r.1.1.2, r.1.1.1, r.1.2, ctx.direction⟩, r.2) := by
  induction fuel generalizing ctx n with
  | zero => rfl
  | succ fuel ih =>
    rw [shakeSqueezeLoop, Sponge.squeezeEager]
    by_cases h0 : n = 0
    · rw [if_pos h0, if_pos h0]
    · rw [if_neg h0, if_neg h0]
      simp only [ih]
      split_ifs <;> rfl

private theorem shakeSqueeze_direction (f : Lanes → Lanes) (ctx : CtxShake) (n : ℕ) :
    (shakeSqueeze f ctx n).1.direction = ctx.direction := by
  rw [shakeSqueeze, shakeSqueezeLoop_eq]

/-- With an empty buffer the permutation of buffer and state is the one of the state. -/
private theorem iterate_shakePermute (f : Lanes → Lanes) (A : Lanes) (k : ℕ) :
    (shakePermute f)^[k] (fun _ => 0, A) = (fun _ => 0, f^[k] A) := by
  induction k with
  | zero => rfl
  | succ k ih => rw [Function.iterate_succ_apply', ih, shakePermute, addBuff_zero, Function.iterate_succ_apply']

/-- The context after `p` bytes of the stream of the state `P`. -/
def squeezedCtx (f : Lanes → Lanes) (P : Lanes) (p : ℕ) : CtxShake :=
  ⟨f^[p / 136 + 1] P, fun _ => 0, p % 136, false⟩

/-- Whatever is requested, a squeeze continues the stream. -/
theorem shakeSqueeze_spec (f : Lanes → Lanes) (P : Lanes) (p n : ℕ) :
    shakeSqueeze f (squeezedCtx f P p) n =
      (squeezedCtx f P (p + n), (List.range' p n).map (Sponge.stream f getByte 136 P)) := by
  have hat : ∀ p, Sponge.eagerAt (shakePermute f) 136 (fun _ => 0, P) p =
      ((fun _ => 0, f^[p / 136 + 1] P), p % 136) := by
    intro p
    rw [Sponge.eagerAt, iterate_shakePermute]
  have hstream : Sponge.stream (shakePermute f) (fun st => getByte st.2) 136 (fun _ => 0, P) =
      Sponge.stream f getByte 136 P := by
    funext p
    rw [Sponge.stream, iterate_shakePermute, Sponge.stream]
  have hspec := Sponge.squeezeEager_spec (shakePermute f) (fun st => getByte st.2) (show 0 < 136 by omega)
    (fun _ => 0, P) (p := p) (le_refl n)
  rw [hat, hat, hstream] at hspec
  rw [shakeSqueeze, shakeSqueezeLoop_eq, squeezedCtx, hspec]
  rfl

/-! ### The interface -/

private theorem shakeUpdate_eq (f : Lanes → Lanes) {ctx : CtxShake} (hd : ctx.direction = false) (hi : ctx.i < 136)
    (bs : List UInt8) : shakeUpdate f ctx bs =
      let r := Sponge.absorb (shakePermute f) (fun st k x => (xorBuff st.1 k x, st.2)) 136
        ((ctx.buff, ctx.state), ctx.i) bs
      ⟨r.1.2, r.1.1, r.2, false⟩ := by
  rw [shakeUpdate, hd]
  simp only [Bool.false_eq_true, if_false]
  rw [shakeAbsorb, Sponge.absorbLoop_eq_absorb _ _ hi _ (Nat.le_refl _)]

/-- Several updates absorb the concatenation. -/
private theorem foldl_shakeUpdate (f : Lanes → Lanes) {ctx : CtxShake} (hd : ctx.direction = false) (hi : ctx.i < 136)
    (chunks : List (List UInt8)) : chunks.foldl (shakeUpdate f) ctx = shakeUpdate f ctx chunks.flatten := by
  induction chunks generalizing ctx with
  | nil =>
    rw [List.flatten_nil, shakeUpdate_eq f hd hi, ← hd]
    rfl
  | cons chunk chunks ih =>
    have hstep := shakeUpdate_eq f hd hi chunk
    have hlt : (shakeUpdate f ctx chunk).i < 136 := by
      rw [hstep]
      exact Sponge.absorb_snd_lt hi chunk
    have hd' : (shakeUpdate f ctx chunk).direction = false := by rw [hstep]
    rw [List.foldl_cons, ih hd' hlt, shakeUpdate_eq f hd' hlt, hstep, List.flatten_cons, shakeUpdate_eq f hd hi,
      Sponge.absorb_append]

/-- The state before the first permutation of the output. -/
def paddedState (f : Lanes → Lanes) (bs : List UInt8) : Lanes :=
  xorByte (xorByte (Crypto.Shake256.absorbed f bs).1 (Crypto.Shake256.absorbed f bs).2 0x1F) 135 0x80

private theorem shakePad_updates (f : Lanes → Lanes) (chunks : List (List UInt8)) :
    shakePad f (chunks.foldl (shakeUpdate f) shakeInit) = squeezedCtx f (paddedState f chunks.flatten) 0 := by
  rw [foldl_shakeUpdate f rfl (show 0 < 136 by omega)]
  exact shakePad_shakeUpdate f chunks.flatten

/-- One squeeze of any size, however the input is split. -/
theorem shakeSqueeze_updates (f : Lanes → Lanes) (chunks : List (List UInt8)) (n : ℕ) :
    (shakeSqueeze f (shakePad f (chunks.foldl (shakeUpdate f) shakeInit)) n).2 =
      (List.range n).map (Crypto.Shake256.keystream f chunks.flatten) := by
  rw [shakePad_updates, shakeSqueeze_spec, List.range_eq_range']
  rfl

theorem updates_direction (f : Lanes → Lanes) (chunks : List (List UInt8)) :
    (chunks.foldl (shakeUpdate f) shakeInit).direction = false := by
  rw [foldl_shakeUpdate f rfl (show 0 < 136 by omega)]
  rfl

/-- A digest pads the context, whatever has been done with it before. -/
theorem shakeDigest_eq (f : Lanes → Lanes) {ctx : CtxShake} (hd : ctx.direction = false) (size8 : ℕ) :
    shakeDigest f ctx size8 = shakeSqueeze f (shakePad f ctx) size8 := by
  rw [shakeDigest, if_pos (by rw [hd]; rfl), shakePad]

theorem shakeDigest_direction (f : Lanes → Lanes) {ctx : CtxShake} (hd : ctx.direction = false) (size8 : ℕ) :
    (shakeDigest f ctx size8).1.direction = false := by
  rw [shakeDigest_eq f hd, shakeSqueeze_direction]
  exact hd

/-- A digest behind `p` bytes of output is the stream of another state. -/
theorem shakeDigest_squeezedCtx (f : Lanes → Lanes) (P : Lanes) (p size8 : ℕ) :
    let P' := xorByte (xorByte (f^[p / 136 + 1] P) (p % 136) 0x1F) 135 0x80
    shakeDigest f (squeezedCtx f P p) size8 =
      (squeezedCtx f P' size8, (List.range size8).map (Sponge.stream f getByte 136 P')) := by
  intro P'
  have hpad : shakePad f (squeezedCtx f P p) = squeezedCtx f P' 0 := by
    rw [shakePad, squeezedCtx, shakePermute]
    simp only
    rw [addBuff_xorBuff, addBuff_xorBuff, addBuff_zero]
    rfl
  rw [shakeDigest_eq f rfl, hpad, shakeSqueeze_spec, Nat.zero_add, List.range_eq_range']

end DfVrf.Contracts
