import DfVrf.Lib.Bytes

/-!
# The Keccak-256 generator of the C code (`keccak_prng.c`)

The generator collects its input in a buffer of 4096 bytes, hashes it once into a 32-byte state, and expands the
state by hashing it with a 64-bit counter.  Keccak-256 is a parameter.

* `inject_of_lt`: an input that does not fit is refused as a whole, with the return code `-3`.
* `absorbed_last`: since the callers ignore the code, an input that does not fit is left out as a whole.
* `extract_spec`: however the output is cut into requests, it is one stream, the `keystream` of the state.
* `stream_faithful`: the same of whole sequences of calls, null pointers and return codes included.
-/

namespace DfVrf.Crypto

open InPlace

/-- `MAX_BUFFER_SIZE`. -/
def maxBufferSize : ℕ := 4096

/-- A hash function with 32 bytes of output. -/
abbrev Keccak256 := List UInt8 → ByteVec 32

/-- `inner_keccak256_prng_ctx`; `buffer` holds the `buffer_len` bytes in use. -/
structure KeccakPrng where
  buffer : List UInt8
  state : ByteVec 32
  counter : UInt64
  finalized : Bool
  outBuffer : List UInt8
  outBufferPos : ℕ
  outBufferLen : ℕ

namespace KeccakPrng

/-- `i_keccak256_init`. -/
def init : KeccakPrng where
  buffer := []
  state := ⟨List.replicate 32 0, rfl⟩
  counter := 0
  finalized := false
  outBuffer := List.replicate 32 0
  outBufferPos := 0
  outBufferLen := 0

/-- `i_keccak256_inject`: the return code and the new context.  The sum of the two lengths does not wrap, since
both are lengths of objects in memory. -/
def inject (sc : KeccakPrng) (input : List UInt8) : ℤ × KeccakPrng :=
  if sc.finalized then (-2, sc)
  else if sc.buffer.length + input.length > maxBufferSize then (-3, sc)
  else (0, { sc with buffer := sc.buffer ++ input })

/-- `i_keccak256_flip`. -/
def flip (K : Keccak256) (sc : KeccakPrng) : ℤ × KeccakPrng :=
  if sc.finalized then (-2, sc)
  else (0, { sc with
    state := K sc.buffer
    finalized := true
    outBufferPos := 0
    outBufferLen := 0 })

/-- The counter in big-endian order. -/
def counterBytes (counter : UInt64) : List UInt8 :=
  (List.range 8).map fun i => ((counter >>> UInt64.ofNat (56 - i * 8)) &&& 0xFF).toUInt8

/-- The block loop of `i_keccak256_extract` for `remaining = len - offset` bytes.  Every iteration produces a byte,
so `remaining` is enough for the first argument. -/
def extractBlocks (K : Keccak256) : ℕ → KeccakPrng → ℕ → KeccakPrng × List UInt8
  | 0, sc, _ => (sc, [])
  | fuel + 1, sc, remaining =>
    if remaining = 0 then (sc, [])
    else
      let block := sc.state.1 ++ counterBytes sc.counter
      let outBuffer := (K block).1
      let toCopy := if remaining < 32 then remaining else 32
      let sc := { sc with
        outBuffer := outBuffer
        outBufferLen := 32
        outBufferPos := toCopy
        counter := sc.counter + 1 }
      let r := extractBlocks K fuel sc (remaining - toCopy)
      (r.1, outBuffer.take toCopy ++ r.2)

/-- `i_keccak256_extract`: the return code, the new context and the output. -/
def extract (K : Keccak256) (sc : KeccakPrng) (len : ℕ) : ℤ × KeccakPrng × List UInt8 :=
  if !sc.finalized then (-2, sc, [])
  else if sc.outBufferPos < sc.outBufferLen then
    let available := sc.outBufferLen - sc.outBufferPos
    let toCopy := if len < available then len else available
    let out := (sc.outBuffer.drop sc.outBufferPos).take toCopy
    let sc := { sc with outBufferPos := sc.outBufferPos + toCopy }
    if toCopy = len then (0, sc, out)
    else
      let r := extractBlocks K len sc (len - toCopy)
      (0, r.1, out ++ r.2)
  else
    let r := extractBlocks K len sc len
    (0, r.1, r.2)

/-! ### The input phase -/

private theorem inject_of_le {sc : KeccakPrng} (hf : sc.finalized = false) {input : List UInt8}
    (h : sc.buffer.length + input.length ≤ maxBufferSize) :
    inject sc input = (0, { sc with buffer := sc.buffer ++ input }) := by
  rw [inject, hf, if_neg (by simp), if_neg (by omega)]

/-- An input that does not fit changes nothing. -/
theorem inject_of_lt {sc : KeccakPrng} (hf : sc.finalized = false) {input : List UInt8}
    (h : maxBufferSize < sc.buffer.length + input.length) : inject sc input = (-3, sc) := by
  rw [inject, hf, if_neg (by simp), if_pos h]

/-- Inject a sequence of inputs, the return codes being ignored as all callers do. -/
def injectAll (sc : KeccakPrng) (inputs : List (List UInt8)) : KeccakPrng :=
  inputs.foldl (fun sc input => (inject sc input).2) sc

/-- What the buffer holds after a sequence of inputs: those that still fitted. -/
def absorbed (buffer : List UInt8) (inputs : List (List UInt8)) : List UInt8 :=
  inputs.foldl (fun b input => if b.length + input.length ≤ maxBufferSize then b ++ input else b) buffer

theorem injectAll_eq {sc : KeccakPrng} (hf : sc.finalized = false) (inputs : List (List UInt8)) :
    injectAll sc inputs = { sc with buffer := absorbed sc.buffer inputs } := by
  induction inputs generalizing sc with
  | nil => rfl
  | cons input inputs ih =>
    rw [injectAll, List.foldl_cons, ← injectAll, absorbed, List.foldl_cons, ← absorbed]
    by_cases h : sc.buffer.length + input.length ≤ maxBufferSize
    · rw [inject_of_le hf h, if_pos h]
      exact ih hf
    · rw [inject_of_lt hf (by omega), if_neg h]
      exact ih hf

/-- If everything fits, the buffer holds all inputs. -/
theorem absorbed_eq_append {buffer : List UInt8} {inputs : List (List UInt8)}
    (h : buffer.length + inputs.flatten.length ≤ maxBufferSize) :
    absorbed buffer inputs = buffer ++ inputs.flatten := by
  induction inputs generalizing buffer with
  | nil => simp [absorbed]
  | cons input inputs ih =>
    rw [List.flatten_cons, List.length_append] at h
    have h' : (buffer ++ input).length + inputs.flatten.length ≤ maxBufferSize := by
      rw [List.length_append]
      omega
    rw [absorbed, List.foldl_cons, ← absorbed, if_pos (by omega), ih h', List.flatten_cons, List.append_assoc]

theorem buffer_injectAll (inputs : List (List UInt8)) : (injectAll init inputs).buffer = absorbed [] inputs := by
  rw [injectAll_eq rfl]
  rfl

/-- The context after the input phase. -/
def seeded (K : Keccak256) (inputs : List (List UInt8)) : KeccakPrng :=
  (flip K (injectAll init inputs)).2

/-! ### The last input -/

/-- An input is hashed behind `used` bytes: it is not empty and fits the buffer. -/
def Kept (used : ℕ) (input : List UInt8) : Prop := 0 < input.length ∧ used + input.length ≤ maxBufferSize

/-- The part of an input that is hashed behind `used` bytes. -/
def hashedPart (used : ℕ) (input : List UInt8) : List UInt8 :=
  if used + input.length ≤ maxBufferSize then input else []

theorem hashedPart_eq_iff {used : ℕ} (hu : used ≤ maxBufferSize) (input : List UInt8) :
    hashedPart used input = input ↔ used + input.length ≤ maxBufferSize := by
  rw [hashedPart]
  split
  · rename_i h
    exact ⟨fun _ => h, fun _ => rfl⟩
  · rename_i h
    constructor
    · rintro rfl
      exact hu
    · intro hle
      exact absurd hle h

/-- Two inputs are told apart unless neither of them is hashed. -/
theorem hashedPart_injective_iff (used : ℕ) (input input' : List UInt8) :
    (hashedPart used input = hashedPart used input' → input = input') ↔
      input = input' ∨ Kept used input ∨ Kept used input' := by
  have hnil : ∀ d : List UInt8, ¬ Kept used d → hashedPart used d = [] := by
    intro d hd
    unfold Kept at hd
    rw [hashedPart]
    split
    · exact List.eq_nil_of_length_eq_zero (by omega)
    · rfl
  have hkept : ∀ d e : List UInt8, Kept used d → hashedPart used d = hashedPart used e → d = e := by
    rintro d e ⟨hpos, hfit⟩ heq
    rw [hashedPart, if_pos hfit, hashedPart] at heq
    split at heq
    · exact heq
    · rw [heq] at hpos
      simp at hpos
  constructor
  · intro h
    by_contra hc
    rw [not_or, not_or] at hc
    exact hc.1 (h ((hnil _ hc.2.1).trans (hnil _ hc.2.2).symm))
  · rintro (rfl | hd | hd) heq
    · rfl
    · exact hkept _ _ hd heq
    · exact (hkept _ _ hd heq.symm).symm

/-- The last input is left out as a whole if it does not fit behind the others. -/
theorem absorbed_last {inputs : List (List UInt8)} (h : inputs.flatten.length ≤ maxBufferSize) (last : List UInt8) :
    absorbed [] (inputs ++ [last]) = inputs.flatten ++ hashedPart inputs.flatten.length last := by
  have hfirst : absorbed [] inputs = inputs.flatten := absorbed_eq_append (by simpa using h)
  have hstep : absorbed [] (inputs ++ [last]) = absorbed (absorbed [] inputs) [last] := List.foldl_append
  rw [hstep, hfirst, hashedPart, absorbed, List.foldl_cons, List.foldl_nil]
  split
  · rfl
  · rw [List.append_nil]

/-! ### The output stream -/

/-- Byte `p` of the output of the generator with state `S`. -/
def keystream (K : Keccak256) (S : ByteVec 32) (p : ℕ) : UInt8 :=
  rd (K (S.1 ++ counterBytes (UInt64.ofNat (p / 32)))).1 (p % 32)

/-- The context `sc` of the generator with state `S` after `p` bytes of output. -/
structure AtPos (K : Keccak256) (S : ByteVec 32) (sc : KeccakPrng) (p : ℕ) : Prop where
  finalized : sc.finalized = true
  state : sc.state = S
  counter : sc.counter = UInt64.ofNat ((p + 31) / 32)
  empty : p % 32 = 0 → sc.outBufferLen ≤ sc.outBufferPos
  buffered : p % 32 ≠ 0 → sc.outBufferPos = p % 32 ∧ sc.outBufferLen = 32 ∧
    sc.outBuffer = (K (S.1 ++ counterBytes (UInt64.ofNat (p / 32)))).1

private theorem atPos_flip (K : Keccak256) (sc : KeccakPrng) (hf : sc.finalized = false) (hc : sc.counter = 0) :
    AtPos K (K sc.buffer) (flip K sc).2 0 := by
  rw [flip, hf, if_neg (by simp)]
  exact ⟨rfl, rfl, hc, fun _ => le_refl _, fun h => absurd rfl h⟩

theorem atPos_seeded (K : Keccak256) (inputs : List (List UInt8)) :
    AtPos K (K (absorbed [] inputs)) (seeded K inputs) 0 := by
  rw [seeded, injectAll_eq rfl]
  exact atPos_flip K { init with buffer := absorbed init.buffer inputs } rfl rfl

/-- Bytes of one block of output. -/
private theorem take_drop_block (K : Keccak256) (S : ByteVec 32) {p k : ℕ} (hk : p % 32 + k ≤ 32) :
    ((K (S.1 ++ counterBytes (UInt64.ofNat (p / 32)))).1.drop (p % 32)).take k =
      (List.range' p k).map (keystream K S) := by
  have hlen := (K (S.1 ++ counterBytes (UInt64.ofNat (p / 32)))).2
  apply ext_rd
  · simp [hlen]
    omega
  · intro i hi
    have hik : i < k := by
      rw [List.length_take] at hi
      omega
    have hir : i < (List.range' p k).length := by simpa using hik
    rw [rd_take hik, rd_drop, rd_map _ hir, rd_eq_getElem hir, List.getElem_range', keystream,
      show (p + 1 * i) / 32 = p / 32 by omega, show (p + 1 * i) % 32 = p % 32 + i by omega]

theorem extractBlocks_spec {K : Keccak256} {S : ByteVec 32} {fuel p remaining : ℕ} {sc : KeccakPrng}
    (h : AtPos K S sc p) (hp : p % 32 = 0) (hr : remaining ≤ fuel) :
    AtPos K S (extractBlocks K fuel sc remaining).1 (p + remaining) ∧
      (extractBlocks K fuel sc remaining).2 = (List.range' p remaining).map (keystream K S) := by
  induction fuel generalizing p remaining sc with
  | zero =>
    obtain rfl : remaining = 0 := by omega
    exact ⟨h, rfl⟩
  | succ fuel ih =>
    rw [extractBlocks]
    by_cases h0 : remaining = 0
    · subst h0
      exact ⟨h, rfl⟩
    · rw [if_neg h0]
      have hcounter : sc.counter = UInt64.ofNat (p / 32) := by
        rw [h.counter, show (p + 31) / 32 = p / 32 by omega]
      obtain ⟨c, hc⟩ : ∃ c, (if remaining < 32 then remaining else 32) = c := ⟨_, rfl⟩
      have hc32 : c ≤ 32 ∧ c ≤ remaining ∧ 0 < c ∧ (c < remaining → c = 32) := by
        split at hc <;> omega
      have hblock := take_drop_block K S (p := p) (k := c) (by omega)
      rw [hp, List.drop_zero] at hblock
      have hnext : AtPos K S { sc with
          outBuffer := (K (sc.state.1 ++ counterBytes sc.counter)).1
          outBufferLen := 32
          outBufferPos := c
          counter := sc.counter + 1 } (p + c) := by
        refine ⟨h.finalized, h.state, ?_, ?_, ?_⟩
        · rw [hcounter, ← UInt64.ofNat_one, ← UInt64.ofNat_add, show (p + c + 31) / 32 = p / 32 + 1 by omega]
        · intro hpc
          show 32 ≤ c
          omega
        · intro hpc
          refine ⟨?_, rfl, ?_⟩
          · show c = (p + c) % 32
            omega
          · rw [h.state, hcounter, show (p + c) / 32 = p / 32 by omega]
      simp only [hc]
      by_cases hlast : c = remaining
      · -- the last block: nothing remains
        have hnil : ∀ sc', extractBlocks K fuel sc' (remaining - c) = (sc', []) := by
          intro sc'
          rw [show remaining - c = 0 by omega]
          cases fuel <;> rfl
        rw [hnil, ← hlast]
        refine ⟨hnext, ?_⟩
        rw [List.append_nil, h.state, hcounter, hblock]
      · obtain ⟨h1, h2⟩ := ih hnext (by omega) (show remaining - c ≤ fuel by omega)
        rw [show p + c + (remaining - c) = p + remaining by omega] at h1
        refine ⟨h1, ?_⟩
        rw [h2, h.state, hcounter, hblock, ← List.map_append, List.range'_append_1,
          show c + (remaining - c) = remaining by omega]

/-- Whatever is requested, the output continues the stream. -/
theorem extract_spec {K : Keccak256} {S : ByteVec 32} {p : ℕ} {sc : KeccakPrng} (h : AtPos K S sc p) (len : ℕ) :
    (extract K sc len).1 = 0 ∧ AtPos K S (extract K sc len).2.1 (p + len) ∧
      (extract K sc len).2.2 = (List.range' p len).map (keystream K S) := by
  have hfin : (!sc.finalized) = false := by rw [h.finalized]; rfl
  rw [extract, hfin, if_neg (by simp)]
  by_cases h0 : p % 32 = 0
  · rw [if_neg (by have := h.empty h0; omega)]
    exact ⟨rfl, extractBlocks_spec h h0 (le_refl len)⟩
  · obtain ⟨hpos, hlen, hbuf⟩ := h.buffered h0
    -- the unread bytes of the last block come first
    have havail : sc.outBufferLen - sc.outBufferPos = 32 - p % 32 := by rw [hpos, hlen]
    obtain ⟨c, hc⟩ : ∃ c, (if len < 32 - p % 32 then len else 32 - p % 32) = c := ⟨_, rfl⟩
    have hc' : p % 32 + c ≤ 32 ∧ c ≤ len ∧ (c < len → p % 32 + c = 32) := by
      split at hc <;> omega
    have hnext : AtPos K S { sc with outBufferPos := sc.outBufferPos + c } (p + c) := by
      refine ⟨h.finalized, h.state, ?_, ?_, ?_⟩
      · rw [h.counter, show (p + c + 31) / 32 = (p + 31) / 32 by omega]
      · intro hpc
        show sc.outBufferLen ≤ sc.outBufferPos + c
        omega
      · intro hpc
        refine ⟨?_, hlen, ?_⟩
        · show sc.outBufferPos + c = (p + c) % 32
          omega
        · rw [show (p + c) / 32 = p / 32 by omega]
          exact hbuf
    have hblock := take_drop_block K S hc'.1
    rw [← hbuf, ← hpos] at hblock
    rw [if_pos (by omega)]
    simp only [havail, hc, hblock]
    by_cases hlast : c = len
    · rw [if_pos hlast, ← hlast]
      exact ⟨rfl, hnext, rfl⟩
    · rw [if_neg hlast]
      obtain ⟨h1, h2⟩ := extractBlocks_spec hnext (by omega) (show len - c ≤ len by omega)
      rw [show p + c + (len - c) = p + len by omega] at h1
      refine ⟨rfl, h1, ?_⟩
      rw [h2, ← List.map_append, List.range'_append_1, show c + (len - c) = len by omega]

/-! ### The interface

Every function is called with pointers; `none` stands for a null pointer. -/

/-- The calls of the interface. -/
inductive Call where
  | inject (input : Option (List UInt8))
  | flip
  | extract (out : Option ℕ)

/-- What a call returns, leaves in the context and writes to its output. -/
structure Outcome where
  code : ℤ
  context : Option KeccakPrng
  out : List UInt8

/-- One call; the pointers are looked at first. -/
def Call.run (K : Keccak256) : Call → Option KeccakPrng → Outcome
  | .inject (some input), some sc =>
    let r := KeccakPrng.inject sc input
    ⟨r.1, some r.2, []⟩
  | .flip, some sc =>
    let r := KeccakPrng.flip K sc
    ⟨r.1, some r.2, []⟩
  | .extract (some len), some sc =>
    let r := KeccakPrng.extract K sc len
    ⟨r.1, some r.2.1, r.2.2⟩
  | _, context => ⟨-1, context, []⟩

/-- The return codes, the last context and the concatenated outputs of a sequence of calls. -/
def runCalls (K : Keccak256) : List Call → Option KeccakPrng → List ℤ × Option KeccakPrng × List UInt8
  | [], context => ([], context, [])
  | c :: calls, context =>
    let r := c.run K context
    let rest := runCalls K calls r.context
    (r.code :: rest.1, rest.2.1, r.out ++ rest.2.2)

/-- A call that fails changes nothing. -/
private theorem Call.run_of_code_ne (K : Keccak256) (c : Call) (context : Option KeccakPrng)
    (h : (c.run K context).code ≠ 0) :
    (c.run K context).code ∈ [-1, -2, -3] ∧ (c.run K context).context = context ∧ (c.run K context).out = [] := by
  rcases context with _ | sc
  · cases c <;> simp [Call.run]
  · rcases c with (_ | input) | _ | (_ | len)
    · simp [Call.run]
    · simp only [Call.run, KeccakPrng.inject] at h ⊢
      split_ifs at h ⊢ <;> simp_all
    · simp only [Call.run, KeccakPrng.flip] at h ⊢
      split_ifs at h ⊢ <;> simp_all
    · simp [Call.run]
    · simp only [Call.run, KeccakPrng.extract] at h ⊢
      split_ifs at h ⊢ <;> simp_all

private theorem runCalls_append (K : Keccak256) (calls calls' : List Call) (context : Option KeccakPrng) :
    runCalls K (calls ++ calls') context =
      ((runCalls K calls context).1 ++ (runCalls K calls' (runCalls K calls context).2.1).1,
        (runCalls K calls' (runCalls K calls context).2.1).2.1,
        (runCalls K calls context).2.2 ++ (runCalls K calls' (runCalls K calls context).2.1).2.2) := by
  induction calls generalizing context with
  | nil => rfl
  | cons c calls ih => simp [runCalls, ih]

/-- Inputs that fit are collected in order. -/
private theorem runCalls_inject (K : Keccak256) (sc : KeccakPrng) (hf : sc.finalized = false)
    {inputs : List (List UInt8)} (h : sc.buffer.length + inputs.flatten.length ≤ maxBufferSize) :
    runCalls K (inputs.map fun input => .inject (some input)) (some sc) =
      (inputs.map fun _ => 0, some { sc with buffer := sc.buffer ++ inputs.flatten }, []) := by
  induction inputs generalizing sc with
  | nil => simp [runCalls]
  | cons input inputs ih =>
    rw [List.flatten_cons, List.length_append] at h
    have hstep : (Call.inject (some input)).run K (some sc) =
        ⟨0, some { sc with buffer := sc.buffer ++ input }, []⟩ := by
      rw [Call.run, inject_of_le hf (by omega)]
    have hrest := ih { sc with buffer := sc.buffer ++ input } hf (by rw [List.length_append]; omega)
    rw [List.map_cons, runCalls, hstep, hrest, List.flatten_cons, List.append_assoc]
    rfl

/-- Requests continue the stream. -/
private theorem runCalls_extract {K : Keccak256} {S : ByteVec 32} {p : ℕ} {sc : KeccakPrng} (h : AtPos K S sc p)
    (lens : List ℕ) :
    (runCalls K (lens.map fun len => .extract (some len)) (some sc)).1 = lens.map (fun _ => 0) ∧
      (∃ sc', (runCalls K (lens.map fun len => .extract (some len)) (some sc)).2.1 = some sc' ∧
        AtPos K S sc' (p + lens.sum)) ∧
      (runCalls K (lens.map fun len => .extract (some len)) (some sc)).2.2 =
        (List.range' p lens.sum).map (keystream K S) := by
  induction lens generalizing p sc with
  | nil => exact ⟨rfl, ⟨sc, rfl, h⟩, rfl⟩
  | cons len lens ih =>
    obtain ⟨hcode, hat, hout⟩ := extract_spec h len
    obtain ⟨hcodes, ⟨sc', hsc', hat'⟩, houts⟩ := ih hat
    have hstep : (Call.extract (some len)).run K (some sc) =
        ⟨0, some (extract K sc len).2.1, (List.range' p len).map (keystream K S)⟩ := by
      rw [Call.run, hcode, hout]
    rw [List.map_cons, runCalls, hstep, List.sum_cons]
    refine ⟨?_, ⟨sc', hsc', ?_⟩, ?_⟩
    · simp only [hcodes, List.map_cons]
    · rw [← Nat.add_assoc]
      exact hat'
    · simp only [houts]
      rw [← List.map_append, List.range'_append_1]

/-- The stream is made of the hashes of the state with the counters `0, 1, 2, …`. -/
private theorem keystream_blocks (K : Keccak256) (S : ByteVec 32) (n : ℕ) :
    (List.range (32 * n)).map (keystream K S) =
      (List.range n).flatMap fun i => (K (S.1 ++ counterBytes (UInt64.ofNat i))).1 := by
  induction n with
  | zero => rfl
  | succ n ih =>
    have hblock := take_drop_block K S (show 32 * n % 32 + 32 ≤ 32 by omega)
    rw [show 32 * n / 32 = n by omega, show 32 * n % 32 = 0 by omega, List.drop_zero,
      List.take_of_length_le (by rw [(K _).2])] at hblock
    rw [List.range_succ, List.flatMap_append, List.flatMap_singleton, hblock, ← ih, List.range_eq_range',
      List.range_eq_range', ← List.map_append, show 32 * (n + 1) = 32 * n + 32 by omega]
    have happend : List.range' 0 (32 * n) ++ List.range' (0 + 32 * n) 32 = List.range' 0 (32 * n + 32) :=
      List.range'_append_1
    rw [Nat.zero_add] at happend
    rw [happend]

/-- The generator is one stream: it depends on the concatenated inputs only, and the way the output is requested
does not matter; a call that fails leaves the context as it was. -/
theorem stream_faithful (K : Keccak256) (inputs : List (List UInt8)) (lens : List ℕ)
    (hfit : inputs.flatten.length ≤ maxBufferSize) :
    let r := runCalls K (inputs.map (fun input => .inject (some input)) ++ .flip ::
      lens.map fun len => .extract (some len)) (some init)
    let S := K inputs.flatten
    (∀ code ∈ r.1, code = 0) ∧ (∃ sc, r.2.1 = some sc ∧ sc.state = S) ∧
      (∀ n, lens.sum ≤ 32 * n → r.2.2 =
        ((List.range n).flatMap fun i => (K (S.1 ++ counterBytes (UInt64.ofNat i))).1).take lens.sum) ∧
      ∀ (c : Call) (context : Option KeccakPrng), (c.run K context).code ≠ 0 →
        (c.run K context).code ∈ [-1, -2, -3] ∧ (c.run K context).context = context := by
  have hinputs := runCalls_inject K init rfl (by simpa [init] using hfit)
  rw [show init.buffer = [] from rfl, List.nil_append] at hinputs
  -- the context between the two phases
  obtain ⟨mid, hmid⟩ : ∃ mid, mid = { init with buffer := inputs.flatten } := ⟨_, rfl⟩
  rw [← hmid] at hinputs
  have hflip : AtPos K (K inputs.flatten) (flip K mid).2 0 := by
    rw [hmid]
    exact atPos_flip K { init with buffer := inputs.flatten } rfl rfl
  have hcall : Call.flip.run K (some mid) = ⟨0, some (flip K mid).2, []⟩ := by
    rw [hmid]
    rfl
  obtain ⟨hcodes, ⟨sc, hsc, hat⟩, hout⟩ := runCalls_extract hflip lens
  intro r S
  have hr : r = (inputs.map (fun _ => 0) ++ 0 :: lens.map (fun _ => 0), some sc,
      (List.range' 0 lens.sum).map (keystream K S)) := by
    show runCalls K _ _ = _
    rw [runCalls_append, hinputs]
    simp only [runCalls, hcall, List.nil_append]
    rw [hcodes, hsc, hout]
  rw [hr]
  refine ⟨?_, ⟨sc, rfl, hat.state⟩, ?_, ?_⟩
  · intro code hmem
    simp only [List.mem_append, List.mem_cons, List.mem_map] at hmem
    rcases hmem with ⟨_, _, rfl⟩ | rfl | ⟨_, _, rfl⟩ <;> rfl
  · intro n hn
    rw [← keystream_blocks, ← List.map_take, List.take_range, Nat.min_eq_left hn, List.range_eq_range']
  · intro c context h
    have hsame := Call.run_of_code_ne K c context h
    exact ⟨hsame.1, hsame.2.1⟩

/-- A hash of which the blocks show the counter. -/
def lastByteHash : Keccak256 := fun bs => ⟨List.replicate 32 (rd bs 39), List.length_replicate⟩

theorem stream_faithful_sample :
    (runCalls lastByteHash [.inject (some [1]), .inject (some [2, 3]), .flip, .extract (some 20), .extract (some 20)]
      (some init)).2.2 = List.replicate 32 0 ++ List.replicate 8 1 := by
  have h := (stream_faithful lastByteHash [[1], [2, 3]] [20, 20] (by decide)).2.2.1 2 (by decide)
  rw [show List.replicate 32 0 ++ List.replicate 8 1 = ((List.range 2).flatMap fun i =>
    (lastByteHash ((lastByteHash [[1], [2, 3]].flatten).1 ++ counterBytes (UInt64.ofNat i))).1).take [20, 20].sum by
      decide]
  exact h

end KeccakPrng

end DfVrf.Crypto
