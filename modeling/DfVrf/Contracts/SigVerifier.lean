import DfVrf.Contracts.VrfFalcon
import DfVrf.Lib.Memory

/-!
# The byte interface of the verifiers (`DFVRF_ethfalcon.sol`, `DFVRF_falcon.sol`)

`verify(bytes,bytes32,bytes)` copies the signature to memory and the salt behind it.  The polynomial is not copied: a
length is written over the end of the salt, so that the rest of the signature becomes an array of words.

* `readParsed_of_le`: the arrays are the first 40 bytes and the whole words behind them.
* `verifyBytes_eq_selector_iff`: a signature is accepted if there are 32 whole words and the verifier on words accepts.
-/

namespace DfVrf.Contracts

open InPlace Word

/-- A byte string of the calldata; the decoder refuses longer ones. -/
abbrev CalldataBytes := { bs : List UInt8 // bs.length < 2 ^ 64 }

/-- `ISigVerifier.verify.selector`, from the signature `verify(bytes,bytes32,bytes)`. -/
def verifySelector : BitVec 32 := 0x024ad318

/-- A verifier on words, with its arguments in the order digest, salt, `s2` and `ntth`. -/
abbrev VerifyWords := List UInt8 → List UInt8 → List Word → List Word → Option (Except String Bool)

/-- `ZKNOX_ethfalcon.verify` on words. -/
def ethfalconVerifyWords (K : Crypto.Keccak256) (fuel fmp : ℕ) : VerifyWords :=
  verifyWith (hashToPointEVM K fuel) fmp

/-- `ZKNOX_falcon.verify` on words. -/
def falconVerifyWords (f : Lanes → Lanes) (fuel fmp : ℕ) : VerifyWords :=
  verifyWith (hashToPointNIST f fuel) fmp

/-- The words of a byte string, without the bytes behind the last whole word. -/
def wordsOfBytes (bs : List UInt8) : List Word :=
  (List.range (bs.length / 32)).map fun i => ofBytes ((bs.drop (32 * i)).take 32)

/-- `_packSignature`; a salt with less than 40 bytes is a panic. -/
def packSignature (salt : List UInt8) (s2 : List Word) : Option (List UInt8) :=
  if salt.length < 40 then none else some (salt.take 40 ++ s2.flatMap bytes)

/-! ### The signature in memory -/

/-- `bytes memory sig = _sig`, for an allocation at `sig`. -/
def copySig (mem : Memory) (sig : ℕ) (bs : List UInt8) : Memory :=
  let mem := mem.store sig (BitVec.ofNat 256 bs.length)
  let mem := mem.storeBytes (sig + 32) bs
  mem.store (sig + 32 + bs.length) 0

/-- The free memory pointer behind the signature. -/
def freeBehindSig (sig : ℕ) (bs : List UInt8) : ℕ := sig + 32 + 32 * ((bs.length + 31) / 32)

/-- The assembly that makes two arrays of the signature: the memory, `saltPtr` and `s2Ptr`. -/
def parseSig (mem : Memory) (sig freePtr : ℕ) : Memory × ℕ × ℕ :=
  let saltPtr := freePtr
  let mem := mem.store saltPtr 40
  let src := sig + 32
  let dst := saltPtr + 32
  -- 40 bytes of the salt, in two words
  let mem := mem.copyWords src dst 2
  let saltAllocSize := 64
  let freePtr := freePtr + (32 + saltAllocSize)
  let s2DataStart := src + 40
  let s2LengthSlot := s2DataStart - 32
  let savedPtr := freePtr
  let mem := mem.store savedPtr (mem.load sig)
  let mem := mem.store (savedPtr + 32) (mem.load s2LengthSlot)
  let mem := mem.store s2LengthSlot ((mem.load sig - 40) / 32)
  (mem, saltPtr, s2LengthSlot)

/-- The salt and the polynomial that are passed on. -/
def readParsed (mem : Memory) (sig : ℕ) (bs : List UInt8) : List UInt8 × List Word :=
  let r := parseSig (copySig mem sig bs) sig (freeBehindSig sig bs)
  (r.1.readBytes r.2.1, r.1.readWords r.2.2)

/-- `shr(96, calldataload(_pubkey.offset))`; `beyond` is the calldata behind the key. -/
def pkContractAddress (beyond : ℕ → UInt8) (pubkey : List UInt8) : Address :=
  (ofBytes ((List.range 32).map fun i =>
    if i < pubkey.length then rd pubkey i else beyond (i - pubkey.length)) >>> 96).setWidth 160

/-- `verify(bytes,bytes32,bytes)`.  The key is read by `readKey`, which may revert; `mem` is the memory before the
signature is copied to the address `sig`.  If the length of the polynomial wraps, the call fails either way, while the
array is encoded or by the test of its length; what is written back to the signature afterwards is not read any more. -/
def verifyBytes (verifyWords : VerifyWords) (readKey : Address → Option (List Word)) (mem : Memory) (sig : ℕ)
    (beyond : ℕ → UInt8) (pubkey : List UInt8) (digest : Word) (bs : CalldataBytes) :
    Option (Except String (BitVec 32)) :=
  match readKey (pkContractAddress beyond pubkey) with
  | none => some (.error "")
  | some ntth =>
    let r := readParsed mem sig bs.1
    (verifyWords (bytes digest) r.1 r.2 ntth).map fun res =>
      res.map fun result => if result then verifySelector else 0xFFFFFFFF

/-! ### Words and bytes -/

@[simp] theorem length_wordsOfBytes (bs : List UInt8) : (wordsOfBytes bs).length = bs.length / 32 := by
  simp [wordsOfBytes]

theorem wordsOfBytes_append {as bs : List UInt8} (h : as.length = 32) :
    wordsOfBytes (as ++ bs) = ofBytes as :: wordsOfBytes bs := by
  rw [wordsOfBytes, wordsOfBytes, List.length_append, h, show (32 + bs.length) / 32 = bs.length / 32 + 1 by omega,
    List.range_succ_eq_map, List.map_cons, List.map_map, Nat.mul_zero, List.drop_zero, List.take_left' h]
  congr 1
  refine List.map_congr_left fun i _ => ?_
  rw [Function.comp_apply, show 32 * i.succ = 32 + 32 * i by omega, ← List.drop_drop, List.drop_left' h]

private theorem flatMap_bytes_wordsOfBytes {bs : List UInt8} {k : ℕ} (h : bs.length = 32 * k) :
    (wordsOfBytes bs).flatMap bytes = bs := by
  induction k generalizing bs with
  | zero =>
    obtain rfl : bs = [] := List.length_eq_zero_iff.1 h
    rfl
  | succ k ih =>
    have hdrop : (bs.drop 32).length = 32 * k := by
      rw [List.length_drop]
      omega
    have htake : (bs.take 32).length = 32 := by
      rw [List.length_take]
      omega
    have hwords : wordsOfBytes (bs.take 32 ++ bs.drop 32) = _ := wordsOfBytes_append htake
    rw [List.take_append_drop] at hwords
    rw [hwords, List.flatMap_cons, bytes_ofBytes htake, ih hdrop, List.take_append_drop]

/-- A string of the right length is a packed signature. -/
theorem packSignature_take_drop {bs : List UInt8} (h : bs.length = 1064) :
    packSignature (bs.take 40) (wordsOfBytes (bs.drop 40)) = some bs := by
  have hdrop : (bs.drop 40).length = 32 * 32 := by
    rw [List.length_drop]
    omega
  rw [packSignature, if_neg (by rw [List.length_take]; omega), List.take_take, Nat.min_self,
    flatMap_bytes_wordsOfBytes hdrop, List.take_append_drop]

/-! ### What is passed on -/

section

variable (mem : Memory) (sig : ℕ) (bs : List UInt8)

private theorem le_freeBehindSig : sig + 32 + bs.length ≤ freeBehindSig sig bs := by
  unfold freeBehindSig
  omega

private theorem load_copySig : (copySig mem sig bs).load sig = BitVec.ofNat 256 bs.length := by
  have hdata : ((mem.store sig (BitVec.ofNat 256 bs.length)).storeBytes (sig + 32) bs).load sig =
      (mem.store sig (BitVec.ofNat 256 bs.length)).load sig := by
    apply Memory.load_congr
    intro a _ ha
    exact Memory.storeBytes_apply_of_not (by omega)
  rw [copySig, Memory.load_store_of_disjoint _ (by omega), hdata, Memory.load_store]

private theorem copySig_apply {i : ℕ} (hi : i < bs.length) : copySig mem sig bs (sig + 32 + i) = rd bs i := by
  rw [copySig, Memory.store_apply_of_not _ (by omega), Memory.storeBytes_apply_of_lt hi]

/-- The length that is written over the end of the salt. -/
private theorem load_s2Ptr (freePtr : ℕ) (hf : sig + 32 ≤ freePtr) :
    (parseSig mem sig freePtr).1.load (parseSig mem sig freePtr).2.2 = (mem.load sig - 40) / 32 := by
  have hcopy : ((mem.store freePtr 40).copyWords (sig + 32) (freePtr + 32) 2).load sig = mem.load sig := by
    apply Memory.load_congr
    intro a _ ha
    rw [Memory.copyWords_apply_of_not (by omega), Memory.store_apply_of_not _ (by omega)]
  simp only [parseSig, Memory.load_store]
  rw [Memory.load_store_of_disjoint _ (by omega), Memory.load_store_of_disjoint _ (by omega), hcopy]

/-- Between the length and the free memory the signature is not changed. -/
private theorem parseSig_apply_of_lt {freePtr a : ℕ} (h1 : sig + 72 ≤ a) (h2 : a < freePtr) :
    (parseSig mem sig freePtr).1 a = mem a := by
  rw [parseSig]
  simp only
  rw [Memory.store_apply_of_not _ (by omega), Memory.store_apply_of_not _ (by omega),
    Memory.store_apply_of_not _ (by omega), Memory.copyWords_apply_of_not (by omega),
    Memory.store_apply_of_not _ (by omega)]

/-- Behind a signature of at least two words there is the salt. -/
private theorem parseSig_apply_salt {freePtr i : ℕ} (hf : sig + 96 ≤ freePtr) (hi : i < 64) :
    (parseSig mem sig freePtr).1 (freePtr + 32 + i) = mem (sig + 32 + i) := by
  rw [parseSig]
  simp only
  rw [Memory.store_apply_of_not _ (by omega), Memory.store_apply_of_not _ (by omega),
    Memory.store_apply_of_not _ (by omega), Memory.copyWords_apply (by omega) (by omega),
    Memory.store_apply_of_not _ (by omega)]

private theorem load_saltPtr {freePtr : ℕ} (hf : sig + 96 ≤ freePtr) :
    (parseSig mem sig freePtr).1.load freePtr = 40 := by
  have hcopy : ((mem.store freePtr 40).copyWords (sig + 32) (freePtr + 32) 2).load freePtr =
      (mem.store freePtr 40).load freePtr := by
    apply Memory.load_congr
    intro a _ ha
    exact Memory.copyWords_apply_of_not (by omega)
  rw [parseSig]
  simp only
  rw [Memory.load_store_of_disjoint _ (by omega), Memory.load_store_of_disjoint _ (by omega),
    Memory.load_store_of_disjoint _ (by omega), hcopy, Memory.load_store]

variable {bs}

/-- A signature that holds a salt is split behind it. -/
theorem readParsed_of_le (h : 40 ≤ bs.length) (hlt : bs.length < 2 ^ 64) :
    readParsed mem sig bs = (bs.take 40, wordsOfBytes (bs.drop 40)) := by
  have hfree := le_freeBehindSig sig bs
  have hfree96 : sig + 96 ≤ freeBehindSig sig bs := by
    unfold freeBehindSig
    omega
  have hnat : (BitVec.ofNat 256 bs.length).toNat = bs.length := by
    rw [BitVec.toNat_ofNat]
    omega
  have hlen : ((BitVec.ofNat 256 bs.length - 40) / 32 : Word).toNat = (bs.length - 40) / 32 := by
    rw [BitVec.toNat_udiv, toNat_sub_of_le (by rw [hnat]; exact h), hnat]
    rfl
  have hsalt : (parseSig (copySig mem sig bs) sig (freeBehindSig sig bs)).1.readBytes
      (parseSig (copySig mem sig bs) sig (freeBehindSig sig bs)).2.1 = bs.take 40 := by
    have h40 := load_saltPtr (copySig mem sig bs) sig hfree96
    rw [show (parseSig (copySig mem sig bs) sig (freeBehindSig sig bs)).2.1 = freeBehindSig sig bs from rfl,
      Memory.readBytes, h40, show (40 : Word).toNat = 40 from rfl]
    apply ext_rd
    · rw [Memory.length_bytesAt, List.length_take]
      exact (Nat.min_eq_left h).symm
    · intro i hi
      have hi : i < 40 := by simpa using hi
      rw [Memory.rd_bytesAt _ _ hi, parseSig_apply_salt _ _ hfree96 (by omega), copySig_apply _ _ _ (by omega),
        rd_take hi]
  have hs2 : (parseSig (copySig mem sig bs) sig (freeBehindSig sig bs)).1.readWords
      (parseSig (copySig mem sig bs) sig (freeBehindSig sig bs)).2.2 = wordsOfBytes (bs.drop 40) := by
    have hload := load_s2Ptr (copySig mem sig bs) sig (freeBehindSig sig bs) (by omega)
    rw [Memory.readWords, hload, load_copySig, hlen, wordsOfBytes, List.length_drop]
    refine List.map_congr_left fun i hi => ?_
    have hi := List.mem_range.1 hi
    -- the word `i` lies between the length and the end of the signature
    rw [show (parseSig (copySig mem sig bs) sig (freeBehindSig sig bs)).2.2 = sig + 40 from rfl, Memory.load]
    congr 1
    apply ext_rd
    · rw [Memory.length_bytesAt, List.length_take, List.length_drop, List.length_drop]
      omega
    · intro j hj
      have hj : j < 32 := by simpa using hj
      rw [Memory.rd_bytesAt _ _ hj, parseSig_apply_of_lt _ _ (by omega) (by omega),
        show sig + 40 + 32 + 32 * i + j = sig + 32 + (40 + 32 * i + j) by omega, copySig_apply _ _ _ (by omega),
        rd_take hj, rd_drop, rd_drop]
      congr 1
      omega
  rw [readParsed, hsalt, hs2]

/-- The length of the polynomial wraps if there is no salt. -/
private theorem length_readParsed_of_lt (h : bs.length < 40) : (readParsed mem sig bs).2.length ≠ 32 := by
  have hfree := le_freeBehindSig sig bs
  have hload := load_s2Ptr (copySig mem sig bs) sig (freeBehindSig sig bs) (by omega)
  rw [load_copySig] at hload
  rw [readParsed, Memory.readWords, List.length_map, List.length_range, hload, BitVec.toNat_udiv, BitVec.toNat_sub,
    BitVec.toNat_ofNat, show (40 : Word).toNat = 40 from rfl, show (32 : Word).toNat = 32 from rfl]
  omega

end

theorem selector_iff {r : Option (Except String Bool)} :
    (r.map fun res => res.map fun result => if result then verifySelector else 0xFFFFFFFF) =
      some (.ok verifySelector) ↔ r = some (.ok true) := by
  rcases r with _ | err | _ | _
  · simp
  · simp [Except.map]
  · simp [Except.map, verifySelector]
  · simp [Except.map]

/-- A signature is accepted if there are 32 whole words behind the salt, and the verifier on words accepts. -/
theorem verifyBytes_eq_selector_iff {hashToPoint : List UInt8 → List UInt8 → Option (List Word)} {fmp : ℕ}
    {readKey : Address → Option (List Word)} {mem : Memory} {sig : ℕ} {beyond : ℕ → UInt8} {pubkey : List UInt8}
    {digest : Word} {bs : CalldataBytes} :
    verifyBytes (verifyWith hashToPoint fmp) readKey mem sig beyond pubkey digest bs = some (.ok verifySelector) ↔
      1064 ≤ bs.1.length ∧ bs.1.length < 1096 ∧ ∃ ntth, readKey (pkContractAddress beyond pubkey) = some ntth ∧
        verifyWith hashToPoint fmp (bytes digest) (bs.1.take 40) (wordsOfBytes (bs.1.drop 40)) ntth =
          some (.ok true) := by
  rw [verifyBytes]
  rcases hkey : readKey (pkContractAddress beyond pubkey) with _ | ntth
  · simp
  · simp only [selector_iff]
    constructor
    · intro hv
      have hlen := (verifyWith_eq_true.1 hv).2.1
      have h40 : 40 ≤ bs.1.length := by
        by_contra hc
        exact length_readParsed_of_lt mem sig (by omega) hlen
      rw [readParsed_of_le mem sig h40 bs.2] at hv hlen
      rw [length_wordsOfBytes, List.length_drop] at hlen
      exact ⟨by omega, by omega, ntth, rfl, hv⟩
    · rintro ⟨h1, _, ntth', hntth, hv⟩
      obtain rfl := Option.some.inj hntth
      rwa [readParsed_of_le mem sig (by omega) bs.2]

end DfVrf.Contracts
