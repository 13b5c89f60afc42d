import DfVrf.Contracts.Ntt
import DfVrf.Lib.Bytes

/-!
# The stored parameters of the transform (`DFVRF_NTT.sol`)

The contract stores a modulus, the inverse of the degree and the addresses of two contracts whose code holds the
tables.  `update` replaces them, and `make_immutable` blows a fuse that is meant to prevent it.

* `run_eq_self`: as long as every update has the arguments that are stored, nothing changes.
* `antifuseFinal_iff`: otherwise the parameters change, since `update` has its guard on the wrong side of the fuse, and
  the constructor has blown it.
-/

namespace DfVrf.Contracts

open InPlace Word

/-- The arguments of the constructor and of `update`. -/
structure NttParams where
  apsiRev : Address
  apsiInrev : Address
  q : Word
  nm1modq : Word
  deriving DecidableEq

/-- The storage of `ZKNOX_NTT`. -/
structure NttStorage where
  oPsirev : Address
  oPsiInvRev : Address
  storageQ : Word
  storageNm1modq : Word
  isImmutable : Word

namespace NttStorage

/-- The stored parameters. -/
def params (s : NttStorage) : NttParams := ⟨s.oPsirev, s.oPsiInvRev, s.storageQ, s.storageNm1modq⟩

/-- The constructor. -/
def construct (p : NttParams) : NttStorage where
  oPsirev := p.apsiRev
  oPsiInvRev := p.apsiInrev
  storageQ := p.q
  storageNm1modq := p.nm1modq
  isImmutable := 1

def update (s : NttStorage) (p : NttParams) : NttStorage :=
  if s.isImmutable > 0 then
    { s with storageQ := p.q, storageNm1modq := p.nm1modq, oPsirev := p.apsiRev, oPsiInvRev := p.apsiInrev }
  else s

def makeImmutable (s : NttStorage) : NttStorage := { s with isImmutable := 1 }

/-- The calls that write the storage; anybody can make them. -/
inductive Call where
  | update (p : NttParams)
  | makeImmutable

def step (s : NttStorage) : Call → NttStorage
  | .update p => s.update p
  | .makeImmutable => s.makeImmutable

def run (s : NttStorage) (calls : List Call) : NttStorage := calls.foldl step s

end NttStorage

/-! ### The transform with the stored parameters -/

/-- `extcodecopy` of the word `i`; behind the end of the code there are zeros. -/
def codeWord (code : List UInt8) (i : ℕ) : Word := Word.ofBytes ((List.range' (32 * i) 32).map (rd code))

/-- The body of the inner loop of the stateful `ZKNOX_NTTFW`. -/
def storedNttfwButterfly (q S : Word) (t : ℕ) (a : List Word) (j : ℕ) : List Word :=
  let U := rd a j
  let V := mulmod (rd a (j + t)) S q
  let a := a.set (j + t) (addmod U (q - V) q)
  a.set j (addmod U V q)

/-- One iteration of the outer loop of the stateful `ZKNOX_NTTFW` on the state `(t, m, a)`. -/
def storedNttfwRound (q : Word) (psirev : ℕ → Word) (st : ℕ × ℕ × List Word) : ℕ × ℕ × List Word :=
  let t := st.1 >>> 1
  let m := st.2.1
  let a := (List.range m).foldl (fun a i =>
    (List.range' ((i * t) <<< 1) t).foldl (storedNttfwButterfly q (psirev (i + m)) t) a) st.2.2
  (t, m <<< 1, a)

/-- The stateful `ZKNOX_NTTFW`; `m` doubles from `1` while it is below `n`, hence at most `n` times. -/
def storedNttfw (code : Address → List UInt8) (s : NttStorage) (a : List Word) (apsirev : Address) :
    Option (List Word) :=
  let n := a.length
  (Checked.runWhile (fun st => decide (n > st.2.1))
    (fun st => some (storedNttfwRound s.storageQ (codeWord (code apsirev)) st)) n (n, 1, a)).map fun st => st.2.2

/-- The body of the inner loop of the stateful `ZKNOX_NTTINV`. -/
def storedNttinvButterfly (q S : Word) (t : ℕ) (a : List Word) (j : ℕ) : List Word :=
  let U := rd a j
  let V := rd a (j + t)
  let a := a.set (j + t) (mulmod (addmod U (q - V) q) S q)
  a.set j (addmod U V q)

/-- One iteration of the outer loop of the stateful `ZKNOX_NTTINV` on the state `(t, m, a)`. -/
def storedNttinvRound (q : Word) (psiinvrev : ℕ → Word) (st : ℕ × ℕ × List Word) : ℕ × ℕ × List Word :=
  let t := st.1
  let h := st.2.1 >>> 1
  let r := (List.range h).foldl (fun (st : ℕ × List Word) i =>
    (st.1 + t <<< 1, (List.range' st.1 t).foldl (storedNttinvButterfly q (psiinvrev (i + h)) t) st.2)) (0, st.2.2)
  (t <<< 1, st.2.1 >>> 1, r.2)

/-- The stateful `ZKNOX_NTTINV`; `m` halves from `n` while it is above `1`, hence at most `n` times. -/
def storedNttinv (code : Address → List UInt8) (s : NttStorage) (a : List Word) (apsiinvrev : Address) :
    Option (List Word) :=
  (Checked.runWhile (fun st => decide (st.2.1 > 1))
    (fun st => some (storedNttinvRound s.storageQ (codeWord (code apsiinvrev)) st)) a.length (1, a.length, a)).map
      fun st => st.2.2.map fun x => mulmod x s.storageNm1modq s.storageQ

/-- `ZKNOX_VECMULMOD`; `none` is a failed assertion or the modulus zero. -/
def zknoxVecmulmod (a b : List Word) (q : Word) : Option (List Word) :=
  if a.length = b.length then (List.range a.length).mapM fun i => mulmodChecked (rd a i) (rd b i) q else none

/-- The stateful `ZKNOX_NTT_HALFMUL`; `code` is the code of the other contracts, and `none` means that the call
reverts. -/
def storedHalfmul (code : Address → List UInt8) (s : NttStorage) (a b : List Word) : Option (List Word) := do
  let fw ← storedNttfw code s a s.oPsirev
  let prod ← zknoxVecmulmod fw b s.storageQ
  storedNttinv code s prod s.oPsiInvRev

namespace NttStorage

/-! ### The fuse -/

/-- Once the fuse is blown, the calls change neither the parameters nor the function, at any time. -/
def AntifuseFinal (s : NttStorage) (calls : List Call) : Prop :=
  s.isImmutable > 0 → ∀ calls', calls' <+: calls →
    (run s calls').params = s.params ∧ ∀ code a b, storedHalfmul code (run s calls') a b = storedHalfmul code s a b

private theorem run_append (s : NttStorage) (calls calls' : List Call) :
    run s (calls ++ calls') = run (run s calls) calls' :=
  List.foldl_append

private theorem isImmutable_step {s : NttStorage} (h : s.isImmutable = 1) (c : Call) : (step s c).isImmutable = 1 := by
  rcases c with p | _
  · rw [step, update]
    split <;> exact h
  · rfl

/-- The fuse is blown in every reachable state. -/
private theorem isImmutable_run {s : NttStorage} (h : s.isImmutable = 1) (calls : List Call) :
    (run s calls).isImmutable = 1 := by
  induction calls generalizing s with
  | nil => exact h
  | cons c calls ih => exact ih (isImmutable_step h c)

/-- With the fuse blown an update is carried out. -/
private theorem params_update {s : NttStorage} (h : s.isImmutable = 1) (p : NttParams) : (s.update p).params = p := by
  rw [update, if_pos (by rw [h]; decide)]
  rfl

private theorem step_eq_self {s : NttStorage} (h : s.isImmutable = 1) {c : Call}
    (hc : ∀ p, c = .update p → p = s.params) :
    step s c = s := by
  rcases c with p | _
  · obtain rfl := hc p rfl
    rw [step, update]
    split <;> rfl
  · rw [step, makeImmutable, ← h]

theorem run_eq_self {s : NttStorage} (h : s.isImmutable = 1) {calls : List Call}
    (hc : ∀ p, Call.update p ∈ calls → p = s.params) : run s calls = s := by
  induction calls with
  | nil => rfl
  | cons c calls ih =>
    have hstep : step s c = s := by
      apply step_eq_self h
      rintro p rfl
      exact hc p List.mem_cons_self
    rw [run, List.foldl_cons, hstep]
    exact ih fun p hp => hc p (List.mem_cons_of_mem c hp)

/-- The fuse is final on those sequences of calls of which the updates do not change anything. -/
theorem antifuseFinal_iff (p : NttParams) (before after : List Call) :
    AntifuseFinal (run (construct p) before) after ↔
      ∀ p', Call.update p' ∈ after → p' = (run (construct p) before).params := by
  have hone : (run (construct p) before).isImmutable = 1 := isImmutable_run rfl before
  generalize run (construct p) before = s at hone
  constructor
  · intro hfinal p' hmem
    obtain ⟨calls, rest, rfl⟩ := List.append_of_mem hmem
    -- the state right after this update
    have hinit : calls ++ [Call.update p'] <+: calls ++ Call.update p' :: rest := by simp
    have hparams := (hfinal (by rw [hone]; decide) _ hinit).1
    rw [run_append] at hparams
    exact (params_update (isImmutable_run hone calls) p').symm.trans hparams
  · intro hc _ calls' hinit
    have hself : run s calls' = s := run_eq_self hone fun p' hp => hc p' (hinit.subset hp)
    rw [hself]
    exact ⟨rfl, fun _ _ _ => rfl⟩

/-- The modulus 12289 is replaced right after the construction. -/
theorem not_antifuseFinal : ¬ AntifuseFinal (construct ⟨1, 2, 12289, 12265⟩) [.update ⟨1, 2, 3329, 3303⟩] := by
  intro h
  have hq := congrArg NttParams.q (h (by decide) _ (List.prefix_refl _)).1
  exact absurd hq (by decide)

end NttStorage

end DfVrf.Contracts
