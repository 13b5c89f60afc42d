import DfVrf.Lib.Bytes

/-!
# Words of 16 bits

A byte string of even length is a list of big-endian words (`ofWords_words`, `words_ofWords`).  A codec may work word by
word (`WordCodec`).

* `WordCodec.roundTrips_iff`: the decoder inverts the encoder on a list exactly if it does so on each entry.
* `WordCodec.canonical_iff`: the encoder gives back the bytes of an accepted string exactly if it gives back each word.
-/

namespace Bytes

/-- The big-endian words of 16 bits of a byte string; a last byte that is left over is dropped. -/
def words : List UInt8 → List UInt16
  | a :: b :: bs => UInt16.ofNat (a.toNat * 256 + b.toNat) :: words bs
  | _ => []

/-- The bytes of a list of words. -/
def ofWords (ws : List UInt16) : List UInt8 := ws.flatMap fun w : UInt16 => [(w >>> 8).toUInt8, w.toUInt8]

@[simp] theorem ofWords_cons (w : UInt16) (ws : List UInt16) :
    ofWords (w :: ws) = (w >>> 8).toUInt8 :: w.toUInt8 :: ofWords ws := rfl

@[simp] theorem length_ofWords (ws : List UInt16) : (ofWords ws).length = 2 * ws.length := by
  induction ws with
  | nil => rfl
  | cons w ws ih =>
    simp only [ofWords_cons, List.length_cons, ih]
    omega

theorem toNat_high (w : UInt16) : (w >>> 8).toUInt8.toNat = w.toNat / 256 := by
  have hw := w.toNat_lt
  rw [UInt16.toNat_toUInt8, UInt16.toNat_shiftRight, Nat.shiftRight_eq_div_pow]
  exact Nat.mod_eq_of_lt (by rw [show 2 ^ ((8 : UInt16).toNat % 16) = 256 from rfl]; omega)

theorem words_ofWords (ws : List UInt16) : words (ofWords ws) = ws := by
  induction ws with
  | nil => rfl
  | cons w ws ih =>
    have hw := w.toNat_lt
    rw [ofWords_cons, words, ih, toNat_high, UInt16.toNat_toUInt8]
    congr 1
    apply UInt16.toNat_inj.1
    rw [UInt16.toNat_ofNat']
    omega

theorem ofWords_injective {ws ws' : List UInt16} (h : ofWords ws = ofWords ws') : ws = ws' := by
  rw [← words_ofWords ws, h, words_ofWords]

/-- A byte string of even length consists of its words. -/
theorem ofWords_words {k : ℕ} {bs : List UInt8} (h : bs.length = 2 * k) : ofWords (words bs) = bs := by
  induction k generalizing bs with
  | zero =>
    obtain rfl : bs = [] := List.length_eq_zero_iff.1 h
    rfl
  | succ k ih =>
    rcases bs with _ | ⟨a, _ | ⟨b, bs⟩⟩
    · simp at h
    · simp at h
      omega
    · have ha := a.toNat_lt
      have hb := b.toNat_lt
      have hl : bs.length = 2 * k := by
        rw [List.length_cons, List.length_cons] at h
        omega
      have hw : (UInt16.ofNat (a.toNat * 256 + b.toNat)).toNat = a.toNat * 256 + b.toNat := by
        rw [UInt16.toNat_ofNat']
        exact Nat.mod_eq_of_lt (by omega)
      rw [words, ofWords_cons, ih hl]
      congr 1
      · apply UInt8.toNat_inj.1
        rw [toNat_high, hw]
        omega
      · congr 1
        apply UInt8.toNat_inj.1
        rw [UInt16.toNat_toUInt8, hw]
        omega

end Bytes

/-! ### Partial maps on lists -/

namespace Entrywise

variable {α β : Type*} {enc : β → α} {dec : α → Option β}

theorem mapM_cons (a : α) (as : List α) :
    (a :: as).mapM dec = (dec a).bind fun b => (as.mapM dec).map fun bs => b :: bs := by
  rw [List.mapM_cons]
  cases dec a with
  | none => rfl
  | some b =>
    cases as.mapM dec with
    | none => rfl
    | some bs => rfl

/-- A list is mapped exactly if each entry is. -/
theorem isSome_mapM_iff (as : List α) : (as.mapM dec).isSome ↔ ∀ a ∈ as, (dec a).isSome := by
  induction as with
  | nil => simp
  | cons a as ih =>
    rw [mapM_cons, List.forall_mem_cons, ← ih]
    cases dec a with
    | none => simp
    | some b => simp

/-- Decoding inverts encoding on a list exactly if it does so on each entry. -/
theorem mapM_map_eq_some_iff (xs : List β) :
    (xs.map enc).mapM dec = some xs ↔ ∀ x ∈ xs, dec (enc x) = some x := by
  induction xs with
  | nil => simp
  | cons x xs ih =>
    rw [List.map_cons, mapM_cons, List.forall_mem_cons, ← ih]
    cases dec (enc x) with
    | none => simp
    | some y =>
      cases (xs.map enc).mapM dec with
      | none => simp
      | some ys => simp

/-- Encoding inverts decoding on a list that is decoded, to entries with a property, exactly if it does so on each
entry. -/
theorem map_eq_of_mapM_iff {p : β → Prop} {as : List α} {xs : List β} (h : as.mapM dec = some xs) :
    (∀ x ∈ xs, p x) ∧ xs.map enc = as ↔ ∀ a ∈ as, ∃ x, dec a = some x ∧ p x ∧ enc x = a := by
  induction as generalizing xs with
  | nil =>
    obtain rfl : [] = xs := Option.some.inj h
    simp
  | cons a as ih =>
    rw [mapM_cons] at h
    obtain ⟨x, hx, h⟩ := Option.bind_eq_some_iff.1 h
    obtain ⟨ys, hys, rfl⟩ := Option.map_eq_some_iff.1 h
    have hhead : (∃ y, dec a = some y ∧ p y ∧ enc y = a) ↔ p x ∧ enc x = a := by
      simp [hx]
    rw [List.map_cons, List.cons.injEq, List.forall_mem_cons, List.forall_mem_cons, hhead, ← ih hys]
    tauto

theorem mapM_eq_map {f : α → β} {as : List α} (h : ∀ a ∈ as, dec a = some (f a)) :
    as.mapM dec = some (as.map f) := by
  induction as with
  | nil => rfl
  | cons a as ih =>
    obtain ⟨ha, has⟩ := List.forall_mem_cons.1 h
    rw [mapM_cons, ha, ih has]
    rfl

end Entrywise

/-! ### Codecs -/

/-- A codec of entries with 16 bits: which entries are refused, the word of an entry, and the entry of a word. -/
structure WordCodec (β : Type*) where
  refuses : β → Bool
  enc : β → UInt16
  dec : UInt16 → Option β

namespace WordCodec

open Bytes Entrywise

variable {β : Type*} (c : WordCodec β)

/-- The encoding of `n` entries into `room` bytes. -/
def encode (n room : ℕ) (xs : List β) : Option (List UInt8) :=
  if xs.any c.refuses then none
  else if 2 * n > room then none
  else some (ofWords (xs.map c.enc))

/-- The decoding of `n` entries: the entries and the number of bytes read. -/
def decode (n : ℕ) (buf : List UInt8) : Option (List β × ℕ) :=
  if 2 * n > buf.length then none
  else ((words (buf.take (2 * n))).mapM c.dec).map fun xs => (xs, 2 * n)

/-- The bytes of `n` words are there, and each word is admitted. -/
def Accepts (n : ℕ) (buf : List UInt8) : Prop :=
  2 * n ≤ buf.length ∧ ∀ w ∈ words (buf.take (2 * n)), (c.dec w).isSome

/-- Encoding `n` entries and decoding the result gives them back, with the same number of bytes. -/
def RoundTrips (n : ℕ) (xs : List β) : Prop :=
  ∀ room ≥ 2 * n, ∃ out, c.encode n room xs = some out ∧ c.decode n out = some (xs, out.length)

/-- If a byte string is accepted, encoding the result gives back the bytes read. -/
def Canonical (n : ℕ) (buf : List UInt8) : Prop :=
  ∀ xs v, c.decode n buf = some (xs, v) → ∀ room ≥ v, c.encode n room xs = some (buf.take v)

variable {c}

theorem encode_eq {n room : ℕ} {xs : List β} (hx : ∀ x ∈ xs, c.refuses x = false) (hroom : 2 * n ≤ room) :
    c.encode n room xs = some (ofWords (xs.map c.enc)) := by
  have hany : ¬ xs.any c.refuses = true := by
    rw [Bool.not_eq_true, List.any_eq_false]
    intro x hx'
    rw [hx x hx']
    exact Bool.false_ne_true
  rw [encode, if_neg hany, if_neg (by omega)]

theorem encode_eq_some_iff {n room : ℕ} {xs : List β} {out : List UInt8} : c.encode n room xs = some out ↔
    (∀ x ∈ xs, c.refuses x = false) ∧ 2 * n ≤ room ∧ ofWords (xs.map c.enc) = out := by
  constructor
  · intro h
    rw [encode] at h
    split at h
    · exact absurd h (by simp)
    · rename_i hany
      split at h
      · exact absurd h (by simp)
      · rw [Bool.not_eq_true, List.any_eq_false] at hany
        exact ⟨fun x hx => Bool.not_eq_true _ ▸ hany x hx, by omega, Option.some.inj h⟩
  · rintro ⟨hx, hroom, rfl⟩
    exact encode_eq hx hroom

theorem decode_eq_some_iff {n v : ℕ} {buf : List UInt8} {xs : List β} : c.decode n buf = some (xs, v) ↔
    2 * n ≤ buf.length ∧ (words (buf.take (2 * n))).mapM c.dec = some xs ∧ v = 2 * n := by
  rw [decode]
  split
  · rename_i h
    exact ⟨fun hc => absurd hc (by simp), fun hc => absurd hc.1 (by omega)⟩
  · rename_i h
    rw [Option.map_eq_some_iff]
    constructor
    · rintro ⟨ys, hys, heq⟩
      obtain ⟨rfl, rfl⟩ := Prod.mk.inj heq
      exact ⟨by omega, hys, rfl⟩
    · rintro ⟨-, hys, rfl⟩
      exact ⟨xs, hys, rfl⟩

theorem isSome_decode_iff {n : ℕ} {buf : List UInt8} : (c.decode n buf).isSome ↔ c.Accepts n buf := by
  rw [Accepts, ← isSome_mapM_iff, decode]
  split
  · rename_i h
    exact ⟨fun hc => absurd hc (by simp), fun hc => absurd hc.1 (by omega)⟩
  · rename_i h
    rw [Option.isSome_map]
    exact ⟨fun hc => ⟨by omega, hc⟩, fun hc => hc.2⟩

/-- What the decoder makes of the words of a list. -/
theorem decode_ofWords {n : ℕ} {ws : List UInt16} (hl : ws.length = n) :
    c.decode n (ofWords ws) = (ws.mapM c.dec).map fun xs => (xs, 2 * n) := by
  have hlen := length_ofWords ws
  rw [hl] at hlen
  rw [decode, if_neg (by omega), List.take_of_length_le (by omega), words_ofWords]

theorem roundTrips_iff {n : ℕ} {xs : List β} (hl : xs.length = n) (hx : ∀ x ∈ xs, c.refuses x = false) :
    c.RoundTrips n xs ↔ ∀ x ∈ xs, c.dec (c.enc x) = some x := by
  have hl' : (xs.map c.enc).length = n := by rw [List.length_map, hl]
  have hout : (ofWords (xs.map c.enc)).length = 2 * n := by rw [length_ofWords, hl']
  rw [← mapM_map_eq_some_iff]
  constructor
  · intro h
    obtain ⟨out, henc, hdec⟩ := h (2 * n) le_rfl
    rw [encode_eq hx le_rfl] at henc
    obtain rfl := Option.some.inj henc
    rw [decode_ofWords hl'] at hdec
    obtain ⟨ys, hys, heq⟩ := Option.map_eq_some_iff.1 hdec
    rw [hys, (Prod.mk.inj heq).1]
  · intro h room hroom
    refine ⟨_, encode_eq hx hroom, ?_⟩
    rw [decode_ofWords hl', h, hout, Option.map_some]

theorem canonical_iff {n : ℕ} {buf : List UInt8} : c.Canonical n buf ↔ ¬ c.Accepts n buf ∨
    ∀ w ∈ words (buf.take (2 * n)), ∃ x, c.dec w = some x ∧ c.refuses x = false ∧ c.enc x = w := by
  by_cases hacc : c.Accepts n buf
  · obtain ⟨xs, hxs⟩ := Option.isSome_iff_exists.1 ((isSome_mapM_iff _).2 hacc.2)
    have hdec : c.decode n buf = some (xs, 2 * n) := decode_eq_some_iff.2 ⟨hacc.1, hxs, rfl⟩
    have hlen : (buf.take (2 * n)).length = 2 * n := by
      rw [List.length_take]
      exact min_eq_left hacc.1
    rw [← map_eq_of_mapM_iff hxs, or_iff_right (not_not.2 hacc)]
    constructor
    · intro h
      obtain ⟨hx, -, hout⟩ := encode_eq_some_iff.1 (h xs (2 * n) hdec (2 * n) le_rfl)
      rw [← ofWords_words hlen] at hout
      exact ⟨hx, ofWords_injective hout⟩
    · rintro ⟨hx, hmap⟩ ys v hys room hroom
      obtain ⟨rfl, rfl⟩ := Prod.mk.inj (Option.some.inj (hdec.symm.trans hys))
      rw [encode_eq hx hroom, hmap, ofWords_words hlen]
  · refine iff_of_true (fun xs v h => ?_) (.inl hacc)
    exact absurd (isSome_decode_iff.1 (by rw [h]; rfl)) hacc

end WordCodec
