import DfVrf.Lib.InPlace
import Mathlib.Data.Nat.Bitwise
import Mathlib.Data.Finset.Card

/-!
# Compaction in logarithmically many passes

An array holds values and gaps, told apart by `val`.  The value of rank `r` belongs to index `r`; a pass with the step
`2 ^ k` moves a value back by the step if bit `k` of its distance to this index is set.  A pass never moves a value
onto another one, because the distances increase with the rank (`Spread.pass`), and after enough passes the values
stand in order at the front (`Spread.passes`).  If there are fewer values than wanted, a gap remains among the first
entries (`Spread.exists_gap`).
-/

namespace Compaction

open InPlace

variable {α γ : Type*} [Inhabited α] {val : α → Option γ}

/-- Exchange two entries. -/
def swap (a : List α) (i j : ℕ) : List α := (a.set i (rd a j)).set j (rd a i)

/-- One iteration of a pass at index `u`, on the number of values met so far and the array. -/
def step (val : α → Option γ) (k : ℕ) (st : ℕ × List α) (u : ℕ) : ℕ × List α :=
  if (val (rd st.2 u)).isSome then
    (st.1 + 1, if (u - st.1).testBit k then swap st.2 u (u - 2 ^ k) else st.2)
  else st

/-- A pass over the first `m` entries with the step `2 ^ k`. -/
def pass (val : α → Option γ) (m : ℕ) (a : List α) (k : ℕ) : List α :=
  ((List.range m).foldl (step val k) (0, a)).2

/-- The array holds the values `vals` at the increasing positions `pos`, and gaps elsewhere. -/
structure Spread (val : α → Option γ) (vals : List γ) (pos : ℕ → ℕ) (a : List α) : Prop where
  lt : ∀ r < vals.length, pos r < a.length
  mono : ∀ r r', r < r' → r' < vals.length → pos r < pos r'
  at_pos : ∀ r, (h : r < vals.length) → val (rd a (pos r)) = some vals[r]
  gap : ∀ i < a.length, (∀ r < vals.length, pos r ≠ i) → val (rd a i) = none

private theorem length_swap (a : List α) (i j : ℕ) : (swap a i j).length = a.length := by
  rw [swap, List.length_set, List.length_set]

private theorem rd_swap {a : List α} {i j : ℕ} (hi : i < a.length) (hj : j < a.length) (e : ℕ) :
    rd (swap a i j) e = if e = j then rd a i else if e = i then rd a j else rd a e := by
  rw [swap, rd_set, rd_set, List.length_set]
  by_cases h1 : e = j
  · simp [h1, hj]
  · by_cases h2 : e = i
    · subst h2
      simp [h1, hi, Ne.symm h1]
    · simp [h1, h2, Ne.symm h1, Ne.symm h2]

/-- Every array is spread out somehow. -/
theorem exists_spread (val : α → Option γ) (a : List α) : ∃ pos, Spread val (a.filterMap val) pos a := by
  induction a with
  | nil => exact ⟨id, ⟨by simp, by simp, by simp, by simp⟩⟩
  | cons x a ih =>
    obtain ⟨pos, h⟩ := ih
    have hrd : ∀ i, rd (x :: a) (i + 1) = rd a i := fun i => rfl
    cases hx : val x with
    | none =>
      rw [List.filterMap_cons_none hx]
      refine ⟨fun r => pos r + 1, ⟨?_, ?_, h.at_pos, ?_⟩⟩
      · intro r hr
        exact Nat.succ_lt_succ (h.lt r hr)
      · intro r r' hr hr'
        exact Nat.succ_lt_succ (h.mono r r' hr hr')
      · intro i hi hpos
        cases i with
        | zero => exact hx
        | succ i => exact h.gap i (Nat.lt_of_succ_lt_succ hi) fun r hr hri => hpos r hr (by rw [hri])
    | some c =>
      rw [List.filterMap_cons_some hx]
      refine ⟨fun r => if r = 0 then 0 else pos (r - 1) + 1, ⟨?_, ?_, ?_, ?_⟩⟩
      · intro r hr
        cases r with
        | zero => exact Nat.succ_pos _
        | succ r => exact Nat.succ_lt_succ (h.lt r (Nat.lt_of_succ_lt_succ hr))
      · intro r r' hr hr'
        cases r' with
        | zero => omega
        | succ r' =>
          cases r with
          | zero => exact Nat.succ_pos _
          | succ r =>
            exact Nat.succ_lt_succ (h.mono r r' (Nat.lt_of_succ_lt_succ hr) (Nat.lt_of_succ_lt_succ hr'))
      · intro r hr
        cases r with
        | zero => exact hx
        | succ r => exact h.at_pos r (Nat.lt_of_succ_lt_succ hr)
      · intro i hi hpos
        cases i with
        | zero => exact absurd rfl (hpos 0 (Nat.succ_pos _))
        | succ i =>
          refine h.gap i (Nat.lt_of_succ_lt_succ hi) fun r hr hri => hpos (r + 1) (Nat.succ_lt_succ hr) ?_
          simp [hri]

/-! ### The positions -/

namespace Spread

variable {vals : List γ} {pos : ℕ → ℕ} {a : List α}

/-- Increasing positions are at least as far apart as the ranks. -/
private theorem add_sub_le (h : Spread val vals pos a) {r r' : ℕ} (hr : r ≤ r') (hr' : r' < vals.length) :
    pos r + (r' - r) ≤ pos r' := by
  induction r', hr using Nat.le_induction with
  | base => omega
  | succ r' hle ih =>
    have ih := ih (by omega)
    have := h.mono r' (r' + 1) (by omega) hr'
    omega

private theorem le_pos (h : Spread val vals pos a) {r : ℕ} (hr : r < vals.length) : r ≤ pos r := by
  have := h.add_sub_le (Nat.zero_le r) hr
  omega

/-- The position of rank `r` when the low `k` bits of its distance are gone. -/
def posAfter (pos : ℕ → ℕ) (k r : ℕ) : ℕ := r + (pos r - r) / 2 ^ k * 2 ^ k

private theorem posAfter_mono (h : Spread val vals pos a) (k r r' : ℕ) (hr : r < r') (hr' : r' < vals.length) :
    posAfter pos k r < posAfter pos k r' := by
  have hle : pos r - r ≤ pos r' - r' := by
    have := h.add_sub_le (le_of_lt hr) hr'
    omega
  exact Nat.add_lt_add_of_lt_of_le hr (Nat.mul_le_mul_right _ (Nat.div_le_div_right hle))

/-- What pass `k` does to a position. -/
private theorem posAfter_succ (pos : ℕ → ℕ) (k r : ℕ) : posAfter pos (k + 1) r =
    if (posAfter pos k r - r).testBit k then posAfter pos k r - 2 ^ k else posAfter pos k r := by
  obtain ⟨d, hd⟩ : ∃ d, (pos r - r) / 2 ^ k = d := ⟨_, rfl⟩
  have hbit : (posAfter pos k r - r).testBit k = decide (d % 2 = 1) := by
    rw [posAfter, hd, Nat.add_sub_cancel_left, Nat.testBit_eq_decide_div_mod_eq,
      Nat.mul_div_cancel _ (Nat.two_pow_pos k)]
  have hsplit : (pos r - r) / 2 ^ (k + 1) * 2 ^ (k + 1) = d / 2 * 2 * 2 ^ k := by
    rw [pow_succ, ← Nat.div_div_eq_div_mul, hd]
    ring
  rw [hbit, posAfter, hsplit, posAfter, hd]
  rcases Nat.mod_two_eq_zero_or_one d with h0 | h1
  · rw [if_neg (by simp [h0]), show d / 2 * 2 = d by omega]
  · have hd1 : d = d / 2 * 2 + 1 := by omega
    rw [if_pos (by simp [h1])]
    conv => rhs; rw [hd1]
    rw [Nat.add_mul, Nat.one_mul]
    omega

/-! ### A pass -/

theorem congr {pos' : ℕ → ℕ} (h : Spread val vals pos a) (hp : ∀ r < vals.length, pos' r = pos r) :
    Spread val vals pos' a where
  lt r hr := by
    rw [hp r hr]
    exact h.lt r hr
  mono r r' hr hr' := by
    rw [hp r (lt_trans hr hr'), hp r' hr']
    exact h.mono r r' hr hr'
  at_pos r hr := by
    rw [hp r hr]
    exact h.at_pos r hr
  gap i hi hg := h.gap i hi fun r hr hc => hg r hr (by rw [hp r hr, hc])

/-- Two ranks have two positions. -/
private theorem pos_ne (h : Spread val vals pos a) {r r' : ℕ} (hr : r < vals.length) (hr' : r' < vals.length)
    (hne : r ≠ r') : pos r ≠ pos r' := by
  rcases Nat.lt_or_gt_of_ne hne with hlt | hgt
  · exact ne_of_lt (h.mono r r' hlt hr')
  · exact ne_of_gt (h.mono r' r hgt hr)

/-- Moving the value of rank `r` to a gap, when the order of the values stays as it is. -/
private theorem move {pos' : ℕ → ℕ} (h : Spread val vals pos a) {r : ℕ} (hr : r < vals.length) (hd : pos' r < a.length)
    (hother : ∀ r' < vals.length, r' ≠ r → pos' r' = pos r') (hne : pos' r ≠ pos r)
    (hmono : ∀ r1 r2, r1 < r2 → r2 < vals.length → pos' r1 < pos' r2) :
    Spread val vals pos' (swap a (pos r) (pos' r)) := by
  have hfree : ∀ r' < vals.length, r' ≠ r → pos' r' ≠ pos' r := by
    intro r' hr' hne'
    rcases Nat.lt_or_gt_of_ne hne' with hlt | hgt
    · exact ne_of_lt (hmono r' r hlt hr)
    · exact ne_of_gt (hmono r r' hgt hr')
  have hs := h.lt r hr
  refine ⟨fun r' hr' => ?_, hmono, fun r' hr' => ?_, fun i hi hg => ?_⟩
  · rw [length_swap]
    by_cases hrr : r' = r
    · rw [hrr]
      exact hd
    · rw [hother r' hr' hrr]
      exact h.lt r' hr'
  · rw [rd_swap hs hd]
    by_cases hrr : r' = r
    · subst hrr
      rw [if_pos rfl]
      exact h.at_pos r' hr'
    · rw [if_neg (hfree r' hr' hrr), hother r' hr' hrr, if_neg (h.pos_ne hr' hr hrr)]
      exact h.at_pos r' hr'
  · rw [length_swap] at hi
    rw [rd_swap hs hd, if_neg fun hc => hg r hr hc.symm]
    split
    · -- the gap that was at the destination
      refine h.gap _ hd fun r' hr' hc => ?_
      by_cases hrr : r' = r
      · rw [hrr] at hc
        exact hne hc.symm
      · exact hfree r' hr' hrr (by rw [hother r' hr' hrr, hc])
    · rename_i hi'
      refine h.gap i hi fun r' hr' hc => ?_
      by_cases hrr : r' = r
      · rw [hrr] at hc
        exact hi' hc.symm
      · exact hg r' hr' (by rw [hother r' hr' hrr, hc])

/-- The positions when a pass from the positions `P` to the positions `P'` has reached index `u`. -/
def midPos (P P' : ℕ → ℕ) (u r : ℕ) : ℕ := if P r < u then P' r else P r

private theorem midPos_mono {P P' : ℕ → ℕ} {n : ℕ} (hP : ∀ r r', r < r' → r' < n → P r < P r')
    (hP' : ∀ r r', r < r' → r' < n → P' r < P' r') (hle : ∀ r < n, P' r ≤ P r) (u : ℕ) {r r' : ℕ} (hr : r < r')
    (hr' : r' < n) : midPos P P' u r < midPos P P' u r' := by
  have h1 := hP r r' hr hr'
  have h2 := hP' r r' hr hr'
  have h3 := hle r (lt_trans hr hr')
  rw [midPos, midPos]
  split
  · split <;> omega
  · rw [if_neg (by omega)]
    exact h1

/-- A value that is not at index `u` stays where it is at this index. -/
private theorem midPos_succ {P P' : ℕ → ℕ} {u r : ℕ} (h : P r ≠ u) : midPos P P' (u + 1) r = midPos P P' u r := by
  have hiff : P r < u + 1 ↔ P r < u := by omega
  simp only [midPos, hiff]

/-- The state of a pass at index `u`: the ranks below `v` have been met, and their values have been moved. -/
structure PassState (val : α → Option γ) (vals : List γ) (P P' : ℕ → ℕ) (m u : ℕ) (st : ℕ × List α) : Prop where
  length : st.2.length = m
  count_le : st.1 ≤ vals.length
  count : ∀ r < vals.length, P r < u ↔ r < st.1
  spread : Spread val vals (midPos P P' u) st.2

variable {k m u : ℕ} {P P' : ℕ → ℕ} {st : ℕ × List α}

/-- The value at index `u` has the rank that has been counted. -/
private theorem PassState.eq_count (h : PassState val vals P P' m u st)
    (hP : ∀ r r', r < r' → r' < vals.length → P r < P r') {r : ℕ} (hr : r < vals.length) (hru : P r = u) :
    r = st.1 := by
  have h1 := h.count r hr
  by_contra hne
  have h2 := hP st.1 r (by omega) hr
  have h3 := h.count st.1 (by omega)
  omega

/-- One iteration at a gap. -/
private theorem PassState.step_gap (h : PassState val vals P P' m u st) (hu : u < m)
    (hle : ∀ r < vals.length, P' r ≤ P r)
    (hgap : ∀ r < vals.length, P r ≠ u) : PassState val vals P P' m (u + 1) (Compaction.step val k st u) := by
  have hnone : val (rd st.2 u) = none := by
    refine h.spread.gap u (by rw [h.length]; exact hu) fun r hr hc => ?_
    rw [midPos] at hc
    have := hle r hr
    split at hc
    · omega
    · exact hgap r hr hc
  rw [Compaction.step]
  simp only [hnone, Option.isSome_none, Bool.false_eq_true, if_false]
  refine ⟨h.length, h.count_le, fun r hr => ?_, h.spread.congr fun r hr => midPos_succ (hgap r hr)⟩
  have h1 := h.count r hr
  have h2 := hgap r hr
  omega

/-- One iteration at the value of rank `r`, which is moved back by the step or stays where it is. -/
private theorem PassState.step_value (h : PassState val vals P P' m u st)
    (hP : ∀ r r', r < r' → r' < vals.length → P r < P r')
    (hP' : ∀ r r', r < r' → r' < vals.length → P' r < P' r') (hle : ∀ r < vals.length, P' r ≤ P r) {r : ℕ}
    (hr : r < vals.length) (hru : P r = u) (hk : P' r = if (u - r).testBit k then u - 2 ^ k else u) :
    PassState val vals P P' m (u + 1) (Compaction.step val k st u) := by
  obtain ⟨v, b⟩ := st
  obtain rfl : r = v := h.eq_count hP hr hru
  obtain ⟨hlen, -, hcount, hb⟩ := h
  simp only at hlen hcount hb
  have hmid : midPos P P' u r = u := by rw [midPos, if_neg (by omega), hru]
  have hmid' : midPos P P' (u + 1) r = P' r := by rw [midPos, if_pos (by omega)]
  have hne : ∀ r' < vals.length, r' ≠ r → P r' ≠ u := by
    intro r' hr' hne
    rcases Nat.lt_or_gt_of_ne hne with hlt | hgt
    · have := hP r' r hlt hr
      omega
    · have := hP r r' hgt hr'
      omega
  have hother : ∀ r' < vals.length, r' ≠ r → midPos P P' (u + 1) r' = midPos P P' u r' :=
    fun r' hr' hne' => midPos_succ (hne r' hr' hne')
  have hcount' : ∀ r' < vals.length, P r' < u + 1 ↔ r' < r + 1 := by
    intro r' hr'
    have h1 := hcount r' hr'
    by_cases hrr : r' = r
    · subst hrr
      omega
    · have h2 := hne r' hr' hrr
      omega
  have hat := hb.at_pos r hr
  rw [hmid] at hat
  rw [Compaction.step]
  simp only [hat, Option.isSome_some, if_true]
  by_cases hbit : (u - r).testBit k = true
  · have hpow : 2 ^ k ≤ u - r := Nat.ge_two_pow_of_testBit hbit
    have hpos : 0 < 2 ^ k := Nat.two_pow_pos k
    rw [if_pos hbit] at hk
    have hmono : ∀ r1 r2, r1 < r2 → r2 < vals.length → midPos P P' (u + 1) r1 < midPos P P' (u + 1) r2 :=
      fun r1 r2 h1 h2 => midPos_mono hP hP' hle (u + 1) h1 h2
    have hlt := hb.lt r hr
    have hmove := hb.move hr (by rw [hmid', hk]; omega) hother (by rw [hmid', hk, hmid]; omega) hmono
    rw [hmid, hmid', hk] at hmove
    rw [if_pos hbit]
    exact ⟨by rw [length_swap, hlen], Nat.succ_le_of_lt hr, hcount', hmove⟩
  · rw [if_neg hbit] at hk
    rw [if_neg hbit]
    refine ⟨hlen, Nat.succ_le_of_lt hr, hcount', hb.congr fun r' hr' => ?_⟩
    by_cases hrr : r' = r
    · rw [hrr, hmid', hmid, hk]
    · exact hother r' hr' hrr

/-- One iteration of a pass which moves a value back by the step where this leads to increasing positions. -/
theorem PassState.step (h : PassState val vals P P' m u st) (hu : u < m)
    (hP : ∀ r r', r < r' → r' < vals.length → P r < P r')
    (hP' : ∀ r r', r < r' → r' < vals.length → P' r < P' r')
    (hk : ∀ r < vals.length, P' r = if (P r - r).testBit k then P r - 2 ^ k else P r) :
    PassState val vals P P' m (u + 1) (Compaction.step val k st u) := by
  have hle : ∀ r < vals.length, P' r ≤ P r := by
    intro r hr
    rw [hk r hr]
    split
    · exact Nat.sub_le _ _
    · exact le_refl _
  by_cases hex : ∃ r, r < vals.length ∧ P r = u
  · obtain ⟨r, hr, rfl⟩ := hex
    exact h.step_value hP hP' hle hr rfl (hk r hr)
  · exact h.step_gap hu hle fun r hr hru => hex ⟨r, hr, hru⟩

/-- A pass with the step `2 ^ k`, when the low `k` bits of the distances are gone. -/
private theorem pass_spread {pos : ℕ → ℕ} {m k : ℕ} {a b : List α} (h : Spread val vals pos a) (hl : b.length = m)
    (hb : Spread val vals (posAfter pos k) b) : (Compaction.pass val m b k).length = m ∧
      Spread val vals (posAfter pos (k + 1)) (Compaction.pass val m b k) := by
  have hP := h.posAfter_mono k
  have hP' := h.posAfter_mono (k + 1)
  have hfold : ∀ u ≤ m, PassState val vals (posAfter pos k) (posAfter pos (k + 1)) m u
      ((List.range u).foldl (Compaction.step val k) (0, b)) := by
    intro u hu
    induction u with
    | zero =>
      refine ⟨hl, Nat.zero_le _, fun r hr => by simp, hb.congr fun r hr => ?_⟩
      rw [midPos, if_neg (Nat.not_lt_zero _)]
    | succ u ih =>
      rw [List.range_succ, List.foldl_append]
      exact (ih (by omega)).step (by omega) hP hP' fun r _ => posAfter_succ pos k r
  have hend := hfold m (le_refl m)
  refine ⟨hend.length, hend.spread.congr fun r hr => ?_⟩
  have hlt := hb.lt r hr
  rw [midPos, if_pos (by rwa [← hl])]

/-- After the passes `0, …, k - 1` the low `k` bits of the distances are gone. -/
theorem foldl_pass (h : Spread val vals pos a) (k : ℕ) :
    ((List.range k).foldl (Compaction.pass val a.length) a).length = a.length ∧
      Spread val vals (posAfter pos k) ((List.range k).foldl (Compaction.pass val a.length) a) := by
  induction k with
  | zero =>
    refine ⟨rfl, h.congr fun r hr => ?_⟩
    have := h.le_pos hr
    rw [posAfter, pow_zero, Nat.div_one, Nat.mul_one]
    omega
  | succ k ih =>
    rw [List.range_succ, List.foldl_append]
    exact h.pass_spread ih.1 ih.2

/-- After the passes `0, …, k - 1` over an array with less than `2 ^ k` gaps the values stand in order at the
front. -/
theorem passes {k : ℕ} (h : Spread val vals pos a) (hk : a.length < vals.length + 2 ^ k) :
    ((List.range k).foldl (Compaction.pass val a.length) a).length = a.length ∧
      Spread val vals id ((List.range k).foldl (Compaction.pass val a.length) a) := by
  obtain ⟨hlen, hspread⟩ := h.foldl_pass k
  refine ⟨hlen, hspread.congr fun r hr => ?_⟩
  -- the distances are at most the number of gaps
  have hpos := Nat.two_pow_pos k
  have hlt := h.add_sub_le (Nat.le_sub_one_of_lt hr) (by omega)
  have hlast := h.lt (vals.length - 1) (by omega)
  rw [posAfter, Nat.div_eq_of_lt (by omega), Nat.zero_mul]
  rfl

/-- Among more indices than there are values one is a gap. -/
theorem exists_gap (h : Spread val vals pos a) {n : ℕ} (hn : n ≤ a.length) (hv : vals.length < n) :
    ∃ i < n, val (rd a i) = none := by
  by_contra hnone
  have hsub : Finset.range n ⊆ (Finset.range vals.length).image pos := by
    intro i hi
    rw [Finset.mem_range] at hi
    by_contra hne
    refine hnone ⟨i, hi, h.gap i (by omega) fun r hr hri => hne ?_⟩
    exact Finset.mem_image.2 ⟨r, Finset.mem_range.2 hr, hri⟩
  have hcard := (Finset.card_le_card hsub).trans Finset.card_image_le
  rw [Finset.card_range, Finset.card_range] at hcard
  omega

end Spread

/-! ### The entries of the array -/

private theorem mem_swap {a : List α} {i j : ℕ} (hi : i < a.length) (hj : j < a.length) {x : α} (hx : x ∈ swap a i j) :
    x ∈ a := by
  rcases List.mem_or_eq_of_mem_set hx with hx | rfl
  · rcases List.mem_or_eq_of_mem_set hx with hx | rfl
    · exact hx
    · exact mem_rd hj
  · exact mem_rd hi

/-- A pass only exchanges entries. -/
private theorem foldl_step_mem (val : α → Option γ) (a : List α) (k : ℕ) {u : ℕ} (hu : u ≤ a.length) :
    ((List.range u).foldl (step val k) (0, a)).2.length = a.length ∧
      ∀ x ∈ ((List.range u).foldl (step val k) (0, a)).2, x ∈ a := by
  induction u with
  | zero => exact ⟨rfl, fun x hx => hx⟩
  | succ u ih =>
    obtain ⟨hlen, hmem⟩ := ih (by omega)
    rw [List.range_succ, List.foldl_append, List.foldl_cons, List.foldl_nil]
    generalize (List.range u).foldl (step val k) (0, a) = st at hlen hmem ⊢
    unfold step
    split
    · split
      · have hback : u - 2 ^ k < st.2.length := lt_of_le_of_lt (Nat.sub_le _ _) (by omega)
        exact ⟨by rw [length_swap, hlen], fun x hx => hmem x (mem_swap (by omega) hback hx)⟩
      · exact ⟨hlen, hmem⟩
    · exact ⟨hlen, hmem⟩

theorem foldl_pass_mem (val : α → Option γ) (a : List α) (k : ℕ) :
    ((List.range k).foldl (pass val a.length) a).length = a.length ∧
      ∀ x ∈ (List.range k).foldl (pass val a.length) a, x ∈ a := by
  induction k with
  | zero => exact ⟨rfl, fun x hx => hx⟩
  | succ k ih =>
    obtain ⟨hlen, hmem⟩ := ih
    rw [List.range_succ, List.foldl_append, List.foldl_cons, List.foldl_nil]
    generalize (List.range k).foldl (pass val a.length) a = b at hlen hmem ⊢
    have hstep := foldl_step_mem val b k (le_refl b.length)
    rw [hlen] at hstep
    exact ⟨hstep.1, fun x hx => hmem x (hstep.2 x hx)⟩

end Compaction
