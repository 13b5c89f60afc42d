import Mathlib.Data.List.GetD
import Mathlib.Algebra.Order.Ring.Nat
import Mathlib.Tactic.Ring
import Mathlib.Tactic.Linarith

/-!
# Arrays updated in place

An array is a list read with a default value (`rd`) and written with `List.set`.  The main fact is about a sweep
of butterflies: a loop over blocks of length `2 * h` whose body replaces the entries `j` and `j + h` of the block
by two functions of them.  The body touches disjoint pairs of entries, so after the sweep every entry is a
function of the two entries of its pair before the sweep (`rd_sweep`), whatever the order of the writes.
-/

namespace InPlace

variable {α : Type*} [Inhabited α]

/-- The entry `i` of `a`, the default value out of range. -/
def rd (a : List α) (i : ℕ) : α := a.getD i default

theorem rd_eq_getElem {a : List α} {i : ℕ} (h : i < a.length) : rd a i = a[i] := by
  simp [rd, List.getD_eq_getElem?_getD, h]

theorem rd_set (a : List α) (i j : ℕ) (v : α) :
    rd (a.set i v) j = if i = j ∧ i < a.length then v else rd a j := by
  simp only [rd, List.getD_eq_getElem?_getD, List.getElem?_set]
  by_cases h : i = j
  · subst h
    by_cases hl : i < a.length <;> simp [hl]
  · simp [h]

theorem rd_map {β : Type*} [Inhabited β] (f : α → β) {a : List α} {i : ℕ} (h : i < a.length) :
    rd (a.map f) i = f (rd a i) := by
  rw [rd_eq_getElem (by simpa using h), rd_eq_getElem h, List.getElem_map]

theorem rd_map_range (f : ℕ → α) {n i : ℕ} (h : i < n) : rd ((List.range n).map f) i = f i := by
  rw [rd_eq_getElem (by simpa using h)]
  simp

theorem rd_replicate {n i : ℕ} (h : i < n) (v : α) : rd (List.replicate n v) i = v := by
  rw [rd_eq_getElem (by simpa using h), List.getElem_replicate]

theorem rd_append_left {a : List α} (b : List α) {i : ℕ} (h : i < a.length) : rd (a ++ b) i = rd a i := by
  rw [rd, rd, List.getD_append _ _ _ _ h]

theorem rd_append_right {a : List α} (b : List α) {i : ℕ} (h : a.length ≤ i) :
    rd (a ++ b) i = rd b (i - a.length) := by
  rw [rd, rd, List.getD_append_right _ _ _ _ h]

theorem rd_drop (a : List α) (k i : ℕ) : rd (a.drop k) i = rd a (k + i) := by
  simp [rd, List.getD_eq_getElem?_getD]

theorem rd_take {a : List α} {k i : ℕ} (h : i < k) : rd (a.take k) i = rd a i := by
  simp [rd, List.getD_eq_getElem?_getD, h]

theorem mem_rd {a : List α} {i : ℕ} (h : i < a.length) : rd a i ∈ a := by
  rw [rd_eq_getElem h]
  exact List.getElem_mem h

theorem ext_rd {a b : List α} (hl : a.length = b.length) (h : ∀ i < a.length, rd a i = rd b i) : a = b := by
  apply List.ext_getElem hl
  intro i h1 h2
  rw [← rd_eq_getElem h1, ← rd_eq_getElem h2, h i h1]

/-- A partial function that is defined at every entry of an array. -/
theorem mapM_eq_some {β : Type*} [Inhabited β] {φ : α → Option β} {a : List α} {b : List β}
    (hl : a.length = b.length) (h : ∀ i < a.length, φ (rd a i) = some (rd b i)) : a.mapM φ = some b := by
  induction a generalizing b with
  | nil =>
    obtain rfl : b = [] := List.length_eq_zero_iff.1 hl.symm
    rfl
  | cons x a ih =>
    cases b with
    | nil => simp at hl
    | cons y b =>
      have hx : φ x = some y := h 0 (by simp)
      have ha : a.mapM φ = some b := ih (by simpa using hl) fun i hi => h (i + 1) (by simpa using hi)
      rw [List.mapM_cons, hx, ha]
      rfl

/-- The results of a partial function that is defined at every entry. -/
theorem of_mapM_eq_some {α β : Type*} {φ : α → Option β} {a : List α} {b : List β} (h : a.mapM φ = some b) :
    b.length = a.length ∧ ∀ y ∈ b, ∃ x ∈ a, φ x = some y := by
  induction a generalizing b with
  | nil =>
    obtain rfl := Option.some.inj h
    exact ⟨rfl, fun y hy => absurd hy List.not_mem_nil⟩
  | cons x a ih =>
    rw [List.mapM_cons] at h
    obtain ⟨y, hy, h⟩ := Option.bind_eq_some_iff.1 h
    obtain ⟨ys, hys, h⟩ := Option.bind_eq_some_iff.1 h
    obtain rfl := Option.some.inj h
    obtain ⟨hl, hmem⟩ := ih hys
    refine ⟨by rw [List.length_cons, List.length_cons, hl], fun z hz => ?_⟩
    rcases List.mem_cons.1 hz with rfl | hz
    · exact ⟨x, List.mem_cons_self, hy⟩
    · obtain ⟨w, hw, hwz⟩ := hmem z hz
      exact ⟨w, List.mem_cons_of_mem _ hw, hwz⟩

/-! ### Checking a table

The checks walk the table once, so that they can be evaluated on a long table. -/

/-- `ok` holds of the entries `i` of two tables. -/
def checkZip {β : Type*} (ok : α → β → Bool) : List α → List β → Bool
  | x :: xs, y :: ys => ok x y && checkZip ok xs ys
  | _, _ => true

/-- `ok` holds of the entry `i` of the first table and the entries `2 * i`, `2 * i + 1` of the second. -/
def checkHalves (ok : α → α → α → Bool) : List α → List α → Bool
  | x :: xs, y :: z :: ys => ok x y z && checkHalves ok xs ys
  | _, _ => true

theorem checkZip_rd {β : Type*} [Inhabited β] {ok : α → β → Bool} {a : List α} {b : List β}
    (h : checkZip ok a b = true) {i : ℕ} (ha : i < a.length) (hb : i < b.length) :
    ok (rd a i) (rd b i) = true := by
  induction a generalizing b i with
  | nil => exact absurd ha (by simp)
  | cons x xs ih =>
    cases b with
    | nil => exact absurd hb (by simp)
    | cons y ys =>
      obtain ⟨h1, h2⟩ := Bool.and_eq_true_iff.1 h
      cases i with
      | zero => exact h1
      | succ i => exact ih h2 (by simpa using ha) (by simpa using hb)

theorem checkHalves_rd {ok : α → α → α → Bool} {a b : List α} (h : checkHalves ok a b = true) {i : ℕ}
    (ha : i < a.length) (hb : 2 * i + 1 < b.length) :
    ok (rd a i) (rd b (2 * i)) (rd b (2 * i + 1)) = true := by
  induction a generalizing b i with
  | nil => exact absurd ha (by simp)
  | cons x xs ih =>
    match b, h, hb with
    | [], _, hb => exact absurd hb (by simp)
    | [_], _, hb => exact absurd hb (by simp)
    | y :: z :: ys, h, hb =>
      obtain ⟨h1, h2⟩ := Bool.and_eq_true_iff.1 h
      cases i with
      | zero => exact h1
      | succ i => exact ih h2 (by simpa using ha) (by simp at hb; omega)

theorem all_rd {ok : α → Bool} {a : List α} (h : a.all ok = true) {i : ℕ} (hi : i < a.length) :
    ok (rd a i) = true :=
  List.all_eq_true.1 h _ (mem_rd hi)

/-! ### Filling an array row by row -/

/-- Write `f 0, …, f (c - 1)` from index `s` on. -/
def fill (s c : ℕ) (f : ℕ → α) (b : List α) : List α :=
  (List.range c).foldl (fun b j => b.set (s + j) (f j)) b

/-- Write `r` rows of `c` entries. -/
def fillRows (r c : ℕ) (f : ℕ → ℕ → α) (b : List α) : List α :=
  (List.range r).foldl (fun b i => fill (c * i) c (f i) b) b

omit [Inhabited α] in
theorem length_fill (s c : ℕ) (f : ℕ → α) (b : List α) : (fill s c f b).length = b.length := by
  induction c with
  | zero => rfl
  | succ c ih => rw [fill, List.range_succ, List.foldl_append, ← fill]; simp [ih]

theorem rd_fill {s c : ℕ} (f : ℕ → α) {b : List α} (hl : s + c ≤ b.length) (e : ℕ) :
    rd (fill s c f b) e = if s ≤ e ∧ e < s + c then f (e - s) else rd b e := by
  induction c with
  | zero => rw [if_neg (by omega)]; rfl
  | succ c ih =>
    have hstep : fill s (c + 1) f b = (fill s c f b).set (s + c) (f c) := by
      rw [fill, List.range_succ, List.foldl_append]
      rfl
    rw [hstep, rd_set, length_fill, ih (by omega)]
    by_cases h : s + c = e
    · rw [if_pos (by omega), if_pos (by omega), show e - s = c by omega]
    · rw [if_neg (by omega)]
      by_cases h' : s ≤ e ∧ e < s + c
      · rw [if_pos h', if_pos (by omega)]
      · rw [if_neg h', if_neg (by omega)]

omit [Inhabited α] in
theorem length_fillRows (r c : ℕ) (f : ℕ → ℕ → α) (b : List α) : (fillRows r c f b).length = b.length := by
  induction r with
  | zero => rfl
  | succ r ih => rw [fillRows, List.range_succ, List.foldl_append, ← fillRows]; simp [length_fill, ih]

/-- After filling, the entry `e` is the entry `e % c` of row `e / c`. -/
theorem rd_fillRows {r c : ℕ} (hc : 0 < c) (f : ℕ → ℕ → α) {b : List α} (hl : c * r ≤ b.length) {e : ℕ}
    (he : e < c * r) : rd (fillRows r c f b) e = f (e / c) (e % c) := by
  induction r with
  | zero => exact absurd he (by simp)
  | succ r ih =>
    have hstep : fillRows (r + 1) c f b = fill (c * r) c (f r) (fillRows r c f b) := by
      rw [fillRows, List.range_succ, List.foldl_append]
      rfl
    rw [Nat.mul_succ] at hl he
    rw [hstep, rd_fill _ (by rw [length_fillRows]; exact hl)]
    by_cases h : c * r ≤ e
    · have hd : e / c = r := Nat.div_eq_of_lt_le (by rw [Nat.mul_comm]; exact h) (by
        rw [Nat.succ_mul, Nat.mul_comm]; exact he)
      have hdm := Nat.div_add_mod e c
      rw [hd] at hdm
      rw [if_pos ⟨h, he⟩, hd, show e % c = e - c * r by omega]
    · rw [if_neg (by omega), ih (by omega) (by omega)]

/-! ### Butterflies -/

/-- Replace the entries `j` and `j + h` by the two components of `φ a[j] a[j + h]`. -/
def butterfly (h : ℕ) (φ : α → α → α × α) (a : List α) (j : ℕ) : List α :=
  (a.set j (φ (rd a j) (rd a (j + h))).1).set (j + h) (φ (rd a j) (rd a (j + h))).2

/-- A block of `c` butterflies starting at `j1`. -/
def block (h : ℕ) (φ : α → α → α × α) (a : List α) (j1 c : ℕ) : List α :=
  (List.range' j1 c).foldl (butterfly h φ) a

/-- A sweep: one block of `h` butterflies for every `i < m`, the block `i` starting at `2 * h * i`. -/
def sweep (h m : ℕ) (φ : ℕ → α → α → α × α) (a : List α) : List α :=
  (List.range m).foldl (fun a i => block h (φ i) a (2 * h * i) h) a

private theorem length_butterfly (h : ℕ) (φ : α → α → α × α) (a : List α) (j : ℕ) :
    (butterfly h φ a j).length = a.length := by
  simp [butterfly]

private theorem block_succ (h : ℕ) (φ : α → α → α × α) (a : List α) (j1 c : ℕ) :
    block h φ a j1 (c + 1) = butterfly h φ (block h φ a j1 c) (j1 + c) := by
  rw [block, block, List.range'_concat, List.foldl_append]
  simp

private theorem length_block (h : ℕ) (φ : α → α → α × α) (a : List α) (j1 c : ℕ) :
    (block h φ a j1 c).length = a.length := by
  induction c with
  | zero => rfl
  | succ c ih => rw [block_succ, length_butterfly, ih]

private theorem sweep_succ (h m : ℕ) (φ : ℕ → α → α → α × α) (a : List α) :
    sweep h (m + 1) φ a = block h (φ m) (sweep h m φ a) (2 * h * m) h := by
  rw [sweep, sweep, List.range_succ, List.foldl_append]
  simp

theorem length_sweep (h m : ℕ) (φ : ℕ → α → α → α × α) (a : List α) : (sweep h m φ a).length = a.length := by
  induction m with
  | zero => rfl
  | succ m ih => rw [sweep_succ, length_block, ih]

private theorem rd_butterfly {h : ℕ} (φ : α → α → α × α) {a : List α} {j : ℕ} (hh : 0 < h) (hj : j + h < a.length)
    (e : ℕ) : rd (butterfly h φ a j) e =
      if e = j then (φ (rd a j) (rd a (j + h))).1
      else if e = j + h then (φ (rd a j) (rd a (j + h))).2 else rd a e := by
  simp only [butterfly, rd_set, List.length_set]
  by_cases h1 : e = j
  · subst h1
    rw [if_neg (by omega), if_pos ⟨rfl, by omega⟩, if_pos rfl]
  · by_cases h2 : e = j + h
    · rw [if_pos ⟨h2.symm, hj⟩, if_neg h1, if_pos h2]
    · rw [if_neg (by omega), if_neg (by omega), if_neg h1, if_neg h2]

/-- The entries after the first `c ≤ h` butterflies of a block. -/
private theorem rd_block {h : ℕ} (φ : α → α → α × α) {a : List α} {j1 c : ℕ} (hc : c ≤ h)
    (hl : j1 + h + c ≤ a.length) (e : ℕ) : rd (block h φ a j1 c) e =
      if j1 ≤ e ∧ e < j1 + c then (φ (rd a e) (rd a (e + h))).1
      else if j1 + h ≤ e ∧ e < j1 + h + c then (φ (rd a (e - h)) (rd a e)).2 else rd a e := by
  induction c generalizing e with
  | zero => rw [if_neg (by omega), if_neg (by omega)]; rfl
  | succ c ih =>
    have ih := ih (by omega) (by omega)
    -- the two entries of the next butterfly are still the original ones
    have hlo : rd (block h φ a j1 c) (j1 + c) = rd a (j1 + c) := by
      rw [ih, if_neg (by omega), if_neg (by omega)]
    have hhi : rd (block h φ a j1 c) (j1 + c + h) = rd a (j1 + c + h) := by
      rw [ih, if_neg (by omega), if_neg (by omega)]
    rw [block_succ, rd_butterfly φ (by omega) (by rw [length_block]; omega), hlo, hhi, ih]
    by_cases h1 : e = j1 + c
    · subst h1
      rw [if_pos rfl, if_pos (by omega)]
    · rw [if_neg h1]
      by_cases h2 : e = j1 + c + h
      · subst h2
        rw [if_pos rfl, if_neg (by omega), if_pos (by omega), Nat.add_sub_cancel]
      · rw [if_neg h2]
        by_cases h3 : j1 ≤ e ∧ e < j1 + c
        · rw [if_pos h3, if_pos (by omega)]
        · rw [if_neg h3, if_neg (show ¬ (j1 ≤ e ∧ e < j1 + (c + 1)) by omega)]
          by_cases h4 : j1 + h ≤ e ∧ e < j1 + h + c
          · rw [if_pos h4, if_pos (by omega)]
          · rw [if_neg h4, if_neg (by omega)]

/-- The entry `e` of block `i` and its partner before the sweep. -/
def sweepEntry (h : ℕ) (φ : ℕ → α → α → α × α) (a : List α) (e : ℕ) : α :=
  if e % (2 * h) < h then (φ (e / (2 * h)) (rd a e) (rd a (e + h))).1
  else (φ (e / (2 * h)) (rd a (e - h)) (rd a e)).2

private theorem div_mod_of_block {h m e : ℕ} (h1 : 2 * h * m ≤ e) (h2 : e < 2 * h * m + 2 * h) :
    e / (2 * h) = m ∧ e % (2 * h) = e - 2 * h * m := by
  have hd : e / (2 * h) = m := Nat.div_eq_of_lt_le (by linarith) (by linarith)
  have := Nat.div_add_mod e (2 * h)
  rw [hd] at this
  exact ⟨hd, by omega⟩

/-- Every entry in range of the sweep is replaced by its butterfly value, and no other entry changes. -/
theorem rd_sweep {h m : ℕ} (φ : ℕ → α → α → α × α) {a : List α} (hh : 0 < h) (hl : 2 * h * m ≤ a.length)
    (e : ℕ) : rd (sweep h m φ a) e = if e < 2 * h * m then sweepEntry h φ a e else rd a e := by
  induction m generalizing e with
  | zero => rfl
  | succ m ih =>
    have hm : 2 * h * (m + 1) = 2 * h * m + 2 * h := by ring
    rw [hm] at hl ⊢
    have ih := ih (by omega)
    -- the last block does not touch the entries below it
    rw [sweep_succ, rd_block (φ m) (le_refl h) (by rw [length_sweep]; omega)]
    by_cases h0 : e < 2 * h * m
    · rw [if_neg (by omega), if_neg (by omega), ih, if_pos h0, if_pos (by omega)]
    · by_cases h1 : e < 2 * h * m + 2 * h
      · obtain ⟨hd, hr⟩ := div_mod_of_block (Nat.le_of_not_lt h0) h1
        rw [if_pos h1, sweepEntry, hd, hr]
        by_cases h2 : e < 2 * h * m + h
        · rw [if_pos (by omega), ih, if_neg (by omega), ih, if_neg (by omega), if_pos (by omega)]
        · rw [if_neg (by omega), if_pos (by omega), ih, if_neg (by omega), ih, if_neg (by omega),
            if_neg (by omega)]
      · rw [if_neg (by omega), if_neg (by omega), ih, if_neg h0, if_neg h1]

end InPlace
