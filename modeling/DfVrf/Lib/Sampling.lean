import Mathlib.Data.List.Basic
import Mathlib.Data.List.Infix
import Mathlib.Data.Nat.Init
import Mathlib.Logic.Function.Iterate

/-!
# Rejection sampling from a stream

A sampler draws from an infinite stream and keeps the accepted values until it has enough of them.  The stream is
given by the value of every draw, `none` for a rejected one.  `First t need xs` says that `xs` are the first
`need` accepted values; it determines `xs`.

* `collect_iff`: a loop that makes one draw at a time computes `First`, if its state follows the stream.
* `exists_take_accepted_iff`: so does a loop that makes a fixed number of draws at a time.

Loops are given a bound on their number of iterations and return `none` beyond it, so that "the loop returns `xs`"
is the existence of a sufficient bound.
-/

namespace Sampling

variable {σ β γ δ : Type*}

/-- The accepted values among the first `N` draws. -/
def accepted (t : ℕ → Option γ) (N : ℕ) : List γ := (List.range N).filterMap t

/-- `xs` are the first `need` accepted values of the stream. -/
def First (t : ℕ → Option γ) (need : ℕ) (xs : List γ) : Prop :=
  ∃ N, (accepted t N).take need = xs ∧ xs.length = need

/-- Draw until `need` values are accepted, at most `fuel` times. -/
def collect (next : σ → β × σ) (accept : β → Option γ) : ℕ → ℕ → σ → Option (List γ)
  | _, 0, _ => some []
  | 0, _ + 1, _ => none
  | fuel + 1, need + 1, st =>
    let (b, st) := next st
    match accept b with
    | none => collect next accept fuel (need + 1) st
    | some x => (collect next accept fuel need st).map (x :: ·)

/-- Draw `m` times, and keep everything. -/
def drawAll (next : σ → β × σ) : ℕ → σ → List β
  | 0, _ => []
  | m + 1, st =>
    let (b, st) := next st
    b :: drawAll next m st

/-- The draw `j` of a generator in the state `st`. -/
def drawn (next : σ → β × σ) (st : σ) (j : ℕ) : β := (next ((fun st => (next st).2)^[j] st)).1

/-! ### Accepted values -/

theorem accepted_add (t : ℕ → Option γ) (M N : ℕ) :
    accepted t (M + N) = accepted t M ++ accepted (fun i => t (M + i)) N := by
  rw [accepted, List.range_add, List.filterMap_append, List.filterMap_map]
  rfl

private theorem accepted_succ (t : ℕ → Option γ) (N : ℕ) :
    accepted t (N + 1) = (t 0).toList ++ accepted (fun i => t (i + 1)) N := by
  have h0 : accepted t 1 = (t 0).toList := by
    cases h : t 0 <;> simp [accepted, h]
  rw [Nat.add_comm, accepted_add, h0]
  simp only [Nat.add_comm 1]

theorem prefix_accepted (t : ℕ → Option γ) {M N : ℕ} (h : M ≤ N) : accepted t M <+: accepted t N := by
  obtain ⟨k, rfl⟩ := Nat.exists_eq_add_of_le h
  rw [accepted_add]
  exact List.prefix_append _ _

theorem map_accepted (g : γ → δ) (t : ℕ → Option γ) (N : ℕ) :
    (accepted t N).map g = accepted (fun i => (t i).map g) N := by
  rw [accepted, List.map_filterMap]
  rfl

/-- Once there are enough accepted values, further draws do not change the first ones. -/
theorem take_accepted_of_le (t : ℕ → Option γ) {M N need : ℕ} (h : M ≤ N) (hM : need ≤ (accepted t M).length) :
    (accepted t N).take need = (accepted t M).take need := by
  obtain ⟨r, hr⟩ := prefix_accepted t h
  rw [← hr, List.take_append_of_le_length hM]

theorem First.unique {t : ℕ → Option γ} {need : ℕ} {xs ys : List γ} (hx : First t need xs)
    (hy : First t need ys) : xs = ys := by
  obtain ⟨M, rfl, hM⟩ := hx
  obtain ⟨N, rfl, hN⟩ := hy
  rw [List.length_take] at hM hN
  rcases Nat.le_total M N with h | h
  · rw [take_accepted_of_le t h (by omega)]
  · rw [take_accepted_of_le t h (by omega)]

theorem First.length {t : ℕ → Option γ} {need : ℕ} {xs : List γ} (h : First t need xs) : xs.length = need := by
  obtain ⟨_, _, hl⟩ := h
  exact hl

theorem First.map {t : ℕ → Option γ} {need : ℕ} {xs : List γ} (h : First t need xs) (g : γ → δ) :
    First (fun i => (t i).map g) need (xs.map g) := by
  obtain ⟨N, rfl, hN⟩ := h
  exact ⟨N, by rw [List.map_take, map_accepted], by rw [List.length_map, hN]⟩

theorem First.mem {t : ℕ → Option γ} {need : ℕ} {xs : List γ} (h : First t need xs) {x : γ} (hx : x ∈ xs) :
    ∃ i, t i = some x := by
  obtain ⟨N, rfl, _⟩ := h
  obtain ⟨i, _, hi⟩ := List.mem_filterMap.1 (List.mem_of_mem_take hx)
  exact ⟨i, hi⟩

/-- The first accepted values of a mapped stream are the images of those of the stream. -/
theorem first_map_iff {t : ℕ → Option γ} {g : γ → δ} {need : ℕ} {xs : List δ} :
    First (fun i => (t i).map g) need xs ↔ ∃ zs, First t need zs ∧ xs = zs.map g := by
  constructor
  · rintro ⟨N, rfl, hl⟩
    rw [← map_accepted, ← List.map_take, List.length_map] at hl
    exact ⟨(accepted t N).take need, ⟨N, rfl, hl⟩, by rw [← map_accepted, List.map_take]⟩
  · rintro ⟨zs, hz, rfl⟩
    exact hz.map g

/-- A stream whose first draws are all accepted. -/
theorem first_of_forall_lt {t : ℕ → Option γ} {x : ℕ → γ} {need : ℕ} (h : ∀ i < need, t i = some (x i)) :
    First t need ((List.range need).map x) := by
  have hacc : accepted t need = (List.range need).map x := by
    rw [accepted, ← List.filterMap_eq_map]
    apply List.filterMap_congr
    intro i hi
    rw [h i (List.mem_range.1 hi)]
    rfl
  exact ⟨need, by rw [hacc, List.take_of_length_le (by simp)], by simp⟩

theorem first_const {t : ℕ → Option γ} {x : γ} (h : ∀ i, t i = some x) (need : ℕ) :
    First t need (List.replicate need x) := by
  have hfirst := first_of_forall_lt (x := fun _ => x) (fun i (_ : i < need) => h i)
  rwa [List.map_const', List.length_range] at hfirst

/-! ### Loops -/

/-- The loop, when its state follows the stream `t`: `I d st` says that `d` draws have been made in `st`. -/
private theorem collect_eq {next : σ → β × σ} {accept : β → Option γ} {t : ℕ → Option γ} {I : ℕ → σ → Prop}
    (hI : ∀ d st, I d st → accept (next st).1 = t d ∧ I (d + 1) (next st).2) (fuel need : ℕ) {d : ℕ} {st : σ}
    (h : I d st) : collect next accept fuel need st =
      if need ≤ (accepted (fun i => t (d + i)) fuel).length
      then some ((accepted (fun i => t (d + i)) fuel).take need) else none := by
  induction fuel generalizing need d st with
  | zero =>
    cases need with
    | zero => rfl
    | succ need => rfl
  | succ fuel ih =>
    cases need with
    | zero => simp [collect]
    | succ need =>
      -- the first draw is `t d`, the others are those of the stream from `d + 1` on
      obtain ⟨ht, h'⟩ := hI d st h
      have hacc : accepted (fun i => t (d + i)) (fuel + 1) =
          (t d).toList ++ accepted (fun i => t (d + 1 + i)) fuel := by
        rw [accepted_succ]
        simp only [Nat.add_zero, Nat.add_assoc, Nat.add_comm 1]
      rw [collect, hacc]
      cases htd : t d with
      | none =>
        rw [htd] at ht
        simp only [ht]
        rw [ih (need + 1) h', Option.toList_none, List.nil_append]
      | some x =>
        rw [htd] at ht
        simp only [ht]
        rw [ih need h']
        by_cases hc : need ≤ (accepted (fun i => t (d + 1 + i)) fuel).length <;> simp [hc]

/-- A loop of single draws returns the first accepted values. -/
theorem collect_iff {next : σ → β × σ} {accept : β → Option γ} {t : ℕ → Option γ} {I : ℕ → σ → Prop}
    (hI : ∀ d st, I d st → accept (next st).1 = t d ∧ I (d + 1) (next st).2) {need : ℕ} {st : σ} (h : I 0 st)
    (xs : List γ) : (∃ fuel, collect next accept fuel need st = some xs) ↔ First t need xs := by
  have heq : ∀ fuel, collect next accept fuel need st =
      if need ≤ (accepted t fuel).length then some ((accepted t fuel).take need) else none := by
    intro fuel
    have := collect_eq hI fuel need h
    simpa only [Nat.zero_add] using this
  constructor
  · rintro ⟨fuel, hf⟩
    rw [heq] at hf
    split at hf
    · rename_i hle
      obtain rfl := Option.some.inj hf
      exact ⟨fuel, rfl, by rw [List.length_take]; omega⟩
    · exact absurd hf (by simp)
  · rintro ⟨N, rfl, hl⟩
    rw [List.length_take] at hl
    exact ⟨N, by rw [heq, if_pos (by omega)]⟩

/-- A loop that keeps everything, when its state follows a stream. -/
theorem map_drawAll {next : σ → β × σ} {g : β → δ} {t : ℕ → δ} {I : ℕ → σ → Prop}
    (hI : ∀ d st, I d st → g (next st).1 = t d ∧ I (d + 1) (next st).2) (m : ℕ) {d : ℕ} {st : σ} (h : I d st) :
    (drawAll next m st).map g = (List.range' d m).map t := by
  induction m generalizing d st with
  | zero => rfl
  | succ m ih =>
    obtain ⟨h1, h2⟩ := hI d st h
    rw [drawAll, List.map_cons, h1, ih h2, List.range'_succ, List.map_cons]

theorem length_drawAll (next : σ → β × σ) (m : ℕ) (st : σ) : (drawAll next m st).length = m := by
  induction m generalizing st with
  | zero => rfl
  | succ m ih => rw [drawAll, List.length_cons, ih]

/-- The state after `d` draws follows the stream of draws. -/
theorem follows_drawn (next : σ → β × σ) (g : β → δ) (st : σ) (d : ℕ) (st' : σ)
    (h : st' = (fun st => (next st).2)^[d] st) : g (next st').1 = g (drawn next st d) ∧
      (next st').2 = (fun st => (next st).2)^[d + 1] st := by
  rw [h, Function.iterate_succ_apply', drawn]
  exact ⟨rfl, rfl⟩

theorem map_drawAll_drawn (next : σ → β × σ) (g : β → δ) (m : ℕ) (st : σ) :
    (drawAll next m st).map g = (List.range m).map fun j => g (drawn next st j) := by
  rw [List.range_eq_range']
  exact map_drawAll (follows_drawn next g st) m rfl

/-- A loop that makes `b` draws in every iteration returns the first accepted values. -/
theorem exists_take_accepted_iff (t : ℕ → Option γ) {b : ℕ} (hb : 0 < b) (need : ℕ) (xs : List γ) :
    (∃ fuel, need ≤ (accepted t (b * fuel)).length ∧ (accepted t (b * fuel)).take need = xs) ↔
      First t need xs := by
  constructor
  · rintro ⟨fuel, hle, rfl⟩
    exact ⟨b * fuel, rfl, by rw [List.length_take]; omega⟩
  · rintro ⟨N, rfl, hl⟩
    rw [List.length_take] at hl
    have hN : N ≤ b * N := Nat.le_mul_of_pos_left N hb
    have hlen := (prefix_accepted t hN).length_le
    exact ⟨N, by omega, take_accepted_of_le t hN (by omega)⟩

end Sampling
