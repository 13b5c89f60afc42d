import DfVrf.Lib.InPlace
import DfVrf.Lib.Negacyclic

/-!
# Butterfly passes compute transform layers

An in-place sweep of butterflies on an array of machine values computes a layer of the abstract transform, whenever
the body of the loop does so on one pair of entries.  Machine values are read into the ring by `v`; `ok` is what
the body assumes of the values it reads and `ok'` what it guarantees of those it writes.
-/

namespace Negacyclic

open InPlace

/-- The array `a` has length `n`, its entries satisfy `ok` and represent `f`. -/
structure Represents {α R : Type*} [Inhabited α] (v : α → R) (ok : α → Prop) (n : ℕ) (a : List α)
    (f : ℕ → R) : Prop where
  length : a.length = n
  ok_rd : ∀ e < n, ok (rd a e)
  val_rd : ∀ e < n, v (rd a e) = f e

namespace Represents

variable {α R : Type*} [Inhabited α] {v : α → R} {ok ok' : α → Prop} {n : ℕ} {a : List α} {f g : ℕ → R}

theorem congr (h : Represents v ok n a f) (hfg : ∀ e < n, f e = g e) : Represents v ok n a g :=
  ⟨h.length, h.ok_rd, fun e he => (h.val_rd e he).trans (hfg e he)⟩

theorem mono (h : Represents v ok n a f) (hok : ∀ x, ok x → ok' x) : Represents v ok' n a f :=
  ⟨h.length, fun e he => hok _ (h.ok_rd e he), h.val_rd⟩

/-- An array whose entries satisfy `ok` represents its values. -/
theorem of_forall_mem (hl : a.length = n) (h : ∀ x ∈ a, ok x) : Represents v ok n a (fun e => v (rd a e)) :=
  ⟨hl, fun e he => h _ (mem_rd (by rw [hl]; exact he)), fun _ _ => rfl⟩

theorem forall_mem (h : Represents v ok n a f) : ∀ x ∈ a, ok x := by
  intro x hx
  obtain ⟨i, hi, rfl⟩ := List.getElem_of_mem hx
  rw [← rd_eq_getElem hi]
  exact h.ok_rd i (by rw [← h.length]; exact hi)

theorem replicate {x : α} (hx : ok x) : Represents v ok n (List.replicate n x) (fun _ => v x) := by
  refine ⟨List.length_replicate, ?_, ?_⟩
  · intro e he
    rw [rd_replicate he]
    exact hx
  · intro e he
    rw [rd_replicate he]

/-- If values are determined by the elements they represent, an array is determined by its function. -/
theorem unique {b : List α} (hv : ∀ x y, ok x → ok y → v x = v y → x = y)
    (ha : Represents v ok n a f) (hb : Represents v ok n b f) : a = b := by
  refine ext_rd (ha.length.trans hb.length.symm) fun e he => ?_
  rw [ha.length] at he
  exact hv _ _ (ha.ok_rd e he) (hb.ok_rd e he) ((ha.val_rd e he).trans (hb.val_rd e he).symm)

/-- An array computed from `a` entry by entry. -/
theorem map {β : Type*} [Inhabited β] {w : β → R} {ok' : β → Prop} (ha : Represents v ok n a f) (φ : α → β)
    (hφ : ∀ e < n, ∀ x, ok x → v x = f e → ok' (φ x) ∧ w (φ x) = g e) :
    Represents w ok' n (a.map φ) g := by
  have h : ∀ e < n, ok' (rd (a.map φ) e) ∧ w (rd (a.map φ) e) = g e := by
    intro e he
    rw [rd_map _ (by rw [ha.length]; exact he)]
    exact hφ e he _ (ha.ok_rd e he) (ha.val_rd e he)
  exact ⟨by rw [List.length_map, ha.length], fun e he => (h e he).1, fun e he => (h e he).2⟩

/-- An array computed from `a` and `b` entry by entry. -/
theorem zipWith {β γ : Type*} [Inhabited β] [Inhabited γ] {w : β → R} {okb : β → Prop} {b : List β}
    {fb : ℕ → R} {u : γ → R} {okc : γ → Prop} (ha : Represents v ok n a f) (hb : Represents w okb n b fb)
    (φ : α → β → γ)
    (hφ : ∀ e < n, ∀ x y, ok x → okb y → v x = f e → w y = fb e → okc (φ x y) ∧ u (φ x y) = g e) :
    Represents u okc n (List.zipWith φ a b) g := by
  have hl : (List.zipWith φ a b).length = n := by rw [List.length_zipWith, ha.length, hb.length, Nat.min_self]
  have h : ∀ e < n, okc (rd (List.zipWith φ a b) e) ∧ u (rd (List.zipWith φ a b) e) = g e := by
    intro e he
    rw [rd_eq_getElem (by rw [hl]; exact he), List.getElem_zipWith, ← rd_eq_getElem, ← rd_eq_getElem]
    exact hφ e he _ _ (ha.ok_rd e he) (hb.ok_rd e he) (ha.val_rd e he) (hb.val_rd e he)
  exact ⟨hl, fun e he => (h e he).1, fun e he => (h e he).2⟩

/-- A sweep whose body sends a pair that represents `x`, `y` in block `i` to one that represents `lo i x y`,
`hi i x y`. -/
theorem sweep (lo hi : ℕ → R → R → R) {h m : ℕ} {φ : ℕ → α → α → α × α} (hh : 0 < h) (hn : 2 * h * m = n)
    (hφ : ∀ i < m, ∀ x y, ok x → ok y →
      (ok' (φ i x y).1 ∧ v (φ i x y).1 = lo i (v x) (v y)) ∧ ok' (φ i x y).2 ∧ v (φ i x y).2 = hi i (v x) (v y))
    (ha : Represents v ok n a f) : Represents v ok' n (InPlace.sweep h m φ a) fun e =>
      if e % (2 * h) < h then lo (e / (2 * h)) (f e) (f (e + h)) else hi (e / (2 * h)) (f (e - h)) (f e) := by
  subst hn
  have key : ∀ e < 2 * h * m, ok' (rd (InPlace.sweep h m φ a) e) ∧ v (rd (InPlace.sweep h m φ a) e) =
      if e % (2 * h) < h then lo (e / (2 * h)) (f e) (f (e + h)) else hi (e / (2 * h)) (f (e - h)) (f e) := by
    intro e he
    have hd : e / (2 * h) < m := Nat.div_lt_of_lt_mul he
    rw [rd_sweep φ hh (le_of_eq ha.length.symm), if_pos he, sweepEntry]
    split
    · rename_i hr
      have hp := add_lt_of_mod he hr
      rw [← ha.val_rd e he, ← ha.val_rd _ hp]
      exact (hφ _ hd _ _ (ha.ok_rd e he) (ha.ok_rd _ hp)).1
    · rw [← ha.val_rd e he, ← ha.val_rd (e - h) (by omega)]
      exact (hφ _ hd _ _ (ha.ok_rd _ (by omega)) (ha.ok_rd e he)).2
  exact ⟨by rw [length_sweep, ha.length], fun e he => (key e he).1, fun e he => (key e he).2⟩

/-- A sweep whose body is a forward butterfly computes a forward layer. -/
theorem sweep_fwd [CommRing R] {P : ℕ → R} {h m : ℕ} {φ : ℕ → α → α → α × α} (hh : 0 < h) (hn : 2 * h * m = n)
    (hφ : ∀ i < m, ∀ x y, ok x → ok y →
      (ok' (φ i x y).1 ∧ v (φ i x y).1 = v x + P (m + i) * v y) ∧
      ok' (φ i x y).2 ∧ v (φ i x y).2 = v x - P (m + i) * v y)
    (ha : Represents v ok n a f) : Represents v ok' n (InPlace.sweep h m φ a) (fwdLayer P m h f) :=
  sweep (fun i x y => x + P (m + i) * y) (fun i x y => x - P (m + i) * y) hh hn hφ ha

/-- A sweep whose body is an inverse butterfly computes an inverse layer. -/
theorem sweep_inv [CommRing R] {P' : ℕ → R} {h m : ℕ} {φ : ℕ → α → α → α × α} (hh : 0 < h) (hn : 2 * h * m = n)
    (hφ : ∀ i < m, ∀ x y, ok x → ok y →
      (ok' (φ i x y).1 ∧ v (φ i x y).1 = v x + v y) ∧
      ok' (φ i x y).2 ∧ v (φ i x y).2 = (v x - v y) * P' (m + i))
    (ha : Represents v ok n a f) : Represents v ok' n (InPlace.sweep h m φ a) (invLayer P' m h f) :=
  sweep (fun _ x y => x + y) (fun i x y => (x - y) * P' (m + i)) hh hn hφ ha

end Represents

/-! ### The loops over the layers -/

section Loops

variable {α R : Type*} [Inhabited α] [CommRing R] {v : α → R} {ok : α → Prop} {L : ℕ} {a : List α} {f : ℕ → R}

/-- One iteration of a forward transform with `m = 1 << l` blocks, on the state `(t, a)`. -/
def fwdStep (layer : ℕ → ℕ → ℕ → List α → List α) (st : ℕ × List α) (l : ℕ) : ℕ × List α :=
  (st.1 >>> 1, layer (1 <<< l) st.1 (st.1 >>> 1) st.2)

/-- One iteration of an inverse transform, on the state `(t, m, a)`. -/
def invStep (layer : ℕ → ℕ → ℕ → List α → List α) (st : ℕ × ℕ × List α) : ℕ × ℕ × List α :=
  (st.1 <<< 1, st.2.1 >>> 1, layer (st.2.1 >>> 1) st.1 (st.1 <<< 1) st.2.2)

/-- The state after the first `k` layers, if a pass computes a layer. -/
theorem foldl_fwdStep {P : ℕ → R} {T : ℕ → ℕ → ℕ → List α → List α}
    (hlayer : ∀ m h a f, 0 < h → 2 * h * m = 2 ^ L → Represents v ok (2 ^ L) a f →
      Represents v ok (2 ^ L) (T m (2 * h) h a) (fwdLayer P m h f))
    (ha : Represents v ok (2 ^ L) a f) {k : ℕ} (hk : k ≤ L) :
    ∃ a', (List.range k).foldl (fwdStep T) (1 <<< L, a) = (2 ^ (L - k), a') ∧
      Represents v ok (2 ^ L) a' (fwd P L k f) := by
  induction k with
  | zero => exact ⟨a, by simp [Nat.shiftLeft_eq], ha⟩
  | succ k ih =>
    obtain ⟨a', he, hr⟩ := ih (by omega)
    have ht : 2 ^ (L - k) = 2 * 2 ^ (L - (k + 1)) := by
      rw [← pow_succ', show L - (k + 1) + 1 = L - k by omega]
    have hh : 2 ^ (L - k) >>> 1 = 2 ^ (L - (k + 1)) := by
      rw [Nat.shiftRight_one, ht, Nat.mul_div_cancel_left _ (by omega)]
    rw [List.range_succ, List.foldl_append, he]
    simp only [List.foldl_cons, List.foldl_nil, fwdStep, hh, Nat.shiftLeft_eq, one_mul]
    refine ⟨_, rfl, ?_⟩
    rw [ht]
    exact hlayer _ _ _ _ (by positivity) (two_pow_layer (by omega)) hr

/-- The state after `k` inverse layers: what the remaining layers make of the current array is what all layers make of
the input. -/
theorem foldl_invStep {P' : ℕ → R} {T : ℕ → ℕ → ℕ → List α → List α}
    (hlayer : ∀ m h a f, 0 < h → 2 * h * m = 2 ^ L → Represents v ok (2 ^ L) a f →
      Represents v ok (2 ^ L) (T m h (2 * h) a) (invLayer P' m h f))
    (ha : Represents v ok (2 ^ L) a f) {k : ℕ} (hk : k ≤ L) :
    ∃ a' f', (List.range k).foldl (fun st _ => invStep T st) (1, 1 <<< L, a) = (2 ^ k, 2 ^ (L - k), a') ∧
      Represents v ok (2 ^ L) a' f' ∧ inv P' L (L - k) f' = inv P' L L f := by
  induction k with
  | zero => exact ⟨a, f, by simp [Nat.shiftLeft_eq], ha, rfl⟩
  | succ k ih =>
    obtain ⟨a', f', he, hr, hi⟩ := ih (by omega)
    obtain ⟨m, hm⟩ : ∃ m, L - k = m + 1 := ⟨L - k - 1, by omega⟩
    have hm' : L - (k + 1) = m := by omega
    have hk' : L - (m + 1) = k := by omega
    have hhm : 2 ^ (L - k) >>> 1 = 2 ^ m := by
      rw [Nat.shiftRight_one, hm, pow_succ, Nat.mul_div_cancel _ (by omega)]
    rw [List.range_succ, List.foldl_append, he]
    simp only [List.foldl_cons, List.foldl_nil, invStep, hhm, hm', Nat.shiftLeft_eq, pow_one]
    refine ⟨_, invLayer P' (2 ^ m) (2 ^ k) f', rfl, ?_, ?_⟩
    · rw [Nat.mul_comm (2 ^ k) 2]
      have hn := two_pow_layer (show m < L by omega)
      rw [hk'] at hn
      exact hlayer _ _ _ _ (by positivity) hn hr
    · rw [← hi, hm, inv, hk']

end Loops

end Negacyclic
