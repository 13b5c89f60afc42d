import Mathlib.Data.List.Basic
import Mathlib.Logic.Function.Iterate
import Mathlib.Algebra.Order.Ring.Nat

/-!
# Checked loops

A loop whose body may fail, in the `Option` monad.  If an invariant makes every check pass, the loop computes what
the loop without the checks computes (`foldlM_eq_some`, `runWhile_eq_some`).
-/

namespace Checked

variable {α σ : Type*}

/-- The difference, if it does not underflow. -/
def sub [LE α] [DecidableLE α] [Sub α] (x y : α) : Option α := if y ≤ x then some (x - y) else none

theorem sub_eq_some [LE α] [DecidableLE α] [Sub α] {x y : α} (h : y ≤ x) : sub x y = some (x - y) := if_pos h

/-- Write the entry `i` of an array, if there is one. -/
def store (a : List α) (i : ℕ) (x : α) : Option (List α) := if i < a.length then some (a.set i x) else none

theorem store_eq_some {a : List α} {i : ℕ} (h : i < a.length) (x : α) : store a i x = some (a.set i x) := if_pos h

/-- Run `body` while `cond` holds, at most `fuel` times. -/
def runWhile (cond : σ → Bool) (body : σ → Option σ) : ℕ → σ → Option σ
  | 0, s => some s
  | fuel + 1, s => if cond s then (body s).bind (runWhile cond body fuel) else some s

/-- A loop whose checks pass under an invariant `P` of its state. -/
theorem foldlM_eq_some {f : σ → α → Option σ} {g : σ → α → σ} (P : σ → Prop) {l : List α} {s : σ}
    (h : ∀ s, P s → ∀ x ∈ l, f s x = some (g s x) ∧ P (g s x)) (hs : P s) :
    l.foldlM f s = some (l.foldl g s) ∧ P (l.foldl g s) := by
  induction l generalizing s with
  | nil => exact ⟨rfl, hs⟩
  | cons x l ih =>
    obtain ⟨hx, hP⟩ := h s hs x List.mem_cons_self
    rw [List.foldlM_cons, hx, List.foldl_cons]
    exact ih (fun s hs y hy => h s hs y (List.mem_cons_of_mem x hy)) hP

/-- A loop that runs its body `k` times: the invariant `P r` holds while `r` rounds remain. -/
theorem runWhile_eq_some {cond : σ → Bool} {body : σ → Option σ} {g : σ → σ} (P : ℕ → σ → Prop)
    (hbody : ∀ r s, P (r + 1) s → cond s = true ∧ body s = some (g s) ∧ P r (g s))
    (hend : ∀ s, P 0 s → cond s = false) {k fuel : ℕ} {s : σ} (hs : P k s) (hk : k ≤ fuel) :
    runWhile cond body fuel s = some (g^[k] s) ∧ P 0 (g^[k] s) := by
  induction k generalizing fuel s with
  | zero =>
    refine ⟨?_, hs⟩
    cases fuel with
    | zero => rfl
    | succ fuel => rw [runWhile, hend s hs, if_neg Bool.false_ne_true, Function.iterate_zero_apply]
  | succ k ih =>
    cases fuel with
    | zero => exact absurd hk (by omega)
    | succ fuel =>
      obtain ⟨hc, hb, hP⟩ := hbody k s hs
      rw [runWhile, hc, if_pos rfl, hb, Option.bind_some, Function.iterate_succ_apply]
      exact ih hP (by omega)

/-- A loop that replaces every entry of an array, after `k` iterations. -/
private theorem foldlM_store_take (φ : α → α) (a : List α) {k : ℕ} (hk : k ≤ a.length) :
    (List.range k).foldlM (fun a i => (a[i]?).bind fun x => store a i (φ x)) a =
      some ((a.take k).map φ ++ a.drop k) := by
  induction k with
  | zero => rfl
  | succ k ih =>
    have hlen : ((a.take k).map φ).length = k := by rw [List.length_map, List.length_take, Nat.min_eq_left (by omega)]
    have hget : ((a.take k).map φ ++ a.drop k)[k]? = some a[k] := by
      rw [List.getElem?_append_right (by omega), hlen, Nat.sub_self, List.getElem?_drop, Nat.add_zero,
        List.getElem?_eq_getElem (by omega)]
    have hstore : store ((a.take k).map φ ++ a.drop k) k (φ a[k]) =
        some ((a.take (k + 1)).map φ ++ a.drop (k + 1)) := by
      rw [store_eq_some (by rw [List.length_append, hlen, List.length_drop]; omega),
        List.set_append_right _ _ (by omega), hlen, Nat.sub_self, List.drop_eq_getElem_cons (by omega),
        List.set_cons_zero, List.take_succ_eq_append_getElem (by omega), List.map_append, List.append_assoc]
      rfl
    rw [List.range_succ, List.foldlM_append, ih (by omega)]
    simp only [Option.bind_eq_bind, Option.bind_some, List.foldlM_cons, List.foldlM_nil, hget, hstore]
    rfl

/-- A loop that replaces every entry of an array. -/
theorem foldlM_store (φ : α → α) (a : List α) :
    (List.range a.length).foldlM (fun a i => (a[i]?).bind fun x => store a i (φ x)) a = some (a.map φ) := by
  rw [foldlM_store_take φ a (Nat.le_refl _), List.take_length, List.drop_length, List.append_nil]

end Checked
