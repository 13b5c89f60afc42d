import Mathlib.Algebra.Ring.Nat
import Mathlib.Data.Fin.VecNotation

/-!
# The permutation Keccak-f[1600]

The state is 25 lanes, lane `(x, y)` at the index `x + 5 * y`.  The operations on lanes are a parameter (`LaneOps`), so
that a round on machine words of another size is the same function of other operations.

* `theta_map`, `rhoPi_map`, `chi_map`, `iota_map`: the steps, for a map of lanes that respects the operations.
* `theta_xor`, `rhoPi_xor`: the linear steps, for operations that satisfy the laws of the exclusive or.
-/

namespace KeccakF

/-- The operations on lanes: the exclusive or, the rotation, and the conjunction with a complement. -/
structure LaneOps (α : Type*) where
  xor : α → α → α
  rotl : ℕ → α → α
  andNot : α → α → α

variable {α β : Type*}

/-- The instances behind the numerals for lanes, columns and rows. -/
instance (priority := high) neZeroLanes : NeZero 25 := ⟨by decide⟩

instance (priority := high) neZeroColumns : NeZero 5 := ⟨by decide⟩

/-! ### The steps of a round -/

/-- The column of a lane. -/
def col (l : Fin 25) : Fin 5 := ⟨l % 5, by omega⟩

/-- The row of a lane. -/
def row (l : Fin 25) : Fin 5 := ⟨l / 5, by omega⟩

/-- The lane in column `x` and row `y`. -/
def lane (x y : Fin 5) : Fin 25 := ⟨x + 5 * y, by omega⟩

/-- The parity of column `x`. -/
def parity (o : LaneOps α) (A : Fin 25 → α) (x : Fin 5) : α :=
  o.xor (o.xor (o.xor (o.xor (A (lane x 0)) (A (lane x 1))) (A (lane x 2))) (A (lane x 3))) (A (lane x 4))

def theta (o : LaneOps α) (A : Fin 25 → α) (l : Fin 25) : α :=
  o.xor (A l) (o.xor (parity o A (col l + 4)) (o.rotl 1 (parity o A (col l + 1))))

/-- The rotation of each lane. -/
def rho : Fin 25 → ℕ :=
  ![0, 1, 62, 28, 27, 36, 44, 6, 55, 20, 3, 10, 43, 25, 39, 41, 45, 15, 21, 8, 18, 2, 61, 56, 14]

/-- The lane that is moved to `l`. -/
def source (l : Fin 25) : Fin 25 := lane (col l + 3 * row l) (col l)

def rhoPi (o : LaneOps α) (A : Fin 25 → α) (l : Fin 25) : α := o.rotl (rho (source l)) (A (source l))

def chi (o : LaneOps α) (B : Fin 25 → α) (l : Fin 25) : α :=
  o.xor (B l) (o.andNot (B (lane (col l + 1) (row l))) (B (lane (col l + 2) (row l))))

/-- Add the round constant to the first lane. -/
def iota (o : LaneOps α) (rc : α) (B : Fin 25 → α) (l : Fin 25) : α := if l = 0 then o.xor (B l) rc else B l

def round (o : LaneOps α) (rc : α) (A : Fin 25 → α) : Fin 25 → α := iota o rc (chi o (rhoPi o (theta o A)))

/-- The rounds for a list of round constants. -/
def rounds (o : LaneOps α) (rcs : List α) (A : Fin 25 → α) : Fin 25 → α := rcs.foldl (fun A rc => round o rc A) A

/-- The rounds for an initial part of the round constants. -/
theorem rounds_take_succ (o : LaneOps α) (rcs : List α) (d : α) {n : ℕ} (hn : n < rcs.length) (A : Fin 25 → α) :
    rounds o (rcs.take (n + 1)) A = round o (rcs.getD n d) (rounds o (rcs.take n) A) := by
  rw [List.take_add_one, List.getElem?_eq_getElem hn, rounds, rounds, List.foldl_append, Option.toList_some,
    List.foldl_cons, List.foldl_nil, List.getD_eq_getElem?_getD, List.getElem?_eq_getElem hn, Option.getD_some]

/-! ### Changing the lanes -/

/-- A map of lanes that respects the operations. -/
structure LaneOps.Hom (o : LaneOps α) (o' : LaneOps β) (φ : α → β) : Prop where
  xor : ∀ a b, φ (o.xor a b) = o'.xor (φ a) (φ b)
  rotl : ∀ k < 64, ∀ a, φ (o.rotl k a) = o'.rotl k (φ a)
  andNot : ∀ a b, φ (o.andNot a b) = o'.andNot (φ a) (φ b)

private theorem rho_lt (l : Fin 25) : rho l < 64 := by
  revert l
  decide

private theorem parity_map {o : LaneOps α} {o' : LaneOps β} {φ : α → β} (h : o.Hom o' φ) (A : Fin 25 → α) (x : Fin 5) :
    parity o' (fun l => φ (A l)) x = φ (parity o A x) := by
  simp only [parity, h.xor]

theorem theta_map {o : LaneOps α} {o' : LaneOps β} {φ : α → β} (h : o.Hom o' φ) (A : Fin 25 → α) (l : Fin 25) :
    theta o' (fun l => φ (A l)) l = φ (theta o A l) := by
  rw [theta, theta, parity_map h, parity_map h, h.xor, h.xor, h.rotl 1 (by omega)]

theorem rhoPi_map {o : LaneOps α} {o' : LaneOps β} {φ : α → β} (h : o.Hom o' φ) (A : Fin 25 → α) (l : Fin 25) :
    rhoPi o' (fun l => φ (A l)) l = φ (rhoPi o A l) := by
  rw [rhoPi, rhoPi, h.rotl _ (rho_lt _)]

theorem chi_map {o : LaneOps α} {o' : LaneOps β} {φ : α → β} (h : o.Hom o' φ) (B : Fin 25 → α) (l : Fin 25) :
    chi o' (fun l => φ (B l)) l = φ (chi o B l) := by
  rw [chi, chi, h.xor, h.andNot]

theorem iota_map {o : LaneOps α} {o' : LaneOps β} {φ : α → β} (h : o.Hom o' φ) (rc : α) (B : Fin 25 → α)
    (l : Fin 25) : iota o' (φ rc) (fun l => φ (B l)) l = φ (iota o rc B l) := by
  rw [iota, iota, apply_ite φ, h.xor]

/-! ### The linear steps -/

/-- The laws of the exclusive or, which the rotations respect. -/
structure LaneOps.Linear (o : LaneOps α) : Prop where
  assoc : ∀ a b c, o.xor (o.xor a b) c = o.xor a (o.xor b c)
  comm : ∀ a b, o.xor a b = o.xor b a
  rotl_xor : ∀ k < 64, ∀ a b, o.rotl k (o.xor a b) = o.xor (o.rotl k a) (o.rotl k b)

/-- Four summands in pairs. -/
private theorem LaneOps.Linear.xor_xor_comm {o : LaneOps α} (h : o.Linear) (a b c d : α) :
    o.xor (o.xor a b) (o.xor c d) = o.xor (o.xor a c) (o.xor b d) := by
  rw [h.assoc, ← h.assoc b, h.comm b c, h.assoc c, ← h.assoc]

private theorem parity_xor {o : LaneOps α} (h : o.Linear) (A B : Fin 25 → α) (x : Fin 5) :
    parity o (fun l => o.xor (A l) (B l)) x = o.xor (parity o A x) (parity o B x) := by
  rw [parity, h.xor_xor_comm (A (lane x 0)), h.xor_xor_comm _ _ (A (lane x 2)), h.xor_xor_comm _ _ (A (lane x 3)),
    h.xor_xor_comm _ _ (A (lane x 4)), parity, parity]

theorem theta_xor {o : LaneOps α} (h : o.Linear) (A B : Fin 25 → α) :
    theta o (fun l => o.xor (A l) (B l)) = fun l => o.xor (theta o A l) (theta o B l) := by
  funext l
  rw [theta, parity_xor h, parity_xor h, h.rotl_xor 1 (by omega), h.xor_xor_comm (parity o A _),
    h.xor_xor_comm (A l), theta, theta]

theorem rhoPi_xor {o : LaneOps α} (h : o.Linear) (A B : Fin 25 → α) :
    rhoPi o (fun l => o.xor (A l) (B l)) = fun l => o.xor (rhoPi o A l) (rhoPi o B l) := by
  funext l
  rw [rhoPi, h.rotl_xor _ (rho_lt _), rhoPi, rhoPi]

end KeccakF
