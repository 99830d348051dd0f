/-
Arrays with zeros behind their end.

* `Sparse` — an array of any length, which is zero from its end on;
* `Sparse.read` — a part of it, up to the end;
* `Sparse.write` — what replaces a part of it, with zeros before where that is behind the end.
-/
import Mathlib.Algebra.Group.Nat.Defs
import Mathlib.Data.List.Basic

/-- An array, and zeros behind it. -/
@[ext]
structure Sparse (α : Type*) [Zero α] where
  size : ℕ
  get : ℕ → α
  zero : ∀ k, size ≤ k → get k = 0

namespace Sparse

variable {α : Type*} [Zero α] {a : Sparse α} {p m n k : ℕ} {f : ℕ → α}

/-- The elements from `p` on, `n` of them or as many as there are. -/
def read (a : Sparse α) (p n : ℕ) : List α :=
  (List.range (min n (a.size - p))).map fun k => a.get (p + k)

theorem length_read : (a.read p n).length = min n (a.size - p) := by
  rw [read, List.length_map, List.length_range]

/-- The `n` elements from `p` on are replaced. -/
def write (a : Sparse α) (p n : ℕ) (f : ℕ → α) : Sparse α where
  size := if n = 0 then a.size else max a.size (p + n)
  get k := if p ≤ k ∧ k < p + n then f (k - p) else a.get k
  zero k hk := by
    have hle : a.size ≤ k ∧ (n = 0 ∨ p + n ≤ k) := by
      split at hk <;> omega
    rw [if_neg (by omega)]
    exact a.zero k hle.1

theorem write_zero (a : Sparse α) (p : ℕ) (f : ℕ → α) : a.write p 0 f = a := by
  refine Sparse.ext rfl (funext fun k => if_neg ?_)
  omega

end Sparse
