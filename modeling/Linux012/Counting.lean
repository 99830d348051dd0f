/-
Counting over a finite type, for reference counts.

* `Counting.count` — the number of points where a predicate holds;
* `Counting.count_add_of_iff_off` — how a count changes when the predicate
  changes at one point;
* `Counting.two_le_count_of`, `Counting.count_le_of_injective` — bounds.
-/
import Mathlib.Data.Set.Card
import Mathlib.Algebra.BigOperators.Fin
import Mathlib.Algebra.Order.BigOperators.Group.Finset

namespace Counting

variable {ι : Type*} [Fintype ι]

/-- Two functions that agree off `a` have sums that differ by their values at `a`. -/
theorem sum_add_of_eq_off [DecidableEq ι] (f g : ι → ℕ) (a : ι)
    (h : ∀ x, x ≠ a → g x = f x) : ∑ x, g x + f a = ∑ x, f x + g a := by
  have hf : f a + ∑ x ∈ Finset.univ.erase a, f x = ∑ x, f x :=
    Finset.add_sum_erase _ f (Finset.mem_univ a)
  have hg : g a + ∑ x ∈ Finset.univ.erase a, g x = ∑ x, g x :=
    Finset.add_sum_erase _ g (Finset.mem_univ a)
  have heq : ∑ x ∈ Finset.univ.erase a, g x = ∑ x ∈ Finset.univ.erase a, f x :=
    Finset.sum_congr rfl fun x hx => h x (Finset.ne_of_mem_erase hx)
  omega

/-- The number of points where `P` holds. -/
noncomputable def count (P : ι → Prop) : ℕ := Set.ncard {x | P x}

variable {P Q : ι → Prop}

omit [Fintype ι] in
theorem count_congr (h : ∀ x, P x ↔ Q x) : count P = count Q := by
  simp only [count, h]

theorem count_eq_card [DecidablePred P] : count P = (Finset.univ.filter P).card := by
  rw [count, ← Set.ncard_coe_finset]
  simp

theorem count_eq_sum [DecidablePred P] : count P = ∑ x, if P x then 1 else 0 := by
  rw [count_eq_card, Finset.card_filter]

/-- How a count changes when the predicate changes at one point. -/
theorem count_add_of_iff_off [DecidableEq ι] [DecidablePred P] [DecidablePred Q] (a : ι)
    (h : ∀ x, x ≠ a → (Q x ↔ P x)) :
    count Q + (if P a then 1 else 0) = count P + (if Q a then 1 else 0) := by
  rw [count_eq_sum, count_eq_sum]
  exact sum_add_of_eq_off (fun x => if P x then 1 else 0) (fun x => if Q x then 1 else 0) a
    fun x hx => by simp only [h x hx]

theorem count_eq_zero_iff : count P = 0 ↔ ∀ x, ¬ P x := by
  rw [count, Set.ncard_eq_zero]
  exact Set.eq_empty_iff_forall_notMem

theorem count_pos_of {a : ι} (h : P a) : 1 ≤ count P := by
  by_contra hc
  exact count_eq_zero_iff.mp (by omega) a h

/-- Two points where `P` holds count for two. -/
theorem two_le_count_of {a b : ι} (hab : a ≠ b) (ha : P a) (hb : P b) : 2 ≤ count P := by
  have hsub : ({a, b} : Set ι) ⊆ {x | P x} := by
    rintro x (rfl | rfl)
    · exact ha
    · exact hb
  rw [count, ← Set.ncard_pair hab]
  exact Set.ncard_le_ncard hsub

omit [Fintype ι] in
/-- A count is at most `n` if a map below `n` is injective where `P` holds. -/
theorem count_le_of_injective {n : ℕ} (f : ι → ℕ) (hf : ∀ x, P x → f x < n)
    (hinj : ∀ x y, P x → P y → f x = f y → x = y) : count P ≤ n := by
  have hmaps : ∀ x ∈ {x | P x}, f x ∈ (Finset.range n : Set ℕ) := by
    intro x hx
    simpa using hf x hx
  have hle := Set.ncard_le_ncard_of_injOn f hmaps (fun x hx y hy => hinj x y hx hy)
    (Finset.finite_toSet _)
  rwa [Set.ncard_coe_finset, Finset.card_range] at hle

end Counting
