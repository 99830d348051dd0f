/-
Lists that store differences.

* `sums a l` — the entries of `l` with the sums of the differences up to them, from `a` on;
* `insert x t l` — the entry `x` put where the sum is `t`, before the entries of that sum;
* `sums_insert`, `sums_sorted`, `insert_nonneg` — the insertion adds one entry with its sum
  and moves no other, and sums of nonnegative differences are in order.
-/
import Mathlib.Algebra.Order.Group.Defs
import Mathlib.Data.List.Perm.Basic
import Mathlib.Tactic.Abel

universe u v

namespace Deltas

variable {α : Type u} {β : Type v} [AddCommGroup α]

/-- The entries with the sums of the differences up to them. -/
def sums : α → List (β × α) → List (β × α)
  | _, [] => []
  | a, e :: l => (e.1, a + e.2) :: sums (a + e.2) l

/-- A later start, and a smaller first difference. -/
theorem sums_shift (a c : α) (e : β × α) (l : List (β × α)) :
    sums (a + c) ((e.1, e.2 - c) :: l) = sums a (e :: l) := by
  have hsum : a + c + (e.2 - c) = a + e.2 := by abel
  rw [sums, sums, hsum]

variable [LinearOrder α]

/-- An entry is put where the sum is `t`. -/
def insert (x : β) : α → List (β × α) → List (β × α)
  | t, [] => [(x, t)]
  | t, e :: l => if e.2 < t then e :: insert x (t - e.2) l else (x, t) :: (e.1, e.2 - t) :: l

/-- No sum but that of the new entry is new. -/
theorem sums_insert (x : β) (a t : α) (l : List (β × α)) :
    (sums a (insert x t l)).Perm ((x, a + t) :: sums a l) := by
  induction l generalizing a t with
  | nil => exact List.Perm.refl _
  | cons e l ih =>
    rw [insert]
    split
    case isTrue =>
      -- the new entry has its sum after `e`
      have hsum : a + e.2 + (t - e.2) = a + t := by abel
      rw [sums, sums]
      refine ((ih (a + e.2) (t - e.2)).cons _).trans ?_
      rw [hsum]
      exact List.Perm.swap _ _ _
    case isFalse =>
      rw [sums, sums_shift a t e l]

/-- The entries are the old ones and the new one. -/
theorem insert_forall {P : β → Prop} {x : β} {t : α} {l : List (β × α)} (hx : P x)
    (h : ∀ e ∈ l, P e.1) : ∀ e ∈ insert x t l, P e.1 := by
  induction l generalizing t with
  | nil => simpa [insert] using hx
  | cons e l ih =>
    rw [List.forall_mem_cons] at h
    rw [insert]
    split
    case isTrue =>
      rw [List.forall_mem_cons]
      exact ⟨h.1, ih h.2⟩
    case isFalse =>
      rw [List.forall_mem_cons, List.forall_mem_cons]
      exact ⟨hx, h.1, h.2⟩

/-- A positive first difference stays so. -/
theorem insert_head_pos (x : β) {t : α} {l : List (β × α)} (ht : 0 < t)
    (h : ∀ e, l.head? = some e → 0 < e.2) :
    ∀ e, (insert x t l).head? = some e → 0 < e.2 := by
  cases l with
  | nil => simpa [insert] using ht
  | cons e l =>
    rw [insert]
    split
    case isTrue => exact h
    case isFalse => simpa using ht

variable [IsOrderedAddMonoid α] {a t : α} {l : List (β × α)}

theorem le_sums (h : ∀ e ∈ l, 0 ≤ e.2) : ∀ e ∈ sums a l, a ≤ e.2 := by
  induction l generalizing a with
  | nil => exact fun _ he => absurd he List.not_mem_nil
  | cons e l ih =>
    rw [List.forall_mem_cons] at h
    have hle : a ≤ a + e.2 := le_add_of_nonneg_right h.1
    rw [sums, List.forall_mem_cons]
    exact ⟨hle, fun e' he' => hle.trans (ih h.2 e' he')⟩

theorem sums_sorted (h : ∀ e ∈ l, 0 ≤ e.2) : (sums a l).Pairwise fun e e' => e.2 ≤ e'.2 := by
  induction l generalizing a with
  | nil => exact List.Pairwise.nil
  | cons e l ih =>
    rw [List.forall_mem_cons] at h
    rw [sums, List.pairwise_cons]
    exact ⟨le_sums h.2, ih h.2⟩

theorem insert_nonneg (x : β) (ht : 0 ≤ t) (h : ∀ e ∈ l, 0 ≤ e.2) :
    ∀ e ∈ insert x t l, 0 ≤ e.2 := by
  induction l generalizing t with
  | nil => simpa [insert] using ht
  | cons e l ih =>
    rw [List.forall_mem_cons] at h
    rw [insert]
    split
    case isTrue hlt =>
      rw [List.forall_mem_cons]
      exact ⟨h.1, ih (sub_nonneg.mpr hlt.le) h.2⟩
    case isFalse hle =>
      rw [List.forall_mem_cons, List.forall_mem_cons]
      exact ⟨ht, sub_nonneg.mpr (not_lt.mp hle), h.2⟩

end Deltas
