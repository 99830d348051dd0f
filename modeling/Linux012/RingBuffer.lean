/-
Ring buffers: `n + 1` cells and two pointers, which hold at most `n` elements.

* `push`, `front`, `pop`, `last`, `unpush` — the operations, which check nothing;
* `contents` — the elements from the tail to the head, the oldest first;
* `contents_push`, `contents_pop`, `contents_unpush` — the operations as operations of a
  queue, where the buffer is not full, or not empty.
-/
import Mathlib.Algebra.Group.Fin.Basic
import Mathlib.Data.Fin.Basic

universe u

open Function (update)

structure RingBuffer (n : ℕ) (α : Type u) where
  head : Fin (n + 1)
  tail : Fin (n + 1)
  buf : Fin (n + 1) → α

namespace RingBuffer

variable {n : ℕ} {α : Type u} {q : RingBuffer n α}

/-- How many elements it holds. -/
def count (q : RingBuffer n α) : ℕ := (q.head - q.tail).val

/-- How many elements more it can hold. -/
def left (q : RingBuffer n α) : ℕ := (q.tail - q.head - 1).val

def Empty (q : RingBuffer n α) : Prop := q.head = q.tail

def Full (q : RingBuffer n α) : Prop := q.left = 0

instance : Decidable q.Empty := inferInstanceAs (Decidable (_ = _))

instance : Decidable q.Full := inferInstanceAs (Decidable (_ = _))

def push (q : RingBuffer n α) (x : α) : RingBuffer n α :=
  { q with head := q.head + 1, buf := update q.buf q.head x }

/-- The oldest element. -/
def front (q : RingBuffer n α) : α := q.buf q.tail

def pop (q : RingBuffer n α) : RingBuffer n α := { q with tail := q.tail + 1 }

/-- The latest element. -/
def last (q : RingBuffer n α) : α := q.buf (q.head - 1)

def unpush (q : RingBuffer n α) : RingBuffer n α := { q with head := q.head - 1 }

/-- All elements are dropped. -/
def flush (q : RingBuffer n α) : RingBuffer n α := { q with head := q.tail }

/-- The elements, the oldest first. -/
def contents (q : RingBuffer n α) : List α :=
  (List.range q.count).map fun i => q.buf (q.tail + Fin.ofNat (n + 1) i)

@[simp] theorem length_contents (q : RingBuffer n α) : q.contents.length = q.count := by
  rw [contents, List.length_map, List.length_range]

theorem count_le (q : RingBuffer n α) : q.count ≤ n := Nat.lt_succ_iff.mp (q.head - q.tail).isLt

/-- One cell stays empty. -/
theorem left_eq (q : RingBuffer n α) : q.left = n - q.count := by
  have hlast : q.tail - q.head - 1 = Fin.last n - (q.head - q.tail) := by
    rw [← neg_neg (Fin.last n), Fin.neg_last, ← neg_sub q.head q.tail, sub_eq_add_neg,
      sub_eq_add_neg (-1)]
    exact add_comm _ _
  rw [left, hlast, Fin.last_sub, Fin.val_rev, count]
  omega

theorem full_iff : q.Full ↔ q.count = n := by
  have hle := q.count_le
  rw [Full, left_eq]
  omega

theorem empty_iff : q.Empty ↔ q.count = 0 := by
  rw [Empty, count, Fin.val_eq_zero_iff, sub_eq_zero]

theorem empty_iff_contents : q.Empty ↔ q.contents = [] := by
  rw [empty_iff, ← length_contents, List.length_eq_zero_iff]

theorem count_pos (h : ¬ q.Empty) : 0 < q.count := by
  rw [empty_iff] at h
  omega

theorem count_push (x : α) (h : ¬ q.Full) : (q.push x).count = q.count + 1 := by
  have hlt : q.head - q.tail < Fin.last n := by
    rw [full_iff] at h
    have hle := q.count_le
    rw [Fin.lt_def, Fin.val_last]
    exact lt_of_le_of_ne hle h
  have hsub : (q.push x).head - (q.push x).tail = q.head - q.tail + 1 :=
    add_sub_right_comm q.head 1 q.tail
  rw [count, hsub, Fin.val_add_one_of_lt hlt]
  rfl

theorem count_pop (h : ¬ q.Empty) : q.pop.count + 1 = q.count := by
  have hne : q.head - q.tail ≠ 0 := sub_ne_zero.mpr h
  have hsub : q.pop.head - q.pop.tail = q.head - q.tail - 1 := sub_add_eq_sub_sub q.head q.tail 1
  rw [count, hsub, Fin.val_sub_one_of_ne_zero hne]
  exact Nat.sub_add_cancel (count_pos h)

theorem count_unpush (h : ¬ q.Empty) : q.unpush.count + 1 = q.count := by
  have hne : q.head - q.tail ≠ 0 := sub_ne_zero.mpr h
  have hsub : q.unpush.head - q.unpush.tail = q.head - q.tail - 1 :=
    sub_right_comm q.head 1 q.tail
  rw [count, hsub, Fin.val_sub_one_of_ne_zero hne]
  exact Nat.sub_add_cancel (count_pos h)

/-- The cells of the elements. -/
def cell (q : RingBuffer n α) (i : ℕ) : Fin (n + 1) := q.tail + Fin.ofNat (n + 1) i

theorem cell_count (q : RingBuffer n α) : q.cell q.count = q.head := by
  rw [cell, count, Fin.ofNat_val_eq_self, add_sub_cancel]

/-- The cell behind the last element holds none. -/
theorem cell_ne_head {i : ℕ} (hi : i < q.count) : q.cell i ≠ q.head := by
  rw [← cell_count q]
  intro h
  have hval := congrArg Fin.val (add_left_cancel h)
  have hle := q.count_le
  rw [Fin.val_ofNat, Fin.val_ofNat, Nat.mod_eq_of_lt (by omega), Nat.mod_eq_of_lt (by omega)]
    at hval
  omega

theorem contents_eq (q : RingBuffer n α) :
    q.contents = (List.range q.count).map fun i => q.buf (q.cell i) := rfl

theorem contents_push (x : α) (h : ¬ q.Full) : (q.push x).contents = q.contents ++ [x] := by
  rw [contents_eq, count_push x h, List.range_succ, List.map_append, contents_eq]
  congr 1
  · refine List.map_congr_left fun i hi => ?_
    exact Function.update_of_ne (cell_ne_head (List.mem_range.mp hi)) _ _
  · have hcell : (q.push x).cell q.count = q.head := cell_count q
    rw [List.map_singleton, hcell]
    exact congrArg (fun y => [y]) (Function.update_self _ _ _)

theorem contents_pop (h : ¬ q.Empty) : q.contents = q.front :: q.pop.contents := by
  rw [contents_eq, ← count_pop h, List.range_succ_eq_map, List.map_cons, List.map_map,
    contents_eq]
  congr 1
  · have hcell : q.cell 0 = q.tail := add_zero q.tail
    rw [hcell]
    rfl
  · refine List.map_congr_left fun i _ => ?_
    have hcell : q.cell (i + 1) = q.pop.cell i := by
      have hsucc : Fin.ofNat (n + 1) (i + 1) = 1 + Fin.ofNat (n + 1) i := by
        rw [add_comm 1]
        exact Fin.ext (by simp [Fin.val_add])
      rw [cell, cell, pop, hsucc, add_assoc]
    exact congrArg q.buf hcell

theorem contents_unpush (h : ¬ q.Empty) : q.contents = q.unpush.contents ++ [q.last] := by
  rw [contents_eq, ← count_unpush h, List.range_succ, List.map_append, contents_eq]
  congr 1
  have hcell : q.unpush.cell q.unpush.count = q.head - 1 := cell_count q.unpush
  rw [List.map_singleton]
  exact congrArg (fun i => [q.buf i]) hcell

end RingBuffer
