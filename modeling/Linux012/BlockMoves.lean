/-
The string instructions over a memory of bytes: a block is moved, or an element is stored
again and again, with the addresses going up or down.

* `put` — one element of `w` bytes is stored;
* `stos`, `stosDown`, `movs`, `movsDown` — `rep stos` and `rep movs`, with the direction flag
  clear and set;
* `stos_apply`, `stosDown_apply`, `movs_apply`, `movsDown_apply` — what each leaves in each
  byte.  A move reads every byte before it overwrites it if it goes up to lower addresses, or
  down to higher ones.
-/
import Mathlib.Data.Nat.Notation

universe u

namespace BlockMoves

variable {α : Type u} {e m : ℕ → α} {w n a dst src k : ℕ}

/-- An element of `w` bytes is stored at `a`. -/
def put (w : ℕ) (e m : ℕ → α) (a : ℕ) : ℕ → α := fun k =>
  if a ≤ k ∧ k < a + w then e (k - a) else m k

/-- `n` elements are stored from `a` upwards. -/
def stos (w : ℕ) (e : ℕ → α) : ℕ → (ℕ → α) → ℕ → ℕ → α
  | 0, m, _ => m
  | n + 1, m, a => stos w e n (put w e m a) (a + w)

/-- `n` elements are stored from `a` downwards. -/
def stosDown (w : ℕ) (e : ℕ → α) : ℕ → (ℕ → α) → ℕ → ℕ → α
  | 0, m, _ => m
  | n + 1, m, a => stosDown w e n (put w e m a) (a - w)

/-- `n` elements are moved, from the lowest one. -/
def movs (w : ℕ) : ℕ → (ℕ → α) → ℕ → ℕ → ℕ → α
  | 0, m, _, _ => m
  | n + 1, m, dst, src => movs w n (put w (fun j => m (src + j)) m dst) (dst + w) (src + w)

/-- `n` elements are moved, from the highest one. -/
def movsDown (w : ℕ) : ℕ → (ℕ → α) → ℕ → ℕ → ℕ → α
  | 0, m, _, _ => m
  | n + 1, m, dst, src => movsDown w n (put w (fun j => m (src + j)) m dst) (dst - w) (src - w)

theorem put_of_mem (hk : a ≤ k) (hlt : k < a + w) : put w e m a k = e (k - a) := if_pos ⟨hk, hlt⟩

theorem put_of_not_mem (h : ¬ (a ≤ k ∧ k < a + w)) : put w e m a k = m k := if_neg h

theorem stos_apply (w : ℕ) (e : ℕ → α) (n : ℕ) (m : ℕ → α) (a k : ℕ) :
    stos w e n m a k = if a ≤ k ∧ k < a + w * n then e ((k - a) % w) else m k := by
  induction n generalizing m a with
  | zero =>
    rw [if_neg (by omega)]
    rfl
  | succ n ih =>
    have hmul : w * (n + 1) = w * n + w := Nat.mul_succ w n
    rw [stos, ih]
    by_cases hlater : a + w ≤ k ∧ k < a + w + w * n
    · -- stored by one of the later elements
      have hsub : k - a = k - (a + w) + w := by omega
      rw [if_pos hlater, if_pos (by omega), hsub, Nat.add_mod_right]
    · rw [if_neg hlater]
      by_cases hhere : a ≤ k ∧ k < a + w
      · rw [put_of_mem hhere.1 hhere.2, if_pos (by omega), Nat.mod_eq_of_lt (by omega)]
      · rw [put_of_not_mem hhere, if_neg (by omega)]

theorem stosDown_apply (w : ℕ) (e : ℕ → α) (n : ℕ) (m : ℕ → α) (a k : ℕ) (h : w * n ≤ a + w) :
    stosDown w e n m a k =
      if a + w ≤ k + w * n ∧ k < a + w then e ((k + w * n - (a + w)) % w) else m k := by
  induction n generalizing m a with
  | zero =>
    rw [if_neg (by omega)]
    rfl
  | succ n ih =>
    have hmul : w * (n + 1) = w * n + w := Nat.mul_succ w n
    rcases n with _ | n
    · rw [stosDown, stosDown]
      by_cases hhere : a ≤ k ∧ k < a + w
      · have hsub : k + w * (0 + 1) - (a + w) = k - a := by omega
        rw [put_of_mem hhere.1 hhere.2, if_pos (by omega), hsub, Nat.mod_eq_of_lt (by omega)]
      · rw [put_of_not_mem hhere, if_neg (by omega)]
    · have hmul' : w * (n + 1) = w * n + w := Nat.mul_succ w n
      rw [stosDown, ih _ _ (by omega)]
      by_cases hlater : a - w + w ≤ k + w * (n + 1) ∧ k < a - w + w
      · have hsub : k + w * (n + 1 + 1) - (a + w) = k + w * (n + 1) - (a - w + w) := by omega
        rw [if_pos hlater, if_pos (by omega), hsub]
      · rw [if_neg hlater]
        by_cases hhere : a ≤ k ∧ k < a + w
        · have hsub : k + w * (n + 1 + 1) - (a + w) = k - a + w * (n + 1) := by omega
          rw [put_of_mem hhere.1 hhere.2, if_pos (by omega), hsub, Nat.add_mul_mod_self_left,
            Nat.mod_eq_of_lt (by omega)]
        · rw [put_of_not_mem hhere, if_neg (by omega)]

theorem movs_apply (w n : ℕ) (m : ℕ → α) (k : ℕ) (h : dst ≤ src) :
    movs w n m dst src k = if dst ≤ k ∧ k < dst + w * n then m (k + (src - dst)) else m k := by
  induction n generalizing m dst src with
  | zero =>
    rw [if_neg (by omega)]
    rfl
  | succ n ih =>
    have hmul : w * (n + 1) = w * n + w := Nat.mul_succ w n
    rw [movs, ih _ (by omega)]
    by_cases hlater : dst + w ≤ k ∧ k < dst + w + w * n
    · -- what it comes from is above the first element
      have hsub : k + (src + w - (dst + w)) = k + (src - dst) := by omega
      rw [if_pos hlater, if_pos (by omega), hsub, put_of_not_mem (by omega)]
    · rw [if_neg hlater]
      by_cases hhere : dst ≤ k ∧ k < dst + w
      · have hsub : src + (k - dst) = k + (src - dst) := by omega
        rw [put_of_mem hhere.1 hhere.2, if_pos (by omega), hsub]
      · rw [put_of_not_mem hhere, if_neg (by omega)]

theorem movsDown_apply (w n : ℕ) (m : ℕ → α) (k : ℕ) (h : src ≤ dst) (hn : w * n ≤ src + w) :
    movsDown w n m dst src k =
      if dst + w ≤ k + w * n ∧ k < dst + w then m (k - (dst - src)) else m k := by
  induction n generalizing m dst src with
  | zero =>
    rw [if_neg (by omega)]
    rfl
  | succ n ih =>
    have hmul : w * (n + 1) = w * n + w := Nat.mul_succ w n
    rcases n with _ | n
    · rw [movsDown, movsDown]
      by_cases hhere : dst ≤ k ∧ k < dst + w
      · have hsub : src + (k - dst) = k - (dst - src) := by omega
        rw [put_of_mem hhere.1 hhere.2, if_pos (by omega), hsub]
      · rw [put_of_not_mem hhere, if_neg (by omega)]
    · have hmul' : w * (n + 1) = w * n + w := Nat.mul_succ w n
      rw [movsDown, ih _ (by omega) (by omega)]
      by_cases hlater : dst - w + w ≤ k + w * (n + 1) ∧ k < dst - w + w
      · have hsub : k - (dst - w - (src - w)) = k - (dst - src) := by omega
        rw [if_pos hlater, if_pos (by omega), hsub, put_of_not_mem (by omega)]
      · rw [if_neg hlater]
        by_cases hhere : dst ≤ k ∧ k < dst + w
        · have hsub : src + (k - dst) = k - (dst - src) := by omega
          rw [put_of_mem hhere.1 hhere.2, if_pos (by omega), hsub]
        · rw [put_of_not_mem hhere, if_neg (by omega)]

end BlockMoves
