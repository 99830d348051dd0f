/-
Machine words as numbers.

* `or_toNat`, `mask_toNat`, `field_toNat` — bit fields that are put together and taken apart;
* `signed_pattern`, `or_top` — the uppermost bit;
* `append_toNat` — two words as one;
* `magnitude_natAbs` — the magnitude of a word with a sign.
-/
import Mathlib.Algebra.Ring.Nat
import Mathlib.Data.Nat.Notation

namespace Words

variable {w : ℕ}

/-- The bits of two words are put together. -/
theorem or_toNat {x y : BitVec w} (k : ℕ) (hx : x.toNat % 2 ^ k = 0) (hy : y.toNat < 2 ^ k) :
    (x ||| y).toNat = x.toNat + y.toNat := by
  have hdiv : x.toNat = 2 ^ k * (x.toNat / 2 ^ k) := by
    have h := Nat.div_add_mod x.toNat (2 ^ k)
    omega
  rw [BitVec.toNat_or, hdiv, ← Nat.two_pow_add_eq_or_of_lt hy, ← hdiv]

theorem mask_toNat (x mask : BitVec w) (k : ℕ) (hm : mask.toNat = 2 ^ k - 1) :
    (x &&& mask).toNat = x.toNat % 2 ^ k := by
  rw [BitVec.toNat_and, hm, Nat.and_two_pow_sub_one_eq_mod]

/-- The lower bits of a word, moved to their place. -/
theorem field_toNat (x : BitVec 32) {mask : BitVec 32} (j k : ℕ) (h : j + k ≤ 32)
    (hm : mask.toNat = (2 ^ k - 1) <<< j) :
    ((x <<< j) &&& mask).toNat = x.toNat % 2 ^ k * 2 ^ j := by
  have hshift : (x <<< j).toNat = (x.toNat % 2 ^ (32 - j)) <<< j := by
    have hsplit : 2 ^ 32 = 2 ^ (32 - j) * 2 ^ j := by
      rw [← Nat.pow_add, Nat.sub_add_cancel (by omega)]
    rw [BitVec.toNat_shiftLeft, Nat.shiftLeft_eq, Nat.shiftLeft_eq, hsplit, Nat.mul_mod_mul_right]
  rw [BitVec.toNat_and, hshift, hm, ← Nat.shiftLeft_and_distrib, Nat.and_two_pow_sub_one_eq_mod,
    Nat.mod_mod_of_dvd _ (Nat.pow_dvd_pow 2 (by omega)), Nat.shiftLeft_eq]

/-- A bit pattern below the sign. -/
theorem signed_pattern {x : BitVec w} (top : BitVec w) {y : ℕ} (k : ℕ) (htop : top.toNat = 2 ^ k)
    (hx : x.toNat = y) (hy : y < 2 ^ k) (neg : Bool) :
    (if neg then x ||| top else x).toNat = y + if neg then 2 ^ k else 0 := by
  cases neg with
  | false => exact hx
  | true =>
    have hzero : top.toNat % 2 ^ k = 0 := by rw [htop, Nat.mod_self]
    rw [if_pos rfl, BitVec.or_comm, or_toNat k hzero (by omega), hx, htop, if_pos rfl, Nat.add_comm]

theorem add_inc (x : BitVec w) {p : Prop} [Decidable p] {inc : Bool}
    (h : p ↔ inc = true) : (if p then x + 1 else x) = x + if inc then 1 else 0 := by
  by_cases hp : p
  · rw [if_pos hp, if_pos (h.mp hp)]
  · rw [if_neg hp, if_neg (mt h.mpr hp)]
    exact (BitVec.add_zero x).symm

theorem add_no_inc (x : BitVec w) : (x + if false then 1 else 0) = x := BitVec.add_zero x

theorem append_toNat (x y : BitVec 32) : (x ++ y).toNat = x.toNat * 2 ^ 32 + y.toNat := by
  rw [BitVec.toNat_append, ← Nat.shiftLeft_add_eq_or_of_lt y.isLt, Nat.shiftLeft_eq]

/-- A leading one. -/
theorem or_top (x : BitVec 32) : (x ||| 0x80000000).toNat = 2 ^ 31 + x.toNat % 2 ^ 31 := by
  have hlt := x.isLt
  have hr : x.toNat % 2 ^ 31 < 2 ^ 31 := Nat.mod_lt _ (Nat.two_pow_pos 31)
  have hsplit : x.toNat = 2 ^ 31 * (x.toNat / 2 ^ 31) ||| x.toNat % 2 ^ 31 := by
    rw [← Nat.two_pow_add_eq_or_of_lt hr, Nat.div_add_mod]
  have htop : 2 ^ 31 * (x.toNat / 2 ^ 31) ||| 2 ^ 31 = 2 ^ 31 * 1 := by
    have hq : x.toNat / 2 ^ 31 = 0 ∨ x.toNat / 2 ^ 31 = 1 := by omega
    rcases hq with hq | hq <;> rw [hq] <;> rfl
  calc (x ||| 0x80000000).toNat
      = 2 ^ 31 * (x.toNat / 2 ^ 31) ||| x.toNat % 2 ^ 31 ||| 2 ^ 31 := by
        rw [BitVec.toNat_or, ← hsplit]
        rfl
    _ = 2 ^ 31 * 1 ||| x.toNat % 2 ^ 31 := by rw [Nat.or_assoc, Nat.or_comm _ (2 ^ 31),
          ← Nat.or_assoc, htop]
    _ = 2 ^ 31 + x.toNat % 2 ^ 31 := by rw [← Nat.two_pow_add_eq_or_of_lt hr, Nat.mul_one]

theorem msb_iff (s : BitVec 32) : s.msb = true ↔ 2 ^ 31 ≤ s.toNat := by
  rw [BitVec.msb_eq_decide, decide_eq_true_iff]

/-- The magnitude of a word with a sign. -/
theorem magnitude_natAbs (x : BitVec w) :
    (if x.msb then -x else x).toNat = x.toInt.natAbs := by
  have hlt := x.isLt
  rw [BitVec.toInt_eq_msb_cond]
  cases hs : x.msb with
  | false => rfl
  | true =>
    have hpos : 0 < x.toNat := by
      rw [BitVec.msb_eq_decide, decide_eq_true_iff] at hs
      exact Nat.lt_of_lt_of_le (Nat.two_pow_pos _) hs
    rw [if_pos rfl, if_pos rfl, BitVec.toNat_neg, Nat.mod_eq_of_lt (by omega)]
    omega

end Words
