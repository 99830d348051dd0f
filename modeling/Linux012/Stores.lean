/-
Rounding on store (temp_to_short, temp_to_long and real_to_int of kernel/math/convert.c).

* `shorts`, `longs`, `ints` — the finite values of the targets;
* `tempToShort_value`, `tempToLong_value`, `realToInt_value` — a store gives one of the neighbours
  of the value;
* `ShortMissed`, `LongMissed`, `IntMissed` — bits are lost that the code does not look at, and they
  decide; or, for long reals, bits are looked at that are not lost;
* `rounding_on_store` — a store gives what the rounding control selects if and only if no bits are
  missed.
-/
import Linux012.TempReals

open Rounding Words

namespace MathEmu

/-! ### The values of the targets -/

def shortMag : ℕ → ℚ := floatValue 23 (-149)

def longMag : ℕ → ℚ := floatValue 52 (-1074)

def shortValue (s : BitVec 32) : ℚ := signed s.msb (shortMag (s.toNat % 2 ^ 31))

def longValue (d : LongReal) : ℚ := signed d.bits.msb (longMag (d.bits.toNat % 2 ^ 63))

/-- The finite short reals. -/
def shorts : Set ℚ := grid shortMag 0x7f7fffff

/-- The finite long reals. -/
def longs : Set ℚ := grid longMag 0x7fefffffffffffff

/-- The values of `temp_int`. -/
def ints : Set ℚ := grid (fun n => (n : ℚ)) (2 ^ 64 - 1)

/-! ### Short reals -/

section

variable (cwd : BitVec 32) (t : TempReal)

/-- The exponent of a value that is at least a power of two, or below one. -/
theorem exp_of_le {k : ℤ} (h : (2 : ℚ) ^ k ≤ |t.value|) : k < t.exp - 16382 := by
  have hlt : (t.mantissa.toNat : ℚ) < 2 ^ (64 : ℤ) := by exact_mod_cast t.mantissa.isLt
  have hpos : (0 : ℚ) < 2 ^ ((t.exp : ℤ) - 16446) := by positivity
  have hpow : (2 : ℚ) ^ k < 2 ^ ((t.exp : ℤ) - 16382) := by
    calc (2 : ℚ) ^ k ≤ t.mantissa.toNat * 2 ^ ((t.exp : ℤ) - 16446) := by rw [← abs_value]; exact h
      _ < 2 ^ (64 : ℤ) * 2 ^ ((t.exp : ℤ) - 16446) := mul_lt_mul_of_pos_right hlt hpos
      _ = 2 ^ ((t.exp : ℤ) - 16382) := by
        rw [← zpow_add₀ two_ne_zero]
        congr 1
        omega
  exact (zpow_lt_zpow_iff_right₀ one_lt_two).mp hpow

theorem exp_of_lt {k : ℤ} (hm : 2 ^ 63 ≤ t.mantissa.toNat) (h : |t.value| < (2 : ℚ) ^ k) :
    (t.exp : ℤ) - 16383 < k := by
  have hge : (2 : ℚ) ^ (63 : ℤ) ≤ t.mantissa.toNat := by exact_mod_cast hm
  have hpos : (0 : ℚ) < 2 ^ ((t.exp : ℤ) - 16446) := by positivity
  have hpow : (2 : ℚ) ^ ((t.exp : ℤ) - 16383) < 2 ^ k := by
    calc (2 : ℚ) ^ ((t.exp : ℤ) - 16383) = 2 ^ (63 : ℤ) * 2 ^ ((t.exp : ℤ) - 16446) := by
          rw [← zpow_add₀ two_ne_zero]
          congr 1
          omega
      _ ≤ t.mantissa.toNat * 2 ^ ((t.exp : ℤ) - 16446) := mul_le_mul_of_nonneg_right hge hpos.le
      _ < 2 ^ k := by rw [← abs_value]; exact h
  exact (zpow_lt_zpow_iff_right₀ one_lt_two).mp hpow

/-- A pattern below the sign, and one that may be added. -/
theorem pattern_fields {w k n : ℕ} (hw : w = k + 1) (hn : n + 1 < 2 ^ k) (neg inc : Bool) :
    (BitVec.ofNat w (n + if neg then 2 ^ k else 0) + if inc then 1 else 0).msb = neg ∧
      (BitVec.ofNat w (n + if neg then 2 ^ k else 0) + if inc then 1 else 0).toNat % 2 ^ k =
        if inc then n + 1 else n := by
  subst hw
  have hpow : 2 ^ (k + 1) = 2 * 2 ^ k := by rw [Nat.pow_succ, Nat.mul_comm]
  have hone : (1 : BitVec (k + 1)).toNat = 1 := by
    have hlt : 1 < 2 ^ (k + 1) := by omega
    exact (BitVec.toNat_ofNat 1 (k + 1)).trans (Nat.mod_eq_of_lt hlt)
  have hsum : (BitVec.ofNat (k + 1) (n + if neg then 2 ^ k else 0) +
      if inc then 1 else 0).toNat = (if inc then n + 1 else n) + if neg then 2 ^ k else 0 := by
    have hzero : (0 : BitVec (k + 1)).toNat = 0 := BitVec.toNat_ofNat 0 (k + 1)
    rw [BitVec.toNat_add, BitVec.toNat_ofNat, apply_ite BitVec.toNat, hone, hzero, hpow]
    have hsign : n + (if neg then 2 ^ k else 0) + 1 < 2 * 2 ^ k := by
      split <;> omega
    have hadd : (if inc then 1 else 0) ≤ 1 := by
      split <;> decide
    have hinc : (if inc then n + 1 else n) = n + if inc then 1 else 0 := by
      split <;> rfl
    rw [Nat.mod_eq_of_lt (Nat.lt_of_succ_lt hsign), Nat.mod_eq_of_lt (by omega)]
    omega
  have hsmall : (if inc then n + 1 else n) < 2 ^ k := by
    split <;> omega
  rw [BitVec.msb_eq_decide, hsum, Nat.add_sub_cancel]
  cases neg with
  | false =>
    simp only [Bool.false_eq_true, if_false, Nat.add_zero]
    exact ⟨decide_eq_false (Nat.not_le.mpr hsmall), Nat.mod_eq_of_lt hsmall⟩
  | true =>
    simp only [if_true]
    refine ⟨decide_eq_true (Nat.le_add_left _ _), ?_⟩
    rw [Nat.add_mod_right, Nat.mod_eq_of_lt hsmall]

/-- The exponents of the normal range. -/
theorem float_range {p k top : ℕ} {u : ℤ} (hm : 2 ^ 63 ≤ t.mantissa.toNat)
    (htop : floatMag p top < 2 ^ k) (hlow : floatValue p u (2 ^ p) ≤ |t.value|)
    (hhigh : |t.value| ≤ floatValue p u top) :
    p + u < t.exp - 16382 ∧ (t.exp : ℤ) - 16383 < k + u := by
  rw [floatValue_min] at hlow
  exact ⟨exp_of_le t hlow, exp_of_lt t hm (lt_of_le_of_lt hhigh (floatValue_lt u htop))⟩

/-- The rounding of a value whose mantissa loses `s` bits, with the exponent at another bias. -/
theorem float_rounds {p s bias top : ℕ} {u : ℤ} {mode : Mode} (hs : p + s = 63)
    (hu : u - bias - 1 - s = -16446) (hm : 2 ^ 63 ≤ t.mantissa.toNat) (he : bias < t.exp)
    (hhigh : |t.value| ≤ floatValue p u top) (inc : Bool) {n : ℕ}
    (hn : n = (t.exp - bias) * 2 ^ p + t.mantissa.toNat / 2 ^ s % 2 ^ p) :
    Rounds (grid (floatValue p u) top) mode t.value
        (signed t.neg (floatValue p u (if inc then n + 1 else n))) ↔
      Picks mode t.neg inc (t.mantissa.toNat % 2 ^ s) (2 ^ s) := by
  have hfrac : t.mantissa.toNat / 2 ^ s = 2 ^ p + t.mantissa.toNat / 2 ^ s % 2 ^ p := by
    have hone : t.mantissa.toNat / 2 ^ s / 2 ^ p = 1 := by
      have hlt := t.mantissa.isLt
      rw [Nat.div_div_eq_div_mul, ← Nat.pow_add, Nat.add_comm s p, hs]
      omega
    have hsplit := Nat.div_add_mod (t.mantissa.toNat / 2 ^ s) (2 ^ p)
    rw [hone, Nat.mul_one] at hsplit
    exact hsplit.symm
  have hnear := float_neighbours u (e := t.exp - bias) (by omega) hfrac
    (Nat.mod_lt _ (Nat.two_pow_pos p))
  have hscale : u + ((t.exp - bias : ℕ) : ℤ) - 1 - s = (t.exp : ℤ) - 16446 := by omega
  rw [← hn, hscale] at hnear
  rw [TempReal.value]
  exact rounds_iff (floatValue_strictMono p u) (floatValue_zero p u) (by positivity) (by omega)
    (Nat.two_pow_pos s) hnear.1 hnear.2 (by rw [← abs_value]; exact hhigh) t.neg inc

/-- A store gives one of the neighbours. -/
theorem tempToShort_value (hlow : 16257 ≤ t.exp) (hhigh : t.exp ≤ 16510) :
    shortValue (tempToShort cwd t) = signed t.neg
      (shortMag (if shortInc cwd t then shortPattern t + 1 else shortPattern t)) := by
  have hn : shortPattern t + 1 < 2 ^ 31 := by
    rw [shortPattern]
    omega
  have hfields := pattern_fields (w := 32) rfl hn t.neg (shortInc cwd t)
  rw [shortValue, tempToShort_eq cwd t (by omega), hfields.1, hfields.2]

/-- The bits of the lower half are lost without being looked at, and they decide. -/
def ShortMissed : Prop :=
  t.a ≠ 0 ∧
    match rounding cwd with
    | .nearest => t.b &&& 0xff = 0x80
    | .down => t.neg = true ∧ t.b &&& 0xff = 0
    | .up => t.neg = false ∧ t.b &&& 0xff = 0
    | .zero => False

theorem short_picks : Picks (rounding cwd) t.neg (shortInc cwd t) (t.mantissa.toNat % 2 ^ 40)
    (2 ^ 40) ↔ ¬ ShortMissed cwd t := by
  have hseen : ∀ k : BitVec 32, t.b &&& 0xff = k ↔ t.mantissa.toNat / 2 ^ 32 % 2 ^ 8 = k.toNat := by
    intro k
    rw [← b_toNat, ← mask_toNat t.b 0xff 8 rfl]
    exact BitVec.toNat_inj.symm
  have hlost : t.a ≠ 0 ↔ t.mantissa.toNat % 2 ^ 32 ≠ 0 := by
    rw [← a_toNat]
    exact not_congr BitVec.toNat_inj.symm
  have hzero : (0 : BitVec 32).toNat = 0 := rfl
  have hhalf : (0x80 : BitVec 32).toNat = 0x80 := rfl
  unfold Picks ShortMissed shortInc
  rw [hlost]
  cases rounding cwd with
  | nearest =>
    simp only [hseen, hhalf, decide_eq_true_iff]
    split <;> omega
  | down =>
    simp only [hseen, hzero]
    cases t.neg with
    | false => simp
    | true =>
      simp only [Bool.true_and, decide_eq_true_iff, true_and]
      omega
  | up =>
    simp only [hseen, hzero]
    cases t.neg with
    | true => simp
    | false =>
      simp only [Bool.not_false, Bool.true_and, decide_eq_true_iff, true_and]
      omega
  | zero => simp

theorem short_rounds (hm : 2 ^ 63 ≤ t.mantissa.toNat) (hlow : shortMag (2 ^ 23) ≤ |t.value|)
    (hhigh : |t.value| ≤ shortMag 0x7f7fffff) :
    Rounds shorts (rounding cwd) t.value (shortValue (tempToShort cwd t)) ↔
      ¬ ShortMissed cwd t := by
  have hrange := float_range (k := 277) t hm (by decide +kernel) hlow hhigh
  have hpattern : shortPattern t =
      (t.exp - 16256) * 2 ^ 23 + t.mantissa.toNat / 2 ^ 40 % 2 ^ 23 := by
    rw [shortPattern]
    omega
  rw [← short_picks, tempToShort_value cwd t (by omega) (by omega)]
  exact float_rounds t rfl rfl hm (by omega) hhigh (shortInc cwd t) hpattern

/-! ### Long reals -/

theorem tempToLong_value (hlow : 15361 ≤ t.exp) (hhigh : t.exp ≤ 17406) :
    longValue (tempToLong cwd t) = signed t.neg
      (longMag (if longInc cwd t then longPattern t + 1 else longPattern t)) := by
  have hn : longPattern t + 1 < 2 ^ 63 := by
    rw [longPattern]
    omega
  have hfields := pattern_fields (w := 64) rfl hn t.neg (longInc cwd t)
  rw [longValue, tempToLong_eq cwd t (by omega), hfields.1, hfields.2]

/-- The code looks at eight bits of the upper half for those that are lost. -/
def LongMissed : Prop :=
  match rounding cwd with
  | .down => t.neg = true ∧ ¬ (t.b &&& 0xff = 0 ↔ t.a &&& 0x7ff = 0)
  | .up => t.neg = false ∧ ¬ (t.b &&& 0xff = 0 ↔ t.a &&& 0x7ff = 0)
  | _ => False

theorem long_picks : Picks (rounding cwd) t.neg (longInc cwd t) (t.mantissa.toNat % 2 ^ 11)
    (2 ^ 11) ↔ ¬ LongMissed cwd t := by
  have hseen : t.b &&& 0xff = 0 ↔ t.mantissa.toNat / 2 ^ 32 % 2 ^ 8 = 0 := by
    rw [← b_toNat, ← mask_toNat t.b 0xff 8 rfl]
    exact BitVec.toNat_inj.symm
  have hlost : t.a &&& 0x7ff = 0 ↔ t.mantissa.toNat % 2 ^ 11 = 0 := by
    have hlow : t.mantissa.toNat % 2 ^ 11 = t.a.toNat % 2 ^ 11 := by
      rw [a_toNat]
      omega
    rw [hlow, ← mask_toNat t.a 0x7ff 11 rfl]
    exact BitVec.toNat_inj.symm
  unfold Picks LongMissed longInc
  cases rounding cwd with
  | nearest =>
    simp only [decide_eq_true_iff, not_false_iff, iff_true]
    split <;> omega
  | down =>
    simp only [hseen, hlost]
    cases t.neg with
    | false => simp
    | true =>
      simp only [Bool.true_and, decide_eq_true_iff, true_and]
      omega
  | up =>
    simp only [hseen, hlost]
    cases t.neg with
    | true => simp
    | false =>
      simp only [Bool.not_false, Bool.true_and, decide_eq_true_iff, true_and]
      omega
  | zero => simp

theorem long_rounds (hm : 2 ^ 63 ≤ t.mantissa.toNat) (hlow : longMag (2 ^ 52) ≤ |t.value|)
    (hhigh : |t.value| ≤ longMag 0x7fefffffffffffff) :
    Rounds longs (rounding cwd) t.value (longValue (tempToLong cwd t)) ↔ ¬ LongMissed cwd t := by
  have hrange := float_range (k := 2098) t hm (by decide +kernel) hlow hhigh
  have hpattern : longPattern t =
      (t.exp - 15360) * 2 ^ 52 + t.mantissa.toNat / 2 ^ 11 % 2 ^ 52 := by
    rw [longPattern]
    omega
  rw [← long_picks, tempToLong_value cwd t (by omega) (by omega)]
  exact float_rounds t rfl rfl hm (by omega) hhigh (longInc cwd t) hpattern

/-! ### Integers -/

/-- `shift` of `real_to_int`. -/
def intShift : ℕ := 16446 - t.exp

/-- What `underflow` is of the bits that are shifted out. -/
def underflow : ℕ := t.mantissa.toNat * 2 ^ 32 / 2 ^ intShift t % 2 ^ 32

def intInc : Bool :=
  match rounding cwd with
  | .nearest =>
    decide (2 ^ 32 ≤ underflow t + (0x7fffffff + t.mantissa.toNat / 2 ^ intShift t % 2))
  | .down => t.neg && decide (underflow t ≠ 0)
  | .up => !t.neg && decide (underflow t ≠ 0)
  | .zero => false

theorem shrd_toNat {k : ℕ} (hk : k < 32) (src dst : BitVec 32) :
    (shrd k src dst).toNat = (src.toNat * 2 ^ 32 + dst.toNat) / 2 ^ k % 2 ^ 32 := by
  rw [shrd, Nat.mod_eq_of_lt hk, BitVec.toNat_setWidth, BitVec.toNat_ushiftRight,
    Nat.shiftRight_eq_div_pow, append_toNat]

/-- Three words are shifted as one number. -/
theorem shift_words {k : ℕ} (hk : k < 32) (a b u : BitVec 32) :
    ((b >>> (k % 32)) ++ shrd k b a).toNat = (b.toNat * 2 ^ 32 + a.toNat) / 2 ^ k ∧
      (shrd k a u).toNat =
        (b.toNat * 2 ^ 64 + a.toNat * 2 ^ 32 + u.toNat) / 2 ^ k % 2 ^ 32 := by
  have ha := a.isLt
  have hpow : 2 ^ 32 = 2 ^ k * 2 ^ (32 - k) := by
    rw [← Nat.pow_add, Nat.add_sub_cancel' (Nat.le_of_lt hk)]
  constructor
  · have hhigh : b.toNat / 2 ^ k = (b.toNat * 2 ^ 32 + a.toNat) / 2 ^ k / 2 ^ 32 := by
      rw [Nat.div_div_eq_div_mul, Nat.mul_comm (2 ^ k), ← Nat.div_div_eq_div_mul]
      congr 1
      omega
    rw [append_toNat, shrd_toNat hk, Nat.mod_eq_of_lt hk, BitVec.toNat_ushiftRight,
      Nat.shiftRight_eq_div_pow, hhigh, Nat.div_add_mod']
  · have hsplit : b.toNat * 2 ^ 64 + a.toNat * 2 ^ 32 + u.toNat =
        2 ^ k * (2 ^ 32 * (2 ^ (32 - k) * b.toNat)) + (a.toNat * 2 ^ 32 + u.toNat) := by
      calc b.toNat * 2 ^ 64 + a.toNat * 2 ^ 32 + u.toNat
          = 2 ^ 32 * (2 ^ 32 * b.toNat) + (a.toNat * 2 ^ 32 + u.toNat) := by omega
        _ = _ := by
          rw [Nat.mul_left_comm (2 ^ k), ← Nat.mul_assoc (2 ^ k), ← hpow]
    rw [shrd_toNat hk, hsplit, Nat.mul_add_div (Nat.two_pow_pos k), Nat.mul_add_mod]

/-- The words that `real_to_int` begins with are the mantissa, by as many words lower as are
shifted out. -/
theorem intWords_spec {a b u : BitVec 32} {k : ℕ}
    (h : intWords t (intShift t) = some (a, b, u, k)) :
    k < 32 ∧ (b.toNat * 2 ^ 32 + a.toNat) / 2 ^ k = t.mantissa.toNat / 2 ^ intShift t ∧
      (b.toNat * 2 ^ 64 + a.toNat * 2 ^ 32 + u.toNat) / 2 ^ k =
        t.mantissa.toNat * 2 ^ 32 / 2 ^ intShift t := by
  have hlt := t.mantissa.isLt
  obtain ⟨s, hs⟩ : ∃ s, s = intShift t := ⟨_, rfl⟩
  rw [← hs] at h ⊢
  have hzero : (0 : BitVec 32).toNat = 0 := rfl
  have hword : t.mantissa.toNat / 2 ^ 32 * 2 ^ 32 + t.mantissa.toNat % 2 ^ 32 = t.mantissa.toNat :=
    Nat.div_add_mod' _ _
  -- the lower word is shifted out as a whole
  have hmore : ∀ j, 32 ≤ j → ∀ x : ℕ, x * 2 ^ 32 / 2 ^ j = x / 2 ^ (j - 32) := by
    intro j hj x
    rw [show (2 : ℕ) ^ j = 2 ^ (j - 32) * 2 ^ 32 by rw [← Nat.pow_add, Nat.sub_add_cancel hj],
      Nat.mul_div_mul_right _ _ (Nat.two_pow_pos 32)]
  have hless : ∀ j, 32 ≤ j → ∀ x : ℕ, x / 2 ^ 32 / 2 ^ (j - 32) = x / 2 ^ j := by
    intro j hj x
    rw [Nat.div_div_eq_div_mul, ← Nat.pow_add, Nat.add_sub_cancel' hj]
  rw [intWords] at h
  split at h
  case isTrue h32 =>
    obtain ⟨rfl, rfl, rfl, hk⟩ : t.a = a ∧ t.b = b ∧ 0 = u ∧ s = k := by
      simpa only [Option.some.injEq, Prod.mk.injEq] using h
    have hwords : t.mantissa.toNat / 2 ^ 32 * 2 ^ 64 + t.mantissa.toNat % 2 ^ 32 * 2 ^ 32 =
        t.mantissa.toNat * 2 ^ 32 := by
      rw [show 2 ^ 64 = 2 ^ 32 * 2 ^ 32 from rfl, ← Nat.mul_assoc, ← Nat.add_mul, hword]
    rw [a_toNat, b_toNat, hzero, hword, Nat.add_zero, ← hk, hwords]
    exact ⟨h32, rfl, rfl⟩
  case isFalse h32 =>
    have hge : 32 ≤ s := Nat.not_lt.mp h32
    split at h
    case isTrue h64 =>
      cases h
      rw [a_toNat, b_toNat, hzero, Nat.zero_mul, Nat.zero_add, Nat.zero_mul, Nat.zero_add, hword,
        hmore s hge, hless s hge]
      exact ⟨by omega, rfl, rfl⟩
    case isFalse h64 =>
      split at h
      case isTrue h96 =>
        cases h
        have hge' : 32 ≤ s - 32 := by omega
        have hlost : t.mantissa.toNat / 2 ^ s = 0 := by
          refine Nat.div_eq_of_lt (Nat.lt_of_lt_of_le hlt (Nat.pow_le_pow_right (by decide) ?_))
          exact Nat.not_lt.mp h64
        have hstep := hless (s - 32) hge' t.mantissa.toNat
        rw [b_toNat, hzero, hmore s hge, hlost]
        rw [show s - 32 - 32 = s - 64 by omega] at hstep
        refine ⟨by omega, ?_, ?_⟩
        · simp
        · simpa using hstep
      case isFalse => cases h

theorem intWords_none (h : intWords t (intShift t) = none) : 96 ≤ intShift t := by
  by_contra hlt
  rw [intWords] at h
  split at h
  case isTrue => cases h
  case isFalse =>
    split at h
    case isTrue => cases h
    case isFalse => exact absurd ((if_pos (Nat.not_le.mp hlt)).symm.trans h) nofun

/-- Without `underflow`, nothing is added. -/
theorem intInc_exact (h : underflow t = 0) : intInc cwd t = false := by
  have hodd := Nat.mod_lt (t.mantissa.toNat / 2 ^ intShift t) Nat.two_pos
  rw [intInc, h]
  cases rounding cwd with
  | nearest => exact decide_eq_false (by omega)
  | down => simp
  | up => simp
  | zero => rfl

/-- There is none when all bits are lost. -/
theorem intInc_far (h : 96 ≤ intShift t) :
    t.mantissa.toNat / 2 ^ intShift t = 0 ∧ intInc cwd t = false := by
  have hlt := t.mantissa.isLt
  have hpow : 2 ^ 96 ≤ 2 ^ intShift t := Nat.pow_le_pow_right (by decide) h
  refine ⟨Nat.div_eq_of_lt (by omega), intInc_exact cwd t ?_⟩
  rw [underflow, Nat.div_eq_of_lt (by omega), Nat.zero_mod]

/-- Nothing is shifted out of the largest numbers. -/
theorem intInc_near (h : intShift t = 0) : intInc cwd t = false := by
  refine intInc_exact cwd t ?_
  rw [underflow, h, Nat.pow_zero, Nat.div_one, Nat.mul_mod_left]

theorem realToInt_eq (h : t.exp ≤ 16446) : (realToInt cwd t).1 =
    ⟨BitVec.ofNat 64 (t.mantissa.toNat / 2 ^ intShift t) + if intInc cwd t then 1 else 0,
      t.neg⟩ := by
  have hshift : (16383 + 63 - (t.exp : ℤ)).toNat = intShift t := by
    rw [intShift]
    omega
  rw [realToInt]
  dsimp only
  rw [if_neg (by omega), hshift]
  cases hw : intWords t (intShift t) with
  | none =>
    obtain ⟨hq, hinc⟩ := intInc_far cwd t (intWords_none t hw)
    rw [hq, hinc, add_no_inc]
    rfl
  | some words =>
    obtain ⟨a, b, u, k⟩ := words
    obtain ⟨hk, hq, hall⟩ := intWords_spec t hw
    obtain ⟨hn, hu⟩ := shift_words hk a b u
    rw [hq] at hn
    rw [hall] at hu
    have hword : (b >>> (k % 32)) ++ shrd k b a =
        BitVec.ofNat 64 (t.mantissa.toNat / 2 ^ intShift t) := by
      refine BitVec.eq_of_toNat_eq ?_
      rw [hn, BitVec.toNat_ofNat, Nat.mod_eq_of_lt]
      exact Nat.lt_of_le_of_lt (Nat.div_le_self _ _) t.mantissa.isLt
    have hodd : (shrd k b a &&& 1).toNat = t.mantissa.toNat / 2 ^ intShift t % 2 := by
      have hlow := append_toNat (b >>> (k % 32)) (shrd k b a)
      rw [mask_toNat _ _ 1 rfl, ← hn, hlow]
      omega
    have hlost : shrd k a u ≠ 0 ↔ underflow t ≠ 0 := by
      rw [underflow, ← hu]
      exact not_congr BitVec.toNat_inj.symm
    dsimp only
    rw [hword, intInc]
    refine congrArg (TempInt.mk · t.neg) ?_
    cases rounding cwd with
    | nearest => exact add_inc _ (by rw [hu, hodd, decide_eq_true_iff, underflow])
    | down => exact add_inc _ (by rw [hlost, Bool.and_eq_true, decide_eq_true_iff])
    | up =>
      refine add_inc _ ?_
      rw [hlost, Bool.and_eq_true, decide_eq_true_iff, Bool.not_eq_true', Bool.not_eq_true]
    | zero => exact (BitVec.add_zero _).symm

theorem realToInt_value (h : t.exp ≤ 16446) : (realToInt cwd t).1.value = signed t.neg
    ((if intInc cwd t then t.mantissa.toNat / 2 ^ intShift t + 1
      else t.mantissa.toNat / 2 ^ intShift t : ℕ) : ℚ) := by
  have hlt := t.mantissa.isLt
  rw [realToInt_eq cwd t h]
  refine congrArg (fun n : ℕ => signed t.neg (n : ℚ)) ?_
  cases hinc : intInc cwd t with
  | false =>
    rw [add_no_inc, BitVec.toNat_ofNat, Nat.mod_eq_of_lt]
    · rfl
    · exact Nat.lt_of_le_of_lt (Nat.div_le_self _ _) hlt
  | true =>
    -- a number that loses bits is below 2⁶³
    have hroom : t.mantissa.toNat / 2 ^ intShift t < 2 ^ 63 := by
      cases hs : intShift t with
      | zero =>
        rw [intInc_near cwd t hs] at hinc
        cases hinc
      | succ s =>
        have hle := Nat.div_le_self (t.mantissa.toNat / 2) (2 ^ s)
        rw [Nat.pow_succ', ← Nat.div_div_eq_div_mul]
        omega
    have hone : (1 : BitVec 64).toNat = 1 := rfl
    simp only [if_true]
    have hfit : t.mantissa.toNat / 2 ^ intShift t + 1 < 2 ^ 64 := by omega
    rw [BitVec.toNat_add, BitVec.toNat_ofNat, hone, Nat.mod_eq_of_lt (Nat.lt_of_succ_lt hfit),
      Nat.mod_eq_of_lt hfit]

/-- Bits that are shifted out beyond `underflow` are lost, and they decide. -/
def IntMissed : Prop :=
  t.mantissa.toNat * 2 ^ 32 % 2 ^ intShift t ≠ 0 ∧
    match rounding cwd with
    | .nearest => underflow t = 2 ^ 31 ∧ t.mantissa.toNat / 2 ^ intShift t % 2 = 0
    | .down => t.neg = true ∧ underflow t = 0
    | .up => t.neg = false ∧ underflow t = 0
    | .zero => False

theorem int_picks : Picks (rounding cwd) t.neg (intInc cwd t)
    (t.mantissa.toNat % 2 ^ intShift t) (2 ^ intShift t) ↔ ¬ IntMissed cwd t := by
  obtain ⟨w, hw⟩ : ∃ w, w = 2 ^ intShift t := ⟨_, rfl⟩
  obtain ⟨d, hd⟩ : ∃ d, d = t.mantissa.toNat % w := ⟨_, rfl⟩
  obtain ⟨q, hq⟩ : ∃ q, q = t.mantissa.toNat / w := ⟨_, rfl⟩
  obtain ⟨u, hu⟩ : ∃ u, u = d * 2 ^ 32 / w := ⟨_, rfl⟩
  obtain ⟨l, hl⟩ : ∃ l, l = d * 2 ^ 32 % w := ⟨_, rfl⟩
  have hpos : 0 < w := hw ▸ Nat.two_pow_pos _
  have hsplit : d * 2 ^ 32 = u * w + l := by rw [hu, hl, Nat.div_add_mod']
  have hlt : l < w := hl ▸ Nat.mod_lt _ hpos
  -- `underflow` and what is beyond it are the quotient and the rest of the lost bits
  have hall : t.mantissa.toNat * 2 ^ 32 = w * (q * 2 ^ 32) + d * 2 ^ 32 := by
    rw [← Nat.mul_assoc, ← Nat.add_mul, hq, hd, Nat.div_add_mod]
  have hlost : t.mantissa.toNat * 2 ^ 32 % w = l := by rw [hall, Nat.mul_add_mod, hl]
  have hunder : underflow t = u := by
    have hsmall : u < 2 ^ 32 := by
      rw [hu]
      refine Nat.div_lt_of_lt_mul (Nat.mul_lt_mul_of_pos_right ?_ (Nat.two_pow_pos 32))
      exact hd ▸ Nat.mod_lt _ hpos
    rw [underflow, ← hw, hall, Nat.mul_add_div hpos, ← hu, Nat.mul_comm q, Nat.mul_add_mod,
      Nat.mod_eq_of_lt hsmall]
  have hexact : d = 0 ↔ u = 0 ∧ l = 0 := by
    constructor
    · intro h
      rw [hu, hl, h, Nat.zero_mul]
      exact ⟨Nat.zero_div w, Nat.zero_mod w⟩
    · rintro ⟨hu0, hl0⟩
      rw [hu0, hl0, Nat.zero_mul] at hsplit
      omega
  unfold Picks IntMissed intInc
  rw [← hw, ← hd, ← hq, hlost, hunder]
  cases rounding cwd with
  | nearest =>
    simp only [decide_eq_true_iff]
    split
    case isTrue h =>
      have hle : 2 ^ 31 * w ≤ u * w := Nat.mul_le_mul_right w (by omega)
      omega
    case isFalse h =>
      rcases Nat.lt_trichotomy u (2 ^ 31) with hless | heq | hmore
      · have hle : (u + 1) * w ≤ 2 ^ 31 * w := Nat.mul_le_mul_right w hless
        rw [Nat.succ_mul] at hle
        omega
      · rw [heq] at hsplit
        omega
      · omega
  | down =>
    cases t.neg with
    | false => simp
    | true =>
      simp only [Bool.true_and, decide_eq_true_iff, true_and]
      omega
  | up =>
    cases t.neg with
    | true => simp
    | false =>
      simp only [Bool.not_false, Bool.true_and, decide_eq_true_iff, true_and]
      omega
  | zero => simp

theorem int_rounds (hm : 2 ^ 63 ≤ t.mantissa.toNat) (hhigh : |t.value| ≤ ((2 ^ 64 - 1 : ℕ) : ℚ)) :
    Rounds ints (rounding cwd) t.value (realToInt cwd t).1.value ↔ ¬ IntMissed cwd t := by
  have hexp : t.exp ≤ 16446 := by
    have hlt : |t.value| < 2 ^ (64 : ℤ) := lt_of_le_of_lt hhigh (by norm_num)
    have h := exp_of_lt t hm hlt
    omega
  have hscale : (2 : ℚ) ^ ((t.exp : ℤ) - 16446) * 2 ^ intShift t = 1 := by
    rw [← zpow_natCast, ← zpow_add₀ two_ne_zero, intShift]
    have hzero : (t.exp : ℤ) - 16446 + ((16446 - t.exp : ℕ) : ℤ) = 0 := by omega
    rw [hzero, zpow_zero]
  have hnear : ∀ q : ℕ, (q : ℚ) =
      ((q * 2 ^ intShift t : ℕ) : ℚ) * 2 ^ ((t.exp : ℤ) - 16446) := by
    intro q
    push_cast
    rw [mul_assoc, mul_comm (2 ^ _), hscale, mul_one]
  rw [← int_picks, realToInt_value cwd t hexp, TempReal.value]
  exact rounds_iff (f := fun n => (n : ℚ)) (fun i j h => Nat.cast_lt.mpr h) Nat.cast_zero
    (by positivity) (by omega) (Nat.two_pow_pos _) (hnear _) (hnear _)
    (by rw [← abs_value]; exact hhigh) t.neg (intInc cwd t)

end

/-- In the range of the target, a normalized number is stored as the rounding control says if and
only if no bits are missed. -/
theorem rounding_on_store (cwd : BitVec 32) (t : TempReal) (hm : t.mantissa.msb = true) :
    (shortMag (2 ^ 23) ≤ |t.value| → |t.value| ≤ shortMag 0x7f7fffff →
      (Rounds shorts (rounding cwd) t.value (shortValue (tempToShort cwd t)) ↔
        ¬ ShortMissed cwd t)) ∧
    (longMag (2 ^ 52) ≤ |t.value| → |t.value| ≤ longMag 0x7fefffffffffffff →
      (Rounds longs (rounding cwd) t.value (longValue (tempToLong cwd t)) ↔
        ¬ LongMissed cwd t)) ∧
    (|t.value| ≤ ((2 ^ 64 - 1 : ℕ) : ℚ) →
      (Rounds ints (rounding cwd) t.value (realToInt cwd t).1.value ↔ ¬ IntMissed cwd t)) := by
  have hge : 2 ^ 63 ≤ t.mantissa.toNat := by
    rw [BitVec.msb_eq_decide, decide_eq_true_iff] at hm
    exact hm
  exact ⟨short_rounds cwd t hge, long_rounds cwd t hge, int_rounds cwd t hge⟩

/-- The control word with `ROUND_UP`. -/
def upward : BitVec 32 := 0x0b7f

section

variable (t : TempReal)

/-- Numbers from one to below two are in all ranges. -/
theorem small_range (hm : 2 ^ 63 ≤ t.mantissa.toNat) (he : t.exp = 16383) :
    (shortMag (2 ^ 23) ≤ |t.value| ∧ |t.value| ≤ shortMag 0x7f7fffff) ∧
      (longMag (2 ^ 52) ≤ |t.value| ∧ |t.value| ≤ longMag 0x7fefffffffffffff) ∧
      |t.value| ≤ ((2 ^ 64 - 1 : ℕ) : ℚ) := by
  have hlow : (1 : ℚ) ≤ |t.value| := by
    have hge : (2 : ℚ) ^ 63 ≤ t.mantissa.toNat := by exact_mod_cast hm
    rw [abs_value, he]
    calc (1 : ℚ) = 2 ^ 63 * 2 ^ ((16383 : ℕ) - 16446 : ℤ) := by norm_num
      _ ≤ _ := mul_le_mul_of_nonneg_right hge (by positivity)
  have hhigh : |t.value| ≤ 2 := by
    have hlt : (t.mantissa.toNat : ℚ) ≤ 2 ^ 64 := by exact_mod_cast t.mantissa.isLt.le
    rw [abs_value, he]
    calc _ ≤ (2 : ℚ) ^ 64 * 2 ^ ((16383 : ℕ) - 16446 : ℤ) :=
          mul_le_mul_of_nonneg_right hlt (by positivity)
      _ = 2 := by norm_num
  have hshort : (2 : ℚ) ≤ shortMag 0x7f7fffff := by
    have h := le_floatValue (p := 23) (n := 0x7f7fffff) (k := 150) (-149) (by decide +kernel)
    exact le_trans (by norm_num) h
  have hlong : (2 : ℚ) ≤ longMag 0x7fefffffffffffff := by
    have h := le_floatValue (p := 52) (n := 0x7fefffffffffffff) (k := 1075) (-1074)
      (by decide +kernel)
    exact le_trans (by norm_num) h
  refine ⟨⟨le_trans ?_ hlow, hhigh.trans hshort⟩, ⟨le_trans ?_ hlow, hhigh.trans hlong⟩,
    hhigh.trans (by norm_num)⟩
  · rw [shortMag, floatValue_min]
    exact zpow_le_one_of_nonpos₀ one_le_two (by decide)
  · rw [longMag, floatValue_min]
    exact zpow_le_one_of_nonpos₀ one_le_two (by decide)

end

/-- 1 + 2⁻²⁰. -/
def above : TempReal := ⟨0x8000080000000000, 0x3fff⟩

/-- 1 + 2⁻⁶³. -/
def barelyAbove : TempReal := ⟨0x8000000000000001, 0x3fff⟩

theorem rounding_on_store_above :
    Rounds shorts (rounding upward) above.value (shortValue (tempToShort upward above)) ∧
      Rounds longs (rounding upward) above.value (longValue (tempToLong upward above)) ∧
      Rounds ints (rounding upward) above.value (realToInt upward above).1.value := by
  obtain ⟨hshort, hlong, hint⟩ := rounding_on_store upward above (by decide)
  obtain ⟨⟨h₁, h₂⟩, ⟨h₃, h₄⟩, h₅⟩ := small_range above (by decide) (by decide)
  refine ⟨(hshort h₁ h₂).mpr fun h => ?_, (hlong h₃ h₄).mpr fun h => ?_, (hint h₅).mpr fun h => ?_⟩
  · exact h.1 (by decide)
  · exact h.2 (by decide)
  · exact absurd h.1 (by decide)

/-- The last one, rounded up, is stored as one, which is below it. -/
theorem rounding_on_store_fails :
    ¬ Rounds shorts (rounding upward) barelyAbove.value
        (shortValue (tempToShort upward barelyAbove)) ∧
      ¬ Rounds longs (rounding upward) barelyAbove.value
        (longValue (tempToLong upward barelyAbove)) ∧
      ¬ Rounds ints (rounding upward) barelyAbove.value (realToInt upward barelyAbove).1.value := by
  have hm : 2 ^ 63 ≤ barelyAbove.mantissa.toNat := by decide
  obtain ⟨⟨h₁, h₂⟩, ⟨h₃, h₄⟩, h₅⟩ := small_range barelyAbove hm (by decide)
  rw [short_rounds upward _ hm h₁ h₂, long_rounds upward _ hm h₃ h₄, int_rounds upward _ hm h₅]
  exact ⟨not_not_intro ⟨by decide, by decide, by decide⟩, not_not_intro ⟨by decide, by decide⟩,
    not_not_intro ⟨by decide, by decide, by decide⟩⟩

end MathEmu
