/-
Products and quotients of temporary reals (`fmul` of kernel/math/mul.c and `fdiv` of div.c).

* `div64_eq`, `lt_normalizeWide` — what the loops compute;
* `arithmetic_ends` — these loops, and those of `fadd` and `fcom`, come to an end;
* `Truncates` — a result that is right but for what is cut off;
* `Overflows` — when the exponent of a quotient is too large;
* `fmul_truncates`, `fdiv_truncates` — the results as long as they are in the normal range;
* `fdiv_result` — when a quotient is assigned;
* `product_quotient` — both are right and assigned, if and only if nothing overflows.
-/
import Linux012.Addition

open Rounding Words

namespace MathEmu

/-! ### The loops -/

/-- Long division, with `n` turns left. -/
theorem div64_eq (n a c d : ℕ) (ha : a < 2 * (d * 2 ^ n)) :
    div64 n a (d * 2 ^ n) c = c * 2 ^ n + a / (2 * d) := by
  induction n generalizing a c with
  | zero =>
    have ha : a < 2 * d := by simpa using ha
    rw [div64, Nat.div_eq_of_lt ha]
    simp
  | succ n ih =>
    have hhalf : d * 2 ^ (n + 1) / 2 = d * 2 ^ n := by
      rw [Nat.pow_succ, ← Nat.mul_assoc, Nat.mul_div_cancel _ (by decide)]
    have htwice : d * 2 ^ (n + 1) = 2 * (d * 2 ^ n) := by
      rw [Nat.pow_succ]
      ring
    rw [div64, hhalf]
    split
    case isTrue hle =>
      have hd : 0 < 2 * d := by
        refine Nat.pos_of_ne_zero fun hzero => ?_
        have hd : d = 0 := by omega
        rw [hd] at ha
        simp at ha
      have hquot : a / (2 * d) = (a - d * 2 ^ (n + 1)) / (2 * d) + 2 ^ n := by
        rw [← Nat.add_mul_div_left _ _ hd]
        congr 1
        rw [Nat.mul_assoc 2 d, ← htwice]
        omega
      rw [ih _ _ (by omega), hquot, Nat.pow_succ]
      ring
    case isFalse hgt =>
      rw [ih _ _ (by omega), Nat.pow_succ]
      ring

/-- What is left of the exponent when a number is shifted up. -/
theorem lt_normalizeWide (n i tmp : ℕ) (h : tmp < 2 ^ 128) :
    n < (normalizeWide i tmp).1 ↔ 2 ^ (128 + n) ≤ tmp * 2 ^ i := by
  induction i generalizing tmp with
  | zero =>
    refine ⟨fun hn => absurd hn (Nat.not_lt_zero n), fun hle => ?_⟩
    have hle : 2 ^ (128 + n) ≤ tmp := by simpa using hle
    have hpow : 2 ^ 128 ≤ 2 ^ (128 + n) := Nat.pow_le_pow_right (by decide) (Nat.le_add_right _ _)
    omega
  | succ i ih =>
    rw [normalizeWide]
    split
    case isTrue hlt =>
      rw [Nat.mod_eq_of_lt (by omega), ih _ (by omega), Nat.pow_succ]
      constructor
      · intro hle
        linarith
      · intro hle
        linarith
    case isFalse hge =>
      constructor
      · intro hn
        have hpow : 2 ^ (n + 1) ≤ 2 ^ (i + 1) := Nat.pow_le_pow_right (by decide) hn
        calc 2 ^ (128 + n) = 2 ^ 127 * 2 ^ (n + 1) := by rw [← Nat.pow_add]; congr 1; omega
          _ ≤ tmp * 2 ^ (i + 1) := Nat.mul_le_mul (Nat.le_of_not_lt hge) hpow
      · intro hle
        have hlt : 2 ^ (128 + n) < 2 ^ (128 + (i + 1)) := by
          calc 2 ^ (128 + n) ≤ tmp * 2 ^ (i + 1) := hle
            _ < 2 ^ 128 * 2 ^ (i + 1) := Nat.mul_lt_mul_of_pos_right h (Nat.two_pow_pos _)
            _ = 2 ^ (128 + (i + 1)) := (Nat.pow_add _ _ _).symm
        have := (Nat.pow_lt_pow_iff_right (by decide)).mp hlt
        show n < i + 1
        omega

/-- The quotient of the mantissas, rounded down, against a power of two. -/
theorem two_pow_le_div_mul {x d m i : ℕ} (hd : 0 < d) :
    2 ^ m ≤ x / d * 2 ^ i ↔ d ≤ x ∧ d * 2 ^ m ≤ x * 2 ^ i := by
  constructor
  · intro h
    have hpos : 0 < x / d := by
      refine Nat.pos_of_ne_zero fun hzero => ?_
      rw [hzero, Nat.zero_mul] at h
      exact absurd h (Nat.not_le.mpr (Nat.two_pow_pos m))
    refine ⟨(Nat.div_pos_iff.mp hpos).2, ?_⟩
    calc d * 2 ^ m ≤ d * (x / d * 2 ^ i) := Nat.mul_le_mul_left d h
      _ = d * (x / d) * 2 ^ i := (Nat.mul_assoc _ _ _).symm
      _ ≤ x * 2 ^ i := Nat.mul_le_mul_right _ (Nat.mul_div_le x d)
  · rintro ⟨hle, h⟩
    rcases Nat.le_total m i with hmi | him
    · calc 2 ^ m ≤ 2 ^ i := Nat.pow_le_pow_right (by decide) hmi
        _ = 1 * 2 ^ i := (Nat.one_mul _).symm
        _ ≤ x / d * 2 ^ i := Nat.mul_le_mul_right _ (Nat.div_pos hle hd)
    · obtain ⟨n, rfl⟩ := Nat.exists_eq_add_of_le him
      have hn : d * 2 ^ n ≤ x := by
        refine Nat.le_of_mul_le_mul_right ?_ (Nat.two_pow_pos i)
        rw [Nat.mul_assoc, ← Nat.pow_add, Nat.add_comm n]
        exact h
      rw [Nat.pow_add, Nat.mul_comm (2 ^ i)]
      refine Nat.mul_le_mul_right _ ?_
      rw [Nat.le_div_iff_mul_le hd, Nat.mul_comm]
      exact hn

/-- The mantissa of a divisor is shifted up. -/
theorem shiftDivisor_mantissa {m : BitVec 64} (h : m ≠ 0) (i : ℕ) :
    ∃ k, shiftDivisor 64 i (m.toNat * 2 ^ 64) = some (i + k, m.toNat * 2 ^ k * 2 ^ 64) ∧
      2 ^ 63 ≤ m.toNat * 2 ^ k ∧ m.toNat * 2 ^ k < 2 ^ 64 := by
  have hpos : 0 < m.toNat := by
    refine Nat.pos_of_ne_zero fun hzero => h ?_
    exact BitVec.eq_of_toNat_eq (by simpa using hzero)
  have hlt : m.toNat < 2 ^ 64 := m.isLt
  have hlow : 2 ^ 127 ≤ m.toNat * 2 ^ 64 * 2 ^ 63 := by
    rw [Nat.mul_assoc, ← Nat.pow_add]
    exact Nat.le_mul_of_pos_left _ hpos
  have hhigh : m.toNat * 2 ^ 64 < 2 ^ 128 := by
    rw [show (2 : ℕ) ^ 128 = 2 ^ 64 * 2 ^ 64 from (Nat.pow_add 2 64 64)]
    exact Nat.mul_lt_mul_of_pos_right hlt (Nat.two_pow_pos _)
  obtain ⟨k, hk, hk₁, hk₂⟩ := shiftDivisor_ends 63 i (m.toNat * 2 ^ 64) hlow hhigh
  rw [Nat.mul_right_comm] at hk hk₁ hk₂
  refine ⟨k, hk, ?_, ?_⟩
  · refine Nat.le_of_mul_le_mul_right ?_ (Nat.two_pow_pos 64)
    rw [← Nat.pow_add]
    exact hk₁
  · refine Nat.lt_of_mul_lt_mul_right (a := 2 ^ 64) ?_
    rw [← Nat.pow_add]
    exact hk₂

/-- Sum, comparison and quotient come to an end, whatever the bits of the operands. -/
theorem arithmetic_ends (src1 src2 : TempReal) (swd : BitVec 32) :
    (∃ r, fadd src1 src2 = some r) ∧ (∃ swd', fcom src1 src2 swd = some swd') ∧
      ∃ r, fdiv src1 src2 = some r := by
  refine ⟨fadd_ends src1 src2, ?_, ?_⟩
  · obtain ⟨a, ha⟩ := fadd_ends src1.negate src2
    exact ⟨ftst a swd, by rw [fcom, ha]; rfl⟩
  · rw [fdiv]
    split
    case isTrue => exact ⟨_, rfl⟩
    case isFalse hzero =>
      dsimp only
      split
      case isTrue => exact ⟨_, rfl⟩
      case isFalse =>
        obtain ⟨k, hk, -⟩ := shiftDivisor_mantissa hzero (src1.exp - src2.exp + 16383 : ℤ).toNat
        exact ⟨_, by rw [hk]; rfl⟩

/-! ### What the results are meant to be -/

/-- A result of the right sign, not above the exact one and almost as large. -/
structure Truncates (v : ℚ) (r : TempReal) : Prop where
  normal : r.Normal
  sign : 0 < r.value * v
  le : |r.value| ≤ |v|
  near : |v| - |r.value| < |v| / 2 ^ 62

variable {x y r : TempReal} {v s : ℚ} {neg : Bool}

theorem abs_signed (neg : Bool) (u : ℚ) : |signed neg u| = |u| := by
  cases neg <;> simp [signed]

/-- The mantissa `m` is cut off from the exact number `s`, in units of the result. -/
theorem truncates_of {e m : ℕ} (hv : v = signed neg (s * 2 ^ ((e : ℤ) - 16446)))
    (hm : 2 ^ 63 ≤ m) (hle : (m : ℚ) ≤ s) (hlt : s < m + 2) (hlow : 1 ≤ e) (hhigh : e ≤ 0x7ffe)
    (hmantissa : r.mantissa.toNat = m)
    (hexponent : r.exponent.toNat = e + if neg then 2 ^ 15 else 0) : Truncates v r := by
  obtain ⟨hexp, hneg⟩ := of_exponent r (by omega) hexponent
  obtain ⟨u, hu⟩ : ∃ u : ℚ, u = 2 ^ ((e : ℤ) - 16446) := ⟨_, rfl⟩
  have hpos : 0 < u := hu ▸ zpow_pos (by norm_num) _
  have hm' : (2 : ℚ) ^ 63 ≤ m := by exact_mod_cast hm
  have hmpos : (0 : ℚ) < m := lt_of_lt_of_le (by norm_num) hm'
  have hvalue : r.value = signed neg (m * u) := by
    rw [TempReal.value, hmantissa, hexp, hneg, hu]
  have hrabs : |r.value| = m * u := by
    rw [hvalue, abs_signed, abs_of_pos (mul_pos hmpos hpos)]
  have hvabs : |v| = s * u := by
    rw [hv, ← hu, abs_signed, abs_of_pos (mul_pos (hmpos.trans_le hle) hpos)]
  refine ⟨⟨by rw [hmantissa]; exact hm, by omega, by omega⟩, ?_, ?_, ?_⟩
  · rw [hvalue, hv, ← hu, signed_mul_signed]
    exact mul_pos (mul_pos hmpos hpos) (mul_pos (hmpos.trans_le hle) hpos)
  · rw [hrabs, hvabs]
    exact mul_le_mul_of_nonneg_right hle hpos.le
  · rw [hrabs, hvabs, ← sub_mul, mul_div_right_comm]
    refine mul_lt_mul_of_pos_right ?_ hpos
    rw [lt_div_iff₀ (by norm_num)]
    linarith

theorem exp_of_inRange {e : ℤ} (hv : v = signed neg (s * 2 ^ (e - 16446))) (hlow : 2 ^ 63 ≤ s)
    (hhigh : s < 2 ^ 64) (hrange : InRange v) : 1 ≤ e ∧ e ≤ 0x7ffe := by
  have hpos : (0 : ℚ) < 2 ^ (e - 16446) := zpow_pos (by norm_num) _
  have hs : 0 < s := lt_of_lt_of_le (by norm_num) hlow
  rw [InRange, hv, abs_signed, abs_of_pos (mul_pos hs hpos)] at hrange
  obtain ⟨hmin, hmax⟩ := hrange
  constructor
  · have hlt : (2 : ℚ) ^ (-16382 : ℤ) < 2 ^ (64 + (e - 16446)) := by
      rw [zpow_add₀ two_ne_zero]
      refine hmin.trans_lt (mul_lt_mul_of_pos_right ?_ hpos)
      exact_mod_cast hhigh
    have hexp := (zpow_lt_zpow_iff_right₀ (by norm_num)).mp hlt
    omega
  · have hlt : (2 : ℚ) ^ (63 + (e - 16446)) < 2 ^ (16384 : ℤ) := by
      rw [zpow_add₀ two_ne_zero]
      refine lt_of_le_of_lt (mul_le_mul_of_nonneg_right ?_ hpos.le) hmax
      exact_mod_cast hlow
    have hexp := (zpow_lt_zpow_iff_right₀ (by norm_num)).mp hlt
    omega

theorem sign_eq : sign x y = if (x.neg ^^ y.neg) then 0x8000 else 0 := by
  have htop : (0x8000 : BitVec 16) = BitVec.twoPow 16 15 := by decide
  have hand : ∀ e : BitVec 16, e &&& 0x8000 = if e.msb then 0x8000 else 0 := by
    intro e
    rw [htop, BitVec.and_twoPow, BitVec.msb_eq_getLsbD_last]
    rfl
  rw [sign, hand, BitVec.msb_xor]
  rfl

theorem pack_exponent {i tmp : ℕ} (h : i < 2 ^ 15) :
    (pack i tmp (sign x y)).exponent.toNat = i + if (x.neg ^^ y.neg) then 2 ^ 15 else 0 := by
  have hi : (BitVec.ofNat 16 i).toNat = i := Nat.mod_eq_of_lt (by omega)
  rw [← signed_pattern 0x8000 15 rfl hi h, pack, sign_eq]
  split
  case isTrue => rfl
  case isFalse => exact congrArg BitVec.toNat BitVec.or_zero

/-- A number of almost 128 bits is shifted up once at most. -/
theorem normalizeWide_once {i tmp k : ℕ} (hk : k = if tmp < 2 ^ 127 then 1 else 0)
    (hlow : 2 ^ 126 ≤ tmp) (hhigh : tmp < 2 ^ 128) (hi : k < i) :
    normalizeWide i tmp = (i - k, tmp * 2 ^ k) := by
  obtain ⟨j, rfl⟩ := Nat.exists_eq_add_of_lt (Nat.zero_lt_of_lt hi)
  rw [Nat.zero_add] at hi ⊢
  rw [normalizeWide]
  split
  case isTrue hlt =>
    rw [if_pos hlt] at hk
    obtain ⟨n, rfl⟩ := Nat.exists_eq_add_of_lt (show 0 < j by omega)
    rw [Nat.mod_eq_of_lt (by omega), normalizeWide, if_neg (by omega), hk, Nat.mul_comm 2]
    rfl
  case isFalse hge =>
    rw [if_neg hge] at hk
    rw [hk, Nat.pow_zero, Nat.mul_one, Nat.sub_zero]

/-! ### Products -/

theorem signed_mul (neg neg' : Bool) (u w : ℚ) :
    signed neg u * signed neg' w = signed (neg ^^ neg') (u * w) := by
  cases neg <;> cases neg' <;> simp [signed]

theorem Operand.normal (h : Operand x) (hne : x.value ≠ 0) : x.Normal :=
  h.resolve_right fun hzero => hne (zero_value hzero)

theorem inRange_ne_zero (h : InRange v) : v ≠ 0 := by
  rintro rfl
  have hpos : (0 : ℚ) < 2 ^ (-16382 : ℤ) := zpow_pos (by norm_num) _
  rw [InRange, abs_zero] at h
  exact absurd h.1 (not_le.mpr hpos)

theorem product_value : x.value * y.value = signed (x.neg ^^ y.neg)
    (((x.mantissa.toNat * y.mantissa.toNat : ℕ) : ℚ) * 2 ^ ((x.exp : ℤ) + y.exp - 32892)) := by
  have hscale : (2 : ℚ) ^ ((x.exp : ℤ) + y.exp - 32892) =
      2 ^ ((x.exp : ℤ) - 16446) * 2 ^ ((y.exp : ℤ) - 16446) := by
    rw [← zpow_add₀ two_ne_zero]
    congr 1
    ring
  rw [TempReal.value, TempReal.value, signed_mul, hscale]
  push_cast
  congr 1
  ring

/-- The upper half of a number of 128 bits. -/
theorem div_bounds (n : ℕ) :
    ((n / 2 ^ 64 : ℕ) : ℚ) ≤ n / 2 ^ 64 ∧ (n : ℚ) / 2 ^ 64 < (n / 2 ^ 64 : ℕ) + 1 := by
  rw [le_div_iff₀ (by norm_num), div_lt_iff₀ (by norm_num)]
  constructor
  · exact_mod_cast Nat.div_mul_le_self n (2 ^ 64)
  · exact_mod_cast Nat.lt_mul_of_div_lt (Nat.lt_succ_self _) (by decide)

theorem fmul_truncates (hx : Operand x) (hy : Operand y) (hrange : InRange (x.value * y.value)) :
    ∃ r, (fmul x y).1 = some r ∧ Truncates (x.value * y.value) r := by
  have hne := inRange_ne_zero hrange
  have hmx := (hx.normal (left_ne_zero_of_mul hne)).mantissa
  have hmy := (hy.normal (right_ne_zero_of_mul hne)).mantissa
  obtain ⟨p, hp⟩ : ∃ p, p = x.mantissa.toNat * y.mantissa.toNat := ⟨_, rfl⟩
  have hlow : 2 ^ 63 * 2 ^ 63 ≤ p := hp ▸ Nat.mul_le_mul hmx hmy
  have hhigh : p < 2 ^ 64 * 2 ^ 64 := hp ▸ Nat.mul_lt_mul'' x.mantissa.isLt y.mantissa.isLt
  obtain ⟨k, hk⟩ : ∃ k, k = if p < 2 ^ 127 then 1 else 0 := ⟨_, rfl⟩
  have hbounds : k ≤ 1 ∧ 2 ^ 127 ≤ p * 2 ^ k ∧ p * 2 ^ k < 2 ^ 128 := by
    rw [hk]
    split <;> omega
  obtain ⟨n, hn⟩ : ∃ n, n = p * 2 ^ k := ⟨_, rfl⟩
  obtain ⟨e, he⟩ : ∃ e : ℤ, e = x.exp + y.exp - 16382 - k := ⟨_, rfl⟩
  rw [← hn] at hbounds
  have hvalue : x.value * y.value =
      signed (x.neg ^^ y.neg) ((n : ℚ) / 2 ^ 64 * 2 ^ (e - 16446)) := by
    have hscale : (2 : ℚ) ^ k * 2 ^ (e - 16446) = 2 ^ 64 * 2 ^ ((x.exp : ℤ) + y.exp - 32892) := by
      rw [← zpow_natCast 2 k, ← zpow_natCast 2 64, ← zpow_add₀ two_ne_zero,
        ← zpow_add₀ two_ne_zero, he]
      congr 1
      push_cast
      ring
    rw [product_value, ← hp, hn]
    push_cast
    rw [div_mul_eq_mul_div, mul_assoc, hscale, mul_left_comm, mul_div_cancel_left₀ _ (by norm_num)]
  obtain ⟨hle, hlt⟩ := div_bounds n
  obtain ⟨hemin, hemax⟩ := exp_of_inRange hvalue
    (by rw [le_div_iff₀ (by norm_num)]; exact_mod_cast hbounds.2.1)
    (by rw [div_lt_iff₀ (by norm_num)]; exact_mod_cast hbounds.2.2) hrange
  obtain ⟨i, rfl⟩ := Int.eq_ofNat_of_zero_le (show 0 ≤ e by omega)
  have hloop := normalizeWide_once (i := i + k) hk hlow hhigh (by omega)
  have hresult : (fmul x y).1 = some (pack i n (sign x y)) := by
    have hi : (x.exp : ℤ) + y.exp - 16383 + 1 = (i + k : ℕ) := by omega
    rw [fmul]
    dsimp only
    rw [hi, if_neg (by omega), if_neg (by omega), mul64_exact, ← hp, if_pos (by omega),
      Int.toNat_natCast, hloop, Nat.add_sub_cancel, ← hn]
  refine ⟨_, hresult, truncates_of hvalue ?_ hle (by linarith) (by omega) (by omega) ?_
    (pack_exponent (by omega))⟩
  · omega
  · exact Nat.mod_eq_of_lt (by omega)

/-! ### Quotients -/

theorem signed_div (neg neg' : Bool) (u w : ℚ) :
    signed neg u / signed neg' w = signed (neg ^^ neg') (u / w) := by
  cases neg <;> cases neg' <;> simp [signed, neg_div, div_neg]

theorem quotient_value : x.value / y.value = signed (x.neg ^^ y.neg)
    ((x.mantissa.toNat : ℚ) * 2 ^ 63 / y.mantissa.toNat * 2 ^ ((x.exp : ℤ) - y.exp - 63)) := by
  have hscale : (2 : ℚ) ^ 63 * 2 ^ ((x.exp : ℤ) - y.exp - 63) =
      2 ^ ((x.exp : ℤ) - 16446) / 2 ^ ((y.exp : ℤ) - 16446) := by
    rw [← zpow_natCast 2 63, ← zpow_add₀ two_ne_zero, ← zpow_sub₀ two_ne_zero]
    congr 1
    push_cast
    ring
  rw [TempReal.value, TempReal.value, signed_div, mul_div_mul_comm, ← hscale]
  congr 1
  ring

/-- A quotient of normalized mantissas, and its whole part. -/
structure Quotient (m m' q k : ℕ) : Prop where
  whole : q = m * 2 ^ 63 / m'
  low : 2 ^ 62 ≤ q
  high : q < 2 ^ 64
  shift : k = if q * 2 ^ 64 < 2 ^ 127 then 1 else 0

theorem quotient_of {m m' : ℕ} (hm : 2 ^ 63 ≤ m) (hlt : m < 2 ^ 64) (hm' : 2 ^ 63 ≤ m')
    (hlt' : m' < 2 ^ 64) : ∃ q k, Quotient m m' q k := by
  refine ⟨_, _, rfl, ?_, ?_, rfl⟩
  · rw [Nat.le_div_iff_mul_le (by omega)]
    omega
  · rw [Nat.div_lt_iff_lt_mul (by omega)]
    omega

theorem Quotient.shifted {m m' q k : ℕ} (h : Quotient m m' q k) : k ≤ 1 ∧ 2 ^ 63 ≤ q * 2 ^ k ∧
    q * 2 ^ k < 2 ^ 64 := by
  have hlow := h.low
  have hhigh := h.high
  rw [h.shift]
  split <;> omega

/-- One more bit of the quotient is cut off at most. -/
theorem Quotient.bounds {m m' q k : ℕ} (h : Quotient m m' q k) (hm' : 0 < m') :
    ((q * 2 ^ k : ℕ) : ℚ) ≤ (m : ℚ) * 2 ^ 63 / m' * 2 ^ k ∧
      (m : ℚ) * 2 ^ 63 / m' * 2 ^ k < (q * 2 ^ k : ℕ) + 2 ∧
      (m : ℚ) * 2 ^ 63 / m' * 2 ^ k < 2 ^ 64 := by
  have hpos : (0 : ℚ) < m' := by exact_mod_cast hm'
  have hle : (q : ℚ) ≤ (m : ℚ) * 2 ^ 63 / m' := by
    rw [le_div_iff₀ hpos, h.whole]
    exact_mod_cast Nat.div_mul_le_self _ _
  have hlt : (m : ℚ) * 2 ^ 63 / m' < (q + 1 : ℕ) := by
    rw [div_lt_iff₀ hpos, h.whole]
    exact_mod_cast Nat.lt_mul_of_div_lt (Nat.lt_succ_self _) hm'
  obtain ⟨hk, -, htop⟩ := h.shifted
  have hnext : ((q * 2 ^ k + 2 ^ k : ℕ) : ℚ) ≤ 2 ^ 64 := by
    have hshift := h.shift
    have hhigh := h.high
    have hsum : q * 2 ^ k + 2 ^ k ≤ 2 ^ 64 := by
      rw [hshift]
      split <;> omega
    exact_mod_cast hsum
  have hpow : (0 : ℚ) < 2 ^ k := pow_pos (by norm_num) _
  have htwo : (2 : ℚ) ^ k ≤ 2 ^ 1 := pow_le_pow_right₀ (by norm_num) hk
  have hmul := mul_le_mul_of_nonneg_right hle hpow.le
  have hmul' := mul_lt_mul_of_pos_right hlt hpow
  push_cast at hmul' hnext ⊢
  exact ⟨hmul, by linarith, by linarith⟩

/-- The quotient of two mantissas. -/
theorem div64_mantissas {m d : ℕ} (hlt : m < 2 * d) :
    div64 64 (m * 2 ^ 64) (d * 2 ^ 64) 0 = m * 2 ^ 63 / d := by
  have htwice : m * 2 ^ 64 = 2 * (m * 2 ^ 63) := by
    rw [Nat.mul_left_comm, ← Nat.pow_succ']
  have hscaled : m * 2 ^ 64 < 2 * (d * 2 ^ 64) := by
    rw [← Nat.mul_assoc]
    exact Nat.mul_lt_mul_of_pos_right hlt (Nat.two_pow_pos 64)
  rw [div64_eq _ _ _ _ hscaled, Nat.zero_mul, Nat.zero_add, htwice,
    Nat.mul_div_mul_left _ _ (show 0 < 2 by decide)]

theorem shiftDivisor_normal {i m : ℕ} (h : 2 ^ 63 ≤ m) :
    shiftDivisor 64 i (m * 2 ^ 64) = some (i, m * 2 ^ 64) := by
  rw [shiftDivisor, if_neg (by omega)]

/-- What `fdiv` does, when there is a quotient. -/
theorem fdiv_eq {i j b : ℕ} (hy : y.mantissa ≠ 0) (hi : (x.exp : ℤ) - y.exp + 16383 = i)
    (hb : shiftDivisor 64 i (y.mantissa.toNat * 2 ^ 64) = some (j, b)) : fdiv x y =
      some (quotient j (div64 64 (x.mantissa.toNat * 2 ^ 64) b 0 * 2 ^ 64) (sign x y)) := by
  have hneg : ¬ (i : ℤ) < 0 := Int.not_lt.mpr (Int.natCast_nonneg i)
  rw [fdiv, if_neg hy]
  dsimp only
  rw [hi, if_neg hneg, Int.toNat_natCast, hb, Option.map_some]

theorem quotient_eq {i j tmp n : ℕ} {s : BitVec 16} (htmp : tmp ≠ 0)
    (hloop : normalizeWide i tmp = (j, n)) (hexp : j ≤ 0x7fff) :
    (quotient i tmp s).1 = some (pack j n s) := by
  rw [quotient, if_pos htmp, hloop]
  dsimp only
  rw [if_neg (Nat.not_lt.mpr hexp)]

theorem fdiv_truncates (hx : Operand x) (hy : Operand y) (hrange : InRange (x.value / y.value)) :
    ∃ r f, fdiv x y = some (some r, f) ∧ Truncates (x.value / y.value) r := by
  have hne := inRange_ne_zero hrange
  have hnx := hx.normal fun hzero => hne (by rw [hzero, zero_div])
  have hny := hy.normal fun hzero => hne (by rw [hzero, div_zero])
  have hmx := hnx.mantissa
  have hmy := hny.mantissa
  have hltx := x.mantissa.isLt
  have hlty := y.mantissa.isLt
  obtain ⟨q, k, h⟩ := quotient_of hmx hltx hmy hlty
  obtain ⟨hk, hlow, hhigh⟩ := h.shifted
  obtain ⟨hle, hlt, htop⟩ := h.bounds (by omega)
  obtain ⟨e, he⟩ : ∃ e : ℤ, e = x.exp - y.exp + 16383 - k := ⟨_, rfl⟩
  have hvalue : x.value / y.value = signed (x.neg ^^ y.neg)
      ((x.mantissa.toNat : ℚ) * 2 ^ 63 / y.mantissa.toNat * 2 ^ k * 2 ^ (e - 16446)) := by
    have hscale : (2 : ℚ) ^ k * 2 ^ (e - 16446) = 2 ^ ((x.exp : ℤ) - y.exp - 63) := by
      rw [← zpow_natCast 2 k, ← zpow_add₀ two_ne_zero, he]
      congr 1
      ring
    rw [quotient_value, mul_assoc (_ / _), hscale]
  obtain ⟨hemin, hemax⟩ := exp_of_inRange hvalue (le_trans (by exact_mod_cast hlow) hle) htop hrange
  obtain ⟨i, rfl⟩ := Int.eq_ofNat_of_zero_le (show 0 ≤ e by omega)
  have hloop := normalizeWide_once (i := i + k) h.shift (by have := h.low; omega)
    (by have := h.high; omega) (by omega)
  have hi : (x.exp : ℤ) - y.exp + 16383 = (i + k : ℕ) := by omega
  have hfdiv := fdiv_eq hny.ne_zero hi (shiftDivisor_normal hmy)
  rw [div64_mantissas (by omega), ← h.whole] at hfdiv
  have hq : q * 2 ^ 64 ≠ 0 := by
    have hpos := h.low
    omega
  have hexp : i + k - k ≤ 0x7fff := by omega
  have hresult := quotient_eq (s := sign x y) hq hloop hexp
  rw [Nat.add_sub_cancel] at hresult
  refine ⟨_, _, hfdiv.trans (congrArg some (Prod.ext hresult rfl)),
    truncates_of hvalue hlow hle hlt (by omega) (by omega) ?_ (pack_exponent (by omega))⟩
  rw [pack, Nat.mul_right_comm, Nat.mul_div_cancel _ (Nat.two_pow_pos 64)]
  exact Nat.mod_eq_of_lt hhigh

/-! ### Results that are not assigned -/

/-- The quotient does not vanish, and its exponent is above `0x7fff`. -/
def Overflows (x y : TempReal) : Prop :=
  (2 ≤ x.mantissa.toNat ∨ x.mantissa.toNat = 1 ∧ ∃ j, y.mantissa.toNat = 2 ^ j) ∧
  y.mantissa.toNat * 2 ^ (y.exp + 0x8000) ≤ x.mantissa.toNat * 2 ^ (x.exp + 16383)

/-- A shifted divisor against the smallest mantissas. -/
theorem divisor_le_iff {m m' k : ℕ} (hlow : 2 ^ 63 ≤ m' * 2 ^ k) (hhigh : m' * 2 ^ k < 2 ^ 64) :
    m' * 2 ^ k ≤ m * 2 ^ 63 ↔ 2 ≤ m ∨ m = 1 ∧ ∃ j, m' = 2 ^ j := by
  constructor
  · intro h
    rcases Nat.lt_or_ge m 2 with hm | hm
    · have hone : m = 1 := by omega
      have heq : m' * 2 ^ k = 2 ^ 63 := by omega
      have hpos : 0 < m' := Nat.pos_of_ne_zero fun hzero => by simp [hzero] at heq
      have hk : k ≤ 63 := by
        have hle : 2 ^ k ≤ 2 ^ 63 := heq ▸ Nat.le_mul_of_pos_left _ hpos
        exact (Nat.pow_le_pow_iff_right (by decide)).mp hle
      refine .inr ⟨hone, 63 - k, Nat.eq_of_mul_eq_mul_right (Nat.two_pow_pos k) ?_⟩
      rw [heq, ← Nat.pow_add, Nat.sub_add_cancel hk]
    · exact .inl hm
  · rintro (hm | ⟨rfl, j, rfl⟩)
    · omega
    · rw [← Nat.pow_add] at hhigh ⊢
      have hlt := (Nat.pow_lt_pow_iff_right (show 1 < 2 by decide)).mp hhigh
      rw [Nat.one_mul]
      exact Nat.pow_le_pow_right (by decide) (by omega)

/-- The same scale on both sides. -/
theorem scale_iff {m m' k i e f n : ℕ} (h : i + f = e) :
    m' * 2 ^ k * 2 ^ (64 + n) ≤ m * 2 ^ 63 * 2 ^ (i + k) ↔
      m' * 2 ^ (f + (n + 1)) ≤ m * 2 ^ e := by
  have hleft : m' * 2 ^ k * 2 ^ (64 + n) = m' * 2 ^ (n + 1) * 2 ^ (63 + k) := by
    rw [Nat.mul_assoc, Nat.mul_assoc, ← Nat.pow_add, ← Nat.pow_add]
    congr 2
    omega
  have hright : m * 2 ^ 63 * 2 ^ (i + k) = m * 2 ^ i * 2 ^ (63 + k) := by
    rw [Nat.mul_assoc, Nat.mul_assoc, ← Nat.pow_add, ← Nat.pow_add]
    congr 2
    omega
  have hleft' : m' * 2 ^ (f + (n + 1)) = m' * 2 ^ (n + 1) * 2 ^ f := by
    rw [Nat.mul_assoc, ← Nat.pow_add, Nat.add_comm f]
  rw [hleft, hright, hleft', ← h, Nat.pow_add 2 i, ← Nat.mul_assoc m,
    Nat.mul_le_mul_right_iff (Nat.two_pow_pos _), Nat.mul_le_mul_right_iff (Nat.two_pow_pos _)]

theorem quotient_none {i tmp : ℕ} {s : BitVec 16} (htmp : tmp < 2 ^ 128) :
    (quotient i tmp s).1 = none ↔ 2 ^ (128 + 0x7fff) ≤ tmp * 2 ^ i := by
  rw [← lt_normalizeWide _ i tmp htmp, quotient]
  by_cases hzero : tmp = 0
  · have hnone : (normalizeWide i 0).1 ≤ 0 := by
      refine Nat.le_of_not_lt fun hlt => ?_
      rw [lt_normalizeWide _ _ _ (Nat.two_pow_pos _), Nat.zero_mul] at hlt
      exact absurd hlt (by decide)
    rw [hzero, if_neg (not_not_intro rfl)]
    dsimp only
    rw [if_neg (by decide)]
    exact iff_of_false nofun (by omega)
  · rw [if_pos hzero]
    dsimp only
    split
    case isTrue hlt => exact iff_of_true rfl hlt
    case isFalse hlt => exact iff_of_false nofun hlt

/-- When a quotient is assigned. -/
theorem fdiv_result (x y : TempReal) :
    (∃ r f, fdiv x y = some (some r, f)) ↔ y.mantissa ≠ 0 ∧ ¬ Overflows x y := by
  by_cases hy : y.mantissa = 0
  · refine iff_of_false ?_ fun h => h.1 hy
    rintro ⟨r, f, h⟩
    rw [fdiv, if_pos hy] at h
    cases h
  have hlt := x.mantissa.isLt
  rcases Int.lt_or_le ((x.exp : ℤ) - y.exp + 16383) 0 with hneg | hpos
  · -- the quotient is too small
    have hfine : ¬ Overflows x y := by
      intro hover
      have hpos : 0 < y.mantissa.toNat := 
        Nat.pos_of_ne_zero fun hzero => hy (BitVec.eq_of_toNat_eq hzero)
      have hpow : 2 ^ (x.exp + 16383) * 2 ^ 64 ≤ 2 ^ (y.exp + 0x8000) := by
        rw [← Nat.pow_add]
        exact Nat.pow_le_pow_right (by decide) (by omega)
      have hle := Nat.le_mul_of_pos_left (2 ^ (y.exp + 0x8000)) hpos
      have hsmall := Nat.mul_lt_mul_of_pos_right hlt (Nat.two_pow_pos (x.exp + 16383))
      refine Nat.not_lt.mpr hover.2 ?_
      calc x.mantissa.toNat * 2 ^ (x.exp + 16383) < 2 ^ 64 * 2 ^ (x.exp + 16383) := hsmall
        _ = 2 ^ (x.exp + 16383) * 2 ^ 64 := Nat.mul_comm _ _
        _ ≤ 2 ^ (y.exp + 0x8000) := hpow
        _ ≤ y.mantissa.toNat * 2 ^ (y.exp + 0x8000) := hle
    refine iff_of_true ⟨⟨0, sign x y⟩, 16, ?_⟩ ⟨hy, hfine⟩
    rw [fdiv, if_neg hy]
    dsimp only
    rw [if_pos hneg]
  · obtain ⟨i, hi⟩ := Int.eq_ofNat_of_zero_le hpos
    obtain ⟨k, hk, hlow, hhigh⟩ := shiftDivisor_mantissa hy i
    have hdiv : div64 64 (x.mantissa.toNat * 2 ^ 64) (y.mantissa.toNat * 2 ^ k * 2 ^ 64) 0 =
        x.mantissa.toNat * 2 ^ 63 / (y.mantissa.toNat * 2 ^ k) := div64_mantissas (by omega)
    have hover : (quotient (i + k) (x.mantissa.toNat * 2 ^ 63 / (y.mantissa.toNat * 2 ^ k) * 2 ^ 64)
        (sign x y)).1 = none ↔ Overflows x y := by
      have hsmall : x.mantissa.toNat * 2 ^ 63 / (y.mantissa.toNat * 2 ^ k) < 2 ^ 64 := by
        rw [Nat.div_lt_iff_lt_mul (by omega)]
        omega
      have hscale : ∀ q n : ℕ, 2 ^ (128 + n) ≤ q * 2 ^ 64 * 2 ^ (i + k) ↔
          2 ^ (64 + n) ≤ q * 2 ^ (i + k) := by
        intro q n
        have hsplit : 128 + n = 64 + n + 64 := by omega
        rw [hsplit, Nat.pow_add _ (64 + n), Nat.mul_right_comm,
          Nat.mul_le_mul_right_iff (Nat.two_pow_pos 64)]
      rw [quotient_none (by omega), hscale,
        two_pow_le_div_mul (by omega), divisor_le_iff hlow hhigh,
        scale_iff (e := x.exp + 16383) (f := y.exp) (by omega)]
      rfl
    rw [fdiv_eq hy hi hk, hdiv, ← hover]
    constructor
    · rintro ⟨r, f, h⟩
      rw [Option.some.inj h]
      exact ⟨hy, nofun⟩
    · rintro ⟨-, hsome⟩
      obtain ⟨r, hr⟩ := Option.ne_none_iff_exists'.mp hsome
      exact ⟨r, _, congrArg some (Prod.ext hr rfl)⟩

/-! ### Both of them -/

/-- What `fmul` is meant to do: there is a result, right as long as it is in the normal range. -/
def Multiplies (x y : TempReal) : Prop :=
  (mul64 x y).toNat = x.mantissa.toNat * y.mantissa.toNat ∧
  ∃ r, (fmul x y).1 = some r ∧
    (Operand x → Operand y → InRange (x.value * y.value) → Truncates (x.value * y.value) r)

/-- The same for `fdiv`. -/
def Divides (x y : TempReal) : Prop :=
  ∃ r f, fdiv x y = some (some r, f) ∧
    (Operand x → Operand y → InRange (x.value / y.value) → Truncates (x.value / y.value) r)

theorem multiplies_iff (x y : TempReal) :
    Multiplies x y ↔ x.exp + y.exp ≤ 0x7fff + 16382 := by
  rw [← Nat.not_lt, ← fmul_result]
  constructor
  · rintro ⟨-, r, hr, -⟩
    rw [hr]
    nofun
  · intro hsome
    obtain ⟨r, hr⟩ := Option.ne_none_iff_exists'.mp hsome
    refine ⟨mul64_exact x y, r, hr, fun hx hy hrange => ?_⟩
    obtain ⟨r', hr', h⟩ := fmul_truncates hx hy hrange
    rw [hr] at hr'
    rwa [Option.some.inj hr']

theorem divides_iff (x y : TempReal) : Divides x y ↔ y.mantissa ≠ 0 ∧ ¬ Overflows x y := by
  rw [← fdiv_result]
  constructor
  · rintro ⟨r, f, hr, -⟩
    exact ⟨r, f, hr⟩
  · rintro ⟨r, f, hr⟩
    refine ⟨r, f, hr, fun hx hy hrange => ?_⟩
    obtain ⟨r', f', hr', h⟩ := fdiv_truncates hx hy hrange
    rw [hr] at hr'
    obtain ⟨hr', -⟩ := Prod.mk.inj (Option.some.inj hr')
    rwa [Option.some.inj hr']

/-- **Products and quotients** are right in the normal range, and are assigned if and only if they
do not overflow and the divisor is not zero. -/
theorem product_quotient (x y : TempReal) : Multiplies x y ∧ Divides x y ↔
    x.exp + y.exp ≤ 0x7fff + 16382 ∧ y.mantissa ≠ 0 ∧ ¬ Overflows x y := by
  rw [multiplies_iff, divides_iff]

/-- The product of 2¹⁶³⁸³ with itself is not assigned; nor is a quotient by zero. -/
theorem product_quotient_lost : large.Normal ∧ (fmul large large).1 = none ∧
    ¬ Multiplies large large ∧ fdiv one ⟨0, 0⟩ = some (none, 4) ∧ ¬ Divides one ⟨0, 0⟩ := by
  have hproduct : (fmul large large).1 = none := by decide
  have hquotient : fdiv one ⟨0, 0⟩ = some (none, 4) := by decide
  refine ⟨⟨by decide, by decide, by decide⟩, hproduct, ?_, hquotient, ?_⟩
  · rintro ⟨-, r, hr, -⟩
    rw [hproduct] at hr
    cases hr
  · rintro ⟨r, f, hr, -⟩
    rw [hquotient] at hr
    cases hr

end MathEmu
