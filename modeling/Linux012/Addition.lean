/-
Sums of temporary reals (`fadd` of kernel/math/add.c).

* `signify_spec`, `unsignify_spec` — the mantissa as an integer with the sign of the number, and
  back;
* `quarterSum`, `fadd_near` — a sum is one of mantissas without their two lowest bits;
* `exactSum` — the exact one, in units of the operand with the smaller exponent;
* `AddsUp` — what a sum should be;
* `addition` — it is that, unless 2 is added to an exponent of 0x7ffe: this makes a carry into
  the sign, which only goes unnoticed when it is made twice, or the other operand is lost anyway.

Design notes: operands are `a` and `b` when the exponent of `b` is not the larger one.
-/
import Linux012.Arithmetic

open Rounding Words

namespace MathEmu

/-! ### Mantissas as integers -/

/-- A magnitude with a sign. -/
def directed (neg : Bool) (n : ℤ) : ℤ := if neg then -n else n

variable (t a b x y : TempReal)

/-- `exponent += 2` makes a carry into the sign. -/
def Carries : Bool := decide (0x7ffe ≤ t.exp)

theorem exp_lt : t.exp < 2 ^ 15 := exp_toNat t ▸ Nat.mod_lt _ (Nat.two_pow_pos 15)

theorem toInt_neg {m : BitVec 64} {n : ℕ} (hm : m.toNat = n) (hn : n < 2 ^ 63) :
    (-m).toInt = -m.toInt := by
  refine BitVec.toInt_neg_of_ne_intMin fun h => ?_
  have hmin : (BitVec.intMin 64).toNat = 2 ^ 63 := rfl
  rw [h] at hm
  omega

theorem signify_spec : (signify t).mantissa.toInt =
    directed (t.neg ^^ Carries t) (t.mantissa.toNat / 4 : ℕ) ∧
      (signify t).exponent.toNat = (t.exp + 2) % 2 ^ 15 := by
  have hlt := exp_lt t
  have hm := t.mantissa.isLt
  have htwo : (2 : BitVec 16).toNat = 2 := rfl
  have hexp : (t.exponent + 2).toNat =
      (t.exp + 2 + if t.neg then 2 ^ 15 else 0) % 2 ^ 16 := by
    rw [BitVec.toNat_add, htwo, exponent_toNat]
    omega
  have hmsb : (t.exponent + 2).msb = (t.neg ^^ Carries t) := by
    rw [BitVec.msb_eq_decide, hexp, Carries]
    cases t.neg
    · simp only [Bool.false_eq_true, if_false, Bool.false_xor, decide_eq_decide]
      omega
    · simp only [if_true, Bool.true_xor, ← decide_not, decide_eq_decide]
      omega
  have hquarter : (t.mantissa >>> 2).toNat = t.mantissa.toNat / 4 := by
    rw [BitVec.toNat_ushiftRight, Nat.shiftRight_eq_div_pow]
  have hint : (t.mantissa >>> 2).toInt = (t.mantissa.toNat / 4 : ℕ) := by
    rw [BitVec.toInt_eq_toNat_of_lt (by omega), hquarter]
  constructor
  · rw [signify, directed, ← hmsb]
    dsimp only
    split
    · rw [toInt_neg hquarter (by omega), hint]
    · exact hint
  · rw [signify]
    dsimp only
    rw [mask_toNat _ _ 15 rfl, hexp]
    split <;> omega

/-- What is shifted up has its uppermost bit. -/
theorem shiftUp_msb {t r : TempReal} (n : ℕ) (h : shiftUp n t = some r) :
    2 ^ 63 ≤ r.mantissa.toNat := by
  induction n generalizing t with
  | zero => cases h
  | succ n ih =>
    rw [shiftUp] at h
    split at h
    case isTrue hmsb =>
      obtain rfl := Option.some.inj h
      rwa [BitVec.msb_eq_decide, decide_eq_true_iff] at hmsb
    case isFalse => exact ih h

/-- The mantissa is `n`, shifted up by `k`; the sign comes from `n`, and the exponent gives way. -/
structure Unsigned (t r : TempReal) (n : ℤ) (k : ℕ) : Prop where
  bounds : 1 ≤ k ∧ k ≤ 63
  mantissa : r.mantissa.toNat = n.natAbs * 2 ^ k
  msb : 2 ^ 63 ≤ r.mantissa.toNat
  exponent : r.exponent.toNat =
    (t.exponent.toNat + (if n < 0 then 2 ^ 15 else 0) + 2 ^ 16 - k) % 2 ^ 16

theorem unsignify_zero (h : t.mantissa.toInt = 0) : unsignify t = some ⟨0, 0⟩ := by
  have hzero : t.mantissa = 0 := BitVec.eq_of_toInt_eq h
  rw [unsignify, if_pos hzero]

theorem unsignify_spec {n : ℤ} (hn : t.mantissa.toInt = n) (hne : n ≠ 0)
    (hlt : n.natAbs < 2 ^ 63) (he : t.exponent.toNat < 2 ^ 15) :
    ∃ r k, unsignify t = some r ∧ Unsigned t r n k := by
  have hzero : ¬ t.mantissa = 0 := by
    intro h
    rw [h] at hn
    exact hne hn.symm
  have hmsb : t.mantissa.msb = decide (n < 0) := by
    rw [← hn, BitVec.msb_eq_toInt]
  -- the sign is moved into the exponent
  obtain ⟨u, hu, hum, hue⟩ : ∃ u : TempReal, unsignify t = shiftUp 64 u ∧
      u.mantissa.toNat = n.natAbs ∧
      u.exponent.toNat = t.exponent.toNat + if n < 0 then 2 ^ 15 else 0 := by
    have hmask : (t.exponent &&& 0x7fff).toNat = t.exponent.toNat := by
      rw [mask_toNat _ _ 15 rfl, Nat.mod_eq_of_lt he]
    have hsigned := signed_pattern 0x8000 15 rfl hmask he (decide (n < 0))
    have hcond := BitVec.toInt_eq_toNat_cond t.mantissa
    have htop := t.mantissa.isLt
    rw [unsignify, if_neg hzero]
    dsimp only
    rw [hmsb]
    by_cases hneg : n < 0
    · rw [decide_eq_true hneg] at hsigned ⊢
      refine ⟨_, rfl, ?_, ?_⟩
      · rw [if_pos rfl, BitVec.toNat_neg]
        omega
      · rw [if_pos hneg]
        exact hsigned
    · rw [decide_eq_false hneg] at hsigned ⊢
      refine ⟨_, rfl, ?_, ?_⟩
      · rw [if_neg Bool.false_ne_true]
        change t.mantissa.toNat = n.natAbs
        omega
      · rw [if_neg hneg]
        exact hmask
  have hpos : 0 < n.natAbs := Int.natAbs_pos.mpr hne
  obtain ⟨k, hk, r, hr, hrm, hre⟩ := shiftUp_spec 63 u (by
    rw [hum]
    exact Nat.le_mul_of_pos_left _ hpos)
  rw [hum] at hrm
  have htop := shiftUp_msb 64 hr
  refine ⟨r, k, hu.trans hr, ⟨?_, hk⟩, hrm, htop, ?_⟩
  · refine Nat.one_le_iff_ne_zero.mpr fun hk₀ => ?_
    rw [hk₀, Nat.pow_zero, Nat.mul_one] at hrm
    omega
  · rw [hre, BitVec.toNat_sub, BitVec.toNat_ofNat, hue]
    omega

/-! ### The sum -/

/-- The relative sign is what `b` is added with to `a`. -/
def relative (neg : Bool) (m n : ℕ) : ℤ := if neg then m - n else m + n

/-- Whether one of the carries goes without the other. -/
def Slips : Bool := Carries a ^^ Carries b

/-- The mantissas without their lowest bits, with the sign of `a` left out. -/
def quarterSum : ℤ :=
  relative (a.neg ^^ b.neg ^^ Slips a b) (a.mantissa.toNat / 4)
    (b.mantissa.toNat / 2 ^ (a.exp - b.exp + 2))

/-- `fadd`, once the operands are ordered and near. -/
def addNear : Option TempReal :=
  let b := { b with mantissa := b.mantissa >>> (a.exp - b.exp) }
  let a := signify a
  unsignify { a with mantissa := a.mantissa + (signify b).mantissa }

theorem fadd_of_lt (h : y.exp < x.exp) : fadd x y =
    if 64 ≤ x.exp - y.exp then some x else addNear x y := by
  rw [fadd, if_pos h]
  rfl

theorem fadd_of_le (h : x.exp ≤ y.exp) : fadd x y =
    if 64 ≤ y.exp - x.exp then some y else addNear y x := by
  rw [fadd, if_neg (Nat.not_lt.mpr h)]
  rfl

/-- The result, when the sum of the mantissas is `n`. -/
structure Summed (a r : TempReal) (n : ℤ) (k : ℕ) : Prop where
  bounds : 1 ≤ k ∧ k ≤ 63
  mantissa : r.mantissa.toNat = n.natAbs * 2 ^ k
  msb : 2 ^ 63 ≤ r.mantissa.toNat
  exp : k ≤ a.exp + 2 → r.exp = a.exp + 2 - k
  neg : k ≤ a.exp + 2 → r.neg = (a.neg ^^ decide (n < 0))

theorem relative_bounds {m n : ℕ} (hm : m < 2 ^ 62) (hn : n < 2 ^ 62) (neg : Bool) :
    (relative neg m n).natAbs < 2 ^ 63 := by
  rw [relative]
  split <;> omega

theorem sum_toInt : let b' := { b with mantissa := b.mantissa >>> (a.exp - b.exp) }
    ((signify a).mantissa + (signify b').mantissa).toInt =
      directed (a.neg ^^ Carries a) (quarterSum a b) := by
  intro b'
  have ha := a.mantissa.isLt
  have hb := b.mantissa.isLt
  have hshift : b'.mantissa.toNat / 4 = b.mantissa.toNat / 2 ^ (a.exp - b.exp + 2) := by
    change (b.mantissa >>> (a.exp - b.exp)).toNat / 4 = _
    rw [BitVec.toNat_ushiftRight, Nat.shiftRight_eq_div_pow, Nat.div_div_eq_div_mul, Nat.pow_add]
  have hsmall : b.mantissa.toNat / 2 ^ (a.exp - b.exp + 2) < 2 ^ 62 := by
    rw [← hshift]
    have hle := b'.mantissa.isLt
    omega
  obtain ⟨hA, -⟩ := signify_spec a
  obtain ⟨hB, -⟩ := signify_spec b'
  have hneg : (b'.neg ^^ Carries b') = (b.neg ^^ Carries b) := rfl
  rw [hneg, hshift] at hB
  have hsum : ((signify a).mantissa + (signify b').mantissa).toInt =
      (signify a).mantissa.toInt + (signify b').mantissa.toInt := by
    rw [BitVec.toInt_add, hA, hB]
    refine Int.bmod_eq_of_le ?_ ?_ <;> simp only [directed] <;> split <;> split <;> omega
  rw [hsum, hA, hB, quarterSum, Slips]
  cases a.neg <;> cases b.neg <;> cases Carries a <;> cases Carries b <;>
    simp [directed, relative] <;> omega

variable {a b}

theorem addNear_zero (h : quarterSum a b = 0) : addNear a b = some ⟨0, 0⟩ := by
  have hsum := sum_toInt a b
  refine unsignify_zero _ (hsum.trans ?_)
  rw [h, directed]
  split <;> rfl

theorem addNear_spec (ha : a.exp < 0x7fff) (hne : quarterSum a b ≠ 0) :
    ∃ r k, addNear a b = some r ∧ Summed a r (quarterSum a b) k := by
  obtain ⟨p, hp⟩ : ∃ p, quarterSum a b = p := ⟨_, rfl⟩
  have hma := a.mantissa.isLt
  have hmb := b.mantissa.isLt
  have hsmall : b.mantissa.toNat / 2 ^ (a.exp - b.exp + 2) < 2 ^ 62 := by
    rw [Nat.add_comm, Nat.pow_add, ← Nat.div_div_eq_div_mul]
    exact (Nat.div_le_self _ _).trans_lt (by omega)
  have hbound : (quarterSum a b).natAbs < 2 ^ 63 := relative_bounds (by omega) hsmall _
  have hsum := sum_toInt a b
  dsimp only at hsum
  obtain ⟨-, hE⟩ := signify_spec a
  rw [hp] at hne hbound hsum ⊢
  have hdir : directed (a.neg ^^ Carries a) p ≠ 0 := by
    rw [directed]
    split <;> omega
  have habs : (directed (a.neg ^^ Carries a) p).natAbs = p.natAbs := by
    rw [directed]
    split <;> omega
  obtain ⟨r, k, hr, h⟩ := unsignify_spec
    ⟨(signify a).mantissa + (signify ⟨b.mantissa >>> (a.exp - b.exp), b.exponent⟩).mantissa,
      (signify a).exponent⟩ hsum hdir (habs ▸ hbound) (hE ▸ Nat.mod_lt _ (by decide))
  have hexp : k ≤ a.exp + 2 → r.exponent.toNat =
      a.exp + 2 - k + if (a.neg ^^ decide (p < 0)) then 2 ^ 15 else 0 := by
    intro hk
    obtain ⟨hone, hlast⟩ := h.bounds
    have hexponent := h.exponent
    dsimp only at hexponent
    rw [hE, directed, Carries] at hexponent
    rw [hexponent]
    -- a carry turns the sign over, and what is taken from the exponent turns it over again
    rcases Int.lt_or_gt_of_ne hne with hneg | hpos
    · have hle : ¬ 0 < p := by omega
      by_cases hcarry : 0x7ffe ≤ a.exp
      · cases a.neg <;> simp [hneg, hle, hcarry] <;> omega
      · cases a.neg <;> simp [hneg, hle, hcarry] <;> omega
    · have hle : ¬ p < 0 := by omega
      by_cases hcarry : 0x7ffe ≤ a.exp
      · cases a.neg <;> simp [hpos, hle, hcarry] <;> omega
      · cases a.neg <;> simp [hpos, hle, hcarry] <;> omega
  refine ⟨r, k, hr, h.bounds, ?_, h.msb, fun hk => ?_, fun hk => ?_⟩
  · rw [h.mantissa, habs]
  · obtain ⟨hone, -⟩ := h.bounds
    exact (of_exponent r (by omega) (hexp hk)).1
  · obtain ⟨hone, -⟩ := h.bounds
    exact (of_exponent r (by omega) (hexp hk)).2

/-! ### The values -/

/-- The unit of the mantissa. -/
def TempReal.unit (t : TempReal) : ℚ := 2 ^ ((t.exp : ℤ) - 16446)

theorem unit_pos (t : TempReal) : 0 < t.unit := zpow_pos (by norm_num) _

/-- The exact sum in units of `b`, with the sign of `a` left out. -/
def exactSum (a b : TempReal) : ℤ :=
  relative (a.neg ^^ b.neg) (a.mantissa.toNat * 2 ^ (a.exp - b.exp)) b.mantissa.toNat

variable {r : TempReal} {k : ℕ} (hle : b.exp ≤ a.exp)

include hle

/-- The unit of `a`, in units of `b`. -/
theorem unit_eq : a.unit = 2 ^ (a.exp - b.exp) * b.unit := by
  rw [TempReal.unit, TempReal.unit, ← zpow_natCast, ← zpow_add₀ two_ne_zero]
  congr 1
  omega

theorem sum_value : a.value + b.value = signed a.neg ((exactSum a b : ℚ) * b.unit) := by
  have hunit := unit_eq hle
  rw [TempReal.unit] at hunit
  rw [TempReal.value, TempReal.value, hunit, exactSum]
  change _ + signed b.neg (_ * b.unit) = _
  cases a.neg <;> cases b.neg <;> simp [signed, relative] <;> ring

theorem Summed.value {n : ℤ} (h : Summed a r n k) (hk : k ≤ a.exp + 2) :
    r.value = signed a.neg (((4 * n * 2 ^ (a.exp - b.exp) : ℤ) : ℚ) * b.unit) := by
  have hscale : (2 : ℚ) ^ k * r.unit = 4 * (2 ^ (a.exp - b.exp) * b.unit) := by
    rw [← unit_eq hle, TempReal.unit, TempReal.unit, h.exp hk, ← zpow_natCast,
      ← zpow_add₀ two_ne_zero, show (4 : ℚ) = 2 ^ (2 : ℤ) by norm_num, ← zpow_add₀ two_ne_zero]
    congr 1
    omega
  have hvalue : r.value = signed r.neg (n.natAbs * (2 ^ k * r.unit)) := by
    rw [TempReal.value, h.mantissa, TempReal.unit]
    push_cast
    rw [mul_assoc]
  rw [hvalue, hscale, h.neg hk]
  rcases lt_or_ge n 0 with hneg | hpos
  · have habs : ((n.natAbs : ℕ) : ℚ) = -n := by
      rw [← Int.cast_natCast, Int.ofNat_natAbs_of_nonpos hneg.le]
      push_cast
      ring
    rw [habs, decide_eq_true hneg]
    cases a.neg <;> simp [signed] <;> ring
  · have habs : ((n.natAbs : ℕ) : ℚ) = n := by
      rw [← Int.cast_natCast, Int.natAbs_of_nonneg hpos]
    rw [habs, decide_eq_false (Int.not_lt.mpr hpos)]
    cases a.neg <;> simp [signed] <;> ring

omit hle in
theorem signed_sub_signed (neg : Bool) (u v : ℚ) :
    |signed neg u - signed neg v| = |u - v| := by
  cases neg with
  | false => rfl
  | true =>
    change |-u - -v| = |u - v|
    rw [neg_sub_neg, abs_sub_comm]

omit hle in
theorem signed_mul_signed (neg : Bool) (u v : ℚ) : signed neg u * signed neg v = u * v := by
  cases neg with
  | false => rfl
  | true => exact neg_mul_neg u v

theorem max_value : max |a.value| |b.value| =
    (max (a.mantissa.toNat * 2 ^ (a.exp - b.exp)) b.mantissa.toNat : ℕ) * b.unit := by
  rw [abs_value, abs_value, ← TempReal.unit, ← TempReal.unit, unit_eq hle, ← mul_assoc,
    ← max_mul_of_nonneg _ _ (unit_pos b).le]
  push_cast
  rfl

/-- The error of a result, in units of `b`. -/
theorem error_iff {n : ℤ} (hr : r.value = signed a.neg ((n : ℚ) * b.unit)) :
    |r.value - (a.value + b.value)| ≤ max |a.value| |b.value| / 2 ^ 60 ↔
      (n - exactSum a b).natAbs * 2 ^ 60 ≤
        max (a.mantissa.toNat * 2 ^ (a.exp - b.exp)) b.mantissa.toNat := by
  have hpos := unit_pos b
  have habs : |((n : ℚ) - exactSum a b)| = ((n - exactSum a b).natAbs : ℕ) := by
    rw [← Int.cast_sub, ← Int.cast_abs, Int.abs_eq_natAbs, Int.cast_natCast]
  rw [hr, sum_value hle, signed_sub_signed, ← sub_mul, abs_mul, abs_of_pos hpos, habs,
    max_value hle, le_div_iff₀ (by positivity), mul_right_comm, mul_le_mul_iff_left₀ hpos]
  exact_mod_cast Iff.rfl

/-- The sign of a result. -/
theorem sign_iff {n : ℤ} (hr : r.value = signed a.neg ((n : ℚ) * b.unit)) :
    0 < r.value * (a.value + b.value) ↔ 0 < n * exactSum a b := by
  have hpos := unit_pos b
  rw [hr, sum_value hle, signed_mul_signed, mul_mul_mul_comm,
    mul_pos_iff_of_pos_right (by positivity)]
  exact_mod_cast Iff.rfl

theorem abs_sum : |a.value + b.value| = (exactSum a b).natAbs * b.unit := by
  have habs : |(exactSum a b : ℚ)| = ((exactSum a b).natAbs : ℕ) := by
    rw [← Int.cast_abs, Int.abs_eq_natAbs, Int.cast_natCast]
  have hzero := signed_sub_signed a.neg ((exactSum a b : ℚ) * b.unit) 0
  have hneg : signed a.neg (0 : ℚ) = 0 := by cases a.neg <;> simp [signed]
  rw [hneg, sub_zero, sub_zero] at hzero
  rw [sum_value hle, hzero, abs_mul, abs_of_pos (unit_pos b), habs]

/-- A sum that is not below the normal numbers. -/
theorem range_low (h : InRange (a.value + b.value)) :
    2 ^ 64 ≤ (exactSum a b).natAbs * 2 ^ b.exp := by
  have hlow := h.1
  have hmin : (2 : ℚ) ^ (-16382 : ℤ) = 2 ^ 64 * 2 ^ (-16446 : ℤ) := by
    rw [← zpow_natCast, ← zpow_add₀ two_ne_zero]
    rfl
  have hunit : b.unit = 2 ^ b.exp * 2 ^ (-16446 : ℤ) := by
    rw [TempReal.unit, ← zpow_natCast, ← zpow_add₀ two_ne_zero]
    rfl
  rw [abs_sum hle, hmin, hunit, ← mul_assoc,
    mul_le_mul_iff_left₀ (zpow_pos (by norm_num) _)] at hlow
  exact_mod_cast hlow

/-- A sum that is not above them. -/
theorem range_high (h : InRange (a.value + b.value)) (hb : b.exp = 0x7ffe) :
    (exactSum a b).natAbs < 2 ^ 64 := by
  have hhigh := h.2
  have hmax : (2 : ℚ) ^ (16384 : ℤ) = 2 ^ 64 * 2 ^ (16320 : ℤ) := by
    rw [← zpow_natCast, ← zpow_add₀ two_ne_zero]
    rfl
  have hunit : b.unit = 2 ^ (16320 : ℤ) := by
    rw [TempReal.unit, hb]
    rfl
  rw [abs_sum hle, hmax, hunit, mul_lt_mul_iff_left₀ (zpow_pos (by norm_num) _)] at hhigh
  exact_mod_cast hhigh

omit hle

/-! ### What is lost of the mantissas -/

/-- The mantissas by what is kept of them and what is lost. -/
theorem mantissa_split (a b : TempReal) : ∃ A B ra rb D : ℕ, D = 2 ^ (a.exp - b.exp) ∧ 1 ≤ D ∧
    a.mantissa.toNat = 4 * A + ra ∧ ra < 4 ∧ b.mantissa.toNat = 4 * (B * D) + rb ∧ rb < 4 * D ∧
    quarterSum a b = relative (a.neg ^^ b.neg ^^ Slips a b) A B ∧
    exactSum a b = relative (a.neg ^^ b.neg) (4 * (A * D) + ra * D) (4 * (B * D) + rb) := by
  have hA := Nat.div_add_mod a.mantissa.toNat 4
  have hra := Nat.mod_lt a.mantissa.toNat (show 0 < 4 by decide)
  have hpos := Nat.two_pow_pos (a.exp - b.exp)
  have hscale : 2 ^ (a.exp - b.exp + 2) = 4 * 2 ^ (a.exp - b.exp) := by
    rw [Nat.pow_add, Nat.mul_comm]
  have hB := Nat.div_add_mod b.mantissa.toNat (2 ^ (a.exp - b.exp + 2))
  have hrb := Nat.mod_lt b.mantissa.toNat (Nat.two_pow_pos (a.exp - b.exp + 2))
  have hsplit : b.mantissa.toNat = 4 * (b.mantissa.toNat / 2 ^ (a.exp - b.exp + 2) *
      2 ^ (a.exp - b.exp)) + b.mantissa.toNat % 2 ^ (a.exp - b.exp + 2) := by
    rw [← Nat.mul_assoc, Nat.mul_right_comm, ← hscale, hB]
  refine ⟨a.mantissa.toNat / 4, b.mantissa.toNat / 2 ^ (a.exp - b.exp + 2), _, _, _, rfl, hpos,
    hA.symm, hra, hsplit, hscale ▸ hrb, rfl, ?_⟩
  rw [exactSum, ← hsplit, ← Nat.mul_assoc, ← Nat.add_mul, hA]

/-- The truncated sum is near to the exact one, unless a carry has slipped. -/
theorem exactSum_near (hslip : Slips a b = false) :
    let n := 4 * quarterSum a b * 2 ^ (a.exp - b.exp)
    let d := (2 : ℤ) ^ (a.exp - b.exp)
    if a.neg = b.neg then n ≤ exactSum a b ∧ exactSum a b < n + 7 * d
    else n - 4 * d < exactSum a b ∧ exactSum a b ≤ n + 3 * d := by
  obtain ⟨A, B, ra, rb, D, hD, hone, -, hra, -, hrb, hp, hq⟩ := mantissa_split a b
  have hcast : (2 : ℤ) ^ (a.exp - b.exp) = D := by
    rw [hD]
    push_cast
    rfl
  have hraD : ra * D ≤ 3 * D := Nat.mul_le_mul_right D (by omega)
  intro n d
  change if _ then n ≤ _ ∧ _ < n + 7 * d else n - 4 * d < _ ∧ _ ≤ n + 3 * d
  rw [show d = D from hcast]
  by_cases hneg : a.neg = b.neg
  · have hn : n = 4 * ((A * D : ℕ) + (B * D : ℕ)) := by
      change 4 * quarterSum a b * _ = _
      rw [hcast, hp, hslip, hneg]
      simp only [relative, Bool.xor_self, Bool.false_eq_true, if_false]
      push_cast
      ring
    rw [if_pos hneg, hq, hn, hneg]
    simp only [relative, Bool.xor_self, Bool.false_eq_true, if_false]
    omega
  · have hxor : (a.neg ^^ b.neg) = true := by
      cases ha : a.neg <;> cases hb : b.neg <;> simp_all
    have hn : n = 4 * ((A * D : ℕ) - (B * D : ℕ)) := by
      change 4 * quarterSum a b * _ = _
      rw [hcast, hp, hslip, Bool.xor_false, hxor]
      simp only [relative, if_true]
      push_cast
      ring
    rw [if_neg hneg, hq, hn, hxor]
    simp only [relative, if_true]
    omega

/-! ### Sums as they should be -/

def Operand (t : TempReal) : Prop := t.Normal ∨ t.Zero

/-- What the result of an addition is meant to be. -/
structure Sums (x y r : TempReal) : Prop where
  operand : Operand r
  error : |r.value - (x.value + y.value)| ≤ max |x.value| |y.value| / 2 ^ 60
  sign : r.value ≠ 0 → 0 < r.value * (x.value + y.value)

theorem zero_value {t : TempReal} (h : t.Zero) : t.value = 0 := by
  rw [TempReal.value, h.mantissa]
  cases t.neg <;> simp [signed]

theorem zero_zero : (⟨0, 0⟩ : TempReal).Zero := ⟨rfl, rfl⟩

/-- With a zero `a`, `b` is one as well. -/
theorem zero_of_zero (hle : b.exp ≤ a.exp) (ha : a.Zero) (hb : Operand b) : b.Zero := by
  refine hb.resolve_left fun hnormal => ?_
  have hpos := hnormal.pos
  rw [ha.exp] at hle
  omega

theorem sums_zero (ha : a.Zero) (hb : b.Zero) : Sums a b ⟨0, 0⟩ := by
  refine ⟨.inr zero_zero, ?_, fun hne => absurd (zero_value zero_zero) hne⟩
  rw [zero_value ha, zero_value hb, zero_value zero_zero]
  simp

/-- The uppermost bits of `a` are there, whatever is lost. -/
theorem TempReal.Normal.scaled (ha : a.Normal) (d : ℕ) : 2 ^ 63 * d ≤ a.mantissa.toNat * d :=
  Nat.mul_le_mul_right d ha.mantissa

theorem TempReal.Normal.ne_zero (ha : a.Normal) : a.mantissa ≠ 0 := by
  intro hzero
  have hmantissa := ha.mantissa
  rw [hzero] at hmantissa
  exact absurd hmantissa (by decide)

/-- Operands that cancel out but for what is lost. -/
theorem sums_cancel (hle : b.exp ≤ a.exp) (ha : a.Normal) (hslip : Slips a b = false)
    (hp : quarterSum a b = 0) : Sums a b ⟨0, 0⟩ := by
  refine ⟨.inr zero_zero, ?_, fun hne => absurd (zero_value zero_zero) hne⟩
  have hvalue : (⟨0, 0⟩ : TempReal).value = signed a.neg (((0 : ℤ) : ℚ) * b.unit) := by
    rw [zero_value zero_zero]
    cases a.neg <;> simp [signed]
  rw [error_iff hle hvalue]
  have hnear := exactSum_near hslip
  dsimp only at hnear
  have hscaled := ha.scaled (2 ^ (a.exp - b.exp))
  have hd : ((2 ^ (a.exp - b.exp) : ℕ) : ℤ) = 2 ^ (a.exp - b.exp) := by push_cast; rfl
  rw [hp, ← hd] at hnear
  refine le_max_of_le_left ?_
  split at hnear <;> omega

/-- The result is no zero. -/
theorem value_ne_zero (hr : r.Normal) : r.value ≠ 0 := by
  have hpos : 0 < (r.mantissa.toNat : ℚ) * r.unit := by
    refine mul_pos ?_ (unit_pos r)
    exact_mod_cast Nat.lt_of_lt_of_le (Nat.two_pow_pos 63) hr.mantissa
  rw [← abs_ne_zero, abs_value, ← TempReal.unit]
  exact hpos.ne'

/-- The exponent does not run out, as the exact sum is not below the normal numbers. -/
theorem Summed.shift_le (h : Summed a r (quarterSum a b) k) (hle : b.exp ≤ a.exp) (ha : a.Normal)
    (hslip : Slips a b = false) (hrange : InRange (a.value + b.value)) : k ≤ a.exp + 1 := by
  obtain ⟨A, B, ra, rb, D, hD, hone, hA, hra, hB, hrb, hp, hq⟩ := mantissa_split a b
  have hmant := ha.mantissa
  have hpos := ha.pos
  have htop := r.mantissa.isLt
  rw [h.mantissa] at htop
  by_contra hk
  have hnear := exactSum_near hslip
  dsimp only at hnear
  by_cases hneg : a.neg = b.neg
  · -- without cancellation there are two leading zeros at most
    have hlarge : 2 ^ 61 ≤ (quarterSum a b).natAbs := by
      rw [hp, hslip, hneg]
      simp only [relative, Bool.xor_self, Bool.false_eq_true, if_false]
      omega
    have hthree : 2 ^ 3 ≤ 2 ^ k := Nat.pow_le_pow_right (by decide) (by omega)
    have hprod := Nat.mul_le_mul hlarge hthree
    omega
  · rw [if_neg hneg] at hnear
    have hlow := range_low hle hrange
    have hd : ((2 ^ (a.exp - b.exp) : ℕ) : ℤ) = 2 ^ (a.exp - b.exp) := by push_cast; rfl
    have hpow : 2 ^ (a.exp - b.exp) * 2 ^ b.exp = 2 ^ a.exp := by
      rw [← Nat.pow_add, Nat.sub_add_cancel hle]
    have hbounds := h.bounds
    -- what is left of the sum is a multiple of `2 ^ (a.exp + 2)` below `2 ^ 64`
    have hstep : ((quarterSum a b).natAbs + 1) * 2 ^ (a.exp + 2) ≤ 2 ^ 64 := by
      have hsplit : 2 ^ 64 = 2 ^ (62 - a.exp) * 2 ^ (a.exp + 2) := by
        rw [← Nat.pow_add]
        congr 1
        omega
      have hless : (quarterSum a b).natAbs * 2 ^ (a.exp + 2) < 2 ^ 64 :=
        (Nat.mul_le_mul_left _ (Nat.pow_le_pow_right (by decide) (by omega))).trans_lt htop
      rw [hsplit] at hless ⊢
      exact Nat.mul_le_mul_right _ (Nat.lt_of_mul_lt_mul_right hless)
    have hsum : (exactSum a b).natAbs <
        4 * ((quarterSum a b).natAbs + 1) * 2 ^ (a.exp - b.exp) := by
      have habs : (quarterSum a b * 2 ^ (a.exp - b.exp)).natAbs =
          (quarterSum a b).natAbs * 2 ^ (a.exp - b.exp) := by
        rw [Int.natAbs_mul, Int.natAbs_pow]
        rfl
      rw [Int.mul_assoc, ← hd] at hnear
      rw [← hd] at habs
      rw [Nat.mul_assoc, Nat.add_mul, Nat.one_mul, ← habs]
      omega
    have hscaled := Nat.mul_lt_mul_of_pos_right hsum (Nat.two_pow_pos b.exp)
    rw [Nat.mul_assoc, hpow, Nat.mul_assoc, Nat.mul_comm 4, Nat.mul_assoc] at hscaled
    have hfour : 2 ^ (a.exp + 2) = 2 ^ a.exp * 4 := Nat.pow_add _ _ _
    rw [← hfour] at hscaled
    omega

/-- Two numbers of exponent 0x7ffe whose sum does not overflow lose one bit more. -/
theorem Summed.two_le (h : Summed a r (quarterSum a b) k) (hle : b.exp ≤ a.exp)
    (hslip : Slips a b = false) (htop : a.exp = 0x7ffe) (hrange : InRange (a.value + b.value)) :
    2 ≤ k := by
  obtain ⟨A, B, ra, rb, D, hD, hone, hA, hra, hB, hrb, hp, hq⟩ := mantissa_split a b
  have hb : b.exp = 0x7ffe := by
    have hcarry : Carries a = true := decide_eq_true htop.ge
    rw [Slips, hcarry, Bool.true_xor, Bool.not_eq_false'] at hslip
    have hge := of_decide_eq_true hslip
    omega
  have hhigh := range_high hle hrange hb
  have hmsb := h.msb
  have hbounds := h.bounds
  have hma := a.mantissa.isLt
  have hmb := b.mantissa.isLt
  have hD1 : D = 1 := by
    rw [hD, htop, hb]
    rfl
  rw [h.mantissa] at hmsb
  by_contra hk
  obtain rfl : k = 1 := by omega
  rw [hD1] at hq hB hrb
  by_cases hneg : a.neg = b.neg
  · rw [hp, hslip, hneg] at hmsb
    rw [hq, hneg] at hhigh
    simp only [relative, Bool.xor_self, Bool.false_eq_true, if_false] at hmsb hhigh
    omega
  · have hxor : (a.neg ^^ b.neg) = true := by
      cases ha : a.neg <;> cases hb : b.neg <;> simp_all
    rw [hp, hslip, Bool.xor_false, hxor] at hmsb
    simp only [relative, if_true] at hmsb
    omega

theorem Summed.normal (h : Summed a r (quarterSum a b) k) (hle : b.exp ≤ a.exp) (ha : a.Normal)
    (hslip : Slips a b = false) (hrange : InRange (a.value + b.value)) : r.Normal := by
  have hk := h.shift_le hle ha hslip hrange
  have hexp := h.exp (by omega)
  have hbounds := h.bounds
  have hfinite := ha.finite
  refine ⟨h.msb, by omega, ?_⟩
  by_cases htop : a.exp = 0x7ffe
  · have htwo := h.two_le hle hslip htop hrange
    omega
  · omega

theorem quarterSum_nonneg (hslip : Slips a b = false) (hneg : a.neg = b.neg) :
    0 ≤ quarterSum a b := by
  rw [quarterSum, hslip, hneg]
  simp only [relative, Bool.xor_self, Bool.false_eq_true, if_false]
  exact Int.add_nonneg (Int.natCast_nonneg _) (Int.natCast_nonneg _)

theorem near_sums (hle : b.exp ≤ a.exp) (ha : a.Normal) (hslip : Slips a b = false)
    (hrange : InRange (a.value + b.value)) (hne : quarterSum a b ≠ 0) :
    ∃ r, addNear a b = some r ∧ Sums a b r := by
  obtain ⟨r, k, hr, h⟩ := addNear_spec ha.finite hne
  have hk := h.shift_le hle ha hslip hrange
  have hvalue := h.value hle (by omega)
  have hnear := exactSum_near hslip
  dsimp only at hnear
  have hscaled := ha.scaled (2 ^ (a.exp - b.exp))
  have hd : ((2 ^ (a.exp - b.exp) : ℕ) : ℤ) = 2 ^ (a.exp - b.exp) := by push_cast; rfl
  have hpos := Nat.two_pow_pos (a.exp - b.exp)
  rw [← hd] at hnear hvalue
  refine ⟨r, hr, .inl (h.normal hle ha hslip hrange), ?_, fun _ => ?_⟩
  · rw [error_iff hle hvalue]
    refine le_max_of_le_left ?_
    split at hnear <;> omega
  · have hassoc : 4 * quarterSum a b * ((2 ^ (a.exp - b.exp) : ℕ) : ℤ) =
        4 * (quarterSum a b * (2 ^ (a.exp - b.exp) : ℕ)) := Int.mul_assoc _ _ _
    rw [sign_iff hle hvalue]
    rw [hassoc] at hnear ⊢
    rcases Int.lt_or_gt_of_ne hne with hlt | hgt
    · have hmul : quarterSum a b * (2 ^ (a.exp - b.exp) : ℕ) ≤ -1 * (2 ^ (a.exp - b.exp) : ℕ) :=
        Int.mul_le_mul_of_nonneg_right (by omega) (by omega)
      have hneg : ¬ a.neg = b.neg := fun hsame => by
        have hnonneg := quarterSum_nonneg hslip hsame
        omega
      rw [if_neg hneg] at hnear
      exact mul_pos_of_neg_of_neg (by omega) (by omega)
    · have hmul : 1 * (2 ^ (a.exp - b.exp) : ℕ) ≤ quarterSum a b * (2 ^ (a.exp - b.exp) : ℕ) :=
        Int.mul_le_mul_of_nonneg_right (by omega) (by omega)
      refine mul_pos (by omega) ?_
      split at hnear <;> omega

/-- The smaller operand does not matter at all. -/
theorem far_sums (hle : b.exp ≤ a.exp) (ha : a.Normal) (hfar : 64 ≤ a.exp - b.exp) :
    Sums a b a := by
  have hmb := b.mantissa.isLt
  have hscaled := ha.scaled (2 ^ (a.exp - b.exp))
  have hlarge : 2 ^ 64 ≤ 2 ^ (a.exp - b.exp) := Nat.pow_le_pow_right (by decide) hfar
  have hvalue : a.value = signed a.neg
      (((a.mantissa.toNat * 2 ^ (a.exp - b.exp) : ℕ) : ℤ) * b.unit) := by
    rw [TempReal.value, ← TempReal.unit, unit_eq hle, ← mul_assoc]
    push_cast
    rfl
  refine ⟨.inl ha, ?_, fun _ => ?_⟩
  · rw [error_iff hle hvalue, exactSum, relative]
    refine le_max_of_le_left ?_
    split <;> omega
  · rw [sign_iff hle hvalue, exactSum, relative]
    refine mul_pos (by omega) ?_
    split <;> omega

/-- Operands that cancel out leave nothing. -/
theorem quarterSum_zero (hle : b.exp ≤ a.exp) (hslip : Slips a b = false)
    (hzero : a.value + b.value = 0) : quarterSum a b = 0 := by
  have hsum := abs_sum hle
  rw [hzero, abs_zero, eq_comm, mul_eq_zero_iff_right (unit_pos b).ne', Nat.cast_eq_zero,
    Int.natAbs_eq_zero] at hsum
  have hnear := exactSum_near hslip
  have hpos := Nat.two_pow_pos (a.exp - b.exp)
  have hd : ((2 ^ (a.exp - b.exp) : ℕ) : ℤ) = 2 ^ (a.exp - b.exp) := by push_cast; rfl
  have hassoc : 4 * quarterSum a b * ((2 ^ (a.exp - b.exp) : ℕ) : ℤ) =
      4 * (quarterSum a b * (2 ^ (a.exp - b.exp) : ℕ)) := Int.mul_assoc _ _ _
  dsimp only at hnear
  rw [← hd, hassoc, hsum] at hnear
  by_contra hne
  rcases Int.lt_or_gt_of_ne hne with hlt | hgt
  · have hmul : quarterSum a b * (2 ^ (a.exp - b.exp) : ℕ) ≤ -1 * (2 ^ (a.exp - b.exp) : ℕ) :=
      Int.mul_le_mul_of_nonneg_right (by omega) (by omega)
    have hneg : ¬ a.neg = b.neg := fun hsame => by
      have hnonneg := quarterSum_nonneg hslip hsame
      omega
    rw [if_neg hneg] at hnear
    omega
  · have hmul : 1 * (2 ^ (a.exp - b.exp) : ℕ) ≤ quarterSum a b * (2 ^ (a.exp - b.exp) : ℕ) :=
      Int.mul_le_mul_of_nonneg_right (by omega) (by omega)
    split at hnear <;> omega

/-- The sum of operands that are near, without a slip. -/
theorem sums_of_ordered (hle : b.exp ≤ a.exp) (ha : Operand a) (hb : Operand b)
    (hslip : Slips a b = false)
    (hrange : a.value + b.value = 0 ∨ InRange (a.value + b.value)) :
    ∃ r, addNear a b = some r ∧ Sums a b r := by
  rcases ha with ha | ha
  swap
  · have hb' := zero_of_zero hle ha hb
    have hp : quarterSum a b = 0 := by
      rw [quarterSum, ha.mantissa, hb'.mantissa]
      simp [relative]
    exact ⟨_, addNear_zero hp, sums_zero ha hb'⟩
  by_cases hp : quarterSum a b = 0
  · exact ⟨_, addNear_zero hp, sums_cancel hle ha hslip hp⟩
  rcases hrange with hzero | hrange
  · exact absurd (quarterSum_zero hle hslip hzero) hp
  · exact near_sums hle ha hslip hrange hp

/-! ### A carry that slips -/

/-- The operand `b`, which is counted with the wrong sign, is lost anyway. -/
def Lost (a b : TempReal) : Prop :=
  let shift := a.exp - b.exp
  let m := a.mantissa.toNat
  let m' := b.mantissa.toNat
  62 ≤ shift ∨
    shift = 61 ∧ a.neg = b.neg ∧ 2 ^ 61 * (m % 4 + 4) + m' ≤ 2 * m ∨
    shift = 61 ∧ a.neg ≠ b.neg ∧ m < 2 ^ 64 - 4 ∧ 2 ^ 61 * (4 - m % 4) + m' ≤ 2 * m ∨
    shift = 60 ∧ a.neg ≠ b.neg ∧ m < 2 ^ 64 - 8 ∧ 2 ^ 60 * (8 - m % 4) + m' ≤ m

section

variable {A B ra rb D s m m' : ℕ}

/-- The mantissas of `a` and `b`, `s` bits apart, by what is kept of them and what is lost. -/
structure Apart (s m m' A B ra rb D : ℕ) : Prop where
  scale : D = 2 ^ s
  mantissa : m = 4 * A + ra
  rest : ra < 4
  low : m' = 4 * (B * D) + rb
  lowRest : rb < 4 * D
  bounds : 2 ^ 63 ≤ m ∧ m < 2 ^ 64
  lowBounds : 2 ^ 63 ≤ m' ∧ m' < 2 ^ 64
  shift : 1 ≤ s ∧ s < 64

theorem Apart.cases (h : Apart s m m' A B ra rb D) : s ≤ 59 ∧ D ≤ 2 ^ 59 ∨ s = 60 ∧ D = 2 ^ 60 ∨
    s = 61 ∧ D = 2 ^ 61 ∨ s = 62 ∧ D = 2 ^ 62 ∨ s = 63 ∧ D = 2 ^ 63 := by
  have hshift := h.shift
  obtain hs | rfl | rfl | rfl | rfl : s ≤ 59 ∨ s = 60 ∨ s = 61 ∨ s = 62 ∨ s = 63 := by omega
  · exact .inl ⟨hs, h.scale ▸ Nat.pow_le_pow_right (by decide) hs⟩
  · exact .inr (.inl ⟨rfl, h.scale⟩)
  · exact .inr (.inr (.inl ⟨rfl, h.scale⟩))
  · exact .inr (.inr (.inr (.inl ⟨rfl, h.scale⟩)))
  · exact .inr (.inr (.inr (.inr ⟨rfl, h.scale⟩)))

theorem Apart.upper (h : Apart s m m' A B ra rb D) : 4 * (A * D) + ra * D < 2 ^ 64 * D := by
  have hpos : 0 < D := h.scale ▸ Nat.two_pow_pos s
  rw [← Nat.mul_assoc, ← Nat.add_mul, ← h.mantissa]
  exact Nat.mul_lt_mul_of_pos_right h.bounds.2 hpos

/-- The error when `b` is taken away instead of added. -/
theorem Apart.same (h : Apart s m m' A B ra rb D) :
    A - B < 2 ^ 62 ∧ (ra * D + 8 * (B * D) + rb) * 2 ^ 60 ≤ 4 * (A * D) + ra * D ↔
      62 ≤ s ∨ s = 61 ∧ 2 ^ 61 * (m % 4 + 4) + m' ≤ 2 * m := by
  have hA := h.mantissa
  have hra := h.rest
  have hB := h.low
  have hrb := h.lowRest
  have hm := h.bounds
  have hm' := h.lowBounds
  have hupper := h.upper
  have hmod : m % 4 = ra := by omega
  rw [hmod]
  rcases h.cases with ⟨hlow, hD⟩ | ⟨rfl, rfl⟩ | ⟨rfl, rfl⟩ | ⟨rfl, rfl⟩ | ⟨rfl, rfl⟩
  · refine iff_of_false (fun h => ?_) ?_ <;> omega
  · refine iff_of_false (fun h => ?_) ?_ <;> omega
  · obtain rfl : B = 1 := by omega
    omega
  · refine iff_of_true ?_ (.inl (by decide))
    omega
  · refine iff_of_true ?_ (.inl (by decide))
    omega

/-- The error when `b` is added instead of taken away. -/
theorem Apart.opposite (h : Apart s m m' A B ra rb D) :
    A + B < 2 ^ 62 ∧ ((8 * (B * D) + rb : ℕ) - (ra * D : ℕ) : ℤ).natAbs * 2 ^ 60 ≤
        4 * (A * D) + ra * D ↔
      62 ≤ s ∨ s = 61 ∧ m < 2 ^ 64 - 4 ∧ 2 ^ 61 * (4 - m % 4) + m' ≤ 2 * m ∨
        s = 60 ∧ m < 2 ^ 64 - 8 ∧ 2 ^ 60 * (8 - m % 4) + m' ≤ m := by
  have hA := h.mantissa
  have hra := h.rest
  have hB := h.low
  have hrb := h.lowRest
  have hm := h.bounds
  have hm' := h.lowBounds
  have hupper := h.upper
  have hmod : m % 4 = ra := by omega
  have hraD : ra * D ≤ 3 * D := Nat.mul_le_mul_right D (by omega)
  rw [hmod]
  rcases h.cases with ⟨hlow, hD⟩ | ⟨rfl, rfl⟩ | ⟨rfl, rfl⟩ | ⟨rfl, rfl⟩ | ⟨rfl, rfl⟩
  · refine iff_of_false (fun h => ?_) ?_ <;> omega
  · obtain rfl | rfl : B = 2 ∨ B = 3 := by omega
    · omega
    · refine iff_of_false (fun h => ?_) ?_ <;> omega
  · obtain rfl : B = 1 := by omega
    omega
  · refine iff_of_true ?_ (.inl (by decide))
    omega
  · refine iff_of_true ?_ (.inl (by decide))
    omega

end

/-- The sum that is made when a carry slips: its size, and its error. -/
theorem slip_iff (ha : a.Normal) (hb : b.Normal) (hlt : b.exp < a.exp)
    (hfar : ¬ 64 ≤ a.exp - b.exp) (hslip : Slips a b = true) :
    (quarterSum a b).natAbs < 2 ^ 62 ∧
      (4 * quarterSum a b * 2 ^ (a.exp - b.exp) - exactSum a b).natAbs * 2 ^ 60 ≤
        max (a.mantissa.toNat * 2 ^ (a.exp - b.exp)) b.mantissa.toNat ↔ Lost a b := by
  obtain ⟨A, B, ra, rb, D, hD, hone, hA, hra, hB, hrb, hp, hq⟩ := mantissa_split a b
  have hma := a.mantissa.isLt
  have hmb := b.mantissa.isLt
  have h : Apart (a.exp - b.exp) a.mantissa.toNat b.mantissa.toNat A B ra rb D :=
    ⟨hD, hA, hra, hB, hrb, ⟨ha.mantissa, hma⟩, ⟨hb.mantissa, hmb⟩, by omega, by omega⟩
  have hcast : (2 : ℤ) ^ (a.exp - b.exp) = D := by
    rw [hD]
    push_cast
    rfl
  have htwo : 2 ≤ D := by
    rw [hD]
    exact Nat.pow_le_pow_right (show 0 < 2 by decide) (show 1 ≤ a.exp - b.exp by omega)
  have hscaled : 2 ^ 63 * 2 ≤ a.mantissa.toNat * D := Nat.mul_le_mul ha.mantissa htwo
  have hmax : max (a.mantissa.toNat * 2 ^ (a.exp - b.exp)) b.mantissa.toNat =
      4 * (A * D) + ra * D := by
    rw [← hD, max_eq_left (by omega), hA, Nat.add_mul, Nat.mul_assoc]
  rw [hmax, hcast, hq, hp, hslip, Bool.xor_true, Lost]
  by_cases hneg : a.neg = b.neg
  · have hless : B ≤ A := by
      have hBD : B * 2 ≤ B * D := Nat.mul_le_mul_left B htwo
      have hma' := ha.mantissa
      omega
    have hdiff : (4 * ((A : ℤ) - B) * D - ((4 * (A * D) + ra * D : ℕ) +
        (4 * (B * D) + rb : ℕ))).natAbs = ra * D + 8 * (B * D) + rb := by
      rw [Int.mul_assoc, Int.sub_mul, ← Int.natCast_mul, ← Int.natCast_mul]
      omega
    have hsum : ((A : ℤ) - B).natAbs = A - B := by omega
    simp only [hneg, relative, Bool.xor_self, Bool.not_false, Bool.false_eq_true, if_true,
      if_false, hdiff, hsum, h.same, ne_eq, not_true_eq_false, false_and, and_false, true_and,
      or_false]
  · have hxor : (a.neg ^^ b.neg) = true := by
      cases ha : a.neg <;> cases hb : b.neg <;> simp_all
    have hdiff : 4 * ((A : ℤ) + B) * D - ((4 * (A * D) + ra * D : ℕ) -
        (4 * (B * D) + rb : ℕ)) = (8 * (B * D) + rb : ℕ) - (ra * D : ℕ) := by
      rw [Int.mul_assoc, Int.add_mul, ← Int.natCast_mul, ← Int.natCast_mul]
      omega
    have hsum : ((A : ℤ) + B).natAbs = A + B := by omega
    simp only [hxor, hneg, relative, Bool.not_true, Bool.false_eq_true, if_true, if_false, hdiff,
      hsum, h.opposite, ne_eq, not_false_eq_true, false_and, and_false, true_and, false_or]

theorem slips_iff (hle : b.exp ≤ a.exp) (ha : a.Normal) :
    Slips a b = true ↔ a.exp = 0x7ffe ∧ b.exp ≠ 0x7ffe := by
  have hfinite := ha.finite
  rw [Slips, Carries, Carries]
  by_cases hb : 0x7ffe ≤ b.exp
  · have hcarry : 0x7ffe ≤ a.exp := by omega
    simp only [hb, hcarry, decide_true, Bool.xor_self, Bool.false_eq_true, false_iff]
    omega
  · simp only [hb, decide_false, Bool.xor_false, decide_eq_true_eq]
    omega

/-- Sum and exact sum have the sign of `a`. -/
theorem slip_pos (ha : a.Normal) (hlt : b.exp < a.exp) :
    0 < quarterSum a b ∧ 0 < exactSum a b := by
  obtain ⟨A, B, ra, rb, D, hD, hone, hA, hra, hB, hrb, hp, hq⟩ := mantissa_split a b
  have hmb := b.mantissa.isLt
  have hma := ha.mantissa
  have htwo : 2 ≤ D := by
    rw [hD]
    exact Nat.pow_le_pow_right (show 0 < 2 by decide) (show 1 ≤ a.exp - b.exp by omega)
  have hBD : B * 2 ≤ B * D := Nat.mul_le_mul_left B htwo
  have hscaled : 2 ^ 63 * 2 ≤ a.mantissa.toNat * D := Nat.mul_le_mul hma htwo
  have hsplit : a.mantissa.toNat * D = 4 * (A * D) + ra * D := by
    rw [hA, Nat.add_mul, Nat.mul_assoc]
  rw [hp, hq, relative, relative]
  constructor <;> split <;> omega

/-- With a slip, the sum is right if what is counted with the wrong sign is lost. -/
theorem sums_of_slip (hle : b.exp ≤ a.exp) (ha : a.Normal) (hb : Operand b)
    (hfar : ¬ 64 ≤ a.exp - b.exp) (hslip : Slips a b = true) :
    (∃ r, addNear a b = some r ∧ Sums a b r) ↔ Lost a b := by
  obtain ⟨htop, hne⟩ := (slips_iff hle ha).mp hslip
  have hlt : b.exp < a.exp := by omega
  have hb' : b.Normal := hb.resolve_right fun hzero => by
    have hexp := hzero.exp
    omega
  obtain ⟨hp, hq⟩ := slip_pos ha hlt
  obtain ⟨r, k, hr, h⟩ := addNear_spec ha.finite hp.ne'
  have hbounds := h.bounds
  have hexp := h.exp (by omega)
  have hvalue := h.value hle (by omega)
  have hmsb := h.msb
  have hrlt := r.mantissa.isLt
  rw [h.mantissa] at hmsb hrlt
  rw [← slip_iff ha hb' hlt hfar hslip]
  constructor
  · rintro ⟨r', hr', hs⟩
    obtain rfl := Option.some.inj (hr.symm.trans hr')
    have hnormal : r.Normal := hs.operand.resolve_right fun hzero => by
      have hmant := h.msb
      rw [hzero.mantissa] at hmant
      exact absurd hmant (by decide)
    have hfinite := hnormal.finite
    have hfour : 2 ^ 2 ≤ 2 ^ k := Nat.pow_le_pow_right (by decide) (by omega)
    have hless := Nat.mul_le_mul_left (quarterSum a b).natAbs hfour
    exact ⟨by omega, (error_iff hle hvalue).mp hs.error⟩
  · rintro ⟨hsmall, herror⟩
    have htwo : 2 ≤ k := by
      by_contra hk
      obtain rfl : k = 1 := by omega
      omega
    refine ⟨r, hr, .inl ⟨h.msb, by omega, by omega⟩, (error_iff hle hvalue).mpr herror,
      fun _ => (sign_iff hle hvalue).mpr (mul_pos (by positivity) hq)⟩

/-! ### The operands in either order -/

/-- What an addition is meant to do: it ends, with the result, in either order. -/
def AddsUp (x y : TempReal) : Prop :=
  ∃ r, fadd x y = some r ∧ fadd y x = some r ∧ Sums x y r

theorem addNear_comm (h : a.exp = b.exp) : addNear a b = addNear b a := by
  have hexponent : (signify a).exponent = (signify b).exponent := by
    refine BitVec.eq_of_toNat_eq ?_
    rw [(signify_spec a).2, (signify_spec b).2, h]
  rw [addNear, addNear, h, Nat.sub_self, BitVec.ushiftRight_zero, BitVec.ushiftRight_zero,
    BitVec.add_comm, hexponent]

theorem fadd_ordered (hle : b.exp ≤ a.exp) :
    fadd a b = (if 64 ≤ a.exp - b.exp then some a else addNear a b) ∧ fadd b a = fadd a b := by
  rw [fadd_of_le b a hle]
  rcases Nat.lt_or_eq_of_le hle with hlt | heq
  · exact ⟨fadd_of_lt a b hlt, (fadd_of_lt a b hlt).symm⟩
  · have hnear : ¬ 64 ≤ a.exp - b.exp := by omega
    rw [fadd_of_le a b heq.ge, if_neg hnear, if_neg (by omega), addNear_comm heq]
    exact ⟨rfl, rfl⟩

theorem Sums.symm (h : Sums x y r) : Sums y x r := by
  obtain ⟨hoperand, herror, hsign⟩ := h
  rw [add_comm] at herror hsign
  rw [max_comm] at herror
  exact ⟨hoperand, herror, hsign⟩

theorem AddsUp.symm (h : AddsUp x y) : AddsUp y x := by
  obtain ⟨r, hr, hr', hs⟩ := h
  exact ⟨r, hr', hr, Sums.symm x y hs⟩

/-- No carry, or two, or one that is lost; `a` is the operand with the larger exponent. -/
def Safe (x y : TempReal) : Prop :=
  let (a, b) := if y.exp < x.exp then (x, y) else (y, x)
  a.exp ≠ 0x7ffe ∨ b.exp = 0x7ffe ∨ Lost a b

theorem addsUp_ordered (hle : b.exp ≤ a.exp) (ha : Operand a) (hb : Operand b)
    (hrange : a.value + b.value = 0 ∨ InRange (a.value + b.value)) :
    AddsUp a b ↔ a.exp ≠ 0x7ffe ∨ b.exp = 0x7ffe ∨ Lost a b := by
  obtain ⟨hfadd, hcomm⟩ := fadd_ordered hle
  have hiff : AddsUp a b ↔ ∃ r, fadd a b = some r ∧ Sums a b r := by
    rw [AddsUp, hcomm]
    simp only [← and_assoc, and_self]
  rw [hiff, hfadd]
  by_cases hfar : 64 ≤ a.exp - b.exp
  · have ha' : a.Normal := ha.resolve_right fun hzero => by
      have hexp := hzero.exp
      omega
    simp only [if_pos hfar]
    exact iff_of_true ⟨a, rfl, far_sums hle ha' hfar⟩ (.inr (.inr (.inl (by omega))))
  simp only [if_neg hfar]
  rcases ha with ha | ha
  · by_cases hslip : Slips a b = true
    · obtain ⟨htop, hne⟩ := (slips_iff hle ha).mp hslip
      rw [sums_of_slip hle ha hb hfar hslip]
      simp only [htop, hne, ne_eq, not_true_eq_false, false_or]
    · have hsafe := mt (slips_iff hle ha).mpr hslip
      refine iff_of_true (sums_of_ordered hle (.inl ha) hb (Bool.not_eq_true _ ▸ hslip) hrange) ?_
      by_cases htop : a.exp = 0x7ffe
      · exact .inr (.inl (not_not.mp fun hne => hsafe ⟨htop, hne⟩))
      · exact .inl htop
  · have hb' := zero_of_zero hle ha hb
    have hslip : Slips a b = false := by
      rw [Slips, Carries, Carries, ha.exp, hb'.exp, Bool.xor_self]
    refine iff_of_true (sums_of_ordered hle (.inr ha) hb hslip hrange) (.inl ?_)
    rw [ha.exp]
    decide

/-- **Sums**: as long as the sum is zero or normal, it is normalized or zero, not farther from the
exact one than 2⁻⁶⁰ of the larger operand, of its sign, and the same in either order, if and only
if no carry slips from an exponent into a sign. -/
theorem addition (x y : TempReal) (hx : Operand x) (hy : Operand y)
    (hrange : x.value + y.value = 0 ∨ InRange (x.value + y.value)) : AddsUp x y ↔ Safe x y := by
  rw [Safe]
  by_cases hlt : y.exp < x.exp
  · rw [if_pos hlt]
    exact addsUp_ordered hlt.le hx hy hrange
  · rw [if_neg hlt]
    rw [add_comm] at hrange
    exact ⟨fun h => (addsUp_ordered (Nat.le_of_not_lt hlt) hy hx hrange).mp (AddsUp.symm x y h),
      fun h => AddsUp.symm y x
        ((addsUp_ordered (Nat.le_of_not_lt hlt) hy hx hrange).mpr h)⟩

theorem inRange_of {v : ℚ} {q k : ℕ} {e : ℤ} (hv : |v| = q * 2 ^ e) (hq : 1 ≤ q) (hk : q < 2 ^ k)
    (hlow : -16382 ≤ e) (hhigh : k + e ≤ 16384) : InRange v := by
  have hpos : (0 : ℚ) < 2 ^ e := zpow_pos (by norm_num) _
  have hq' : (1 : ℚ) ≤ q := by exact_mod_cast hq
  have hk' : (q : ℚ) < 2 ^ k := by exact_mod_cast hk
  rw [InRange, hv]
  constructor
  · calc (2 : ℚ) ^ (-16382 : ℤ) ≤ 2 ^ e := zpow_le_zpow_right₀ (by norm_num) hlow
      _ ≤ q * 2 ^ e := le_mul_of_one_le_left hpos.le hq'
  · calc (q : ℚ) * 2 ^ e < 2 ^ k * 2 ^ e := mul_lt_mul_of_pos_right hk' hpos
      _ = 2 ^ (k + e) := by rw [← zpow_natCast, ← zpow_add₀ two_ne_zero]
      _ ≤ 2 ^ (16384 : ℤ) := zpow_le_zpow_right₀ (by norm_num) hhigh

def one : TempReal := ⟨0x8000000000000000, 0x3fff⟩

theorem addition_one : AddsUp one one := by
  have hone : Operand one := .inl ⟨by decide, by decide, by decide⟩
  have hsum : |one.value + one.value| = (2 ^ 64 : ℕ) * 2 ^ (-63 : ℤ) := abs_sum (Nat.le_refl _)
  have hrange : InRange (one.value + one.value) :=
    inRange_of (k := 65) hsum (by decide) (by decide) (by decide) (by decide)
  exact (addition one one hone hone (.inr hrange)).mpr (.inl (by decide))

/-- 2¹⁶³⁸³ and 2¹⁶³⁸². -/
def large : TempReal := ⟨0x8000000000000000, 0x7ffe⟩
def half : TempReal := ⟨0x8000000000000000, 0x7ffd⟩

/-- The difference comes out instead of the sum. -/
theorem addition_slips : Operand large ∧ Operand half ∧ InRange (large.value + half.value) ∧
    fadd large half = some half ∧ ¬ AddsUp large half := by
  have hlarge : Operand large := .inl ⟨by decide, by decide, by decide⟩
  have hhalf : Operand half := .inl ⟨by decide, by decide, by decide⟩
  have hle : half.exp ≤ large.exp := by decide
  have hsum : |large.value + half.value| = (3 * 2 ^ 63 : ℕ) * 2 ^ (16319 : ℤ) := abs_sum hle
  have hrange : InRange (large.value + half.value) :=
    inRange_of (k := 65) hsum (by decide) (by decide) (by decide) (by decide)
  refine ⟨hlarge, hhalf, hrange, by decide, ?_⟩
  rw [addsUp_ordered hle hlarge hhalf (.inr hrange), Lost]
  decide

end MathEmu
