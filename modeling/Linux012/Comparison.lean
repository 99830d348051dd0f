/-
Comparisons of temporary reals that have been loaded (`fcom` and `ftst` of kernel/math/compare.c).

* `condition` — the condition bits for the order of two numbers;
* `TempReal.blurred` — a number without the two lowest bits of its mantissa;
* `Moderate` — zeros, and normalized numbers far from the ends of the exponents: what is loaded;
* `fcom_moderate` — `fcom` compares the blurred numbers;
* `Source.load`, `sharp_of_load` — the formats, and which numbers are not changed;
* `comparison` — comparisons are exact but for odd 64-bit integers above 2^62, and blurred there.
-/
import Linux012.Addition
import Linux012.GetPut

open Rounding Words

namespace MathEmu

/-- C0 alone when `x` is less than `y`, C3 alone when they are equal, else none. -/
def condition (x y : ℚ) (swd : BitVec 32) : BitVec 32 :=
  (swd &&& ~~~0x4500) ||| if x < y then 0x0100 else if x = y then 0x4000 else 0

/-- The number that `fadd` takes it for. -/
def TempReal.blurred (t : TempReal) : TempReal := { t with mantissa := (t.mantissa >>> 2) <<< 2 }

/-- No addition runs over the ends of the exponents. -/
structure Moderate (t : TempReal) : Prop where
  operand : Operand t
  low : t.mantissa ≠ 0 → 64 ≤ t.exp
  high : t.exp < 0x7ffe

variable {t a b r : TempReal} {swd : BitVec 32}

/-! ### A test against zero -/

theorem ftst_zero (h : t.mantissa = 0) : ftst t swd = (swd &&& ~~~0x4500) ||| 0x4000 := by
  rw [ftst, normalize, if_pos h]
  rfl

theorem ftst_normal (hm : 2 ^ 63 ≤ t.mantissa.toNat) (he : 1 ≤ t.exp) : ftst t swd =
    if t.neg then (swd &&& ~~~0x4500) ||| 0x0100 else swd &&& ~~~0x4500 := by
  have hne : ¬ t.mantissa = 0 := by
    intro h
    rw [h] at hm
    exact absurd hm (by decide)
  have hmsb : t.mantissa.msb = true := by
    rw [BitVec.msb_eq_decide, decide_eq_true_iff]
    exact hm
  have hloop : normalizeLoop t.exp t.mantissa = (t.exp, t.mantissa) := by
    obtain ⟨e, hexp⟩ := Nat.exists_eq_add_of_le' he
    rw [hexp, normalizeLoop, if_pos hmsb]
  have hlt := exp_lt t
  have hsign : (BitVec.ofNat 16 t.exp ||| (t.exponent &&& 0x8000)).msb = t.neg := by
    have hfalse : (BitVec.ofNat 16 t.exp).msb = false := by
      rw [BitVec.msb_eq_decide, BitVec.toNat_ofNat, decide_eq_false_iff_not]
      omega
    have htrue : (0x8000 : BitVec 16).msb = true := rfl
    rw [BitVec.msb_or, BitVec.msb_and, hfalse, htrue, Bool.and_true, Bool.false_or]
    rfl
  rw [ftst, normalize, if_neg hne, hloop]
  dsimp only
  rw [if_pos (.inl hne), hsign]

theorem value_neg_iff (h : t.Normal) : t.value < 0 ↔ t.neg = true := by
  have hpos : (0 : ℚ) < t.mantissa.toNat * t.unit := by
    refine mul_pos ?_ (unit_pos t)
    exact_mod_cast Nat.lt_of_lt_of_le (Nat.two_pow_pos 63) h.mantissa
  rw [TempReal.value, ← TempReal.unit]
  cases t.neg with
  | false => simp [signed, hpos.le]
  | true => simp [signed, hpos]

theorem ftst_exact (h : Operand t) : ftst t swd = condition t.value 0 swd := by
  rw [condition]
  rcases h with h | h
  · rw [ftst_normal h.mantissa h.pos, if_congr (value_neg_iff h) rfl rfl,
      if_neg (value_ne_zero h)]
    split
    case isTrue => rfl
    case isFalse => exact BitVec.or_zero.symm
  · rw [ftst_zero h.mantissa, zero_value h, if_neg (lt_irrefl _), if_pos rfl]

/-! ### The comparison -/

@[simp] theorem blurred_exp : t.blurred.exp = t.exp := rfl

@[simp] theorem blurred_neg : t.blurred.neg = t.neg := rfl

theorem blurred_mantissa : t.blurred.mantissa.toNat = t.mantissa.toNat / 4 * 4 := by
  have hlt := t.mantissa.isLt
  change (t.mantissa >>> 2 <<< 2).toNat = _
  rw [BitVec.toNat_shiftLeft, BitVec.toNat_ushiftRight, Nat.shiftRight_eq_div_pow, Nat.shiftLeft_eq]
  omega

/-- A larger mantissa decides, and so does a positive one. -/
theorem relative_pos {m n : ℕ} (h : n < m) (neg : Bool) : 0 < relative neg m n := by
  rw [relative]
  split <;> omega

theorem relative_scale (neg : Bool) (m n d : ℕ) :
    relative neg (m * d) (n * d) = relative neg m n * d := by
  rw [relative, relative]
  split <;> push_cast <;> ring

/-- What is left of the mantissas has the order of the blurred numbers. -/
theorem sign_blurred (hle : b.exp ≤ a.exp) (ha : a.Normal) (hslip : Slips a b = false) :
    (quarterSum a b).sign = (exactSum a.blurred b.blurred).sign := by
  have hma := ha.mantissa
  have hmb := b.mantissa.isLt
  rw [quarterSum, hslip, Bool.xor_false, exactSum, blurred_mantissa, blurred_mantissa]
  simp only [blurred_exp, blurred_neg]
  rcases Nat.lt_or_eq_of_le hle with hlt | heq
  · -- the uppermost bit of `a` is above all of `b`
    have htwo : 2 ^ 1 ≤ 2 ^ (a.exp - b.exp) := Nat.pow_le_pow_right (by decide) (by omega)
    have hsmall : b.mantissa.toNat / 2 ^ (a.exp - b.exp + 2) < a.mantissa.toNat / 4 := by
      have height : 2 ^ 3 ≤ 2 ^ (a.exp - b.exp + 2) := Nat.pow_le_pow_right (by decide) (by omega)
      have hdiv := Nat.div_le_div_left (a := b.mantissa.toNat) height (by decide)
      omega
    have hlarge := Nat.mul_le_mul_left (a.mantissa.toNat / 4 * 4) htwo
    rw [Int.sign_eq_one_of_pos (relative_pos hsmall _),
      Int.sign_eq_one_of_pos (by exact_mod_cast relative_pos (by omega) _)]
  · have hscale := relative_scale (a.neg ^^ b.neg) (a.mantissa.toNat / 4) (b.mantissa.toNat / 4) 4
    have hfour : Int.sign ((4 : ℕ) : ℤ) = 1 := rfl
    rw [heq, Nat.sub_self, Nat.pow_zero, Nat.mul_one, hscale, Int.sign_mul, hfour, mul_one]
    rfl

theorem condition_signed (neg : Bool) (v : ℚ) : condition (signed neg v) 0 swd =
    (swd &&& ~~~0x4500) |||
      if v = 0 then 0x4000 else if (neg ^^ decide (v < 0)) then 0x0100 else 0 := by
  rw [condition, signed]
  rcases lt_trichotomy v 0 with hneg | rfl | hpos
  · cases neg <;> simp [hneg, hneg.ne, hneg.not_gt]
  · cases neg <;> simp
  · cases neg <;> simp [hpos, hpos.ne', hpos.not_gt]

/-- The condition bits by a number that has the sign of the exact sum. -/
theorem condition_sum (hle : b.exp ≤ a.exp) {n : ℤ}
    (hn : n.sign = (exactSum a.blurred b.blurred).sign) :
    condition (a.blurred.value + b.blurred.value) 0 swd = (swd &&& ~~~0x4500) |||
      if n = 0 then 0x4000 else if (a.neg ^^ decide (n < 0)) then 0x0100 else 0 := by
  have hunit := unit_pos b.blurred
  rw [sum_value (a := a.blurred) (b := b.blurred) hle, condition_signed, blurred_neg]
  obtain ⟨e, he⟩ : ∃ e, exactSum a.blurred b.blurred = e := ⟨_, rfl⟩
  rw [he] at hn ⊢
  have hzero : (e : ℚ) * b.blurred.unit = 0 ↔ n = 0 := by
    rw [mul_eq_zero_iff_right hunit.ne', Int.cast_eq_zero, ← Int.sign_eq_zero_iff_zero, ← hn,
      Int.sign_eq_zero_iff_zero]
  have hneg : (e : ℚ) * b.blurred.unit < 0 ↔ n < 0 := by
    rw [← neg_pos, ← neg_mul, mul_pos_iff_of_pos_right hunit, neg_pos, Int.cast_lt_zero,
      ← Int.sign_eq_neg_one_iff_neg, ← hn, Int.sign_eq_neg_one_iff_neg]
  simp only [hzero, hneg]

/-- With no carry, and far from the ends of the exponents, no sum loses its sign. -/
theorem Summed.shown {n : ℤ} {k : ℕ} (h : Summed a r n k) (hlow : 64 ≤ a.exp) (hne : n ≠ 0) :
    ftst r swd = (swd &&& ~~~0x4500) |||
      if n = 0 then 0x4000 else if (a.neg ^^ decide (n < 0)) then 0x0100 else 0 := by
  obtain ⟨-, hk⟩ := h.bounds
  have hexp := h.exp (by omega)
  have hneg := h.neg (by omega)
  rw [ftst_normal h.msb (by omega), hneg, if_neg hne]
  split
  case isTrue => rfl
  case isFalse => exact BitVec.or_zero.symm

theorem Moderate.slips (ha : Moderate a) (hb : Moderate b) : Slips a b = false := by
  rw [Slips, Carries, Carries, decide_eq_false (Nat.not_le.mpr ha.high),
    decide_eq_false (Nat.not_le.mpr hb.high), Bool.xor_self]

/-- A number far above another one decides. -/
theorem quarterSum_far (ha : a.Normal) (hfar : 64 ≤ a.exp - b.exp) : 0 < quarterSum a b := by
  have hma := ha.mantissa
  have hmb := b.mantissa.isLt
  have hlarge : 2 ^ 64 ≤ 2 ^ (a.exp - b.exp + 2) := Nat.pow_le_pow_right (by decide) (by omega)
  rw [quarterSum, Nat.div_eq_of_lt (hmb.trans_le hlarge)]
  exact relative_pos (by omega) _

/-- `fadd` gives a number with the sign of the sum of the blurred numbers. -/
theorem ftst_fadd (swd : BitVec 32) (hle : b.exp ≤ a.exp) (ha : Moderate a) (hb : Moderate b) :
    ∃ r, fadd a b = some r ∧ ftst r swd = condition (a.blurred.value + b.blurred.value) 0 swd := by
  obtain ⟨hfadd, -⟩ := fadd_ordered hle
  rw [hfadd]
  rcases ha.operand with hnormal | hzero
  · rw [condition_sum hle (sign_blurred hle hnormal (ha.slips hb))]
    split
    case isTrue hfar =>
      have hpos := quarterSum_far hnormal hfar
      refine ⟨a, rfl, ?_⟩
      rw [ftst_normal hnormal.mantissa hnormal.pos, if_neg hpos.ne',
        decide_eq_false (Int.not_lt.mpr hpos.le), Bool.xor_false]
      split
      case isTrue => rfl
      case isFalse => exact BitVec.or_zero.symm
    case isFalse =>
      by_cases hp : quarterSum a b = 0
      · refine ⟨_, addNear_zero hp, ?_⟩
        rw [if_pos hp]
        exact ftst_zero rfl
      · obtain ⟨r, k, hr, h⟩ := addNear_spec hnormal.finite hp
        exact ⟨r, hr, h.shown (ha.low hnormal.ne_zero) hp⟩
  · have hzero' := zero_of_zero hle hzero hb.operand
    have hblurred : ∀ {t : TempReal}, t.Zero → t.blurred.value = 0 := by
      intro t ht
      refine zero_value ⟨?_, ht.exp⟩
      rw [TempReal.blurred, ht.mantissa]
      rfl
    have hp : quarterSum a b = 0 := by
      rw [quarterSum, hzero.mantissa, hzero'.mantissa]
      simp [relative]
    refine ⟨⟨0, 0⟩, ?_, ?_⟩
    · rw [if_neg (by rw [hzero.exp]; omega), addNear_zero hp]
    · rw [ftst_zero rfl, hblurred hzero, hblurred hzero', condition]
      simp

theorem negate_exp : t.negate.exp = t.exp := by
  have hlow : (0x8000 : BitVec 16).toNat &&& (0x7fff : BitVec 16).toNat = 0 := by decide
  rw [TempReal.exp, TempReal.exp, TempReal.negate, BitVec.toNat_and, BitVec.toNat_xor,
    Nat.and_xor_distrib_right, hlow, Nat.xor_zero, BitVec.toNat_and]

theorem negate_neg : t.negate.neg = !t.neg := by
  have hmsb : (0x8000 : BitVec 16).msb = true := rfl
  rw [TempReal.neg, TempReal.negate, BitVec.msb_xor, hmsb, Bool.xor_true, TempReal.neg]

theorem negate_value : t.negate.value = -t.value := by
  rw [TempReal.value, TempReal.value, negate_exp, negate_neg]
  cases t.neg <;> simp [signed, TempReal.negate]

theorem Moderate.negate (h : Moderate t) : Moderate t.negate := by
  refine ⟨?_, ?_, ?_⟩
  · refine h.operand.imp (fun hn => ⟨hn.mantissa, ?_, ?_⟩) fun hz => ⟨hz.mantissa, ?_⟩ <;>
      rw [negate_exp]
    exacts [hn.pos, hn.finite, hz.exp]
  · rw [negate_exp]
    exact h.low
  · rw [negate_exp]
    exact h.high

/-- **Comparison** of numbers that are far from the ends of the exponents. -/
theorem fcom_moderate (ha : Moderate a) (hb : Moderate b) :
    fcom a b swd = some (condition b.blurred.value a.blurred.value swd) := by
  have hcondition : condition (b.blurred.value - a.blurred.value) 0 swd =
      condition b.blurred.value a.blurred.value swd := by
    rw [condition, condition]
    simp only [sub_neg, sub_eq_zero]
  have hnegate : a.negate.blurred.value = -a.blurred.value := negate_value (t := a.blurred)
  rw [fcom, ← hcondition, sub_eq_add_neg, ← hnegate]
  rcases Nat.le_total b.exp a.negate.exp with hle | hle
  · obtain ⟨r, hr, htest⟩ := ftst_fadd swd hle ha.negate hb
    rw [hr, Option.map_some, htest, add_comm]
  · obtain ⟨r, hr, htest⟩ := ftst_fadd swd hle hb ha.negate
    rw [(fadd_ordered hle).2, hr, Option.map_some, htest]

/-! ### What is loaded -/

/-- The operands in memory. -/
inductive Source where
  | shortReal
  | longReal
  | shortInt
  | longInt
  | longlongInt
  | bcd

def Source.load (m : Memory) (addr : Addr) : Source → Option TempReal
  | .shortReal => some (getShortReal m addr)
  | .longReal => some (getLongReal m addr)
  | .shortInt => getShortInt m addr
  | .longInt => getLongInt m addr
  | .longlongInt => getLonglongInt m addr
  | .bcd => getBCD m addr

/-- An odd 64-bit integer of more than 62 bits. -/
def Source.Coarse (m : Memory) (addr : Addr) (s : Source) : Prop :=
  let n := (getFsLonglong m addr).toInt
  s = .longlongInt ∧ n % 2 = 1 ∧ 2 ^ 62 < n.natAbs

/-- All of the mantissa is compared. -/
theorem blurred_of_multiple (h : t.mantissa.toNat % 4 = 0) : t.blurred = t := by
  have hmantissa : t.blurred.mantissa = t.mantissa := by
    refine BitVec.eq_of_toNat_eq ?_
    rw [blurred_mantissa]
    omega
  rw [TempReal.blurred] at hmantissa ⊢
  dsimp only at hmantissa
  rw [hmantissa]

theorem moderate_of (hm : 2 ^ 63 ≤ t.mantissa.toNat) (hlow : 64 ≤ t.exp) (hhigh : t.exp < 0x7ffe) :
    Moderate t :=
  ⟨.inl ⟨hm, by omega, by omega⟩, fun _ => hlow, hhigh⟩

theorem moderate_zero (hm : t.mantissa = 0) (he : t.exp = 0) : Moderate t :=
  ⟨.inr ⟨hm, he⟩, fun hne => absurd hm hne, by rw [he]; decide⟩

theorem shortToTemp_moderate (s : BitVec 32) :
    Moderate (shortToTemp s) ∧ (shortToTemp s).blurred = shortToTemp s := by
  by_cases h : s.toNat % 2 ^ 31 = 0
  · have hmask : s &&& 0x7fffffff = 0 := BitVec.eq_of_toNat_eq ((mask_toNat s _ 31 rfl).trans h)
    rw [shortToTemp, if_pos hmask]
    refine ⟨moderate_zero rfl ?_, blurred_of_multiple rfl⟩
    split <;> rfl
  · obtain ⟨hexp, -, hm⟩ := shortToTemp_spec s h
    exact ⟨moderate_of (by omega) (by omega) (by omega), blurred_of_multiple (by omega)⟩

theorem longToTemp_moderate (d : LongReal) :
    Moderate (longToTemp d) ∧ (longToTemp d).blurred = longToTemp d := by
  by_cases h : d.bits.toNat % 2 ^ 63 = 0
  · have hbits : d.bits.toNat = d.b.toNat * 2 ^ 32 + d.a.toNat := append_toNat d.b d.a
    have hb := d.b.isLt
    have ha := d.a.isLt
    have hlow : d.a = 0 := BitVec.eq_of_toNat_eq (show d.a.toNat = 0 by omega)
    have hmask : d.b &&& 0x7fffffff = 0 := by
      refine BitVec.eq_of_toNat_eq ((mask_toNat d.b _ 31 rfl).trans ?_)
      change _ = 0
      omega
    rw [longToTemp, if_pos ⟨hlow, hmask⟩]
    refine ⟨moderate_zero rfl ?_, blurred_of_multiple rfl⟩
    split <;> rfl
  · obtain ⟨hexp, -, hm⟩ := longToTemp_spec d h
    exact ⟨moderate_of (by omega) (by omega) (by omega), blurred_of_multiple (by omega)⟩

/-- An integer that takes up the whole mantissa, or all but one bit, which is set. -/
def TempInt.Coarse (i : TempInt) : Prop := i.magnitude.toNat % 2 = 1 ∧ 2 ^ 62 < i.magnitude.toNat

theorem Loaded.multiple {i : TempInt} {k : ℕ} (h : Loaded i t k)
    (hmsb : 2 ^ 63 ≤ t.mantissa.toNat) (hsmall : i.magnitude.toNat ≤ 2 ^ 63) (hfine : ¬ i.Coarse) :
    t.mantissa.toNat % 4 = 0 := by
  have hmantissa := h.mantissa
  rw [TempInt.Coarse] at hfine
  match k with
  | 0 => omega
  | 1 => omega
  | k + 2 =>
    rw [hmantissa, Nat.pow_add, ← Nat.mul_assoc]
    exact Nat.mul_mod_left _ _

theorem Loaded.shift_eq {i : TempInt} {k : ℕ} (h : Loaded i t k)
    (hmsb : 2 ^ 63 ≤ t.mantissa.toNat) (hsmall : i.magnitude.toNat ≤ 2 ^ 63) (hcoarse : i.Coarse) :
    k = 1 := by
  have hmantissa := h.mantissa
  have hlt := t.mantissa.isLt
  rw [TempInt.Coarse] at hcoarse
  match k with
  | 0 => omega
  | 1 => rfl
  | k + 2 =>
    have hpos := Nat.two_pow_pos k
    have hle := Nat.le_mul_of_pos_right i.magnitude.toNat hpos
    rw [Nat.pow_add, ← Nat.mul_assoc] at hmantissa
    omega

/-- The mantissa of a loaded integer loses its last bit at most. -/
theorem intToReal_moderate (i : TempInt) (h : i.magnitude.toNat ≤ 2 ^ 63) :
    ∃ t, intToReal i = some t ∧ Moderate t ∧ (¬ i.Coarse → t.blurred = t) ∧
      (i.Coarse → t.blurred.value = t.value - signed t.neg 1) := by
  by_cases hzero : i.magnitude = 0
  · have hfine : ¬ i.Coarse := by
      rw [TempInt.Coarse, hzero]
      decide
    exact ⟨_, if_pos hzero, moderate_zero rfl rfl, fun _ => blurred_of_multiple rfl,
      fun hcoarse => absurd hcoarse hfine⟩
  · obtain ⟨t, k, ht, hloaded⟩ := intToReal_spec i hzero
    have hmsb : 2 ^ 63 ≤ t.mantissa.toNat := shiftUp_msb 64 ((if_neg hzero).symm.trans ht)
    have hexp := hloaded.exp
    have hsmall := hloaded.small
    refine ⟨t, ht, moderate_of hmsb (by omega) (by omega),
      fun hfine => blurred_of_multiple (hloaded.multiple hmsb h hfine), fun hcoarse => ?_⟩
    obtain rfl := hloaded.shift_eq hmsb h hcoarse
    have hmantissa := hloaded.mantissa
    have hlost : t.blurred.mantissa.toNat + 2 = t.mantissa.toNat := by
      rw [TempInt.Coarse] at hcoarse
      rw [blurred_mantissa]
      omega
    have hunit : (2 : ℚ) ^ ((t.exp : ℤ) - 16446) = 1 / 2 := by
      rw [hexp]
      norm_num
    rw [TempReal.value, TempReal.value, blurred_exp, blurred_neg, hunit, ← hlost]
    push_cast
    cases t.neg <;> simp only [signed] <;> ring_nf <;> simp

theorem fine_of_lt {i : TempInt} (h : i.magnitude.toNat < 2 ^ 62) : ¬ i.Coarse :=
  fun hcoarse => absurd hcoarse.2 (by omega)

theorem ofLong_lt (n : BitVec 32) : (TempInt.ofLong n).magnitude.toNat < 2 ^ 32 := by
  have hlt := (if n.msb then -n else n).isLt
  have hzero : (0 : BitVec 32).toNat = 0 := rfl
  refine (append_toNat _ _).trans_lt ?_
  rw [hzero]
  omega

/-- Whatever the digits are, they make no large number. -/
theorem getBCDLoop_lt (m : Memory) (k : ℕ) (addr : Addr) (i : BitVec 64)
    (h : (3 * i.toNat + 5) * 100 ^ k ≤ 5 * 10 ^ 18) :
    3 * (getBCDLoop m k addr i).toNat + 5 ≤ 5 * 10 ^ 18 := by
  induction k generalizing addr i with
  | zero => rwa [Nat.pow_zero, Nat.mul_one] at h
  | succ k ih =>
    have hpos : 0 < 100 ^ k := Nat.pow_pos (by decide)
    have hscale : (3 * (i.toNat * 100 + 165) + 5) * 100 ^ k =
        (3 * i.toNat + 5) * 100 ^ (k + 1) := by
      rw [Nat.pow_succ]
      ring
    have hsmall : 3 * (i.toNat * 100 + 165) + 5 ≤ 5 * 10 ^ 18 :=
      (Nat.le_mul_of_pos_right _ hpos).trans (hscale ▸ h)
    rw [getBCDLoop]
    refine ih _ _ ?_
    have hdigits : digits (getFsByte m addr) ≤ 165 := by
      have hlt := (getFsByte m addr).isLt
      rw [digits]
      omega
    rw [take_digits (by omega)]
    refine le_trans (Nat.mul_le_mul_right _ ?_) (hscale ▸ h)
    omega

/-- What is loaded is compared as it is, but for coarse integers, which lose their lowest bit. -/
theorem load_spec (s : Source) (m : Memory) (addr : Addr) :
    ∃ t, s.load m addr = some t ∧ Moderate t ∧ (¬ s.Coarse m addr → t.blurred = t) ∧
      (s.Coarse m addr → t.blurred.value = t.value - signed t.neg 1) := by
  have hfine : ∀ {i : TempInt}, i.magnitude.toNat < 2 ^ 62 → s ≠ .longlongInt →
      ∃ t, intToReal i = some t ∧ Moderate t ∧ (¬ s.Coarse m addr → t.blurred = t) ∧
        (s.Coarse m addr → t.blurred.value = t.value - signed t.neg 1) := by
    intro i hlt hs
    obtain ⟨t, ht, hmoderate, hsame, -⟩ := intToReal_moderate i (by omega)
    exact ⟨t, ht, hmoderate, fun _ => hsame (fine_of_lt hlt), fun hcoarse => absurd hcoarse.1 hs⟩
  cases s with
  | shortReal =>
    obtain ⟨hmoderate, hsame⟩ := shortToTemp_moderate (getFsLong m addr)
    exact ⟨_, rfl, hmoderate, fun _ => hsame, nofun⟩
  | longReal =>
    obtain ⟨hmoderate, hsame⟩ := longToTemp_moderate ⟨getFsLong m addr, getFsLong m (addr + 4)⟩
    exact ⟨_, rfl, hmoderate, fun _ => hsame, nofun⟩
  | shortInt => exact hfine ((ofLong_lt _).trans (by decide)) nofun
  | longInt => exact hfine ((ofLong_lt _).trans (by decide)) nofun
  | longlongInt =>
    obtain ⟨n, hn⟩ : ∃ n, n = getFsLonglong m addr := ⟨_, rfl⟩
    have hload : Source.longlongInt.load m addr =
        intToReal ⟨if n.msb then -n else n, n.msb⟩ := by
      rw [hn, BitVec.neg_eq_not_add]
      rfl
    have hmagnitude := magnitude_natAbs n
    have hbound := BitVec.toInt_lt (x := n)
    have hbound' := BitVec.le_toInt (x := n)
    obtain ⟨t, ht, hmoderate, hsame, hlost⟩ :=
      intToReal_moderate ⟨if n.msb then -n else n, n.msb⟩ (by rw [hmagnitude]; omega)
    have hiff : Source.longlongInt.Coarse m addr ↔
        (⟨if n.msb then -n else n, n.msb⟩ : TempInt).Coarse := by
      simp only [Source.Coarse, TempInt.Coarse, true_and, hmagnitude, ← hn]
      omega
    rw [hiff]
    exact ⟨t, hload.trans ht, hmoderate, hsame, hlost⟩
  | bcd =>
    have hloop := getBCDLoop_lt m 9 (addr + 9 - 1) 0 (by decide)
    exact hfine (i := ⟨getBCDLoop m 9 (addr + 9 - 1) 0, _⟩) (by dsimp only; omega) nofun

/-- **Comparisons** of loaded numbers are exact, but for coarse integers, which are taken for the
even ones next to them. -/
theorem comparison (s s' : Source) (m m' : Memory) (addr addr' : Addr) (swd : BitVec 32) :
    ∃ a b, s.load m addr = some a ∧ s'.load m' addr' = some b ∧
      ftst a swd = condition a.value 0 swd ∧
      fcom a b swd = some (condition b.blurred.value a.blurred.value swd) ∧
      (¬ s.Coarse m addr → a.blurred = a) ∧ (¬ s'.Coarse m' addr' → b.blurred = b) ∧
      (s.Coarse m addr → a.blurred.value = a.value - signed a.neg 1) ∧
      (s'.Coarse m' addr' → b.blurred.value = b.value - signed b.neg 1) := by
  obtain ⟨a, ha, hmoderate, hsame, hlost⟩ := load_spec s m addr
  obtain ⟨b, hb, hmoderate', hsame', hlost'⟩ := load_spec s' m' addr'
  exact ⟨a, b, ha, hb, ftst_exact hmoderate.operand, fcom_moderate hmoderate hmoderate', hsame,
    hsame', hlost, hlost'⟩

/-- 2⁶² + 1 and 2⁶². -/
def odd62 : Memory := fun addr => if addr = 0 then 1 else if addr = 7 ∨ addr = 15 then 0x40 else 0

/-- They are taken for the same. -/
theorem comparison_blurs : ∃ a b, Source.longlongInt.load odd62 0 = some a ∧
    Source.longlongInt.load odd62 8 = some b ∧ b.value < a.value ∧ fcom a b 0 = some 0x4000 ∧
    fcom a b 0 ≠ some (condition b.value a.value 0) := by
  have hlt : (⟨0x8000000000000000, 16445⟩ : TempReal).value <
      (⟨0x8000000000000002, 16445⟩ : TempReal).value := by
    have hexp : ((16445 : BitVec 16) &&& 0x7fff).toNat = 16445 := by decide
    have hneg : (16445 : BitVec 16).msb = false := by decide
    simp only [TempReal.value, TempReal.exp, TempReal.neg, hexp, hneg, signed]
    norm_num
    decide
  have hcom : fcom ⟨0x8000000000000002, 16445⟩ ⟨0x8000000000000000, 16445⟩ 0 = some 0x4000 := by
    decide +kernel
  refine ⟨⟨0x8000000000000002, 16445⟩, ⟨0x8000000000000000, 16445⟩, by decide +kernel,
    by decide +kernel, hlt, hcom, ?_⟩
  rw [hcom, condition, if_pos hlt]
  decide

end MathEmu
