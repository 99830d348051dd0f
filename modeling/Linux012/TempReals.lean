/-
Temporary reals, and what they are converted from and to (kernel/math/convert.c).

* `TempReal`, `LongReal`, `TempInt` — `temp_real`, `long_real` and `temp_int`;
* `shortToTemp`, `longToTemp`, `tempToShort`, `tempToLong`, `realToInt`, `intToReal` — the
  conversions, in the rounding modes of the control word;
* `tempToShort_eq`, `tempToLong_eq` — a store makes a bit pattern, and may add one to it;
* `real_round_trip` — what is loaded is stored again, unless a long real is rounded away from zero
  on account of bits that are not lost.

Design notes: a loop that might not come to an end is one of as many turns as the word has bits,
and none when that is not enough.
-/
import Linux012.Rounding
import Linux012.Words
import Mathlib.Algebra.Order.Field.Power
import Mathlib.Data.Rat.Defs
import Mathlib.Algebra.Order.Ring.Rat
import Mathlib.Tactic.FieldSimp

open Rounding Words

namespace MathEmu

/-- `temp_real`: `a` and `b` are the halves of the mantissa. -/
structure TempReal where
  mantissa : BitVec 64
  exponent : BitVec 16
  deriving DecidableEq

namespace TempReal

def a (t : TempReal) : BitVec 32 := t.mantissa.setWidth 32

def b (t : TempReal) : BitVec 32 := (t.mantissa >>> 32).setWidth 32

/-- `exponent < 0`, or `exponent & 0x8000`. -/
def neg (t : TempReal) : Bool := t.exponent.msb

/-- `exponent & 0x7fff`. -/
def exp (t : TempReal) : ℕ := (t.exponent &&& 0x7fff).toNat

/-- The number that is meant. -/
def value (t : TempReal) : ℚ := signed t.neg (t.mantissa.toNat * 2 ^ ((t.exp : ℤ) - 16446))

/-- Normalized, and finite. -/
structure Normal (t : TempReal) : Prop where
  mantissa : 2 ^ 63 ≤ t.mantissa.toNat
  pos : 1 ≤ t.exp
  finite : t.exp < 0x7fff

/-- A zero, of either sign. -/
structure Zero (t : TempReal) : Prop where
  mantissa : t.mantissa = 0
  exp : t.exp = 0

end TempReal

/-- The exponent of the value is one of a normal number. -/
def InRange (v : ℚ) : Prop := 2 ^ (-16382 : ℤ) ≤ |v| ∧ |v| < 2 ^ (16384 : ℤ)

/-- `long_real`. -/
structure LongReal where
  a : BitVec 32
  b : BitVec 32
  deriving DecidableEq

def LongReal.bits (d : LongReal) : BitVec 64 := d.b ++ d.a

def LongReal.ofBits (n : BitVec 64) : LongReal := ⟨n.setWidth 32, (n >>> 32).setWidth 32⟩

/-- `addl $1,%0 ; adcl $0,%1`. -/
def LongReal.incr (d : LongReal) : LongReal := .ofBits (d.bits + 1)

/-- `temp_int`: `a` and `b` are the halves of the magnitude. -/
structure TempInt where
  magnitude : BitVec 64
  sign : Bool
  deriving DecidableEq

def TempInt.value (i : TempInt) : ℚ := signed i.sign i.magnitude.toNat

/-- `ROUNDING`. -/
def rounding (cwd : BitVec 32) : Mode :=
  match ((cwd >>> 10) &&& 3).toNat with
  | 0 => .nearest
  | 1 => .down
  | 2 => .up
  | _ => .zero

def shortToTemp (a : BitVec 32) : TempReal :=
  if a &&& 0x7fffffff = 0 then ⟨0, if a ≠ 0 then 0x8000 else 0⟩
  else
    let e : BitVec 16 := ((a >>> 23) &&& 0xff).setWidth 16 - 127 + 16383
    let high : BitVec 32 := (a <<< 8) ||| 0x80000000
    ⟨high ++ (0 : BitVec 32), if a.msb then e ||| 0x8000 else e⟩

def longToTemp (d : LongReal) : TempReal :=
  if d.a = 0 ∧ d.b &&& 0x7fffffff = 0 then ⟨0, if d.b ≠ 0 then 0x8000 else 0⟩
  else
    let e : BitVec 16 := ((d.b >>> 20) &&& 0x7ff).setWidth 16 - 1023 + 16383
    let high := (0x80000000 : BitVec 32) ||| (d.b <<< 11) ||| (d.a >>> 21)
    ⟨high ++ (d.a <<< 11 : BitVec 32), if d.b.msb then e ||| 0x8000 else e⟩

def tempToShort (cwd : BitVec 32) (t : TempReal) : BitVec 32 :=
  if t.exponent &&& 0x7fff = 0 then if t.exponent ≠ 0 then 0x80000000 else 0
  else
    let b := ((t.exponent.signExtend 32 - 16383 + 127) <<< 23) &&& 0x7f800000
    let b := if t.neg then b ||| 0x80000000 else b
    let b := b ||| ((t.b >>> 8) &&& 0x007fffff)
    match rounding cwd with
    | .nearest => if 0x80 < (t.b &&& 0xff).toNat then b + 1 else b
    | .down => if t.neg ∧ t.b &&& 0xff ≠ 0 then b + 1 else b
    | .up => if ¬ t.neg ∧ t.b &&& 0xff ≠ 0 then b + 1 else b
    | .zero => b

def tempToLong (cwd : BitVec 32) (t : TempReal) : LongReal :=
  if t.exponent &&& 0x7fff = 0 then ⟨0, if t.exponent ≠ 0 then 0x80000000 else 0⟩
  else
    let e := (0x7fff : BitVec 32) &&& t.exponent.signExtend 32
    let b := ((e - 16383 + 1023) <<< 20) &&& 0x7ff00000
    let b := if t.neg then b ||| 0x80000000 else b
    let b := b ||| ((t.b >>> 11) &&& 0x000fffff)
    let d : LongReal := ⟨(t.b <<< 21) ||| ((t.a >>> 11) &&& 0x001fffff), b⟩
    match rounding cwd with
    | .nearest => if 0x400 < (t.a &&& 0x7ff).toNat then d.incr else d
    | .down => if t.neg ∧ t.b &&& 0xff ≠ 0 then d.incr else d
    | .up => if ¬ t.neg ∧ t.b &&& 0xff ≠ 0 then d.incr else d
    | .zero => d

/-- `shrdl`. -/
def shrd (count : ℕ) (src dst : BitVec 32) : BitVec 32 :=
  ((src ++ dst) >>> (count % 32)).setWidth 32

/-- `a`, `b` and `underflow` of `real_to_int`, before they are shifted, and by how many bits: none
when all of them would be lost. -/
def intWords (t : TempReal) (shift : ℕ) : Option (BitVec 32 × BitVec 32 × BitVec 32 × ℕ) :=
  if shift < 32 then some (t.a, t.b, 0, shift)
  else if shift < 64 then some (t.b, 0, t.a, shift - 32)
  else if shift < 96 then some (0, 0, t.b, shift - 64)
  else none

/-- `real_to_int`, with the flags that it sets. -/
def realToInt (cwd : BitVec 32) (t : TempReal) : TempInt × BitVec 32 :=
  let shift : ℤ := 16383 + 63 - t.exp
  if shift < 0 then (⟨0, t.neg⟩, 8)
  else
    match intWords t shift.toNat with
    | none => (⟨0, t.neg⟩, 0)
    | some (a, b, underflow, shift) =>
      let underflow := shrd shift a underflow
      let a := shrd shift b a
      let b := b >>> (shift % 32)
      let n : BitVec 64 := b ++ a
      let n :=
        match rounding cwd with
        | .nearest => if 2 ^ 32 ≤ underflow.toNat + (0x7fffffff + (a &&& 1).toNat) then n + 1 else n
        | .up => if ¬ t.neg ∧ underflow ≠ 0 then n + 1 else n
        | .down => if t.neg ∧ underflow ≠ 0 then n + 1 else n
        | .zero => n
      (⟨n, t.neg⟩, 0)

/-- `while (b >= 0)`, shifting up: none when it goes on. -/
def shiftUp : ℕ → TempReal → Option TempReal
  | 0, _ => none
  | n + 1, t =>
    if t.mantissa.msb then some t else shiftUp n ⟨t.mantissa + t.mantissa, t.exponent - 1⟩

/-- `int_to_real`: none when it goes on. -/
def intToReal (i : TempInt) : Option TempReal :=
  if i.magnitude = 0 then some ⟨0, 0⟩
  else shiftUp 64 ⟨i.magnitude, 16383 + 63 + if i.sign then 0x8000 else 0⟩

/-! ### The fields of a temporary real -/

variable (cwd : BitVec 32) (t : TempReal)

theorem exp_toNat : t.exp = t.exponent.toNat % 2 ^ 15 := mask_toNat _ _ 15 rfl

theorem neg_iff : t.neg = true ↔ 2 ^ 15 ≤ t.exponent.toNat := by
  rw [TempReal.neg, BitVec.msb_eq_decide, decide_eq_true_iff]

theorem exponent_toNat : t.exponent.toNat = t.exp + if t.neg then 2 ^ 15 else 0 := by
  have hlt := t.exponent.isLt
  rw [exp_toNat]
  split
  case isTrue h => 
    have := (neg_iff t).mp h
    omega
  case isFalse h =>
    have := mt (neg_iff t).mpr h
    omega

theorem signExtend_toNat : (t.exponent.signExtend 32).toNat % 2 ^ 15 = t.exp := by
  have hlt : t.exp < 2 ^ 15 := exp_toNat t ▸ Nat.mod_lt _ (Nat.two_pow_pos 15)
  rw [BitVec.toNat_signExtend, BitVec.toNat_setWidth, exponent_toNat]
  split <;> split <;> omega

theorem a_toNat : t.a.toNat = t.mantissa.toNat % 2 ^ 32 := BitVec.toNat_setWidth _ _

theorem b_toNat : t.b.toNat = t.mantissa.toNat / 2 ^ 32 := by
  have hlt := t.mantissa.isLt
  rw [TempReal.b, BitVec.toNat_setWidth, BitVec.toNat_ushiftRight, Nat.shiftRight_eq_div_pow]
  omega

theorem abs_value : |t.value| = t.mantissa.toNat * 2 ^ ((t.exp : ℤ) - 16446) := by
  have hpos : (0 : ℚ) ≤ t.mantissa.toNat * 2 ^ ((t.exp : ℤ) - 16446) := by positivity
  rw [TempReal.value, signed]
  split
  case isTrue => rw [abs_neg, abs_of_nonneg hpos]
  case isFalse => exact abs_of_nonneg hpos

/-! ### Shifting up -/

/-- A mantissa is shifted up in as many turns as it has bits. -/
theorem shiftUp_spec (j : ℕ) (t : TempReal) (h : 2 ^ 63 ≤ t.mantissa.toNat * 2 ^ j) :
    ∃ k ≤ j, ∃ r, shiftUp (j + 1) t = some r ∧ r.mantissa.toNat = t.mantissa.toNat * 2 ^ k ∧
      r.exponent = t.exponent - BitVec.ofNat 16 k := by
  induction j generalizing t with
  | zero =>
    refine ⟨0, Nat.le_refl 0, t, ?_, (Nat.mul_one _).symm, (BitVec.sub_zero _).symm⟩
    rw [shiftUp, if_pos]
    rw [BitVec.msb_eq_decide, decide_eq_true_iff]
    simpa using h
  | succ j ih =>
    rw [shiftUp]
    by_cases hm : t.mantissa.msb = true
    · exact ⟨0, Nat.zero_le _, t, if_pos hm, (Nat.mul_one _).symm, (BitVec.sub_zero _).symm⟩
    · have hlt : t.mantissa.toNat < 2 ^ 63 := by
        rw [BitVec.msb_eq_decide, decide_eq_true_iff] at hm
        exact Nat.not_le.mp hm
      have hdouble : (t.mantissa + t.mantissa).toNat = t.mantissa.toNat * 2 := by
        rw [BitVec.toNat_add]
        omega
      obtain ⟨k, hk, r, hr, hrm, hre⟩ := ih ⟨t.mantissa + t.mantissa, t.exponent - 1⟩ (by
        rw [hdouble, Nat.mul_assoc, ← Nat.pow_succ']
        exact h)
      refine ⟨k + 1, Nat.succ_le_succ hk, r, (if_neg hm).trans hr, ?_, ?_⟩
      · rw [hrm, hdouble, Nat.mul_assoc, ← Nat.pow_succ']
      · rw [hre, BitVec.sub_sub, BitVec.add_comm, BitVec.ofNat_add]
        rfl

/-! ### Short reals -/

/-- The magnitude that `temp_to_short` makes, as its bit pattern. -/
def shortPattern : ℕ := (t.exp + 128) % 256 * 2 ^ 23 + t.mantissa.toNat / 2 ^ 40 % 2 ^ 23

/-- Whether one is added to it. -/
def shortInc : Bool :=
  match rounding cwd with
  | .nearest => decide (0x80 < t.mantissa.toNat / 2 ^ 32 % 2 ^ 8)
  | .down => t.neg && decide (t.mantissa.toNat / 2 ^ 32 % 2 ^ 8 ≠ 0)
  | .up => !t.neg && decide (t.mantissa.toNat / 2 ^ 32 % 2 ^ 8 ≠ 0)
  | .zero => false

theorem shortPattern_lt : shortPattern t < 2 ^ 31 := by
  rw [shortPattern]
  omega

theorem tempToShort_eq (h : t.exp ≠ 0) : tempToShort cwd t =
    BitVec.ofNat 32 (shortPattern t + if t.neg then 2 ^ 31 else 0) +
      if shortInc cwd t then 1 else 0 := by
  have hexp : ¬ t.exponent &&& 0x7fff = 0 := fun h' => h (congrArg BitVec.toNat h')
  -- the exponent is taken modulo 256
  have hfield : (((t.exponent.signExtend 32 - 16383 + 127) <<< 23) &&& 0x7f800000).toNat =
      (t.exp + 128) % 256 * 2 ^ 23 := by
    rw [field_toNat _ 23 8 (by decide) rfl]
    refine congrArg (· * 2 ^ 23) ?_
    have hext := signExtend_toNat t
    have hbias : (16383 : BitVec 32).toNat = 16383 := rfl
    have hbias' : (127 : BitVec 32).toNat = 127 := rfl
    rw [BitVec.toNat_add, BitVec.toNat_sub, hbias, hbias']
    omega
  have hfrac : ((t.b >>> 8) &&& 0x007fffff).toNat = t.mantissa.toNat / 2 ^ 40 % 2 ^ 23 := by
    rw [mask_toNat _ _ 23 rfl, BitVec.toNat_ushiftRight, Nat.shiftRight_eq_div_pow, b_toNat,
      Nat.div_div_eq_div_mul]
    rfl
  have hlost : (t.b &&& 0xff).toNat = t.mantissa.toNat / 2 ^ 32 % 2 ^ 8 := by
    rw [mask_toNat _ _ 8 rfl, b_toNat]
  have hlost' : t.b &&& 0xff ≠ 0 ↔ t.mantissa.toNat / 2 ^ 32 % 2 ^ 8 ≠ 0 := by
    rw [← hlost]
    exact not_congr BitVec.toNat_eq.symm.symm
  have hsigned := signed_pattern 0x80000000 31 rfl hfield (by omega) t.neg
  rw [tempToShort, if_neg hexp]
  dsimp only
  obtain ⟨x, hx⟩ : ∃ x, x = if t.neg then
      ((t.exponent.signExtend 32 - 16383 + 127) <<< 23) &&& 0x7f800000 ||| 0x80000000
    else ((t.exponent.signExtend 32 - 16383 + 127) <<< 23) &&& 0x7f800000 := ⟨_, rfl⟩
  rw [← hx] at hsigned ⊢
  have hword : x ||| ((t.b >>> 8) &&& 0x007fffff) =
      BitVec.ofNat 32 (shortPattern t + if t.neg then 2 ^ 31 else 0) := by
    refine BitVec.eq_of_toNat_eq ?_
    have hlt := shortPattern_lt t
    have hsum : shortPattern t + (if t.neg then 2 ^ 31 else 0) < 2 ^ 32 := by
      split <;> omega
    have hlow : x.toNat % 2 ^ 23 = 0 := by
      rw [hsigned]
      split <;> omega
    have hsmall : ((t.b >>> 8) &&& 0x007fffff).toNat < 2 ^ 23 := by
      rw [hfrac]
      exact Nat.mod_lt _ (by decide)
    rw [or_toNat 23 hlow hsmall, hsigned, hfrac, BitVec.toNat_ofNat, Nat.mod_eq_of_lt hsum,
      shortPattern]
    omega
  rw [hword, shortInc]
  cases rounding cwd with
  | nearest => exact add_inc _ (by rw [hlost, decide_eq_true_iff])
  | down => exact add_inc _ (by rw [hlost', Bool.and_eq_true, decide_eq_true_iff])
  | up =>
    refine add_inc _ ?_
    rw [hlost', Bool.and_eq_true, decide_eq_true_iff, Bool.not_eq_true', Bool.not_eq_true]
  | zero => exact (BitVec.add_zero _).symm

/-! ### Long reals -/

theorem ofBits_bits (d : LongReal) : LongReal.ofBits d.bits = d := by
  have ha := d.a.isLt
  have hb := d.b.isLt
  have h := append_toNat d.b d.a
  have hlow : (d.bits.setWidth 32) = d.a := by
    refine BitVec.eq_of_toNat_eq ?_
    rw [BitVec.toNat_setWidth, LongReal.bits, h]
    omega
  have hhigh : ((d.bits >>> 32).setWidth 32) = d.b := by
    refine BitVec.eq_of_toNat_eq ?_
    rw [BitVec.toNat_setWidth, BitVec.toNat_ushiftRight, Nat.shiftRight_eq_div_pow, LongReal.bits,
      h]
    omega
  rw [LongReal.ofBits, hlow, hhigh]

theorem bits_ofBits (n : BitVec 64) : (LongReal.ofBits n).bits = n := by
  have hlt := n.isLt
  refine BitVec.eq_of_toNat_eq ?_
  rw [LongReal.bits, append_toNat, LongReal.ofBits, BitVec.toNat_setWidth, BitVec.toNat_setWidth,
    BitVec.toNat_ushiftRight, Nat.shiftRight_eq_div_pow]
  omega

/-- The magnitude that `temp_to_long` makes. -/
def longPattern : ℕ := (t.exp + 1024) % 2048 * 2 ^ 52 + t.mantissa.toNat / 2 ^ 11 % 2 ^ 52

def longInc : Bool :=
  match rounding cwd with
  | .nearest => decide (0x400 < t.mantissa.toNat % 2 ^ 11)
  | .down => t.neg && decide (t.mantissa.toNat / 2 ^ 32 % 2 ^ 8 ≠ 0)
  | .up => !t.neg && decide (t.mantissa.toNat / 2 ^ 32 % 2 ^ 8 ≠ 0)
  | .zero => false

theorem longPattern_lt : longPattern t < 2 ^ 63 := by
  rw [longPattern]
  omega

theorem add_incr (d : LongReal) {p : Prop} [Decidable p] {inc : Bool} (h : p ↔ inc = true) :
    (if p then d.incr else d).bits = d.bits + if inc then 1 else 0 := by
  rw [← add_inc _ h, apply_ite LongReal.bits, LongReal.incr, bits_ofBits]

theorem tempToLong_eq (h : t.exp ≠ 0) : (tempToLong cwd t).bits =
    BitVec.ofNat 64 (longPattern t + if t.neg then 2 ^ 63 else 0) +
      if longInc cwd t then 1 else 0 := by
  have hexp : ¬ t.exponent &&& 0x7fff = 0 := fun h' => h (congrArg BitVec.toNat h')
  -- the exponent is taken modulo 2048
  have hfield : (((((0x7fff : BitVec 32) &&& t.exponent.signExtend 32) - 16383 + 1023) <<< 20) &&&
      0x7ff00000).toNat = (t.exp + 1024) % 2048 * 2 ^ 20 := by
    rw [field_toNat _ 20 11 (by decide) rfl]
    refine congrArg (· * 2 ^ 20) ?_
    have hext : ((0x7fff : BitVec 32) &&& t.exponent.signExtend 32).toNat = t.exp := by
      rw [BitVec.and_comm, mask_toNat _ _ 15 rfl, signExtend_toNat]
    have hbias : (16383 : BitVec 32).toNat = 16383 := rfl
    have hbias' : (1023 : BitVec 32).toNat = 1023 := rfl
    rw [BitVec.toNat_add, BitVec.toNat_sub, hext, hbias, hbias']
    omega
  have hfrac : ((t.b >>> 11) &&& 0x000fffff).toNat = t.mantissa.toNat / 2 ^ 43 % 2 ^ 20 := by
    rw [mask_toNat _ _ 20 rfl, BitVec.toNat_ushiftRight, Nat.shiftRight_eq_div_pow, b_toNat,
      Nat.div_div_eq_div_mul]
    rfl
  have hlow : ((t.b <<< 21) ||| ((t.a >>> 11) &&& 0x001fffff)).toNat =
      t.mantissa.toNat / 2 ^ 11 % 2 ^ 32 := by
    have hsmall : ((t.a >>> 11) &&& 0x001fffff).toNat = t.mantissa.toNat / 2 ^ 11 % 2 ^ 21 := by
      rw [mask_toNat _ _ 21 rfl, BitVec.toNat_ushiftRight, Nat.shiftRight_eq_div_pow, a_toNat]
      omega
    have hupper : (t.b <<< 21).toNat = t.mantissa.toNat / 2 ^ 32 % 2 ^ 11 * 2 ^ 21 := by
      rw [BitVec.toNat_shiftLeft, Nat.shiftLeft_eq, b_toNat]
      omega
    rw [or_toNat 21 (by rw [hupper]; omega) (by rw [hsmall]; omega), hupper, hsmall]
    omega
  have hlost : (t.a &&& 0x7ff).toNat = t.mantissa.toNat % 2 ^ 11 := by
    rw [mask_toNat _ _ 11 rfl, a_toNat]
    omega
  have hseen : t.b &&& 0xff ≠ 0 ↔ t.mantissa.toNat / 2 ^ 32 % 2 ^ 8 ≠ 0 := by
    rw [← b_toNat, ← mask_toNat t.b 0xff 8 rfl]
    exact not_congr BitVec.toNat_eq
  have hsigned := signed_pattern 0x80000000 31 rfl hfield (by omega) t.neg
  rw [tempToLong, if_neg hexp]
  dsimp only
  obtain ⟨field, hf⟩ : ∃ field, field =
      (((0x7fff &&& t.exponent.signExtend 32) - 16383 + 1023) <<< 20) &&& (0x7ff00000 : BitVec 32) :=
    ⟨_, rfl⟩
  rw [← hf] at hsigned ⊢
  obtain ⟨x, hx⟩ : ∃ x, x = if t.neg then field ||| 0x80000000 else field := ⟨_, rfl⟩
  rw [← hx] at hsigned ⊢
  have hword : (LongReal.mk ((t.b <<< 21) ||| ((t.a >>> 11) &&& 0x001fffff))
      (x ||| ((t.b >>> 11) &&& 0x000fffff))).bits =
        BitVec.ofNat 64 (longPattern t + if t.neg then 2 ^ 63 else 0) := by
    refine BitVec.eq_of_toNat_eq ?_
    have hlt := longPattern_lt t
    have hsum : longPattern t + (if t.neg then 2 ^ 63 else 0) < 2 ^ 64 := by
      split <;> omega
    have hzero : x.toNat % 2 ^ 20 = 0 := by
      rw [hsigned]
      split <;> omega
    have hsmall : ((t.b >>> 11) &&& 0x000fffff).toNat < 2 ^ 20 := by
      rw [hfrac]
      exact Nat.mod_lt _ (by decide)
    rw [LongReal.bits, append_toNat, hlow, or_toNat 20 hzero hsmall, hsigned, hfrac,
      BitVec.toNat_ofNat, Nat.mod_eq_of_lt hsum, longPattern]
    split <;> omega
  rw [← hword, longInc]
  cases rounding cwd with
  | nearest => exact add_incr _ (by rw [hlost, decide_eq_true_iff])
  | down => exact add_incr _ (by rw [hseen, Bool.and_eq_true, decide_eq_true_iff])
  | up =>
    refine add_incr _ ?_
    rw [hseen, Bool.and_eq_true, decide_eq_true_iff, Bool.not_eq_true', Bool.not_eq_true]
  | zero => exact (BitVec.add_zero _).symm

/-! ### What is loaded -/

theorem of_exponent {e : ℕ} {neg : Bool} (he : e < 2 ^ 15)
    (h : t.exponent.toNat = e + if neg then 2 ^ 15 else 0) : t.exp = e ∧ t.neg = neg := by
  have hneg := neg_iff t
  constructor
  · rw [exp_toNat, h]
    split <;> omega
  · cases neg with
    | false =>
      refine Bool.eq_false_iff.mpr fun hn => ?_
      have := hneg.mp hn
      simp only [Bool.false_eq_true, if_false] at h
      omega
    | true =>
      simp only [if_true] at h
      exact hneg.mpr (by omega)

theorem shortToTemp_spec (s : BitVec 32) (h : s.toNat % 2 ^ 31 ≠ 0) :
    (shortToTemp s).exp = s.toNat / 2 ^ 23 % 2 ^ 8 + 16256 ∧ (shortToTemp s).neg = s.msb ∧
      (shortToTemp s).mantissa.toNat = (2 ^ 31 + s.toNat % 2 ^ 23 * 2 ^ 8) * 2 ^ 32 := by
  have hne : ¬ s &&& 0x7fffffff = 0 := by
    intro h'
    have hmask := mask_toNat s 0x7fffffff 31 rfl
    rw [h'] at hmask
    exact h hmask.symm
  have he : (((s >>> 23) &&& 0xff).setWidth 16 - 127 + 16383 : BitVec 16).toNat =
      s.toNat / 2 ^ 23 % 2 ^ 8 + 16256 := by
    have hbias : (127 : BitVec 16).toNat = 127 := rfl
    have hbias' : (16383 : BitVec 16).toNat = 16383 := rfl
    rw [BitVec.toNat_add, BitVec.toNat_sub, hbias, hbias', BitVec.toNat_setWidth,
      mask_toNat _ _ 8 rfl, BitVec.toNat_ushiftRight, Nat.shiftRight_eq_div_pow]
    omega
  have hm : ((s <<< 8) ||| 0x80000000 : BitVec 32).toNat = 2 ^ 31 + s.toNat % 2 ^ 23 * 2 ^ 8 := by
    rw [or_top, BitVec.toNat_shiftLeft, Nat.shiftLeft_eq]
    omega
  rw [shortToTemp, if_neg hne]
  have hexp := signed_pattern 0x8000 15 rfl he (by omega) s.msb
  refine ⟨(of_exponent _ (by omega) hexp).1, (of_exponent _ (by omega) hexp).2, ?_⟩
  have hzero : (0 : BitVec 32).toNat = 0 := rfl
  exact (append_toNat _ _).trans (by rw [hm, hzero, Nat.add_zero])

theorem longToTemp_spec (d : LongReal) (h : d.bits.toNat % 2 ^ 63 ≠ 0) :
    (longToTemp d).exp = d.bits.toNat / 2 ^ 52 % 2 ^ 11 + 15360 ∧ (longToTemp d).neg = d.b.msb ∧
      (longToTemp d).mantissa.toNat = 2 ^ 63 + d.bits.toNat % 2 ^ 52 * 2 ^ 11 := by
  have ha := d.a.isLt
  have hb := d.b.isLt
  have hbits : d.bits.toNat = d.b.toNat * 2 ^ 32 + d.a.toNat := append_toNat d.b d.a
  have hne : ¬ (d.a = 0 ∧ d.b &&& 0x7fffffff = 0) := by
    rintro ⟨ha', hb'⟩
    have hmask := mask_toNat d.b 0x7fffffff 31 rfl
    rw [hb'] at hmask
    have hzero : d.a.toNat = 0 := by rw [ha']; rfl
    have hzero' : d.b.toNat % 2 ^ 31 = 0 := hmask.symm
    omega
  have he : (((d.b >>> 20) &&& 0x7ff).setWidth 16 - 1023 + 16383 : BitVec 16).toNat =
      d.bits.toNat / 2 ^ 52 % 2 ^ 11 + 15360 := by
    have hbias : (1023 : BitVec 16).toNat = 1023 := rfl
    have hbias' : (16383 : BitVec 16).toNat = 16383 := rfl
    rw [BitVec.toNat_add, BitVec.toNat_sub, hbias, hbias', BitVec.toNat_setWidth,
      mask_toNat _ _ 11 rfl, BitVec.toNat_ushiftRight, Nat.shiftRight_eq_div_pow]
    omega
  have hhigh : ((0x80000000 : BitVec 32) ||| (d.b <<< 11) ||| (d.a >>> 21)).toNat =
      2 ^ 31 + d.b.toNat % 2 ^ 20 * 2 ^ 11 + d.a.toNat / 2 ^ 21 := by
    have hupper : ((0x80000000 : BitVec 32) ||| (d.b <<< 11)).toNat =
        2 ^ 31 + d.b.toNat % 2 ^ 20 * 2 ^ 11 := by
      rw [BitVec.or_comm, or_top, BitVec.toNat_shiftLeft, Nat.shiftLeft_eq]
      omega
    have hlower : (d.a >>> 21).toNat = d.a.toNat / 2 ^ 21 := by
      rw [BitVec.toNat_ushiftRight, Nat.shiftRight_eq_div_pow]
    rw [or_toNat 11 (by rw [hupper]; omega) (by rw [hlower]; omega), hupper, hlower]
  have hlow : (d.a <<< 11).toNat = d.a.toNat % 2 ^ 21 * 2 ^ 11 := by
    rw [BitVec.toNat_shiftLeft, Nat.shiftLeft_eq]
    omega
  rw [longToTemp, if_neg hne]
  have hexp := signed_pattern 0x8000 15 rfl he (by omega) d.b.msb
  refine ⟨(of_exponent _ (by omega) hexp).1, (of_exponent _ (by omega) hexp).2, ?_⟩
  refine (append_toNat _ _).trans ?_
  rw [hhigh, hlow]
  omega

/-- Zeros keep their sign. -/
theorem short_zero (s : BitVec 32) (h : s.toNat % 2 ^ 31 = 0) :
    tempToShort cwd (shortToTemp s) = s := by
  have hs : s = 0 ∨ s = 0x80000000 := by
    have hlt := s.isLt
    have hcases : s.toNat = 0 ∨ s.toNat = 2 ^ 31 := by omega
    exact hcases.imp (fun h => BitVec.eq_of_toNat_eq h) (fun h => BitVec.eq_of_toNat_eq h)
  rcases hs with rfl | rfl <;> rfl

theorem short_round_trip (s : BitVec 32) : tempToShort cwd (shortToTemp s) = s := by
  by_cases h : s.toNat % 2 ^ 31 = 0
  · exact short_zero cwd s h
  · obtain ⟨he, hn, hm⟩ := shortToTemp_spec s h
    have hlt := s.isLt
    have hinc : shortInc cwd (shortToTemp s) = false := by
      have hlost : (shortToTemp s).mantissa.toNat / 2 ^ 32 % 2 ^ 8 = 0 := by
        rw [hm]
        omega
      rw [shortInc, hlost]
      cases rounding cwd <;> simp
    have hpattern : shortPattern (shortToTemp s) = s.toNat % 2 ^ 31 := by
      rw [shortPattern, he, hm]
      omega
    rw [tempToShort_eq _ _ (by omega), hinc, hpattern, hn]
    refine BitVec.eq_of_toNat_eq ?_
    have hmsb := msb_iff s
    rw [add_no_inc, BitVec.toNat_ofNat]
    split
    case isTrue hneg =>
      have := hmsb.mp hneg
      omega
    case isFalse hneg =>
      have := mt hmsb.mpr hneg
      omega

theorem longInc_loaded (d : LongReal) (h : d.bits.toNat % 2 ^ 63 ≠ 0) :
    longInc cwd (longToTemp d) = match rounding cwd with
      | .down => d.b.msb && decide (d.a.toNat / 2 ^ 21 % 2 ^ 8 ≠ 0)
      | .up => !d.b.msb && decide (d.a.toNat / 2 ^ 21 % 2 ^ 8 ≠ 0)
      | _ => false := by
  obtain ⟨-, hn, hm⟩ := longToTemp_spec d h
  have ha := d.a.isLt
  have hbits : d.bits.toNat = d.b.toNat * 2 ^ 32 + d.a.toNat := append_toNat d.b d.a
  have hlost : (longToTemp d).mantissa.toNat % 2 ^ 11 = 0 := by
    rw [hm]
    omega
  have hseen : (longToTemp d).mantissa.toNat / 2 ^ 32 % 2 ^ 8 = d.a.toNat / 2 ^ 21 % 2 ^ 8 := by
    rw [hm, hbits]
    omega
  rw [longInc, hlost, hseen, hn]
  cases rounding cwd <;> rfl

/-- Bits of the fraction, from which the code takes a long real not to be exact, and a mode in
which it then goes away from zero. -/
def Carried (cwd : BitVec 32) (d : LongReal) : Prop :=
  (rounding cwd = .down ∧ d.b.msb = true ∨ rounding cwd = .up ∧ d.b.msb = false) ∧
    d.a.toNat / 2 ^ 21 % 2 ^ 8 ≠ 0

theorem carried_iff (d : LongReal) (h : d.bits.toNat % 2 ^ 63 ≠ 0) :
    longInc cwd (longToTemp d) = true ↔ Carried cwd d := by
  rw [longInc_loaded cwd d h, Carried]
  cases rounding cwd <;> simp

theorem long_zero (d : LongReal) (h : d.bits.toNat % 2 ^ 63 = 0) :
    tempToLong cwd (longToTemp d) = d := by
  have ha := d.a.isLt
  have hb := d.b.isLt
  have hbits : d.bits.toNat = d.b.toNat * 2 ^ 32 + d.a.toNat := append_toNat d.b d.a
  have hd : d = ⟨0, 0⟩ ∨ d = ⟨0, 0x80000000⟩ := by
    have hcases : d.b.toNat = 0 ∨ d.b.toNat = 2 ^ 31 := by omega
    have hzero : d.a.toNat = 0 := by omega
    obtain ⟨a, b⟩ := d
    obtain rfl : a = 0 := BitVec.eq_of_toNat_eq hzero
    exact hcases.imp (fun h => congrArg _ (BitVec.eq_of_toNat_eq h))
      (fun h => congrArg _ (BitVec.eq_of_toNat_eq h))
  rcases hd with rfl | rfl <;> rfl

theorem long_round_trip (d : LongReal) : tempToLong cwd (longToTemp d) = d ↔ ¬ Carried cwd d := by
  by_cases h : d.bits.toNat % 2 ^ 63 = 0
  · refine iff_of_true (long_zero cwd d h) fun hc => hc.2 ?_
    have hbits : d.bits.toNat = d.b.toNat * 2 ^ 32 + d.a.toNat := append_toNat d.b d.a
    have ha := d.a.isLt
    omega
  · obtain ⟨he, hn, hm⟩ := longToTemp_spec d h
    have hlt := d.bits.isLt
    have hbits : d.bits.toNat = d.b.toNat * 2 ^ 32 + d.a.toNat := append_toNat d.b d.a
    have hmsb := msb_iff d.b
    have ha := d.a.isLt
    have hpattern : longPattern (longToTemp d) = d.bits.toNat % 2 ^ 63 := by
      rw [longPattern, he, hm]
      omega
    have hword : BitVec.ofNat 64 (longPattern (longToTemp d) +
        if (longToTemp d).neg then 2 ^ 63 else 0) = d.bits := by
      refine BitVec.eq_of_toNat_eq ?_
      rw [hpattern, hn, BitVec.toNat_ofNat]
      split
      case isTrue hneg =>
        have := hmsb.mp hneg
        omega
      case isFalse hneg =>
        have := mt hmsb.mpr hneg
        omega
    have hstored := tempToLong_eq cwd (longToTemp d) (by omega)
    rw [hword] at hstored
    rw [← carried_iff cwd d h]
    cases hinc : longInc cwd (longToTemp d) with
    | false =>
      rw [hinc, add_no_inc] at hstored
      refine iff_of_true ?_ Bool.false_ne_true
      rw [← ofBits_bits (tempToLong cwd (longToTemp d)), hstored, ofBits_bits]
    | true =>
      refine iff_of_false (fun heq => ?_) (fun hne => hne rfl)
      -- one is added
      rw [heq, hinc, if_pos rfl] at hstored
      have hsucc := congrArg BitVec.toNat hstored
      rw [BitVec.toNat_add] at hsucc
      have hone : (1 : BitVec 64).toNat = 1 := rfl
      omega

/-- Short reals are stored as they were loaded, and so are long reals unless they are carried on
account of bits that are not lost. -/
theorem real_round_trip (cwd : BitVec 32) (s : BitVec 32) (d : LongReal) :
    tempToShort cwd (shortToTemp s) = s ∧
      (tempToLong cwd (longToTemp d) = d ↔ ¬ Carried cwd d) :=
  ⟨short_round_trip cwd s, long_round_trip cwd d⟩

/-- 1 + 2⁻³¹, when values are rounded up. -/
theorem real_round_trip_fails :
    ¬ ∀ cwd d, tempToLong cwd (longToTemp d) = d := by
  intro h
  have hloss := h 0x0b7f ⟨0x00200000, 0x3ff00000⟩
  revert hloss
  decide

end MathEmu
