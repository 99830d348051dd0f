/-
The arithmetic of temporary reals (add.c, mul.c, div.c and compare.c of kernel/math).

* `fadd`, `fmul`, `fdiv`, `ftst`, `fcom` — the results, and the flags of `swd` that are set;
* `mul64_exact` — the product of two mantissas, with all its carries;
* `fadd_ends`, `shiftDivisor_ends` — the loops that shift a mantissa up come to an end;
* `fmul_result` — when a product is not assigned.

Design notes: four words are one number once they are multiplied; a loop that might not come to an
end is one of as many turns as the word has bits, and none when that is not enough.
-/
import Linux012.TempReals

namespace MathEmu

/-- `exponent ^= 0x8000`. -/
def TempReal.negate (t : TempReal) : TempReal := { t with exponent := t.exponent ^^^ 0x8000 }

/-! ### Addition -/

def signify (t : TempReal) : TempReal :=
  let e := t.exponent + 2
  let m := t.mantissa >>> 2
  ⟨if e.msb then -m else m, e &&& 0x7fff⟩

def unsignify (t : TempReal) : Option TempReal :=
  if t.mantissa = 0 then some ⟨0, 0⟩
  else
    let e := t.exponent &&& 0x7fff
    shiftUp 64 (if t.mantissa.msb then ⟨-t.mantissa, e ||| 0x8000⟩ else ⟨t.mantissa, e⟩)

def fadd (src1 src2 : TempReal) : Option TempReal :=
  let (a, b, shift) :=
    if src2.exp < src1.exp then (src1, src2, src1.exp - src2.exp)
    else (src2, src1, src2.exp - src1.exp)
  if 64 ≤ shift then some a
  else
    let b := { b with mantissa := b.mantissa >>> shift }
    let a := signify a
    unsignify { a with mantissa := a.mantissa + (signify b).mantissa }

/-! ### Multiplication and division -/

/-- `int c[4]`, the lowest word first. -/
structure Wide where
  w0 : BitVec 32
  w1 : BitVec 32
  w2 : BitVec 32
  w3 : BitVec 32

def Wide.toNat (c : Wide) : ℕ :=
  c.w0.toNat + 2 ^ 32 * c.w1.toNat + 2 ^ 64 * c.w2.toNat + 2 ^ 96 * c.w3.toNat

/-- `edx` and `eax`. -/
def mull (x y : BitVec 32) : BitVec 32 × BitVec 32 :=
  let p : BitVec 64 := x.setWidth 64 * y.setWidth 64
  ((p >>> 32).setWidth 32, p.setWidth 32)

/-- The sum and the carry flag. -/
def adcl (x y : BitVec 32) (cf : Bool) : BitVec 32 × Bool :=
  (x + y + BitVec.ofNat 32 cf.toNat, decide (2 ^ 32 ≤ x.toNat + y.toNat + cf.toNat))

/-- `addl %%eax,4(%2) ; adcl %%edx,8(%2) ; adcl $0,12(%2)`. -/
def Wide.addMiddle (c : Wide) (edx eax : BitVec 32) : Wide :=
  let (w1, cf) := adcl eax c.w1 false
  let (w2, cf) := adcl edx c.w2 cf
  ⟨c.w0, w1, w2, (adcl 0 c.w3 cf).1⟩

def mul64 (a b : TempReal) : Wide :=
  let (edx, eax) := mull a.a b.a
  let (edx', eax') := mull a.b b.b
  let c : Wide := ⟨eax, edx, eax', edx'⟩
  let (edx, eax) := mull a.a b.b
  let c := c.addMiddle edx eax
  let (edx, eax) := mull a.b b.a
  c.addMiddle edx eax

/-- The sign of a product or a quotient. -/
def sign (src1 src2 : TempReal) : BitVec 16 := (src1.exponent ^^^ src2.exponent) &&& 0x8000

/-- `while (i && tmp[3] >= 0)`, shifting four words. -/
def normalizeWide : ℕ → ℕ → ℕ × ℕ
  | 0, tmp => (0, tmp)
  | i + 1, tmp => if tmp < 2 ^ 127 then normalizeWide i (2 * tmp % 2 ^ 128) else (i + 1, tmp)

/-- `result->exponent` and the upper words of `tmp` as the mantissa. -/
def pack (i : ℕ) (tmp : ℕ) (sign : BitVec 16) : TempReal :=
  ⟨BitVec.ofNat 64 (tmp / 2 ^ 64), BitVec.ofNat 16 i ||| sign⟩

/-- `fmul`: the result, if it is assigned, and the flags. -/
def fmul (src1 src2 : TempReal) : Option TempReal × BitVec 32 :=
  let i : ℤ := src1.exp + src2.exp - 16383 + 1
  if i < 0 then (some ⟨0, sign src1 src2⟩, 0)
  else if 0x7fff < i then (none, 8)
  else
    let tmp := (mul64 src1 src2).toNat
    let (i, tmp) := if tmp ≠ 0 then normalizeWide i.toNat tmp else (0, tmp)
    (some (pack i tmp (sign src1 src2)), 0)

/-- `while (b[3] >= 0)` of `fdiv`: none when it goes on. -/
def shiftDivisor : ℕ → ℕ → ℕ → Option (ℕ × ℕ)
  | 0, _, _ => none
  | n + 1, i, b => if b < 2 ^ 127 then shiftDivisor n (i + 1) (2 * b % 2 ^ 128) else some (i, b)

/-- `div64` with `n` turns left: the bits of the quotient. -/
def div64 : ℕ → ℕ → ℕ → ℕ → ℕ
  | 0, _, _, c => c
  | n + 1, a, b, c =>
    if b ≤ a then div64 n (a - b) (b / 2) (2 * c + 1) else div64 n a (b / 2) (2 * c)

/-- The end of `fdiv`, once the mantissas are divided: the result, if it is assigned, and the
flags. -/
def quotient (i tmp : ℕ) (sign : BitVec 16) : Option TempReal × BitVec 32 :=
  let (i, tmp) := if tmp ≠ 0 then normalizeWide i tmp else (0, tmp)
  let flags : BitVec 32 := if tmp ≠ 0 ∧ tmp < 2 ^ 127 then 2 else 0
  let inexact : BitVec 32 := if tmp % 2 ^ 64 ≠ 0 then 32 else 0
  if 0x7fff < i then (none, flags ||| 8) else (some (pack i tmp sign), flags ||| inexact)

/-- `fdiv`: none when it goes on. -/
def fdiv (src1 src2 : TempReal) : Option (Option TempReal × BitVec 32) :=
  if src2.mantissa = 0 then some (none, 4)
  else
    let i : ℤ := src1.exp - src2.exp + 16383
    if i < 0 then some (some ⟨0, sign src1 src2⟩, 16)
    else
      (shiftDivisor 64 i.toNat (src2.mantissa.toNat * 2 ^ 64)).map fun (i, b) =>
        quotient i (div64 64 (src1.mantissa.toNat * 2 ^ 64) b 0 * 2 ^ 64) (sign src1 src2)

/-! ### Comparison -/

/-- `while (i && a->b >= 0)` of `normalize`. -/
def normalizeLoop : ℕ → BitVec 64 → ℕ × BitVec 64
  | 0, m => (0, m)
  | i + 1, m => if m.msb then (i + 1, m) else normalizeLoop i (m <<< 1)

def normalize (t : TempReal) : TempReal :=
  if t.mantissa = 0 then ⟨0, 0⟩
  else
    let (i, m) := normalizeLoop t.exp t.mantissa
    ⟨m, BitVec.ofNat 16 i ||| (t.exponent &&& 0x8000)⟩

/-- `ftst`, on `swd`. -/
def ftst (t : TempReal) (swd : BitVec 32) : BitVec 32 :=
  let swd := swd &&& ~~~0x4500
  let b := normalize t
  if b.mantissa ≠ 0 ∨ b.exponent ≠ 0 then if b.exponent.msb then swd ||| 0x0100 else swd
  else swd ||| 0x4000

/-- `fcom` and `fucom`, on `swd`. -/
def fcom (src1 src2 : TempReal) (swd : BitVec 32) : Option (BitVec 32) :=
  (fadd src1.negate src2).map fun a => ftst a swd

/-! ### The loops come to an end -/

/-- A mantissa that is not zero is shifted up in 63 turns at most. -/
theorem shiftUp_ne_zero {t : TempReal} (h : t.mantissa ≠ 0) : ∃ r, shiftUp 64 t = some r := by
  have hpos : 0 < t.mantissa.toNat := by
    refine Nat.pos_of_ne_zero fun hzero => h ?_
    exact BitVec.eq_of_toNat_eq (by simpa using hzero)
  obtain ⟨-, -, r, hr, -⟩ := shiftUp_spec 63 t (Nat.le_mul_of_pos_left _ hpos)
  exact ⟨r, hr⟩

theorem unsignify_ends (t : TempReal) : ∃ r, unsignify t = some r := by
  rw [unsignify]
  split
  case isTrue => exact ⟨_, rfl⟩
  case isFalse h =>
    dsimp only
    split
    case isTrue => exact shiftUp_ne_zero (by simpa using h)
    case isFalse => exact shiftUp_ne_zero h

theorem fadd_ends (src1 src2 : TempReal) : ∃ r, fadd src1 src2 = some r := by
  rw [fadd]
  split
  split
  case isTrue => exact ⟨_, rfl⟩
  case isFalse => exact unsignify_ends _

theorem shiftDivisor_ends (n i b : ℕ) (hlow : 2 ^ 127 ≤ b * 2 ^ n) (hhigh : b < 2 ^ 128) :
    ∃ k, shiftDivisor (n + 1) i b = some (i + k, b * 2 ^ k) ∧ 2 ^ 127 ≤ b * 2 ^ k ∧
      b * 2 ^ k < 2 ^ 128 := by
  induction n generalizing i b with
  | zero =>
    have hlow : 2 ^ 127 ≤ b := by simpa using hlow
    refine ⟨0, ?_, by simpa using hlow, by simpa using hhigh⟩
    rw [shiftDivisor, if_neg (Nat.not_lt.mpr hlow)]
    simp
  | succ n ih =>
    rw [shiftDivisor]
    split
    case isTrue hlt =>
      have hdouble : 2 * b % 2 ^ 128 = 2 * b := Nat.mod_eq_of_lt (by omega)
      obtain ⟨k, hk, hbounds⟩ := ih (i + 1) (2 * b) (by
        calc 2 ^ 127 ≤ b * 2 ^ (n + 1) := hlow
          _ = 2 * b * 2 ^ n := by rw [Nat.pow_succ]; ring) (by omega)
      have hpow : 2 * b * 2 ^ k = b * 2 ^ (k + 1) := by
        rw [Nat.pow_succ]
        ring
      rw [hpow] at hk hbounds
      refine ⟨k + 1, ?_, hbounds⟩
      rw [hdouble, hk, Nat.add_assoc, Nat.add_comm 1]
    case isFalse hge =>
      refine ⟨0, by simp, ?_, by simpa using hhigh⟩
      simpa using Nat.le_of_not_lt hge

/-! ### The product of the mantissas -/

theorem mull_toNat (x y : BitVec 32) :
    (mull x y).1.toNat * 2 ^ 32 + (mull x y).2.toNat = x.toNat * y.toNat := by
  have hlt : x.toNat * y.toNat < 2 ^ 32 * 2 ^ 32 := Nat.mul_lt_mul'' x.isLt y.isLt
  have hx := x.isLt
  have hy := y.isLt
  have hp : (x.setWidth 64 * y.setWidth 64).toNat = x.toNat * y.toNat := by
    rw [BitVec.toNat_mul, BitVec.toNat_setWidth, BitVec.toNat_setWidth,
      Nat.mod_eq_of_lt (a := x.toNat) (by omega), Nat.mod_eq_of_lt (a := y.toNat) (by omega)]
    exact Nat.mod_eq_of_lt (by omega)
  rw [mull]
  dsimp only
  rw [BitVec.toNat_setWidth, BitVec.toNat_setWidth, BitVec.toNat_ushiftRight, hp,
    Nat.shiftRight_eq_div_pow]
  omega

theorem adcl_toNat (x y : BitVec 32) (cf : Bool) :
    (adcl x y cf).1.toNat + 2 ^ 32 * (adcl x y cf).2.toNat = x.toNat + y.toNat + cf.toNat := by
  have hcf := Bool.toNat_le cf
  have hx := x.isLt
  have hy := y.isLt
  rw [adcl]
  dsimp only
  rw [BitVec.toNat_add, BitVec.toNat_add, BitVec.toNat_ofNat]
  by_cases hcarry : 2 ^ 32 ≤ x.toNat + y.toNat + cf.toNat
  · rw [decide_eq_true hcarry, Bool.toNat_true]
    omega
  · rw [decide_eq_false hcarry, Bool.toNat_false]
    omega

/-- The last carry is none, when the sum is not too large. -/
theorem Wide.addMiddle_toNat (c : Wide) (edx eax : BitVec 32)
    (h : c.toNat + 2 ^ 32 * (edx.toNat * 2 ^ 32 + eax.toNat) < 2 ^ 128) :
    (c.addMiddle edx eax).toNat = c.toNat + 2 ^ 32 * (edx.toNat * 2 ^ 32 + eax.toNat) := by
  have h1 := adcl_toNat eax c.w1 false
  have h2 := adcl_toNat edx c.w2 (adcl eax c.w1 false).2
  have h3 := adcl_toNat 0 c.w3 (adcl edx c.w2 (adcl eax c.w1 false).2).2
  have hzero : (0 : BitVec 32).toNat = 0 := rfl
  have hfalse : Bool.toNat false = 0 := rfl
  rw [hfalse] at h1
  rw [hzero] at h3
  rw [Wide.toNat] at h ⊢
  rw [Wide.toNat, Wide.addMiddle]
  dsimp only
  omega

/-- The four partial products make the whole one. -/
theorem mul64_exact (a b : TempReal) :
    (mul64 a b).toNat = a.mantissa.toNat * b.mantissa.toNat := by
  have hlt : a.mantissa.toNat * b.mantissa.toNat < 2 ^ 64 * 2 ^ 64 :=
    Nat.mul_lt_mul'' a.mantissa.isLt b.mantissa.isLt
  have hsplit : ∀ t : TempReal, t.mantissa.toNat = t.b.toNat * 2 ^ 32 + t.a.toNat := by
    intro t
    rw [a_toNat, b_toNat]
    omega
  have hproduct : a.mantissa.toNat * b.mantissa.toNat = a.a.toNat * b.a.toNat +
      2 ^ 32 * (a.a.toNat * b.b.toNat) + 2 ^ 32 * (a.b.toNat * b.a.toNat) +
      2 ^ 64 * (a.b.toNat * b.b.toNat) := by
    rw [hsplit a, hsplit b]
    ring
  have hlow := mull_toNat a.a b.a
  have hhigh := mull_toNat a.b b.b
  have hcross := mull_toNat a.a b.b
  have hcross' := mull_toNat a.b b.a
  have hstart : (⟨(mull a.a b.a).2, (mull a.a b.a).1, (mull a.b b.b).2, (mull a.b b.b).1⟩ :
      Wide).toNat = a.a.toNat * b.a.toNat + 2 ^ 64 * (a.b.toNat * b.b.toNat) := by
    rw [Wide.toNat]
    dsimp only
    omega
  have hfirst := Wide.addMiddle_toNat
    ⟨(mull a.a b.a).2, (mull a.a b.a).1, (mull a.b b.b).2, (mull a.b b.b).1⟩
    (mull a.a b.b).1 (mull a.a b.b).2 (by omega)
  rw [mul64]
  dsimp only
  rw [Wide.addMiddle_toNat _ _ _ (by omega)]
  omega

/-! ### Products and quotients that are not assigned -/

theorem fmul_result (src1 src2 : TempReal) :
    (fmul src1 src2).1 = none ↔ 0x7fff + 16382 < src1.exp + src2.exp := by
  rw [fmul]
  dsimp only
  split
  case isTrue hlt =>
    refine ⟨nofun, fun h => ?_⟩
    omega
  case isFalse =>
    split
    case isTrue hgt =>
      refine ⟨fun _ => ?_, fun _ => rfl⟩
      omega
    case isFalse hle =>
      refine ⟨nofun, fun h => ?_⟩
      omega

end MathEmu
