/-
The operands of the emulator in user memory (get_put.c of kernel/math, asm/segment.h).

* `Memory`, `getFsLong`, `putFsLong` and the others — memory by its bytes, and words in it;
* `getShortInt`, `getLongInt`, `getLonglongInt`, `getBCD` and the stores that match them, at an
  address; reals as well;
* `intToReal_exact` — an integer is loaded as it is, and found again in every rounding mode;
* `getBCDLoop_toNat`, `putBCDLoop_digits` — the digits that are taken in and stored;
* `integers_survive` — integers and decimals are stored as they were loaded.
-/
import Linux012.Stores
import Mathlib.Logic.Function.Basic

open Rounding Words

namespace MathEmu

/-! ### Memory -/

abbrev Addr : Type := BitVec 32

abbrev Memory : Type := Addr → BitVec 8

def getFsByte (m : Memory) (addr : Addr) : BitVec 8 := m addr

def getFsWord (m : Memory) (addr : Addr) : BitVec 16 := m (addr + 1) ++ m addr

def getFsLong (m : Memory) (addr : Addr) : BitVec 32 := getFsWord m (addr + 2) ++ getFsWord m addr

/-- Two longs. -/
def getFsLonglong (m : Memory) (addr : Addr) : BitVec 64 :=
  getFsLong m (addr + 4) ++ getFsLong m addr

def putFsByte (v : BitVec 8) (addr : Addr) (m : Memory) : Memory := Function.update m addr v

def putFsWord (v : BitVec 16) (addr : Addr) (m : Memory) : Memory :=
  putFsByte ((v >>> 8).setWidth 8) (addr + 1) (putFsByte (v.setWidth 8) addr m)

def putFsLong (v : BitVec 32) (addr : Addr) (m : Memory) : Memory :=
  putFsWord ((v >>> 16).setWidth 16) (addr + 2) (putFsWord (v.setWidth 16) addr m)

/-! ### Operands -/

section

variable (m : Memory) (cwd : BitVec 32) (t : TempReal) (addr : Addr)

def getShortReal : TempReal := shortToTemp (getFsLong m addr)

def getLongReal : TempReal := longToTemp ⟨getFsLong m addr, getFsLong m (addr + 4)⟩

def getTempReal : TempReal := ⟨getFsLonglong m addr, getFsWord m (addr + 8)⟩

/-- A magnitude of one word, and its sign. -/
def TempInt.ofLong (a : BitVec 32) : TempInt :=
  ⟨(0 : BitVec 32) ++ (if a.msb then -a else a), a.msb⟩

def getShortInt : Option TempReal := intToReal (.ofLong ((getFsWord m addr).signExtend 32))

def getLongInt : Option TempReal := intToReal (.ofLong (getFsLong m addr))

def getLonglongInt : Option TempReal :=
  let n := getFsLonglong m addr
  intToReal ⟨if n.msb then ~~~n + 1 else n, n.msb⟩

/-- `MUL10`. -/
def mul10 (n : BitVec 64) : BitVec 64 :=
  let two := n + n
  let four := two + two
  four + four + two

/-- The loop of `get_BCD`, with `k` bytes left. -/
def getBCDLoop : ℕ → Addr → BitVec 64 → BitVec 64
  | 0, _, i => i
  | k + 1, addr, i =>
    let c := getFsByte m addr
    getBCDLoop k (addr - 1)
      (mul10 (mul10 i + (c >>> 4).setWidth 64) + (c &&& 0xf).setWidth 64)

def getBCD : Option TempReal :=
  intToReal ⟨getBCDLoop m 9 (addr + 9 - 1) 0, 0x80 &&& getFsByte m (addr + 9) ≠ 0⟩

def putShortReal : Memory := putFsLong (tempToShort cwd t) addr m

def putLongReal : Memory :=
  let d := tempToLong cwd t
  putFsLong d.b (addr + 4) (putFsLong d.a addr m)

def putTempReal : Memory :=
  putFsWord t.exponent (addr + 8) (putFsLong t.b (addr + 4) (putFsLong t.a addr m))

/-- `ti.a`, negated when the number is. -/
def TempInt.toLong (i : TempInt) : BitVec 32 :=
  if i.sign then -(i.magnitude.setWidth 32) else i.magnitude.setWidth 32

def putShortInt : Memory := putFsWord ((realToInt cwd t).1.toLong.setWidth 16) addr m

def putLongInt : Memory := putFsLong (realToInt cwd t).1.toLong addr m

def putLonglongInt : Memory :=
  let i := (realToInt cwd t).1
  let n := if i.sign then ~~~i.magnitude + 1 else i.magnitude
  putFsLong ((n >>> 32).setWidth 32) (addr + 4) (putFsLong (n.setWidth 32) addr m)

/-- `divl`, by ten: quotient and rest. -/
def divl (high low : BitVec 32) : BitVec 32 × BitVec 32 :=
  let n := high.toNat * 2 ^ 32 + low.toNat
  (BitVec.ofNat 32 (n / 10), BitVec.ofNat 32 (n % 10))

/-- `DIV10`. -/
def div10 (n : BitVec 64) : BitVec 64 × BitVec 32 :=
  let (high, rest) := divl 0 ((n >>> 32).setWidth 32)
  let (low, rem) := divl rest (n.setWidth 32)
  (high ++ low, rem)

/-- The loop of `put_BCD`, with `k` bytes left. -/
def putBCDLoop : ℕ → BitVec 64 → Addr → Memory → Memory
  | 0, _, _, m => m
  | k + 1, i, addr, m =>
    let (i, rem) := div10 i
    let c := rem.setWidth 8
    let (i, rem) := div10 i
    let c := c + (rem <<< 4).setWidth 8
    putBCDLoop k i (addr + 1) (putFsByte c addr m)

def putBCD : Memory :=
  let i := (realToInt cwd t).1
  putBCDLoop 9 i.magnitude addr (putFsByte (if i.sign then 0x80 else 0) (addr + 9) m)

end

/-! ### Stores and loads -/

theorem putFsByte_apart {v : BitVec 8} {a x : Addr} (m : Memory) (h : x ≠ a) :
    putFsByte v a m x = m x := by
  rw [putFsByte, Function.update_of_ne h]

theorem putFsWord_apart {v : BitVec 16} {a x : Addr} (m : Memory) (h : 2 ≤ (x - a).toNat) :
    putFsWord v a m x = m x := by
  have hself : x ≠ a := by bv_omega
  have hnext : x ≠ a + 1 := by bv_omega
  rw [putFsWord, putFsByte_apart _ hnext, putFsByte_apart _ hself]

theorem putFsLong_apart {v : BitVec 32} {a x : Addr} (m : Memory) (h : 4 ≤ (x - a).toNat) :
    putFsLong v a m x = m x := by
  rw [putFsLong, putFsWord_apart _ (by bv_omega), putFsWord_apart _ (by omega)]

theorem getFsWord_putFsWord (v : BitVec 16) (a : Addr) (m : Memory) :
    getFsWord (putFsWord v a m) a = v := by
  have hne : a ≠ a + 1 := by bv_omega
  rw [getFsWord, putFsWord, putFsByte, putFsByte, Function.update_self, Function.update_of_ne hne,
    Function.update_self]
  refine BitVec.eq_of_toNat_eq ?_
  rw [BitVec.toNat_append, ← Nat.shiftLeft_add_eq_or_of_lt (BitVec.isLt _), Nat.shiftLeft_eq]
  simp only [BitVec.toNat_setWidth, BitVec.toNat_ushiftRight, Nat.shiftRight_eq_div_pow]
  omega

theorem getFsWord_congr {m m' : Memory} {a : Addr} (h : m' a = m a) (h' : m' (a + 1) = m (a + 1)) :
    getFsWord m' a = getFsWord m a := by
  rw [getFsWord, getFsWord, h, h']

theorem getFsLong_putFsLong (v : BitVec 32) (a : Addr) (m : Memory) :
    getFsLong (putFsLong v a m) a = v := by
  have hlow : getFsWord (putFsLong v a m) a = v.setWidth 16 := by
    rw [← getFsWord_putFsWord (v.setWidth 16) a m, putFsLong]
    refine getFsWord_congr (putFsWord_apart _ ?_) (putFsWord_apart _ ?_) <;> bv_omega
  have hhigh : getFsWord (putFsLong v a m) (a + 2) = (v >>> 16).setWidth 16 :=
    getFsWord_putFsWord _ _ _
  rw [getFsLong, hlow, hhigh]
  refine BitVec.eq_of_toNat_eq ?_
  rw [BitVec.toNat_append, ← Nat.shiftLeft_add_eq_or_of_lt (BitVec.isLt _), Nat.shiftLeft_eq]
  simp only [BitVec.toNat_setWidth, BitVec.toNat_ushiftRight, Nat.shiftRight_eq_div_pow]
  omega

/-- A store above a long leaves it alone. -/
theorem getFsLong_above (v : BitVec 32) (a : Addr) (m : Memory) :
    getFsLong (putFsLong v (a + 4) m) a = getFsLong m a := by
  have hlow : getFsWord (putFsLong v (a + 4) m) a = getFsWord m a := by
    refine getFsWord_congr (putFsLong_apart _ ?_) (putFsLong_apart _ ?_) <;> bv_omega
  have hhigh : getFsWord (putFsLong v (a + 4) m) (a + 2) = getFsWord m (a + 2) := by
    refine getFsWord_congr (putFsLong_apart _ ?_) (putFsLong_apart _ ?_) <;> bv_omega
  rw [getFsLong, hlow, hhigh, getFsLong]

/-! ### Integers -/

/-- A magnitude is shifted up, and the exponent says by how much. -/
structure Loaded (i : TempInt) (t : TempReal) (k : ℕ) : Prop where
  small : k ≤ 63
  mantissa : t.mantissa.toNat = i.magnitude.toNat * 2 ^ k
  exp : t.exp = 16446 - k
  neg : t.neg = i.sign

theorem intToReal_spec (i : TempInt) (h : i.magnitude ≠ 0) :
    ∃ t k, intToReal i = some t ∧ Loaded i t k := by
  have hpos : 0 < i.magnitude.toNat := by
    have hne := mt BitVec.toNat_inj.mp h
    exact Nat.pos_of_ne_zero hne
  obtain ⟨k, hk, t, ht, hm, he⟩ := shiftUp_spec 63
    ⟨i.magnitude, 16383 + 63 + if i.sign then 0x8000 else 0⟩ (Nat.le_mul_of_pos_left _ hpos)
  have hexp : t.exponent.toNat = 16446 - k + if i.sign then 2 ^ 15 else 0 := by
    rw [he]
    cases i.sign <;> simp only [Bool.false_eq_true, if_true, if_false] <;> bv_omega
  obtain ⟨hexp', hneg⟩ := of_exponent t (by omega) hexp
  exact ⟨t, k, (if_neg h).trans ht, hk, hm, hexp', hneg⟩

theorem Loaded.value {i : TempInt} {t : TempReal} {k : ℕ} (h : Loaded i t k) :
    t.value = i.value := by
  have hscale : (2 : ℚ) ^ k * 2 ^ ((t.exp : ℤ) - 16446) = 1 := by
    have hsmall := h.small
    have hzero : (k : ℤ) + ((t.exp : ℤ) - 16446) = 0 := by
      rw [h.exp]
      omega
    rw [← zpow_natCast, ← zpow_add₀ two_ne_zero, hzero, zpow_zero]
  rw [TempReal.value, TempInt.value, h.neg, h.mantissa]
  push_cast
  rw [mul_assoc, hscale, mul_one]

/-- In every rounding mode, the integer is found again. -/
theorem Loaded.realToInt {i : TempInt} {t : TempReal} {k : ℕ} (h : Loaded i t k)
    (cwd : BitVec 32) : (realToInt cwd t).1 = i := by
  have hshift : intShift t = k := by
    have hsmall := h.small
    rw [intShift, h.exp]
    omega
  have hq : t.mantissa.toNat / 2 ^ intShift t = i.magnitude.toNat := by
    rw [hshift, h.mantissa, Nat.mul_div_cancel _ (Nat.two_pow_pos k)]
  have hu : underflow t = 0 := by
    rw [underflow, hshift, h.mantissa, Nat.mul_right_comm, Nat.mul_div_cancel _ (Nat.two_pow_pos k),
      Nat.mul_mod_left]
  have hrange : t.exp ≤ 16446 := by
    rw [h.exp]
    exact Nat.sub_le _ _
  rw [realToInt_eq cwd t hrange, intInc_exact cwd t hu, add_no_inc, hq, h.neg, BitVec.ofNat_toNat,
    BitVec.setWidth_eq]

/-- An integer is loaded as it is, and found again in every rounding mode; zero has no sign. -/
theorem intToReal_exact (i : TempInt) : ∃ t, intToReal i = some t ∧ t.value = i.value ∧
    ∀ cwd, (realToInt cwd t).1 = ⟨i.magnitude, i.sign && decide (i.magnitude ≠ 0)⟩ := by
  by_cases h : i.magnitude = 0
  · have hvalue : (⟨0, 0⟩ : TempReal).value = 0 := by simp [TempReal.value, signed]
    refine ⟨⟨0, 0⟩, if_pos h, ?_, fun cwd => ?_⟩
    · rw [hvalue, TempInt.value, h, signed]
      simp
    · rw [h, decide_eq_false (not_not_intro rfl), Bool.and_false]
      rfl
  · obtain ⟨t, k, ht, hloaded⟩ := intToReal_spec i h
    refine ⟨t, ht, hloaded.value, fun cwd => ?_⟩
    rw [hloaded.realToInt cwd, decide_eq_true h, Bool.and_true]

theorem signed_natAbs {w : ℕ} (x : BitVec w) :
    signed x.msb (((if x.msb then -x else x).toNat : ℕ) : ℚ) = (x.toInt : ℚ) := by
  have hlt := x.isLt
  rw [signed]
  cases hs : x.msb with
  | false =>
    rw [BitVec.toInt_eq_msb_cond, hs]
    simp
  | true =>
    have hpos : 0 < x.toNat := by
      rw [BitVec.msb_eq_decide, decide_eq_true_iff] at hs
      exact Nat.lt_of_lt_of_le (Nat.two_pow_pos _) hs
    have hneg : (-x).toNat = 2 ^ w - x.toNat := by
      rw [BitVec.toNat_neg, Nat.mod_eq_of_lt (by omega)]
    rw [BitVec.toInt_eq_msb_cond, hs, if_pos rfl, if_pos rfl, if_pos rfl, hneg,
      Nat.cast_sub hlt.le]
    push_cast
    ring

/-- A magnitude is zero when the number is. -/
theorem magnitude_zero {w : ℕ} {x : BitVec w} (h : (if x.msb then -x else x) = 0) :
    x.msb = false := by
  cases hs : x.msb with
  | false => rfl
  | true =>
    rw [hs, if_pos rfl] at h
    have hx : x = 0 := by
      rw [← BitVec.neg_neg (x := x), h]
      exact BitVec.neg_zero w
    rw [hx] at hs
    exact absurd hs (by simp)

section

variable (m : Memory) (addr : Addr)

theorem ofLong_value (a : BitVec 32) : (TempInt.ofLong a).value = (a.toInt : ℚ) := by
  have hnat : (TempInt.ofLong a).magnitude.toNat = (if a.msb then -a else a).toNat := by
    refine (append_toNat _ _).trans ?_
    rw [show (0 : BitVec 32).toNat = 0 from rfl, Nat.zero_mul, Nat.zero_add]
  rw [TempInt.value, hnat]
  exact signed_natAbs a

/-- A long is stored as it was loaded. -/
theorem toLong_ofLong (a : BitVec 32) (i : TempInt)
    (hm : i.magnitude = (TempInt.ofLong a).magnitude)
    (hs : i.sign = ((TempInt.ofLong a).sign && decide ((TempInt.ofLong a).magnitude ≠ 0))) :
    i.toLong = a := by
  have hlow : i.magnitude.setWidth 32 = if a.msb then -a else a := by
    rw [hm]
    exact BitVec.setWidth_append_eq_right
  have hsign : i.sign = a.msb := by
    rw [hs]
    by_cases hzero : (TempInt.ofLong a).magnitude = 0
    · have hmag : (if a.msb then -a else a) = 0 := by
        rw [← hlow, hm, hzero]
        rfl
      rw [decide_eq_false (not_not_intro hzero), Bool.and_false, magnitude_zero hmag]
    · rw [decide_eq_true hzero, Bool.and_true]
      rfl
  rw [TempInt.toLong, hlow, hsign]
  split
  case isTrue => exact BitVec.neg_neg
  case isFalse => rfl

theorem short_int_survives : ∃ t, getShortInt m addr = some t ∧
    t.value = ((getFsWord m addr).toInt : ℚ) ∧
    ∀ cwd m' dest, getFsWord (putShortInt m' cwd t dest) dest = getFsWord m addr := by
  obtain ⟨t, ht, hvalue, hback⟩ := intToReal_exact (.ofLong ((getFsWord m addr).signExtend 32))
  refine ⟨t, ht, ?_, fun cwd m' dest => ?_⟩
  · rw [hvalue, ofLong_value, BitVec.toInt_signExtend_of_le (by decide)]
  · have hlong := toLong_ofLong _ (realToInt cwd t).1 (by rw [hback]) (by rw [hback])
    rw [putShortInt, getFsWord_putFsWord, hlong]
    refine BitVec.eq_of_toNat_eq ?_
    have hlt := (getFsWord m addr).isLt
    rw [BitVec.toNat_setWidth, BitVec.toNat_signExtend, BitVec.toNat_setWidth]
    split <;> omega

theorem long_int_survives : ∃ t, getLongInt m addr = some t ∧
    t.value = ((getFsLong m addr).toInt : ℚ) ∧
    ∀ cwd m' dest, getFsLong (putLongInt m' cwd t dest) dest = getFsLong m addr := by
  obtain ⟨t, ht, hvalue, hback⟩ := intToReal_exact (.ofLong (getFsLong m addr))
  refine ⟨t, ht, hvalue.trans (ofLong_value _), fun cwd m' dest => ?_⟩
  have hlong := toLong_ofLong _ (realToInt cwd t).1 (by rw [hback]) (by rw [hback])
  rw [putLongInt, getFsLong_putFsLong, hlong]

theorem longlong_int_survives : ∃ t, getLonglongInt m addr = some t ∧
    t.value = ((getFsLonglong m addr).toInt : ℚ) ∧
    ∀ cwd m' dest, getFsLonglong (putLonglongInt m' cwd t dest) dest = getFsLonglong m addr := by
  obtain ⟨n, hn⟩ : ∃ n, n = getFsLonglong m addr := ⟨_, rfl⟩
  have hload : getLonglongInt m addr = intToReal ⟨if n.msb then -n else n, n.msb⟩ := by
    rw [hn, BitVec.neg_eq_not_add]
    rfl
  obtain ⟨t, ht, hvalue, hback⟩ := intToReal_exact ⟨if n.msb then -n else n, n.msb⟩
  refine ⟨t, hload.trans ht, ?_, fun cwd m' dest => ?_⟩
  · rw [hvalue, TempInt.value, signed_natAbs, hn]
  · have hsign : (n.msb && decide ((if n.msb then -n else n) ≠ 0)) = n.msb := by
      by_cases hzero : (if n.msb then -n else n) = 0
      · rw [decide_eq_false (not_not_intro hzero), Bool.and_false, magnitude_zero hzero]
      · rw [decide_eq_true hzero, Bool.and_true]
    have hmag : (if n.msb then ~~~(if n.msb then -n else n) + 1 else if n.msb then -n else n) =
        n := by
      split
      case isTrue => exact (BitVec.neg_eq_not_add (-n)).symm.trans BitVec.neg_neg
      case isFalse => rfl
    rw [putLonglongInt, hback]
    dsimp only
    rw [hsign, hmag, ← hn, getFsLonglong, getFsLong_putFsLong, getFsLong_above,
      getFsLong_putFsLong]
    exact bits_ofBits n

end

/-! ### Decimals -/

/-- Two digits. -/
def digits (c : BitVec 8) : ℕ := c.toNat / 16 * 10 + c.toNat % 16

/-- Both of them are below ten. -/
def IsDecimal (c : BitVec 8) : Prop := c.toNat / 16 < 10 ∧ c.toNat % 16 < 10

/-- The number that `k` bytes from `addr` on stand for. -/
def decimal (m : Memory) : ℕ → Addr → ℕ
  | 0, _ => 0
  | k + 1, addr => digits (m addr) + 100 * decimal m k (addr + 1)

theorem add_ofNat_succ (addr : Addr) (k : ℕ) :
    addr + BitVec.ofNat 32 (k + 1) = addr + 1 + BitVec.ofNat 32 k := by
  rw [BitVec.add_assoc, BitVec.ofNat_add, BitVec.add_comm (BitVec.ofNat 32 k)]
  rfl

theorem decimal_succ (m : Memory) (k : ℕ) (addr : Addr) : decimal m (k + 1) addr =
    decimal m k addr + digits (m (addr + BitVec.ofNat 32 k)) * 100 ^ k := by
  induction k generalizing addr with
  | zero =>
    have hself : addr + BitVec.ofNat 32 0 = addr := BitVec.add_zero addr
    rw [hself]
    simp [decimal]
  | succ k ih =>
    rw [decimal, ih (addr + 1), decimal, add_ofNat_succ, Nat.pow_succ']
    ring

theorem mul10_toNat {n : BitVec 64} (h : n.toNat * 10 < 2 ^ 64) :
    (mul10 n).toNat = n.toNat * 10 := by
  rw [mul10]
  simp only [BitVec.toNat_add]
  omega

/-- A byte is taken in. -/
theorem take_digits {i : BitVec 64} {c : BitVec 8} (h : i.toNat * 100 + 200 < 2 ^ 64) :
    (mul10 (mul10 i + (c >>> 4).setWidth 64) + (c &&& 0xf).setWidth 64).toNat =
      i.toNat * 100 + digits c := by
  have hc := c.isLt
  have hhigh : ((c >>> 4).setWidth 64).toNat = c.toNat / 16 := by
    rw [BitVec.toNat_setWidth, BitVec.toNat_ushiftRight, Nat.shiftRight_eq_div_pow]
    omega
  have hlow : ((c &&& 0xf).setWidth 64).toNat = c.toNat % 16 := by
    rw [BitVec.toNat_setWidth, mask_toNat _ _ 4 rfl]
    omega
  have hsum : (mul10 i + (c >>> 4).setWidth 64).toNat = i.toNat * 10 + c.toNat / 16 := by
    rw [BitVec.toNat_add, mul10_toNat (by omega), hhigh]
    omega
  rw [BitVec.toNat_add, mul10_toNat (by omega), hsum, hlow, digits]
  omega

/-- The digits are taken in from the upper ones on. -/
theorem getBCDLoop_toNat (m : Memory) (k : ℕ) (addr : Addr) (i : BitVec 64)
    (hdigits : ∀ j < k, IsDecimal (m (addr + BitVec.ofNat 32 j)))
    (hfit : (i.toNat + 1) * 100 ^ k ≤ 10 ^ 18) :
    (getBCDLoop m k (addr + BitVec.ofNat 32 k - 1) i).toNat =
      i.toNat * 100 ^ k + decimal m k addr := by
  induction k generalizing i with
  | zero => simp [getBCDLoop, decimal]
  | succ k ih =>
    have hlast : addr + BitVec.ofNat 32 (k + 1) - 1 = addr + BitVec.ofNat 32 k := by
      rw [BitVec.ofNat_add, ← BitVec.add_assoc]
      exact BitVec.add_sub_cancel _ _
    have hmore : (i.toNat + 1) * 100 ≤ 10 ^ 18 := by
      refine Nat.le_trans (Nat.mul_le_mul_left _ ?_) hfit
      rw [Nat.pow_succ]
      exact Nat.le_mul_of_pos_left 100 (Nat.pos_of_ne_zero (by simp))
    obtain ⟨hten, hten'⟩ := hdigits k (Nat.lt_succ_self k)
    have htaken := take_digits (i := i) (c := m (addr + BitVec.ofNat 32 k)) (by omega)
    have hlt : digits (m (addr + BitVec.ofNat 32 k)) < 100 := by
      rw [digits]
      omega
    rw [getBCDLoop, hlast]
    dsimp only [getFsByte]
    rw [ih _ (fun j hj => hdigits j (Nat.lt_succ_of_lt hj)), htaken, decimal_succ, Nat.pow_succ]
    · ring
    · rw [htaken]
      refine Nat.le_trans ?_ hfit
      rw [Nat.pow_succ', ← Nat.mul_assoc]
      exact Nat.mul_le_mul_right _ (by omega)

theorem divl_toNat (high low : BitVec 32) (h : high.toNat < 10) :
    (divl high low).1.toNat = (high.toNat * 2 ^ 32 + low.toNat) / 10 ∧
      (divl high low).2.toNat = (high.toNat * 2 ^ 32 + low.toNat) % 10 := by
  have hlow := low.isLt
  rw [divl]
  dsimp only
  rw [BitVec.toNat_ofNat, BitVec.toNat_ofNat]
  omega

/-- Two divisions by ten of one word are one of two words. -/
theorem div10_toNat (n : BitVec 64) :
    (div10 n).1.toNat = n.toNat / 10 ∧ (div10 n).2.toNat = n.toNat % 10 := by
  have hn := n.isLt
  have hhigh : ((n >>> 32).setWidth 32).toNat = n.toNat / 2 ^ 32 := by
    rw [BitVec.toNat_setWidth, BitVec.toNat_ushiftRight, Nat.shiftRight_eq_div_pow]
    omega
  have hlow : (n.setWidth 32).toNat = n.toNat % 2 ^ 32 := BitVec.toNat_setWidth _ _
  obtain ⟨hq, hr⟩ := divl_toNat 0 ((n >>> 32).setWidth 32) (by decide)
  rw [show (0 : BitVec 32).toNat = 0 from rfl, Nat.zero_mul, Nat.zero_add, hhigh] at hq hr
  obtain ⟨hq', hr'⟩ := divl_toNat (divl 0 ((n >>> 32).setWidth 32)).2 (n.setWidth 32)
    (by rw [hr]; omega)
  rw [hr, hlow] at hq' hr'
  rw [div10]
  dsimp only
  rw [append_toNat, hq, hq', hr']
  omega

/-- The byte of `put_BCD`. -/
theorem pack_digits (n : BitVec 64) :
    digits ((div10 n).2.setWidth 8 + ((div10 (div10 n).1).2 <<< 4).setWidth 8) = n.toNat % 100 ∧
      IsDecimal ((div10 n).2.setWidth 8 + ((div10 (div10 n).1).2 <<< 4).setWidth 8) ∧
      (div10 (div10 n).1).1.toNat = n.toNat / 100 := by
  obtain ⟨hq, hr⟩ := div10_toNat n
  obtain ⟨hq', hr'⟩ := div10_toNat (div10 n).1
  have hlow : ((div10 n).2.setWidth 8).toNat = n.toNat % 10 := by
    rw [BitVec.toNat_setWidth, hr]
    omega
  have hhigh : (((div10 (div10 n).1).2 <<< 4).setWidth 8).toNat = n.toNat / 10 % 10 * 16 := by
    rw [BitVec.toNat_setWidth, BitVec.toNat_shiftLeft, Nat.shiftLeft_eq, hr', hq]
    omega
  have hbyte : ((div10 n).2.setWidth 8 + ((div10 (div10 n).1).2 <<< 4).setWidth 8).toNat =
      n.toNat % 10 + n.toNat / 10 % 10 * 16 := by
    rw [BitVec.toNat_add, hlow, hhigh]
    omega
  refine ⟨?_, ?_, by omega⟩
  · rw [digits, hbyte]
    omega
  · rw [IsDecimal, hbyte]
    omega

/-- Stores of the loop are at the `k` bytes from `addr` on. -/
theorem putBCDLoop_apart (k : ℕ) (i : BitVec 64) (addr x : Addr) (m : Memory)
    (hk : k ≤ 9) (h : k ≤ (x - addr).toNat) : putBCDLoop k i addr m x = m x := by
  induction k generalizing i addr m with
  | zero => rfl
  | succ k ih =>
    rw [putBCDLoop]
    dsimp only
    rw [ih _ _ _ (by omega) (by bv_omega), putFsByte_apart _ (by bv_omega)]

/-- The digits that are stored are those of the number. -/
theorem putBCDLoop_digits (k : ℕ) (i : BitVec 64) (addr : Addr) (m : Memory) (hk : k ≤ 9) :
    decimal (putBCDLoop k i addr m) k addr = i.toNat % 100 ^ k ∧
      ∀ j < k, IsDecimal (putBCDLoop k i addr m (addr + BitVec.ofNat 32 j)) := by
  induction k generalizing i addr m with
  | zero => exact ⟨(Nat.mod_one _).symm, nofun⟩
  | succ k ih =>
    obtain ⟨hdigits, hdecimal, hquot⟩ := pack_digits i
    rw [putBCDLoop]
    dsimp only
    obtain ⟨c, hc⟩ : ∃ c, c =
        (div10 i).2.setWidth 8 + ((div10 (div10 i).1).2 <<< 4).setWidth 8 := ⟨_, rfl⟩
    rw [← hc] at hdigits hdecimal ⊢
    obtain ⟨hrest, hall⟩ := ih (div10 (div10 i).1).1 (addr + 1) (putFsByte c addr m) (by omega)
    -- the bytes above do not touch this one
    have hbyte : putBCDLoop k (div10 (div10 i).1).1 (addr + 1) (putFsByte c addr m) addr = c := by
      rw [putBCDLoop_apart k _ _ _ _ (by omega) (by bv_omega), putFsByte, Function.update_self]
    constructor
    · rw [decimal, hbyte, hrest, hdigits, hquot, Nat.pow_succ', Nat.mod_mul]
    · intro j hj
      cases j with
      | zero =>
        have hself : addr + BitVec.ofNat 32 0 = addr := BitVec.add_zero addr
        rw [hself, hbyte]
        exact hdecimal
      | succ j =>
        rw [add_ofNat_succ]
        exact hall j (Nat.lt_of_succ_lt_succ hj)

/-- Eighteen valid digits. -/
def ValidBCD (m : Memory) (addr : Addr) : Prop :=
  ∀ j < 9, IsDecimal (m (addr + BitVec.ofNat 32 j))

/-- The packed decimal at `addr`. -/
def bcdValue (m : Memory) (addr : Addr) : ℤ :=
  if (m (addr + 9)).msb then -decimal m 9 addr else decimal m 9 addr

theorem decimal_lt {m : Memory} {k : ℕ} {addr : Addr}
    (h : ∀ j < k, IsDecimal (m (addr + BitVec.ofNat 32 j))) : decimal m k addr < 100 ^ k := by
  induction k with
  | zero => exact Nat.one_pos
  | succ k ih =>
    obtain ⟨hten, hten'⟩ := h k (Nat.lt_succ_self k)
    have hlt := ih fun j hj => h j (Nat.lt_succ_of_lt hj)
    have hdigits : digits (m (addr + BitVec.ofNat 32 k)) ≤ 99 := by
      rw [digits]
      omega
    have hmul := Nat.mul_le_mul_right (100 ^ k) hdigits
    rw [decimal_succ, Nat.pow_succ']
    omega

theorem sign_bit : ∀ c : BitVec 8, decide (0x80 &&& c ≠ 0) = c.msb := by decide

theorem bcd_survives {m : Memory} {addr : Addr} (h : ValidBCD m addr) :
    ∃ t, getBCD m addr = some t ∧ t.value = (bcdValue m addr : ℚ) ∧
      ∀ cwd m' dest, ValidBCD (putBCD m' cwd t dest) dest ∧
        bcdValue (putBCD m' cwd t dest) dest = bcdValue m addr := by
  obtain ⟨n, hn⟩ : ∃ n, n = getBCDLoop m 9 (addr + 9 - 1) 0 := ⟨_, rfl⟩
  have hnat : n.toNat = decimal m 9 addr := by
    have hloop := getBCDLoop_toNat m 9 addr 0 h (by decide)
    rw [show (0 : BitVec 64).toNat = 0 from rfl, Nat.zero_mul, Nat.zero_add] at hloop
    rw [hn]
    exact hloop
  have hload : getBCD m addr = intToReal ⟨n, (m (addr + 9)).msb⟩ := by
    rw [hn, ← sign_bit]
    rfl
  obtain ⟨t, ht, hvalue, hback⟩ := intToReal_exact ⟨n, (m (addr + 9)).msb⟩
  refine ⟨t, hload.trans ht, ?_, fun cwd m' dest => ?_⟩
  · rw [hvalue, TempInt.value, signed, hnat, bcdValue]
    split <;> push_cast <;> rfl
  · obtain ⟨sign, hsign⟩ : ∃ sign, sign = ((m (addr + 9)).msb && decide (n ≠ 0)) := ⟨_, rfl⟩
    have hput : putBCD m' cwd t dest =
        putBCDLoop 9 n dest (putFsByte (if sign then 0x80 else 0) (dest + 9) m') := by
      rw [putBCD, hback, hsign]
    obtain ⟨hdecimal, hvalid⟩ := putBCDLoop_digits 9 n dest
      (putFsByte (if sign then 0x80 else 0) (dest + 9) m') (Nat.le_refl 9)
    have hbyte : putBCDLoop 9 n dest (putFsByte (if sign then 0x80 else 0) (dest + 9) m')
        (dest + 9) = if sign then 0x80 else 0 := by
      rw [putBCDLoop_apart 9 _ _ _ _ (Nat.le_refl 9) (by bv_omega), putFsByte, Function.update_self]
    have hmsb : (if sign then 0x80 else 0 : BitVec 8).msb = sign := by
      cases sign <;> rfl
    rw [hput]
    refine ⟨hvalid, ?_⟩
    rw [bcdValue, hbyte, hmsb, hdecimal, hnat, Nat.mod_eq_of_lt (decimal_lt h), bcdValue, hsign]
    -- zero has no sign
    by_cases hzero : n = 0
    · have hnone : decimal m 9 addr = 0 := by
        rw [← hnat, hzero]
        rfl
      rw [hnone]
      simp
    · rw [decide_eq_true hzero, Bool.and_true]

/-- Integers and decimals are loaded as they are, and stored as they were loaded, in every rounding
mode. -/
theorem integers_survive (m : Memory) (addr : Addr) :
    (∃ t, getShortInt m addr = some t ∧ t.value = ((getFsWord m addr).toInt : ℚ) ∧
      ∀ cwd m' dest, getFsWord (putShortInt m' cwd t dest) dest = getFsWord m addr) ∧
    (∃ t, getLongInt m addr = some t ∧ t.value = ((getFsLong m addr).toInt : ℚ) ∧
      ∀ cwd m' dest, getFsLong (putLongInt m' cwd t dest) dest = getFsLong m addr) ∧
    (∃ t, getLonglongInt m addr = some t ∧ t.value = ((getFsLonglong m addr).toInt : ℚ) ∧
      ∀ cwd m' dest, getFsLonglong (putLonglongInt m' cwd t dest) dest = getFsLonglong m addr) ∧
    (ValidBCD m addr → ∃ t, getBCD m addr = some t ∧ t.value = (bcdValue m addr : ℚ) ∧
      ∀ cwd m' dest, ValidBCD (putBCD m' cwd t dest) dest ∧
        bcdValue (putBCD m' cwd t dest) dest = bcdValue m addr) :=
  ⟨short_int_survives m addr, long_int_survives m addr, longlong_int_survives m addr, bcd_survives⟩

/-- A packed decimal, at the start of memory. -/
def minus42 : Memory := fun addr => if addr = 0 then 0x42 else if addr = 9 then 0x80 else 0

theorem isDecimal_minus42 (addr : Addr) : IsDecimal (minus42 addr) := by
  rw [minus42]
  split
  case isTrue => exact ⟨by decide, by decide⟩
  case isFalse => split <;> exact ⟨by decide, by decide⟩

theorem integers_survive_minus42 : ∃ t, getBCD minus42 0 = some t ∧ t.value = -42 ∧
    ∀ cwd m' dest, bcdValue (putBCD m' cwd t dest) dest = -42 := by
  have hnumber : bcdValue minus42 0 = -42 := by decide
  obtain ⟨t, ht, hvalue, hback⟩ := (integers_survive minus42 0).2.2.2 fun _ _ => isDecimal_minus42 _
  refine ⟨t, ht, ?_, fun cwd m' dest => (hback cwd m' dest).2.trans hnumber⟩
  rw [hvalue, hnumber]
  norm_num

end MathEmu
