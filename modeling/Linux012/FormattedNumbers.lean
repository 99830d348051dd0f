/-
Numbers that are printed (`number` of kernel/vsprintf.c).

* `countDown_eq`, `doDiv_eq` — what the loops write;
* `integerText` — a field with its sign, prefix, digits and padding;
* `number_eq` — `number` writes that field, as long as its counter does not run over;
* `integerText_length`, `readInt_integerText` — its width, and what it is read as.
-/
import Linux012.Vsprintf
import Mathlib.Tactic.Linarith

open Numerals

namespace Printf

/-! ### Integers -/

theorem int_eq {n : ℤ} (h : -2 ^ 31 ≤ n ∧ n < 2 ^ 31) : int n = n := by
  rw [int]
  exact Int.bmod_eq_of_le (by omega) (by omega)

theorem int_int_sub (n m : ℤ) : int (int n - m) = int (n - m) := Int.bmod_sub_bmod ..

/-! ### Loops -/

theorem countDown_eq (c : Char) (k : ℕ) (n : ℤ) :
    countDown c k n = (List.replicate k c, int (n - k - 1)) := by
  induction k generalizing n with
  | zero =>
    rw [countDown]
    simp
  | succ k ih =>
    have hcount : int (n - 1) - k - 1 = int (n - 1) - (k + 1) := by ring
    rw [countDown, ih, List.replicate_succ, hcount, int_int_sub]
    dsimp only
    push_cast
    congr 2
    ring

theorem fill_eq (c : Char) (bound n : ℤ) :
    fill c bound n = (List.replicate (n - bound).toNat c, int (n - (n - bound).toNat - 1)) :=
  countDown_eq c _ n

theorem doDiv_eq (small : Bool) {base : ℕ} (hb : 1 < base) {room num : ℕ} (h : num < base ^ room) :
    doDiv small base room num = (Nat.digits base num).map (digitChar small) := by
  induction room generalizing num with
  | zero =>
    have hzero : num = 0 := by simpa using h
    rw [doDiv, hzero, Nat.digits_zero, List.map_nil]
  | succ room ih =>
    rw [doDiv]
    split
    case isTrue hzero => rw [hzero, Nat.digits_zero, List.map_nil]
    case isFalse hne =>
      have hdiv : num / base < base ^ room := by
        rw [Nat.div_lt_iff_lt_mul (by omega), ← Nat.pow_succ]
        exact h
      rw [ih hdiv, Nat.digits_def' hb (Nat.pos_of_ne_zero hne), List.map_cons]

theorem doDiv_length (small : Bool) (base room num : ℕ) :
    (doDiv small base room num).length ≤ room := by
  induction room generalizing num with
  | zero => rfl
  | succ room ih =>
    rw [doDiv]
    split
    case isTrue => exact Nat.zero_le _
    case isFalse => exact Nat.succ_le_succ (ih _)

/-! ### Fields -/

def signText (negative plus space : Bool) : List Char :=
  if negative then ['-'] else if plus then ['+'] else if space then [' '] else []

def prefixText (special small : Bool) (base : ℕ) : List Char :=
  if special then if base = 8 then ['0'] else if base = 16 then ['0', digitChar small 33] else []
  else []

/-- The digits of a number, at least `p` of them. -/
def digitsText (small : Bool) (base p n : ℕ) : List Char :=
  List.replicate (p - (numeral small base n).length) '0' ++ numeral small base n

/-- A field of width `w` or more: padded after the digits, between sign and digits, or before. -/
def integerText (sign pre digits : List Char) (w : ℕ) (left zero : Bool) : List Char :=
  let missing := w - (sign.length + pre.length + digits.length)
  if left then sign ++ pre ++ digits ++ List.replicate missing ' '
  else if zero then sign ++ pre ++ List.replicate missing '0' ++ digits
  else List.replicate missing ' ' ++ sign ++ pre ++ digits

variable {num : BitVec 32} {base : ℕ} {size precision : ℤ} {type : Flags}

theorem signText_length (negative plus space : Bool) :
    (signText negative plus space).length ≤ 1 := by
  cases negative <;> cases plus <;> cases space <;> decide

theorem fill_zero (c : Char) {n : ℤ} (h : -2 ^ 31 < n) :
    fill c 0 n = (List.replicate n.toNat c, min (n - 1) (-1)) := by
  have hcount : n - ((n - 0).toNat : ℤ) - 1 = min (n - 1) (-1) := by omega
  rw [fill_eq, hcount, Int.sub_zero, int_eq (by omega)]

/-- A counter that has run out does not come up again. -/
theorem fill_none (c : Char) {n : ℤ} (h : -2 ^ 31 < n ∧ n ≤ 0) : fill c 0 n = ([], n - 1) := by
  have hcount : min (n - 1) (-1) = n - 1 := by omega
  rw [fill_zero c h.1, Int.toNat_eq_zero.mpr h.2, hcount]
  rfl

/-- The padding is written once, wherever it belongs. -/
theorem writeNumber_eq (type : Flags) (c : Char) (sign pre tmp : List Char) {size precision : ℤ}
    (hsize : -2 ^ 31 + 2 ≤ size) :
    writeNumber type c sign pre tmp size precision =
      let digits := List.replicate (precision - tmp.length).toNat '0' ++ tmp.reverse
      if type.left then sign ++ pre ++ digits ++ List.replicate size.toNat ' '
      else if type.zeropad then sign ++ pre ++ List.replicate size.toNat c ++ digits
      else List.replicate size.toNat ' ' ++ sign ++ pre ++ digits := by
  have hfirst : ∀ c, fill c 0 size = (List.replicate size.toNat c, min (size - 1) (-1)) :=
    fun c => fill_zero c (by omega)
  have hsecond : ∀ c, fill c 0 (min (size - 1) (-1)) = ([], min (size - 1) (-1) - 1) :=
    fun c => fill_none c (by omega)
  have hthird : ∀ c, (fill c 0 (min (size - 1) (-1) - 1)).1 = [] := by
    intro c
    rw [fill_eq, Int.toNat_eq_zero.mpr (by omega)]
    rfl
  rw [writeNumber, fill_eq '0']
  cases hl : type.left with
  | true => simp [hfirst]
  | false =>
    cases hz : type.zeropad with
    | true => simp [hfirst, hsecond]
    | false => simp [hfirst, hsecond, hthird]

/-- The digits in `tmp` are those of the number. -/
theorem tmp_reverse (small : Bool) (hb : 1 < base) (num : BitVec 32) :
    (if num = 0 then ['0'] else doDiv small base 36 num.toNat).reverse =
      numeral small base num.toNat := by
  have hlt : num.toNat < base ^ 36 := by
    calc num.toNat < 2 ^ 32 := num.isLt
      _ ≤ 2 ^ 36 := Nat.pow_le_pow_right (by decide) (by decide)
      _ ≤ base ^ 36 := Nat.pow_le_pow_left hb 36
  by_cases h : num = 0
  · rw [if_pos h, h]
    rfl
  · have hne : num.toNat ≠ 0 := fun hzero => h (BitVec.eq_of_toNat_eq hzero)
    rw [if_neg h, doDiv_eq small hb hlt, numeral, if_neg hne]

theorem prefixText_length (special small : Bool) (base : ℕ) :
    (prefixText special small base).length = if special then
      if base = 16 then 2 else if base = 8 then 1 else 0 else 0 := by
  rw [prefixText]
  cases special with
  | false => rfl
  | true =>
    by_cases h8 : base = 8
    · rw [h8]
      rfl
    · by_cases h16 : base = 16
      · rw [h16]
        rfl
      · simp [h8, h16]

theorem prefixText_le (special small : Bool) (base : ℕ) :
    (prefixText special small base).length ≤ 2 := by
  rw [prefixText_length]
  split
  case isTrue => split <;> [skip; split] <;> decide
  case isFalse => decide

theorem digitsText_length (small : Bool) (base p n : ℕ) :
    (digitsText small base p n).length = max p (numeral small base n).length := by
  rw [digitsText, List.length_append, List.length_replicate]
  omega

/-- The counter after the sign. -/
theorem counter_sign {sign : List Char} {size : ℤ} (hsign : sign.length ≤ 1)
    (hsize : -1 ≤ size ∧ size < 2 ^ 31) :
    (if sign ≠ [] then int (size - 1) else size) = size - sign.length := by
  cases sign with
  | nil => simp
  | cons c s =>
    have hone : (c :: s).length = 1 := by
      rw [List.length_cons] at hsign ⊢
      omega
    rw [if_pos (List.cons_ne_nil c s), hone, int_eq (by omega)]
    rfl

/-- The counter after the prefix. -/
theorem counter_prefix (special small : Bool) (base : ℕ) {size : ℤ}
    (hsize : -2 ≤ size ∧ size < 2 ^ 31) :
    (if special = true then
      if base = 16 then int (size - 2) else if base = 8 then int (size - 1) else size
    else size) = size - (prefixText special small base).length := by
  rw [prefixText_length, int_eq (by omega), int_eq (by omega)]
  split
  case isTrue =>
    split
    case isTrue => rfl
    case isFalse => split <;> simp
  case isFalse => simp

theorem number_eq (hb : base = 8 ∨ base = 10 ∨ base = 16) (hsize : -1 ≤ size ∧ size < 2 ^ 31)
    (hp : -1 ≤ precision ∧ precision ≤ 2 ^ 31 - 6) :
    number num base size precision type =
      some (integerText (signText (type.sign && num.msb) type.plus type.space)
        (prefixText type.special type.small base)
        (digitsText type.small base precision.toNat
          (if type.sign && num.msb then -num else num).toNat)
        size.toNat type.left type.zeropad) := by
  -- the flag for zeros goes with that for the left
  obtain ⟨f, hf⟩ : ∃ f, f = if type.left then { type with zeropad := false } else type := ⟨_, rfl⟩
  have hfields : type.sign = f.sign ∧ type.plus = f.plus ∧ type.space = f.space ∧
      type.special = f.special ∧ type.small = f.small ∧ type.left = f.left := by
    rw [hf]
    split <;> exact ⟨rfl, rfl, rfl, rfl, rfl, rfl⟩
  have hzero : f.left = false → type.zeropad = f.zeropad := by
    intro hleft
    rw [hf, if_neg (by rw [hfields.2.2.2.2.2, hleft]; decide)]
  obtain ⟨hsign, hplus, hspace, hspecial, hsmall, hleft⟩ := hfields
  have hguard : ¬ (base < 2 ∨ 36 < base) := by omega
  rw [number, ← hf]
  simp only [hsign, hplus, hspace, hspecial, hsmall, hleft]
  rw [if_neg hguard]
  have hpair : (if f.sign = true ∧ num.msb = true then (['-'], -num)
      else (if f.plus = true then ['+'] else if f.space = true then [' '] else [], num)) =
      (signText (f.sign && num.msb) f.plus f.space,
        if (f.sign && num.msb) = true then -num else num) := by
    rw [signText]
    cases f.sign <;> cases num.msb <;> rfl
  rw [hpair]
  dsimp only
  obtain ⟨sign, hs⟩ : ∃ s, s = signText (f.sign && num.msb) f.plus f.space := ⟨_, rfl⟩
  obtain ⟨n, hn⟩ : ∃ n, n = if (f.sign && num.msb) = true then -num else num := ⟨_, rfl⟩
  obtain ⟨tmp, ht⟩ : ∃ s, s = if n = 0 then ['0'] else doDiv f.small base 36 n.toNat := ⟨_, rfl⟩
  have hsl : sign.length ≤ 1 := hs ▸ signText_length _ _ _
  have hpl := prefixText_le f.special f.small base
  have hnumeral : tmp.reverse = numeral f.small base n.toNat :=
    ht ▸ tmp_reverse f.small (by omega) n
  have hlength : tmp.length = (numeral f.small base n.toNat).length := by
    rw [← hnumeral, List.length_reverse]
  have hroom : tmp.length ≤ 36 := by
    rw [ht]
    split
    · decide
    · exact doDiv_length _ _ _ _
  have hmax : (if precision < tmp.length then (tmp.length : ℤ) else precision) =
      max precision tmp.length := by
    split <;> omega
  have hdigits : List.replicate (max precision tmp.length - tmp.length).toNat '0' ++ tmp.reverse =
      digitsText f.small base precision.toNat n.toNat := by
    have hcount : (max precision tmp.length - tmp.length).toNat =
        precision.toNat - (numeral f.small base n.toNat).length := by omega
    rw [hcount, hnumeral, digitsText]
  have hmissing : (size - sign.length - (prefixText f.special f.small base).length -
      max precision tmp.length).toNat = size.toNat - (sign.length +
        (prefixText f.special f.small base).length +
        (digitsText f.small base precision.toNat n.toNat).length) := by
    rw [digitsText_length]
    omega
  rw [← hs, ← hn, ← ht, counter_sign hsl hsize, counter_prefix f.special f.small base (by omega),
    hmax, int_eq (by omega), writeNumber_eq _ _ _ _ _ (by omega), hdigits, hmissing, integerText]
  dsimp only
  cases hl : f.left with
  | true => rfl
  | false =>
    rw [hzero hl]
    cases f.zeropad <;> rfl

/-! ### What a field says -/

theorem integerText_length (sign pre digits : List Char) (w : ℕ) (left zero : Bool) :
    (integerText sign pre digits w left zero).length =
      max w (sign.length + pre.length + digits.length) := by
  rw [integerText]
  cases left <;> cases zero <;> simp only [List.length_append, List.length_replicate, if_true,
    Bool.false_eq_true, if_false] <;> omega

/-- Whatever stands around them, the digits are read. -/
theorem readInt_parts (hb : base = 8 ∨ base = 10 ∨ base = 16) (negative plus space special : Bool)
    (small : Bool) (n a k j : ℕ) :
    readInt base (List.replicate a ' ' ++ (signText negative plus space ++
      (prefixText special small base ++
        (List.replicate k '0' ++ numeral small base n ++ List.replicate j ' ')))) =
      some (if negative then -(n : ℤ) else n) := by
  have hsign : signText negative plus space = [] ∨ signText negative plus space = ['+'] ∨
      signText negative plus space = [' '] ∨ signText negative plus space = ['-'] := by
    cases negative <;> cases plus <;> cases space <;> decide
  have hminus : signText negative plus space = ['-'] ↔ negative = true := by
    cases negative <;> cases plus <;> cases space <;> decide
  have hvalue : (if signText negative plus space = ['-'] then -(n : ℤ) else n) =
      if negative then -(n : ℤ) else n := by
    simp only [hminus]
  rw [← hvalue]
  by_cases h8 : special = true ∧ base = 8
  · -- one more zero before the digits
    obtain ⟨rfl, rfl⟩ := h8
    have hzero : prefixText true small 8 ++ (List.replicate k '0' ++ numeral small 8 n ++
        List.replicate j ' ') = [] ++ (List.replicate (k + 1) '0' ++ numeral small 8 n ++
        List.replicate j ' ') := by
      rw [List.replicate_succ]
      rfl
    rw [hzero]
    exact readInt_numeral (by decide) (by decide) small n a (k + 1) j hsign (.inl rfl)
  · refine readInt_numeral (by omega) (by omega) small n a k j hsign ?_
    rw [prefixText]
    cases special with
    | false => exact .inl rfl
    | true =>
      have hne : base ≠ 8 := fun h => h8 ⟨rfl, h⟩
      rcases hb with rfl | rfl | rfl
      · exact absurd rfl hne
      · exact .inl rfl
      · cases small <;> decide

theorem readInt_integerText (hb : base = 8 ∨ base = 10 ∨ base = 16)
    (negative plus space special small : Bool) (p n w : ℕ) (left zero : Bool) :
    readInt base (integerText (signText negative plus space) (prefixText special small base)
      (digitsText small base p n) w left zero) = some (if negative then -(n : ℤ) else n) := by
  have hread := readInt_parts hb negative plus space special small n
  rw [integerText, digitsText]
  generalize w - _ = m
  generalize p - _ = k
  cases left with
  | true => simpa using hread 0 k m
  | false =>
    cases zero with
    | true =>
      have hzeros := hread 0 (m + k) 0
      rw [← List.replicate_append_replicate] at hzeros
      simpa only [Bool.false_eq_true, if_false, if_true, List.replicate_zero, List.nil_append,
        List.append_nil, List.append_assoc] using hzeros
    | false => simpa using hread m k 0

end Printf
