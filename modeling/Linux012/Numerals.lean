/-
Numbers in text, in any base up to 36.

* `digitChar`, `digitValue` — digits and their values;
* `numeral` — a number without leading zeros;
* `readNat`, `readInt` — numbers are read, with spaces, a sign and a `0x` before the digits;
* `readInt_numeral` — a numeral with leading zeros, a sign and padding is read as its number.
-/
import Mathlib

namespace Numerals

/-! ### Digits -/

def digitChar (small : Bool) (d : ℕ) : Char :=
  if d < 10 then Char.ofNat (48 + d) else Char.ofNat ((if small then 97 else 65) + (d - 10))

def digitValue (c : Char) : Option ℕ :=
  if '0' ≤ c ∧ c ≤ '9' then some (c.toNat - 48)
  else if 'a' ≤ c ∧ c ≤ 'z' then some (c.toNat - 87)
  else if 'A' ≤ c ∧ c ≤ 'Z' then some (c.toNat - 55)
  else none

def isDigit (base : ℕ) (c : Char) : Bool := (digitValue c).any (· < base)

variable {base n d : ℕ} {small : Bool}

theorem digitValue_digitChar (small : Bool) (hd : d < 36) :
    digitValue (digitChar small d) = some d := by
  have hall : ∀ small : Bool, ∀ e < 36, digitValue (digitChar small e) = some e := by decide
  exact hall small d hd

theorem isDigit_digitChar (small : Bool) (hd : d < base) (hb : base ≤ 36) :
    isDigit base (digitChar small d) = true := by
  rw [isDigit, digitValue_digitChar small (hd.trans_le hb)]
  simpa using hd

theorem isDigit_ne {c c' : Char} (h : isDigit base c = true) (hc : digitValue c' = none) :
    c ≠ c' := by
  rintro rfl
  rw [isDigit, hc] at h
  cases h

/-! ### Numerals -/

def numeral (small : Bool) (base n : ℕ) : List Char :=
  if n = 0 then ['0'] else ((Nat.digits base n).map (digitChar small)).reverse

theorem numeral_ne_nil (small : Bool) (base n : ℕ) : numeral small base n ≠ [] := by
  rw [numeral]
  split
  case isTrue => nofun
  case isFalse h =>
    intro hnil
    rw [List.reverse_eq_nil_iff, List.map_eq_nil_iff, Nat.digits_eq_nil_iff_eq_zero] at hnil
    exact h hnil

theorem isDigit_zero (hb : 1 < base) : isDigit base '0' = true := by
  have hvalue : digitValue '0' = some 0 := by decide
  rw [isDigit, hvalue]
  simpa using Nat.zero_lt_of_lt hb

theorem isDigit_numeral (hb : 1 < base) (hb' : base ≤ 36) :
    ∀ c ∈ numeral small base n, isDigit base c = true := by
  intro c hc
  rw [numeral] at hc
  split at hc
  case isTrue =>
    rw [List.mem_singleton.mp hc]
    exact isDigit_zero hb
  case isFalse =>
    obtain ⟨d, hd, rfl⟩ := List.mem_map.mp (List.mem_reverse.mp hc)
    exact isDigit_digitChar small (Nat.digits_lt_base hb hd) hb'

/-! ### Reading -/

def valueOf (base : ℕ) (ds : List Char) : ℕ :=
  Nat.ofDigits base (ds.reverse.map fun c => (digitValue c).getD 0)

/-- Digits, and spaces after them. -/
def readNat (base : ℕ) (s : List Char) : Option ℕ :=
  let ds := s.takeWhile (isDigit base)
  if ds ≠ [] ∧ ∀ c ∈ s.dropWhile (isDigit base), c = ' ' then some (valueOf base ds) else none

def dropPrefix (base : ℕ) (s : List Char) : List Char :=
  if base = 16 ∧ (['0', 'x'] <+: s ∨ ['0', 'X'] <+: s) then s.drop 2 else s

def readInt (base : ℕ) (s : List Char) : Option ℤ :=
  match s.dropWhile (· = ' ') with
  | '-' :: s => (readNat base (dropPrefix base s)).map fun n : ℕ => -(n : ℤ)
  | '+' :: s => (readNat base (dropPrefix base s)).map fun n : ℕ => (n : ℤ)
  | s => (readNat base (dropPrefix base s)).map fun n : ℕ => (n : ℤ)

theorem valueOf_zeros (base k : ℕ) (ds : List Char) :
    valueOf base (List.replicate k '0' ++ ds) = valueOf base ds := by
  have hzero : (digitValue '0').getD 0 = 0 := by decide
  rw [valueOf, List.reverse_append, List.map_append, List.reverse_replicate, List.map_replicate,
    hzero, Nat.ofDigits_append_replicate_zero, valueOf]

theorem valueOf_numeral (small : Bool) (hb : 1 < base) (hb' : base ≤ 36) (n : ℕ) :
    valueOf base (numeral small base n) = n := by
  rw [numeral]
  split
  case isTrue h =>
    exact (valueOf_zeros base 1 []).trans h.symm
  case isFalse =>
    have hdigits : ((Nat.digits base n).map (digitChar small)).map
        (fun c => (digitValue c).getD 0) = Nat.digits base n := by
      rw [List.map_map, List.map_congr_left (g := id), List.map_id]
      intro d hd
      rw [Function.comp_apply, digitValue_digitChar small
        ((Nat.digits_lt_base hb hd).trans_le hb')]
      rfl
    rw [valueOf, List.reverse_reverse, hdigits, Nat.ofDigits_digits]

/-- The digits end where the padding begins. -/
theorem readNat_spaces {ds : List Char} (hne : ds ≠ [])
    (hds : ∀ c ∈ ds, isDigit base c = true) (j : ℕ) :
    readNat base (ds ++ List.replicate j ' ') = some (valueOf base ds) := by
  have hspace : isDigit base ' ' = false := rfl
  have hspaces : ∀ c ∈ List.replicate j ' ', c = ' ' := fun c hc => (List.mem_replicate.mp hc).2
  have htake : (List.replicate j ' ').takeWhile (isDigit base) = [] := by
    cases j with
    | zero => rfl
    | succ j => simp [List.replicate_succ, hspace]
  rw [readNat, List.takeWhile_append_of_pos hds, List.dropWhile_append_of_pos hds, htake,
    List.append_nil]
  refine if_pos ⟨hne, fun c hc => hspaces c ((List.dropWhile_sublist _).subset hc)⟩

/-- There is no `x` among the digits. -/
theorem dropPrefix_digits {ds : List Char} (hb : base ≤ 16)
    (hds : ∀ c ∈ ds, isDigit base c = true) (j : ℕ) :
    dropPrefix base (ds ++ List.replicate j ' ') = ds ++ List.replicate j ' ' := by
  have hx : ∀ c, isDigit 16 c = false → c ≠ ' ' → c ∉ ds ++ List.replicate j ' ' := by
    intro c hc hne hmem
    rcases List.mem_append.mp hmem with hmem | hmem
    · have hdigit := hds c hmem
      rw [isDigit, Option.any_eq_true] at hdigit
      obtain ⟨d, hd, hlt⟩ := hdigit
      rw [isDigit, hd, Option.any_some, decide_eq_false_iff_not] at hc
      rw [decide_eq_true_iff] at hlt
      omega
    · exact hne (List.mem_replicate.mp hmem).2
  rw [dropPrefix, if_neg]
  rintro ⟨-, h | h⟩
  · exact hx 'x' rfl (by decide) (h.subset (by simp))
  · exact hx 'X' rfl (by decide) (h.subset (by simp))

/-- Digits are read, whatever prefix they have. -/
theorem readNat_prefixed {ds : List Char} (hb : base ≤ 16) (hne : ds ≠ [])
    (hds : ∀ c ∈ ds, isDigit base c = true) {pre : List Char}
    (hpre : pre = [] ∨ base = 16 ∧ (pre = ['0', 'x'] ∨ pre = ['0', 'X'])) (j : ℕ) :
    readNat base (dropPrefix base (pre ++ (ds ++ List.replicate j ' '))) =
      some (valueOf base ds) := by
  have hdrop : dropPrefix base (pre ++ (ds ++ List.replicate j ' ')) =
      ds ++ List.replicate j ' ' := by
    rcases hpre with rfl | ⟨rfl, rfl | rfl⟩
    · exact dropPrefix_digits hb hds j
    · exact if_pos ⟨rfl, .inl (List.prefix_append _ _)⟩
    · exact if_pos ⟨rfl, .inr (List.prefix_append _ _)⟩
  rw [hdrop, readNat_spaces hne hds]

theorem skip_spaces {s : List Char} (h : ∀ c ∈ s.head?, c ≠ ' ') (a : ℕ) :
    (List.replicate a ' ' ++ s).dropWhile (· = ' ') = s := by
  have hspaces : ∀ c ∈ List.replicate a ' ', decide (c = ' ') = true :=
    fun c hc => decide_eq_true (List.mem_replicate.mp hc).2
  rw [List.dropWhile_append_of_pos hspaces]
  cases s with
  | nil => rfl
  | cons c s => rw [List.dropWhile_cons_of_neg (by simpa using h c rfl)]

/-- A text that begins with neither a space nor a sign. -/
theorem readInt_plain {s : List Char} (h : ∀ c ∈ s.head?, c ≠ ' ' ∧ c ≠ '-' ∧ c ≠ '+') (a : ℕ) :
    readInt base (List.replicate a ' ' ++ s) =
      (readNat base (dropPrefix base s)).map fun n : ℕ => (n : ℤ) := by
  rw [readInt, skip_spaces fun c hc => (h c hc).1]
  split
  case h_1 => exact absurd rfl (h '-' rfl).2.1
  case h_2 => exact absurd rfl (h '+' rfl).2.2
  case h_3 => rfl

theorem readInt_minus (s : List Char) (a : ℕ) :
    readInt base (List.replicate a ' ' ++ '-' :: s) =
      (readNat base (dropPrefix base s)).map fun n : ℕ => -(n : ℤ) := by
  rw [readInt, skip_spaces (by simp)]
  rfl

theorem readInt_plus (s : List Char) (a : ℕ) :
    readInt base (List.replicate a ' ' ++ '+' :: s) =
      (readNat base (dropPrefix base s)).map fun n : ℕ => (n : ℤ) := by
  rw [readInt, skip_spaces (by simp)]
  rfl

/-- A numeral with padding, a sign, a prefix and leading zeros is read as its number. -/
theorem readInt_numeral (hb : 1 < base) (hb' : base ≤ 16) (small : Bool) (n a k j : ℕ)
    {sign pre : List Char} (hsign : sign = [] ∨ sign = ['+'] ∨ sign = [' '] ∨ sign = ['-'])
    (hpre : pre = [] ∨ base = 16 ∧ (pre = ['0', 'x'] ∨ pre = ['0', 'X'])) :
    readInt base (List.replicate a ' ' ++ (sign ++ (pre ++
      (List.replicate k '0' ++ numeral small base n ++ List.replicate j ' ')))) =
      some (if sign = ['-'] then -(n : ℤ) else n) := by
  have hne : List.replicate k '0' ++ numeral small base n ≠ [] :=
    List.append_ne_nil_of_right_ne_nil _ (numeral_ne_nil small base n)
  have hds : ∀ c ∈ List.replicate k '0' ++ numeral small base n, isDigit base c = true := by
    intro c hc
    rcases List.mem_append.mp hc with hc | hc
    · rw [(List.mem_replicate.mp hc).2]
      exact isDigit_zero hb
    · exact isDigit_numeral hb (by omega) c hc
  have hread := readNat_prefixed hb' hne hds hpre j
  rw [valueOf_zeros, valueOf_numeral small hb (by omega)] at hread
  -- what follows the sign begins with a digit
  have hhead : ∀ c ∈ (pre ++ (List.replicate k '0' ++ numeral small base n ++
      List.replicate j ' ')).head?, c ≠ ' ' ∧ c ≠ '-' ∧ c ≠ '+' := by
    intro c hc
    have hdigit : isDigit base c = true := by
      rcases hpre with rfl | ⟨-, rfl | rfl⟩
      · obtain ⟨d, ds, hd⟩ := List.exists_cons_of_ne_nil hne
        rw [List.nil_append, hd, List.cons_append, List.head?_cons] at hc
        exact hds c (by rw [hd, Option.mem_some.mp hc]; exact List.mem_cons_self)
      · rw [← Option.mem_some.mp hc]
        exact isDigit_zero hb
      · rw [← Option.mem_some.mp hc]
        exact isDigit_zero hb
    exact ⟨isDigit_ne hdigit rfl, isDigit_ne hdigit rfl, isDigit_ne hdigit rfl⟩
  rcases hsign with rfl | rfl | rfl | rfl
  · rw [List.nil_append, readInt_plain hhead, hread, if_neg (by simp)]
    rfl
  · rw [List.singleton_append, readInt_plus, hread, if_neg (by decide)]
    rfl
  · have hspace : List.replicate a ' ' ++ ([' '] ++ (pre ++ (List.replicate k '0' ++
        numeral small base n ++ List.replicate j ' '))) = List.replicate (a + 1) ' ' ++
        (pre ++ (List.replicate k '0' ++ numeral small base n ++ List.replicate j ' ')) := by
      rw [List.replicate_succ', List.append_assoc, List.append_assoc]
    rw [hspace, readInt_plain hhead, hread, if_neg (by decide)]
    rfl
  · rw [List.singleton_append, readInt_minus, hread, if_pos rfl]
    rfl

end Numerals
