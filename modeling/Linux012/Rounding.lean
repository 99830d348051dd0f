/-
Rounding to the values of a number format.

* `Rounds` — a value is rounded to one of a set: to a nearest one, or to the next one in the
  direction of the mode;
* `grid` — the values of a format with a sign, whose magnitudes are numbered in their order;
* `Picks` — which of two neighbours a mode picks, from what lies above the lower one;
* `rounds_iff` — on a grid, a rounding is right if and only if it is the one that is picked;
* `floatMag` — the magnitudes of a binary floating-point format, by their bit patterns;
* `float_neighbours` — the neighbours of a number whose mantissa is too long.
-/
import Mathlib.Algebra.Order.Field.Basic
import Mathlib.Algebra.Order.Group.Unbundled.Abs
import Mathlib.Algebra.Order.AbsoluteValue.Basic
import Mathlib.Order.Bounds.Basic
import Mathlib.Data.Nat.Cast.Order.Ring
import Mathlib.Tactic.Linarith
import Mathlib.Tactic.Ring
import Mathlib.Tactic.Positivity
import Mathlib.Algebra.Order.Field.Power
import Mathlib.Algebra.Order.Ring.Rat

namespace Rounding

inductive Mode where
  | nearest
  | down
  | up
  | zero
  deriving DecidableEq

/-- The same rounding of the negated value. -/
def Mode.flip : Mode → Mode
  | .down => .up
  | .up => .down
  | mode => mode

variable {K : Type*} [Field K] [LinearOrder K] [IsStrictOrderedRing K]

/-- `r` is what `mode` rounds `v` to, among the values of `S`. -/
def Rounds (S : Set K) (mode : Mode) (v r : K) : Prop :=
  match mode with
  | .nearest => r ∈ S ∧ ∀ x ∈ S, |r - v| ≤ |x - v|
  | .down => IsGreatest {x | x ∈ S ∧ x ≤ v} r
  | .up => IsLeast {x | x ∈ S ∧ v ≤ x} r
  | .zero => if 0 ≤ v then IsGreatest {x | x ∈ S ∧ x ≤ v} r else IsLeast {x | x ∈ S ∧ v ≤ x} r

/-- A magnitude with a sign. -/
def signed (neg : Bool) (x : K) : K := if neg then -x else x

/-- The values whose magnitudes are `f 0`, …, `f top`. -/
def grid (f : ℕ → K) (top : ℕ) : Set K := {x | ∃ n ≤ top, |x| = f n}

/-- The upper neighbour is picked, or not, for what lies `d` above the lower one, when they are
`w` apart. -/
def Picks (mode : Mode) (neg inc : Bool) (d w : ℕ) : Prop :=
  match mode with
  | .nearest => if inc then w ≤ 2 * d else 2 * d ≤ w
  | .down => inc = true ↔ neg = true ∧ d ≠ 0
  | .up => inc = true ↔ neg = false ∧ d ≠ 0
  | .zero => inc = false

/-! ### Negated values -/

variable {S : Set K} {mode : Mode} {v r : K} {f : ℕ → K} {top : ℕ}

omit [IsStrictOrderedRing K] in
theorem neg_mem_grid (x : K) : -x ∈ grid f top ↔ x ∈ grid f top := by
  simp only [grid, Set.mem_ofPred_eq, abs_neg]

theorem isLeast_neg (hS : ∀ x, -x ∈ S ↔ x ∈ S) :
    IsLeast {x | x ∈ S ∧ -v ≤ x} (-r) ↔ IsGreatest {x | x ∈ S ∧ x ≤ v} r := by
  constructor
  · rintro ⟨⟨hr, hv⟩, hleast⟩
    refine ⟨⟨(hS r).mp hr, neg_le_neg_iff.mp hv⟩, fun x hx => ?_⟩
    exact neg_le_neg_iff.mp (hleast ⟨(hS x).mpr hx.1, neg_le_neg hx.2⟩)
  · rintro ⟨⟨hr, hv⟩, hgreatest⟩
    refine ⟨⟨(hS r).mpr hr, neg_le_neg hv⟩, fun x hx => ?_⟩
    have hx' : -x ∈ {x | x ∈ S ∧ x ≤ v} := ⟨(hS x).mpr hx.1, neg_le.mp hx.2⟩
    exact neg_le.mp (hgreatest hx')

theorem isGreatest_neg (hS : ∀ x, -x ∈ S ↔ x ∈ S) :
    IsGreatest {x | x ∈ S ∧ x ≤ -v} (-r) ↔ IsLeast {x | x ∈ S ∧ v ≤ x} r := by
  have h := isLeast_neg (v := -v) (r := -r) hS
  rw [neg_neg, neg_neg] at h
  exact h.symm

/-- Away from zero, a rounding of a negated value is the negated rounding. -/
theorem rounds_neg (hS : ∀ x, -x ∈ S ↔ x ∈ S) (hv : 0 < v) :
    Rounds S mode (-v) (-r) ↔ Rounds S mode.flip v r := by
  cases mode with
  | nearest =>
    have habs : ∀ x : K, |(-x) - (-v)| = |x - v| := by
      intro x
      rw [neg_sub_neg, abs_sub_comm]
    simp only [Rounds, Mode.flip, hS]
    refine and_congr_right fun _ => ⟨fun h x hx => ?_, fun h x hx => ?_⟩
    · have hle := h (-x) ((hS x).mpr hx)
      rwa [habs, habs] at hle
    · have hle := h (-x) ((hS x).mpr hx)
      rw [habs]
      rwa [← habs (-x), neg_neg] at hle
  | down => exact isGreatest_neg hS
  | up => exact isLeast_neg hS
  | zero =>
    have hneg : ¬ (0 : K) ≤ -v := by
      rw [neg_nonneg]
      exact not_le.mpr hv
    simp only [Rounds, Mode.flip, if_neg hneg, if_pos hv.le]
    exact isLeast_neg hS

/-! ### Neighbours -/

section Neighbours

variable {n : ℕ} (hf : StrictMono f) (hzero : f 0 = 0) (hlow : f n ≤ v) (hhigh : v < f (n + 1))

include hf hzero

omit [IsStrictOrderedRing K] in
theorem grid_nonneg (n : ℕ) : 0 ≤ f n := by
  rw [← hzero]
  exact hf.monotone n.zero_le

theorem mem_grid (hn : n ≤ top) : f n ∈ grid f top :=
  ⟨n, hn, abs_of_nonneg (grid_nonneg hf hzero n)⟩

include hhigh in
/-- No value lies between the neighbours. -/
theorem le_of_mem_grid {x : K} (hx : x ∈ grid f top) (hle : x ≤ v) : x ≤ f n := by
  obtain ⟨k, -, habs⟩ := hx
  have hxk : x ≤ f k := by
    rw [← habs]
    exact le_abs_self x
  rcases Nat.lt_or_ge n k with hk | hk
  · -- the magnitude is beyond `v`, so that the value is below zero
    have hbeyond : v < |x| := by
      rw [habs]
      exact lt_of_lt_of_le hhigh (hf.monotone hk)
    have hneg : x < 0 := by
      by_contra hpos
      rw [abs_of_nonneg (not_lt.mp hpos)] at hbeyond
      exact absurd hle (not_le.mpr hbeyond)
    exact hneg.le.trans (grid_nonneg hf hzero n)
  · exact hxk.trans (hf.monotone hk)

include hlow in
theorem ge_of_mem_grid {x : K} (hx : x ∈ grid f top) (hlt : v < x) : f (n + 1) ≤ x := by
  obtain ⟨k, -, habs⟩ := hx
  have hpos : 0 ≤ x := (grid_nonneg hf hzero n).trans (hlow.trans hlt.le)
  rw [abs_of_nonneg hpos] at habs
  rw [habs] at hlt ⊢
  exact hf.monotone (hf.lt_iff_lt.mp (lt_of_le_of_lt hlow hlt))

include hlow hhigh

theorem isGreatest_iff (hn : n ≤ top) : IsGreatest {x | x ∈ grid f top ∧ x ≤ v} r ↔ r = f n := by
  have h : IsGreatest {x | x ∈ grid f top ∧ x ≤ v} (f n) :=
    ⟨⟨mem_grid hf hzero hn, hlow⟩, fun x hx => le_of_mem_grid hf hzero hhigh hx.1 hx.2⟩
  exact ⟨fun hr => hr.unique h, fun hr => hr ▸ h⟩

theorem isLeast_iff (hn : v = f n ∧ n ≤ top ∨ n + 1 ≤ top) :
    IsLeast {x | x ∈ grid f top ∧ v ≤ x} r ↔ r = if v = f n then f n else f (n + 1) := by
  have h : IsLeast {x | x ∈ grid f top ∧ v ≤ x} (if v = f n then f n else f (n + 1)) := by
    split
    case isTrue heq =>
      exact ⟨⟨mem_grid hf hzero (by omega), heq.le⟩, fun x hx => heq ▸ hx.2⟩
    case isFalse hne =>
      refine ⟨⟨mem_grid hf hzero (by tauto), hhigh.le⟩, fun x hx => ?_⟩
      rcases eq_or_lt_of_le hx.2 with rfl | hlt
      · -- `v` itself is a value, so that it is the lower neighbour
        exact absurd (le_antisymm (le_of_mem_grid hf hzero hhigh hx.1 le_rfl) hlow) hne
      · exact ge_of_mem_grid hf hzero hlow hx.1 hlt
  exact ⟨fun hr => hr.unique h, fun hr => hr ▸ h⟩

/-- The lower neighbour is a nearest value when the upper one is not nearer. -/
theorem nearest_low_iff (hn : n + 1 ≤ top) :
    Rounds (grid f top) .nearest v (f n) ↔ v - f n ≤ f (n + 1) - v := by
  have hleft : |f n - v| = v - f n := by
    rw [abs_sub_comm]
    exact abs_of_nonneg (sub_nonneg.mpr hlow)
  constructor
  · rintro ⟨-, h⟩
    have hle := h (f (n + 1)) (mem_grid hf hzero hn)
    rwa [hleft, abs_of_nonneg (sub_nonneg.mpr hhigh.le)] at hle
  · intro h
    refine ⟨mem_grid hf hzero (by omega), fun x hx => ?_⟩
    rw [hleft]
    rcases le_or_gt x v with hle | hlt
    · have hx' := le_of_mem_grid hf hzero hhigh hx hle
      rw [abs_sub_comm, abs_of_nonneg (sub_nonneg.mpr hle)]
      linarith
    · have hx' := ge_of_mem_grid hf hzero hlow hx hlt
      rw [abs_of_nonneg (sub_nonneg.mpr hlt.le)]
      linarith

theorem nearest_high_iff (hn : n + 1 ≤ top) :
    Rounds (grid f top) .nearest v (f (n + 1)) ↔ f (n + 1) - v ≤ v - f n := by
  have hright : |f (n + 1) - v| = f (n + 1) - v := abs_of_nonneg (sub_nonneg.mpr hhigh.le)
  constructor
  · rintro ⟨-, h⟩
    have hle := h (f n) (mem_grid hf hzero (by omega))
    rwa [hright, abs_sub_comm, abs_of_nonneg (sub_nonneg.mpr hlow)] at hle
  · intro h
    refine ⟨mem_grid hf hzero hn, fun x hx => ?_⟩
    rw [hright]
    rcases le_or_gt x v with hle | hlt
    · have hx' := le_of_mem_grid hf hzero hhigh hx hle
      rw [abs_sub_comm, abs_of_nonneg (sub_nonneg.mpr hle)]
      linarith
    · have hx' := ge_of_mem_grid hf hzero hlow hx hlt
      rw [abs_of_nonneg (sub_nonneg.mpr hlt.le)]
      linarith

end Neighbours

/-! ### The neighbour that is picked -/

theorem picks_flip {inc : Bool} {d w : ℕ} :
    Picks mode.flip false inc d w ↔ Picks mode true inc d w := by
  cases mode <;> simp [Picks, Mode.flip]

section Picked

variable {n m w : ℕ} {c : K} (hf : StrictMono f) (hzero : f 0 = 0) (hc : 0 < c) (hm : 0 < m)
  (hw : 0 < w) (hn : f n = ((m / w * w : ℕ) : K) * c)
  (hn' : f (n + 1) = (((m / w + 1) * w : ℕ) : K) * c) (htop : (m : K) * c ≤ f top)

include hf hzero hc hm hw hn hn' htop

/-- For a value `m * c` above zero, when the neighbours are the multiples of `w * c`. -/
theorem rounds_pos_iff (inc : Bool) :
    Rounds (grid f top) mode ((m : K) * c) (f (if inc then n + 1 else n)) ↔
      Picks mode false inc (m % w) w := by
  have hsplit : m = m / w * w + m % w := (Nat.div_add_mod' m w).symm
  have hrest : m % w < w := Nat.mod_lt m hw
  have hcast : ((m : ℕ) : K) = ((m / w * w : ℕ) : K) + ((m % w : ℕ) : K) := by
    rw [← Nat.cast_add, ← hsplit]
  have hlow : f n ≤ (m : K) * c := by
    rw [hn]
    exact mul_le_mul_of_nonneg_right (by exact_mod_cast Nat.div_mul_le_self m w) hc.le
  have hhigh : (m : K) * c < f (n + 1) := by
    rw [hn']
    have hnext : m < (m / w + 1) * w := by
      rw [Nat.add_mul, Nat.one_mul]
      omega
    exact mul_lt_mul_of_pos_right (by exact_mod_cast hnext) hc
  have hexact : (m : K) * c = f n ↔ m % w = 0 := by
    rw [hn, hcast, add_mul]
    constructor
    · intro h
      have hprod : ((m % w : ℕ) : K) * c = 0 := by linarith
      exact_mod_cast (mul_eq_zero.mp hprod).resolve_right hc.ne'
    · intro h
      rw [h]
      simp
  have hle : n ≤ top := hf.le_iff_le.mp (hlow.trans htop)
  have hroom : m % w = 0 ∨ n + 1 ≤ top := by
    rcases Nat.lt_or_ge n top with h | h
    · exact .inr h
    · exact .inl (hexact.mp (le_antisymm (htop.trans (hf.monotone h)) hlow))
  have hdown : IsGreatest {x | x ∈ grid f top ∧ x ≤ (m : K) * c} (f (if inc then n + 1 else n)) ↔
      inc = false := by
    rw [isGreatest_iff hf hzero hlow hhigh hle, hf.injective.eq_iff]
    cases inc <;> simp
  have hcases : (m : K) * c = f n ∧ n ≤ top ∨ n + 1 ≤ top :=
    hroom.imp_left fun h => ⟨hexact.mpr h, hle⟩
  cases mode with
  | down =>
    simp only [Rounds, Picks, hdown]
    cases inc <;> simp
  | up =>
    simp only [Rounds, Picks, isLeast_iff hf hzero hlow hhigh hcases, hexact]
    by_cases hd : m % w = 0
    · rw [if_pos hd, hf.injective.eq_iff]
      cases inc <;> simp [hd]
    · rw [if_neg hd, hf.injective.eq_iff]
      cases inc <;> simp [hd]
  | zero =>
    have hpos : (0 : K) ≤ (m : K) * c := by positivity
    simp only [Rounds, Picks, if_pos hpos, hdown]
  | nearest =>
    rcases hroom with hd | hroom
    · -- the value is the lower neighbour
      have hv := hexact.mpr hd
      cases inc with
      | false =>
        refine iff_of_true ⟨mem_grid hf hzero hle, fun x _ => ?_⟩ ?_
        · simp [hv]
        · simp [Picks, hd]
      | true =>
        refine iff_of_false (fun h => ?_) (by simp [Picks, hd]; omega)
        have hzero' := h.2 (f n) (mem_grid hf hzero hle)
        rw [← hv, sub_self, abs_zero, abs_nonpos_iff, sub_eq_zero] at hzero'
        exact absurd hzero' hhigh.ne'
    · have hgap : f (n + 1) - (m : K) * c = ((w - m % w : ℕ) : K) * c := by
        rw [hn', hcast, Nat.cast_sub hrest.le]
        push_cast
        ring
      have hgap' : (m : K) * c - f n = ((m % w : ℕ) : K) * c := by
        rw [hn, hcast]
        ring
      cases inc with
      | false =>
        simp only [Bool.false_eq_true, if_false, Picks]
        rw [nearest_low_iff hf hzero hlow hhigh hroom, hgap, hgap', mul_le_mul_iff_left₀ hc,
          Nat.cast_le]
        omega
      | true =>
        simp only [if_true, Picks]
        rw [nearest_high_iff hf hzero hlow hhigh hroom, hgap, hgap', mul_le_mul_iff_left₀ hc,
          Nat.cast_le]
        omega

/-- A rounding to one of the neighbours of a value is right if and only if the mode picks it. -/
theorem rounds_iff (neg inc : Bool) :
    Rounds (grid f top) mode (signed neg ((m : K) * c))
        (signed neg (f (if inc then n + 1 else n))) ↔ Picks mode neg inc (m % w) w := by
  cases neg with
  | false => exact rounds_pos_iff hf hzero hc hm hw hn hn' htop inc
  | true =>
    have hpos : (0 : K) < (m : K) * c := mul_pos (by exact_mod_cast hm) hc
    simp only [signed, if_true]
    rw [rounds_neg neg_mem_grid hpos, rounds_pos_iff hf hzero hc hm hw hn hn' htop inc, picks_flip]

end Picked

/-! ### Binary floating-point numbers -/

/-- The magnitude that has the bit pattern `n`, for a fraction of `p` bits below the exponent, in
units of the smallest magnitude above zero. -/
def floatMag (p n : ℕ) : ℕ := if n < 2 ^ p then n else (2 ^ p + n % 2 ^ p) * 2 ^ (n / 2 ^ p - 1)

/-- Neighbours of one exponent are evenly spaced: a carry into the exponent is no exception. -/
theorem floatMag_succ (p n : ℕ) : floatMag p (n + 1) = floatMag p n + 2 ^ (n / 2 ^ p - 1) := by
  obtain ⟨q, hq⟩ : ∃ q, q = n / 2 ^ p := ⟨_, rfl⟩
  obtain ⟨r, hr⟩ : ∃ r, r = n % 2 ^ p := ⟨_, rfl⟩
  obtain ⟨w, hw⟩ : ∃ w, w = 2 ^ p := ⟨_, rfl⟩
  have hpos : 0 < w := hw ▸ Nat.two_pow_pos p
  rw [floatMag, floatMag, ← hq, ← hr, ← hw]
  rw [← hw] at hq hr
  have hlt : r < w := hr ▸ Nat.mod_lt n hpos
  have hn : n = q * w + r := by rw [hq, hr, Nat.div_add_mod']
  rcases Nat.lt_or_ge (r + 1) w with hroom | hfull
  · -- the exponent stays
    have hq' : (n + 1) / w = q := by
      rw [hn, Nat.add_assoc, Nat.mul_comm q w, Nat.mul_add_div hpos, Nat.div_eq_of_lt hroom,
        Nat.add_zero]
    have hr' : (n + 1) % w = r + 1 := by
      rw [hn, Nat.add_assoc, Nat.mul_comm q w, Nat.mul_add_mod, Nat.mod_eq_of_lt hroom]
    cases q with
    | zero => simp [hn, hlt, hroom]
    | succ q =>
      have hge : w ≤ n := by
        rw [hn, Nat.succ_mul]
        omega
      rw [if_neg (by omega), if_neg (by omega), hq', hr', ← Nat.add_assoc, Nat.add_mul _ 1,
        Nat.one_mul]
  · -- the fraction starts again, at the next exponent
    have hr' : r + 1 = w := by omega
    have hn' : n + 1 = (q + 1) * w := by rw [hn, Nat.succ_mul, Nat.add_assoc, hr']
    rw [hn', Nat.mul_mod_left, Nat.mul_div_cancel _ hpos, Nat.add_zero, Nat.add_sub_cancel,
      if_neg (Nat.not_lt.mpr (Nat.le_mul_of_pos_left w (Nat.succ_pos q)))]
    cases q with
    | zero =>
      rw [if_pos (by omega)]
      omega
    | succ q =>
      have hge : w ≤ n := by
        rw [hn, Nat.succ_mul]
        omega
      rw [if_neg (by omega), Nat.add_sub_cancel, Nat.pow_succ]
      obtain ⟨e, he⟩ : ∃ e, e = 2 ^ q := ⟨_, rfl⟩
      have hsum : w + r + 1 = w * 2 := by omega
      rw [Nat.add_zero, ← he, Nat.mul_comm e 2, ← Nat.mul_assoc, ← hsum, Nat.add_mul _ 1,
        Nat.one_mul]

theorem floatMag_strictMono (p : ℕ) : StrictMono (floatMag p) := by
  refine strictMono_nat_of_lt_succ fun n => ?_
  rw [floatMag_succ]
  exact Nat.lt_add_of_pos_right (Nat.two_pow_pos _)

theorem floatMag_zero (p : ℕ) : floatMag p 0 = 0 := if_pos (Nat.two_pow_pos p)

theorem floatMag_normal {p e frac : ℕ} (he : 1 ≤ e) (hfrac : frac < 2 ^ p) :
    floatMag p (e * 2 ^ p + frac) = (2 ^ p + frac) * 2 ^ (e - 1) := by
  have hdiv : (e * 2 ^ p + frac) / 2 ^ p = e := by
    rw [Nat.mul_comm, Nat.mul_add_div (Nat.two_pow_pos p), Nat.div_eq_of_lt hfrac, Nat.add_zero]
  have hmod : (e * 2 ^ p + frac) % 2 ^ p = frac := by
    rw [Nat.mul_comm, Nat.mul_add_mod, Nat.mod_eq_of_lt hfrac]
  have hge : 2 ^ p ≤ e * 2 ^ p := Nat.le_mul_of_pos_left _ he
  rw [floatMag, if_neg (by omega), hdiv, hmod]

theorem floatMag_min (p : ℕ) : floatMag p (2 ^ p) = 2 ^ p := by
  have h := floatMag_normal (Nat.le_refl 1) (Nat.two_pow_pos p)
  rwa [Nat.one_mul, Nat.add_zero, Nat.sub_self, Nat.pow_zero, Nat.mul_one] at h

/-- A magnitude, when the smallest one above zero is `2 ^ u`. -/
def floatValue (p : ℕ) (u : ℤ) (n : ℕ) : ℚ := floatMag p n * 2 ^ u

theorem floatValue_strictMono (p : ℕ) (u : ℤ) : StrictMono (floatValue p u) := by
  intro i j h
  have hmag : (floatMag p i : ℚ) < floatMag p j := by exact_mod_cast floatMag_strictMono p h
  exact mul_lt_mul_of_pos_right hmag (by positivity)

theorem floatValue_zero (p : ℕ) (u : ℤ) : floatValue p u 0 = 0 := by
  rw [floatValue, floatMag_zero, Nat.cast_zero, zero_mul]

theorem floatValue_min (p : ℕ) (u : ℤ) : floatValue p u (2 ^ p) = 2 ^ (p + u) := by
  rw [floatValue, floatMag_min, zpow_add₀ two_ne_zero, zpow_natCast, Nat.cast_pow, Nat.cast_ofNat]

theorem floatValue_lt {p n k : ℕ} (u : ℤ) (h : floatMag p n < 2 ^ k) :
    floatValue p u n < 2 ^ (k + u) := by
  have hmag : (floatMag p n : ℚ) < 2 ^ k := by exact_mod_cast h
  rw [zpow_add₀ two_ne_zero, zpow_natCast]
  exact mul_lt_mul_of_pos_right hmag (by positivity)

theorem le_floatValue {p n k : ℕ} (u : ℤ) (h : 2 ^ k ≤ floatMag p n) :
    2 ^ (k + u) ≤ floatValue p u n := by
  have hmag : (2 : ℚ) ^ k ≤ (floatMag p n : ℚ) := by exact_mod_cast h
  rw [zpow_add₀ two_ne_zero, zpow_natCast]
  exact mul_le_mul_of_nonneg_right hmag (by positivity)

/-- The neighbours of a number whose mantissa `m` loses `s` bits. -/
theorem float_neighbours {p s e m n : ℕ} (u : ℤ) (he : 1 ≤ e) (hm : m / 2 ^ s = 2 ^ p + n)
    (hn : n < 2 ^ p) :
    floatValue p u (e * 2 ^ p + n) = ((m / 2 ^ s * 2 ^ s : ℕ) : ℚ) * 2 ^ (u + e - 1 - s) ∧
      floatValue p u (e * 2 ^ p + n + 1) =
        (((m / 2 ^ s + 1) * 2 ^ s : ℕ) : ℚ) * 2 ^ (u + e - 1 - s) := by
  have hmag := floatMag_normal he hn
  have hdiv : (e * 2 ^ p + n) / 2 ^ p = e := by
    rw [Nat.mul_comm, Nat.mul_add_div (Nat.two_pow_pos p), Nat.div_eq_of_lt hn, Nat.add_zero]
  have htwo : (2 : ℚ) ≠ 0 := two_ne_zero
  have hscale : (2 : ℚ) ^ (e - 1) * 2 ^ u = 2 ^ s * 2 ^ (u + e - 1 - s) := by
    rw [← zpow_natCast, ← zpow_natCast, ← zpow_add₀ htwo, ← zpow_add₀ htwo]
    congr 1
    omega
  constructor
  · rw [floatValue, hmag, ← hm]
    push_cast
    rw [mul_assoc, mul_assoc, hscale]
  · rw [floatValue, floatMag_succ, hmag, hdiv, ← hm]
    push_cast
    rw [add_mul, mul_assoc, hscale, add_mul, one_mul, add_mul, mul_assoc]

end Rounding
