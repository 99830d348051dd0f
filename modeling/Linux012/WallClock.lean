/-
The wall clock (`sys_gettimeofday`, `sys_settimeofday`, `sys_time` and `sys_stime` of
kernel/sys.c).

* `Clock` — the tick counter, the time of the start and the offset between the two;
* `Ideal` — a clock that counts ticks since 1970, and what its calls may answer;
* `wall_clock` — the calls answer like the ideal clock, in runs in which `jiffies +
  jiffies_offset` does not pass 2^32, nor the seconds 2^31, and no second ends between the two
  halves of a call;
* `settimeofday_wraps` — a second that is set and not read back.

Design notes: `long` is a word of 32 bits.  `jiffies` is read twice in a call; what is between
is a number of ticks, which is large where `put_fs_long` waits for a page.
-/
import Linux012.Runs
import Mathlib.Data.Int.Notation
import Mathlib.Data.Nat.Notation
import Mathlib.Tactic.Common

namespace Sys

def EPERM : ℤ := 1

/-- A `struct timeval`, or a `struct timezone`. -/
abbrev Pair : Type := BitVec 32 × BitVec 32

/-- `HZ`. -/
def HZ : BitVec 32 := 100

/-- `CT_TO_SECS` and `CT_TO_USECS`. -/
def ctToSecs (x : BitVec 32) : BitVec 32 := x / HZ
def ctToUsecs (x : BitVec 32) : BitVec 32 := x % HZ * 1000000 / HZ

structure Clock where
  jiffies : BitVec 32
  startupTime : BitVec 32
  jiffiesOffset : BitVec 32
  /-- `sys_tz`, and the variable of `sys_settimeofday` -/
  tz : Pair
  firsttime : Bool

inductive Request where
  | tick
  /-- with the ticks between the two halves of `tv` -/
  | gettimeofday (tv tz : Bool) (n : ℕ)
  /-- with the ticks between the two assignments -/
  | settimeofday (suser : Bool) (tv tz : Option Pair) (n : ℕ)
  | stime (suser : Bool) (sec : BitVec 32)
  | time

inductive Answer where
  | ticked
  | status (r : ℤ)
  | times (tv tz : Option Pair)
  | seconds (t : BitVec 32)
  deriving DecidableEq

namespace Clock

variable (c : Clock)

/-- `n` timer interrupts. -/
def ticks (n : ℕ) : Clock := { c with jiffies := c.jiffies + BitVec.ofNat 32 n }

/-- `jiffies + jiffies_offset`. -/
def counted : BitVec 32 := c.jiffies + c.jiffiesOffset

/-- `CURRENT_TIME`. -/
def currentTime : BitVec 32 := c.startupTime + c.counted / HZ

/-- `sys_gettimeofday`. -/
def gettimeofday (tv tz : Bool) (n : ℕ) : Answer × Clock :=
  let zone := if tz then some c.tz else none
  if tv then
    (.times (some (c.startupTime + ctToSecs c.counted, ctToUsecs (c.ticks n).counted)) zone,
      c.ticks n)
  else (.times none zone, c)

/-- `adjust_clock`. -/
def adjustClock : Clock := { c with startupTime := c.startupTime + c.tz.1 * 60 }

/-- The part of `sys_settimeofday` for `tz`. -/
def setTz (tv : Option Pair) : Option Pair → Clock
  | none => c
  | some tz =>
    let c' := { c with tz := tz, firsttime := false }
    if c.firsttime = true ∧ tv = none then c'.adjustClock else c'

/-- The part of `sys_settimeofday` for `tv`. -/
def setTv (n : ℕ) : Option Pair → Clock
  | none => c
  | some (sec, usec) =>
    { c.ticks n with
      startupTime := sec - c.jiffies / HZ
      jiffiesOffset := (usec * HZ).sdiv 1000000 - (c.ticks n).jiffies % HZ }

/-- `sys_settimeofday`. -/
def settimeofday (suser : Bool) (tv tz : Option Pair) (n : ℕ) : Answer × Clock :=
  if suser then (.status 0, (c.setTz tv tz).setTv n tv) else (.status (-EPERM), c)

/-- `sys_stime`. -/
def stime (suser : Bool) (sec : BitVec 32) : Answer × Clock :=
  if suser then
    (.status 0, { c with startupTime := sec - c.jiffies / HZ, jiffiesOffset := 0 })
  else (.status (-EPERM), c)

/-- `sys_time`. -/
def time : Answer × Clock := (.seconds c.currentTime, c)

def next : Request → Answer × Clock
  | .tick => (.ticked, c.ticks 1)
  | .gettimeofday tv tz n => c.gettimeofday tv tz n
  | .settimeofday suser tv tz n => c.settimeofday suser tv tz n
  | .stime suser sec => c.stime suser sec
  | .time => c.time

end Clock

/-! ### The ideal clock -/

/-- The ticks since 1970, and the time zone with `true` until it has been set. -/
structure Ideal where
  now : ℤ
  tz : Pair
  firsttime : Bool

/-- The time in seconds and microseconds. -/
def Tells (now : ℤ) (tv : Pair) : Prop :=
  tv.1.toInt = now / 100 ∧ (tv.2.toNat : ℤ) = now % 100 * 10000

/-- The clock after a `settimeofday` of the superuser. -/
def Ideal.set (i : Ideal) (tv tz : Option Pair) : Ideal where
  now :=
    match tv, tz with
    | some (sec, usec), _ => sec.toInt * 100 + usec.toInt / 10000
    | none, some tz => if i.firsttime then i.now + tz.1.toInt * 6000 else i.now
    | none, none => i.now
  tz := tz.getD i.tz
  firsttime := i.firsttime && tz.isNone

/-- What may be answered. -/
inductive Ideal.Allows : Ideal → Request → Answer → Ideal → Prop where
  | tick (i : Ideal) : Allows i .tick .ticked { i with now := i.now + 1 }
  | gettimeofday (i : Ideal) {tv : Pair} (tz : Bool) (n : ℕ) (h : Tells (i.now + n) tv) :
      Allows i (.gettimeofday true tz n) (.times (some tv) (if tz then some i.tz else none))
        { i with now := i.now + n }
  | gettimezone (i : Ideal) (tz : Bool) (n : ℕ) :
      Allows i (.gettimeofday false tz n) (.times none (if tz then some i.tz else none)) i
  | settimeofday (i : Ideal) (tv tz : Option Pair) (n : ℕ) :
      Allows i (.settimeofday true tv tz n) (.status 0) (i.set tv tz)
  | settimeofdayRefused (i : Ideal) (tv tz : Option Pair) (n : ℕ) :
      Allows i (.settimeofday false tv tz n) (.status (-EPERM)) i
  | stime (i : Ideal) {sec : BitVec 32} {now : ℤ} (h : sec.toInt = now / 100) :
      Allows i (.stime true sec) (.status 0) { i with now := now }
  | stimeRefused (i : Ideal) (sec : BitVec 32) :
      Allows i (.stime false sec) (.status (-EPERM)) i
  | time (i : Ideal) {t : BitVec 32} (h : t.toInt = i.now / 100) : Allows i .time (.seconds t) i

/-! ### What the clock shows -/

namespace Clock

variable {c : Clock} {n : ℕ}

/-- The ticks since 1970. -/
def now (c : Clock) : ℤ := c.currentTime.toInt * 100 + (c.counted.toNat % 100 : ℕ)

def ideal (c : Clock) : Ideal := ⟨c.now, c.tz, c.firsttime⟩

/-- `jiffies` is read twice with `n` ticks between: no second ends, and the word is not passed. -/
def Within (x : BitVec 32) (n : ℕ) : Prop := x.toNat % 100 + n < 100 ∧ x.toNat + n < 4294967296

/-- The seconds are those of a `long`. -/
def InLong (now : ℤ) : Prop := -214748364800 ≤ now ∧ now < 214748364800

/-- What a request meets. -/
def Careful (c : Clock) : Request → Prop
  | .tick => c.counted.toNat + 1 < 4294967296 ∧ InLong (c.now + 1)
  | .gettimeofday tv _ n => tv = true → Within c.counted n
  | .settimeofday suser tv tz n =>
    suser = true →
      match tv, tz with
      | some (_, usec), _ =>
        (0 ≤ usec.toInt ∧ usec.toInt < 1000000) ∧ Within c.jiffies n ∧
          c.jiffies.toNat / 100 * 100 + usec.toNat / 10000 < 4294967296
      | none, some tz => c.firsttime = true → InLong (c.now + tz.1.toInt * 6000)
      | none, none => True
  | .stime _ _ => True
  | .time => True

theorem now_div (c : Clock) : c.now / 100 = c.currentTime.toInt := by
  rw [now]
  omega

theorem now_mod (c : Clock) : c.now % 100 = (c.counted.toNat % 100 : ℕ) := by
  rw [now]
  omega

theorem HZ_toNat : HZ.toNat = 100 := rfl

theorem ctToUsecs_toNat (x : BitVec 32) : (ctToUsecs x).toNat = x.toNat % 100 * 10000 := by
  have hlt : x.toNat % 100 < 100 := Nat.mod_lt _ (by decide)
  have hmillion : (1000000 : BitVec 32).toNat = 1000000 := rfl
  rw [ctToUsecs, BitVec.toNat_udiv, BitVec.toNat_mul, BitVec.toNat_umod, HZ_toNat, hmillion,
    Nat.mod_eq_of_lt (by omega)]
  omega

/-- The second and the hundredths are those of one moment. -/
theorem tells_now (c : Clock) : Tells c.now (c.currentTime, ctToUsecs c.counted) := by
  refine ⟨(now_div c).symm, ?_⟩
  rw [now_mod, ctToUsecs_toNat]
  exact Int.natCast_mul _ _

theorem counted_ticks (h : c.counted.toNat + n < 4294967296) :
    (c.ticks n).counted.toNat = c.counted.toNat + n := by
  have hmove : (c.ticks n).counted = c.counted + BitVec.ofNat 32 n := by
    simp only [counted, ticks]
    rw [BitVec.add_assoc, BitVec.add_comm (BitVec.ofNat 32 n), ← BitVec.add_assoc]
  rw [hmove, BitVec.toNat_add, BitVec.toNat_ofNat]
  omega

theorem toInt_nonneg_iff (x : BitVec 32) : 0 ≤ x.toInt ↔ x.toNat < 2147483648 := by
  rw [BitVec.toInt_eq_toNat_cond]
  have hlt : x.toNat < 4294967296 := x.isLt
  change 0 ≤ (if 2 * x.toNat < 4294967296 then (x.toNat : ℤ) else x.toNat - (4294967296 : ℕ)) ↔ _
  split <;> omega

/-- The microseconds of a `timeval` in ticks. -/
theorem usec_ticks {usec : BitVec 32} (hpos : 0 ≤ usec.toInt) (hlt : usec.toInt < 1000000) :
    ((usec * HZ).sdiv 1000000).toNat = usec.toNat / 10000 := by
  have hsmall := (toInt_nonneg_iff usec).mp hpos
  rw [BitVec.toInt_eq_toNat_of_lt (by omega)] at hlt
  have hmul : (usec * HZ).toNat = usec.toNat * 100 := by
    rw [BitVec.toNat_mul, HZ_toNat]
    omega
  have hmsb : (usec * HZ).msb = false := by
    rw [BitVec.msb_eq_false_iff_two_mul_lt, hmul]
    omega
  rw [BitVec.sdiv_eq, hmsb]
  change ((usec * HZ) / 1000000).toNat = _
  rw [BitVec.toNat_udiv, hmul]
  change usec.toNat * 100 / 1000000 = _
  omega

theorem toInt_emod (x : BitVec 32) : x.toInt % 4294967296 = x.toNat := by
  rw [BitVec.toInt_eq_toNat_cond]
  have hlt : x.toNat < 4294967296 := x.isLt
  change (if 2 * x.toNat < 4294967296 then (x.toNat : ℤ) else x.toNat - (4294967296 : ℕ)) %
    4294967296 = _
  split <;> omega

/-- A word is the `long` that it is modulo 2^32. -/
theorem toInt_of_emod {x : BitVec 32} {z : ℤ} (h : z % 4294967296 = x.toNat)
    (hlow : -2147483648 ≤ z) (hhigh : z < 2147483648) : x.toInt = z := by
  rw [BitVec.toInt_eq_toNat_cond]
  have hlt : x.toNat < 4294967296 := x.isLt
  change (if 2 * x.toNat < 4294967296 then (x.toNat : ℤ) else x.toNat - (4294967296 : ℕ)) = _
  split <;> omega

theorem currentTime_toNat (c : Clock) :
    c.currentTime.toNat = (c.startupTime.toNat + c.counted.toNat / 100) % 4294967296 := by
  rw [currentTime, BitVec.toNat_add, BitVec.toNat_udiv, HZ_toNat]

/-- The counter does not wrap, and so the clock goes on by `n` ticks. -/
theorem now_ticks (hcount : c.counted.toNat + n < 4294967296) (hlong : InLong (c.now + n)) :
    (c.ticks n).now = c.now + n := by
  obtain ⟨hlow, hhigh⟩ := hlong
  have hmove := counted_ticks hcount
  have hsec : (c.ticks n).currentTime.toInt = (c.now + n) / 100 := by
    refine toInt_of_emod ?_ (by omega) (by omega)
    have hbefore := toInt_emod c.currentTime
    rw [currentTime_toNat] at hbefore
    rw [currentTime_toNat, hmove]
    change _ = (((c.startupTime.toNat + _) % _ : ℕ) : ℤ)
    rw [now]
    omega
  rw [now, hsec, hmove]
  have hmod := now_mod c
  omega

/-- No second ends, and so the seconds are those of the later moment. -/
theorem now_within (h : Within c.counted n) :
    (c.ticks n).currentTime = c.currentTime ∧ (c.ticks n).now = c.now + n := by
  obtain ⟨hsecond, hcount⟩ := h
  have hmove := counted_ticks hcount
  have hsame : (c.ticks n).currentTime = c.currentTime := by
    apply BitVec.eq_of_toNat_eq
    rw [currentTime_toNat, currentTime_toNat, hmove]
    change (c.startupTime.toNat + _) % _ = _
    rw [show (c.counted.toNat + n) / 100 = c.counted.toNat / 100 by omega]
  refine ⟨hsame, ?_⟩
  rw [now, hsame, hmove, now]
  omega

theorem now_adjustClock (h : InLong (c.now + c.tz.1.toInt * 6000)) :
    c.adjustClock.now = c.now + c.tz.1.toInt * 6000 := by
  obtain ⟨hlow, hhigh⟩ := h
  have hsec : c.adjustClock.currentTime.toInt = c.currentTime.toInt + c.tz.1.toInt * 60 := by
    rw [now] at hlow hhigh
    refine toInt_of_emod ?_ (by omega) (by omega)
    have hbefore := toInt_emod c.currentTime
    have hzone := toInt_emod c.tz.1
    rw [currentTime_toNat] at hbefore
    rw [currentTime_toNat]
    change _ = ((((c.startupTime + c.tz.1 * 60).toNat + c.counted.toNat / 100) % _ : ℕ) : ℤ)
    rw [BitVec.toNat_add, BitVec.toNat_mul]
    change _ = ((((c.startupTime.toNat + c.tz.1.toNat * 60 % 4294967296) % 4294967296 +
      c.counted.toNat / 100) % 4294967296 : ℕ) : ℤ)
    omega
  rw [now, hsec, now]
  change _ + ((c.counted.toNat % 100 : ℕ) : ℤ) = _
  omega

/-- From the start of the second that `jiffies` is in, the counter is the microseconds on. -/
theorem setTv_counted {sec usec : BitVec 32} (husec : 0 ≤ usec.toInt ∧ usec.toInt < 1000000)
    (hw : Within c.jiffies n) :
    (c.setTv n (some (sec, usec))).counted.toNat =
      (c.jiffies.toNat / 100 * 100 + usec.toNat / 10000) % 4294967296 := by
  obtain ⟨hsecond, hcount⟩ := hw
  have hj : (c.ticks n).jiffies.toNat = c.jiffies.toNat + n := by
    change (c.jiffies + BitVec.ofNat 32 n).toNat = _
    rw [BitVec.toNat_add, BitVec.toNat_ofNat]
    omega
  have hsmall := (toInt_nonneg_iff usec).mp husec.1
  change ((c.ticks n).jiffies +
    ((usec * HZ).sdiv 1000000 - (c.ticks n).jiffies % HZ)).toNat = _
  rw [BitVec.toNat_add, BitVec.toNat_sub, BitVec.toNat_umod, HZ_toNat,
    usec_ticks husec.1 husec.2, hj]
  omega

/-- The second is read back exactly if the counter has not wrapped. -/
theorem setTv_currentTime {sec usec : BitVec 32} (husec : 0 ≤ usec.toInt ∧ usec.toInt < 1000000)
    (hw : Within c.jiffies n) :
    (c.setTv n (some (sec, usec))).currentTime = sec ↔
      c.jiffies.toNat / 100 * 100 + usec.toNat / 10000 < 4294967296 := by
  have hsmall := (toInt_nonneg_iff usec).mp husec.1
  have husecInt : usec.toInt = usec.toNat := BitVec.toInt_eq_toNat_of_lt (by omega)
  rw [husecInt] at husec
  have hsec : (c.setTv n (some (sec, usec))).startupTime.toNat =
      (4294967296 - c.jiffies.toNat / 100 + sec.toNat) % 4294967296 := by
    change (sec - c.jiffies / HZ).toNat = _
    rw [BitVec.toNat_sub, BitVec.toNat_udiv, HZ_toNat]
  have hlt : sec.toNat < 4294967296 := sec.isLt
  have hj : c.jiffies.toNat < 4294967296 := c.jiffies.isLt
  rw [← BitVec.toNat_inj, currentTime_toNat, setTv_counted (husecInt ▸ husec) hw, hsec]
  by_cases hroom : c.jiffies.toNat / 100 * 100 + usec.toNat / 10000 < 4294967296
  · rw [Nat.mod_eq_of_lt hroom]
    omega
  · -- the counter is in its first second again
    have hwrap : (c.jiffies.toNat / 100 * 100 + usec.toNat / 10000) % 4294967296 =
        c.jiffies.toNat / 100 * 100 + usec.toNat / 10000 - 4294967296 := by
      rw [Nat.mod_eq_sub_mod (Nat.not_lt.mp hroom)]
      exact Nat.mod_eq_of_lt (by omega)
    rw [hwrap]
    omega

/-- Where `jiffies` starts a new second, the offset is the microseconds alone. -/
theorem setTv_now {sec usec : BitVec 32} (husec : 0 ≤ usec.toInt ∧ usec.toInt < 1000000)
    (hw : Within c.jiffies n)
    (hroom : c.jiffies.toNat / 100 * 100 + usec.toNat / 10000 < 4294967296) :
    (c.setTv n (some (sec, usec))).now = sec.toInt * 100 + usec.toInt / 10000 := by
  have hsmall := (toInt_nonneg_iff usec).mp husec.1
  have husecInt : usec.toInt = usec.toNat := BitVec.toInt_eq_toNat_of_lt (by omega)
  rw [now, (setTv_currentTime husec hw).mpr hroom, setTv_counted husec hw, Nat.mod_eq_of_lt hroom]
  rw [husecInt] at husec ⊢
  omega

theorem stime_now (sec : BitVec 32) : (c.stime true sec).2.now / 100 = sec.toInt := by
  rw [now_div]
  change ((sec - c.jiffies / HZ) + (c.jiffies + 0#32) / HZ).toInt = _
  rw [BitVec.add_zero, BitVec.sub_add_cancel]

theorem setTz_some (tv : Pair) (tz : Option Pair) :
    c.setTz (some tv) tz =
      { c with tz := tz.getD c.tz, firsttime := c.firsttime && tz.isNone } := by
  cases tz <;> simp [setTz]

theorem setTz_none_ideal {tz : Pair}
    (h : c.firsttime = true → InLong (c.now + tz.1.toInt * 6000)) :
    (c.setTz none (some tz)).ideal = c.ideal.set none (some tz) := by
  cases hfirst : c.firsttime with
  | false =>
    simp only [setTz, Ideal.set, ideal, hfirst]
    rfl
  | true =>
    have hnow := now_adjustClock (c := { c with tz := tz, firsttime := false }) (h hfirst)
    have hset : c.setTz none (some tz) =
        { c with tz := tz, firsttime := false : Clock }.adjustClock := by
      simp [setTz, hfirst]
    rw [hset]
    simp only [Ideal.set, ideal, hfirst, hnow]
    rfl

/-- `settimeofday` sets the ideal clock. -/
theorem set_ideal {tv tz : Option Pair}
    (h : match tv, tz with
      | some (_, usec), _ =>
        (0 ≤ usec.toInt ∧ usec.toInt < 1000000) ∧ Within c.jiffies n ∧
          c.jiffies.toNat / 100 * 100 + usec.toNat / 10000 < 4294967296
      | none, some tz => c.firsttime = true → InLong (c.now + tz.1.toInt * 6000)
      | none, none => True) :
    ((c.setTz tv tz).setTv n tv).ideal = c.ideal.set tv tz := by
  cases tv with
  | none =>
    cases tz with
    | none => simp [setTz, setTv, Ideal.set, ideal]
    | some tz => exact setTz_none_ideal h
  | some tv =>
    obtain ⟨sec, usec⟩ := tv
    obtain ⟨husec, hw, hroom⟩ := h
    rw [setTz_some]
    -- the part for `tz` leaves `jiffies`
    have hnow : (Clock.setTv { c with tz := tz.getD c.tz, firsttime := c.firsttime && tz.isNone } n
        (some (sec, usec))).now = sec.toInt * 100 + usec.toInt / 10000 :=
      setTv_now husec hw hroom
    rw [ideal, hnow]
    rfl

/-- A step of the clock is one of the ideal clock. -/
theorem next_allowed (c : Clock) (req : Request) (h : c.Careful req) :
    c.ideal.Allows req (c.next req).1 (c.next req).2.ideal := by
  cases req with
  | tick =>
    have hnow := now_ticks h.1 h.2
    change Ideal.Allows _ _ _ ⟨(c.ticks 1).now, c.tz, c.firsttime⟩
    rw [hnow]
    exact .tick c.ideal
  | gettimeofday tv tz n =>
    cases tv with
    | false => exact .gettimezone c.ideal tz n
    | true =>
      obtain ⟨hsame, hnow⟩ := now_within (h rfl)
      have htells := tells_now (c.ticks n)
      rw [hsame, hnow] at htells
      change Ideal.Allows _ _ _ ⟨(c.ticks n).now, c.tz, c.firsttime⟩
      rw [hnow]
      exact .gettimeofday c.ideal tz n htells
  | settimeofday suser tv tz n =>
    cases suser with
    | false => exact .settimeofdayRefused c.ideal tv tz n
    | true =>
      change Ideal.Allows _ _ _ ((c.setTz tv tz).setTv n tv).ideal
      rw [set_ideal (h rfl)]
      exact .settimeofday c.ideal tv tz n
  | stime suser sec =>
    cases suser with
    | false => exact .stimeRefused c.ideal sec
    | true => exact .stime c.ideal (stime_now sec).symm
  | time => exact .time c.ideal (now_div c).symm

/-- What `gettimeofday` tells directly after `settimeofday`. -/
def readBack (c : Clock) (sec usec : BitVec 32) : Answer :=
  ((c.settimeofday true (some (sec, usec)) none 0).2.gettimeofday true false 0).1

theorem readBack_iff {sec usec : BitVec 32} (husec : 0 ≤ usec.toInt ∧ usec.toInt < 1000000) :
    c.readBack sec usec = .times (some (sec, usec / 10000 * 10000)) none ↔
      c.jiffies.toNat / 100 * 100 + usec.toNat / 10000 < 4294967296 := by
  have hw : Within c.jiffies 0 := ⟨Nat.mod_lt _ (by decide), c.jiffies.isLt⟩
  have hiff : (c.setTv 0 (some (sec, usec))).currentTime = sec ↔ _ := setTv_currentTime husec hw
  have hread : c.readBack sec usec = .times (some ((c.setTv 0 (some (sec, usec))).currentTime,
      ctToUsecs (c.setTv 0 (some (sec, usec))).counted)) none := by
    change Answer.times (some (_, ctToUsecs (((c.setTv 0 (some (sec, usec))).jiffies + 0#32) + _)))
      none = _
    rw [BitVec.add_zero]
    rfl
  rw [hread]
  constructor
  · intro h
    exact hiff.mp (congrArg Prod.fst (Option.some.inj (Answer.times.inj h).1))
  · intro hroom
    have husecs : ctToUsecs (c.setTv 0 (some (sec, usec))).counted = usec / 10000 * 10000 := by
      apply BitVec.eq_of_toNat_eq
      have hsmall := (toInt_nonneg_iff usec).mp husec.1
      have husecInt : usec.toInt = usec.toNat := BitVec.toInt_eq_toNat_of_lt (by omega)
      rw [ctToUsecs_toNat, setTv_counted husec hw, Nat.mod_eq_of_lt hroom, BitVec.toNat_mul,
        BitVec.toNat_udiv]
      change _ = usec.toNat / 10000 * 10000 % 4294967296
      rw [husecInt] at husec
      have hticks : usec.toNat / 10000 < 100 := by omega
      rw [Nat.mul_add_mod', Nat.mod_eq_of_lt hticks]
      exact (Nat.mod_eq_of_lt (by omega)).symm
    rw [hiff.mpr hroom, husecs]

end Clock

/-- A request is answered, whatever it is. -/
def Clock.answer (c : Clock) (req : Request) : Option (Answer × Clock) := some (c.next req)

/-- As long as the requests are careful, the clock answers like the ideal one; and a time that is
set is read back exactly if the counter does not pass the word. -/
theorem wall_clock (c : Clock) (reqs : List Request)
    (h : Along Clock.Careful Clock.answer reqs c) :
    (∃ as c', answers Clock.answer reqs c = some (as, c') ∧
      Answers Ideal.Allows c.ideal reqs as c'.ideal) ∧
    ∀ sec usec : BitVec 32, 0 ≤ usec.toInt ∧ usec.toInt < 1000000 →
      (c.readBack sec usec = .times (some (sec, usec / 10000 * 10000)) none ↔
        c.jiffies.toNat / 100 * 100 + usec.toNat / 10000 < 4294967296) := by
  have hstep : ∀ (c : Clock) (i : Ideal) (req : Request), i = c.ideal → c.Careful req →
      ∃ b c' i', c.answer req = some (b, c') ∧ i' = c'.ideal ∧ i.Allows req b i' := by
    rintro c _ req rfl hcareful
    exact ⟨_, _, _, rfl, rfl, c.next_allowed req hcareful⟩
  obtain ⟨as, c', _, hrun, rfl, hallowed⟩ := answers_allowed hstep rfl h
  exact ⟨⟨as, c', hrun, hallowed⟩, fun _ _ husec => Clock.readBack_iff husec⟩

/-- The last tick before the counter wraps, after 497 days. -/
def lateClock : Clock := ⟨4294967295, 0, 0, (0, 0), true⟩

/-- A time that is set in the middle of the last second, and read. -/
def lateRequests : List Request :=
  [.settimeofday true (some (1000000000, 950000)) none 0, .gettimeofday true false 0, .time]

theorem wall_clock_late :
    ∃ as c', answers Clock.answer lateRequests lateClock = some (as, c') ∧
      Answers Ideal.Allows lateClock.ideal lateRequests as c'.ideal := by
  have hcareful : Along Clock.Careful Clock.answer lateRequests lateClock := by
    refine ⟨fun _ => ⟨by decide, ⟨by decide, by decide⟩, by decide⟩, ?_⟩
    intro b c' h
    cases Option.some.inj h
    refine ⟨fun _ => ⟨by decide, by decide⟩, fun b c'' h => ?_⟩
    exact ⟨trivial, fun _ _ _ => trivial⟩
  exact (wall_clock lateClock lateRequests hcareful).1

/-- The second 1000000000 that is set is read back as 957050328; and the clock of a machine that
nobody has set goes back when the counter wraps. -/
theorem settimeofday_wraps :
    lateClock.readBack 1000000000 990000 = .times (some (957050328, 30000)) none ∧
      (lateClock.next .tick).2.now < lateClock.now := by
  decide

end Sys
