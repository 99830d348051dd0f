/-
The alarm clock of a process (`sys_alarm` and the first loop of `schedule`, kernel/sched.c).

* `sysAlarm` — the system call, with the 32-bit arithmetic of `jiffies`;
* `AlarmClock` — the tasks, with the time that has really passed, and the alarms asked for;
* `Right` — `schedule` posts SIGALRM to the tasks whose alarm is due and to no others, and
  `sys_alarm` returns the seconds that remained;
* `alarm_clock` — this holds in all runs in which no deadline is beyond the end of the 32-bit time,
  no alarm is set when that time wraps, and none is due and not posted when it is set anew;
* `alarm_clock_wraps` — an alarm of a second, set half a second before the time wraps.

Design notes: the first task never calls `sys_alarm`, and `schedule` does not look at its alarm.
-/
import Linux012.Scheduler

namespace Sched

open Function (update)
open Signals (bit)
open Sessions (slots)

def HZ : ℕ := 100

namespace ProcTable

/-- `sys_alarm`: its result, and the tasks afterwards. `jiffies` is unsigned, so the rest of the
old alarm is too. -/
def sysAlarm (s : ProcTable) (seconds : BitVec 32) : Option (BitVec 32 × ProcTable) :=
  match s.task s.cur with
  | none => none
  | some t =>
    let old := if t.alarm ≠ 0 then (t.alarm - s.jiffies) / 100 else t.alarm
    let alarm := if 0 < seconds.toInt then s.jiffies + 100 * seconds else 0
    some (old, s.setTask s.cur (some { t with alarm }))

/-- The field `alarm` of the task in a slot. -/
def alarmAt (s : ProcTable) (k : ℕ) : Option (BitVec 32) := (s.task k).map Proc.alarm

end ProcTable

/-- An alarm that was asked for: when, and for how many seconds. -/
structure Timer where
  set : ℕ
  seconds : ℕ

namespace Timer

def deadline (timer : Timer) : ℕ := timer.set + HZ * timer.seconds

/-- The whole seconds that remain. -/
def remaining (timer : Timer) (now : ℕ) : ℕ := (timer.deadline - now) / HZ

end Timer

/-- The tasks, and the ticks that have passed. `timer` is the alarm that a task has asked for last,
until a call of `schedule` finds that it is due. -/
structure AlarmClock where
  table : ProcTable
  now : ℕ
  timer : ℕ → Option Timer

inductive AlarmEvent where
  | sched (e : SchedEvent)
  | alarm (seconds : BitVec 32)

/-- The ticks that a step counts before it calls `schedule`. -/
def SchedEvent.ticks : SchedEvent → ℕ
  | .tick _ => 1
  | _ => 0

/-- The rest of the kernel leaves `alarm` as it is. -/
def ProcTable.AlarmKept (s : ProcTable) : SchedEvent → Prop
  | .other k t => ∀ t' ∈ t, s.alarmAt k = some t'.alarm
  | _ => True

instance (s : ProcTable) : (e : SchedEvent) → Decidable (s.AlarmKept e)
  | .other k t => inferInstanceAs (Decidable (∀ t' ∈ t, s.alarmAt k = some t'.alarm))
  | .schedule | .tick _ | .nice _ | .fork _ => .isTrue trivial

namespace AlarmClock

/-- The alarm of the task in a slot is due. -/
def Due (s : AlarmClock) (k now : ℕ) : Prop := ∃ timer ∈ s.timer k, timer.deadline < now

instance (s : AlarmClock) (k now : ℕ) : Decidable (s.Due k now) :=
  inferInstanceAs (Decidable (∃ timer ∈ s.timer k, timer.deadline < now))

/-- The alarms after a step that leaves `table`. -/
def timersAfter (s : AlarmClock) (e : SchedEvent) (table : ProcTable) (k : ℕ) : Option Timer :=
  if table.task k = none then none
  else if (s.table.calls e).isSome ∧ s.Due k (s.now + e.ticks) then none
  else s.timer k

/-- A step, with a bound on the rounds of `schedule`. -/
def next (n : ℕ) (s : AlarmClock) : AlarmEvent → Option AlarmClock
  | .sched e =>
    if s.table.AlarmKept e then
      (s.table.next n e).map fun table => ⟨table, s.now + e.ticks, s.timersAfter e table⟩
    else none
  | .alarm seconds => (s.table.sysAlarm seconds).map fun r =>
      ⟨r.2, s.now, update s.timer s.table.cur
        (if 0 < seconds.toInt then some ⟨s.now, seconds.toNat⟩ else none)⟩

/-- What a step does with the alarms is right. -/
def Right (s : AlarmClock) : AlarmEvent → Prop
  | .sched e => ∀ table, s.table.calls e = some table → ∀ k ∈ slots, ∀ t t',
      table.task k = some t → table.checked.task k = some t' →
        t'.signal = if s.Due k (s.now + e.ticks) then t.signal ||| bit SIGALRM else t.signal
  | .alarm seconds => ∀ old table, s.table.sysAlarm seconds = some (old, table) →
      s.table.cur ∈ slots →
        old.toInt = (s.timer s.table.cur).elim 0 (·.remaining s.now) ∧
          ∀ timer ∈ s.timer s.table.cur, old.toInt ≤ timer.seconds

/-- The time does not wrap while an alarm is set, nor before it is due; and an alarm that is due has
been posted when its process asks for another one. -/
def Careful (s : AlarmClock) : AlarmEvent → Prop
  | .sched (.tick _) => s.table.jiffies.toNat + 1 = 2 ^ 32 →
      ∀ k ∈ slots, ∀ t ∈ s.table.task k, t.alarm = 0
  | .alarm seconds => (0 < seconds.toInt →
        s.table.jiffies.toNat + HZ * seconds.toNat < 2 ^ 32) ∧
      ∀ t ∈ s.table.task s.table.cur, t.alarm = 0 ∨ s.table.jiffies.toNat ≤ t.alarm.toNat ∨
        t.alarm.toNat + 2 ^ 32 < s.table.jiffies.toNat + HZ
  | _ => True

/-- The start of the system, at any time. -/
def start (jiffies : BitVec 32) : AlarmClock := ⟨.start jiffies, jiffies.toNat, fun _ => none⟩

end AlarmClock

/-- The runs from the start of the system. -/
def alarms : System AlarmClock AlarmEvent where
  init s := ∃ jiffies, s = .start jiffies
  step s e s' := ∃ n, s.next n e = some s'

/-! ### The field `alarm` -/

section Field

variable {s s' : ProcTable} {t : Proc} {k n : ℕ} {e : SchedEvent}

/-- What `schedule` makes of an alarm, and of a time-out. -/
def expire (jiffies alarm : BitVec 32) : BitVec 32 :=
  if alarm ≠ 0 ∧ alarm.toNat < jiffies.toNat then 0 else alarm

theorem check_alarm (jiffies : BitVec 32) (t : Proc) :
    (t.check jiffies).alarm = expire jiffies t.alarm := by
  rw [Proc.check, expire]
  split <;> split <;> split <;> simp_all

theorem check_timeout (jiffies : BitVec 32) (t : Proc) :
    (t.check jiffies).timeout = expire jiffies t.timeout := by
  rw [Proc.check, expire]
  split <;> split <;> split <;> simp_all

theorem check_blocked (jiffies : BitVec 32) (t : Proc) : (t.check jiffies).blocked = t.blocked := by
  rw [Proc.check]
  split <;> split <;> split <;> simp_all

theorem check_signal (jiffies : BitVec 32) (t : Proc) : (t.check jiffies).signal =
    if t.alarm ≠ 0 ∧ t.alarm.toNat < jiffies.toNat then t.signal ||| bit SIGALRM
    else t.signal := by
  rw [Proc.check]
  split <;> split <;> split <;> simp_all

namespace ProcTable

theorem alarmAt_checked (hk : k ∈ slots) :
    s.checked.alarmAt k = (s.alarmAt k).map (expire s.jiffies) := by
  rw [alarmAt, checked, onSlots_task hk, alarmAt, Option.map_map, Option.map_map]
  congr 1
  funext t
  exact check_alarm _ _

theorem alarmAt_recharged : s.recharged.alarmAt k = s.alarmAt k := by
  rw [alarmAt, recharged, onSlots]
  dsimp only
  split
  · rw [Option.map_map]
    rfl
  · rfl

theorem scheduleLoop_alarmAt (h : scheduleLoop n s = some s') :
    s'.alarmAt k = s.alarmAt k ∧ s'.jiffies = s.jiffies := by
  induction n generalizing s with
  | zero => cases h
  | succ n ih =>
    rw [scheduleLoop] at h
    split at h
    · obtain rfl := Option.some.inj h
      exact ⟨rfl, rfl⟩
    · obtain ⟨halarm, hjiffies⟩ := ih h
      exact ⟨halarm.trans alarmAt_recharged, hjiffies⟩

theorem schedule_alarmAt (h : s.schedule n = some s') (hk : k ∈ slots) :
    s'.alarmAt k = (s.alarmAt k).map (expire s.jiffies) ∧ s'.jiffies = s.jiffies := by
  obtain ⟨halarm, hjiffies⟩ := scheduleLoop_alarmAt (k := k) h
  exact ⟨halarm.trans (alarmAt_checked hk), hjiffies⟩

theorem alarmAt_setTask_of_ne {j : ℕ} {o : Option Proc} (h : k ≠ j) :
    (s.setTask j o).alarmAt k = s.alarmAt k := by
  rw [alarmAt, setTask]
  dsimp only
  rw [Function.update_of_ne h, alarmAt]

theorem alarmAt_setTask_self {o : Option Proc} : (s.setTask k o).alarmAt k = o.map Proc.alarm := by
  rw [alarmAt, setTask]
  dsimp only
  rw [Function.update_self]

/-- A task that is changed in another field. -/
theorem alarmAt_setTask {j : ℕ} {t' : Proc} (ht : s.task j = some t) (ha : t'.alarm = t.alarm) :
    (s.setTask j (some t')).alarmAt k = s.alarmAt k := by
  by_cases hk : k = j
  · rw [hk, alarmAt_setTask_self, alarmAt, ht, Option.map_some, Option.map_some, ha]
  · exact alarmAt_setTask_of_ne hk

theorem alarmAt_sysNice (increment : BitVec 32) : (s.sysNice increment).alarmAt k = s.alarmAt k := by
  rw [sysNice]
  cases ht : s.task s.cur with
  | none => rfl
  | some t =>
    dsimp only
    split
    · exact alarmAt_setTask ht rfl
    · rfl

theorem doTimer_alarmAt (cpl : Bool) : (s.doTimer cpl).1.alarmAt k = s.alarmAt k ∧
    (s.doTimer cpl).1.jiffies = s.jiffies + 1 := by
  rw [doTimer]
  dsimp only
  cases ht : s.task s.cur with
  | none => exact ⟨rfl, rfl⟩
  | some t =>
    dsimp only
    split
    · exact ⟨alarmAt_setTask (s := { s with jiffies := s.jiffies + 1 }) ht rfl, rfl⟩
    · exact ⟨alarmAt_setTask (s := { s with jiffies := s.jiffies + 1 }) ht rfl, rfl⟩

/-- What a step does with the alarm of a slot, if it leaves a task there: that task is new, or the
alarm is as it was up to the call of `schedule`. -/
theorem next_alarmAt (h : s.next n e = some s') (hkept : s.AlarmKept e) (hk : k ∈ slots) :
    s'.alarmAt k = none ∨ s.alarmAt k = none ∧ s'.alarmAt k = some 0 ∨
      s'.alarmAt k = match s.calls e with
        | some table => (s.alarmAt k).map (expire table.jiffies)
        | none => s.alarmAt k := by
  cases e with
  | schedule => exact .inr (.inr (schedule_alarmAt h hk).1)
  | tick cpl =>
    obtain ⟨halarm, -⟩ := doTimer_alarmAt (s := s) (k := k) cpl
    refine .inr (.inr ?_)
    rw [next] at h
    rw [calls]
    split at h
    case isTrue hcall =>
      rw [if_pos hcall]
      dsimp only
      rw [(schedule_alarmAt h hk).1, halarm]
    case isFalse hcall =>
      rw [if_neg hcall]
      obtain rfl := Option.some.inj h
      exact halarm
  | nice increment =>
    obtain rfl := Option.some.inj h
    exact .inr (.inr (alarmAt_sysNice increment))
  | fork j =>
    rw [next] at h
    cases ht : s.task s.cur with
    | none =>
      rw [ht] at h
      cases h
    | some t =>
      rw [ht] at h
      dsimp only at h
      split at h
      case isFalse => cases h
      case isTrue hfree =>
        obtain rfl := Option.some.inj h
        by_cases hkj : k = j
        · -- the child has no alarm
          refine .inr (.inl ⟨?_, ?_⟩)
          · rw [hkj, alarmAt, hfree.2]
            rfl
          · rw [hkj, alarmAt_setTask_self]
            rfl
        · exact .inr (.inr (alarmAt_setTask_of_ne hkj))
  | other j t =>
    rw [next] at h
    split at h
    case isFalse => cases h
    case isTrue =>
      obtain rfl := Option.some.inj h
      by_cases hkj : k = j
      · rw [hkj, alarmAt_setTask_self]
        cases t with
        | none => exact .inl rfl
        | some t => exact .inr (.inr (hkept t rfl).symm)
      · exact .inr (.inr (alarmAt_setTask_of_ne hkj))

theorem calls_jiffies {table : ProcTable} (h : s.calls e = some table) :
    table.jiffies = s.jiffies + BitVec.ofNat 32 e.ticks ∧ table.alarmAt k = s.alarmAt k := by
  cases e with
  | schedule =>
    obtain rfl := Option.some.inj h
    exact ⟨(BitVec.add_zero _).symm, rfl⟩
  | tick cpl =>
    rw [calls] at h
    split at h
    case isFalse => cases h
    case isTrue =>
      obtain rfl := Option.some.inj h
      obtain ⟨halarm, hjiffies⟩ := doTimer_alarmAt (s := s) (k := k) cpl
      exact ⟨hjiffies, halarm⟩
  | nice increment => cases h
  | fork j => cases h
  | other j t => cases h

theorem next_jiffies (h : s.next n e = some s') :
    s'.jiffies = s.jiffies + BitVec.ofNat 32 e.ticks := by
  cases e with
  | schedule =>
    have hsched := (schedule_alarmAt (k := 1) h (by decide)).2
    rw [hsched]
    exact (BitVec.add_zero _).symm
  | tick cpl =>
    have htimer := (doTimer_alarmAt (s := s) (k := 1) cpl).2
    rw [next] at h
    split at h
    · rw [(schedule_alarmAt (k := 1) h (by decide)).2, htimer]
      rfl
    · obtain rfl := Option.some.inj h
      exact htimer
  | nice increment =>
    obtain rfl := Option.some.inj h
    rw [sysNice]
    cases s.task s.cur with
    | none => exact (BitVec.add_zero _).symm
    | some t =>
      dsimp only
      split <;> exact (BitVec.add_zero _).symm
  | fork j =>
    rw [next] at h
    cases ht : s.task s.cur with
    | none =>
      rw [ht] at h
      cases h
    | some t =>
      rw [ht] at h
      dsimp only at h
      split at h
      case isFalse => cases h
      case isTrue =>
        obtain rfl := Option.some.inj h
        exact (BitVec.add_zero _).symm
  | other j t =>
    rw [next] at h
    split at h
    case isFalse => cases h
    case isTrue =>
      obtain rfl := Option.some.inj h
      exact (BitVec.add_zero _).symm

end ProcTable

end Field

/-! ### The alarm and the time -/

/-- The field `alarm` of a task is the deadline of its alarm, which is not beyond the end of the
32-bit time. -/
def Agrees (now : ℕ) : Option Timer → Option (BitVec 32) → Prop
  | none, a => ∀ alarm ∈ a, alarm = 0
  | some timer, a => timer.set ≤ now ∧ timer.deadline / 2 ^ 32 = now / 2 ^ 32 ∧
      ∃ alarm, a = some alarm ∧ alarm ≠ 0 ∧ alarm.toNat = timer.deadline % 2 ^ 32

namespace Agrees

variable {now : ℕ} {timer : Option Timer} {a : Option (BitVec 32)} {jiffies alarm : BitVec 32}

/-- The comparison of `schedule`. -/
theorem due (h : Agrees now timer (some alarm)) (hj : jiffies.toNat = now % 2 ^ 32) :
    (alarm ≠ 0 ∧ alarm.toNat < jiffies.toNat) ↔ ∃ tm ∈ timer, tm.deadline < now := by
  cases timer with
  | none =>
    constructor
    · intro hdue
      exact absurd (h alarm rfl) hdue.1
    · rintro ⟨tm, htm, -⟩
      cases htm
  | some tm =>
    obtain ⟨-, hepoch, alarm', heq, hne, hval⟩ := h
    obtain rfl := Option.some.inj heq
    constructor
    · intro hdue
      exact ⟨tm, rfl, by omega⟩
    · rintro ⟨tm', htm, hlt⟩
      obtain rfl := Option.some.inj htm
      exact ⟨hne, by omega⟩

/-- A tick, unless the time wraps while an alarm is set. -/
theorem tick (h : Agrees now timer a)
    (hwrap : now % 2 ^ 32 + 1 = 2 ^ 32 → ∀ alarm ∈ a, alarm = 0) : Agrees (now + 1) timer a := by
  cases timer with
  | none => exact h
  | some tm =>
    obtain ⟨hset, hepoch, alarm, rfl, hne, hval⟩ := h
    have hlt : now % 2 ^ 32 + 1 ≠ 2 ^ 32 := fun heq => hne (hwrap heq alarm rfl)
    exact ⟨by omega, by omega, alarm, rfl, hne, hval⟩

/-- The loop of `schedule`. -/
theorem expire (h : Agrees now timer a) (hj : jiffies.toNat = now % 2 ^ 32) :
    Agrees now (if ∃ tm ∈ timer, tm.deadline < now then none else timer)
      (a.map (expire jiffies)) := by
  cases a with
  | none =>
    cases timer with
    | none =>
      rw [if_neg (by rintro ⟨tm, htm, -⟩; cases htm)]
      exact h
    | some tm =>
      obtain ⟨-, -, alarm, heq, -⟩ := h
      cases heq
  | some alarm =>
    rw [Option.map_some, Sched.expire]
    by_cases hdue : ∃ tm ∈ timer, tm.deadline < now
    · rw [if_pos hdue, if_pos ((h.due hj).mpr hdue)]
      intro alarm' heq
      exact (Option.some.inj heq).symm
    · rw [if_neg hdue, if_neg fun hlt => hdue ((h.due hj).mp hlt)]
      exact h

theorem timer_eq_none (h : Agrees now timer none) : timer = none := by
  cases timer with
  | none => rfl
  | some tm =>
    obtain ⟨-, -, alarm, heq, -⟩ := h
    cases heq

/-- What `sys_alarm` returns. -/
theorem remaining (h : Agrees now timer (some alarm)) (hj : jiffies.toNat = now % 2 ^ 32)
    (hposted : alarm = 0 ∨ jiffies.toNat ≤ alarm.toNat ∨
      alarm.toNat + 2 ^ 32 < jiffies.toNat + HZ) :
    (if alarm ≠ 0 then (alarm - jiffies) / 100 else alarm).toInt =
      timer.elim 0 (·.remaining now) := by
  have hdiv : ∀ x : BitVec 32, (x / 100).toInt = (x.toNat / HZ : ℕ) := by
    intro x
    have hlt := x.isLt
    have hval : (x / 100).toNat = x.toNat / HZ := BitVec.toNat_udiv
    rw [BitVec.toInt_eq_toNat_of_lt, hval]
    rw [hval, HZ]
    omega
  cases timer with
  | none =>
    have hzero : alarm = 0 := h alarm rfl
    rw [if_neg (not_not.mpr hzero), hzero]
    rfl
  | some tm =>
    obtain ⟨-, hepoch, alarm', heq, hne, hval⟩ := h
    obtain rfl := Option.some.inj heq
    have hlt := alarm.isLt
    rw [if_pos hne, hdiv, Option.elim_some, Timer.remaining, BitVec.toNat_sub]
    congr 1
    rw [HZ] at *
    rcases hposted with hzero | hle | hlong
    · exact absurd hzero hne
    · congr 1
      omega
    · -- both quotients are 0
      rw [Nat.div_eq_of_lt (by omega), Nat.div_eq_of_lt (by omega)]

end Agrees

namespace AlarmClock

variable {s s' : AlarmClock} {k n : ℕ} {e : SchedEvent} {seconds : BitVec 32}

/-- The time of the kernel is the time that has passed, in 32 bits; and so are its alarms. -/
structure Good (s : AlarmClock) : Prop where
  jiffies : s.table.jiffies.toNat = s.now % 2 ^ 32
  timers : ∀ k ∈ slots, Agrees s.now (s.timer k) (s.table.alarmAt k)

theorem Good.ticked (h : s.Good) : (s.table.jiffies + BitVec.ofNat 32 e.ticks).toNat =
    (s.now + e.ticks) % 2 ^ 32 := by
  rw [BitVec.toNat_add, BitVec.toNat_ofNat, h.jiffies]
  omega

/-- The alarms at the call of `schedule`. -/
theorem Good.agrees (h : s.Good) (hcare : Careful s (.sched e)) (hk : k ∈ slots) :
    Agrees (s.now + e.ticks) (s.timer k) (s.table.alarmAt k) := by
  cases e with
  | tick cpl =>
    refine (h.timers k hk).tick fun hwrap alarm halarm => ?_
    obtain ⟨t, ht, rfl⟩ := Option.mem_map.mp halarm
    refine hcare ?_ k hk t ht
    rw [h.jiffies]
    exact hwrap
  | schedule => exact h.timers k hk
  | nice increment => exact h.timers k hk
  | fork j => exact h.timers k hk
  | other j t => exact h.timers k hk

theorem Good.sched {table : ProcTable} (h : s.Good) (hcare : Careful s (.sched e))
    (hkept : s.table.AlarmKept e) (hs : s.table.next n e = some table) :
    Good ⟨table, s.now + e.ticks, s.timersAfter e table⟩ where
  jiffies := by
    dsimp only
    rw [ProcTable.next_jiffies hs]
    exact h.ticked
  timers := by
    intro k hk
    have hagrees := h.agrees hcare hk
    dsimp only
    rw [timersAfter]
    by_cases hnone : table.task k = none
    · rw [if_pos hnone, ProcTable.alarmAt, hnone]
      intro alarm halarm
      cases halarm
    rw [if_neg hnone]
    rcases ProcTable.next_alarmAt hs hkept hk with hgone | ⟨hfree, hnew⟩ | hkeep
    · rw [ProcTable.alarmAt, Option.map_eq_none_iff] at hgone
      exact absurd hgone hnone
    · -- a new task
      rw [hfree] at hagrees
      rw [hagrees.timer_eq_none, ite_self, hnew]
      intro alarm halarm
      exact (Option.some.inj halarm).symm
    · cases hcall : s.table.calls e with
      | none =>
        rw [hcall] at hkeep
        rw [if_neg (by simp), hkeep]
        exact hagrees
      | some table' =>
        rw [hcall] at hkeep
        rw [hkeep]
        have hj : table'.jiffies.toNat = (s.now + e.ticks) % 2 ^ 32 := by
          rw [(ProcTable.calls_jiffies (k := k) hcall).1]
          exact h.ticked
        have hexpire := hagrees.expire hj
        simpa [Due] using hexpire

theorem Good.alarm {old : BitVec 32} {table : ProcTable} (h : s.Good)
    (hcare : Careful s (.alarm seconds)) (hs : s.table.sysAlarm seconds = some (old, table)) :
    Good ⟨table, s.now, update s.timer s.table.cur
      (if 0 < seconds.toInt then some ⟨s.now, seconds.toNat⟩ else none)⟩ := by
  rw [ProcTable.sysAlarm] at hs
  cases ht : s.table.task s.table.cur with
  | none =>
    rw [ht] at hs
    cases hs
  | some t =>
    rw [ht] at hs
    obtain ⟨-, rfl⟩ := Prod.mk.inj (Option.some.inj hs)
    refine ⟨h.jiffies, fun k hk => ?_⟩
    dsimp only
    by_cases hcur : k = s.table.cur
    · rw [hcur, Function.update_self, ProcTable.alarmAt_setTask_self, Option.map_some]
      by_cases hpos : 0 < seconds.toInt
      · have hsum := hcare.1 hpos
        have hj := h.jiffies
        have hsec : 0 < seconds.toNat := by
          rw [BitVec.toInt_eq_toNat_cond] at hpos
          have hlt := seconds.isLt
          split at hpos <;> omega
        have hval : (s.table.jiffies + 100 * seconds).toNat =
            (s.now + HZ * seconds.toNat) % 2 ^ 32 := by
          have hhun : (100 : BitVec 32).toNat = HZ := rfl
          rw [BitVec.toNat_add, BitVec.toNat_mul, hhun, hj]
          omega
        rw [if_pos hpos, if_pos hpos]
        refine ⟨le_rfl, ?_, _, rfl, fun hzero => ?_, hval⟩
        · rw [Timer.deadline]
          dsimp only
          omega
        · -- the deadline is after now, and before the end of the 32-bit time
          have hsum' : s.table.jiffies + 100 * seconds = 0 := hzero
          rw [hsum', HZ] at hval
          rw [HZ] at hsum
          change 0 = _ at hval
          omega
      · rw [if_neg hpos, if_neg hpos]
        intro alarm halarm
        exact (Option.some.inj halarm).symm
    · rw [Function.update_of_ne hcur, ProcTable.alarmAt_setTask_of_ne hcur]
      exact h.timers k hk

theorem Good.next {e : AlarmEvent} (h : s.Good) (hcare : Careful s e)
    (hs : s.next n e = some s') : s'.Good := by
  cases e with
  | sched e =>
    rw [AlarmClock.next] at hs
    split at hs
    case isFalse => cases hs
    case isTrue hkept =>
      obtain ⟨table, hnext, rfl⟩ := Option.map_eq_some_iff.mp hs
      exact h.sched hcare hkept hnext
  | alarm seconds =>
    obtain ⟨⟨old, table⟩, hcall, rfl⟩ := Option.map_eq_some_iff.mp hs
    exact h.alarm hcare hcall

theorem start_good (jiffies : BitVec 32) : (start jiffies).Good where
  jiffies := (Nat.mod_eq_of_lt jiffies.isLt).symm
  timers := by
    intro k hk alarm halarm
    obtain ⟨t, ht, rfl⟩ := Option.mem_map.mp halarm
    change (if k = 0 then some ProcTable.initTask else none) = some t at ht
    split at ht
    · obtain rfl := Option.some.inj ht
      rfl
    · cases ht

/-- In a good state every step that meets the condition is right. -/
theorem Good.right {e : AlarmEvent} (h : s.Good) (hcare : Careful s e) : s.Right e := by
  cases e with
  | sched e =>
    intro table hcall k hk t t' ht ht'
    have hagrees := h.agrees hcare hk
    obtain ⟨hj, halarm⟩ := ProcTable.calls_jiffies (k := k) hcall
    have hj' : table.jiffies.toNat = (s.now + e.ticks) % 2 ^ 32 := by
      rw [hj]
      exact h.ticked
    rw [← halarm, ProcTable.alarmAt, ht] at hagrees
    rw [ProcTable.checked, ProcTable.onSlots_task hk, ht] at ht'
    obtain rfl := Option.some.inj ht'
    rw [check_signal]
    have hdue := hagrees.due hj'
    by_cases hlt : s.Due k (s.now + e.ticks)
    · rw [if_pos hlt, if_pos (hdue.mpr hlt)]
    · rw [if_neg hlt, if_neg fun hle => hlt (hdue.mp hle)]
  | alarm seconds =>
    intro old table hcall hcur
    rw [ProcTable.sysAlarm] at hcall
    cases ht : s.table.task s.table.cur with
    | none =>
      rw [ht] at hcall
      cases hcall
    | some t =>
      rw [ht] at hcall
      obtain ⟨rfl, -⟩ := Prod.mk.inj (Option.some.inj hcall)
      have hagrees := h.timers s.table.cur hcur
      have halarm : s.table.alarmAt s.table.cur = some t.alarm := by
        rw [ProcTable.alarmAt, ht]
        rfl
      rw [halarm] at hagrees
      have hret := hagrees.remaining h.jiffies (hcare.2 t ht)
      refine ⟨hret, fun timer htimer => ?_⟩
      rw [hret]
      rw [Option.mem_def] at htimer
      rw [htimer] at hagrees ⊢
      have hset := hagrees.1
      rw [Option.elim_some, Timer.remaining, Timer.deadline, HZ]
      omega

end AlarmClock

/-- **The alarm clock**: in all runs in which no deadline is beyond the end of the 32-bit time, that
time does not wrap while an alarm is set, and no alarm that is due waits to be posted when its
process sets it anew, `schedule` posts SIGALRM for every alarm once, at its first call after the
deadline, and `sys_alarm` returns the whole seconds that remained. -/
theorem alarm_clock (s : AlarmClock) (e : AlarmEvent)
    (h : System.Reach alarms AlarmClock.Careful s) (hcare : AlarmClock.Careful s e) :
    s.Right e := by
  have hgood : s.Good := by
    refine h.invariant ?_ ?_
    · rintro s ⟨jiffies, rfl⟩
      exact AlarmClock.start_good jiffies
    · rintro s e s' hs hg ⟨n, hs'⟩
      exact hs.next hg hs'
  exact hgood.right hcare

/-- A second task, which asks for an alarm of a second. -/
def alarmRun : List AlarmEvent := [.sched (.fork 1), .sched .schedule, .alarm 1]

instance (s : AlarmClock) : (e : AlarmEvent) → Decidable (AlarmClock.Careful s e)
  | .sched (.tick _) => inferInstanceAs (Decidable (s.table.jiffies.toNat + 1 = 2 ^ 32 →
      ∀ k ∈ slots, ∀ t ∈ s.table.task k, t.alarm = 0))
  | .alarm seconds => inferInstanceAs (Decidable ((0 < seconds.toInt →
        s.table.jiffies.toNat + HZ * seconds.toNat < 2 ^ 32) ∧
      ∀ t ∈ s.table.task s.table.cur, t.alarm = 0 ∨ s.table.jiffies.toNat ≤ t.alarm.toNat ∨
        t.alarm.toNat + 2 ^ 32 < s.table.jiffies.toNat + HZ))
  | .sched .schedule | .sched (.nice _) | .sched (.fork _) | .sched (.other _ _) => .isTrue trivial

/-- The second still remains when the alarm is taken back at once. -/
theorem alarm_clock_second : ∃ s : AlarmClock, (s.timer 1).isSome ∧ s.Right (.alarm 0) := by
  have hrun : (System.runOf (System.guarded AlarmClock.Careful (AlarmClock.next 2)) alarmRun
      (.start 7)).any (fun s => (s.timer 1).isSome && decide (s.Careful (.alarm 0))) = true := by
    decide +kernel
  obtain ⟨s, hs, hall⟩ := (Option.any_eq_true _ _).mp hrun
  obtain ⟨hset, hcare⟩ := Bool.and_eq_true_iff.mp hall
  have hreach : System.Reach alarms AlarmClock.Careful s :=
    .of_guarded (fun _ _ _ h => ⟨2, h⟩) (.init ⟨7, rfl⟩) hs
  exact ⟨s, hset, alarm_clock s (.alarm 0) hreach (of_decide_eq_true hcare)⟩

/-- Half a second before the time wraps the same alarm is posted at once. -/
theorem alarm_clock_wraps : ∃ s, System.Reachable alarms s ∧
    ¬ s.Due 1 s.now ∧ ¬ s.Right (.sched .schedule) := by
  have hrun : (System.runOf (AlarmClock.next 2) alarmRun (.start 0xffffffce)).any (fun s =>
      !s.Due 1 s.now && (s.table.task 1).any fun t =>
        (s.table.checked.task 1).any fun t' => t'.signal != t.signal) = true := by
    decide +kernel
  obtain ⟨s, hs, hall⟩ := (Option.any_eq_true _ _).mp hrun
  obtain ⟨hdue, htask⟩ := Bool.and_eq_true_iff.mp hall
  obtain ⟨t, ht, hpost⟩ := (Option.any_eq_true _ _).mp htask
  obtain ⟨t', ht', hsignal⟩ := (Option.any_eq_true _ _).mp hpost
  have hdue' : ¬ s.Due 1 s.now := by simpa using hdue
  have hreach : System.Reachable alarms s :=
    .of_runOf (fun _ _ _ h => ⟨2, h⟩) (fun _ _ _ => trivial) (.init ⟨_, rfl⟩) hs
  refine ⟨s, hreach, hdue', fun hright => ?_⟩
  have hsame : t'.signal = if s.Due 1 s.now then t.signal ||| bit SIGALRM else t.signal :=
    hright s.table rfl 1 (by decide) t t' ht ht'
  rw [if_neg hdue'] at hsame
  rw [hsame, bne_self_eq_false] at hsignal
  cases hsignal

end Sched
