/-
The choice of the scheduler (`schedule`, `sys_nice` and `do_timer` of kernel/sched.c, and what
`copy_process` of kernel/fork.c sets of it).

* `Proc`, `ProcTable` — the tasks, with their counters and priorities;
* `ProcTable.choose`, `ProcTable.schedule` — the loops of `schedule`;
* `choose_spec` — the loop comes to the task with the largest counter, the highest slot of those;
* `Schedules` — the counters are not negative, and `schedule` ends and switches to the right task;
* `scheduler_choice` — this holds in all runs in which no counter overflows when it is recharged;
* `scheduler_choice_small` — it does not, as long as `nice` asks for no priority above 2³⁰;
* `nice_overflows` — a priority that does.

Design notes: what the rest of the kernel does to tasks is any change that leaves counter and
priority, or frees the slot.  `next_timer`, the screen, the floppy and the hard disk are left
out of `do_timer`.  No interrupt comes in the middle of `schedule`.
-/
import Linux012.WaitQueue
import Linux012.Sessions
import Linux012.Signals

namespace Sched

open Function (update)
open Signals (bit SIGKILL SIGSTOP)
open Sessions (slots)

/-- What `schedule` reads and writes of a `task_struct`. -/
structure Proc where
  state : TaskState
  counter : BitVec 32
  priority : BitVec 32
  signal : BitVec 32
  blocked : BitVec 32
  timeout : BitVec 32
  alarm : BitVec 32
  deriving DecidableEq

structure ProcTable where
  task : ℕ → Option Proc
  /-- the slot of `current` -/
  cur : ℕ
  jiffies : BitVec 32

def SIGALRM : ℕ := 14

/-- `_BLOCKABLE`. -/
def blockable : BitVec 32 := ~~~(bit SIGKILL ||| bit SIGSTOP)

namespace Proc

/-- The loop of `schedule` over alarms and signals, for one task. -/
def check (jiffies : BitVec 32) (t : Proc) : Proc :=
  let t :=
    if t.timeout ≠ 0 ∧ t.timeout.toNat < jiffies.toNat then
      { t with
        timeout := 0
        state := if t.state = .interruptible then .running else t.state }
    else t
  let t :=
    if t.alarm ≠ 0 ∧ t.alarm.toNat < jiffies.toNat then
      { t with signal := t.signal ||| bit SIGALRM, alarm := 0 }
    else t
  if t.signal &&& ~~~(blockable &&& t.blocked) ≠ 0 ∧ t.state = .interruptible then
    { t with state := .running }
  else t

/-- `(*p)->counter = ((*p)->counter >> 1) + (*p)->priority`. -/
def recharge (t : Proc) : Proc := { t with counter := t.counter.sshiftRight 1 + t.priority }

/-- The counter of a task fits when it is recharged. -/
def Fits (t : Proc) : Prop := t.counter.toInt / 2 + t.priority.toInt < 2 ^ 31

end Proc

namespace ProcTable

/-- A loop over all tasks but the first. -/
def onSlots (f : Proc → Proc) (s : ProcTable) : ProcTable :=
  { s with task := fun k => if k ∈ slots then (s.task k).map f else s.task k }

/-- The loop that looks for the largest counter: `c` and `next`. -/
def choose (task : ℕ → Option Proc) : List ℕ → BitVec 32 → ℕ → BitVec 32 × ℕ
  | [], c, next => (c, next)
  | k :: ks, c, next =>
    match task k with
    | none => choose task ks c next
    | some t =>
      if t.state = .running ∧ c.toInt < t.counter.toInt then choose task ks t.counter k
      else choose task ks c next

/-- `c` and `next` after this loop. -/
def best (s : ProcTable) : BitVec 32 × ℕ := choose s.task slots (-1) 0

/-- The loop over alarms and signals. -/
def checked (s : ProcTable) : ProcTable := s.onSlots (Proc.check s.jiffies)

/-- The loop that recharges the counters. -/
def recharged (s : ProcTable) : ProcTable := s.onSlots Proc.recharge

/-- `switch_to`. -/
def switchTo (s : ProcTable) (next : ℕ) : ProcTable := { s with cur := next }

/-- `while (1)`, with a bound on the rounds. -/
def scheduleLoop : ℕ → ProcTable → Option ProcTable
  | 0, _ => none
  | n + 1, s => if s.best.1 ≠ 0 then some (s.switchTo s.best.2) else scheduleLoop n s.recharged

/-- `schedule`, with a bound on the rounds. -/
def schedule (n : ℕ) (s : ProcTable) : Option ProcTable := scheduleLoop n s.checked

def setTask (s : ProcTable) (k : ℕ) (t : Option Proc) : ProcTable :=
  { s with task := update s.task k t }

/-- `sys_nice`. -/
def sysNice (s : ProcTable) (increment : BitVec 32) : ProcTable :=
  match s.task s.cur with
  | none => s
  | some t =>
    if 0 < (t.priority - increment).toInt then
      s.setTask s.cur (some { t with priority := t.priority - increment })
    else s

/-- `do_timer` up to the call of `schedule`, and whether it comes to that; the interrupt has
counted the tick. -/
def doTimer (s : ProcTable) (cpl : Bool) : ProcTable × Bool :=
  let s := { s with jiffies := s.jiffies + 1 }
  match s.task s.cur with
  | none => (s, false)
  | some t =>
    if 0 < (t.counter - 1).toInt then
      (s.setTask s.cur (some { t with counter := t.counter - 1 }), false)
    else (s.setTask s.cur (some { t with counter := 0 }), cpl)

/-- What `copy_process` makes of a copy of the current task. -/
def copyOf (t : Proc) : Proc :=
  { t with state := .running, counter := t.priority, signal := 0, alarm := 0 }

end ProcTable

inductive SchedEvent where
  | schedule
  | tick (cpl : Bool)
  | nice (increment : BitVec 32)
  /-- `copy_process`, in an empty slot -/
  | fork (k : ℕ)
  /-- the rest of the kernel -/
  | other (k : ℕ) (t : Option Proc)

namespace ProcTable

/-- The table from which `schedule` is called in a step, if it is. -/
def calls (s : ProcTable) : SchedEvent → Option ProcTable
  | .schedule => some s
  | .tick cpl => if (s.doTimer cpl).2 then some (s.doTimer cpl).1 else none
  | _ => none

/-- A step, with a bound on the rounds of `schedule`. -/
def next (n : ℕ) (s : ProcTable) : SchedEvent → Option ProcTable
  | .schedule => s.schedule n
  | .tick cpl => if (s.doTimer cpl).2 then (s.doTimer cpl).1.schedule n else some (s.doTimer cpl).1
  | .nice increment => some (s.sysNice increment)
  | .fork k =>
    match s.task s.cur with
    | none => none
    | some t =>
      if k ∈ slots ∧ s.task k = none then some (s.setTask k (some (copyOf t))) else none
  | .other k t =>
    if ∀ t' ∈ t, ∃ t₀ ∈ s.task k, t'.counter = t₀.counter ∧ t'.priority = t₀.priority then
      some (s.setTask k t)
    else none

/-- `schedule` recharges the counters. -/
def Recharges (s : ProcTable) : Prop := s.checked.best.1 = 0

/-- No counter overflows if `schedule` recharges. -/
def Fits (s : ProcTable) : Prop :=
  s.Recharges → ∀ k ∈ slots, ∀ t, s.checked.task k = some t → t.Fits

/-- The current task is the one to switch to: the running one with the largest counter, in the
highest slot of those, or the first task if no other is running. -/
def Chosen (s : ProcTable) : Prop :=
  (s.cur = 0 ∧ ∀ k ∈ slots, ∀ t, s.task k = some t → t.state ≠ .running) ∨
    s.cur ∈ slots ∧ ∃ t, s.task s.cur = some t ∧ t.state = .running ∧
      ∀ k ∈ slots, ∀ t', s.task k = some t' → t'.state = .running →
        t'.counter.toInt < t.counter.toInt ∨ t'.counter = t.counter ∧ k ≤ s.cur

/-- The counters are not negative, and `schedule` ends and switches to the right task. -/
structure Schedules (s : ProcTable) : Prop where
  counters : ∀ k t, s.task k = some t → 0 ≤ t.counter.toInt
  ends : ∃ n s', s.schedule n = some s'
  chosen : ∀ n s', s.schedule n = some s' → s'.Chosen

/-- The first task. -/
def initTask : Proc := ⟨.running, 15, 15, 0, 0, 0, 0⟩

/-- The start of the system. -/
def start (jiffies : BitVec 32) : ProcTable where
  task := fun k => if k = 0 then some initTask else none
  cur := 0
  jiffies := jiffies

end ProcTable

/-- The runs from the start of the system. -/
def scheduling : System ProcTable SchedEvent where
  init s := ∃ jiffies, s = ProcTable.start jiffies
  step s e s' := ∃ n, s.next n e = some s'

/-- The steps in which `nice` sets no priority above `b`. -/
def NiceTo (b : ℤ) (s : ProcTable) (e : SchedEvent) : Prop :=
  ∀ increment, e = .nice increment → ∀ t, s.task s.cur = some t →
    (t.priority - increment).toInt ≤ b

/-- The steps in which no counter overflows. -/
def Recharged (s : ProcTable) (e : SchedEvent) : Prop := ∀ s', s.calls e = some s' → s'.Fits

/-! ### The loops of `schedule` -/

namespace ProcTable

variable {s s' : ProcTable} {t : Proc} {k n : ℕ} {f : Proc → Proc}
  {e : SchedEvent} {b : ℤ}

theorem onSlots_task (hk : k ∈ slots) : (s.onSlots f).task k = (s.task k).map f := if_pos hk

/-- The loop comes to the largest counter above `c` in the highest of its slots, if there is
one. -/
theorem choose_spec (task : ℕ → Option Proc) (ks : List ℕ) (hks : ks.Pairwise (· > ·))
    (c : BitVec 32) (i : ℕ) :
    (choose task ks c i = (c, i) ∧
      ∀ k ∈ ks, ∀ t, task k = some t → t.state = .running → t.counter.toInt ≤ c.toInt) ∨
    ∃ t, (choose task ks c i).2 ∈ ks ∧ task (choose task ks c i).2 = some t ∧
      t.state = .running ∧ t.counter = (choose task ks c i).1 ∧ c.toInt < t.counter.toInt ∧
      ∀ k ∈ ks, ∀ t', task k = some t' → t'.state = .running →
        t'.counter.toInt < t.counter.toInt ∨
          t'.counter = t.counter ∧ k ≤ (choose task ks c i).2 := by
  induction ks generalizing c i with
  | nil => exact .inl ⟨rfl, List.forall_mem_nil _⟩
  | cons k ks ih =>
    obtain ⟨hgt, hks⟩ := List.pairwise_cons.mp hks
    by_cases hbest : ∃ t, task k = some t ∧ t.state = .running ∧ c.toInt < t.counter.toInt
    · obtain ⟨t, ht, hrun, hlt⟩ := hbest
      have hstep : choose task (k :: ks) c i = choose task ks t.counter k := by
        rw [choose, ht]
        exact if_pos ⟨hrun, hlt⟩
      rw [hstep]
      obtain ⟨heq, hle⟩ | ⟨t₁, hmem, ht₁, hrun₁, hc₁, hlt₁, hle⟩ := ih hks t.counter k
      · -- this task stays the best one, above those with the same counter
        rw [heq]
        refine .inr ⟨t, List.mem_cons_self, ht, hrun, rfl, hlt, fun j hj t' ht' hrun' => ?_⟩
        rcases List.mem_cons.mp hj with rfl | hj
        · cases ht.symm.trans ht'
          exact .inr ⟨rfl, Nat.le_refl j⟩
        · rcases Int.lt_or_eq_of_le (hle j hj t' ht' hrun') with hlt' | heq'
          · exact .inl hlt'
          · exact .inr ⟨BitVec.toInt_inj.mp heq', Nat.le_of_lt (hgt j hj)⟩
      · refine .inr ⟨t₁, List.mem_cons_of_mem k hmem, ht₁, hrun₁, hc₁, by omega, ?_⟩
        intro j hj t' ht' hrun'
        rcases List.mem_cons.mp hj with rfl | hj
        · cases ht.symm.trans ht'
          exact .inl hlt₁
        · exact hle j hj t' ht' hrun'
    · have hle₀ : ∀ t, task k = some t → t.state = .running → t.counter.toInt ≤ c.toInt := by
        intro t ht hrun
        by_contra hlt
        exact hbest ⟨t, ht, hrun, by omega⟩
      have hstep : choose task (k :: ks) c i = choose task ks c i := by
        rw [choose]
        cases ht : task k with
        | none => rfl
        | some t => exact if_neg fun h => hbest ⟨t, ht, h⟩
      rw [hstep]
      obtain ⟨heq, hle⟩ | ⟨t₁, hmem, ht₁, hrun₁, hc₁, hlt₁, hle⟩ := ih hks c i
      · refine .inl ⟨heq, fun j hj t' ht' hrun' => ?_⟩
        rcases List.mem_cons.mp hj with rfl | hj
        · exact hle₀ t' ht' hrun'
        · exact hle j hj t' ht' hrun'
      · refine .inr ⟨t₁, List.mem_cons_of_mem k hmem, ht₁, hrun₁, hc₁, hlt₁, ?_⟩
        intro j hj t' ht' hrun'
        rcases List.mem_cons.mp hj with rfl | hj
        · have hlow := hle₀ t' ht' hrun'
          exact .inl (by omega)
        · exact hle j hj t' ht' hrun'

theorem slots_descending : slots.Pairwise (· > ·) := by decide

/-- The task that is switched to; where there is no counter above -1, none may be negative. -/
theorem chosen_of_best (h : s.best.1 = -1 → ∀ k t, s.task k = some t → 0 ≤ t.counter.toInt) :
    (s.switchTo s.best.2).Chosen := by
  obtain ⟨heq, hle⟩ | ⟨t, hmem, ht, hrun, -, -, hle⟩ :=
    choose_spec s.task slots slots_descending (-1) 0
  · refine .inl ⟨congrArg Prod.snd heq, fun k hk t ht hrun => ?_⟩
    have hlow := hle k hk t ht hrun
    have hneg : (-1 : BitVec 32).toInt = -1 := by decide
    have hpos := h (congrArg Prod.fst heq) k t ht
    omega
  · exact .inr ⟨hmem, t, ht, hrun, hle⟩

/-- No counter is negative, and all priorities are positive, and at most `b`. -/
def Sound (b : ℤ) (s : ProcTable) : Prop :=
  ∀ k t, s.task k = some t → 0 ≤ t.counter.toInt ∧ 0 < t.priority.toInt ∧ t.priority.toInt ≤ b

theorem check_counter (jiffies : BitVec 32) (t : Proc) :
    (t.check jiffies).counter = t.counter ∧ (t.check jiffies).priority = t.priority := by
  rw [Proc.check]
  split_ifs <;> exact ⟨rfl, rfl⟩

theorem Sound.onSlots (h : s.Sound b) (hf : ∀ k ∈ slots, ∀ t, s.task k = some t →
    0 ≤ (f t).counter.toInt ∧ 0 < (f t).priority.toInt ∧ (f t).priority.toInt ≤ b) : (s.onSlots f).Sound b := by
  intro k t ht
  by_cases hk : k ∈ slots
  · rw [onSlots_task hk] at ht
    obtain ⟨t₀, ht₀, rfl⟩ := Option.map_eq_some_iff.mp ht
    exact hf k hk t₀ ht₀
  · exact h k t ((if_neg hk).symm.trans ht)

theorem Sound.checked (h : s.Sound b) : s.checked.Sound b := by
  refine h.onSlots fun k _ t ht => ?_
  rw [(check_counter s.jiffies t).1, (check_counter s.jiffies t).2]
  exact h k t ht

/-- A counter that is recharged, and one that overflows. -/
theorem recharge_toInt (hc : 0 ≤ t.counter.toInt) (hp : 0 < t.priority.toInt) :
    (t.Fits ∧ t.recharge.counter.toInt = t.counter.toInt / 2 + t.priority.toInt) ∨
      ¬ t.Fits ∧ t.recharge.counter.toInt < 0 := by
  have hclt := BitVec.toInt_lt (x := t.counter)
  have hplt := BitVec.toInt_lt (x := t.priority)
  have hshift : (t.counter.sshiftRight 1).toInt = t.counter.toInt / 2 := by
    rw [BitVec.toInt_sshiftRight, Int.shiftRight_eq_div_pow]
    rfl
  have hsum : t.recharge.counter.toInt =
      (t.counter.toInt / 2 + t.priority.toInt).bmod (2 ^ 32) := by
    rw [Proc.recharge, BitVec.toInt_add, hshift]
  by_cases hfits : t.Fits
  · refine .inl ⟨hfits, hsum.trans (Int.bmod_eq_of_le (by omega) ?_)⟩
    rw [Proc.Fits] at hfits
    omega
  · refine .inr ⟨hfits, ?_⟩
    rw [Proc.Fits] at hfits
    rw [hsum, Int.bmod_def]
    split_ifs <;> omega

theorem Sound.recharged (h : s.Sound b)
    (hfits : ∀ k ∈ slots, ∀ t, s.task k = some t → t.Fits) : s.recharged.Sound b := by
  refine h.onSlots fun k hk t ht => ?_
  obtain ⟨hc, hp⟩ := h k t ht
  refine ⟨?_, hp⟩
  rcases recharge_toInt hc hp.1 with ⟨-, heq⟩ | ⟨hover, -⟩
  · omega
  · exact absurd (hfits k hk t ht) hover

/-- A running task with counter 0 comes to have its priority, so that the next round is the
last one. -/
theorem recharged_best (h : s.Sound b) (hzero : s.best.1 = 0) : 0 < s.recharged.best.1.toInt := by
  obtain ⟨heq, -⟩ | ⟨t, hmem, ht, hrun, hc, -, -⟩ :=
    choose_spec s.task slots slots_descending (-1) 0
  · have hneg : s.best.1 = -1 := congrArg Prod.fst heq
    rw [hneg] at hzero
    cases hzero
  · have hcounter : t.counter = 0 := hc.trans hzero
    have hpos := (h _ t ht).2.1
    have ht' : s.recharged.task (choose s.task slots (-1) 0).2 = some t.recharge := by
      rw [ProcTable.recharged, onSlots_task hmem, ht]
      rfl
    have hrecharge : t.recharge.counter.toInt = t.priority.toInt := by
      rcases recharge_toInt (h _ t ht).1 hpos with ⟨-, heq⟩ | ⟨hover, -⟩
      · rw [heq, hcounter]
        exact Int.zero_add _
      · refine absurd ?_ hover
        rw [Proc.Fits, hcounter]
        have hlt := BitVec.toInt_lt (x := t.priority)
        exact (Int.zero_add _).trans_lt hlt
    obtain ⟨-, hle⟩ | ⟨t₁, -, -, -, hc₁, -, hle⟩ :=
      choose_spec s.recharged.task slots slots_descending (-1) 0
    · have hlow := hle _ hmem _ ht' hrun
      have hneg : (-1 : BitVec 32).toInt = -1 := by decide
      omega
    · rw [best, ← hc₁]
      rcases hle _ hmem _ ht' hrun with hlt | ⟨heq, -⟩
      · omega
      · rw [← heq]
        omega

/-- `schedule` recharges the counters once at most. -/
theorem schedule_spec (h : s.Sound b) :
    (¬ s.Recharges ∧ ∀ n, s.schedule (n + 1) = some (s.checked.switchTo s.checked.best.2)) ∨
    (s.Recharges ∧ s.checked.recharged.best.1 ≠ -1 ∧ ∀ n, s.schedule (n + 2) =
      some (s.checked.recharged.switchTo s.checked.recharged.best.2)) := by
  by_cases hre : s.Recharges
  · have hpos := recharged_best h.checked hre
    have hne : s.checked.recharged.best.1 ≠ 0 ∧ s.checked.recharged.best.1 ≠ -1 := by
      constructor
      · intro heq
        rw [heq] at hpos
        exact absurd hpos (by decide)
      · intro heq
        rw [heq] at hpos
        exact absurd hpos (by decide)
    refine .inr ⟨hre, hne.2, fun n => ?_⟩
    have hzero : s.checked.best.1 = 0 := hre
    rw [schedule, scheduleLoop, if_neg (not_not.mpr hzero), scheduleLoop, if_pos hne.1]
  · exact .inl ⟨hre, fun n => if_pos hre⟩

/-- What `schedule` comes to, whatever the bound. -/
theorem schedule_cases (h : s.Sound b) (hs' : s.schedule n = some s') :
    (¬ s.Recharges ∧ s' = s.checked.switchTo s.checked.best.2) ∨
      s.Recharges ∧ s.checked.recharged.best.1 ≠ -1 ∧
        s' = s.checked.recharged.switchTo s.checked.recharged.best.2 := by
  obtain ⟨hre, heq⟩ | ⟨hre, hne, heq⟩ := schedule_spec h
  · obtain _ | n := n
    · cases hs'
    · exact .inl ⟨hre, Option.some.inj (hs'.symm.trans (heq n))⟩
  · obtain _ | _ | n := n
    · cases hs'
    · have hnone : s.schedule 1 = none := if_neg (not_not.mpr hre)
      cases hnone.symm.trans hs'
    · exact .inr ⟨hre, hne, Option.some.inj (hs'.symm.trans (heq n))⟩

/-- From a sound table, `schedule` ends and makes the right choice. -/
theorem Sound.schedules (h : s.Sound b) : s.Schedules := by
  refine ⟨fun k t ht => (h k t ht).1, ?_, fun n s' hs' => ?_⟩
  · rcases schedule_spec h with ⟨-, heq⟩ | ⟨-, -, heq⟩
    · exact ⟨1, _, heq 0⟩
    · exact ⟨2, _, heq 0⟩
  · obtain ⟨-, rfl⟩ | ⟨-, hne, rfl⟩ := schedule_cases h hs'
    · exact chosen_of_best fun _ k t ht => (h.checked k t ht).1
    · exact chosen_of_best fun heq => absurd heq hne

/-! ### The steps -/

theorem Sound.schedule (h : s.Sound b) (hfits : s.Fits) (hs' : s.schedule n = some s') :
    s'.Sound b := by
  obtain ⟨-, rfl⟩ | ⟨hre, -, rfl⟩ := schedule_cases h hs'
  · exact h.checked
  · exact h.checked.recharged (hfits hre)

theorem Sound.setTask (h : s.Sound b) {k : ℕ} {t : Option Proc}
    (ht : ∀ t₀ ∈ t, 0 ≤ t₀.counter.toInt ∧ 0 < t₀.priority.toInt ∧ t₀.priority.toInt ≤ b) : (s.setTask k t).Sound b := by
  intro j t₀ hj
  simp only [ProcTable.setTask] at hj
  by_cases hjk : j = k
  · subst hjk
    rw [Function.update_self] at hj
    exact ht t₀ hj
  · rw [Function.update_of_ne hjk] at hj
    exact h j t₀ hj

theorem Sound.doTimer (h : s.Sound b) (cpl : Bool) : (s.doTimer cpl).1.Sound b := by
  rw [ProcTable.doTimer]
  dsimp only
  cases ht : s.task s.cur with
  | none => exact h
  | some t =>
    obtain ⟨-, hp⟩ := h _ t ht
    have hjiffies : ({ s with jiffies := s.jiffies + 1 } : ProcTable).Sound b := h
    dsimp only
    by_cases hpos : 0 < (t.counter - 1).toInt
    · rw [if_pos hpos]
      refine hjiffies.setTask fun t₀ ht₀ => ?_
      cases ht₀
      exact ⟨Int.le_of_lt hpos, hp⟩
    · rw [if_neg hpos]
      refine hjiffies.setTask fun t₀ ht₀ => ?_
      cases ht₀
      exact ⟨Int.le_refl 0, hp⟩

/-- A step in which no counter overflows. -/
theorem Sound.next (h : s.Sound b) (hg : Recharged s e) (hnice : NiceTo b s e)
    (hs' : s.next n e = some s') : s'.Sound b := by
  cases e with
  | schedule => exact h.schedule (hg s rfl) hs'
  | tick cpl =>
    rw [ProcTable.next] at hs'
    by_cases hcall : (s.doTimer cpl).2 = true
    · rw [if_pos hcall] at hs'
      exact (h.doTimer cpl).schedule (hg _ (if_pos hcall)) hs'
    · rw [if_neg hcall] at hs'
      exact Option.some.inj hs' ▸ h.doTimer cpl
  | nice increment =>
    have heq : s.sysNice increment = s' := Option.some.inj hs'
    rw [← heq, sysNice]
    cases ht : s.task s.cur with
    | none => exact h
    | some t =>
      dsimp only
      split_ifs with hpos
      · refine h.setTask fun t₀ ht₀ => ?_
        cases ht₀
        exact ⟨(h _ t ht).1, hpos, hnice increment rfl t ht⟩
      · exact h
  | fork k =>
    rw [ProcTable.next] at hs'
    cases ht : s.task s.cur with
    | none =>
      rw [ht] at hs'
      cases hs'
    | some t =>
      rw [ht] at hs'
      dsimp only at hs'
      split_ifs at hs'
      cases hs'
      refine h.setTask fun t₀ ht₀ => ?_
      cases ht₀
      exact ⟨Int.le_of_lt (h _ t ht).2.1, (h _ t ht).2⟩
  | other k t =>
    rw [ProcTable.next] at hs'
    split_ifs at hs' with hkeep
    cases hs'
    refine h.setTask fun t₀ ht₀ => ?_
    obtain ⟨t₁, ht₁, hc, hp⟩ := hkeep t₀ ht₀
    rw [hc, hp]
    exact h k t₁ ht₁

theorem start_sound (jiffies : BitVec 32) (hb : 15 ≤ b) : (start jiffies).Sound b := by
  intro k t ht
  rw [start] at ht
  dsimp only at ht
  split_ifs at ht
  cases ht
  exact ⟨by decide, by decide, hb⟩

/-- Priorities that are not too large fit. -/
theorem Sound.fits (h : s.Sound (2 ^ 30)) : s.Fits := by
  intro _ k _ t ht
  obtain ⟨-, -, hp⟩ := h.checked k t ht
  have hc := BitVec.toInt_lt (x := t.counter)
  rw [Proc.Fits]
  omega

theorem Sound.recharges (h : s.Sound (2 ^ 30)) : Recharged s e := by
  intro s₁ hcalls
  cases e with
  | schedule => exact Option.some.inj hcalls ▸ h.fits
  | tick cpl =>
    rw [calls] at hcalls
    split_ifs at hcalls
    exact Option.some.inj hcalls ▸ (h.doTimer cpl).fits
  | nice increment => cases hcalls
  | fork k => cases hcalls
  | other k t => cases hcalls

end ProcTable

/-- In all runs in which no counter overflows, the counters are not negative, and `schedule` ends
and switches to the running task with the largest counter. -/
theorem scheduler_choice (s : ProcTable) (h : System.Reach scheduling Recharged s) :
    s.Schedules := by
  have hsound : s.Sound (2 ^ 31) := by
    refine h.invariant ?_ ?_
    · rintro s ⟨jiffies, rfl⟩
      exact ProcTable.start_sound jiffies (by decide)
    · rintro s e s' hs hg ⟨n, hs'⟩
      exact hs.next hg (fun _ _ t _ => Int.le_of_lt BitVec.toInt_lt) hs'
  exact hsound.schedules

theorem reach_sound {s : ProcTable} (h : System.Reach scheduling (NiceTo (2 ^ 30)) s) :
    s.Sound (2 ^ 30) := by
  refine h.invariant ?_ ?_
  · rintro s ⟨jiffies, rfl⟩
    exact ProcTable.start_sound jiffies (by decide)
  · rintro s e s' hs hnice ⟨n, hs'⟩
    exact hs.next hs.recharges hnice hs'

/-- So it is in all runs in which `nice` sets no priority above 2³⁰. -/
theorem scheduler_choice_small (s : ProcTable) (h : System.Reach scheduling (NiceTo (2 ^ 30)) s) :
    s.Schedules := (reach_sound h).schedules

/-- The second task is made, and switched to. -/
theorem scheduler_choice_fork : ∃ s : ProcTable, s.cur = 1 ∧ s.Schedules := by
  let s₁ := (ProcTable.start 0).setTask 1 (some (ProcTable.copyOf ProcTable.initTask))
  have hbest : s₁.checked.best = (15, 1) := by decide +kernel
  have hfork : System.Reach scheduling Recharged s₁ :=
    .step (.init ⟨0, rfl⟩) (fun _ hcalls => nomatch hcalls) (a := .fork 1) ⟨0, rfl⟩
  have hreach : System.Reach scheduling Recharged (s₁.checked.switchTo 1) := by
    refine .step hfork (a := .schedule) (fun s' hs' hre => ?_) ⟨1, ?_⟩
    · cases hs'
      exact absurd (hre.symm.trans (congrArg Prod.fst hbest)) (by decide)
    · show (if s₁.checked.best.1 ≠ 0 then _ else _) = _
      rw [hbest, if_pos (by decide)]
  exact ⟨s₁.checked.switchTo 1, rfl, scheduler_choice _ hreach⟩

/-- A task that sleeps asks for a high priority, and another one uses up its slice. -/
def niceRun : List SchedEvent :=
  [.fork 1, .schedule, .nice 14, .fork 2, .nice (-0x7FFFFFFE),
    .other 1 (some ⟨.interruptible, 15, 0x7FFFFFFF, 0, 0, 0, 0⟩), .schedule, .tick true,
    .other 1 (some ⟨.running, 0x80000006, 0x7FFFFFFF, 0, 0, 0, 0⟩),
    .other 2 (some ⟨.interruptible, 1, 1, 0, 0, 0, 0⟩)]

/-- The counter of the task has overflowed, and the first task is chosen though it runs. -/
theorem nice_overflows : ∃ s, System.Reachable scheduling s ∧
    (∃ t, s.task 1 = some t ∧ t.state = .running ∧ t.counter.toInt < 0) ∧
    ∃ s', s.schedule 1 = some s' ∧ s'.cur = 0 := by
  have hrun : (System.runOf (ProcTable.next 2) niceRun (ProcTable.start 0)).any (fun s =>
      ((s.task 1).any fun t => t.state == .running && decide (t.counter.toInt < 0)) &&
        (s.schedule 1).any fun s' => s'.cur == 0) = true := by decide +kernel
  obtain ⟨s, hs, hall⟩ := (Option.any_eq_true _ _).mp hrun
  obtain ⟨htask, hsched⟩ := Bool.and_eq_true_iff.mp hall
  obtain ⟨t, ht, hbad⟩ := (Option.any_eq_true _ _).mp htask
  obtain ⟨hstate, hneg⟩ := Bool.and_eq_true_iff.mp hbad
  obtain ⟨s', hs', hcur⟩ := (Option.any_eq_true _ _).mp hsched
  have hreach : System.Reachable scheduling s :=
    .of_runOf (fun _ _ _ h => ⟨2, h⟩) (fun _ _ _ => trivial) (.init ⟨0, rfl⟩) hs
  exact ⟨s, hreach, ⟨t, ht, beq_iff_eq.mp hstate, of_decide_eq_true hneg⟩, s', hs',
    beq_iff_eq.mp hcur⟩

end Sched
