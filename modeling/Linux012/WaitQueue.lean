/-
Wait queues (`__sleep_on` and `wake_up` of kernel/sched.c).

* `WaitQueue` — a queue head `*p`, the variable `tmp` of every sleeper, and the states of
  the tasks;
* `enter`, `resume`, `wakeUp` — the parts of `__sleep_on` before and after `schedule`, and
  `wake_up`;
* `wait_queue` — the sleepers are a stack, threaded through their variables, and a task
  leaves only from the top of it.
-/
import Linux012.Runs
import Linux012.Links

namespace Sched

open Function (update)
open Links (IsList)

/-- `state` of a task structure. -/
inductive TaskState where
  | running
  | interruptible
  | uninterruptible
  | zombie
  | stopped
  deriving DecidableEq

variable {P : Type}

structure WaitQueue (P : Type) where
  /-- `*p` -/
  head : Option P
  /-- `tmp` of a task in `__sleep_on` -/
  tmp : P → Option P
  state : P → TaskState
  /-- the tasks in `__sleep_on`, the latest first (not in the source) -/
  inside : List P

namespace WaitQueue

/-- `if (t) t->state = 0`. -/
def wake [DecidableEq P] (t : Option P) (state : P → TaskState) : P → TaskState :=
  match t with
  | none => state
  | some p => update state p .running

variable [DecidableEq P]

/-- `__sleep_on`, up to `schedule`. -/
def enter (s : WaitQueue P) (cur : P) (state : TaskState) : WaitQueue P where
  head := some cur
  tmp := update s.tmp cur s.head
  state := update s.state cur state
  inside := cur :: s.inside

/-- The task stays, and the head of the queue is woken. -/
def stay (s : WaitQueue P) (cur : P) : WaitQueue P :=
  { s with state := update (wake s.head s.state) cur .uninterruptible }

/-- `if (*p = tmp) tmp->state = 0`. -/
def leave (s : WaitQueue P) (cur : P) : WaitQueue P where
  head := s.tmp cur
  tmp := s.tmp
  state := wake (s.tmp cur) s.state
  inside := s.inside.erase cur

/-- `__sleep_on`, from `schedule` on; it warns of an empty queue, and goes on. -/
def resume (s : WaitQueue P) (cur : P) : WaitQueue P :=
  if s.head.isSome ∧ s.head ≠ some cur then s.stay cur else s.leave cur

/-- `wake_up`; it warns of stopped and dead tasks, and goes on. -/
def wakeUp (s : WaitQueue P) : WaitQueue P := { s with state := wake s.head s.state }

end WaitQueue

inductive WaitEvent (P : Type) where
  /-- `sleep_on`, or `interruptible_sleep_on` -/
  | sleep (cur : P) (interruptible : Bool)
  /-- `schedule` comes back to a task in `__sleep_on` -/
  | resume (cur : P)
  | wakeUp
  /-- a signal, or a time-out -/
  | signal (p : P)
  /-- another state of a task that is not in the queue -/
  | other (p : P) (state : TaskState)

/-- A task that runs may sleep, or goes on if it sleeps. -/
def WaitEvent.Called (task₀ : P) (s : WaitQueue P) : WaitEvent P → Prop
  -- `task[0] trying to sleep`
  | .sleep cur _ => cur ≠ task₀ ∧ s.state cur = .running ∧ cur ∉ s.inside
  | .resume cur => s.state cur = .running ∧ cur ∈ s.inside
  | .wakeUp => True
  | .signal p => s.state p = .interruptible
  | .other p _ => p ∉ s.inside

variable [DecidableEq P]

def WaitQueue.step (s : WaitQueue P) : WaitEvent P → WaitQueue P
  | .sleep cur true => s.enter cur .interruptible
  | .sleep cur false => s.enter cur .uninterruptible
  | .resume cur => s.resume cur
  | .wakeUp => s.wakeUp
  | .signal p => { s with state := update s.state p .running }
  | .other p state => { s with state := update s.state p state }

/-- The runs of a queue that is empty at first. -/
def waits (task₀ : P) : System (WaitQueue P) (WaitEvent P) where
  init s := s.head = none ∧ s.inside = []
  step s e s' := e.Called task₀ s ∧ s' = s.step e

namespace WaitQueue

variable {task₀ : P} {s s' : WaitQueue P} {cur : P} {e : WaitEvent P}

/-- The queue is a stack. -/
abbrev Stack (s : WaitQueue P) : Prop := IsList s.tmp s.head s.inside

namespace Stack

theorem enter (h : s.Stack) (hcur : cur ∉ s.inside) (state : TaskState) :
    (s.enter cur state).Stack := by
  have hrest : IsList (update s.tmp cur s.head) s.head s.inside :=
    Links.Seg.update h hcur s.head
  refine ⟨rfl, ?_⟩
  show IsList (update s.tmp cur s.head) (update s.tmp cur s.head cur) s.inside
  rw [Function.update_self]
  exact hrest

/-- A queue with tasks in it has a head, so that no task leaves but the head. -/
theorem resume_cases (h : s.Stack) (hcur : cur ∈ s.inside) :
    (s.resume cur = s.stay cur ∧ s.head ≠ some cur) ∨
      ∃ l, s.inside = cur :: l ∧ s.resume cur = ⟨s.tmp cur, s.tmp, wake (s.tmp cur) s.state, l⟩ := by
  rw [WaitQueue.resume]
  cases hl : s.inside with
  | nil =>
    rw [hl] at hcur
    cases hcur
  | cons q l =>
    have hhead : s.head = some q := by
      rw [h.head?, hl]
      rfl
    by_cases hq : q = cur
    · right
      subst hq
      refine ⟨l, rfl, ?_⟩
      rw [if_neg fun hne => hne.2 hhead, WaitQueue.leave, hl, List.erase_cons_head]
    · left
      have hne : s.head ≠ some cur := by
        rw [hhead]
        exact fun heq => hq (Option.some.inj heq)
      exact ⟨if_pos ⟨by rw [hhead]; rfl, hne⟩, hne⟩

omit [DecidableEq P] in
theorem leave {l : List P} (h : s.Stack) (hl : s.inside = cur :: l) :
    IsList s.tmp (s.tmp cur) l := by
  rw [Stack, hl] at h
  exact h.2

theorem step (h : s.Stack) (hcalled : e.Called task₀ s) : (s.step e).Stack := by
  cases e with
  | sleep cur interruptible =>
    obtain ⟨-, -, hcur⟩ := hcalled
    cases interruptible with
    | true => exact h.enter hcur _
    | false => exact h.enter hcur _
  | resume cur =>
    rw [WaitQueue.step]
    obtain ⟨hstay, -⟩ | ⟨l, hl, hleave⟩ := h.resume_cases hcalled.2
    · rw [hstay]
      exact h
    · rw [hleave]
      exact h.leave hl
  | wakeUp => exact h
  | signal p => exact h
  | other p state => exact h

theorem reach (h : (waits task₀).Reachable s) : s.Stack := by
  refine h.invariant (I := Stack) (fun s hinit => ?_) fun s e s' hs _ hstep => ?_
  · rw [Stack, hinit.1, hinit.2]
    exact rfl
  · rw [hstep.2]
    exact hs.step hstep.1

end Stack

end WaitQueue

/-- The tasks in `__sleep_on` are a stack without repetitions: `*p` is the latest, and `tmp` of
each is the one that came before it; `*p` is null when they have all left. A task leaves only
where it is `*p`, and the others stay in their order. -/
theorem wait_queue (task₀ : P) (s : WaitQueue P) (h : (waits task₀).Reachable s) :
    (IsList s.tmp s.head s.inside ∧ s.inside.Nodup ∧ s.head = s.inside.head?) ∧
    ∀ e s', (waits task₀).step s e s' → ∀ cur ∈ s.inside, cur ∉ s'.inside →
      s.head = some cur ∧ s.inside = cur :: s'.inside := by
  have hstack := WaitQueue.Stack.reach h
  refine ⟨⟨hstack, Links.IsList.nodup hstack, Links.IsList.head? hstack⟩, ?_⟩
  rintro e s' ⟨hcalled, rfl⟩ cur hcur hleft
  cases e with
  | sleep q interruptible =>
    cases interruptible with
    | true => exact absurd (List.mem_cons_of_mem q hcur) hleft
    | false => exact absurd (List.mem_cons_of_mem q hcur) hleft
  | resume q =>
    rw [WaitQueue.step] at hleft ⊢
    obtain ⟨hstay, -⟩ | ⟨l, hl, hleave⟩ := hstack.resume_cases hcalled.2
    · rw [hstay] at hleft
      exact absurd hcur hleft
    · rw [hleave] at hleft ⊢
      rw [hl] at hcur
      obtain rfl | hmem := List.mem_cons.mp hcur
      · exact ⟨by rw [Links.IsList.head? hstack, hl]; rfl, hl⟩
      · exact absurd hmem hleft
  | wakeUp => exact absurd hcur hleft
  | signal p => exact absurd hcur hleft
  | other p state => exact absurd hcur hleft

/-- A queue before any task sleeps. -/
def emptyQueue : WaitQueue ℕ := ⟨none, fun _ => none, fun _ => .running, []⟩

/-- Two tasks that sleep on it. -/
def twoSleepers : WaitQueue ℕ := (emptyQueue.step (.sleep 1 false)).step (.sleep 2 true)

theorem twoSleepers_reach : (waits 0).Reachable twoSleepers := by
  have hone : WaitEvent.Called 0 emptyQueue (.sleep 1 false) :=
    ⟨Nat.one_ne_zero, rfl, List.not_mem_nil⟩
  have htwo : WaitEvent.Called 0 (emptyQueue.step (.sleep 1 false)) (.sleep 2 true) :=
    ⟨by decide, rfl, by simp [WaitQueue.step, WaitQueue.enter, emptyQueue]⟩
  exact .step (.step (.init ⟨rfl, rfl⟩) trivial ⟨hone, rfl⟩) trivial ⟨htwo, rfl⟩

/-- The second of them is at the head. -/
theorem wait_queue_two : twoSleepers.inside = [2, 1] ∧ twoSleepers.head = some 2 :=
  ⟨rfl, (wait_queue 0 twoSleepers twoSleepers_reach).1.2.2⟩

end Sched
