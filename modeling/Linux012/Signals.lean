/-
Signals of a process (kernel/signal.c, and the signal loop of `ret_from_sys_call`).

* `Task`, `SigAction` — the signal fields of a task structure;
* `ssetmask`, `sigaction`, `signal`, `sigsuspend` — the system calls;
* `doSignal` — the delivery of a signal, with the registers and the user stack;
* `signal_mask` — `SIGKILL` and `SIGSTOP` are never blocked, exactly as long as no mask
  with them is given to `sys_sigsuspend` or comes with a handler.
-/
import Mathlib.Data.Nat.Notation

namespace Signals

def SIGKILL : ℕ := 9
def SIGCHLD : ℕ := 17
def SIGCONT : ℕ := 18
def SIGSTOP : ℕ := 19
def SIGTSTP : ℕ := 20
def SIGTTIN : ℕ := 21
def SIGTTOU : ℕ := 22

def SA_NOCLDSTOP : BitVec 32 := 1
def SA_INTERRUPT : BitVec 32 := 0x20000000
def SA_NOMASK : BitVec 32 := 0x40000000
def SA_ONESHOT : BitVec 32 := 0x80000000

def EINTR : BitVec 32 := 4
def EINVAL : BitVec 32 := 22
def ERESTARTSYS : BitVec 32 := 512
def ERESTARTNOINTR : BitVec 32 := 513

/-- `1 << (sig - 1)`. -/
def bit (sig : ℕ) : BitVec 32 := 1#32 <<< (sig - 1)

/-- `struct sigaction`; the handler 0 is `SIG_DFL`, and 1 is `SIG_IGN`. -/
structure SigAction where
  handler : BitVec 32
  mask : BitVec 32
  flags : BitVec 32
  restorer : BitVec 32
  deriving DecidableEq

/-- The action is neither `SIG_DFL` nor `SIG_IGN`. -/
def SigAction.Handled (sa : SigAction) : Prop := sa.handler ≠ 1 ∧ sa.handler ≠ 0

instance (sa : SigAction) : Decidable sa.Handled := inferInstanceAs (Decidable (_ ∧ _))

/-- `state` of a task structure, as far as these calls set it. -/
inductive RunState where
  | running
  | interruptible
  | stopped
  deriving DecidableEq

/-- The fields of a task structure that are about signals. -/
structure Task where
  state : RunState
  exitCode : ℕ
  signal : BitVec 32
  blocked : BitVec 32
  /-- `sigaction[signum - 1]` -/
  sigaction : ℕ → SigAction

/-- The saved registers that `do_signal` reads and changes. -/
structure Regs where
  eax : BitVec 32
  ecx : BitVec 32
  edx : BitVec 32
  origEax : BitVec 32
  eip : BitVec 32
  eflags : BitVec 32
  esp : BitVec 32
  deriving DecidableEq

namespace Task

/-- A signal whose action cannot be changed. -/
def Fixed (signum : ℕ) : Prop := signum < 1 ∨ 32 < signum ∨ signum = SIGKILL ∨ signum = SIGSTOP

instance (signum : ℕ) : Decidable (Fixed signum) := inferInstanceAs (Decidable (_ ∨ _))

def setAction (t : Task) (signum : ℕ) (sa : SigAction) : Task :=
  { t with sigaction := fun n => if n = signum then sa else t.sigaction n }

/-- `sys_ssetmask`, with the old mask. -/
def ssetmask (t : Task) (newmask : BitVec 32) : Task × BitVec 32 :=
  ({ t with blocked := newmask &&& ~~~bit SIGKILL &&& ~~~bit SIGSTOP }, t.blocked)

/-- `sys_signal`, with the old handler. -/
def signalCall (t : Task) (signum : ℕ) (handler restorer : BitVec 32) : Task × BitVec 32 :=
  if Fixed signum then (t, -EINVAL)
  else (t.setAction signum ⟨handler, 0, SA_ONESHOT ||| SA_NOMASK, restorer⟩,
    (t.sigaction signum).handler)

/-- `sys_sigaction`; the old action is stored for the caller. -/
def sigactionCall (t : Task) (signum : ℕ) (action : SigAction) :
    Task × BitVec 32 × Option SigAction :=
  if Fixed signum then (t, -EINVAL, none)
  else
    let mask := if action.flags &&& SA_NOMASK ≠ 0 then 0 else action.mask ||| bit signum
    (t.setAction signum { action with mask := mask }, 0, some (t.sigaction signum))

/-- `sys_sigsuspend`, with the result and the arguments `restart` and `old_mask` that the
process finds in its registers afterwards. -/
def sigsuspend (t : Task) (restart : Bool) (oldMask set : BitVec 32) :
    Task × BitVec 32 × Bool × BitVec 32 :=
  if restart then ({ t with blocked := oldMask }, -EINTR, true, oldMask)
  -- `sys_pause`
  else ({ t with blocked := set, state := .interruptible }, -ERESTARTNOINTR, true, t.blocked)

/-- The signals that are not blocked. -/
def eligible (t : Task) : BitVec 32 := t.signal &&& ~~~t.blocked

/-- The signal that `ret_from_sys_call` finds. -/
def nextSignal (t : Task) : Option ℕ :=
  (List.range' 1 32).find? fun sig => t.eligible.getLsbD (sig - 1)

end Task

/-- How `do_signal` ends. -/
inductive Outcome where
  /-- it returns 1, and the father is told if the process stops -/
  | again (t : Task) (r : Regs) (tell : Bool)
  /-- a handler runs, with the longs that are put at the new stack pointer -/
  | handler (t : Task) (r : Regs) (stack : List (BitVec 32))
  /-- `do_exit` -/
  | exit (code : ℕ)

/-- The system call is begun again, or is interrupted. -/
def restart (sa : SigAction) (signr : ℕ) (r : Regs) : Regs :=
  if r.origEax ≠ -1 ∧ (r.eax = -ERESTARTSYS ∨ r.eax = -ERESTARTNOINTR) then
    if r.eax = -ERESTARTSYS ∧
        (sa.flags &&& SA_INTERRUPT ≠ 0 ∨ signr < SIGCONT ∨ SIGTTOU < signr) then
      { r with eax := -EINTR }
    else { r with eax := r.origEax, eip := r.eip - 2 }
  else r

/-- The default action of a signal. -/
def defaultAction (t : Task) (r : Regs) (signr : ℕ) (parentFlags : BitVec 32) : Outcome :=
  if signr = SIGCONT ∨ signr = SIGCHLD then .again t r false
  else if SIGSTOP ≤ signr ∧ signr ≤ SIGTTOU then
    .again { t with state := .stopped, exitCode := signr } r (parentFlags &&& SA_NOCLDSTOP = 0)
  -- no core is dumped
  else .exit signr

/-- A handler is called. -/
def callHandler (t : Task) (r : Regs) (signr : ℕ) : Outcome :=
  let sa := t.sigaction signr
  let t := if sa.flags &&& SA_ONESHOT ≠ 0 then t.setAction signr { sa with handler := 0 } else t
  let longs := if sa.flags &&& SA_NOMASK ≠ 0 then 7 else 8
  let mask := if sa.flags &&& SA_NOMASK ≠ 0 then [] else [t.blocked]
  .handler { t with blocked := t.blocked ||| sa.mask }
    { r with eip := sa.handler, esp := r.esp - BitVec.ofNat 32 (longs * 4) }
    ([sa.restorer, BitVec.ofNat 32 signr] ++ mask ++ [r.eax, r.ecx, r.edx, r.eflags, r.eip])

/-- `do_signal`; `parentFlags` is `sa_flags` of the father's action for `SIGCHLD`. -/
def doSignal (t : Task) (r : Regs) (signr : ℕ) (parentFlags : BitVec 32) : Outcome :=
  let sa := t.sigaction signr
  let r := restart sa signr r
  if sa.handler = 1 then .again t r false
  else if sa.handler = 0 then defaultAction t r signr parentFlags
  else callHandler t r signr

/-- What a process does, and what is done to it. -/
inductive Event where
  | ssetmask (newmask : BitVec 32)
  | sigaction (signum : ℕ) (action : SigAction)
  | signal (signum : ℕ) (handler restorer : BitVec 32)
  | sigsuspend (restart : Bool) (oldMask set : BitVec 32)
  /-- a signal is posted -/
  | post (sig : ℕ)
  /-- a signal is delivered on the way back to the user program -/
  | deliver (r : Regs) (parentFlags : BitVec 32)

/-- The task afterwards, if it does not exit. -/
def Outcome.task : Outcome → Option Task
  | .again t _ _ => some t
  | .handler t _ _ => some t
  | .exit _ => none

namespace Task

def step (t : Task) : Event → Option Task
  | .ssetmask newmask => some (t.ssetmask newmask).1
  | .sigaction signum action => some (t.sigactionCall signum action).1
  | .signal signum handler restorer => some (t.signalCall signum handler restorer).1
  | .sigsuspend restart oldMask set => some (t.sigsuspend restart oldMask set).1
  | .post sig => some { t with signal := t.signal ||| bit sig }
  | .deliver r parentFlags =>
    match t.nextSignal with
    | none => some t
    | some sig => (doSignal { t with signal := t.signal &&& ~~~bit sig } r sig parentFlags).task

/-- The states of a run. -/
def states (t : Task) : List Event → List Task
  | [] => [t]
  | e :: es => t :: ((t.step e).map fun t' => t'.states es).getD []

/-- A mask without `SIGKILL` and `SIGSTOP`. -/
def Clean (mask : BitVec 32) : Prop := ∀ sig, sig = SIGKILL ∨ sig = SIGSTOP →
  mask.getLsbD (sig - 1) = false

/-- `SIGKILL` and `SIGSTOP` are not blocked, and are delivered if they are pending. -/
def Unblocked (t : Task) : Prop := Clean t.blocked ∧
  ∀ sig, sig = SIGKILL ∨ sig = SIGSTOP → t.signal.getLsbD (sig - 1) = true →
    t.eligible.getLsbD (sig - 1) = true

/-- The masks that `sys_sigsuspend` is given, or that come with a handler, are without them. -/
def Masks (t : Task) : Event → Prop
  | .sigsuspend restart oldMask set => Clean (if restart then oldMask else set)
  | .deliver _ _ => ∀ sig, t.nextSignal = some sig → (t.sigaction sig).Handled →
      Clean (t.sigaction sig).mask
  | _ => True

/-- Every step of a run is so. -/
def MasksIn (t : Task) : List Event → Prop
  | [] => True
  | e :: es => t.Masks e ∧ ∀ t', t.step e = some t' → t'.MasksIn es

variable {t t' : Task} {e : Event}

theorem clean_or_iff {m m' : BitVec 32} (h : Clean m) : Clean (m ||| m') ↔ Clean m' := by
  refine forall_congr' fun sig => forall_congr' fun hsig => ?_
  rw [BitVec.getLsbD_or, h sig hsig, Bool.false_or]

theorem clean_filter (m : BitVec 32) : Clean (m &&& ~~~bit SIGKILL &&& ~~~bit SIGSTOP) := by
  rintro sig (rfl | rfl)
  · rw [BitVec.getLsbD_and, BitVec.getLsbD_and]
    simp [bit, SIGKILL]
  · rw [BitVec.getLsbD_and]
    simp [bit, SIGSTOP]

/-- What is not blocked is eligible. -/
theorem unblocked_iff : t.Unblocked ↔ Clean t.blocked := by
  refine ⟨fun h => h.1, fun h => ⟨h, fun sig hsig hpending => ?_⟩⟩
  have hlt : sig - 1 < 32 := by
    obtain rfl | rfl := hsig
    · decide
    · decide
  rw [eligible, BitVec.getLsbD_and, hpending, BitVec.getLsbD_not, h sig hsig, decide_eq_true hlt]
  rfl

/-- Only a handler changes the mask. -/
theorem doSignal_blocked {r : Regs} {sig : ℕ} {parentFlags : BitVec 32}
    (h : (doSignal t r sig parentFlags).task = some t') :
    t'.blocked = if (t.sigaction sig).Handled then t.blocked ||| (t.sigaction sig).mask
      else t.blocked := by
  rw [doSignal] at h
  split at h
  case isTrue hignored =>
    cases h
    rw [if_neg fun hhandled => hhandled.1 hignored]
  case isFalse hne =>
    split at h
    case isTrue hdefault =>
      rw [if_neg fun hhandled => hhandled.2 hdefault]
      rw [defaultAction] at h
      split at h
      case isTrue =>
        cases h
        rfl
      case isFalse =>
        split at h
        case isTrue =>
          cases h
          rfl
        case isFalse => cases h
    case isFalse hne' =>
      rw [if_pos ⟨hne, hne'⟩]
      cases h
      by_cases hflag : (t.sigaction sig).flags &&& SA_ONESHOT ≠ 0
      · simp only [if_pos hflag, setAction]
      · simp only [if_neg hflag]

/-- A signal that ends the process has no handler. -/
theorem masks_of_exit (hs : t.step e = none) : t.Masks e := by
  cases e with
  | deliver r parentFlags =>
    intro sig hnext hhandled
    rw [Task.step] at hs
    simp only [hnext, doSignal, if_neg hhandled.1, if_neg hhandled.2, callHandler,
      Outcome.task, reduceCtorEq] at hs
  | _ => cases hs

/-- A step leaves the two signals unblocked just if its masks do. -/
theorem Unblocked.step_iff (h : t.Unblocked) (hs : t.step e = some t') :
    t'.Unblocked ↔ t.Masks e := by
  rw [unblocked_iff] at h ⊢
  cases e with
  | ssetmask newmask =>
    cases hs
    exact ⟨fun _ => trivial, fun _ => clean_filter newmask⟩
  | sigaction signum action =>
    cases hs
    refine ⟨fun _ => trivial, fun _ => ?_⟩
    rw [sigactionCall]
    split
    case isTrue => exact h
    case isFalse => exact h
  | signal signum handler restorer =>
    cases hs
    refine ⟨fun _ => trivial, fun _ => ?_⟩
    rw [signalCall]
    split
    case isTrue => exact h
    case isFalse => exact h
  | sigsuspend restart oldMask set =>
    cases hs
    cases restart with
    | false => exact Iff.rfl
    | true => exact Iff.rfl
  | post sig =>
    cases hs
    exact ⟨fun _ => trivial, fun _ => h⟩
  | deliver r parentFlags =>
    rw [Task.step] at hs
    cases hnext : t.nextSignal with
    | none =>
      simp only [hnext] at hs
      cases hs
      refine ⟨fun _ sig hsig => ?_, fun _ => h⟩
      rw [hnext] at hsig
      cases hsig
    | some sig =>
      simp only [hnext] at hs
      have hmasks : t.Masks (.deliver r parentFlags) ↔
          ((t.sigaction sig).Handled → Clean (t.sigaction sig).mask) := by
        refine ⟨fun hm => hm sig hnext, fun hm sig' hsig' => ?_⟩
        obtain rfl : sig = sig' := Option.some.inj (hnext.symm.trans hsig')
        exact hm
      rw [hmasks, doSignal_blocked hs]
      split
      case isTrue hhandled =>
        rw [clean_or_iff h]
        exact ⟨fun hclean _ => hclean, fun hclean => hclean hhandled⟩
      case isFalse hhandled => exact ⟨fun _ hhandled' => absurd hhandled' hhandled, fun _ => h⟩

end Task

/-- In a run from a state where `SIGKILL` and `SIGSTOP` are not blocked they are never blocked,
and so eligible whenever they are pending, if and only if no `sys_sigsuspend` is given a mask with
them and no handler is called that has one. -/
theorem signal_mask (t : Task) (h : t.Unblocked) (es : List Event) :
    (∀ t' ∈ t.states es, t'.Unblocked) ↔ t.MasksIn es := by
  induction es generalizing t with
  | nil => simpa [Task.states, Task.MasksIn] using h
  | cons e es ih =>
    rw [Task.states, List.forall_mem_cons]
    cases hs : t.step e with
    | none =>
      -- `do_exit` ends the run
      refine ⟨fun _ => ⟨Task.masks_of_exit hs, fun t' hs' => ?_⟩, fun _ => ⟨h, nofun⟩⟩
      rw [hs] at hs'
      cases hs'
    | some t' =>
      rw [Option.map_some, Option.getD_some]
      have hstep := h.step_iff hs
      constructor
      · rintro ⟨-, hstates⟩
        have hhead : t' ∈ t'.states es := by
          cases es with
          | nil => exact List.mem_singleton_self t'
          | cons _ _ => exact List.mem_cons_self
        have ht' := hstates t' hhead
        refine ⟨hstep.mp ht', fun t'' hs'' => ?_⟩
        obtain rfl : t' = t'' := Option.some.inj (hs.symm.trans hs'')
        exact (ih t' ht').mp hstates
      · rintro ⟨hmasks, hrest⟩
        exact ⟨h, (ih t' (hstep.mpr hmasks)).mpr (hrest t' hs)⟩

/-- A process that has set no masks. -/
def freshTask : Task := ⟨.running, 0, 0, 0, fun _ => ⟨0, 0, 0, 0⟩⟩

theorem freshTask_unblocked : freshTask.Unblocked :=
  Task.unblocked_iff.mpr fun _ _ => BitVec.getLsbD_zero

/-- `sys_ssetmask` with all signals keeps the two out. -/
theorem signal_mask_ssetmask :
    ∃ t' ∈ freshTask.states [.ssetmask (-1), .post SIGKILL], t'.blocked ≠ 0 ∧ t'.Unblocked := by
  have hmem : (freshTask.ssetmask (-1)).1 ∈ freshTask.states [.ssetmask (-1), .post SIGKILL] :=
    List.mem_cons_of_mem _ List.mem_cons_self
  refine ⟨_, hmem, by decide, ?_⟩
  have hmasks : freshTask.MasksIn [.ssetmask (-1), .post SIGKILL] :=
    ⟨trivial, fun _ _ => ⟨trivial, fun _ _ => trivial⟩⟩
  exact (signal_mask freshTask freshTask_unblocked _).mpr hmasks _ hmem

/-- `sys_sigsuspend` blocks `SIGKILL` if it is told so. -/
theorem sigsuspend_blocks : ¬ ∀ (t : Task) (es : List Event), t.Unblocked →
    ∀ t' ∈ t.states es, t'.Unblocked := by
  intro h
  have hclean := (h freshTask [.sigsuspend false 0 (-1)] freshTask_unblocked
    { freshTask with blocked := -1, state := .interruptible } (by simp [Task.states, Task.step,
      Task.sigsuspend])).1 SIGKILL (.inl rfl)
  exact absurd hclean (by decide)

end Signals
