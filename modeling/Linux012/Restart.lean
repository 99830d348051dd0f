/-
The signal loop of `ret_from_sys_call` (kernel/sys_call.s), and the system calls that it begins
again.

* `Check`, `signalLoop` — the loop, from one look at the pending signals to the next;
* `doSignal_cases` — what a call of `do_signal` can do;
* `signal_restart` — a call that is to be begun again is begun again, or is interrupted for a
  handler, exactly if a signal is found at all, and one that interrupts it is followed by a
  handler or by the end of the process.
-/
import Linux012.Signals

namespace Signals

/-- The length of `sys_call_table`. -/
def NR_syscalls : ℕ := 87

def ENOSYS : BitVec 32 := 38

/-- The stack of a system call, as far as the signals or the call itself look at it. -/
structure Frame extends Regs where
  ebx : BitVec 32
  deriving DecidableEq

/-- What `ret_from_sys_call` finds when it looks for a signal: the pending signals of the process,
and `sa_flags` of its father's action for `SIGCHLD`. Both may be changed by others as long as the
process does not run. -/
structure Check where
  signal : BitVec 32
  parentFlags : BitVec 32

/-- How the loop ends. -/
inductive Result where
  /-- the user program goes on with these registers, after the handler of a signal -/
  | user (t : Task) (f : Frame) (handler : Option ℕ)
  | exit (code : ℕ)
  /-- the process has not run again -/
  | pending

/-- The registers that a handler gives back, from the longs on its stack. -/
def Frame.restored (f : Frame) (stack : List (BitVec 32)) : Frame :=
  match stack.reverse with
  | oldEip :: eflags :: edx :: ecx :: eax :: _ =>
    { f with eax := eax, ecx := ecx, edx := edx, eflags := eflags, eip := oldEip }
  | _ => f

/-- The process as it is when it looks for a signal. -/
def Task.at (t : Task) (c : Check) : Task := { t with signal := c.signal, state := .running }

/-- `ret_from_sys_call`, for a user program that is not task 0. -/
def signalLoop (t : Task) (f : Frame) : List Check → Result
  | [] => .pending
  | c :: cs =>
    match (t.at c).nextSignal with
    | none => .user (t.at c) f none
    | some sig =>
      match doSignal { t.at c with signal := c.signal &&& ~~~bit sig } f.toRegs sig
          c.parentFlags with
      | .again t r _ => signalLoop t { f with toRegs := r } cs
      | .handler t _ stack => .user t (f.restored stack) (some sig)
      | .exit code => .exit code

/-- The registers come from a system call: one that is in the table, or `bad_sys_call`. -/
def Frame.Called (f : Frame) : Prop := f.origEax.toNat < NR_syscalls ∨ f.eax = -ENOSYS

/-- The call is to be begun again. -/
def Frame.Restarts (f : Frame) : Prop := f.eax = -ERESTARTSYS ∨ f.eax = -ERESTARTNOINTR

/-- The registers with which the call is executed once more. -/
def Frame.repeated (f : Frame) : Frame := { f with eax := f.origEax, eip := f.eip - 2 }

/-- The user program never sees one of the two codes; it sees `-EINTR` in their place only
if a handler has run; and without a handler it does the call again. -/
def Result.Meets (f : Frame) : Result → Prop
  | .user _ f' handler => ¬ f'.Restarts ∧ (f.Restarts → f'.eax = -EINTR → handler ≠ none) ∧
      (f.Restarts → handler = none → f' = f.repeated)
  | _ => True

namespace Task

/-- The signal ends a call that is begun again for others. -/
def Interrupts (t : Task) (f : Frame) (sig : ℕ) : Prop := f.eax = -ERESTARTSYS ∧
  ((t.sigaction sig).flags &&& SA_INTERRUPT ≠ 0 ∨ sig < SIGCONT ∨ SIGTTOU < sig)

/-- `do_signal` returns to the loop. -/
def Passes (t : Task) (sig : ℕ) : Prop := (t.sigaction sig).handler = 1 ∨
  ((t.sigaction sig).handler = 0 ∧ SIGCHLD ≤ sig ∧ sig ≤ SIGTTOU)

instance (t : Task) (f : Frame) (sig : ℕ) : Decidable (t.Interrupts f sig) :=
  inferInstanceAs (Decidable (_ ∧ _))

instance (t : Task) (sig : ℕ) : Decidable (t.Passes sig) := inferInstanceAs (Decidable (_ ∨ _))

/-- No look for a signal is in vain before a handler is called or the process exits. -/
def Busy (t : Task) : List Check → Prop
  | [] => True
  | c :: cs => ∃ sig, (t.at c).nextSignal = some sig ∧ (t.Passes sig → t.Busy cs)

/-- A call that is to be begun again finds a signal, and one that interrupts it is followed by
others up to a handler or the end. -/
def Restartable (t : Task) (f : Frame) (cs : List Check) : Prop := f.Restarts → ∀ c ∈ cs.head?,
  ∃ sig, (t.at c).nextSignal = some sig ∧ (t.Interrupts f sig → t.Busy cs)

end Task

variable {t t' : Task} {f f' : Frame} {sig : ℕ} {cs : List Check}

instance (f : Frame) : Decidable f.Restarts := inferInstanceAs (Decidable (_ ∨ _))

/-- The registers as `do_signal` leaves them for the next look, or for the handler. -/
def Task.begun (t : Task) (f : Frame) (sig : ℕ) : Frame :=
  { f with toRegs := restart (t.sigaction sig) sig f.toRegs }

/-- A call that is to be begun again comes from the table. -/
theorem Frame.Called.origEax_lt (h : f.Called) (hf : f.Restarts) :
    f.origEax.toNat < NR_syscalls := by
  obtain h | h := h
  · exact h
  · rw [Frame.Restarts, h] at hf
    exact absurd hf (by decide)

theorem Frame.Called.origEax_ne (h : f.Called) (hf : f.Restarts) {v : BitVec 32}
    (hv : NR_syscalls ≤ v.toNat) : f.origEax ≠ v := by
  rintro rfl
  have hlt := h.origEax_lt hf
  omega

/-- The new result is neither of the two codes. -/
theorem Frame.Called.repeated_not_restarts (h : f.Called) (hf : f.Restarts) :
    ¬ f.repeated.Restarts := by
  rintro (heq | heq)
  · exact h.origEax_ne hf (by decide) heq
  · exact h.origEax_ne hf (by decide) heq

theorem begun_of_not_restarts (hf : ¬ f.Restarts) : t.begun f sig = f := by
  have hregs : restart (t.sigaction sig) sig f.toRegs = f.toRegs :=
    if_neg fun hcode => hf hcode.2
  rw [Task.begun, hregs]

theorem begun_of_interrupts (h : f.Called) (hf : f.Restarts) (hint : t.Interrupts f sig) :
    t.begun f sig = { f with eax := -EINTR } := by
  have hregs : restart (t.sigaction sig) sig f.toRegs = { f.toRegs with eax := -EINTR } := by
    rw [restart, if_pos ⟨h.origEax_ne hf (by decide), hf⟩]
    exact if_pos hint
  rw [Task.begun, hregs]

theorem begun_of_not_interrupts (h : f.Called) (hf : f.Restarts) (hint : ¬ t.Interrupts f sig) :
    t.begun f sig = f.repeated := by
  have hregs : restart (t.sigaction sig) sig f.toRegs =
      { f.toRegs with eax := f.origEax, eip := f.eip - 2 } := by
    rw [restart, if_pos ⟨h.origEax_ne hf (by decide), hf⟩]
    exact if_neg hint
  rw [Task.begun, hregs, Frame.repeated]

/-- After a first signal no other has to do with the call any more. -/
theorem begun_not_restarts (h : f.Called) : ¬ (t.begun f sig).Restarts := by
  by_cases hf : f.Restarts
  · by_cases hint : t.Interrupts f sig
    · rw [begun_of_interrupts h hf hint]
      exact of_decide_eq_false rfl
    · rw [begun_of_not_interrupts h hf hint]
      exact h.repeated_not_restarts hf
  · rwa [begun_of_not_restarts hf]

/-- A handler gives the registers back as `do_signal` has left them. -/
theorem callHandler_restored (t : Task) (f : Frame) (sig : ℕ) : ∃ t' r stack,
    callHandler t (t.begun f sig).toRegs sig = .handler t' r stack ∧
    f.restored stack = t.begun f sig := by
  refine ⟨_, _, _, rfl, ?_⟩
  have hkept : ∀ r : Regs, restart (t.sigaction sig) sig f.toRegs = r →
      r.origEax = f.origEax ∧ r.esp = f.esp := by
    rintro r rfl
    rw [restart]
    split
    case isTrue => split <;> exact ⟨rfl, rfl⟩
    case isFalse => exact ⟨rfl, rfl⟩
  obtain ⟨horig, hesp⟩ := hkept _ rfl
  have hframe : ∀ r : Regs, r.origEax = f.origEax → r.esp = f.esp →
      ({ f with eax := r.eax, ecx := r.ecx, edx := r.edx, eflags := r.eflags, eip := r.eip } :
        Frame) = { f with toRegs := r } := by
    rintro ⟨_, _, _, _, _, _, _⟩ rfl rfl
    rfl
  -- the mask is below the five registers, if it is there at all
  by_cases hmask : (t.sigaction sig).flags &&& SA_NOMASK ≠ 0
  · simp only [if_pos hmask]
    exact hframe _ horig hesp
  · simp only [if_neg hmask]
    exact hframe _ horig hesp

/-- Where `do_signal` goes depends on the action alone, and it goes there with the registers
of a call that is begun again. -/
theorem doSignal_cases (t : Task) (f : Frame) (sig : ℕ) (parentFlags : BitVec 32) :
    (t.Passes sig ∧ ∃ t' tell,
      doSignal t f.toRegs sig parentFlags = .again t' (t.begun f sig).toRegs tell ∧
      t'.blocked = t.blocked ∧ t'.sigaction = t.sigaction) ∨
    (¬ t.Passes sig ∧ ∃ t' r stack, doSignal t f.toRegs sig parentFlags = .handler t' r stack ∧
      f.restored stack = t.begun f sig) ∨
    (¬ t.Passes sig ∧ ∃ code, doSignal t f.toRegs sig parentFlags = .exit code) := by
  have hdo : doSignal t f.toRegs sig parentFlags =
      if (t.sigaction sig).handler = 1 then .again t (t.begun f sig).toRegs false
      else if (t.sigaction sig).handler = 0 then
        defaultAction t (t.begun f sig).toRegs sig parentFlags
      else callHandler t (t.begun f sig).toRegs sig := rfl
  rw [hdo]
  by_cases hignored : (t.sigaction sig).handler = 1
  · rw [if_pos hignored]
    exact .inl ⟨.inl hignored, t, false, rfl, rfl, rfl⟩
  · rw [if_neg hignored]
    by_cases hdefault : (t.sigaction sig).handler = 0
    · rw [if_pos hdefault, defaultAction]
      by_cases hcont : sig = SIGCONT ∨ sig = SIGCHLD
      · have hpass : SIGCHLD ≤ sig ∧ sig ≤ SIGTTOU := by
          obtain rfl | rfl := hcont <;> decide
        rw [if_pos hcont]
        exact .inl ⟨.inr ⟨hdefault, hpass⟩, t, false, rfl, rfl, rfl⟩
      · rw [if_neg hcont]
        by_cases hstop : SIGSTOP ≤ sig ∧ sig ≤ SIGTTOU
        · have hpass : SIGCHLD ≤ sig := Nat.le_trans (by decide) hstop.1
          rw [if_pos hstop]
          exact .inl ⟨.inr ⟨hdefault, hpass, hstop.2⟩, _, _, rfl, rfl, rfl⟩
        · rw [if_neg hstop]
          refine .inr (.inr ⟨?_, sig, rfl⟩)
          rintro (heq | ⟨-, hpass⟩)
          · exact hignored heq
          · -- between `SIGCHLD` and `SIGTTOU` there are the two, and those that stop
            rw [not_or] at hcont
            simp only [SIGCHLD, SIGCONT, SIGSTOP, SIGTTOU] at hcont hstop hpass
            omega
    · rw [if_neg hdefault]
      obtain ⟨t', r, stack, heq, hrestored⟩ := callHandler_restored t f sig
      exact .inr (.inl ⟨not_or.mpr ⟨hignored, fun h => hdefault h.1⟩, t', r, stack, heq,
        hrestored⟩)

/-- One turn of the loop that finds a signal. -/
theorem signalLoop_found (f : Frame) (cs : List Check) {c : Check}
    (hfound : (t.at c).nextSignal = some sig) :
    (t.Passes sig ∧ ∃ t', t'.blocked = t.blocked ∧ t'.sigaction = t.sigaction ∧
      signalLoop t f (c :: cs) = signalLoop t' (t.begun f sig) cs) ∨
    (¬ t.Passes sig ∧ ∃ t', signalLoop t f (c :: cs) = .user t' (t.begun f sig) (some sig)) ∨
    (¬ t.Passes sig ∧ ∃ code, signalLoop t f (c :: cs) = .exit code) := by
  simp only [signalLoop, hfound]
  obtain ⟨hpass, t', tell, heq, hblocked, haction⟩ | ⟨hpass, t', r, stack, heq, hrestored⟩ |
    ⟨hpass, code, heq⟩ := doSignal_cases { t.at c with signal := c.signal &&& ~~~bit sig } f sig
      c.parentFlags
  · exact .inl ⟨hpass, t', hblocked, haction, by rw [heq]; rfl⟩
  · have hkept : f.restored stack = t.begun f sig := hrestored
    exact .inr (.inl ⟨hpass, t', by rw [heq, ← hkept]⟩)
  · exact .inr (.inr ⟨hpass, code, by rw [heq]⟩)

theorem signalLoop_none {c : Check} (hfound : (t.at c).nextSignal = none) :
    signalLoop t f (c :: cs) = .user (t.at c) f none := by
  simp only [signalLoop, hfound]

/-- What the loop finds depends on the mask and the actions. -/
theorem Task.busy_congr (hblocked : t'.blocked = t.blocked) (haction : t'.sigaction = t.sigaction) :
    t'.Busy cs ↔ t.Busy cs := by
  induction cs with
  | nil => exact Iff.rfl
  | cons c cs ih =>
    have hfound : (t'.at c).nextSignal = (t.at c).nextSignal := by
      simp only [Task.nextSignal, Task.eligible, Task.at, hblocked]
    simp only [Task.Busy, hfound, Task.Passes, haction, ih]

theorem Task.busy_cons {c : Check} (hfound : (t.at c).nextSignal = some sig) :
    t.Busy (c :: cs) ↔ (t.Passes sig → t.Busy cs) := by
  refine ⟨fun ⟨sig', hsig', hbusy⟩ => ?_, fun hbusy => ⟨sig, hfound, hbusy⟩⟩
  obtain rfl : sig = sig' := Option.some.inj (hfound.symm.trans hsig')
  exact hbusy

/-- The registers of a call that is not to be begun again stay as they are, and the user program
goes on without a handler exactly if some look for a signal is in vain. -/
theorem signalLoop_settled (hf : ¬ f.Restarts) (t : Task) (cs : List Check) :
    (t.Busy cs ∧ ∀ t' f' handler, signalLoop t f cs = .user t' f' handler →
      f' = f ∧ handler ≠ none) ∨
    (¬ t.Busy cs ∧ ∃ t', signalLoop t f cs = .user t' f none) := by
  induction cs generalizing t with
  | nil => exact .inl ⟨trivial, fun _ _ _ h => nomatch h⟩
  | cons c cs ih =>
    cases hfound : (t.at c).nextSignal with
    | none =>
      refine .inr ⟨fun ⟨sig, hsig, _⟩ => ?_, _, signalLoop_none hfound⟩
      rw [hfound] at hsig
      cases hsig
    | some sig =>
      rw [Task.busy_cons hfound]
      obtain ⟨hpass, t', hblocked, haction, heq⟩ | ⟨hpass, t', heq⟩ | ⟨hpass, code, heq⟩ :=
        signalLoop_found f cs hfound
      · rw [heq, begun_of_not_restarts hf, ← Task.busy_congr hblocked haction]
        obtain ⟨hbusy, hend⟩ | ⟨hbusy, hend⟩ := ih t'
        · exact .inl ⟨fun _ => hbusy, hend⟩
        · exact .inr ⟨fun h => hbusy (h hpass), hend⟩
      · refine .inl ⟨fun h => absurd h hpass, fun _ _ _ h => ?_⟩
        rw [heq, begun_of_not_restarts hf] at h
        cases h
        exact ⟨rfl, Option.some_ne_none sig⟩
      · refine .inl ⟨fun h => absurd h hpass, fun _ _ _ h => ?_⟩
        rw [heq] at h
        cases h

/-- A signal is found first: what it makes of the call is what the user program sees. -/
theorem signalLoop_first (h : f.Called) (cs : List Check) {c : Check}
    (hfound : (t.at c).nextSignal = some sig) :
    (t.Busy (c :: cs) ∧ ∀ t' f' handler, signalLoop t f (c :: cs) = .user t' f' handler →
      f' = t.begun f sig ∧ handler ≠ none) ∨
    (¬ t.Busy (c :: cs) ∧ ∃ t', signalLoop t f (c :: cs) = .user t' (t.begun f sig) none) := by
  rw [Task.busy_cons hfound]
  obtain ⟨hpass, t', hblocked, haction, heq⟩ | ⟨hpass, t', heq⟩ | ⟨hpass, code, heq⟩ :=
    signalLoop_found f cs hfound
  · rw [heq, ← Task.busy_congr hblocked haction]
    obtain ⟨hbusy, hend⟩ | ⟨hbusy, hend⟩ := signalLoop_settled (begun_not_restarts h) t' cs
    · exact .inl ⟨fun _ => hbusy, hend⟩
    · exact .inr ⟨fun h => hbusy (h hpass), hend⟩
  · refine .inl ⟨fun h => absurd h hpass, fun _ _ _ h => ?_⟩
    rw [heq] at h
    cases h
    exact ⟨rfl, Option.some_ne_none sig⟩
  · refine .inl ⟨fun h => absurd h hpass, fun _ _ _ h => ?_⟩
    rw [heq] at h
    cases h

/-- The loop keeps its promise to a call that is not to be begun again. -/
theorem meets_of_not_restarts (hf : ¬ f.Restarts) : (signalLoop t f cs).Meets f := by
  cases hloop : signalLoop t f cs with
  | user t' f' handler =>
    have hkept : f' = f := by
      obtain ⟨-, hend⟩ | ⟨-, t'', hend⟩ := signalLoop_settled hf t cs
      · exact (hend t' f' handler hloop).1
      · rw [hend] at hloop
        cases hloop
        rfl
    rw [hkept]
    exact ⟨hf, fun h => absurd h hf, fun h => absurd h hf⟩
  | exit code => trivial
  | pending => trivial

/-- And to one that a first signal is found for, unless that interrupts it and is all. -/
theorem meets_iff_of_found {c : Check} (h : f.Called) (hf : f.Restarts)
    (hfound : (t.at c).nextSignal = some sig) :
    (signalLoop t f (c :: cs)).Meets f ↔ (t.Interrupts f sig → t.Busy (c :: cs)) := by
  obtain ⟨hbusy, hend⟩ | ⟨hbusy, t', hend⟩ := signalLoop_first h cs hfound
  · refine ⟨fun _ _ => hbusy, fun _ => ?_⟩
    cases hloop : signalLoop t f (c :: cs) with
    | user t' f' handler =>
      obtain ⟨rfl, hhandler⟩ := hend t' f' handler hloop
      exact ⟨begun_not_restarts h, fun _ _ => hhandler, fun _ hnone => absurd hnone hhandler⟩
    | exit code => trivial
    | pending => trivial
  · rw [hend]
    by_cases hint : t.Interrupts f sig
    · -- the program sees `-EINTR`, and no handler has run
      rw [begun_of_interrupts h hf hint]
      exact ⟨fun hmeets => absurd rfl (hmeets.2.1 hf rfl), fun h => absurd (h hint) hbusy⟩
    · rw [begun_of_not_interrupts h hf hint]
      refine ⟨fun _ h => absurd h hint, fun _ => ?_⟩
      refine ⟨h.repeated_not_restarts hf, fun _ heq => ?_, fun _ _ => rfl⟩
      exact absurd heq (h.origEax_ne hf (by decide))

/-- After the signal loop a user program does not see `-ERESTARTSYS` or `-ERESTARTNOINTR`, sees
`-EINTR` in their place only if a handler has run, and without a handler does the call again with
its number and its arguments, if and only if a signal is still there when the loop looks for the
first one and, if this is one that interrupts the call, the loop goes on to a handler or to the
end of the process. -/
theorem signal_restart (t : Task) (f : Frame) (h : f.Called) (cs : List Check) :
    (signalLoop t f cs).Meets f ↔ t.Restartable f cs := by
  by_cases hf : f.Restarts
  · cases cs with
    | nil => exact ⟨fun _ _ c hc => (nomatch hc), fun _ => trivial⟩
    | cons c cs =>
      cases hfound : (t.at c).nextSignal with
      | none =>
        rw [signalLoop_none hfound]
        refine ⟨fun hmeets => absurd hf hmeets.1, fun hrestart => ?_⟩
        obtain ⟨sig, hsig, -⟩ := hrestart hf c rfl
        rw [hfound] at hsig
        cases hsig
      | some sig =>
        rw [meets_iff_of_found h hf hfound]
        constructor
        · rintro hbusy _ c' hc
          obtain rfl : c = c' := Option.some.inj hc
          exact ⟨sig, hfound, hbusy⟩
        · intro hrestart
          obtain ⟨sig', hsig, hbusy⟩ := hrestart hf c rfl
          obtain rfl : sig = sig' := Option.some.inj (hfound.symm.trans hsig)
          exact hbusy
  · exact ⟨fun _ hrestarts => absurd hrestarts hf, fun _ => meets_of_not_restarts hf⟩

/-- `waitpid`, in the registers, is to be begun again. -/
def waiting : Frame := ⟨⟨-ERESTARTSYS, 0, 0, 7, 100, 0, 4096⟩, -1⟩

/-- A stopped process that is continued does the call again. -/
theorem signal_restart_stopped :
    ∃ t' f', signalLoop freshTask waiting [⟨bit SIGTSTP, 0⟩, ⟨0, 0⟩] = .user t' f' none ∧
      f' = waiting.repeated := by
  have hrestart : freshTask.Restartable waiting [⟨bit SIGTSTP, 0⟩, ⟨0, 0⟩] := by
    rintro - c hc
    obtain rfl : (⟨bit SIGTSTP, 0⟩ : Check) = c := Option.some.inj hc
    exact ⟨SIGTSTP, rfl, fun hint => absurd hint (by decide)⟩
  have hmeets := (signal_restart freshTask waiting (.inl (by decide)) _).mpr hrestart
  exact ⟨_, _, rfl, hmeets.2.2 (.inl rfl) rfl⟩

/-- A son has ended before the stop: the call is interrupted, and no handler runs. -/
theorem signal_interrupts : ¬ ∀ (t : Task) (f : Frame) (cs : List Check), f.Called →
    (signalLoop t f cs).Meets f := by
  intro h
  have hmeets := h freshTask waiting [⟨bit SIGCHLD ||| bit SIGTSTP, 0⟩, ⟨bit SIGTSTP, 0⟩, ⟨0, 0⟩]
    (.inl (by decide))
  exact hmeets.2.1 (.inl rfl) rfl rfl

end Signals
