/-
The processes that use one pipe (fs/pipe.c, and `iput` of fs/inode.c).

* `PipeUsers` — the pipe inode with its two wait queues, the two entries of the file table, the
  descriptors for them, and what every process is doing;
* `readPipe`, `writePipe` — what a call does up to the next point where others can run;
* `Blocked` — what a call on one end waits for has not come;
* `WakeOk` — tasks that wait although they are not blocked are on their way, or will be woken;
* `pipe_wakes` — where nothing can run, readers wait for an empty pipe that somebody can write
  and writers for a full pipe that somebody can read; a reader gets nothing only at the end of
  the file, and `SIGPIPE` comes only where nobody can read.

Design notes: `P` are the processes other than task 0, which must not sleep.  A copied byte may
have to wait for a page of the process; others run in the meantime, and the process counts as
able to run.  `f_count` is at most the number of descriptors there can be, and does not wrap.
-/
import Linux012.Pipe
import Linux012.WaitQueue

namespace Fs

open Function (update)
open Sched (TaskState WaitQueue)

/-- The two ends of a pipe, and the two wait queues: `i_wait` is `PIPE_READ_WAIT`. -/
inductive PipeEnd where
  | read
  | write
  deriving DecidableEq

def PipeEnd.other : PipeEnd → PipeEnd
  | .read => .write
  | .write => .read

@[simp] theorem PipeEnd.other_other (e : PipeEnd) : e.other.other = e := by cases e <;> rfl

@[simp] theorem PipeEnd.other_ne (e : PipeEnd) : e.other ≠ e := by cases e <;> decide

theorem PipeEnd.eq_other {e e' : PipeEnd} (h : e' ≠ e) : e' = e.other := by
  cases e <;> cases e' <;> first | rfl | exact absurd rfl h

/-- Where a process is in `read_pipe` or `write_pipe`. -/
inductive PipeCall where
  | none
  /-- at the head of the loop, with `read` bytes read and `count` still to read -/
  | reading (count read : ℕ)
  /-- copies, with `chars` bytes left of this round and `size` the place of the next -/
  | putting (count read chars size : ℕ)
  /-- in `interruptible_sleep_on` -/
  | readWait (count read : ℕ)
  | writing (buf : List UInt8) (written : ℕ)
  | getting (buf : List UInt8) (written : ℕ) (chars : List UInt8) (size : ℕ)
  /-- in `sleep_on` -/
  | writeWait (buf : List UInt8) (written : ℕ)
  | returned (e : PipeEnd) (value : ℤ)
  deriving DecidableEq

/-- `ERESTARTSYS`. -/
def eRestartSys : ℤ := 512

/-- A pipe and those who use it. -/
structure PipeUsers (P : Type) where
  /-- `PIPE_HEAD` and `PIPE_TAIL` -/
  head : ℕ
  tail : ℕ
  /-- the page at `i_size` -/
  page : ℕ → UInt8
  iCount : ℕ
  /-- `f_count` of the two entries of the file table -/
  fCount : PipeEnd → ℕ
  /-- the process of each descriptor -/
  fds : PipeEnd → List P
  wait : PipeEnd → Option P
  /-- `tmp` of a process in `__sleep_on` -/
  tmp : P → Option P
  state : P → TaskState
  call : P → PipeCall
  /-- what `read_pipe` has put into the buffer of a process -/
  buffer : P → List UInt8
  /-- `SIGPIPE` is set in `signal` -/
  sigpipe : P → Bool
  /-- the `count` that a process has called `read_pipe` with (not in the source) -/
  asked : P → ℤ
  /-- the processes in `__sleep_on` on a queue, the latest first (not in the source) -/
  inside : PipeEnd → List P

namespace PipeUsers

variable {P : Type} [DecidableEq P]

/-- `PIPE_SIZE`. -/
def pipeSize (s : PipeUsers P) : ℕ := (((s.head : ℤ) - s.tail) % pageSize).toNat

/-- One of the wait queues. -/
def queue (s : PipeUsers P) (e : PipeEnd) : WaitQueue P := ⟨s.wait e, s.tmp, s.state, s.inside e⟩

def setQueue (s : PipeUsers P) (e : PipeEnd) (q : WaitQueue P) : PipeUsers P :=
  { s with
    wait := update s.wait e q.head
    tmp := q.tmp
    state := q.state
    inside := update s.inside e q.inside }

def setCall (s : PipeUsers P) (p : P) (c : PipeCall) : PipeUsers P :=
  { s with call := update s.call p c }

/-- `wake_up`. -/
def wakeUp (s : PipeUsers P) (e : PipeEnd) : PipeUsers P := s.setQueue e (s.queue e).wakeUp

/-- `interruptible_sleep_on` or `sleep_on`, up to `schedule`. -/
def sleepOn (s : PipeUsers P) (e : PipeEnd) (p : P) (state : TaskState) (c : PipeCall) :
    PipeUsers P :=
  (s.setQueue e ((s.queue e).enter p state)).setCall p c

/-- `__sleep_on` from `schedule` on; `c` is what the process does then. -/
def resume (s : PipeUsers P) (e : PipeEnd) (p : P) (c : PipeCall) : PipeUsers P :=
  if (s.wait e).isSome ∧ s.wait e ≠ some p then s.setQueue e ((s.queue e).stay p)
  else (s.setQueue e ((s.queue e).leave p)).setCall p c

/-- `read_pipe`; `signal` tells whether there is a signal that is not blocked. -/
def readPipe (s : PipeUsers P) (p : P) (signal : Bool) : PipeUsers P :=
  match s.call p with
  | .reading count read =>
    if count = 0 then (s.wakeUp .write).setCall p (.returned .read read)
    else if s.pipeSize = 0 then
      let s := s.wakeUp .write
      if s.iCount ≠ 2 then s.setCall p (.returned .read read)
      else if signal then
        s.setCall p (.returned .read (if read ≠ 0 then (read : ℤ) else -eRestartSys))
      else s.sleepOn .read p .interruptible (.readWait count read)
    else
      let chars := min (min (pageSize - s.tail) count) s.pipeSize
      { s with
        tail := (s.tail + chars) % pageSize
        call := update s.call p (.putting (count - chars) (read + chars) chars s.tail) }
  | .putting count read chars size =>
    if chars = 0 then s.setCall p (.reading count read)
    else { s with
      call := update s.call p (.putting count read (chars - 1) (size + 1))
      buffer := update s.buffer p (s.buffer p ++ [s.page size]) }
  | .readWait count read => s.resume .read p (.reading count read)
  | _ => s

/-- `write_pipe`. -/
def writePipe (s : PipeUsers P) (p : P) : PipeUsers P :=
  match s.call p with
  | .writing buf written =>
    if buf = [] then (s.wakeUp .read).setCall p (.returned .write written)
    else if pageSize - 1 - s.pipeSize = 0 then
      let s := s.wakeUp .read
      if s.iCount ≠ 2 then
        { s with
          sigpipe := update s.sigpipe p true
          call := update s.call p (.returned .write (if written ≠ 0 then (written : ℤ) else -1)) }
      else s.sleepOn .write p .uninterruptible (.writeWait buf written)
    else
      let chars := min (min (pageSize - s.head) buf.length) (pageSize - 1 - s.pipeSize)
      { s with
        head := (s.head + chars) % pageSize
        call := update s.call p
          (.getting (buf.drop chars) (written + chars) (buf.take chars) s.head) }
  | .getting buf written [] _ => s.setCall p (.writing buf written)
  | .getting buf written (c :: chars) size =>
    { s with
      call := update s.call p (.getting buf written chars (size + 1))
      page := update s.page size c }
  | .writeWait buf written => s.resume .write p (.writing buf written)
  | _ => s

/-- `iput` of a pipe; none is the panic. -/
def iput (s : PipeUsers P) : Option (PipeUsers P) :=
  if s.iCount = 0 then none
  else
    let s := (s.wakeUp .read).wakeUp .write
    some { s with iCount := s.iCount - 1 }

/-- `sys_close` of a descriptor of process `p`; none is a panic. -/
def close (s : PipeUsers P) (e : PipeEnd) (p : P) : Option (PipeUsers P) :=
  if s.fCount e = 0 then none
  else
    let s := { s with
      fds := update s.fds e ((s.fds e).erase p)
      fCount := update s.fCount e (s.fCount e - 1) }
    if s.fCount e ≠ 0 then some s else s.iput

/-- `f_count++` for each of `n` descriptors that process `p` gets. -/
def addFds (s : PipeUsers P) (e : PipeEnd) (p : P) (n : ℕ) : PipeUsers P :=
  { s with
    fds := update s.fds e (List.replicate n p ++ s.fds e)
    fCount := update s.fCount e (s.fCount e + n) }

/-- After `sys_pipe`, in process `p`. -/
def start (page : ℕ → UInt8) (p : P) : PipeUsers P where
  head := 0
  tail := 0
  page := page
  iCount := 2
  fCount := fun _ => 1
  fds := fun _ => [p]
  wait := fun _ => Option.none
  tmp := fun _ => Option.none
  state := fun _ => .running
  call := fun _ => .none
  buffer := fun _ => []
  sigpipe := fun _ => false
  asked := fun _ => 0
  inside := fun _ => []

end PipeUsers

/-- The end whose call a process is in without being in `__sleep_on`. -/
def PipeCall.active : PipeCall → Option PipeEnd
  | .reading .. | .putting .. => some .read
  | .writing .. | .getting .. => some .write
  | _ => Option.none

/-- The queue on which a process is in `__sleep_on`. -/
def PipeCall.asleep : PipeCall → Option PipeEnd
  | .readWait .. => some .read
  | .writeWait .. => some .write
  | _ => Option.none

theorem PipeCall.asleep_of_active {e : PipeEnd} {c : PipeCall} (h : c.active = some e) :
    c.asleep = Option.none := by
  cases c with
  | readWait | writeWait => cases h
  | _ => rfl

theorem PipeCall.active_of_asleep {e : PipeEnd} {c : PipeCall} (h : c.asleep = some e) :
    c.active = Option.none := by
  cases c with
  | readWait | writeWait => rfl
  | _ => cases h

/-- The process is in neither call. -/
def PipeCall.Outside (c : PipeCall) : Prop := c.active = Option.none ∧ c.asleep = Option.none

instance (c : PipeCall) : Decidable c.Outside := inferInstanceAs (Decidable (_ ∧ _))

inductive UserEvent (P : Type) where
  | read (p : P) (count : ℤ)
  | write (p : P) (buf : List UInt8)
  /-- a process goes on in its call; `signal` tells whether a signal is there -/
  | run (p : P) (signal : Bool)
  /-- a signal wakes a process -/
  | wake (p : P)
  /-- `do_signal` takes `SIGPIPE` -/
  | taken (p : P)
  | dup (e : PipeEnd) (p : P)
  | fork (p child : P)
  | close (e : PipeEnd) (p : P)

section system

variable {P : Type} [DecidableEq P]

/-- A process makes one call at a time, and uses its own descriptors. -/
def UserEvent.Called (s : PipeUsers P) : UserEvent P → Prop
  | .read p _ => (s.call p).Outside ∧ p ∈ s.fds .read
  | .write p _ => (s.call p).Outside ∧ p ∈ s.fds .write
  | .run p _ => ¬ (s.call p).Outside ∧ s.state p = .running
  | .wake p => s.state p = .interruptible
  | .taken p => (s.call p).Outside
  | .dup e p => (s.call p).Outside ∧ p ∈ s.fds e
  | .fork p child => (s.call p).Outside ∧ (s.call child).Outside ∧
      ∀ e : PipeEnd, child ∉ s.fds e
  | .close e p => (s.call p).Outside ∧ p ∈ s.fds e

/-- The state after an event; none after a panic. -/
def PipeUsers.step (s : PipeUsers P) : UserEvent P → Option (PipeUsers P)
  | .read p count => some
    { s with
      call := update s.call p (.reading count.toNat 0)
      buffer := update s.buffer p []
      asked := update s.asked p count }
  | .write p buf => some (s.setCall p (.writing buf 0))
  | .run p signal => some (if (s.call p).active = some .read ∨ (s.call p).asleep = some .read then
      s.readPipe p signal else s.writePipe p)
  | .wake p => some { s with state := update s.state p .running }
  | .taken p => some { s with sigpipe := update s.sigpipe p false }
  | .dup e p => some (s.addFds e p 1)
  | .fork p child => some
      ((s.addFds .read child ((s.fds .read).count p)).addFds .write child ((s.fds .write).count p))
  | .close e p => s.close e p

/-- The runs of a pipe from `sys_pipe` on. -/
def pipeUsers : System (PipeUsers P) (UserEvent P) where
  init s := ∃ page p, s = .start page p
  step s e s' := e.Called s ∧ s.step e = some s'

namespace PipeUsers

variable {s s' : PipeUsers P} {e e' : PipeEnd} {p q : P} {c : PipeCall}

/-! ### What the queues are after a wake-up -/

theorem wakeUp_eq (s : PipeUsers P) (e : PipeEnd) :
    s.wakeUp e = { s with state := WaitQueue.wake (s.wait e) s.state } := by
  simp only [wakeUp, setQueue, queue, WaitQueue.wakeUp, Function.update_eq_self]

theorem wake_running {state : P → TaskState} (t : Option P) (h : state p = .running) :
    WaitQueue.wake t state p = .running := by
  cases t with
  | none => exact h
  | some q =>
    rw [WaitQueue.wake]
    by_cases hq : p = q
    · rw [hq, Function.update_self]
    · rw [Function.update_of_ne hq, h]

/-- The head of a queue is woken. -/
theorem head_wake {q : WaitQueue P} (h : q.Stack) (hne : q.inside ≠ []) :
    ∃ p ∈ q.inside, WaitQueue.wake q.head q.state p = .running := by
  cases hl : q.inside with
  | nil => exact absurd hl hne
  | cons p l =>
    refine ⟨p, List.mem_cons_self, ?_⟩
    rw [Links.IsList.head? h, hl, List.head?_cons, WaitQueue.wake, Function.update_self]

/-! ### The invariant -/

/-- The size of a pipe that a call on this end waits at. -/
def limit : PipeEnd → ℕ
  | .read => 0
  | .write => pageSize - 1

/-- A call on this end has to wait, for the other end is there and has to act first. -/
def Blocked (s : PipeUsers P) (e : PipeEnd) : Prop :=
  s.pipeSize = limit e ∧ s.fds e.other ≠ []

/-- One of the processes on a queue is woken. -/
def Woken (s : PipeUsers P) (e : PipeEnd) : Prop :=
  s.inside e ≠ [] → ∃ p ∈ s.inside e, s.state p = .running

/-- Where processes wait without being blocked, one of them is woken, or a process is in a call
on the other end, which wakes them when it ends or waits. -/
def WakeOk (s : PipeUsers P) (e : PipeEnd) : Prop :=
  ¬ s.Blocked e → s.Woken e ∨ ∃ p, (s.call p).active = some e.other

/-- The bytes read and those still to read are those that were asked for. -/
def Asks (asked : ℤ) : PipeCall → Prop
  | .reading count read | .putting count read _ _ | .readWait count read =>
    0 < asked → (count : ℤ) + read = asked
  | _ => True

structure Good (s : PipeUsers P) : Prop where
  stack : ∀ e, (s.queue e).Stack
  asleep : ∀ e p, p ∈ s.inside e ↔ (s.call p).asleep = some e
  runs : ∀ p, (s.call p).asleep = none → s.state p = .running
  holds : ∀ e p, (s.call p).active = some e ∨ (s.call p).asleep = some e → p ∈ s.fds e
  fCount : ∀ e, s.fCount e = (s.fds e).length
  iCount : s.iCount = min 1 (s.fds .read).length + min 1 (s.fds .write).length
  asks : ∀ p, Asks (s.asked p) (s.call p)
  wakes : ∀ e, s.WakeOk e

omit [DecidableEq P] in
/-- The other end is open if the inode has two users, for a process in a call has its own. -/
theorem Good.open_iff (h : s.Good) (hp : (s.call p).active = some e) :
    s.iCount ≠ 2 ↔ s.fds e.other = [] := by
  have hlen : 0 < (s.fds e).length := List.length_pos_of_mem (h.holds e p (.inl hp))
  have hcount := h.iCount
  rw [← List.length_eq_zero_iff]
  cases e with
  | read =>
    rw [PipeEnd.other]
    omega
  | write =>
    rw [PipeEnd.other]
    omega

omit [DecidableEq P] in
theorem Good.start (page : ℕ → UInt8) (p : P) : (PipeUsers.start page p).Good where
  stack _ := rfl
  asleep e q := by simp [PipeUsers.start, PipeCall.asleep]
  runs _ _ := rfl
  holds e q hq := by simp [PipeUsers.start, PipeCall.asleep, PipeCall.active] at hq
  fCount _ := rfl
  iCount := rfl
  asks _ := trivial
  wakes _ _ := .inl fun hne => absurd rfl hne

/-! ### What keeps it -/

namespace Good

theorem wakeUp (h : s.Good) (e : PipeEnd) : (s.wakeUp e).Good := by
  rw [wakeUp_eq]
  refine ⟨h.stack, h.asleep, fun p hp => wake_running _ (h.runs p hp), h.holds, h.fCount, h.iCount,
    h.asks, fun e' hb => ?_⟩
  refine (h.wakes e' hb).imp_left fun hw hne => ?_
  obtain ⟨p, hp, hrun⟩ := hw hne
  exact ⟨p, hp, wake_running _ hrun⟩

theorem woken_wakeUp (h : s.Good) (e : PipeEnd) : (s.wakeUp e).Woken e := by
  rw [wakeUp_eq]
  exact fun hne => head_wake (h.stack e) hne

/-- The calls after that of one process is set. -/
theorem call_cases {f : P → PipeCall} {Q : P → PipeCall → Prop} (hp : Q p c)
    (hq : ∀ q, q ≠ p → Q q (f q)) (q : P) : Q q (update f p c q) := by
  by_cases hqp : q = p
  · rw [hqp, Function.update_self]
    exact hp
  · rw [Function.update_of_ne hqp]
    exact hq q hqp

/-- A process that is in a call on one end goes on, or returns when the others are woken. -/
theorem move {head tail : ℕ} {page : ℕ → UInt8} {buffer : P → List UInt8} {sigpipe : P → Bool}
    (h : s.Good) (hp : (s.call p).active = some e) (hsleep : c.asleep = none)
    (hactive : c.active = some e ∨ c.active = none ∧ s.Woken e.other) (hasks : Asks (s.asked p) c)
    (hblocked : s.Blocked e → s.pipeSize = (((head : ℤ) - tail) % pageSize).toNat) :
    ({ s with
      head := head
      tail := tail
      page := page
      buffer := buffer
      sigpipe := sigpipe
      call := update s.call p c } : PipeUsers P).Good := by
  have hpsleep := PipeCall.asleep_of_active hp
  refine ⟨h.stack, fun e' => ?_, ?_, fun e' => ?_, h.fCount, h.iCount, ?_, fun e' hb => ?_⟩
  · refine call_cases (Q := fun q c => q ∈ s.inside e' ↔ c.asleep = some e') ?_ fun q _ =>
      h.asleep e' q
    rw [h.asleep, hpsleep, hsleep]
  · exact call_cases (Q := fun q c => c.asleep = none → s.state q = .running)
      (fun _ => h.runs p hpsleep) fun q _ => h.runs q
  · refine call_cases (Q := fun q c => c.active = some e' ∨ c.asleep = some e' → q ∈ s.fds e')
      (fun hin => ?_) fun q _ => h.holds e' q
    rw [hsleep] at hin
    obtain hin | hin := hin
    · obtain hc | ⟨hc, -⟩ := hactive
      · obtain rfl : e = e' := Option.some.inj (hc.symm.trans hin)
        exact h.holds e p (.inl hp)
      · cases hc.symm.trans hin
    · cases hin
  · exact call_cases (Q := fun q c => Asks (s.asked q) c) hasks fun q _ => h.asks q
  by_cases he : e' = e
  · subst he
    have hfree : ¬ s.Blocked e' := fun hold => hb ⟨(hblocked hold).symm.trans hold.1, hold.2⟩
    refine (h.wakes e' hfree).imp_right fun ⟨q, hq⟩ => ⟨q, ?_⟩
    have hqp : q ≠ p := by
      rintro rfl
      exact PipeEnd.other_ne e' (Option.some.inj (hq.symm.trans hp))
    show (update s.call p c q).active = _
    rw [Function.update_of_ne hqp, hq]
  · obtain rfl := PipeEnd.eq_other he
    obtain hc | ⟨-, hw⟩ := hactive
    · refine .inr ⟨p, ?_⟩
      show (update s.call p c p).active = _
      rw [Function.update_self, hc, PipeEnd.other_other]
    · exact .inl hw

/-- A process that is blocked goes to sleep, when the others are woken. -/
theorem sleepOn (h : s.Good) (hp : (s.call p).active = some e) (state : TaskState)
    (hc : c.asleep = some e) (hasks : Asks (s.asked p) c) (hblocked : s.Blocked e)
    (hw : s.Woken e.other) : (s.sleepOn e p state c).Good := by
  have hpsleep := PipeCall.asleep_of_active hp
  have hnot : ∀ e', p ∉ s.inside e' := by
    intro e' hmem
    cases hpsleep.symm.trans ((h.asleep e' p).mp hmem)
  have hcactive := PipeCall.active_of_asleep hc
  refine ⟨fun e' => ?_, fun e' => ?_, ?_, fun e' => ?_, h.fCount, h.iCount, ?_, fun e' hb => ?_⟩
  · by_cases he : e' = e
    · subst he
      show Links.IsList _ (update s.wait e' (some p) e') (update s.inside e' (p :: s.inside e') e')
      rw [Function.update_self, Function.update_self]
      exact WaitQueue.Stack.enter (h.stack e') (hnot e') state
    · show Links.IsList _ (update s.wait e (some p) e') (update s.inside e (p :: s.inside e) e')
      rw [Function.update_of_ne he, Function.update_of_ne he]
      exact Links.Seg.update (h.stack e') (hnot e') _
  · refine call_cases (Q := fun q c => q ∈ update s.inside e (p :: s.inside e) e' ↔
      c.asleep = some e') ?_ fun q hq => ?_
    · by_cases he : e' = e
      · rw [he, Function.update_self, hc]
        exact iff_of_true List.mem_cons_self rfl
      · rw [Function.update_of_ne he, hc]
        exact iff_of_false (hnot e') fun heq => he (Option.some.inj heq).symm
    · by_cases he : e' = e
      · rw [he, Function.update_self, List.mem_cons, or_iff_right hq]
        exact h.asleep e q
      · rw [Function.update_of_ne he]
        exact h.asleep e' q
  · refine call_cases (Q := fun q c => c.asleep = none → update s.state p state q = .running)
      (fun hnone => ?_) fun q hq hnone => ?_
    · cases hnone.symm.trans hc
    · rw [Function.update_of_ne hq]
      exact h.runs q hnone
  · refine call_cases (Q := fun q c => c.active = some e' ∨ c.asleep = some e' → q ∈ s.fds e')
      (fun hin => ?_) fun q _ => h.holds e' q
    rw [hcactive, hc] at hin
    obtain hin | hin := hin
    · cases hin
    · cases hin
      exact h.holds e p (.inl hp)
  · exact call_cases (Q := fun q c => Asks (s.asked q) c) hasks fun q _ => h.asks q
  by_cases he : e' = e
  · subst he
    exact absurd hblocked hb
  · obtain rfl := PipeEnd.eq_other he
    refine .inl fun hne => ?_
    have hsame : update s.inside e (p :: s.inside e) e.other = s.inside e.other :=
      Function.update_of_ne he _ _
    obtain ⟨q, hq, hrun⟩ := hw fun hnil => hne (hsame.trans hnil)
    refine ⟨q, ?_, ?_⟩
    · show q ∈ update s.inside e (p :: s.inside e) e.other
      rwa [hsame]
    · show update s.state p state q = .running
      rw [Function.update_of_ne fun heq => hnot _ (heq ▸ hq), hrun]

/-- A process in `__sleep_on` leaves only from the top. -/
theorem resume_cases (h : s.Good) (hp : (s.call p).asleep = some e) (c : PipeCall) :
    (s.resume e p c = s.setQueue e ((s.queue e).stay p) ∧
        ∃ q ∈ s.inside e, s.wait e = some q ∧ q ≠ p) ∨
      ∃ l, s.inside e = p :: l ∧ s.resume e p c =
        (s.setQueue e ⟨s.tmp p, s.tmp, WaitQueue.wake (s.tmp p) s.state, l⟩).setCall p c := by
  have hmem := (h.asleep e p).mpr hp
  cases hl : s.inside e with
  | nil =>
    rw [hl] at hmem
    cases hmem
  | cons q l =>
    have hhead : s.wait e = some q := by
      have hq := Links.IsList.head? (h.stack e)
      rw [show (s.queue e).inside = q :: l from hl] at hq
      exact hq
    rw [PipeUsers.resume, hhead]
    by_cases hq : q = p
    · subst hq
      refine .inr ⟨l, rfl, ?_⟩
      rw [if_neg fun hne => hne.2 rfl, WaitQueue.leave,
        show (s.queue e).inside = q :: l from hl, List.erase_cons_head]
      rfl
    · refine .inl ⟨if_pos ⟨rfl, fun heq => hq (Option.some.inj heq)⟩, q, List.mem_cons_self, rfl,
        hq⟩

/-- It stays where it is not the top, and wakes the top. -/
theorem stay (h : s.Good) (hp : (s.call p).asleep = some e) (hq : q ∈ s.inside e)
    (hhead : s.wait e = some q) (hne : q ≠ p) : (s.setQueue e ((s.queue e).stay p)).Good := by
  have hkeeps : ∀ q', q' ≠ p → s.state q' = .running →
      update (WaitQueue.wake (s.wait e) s.state) p .uninterruptible q' = .running := by
    intro q' hq' hrun
    rw [Function.update_of_ne hq']
    exact wake_running _ hrun
  have hwait : update s.wait e (s.wait e) = s.wait := Function.update_eq_self e s.wait
  have hinside : update s.inside e (s.inside e) = s.inside := Function.update_eq_self e s.inside
  have heq : s.setQueue e ((s.queue e).stay p) =
      { s with state := update (WaitQueue.wake (s.wait e) s.state) p .uninterruptible } := by
    simp only [setQueue, queue, WaitQueue.stay, hwait, hinside]
  rw [heq]
  refine ⟨h.stack, h.asleep, fun q' hnone => ?_, h.holds, h.fCount, h.iCount, h.asks,
    fun e' hb => ?_⟩
  · refine hkeeps q' ?_ (h.runs q' hnone)
    rintro rfl
    cases hnone.symm.trans hp
  by_cases he : e' = e
  · subst he
    refine .inl fun _ => ⟨q, hq, ?_⟩
    show update (WaitQueue.wake (s.wait e') s.state) p .uninterruptible q = .running
    rw [Function.update_of_ne hne, hhead, WaitQueue.wake, Function.update_self]
  · refine (h.wakes e' hb).imp_left fun hw hnil => ?_
    obtain ⟨q', hq', hrun⟩ := hw hnil
    refine ⟨q', hq', hkeeps q' ?_ hrun⟩
    rintro rfl
    exact he (Option.some.inj (((h.asleep e' q').mp hq').symm.trans hp))

/-- The top leaves, and wakes the one below. -/
theorem leave {l : List P} (h : s.Good) (hp : (s.call p).asleep = some e)
    (hrun : s.state p = .running) (hl : s.inside e = p :: l) (hc : c.active = some e)
    (hasks : Asks (s.asked p) c) :
    ((s.setQueue e ⟨s.tmp p, s.tmp, WaitQueue.wake (s.tmp p) s.state, l⟩).setCall p c).Good := by
  have hrest : Links.IsList s.tmp (s.tmp p) l := WaitQueue.Stack.leave (h.stack e) hl
  have hnodup : (p :: l).Nodup := by
    rw [← hl]
    exact Links.IsList.nodup (h.stack e)
  have hpl : p ∉ l := (List.nodup_cons.mp hnodup).1
  have hcasleep := PipeCall.asleep_of_active hc
  refine ⟨fun e' => ?_, fun e' => ?_, ?_, fun e' => ?_, h.fCount, h.iCount, ?_, fun e' hb => ?_⟩
  · show Links.IsList s.tmp (update s.wait e (s.tmp p) e') (update s.inside e l e')
    by_cases he : e' = e
    · rw [he, Function.update_self, Function.update_self]
      exact hrest
    · rw [Function.update_of_ne he, Function.update_of_ne he]
      exact h.stack e'
  · refine call_cases (Q := fun q c => q ∈ update s.inside e l e' ↔ c.asleep = some e') ?_
      fun q hq => ?_
    · rw [hcasleep]
      refine iff_of_false (fun hmem => ?_) (by nofun)
      by_cases he : e' = e
      · rw [he, Function.update_self] at hmem
        exact hpl hmem
      · rw [Function.update_of_ne he] at hmem
        exact he (Option.some.inj (((h.asleep e' p).mp hmem).symm.trans hp))
    · refine Iff.trans ?_ (h.asleep e' q)
      by_cases he : e' = e
      · rw [he, Function.update_self, hl, List.mem_cons, or_iff_right hq]
      · rw [Function.update_of_ne he]
  · exact call_cases
      (Q := fun q c => c.asleep = none → WaitQueue.wake (s.tmp p) s.state q = .running)
      (fun _ => wake_running _ hrun) fun q _ hnone => wake_running _ (h.runs q hnone)
  · refine call_cases (Q := fun q c => c.active = some e' ∨ c.asleep = some e' → q ∈ s.fds e')
      (fun hin => ?_) fun q _ => h.holds e' q
    rw [hcasleep, hc] at hin
    obtain hin | hin := hin
    · cases hin
      exact h.holds e p (.inr hp)
    · cases hin
  · exact call_cases (Q := fun q c => Asks (s.asked q) c) hasks fun q _ => h.asks q
  by_cases he : e' = e
  · subst he
    refine .inl fun hne => ?_
    have hinside : update s.inside e' l e' = l := Function.update_self ..
    obtain ⟨q, hq, hwoken⟩ := head_wake (q := ⟨s.tmp p, s.tmp, s.state, l⟩) hrest
      fun hnil => hne (hinside.trans hnil)
    refine ⟨q, ?_, hwoken⟩
    show q ∈ update s.inside e' l e'
    rwa [hinside]
  · obtain rfl := PipeEnd.eq_other he
    refine .inr ⟨p, ?_⟩
    show (update s.call p c p).active = _
    rw [Function.update_self, hc, PipeEnd.other_other]

theorem resume (h : s.Good) (hp : (s.call p).asleep = some e) (hrun : s.state p = .running)
    (hc : c.active = some e) (hasks : Asks (s.asked p) c) : (s.resume e p c).Good := by
  obtain ⟨heq, q, hq, hhead, hne⟩ | ⟨l, hl, heq⟩ := h.resume_cases hp c
  · rw [heq]
    exact h.stay hp hq hhead hne
  · rw [heq]
    exact h.leave hp hrun hl hc hasks

/-! ### The calls -/

omit [DecidableEq P] in
theorem pipeSize_lt (s : PipeUsers P) : s.pipeSize < pageSize := by
  simp only [pipeSize, pageSize]
  omega

/-- A process returns when it has woken the others. -/
theorem returns {sigpipe : P → Bool} {value : ℤ} (h : s.Good) (hp : (s.call p).active = some e) :
    ({ s.wakeUp e.other with
      sigpipe := sigpipe
      call := update s.call p (.returned e value) } : PipeUsers P).Good := by
  have hgood := h.wakeUp e.other
  have hwoken := h.woken_wakeUp e.other
  rw [wakeUp_eq] at hgood hwoken ⊢
  exact hgood.move (e := e) hp rfl (.inr ⟨rfl, hwoken⟩) trivial fun _ => rfl

/-- It goes to sleep when it has woken the others. -/
theorem waits (h : s.Good) (hp : (s.call p).active = some e) (state : TaskState)
    (hc : c.asleep = some e) (hasks : Asks (s.asked p) c) (hsize : s.pipeSize = limit e)
    (hopen : s.iCount = 2) : ((s.wakeUp e.other).sleepOn e p state c).Good := by
  have hblocked : s.Blocked e := ⟨hsize, fun hnil => (h.open_iff hp).mpr hnil hopen⟩
  have hgood := h.wakeUp e.other
  have hwoken := h.woken_wakeUp e.other
  rw [wakeUp_eq] at hgood hwoken ⊢
  exact hgood.sleepOn hp state hc hasks hblocked hwoken

theorem readPipe (h : s.Good)
    (hp : (s.call p).active = some .read ∨ (s.call p).asleep = some .read)
    (hrun : s.state p = .running) (signal : Bool) : (s.readPipe p signal).Good := by
  have hasks := h.asks p
  rw [PipeUsers.readPipe]
  cases hcall : s.call p with
  | reading count read =>
    have hactive : (s.call p).active = some .read := by rw [hcall]; rfl
    rw [hcall] at hasks
    dsimp only
    by_cases hcount : count = 0
    · rw [if_pos hcount]
      exact h.returns hactive
    rw [if_neg hcount]
    by_cases hempty : s.pipeSize = 0
    · rw [if_pos hempty]
      by_cases hopen : (s.wakeUp .write).iCount ≠ 2
      · rw [if_pos hopen]
        exact h.returns hactive
      rw [if_neg hopen]
      cases signal with
      | true => exact h.returns hactive
      | false => exact h.waits hactive _ rfl hasks hempty (not_not.mp hopen)
    · rw [if_neg hempty]
      refine h.move (c := .putting _ _ _ _) hactive rfl (.inl rfl) (fun hpos => ?_)
        fun hb => absurd hb.1 hempty
      have hsum := hasks hpos
      omega
  | putting count read chars size =>
    have hactive : (s.call p).active = some .read := by rw [hcall]; rfl
    rw [hcall] at hasks
    dsimp only
    split
    · exact h.move hactive rfl (.inl rfl) hasks fun _ => rfl
    · exact h.move (c := .putting _ _ _ _) hactive rfl (.inl rfl) hasks fun _ => rfl
  | readWait count read =>
    rw [hcall] at hasks
    exact h.resume (by rw [hcall]; rfl) hrun rfl hasks
  | _ =>
    rw [hcall] at hp
    obtain hp | hp := hp
    · cases hp
    · cases hp

theorem writePipe (h : s.Good)
    (hp : (s.call p).active = some .write ∨ (s.call p).asleep = some .write)
    (hrun : s.state p = .running) : (s.writePipe p).Good := by
  rw [PipeUsers.writePipe]
  cases hcall : s.call p with
  | writing buf written =>
    have hactive : (s.call p).active = some .write := by rw [hcall]; rfl
    dsimp only
    by_cases hbuf : buf = []
    · rw [if_pos hbuf]
      exact h.returns hactive
    rw [if_neg hbuf]
    have hlt := pipeSize_lt s
    by_cases hfull : pageSize - 1 - s.pipeSize = 0
    · rw [if_pos hfull]
      by_cases hopen : (s.wakeUp .read).iCount ≠ 2
      · rw [if_pos hopen]
        exact h.returns hactive
      · rw [if_neg hopen]
        exact h.waits hactive _ rfl trivial (by rw [limit]; omega) (not_not.mp hopen)
    · rw [if_neg hfull]
      refine h.move (c := .getting _ _ _ _) hactive rfl (.inl rfl) trivial fun hb => ?_
      have hsize := hb.1
      rw [limit] at hsize
      omega
  | getting buf written chars size =>
    have hactive : (s.call p).active = some .write := by rw [hcall]; rfl
    cases chars with
    | nil => exact h.move hactive rfl (.inl rfl) trivial fun _ => rfl
    | cons c chars =>
      exact h.move (c := .getting _ _ _ _) hactive rfl (.inl rfl) trivial fun _ => rfl
  | writeWait buf written => exact h.resume (by rw [hcall]; rfl) hrun rfl trivial
  | _ =>
    rw [hcall] at hp
    obtain hp | hp := hp
    · cases hp
    · cases hp

/-- A process enters one of the calls. -/
theorem enter {buffer : P → List UInt8} {asked : P → ℤ} (h : s.Good)
    (hp : (s.call p).Outside) (hfd : p ∈ s.fds e) (hc : c.active = some e)
    (hasks : Asks (asked p) c) (hsame : ∀ q, q ≠ p → asked q = s.asked q) :
    ({ s with
      call := update s.call p c
      buffer := buffer
      asked := asked } : PipeUsers P).Good := by
  have hcasleep := PipeCall.asleep_of_active hc
  refine ⟨h.stack, fun e' => ?_, ?_, fun e' => ?_, h.fCount, h.iCount, ?_, fun e' hb => ?_⟩
  · refine call_cases (Q := fun q c => q ∈ s.inside e' ↔ c.asleep = some e') ?_ fun q _ =>
      h.asleep e' q
    rw [h.asleep, hp.2, hcasleep]
  · exact call_cases (Q := fun q c => c.asleep = none → s.state q = .running)
      (fun _ => h.runs p hp.2) fun q _ => h.runs q
  · refine call_cases (Q := fun q c => c.active = some e' ∨ c.asleep = some e' → q ∈ s.fds e')
      (fun hin => ?_) fun q _ => h.holds e' q
    rw [hcasleep, hc] at hin
    obtain hin | hin := hin
    · cases hin
      exact hfd
    · cases hin
  · refine call_cases (Q := fun q c => Asks (asked q) c) hasks fun q hq => ?_
    rw [hsame q hq]
    exact h.asks q
  · refine (h.wakes e' hb).imp_right fun ⟨q, hq⟩ => ⟨q, ?_⟩
    have hqp : q ≠ p := by
      rintro rfl
      cases hp.1.symm.trans hq
    show (update s.call p c q).active = _
    rw [Function.update_of_ne hqp, hq]

/-- A signal wakes a process. -/
theorem signal (h : s.Good) (p : P) :
    ({ s with state := update s.state p .running } : PipeUsers P).Good := by
  have hkeeps : ∀ q, s.state q = .running → update s.state p .running q = .running :=
    fun q hq => wake_running (some p) hq
  refine ⟨h.stack, h.asleep, fun q hq => hkeeps q (h.runs q hq), h.holds, h.fCount, h.iCount,
    h.asks, fun e hb => (h.wakes e hb).imp_left fun hw hne => ?_⟩
  obtain ⟨q, hq, hrun⟩ := hw hne
  exact ⟨q, hq, hkeeps q hrun⟩

/-! ### The descriptors -/

omit [DecidableEq P] in
/-- Descriptors come and go, but not the last of an end. -/
theorem setFds (h : s.Good) (fds : PipeEnd → List P)
    (hin : ∀ e q, ¬ (s.call q).Outside → q ∈ s.fds e → q ∈ fds e)
    (hnil : ∀ e, fds e = [] ↔ s.fds e = []) :
    ({ s with
      fds := fds
      fCount := fun e => (fds e).length } : PipeUsers P).Good := by
  have hmin : ∀ e, min 1 (fds e).length = min 1 (s.fds e).length := by
    intro e
    have hiff := hnil e
    rw [← List.length_eq_zero_iff, ← List.length_eq_zero_iff] at hiff
    omega
  refine ⟨h.stack, h.asleep, h.runs, fun e q hq => hin e q (fun hout => ?_) (h.holds e q hq),
    fun _ => rfl, ?_, h.asks, fun e hb => h.wakes e fun hold => hb ⟨hold.1, ?_⟩⟩
  · obtain hq | hq := hq
    · cases hout.1.symm.trans hq
    · cases hout.2.symm.trans hq
  · show s.iCount = min 1 (fds .read).length + min 1 (fds .write).length
    rw [hmin, hmin]
    exact h.iCount
  · exact fun hempty => hold.2 ((hnil e.other).mp hempty)

omit [DecidableEq P] in
theorem addFds (h : s.Good) (e : PipeEnd) (p : P) {n : ℕ} (hn : n = 0 ∨ s.fds e ≠ []) :
    (s.addFds e p n).Good := by
  have hset := h.setFds (update s.fds e (List.replicate n p ++ s.fds e))
    (fun e' q _ hq => ?_) fun e' => ?_
  · have heq : update s.fCount e (s.fCount e + n) =
        fun e' => (update s.fds e (List.replicate n p ++ s.fds e) e').length := by
      funext e'
      by_cases he : e' = e
      · rw [he, Function.update_self, Function.update_self, List.length_append,
          List.length_replicate, h.fCount, Nat.add_comm]
      · rw [Function.update_of_ne he, Function.update_of_ne he, h.fCount]
    rw [PipeUsers.addFds, heq]
    exact hset
  · by_cases he : e' = e
    · rw [he] at hq ⊢
      rw [Function.update_self]
      exact List.mem_append_right _ hq
    · rwa [Function.update_of_ne he]
  · by_cases he : e' = e
    · rw [he, Function.update_self, List.append_eq_nil_iff, List.replicate_eq_nil_iff]
      exact ⟨And.right, fun hnil => ⟨hn.resolve_right fun hne => hne hnil, hnil⟩⟩
    · rw [Function.update_of_ne he]

omit [DecidableEq P] in
/-- `iput` when the last descriptor of an end is closed. -/
theorem last (h : s.Good) (hw : ∀ e', s.Woken e') (hp : (s.call p).Outside)
    (hfds : s.fds e = [p]) :
    ({ s with
      fds := update s.fds e []
      fCount := update s.fCount e 0
      iCount := s.iCount - 1 } : PipeUsers P).Good := by
  refine ⟨h.stack, h.asleep, h.runs, fun e' q hq => ?_, fun e' => ?_, ?_, h.asks,
    fun e' _ => .inl (hw e')⟩
  · have hmem := h.holds e' q hq
    by_cases he : e' = e
    · subst he
      rw [hfds, List.mem_singleton] at hmem
      subst hmem
      obtain hq | hq := hq
      · cases hp.1.symm.trans hq
      · cases hp.2.symm.trans hq
    · show q ∈ update s.fds e [] e'
      rwa [Function.update_of_ne he]
  · show update s.fCount e 0 e' = (update s.fds e [] e').length
    by_cases he : e' = e
    · rw [he, Function.update_self, Function.update_self, List.length_nil]
    · rw [Function.update_of_ne he, Function.update_of_ne he, h.fCount]
  · show s.iCount - 1 =
      min 1 (update s.fds e [] .read).length + min 1 (update s.fds e [] .write).length
    have hlen : (s.fds e).length = 1 := by rw [hfds, List.length_singleton]
    rw [h.iCount]
    cases e with
    | read =>
      rw [Function.update_self, Function.update_of_ne (by decide), List.length_nil]
      omega
    | write =>
      rw [Function.update_self, Function.update_of_ne (by decide), List.length_nil]
      omega

theorem close (h : s.Good) (hp : (s.call p).Outside) (hfd : p ∈ s.fds e) :
    ∃ s', s.close e p = some s' ∧ s'.Good := by
  have hlen := List.length_pos_of_mem hfd
  have hcount := h.fCount e
  have herase := List.length_erase_of_mem hfd
  rw [PipeUsers.close, if_neg (by omega)]
  simp only [Function.update_self]
  by_cases hlast : s.fCount e - 1 ≠ 0
  · -- other descriptors of the end are left
    rw [if_pos hlast]
    refine ⟨_, rfl, ?_⟩
    have hset := h.setFds (update s.fds e ((s.fds e).erase p)) (fun e' q hin hq => ?_)
      fun e' => ?_
    · have heq : update s.fCount e (s.fCount e - 1) =
          fun e' => (update s.fds e ((s.fds e).erase p) e').length := by
        funext e'
        by_cases he : e' = e
        · rw [he, Function.update_self, Function.update_self, herase, hcount]
        · rw [Function.update_of_ne he, Function.update_of_ne he, h.fCount]
      rw [heq]
      exact hset
    · by_cases he : e' = e
      · subst he
        rw [Function.update_self]
        have hne : q ≠ p := by
          rintro rfl
          exact hin hp
        exact (List.mem_erase_of_ne hne).mpr hq
      · rwa [Function.update_of_ne he]
    · by_cases he : e' = e
      · subst he
        rw [Function.update_self, ← List.length_eq_zero_iff, ← List.length_eq_zero_iff]
        omega
      · rw [Function.update_of_ne he]
  · have hfds : s.fds e = [p] := by
      obtain ⟨q, hq⟩ := List.length_eq_one_iff.mp (show (s.fds e).length = 1 by omega)
      rw [hq, List.mem_singleton] at hfd
      rw [hq, hfd]
    have huser : s.iCount ≠ 0 := by
      have hi := h.iCount
      cases e <;> omega
    rw [if_neg hlast, iput, if_neg huser]
    refine ⟨_, rfl, ?_⟩
    have hgood := (h.wakeUp .read).wakeUp .write
    have hwoken : ∀ e', ((s.wakeUp .read).wakeUp .write).Woken e' := by
      intro e'
      cases e' with
      | write => exact (h.wakeUp .read).woken_wakeUp .write
      | read =>
        intro hne
        have hold := h.woken_wakeUp .read
        rw [wakeUp_eq] at hne hold ⊢
        rw [wakeUp_eq] at hne ⊢
        obtain ⟨q, hq, hrun⟩ := hold hne
        exact ⟨q, hq, wake_running _ hrun⟩
    simp only [wakeUp_eq] at hgood hwoken ⊢
    have herased : (s.fds e).erase p = [] := by rw [hfds, List.erase_cons_head]
    rw [herased, show s.fCount e - 1 = 0 from not_not.mp hlast]
    exact hgood.last hwoken hp hfds

theorem step {ev : UserEvent P} (h : s.Good) (hcalled : ev.Called s) :
    ∃ s', s.step ev = some s' ∧ s'.Good := by
  cases ev with
  | read p count =>
    obtain ⟨hout, hfd⟩ := hcalled
    refine ⟨_, rfl, h.enter hout hfd rfl (fun hpos => ?_) fun q hq => Function.update_of_ne hq ..⟩
    rw [Function.update_self] at hpos ⊢
    omega
  | write p buf => exact ⟨_, rfl, h.enter hcalled.1 hcalled.2 rfl trivial fun _ _ => rfl⟩
  | run p signal =>
    obtain ⟨hin, hrun⟩ := hcalled
    refine ⟨_, rfl, ?_⟩
    by_cases hread : (s.call p).active = some .read ∨ (s.call p).asleep = some .read
    · rw [if_pos hread]
      exact h.readPipe hread hrun signal
    · rw [if_neg hread]
      refine h.writePipe ?_ hrun
      revert hin hread
      cases s.call p <;> simp [PipeCall.Outside, PipeCall.active, PipeCall.asleep]
  | wake p => exact ⟨_, rfl, h.signal p⟩
  | taken p =>
    exact ⟨_, rfl, h.stack, h.asleep, h.runs, h.holds, h.fCount, h.iCount, h.asks, h.wakes⟩
  | dup e p =>
    exact ⟨_, rfl, h.addFds e p (.inr (List.ne_nil_of_mem hcalled.2))⟩
  | fork p child =>
    have hcount : ∀ l : List P, l.count p = 0 ∨ l ≠ [] := by
      intro l
      cases l with
      | nil => exact .inl rfl
      | cons q l => exact .inr (List.cons_ne_nil q l)
    exact ⟨_, rfl, (h.addFds .read child (hcount _)).addFds .write child (hcount _)⟩
  | close e p => exact h.close hcalled.1 hcalled.2

theorem reach (h : pipeUsers.Reachable s) : s.Good := by
  refine h.invariant (I := Good) (fun s hi => ?_) fun s ev s' hgood _ hs => ?_
  · obtain ⟨page, p, rfl⟩ := hi
    exact .start page p
  · obtain ⟨s₁, hs₁, hgood₁⟩ := hgood.step hs.1
    cases hs₁.symm.trans hs.2
    exact hgood₁

end Good

/-! ### What a call returns -/

/-- No process can run in one of the calls. -/
def Quiet (s : PipeUsers P) : Prop := ∀ p, ¬ (s.call p).Outside → s.state p ≠ .running

omit [DecidableEq P] in
/-- A process sleeps in a call because it is blocked. -/
theorem Good.blocked (h : s.Good) (hq : s.Quiet) (hp : (s.call p).asleep = some e) :
    s.Blocked e := by
  by_contra hb
  obtain hw | ⟨q, hactive⟩ := h.wakes e hb
  · obtain ⟨q, hmem, hrun⟩ := hw (List.ne_nil_of_mem ((h.asleep e p).mpr hp))
    refine hq q (fun hout => ?_) hrun
    cases hout.2.symm.trans ((h.asleep e q).mp hmem)
  · refine hq q (fun hout => ?_) (h.runs q (PipeCall.asleep_of_active hactive))
    cases hout.1.symm.trans hactive

end PipeUsers

open PipeUsers

end system

instance (s : PipeUsers ℕ) : (ev : UserEvent ℕ) → Decidable (ev.Called s)
  | .read .. | .write .. | .run .. | .dup .. | .close .. => inferInstanceAs (Decidable (_ ∧ _))
  | .wake p => inferInstanceAs (Decidable (s.state p = .interruptible))
  | .taken p => inferInstanceAs (Decidable (s.call p).Outside)
  | .fork p child =>
    decidable_of_iff ((s.call p).Outside ∧ (s.call child).Outside ∧
      child ∉ s.fds .read ∧ child ∉ s.fds .write) <| by
    refine and_congr_right fun _ => and_congr_right fun _ => ⟨fun ⟨hr, hw⟩ e => ?_, fun h =>
      ⟨h .read, h .write⟩⟩
    cases e with
    | read => exact hr
    | write => exact hw

end Fs
