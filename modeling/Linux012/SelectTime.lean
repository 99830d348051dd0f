/-
The time-out of `select` (`do_select` and `sys_select` of fs/select.c, with `schedule` of
kernel/sched.c).

* `check` — `check_in`, `check_out` and `check_ex`: a file is ready, or has a queue to wait in;
* `Selecting` — a task in `sys_select`, up to the next place where it sleeps;
* `selecting` — its runs, between the steps of the rest of the system;
* `select_timeout` — when `schedule` has cleared the time-out, the call returns 0 at once if and only
  if no descriptor that it watches has a queue; and a call without a time-out does not return 0, as
  long as the signal that ends it stays pending;
* `select_sleeps_again` — a call that watches a pipe.

Design notes: what other tasks and interrupts do to the files, to the heads of the wait queues and to
the state and signals of the task is any change. A terminal is its place in `tty_table`.
-/
import Linux012.AlarmClock

namespace Select

open Function (update)
open Sched (TaskState Proc)

def NR_OPEN : ℕ := 20
def EBADF : ℤ := 9
def EINTR : ℤ := 4
def PAGE_SIZE : ℕ := 4096
def TTY_BUF_SIZE : ℕ := 1024
def S_IFMT : ℕ := 0o170000
def S_IFCHR : ℕ := 0o020000
def S_IFIFO : ℕ := 0o010000

/-! ### The files -/

/-- What is read of an `m_inode`. -/
structure Inode where
  number : ℕ
  i_mode : ℕ
  /-- `i_zone[0]` -/
  zone : ℕ
  i_pipe : Bool

structure Pipe where
  head : ℕ
  tail : ℕ
  /-- `i_count` -/
  count : ℕ

/-- The pipes, by the number of their inode, and the terminals: the characters in `secondary` and in
`write_q`, and the console that is seen. -/
structure Devices where
  pipe : ℕ → Pipe
  secondary : ℕ → ℕ
  writeQ : ℕ → ℕ
  fgConsole : ℕ

/-- The heads of the wait queues. -/
inductive Que where
  | secondary (t : ℕ)
  | writeQ (t : ℕ)
  | pipe (i : ℕ)
  deriving DecidableEq

inductive Kind where
  | inp
  | out
  | ex
  deriving DecidableEq

/-- What a `check` function finds. -/
inductive Check where
  | ready
  | wait (q : Que)
  | never
  deriving DecidableEq

def Inode.isChr (inode : Inode) : Prop := inode.i_mode &&& S_IFMT = S_IFCHR

def Inode.major (inode : Inode) : ℕ := inode.zone / 256

/-- The minor number; the one of the task's terminal for `/dev/tty`. -/
def Inode.minor (inode : Inode) (tty : ℤ) : ℤ :=
  if inode.major = 5 then tty else (inode.zone % 256 : ℕ)

/-- `get_tty` finds a terminal. -/
def Inode.isTty (inode : Inode) (tty : ℤ) : Prop :=
  inode.isChr ∧ (inode.major = 5 ∨ inode.major = 4) ∧ 0 ≤ inode.minor tty

instance (inode : Inode) : Decidable inode.isChr := inferInstanceAs (Decidable (_ = _))

instance (inode : Inode) (tty : ℤ) : Decidable (inode.isTty tty) :=
  inferInstanceAs (Decidable (_ ∧ _ ∧ _))

/-- `TTY_TABLE`. -/
def ttyTable (fgConsole nr : ℕ) : ℕ :=
  if nr ≠ 0 then if nr < 64 then nr - 1 else nr else fgConsole

def getTty (dev : Devices) (tty : ℤ) (inode : Inode) : Option ℕ :=
  if inode.isTty tty then some (ttyTable dev.fgConsole (inode.minor tty).toNat) else none

def Pipe.size (x : Pipe) : ℕ := (x.head + PAGE_SIZE - x.tail) % PAGE_SIZE

def checkIn (dev : Devices) (tty : ℤ) (inode : Inode) : Check :=
  match getTty dev tty inode with
  | some t => if dev.secondary t ≠ 0 then .ready else .wait (.secondary t)
  | none =>
    if inode.i_pipe then
      if (dev.pipe inode.number).head ≠ (dev.pipe inode.number).tail then .ready
      else .wait (.pipe inode.number)
    else .never

def checkOut (dev : Devices) (tty : ℤ) (inode : Inode) : Check :=
  match getTty dev tty inode with
  | some t => if dev.writeQ t ≠ TTY_BUF_SIZE - 1 then .ready else .wait (.writeQ t)
  | none =>
    if inode.i_pipe then
      if (dev.pipe inode.number).size ≠ PAGE_SIZE - 1 then .ready else .wait (.pipe inode.number)
    else .never

def checkEx (dev : Devices) (tty : ℤ) (inode : Inode) : Check :=
  match getTty dev tty inode with
  | some _ => .never
  | none =>
    if inode.i_pipe then
      if (dev.pipe inode.number).count < 2 then .ready else .wait (.pipe inode.number)
    else .never

def check (dev : Devices) (tty : ℤ) (inode : Inode) : Kind → Check
  | .inp => checkIn dev tty inode
  | .out => checkOut dev tty inode
  | .ex => checkEx dev tty inode

/-- A file that can be watched. -/
def Selectable : Option (Option Inode) → Prop
  | some (some inode) => inode.i_pipe = true ∨ inode.isChr ∨ inode.i_mode &&& S_IFMT = S_IFIFO
  | _ => False

instance (f : Option (Option Inode)) : Decidable (Selectable f) :=
  match f with
  | some (some _) => inferInstanceAs (Decidable (_ ∨ _ ∨ _))
  | some none | none => .isFalse id

/-- A file that is not ready for this has a queue to wait in. -/
def HasQueue (tty : ℤ) (inode : Inode) (kind : Kind) : Prop :=
  if inode.isTty tty then kind ≠ .ex else inode.i_pipe = true

instance (tty : ℤ) (inode : Inode) (kind : Kind) : Decidable (HasQueue tty inode kind) :=
  inferInstanceAs (Decidable (if inode.isTty tty then kind ≠ .ex else inode.i_pipe = true))

/-! ### The call -/

/-- What `sys_select` reads of its arguments: the sets, and seconds and microseconds. -/
structure Args where
  nd : BitVec 32
  inp : Option (BitVec 32)
  outp : Option (BitVec 32)
  exp : Option (BitVec 32)
  tvp : Option (BitVec 32 × BitVec 32)

namespace Args

/-- `mask`. -/
def mask (args : Args) : BitVec 32 := ~~~((-1 : BitVec 32) <<< (args.nd.toNat % 32))

/-- The sets `in`, `out` and `ex`. -/
def sets (args : Args) : Kind → BitVec 32
  | .inp => args.inp.elim 0 (args.mask &&& ·)
  | .out => args.outp.elim 0 (args.mask &&& ·)
  | .ex => args.exp.elim 0 (args.mask &&& ·)

/-- `timeout` before the call of `do_select`. -/
def timeout (args : Args) (jiffies : BitVec 32) : BitVec 32 :=
  args.tvp.elim 0xffffffff fun tv => tv.2 / 10000 + tv.1 * 100 + jiffies

/-- The calls of `verify_area`. -/
def areas (args : Args) : ℕ :=
  [args.inp.isSome, args.outp.isSome, args.exp.isSome, args.tvp.isSome].count true

end Args

/-- What `do_select` has found: its result and the sets that it fills. -/
structure Found where
  count : ℕ
  sets : Kind → BitVec 32

/-- An element of `wait_table`: `wait_address` and `old_task`. -/
abbrev Entry := Que × Option ℕ

/-- Where `free_wait` is called. -/
inductive After where
  /-- before `goto repeat` -/
  | again
  /-- before `return count` -/
  | done (found : Found)

/-- Where the task is. -/
inductive Phase where
  | idle
  /-- in `schedule`, called by `do_select` -/
  | asleep (entry : List Entry)
  /-- in `schedule`, called by `free_wait`, with these elements left -/
  | freeing (entry : List Entry) (after : After)
  /-- `do_select` has returned, and so many calls of `verify_area` are left -/
  | copying (areas : ℕ) (found : Found) (timeout : BitVec 32)
  | returned (value : ℤ)

/-- A task, by its slot, and what it sees of the system. -/
structure Selecting where
  cur : ℕ
  task : Proc
  /-- `current->tty` -/
  tty : ℤ
  /-- the inodes of `current->filp` -/
  filp : ℕ → Option (Option Inode)
  jiffies : BitVec 32
  dev : Devices
  head : Que → Option ℕ
  args : Args
  phase : Phase

/-- The local variables of a round of `do_select`, with the heads of the queues. -/
structure Look where
  entry : List Entry
  head : Que → Option ℕ
  found : Found

/-- `free_wait`: the heads afterwards, and the elements that are left where it has to sleep. -/
def freeWait (cur : ℕ) : List Entry → (Que → Option ℕ) → (Que → Option ℕ) × Option (List Entry)
  | [], head => (head, none)
  | (q, old) :: entry, head =>
    if head q = none ∨ head q = some cur then freeWait cur entry (update head q old)
    else (head, some ((q, old) :: entry))

/-- The descriptors, for each of the sets. -/
def watches : List (ℕ × Kind) := (List.range NR_OPEN).flatMap fun i => [(i, .inp), (i, .out), (i, .ex)]

namespace Selecting

/-- `current->signal & ~current->blocked`. -/
def Pending (s : Selecting) : Prop := s.task.signal &&& ~~~s.task.blocked ≠ 0

instance (s : Selecting) : Decidable s.Pending := inferInstanceAs (Decidable (_ ≠ _))

/-- A descriptor is in a set. -/
def Watched (s : Selecting) (w : ℕ × Kind) : Prop := (s.args.sets w.2).getLsbD w.1 = true

instance (s : Selecting) (w : ℕ × Kind) : Decidable (s.Watched w) :=
  inferInstanceAs (Decidable (_ = _))

def checkAt (s : Selecting) (w : ℕ × Kind) : Check :=
  match s.filp w.1 with
  | some (some inode) => check s.dev s.tty inode w.2
  | _ => .never

/-- `add_wait`. -/
def addWait (s : Selecting) (q : Que) (l : Look) : Look :=
  if q ∈ l.entry.map Prod.fst then l
  else { l with entry := l.entry ++ [(q, l.head q)], head := update l.head q (some s.cur) }

/-- A descriptor is looked at for one of the sets. -/
def look (s : Selecting) (l : Look) (w : ℕ × Kind) : Look :=
  if s.Watched w then
    match s.checkAt w with
    | .ready => { l with
        found := ⟨l.found.count + 1,
          update l.found.sets w.2 (l.found.sets w.2 ||| BitVec.twoPow 32 w.1)⟩ }
    | .wait q => s.addWait q l
    | .never => l
  else l

def looks (s : Selecting) : Look := watches.foldl s.look ⟨[], s.head, ⟨0, fun _ => 0⟩⟩

/-- `sys_select` after `do_select`, up to the first `verify_area`. -/
def finish (s : Selecting) (found : Found) : Selecting :=
  { s with
    task := { s.task with timeout := 0 }
    phase := .copying s.args.areas found
      (if s.jiffies.toNat < s.task.timeout.toNat then s.task.timeout - s.jiffies else 0) }

/-- `do_select` from `repeat` on. -/
def round (s : Selecting) : Selecting :=
  let l := s.looks
  if ¬ s.Pending ∧ (l.entry ≠ [] ∨ s.task.timeout ≠ 0) ∧ l.found.count = 0 then
    { s with
      head := l.head
      task := { s.task with state := .interruptible }
      phase := .asleep l.entry }
  else
    match freeWait s.cur l.entry l.head with
    | (head, some rest) => { s with
        head
        task := { s.task with state := .uninterruptible }
        phase := .freeing rest (.done l.found) }
    | (head, none) => { s with head }.finish l.found

/-- The rest of `free_wait`, and what follows it. -/
def freed (s : Selecting) (entry : List Entry) (after : After) : Selecting :=
  match freeWait s.cur entry s.head with
  | (head, some rest) => { s with
      head
      task := { s.task with state := .uninterruptible }
      phase := .freeing rest after }
  | (head, none) =>
    match after with
    | .again => { s with head }.round
    | .done found => { s with head }.finish found

/-- The task runs until it sleeps. -/
def resume (s : Selecting) : Selecting :=
  match s.phase with
  | .asleep entry => s.freed entry .again
  | .freeing entry after => s.freed entry after
  | .copying (n + 1) found timeout => { s with phase := .copying n found timeout }
  | .copying 0 found _ =>
    { s with phase := .returned (if found.count = 0 ∧ s.Pending then -EINTR else found.count) }
  | .idle | .returned _ => s

/-- `sys_select` is called. -/
def start (s : Selecting) (args : Args) : Selecting :=
  let s := { s with args, task := { s.task with timeout := args.timeout s.jiffies } }
  if ∀ w ∈ watches, s.Watched w → Selectable (s.filp w.1) then s.round
  else { s with task := { s.task with timeout := 0 }, phase := .returned (-EBADF) }

end Selecting

inductive SelectEvent where
  | call (args : Args)
  /-- the task is switched to -/
  | run
  /-- `schedule` is called by any task -/
  | schedule
  | tick
  /-- the rest of the system: files, queues, and state and signals of the task -/
  | rest (dev : Devices) (head : Que → Option ℕ) (state : TaskState) (signal : BitVec 32)

namespace Selecting

def next (s : Selecting) : SelectEvent → Option Selecting
  | .call args =>
    match s.phase with
    | .idle | .returned _ => some (s.start args)
    | _ => none
  | .run => if s.task.state = .running then some s.resume else none
  | .schedule => some { s with task := s.task.check s.jiffies }
  | .tick => some { s with jiffies := s.jiffies + 1 }
  | .rest dev head state signal =>
    some { s with dev, head, task := { s.task with state, signal } }

/-- The task is in `do_select`. -/
def Waiting (s : Selecting) : Prop :=
  match s.phase with
  | .asleep _ | .freeing _ _ => True
  | _ => False

/-- No descriptor that is watched is ready, and there is no signal. -/
def Still (s : Selecting) : Prop :=
  ¬ s.Pending ∧ ∀ w ∈ watches, s.Watched w → s.checkAt w ≠ .ready

/-- A descriptor that is watched has a queue. -/
def Queued (s : Selecting) : Prop := ∃ w ∈ watches, s.Watched w ∧
  ∃ inode, s.filp w.1 = some (some inode) ∧ HasQueue s.tty inode w.2

/-- The next run of the task in `do_select` returns 0, without sleeping. -/
def ReturnsZero (s : Selecting) : Prop :=
  ∃ areas found timeout, s.resume.phase = .copying areas found timeout ∧ found.count = 0

/-- `do_select` has come to its result. -/
def Ending (s : Selecting) : Prop :=
  match s.phase with
  | .freeing _ (.done _) | .copying _ _ _ => True
  | _ => False

end Selecting

/-- The runs of a task. -/
def selecting : System Selecting SelectEvent where
  init s := s.phase = .idle
  step s e s' := s.next e = some s'

/-- While the call goes on there is no signal, and no descriptor that it watches is ready. -/
def Quiet (s : Selecting) : SelectEvent → Prop
  | .call args => Selecting.Still { s with args }
  | _ => s.Waiting → s.Still

/-- A signal that is pending when `do_select` returns stays so until `sys_select` does. -/
def SignalKept (s : Selecting) : SelectEvent → Prop
  | .rest _ _ _ signal => s.Ending → s.Pending → signal &&& ~~~s.task.blocked ≠ 0
  | _ => True

/-! ### A round of `do_select` -/

section Round

variable {dev : Devices} {tty : ℤ} {inode : Inode} {kind : Kind} {s : Selecting} {l : Look}
  {w : ℕ × Kind} {q : Que}

/-- What a file that is not ready has. -/
theorem check_cases (dev : Devices) (tty : ℤ) (inode : Inode) (kind : Kind) :
    check dev tty inode kind = .ready ∨
      (HasQueue tty inode kind ∧ ∃ q, check dev tty inode kind = .wait q) ∨
        (¬ HasQueue tty inode kind ∧ check dev tty inode kind = .never) := by
  by_cases htty : inode.isTty tty
  · have hget : getTty dev tty inode = some _ := if_pos htty
    rw [HasQueue, if_pos htty]
    cases kind with
    | inp =>
      rw [check, checkIn, hget]
      dsimp only
      split
      · exact .inl rfl
      · exact .inr (.inl ⟨nofun, _, rfl⟩)
    | out =>
      rw [check, checkOut, hget]
      dsimp only
      split
      · exact .inl rfl
      · exact .inr (.inl ⟨nofun, _, rfl⟩)
    | ex =>
      rw [check, checkEx, hget]
      exact .inr (.inr ⟨not_not.mpr rfl, rfl⟩)
  · have hget : getTty dev tty inode = none := if_neg htty
    rw [HasQueue, if_neg htty]
    by_cases hpipe : inode.i_pipe = true
    · -- a pipe has one queue for all that it is watched for
      have hcase : check dev tty inode kind = .ready ∨
          check dev tty inode kind = .wait (.pipe inode.number) := by
        cases kind
        all_goals
          first
            | rw [check, checkIn, hget]
            | rw [check, checkOut, hget]
            | rw [check, checkEx, hget]
          dsimp only
          rw [if_pos hpipe]
          split
          · exact .inl rfl
          · exact .inr rfl
      exact hcase.imp_right fun hwait => .inl ⟨hpipe, _, hwait⟩
    · refine .inr (.inr ⟨hpipe, ?_⟩)
      cases kind
      all_goals
        first
          | rw [check, checkIn, hget]
          | rw [check, checkOut, hget]
          | rw [check, checkEx, hget]
        exact if_neg hpipe

namespace Selecting

theorem addWait_entry : (s.addWait q l).entry ≠ [] ∧ (s.addWait q l).found = l.found := by
  rw [addWait]
  split
  case isTrue hmem =>
    refine ⟨fun hnil => ?_, rfl⟩
    rw [hnil] at hmem
    cases hmem
  case isFalse => exact ⟨List.append_ne_nil_of_right_ne_nil _ (List.cons_ne_nil _ _), rfl⟩

/-- A descriptor that has no queue is never waited for. -/
theorem look_entry (h : (s.look l w).entry ≠ []) :
    l.entry ≠ [] ∨ s.Watched w ∧ ∃ q, s.checkAt w = .wait q := by
  rw [look] at h
  split at h
  case isFalse => exact .inl h
  case isTrue hw =>
    cases hc : s.checkAt w with
    | ready =>
      rw [hc] at h
      exact .inl h
    | wait q => exact .inr ⟨hw, q, rfl⟩
    | never =>
      rw [hc] at h
      exact .inl h

theorem foldl_look_entry (ws : List (ℕ × Kind)) (h : (ws.foldl s.look l).entry ≠ []) :
    l.entry ≠ [] ∨ ∃ w ∈ ws, s.Watched w ∧ ∃ q, s.checkAt w = .wait q := by
  induction ws generalizing l with
  | nil => exact .inl h
  | cons w ws ih =>
    rcases ih h with hl | ⟨w', hmem, hwait⟩
    · exact (look_entry hl).imp_right fun hwait => ⟨w, List.mem_cons_self, hwait⟩
    · exact .inr ⟨w', List.mem_cons_of_mem w hmem, hwait⟩

/-- Where nothing is ready, a round counts nothing, and waits for what has a queue. -/
theorem look_still (h : s.Watched w → s.checkAt w ≠ .ready) :
    (s.look l w).found = l.found ∧ (l.entry ≠ [] → (s.look l w).entry ≠ []) ∧
      (s.Watched w → (∃ q, s.checkAt w = .wait q) → (s.look l w).entry ≠ []) := by
  rw [look]
  split
  case isFalse hw => exact ⟨rfl, id, fun hw' => absurd hw' hw⟩
  case isTrue hw =>
    cases hc : s.checkAt w with
    | ready => exact absurd hc (h hw)
    | wait q =>
      obtain ⟨hne, hfound⟩ := addWait_entry (s := s) (l := l) (q := q)
      exact ⟨hfound, fun _ => hne, fun _ _ => hne⟩
    | never => exact ⟨rfl, id, fun _ ⟨q, hq⟩ => nomatch hq⟩

theorem foldl_look_still (ws : List (ℕ × Kind))
    (h : ∀ w ∈ ws, s.Watched w → s.checkAt w ≠ .ready) :
    (ws.foldl s.look l).found = l.found ∧ (l.entry ≠ [] → (ws.foldl s.look l).entry ≠ []) ∧
      ((∃ w ∈ ws, s.Watched w ∧ ∃ q, s.checkAt w = .wait q) →
        (ws.foldl s.look l).entry ≠ []) := by
  induction ws generalizing l with
  | nil =>
    refine ⟨rfl, id, ?_⟩
    rintro ⟨w, hmem, -⟩
    cases hmem
  | cons w ws ih =>
    obtain ⟨hfound, hkeep, hnew⟩ := look_still (l := l) (h w List.mem_cons_self)
    obtain ⟨hfound', hkeep', hnew'⟩ := ih (l := s.look l w)
      fun w' hw' => h w' (List.mem_cons_of_mem w hw')
    refine ⟨hfound'.trans hfound, fun hl => hkeep' (hkeep hl), ?_⟩
    rintro ⟨w', hmem, hw, hq⟩
    rcases List.mem_cons.mp hmem with rfl | hmem
    · exact hkeep' (hnew hw hq)
    · exact hnew' ⟨w', hmem, hw, hq⟩

/-- A queue is waited in only for a descriptor that has one. -/
theorem queued_of_wait (hmem : w ∈ watches) (hw : s.Watched w) (hq : s.checkAt w = .wait q) :
    s.Queued := by
  rw [checkAt] at hq
  split at hq
  case h_2 => cases hq
  case h_1 inode hfilp =>
    refine ⟨w, hmem, hw, inode, hfilp, ?_⟩
    rcases check_cases s.dev s.tty inode w.2 with h | ⟨h, -⟩ | ⟨-, h⟩
    · rw [h] at hq
      cases hq
    · exact h
    · rw [h] at hq
      cases hq

theorem looks_entry (h : s.looks.entry ≠ []) : s.Queued := by
  rcases foldl_look_entry watches h with hnil | ⟨w, hmem, hw, q, hq⟩
  · exact absurd rfl hnil
  · exact queued_of_wait hmem hw hq

/-- A quiet round. -/
theorem Still.looks (h : s.Still) : s.looks.found.count = 0 ∧ (s.looks.entry ≠ [] ↔ s.Queued) := by
  obtain ⟨hfound, -, hnew⟩ := foldl_look_still (l := ⟨[], s.head, ⟨0, fun _ => 0⟩⟩) watches h.2
  refine ⟨congrArg Found.count hfound, looks_entry, ?_⟩
  rintro ⟨w, hmem, hw, inode, hfilp, hqueue⟩
  refine hnew ⟨w, hmem, hw, ?_⟩
  have hcheck : s.checkAt w = check s.dev s.tty inode w.2 := by
    rw [checkAt, hfilp]
  rw [hcheck]
  rcases check_cases s.dev s.tty inode w.2 with hready | ⟨-, hwait⟩ | ⟨hno, -⟩
  · exact absurd (hcheck.trans hready) (h.2 w hmem hw)
  · exact hwait
  · exact absurd hqueue hno

end Selecting

end Round

/-! ### Runs in which nothing happens -/

namespace Selecting

variable {s s' : Selecting} {e : SelectEvent} {entry rest : List Entry} {after : After}
  {head head' : Que → Option ℕ} {args : Args}

theorem Queued.congr (h : s.Queued) (hargs : s'.args = s.args) (hfilp : s'.filp = s.filp)
    (htty : s'.tty = s.tty) : s'.Queued := by
  obtain ⟨w, hmem, hw, inode, hinode, hqueue⟩ := h
  refine ⟨w, hmem, ?_, inode, ?_, ?_⟩
  · rw [Watched, hargs]
    exact hw
  · rw [hfilp]
    exact hinode
  · rw [htty]
    exact hqueue

theorem ne_nil_of_freeWait {cur : ℕ} (h : freeWait cur entry head = (head', some rest)) :
    entry ≠ [] := by
  rintro rfl
  cases h

/-- A round in which nothing is ready. -/
theorem Still.round (h : s.Still) :
    ((s.Queued ∨ s.task.timeout ≠ 0) ∧ s.round = { s with
      head := s.looks.head
      task := { s.task with state := .interruptible }
      phase := .asleep s.looks.entry }) ∨
    (¬ (s.Queued ∨ s.task.timeout ≠ 0) ∧ s.round = { s with head := s.looks.head }.finish
      s.looks.found) := by
  obtain ⟨hcount, hentry⟩ := h.looks
  rw [Selecting.round]
  dsimp only
  by_cases hwait : s.Queued ∨ s.task.timeout ≠ 0
  · rw [if_pos ⟨h.1, hwait.imp_left hentry.mpr, hcount⟩]
    exact .inl ⟨hwait, rfl⟩
  · have hnil : s.looks.entry = [] := by
      by_contra hne
      exact hwait (.inl (hentry.mp hne))
    rw [if_neg fun hsleep => hwait (hsleep.2.1.imp_left hentry.mp), hnil]
    exact .inr ⟨hwait, rfl⟩

/-- The task stands only in queues of descriptors that have one, and does not leave them to
return. -/
def Orderly (s : Selecting) : Prop :=
  match s.phase with
  | .asleep entry | .freeing entry .again => entry ≠ [] → s.Queued
  | .freeing _ (.done _) => False
  | _ => True

theorem Still.round_orderly (h : s.Still) : s.round.Orderly := by
  rcases h.round with ⟨-, hround⟩ | ⟨-, hround⟩
  · rw [hround]
    intro hne
    exact (looks_entry hne).congr rfl rfl rfl
  · rw [hround]
    trivial

theorem Still.freed_orderly (h : s.Still) (hentry : entry ≠ [] → s.Queued) :
    (s.freed entry .again).Orderly := by
  rw [freed]
  cases hfree : freeWait s.cur entry s.head with
  | mk head o =>
    cases o with
    | none => exact Still.round_orderly (s := { s with head }) h
    | some rest =>
      intro _
      exact (hentry (ne_nil_of_freeWait hfree)).congr rfl rfl rfl

theorem Orderly.next (h : s.Orderly) (hquiet : Quiet s e) (hs : s.next e = some s') :
    s'.Orderly := by
  cases e with
  | call args =>
    rw [Selecting.next] at hs
    have hstill : Still { s with
        args, task := { s.task with timeout := args.timeout s.jiffies } } := hquiet
    have hstart : (s.start args).Orderly := by
      rw [start]
      dsimp only
      split
      · exact hstill.round_orderly
      · trivial
    split at hs
    case h_1 =>
      obtain rfl := Option.some.inj hs
      exact hstart
    case h_2 =>
      obtain rfl := Option.some.inj hs
      exact hstart
    case h_3 => cases hs
  | run =>
    rw [Selecting.next] at hs
    split at hs
    case isFalse => cases hs
    case isTrue =>
      obtain rfl := Option.some.inj hs
      rw [resume]
      cases hphase : s.phase with
      | idle =>
        dsimp only
        exact h
      | asleep entry =>
        have hstill : s.Still := hquiet (by rw [Waiting, hphase]; trivial)
        rw [Orderly, hphase] at h
        exact hstill.freed_orderly h
      | freeing entry after =>
        have hstill : s.Still := hquiet (by rw [Waiting, hphase]; trivial)
        rw [Orderly, hphase] at h
        cases after with
        | again => exact hstill.freed_orderly h
        | done found => exact h.elim
      | copying areas found timeout =>
        cases areas with
        | zero => trivial
        | succ areas => trivial
      | returned value => exact h
  | schedule =>
    obtain rfl := Option.some.inj hs
    exact h
  | tick =>
    obtain rfl := Option.some.inj hs
    exact h
  | rest dev head state signal =>
    obtain rfl := Option.some.inj hs
    exact h

/-- The next run, when the time-out is cleared. -/
theorem Orderly.returnsZero (h : s.Orderly) (hstill : s.Still) (hwaiting : s.Waiting)
    (htime : s.task.timeout = 0) : s.ReturnsZero ↔ ¬ s.Queued := by
  obtain ⟨entry, hresume, hentry⟩ : ∃ entry, s.resume = s.freed entry .again ∧
      (entry ≠ [] → s.Queued) := by
    rw [Orderly] at h
    rw [Waiting] at hwaiting
    rw [resume]
    cases hphase : s.phase with
    | asleep entry =>
      rw [hphase] at h
      exact ⟨entry, rfl, h⟩
    | freeing entry after =>
      rw [hphase] at h
      cases after with
      | again => exact ⟨entry, rfl, h⟩
      | done found => exact h.elim
    | idle =>
      rw [hphase] at hwaiting
      exact hwaiting.elim
    | copying areas found timeout =>
      rw [hphase] at hwaiting
      exact hwaiting.elim
    | returned value =>
      rw [hphase] at hwaiting
      exact hwaiting.elim
  rw [ReturnsZero, hresume, freed]
  constructor
  · rintro ⟨areas, found, timeout, hcopy, -⟩ hqueued
    cases hfree : freeWait s.cur entry s.head with
    | mk head o =>
      rw [hfree] at hcopy
      cases o with
      | some rest => cases hcopy
      | none =>
        -- it stands in its queues again
        have hround := Still.round (s := { s with head }) hstill
        rcases hround with ⟨-, hround⟩ | ⟨hno, -⟩
        · dsimp only at hcopy
          rw [hround] at hcopy
          cases hcopy
        · exact hno (.inl (hqueued.congr rfl rfl rfl))
  · intro hno
    have hnil : entry = [] := by
      by_contra hne
      exact hno (hentry hne)
    rw [hnil, freeWait]
    dsimp only
    rcases hstill.round with ⟨hwait, -⟩ | ⟨-, hround⟩
    · rcases hwait with hqueued | htime'
      · exact absurd hqueued hno
      · exact absurd htime htime'
    · rw [hround]
      exact ⟨_, _, _, rfl, hstill.looks.1⟩

end Selecting

/-! ### Calls without a time-out -/

namespace Selecting

variable {s s' : Selecting} {e : SelectEvent} {entry : List Entry} {after : After}

/-- `schedule` never clears a time-out at the end of the 32-bit time. -/
theorem check_timeout (jiffies : BitVec 32) (t : Proc) (h : t.timeout = 0xffffffff) :
    (t.check jiffies).timeout = 0xffffffff := by
  have hlt := jiffies.isLt
  rw [Sched.check_timeout, h, Sched.expire, if_neg]
  rintro ⟨-, hdue⟩
  change 4294967295 < _ at hdue
  omega

theorem check_pending (jiffies : BitVec 32) (t : Proc) (h : t.signal &&& ~~~t.blocked ≠ 0) :
    (t.check jiffies).signal &&& ~~~(t.check jiffies).blocked ≠ 0 := by
  rw [Sched.check_blocked, Sched.check_signal]
  split
  · -- one more signal
    intro hzero
    refine h (BitVec.eq_of_getLsbD_eq fun i hi => ?_)
    have hbit := congrArg (BitVec.getLsbD · i) hzero
    simp only [BitVec.getLsbD_and, BitVec.getLsbD_or, BitVec.getLsbD_not] at hbit ⊢
    cases hsig : t.signal.getLsbD i
    · simp
    · rw [hsig] at hbit
      simpa using hbit
  · exact h

/-- A call without a time-out waits until there is something to return. -/
def Untimed (s : Selecting) : Prop :=
  match s.phase with
  | .asleep _ | .freeing _ .again => s.task.timeout = 0xffffffff
  | .freeing _ (.done found) | .copying _ found _ => found.count = 0 → s.Pending
  | .returned value => value ≠ 0
  | .idle => True

theorem Untimed.of (h : s.Untimed) (hphase : s'.phase = s.phase)
    (htime : s.task.timeout = 0xffffffff → s'.task.timeout = 0xffffffff)
    (hsignal : s.Ending → s.Pending → s'.Pending) : s'.Untimed := by
  rw [Untimed] at h
  rw [Ending] at hsignal
  rw [Untimed, hphase]
  cases hp : s.phase with
  | idle => trivial
  | asleep entry =>
    rw [hp] at h
    exact htime h
  | freeing entry after =>
    rw [hp] at h hsignal
    cases after with
    | again => exact htime h
    | done found => exact fun hcount => hsignal trivial (h hcount)
  | copying areas found timeout =>
    rw [hp] at h hsignal
    exact fun hcount => hsignal trivial (h hcount)
  | returned value =>
    rw [hp] at h
    exact h

theorem round_untimed (h : s.task.timeout = 0xffffffff) : s.round.Untimed := by
  rw [round]
  dsimp only
  split
  case isTrue => exact h
  case isFalse hdone =>
    have hsig : s.looks.found.count = 0 → s.Pending := by
      intro hcount
      by_contra hno
      refine hdone ⟨hno, .inr ?_, hcount⟩
      rw [h]
      decide
    cases freeWait s.cur s.looks.entry s.looks.head with
    | mk head o =>
      cases o with
      | none => exact hsig
      | some rest => exact hsig

theorem freed_untimed (after : After) (h : match after with
      | .again => s.task.timeout = 0xffffffff
      | .done found => found.count = 0 → s.Pending) : (s.freed entry after).Untimed := by
  rw [freed]
  cases freeWait s.cur entry s.head with
  | mk head o =>
    cases o with
    | none =>
      cases after with
      | again => exact round_untimed (s := { s with head }) h
      | done found => exact h
    | some rest =>
      cases after with
      | again => exact h
      | done found => exact h

theorem resume_untimed (h : s.Untimed) : s.resume.Untimed := by
  have hinv := h
  rw [Untimed] at h
  rw [resume]
  cases hphase : s.phase with
  | idle => exact hinv
  | asleep entry =>
    rw [hphase] at h
    exact freed_untimed .again h
  | freeing entry after =>
    rw [hphase] at h
    refine freed_untimed after ?_
    cases after with
    | again => exact h
    | done found => exact h
  | copying areas found timeout =>
    rw [hphase] at h
    cases areas with
    | succ areas => exact h
    | zero =>
      change (if found.count = 0 ∧ s.Pending then -EINTR else (found.count : ℤ)) ≠ 0
      split
      · decide
      · rename_i hno
        intro hzero
        have hcount : found.count = 0 := Int.ofNat_eq_zero.mp hzero
        exact hno ⟨hcount, h hcount⟩
  | returned value => exact hinv

theorem round_args (s : Selecting) : s.round.args = s.args := by
  rw [round]
  dsimp only
  split
  · rfl
  · cases freeWait s.cur s.looks.entry s.looks.head with
    | mk head o => cases o <;> rfl

theorem resume_args (s : Selecting) : s.resume.args = s.args := by
  have hfreed : ∀ entry after, (s.freed entry after).args = s.args := by
    intro entry after
    rw [freed]
    cases freeWait s.cur entry s.head with
    | mk head o =>
      cases o with
      | some rest => rfl
      | none =>
        cases after with
        | again => exact round_args { s with head }
        | done found => rfl
  rw [resume]
  split
  · exact hfreed _ _
  · exact hfreed _ _
  all_goals rfl

/-- The call under way has no time-out, or the invariant holds of it. -/
theorem untimed_next (h : s.args.tvp = none → s.Untimed) (hkept : SignalKept s e)
    (hs : s.next e = some s') : s'.args.tvp = none → s'.Untimed := by
  cases e with
  | call args =>
    have hstart : (s.start args).args.tvp = none → (s.start args).Untimed := by
      intro htv
      have htime : (s.start args).args = args → args.timeout s.jiffies = 0xffffffff := by
        intro hargs
        rw [hargs] at htv
        rw [Args.timeout, htv]
        rfl
      rw [start] at htv htime ⊢
      dsimp only at htv htime ⊢
      split
      case isTrue hsel =>
        rw [if_pos hsel] at htime
        exact round_untimed (htime (round_args _))
      case isFalse => exact (by decide : -EBADF ≠ 0)
    rw [Selecting.next] at hs
    split at hs
    case h_1 =>
      obtain rfl := Option.some.inj hs
      exact hstart
    case h_2 =>
      obtain rfl := Option.some.inj hs
      exact hstart
    case h_3 => cases hs
  | run =>
    rw [Selecting.next] at hs
    split at hs
    case isFalse => cases hs
    case isTrue =>
      obtain rfl := Option.some.inj hs
      intro htv
      rw [resume_args] at htv
      exact resume_untimed (h htv)
  | schedule =>
    obtain rfl := Option.some.inj hs
    intro htv
    exact (h htv).of rfl (check_timeout _ _) fun _ => check_pending _ _
  | tick =>
    obtain rfl := Option.some.inj hs
    exact h
  | rest dev head state signal =>
    obtain rfl := Option.some.inj hs
    intro htv
    exact (h htv).of rfl id hkept

end Selecting

/-- **The time-out of `select`**: in a run in which nothing happens, the next run of a task whose
time-out has been cleared returns 0 without sleeping, if and only if no descriptor that it watches
has a queue. And a call without a time-out does not return 0, in a run in which the signal that has
ended it stays pending until it returns. -/
theorem select_timeout (s : Selecting) :
    (System.Reach selecting Quiet s → s.Still → s.Waiting → s.task.timeout = 0 →
      (s.ReturnsZero ↔ ¬ s.Queued)) ∧
    (System.Reach selecting SignalKept s → s.args.tvp = none → s.phase ≠ .returned 0) := by
  constructor
  · intro h hstill hwaiting htime
    have horder : s.Orderly := by
      refine h.invariant (fun s hidle => ?_) fun s e s' hs hq hs' => hs.next hq hs'
      rw [Selecting.Orderly, show s.phase = .idle from hidle]
      trivial
    exact horder.returnsZero hstill hwaiting htime
  · intro h htv hphase
    have huntimed : s.args.tvp = none → s.Untimed := by
      refine h.invariant (fun s hidle _ => ?_) fun s e s' hs hk hs' => Selecting.untimed_next hs hk hs'
      rw [Selecting.Untimed, show s.phase = .idle from hidle]
      trivial
    have hne := huntimed htv
    rw [Selecting.Untimed, hphase] at hne
    exact hne rfl

instance (s : Selecting) : Decidable s.Still := inferInstanceAs (Decidable (_ ∧ _))

instance (s : Selecting) : Decidable s.Waiting :=
  match h : s.phase with
  | .asleep _ | .freeing _ _ => .isTrue (by rw [Selecting.Waiting, h]; trivial)
  | .idle | .copying _ _ _ | .returned _ => .isFalse (by rw [Selecting.Waiting, h]; exact id)

instance (s : Selecting) : (e : SelectEvent) → Decidable (Quiet s e)
  | .call args => inferInstanceAs (Decidable (Selecting.Still { s with args }))
  | .run | .schedule | .tick | .rest _ _ _ _ => inferInstanceAs (Decidable (s.Waiting → s.Still))

/-- A task with one file, which has not been read or written. -/
def oneFile (inode : Inode) : Selecting where
  cur := 1
  task := ⟨.running, 15, 15, 0, 0, 0, 0⟩
  tty := 0
  filp fd := if fd = 0 then some (some inode) else none
  jiffies := 0
  dev := ⟨fun _ => ⟨0, 0, 2⟩, fun _ => 0, fun _ => 0, 0⟩
  head _ := none
  args := ⟨0, none, none, none, none⟩
  phase := .idle

/-- It waits to read from the file for a tick, and two pass. -/
def oneTick : List SelectEvent :=
  [.call ⟨1, some 1, none, none, some (0, 10000)⟩, .tick, .tick, .schedule]

/-- The null device has no queue. -/
theorem select_timeout_null : ∃ s : Selecting, s.Waiting ∧ s.ReturnsZero := by
  have hrun : (System.runOf (System.guarded Quiet Selecting.next) oneTick
      (oneFile ⟨0, 0o020666, 0x103, false⟩)).any (fun s => decide s.Still && decide s.Waiting &&
        decide (s.task.timeout = 0) && decide (s.looks.entry = [])) = true := by decide +kernel
  obtain ⟨s, hs, hall⟩ := (Option.any_eq_true _ _).mp hrun
  obtain ⟨hall, hnil⟩ := Bool.and_eq_true_iff.mp hall
  obtain ⟨hall, htime⟩ := Bool.and_eq_true_iff.mp hall
  obtain ⟨hstill, hwaiting⟩ := Bool.and_eq_true_iff.mp hall
  have hstill := of_decide_eq_true hstill
  have hinit : selecting.init (oneFile ⟨0, 0o020666, 0x103, false⟩) := rfl
  have hreach : System.Reach selecting Quiet s := .of_guarded (fun _ _ _ h => h) (.init hinit) hs
  have hno : ¬ s.Queued := fun hq => hstill.looks.2.mpr hq (of_decide_eq_true hnil)
  exact ⟨s, of_decide_eq_true hwaiting, ((select_timeout s).1 hreach hstill
    (of_decide_eq_true hwaiting) (of_decide_eq_true htime)).mpr hno⟩

/-- A pipe has one, and the task sleeps again, with no time-out any more. -/
theorem select_sleeps_again : ∃ s : Selecting, System.Reach selecting Quiet s ∧ s.Still ∧
    s.Waiting ∧ s.task.timeout = 0 ∧ ¬ s.ReturnsZero := by
  have hrun : (System.runOf (System.guarded Quiet Selecting.next) oneTick
      (oneFile ⟨0, 0, 0, true⟩)).any (fun s => decide s.Still && decide s.Waiting &&
        decide (s.task.timeout = 0) &&
          match s.resume.phase with
          | .asleep _ => true
          | _ => false) = true := by decide +kernel
  obtain ⟨s, hs, hall⟩ := (Option.any_eq_true _ _).mp hrun
  obtain ⟨hall, hasleep⟩ := Bool.and_eq_true_iff.mp hall
  obtain ⟨hall, htime⟩ := Bool.and_eq_true_iff.mp hall
  obtain ⟨hstill, hwaiting⟩ := Bool.and_eq_true_iff.mp hall
  have hinit : selecting.init (oneFile ⟨0, 0, 0, true⟩) := rfl
  refine ⟨s, .of_guarded (fun _ _ _ h => h) (.init hinit) hs, of_decide_eq_true hstill,
    of_decide_eq_true hwaiting, of_decide_eq_true htime, ?_⟩
  rintro ⟨areas, found, timeout, hphase, -⟩
  rw [hphase] at hasleep
  cases hasleep

end Select
