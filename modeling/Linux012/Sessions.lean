/-
Process groups, sessions and controlling terminals (kernel/sys.c, kernel/exit.c, fs/open.c).

* `Table` — the task table and the terminals, with the calls of fork that go on;
* `setpgid`, `setsid`, `checkCharDev`, `doExit` — the calls, with what they return;
* `jobs` — these calls in any order, with changes of the foreground console;
* `process_groups` — the processes of a group are in one session, in the runs in which nobody
  who leads a group of others starts a session;
* `setsid_splits_group` — the children of such a process are left in its group.

Design notes: a process is named by its slot. `find_empty_process` is that of `Fork.lean`, and
so are the sleeps of fork; the lists of children are those of `ProcessTree.lean`. A null
pointer reads the page directory, at address 0.
-/
import Linux012.Fork

namespace Sessions

open Function (update)

inductive State where
  | running
  /-- the child of a fork that copies the memory -/
  | uninterruptible
  | zombie
  deriving DecidableEq

/-- What the calls read and write of a `task_struct`. -/
structure Task where
  pid : ℕ
  pgrp : ℕ
  session : ℕ
  leader : Bool
  state : State
  /-- the slot of `p_pptr` -/
  pptr : ℕ
  /-- a minor number, or `none` for -1 -/
  tty : Option ℕ
  deriving DecidableEq

/-- What the calls read and write of a `tty_struct`. -/
structure Tty where
  pgrp : ℕ
  session : ℕ
  /-- `c_cc[VMIN]` and `c_cc[VTIME]` -/
  vmin : ℕ
  vtime : ℕ
  /-- `ICANON` in `c_lflag` -/
  icanon : Bool

/-- What stands in the page directory where a `task_struct` at address 0 has these fields. -/
structure Low where
  pgrp : ℤ
  session : ℤ
  tty : ℤ

/-- Where the process of a slot is. -/
inductive Call where
  | idle
  /-- in `get_free_page`, with the slot of the child -/
  | getting (nr : ℕ)
  /-- in `copy_mem` -/
  | copying (nr : ℕ)
  deriving DecidableEq

structure Table where
  task : ℕ → Option Task
  lastPid : ℕ
  call : ℕ → Call
  fgConsole : ℕ
  nrConsoles : ℕ
  /-- `tty_table[]` -/
  tty : ℕ → Tty
  low : Low

def EPERM : ℤ := 1
def ESRCH : ℤ := 3
def EINVAL : ℤ := 22

/-- The slots that a loop from `&LAST_TASK` down to `&FIRST_TASK` looks at. -/
def slots : List ℕ := (List.range' 1 63).reverse

namespace Table

/-- The part of the table that `find_empty_process` looks at. -/
def sched (s : Table) : Sched.Table where
  task i := if (s.task i).isSome then some i else none
  page i := (s.task i).map fun t => ⟨t.pid, t.pgrp⟩
  lastPid := s.lastPid

def modify (s : Table) (i : ℕ) (f : Task → Task) : Table :=
  { s with task := update s.task i ((s.task i).map f) }

def setCall (s : Table) (i : ℕ) (c : Call) : Table := { s with call := update s.call i c }

/-! ### Fork -/

/-- `find_empty_process`, for a fork of the process in slot `i`. -/
def findEmptyProcess (s : Table) (i : ℕ) : Option Table :=
  s.sched.findEmptyProcess.map fun (nr, t) =>
    { s with lastPid := t.lastPid }.setCall i (nr.elim .idle .getting)

/-- `task[nr] = p; *p = *current;` and the fields set before `copy_mem`. -/
def store (s : Table) (i nr : ℕ) (t : Task) : Table :=
  { s with
    task := update s.task nr
      (some { t with pid := s.lastPid, leader := false, state := .uninterruptible }) }.setCall i
    (.copying nr)

/-- The end of `copy_process`. -/
def finish (s : Table) (i nr : ℕ) : Table :=
  (s.modify nr fun t => { t with pptr := i, state := .running }).setCall i .idle

/-- `task[nr] = NULL`. -/
def remove (s : Table) (nr : ℕ) : Table := { s with task := update s.task nr none }

/-! ### The calls -/

/-- `(*p)->pgrp`, for the pointer in slot `k`. -/
def pgrpAt (s : Table) (k : ℕ) : ℤ := (s.task k).elim s.low.pgrp fun t => t.pgrp

/-- `(*p)->session`. -/
def sessionAt (s : Table) (k : ℕ) : ℤ := (s.task k).elim s.low.session fun t => t.session

/-- `session_of_pgrp`. -/
def sessionOfPgrp (s : Table) (pgrp : ℤ) : ℤ :=
  match slots.find? fun k => s.pgrpAt k = pgrp with
  | some k => s.sessionAt k
  | none => -1

/-- The first task with number `pid` that is the process in slot `i` or a child of it. -/
def findTask (s : Table) (i : ℕ) (pid : ℤ) : Option ℕ :=
  (List.range Sched.nrTasks).find? fun k =>
    (s.task k).any fun t => t.pid = pid ∧ (t.pptr = i ∨ k = i)

/-- `sys_setpgid`, called by `cur` in slot `i`. -/
def setpgid (s : Table) (i : ℕ) (cur : Task) (pid pgid : ℤ) : Table × ℤ :=
  let pid : ℤ := if pid = 0 then cur.pid else pid
  let pgid : ℤ := if pgid = 0 then cur.pid else pgid
  if pgid < 0 then (s, -EINVAL)
  else match s.findTask i pid with
  | none => (s, -ESRCH)
  | some k =>
    if (s.task k).any Task.leader then (s, -EPERM)
    else if s.sessionAt k ≠ cur.session ∨
        (pgid ≠ pid ∧ s.sessionOfPgrp pgid ≠ cur.session) then (s, -EPERM)
    else (s.modify k fun t => { t with pgrp := pgid.toNat }, 0)

/-- `sys_setsid`; `suser` tells whether the caller is the superuser. -/
def setsid (s : Table) (i : ℕ) (cur : Task) (suser : Bool) : Table × ℤ :=
  if cur.leader ∧ suser = false then (s, -EPERM)
  else (s.modify i fun t => { t with leader := true, session := t.pid, pgrp := t.pid, tty := none },
    cur.pid)

/-- The index of `TTY_TABLE(nr)`. -/
def ttyTable (s : Table) (nr : ℕ) : ℕ :=
  if nr = 0 then s.fgConsole else if nr < 64 then nr - 1 else nr

/-- `IS_A_PTY_MASTER`. -/
def isPtyMaster (min : ℕ) : Bool := 128 ≤ min ∧ min < 192

def setTty (s : Table) (k : ℕ) (f : Tty → Tty) : Table :=
  { s with tty := update s.tty k (f (s.tty k)) }

/-- A leader without a terminal gets terminal `min`, unless a session has it. -/
def acquire (s : Table) (i : ℕ) (cur : Task) (min : ℕ) (noctty : Bool) : Table :=
  if noctty = false ∧ cur.leader ∧ cur.tty = none ∧ (s.tty (s.ttyTable min)).session = 0 then
    (s.modify i fun t => { t with tty := some min }).setTty (s.ttyTable min) fun tty =>
      { tty with session := cur.session, pgrp := cur.pgrp }
  else s

/-- `check_char_dev`; `count` is `i_count`, and `noctty` and `nonblock` are bits of `flag`. -/
def checkCharDev (s : Table) (i : ℕ) (cur : Task) (dev count : ℕ) (noctty nonblock : Bool) :
    Table × ℤ :=
  if dev / 256 = 4 ∨ dev / 256 = 5 then
    match if dev / 256 = 5 then cur.tty else some (dev % 256) with
    | none => (s, -1)
    | some min =>
      if isPtyMaster min ∧ 1 < count then (s, -1)
      else
        let s := s.acquire i cur min noctty
        (if nonblock then
          s.setTty (s.ttyTable min) fun tty => { tty with vmin := 0, vtime := 0, icanon := false }
        else s, 0)
  else (s, 0)

/-- `if ((*p)->session == session) (*p)->tty = -1`, for the pointer in slot `k`. -/
def detach (s : Table) (session k : ℕ) : Table :=
  match s.task k with
  | some t => if t.session = session then s.modify k fun t => { t with tty := none } else s
  | none => if s.low.session = session then { s with low := { s.low with tty := -1 } } else s

/-- The loop over `detach`, with the pointers that it uses. -/
def detachAll (session : ℕ) : List ℕ → Table → Table × List (Option Task)
  | [], s => (s, [])
  | k :: ks, s => ((detachAll session ks (s.detach session k)).1,
      s.task k :: (detachAll session ks (s.detach session k)).2)

/-- The children of the process in slot `i` become those of task 1. -/
def forget (s : Table) (i : ℕ) : Table :=
  { s with
    task := fun k => (s.task k).map fun t =>
      if t.pptr = i ∧ t.state ≠ .uninterruptible then { t with pptr := 1 } else t }

/-- The terminal of a leader that exits. -/
def release (s : Table) (cur : Task) : Table :=
  cur.tty.elim s fun n =>
    s.setTty (s.ttyTable n) fun tty => { tty with pgrp := 0, session := 0 }

/-- `do_exit`, with the pointers that its last loop uses. -/
def doExit (s : Table) (i : ℕ) (cur : Task) : Table × List (Option Task) :=
  let s := (s.modify i fun t => { t with state := .zombie }).forget i
  if cur.leader then detachAll cur.session slots (s.release cur) else (s, [])

/-- `change_console`. -/
def changeConsole (s : Table) (console : ℕ) : Table :=
  if console = s.fgConsole ∨ s.nrConsoles ≤ console then s else { s with fgConsole := console }

end Table

inductive Event where
  /-- the process in slot `i` calls fork -/
  | fork (i : ℕ)
  /-- `get_free_page` gives it a page, or none -/
  | store (i : ℕ)
  | noPage (i : ℕ)
  /-- `copy_mem` is done, or fails -/
  | finish (i : ℕ)
  | noMem (i : ℕ)
  | setpgid (i : ℕ) (pid pgid : ℤ)
  | setsid (i : ℕ) (suser : Bool)
  | checkCharDev (i dev count : ℕ) (noctty nonblock : Bool)
  | changeConsole (console : ℕ)
  | exit (i : ℕ)
  /-- the zombie in slot `i` is released -/
  | release (i : ℕ)
  /-- the page directory changes -/
  | pageDir (low : Low)

namespace Table

/-- The process in slot `i`, where it may make a call. Task 0 does nothing but fork. -/
def caller (s : Table) (i : ℕ) : Option Task :=
  if s.call i = .idle ∧ i ≠ 0 then (s.task i).filter fun t => t.state = .running else none

def step (s : Table) : Event → Option Table
  | .fork i =>
    if s.call i = .idle ∧ (s.task i).any (fun t => t.state = .running) then s.findEmptyProcess i
    else none
  | .store i =>
    match s.call i with
    | .getting nr => (s.task i).map (s.store i nr)
    | _ => none
  | .noPage i =>
    match s.call i with
    | .getting _ => some (s.setCall i .idle)
    | _ => none
  | .finish i =>
    match s.call i with
    | .copying nr => some (s.finish i nr)
    | _ => none
  | .noMem i =>
    match s.call i with
    | .copying nr => some ((s.remove nr).setCall i .idle)
    | _ => none
  | .setpgid i pid pgid => (s.caller i).map fun cur => (s.setpgid i cur pid pgid).1
  | .setsid i suser => (s.caller i).map fun cur => (s.setsid i cur suser).1
  | .checkCharDev i dev count noctty nonblock =>
    (s.caller i).map fun cur => (s.checkCharDev i cur dev count noctty nonblock).1
  | .changeConsole console => some (s.changeConsole console)
  | .exit i => (s.caller i).map fun cur => (s.doExit i cur).1
  | .release i => if (s.task i).any (fun t => t.state = .zombie) then some (s.remove i) else none
  | .pageDir low => some { s with low := low }

/-- `INIT_TASK`. -/
def initTask : Task := ⟨0, 0, 0, false, .running, 0, none⟩

/-- Only task 0 is there, and no terminal has a session. -/
structure Start (s : Table) : Prop where
  task : s.task = update (fun _ => none) 0 (some initTask)
  lastPid : s.lastPid = 0
  call : ∀ i, s.call i = .idle
  tty : ∀ k, (s.tty k).session = 0

end Table

def jobs : System Table Event where
  init := Table.Start
  step s e s' := s.step e = some s'

/-- What has to hold for the processes of each group to be in one session. -/
def GroupCareful (s : Table) : Event → Prop
  -- another fork has not taken the slot or the number meanwhile
  | .store i => ∀ nr, s.call i = .getting nr → s.task nr = none ∧ ¬ s.sched.Taken s.lastPid
  -- the caller is alone in its group, or with processes of its own session
  | .setsid i _ => ∀ t ∈ s.task i, ∀ j, j < Sched.nrTasks → ∀ u ∈ s.task j, j ≠ i →
      u.pgrp = t.pid → u.session = t.pid
  -- no null pointer reads the number of the group
  | .setpgid i _ pgid => ∀ t ∈ s.task i, ∀ k ∈ slots, s.task k = none →
      s.low.pgrp ≠ if pgid = 0 then (t.pid : ℤ) else pgid
  | _ => True

/-- Groups and sessions are in order. -/
structure Grouped (s : Table) : Prop where
  session : ∀ i j t u, s.task i = some t → s.task j = some u → t.pgrp = u.pgrp →
    t.session = u.session
  leader : ∀ i t, s.task i = some t → t.leader = true → t.pgrp = t.pid ∧ t.session = t.pid

/-- A process that comes to another group finds only processes of its session there. -/
def Joins (s s' : Table) : Prop :=
  ∀ j t t', s.task j = some t → s'.task j = some t' → t'.pgrp ≠ t.pgrp →
    t'.session = t.session ∧ ∀ k u, s.task k = some u → u.pgrp = t'.pgrp → u.session = t.session

/-! ### The processes of a table -/

/-- The numbers of a process. -/
def Task.ids (t : Task) : ℕ × ℕ × ℕ × Bool := (t.pid, t.pgrp, t.session, t.leader)

/-- The processes of `s'` are processes of `s`, with the same numbers. -/
def Keeps (s s' : Table) : Prop :=
  ∀ i t', s'.task i = some t' → ∃ t, s.task i = some t ∧ t'.ids = t.ids

namespace Keeps

variable {s s' s'' : Table} {i k : ℕ} {f : Task → Task}

theorem of_eq (h : s'.task = s.task) : Keeps s s' := fun i t' ht => ⟨t', by rw [← h, ht], rfl⟩

theorem trans (h : Keeps s s') (h' : Keeps s' s'') : Keeps s s'' := fun i t'' ht => by
  obtain ⟨t', ht', heq'⟩ := h' i t'' ht
  obtain ⟨t, ht, heq⟩ := h i t' ht'
  exact ⟨t, ht, heq'.trans heq⟩

theorem modify (f : Task → Task) (h : ∀ t, s.task i = some t → (f t).ids = t.ids) :
    Keeps s (s.modify i f) := by
  intro k t' ht
  rw [Table.modify] at ht
  dsimp only at ht
  rw [Function.update_apply] at ht
  split at ht
  case isTrue heq =>
    obtain ⟨t, hi, rfl⟩ := Option.map_eq_some_iff.mp ht
    exact ⟨t, heq ▸ hi, h t hi⟩
  case isFalse => exact ⟨t', ht, rfl⟩

theorem remove : Keeps s (s.remove i) := by
  intro k t' ht
  rw [Table.remove] at ht
  dsimp only at ht
  rw [Function.update_apply] at ht
  split at ht
  case isTrue => cases ht
  case isFalse => exact ⟨t', ht, rfl⟩

theorem forget : Keeps s (s.forget i) := by
  intro k t' ht
  obtain ⟨t, hk, rfl⟩ := Option.map_eq_some_iff.mp ht
  refine ⟨t, hk, ?_⟩
  split <;> rfl

theorem detach {session : ℕ} : Keeps s (s.detach session k) := by
  rw [Table.detach]
  split
  case h_1 =>
    split
    case isTrue => exact modify _ fun t _ => rfl
    case isFalse => exact of_eq rfl
  case h_2 =>
    split
    case isTrue => exact of_eq rfl
    case isFalse => exact of_eq rfl

theorem detachAll {session : ℕ} (ks : List ℕ) : Keeps s (Table.detachAll session ks s).1 := by
  induction ks generalizing s with
  | nil => exact of_eq rfl
  | cons k ks ih => exact detach.trans ih

theorem release {cur : Task} : Keeps s (s.release cur) := by
  rw [Table.release]
  cases cur.tty with
  | none => exact of_eq rfl
  | some n => exact of_eq rfl

theorem doExit {cur : Task} : Keeps s (s.doExit i cur).1 := by
  have hzombie : Keeps s ((s.modify i fun t => { t with state := .zombie }).forget i) :=
    (modify (fun t => { t with state := .zombie }) fun t _ => rfl).trans forget
  rw [Table.doExit]
  split
  case isTrue => exact (hzombie.trans release).trans (detachAll slots)
  case isFalse => exact hzombie

theorem acquire {cur : Task} {min : ℕ} {noctty : Bool} :
    Keeps s (s.acquire i cur min noctty) := by
  rw [Table.acquire]
  split
  case isTrue => exact (modify (fun t => { t with tty := some min }) fun t _ => rfl).trans (of_eq rfl)
  case isFalse => exact of_eq rfl

theorem checkCharDev {cur : Task} {dev count : ℕ} {noctty nonblock : Bool} :
    Keeps s (s.checkCharDev i cur dev count noctty nonblock).1 := by
  rw [Table.checkCharDev]
  split
  case isFalse => exact of_eq rfl
  case isTrue =>
    split
    case h_1 => exact of_eq rfl
    case h_2 min hmin =>
      split
      case isTrue => exact of_eq rfl
      case isFalse =>
        have hacquire : Keeps s (s.acquire i cur min noctty) := acquire
        dsimp only
        split
        case isTrue => exact hacquire.trans (of_eq rfl)
        case isFalse => exact hacquire

theorem changeConsole {console : ℕ} : Keeps s (s.changeConsole console) := by
  rw [Table.changeConsole]
  split
  case isTrue => exact of_eq rfl
  case isFalse => exact of_eq rfl

end Keeps

/-! ### Groups -/

/-- What holds of the numbers of the processes in all states. -/
structure Numbered (s : Table) : Prop extends Grouped s where
  /-- different processes have different numbers -/
  pid : ∀ i j t u, s.task i = some t → s.task j = some u → t.pid = u.pid → i = j
  /-- the group of a process that leads no session is in its session -/
  own : ∀ i j t u, s.task i = some t → s.task j = some u → t.leader = false → u.pgrp = t.pid →
    u.session = t.session

namespace Numbered

variable {s s' : Table} {i nr : ℕ} {cur t : Task}

theorem keeps (h : Numbered s) (hk : Keeps s s') : Numbered s' := by
  refine ⟨⟨fun i j t u ht hu heq => ?_, fun i t ht hl => ?_⟩, fun i j t u ht hu heq => ?_,
    fun i j t u ht hu hl heq => ?_⟩
  all_goals
    obtain ⟨t₀, ht₀, hids⟩ := hk i t ht
    simp only [Task.ids, Prod.mk.injEq] at hids
    obtain ⟨hpid, hpgrp, hsession, hleader⟩ := hids
  · obtain ⟨u₀, hu₀, hids⟩ := hk j u hu
    simp only [Task.ids, Prod.mk.injEq] at hids
    rw [hsession, hids.2.2.1]
    exact h.session i j t₀ u₀ ht₀ hu₀ (by rw [← hpgrp, heq, hids.2.1])
  · rw [hpgrp, hsession, hpid]
    exact h.leader i t₀ ht₀ (hleader ▸ hl)
  · obtain ⟨u₀, hu₀, hids⟩ := hk j u hu
    simp only [Task.ids, Prod.mk.injEq] at hids
    exact h.pid i j t₀ u₀ ht₀ hu₀ (by rw [← hpid, heq, hids.1])
  · obtain ⟨u₀, hu₀, hids⟩ := hk j u hu
    simp only [Task.ids, Prod.mk.injEq] at hids
    rw [hsession, hids.2.2.1]
    exact h.own i j t₀ u₀ ht₀ hu₀ (hleader ▸ hl) (by rw [← hpid, ← heq, hids.2.1])

/-- One process is new, or has new numbers. -/
theorem update {k : ℕ} {x : Task} (h : Numbered s) (hs : s'.task = update s.task k (some x))
    (hleader : x.leader = true → x.pgrp = x.pid ∧ x.session = x.pid)
    (hothers : ∀ j u, j ≠ k → s.task j = some u → u.pid ≠ x.pid ∧
      (u.pgrp = x.pgrp → u.session = x.session) ∧
      (x.leader = false → u.pgrp = x.pid → u.session = x.session) ∧
      (u.leader = false → x.pgrp = u.pid → x.session = u.session)) : Numbered s' := by
  have hcases : ∀ j u, s'.task j = some u → j = k ∧ u = x ∨ j ≠ k ∧ s.task j = some u := by
    intro j u hu
    rw [hs, Function.update_apply] at hu
    split at hu
    case isTrue heq => exact .inl ⟨heq, (Option.some.inj hu).symm⟩
    case isFalse hne => exact .inr ⟨hne, hu⟩
  refine ⟨⟨fun i j t u ht hu heq => ?_, fun i t ht hl => ?_⟩, fun i j t u ht hu heq => ?_,
    fun i j t u ht hu hl heq => ?_⟩
  · rcases hcases i t ht with ⟨rfl, rfl⟩ | ⟨hi, ht⟩
    · rcases hcases j u hu with ⟨rfl, rfl⟩ | ⟨hj, hu⟩
      · rfl
      · exact ((hothers j u hj hu).2.1 heq.symm).symm
    · rcases hcases j u hu with ⟨rfl, rfl⟩ | ⟨hj, hu⟩
      · exact (hothers i t hi ht).2.1 heq
      · exact h.session i j t u ht hu heq
  · rcases hcases i t ht with ⟨rfl, rfl⟩ | ⟨hi, ht⟩
    · exact hleader hl
    · exact h.leader i t ht hl
  · rcases hcases i t ht with ⟨rfl, rfl⟩ | ⟨hi, ht⟩
    · rcases hcases j u hu with ⟨rfl, rfl⟩ | ⟨hj, hu⟩
      · rfl
      · exact absurd heq.symm (hothers j u hj hu).1
    · rcases hcases j u hu with ⟨rfl, rfl⟩ | ⟨hj, hu⟩
      · exact absurd heq (hothers i t hi ht).1
      · exact h.pid i j t u ht hu heq
  · rcases hcases i t ht with ⟨rfl, rfl⟩ | ⟨hi, ht⟩
    · rcases hcases j u hu with ⟨rfl, rfl⟩ | ⟨hj, hu⟩
      · rfl
      · exact (hothers j u hj hu).2.2.1 hl heq
    · rcases hcases j u hu with ⟨rfl, rfl⟩ | ⟨hj, hu⟩
      · exact (hothers i t hi ht).2.2.2 hl heq
      · exact h.own i j t u ht hu hl heq

/-- The numbers of processes and of groups are not free. -/
theorem ne_of_not_taken {x j : ℕ} {u : Task} (hx : ¬ s.sched.Taken x) (hj : j < Sched.nrTasks)
    (hu : s.task j = some u) : u.pid ≠ x ∧ u.pgrp ≠ x := by
  have hslot : s.sched.slot j = some ⟨u.pid, u.pgrp⟩ := by
    rw [Sched.Table.slot, Table.sched]
    simp [hu]
  constructor
  · exact fun heq => hx ⟨j, hj, _, hslot, .inl heq⟩
  · exact fun heq => hx ⟨j, hj, _, hslot, .inr heq⟩

end Numbered

/-- The slots in use are those of the table. -/
structure Placed (s : Table) : Prop where
  task : ∀ i t, s.task i = some t → i < Sched.nrTasks
  call : ∀ i nr, s.call i = .getting nr → nr < Sched.nrTasks

section Steps

variable {s s' : Table} {i k nr : ℕ} {cur t : Task} {pid pgid : ℤ}

theorem Placed.keeps (h : Placed s) (hk : Keeps s s')
    (hcall : ∀ i nr, s'.call i = .getting nr → s.call i = .getting nr ∨ nr < Sched.nrTasks) :
    Placed s' := by
  refine ⟨fun i t ht => ?_, fun i nr hnr => ?_⟩
  · obtain ⟨u, hu, -⟩ := hk i t ht
    exact h.task i u hu
  · exact (hcall i nr hnr).elim (h.call i nr) id

/-- `session_of_pgrp` finds a process, where no null pointer looks like one. -/
theorem sessionOfPgrp_eq (h : s.sessionOfPgrp pgid = cur.session)
    (hlow : ∀ k ∈ slots, s.task k = none → s.low.pgrp ≠ pgid) :
    ∃ k u, s.task k = some u ∧ (u.pgrp : ℤ) = pgid ∧ u.session = cur.session := by
  rw [Table.sessionOfPgrp] at h
  split at h
  case h_1 k hk =>
    have hfound : s.pgrpAt k = pgid := by simpa using List.find?_some hk
    have hmem := List.mem_of_find?_eq_some hk
    rw [Table.pgrpAt] at hfound
    rw [Table.sessionAt] at h
    cases hu : s.task k with
    | none =>
      rw [hu] at hfound
      exact absurd hfound (hlow k hmem hu)
    | some u =>
      rw [hu] at hfound h
      exact ⟨k, u, hu, hfound, Int.ofNat.inj h⟩
  case h_2 => omega

/-- What `sys_setpgid` does: a child of the session is moved, to its own group or to one that
is found in the session. -/
theorem setpgid_cases (s : Table) (i : ℕ) (cur : Task) (pid pgid : ℤ) :
    (s.setpgid i cur pid pgid).1 = s ∨
    ∃ (k : ℕ) (t : Task) (g : ℕ), s.task k = some t ∧ t.leader = false ∧
      t.session = cur.session ∧
      (g : ℤ) = (if pgid = 0 then (cur.pid : ℤ) else pgid) ∧
      (g = t.pid ∨ s.sessionOfPgrp g = cur.session) ∧
      (s.setpgid i cur pid pgid).1 = s.modify k fun t => { t with pgrp := g } := by
  rw [Table.setpgid]
  generalize (if pid = 0 then (cur.pid : ℤ) else pid) = pid'
  generalize (if pgid = 0 then (cur.pid : ℤ) else pgid) = pgid'
  split
  case isTrue => exact .inl rfl
  case isFalse hneg =>
    split
    case h_1 => exact .inl rfl
    case h_2 k hk =>
      have hfound := List.find?_some hk
      obtain ⟨t, ht, hpid⟩ := (Option.any_eq_true _ _).mp hfound
      have hpid := (of_decide_eq_true hpid).1
      split
      case isTrue => exact .inl rfl
      case isFalse hleader =>
        split
        case isTrue => exact .inl rfl
        case isFalse hsession =>
          obtain ⟨hown, hgroup⟩ := not_or.mp hsession
          rw [ht] at hleader
          rw [Table.sessionAt, ht, not_not] at hown
          have hcast : ((pgid'.toNat : ℕ) : ℤ) = pgid' := Int.toNat_of_nonneg (by omega)
          refine .inr ⟨k, t, pgid'.toNat, ht, by simpa using hleader, Int.ofNat.inj hown, hcast,
            ?_, rfl⟩
          rw [hcast]
          by_cases heq : pgid' = pid'
          · exact .inl (by omega)
          · exact .inr (not_not.mp fun hne => hgroup ⟨heq, hne⟩)

theorem modify_task (ht : s.task k = some t) (f : Task → Task) :
    (s.modify k f).task = update s.task k (some (f t)) := by
  rw [Table.modify, ht, Option.map_some]

theorem Numbered.setpgid (h : Numbered s) (hlow : ∀ k ∈ slots, s.task k = none →
    s.low.pgrp ≠ if pgid = 0 then (cur.pid : ℤ) else pgid) :
    Numbered (s.setpgid i cur pid pgid).1 ∧ Joins s (s.setpgid i cur pid pgid).1 := by
  rcases setpgid_cases s i cur pid pgid with
    heq | ⟨k, t, g, ht, hleader, hsession, hg, hgroup, heq⟩
  · rw [heq]
    refine ⟨h, fun j t t' ht ht' hne => ?_⟩
    rw [ht] at ht'
    exact absurd (congrArg Task.pgrp (Option.some.inj ht').symm) hne
  · rw [heq]
    have htask := modify_task ht fun t => { t with pgrp := g }
    -- the processes of group `g` are all in the session
    have hothers : ∀ j u, s.task j = some u → u.pgrp = g → u.session = t.session := by
      intro j u hu hug
      rcases hgroup with rfl | hfound
      · exact h.own k j t u ht hu hleader hug
      · obtain ⟨m, v, hv, hvg, hvs⟩ := sessionOfPgrp_eq hfound (by rwa [hg])
        rw [hsession, ← hvs]
        exact h.session j m u v hu hv (by omega)
    constructor
    · refine h.update htask (fun hl => absurd hl (by rw [hleader]; decide)) fun j u hj hu => ?_
      refine ⟨fun hpid => hj (h.pid j k u t hu ht hpid), hothers j u hu, fun _ => ?_, ?_⟩
      · exact h.own k j t u ht hu hleader
      · intro hul hug
        rcases hgroup with rfl | hfound
        · exact absurd (h.pid j k u t hu ht hug.symm) hj
        · obtain ⟨m, v, hv, hvg, hvs⟩ := sessionOfPgrp_eq hfound (by rwa [hg])
          have hv' := h.own j m u v hu hv hul (by rw [← hug]; exact Int.ofNat.inj hvg)
          exact hsession.trans (hvs.symm.trans hv')
    · intro j t₁ t₁' ht₁ ht₁' hne
      rw [htask, Function.update_apply] at ht₁'
      split at ht₁'
      case isTrue hjk =>
        rw [hjk, ht] at ht₁
        obtain rfl := Option.some.inj ht₁
        obtain rfl := Option.some.inj ht₁'
        exact ⟨rfl, fun m u hu hug => hothers m u hu hug⟩
      case isFalse =>
        rw [ht₁] at ht₁'
        exact absurd (congrArg Task.pgrp (Option.some.inj ht₁').symm) hne

theorem Numbered.setsid (h : Numbered s) (ht : s.task i = some cur) {suser : Bool}
    (halone : ∀ j u, j ≠ i → s.task j = some u → u.pgrp = cur.pid → u.session = cur.pid) :
    Numbered (s.setsid i cur suser).1 := by
  rw [Table.setsid]
  split
  case isTrue => exact h
  case isFalse =>
    refine h.update (modify_task ht _) (fun _ => ⟨rfl, rfl⟩) fun j u hj hu => ?_
    have hpid : u.pid ≠ cur.pid := fun heq => hj (h.pid j i u cur hu ht heq)
    exact ⟨hpid, halone j u hj hu, fun _ => halone j u hj hu, fun _ heq => absurd heq.symm hpid⟩

theorem Numbered.store (h : Numbered s) (hplaced : Placed s) (ht : s.task i = some t)
    (hfree : ¬ s.sched.Taken s.lastPid) : Numbered (s.store i nr t) := by
  refine h.update rfl (fun hl => Bool.noConfusion hl) fun j u hj hu => ?_
  have hne := Numbered.ne_of_not_taken hfree (hplaced.task j u hu) hu
  exact ⟨hne.1, fun heq => h.session j i u t hu ht heq, fun _ heq => absurd heq hne.2,
    fun hl heq => h.own j i u t hu ht hl heq⟩

theorem caller_eq (h : s.caller i = some cur) :
    s.task i = some cur ∧ cur.state = .running ∧ s.call i = .idle ∧ i ≠ 0 := by
  rw [Table.caller] at h
  split at h
  case isTrue hidle =>
    rw [Option.filter_eq_some_iff] at h
    exact ⟨h.1, of_decide_eq_true h.2, hidle⟩
  case isFalse => cases h

/-- What fork finds: a slot of the table. -/
theorem findEmptyProcess_cases (h : s.findEmptyProcess i = some s') :
    ∃ c x, s' = { s with lastPid := x }.setCall i c ∧ (∀ nr, c ≠ .copying nr) ∧
      ∀ nr, c = .getting nr → nr < Sched.nrTasks := by
  rw [Table.findEmptyProcess, Option.map_eq_some_iff] at h
  obtain ⟨⟨nr, t⟩, hfind, rfl⟩ := h
  obtain ⟨hnr, x, -, -, rfl⟩ := Sched.Table.findEmptyProcess_spec hfind
  refine ⟨_, x, rfl, fun m => ?_, fun m hm => ?_⟩
  · cases nr with
    | none => exact nofun
    | some n => exact nofun
  · cases hs : s.sched.findSlot with
    | none =>
      rw [hnr, hs] at hm
      cases hm
    | some n =>
      rw [hnr, hs] at hm
      cases hm
      exact (Sched.Table.findSlot_spec hs).1

/-- Another slot's call stays. -/
theorem setCall_getting {c : Call} {j : ℕ} (h : (s.setCall i c).call j = .getting nr) :
    s.call j = .getting nr ∨ c = .getting nr := by
  rw [Table.setCall] at h
  dsimp only at h
  rw [Function.update_apply] at h
  split at h
  case isTrue => exact .inr h
  case isFalse => exact .inl h

theorem call_checkCharDev {dev count : ℕ} {noctty nonblock : Bool} :
    (s.checkCharDev i cur dev count noctty nonblock).1.call = s.call := by
  have hacquire : ∀ min, (s.acquire i cur min noctty).call = s.call := by
    intro min
    rw [Table.acquire]
    split <;> rfl
  rw [Table.checkCharDev]
  split
  case isFalse => rfl
  case isTrue =>
    split
    case h_1 => rfl
    case h_2 min hmin =>
      split
      case isTrue => rfl
      case isFalse =>
        dsimp only
        split
        case isTrue => exact hacquire min
        case isFalse => exact hacquire min

theorem call_detachAll {session : ℕ} (ks : List ℕ) :
    (Table.detachAll session ks s).1.call = s.call := by
  induction ks generalizing s with
  | nil => rfl
  | cons k ks ih =>
    refine ih.trans ?_
    rw [Table.detach]
    split <;> split <;> rfl

theorem call_doExit : (s.doExit i cur).1.call = s.call := by
  rw [Table.doExit]
  split
  case isFalse => rfl
  case isTrue =>
    refine (call_detachAll slots).trans ?_
    rw [Table.release]
    cases cur.tty with
    | none => rfl
    | some n => rfl

/-- What a step does: only three events change the numbers of processes. -/
theorem step_cases {e : Event} (h : s.step e = some s') :
    (Keeps s s' ∧ ∀ i nr, s'.call i = .getting nr → s.call i = .getting nr ∨ nr < Sched.nrTasks) ∨
    (∃ i nr t, e = .store i ∧ s.call i = .getting nr ∧ s.task i = some t ∧ s' = s.store i nr t) ∨
    (∃ i pid pgid cur, e = .setpgid i pid pgid ∧ s.task i = some cur ∧
      s' = (s.setpgid i cur pid pgid).1) ∨
    ∃ i suser cur, e = .setsid i suser ∧ s.task i = some cur ∧
      s' = (s.setsid i cur suser).1 := by
  have hidle : ∀ {t : Table} {i : ℕ}, t.call = s.call → ∀ j nr,
      (t.setCall i .idle).call j = .getting nr → s.call j = .getting nr ∨ nr < Sched.nrTasks := by
    intro t i ht j nr hj
    rcases setCall_getting hj with hj | hj
    · exact .inl (ht ▸ hj)
    · cases hj
  cases e with
  | fork i =>
    rw [Table.step] at h
    split at h
    case isFalse => cases h
    case isTrue =>
      obtain ⟨c, x, rfl, -, hc⟩ := findEmptyProcess_cases h
      exact .inl ⟨.of_eq rfl, fun j nr hj => (setCall_getting hj).imp_right (hc nr)⟩
  | store i =>
    rw [Table.step] at h
    split at h
    case h_1 nr hnr =>
      obtain ⟨t, ht, rfl⟩ := Option.map_eq_some_iff.mp h
      exact .inr (.inl ⟨i, nr, t, rfl, hnr, ht, rfl⟩)
    case h_2 => cases h
  | noPage i =>
    rw [Table.step] at h
    split at h
    case h_1 =>
      cases h
      exact .inl ⟨.of_eq rfl, hidle rfl⟩
    case h_2 => cases h
  | finish i =>
    rw [Table.step] at h
    split at h
    case h_1 nr hnr =>
      cases h
      exact .inl ⟨.modify (fun t => { t with pptr := i, state := .running }) fun t _ => rfl,
        hidle rfl⟩
    case h_2 => cases h
  | noMem i =>
    rw [Table.step] at h
    split at h
    case h_1 nr hnr =>
      cases h
      exact .inl ⟨.remove, hidle rfl⟩
    case h_2 => cases h
  | setpgid i pid pgid =>
    obtain ⟨cur, hcur, rfl⟩ := Option.map_eq_some_iff.mp h
    exact .inr (.inr (.inl ⟨i, pid, pgid, cur, rfl, (caller_eq hcur).1, rfl⟩))
  | setsid i suser =>
    obtain ⟨cur, hcur, rfl⟩ := Option.map_eq_some_iff.mp h
    exact .inr (.inr (.inr ⟨i, suser, cur, rfl, (caller_eq hcur).1, rfl⟩))
  | checkCharDev i dev count noctty nonblock =>
    obtain ⟨cur, hcur, rfl⟩ := Option.map_eq_some_iff.mp h
    exact .inl ⟨.checkCharDev, fun j nr hj => .inl (by rwa [call_checkCharDev] at hj)⟩
  | changeConsole console =>
    cases h
    refine .inl ⟨.changeConsole, fun j nr hj => .inl ?_⟩
    rw [Table.changeConsole] at hj
    split at hj <;> exact hj
  | exit i =>
    obtain ⟨cur, hcur, rfl⟩ := Option.map_eq_some_iff.mp h
    exact .inl ⟨.doExit, fun j nr hj => .inl (by rwa [call_doExit] at hj)⟩
  | release i =>
    rw [Table.step] at h
    split at h
    case isTrue =>
      cases h
      exact .inl ⟨.remove, fun j nr hj => .inl hj⟩
    case isFalse => cases h
  | pageDir low =>
    cases h
    exact .inl ⟨.of_eq rfl, fun j nr hj => .inl hj⟩

theorem Placed.start (h : s.Start) : Placed s := by
  refine ⟨fun i t ht => ?_, fun i nr hnr => ?_⟩
  · rw [h.task, Function.update_apply] at ht
    split at ht
    case isTrue heq =>
      rw [heq]
      decide
    case isFalse => cases ht
  · rw [h.call] at hnr
    cases hnr

theorem Placed.modify (h : Placed s) (f : Task → Task) : Placed (s.modify k f) := by
  refine ⟨fun i t ht => ?_, h.call⟩
  rw [Table.modify] at ht
  dsimp only at ht
  rw [Function.update_apply] at ht
  split at ht
  case isTrue heq =>
    obtain ⟨u, hu, -⟩ := Option.map_eq_some_iff.mp ht
    exact h.task i u (heq ▸ hu)
  case isFalse => exact h.task i t ht

theorem Placed.step {e : Event} (h : Placed s) (hs : s.step e = some s') : Placed s' := by
  rcases step_cases hs with ⟨hk, hcall⟩ | ⟨i, nr, t, -, hnr, -, rfl⟩ |
    ⟨i, pid, pgid, cur, -, -, rfl⟩ | ⟨i, suser, cur, -, -, rfl⟩
  · exact h.keeps hk hcall
  · refine ⟨fun j u hu => ?_, fun j m hm => ?_⟩
    · rw [Table.store, Table.setCall] at hu
      dsimp only at hu
      rw [Function.update_apply] at hu
      split at hu
      case isTrue heq => exact heq ▸ h.call i nr hnr
      case isFalse => exact h.task j u hu
    · rcases setCall_getting hm with hm | hm
      · exact h.call j m hm
      · cases hm
  · rcases setpgid_cases s i cur pid pgid with
      heq | ⟨k, t, g, -, -, -, -, -, heq⟩
    · rwa [heq]
    · rw [heq]
      exact h.modify _
  · rw [Table.setsid]
    split
    case isTrue => exact h
    case isFalse => exact h.modify _

theorem Numbered.start (h : s.Start) : Numbered s := by
  have hone : ∀ i t, s.task i = some t → i = 0 ∧ t = Table.initTask := by
    intro i t ht
    rw [h.task, Function.update_apply] at ht
    split at ht
    case isTrue heq => exact ⟨heq, (Option.some.inj ht).symm⟩
    case isFalse => cases ht
  refine ⟨⟨fun i j t u ht hu _ => ?_, fun i t ht hl => ?_⟩, fun i j t u ht hu _ => ?_,
    fun i j t u ht hu _ _ => ?_⟩
  · rw [(hone i t ht).2, (hone j u hu).2]
  · rw [(hone i t ht).2] at hl
    cases hl
  · rw [(hone i t ht).1, (hone j u hu).1]
  · rw [(hone i t ht).2, (hone j u hu).2]

theorem Numbered.step {e : Event} (h : Numbered s) (hplaced : Placed s) (hg : GroupCareful s e)
    (hs : s.step e = some s') : Numbered s' := by
  rcases step_cases hs with ⟨hk, -⟩ | ⟨i, nr, t, rfl, hnr, ht, rfl⟩ |
    ⟨i, pid, pgid, cur, rfl, hcur, rfl⟩ | ⟨i, suser, cur, rfl, hcur, rfl⟩
  · exact h.keeps hk
  · exact h.store hplaced ht (hg nr hnr).2
  · exact (h.setpgid (hg cur hcur)).1
  · exact h.setsid hcur fun j u hj hu => hg cur hcur j (hplaced.task j u hu) u hu hj

end Steps

theorem placed {G : Table → Event → Prop} {s : Table} (hr : jobs.Reach G s) : Placed s :=
  hr.invariant (fun _ h => .start h) fun _ _ _ h _ hs => h.step hs

theorem numbered {s : Table} (hr : jobs.Reach GroupCareful s) : Numbered s := by
  induction hr with
  | init h => exact .start h
  | step hr hg hs ih => exact ih.step (placed hr) hg hs

/-- In the runs in which no caller of setsid leaves others behind in its group, the processes of
a group are in one session, and nobody is moved into a group of another. -/
theorem process_groups {s : Table} (hr : jobs.Reach GroupCareful s) :
    Grouped s ∧ ∀ i pid pgid s', GroupCareful s (.setpgid i pid pgid) →
      s.step (.setpgid i pid pgid) = some s' → Joins s s' := by
  have h := numbered hr
  refine ⟨h.toGrouped, fun i pid pgid s' hg hs => ?_⟩
  obtain ⟨cur, hcur, rfl⟩ := Option.map_eq_some_iff.mp hs
  exact (h.setpgid (hg cur (caller_eq hcur).1)).2

/-! ### Runs -/

instance (s : Table) (e : Event) : Decidable (GroupCareful s e) :=
  match e with
  | .store i =>
    match h : s.call i with
    | .getting nr => decidable_of_iff (s.task nr = none ∧ ¬ s.sched.Taken s.lastPid) <| by
      simp [GroupCareful, h]
    | .idle => isTrue fun nr hnr => by rw [h] at hnr; cases hnr
    | .copying _ => isTrue fun nr hnr => by rw [h] at hnr; cases hnr
  | .setsid i _ => inferInstanceAs (Decidable (∀ t ∈ s.task i, ∀ j, j < Sched.nrTasks →
      ∀ u ∈ s.task j, j ≠ i → u.pgrp = t.pid → u.session = t.pid))
  | .setpgid i _ pgid => inferInstanceAs (Decidable (∀ t ∈ s.task i, ∀ k ∈ slots,
      s.task k = none → s.low.pgrp ≠ if pgid = 0 then (t.pid : ℤ) else pgid))
  | .fork _ | .noPage _ | .finish _ | .noMem _ | .checkCharDev .. | .changeConsole _ | .exit _
  | .release _ | .pageDir _ => isTrue trivial

/-- The kernel at its start, with 8 consoles. -/
def boot : Table where
  task := update (fun _ => none) 0 (some Table.initTask)
  lastPid := 0
  call _ := .idle
  fgConsole := 0
  nrConsoles := 8
  tty _ := ⟨0, 0, 1, 0, true⟩
  low := ⟨0, 0, 0⟩

theorem boot_start : boot.Start := ⟨rfl, rfl, fun _ => rfl, fun _ => rfl⟩

/-- A process forks. -/
def forks (i : ℕ) : List Event := [.fork i, .store i, .finish i]

/-- Task 1 starts a session, and its child a group in it, which the child of that joins. -/
theorem process_groups_job : ∃ s, System.runOf (System.guarded GroupCareful Table.step)
    (forks 0 ++ [.setsid 1 false] ++ forks 1 ++ [.setpgid 2 0 0] ++ forks 2) boot = some s ∧
    Grouped s ∧ (s.task 3).map Task.ids = some (3, 2, 1, false) := by
  have hrun : (System.runOf (System.guarded GroupCareful Table.step)
      (forks 0 ++ [.setsid 1 false] ++ forks 1 ++ [.setpgid 2 0 0] ++ forks 2) boot).any
      (fun s => (s.task 3).map Task.ids = some (3, 2, 1, false)) = true := by
    decide +kernel
  obtain ⟨s, hs, hids⟩ := (Option.any_eq_true _ _).mp hrun
  have hr : jobs.Reach GroupCareful s :=
    (System.Reach.init boot_start).of_guarded (fun _ _ _ h => h) hs
  exact ⟨s, hs, (process_groups hr).1, of_decide_eq_true hids⟩

/-- A process that leads a group of another session leaves its child in the group when it
starts a session; then a third process is moved to the group. -/
theorem setsid_splits_group : ∃ s s', jobs.Reachable s ∧
    s.step (.setpgid 1 4 2) = some s' ∧ ¬ Grouped s ∧ ¬ Joins s s' := by
  have hrun : (System.runOf Table.step (forks 0 ++ [.setsid 1 false] ++ forks 1 ++
      [.setpgid 2 0 0] ++ forks 2 ++ forks 1 ++ [.setsid 2 false]) boot).any (fun s =>
      (s.step (.setpgid 1 4 2)).any fun s' => (s.task 2).map Task.ids = some (2, 2, 2, true) ∧
        (s.task 3).map Task.ids = some (3, 2, 1, false) ∧
        (s.task 4).map Task.ids = some (4, 1, 1, false) ∧
        (s'.task 4).map Task.ids = some (4, 2, 1, false)) = true := by
    decide +kernel
  obtain ⟨s, hs, hstep⟩ := (Option.any_eq_true _ _).mp hrun
  obtain ⟨s', hs', hids⟩ := (Option.any_eq_true _ _).mp hstep
  obtain ⟨h₂, h₃, h₄, h₄'⟩ := of_decide_eq_true hids
  have hr : jobs.Reachable s := (System.Reach.init boot_start).of_runOf (fun _ _ _ h => h)
    (fun _ _ _ => trivial) hs
  obtain ⟨t₂, ht₂, hids₂⟩ := Option.map_eq_some_iff.mp h₂
  obtain ⟨t₃, ht₃, hids₃⟩ := Option.map_eq_some_iff.mp h₃
  obtain ⟨t₄, ht₄, hids₄⟩ := Option.map_eq_some_iff.mp h₄
  obtain ⟨t₄', ht₄', hids₄'⟩ := Option.map_eq_some_iff.mp h₄'
  simp only [Task.ids, Prod.mk.injEq] at hids₂ hids₃ hids₄ hids₄'
  refine ⟨s, s', hr, hs', fun h => ?_, fun h => ?_⟩
  · have heq := h.session 2 3 t₂ t₃ ht₂ ht₃ (by omega)
    omega
  · have heq := (h 4 t₄ t₄' ht₄ ht₄' (by omega)).2 2 t₂ ht₂ (by omega)
    omega

end Sessions
