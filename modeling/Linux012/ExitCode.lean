/-
The exit status of a process (`send_sig`, `sys_kill`, `do_exit` and `sys_waitpid` of
kernel/exit.c).

* `Exits` — the process tree with the states, exit codes, sessions and users of the tasks;
* `kill`, `doExit`, `waitpid` — what the calls do to states and exit codes;
* `Spares` — no signal that clears exit codes comes to a zombie whose code is not 0;
* `exit_status` — then a process is reaped once at most, with the code it gave to `do_exit`.

Design notes: a call is one step, as in the process tree. The signals that a process has got are
left out: a process may stop, or exit with any code, at any time. `gen` numbers the processes, and
`exits` and `reaps` hold the codes given to `do_exit` and those stored by `sys_waitpid`.
-/
import Linux012.ProcessTree
import Linux012.Signals

namespace Sched

open Function (update)
open Links (IsList)
open Signals (SIGKILL SIGCONT)

def SIGHUP : ℕ := 1

structure Exits where
  tree : Tree
  /-- the state is `TASK_STOPPED` -/
  stopped : ℕ → Bool
  exitCode : ℕ → BitVec 32
  session : ℕ → ℕ
  euid : ℕ → ℕ
  gen : ℕ → ℕ
  made : ℕ
  exits : List (ℕ × BitVec 32)
  reaps : List (ℕ × BitVec 32)

namespace Exits

def pid (s : Exits) (p : ℕ) : ℕ := (s.tree.table.page p).elim 0 TaskStruct.pid

def pgrp (s : Exits) (p : ℕ) : ℕ := (s.tree.table.page p).elim 0 TaskStruct.pgrp

/-- `LAST_TASK` and those before it, without `FIRST_TASK`. -/
def tasks (s : Exits) : List ℕ :=
  (List.range' 1 (nrTasks - 1)).reverse.filterMap s.tree.table.task

/-! ### Signals -/

/-- `send_sig` lets the process send a signal. -/
def Permits (s : Exits) (cur p : ℕ) (priv : Bool) : Prop :=
  priv = true ∨ s.euid cur = s.euid p ∨ s.euid cur = 0

instance (s : Exits) (cur p : ℕ) (priv : Bool) : Decidable (s.Permits cur p priv) :=
  inferInstanceAs (Decidable (_ ∨ _))

/-- `send_sig`. -/
def sendSig (cur : ℕ) (sig : ℤ) (priv : Bool) (s : Exits) (p : ℕ) : Exits :=
  if s.Permits cur p priv ∧ (sig = SIGKILL ∨ sig = SIGCONT) then
    { s with
      stopped := update s.stopped p false
      exitCode := update s.exitCode p 0 }
  else s

/-- The tasks of a process group, if `kill_pg` takes the arguments. -/
def groupTasks (s : Exits) (pgrp sig : ℤ) : List ℕ :=
  if sig < 1 ∨ 32 < sig ∨ pgrp ≤ 0 then [] else s.tasks.filter fun p => s.pgrp p = pgrp

/-- `kill_pg`. -/
def killPg (s : Exits) (cur : ℕ) (pgrp sig : ℤ) (priv : Bool) : Exits :=
  (s.groupTasks pgrp sig).foldl (sendSig cur sig priv) s

/-- The tasks that `sys_kill` calls `send_sig` for. -/
def killTasks (s : Exits) (cur : ℕ) (pid sig : ℤ) : List ℕ :=
  if pid = 0 then s.groupTasks (s.pid cur) sig
  else if pid = -1 then s.tasks
  else if pid < 0 then s.groupTasks (-pid) sig
  -- `kill_proc`
  else if sig < 1 ∨ 32 < sig then []
  else (s.tasks.find? fun p => s.pid p = pid).toList

/-- `sys_kill`. -/
def kill (s : Exits) (cur : ℕ) (pid sig : ℤ) : Exits :=
  (s.killTasks cur pid sig).foldl (sendSig cur sig false) s

/-! ### `do_exit` -/

/-- `is_orphaned_pgrp`. -/
def isOrphanedPgrp (s : Exits) (pgrp : ℕ) : Bool :=
  s.tasks.all fun p => (s.pgrp p ≠ pgrp || s.tree.zombie p) ||
    (s.tree.pptr p).all fun q => s.pid q = 1 || (s.pgrp q = pgrp || s.session q ≠ s.session p)

/-- `has_stopped_jobs`. -/
def hasStoppedJobs (s : Exits) (pgrp : ℕ) : Bool :=
  s.tasks.any fun p => s.pgrp p = pgrp && s.stopped p

/-- The task `q`, of another group, was the last link of the group of `p` to its session, and
the group has stopped jobs. -/
def Orphaned (s : Exits) (p q : ℕ) : Prop :=
  s.pgrp q ≠ s.pgrp p ∧ s.session q = s.session p ∧ s.isOrphanedPgrp (s.pgrp p) = true ∧
    s.hasStoppedJobs (s.pgrp p) = true

instance (s : Exits) (p q : ℕ) : Decidable (s.Orphaned p q) := inferInstanceAs (Decidable (_ ∧ _))

/-- The group of `p` is sent `SIGHUP` and `SIGCONT` if it is orphaned. -/
def tellGroup (s : Exits) (cur p q : ℕ) : Exits :=
  if s.Orphaned p q then
    (s.killPg cur (s.pgrp p) SIGHUP true).killPg cur (s.pgrp p) SIGCONT true
  else s

def setParent (s : Exits) (p init : ℕ) : Exits :=
  { s with tree := { s.tree with pptr := update s.tree.pptr p (some init) } }

/-- The end of the loop: `p` is the last child, and `c` the first of init. -/
def link (s : Exits) (cur init p c : ℕ) : Exits :=
  { s with tree := { s.tree with
      osptr := update s.tree.osptr p (some c)
      ysptr := update s.tree.ysptr c (some p)
      cptr := update (update s.tree.cptr init (s.tree.cptr cur)) cur none } }

/-- The loop of `do_exit` over the children. -/
def exitLoop (s : Exits) (cur init : ℕ) : ℕ → ℕ → Option Exits
  | 0, _ => none
  | fuel + 1, p =>
    let s := (s.setParent p init).tellGroup cur p cur
    match s.tree.osptr p with
    | some q => s.exitLoop cur init fuel q
    | none => (s.tree.cptr init).map (s.link cur init p)

def setZombie (s : Exits) (cur : ℕ) (code : BitVec 32) : Exits :=
  { s with
    tree := { s.tree with zombie := update s.tree.zombie cur true }
    stopped := update s.stopped cur false
    exitCode := update s.exitCode cur code
    exits := (s.gen cur, code) :: s.exits }

/-- `do_exit`, from `current->state = TASK_ZOMBIE` on. -/
def doExit (s : Exits) (cur : ℕ) (code : BitVec 32) : Option Exits :=
  match s.tree.pptr cur, s.tree.table.task 1 with
  | some q, some init =>
    let s := (s.setZombie cur code).tellGroup cur cur q
    match s.tree.cptr cur with
    | none => some s
    | some p => s.exitLoop cur init nrTasks p
  | _, _ => none

/-! ### `sys_waitpid` -/

/-- The child `p` is one that is waited for. -/
def Awaited (s : Exits) (cur : ℕ) (pid : ℤ) (p : ℕ) : Prop :=
  if 0 < pid then s.pid p = pid
  else if pid = 0 then s.pgrp p = s.pgrp cur
  else pid ≠ -1 → s.pgrp p = -pid

instance (s : Exits) (cur : ℕ) (pid : ℤ) (p : ℕ) : Decidable (s.Awaited cur pid p) := by
  unfold Awaited
  infer_instance

/-- How the loop of `sys_waitpid` ends. -/
inductive Found where
  | zombie (p : ℕ)
  | stopped (p : ℕ)
  /-- no child, or with `flag` one that is neither -/
  | none (flag : Bool)

/-- The loop of `sys_waitpid` over the children. -/
def waitLoop (s : Exits) (cur : ℕ) (pid : ℤ) (untraced : Bool) : ℕ → Option ℕ → Bool → Found
  | 0, _, flag => .none flag
  | _ + 1, none, flag => .none flag
  | fuel + 1, some p, flag =>
    if ¬ s.Awaited cur pid p then s.waitLoop cur pid untraced fuel (s.tree.osptr p) flag
    else if s.tree.zombie p = true then .zombie p
    else if s.stopped p = true then
      if untraced = false ∨ s.exitCode p = 0 then
        s.waitLoop cur pid untraced fuel (s.tree.osptr p) flag
      else .stopped p
    else s.waitLoop cur pid untraced fuel (s.tree.osptr p) true

/-- `sys_waitpid`; a call that sleeps goes on with another. -/
def waitpid (s : Exits) (cur : ℕ) (pid : ℤ) (untraced : Bool) : Option Exits :=
  match s.waitLoop cur pid untraced nrTasks (s.tree.cptr cur) false with
  | .zombie p => (s.tree.release p).map fun tree =>
    { s with
      tree := tree
      reaps := (s.gen p, s.exitCode p) :: s.reaps }
  | .stopped p => some { s with exitCode := update s.exitCode p 0 }
  | .none _ => some s

/-! ### The runs -/

/-- `find_empty_process` and `copy_process`. -/
def fork (s : Exits) (cur p : ℕ) (copied : Bool) : Option Exits :=
  (s.tree.fork cur p copied).map fun tree =>
    { s with
      tree := tree
      stopped := update s.stopped p false
      exitCode := update s.exitCode p (s.exitCode cur)
      session := update s.session p (s.session cur)
      euid := update s.euid p (s.euid cur)
      gen := update s.gen p s.made
      made := s.made + 1 }

/-- `do_signal` stops the process. -/
def stop (s : Exits) (cur signr : ℕ) : Exits :=
  { s with
    stopped := update s.stopped cur true
    exitCode := update s.exitCode cur (BitVec.ofNat 32 signr) }

/-- The calls that set a process group, a session or a user. -/
def setIds (s : Exits) (p pgrp session euid : ℕ) : Exits :=
  { s with
    tree := { s.tree with table := s.tree.table.setpgid p pgrp }
    session := update s.session p session
    euid := update s.euid p euid }

/-- After `sched_init`: task 0 is in page `z`. -/
def start (z : ℕ) : Exits :=
  ⟨.start z, fun _ => false, fun _ => 0, fun _ => 0, fun _ => 0, fun _ => 0, 1, [], []⟩

end Exits

/-- A call. -/
inductive ExitEvent where
  | fork (cur p : ℕ) (copied : Bool)
  | exit (cur : ℕ) (code : BitVec 32)
  | wait (cur : ℕ) (pid : ℤ) (untraced : Bool)
  | kill (cur : ℕ) (pid sig : ℤ)
  | stop (cur signr : ℕ)
  | setIds (p pgrp session euid : ℕ)

namespace Exits

/-- The call can be made. -/
def Called (s : Exits) : ExitEvent → Prop
  | .fork cur p copied => (TreeEvent.fork cur p copied).Called s.tree
  | .exit cur _ => s.tree.CanExit cur
  | .wait cur _ _ | .kill cur _ _ | .stop cur _ => s.tree.Running cur
  | .setIds p _ _ _ => s.tree.Alive p

def step (s : Exits) : ExitEvent → Option Exits
  | .fork cur p copied => s.fork cur p copied
  | .exit cur code => s.doExit cur code
  | .wait cur pid untraced => s.waitpid cur pid untraced
  | .kill cur pid sig => some (s.kill cur pid sig)
  | .stop cur signr => some (s.stop cur signr)
  | .setIds p pgrp session euid => some (s.setIds p pgrp session euid)

/-- `send_sig` to the task `p` clears no exit code of a zombie. -/
def SendSpares (s : Exits) (cur : ℕ) (sig : ℤ) (priv : Bool) (p : ℕ) : Prop :=
  s.Permits cur p priv → sig = SIGKILL ∨ sig = SIGCONT → s.tree.zombie p = true → s.exitCode p = 0

/-- Nor does the `SIGCONT` to an orphaned group. -/
def GroupSpares (s : Exits) (cur p q : ℕ) : Prop :=
  s.Orphaned p q → ∀ r ∈ s.groupTasks (s.pgrp p) SIGCONT, s.SendSpares cur SIGCONT true r

/-- Nor do those in the loop of `do_exit`. -/
def LoopSpares (s : Exits) (cur init : ℕ) : ℕ → ℕ → Prop
  | 0, _ => True
  | fuel + 1, p =>
    (s.setParent p init).GroupSpares cur p cur ∧
      let s := (s.setParent p init).tellGroup cur p cur
      ∀ q, s.tree.osptr p = some q → s.LoopSpares cur init fuel q

/-- A call clears no exit code of a zombie, but one that is 0. -/
def Spares (s : Exits) : ExitEvent → Prop
  | .kill cur pid sig => ∀ p ∈ s.killTasks cur pid sig, s.SendSpares cur sig false p
  | .exit cur code => ∀ q init, s.tree.pptr cur = some q → s.tree.table.task 1 = some init →
    (s.setZombie cur code).GroupSpares cur cur q ∧
      let s := (s.setZombie cur code).tellGroup cur cur q
      ∀ p, s.tree.cptr cur = some p → s.LoopSpares cur init nrTasks p
  | _ => True

end Exits

/-- The runs from `sched_init` on. -/
def exiting : System Exits ExitEvent where
  init s := ∃ z, s = .start z
  step s e s' := s.Called e ∧ s.step e = some s'

namespace Exits

variable {s s' s'' : Exits} {cur p q r init z : ℕ} {sig : ℤ} {priv : Bool} {code : BitVec 32}

/-! ### What signals keep -/

/-- The two differ in links, in what is stopped and in the exit codes of processes that have not
exited. -/
structure Same (s s' : Exits) : Prop where
  table : s'.tree.table = s.tree.table
  zombie : s'.tree.zombie = s.tree.zombie
  euid : s'.euid = s.euid
  gen : s'.gen = s.gen
  made : s'.made = s.made
  exits : s'.exits = s.exits
  reaps : s'.reaps = s.reaps
  exitCode : ∀ p, s.tree.zombie p = true → s'.exitCode p = s.exitCode p

theorem Same.refl (s : Exits) : s.Same s := ⟨rfl, rfl, rfl, rfl, rfl, rfl, rfl, fun _ _ => rfl⟩

theorem Same.trans (h : s.Same s') (h' : s'.Same s'') : s.Same s'' := by
  refine ⟨h'.table.trans h.table, h'.zombie.trans h.zombie, h'.euid.trans h.euid,
    h'.gen.trans h.gen, h'.made.trans h.made, h'.exits.trans h.exits, h'.reaps.trans h.reaps,
    fun p hp => ?_⟩
  rw [h'.exitCode p (h.zombie ▸ hp), h.exitCode p hp]

@[simp] theorem tree_sendSig (cur : ℕ) (sig : ℤ) (priv : Bool) (s : Exits) (p : ℕ) :
    (sendSig cur sig priv s p).tree = s.tree := by
  rw [sendSig]
  split
  case isTrue => rfl
  case isFalse => rfl

@[simp] theorem tree_foldl (cur : ℕ) (sig : ℤ) (priv : Bool) (l : List ℕ) (s : Exits) :
    (l.foldl (sendSig cur sig priv) s).tree = s.tree := by
  induction l generalizing s with
  | nil => rfl
  | cons p l ih => rw [List.foldl_cons, ih, tree_sendSig]

theorem same_sendSig (h : s.SendSpares cur sig priv p) : s.Same (sendSig cur sig priv s p) := by
  rw [sendSig]
  split
  case isTrue hsent =>
    refine ⟨rfl, rfl, rfl, rfl, rfl, rfl, rfl, fun q hq => ?_⟩
    by_cases heq : q = p
    · subst heq
      rw [h hsent.1 hsent.2 hq]
      exact Function.update_self _ _ _
    · exact Function.update_of_ne heq _ _
  case isFalse => exact .refl s

/-- A signal to one task spares another as before. -/
theorem SendSpares.same (h : s.SendSpares cur sig priv p) (hs : s.Same s') :
    s'.SendSpares cur sig priv p := by
  intro hpermits hsig hzombie
  rw [Permits, hs.euid] at hpermits
  rw [hs.zombie] at hzombie
  rw [hs.exitCode p hzombie]
  exact h hpermits hsig hzombie

theorem same_foldl {l : List ℕ} (h : ∀ p ∈ l, s.SendSpares cur sig priv p) :
    s.Same (l.foldl (sendSig cur sig priv) s) := by
  induction l generalizing s with
  | nil => exact .refl s
  | cons p l ih =>
    have hfirst := same_sendSig (h p List.mem_cons_self)
    exact hfirst.trans (ih fun q hq => (h q (List.mem_cons_of_mem _ hq)).same hfirst)

@[simp] theorem tree_tellGroup (s : Exits) (cur p q : ℕ) : (s.tellGroup cur p q).tree = s.tree := by
  rw [tellGroup]
  split
  case isTrue => rw [killPg, killPg, tree_foldl, tree_foldl]
  case isFalse => rfl

theorem groupTasks_congr (h : s'.tree.table = s.tree.table) (pgrp sig : ℤ) :
    s'.groupTasks pgrp sig = s.groupTasks pgrp sig := by
  have htasks : s'.tasks = s.tasks := by rw [tasks, tasks, h]
  have hpgrp : s'.pgrp = s.pgrp := funext fun p => by rw [Exits.pgrp, Exits.pgrp, h]
  rw [groupTasks, groupTasks, htasks, hpgrp]

theorem same_tellGroup (h : s.GroupSpares cur p q) : s.Same (s.tellGroup cur p q) := by
  rw [tellGroup]
  split
  case isTrue horphaned =>
    -- `SIGHUP` clears nothing
    have hhup : s.Same (s.killPg cur (s.pgrp p) SIGHUP true) :=
      same_foldl fun r _ _ hsig => absurd hsig (by decide)
    refine hhup.trans (same_foldl fun r hr => ?_)
    rw [groupTasks_congr hhup.table] at hr
    exact (h horphaned r hr).same hhup
  case isFalse => exact .refl s

/-! ### `do_exit` -/

/-- What `do_exit` does to the links is what it does in the process tree. -/
theorem exitLoop_spec {fuel : ℕ} (h : s.LoopSpares cur init fuel p)
    (hs : s.exitLoop cur init fuel p = some s') :
    s.tree.exitLoop cur init fuel p = some s'.tree ∧ s.Same s' := by
  induction fuel generalizing s p with
  | zero => cases hs
  | succ fuel ih =>
    obtain ⟨hgroup, hrest⟩ := h
    have hparent : s.Same (s.setParent p init) := ⟨rfl, rfl, rfl, rfl, rfl, rfl, rfl, fun _ _ => rfl⟩
    have hsame := hparent.trans (same_tellGroup hgroup)
    rw [exitLoop] at hs
    rw [Tree.exitLoop]
    dsimp only at hs hrest ⊢
    set s₁ := (s.setParent p init).tellGroup cur p cur with hs₁
    have htree : s₁.tree = { s.tree with pptr := update s.tree.pptr p (some init) } :=
      tree_tellGroup _ _ _ _
    have hosptr : s₁.tree.osptr p = s.tree.osptr p := by rw [htree]
    have hcptr : s₁.tree.cptr init = s.tree.cptr init := by rw [htree]
    rw [hosptr] at hs
    cases hnext : s.tree.osptr p with
    | some q =>
      rw [hnext] at hs
      obtain ⟨hloop, hsame'⟩ := ih (hrest q (hosptr.trans hnext)) hs
      rw [htree] at hloop
      exact ⟨hloop, hsame.trans hsame'⟩
    | none =>
      rw [hnext] at hs
      dsimp only at hs ⊢
      rw [hcptr] at hs
      obtain ⟨c, hc, rfl⟩ := Option.map_eq_some_iff.mp hs
      refine ⟨?_, hsame.trans ⟨rfl, rfl, rfl, rfl, rfl, rfl, rfl, fun _ _ => rfl⟩⟩
      rw [hc, Option.map_some, link, htree]

theorem doExit_spec (h : s.Spares (.exit cur code)) (hs : s.doExit cur code = some s') :
    s.tree.doExit cur = some s'.tree ∧ (s.setZombie cur code).Same s' := by
  rw [doExit] at hs
  rw [Tree.doExit]
  cases hparent : s.tree.pptr cur with
  | none =>
    rw [hparent] at hs
    cases hs
  | some q =>
    cases hinit : s.tree.table.task 1 with
    | none =>
      rw [hparent, hinit] at hs
      cases hs
    | some init =>
      rw [hparent, hinit] at hs
      dsimp only at hs ⊢
      obtain ⟨hgroup, hrest⟩ := h q init hparent hinit
      have hsame := same_tellGroup hgroup
      set s₁ := (s.setZombie cur code).tellGroup cur cur q with hs₁
      have htree : s₁.tree = { s.tree with zombie := update s.tree.zombie cur true } :=
        tree_tellGroup _ _ _ _
      have hcptr : s₁.tree.cptr cur = s.tree.cptr cur := by rw [htree]
      rw [hcptr] at hs
      cases hchild : s.tree.cptr cur with
      | none =>
        rw [hchild] at hs
        obtain rfl := Option.some.inj hs
        exact ⟨congrArg some htree.symm, hsame⟩
      | some p =>
        rw [hchild] at hs
        obtain ⟨hloop, hsame'⟩ := exitLoop_spec (hrest p (hcptr.trans hchild)) hs
        rw [htree] at hloop
        exact ⟨hloop, hsame.trans hsame'⟩

/-! ### The invariant -/

/-- The codes of the processes. -/
structure Codes (s : Exits) : Prop where
  gen_lt : ∀ p, s.tree.Alive p → s.gen p < s.made
  gen_inj : ∀ p q, s.tree.Alive p → s.tree.Alive q → s.gen p = s.gen q → p = q
  made : ∀ e ∈ s.exits, e.1 < s.made
  nodup : (s.exits.map Prod.fst).Nodup
  zombie : ∀ p, s.tree.Alive p → s.tree.zombie p = true → (s.gen p, s.exitCode p) ∈ s.exits
  running : ∀ p, s.tree.Alive p → s.tree.zombie p = false → s.gen p ∉ s.exits.map Prod.fst
  exits : ∀ e ∈ s.exits, e.1 ∈ s.reaps.map Prod.fst ∨
    ∃ p, s.tree.Alive p ∧ s.tree.zombie p = true ∧ s.gen p = e.1
  reaps : ∀ r ∈ s.reaps, r ∈ s.exits
  once : (s.reaps.map Prod.fst).Nodup
  alive : ∀ p, s.tree.Alive p → s.gen p ∉ s.reaps.map Prod.fst

namespace Codes

/-- The tasks and what is kept of zombies stay as they are. -/
theorem keep (h : s.Codes) (halive : ∀ p, s'.tree.Alive p ↔ s.tree.Alive p)
    (hzombie : ∀ p, s.tree.Alive p → s'.tree.zombie p = s.tree.zombie p)
    (hgen : ∀ p, s.tree.Alive p → s'.gen p = s.gen p) (hmade : s.made ≤ s'.made)
    (hexits : s'.exits = s.exits) (hreaps : s'.reaps = s.reaps)
    (hcode : ∀ p, s.tree.Alive p → s.tree.zombie p = true → s'.exitCode p = s.exitCode p) :
    s'.Codes := by
  constructor
  · intro p hp
    have hp := (halive p).mp hp
    rw [hgen p hp]
    exact (h.gen_lt p hp).trans_le hmade
  · intro p q hp hq heq
    have hp := (halive p).mp hp
    have hq := (halive q).mp hq
    rw [hgen p hp, hgen q hq] at heq
    exact h.gen_inj p q hp hq heq
  · rw [hexits]
    exact fun e he => (h.made e he).trans_le hmade
  · rw [hexits]
    exact h.nodup
  · intro p hp hz
    have hp := (halive p).mp hp
    rw [hzombie p hp] at hz
    rw [hgen p hp, hcode p hp hz, hexits]
    exact h.zombie p hp hz
  · intro p hp hz
    have hp := (halive p).mp hp
    rw [hzombie p hp] at hz
    rw [hgen p hp, hexits]
    exact h.running p hp hz
  · rw [hexits, hreaps]
    intro e he
    refine (h.exits e he).imp_right ?_
    rintro ⟨p, hp, hz, hg⟩
    exact ⟨p, (halive p).mpr hp, (hzombie p hp).trans hz, (hgen p hp).trans hg⟩
  · rw [hexits, hreaps]
    exact h.reaps
  · rw [hreaps]
    exact h.once
  · intro p hp
    have hp := (halive p).mp hp
    rw [hgen p hp, hreaps]
    exact h.alive p hp

theorem same (h : s.Codes) (hs : s.Same s') : s'.Codes :=
  h.keep (fun p => by rw [Tree.Alive, Tree.Alive, hs.table]) (fun p _ => by rw [hs.zombie])
    (fun p _ => by rw [hs.gen]) hs.made.ge hs.exits hs.reaps fun p _ hz => hs.exitCode p hz

theorem setZombie (h : s.Codes) (hrun : s.tree.Running cur) (code : BitVec 32) :
    (s.setZombie cur code).Codes := by
  obtain ⟨halive, hzombie⟩ := hrun
  have hz : ∀ p ≠ cur, (s.setZombie cur code).tree.zombie p = s.tree.zombie p := fun p hp =>
    Function.update_of_ne hp _ _
  have hself : (s.setZombie cur code).tree.zombie cur = true := Function.update_self _ _ _
  have hnew := h.running cur halive hzombie
  constructor
  · exact h.gen_lt
  · exact h.gen_inj
  · exact fun e he => (List.mem_cons.mp he).elim (fun heq => heq ▸ h.gen_lt cur halive) (h.made e)
  · exact List.nodup_cons.mpr ⟨hnew, h.nodup⟩
  · intro p hp hzp
    by_cases heq : p = cur
    · subst heq
      have hcode : (s.setZombie p code).exitCode p = code := Function.update_self _ _ _
      rw [hcode]
      exact List.mem_cons_self
    · have hcode : (s.setZombie cur code).exitCode p = s.exitCode p :=
        Function.update_of_ne heq _ _
      rw [hz p heq] at hzp
      rw [hcode]
      exact List.mem_cons_of_mem _ (h.zombie p hp hzp)
  · intro p hp hzp
    have hne : p ≠ cur := fun heq => by
      rw [heq, hself] at hzp
      cases hzp
    rw [hz p hne] at hzp
    intro hmem
    obtain heq | hmem := List.mem_cons.mp hmem
    · exact hne (h.gen_inj p cur hp halive heq)
    · exact h.running p hp hzp hmem
  · intro e he
    obtain rfl | he := List.mem_cons.mp he
    · exact .inr ⟨cur, halive, hself, rfl⟩
    · refine (h.exits e he).imp_right ?_
      rintro ⟨p, hp, hzp, hg⟩
      refine ⟨p, hp, ?_, hg⟩
      rw [hz p, hzp]
      rintro rfl
      rw [hzombie] at hzp
      cases hzp
  · exact fun r hr => List.mem_cons_of_mem _ (h.reaps r hr)
  · exact h.once
  · exact h.alive

/-- A zombie is reaped. -/
theorem reap (h : s.Codes) {tree : Tree} (hp : s.tree.Alive p) (hz : s.tree.zombie p = true)
    (halive : ∀ q, tree.Alive q ↔ s.tree.Alive q ∧ q ≠ p) (hzombie : tree.zombie = s.tree.zombie) :
    ({ s with
      tree := tree
      reaps := (s.gen p, s.exitCode p) :: s.reaps } : Exits).Codes := by
  constructor
  · exact fun q hq => h.gen_lt q ((halive q).mp hq).1
  · exact fun q r hq hr => h.gen_inj q r ((halive q).mp hq).1 ((halive r).mp hr).1
  · exact h.made
  · exact h.nodup
  · exact fun q hq hzq => h.zombie q ((halive q).mp hq).1 (hzombie ▸ hzq)
  · exact fun q hq hzq => h.running q ((halive q).mp hq).1 (hzombie ▸ hzq)
  · intro e he
    obtain hr | ⟨q, hq, hzq, hg⟩ := h.exits e he
    · exact .inl (List.mem_cons_of_mem _ hr)
    · by_cases heq : q = p
      · subst heq
        exact .inl (List.mem_cons.mpr (.inl hg.symm))
      · exact .inr ⟨q, (halive q).mpr ⟨hq, heq⟩, (congrFun hzombie q).trans hzq, hg⟩
  · exact fun r hr => (List.mem_cons.mp hr).elim (fun heq => heq ▸ h.zombie p hp hz) (h.reaps r)
  · exact List.nodup_cons.mpr ⟨h.alive p hp, h.once⟩
  · intro q hq hmem
    obtain ⟨hq, hne⟩ := (halive q).mp hq
    obtain heq | hmem := List.mem_cons.mp hmem
    · exact hne (h.gen_inj q p hq hp heq)
    · exact h.alive q hq hmem

/-- A task that is new is numbered anew. -/
theorem fork (h : s.Codes)
    (hold : ∀ q, s.tree.Alive q → s'.tree.Alive q ∧ q ≠ p ∧ s'.tree.zombie q = s.tree.zombie q)
    (hnew : ∀ q, s'.tree.Alive q → s.tree.Alive q ∨ q = p ∧ s'.tree.zombie q = false)
    (hgen : s'.gen = update s.gen p s.made) (hmade : s'.made = s.made + 1)
    (hexits : s'.exits = s.exits) (hreaps : s'.reaps = s.reaps)
    (hcode : s'.exitCode = update s.exitCode p (s.exitCode cur)) : s'.Codes := by
  have hsame : ∀ q, s.tree.Alive q → s'.gen q = s.gen q := fun q hq => by
    rw [hgen]
    exact Function.update_of_ne (hold q hq).2.1 _ _
  have hself : s'.gen p = s.made := by
    rw [hgen]
    exact Function.update_self _ _ _
  constructor
  · intro q hq
    rw [hmade]
    obtain hq | ⟨rfl, -⟩ := hnew q hq
    · rw [hsame q hq]
      exact (h.gen_lt q hq).trans (Nat.lt_succ_self _)
    · rw [hself]
      exact Nat.lt_succ_self _
  · intro q r hq hr heq
    obtain hq | ⟨rfl, -⟩ := hnew q hq
    · obtain hr | ⟨rfl, -⟩ := hnew r hr
      · rw [hsame q hq, hsame r hr] at heq
        exact h.gen_inj q r hq hr heq
      · rw [hsame q hq, hself] at heq
        exact absurd heq (h.gen_lt q hq).ne
    · obtain hr | ⟨rfl, -⟩ := hnew r hr
      · rw [hsame r hr, hself] at heq
        exact absurd heq.symm (h.gen_lt r hr).ne
      · rfl
  · rw [hexits, hmade]
    exact fun e he => (h.made e he).trans (Nat.lt_succ_self _)
  · rw [hexits]
    exact h.nodup
  · intro q hq hz
    obtain hq | ⟨-, hnot⟩ := hnew q hq
    · rw [(hold q hq).2.2] at hz
      have hcode' : s'.exitCode q = s.exitCode q := by
        rw [hcode]
        exact Function.update_of_ne (hold q hq).2.1 _ _
      rw [hsame q hq, hcode', hexits]
      exact h.zombie q hq hz
    · rw [hnot] at hz
      cases hz
  · intro q hq hz
    rw [hexits]
    obtain hq | ⟨rfl, -⟩ := hnew q hq
    · rw [(hold q hq).2.2] at hz
      rw [hsame q hq]
      exact h.running q hq hz
    · rw [hself]
      intro hmem
      obtain ⟨e, he, heq⟩ := List.mem_map.mp hmem
      exact (h.made e he).ne heq
  · rw [hexits, hreaps]
    intro e he
    refine (h.exits e he).imp_right ?_
    rintro ⟨q, hq, hz, hg⟩
    exact ⟨q, (hold q hq).1, (hold q hq).2.2.trans hz, (hsame q hq).trans hg⟩
  · rw [hexits, hreaps]
    exact h.reaps
  · rw [hreaps]
    exact h.once
  · intro q hq
    rw [hreaps]
    obtain hq | ⟨rfl, -⟩ := hnew q hq
    · rw [hsame q hq]
      exact h.alive q hq
    · rw [hself]
      intro hmem
      obtain ⟨r, hr, heq⟩ := List.mem_map.mp hmem
      exact (h.made r (h.reaps r hr)).ne heq

end Codes

end Exits

namespace Tree

variable {s s' : Tree} {cur p q z : ℕ}

/-- The tasks after `fork`. -/
theorem fork_alive {copied : Bool} (h : s.Family z) (hc : s.Alive cur)
    (hp : s.table.page p = none) (hs : s.fork cur p copied = some s') :
    (∀ q, s.Alive q → s'.Alive q ∧ q ≠ p ∧ s'.zombie q = s.zombie q) ∧
      ∀ q, s'.Alive q → s.Alive q ∨ q = p ∧ s'.zombie q = false := by
  have hpa := h.not_alive hp
  have hne : ∀ q, s.Alive q → q ≠ p := fun q hq heq => hpa (heq ▸ hq)
  rw [Tree.fork] at hs
  split at hs
  case h_1 t nr table hpage hfind =>
    obtain ⟨hnr, x, hx, hlt, rfl⟩ := Table.findEmptyProcess_spec hfind
    have hslot := (Table.findSlot_spec hnr.symm).2
    split at hs
    case isTrue =>
      obtain rfl := Option.some.inj hs
      rw [Family.link_copyStruct (hne cur hc)]
      set s₁ : Tree := { s with table := { s.table with lastPid := x } } with hs₁
      refine ⟨fun q hq => ⟨?_, hne q hq, ?_⟩, fun q hq => ?_⟩
      · exact (Family.alive_store (s := s₁) hslot rfl q).mpr (.inr hq)
      · exact Function.update_of_ne (hne q hq) _ _
      · obtain rfl | hq := (Family.alive_store (s := s₁) hslot rfl q).mp hq
        · exact .inr ⟨rfl, Function.update_self _ _ _⟩
        · exact .inl hq
    case isFalse =>
      obtain rfl := Option.some.inj hs
      exact ⟨fun q hq => ⟨hq, hne q hq, Function.update_of_ne (hne q hq) _ _⟩, fun q hq => .inl hq⟩
  case h_2 t table hpage hfind =>
    obtain rfl := Option.some.inj hs
    obtain ⟨-, x, -, -, rfl⟩ := Table.findEmptyProcess_spec hfind
    exact ⟨fun q hq => ⟨hq, hne q hq, rfl⟩, fun q hq => .inl hq⟩
  case h_3 => cases hs

theorem unlink_table (hs : s.unlink p = some s') :
    s'.table = s.table ∧ s'.zombie = s.zombie := by
  rw [unlink] at hs
  dsimp only at hs
  split at hs
  case h_1 =>
    obtain rfl := Option.some.inj hs
    exact ⟨rfl, rfl⟩
  case h_2 =>
    obtain ⟨q, -, rfl⟩ := Option.map_eq_some_iff.mp hs
    exact ⟨rfl, rfl⟩

/-- The tasks after `release`. -/
theorem release_alive (h : s.Family z) (hs : s.release p = some s') :
    s'.zombie = s.zombie ∧ ∀ q, s'.Alive q ↔ s.Alive q ∧ q ≠ p := by
  obtain ⟨i, hfind, hs⟩ := Option.bind_eq_some_iff.mp hs
  have hi : s.table.task i = some p := by simpa using List.find?_some hfind
  obtain ⟨htable, hzombie⟩ := unlink_table hs
  refine ⟨hzombie, fun q => ?_⟩
  rw [Alive, htable]
  constructor
  · rintro ⟨j, hj⟩
    rw [Table.task_remove] at hj
    split at hj
    case isTrue => cases hj
    case isFalse hne =>
      refine ⟨⟨j, hj⟩, ?_⟩
      rintro rfl
      exact hne (h.ordered.slot j i q hj hi)
  · rintro ⟨⟨j, hj⟩, hne⟩
    refine ⟨j, ?_⟩
    rw [Table.task_remove, if_neg, hj]
    rintro rfl
    exact hne (Option.some.inj (hj.symm.trans hi))

theorem Family.setpgid (h : s.Family z) (p pgrp : ℕ) :
    ({ s with table := s.table.setpgid p pgrp } : Tree).Family z :=
  h.congr rfl (h.ordered.setpgid p pgrp) h.lastPid fun _ _ => ⟨rfl, rfl, rfl, rfl, rfl⟩

end Tree

namespace Exits

variable {s s' : Exits} {cur p z fuel : ℕ} {pid : ℤ} {untraced flag : Bool} {a : Option ℕ}
  {l : List ℕ} {e : ExitEvent}

/-- The zombie that the loop stops at is a child. -/
theorem waitLoop_zombie (h : IsList s.tree.osptr a l)
    (hs : s.waitLoop cur pid untraced fuel a flag = .zombie p) :
    p ∈ l ∧ s.tree.zombie p = true := by
  induction fuel generalizing a l flag with
  | zero => cases hs
  | succ fuel ih =>
    cases l with
    | nil =>
      rw [Links.seg_nil.mp h] at hs
      cases hs
    | cons q l =>
      obtain ⟨rfl, hl⟩ := h
      have hnext : ∀ flag', s.waitLoop cur pid untraced fuel (s.tree.osptr q) flag' = .zombie p →
          p ∈ q :: l ∧ s.tree.zombie p = true := fun flag' hs' =>
        (ih hl hs').imp_left (List.mem_cons_of_mem _)
      rw [waitLoop] at hs
      split at hs
      case isTrue => exact hnext _ hs
      split at hs
      case isTrue hzombie =>
        obtain rfl := Found.zombie.inj hs
        exact ⟨List.mem_cons_self, hzombie⟩
      split at hs
      case isTrue =>
        split at hs
        case isTrue => exact hnext _ hs
        case isFalse => cases hs
      case isFalse => exact hnext _ hs

/-- The child whose stop is reported is no zombie. -/
theorem waitLoop_stopped (hs : s.waitLoop cur pid untraced fuel a flag = .stopped p) :
    s.tree.zombie p = false := by
  induction fuel generalizing a flag with
  | zero => cases hs
  | succ fuel ih =>
    cases a with
    | none => cases hs
    | some q =>
      rw [waitLoop] at hs
      split at hs
      case isTrue => exact ih hs
      split at hs
      case isTrue => cases hs
      case isFalse hzombie =>
        split at hs
        case isTrue =>
          split at hs
          case isTrue => exact ih hs
          case isFalse =>
            obtain rfl := Found.stopped.inj hs
            exact Bool.eq_false_iff.mpr hzombie
        case isFalse => exact ih hs

/-- A change that leaves the processes that have exited as they are. -/
theorem Codes.others (h : s.Codes) (htask : s'.tree.table.task = s.tree.table.task)
    (hzombie : s'.tree.zombie = s.tree.zombie) (hgen : s'.gen = s.gen) (hmade : s'.made = s.made)
    (hexits : s'.exits = s.exits) (hreaps : s'.reaps = s.reaps)
    (hcode : ∀ p, s.tree.zombie p = true → s'.exitCode p = s.exitCode p) : s'.Codes :=
  h.keep (fun p => by rw [Tree.Alive, Tree.Alive, htask]) (fun p _ => by rw [hzombie])
    (fun p _ => by rw [hgen]) hmade.ge hexits hreaps fun p _ hz => hcode p hz

theorem Codes.step (h : s.Codes) (hf : s.tree.Family z) (hspares : s.Spares e)
    (hcalled : s.Called e) (hs : s.step e = some s') : s'.Codes ∧ s'.tree.Family z := by
  cases e with
  | fork cur p copied =>
    obtain ⟨tree, hfork, rfl⟩ := Option.map_eq_some_iff.mp hs
    obtain ⟨hold, hnew⟩ := Tree.fork_alive hf hcalled.1.1 hcalled.2.1 hfork
    exact ⟨h.fork hold hnew rfl rfl rfl rfl rfl,
      hf.fork hcalled.1 hcalled.2.1 hcalled.2.2 hfork⟩
  | exit cur code =>
    obtain ⟨hexit, hsame⟩ := doExit_spec hspares hs
    obtain ⟨tree, htree, hf'⟩ := hf.exit hcalled
    rw [hexit] at htree
    exact ⟨(h.setZombie hcalled.1 code).same hsame, Option.some.inj htree ▸ hf'⟩
  | wait cur pid untraced =>
    obtain ⟨l, hk⟩ := hf.kids cur hcalled.1
    have hs : s.waitpid cur pid untraced = some s' := hs
    rw [waitpid] at hs
    split at hs
    case h_1 p hloop =>
      obtain ⟨hp, hzombie⟩ := waitLoop_zombie hk.dll.list hloop
      obtain ⟨tree, hrelease, rfl⟩ := Option.map_eq_some_iff.mp hs
      obtain ⟨hkept, halive⟩ := Tree.release_alive hf hrelease
      exact ⟨h.reap (Tree.Family.alive_of_kid hk hp) hzombie halive hkept,
        hf.release hcalled.1 hk hp hzombie hrelease⟩
    case h_2 p hloop =>
      obtain rfl := Option.some.inj hs
      have hrun := waitLoop_stopped hloop
      refine ⟨h.others rfl rfl rfl rfl rfl rfl fun q hq => Function.update_of_ne ?_ _ _, hf⟩
      rintro rfl
      rw [hrun] at hq
      cases hq
    case h_3 => exact Option.some.inj hs ▸ ⟨h, hf⟩
  | kill cur pid sig =>
    obtain rfl := Option.some.inj hs
    refine ⟨h.same (same_foldl hspares), ?_⟩
    show (s.kill cur pid sig).tree.Family z
    rw [kill, tree_foldl]
    exact hf
  | stop cur signr =>
    obtain rfl := Option.some.inj hs
    refine ⟨h.others rfl rfl rfl rfl rfl rfl fun q hq => Function.update_of_ne ?_ _ _, hf⟩
    rintro rfl
    rw [hcalled.2] at hq
    cases hq
  | setIds p pgrp session euid =>
    obtain rfl := Option.some.inj hs
    exact ⟨h.others rfl rfl rfl rfl rfl rfl fun _ _ => rfl, hf.setpgid p pgrp⟩

theorem Codes.start (z : ℕ) : (Exits.start z).Codes := by
  have hone : ∀ p, (Exits.start z).tree.Alive p → p = z := by
    rintro p ⟨i, hi⟩
    simp only [Exits.start, Tree.start, Forks.start] at hi
    split at hi
    case isTrue => exact (Option.some.inj hi).symm
    case isFalse => cases hi
  refine ⟨fun _ _ => Nat.one_pos, fun p q hp hq _ => (hone p hp).trans (hone q hq).symm,
    fun _ he => absurd he List.not_mem_nil, List.nodup_nil, fun _ _ hz => ?_,
    fun _ _ _ => List.not_mem_nil, fun _ he => absurd he List.not_mem_nil,
    fun _ hr => absurd hr List.not_mem_nil, List.nodup_nil, fun _ _ => List.not_mem_nil⟩
  cases hz

theorem codes_of_reach (h : exiting.Reach Spares s) : s.Codes ∧ ∃ z, s.tree.Family z := by
  refine h.invariant (I := fun s => s.Codes ∧ ∃ z, s.tree.Family z) ?_ ?_
  · rintro s ⟨z, rfl⟩
    exact ⟨.start z, z, Tree.Family.start z⟩
  · rintro s e s' ⟨hcodes, z, hf⟩ hspares ⟨hcalled, hs⟩
    obtain ⟨hcodes', hf'⟩ := hcodes.step hf hspares hcalled hs
    exact ⟨hcodes', z, hf'⟩

end Exits

/-- In every run in which no `SIGKILL` and no `SIGCONT` comes to a zombie whose exit code is not 0,
a process gives a code to `do_exit` once, `sys_waitpid` stores this code for it, and it is either
reaped once, or it is not reaped and still a zombie among the children of its parent. -/
theorem exit_status {s : Exits} (h : exiting.Reach Exits.Spares s) :
    (s.exits.map Prod.fst).Nodup ∧ (∀ r ∈ s.reaps, r ∈ s.exits) ∧
      ∀ e ∈ s.exits, (s.reaps.map Prod.fst).count e.1 = 1 ∨
        (s.reaps.map Prod.fst).count e.1 = 0 ∧ ∃ p q l, s.gen p = e.1 ∧ s.tree.zombie p = true ∧
          s.tree.Alive q ∧ IsList s.tree.osptr (s.tree.cptr q) l ∧ p ∈ l := by
  obtain ⟨hcodes, z, hf⟩ := Exits.codes_of_reach h
  refine ⟨hcodes.nodup, hcodes.reaps, fun e he => ?_⟩
  obtain hreaped | ⟨p, hp, hzombie, hgen⟩ := hcodes.exits e he
  · exact .inl (List.count_eq_one_of_mem hcodes.once hreaped)
  · refine .inr ⟨List.count_eq_zero.mpr (hgen ▸ hcodes.alive p hp), ?_⟩
    obtain ⟨q, hq, hqa⟩ := hf.parent p hp
    obtain ⟨l, hk⟩ := hf.kids q hqa
    refine ⟨p, q, l, hgen, hzombie, hqa, hk.dll.list, (hk.mem p).mpr ⟨hp, ?_, hq⟩⟩
    rintro rfl
    rw [hf.rootRuns] at hzombie
    cases hzombie

/-! ### A child of init -/

namespace Exits

/-- `p` is in one of the slots. -/
def inSlot (s : Exits) (p : ℕ) : Bool := (List.range nrTasks).any fun i => s.tree.table.task i = some p

/-- The call can be made. -/
def calls (s : Exits) : ExitEvent → Bool
  | .fork cur p _ => s.inSlot cur && !s.tree.zombie cur && (s.tree.table.page p).isNone &&
    (s.tree.table.task 0 ≠ some cur || (s.tree.table.task 1).isNone)
  | .exit cur _ => s.inSlot cur && !s.tree.zombie cur && s.tree.table.task 0 ≠ some cur &&
    s.tree.table.task 1 ≠ some cur
  | .wait cur _ _ | .kill cur _ _ | .stop cur _ => s.inSlot cur && !s.tree.zombie cur
  | .setIds p _ _ _ => s.inSlot p

theorem alive_of_inSlot {s : Exits} {p : ℕ} (h : s.inSlot p = true) : s.tree.Alive p := by
  obtain ⟨i, -, hi⟩ := List.any_eq_true.mp h
  exact ⟨i, of_decide_eq_true hi⟩

theorem called_of_calls {s : Exits} {e : ExitEvent} (h : s.calls e = true) : s.Called e := by
  cases e with
  | fork cur p copied =>
    simp only [calls, Bool.and_eq_true, Bool.not_eq_true', Option.isNone_iff_eq_none,
      Bool.or_eq_true, decide_eq_true_eq] at h
    obtain ⟨⟨⟨hslot, hrun⟩, hpage⟩, hroot⟩ := h
    exact ⟨⟨alive_of_inSlot hslot, hrun⟩, hpage, fun heq => hroot.resolve_left (not_not_intro heq)⟩
  | exit cur code =>
    simp only [calls, Bool.and_eq_true, Bool.not_eq_true', decide_eq_true_eq] at h
    obtain ⟨⟨⟨hslot, hrun⟩, hroot⟩, hinit⟩ := h
    exact ⟨⟨alive_of_inSlot hslot, hrun⟩, hroot, hinit⟩
  | wait cur pid untraced =>
    simp only [calls, Bool.and_eq_true, Bool.not_eq_true'] at h
    exact ⟨alive_of_inSlot h.1, h.2⟩
  | kill cur pid sig =>
    simp only [calls, Bool.and_eq_true, Bool.not_eq_true'] at h
    exact ⟨alive_of_inSlot h.1, h.2⟩
  | stop cur signr =>
    simp only [calls, Bool.and_eq_true, Bool.not_eq_true'] at h
    exact ⟨alive_of_inSlot h.1, h.2⟩
  | setIds p pgrp session euid => exact alive_of_inSlot h

/-- A call that can be made. -/
def next (s : Exits) (e : ExitEvent) : Option Exits := if s.calls e then s.step e else none

theorem step_of_next {s s' : Exits} {e : ExitEvent} (h : s.next e = some s') :
    exiting.step s e s' := by
  rw [next] at h
  split at h
  case isTrue hcalls => exact ⟨called_of_calls hcalls, h⟩
  case isFalse => cases h

/-- Init has a child. -/
def forks : List ExitEvent := [.fork 8 9 true, .fork 9 10 true]

end Exits

/-- The child exits, init sends it `SIGCONT`, and waits for it: the status is 0. -/
theorem sigcont_clears :
    ¬ ∀ s, exiting.Reachable s → ∀ r ∈ s.reaps, r ∈ s.exits := by
  intro h
  have hrun : (System.runOf Exits.next (Exits.forks ++
      [.exit 10 0x100, .kill 9 2 SIGCONT, .wait 9 (-1) false]) (.start 8)).any (fun s =>
        decide (s.reaps = [(2, 0)] ∧ s.exits = [(2, 0x100)])) = true := by
    decide +kernel
  obtain ⟨s, hs, hrun⟩ := (Option.any_eq_true _ _).mp hrun
  obtain ⟨hreaps, hexits⟩ := of_decide_eq_true hrun
  have hreach : exiting.Reachable s := System.Reach.of_runOf (fun _ _ _ => Exits.step_of_next)
    (fun _ _ _ => trivial) (.init ⟨8, rfl⟩) hs
  have hmem := h s hreach (2, 0) (by rw [hreaps]; exact List.mem_singleton_self _)
  rw [hexits] at hmem
  revert hmem
  decide

/-- Without the signal it is the code. -/
theorem exit_status_waited : ∃ s : Exits, s.reaps = [(2, 0x100)] ∧ (2, 0x100) ∈ s.exits := by
  have hforks : (System.runOf Exits.next Exits.forks (.start 8)).any (fun s₁ =>
      decide (¬ (s₁.setZombie 10 0x100).Orphaned 10 9 ∧ s₁.tree.cptr 10 = none ∧
        s₁.tree.pptr 10 = some 9) &&
      (s₁.next (.exit 10 0x100)).any fun s₂ =>
        (s₂.next (.wait 9 (-1) false)).any fun s => decide (s.reaps = [(2, 0x100)])) = true := by
    decide +kernel
  obtain ⟨s₁, h₁, hrest⟩ := (Option.any_eq_true _ _).mp hforks
  obtain ⟨hspares, hrest⟩ := Bool.and_eq_true_iff.mp hrest
  obtain ⟨horphaned, hchild, hparent⟩ := of_decide_eq_true hspares
  obtain ⟨s₂, h₂, hrest⟩ := (Option.any_eq_true _ _).mp hrest
  obtain ⟨s, h₃, hreaps⟩ := (Option.any_eq_true _ _).mp hrest
  have hreaps := of_decide_eq_true hreaps
  have hreach₁ : exiting.Reach Exits.Spares s₁ := System.Reach.of_runOf
    (fun _ _ _ => Exits.step_of_next) (fun e he s => by
      simp only [Exits.forks, List.mem_cons, List.not_mem_nil, or_false] at he
      obtain rfl | rfl := he <;> trivial) (.init ⟨8, rfl⟩) h₁
  have hexit : s₁.Spares (.exit 10 0x100) := by
    intro q init hq _
    obtain rfl := Option.some.inj (hparent.symm.trans hq)
    refine ⟨fun hcase => absurd hcase horphaned, ?_⟩
    intro s' p hp
    have hnone : s'.tree.cptr 10 = none := by rw [Exits.tree_tellGroup, ← hchild]; rfl
    rw [hnone] at hp
    cases hp
  have hreach := (hreach₁.step hexit (Exits.step_of_next h₂)).step (a := ExitEvent.wait 9 (-1) false)
    trivial (Exits.step_of_next h₃)
  refine ⟨s, hreaps, (exit_status hreach).2.1 (2, 0x100) ?_⟩
  rw [hreaps]
  exact List.mem_singleton_self _

end Sched
