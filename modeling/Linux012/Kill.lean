/-
Whom `kill` signals (`sys_kill`, `kill_pg`, `kill_proc` and `send_sig` of kernel/exit.c).

* `Process`, `Table` — the task structures, and the task table;
* `sendSig`, `killPg`, `killProc`, `sysKill` — the functions, with what they read and send;
* `Target` — the processes that the comment of `sys_kill` names and the caller may signal;
* `kill_targets` — exactly these are signalled, with 0 returned, if and only if no loop comes to
  an empty slot, the caller leads its group if the group is meant, and the signal number is
  checked and all processes may be signalled if all are meant;
* `kill_group_missed` — the child of a shell that signals its group.

Design notes: pointers to tasks are slots, and a null pointer reads the page directory at
address 0.  `Run` keeps which empty slots have been read through, which slots have been sent the
signal, and the indices of `sigaction`.
-/
import Linux012.Signals
import Linux012.Sessions

namespace Kill

open Function (update)
open Signals (bit SIGKILL SIGCONT SIGSTOP SIGTSTP SIGTTIN SIGTTOU)
open Sessions (slots EPERM ESRCH EINVAL)

/-- What `kill` reads and writes of a `task_struct`. -/
structure Process extends Signals.Task where
  pid : ℤ
  pgrp : ℤ
  /-- `pgrp` is a long -/
  pgrp_lt : pgrp < 2 ^ 31
  euid : ℕ
  /-- what stands where `sigaction` would have other indices -/
  beyond : ℤ → BitVec 32

/-- The task table. -/
structure Table where
  task : ℕ → Option Process
  /-- what a null pointer reads as `pid` and as `pgrp` -/
  lowPid : ℤ
  lowPgrp : ℤ

/-- A process of the table that calls `kill`. -/
structure Caller (s : Table) where
  slot : ℕ
  slot_mem : slot ∈ slots
  proc : Process
  task_slot : s.task slot = some proc
  pid_pos : 0 < proc.pid

/-- The tasks during a call, and what the call has done. -/
structure Run where
  task : ℕ → Option Process
  nulls : List ℕ
  sent : List ℕ
  indices : List ℤ

namespace Process

/-- `sigaction[i].sa_handler`. -/
def handlerAt (t : Process) (i : ℤ) : BitVec 32 :=
  if 0 ≤ i ∧ i < 32 then (t.sigaction (i + 1).toNat).handler else t.beyond i

/-- `1 << (sig - 1)`. -/
def sigBit (sig : ℤ) : BitVec 32 := 1#32 <<< ((sig - 1) % 32).toNat

/-- `send_sig` from the test of `SIGKILL` on. -/
def post (t : Process) (sig : ℤ) : Process :=
  let t :=
    if sig = SIGKILL ∨ sig = SIGCONT then
      { t with
        state := if t.state = .stopped then .running else t.state
        exitCode := 0
        signal := t.signal &&& ~~~(bit SIGSTOP ||| bit SIGTSTP ||| bit SIGTTIN ||| bit SIGTTOU) }
    else t
  if t.handlerAt (sig - 1) = 1 then t
  else
    let t := if (SIGSTOP : ℤ) ≤ sig ∧ sig ≤ SIGTTOU then
      { t with signal := t.signal &&& ~~~bit SIGCONT } else t
    { t with signal := t.signal ||| sigBit sig }

/-- The caller may signal the process. -/
def may (cur t : Process) : Bool := cur.euid == t.euid || cur.euid == 0

end Process

namespace Run

/-- The signal is sent to the process in a slot. -/
def post (r : Run) (sig : ℤ) (k : ℕ) : Run :=
  { r with
    task := update r.task k ((r.task k).map fun t => t.post sig)
    sent := r.sent ++ [k]
    indices := r.indices ++ [sig - 1] }

/-- `send_sig`. -/
def sendSig (r : Run) (cur : Process) (sig : ℤ) (k : ℕ) (priv : Bool) : ℤ × Run :=
  match r.task k with
  | none => (-EINVAL, r)
  | some t =>
    if priv = false ∧ cur.euid ≠ t.euid ∧ cur.euid ≠ 0 then (-EPERM, r) else (0, r.post sig k)

/-- A field of `*p`, for the pointer in slot `k`. -/
def field (r : Run) (low : ℤ) (f : Process → ℤ) (k : ℕ) : ℤ × Run :=
  match r.task k with
  | none => (low, { r with nulls := r.nulls ++ [k] })
  | some t => (f t, r)

/-- The loop of `kill_pg`: `found`, and `retval`. -/
def groupLoop (low : ℤ) (cur : Process) (pgrp sig : ℤ) (priv : Bool) :
    List ℕ → ℕ → ℤ → Run → ℕ × ℤ × Run
  | [], found, retval, r => (found, retval, r)
  | k :: ks, found, retval, r =>
    let (here, r) := r.field low Process.pgrp k
    if here = pgrp then
      let (err, r) := if sig ≠ 0 then r.sendSig cur sig k priv else (0, r)
      if err ≠ 0 then groupLoop low cur pgrp sig priv ks found err r
      else groupLoop low cur pgrp sig priv ks (found + 1) retval r
    else groupLoop low cur pgrp sig priv ks found retval r

/-- `kill_pg`. -/
def killPg (r : Run) (low : ℤ) (cur : Process) (pgrp sig : ℤ) (priv : Bool) : ℤ × Run :=
  if sig < 1 ∨ 32 < sig ∨ pgrp ≤ 0 then (-EINVAL, r)
  else
    let (found, retval, r) := groupLoop low cur pgrp sig priv slots 0 (-ESRCH) r
    (if found ≠ 0 then 0 else retval, r)

/-- The loop of `kill_proc`. -/
def procLoop (low : ℤ) (cur : Process) (pid sig : ℤ) (priv : Bool) : List ℕ → Run → ℤ × Run
  | [], r => (-ESRCH, r)
  | k :: ks, r =>
    let (here, r) := r.field low Process.pid k
    if here = pid then if sig ≠ 0 then r.sendSig cur sig k priv else (0, r)
    else procLoop low cur pid sig priv ks r

/-- `kill_proc`. -/
def killProc (r : Run) (low : ℤ) (cur : Process) (pid sig : ℤ) (priv : Bool) : ℤ × Run :=
  if sig < 1 ∨ 32 < sig then (-EINVAL, r) else procLoop low cur pid sig priv slots r

/-- The loop of `sys_kill` over all processes. -/
def allLoop (cur : Process) (sig : ℤ) : List ℕ → ℤ → Run → ℤ × Run
  | [], retval, r => (retval, r)
  | k :: ks, retval, r =>
    let (err, r) := r.sendSig cur sig k false
    allLoop cur sig ks (if err ≠ 0 then err else retval) r

end Run

/-- `sys_kill`. -/
def sysKill (s : Table) (cur : Process) (pid sig : BitVec 32) : ℤ × Run :=
  let r : Run := ⟨s.task, [], [], []⟩
  if pid = 0 then r.killPg s.lowPgrp cur cur.pid sig.toInt false
  else if pid = -1 then r.allLoop cur sig.toInt slots 0
  else if pid.toInt < 0 then r.killPg s.lowPgrp cur (-pid).toInt sig.toInt false
  else r.killProc s.lowPid cur pid.toInt sig.toInt false

/-! ### Who is meant -/

/-- The processes that the comment of `sys_kill` names. -/
def Named (cur : Process) (pid : ℤ) (t : Process) : Prop :=
  if 0 < pid then t.pid = pid
  else if pid = 0 then t.pgrp = cur.pgrp
  else if pid = -1 then True
  else t.pgrp = -pid

/-- A signal number. -/
def Valid (sig : BitVec 32) : Prop := 1 ≤ sig.toInt ∧ sig.toInt ≤ 32

namespace Table

variable (s : Table)

/-- The process in a slot is to be signalled. -/
def Target (cur : Process) (pid sig : BitVec 32) (k : ℕ) : Prop :=
  Valid sig ∧ k ∈ slots ∧ ∃ t, s.task k = some t ∧ Named cur pid.toInt t ∧ cur.may t = true

/-- No slot that the loops look at is empty. -/
def Full : Prop := ∀ k ∈ slots, s.task k ≠ none

end Table

/-- A call signals exactly the processes that it should, once each, and returns 0 if there are
any; it reads through no empty slot, and `sigaction` only where it is. -/
structure Meets (s : Table) (cur : Process) (pid sig : BitVec 32) (r : ℤ × Run) : Prop where
  nulls : r.2.nulls = []
  indices : ∀ i ∈ r.2.indices, 0 ≤ i ∧ i < 32
  once : r.2.sent.Nodup
  sent : ∀ k, k ∈ r.2.sent ↔ s.Target cur pid sig k
  posted : ∀ k, s.Target cur pid sig k → r.2.task k = (s.task k).map fun t => t.post sig.toInt
  others : ∀ k, ¬ s.Target cur pid sig k → r.2.task k = s.task k
  returns : r.2.sent ≠ [] → r.1 = 0

/-- A process is looked for, and no slot above it is empty, nor is one above a target taken by
another process with its number. -/
def FindsFirst (s : Table) (cur : Process) (pid sig : BitVec 32) : Prop :=
  (∀ k ∈ slots, s.task k = none →
    ∃ j ∈ slots, k < j ∧ ∃ t, s.task j = some t ∧ t.pid = pid.toInt) ∧
  ∀ k, s.Target cur pid sig k → ∀ j ∈ slots, ∀ t, s.task j = some t → t.pid = pid.toInt → j ≤ k

/-- The calls that do what the comment says. -/
def Proper (s : Table) (cur : Process) (pid sig : BitVec 32) : Prop :=
  if pid = 0 then Valid sig → s.Full ∧ cur.pid = cur.pgrp
  else if pid = -1 then Valid sig ∧ ∀ k ∈ slots, ∃ t, s.task k = some t ∧ cur.may t = true
  else if pid.toInt < 0 then Valid sig → pid.toInt ≠ -2 ^ 31 → s.Full
  else Valid sig → FindsFirst s cur pid sig

/-! ### What is sent -/

section

variable {s : Table} {r : Run} {cur t : Process} {pid sig : ℤ} {k j : ℕ} {ks l ns : List ℕ}

/-- A signal changes no number of a process. -/
theorem Process.post_ids (t : Process) (sig : ℤ) :
    (t.post sig).pid = t.pid ∧ (t.post sig).pgrp = t.pgrp ∧ (t.post sig).euid = t.euid := by
  rw [post]
  split_ifs <;> exact ⟨rfl, rfl, rfl⟩

theorem Process.may_post (cur t : Process) (sig : ℤ) : cur.may (t.post sig) = cur.may t := by
  rw [may, may, (t.post_ids sig).2.2]

namespace Run

/-- The processes of `Q` that the caller may signal. -/
def picks (r : Run) (cur : Process) (Q : Process → Bool) (k : ℕ) : Bool :=
  (r.task k).any fun t => Q t && cur.may t

/-- `Q` is about the numbers of a process. -/
def Stable (Q : Process → Bool) : Prop := ∀ t sig, Q (t.post sig) = Q t

theorem picks_post {Q : Process → Bool} (hQ : Stable Q) :
    (r.post sig j).picks cur Q = r.picks cur Q := by
  funext k
  rw [picks, picks, post]
  by_cases hk : k = j
  · subst hk
    simp only [Function.update_self]
    cases r.task k with
    | none => rfl
    | some t => simp [hQ t sig, cur.may_post t sig]
  · simp only [Function.update_of_ne hk]

/-- The signal is sent to processes one after the other. -/
def posts (r : Run) (sig : ℤ) (l : List ℕ) : Run := l.foldl (fun r k => r.post sig k) r

/-- Empty slots have been read through. -/
def noted (r : Run) (ns : List ℕ) : Run := { r with nulls := r.nulls ++ ns }

theorem posts_nulls : (r.posts sig l).nulls = r.nulls := by
  induction l generalizing r with
  | nil => rfl
  | cons k l ih => exact (ih (r := r.post sig k)).trans rfl

theorem posts_sent : (r.posts sig l).sent = r.sent ++ l := by
  induction l generalizing r with
  | nil => exact (List.append_nil _).symm
  | cons k l ih =>
    refine (ih (r := r.post sig k)).trans ?_
    rw [post, List.append_assoc]
    rfl

theorem posts_indices : (r.posts sig l).indices = r.indices ++ l.map fun _ => sig - 1 := by
  induction l generalizing r with
  | nil => exact (List.append_nil _).symm
  | cons k l ih =>
    refine (ih (r := r.post sig k)).trans ?_
    rw [post, List.append_assoc]
    rfl

theorem posts_task_of_notMem (hk : k ∉ l) : (r.posts sig l).task k = r.task k := by
  induction l generalizing r with
  | nil => rfl
  | cons j l ih =>
    rw [List.mem_cons, not_or] at hk
    exact (ih (r := r.post sig j) hk.2).trans (Function.update_of_ne hk.1 _ _)

theorem posts_task_of_mem (hl : l.Nodup) (hk : k ∈ l) :
    (r.posts sig l).task k = (r.task k).map fun t => t.post sig := by
  induction l generalizing r with
  | nil => cases hk
  | cons j l ih =>
    obtain ⟨hj, hl⟩ := List.nodup_cons.mp hl
    rcases List.mem_cons.mp hk with rfl | hk
    · exact (posts_task_of_notMem hj).trans (Function.update_self _ _ _)
    · have hne : k ≠ j := fun heq => hj (heq ▸ hk)
      refine (ih (r := r.post sig j) hl hk).trans ?_
      exact congrArg (Option.map _) (Function.update_of_ne hne _ _)

theorem posts_noted : (r.noted ns).posts sig l = (r.posts sig l).noted ns := by
  induction l generalizing r with
  | nil => rfl
  | cons k l ih => exact ih (r := r.post sig k)

theorem noted_noted {ms : List ℕ} : (r.noted ns).noted ms = r.noted (ns ++ ms) := by
  rw [noted, noted, noted, List.append_assoc]

/-! ### The loops -/

/-- `send_sig`, to a process that the caller may signal or not. -/
theorem sendSig_some (ht : r.task k = some t) :
    r.sendSig cur sig k false = if cur.may t then (0, r.post sig k) else (-EPERM, r) := by
  rw [sendSig, ht]
  dsimp only
  by_cases hmay : cur.may t = true
  · rw [if_pos hmay, if_neg]
    simp only [Process.may, Bool.or_eq_true, beq_iff_eq] at hmay
    omega
  · rw [if_neg hmay, if_pos]
    simp only [Process.may, Bool.or_eq_true, beq_iff_eq, not_or] at hmay
    exact ⟨rfl, hmay⟩

/-- The slots that are empty stay so. -/
theorem isNone_post : (((r.post sig j).task k).isNone) = (r.task k).isNone := by
  rw [post]
  by_cases hk : k = j
  · subst hk
    simp only [Function.update_self]
    cases r.task k <;> rfl
  · simp only [Function.update_of_ne hk]

theorem field_none {low : ℤ} {f : Process → ℤ} (ht : r.task k = none) :
    r.field low f k = (low, r.noted [k]) := by
  rw [field, ht]
  rfl

theorem field_some {low : ℤ} {f : Process → ℤ} (ht : r.task k = some t) :
    r.field low f k = (f t, r) := by
  rw [field, ht]

theorem sendSig_none (ht : r.task k = none) : r.sendSig cur sig k false = (-EINVAL, r) := by
  rw [sendSig, ht]

/-- `kill_pg` signals the processes of the group, and reads through the empty slots. -/
theorem groupLoop_spec {low pgrp : ℤ} (hsig : sig ≠ 0) (ks : List ℕ) (found : ℕ) (retval : ℤ)
    (r : Run) : ∃ retval', groupLoop low cur pgrp sig false ks found retval r =
      (found + (ks.filter (r.picks cur fun t => t.pgrp = pgrp)).length, retval',
        (r.posts sig (ks.filter (r.picks cur fun t => t.pgrp = pgrp))).noted
          (ks.filter fun k => (r.task k).isNone)) := by
  induction ks generalizing found retval r with
  | nil => exact ⟨retval, by simp [groupLoop, posts, noted]⟩
  | cons k ks ih =>
    rw [groupLoop]
    cases ht : r.task k with
    | none =>
      have hpick : ¬ r.picks cur (fun t => t.pgrp = pgrp) k = true := by
        rw [picks, ht]
        exact Bool.false_ne_true
      have hnone : (r.task k).isNone = true := by rw [ht]; rfl
      have hnoted : (r.noted [k]).task k = none := ht
      -- the error of `send_sig` only goes to `retval`
      have hnext : ∀ retval₁, ∃ retval', groupLoop low cur pgrp sig false ks found retval₁
          (r.noted [k]) = (found + (ks.filter (r.picks cur fun t => t.pgrp = pgrp)).length,
            retval', (r.posts sig (ks.filter (r.picks cur fun t => t.pgrp = pgrp))).noted
              (k :: ks.filter fun k => (r.task k).isNone)) := by
        intro retval₁
        obtain ⟨retval', heq⟩ := ih found retval₁ (r.noted [k])
        refine ⟨retval', ?_⟩
        rw [heq, posts_noted, noted_noted]
        rfl
      rw [field_none ht, List.filter_cons_of_neg hpick,
        List.filter_cons_of_pos (p := fun k => (r.task k).isNone) hnone]
      dsimp only
      by_cases hlow : low = pgrp
      · rw [if_pos hlow, if_pos hsig, sendSig_none hnoted]
        exact hnext _
      · rw [if_neg hlow]
        exact hnext _
    | some t =>
      have hpick : r.picks cur (fun t => t.pgrp = pgrp) k =
          (decide (t.pgrp = pgrp) && cur.may t) := by
        rw [picks, ht]
        rfl
      have hsome : ¬ ((r.task k).isNone = true) := by rw [ht]; exact Bool.false_ne_true
      rw [field_some ht, List.filter_cons_of_neg (p := fun k => (r.task k).isNone) hsome]
      dsimp only
      by_cases hgroup : t.pgrp = pgrp
      · rw [if_pos hgroup, if_pos hsig, sendSig_some ht]
        by_cases hmay : cur.may t = true
        · have hstable : Stable fun t => t.pgrp = pgrp := by
            intro t sig
            exact congrArg (fun g => decide (g = pgrp)) (t.post_ids sig).2.1
          rw [if_pos hmay, List.filter_cons_of_pos (by rw [hpick, hmay]; simpa using hgroup)]
          obtain ⟨retval', heq⟩ := ih (found + 1) retval (r.post sig k)
          refine ⟨retval', heq.trans ?_⟩
          simp only [picks_post hstable, isNone_post, List.length_cons, Nat.add_assoc,
            Nat.add_comm 1]
          rfl
        · rw [if_neg hmay, List.filter_cons_of_neg (by rw [hpick]; simp [hmay])]
          exact ih found _ r
      · rw [if_neg hgroup, List.filter_cons_of_neg (by rw [hpick]; simp [hgroup])]
        exact ih found retval r

/-- `kill_pg` with a signal and a group. -/
theorem killPg_spec {low pgrp : ℤ} (hsig : 1 ≤ sig ∧ sig ≤ 32) (hpgrp : 0 < pgrp) (r : Run) :
    ∃ retval, r.killPg low cur pgrp sig false =
      (if (slots.filter (r.picks cur fun t => t.pgrp = pgrp)) = [] then retval else 0,
        (r.posts sig (slots.filter (r.picks cur fun t => t.pgrp = pgrp))).noted
          (slots.filter fun k => (r.task k).isNone)) := by
  have hsig' : sig ≠ 0 := by omega
  obtain ⟨retval, heq⟩ : ∃ retval, groupLoop low cur pgrp sig false slots 0 (-ESRCH) r = _ :=
    groupLoop_spec hsig' slots 0 (-ESRCH) r
  refine ⟨retval, ?_⟩
  rw [killPg, if_neg (by omega), heq]
  by_cases hnil : slots.filter (r.picks cur fun t => t.pgrp = pgrp) = []
  · rw [hnil]
    rfl
  · have hlen : 0 + (slots.filter (r.picks cur fun t => t.pgrp = pgrp)).length ≠ 0 := by
      rw [Nat.zero_add]
      exact fun hzero => hnil (List.length_eq_zero_iff.mp hzero)
    rw [if_neg hnil]
    dsimp only
    rw [if_pos hlen]

/-- What `kill_proc` has read through null pointers stays noted. -/
theorem procLoop_nulls {low : ℤ} (ks : List ℕ) (r : Run) (hnulls : r.nulls ≠ []) :
    (procLoop low cur pid sig false ks r).2.nulls ≠ [] := by
  have hsent : ∀ (r : Run) k, (r.sendSig cur sig k false).2.nulls = r.nulls := by
    intro r k
    rw [sendSig]
    split
    · rfl
    · split_ifs <;> rfl
  induction ks generalizing r with
  | nil => exact hnulls
  | cons k ks ih =>
    have hfield : (r.field low Process.pid k).2.nulls ≠ [] := by
      rw [field]
      split
      · exact List.append_ne_nil_of_right_ne_nil _ (List.cons_ne_nil _ _)
      · exact hnulls
    rw [procLoop]
    dsimp only
    split_ifs
    · rw [hsent]
      exact hfield
    · exact hfield
    · exact ih _ hfield

/-- `kill_proc` comes to an empty slot, to a process with the number, or to the end. -/
theorem procLoop_spec {low : ℤ} (hsig : sig ≠ 0) (ks : List ℕ) (r : Run) :
    (∃ as k bs, ks = as ++ k :: bs ∧ r.task k = none ∧
      (∀ j ∈ as, ∃ t, r.task j = some t ∧ t.pid ≠ pid) ∧
      (procLoop low cur pid sig false ks r).2.nulls ≠ []) ∨
    (∃ as k bs t, ks = as ++ k :: bs ∧ r.task k = some t ∧ t.pid = pid ∧
      (∀ j ∈ as, ∃ t, r.task j = some t ∧ t.pid ≠ pid) ∧
      procLoop low cur pid sig false ks r = r.sendSig cur sig k false) ∨
    ((∀ j ∈ ks, ∃ t, r.task j = some t ∧ t.pid ≠ pid) ∧
      procLoop low cur pid sig false ks r = (-ESRCH, r)) := by
  induction ks with
  | nil => exact .inr (.inr ⟨List.forall_mem_nil _, rfl⟩)
  | cons k ks ih =>
    rw [procLoop]
    cases ht : r.task k with
    | none =>
      refine .inl ⟨[], k, ks, rfl, ht, List.forall_mem_nil _, ?_⟩
      have hnoted : (r.noted [k]).nulls ≠ [] :=
        List.append_ne_nil_of_right_ne_nil _ (List.cons_ne_nil _ _)
      have hnone : (r.noted [k]).task k = none := ht
      rw [field_none ht]
      dsimp only
      by_cases hlow : low = pid
      · rw [if_pos hlow, if_pos hsig, sendSig_none hnone]
        exact hnoted
      · rw [if_neg hlow]
        exact procLoop_nulls ks _ hnoted
    | some t =>
      rw [field_some ht]
      dsimp only
      by_cases hpid : t.pid = pid
      · rw [if_pos hpid, if_pos hsig]
        exact .inr (.inl ⟨[], k, ks, t, rfl, ht, hpid, List.forall_mem_nil _, rfl⟩)
      · rw [if_neg hpid]
        -- one more process without the number stands before what the rest of the loop comes to
        have hfirst : ∀ as : List ℕ, (∀ j ∈ as, ∃ t, r.task j = some t ∧ t.pid ≠ pid) →
            ∀ j ∈ k :: as, ∃ t, r.task j = some t ∧ t.pid ≠ pid := by
          intro as has j hj
          rcases List.mem_cons.mp hj with rfl | hj
          · exact ⟨t, ht, hpid⟩
          · exact has j hj
        obtain ⟨as, j, bs, rfl, hj, has, hnulls⟩ | ⟨as, j, bs, t', rfl, hj, hpid', has, heq⟩ |
          ⟨has, heq⟩ := ih
        · exact .inl ⟨k :: as, j, bs, rfl, hj, hfirst as has, hnulls⟩
        · exact .inr (.inl ⟨k :: as, j, bs, t', rfl, hj, hpid', hfirst as has, heq⟩)
        · exact .inr (.inr ⟨hfirst ks has, heq⟩)

/-- The loop over all processes signals those that the caller may signal, and returns 0 only if
these are all. -/
theorem allLoop_spec (ks : List ℕ) (retval : ℤ) (r : Run) :
    ∃ retval', allLoop cur sig ks retval r =
        (retval', r.posts sig (ks.filter (r.picks cur fun _ => true))) ∧
      (retval' = 0 ↔ retval = 0 ∧ ∀ k ∈ ks, r.picks cur (fun _ => true) k = true) := by
  induction ks generalizing retval r with
  | nil => exact ⟨retval, rfl, by simp⟩
  | cons k ks ih =>
    rw [allLoop]
    -- a process that is not signalled leaves its error, which no later one takes back
    have hnot : ∀ err : ℤ, err ≠ 0 → ¬ r.picks cur (fun _ => true) k = true →
        ∃ retval', allLoop cur sig ks err r =
            (retval', r.posts sig ((k :: ks).filter (r.picks cur fun _ => true))) ∧
          (retval' = 0 ↔ retval = 0 ∧
            ∀ j ∈ k :: ks, r.picks cur (fun _ => true) j = true) := by
      intro err herr hpick
      obtain ⟨retval', heq, hzero⟩ := ih err r
      rw [List.filter_cons_of_neg hpick]
      refine ⟨retval', heq, ?_⟩
      rw [hzero]
      constructor
      · exact fun h => absurd h.1 herr
      · exact fun h => absurd (h.2 k List.mem_cons_self) hpick
    cases ht : r.task k with
    | none =>
      rw [sendSig_none ht]
      refine hnot (-EINVAL) (by decide) ?_
      rw [picks, ht]
      exact Bool.false_ne_true
    | some t =>
      have hpick : r.picks cur (fun _ => true) k = cur.may t := by
        rw [picks, ht]
        rfl
      rw [sendSig_some ht]
      by_cases hmay : cur.may t = true
      · rw [if_pos hmay]
        obtain ⟨retval', heq, hzero⟩ := ih retval (r.post sig k)
        rw [picks_post fun _ _ => rfl] at heq hzero
        refine ⟨retval', ?_, ?_⟩
        · rw [List.filter_cons_of_pos (hpick.trans hmay)]
          exact heq
        · rw [hzero, List.forall_mem_cons, hpick]
          exact and_congr_right fun _ => ⟨fun h => ⟨hmay, h⟩, fun h => h.2⟩
      · rw [if_neg hmay]
        exact hnot (-EPERM) (by decide) (by rw [hpick]; exact hmay)

end Run

end

/-! ### The calls -/

section

variable {s : Table} {cur : Process} {pid sig : BitVec 32} {k : ℕ} {l ns : List ℕ}

theorem slots_nodup : slots.Nodup := by decide

theorem slots_descend : slots.Pairwise (· > ·) := by decide

namespace Table

/-- The tasks before a call. -/
def start (s : Table) : Run := ⟨s.task, [], [], []⟩

/-- What a call must have sent, and what it must return. -/
theorem posts_meets {ret : ℤ} :
    Meets s cur pid sig (ret, (s.start.posts sig.toInt l).noted ns) ↔
      ns = [] ∧ (l ≠ [] → Valid sig) ∧ l.Nodup ∧ (∀ k, k ∈ l ↔ s.Target cur pid sig k) ∧
        (l ≠ [] → ret = 0) := by
  have hnulls : ((s.start.posts sig.toInt l).noted ns).nulls = ns :=
    congrArg (· ++ ns) Run.posts_nulls
  have hsent : ((s.start.posts sig.toInt l).noted ns).sent = l := Run.posts_sent
  have hindices : ((s.start.posts sig.toInt l).noted ns).indices = l.map fun _ => sig.toInt - 1 :=
    Run.posts_indices
  constructor
  · intro hmeets
    refine ⟨hnulls.symm.trans hmeets.nulls, ?_, hsent ▸ hmeets.once, ?_, ?_⟩
    · intro hl
      obtain ⟨k, hk⟩ := List.exists_mem_of_ne_nil l hl
      have hrange := hmeets.indices (sig.toInt - 1)
        (hindices ▸ List.mem_map.mpr ⟨k, hk, rfl⟩)
      exact ⟨by omega, by omega⟩
    · intro k
      rw [← hmeets.sent k, hsent]
    · intro hl
      exact hmeets.returns (by rw [hsent]; exact hl)
  · rintro ⟨rfl, hvalid, hnodup, htargets, hret⟩
    constructor
    · exact hnulls
    · intro i hi
      rw [hindices] at hi
      obtain ⟨k, hk, rfl⟩ := List.mem_map.mp hi
      obtain ⟨hlow, hhigh⟩ := hvalid (List.ne_nil_of_mem hk)
      omega
    · rw [hsent]
      exact hnodup
    · intro k
      rw [hsent]
      exact htargets k
    · intro k hk
      exact Run.posts_task_of_mem hnodup ((htargets k).mpr hk)
    · intro k hk
      exact Run.posts_task_of_notMem fun hl => hk ((htargets k).mp hl)
    · rw [hsent]
      exact hret

/-- A call that signals none. -/
theorem none_meets {ret : ℤ} :
    Meets s cur pid sig (ret, s.start) ↔ ∀ k, ¬ s.Target cur pid sig k := by
  have hrun : s.start = (s.start.posts sig.toInt []).noted [] := rfl
  rw [hrun, posts_meets]
  constructor
  · rintro ⟨-, -, -, htargets, -⟩ k hk
    exact absurd ((htargets k).mpr hk) List.not_mem_nil
  · intro hnone
    refine ⟨rfl, fun hnil => absurd rfl hnil, List.nodup_nil, fun k => ?_,
      fun hnil => absurd rfl hnil⟩
    exact ⟨fun hk => absurd hk List.not_mem_nil, fun hk => absurd hk (hnone k)⟩

theorem mem_filter_picks {Q : Process → Bool} :
    k ∈ slots.filter (s.start.picks cur Q) ↔
      k ∈ slots ∧ ∃ t, s.task k = some t ∧ Q t = true ∧ cur.may t = true := by
  rw [List.mem_filter, Run.picks, Option.any_eq_true]
  refine and_congr_right fun _ => exists_congr fun t => and_congr_right fun _ => ?_
  exact Bool.and_eq_true_iff

theorem filter_isNone_nil :
    slots.filter (fun k => (s.start.task k).isNone) = [] ↔ s.Full := by
  rw [List.filter_eq_nil_iff]
  refine forall₂_congr fun k _ => not_congr ?_
  exact Option.isNone_iff_eq_none

/-- A call that signals a group. -/
theorem group_meets {pgrp : ℤ} (hsig : Valid sig) (hpgrp : 0 < pgrp) :
    Meets s cur pid sig (s.start.killPg s.lowPgrp cur pgrp sig.toInt false) ↔
      s.Full ∧ ∀ k ∈ slots, ∀ t, s.task k = some t → cur.may t = true →
        (t.pgrp = pgrp ↔ Named cur pid.toInt t) := by
  obtain ⟨retval, heq⟩ := Run.killPg_spec hsig hpgrp s.start
  rw [heq, posts_meets, filter_isNone_nil]
  refine and_congr_right fun _ => ?_
  constructor
  · rintro ⟨-, -, htargets, -⟩ k hk t ht hmay
    have hboth := htargets k
    rw [mem_filter_picks] at hboth
    constructor
    · intro hgroup
      obtain ⟨-, -, t', ht', hnamed, -⟩ := hboth.mp ⟨hk, t, ht, decide_eq_true hgroup, hmay⟩
      cases ht.symm.trans ht'
      exact hnamed
    · intro hnamed
      obtain ⟨-, t', ht', hgroup, -⟩ := hboth.mpr ⟨hsig, hk, t, ht, hnamed, hmay⟩
      cases ht.symm.trans ht'
      exact of_decide_eq_true hgroup
  · intro hgroup
    refine ⟨fun _ => hsig, slots_nodup.filter _, fun k => ?_, fun hne => if_neg hne⟩
    rw [mem_filter_picks]
    constructor
    · rintro ⟨hk, t, ht, hpgrp, hmay⟩
      exact ⟨hsig, hk, t, ht, (hgroup k hk t ht hmay).mp (of_decide_eq_true hpgrp), hmay⟩
    · rintro ⟨-, hk, t, ht, hnamed, hmay⟩
      exact ⟨hk, t, ht, decide_eq_true ((hgroup k hk t ht hmay).mpr hnamed), hmay⟩

/-- A call for one process. -/
theorem proc_meets (hsig : Valid sig) (hpid : 0 < pid.toInt) :
    Meets s cur pid sig (s.start.killProc s.lowPid cur pid.toInt sig.toInt false) ↔
      FindsFirst s cur pid sig := by
  have hnamed : ∀ t, Named cur pid.toInt t ↔ t.pid = pid.toInt := by
    intro t
    rw [Named, if_pos hpid]
  have hbefore : ∀ as k bs, slots = as ++ k :: bs →
      (∀ j ∈ as, k < j) ∧ ∀ j ∈ bs, j < k := by
    intro as k bs hslots
    have hdescend := slots_descend
    rw [hslots, List.pairwise_append, List.pairwise_cons] at hdescend
    exact ⟨fun j hj => hdescend.2.2 j hj k List.mem_cons_self, hdescend.2.1.1⟩
  have hzero : sig.toInt ≠ 0 := by
    have := hsig.1
    omega
  rw [Run.killProc, if_neg (by have := hsig; unfold Valid at this; omega)]
  obtain ⟨as, k, bs, hslots, hnone, has, hnulls⟩ | ⟨as, k, bs, t, hslots, ht, htpid, has, heq⟩ |
    ⟨has, heq⟩ : (_ ∨ _ ∨ _) := Run.procLoop_spec hzero slots s.start
  · -- a null pointer is read before the process is found
    refine iff_of_false (fun hmeets => hnulls hmeets.nulls) fun hfirst => ?_
    obtain ⟨hgt, hlt⟩ := hbefore as k bs hslots
    obtain ⟨j, hj, hkj, t, ht, htpid⟩ :=
      hfirst.1 k (by rw [hslots]; exact List.mem_append_cons_self) hnone
    rw [hslots, List.mem_append, List.mem_cons] at hj
    rcases hj with hj | rfl | hj
    · obtain ⟨t', ht', hne⟩ := has j hj
      cases ht.symm.trans ht'
      exact hne htpid
    · exact Nat.lt_irrefl j hkj
    · exact Nat.lt_asymm hkj (hlt j hj)
  · -- the process in slot `k` is the only one that is tried
    obtain ⟨hgt, hlt⟩ := hbefore as k bs hslots
    have hk : k ∈ slots := by rw [hslots]; exact List.mem_append_cons_self
    have hle : ∀ j ∈ slots, ∀ t, s.task j = some t → t.pid = pid.toInt → j ≤ k := by
      intro j hj t ht htpid
      rw [hslots, List.mem_append, List.mem_cons] at hj
      rcases hj with hj | rfl | hj
      · obtain ⟨t', ht', hne⟩ := has j hj
        cases ht.symm.trans ht'
        exact absurd htpid hne
      · exact Nat.le_refl j
      · exact Nat.le_of_lt (hlt j hj)
    have hfirst : FindsFirst s cur pid sig ↔ ∀ j, s.Target cur pid sig j → j = k := by
      constructor
      · intro hfirst j hj
        have ⟨_, hslot, t', ht', hnamed', _⟩ := hj
        exact Nat.le_antisymm (hle j hslot t' ht' ((hnamed t').mp hnamed'))
          (hfirst.2 j hj k hk t ht htpid)
      · intro honly
        refine ⟨fun j hj hnone => ?_, fun j hj i hi t hti hpid => ?_⟩
        · rw [hslots, List.mem_append, List.mem_cons] at hj
          rcases hj with hj | rfl | hj
          · obtain ⟨t', ht', -⟩ := has j hj
            cases hnone.symm.trans ht'
          · cases hnone.symm.trans ht
          · exact ⟨k, hk, hlt j hj, t, ht, htpid⟩
        · rw [honly j hj]
          exact hle i hi t hti hpid
    rw [heq, Run.sendSig_some ht, hfirst]
    by_cases hmay : cur.may t = true
    · have htarget : s.Target cur pid sig k := ⟨hsig, hk, t, ht, (hnamed t).mpr htpid, hmay⟩
      have hrun : s.start.post sig.toInt k = (s.start.posts sig.toInt [k]).noted [] := rfl
      rw [if_pos hmay, hrun, posts_meets]
      constructor
      · rintro ⟨-, -, -, htargets, -⟩ j hj
        exact List.mem_singleton.mp ((htargets j).mpr hj)
      · intro honly
        refine ⟨rfl, fun _ => hsig, List.nodup_singleton k, fun j => ?_, fun _ => rfl⟩
        rw [List.mem_singleton]
        exact ⟨fun hj => hj ▸ htarget, honly j⟩
    · rw [if_neg hmay, none_meets]
      refine forall_congr' fun j => ?_
      constructor
      · exact fun hnot hj => absurd hj hnot
      · intro honly htarget
        have ⟨_, _, t', ht', _, hmay'⟩ := htarget
        cases ht.symm.trans (honly htarget ▸ ht')
        exact hmay hmay'
  · -- there is no such process, and no slot is empty
    rw [heq, none_meets]
    have htargets : ∀ k, ¬ s.Target cur pid sig k := by
      rintro k ⟨-, hk, t, ht, hpid', -⟩
      obtain ⟨t', ht', hne⟩ := has k hk
      cases ht.symm.trans ht'
      exact hne ((hnamed t).mp hpid')
    refine iff_of_true htargets ⟨fun k hk hnone => ?_, fun k hk => absurd hk (htargets k)⟩
    obtain ⟨t, ht, -⟩ := has k hk
    cases hnone.symm.trans ht

/-- A call for all processes. -/
theorem all_meets (c : Caller s) :
    Meets s c.proc (-1) sig (s.start.allLoop c.proc sig.toInt slots 0) ↔
      Valid sig ∧ ∀ k ∈ slots, ∃ t, s.task k = some t ∧ c.proc.may t = true := by
  obtain ⟨retval, heq, hzero⟩ := Run.allLoop_spec slots 0 s.start
  have hall : ∀ k, s.start.picks c.proc (fun _ => true) k = true ↔
      ∃ t, s.task k = some t ∧ c.proc.may t = true := by
    intro k
    rw [Run.picks, Option.any_eq_true]
    rfl
  -- the caller itself is always signalled
  have hself : c.slot ∈ slots.filter (s.start.picks c.proc fun _ => true) := by
    refine mem_filter_picks.mpr ⟨c.slot_mem, c.proc, c.task_slot, rfl, ?_⟩
    rw [Process.may, beq_self_eq_true, Bool.true_or]
  have hrun : ∀ l, s.start.posts sig.toInt l = (s.start.posts sig.toInt l).noted [] := by
    intro l
    rw [Run.noted, List.append_nil]
  rw [heq, hrun, posts_meets]
  constructor
  · rintro ⟨-, hvalid, -, -, hret⟩
    have hne := List.ne_nil_of_mem hself
    exact ⟨hvalid hne, fun k hk => (hall k).mp ((hzero.mp (hret hne)).2 k hk)⟩
  · rintro ⟨hsig, hmay⟩
    refine ⟨rfl, fun _ => hsig, slots_nodup.filter _, fun k => ?_, fun _ => ?_⟩
    · rw [mem_filter_picks]
      constructor
      · rintro ⟨hk, t, ht, -, hmay⟩
        exact ⟨hsig, hk, t, ht, trivial, hmay⟩
      · rintro ⟨-, hk, t, ht, -, hmay⟩
        exact ⟨hk, t, ht, rfl, hmay⟩
    · exact hzero.mpr ⟨rfl, fun k hk => (hall k).mpr (hmay k hk)⟩

end Table

/-- `kill` signals the processes that its comment names, and no others, for the calls that are
`Proper`. -/
theorem kill_targets (s : Table) (c : Caller s) (pid sig : BitVec 32) :
    Meets s c.proc pid sig (sysKill s c.proc pid sig) ↔ Proper s c.proc pid sig := by
  have hrun : (⟨s.task, [], [], []⟩ : Run) = s.start := rfl
  have hinvalid : ¬ Valid sig → ∀ k, ¬ s.Target c.proc pid sig k := fun hsig k hk => hsig hk.1
  rw [sysKill, Proper, hrun]
  by_cases hzero : pid = 0
  · rw [if_pos hzero, if_pos hzero]
    by_cases hsig : Valid sig
    · rw [Table.group_meets hsig c.pid_pos, imp_iff_right hsig]
      refine and_congr_right fun _ => ⟨fun hall => ?_, fun heq k hk t ht hmay => ?_⟩
      · have hmay : c.proc.may c.proc = true := by
          rw [Process.may, beq_self_eq_true, Bool.true_or]
        have hown := hall c.slot c.slot_mem c.proc c.task_slot hmay
        rw [Named, hzero] at hown
        exact (hown.mpr rfl).symm
      · rw [Named, hzero, heq]
        rfl
    · rw [Run.killPg, if_pos (by unfold Valid at hsig; omega), Table.none_meets]
      exact iff_of_true (hinvalid hsig) fun h => absurd h hsig
  by_cases hall : pid = -1
  · rw [if_neg hzero, if_pos hall, if_neg hzero, if_pos hall, hall]
    exact Table.all_meets c
  by_cases hgroup : pid.toInt < 0
  · rw [if_neg hzero, if_neg hall, if_pos hgroup, if_neg hzero, if_neg hall, if_pos hgroup]
    have hne : pid.toInt ≠ -1 := fun h => hall (BitVec.toInt_inj.mp h)
    have hnamed : ∀ t, Named c.proc pid.toInt t ↔ t.pgrp = -pid.toInt := by
      intro t
      rw [Named, if_neg (by omega), if_neg (by omega), if_neg hne]
    by_cases hsig : Valid sig
    · by_cases hmin : pid.toInt = -2 ^ 31
      · -- the negation of the least number is the number itself, and no group has it
        have hneg : (-pid).toInt = -2 ^ 31 := by
          rw [BitVec.toInt_neg, hmin]
          decide
        rw [Run.killPg, if_pos (by omega), Table.none_meets]
        refine iff_of_true (fun k hk => ?_) fun _ h => absurd hmin h
        obtain ⟨-, -, t, -, hgrp, -⟩ := hk
        have hlt := t.pgrp_lt
        have heq := (hnamed t).mp hgrp
        omega
      · have hle := BitVec.le_toInt pid
        have hneg : (-pid).toInt = -pid.toInt := by
          rw [BitVec.toInt_neg]
          exact Int.bmod_eq_of_le (by omega) (by omega)
        rw [Table.group_meets hsig (by omega), imp_iff_right hsig, imp_iff_right hmin]
        refine ⟨fun h => h.1, fun hfull => ⟨hfull, fun k hk t ht hmay => ?_⟩⟩
        rw [hnamed, hneg]
    · rw [Run.killPg, if_pos (by unfold Valid at hsig; omega), Table.none_meets]
      exact iff_of_true (hinvalid hsig) fun h => absurd h hsig
  · rw [if_neg hzero, if_neg hall, if_neg hgroup, if_neg hzero, if_neg hall, if_neg hgroup]
    have hpos : 0 < pid.toInt := by
      have hne : pid.toInt ≠ 0 := fun h => hzero (BitVec.toInt_inj.mp h)
      omega
    by_cases hsig : Valid sig
    · rw [imp_iff_right hsig]
      exact Table.proc_meets hsig hpos
    · rw [Run.killProc, if_pos (by unfold Valid at hsig; omega), Table.none_meets]
      exact iff_of_true (hinvalid hsig) fun h => absurd h hsig

end

/-- A process of the group that process 5 leads. -/
def member (pid : ℤ) : Process where
  state := .running
  exitCode := 0
  signal := 0
  blocked := 0
  sigaction := fun _ => ⟨0, 0, 0, 0⟩
  pid := pid
  pgrp := 5
  pgrp_lt := by decide
  euid := 1
  beyond := fun _ => 0

/-- A shell and its children, in all the slots. -/
def shell : Table where
  task := fun k => some (member (k + 4))
  lowPid := 0
  lowPgrp := 0

/-- A child of the shell signals its group: its own number is looked for among the groups. -/
theorem kill_group_missed : shell.Full ∧ ∃ c : Caller shell,
    ¬ Meets shell c.proc 0 15 (sysKill shell c.proc 0 15) := by
  refine ⟨fun k _ => Option.some_ne_none _, ⟨3, by decide, member 7, rfl, by decide⟩, ?_⟩
  intro hmeets
  have hown : shell.Target (member 7) 0 15 3 :=
    ⟨by unfold Valid; decide, by decide, member 7, rfl, rfl, rfl⟩
  have hsent := (hmeets.sent 3).mpr hown
  exact absurd hsent (by decide +kernel)

end Kill
