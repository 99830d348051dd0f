/-
Fork under interleaving (`find_empty_process` and `copy_process` of
kernel/fork.c, with `release` of kernel/exit.c).

* `findEmptyProcess` — the next free process number and task slot;
* `Forks`, `Event` — calls of fork that sleep in `get_free_page` and in
  `copy_mem`, while other processes fork, exit and are released;
* `find_empty_process` — the search for a process number ends;
* `fork_separate` — in every run in which a fork that stores its child, or returns,
  is the last that searched, processes have different numbers, no task is
  overwritten, and a parent gets the number of its own child;
* `fork_overwrites` — a run in which two forks choose the same slot.

Design notes: a task structure is named by its page.  `get_free_page` is taken
as giving any page that holds no task structure, or none.
-/
import Linux012.Runs
import Mathlib.Data.Fintype.Prod
import Mathlib.Data.Fintype.EquivFin
import Mathlib.Logic.Function.Basic
import Mathlib.Tactic.Ring

namespace Sched

open Function (update)

/-- `NR_TASKS`. -/
def nrTasks : ℕ := 64

/-- What fork reads and writes of a `task_struct`. -/
structure TaskStruct where
  pid : ℕ
  pgrp : ℕ
  deriving DecidableEq

/-- The task table. -/
structure Table where
  /-- `task[]`; a task structure is its page -/
  task : ℕ → Option ℕ
  page : ℕ → Option TaskStruct
  /-- `last_pid` -/
  lastPid : ℕ

/-! ### Finding a process number and a slot -/

namespace Table

/-- The task in slot `i`. -/
def slot (s : Table) (i : ℕ) : Option TaskStruct := (s.task i).bind s.page

/-- Slot `i` has process number or process group `x`. -/
def Uses (s : Table) (x i : ℕ) : Prop := ∃ t, s.slot i = some t ∧ (t.pid = x ∨ t.pgrp = x)

instance (s : Table) (x i : ℕ) : Decidable (s.Uses x i) :=
  decidable_of_iff ((s.slot i).any fun t => decide (t.pid = x ∨ t.pgrp = x)) <| by
    simp only [Uses, Option.any_eq_true, decide_eq_true_iff]

/-- Some task has process number or process group `x`. -/
def Taken (s : Table) (x : ℕ) : Prop := ∃ i, i < nrTasks ∧ s.Uses x i

instance (s : Table) (x : ℕ) : Decidable (s.Taken x) := inferInstanceAs (Decidable (∃ _, _ ∧ _))

/-- `if ((++last_pid) < 0) last_pid = 1`, on a `long`. -/
def nextPid (l : ℕ) : ℕ := if 2 ^ 31 ≤ l + 1 then 1 else l + 1

/-- The `repeat` loop of `find_empty_process`, `k` rounds of it. -/
def findPid (s : Table) : ℕ → ℕ → Option ℕ
  | 0, _ => none
  | k + 1, l => if s.Taken (nextPid l) then findPid s k (nextPid l) else some (nextPid l)

/-- More rounds than there are numbers in use. -/
def maxRounds : ℕ := 2 * nrTasks + 1

/-- The second loop of `find_empty_process`. -/
def findSlot (s : Table) : Option ℕ := (List.range' 1 (nrTasks - 1)).find? fun i => (s.task i).isNone

/-- `task[nr] = p; *p = *current;` and the fields that `copy_process` sets. -/
def store (s : Table) (nr p : ℕ) (t : TaskStruct) : Table :=
  { s with task := update s.task nr (some p), page := update s.page p (some t) }

/-- `task[i] = NULL; free_page((long) p)`. -/
def remove (s : Table) (i p : ℕ) : Table :=
  { s with task := update s.task i none, page := update s.page p none }

/-- `sys_setpgid` and `sys_setsid`, on the task structure `p`. -/
def setpgid (s : Table) (p pgrp : ℕ) : Table :=
  { s with page := update s.page p ((s.page p).map fun t => { t with pgrp := pgrp }) }

/-- `find_empty_process`: the slot, and the table with the new `last_pid`. -/
def findEmptyProcess (s : Table) : Option (Option ℕ × Table) :=
  (s.findPid maxRounds s.lastPid).map fun l => (s.findSlot, { s with lastPid := l })

end Table

/-! ### The machine -/

/-- A call of fork: `cur` is the task structure of its process. -/
inductive Phase where
  /-- in `get_free_page`, with slot `nr` -/
  | getting (cur nr : ℕ)
  /-- in `copy_mem`, with the task structure `p` of the child in slot `nr` -/
  | copying (cur nr p : ℕ)
  | returned (pid : ℕ)
  | failed
  deriving DecidableEq

namespace Phase

/-- The task structures the call works with. -/
def Holds (p : ℕ) : Phase → Prop
  | .getting cur _ => cur = p
  | .copying cur _ q => cur = p ∨ q = p
  | _ => False

end Phase

/-- The task table and the calls of fork. -/
structure Forks where
  table : Table
  call : ℕ → Option Phase
  /-- the call whose `find_empty_process` ran last (not in the source) -/
  last : Option ℕ

/-- A step: `c` is the number of a call. -/
inductive Event where
  /-- the process in slot `n` calls fork, and `find_empty_process` runs -/
  | call (c n : ℕ)
  /-- `get_free_page` returns page `p`, and the child is set up -/
  | store (c p : ℕ)
  | noPage (c : ℕ)
  /-- `copy_mem` succeeds and `copy_process` returns -/
  | finish (c : ℕ)
  | noMem (c : ℕ)
  /-- a dead process is released -/
  | release (i : ℕ)
  | setpgid (p pgrp : ℕ)

namespace Forks

/-- The call moves on. -/
def setCall (s : Forks) (c : ℕ) (ph : Phase) : Forks := { s with call := update s.call c (some ph) }

/-- The machine after a step that can be made. -/
def step (s : Forks) : Event → Option Forks
  | .call c n =>
    match s.call c, s.table.task n with
    | none, some cur => s.table.findEmptyProcess.map fun
      | (some nr, table) => { s with table := table, last := some c }.setCall c (.getting cur nr)
      | (none, table) => { s with table := table, last := some c }.setCall c .failed
    | _, _ => none
  | .store c p =>
    match s.call c, s.table.page p with
    | some (.getting cur nr), none => (s.table.page cur).map fun t =>
      { s with table := s.table.store nr p { t with pid := s.table.lastPid } }.setCall c
        (.copying cur nr p)
    | _, _ => none
  | .noPage c =>
    match s.call c with
    | some (.getting _ _) => some (s.setCall c .failed)
    | _ => none
  | .finish c =>
    match s.call c with
    | some (.copying _ _ _) => some (s.setCall c (.returned s.table.lastPid))
    | _ => none
  | .noMem c =>
    match s.call c with
    | some (.copying _ nr p) => some ({ s with table := s.table.remove nr p }.setCall c .failed)
    | _ => none
  | .release i =>
    match s.table.task i with
    | some p => if 1 ≤ i then some { s with table := s.table.remove i p } else none
    | none => none
  | .setpgid p pgrp => some { s with table := s.table.setpgid p pgrp }

/-- A process that is released is dead: no call of fork works with it. -/
def Allowed (s : Forks) : Event → Prop
  | .release i => ∀ p, s.table.task i = some p → ∀ c ph, s.call c = some ph → ¬ ph.Holds p
  | _ => True

/-- Only task 0 is there, in page `p`. -/
def start (p : ℕ) : Forks where
  table := ⟨fun i => if i = 0 then some p else none, fun q => if q = p then some ⟨0, 0⟩ else none, 0⟩
  call := fun _ => none
  last := none

end Forks

/-- The runs from `sched_init` on. -/
def forking : System Forks Event where
  init s := ∃ p, s = .start p
  step s e s' := s.Allowed e ∧ s.step e = some s'

/-- A fork stores its child, and returns, only if no other fork has run
`find_empty_process` since its own. -/
def Event.Guard (s : Forks) : Event → Prop
  | .store c _ | .finish c => s.last = some c
  | _ => True

/-- The processes are kept apart. -/
structure Separate (s : Forks) : Prop where
  /-- different tasks have different numbers -/
  pid : ∀ i j t u, s.table.slot i = some t → s.table.slot j = some u → t.pid = u.pid → i = j
  /-- a task structure is in one slot -/
  slot : ∀ i j p, s.table.task i = some p → s.table.task j = some p → i = j

/-- What a step from `s` to `s'` does to the tasks that are there. -/
structure Apart (s : Forks) (e : Event) (s' : Forks) : Prop where
  /-- a new task overwrites none -/
  store : ∀ c p, e = .store c p → ∀ i q, s.table.task i = some q →
    s'.table.task i = some q ∧ s'.table.page q = s.table.page q
  /-- a fork that fails removes its own child only -/
  noMem : ∀ c, e = .noMem c → ∀ i q, s.table.task i = some q →
    s'.table.task i = some q ∨ ∃ cur, s.call c = some (.copying cur i q)
  /-- a parent gets the number of the child in its slot -/
  finish : ∀ c, e = .finish c → ∃ cur nr p t, s.call c = some (.copying cur nr p) ∧
    s'.table.task nr = some p ∧ s'.table.page p = some t ∧ s'.call c = some (.returned t.pid)

/-! ### The search ends -/

namespace Table

variable {s : Table} {i j p q x l n : ℕ} {t u : TaskStruct}

theorem slot_eq_some : s.slot i = some t ↔ ∃ p, s.task i = some p ∧ s.page p = some t :=
  Option.bind_eq_some_iff

/-- `last_pid` after `k + 1` rounds. -/
theorem iterate_nextPid (hl : l < 2 ^ 31) (k : ℕ) :
    nextPid^[k + 1] l = (l + k) % (2 ^ 31 - 1) + 1 := by
  induction k with
  | zero =>
    rw [zero_add, Function.iterate_one, nextPid]
    split <;> omega
  | succ k ih =>
    rw [Function.iterate_succ_apply', ih, nextPid]
    split <;> omega

theorem nextPid_lt : nextPid l < 2 ^ 31 := by
  rw [nextPid]
  split <;> omega

/-- `k` rounds that find nothing have seen `k` numbers in use. -/
theorem taken_of_findPid_eq_none {k : ℕ} (h : s.findPid k l = none) {m : ℕ} (hm : m < k) :
    s.Taken (nextPid^[m + 1] l) := by
  induction k generalizing l m with
  | zero => omega
  | succ k ih =>
    rw [findPid] at h
    split at h
    case isFalse => cases h
    case isTrue htaken =>
      cases m with
      | zero => exact htaken
      | succ m => exact ih h (by omega)

/-- The search ends: each task makes two numbers unusable, and the rounds try
different numbers. -/
theorem findPid_isSome (hl : l < 2 ^ 31) : (s.findPid maxRounds l).isSome := by
  by_contra hnone
  rw [Option.not_isSome_iff_eq_none] at hnone
  have htaken : ∀ m : Fin maxRounds, ∃ ib : Fin nrTasks × Bool, ∃ t,
      s.slot ib.1 = some t ∧ (cond ib.2 t.pid t.pgrp) = nextPid^[m.val + 1] l := by
    intro m
    obtain ⟨i, hi, t, ht, hx⟩ := taken_of_findPid_eq_none hnone m.isLt
    cases hx with
    | inl hx => exact ⟨(⟨i, hi⟩, true), t, ht, hx⟩
    | inr hx => exact ⟨(⟨i, hi⟩, false), t, ht, hx⟩
  choose ib hib using htaken
  -- two rounds with one task and one field would have tried one number twice
  have hinj : Function.Injective ib := by
    intro m m' heq
    obtain ⟨t, ht, hx⟩ := hib m
    obtain ⟨t', ht', hx'⟩ := hib m'
    rw [heq, ht'] at ht
    obtain rfl := Option.some.inj ht
    rw [heq, hx', iterate_nextPid hl, iterate_nextPid hl] at hx
    have hm := m.isLt
    have hm' := m'.isLt
    simp only [maxRounds, nrTasks] at hm hm'
    exact Fin.ext (by omega)
  have hcard := Fintype.card_le_of_injective ib hinj
  rw [Fintype.card_prod, Fintype.card_fin, Fintype.card_fin, Fintype.card_bool, maxRounds] at hcard
  omega

theorem findPid_spec {k : ℕ} (h : s.findPid k l = some x) : ¬ s.Taken x ∧ x < 2 ^ 31 := by
  induction k generalizing l with
  | zero => cases h
  | succ k ih =>
    rw [findPid] at h
    split at h
    case isTrue => exact ih h
    case isFalse hfree =>
      cases h
      exact ⟨hfree, nextPid_lt⟩

theorem findSlot_spec (h : s.findSlot = some i) : i < nrTasks ∧ s.task i = none := by
  have hmem := List.mem_of_find?_eq_some h
  have hnone := List.find?_some h
  simp only [List.mem_range'_1, nrTasks] at hmem
  exact ⟨by rw [nrTasks]; omega, Option.isNone_iff_eq_none.mp hnone⟩

/-- What `find_empty_process` gives. -/
theorem findEmptyProcess_spec {nr : Option ℕ} {s' : Table}
    (h : s.findEmptyProcess = some (nr, s')) :
    nr = s.findSlot ∧ ∃ x, ¬ s.Taken x ∧ x < 2 ^ 31 ∧ s' = { s with lastPid := x } := by
  rw [findEmptyProcess, Option.map_eq_some_iff] at h
  obtain ⟨x, hx, heq⟩ := h
  cases heq
  exact ⟨rfl, x, (findPid_spec hx).1, (findPid_spec hx).2, rfl⟩

/-- `find_empty_process` returns, with a number that no task uses. -/
theorem find_empty_process (s : Table) (hl : s.lastPid < 2 ^ 31) :
    ∃ x, ¬ s.Taken x ∧ x < 2 ^ 31 ∧
      s.findEmptyProcess = some (s.findSlot, { s with lastPid := x }) := by
  obtain ⟨x, hx⟩ := Option.isSome_iff_exists.mp (findPid_isSome hl)
  exact ⟨x, (findPid_spec hx).1, (findPid_spec hx).2, by rw [findEmptyProcess, hx]; rfl⟩

theorem find_empty_process_start : ∃ x, ¬ (Forks.start 0).table.Taken x ∧ x < 2 ^ 31 ∧
    (Forks.start 0).table.findEmptyProcess =
      some (some 1, { (Forks.start 0).table with lastPid := x }) :=
  find_empty_process (Forks.start 0).table (by decide)

/-! ### The task table -/

/-- The task table is in order. -/
structure Ordered (s : Table) : Prop where
  lt : ∀ i p, s.task i = some p → i < nrTasks
  alive : ∀ i p, s.task i = some p → (s.page p).isSome
  slot : ∀ i j p, s.task i = some p → s.task j = some p → i = j
  pid : ∀ i j t u, s.slot i = some t → s.slot j = some u → t.pid = u.pid → i = j

theorem Ordered.ne_of_page (h : s.Ordered) (hp : s.page p = none) (i : ℕ) :
    s.task i ≠ some p := fun hi => by
  have halive := h.alive i p hi
  simp [hp] at halive

@[simp] theorem task_store : (s.store n p t).task i = if i = n then some p else s.task i :=
  Function.update_apply _ _ _ _

@[simp] theorem page_store : (s.store n p t).page q = if q = p then some t else s.page q :=
  Function.update_apply _ _ _ _

@[simp] theorem task_remove : (s.remove n p).task i = if i = n then none else s.task i :=
  Function.update_apply _ _ _ _

@[simp] theorem page_remove : (s.remove n p).page q = if q = p then none else s.page q :=
  Function.update_apply _ _ _ _

theorem slot_store (hp : ∀ i, s.task i ≠ some p) (n i : ℕ) (t : TaskStruct) :
    (s.store n p t).slot i = if i = n then some t else s.slot i := by
  by_cases hi : i = n
  · simp [slot, hi]
  · have hne := hp i
    rw [slot, slot, task_store, if_neg hi, if_neg hi]
    cases hq : s.task i with
    | none => rfl
    | some q =>
      have hqp : q ≠ p := fun h => hne (h ▸ hq)
      simp [hqp]

theorem slot_remove (h : s.Ordered) (hi : s.task i = some p) (j : ℕ) :
    (s.remove i p).slot j = if j = i then none else s.slot j := by
  by_cases hj : j = i
  · simp [slot, hj]
  · rw [slot, slot, task_remove, if_neg hj, if_neg hj]
    cases hq : s.task j with
    | none => rfl
    | some q =>
      have hqp : q ≠ p := fun heq => hj (h.slot j i p (heq ▸ hq) hi)
      simp [hqp]

/-- A process group is not looked at. -/
theorem slot_setpgid (ht : (s.setpgid p x).slot i = some t) :
    ∃ u, s.slot i = some u ∧ u.pid = t.pid := by
  obtain ⟨q, hq, hpage⟩ := slot_eq_some.mp ht
  by_cases hqp : q = p
  · subst hqp
    simp only [setpgid, Function.update_self, Option.map_eq_some_iff] at hpage
    obtain ⟨u, hu, rfl⟩ := hpage
    exact ⟨u, slot_eq_some.mpr ⟨q, hq, hu⟩, rfl⟩
  · simp only [setpgid, Function.update_of_ne hqp] at hpage
    exact ⟨t, slot_eq_some.mpr ⟨q, hq, hpage⟩, rfl⟩

theorem page_setpgid (hp : (s.page q).isSome) : ((s.setpgid p x).page q).isSome := by
  by_cases hqp : q = p
  · subst hqp
    simpa [setpgid] using hp
  · simpa [setpgid, hqp] using hp

theorem Ordered.store (h : s.Ordered) (hn : n < nrTasks) (hp : s.page p = none)
    (hpid : ∀ i u, s.slot i = some u → u.pid ≠ t.pid) : (s.store n p t).Ordered := by
  have hne := h.ne_of_page hp
  constructor
  · intro i q hq
    by_cases hi : i = n
    · exact hi ▸ hn
    · rw [task_store, if_neg hi] at hq
      exact h.lt i q hq
  · intro i q hq
    by_cases hqp : q = p
    · simp [hqp]
    · have hi : i ≠ n := by
        rintro rfl
        rw [task_store, if_pos rfl] at hq
        exact hqp (Option.some.inj hq).symm
      rw [task_store, if_neg hi] at hq
      simpa [hqp] using h.alive i q hq
  · intro i j q hi hj
    rw [task_store] at hi hj
    split at hi <;> split at hj
    case isTrue.isTrue hi' hj' => exact hi'.trans hj'.symm
    case isTrue.isFalse =>
      cases hi
      exact absurd hj (hne j)
    case isFalse.isTrue =>
      cases hj
      exact absurd hi (hne i)
    case isFalse.isFalse => exact h.slot i j q hi hj
  · intro i j u v hi hj heq
    rw [slot_store hne] at hi hj
    split at hi <;> split at hj
    case isTrue.isTrue hi' hj' => exact hi'.trans hj'.symm
    case isTrue.isFalse =>
      cases hi
      exact absurd heq.symm (hpid j v hj)
    case isFalse.isTrue =>
      cases hj
      exact absurd heq (hpid i u hi)
    case isFalse.isFalse => exact h.pid i j u v hi hj heq

theorem Ordered.remove (h : s.Ordered) (hi : s.task i = some p) : (s.remove i p).Ordered := by
  have htask : ∀ j q, (s.remove i p).task j = some q → s.task j = some q ∧ j ≠ i := by
    intro j q hq
    rw [task_remove] at hq
    split at hq
    case isTrue => cases hq
    case isFalse hj => exact ⟨hq, hj⟩
  have hslot : ∀ j u, (s.remove i p).slot j = some u → s.slot j = some u := by
    intro j u hu
    rw [slot_remove h hi] at hu
    split at hu
    case isTrue => cases hu
    case isFalse => exact hu
  constructor
  · exact fun j q hq => h.lt j q (htask j q hq).1
  · intro j q hq
    obtain ⟨hq, hj⟩ := htask j q hq
    have hqp : q ≠ p := fun heq => hj (h.slot j i p (heq ▸ hq) hi)
    simpa [hqp] using h.alive j q hq
  · exact fun j k q hj hk => h.slot j k q (htask j q hj).1 (htask k q hk).1
  · exact fun j k u v hj hk => h.pid j k u v (hslot j u hj) (hslot k v hk)

theorem Ordered.setpgid (h : s.Ordered) (p x : ℕ) : (s.setpgid p x).Ordered := by
  constructor
  · exact h.lt
  · exact fun i q hq => page_setpgid (h.alive i q hq)
  · exact h.slot
  · intro i j u v hi hj heq
    obtain ⟨u', hu, hpu⟩ := slot_setpgid hi
    obtain ⟨v', hv, hpv⟩ := slot_setpgid hj
    exact h.pid i j u' v' hu hv (by rw [hpu, hpv, heq])

end Table

/-! ### The runs -/

namespace Forks

variable {s s' : Forks} {c c' : ℕ} {cur nr p i : ℕ} {ph : Phase}

@[simp] theorem table_setCall : (s.setCall c ph).table = s.table := rfl

@[simp] theorem last_setCall : (s.setCall c ph).last = s.last := rfl

@[simp] theorem call_setCall :
    (s.setCall c ph).call c' = if c' = c then some ph else s.call c' :=
  Function.update_apply _ _ _ _

/-- What the calls rely on. -/
structure Kept (s : Forks) : Prop where
  ordered : s.table.Ordered
  lastPid : s.table.lastPid < 2 ^ 31
  getting : ∀ c cur nr, s.call c = some (.getting cur nr) → s.last = some c →
    nr < nrTasks ∧ s.table.task nr = none ∧
      ∀ i t, s.table.slot i = some t → t.pid ≠ s.table.lastPid
  copying : ∀ c cur nr p, s.call c = some (.copying cur nr p) → s.table.task nr = some p
  child : ∀ c cur nr p, s.call c = some (.copying cur nr p) → s.last = some c →
    ∃ t, s.table.page p = some t ∧ t.pid = s.table.lastPid
  apart : ∀ c c' cur cur' nr p p', s.call c = some (.copying cur nr p) →
    s.call c' = some (.copying cur' nr p') → c = c'

namespace Kept

theorem start (p : ℕ) : (Forks.start p).Kept := by
  have hslot : ∀ i q, (Forks.start p).table.task i = some q → i = 0 ∧ q = p := by
    intro i q hq
    simp only [Forks.start] at hq
    split at hq
    case isTrue hi => exact ⟨hi, (Option.some.inj hq).symm⟩
    case isFalse => cases hq
  have hcall : ∀ c ph, (Forks.start p).call c ≠ some ph := fun c ph h => by cases h
  constructor
  · constructor
    · intro i q hq
      rw [(hslot i q hq).1]
      decide
    · intro i q hq
      simp [Forks.start, (hslot i q hq).2]
    · intro i j q hi hj
      rw [(hslot i q hi).1, (hslot j q hj).1]
    · intro i j t u hi hj _
      obtain ⟨q, hq, -⟩ := Table.slot_eq_some.mp hi
      obtain ⟨r, hr, -⟩ := Table.slot_eq_some.mp hj
      rw [(hslot i q hq).1, (hslot j r hr).1]
  · exact Nat.two_pow_pos 31
  · exact fun c _ _ h => absurd h (hcall c _)
  · exact fun c _ _ _ h => absurd h (hcall c _)
  · exact fun c _ _ _ h => absurd h (hcall c _)
  · exact fun c _ _ _ _ _ _ h => absurd h (hcall c _)

/-- A call that ends. -/
theorem setCall (h : s.Kept) (hget : ∀ cur nr, ph ≠ .getting cur nr)
    (hcopy : ∀ cur nr p, ph ≠ .copying cur nr p) : (s.setCall c ph).Kept := by
  have hold : ∀ {c' ph'}, ph' ≠ ph → (s.setCall c ph).call c' = some ph' →
      s.call c' = some ph' := by
    intro c' ph' hne hc
    rw [call_setCall] at hc
    split at hc
    case isTrue => exact absurd (Option.some.inj hc).symm hne
    case isFalse => exact hc
  constructor
  · exact h.ordered
  · exact h.lastPid
  · exact fun c cur nr hc => h.getting c cur nr (hold (hget cur nr).symm hc)
  · exact fun c cur nr p hc => h.copying c cur nr p (hold (hcopy cur nr p).symm hc)
  · exact fun c cur nr p hc => h.child c cur nr p (hold (hcopy cur nr p).symm hc)
  · exact fun c c' cur cur' nr p p' hc hc' => h.apart c c' cur cur' nr p p'
      (hold (hcopy cur nr p).symm hc) (hold (hcopy cur' nr p').symm hc')

/-- A task that no fork is setting up is removed. -/
theorem remove (h : s.Kept) (hi : s.table.task i = some p)
    (hfree : ∀ c cur nr, s.call c ≠ some (.copying cur nr p)) :
    ({ s with table := s.table.remove i p } : Forks).Kept := by
  have hne : ∀ {c cur nr q}, s.call c = some (.copying cur nr q) → nr ≠ i ∧ q ≠ p := by
    intro c cur nr q hc
    have hqp : q ≠ p := by
      rintro rfl
      exact hfree c cur nr hc
    refine ⟨?_, hqp⟩
    rintro rfl
    have htask := h.copying c cur nr q hc
    rw [hi] at htask
    exact hqp (Option.some.inj htask).symm
  constructor
  · exact h.ordered.remove hi
  · exact h.lastPid
  · intro c cur nr hc hlast
    obtain ⟨hlt, hnone, hpid⟩ := h.getting c cur nr hc hlast
    refine ⟨hlt, by simp [hnone], fun j t ht => ?_⟩
    rw [Table.slot_remove h.ordered hi] at ht
    split at ht
    case isTrue => cases ht
    case isFalse => exact hpid j t ht
  · intro c cur nr q hc
    simpa [(hne hc).1] using h.copying c cur nr q hc
  · intro c cur nr q hc hlast
    obtain ⟨t, ht, hpid⟩ := h.child c cur nr q hc hlast
    exact ⟨t, by simp [(hne hc).2, ht], hpid⟩
  · exact h.apart

theorem setpgid (h : s.Kept) (p pgrp : ℕ) :
    ({ s with table := s.table.setpgid p pgrp } : Forks).Kept := by
  constructor
  · exact h.ordered.setpgid p pgrp
  · exact h.lastPid
  · intro c cur nr hc hlast
    obtain ⟨hlt, hnone, hpid⟩ := h.getting c cur nr hc hlast
    refine ⟨hlt, hnone, fun j t ht => ?_⟩
    obtain ⟨u, hu, hpu⟩ := Table.slot_setpgid ht
    exact hpu ▸ hpid j u hu
  · exact h.copying
  · intro c cur nr q hc hlast
    obtain ⟨t, ht, hpid⟩ := h.child c cur nr q hc hlast
    by_cases hq : q = p
    · exact ⟨{ t with pgrp := pgrp }, by simp [Table.setpgid, ← hq, ht], hpid⟩
    · exact ⟨t, by simpa [Table.setpgid, hq] using ht, hpid⟩
  · exact h.apart

/-- `find_empty_process` for a new call. -/
theorem call {x : ℕ} (h : s.Kept) (hx : ¬ s.table.Taken x) (hlt : x < 2 ^ 31)
    (hnr : s.table.findSlot = some nr) :
    (({ s with table := { s.table with lastPid := x }, last := some c } : Forks).setCall c
      (.getting cur nr)).Kept := by
  -- only the new call is the last one, and it holds no child
  have hold : ∀ {c' cur' nr' p'}, (s.setCall c (.getting cur nr)).call c' =
      some (.copying cur' nr' p') → c' ≠ c ∧ s.call c' = some (.copying cur' nr' p') := by
    intro c' cur' nr' p' hc'
    rw [call_setCall] at hc'
    split at hc'
    case isTrue => cases hc'
    case isFalse hne => exact ⟨hne, hc'⟩
  constructor
  · exact ⟨h.ordered.lt, h.ordered.alive, h.ordered.slot, h.ordered.pid⟩
  · exact hlt
  · intro c' cur' nr' hc' hlast
    obtain rfl := Option.some.inj hlast
    rw [call_setCall, if_pos rfl] at hc'
    cases hc'
    obtain ⟨hlt, hnone⟩ := Table.findSlot_spec hnr
    refine ⟨hlt, hnone, fun i t ht hpid => hx ⟨i, ?_, t, ht, .inl hpid⟩⟩
    obtain ⟨q, hq, -⟩ := Table.slot_eq_some.mp ht
    exact h.ordered.lt i q hq
  · exact fun c' cur' nr' p' hc' => h.copying c' cur' nr' p' (hold hc').2
  · intro c' cur' nr' p' hc' hlast
    exact absurd (Option.some.inj hlast).symm (hold hc').1
  · exact fun c₁ c₂ cur₁ cur₂ nr' p₁ p₂ h₁ h₂ =>
      h.apart c₁ c₂ cur₁ cur₂ nr' p₁ p₂ (hold h₁).2 (hold h₂).2

/-- `find_empty_process` finds no slot. -/
theorem last {x : ℕ} (h : s.Kept) (hlt : x < 2 ^ 31) (hc : s.call c = none) :
    ({ s with table := { s.table with lastPid := x }, last := some c } : Forks).Kept := by
  have hne : ∀ {c' ph}, s.call c' = some ph → some c ≠ some c' := by
    rintro c' ph hc' heq
    obtain rfl := Option.some.inj heq
    rw [hc] at hc'
    cases hc'
  constructor
  · exact ⟨h.ordered.lt, h.ordered.alive, h.ordered.slot, h.ordered.pid⟩
  · exact hlt
  · exact fun c' _ _ hc' hlast => absurd hlast (hne hc')
  · exact h.copying
  · exact fun c' _ _ _ hc' hlast => absurd hlast (hne hc')
  · exact h.apart

/-- The child of the last call is stored. -/
theorem store {t : TaskStruct} (h : s.Kept) (hc : s.call c = some (.getting cur nr))
    (hlast : s.last = some c) (hp : s.table.page p = none) (ht : t.pid = s.table.lastPid) :
    (({ s with table := s.table.store nr p t } : Forks).setCall c (.copying cur nr p)).Kept := by
  obtain ⟨hlt, hnone, hpid⟩ := h.getting c cur nr hc hlast
  have hold : ∀ {c' cur' nr' p'}, (s.setCall c (.copying cur nr p)).call c' =
      some (.copying cur' nr' p') → c' = c ∧ cur' = cur ∧ nr' = nr ∧ p' = p ∨
        nr' ≠ nr ∧ s.call c' = some (.copying cur' nr' p') := by
    intro c' cur' nr' p' hc'
    rw [call_setCall] at hc'
    split at hc'
    case isTrue hcc =>
      cases hc'
      exact .inl ⟨hcc, rfl, rfl, rfl⟩
    case isFalse =>
      refine .inr ⟨?_, hc'⟩
      rintro rfl
      have htask := h.copying c' cur' nr' p' hc'
      rw [hnone] at htask
      cases htask
  constructor
  · exact h.ordered.store hlt hp fun i u hu => ht ▸ hpid i u hu
  · exact h.lastPid
  · intro c' cur' nr' hc' hlast'
    have hcc : c' = c := Option.some.inj (hlast'.symm.trans hlast)
    rw [call_setCall, if_pos hcc] at hc'
    cases hc'
  · intro c' cur' nr' p' hc'
    rcases hold hc' with ⟨-, -, rfl, rfl⟩ | ⟨hne, hc'⟩
    · simp
    · simpa [hne] using h.copying c' cur' nr' p' hc'
  · intro c' cur' nr' p' hc' hlast'
    have hcc : c' = c := Option.some.inj (hlast'.symm.trans hlast)
    rw [call_setCall, if_pos hcc] at hc'
    cases hc'
    exact ⟨t, by simp, ht⟩
  · intro c₁ c₂ cur₁ cur₂ nr' p₁ p₂ h₁ h₂
    rcases hold h₁ with ⟨hcc, -, hnr, -⟩ | ⟨hne, h₁⟩ <;>
      rcases hold h₂ with ⟨hcc', -, hnr', -⟩ | ⟨hne', h₂⟩
    · exact hcc.trans hcc'.symm
    · exact absurd hnr hne'
    · exact absurd hnr' hne
    · exact h.apart c₁ c₂ cur₁ cur₂ nr' p₁ p₂ h₁ h₂

theorem step {e : Event} (h : s.Kept) (hg : e.Guard s) (hs : forking.step s e s') :
    s'.Kept := by
  obtain ⟨hallowed, hs⟩ := hs
  cases e with
  | call c n =>
    simp only [Forks.step] at hs
    split at hs
    case h_2 => cases hs
    case h_1 hc _ =>
      obtain ⟨⟨nr, table⟩, hfind, hs⟩ := Option.map_eq_some_iff.mp hs
      obtain ⟨hnr, x, hx, hlt, rfl⟩ := Table.findEmptyProcess_spec hfind
      cases nr with
      | none =>
        cases hs
        exact (h.last hlt hc).setCall (fun _ _ h => by cases h) fun _ _ _ h => by cases h
      | some nr =>
        cases hs
        exact h.call hx hlt hnr.symm
  | store c p =>
    simp only [Forks.step] at hs
    split at hs
    case h_2 => cases hs
    case h_1 hc hp =>
      obtain ⟨t, -, rfl⟩ := Option.map_eq_some_iff.mp hs
      exact h.store hc hg hp rfl
  | noPage c =>
    simp only [Forks.step] at hs
    split at hs
    case h_2 => cases hs
    case h_1 =>
      cases hs
      exact h.setCall (fun _ _ h => by cases h) fun _ _ _ h => by cases h
  | finish c =>
    simp only [Forks.step] at hs
    split at hs
    case h_2 => cases hs
    case h_1 =>
      cases hs
      exact h.setCall (fun _ _ h => by cases h) fun _ _ _ h => by cases h
  | noMem c =>
    simp only [Forks.step] at hs
    split at hs
    case h_2 => cases hs
    case h_1 cur nr p hc =>
      cases hs
      have hend : (s.setCall c .failed).Kept :=
        h.setCall (fun _ _ h => by cases h) fun _ _ _ h => by cases h
      refine hend.remove (h.copying c cur nr p hc) fun c' cur' nr' hc' => ?_
      rw [call_setCall] at hc'
      split at hc'
      case isTrue => cases hc'
      case isFalse hne =>
        obtain rfl := h.ordered.slot nr nr' p (h.copying _ _ _ _ hc) (h.copying _ _ _ _ hc')
        exact hne (h.apart c' c _ _ _ _ _ hc' hc)
  | release i =>
    simp only [Forks.step] at hs
    split at hs
    case h_2 => cases hs
    case h_1 p hi =>
      split at hs
      case isFalse => cases hs
      case isTrue =>
        cases hs
        exact h.remove hi fun c cur nr hc => hallowed p hi c _ hc (.inr rfl)
  | setpgid p pgrp =>
    cases hs
    exact h.setpgid p pgrp

theorem reach (hr : forking.Reach Event.Guard s) : s.Kept := by
  refine hr.invariant ?_ fun _ _ _ h hg hs => h.step hg hs
  rintro s ⟨p, rfl⟩
  exact start p

/-- What a step does to the tasks, in a state the calls rely on. -/
theorem separates {e : Event} (h : s.Kept) (hg : e.Guard s) (hs : forking.step s e s') :
    Apart s e s' := by
  obtain ⟨-, hs⟩ := hs
  constructor
  · rintro c p rfl i q hq
    simp only [Forks.step] at hs
    split at hs
    case h_2 => cases hs
    case h_1 cur nr hc hp =>
      obtain ⟨t, -, rfl⟩ := Option.map_eq_some_iff.mp hs
      have hi : i ≠ nr := by
        rintro rfl
        rw [(h.getting c cur i hc hg).2.1] at hq
        cases hq
      have hqp : q ≠ p := fun heq => h.ordered.ne_of_page hp i (heq ▸ hq)
      simp [hi, hq, hqp]
  · rintro c rfl i q hq
    simp only [Forks.step] at hs
    split at hs
    case h_2 => cases hs
    case h_1 cur nr p hc =>
      cases hs
      by_cases hi : i = nr
      · subst hi
        have hp := h.copying c cur i p hc
        rw [hq] at hp
        cases hp
        exact .inr ⟨cur, hc⟩
      · exact .inl (by simp [hi, hq])
  · rintro c rfl
    simp only [Forks.step] at hs
    split at hs
    case h_2 => cases hs
    case h_1 cur nr p hc =>
      cases hs
      obtain ⟨t, ht, hpid⟩ := h.child c cur nr p hc hg
      exact ⟨cur, nr, p, t, hc, h.copying c cur nr p hc, ht, by simp [hpid]⟩

end Kept

end Forks

/-- Along a run in which no fork runs `find_empty_process` between that of another
and the store of its child, or its return, the tasks have different numbers and
slots, no task is overwritten, and a parent gets the number of its own child. -/
theorem fork_separate {s : Forks} (hr : forking.Reach Event.Guard s) :
    Separate s ∧ ∀ e s', e.Guard s → forking.step s e s' → Apart s e s' := by
  have h := Forks.Kept.reach hr
  refine ⟨⟨h.ordered.pid, h.ordered.slot⟩, fun e s' hg hs => ?_⟩
  exact h.separates hg hs

/-! ### Runs from a list of steps -/

namespace Forks

/-- The machine after a step that removes no process. -/
def next (s : Forks) : Event → Option Forks
  | .release _ => none
  | e => s.step e

theorem step_of_next (s : Forks) (e : Event) (s' : Forks) (h : s.next e = some s') :
    forking.step s e s' := by
  cases e with
  | release i => cases h
  | _ => exact ⟨trivial, h⟩

theorem reach_start {G : Forks → Event → Prop} (p : ℕ) : forking.Reach G (start p) :=
  .init ⟨p, rfl⟩

end Forks

theorem fork_separate_forked : ∃ s₁ s₂ s₃ : Forks, (Forks.start 8).next (.call 0 0) = some s₁ ∧
    s₁.next (.store 0 9) = some s₂ ∧ s₂.next (.finish 0) = some s₃ ∧
    Separate s₂ ∧ Apart s₂ (.finish 0) s₃ := by
  have hrun : ((Forks.start 8).next (.call 0 0)).any (fun s₁ =>
      (s₁.next (.store 0 9)).any fun s₂ => (s₂.next (.finish 0)).any fun _ =>
        decide (s₁.last = some 0 ∧ s₂.last = some 0)) = true := by
    decide +kernel
  obtain ⟨s₁, h₁, hrun⟩ := (Option.any_eq_true _ _).mp hrun
  obtain ⟨s₂, h₂, hrun⟩ := (Option.any_eq_true _ _).mp hrun
  obtain ⟨s₃, h₃, hrun⟩ := (Option.any_eq_true _ _).mp hrun
  rw [decide_eq_true_iff] at hrun
  obtain ⟨hlast₁, hlast₂⟩ := hrun
  have hreach₁ : forking.Reach Event.Guard s₁ :=
    (Forks.reach_start 8).step (by exact trivial) (Forks.step_of_next _ _ _ h₁)
  have hreach : forking.Reach Event.Guard s₂ :=
    hreach₁.step (by exact hlast₁) (Forks.step_of_next _ _ _ h₂)
  obtain ⟨hsep, hapart⟩ := fork_separate hreach
  exact ⟨s₁, s₂, s₃, h₁, h₂, h₃, hsep, hapart _ _ hlast₂ (Forks.step_of_next _ _ _ h₃)⟩

/-- Process 0 forks into slot 1, and both fork again: while the first sleeps in
`get_free_page`, the second gets the same slot and stores its child. -/
def overlappingRun : List Event :=
  [.call 0 0, .store 0 9, .finish 0, .call 1 0, .call 2 1, .store 2 10, .finish 2]

/-- After `overlappingRun` the first fork overwrites the child of the second, and
the two children have one number. -/
theorem fork_overwrites : ¬ ∀ (s s' : Forks) (e : Event), forking.Reachable s →
    forking.step s e s' → Apart s e s' := by
  have hrun : (System.runOf Forks.next overlappingRun (.start 8)).any (fun s =>
      (s.next (.store 1 11)).any fun s' =>
        decide (s.table.task 2 = some 10 ∧ s'.table.task 2 = some 11 ∧
          s.call 2 = some (.returned 3) ∧ (s'.table.slot 2).map TaskStruct.pid = some 3)) = true := by
    decide +kernel
  obtain ⟨s, hs, hrun⟩ := (Option.any_eq_true _ _).mp hrun
  obtain ⟨s', hs', hrun⟩ := (Option.any_eq_true _ _).mp hrun
  rw [decide_eq_true_iff] at hrun
  obtain ⟨htask, htask', -⟩ := hrun
  intro h
  have hreach : forking.Reachable s :=
    .of_runOf Forks.step_of_next (fun _ _ _ => trivial) (Forks.reach_start 8) hs
  obtain ⟨hkept, -⟩ :=
    (h s s' _ hreach (Forks.step_of_next _ _ _ hs')).store 1 11 rfl 2 10 htask
  rw [htask'] at hkept
  cases hkept

end Sched
