/-
The table of open files (`dupfd`, `sys_dup2` and `sys_fcntl` of fs/fcntl.c, `sys_open` and
`sys_close` of fs/open.c, `sys_pipe` of fs/pipe.c, the files in `copy_process` and `do_exit`).

* `Table` — `f_count` of the entries, and `filp` and `close_on_exec` of all processes;
* `Table.step` — a process goes on with its call to where it may sleep;
* `Exact` — every count is the number of slots that name the entry, and `close_on_exec` has no
  bit of a free slot;
* `open_files` — the table is exact in all runs, and a call that returns an error leaves the
  descriptors as they were, but for a `sys_dup2` that is not careful;
* `dup2_self` — `dup2(0, 0)` closes descriptor 0.

Design notes: `f_count` is at most `NR_TASKS * NR_OPEN`, and does not wrap.  `open_namei`,
`check_char_dev` and `get_pipe_inode` are what they return, and the inode of an entry is left
out.  A process may die in a call, where a page fault finds no memory.  A child is a process
from the loop over its files on.
-/
import Linux012.Runs
import Linux012.Counting

namespace Fs.Descriptors

open Function (update)

/-- `NR_OPEN` and `NR_FILE`. -/
def nrOpen : ℕ := 20
def nrFile : ℕ := 64

def EPERM : ℕ := 1
def EBADF : ℕ := 9
def EINVAL : ℕ := 22
def EMFILE : ℕ := 24

/-- The descriptors of a process. -/
structure Descs where
  filp : ℕ → Option ℕ
  /-- the bits of `close_on_exec` -/
  closeOnExec : ℕ → Bool

/-- Where a process is. -/
inductive Phase where
  /-- there is no process -/
  | none
  | idle
  /-- `sys_open` in `open_namei` -/
  | opening (fd f : ℕ)
  /-- `sys_pipe` in `get_pipe_inode` -/
  | piping (fd₀ fd₁ f₀ f₁ : ℕ)
  /-- `sys_dup2` in `iput` of `sys_close` -/
  | duplicating (oldfd newfd : ℕ)
  /-- the loop of `do_exit`, at descriptor `i` -/
  | exiting (i : ℕ)
  deriving DecidableEq

/-- The call that a process is in, or has returned from. -/
inductive Call where
  | other
  | dup2 (oldfd newfd : ℕ)
  deriving DecidableEq

structure Task where
  descs : Descs
  phase : Phase
  /-- the call, the descriptors at its start, and what it has returned (not in the source) -/
  call : Call
  entry : Descs
  result : Option (Except ℕ ℕ)

/-- `file_table`, and the processes. -/
structure Table (P : Type) where
  /-- `f_count` -/
  count : ℕ → ℕ
  task : P → Task

namespace Descs

/-- The entry that a descriptor names. -/
def lookup (d : Descs) (fd : ℕ) : Option ℕ := if nrOpen ≤ fd then none else d.filp fd

def set (d : Descs) (fd : ℕ) (f : Option ℕ) : Descs := { d with filp := update d.filp fd f }

/-- `close_on_exec &= ~(1 << fd)`. -/
def clearClose (d : Descs) (fd : ℕ) : Descs :=
  { d with closeOnExec := update d.closeOnExec fd false }

/-- The free descriptors from `arg` on. -/
def frees (d : Descs) (arg : ℕ) : List ℕ :=
  (List.range' arg (nrOpen - arg)).filter fun fd => (d.filp fd).isNone

/-- Descriptor `b` is free, or `a` is another one and not free. -/
def Careful (d : Descs) (a b : ℕ) : Prop := d.lookup b ≠ none → d.lookup a ≠ none ∧ a ≠ b

instance (d : Descs) (a b : ℕ) : Decidable (d.Careful a b) :=
  inferInstanceAs (Decidable (_ → _))

end Descs

namespace Task

/-- A call starts. -/
def start (t : Task) (call : Call) : Task :=
  { t with call := call, entry := t.descs, result := none }

/-- A call returns. -/
def ret (t : Task) (result : Except ℕ ℕ) : Task :=
  { t with phase := .idle, result := some result }

end Task

/-- `sys_close`, up to `iput`; none is a panic. -/
def closeFd (count : ℕ → ℕ) (t : Task) (fd : ℕ) : Option (Task × (ℕ → ℕ) × Except ℕ ℕ) :=
  if nrOpen ≤ fd then some (t, count, .error EINVAL)
  else
    let d := t.descs.clearClose fd
    match d.filp fd with
    | none => some ({ t with descs := d }, count, .error EINVAL)
    | some f =>
      if count f = 0 then none
      else some ({ t with descs := d.set fd none }, update count f (count f - 1), .ok 0)

/-- `dupfd`. -/
def dupfd (count : ℕ → ℕ) (t : Task) (fd arg : ℕ) : Task × (ℕ → ℕ) :=
  match t.descs.lookup fd with
  | none => (t.ret (.error EBADF), count)
  | some f =>
    if nrOpen ≤ arg then (t.ret (.error EINVAL), count)
    else
      match t.descs.frees arg with
      | [] => (t.ret (.error EMFILE), count)
      | arg :: _ =>
        (({ t with descs := (t.descs.clearClose arg).set arg (some f) } : Task).ret (.ok arg),
          update count f (count f + 1))

/-- The loop of `copy_process` over the first `n` descriptors. -/
def forkLoop (filp : ℕ → Option ℕ) : ℕ → (ℕ → ℕ) → ℕ → ℕ
  | 0, count => count
  | n + 1, count =>
    let count := forkLoop filp n count
    match filp n with
    | none => count
    | some f => update count f (count f + 1)

/-- A step of a process. -/
inductive Event (P : Type) where
  | openBegin (p : P)
  /-- `open_namei` and `check_char_dev` come to an error, or not -/
  | openEnd (p : P) (errno : Option ℕ)
  | close (p : P) (fd : ℕ)
  /-- `sys_fcntl` with `F_DUPFD`, and `sys_dup` where `arg` is 0 -/
  | dup (p : P) (fd arg : ℕ)
  | dup2 (p : P) (oldfd newfd : ℕ)
  | pipe (p : P)
  /-- `get_pipe_inode` finds an inode -/
  | pipeEnd (p : P) (found : Bool)
  /-- `sys_fcntl` with `F_SETFD` -/
  | setFd (p : P) (fd : ℕ) (on : Bool)
  | fork (p child : P)
  | exit (p : P)
  | go (p : P)

namespace Table

variable {P : Type} [DecidableEq P]

def change (s : Table P) (p : P) (t : Task) (count : ℕ → ℕ) : Table P :=
  ⟨count, update s.task p t⟩

/-- The entries that are not in use. -/
def freeFiles (s : Table P) : List ℕ := (List.range nrFile).filter fun f => s.count f = 0

/-- `sys_open`, up to `open_namei`. -/
def sysOpen (s : Table P) (p : P) : Table P :=
  let t := (s.task p).start .other
  match t.descs.frees 0 with
  | [] => s.change p (t.ret (.error EINVAL)) s.count
  | fd :: _ =>
    let d := t.descs.clearClose fd
    match s.freeFiles with
    | [] => s.change p (({ t with descs := d } : Task).ret (.error EINVAL)) s.count
    | f :: _ =>
      s.change p { t with descs := d.set fd (some f), phase := .opening fd f }
        (update s.count f (s.count f + 1))

/-- `sys_open`, from there on. -/
def openEnd (s : Table P) (p : P) (errno : Option ℕ) : Option (Table P) :=
  let t := s.task p
  match t.phase with
  | .opening fd f =>
    match errno with
    | some errno =>
      some (s.change p (({ t with descs := t.descs.set fd none } : Task).ret (.error errno))
        (update s.count f 0))
    | none => some (s.change p (t.ret (.ok fd)) (update s.count f 1))
  | _ => none

/-- `sys_pipe`, up to `get_pipe_inode`. -/
def sysPipe (s : Table P) (p : P) : Table P :=
  let t := (s.task p).start .other
  match s.freeFiles with
  | [] => s.change p (t.ret (.error EPERM)) s.count
  | [f₀] => s.change p (t.ret (.error EPERM)) (update s.count f₀ 0)
  | f₀ :: f₁ :: _ =>
    let count := update (update s.count f₀ (s.count f₀ + 1)) f₁ (s.count f₁ + 1)
    match t.descs.frees 0 with
    | [] => s.change p (t.ret (.error EPERM)) (update (update count f₁ 0) f₀ 0)
    | [fd₀] =>
      let t := { t with descs := (t.descs.set fd₀ (some f₀)).set fd₀ none }
      s.change p (t.ret (.error EPERM)) (update (update count f₁ 0) f₀ 0)
    | fd₀ :: fd₁ :: _ =>
      let d := (t.descs.set fd₀ (some f₀)).set fd₁ (some f₁)
      s.change p { t with descs := d, phase := .piping fd₀ fd₁ f₀ f₁ } count

/-- `sys_pipe`, from there on. -/
def pipeEnd (s : Table P) (p : P) (found : Bool) : Option (Table P) :=
  let t := s.task p
  match t.phase with
  | .piping fd₀ fd₁ f₀ f₁ =>
    if found then some (s.change p (t.ret (.ok 0)) s.count)
    else
      let t := { t with descs := (t.descs.set fd₁ none).set fd₀ none }
      some (s.change p (t.ret (.error EPERM)) (update (update s.count f₁ 0) f₀ 0))
  | _ => none

def sysClose (s : Table P) (p : P) (fd : ℕ) : Option (Table P) :=
  (closeFd s.count ((s.task p).start .other) fd).map fun r => s.change p (r.1.ret r.2.2) r.2.1

def sysDup (s : Table P) (p : P) (fd arg : ℕ) : Table P :=
  let r := dupfd s.count ((s.task p).start .other) fd arg
  s.change p r.1 r.2

/-- `sys_dup2`, up to the end of `sys_close`. -/
def sysDup2 (s : Table P) (p : P) (oldfd newfd : ℕ) : Option (Table P) :=
  (closeFd s.count ((s.task p).start (.dup2 oldfd newfd)) newfd).map fun r =>
    s.change p { r.1 with phase := .duplicating oldfd newfd } r.2.1

def setFd (s : Table P) (p : P) (fd : ℕ) (on : Bool) : Table P :=
  let t := (s.task p).start .other
  match t.descs.lookup fd with
  | none => s.change p (t.ret (.error EBADF)) s.count
  | some _ =>
    let t := { t with descs := { t.descs with closeOnExec := update t.descs.closeOnExec fd on } }
    s.change p (t.ret (.ok 0)) s.count

/-- `copy_process`. -/
def fork (s : Table P) (p child : P) : Table P :=
  let t := (s.task p).start .other
  (s.change p t s.count).change child t (forkLoop t.descs.filp nrOpen s.count)

/-- `do_exit`, up to its loop. -/
def doExit (s : Table P) (p : P) : Option (Table P) :=
  match (s.task p).phase with
  | .none => none
  | .exiting _ => none
  | _ => some (s.change p { (s.task p).start .other with phase := .exiting 0 } s.count)

/-- A process goes on after `iput`. -/
def go (s : Table P) (p : P) : Option (Table P) :=
  let t := s.task p
  match t.phase with
  | .duplicating oldfd newfd =>
    let r := dupfd s.count t oldfd newfd
    some (s.change p r.1 r.2)
  | .exiting i =>
    if nrOpen ≤ i then some (s.change p { t with phase := .none } s.count)
    else
      match t.descs.filp i with
      | none => some (s.change p { t with phase := .exiting (i + 1) } s.count)
      | some _ => (closeFd s.count t i).map fun r =>
        s.change p { r.1 with phase := .exiting (i + 1) } r.2.1
  | _ => none

def step (s : Table P) : Event P → Option (Table P)
  | .openBegin p => if (s.task p).phase = .idle then some (s.sysOpen p) else none
  | .openEnd p errno => s.openEnd p errno
  | .close p fd => if (s.task p).phase = .idle then s.sysClose p fd else none
  | .dup p fd arg => if (s.task p).phase = .idle then some (s.sysDup p fd arg) else none
  | .dup2 p oldfd newfd => if (s.task p).phase = .idle then s.sysDup2 p oldfd newfd else none
  | .pipe p => if (s.task p).phase = .idle then some (s.sysPipe p) else none
  | .pipeEnd p found => s.pipeEnd p found
  | .setFd p fd on => if (s.task p).phase = .idle then some (s.setFd p fd on) else none
  | .fork p child =>
    if (s.task p).phase = .idle ∧ (s.task child).phase = .none then some (s.fork p child) else none
  | .exit p => s.doExit p
  | .go p => s.go p

/-- At the start no descriptor is in use. -/
structure Start (s : Table P) : Prop where
  count : ∀ f, s.count f = 0
  filp : ∀ p fd, (s.task p).descs.filp fd = none
  closeOnExec : ∀ p fd, (s.task p).descs.closeOnExec fd = false
  phase : ∀ p, (s.task p).phase = .none ∨ (s.task p).phase = .idle
  result : ∀ p, (s.task p).result = none
  call : ∀ p, (s.task p).call = .other

end Table

variable {P : Type} [DecidableEq P]

/-- The runs of the table. -/
def openFiles : System (Table P) (Event P) where
  init s := s.Start
  step s e s' := s.step e = some s'

/-- A `sys_dup2` closes a descriptor only if it can name the other file then. -/
def Event.Guard (s : Table P) : Event P → Prop
  | .dup2 p oldfd newfd => (s.task p).descs.Careful oldfd newfd
  | _ => True

/-! ### What is to hold -/

/-- How many of the first `n` slots name the entry. -/
def owns (n : ℕ) (filp : ℕ → Option ℕ) (f : ℕ) : ℕ :=
  ∑ fd : Fin n, if filp fd = some f then 1 else 0

def Task.owns (t : Task) (f : ℕ) : ℕ := Descriptors.owns nrOpen t.descs.filp f

/-- How many slots of all processes name the entry. -/
def Table.slots [Fintype P] (s : Table P) (f : ℕ) : ℕ := ∑ p, (s.task p).owns f

/-- `f_count` counts the slots, and `close_on_exec` has no bit of a free one. -/
structure Table.Exact [Fintype P] (s : Table P) : Prop where
  counts : ∀ f, s.count f = s.slots f
  bits : ∀ p, ∀ fd < nrOpen, (s.task p).descs.closeOnExec fd = true →
    (s.task p).descs.filp fd ≠ none
  /-- `sys_close` does not panic -/
  closes : ∀ p fd, (closeFd s.count (s.task p) fd).isSome

/-- What is to hold of a call that has returned. -/
structure Task.Kept (t : Task) : Prop where
  error : ∀ errno, t.result = some (.error errno) → t.descs = t.entry
  dup2 : ∀ a b n, t.call = .dup2 a b → t.result = some (.ok n) →
    n = b ∧ t.descs.filp b ≠ none ∧ t.descs.filp b = t.entry.filp a

def Task.Careful (t : Task) : Prop := ∀ a b, t.call = .dup2 a b → t.entry.Careful a b

/-! ### Counting the slots -/

theorem owns_update {n fd : ℕ} (h : fd < n) (filp : ℕ → Option ℕ) (v : Option ℕ) (f : ℕ) :
    owns n (update filp fd v) f + (if filp fd = some f then 1 else 0) =
      owns n filp f + if v = some f then 1 else 0 := by
  have hsum := Counting.sum_add_of_eq_off (fun x : Fin n => if filp x = some f then 1 else 0)
    (fun x : Fin n => if update filp fd v x = some f then 1 else 0) ⟨fd, h⟩ fun x hx => by
      have hne : (x : ℕ) ≠ fd := fun heq => hx (Fin.ext heq)
      simp only [Function.update_of_ne hne]
  simp only [Function.update_self] at hsum
  exact hsum

theorem owns_pos {n fd f : ℕ} {filp : ℕ → Option ℕ} (h : fd < n) (hf : filp fd = some f) :
    0 < owns n filp f := by
  have hsum := owns_update h filp none f
  rw [if_pos hf, if_neg (by simp)] at hsum
  omega

theorem owns_eq_zero {n : ℕ} {filp : ℕ → Option ℕ} (h : ∀ fd < n, filp fd = none) (f : ℕ) :
    owns n filp f = 0 :=
  Finset.sum_eq_zero fun fd _ => by rw [h fd fd.isLt, if_neg (by simp)]

theorem forkLoop_apply (filp : ℕ → Option ℕ) (n : ℕ) (count : ℕ → ℕ) (f : ℕ) :
    forkLoop filp n count f = count f + owns n filp f := by
  induction n with
  | zero => rfl
  | succ n ih =>
    have hsum : owns (n + 1) filp f = owns n filp f + if filp n = some f then 1 else 0 :=
      Fin.sum_univ_castSucc _
    rw [forkLoop, hsum]
    cases hn : filp n with
    | none =>
      simp only [reduceCtorEq, if_false, add_zero]
      exact ih
    | some g =>
      by_cases hg : g = f
      · subst hg
        simp only [Function.update_self, if_true, ih]
        omega
      · simp only [Function.update_of_ne (Ne.symm hg), Option.some.injEq, hg, if_false, ih]
        omega

namespace Table

variable [Fintype P] {s s' : Table P} {p q : P} {f fd : ℕ}

theorem slots_change (t : Task) (count : ℕ → ℕ) (f : ℕ) :
    (s.change p t count).slots f + (s.task p).owns f = s.slots f + t.owns f := by
  have hsum := Counting.sum_add_of_eq_off (fun q => (s.task q).owns f)
    (fun q => (update s.task p t q).owns f) p fun q hq => by rw [Function.update_of_ne hq]
  simp only [Function.update_self] at hsum
  exact hsum

omit [DecidableEq P] in
theorem owns_le_slots (p : P) (f : ℕ) : (s.task p).owns f ≤ s.slots f :=
  Finset.single_le_sum (fun q _ => Nat.zero_le ((s.task q).owns f)) (Finset.mem_univ p)

/-- Two processes that name an entry. -/
theorem owns_add_le_slots (hpq : p ≠ q) (f : ℕ) :
    (s.task p).owns f + (s.task q).owns f ≤ s.slots f := by
  have hle := Finset.sum_le_univ_sum_of_nonneg (s := {p, q}) (f := fun x => (s.task x).owns f)
    fun x => Nat.zero_le _
  rwa [Finset.sum_pair hpq] at hle

end Table

/-! ### What a process does to the counts -/

/-- The counts follow the slots of a process, which names no entry that others use. -/
structure Moves (count : ℕ → ℕ) (t : Task) (count' : ℕ → ℕ) (t' : Task) : Prop where
  balanced : ∀ f, count' f + t.owns f = count f + t'.owns f
  fresh : ∀ f, t.owns f = 0 → count f ≠ 0 → t'.owns f = 0

namespace Moves

variable {count count' count'' : ℕ → ℕ} {t t' t'' : Task} {f fd : ℕ}

theorem of_eq (h : t'.descs.filp = t.descs.filp) : Moves count t count t' := by
  have howns : t'.owns = t.owns := by
    funext f
    rw [Task.owns, Task.owns, h]
  exact ⟨fun f => by rw [howns], fun f h0 _ => by rw [howns, h0]⟩

theorem trans (h : Moves count t count' t') (h' : Moves count' t' count'' t'') :
    Moves count t count'' t'' := by
  refine ⟨fun f => ?_, fun f h0 hf => ?_⟩
  · have := h.balanced f
    have := h'.balanced f
    omega
  · have hzero := h.fresh f h0 hf
    have := h.balanced f
    exact h'.fresh f hzero (by omega)

theorem start {call : Call} (h : Moves count (t.start call) count' t') : Moves count t count' t' :=
  ⟨h.balanced, h.fresh⟩

/-- A free slot names an entry that is free, or that the process names. -/
theorem put (hfd : fd < nrOpen) (hfree : t.descs.filp fd = none)
    (hf : t.owns f ≠ 0 ∨ count f = 0) (ht : t'.descs.filp = update t.descs.filp fd (some f)) :
    Moves count t (update count f (count f + 1)) t' := by
  have howns : ∀ g, t'.owns g = t.owns g + if f = g then 1 else 0 := fun g => by
    have hsum := owns_update hfd t.descs.filp (some f) g
    rw [hfree, if_neg (by simp), add_zero, ← ht] at hsum
    simpa [Task.owns] using hsum
  refine ⟨fun g => ?_, fun g h0 hg => ?_⟩
  · by_cases hfg : f = g
    · subst hfg
      rw [howns, if_pos rfl, Function.update_self]
      omega
    · rw [howns, if_neg hfg, Function.update_of_ne (Ne.symm hfg), add_zero]
  · rw [howns, h0, if_neg]
    rintro rfl
    exact hf.elim (· h0) hg

/-- A slot is freed. -/
theorem drop (hfd : fd < nrOpen) (hf : t.descs.filp fd = some f) (hpos : count f ≠ 0)
    (ht : t'.descs.filp = update t.descs.filp fd none) :
    Moves count t (update count f (count f - 1)) t' := by
  have howns : ∀ g, t'.owns g + (if f = g then 1 else 0) = t.owns g := fun g => by
    have hsum := owns_update hfd t.descs.filp none g
    rw [hf, ← ht, if_neg (by simp : ¬ (none : Option ℕ) = some g), add_zero] at hsum
    simpa [Task.owns] using hsum
  refine ⟨fun g => ?_, fun g h0 hg => ?_⟩
  · have hg := howns g
    by_cases hfg : f = g
    · subst hfg
      rw [if_pos rfl] at hg
      rw [Function.update_self]
      omega
    · rw [if_neg hfg] at hg
      rw [Function.update_of_ne (Ne.symm hfg)]
      omega
  · have hg := howns g
    omega

end Moves

/-! ### What holds of a process -/

/-- No bit of a free slot is set. -/
def Descs.Clean (d : Descs) : Prop := ∀ fd < nrOpen, d.closeOnExec fd = true → d.filp fd ≠ none

/-- After `sys_close`. -/
def Descs.closed (d : Descs) (fd : ℕ) : Descs :=
  if nrOpen ≤ fd then d else (d.clearClose fd).set fd none

/-- The entries that only the call in progress names. -/
def Phase.reserved : Phase → List ℕ
  | .opening _ f => [f]
  | .piping _ _ f₀ f₁ => [f₀, f₁]
  | _ => []

/-- What holds of a process between two steps. -/
structure Task.Good (t : Task) : Prop where
  clean : t.descs.Clean
  empty : t.phase = .none → ∀ fd < nrOpen, t.descs.filp fd = none
  exiting : ∀ i, t.phase = .exiting i → ∀ fd < nrOpen, fd < i → t.descs.filp fd = none
  opening : ∀ fd f, t.phase = .opening fd f → t.call = .other ∧ t.entry.Clean ∧ fd < nrOpen ∧
    t.descs.filp fd = some f ∧ t.descs.set fd none = t.entry
  piping : ∀ fd₀ fd₁ f₀ f₁, t.phase = .piping fd₀ fd₁ f₀ f₁ → t.call = .other ∧ t.entry.Clean ∧
    fd₀ < nrOpen ∧ fd₁ < nrOpen ∧ fd₀ ≠ fd₁ ∧ f₀ ≠ f₁ ∧ t.descs.filp fd₀ = some f₀ ∧
    t.descs.filp fd₁ = some f₁ ∧ (t.descs.set fd₁ none).set fd₀ none = t.entry
  duplicating : ∀ a b, t.phase = .duplicating a b → t.call = .dup2 a b ∧ t.entry.Clean ∧
    t.descs = t.entry.closed b
  result : ∀ r, t.result = some r → t.phase = .idle ∧ (t.Kept ↔ t.Careful)

section

variable {count : ℕ → ℕ} {t : Task} {d : Descs} {fd f arg a b errno n : ℕ}

/-- A free slot has no bit. -/
theorem Descs.Clean.clearClose_eq (h : d.Clean) (hfd : fd < nrOpen) (hfree : d.filp fd = none) :
    d.clearClose fd = d := by
  have hbit : d.closeOnExec fd = false := by
    by_contra hbit
    exact h fd hfd (by simpa using hbit) hfree
  rw [Descs.clearClose, ← hbit, Function.update_eq_self]

theorem Descs.set_eq (hfree : d.filp fd = none) : d.set fd none = d := by
  rw [Descs.set, ← hfree, Function.update_eq_self]

theorem Descs.set_set (v : Option ℕ) : (d.set fd v).set fd none = d.set fd none := by
  rw [Descs.set, Descs.set, Descs.set, Function.update_idem]

theorem Descs.Clean.set_some (h : d.Clean) (fd f : ℕ) : (d.set fd (some f)).Clean := by
  intro x hx hbit
  by_cases hxf : x = fd
  · subst hxf
    simp [Descs.set]
  · simpa only [Descs.set, Function.update_of_ne hxf] using h x hx hbit

theorem Descs.Clean.closed (h : d.Clean) (fd : ℕ) : (d.closed fd).Clean := by
  rw [Descs.closed]
  split
  · exact h
  · intro x hx hbit
    by_cases hxf : x = fd
    · subst hxf
      simp [Descs.set, Descs.clearClose] at hbit
    · simp only [Descs.set, Descs.clearClose, Function.update_of_ne hxf] at hbit ⊢
      exact h x hx hbit

/-- The close of a free slot changes nothing. -/
theorem Descs.Clean.closed_eq (h : d.Clean) (hfree : d.lookup fd = none) : d.closed fd = d := by
  rw [Descs.closed]
  split
  · rfl
  case isFalse hfd =>
    rw [Descs.lookup, if_neg hfd] at hfree
    rw [h.clearClose_eq (by omega) hfree, Descs.set_eq hfree]

theorem Descs.mem_frees : n ∈ d.frees arg ↔ arg ≤ n ∧ n < nrOpen ∧ d.filp n = none := by
  rw [Descs.frees, List.mem_filter, List.mem_range'_1, Option.isNone_iff_eq_none, ← and_assoc]
  refine and_congr_left fun _ => ?_
  omega

theorem careful_other (h : t.call = .other) : t.Careful := fun a b hcall => by
  rw [h] at hcall
  cases hcall

/-- A call returns an error, with the descriptors as they were. -/
theorem good_error (hclean : t.descs.Clean) (hcall : t.call = .other) (hd : t.descs = t.entry) :
    (t.ret (.error errno)).Good where
  clean := hclean
  empty := nofun
  exiting := nofun
  opening := nofun
  piping := nofun
  duplicating := nofun
  result := fun _ _ => ⟨rfl, iff_of_true ⟨fun _ _ => hd, fun _ _ _ _ h => nomatch h⟩
    (careful_other hcall)⟩

theorem good_ok (hclean : t.descs.Clean) (hcall : t.call = .other) : (t.ret (.ok n)).Good where
  clean := hclean
  empty := nofun
  exiting := nofun
  opening := nofun
  piping := nofun
  duplicating := nofun
  result := fun _ _ => by
    refine ⟨rfl, iff_of_true ⟨fun _ h => (nomatch h), fun a b n h => ?_⟩ (careful_other hcall)⟩
    have h : t.call = .dup2 a b := h
    rw [hcall] at h
    cases h

/-! ### `sys_close` and `dupfd` -/

theorem closeFd_cases {r : Task × (ℕ → ℕ) × Except ℕ ℕ} (hclean : t.descs.Clean)
    (h : closeFd count t fd = some r) : r.1 = { t with descs := t.descs.closed fd } ∧
      Moves count t r.2.1 r.1 ∧ ∀ errno, r.2.2 = .error errno → t.descs.closed fd = t.descs := by
  rw [closeFd] at h
  split at h
  case isTrue hfd =>
    cases h
    have hclosed : t.descs.closed fd = t.descs := if_pos hfd
    exact ⟨by rw [hclosed], .of_eq rfl, fun _ _ => hclosed⟩
  case isFalse hfd =>
    have hclosed : t.descs.closed fd = (t.descs.clearClose fd).set fd none := if_neg hfd
    dsimp only at h
    split at h
    case h_1 hfree =>
      cases h
      have hsame : t.descs.closed fd = t.descs.clearClose fd := by
        rw [hclosed, Descs.set_eq hfree]
      refine ⟨by rw [hsame], .of_eq rfl, fun _ _ => ?_⟩
      rw [hsame, hclean.clearClose_eq (by omega) hfree]
    case h_2 f hf =>
      split at h
      case isTrue => cases h
      case isFalse hpos =>
        cases h
        refine ⟨by rw [hclosed], ?_, nofun⟩
        exact .drop (by omega) hf hpos rfl

/-- What `dupfd` does. -/
theorem dupfd_cases (count : ℕ → ℕ) (t : Task) (fd arg : ℕ) :
    (∃ errno, dupfd count t fd arg = (t.ret (.error errno), count) ∧
      (t.descs.lookup fd = none ∨ nrOpen ≤ arg ∨ t.descs.frees arg = [])) ∨
    ∃ f n rest, t.descs.lookup fd = some f ∧ t.descs.frees arg = n :: rest ∧
      dupfd count t fd arg = (({ t with descs := (t.descs.clearClose n).set n (some f) } :
        Task).ret (.ok n), update count f (count f + 1)) := by
  rw [dupfd]
  cases hf : t.descs.lookup fd with
  | none => exact .inl ⟨EBADF, rfl, .inl rfl⟩
  | some f =>
    dsimp only
    split
    case isTrue harg => exact .inl ⟨EINVAL, rfl, .inr (.inl harg)⟩
    case isFalse =>
      cases hfree : t.descs.frees arg with
      | nil => exact .inl ⟨EMFILE, rfl, .inr (.inr rfl)⟩
      | cons n rest => exact .inr ⟨f, n, rest, rfl, rfl, rfl⟩

/-- `dupfd` fills a free slot, with an entry that the process names. -/
theorem moves_dupfd (count : ℕ → ℕ) (t : Task) (fd arg : ℕ) :
    Moves count t (dupfd count t fd arg).2 (dupfd count t fd arg).1 := by
  rcases dupfd_cases count t fd arg with ⟨errno, heq, -⟩ | ⟨f, n, rest, hf, hfree, heq⟩
  · rw [heq]
    exact .of_eq rfl
  · rw [heq]
    obtain ⟨-, hn, hnone⟩ := Descs.mem_frees.mp (hfree ▸ List.mem_cons_self : n ∈ t.descs.frees arg)
    rw [Descs.lookup] at hf
    split at hf
    case isTrue => cases hf
    case isFalse hfd =>
      have howns : t.owns f ≠ 0 := (owns_pos (by omega) hf).ne'
      exact .put hn hnone (.inl howns) rfl

theorem good_dupfd (hclean : t.descs.Clean) (hcall : t.call = .other) (hd : t.descs = t.entry)
    (fd arg : ℕ) : (dupfd count t fd arg).1.Good := by
  rcases dupfd_cases count t fd arg with ⟨errno, heq, -⟩ | ⟨f, n, rest, hf, hfree, heq⟩
  · rw [heq]
    exact good_error hclean hcall hd
  · rw [heq]
    obtain ⟨-, hn, hnone⟩ := Descs.mem_frees.mp (hfree ▸ List.mem_cons_self : n ∈ t.descs.frees arg)
    refine good_ok ?_ hcall
    rw [hclean.clearClose_eq hn hnone]
    exact hclean.set_some n f

/-! ### `sys_dup2` -/

theorem Descs.lookup_eq_some : d.lookup fd = some f ↔ fd < nrOpen ∧ d.filp fd = some f := by
  rw [Descs.lookup]
  split
  case isTrue h => exact iff_of_false nofun fun hf => by omega
  case isFalse h => exact (and_iff_right (by omega)).symm

/-- The descriptor that is closed is free, and the others are as they were. -/
theorem Descs.closed_filp (hb : b < nrOpen) : (d.closed b).filp = update d.filp b none := by
  rw [Descs.closed, if_neg (by omega)]
  rfl

theorem Descs.frees_of_free (hfd : fd < nrOpen) (hfree : d.filp fd = none) :
    ∃ rest, d.frees fd = fd :: rest := by
  rw [Descs.frees, show nrOpen - fd = nrOpen - fd - 1 + 1 by omega, List.range'_succ,
    List.filter_cons_of_pos (by rw [hfree]; rfl)]
  exact ⟨_, rfl⟩

theorem careful_dup2 (h : t.call = .dup2 a b) : t.Careful ↔ t.entry.Careful a b := by
  refine ⟨fun hc => hc a b h, fun hc a' b' hcall => ?_⟩
  rw [h] at hcall
  cases hcall
  exact hc

/-- `dupfd` after `sys_close`: the call keeps what it has to just if it is careful. -/
theorem kept_dup2 (hcall : t.call = .dup2 a b) (hclean : t.entry.Clean)
    (hd : t.descs = t.entry.closed b) :
    (dupfd count t a b).1.Kept ↔ t.entry.Careful a b := by
  rcases dupfd_cases count t a b with ⟨errno, heq, hwhy⟩ | ⟨f, n, rest, hf, hfrees, heq⟩
  · have hkept : (dupfd count t a b).1.Kept ↔ t.descs = t.entry := by
      rw [heq]
      exact ⟨fun h => h.error errno rfl, fun h => ⟨fun _ _ => h, fun _ _ _ _ hr => nomatch hr⟩⟩
    rw [hkept]
    cases hb : t.entry.lookup b with
    | none =>
      -- nothing was closed
      rw [hd, hclean.closed_eq hb]
      exact iff_of_true rfl fun h => absurd hb h
    | some g =>
      obtain ⟨hbn, hname⟩ := Descs.lookup_eq_some.mp hb
      have hfilp := Descs.closed_filp (d := t.entry) hbn
      have hfree : t.descs.filp b = none := by rw [hd, hfilp, Function.update_self]
      refine iff_of_false (fun h => ?_) fun h => ?_
      · rw [h, hname] at hfree
        cases hfree
      · obtain ⟨ha, hab⟩ := h (by simp [hb])
        obtain ⟨f, hf⟩ := Option.ne_none_iff_exists'.mp ha
        obtain ⟨han, hfa⟩ := Descs.lookup_eq_some.mp hf
        have hfa' : t.descs.lookup a = some f := by
          rw [Descs.lookup_eq_some, hd, hfilp, Function.update_of_ne hab]
          exact ⟨han, hfa⟩
        obtain ⟨rest, hrest⟩ := Descs.frees_of_free hbn hfree
        rcases hwhy with hnone | hlarge | hfull
        · rw [hfa'] at hnone
          cases hnone
        · omega
        · rw [hrest] at hfull
          cases hfull
  · obtain ⟨hbn, hn, -⟩ := Descs.mem_frees.mp (hfrees ▸ List.mem_cons_self : n ∈ t.descs.frees b)
    have hfilp := Descs.closed_filp (d := t.entry) (hbn.trans_lt hn)
    have hfree : t.descs.filp b = none := by rw [hd, hfilp, Function.update_self]
    obtain ⟨han, hfa⟩ := Descs.lookup_eq_some.mp hf
    have hab : a ≠ b := fun hab => by
      rw [hab, hfree] at hfa
      cases hfa
    have hfa' : t.entry.filp a = some f := by
      rwa [hd, hfilp, Function.update_of_ne hab] at hfa
    obtain ⟨rest', hrest⟩ := Descs.frees_of_free (hbn.trans_lt hn) hfree
    obtain rfl : b = n := (List.cons.inj (hrest.symm.trans hfrees)).1
    rw [heq]
    refine iff_of_true ⟨fun _ hr => (nomatch hr), fun a' b' n' hcall' hr => ?_⟩ fun _ => ?_
    · have hcall' : t.call = .dup2 a' b' := hcall'
      rw [hcall] at hcall'
      cases hcall'
      cases hr
      have hset : (update t.descs.filp b (some f)) b = some f := Function.update_self _ _ _
      exact ⟨rfl, fun h => Option.some_ne_none f (hset.symm.trans h), hset.trans hfa'.symm⟩
    · have hlookup := Descs.lookup_eq_some.mpr ⟨han, hfa'⟩
      exact ⟨fun h => Option.some_ne_none f (hlookup.symm.trans h), hab⟩

theorem good_dup2 (hcall : t.call = .dup2 a b) (hclean : t.entry.Clean)
    (hd : t.descs = t.entry.closed b) : (dupfd count t a b).1.Good := by
  have hkept : (dupfd count t a b).1.Kept ↔ t.entry.Careful a b := kept_dup2 hcall hclean hd
  have htclean : t.descs.Clean := hd ▸ hclean.closed b
  rcases dupfd_cases count t a b with ⟨errno, heq, -⟩ | ⟨f, n, rest, hf, hfrees, heq⟩
  · rw [heq] at hkept ⊢
    exact {
      clean := htclean
      empty := nofun
      exiting := nofun
      opening := nofun
      piping := nofun
      duplicating := nofun
      result := fun _ _ => ⟨rfl, hkept.trans (careful_dup2 hcall).symm⟩ }
  · rw [heq] at hkept ⊢
    obtain ⟨-, hn, hnone⟩ := Descs.mem_frees.mp (hfrees ▸ List.mem_cons_self : n ∈ t.descs.frees b)
    rw [htclean.clearClose_eq hn hnone] at hkept ⊢
    exact {
      clean := htclean.set_some n f
      empty := nofun
      exiting := nofun
      opening := nofun
      piping := nofun
      duplicating := nofun
      result := fun _ _ => ⟨rfl, hkept.trans (careful_dup2 hcall).symm⟩ }

end

/-! ### The invariant -/

/-- An entry that is reserved is named by the process. -/
theorem Task.Good.owns_pos {t : Task} {f : ℕ} (h : t.Good)
    (hf : f ∈ t.phase.reserved) : 0 < t.owns f := by
  cases hphase : t.phase with
  | opening fd f' =>
    obtain ⟨-, -, hfd, hname, -⟩ := h.opening fd f' hphase
    rw [hphase, Phase.reserved, List.mem_singleton] at hf
    exact Descriptors.owns_pos hfd (hf ▸ hname)
  | piping fd₀ fd₁ f₀ f₁ =>
    obtain ⟨-, -, hfd₀, hfd₁, -, -, hname₀, hname₁, -⟩ := h.piping fd₀ fd₁ f₀ f₁ hphase
    rw [hphase, Phase.reserved, List.mem_pair] at hf
    rcases hf with rfl | rfl
    · exact Descriptors.owns_pos hfd₀ hname₀
    · exact Descriptors.owns_pos hfd₁ hname₁
  | _ =>
    rw [hphase] at hf
    cases hf

namespace Table

variable [Fintype P] {s s' : Table P} {p q : P} {f fd : ℕ}

/-- The counts, and what holds of each process. -/
structure Inv (s : Table P) : Prop where
  counts : ∀ f, s.count f = s.slots f
  task : ∀ p, (s.task p).Good
  reserved : ∀ p, ∀ f ∈ (s.task p).phase.reserved, s.count f = 1

omit [Fintype P] in
@[simp] theorem change_task_self (t : Task) (count : ℕ → ℕ) : (s.change p t count).task p = t :=
  Function.update_self _ _ _

omit [Fintype P] in
theorem change_task_of_ne (h : q ≠ p) (t : Task) (count : ℕ → ℕ) :
    (s.change p t count).task q = s.task q :=
  Function.update_of_ne h _ _

/-- A process that is changed, with the counts of its slots. -/
theorem Inv.set (h : s.Inv) {t : Task} {count : ℕ → ℕ} (ht : t.Good)
    (hbal : ∀ f, count f + (s.task p).owns f = s.count f + t.owns f)
    (hkeep : ∀ q, q ≠ p → ∀ f ∈ (s.task q).phase.reserved, count f = s.count f)
    (hres : ∀ f ∈ t.phase.reserved, count f = 1) : (s.change p t count).Inv where
  counts := fun f => by
    have hslots := s.slots_change t count f (p := p)
    have hcount := h.counts f
    have := hbal f
    show count f = _
    omega
  task := fun q => by
    by_cases hq : q = p
    · subst hq
      rwa [change_task_self]
    · rw [change_task_of_ne hq]
      exact h.task q
  reserved := fun q f hf => by
    by_cases hq : q = p
    · subst hq
      rw [change_task_self] at hf
      exact hres f hf
    · rw [change_task_of_ne hq] at hf
      exact (hkeep q hq f hf).trans (h.reserved q f hf)

/-- A process that names an entry that another one has reserved is that one. -/
theorem Inv.owns_reserved (h : s.Inv) (hq : q ≠ p) (hf : f ∈ (s.task q).phase.reserved) :
    (s.task p).owns f = 0 := by
  have hone := h.reserved q f hf
  have hpos := (h.task q).owns_pos hf
  have hle := s.owns_add_le_slots hq f
  have hcount := h.counts f
  omega

theorem Inv.change (h : s.Inv) {t : Task} {count : ℕ → ℕ} (hm : Moves s.count (s.task p) count t)
    (ht : t.Good) (hres : ∀ f ∈ t.phase.reserved, count f = 1) : (s.change p t count).Inv := by
  refine h.set ht hm.balanced (fun q hq f hf => ?_) hres
  have hzero := h.owns_reserved hq hf
  have hone := h.reserved q f hf
  have hnew := hm.fresh f hzero (by omega)
  have := hm.balanced f
  omega

omit [DecidableEq P] in
/-- An entry that a process names is in use. -/
theorem Inv.count_ne_zero (h : s.Inv) (hfd : fd < nrOpen)
    (hf : (s.task p).descs.filp fd = some f) : s.count f ≠ 0 := by
  have hpos : 0 < (s.task p).owns f := owns_pos hfd hf
  have hle := s.owns_le_slots p f
  have hcount := h.counts f
  omega

/-! ### The steps -/

omit [DecidableEq P] in
theorem Inv.clean (h : s.Inv) (p : P) : (s.task p).descs.Clean := (h.task p).clean

omit [DecidableEq P] [Fintype P] in
theorem mem_freeFiles {rest : List ℕ} (h : s.freeFiles = f :: rest) : s.count f = 0 := by
  have hmem : f ∈ s.freeFiles := h ▸ List.mem_cons_self
  simpa [freeFiles] using (List.mem_filter.mp hmem).2

theorem Inv.sysOpen (h : s.Inv) (p : P) : (s.sysOpen p).Inv := by
  rw [Table.sysOpen]
  have hclean : ((s.task p).start .other).descs.Clean := h.clean p
  dsimp only
  split
  case h_1 => exact h.change (.of_eq rfl) (good_error hclean rfl rfl) nofun
  case h_2 fd _ hfrees =>
    obtain ⟨-, hfd, hnone⟩ := Descs.mem_frees.mp (hfrees ▸ List.mem_cons_self)
    rw [hclean.clearClose_eq hfd hnone]
    split
    case h_1 => exact h.change (.of_eq rfl) (good_error hclean rfl rfl) nofun
    case h_2 f _ hfiles =>
      have hzero := mem_freeFiles hfiles
      refine h.change (.put hfd hnone (.inr hzero) rfl) ?_ fun g hg => ?_
      · exact {
          clean := hclean.set_some fd f
          empty := nofun
          exiting := nofun
          opening := fun fd' f' heq => by
            cases heq
            exact ⟨rfl, hclean, hfd, Function.update_self _ _ _,
              (Descs.set_set _).trans (Descs.set_eq hnone)⟩
          piping := nofun
          duplicating := nofun
          result := nofun }
      · obtain rfl : g = f := List.mem_singleton.mp hg
        rw [Function.update_self, hzero]

theorem Inv.openEnd (h : s.Inv) {errno : Option ℕ} (hs : s.openEnd p errno = some s') : s'.Inv := by
  rw [Table.openEnd] at hs
  split at hs
  case h_2 => cases hs
  case h_1 fd f hphase =>
    obtain ⟨hcall, hclean, hfd, hname, hentry⟩ := (h.task p).opening fd f hphase
    have hone : s.count f = 1 := h.reserved p f (by rw [hphase]; exact List.mem_singleton_self f)
    split at hs
    case h_1 errno =>
      cases hs
      have hdrop : update s.count f 0 = update s.count f (s.count f - 1) := by rw [hone]
      rw [hdrop]
      refine h.change (.drop hfd hname (by omega) rfl) (good_error ?_ hcall hentry) nofun
      show ((s.task p).descs.set fd none).Clean
      rwa [hentry]
    case h_2 =>
      cases hs
      rw [← hone, Function.update_eq_self]
      exact h.change (.of_eq rfl) (good_ok (h.clean p) hcall) nofun

/-- Two counts that were 0 are 0 again. -/
theorem update_zero {count : ℕ → ℕ} {f₀ f₁ : ℕ} (h₀ : count f₀ = 0) (h₁ : count f₁ = 0) (m n : ℕ) :
    update (update (update (update count f₀ m) f₁ n) f₁ 0) f₀ 0 = count := by
  funext g
  by_cases hg₀ : g = f₀
  · subst hg₀
    simp [h₀]
  · by_cases hg₁ : g = f₁
    · subst hg₁
      simp [hg₀, h₁]
    · simp [hg₀, hg₁]

omit [DecidableEq P] [Fintype P] in
theorem two_freeFiles {f₀ f₁ : ℕ} {rest : List ℕ} (h : s.freeFiles = f₀ :: f₁ :: rest) :
    f₀ ≠ f₁ ∧ s.count f₁ = 0 := by
  have hnodup : s.freeFiles.Nodup := List.nodup_range.filter _
  have hmem : f₁ ∈ s.freeFiles := by simp [h]
  rw [h] at hnodup
  refine ⟨fun heq => ?_, by simpa [freeFiles] using (List.mem_filter.mp hmem).2⟩
  simp [heq] at hnodup

theorem Inv.sysPipe (h : s.Inv) (p : P) : (s.sysPipe p).Inv := by
  rw [Table.sysPipe]
  have hclean : ((s.task p).start .other).descs.Clean := h.clean p
  have hnodup : (((s.task p).start .other).descs.frees 0).Nodup := (List.nodup_range' ..).filter _
  -- an error, with the counts as they were
  have herror : (s.change p (((s.task p).start .other).ret (.error EPERM)) s.count).Inv :=
    h.change (.of_eq rfl) (good_error hclean rfl rfl) nofun
  dsimp only
  split
  case h_1 => exact herror
  case h_2 f₀ hfiles =>
    rw [← mem_freeFiles hfiles, Function.update_eq_self]
    exact herror
  case h_3 f₀ f₁ rest hfiles =>
    have hzero₀ := mem_freeFiles hfiles
    obtain ⟨hne, hzero₁⟩ := two_freeFiles hfiles
    split
    case h_1 =>
      rw [update_zero hzero₀ hzero₁]
      exact herror
    case h_2 fd₀ hfrees =>
      obtain ⟨-, -, hnone⟩ := Descs.mem_frees.mp (hfrees ▸ List.mem_singleton_self fd₀)
      rw [update_zero hzero₀ hzero₁, Descs.set_set, Descs.set_eq hnone]
      exact herror
    case h_3 fd₀ fd₁ rest' hfrees =>
      have hmem₀ : fd₀ ∈ ((s.task p).start .other).descs.frees 0 := by simp [hfrees]
      have hmem₁ : fd₁ ∈ ((s.task p).start .other).descs.frees 0 := by simp [hfrees]
      obtain ⟨-, hfd₀, hnone₀⟩ := Descs.mem_frees.mp hmem₀
      obtain ⟨-, hfd₁, hnone₁⟩ := Descs.mem_frees.mp hmem₁
      have hfd : fd₀ ≠ fd₁ := fun heq => by simp [hfrees, heq] at hnodup
      set d := ((s.task p).start .other).descs with hd
      have hfree : (d.set fd₀ (some f₀)).filp fd₁ = none := by
        show update _ _ _ _ = _
        rw [Function.update_of_ne hfd.symm, hnone₁]
      have hcount₁ : update s.count f₀ (s.count f₀ + 1) f₁ = s.count f₁ :=
        Function.update_of_ne hne.symm _ _
      rw [← hcount₁]
      have hput : Moves s.count ((s.task p).start .other) (update s.count f₀ (s.count f₀ + 1))
          { (s.task p).start .other with descs := d.set fd₀ (some f₀) } :=
        .put hfd₀ hnone₀ (.inr hzero₀) rfl
      refine h.change (.start (hput.trans (.put hfd₁ hfree (.inr ?_) rfl))) ?_ fun g hg => ?_
      · rw [hcount₁, hzero₁]
      · exact {
          clean := (hclean.set_some fd₀ f₀).set_some fd₁ f₁
          empty := nofun
          exiting := nofun
          opening := nofun
          piping := fun fd₀' fd₁' f₀' f₁' heq => by
            cases heq
            refine ⟨rfl, hclean, hfd₀, hfd₁, hfd, hne, ?_, Function.update_self _ _ _, ?_⟩
            · show update (update _ _ _) _ _ _ = _
              rw [Function.update_of_ne hfd, Function.update_self]
            · rw [Descs.set_set, Descs.set_eq hfree, Descs.set_set, Descs.set_eq hnone₀]
              rfl
          duplicating := nofun
          result := nofun }
      · rcases List.mem_pair.mp hg with rfl | rfl
        · rw [Function.update_of_ne hne, Function.update_self, hzero₀]
        · rw [Function.update_self, hcount₁, hzero₁]

theorem Inv.pipeEnd (h : s.Inv) {found : Bool} (hs : s.pipeEnd p found = some s') : s'.Inv := by
  rw [Table.pipeEnd] at hs
  split at hs
  case h_2 => cases hs
  case h_1 fd₀ fd₁ f₀ f₁ hphase =>
    obtain ⟨hcall, hclean, hfd₀, hfd₁, hfd, hne, hname₀, hname₁, hentry⟩ :=
      (h.task p).piping fd₀ fd₁ f₀ f₁ hphase
    have hone₀ : s.count f₀ = 1 := h.reserved p f₀ (by simp [hphase, Phase.reserved])
    have hone₁ : s.count f₁ = 1 := h.reserved p f₁ (by simp [hphase, Phase.reserved])
    split at hs
    case isTrue =>
      cases hs
      exact h.change (.of_eq rfl) (good_ok (h.clean p) hcall) nofun
    case isFalse =>
      cases hs
      have hcount₀ : update s.count f₁ (s.count f₁ - 1) f₀ = s.count f₀ :=
        Function.update_of_ne hne _ _
      have hdrop : update (update s.count f₁ 0) f₀ 0 = update (update s.count f₁ (s.count f₁ - 1))
          f₀ (update s.count f₁ (s.count f₁ - 1) f₀ - 1) := by
        rw [hcount₀, hone₀, hone₁]
      rw [hdrop]
      have hfirst : Moves s.count (s.task p) (update s.count f₁ (s.count f₁ - 1))
          { s.task p with descs := (s.task p).descs.set fd₁ none } :=
        .drop hfd₁ hname₁ (by omega) rfl
      refine h.change (hfirst.trans (.drop hfd₀ ?_ (by omega) rfl))
        (good_error ?_ hcall hentry) nofun
      · show update _ _ _ _ = _
        rw [Function.update_of_ne hfd, hname₀]
      · show (((s.task p).descs.set fd₁ none).set fd₀ none).Clean
        rwa [hentry]

theorem Inv.sysClose (h : s.Inv) (hs : s.sysClose p fd = some s') : s'.Inv := by
  obtain ⟨⟨t, count, r⟩, hclose, rfl⟩ := Option.map_eq_some_iff.mp hs
  have hclean : ((s.task p).start .other).descs.Clean := h.clean p
  obtain ⟨ht, hmoves, herror⟩ := closeFd_cases hclean hclose
  dsimp only at ht hmoves herror ⊢
  subst ht
  refine h.change (.start (hmoves.trans (.of_eq rfl))) ?_ nofun
  cases r with
  | error errno =>
    have hsame := herror errno rfl
    exact good_error (hclean.closed fd) rfl hsame
  | ok n => exact good_ok (hclean.closed fd) rfl

theorem Inv.sysDup (h : s.Inv) (p : P) (fd arg : ℕ) : (s.sysDup p fd arg).Inv := by
  have hgood : (dupfd s.count ((s.task p).start .other) fd arg).1.Good :=
    good_dupfd (t := (s.task p).start .other) (h.clean p) rfl rfl fd arg
  refine h.change (.start (moves_dupfd s.count _ fd arg)) hgood fun g hg => ?_
  rcases dupfd_cases s.count ((s.task p).start .other) fd arg with
    ⟨errno, heq, -⟩ | ⟨f, n, rest, -, -, heq⟩
  · rw [heq] at hg
    cases hg
  · rw [heq] at hg
    cases hg

theorem Inv.sysDup2 (h : s.Inv) {a b : ℕ} (hs : s.sysDup2 p a b = some s') : s'.Inv := by
  obtain ⟨⟨t, count, r⟩, hclose, rfl⟩ := Option.map_eq_some_iff.mp hs
  have hclean : ((s.task p).start (.dup2 a b)).descs.Clean := h.clean p
  obtain ⟨ht, hmoves, -⟩ := closeFd_cases hclean hclose
  dsimp only at ht hmoves ⊢
  subst ht
  refine h.change (.start (hmoves.trans (.of_eq rfl))) ?_ nofun
  exact {
    clean := hclean.closed b
    empty := nofun
    exiting := nofun
    opening := nofun
    piping := nofun
    duplicating := fun a' b' heq => by
      cases heq
      exact ⟨rfl, hclean, rfl⟩
    result := nofun }

theorem Inv.setFd (h : s.Inv) (p : P) (fd : ℕ) (on : Bool) : (s.setFd p fd on).Inv := by
  rw [Table.setFd]
  have hclean : ((s.task p).start .other).descs.Clean := h.clean p
  dsimp only
  split
  case h_1 => exact h.change (.of_eq rfl) (good_error hclean rfl rfl) nofun
  case h_2 f hf =>
    refine h.change (.of_eq rfl) (good_ok (fun x hx hbit => ?_) rfl) nofun
    by_cases hxf : x = fd
    · subst hxf
      rw [(Descs.lookup_eq_some.mp hf).2]
      exact Option.some_ne_none f
    · exact hclean x hx ((Function.update_of_ne hxf _ _).symm.trans hbit)

/-- A process that is in no call on its descriptors. -/
theorem good_quiet {t : Task} (hclean : t.descs.Clean) (hresult : t.result = none)
    (hquiet : t.phase = .idle ∨ t.phase = .none ∨ ∃ i, t.phase = .exiting i)
    (hempty : t.phase = .none → ∀ fd < nrOpen, t.descs.filp fd = none)
    (hexiting : ∀ i, t.phase = .exiting i → ∀ fd < nrOpen, fd < i → t.descs.filp fd = none) :
    t.Good where
  clean := hclean
  empty := hempty
  exiting := hexiting
  opening := fun fd f h => by simp [h] at hquiet
  piping := fun fd₀ fd₁ f₀ f₁ h => by simp [h] at hquiet
  duplicating := fun a b h => by simp [h] at hquiet
  result := fun r h => by simp [hresult] at h

theorem good_idle {t : Task} (hclean : t.descs.Clean) (hphase : t.phase = .idle)
    (hresult : t.result = none) : t.Good :=
  good_quiet hclean hresult (.inl hphase) (fun h => by simp [hphase] at h)
    fun i h => by simp [hphase] at h

theorem good_exiting {t : Task} {i : ℕ} (hclean : t.descs.Clean) (hphase : t.phase = .exiting i)
    (hresult : t.result = none) (hfree : ∀ fd < nrOpen, fd < i → t.descs.filp fd = none) :
    t.Good := by
  refine good_quiet hclean hresult (.inr (.inr ⟨i, hphase⟩)) (fun h => by simp [hphase] at h) ?_
  intro j h
  rw [hphase] at h
  cases h
  exact hfree

theorem good_gone {t : Task} (hclean : t.descs.Clean) (hphase : t.phase = .none)
    (hresult : t.result = none) (hfree : ∀ fd < nrOpen, t.descs.filp fd = none) : t.Good :=
  good_quiet hclean hresult (.inr (.inl hphase)) (fun _ => hfree) fun i h => by simp [hphase] at h

/-- The child names what its parent names, and the counts go up by as much. -/
theorem Inv.fork (h : s.Inv) {child : P} (hp : (s.task p).phase = .idle)
    (hchild : (s.task child).phase = .none) : (s.fork p child).Inv := by
  have hne : child ≠ p := fun heq => by
    rw [heq, hp] at hchild
    cases hchild
  have hgood : ((s.task p).start .other).Good := good_idle (h.clean p) hp rfl
  have hidle : ((s.task p).start .other).phase.reserved = [] := by
    rw [show ((s.task p).start .other).phase = .idle from hp]
    rfl
  have hinv : (s.change p ((s.task p).start .other) s.count).Inv :=
    h.change (.of_eq rfl) hgood fun f hf => by
      rw [hidle] at hf
      cases hf
  refine hinv.set hgood (fun f => ?_) (fun q hq f hf => ?_) fun f hf => ?_
  · have hzero : (s.task child).owns f = 0 := owns_eq_zero ((h.task child).empty hchild) f
    rw [change_task_of_ne hne, hzero, forkLoop_apply, add_zero, Task.owns]
    rfl
  · -- the parent has nothing reserved, and names nothing that others have
    have hqp : q ≠ p := fun heq => by
      rw [heq, change_task_self, hidle] at hf
      cases hf
    rw [change_task_of_ne hqp] at hf
    have hzero : owns nrOpen (s.task p).descs.filp f = 0 := h.owns_reserved hqp hf
    rw [forkLoop_apply]
    show s.count f + owns nrOpen (s.task p).descs.filp f = s.count f
    rw [hzero, add_zero]
  · rw [hidle] at hf
    cases hf

theorem Inv.doExit (h : s.Inv) (hs : s.doExit p = some s') : s'.Inv := by
  have hexit : (s.change p { (s.task p).start .other with phase := .exiting 0 } s.count).Inv :=
    h.change (.of_eq rfl) (good_exiting (i := 0) (h.clean p) rfl rfl fun _ _ h => by omega) nofun
  rw [Table.doExit] at hs
  split at hs
  · cases hs
  · cases hs
  · cases hs
    exact hexit

theorem Inv.go (h : s.Inv) (hs : s.go p = some s') : s'.Inv := by
  rw [Table.go] at hs
  split at hs
  case h_1 a b hphase =>
    cases hs
    obtain ⟨hcall, hclean, hd⟩ := (h.task p).duplicating a b hphase
    refine h.change (moves_dupfd s.count (s.task p) a b) (good_dup2 hcall hclean hd) fun g hg => ?_
    rcases dupfd_cases s.count (s.task p) a b with ⟨errno, heq, -⟩ | ⟨f, n, rest, -, -, heq⟩
    · rw [heq] at hg
      cases hg
    · rw [heq] at hg
      cases hg
  case h_2 i hphase =>
    have hfree := (h.task p).exiting i hphase
    have hresult : (s.task p).result = none := by
      cases hr : (s.task p).result with
      | none => rfl
      | some r =>
        have hidle := ((h.task p).result r hr).1
        rw [hphase] at hidle
        cases hidle
    split at hs
    case isTrue hi =>
      cases hs
      exact h.change (.of_eq rfl)
        (good_gone (h.clean p) rfl hresult fun fd hfd => hfree fd hfd (by omega)) nofun
    case isFalse hi =>
      split at hs
      case h_1 hnone =>
        cases hs
        refine h.change (.of_eq rfl) (good_exiting (i := i + 1) (h.clean p) rfl hresult ?_) nofun
        intro fd hfd hfdi
        rcases Nat.lt_succ_iff_lt_or_eq.mp hfdi with hlt | rfl
        · exact hfree fd hfd hlt
        · exact hnone
      case h_2 =>
        obtain ⟨⟨t, count, r⟩, hclose, rfl⟩ := Option.map_eq_some_iff.mp hs
        obtain ⟨ht, hmoves, -⟩ := closeFd_cases (h.clean p) hclose
        dsimp only at ht hmoves ⊢
        subst ht
        refine h.change (hmoves.trans (.of_eq rfl))
          (good_exiting (i := i + 1) ((h.clean p).closed i) rfl hresult ?_) nofun
        intro fd hfd hfdi
        show ((s.task p).descs.closed i).filp fd = none
        rw [Descs.closed_filp (by omega)]
        by_cases heq : fd = i
        · subst heq
          exact Function.update_self _ _ _
        · rw [Function.update_of_ne heq]
          exact hfree fd hfd (by omega)
  case h_3 => cases hs

theorem Inv.step {e : Event P} (h : s.Inv) (hs : s.step e = some s') : s'.Inv := by
  cases e with
  | openBegin p =>
    obtain ⟨-, hs⟩ := Option.ite_none_right_eq_some.mp hs
    cases hs
    exact h.sysOpen p
  | openEnd p errno => exact h.openEnd hs
  | close p fd => exact h.sysClose (Option.ite_none_right_eq_some.mp hs).2
  | dup p fd arg =>
    obtain ⟨-, hs⟩ := Option.ite_none_right_eq_some.mp hs
    cases hs
    exact h.sysDup p fd arg
  | dup2 p a b => exact h.sysDup2 (Option.ite_none_right_eq_some.mp hs).2
  | pipe p =>
    obtain ⟨-, hs⟩ := Option.ite_none_right_eq_some.mp hs
    cases hs
    exact h.sysPipe p
  | pipeEnd p found => exact h.pipeEnd hs
  | setFd p fd on =>
    obtain ⟨-, hs⟩ := Option.ite_none_right_eq_some.mp hs
    cases hs
    exact h.setFd p fd on
  | fork p child =>
    obtain ⟨⟨hp, hchild⟩, hs⟩ := Option.ite_none_right_eq_some.mp hs
    cases hs
    exact h.fork hp hchild
  | exit p => exact h.doExit hs
  | go p => exact h.go hs

omit [DecidableEq P] in
theorem Start.inv (h : s.Start) : s.Inv where
  counts := fun f => by
    have hslots : s.slots f = 0 := Finset.sum_eq_zero fun p _ =>
      Descriptors.owns_eq_zero (fun fd _ => h.filp p fd) f
    rw [h.count f, hslots]
  task := fun p => by
    have hclean : (s.task p).descs.Clean := fun fd _ hbit => by
      rw [h.closeOnExec p fd] at hbit
      cases hbit
    rcases h.phase p with hphase | hphase
    · exact good_gone hclean hphase (h.result p) fun fd _ => h.filp p fd
    · exact good_idle hclean hphase (h.result p)
  reserved := fun p f hf => by
    rcases h.phase p with hphase | hphase
    · rw [hphase] at hf
      cases hf
    · rw [hphase] at hf
      cases hf

omit [DecidableEq P] in
theorem Inv.exact (h : s.Inv) : s.Exact where
  counts := h.counts
  bits := fun p => h.clean p
  closes := fun p fd => by
    rw [closeFd]
    split
    · rfl
    case isFalse hfd =>
      dsimp only
      split
      · rfl
      case h_2 f hf =>
        rw [if_neg (h.count_ne_zero (p := p) (by omega) hf)]
        rfl

/-! ### Runs whose `sys_dup2` are careful -/

omit [Fintype P] in
theorem careful_change {t : Task} {count : ℕ → ℕ} (h : ∀ q, (s.task q).Careful) (ht : t.Careful)
    (q : P) : ((s.change p t count).task q).Careful := by
  by_cases hq : q = p
  · subst hq
    rwa [change_task_self]
  · rw [change_task_of_ne hq]
    exact h q

theorem careful_dupfd {count : ℕ → ℕ} {t : Task} (ht : t.Careful) (fd arg : ℕ) :
    (dupfd count t fd arg).1.Careful := by
  rcases dupfd_cases count t fd arg with ⟨errno, heq, -⟩ | ⟨f, n, rest, -, -, heq⟩
  · rw [heq]
    exact ht
  · rw [heq]
    exact ht

theorem Inv.careful {e : Event P} (hinv : s.Inv) (h : ∀ q, (s.task q).Careful) (hg : e.Guard s)
    (hs : s.step e = some s') : ∀ q, (s'.task q).Careful := by
  have hother : ∀ p, ((s.task p).start .other).Careful := fun p => careful_other rfl
  cases e with
  | openBegin p =>
    obtain ⟨-, hs⟩ := Option.ite_none_right_eq_some.mp hs
    cases hs
    rw [Table.sysOpen]
    dsimp only
    split
    · exact careful_change h (hother p)
    · split
      · exact careful_change h (hother p)
      · exact careful_change h (hother p)
  | openEnd p errno =>
    rw [Table.step, Table.openEnd] at hs
    split at hs
    · split at hs
      · cases hs
        exact careful_change h (h p)
      · cases hs
        exact careful_change h (h p)
    · cases hs
  | close p fd =>
    obtain ⟨⟨t, count, r⟩, hclose, rfl⟩ :=
      Option.map_eq_some_iff.mp (Option.ite_none_right_eq_some.mp hs).2
    obtain ⟨ht, -⟩ := closeFd_cases (t := (s.task p).start .other) (hinv.clean p) hclose
    dsimp only at ht ⊢
    subst ht
    exact careful_change h (hother p)
  | dup p fd arg =>
    obtain ⟨-, hs⟩ := Option.ite_none_right_eq_some.mp hs
    cases hs
    exact careful_change h (careful_dupfd (hother p) fd arg)
  | dup2 p a b =>
    obtain ⟨⟨t, count, r⟩, hclose, rfl⟩ :=
      Option.map_eq_some_iff.mp (Option.ite_none_right_eq_some.mp hs).2
    obtain ⟨ht, -⟩ := closeFd_cases (t := (s.task p).start (.dup2 a b)) (hinv.clean p) hclose
    dsimp only at ht ⊢
    subst ht
    refine careful_change h fun a' b' heq => ?_
    cases heq
    exact hg
  | pipe p =>
    obtain ⟨-, hs⟩ := Option.ite_none_right_eq_some.mp hs
    cases hs
    rw [Table.sysPipe]
    dsimp only
    split
    · exact careful_change h (hother p)
    · exact careful_change h (hother p)
    · split
      · exact careful_change h (hother p)
      · exact careful_change h (hother p)
      · exact careful_change h (hother p)
  | pipeEnd p found =>
    rw [Table.step, Table.pipeEnd] at hs
    split at hs
    · split at hs
      · cases hs
        exact careful_change h (h p)
      · cases hs
        exact careful_change h (h p)
    · cases hs
  | setFd p fd on =>
    obtain ⟨-, hs⟩ := Option.ite_none_right_eq_some.mp hs
    cases hs
    rw [Table.setFd]
    dsimp only
    split
    · exact careful_change h (hother p)
    · exact careful_change h (hother p)
  | fork p child =>
    obtain ⟨-, hs⟩ := Option.ite_none_right_eq_some.mp hs
    cases hs
    exact careful_change (careful_change h (hother p)) (hother p)
  | exit p =>
    rw [Table.step, Table.doExit] at hs
    split at hs
    · cases hs
    · cases hs
    · cases hs
      exact careful_change h (hother p)
  | go p =>
    rw [Table.step, Table.go] at hs
    split at hs
    · cases hs
      exact careful_change h (careful_dupfd (h p) _ _)
    · split at hs
      · cases hs
        exact careful_change h (h p)
      · split at hs
        · cases hs
          exact careful_change h (h p)
        · obtain ⟨⟨t, count, r⟩, hclose, rfl⟩ := Option.map_eq_some_iff.mp hs
          obtain ⟨ht, -⟩ := closeFd_cases (hinv.clean p) hclose
          dsimp only at ht ⊢
          subst ht
          exact careful_change h (h p)
    · cases hs

end Table

/-- The table is exact in all runs, and a call that has returned has kept what it had to just if
it is not a `sys_dup2` that closes a descriptor and cannot name the other file then.  In a run
without such calls all calls keep it. -/
theorem open_files [Fintype P] {s : Table P} :
    (openFiles.Reachable s → s.Exact ∧ ∀ p, (s.task p).result ≠ none →
      ((s.task p).Kept ↔ (s.task p).Careful)) ∧
    (openFiles.Reach (fun s e => e.Guard s) s → ∀ p, (s.task p).Kept) := by
  have hresult : ∀ {s : Table P}, s.Inv → ∀ p, (s.task p).result ≠ none →
      ((s.task p).Kept ↔ (s.task p).Careful) := fun h p hp => by
    obtain ⟨r, hr⟩ := Option.ne_none_iff_exists'.mp hp
    exact ((h.task p).result r hr).2
  constructor
  · intro hr
    have h : s.Inv := hr.invariant (I := fun s => s.Inv) (fun s hs => Table.Start.inv hs)
      fun s e s' h _ hs => h.step hs
    exact ⟨h.exact, hresult h⟩
  · intro hr
    have h : s.Inv ∧ ∀ q, (s.task q).Careful := by
      refine hr.invariant (I := fun s => s.Inv ∧ ∀ q, (s.task q).Careful) (fun s hs => ?_) ?_
      · exact ⟨hs.inv, fun q => careful_other (hs.call q)⟩
      · rintro s e s' ⟨hinv, h⟩ hg hs
        exact ⟨hinv.step hs, hinv.careful h hg hs⟩
    intro p
    cases hp : (s.task p).result with
    | none =>
      constructor
      · intro errno herr
        rw [hp] at herr
        cases herr
      · intro a b n _ hok
        rw [hp] at hok
        cases hok
    | some r => exact (hresult h.1 p (by simp [hp])).mpr (h.2 p)

/-! ### Runs from a list of steps -/

/-- One process, and room for another one. -/
def Table.boot : Table Bool where
  count := fun _ => 0
  task := fun p => ⟨⟨fun _ => none, fun _ => false⟩, if p then .none else .idle, .other,
    ⟨fun _ => none, fun _ => false⟩, none⟩

theorem Table.start_boot : Table.boot.Start :=
  ⟨fun _ => rfl, fun _ _ => rfl, fun _ _ => rfl, fun p => by cases p <;> simp [boot], fun _ => rfl,
    fun _ => rfl⟩

theorem Table.reach_boot {G : Table Bool → Event Bool → Prop} {es : List (Event Bool)}
    {s : Table Bool} (hG : ∀ e ∈ es, ∀ s, G s e) (hs : System.runOf step es .boot = some s) :
    openFiles.Reach G s :=
  .of_runOf (fun _ _ _ h => h) hG (.init start_boot) hs

/-- A file is opened, marked, duplicated and inherited. -/
def inheritRun : List (Event Bool) :=
  [.openBegin false, .openEnd false none, .setFd false 0 true, .dup false 0 5, .fork false true]

theorem open_files_inherit : ∃ s : Table Bool, System.runOf Table.step inheritRun .boot = some s ∧
    s.count 0 = 4 ∧ s.Exact ∧ (s.task false).Kept := by
  have hrun : (System.runOf Table.step inheritRun .boot).any (fun s => decide (s.count 0 = 4)) =
      true := by
    decide +kernel
  obtain ⟨s, hs, hcount⟩ := (Option.any_eq_true _ _).mp hrun
  have hreach : openFiles.Reach (fun s e => e.Guard s) s :=
    Table.reach_boot (by simp [inheritRun, Event.Guard]) hs
  exact ⟨s, hs, of_decide_eq_true hcount, (open_files.1 (hreach.mono fun _ _ _ => trivial)).1,
    open_files.2 hreach false⟩

/-- `dup2(0, 0)` returns an error, and descriptor 0 is closed. -/
theorem dup2_self : ¬ ∀ s : Table Bool, openFiles.Reachable s → ∀ p, (s.task p).Kept := by
  intro h
  have hrun : (System.runOf Table.step [.openBegin false, .openEnd false none, .dup2 false 0 0,
      .go false] .boot).any (fun s => (s.task false).entry.filp 0 == some 0 &&
        (s.task false).descs.filp 0 == none &&
        decide ((s.task false).result = some (.error EBADF))) = true := by
    decide +kernel
  obtain ⟨s, hs, hrun⟩ := (Option.any_eq_true _ _).mp hrun
  rw [Bool.and_eq_true, Bool.and_eq_true, beq_iff_eq, beq_iff_eq] at hrun
  obtain ⟨⟨hentry, hfilp⟩, hresult⟩ := hrun
  have hkept := h s (Table.reach_boot (fun _ _ _ => trivial) hs) false
  rw [hkept.error EBADF (of_decide_eq_true hresult), hentry] at hfilp
  cases hfilp

end Fs.Descriptors
