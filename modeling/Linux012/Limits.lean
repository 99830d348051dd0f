/-
The calls that store in an array with an index from the caller (`sys_setrlimit`, `sys_setgroups`
and `sys_sethostname` of kernel/sys.c, `sys_signal` and `sys_sigaction` of kernel/signal.c).

* `Layout` — where the task structures and `thisname` are in the memory of the kernel;
* `TableCall.run` — the calls, with every byte that they store;
* `stores_inside_iff` — the stores are in the array of the call, but for those of `setrlimit` with
  a negative index that is not one of the array modulo 2^29;
* `limits_kept` — a run without these keeps everything outside the arrays, and never raises a hard
  limit of a process that is not the superuser;
* `setrlimit_root` — the index -5 makes a user the superuser.

Design notes: the offsets are those of `struct task_struct` with `long` of four bytes.  What the
calls read of the caller's memory is their argument.
-/
import Linux012.WallClock
import Mathlib.Logic.Function.Basic

namespace Sys

open Function (update)

def EINVAL : ℤ := 22
def RLIM_NLIMITS : ℕ := 6
def NGROUPS : ℕ := 32
def NOGROUP : BitVec 32 := -1
def MAXHOSTNAMELEN : ℕ := 8
def SIGKILL : ℤ := 9
def SIGSTOP : ℤ := 19
def SA_NOMASK : BitVec 32 := 0x40000000
def SA_ONESHOT : BitVec 32 := 0x80000000

abbrev Addr : Type := BitVec 32

/-- The memory of the kernel. -/
abbrev Mem : Type := Addr → BitVec 8

/-- A byte that is stored, and where. -/
abbrev Store : Type := Addr × BitVec 8

def Mem.after (m : Mem) : List Store → Mem
  | [] => m
  | s :: ss => Mem.after (update m s.1 s.2) ss

def Mem.word (m : Mem) (a : Addr) : BitVec 16 :=
  BitVec.ofNat 16 ((m a).toNat + 256 * (m (a + 1)).toNat)

def Mem.long (m : Mem) (a : Addr) : BitVec 32 :=
  BitVec.ofNat 32 ((m a).toNat + 256 * (m (a + 1)).toNat + 65536 * (m (a + 2)).toNat +
    16777216 * (m (a + 3)).toNat)

/-- The bytes of a long. -/
def longAt (a : Addr) (v : BitVec 32) : List Store :=
  [(a, BitVec.ofNat 8 v.toNat), (a + 1, BitVec.ofNat 8 (v.toNat / 256)),
    (a + 2, BitVec.ofNat 8 (v.toNat / 65536)), (a + 3, BitVec.ofNat 8 (v.toNat / 16777216))]

/-! ### Where the arrays are -/

/-- A task structure and its kernel stack, and the names of `uname`. -/
def PAGE_SIZE : ℕ := 4096
def utsSize : ℕ := 45

/-- `a` is one of the `len` bytes from `base` on. -/
def Inside (base : Addr) (len : ℕ) (a : Addr) : Prop := (a - base).toNat < len

instance (base : Addr) (len : ℕ) (a : Addr) : Decidable (Inside base len a) :=
  inferInstanceAs (Decidable (_ < _))

/-- A process, by its number in `task[]`. -/
abbrev Slot : Type := Fin 64

/-- Where the structures are; no two of them have a byte in common. -/
structure Layout where
  task : Slot → Addr
  thisname : Addr
  tasks_apart : ∀ p q a, Inside (task p) PAGE_SIZE a → Inside (task q) PAGE_SIZE a → p = q
  name_apart : ∀ p a, Inside (task p) PAGE_SIZE a → ¬ Inside thisname utsSize a

namespace Layout

variable (L : Layout) (p : Slot)

/-- `current->sigaction`, `current->groups`, `current->euid` and `current->rlim`. -/
def sigaction : Addr := L.task p + 16
def groups : Addr := L.task p + 572
def euid : Addr := L.task p + 718
def rlim : Addr := L.task p + 756

/-- `thisname.nodename`. -/
def nodename : Addr := L.thisname + 9

/-- `suser()`. -/
def suser (m : Mem) : Bool := m.word (L.euid p) == 0

end Layout

/-! ### The calls -/

inductive TableCall where
  | setrlimit (resource cur max : BitVec 32)
  | setgroups (gidsetsize : BitVec 32) (grouplist : ℕ → BitVec 16)
  | sethostname (name : ℕ → BitVec 8) (len : BitVec 32)
  | signal (signum handler restorer : BitVec 32)
  | sigaction (signum : BitVec 32) (action : ℕ → BitVec 8) (oldaction : Bool)

/-- What is returned, and what `save_old` stores for the caller. -/
structure Reply where
  ret : BitVec 32
  saved : List (BitVec 8)

def Reply.error (errno : ℤ) : Reply := ⟨BitVec.ofInt 32 (-errno), []⟩

def Reply.ok : Reply := ⟨0, []⟩

section

variable (L : Layout) (p : Slot) (m : Mem)

/-- `current->rlim + resource`. -/
def limitAt (resource : BitVec 32) : Addr := L.rlim p + resource * 8

/-- `rlim_max` of a `struct rlimit`. -/
def rlimMax (l : Addr) : ℤ := (m.long (l + 4)).toInt

/-- The new limits are above the old hard limit. -/
def Above (resource cur max : BitVec 32) : Prop :=
  rlimMax m (limitAt L p resource) < cur.toInt ∨ rlimMax m (limitAt L p resource) < max.toInt

instance (resource cur max : BitVec 32) : Decidable (Above L p m resource cur max) :=
  inferInstanceAs (Decidable (_ ∨ _))

/-- `sys_setrlimit`. -/
def sysSetrlimit (resource cur max : BitVec 32) : Reply × List Store :=
  if (RLIM_NLIMITS : ℤ) ≤ resource.toInt then (.error EINVAL, [])
  else if Above L p m resource cur max ∧ L.suser p m = false then (.error EPERM, [])
  else (.ok, longAt (limitAt L p resource) cur ++ longAt (limitAt L p resource + 4) max)

/-- The loop of `sys_setgroups`, with the number of groups left. -/
def groupsLoop (grouplist : ℕ → BitVec 16) : ℕ → ℕ → List Store
  | 0, _ => []
  | left + 1, i =>
    longAt (L.groups p + BitVec.ofNat 32 (4 * i)) ((grouplist i).setWidth 32) ++
      groupsLoop grouplist left (i + 1)

/-- `sys_setgroups`. -/
def sysSetgroups (gidsetsize : BitVec 32) (grouplist : ℕ → BitVec 16) : Reply × List Store :=
  if L.suser p m = false then (.error EPERM, [])
  else if (NGROUPS : ℤ) < gidsetsize.toInt then (.error EINVAL, [])
  else
    let n := gidsetsize.toInt.toNat
    (.ok, groupsLoop L p grouplist n 0 ++
      if n < NGROUPS then longAt (L.groups p + BitVec.ofNat 32 (4 * n)) NOGROUP else [])

/-- The loop of `sys_sethostname`, with the index that it stops at. -/
def nameLoop (name : ℕ → BitVec 8) : ℕ → ℕ → List Store × ℕ
  | 0, i => ([], i)
  | left + 1, i =>
    let s : Store := (L.nodename + BitVec.ofNat 32 i, name i)
    if name i = 0 then ([s], i)
    else (s :: (nameLoop name left (i + 1)).1, (nameLoop name left (i + 1)).2)

/-- `sys_sethostname`. -/
def sysSethostname (name : ℕ → BitVec 8) (len : BitVec 32) : Reply × List Store :=
  if L.suser p m = false then (.error EPERM, [])
  else if (MAXHOSTNAMELEN : ℤ) < len.toInt then (.error EINVAL, [])
  else
    let r := nameLoop L name len.toInt.toNat 0
    (.ok, r.1 ++
      if m.after r.1 (L.nodename + BitVec.ofNat 32 r.2) = 0 then []
      else [(L.nodename + BitVec.ofNat 32 (min r.2 MAXHOSTNAMELEN), 0)])

/-- A signal whose action cannot be set. -/
def Refused (signum : BitVec 32) : Prop :=
  signum.toInt < 1 ∨ 32 < signum.toInt ∨ signum.toInt = SIGKILL ∨ signum.toInt = SIGSTOP

instance (signum : BitVec 32) : Decidable (Refused signum) := inferInstanceAs (Decidable (_ ∨ _))

/-- `current->sigaction + signum - 1`. -/
def actionAt (signum : BitVec 32) : Addr := L.sigaction p + (signum - 1) * 16

/-- `sys_signal`, which returns the old handler. -/
def sysSignal (signum handler restorer : BitVec 32) : Reply × List Store :=
  if Refused signum then (.error EINVAL, [])
  else
    let sa := actionAt L p signum
    (⟨m.long sa, []⟩,
      longAt sa handler ++ longAt (sa + 4) 0 ++ longAt (sa + 8) (SA_ONESHOT ||| SA_NOMASK) ++
        longAt (sa + 12) restorer)

/-- `get_new`. -/
def getNew (sa : Addr) (action : ℕ → BitVec 8) : List Store :=
  (List.range 16).map fun i => (sa + BitVec.ofNat 32 i, action i)

/-- `sys_sigaction`. -/
def sysSigaction (signum : BitVec 32) (action : ℕ → BitVec 8) (oldaction : Bool) :
    Reply × List Store :=
  if Refused signum then (.error EINVAL, [])
  else
    let sa := actionAt L p signum
    let new := m.after (getNew sa action)
    let mask :=
      if new.long (sa + 8) &&& SA_NOMASK ≠ 0 then 0
      else new.long (sa + 4) ||| 1#32 <<< (signum - 1).toNat
    (⟨0, if oldaction then (List.range 16).map fun i => m (sa + BitVec.ofNat 32 i) else []⟩,
      getNew sa action ++ longAt (sa + 4) mask)

def TableCall.run : TableCall → Reply × List Store
  | .setrlimit resource cur max => sysSetrlimit L p m resource cur max
  | .setgroups gidsetsize grouplist => sysSetgroups L p m gidsetsize grouplist
  | .sethostname name len => sysSethostname L p m name len
  | .signal signum handler restorer => sysSignal L p m signum handler restorer
  | .sigaction signum action oldaction => sysSigaction L p m signum action oldaction

/-- The array that a call is about, and its length in bytes. -/
def TableCall.table : TableCall → Addr × ℕ
  | .setrlimit .. => (L.rlim p, 48)
  | .setgroups .. => (L.groups p, 128)
  | .sethostname .. => (L.nodename, 9)
  | .signal .. | .sigaction .. => (L.sigaction p, 512)

/-- An index of `setrlimit` that is one of the array modulo 2^29. -/
def Indexes (resource : BitVec 32) : Prop := resource.toNat % 536870912 < RLIM_NLIMITS

instance (resource : BitVec 32) : Decidable (Indexes resource) :=
  inferInstanceAs (Decidable (_ < _))

/-- A call that is refused, or has an index of its array. -/
def TableCall.InRange : TableCall → Prop
  | .setrlimit resource cur max =>
    (RLIM_NLIMITS : ℤ) ≤ resource.toInt ∨ (Above L p m resource cur max ∧ L.suser p m = false) ∨
      Indexes resource
  | _ => True

end

/-! ### Stores in an array -/

variable {L : Layout} {p : Slot} {m : Mem} {base : Addr} {len : ℕ}

/-- All the stores are among the `len` bytes from `base` on. -/
def AllInside (base : Addr) (len : ℕ) (ss : List Store) : Prop := ∀ s ∈ ss, Inside base len s.1

theorem inside_add {x : Addr} : Inside base len (base + x) ↔ x.toNat < len := by
  rw [Inside, BitVec.add_comm, BitVec.add_sub_cancel]

theorem allInside_longAt {x : ℕ} {v : BitVec 32} (h : x + 4 ≤ len) (hlen : len ≤ 4096) :
    AllInside base len (longAt (base + BitVec.ofNat 32 x) v) := by
  have hat : ∀ j, j < 4 → Inside base len (base + BitVec.ofNat 32 x + BitVec.ofNat 32 j) := by
    intro j hj
    rw [BitVec.add_assoc, inside_add, BitVec.toNat_add, BitVec.toNat_ofNat, BitVec.toNat_ofNat]
    omega
  intro s hs
  simp only [longAt, List.mem_cons, List.not_mem_nil, or_false] at hs
  rcases hs with rfl | rfl | rfl | rfl
  · have h0 := hat 0 (by decide)
    rwa [BitVec.add_zero] at h0
  · exact hat 1 (by decide)
  · exact hat 2 (by decide)
  · exact hat 3 (by decide)

theorem AllInside.append {ss ss' : List Store} (h : AllInside base len ss)
    (h' : AllInside base len ss') : AllInside base len (ss ++ ss') := by
  intro s hs
  rcases List.mem_append.mp hs with hs | hs
  · exact h s hs
  · exact h' s hs

theorem AllInside.nil : AllInside base len [] := fun _ hs => (nomatch hs)

/-- What is not stored in is as before. -/
theorem after_of_outside {ss : List Store} (h : AllInside base len ss) {a : Addr}
    (ha : ¬ Inside base len a) : m.after ss a = m a := by
  induction ss generalizing m with
  | nil => rfl
  | cons s ss ih =>
    have hne : a ≠ s.1 := by
      rintro rfl
      exact ha (h s List.mem_cons_self)
    rw [Mem.after, ih fun s' hs' => h s' (List.mem_cons_of_mem _ hs'), Function.update_of_ne hne]

theorem allInside_groupsLoop (grouplist : ℕ → BitVec 16) {left i : ℕ} (h : left + i ≤ NGROUPS) :
    AllInside (L.groups p) 128 (groupsLoop L p grouplist left i) := by
  rw [NGROUPS] at h
  induction left generalizing i with
  | zero => exact .nil
  | succ left ih =>
    exact (allInside_longAt (by omega) (by decide)).append (ih (by omega))

/-- The name ends in its array, and so does the store at its end. -/
theorem allInside_nameLoop (name : ℕ → BitVec 8) {left i : ℕ} (h : left + i ≤ MAXHOSTNAMELEN) :
    AllInside L.nodename 9 (nameLoop L name left i).1 ∧
      (nameLoop L name left i).2 ≤ MAXHOSTNAMELEN := by
  rw [MAXHOSTNAMELEN] at *
  induction left generalizing i with
  | zero => exact ⟨.nil, by rw [nameLoop]; omega⟩
  | succ left ih =>
    have hhead : Inside L.nodename 9 (L.nodename + BitVec.ofNat 32 i) := by
      rw [inside_add, BitVec.toNat_ofNat]
      omega
    obtain ⟨hrest, hend⟩ := ih (i := i + 1) (by omega)
    rw [nameLoop]
    split
    · refine ⟨fun s hs => ?_, by omega⟩
      rw [List.mem_singleton.mp hs]
      exact hhead
    · refine ⟨fun s hs => ?_, hend⟩
      rcases List.mem_cons.mp hs with rfl | hs
      · exact hhead
      · exact hrest s hs

theorem allInside_sysSetgroups (gidsetsize : BitVec 32) (grouplist : ℕ → BitVec 16) :
    AllInside (L.groups p) 128 (sysSetgroups L p m gidsetsize grouplist).2 := by
  rw [sysSetgroups]
  split
  · exact .nil
  split
  · exact .nil
  · rename_i hlen
    rw [NGROUPS] at hlen
    refine (allInside_groupsLoop grouplist (by rw [NGROUPS]; omega)).append ?_
    split
    · rename_i hroom
      rw [NGROUPS] at hroom
      exact allInside_longAt (by omega) (by decide)
    · exact .nil

theorem allInside_sysSethostname (name : ℕ → BitVec 8) (l : BitVec 32) :
    AllInside L.nodename 9 (sysSethostname L p m name l).2 := by
  rw [sysSethostname]
  split
  · exact .nil
  split
  · exact .nil
  · rename_i hlen
    rw [MAXHOSTNAMELEN] at hlen
    have hsmall : l.toInt.toNat + 0 ≤ MAXHOSTNAMELEN := by
      rw [MAXHOSTNAMELEN]
      omega
    obtain ⟨hloop, hend⟩ := allInside_nameLoop (L := L) name hsmall
    rw [MAXHOSTNAMELEN] at hend
    refine hloop.append ?_
    split
    · exact .nil
    · intro s hs
      rw [List.mem_singleton.mp hs]
      change Inside L.nodename 9 (L.nodename + BitVec.ofNat 32 (min _ MAXHOSTNAMELEN))
      rw [inside_add, BitVec.toNat_ofNat, MAXHOSTNAMELEN]
      omega

theorem add_ofNat (x y : ℕ) :
    base + BitVec.ofNat 32 x + BitVec.ofNat 32 y = base + BitVec.ofNat 32 (x + y) := by
  rw [BitVec.add_assoc, BitVec.ofNat_add]

theorem actionAt_eq {signum : BitVec 32} (h : ¬ Refused signum) :
    ∃ k < 32, actionAt L p signum = L.sigaction p + BitVec.ofNat 32 (16 * k) := by
  obtain ⟨hlow, hrest⟩ := not_or.mp h
  obtain ⟨hhigh, -⟩ := not_or.mp hrest
  have hpos := (Clock.toInt_nonneg_iff signum).mp (by omega)
  have hnat : signum.toInt = signum.toNat := BitVec.toInt_eq_toNat_of_lt (by omega)
  refine ⟨signum.toNat - 1, by omega, ?_⟩
  rw [actionAt]
  congr 1
  apply BitVec.eq_of_toNat_eq
  rw [BitVec.toNat_mul, BitVec.toNat_sub, BitVec.toNat_ofNat]
  change (4294967296 - 1 + signum.toNat) % 4294967296 * 16 % 4294967296 = _
  omega

theorem allInside_sysSignal (signum handler restorer : BitVec 32) :
    AllInside (L.sigaction p) 512 (sysSignal L p m signum handler restorer).2 := by
  rw [sysSignal]
  split
  · exact .nil
  · rename_i hsig
    obtain ⟨k, hk, hat⟩ := actionAt_eq (L := L) (p := p) hsig
    have hfield : ∀ x, x ≤ 12 → ∀ v, AllInside (L.sigaction p) 512
        (longAt (actionAt L p signum + BitVec.ofNat 32 x) v) := by
      intro x hx v
      rw [hat, add_ofNat]
      exact allInside_longAt (by omega) (by decide)
    have hfirst := hfield 0 (by decide) handler
    rw [BitVec.add_zero] at hfirst
    exact ((hfirst.append (hfield 4 (by decide) _)).append (hfield 8 (by decide) _)).append
      (hfield 12 (by decide) _)

theorem allInside_sysSigaction (signum : BitVec 32) (action : ℕ → BitVec 8) (oldaction : Bool) :
    AllInside (L.sigaction p) 512 (sysSigaction L p m signum action oldaction).2 := by
  rw [sysSigaction]
  split
  · exact .nil
  · rename_i hsig
    obtain ⟨k, hk, hat⟩ := actionAt_eq (L := L) (p := p) hsig
    refine AllInside.append ?_ ?_
    · intro s hs
      obtain ⟨i, hi, rfl⟩ := List.mem_map.mp hs
      have hlt := List.mem_range.mp hi
      change Inside _ _ (actionAt L p signum + BitVec.ofNat 32 i)
      rw [hat, add_ofNat, inside_add, BitVec.toNat_ofNat]
      omega
    · change AllInside _ _ (longAt (actionAt L p signum + BitVec.ofNat 32 4) _)
      rw [hat, add_ofNat]
      exact allInside_longAt (by omega) (by decide)

/-- Only the last 29 bits of an index count. -/
theorem index_toNat (resource : BitVec 32) :
    (resource * 8).toNat = 8 * (resource.toNat % 536870912) := by
  rw [BitVec.toNat_mul]
  change resource.toNat * 8 % 4294967296 = _
  omega

theorem limitAt_eq (L : Layout) (p : Slot) (resource : BitVec 32) :
    limitAt L p resource = L.rlim p + BitVec.ofNat 32 (8 * (resource.toNat % 536870912)) := by
  rw [limitAt]
  congr 1
  apply BitVec.eq_of_toNat_eq
  rw [index_toNat, BitVec.toNat_ofNat]
  omega

theorem allInside_sysSetrlimit (resource cur max : BitVec 32) :
    AllInside (L.rlim p) 48 (sysSetrlimit L p m resource cur max).2 ↔
      (TableCall.setrlimit resource cur max).InRange L p m := by
  rw [sysSetrlimit]
  change _ ↔ _ ∨ _ ∨ _
  split
  · rename_i hbig
    exact ⟨fun _ => .inl hbig, fun _ => .nil⟩
  split
  · rename_i hrefused
    exact ⟨fun _ => .inr (.inl hrefused), fun _ => .nil⟩
  · rename_i hbig hrefused
    have hindex : Indexes resource ↔ resource.toNat % 536870912 < 6 := Iff.rfl
    constructor
    · intro h
      -- the first byte alone is enough
      have hfirst := h (limitAt L p resource, BitVec.ofNat 8 cur.toNat)
        (List.mem_append_left _ List.mem_cons_self)
      change Inside _ _ (L.rlim p + resource * 8) at hfirst
      rw [inside_add, index_toNat] at hfirst
      exact .inr (.inr (hindex.mpr (by omega)))
    · rintro (h | h | h)
      · exact absurd h hbig
      · exact absurd h hrefused
      · have hk := hindex.mp h
        rw [limitAt_eq]
        refine (allInside_longAt (by omega) (by decide)).append ?_
        change AllInside _ _ (longAt (L.rlim p + _ + BitVec.ofNat 32 4) _)
        rw [add_ofNat]
        exact allInside_longAt (by omega) (by decide)

/-- The stores of a call are in its array exactly if the call is in range. -/
theorem stores_inside_iff (L : Layout) (p : Slot) (m : Mem) (call : TableCall) :
    AllInside (call.table L p).1 (call.table L p).2 (call.run L p m).2 ↔ call.InRange L p m := by
  cases call with
  | setrlimit resource cur max => exact allInside_sysSetrlimit resource cur max
  | setgroups gidsetsize grouplist =>
    exact iff_of_true (allInside_sysSetgroups gidsetsize grouplist) trivial
  | sethostname name len => exact iff_of_true (allInside_sysSethostname name len) trivial
  | signal signum handler restorer =>
    exact iff_of_true (allInside_sysSignal signum handler restorer) trivial
  | sigaction signum action oldaction =>
    exact iff_of_true (allInside_sysSigaction signum action oldaction) trivial

/-! ### What is read after the stores -/

theorem after_append (ss ss' : List Store) : m.after (ss ++ ss') = (m.after ss).after ss' := by
  induction ss generalizing m with
  | nil => rfl
  | cons s ss ih => exact ih

theorem inside_offset {off : ℕ} {a : Addr} (h : Inside (base + BitVec.ofNat 32 off) len a)
    (hpage : off + len ≤ 4096) :
    off ≤ (a - base).toNat ∧ (a - base).toNat < off + len := by
  have ha := a.isLt
  have hbase := base.isLt
  rw [Inside, BitVec.toNat_sub, BitVec.toNat_add, BitVec.toNat_ofNat] at h
  rw [BitVec.toNat_sub]
  omega

theorem long_after_of_outside {ss : List Store} (h : AllInside base len ss) {a : Addr}
    (ha : ∀ j < 4, ¬ Inside base len (a + BitVec.ofNat 32 j)) : (m.after ss).long a = m.long a := by
  have h0 := after_of_outside (m := m) h (ha 0 (by decide))
  have h1 : m.after ss (a + 1) = _ := after_of_outside h (ha 1 (by decide))
  have h2 : m.after ss (a + 2) = _ := after_of_outside h (ha 2 (by decide))
  have h3 : m.after ss (a + 3) = _ := after_of_outside h (ha 3 (by decide))
  rw [BitVec.add_zero] at h0
  rw [Mem.long, h0, h1, h2, h3]
  rfl

theorem word_after_of_outside {ss : List Store} (h : AllInside base len ss) {a : Addr}
    (ha : ∀ j < 2, ¬ Inside base len (a + BitVec.ofNat 32 j)) : (m.after ss).word a = m.word a := by
  have h0 := after_of_outside (m := m) h (ha 0 (by decide))
  have h1 : m.after ss (a + 1) = _ := after_of_outside h (ha 1 (by decide))
  rw [BitVec.add_zero] at h0
  rw [Mem.word, h0, h1]
  rfl

theorem ne_add {a : Addr} {x y : ℕ} (hx : x < 4) (hy : y < 4) (hne : x ≠ y) :
    a + BitVec.ofNat 32 x ≠ a + BitVec.ofNat 32 y := by
  intro h
  have hxy := congrArg BitVec.toNat h
  rw [BitVec.toNat_add, BitVec.toNat_add, BitVec.toNat_ofNat, BitVec.toNat_ofNat] at hxy
  have hlt := a.isLt
  omega

/-- The bytes of a long make the long. -/
theorem long_longAt (a : Addr) (v : BitVec 32) : (m.after (longAt a v)).long a = v := by
  have h01 : a ≠ a + 1 := fun h => ne_add (a := a) (x := 0) (y := 1) (by decide) (by decide)
    (by decide) (by rw [BitVec.add_zero]; exact h)
  have h02 : a ≠ a + 2 := fun h => ne_add (a := a) (x := 0) (y := 2) (by decide) (by decide)
    (by decide) (by rw [BitVec.add_zero]; exact h)
  have h03 : a ≠ a + 3 := fun h => ne_add (a := a) (x := 0) (y := 3) (by decide) (by decide)
    (by decide) (by rw [BitVec.add_zero]; exact h)
  have h12 : a + 1 ≠ a + 2 := ne_add (a := a) (x := 1) (y := 2) (by decide) (by decide) (by decide)
  have h13 : a + 1 ≠ a + 3 := ne_add (a := a) (x := 1) (y := 3) (by decide) (by decide) (by decide)
  have h23 : a + 2 ≠ a + 3 := ne_add (a := a) (x := 2) (y := 3) (by decide) (by decide) (by decide)
  apply BitVec.eq_of_toNat_eq
  simp only [Mem.long, longAt, Mem.after, Function.update_self, Function.update_of_ne h01,
    Function.update_of_ne h02, Function.update_of_ne h03, Function.update_of_ne h12,
    Function.update_of_ne h13, Function.update_of_ne h23, BitVec.toNat_ofNat]
  have hlt := v.isLt
  omega

/-- Where the tables are in a task structure; that of `setrlimit` is the last. -/
theorem inside_table {call : TableCall} {q : Slot} {a : Addr}
    (h : Inside (call.table L p).1 (call.table L p).2 a) (hq : Inside (L.task q) PAGE_SIZE a) :
    p = q ∧ (16 ≤ (a - L.task q).toNat ∧ (a - L.task q).toNat < 528 ∨
      572 ≤ (a - L.task q).toNat ∧ (a - L.task q).toNat < 700 ∨
      756 ≤ (a - L.task q).toNat ∧ ∃ resource cur max, call = .setrlimit resource cur max) := by
  -- the page is that of the process, and so the offset is the one in the page
  have hpage : ∀ off len : ℕ, Inside (L.task p + BitVec.ofNat 32 off) len a → off + len ≤ 4096 →
      p = q ∧ off ≤ (a - L.task q).toNat ∧ (a - L.task q).toNat < off + len := by
    intro off len hin hlen
    obtain ⟨hlow, hhigh⟩ := inside_offset hin hlen
    have hpq : p = q := L.tasks_apart p q a (Nat.lt_of_lt_of_le hhigh hlen) hq
    subst hpq
    exact ⟨rfl, hlow, hhigh⟩
  cases call with
  | setrlimit resource cur max =>
    obtain ⟨hpq, hlow, -⟩ := hpage 756 48 h (by decide)
    exact ⟨hpq, .inr (.inr ⟨hlow, _, _, _, rfl⟩)⟩
  | setgroups gidsetsize grouplist =>
    obtain ⟨hpq, hd⟩ := hpage 572 128 h (by decide)
    exact ⟨hpq, .inr (.inl hd)⟩
  | sethostname name len =>
    have hin : Inside (L.thisname + BitVec.ofNat 32 9) 9 a := h
    obtain ⟨-, hhigh⟩ := inside_offset hin (by decide)
    exact absurd (Nat.lt_of_lt_of_le hhigh (by decide)) (L.name_apart q a hq)
  | signal signum handler restorer =>
    obtain ⟨hpq, hd⟩ := hpage 16 512 h (by decide)
    exact ⟨hpq, .inl hd⟩
  | sigaction signum action oldaction =>
    obtain ⟨hpq, hd⟩ := hpage 16 512 h (by decide)
    exact ⟨hpq, .inl hd⟩

theorem inside_page {q : Slot} {x : ℕ} (hx : x < 4096) :
    Inside (L.task q) PAGE_SIZE (L.task q + BitVec.ofNat 32 x) ∧
      (L.task q + BitVec.ofNat 32 x - L.task q).toNat = x := by
  have hsub : (L.task q + BitVec.ofNat 32 x - L.task q).toNat = x := by
    rw [BitVec.add_comm, BitVec.add_sub_cancel, BitVec.toNat_ofNat]
    omega
  refine ⟨?_, hsub⟩
  rw [Inside, hsub]
  exact hx

/-- No call in range stores in an effective user id. -/
theorem suser_after {call : TableCall} (h : call.InRange L p m) (q : Slot) :
    L.suser q (m.after (call.run L p m).2) = L.suser q m := by
  rw [Layout.suser, Layout.suser]
  congr 1
  refine word_after_of_outside ((stores_inside_iff L p m call).mpr h) fun j hj hin => ?_
  have hat : L.euid q + BitVec.ofNat 32 j = L.task q + BitVec.ofNat 32 (718 + j) := add_ofNat 718 j
  rw [hat] at hin
  obtain ⟨hpage, hoff⟩ := inside_page (L := L) (q := q) (x := 718 + j) (by omega)
  obtain ⟨-, hd⟩ := inside_table hin hpage
  rw [hoff] at hd
  omega

/-- `current->rlim[k]`. -/
def Layout.limit (L : Layout) (p : Slot) (k : ℕ) : Addr := L.rlim p + BitVec.ofNat 32 (8 * k)

/-- What the stores of a successful `setrlimit` leave. -/
theorem limits_after (l : Addr) (cur max : BitVec 32) :
    ((m.after (longAt l cur ++ longAt (l + 4) max)).long l = cur) ∧
      rlimMax (m.after (longAt l cur ++ longAt (l + 4) max)) l = max.toInt := by
  rw [after_append, rlimMax, long_longAt]
  refine ⟨?_, rfl⟩
  have hsecond : AllInside (l + 4) 4 (longAt (l + 4) max) := by
    have hall : AllInside (l + 4) 4 (longAt (l + 4 + BitVec.ofNat 32 0) max) :=
      allInside_longAt (by decide) (by decide)
    rwa [BitVec.add_zero] at hall
  rw [long_after_of_outside hsecond, long_longAt]
  intro j hj hin
  have hl := l.isLt
  rw [Inside, BitVec.toNat_sub, BitVec.toNat_add, BitVec.toNat_add, BitVec.toNat_ofNat] at hin
  change (4294967296 - (l.toNat + 4) % 4294967296 + (l.toNat + j % 4294967296) % 4294967296) %
    4294967296 < 4 at hin
  omega

/-- The other limits stay. -/
theorem limits_after_of_ne {i k : ℕ} (hi : i < 6) (hk : k < 6) (hne : k ≠ i)
    (cur max : BitVec 32) :
    rlimMax (m.after (longAt (L.limit p i) cur ++ longAt (L.limit p i + 4) max)) (L.limit p k) =
      rlimMax m (L.limit p k) := by
  have hall : AllInside (L.limit p i) 8
      (longAt (L.limit p i) cur ++ longAt (L.limit p i + 4) max) := by
    have hfirst : AllInside (L.limit p i) 8 (longAt (L.limit p i + BitVec.ofNat 32 0) cur) :=
      allInside_longAt (by decide) (by decide)
    rw [BitVec.add_zero] at hfirst
    exact hfirst.append (allInside_longAt (x := 4) (by decide) (by decide))
  rw [rlimMax, rlimMax, long_after_of_outside hall]
  intro j hj hin
  have hat : L.limit p k + 4 + BitVec.ofNat 32 j = L.rlim p + BitVec.ofNat 32 (8 * k + 4 + j) := by
    change L.rlim p + BitVec.ofNat 32 (8 * k) + BitVec.ofNat 32 4 + _ = _
    rw [add_ofNat, add_ofNat, Nat.add_assoc]
  rw [hat] at hin
  have hinlim : Inside (L.rlim p + BitVec.ofNat 32 (8 * i)) 8
      (L.rlim p + BitVec.ofNat 32 (8 * k + 4 + j)) := hin
  obtain ⟨hlow, hhigh⟩ := inside_offset hinlim (by omega)
  rw [BitVec.add_comm, BitVec.add_sub_cancel, BitVec.toNat_ofNat] at hlow hhigh
  omega

/-- A call in range raises no hard limit of a process that is not the superuser. -/
theorem limit_after {call : TableCall} (h : call.InRange L p m) {q : Slot}
    (hq : L.suser q m = false) {k : ℕ} (hk : k < 6) :
    rlimMax (m.after (call.run L p m).2) (L.limit q k) ≤ rlimMax m (L.limit q k) := by
  by_cases hown : p = q ∧ ∃ resource cur max, call = .setrlimit resource cur max
  · obtain ⟨rfl, resource, cur, max, rfl⟩ := hown
    change rlimMax (m.after (sysSetrlimit L p m resource cur max).2) _ ≤ _
    have hrange : _ ∨ _ ∨ _ := h
    rw [sysSetrlimit]
    split
    · exact Int.le_refl _
    split
    · exact Int.le_refl _
    · rename_i hbig hrefused
      have hindex : resource.toNat % 536870912 < 6 := by
        rcases hrange with hr | hr | hr
        · exact absurd hr hbig
        · exact absurd hr hrefused
        · exact hr
      have habove : ¬ Above L p m resource cur max := fun ha => hrefused ⟨ha, hq⟩
      obtain ⟨-, hmax⟩ := not_or.mp habove
      have hat : limitAt L p resource = L.limit p (resource.toNat % 536870912) :=
        limitAt_eq L p resource
      rw [hat] at hmax ⊢
      by_cases hsame : k = resource.toNat % 536870912
      · rw [hsame, (limits_after _ cur max).2]
        omega
      · exact Int.le_of_eq (limits_after_of_ne hindex hk hsame cur max)
  · -- the limits of `q` are not in the array of the call
    refine Int.le_of_eq (congrArg BitVec.toInt (long_after_of_outside
      ((stores_inside_iff L p m call).mpr h) fun j hj hin => ?_))
    have hat : L.limit q k + 4 + BitVec.ofNat 32 j =
        L.task q + BitVec.ofNat 32 (756 + (8 * k + 4 + j)) := by
      change L.task q + BitVec.ofNat 32 756 + BitVec.ofNat 32 (8 * k) + BitVec.ofNat 32 4 + _ = _
      rw [add_ofNat, add_ofNat, add_ofNat]
      congr 2
      omega
    rw [hat] at hin
    obtain ⟨hpage, hoff⟩ := inside_page (L := L) (q := q) (x := 756 + (8 * k + 4 + j)) (by omega)
    obtain ⟨hpq, hd⟩ := inside_table hin hpage
    rw [hoff] at hd
    rcases hd with hd | hd | ⟨-, hcall⟩
    · omega
    · omega
    · exact hown ⟨hpq, hcall⟩

/-! ### Runs -/

/-- A call of a process, and the memory after it. -/
def Layout.next (L : Layout) (m : Mem) (req : Slot × TableCall) : Option (Reply × Mem) :=
  some ((req.2.run L req.1 m).1, m.after (req.2.run L req.1 m).2)

/-- What a call may do: it stores in its array only, and a user stays below the old hard limit. -/
structure Proper (L : Layout) (m : Mem) (req : Slot × TableCall) (reply : Reply) (m' : Mem) :
    Prop where
  stores : AllInside (req.2.table L req.1).1 (req.2.table L req.1).2 (req.2.run L req.1 m).2
  unchanged : ∀ a, ¬ Inside (req.2.table L req.1).1 (req.2.table L req.1).2 a → m' a = m a
  limited : L.suser req.1 m = false → ∀ resource cur max, req.2 = .setrlimit resource cur max →
    reply.ret = 0 →
      (m'.long (limitAt L req.1 resource)).toInt ≤ rlimMax m (limitAt L req.1 resource)

theorem proper_next {call : TableCall} (h : call.InRange L p m) :
    Proper L m (p, call) (call.run L p m).1 (m.after (call.run L p m).2) := by
  have hstores := (stores_inside_iff L p m call).mpr h
  refine ⟨hstores, fun a ha => after_of_outside hstores ha, ?_⟩
  rintro huser resource cur max hcall hret
  change call = _ at hcall
  subst hcall
  change (sysSetrlimit L p m resource cur max).1.ret = 0 at hret
  change ((m.after (sysSetrlimit L p m resource cur max).2).long _).toInt ≤ _
  rw [sysSetrlimit] at hret ⊢
  split at hret
  · exact absurd hret (by decide)
  split at hret
  · exact absurd hret (by decide)
  · rename_i hbig hrefused
    rw [if_neg hbig, if_neg hrefused, (limits_after (limitAt L p resource) cur max).1]
    have habove : ¬ Above L p m resource cur max := fun ha => hrefused ⟨ha, huser⟩
    obtain ⟨hcur, -⟩ := not_or.mp habove
    exact Int.not_lt.mp hcur

/-- A run of calls in range stores in the arrays only, makes nobody the superuser, and raises no
hard limit of anybody else; and the calls in range are all those that store in their arrays. -/
theorem limits_kept (L : Layout) (m : Mem) (reqs : List (Slot × TableCall))
    (h : Along (fun m req => req.2.InRange L req.1 m) L.next reqs m) :
    (∃ replies m', answers L.next reqs m = some (replies, m') ∧
      Answers (Proper L) m reqs replies m' ∧
      ∀ q, L.suser q m = false → L.suser q m' = false ∧
        ∀ k < RLIM_NLIMITS, rlimMax m' (L.limit q k) ≤ rlimMax m (L.limit q k)) ∧
    ∀ p m call, AllInside (TableCall.table L p call).1 (TableCall.table L p call).2
      (TableCall.run L p m call).2 ↔ call.InRange L p m := by
  refine ⟨?_, stores_inside_iff L⟩
  -- a memory that comes after `m`
  have hstep : ∀ m₁ m₂ (req : Slot × TableCall), (m₂ = m₁ ∧ ∀ q, L.suser q m = false →
        L.suser q m₁ = false ∧ ∀ k < RLIM_NLIMITS,
          rlimMax m₁ (L.limit q k) ≤ rlimMax m (L.limit q k)) →
      req.2.InRange L req.1 m₁ →
      ∃ b m₃ m₄, L.next m₁ req = some (b, m₃) ∧ (m₄ = m₃ ∧ ∀ q, L.suser q m = false →
        L.suser q m₃ = false ∧ ∀ k < RLIM_NLIMITS,
          rlimMax m₃ (L.limit q k) ≤ rlimMax m (L.limit q k)) ∧ Proper L m₂ req b m₄ := by
    rintro m₁ _ ⟨p, call⟩ ⟨rfl, hafter⟩ hrange
    refine ⟨_, _, _, rfl, ⟨rfl, fun q hq => ?_⟩, proper_next hrange⟩
    obtain ⟨huser, hlimits⟩ := hafter q hq
    refine ⟨(suser_after hrange q).trans huser, fun k hk => ?_⟩
    exact Int.le_trans (limit_after hrange huser hk) (hlimits k hk)
  obtain ⟨replies, _, m', hrun, ⟨rfl, hkept⟩, hproper⟩ :=
    answers_allowed hstep ⟨rfl, fun q hq => ⟨hq, fun k _ => Int.le_refl _⟩⟩ h
  exact ⟨replies, m', hrun, hproper, hkept⟩

/-! ### A user who becomes the superuser -/

/-- The task structures from 1 MB on. -/
def plainLayout : Layout where
  task p := BitVec.ofNat 32 (1048576 + 4096 * p)
  thisname := 131072
  tasks_apart := by
    intro p q a hp hq
    have ha := a.isLt
    simp only [Inside, PAGE_SIZE, BitVec.toNat_sub, BitVec.toNat_ofNat] at hp hq
    apply Fin.ext
    omega
  name_apart := by
    intro p a hp hname
    have ha := a.isLt
    change (a - BitVec.ofNat 32 131072).toNat < utsSize at hname
    simp only [Inside, PAGE_SIZE, utsSize, BitVec.toNat_sub, BitVec.toNat_ofNat] at hp hname
    omega

/-- Process 1 has the user ids 771. -/
def userMem : Mem := fun a => if Inside (plainLayout.task 1 + 716) 12 a then 3 else 0

theorem limits_kept_group : ∃ replies m',
    answers plainLayout.next [(1, .setrlimit 0 0 0), (1, .setgroups 1 fun _ => 5)] userMem =
      some (replies, m') ∧ plainLayout.suser 1 m' = false := by
  have hrange : Along (fun m req => req.2.InRange plainLayout req.1 m) plainLayout.next
      [(1, .setrlimit 0 0 0), (1, .setgroups 1 fun _ => 5)] userMem :=
    ⟨.inr (.inr (by decide)), fun _ _ _ => ⟨trivial, fun _ _ _ => trivial⟩⟩
  obtain ⟨⟨replies, m', hrun, -, hkept⟩, -⟩ := limits_kept plainLayout userMem _ hrange
  exact ⟨replies, m', hrun, (hkept 1 (by decide)).1⟩

/-- `setrlimit` with the index -5 stores over the user ids. -/
theorem setrlimit_root :
    plainLayout.suser 1 userMem = false ∧
      plainLayout.suser 1
        (userMem.after ((TableCall.setrlimit (-5) 0 0).run plainLayout 1 userMem).2) = true ∧
      ¬ AllInside (plainLayout.rlim 1) 48
        ((TableCall.setrlimit (-5) 0 0).run plainLayout 1 userMem).2 := by
  refine ⟨by decide, by decide, fun h => ?_⟩
  have hrange := (stores_inside_iff plainLayout 1 userMem (.setrlimit (-5) 0 0)).mp h
  rcases hrange with hr | ⟨hr, -⟩ | hr
  · exact absurd hr (by decide)
  · exact absurd hr (by decide)
  · exact absurd hr (by decide)

end Sys
