/-
`do_execve`: another program, with its arguments and its environment (fs/exec.c).

* `createTables`, `changeLdt` — the new stack, from the pages that `copy_strings` filled;
* `restartInterp`, `scriptLine`, `checkHeader` — the file, and the first line of a script;
* `doExecve` — the system call;
* `exec_arguments` — the new program finds its arguments, exactly as long as the caller
  has given a script an `argv[0]` and as much as fits.
-/
import Linux012.CopyStrings
import Linux012.Signals

namespace Exec

def TASK_SIZE : ℕ := 0x4000000
def LIBRARY_SIZE : ℕ := 0x400000
def BLOCK_SIZE : ℕ := 1024
def SEGMENT_SIZE : ℕ := 1024
def NR_OPEN : ℕ := 20
def ZMAGIC : ℕ := 0o413
def S_IFMT : ℕ := 0o170000
def S_IFREG : ℕ := 0o100000
def S_ISUID : ℕ := 0o4000
def S_ISGID : ℕ := 0o2000
def NOGROUP : ℤ := -1
def ENOENT : ℕ := 2
def ENOEXEC : ℕ := 8
def ENOMEM : ℕ := 12
def EACCES : ℕ := 13

/-! The stack of the new program. -/

/-- `sp -= n`, where `sp` points to longs. -/
def subLongs (sp : ℕ) (n : ℤ) : ℕ := (((sp : ℤ) - 4 * n) % 2 ^ 32).toNat

/-- `while (argc-- > 0)`, with the memory, `p` and the pointer to the table afterwards.
There is nothing to read behind the end of the segment. -/
def fillTable : ℕ → Bytes → ℕ → ℕ → Option (Bytes × ℕ × ℕ)
  | 0, m, p, tab => some (m, p, tab)
  | n + 1, m, p, tab => do
    let m := m.putLong tab p
    let p ← m.scan (TASK_SIZE - p) p
    fillTable n m p (tab + 4)

def createTables (m : Bytes) (p : ℕ) (argc envc : ℤ) : Option (Bytes × ℕ) := do
  let sp := p - p % 4
  let envp := subLongs sp (envc + 1)
  let argv := subLongs envp (argc + 1)
  let m := m.putLong (subLongs argv 1) envp
  let m := m.putLong (subLongs argv 2) argv
  let sp := subLongs argv 3
  let m := m.putLong sp (argc % 2 ^ 32).toNat
  let (m, p, argv) ← fillTable argc.toNat m p argv
  let m := m.putLong argv 0
  let (m, _, envp) ← fillTable envc.toNat m p envp
  some (m.putLong envp 0, sp)

def putDirtyPage (pg : Bytes) (address : ℕ) (m : Bytes) : Bytes := fun x =>
  if address ≤ x ∧ x < address + PAGE_SIZE then pg (x - address) else m x

/-- The loop of `change_ldt`, from `page[n - 1]` on downwards. There is a page table for
these addresses, or a page for it: those of the old program have just been freed. -/
def putPages (page : ℕ → Option Bytes) : ℕ → ℕ → Bytes → Bytes
  | 0, _, m => m
  | n + 1, dataBase, m =>
    let dataBase := dataBase - PAGE_SIZE
    putPages page n dataBase (match page n with
      | some pg => putDirtyPage pg dataBase m
      | none => m)

/-- The memory of the new program. `rest` is what page faults will put in other places. -/
def changeLdt (rest : Bytes) (page : ℕ → Option Bytes) : Bytes :=
  putPages page MAX_ARG_PAGES (TASK_SIZE - LIBRARY_SIZE) rest

/-- What `main` of the new program needs: `argc`, `argv` and `envp` on the stack. -/
def StackHolds (m : Bytes) (sp : ℕ) (args env : List CStr) : Prop :=
  m.getLong sp = args.length ∧ m.Vector (m.getLong (sp + 4)) args ∧
    m.Vector (m.getLong (sp + 8)) env

section Stack

variable {m : Bytes} {p tab : ℕ} {ss args env : List CStr}

theorem subLongs_of_le {sp n : ℕ} (hn : 4 * n ≤ sp) (hsp : sp < 2 ^ 32) :
    subLongs sp n = sp - 4 * n := by
  rw [subLongs]
  omega

/-- The table below the strings gets a pointer to each of them. -/
theorem fillTable_spec (hr : m.Reads p (CStr.flat ss)) (htab : tab + 4 * ss.length ≤ p)
    (hp : p + (CStr.flat ss).length ≤ TASK_SIZE) :
    ∃ m', fillTable ss.length m p tab =
        some (m', p + (CStr.flat ss).length, tab + 4 * ss.length) ∧
      (∀ i, i < tab ∨ tab + 4 * ss.length ≤ i → m' i = m i) ∧
      m'.Pointers tab (CStr.starts p ss) := by
  induction ss generalizing m p tab with
  | nil => exact ⟨m, rfl, fun _ _ => rfl, trivial⟩
  | cons s ss ih =>
    rw [List.length_cons] at htab ⊢
    rw [CStr.flat_cons, List.length_append] at hp ⊢
    rw [CStr.flat_cons, Bytes.reads_append] at hr
    have hsame : ∀ i, tab + 4 ≤ i → m.putLong tab p i = m i := fun i => Bytes.putLong_of_le
    have hs : (m.putLong tab p).Reads p s.image := hr.1.congr fun i hi _ => hsame i (by omega)
    have hss : (m.putLong tab p).Reads (p + s.image.length) (CStr.flat ss) :=
      hr.2.congr fun i hi _ => hsame i (by omega)
    have htab' : tab + 4 + 4 * ss.length ≤ p + s.image.length := by omega
    obtain ⟨m', hfill, hframe, hpointers⟩ := ih hss htab' (by omega)
    refine ⟨m', ?_, fun i hi => ?_, ?_, hpointers⟩
    · rw [fillTable, Bytes.scan_image hs (by omega)]
      dsimp only [Option.bind_eq_bind, Option.bind_some]
      rw [hfill, add_assoc, add_assoc, add_comm 4]
      rfl
    · rw [hframe i (by omega)]
      rcases hi with hi | hi
      · exact Bytes.putLong_of_lt hi
      · exact hsame i (by omega)
    · rw [← Bytes.getLong_putLong (m := m) (a := tab) (v := p) (by rw [TASK_SIZE] at hp; omega)]
      exact Bytes.getLong_congr fun i hi => hframe _ (by omega)

/-- A table with its NULL. It stays good as long as its own words and the strings do. -/
theorem fillTable_vector (hr : m.Reads p (CStr.flat ss)) (htab : tab + 4 * (ss.length + 1) ≤ p)
    (hp : p + (CStr.flat ss).length ≤ TASK_SIZE) :
    ∃ m', fillTable ss.length m p tab =
        some (m', p + (CStr.flat ss).length, tab + 4 * ss.length) ∧
      (∀ i, i < tab ∨ tab + 4 * (ss.length + 1) ≤ i →
        m'.putLong (tab + 4 * ss.length) 0 i = m i) ∧
      ∀ m'' : Bytes, (∀ i, tab ≤ i → i < tab + 4 * (ss.length + 1) ∨ p ≤ i →
        m'' i = m'.putLong (tab + 4 * ss.length) 0 i) → m''.Vector tab ss := by
  have htab' : tab + 4 * ss.length ≤ p := by omega
  obtain ⟨m', hfill, hframe, hpointers⟩ := fillTable_spec hr htab' hp
  have hkeep : ∀ i, i < tab ∨ tab + 4 * (ss.length + 1) ≤ i →
      m'.putLong (tab + 4 * ss.length) 0 i = m i := by
    intro i hi
    rcases hi with hi | hi
    · rw [Bytes.putLong_of_lt (by omega), hframe i (.inl hi)]
    · rw [Bytes.putLong_of_le (by omega), hframe i (.inr (by omega))]
  refine ⟨m', hfill, hkeep, fun m'' hm => ?_⟩
  refine Bytes.vector_of_pointers (a := p) ?_ (hr.congr fun i hi _ => ?_) ?_
  · refine hpointers.congr fun i hi hi' => ?_
    rw [CStr.length_starts] at hi'
    rw [hm i hi (.inl (by omega)), Bytes.putLong_of_lt (by omega)]
  · exact (hm i (by omega) (.inr hi)).trans (hkeep i (.inr (by omega)))
  · rw [Bytes.getLong_congr fun i hi => hm _ (by omega) (.inl (by omega))]
    exact Bytes.getLong_putLong (by omega)

/-- The stack is made over strings that lie one behind the other. -/
theorem createTables_spec (hr : m.Reads p (CStr.flat (args ++ env)))
    (hroom : 4 * (args.length + env.length + 6) ≤ p)
    (hp : p + (CStr.flat (args ++ env)).length ≤ TASK_SIZE) :
    ∃ m' sp, createTables m p args.length env.length = some (m', sp) ∧
      StackHolds m' sp args env := by
  have hsize : TASK_SIZE = 67108864 := rfl
  rw [CStr.flat_append, List.length_append] at hp
  rw [CStr.flat_append, Bytes.reads_append] at hr
  -- from `sp` on: `argc`, `argv`, `envp`, the two tables, and the strings at `p`
  obtain ⟨sp, hsp⟩ : ∃ sp, sp + 12 + 4 * (args.length + 1) + 4 * (env.length + 1) = p - p % 4 :=
    ⟨p - p % 4 - (12 + 4 * (args.length + 1) + 4 * (env.length + 1)), by omega⟩
  have henvp : subLongs (p - p % 4) (env.length + 1) = sp + 12 + 4 * (args.length + 1) := by
    have := subLongs_of_le (by omega : 4 * (env.length + 1) ≤ p - p % 4) (by omega)
    push_cast at this
    omega
  have hargv : subLongs (sp + 12 + 4 * (args.length + 1)) (args.length + 1) = sp + 12 := by
    have := subLongs_of_le
      (by omega : 4 * (args.length + 1) ≤ sp + 12 + 4 * (args.length + 1)) (by omega)
    push_cast at this
    omega
  have hsp1 : subLongs (sp + 12) 1 = sp + 8 := by
    rw [subLongs]
    omega
  have hsp2 : subLongs (sp + 12) 2 = sp + 4 := by
    rw [subLongs]
    omega
  have hsp3 : subLongs (sp + 12) 3 = sp := by
    rw [subLongs]
    omega
  have hargc : ((args.length : ℤ) % 2 ^ 32).toNat = args.length := by omega
  -- the three words below the tables
  set m₀ : Bytes := ((m.putLong (sp + 8) (sp + 12 + 4 * (args.length + 1))).putLong (sp + 4)
    (sp + 12)).putLong sp args.length with hm₀
  have hkeep₀ : ∀ i, sp + 12 ≤ i → m₀ i = m i := by
    intro i hi
    rw [hm₀, Bytes.putLong_of_le (by omega), Bytes.putLong_of_le (by omega),
      Bytes.putLong_of_le (by omega)]
  -- the tables, the lower one first
  obtain ⟨m₁, hfill₁, hkeep₁, hvector₁⟩ := fillTable_vector
    (hr.1.congr fun i hi _ => hkeep₀ i (by omega))
    (by omega : sp + 12 + 4 * (args.length + 1) ≤ p) (by omega)
  obtain ⟨m₂, hfill₂, hkeep₂, hvector₂⟩ := fillTable_vector
    (hr.2.congr fun i hi _ => (hkeep₁ i (by omega)).trans (hkeep₀ i (by omega)))
    (by omega : sp + 12 + 4 * (args.length + 1) + 4 * (env.length + 1) ≤ _) (by omega)
  set m' := m₂.putLong (sp + 12 + 4 * (args.length + 1) + 4 * env.length) 0 with hm'
  have hword : ∀ a, a + 4 ≤ sp + 12 → m'.getLong a = m₀.getLong a := fun a ha =>
    Bytes.getLong_congr fun i hi => (hkeep₂ _ (by omega)).trans (hkeep₁ _ (by omega))
  refine ⟨m', sp, ?_, ?_, ?_, ?_⟩
  · rw [createTables, henvp, hargv, hsp1, hsp2, hsp3, hargc, Int.toNat_natCast, ← hm₀, hfill₁]
    dsimp only [Option.bind_eq_bind, Option.bind_some]
    rw [Int.toNat_natCast, hfill₂]
    rfl
  · rw [hword sp (by omega), hm₀]
    exact Bytes.getLong_putLong (by omega)
  · rw [hword _ (by omega), hm₀, Bytes.getLong_putLong_of_ne (by omega),
      Bytes.getLong_putLong (by omega)]
    exact hvector₁ m' fun i _ hi => hkeep₂ i (by omega)
  · rw [hword _ (by omega), hm₀, Bytes.getLong_putLong_of_ne (by omega),
      Bytes.getLong_putLong_of_ne (by omega), Bytes.getLong_putLong (by omega)]
    exact hvector₂ m' fun i _ _ => rfl

theorem putPages_of_le {page : ℕ → Option Bytes} {n dataBase x : ℕ} (hn : n * PAGE_SIZE ≤ dataBase)
    (hx : dataBase ≤ x) : putPages page n dataBase m x = m x := by
  induction n generalizing dataBase m with
  | zero => rfl
  | succ n ih =>
    rw [Nat.succ_mul] at hn
    rw [putPages, ih (by omega) (by omega)]
    cases page n with
    | none => rfl
    | some pg => exact if_neg (by omega)

/-- `page[0]` comes to the lowest address. -/
theorem putPages_apply {page : ℕ → Option Bytes} {n base y : ℕ} {pg : Bytes}
    (hy : y < n * PAGE_SIZE) (hpg : page (y / PAGE_SIZE) = some pg) :
    putPages page n (base + n * PAGE_SIZE) m (base + y) = pg (y % PAGE_SIZE) := by
  induction n generalizing m with
  | zero =>
    rw [Nat.zero_mul] at hy
    omega
  | succ n ih =>
    rw [putPages]
    rw [Nat.succ_mul] at hy ⊢
    rw [← Nat.add_assoc, Nat.add_sub_cancel]
    by_cases hlow : y < n * PAGE_SIZE
    · exact ih hlow
    · -- the byte is in the page that has just been put
      have hdiv : y / PAGE_SIZE = n ∧ y % PAGE_SIZE = y - n * PAGE_SIZE := by
        rw [PAGE_SIZE] at hy hlow ⊢
        omega
      rw [hdiv.1] at hpg
      rw [putPages_of_le (by omega) (by omega), hpg, hdiv.2]
      dsimp only
      rw [putDirtyPage, if_pos (by omega)]
      congr 1
      omega

/-- Where the space for arguments starts in the new program. -/
def argBase : ℕ := TASK_SIZE - LIBRARY_SIZE - MAX_ARG_PAGES * PAGE_SIZE

theorem argBase_eq : argBase = 62783488 := rfl

/-- The strings are found in the new program. -/
theorem Stored.reads_changeLdt {getFreePage : ℕ → Bool} {a : Args} {bs : List UInt8} {rest : Bytes}
    (ha : Stored getFreePage a bs) : (changeLdt rest a.page).Reads (argBase + a.p) bs := by
  refine ha.reads.shift argBase fun x hx hx' => ?_
  have htop := ha.p_add
  obtain ⟨pg, hpg⟩ := Option.isSome_iff_exists.mp (ha.present x hx (by omega))
  have hlt : x < MAX_ARG_PAGES * PAGE_SIZE := by
    rw [top_eq] at htop
    rw [MAX_ARG_PAGES, PAGE_SIZE]
    omega
  rw [Args.image, hpg]
  exact putPages_apply hlt hpg

end Stack

/-! The file. -/

structure Inode where
  mode : ℕ
  uid : ℕ
  gid : ℕ
  size : ℕ
  dev : ℕ
  /-- `i_zone[0]` -/
  zone : ℕ

/-- The fields of a task structure that `do_execve` reads or sets. -/
structure Task extends Signals.Task where
  euid : ℕ
  egid : ℕ
  suid : ℕ
  sgid : ℕ
  groups : List ℤ
  executable : Option Inode
  closeOnExec : BitVec 32
  filp : ℕ → Option ℕ
  usedMath : Bool
  brk : ℕ
  endData : ℕ
  endCode : ℕ
  startStack : ℕ

/-- What the system call reads of the file system, the pages that it is given, and what
page faults will put into the new program. -/
structure World where
  namei : CStr → Option Inode
  bread : ℕ → ℕ → Option Bytes
  getFreePage : ℕ → Bool
  rest : Bytes

/-- The registers of the caller at `eip`, as far as they are used. -/
structure Regs where
  eip : ℕ
  cs : ℕ
  esp : ℕ

/-- `struct exec`. -/
structure Header where
  magic : ℕ
  text : ℕ
  data : ℕ
  bss : ℕ
  syms : ℕ
  entry : ℕ
  trsize : ℕ
  drsize : ℕ

def orError {α : Type} (errno : ℕ) (x : Option α) : Except Stop α := x.elim (.error (.error errno)) .ok

def inGroupP (t : Task) (grp : ℕ) : Prop :=
  grp = t.egid ∨ (grp : ℤ) ∈ (t.groups.take 32).takeWhile (· ≠ NOGROUP)

instance (t : Task) (grp : ℕ) : Decidable (inGroupP t grp) := inferInstanceAs (Decidable (_ ∨ _))

/-- The execute bit that counts for the caller is not set, nor is it the superuser, for whom
any of them counts. -/
def refused (t : Task) (inode : Inode) : Prop :=
  let i := if t.euid = inode.uid then inode.mode >>> 6
    else if inGroupP t inode.gid then inode.mode >>> 3 else inode.mode
  i &&& 1 = 0 ∧ ¬ (inode.mode &&& 0o111 ≠ 0 ∧ t.euid = 0)

instance (t : Task) (inode : Inode) : Decidable (refused t inode) :=
  inferInstanceAs (Decidable (_ ∧ _))

/-- From `restart_interp` to the first block of the file: with `e_uid`, `e_gid` and the block. -/
def restartInterp (w : World) (t : Task) (inode : Inode) : Except Stop (ℕ × ℕ × Bytes) :=
  if inode.mode &&& S_IFMT ≠ S_IFREG then .error (.error EACCES)
  else
    let e_uid := if inode.mode &&& S_ISUID ≠ 0 then inode.uid else t.euid
    let e_gid := if inode.mode &&& S_ISGID ≠ 0 then inode.gid else t.egid
    if refused t inode then .error (.error ENOEXEC)
    else orError EACCES ((w.bread inode.dev inode.zone).map fun bh => (e_uid, e_gid, bh))

def isScript (bh : Bytes) : Prop := bh 0 = '#'.toUInt8 ∧ bh 1 = '!'.toUInt8

instance (bh : Bytes) : Decidable (isScript bh) := inferInstanceAs (Decidable (_ ∧ _))

def isBlank (c : UInt8) : Bool := c = ' '.toUInt8 || c = '\t'.toUInt8

/-- What the first line of a script says: `interp`, `i_name` and `i_arg`. -/
structure Line where
  interp : CStr
  iName : CStr
  iArg : Option CStr

/-- The loop over the name of the interpreter, with `i_name` and `cp` afterwards. -/
def scanInterp : List UInt8 → List UInt8 → List UInt8 × List UInt8
  | iName, [] => (iName, [])
  | iName, c :: cp =>
    if isBlank c then (iName, c :: cp)
    else scanInterp (if c = '/'.toUInt8 then cp else iName) cp

/-- The bytes of `buf`, which are what `strncpy` leaves there. -/
def firstBytes (bh : Bytes) : List UInt8 :=
  ((List.range 127).map fun i => bh (2 + i)).takeWhile (· ≠ 0)

/-- The first line is taken apart. The part of a line from `l` up to `cp`, where a NUL is
written, is `l` without its last bytes. -/
def scriptLine (bh : Bytes) : Option Line :=
  let buf := firstBytes bh
  if '\n'.toUInt8 ∈ buf then
    let cp := (buf.takeWhile (· ≠ '\n'.toUInt8)).dropWhile isBlank
    if cp = [] then none
    else
      let interp := cp
      let (iName, cp) := scanInterp interp interp
      some ⟨.ofBytes (interp.take (interp.length - cp.length)),
        .ofBytes (iName.take (iName.length - cp.length)), cp.tail?.map .ofBytes⟩
  else none

def execHeader (bh : Bytes) : Header :=
  ⟨bh.getLong 0, bh.getLong 4, bh.getLong 8, bh.getLong 12, bh.getLong 16, bh.getLong 20,
    bh.getLong 24, bh.getLong 28⟩

/-- `N_TXTOFF`, with 32 for the size of `struct exec`. -/
def Header.txtoff (ex : Header) : ℕ := if ex.magic = ZMAGIC then SEGMENT_SIZE - 32 + 32 else 32

def checkHeader (inode : Inode) (ex : Header) : Except Stop Unit :=
  if ex.magic ≠ ZMAGIC ∨ ex.trsize ≠ 0 ∨ ex.drsize ≠ 0 ∨
      0x3000000 < (ex.text + ex.data + ex.bss) % 2 ^ 32 ∨
      inode.size < (ex.text + ex.data + ex.syms + ex.txtoff) % 2 ^ 32 then
    .error (.error ENOEXEC)
  else if ex.txtoff ≠ BLOCK_SIZE then .error (.error ENOEXEC)
  else .ok ()

/-! The system call. -/

/-- The strings of an array that may be missing. -/
def strings (argv : Option (List CStr)) : List CStr := argv.getD []

def count (argv : Option (List CStr)) : ℤ := (strings argv).length

/-- `argv + n`, in the memory of the caller. -/
def userArgv (argv : Option (List CStr)) (n : ℕ) : Far (List (Far CStr)) :=
  ⟨.user, ((strings argv).drop n).map fun s => ⟨.user, s⟩⟩

/-- `copy_strings` of one string. -/
def copyString (w : World) (s : CStr) (kmem : FromKmem) (seg : Seg) : Args → Except Stop Args :=
  copyStrings w.getFreePage 1 ⟨.kernel, [⟨seg, s⟩]⟩ kmem

/-- `page` and `p` at the start. -/
def noArgs : Args := ⟨fun _ => none, top, .user⟩

/-- The strings for the interpreter, with `argc` afterwards. -/
def copyScript (w : World) (l : Line) (filename : CStr) (argv envp : Option (List CStr)) :
    Except Stop (Args × ℤ) := do
  let argc := count argv
  let a ← copyStrings w.getFreePage (count envp) (userArgv envp 0) .neither noArgs
  let argc := argc - 1
  let a ← copyStrings w.getFreePage argc (userArgv argv 1) .neither a
  let a ← copyString w filename .array .user a
  let argc := argc + 1
  let a ← match l.iArg with
    | some iArg => copyString w iArg .both .kernel a
    | none => .ok a
  let argc := if l.iArg.isSome then argc + 1 else argc
  let a ← copyString w l.iName .both .kernel a
  let argc := argc + 1
  if a.p = 0 then .error (.error ENOMEM) else .ok (a, argc)

def copyPlain (w : World) (argv envp : Option (List CStr)) : Except Stop (Args × ℤ) := do
  let a ← copyStrings w.getFreePage (count envp) (userArgv envp 0) .neither noArgs
  let a ← copyStrings w.getFreePage (count argv) (userArgv argv 0) .neither a
  if a.p = 0 then .error (.error ENOMEM) else .ok (a, count argv)

/-- The task, the memory and the registers after a call that succeeds. -/
structure Image where
  task : Task
  mem : Bytes
  regs : Regs

/-- `sys_close` of the files that are to be closed. -/
def Task.closeFiles (t : Task) : Task :=
  { t with
    filp := fun fd => if fd < NR_OPEN ∧ t.closeOnExec.getLsbD fd then none else t.filp fd
    closeOnExec := 0 }

/-- All handlers but `SIG_IGN` are reset. -/
def Task.resetSignals (t : Task) : Task :=
  { t with
    signal := 0
    sigaction := fun n =>
      let sa := t.sigaction n
      { sa with mask := 0, flags := 0, handler := if sa.handler ≠ 1 then 0 else sa.handler } }

/-- Behind the point of no return. -/
def finish (w : World) (t : Task) (r : Regs) (inode : Inode) (e_uid e_gid : ℕ) (ex : Header)
    (a : Args) (argc envc : ℤ) : Except Stop Image :=
  let t := { t with executable := some inode }.resetSignals.closeFiles
  let m := changeLdt w.rest a.page
  let p := sub32 ((a.p + TASK_SIZE) % 2 ^ 32) (LIBRARY_SIZE + MAX_ARG_PAGES * PAGE_SIZE)
  match createTables m p argc envc with
  | none => .error .wild
  | some (m, p) =>
    let endCode := ex.text
    let endData := (ex.data + endCode) % 2 ^ 32
    .ok
      { task := { t with
          usedMath := false, endCode, endData, brk := (ex.bss + endData) % 2 ^ 32,
          startStack := p - p % PAGE_SIZE, euid := e_uid, suid := e_uid, egid := e_gid, sgid := e_gid }
        mem := m
        regs := { r with eip := ex.entry, esp := p } }

/-- The name is copied to `filename1[128]`, and a NUL put behind the byte after it. -/
def copyName (filename : CStr) : Except Stop Unit :=
  if filename.bytes.length + 1 < 128 then .ok () else .error .wild

def doExecve (w : World) (t : Task) (r : Regs) (filename : CStr) (argv envp : Option (List CStr)) :
    Except Stop Image := do
  copyName filename
  if r.cs &&& 0xffff ≠ 0xf then .error .panic
  else
    let inode ← orError ENOENT (w.namei filename)
    let (e_uid, e_gid, bh) ← restartInterp w t inode
    if isScript bh then
      let l ← orError ENOEXEC (scriptLine bh)
      let (a, argc) ← copyScript w l filename argv envp
      let inode ← orError ENOENT (w.namei l.interp)
      -- `sh_bang` is set, so that another script is no program
      let (e_uid, e_gid, bh) ← restartInterp w t inode
      checkHeader inode (execHeader bh)
      finish w t r inode e_uid e_gid (execHeader bh) a argc (count envp)
    else
      checkHeader inode (execHeader bh)
      let (a, argc) ← copyPlain w argv envp
      finish w t r inode e_uid e_gid (execHeader bh) a argc (count envp)

/-! What the arguments should be. -/

def nonBlank (c : UInt8) : Bool := !isBlank c

/-- The first line without the blanks at its start. -/
def firstLine (bh : Bytes) : List UInt8 :=
  ((firstBytes bh).takeWhile (· ≠ '\n'.toUInt8)).dropWhile isBlank

def interpName (bh : Bytes) : List UInt8 := (firstLine bh).takeWhile nonBlank

/-- What is behind the last slash. -/
def baseName (name : List UInt8) : List UInt8 :=
  (name.reverse.takeWhile (· ≠ '/'.toUInt8)).reverse

/-- What is behind the blank that ends the name of the interpreter, where there is one. -/
def restOfLine (bh : Bytes) : Option (List UInt8) := ((firstLine bh).dropWhile nonBlank).tail?

def scriptArgs (bh : Bytes) (filename : CStr) (args : List CStr) : List CStr :=
  .ofBytes (baseName (interpName bh)) :: (restOfLine bh).toList.map .ofBytes ++
    filename :: args.tail

def expectedArgs (w : World) (filename : CStr) (args : List CStr) : List CStr :=
  match (w.namei filename).bind fun inode => w.bread inode.dev inode.zone with
  | some bh => if isScript bh then scriptArgs bh filename args else args
  | none => args

/-- Where the call succeeds, the new program finds these arguments; and the call keeps to its
own memory. -/
def Right (args env : List CStr) : Except Stop Image → Prop
  | .ok image => StackHolds image.mem image.regs.esp args env
  | .error s => s ≠ .wild

def ArgumentsRight (w : World) (t : Task) (r : Regs) (filename : CStr)
    (argv envp : Option (List CStr)) : Prop :=
  Right (expectedArgs w filename (strings argv)) (strings envp)
    (doExecve w t r filename argv envp)

section Names

variable {c : UInt8} {name cp iName : List UInt8}

theorem baseName_of_not_mem (h : '/'.toUInt8 ∉ name) : baseName name = name := by
  rw [baseName, List.takeWhile_eq_self_iff.mpr, List.reverse_reverse]
  intro b hb
  rw [List.mem_reverse] at hb
  exact decide_eq_true (ne_of_mem_of_not_mem hb h)

theorem baseName_cons_of_mem (h : '/'.toUInt8 ∈ name) : baseName (c :: name) = baseName name := by
  rw [baseName, List.reverse_cons, List.takeWhile_append, if_neg, baseName]
  intro hlen
  have hall := List.takeWhile_eq_self_iff.mp
    ((List.takeWhile_prefix _).sublist.eq_of_length hlen)
  exact absurd rfl (of_decide_eq_true (hall _ (List.mem_reverse.mpr h)))

theorem baseName_cons_of_not_mem (h : '/'.toUInt8 ∉ name) :
    baseName (c :: name) = if c = '/'.toUInt8 then name else c :: name := by
  by_cases hc : c = '/'.toUInt8
  · rw [if_pos hc, baseName, List.reverse_cons, List.takeWhile_append_of_pos]
    · rw [List.takeWhile_cons_of_neg (by simpa using hc), List.append_nil, List.reverse_reverse]
    · intro b hb
      rw [List.mem_reverse] at hb
      exact decide_eq_true (ne_of_mem_of_not_mem hb h)
  · rw [if_neg hc]
    refine baseName_of_not_mem ?_
    rw [List.mem_cons, not_or]
    exact ⟨Ne.symm hc, h⟩

/-- The loop leaves `i_name` behind the last slash, and `cp` at the blank. -/
theorem scanInterp_eq : scanInterp iName cp = (if '/'.toUInt8 ∈ cp.takeWhile nonBlank
    then baseName (cp.takeWhile nonBlank) ++ cp.dropWhile nonBlank else iName,
    cp.dropWhile nonBlank) := by
  induction cp generalizing iName with
  | nil => rfl
  | cons c cp ih =>
    rw [scanInterp]
    by_cases hc : isBlank c = true
    · have hc' : ¬ nonBlank c = true := by rw [nonBlank, hc]; nofun
      rw [if_pos hc, List.takeWhile_cons_of_neg hc', List.dropWhile_cons_of_neg hc',
        if_neg List.not_mem_nil]
    · have hc' : nonBlank c = true := by rw [nonBlank, Bool.eq_false_iff.mpr hc]; rfl
      rw [if_neg hc, ih, List.takeWhile_cons_of_pos hc', List.dropWhile_cons_of_pos hc']
      congr 1
      by_cases hmem : '/'.toUInt8 ∈ cp.takeWhile nonBlank
      · rw [if_pos hmem, if_pos (List.mem_cons_of_mem c hmem), baseName_cons_of_mem hmem]
      · rw [if_neg hmem, baseName_cons_of_not_mem hmem]
        by_cases hslash : c = '/'.toUInt8
        · rw [if_pos hslash, if_pos hslash, if_pos (hslash ▸ List.mem_cons_self ..),
            List.takeWhile_append_dropWhile]
        · rw [if_neg hslash, if_neg]
          rw [List.mem_cons, not_or]
          exact ⟨Ne.symm hslash, hmem⟩

/-- The parts of the first line, where it has any. -/
theorem scriptLine_eq {bh : Bytes} {l : Line} (h : scriptLine bh = some l) :
    l.interp = .ofBytes (interpName bh) ∧ l.iName = .ofBytes (baseName (interpName bh)) ∧
      l.iArg = (restOfLine bh).map .ofBytes := by
  rw [scriptLine] at h
  dsimp only at h
  split at h
  case isFalse => cases h
  case isTrue =>
    split at h
    case isTrue => cases h
    case isFalse =>
      have hline : (firstLine bh).length - ((firstLine bh).dropWhile nonBlank).length =
          (interpName bh).length := by
        have := congrArg List.length
          (List.takeWhile_append_dropWhile (p := nonBlank) (l := firstLine bh))
        rw [List.length_append] at this
        rw [interpName]
        omega
      have hinterp : (firstLine bh).take (interpName bh).length = interpName bh :=
        (List.prefix_iff_eq_take.mp (List.takeWhile_prefix _)).symm
      change some (⟨.ofBytes ((firstLine bh).take ((firstLine bh).length -
          (scanInterp (firstLine bh) (firstLine bh)).2.length)),
        .ofBytes ((scanInterp (firstLine bh) (firstLine bh)).1.take
          ((scanInterp (firstLine bh) (firstLine bh)).1.length -
            (scanInterp (firstLine bh) (firstLine bh)).2.length)),
        (scanInterp (firstLine bh) (firstLine bh)).2.tail?.map .ofBytes⟩ : Line) = some l at h
      rw [Option.some.injEq] at h
      subst h
      rw [scanInterp_eq]
      dsimp only
      refine ⟨?_, ?_, rfl⟩
      · rw [hline, hinterp]
      · by_cases hmem : '/'.toUInt8 ∈ (firstLine bh).takeWhile nonBlank
        · rw [if_pos hmem, List.length_append, Nat.add_sub_cancel, List.take_left]
          rfl
        · rw [if_neg hmem, hline, hinterp, interpName, baseName_of_not_mem hmem]

end Names

/-! When they are right. -/

/-- A file that can be executed. -/
def Program (w : World) (t : Task) (name : CStr) : Prop :=
  ∃ inode e_uid e_gid bh, w.namei name = some inode ∧
    restartInterp w t inode = .ok (e_uid, e_gid, bh) ∧
    checkHeader inode (execHeader bh) = .ok ()

/-- A script, with what its first line says. -/
def Script (w : World) (t : Task) (name : CStr) (l : Line) : Prop :=
  ∃ inode e_uid e_gid bh, w.namei name = some inode ∧
    restartInterp w t inode = .ok (e_uid, e_gid, bh) ∧ isScript bh ∧ scriptLine bh = some l

/-- The strings that are copied for an interpreter, by calls, the latest first. -/
def scriptCalls (l : Line) (filename : CStr) (args env : List CStr) : List (List CStr) :=
  [l.iName] :: (l.iArg.toList.map fun s => [s]) ++ [[filename], args.tail, env]

/-- No call of `copy_strings` runs down below 0, or the pages come to an end before. -/
def Room (w : World) (calls : List (List CStr)) : Prop :=
  ¬ (Overruns calls ∧ Granted w.getFreePage 0 top)

section Results

variable {w : World} {t : Task} {r : Regs} {filename : CStr} {argv envp : Option (List CStr)}
  {inode : Inode} {e_uid e_gid : ℕ} {bh : Bytes} {l : Line} {a : Args} {s : Stop}
  {calls : List (List CStr)} {args env rest : List CStr}

theorem orError_ne_wild {α : Type} {errno : ℕ} {x : Option α} (h : orError errno x = .error s) :
    s ≠ .wild := by
  cases x with
  | none =>
    cases h
    nofun
  | some x => cases h

theorem restartInterp_ne_wild (h : restartInterp w t inode = .error s) : s ≠ .wild := by
  rw [restartInterp] at h
  split at h
  case isTrue =>
    cases h
    nofun
  case isFalse =>
    dsimp only at h
    split at h
    case isTrue =>
      cases h
      nofun
    case isFalse => exact orError_ne_wild h

theorem checkHeader_ne_wild {ex : Header} (h : checkHeader inode ex = .error s) : s ≠ .wild := by
  rw [checkHeader] at h
  split at h
  case isTrue =>
    cases h
    nofun
  case isFalse =>
    split at h
    case isTrue =>
      cases h
      nofun
    case isFalse => cases h

/-- The magic number is not "#!". -/
theorem checkHeader_of_isScript (h : isScript bh) : checkHeader inode (execHeader bh) ≠ .ok () := by
  have h0 : (bh 0).toNat = 35 := by
    rw [h.1]
    rfl
  have h1 : (bh (0 + 1)).toNat = 33 := by
    rw [show bh (0 + 1) = bh 1 from rfl, h.2]
    rfl
  have hmagic : (execHeader bh).magic ≠ ZMAGIC := by
    change bh.getLong 0 ≠ 0o413
    rw [Bytes.getLong, h0, h1]
    omega
  rw [checkHeader, if_pos (.inl hmagic)]
  intro hok
  cases hok

/-- How the copying of all the strings ends. -/
theorem After.room {x : Except Stop Args} (h : After w.getFreePage calls x) (argc : ℤ) :
    (¬ Room w calls ∧
      (x >>= fun a => if a.p = 0 then .error (.error ENOMEM) else .ok (a, argc)) =
        .error .wild) ∨
    (Room w calls ∧ ¬ Fits w.getFreePage calls ∧
      (x >>= fun a => if a.p = 0 then .error (.error ENOMEM) else .ok (a, argc)) =
        .error (.error ENOMEM)) ∨
    (Room w calls ∧ Fits w.getFreePage calls ∧
      ∃ a, Stored w.getFreePage a (CStr.flat calls.flatten) ∧
        (x >>= fun a => if a.p = 0 then .error (.error ENOMEM) else .ok (a, argc)) =
          .ok (a, argc)) := by
  rcases h with ⟨hover, hgr, rfl⟩ | ⟨hover, a, rfl, -, ⟨hp, hfits⟩ | ⟨hfits, hst⟩⟩
  · exact .inl ⟨not_not.mpr ⟨hover, hgr⟩, rfl⟩
  · exact .inr (.inl ⟨hover, hfits, if_pos hp⟩)
  · have hp : a.p ≠ 0 := by
      have hlt := hfits.1
      have hadd := hst.p_add
      rw [size] at hlt
      omega
    exact .inr (.inr ⟨hover, hfits, a, hst, if_neg hp⟩)

theorem after_env (w : World) (envp : Option (List CStr)) : After w.getFreePage [strings envp]
    (copyStrings w.getFreePage (count envp) (userArgv envp 0) .neither noArgs) :=
  (after_nil (a := noArgs) (fun _ => rfl) rfl rfl).call .neither (Int.toNat_natCast _)

theorem copyPlain_after (w : World) (argv envp : Option (List CStr)) : ∃ x, After w.getFreePage [strings argv, strings envp] x ∧
    copyPlain w argv envp =
      (x >>= fun a => if a.p = 0 then .error (.error ENOMEM) else .ok (a, count argv)) := by
  have hargc : (count argv).toNat = (strings argv).length := Int.toNat_natCast _
  refine ⟨_, (after_env w envp).call .neither hargc, ?_⟩
  rw [copyPlain, bind_assoc]
  rfl

/-- `argc` for an interpreter, counted by hand. -/
def scriptArgc (l : Line) (argv : Option (List CStr)) : ℤ :=
  (if l.iArg.isSome then count argv - 1 + 1 + 1 else count argv - 1 + 1) + 1

theorem copyScript_after (w : World) (l : Line) (filename : CStr) (argv envp : Option (List CStr)) :
    ∃ x, After w.getFreePage
      (scriptCalls l filename (strings argv) (strings envp)) x ∧
    copyScript w l filename argv envp =
      (x >>= fun a => if a.p = 0 then .error (.error ENOMEM) else .ok (a, scriptArgc l argv)) := by
  have htail : (count argv - 1).toNat = (strings argv).tail.length := by
    rw [count, List.length_tail]
    omega
  have hone : ∀ s : CStr, (1 : ℤ).toNat = [s].length := fun _ => rfl
  have hdrop : userArgv argv 1 = FromKmem.neither.source (strings argv).tail := by
    rw [userArgv, List.drop_one]
    rfl
  have hname := ((after_env w envp).call .neither htail).call .array (hone filename)
  rw [copyScript, scriptCalls, scriptArgc, hdrop]
  cases l.iArg with
  | none =>
    refine ⟨_, hname.call .both (hone l.iName), ?_⟩
    simp only [bind_assoc]
    rfl
  | some iArg =>
    refine ⟨_, (hname.call .both (hone iArg)).call .both (hone l.iName), ?_⟩
    simp only [bind_assoc]
    rfl

/-- The stack names as many of the strings as the counts say. -/
theorem finish_spec {getFreePage : ℕ → Bool} {ex : Header}
    (hst : Stored getFreePage a (CStr.flat (args ++ env ++ rest))) :
    ∃ image, finish w t r inode e_uid e_gid ex a args.length env.length = .ok image ∧
      StackHolds image.mem image.regs.esp args env := by
  have hadd := hst.p_add
  rw [CStr.flat_append, List.length_append, top_eq] at hadd
  have hlen := CStr.length_le_flat (args ++ env)
  rw [List.length_append] at hlen
  have hp : sub32 ((a.p + TASK_SIZE) % 2 ^ 32) (LIBRARY_SIZE + MAX_ARG_PAGES * PAGE_SIZE) =
      argBase + a.p := by
    rw [argBase_eq, TASK_SIZE, LIBRARY_SIZE, MAX_ARG_PAGES, PAGE_SIZE,
      sub32_of_le (by omega) (by omega)]
    omega
  have hreads : (changeLdt w.rest a.page).Reads _ _ := hst.reads_changeLdt
  rw [CStr.flat_append, Bytes.reads_append] at hreads
  obtain ⟨m, sp, hcreate, hstack⟩ := createTables_spec hreads.1
    (by rw [argBase_eq]; omega) (by rw [argBase_eq, TASK_SIZE]; omega)
  rw [finish]
  dsimp only
  rw [hp, hcreate]
  exact ⟨_, rfl, hstack⟩

theorem doExecve_of_namei (hname : filename.bytes.length + 1 < 128) (hcs : r.cs &&& 0xffff = 0xf)
    (hnamei : w.namei filename = some inode) :
    doExecve w t r filename argv envp = (do
      let (e_uid, e_gid, bh) ← restartInterp w t inode
      if isScript bh then
        let l ← orError ENOEXEC (scriptLine bh)
        let (a, argc) ← copyScript w l filename argv envp
        let inode ← orError ENOENT (w.namei l.interp)
        let (e_uid, e_gid, bh) ← restartInterp w t inode
        checkHeader inode (execHeader bh)
        finish w t r inode e_uid e_gid (execHeader bh) a argc (count envp)
      else
        checkHeader inode (execHeader bh)
        let (a, argc) ← copyPlain w argv envp
        finish w t r inode e_uid e_gid (execHeader bh) a argc (count envp)) := by
  rw [doExecve, copyName, if_pos hname]
  change (if r.cs &&& 0xffff ≠ 0xf then _ else _) = _
  rw [if_neg (not_not.mpr hcs), hnamei]
  rfl

theorem restartInterp_bread (h : restartInterp w t inode = .ok (e_uid, e_gid, bh)) :
    w.bread inode.dev inode.zone = some bh := by
  rw [restartInterp] at h
  split at h
  case isTrue => cases h
  case isFalse =>
    dsimp only at h
    split at h
    case isTrue => cases h
    case isFalse =>
      cases hbread : w.bread inode.dev inode.zone with
      | none =>
        rw [hbread] at h
        cases h
      | some bh' =>
        rw [hbread] at h
        cases h
        rfl

theorem flatten_scriptCalls : (scriptCalls l filename args env).flatten =
    l.iName :: l.iArg.toList ++ filename :: args.tail ++ env := by
  rw [scriptCalls]
  cases l.iArg <;> simp

/-- With an `argv[0]` to be left out, `argc` is right. -/
theorem scriptArgc_of_ne_nil (h : strings argv ≠ []) : scriptArgc l argv =
    ((l.iName :: l.iArg.toList ++ filename :: (strings argv).tail).length : ℤ) := by
  have hpos := List.length_pos_iff.mpr h
  rw [scriptArgc, count]
  cases l.iArg <;> simp <;> omega

/-- Without one, it is one too small. -/
theorem scriptArgc_of_nil (h : strings argv = []) :
    scriptArgc l argv = ((l.iName :: l.iArg.toList).length : ℤ) := by
  rw [scriptArgc, count, h]
  cases l.iArg <;> rfl

theorem expectedArgs_script (hnamei : w.namei filename = some inode)
    (hrestart : restartInterp w t inode = .ok (e_uid, e_gid, bh)) (hscript : isScript bh)
    (hline : scriptLine bh = some l) :
    expectedArgs w filename args = l.iName :: l.iArg.toList ++ filename :: args.tail := by
  obtain ⟨-, hname, harg⟩ := scriptLine_eq hline
  rw [expectedArgs, hnamei, Option.bind_some, restartInterp_bread hrestart]
  dsimp only
  rw [if_pos hscript, scriptArgs, hname, harg, Option.toList_map]

theorem expectedArgs_plain (hnamei : w.namei filename = some inode)
    (hrestart : restartInterp w t inode = .ok (e_uid, e_gid, bh)) (hscript : ¬ isScript bh) :
    expectedArgs w filename args = args := by
  rw [expectedArgs, hnamei, Option.bind_some, restartInterp_bread hrestart]
  exact if_neg hscript

/-- What the caller finds, where the copying has succeeded. -/
theorem finish_script (hst : Stored w.getFreePage a
      (CStr.flat (scriptCalls l filename (strings argv) (strings envp)).flatten)) {ex : Header} :
    ∃ image, finish w t r inode e_uid e_gid ex a (scriptArgc l argv) (count envp) = .ok image ∧
      (StackHolds image.mem image.regs.esp
          (l.iName :: l.iArg.toList ++ filename :: (strings argv).tail) (strings envp) ↔
        strings argv ≠ []) := by
  rw [flatten_scriptCalls] at hst
  by_cases hargv : strings argv = []
  · -- the file name has come behind the end of the arguments, and begins the environment
    rw [hargv, List.tail_nil, List.append_assoc, List.singleton_append,
      ← List.take_append_drop (strings envp).length (filename :: strings envp),
      ← List.append_assoc] at hst
    have hlen : ((filename :: strings envp).take (strings envp).length).length =
        (strings envp).length := by
      rw [List.length_take, List.length_cons]
      omega
    obtain ⟨image, hfinish, hstack⟩ :=
      (finish_spec hst : ∃ image, finish w t r inode e_uid e_gid ex a _ _ = .ok image ∧ _)
    rw [hlen, ← scriptArgc_of_nil hargv] at hfinish
    refine ⟨image, hfinish, iff_of_false (fun h => ?_) (not_not.mpr hargv)⟩
    have hargc := hstack.1.symm.trans h.1
    rw [List.length_append, hargv] at hargc
    exact absurd hargc (by simp)
  · rw [← List.append_nil (_ ++ strings envp)] at hst
    obtain ⟨image, hfinish, hstack⟩ :=
      (finish_spec hst : ∃ image, finish w t r inode e_uid e_gid ex a _ _ = .ok image ∧ _)
    rw [← scriptArgc_of_ne_nil hargv] at hfinish
    exact ⟨image, hfinish, iff_of_true hstack hargv⟩

theorem script_right (hname : filename.bytes.length + 1 < 128) (hcs : r.cs &&& 0xffff = 0xf)
    (hnamei : w.namei filename = some inode)
    (hrestart : restartInterp w t inode = .ok (e_uid, e_gid, bh)) (hscript : isScript bh)
    (hline : scriptLine bh = some l) :
    ArgumentsRight w t r filename argv envp ↔
      Room w (scriptCalls l filename (strings argv) (strings envp)) ∧
      (strings argv = [] → ¬ (Program w t l.interp ∧
        Fits w.getFreePage (scriptCalls l filename (strings argv) (strings envp)))) := by
  rw [ArgumentsRight, doExecve_of_namei hname hcs hnamei, hrestart,
    expectedArgs_script hnamei hrestart hscript hline]
  change Right _ _ (if isScript bh then _ else _) ↔ _
  rw [if_pos hscript, hline]
  change Right _ _ (copyScript w l filename argv envp >>= _) ↔ _
  obtain ⟨x, hafter, hcopy⟩ := copyScript_after w l filename argv envp
  rw [hcopy]
  rcases hafter.room (scriptArgc l argv) with
    ⟨hroom, hx⟩ | ⟨hroom, hfits, hx⟩ | ⟨hroom, hfits, a, hst, hx⟩
  all_goals rw [hx]
  · exact iff_of_false (fun h => h rfl) fun h => hroom h.1
  · exact iff_of_true (by nofun) ⟨hroom, fun _ h => hfits h.2⟩
  -- an interpreter that is no program
  have hno : ¬ Program w t l.interp → Room w (scriptCalls l filename (strings argv) (strings envp)) ∧
      (strings argv = [] → ¬ (Program w t l.interp ∧
        Fits w.getFreePage (scriptCalls l filename (strings argv) (strings envp)))) :=
    fun h => ⟨hroom, fun _ hp => h hp.1⟩
  change Right _ _ (orError ENOENT (w.namei l.interp) >>= _) ↔ _
  cases hinterp : w.namei l.interp with
  | none =>
    refine iff_of_true (by nofun) (hno ?_)
    rintro ⟨i, -, -, -, hi, -⟩
    rw [hinterp] at hi
    cases hi
  | some i =>
    change Right _ _ (restartInterp w t i >>= _) ↔ _
    cases hi : restartInterp w t i with
    | error s =>
      refine iff_of_true (restartInterp_ne_wild hi) (hno ?_)
      rintro ⟨j, _, _, _, hj, hj', -⟩
      rw [hinterp] at hj
      cases hj
      rw [hi] at hj'
      cases hj'
    | ok ids =>
      obtain ⟨e_uid', e_gid', bh'⟩ := ids
      change Right _ _ (checkHeader i (execHeader bh') >>= _) ↔ _
      cases hheader : checkHeader i (execHeader bh') with
      | error s =>
        refine iff_of_true (checkHeader_ne_wild hheader) (hno ?_)
        rintro ⟨j, _, _, _, hj, hj', hj''⟩
        rw [hinterp] at hj
        cases hj
        rw [hi] at hj'
        cases hj'
        rw [hheader] at hj''
        cases hj''
      | ok _ =>
        obtain ⟨image, hfinish, hstack⟩ := (finish_script hst : ∃ image, finish w t r i e_uid' e_gid'
          (execHeader bh') a _ _ = .ok image ∧ _)
        change Right _ _ (finish w t r i e_uid' e_gid' (execHeader bh') a (scriptArgc l argv)
          (count envp)) ↔ _
        rw [hfinish, Right, hstack]
        constructor
        · exact fun hne => ⟨hroom, fun h => absurd h hne⟩
        · rintro ⟨-, h⟩ hnil
          exact h hnil ⟨⟨i, e_uid', e_gid', bh', hinterp, hi, hheader⟩, hfits⟩

theorem plain_right (hname : filename.bytes.length + 1 < 128) (hcs : r.cs &&& 0xffff = 0xf)
    (hnamei : w.namei filename = some inode)
    (hrestart : restartInterp w t inode = .ok (e_uid, e_gid, bh)) (hscript : ¬ isScript bh) :
    ArgumentsRight w t r filename argv envp ↔
      (Program w t filename → Room w [strings argv, strings envp]) := by
  rw [ArgumentsRight, doExecve_of_namei hname hcs hnamei, hrestart,
    expectedArgs_plain hnamei hrestart hscript]
  change Right _ _ (if isScript bh then _ else _) ↔ _
  rw [if_neg hscript]
  cases hheader : checkHeader inode (execHeader bh) with
  | error s =>
    refine iff_of_true (checkHeader_ne_wild hheader) ?_
    rintro ⟨i, _, _, _, hi, hi', hi''⟩
    rw [hnamei] at hi
    cases hi
    rw [hrestart] at hi'
    cases hi'
    rw [hheader] at hi''
    cases hi''
  | ok _ =>
    obtain ⟨x, hafter, hcopy⟩ := copyPlain_after w argv envp
    have hprogram : Program w t filename := ⟨inode, e_uid, e_gid, bh, hnamei, hrestart, hheader⟩
    change Right _ _ (copyPlain w argv envp >>= _) ↔ _
    rw [hcopy]
    rcases hafter.room (count argv) with
      ⟨hroom, hx⟩ | ⟨hroom, hfits, hx⟩ | ⟨hroom, hfits, a, hst, hx⟩
    all_goals rw [hx]
    · exact iff_of_false (fun h => h rfl) fun h => hroom (h hprogram)
    · exact iff_of_true (by nofun) fun _ => hroom
    · rw [List.flatten_cons, List.flatten_cons, List.flatten_nil, ← List.append_assoc] at hst
      obtain ⟨image, hfinish, hstack⟩ := (finish_spec hst : ∃ image,
        finish w t r inode e_uid e_gid (execHeader bh) a _ _ = .ok image ∧ _)
      change Right _ _ (finish w t r inode e_uid e_gid (execHeader bh) a (count argv)
        (count envp)) ↔ _
      rw [count, count, hfinish]
      exact iff_of_true hstack fun _ => hroom

/-- The strings end before they run out of the pages, and a script that can be executed gets
an `argv[0]`. -/
def Proper (w : World) (t : Task) (filename : CStr) (args env : List CStr) : Prop :=
  (Program w t filename → Room w [args, env]) ∧
  ∀ l, Script w t filename l → Room w (scriptCalls l filename args env) ∧
    (args = [] → ¬ (Program w t l.interp ∧
      Fits w.getFreePage (scriptCalls l filename args env)))

/-- A file that is neither a program nor a script. -/
theorem right_of_error (h : doExecve w t r filename argv envp = .error s) (hs : s ≠ .wild)
    (hprogram : ¬ Program w t filename) (hscript : ∀ l, ¬ Script w t filename l) :
    ArgumentsRight w t r filename argv envp ↔ Proper w t filename (strings argv) (strings envp) := by
  refine iff_of_true ?_ ⟨fun hp => absurd hp hprogram, fun l hl => absurd hl (hscript l)⟩
  rw [ArgumentsRight, h]
  exact hs

/-- `exec_arguments` behind the first two checks. -/
theorem right_iff_proper (hname : filename.bytes.length + 1 < 128) (hcs : r.cs &&& 0xffff = 0xf) :
    ArgumentsRight w t r filename argv envp ↔ Proper w t filename (strings argv) (strings envp) := by
  cases hnamei : w.namei filename with
  | none =>
    refine right_of_error (s := .error ENOENT) ?_ (by nofun) ?_ ?_
    · rw [doExecve, copyName, if_pos hname]
      change (if r.cs &&& 0xffff ≠ 0xf then _ else _) = _
      rw [if_neg (not_not.mpr hcs), hnamei]
      rfl
    · rintro ⟨i, _, _, _, hi, -⟩
      rw [hnamei] at hi
      cases hi
    · rintro l ⟨i, _, _, _, hi, -⟩
      rw [hnamei] at hi
      cases hi
  | some inode =>
    cases hrestart : restartInterp w t inode with
    | error s =>
      have hnone : ∀ i u g b, w.namei filename = some i → restartInterp w t i ≠ .ok (u, g, b) := by
        intro i u g b hi hr
        rw [hnamei] at hi
        cases hi
        rw [hrestart] at hr
        cases hr
      refine right_of_error (s := s) ?_ (restartInterp_ne_wild hrestart) ?_ ?_
      · rw [doExecve_of_namei hname hcs hnamei, hrestart]
        rfl
      · rintro ⟨i, u, g, b, hi, hr, -⟩
        exact hnone i u g b hi hr
      · rintro l ⟨i, u, g, b, hi, hr, -⟩
        exact hnone i u g b hi hr
    | ok ids =>
      obtain ⟨e_uid, e_gid, bh⟩ := ids
      have hsame : ∀ i u g b, w.namei filename = some i →
          restartInterp w t i = .ok (u, g, b) → inode = i ∧ bh = b := by
        intro i u g b h h'
        rw [hnamei] at h
        cases h
        rw [hrestart] at h'
        cases h'
        exact ⟨rfl, rfl⟩
      by_cases hscript : isScript bh
      case neg =>
        rw [plain_right hname hcs hnamei hrestart hscript, Proper, iff_self_and]
        rintro - l ⟨i, u, g, b, hi, hr, hb, -⟩
        obtain ⟨rfl, rfl⟩ := hsame i u g b hi hr
        exact absurd hb hscript
      have hprogram : ¬ Program w t filename := by
        rintro ⟨i, u, g, b, hi, hr, hheader⟩
        obtain ⟨rfl, rfl⟩ := hsame i u g b hi hr
        exact checkHeader_of_isScript hscript hheader
      cases hline : scriptLine bh with
      | none =>
        refine right_of_error (s := .error ENOEXEC) ?_ (by nofun) hprogram ?_
        · rw [doExecve_of_namei hname hcs hnamei, hrestart]
          change (if isScript bh then _ else _) = _
          rw [if_pos hscript, hline]
          rfl
        · rintro l ⟨i, u, g, b, hi, hr, -, hl⟩
          obtain ⟨rfl, rfl⟩ := hsame i u g b hi hr
          rw [hline] at hl
          cases hl
      | some l =>
        rw [script_right hname hcs hnamei hrestart hscript hline]
        constructor
        · refine fun h => ⟨fun hp => absurd hp hprogram, ?_⟩
          rintro l' ⟨i, u, g, b, hi, hr, -, hl⟩
          obtain ⟨rfl, rfl⟩ := hsame i u g b hi hr
          rw [hline] at hl
          cases hl
          exact h
        · exact fun h => h.2 l ⟨inode, e_uid, e_gid, bh, hnamei, hrestart, hscript, hline⟩

end Results

/-- The new program finds its arguments, and the call keeps to its own memory, exactly as long
as the file name fits the buffer for it and the strings are `Proper`. -/
theorem exec_arguments (w : World) (t : Task) (r : Regs) (filename : CStr)
    (argv envp : Option (List CStr)) :
    ArgumentsRight w t r filename argv envp ↔
      filename.bytes.length ≤ 126 ∧
      (r.cs &&& 0xffff = 0xf → Proper w t filename (strings argv) (strings envp)) := by
  by_cases hname : filename.bytes.length + 1 < 128
  case neg =>
    refine iff_of_false (fun h => ?_) fun h => hname (by omega)
    rw [ArgumentsRight, doExecve, copyName, if_neg hname] at h
    exact h rfl
  rw [and_iff_right (by omega)]
  by_cases hcs : r.cs &&& 0xffff = 0xf
  case neg =>
    refine iff_of_true ?_ fun h => absurd h hcs
    rw [ArgumentsRight, doExecve, copyName, if_pos hname]
    change Right _ _ (if r.cs &&& 0xffff ≠ 0xf then _ else _)
    rw [if_pos hcs]
    nofun
  rw [forall_prop_of_true hcs]
  exact right_iff_proper hname hcs

/-- A script "/s" for the interpreter "/i", which is a program without any text. -/
def oneScript : World where
  namei s :=
    if s.bytes = "/s".toUTF8.toList then some ⟨0o100755, 0, 0, 1024, 0, 1⟩
    else if s.bytes = "/i".toUTF8.toList then some ⟨0o100755, 0, 0, 1024, 0, 2⟩
    else none
  bread _ zone := some fun i =>
    if zone = 1 then "#!/i\n".toUTF8.toList.getD i 0 else [0x0b, 0x01].getD i 0
  getFreePage _ := true
  rest _ := 0

def superuser : Task where
  state := .running
  exitCode := 0
  signal := 0
  blocked := 0
  sigaction _ := ⟨0, 0, 0, 0⟩
  euid := 0
  egid := 0
  suid := 0
  sgid := 0
  groups := []
  executable := none
  closeOnExec := 0
  filp _ := none
  usedMath := false
  brk := 0
  endData := 0
  endCode := 0
  startStack := 0

/-- `argc` of the new program. -/
def stackArgc : Except Stop Image → Option ℕ
  | .ok image => some (image.mem.getLong image.regs.esp)
  | .error _ => none

/-- `execve("/s", NULL, {"E", NULL})`: the interpreter is told of one argument, its own name,
and the name of the script becomes its environment. -/
theorem script_without_argv : ¬ ArgumentsRight oneScript superuser ⟨0, 0xf, 0⟩
    (.ofBytes "/s".toUTF8.toList) none (some [.ofBytes "E".toUTF8.toList]) := by
  have hargc : stackArgc (doExecve oneScript superuser ⟨0, 0xf, 0⟩ (.ofBytes "/s".toUTF8.toList)
      none (some [.ofBytes "E".toUTF8.toList])) = some 1 := by decide +kernel
  have hexpected : (expectedArgs oneScript (.ofBytes "/s".toUTF8.toList) []).length = 2 := by
    decide +kernel
  intro h
  rw [ArgumentsRight] at h
  cases hrun : doExecve oneScript superuser ⟨0, 0xf, 0⟩ (.ofBytes "/s".toUTF8.toList)
      none (some [.ofBytes "E".toUTF8.toList]) with
  | error s =>
    rw [hrun] at hargc
    cases hargc
  | ok image =>
    rw [hrun] at h hargc
    have hone := Option.some.inj hargc
    have htwo := h.1.trans hexpected
    omega

end Exec
