/-
An `execve` that fails (fs/exec.c): what it has taken, and what it has put back.

* `Kernel` — reference counts, `mem_map`, the segment of `fs`, and the caller;
* `Machine.doExecve` — the call, with the look-ups of Namei.lean and the copying of
  CopyStrings.lean;
* `Machine.Careful` — the name fits in its buffer, the look-ups do not trip, and the strings do
  not run out of the pages;
* `failed_exec` — with this, and only then, a call that returns an error leaves all as it was.

Design notes: `get_free_page` finds frames that no one has, or none; which ones is given by
`Machine.frame`.  The pages of a call of `copy_strings` are counted at its end.  What a call that
succeeds does to the counts is left out, and so are the times of inodes.
-/
import Linux012.Namei
import Linux012.ArgumentSpace

namespace Exec

open Fs (Disks InodeId Ref Crash Namei)
open Owning (Yields)

/-! ### The state -/

structure Kernel where
  /-- `i_count` and `b_count` -/
  refs : Ref → ℕ
  memMap : ℕ → ℕ
  fs : Seg
  /-- the caller, with its memory and registers -/
  task : Task
  mem : Bytes
  regs : Regs

/-- `system_call` makes `fs` point to the data of the caller. -/
def Kernel.enter (k : Kernel) : Kernel := { k with fs := .user }

/-- Parts of a system call. -/
abbrev K (α : Type) : Type := StateT Kernel (Except Stop) α

/-- A null pointer leads to the first page of memory. -/
def crash : Crash → Stop
  | .null => .wild
  | .panic => .panic

/-- A call of the file system. -/
def files {α : Type} (m : Namei α) : K α := fun k =>
  match m k.refs with
  | .ok (a, refs) => .ok (a, { k with refs })
  | .error e => .error (crash e)

/-- A call of the memory manager. -/
def frames {α : Type} (m : Owning ℕ Crash α) : K α := fun k =>
  match m k.memMap with
  | .ok (a, memMap) => .ok (a, { k with memMap })
  | .error e => .error (crash e)

def setFs (fs : Seg) : K Unit := fun k => .ok ((), { k with fs })

def lift {α : Type} (x : Except Stop α) : K α := fun k => x.map fun a => (a, k)

/-- What the call reads, and the pages that it is given. -/
structure Machine where
  disks : Disks
  root : InodeId
  pwd : InodeId
  /-- the blocks -/
  data : ℕ → ℕ → Bytes
  /-- the frame that `get_free_page` finds for `page[i]` -/
  frame : ℕ → Option ℕ
  rest : Bytes

namespace Machine

variable (w : Machine)

def granted (i : ℕ) : Bool := (w.frame i).isSome

/-- An inode, with `i_zone[0]`. -/
def inode (id : InodeId) : Inode :=
  let inode := w.disks.inode id
  ⟨inode.mode, inode.uid, inode.gid, inode.size, id.1, w.disks.bmap id 0⟩

/-- `current`, for a look-up. -/
def current (t : Task) : Fs.Current :=
  ⟨w.root, w.pwd, t.euid, t.egid,
    ((t.groups.take 32).takeWhile (· ≠ NOGROUP)).map Int.toNat⟩

def path (s : CStr) : List Char := s.bytes.map fun b => Char.ofNat b.toNat

/-- `namei` of a name in the segment of `fs`. -/
def lookup (t : Task) (s : CStr) : Seg → Namei (Option InodeId)
  | .user => Fs.namei w.disks (w.current t) (path s)
  | .kernel => Fs.doNamei w.disks (w.current t) (Fs.followLinkKernel w.disks) (path s) none true

def namei (s : CStr) : K (Option InodeId) := fun k => files (w.lookup k.task s k.fs) k

/-- What `namei` finds. -/
def finds (t : Task) (s : CStr) : Seg → Except Crash (Option InodeId)
  | .user =>
    w.disks.resolve (w.current t) (w.disks.follow (w.current t)) (path s) none true
  | .kernel => w.disks.resolve (w.current t) w.disks.followKernel (path s) none true

/-- What the call reads, without the references that it takes. -/
def world (t : Task) : World where
  namei s :=
    match w.finds t s .user with
    | .ok (some id) => some (w.inode id)
    | _ => none
  bread dev block := if w.disks.readable dev block then some (w.data dev block) else none
  getFreePage := w.granted
  rest := w.rest

/-! ### The call -/

/-- `page[i]`, if it is not 0. -/
def page (a : Args) (i : ℕ) : Option ℕ := if (a.page i).isSome then w.frame i else none

/-- `page`. -/
def pages (a : Args) : List ℕ := (List.range MAX_ARG_PAGES).filterMap (w.page a)

/-- The pages that `a'` has and `a` has not. -/
def newPages (a a' : Args) : List ℕ :=
  (List.range MAX_ARG_PAGES).filterMap fun i => if (a.page i).isSome then none else w.page a' i

/-- `copy_strings`. -/
def copyStrings (argc : ℤ) (argv : Far (List (Far CStr))) (kmem : FromKmem) (a : Args) : K Args :=
  fun k => do
    let a' ← Exec.copyStrings w.granted argc argv kmem { a with fs := k.fs }
    let (_, k) ← frames (Owning.takeAll (w.newPages a a')) k
    .ok (a', { k with fs := a'.fs })

def execError1 (a : Args) (retval : ℕ) : K (Except ℕ Unit) := do
  frames (Owning.dropAll .panic (w.pages a))
  pure (.error retval)

def execError2 (id : InodeId) (a : Args) (retval : ℕ) : K (Except ℕ Unit) := do
  files (Fs.iput id)
  w.execError1 a retval

/-- From `restart_interp` to the first block of the file. -/
def restartInterp (id : InodeId) : K (Except ℕ (ℕ × ℕ × ℕ × ℕ)) := fun k =>
  let inode := w.inode id
  if inode.mode &&& S_IFMT ≠ S_IFREG then .ok (.error EACCES, k)
  else
    let e_uid := if inode.mode &&& S_ISUID ≠ 0 then inode.uid else k.task.euid
    let e_gid := if inode.mode &&& S_ISGID ≠ 0 then inode.gid else k.task.egid
    if refused k.task inode then .ok (.error ENOEXEC, k)
    else do
      let (bh, k) ← files (Fs.bread w.disks inode.dev inode.zone) k
      match bh with
      | none => .ok (.error EACCES, k)
      | some bh => .ok (.ok (e_uid, e_gid, bh), k)

/-- Behind the point of no return. -/
def noReturn (id : InodeId) (e_uid e_gid : ℕ) (ex : Header) (a : Args) (argc envc : ℤ) :
    K (Except ℕ Unit) := fun k => do
  let image ← finish (w.world k.task) k.task k.regs (w.inode id) e_uid e_gid ex a argc envc
  .ok (.ok (), { k with task := image.task, mem := image.mem, regs := image.regs })

/-- A file with this header is executed, where no script has been read. -/
def program (id : InodeId) (e_uid e_gid : ℕ) (ex : Header) (argv envp : Option (List CStr)) :
    K (Except ℕ Unit) :=
  match checkHeader (w.inode id) ex with
  | .error _ => w.execError2 id noArgs ENOEXEC
  | .ok _ => do
    let a ← w.copyStrings (count envp) (userArgv envp 0) .neither noArgs
    let a ← w.copyStrings (count argv) (userArgv argv 0) .neither a
    if a.p = 0 then w.execError2 id a ENOMEM
    else w.noReturn id e_uid e_gid ex a (count argv) (count envp)

/-- The interpreter of a script is executed. -/
def interpreter (id : InodeId) (a : Args) (argc envc : ℤ) : K (Except ℕ Unit) := do
  match ← w.restartInterp id with
  | .error e => w.execError2 id a e
  | .ok (e_uid, e_gid, bh) =>
    files (Fs.brelse (some bh))
    -- `sh_bang` is set, so that another script is no program
    let ex := execHeader (w.data bh.1 bh.2)
    match checkHeader (w.inode id) ex with
    | .error _ => w.execError2 id a ENOEXEC
    | .ok _ => w.noReturn id e_uid e_gid ex a argc envc

/-- The strings for an interpreter. -/
def copyScript (l : Line) (filename : CStr) (argv envp : Option (List CStr)) : K Args := do
  let a ← w.copyStrings (count envp) (userArgv envp 0) .neither noArgs
  let a ← w.copyStrings (count argv - 1) (userArgv argv 1) .neither a
  let a ← w.copyStrings 1 ⟨.kernel, [⟨.user, filename⟩]⟩ .array a
  let a ← match l.iArg with
    | some iArg => w.copyStrings 1 ⟨.kernel, [⟨.kernel, iArg⟩]⟩ .both a
    | none => pure a
  w.copyStrings 1 ⟨.kernel, [⟨.kernel, l.iName⟩]⟩ .both a

/-- A script, whose inode has been put, with first line `l`. -/
def script (l : Line) (filename : CStr) (argv envp : Option (List CStr)) : K (Except ℕ Unit) := do
  let a ← w.copyScript l filename argv envp
  if a.p = 0 then w.execError1 a ENOMEM
  else do
    let oldFs := (← get).fs
    setFs .kernel
    let id ← w.namei l.interp
    setFs oldFs
    match id with
    | none => w.execError1 a ENOENT
    | some id => w.interpreter id a (scriptArgc l argv) (count envp)

/-- The file that has been found. -/
def execFile (id : InodeId) (filename : CStr) (argv envp : Option (List CStr)) :
    K (Except ℕ Unit) := do
  match ← w.restartInterp id with
  | .error e => w.execError2 id noArgs e
  | .ok (e_uid, e_gid, bh) =>
    files (Fs.brelse (some bh))
    let block := w.data bh.1 bh.2
    if isScript block then
      files (Fs.iput id)
      match scriptLine block with
      | none => w.execError1 noArgs ENOEXEC
      | some l => w.script l filename argv envp
    else w.program id e_uid e_gid (execHeader block) argv envp

/-- `do_execve`: an error, or success. -/
def doExecve (filename : CStr) (argv envp : Option (List CStr)) : K (Except ℕ Unit) := do
  lift (copyName filename)
  if (← get).regs.cs &&& 0xffff ≠ 0xf then throw .panic
  else
    match ← w.namei filename with
    | none => pure (.error ENOENT)
    | some id => w.execFile id filename argv envp

end Machine

/-! ### What the calls come to -/

section Calls

variable {α β : Type} {m : K α} {f : α → K β} {k k' : Kernel} {a : α} {s : Stop}

theorem run_bind (h : m k = .ok (a, k')) : (m >>= f) k = f a k' := by
  change (m k >>= fun x => f x.1 x.2) = _
  rw [h]
  rfl

theorem run_bind_error (h : m k = .error s) : (m >>= f) k = .error s := by
  change (m k >>= fun x => f x.1 x.2) = _
  rw [h]
  rfl

theorem files_run {m : Namei α} {H : Ref → ℕ} {r : Except Crash α} {H' : α → Ref → ℕ}
    (h : Yields m H r H') (k : Kernel) : files m { k with refs := k.refs + H } =
      (r.mapError crash).map fun a => (a, { k with refs := k.refs + H' a }) := by
  rw [files, h k.refs]
  cases r with
  | error e => rfl
  | ok a => rfl

theorem frames_run {m : Owning ℕ Crash α} {H : ℕ → ℕ} {r : Except Crash α} {H' : α → ℕ → ℕ}
    (h : Yields m H r H') (k : Kernel) : frames m { k with memMap := k.memMap + H } =
      (r.mapError crash).map fun a => (a, { k with memMap := k.memMap + H' a }) := by
  rw [frames, h k.memMap]
  cases r with
  | error e => rfl
  | ok a => rfl

end Calls

/-! ### The pages of `copy_strings` -/

section Keeps

variable {getFreePage : ℕ → Bool} {old : Seg} {kmem : FromKmem} {a a' a'' : Args} {c : Cursor}

/-- The pages of `a` are there in `a'`. -/
def Keeps (a a' : Args) : Prop := ∀ i, (a.page i).isSome → (a'.page i).isSome

/-- The same, where a loop may be left early. -/
def KeepsAll (a : Args) : Except Exit Cursor → Prop
  | .ok c => Keeps a c.toArgs
  | .error (.refused a') => Keeps a a'
  | .error (.stop _) => True

theorem KeepsAll.of_keeps {x : Except Exit Cursor} (h : Keeps a a') (hx : KeepsAll a' x) :
    KeepsAll a x := by
  cases x with
  | ok c => exact fun i hi => hx i (h i hi)
  | error e =>
    cases e with
    | stop s => trivial
    | refused b => exact fun i hi => hx i (h i hi)

theorem KeepsAll.bind {x : Except Exit Cursor} {f : Cursor → Except Exit Cursor}
    (h : KeepsAll a x) (hf : ∀ c, KeepsAll c.toArgs (f c)) : KeepsAll a (x >>= f) := by
  cases x with
  | ok c => exact (hf c).of_keeps h
  | error e => exact h

theorem keeps_store (c : Cursor) (b : UInt8) : Keeps c.toArgs (c.store b).toArgs := by
  intro i hi
  rw [Cursor.store]
  dsimp only
  by_cases hpag : i = c.pag
  · rw [hpag, Function.update_self, Option.isSome_map, ← hpag]
    exact hi
  · rwa [Function.update_of_ne hpag]

theorem keeps_turnPage (c : Cursor) : KeepsAll c.toArgs (c.turnPage getFreePage old kmem) := by
  rw [Cursor.turnPage]
  dsimp only
  split
  case isTrue => trivial
  case isFalse =>
    split
    case isTrue => exact fun i hi => hi
    case isFalse =>
      split
      case isTrue =>
        intro i hi
        dsimp only
        by_cases hpage : i = c.p / PAGE_SIZE
        · rw [hpage, Function.update_self]
          rfl
        · rwa [Function.update_of_ne hpage]
      case isFalse => exact fun i hi => hi

theorem keeps_get {α : Type} (x : Far α) (fs : Seg) {f : α → Except Exit Cursor}
    (h : KeepsAll a (f x.val)) : KeepsAll a ((x.get fs).mapError .stop >>= f) := by
  rw [Far.get]
  split
  case isTrue => exact h
  case isFalse => trivial

theorem keeps_copyByte (tmp : Far UInt8) (c : Cursor) :
    KeepsAll c.toArgs (copyByte getFreePage old kmem tmp c) := by
  have hstore : ∀ c' : Cursor, KeepsAll c'.toArgs
      ((tmp.get c'.fs).mapError .stop >>= fun b => .ok (c'.store b)) := fun c' =>
    keeps_get tmp c'.fs (keeps_store c' tmp.val)
  obtain ⟨p, hp⟩ : ∃ p, p = sub32 c.p 1 := ⟨_, rfl⟩
  rw [copyByte, ← hp]
  dsimp only
  by_cases hoff : c.offset - 1 < 0
  · rw [if_pos hoff]
    exact (keeps_turnPage { c with p, offset := c.offset - 1 }).bind hstore
  · rw [if_neg hoff]
    exact hstore { c with p, offset := c.offset - 1 }

theorem keeps_copyBytes (seg : Seg) (l : List UInt8) (c : Cursor) :
    KeepsAll c.toArgs (copyBytes getFreePage old kmem seg l c) := by
  induction l generalizing c with
  | nil => exact fun i hi => hi
  | cons b l ih => exact (keeps_copyByte ⟨seg, b⟩ c).bind ih

theorem keeps_copyLoop (argv : Far (List (Far CStr))) (n : ℕ) (c : Cursor) :
    KeepsAll c.toArgs (copyLoop getFreePage old kmem argv n c) := by
  induction n generalizing c with
  | zero => exact fun i hi => hi
  | succ n ih =>
    rw [copyLoop]
    refine keeps_get argv _ ?_
    cases argv.val[n]? with
    | none => trivial
    | some tmp =>
      refine keeps_get tmp _ ?_
      rw [if_neg (Nat.not_lt_zero _)]
      exact (keeps_copyBytes tmp.seg _ { c with fs := _ }).bind ih

theorem keeps_copyStrings {argc : ℤ} {argv : Far (List (Far CStr))}
    (h : copyStrings getFreePage argc argv kmem a = .ok a') : Keeps a a' := by
  rw [copyStrings] at h
  split at h
  case isTrue =>
    obtain rfl := Except.ok.inj h
    exact fun i hi => hi
  case isFalse =>
    dsimp only at h
    obtain ⟨c, hc⟩ : ∃ c : Cursor, c = { a with
      fs := if kmem = .both then .kernel else a.fs, offset := 0, pag := 0 } := ⟨_, rfl⟩
    have hloop : KeepsAll c.toArgs (copyLoop getFreePage a.fs kmem argv argc.toNat c) :=
      keeps_copyLoop argv argc.toNat c
    rw [← hc] at h
    split at h
    case h_1 c' hc' =>
      obtain rfl := Except.ok.inj h
      rw [hc', hc] at hloop
      exact hloop
    case h_2 b hb =>
      obtain rfl := Except.ok.inj h
      rw [hb, hc] at hloop
      exact hloop
    case h_3 s hs => cases h

end Keeps

namespace Machine

variable {w : Machine} {k : Kernel} {a a' : Args}

/-- The count of the pages of `a`. -/
def held (w : Machine) (a : Args) : ℕ → ℕ := Owning.total (w.pages a)

/-- The state where the call has the pages of `a`. -/
def holding (w : Machine) (k : Kernel) (a : Args) : Kernel :=
  { k with memMap := k.memMap + w.held a, fs := a.fs }

theorem held_new (h : Keeps a a') :
    Owning.total (w.newPages a a') + w.held a = w.held a' := by
  rw [held, held, pages, pages, newPages]
  induction List.range MAX_ARG_PAGES with
  | nil => rfl
  | cons i l ih =>
    simp only [List.filterMap_cons, page]
    by_cases hi : (a.page i).isSome
    · -- an old page
      rw [if_pos hi, if_pos hi, if_pos (h i hi)]
      cases w.frame i with
      | none => exact ih
      | some n =>
        dsimp only
        rw [Owning.total, Owning.total, ← ih, add_left_comm]
        rfl
    · rw [if_neg hi, if_neg hi]
      dsimp only
      split
      case h_1 hnew =>
        exact ih
      case h_2 n hnew =>
        rw [Owning.total, Owning.total, ← ih, add_assoc]
        rfl

theorem held_noArgs : w.held noArgs = 0 := by
  have hnone : w.pages noArgs = [] := List.filterMap_eq_nil_iff.mpr fun i _ => rfl
  rw [held, hnone]
  rfl

theorem holding_noArgs (h : k.fs = .user) : w.holding k noArgs = k := by
  rw [holding, held_noArgs, add_zero]
  cases k
  cases h
  rfl

theorem copyStrings_run (argc : ℤ) (argv : Far (List (Far CStr))) (kmem : FromKmem) (a : Args) :
    w.copyStrings argc argv kmem a (w.holding k a) =
      (Exec.copyStrings w.granted argc argv kmem a).map fun a' => (a', w.holding k a') := by
  rw [copyStrings]
  change (Exec.copyStrings w.granted argc argv kmem a >>= _) = _
  cases hcopy : Exec.copyStrings w.granted argc argv kmem a with
  | error s => rfl
  | ok a' =>
    have htake : frames (Owning.takeAll (w.newPages a a')) (w.holding k a) =
        .ok ((), { k with memMap := k.memMap + w.held a', fs := a.fs }) := by
      rw [← held_new (keeps_copyStrings hcopy)]
      exact frames_run (.takeAll (w.newPages a a')) { k with fs := a.fs }
    change (frames (Owning.takeAll (w.newPages a a')) (w.holding k a) >>= _) = _
    rw [htake]
    rfl

/-- The calls of `copy_strings` in turn. -/
theorem copyStrings_bind {x : Except Stop Args} {m : K Args} {k₀ : Kernel}
    (hm : m k₀ = x.map fun a => (a, w.holding k a)) (argc : ℤ) (argv : Far (List (Far CStr)))
    (kmem : FromKmem) : (m >>= w.copyStrings argc argv kmem) k₀ =
      (x >>= Exec.copyStrings w.granted argc argv kmem).map fun a => (a, w.holding k a) := by
  cases x with
  | error s => exact run_bind_error hm
  | ok a => exact (run_bind hm).trans (copyStrings_run argc argv kmem a)

theorem copyStrings_first (h : k.fs = .user) (argc : ℤ) (argv : Far (List (Far CStr)))
    (kmem : FromKmem) : w.copyStrings argc argv kmem noArgs k =
      (Exec.copyStrings w.granted argc argv kmem noArgs).map fun a => (a, w.holding k a) := by
  have hrun := copyStrings_run (w := w) (k := k) argc argv kmem noArgs
  rwa [holding_noArgs h] at hrun

theorem copyPlain_run (h : k.fs = .user) (argv envp : Option (List CStr)) :
    (w.copyStrings (count envp) (userArgv envp 0) .neither noArgs >>=
      w.copyStrings (count argv) (userArgv argv 0) .neither) k =
      (copies w.granted (plainCopies argv envp)).map fun a => (a, w.holding k a) := by
  rw [plainCopies, copies_cons, copies_cons, copies]
  exact copyStrings_bind (copyStrings_first h _ _ _) _ _ _

theorem copyScript_run (h : k.fs = .user) (l : Line) (filename : CStr)
    (argv envp : Option (List CStr)) : w.copyScript l filename argv envp k =
      (copies w.granted (scriptCopies l filename argv envp)).map fun a => (a, w.holding k a) := by
  have htail : (count argv - 1).toNat = (strings argv).tail.length := by
    rw [count, List.length_tail]
    omega
  have hdrop : userArgv argv 1 = FromKmem.neither.source (strings argv).tail := by
    rw [userArgv, List.drop_one]
    rfl
  have hargc : w.copyStrings (count argv - 1) = w.copyStrings ((strings argv).tail.length : ℤ) := by
    funext argv' kmem a k'
    rw [copyStrings, copyStrings, copyStrings_toNat, htail]
  -- the calls but for those for the first line
  have hname : ((w.copyStrings (count envp) (userArgv envp 0) .neither noArgs >>=
      w.copyStrings (count argv - 1) (userArgv argv 1) .neither) >>=
        w.copyStrings 1 ⟨.kernel, [⟨.user, filename⟩]⟩ .array) k =
      (copies w.granted [⟨.array, [filename]⟩, ⟨.neither, (strings argv).tail⟩,
        ⟨.neither, strings envp⟩]).map fun a => (a, w.holding k a) := by
    rw [copies_cons, copies_cons, copies_cons, copies, hargc, hdrop]
    exact copyStrings_bind (copyStrings_bind (copyStrings_first h _ _ _) _ _ _) _ _ _
  rw [copyScript, scriptCopies]
  cases l.iArg with
  | none =>
    rw [Option.toList_none, List.map_nil, List.singleton_append, copies_cons]
    simp only [← bind_assoc, pure_bind]
    exact copyStrings_bind hname _ _ _
  | some iArg =>
    rw [Option.toList_some, List.map_singleton]
    rw [List.cons_append, List.singleton_append, copies_cons, copies_cons]
    simp only [← bind_assoc]
    exact copyStrings_bind (copyStrings_bind hname _ _ _) _ _ _

end Machine

/-! ### What is put back -/

/-- A call that returns an error has left all as it was, and no call writes outside of its own
memory. -/
def Restores (k : Kernel) : Except Stop (Except ℕ Unit × Kernel) → Prop
  | .error s => s ≠ .wild
  | .ok (.error _, k') => k' = k
  | .ok (.ok _, _) => True

namespace Machine

/-- Where `namei` reads through a null pointer. -/
def Trips (w : Machine) (t : Task) (s : CStr) : Seg → Prop
  | .user => w.disks.Trips (w.current t) (path s) true
  | .kernel => w.disks.TripsAt (w.current t) w.disks.followKernel (fun _ _ => False) (path s) none
      true

variable {w : Machine} {k : Kernel} {a : Args} {id : InodeId} {l : Line} {filename : CStr}
  {argv envp : Option (List CStr)}

theorem finds_null {t : Task} {s : CStr} {seg : Seg} :
    w.finds t s seg = .error .null ↔ w.Trips t s seg := by
  cases seg with
  | user => exact Disks.resolve_null Disks.follow_null _ _ _
  | kernel => exact Disks.resolve_null (fun _ _ => ⟨nofun, False.elim⟩) _ _ _

theorem namei_run (s : CStr) (k : Kernel) : w.namei s k =
    ((w.finds k.task s k.fs).mapError crash).map fun r =>
      (r, { k with refs := k.refs + Fs.irefs r }) := by
  have hyields : ∀ seg, Yields (w.lookup k.task s seg) 0 (w.finds k.task s seg) Fs.irefs := by
    intro seg
    cases seg with
    | user => exact Fs.yields_doNamei _ _ (Fs.yields_followLink _ _) _ none true
    | kernel => exact Fs.yields_doNamei _ _ (Fs.yields_followLinkKernel _) _ none true
  exact files_run (hyields k.fs) k

theorem execError1_run (ha : a.fs = k.fs) (e : ℕ) :
    w.execError1 a e (w.holding k a) = .ok (.error e, k) := by
  have hdrop := frames_run (Owning.Yields.dropAll (w.pages a) : Yields (Owning.dropAll Crash.panic
    (w.pages a)) (_ + 0) _ _) k
  have hheld : w.holding k a = { k with memMap := k.memMap + (w.held a + 0) } := by
    rw [holding, ha, add_zero]
  rw [execError1, hheld]
  exact run_bind hdrop

theorem iput_run (id : InodeId) (k : Kernel) :
    files (Fs.iput id) { k with refs := k.refs + Fs.iref id } = .ok ((), k) :=
  files_run Yields.drop k

theorem brelse_run (b : ℕ × ℕ) (k : Kernel) :
    files (Fs.brelse (some b)) { k with refs := k.refs + Fs.bref b } = .ok ((), k) :=
  files_run Yields.drop k

theorem execError2_run (ha : a.fs = k.fs) (id : InodeId) (e : ℕ) :
    w.execError2 id a e { w.holding k a with refs := k.refs + Fs.iref id } =
      .ok (.error e, k) :=
  (run_bind (iput_run id (w.holding k a))).trans (execError1_run ha e)

/-- `restart_interp` ends with an error, or has the first block. -/
theorem restartInterp_run (id : InodeId) (k : Kernel) :
    (∃ e, Exec.restartInterp (w.world k.task) k.task (w.inode id) = .error (.error e) ∧
      w.restartInterp id k = .ok (.error e, k)) ∨
    ∃ e_uid e_gid b, Exec.restartInterp (w.world k.task) k.task (w.inode id) =
        .ok (e_uid, e_gid, w.data b.1 b.2) ∧
      w.restartInterp id k =
        .ok (.ok (e_uid, e_gid, b), { k with refs := k.refs + Fs.bref b }) := by
  rw [Exec.restartInterp, restartInterp]
  dsimp only
  by_cases hreg : (w.inode id).mode &&& S_IFMT ≠ S_IFREG
  · rw [if_pos hreg, if_pos hreg]
    exact .inl ⟨_, rfl, rfl⟩
  rw [if_neg hreg, if_neg hreg]
  by_cases hrefused : refused k.task (w.inode id)
  · rw [if_pos hrefused, if_pos hrefused]
    exact .inl ⟨_, rfl, rfl⟩
  rw [if_neg hrefused, if_neg hrefused, world, Fs.bread]
  dsimp only
  by_cases hread : w.disks.readable (w.inode id).dev (w.inode id).zone
  · rw [if_pos hread, if_pos hread]
    exact .inr ⟨_, _, ((w.inode id).dev, (w.inode id).zone), rfl, rfl⟩
  · rw [if_neg hread, if_neg hread]
    exact .inl ⟨_, rfl, rfl⟩

theorem noReturn_restores {k' : Kernel} {e_uid e_gid : ℕ} {ex : Header} {argc envc : ℤ}
    (h : ∃ image, finish (w.world k'.task) k'.task k'.regs (w.inode id) e_uid e_gid ex a argc
      envc = .ok image) : Restores k (w.noReturn id e_uid e_gid ex a argc envc k') := by
  obtain ⟨image, himage⟩ := h
  rw [noReturn, himage]
  trivial

/-- The interpreter of a script. -/
theorem interpreter_restores (ha : a.fs = k.fs) {argc envc : ℤ}
    (h : ∀ e_uid e_gid ex, ∃ image, finish (w.world k.task) k.task k.regs (w.inode id) e_uid e_gid
      ex a argc envc = .ok image) : Restores k
        (w.interpreter id a argc envc { w.holding k a with refs := k.refs + Fs.iref id }) := by
  obtain ⟨k', hk'⟩ : ∃ k', k' = { w.holding k a with refs := k.refs + Fs.iref id } := ⟨_, rfl⟩
  rw [← hk', interpreter]
  obtain ⟨e, -, hrun⟩ | ⟨e_uid, e_gid, b, -, hrun⟩ := w.restartInterp_run id k'
  · rw [run_bind hrun]
    dsimp only
    rw [hk', execError2_run ha]
    exact rfl
  · rw [run_bind hrun]
    dsimp only
    rw [run_bind (brelse_run b k')]
    cases checkHeader (w.inode id) (execHeader (w.data b.1 b.2)) with
    | error s =>
      dsimp only
      rw [hk', execError2_run ha]
      exact rfl
    | ok _ =>
      refine noReturn_restores ?_
      rw [hk']
      exact h _ _ _

/-- A script whose first line is `l`. -/
theorem script_restores (h : k.fs = .user) : Restores k (w.script l filename argv envp k) ↔
    Room (w.world k.task) (scriptCalls l filename (strings argv) (strings envp)) ∧
      (Fits w.granted (scriptCalls l filename (strings argv) (strings envp)) →
        ¬ w.Trips k.task l.interp .kernel) := by
  have hcalls : (scriptCopies l filename argv envp).map Copy.strings =
      scriptCalls l filename (strings argv) (strings envp) := by
    rw [scriptCopies, scriptCalls]
    cases l.iArg with
    | none => rfl
    | some iArg => rfl
  have hafter := copies_after w.granted (scriptCopies l filename argv envp)
  rw [hcalls] at hafter
  have hcopy := copyScript_run (w := w) h l filename argv envp
  rw [script]
  obtain ⟨hover, hgr, hx⟩ | ⟨hroom, a, hx, hfs, hcase⟩ := hafter
  · rw [hx] at hcopy
    rw [run_bind_error hcopy]
    exact iff_of_false (fun hwild => hwild rfl) fun hall => hall.1 ⟨hover, hgr⟩
  rw [hx] at hcopy
  rw [run_bind hcopy]
  have ha : a.fs = k.fs := hfs.trans h.symm
  obtain ⟨hp, hfits⟩ | ⟨hfits, hst⟩ := hcase
  · dsimp only
    rw [if_pos hp, execError1_run ha]
    exact iff_of_true rfl ⟨hroom, fun hall => absurd hall hfits⟩
  have hp : a.p ≠ 0 := by
    have hlt := hfits.1
    have hadd := hst.p_add
    rw [size] at hlt
    omega
  dsimp only
  rw [if_neg hp]
  have hnamei := namei_run (w := w) l.interp { w.holding k a with fs := .kernel }
  have hiff : Room (w.world k.task) (scriptCalls l filename (strings argv) (strings envp)) ∧
      (Fits w.granted (scriptCalls l filename (strings argv) (strings envp)) →
        ¬ w.Trips k.task l.interp .kernel) ↔ w.finds k.task l.interp .kernel ≠ .error .null := by
    rw [Ne, finds_null]
    exact ⟨fun hall => hall.2 hfits, fun hno => ⟨hroom, fun _ => hno⟩⟩
  rw [hiff]
  -- `fs` points to the kernel, and back
  have hget : (get : K Kernel) (w.holding k a) = .ok (w.holding k a, w.holding k a) := rfl
  have hset : setFs .kernel (w.holding k a) = .ok ((), { w.holding k a with fs := .kernel }) := rfl
  rw [run_bind hget, run_bind hset]
  change w.namei l.interp _ = ((w.finds k.task l.interp .kernel).mapError crash).map _ at hnamei
  cases hfinds : w.finds k.task l.interp .kernel with
  | error c =>
    rw [hfinds] at hnamei
    rw [run_bind_error hnamei]
    cases c with
    | null => exact iff_of_false (fun hwild => hwild rfl) fun hno => hno rfl
    | panic => exact iff_of_true (fun hwild => by cases hwild) fun hnull => by cases hnull
  | ok id =>
    rw [hfinds] at hnamei
    rw [run_bind hnamei]
    refine iff_of_true ?_ fun hnull => by cases hnull
    cases id with
    | none =>
      change Restores k (w.execError1 a ENOENT { w.holding k a with refs := k.refs + 0 })
      rw [add_zero]
      change Restores k (w.execError1 a ENOENT (w.holding k a))
      rw [execError1_run ha]
      exact rfl
    | some id =>
      refine interpreter_restores ha fun e_uid e_gid ex => ?_
      have hst' : Stored (w.world k.task).getFreePage a _ := hst
      obtain ⟨image, himage, -⟩ := finish_script hst'
      exact ⟨image, himage⟩

/-- A file that is no script. -/
theorem program_restores (h : k.fs = .user) (e_uid e_gid : ℕ) (ex : Header) :
    Restores k (w.program id e_uid e_gid ex argv envp
      { k with refs := k.refs + Fs.iref id }) ↔
    (checkHeader (w.inode id) ex = .ok () →
      Room (w.world k.task) [strings argv, strings envp]) := by
  rw [program]
  cases checkHeader (w.inode id) ex with
  | error s =>
    dsimp only
    have hrun := execError2_run (w := w) (a := noArgs) h.symm id ENOEXEC
    rw [holding_noArgs h] at hrun
    rw [hrun]
    exact iff_of_true rfl nofun
  | ok _ =>
    dsimp only
    rw [← bind_assoc]
    have hcopy := copyPlain_run (w := w) (k := { k with refs := k.refs + Fs.iref id }) h argv envp
    obtain ⟨hover, hgr, hx⟩ | ⟨hroom, a, hx, hfs, hcase⟩ :=
      copies_after w.granted (plainCopies argv envp)
    · rw [hx] at hcopy
      rw [run_bind_error hcopy]
      exact iff_of_false (fun hwild => hwild rfl) fun hall => hall rfl ⟨hover, hgr⟩
    rw [hx] at hcopy
    rw [run_bind hcopy]
    refine iff_of_true ?_ fun _ => hroom
    have ha : a.fs = k.fs := hfs.trans h.symm
    obtain ⟨hp, hfits⟩ | ⟨hfits, hst⟩ := hcase
    · rw [if_pos hp]
      have hrun := execError2_run (w := w) ha id ENOMEM
      exact hrun ▸ rfl
    · have hp : a.p ≠ 0 := by
        have hlt := hfits.1
        have hadd := hst.p_add
        rw [size] at hlt
        omega
      rw [if_neg hp]
      refine noReturn_restores ?_
      rw [plainCopies, List.map_cons, List.map_singleton, List.flatten_cons,
        List.flatten_singleton, ← List.append_nil (_ ++ _)] at hst
      obtain ⟨image, himage, -⟩ := finish_spec hst
      exact ⟨image, himage⟩

/-- What is asked of the strings: they do not run out of the pages before a page is missing, and
the interpreter is looked up without a trip. -/
def Copies (w : Machine) (k : Kernel) (filename : CStr) (args env : List CStr) : Prop :=
  (Program (w.world k.task) k.task filename → Room (w.world k.task) [args, env]) ∧
    ∀ l, Script (w.world k.task) k.task filename l →
      Room (w.world k.task) (scriptCalls l filename args env) ∧
        (Fits w.granted (scriptCalls l filename args env) → ¬ w.Trips k.task l.interp .kernel)

/-- A call that does not leave its own memory: moreover the name has room in `filename1`, and is
looked up without a trip. -/
def Careful (w : Machine) (k : Kernel) (filename : CStr) (args env : List CStr) : Prop :=
  filename.bytes.length + 1 < 128 ∧ (k.regs.cs &&& 0xffff = 0xf →
    ¬ w.Trips k.task filename .user ∧ w.Copies k filename args env)

end Machine

/-- What can be said of the file that `namei` has found. -/
theorem found_iff {w : Machine} {k : Kernel} {filename : CStr} {id : InodeId}
    {x : Except Stop (ℕ × ℕ × Bytes)}
    (hfinds : w.finds k.task filename .user = .ok (some id))
    (hrestart : restartInterp (w.world k.task) k.task (w.inode id) = x) :
    (Program (w.world k.task) k.task filename ↔ ∃ e_uid e_gid bh, x = .ok (e_uid, e_gid, bh) ∧
      checkHeader (w.inode id) (execHeader bh) = .ok ()) ∧
    ∀ l, Script (w.world k.task) k.task filename l ↔ ∃ e_uid e_gid bh,
      x = .ok (e_uid, e_gid, bh) ∧ isScript bh ∧ scriptLine bh = some l := by
  have hnamei : (w.world k.task).namei filename = some (w.inode id) := by
    rw [Machine.world]
    dsimp only
    rw [hfinds]
  subst hrestart
  refine ⟨⟨?_, ?_⟩, fun l => ⟨?_, ?_⟩⟩
  · rintro ⟨inode, e_uid, e_gid, bh, hinode, hrestart, hcheck⟩
    obtain rfl := Option.some.inj (hnamei.symm.trans hinode)
    exact ⟨e_uid, e_gid, bh, hrestart, hcheck⟩
  · rintro ⟨e_uid, e_gid, bh, hrestart, hcheck⟩
    exact ⟨_, e_uid, e_gid, bh, hnamei, hrestart, hcheck⟩
  · rintro ⟨inode, e_uid, e_gid, bh, hinode, hrestart, hscript⟩
    obtain rfl := Option.some.inj (hnamei.symm.trans hinode)
    exact ⟨e_uid, e_gid, bh, hrestart, hscript⟩
  · rintro ⟨e_uid, e_gid, bh, hrestart, hscript⟩
    exact ⟨_, e_uid, e_gid, bh, hnamei, hrestart, hscript⟩

/-- Where no file is found, nothing is copied. -/
theorem copies_of_not_found {w : Machine} {k : Kernel} {filename : CStr} {args env : List CStr}
    (hno : ∀ id, w.finds k.task filename .user ≠ .ok (some id)) : w.Copies k filename args env := by
  have hnone : (w.world k.task).namei filename = none := by
    rw [Machine.world]
    dsimp only
    split
    case h_1 id hid => exact absurd hid (hno id)
    case h_2 => rfl
  constructor
  · rintro ⟨inode, _, _, _, hinode, -⟩
    cases hnone.symm.trans hinode
  · rintro l ⟨inode, _, _, _, hinode, -⟩
    cases hnone.symm.trans hinode

/-- The file that has been found. -/
theorem execFile_restores {w : Machine} {k : Kernel} {filename : CStr} {id : InodeId}
    (hfs : k.fs = .user) (hfinds : w.finds k.task filename .user = .ok (some id))
    (argv envp : Option (List CStr)) :
    Restores k (w.execFile id filename argv envp { k with refs := k.refs + Fs.iref id }) ↔
      w.Copies k filename (strings argv) (strings envp) := by
  obtain ⟨k', hk'⟩ : ∃ k', k' = { k with refs := k.refs + Fs.iref id } := ⟨_, rfl⟩
  have htask : k'.task = k.task := by rw [hk']
  rw [← hk', Machine.execFile, Machine.Copies]
  obtain ⟨e, hrestart, hrun⟩ | ⟨e_uid, e_gid, b, hrestart, hrun⟩ := w.restartInterp_run id k'
  · have hput := Machine.execError2_run (w := w) (a := noArgs) hfs.symm id e
    rw [Machine.holding_noArgs hfs, ← hk'] at hput
    rw [run_bind hrun]
    dsimp only
    rw [hput]
    rw [htask] at hrestart
    obtain ⟨hprogram, hscript⟩ := found_iff hfinds hrestart
    refine iff_of_true rfl ⟨fun h => ?_, fun l h => ?_⟩
    · obtain ⟨_, _, _, hbad, -⟩ := hprogram.mp h
      cases hbad
    · obtain ⟨_, _, _, hbad, -⟩ := (hscript l).mp h
      cases hbad
  rw [htask] at hrestart
  obtain ⟨hprogram, hscript⟩ := found_iff hfinds hrestart
  rw [run_bind hrun]
  dsimp only
  rw [run_bind (Machine.brelse_run b k')]
  by_cases hsh : isScript (w.data b.1 b.2)
  · -- a script, which is no program
    rw [if_pos hsh, hk', run_bind (Machine.iput_run id k)]
    have hno : ¬ Program (w.world k.task) k.task filename := fun h => by
      obtain ⟨_, _, bh, hbh, hcheck⟩ := hprogram.mp h
      cases hbh
      exact checkHeader_of_isScript hsh hcheck
    rw [and_iff_right fun h => absurd h hno]
    cases hline : scriptLine (w.data b.1 b.2) with
    | none =>
      have hrun := Machine.execError1_run (w := w) (a := noArgs) hfs.symm ENOEXEC
      rw [Machine.holding_noArgs hfs] at hrun
      dsimp only
      rw [hrun]
      refine iff_of_true rfl fun l h => ?_
      obtain ⟨_, _, _, hbh, -, hl⟩ := (hscript l).mp h
      cases hbh
      cases hline.symm.trans hl
    | some l =>
      dsimp only
      rw [Machine.script_restores hfs]
      refine ⟨fun h l' hl' => ?_, fun h => h l ((hscript l).mpr ⟨_, _, _, rfl, hsh, hline⟩)⟩
      obtain ⟨_, _, _, hbh, -, hl⟩ := (hscript l').mp hl'
      cases hbh
      obtain rfl := Option.some.inj (hline.symm.trans hl)
      exact h
  · rw [if_neg hsh, hk', Machine.program_restores hfs]
    have hno : ∀ l, ¬ Script (w.world k.task) k.task filename l := fun l h => by
      obtain ⟨_, _, _, hbh, hbad, -⟩ := (hscript l).mp h
      cases hbh
      exact hsh hbad
    refine ⟨fun h => ⟨fun hp => h ?_, fun l hl => absurd hl (hno l)⟩, fun h hcheck =>
      h.1 (hprogram.mpr ⟨_, _, _, rfl, hcheck⟩)⟩
    obtain ⟨_, _, _, hbh, hcheck⟩ := hprogram.mp hp
    cases hbh
    exact hcheck

/-- The NUL of a long name is written behind `filename1`. -/
theorem doExecve_long {w : Machine} {k : Kernel} {filename : CStr}
    (hname : ¬ filename.bytes.length + 1 < 128) (argv envp : Option (List CStr)) :
    w.doExecve filename argv envp k = .error .wild := by
  have hlift : lift (copyName filename) k = .error .wild := by
    rw [copyName, if_neg hname]
    rfl
  exact run_bind_error hlift

/-- **A failed `execve`**: a call that returns an error leaves the caller, all counts and `fs` as
they were, and no call writes outside of its own memory, if and only if it is careful. -/
theorem failed_exec (w : Machine) (k : Kernel) (filename : CStr) (argv envp : Option (List CStr)) :
    Restores k.enter (w.doExecve filename argv envp k.enter) ↔
      w.Careful k.enter filename (strings argv) (strings envp) := by
  have hfs : k.enter.fs = .user := rfl
  generalize k.enter = k at hfs ⊢
  rw [Machine.Careful]
  by_cases hname : filename.bytes.length + 1 < 128
  swap
  · rw [doExecve_long hname]
    exact iff_of_false (fun hwild => hwild rfl) fun hall => hname hall.1
  rw [Machine.doExecve]
  have hlift : lift (copyName filename) k = .ok ((), k) := by
    rw [copyName, if_pos hname]
    rfl
  have hget : (get : K Kernel) k = .ok (k, k) := rfl
  rw [run_bind hlift, run_bind hget, and_iff_right hname]
  by_cases hcs : k.regs.cs &&& 0xffff = 0xf
  swap
  · rw [if_pos hcs]
    exact iff_of_true (fun hwild => by cases hwild) fun hall => absurd hall hcs
  rw [if_neg (not_not.mpr hcs), forall_prop_of_true hcs, ← Machine.finds_null]
  have hnamei := Machine.namei_run (w := w) filename k
  have hseg : w.finds k.task filename k.fs = w.finds k.task filename .user := by rw [hfs]
  rw [hseg] at hnamei
  cases hfinds : w.finds k.task filename .user with
  | error c =>
    rw [hfinds] at hnamei
    rw [run_bind_error hnamei]
    cases c with
    | null => exact iff_of_false (fun hwild => hwild rfl) fun hall => hall.1 rfl
    | panic =>
      refine iff_of_true (fun hwild => by cases hwild)
        ⟨fun hnull => (by cases hnull), copies_of_not_found fun id hid => ?_⟩
      cases hfinds.symm.trans hid
  | ok found =>
    rw [hfinds] at hnamei
    rw [run_bind hnamei]
    cases found with
    | none =>
      refine iff_of_true ?_ ⟨fun hnull => (by cases hnull), copies_of_not_found fun id hid => ?_⟩
      · change Restores k (.ok (.error ENOENT, { k with refs := k.refs + 0 }))
        rw [add_zero]
        exact rfl
      · cases hfinds.symm.trans hid
    | some id =>
      have hfound : (.ok (some id) : Except Crash (Option InodeId)) ≠ .error .null := by
        intro hnull
        cases hnull
      rw [and_iff_right hfound]
      exact execFile_restores hfs hfinds argv envp

/-- A name of 127 letters. -/
def longName : CStr :=
  ⟨List.replicate 127 97, fun h => absurd (List.eq_of_mem_replicate h) (by decide)⟩

/-- Its NUL is written behind `filename1`. -/
theorem failed_exec_long : ¬ ∀ (w : Machine) (k : Kernel) (filename : CStr)
    (argv envp : Option (List CStr)),
    Restores k.enter (w.doExecve filename argv envp k.enter) := by
  intro h
  obtain ⟨w⟩ : Nonempty Machine :=
    ⟨Fs.tripDisks, (1, 1), (1, 1), fun _ _ _ => 0, fun _ => none, fun _ => 0⟩
  obtain ⟨k⟩ : Nonempty Kernel := ⟨0, 0, .user, superuser, fun _ => 0, ⟨0, 0xf, 0⟩⟩
  have hlen : longName.bytes.length = 127 := List.length_replicate
  have hlong : w.doExecve longName none none k.enter = .error .wild :=
    doExecve_long (by omega) none none
  generalize longName = filename at hlong
  have hrestores := h w k filename none none
  rw [hlong] at hrestores
  exact hrestores rfl

end Exec
