/-
The sizes in the header of an executable (`do_execve` of fs/exec.c), and the pages that
`do_no_page` of mm/memory.c then fills from it.

* `doNoPage` — what a missing page is filled from;
* `sysBrk` — the end of the data segment is moved;
* `Laid` — the sizes that a task has after an `execve`, and all its pages, are as the header says;
* `header_arithmetic` — they are, exactly if the sums of the header do not wrap;
* `header_wraps` — a program whose sums do.

Design notes: `do_no_page` up to the choice of the file; pages that have been swapped out, and
the sharing of pages with another task that runs the same file, are in `Paging.lean`.
-/
import Linux012.Exec
import Linux012.Runs

namespace Exec

/-- `LIBRARY_OFFSET` -/
def LIBRARY_OFFSET : ℕ := TASK_SIZE - LIBRARY_SIZE

/-- What a missing page is filled from: a file, from a block on, or nothing. -/
inductive Filling where
  | library (inode : Inode) (block : ℕ)
  | executable (inode : Inode) (block : ℕ)
  | empty

/-- `do_no_page` for a page of the task in slot `nr` that is not on the swap device: the address of
the page in the process, and what fills it, unless the process is killed. -/
def doNoPage (t : Task) (library : Option Inode) (nr address : ℕ) : Option (ℕ × Filling) :=
  let startCode := nr * TASK_SIZE
  if TASK_SIZE < sub32 address startCode then none
  else
    let tmp := sub32 (address - address % PAGE_SIZE) startCode
    some (tmp,
      if LIBRARY_OFFSET ≤ tmp then
        library.elim .empty fun inode => .library inode (1 + (tmp - LIBRARY_OFFSET) / BLOCK_SIZE)
      else if tmp < t.endData then
        t.executable.elim .empty fun inode => .executable inode (1 + tmp / BLOCK_SIZE)
      else .empty)

/-- `sys_brk`, without its result. -/
def sysBrk (t : Task) (endDataSeg : ℕ) : Task :=
  if t.endCode ≤ endDataSeg ∧ endDataSeg < sub32 t.startStack 16384 then
    { t with brk := endDataSeg }
  else t

/-- The largest sum of the sizes. -/
def sizeLimit : ℕ := 0x3000000

/-- The sizes of a task that runs `inode`, with the header `ex`; and the pages that are filled from
its file, whatever it asks of `sys_brk`. -/
structure Laid (inode : Inode) (ex : Header) (t : Task) : Prop where
  code : t.endCode ≤ t.endData
  data : t.endData ≤ t.brk
  limit : t.brk ≤ sizeLimit
  brk : t.brk = ex.text + ex.data + ex.bss
  file : ex.txtoff + ex.text + ex.data ≤ inode.size
  pages : ∀ (segs : List ℕ) library nr address tmp inode block,
    doNoPage (segs.foldl sysBrk t) library nr address = some (tmp, .executable inode block) →
      tmp + PAGE_SIZE ≤ sizeLimit

/-- The sizes of text, data and bss have a sum of 32 bits; and so have those that are looked for in
the file, or the file holds text and data anyhow. -/
def NoWrap (inode : Inode) (ex : Header) : Prop :=
  ex.text + ex.data + ex.bss < 2 ^ 32 ∧
    (ex.text + ex.data + ex.syms + ex.txtoff < 2 ^ 32 ∨ ex.txtoff + ex.text + ex.data ≤ inode.size)

section

variable {w : World} {t : Task} {r : Regs} {filename : CStr} {argv envp : Option (List CStr)}
  {inode : Inode} {e_uid e_gid : ℕ} {bh : Bytes} {a : Args} {ex : Header} {image : Image}
  {argc envc : ℤ}

/-- `sys_brk` moves nothing else. -/
theorem foldl_sysBrk (t : Task) (segs : List ℕ) : (segs.foldl sysBrk t).endData = t.endData := by
  induction segs generalizing t with
  | nil => rfl
  | cons seg segs ih =>
    rw [List.foldl_cons, ih, sysBrk]
    split <;> rfl

theorem sub32_mod {b c : ℕ} : sub32 (c - c % PAGE_SIZE) (b * TASK_SIZE) % PAGE_SIZE = 0 := by
  rw [sub32, PAGE_SIZE, TASK_SIZE]
  omega

/-- A page that is filled from the executable starts below the end of the data. -/
theorem doNoPage_executable {library : Option Inode} {nr address tmp block : ℕ}
    (h : doNoPage t library nr address = some (tmp, .executable inode block)) :
    tmp % PAGE_SIZE = 0 ∧ tmp < t.endData := by
  rw [doNoPage] at h
  dsimp only at h
  split at h
  case isTrue => cases h
  case isFalse =>
    obtain ⟨htmp, hfill⟩ := Prod.mk.inj (Option.some.inj h)
    subst htmp
    refine ⟨sub32_mod, ?_⟩
    split at hfill
    case isTrue => cases library <;> cases hfill
    case isFalse =>
      split at hfill
      case isTrue hlt => exact hlt
      case isFalse => cases hfill

/-- What `do_execve` sets of the sizes. -/
theorem finish_sizes (h : finish w t r inode e_uid e_gid ex a argc envc = .ok image) :
    image.task.executable = some inode ∧ image.task.endCode = ex.text ∧
      image.task.endData = (ex.data + ex.text) % 2 ^ 32 ∧
      image.task.brk = (ex.bss + (ex.data + ex.text) % 2 ^ 32) % 2 ^ 32 := by
  rw [finish] at h
  dsimp only at h
  split at h
  · cases h
  · obtain rfl := Except.ok.inj h
    exact ⟨rfl, rfl, rfl, rfl⟩

/-- A call that succeeds has checked the header of the file that it runs. -/
theorem doExecve_ok (h : doExecve w t r filename argv envp = .ok image) : ∃ inode bh,
    image.task.executable = some inode ∧ w.bread inode.dev inode.zone = some bh ∧
      checkHeader inode (execHeader bh) = .ok () ∧
      image.task.endCode = (execHeader bh).text ∧
      image.task.endData = ((execHeader bh).data + (execHeader bh).text) % 2 ^ 32 ∧
      image.task.brk = ((execHeader bh).bss +
        ((execHeader bh).data + (execHeader bh).text) % 2 ^ 32) % 2 ^ 32 := by
  rw [doExecve] at h
  obtain ⟨-, -, h⟩ := Except.ok_of_bind h
  split at h
  · cases h
  obtain ⟨inode, -, h⟩ := Except.ok_of_bind h
  obtain ⟨⟨e_uid, e_gid, bh⟩, hfile, h⟩ := Except.ok_of_bind h
  dsimp only at h
  split at h
  · -- a script: the header is that of the interpreter
    obtain ⟨l, -, h⟩ := Except.ok_of_bind h
    obtain ⟨⟨a, argc⟩, -, h⟩ := Except.ok_of_bind h
    obtain ⟨interp, -, h⟩ := Except.ok_of_bind h
    obtain ⟨⟨e_uid', e_gid', bh'⟩, hinterp, h⟩ := Except.ok_of_bind h
    obtain ⟨⟨⟩, hcheck, h⟩ := Except.ok_of_bind h
    obtain ⟨hinode, hsizes⟩ := finish_sizes h
    exact ⟨interp, bh', hinode, restartInterp_bread hinterp, hcheck, hsizes⟩
  · obtain ⟨⟨⟩, hcheck, h⟩ := Except.ok_of_bind h
    obtain ⟨⟨a, argc⟩, -, h⟩ := Except.ok_of_bind h
    obtain ⟨hinode, hsizes⟩ := finish_sizes h
    exact ⟨inode, bh, hinode, restartInterp_bread hfile, hcheck, hsizes⟩

/-- What `do_execve` has checked. -/
theorem checkHeader_ok (h : checkHeader inode ex = .ok ()) :
    ex.txtoff = BLOCK_SIZE ∧ (ex.text + ex.data + ex.bss) % 2 ^ 32 ≤ sizeLimit ∧
      (ex.text + ex.data + ex.syms + ex.txtoff) % 2 ^ 32 ≤ inode.size := by
  rw [checkHeader] at h
  split at h
  case isTrue => cases h
  case isFalse hsums =>
    split at h
    case isTrue => cases h
    case isFalse hoff =>
      push Not at hsums
      exact ⟨not_not.mp hoff, hsums.2.2.2.1, hsums.2.2.2.2⟩

end

/-- **The sizes of a program**: when `do_execve` succeeds, the program lies below the space for
arguments and its text and data in its file, and its pages too, if and only if the sums of its
header do not wrap. -/
theorem header_arithmetic {w : World} {t : Task} {r : Regs} {filename : CStr}
    {argv envp : Option (List CStr)} {image : Image}
    (h : doExecve w t r filename argv envp = .ok image) : ∃ inode bh,
      image.task.executable = some inode ∧ w.bread inode.dev inode.zone = some bh ∧
      (Laid inode (execHeader bh) image.task ↔ NoWrap inode (execHeader bh)) := by
  obtain ⟨inode, bh, hinode, hbread, hcheck, hcode, hdata, hbrk⟩ := doExecve_ok h
  obtain ⟨hoff, hlimit, hfile⟩ := checkHeader_ok hcheck
  refine ⟨inode, bh, hinode, hbread, ⟨fun hlaid => ?_, fun hsum => ?_⟩⟩
  · -- the end of the data is a number of 32 bits
    have hsum := hlaid.brk
    rw [hbrk] at hsum
    exact ⟨by omega, .inr hlaid.file⟩
  · have hend : image.task.endData = (execHeader bh).data + (execHeader bh).text := by
      rw [hdata]
      have hlt := hsum.1
      omega
    have hbrk' : image.task.brk =
        (execHeader bh).text + (execHeader bh).data + (execHeader bh).bss := by
      rw [hbrk]
      have hlt := hsum.1
      omega
    have hle : image.task.brk ≤ sizeLimit := by
      rw [hbrk']
      rwa [Nat.mod_eq_of_lt hsum.1] at hlimit
    refine ⟨by omega, by omega, hle, hbrk', ?_, ?_⟩
    · rcases hsum.2 with hlt | hin
      · rw [Nat.mod_eq_of_lt hlt] at hfile
        omega
      · exact hin
    · -- a page starts at a multiple of its size
      intro segs library nr address tmp inode' block hpage
      obtain ⟨hstart, hbelow⟩ := doNoPage_executable hpage
      rw [foldl_sysBrk] at hbelow
      rw [sizeLimit] at hle ⊢
      rw [PAGE_SIZE] at hstart ⊢
      omega

/-- A program of the sizes of `text` and `data`, without anything else, and in a file of one
block. -/
def oneProgram (text data : List UInt8) : World where
  namei _ := some ⟨0o100755, 0, 0, 1024, 0, 1⟩
  bread _ _ := some fun i => ([0x0b, 0x01, 0, 0] ++ text ++ data).getD i 0
  getFreePage _ := true
  rest _ := 0

/-- The sizes that a call leaves, if it succeeds. -/
def sizes : Except Stop Image → Option (ℕ × ℕ × ℕ)
  | .ok image => some (image.task.endCode, image.task.endData, image.task.brk)
  | .error _ => none

theorem sizes_eq_some {x : Except Stop Image} {s : ℕ × ℕ × ℕ} (h : sizes x = some s) :
    ∃ image, x = .ok image ∧ (image.task.endCode, image.task.endData, image.task.brk) = s := by
  cases x with
  | error s => cases h
  | ok image => exact ⟨image, rfl, Option.some.inj h⟩

/-- A program of no size. -/
theorem header_arithmetic_empty : ∃ image, doExecve (oneProgram [] []) superuser ⟨0, 0xf, 0⟩
    (.ofBytes "/s".toUTF8.toList) none none = .ok image ∧ ∃ inode bh,
      image.task.executable = some inode ∧
        (oneProgram [] []).bread inode.dev inode.zone = some bh ∧
        (Laid inode (execHeader bh) image.task ↔ NoWrap inode (execHeader bh)) := by
  have hsizes : sizes (doExecve (oneProgram [] []) superuser ⟨0, 0xf, 0⟩
      (.ofBytes "/s".toUTF8.toList) none none) = some (0, 0, 0) := by decide +kernel
  obtain ⟨image, hrun, -⟩ := sizes_eq_some hsizes
  exact ⟨image, hrun, header_arithmetic hrun⟩

/-- Text and data of 2 gigabytes each: the program is run, and its data end before its text. -/
theorem header_wraps : ∃ image, doExecve (oneProgram [0, 0, 0, 0x80] [0, 0, 0, 0x80]) superuser
    ⟨0, 0xf, 0⟩ (.ofBytes "/s".toUTF8.toList) none none = .ok image ∧
      image.task.endData < image.task.endCode := by
  have hsizes : sizes (doExecve (oneProgram [0, 0, 0, 0x80] [0, 0, 0, 0x80]) superuser
      ⟨0, 0xf, 0⟩ (.ofBytes "/s".toUTF8.toList) none none) = some (0x80000000, 0, 0) := by
    decide +kernel
  obtain ⟨image, hrun, heq⟩ := sizes_eq_some hsizes
  refine ⟨image, hrun, ?_⟩
  have hcode : image.task.endCode = 0x80000000 := congrArg (fun s => s.1) heq
  have hend : image.task.endData = 0 := congrArg (fun s => s.2.1) heq
  rw [hcode, hend]
  decide

end Exec
