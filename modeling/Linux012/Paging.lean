/-
What a process reads is what it wrote (mm/memory.c, mm/swap.c, with the calls of
fork, exit and exec into them).

* `Kernel` — the memory manager, the tasks, and what each page of each process
  is meant to hold;
* `Act`, `Kernel.step`, `paging` — page faults, `write_verify`, `swap_out`, fork,
  exit, exec and uselib, in any order;
* `Sane` — the address spaces hold what they are meant to;
* `read_last_written` — in every run in which no page that `un_wp_page` has
  copied is dropped and loaded again, a process reads what it wrote last;
* `read_last_written_lost` — a run in which `write_verify` copies a dirty page,
  `swap_out` drops the copy, and the next read returns old data.

Design notes: `content` is what was written last, or inherited at fork, or loaded
for the first time; `copied` marks a page that `un_wp_page` has copied from a
dirty page or from the kernel, until the next store.  The steps compute neither
from the other.
-/
import Linux012.FrameCounts
import Linux012.Coherence

namespace Mm

open Function (update)

/-- The memory manager, the task table, and what the pages are meant to hold. -/
structure Kernel where
  st : State
  tasks : ℕ → Option Task
  content : ℕ → ℕ → Page
  copied : ℕ → ℕ → Bool

/-! ### Executables -/

/-- Byte `k` of a block. -/
def byteAt (b : Block) (k : ℕ) : ℕ := if h : k < 1024 then (b ⟨k, h⟩).toNat else 0

/-- The 32-bit word at byte `k` of a block. -/
def longAt (b : Block) (k : ℕ) : ℕ :=
  byteAt b k + 2 ^ 8 * byteAt b (k + 1) + 2 ^ 16 * byteAt b (k + 2) + 2 ^ 24 * byteAt b (k + 3)

/-- The sizes in a `struct exec`. -/
structure Header where
  text : ℕ
  data : ℕ
  bss : ℕ

/-- The header that `do_execve` reads from the first block of a file. -/
def header (files : Files) (inode : ℕ) : Option Header :=
  (files inode 0).map fun b => ⟨longAt b 4, longAt b 8, longAt b 12⟩

namespace Header

/-- The limit that `do_execve` puts on the sizes, in bytes. -/
def maxSize : ℕ := 0x3000000

/-- `ex.a_text + ex.a_data + ex.a_bss > 0x3000000` fails, in 32 bits. -/
def Accepted (h : Header) : Prop := (h.text + h.data + h.bss) % 2 ^ 32 ≤ maxSize

instance (h : Header) : Decidable h.Accepted := inferInstanceAs (Decidable (_ ≤ _))

/-- The `end_data` of a task that executes the file. -/
def endData (h : Header) : ℕ := (h.text + h.data) % 2 ^ 32

end Header

/-! ### The steps -/

/-- A step of the kernel or of a process. -/
inductive Act where
  /-- `copy_mem` for a new task `child` -/
  | fork (n child : ℕ)
  | exit (n : ℕ)
  | exec (n inode : ℕ)
  | uselib (n : ℕ) (library : Option ℕ)
  /-- `change_ldt` maps a page of arguments -/
  | argPage (n tmp p : ℕ)
  /-- `do_no_page` for page `tmp` of task `n` -/
  | noPage (n tmp iCount : ℕ)
  /-- `do_wp_page` for page `tmp` of task `n` -/
  | wpPage (n tmp : ℕ)
  | writeVerify (address : ℕ)
  /-- task `n` writes byte `k` of its page `tmp` -/
  | store (n tmp : ℕ) (k : Fin 4096) (byte : UInt8)
  | swapOut
  | getFreePage
  | freePage (p : ℕ)
  /-- the kernel writes to a frame it holds -/
  | fill (p : ℕ) (c : Page)
  | initSwapping (bits : ℕ → Bool)

/-- The entry of page `tmp` of task `n`. -/
def Kernel.pte (k : Kernel) (n tmp : ℕ) : Pte := k.st.mem.entry (pageDir n tmp) (tmp % 1024)

/-- The entry stays within the segment of task `n`, which is not task 0. -/
def Kernel.Within (k : Kernel) (n tmp : ℕ) : Prop :=
  1 ≤ n ∧ ∃ t, k.tasks n = some t ∧ tmp < t.limit

/-- When a step is made: the processor raises a page fault for an entry that is
not present and for a write to a read-only one, within the limit of the segment;
the task slot that fork takes is free. -/
def Act.Called (files : Files) (k : Kernel) : Act → Prop
  | .fork n child => n ≠ child ∧ (k.tasks n).isSome ∧ 1 ≤ child ∧ child < 64 ∧
      k.tasks child = none
  | .exit n => 1 ≤ n ∧ (k.tasks n).isSome
  | .exec n inode => 1 ≤ n ∧ (k.tasks n).isSome ∧
      ∃ h, header files inode = some h ∧ h.Accepted
  | .uselib n _ => 1 ≤ n ∧ ∃ t, k.tasks n = some t ∧ t.limit = taskSize
  | .argPage n tmp p => k.Within n tmp ∧ k.st.held p ≠ 0 ∧ (k.pte n tmp).frame = none
  | .noPage n tmp _ => k.Within n tmp ∧ (k.pte n tmp).frame = none
  | .wpPage n tmp => k.Within n tmp ∧ ∃ p dirty, k.pte n tmp = .page p false dirty
  | .writeVerify address => address < 2 ^ 20
  | .store n tmp _ _ => k.Within n tmp
  | .swapOut | .getFreePage => True
  | .freePage p => k.st.held p ≠ 0 ∨ p < lowMem
  | .fill p _ => k.st.held p ≠ 0
  | .initSwapping _ => k.st.mem.swapBitmap = none

namespace Kernel

/-- Change what is kept for the pages of task `n`. -/
def inTask {α : Type} (n : ℕ) (g f : ℕ → ℕ → α) : ℕ → ℕ → α :=
  fun d i => if d / 16 = n then g (d % 16) i else f d i

/-- Change what is kept for one page. -/
def atPage {α : Type} (d i : ℕ) (c : α) (f : ℕ → ℕ → α) : ℕ → ℕ → α :=
  fun d' i' => if d' = d ∧ i' = i then c else f d' i'

/-- The kernel with another memory. -/
def withMem (k : Kernel) (m : Mem) : Kernel := { k with st := ⟨m, k.st.held⟩ }

/-- `un_wp_page` would copy the page of entry `(d, i)` from a dirty page or from
the kernel. -/
def wpCopies (k : Kernel) (d i : ℕ) : Prop :=
  ∃ old dirty, k.st.mem.entry d i = .page old false dirty ∧ UnWpCopies k.st.mem old ∧
    (dirty = true ∨ old < lowMem)

instance (k : Kernel) (d i : ℕ) : Decidable (k.wpCopies d i) :=
  match h : k.st.mem.entry d i with
  | .zero | .swap _ | .page _ true _ => .isFalse (by rintro ⟨old, dirty, he, -⟩; simp [h] at he)
  | .page old false dirty =>
    decidable_of_iff (¬ (lowMem ≤ old ∧ k.st.mem.memMap (mapNr old) = 1) ∧
        (dirty = true ∨ old < lowMem)) <| by
      constructor
      · exact fun hc => ⟨old, dirty, h, hc⟩
      · rintro ⟨old', dirty', he, hc⟩
        obtain ⟨rfl, rfl⟩ : old = old' ∧ dirty = dirty' := by simpa [h] using he
        exact hc

/-- The kernel after `un_wp_page` on entry `(d, i)`. -/
def afterUnWp (k : Kernel) (d i : ℕ) (r : Ended) (m : Mem) : Kernel :=
  { k.withMem m with
    copied := if r = .returned ∧ k.wpCopies d i then atPage d i true k.copied else k.copied }

/-- What a page of task `n` that it has from the start holds. -/
def startPage (files : Files) (t : Task) (j i : ℕ) : Page := demandPage files t (j * 1024 + i)

/-- The pages of task 0 are those that `copy_page_tables` copies. -/
def Owns (n j i : ℕ) : Prop := 1 ≤ n ∨ j = 0 ∧ i < 160

instance (n j i : ℕ) : Decidable (Owns n j i) := inferInstanceAs (Decidable (_ ∨ _))

/-- The kernel after a step; there is none after a panic. -/
def step (files : Files) (k : Kernel) : Act → Option Kernel
  | .fork n child => (k.tasks n).bind fun t =>
      (copyPageTables k.st.mem (16 * n) (16 * child) t.limit).bind fun
        | (true, m) => some
          { st := ⟨m, k.st.held⟩
            tasks := update k.tasks child (some t)
            content := inTask child (fun j i => if Owns n j i then k.content (16 * n + j) i
              else startPage files t j i) k.content
            copied := inTask child (fun j i => if Owns n j i then k.copied (16 * n + j) i
              else false) k.copied }
        | (false, m) => (freePageTables m (16 * child) t.limit).map k.withMem
  | .exit n => (k.tasks n).bind fun t =>
      -- once for the code segment and once for the data segment
      (freePageTables k.st.mem (16 * n) t.limit).bind fun m =>
      (freePageTables m (16 * n) t.limit).map fun m =>
        { k.withMem m with tasks := update k.tasks n none }
  | .exec n inode => (k.tasks n).bind fun t => (header files inode).bind fun h =>
      (freePageTables k.st.mem (16 * n) t.limit).bind fun m =>
      (freePageTables m (16 * n) t.limit).map fun m =>
        let t' : Task := ⟨some inode, t.library, h.endData, taskSize⟩
        { st := ⟨m, k.st.held⟩
          tasks := update k.tasks n (some t')
          content := inTask n (startPage files t') k.content
          copied := inTask n (fun _ _ => false) k.copied }
  | .uselib n library => (k.tasks n).bind fun t =>
      (freePageTables k.st.mem (16 * n + 15) 1024).map fun m =>
        let t' : Task := { t with library := library }
        { st := ⟨m, k.st.held⟩
          tasks := update k.tasks n (some t')
          content := fun d i => if d = 16 * n + 15 then startPage files t' 15 i
            else k.content d i
          copied := fun d i => if d = 16 * n + 15 then false else k.copied d i }
  | .argPage n tmp p => (putDirtyPage k.st.mem p (pageAddress n tmp)).map fun (r, m) =>
      if r = 0 then k.withMem m
      else { k with
        st := ⟨m, update k.st.held p (k.st.held p - 1)⟩
        content := atPage (pageDir n tmp) (tmp % 1024) (k.st.mem.data p) k.content
        copied := atPage (pageDir n tmp) (tmp % 1024) false k.copied }
  | .noPage n tmp iCount => (k.tasks n).bind fun t =>
      (doNoPage files k.tasks iCount k.st.mem n t tmp).map fun (_, m) => k.withMem m
  | .wpPage n tmp => (doWpPage k.st.mem (pageAddress n tmp)).map fun (r, m) =>
      k.afterUnWp (pageDir n tmp) (tmp % 1024) r m
  | .writeVerify address => (writeVerify k.st.mem address).map fun (r, m) =>
      k.afterUnWp (dirOf address) (entOf address) r m
  | .store n tmp b byte => match k.pte n tmp with
    | .page p true _ => some
      { k with
        st := ⟨(k.st.mem.setData p (update (k.st.mem.data p) b byte)).setEnt (pageDir n tmp)
          (tmp % 1024) (.page p true true), k.st.held⟩
        content := atPage (pageDir n tmp) (tmp % 1024)
          (update (k.content (pageDir n tmp) (tmp % 1024)) b byte) k.content
        copied := atPage (pageDir n tmp) (tmp % 1024) false k.copied }
    | _ => none
  | .swapOut => (swapOut k.st.mem).map fun (_, m) => k.withMem m
  | .getFreePage => (getFreePage k.st.mem).map fun (p, m) => { k with
      st := ⟨m, if p = 0 then k.st.held else update k.st.held p (k.st.held p + 1)⟩ }
  | .freePage p => (freePage k.st.mem p).map fun m => { k with
      st := ⟨m, if p < lowMem then k.st.held else update k.st.held p (k.st.held p - 1)⟩ }
  | .fill p c => some (k.withMem (k.st.mem.setData p c))
  | .initSwapping bits => some (k.withMem { k.st.mem with swapBitmap := some bits })

end Kernel

/-- The task that is there from the start; its space is 640 KB of the kernel's. -/
def task0 : Task := ⟨none, none, 0, 160⟩

/-- The kernel after `mem_init`, with memory content `c`. -/
def Kernel.start (startMem endMem : ℕ) (c : ℕ → Page) : Kernel where
  st := ⟨{ memInit startMem endMem with data := c }, fun _ => 0⟩
  tasks := fun n => if n = 0 then some task0 else none
  content := fun _ i => c i
  copied := fun _ _ => false

/-- The runs from `mem_init` on. -/
def paging (files : Files) (startMem endMem : ℕ) : System Kernel Act where
  init k := ∃ c, k = Kernel.start startMem endMem c
  step k a k' := a.Called files k ∧ k.step files a = some k'

/-- `share_page` can share the page of task `n'` with task `n`, which faults on it. -/
def Kernel.Shareable (k : Kernel) (n tmp iCount n' : ℕ) : Prop :=
  2 ≤ iCount ∧ n' ≠ n ∧ k.pte n tmp = .zero ∧ ∃ t t' p rw, k.tasks n = some t ∧
    (t.source tmp).isSome ∧ k.tasks n' = some t' ∧ t'.fileAt tmp = t.fileAt tmp ∧
    lowMem ≤ p ∧ k.pte n' tmp = .page p rw false

/-- No page that `un_wp_page` has copied is loaded again, or shared, before it is
written; the sizes in the header of an executable do not wrap; and `un_wp_page`
and `try_to_share` find the entry they have read unchanged. -/
def Act.Guard (files : Files) (k : Kernel) : Act → Prop
  | .exec _ inode => ∀ h, header files inode = some h → h.text + h.data + h.bss < 2 ^ 32
  | .noPage n tmp iCount => ShareKeeps k.st.mem n tmp ∧
      (k.pte n tmp = .zero → k.copied (pageDir n tmp) (tmp % 1024) = false) ∧
      ∀ n', k.Shareable n tmp iCount n' → k.copied (pageDir n' tmp) (tmp % 1024) = false
  | .wpPage n tmp => UnWpKeeps k.st.mem (pageAddress n tmp)
  | .writeVerify address => UnWpKeeps k.st.mem address
  | _ => True

variable {files : Files} {startMem endMem : ℕ} {k k' : Kernel} {s s' : State} {e : Effect}
  {m' : Mem} {t t' : Task} {n tmp d i j : ℕ}

/-! ### Pages of a task -/

theorem pageDir_div (h : tmp < taskSize) : pageDir n tmp / 16 = n := by
  simp only [taskSize] at h
  simp only [pageDir]
  omega

theorem pageDir_mod (h : tmp < taskSize) : pageDir n tmp % 16 = tmp / 1024 := by
  simp only [taskSize] at h
  simp only [pageDir]
  omega

/-- What is known of a task: its space is at most 64 MB, and `end_data` comes
from the header of its executable. -/
structure Task.Ok (files : Files) (t : Task) : Prop where
  limit : t.limit ≤ taskSize
  endData : t.endData ≤ Header.maxSize
  header : ∀ inode, t.executable = some inode →
    ∃ h, header files inode = some h ∧ t.endData = h.endData

/-- What a page holds depends on where it is read from and how much of it is
cleared. -/
theorem demandPage_of_source (hsource : t'.source tmp = t.source tmp)
    (htail : t'.tail tmp = t.tail tmp) : demandPage files t' tmp = demandPage files t tmp := by
  simp only [demandPage, hsource]
  rcases t.source tmp with _ | ⟨inode, block⟩
  · rfl
  · funext k
    simp only [Task.readPage, htail]

/-- Two tasks with the same file at a page load the same there. -/
theorem demandPage_congr (h : t.Ok files) (h' : t'.Ok files)
    (hfile : t'.fileAt tmp = t.fileAt tmp) (hsrc : (t.source tmp).isSome) :
    demandPage files t' tmp = demandPage files t tmp := by
  have hend := h.endData
  have hend' := h'.endData
  simp only [Header.maxSize] at hend hend'
  by_cases hlib : libraryOffset ≤ tmp
  · have hlib' : 15360 ≤ tmp := hlib
    have hfile' : t'.library = t.library := by
      simpa only [Task.fileAt, if_neg (not_lt.mpr hlib)] using hfile
    -- a page of the library is behind the end of both executables
    have htail : ∀ {u : Task}, u.endData ≤ 50331648 → u.tail tmp = 0 := by
      intro u hu
      exact if_pos (by omega)
    refine demandPage_of_source ?_ ((htail hend').trans (htail hend).symm)
    simp only [Task.source, if_pos hlib, hfile']
  · have hfile' : t'.executable = t.executable := by
      simpa only [Task.fileAt, if_pos (not_le.mp hlib)] using hfile
    have hend : t'.endData = t.endData := by
      rcases hexe : t.executable with _ | inode
      · simp [Task.source, hlib, hexe] at hsrc
      · obtain ⟨x, hx, hend⟩ := h.header inode hexe
        obtain ⟨x', hx', hend'⟩ := h'.header inode (hfile'.trans hexe)
        obtain rfl : x = x' := by simpa [hx] using hx'
        rw [hend, hend']
    refine demandPage_of_source ?_ ?_
    · simp only [Task.source, if_neg hlib, hfile', hend]
    · simp only [Task.tail, hend]

namespace Kernel

/-- What `do_no_page` would load at entry `(d, i)`. -/
def demandAt (files : Files) (k : Kernel) (d i : ℕ) : Page :=
  match k.tasks (d / 16) with
  | none => zeroPage
  | some t => startPage files t (d % 16) i

/-- What the address spaces of the tasks are meant to hold. -/
def ghost (files : Files) (k : Kernel) : Ghost where
  live d i := InSpace d i ∧ (k.tasks (d / 16)).isSome
  content := k.content
  demand := k.demandAt files
  copied d i := k.copied d i = true

/-- The number of directory entries that the segment of task `n` takes. -/
def dirs (k : Kernel) (n : ℕ) : ℕ :=
  match k.tasks n with
  | none => 0
  | some t => (t.limit + 1023) / 1024

/-- The directory entry is in the segment of its task. -/
def Inside (k : Kernel) (d : ℕ) : Prop := d % 16 < k.dirs (d / 16)

theorem dirs_of_some (h : k.tasks n = some t) : k.dirs n = (t.limit + 1023) / 1024 := by
  simp only [dirs, h]

theorem dirs_of_none (h : k.tasks n = none) : k.dirs n = 0 := by
  simp only [dirs, h]

theorem demandAt_of_some (h : k.tasks (d / 16) = some t) :
    k.demandAt files d i = startPage files t (d % 16) i := by
  simp only [demandAt, h]

theorem demandAt_page (h : k.tasks n = some t) (htmp : tmp < taskSize) :
    k.demandAt files (pageDir n tmp) (tmp % 1024) = demandPage files t tmp := by
  rw [demandAt_of_some (t := t) (by rw [pageDir_div htmp, h]), pageDir_mod htmp, startPage]
  congr 1
  omega

end Kernel

/-- The entries that `copy_page_tables` copies from task `n` for task `child`. -/
def Copying (n child limit d₁ d₂ i : ℕ) : Prop :=
  ∃ j, j < (limit + 1023) / 1024 ∧ d₁ = 16 * n + j ∧ d₂ = 16 * child + j ∧
    i < if 16 * n = 0 then 160 else 1024

/-- What holds of the task table: task 0 is there, and segments have at most
64 MB. -/
structure Fits (k : Kernel) : Prop where
  first : k.tasks 0 = some task0
  lt : ∀ n t, k.tasks n = some t → n < 64
  limit : ∀ n t, k.tasks n = some t → t.limit ≤ taskSize

namespace Fits

/-- A page of a task other than task 0. -/
theorem page_of_within (h : Fits k) (hw : k.Within n tmp) :
    1 ≤ n ∧ n < 64 ∧ tmp < taskSize ∧ User (pageDir n tmp) ∧ tmp % 1024 < 1024 := by
  obtain ⟨hn, t, ht, hlim⟩ := hw
  have htmp : tmp < taskSize := hlim.trans_le (h.limit n t ht)
  exact ⟨hn, h.lt n t ht, htmp, pageDir_user hn (h.lt n t ht) htmp, Nat.mod_lt _ (by decide)⟩

theorem limit_of_zero (h : Fits k) (ht : k.tasks n = some t) (hn : n = 0) : t.limit = 160 := by
  have hfirst := h.first
  rw [← hn, ht] at hfirst
  rw [Option.some.inj hfirst]
  rfl

/-- The directory entries of the segment of a task. -/
theorem user_of_lt (h : Fits k) (ht : k.tasks n = some t) (hc : 1 ≤ i) (hc' : i < 64)
    (hj : j < (t.limit + 1023) / 1024) : User (16 * i + j) := by
  have hlim := h.limit n t ht
  simp only [taskSize] at hlim
  exact ⟨by simp only [firstDir]; omega, by omega⟩

/-- How `copy_page_tables` ends at fork. -/
theorem copyEnd {child : ℕ} {b : Bool} (h : Fits k) (hi : Inv startMem endMem k.st)
    (ht : k.tasks n = some t) (hne : n ≠ child) (hc : 1 ≤ child) (hc' : child < 64)
    (hr : copyPageTables k.st.mem (16 * n) (16 * child) t.limit = some (b, m')) :
    CopyEnd (Copying n child t.limit) k.st b m' := by
  refine copyTables_trace _ hi ?_ ?_ (by omega) (by omega) hr
  · by_cases hn : n = 0
    · have hlimit := h.limit_of_zero ht hn
      exact Or.inr ⟨by omega, by omega, if_pos (by omega)⟩
    · exact Or.inl ⟨fun j hj => h.user_of_lt ht (by omega) (h.lt n t ht) hj, if_neg (by omega)⟩
  · exact fun j hj => h.user_of_lt ht hc hc' hj

end Fits

/-! ### The invariant -/

/-- The address spaces of the tasks hold what they are meant to, and no entry is
in use outside of them. -/
structure Sane (files : Files) (startMem endMem : ℕ) (k : Kernel) : Prop where
  healthy : Healthy startMem endMem k.st (k.ghost files)
  unused : ∀ d i, User d → i < 1024 → ¬ k.Inside d → k.st.mem.entry d i = .zero
  first : k.tasks 0 = some task0
  lt : ∀ n t, k.tasks n = some t → n < 64
  task : ∀ n t, k.tasks n = some t → t.Ok files

namespace Sane

theorem fits (h : Sane files startMem endMem k) : Fits k :=
  ⟨h.first, h.lt, fun n t ht => (h.task n t ht).limit⟩

/-- A page of a task other than task 0. -/
theorem page_of_within (h : Sane files startMem endMem k) (hw : k.Within n tmp) :
    1 ≤ n ∧ n < 64 ∧ ∃ t, k.tasks n = some t ∧ tmp < t.limit ∧ tmp < taskSize ∧
      User (pageDir n tmp) ∧ tmp % 1024 < 1024 ∧ k.Inside (pageDir n tmp) ∧
      (k.ghost files).live (pageDir n tmp) (tmp % 1024) := by
  obtain ⟨hn, t, ht, hlim⟩ := hw
  have hlt := h.lt n t ht
  have htmp : tmp < taskSize := hlim.trans_le (h.task n t ht).limit
  have hmod : tmp % 1024 < 1024 := Nat.mod_lt _ (by decide)
  have huser := pageDir_user hn hlt htmp
  refine ⟨hn, hlt, t, ht, hlim, htmp, huser, hmod, ?_, ⟨Or.inl huser, hmod⟩, ?_⟩
  · rw [Kernel.Inside, pageDir_div htmp, pageDir_mod htmp, Kernel.dirs_of_some ht]
    omega
  · rw [pageDir_div htmp, ht]
    rfl

/-- Steps that leave every address space alone. -/
theorem silent (h : Sane files startMem endMem k) (ht : TraceOf Effect.Silent k.st s') :
    Sane files startMem endMem { k with st := s' } where
  healthy := h.healthy.silent ht
  unused d i hd hi hout :=
    zero_of_steps h.healthy.inv ht hd.2 hi (h.unused d i hd hi hout) fun _ he => he.not_fills
  first := h.first
  lt := h.lt
  task := h.task

/-- A step that fills entries of the tasks only. -/
theorem apply {c : ℕ → ℕ → Page} {w : ℕ → ℕ → Bool} (h : Sane files startMem endMem k)
    (hp : e.Pre k.st) (hs : e.Sound k.st (k.ghost files))
    (hfill : ∀ d i, e.Fills d i → k.Inside d)
    (hg : ∀ d i, (k.ghost files).live d i → c d i = ((k.ghost files).apply e).content d i ∧
      (w d i = true ↔ ((k.ghost files).apply e).copied d i)) :
    Sane files startMem endMem ⟨k.st.apply e, k.tasks, c, w⟩ where
  healthy := by
    have hdemand : ((k.ghost files).apply e).demand = k.demandAt files := by
      cases e <;> rfl
    have hlive : ∀ d i, (k.ghost files).live d i → ((k.ghost files).apply e).live d i := by
      intro d i hl
      cases e <;> first | exact hl | exact Or.inl hl
    refine (h.healthy.apply hp hs).restrict hlive fun d i hl => ⟨(hg d i hl).1, ?_, (hg d i hl).2⟩
    rw [hdemand]
    rfl
  unused d i hd hi hout :=
    zero_apply h.healthy.inv hp hd.2 hi (h.unused d i hd hi hout)
      fun he => hout (hfill d i he)
  first := h.first
  lt := h.lt
  task := h.task

/-! ### Page faults -/

/-- A page of a task that is not in use holds what would be loaded. -/
theorem content_of_zero (h : Sane files startMem endMem k) (hl : (k.ghost files).live d i)
    (he : k.st.mem.entry d i = .zero) (hc : k.copied d i = false) :
    k.content d i = k.demandAt files d i := by
  have hold := h.healthy.coherent.holds d i hl
  rw [he] at hold
  exact hold fun hcop => Bool.false_ne_true (hc.symm.trans hcop)

/-- So does a clean one. -/
theorem content_of_clean {p : ℕ} {rw : Bool} (h : Sane files startMem endMem k)
    (hl : (k.ghost files).live d i) (he : k.st.mem.entry d i = .page p rw false)
    (hlow : lowMem ≤ p) (hc : k.copied d i = false) : k.content d i = k.demandAt files d i := by
  have hold := h.healthy.coherent.holds d i hl
  rw [he] at hold
  exact hold.2 rfl hlow fun hcop => Bool.false_ne_true (hc.symm.trans hcop)

theorem noPage {iCount : ℕ} {r : Ended} (h : Sane files startMem endMem k)
    (hw : k.Within n tmp) (ht : k.tasks n = some t) (hnone : (k.pte n tmp).frame = none)
    (hguard : (Act.noPage n tmp iCount).Guard files k)
    (hr : doNoPage files k.tasks iCount k.st.mem n t tmp = some (r, m')) :
    Sane files startMem endMem (k.withMem m') := by
  obtain ⟨hkeep, hclean, hshare⟩ := hguard
  obtain ⟨hn, hn', t₀, ht₀, -, htmp, huser, hi, hin, hl⟩ := h.page_of_within hw
  obtain rfl : t = t₀ := by simpa [ht] using ht₀
  have hdem : k.demandAt files (pageDir n tmp) (tmp % 1024) = demandPage files t tmp :=
    Kernel.demandAt_page ht htmp
  show Sane files startMem endMem ⟨⟨m', k.st.held⟩, k.tasks, k.content, k.copied⟩
  rcases doNoPage_trace h.healthy.inv hn hn' htmp hnone hkeep hr with
    htrace | ⟨s₁, p, hzero, htrace, hdata, hp, heq⟩ |
    ⟨n', t', s₁, p, rw, hcount, hn₁, hn₂, hne, ht', hfile, hsrc, hzero, hlow, hpage, htrace, hp,
      heq⟩ |
    ⟨s₁, nr, q, htrace, hp, heq⟩
  · exact h.silent htrace
  · -- the page is loaded, or it is an empty one
    rw [heq]
    have hcontent := h.content_of_zero hl hzero (hclean hzero)
    refine (h.silent htrace).apply hp ?_ ?_ fun _ _ _ => ⟨rfl, Iff.rfl⟩
    · exact fun _ => ⟨hdata.trans (hdem.symm.trans hcontent.symm), fun _ _ => hcontent⟩
    · rintro _ _ ⟨rfl, -⟩
      exact hin
  · -- the page is shared with a task that has the same file
    rw [heq]
    have hc := hclean hzero
    have hc' := hshare n' ⟨hcount, hne, hzero, t, t', p, rw, ht, hsrc, ht', hfile, hlow, hpage⟩
    have hl' : (k.ghost files).live (pageDir n' tmp) (tmp % 1024) := by
      refine ⟨⟨Or.inl (pageDir_user hn₁ hn₂ htmp), hi⟩, ?_⟩
      rw [pageDir_div htmp, ht']
      rfl
    have hdem' : k.demandAt files (pageDir n' tmp) (tmp % 1024) = demandPage files t' tmp :=
      Kernel.demandAt_page ht' htmp
    have heqdem : k.demandAt files (pageDir n tmp) (tmp % 1024)
        = k.demandAt files (pageDir n' tmp) (tmp % 1024) := by
      rw [hdem, hdem', demandPage_congr (h.task n t ht) (h.task n' t' ht') hfile hsrc]
    have hcontent := h.content_of_zero hl hzero hc
    have hcontent' := h.content_of_clean hl' hpage hlow hc'
    refine (h.silent htrace).apply hp ?_ ?_ fun _ _ _ => ⟨rfl, Iff.rfl⟩
    · refine ⟨hl', hcontent.trans (heqdem.trans hcontent'.symm), heqdem, ?_⟩
      show k.copied _ _ = true ↔ k.copied _ _ = true
      rw [hc, hc']
    · rintro _ _ ⟨rfl, -⟩
      exact hin
  · rw [heq]
    exact (h.silent htrace).apply hp trivial (fun _ _ hf => hf.elim) fun _ _ _ => ⟨rfl, Iff.rfl⟩

/-! ### Write protection -/

/-- `un_wp_page` on a read-only entry; a copy of a dirty page is marked. -/
theorem unWp {r : Ended} {p : ℕ} {dirty : Bool} (h : Sane files startMem endMem k)
    (he : k.st.mem.entry d i = .page p false dirty) (hend : UnWpEnd d i k.st r m') :
    Sane files startMem endMem (k.afterUnWp d i r m') := by
  show Sane files startMem endMem ⟨⟨m', k.st.held⟩, k.tasks, k.content, (k.afterUnWp d i r m').copied⟩
  simp only [Kernel.afterUnWp]
  rcases hend with ⟨rfl, htrace⟩ | ⟨rfl, q, rw, dirty', hp, heq⟩ |
    ⟨rfl, s₁, old, new, rw, dirty', hcopies, he', htrace, hp, heq⟩
  · rw [if_neg (fun hc => Ended.noConfusion hc.1)]
    exact h.silent htrace
  · -- the only reference: the entry becomes writable
    have hno : ¬ k.wpCopies d i := by
      rintro ⟨old, dirty₁, he₁, hcopies, -⟩
      obtain ⟨-, -, he₂, hone⟩ := hp
      obtain ⟨rfl, -⟩ : old = q ∧ false = rw ∧ dirty₁ = dirty' := by simpa [he₁] using he₂
      exact hcopies hone
    rw [heq, if_neg (fun hc => hno hc.2)]
    exact h.apply hp trivial (fun _ _ hf => hf.elim) fun _ _ _ => ⟨rfl, Iff.rfl⟩
  · -- a copy, which `new_page | 7` leaves clean
    obtain ⟨rfl, rfl, rfl⟩ : p = old ∧ false = rw ∧ dirty = dirty' := by simpa [he] using he'
    have hmark : k.wpCopies d i ↔ dirty = true ∨ p < lowMem := by
      constructor
      · rintro ⟨old, dirty₁, he₁, -, hc⟩
        obtain ⟨rfl, rfl⟩ : p = old ∧ dirty = dirty₁ := by simpa [he] using he₁
        exact hc
      · exact fun hc => ⟨p, dirty, he, hcopies, hc⟩
    rw [heq]
    refine (h.silent htrace).apply hp trivial (fun _ _ hf => hf.elim) fun d' i' _ => ⟨rfl, ?_⟩
    show _ ↔ k.copied d' i' = true ∨ d' = d ∧ i' = i ∧ (dirty = true ∨ p < lowMem)
    by_cases hc : dirty = true ∨ p < lowMem
    · rw [if_pos ⟨rfl, hmark.mpr hc⟩, Kernel.atPage]
      by_cases hpage : d' = d ∧ i' = i
      · rw [if_pos hpage]
        tauto
      · rw [if_neg hpage]
        tauto
    · rw [if_neg (fun hc' => hc (hmark.mp hc'.2))]
      tauto

theorem wpPage {r : Ended} {p : ℕ} {dirty : Bool} (h : Sane files startMem endMem k)
    (hw : k.Within n tmp) (he : k.pte n tmp = .page p false dirty)
    (hkeep : UnWpKeeps k.st.mem (pageAddress n tmp))
    (hr : doWpPage k.st.mem (pageAddress n tmp) = some (r, m')) :
    Sane files startMem endMem (k.afterUnWp (pageDir n tmp) (tmp % 1024) r m') := by
  obtain ⟨-, -, t, -, -, -, huser, hi, -, -⟩ := h.page_of_within hw
  have hdir := dirOf_pageAddress n tmp
  have hent := entOf_pageAddress n tmp
  have hend := doWpPage_trace h.healthy.inv (by rw [hdir]; exact huser)
    (by rw [hdir, hent]; exact he) hkeep hr
  rw [hdir, hent] at hend
  exact h.unWp he hend

theorem writeVerify {r : Ended} {address : ℕ} (h : Sane files startMem endMem k)
    (ha : address < 2 ^ 20) (hkeep : UnWpKeeps k.st.mem address)
    (hr : Mm.writeVerify k.st.mem address = some (r, m')) :
    Sane files startMem endMem (k.afterUnWp (dirOf address) (entOf address) r m') := by
  rcases writeVerify_trace h.healthy.inv ha hkeep hr with
    ⟨rfl, rfl, hno⟩ | ⟨-, ⟨p, dirty, he⟩, hend⟩
  · have hnot : ¬ k.wpCopies (dirOf address) (entOf address) :=
      fun ⟨old, dirty, he, _⟩ => hno old dirty he
    rw [Kernel.afterUnWp, if_neg (fun hc => hnot hc.2)]
    exact h
  · exact h.unWp he hend

/-! ### Stores and pages of arguments -/

theorem store {b : Fin 4096} {byte : UInt8} (h : Sane files startMem endMem k)
    (hw : k.Within n tmp) (hr : k.step files (.store n tmp b byte) = some k') :
    Sane files startMem endMem k' := by
  obtain ⟨-, -, t, -, -, -, huser, hi, hin, hl⟩ := h.page_of_within hw
  rcases he : k.pte n tmp with _ | nr | ⟨p, _ | _, dirty⟩
  case page.true =>
    simp only [Kernel.step, he] at hr
    obtain rfl := Option.some.inj hr
    set c := update (k.st.mem.data p) b byte with hcdef
    have hold := h.healthy.coherent.holds _ _ hl
    rw [show k.st.mem.entry _ _ = .page p true dirty from he] at hold
    have hc : c = update (k.content (pageDir n tmp) (tmp % 1024)) b byte := by
      rw [hcdef, hold.1]
      rfl
    refine h.apply (e := .store (pageDir n tmp) (tmp % 1024) p true dirty c) ⟨huser, hi, he⟩ rfl
      (fun _ _ hf => hf.elim) fun d i _ => ?_
    simp only [Ghost.apply, Kernel.atPage, ← hc]
    refine ⟨rfl, ?_⟩
    by_cases hpage : d = pageDir n tmp ∧ i = tmp % 1024
    · simp [hpage]
    · simp only [if_neg hpage, Kernel.ghost]
      tauto
  all_goals simp [Kernel.step, he] at hr

/-- `change_ldt` maps a page of arguments. -/
theorem argPage {p r : ℕ} (h : Sane files startMem endMem k) (hw : k.Within n tmp)
    (hheld : k.st.held p ≠ 0) (hnone : (k.pte n tmp).frame = none)
    (hr : putDirtyPage k.st.mem p (pageAddress n tmp) = some (r, m')) :
    Sane files startMem endMem (if r = 0 then k.withMem m' else { k with
      st := ⟨m', update k.st.held p (k.st.held p - 1)⟩
      content := Kernel.atPage (pageDir n tmp) (tmp % 1024) (k.st.mem.data p) k.content
      copied := Kernel.atPage (pageDir n tmp) (tmp % 1024) false k.copied }) := by
  obtain ⟨-, -, t, -, -, -, huser, hi, hin, hl⟩ := h.page_of_within hw
  have hlow := h.healthy.inv.lowMem_le (h.healthy.inv.heldOne p hheld).1
  rcases putPageWith_trace h.healthy.inv (by rw [dirOf_pageAddress]; exact huser)
    (by rw [dirOf_pageAddress, entOf_pageAddress]; exact hnone) hheld hr with
    ⟨rfl, htrace⟩ | ⟨rfl, s₁, htrace, hdata, hp, heq⟩
  · rw [if_pos rfl]
    exact h.silent htrace
  · have hne : r ≠ 0 := fun hc => absurd hlow (by rw [hc]; decide)
    rw [dirOf_pageAddress, entOf_pageAddress] at hp heq
    rw [if_neg hne, heq]
    have h₁ := h.silent htrace
    set e : Effect := .map (pageDir n tmp) (tmp % 1024) r true
    have hent : ∀ d i, d < 1024 → i < 1024 → (s₁.apply e).mem.entry d i
        = if d = pageDir n tmp ∧ i = tmp % 1024 then .page r true true else s₁.mem.entry d i :=
      fun d i hd hi => entry_apply h₁.healthy.inv hp hd hi
    refine ⟨?_, ?_, h.first, h.lt, h.task⟩
    · -- the page is mapped while it counts as dead, and comes to life with its content
      have h₂ : Healthy startMem endMem s₁ { k.ghost files with
          live := fun d i => (k.ghost files).live d i ∧
            ¬ (d = pageDir n tmp ∧ i = tmp % 1024) } :=
        h₁.healthy.restrict (fun _ _ hl => hl.1) fun _ _ _ => ⟨rfl, rfl, Iff.rfl⟩
      have h₃ := h₂.apply hp fun hl => absurd ⟨rfl, rfl⟩ hl.2
      refine h₃.extend fun d i hl' => ?_
      by_cases hpage : d = pageDir n tmp ∧ i = tmp % 1024
      · obtain ⟨rfl, rfl⟩ := hpage
        refine Or.inr ⟨hl'.1, ?_⟩
        rw [hent _ _ huser.2 hi, if_pos ⟨rfl, rfl⟩]
        refine ⟨?_, by simp⟩
        show (s₁.apply e).mem.data r = Kernel.atPage _ _ _ _ _ _
        rw [Kernel.atPage, if_pos ⟨rfl, rfl⟩, ← hdata]
        simp [e, State.apply]
      · refine Or.inl ⟨⟨hl', hpage⟩, if_neg hpage, rfl, ?_⟩
        show Kernel.atPage _ _ _ _ _ _ = true ↔ _
        rw [Kernel.atPage, if_neg hpage]
        exact Iff.rfl
    · intro d i hd hi' hout
      refine zero_apply h₁.healthy.inv hp hd.2 hi' (h₁.unused d i hd hi' hout) ?_
      rintro ⟨rfl, -⟩
      exact hout hin

end Sane

/-! ### Freeing an address space -/

/-- `free_page_tables` over pages of no living process: nothing is left there, and
nothing comes up elsewhere. -/
theorem free_range {g : Ghost} {dir size : ℕ} (h : Healthy startMem endMem s g)
    (hd : ∀ j, j < (size + 1023) / 1024 → User (dir + j))
    (hdead : ∀ j i, j < (size + 1023) / 1024 → ¬ g.live (dir + j) i) (hne : dir ≠ 0)
    (hr : freePageTables s.mem dir size = some m') :
    Healthy startMem endMem ⟨m', s.held⟩ g ∧
      (∀ d i, dir ≤ d → d < dir + (size + 1023) / 1024 → m'.entry d i = .zero) ∧
      ∀ d i, d < 1024 → i < 1024 → s.mem.entry d i = .zero → m'.entry d i = .zero := by
  rw [freePageTables, if_neg hne] at hr
  obtain ⟨htrace, hdir⟩ := freeTables_trace _ h.inv hd hr
  refine ⟨h.frees htrace ?_, ?_, ?_⟩
  · rintro d i ⟨j, hj, rfl⟩
    exact hdead j i hj
  · intro d i hge hlt
    exact Mem.entry_of_pgDir_none ((hdir d).trans (if_pos ⟨hge, hlt⟩)) i
  · exact fun d i hd' hi hz => zero_of_steps h.inv htrace hd' hi hz fun _ he => he.not_fills

/-- What the address spaces are meant to hold outside of `W`. -/
def Ghost.without (g : Ghost) (W : ℕ → Prop) : Ghost :=
  { g with live := fun d i => g.live d i ∧ ¬ W d }

namespace Kernel

theorem demandAt_congr (h : k'.tasks (d / 16) = k.tasks (d / 16)) :
    k'.demandAt files d i = k.demandAt files d i := by
  simp only [demandAt, h]

theorem inside_congr (h : k'.tasks (d / 16) = k.tasks (d / 16)) : k'.Inside d ↔ k.Inside d := by
  simp only [Inside, dirs, h]

end Kernel

namespace Sane

/-- One task is replaced, or comes or goes. -/
theorem of_task {o : Option Task} (h : Sane files startMem endMem k) (hn : 1 ≤ n) (hn' : n < 64)
    (htasks : k'.tasks = update k.tasks n o) (hok : ∀ t, o = some t → t.Ok files)
    (hh : Healthy startMem endMem k'.st (k'.ghost files))
    (hz : ∀ d i, User d → i < 1024 → d / 16 ≠ n → ¬ k.Inside d → k'.st.mem.entry d i = .zero)
    (hz' : ∀ d i, User d → i < 1024 → d / 16 = n → ¬ k'.Inside d →
      k'.st.mem.entry d i = .zero) : Sane files startMem endMem k' := by
  have hother : ∀ n', n' ≠ n → k'.tasks n' = k.tasks n' := by
    intro n' hne
    rw [htasks, Function.update_of_ne hne]
  have hself : k'.tasks n = o := by rw [htasks, Function.update_self]
  refine ⟨hh, ?_, ?_, ?_, ?_⟩
  · intro d i hd hi hout
    by_cases hdn : d / 16 = n
    · exact hz' d i hd hi hdn hout
    · exact hz d i hd hi hdn fun hin => hout ((Kernel.inside_congr (hother _ hdn)).mpr hin)
  · rw [hother 0 (by omega)]
    exact h.first
  · intro n' t ht
    by_cases hne : n' = n
    · rw [hne]
      exact hn'
    · exact h.lt n' t ((hother n' hne).symm.trans ht)
  · intro n' t ht
    by_cases hne : n' = n
    · rw [hne, hself] at ht
      exact hok t ht
    · exact h.task n' t ((hother n' hne).symm.trans ht)

/-- The pages in `W` are new, the others are what they were. -/
theorem healthy_of {W : ℕ → Prop}
    (hh : Healthy startMem endMem k'.st ((k.ghost files).without W))
    (hold : ∀ d i, i < 1024 → ¬ W d → (k'.tasks (d / 16)).isSome → (k.tasks (d / 16)).isSome ∧
      k'.content d i = k.content d i ∧ k'.copied d i = k.copied d i ∧
      k'.demandAt files d i = k.demandAt files d i)
    (hnew : ∀ d i, InSpace d i → W d → (k'.tasks (d / 16)).isSome →
      (k'.st.mem.entry d i).Holds k'.st.mem (k'.content d i) (k'.demandAt files d i)
        (k'.copied d i = true)) : Healthy startMem endMem k'.st (k'.ghost files) := by
  refine hh.extend fun d i ⟨hin, halive⟩ => ?_
  by_cases hW : W d
  · exact Or.inr ⟨hin, hnew d i hin hW halive⟩
  · obtain ⟨halive', h1, h2, h3⟩ := hold d i hin.2 hW halive
    refine Or.inl ⟨⟨⟨hin, halive'⟩, hW⟩, h1, h3, ?_⟩
    show k'.copied d i = true ↔ k.copied d i = true
    rw [h2]

/-- `exit` and `exec` free the space of task `n`, through its code segment and
through its data segment. -/
theorem freeTask {m₁ m₂ : Mem} (h : Sane files startMem endMem k) (hn : 1 ≤ n)
    (ht : k.tasks n = some t) (h₁ : freePageTables k.st.mem (16 * n) t.limit = some m₁)
    (h₂ : freePageTables m₁ (16 * n) t.limit = some m₂) :
    Healthy startMem endMem ⟨m₂, k.st.held⟩ ((k.ghost files).without fun d => d / 16 = n) ∧
      ∀ d i, User d → i < 1024 → d / 16 = n ∨ ¬ k.Inside d → m₂.entry d i = .zero := by
  have hlt := h.lt n t ht
  have hlim := (h.task n t ht).limit
  simp only [taskSize] at hlim
  have hd : ∀ j, j < (t.limit + 1023) / 1024 → User (16 * n + j) := by
    intro j hj
    exact ⟨by simp only [firstDir]; omega, by omega⟩
  have hdead : ∀ j i, j < (t.limit + 1023) / 1024 →
      ¬ ((k.ghost files).without fun d => d / 16 = n).live (16 * n + j) i := by
    rintro j i hj ⟨-, hc⟩
    exact hc (by omega)
  have h₀ : Healthy startMem endMem k.st ((k.ghost files).without fun d => d / 16 = n) :=
    h.healthy.restrict (fun _ _ hl => hl.1) fun _ _ _ => ⟨rfl, rfl, Iff.rfl⟩
  obtain ⟨hh₁, hz₁, hk₁⟩ := free_range h₀ hd hdead (by omega) h₁
  obtain ⟨hh₂, hz₂, hk₂⟩ := free_range (s := ⟨m₁, k.st.held⟩) hh₁ hd hdead (by omega) h₂
  refine ⟨hh₂, fun d i hdu hi hout => ?_⟩
  by_cases hin : 16 * n ≤ d ∧ d < 16 * n + (t.limit + 1023) / 1024
  · exact hz₂ d i hin.1 hin.2
  · have hz : k.st.mem.entry d i = .zero := by
      refine h.unused d i hdu hi ?_
      rcases hout with hdn | hout
      · rw [Kernel.Inside, hdn, Kernel.dirs_of_some ht]
        omega
      · exact hout
    exact hk₂ d i hdu.2 hi (hk₁ d i hdu.2 hi hz)

theorem exit {m₁ m₂ : Mem} (h : Sane files startMem endMem k) (hn : 1 ≤ n)
    (ht : k.tasks n = some t) (h₁ : freePageTables k.st.mem (16 * n) t.limit = some m₁)
    (h₂ : freePageTables m₁ (16 * n) t.limit = some m₂) :
    Sane files startMem endMem
      { k with st := ⟨m₂, k.st.held⟩, tasks := update k.tasks n none } := by
  obtain ⟨hh, hz⟩ := h.freeTask hn ht h₁ h₂
  have hdead : ∀ d, d / 16 = n → ¬ (update k.tasks n none (d / 16)).isSome := by
    intro d hd
    simp [hd]
  refine h.of_task hn (h.lt n t ht) rfl (fun _ hc => nomatch hc)
    (healthy_of hh (fun d i hi hne halive => ?_) fun d i _ hd halive => (hdead d hd halive).elim)
    (fun d i hd hi _ hout => hz d i hd hi (Or.inr hout))
    fun d i hd hi hdn _ => hz d i hd hi (Or.inl hdn)
  have hsame : update k.tasks n none (d / 16) = k.tasks (d / 16) := Function.update_of_ne hne _ _
  exact ⟨hsame ▸ halive, rfl, rfl, Kernel.demandAt_congr hsame⟩

theorem exec {m₁ m₂ : Mem} (h : Sane files startMem endMem k) (hn : 1 ≤ n)
    (ht : k.tasks n = some t) (hok : t'.Ok files)
    (h₁ : freePageTables k.st.mem (16 * n) t.limit = some m₁)
    (h₂ : freePageTables m₁ (16 * n) t.limit = some m₂) :
    Sane files startMem endMem
      { st := ⟨m₂, k.st.held⟩
        tasks := update k.tasks n (some t')
        content := Kernel.inTask n (Kernel.startPage files t') k.content
        copied := Kernel.inTask n (fun _ _ => false) k.copied } := by
  obtain ⟨hh, hz⟩ := h.freeTask hn ht h₁ h₂
  refine h.of_task hn (h.lt n t ht) rfl (fun _ hc => Option.some.inj hc ▸ hok)
    (healthy_of hh (fun d i hi hne halive => ?_) fun d i hin hd _ => ?_)
    (fun d i hd hi _ hout => hz d i hd hi (Or.inr hout))
    fun d i hd hi hdn _ => hz d i hd hi (Or.inl hdn)
  · have hsame : update k.tasks n (some t') (d / 16) = k.tasks (d / 16) :=
      Function.update_of_ne hne _ _
    exact ⟨hsame ▸ halive, if_neg hne, if_neg hne, Kernel.demandAt_congr hsame⟩
  · -- nothing is left of the old program, and all of the new one is still to be loaded
    have huser : User d := by
      rcases hin.1 with hd' | ⟨rfl, -⟩
      · exact hd'
      · omega
    rw [show Mem.entry m₂ d i = .zero from hz d i huser hin.2 (Or.inl hd)]
    intro _
    rw [Kernel.demandAt_of_some (t := t') (by rw [hd]; exact Function.update_self _ _ _)]
    exact if_pos hd

/-- `sys_uselib` frees the last 4 MB of the space. -/
theorem uselib {library : Option ℕ} (h : Sane files startMem endMem k) (hn : 1 ≤ n)
    (ht : k.tasks n = some t) (hlim : t.limit = taskSize)
    (hr : freePageTables k.st.mem (16 * n + 15) 1024 = some m') :
    Sane files startMem endMem
      { st := ⟨m', k.st.held⟩
        tasks := update k.tasks n (some { t with library := library })
        content := fun d i => if d = 16 * n + 15 then
          Kernel.startPage files { t with library := library } 15 i else k.content d i
        copied := fun d i => if d = 16 * n + 15 then false else k.copied d i } := by
  have hlt := h.lt n t ht
  have huser : User (16 * n + 15) := ⟨by simp only [firstDir]; omega, by omega⟩
  have h₀ : Healthy startMem endMem k.st ((k.ghost files).without fun d => d = 16 * n + 15) :=
    h.healthy.restrict (fun _ _ hl => hl.1) fun _ _ _ => ⟨rfl, rfl, Iff.rfl⟩
  obtain ⟨hh, hz, hk⟩ := free_range h₀ (fun j hj => by rw [show j = 0 by omega]; exact huser)
    (fun j i hj hl => hl.2 (by omega)) (by omega) hr
  have hok := h.task n t ht
  refine h.of_task hn hlt rfl ?_ (healthy_of hh (fun d i hi hne halive => ?_) ?_)
    (fun d i hd hi _ hout => hk d i hd.2 hi (h.unused d i hd hi hout)) ?_
  · rintro _ ⟨⟩
    exact ⟨hok.limit, hok.endData, hok.header⟩
  · by_cases hdn : d / 16 = n
    · -- below the library the task keeps its executable
      refine ⟨by rw [hdn, ht]; rfl, if_neg hne, if_neg hne, ?_⟩
      rw [Kernel.demandAt_of_some (by rw [hdn]; exact Function.update_self _ _ _),
        Kernel.demandAt_of_some (hdn ▸ ht)]
      have hlib : ¬ libraryOffset ≤ d % 16 * 1024 + i := by
        simp only [libraryOffset]
        omega
      refine demandPage_of_source ?_ rfl
      simp only [Task.source, if_neg hlib]
    · have hsame : update k.tasks n (some { t with library := library }) (d / 16)
          = k.tasks (d / 16) := Function.update_of_ne hdn _ _
      exact ⟨hsame ▸ halive, if_neg hne, if_neg hne, Kernel.demandAt_congr hsame⟩
  · rintro d i hin rfl -
    rw [show Mem.entry m' (16 * n + 15) i = .zero from hz _ _ (by omega) (by omega)]
    intro _
    rw [Kernel.demandAt_of_some (t := { t with library := library }) (by
      rw [show (16 * n + 15) / 16 = n by omega]
      exact Function.update_self _ _ _), show (16 * n + 15) % 16 = 15 by omega]
    exact if_pos rfl
  · intro d i hd hi hdn hout
    refine absurd ?_ hout
    rw [Kernel.Inside, hdn, Kernel.dirs_of_some (Function.update_self _ _ _)]
    simp only [hlim, taskSize]
    omega

/-! ### Fork -/

/-- What the pages are meant to hold, with those of a child that is not there yet. -/
def childGhost (files : Files) (k k' : Kernel) : Ghost :=
  { k'.ghost files with live := (k.ghost files).live }

/-- The kernel after a fork. -/
def forked (files : Files) (k : Kernel) (n child : ℕ) (t : Task) (s : State) : Kernel where
  st := s
  tasks := update k.tasks child (some t)
  content := Kernel.inTask child (fun j i => if Kernel.Owns n j i then k.content (16 * n + j) i
    else Kernel.startPage files t j i) k.content
  copied := Kernel.inTask child (fun j i => if Kernel.Owns n j i then k.copied (16 * n + j) i
    else false) k.copied

section fork

variable {child : ℕ} {es : List Effect}

variable (files) in
theorem forked_child (hd : d / 16 = child) (hown : Kernel.Owns n (d % 16) i) :
    (forked files k n child t s).content d i = k.content (16 * n + d % 16) i ∧
      (forked files k n child t s).copied d i = k.copied (16 * n + d % 16) i :=
  ⟨(if_pos hd).trans (if_pos hown), (if_pos hd).trans (if_pos hown)⟩

variable (files) in
theorem forked_other (hd : d / 16 ≠ child) :
    (forked files k n child t s).content d i = k.content d i ∧
      (forked files k n child t s).copied d i = k.copied d i :=
  ⟨if_neg hd, if_neg hd⟩

theorem copying_iff (h : Sane files startMem endMem k) (ht : k.tasks n = some t)
    (hc : 1 ≤ child) (hc' : child < 64) {d₁ d₂ : ℕ}
    (hr : Copying n child t.limit d₁ d₂ i) :
    ∃ j, j < 16 ∧ d₁ = 16 * n + j ∧ d₂ = 16 * child + j ∧ i < 1024 ∧ Kernel.Owns n j i ∧
      User d₂ ∧ (k.ghost files).live d₁ i := by
  obtain ⟨j, hj, rfl, rfl, hi⟩ := hr
  have hlim := (h.task n t ht).limit
  have hlt := h.lt n t ht
  simp only [taskSize] at hlim
  have hj16 : j < 16 := by omega
  have huser : User (16 * child + j) := ⟨by simp only [firstDir]; omega, by omega⟩
  have halive : (k.tasks ((16 * n + j) / 16)).isSome := by
    rw [show (16 * n + j) / 16 = n by omega, ht]
    rfl
  by_cases hn : n = 0
  · -- task 0 has 160 pages
    have hlimit := h.fits.limit_of_zero ht hn
    rw [if_pos (by omega)] at hi
    have hj0 : j = 0 := by omega
    refine ⟨j, hj16, rfl, rfl, by omega, Or.inr ⟨hj0, hi⟩, huser, ⟨Or.inr ⟨by omega, hi⟩, by omega⟩,
      halive⟩
  · rw [if_neg (by omega)] at hi
    refine ⟨j, hj16, rfl, rfl, hi, Or.inl (by omega), huser, ⟨Or.inl ?_, hi⟩, halive⟩
    exact ⟨by simp only [firstDir]; omega, by omega⟩

/-- While page tables are copied, the pages of the child are meant to hold what
those of the parent hold. -/
theorem copy_steps (h : Sane files startMem endMem k) (ht : k.tasks n = some t)
    (hne : n ≠ child) (hc : 1 ≤ child) (hc' : child < 64) (hfree : k.tasks child = none)
    (htrace : Trace k.st es s') (hes : ∀ e ∈ es, CopyStep (Copying n child t.limit) e) :
    Healthy startMem endMem s' { childGhost files k (forked files k n child t s') with
      live := fun d i => (k.ghost files).live d i ∨
        ∃ d₁, Copying n child t.limit d₁ d i ∧ ∃ e ∈ es, e.Copies d₁ d i } := by
  have hother : ∀ d i, (k.ghost files).live d i → d / 16 ≠ child := by
    rintro d i ⟨-, halive⟩ hd
    simp [hd, hfree] at halive
  have h₀ : Healthy startMem endMem k.st (childGhost files k (forked files k n child t s')) := by
    refine h.healthy.restrict (fun _ _ hl => hl) fun d i hl => ?_
    have hd := hother d i hl
    have hsame := forked_other files (k := k) (n := n) (t := t) (s := s') (i := i) hd
    refine ⟨hsame.1, Kernel.demandAt_congr (Function.update_of_ne hd _ _), ?_⟩
    show (forked files k n child t s').copied d i = true ↔ k.copied d i = true
    rw [hsame.2]
  refine h₀.copies htrace hes ?_
  rintro d₁ d₂ i hr
  obtain ⟨j, hj, rfl, rfl, hi, hown, -, hl⟩ := h.copying_iff ht hc hc' hr
  have hd₁ : (16 * n + j) / 16 = n := by omega
  have hpar : (16 * n + j) / 16 ≠ child := by omega
  have hd₂ : (16 * child + j) / 16 = child := by omega
  have hmod : (16 * child + j) % 16 = j := by omega
  have hnew := forked_child files (k := k) (t := t) (s := s') hd₂ (hmod.symm ▸ hown)
  have hsame := forked_other files (k := k) (n := n) (t := t) (s := s') (i := i) hpar
  rw [hmod] at hnew
  have hdem₁ : (forked files k n child t s').tasks ((16 * n + j) / 16) = some t := by
    rw [hd₁, ← ht]
    exact Function.update_of_ne hne _ _
  have hdem₂ : (forked files k n child t s').tasks ((16 * child + j) / 16) = some t := by
    rw [hd₂]
    exact Function.update_self _ _ _
  refine ⟨hl, ?_, ?_, ?_⟩
  · exact hnew.1.trans hsame.1.symm
  · show (forked files k n child t s').demandAt files _ _ = (forked files k n child t s').demandAt files _ _
    rw [Kernel.demandAt_of_some hdem₁, Kernel.demandAt_of_some hdem₂, hmod,
      show (16 * n + j) % 16 = j by omega]
  · show (forked files k n child t s').copied _ _ = true ↔ (forked files k n child t s').copied _ _ = true
    rw [hnew.2, hsame.2]

/-- An entry that is not copied to stays unused. -/
theorem copy_zero (h : Sane files startMem endMem k)
    (htrace : Trace k.st es s') (hes : ∀ e ∈ es, CopyStep (Copying n child t.limit) e)
    (hd : User d) (hi : i < 1024) (hz : k.st.mem.entry d i = .zero)
    (hno : ∀ d₁, ¬ Copying n child t.limit d₁ d i) : s'.mem.entry d i = .zero :=
  zero_of_steps h.healthy.inv ⟨es, htrace, hes⟩ hd.2 hi hz fun _ he => he.not_fills hno

theorem fork (h : Sane files startMem endMem k) (ht : k.tasks n = some t)
    (hne : n ≠ child) (hc : 1 ≤ child) (hc' : child < 64) (hfree : k.tasks child = none)
    (hr : copyPageTables k.st.mem (16 * n) (16 * child) t.limit = some (true, m')) :
    Sane files startMem endMem (forked files k n child t ⟨m', k.st.held⟩) := by
  have hlim := (h.task n t ht).limit
  simp only [taskSize] at hlim
  rcases h.fits.copyEnd h.healthy.inv ht hne hc hc' hr with ⟨-, es, htrace, hes, hall⟩ | ⟨hfalse, -⟩
  case inr => cases hfalse
  set k' := forked files k n child t ⟨m', k.st.held⟩ with hk'
  have hchild : k'.tasks child = some t := Function.update_self _ _ _
  have hunused : ∀ d i, User d → i < 1024 → d / 16 = child → k.st.mem.entry d i = .zero := by
    intro d i hd hi hdc
    refine h.unused d i hd hi ?_
    rw [Kernel.Inside, hdc, Kernel.dirs_of_none hfree]
    omega
  have hsteps := h.copy_steps ht hne hc hc' hfree htrace hes
  refine h.of_task (n := child) hc hc' rfl (fun _ he => Option.some.inj he ▸ h.task n t ht) ?_ ?_ ?_
  · refine hsteps.extend ?_
    rintro d i ⟨hin, halive⟩
    by_cases hdc : d / 16 = child
    · by_cases hcop : ∃ d₁, Copying n child t.limit d₁ d i
      · obtain ⟨d₁, hcop⟩ := hcop
        exact Or.inl ⟨Or.inr ⟨d₁, hcop, hall d₁ d i hcop⟩, rfl, rfl, Iff.rfl⟩
      · -- nothing is copied there: the parent has nothing there either
        have huser : User d := by
          rcases hin.1 with hd | ⟨rfl, -⟩
          · exact hd
          · omega
        refine Or.inr ⟨hin, ?_⟩
        rw [h.copy_zero htrace hes huser hin.2 (hunused d i huser hin.2 hdc)
          fun d₁ hd₁ => hcop ⟨d₁, hd₁⟩]
        intro hncop
        show k'.content d i = k'.demandAt files d i
        rw [Kernel.demandAt_of_some (hdc ▸ hchild)]
        by_cases hown : Kernel.Owns n (d % 16) i
        · obtain ⟨hcontent, hcopied⟩ := forked_child files (k := k) (t := t)
            (s := ⟨m', k.st.held⟩) hdc hown
          have hdir : (16 * n + d % 16) / 16 = n := by omega
          have hout : n ≠ 0 ∧ (t.limit + 1023) / 1024 ≤ d % 16 := by
            by_contra hcon
            refine hcop ⟨16 * n + d % 16, d % 16, ?_⟩
            by_cases hn : n = 0
            · have hlimit := h.fits.limit_of_zero ht hn
              rcases hown with hown | hown
              · omega
              · rw [if_pos (by omega)]
                omega
            · rw [if_neg (by omega)]
              have := hin.2
              omega
          have hlt := h.lt n t ht
          have hpar : User (16 * n + d % 16) := ⟨by simp only [firstDir]; omega, by omega⟩
          have hl : (k.ghost files).live (16 * n + d % 16) i :=
            ⟨⟨Or.inl hpar, hin.2⟩, by rw [hdir, ht]; rfl⟩
          have hzero : k.st.mem.entry (16 * n + d % 16) i = .zero := by
            refine h.unused _ i hpar hin.2 ?_
            rw [Kernel.Inside, hdir, Kernel.dirs_of_some ht]
            omega
          have hc : k.copied (16 * n + d % 16) i = false := by
            rw [← hcopied]
            exact Bool.eq_false_iff.mpr hncop
          rw [hcontent, h.content_of_zero hl hzero hc,
            Kernel.demandAt_of_some (t := t) (by rw [hdir, ht])]
          congr 1
          omega
        · exact (if_pos hdc).trans (if_neg hown)
    · refine Or.inl ⟨Or.inl ⟨hin, ?_⟩, rfl, rfl, Iff.rfl⟩
      rwa [show k'.tasks (d / 16) = k.tasks (d / 16) from Function.update_of_ne hdc _ _] at halive
  · intro d i hd hi hdc hout
    refine h.copy_zero htrace hes hd hi (h.unused d i hd hi hout) ?_
    rintro d₁ ⟨j, hj, -, rfl, -⟩
    omega
  · intro d i hd hi hdc hout
    refine h.copy_zero htrace hes hd hi (hunused d i hd hi hdc) ?_
    rintro d₁ ⟨j, hj, -, rfl, -⟩
    refine hout ?_
    rw [Kernel.Inside, hdc, Kernel.dirs_of_some hchild]
    omega

/-- A fork that runs out of memory frees what it has copied. -/
theorem fork_fails {m : Mem} (h : Sane files startMem endMem k) (ht : k.tasks n = some t)
    (hne : n ≠ child) (hc : 1 ≤ child) (hc' : child < 64) (hfree : k.tasks child = none)
    (hr : copyPageTables k.st.mem (16 * n) (16 * child) t.limit = some (false, m))
    (hr' : freePageTables m (16 * child) t.limit = some m') :
    Sane files startMem endMem (k.withMem m') := by
  have hlim := (h.task n t ht).limit
  simp only [taskSize] at hlim
  rcases h.fits.copyEnd h.healthy.inv ht hne hc hc' hr with ⟨htrue, -⟩ | ⟨-, es, htrace, hes⟩
  case inl => cases htrue
  have hdead : ∀ d i, d / 16 = child → ¬ (k.ghost files).live d i := by
    rintro d i hd ⟨-, halive⟩
    simp [hd, hfree] at halive
  have hhealthy : Healthy startMem endMem ⟨m, k.st.held⟩ (k.ghost files) := by
    refine (h.copy_steps ht hne hc hc' hfree htrace hes).restrict (fun _ _ => Or.inl) ?_
    intro d i hl
    have hd : d / 16 ≠ child := fun hd => hdead d i hd hl
    have hsame := forked_other files (k := k) (n := n) (t := t)
      (s := ⟨m, k.st.held⟩) (i := i) hd
    refine ⟨hsame.1.symm, (Kernel.demandAt_congr (Function.update_of_ne hd _ _)).symm, ?_⟩
    show k.copied d i = true ↔ (forked files k n child t ⟨m, k.st.held⟩).copied d i = true
    rw [hsame.2]
  obtain ⟨hh, hz, hk⟩ := free_range (s := ⟨m, k.st.held⟩) hhealthy
    (fun j hj => ⟨by simp only [firstDir]; omega, by omega⟩)
    (fun j i hj => hdead _ i (by omega)) (by omega) hr'
  refine ⟨hh, ?_, h.first, h.lt, h.task⟩
  intro d i hd hi hout
  by_cases hrange : 16 * child ≤ d ∧ d < 16 * child + (t.limit + 1023) / 1024
  · exact hz d i hrange.1 hrange.2
  · refine hk d i hd.2 hi (h.copy_zero htrace hes hd hi (h.unused d i hd hi hout) ?_)
    rintro d₁ ⟨j, hj, -, rfl, -⟩
    omega

end fork

/-! ### Runs -/

/-- Every step keeps the address spaces as they are meant to be. -/
theorem step {a : Act} (h : Sane files startMem endMem k) (hc : a.Called files k)
    (hg : a.Guard files k) (hs : k.step files a = some k') : Sane files startMem endMem k' := by
  cases a with
  | fork n child =>
    obtain ⟨hne, -, hc₁, hc₂, hfree⟩ := hc
    obtain ⟨t, ht, hs⟩ := Option.bind_eq_some_iff.mp hs
    obtain ⟨⟨b, m⟩, hr, hs⟩ := Option.bind_eq_some_iff.mp hs
    cases b with
    | true => exact Option.some.inj hs ▸ h.fork ht hne hc₁ hc₂ hfree hr
    | false =>
      obtain ⟨m', hr', rfl⟩ := Option.map_eq_some_iff.mp hs
      exact h.fork_fails ht hne hc₁ hc₂ hfree hr hr'
  | exit n =>
    obtain ⟨t, ht, hs⟩ := Option.bind_eq_some_iff.mp hs
    obtain ⟨m₁, h₁, hs⟩ := Option.bind_eq_some_iff.mp hs
    obtain ⟨m₂, h₂, rfl⟩ := Option.map_eq_some_iff.mp hs
    exact h.exit hc.1 ht h₁ h₂
  | exec n inode =>
    obtain ⟨hn, -, x, hx, haccepted⟩ := hc
    obtain ⟨t, ht, hs⟩ := Option.bind_eq_some_iff.mp hs
    obtain ⟨y, hy, hs⟩ := Option.bind_eq_some_iff.mp hs
    obtain ⟨m₁, h₁, hs⟩ := Option.bind_eq_some_iff.mp hs
    obtain ⟨m₂, h₂, rfl⟩ := Option.map_eq_some_iff.mp hs
    obtain rfl : x = y := by simpa [hx] using hy
    have hwrap : x.text + x.data + x.bss < 2 ^ 32 := hg x hx
    have hsum : (x.text + x.data + x.bss) % 2 ^ 32 ≤ Header.maxSize := haccepted
    have hend : x.endData ≤ Header.maxSize := by
      simp only [Header.endData, Header.maxSize] at hsum ⊢
      omega
    refine h.exec hn ht ⟨le_refl _, hend, ?_⟩ h₁ h₂
    rintro inode' ⟨⟩
    exact ⟨x, hx, rfl⟩
  | uselib n library =>
    obtain ⟨hn, t, ht, hlim⟩ := hc
    obtain ⟨t', ht', hs⟩ := Option.bind_eq_some_iff.mp hs
    obtain rfl : t = t' := by simpa [ht] using ht'
    obtain ⟨m, hr, rfl⟩ := Option.map_eq_some_iff.mp hs
    exact h.uselib hn ht hlim hr
  | argPage n tmp p =>
    obtain ⟨hw, hheld, hnone⟩ := hc
    obtain ⟨⟨r, m⟩, hr, rfl⟩ := Option.map_eq_some_iff.mp hs
    exact h.argPage hw hheld hnone hr
  | noPage n tmp iCount =>
    obtain ⟨t, ht, hs⟩ := Option.bind_eq_some_iff.mp hs
    obtain ⟨⟨r, m⟩, hr, rfl⟩ := Option.map_eq_some_iff.mp hs
    exact h.noPage hc.1 ht hc.2 hg hr
  | wpPage n tmp =>
    obtain ⟨hw, p, dirty, he⟩ := hc
    obtain ⟨⟨r, m⟩, hr, rfl⟩ := Option.map_eq_some_iff.mp hs
    exact h.wpPage hw he hg hr
  | writeVerify address =>
    obtain ⟨⟨r, m⟩, hr, rfl⟩ := Option.map_eq_some_iff.mp hs
    exact h.writeVerify hc hg hr
  | store n tmp b byte => exact h.store hc hs
  | swapOut =>
    obtain ⟨⟨b, m⟩, hr, rfl⟩ := Option.map_eq_some_iff.mp hs
    exact h.silent ((swapOut_trace h.healthy.inv.cursor hr).mono fun _ he => he.silent)
  | getFreePage =>
    obtain ⟨⟨p, m⟩, hr, rfl⟩ := Option.map_eq_some_iff.mp hs
    rcases getFreePage_trace h.healthy.inv hr with ⟨rfl, htrace, -⟩ | ⟨hne, hgot⟩
    · exact h.silent htrace
    · show Sane files startMem endMem { k with st := ⟨m, if p = 0 then _ else _⟩ }
      rw [if_neg hne]
      exact h.silent hgot.trace
  | freePage p =>
    obtain ⟨m, hf, rfl⟩ := Option.map_eq_some_iff.mp hs
    by_cases hlow : p < lowMem
    · rw [freePage_low hlow] at hf
      obtain rfl := Option.some.inj hf
      rw [if_pos hlow]
      exact h
    · rw [if_neg hlow]
      obtain ⟨-, -, rfl⟩ := freePage_eq (by omega) hf
      exact h.silent (.one (e := .drop p) (hc.resolve_right hlow) trivial rfl)
  | fill p c =>
    obtain rfl := Option.some.inj hs
    exact h.silent (.one (e := .fill p c) hc trivial rfl)
  | initSwapping bits =>
    obtain rfl := Option.some.inj hs
    exact h.apply (e := .swapOn bits) hc trivial (fun _ _ hf => hf.elim)
      fun _ _ _ => ⟨rfl, Iff.rfl⟩

theorem init (hlow : lowMem ≤ startMem) (htop : endMem ≤ lowMem + pagingPages)
    (hi : (paging files startMem endMem).init k) : Sane files startMem endMem k := by
  obtain ⟨c, rfl⟩ := hi
  have hinv := inv_memInit hlow htop
  have hent : ∀ d i, User d → (memInit startMem endMem).entry d i = .zero := by
    intro d i hd
    refine Mem.entry_of_pgDir_none (if_neg ?_) i
    have hge : 16 ≤ d := hd.1
    omega
  have hkernel : ∀ i, i < 160 → (memInit startMem endMem).entry 0 i = .page i true false := by
    intro i hi
    have htable : (memInit startMem endMem).entry 0 i
        = if 1 ≤ 1 ∧ 1 ≤ 4 ∧ i < 1024 then .page (1024 * (1 - 1) + i) true false else .zero :=
      rfl
    rw [htable, if_pos (by omega)]
    simp
  have halive : ∀ {d}, (if d / 16 = 0 then some task0 else none : Option Task).isSome →
      d / 16 = 0 := by
    intro d h
    split at h
    · assumption
    · cases h
  have hsame : ∀ d i, (Kernel.start startMem endMem c).st.mem.entry d i
      = (memInit startMem endMem).entry d i := by
    intro d i
    simp only [Kernel.start, Mem.entry]
  have hinv' : Inv startMem endMem (Kernel.start startMem endMem c).st := by
    have hcursor : User firstDir := by decide
    refine hinv.congr (fun d i _ => hsame d i) ?_ ?_ ?_ ?_ hcursor
    all_goals simp only [Kernel.start]
  refine ⟨⟨hinv', ?_, ?_, ⟨?_, ?_⟩⟩, ?_, rfl, ?_, ?_⟩
  · constructor
    · intro d i p dirty hd hi he
      rw [hsame, hent d i hd] at he
      cases he
    · intro d i d' i' p dirty hd hi hd' hi' he
      rw [hsame, hent d i hd] at he
      cases he
  · constructor
    · intro d i nr hd hi he
      rw [hsame, hent d i hd] at he
      cases he
    · intro d i d' i' nr hd hi hd' hi' he
      rw [hsame, hent d i hd] at he
      cases he
  · exact fun d i hl => hl.1
  · rintro d i ⟨⟨hd | ⟨rfl, hi⟩, -⟩, hal⟩
    · have := halive hal
      have hge : 16 ≤ d := hd.1
      omega
    · rw [hsame, hkernel i hi]
      refine ⟨rfl, fun _ hl => ?_⟩
      simp only [lowMem] at hl
      omega
  · exact fun d i hd _ _ => (hsame d i).trans (hent d i hd)
  · intro n t ht
    by_cases hn : n = 0
    · omega
    · simp [Kernel.start, hn] at ht
  · intro n t ht
    by_cases hn : n = 0
    · obtain rfl : task0 = t := by simpa [Kernel.start, hn] using ht
      exact ⟨by decide, by decide, fun _ hc => (by cases hc)⟩
    · simp [Kernel.start, hn] at ht

theorem reach (hlow : lowMem ≤ startMem) (htop : endMem ≤ lowMem + pagingPages)
    (hr : (paging files startMem endMem).Reach (fun k a => a.Guard files k) k) :
    Sane files startMem endMem k :=
  hr.invariant (fun _ hi => init hlow htop hi) fun _ _ _ h hg hs => h.step hs.1 hg hs.2

end Sane

/-- A present entry without `PAGE_RW`. -/
def Pte.isReadOnly : Pte → Bool
  | .page _ false _ => true
  | _ => false

theorem Pte.isReadOnly_iff {e : Pte} : e.isReadOnly ↔ ∃ p dirty, e = .page p false dirty := by
  rcases e with _ | nr | ⟨p, _ | _, dirty⟩ <;> simp [isReadOnly]

instance (k : Kernel) (n tmp : ℕ) : Decidable (k.Within n tmp) :=
  decidable_of_iff (1 ≤ n ∧ (k.tasks n).any fun t => decide (tmp < t.limit)) <| by
    simp only [Kernel.Within, Option.any_eq_true, decide_eq_true_iff]

instance (files : Files) (k : Kernel) : (a : Act) → Decidable (a.Called files k)
  | .fork _ _ => inferInstanceAs (Decidable (_ ∧ _ ∧ _ ∧ _ ∧ _))
  | .exit _ => inferInstanceAs (Decidable (_ ∧ _))
  | .exec n inode => decidable_of_iff
      (1 ≤ n ∧ (k.tasks n).isSome ∧ (header files inode).any fun h => decide h.Accepted) <| by
      simp only [Act.Called, Option.any_eq_true, decide_eq_true_iff]
  | .uselib n _ => decidable_of_iff
      (1 ≤ n ∧ (k.tasks n).any fun t => decide (t.limit = taskSize)) <| by
      simp only [Act.Called, Option.any_eq_true, decide_eq_true_iff]
  | .argPage _ _ _ => inferInstanceAs (Decidable (_ ∧ _ ∧ _))
  | .noPage _ _ _ => inferInstanceAs (Decidable (_ ∧ _))
  | .wpPage n tmp => decidable_of_iff (k.Within n tmp ∧ (k.pte n tmp).isReadOnly) <| by
      simp only [Act.Called, Pte.isReadOnly_iff]
  | .writeVerify _ => inferInstanceAs (Decidable (_ < _))
  | .store _ _ _ _ => inferInstanceAs (Decidable (Kernel.Within _ _ _))
  | .swapOut | .getFreePage => inferInstanceAs (Decidable True)
  | .freePage _ => inferInstanceAs (Decidable (_ ∨ _))
  | .fill _ _ => inferInstanceAs (Decidable (_ ≠ _))
  | .initSwapping _ => decidable_of_iff (k.st.mem.swapBitmap.isNone) Option.isNone_iff_eq_none

/-- The kernel after a step that can be made. -/
def Kernel.next (files : Files) (k : Kernel) (a : Act) : Option Kernel :=
  if a.Called files k then k.step files a else none

theorem Kernel.step_of_next (k : Kernel) (a : Act) (k' : Kernel)
    (h : k.next files a = some k') : (paging files startMem endMem).step k a k' := by
  rw [Kernel.next] at h
  by_cases hc : a.Called files k
  · rw [if_pos hc] at h
    exact ⟨hc, h⟩
  · rw [if_neg hc] at h
    cases h

/-- No files. -/
def noFiles : Files := fun _ _ => none

end Mm
