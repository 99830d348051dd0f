/-
The state of the memory manager and the frame allocator (mm/memory.c, mm/swap.c).

* `Mem` — `mem_map`, the page directory, the page tables, the contents of the
  frames, the swap bit-map and the swap device, and the two static cursors of
  `swap_out`;
* `freePage`, `swapFree`, `getSwapPage`, `tryToSwapOut`, `swapOut`,
  `getFreePage` — the functions that hand out and take back frames and swap
  slots;
* `memInit` — the state `mem_init` leaves behind, with the kernel page tables
  of `boot/head.s`.

Design notes: physical and linear addresses are counted in pages, so a frame is
its address shifted right by 12.  A function that can end in `panic` returns an
`Option`, and `none` is the panic.
-/
import Mathlib.Logic.Function.Basic
import Mathlib.Data.List.Basic
import Mathlib.Tactic.Simps.Basic

namespace Mm

/-- `LOW_MEM`, in pages. -/
def lowMem : ℕ := 256

/-- `PAGING_PAGES`: the number of bytes of `mem_map`. -/
def pagingPages : ℕ := 3840

/-- `USED`: the byte of a frame that is not in the main memory area. -/
def used : ℕ := 100

/-- `SWAP_BITS`. -/
def swapBits : ℕ := 32768

/-- `FIRST_VM_PAGE >> 10`: the first directory entry of task 1. -/
def firstDir : ℕ := 16

/-- The directory entries `swap_out` walks over: `VM_PAGES / 1024`. -/
def vmDirs : ℕ := 1008

/-- `MAP_NR`, of a physical page. -/
def mapNr (p : ℕ) : ℕ := p - lowMem

/-- The 4096 bytes of a page. -/
abbrev Page := Fin 4096 → UInt8

def zeroPage : Page := fun _ => 0

/-- A page-table entry: the word 0, the word `nr << 1` that `try_to_swap_out`
leaves for a page on the swap device, or a present page with its `PAGE_RW` and
`PAGE_DIRTY` bits. -/
inductive Pte where
  | zero
  | swap (nr : ℕ)
  | page (p : ℕ) (rw dirty : Bool)
  deriving DecidableEq

/-- The state the memory manager works on. -/
structure Mem where
  /-- `HIGH_MEMORY`, in pages -/
  highMemory : ℕ
  memMap : ℕ → ℕ
  /-- a present directory entry is the page of its table -/
  pgDir : ℕ → Option ℕ
  /-- the contents of a page, read as a page table -/
  table : ℕ → ℕ → Pte
  /-- the contents of a page, read as bytes -/
  data : ℕ → Page
  /-- `swap_bitmap`: `none` is the null pointer, a set bit is a free slot -/
  swapBitmap : Option (ℕ → Bool)
  swapDev : ℕ → Page
  /-- the static `dir_entry` of `swap_out` -/
  dirEntry : ℕ
  /-- one more than the static `page_entry` of `swap_out`, which starts at -1 -/
  pageNext : ℕ

namespace Mem

/-- Store into entry `i` of the page table in page `t`. -/
@[simps -fullyApplied]
def setEntry (m : Mem) (t i : ℕ) (e : Pte) : Mem :=
  { m with table := Function.update m.table t (Function.update (m.table t) i e) }

/-- Store a page-directory entry. -/
@[simps -fullyApplied]
def setDir (m : Mem) (d : ℕ) (t : Option ℕ) : Mem :=
  { m with pgDir := Function.update m.pgDir d t }

/-- Store a byte of `mem_map`, an `unsigned char`. -/
@[simps -fullyApplied]
def setMap (m : Mem) (n b : ℕ) : Mem :=
  { m with memMap := Function.update m.memMap n (b % 256) }

/-- Fill a page with bytes. -/
@[simps -fullyApplied]
def setData (m : Mem) (p : ℕ) (c : Page) : Mem :=
  { m with data := Function.update m.data p c }

/-- Zero a page, as the `rep ; stosl` of `get_free_page` does. -/
@[simps -fullyApplied]
def clearPage (m : Mem) (p : ℕ) : Mem :=
  { m with
    data := Function.update m.data p zeroPage
    table := Function.update m.table p fun _ => .zero }

/-- The entry of linear page `1024 * d + i`, zero where no page table is. -/
def entry (m : Mem) (d i : ℕ) : Pte :=
  match m.pgDir d with
  | none => .zero
  | some t => m.table t i

end Mem

/-! ### Giving frames and swap slots back -/

/-- `free_page`: `none` is one of its two panics. -/
def freePage (m : Mem) (p : ℕ) : Option Mem :=
  if p < lowMem then some m
  else if m.highMemory ≤ p then none
  else if m.memMap (mapNr p) ≠ 0 then some (m.setMap (mapNr p) (m.memMap (mapNr p) - 1))
  else none

/-- `swap_free`: sets the bit of a slot; a slot out of range or already free is
only reported. -/
def swapFree (m : Mem) (nr : ℕ) : Mem :=
  if nr = 0 then m
  else match m.swapBitmap with
    | none => m
    | some bits =>
      if nr < swapBits then { m with swapBitmap := some (Function.update bits nr true) }
      else m

/-- `swap_free` changes the bit-map only. -/
theorem swapFree_eq (m : Mem) (nr : ℕ) :
    swapFree m nr = { m with swapBitmap := (swapFree m nr).swapBitmap } := by
  unfold swapFree
  split
  · rfl
  · split
    · rfl
    · split <;> rfl

/-- `get_swap_page`: the first set bit from 1 on, which is cleared. -/
def getSwapPage (m : Mem) : Option (ℕ × Mem) :=
  match m.swapBitmap with
  | none => none
  | some bits =>
    match (List.range' 1 32767).find? bits with
    | none => none
    | some nr => some (nr, { m with swapBitmap := some (Function.update bits nr false) })

/-! ### Swapping out -/

/-- `try_to_swap_out` on entry `i` of the page table in page `t`: a dirty page
goes to the swap device if nothing else refers to its frame, a clean one is
dropped. -/
def tryToSwapOut (m : Mem) (t i : ℕ) : Option (Bool × Mem) :=
  match m.table t i with
  | .page p _ dirty =>
    -- `page - LOW_MEM > PAGING_MEMORY`, in unsigned arithmetic
    if p < lowMem ∨ pagingPages ≤ p - lowMem then some (false, m)
    else if dirty then
      if m.memMap (mapNr p) ≠ 1 then some (false, m)
      else match getSwapPage m with
        | none => some (false, m)
        | some (nr, m) =>
          let m := m.setEntry t i (.swap nr)
          let m := { m with swapDev := Function.update m.swapDev nr (m.data p) }
          (freePage m p).map fun m => (true, m)
    else (freePage (m.setEntry t i .zero) p).map fun m => (true, m)
  | _ => some (false, m)

/-- The directory entry after `d`, back to the first of task 1 behind the last. -/
def nextDir (d : ℕ) : ℕ := if 1024 ≤ d + 1 then firstDir else d + 1

/-- The first loop of `swap_out`: skip absent page tables from `d` on, at most
`k` of them; what is left of `k` and the directory entry reached. -/
def skipDirs (pgDir : ℕ → Option ℕ) : ℕ → ℕ → ℕ × ℕ
  | 0, d => (0, d)
  | k + 1, d => if (pgDir d).isSome then (k + 1, d) else skipDirs pgDir k (nextDir d)

/-- The `repeat:` part of the second loop of `swap_out`: the next present page
table, if the counter lasts.  `k` bounds the rounds, each of which takes 1024
off the counter. -/
def nextTable (pgDir : ℕ → Option ℕ) : ℕ → ℕ → ℕ → ℕ × Option (ℕ × ℕ)
  | 0, _, d => (d, none)
  | k + 1, counter, d =>
    match pgDir (nextDir d) with
    | some t => (nextDir d, some (counter, t))
    | none =>
      if 1024 < counter then nextTable pgDir k (counter - 1024) (nextDir d)
      else (nextDir d, none)

/-- The second loop of `swap_out`, from table `t`; every round takes at least
one off the counter, so `k` rounds are enough for a counter of `k`. -/
def swapOutLoop : ℕ → ℕ → ℕ → Mem → Option (Bool × Mem)
  | 0, _, _, m => some (false, m)
  | _ + 1, 0, _, m => some (false, m)
  | k + 1, counter + 1, t, m =>
    if 1024 ≤ m.pageNext then
      match nextTable m.pgDir vmDirs counter m.dirEntry with
      | (d, none) => some (false, { m with dirEntry := d, pageNext := 1 })
      | (d, some (counter, t)) =>
        match tryToSwapOut { m with dirEntry := d, pageNext := 1 } t 0 with
        | none => none
        | some (true, m) => some (true, m)
        | some (false, m) => swapOutLoop k counter t m
    else
      match tryToSwapOut { m with pageNext := m.pageNext + 1 } t m.pageNext with
      | none => none
      | some (true, m) => some (true, m)
      | some (false, m) => swapOutLoop k counter t m

/-- `swap_out`: walks on from where the last call stopped until one page could
be swapped out. -/
def swapOut (m : Mem) : Option (Bool × Mem) :=
  let (k, d) := skipDirs m.pgDir vmDirs m.dirEntry
  let m := { m with dirEntry := d }
  match m.pgDir d with
  | some t => swapOutLoop (1024 * k) (1024 * k) t m
  | none => some (false, m)

/-! ### Getting a frame -/

/-- The `repne ; scasb` of `get_free_page`: the last zero byte below `n`. -/
def findFree (memMap : ℕ → ℕ) : ℕ → Option ℕ
  | 0 => none
  | n + 1 => if memMap n = 0 then some n else findFree memMap n

/-- The `repeat:` loop of `get_free_page`: the page it returns, 0 for none. -/
def getFreePageLoop : ℕ → Mem → Option (ℕ × Mem)
  | 0, m => some (0, m)
  | k + 1, m =>
    match findFree m.memMap pagingPages with
    | some n =>
      let m := (m.setMap n 1).clearPage (n + lowMem)
      if m.highMemory ≤ n + lowMem then getFreePageLoop k m else some (n + lowMem, m)
    | none =>
      match swapOut m with
      | none => none
      | some (true, m) => getFreePageLoop k m
      | some (false, m) => some (0, m)

/-- More rounds than `get_free_page` can make: each takes a zero byte of
`mem_map` that lies above `HIGH_MEMORY`, or a present entry of a page table. -/
def maxRounds : ℕ := pagingPages + 1024 * vmDirs + 1

/-- `get_free_page`. -/
def getFreePage (m : Mem) : Option (ℕ × Mem) := getFreePageLoop maxRounds m

/-! ### The state after start-up -/

/-- `mem_init(start_mem, end_mem)`, both in pages, on the page directory that
`boot/head.s` sets up: four tables in pages 1 to 4 that map the first 16 MB to
themselves. -/
def memInit (startMem endMem : ℕ) : Mem where
  highMemory := endMem
  memMap := fun n =>
    if mapNr startMem ≤ n ∧ n < mapNr startMem + (endMem - startMem) then 0 else used
  pgDir := fun d => if d < 4 then some (d + 1) else none
  table := fun t i =>
    if 1 ≤ t ∧ t ≤ 4 ∧ i < 1024 then .page (1024 * (t - 1) + i) true false else .zero
  data := fun _ => zeroPage
  swapBitmap := none
  swapDev := fun _ => zeroPage
  dirEntry := firstDir
  pageNext := 0

end Mm
