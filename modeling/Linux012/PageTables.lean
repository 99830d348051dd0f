/-
The operations on page tables (mm/memory.c and `swap_in` of mm/swap.c).

* `putPage`, `putDirtyPage`, `getEmptyPage` — map a frame at an address;
* `copyPageTables`, `freePageTables` — duplicate and drop an address range;
* `unWpPage`, `tryToShare` — copy on write, and sharing of clean pages;
* `swapIn` — bring a page back from the swap device.

Linear addresses are counted in pages: page `1024 * d + i` is entry `i` of the
table of directory entry `d`.  An operation that can end in `oom()` says so in
its result; `oom()` sends the running process to `do_exit` and does not return.
-/
import Linux012.Memory

namespace Mm

/-- How a call without a result ended: it returned, or `oom()` was called. -/
inductive Ended where
  | returned
  | oom
  deriving DecidableEq

/-- The directory entry of a linear page: `(address >> 20) & 0xffc`. -/
def dirOf (address : ℕ) : ℕ := address / 1024

/-- The table entry of a linear page: `(address >> 12) & 0x3ff`. -/
def entOf (address : ℕ) : ℕ := address % 1024

/-! ### Mapping a frame -/

/-- The body that `put_page` and `put_dirty_page` share: page 0 is returned if
there is no frame for the page table.  The two warnings print and go on. -/
def putPageWith (dirty : Bool) (m : Mem) (page address : ℕ) : Option (ℕ × Mem) :=
  match m.pgDir (dirOf address) with
  | some t => some (page, m.setEntry t (entOf address) (.page page true dirty))
  | none =>
    match getFreePage m with
    | none => none
    | some (0, m) => some (0, m)
    | some (tmp, m) =>
      some (page, (m.setDir (dirOf address) (some tmp)).setEntry tmp (entOf address)
        (.page page true dirty))

/-- `put_page`. -/
def putPage (m : Mem) (page address : ℕ) : Option (ℕ × Mem) := putPageWith false m page address

/-- `put_dirty_page`. -/
def putDirtyPage (m : Mem) (page address : ℕ) : Option (ℕ × Mem) :=
  putPageWith true m page address

/-- `get_empty_page`. -/
def getEmptyPage (m : Mem) (address : ℕ) : Option (Ended × Mem) :=
  match getFreePage m with
  | none => none
  | some (0, m) => (freePage m 0).map fun m => (.oom, m)
  | some (tmp, m) =>
    match putPage m tmp address with
    | none => none
    | some (0, m) => (freePage m tmp).map fun m => (.oom, m)
    | some (_, m) => some (.returned, m)

/-! ### Copying and freeing page tables -/

/-- The inner loop of `copy_page_tables`: `nr` entries from index `i` on are
copied from table `ft` to table `tt`; `false` is the `return -1`. -/
def copyEntries (ft tt : ℕ) : ℕ → ℕ → Mem → Option (Bool × Mem)
  | 0, _, m => some (true, m)
  | nr + 1, i, m =>
    match m.table ft i with
    | .zero => copyEntries ft tt nr (i + 1) m
    | .swap n =>
      match getFreePage m with
      | none => none
      | some (0, m) => some (false, m)
      | some (q, m) =>
        let m := m.setData q (m.swapDev n)
        copyEntries ft tt nr (i + 1)
          ((m.setEntry tt i (.swap n)).setEntry ft i (.page q true true))
    | .page p _ dirty =>
      let m := m.setEntry tt i (.page p false dirty)
      if lowMem ≤ p then
        let m := m.setEntry ft i (.page p false dirty)
        copyEntries ft tt nr (i + 1) (m.setMap (mapNr p) (m.memMap (mapNr p) + 1))
      else copyEntries ft tt nr (i + 1) m

/-- The outer loop of `copy_page_tables`, over `size` directory entries. -/
def copyTables (nr : ℕ) : ℕ → ℕ → ℕ → Mem → Option (Bool × Mem)
  | 0, _, _, m => some (true, m)
  | size + 1, fromDir, toDir, m =>
    if (m.pgDir toDir).isSome then none
    else match m.pgDir fromDir with
      | none => copyTables nr size (fromDir + 1) (toDir + 1) m
      | some ft =>
        match getFreePage m with
        | none => none
        | some (0, m) => some (false, m)
        | some (tt, m) =>
          match copyEntries ft tt nr 0 (m.setDir toDir (some tt)) with
          | none => none
          | some (false, m) => some (false, m)
          | some (true, m) => copyTables nr size (fromDir + 1) (toDir + 1) m

/-- `copy_page_tables` from directory entry `fromDir` to `toDir`; `size` is in
pages.  Only the first 160 pages of the kernel are copied. -/
def copyPageTables (m : Mem) (fromDir toDir size : ℕ) : Option (Bool × Mem) :=
  copyTables (if fromDir = 0 then 160 else 1024) ((size + 1023) / 1024) fromDir toDir m

/-- The inner loop of `free_page_tables`: `nr` entries of table `t` from index
`i` on. -/
def freeEntries (t : ℕ) : ℕ → ℕ → Mem → Option Mem
  | 0, _, m => some m
  | nr + 1, i, m =>
    match m.table t i with
    | .zero => freeEntries t nr (i + 1) m
    | .swap n => freeEntries t nr (i + 1) ((swapFree m n).setEntry t i .zero)
    | .page p _ _ =>
      match freePage m p with
      | none => none
      | some m => freeEntries t nr (i + 1) (m.setEntry t i .zero)

/-- The outer loop of `free_page_tables`, over `size` directory entries. -/
def freeTables : ℕ → ℕ → Mem → Option Mem
  | 0, _, m => some m
  | size + 1, dir, m =>
    match m.pgDir dir with
    | none => freeTables size (dir + 1) m
    | some t =>
      match freeEntries t 1024 0 m with
      | none => none
      | some m =>
        match freePage m t with
        | none => none
        | some m => freeTables size (dir + 1) (m.setDir dir none)

/-- `free_page_tables` from directory entry `dir`; `size` is in pages. -/
def freePageTables (m : Mem) (dir size : ℕ) : Option Mem :=
  if dir = 0 then none else freeTables ((size + 1023) / 1024) dir m

/-! ### Copy on write and sharing -/

/-- `un_wp_page` on entry `i` of the page table in page `t`. -/
def unWpPage (m : Mem) (t i : ℕ) : Option (Ended × Mem) :=
  match m.table t i with
  | .page old _ dirty =>
    if lowMem ≤ old ∧ m.memMap (mapNr old) = 1 then
      some (.returned, m.setEntry t i (.page old true dirty))
    else
      match getFreePage m with
      | none => none
      | some (0, m) => some (.oom, m)
      | some (new, m) =>
        let m := if lowMem ≤ old then m.setMap (mapNr old) (m.memMap (mapNr old) + 255) else m
        let m := m.setData new (m.data old)
        some (.returned, m.setEntry t i (.page new true false))
  -- called on present entries only
  | _ => some (.returned, m)

/-- How `try_to_share` ended: it returned 0 or 1, or `oom()` was called. -/
inductive Shared where
  | no
  | yes
  | oom
  deriving DecidableEq

/-- What `try_to_share` does once the table of the running process is there;
`page` is the frame it read from the other entry before. -/
def shareEntry (m : Mem) (fromTable toTable i page : ℕ) : Option (Shared × Mem) :=
  match m.table toTable i with
  | .page _ _ _ => none
  | _ =>
    let m := match m.table fromTable i with
      | .page p _ dirty => m.setEntry fromTable i (.page p false dirty)
      -- the entry was clean, so `swap_out` can only have zeroed it
      | _ => m
    let m := m.setEntry toTable i (m.table fromTable i)
    some (.yes, m.setMap (mapNr page) (m.memMap (mapNr page) + 1))

/-- `try_to_share`: `fromDir` and `toDir` are the directory entries of the
address in the other and in the running process, `i` its entry in both tables. -/
def tryToShare (m : Mem) (fromDir toDir i : ℕ) : Option (Shared × Mem) :=
  match m.pgDir fromDir with
  | none => some (.no, m)
  | some fromTable =>
    match m.table fromTable i with
    | .page page _ false =>
      if m.highMemory ≤ page ∨ page < lowMem then some (.no, m)
      else match m.pgDir toDir with
        | some toTable => shareEntry m fromTable toTable i page
        | none =>
          match getFreePage m with
          | none => none
          | some (0, m) => some (.oom, m)
          | some (toTable, m) =>
            shareEntry (m.setDir toDir (some toTable)) fromTable toTable i page
    | _ => some (.no, m)

/-! ### Swapping in -/

/-- `swap_in` on entry `i` of the page table in page `t`. -/
def swapIn (m : Mem) (t i : ℕ) : Option (Ended × Mem) :=
  match m.swapBitmap with
  | none => some (.returned, m)
  | some _ =>
    match m.table t i with
    | .page _ _ _ => some (.returned, m)
    | .zero => some (.returned, m)
    | .swap 0 => some (.returned, m)
    | .swap n =>
      match getFreePage m with
      | none => none
      | some (0, m) => some (.oom, m)
      | some (page, m) =>
        let m := m.setData page (m.swapDev n)
        let m := { m with swapBitmap := m.swapBitmap.map fun bits => Function.update bits n true }
        some (.returned, m.setEntry t i (.page page true true))

end Mm
