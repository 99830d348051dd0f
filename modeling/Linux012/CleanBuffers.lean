/-
Dirty buffers and devices without a driver (`getblk`, `sync_dev` and what they call in
fs/buffer.c, `ll_rw_block` of kernel/blk_drv/ll_rw_blk.c, `sync_inodes`, `read_inode` and
`write_inode` of fs/inode.c, `block_write` and `block_read` of fs/block_dev.c).

* `Cache` — the buffer heads, the free list, the inodes and the mounted devices;
* `getblk`, `syncDev`, `syncInodes` — with what a caller that holds the lock of an inode
  can do of them;
* `step` — the calls that use buffers, each from one `getblk` to the next;
* `Careful` — no whole block is written to a device without a driver, no device number
  from `NR_BLK_DEV * 256` on is used, and where only dirty buffers are left there is room
  for the inodes that are written first;
* `Inv`, `writeOut_clean` — what is dirty is on a device with a driver, and the loop of
  `sync_dev` cleans it.

Design notes: what a call does between two `getblk` is one step, and another process runs
only between steps; which requests end while a call waits, how they end and whether the
request table is full are inputs.  `b_count` does not wrap.  `sync_dev` waits for every
inode, so that it never returns to a caller that has locked one.  The bytes, and the
results of the calls, are left out.
-/
import Linux012.Runs
import Linux012.Counting
import Mathlib.Data.Int.Notation
import Mathlib.Data.Finset.Option
import Mathlib.Data.Finset.Union

namespace Fs.Cleaning

open Function (update)

/-- `NR_BLK_DEV`. -/
def nrBlkDev : ℕ := 7

/-- `NR_INODE`. -/
def nrInode : ℕ := 64

/-- `BLOCK_SIZE`. -/
def blockSize : ℕ := 1024

/-- `MAJOR`. -/
def major (dev : ℕ) : ℕ := dev / 256

/-- `MINOR`. -/
def minor (dev : ℕ) : ℕ := dev % 256

/-- The commands of `ll_rw_block`. -/
inductive Rw where
  | read
  | write
  | readA
  | writeA
  deriving DecidableEq

def Rw.ahead : Rw → Bool
  | .readA | .writeA => true
  | .read | .write => false

def Rw.writes : Rw → Bool
  | .write | .writeA => true
  | .read | .readA => false

/-- Ways not to come back. -/
inductive Stop where
  | panic
  /-- all buffers are in use: `sleep_on(&buffer_wait)` -/
  | noBuffer
  /-- `sync_inodes` waits for the inode that its own caller has locked -/
  | ownInode
  /-- `blk_size` is read past its end -/
  | wild
  /-- a loop goes on -/
  | forever
  deriving DecidableEq

/-- `struct buffer_head`. -/
structure Head where
  dev : ℕ
  blocknr : ℤ
  uptodate : Bool
  dirt : Bool
  lock : Bool
  count : ℕ

/-- `struct m_inode`. -/
structure MInode where
  dev : ℕ
  num : ℕ
  dirt : Bool
  pipe : Bool

/-- `struct super_block`. -/
structure Maps where
  imapBlocks : ℕ
  zmapBlocks : ℕ

/-- The buffer cache, and what is written through it. -/
structure Cache where
  head : ℕ → Head
  /-- from `free_list` on -/
  free : List ℕ
  inode : ℕ → MInode
  super : ℕ → Option Maps
  /-- how often something has been waited for -/
  waits : ℕ

/-- The size of the cache, the drivers, and how the requests end. -/
structure Machine where
  nrBuffers : ℕ
  /-- `request_fn` is set, by major number -/
  driver : ℕ → Bool
  blkSize : ℕ → Option (ℕ → ℤ)
  /-- the requests that end while something is waited for -/
  ends : ℕ → List (ℕ × Bool)
  /-- how the one ends that is waited for -/
  ok : ℕ → Bool
  /-- no slot of the request table is free -/
  full : ℕ → Bool

/-- The device has a driver. -/
def Machine.served (m : Machine) (dev : ℕ) : Bool :=
  !(decide (nrBlkDev ≤ major dev) || !m.driver (major dev))

/-- `blk_size[MAJOR(dev)]`, and in it `MINOR(dev)`. -/
def Machine.sizeOf (m : Machine) (dev : ℕ) : Except Stop ℤ :=
  if nrBlkDev ≤ major dev then .error .wild
  else .ok (match m.blkSize (major dev) with
    | some size => size (minor dev)
    | none => 0x7fffffff)

namespace Cache

def setHead (s : Cache) (b : ℕ) (h : Head) : Cache := { s with head := update s.head b h }

/-- `end_request`, on a buffer with a request. -/
def endRequest (s : Cache) (b : ℕ) (ok : Bool) : Cache :=
  if (s.head b).lock then s.setHead b { s.head b with uptodate := ok, lock := false } else s

/-- The interrupts while a process sleeps. -/
def interrupts (m : Machine) (s : Cache) : Cache :=
  { (m.ends s.waits).foldl (fun s x => s.endRequest x.1 x.2) s with waits := s.waits + 1 }

/-- `wait_on_buffer`. -/
def waitOnBuffer (m : Machine) (s : Cache) (b : ℕ) : Cache :=
  if (s.head b).lock then (s.interrupts m).endRequest b (m.ok s.waits) else s

/-- `add_request`: the buffer is locked until the request ends. -/
def addRequest (s : Cache) (b : ℕ) : Cache :=
  s.setHead b { s.head b with dirt := false, lock := true }

/-- `make_request`. -/
def makeRequest (m : Machine) (s : Cache) (rw : Rw) (b : ℕ) : Cache :=
  if rw.ahead && (s.head b).lock then s
  else
    let s := s.waitOnBuffer m b
    if (rw.writes && !(s.head b).dirt) || (!rw.writes && (s.head b).uptodate) then s
    else if m.full s.waits then
      if rw.ahead then { s with waits := s.waits + 1 }
      else (s.interrupts m).addRequest b
    else s.addRequest b

/-- `ll_rw_block`: without a driver, a message is printed and nothing happens. -/
def llRwBlock (m : Machine) (s : Cache) (rw : Rw) (b : ℕ) : Cache :=
  if m.served (s.head b).dev then s.makeRequest m rw b else s

/-- `find_buffer`; a buffer of no device is in no hash queue. -/
def findBuffer (m : Machine) (s : Cache) (dev : ℕ) (block : ℤ) : Option ℕ :=
  if dev = 0 then none
  else (List.range m.nrBuffers).find? fun b =>
    (s.head b).dev == dev && (s.head b).blocknr == block

def setCount (s : Cache) (b count : ℕ) : Cache :=
  s.setHead b { s.head b with count := count }

/-- `brelse`. -/
def brelse (m : Machine) (s : Cache) (b : ℕ) : Except Stop Cache :=
  let s := s.waitOnBuffer m b
  if (s.head b).count = 0 then .error .panic
  else .ok (s.setCount b ((s.head b).count - 1))

/-- `BADNESS`. -/
def badness (s : Cache) (b : ℕ) : ℕ :=
  2 * (s.head b).dirt.toNat + (s.head b).lock.toNat

/-- The search of `getblk` through the free list, for an unused buffer. -/
def search (s : Cache) : Option ℕ → List ℕ → Option ℕ
  | bh, [] => bh
  | bh, tmp :: l =>
    if (s.head tmp).count ≠ 0 then s.search bh l
    else if bh.all fun bh => decide (s.badness tmp < s.badness bh) then
      if s.badness tmp = 0 then some tmp else s.search (some tmp) l
    else s.search bh l

/-- The end of `getblk`: the buffer is used for another block. -/
def take (s : Cache) (b dev : ℕ) (block : ℤ) : Cache :=
  { s with
    head := update s.head b { s.head b with
      dev := dev, blocknr := block, uptodate := false, dirt := false, count := 1 }
    free := s.free.erase b ++ [b] }

/-- `while (bh->b_dirt)` of `getblk`; true is `goto repeat`. -/
def clean (m : Machine) (syncDev : Cache → ℕ → Except Stop Cache) (b : ℕ) :
    ℕ → Cache → Except Stop (Bool × Cache)
  | 0, _ => .error .forever
  | fuel + 1, s =>
    if (s.head b).dirt then do
      let s ← syncDev s (s.head b).dev
      let s := s.waitOnBuffer m b
      if (s.head b).count ≠ 0 then .ok (true, s) else clean m syncDev b fuel s
    else .ok (false, s)

/-- `getblk`, with `sync_dev` as its caller can call it. -/
def getblk (m : Machine) (syncDev : Cache → ℕ → Except Stop Cache) (dev : ℕ) (block : ℤ) :
    ℕ → Cache → Except Stop (ℕ × Cache)
  | 0, _ => .error .forever
  | fuel + 1, s =>
    match s.findBuffer m dev block with
    | some b =>
      -- `get_hash_table`
      let s := (s.setCount b ((s.head b).count + 1)).waitOnBuffer m b
      if (s.head b).dev = dev ∧ (s.head b).blocknr = block then .ok (b, s)
      else getblk m syncDev dev block fuel (s.setCount b ((s.head b).count - 1))
    | none =>
      match s.search none s.free with
      | none => .error .noBuffer
      | some b =>
        let s := s.waitOnBuffer m b
        if (s.head b).count ≠ 0 then getblk m syncDev dev block fuel s
        else do
          let (again, s) ← clean m syncDev b fuel s
          if again || (s.findBuffer m dev block).isSome then
            getblk m syncDev dev block fuel s
          else .ok (b, s.take b dev block)

/-- `bread` from `ll_rw_block` on. -/
def breadWait (m : Machine) (s : Cache) (b : ℕ) : Except Stop (Bool × Cache) :=
  let s := s.waitOnBuffer m b
  if (s.head b).uptodate then .ok (true, s)
  else do
    let s ← s.brelse m b
    .ok (false, s)

/-- `bread` after `getblk`. -/
def breadFrom (m : Machine) (s : Cache) (b : ℕ) : Except Stop (Bool × Cache) :=
  if (s.head b).uptodate then .ok (true, s) else (s.llRwBlock m .read b).breadWait m b

/-- `bread`, and no buffer where the block is unreadable. -/
def bread (m : Machine) (syncDev : Cache → ℕ → Except Stop Cache) (fuel : ℕ) (s : Cache)
    (dev : ℕ) (block : ℤ) : Except Stop (Option ℕ × Cache) := do
  let (b, s) ← getblk m syncDev dev block fuel s
  let (found, s) ← s.breadFrom m b
  .ok (if found then some b else none, s)

/-- `sync_dev` called with an inode locked. -/
def syncLocked (_ : Cache) (_ : ℕ) : Except Stop Cache := .error .ownInode

/-- The block of an inode on its device; none if it is not mounted. -/
def inodeBlock (s : Cache) (i : ℕ) : Option ℤ :=
  (s.super (s.inode i).dev).map fun sb =>
    2 + sb.imapBlocks + sb.zmapBlocks + (((s.inode i).num : ℤ) - 1) % 2 ^ 32 / 32

def setInode (s : Cache) (i : ℕ) (inode : MInode) : Cache :=
  { s with inode := update s.inode i inode }

/-- The buffer has been changed. -/
def setDirt (s : Cache) (b : ℕ) : Cache := s.setHead b { s.head b with dirt := true }

/-- The inode has been copied into its buffer. -/
def storeInode (s : Cache) (i b : ℕ) : Cache :=
  (s.setDirt b).setInode i { s.inode i with dirt := false }

/-- `write_inode`. -/
def writeInode (m : Machine) (fuel : ℕ) (s : Cache) (i : ℕ) : Except Stop Cache :=
  if !(s.inode i).dirt || (s.inode i).dev == 0 then .ok s
  else
    match s.inodeBlock i with
    | none => .error .panic
    | some block => do
      match ← s.bread m syncLocked fuel (s.inode i).dev block with
      | (none, _) => .error .panic
      | (some b, s) => (s.storeInode i b).brelse m b

/-- `read_inode`; `node` is the device of a block special file. -/
def readInode (m : Machine) (fuel : ℕ) (s : Cache) (i : ℕ) (node : Option ℕ) :
    Except Stop Cache :=
  match s.inodeBlock i with
  | none => .error .panic
  | some block => do
    match ← s.bread m syncLocked fuel (s.inode i).dev block with
    | (none, _) => .error .panic
    | (some b, s) => do
      let s ← s.brelse m b
      match node with
      | none => .ok s
      | some zone => do
        let _ ← m.sizeOf zone
        .ok s

/-- `sync_inodes`, the inodes that are left. -/
def syncInodes (m : Machine) (fuel : ℕ) : List ℕ → Cache → Except Stop Cache
  | [], s => .ok s
  | i :: l, s => do
    let s ← if (s.inode i).dirt && !(s.inode i).pipe then s.writeInode m fuel i else .ok s
    syncInodes m fuel l s

/-- The loop over the buffers of the devices `p` in `sync_dev` and `sys_sync`. -/
def writeOut (m : Machine) (p : ℕ → Bool) : List ℕ → Cache → Cache
  | [], s => s
  | b :: l, s =>
    if p (s.head b).dev then
      let s := s.waitOnBuffer m b
      writeOut m p l
        (if p (s.head b).dev && (s.head b).dirt then s.llRwBlock m .write b else s)
    else writeOut m p l s

/-- `sync_dev`. -/
def syncDev (m : Machine) (fuel : ℕ) (s : Cache) (dev : ℕ) : Except Stop Cache := do
  let s := s.writeOut m (· == dev) (List.range m.nrBuffers)
  let s ← s.syncInodes m fuel (List.range nrInode)
  .ok (s.writeOut m (· == dev) (List.range m.nrBuffers))

/-- `sys_sync`. -/
def sysSync (m : Machine) (fuel : ℕ) (s : Cache) : Except Stop Cache := do
  let s ← s.syncInodes m fuel (List.range nrInode)
  .ok (s.writeOut m (fun _ => true) (List.range m.nrBuffers))

end Cache

/-! ### The calls -/

/-- `block_write` or `block_read` of what is left to do. -/
structure BlockCall where
  write : Bool
  dev : ℕ
  size : ℤ
  block : ℤ
  offset : ℕ
  count : ℕ

namespace BlockCall

/-- `chars`. -/
def chars (c : BlockCall) : ℕ := min (blockSize - c.offset) c.count

/-- The block is not read before it is written. -/
def whole (c : BlockCall) : Bool := c.write && c.chars == blockSize

/-- The call after a block has been copied. -/
def next (c : BlockCall) : BlockCall :=
  { c with block := c.block + 1, offset := 0, count := c.count - c.chars }

/-- The loop goes on to `getblk`. -/
def goes (c : BlockCall) : Bool := decide (0 < c.count) && decide (c.block < c.size)

/-- The blocks that `breada` reads ahead. -/
def aheads (c : BlockCall) : List ℤ :=
  [c.block + 1, c.block + 2].takeWhile fun block => decide (0 ≤ block)

end BlockCall

/-- A pointer to a buffer in some call, and where the call is. -/
inductive Use where
  | idle
  /-- `bread`, from `wait_on_buffer` on -/
  | reading (b : ℕ)
  /-- `bread` has returned the buffer -/
  | got (b : ℕ)
  /-- the loop of `block_write` or `block_read` -/
  | loop (c : BlockCall)
  /-- `breada`, with blocks to read ahead -/
  | ahead (c : BlockCall) (b : ℕ) (blocks : List ℤ)
  /-- the bytes are copied -/
  | copying (c : BlockCall) (b : ℕ)

/-- The buffer that is held. -/
def Use.buffer : Use → Option ℕ
  | .idle | .loop _ => none
  | .reading b | .got b | .ahead _ b _ | .copying _ b => some b

/-- The block that a call gets next. -/
def Use.asks : Use → Option (ℕ × ℤ)
  | .loop c => if c.goes then some (c.dev, c.block) else none
  | .ahead c _ (block :: _) => some (c.dev, block)
  | _ => none

/-- The cache, and its users. -/
structure State (U : Type) where
  cache : Cache
  use : U → Use

/-- What can happen. -/
inductive Event (U : Type) where
  /-- `bread`, up to `wait_on_buffer` -/
  | bread (u : U) (dev : ℕ) (block : ℤ)
  /-- the holder of a buffer that has been read changes it; and gives it back -/
  | modify (u : U)
  | release (u : U)
  /-- `block_write` and `block_read`, up to the loop -/
  | blockIo (u : U) (write : Bool) (dev : ℕ) (pos : ℤ) (count : ℕ)
  /-- a call goes on -/
  | go (u : U)
  /-- `new_block`, from `getblk` on, and `free_block` -/
  | newBlock (dev : ℕ) (block : ℤ)
  | freeBlock (dev : ℕ) (block : ℤ)
  /-- a super block has been read; and `put_super` -/
  | mount (u : U) (sb : Maps)
  | umount (dev : ℕ)
  /-- an inode gets into the table, clean; `i_dirt` is set -/
  | setInode (i dev num : ℕ) (pipe : Bool)
  | touchInode (i : ℕ)
  | readInode (i : ℕ) (node : Option ℕ)
  | writeInode (i : ℕ)
  | syncDev (dev : ℕ)
  | sync
  /-- `check_disk_change` of a changed disk -/
  | diskChange (dev : ℕ)
  | irq (b : ℕ) (ok : Bool)

namespace Cache

/-- `new_block`, from `getblk` on. -/
def newBlock (m : Machine) (fuel : ℕ) (s : Cache) (dev : ℕ) (block : ℤ) :
    Except Stop Cache :=
  match s.super dev with
  | none => .error .panic
  | some _ => do
    let (b, s) ← getblk m (syncDev m fuel) dev block fuel s
    if (s.head b).count ≠ 1 then .error .panic
    else ((s.setHead b { s.head b with uptodate := true }).setDirt b).brelse m b

/-- `free_block`, its buffer. -/
def freeBlock (m : Machine) (s : Cache) (dev : ℕ) (block : ℤ) : Except Stop Cache :=
  match s.super dev with
  | none => .error .panic
  | some _ =>
    match s.findBuffer m dev block with
    | none => .ok s
    | some b =>
      let s := (s.setCount b ((s.head b).count + 1)).waitOnBuffer m b
      if 1 < (s.head b).count then s.brelse m b
      else (s.setHead b { s.head b with uptodate := false, dirt := false }).brelse m b

/-- `invalidate_buffers`. -/
def invalidateBuffers (m : Machine) (dev : ℕ) : List ℕ → Cache → Cache
  | [], s => s
  | b :: l, s =>
    if (s.head b).dev = dev then
      let s := s.waitOnBuffer m b
      invalidateBuffers m dev l
        (if (s.head b).dev = dev then
          s.setHead b { s.head b with uptodate := false, dirt := false } else s)
    else invalidateBuffers m dev l s

/-- `invalidate_inodes`. -/
def invalidateInodes (s : Cache) (dev : ℕ) : Cache :=
  { s with
    inode := fun i =>
      if (s.inode i).dev = dev then { s.inode i with dev := 0, dirt := false } else s.inode i }

end Cache

namespace State

variable {U : Type} [DecidableEq U]

def set (s : State U) (u : U) (cache : Cache) (use : Use) : State U :=
  ⟨cache, update s.use u use⟩

/-- One iteration of the loop of `block_write` or `block_read`, up to the copying or to the
first block to read ahead. -/
def goLoop (m : Machine) (fuel : ℕ) (s : State U) (u : U) (c : BlockCall) :
    Except Stop (State U) :=
  if c.goes then do
    let (b, cache) ← s.cache.getblk m (Cache.syncDev m fuel) c.dev c.block fuel
    if c.whole then .ok (s.set u cache (.copying c b))
    else if (cache.head b).uptodate then .ok (s.set u cache (.ahead c b c.aheads))
    else .ok (s.set u (cache.llRwBlock m .read b) (.ahead c b c.aheads))
  else .ok (s.set u s.cache .idle)

/-- A call goes on. -/
def go (m : Machine) (fuel : ℕ) (s : State U) (u : U) : Except Stop (State U) :=
  match s.use u with
  | .idle | .got _ => .ok s
  | .reading b => do
    let (found, cache) ← s.cache.breadWait m b
    .ok (s.set u cache (if found then .got b else .idle))
  | .loop c => s.goLoop m fuel u c
  | .ahead c b (block :: l) => do
    let (tmp, cache) ← s.cache.getblk m (Cache.syncDev m fuel) c.dev block fuel
    let cache := if (cache.head tmp).uptodate then cache else cache.llRwBlock m .readA tmp
    .ok (s.set u (cache.setCount tmp ((cache.head tmp).count - 1)) (.ahead c b l))
  | .ahead c b [] => do
    let (found, cache) ← s.cache.breadWait m b
    .ok (s.set u cache (if found then .copying c b else .idle))
  | .copying c b => do
    let cache ← (if c.write then s.cache.setDirt b else s.cache).brelse m b
    .ok (s.set u cache (.loop c.next))

/-- `bread` up to `wait_on_buffer`. -/
def bread (m : Machine) (fuel : ℕ) (s : State U) (u : U) (dev : ℕ) (block : ℤ) :
    Except Stop (State U) := do
  let (b, cache) ← s.cache.getblk m (Cache.syncDev m fuel) dev block fuel
  if (cache.head b).uptodate then .ok (s.set u cache (.got b))
  else .ok (s.set u (cache.llRwBlock m .read b) (.reading b))

/-- What an event leads to; nothing happens where it does not fit. -/
def step (m : Machine) (fuel : ℕ) (s : State U) : Event U → Except Stop (State U)
  | .bread u dev block =>
    match s.use u with
    | .idle => s.bread m fuel u dev block
    | _ => .ok s
  | .modify u =>
    match s.use u with
    | .got b => .ok { s with cache := s.cache.setDirt b }
    | _ => .ok s
  | .release u =>
    match s.use u with
    | .got b => (s.cache.brelse m b).map fun cache => s.set u cache .idle
    | _ => .ok s
  | .blockIo u write dev pos count =>
    match s.use u with
    | .idle => (m.sizeOf dev).map fun size =>
      s.set u s.cache (.loop ⟨write, dev, size, pos / 1024, (pos % 1024).toNat, count⟩)
    | _ => .ok s
  | .go u => s.go m fuel u
  | .newBlock dev block => (s.cache.newBlock m fuel dev block).map fun cache => { s with cache }
  | .freeBlock dev block => (s.cache.freeBlock m dev block).map fun cache => { s with cache }
  | .mount u sb =>
    match s.use u with
    | .got b => .ok { s with cache := { s.cache with
        super := update s.cache.super (s.cache.head b).dev (some sb) } }
    | _ => .ok s
  | .umount dev => .ok { s with cache := { s.cache with super := update s.cache.super dev none } }
  | .setInode i dev num pipe =>
    if (s.cache.inode i).dirt then .ok s
    else .ok { s with cache := s.cache.setInode i ⟨dev, num, false, pipe⟩ }
  | .touchInode i =>
    .ok { s with cache := s.cache.setInode i { s.cache.inode i with dirt := true } }
  | .readInode i node => (s.cache.readInode m fuel i node).map fun cache => { s with cache }
  | .writeInode i => (s.cache.writeInode m fuel i).map fun cache => { s with cache }
  | .syncDev dev => (s.cache.syncDev m fuel dev).map fun cache => { s with cache }
  | .sync => (s.cache.sysSync m fuel).map fun cache => { s with cache }
  | .diskChange dev =>
    let cache := { s.cache with super := update s.cache.super dev none }
    .ok { s with
      cache := (cache.invalidateInodes dev).invalidateBuffers m dev (List.range m.nrBuffers) }
  | .irq b ok => .ok { s with cache := s.cache.endRequest b ok }

/-- After `buffer_init`. -/
structure Start (m : Machine) (s : State U) : Prop where
  free : ∀ b, b ∈ s.cache.free ↔ b < m.nrBuffers
  head : ∀ b, s.cache.head b = ⟨0, 0, false, false, false, 0⟩
  super : ∀ dev, s.cache.super dev = none
  use : ∀ u, s.use u = .idle

end State

/-- The kernel with its block devices. -/
def kernel (m : Machine) (U : Type) [DecidableEq U] : System (State U) (Event U) where
  init := State.Start m
  step s e s' := ∃ fuel, s.step m fuel e = .ok s'

/-! ### The condition -/

namespace Cache

/-- The buffers of a device are clean. -/
def cleaned (s : Cache) (dev : ℕ) : Cache :=
  { s with head := fun b =>
      if (s.head b).dev = dev then { s.head b with dirt := false } else s.head b }

/-- The unused buffers that are clean. -/
def spare (m : Machine) (s : Cache) : Finset ℕ :=
  (Finset.range m.nrBuffers).filter fun b => (s.head b).count = 0 ∧ (s.head b).dirt = false

/-- The block is in a buffer that is in use or dirty. -/
def Busy (m : Machine) (s : Cache) (k : ℕ × ℤ) : Prop :=
  ∃ b < m.nrBuffers, ((s.head b).dev, (s.head b).blocknr) = k ∧
    ((s.head b).count ≠ 0 ∨ (s.head b).dirt = true)

instance (m : Machine) (s : Cache) (k : ℕ × ℤ) : Decidable (s.Busy m k) :=
  inferInstanceAs (Decidable (∃ b < m.nrBuffers, _))

/-- The block that `sync_inodes` writes inode `i` to. -/
def toWrite (s : Cache) (i : ℕ) : Option (ℕ × ℤ) :=
  if (s.inode i).dirt && !(s.inode i).pipe && (s.inode i).dev != 0 then
    (s.inodeBlock i).map fun block => ((s.inode i).dev, block)
  else none

/-- The blocks for which `sync_inodes` needs a buffer. -/
def needed (m : Machine) (s : Cache) : Finset (ℕ × ℤ) :=
  ((Finset.range nrInode).biUnion fun i => (s.toWrite i).toFinset).filter fun k => ¬ s.Busy m k

/-- There are as many clean buffers as `sync_inodes` needs. -/
def Room (m : Machine) (s : Cache) : Prop := (s.needed m).card ≤ (s.spare m).card

/-- A dirty buffer is used for the block only if `ok` holds of its device. -/
def Supply (m : Machine) (s : Cache) (k : ℕ × ℤ) (ok : ℕ → Prop) : Prop :=
  match s.findBuffer m k.1 k.2, s.search none s.free with
  | none, some b => (s.head b).dirt = true → ok (s.head b).dev
  | _, _ => True

instance (m : Machine) (s : Cache) : Decidable (s.Room m) := inferInstanceAs (Decidable (_ ≤ _))

instance (m : Machine) (s : Cache) (k : ℕ × ℤ) (ok : ℕ → Prop) [DecidablePred ok] :
    Decidable (s.Supply m k ok) :=
  match hf : s.findBuffer m k.1 k.2, hs : s.search none s.free with
  | none, some b =>
    decidable_of_iff ((s.head b).dirt = true → ok (s.head b).dev) (by rw [Supply, hf, hs])
  | none, none => isTrue (by rw [Supply, hf, hs]; trivial)
  | some _, _ => isTrue (by rw [Supply, hf]; trivial)

/-- `getblk` finds room for the inodes if it has to call `sync_dev`. -/
def Clears (m : Machine) (s : Cache) (k : ℕ × ℤ) : Prop :=
  s.Supply m k fun dev => (s.cleaned dev).Room m

instance (m : Machine) (s : Cache) (k : ℕ × ℤ) : Decidable (s.Clears m k) :=
  inferInstanceAs (Decidable (s.Supply m k fun dev => (s.cleaned dev).Room m))

/-- With an inode locked, `getblk` finds a clean buffer. -/
def Spares (m : Machine) (s : Cache) (k : ℕ × ℤ) : Prop := s.Supply m k fun _ => False

instance (m : Machine) (s : Cache) (k : ℕ × ℤ) : Decidable (s.Spares m k) :=
  inferInstanceAs (Decidable (s.Supply m k fun _ => False))

/-- The block that `read_inode` reads. -/
def inodeAt (s : Cache) (i : ℕ) : Option (ℕ × ℤ) :=
  (s.inodeBlock i).map fun block => ((s.inode i).dev, block)

end Cache

/-- The condition on a step. -/
def Careful (m : Machine) {U : Type} (s : State U) : Event U → Prop
  | .blockIo _ write dev pos count => major dev < nrBlkDev ∧
    (m.served dev = false → write = true → pos % 1024 ≠ 0 ∨ count < blockSize)
  | .readInode i node => (∀ zone ∈ node, major zone < nrBlkDev) ∧
    ∀ k ∈ s.cache.inodeAt i, s.cache.Spares m k
  | .bread _ dev block | .newBlock dev block => s.cache.Clears m (dev, block)
  | .go u => ∀ k ∈ (s.use u).asks, s.cache.Clears m k
  | .writeInode i => (s.cache.inode i).dirt = true → (s.cache.inode i).dev ≠ 0 →
    ∀ k ∈ s.cache.inodeAt i, s.cache.Spares m k
  | .syncDev dev => (s.cache.cleaned dev).Room m
  | .sync => s.cache.Room m
  | _ => True

instance (m : Machine) {U : Type} (s : State U) : (e : Event U) → Decidable (Careful m s e)
  | .blockIo _ _ _ _ _ => inferInstanceAs (Decidable (_ ∧ (_ → _ → _)))
  | .readInode i node => inferInstanceAs (Decidable ((∀ zone ∈ node, major zone < nrBlkDev) ∧
    ∀ k ∈ s.cache.inodeAt i, s.cache.Spares m k))
  | .bread _ dev block | .newBlock dev block =>
    inferInstanceAs (Decidable (s.cache.Clears m (dev, block)))
  | .go u => inferInstanceAs (Decidable (∀ k ∈ (s.use u).asks, s.cache.Clears m k))
  | .writeInode i => inferInstanceAs (Decidable ((s.cache.inode i).dirt = true →
    (s.cache.inode i).dev ≠ 0 → ∀ k ∈ s.cache.inodeAt i, s.cache.Spares m k))
  | .syncDev dev => inferInstanceAs (Decidable ((s.cache.cleaned dev).Room m))
  | .sync => inferInstanceAs (Decidable (s.cache.Room m))
  | .modify _ | .release _ | .freeBlock _ _ | .mount _ _ | .umount _ | .setInode _ _ _ _
  | .touchInode _ | .diskChange _ | .irq _ _ => isTrue trivial

/-! ### Waiting and requests -/

namespace Cache

variable {m : Machine} {s s' s'' : Cache} {b b' : ℕ} {rw : Rw}

/-- What waiting for requests, and making them, can change. -/
structure Mild (m : Machine) (s s' : Cache) : Prop where
  free : s'.free = s.free
  inode : s'.inode = s.inode
  super : s'.super = s.super
  dev : ∀ b, (s'.head b).dev = (s.head b).dev
  blocknr : ∀ b, (s'.head b).blocknr = (s.head b).blocknr
  count : ∀ b, (s'.head b).count = (s.head b).count
  dirt : ∀ b, (s'.head b).dirt = true → (s.head b).dirt = true
  live : ∀ b, (s'.head b).lock = true ∨ (s'.head b).uptodate = true →
    (s.head b).lock = true ∨ (s.head b).uptodate = true ∨ m.served (s.head b).dev = true

namespace Mild

theorem refl (s : Cache) : Mild m s s where
  free := rfl
  inode := rfl
  super := rfl
  dev _ := rfl
  blocknr _ := rfl
  count _ := rfl
  dirt _ h := h
  live _ h := h.imp_right Or.inl

theorem trans (h : Mild m s s') (h' : Mild m s' s'') : Mild m s s'' where
  free := h'.free.trans h.free
  inode := h'.inode.trans h.inode
  super := h'.super.trans h.super
  dev b := (h'.dev b).trans (h.dev b)
  blocknr b := (h'.blocknr b).trans (h.blocknr b)
  count b := (h'.count b).trans (h.count b)
  dirt b hd := h.dirt b (h'.dirt b hd)
  live b hl := by
    rcases h'.live b hl with hl | hl | hl
    · exact h.live b (.inl hl)
    · exact h.live b (.inr hl)
    · rw [h.dev b] at hl
      exact .inr (.inr hl)

/-- One buffer changes its flags. -/
theorem setHead {h : Head} (hdev : h.dev = (s.head b).dev)
    (hnr : h.blocknr = (s.head b).blocknr) (hcount : h.count = (s.head b).count)
    (hdirt : h.dirt = true → (s.head b).dirt = true)
    (hlive : h.lock = true ∨ h.uptodate = true →
      (s.head b).lock = true ∨ (s.head b).uptodate = true ∨ m.served (s.head b).dev = true) :
    Mild m s (s.setHead b h) := by
  have hoff : ∀ x, x ≠ b → (s.setHead b h).head x = s.head x := fun x hx =>
    Function.update_of_ne hx _ _
  have hat : (s.setHead b h).head b = h := Function.update_self _ _ _
  refine ⟨rfl, rfl, rfl, fun x => ?_, fun x => ?_, fun x => ?_, fun x => ?_, fun x => ?_⟩ <;>
    by_cases hx : x = b
  · rw [hx, hat, hdev]
  · rw [hoff x hx]
  · rw [hx, hat, hnr]
  · rw [hoff x hx]
  · rw [hx, hat, hcount]
  · rw [hoff x hx]
  · rw [hx, hat]
    exact hdirt
  · rw [hoff x hx]
    exact id
  · rw [hx, hat]
    exact hlive
  · rw [hoff x hx]
    exact fun h => h.imp_right Or.inl

end Mild

@[simp] theorem setHead_head_self (s : Cache) (b : ℕ) (h : Head) :
    (s.setHead b h).head b = h := Function.update_self _ _ _

theorem setHead_head_ne (s : Cache) (h : Head) (hb : b' ≠ b) :
    (s.setHead b h).head b' = s.head b' := Function.update_of_ne hb _ _

theorem endRequest_mild (s : Cache) (b : ℕ) (ok : Bool) : Mild m s (s.endRequest b ok) := by
  rw [endRequest]
  by_cases hl : (s.head b).lock = true
  · rw [if_pos hl]
    exact .setHead rfl rfl rfl id fun _ => .inl hl
  · rw [if_neg hl]
    exact .refl s

@[simp] theorem endRequest_dirt (s : Cache) (b : ℕ) (ok : Bool) (x : ℕ) :
    ((s.endRequest b ok).head x).dirt = (s.head x).dirt := by
  rw [endRequest]
  split
  · by_cases hx : x = b
    · rw [hx, setHead_head_self]
    · rw [setHead_head_ne s _ hx]
  · rfl

theorem ends_mild (l : List (ℕ × Bool)) (s : Cache) :
    Mild m s (l.foldl (fun s x => s.endRequest x.1 x.2) s) := by
  induction l generalizing s with
  | nil => exact .refl s
  | cons x l ih => exact (endRequest_mild s x.1 x.2).trans (ih _)

theorem ends_dirt (l : List (ℕ × Bool)) (s : Cache) (x : ℕ) :
    ((l.foldl (fun s x => s.endRequest x.1 x.2) s).head x).dirt = (s.head x).dirt := by
  induction l generalizing s with
  | nil => rfl
  | cons y l ih => rw [List.foldl_cons, ih, endRequest_dirt]

theorem interrupts_mild (s : Cache) : Mild m s (s.interrupts m) :=
  have h := ends_mild (m := m) (m.ends s.waits) s
  ⟨h.free, h.inode, h.super, h.dev, h.blocknr, h.count, h.dirt, h.live⟩

@[simp] theorem interrupts_dirt (s : Cache) (x : ℕ) :
    ((s.interrupts m).head x).dirt = (s.head x).dirt := ends_dirt _ s x

theorem waitOnBuffer_mild (s : Cache) (b : ℕ) : Mild m s (s.waitOnBuffer m b) := by
  rw [waitOnBuffer]
  split
  · exact (interrupts_mild s).trans (endRequest_mild _ b _)
  · exact .refl s

@[simp] theorem waitOnBuffer_dirt (s : Cache) (b x : ℕ) :
    ((s.waitOnBuffer m b).head x).dirt = (s.head x).dirt := by
  rw [waitOnBuffer]
  split
  · rw [endRequest_dirt, interrupts_dirt]
  · rfl

theorem waitOnBuffer_lock (s : Cache) (b : ℕ) : ((s.waitOnBuffer m b).head b).lock = false := by
  rw [waitOnBuffer]
  by_cases hl : (s.head b).lock = true
  · rw [if_pos hl, endRequest]
    by_cases hl' : ((s.interrupts m).head b).lock = true
    · rw [if_pos hl', setHead_head_self]
    · rw [if_neg hl']
      exact Bool.eq_false_iff.mpr hl'
  · rw [if_neg hl]
    exact Bool.eq_false_iff.mpr hl

theorem addRequest_mild (h : m.served (s.head b).dev = true) : Mild m s (s.addRequest b) :=
  .setHead rfl rfl rfl nofun fun _ => .inr (.inr h)

theorem addRequest_dirt_ne (s : Cache) (hb : b' ≠ b) :
    ((s.addRequest b).head b').dirt = (s.head b').dirt := by
  rw [addRequest, setHead_head_ne s _ hb]

theorem makeRequest_mild (h : m.served (s.head b).dev = true) :
    Mild m s (s.makeRequest m rw b) := by
  rw [makeRequest]
  split
  · exact .refl s
  have hw := waitOnBuffer_mild (m := m) s b
  have hserved : m.served ((s.waitOnBuffer m b).head b).dev = true := by
    rw [hw.dev]
    exact h
  dsimp only
  split
  · exact hw
  split
  · split
    · exact ⟨hw.free, hw.inode, hw.super, hw.dev, hw.blocknr, hw.count, hw.dirt, hw.live⟩
    · have hi := interrupts_mild (m := m) (s.waitOnBuffer m b)
      refine hw.trans (hi.trans (addRequest_mild ?_))
      rw [hi.dev]
      exact hserved
  · exact hw.trans (addRequest_mild hserved)

theorem makeRequest_dirt_ne (s : Cache) (rw : Rw) (hb : b' ≠ b) :
    ((s.makeRequest m rw b).head b').dirt = (s.head b').dirt := by
  rw [makeRequest]
  split
  · rfl
  dsimp only
  split
  · exact waitOnBuffer_dirt s b b'
  split
  · split
    · exact waitOnBuffer_dirt s b b'
    · rw [addRequest_dirt_ne _ hb, interrupts_dirt, waitOnBuffer_dirt]
  · rw [addRequest_dirt_ne _ hb, waitOnBuffer_dirt]

/-- A buffer that is written is clean as soon as its request is queued. -/
theorem makeRequest_write (s : Cache) (b : ℕ) :
    ((s.makeRequest m .write b).head b).dirt = false := by
  have hadd : ∀ s : Cache, ((s.addRequest b).head b).dirt = false := fun s => by
    rw [addRequest, setHead_head_self]
  rw [makeRequest, if_neg (by simp [Rw.ahead])]
  dsimp only
  split
  case isTrue h => simpa [Rw.writes] using h
  case isFalse h =>
    split
    · exact hadd _
    · exact hadd _

theorem llRwBlock_mild (s : Cache) (rw : Rw) (b : ℕ) : Mild m s (s.llRwBlock m rw b) := by
  rw [llRwBlock]
  split
  case isTrue h => exact makeRequest_mild h
  case isFalse => exact .refl s

theorem llRwBlock_dirt_ne (s : Cache) (rw : Rw) (hb : b' ≠ b) :
    ((s.llRwBlock m rw b).head b').dirt = (s.head b').dirt := by
  rw [llRwBlock]
  split
  · exact makeRequest_dirt_ne s rw hb
  · rfl

theorem llRwBlock_write (h : m.served (s.head b).dev = true) :
    ((s.llRwBlock m .write b).head b).dirt = false := by
  rw [llRwBlock, if_pos h]
  exact makeRequest_write s b

/-! ### The invariant -/

/-- What is dirty, read or being read is on a device with a driver. -/
structure Inv (m : Machine) (s : Cache) : Prop where
  live : ∀ b, (s.head b).dirt = true ∨ (s.head b).lock = true ∨ (s.head b).uptodate = true →
    m.served (s.head b).dev = true
  super : ∀ dev sb, s.super dev = some sb → m.served dev = true
  free : ∀ b, b ∈ s.free ↔ b < m.nrBuffers
  unique : ∀ b b', b < m.nrBuffers → b' < m.nrBuffers → (s.head b).dev ≠ 0 →
    (s.head b).dev = (s.head b').dev → (s.head b).blocknr = (s.head b').blocknr → b = b'

theorem Mild.inv (h : Mild m s s') (hi : Inv m s) : Inv m s' where
  live b hb := by
    rw [h.dev b]
    rcases hb with hb | hb
    · exact hi.live b (.inl (h.dirt b hb))
    · rcases h.live b hb with hl | hl | hl
      · exact hi.live b (.inr (.inl hl))
      · exact hi.live b (.inr (.inr hl))
      · exact hl
  super := by
    rw [h.super]
    exact hi.super
  free := by
    rw [h.free]
    exact hi.free
  unique b b' hb hb' := by
    rw [h.dev b, h.dev b', h.blocknr b, h.blocknr b']
    exact hi.unique b b' hb hb'

/-! ### The loop of `sync_dev` over the buffers -/

variable {p : ℕ → Bool}

/-- One buffer of the loop. -/
def writeOne (m : Machine) (p : ℕ → Bool) (s : Cache) (b : ℕ) : Cache :=
  if p (s.head b).dev then
    let s := s.waitOnBuffer m b
    if p (s.head b).dev && (s.head b).dirt then s.llRwBlock m .write b else s
  else s

theorem writeOut_eq (l : List ℕ) (s : Cache) :
    s.writeOut m p l = l.foldl (fun s b => s.writeOne m p b) s := by
  induction l generalizing s with
  | nil => rfl
  | cons b l ih =>
    rw [writeOut, List.foldl_cons, writeOne]
    split
    · exact ih _
    · exact ih _

theorem writeOne_mild (s : Cache) (b : ℕ) : Mild m s (s.writeOne m p b) := by
  rw [writeOne]
  split
  · have hw := waitOnBuffer_mild (m := m) s b
    dsimp only
    split
    · exact hw.trans (llRwBlock_mild _ _ _)
    · exact hw
  · exact .refl s

theorem writeOne_dirt_ne (s : Cache) (h : b' ≠ b) :
    ((s.writeOne m p b).head b').dirt = (s.head b').dirt := by
  rw [writeOne]
  split
  · dsimp only
    split
    · rw [llRwBlock_dirt_ne _ _ h, waitOnBuffer_dirt]
    · exact waitOnBuffer_dirt s b b'
  · rfl

theorem writeOne_dirt_off (h : p (s.head b').dev = false) :
    ((s.writeOne m p b).head b').dirt = (s.head b').dirt := by
  by_cases hb : b' = b
  · rw [writeOne, if_neg]
    rw [← hb, h]
    exact Bool.false_ne_true
  · exact writeOne_dirt_ne s hb

theorem writeOne_clean (hi : Inv m s) (h : p (s.head b).dev = true) :
    ((s.writeOne m p b).head b).dirt = false := by
  have hw := waitOnBuffer_mild (m := m) s b
  rw [writeOne, if_pos h]
  dsimp only
  by_cases hd : ((s.waitOnBuffer m b).head b).dirt = true
  · rw [if_pos (by rw [hw.dev b, h, hd]; rfl)]
    exact llRwBlock_write ((hw.inv hi).live b (.inl hd))
  · rw [if_neg fun h => hd (Bool.and_eq_true_iff.mp h).2]
    exact Bool.eq_false_iff.mpr hd

theorem writeOut_mild (l : List ℕ) (s : Cache) : Mild m s (s.writeOut m p l) := by
  rw [writeOut_eq]
  induction l generalizing s with
  | nil => exact .refl s
  | cons b l ih => exact (writeOne_mild s b).trans (ih _)

theorem writeOut_dirt_off (l : List ℕ) (h : p (s.head b').dev = false) :
    ((s.writeOut m p l).head b').dirt = (s.head b').dirt := by
  rw [writeOut_eq]
  induction l generalizing s with
  | nil => rfl
  | cons b l ih =>
    have hdev := (writeOne_mild (m := m) (p := p) s b).dev b'
    rw [List.foldl_cons, ih (hdev ▸ h), writeOne_dirt_off h]

/-- The loop leaves no dirty buffer of its devices. -/
theorem writeOut_clean (hi : Inv m s) {l : List ℕ} (hb : b ∈ l)
    (h : p ((s.writeOut m p l).head b).dev = true) :
    ((s.writeOut m p l).head b).dirt = false := by
  rw [(writeOut_mild l s).dev b] at h
  induction l generalizing s with
  | nil => cases hb
  | cons x l ih =>
    have hx := writeOne_mild (m := m) (p := p) s x
    have heq : s.writeOut m p (x :: l) = (s.writeOne m p x).writeOut m p l := by
      rw [writeOut_eq, writeOut_eq, List.foldl_cons]
    rw [heq]
    rcases List.mem_cons.mp hb with rfl | hb
    · -- what is clean stays clean in the rest of the loop
      by_contra hc
      have hd := (writeOut_mild l (s.writeOne m p b)).dirt b (by simpa using hc)
      rw [writeOne_clean hi h] at hd
      cases hd
    · exact ih (hx.inv hi) hb (hx.dev b ▸ h)

/-! ### Room for the inodes -/

theorem busy_congr {k : ℕ × ℤ} (hdev : ∀ b, (s'.head b).dev = (s.head b).dev)
    (hnr : ∀ b, (s'.head b).blocknr = (s.head b).blocknr)
    (hcount : ∀ b, (s'.head b).count = (s.head b).count)
    (hdirt : ∀ b < m.nrBuffers, (s'.head b).dirt = (s.head b).dirt) :
    s'.Busy m k ↔ s.Busy m k := by
  refine exists_congr fun b => and_congr_right fun hb => ?_
  rw [hdev, hnr, hcount, hdirt b hb]

theorem toWrite_congr (hi : s'.inode = s.inode) (hs : s'.super = s.super) (i : ℕ) :
    s'.toWrite i = s.toWrite i := by
  rw [toWrite, toWrite, inodeBlock, inodeBlock, hi, hs]

/-- Room depends on the devices, the counts and what is dirty. -/
theorem room_congr (hi : s'.inode = s.inode) (hs : s'.super = s.super)
    (hdev : ∀ b, (s'.head b).dev = (s.head b).dev)
    (hnr : ∀ b, (s'.head b).blocknr = (s.head b).blocknr)
    (hcount : ∀ b, (s'.head b).count = (s.head b).count)
    (hdirt : ∀ b < m.nrBuffers, (s'.head b).dirt = (s.head b).dirt) :
    s'.Room m ↔ s.Room m := by
  have hneeded : s'.needed m = s.needed m := by
    rw [needed, needed]
    simp only [toWrite_congr hi hs, busy_congr hdev hnr hcount hdirt]
  have hspare : s'.spare m = s.spare m := by
    refine Finset.filter_congr fun b hb => ?_
    rw [hcount, hdirt b (Finset.mem_range.mp hb)]
  rw [Room, Room, hneeded, hspare]

theorem room_cleaned (hw : Mild m s s') (hd : ∀ b, (s'.head b).dirt = (s.head b).dirt)
    (dev : ℕ) : (s'.cleaned dev).Room m ↔ (s.cleaned dev).Room m := by
  refine room_congr hw.inode hw.super (fun b => ?_) (fun b => ?_) (fun b => ?_) fun b _ => ?_ <;>
    simp only [cleaned, hw.dev b] <;> split
  · rfl
  · exact hw.dev b
  · exact hw.blocknr b
  · exact hw.blocknr b
  · exact hw.count b
  · exact hw.count b
  · rfl
  · exact hd b

/-- After the first loop of `sync_dev` the buffers of its device are clean. -/
theorem room_writeOut {dev : ℕ} (hi : Inv m s) :
    (s.writeOut m (· == dev) (List.range m.nrBuffers)).Room m ↔ (s.cleaned dev).Room m := by
  have hw := writeOut_mild (m := m) (p := (· == dev)) (List.range m.nrBuffers) s
  have hhead : ∀ b, (s.cleaned dev).head b =
      if (s.head b).dev = dev then { s.head b with dirt := false } else s.head b := fun _ => rfl
  refine room_congr hw.inode hw.super (fun b => ?_) (fun b => ?_) (fun b => ?_) fun b hb => ?_
  · rw [hw.dev, hhead]
    split <;> rfl
  · rw [hw.blocknr, hhead]
    split <;> rfl
  · rw [hw.count, hhead]
    split <;> rfl
  · rw [hhead]
    by_cases hd : (s.head b).dev = dev
    · rw [if_pos hd]
      refine writeOut_clean hi (List.mem_range.mpr hb) ?_
      rw [hw.dev, hd]
      exact beq_self_eq_true dev
    · rw [if_neg hd]
      exact writeOut_dirt_off _ (beq_eq_false_iff_ne.mpr hd)

end Cache

end Fs.Cleaning
