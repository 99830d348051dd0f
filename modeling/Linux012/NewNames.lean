/-
The calls that make names (`sys_mknod`, `sys_mkdir`, `sys_symlink`, `sys_link` and `open_namei`
of fs/namei.c), with the inodes and blocks that they take.

* `Volumes` — inodes, the bitmaps, and the zones and blocks of the mounted devices;
* `newInode`, `addEntry`, `iput` — what the calls are made of;
* `NameCall.run` — the calls, with every exit.

Design notes: what the look-up of a path reads is `Volumes.disks`, for `Namei.lean`.  Directories
and links are the words of their blocks.  `get_empty_inode` finds an entry, or panics before
anything is changed.  Times and `i_dirt` are left out, and `sync_dev`.  `i_zone[0]` of a special
file, which is no block, is `rdev`.
-/
import Linux012.Integrity
import Linux012.Truncate
import Linux012.Bitmaps

namespace Fs

open Function (update)

/-- The files of the mounted devices. -/
structure Volumes where
  node : InodeId → DInode
  /-- `i_zone[0]` of a special file -/
  rdev : InodeId → ℕ
  zones : ℕ → Zones
  /-- `s_imap`, where there is a buffer, and `s_ninodes` -/
  imap : ℕ → ℕ → Option (ℕ → Bool)
  nInodes : ℕ → ℕ
  nInodes_lt : ∀ dev, nInodes dev < 2 ^ 16
  inodeReadable : InodeId → Bool
  mountedDev : InodeId → Option ℕ
  imount : ℕ → Option InodeId
  /-- the references to an inode that are not of the call -/
  held : InodeId → ℕ

/-- What a call meets with. -/
structure Outside where
  /-- block `n` of a device can be read, at some point of the call -/
  ok : ℕ → ℕ → ℕ → Bool
  /-- the block that the call has just taken can be read -/
  fresh : Bool
  /-- the rounds of `truncate`, and how many of them are looked at -/
  rounds : ℕ → Round
  last : ℕ
  /-- `current->umask` -/
  umask : ℕ

/-- A call does not come back: a null pointer, `panic`, or `truncate` goes on. -/
inductive Halt where
  | null
  | panic
  | busy
  deriving DecidableEq

def Crash.halt : Crash → Halt
  | .null => .null
  | .panic => .panic

/-- What a call that comes back returns: an error, or an inode that it has opened. -/
abbrev Returned := Except ℕ (Option InodeId) × Volumes

namespace Volumes

variable (s : Volumes) (cur : Current) (o : Outside)

/-! ### Directory blocks -/

/-- Byte `k` of block `b`. -/
def byte (dev b k : ℕ) : ℕ := (s.zones dev).data b (k / 2) / 256 ^ (k % 2) % 256

/-- The bytes before the first zero. -/
def string (dev b pos len : ℕ) : Name :=
  (((List.range' pos len).map (s.byte dev b)).takeWhile (· ≠ 0)).map Char.ofNat

/-- Entry `i` of a directory block. -/
def dirEntry (dev b i : ℕ) : DirEntry where
  inode := (s.zones dev).data b (8 * i)
  name := s.string dev b (16 * i + 2) nameLen

/-- What the look-up of a path reads. -/
def disks (ok : ℕ → ℕ → Bool) : Disks where
  inode := s.node
  inodeReadable := s.inodeReadable
  bmap id k := ((s.zones id.1).bmap (ok id.1) id.2 k).getD 0
  createBlock id k := (((s.zones id.1).createBlock (ok id.1) id.2 k).map Prod.fst).getD 0
  readable := ok
  entry := s.dirEntry
  text dev b := s.string dev b 0 1024
  mountedDev := s.mountedDev
  imount := s.imount
  newInode _ := none

/-- The word of two bytes of a text. -/
def wordOf (text : Name) (j : ℕ) : ℕ :=
  ((text.map Char.toNat).getD (2 * j) 0) % 256 +
    256 * (((text.map Char.toNat).getD (2 * j + 1) 0) % 256)

def setZones (dev : ℕ) (z : Zones) : Volumes := { s with zones := update s.zones dev z }

def setNode (id : InodeId) (f : DInode → DInode) : Volumes :=
  { s with node := update s.node id (f (s.node id)) }

/-- The words of a block that `f` gives are stored. -/
def setData (dev b : ℕ) (f : ℕ → Option ℕ) : Volumes :=
  s.setZones dev { s.zones dev with
    data := update (s.zones dev).data b fun w => (f w).getD ((s.zones dev).data b w) }

/-- Entry `i` of a directory block. -/
def setEntry (dev b i num : ℕ) (name : Name) : Volumes :=
  s.setData dev b fun w =>
    if w / 8 = i then some (if w % 8 = 0 then num else wordOf (name.take nameLen) (w % 8 - 1))
    else none

/-! ### Inodes -/

/-- `new_inode`: the number, and the inode in memory. -/
def newInode (dev : ℕ) : Except Halt (Option ℕ × Volumes) :=
  if dev = 0 then .error .panic
  else
    match ((s.zones dev).bitMaps (s.nInodes dev) (s.imap dev) (s.nInodes_lt dev)).newInode true with
    | (.panics, _) => .error .panic
    | (.returns none, _) => .ok (none, s)
    | (.returns (some num), maps) => .ok (some num,
        { s.setZones dev { s.zones dev with zone := update (s.zones dev).zone num fun _ => 0 } with
          node := update s.node (dev, num) ⟨0, cur.euid, cur.egid, 1, 0⟩
          rdev := update s.rdev (dev, num) 0
          imap := update s.imap dev maps.imap
          held := update s.held (dev, num) 0 })

/-- `truncate`. -/
def truncate (id : InodeId) : Except Halt Volumes :=
  match Truncation.truncate o.rounds id.2 (s.node id).mode
      ⟨s.zones id.1, (s.node id).size, false, 0, 0, []⟩ o.last with
  | none => .error .panic
  | some (true, _) => .error .busy
  | some (false, t) =>
    .ok ((s.setZones id.1 t.zones).setNode id fun n => { n with size := t.size })

/-- `free_inode`. -/
def freeInode (id : InodeId) : Except Halt Volumes :=
  if id.2 < 1 ∨ s.nInodes id.1 < id.2 then .error .panic
  else
    match s.imap id.1 (id.2 / 8192) with
    | none => .error .panic
    | some bits => .ok
      { s.setZones id.1
          { s.zones id.1 with zone := update (s.zones id.1).zone id.2 fun _ => 0 } with
        node := update s.node id ⟨0, 0, 0, 0, 0⟩
        rdev := update s.rdev id 0
        imap := update s.imap id.1
          (update (s.imap id.1) (id.2 / 8192) (some (update bits (id.2 % 8192) false))) }

/-- `iput`. -/
def iput (id : InodeId) : Except Halt Volumes :=
  if id.1 = 0 ∨ s.held id ≠ 0 ∨ (s.node id).nlinks ≠ 0 then .ok s
  else do
    let s ← s.truncate o id
    s.freeInode id

/-- The inodes are put, and the call fails. -/
def fails (e : ℕ) : Volumes → List InodeId → Except Halt Returned
  | s, [] => .ok (.error e, s)
  | s, id :: ids => do
    let s ← s.iput o id
    fails e s ids

/-! ### Names -/

def permission (dir : InodeId) (mask : ℕ) : Bool := cur.permission dir (s.node dir) mask

/-- `dir_namei`, and `namei`. -/
def dirNamei (path : List Char) : Except Halt (Option InodeId) :=
  let fs := s.disks (o.ok 0)
  (fs.walkFrom cur (fs.follow cur) path none).mapError Crash.halt

def namei (path : List Char) : Except Halt (Option InodeId) :=
  let fs := s.disks (o.ok 1)
  (fs.resolve cur (fs.follow cur) path none true).mapError Crash.halt

/-- `find_entry`: the directory, and the entry. -/
def findEntry (dir : InodeId) (name : Name) : Except Halt (InodeId × Option DirEntry) :=
  (((s.disks (o.ok 2)).find cur dir name).map fun r => (r.1, r.2.map Prod.snd)).mapError Crash.halt

/-- The block of entry `i` of a directory, where that of the entry before is `block`. -/
def entryBlock (dir : InodeId) (i block : ℕ) : Except Halt (ℕ × Volumes) :=
  if i % dirEntriesPerBlock = 0 ∧ i ≠ 0 then
    match (s.zones dir.1).createBlock (o.ok (4 + i) dir.1) dir.2 (i / dirEntriesPerBlock) with
    | none => .error .panic
    | some (0, z) => .ok (0, s.setZones dir.1 z)
    -- `bread` fails, and `bh` is null
    | some (b, z) => if o.ok (4 + i) dir.1 b then .ok (b, s.setZones dir.1 z) else .error .null
  else .ok (block, s)

/-- The loop of `add_entry`, from entry `i` on, `left` of which are inside the directory, with
the store of the inode number; it tells whether there is an entry. -/
def addLoop (dir : InodeId) (num : ℕ) (name : Name) (left : ℕ) (s : Volumes) (i block : ℕ) :
    Except Halt (Bool × Volumes) := do
  let (block, s) ← s.entryBlock o dir i block
  if block = 0 then .ok (false, s)
  else
    match left with
    | 0 => .ok (true, (s.setNode dir fun n => { n with size := (i + 1) * 16 }).setEntry dir.1 block
        (i % dirEntriesPerBlock) num name)
    | left + 1 =>
      if (s.dirEntry dir.1 block (i % dirEntriesPerBlock)).inode = 0 then
        .ok (true, s.setEntry dir.1 block (i % dirEntriesPerBlock) num name)
      else addLoop dir num name left s (i + 1) block

/-- `add_entry`. -/
def addEntry (dir : InodeId) (num : ℕ) (name : Name) : Except Halt (Bool × Volumes) :=
  let block := (s.zones dir.1).zone dir.2 0
  if block = 0 ∨ o.ok 3 dir.1 block = false then .ok (false, s)
  else addLoop o dir num name (((s.node dir).size + 15) / 16) s 0 block

/-! ### The calls -/

/-- The store of the mode, and of the link count, of an inode. -/
def setMode (id : InodeId) (mode : ℕ) : Volumes := s.setNode id fun n => { n with mode := mode }
def setLinks (id : InodeId) (nlinks : ℕ) : Volumes :=
  s.setNode id fun n => { n with nlinks := nlinks % 256 }

/-- The inodes are put, and the call returns. -/
def succeeds : Volumes → List InodeId → Except Halt Returned
  | s, [] => .ok (.ok none, s)
  | s, id :: ids => do
    let s ← s.iput o id
    succeeds s ids

/-- `sys_mknod` and `sys_mkdir` up to `new_inode`. -/
def newName (path : List Char) (make : InodeId → Except Halt Returned) : Except Halt Returned := do
  match ← s.dirNamei cur o path with
  | none => .ok (.error ENOENT, s)
  | some dir =>
    if basename path = [] then s.fails o ENOENT [dir]
    else if s.permission cur dir MAY_WRITE = false then s.fails o EPERM [dir]
    else do
      let (dir, found) ← s.findEntry cur o dir (basename path)
      match found with
      | some _ => s.fails o EEXIST [dir]
      | none => make dir

/-- `sys_mknod` from `new_inode` on. -/
def makeNode (path : List Char) (mode dev : ℕ) (dir : InodeId) : Except Halt Returned := do
  let (num, s) ← s.newInode cur dir.1
  match num with
  | none => s.fails o ENOSPC [dir]
  | some num => do
    let id := (dir.1, num)
    let s := s.setMode id (mode % 2 ^ 16)
    -- `S_ISBLK` or `S_ISCHR`
    let s := if mode &&& 0o170000 = 0o060000 ∨ mode &&& 0o170000 = 0o020000 then
        { s with rdev := update s.rdev id (dev % 2 ^ 16) } else s
    let (added, s) ← s.addEntry o dir num (basename path)
    if added then s.succeeds o [dir, id]
    else do
      let s ← s.iput o dir
      (s.setLinks id 0).fails o ENOSPC [id]

def sysMknod (path : List Char) (mode dev : ℕ) : Except Halt Returned :=
  if cur.suser = false then .ok (.error EPERM, s)
  else s.newName cur o path (s.makeNode cur o path mode dev)

/-- `new_block`, for `i_zone[0]` of a new inode. -/
def newZone (id : InodeId) : ℕ × Volumes :=
  let (n, z) := (s.zones id.1).newBlock
  (n, s.setZones id.1 (z.setValue id.2 none 0 n))

/-- The entries `.` and `..`. -/
def dots (num parent w : ℕ) : Option ℕ :=
  match w with
  | 0 => some num
  | 1 => some 0x2e
  | 8 => some parent
  | 9 => some 0x2e2e
  | 10 => some 0
  | _ => none

/-- `sys_mkdir` from `new_inode` on. -/
def makeDir (path : List Char) (mode : ℕ) (dir : InodeId) : Except Halt Returned := do
  let (num, s) ← s.newInode cur dir.1
  match num with
  | none => s.fails o ENOSPC [dir]
  | some num => do
    let id := (dir.1, num)
    let s := s.setNode id fun n => { n with size := 32 }
    let (n, s) := s.newZone id
    if n = 0 then do
      let s ← s.iput o dir
      (s.setLinks id ((s.node id).nlinks + 255)).fails o ENOSPC [id]
    else if o.fresh = false then do
      let s ← s.iput o dir
      (s.setLinks id ((s.node id).nlinks + 255)).fails o ERROR [id]
    else do
      let s := (s.setData id.1 n (dots num dir.2)).setLinks id 2
      let s := s.setMode id (0o040000 ||| (mode &&& 0o777 &&& (0o777 ^^^ (o.umask &&& 0o777))))
      let (added, s) ← s.addEntry o dir num (basename path)
      if added then (s.setLinks dir ((s.node dir).nlinks + 1)).succeeds o [dir, id]
      else do
        let s ← s.iput o dir
        (s.setLinks id 0).fails o ENOSPC [id]

def sysMkdir (path : List Char) (mode : ℕ) : Except Halt Returned :=
  s.newName cur o path (s.makeDir cur o path mode)

/-- The text of a link, with a zero. -/
def linkText (text : Name) (w : ℕ) : Option ℕ :=
  if 2 * w ≤ text.length then some (wordOf text w) else none

/-- `sys_symlink` from `new_inode` on. -/
def makeLink (oldname newname : List Char) (dir : InodeId) : Except Halt Returned := do
  let (num, s) ← s.newInode cur dir.1
  match num with
  | none => s.fails o ENOSPC [dir]
  | some num => do
    let id := (dir.1, num)
    let s := s.setMode id (0o120000 ||| (0o777 &&& (0o777 ^^^ (o.umask &&& 0o777))))
    let (n, s) := s.newZone id
    if n = 0 then do
      let s ← s.iput o dir
      (s.setLinks id ((s.node id).nlinks + 255)).fails o ENOSPC [id]
    else if o.fresh = false then do
      let s ← s.iput o dir
      (s.setLinks id ((s.node id).nlinks + 255)).fails o ERROR [id]
    else do
      let text := oldname.take 1023
      let s := (s.setData id.1 n (linkText text)).setNode id fun n => { n with size := text.length }
      let (dir, found) ← s.findEntry cur o dir (basename newname)
      match found with
      | some _ => (s.setLinks id ((s.node id).nlinks + 255)).fails o EEXIST [id, dir]
      | none => do
        let (added, s) ← s.addEntry o dir num (basename newname)
        if added then s.succeeds o [dir, id]
        else (s.setLinks id ((s.node id).nlinks + 255)).fails o ENOSPC [id, dir]

def sysSymlink (oldname newname : List Char) : Except Halt Returned := do
  match ← s.dirNamei cur o newname with
  | none => .ok (.error EACCES, s)
  | some dir =>
    if basename newname = [] then s.fails o EPERM [dir]
    else if s.permission cur dir MAY_WRITE = false then s.fails o EACCES [dir]
    else s.makeLink cur o oldname newname dir

def sysLink (oldname newname : List Char) : Except Halt Returned := do
  match ← s.namei cur o oldname with
  | none => .ok (.error ENOENT, s)
  | some old =>
    if (s.node old).isDir then s.fails o EPERM [old]
    else
      match ← s.dirNamei cur o newname with
      | none => s.fails o EACCES [old]
      | some dir =>
        if basename newname = [] then s.fails o EPERM [old, dir]
        else if dir.1 ≠ old.1 then s.fails o EXDEV [dir, old]
        else if s.permission cur dir MAY_WRITE = false then s.fails o EACCES [dir, old]
        else do
          let (dir, found) ← s.findEntry cur o dir (basename newname)
          match found with
          | some _ => s.fails o EEXIST [dir, old]
          | none => do
            let (added, s) ← s.addEntry o dir old.2 (basename newname)
            if added then do
              let s ← s.iput o dir
              (s.setLinks old ((s.node old).nlinks + 1)).succeeds o [old]
            else s.fails o ENOSPC [dir, old]

/-- `open_namei` where the name is not there. -/
def openNew (path : List Char) (flag mode : ℕ) (dir : InodeId) : Except Halt Returned :=
  if wantsCreat flag = false then s.fails o ENOENT [dir]
  else if s.permission cur dir MAY_WRITE = false then s.fails o EACCES [dir]
  else do
    let (num, s) ← s.newInode cur dir.1
    match num with
    | none => s.fails o ENOSPC [dir]
    | some num => do
      let id := (dir.1, num)
      let s := s.setMode id (0o100000 ||| (mode &&& 0o777 &&& (0o777 ^^^ (o.umask &&& 0o777))))
      let (added, s) ← s.addEntry o dir num (basename path)
      if added then do
        let s ← s.iput o dir
        .ok (.ok (some id), s)
      else (s.setLinks id ((s.node id).nlinks + 255)).fails o ENOSPC [id, dir]

/-- `open_namei` where entry `de` has the name. -/
def openOld (flag : ℕ) (dir : InodeId) (de : DirEntry) : Except Halt Returned :=
  if wantsExcl flag then s.fails o EEXIST [dir]
  else do
    let fs := s.disks (o.ok 1)
    let inode ← (fs.igets (dir.1, de.inode)).mapError Crash.halt
    match ← (fs.follow cur dir inode).mapError Crash.halt with
    | none => .ok (.error EACCES, s)
    | some id =>
      if (s.node id).isDir ∧ accMode flag ≠ 0 ∨
          s.permission cur id (permissionMask flag) = false then s.fails o EPERM [id]
      else do
        let s ← if wantsTrunc flag then s.truncate o id else .ok s
        .ok (.ok (some id), s)

def openNamei (path : List Char) (flag mode : ℕ) : Except Halt Returned := do
  match ← s.dirNamei cur o path with
  | none => .ok (.error ENOENT, s)
  | some dir =>
    if basename path = [] then
      if accMode (openFlag flag) = 0 ∧ wantsCreat (openFlag flag) = false ∧
          wantsTrunc (openFlag flag) = false then .ok (.ok (some dir), s)
      else s.fails o EISDIR [dir]
    else do
      let (dir, found) ← s.findEntry cur o dir (basename path)
      match found with
      | none => s.openNew cur o path (openFlag flag) mode dir
      | some de => s.openOld cur o (openFlag flag) dir de

end Volumes

/-- A call that makes a name. -/
inductive NameCall where
  | mknod (path : List Char) (mode dev : ℕ)
  | mkdir (path : List Char) (mode : ℕ)
  | symlink (oldname newname : List Char)
  | link (oldname newname : List Char)
  | openNamei (path : List Char) (flag mode : ℕ)

namespace NameCall

/-- What a call does. -/
def run (s : Volumes) (cur : Current) (o : Outside) : NameCall → Except Halt Returned
  | mknod path mode dev => s.sysMknod cur o path mode dev
  | mkdir path mode => s.sysMkdir cur o path mode
  | symlink oldname newname => s.sysSymlink cur o oldname newname
  | link oldname newname => s.sysLink cur o oldname newname
  | openNamei path flag mode => s.openNamei cur o path flag mode

end NameCall

end Fs
