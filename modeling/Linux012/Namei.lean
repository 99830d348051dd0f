/-
Looking up path names (fs/namei.c): `find_entry`, `follow_link`, `get_dir`, `dir_namei`,
`namei`, `lnamei` and `open_namei`, with the inodes and buffers that they get and put.

* `Disks` — what the calls read: inodes, directory blocks, links, and what is mounted;
* `findEntry`, `followLink`, `getDir`, `doNamei`, `openNamei` — the calls, over the
  reference counts of inodes and buffers;
* `Disks.scan`, `Disks.walk`, `Disks.resolve`, `Disks.opens` — what they find, without
  references;
* `namei_refs` — a call that returns has put everything but the inode it returns, and it
  reads through a null pointer exactly if `Trips` says so;
* `open_agrees` — what is opened is what `namei` finds;
* `namei_dangling`, `lnamei_hole` — a dangling link, and a directory with a hole.

Design notes: `bmap`, `create_block` and `new_inode` are what they return, and `truncate`
and the times are left out.  `iget` does not return NULL, as `get_empty_inode` panics first.
A link in a path is followed once only, since `fs` is not 0x17 any more while its text is
looked up, so there are two levels of `follow_link`.
-/
import Linux012.Owning
import Linux012.InodeTable

namespace Fs

/-- What is wrong: a null pointer is read through, or `panic`. -/
inductive Crash where
  | null
  | panic
  deriving DecidableEq

/-- What `i_count` and `b_count` count. -/
inductive Ref where
  | inode (id : InodeId)
  | buffer (dev block : ℕ)
  deriving DecidableEq

abbrev Namei (α : Type) : Type := Owning Ref Crash α

abbrev Name := List Char

structure DirEntry where
  inode : ℕ
  name : Name
  deriving DecidableEq

/-- What is read of an inode. -/
structure DInode where
  mode : ℕ
  uid : ℕ
  gid : ℕ
  nlinks : ℕ
  size : ℕ

/-- What is on the disks, and mounted. -/
structure Disks where
  inode : InodeId → DInode
  /-- the block of the inode can be read -/
  inodeReadable : InodeId → Bool
  /-- `bmap`, where block 0 is `i_zone[0]`, and `create_block` -/
  bmap : InodeId → ℕ → ℕ
  createBlock : InodeId → ℕ → ℕ
  readable : ℕ → ℕ → Bool
  /-- the entries of a directory block, and the string at the start of a block -/
  entry : ℕ → ℕ → ℕ → DirEntry
  text : ℕ → ℕ → Name
  /-- `i_mount`, with the device of the super block that has the inode as `s_imount` -/
  mountedDev : InodeId → Option ℕ
  /-- `s_imount` of the super block of a device -/
  imount : ℕ → Option InodeId
  /-- the number that `new_inode` finds -/
  newInode : ℕ → Option ℕ

/-- The fields of `current`; `groups` ends before `NOGROUP`. -/
structure Current where
  root : InodeId
  pwd : InodeId
  euid : ℕ
  egid : ℕ
  groups : List ℕ

def MAY_EXEC : ℕ := 1
def MAY_WRITE : ℕ := 2

/-- `NAME_LEN` and `DIR_ENTRIES_PER_BLOCK`. -/
abbrev nameLen : ℕ := 14
abbrev dirEntriesPerBlock : ℕ := 64

namespace DInode

/-- `S_ISDIR` and `S_ISLNK`. -/
def isDir (inode : DInode) : Bool := inode.mode &&& 0o170000 == 0o040000
def isLnk (inode : DInode) : Bool := inode.mode &&& 0o170000 == 0o120000

end DInode

namespace Current

def suser (cur : Current) : Bool := cur.euid == 0

def inGroup (cur : Current) (grp : ℕ) : Bool := grp == cur.egid || cur.groups.contains grp

/-- `permission`. -/
def permission (cur : Current) (id : InodeId) (inode : DInode) (mask : ℕ) : Bool :=
  if id.1 ≠ 0 ∧ inode.nlinks = 0 then false
  else
    let mode :=
      if cur.euid = inode.uid then inode.mode >>> 6
      else if cur.inGroup inode.gid then inode.mode >>> 3
      else inode.mode
    mode &&& mask &&& 7 == mask || cur.suser

end Current

/-- `match`, of a name without zeros. -/
def nameMatches (name : Name) (de : DirEntry) : Bool :=
  de.inode != 0 && (name == [] && de.name == ['.'] || name == de.name)

/-! ### Inodes and buffers -/

def igrab (id : InodeId) : Namei Unit := Owning.take (.inode id)

def iput (id : InodeId) : Namei Unit := Owning.drop .panic (.inode id)

def bread (fs : Disks) (dev block : ℕ) : Namei (Option (ℕ × ℕ)) :=
  if fs.readable dev block then do
    Owning.take (.buffer dev block)
    pure (some (dev, block))
  else pure none

def brelse : Option (ℕ × ℕ) → Namei Unit
  | none => pure ()
  | some b => Owning.drop .panic (.buffer b.1 b.2)

/-- The inode that `iget` comes to; `sys_mount` mounts nothing on a root. -/
def Disks.mounted (fs : Disks) (id : InodeId) : InodeId :=
  match fs.mountedDev id with
  | none => id
  | some dev => (dev, rootIno)

def iget (fs : Disks) (id : InodeId) : Namei InodeId :=
  if id.1 = 0 ∨ fs.inodeReadable (fs.mounted id) = false then throw .panic
  else do
    igrab (fs.mounted id)
    pure (fs.mounted id)

/-- A block of a directory. -/
def dirBlock (fs : Disks) (dir : InodeId) (block : ℕ) : Namei (Option (ℕ × ℕ)) :=
  if block = 0 then pure none else bread fs dir.1 block

/-! ### The calls -/

/-- The loop of `find_entry`: entry `i` is number `k` of buffer `bh`. -/
def findLoop (fs : Disks) (dir : InodeId) (name : Name) (entries : ℕ) :
    ℕ → ℕ → Option (ℕ × ℕ) → ℕ → Namei (Option ((ℕ × ℕ) × DirEntry))
  | 0, _, bh, _ => do
    brelse bh
    pure none
  | fuel + 1, i, bh, k =>
    if entries ≤ i then do
      brelse bh
      pure none
    else
      match bh with
      -- `bh->b_data`
      | none => throw .null
      | some b =>
        if dirEntriesPerBlock ≤ k then do
          brelse (some b)
          let bh ← dirBlock fs dir (fs.bmap dir (i / dirEntriesPerBlock))
          match bh with
          | none => findLoop fs dir name entries fuel (i + dirEntriesPerBlock) none k
          | some b =>
            if nameMatches name (fs.entry b.1 b.2 0) then pure (some (b, fs.entry b.1 b.2 0))
            else findLoop fs dir name entries fuel (i + 1) (some b) 1
        else if nameMatches name (fs.entry b.1 b.2 k) then pure (some (b, fs.entry b.1 b.2 k))
        else findLoop fs dir name entries fuel (i + 1) (some b) (k + 1)

/-- The number of entries of a directory. -/
def Disks.entries (fs : Disks) (dir : InodeId) : ℕ := (fs.inode dir).size / 16

/-- `find_entry`; the directory may be exchanged for the one that its device is mounted on. -/
def findEntry (fs : Disks) (cur : Current) (dir : InodeId) (name : Name) :
    Namei (InodeId × Option ((ℕ × ℕ) × DirEntry)) := do
  let entries := fs.entries dir
  let (dir, name) ←
    if name = ['.', '.'] then
      if dir = cur.root then pure (dir, ['.'])
      else if dir.2 = rootIno then
        match fs.imount dir.1 with
        | none => pure (dir, name)
        | some imount => do
          iput dir
          igrab imount
          pure (imount, name)
      else pure (dir, name)
    else pure (dir, name.take nameLen)
  let bh ← dirBlock fs dir (fs.bmap dir 0)
  match bh with
  | none => pure (dir, none)
  | some b => do
    let found ← findLoop fs dir name entries entries 0 (some b) 0
    pure (dir, found)

/-- What a path goes through: the names between the slashes. -/
def components (path : List Char) : List Name := path.splitOn '/'

/-- The loop of `get_dir`. -/
def getDirLoop (fs : Disks) (cur : Current) (follow : InodeId → InodeId → Namei (Option InodeId)) :
    List Name → InodeId → Namei (Option InodeId)
  | [], inode => pure (some inode)
  | name :: names, inode =>
    if (fs.inode inode).isDir = false ∨ cur.permission inode (fs.inode inode) MAY_EXEC = false then do
      iput inode
      pure none
    else if names = [] then pure (some inode)
    else do
      let (dir, found) ← findEntry fs cur inode name
      match found with
      | none => do
        iput dir
        pure none
      | some (b, de) => do
        brelse (some b)
        let inode ← iget fs (dir.1, de.inode)
        let inode ← follow dir inode
        match inode with
        | none => pure none
        | some inode => getDirLoop fs cur follow names inode

/-- The directory that `get_dir` starts from, if the path does not start with a slash. -/
def baseDir (cur : Current) : Option InodeId → Namei InodeId
  | none => do
    igrab cur.pwd
    pure cur.pwd
  | some inode => pure inode

/-- `get_dir`. -/
def getDir (fs : Disks) (cur : Current) (follow : InodeId → InodeId → Namei (Option InodeId))
    (path : List Char) (base : Option InodeId) : Namei (Option InodeId) := do
  let inode ← baseDir cur base
  if path.head? = some '/' then do
    iput inode
    igrab cur.root
    getDirLoop fs cur follow (components path.tail) cur.root
  else getDirLoop fs cur follow (components path) inode

/-- The name after the last slash. -/
def basename (path : List Char) : Name := (components path).getLastD []

/-- The inode that `_namei` has found is followed if it is a link, or its directory put. -/
def lastInode (follow : InodeId → InodeId → Namei (Option InodeId)) (followLinks : Bool)
    (dir inode : InodeId) : Namei (Option InodeId) :=
  if followLinks then follow dir inode
  else do
    iput dir
    pure (some inode)

/-- `_namei`, which calls `dir_namei` first. -/
def doNamei (fs : Disks) (cur : Current) (follow : InodeId → InodeId → Namei (Option InodeId))
    (path : List Char) (base : Option InodeId) (followLinks : Bool) : Namei (Option InodeId) := do
  let dir ← getDir fs cur follow path base
  match dir with
  | none => pure none
  | some dir =>
    if basename path = [] then pure (some dir)
    else do
      let (dir, found) ← findEntry fs cur dir (basename path)
      match found with
      | none => do
        iput dir
        pure none
      | some (b, de) => do
        brelse (some b)
        let inode ← iget fs (dir.1, de.inode)
        let inode ← lastInode follow followLinks dir inode
        match inode with
        -- `inode->i_atime`
        | none => throw .null
        | some inode => pure (some inode)

/-- `follow_link` where `fs` is not 0x17: no link is followed. -/
def followLinkKernel (fs : Disks) (dir inode : InodeId) : Namei (Option InodeId) :=
  if (fs.inode inode).isLnk then do
    iput dir
    iput inode
    pure none
  else do
    iput dir
    pure (some inode)

/-- `follow_link`. -/
def followLink (fs : Disks) (cur : Current) (dir inode : InodeId) : Namei (Option InodeId) :=
  if (fs.inode inode).isLnk then do
    let bh ← dirBlock fs inode (fs.bmap inode 0)
    match bh with
    | none => do
      iput dir
      iput inode
      pure none
    | some b => do
      iput inode
      let inode ← doNamei fs cur (followLinkKernel fs) (fs.text b.1 b.2) (some dir) false
      brelse (some b)
      pure inode
  else do
    iput dir
    pure (some inode)

def namei (fs : Disks) (cur : Current) (path : List Char) : Namei (Option InodeId) :=
  doNamei fs cur (followLink fs cur) path none true

def lnamei (fs : Disks) (cur : Current) (path : List Char) : Namei (Option InodeId) :=
  doNamei fs cur (followLink fs cur) path none false

/-- The directory that `dir_namei` returns. -/
def dirNamei (fs : Disks) (cur : Current) (path : List Char) : Namei (Option InodeId) :=
  getDir fs cur (followLink fs cur) path none

/-- The loop of `add_entry`. -/
def addLoop (fs : Disks) (dir : InodeId) :
    ℕ → ℕ → Option (ℕ × ℕ) → ℕ → Namei (Option (ℕ × ℕ))
  | 0, _, bh, _ => do
    brelse bh
    pure none
  | fuel + 1, i, bh, k =>
    match bh with
    -- `bh->b_data`
    | none => throw .null
    | some b =>
      if dirEntriesPerBlock ≤ k then do
        brelse (some b)
        let block := fs.createBlock dir (i / dirEntriesPerBlock)
        if block = 0 then pure none
        else do
          let bh ← bread fs dir.1 block
          match bh with
          | none => addLoop fs dir fuel (i + dirEntriesPerBlock) none k
          | some b =>
            if (fs.inode dir).size ≤ i * 16 ∨ (fs.entry b.1 b.2 0).inode = 0 then pure (some b)
            else addLoop fs dir fuel (i + 1) (some b) 1
      else if (fs.inode dir).size ≤ i * 16 ∨ (fs.entry b.1 b.2 k).inode = 0 then pure (some b)
      else addLoop fs dir fuel (i + 1) (some b) (k + 1)

/-- `add_entry`, of a name that is not empty. -/
def addEntry (fs : Disks) (dir : InodeId) : Namei (Option (ℕ × ℕ)) := do
  let bh ← dirBlock fs dir (fs.bmap dir 0)
  match bh with
  | none => pure none
  -- entry `i_size / 16 + 1` is free at the latest
  | some b => addLoop fs dir ((fs.inode dir).size / 16 + 3) 0 (some b) 0

def EPERM : ℕ := 1
def ENOENT : ℕ := 2
def EACCES : ℕ := 13
def EEXIST : ℕ := 17
def EISDIR : ℕ := 21
def ENOSPC : ℕ := 28

/-- `O_ACCMODE`, `O_CREAT`, `O_EXCL` and `O_TRUNC`. -/
def accMode (flag : ℕ) : ℕ := flag &&& 0o3
def wantsCreat (flag : ℕ) : Bool := flag &&& 0o100 != 0
def wantsExcl (flag : ℕ) : Bool := flag &&& 0o200 != 0
def wantsTrunc (flag : ℕ) : Bool := flag &&& 0o1000 != 0

/-- `ACC_MODE`. -/
def permissionMask (flag : ℕ) : ℕ :=
  match accMode flag with
  | 0 => 0o4
  | 1 => 0o2
  | 2 => 0o6
  | _ => 0o377

/-- The flags that `open_namei` goes by. -/
def openFlag (flag : ℕ) : ℕ := if wantsTrunc flag ∧ accMode flag = 0 then flag ||| 1 else flag

/-- `open_namei` where the name is not in the directory. -/
def openCreate (fs : Disks) (cur : Current) (dir : InodeId) (flag : ℕ) :
    Namei (Except ℕ InodeId) :=
  if wantsCreat flag = false then do
    iput dir
    pure (.error ENOENT)
  else if cur.permission dir (fs.inode dir) MAY_WRITE = false then do
    iput dir
    pure (.error EACCES)
  else
    match fs.newInode dir.1 with
    | none => do
      iput dir
      pure (.error ENOSPC)
    | some num => do
      igrab (dir.1, num)
      let bh ← addEntry fs dir
      match bh with
      | none => do
        iput (dir.1, num)
        iput dir
        pure (.error ENOSPC)
      | some b => do
        brelse (some b)
        iput dir
        pure (.ok (dir.1, num))

/-- `open_namei` where entry `de` of the directory has the name. -/
def openFound (fs : Disks) (cur : Current) (dir : InodeId) (de : DirEntry) (flag : ℕ) :
    Namei (Except ℕ InodeId) :=
  if wantsExcl flag then do
    iput dir
    pure (.error EEXIST)
  else do
    let inode ← iget fs (dir.1, de.inode)
    let inode ← followLink fs cur dir inode
    match inode with
    | none => pure (.error EACCES)
    | some inode =>
      if (fs.inode inode).isDir ∧ accMode flag ≠ 0 ∨
          cur.permission inode (fs.inode inode) (permissionMask flag) = false then do
        iput inode
        pure (.error EPERM)
      else pure (.ok inode)

/-- `open_namei`: an error, or the inode. -/
def openNamei (fs : Disks) (cur : Current) (path : List Char) (flag : ℕ) :
    Namei (Except ℕ InodeId) := do
  let dir ← dirNamei fs cur path
  match dir with
  | none => pure (.error ENOENT)
  | some dir =>
    if basename path = [] then
      if accMode (openFlag flag) = 0 ∧ wantsCreat (openFlag flag) = false ∧
          wantsTrunc (openFlag flag) = false then
        pure (.ok dir)
      else do
        iput dir
        pure (.error EISDIR)
    else do
      let (dir, found) ← findEntry fs cur dir (basename path)
      match found with
      | none => openCreate fs cur dir (openFlag flag)
      | some (b, de) => do
        brelse (some b)
        openFound fs cur dir de (openFlag flag)

/-! ### What the calls find -/

namespace Disks

variable (fs : Disks) (cur : Current)

/-- A block of a directory, if there is one that can be read. -/
def dirBuf (dir : InodeId) (block : ℕ) : Option (ℕ × ℕ) :=
  if block = 0 ∨ fs.readable dir.1 block = false then none else some (dir.1, block)

/-- Entry `i` of a directory has the name, or is in a block that cannot be read. -/
def stops (dir : InodeId) (name : Name) (i : ℕ) : Bool :=
  match fs.dirBuf dir (fs.bmap dir (i / dirEntriesPerBlock)) with
  | none => true
  | some b => nameMatches name (fs.entry b.1 b.2 (i % dirEntriesPerBlock))

/-- `find_entry`, from entry `i` on. -/
def scanFrom (dir : InodeId) (name : Name) (entries i : ℕ) :
    Except Crash (Option ((ℕ × ℕ) × DirEntry)) :=
  match (List.range' i (entries - i)).find? (fs.stops dir name) with
  | none => .ok none
  | some i =>
    match fs.dirBuf dir (fs.bmap dir (i / dirEntriesPerBlock)) with
    -- the loop skips the block, and goes on without a buffer
    | none => if i + dirEntriesPerBlock < entries then .error .null else .ok none
    | some b => .ok (some (b, fs.entry b.1 b.2 (i % dirEntriesPerBlock)))

/-- The directory, and the name, that `find_entry` looks through and for. -/
def exchange (dir : InodeId) (name : Name) : InodeId × Name :=
  if name = ['.', '.'] then
    if dir = cur.root then (dir, ['.'])
    else if dir.2 = rootIno then
      match fs.imount dir.1 with
      | none => (dir, name)
      | some imount => (imount, name)
    else (dir, name)
  else (dir, name.take nameLen)

/-- `find_entry`. -/
def find (dir : InodeId) (name : Name) : Except Crash (InodeId × Option ((ℕ × ℕ) × DirEntry)) :=
  let d := fs.exchange cur dir name
  match fs.dirBuf d.1 (fs.bmap d.1 0) with
  | none => .ok (d.1, none)
  | some _ => (fs.scanFrom d.1 d.2 (fs.entries dir) 0).map fun found => (d.1, found)

/-- `iget`. -/
def igets (id : InodeId) : Except Crash InodeId :=
  if id.1 = 0 ∨ fs.inodeReadable (fs.mounted id) = false then .error .panic
  else .ok (fs.mounted id)

/-- A directory that a path may go through. -/
def Searchable (dir : InodeId) : Prop :=
  ¬ ((fs.inode dir).isDir = false ∨ cur.permission dir (fs.inode dir) MAY_EXEC = false)

instance (dir : InodeId) : Decidable (fs.Searchable cur dir) := inferInstanceAs (Decidable (¬ _))

variable (follow : InodeId → InodeId → Except Crash (Option InodeId))

/-- The loop of `get_dir`, from `dir` on. -/
def walk : List Name → InodeId → Except Crash (Option InodeId)
  | [], dir => .ok (some dir)
  | name :: names, dir =>
    if fs.Searchable cur dir then
      if names = [] then .ok (some dir)
      else do
        let r ← fs.find cur dir name
        match r.2 with
        | none => .ok none
        | some (_, de) => do
          let inode ← fs.igets (r.1.1, de.inode)
          let inode ← follow r.1 inode
          match inode with
          | none => .ok none
          | some inode => walk names inode
    else .ok none

/-- Where a path starts, and the names on it. -/
def startOf (path : List Char) (base : Option InodeId) : InodeId × List Name :=
  if path.head? = some '/' then (cur.root, components path.tail)
  else (base.getD cur.pwd, components path)

/-- `get_dir`. -/
def walkFrom (path : List Char) (base : Option InodeId) : Except Crash (Option InodeId) :=
  fs.walk cur follow (startOf cur path base).2 (startOf cur path base).1

/-- `_namei`, in the last directory. -/
def resolveLast (dir : InodeId) (name : Name) (followLinks : Bool) :
    Except Crash (Option InodeId) := do
  let r ← fs.find cur dir name
  match r.2 with
  | none => .ok none
  | some (_, de) => do
    let inode ← fs.igets (r.1.1, de.inode)
    let inode ← (if followLinks then follow r.1 inode else .ok (some inode))
    match inode with
    | none => .error .null
    | some inode => .ok (some inode)

/-- `_namei`. -/
def resolve (path : List Char) (base : Option InodeId) (followLinks : Bool) :
    Except Crash (Option InodeId) := do
  let dir ← fs.walkFrom cur follow path base
  match dir with
  | none => .ok none
  | some dir =>
    if basename path = [] then .ok (some dir)
    else fs.resolveLast cur follow dir (basename path) followLinks

end Disks

namespace Disks

variable (fs : Disks) (cur : Current)

/-- `follow_link`, where `fs` is not 0x17, and where it is. -/
def followKernel (_dir inode : InodeId) : Except Crash (Option InodeId) :=
  .ok (if (fs.inode inode).isLnk then none else some inode)

def follow (dir inode : InodeId) : Except Crash (Option InodeId) :=
  if (fs.inode inode).isLnk then
    match fs.dirBuf inode (fs.bmap inode 0) with
    | none => .ok none
    | some b => fs.resolve cur fs.followKernel (fs.text b.1 b.2) (some dir) false
  else .ok (some inode)

/-- The block of a directory that `add_entry` gets. -/
def addBlock (dir : InodeId) (k : ℕ) : ℕ := if k = 0 then fs.bmap dir 0 else fs.createBlock dir k

/-- Entry `i` is free, or there is no block for it that can be read. -/
def addStops (dir : InodeId) (i : ℕ) : Bool :=
  match fs.dirBuf dir (fs.addBlock dir (i / dirEntriesPerBlock)) with
  | none => true
  | some b => (fs.inode dir).size ≤ i * 16 ∨
      (fs.entry b.1 b.2 (i % dirEntriesPerBlock)).inode = 0

/-- `add_entry`, from entry `i` on. -/
def addFrom (dir : InodeId) (i : ℕ) : Except Crash (Option (ℕ × ℕ)) :=
  match (List.range' i ((fs.inode dir).size / 16 + 2 - i)).find? (fs.addStops dir) with
  | none => .ok none
  | some i =>
    match fs.dirBuf dir (fs.addBlock dir (i / dirEntriesPerBlock)) with
    | none => if fs.addBlock dir (i / dirEntriesPerBlock) = 0 then .ok none else .error .null
    | some b => .ok (some b)

/-- `add_entry`. -/
def add (dir : InodeId) : Except Crash (Option (ℕ × ℕ)) :=
  match fs.dirBuf dir (fs.bmap dir 0) with
  | none => .ok none
  | some _ => fs.addFrom dir 0

/-- What `open_namei` does where the name is not there. -/
def creates (dir : InodeId) (flag : ℕ) : Except Crash (Except ℕ InodeId) :=
  if wantsCreat flag = false then .ok (.error ENOENT)
  else if cur.permission dir (fs.inode dir) MAY_WRITE = false then .ok (.error EACCES)
  else
    match fs.newInode dir.1 with
    | none => .ok (.error ENOSPC)
    | some num => do
      let bh ← fs.add dir
      match bh with
      | none => .ok (.error ENOSPC)
      | some _ => .ok (.ok (dir.1, num))

/-- What `open_namei` does where entry `de` has the name. -/
def founds (dir : InodeId) (de : DirEntry) (flag : ℕ) : Except Crash (Except ℕ InodeId) :=
  if wantsExcl flag then .ok (.error EEXIST)
  else do
    let inode ← fs.igets (dir.1, de.inode)
    let inode ← fs.follow cur dir inode
    match inode with
    | none => .ok (.error EACCES)
    | some inode =>
      if (fs.inode inode).isDir ∧ accMode flag ≠ 0 ∨
          cur.permission inode (fs.inode inode) (permissionMask flag) = false then
        .ok (.error EPERM)
      else .ok (.ok inode)

/-- `open_namei`, in the last directory. -/
def openLast (dir : InodeId) (name : Name) (flag : ℕ) : Except Crash (Except ℕ InodeId) := do
  let r ← fs.find cur dir name
  match r.2 with
  | none => fs.creates cur r.1 flag
  | some (_, de) => fs.founds cur r.1 de flag

/-- `open_namei`. -/
def opens (path : List Char) (flag : ℕ) : Except Crash (Except ℕ InodeId) := do
  let dir ← fs.walkFrom cur (fs.follow cur) path none
  match dir with
  | none => .ok (.error ENOENT)
  | some dir =>
    if basename path = [] then
      if accMode (openFlag flag) = 0 ∧ wantsCreat (openFlag flag) = false ∧
          wantsTrunc (openFlag flag) = false then .ok (.ok dir)
      else .ok (.error EISDIR)
    else fs.openLast cur dir (basename path) (openFlag flag)

end Disks

/-! ### References of the calls -/

section

variable {fs : Disks} {cur : Current} {dir inode : InodeId} {name : Name}

/-- The reference of an inode, and of a buffer. -/
def iref (id : InodeId) : Ref → ℕ := Pi.single (.inode id) 1

def bref (b : ℕ × ℕ) : Ref → ℕ := Pi.single (.buffer b.1 b.2) 1

/-- The references of a result. -/
def irefs : Option InodeId → Ref → ℕ
  | none => 0
  | some id => iref id

def brefs : Option (ℕ × ℕ) → Ref → ℕ
  | none => 0
  | some b => bref b

def openRefs : Except ℕ InodeId → Ref → ℕ
  | .error _ => 0
  | .ok id => iref id

/-- What `find_entry` returns has the directory and the buffer of the entry. -/
def foundRefs (r : InodeId × Option ((ℕ × ℕ) × DirEntry)) : Ref → ℕ :=
  iref r.1 + brefs (r.2.map Prod.fst)

open Owning (Yields)

theorem yields_dirBlock (fs : Disks) (dir : InodeId) (block : ℕ) :
    Yields (dirBlock fs dir block) 0 (.ok (fs.dirBuf dir block)) brefs := by
  rw [dirBlock, Disks.dirBuf]
  split
  case isTrue h =>
    rw [if_pos (.inl h)]
    exact .pure rfl
  case isFalse h =>
    rw [bread]
    split
    case isTrue hread =>
      rw [if_neg (by simp [h, hread])]
      refine Yields.bind_take (.pure ?_)
      rw [add_zero]
      rfl
    case isFalse hread =>
      rw [if_pos (.inr (by simpa using hread))]
      exact .pure rfl

theorem yields_iget (fs : Disks) (id : InodeId) :
    Yields (iget fs id) 0 (fs.igets id) iref := by
  rw [iget, Disks.igets]
  refine Yields.ite (fun _ => .throw) fun _ => Yields.bind_take (.pure ?_)
  rw [add_zero]
  rfl

/-! ### `find_entry` -/

theorem scanFrom_of_le {entries i : ℕ} (h : entries ≤ i) :
    fs.scanFrom dir name entries i = .ok none := by
  rw [Disks.scanFrom, Nat.sub_eq_zero_of_le h]
  rfl

theorem scanFrom_of_lt {entries i : ℕ} (h : i < entries) :
    fs.scanFrom dir name entries i =
      match fs.dirBuf dir (fs.bmap dir (i / dirEntriesPerBlock)) with
      | none => if i + dirEntriesPerBlock < entries then .error .null else .ok none
      | some b =>
        if nameMatches name (fs.entry b.1 b.2 (i % dirEntriesPerBlock)) then
          .ok (some (b, fs.entry b.1 b.2 (i % dirEntriesPerBlock)))
        else fs.scanFrom dir name entries (i + 1) := by
  rw [Disks.scanFrom, show entries - i = entries - (i + 1) + 1 by omega, List.range'_succ,
    List.find?_cons, Disks.stops]
  cases hbuf : fs.dirBuf dir (fs.bmap dir (i / dirEntriesPerBlock)) with
  | none => simp only [hbuf]
  | some b =>
    cases hmatch : nameMatches name (fs.entry b.1 b.2 (i % dirEntriesPerBlock)) with
    | true => simp only [hmatch, hbuf, if_true]
    | false => simp only [hmatch, Bool.false_eq_true, if_false, Disks.scanFrom]

/-- The loop of `find_entry` without a buffer ends, or reads through the null pointer. -/
theorem yields_findLoop_none (fs : Disks) (dir : InodeId) (name : Name) (entries fuel i k : ℕ) (hfuel : entries ≤ fuel + i) :
    Yields (findLoop fs dir name entries fuel i none k) 0
      (if entries ≤ i then .ok none else .error .null) fun found => brefs (found.map Prod.fst) := by
  cases fuel with
  | zero =>
    rw [findLoop, if_pos (by omega)]
    exact .pure rfl
  | succ fuel =>
    rw [findLoop]
    exact Yields.ite (fun _ => .pure rfl) fun _ => .throw

/-- Entry `i` is number `k` of buffer `b`, or the next block begins with it. -/
def AtEntry (fs : Disks) (dir : InodeId) (i : ℕ) (b : ℕ × ℕ) (k : ℕ) : Prop :=
  k < dirEntriesPerBlock ∧ k = i % dirEntriesPerBlock ∧
      fs.dirBuf dir (fs.bmap dir (i / dirEntriesPerBlock)) = some b ∨
    k = dirEntriesPerBlock ∧ i % dirEntriesPerBlock = 0

theorem AtEntry.next {i k : ℕ} {b : ℕ × ℕ} (h : k < dirEntriesPerBlock)
    (hk : k = i % dirEntriesPerBlock)
    (hb : fs.dirBuf dir (fs.bmap dir (i / dirEntriesPerBlock)) = some b) :
    AtEntry fs dir (i + 1) b (k + 1) := by
  simp only [AtEntry, dirEntriesPerBlock] at *
  by_cases hlast : k + 1 = 64
  · exact .inr ⟨hlast, by omega⟩
  · refine .inl ⟨by omega, by omega, ?_⟩
    rw [show (i + 1) / 64 = i / 64 by omega, hb]

/-- The loop of `find_entry` looks through the entries in order. -/
theorem yields_findLoop (name : Name) (entries fuel : ℕ) {i k : ℕ} {b : ℕ × ℕ} (hfuel : entries ≤ fuel + i)
    (hb : AtEntry fs dir i b k) :
    Yields (findLoop fs dir name entries fuel i (some b) k) (bref b)
      (fs.scanFrom dir name entries i) fun found => brefs (found.map Prod.fst) := by
  induction fuel generalizing i b k with
  | zero =>
    rw [findLoop, scanFrom_of_le (by omega)]
    refine Yields.of_eq (Yields.bind_drop (.pure ?_)) (add_zero _).symm
    rfl
  | succ fuel ih =>
    rw [findLoop]
    split
    case isTrue hle =>
      rw [scanFrom_of_le hle]
      refine Yields.of_eq (Yields.bind_drop (.pure ?_)) (add_zero _).symm
      rfl
    case isFalse hlt =>
      rw [scanFrom_of_lt (by omega)]
      -- what is done with an entry that is in a buffer
      have hcheck : ∀ b k, k < dirEntriesPerBlock → k = i % dirEntriesPerBlock →
          fs.dirBuf dir (fs.bmap dir (i / dirEntriesPerBlock)) = some b →
          Yields (if nameMatches name (fs.entry b.1 b.2 k) then
              pure (some (b, fs.entry b.1 b.2 k))
            else findLoop fs dir name entries fuel (i + 1) (some b) (k + 1)) (bref b)
            (if nameMatches name (fs.entry b.1 b.2 (i % dirEntriesPerBlock)) then
              .ok (some (b, fs.entry b.1 b.2 (i % dirEntriesPerBlock)))
            else fs.scanFrom dir name entries (i + 1)) fun found => brefs (found.map Prod.fst) :=
        fun b k hk hki hbuf => by
          rw [← hki]
          exact Yields.ite (fun _ => .pure rfl) fun _ => ih (by omega) (.next hk hki hbuf)
      obtain ⟨hk, hki, hbuf⟩ | ⟨hk, hi⟩ := hb
      · rw [hbuf]
        simp only [if_neg (Nat.not_le.mpr hk)]
        exact hcheck b k hk hki hbuf
      · -- the next block
        simp only [hk, Nat.le_refl, if_true]
        refine Yields.of_eq (Yields.bind_drop ?_) (add_zero _).symm
        have hblock := yields_dirBlock fs dir (fs.bmap dir (i / dirEntriesPerBlock))
        refine hblock.bind_ok ?_
        cases hbuf : fs.dirBuf dir (fs.bmap dir (i / dirEntriesPerBlock)) with
        | none =>
          have hnone := yields_findLoop_none fs dir name entries fuel
            (i + dirEntriesPerBlock) dirEntriesPerBlock (by simp only [dirEntriesPerBlock]; omega)
          have hif : (if i + dirEntriesPerBlock < entries then Except.error Crash.null
              else Except.ok (none : Option ((ℕ × ℕ) × DirEntry))) =
              if entries ≤ i + dirEntriesPerBlock then .ok none else .error .null := by
            by_cases h : i + dirEntriesPerBlock < entries
            · rw [if_pos h, if_neg (by omega)]
            · rw [if_neg h, if_pos (by omega)]
          rw [hif]
          exact hnone
        | some b' => exact hcheck b' 0 (by decide) hi.symm hbuf

/-- `find_entry` puts the directory and gets the one that it is exchanged for. -/
theorem yields_findEntry (fs : Disks) (cur : Current) (dir : InodeId) (name : Name) :
    Yields (findEntry fs cur dir name) (iref dir) (fs.find cur dir name) foundRefs := by
  -- from the exchange on
  have hscan : ∀ d : InodeId × Name, Yields (do
        let bh ← dirBlock fs d.1 (fs.bmap d.1 0)
        match bh with
        | none => pure (d.1, none)
        | some b => do
          let found ← findLoop fs d.1 d.2 (fs.entries dir) (fs.entries dir) 0 (some b) 0
          pure (d.1, found)) (iref d.1)
      (match fs.dirBuf d.1 (fs.bmap d.1 0) with
        | none => .ok (d.1, none)
        | some _ => (fs.scanFrom d.1 d.2 (fs.entries dir) 0).map fun found => (d.1, found))
      foundRefs := fun d => by
    have hblock := (yields_dirBlock fs d.1 (fs.bmap d.1 0)).frame (iref d.1)
    rw [zero_add] at hblock
    refine hblock.bind_ok ?_
    cases hbuf : fs.dirBuf d.1 (fs.bmap d.1 0) with
    | none =>
      refine Yields.of_eq (.pure ?_) (zero_add _)
      exact add_zero _
    | some b =>
      have hat : AtEntry fs d.1 0 b 0 := .inl ⟨by decide, rfl, hbuf⟩
      have hloop := (yields_findLoop d.2 (fs.entries dir) (fs.entries dir) (Nat.le_refl _) hat).frame
        (iref d.1)
      exact hloop.map fun found => add_comm _ _
  rw [findEntry, Disks.find, Disks.exchange]
  split
  case isFalse => exact hscan (dir, name.take nameLen)
  case isTrue =>
    split
    case isTrue => exact hscan (dir, ['.'])
    case isFalse =>
      split
      case isFalse => exact hscan (dir, name)
      case isTrue =>
        cases himount : fs.imount dir.1 with
        | none => exact hscan (dir, name)
        | some imount =>
          have h := hscan (imount, name)
          refine Yields.of_eq (Yields.bind_drop (Yields.bind_take ?_)) (add_zero _).symm
          rw [add_zero]
          exact h

/-! ### `_namei` -/

variable {follow : InodeId → InodeId → Namei (Option InodeId)}
  {followP : InodeId → InodeId → Except Crash (Option InodeId)}

/-- An entry of a directory is got, and the directory kept. -/
theorem yields_entry {α : Type} {b : ℕ × ℕ} {de : DirEntry} {k : InodeId → Namei α}
    {r : InodeId → Except Crash α} {H' : α → Ref → ℕ}
    (hk : ∀ x, Yields (k x) (iref dir + iref x) (r x) H') :
    Yields (do
      brelse (some b)
      let inode ← iget fs (dir.1, de.inode)
      k inode) (foundRefs (dir, some (b, de))) (fs.igets (dir.1, de.inode) >>= r) H' := by
  have hb : foundRefs (dir, some (b, de)) = bref b + (0 + iref dir) := by
    rw [zero_add]
    exact add_comm _ _
  rw [hb]
  refine Yields.bind_drop (Yields.bind ((yields_iget fs (dir.1, de.inode)).frame (iref dir)) ?_)
  intro x _
  exact Yields.of_eq (hk x) (add_comm _ _)

/-- A directory is put, and an inode returned or none. -/
theorem yields_some (d x : InodeId) :
    Yields (do
      iput d
      pure (some x)) (iref d + iref x) (.ok (some x)) irefs :=
  Yields.bind_drop (.pure rfl)

theorem yields_none (d : InodeId) :
    Yields (do
      iput d
      pure none) (iref d) (.ok none) irefs :=
  Yields.of_eq (Yields.bind_drop (.pure rfl)) (add_zero _).symm

theorem yields_getDirLoop
    (hfollow : ∀ d x, Yields (follow d x) (iref d + iref x) (followP d x) irefs)
    (names : List Name) (dir : InodeId) :
    Yields (getDirLoop fs cur follow names dir) (iref dir) (fs.walk cur followP names dir) irefs := by
  induction names generalizing dir with
  | nil => exact .pure rfl
  | cons name names ih =>
    rw [getDirLoop, Disks.walk]
    by_cases hs : fs.Searchable cur dir
    · rw [if_neg hs, if_pos hs]
      refine Yields.ite (fun _ => .pure rfl) fun _ => ?_
      refine Yields.bind (yields_findEntry fs cur dir name) fun r _ => ?_
      obtain ⟨d, found⟩ := r
      cases found with
      | none => exact Yields.of_eq (yields_none d) (add_zero _)
      | some found =>
        obtain ⟨b, de⟩ := found
        refine yields_entry fun x => Yields.bind (hfollow d x) fun y _ => ?_
        cases y with
        | none => exact .pure rfl
        | some y => exact ih y
    · rw [if_pos (not_not.mp hs), if_neg hs]
      exact yields_none dir

theorem yields_getDir (hfollow : ∀ d x, Yields (follow d x) (iref d + iref x) (followP d x) irefs)
    (path : List Char) (base : Option InodeId) :
    Yields (getDir fs cur follow path base) (irefs base) (fs.walkFrom cur followP path base)
      irefs := by
  have hstart : Yields (baseDir cur base) (irefs base) (.ok (base.getD cur.pwd)) iref := by
    cases base with
    | none =>
      refine Yields.bind_take (.pure ?_)
      exact (add_zero _).symm
    | some inode => exact .pure rfl
  refine hstart.bind_ok ?_
  rw [Disks.walkFrom, Disks.startOf]
  split
  case isTrue =>
    refine Yields.of_eq (Yields.bind_drop (Yields.bind_take ?_)) (add_zero _).symm
    rw [add_zero]
    exact yields_getDirLoop hfollow (components path.tail) cur.root
  case isFalse => exact yields_getDirLoop hfollow (components path) (base.getD cur.pwd)

theorem yields_doNamei (fs : Disks) (cur : Current)
    (hfollow : ∀ d x, Yields (follow d x) (iref d + iref x) (followP d x) irefs)
    (path : List Char) (base : Option InodeId) (followLinks : Bool) :
    Yields (doNamei fs cur follow path base followLinks) (irefs base)
      (fs.resolve cur followP path base followLinks) irefs := by
  refine Yields.bind (yields_getDir hfollow path base) fun dir _ => ?_
  cases dir with
  | none => exact .pure rfl
  | some dir =>
    refine Yields.ite (fun _ => .pure rfl) fun _ => ?_
    refine Yields.bind (yields_findEntry fs cur dir (basename path)) fun r _ => ?_
    obtain ⟨d, found⟩ := r
    cases found with
    | none => exact Yields.of_eq (yields_none d) (add_zero _)
    | some found =>
      obtain ⟨b, de⟩ := found
      refine yields_entry fun x => ?_
      have hlink : Yields (lastInode follow followLinks d x) (iref d + iref x)
          (if followLinks then followP d x else .ok (some x)) irefs :=
        Yields.ite (fun _ => hfollow d x) fun _ => yields_some d x
      refine Yields.bind hlink fun y _ => ?_
      cases y with
      | none => exact .throw
      | some y => exact .pure rfl

theorem yields_followLinkKernel (fs : Disks) (d x : InodeId) :
    Yields (followLinkKernel fs d x) (iref d + iref x) (fs.followKernel d x) irefs := by
  rw [followLinkKernel, Disks.followKernel]
  split
  case isTrue => exact Yields.bind_drop (yields_none x)
  case isFalse => exact yields_some d x

theorem yields_followLink (fs : Disks) (cur : Current) (d x : InodeId) :
    Yields (followLink fs cur d x) (iref d + iref x) (fs.follow cur d x) irefs := by
  rw [followLink, Disks.follow]
  refine Yields.ite (fun _ => ?_) fun _ => yields_some d x
  have hblock := (yields_dirBlock fs x (fs.bmap x 0)).frame (iref d + iref x)
  rw [zero_add] at hblock
  refine hblock.bind_ok ?_
  cases hbuf : fs.dirBuf x (fs.bmap x 0) with
  | none =>
    refine Yields.of_eq (Yields.bind_drop (yields_none x)) ?_
    exact zero_add _
  | some b =>
    -- the buffer of the link is kept while its text is looked up
    have hnamei := (yields_doNamei fs cur (yields_followLinkKernel fs)
      (fs.text b.1 b.2) (some d) false).frame (bref b)
    have hres : Yields (do
        let inode ← doNamei fs cur (followLinkKernel fs) (fs.text b.1 b.2) (some d) false
        brelse (some b)
        pure inode) (iref d + bref b)
        (fs.resolve cur fs.followKernel (fs.text b.1 b.2) (some d) false) irefs := by
      rw [← bind_pure (fs.resolve cur fs.followKernel (fs.text b.1 b.2) (some d) false)]
      refine Yields.bind hnamei fun y _ => ?_
      exact Yields.of_eq (Yields.bind_drop (.pure rfl)) (add_comm _ _)
    refine Yields.of_eq (Yields.bind_drop hres) ?_
    show bref b + (iref d + iref x) = iref x + (iref d + bref b)
    abel

/-! ### `open_namei` -/

theorem addFrom_of_lt {i : ℕ} (h : i < (fs.inode dir).size / 16 + 2) :
    fs.addFrom dir i =
      match fs.dirBuf dir (fs.addBlock dir (i / dirEntriesPerBlock)) with
      | none => if fs.addBlock dir (i / dirEntriesPerBlock) = 0 then .ok none else .error .null
      | some b =>
        if (fs.inode dir).size ≤ i * 16 ∨ (fs.entry b.1 b.2 (i % dirEntriesPerBlock)).inode = 0 then
          .ok (some b)
        else fs.addFrom dir (i + 1) := by
  rw [Disks.addFrom, show (fs.inode dir).size / 16 + 2 - i =
      (fs.inode dir).size / 16 + 2 - (i + 1) + 1 by omega, List.range'_succ,
    List.find?_cons, Disks.addStops]
  cases hbuf : fs.dirBuf dir (fs.addBlock dir (i / dirEntriesPerBlock)) with
  | none => simp only [hbuf]
  | some b =>
    by_cases hfree : (fs.inode dir).size ≤ i * 16 ∨
        (fs.entry b.1 b.2 (i % dirEntriesPerBlock)).inode = 0
    · simp only [hfree, decide_true, hbuf, if_true]
    · simp only [hfree, decide_false, if_false, Disks.addFrom]

/-- Entry `i` is number `k` of buffer `b`, or the next block begins with it. -/
def AddAt (fs : Disks) (dir : InodeId) (i : ℕ) (b : ℕ × ℕ) (k : ℕ) : Prop :=
  k < dirEntriesPerBlock ∧ k = i % dirEntriesPerBlock ∧
      fs.dirBuf dir (fs.addBlock dir (i / dirEntriesPerBlock)) = some b ∨
    k = dirEntriesPerBlock ∧ i % dirEntriesPerBlock = 0 ∧ i ≠ 0

theorem AddAt.next {i k : ℕ} {b : ℕ × ℕ} (h : k < dirEntriesPerBlock)
    (hk : k = i % dirEntriesPerBlock)
    (hb : fs.dirBuf dir (fs.addBlock dir (i / dirEntriesPerBlock)) = some b) :
    AddAt fs dir (i + 1) b (k + 1) := by
  simp only [AddAt, dirEntriesPerBlock] at *
  by_cases hlast : k + 1 = 64
  · exact .inr ⟨hlast, by omega, by omega⟩
  · refine .inl ⟨by omega, by omega, ?_⟩
    rw [show (i + 1) / 64 = i / 64 by omega, hb]

/-- The loop of `add_entry` ends at a free entry, and entry `i_size / 16 + 1` is free. -/
theorem yields_addLoop (fuel : ℕ) {i k : ℕ} {b : ℕ × ℕ}
    (hfuel : (fs.inode dir).size / 16 + 3 ≤ fuel + i) (hi : i < (fs.inode dir).size / 16 + 2)
    (hb : AddAt fs dir i b k) :
    Yields (addLoop fs dir fuel i (some b) k) (bref b) (fs.addFrom dir i) brefs := by
  induction fuel generalizing i b k with
  | zero => omega
  | succ fuel ih =>
    rw [addLoop, addFrom_of_lt hi]
    have hcheck : ∀ b k, k < dirEntriesPerBlock → k = i % dirEntriesPerBlock →
        fs.dirBuf dir (fs.addBlock dir (i / dirEntriesPerBlock)) = some b →
        Yields (if (fs.inode dir).size ≤ i * 16 ∨ (fs.entry b.1 b.2 k).inode = 0 then pure (some b)
          else addLoop fs dir fuel (i + 1) (some b) (k + 1)) (bref b)
          (if (fs.inode dir).size ≤ i * 16 ∨
              (fs.entry b.1 b.2 (i % dirEntriesPerBlock)).inode = 0 then .ok (some b)
            else fs.addFrom dir (i + 1)) brefs := fun b k hk hki hbuf => by
      rw [← hki]
      refine Yields.ite (fun _ => .pure rfl) fun hused => ih (by omega) ?_ (.next hk hki hbuf)
      have hsize : ¬ (fs.inode dir).size ≤ i * 16 := fun h => hused (.inl h)
      omega
    obtain ⟨hk, hki, hbuf⟩ | ⟨hk, hmod, hpos⟩ := hb
    · rw [hbuf]
      simp only [if_neg (Nat.not_le.mpr hk)]
      exact hcheck b k hk hki hbuf
    · -- the next block, which may have to be created
      have hblock : fs.addBlock dir (i / dirEntriesPerBlock) =
          fs.createBlock dir (i / dirEntriesPerBlock) := by
        rw [Disks.addBlock, if_neg]
        simp only [dirEntriesPerBlock] at *
        omega
      simp only [hk, Nat.le_refl, if_true]
      refine Yields.of_eq (Yields.bind_drop ?_) (add_zero _).symm
      by_cases hzero : fs.createBlock dir (i / dirEntriesPerBlock) = 0
      · rw [if_pos hzero, hblock, hzero, Disks.dirBuf, if_pos (.inl rfl)]
        exact .pure rfl
      · rw [if_neg hzero]
        have hread := yields_dirBlock fs dir (fs.createBlock dir (i / dirEntriesPerBlock))
        rw [dirBlock, if_neg hzero] at hread
        refine hread.bind_ok ?_
        rw [← hblock]
        cases hbuf : fs.dirBuf dir (fs.addBlock dir (i / dirEntriesPerBlock)) with
        | none =>
          rw [if_neg (hblock ▸ hzero)]
          cases fuel with
          | zero => omega
          | succ fuel => exact .throw
        | some b' => exact hcheck b' 0 (by decide) hmod.symm hbuf

theorem yields_addEntry (fs : Disks) (dir : InodeId) :
    Yields (addEntry fs dir) 0 (fs.add dir) brefs := by
  refine (yields_dirBlock fs dir (fs.bmap dir 0)).bind_ok ?_
  rw [Disks.add]
  cases hbuf : fs.dirBuf dir (fs.bmap dir 0) with
  | none => exact .pure rfl
  | some b => exact yields_addLoop _ (Nat.le_refl _) (by omega) (.inl ⟨by decide, rfl, hbuf⟩)

/-- A directory is put, and an error or an inode returned. -/
theorem yields_openError (d : InodeId) (errno : ℕ) :
    Yields (do
      iput d
      pure (.error errno)) (iref d) (.ok (.error errno)) openRefs :=
  Yields.of_eq (Yields.bind_drop (.pure rfl)) (add_zero _).symm

theorem yields_openCreate (fs : Disks) (cur : Current) (d : InodeId) (flag : ℕ) :
    Yields (openCreate fs cur d flag) (iref d) (fs.creates cur d flag) openRefs := by
  rw [openCreate, Disks.creates]
  refine Yields.ite (fun _ => yields_openError d ENOENT) fun _ => ?_
  refine Yields.ite (fun _ => yields_openError d EACCES) fun _ => ?_
  cases fs.newInode d.1 with
  | none => exact yields_openError d ENOSPC
  | some num =>
    refine Yields.bind_take ?_
    have hadd := (yields_addEntry fs d).frame (iref (d.1, num) + iref d)
    rw [zero_add] at hadd
    refine Yields.bind hadd fun bh _ => ?_
    cases bh with
    | none =>
      refine Yields.of_eq (Yields.bind_drop (yields_openError d ENOSPC)) ?_
      exact zero_add _
    | some b =>
      refine Yields.bind_drop (Yields.of_eq (Yields.bind_drop (.pure rfl)) ?_)
      exact add_comm _ _

theorem yields_openFound (fs : Disks) (cur : Current) (d : InodeId) (b : ℕ × ℕ) (de : DirEntry)
    (flag : ℕ) :
    Yields (do
      brelse (some b)
      openFound fs cur d de flag) (foundRefs (d, some (b, de))) (fs.founds cur d de flag)
      openRefs := by
  have hb : foundRefs (d, some (b, de)) = bref b + iref d := add_comm _ _
  rw [hb, Disks.founds]
  refine Yields.bind_drop (Yields.ite (fun _ => yields_openError d EEXIST) fun _ => ?_)
  have hget := (yields_iget fs (d.1, de.inode)).frame (iref d)
  rw [zero_add] at hget
  refine Yields.bind hget fun x _ => ?_
  refine Yields.bind (Yields.of_eq (yields_followLink fs cur d x) (add_comm _ _)) fun y _ => ?_
  cases y with
  | none => exact .pure rfl
  | some y => exact Yields.ite (fun _ => yields_openError y EPERM) fun _ => .pure rfl

theorem yields_openNamei (fs : Disks) (cur : Current) (path : List Char) (flag : ℕ) :
    Yields (openNamei fs cur path flag) 0 (fs.opens cur path flag) openRefs := by
  refine Yields.bind (yields_getDir (yields_followLink fs cur) path none) fun dir _ => ?_
  cases dir with
  | none => exact .pure rfl
  | some dir =>
    refine Yields.ite (fun _ => ?_) fun _ => ?_
    · exact Yields.ite (fun _ => .pure rfl) fun _ => yields_openError dir EISDIR
    · refine Yields.bind (yields_findEntry fs cur dir (basename path)) fun r _ => ?_
      obtain ⟨d, found⟩ := r
      cases found with
      | none => exact Yields.of_eq (yields_openCreate fs cur d (openFlag flag)) (add_zero _)
      | some found => exact yields_openFound fs cur d found.1 found.2 (openFlag flag)

end

/-! ### Null pointers -/

namespace Disks

/-- Block `k` of the directory is missing or cannot be read, it is neither the first nor the
last block, and the name is not in the blocks before it. -/
def Breaks (fs : Disks) (cur : Current) (dir : InodeId) (name : Name) : Prop :=
  let d := fs.exchange cur dir name
  fs.dirBuf d.1 (fs.bmap d.1 0) ≠ none ∧
    ∃ k, fs.dirBuf d.1 (fs.bmap d.1 k) = none ∧ (k + 1) * dirEntriesPerBlock < fs.entries dir ∧
      ∀ i < k * dirEntriesPerBlock, fs.stops d.1 d.2 i = false

/-- Block `k` of the directory cannot be read, and no entry before it is free. -/
def AddBreaks (fs : Disks) (dir : InodeId) : Prop :=
  fs.dirBuf dir (fs.bmap dir 0) ≠ none ∧
    ∃ k, fs.addBlock dir k ≠ 0 ∧ fs.dirBuf dir (fs.addBlock dir k) = none ∧
      ∀ i < k * dirEntriesPerBlock, fs.addStops dir i = false

/-- The name is in the directory, and `iget` of its inode comes to `x`. -/
def Finds (fs : Disks) (cur : Current) (dir : InodeId) (name : Name) (d x : InodeId) : Prop :=
  ∃ b de, fs.find cur dir name = .ok (d, some (b, de)) ∧ fs.igets (d.1, de.inode) = .ok x

section

variable (fs : Disks) (cur : Current) (follow : InodeId → InodeId → Except Crash (Option InodeId))
  (L : InodeId → InodeId → Prop)

/-- `get_dir` comes to a directory that breaks off, or to a link that `L` holds of. -/
inductive TripsOn : List Name → InodeId → Prop where
  | breaks {name : Name} {names : List Name} {dir : InodeId} (hs : fs.Searchable cur dir)
      (hne : names ≠ []) (h : fs.Breaks cur dir name) : TripsOn (name :: names) dir
  | link {name : Name} {names : List Name} {dir d x : InodeId} (hs : fs.Searchable cur dir)
      (hne : names ≠ []) (hf : fs.Finds cur dir name d x) (h : L d x) :
      TripsOn (name :: names) dir
  | next {name : Name} {names : List Name} {dir d x y : InodeId} (hs : fs.Searchable cur dir)
      (hne : names ≠ []) (hf : fs.Finds cur dir name d x) (hy : follow d x = .ok (some y))
      (h : TripsOn names y) : TripsOn (name :: names) dir

/-- `_namei` trips on the way to the last directory, or in it, or at a link there that is not
followed to an inode. -/
def TripsAt (path : List Char) (base : Option InodeId) (followLinks : Bool) : Prop :=
  TripsOn fs cur follow L (startOf cur path base).2 (startOf cur path base).1 ∨
    ∃ dir, fs.walkFrom cur follow path base = .ok (some dir) ∧ basename path ≠ [] ∧
      (fs.Breaks cur dir (basename path) ∨ followLinks = true ∧
        ∃ d x, fs.Finds cur dir (basename path) d x ∧ (L d x ∨ follow d x = .ok none))

end

/-- A link on the path, where the look-up of its text trips. -/
def LinkTrips (fs : Disks) (cur : Current) (d x : InodeId) : Prop :=
  (fs.inode x).isLnk = true ∧ ∃ b, fs.dirBuf x (fs.bmap x 0) = some b ∧
    fs.TripsAt cur fs.followKernel (fun _ _ => False) (fs.text b.1 b.2) (some d) false

/-- Where `namei` and `lnamei` trip. -/
def Trips (fs : Disks) (cur : Current) (path : List Char) (followLinks : Bool) : Prop :=
  fs.TripsAt cur (fs.follow cur) (fs.LinkTrips cur) path none followLinks

/-- Where `open_namei` trips. -/
def OpenTrips (fs : Disks) (cur : Current) (path : List Char) (flag : ℕ) : Prop :=
  TripsOn fs cur (fs.follow cur) (fs.LinkTrips cur) (startOf cur path none).2
      (startOf cur path none).1 ∨
    ∃ dir, fs.walkFrom cur (fs.follow cur) path none = .ok (some dir) ∧ basename path ≠ [] ∧
      (fs.Breaks cur dir (basename path) ∨
        (wantsExcl (openFlag flag) = false ∧
          ∃ d x, fs.Finds cur dir (basename path) d x ∧ fs.LinkTrips cur d x) ∨
        ∃ d, fs.find cur dir (basename path) = .ok (d, none) ∧ wantsCreat (openFlag flag) = true ∧
          cur.permission d (fs.inode d) MAY_WRITE = true ∧ fs.newInode d.1 ≠ none ∧
          fs.AddBreaks d)

variable {fs : Disks} {cur : Current} {dir d x : InodeId} {name : Name}

theorem scanFrom_null {entries : ℕ} :
    fs.scanFrom dir name entries 0 = .error .null ↔
      ∃ k, fs.dirBuf dir (fs.bmap dir k) = none ∧ (k + 1) * dirEntriesPerBlock < entries ∧
        ∀ i < k * dirEntriesPerBlock, fs.stops dir name i = false := by
  simp only [dirEntriesPerBlock]
  constructor
  · intro h
    rw [scanFrom] at h
    split at h
    case h_1 => cases h
    case h_2 j hj =>
      obtain ⟨-, hmem, hfirst⟩ := List.find?_range'_eq_some.mp hj
      split at h
      case h_2 => cases h
      case h_1 hnone =>
        split at h
        case isFalse => cases h
        case isTrue hlt =>
          simp only [dirEntriesPerBlock] at hlt hnone
          -- the first entry that stops is the first one of its block
          have hstart : j / 64 * 64 = j := by
            by_contra hne
            have hbefore := hfirst (j / 64 * 64) (Nat.zero_le _) (by omega)
            rw [stops] at hbefore
            simp only [dirEntriesPerBlock, show j / 64 * 64 / 64 = j / 64 by omega, hnone] at hbefore
            cases hbefore
          refine ⟨j / 64, hnone, by omega, fun i hi => ?_⟩
          have := hfirst i (Nat.zero_le _) (by omega)
          simpa using this
  · rintro ⟨k, hnone, hlt, hfirst⟩
    have hstop : fs.stops dir name (k * 64) = true := by
      rw [stops]
      simp only [dirEntriesPerBlock, show k * 64 / 64 = k by omega, hnone]
    have hfind : (List.range' 0 (entries - 0)).find? (fs.stops dir name) = some (k * 64) := by
      refine List.find?_range'_eq_some.mpr ⟨hstop, ?_, fun i _ hi => ?_⟩
      · rw [List.mem_range'_1]
        omega
      · rw [hfirst i hi]
        rfl
    rw [scanFrom, hfind]
    simp only [dirEntriesPerBlock, show k * 64 / 64 = k by omega, hnone]
    rw [if_pos (by omega)]

theorem find_null : fs.find cur dir name = .error .null ↔ fs.Breaks cur dir name := by
  rw [find, Breaks, ← scanFrom_null]
  cases hbuf : fs.dirBuf (fs.exchange cur dir name).1 (fs.bmap (fs.exchange cur dir name).1 0) with
  | none => simp
  | some b =>
    dsimp only
    cases fs.scanFrom (fs.exchange cur dir name).1 (fs.exchange cur dir name).2 (fs.entries dir) 0 with
    | error c =>
      cases c with
      | null => simp [Except.map]
      | panic => simp [Except.map]
    | ok found => simp [Except.map]

theorem add_null : fs.add dir = .error .null ↔ fs.AddBreaks dir := by
  rw [add, AddBreaks]
  cases hbuf : fs.dirBuf dir (fs.bmap dir 0) with
  | none => simp
  | some b =>
    simp only [ne_eq, reduceCtorEq, not_false_eq_true, true_and, dirEntriesPerBlock]
    constructor
    · intro h
      rw [addFrom] at h
      split at h
      case h_1 => cases h
      case h_2 j hj =>
        obtain ⟨-, -, hfirst⟩ := List.find?_range'_eq_some.mp hj
        split at h
        case h_2 => cases h
        case h_1 hnone =>
          split at h
          case isTrue => cases h
          case isFalse hne =>
            simp only [dirEntriesPerBlock] at hne hnone
            refine ⟨j / 64, hne, hnone, fun i hi => ?_⟩
            have := hfirst i (Nat.zero_le _) (by omega)
            simpa using this
    · rintro ⟨k, hne, hnone, hfirst⟩
      have hstop : fs.addStops dir (k * 64) = true := by
        rw [addStops]
        simp only [dirEntriesPerBlock, show k * 64 / 64 = k by omega, hnone]
      -- the entries before are used, so the directory is as long as they are
      have hsize : k * 64 < (fs.inode dir).size / 16 + 2 := by
        by_cases hk : k = 0
        · omega
        · have hlast := hfirst (k * 64 - 1) (by omega)
          rw [addStops] at hlast
          split at hlast
          case h_1 => cases hlast
          case h_2 b _ =>
            simp only [decide_eq_false_iff_not, not_or] at hlast
            omega
      have hfind : (List.range' 0 ((fs.inode dir).size / 16 + 2 - 0)).find? (fs.addStops dir) =
          some (k * 64) := by
        refine List.find?_range'_eq_some.mpr ⟨hstop, ?_, fun i _ hi => ?_⟩
        · rw [List.mem_range'_1]
          omega
        · rw [hfirst i hi]
          rfl
      rw [addFrom, hfind]
      simp only [dirEntriesPerBlock, show k * 64 / 64 = k by omega, hnone]
      rw [if_neg hne]

theorem igets_ne_null {id : InodeId} : fs.igets id ≠ .error .null := by
  rw [igets]
  split
  · exact nofun
  · exact nofun

section

variable {follow : InodeId → InodeId → Except Crash (Option InodeId)} {L : InodeId → InodeId → Prop}

/-- What is done with an entry that is found trips where it does for the inode of the entry. -/
theorem bind_null {α : Type} {b : ℕ × ℕ} {de : DirEntry} {k : InodeId → Except Crash α}
    (hf : fs.find cur dir name = .ok (d, some (b, de))) :
    (fs.igets (d.1, de.inode) >>= k) = .error .null ↔
      ∃ x, fs.Finds cur dir name d x ∧ k x = .error .null := by
  cases hget : fs.igets (d.1, de.inode) with
  | error c =>
    constructor
    · intro h
      have hc : c = .null := Except.error.inj h
      rw [hc] at hget
      exact absurd hget igets_ne_null
    · rintro ⟨x, ⟨b', de', hf', hget'⟩, -⟩
      rw [hf] at hf'
      cases hf'
      rw [hget] at hget'
      cases hget'
  | ok x =>
    constructor
    · exact fun h => ⟨x, ⟨b, de, hf, hget⟩, h⟩
    · rintro ⟨x', ⟨b', de', hf', hget'⟩, h⟩
      rw [hf] at hf'
      cases hf'
      rw [hget] at hget'
      cases hget'
      exact h

theorem Finds.of_find {b : ℕ × ℕ} {de : DirEntry} {d' : InodeId}
    (hf : fs.find cur dir name = .ok (d, some (b, de))) (h : fs.Finds cur dir name d' x) :
    d' = d := by
  obtain ⟨b', de', hf', -⟩ := h
  rw [hf] at hf'
  cases hf'
  rfl

theorem Finds.not_none (hf : fs.find cur dir name = .ok (d, none)) {d' : InodeId} :
    ¬ fs.Finds cur dir name d' x := by
  rintro ⟨b', de', hf', -⟩
  rw [hf] at hf'
  cases hf'

theorem Finds.not_error {c : Crash} (hf : fs.find cur dir name = .error c) {d' : InodeId} :
    ¬ fs.Finds cur dir name d' x := by
  rintro ⟨b', de', hf', -⟩
  rw [hf] at hf'
  cases hf'

/-- One case of `TripsOn` for each way in which `get_dir` goes on from a directory. -/
theorem tripsOn_cons {names : List Name} :
    TripsOn fs cur follow L (name :: names) dir ↔ fs.Searchable cur dir ∧ names ≠ [] ∧
      (fs.Breaks cur dir name ∨ ∃ d x, fs.Finds cur dir name d x ∧
        (L d x ∨ ∃ y, follow d x = .ok (some y) ∧ TripsOn fs cur follow L names y)) := by
  constructor
  · intro h
    cases h with
    | breaks hs hne h => exact ⟨hs, hne, .inl h⟩
    | link hs hne hf h => exact ⟨hs, hne, .inr ⟨_, _, hf, .inl h⟩⟩
    | next hs hne hf hy h => exact ⟨hs, hne, .inr ⟨_, _, hf, .inr ⟨_, hy, h⟩⟩⟩
  · rintro ⟨hs, hne, h | ⟨d, x, hf, h | ⟨y, hy, h⟩⟩⟩
    · exact .breaks hs hne h
    · exact .link hs hne hf h
    · exact .next hs hne hf hy h

/-- `get_dir` reads through a null pointer exactly where it trips. -/
theorem walk_null (hL : ∀ d x, follow d x = .error .null ↔ L d x) (names : List Name)
    (dir : InodeId) :
    fs.walk cur follow names dir = .error .null ↔ TripsOn fs cur follow L names dir := by
  induction names generalizing dir with
  | nil => exact ⟨nofun, nofun⟩
  | cons name names ih =>
    rw [tripsOn_cons, walk]
    by_cases hs : fs.Searchable cur dir
    · rw [if_pos hs]
      by_cases hne : names = []
      · rw [if_pos hne]
        exact ⟨nofun, fun h => absurd hne h.2.1⟩
      · rw [if_neg hne]
        simp only [hs, hne, ne_eq, not_false_eq_true, true_and]
        cases hf : fs.find cur dir name with
        | error c =>
          rw [← find_null, hf]
          constructor
          · intro h
            have hc : c = .null := Except.error.inj h
            exact .inl (by rw [hc])
          · rintro (h | ⟨d, x, hd, -⟩)
            · have hc : c = .null := Except.error.inj h
              rw [hc]
              rfl
            · exact absurd hd (Finds.not_error hf)
        | ok r =>
          rw [← find_null, hf]
          obtain ⟨d, found⟩ := r
          cases found with
          | none =>
            constructor
            · exact nofun
            · rintro (h | ⟨d', x, hd, -⟩)
              · cases h
              · exact absurd hd (Finds.not_none hf)
          | some found =>
            obtain ⟨b, de⟩ := found
            -- the inode that is found is followed
            have hk : ∀ x, ((follow d x >>= fun inode => match inode with
                | none => .ok none
                | some inode => fs.walk cur follow names inode) =
                  (.error .null : Except Crash (Option InodeId))) ↔ (L d x ∨
                ∃ y, follow d x = .ok (some y) ∧ TripsOn fs cur follow L names y) := fun x => by
              rw [← hL]
              cases follow d x with
              | error c => simp [Bind.bind, Except.bind]
              | ok y =>
                cases y with
                | none => simp [Bind.bind, Except.bind]
                | some y => simp [Bind.bind, Except.bind, ih]
            refine (bind_null hf).trans ⟨?_, ?_⟩
            · rintro ⟨x, hx, h⟩
              exact .inr ⟨d, x, hx, (hk x).mp h⟩
            · rintro (h | ⟨d', x, hx, h⟩)
              · cases h
              · obtain rfl := hx.of_find hf
                exact ⟨x, hx, (hk x).mpr h⟩
    · rw [if_neg hs]
      exact ⟨nofun, fun h => absurd h.1 hs⟩

/-- `_namei` reads through a null pointer in the last directory, or after it. -/
theorem resolveLast_null (fs : Disks) (cur : Current)
    (hL : ∀ d x, follow d x = .error .null ↔ L d x) (dir : InodeId)
    (name : Name) (followLinks : Bool) :
    fs.resolveLast cur follow dir name followLinks = .error .null ↔
      fs.Breaks cur dir name ∨ followLinks = true ∧
        ∃ d x, fs.Finds cur dir name d x ∧ (L d x ∨ follow d x = .ok none) := by
  rw [← find_null, resolveLast]
  cases hf : fs.find cur dir name with
  | error c =>
    constructor
    · intro h
      have hc : c = .null := Except.error.inj h
      exact .inl (by rw [hc])
    · rintro (h | ⟨-, d, x, hd, -⟩)
      · have hc : c = .null := Except.error.inj h
        rw [hc]
        rfl
      · exact absurd hd (Finds.not_error hf)
  | ok r =>
    obtain ⟨d, found⟩ := r
    cases found with
    | none =>
      constructor
      · exact nofun
      · rintro (h | ⟨-, d', x, hd, -⟩)
        · cases h
        · exact absurd hd (Finds.not_none hf)
    | some found =>
      obtain ⟨b, de⟩ := found
      have hk : ∀ x, (((if followLinks then follow d x else .ok (some x)) >>= fun inode =>
          match inode with
          | none => .error .null
          | some inode => .ok (some inode)) = (.error .null : Except Crash (Option InodeId))) ↔
          followLinks = true ∧ (L d x ∨ follow d x = .ok none) := fun x => by
        rw [← hL]
        cases followLinks with
        | false => simp [Bind.bind, Except.bind]
        | true =>
          cases follow d x with
          | error c => simp [Bind.bind, Except.bind]
          | ok y =>
            cases y with
            | none => simp [Bind.bind, Except.bind]
            | some y => simp [Bind.bind, Except.bind]
      refine (bind_null hf).trans ⟨?_, ?_⟩
      · rintro ⟨x, hx, h⟩
        obtain ⟨hfollow, h⟩ := (hk x).mp h
        exact .inr ⟨hfollow, d, x, hx, h⟩
      · rintro (h | ⟨hfollow, d', x, hx, h⟩)
        · cases h
        · obtain rfl := hx.of_find hf
          exact ⟨x, hx, (hk x).mpr ⟨hfollow, h⟩⟩

/-- `_namei` reads through a null pointer exactly where it trips. -/
theorem resolve_null (hL : ∀ d x, follow d x = .error .null ↔ L d x) (path : List Char)
    (base : Option InodeId) (followLinks : Bool) :
    fs.resolve cur follow path base followLinks = .error .null ↔
      TripsAt fs cur follow L path base followLinks := by
  have hwalk : fs.walkFrom cur follow path base = .error .null ↔
      TripsOn fs cur follow L (startOf cur path base).2 (startOf cur path base).1 :=
    walk_null hL ..
  rw [TripsAt, ← hwalk, resolve]
  cases hdir : fs.walkFrom cur follow path base with
  | error c =>
    constructor
    · intro h
      have hc : c = .null := Except.error.inj h
      exact .inl (by rw [hc])
    · rintro (h | ⟨dir, h, -⟩)
      · have hc : c = .null := Except.error.inj h
        rw [hc]
        rfl
      · cases h
  | ok dir =>
    cases dir with
    | none =>
      constructor
      · exact nofun
      · rintro (h | ⟨dir, h, -⟩)
        · cases h
        · cases h
    | some dir =>
      have hlast := resolveLast_null fs cur hL dir (basename path) followLinks
      by_cases hbase : basename path = []
      · constructor
        · intro h
          change (if basename path = [] then Except.ok (some dir) else _) = _ at h
          rw [if_pos hbase] at h
          cases h
        · rintro (h | ⟨dir', -, hne, -⟩)
          · cases h
          · exact absurd hbase hne
      · change (if basename path = [] then Except.ok (some dir) else _) = _ ↔ _
        rw [if_neg hbase]
        refine hlast.trans ⟨fun h => .inr ⟨dir, rfl, hbase, h⟩, ?_⟩
        rintro (h | ⟨dir', hdir', -, h⟩)
        · cases h
        · cases hdir'
          exact h

end

theorem follow_null (d x : InodeId) : fs.follow cur d x = .error .null ↔ fs.LinkTrips cur d x := by
  have hkernel : ∀ d x, fs.followKernel d x = .error .null ↔ False := fun d x =>
    ⟨nofun, False.elim⟩
  rw [Disks.follow, LinkTrips]
  by_cases hlnk : (fs.inode x).isLnk = true
  · rw [if_pos hlnk]
    cases hbuf : fs.dirBuf x (fs.bmap x 0) with
    | none =>
      constructor
      · exact nofun
      · rintro ⟨-, b, hb, -⟩
        cases hb
    | some b =>
      refine (resolve_null hkernel ..).trans ⟨fun h => ⟨hlnk, b, rfl, h⟩, ?_⟩
      rintro ⟨-, b', hb, h⟩
      cases hb
      exact h
  · rw [if_neg hlnk]
    exact ⟨nofun, fun h => absurd h.1 hlnk⟩

theorem creates_null {flag : ℕ} : fs.creates cur d flag = .error .null ↔
    wantsCreat flag = true ∧ cur.permission d (fs.inode d) MAY_WRITE = true ∧
      fs.newInode d.1 ≠ none ∧ fs.AddBreaks d := by
  rw [creates, ← add_null]
  cases wantsCreat flag with
  | false => simp
  | true =>
    cases cur.permission d (fs.inode d) MAY_WRITE with
    | false => simp
    | true =>
      cases fs.newInode d.1 with
      | none => simp
      | some num =>
        cases fs.add d with
        | error c => simp [Bind.bind, Except.bind]
        | ok bh =>
          cases bh with
          | none => simp [Bind.bind, Except.bind]
          | some b => simp [Bind.bind, Except.bind]

theorem founds_null {b : ℕ × ℕ} {de : DirEntry} {flag : ℕ}
    (hf : fs.find cur dir name = .ok (d, some (b, de))) :
    fs.founds cur d de flag = .error .null ↔ wantsExcl flag = false ∧
      ∃ d x, fs.Finds cur dir name d x ∧ fs.LinkTrips cur d x := by
  rw [founds]
  cases wantsExcl flag with
  | true => simp
  | false =>
    simp only [Bool.false_eq_true, if_false, true_and]
    refine (bind_null hf).trans ?_
    have hk : ∀ x, ((fs.follow cur d x >>= fun inode => match inode with
        | none => .ok (.error EACCES)
        | some inode =>
          if (fs.inode inode).isDir ∧ accMode flag ≠ 0 ∨
              cur.permission inode (fs.inode inode) (permissionMask flag) = false then
            .ok (.error EPERM)
          else .ok (.ok inode)) = (.error .null : Except Crash (Except ℕ InodeId))) ↔
        fs.LinkTrips cur d x := fun x => by
      rw [← follow_null]
      cases fs.follow cur d x with
      | error c => simp [Bind.bind, Except.bind]
      | ok y =>
        cases y with
        | none => simp [Bind.bind, Except.bind]
        | some y =>
          show (if _ then _ else _) = _ ↔ _
          split
          · exact ⟨nofun, nofun⟩
          · exact ⟨nofun, nofun⟩
    constructor
    · rintro ⟨x, hx, h⟩
      exact ⟨d, x, hx, (hk x).mp h⟩
    · rintro ⟨d', x, hx, h⟩
      obtain rfl := hx.of_find hf
      exact ⟨x, hx, (hk x).mpr h⟩

/-- `open_namei` reads through a null pointer in the last directory, or after it. -/
theorem openLast_null (dir : InodeId) (name : Name) (flag : ℕ) :
    fs.openLast cur dir name flag = .error .null ↔ fs.Breaks cur dir name ∨
      (wantsExcl flag = false ∧ ∃ d x, fs.Finds cur dir name d x ∧ fs.LinkTrips cur d x) ∨
      ∃ d, fs.find cur dir name = .ok (d, none) ∧ wantsCreat flag = true ∧
        cur.permission d (fs.inode d) MAY_WRITE = true ∧ fs.newInode d.1 ≠ none ∧
        fs.AddBreaks d := by
  rw [← find_null, openLast]
  cases hf : fs.find cur dir name with
  | error c =>
    constructor
    · intro h
      have hc : c = .null := Except.error.inj h
      exact .inl (by rw [hc])
    · rintro (h | ⟨-, d, x, hd, -⟩ | ⟨d, hd, -⟩)
      · have hc : c = .null := Except.error.inj h
        rw [hc]
        rfl
      · exact absurd hd (Finds.not_error hf)
      · cases hd
  | ok r =>
    obtain ⟨d, found⟩ := r
    cases found with
    | none =>
      refine creates_null.trans ⟨fun h => .inr (.inr ⟨d, rfl, h⟩), ?_⟩
      rintro (h | ⟨-, d', x, hd, -⟩ | ⟨d', hd, h⟩)
      · cases h
      · exact absurd hd (Finds.not_none hf)
      · cases hd
        exact h
    | some found =>
      obtain ⟨b, de⟩ := found
      refine (founds_null hf).trans ⟨fun h => .inr (.inl h), ?_⟩
      rintro (h | h | ⟨d', hd, -⟩)
      · cases h
      · exact h
      · cases hd

/-- `open_namei` reads through a null pointer exactly where it trips. -/
theorem opens_null (path : List Char) (flag : ℕ) :
    fs.opens cur path flag = .error .null ↔ fs.OpenTrips cur path flag := by
  have hwalk : fs.walkFrom cur (fs.follow cur) path none = .error .null ↔
      TripsOn fs cur (fs.follow cur) (fs.LinkTrips cur) (startOf cur path none).2
        (startOf cur path none).1 := walk_null follow_null ..
  rw [OpenTrips, ← hwalk, opens]
  cases hdir : fs.walkFrom cur (fs.follow cur) path none with
  | error c =>
    constructor
    · intro h
      have hc : c = .null := Except.error.inj h
      exact .inl (by rw [hc])
    · rintro (h | ⟨dir, h, -⟩)
      · have hc : c = .null := Except.error.inj h
        rw [hc]
        rfl
      · cases h
  | ok dir =>
    cases dir with
    | none =>
      constructor
      · exact nofun
      · rintro (h | ⟨dir, h, -⟩)
        · cases h
        · cases h
    | some dir =>
      by_cases hbase : basename path = []
      · constructor
        · intro h
          change (if basename path = [] then (if _ then _ else _) else _) = _ at h
          rw [if_pos hbase] at h
          split at h
          · cases h
          · cases h
        · rintro (h | ⟨dir', -, hne, -⟩)
          · cases h
          · exact absurd hbase hne
      · have hlast : fs.openLast cur dir (basename path) (openFlag flag) = .error .null ↔ _ :=
          openLast_null dir (basename path) (openFlag flag)
        change (if basename path = [] then _ else _) = _ ↔ _
        rw [if_neg hbase]
        refine hlast.trans ⟨fun h => .inr ⟨dir, rfl, hbase, h⟩, ?_⟩
        rintro (h | ⟨dir', hdir', -, h⟩)
        · cases h
        · cases hdir'
          exact h

end Disks

/-- `m` reads through no null pointer, and when it returns, every `i_count` and `b_count` is as
before, but for the references of what it returns. -/
def Sound {α : Type} (m : Namei α) (refs : α → Ref → ℕ) : Prop :=
  ∀ s, m s ≠ .error .null ∧ ∀ r s', m s = .ok (r, s') → s' = s + refs r

theorem sound_iff {α : Type} {m : Namei α} {r : Except Crash α} {refs : α → Ref → ℕ}
    (h : Owning.Yields m 0 r refs) : Sound m refs ↔ r ≠ .error .null := by
  constructor
  · intro hsound hr
    exact (hsound 0).1 (h.error_iff.mpr hr)
  · exact fun hr s => ⟨fun hm => hr (h.error_iff.mp hm), fun a s' hm => (h.result hm).2⟩

/-- `namei`, `lnamei` and `open_namei` are sound exactly where they do not trip. -/
theorem namei_refs (fs : Disks) (cur : Current) (path : List Char) (flag : ℕ) :
    (Sound (namei fs cur path) irefs ↔ ¬ fs.Trips cur path true) ∧
    (Sound (lnamei fs cur path) irefs ↔ ¬ fs.Trips cur path false) ∧
    (Sound (openNamei fs cur path flag) openRefs ↔ ¬ fs.OpenTrips cur path flag) := by
  have hnamei : ∀ followLinks, Sound (doNamei fs cur (followLink fs cur) path none followLinks)
      irefs ↔ ¬ fs.Trips cur path followLinks := fun followLinks => by
    rw [sound_iff (yields_doNamei fs cur (yields_followLink fs cur) path none followLinks),
      Disks.Trips, ← Disks.resolve_null Disks.follow_null]
  refine ⟨hnamei true, hnamei false, ?_⟩
  rw [sound_iff (yields_openNamei fs cur path flag), ← Disks.opens_null]

/-! ### Open and stat -/

namespace Disks

variable {fs : Disks} {cur : Current} {d id : InodeId} {name : Name} {path : List Char} {flag : ℕ}

theorem openFlag_of_not_trunc (htrunc : wantsTrunc flag = false) : openFlag flag = flag := by
  rw [openFlag, if_neg]
  rintro ⟨h, -⟩
  rw [htrunc] at h
  cases h

theorem resolveLast_of_openLast (hcreat : wantsCreat flag = false)
    (h : fs.openLast cur d name flag = .ok (.ok id)) :
    fs.resolveLast cur (fs.follow cur) d name true = .ok (some id) := by
  obtain ⟨⟨d', found⟩, hfind, h⟩ := Except.ok_of_bind h
  rw [resolveLast, hfind]
  cases found with
  | none =>
    -- the name is not there, and is not created
    change fs.creates cur d' flag = _ at h
    rw [creates, if_pos hcreat] at h
    cases h
  | some found =>
    change fs.founds cur d' found.2 flag = _ at h
    rw [founds] at h
    split at h
    · cases h
    · obtain ⟨x, hx, h⟩ := Except.ok_of_bind h
      obtain ⟨y, hy, h⟩ := Except.ok_of_bind h
      change (fs.igets (d'.1, found.2.inode) >>= fun inode => fs.follow cur d' inode >>= _) = _
      rw [hx]
      change (fs.follow cur d' x >>= _) = _
      rw [hy]
      cases y with
      | none => cases h
      | some y =>
        -- what has passed the checks is what was found
        change (if _ then _ else _) = _ at h
        split at h
        · cases h
        · cases h
          rfl

theorem openLast_of_resolveLast (hcreat : wantsCreat flag = false)
    (h : fs.resolveLast cur (fs.follow cur) d name true = .ok none) :
    fs.openLast cur d name flag = .ok (.error ENOENT) := by
  obtain ⟨⟨d', found⟩, hfind, h⟩ := Except.ok_of_bind h
  rw [openLast, hfind]
  cases found with
  | none =>
    change fs.creates cur d' flag = _
    rw [creates, if_pos hcreat]
  | some found =>
    obtain ⟨x, -, h⟩ := Except.ok_of_bind h
    obtain ⟨y, -, h⟩ := Except.ok_of_bind h
    cases y with
    | none => cases h
    | some y => cases h

theorem resolve_of_opens (hcreat : wantsCreat flag = false) (htrunc : wantsTrunc flag = false)
    (h : fs.opens cur path flag = .ok (.ok id)) :
    fs.resolve cur (fs.follow cur) path none true = .ok (some id) := by
  obtain ⟨dir, hdir, h⟩ := Except.ok_of_bind h
  rw [resolve, hdir]
  cases dir with
  | none => cases h
  | some dir =>
    change (if basename path = [] then _ else _) = _ at h
    change (if basename path = [] then _ else _) = _
    rw [openFlag_of_not_trunc htrunc] at h
    by_cases hbase : basename path = []
    · rw [if_pos hbase] at h ⊢
      split at h
      · cases h
        rfl
      · cases h
    · rw [if_neg hbase] at h ⊢
      exact resolveLast_of_openLast hcreat h

theorem opens_of_resolve (hcreat : wantsCreat flag = false) (htrunc : wantsTrunc flag = false)
    (h : fs.resolve cur (fs.follow cur) path none true = .ok none) :
    fs.opens cur path flag = .ok (.error ENOENT) := by
  obtain ⟨dir, hdir, h⟩ := Except.ok_of_bind h
  rw [opens, hdir]
  cases dir with
  | none => rfl
  | some dir =>
    change (if basename path = [] then _ else _) = _ at h
    change (if basename path = [] then _ else _) = _
    rw [openFlag_of_not_trunc htrunc]
    by_cases hbase : basename path = []
    · rw [if_pos hbase] at h
      cases h
    · rw [if_neg hbase] at h ⊢
      exact openLast_of_resolveLast hcreat h

end Disks

/-- `open_namei` without `O_CREAT` and `O_TRUNC`, with `O_EXCL` or without it, opens what `namei`
finds, with the same references, and nothing where `namei` finds nothing. -/
theorem open_agrees (fs : Disks) (cur : Current) (path : List Char) (flag : ℕ)
    (hcreat : wantsCreat flag = false) (htrunc : wantsTrunc flag = false) (s : Ref → ℕ) :
    (∀ id s', openNamei fs cur path flag s = .ok (.ok id, s') →
      namei fs cur path s = .ok (some id, s')) ∧
    (∀ s', namei fs cur path s = .ok (none, s') →
      openNamei fs cur path flag s = .ok (.error ENOENT, s')) ∧
    ((∀ id s', namei fs cur path s ≠ .ok (some id, s')) →
      ∀ id s', openNamei fs cur path flag s ≠ .ok (.ok id, s')) := by
  have hopen := yields_openNamei fs cur path flag s
  have hnamei := yields_doNamei fs cur (yields_followLink fs cur) path none true s
  have hsame : ∀ id s', openNamei fs cur path flag s = .ok (.ok id, s') →
      namei fs cur path s = .ok (some id, s') := by
    intro id s' h
    obtain ⟨hres, hs⟩ := (yields_openNamei fs cur path flag).result h
    rw [namei, ← add_zero s]
    refine hnamei.trans ?_
    rw [Disks.resolve_of_opens hcreat htrunc hres, hs]
    rfl
  refine ⟨hsame, ?_, fun hnone id s' h => hnone id s' (hsame id s' h)⟩
  intro s' h
  obtain ⟨hres, hs⟩ :=
    (yields_doNamei fs cur (yields_followLink fs cur) path none true).result h
  rw [← add_zero s]
  refine hopen.trans ?_
  rw [Disks.opens_of_resolve hcreat htrunc hres, hs]
  rfl

/-! ### A dangling link, and a hole -/

/-- One device: inode 1 is a directory with entries `.`, `..` and `l`, which is inode 2, a link
to `x`; inode 3 is a directory of three blocks, of which the second is missing. -/
def tripDisks : Disks where
  inode id :=
    if id.2 = 2 then ⟨0o120777, 0, 0, 1, 1⟩
    else if id.2 = 3 then ⟨0o040755, 0, 0, 2, 129 * 16⟩
    else ⟨0o040755, 0, 0, 3, 4 * 16⟩
  inodeReadable _ := true
  bmap id k := if id.2 = 3 ∧ k = 1 then 0 else 10 * id.2 + k
  createBlock _ _ := 0
  readable _ _ := true
  entry _ block k :=
    if block = 10 then
      match k with
      | 0 => ⟨1, ['.']⟩
      | 1 => ⟨1, ['.', '.']⟩
      | 2 => ⟨2, ['l']⟩
      | _ => ⟨3, ['d']⟩
    else ⟨0, []⟩
  text _ _ := ['x']
  mountedDev _ := none
  imount _ := some (1, 1)
  newInode _ := none

/-- The superuser, in the root directory. -/
def tripCurrent : Current := ⟨(1, 1), (1, 1), 0, 0, []⟩

/-- `namei("l")` sets `i_atime` of a null pointer. -/
theorem namei_dangling : ¬ ∀ fs cur path, Sound (namei fs cur path) irefs := by
  have hnull : tripDisks.resolve tripCurrent (tripDisks.follow tripCurrent) ['l'] none true =
      .error .null := by
    decide +kernel
  intro h
  refine (sound_iff (yields_doNamei tripDisks tripCurrent (yields_followLink tripDisks tripCurrent)
    ['l'] none true)).mp (h tripDisks tripCurrent ['l']) hnull

/-- `lnamei("d/y")` looks for the end of a null buffer. -/
theorem lnamei_hole : ¬ Sound (lnamei tripDisks tripCurrent ['d', '/', 'y']) irefs := by
  have hnull : tripDisks.resolve tripCurrent (tripDisks.follow tripCurrent) ['d', '/', 'y'] none
      false = .error .null := by
    decide +kernel
  intro h
  refine (sound_iff (yields_doNamei tripDisks tripCurrent (yields_followLink tripDisks tripCurrent)
    ['d', '/', 'y'] none false)).mp h hnull

/-- `open` and `stat` of the directory `d` come to inode 3. -/
theorem open_agrees_dir : namei tripDisks tripCurrent ['d'] 0 =
    .ok (some (1, 3), irefs (some (1, 3))) := by
  have hopens : tripDisks.opens tripCurrent ['d'] 0 = .ok (.ok (1, 3)) := by decide +kernel
  have hopen := yields_openNamei tripDisks tripCurrent ['d'] 0 0
  rw [add_zero, hopens] at hopen
  rw [← zero_add (irefs (some (1, 3)))]
  exact (open_agrees tripDisks tripCurrent ['d'] 0 (by decide) (by decide) 0).1 (1, 3) _ hopen

end Fs
