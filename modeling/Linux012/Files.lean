/-
The calls of a process that take a path, and `read` (fs/open.c, fs/stat.c, fs/namei.c,
fs/read_write.c, fs/file_dev.c).

* `Files` — inodes, the bytes of files, and the inode bitmaps;
* `Files.disks` — what `namei` and `open_namei` look at, so that paths are those of `Namei.lean`;
* `FileTask`, `FileCall`, `FileTask.call` — a process, its calls, and what they answer.

Design notes: files share no blocks, so that a block is named by the inode and its place in the
file; whether `create_block` finds a zone is `room`.  `namei` does not sleep here.  The drivers
of special files are a parameter, and so is a block of a disk by its number, which
`sys_readlink` reads where `i_zone[0]` is the number of a device.
-/
import Linux012.Chroot
import Linux012.Zones

namespace Fs

open Function (update)

structure Node extends DInode where
  /-- `i_zone[0]` -/
  zone : ℕ
  atime : ℕ
  mtime : ℕ
  ctime : ℕ

/-- The files of the mounted devices. -/
structure Files where
  node : InodeId → Node
  /-- the bytes of a file, where `mapped` holds -/
  data : InodeId → ℕ → UInt8
  /-- `bmap` is not 0 -/
  mapped : InodeId → ℕ → Bool
  /-- the block can be read -/
  readable : InodeId → ℕ → Bool
  inodeReadable : InodeId → Bool
  mountedDev : InodeId → Option ℕ
  imount : ℕ → Option InodeId
  /-- `s_imap` and `s_ninodes` -/
  imap : ℕ → ℕ → Bool
  ninodes : ℕ → ℕ
  /-- `create_block` finds a zone for the block -/
  room : InodeId → ℕ → Bool
  /-- the references to an inode that are not of a call -/
  held : InodeId → ℕ
  /-- `CURRENT_TIME` -/
  now : ℕ

namespace Files

/-- A byte of a file, where holes are zero. -/
def byte (s : Files) (id : InodeId) (pos : ℕ) : UInt8 :=
  if s.mapped id (pos / 1024) then s.data id pos else 0

/-- The bytes before the first zero. -/
def string (s : Files) (id : InodeId) (pos len : ℕ) : List UInt8 :=
  ((List.range' pos len).map (s.byte id)).takeWhile (· ≠ 0)

/-- Entry `i` of a directory. -/
def dirEntry (s : Files) (dir : InodeId) (i : ℕ) : DirEntry where
  inode := (s.byte dir (16 * i)).toNat + 256 * (s.byte dir (16 * i + 1)).toNat
  name := (s.string dir (16 * i + 2) nameLen).map Char.ofUInt8

/-- The number that stands for block `k` of a file. -/
def blockNr (id : InodeId) (k : ℕ) : ℕ := Nat.pair id.2 k + 1

/-- `new_inode`, up to `set_bit`. -/
def newInode (s : Files) (dev : ℕ) : Option ℕ :=
  let j := findFirstZero (s.imap dev) (8 * bitsPerBlock) 0
  if j < 8 * bitsPerBlock ∧ j ≤ s.ninodes dev then some j else none

/-- What the look-up of a path reads. -/
def disks (s : Files) : Disks where
  inode id := (s.node id).toDInode
  inodeReadable := s.inodeReadable
  bmap id k := if s.mapped id k then blockNr id k else 0
  createBlock id k := if s.mapped id k ∨ s.room id k then blockNr id k else 0
  readable dev block := s.readable (dev, (block - 1).unpair.1) (block - 1).unpair.2
  entry dev block i :=
    s.dirEntry (dev, (block - 1).unpair.1) (dirEntriesPerBlock * (block - 1).unpair.2 + i)
  text dev block :=
    (s.string (dev, (block - 1).unpair.1) (1024 * (block - 1).unpair.2) 1024).map Char.ofUInt8
  mountedDev := s.mountedDev
  imount := s.imount
  newInode := s.newInode

def setNode (s : Files) (id : InodeId) (f : Node → Node) : Files :=
  { s with node := update s.node id (f (s.node id)) }

/-- `inode->i_atime = CURRENT_TIME`. -/
def touch (s : Files) (id : InodeId) : Files := s.setNode id fun n => { n with atime := s.now }

/-- `truncate`. -/
def truncate (s : Files) (id : InodeId) : Files :=
  if (s.node id).mode &&& 0o170000 ∈ [0o100000, 0o040000, 0o120000] then
    { s.setNode id fun n => { n with zone := 0, size := 0, mtime := s.now, ctime := s.now } with
      mapped := update s.mapped id fun _ => false }
  else s

/-- `free_inode`. -/
def freeInode (s : Files) (id : InodeId) : Files :=
  { s.setNode id fun _ => ⟨⟨0, 0, 0, 0, 0⟩, 0, 0, 0, 0⟩ with
    imap := update s.imap id.1 (update (s.imap id.1) id.2 false) }

/-- `iput`, of the last reference that a call has. -/
def put (s : Files) (id : InodeId) : Files :=
  if s.held id = 0 ∧ (s.node id).nlinks = 0 then (s.truncate id).freeInode id else s

/-- Block `k` of the file is there, and zero if it is new. -/
def grow (s : Files) (id : InodeId) (k : ℕ) : Files :=
  if s.mapped id k then s
  else
    { s with
      mapped := update s.mapped id (update (s.mapped id) k true)
      data := update s.data id fun pos => if pos / 1024 = k then 0 else s.data id pos }

/-- The 16 bytes of a directory entry. -/
def entryBytes (num : ℕ) (name : Name) : List UInt8 :=
  UInt8.ofNat num :: UInt8.ofNat (num / 256) ::
    (name.take nameLen).map fun c => UInt8.ofNat c.toNat

/-- Entry `i` of the directory is written. -/
def writeEntry (s : Files) (dir : InodeId) (i num : ℕ) (name : Name) : Files :=
  { s with
    data := update s.data dir fun pos =>
      if pos / 16 = i then (entryBytes num name).getD (pos % 16) 0 else s.data dir pos }

/-- `de->inode = 0`. -/
def clearEntry (s : Files) (dir : InodeId) (i : ℕ) : Files :=
  { s with
    data := update s.data dir fun pos =>
      if pos = 16 * i ∨ pos = 16 * i + 1 then 0 else s.data dir pos }

/-- The entry that `add_entry` finds. -/
def addIndex (s : Files) (dir : InodeId) : Except Crash (Option ℕ) :=
  match s.disks.dirBuf dir (s.disks.bmap dir 0) with
  | none => .ok none
  | some _ =>
    match (List.range' 0 ((s.node dir).size / 16 + 2)).find? (s.disks.addStops dir) with
    | none => .ok none
    | some i =>
      match s.disks.dirBuf dir (s.disks.addBlock dir (i / dirEntriesPerBlock)) with
      | none => if s.disks.addBlock dir (i / dirEntriesPerBlock) = 0 then .ok none else .error .null
      | some _ => .ok (some i)

/-- Entry `i` is inside the directory. -/
def extend (s : Files) (dir : InodeId) (i : ℕ) : Files :=
  if (s.node dir).size ≤ i * 16 then
    s.setNode dir fun n => { n with size := (i + 1) * 16, ctime := s.now }
  else s

/-- What `add_entry` does to entry `i`, with the store of the inode number. -/
def putEntry (s : Files) (dir : InodeId) (i num : ℕ) (name : Name) : Files :=
  let s := (s.grow dir (i / dirEntriesPerBlock)).extend dir i
  (s.setNode dir fun n => { n with mtime := s.now }).writeEntry dir i num name

/-- `add_entry`, and the store of the inode number to the entry. -/
def addEntry (s : Files) (dir : InodeId) (name : Name) (num : ℕ) : Except Crash (Option Files) :=
  (s.addIndex dir).map fun r => r.map fun i => s.putEntry dir i num name

end Files

/-- An open file: `f_inode`, `f_flags` and `f_pos`. -/
structure OpenFile where
  inode : InodeId
  flags : ℕ
  pos : ℕ

/-- A process, and the files. -/
structure FileTask where
  fs : Files
  cur : Current
  uid : ℕ
  gid : ℕ
  umask : ℕ
  filp : ℕ → Option OpenFile
  /-- the free entries of `file_table` -/
  slots : ℕ

/-- What a call returns, with what it stores for the process. -/
inductive Answer where
  | crash
  | error (e : ℕ)
  | val (n : ℕ)
  | bytes (l : List UInt8)
  | stat (id : InodeId) (n : Node)

/-- What is under the special files, and under the files. -/
structure Devices where
  /-- `rw_char` and `block_read` -/
  read : Files → InodeId → ℤ → Answer
  /-- the string at the start of a block of a disk -/
  block : Files → ℕ → ℕ → List UInt8

def EBADF : ℕ := 9
def EXDEV : ℕ := 18
def ENOTDIR : ℕ := 20
def EINVAL : ℕ := 22
def ERROR : ℕ := 99

inductive FileCall where
  | open (path : List Char) (flag mode : ℕ)
  | read (fd : ℕ) (count : ℤ)
  | readlink (path : List Char) (bufsiz : ℤ)
  /-- `sys_stat`, or `sys_lstat` -/
  | stat (path : List Char) (follow : Bool)
  | access (path : List Char) (mode : ℕ)
  | chdir (path : List Char)
  | chmod (path : List Char) (mode : ℕ)
  | chown (path : List Char) (uid gid : ℕ)
  | utime (path : List Char) (times : Option (ℕ × ℕ))
  | link (old new : List Char)
  | unlink (path : List Char)

namespace FileTask

variable (devices : Devices)

/-- `namei`, or `lnamei`: what it finds, before the time is set. -/
def lookup (s : FileTask) (path : List Char) (follow : Bool) : Except Crash (Option InodeId) :=
  s.fs.disks.resolve s.cur (s.fs.disks.follow s.cur) path none follow

/-- A call that looks up a path first, and returns `e` where there is nothing. -/
def withInode (s : FileTask) (path : List Char) (follow : Bool) (e : ℕ)
    (k : FileTask → InodeId → FileTask × Answer) : FileTask × Answer :=
  match s.lookup path follow with
  | .error _ => (s, .crash)
  | .ok none => (s, .error e)
  | .ok (some id) => k (if basename path = [] then s else { s with fs := s.fs.touch id }) id

def permission (s : FileTask) (id : InodeId) (mask : ℕ) : Bool :=
  s.cur.permission id (s.fs.node id).toDInode mask

/-! ### Opening -/

/-- The mode of a new file. -/
def createMode (s : FileTask) (mode : ℕ) : ℕ :=
  0o100000 ||| (mode &&& 0o777 &&& (0o777 ^^^ (s.umask &&& 0o777)))

/-- `new_inode`, and the fields that `open_namei` sets. -/
def freshNode (s : FileTask) (num : ℕ) (dev mode : ℕ) : Files :=
  { s.fs.setNode (dev, num) fun _ =>
      ⟨⟨s.createMode mode, s.cur.euid, s.cur.egid, 1, 0⟩, 0, s.fs.now, s.fs.now, s.fs.now⟩ with
    imap := update s.fs.imap dev (update (s.fs.imap dev) num true)
    mapped := update s.fs.mapped (dev, num) fun _ => false }

/-- `open_namei` where the name is not in the directory. -/
def openCreate (s : FileTask) (dir : InodeId) (name : Name) (flag mode : ℕ) :
    Files × Except Crash (Except ℕ InodeId) :=
  if wantsCreat flag = false then (s.fs, .ok (.error ENOENT))
  else if s.permission dir MAY_WRITE = false then (s.fs, .ok (.error EACCES))
  else
    match s.fs.newInode dir.1 with
    | none => (s.fs, .ok (.error ENOSPC))
    | some num =>
      match (s.freshNode num dir.1 mode).addEntry dir name num with
      | .error c => (s.fs, .error c)
      | .ok none =>
        -- `inode->i_nlinks--` and `iput`
        ((s.freshNode num dir.1 mode).freeInode (dir.1, num), .ok (.error ENOSPC))
      | .ok (some fs) => (fs, .ok (.ok (dir.1, num)))

/-- `open_namei` where entry `de` of the directory has the name. -/
def openFound (s : FileTask) (dir : InodeId) (de : DirEntry) (flag : ℕ) :
    Files × Except Crash (Except ℕ InodeId) :=
  if wantsExcl flag then (s.fs, .ok (.error EEXIST))
  else
    match s.fs.disks.igets (dir.1, de.inode) >>= s.fs.disks.follow s.cur dir with
    | .error c => (s.fs, .error c)
    | .ok none => (s.fs, .ok (.error EACCES))
    | .ok (some id) =>
      if ((s.fs.node id).isDir ∧ accMode flag ≠ 0) ∨
          s.permission id (permissionMask flag) = false then (s.fs, .ok (.error EPERM))
      else
        let fs := s.fs.touch id
        (if wantsTrunc flag then fs.truncate id else fs, .ok (.ok id))

/-- `open_namei`. -/
def openNamei (s : FileTask) (path : List Char) (flag mode : ℕ) :
    Files × Except Crash (Except ℕ InodeId) :=
  match s.fs.disks.walkFrom s.cur (s.fs.disks.follow s.cur) path none with
  | .error c => (s.fs, .error c)
  | .ok none => (s.fs, .ok (.error ENOENT))
  | .ok (some dir) =>
    if basename path = [] then
      if accMode (openFlag flag) = 0 ∧ wantsCreat (openFlag flag) = false ∧
          wantsTrunc (openFlag flag) = false then (s.fs, .ok (.ok dir))
      else (s.fs, .ok (.error EISDIR))
    else
      match s.fs.disks.find s.cur dir (basename path) with
      | .error c => (s.fs, .error c)
      | .ok (dir, none) => s.openCreate dir (basename path) (openFlag flag) mode
      | .ok (dir, some (_, de)) => s.openFound dir de (openFlag flag)

/-- The first free descriptor, of 20. -/
def freeFd (s : FileTask) : Option ℕ := (List.range 20).find? fun fd => (s.filp fd).isNone

/-- `sys_open`. -/
def sysOpen (s : FileTask) (path : List Char) (flag mode : ℕ) : FileTask × Answer :=
  match s.freeFd with
  | none => (s, .error EINVAL)
  | some fd =>
    if s.slots = 0 then (s, .error EINVAL)
    else
      match s.openNamei path flag mode with
      | (fs, .error _) => ({ s with fs := fs }, .crash)
      | (fs, .ok (.error e)) => ({ s with fs := fs }, .error e)
      | (fs, .ok (.ok id)) =>
        ({ s with
            fs := { fs with held := update fs.held id (fs.held id + 1) }
            filp := update s.filp fd (some ⟨id, flag, 0⟩)
            slots := s.slots - 1 }, .val fd)

/-! ### Reading -/

/-- The loop of `file_read`: what it copies. -/
def fileRead (fs : Files) (id : InodeId) : ℕ → ℕ → ℕ → List UInt8
  | 0, _, _ => []
  | fuel + 1, pos, left =>
    if left = 0 ∨ (fs.mapped id (pos / 1024) = true ∧ fs.readable id (pos / 1024) = false) then []
    else
      let chars := min (1024 - pos % 1024) left
      (List.range' pos chars).map (fs.byte id) ++ fileRead fs id fuel (pos + chars) (left - chars)

/-- `S_ISCHR` and `S_ISBLK`. -/
def isDevice (n : Node) : Bool :=
  n.mode &&& 0o170000 == 0o020000 || n.mode &&& 0o170000 == 0o060000

/-- `S_ISREG`. -/
def isReg (n : Node) : Bool := n.mode &&& 0o170000 == 0o100000

/-- `sys_read`. -/
def sysRead (s : FileTask) (fd : ℕ) (count : ℤ) : FileTask × Answer :=
  if 20 ≤ fd ∨ count < 0 then (s, .error EINVAL)
  else
    match s.filp fd with
    | none => (s, .error EINVAL)
    | some file =>
      if count = 0 then (s, .val 0)
      else if isDevice (s.fs.node file.inode) then (s, devices.read s.fs file.inode count)
      else if (s.fs.node file.inode).isDir ∨ isReg (s.fs.node file.inode) then
        let left := min count.toNat ((s.fs.node file.inode).size - file.pos)
        if left = 0 then (s, .val 0)
        else
          let got := fileRead s.fs file.inode left file.pos left
          ({ s with
              fs := s.fs.touch file.inode
              filp := update s.filp fd (some { file with pos := file.pos + got.length }) },
            if got = [] then .error ERROR else .bytes got)
      else (s, .error EINVAL)

/-- `sys_readlink`. -/
def sysReadlink (s : FileTask) (path : List Char) (bufsiz : ℤ) : FileTask × Answer :=
  if bufsiz ≤ 0 then (s, .error EBADF)
  else s.withInode path false ENOENT fun s id =>
    (s, .bytes
      -- whatever `i_zone[0]` is
      (if isDevice (s.fs.node id) then
        if (s.fs.node id).zone = 0 then []
        else (devices.block s.fs id.1 (s.fs.node id).zone).take (min bufsiz.toNat 1023)
      else if s.fs.mapped id 0 ∧ s.fs.readable id 0 then
        s.fs.string id 0 (min bufsiz.toNat 1023)
      else []))

/-! ### The other calls -/

/-- `sys_stat` and `sys_lstat`. -/
def sysStat (s : FileTask) (path : List Char) (follow : Bool) : FileTask × Answer :=
  s.withInode path follow ENOENT fun s id => (s, .stat id (s.fs.node id))

/-- What `sys_access` tests, with the real ids. -/
def mayAccess (s : FileTask) (n : Node) (mode : ℕ) : Bool :=
  let res := if s.uid = n.uid then (n.mode &&& 0o777) >>> 6
    else if s.gid = n.gid then (n.mode &&& 0o777) >>> 3 else n.mode &&& 0o777
  res &&& 7 &&& mode == mode ||
    (s.uid == 0 && (mode &&& 1 == 0 || n.mode &&& 0o777 &&& 0o111 != 0))

def sysAccess (s : FileTask) (path : List Char) (mode : ℕ) : FileTask × Answer :=
  s.withInode path true EACCES fun s id =>
    (s, if s.mayAccess (s.fs.node id) (mode &&& 7) then .val 0 else .error EACCES)

def sysChdir (s : FileTask) (path : List Char) : FileTask × Answer :=
  s.withInode path true ENOENT fun s id =>
    if (s.fs.node id).isDir then
      ({ s with
          cur := { s.cur with pwd := id }
          fs := { s.fs with
            held := update (update s.fs.held s.cur.pwd (s.fs.held s.cur.pwd - 1)) id
              (update s.fs.held s.cur.pwd (s.fs.held s.cur.pwd - 1) id + 1) } }, .val 0)
    else (s, .error ENOTDIR)

def sysChmod (s : FileTask) (path : List Char) (mode : ℕ) : FileTask × Answer :=
  s.withInode path true ENOENT fun s id =>
    if s.cur.euid ≠ (s.fs.node id).uid ∧ s.cur.suser = false then (s, .error EACCES)
    else
      ({ s with fs := s.fs.setNode id fun n =>
          { n with mode := (mode &&& 0o7777) ||| (n.mode &&& 0o170000) } }, .val 0)

def sysChown (s : FileTask) (path : List Char) (uid gid : ℕ) : FileTask × Answer :=
  s.withInode path true ENOENT fun s id =>
    if s.cur.suser = false then (s, .error EACCES)
    else ({ s with fs := s.fs.setNode id fun n => { n with uid := uid, gid := gid } }, .val 0)

/-- `sys_utime`; without times, it takes `CURRENT_TIME`. -/
def sysUtime (s : FileTask) (path : List Char) (times : Option (ℕ × ℕ)) : FileTask × Answer :=
  s.withInode path true ENOENT fun s id =>
    let t := times.getD (s.fs.now, s.fs.now)
    ({ s with fs := s.fs.setNode id fun n => { n with atime := t.1, mtime := t.2 } }, .val 0)

/-- `sys_link`, once `oldname` is found. -/
def linkTo (s : FileTask) (old : InodeId) (path : List Char) : FileTask × Answer :=
  if (s.fs.node old).isDir then (s, .error EPERM)
  else
    match s.fs.disks.walkFrom s.cur (s.fs.disks.follow s.cur) path none with
    | .error _ => (s, .crash)
    | .ok none => (s, .error EACCES)
    | .ok (some dir) =>
      if basename path = [] then (s, .error EPERM)
      else if dir.1 ≠ old.1 then (s, .error EXDEV)
      else if s.permission dir MAY_WRITE = false then (s, .error EACCES)
      else
        match s.fs.disks.find s.cur dir (basename path) with
        | .error _ => (s, .crash)
        | .ok (_, some _) => (s, .error EEXIST)
        | .ok (dir, none) =>
          match s.fs.addEntry dir (basename path) old.2 with
          | .error _ => (s, .crash)
          | .ok none => (s, .error ENOSPC)
          | .ok (some fs) =>
            -- `i_nlinks` is an unsigned char
            ({ s with fs := (fs.setNode old fun n =>
                { n with nlinks := (n.nlinks + 1) % 256, ctime := fs.now }).put old }, .val 0)

def sysLink (s : FileTask) (old new : List Char) : FileTask × Answer :=
  s.withInode old true ENOENT fun s id => s.linkTo id new

/-- The entry that `find_entry` comes to. -/
def findIndex (fs : Disks) (cur : Current) (dir : InodeId) (name : Name) : Option ℕ :=
  (List.range' 0 (fs.entries dir)).find?
    (fs.stops (fs.exchange cur dir name).1 (fs.exchange cur dir name).2)

/-- `sys_unlink`, of entry `i` of the directory, which names inode `id`. -/
def unlinkEntry (s : FileTask) (dir : InodeId) (i : ℕ) (id : InodeId) : FileTask × Answer :=
  if (s.fs.node dir).mode &&& 0o1000 ≠ 0 ∧ s.cur.suser = false ∧
      s.cur.euid ≠ (s.fs.node id).uid ∧ s.cur.euid ≠ (s.fs.node dir).uid then (s, .error EPERM)
  else if (s.fs.node id).isDir then (s, .error EPERM)
  else
    ({ s with fs := ((s.fs.clearEntry dir i).setNode id fun n =>
        { n with nlinks := (if n.nlinks = 0 then 1 else n.nlinks) - 1, ctime := s.fs.now }).put id },
      .val 0)

def sysUnlink (s : FileTask) (path : List Char) : FileTask × Answer :=
  match s.fs.disks.walkFrom s.cur (s.fs.disks.follow s.cur) path none with
  | .error _ => (s, .crash)
  | .ok none => (s, .error ENOENT)
  | .ok (some dir) =>
    if basename path = [] then (s, .error ENOENT)
    else if s.permission dir MAY_WRITE = false then (s, .error EPERM)
    else
      match s.fs.disks.find s.cur dir (basename path), findIndex s.fs.disks s.cur dir (basename path)
        with
      | .ok (dir, some (_, de)), some i =>
        match s.fs.disks.igets (dir.1, de.inode) with
        | .error _ => (s, .crash)
        | .ok id => s.unlinkEntry dir i id
      | .error _, _ => (s, .crash)
      | .ok _, _ => (s, .error ENOENT)

/-- A call of the process. -/
def call (s : FileTask) : FileCall → FileTask × Answer
  | .open path flag mode => s.sysOpen path flag mode
  | .read fd count => s.sysRead devices fd count
  | .readlink path bufsiz => s.sysReadlink devices path bufsiz
  | .stat path follow => s.sysStat path follow
  | .access path mode => s.sysAccess path mode
  | .chdir path => s.sysChdir path
  | .chmod path mode => s.sysChmod path mode
  | .chown path uid gid => s.sysChown path uid gid
  | .utime path times => s.sysUtime path times
  | .link old new => s.sysLink old new
  | .unlink path => s.sysUnlink path

end FileTask

/-! ### The view of a file -/

namespace Files

variable {s : Files} {d id : InodeId} {i k : ℕ}

@[simp] theorem node_setNode_self (id : InodeId) (g : Node → Node) :
    (s.setNode id g).node id = g (s.node id) := Function.update_self _ _ _

theorem node_setNode_of_ne {g : Node → Node} (h : d ≠ id) : (s.setNode id g).node d = s.node d :=
  Function.update_of_ne h _ _

theorem owner_blockNr : ((d.1, (blockNr d k - 1).unpair.1) : InodeId) = d := by
  rw [blockNr, Nat.add_sub_cancel, Nat.unpair_pair]

theorem index_blockNr : (blockNr d k - 1).unpair.2 = k := by
  rw [blockNr, Nat.add_sub_cancel, Nat.unpair_pair]

/-- A block of a directory, in terms of the file. -/
theorem dirBuf_eq (d : InodeId) (k : ℕ) : s.disks.dirBuf d (s.disks.bmap d k) =
    if s.mapped d k = true ∧ s.readable d k = true then some (d.1, blockNr d k) else none := by
  have hreadable : s.disks.readable d.1 (blockNr d k) = s.readable d k := by
    rw [disks]
    dsimp only
    rw [owner_blockNr, index_blockNr]
  have hbmap : s.disks.bmap d k = if s.mapped d k then blockNr d k else 0 := rfl
  rw [Disks.dirBuf, hbmap]
  by_cases hm : s.mapped d k = true
  · have hne : blockNr d k ≠ 0 := Nat.succ_ne_zero _
    rw [if_pos hm, hreadable]
    by_cases hr : s.readable d k = true
    · rw [if_neg (by simp [hne, hr]), if_pos ⟨hm, hr⟩]
    · rw [if_pos (.inr (by simpa using hr)), if_neg fun h => hr h.2]
  · rw [if_neg hm, if_pos (.inl rfl), if_neg fun h => hm h.1]

theorem entry_eq (d : InodeId) (k i : ℕ) :
    s.disks.entry d.1 (blockNr d k) i = s.dirEntry d (dirEntriesPerBlock * k + i) := by
  rw [disks]
  dsimp only
  rw [owner_blockNr, index_blockNr]

theorem text_eq (d : InodeId) (k : ℕ) :
    s.disks.text d.1 (blockNr d k) = (s.string d (1024 * k) 1024).map Char.ofUInt8 := by
  rw [disks]
  dsimp only
  rw [owner_blockNr, index_blockNr]

/-- A block that `add_entry` gets, in terms of the file. -/
theorem addBuf_eq {b : ℕ × ℕ} (h : s.disks.dirBuf d (s.disks.addBlock d k) = some b) :
    b = (d.1, blockNr d k) := by
  rw [Disks.dirBuf] at h
  split at h
  case isTrue => cases h
  case isFalse hb =>
    obtain ⟨hne, -⟩ := not_or.mp hb
    cases h
    rw [Disks.addBlock, disks] at hne ⊢
    dsimp only at hne ⊢
    rcases eq_or_ne k 0 with rfl | hk
    · rw [if_pos rfl] at hne ⊢
      rw [if_pos (of_not_not fun h => hne (if_neg h))]
    · rw [if_neg hk] at hne ⊢
      rw [if_pos (of_not_not fun h => hne (if_neg h))]

/-- `add_entry` finds an entry that is free, or the one at the end. -/
theorem addIndex_spec (hsize : 16 ∣ (s.node d).size) (h : s.addIndex d = .ok (some i)) :
    (s.mapped d 0 = true ∧ s.readable d 0 = true) ∧ i ≤ (s.node d).size / 16 ∧
      (i < (s.node d).size / 16 → (s.dirEntry d i).inode = 0) := by
  rw [addIndex] at h
  split at h
  case h_1 => cases h
  case h_2 b₀ hb₀ =>
    have hmapped : s.mapped d 0 = true ∧ s.readable d 0 = true := by
      rw [dirBuf_eq] at hb₀
      split at hb₀
      case isTrue hm => exact hm
      case isFalse => cases hb₀
    split at h
    case h_1 => cases h
    case h_2 j hj =>
      split at h
      case h_1 => split at h <;> cases h
      case h_2 b hb =>
        cases h
        obtain ⟨hstop, -, hbefore⟩ := List.find?_range'_eq_some.mp hj
        rw [Disks.addStops, hb] at hstop
        obtain rfl := addBuf_eq hb
        have hnode : s.disks.inode d = (s.node d).toDInode := rfl
        dsimp only at hstop
        rw [entry_eq, Nat.div_add_mod, hnode, decide_eq_true_eq] at hstop
        refine ⟨hmapped, ?_, fun hlt => hstop.resolve_left (by omega)⟩
        -- the entries before are in the directory
        by_contra hle
        have hprev := hbefore (i - 1) (Nat.zero_le _) (by omega)
        rw [Disks.addStops] at hprev
        split at hprev
        case h_1 => cases hprev
        case h_2 =>
          rw [hnode, Bool.not_eq_true', decide_eq_false_iff_not, not_or] at hprev
          omega

/-- What `find_entry` finds is the entry of a directory. -/
theorem find_spec {cur : Current} {name : Name} {d' : InodeId} {b : ℕ × ℕ} {de : DirEntry}
    (h : s.disks.find cur d name = .ok (d', some (b, de))) :
    d' = (s.disks.exchange cur d name).1 ∧ ∃ i, i < (s.node d).size / 16 ∧
      FileTask.findIndex s.disks cur d name = some i ∧ de = s.dirEntry d' i ∧
      s.mapped d' (i / dirEntriesPerBlock) = true ∧
      nameMatches (s.disks.exchange cur d name).2 de = true := by
  rw [Disks.find] at h
  split at h
  case h_1 => cases h
  case h_2 =>
    obtain ⟨found, hscan, heq⟩ : ∃ found, s.disks.scanFrom (s.disks.exchange cur d name).1
        (s.disks.exchange cur d name).2 (s.disks.entries d) 0 = .ok found ∧
        ((s.disks.exchange cur d name).1, found) = (d', some (b, de)) := by
      cases hs : s.disks.scanFrom (s.disks.exchange cur d name).1
          (s.disks.exchange cur d name).2 (s.disks.entries d) 0 with
      | error c =>
        rw [hs] at h
        cases h
      | ok found =>
        rw [hs] at h
        exact ⟨found, rfl, Except.ok.inj h⟩
    obtain ⟨rfl, rfl⟩ := Prod.mk.inj heq
    refine ⟨rfl, ?_⟩
    rw [Disks.scanFrom, Nat.sub_zero] at hscan
    split at hscan
    case h_1 => cases hscan
    case h_2 i hi =>
      obtain ⟨hstop, hmem, -⟩ := List.find?_range'_eq_some.mp hi
      rw [List.mem_range'_1] at hmem
      split at hscan
      case h_1 => split at hscan <;> cases hscan
      case h_2 b' hb =>
        obtain ⟨rfl, rfl⟩ := Prod.mk.inj (Option.some.inj (Except.ok.inj hscan))
        rw [Disks.stops, hb] at hstop
        rw [dirBuf_eq] at hb
        split at hb
        case isFalse => cases hb
        case isTrue hmapped =>
          obtain rfl := Option.some.inj hb
          refine ⟨i, by have := hmem.2; rw [Nat.zero_add] at this; exact this, hi, ?_, hmapped.1,
            hstop⟩
          dsimp only
          rw [entry_eq, Nat.div_add_mod]

/-! ### A file system with one file -/

/-- The blocks of the root directory: `.`, `..` and `a`. -/
def rootBytes : List UInt8 :=
  entryBytes 1 ['.'] ++ List.replicate 13 0 ++ entryBytes 1 ['.', '.'] ++ List.replicate 12 0 ++
    entryBytes 2 ['a'] ++ List.replicate 13 0

/-- A root directory, and in it a file of the superuser with a link and three bytes. -/
def oneFile (mode : ℕ) (content : UInt8) : Files where
  node id :=
    if id = (1, 1) then ⟨⟨0o040755, 0, 0, 2, 48⟩, 10, 0, 0, 0⟩
    else if id = (1, 2) then ⟨⟨0o100000 ||| mode, 0, 0, 1, 3⟩, 11, 0, 0, 0⟩
    else ⟨⟨0, 0, 0, 0, 0⟩, 0, 0, 0, 0⟩
  data id pos := if id = (1, 1) then rootBytes.getD pos 0 else if pos < 3 then content else 0
  mapped id k := (id == (1, 1) || id == (1, 2)) && k == 0
  readable _ _ := true
  inodeReadable _ := true
  mountedDev _ := none
  imount _ := none
  imap _ n := n < 3
  ninodes _ := 16
  room _ _ := true
  held _ := 0
  now := 7

/-- A process of another user, with the file system. -/
def oneTask (mode : ℕ) (content : UInt8) : FileTask where
  fs := oneFile mode content
  cur := ⟨(1, 1), (1, 1), 5, 5, []⟩
  uid := 5
  gid := 5
  umask := 0
  filp _ := none
  slots := 8

end Files

end Fs
