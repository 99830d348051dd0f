/-
What a process can find out about a file that it may not read (fs/namei.c, fs/read_write.c,
fs/stat.c).

* `Files.withData` — the file system with other data in one file;
* `FileTask.Secret` — a process that may read neither the file nor any special file;
* `confidential` — what it opens, reads and looks up does not depend on the data, if it reads no
  descriptor that is open for writing only, and calls `sys_readlink` neither for the file nor for
  special files;
* `readlink_reads` — `sys_readlink` reads any file.
-/
import Linux012.Integrity

namespace Fs

open Function (update)

namespace Files

/-- The file system with other data in a file. -/
def withData (s : Files) (f : InodeId) (g : ℕ → UInt8) : Files :=
  { s with data := update s.data f g }

variable {s : Files} {f d id : InodeId} {g : ℕ → UInt8} {cur : Current} {name : Name}

@[simp] theorem node_withData : (s.withData f g).node = s.node := rfl
@[simp] theorem mapped_withData : (s.withData f g).mapped = s.mapped := rfl
@[simp] theorem readable_withData : (s.withData f g).readable = s.readable := rfl

theorem byte_withData (hne : d ≠ f) (pos : ℕ) : (s.withData f g).byte d pos = s.byte d pos := by
  have hdata : (s.withData f g).data d = s.data d := Function.update_of_ne hne _ _
  exact byte_congr (by rfl) hdata pos

theorem dirEntry_withData (hne : d ≠ f) (i : ℕ) :
    (s.withData f g).dirEntry d i = s.dirEntry d i :=
  dirEntry_congr fun pos _ _ => byte_withData hne pos

theorem string_withData (hne : d ≠ f) (pos len : ℕ) :
    (s.withData f g).string d pos len = s.string d pos len := by
  rw [string, string, funext (byte_withData hne)]

/-! ### Paths -/

/-- A block of a directory is there, or not, whatever the data. -/
theorem dirBuf_withData (d : InodeId) (block : ℕ) :
    (s.withData f g).disks.dirBuf d block = s.disks.dirBuf d block := rfl

theorem bmap_withData : (s.withData f g).disks.bmap = s.disks.bmap := rfl

theorem exchange_withData (d : InodeId) (name : Name) :
    (s.withData f g).disks.exchange cur d name = s.disks.exchange cur d name := rfl

theorem entry_withData (hne : d ≠ f) (k i : ℕ) :
    (s.withData f g).disks.entry d.1 (blockNr d k) i = s.disks.entry d.1 (blockNr d k) i := by
  rw [entry_eq, entry_eq, dirEntry_withData hne]

theorem stops_withData (hne : d ≠ f) (name : Name) :
    (s.withData f g).disks.stops d name = s.disks.stops d name := by
  funext i
  rw [Disks.stops, Disks.stops, dirBuf_withData, bmap_withData, dirBuf_eq]
  split_ifs
  · dsimp only
    rw [entry_withData hne]
  · rfl

theorem scanFrom_withData (hne : d ≠ f) (name : Name) (entries i : ℕ) :
    (s.withData f g).disks.scanFrom d name entries i = s.disks.scanFrom d name entries i := by
  rw [Disks.scanFrom, Disks.scanFrom, stops_withData hne]
  split
  case h_1 => rfl
  case h_2 j _ =>
    rw [dirBuf_withData, bmap_withData, dirBuf_eq]
    by_cases hread : s.mapped d (j / dirEntriesPerBlock) = true ∧
        s.readable d (j / dirEntriesPerBlock) = true
    · rw [if_pos hread]
      dsimp only
      rw [entry_withData hne]
    · rw [if_neg hread]

theorem find_withData (hne : (s.disks.exchange cur d name).1 ≠ f) :
    (s.withData f g).disks.find cur d name = s.disks.find cur d name := by
  rw [Disks.find, Disks.find, exchange_withData, dirBuf_withData, bmap_withData,
    scanFrom_withData hne]
  rfl

theorem text_withData (hne : d ≠ f) (k : ℕ) :
    (s.withData f g).disks.text d.1 (blockNr d k) = s.disks.text d.1 (blockNr d k) := by
  rw [text_eq, text_eq, string_withData hne]

theorem ne_of_isReg (hf : FileTask.isReg (s.node f) = true)
    (hd : (s.node d).isDir = true ∨ (s.node d).isLnk = true) : d ≠ f := by
  rintro rfl
  rw [FileTask.isReg, beq_iff_eq] at hf
  rw [DInode.isDir, DInode.isLnk, hf] at hd
  exact absurd hd (by decide)

variable {follow follow' : InodeId → InodeId → Except Crash (Option InodeId)}

/-- A look-up in a directory does not come to the data of the file. -/
theorem find_of_isDir (hs : s.WellFormed) (hf : FileTask.isReg (s.node f) = true)
    (hd : (s.node d).isDir = true) (name : Name) :
    (s.withData f g).disks.find cur d name = s.disks.find cur d name :=
  find_withData (ne_of_isReg hf (.inl (exchange_isDir hs hd cur name)))

theorem walk_withData (hs : s.WellFormed) (hf : FileTask.isReg (s.node f) = true)
    (hfollow : ∀ d y, (s.node d).isDir = true → follow' d y = follow d y) (names : List Name)
    (d : InodeId) :
    (s.withData f g).disks.walk cur follow' names d = s.disks.walk cur follow names d := by
  induction names generalizing d with
  | nil => rfl
  | cons name names ih =>
    rw [Disks.walk, Disks.walk]
    by_cases hsearch : s.disks.Searchable cur d
    · rw [if_pos hsearch, if_pos (show (s.withData f g).disks.Searchable cur d from hsearch)]
      have hd : (s.node d).isDir = true := Disks.isDir_of_searchable hsearch
      by_cases hnames : names = []
      · rw [if_pos hnames, if_pos hnames]
      · rw [if_neg hnames, if_neg hnames, find_of_isDir hs hf hd]
        cases hfind : s.disks.find cur d name with
        | error c => rfl
        | ok r =>
          obtain ⟨d', found⟩ := r
          have hd' : (s.node d').isDir = true := find_isDir hs hd hfind
          cases found with
          | none => rfl
          | some found =>
            show (s.disks.igets (d'.1, found.2.inode) >>= _) =
              (s.disks.igets (d'.1, found.2.inode) >>= _)
            refine bind_congr fun y => ?_
            rw [hfollow d' y hd']
            refine bind_congr fun z => ?_
            cases z with
            | none => rfl
            | some z => exact ih z
    · rw [if_neg hsearch, if_neg (show ¬ (s.withData f g).disks.Searchable cur d from hsearch)]

theorem walkFrom_withData (hs : s.WellFormed) (hf : FileTask.isReg (s.node f) = true)
    (hfollow : ∀ d y, (s.node d).isDir = true → follow' d y = follow d y) (path : List Char)
    (base : Option InodeId) : (s.withData f g).disks.walkFrom cur follow' path base =
      s.disks.walkFrom cur follow path base :=
  walk_withData hs hf hfollow _ _

theorem resolve_withData (hs : s.WellFormed) (hf : FileTask.isReg (s.node f) = true)
    (hfollow : ∀ d y, (s.node d).isDir = true → follow' d y = follow d y) (path : List Char)
    (base : Option InodeId) (followLinks : Bool) :
    (s.withData f g).disks.resolve cur follow' path base followLinks =
      s.disks.resolve cur follow path base followLinks := by
  rw [Disks.resolve, Disks.resolve, walkFrom_withData hs hf hfollow]
  cases hw : s.disks.walkFrom cur follow path base with
  | error c => rfl
  | ok dir =>
    cases dir with
    | none => rfl
    | some dir =>
      have hd : (s.node dir).isDir = true := walkFrom_isDir hw
      show (if basename path = [] then _ else _) = (if basename path = [] then _ else _)
      by_cases hname : basename path = []
      · rw [if_pos hname, if_pos hname]
      · rw [if_neg hname, if_neg hname, Disks.resolveLast, Disks.resolveLast,
          find_of_isDir hs hf hd]
        cases hfind : s.disks.find cur dir (basename path) with
        | error c => rfl
        | ok r =>
          obtain ⟨d', found⟩ := r
          have hd' : (s.node d').isDir = true := find_isDir hs hd hfind
          cases found with
          | none => rfl
          | some found =>
            show (s.disks.igets (d'.1, found.2.inode) >>= _) =
              (s.disks.igets (d'.1, found.2.inode) >>= _)
            refine bind_congr fun y => ?_
            cases followLinks with
            | false => rfl
            | true =>
              show (follow' d' y >>= _) = (follow d' y >>= _)
              rw [hfollow d' y hd']

theorem follow_withData (hs : s.WellFormed) (hf : FileTask.isReg (s.node f) = true)
    (d y : InodeId) : (s.withData f g).disks.follow cur d y = s.disks.follow cur d y := by
  rw [Disks.follow, Disks.follow]
  by_cases hy : (s.node y).isLnk = true
  · rw [if_pos (show ((s.withData f g).disks.inode y).isLnk = true from hy),
      if_pos (show (s.disks.inode y).isLnk = true from hy), dirBuf_withData, bmap_withData,
      dirBuf_eq]
    by_cases hread : s.mapped y 0 = true ∧ s.readable y 0 = true
    · rw [if_pos hread]
      dsimp only
      rw [text_withData (ne_of_isReg hf (.inr hy))]
      exact resolve_withData hs hf (fun _ _ _ => rfl) _ _ _
    · rw [if_neg hread]
  · rw [if_neg (show ¬ ((s.withData f g).disks.inode y).isLnk = true from hy),
      if_neg (show ¬ (s.disks.inode y).isLnk = true from hy)]

/-! ### Writes to directories -/

theorem addStops_withData (hne : d ≠ f) :
    (s.withData f g).disks.addStops d = s.disks.addStops d := by
  funext i
  rw [Disks.addStops, Disks.addStops, dirBuf_withData]
  have hblock : (s.withData f g).disks.addBlock = s.disks.addBlock := rfl
  rw [hblock]
  cases hb : s.disks.dirBuf d (s.disks.addBlock d (i / dirEntriesPerBlock)) with
  | none => rfl
  | some b =>
    obtain rfl := addBuf_eq hb
    dsimp only
    rw [entry_withData hne]
    rfl

theorem addIndex_withData (hne : d ≠ f) : (s.withData f g).addIndex d = s.addIndex d := by
  rw [addIndex, addIndex, addStops_withData hne]
  rfl

theorem grow_withData (hne : d ≠ f) (k : ℕ) :
    (s.withData f g).grow d k = (s.grow d k).withData f g := by
  rw [grow, grow]
  rw [mapped_withData]
  split
  case isTrue => rfl
  case isFalse =>
    simp only [withData, Function.update_of_ne hne, Function.update_comm hne]

theorem extend_withData (d : InodeId) (i : ℕ) :
    (s.withData f g).extend d i = (s.extend d i).withData f g := by
  rw [extend, extend]
  rw [node_withData]
  split <;> rfl

theorem writeEntry_withData (hne : d ≠ f) (i num : ℕ) (name : Name) :
    (s.withData f g).writeEntry d i num name = (s.writeEntry d i num name).withData f g := by
  simp only [withData, writeEntry, Function.update_of_ne hne, Function.update_comm hne]

theorem putEntry_withData (hne : d ≠ f) (i num : ℕ) (name : Name) :
    (s.withData f g).putEntry d i num name = (s.putEntry d i num name).withData f g := by
  rw [putEntry, putEntry, grow_withData hne, extend_withData]
  generalize (s.grow d (i / dirEntriesPerBlock)).extend d i = s₁
  show ((s₁.setNode d fun n => { n with mtime := s₁.now }).withData f g).writeEntry d i num name = _
  rw [writeEntry_withData hne]

theorem addEntry_withData (hne : d ≠ f) (name : Name) (num : ℕ) :
    (s.withData f g).addEntry d name num =
      (s.addEntry d name num).map fun r => r.map fun s => s.withData f g := by
  rw [addEntry, addEntry, addIndex_withData hne]
  cases s.addIndex d with
  | error c => rfl
  | ok r =>
    cases r with
    | none => rfl
    | some i =>
      show Except.ok (some ((s.withData f g).putEntry d i num name)) = _
      rw [putEntry_withData hne]
      rfl

theorem truncate_withData (id : InodeId) :
    (s.withData f g).truncate id = (s.truncate id).withData f g := by
  rw [truncate, truncate]
  rw [node_withData]
  split <;> rfl

end Files

namespace FileTask

open Files

/-- A process that finds other data in the file. -/
def withData (s : FileTask) (f : InodeId) (g : ℕ → UInt8) : FileTask :=
  { s with fs := s.fs.withData f g }

variable {s s' : FileTask} {f id : InodeId} {g : ℕ → UInt8}

@[simp] theorem fs_withData : (s.withData f g).fs = s.fs.withData f g := rfl
@[simp] theorem cur_withData : (s.withData f g).cur = s.cur := rfl
@[simp] theorem filp_withData : (s.withData f g).filp = s.filp := rfl
@[simp] theorem permission_withData (id : InodeId) (mask : ℕ) :
    (s.withData f g).permission id mask = s.permission id mask := rfl

/-! ### Opening -/

theorem openCreate_withData {dir : InodeId} (hne : dir ≠ f) (name : Name) (flag mode : ℕ) :
    (s.withData f g).openCreate dir name flag mode =
      ((s.openCreate dir name flag mode).1.withData f g, (s.openCreate dir name flag mode).2) := by
  rw [openCreate, openCreate]
  by_cases hcreat : wantsCreat flag = false
  · rw [if_pos hcreat, if_pos hcreat]
    rfl
  rw [if_neg hcreat, if_neg hcreat]
  rw [permission_withData]
  by_cases hperm : s.permission dir MAY_WRITE = false
  · rw [if_pos hperm, if_pos hperm]
    rfl
  rw [if_neg hperm, if_neg hperm]
  have hnew : (s.withData f g).fs.newInode dir.1 = s.fs.newInode dir.1 := rfl
  rw [hnew]
  cases s.fs.newInode dir.1 with
  | none => rfl
  | some num =>
    dsimp only
    have hfresh : (s.withData f g).freshNode num dir.1 mode =
        (s.freshNode num dir.1 mode).withData f g := rfl
    rw [hfresh, addEntry_withData hne]
    cases (s.freshNode num dir.1 mode).addEntry dir name num with
    | error c => rfl
    | ok r =>
      cases r with
      | none => rfl
      | some fs => rfl

theorem openFound_withData (hs : s.fs.WellFormed) (hf : isReg (s.fs.node f) = true)
    (dir : InodeId) (de : DirEntry) (flag : ℕ) : (s.withData f g).openFound dir de flag =
      ((s.openFound dir de flag).1.withData f g, (s.openFound dir de flag).2) := by
  rw [openFound, openFound]
  by_cases hexcl : wantsExcl flag = true
  · rw [if_pos hexcl, if_pos hexcl]
    rfl
  rw [if_neg hexcl, if_neg hexcl]
  have hfollow : (s.withData f g).fs.disks.follow (s.withData f g).cur dir =
      s.fs.disks.follow s.cur dir := funext fun y => follow_withData hs hf dir y
  have higets : (s.withData f g).fs.disks.igets = s.fs.disks.igets := rfl
  rw [hfollow, higets]
  cases s.fs.disks.igets (dir.1, de.inode) >>= s.fs.disks.follow s.cur dir with
  | error c => rfl
  | ok r =>
    cases r with
    | none => rfl
    | some id =>
      dsimp only
      rw [fs_withData, node_withData, permission_withData]
      split
      case isTrue => rfl
      case isFalse =>
        split
        case isTrue =>
          have htouch : (s.fs.withData f g).touch id = (s.fs.touch id).withData f g := rfl
          rw [htouch, truncate_withData]
        case isFalse => rfl

theorem openNamei_withData (hs : s.fs.WellFormed) (hf : isReg (s.fs.node f) = true)
    (path : List Char) (flag mode : ℕ) : (s.withData f g).openNamei path flag mode =
      ((s.openNamei path flag mode).1.withData f g, (s.openNamei path flag mode).2) := by
  have hwalk : (s.withData f g).fs.disks.walkFrom (s.withData f g).cur
      ((s.withData f g).fs.disks.follow (s.withData f g).cur) path none =
        s.fs.disks.walkFrom s.cur (s.fs.disks.follow s.cur) path none :=
    walkFrom_withData hs hf (fun d y _ => follow_withData hs hf d y) path none
  rw [openNamei, openNamei, hwalk]
  cases hw : s.fs.disks.walkFrom s.cur (s.fs.disks.follow s.cur) path none with
  | error c => rfl
  | ok r =>
    cases r with
    | none => rfl
    | some dir =>
      have hdir : (s.fs.node dir).isDir = true := walkFrom_isDir hw
      dsimp only
      by_cases hname : basename path = []
      · rw [if_pos hname, if_pos hname]
        split <;> rfl
      · rw [if_neg hname, if_neg hname]
        rw [fs_withData, cur_withData, find_of_isDir hs hf hdir]
        cases hr : s.fs.disks.find s.cur dir (basename path) with
        | error c => rfl
        | ok r =>
          obtain ⟨dir', found⟩ := r
          have hdir' : (s.fs.node dir').isDir = true := find_isDir hs hdir hr
          cases found with
          | none => exact openCreate_withData (ne_of_isReg hf (.inl hdir')) _ _ mode
          | some found => exact openFound_withData hs hf dir' found.2 _

/-- A call that does the same with other data in the file. -/
abbrev Blind (f : InodeId) (g : ℕ → UInt8) (call : FileTask → FileTask × Answer) (s : FileTask) :
    Prop := call (s.withData f g) = ((call s).1.withData f g, (call s).2)

theorem blind_sysOpen (hs : s.fs.WellFormed) (hf : isReg (s.fs.node f) = true)
    (path : List Char) (flag mode : ℕ) : Blind f g (fun s => s.sysOpen path flag mode) s := by
  have hopen := openNamei_withData (g := g) hs hf path flag mode
  rw [Blind]
  rw [sysOpen, sysOpen, show (s.withData f g).freeFd = s.freeFd from rfl]
  cases s.freeFd with
  | none => rfl
  | some fd =>
    dsimp only
    rw [show (s.withData f g).slots = s.slots from rfl, hopen]
    split
    case isTrue => rfl
    case isFalse =>
      generalize s.openNamei path flag mode = r
      obtain ⟨fs, r⟩ := r
      cases r with
      | error c => rfl
      | ok r =>
        cases r with
        | error e => rfl
        | ok id => rfl

/-! ### The other calls -/

theorem fileRead_withData {fs : Files} (hne : id ≠ f) (fuel pos left : ℕ) :
    fileRead (fs.withData f g) id fuel pos left = fileRead fs id fuel pos left := by
  induction fuel generalizing pos left with
  | zero => rfl
  | succ fuel ih =>
    rw [fileRead, fileRead, mapped_withData, readable_withData, funext (byte_withData hne)]
    split
    case isTrue => rfl
    case isFalse =>
      dsimp only
      rw [ih]

variable {devices : Devices}

/-- Another file is read. -/
theorem blind_sysRead {fd : ℕ} (hfile : ∀ file, s.filp fd = some file →
    file.inode ≠ f ∧ isDevice (s.fs.node file.inode) = false) (count : ℤ) :
    Blind f g (fun s => s.sysRead devices fd count) s := by
  rw [Blind]
  rw [sysRead, sysRead, filp_withData]
  split
  case isTrue => rfl
  split
  case h_1 => rfl
  case h_2 file hfd =>
    obtain ⟨hne, hdev⟩ := hfile file hfd
    rw [fs_withData, node_withData, hdev]
    split
    case isTrue => rfl
    rw [if_neg Bool.false_ne_true, if_neg Bool.false_ne_true]
    split
    case isFalse => rfl
    case isTrue =>
      dsimp only
      split
      case isTrue => rfl
      case isFalse =>
        rw [fileRead_withData hne]
        rfl

theorem lookup_withData (hs : s.fs.WellFormed) (hf : isReg (s.fs.node f) = true)
    (path : List Char) (follow : Bool) :
    (s.withData f g).lookup path follow = s.lookup path follow :=
  resolve_withData hs hf (fun d y _ => follow_withData hs hf d y) path none follow

theorem blind_withInode (hs : s.fs.WellFormed) (hf : isReg (s.fs.node f) = true)
    {path : List Char} {follow : Bool} {e : ℕ} {k : FileTask → InodeId → FileTask × Answer}
    (hk : ∀ id s₁, s.lookup path follow = .ok (some id) → Touched s s₁ →
      Blind f g (fun s => k s id) s₁) : Blind f g (fun s => s.withInode path follow e k) s := by
  rw [Blind]
  rw [withInode, withInode, lookup_withData hs hf]
  split
  case h_1 => rfl
  case h_2 => rfl
  case h_3 id hid =>
    split
    case isTrue => exact hk id s hid (.refl hs)
    case isFalse => exact hk id _ hid (touched_touch hs id)

theorem blind_sysReadlink (hs : s.fs.WellFormed) (hf : isReg (s.fs.node f) = true)
    {path : List Char} (hpath : ∀ id, s.lookup path false = .ok (some id) →
      id ≠ f ∧ isDevice (s.fs.node id) = false) (bufsiz : ℤ) :
    Blind f g (fun s => s.sysReadlink devices path bufsiz) s := by
  rw [Blind, sysReadlink, sysReadlink]
  split
  case isTrue => rfl
  case isFalse =>
    refine blind_withInode hs hf fun id s₁ hid h => ?_
    obtain ⟨hne, hdev⟩ := hpath id hid
    have hdev₁ : isDevice (s₁.fs.node id) = false := by
      rw [isDevice, h.inode]
      exact hdev
    rw [Blind, fs_withData, node_withData, mapped_withData, readable_withData, hdev₁,
      string_withData hne, if_neg Bool.false_ne_true, if_neg Bool.false_ne_true]

theorem blind_sysStat (hs : s.fs.WellFormed) (hf : isReg (s.fs.node f) = true)
    (path : List Char) (follow : Bool) : Blind f g (fun s => s.sysStat path follow) s :=
  blind_withInode hs hf fun _ _ _ _ => rfl

theorem blind_sysAccess (hs : s.fs.WellFormed) (hf : isReg (s.fs.node f) = true)
    (path : List Char) (mode : ℕ) : Blind f g (fun s => s.sysAccess path mode) s :=
  blind_withInode hs hf fun _ _ _ _ => rfl

theorem blind_sysChdir (hs : s.fs.WellFormed) (hf : isReg (s.fs.node f) = true)
    (path : List Char) : Blind f g (fun s => s.sysChdir path) s := by
  refine blind_withInode hs hf fun id s₁ _ _ => ?_
  rw [Blind, fs_withData, node_withData]
  split <;> rfl

end FileTask

/-! ### Rights -/

namespace Files

/-- What `permission` goes by. -/
def rights (n : Node) : ℕ × ℕ × ℕ × ℕ := (n.mode, n.uid, n.gid, n.nlinks)

/-- What is in use keeps its rights, and no special file is made. -/
structure SameRights (s s' : Files) : Prop where
  used : ∀ id, s.imap id.1 id.2 = true →
    rights (s'.node id) = rights (s.node id) ∧ s'.imap id.1 id.2 = true
  device : ∀ id, FileTask.isDevice (s'.node id) = true → rights (s'.node id) = rights (s.node id)

variable {s s' s'' : Files} {f d id : InodeId}

theorem SameRights.of_eq (h : ∀ x, rights (s'.node x) = rights (s.node x)) (himap : s'.imap = s.imap) :
    SameRights s s' :=
  ⟨fun x hx => ⟨h x, by rwa [himap]⟩, fun x _ => h x⟩

theorem mode_of_rights {n n' : Node} (h : rights n' = rights n) : n'.mode = n.mode :=
  congrArg Prod.fst h

theorem isDevice_congr {n n' : Node} (h : rights n' = rights n) :
    FileTask.isDevice n' = FileTask.isDevice n := by
  rw [FileTask.isDevice, FileTask.isDevice, mode_of_rights h]

theorem SameRights.trans (h : SameRights s s') (h' : SameRights s' s'') : SameRights s s'' where
  used x hx := by
    obtain ⟨hrights, hx'⟩ := h.used x hx
    obtain ⟨hrights', hx''⟩ := h'.used x hx'
    exact ⟨hrights'.trans hrights, hx''⟩
  device x hx := by
    have hrights := h'.device x hx
    exact hrights.trans (h.device x ((isDevice_congr hrights).symm.trans hx))

theorem rights_setNode {g : Node → Node} (hg : rights (g (s.node id)) = rights (s.node id))
    (x : InodeId) : rights ((s.setNode id g).node x) = rights (s.node x) := by
  rcases eq_or_ne x id with rfl | hne
  · rw [node_setNode_self, hg]
  · rw [node_setNode_of_ne hne]

theorem sameRights_touch (id : InodeId) : SameRights s (s.touch id) :=
  .of_eq (rights_setNode rfl) rfl

theorem sameRights_truncate (id : InodeId) : SameRights s (s.truncate id) := by
  refine .of_eq (fun x => ?_) imap_truncate
  rw [truncate]
  split
  case isTrue =>
    exact (rights_setNode rfl x : rights ((s.setNode id fun n =>
      { n with zone := 0, size := 0, mtime := s.now, ctime := s.now }).node x) = _)
  case isFalse => rfl

theorem sameRights_putEntry {i num : ℕ} {name : Name} :
    SameRights s (s.putEntry d i num name) := by
  have hsame : SameBut s (s.putEntry d i num name) d := sameBut_putEntry
  refine .of_eq (fun x => ?_) hsame.imap
  rcases eq_or_ne x d with rfl | hne
  · have hgrow : (s.grow x (i / dirEntriesPerBlock)).node = s.node := by
      rw [grow]
      split <;> rfl
    have hext : rights (((s.grow x (i / dirEntriesPerBlock)).extend x i).node x) =
        rights (s.node x) := by
      rw [extend, ← hgrow]
      split
      case isTrue => exact rights_setNode rfl x
      case isFalse => rfl
    rw [putEntry]
    generalize hs₁ : (s.grow x (i / dirEntriesPerBlock)).extend x i = s₁ at hext ⊢
    show rights ((s₁.setNode x fun n => { n with mtime := s₁.now }).node x) = _
    rw [node_setNode_self]
    exact hext
  · rw [hsame.node x hne]

end Files

namespace FileTask

open Files

variable {s s' : FileTask} {f id : InodeId}

theorem permission_congr (hcur : s'.cur.euid = s.cur.euid ∧ s'.cur.egid = s.cur.egid ∧
    s'.cur.groups = s.cur.groups) (h : rights (s'.fs.node id) = rights (s.fs.node id))
    (mask : ℕ) : s'.permission id mask = s.permission id mask := by
  obtain ⟨hmode, huid, hgid, hlinks⟩ : _ ∧ _ ∧ _ ∧ _ := by
    simpa only [rights, Prod.mk.injEq] using h
  rw [permission, permission, Current.permission, Current.permission, Current.inGroup,
    Current.inGroup, Current.suser, Current.suser, hcur.1, hcur.2.1, hcur.2.2, hmode, huid, hgid,
    hlinks]

theorem isReg_createMode (mode : ℕ) : s.createMode mode &&& 0o170000 = 0o100000 := by
  rw [createMode, Nat.and_or_distrib_right, Nat.and_assoc (mode &&& 0o777),
    Nat.and_comm (0o777 ^^^ (s.umask &&& 0o777)), ← Nat.and_assoc, Nat.and_assoc mode,
    show 0o777 &&& 0o170000 = 0 from rfl, Nat.and_zero, Nat.zero_and, Nat.or_zero]
  rfl

/-- A file is created where nothing is in use. -/
theorem sameRights_openCreate (dir : InodeId) (name : Name) (flag mode : ℕ) :
    SameRights s.fs (s.openCreate dir name flag mode).1 := by
  have hrefl : SameRights s.fs s.fs := .of_eq (fun _ => rfl) rfl
  rw [openCreate]
  split
  case isTrue => exact hrefl
  split
  case isTrue => exact hrefl
  split
  case h_1 => exact hrefl
  case h_2 num hnew =>
    obtain ⟨hfree, -⟩ := newInode_spec hnew
    have hne : ∀ x : InodeId, s.fs.imap x.1 x.2 = true → x ≠ (dir.1, num) := by
      rintro x hx rfl
      rw [hfree] at hx
      cases hx
    have hnode : ∀ x, x ≠ (dir.1, num) → (s.freshNode num dir.1 mode).node x = s.fs.node x :=
      fun x hx => Function.update_of_ne hx _ _
    have hfresh : SameRights s.fs (s.freshNode num dir.1 mode) := by
      refine ⟨fun x hx => ⟨congrArg rights (hnode x (hne x hx)), ?_⟩, fun x hx => ?_⟩
      · exact (update_imap (dir.1, num) x).trans ((if_neg (hne x hx)).trans hx)
      · rcases eq_or_ne x (dir.1, num) with rfl | hx'
        · have hmode : ((s.freshNode num dir.1 mode).node (dir.1, num)).mode = s.createMode mode := by
            rw [freshNode]
            simp [setNode]
          rw [isDevice, hmode, isReg_createMode] at hx
          exact absurd hx (by decide)
        · exact congrArg rights (hnode x hx')
    split
    case h_1 => exact hrefl
    case h_2 =>
      -- the new inode is freed again
      have hfree : ∀ x, x ≠ (dir.1, num) → ((s.freshNode num dir.1 mode).freeInode
          (dir.1, num)).node x = s.fs.node x := fun x hx =>
        (node_freeInode_of_ne hx).trans (hnode x hx)
      refine ⟨fun x hx => ⟨congrArg rights (hfree x (hne x hx)), ?_⟩, fun x hx => ?_⟩
      · rw [imap_freeInode, if_neg (hne x hx)]
        exact (hfresh.used x hx).2
      · rcases eq_or_ne x (dir.1, num) with rfl | hx'
        · rw [freeInode] at hx
          dsimp only at hx
          rw [node_setNode_self] at hx
          cases hx
        · exact congrArg rights (hfree x hx')
    case h_3 fs hadd =>
      obtain ⟨i, -, rfl⟩ := addEntry_spec hadd
      exact hfresh.trans sameRights_putEntry

theorem sameRights_openFound (dir : InodeId) (de : DirEntry) (flag : ℕ) :
    SameRights s.fs (s.openFound dir de flag).1 := by
  have hrefl : SameRights s.fs s.fs := .of_eq (fun _ => rfl) rfl
  rw [openFound]
  split
  case isTrue => exact hrefl
  split
  case h_1 => exact hrefl
  case h_2 => exact hrefl
  case h_3 id _ =>
    split
    case isTrue => exact hrefl
    case isFalse =>
      dsimp only
      split
      case isTrue => exact (sameRights_touch id).trans (sameRights_truncate id)
      case isFalse => exact sameRights_touch id

theorem sameRights_openNamei (path : List Char) (flag mode : ℕ) :
    SameRights s.fs (s.openNamei path flag mode).1 := by
  have hrefl : SameRights s.fs s.fs := .of_eq (fun _ => rfl) rfl
  rw [openNamei]
  split
  case h_1 => exact hrefl
  case h_2 => exact hrefl
  case h_3 dir _ =>
    split
    case isTrue => split <;> exact hrefl
    split
    case h_1 => exact hrefl
    case h_2 => exact sameRights_openCreate _ _ _ _
    case h_3 => exact sameRights_openFound _ _ _

/-- What is opened is a new file, a directory, or may be used as the flags say. -/
def Opened (s : FileTask) (fs : Files) (id : InodeId) (flag : ℕ) : Prop :=
  fs.imap id.1 id.2 = true ∧
    ((s.fs.imap id.1 id.2 = false ∧ isReg (fs.node id) = true) ∨
      (s.fs.imap id.1 id.2 = true ∧ ((s.fs.node id).isDir = true ∨
        s.permission id (permissionMask flag) = true)))

theorem opened_create {dir : InodeId} {name : Name} {flag mode : ℕ} {fs : Files}
    (h : s.openCreate dir name flag mode = (fs, .ok (.ok id))) : s.Opened fs id flag := by
  rw [openCreate] at h
  split at h
  case isTrue => cases h
  split at h
  case isTrue => cases h
  split at h
  case h_1 => cases h
  case h_2 num hnew =>
    split at h
    case h_1 => cases h
    case h_2 => cases h
    case h_3 fs' hadd =>
      cases h
      obtain ⟨i, -, rfl⟩ := addEntry_spec hadd
      have himap : (s.freshNode num dir.1 mode).imap dir.1 num = true :=
        (update_imap (dir.1, num) (dir.1, num)).trans (if_pos rfl)
      have hmode : ((s.freshNode num dir.1 mode).node (dir.1, num)).mode = s.createMode mode := by
        rw [freshNode]
        simp [setNode]
      obtain ⟨hrights, himap'⟩ := (sameRights_putEntry (d := dir)).used (dir.1, num) himap
      refine ⟨himap', .inl ⟨(newInode_spec hnew).1, ?_⟩⟩
      rw [isReg, mode_of_rights hrights, hmode, isReg_createMode]
      rfl

theorem opened_found (hs : s.fs.WellFormed) {dir : InodeId} {de : DirEntry}
    (hde : (s.fs.Names (dir.1, de.inode)).Nonempty) {flag : ℕ} {fs : Files}
    (h : s.openFound dir de flag = (fs, .ok (.ok id))) : s.Opened fs id flag := by
  rw [openFound] at h
  split at h
  case isTrue => cases h
  split at h
  case h_1 => cases h
  case h_2 => cases h
  case h_3 id' hid =>
    split at h
    case isTrue => cases h
    case isFalse hperm =>
      obtain ⟨y, hget, hfollow⟩ := Except.ok_of_bind hid
      have hfound : s.fs.Found id' := follow_found hs (found_igets hs hde hget) hfollow
      have himap : s.fs.imap id'.1 id'.2 = true :=
        hfound.elim hs.imap_of_isDir (hs.used id')
      have hallowed : s.permission id' (permissionMask flag) = true := by
        simpa using (not_or.mp hperm).2
      obtain ⟨hfs, heq⟩ := Prod.mk.inj h
      obtain rfl : id' = id := by injection heq with heq; injection heq
      refine ⟨?_, .inr ⟨himap, .inr hallowed⟩⟩
      rw [← hfs]
      split
      case isTrue =>
        rw [imap_truncate]
        exact himap
      case isFalse => exact himap

theorem opened_spec (hs : s.fs.WellFormed) {path : List Char} {flag mode : ℕ} {fs : Files}
    (h : s.openNamei path flag mode = (fs, .ok (.ok id))) : s.Opened fs id (openFlag flag) := by
  rw [openNamei] at h
  split at h
  case h_1 => cases h
  case h_2 => cases h
  case h_3 dir hwalk =>
    have hdir : (s.fs.node dir).isDir = true := walkFrom_isDir hwalk
    split at h
    case isTrue =>
      split at h
      case isTrue =>
        cases h
        exact ⟨hs.imap_of_isDir hdir, .inr ⟨hs.imap_of_isDir hdir, .inl hdir⟩⟩
      case isFalse => cases h
    split at h
    case h_1 => cases h
    case h_2 => exact opened_create h
    case h_3 dir' b de hfind =>
      obtain ⟨-, i, -, hmem, -⟩ := find_named hs hdir hfind
      exact opened_found hs ⟨_, hmem⟩ h

/-! ### Secrets -/

def MAY_READ : ℕ := 4

/-- A process that may not read the file, that may open no special file, and that has opened
neither the one nor the other. -/
structure Secret (s : FileTask) (f : InodeId) : Prop where
  wellFormed : s.fs.WellFormed
  suser : s.cur.suser = false
  reg : isReg (s.fs.node f) = true
  used : s.fs.imap f.1 f.2 = true
  unreadable : s.permission f MAY_READ = false
  devices : ∀ id, isDevice (s.fs.node id) = true →
    s.permission id MAY_READ = false ∧ s.permission id MAY_WRITE = false
  files : ∀ fd file, s.filp fd = some file → s.fs.imap file.inode.1 file.inode.2 = true ∧
    isDevice (s.fs.node file.inode) = false ∧
      (file.inode = f → (permissionMask (openFlag file.flags)).testBit 2 = false)

/-- What a step does to the process. -/
structure Goes (s s' : FileTask) : Prop where
  ids : s'.cur.euid = s.cur.euid ∧ s'.cur.egid = s.cur.egid ∧ s'.cur.groups = s.cur.groups
  rights : SameRights s.fs s'.fs
  files : ∀ fd file', s'.filp fd = some file' →
    (∃ file, s.filp fd = some file ∧ file.inode = file'.inode ∧ file.flags = file'.flags) ∨
      s.Opened s'.fs file'.inode (openFlag file'.flags)

/-- Any mask that a file is opened with has a bit for reading or for writing. -/
theorem permissionMask_bits (flag : ℕ) : (permissionMask flag).testBit 1 = true ∨
    (permissionMask flag).testBit 2 = true := by
  rw [permissionMask]
  split
  case h_1 => exact .inr rfl
  case h_2 => exact .inl rfl
  case h_3 => exact .inl rfl
  case h_4 => exact .inl rfl

theorem isDevice_of_isReg {n : Node} (h : isReg n = true) : isDevice n = false := by
  rw [isReg, beq_iff_eq] at h
  rw [isDevice, h]
  rfl

theorem isDevice_of_isDir {n : Node} (h : n.isDir = true) : isDevice n = false := by
  rw [DInode.isDir, beq_iff_eq] at h
  rw [isDevice, h]
  rfl

theorem Secret.goes (h : s.Secret f) (hg : Goes s s') (hs' : s'.fs.WellFormed) : s'.Secret f := by
  obtain ⟨hrights, hused⟩ := hg.rights.used f h.used
  refine ⟨hs', ?_, ?_, hused, ?_, ?_, ?_⟩
  · rw [Current.suser, hg.ids.1]
    exact h.suser
  · rw [isReg, mode_of_rights hrights]
    exact h.reg
  · rw [permission_congr hg.ids hrights]
    exact h.unreadable
  · intro id hid
    have hid' := hg.rights.device id hid
    rw [permission_congr hg.ids hid', permission_congr hg.ids hid']
    exact h.devices id ((isDevice_congr hid').symm.trans hid)
  · intro fd file' hfd
    rcases hg.files fd file' hfd with ⟨file, hfile, hinode, hflags⟩ | ⟨himap, hnew | hold⟩
    · obtain ⟨himap, hdev, hmask⟩ := h.files fd file hfile
      rw [hinode] at himap hdev hmask
      rw [hflags] at hmask
      obtain ⟨hrights', himap'⟩ := hg.rights.used _ himap
      exact ⟨himap', (isDevice_congr hrights').trans hdev, hmask⟩
    · refine ⟨himap, isDevice_of_isReg hnew.2, ?_⟩
      rintro rfl
      rw [h.used] at hnew
      cases hnew.1
    · obtain ⟨hrights', -⟩ := hg.rights.used _ hold.1
      refine ⟨himap, ?_, fun heq => ?_⟩
      · rw [isDevice_congr hrights']
        rcases hold.2 with hdir | hperm
        · exact isDevice_of_isDir hdir
        · -- a special file that may be used one way or the other
          by_contra hdev
          obtain ⟨hread, hwrite⟩ := h.devices _ (by simpa using hdev)
          rcases permissionMask_bits (openFlag file'.flags) with hbit | hbit
          · have hallowed := permission_bit h.suser hperm hbit
            rw [show 2 ^ 1 = MAY_WRITE from rfl, hwrite] at hallowed
            cases hallowed
          · have hallowed := permission_bit h.suser hperm hbit
            rw [show 2 ^ 2 = MAY_READ from rfl, hread] at hallowed
            cases hallowed
      · rw [heq] at hold
        rcases hold.2 with hdir | hperm
        · exact absurd rfl (ne_of_isReg h.reg (.inl hdir))
        · by_contra hbit
          have hallowed := permission_bit h.suser hperm (Bool.eq_true_of_not_eq_false hbit)
          rw [show 2 ^ 2 = MAY_READ from rfl, h.unreadable] at hallowed
          cases hallowed

theorem Goes.refl (s : FileTask) : Goes s s :=
  ⟨⟨rfl, rfl, rfl⟩, .of_eq (fun _ => rfl) rfl, fun _ file h => .inl ⟨file, h, rfl, rfl⟩⟩

theorem goes_sysOpen (hs : s.fs.WellFormed) (path : List Char) (flag mode : ℕ) :
    Goes s (s.sysOpen path flag mode).1 := by
  have hrights : SameRights s.fs (s.openNamei path flag mode).1 := sameRights_openNamei path flag mode
  rw [sysOpen]
  split
  case h_1 => exact .refl s
  case h_2 fd _ =>
    split
    case isTrue => exact .refl s
    case isFalse =>
      split
      case h_1 fs c heq =>
        rw [heq] at hrights
        exact ⟨⟨rfl, rfl, rfl⟩, hrights, fun _ file h => .inl ⟨file, h, rfl, rfl⟩⟩
      case h_2 fs e heq =>
        rw [heq] at hrights
        exact ⟨⟨rfl, rfl, rfl⟩, hrights, fun _ file h => .inl ⟨file, h, rfl, rfl⟩⟩
      case h_3 fs id heq =>
        rw [heq] at hrights
        refine ⟨⟨rfl, rfl, rfl⟩, ⟨hrights.used, hrights.device⟩, fun fd' file h => ?_⟩
        dsimp only at h
        rcases eq_or_ne fd' fd with rfl | hne
        · rw [Function.update_self] at h
          obtain rfl := Option.some.inj h
          obtain ⟨himap, hopened⟩ := opened_spec hs heq
          exact .inr ⟨himap, hopened⟩
        · rw [Function.update_of_ne hne] at h
          exact .inl ⟨file, h, rfl, rfl⟩

theorem goes_sysRead (fd : ℕ) (count : ℤ) : Goes s (s.sysRead devices fd count).1 := by
  rw [sysRead]
  split
  case isTrue => exact .refl s
  split
  case h_1 => exact .refl s
  case h_2 file hfd =>
    split
    case isTrue => exact .refl s
    split
    case isTrue => exact .refl s
    split
    case isFalse => exact .refl s
    case isTrue =>
      dsimp only
      split
      case isTrue => exact .refl s
      case isFalse =>
        refine ⟨⟨rfl, rfl, rfl⟩, sameRights_touch file.inode, fun fd' file' h => ?_⟩
        dsimp only at h
        rcases eq_or_ne fd' fd with rfl | hne
        · rw [Function.update_self] at h
          obtain rfl := Option.some.inj h
          exact .inl ⟨file, hfd, rfl, rfl⟩
        · rw [Function.update_of_ne hne] at h
          exact .inl ⟨file', h, rfl, rfl⟩

/-- A call that looks up a path, and stores nothing but times and `pwd`. -/
theorem goes_withInode {path : List Char} {follow : Bool} {e : ℕ}
    {k : FileTask → InodeId → FileTask × Answer}
    (hk : ∀ s id, Goes s (k s id).1 ∧ (k s id).1.filp = s.filp) :
    Goes s (s.withInode path follow e k).1 := by
  rw [withInode]
  split
  case h_1 => exact .refl s
  case h_2 => exact .refl s
  case h_3 id _ =>
    split
    case isTrue => exact (hk s id).1
    case isFalse =>
      obtain ⟨hg, hfilp⟩ := hk { s with fs := s.fs.touch id } id
      refine ⟨hg.ids, (sameRights_touch id).trans hg.rights, fun fd file h => ?_⟩
      rw [hfilp] at h
      exact .inl ⟨file, h, rfl, rfl⟩

end FileTask

/-- The calls that open files and look at them. -/
def FileCall.observes : FileCall → Bool
  | .open .. | .read .. | .readlink .. | .stat .. | .access .. | .chdir .. => true
  | .chmod .. | .chown .. | .utime .. | .link .. | .unlink .. => false

namespace FileTask

open Files

variable {s s' : FileTask} {f id : InodeId} {g : ℕ → UInt8}

section

variable (devices : Devices)

/-- What the calls return, one after the other. -/
def answers (s : FileTask) : List FileCall → List Answer
  | [] => []
  | c :: cs => (s.call devices c).2 :: answers (s.call devices c).1 cs

/-- `sys_read` is called for a descriptor that `open_namei` has granted for reading, and
`sys_readlink` neither for the file nor for special files. -/
def Discreet (s : FileTask) (f : InodeId) : FileCall → Prop
  | .read fd _ => ∀ file, s.filp fd = some file →
      (permissionMask (openFlag file.flags)).testBit 2 = true
  | .readlink path _ => ∀ id, s.lookup path false = .ok (some id) →
      id ≠ f ∧ isDevice (s.fs.node id) = false
  | _ => True

/-- All calls of a run are. -/
def Discreets (f : InodeId) (s : FileTask) : List FileCall → Prop
  | [] => True
  | c :: cs => s.Discreet f c ∧ Discreets f (s.call devices c).1 cs

theorem blind_call (h : s.Secret f) {c : FileCall} (hc : c.observes = true)
    (hd : s.Discreet f c) : Blind f g (fun s => s.call devices c) s := by
  cases c with
  | «open» path flag mode => exact blind_sysOpen h.wellFormed h.reg path flag mode
  | read fd count =>
    refine blind_sysRead (fun file hfile => ?_) count
    obtain ⟨-, hdev, hmask⟩ := h.files fd file hfile
    refine ⟨fun heq => ?_, hdev⟩
    have hread := hd file hfile
    rw [hmask heq] at hread
    cases hread
  | readlink path bufsiz => exact blind_sysReadlink h.wellFormed h.reg hd bufsiz
  | stat path follow => exact blind_sysStat h.wellFormed h.reg path follow
  | access path mode => exact blind_sysAccess h.wellFormed h.reg path mode
  | chdir path => exact blind_sysChdir h.wellFormed h.reg path
  | chmod | chown | utime | link | unlink => cases hc

theorem goes_call (h : s.Secret f) {c : FileCall} (hc : c.observes = true) :
    Goes s (s.call devices c).1 := by
  cases c with
  | «open» path flag mode => exact goes_sysOpen h.wellFormed path flag mode
  | read fd count => exact goes_sysRead fd count
  | readlink path bufsiz =>
    rw [call, sysReadlink]
    split
    case isTrue => exact .refl s
    case isFalse => exact goes_withInode fun s id => ⟨.refl s, rfl⟩
  | stat path follow => exact goes_withInode fun s id => ⟨.refl s, rfl⟩
  | access path mode => exact goes_withInode fun s id => ⟨.refl s, rfl⟩
  | chdir path =>
    refine goes_withInode fun s id => ?_
    split
    case isTrue =>
      exact ⟨⟨⟨rfl, rfl, rfl⟩, .of_eq (fun _ => rfl) rfl, fun _ file h => .inl ⟨file, h, rfl, rfl⟩⟩,
        rfl⟩
    case isFalse => exact ⟨.refl s, rfl⟩
  | chmod | chown | utime | link | unlink => cases hc

theorem secret_call (h : s.Secret f) {c : FileCall} (hc : c.observes = true) :
    (s.call devices c).1.Secret f := by
  refine h.goes (goes_call devices h hc) ?_
  have hcareful : s.Careful c := by
    cases c with
    | utime | link => cases hc
    | _ => trivial
  exact (lawful_call devices h.wellFormed h.suser hcareful).keeps.wellFormed

/-- What a process learns does not depend on the data of a file that it may not read. -/
theorem confidential (s : FileTask) (f : InodeId) (h : s.Secret f) (g : ℕ → UInt8)
    (calls : List FileCall) (hcalls : ∀ c ∈ calls, c.observes = true)
    (hd : Discreets devices f s calls) :
    answers devices (s.withData f g) calls = answers devices s calls := by
  induction calls generalizing s with
  | nil => rfl
  | cons c cs ih =>
    have hc := hcalls c List.mem_cons_self
    have hblind : (s.withData f g).call devices c =
        ((s.call devices c).1.withData f g, (s.call devices c).2) := blind_call devices h hc hd.1
    rw [answers, answers, hblind, ih _ (secret_call devices h hc) (fun c' hc' => hcalls c' (List.mem_cons_of_mem c hc')) hd.2]

end

theorem oneTask_secret {mode : ℕ} (content : UInt8)
    (hreg : isReg ((oneTask mode content).fs.node (1, 2)) = true)
    (hread : (oneTask mode content).permission (1, 2) MAY_READ = false) :
    (oneTask mode content).Secret (1, 2) := by
  have hfile : ((oneFile mode content).node (1, 2)).isDir = false := by
    rw [isReg, beq_iff_eq] at hreg
    rw [DInode.isDir, show ((oneFile mode content).node (1, 2)).mode &&& 0o170000 = _ from hreg]
    rfl
  refine ⟨oneFile_wellFormed content hfile, rfl, hreg, rfl, hread, fun id hid => ?_, fun _ _ hp => (by cases hp)⟩
  have hnone : isDevice ((oneTask mode content).fs.node id) = false := by
    by_cases h1 : id = (1, 1)
    · rw [h1]
      have hroot : (oneTask mode content).fs.node (1, 1) = _ := oneFile_root
      rw [hroot]
      rfl
    · by_cases h2 : id = (1, 2)
      · rw [h2]
        exact isDevice_of_isReg hreg
      · have hnode : (oneTask mode content).fs.node id = ⟨⟨0, 0, 0, 0, 0⟩, 0, 0, 0, 0⟩ :=
          (if_neg h1).trans (if_neg h2)
        rw [hnode]
        rfl
  rw [hnone] at hid
  cases hid

/-- A process reads the root directory, and looks at a file that it may not read. -/
theorem confidential_directory :
    answers noDevices ((oneTask 0o600 65).withData (1, 2) fun _ => 66)
        [.open ['.'] 0 0, .read 0 16, .stat ['a'] true] =
      answers noDevices (oneTask 0o600 65) [.open ['.'] 0 0, .read 0 16, .stat ['a'] true] := by
  refine confidential noDevices (oneTask 0o600 65) (1, 2)
    (oneTask_secret 65 (by decide +kernel) (by decide +kernel)) (fun _ => 66) _ ?_
    ⟨trivial, fun file hfile => ?_, trivial, trivial⟩
  · decide
  · have hflags : ((((oneTask 0o600 65).call noDevices (.open ['.'] 0 0)).1.filp 0).map
        fun file => file.flags) = some 0 := by
      decide +kernel
    rw [hfile] at hflags
    rw [show file.flags = 0 from Option.some.inj hflags]
    rfl

/-- The bytes of an answer. -/
def text : Answer → List UInt8
  | .bytes l => l
  | _ => []

/-- `sys_readlink` reads a file that the process may not read. -/
theorem readlink_reads : ¬ ∀ (devices : Devices) (s : FileTask) (f : InodeId), s.Secret f →
    ∀ (g : ℕ → UInt8) (calls : List FileCall), (∀ c ∈ calls, c.observes = true) →
      answers devices (s.withData f g) calls = answers devices s calls := by
  intro h
  have heq := h noDevices (oneTask 0o600 65) (1, 2)
    (oneTask_secret 65 (by decide +kernel) (by decide +kernel)) (fun _ => 66)
    [.readlink ['a'] 2] (by decide)
  have htext := congrArg (List.map text) heq
  have h66 : (answers noDevices ((oneTask 0o600 65).withData (1, 2) fun _ => 66)
      [.readlink ['a'] 2]).map text = [[66, 66]] := by
    decide +kernel
  have h65 : (answers noDevices (oneTask 0o600 65) [.readlink ['a'] 2]).map text = [[65, 65]] := by
    decide +kernel
  rw [h66, h65] at htext
  exact absurd htext (by decide)

end FileTask

end Fs
