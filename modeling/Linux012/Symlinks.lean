/-
Symbolic links mean their text (`sys_symlink` of fs/namei.c, `sys_readlink` of fs/stat.c).

* `Volumes.sysReadlink` — what it stores for the process;
* `Volumes.Rooted`, `Volumes.Reads` — file systems in order, and disks that can be read;
* `Linking` — the inode of the link before it has a name;
* `Linking.extends` — what has been found before is found still;
* `symbolic_link` — the link is read back as its text, up to byte 1023, and a path through it is
  the path with the text in its place;
* `symbolic_link_not` — a longer text is shortened, and a link that dangles is read through.

Design notes: times are left out, with the stores of `i_atime`.
-/
import Linux012.DirectoryMap

namespace Fs

open Function (update)

namespace Volumes

variable (s : Volumes) (cur : Current)

/-- What look-ups read of disks that can be read. -/
abbrev tree : Disks := s.disks fun _ _ => true

/-- `i_zone[0]`. -/
def firstZone (id : InodeId) : ℕ :=
  if (s.node id).mode &&& 0o170000 ∈ [0o020000, 0o060000] then s.rdev id
  else (s.zones id.1).zone id.2 0

/-- `sys_readlink`: an error, or the bytes that are stored. -/
def sysReadlink (ok : ℕ → ℕ → Bool) (path : List Char) (bufsiz : ℤ) :
    Except Halt (Except ℕ Name) :=
  if bufsiz ≤ 0 then .ok (.error EBADF)
  else do
    let fs := s.disks ok
    match ← (fs.resolve cur (fs.follow cur) path none false).mapError Crash.halt with
    | none => .ok (.error ENOENT)
    | some id =>
      if s.firstZone id = 0 ∨ ok id.1 (s.firstZone id) = false then .ok (.ok [])
      else .ok (.ok (s.string id.1 (s.firstZone id) 0 (min bufsiz.toNat 1023)))

/-- The file systems are in order: they are trees, with whole directories, and the root of the
process is no mount point. -/
structure Rooted : Prop where
  inOrder : s.InOrder cur
  tree : s.tree.Tree
  directory : ∀ d, s.Listed d → s.Directory d ∧ 2 ≤ (s.node d).size / 16
  mounts : ∀ id dev, s.mountedDev id = some dev → s.Used id ∧ dev ≠ 0
  root : cur.root.1 ≠ 0 ∧ s.mountedDev cur.root = none
  /-- `read_super` sets the first bit -/
  zero : ∀ dev, ¬ Clear (s.imap dev) 0

/-- No read of a disk fails. -/
structure Reads (o : Outside) : Prop where
  block : ∀ n dev b, o.ok n dev b = true
  inode : ∀ id, s.inodeReadable id = true

variable {s s' t : Volumes} {cur : Current} {o : Outside} {d id x : InodeId} {num : ℕ}
  {text path : List Char} {name : Name}

theorem Reads.disks (hr : s.Reads o) (s' : Volumes) (n : ℕ) : s'.disks (o.ok n) = s'.tree := by
  have hok : o.ok n = fun _ _ => true := by
    funext dev b
    exact hr.block n dev b
  rw [hok]

/-! ### The text -/

theorem byteOf_linkText {words : ℕ → ℕ} {k : ℕ} (hk : k ≤ text.length) :
    byteOf (fun w => (linkText text w).getD (words w)) k =
      (text.map Char.toNat).getD k 0 % 256 := by
  rw [byteOf, linkText, if_pos (by omega)]
  exact wordOf_byte text k

/-- What is read back, up to `len` bytes. -/
theorem stringOf_linkText {words : ℕ → ℕ} (htext : IsName text) (len : ℕ) :
    stringOf (byteOf fun w => (linkText text w).getD (words w)) len = text.take len := by
  have hb : ∀ k, byteOf (fun w => (linkText text w).getD (words w)) k < 256 :=
    fun k => Nat.mod_lt _ (by decide)
  rw [stringOf_eq_iff hb (htext.take len) (List.length_take_le _ _), List.length_take]
  refine ⟨fun k hk => ?_, fun hlt => ?_⟩
  · have hlt : k < text.length := by omega
    rw [byteOf_linkText (by omega), htext.getD_mod hlt,
      List.getD_eq_getElem _ _ (by simpa using hk), List.getElem_map, List.getElem_take]
  · rw [Nat.min_eq_right (by omega), byteOf_linkText (Nat.le_refl _), List.getD_eq_default _ _
      (by rw [List.length_map])]

theorem not_isLnk {n : DInode} (h : n.isDir = true) : n.isLnk = false := by
  rw [DInode.isDir, beq_iff_eq] at h
  rw [DInode.isLnk, h]
  rfl

/-! ### The inode of the link -/

/-- Inode `id` is a link with the text, and has no name yet. -/
structure Linking (s t : Volumes) (id : InodeId) (text : Name) : Prop where
  took : Took none s t id
  isLnk : (t.node id).isLnk = true
  nlinks : (t.node id).nlinks ≠ 0
  mountedDev : t.mountedDev = s.mountedDev
  inodeReadable : t.inodeReadable = s.inodeReadable
  block : (t.zones id.1).zone id.2 0 ≠ 0
  data : ∀ len, stringOf (byteOf ((t.zones id.1).data ((t.zones id.1).zone id.2 0))) len =
    text.take len

theorem newInode_mounts {dev : ℕ} {n : Option ℕ} (h : s.newInode cur dev = .ok (n, t)) :
    t.mountedDev = s.mountedDev ∧ t.inodeReadable = s.inodeReadable := by
  rw [newInode] at h
  split at h
  case isTrue => cases h
  case isFalse =>
    split at h <;> cases h
    · exact ⟨rfl, rfl⟩
    · exact ⟨rfl, rfl⟩

theorem zones_setData (t : Volumes) (dev b : ℕ) (f : ℕ → Option ℕ) :
    (t.setData dev b f).zones dev =
      (t.zones dev).store b fun w => (f w).getD ((t.zones dev).data b w) :=
  Function.update_self _ _ _

/-- `sys_symlink` up to `add_entry`, where it makes the link. -/
theorem makeLink_ok (hs : s.InOrder cur) (htext : IsName text)
    (h : s.makeLink cur o text path d = .ok (.ok none, s')) :
    ∃ num t t' d', Linking s t (d.1, num) (text.take 1023) ∧
      t.findEntry cur o d (basename path) = .ok (d', none) ∧
      t.addEntry o d' num (basename path) = .ok (true, t') ∧
      t'.succeeds o [d', (d.1, num)] = .ok (.ok none, s') := by
  rw [makeLink] at h
  obtain ⟨⟨num, t⟩, hnew, hrest⟩ := Except.ok_of_bind h
  obtain ⟨hmounted, hreadable⟩ := newInode_mounts hnew
  rcases newInode_cases hs hnew with ⟨rfl, rfl⟩ | ⟨num, rfl, htook, hlinks, -, hzero⟩
  · exact absurd hrest fails_ne
  dsimp only at hrest
  set t₁ := t.setMode (d.1, num) (0o120000 ||| (0o777 &&& (0o777 ^^^ (o.umask &&& 0o777)))) with ht₁
  have htook₁ : Took none s t₁ (d.1, num) := (htook none).setNode _
  have hzero₁ : (t₁.zones d.1).zone num 0 = 0 := by
    change (t.zones d.1).zone num 0 = 0
    rw [hzero]
  obtain ⟨htook₂, hzone₂⟩ := htook₁.newZone hzero₁
  change (if (t₁.newZone (d.1, num)).1 = 0 then _ else _) = _ at hrest
  split_ifs at hrest with hn hfresh
  · obtain ⟨t₂, -, h⟩ := Except.ok_of_bind hrest
    exact absurd h fails_ne
  · obtain ⟨t₂, -, h⟩ := Except.ok_of_bind hrest
    exact absurd h fails_ne
  set t₂ := (t₁.newZone (d.1, num)).2 with ht₂
  obtain ⟨⟨d', found⟩, hfind, hrest⟩ := Except.ok_of_bind hrest
  cases found with
  | some de => exact absurd hrest fails_ne
  | none =>
    obtain ⟨⟨added, t'⟩, hadd, hrest⟩ := Except.ok_of_bind hrest
    cases added with
    | false => exact absurd hrest fails_ne
    | true =>
      refine ⟨num, _, t', d', ?_, hfind, hadd, hrest⟩
      have hdata := htook₂.setData (by rw [hzone₂]; exact hn) (linkText (text.take 1023))
      rw [hzone₂] at hdata
      have hzones := zones_setData t₂ d.1 (t₁.newZone (d.1, num)).1 (linkText (text.take 1023))
      have hmode : (t₁.node (d.1, num)).mode =
          0o120000 ||| (0o777 &&& (0o777 ^^^ (o.umask &&& 0o777))) := by
        rw [ht₁, setMode, node_setNode_self]
      constructor
      · exact hdata.setNode _
      · rw [node_setNode_self]
        change ((t₁.node (d.1, num)).mode &&& 0o170000 == 0o120000) = true
        rw [hmode, format_or _ (Nat.and_le_left.trans_lt (by decide))]
        rfl
      · rw [node_setNode_self]
        change (t₁.node (d.1, num)).nlinks ≠ 0
        rw [ht₁, setMode, node_setNode_self]
        change (t.node (d.1, num)).nlinks ≠ 0
        rw [hlinks]
        exact one_ne_zero
      · exact hmounted
      · exact hreadable
      · change ((t₂.setData _ _ _).zones d.1).zone num 0 ≠ 0
        rw [hzones]
        exact fun hzero => hn (hzone₂.symm.trans hzero)
      · intro len
        change stringOf (byteOf (((t₂.setData _ _ _).zones d.1).data
          (((t₂.setData _ _ _).zones d.1).zone num 0))) len = _
        rw [hzones]
        change stringOf (byteOf (((t₂.zones d.1).store _ _).data
          ((t₂.zones d.1).zone num 0))) len = _
        rw [hzone₂, Zones.store_data_self]
        exact stringOf_linkText (htext.take 1023) len

/-! ### What is not changed -/

variable {ok : ℕ → ℕ → Bool} {t₁ : Volumes} {i : ℕ} {z : Zones}

/-- The blocks of other inodes, when an inode is taken. -/
theorem Took.same (h : Took none s t id) (hx : x ≠ id) : Same s t ok x := by
  intro k
  rw [bmap_eq, bmap_eq]
  by_cases hk : k < Zones.maxBlock
  swap
  · rw [if_neg hk, if_neg hk]
    exact ⟨rfl, fun hne => absurd rfl hne⟩
  rw [if_pos hk, if_pos hk]
  have hpath := Zones.isPath_path hk
  by_cases hdev : x.1 = id.1
  · have hnum : x.2 ≠ id.2 := fun heq => hx (Prod.ext hdev heq)
    have hclear : ∀ f, ((s.zones id.1).clearZones id.2).walk f x.2 none (Zones.path k) =
        (s.zones id.1).walk f x.2 none (Zones.path k) := fun f =>
      Zones.walk_congr (Function.update_of_ne hnum _ _) rfl
    have hwalk := h.zones.fills.frame (ok id.1) x.2 _ hpath (by simpa using hnum)
    rw [hdev, hwalk, hclear]
    refine ⟨rfl, fun hne => ?_⟩
    have hnamed := Zones.walk_eq_named hpath.ne_nil hne
    rw [hnamed] at hne ⊢
    have hdata := h.zones.data x.2 k hk
    rw [Zones.named_clearZones hnum] at hdata
    exact hdata hne
  · have hgrows := h.others x.1 hdev
    have hwalk := hgrows.fills.frame (ok x.1) x.2 _ hpath (by simp)
    refine ⟨hwalk, fun hne => ?_⟩
    have hnamed := Zones.walk_eq_named hpath.ne_nil hne
    rw [hnamed] at hne ⊢
    exact hgrows.data x.2 k hk hne

theorem Same.entryAt (h : Same s t (fun _ _ => true) x) {j : ℕ}
    (hj : j / dirEntriesPerBlock < Zones.maxBlock) :
    t.blockOf x j = s.blockOf x j ∧ (s.blockOf x j ≠ 0 → t.entryAt x j = s.entryAt x j) := by
  obtain ⟨hbmap, hdata⟩ := h (j / dirEntriesPerBlock)
  rw [bmap_eq, if_pos hj] at hbmap hdata
  rw [bmap_eq, if_pos hj] at hbmap
  refine ⟨hbmap, fun hne => ?_⟩
  rw [Volumes.entryAt, Volumes.entryAt, show t.blockOf x j = s.blockOf x j from hbmap]
  exact dirEntry_data (hdata hne)

theorem dirBuf_some {j : ℕ} {c : ℕ × ℕ}
    (hc : s.tree.dirBuf x (s.tree.bmap x (j / dirEntriesPerBlock)) = some c) :
    j / dirEntriesPerBlock < Zones.maxBlock ∧ s.blockOf x j ≠ 0 ∧ c = (x.1, s.blockOf x j) := by
  rw [Disks.dirBuf] at hc
  split at hc
  case isTrue => cases hc
  case isFalse hne =>
    obtain ⟨hj, hnamed⟩ := named_of_bmap fun hz => hne (.inl hz)
    refine ⟨hj, fun hz => hne (.inl (hnamed.trans hz)), ?_⟩
    rw [← Option.some.inj hc, hnamed]
    rfl

theorem Took.directory (h : Took none s t id) (hx : x ≠ id) (hd : s.Directory x) :
    t.Directory x := by
  have hsame : Same s t (fun _ _ => true) x := h.same hx
  refine ⟨h.owned x.1, ?_, ?_, fun j hj => ?_⟩
  · rw [h.node x hx]
    exact hd.size
  · rw [h.node x hx]
    exact hd.small
  · rw [h.node x hx] at hj
    rw [(hsame.entryAt (hd.small j hj)).1]
    exact hd.blocks j hj

/-- What `add_entry` stores of inodes is the size of the directory. -/
theorem node_filled (h : Slot t t₁ d i z) (num : ℕ) (name : Name) (x : InodeId) :
    ∃ size, (t.node x).size ≤ size ∧
      (t.filled t₁ d i num name).node x = { t.node x with size := size } := by
  have hnode : t₁.node = t.node := node_grown h.grown
  rw [filled, setEntry_eq]
  split
  · exact ⟨(t.node x).size, Nat.le_refl _, congrFun hnode x⟩
  · by_cases hx : x = d
    · subst hx
      have hle := h.le
      refine ⟨(i + 1) * 16, by omega, ?_⟩
      rw [← hnode]
      change update t₁.node x _ x = _
      rw [Function.update_self]
    · refine ⟨(t.node x).size, Nat.le_refl _, ?_⟩
      rw [← hnode]
      exact Function.update_of_ne hx _ _

theorem mounts_filled (h : Slot t t₁ d i z) (num : ℕ) (name : Name) :
    (t.filled t₁ d i num name).mountedDev = t.mountedDev ∧
      (t.filled t₁ d i num name).inodeReadable = t.inodeReadable := by
  rw [filled, setEntry_eq, h.grown.eq]
  split
  · exact ⟨rfl, rfl⟩
  · exact ⟨rfl, rfl⟩

/-- The first two entries of a directory are `.` and `..`, and not free. -/
theorem Rooted.dots (hs : s.Rooted cur) (hd : s.Listed d) :
    d.2 ≠ 0 ∧ s.entryAt d 0 = ⟨d.2, ['.']⟩ ∧ (s.entryAt d 1).inode ≠ 0 ∧
      (s.entryAt d 1).name = ['.', '.'] := by
  obtain ⟨hdir, htwo⟩ := hs.directory d hd
  have hreadable : s.Readable (fun _ _ => true) d := fun _ _ _ => rfl
  have hbuf := dirBuf_block hreadable (hdir.small 0 (by omega)) (hdir.blocks 0 (by omega))
  obtain ⟨hnum, hdot, hup, hname⟩ := hs.tree.dot d _ hd.1 hbuf
  exact ⟨hnum, hdot, hup, hname⟩

/-- An inode that nothing is mounted on. -/
def Unmounted (s : Volumes) (x : InodeId) : Prop := x.1 ≠ 0 ∧ s.mountedDev x = none

theorem igets_unmounted (hread : s.inodeReadable x = true) (hx : s.Unmounted x) :
    s.tree.igets x = .ok x := by
  have hmounted : s.tree.mounted x = x := by
    rw [Disks.mounted]
    have hdev : s.tree.mountedDev x = none := hx.2
    rw [hdev]
  rw [Disks.igets, hmounted]
  refine if_neg (not_or.mpr ⟨hx.1, ?_⟩)
  change ¬ s.inodeReadable x = false
  rw [hread]
  exact Bool.noConfusion

/-- `iget` comes to the root of what is mounted. -/
theorem Rooted.got (hs : s.Rooted cur) {y : InodeId} (hy : s.tree.igets y = .ok x) :
    s.Unmounted x := by
  rw [Disks.igets] at hy
  split at hy
  case isTrue => cases hy
  case isFalse hne =>
    rw [not_or] at hne
    cases hy
    rw [Disks.mounted]
    cases hm : s.tree.mountedDev y with
    | none => exact ⟨hne.1, hm⟩
    | some dev =>
      refine ⟨(hs.mounts y dev hm).2, ?_⟩
      cases hroot : s.mountedDev (dev, rootIno) with
      | none => rfl
      | some dev' => exact absurd rfl (hs.tree.mounted (dev, rootIno) dev' hroot).2.1

/-! ### What is found still -/

section

variable (hs : s.Rooted cur) (hl : Linking s t (d.1, num) text) (h : Slot t t₁ d i z)
  (hd : s.Used d) (hdir : s.Listed d) (hname : IsName name)
  (hnone : (s.entries d).find? (nameMatches (name.take nameLen)) = none)

include hl hd in
theorem Linking.ne : d ≠ (d.1, num) := hd.ne hl.took.clear

include hs hl in
theorem Linking.mountedDev_eq : s.mountedDev (d.1, num) = none := by
  cases hm : s.mountedDev (d.1, num) with
  | none => rfl
  | some dev => exact absurd rfl ((hs.mounts _ dev hm).1.ne hl.took.clear)

include hl h in
/-- But for its size, an inode in use is what it was. -/
theorem Linking.node (name : Name) (hx : x ≠ (d.1, num)) :
    ∃ size, (s.node x).size ≤ size ∧
      (t.filled t₁ d i num name).node x = { s.node x with size := size } := by
  rw [← hl.took.node x hx]
  exact node_filled h num name x

include hl h in
theorem Linking.exchange (x : InodeId) (other : Name) :
    (t.filled t₁ d i num name).tree.exchange cur x other = s.tree.exchange cur x other := by
  rw [exchange_filled h, Disks.exchange, Disks.exchange]
  change (if _ then if _ then _ else if _ then match t.imount x.1 with | none => _ | some m => _
    else _ else _) = _
  rw [hl.took.imount]
  rfl

include hl h in
theorem Linking.igets (name : Name) (x : InodeId) :
    (t.filled t₁ d i num name).tree.igets x = s.tree.igets x := by
  obtain ⟨hmounts, hreadable⟩ := mounts_filled h num name
  have hmounted : (t.filled t₁ d i num name).tree.mounted x = s.tree.mounted x := by
    rw [Disks.mounted, Disks.mounted]
    have hdev : (t.filled t₁ d i num name).tree.mountedDev x = s.tree.mountedDev x :=
      (congrFun hmounts x).trans (congrFun hl.mountedDev x)
    rw [hdev]
  have hread : (t.filled t₁ d i num name).tree.inodeReadable = s.tree.inodeReadable :=
    hreadable.trans hl.inodeReadable
  rw [Disks.igets, Disks.igets, hmounted, hread]

include hs hl h hd hdir in
/-- Entries behind the first two are looked through for the new one. -/
theorem Linking.two_le : 2 ≤ i := by
  obtain ⟨hnum, hdot, hup, -⟩ := hs.dots hdir
  obtain ⟨hdirectory, htwo⟩ := hs.directory d hdir
  by_contra hlt
  have hsame : Same s t (fun _ _ => true) d := hl.took.same (hl.ne hd)
  have hi : i < (s.node d).size / 16 := by omega
  have hfree := h.free (by rw [hl.took.node d (hl.ne hd)]; exact hi)
  rw [(hsame.entryAt (hdirectory.small i hi)).2 (hdirectory.blocks i hi)] at hfree
  obtain rfl | rfl : i = 0 ∨ i = 1 := by omega
  · rw [hdot] at hfree
    exact hnum hfree
  · exact hup hfree

theorem stops_eq (hdirectory : s.Directory d) {key : Name} {j : ℕ} (hj : j < (s.node d).size / 16) :
    s.tree.stops d key j = nameMatches key (s.entryAt d j) := by
  rw [Disks.stops, dirBuf_block (fun _ _ _ => rfl) (hdirectory.small j hj) (hdirectory.blocks j hj)]
  rfl

include hs hdir in
/-- A name that the first two entries do not have. -/
theorem Rooted.not_dots {key : Name} (h₀ : s.tree.stops d key 0 = false)
    (h₁ : s.tree.stops d key 1 = false) : key ≠ [] ∧ key ≠ ['.'] ∧ key ≠ ['.', '.'] := by
  obtain ⟨hnum, hdot, hup, hupname⟩ := hs.dots hdir
  obtain ⟨hdirectory, htwo⟩ := hs.directory d hdir
  rw [stops_eq hdirectory (by omega), hdot] at h₀
  rw [stops_eq hdirectory (by omega)] at h₁
  refine ⟨?_, ?_, ?_⟩
  · rintro rfl
    simp [nameMatches, hnum] at h₀
  · rintro rfl
    simp [nameMatches, hnum] at h₀
  · rintro rfl
    simp [nameMatches, hup, hupname] at h₁

theorem exchange_plain {fs : Disks} {x : InodeId} {other key : Name}
    (hex : fs.exchange cur x other = (d, key)) (hdot : key ≠ ['.']) (hup : key ≠ ['.', '.']) :
    x = d ∧ other ≠ ['.', '.'] ∧ key = other.take nameLen := by
  rw [Disks.exchange] at hex
  split_ifs at hex with hother hroot hnum
  · cases hex
    exact absurd rfl hdot
  · split at hex
    · cases hex
      exact absurd hother hup
    · cases hex
      exact absurd hother hup
  · cases hex
    exact absurd hother hup
  · cases hex
    exact ⟨rfl, hother, rfl⟩

include hs hl h hd hdir hname hnone in
theorem Linking.find {x x' : InodeId} {other : Name} {b : ℕ × ℕ} {de : DirEntry} (hx : s.Used x)
    (hsearch : s.tree.Searchable cur x)
    (hf : s.tree.find cur x other = .ok (x', some (b, de))) :
    ∃ b', (t.filled t₁ d i num name).tree.find cur x other = .ok (x', some (b', de)) := by
  have hx' : s.Used x' := ((hs.inOrder.closed fun _ _ => true).find x other x' _ hx hsearch hf).1
  obtain ⟨key, hex⟩ : ∃ key, s.tree.exchange cur x other = (x', key) :=
    ⟨(s.tree.exchange cur x other).2, Prod.ext (Files.dir_of_find hf).symm rfl⟩
  have hle : s.tree.entries x ≤ (t.filled t₁ d i num name).tree.entries x := by
    obtain ⟨size, hsize, hnode⟩ := hl.node h name (hx.ne hl.took.clear)
    change (s.node x).size / 16 ≤ ((t.filled t₁ d i num name).node x).size / 16
    rw [hnode]
    exact Nat.div_le_div_right hsize
  refine Disks.find_mono hex ((hl.exchange h x other).trans hex) hle
    (fun j c hj hbefore hc => ?_) hf
  have hsame : Same s t (fun _ _ => true) x' := hl.took.same (hx'.ne hl.took.clear)
  by_cases hxd : x' = d
  · subst hxd
    obtain ⟨hsmall, hne, rfl⟩ := dirBuf_some hc
    obtain ⟨hblock, hentry⟩ := hsame.entryAt hsmall
    obtain ⟨hblock₁, hentry₁⟩ := h.grown.entryAt hsmall (hblock ▸ hne)
    have hblock' : (t.filled t₁ x' i num name).blockOf x' j = t₁.blockOf x' j :=
      blockOf_filled h hsmall
    refine ⟨_, dirBuf_block (fun _ _ _ => rfl) hsmall ?_, ?_⟩
    · rw [hblock', hblock₁, hblock]
      exact hne
    · have hfilled : (t.filled t₁ x' i num name).entryAt x' j =
          if j = i then ⟨num, name.take nameLen⟩ else t₁.entryAt x' j :=
        entryAt_filled h hname hsmall
      by_cases hji : j = i
      · rw [if_pos hji] at hfilled
        subst hji
        have htwo := hl.two_le hs h hd hdir
        obtain ⟨hempty, hdot, hup⟩ :=
          hs.not_dots hdir (hbefore 0 (by omega)) (hbefore 1 (by omega))
        obtain ⟨rfl, -, hkey⟩ := exchange_plain hex hdot hup
        refine .inr ⟨?_, ?_⟩
        · -- the entry was free
          have hfree := h.free (by rw [hl.took.node _ (hl.ne hd)]; exact hj)
          rw [hentry hne] at hfree
          exact nameMatches_free hfree
        · -- the new name has not been in the directory
          obtain ⟨j₀, hj₀, -, hc₀, rfl, hmatch⟩ := (Disks.find_eq_some_iff hex).mp hf
          obtain ⟨-, -, rfl⟩ := dirBuf_some hc₀
          by_contra hcon
          have hnew : nameMatches key ⟨num, name.take nameLen⟩ = true := by
            rw [← hfilled]
            exact eq_true_of_ne_false hcon
          rw [nameMatches, Bool.and_eq_true, Bool.or_eq_true, Bool.and_eq_true, beq_iff_eq,
            beq_iff_eq] at hnew
          have hname' : key = name.take nameLen :=
            beq_iff_eq.mp (hnew.2.resolve_left fun hnil => hempty hnil.1)
          have hmem : s.entryAt x j₀ ∈ s.entries x :=
            List.mem_map.mpr ⟨j₀, List.mem_range.mpr hj₀, rfl⟩
          exact List.find?_eq_none.mp hnone _ hmem (hname' ▸ hmatch)
      · rw [if_neg hji, hentry₁, hentry hne] at hfilled
        exact .inl hfilled
  · obtain ⟨hc', hdata⟩ := (hsame.trans (h.same hxd)).entry hc
    exact ⟨c, hc', .inl (dirEntry_data hdata)⟩

include hs hl h hd hdir hname hnone in
/-- What has been found before the link is made is found behind it. -/
theorem Linking.extends :
    s.tree.Extends (t.filled t₁ d i num name).tree cur s.Used where
  searchable x hx hsearch := by
    obtain ⟨size, -, hnode⟩ := hl.node h name (hx.ne hl.took.clear)
    rw [Disks.Searchable]
    change ¬ (((t.filled t₁ d i num name).node x).isDir = false ∨
      cur.permission x ((t.filled t₁ d i num name).node x) MAY_EXEC = false)
    rw [hnode]
    exact hsearch
  find x other x' b de hx hsearch hf := hl.find hs h hd hdir hname hnone hx hsearch hf
  igets x := hl.igets h name x
  isLnk x hx := by
    obtain ⟨size, -, hnode⟩ := hl.node h name (hx.ne hl.took.clear)
    change ((t.filled t₁ d i num name).node x).isLnk = _
    rw [hnode]
    rfl
  text x text' hx := by
    rintro ⟨hlnk, b, hb, htext⟩
    have hne := hx.ne hl.took.clear
    obtain ⟨size, -, hnode⟩ := hl.node h name hne
    have hxd : x ≠ d := by
      rintro rfl
      exact Bool.false_ne_true ((not_isLnk hdir.1).symm.trans hlnk)
    obtain ⟨hb', hdata⟩ := ((hl.took.same hne).trans (h.same hxd)).entry hb
    refine ⟨?_, b, hb', ?_⟩
    · change ((t.filled t₁ d i num name).node x).isLnk = true
      rw [hnode]
      exact hlnk
    · rw [← htext]
      exact string_data hdata 0 1024

/-! ### The link -/

include hl h hd in
/-- The link can be read, and has its text. -/
theorem Linking.string (name : Name) (len : ℕ) :
    let s' := t.filled t₁ d i num name
    s'.tree.dirBuf (d.1, num) (s'.tree.bmap (d.1, num) 0) = some (d.1, (t.zones d.1).zone num 0) ∧
      s'.string d.1 ((t.zones d.1).zone num 0) 0 len = text.take len := by
  intro s'
  have hbmap : t.tree.bmap (d.1, num) 0 = (t.zones d.1).zone num 0 := by
    rw [bmap_eq, if_pos (by decide)]
    rfl
  have hbuf : t.tree.dirBuf (d.1, num) (t.tree.bmap (d.1, num) 0) =
      some (d.1, (t.zones d.1).zone num 0) := by
    rw [hbmap, Disks.dirBuf]
    exact if_neg (not_or.mpr ⟨hl.block, Bool.noConfusion⟩)
  have hsame : Same t s' (fun _ _ => true) (d.1, num) := h.same (hl.ne hd).symm
  obtain ⟨hbuf', hdata⟩ := hsame.entry hbuf
  refine ⟨hbuf', ?_⟩
  rw [string_data hdata, Volumes.string, ← List.range_eq_range', ← hl.data len]
  rfl

include hl h in
theorem Linking.isLnk_filled (name : Name) :
    ((t.filled t₁ d i num name).node (d.1, num)).isLnk = true := by
  obtain ⟨size, -, hnode⟩ := node_filled h num name (d.1, num)
  rw [hnode]
  exact hl.isLnk

include hl h hd in
theorem Linking.hasText (hlen : text.length ≤ 1024) :
    (t.filled t₁ d i num name).tree.HasText (d.1, num) text := by
  obtain ⟨hbuf, hstring⟩ := hl.string h hd name 1024
  exact ⟨hl.isLnk_filled h name, _, hbuf, hstring.trans (List.take_of_length_le hlen)⟩

include hs hl hd hdir in
theorem Linking.entries : t.entries d = s.entries d := by
  have hsame : Same s t (fun _ _ => true) d := hl.took.same (hl.ne hd)
  have hdirectory := (hs.directory d hdir).1
  rw [Volumes.entries, Volumes.entries, hl.took.node d (hl.ne hd)]
  refine List.map_congr_left fun j hj => ?_
  have hlt := List.mem_range.mp hj
  exact (hsame.entryAt (hdirectory.small j hlt)).2 (hdirectory.blocks j hlt)

include hs hl h hd hdir hname hnone in
/-- The path that the link is made under leads to it. -/
theorem Linking.through {path : List Char} (hread : ∀ id, s.inodeReadable id = true)
    (hnum : num ≠ 0) (hwalk : s.tree.walkFrom cur (s.tree.follow cur) path none = .ok (some d))
    (hbasename : basename path = name) (hne : name ≠ []) (hup : name ≠ ['.', '.']) :
    (t.filled t₁ d i num name).tree.Through cur path none d (d.1, num) := by
  have he := hl.extends hs h hd hdir hname hnone
  have hc := hs.inOrder.closed fun _ _ => true
  have hpwd : s.Used ((none : Option InodeId).getD cur.pwd) := hs.inOrder.pwd
  have hwalk' := he.walkFrom hc hc.follows (fun d x y hd hx hy => he.follows hc hd hx hy) hpwd hwalk
  have hdirectory := hl.took.directory (hl.ne hd) (hs.directory d hdir).1
  have hex : (t.filled t₁ d i num name).tree.exchange cur d name = (d, name.take nameLen) := by
    rw [Disks.exchange, if_neg hup]
  have hfound := find_eq (h.directory hdirectory) (fun _ _ _ => rfl) hex
  have hmatch : nameMatches (name.take nameLen) ⟨num, name.take nameLen⟩ = true := by
    rw [nameMatches, bne_iff_ne.mpr hnum, beq_self_eq_true, Bool.or_true]
    rfl
  rw [h.entries hdirectory hname, hl.entries hs hd hdir, find?_fill hnone hmatch] at hfound
  cases hf : (t.filled t₁ d i num name).tree.find cur d name with
  | error c =>
    rw [hf] at hfound
    cases hfound
  | ok r =>
    obtain ⟨d', found⟩ := r
    rw [hf] at hfound
    obtain ⟨rfl, hsome⟩ := Prod.mk.inj (Except.ok.inj hfound)
    obtain ⟨⟨b, de⟩, rfl, rfl⟩ := Option.map_eq_some_iff.mp hsome
    refine ⟨d', b, _, hwalk', by rwa [hbasename], by rw [hbasename]; exact hf, ?_⟩
    rw [he.igets]
    exact igets_unmounted (hread _) ⟨hl.took.dev, hl.mountedDev_eq hs⟩

include hs hl in
/-- `.` and `..` are found. -/
theorem Linking.found_dots {x x' : InodeId} {other key : Name} (hx : s.Used x)
    (hlisted : s.Listed x) (hx' : s.Used x') (hlisted' : s.Listed x')
    (hex : t.tree.exchange cur x other = (x', key)) (hkey : key = ['.'] ∨ key = ['.', '.']) :
    ∃ b de, t.tree.find cur x other = .ok (x', some (b, de)) := by
  have hsame : Same s t (fun _ _ => true) x' := hl.took.same (hx'.ne hl.took.clear)
  obtain ⟨hdirectory, htwo⟩ := hs.directory x hlisted
  obtain ⟨hdirectory', htwo'⟩ := hs.directory x' hlisted'
  obtain ⟨hnum, hdot, hup, hupname⟩ := hs.dots hlisted'
  have hnode : t.node x = s.node x := hl.took.node x (hx.ne hl.took.clear)
  have hnode' : t.node x' = s.node x' := hl.took.node x' (hx'.ne hl.took.clear)
  have htdir := hl.took.directory (hx'.ne hl.took.clear) hdirectory'
  have hreadable : t.Readable (fun _ _ => true) x' := fun _ _ _ => rfl
  have hentries : 2 ≤ t.tree.entries x := by
    change 2 ≤ (t.node x).size / 16
    rw [hnode]
    exact htwo
  have hsize : 2 ≤ (t.node x').size / 16 := by
    rw [hnode']
    exact htwo'
  have hentry : ∀ j < 2, t.entryAt x' j = s.entryAt x' j := fun j hj =>
    (hsame.entryAt (hdirectory'.small j (by omega))).2 (hdirectory'.blocks j (by omega))
  have hbuf : ∀ j < 2, t.tree.dirBuf x' (t.tree.bmap x' (j / dirEntriesPerBlock)) =
      some (x'.1, t.blockOf x' j) := fun j hj =>
    dirBuf_block hreadable (htdir.small j (by omega)) (htdir.blocks j (by omega))
  have hstop : t.tree.stops x' key 0 = nameMatches key ⟨x'.2, ['.']⟩ := by
    rw [stops_eq htdir (by omega), hentry 0 (by omega), hdot]
  rcases hkey with rfl | rfl
  · refine ⟨_, _, (Disks.find_eq_some_iff hex).mpr ⟨0, by omega, nofun, hbuf 0 (by omega), rfl, ?_⟩⟩
    change nameMatches ['.'] (t.entryAt x' 0) = true
    rw [hentry 0 (by omega), hdot]
    simp [nameMatches, hnum]
  · refine ⟨_, _, (Disks.find_eq_some_iff hex).mpr
      ⟨1, by omega, fun k hk => ?_, hbuf 1 (by omega), rfl, ?_⟩⟩
    · obtain rfl : k = 0 := by omega
      rw [hstop]
      simp [nameMatches]
    · change nameMatches ['.', '.'] (t.entryAt x' 1) = true
      rw [hentry 1 (by omega)]
      simp [nameMatches, hup, hupname]

include hs hl h hd hdir hname in
/-- A directory is found in itself under the empty name. -/
theorem Linking.dotted (hread : ∀ id, s.inodeReadable id = true) (hx : s.Listed x)
    (hunmounted : s.Unmounted x) (hne : x ≠ (d.1, num)) :
    let s' := t.filled t₁ d i num name
    s'.tree.step cur (s'.tree.follow cur) x [] = .ok (some x) := by
  intro s'
  have hsame : Same s t (fun _ _ => true) x := hl.took.same hne
  obtain ⟨hdirectory, htwo⟩ := hs.directory x hx
  obtain ⟨hnum, hdot, -, -⟩ := hs.dots hx
  obtain ⟨size, hsize, hnode⟩ := hl.node h name hne
  have hzero := hsame.entryAt (hdirectory.small 0 (by omega))
  have hentry : s'.blockOf x 0 ≠ 0 ∧ s'.entryAt x 0 = ⟨x.2, ['.']⟩ := by
    by_cases hxd : x = d
    · subst hxd
      have hi := hl.two_le hs h hd hdir
      have htdir := hl.took.directory hne hdirectory
      have hentry : (t.filled t₁ x i num name).entryAt x 0 =
          if 0 = i then ⟨num, name.take nameLen⟩ else t.entryAt x 0 := by
        refine h.entryAt htdir hname (.inl ?_)
        rw [hl.took.node x hne]
        omega
      rw [if_neg (by omega), hzero.2 (hdirectory.blocks 0 (by omega)), hdot] at hentry
      refine ⟨(h.directory htdir).blocks 0 ?_, hentry⟩
      rw [hnode]
      exact Nat.div_pos (by dsimp only; omega) (by decide)
    · have hsame' : Same s s' (fun _ _ => true) x := hsame.trans (h.same hxd)
      obtain ⟨hblock, hentry⟩ := hsame'.entryAt (hdirectory.small 0 (by omega))
      rw [hblock, hentry (hdirectory.blocks 0 (by omega)), hdot]
      exact ⟨hdirectory.blocks 0 (by omega), rfl⟩
  have hlnk : (s'.node x).isLnk = false := by
    rw [hnode]
    exact not_isLnk (n := (s.node x)) hx.1
  have hfind : s'.tree.find cur x [] = .ok (x, some ((x.1, s'.blockOf x 0), ⟨x.2, ['.']⟩)) := by
    have hex : s'.tree.exchange cur x [] = (x, []) := rfl
    refine (Disks.find_eq_some_iff hex).mpr ⟨0, ?_, nofun, ?_, hentry.2, ?_⟩
    · change 0 < (s'.node x).size / 16
      rw [hnode]
      exact Nat.div_pos (by dsimp only; omega) (by decide)
    · have hreadable : s'.Readable (fun _ _ => true) x := fun _ _ _ => rfl
      exact dirBuf_block hreadable (hdirectory.small 0 (by omega)) hentry.1
    · simp [nameMatches, hnum]
  rw [Disks.step, hfind]
  change (s'.tree.igets x >>= _) = _
  rw [hl.igets h name x, igets_unmounted (hread x) hunmounted]
  exact Disks.follow_keep x x hlnk

include hs hl h hd hdir hname in
/-- The directory that a text with a slash at its end leads to. -/
theorem Linking.slash {path : List Char} {x dir : InodeId}
    (hread : ∀ id, s.inodeReadable id = true) (hne : path ≠ []) (hslash : basename path = [])
    (hwalk : (t.filled t₁ d i num name).tree.walkFrom cur Disks.keep path (some x) =
      .ok (some dir)) :
    let s' := t.filled t₁ d i num name
    s'.tree.step cur (s'.tree.follow cur) dir [] = .ok (some dir) := by
  intro s'
  have hgot : ∀ y, s'.tree.igets y = .ok dir → s.Unmounted dir := fun y hy =>
    hs.got (by rwa [hl.igets h name] at hy)
  have hunmounted : s.Unmounted dir := by
    rw [Disks.walkFrom] at hwalk
    rcases Disks.walk_got hwalk with ⟨heq, hlen⟩ | ⟨y, hy⟩
    · rw [Disks.startOf] at heq hlen
      split at heq
      case isTrue => exact heq ▸ hs.root
      case isFalse hhead =>
        rw [if_neg hhead] at hlen
        exact absurd hlen (Nat.not_le.mpr (Disks.length_components hne hslash))
    · exact hgot y hy
  have hsearch : s'.tree.Searchable cur dir := by
    rw [Disks.walkFrom] at hwalk
    obtain ⟨names, last, hnames⟩ := (List.eq_nil_or_concat'
      (Disks.startOf cur path (some x)).2).resolve_left (Disks.startOf_ne_nil path _)
    rw [hnames] at hwalk
    exact (Disks.walk_last [] hwalk).1
  have hdirne : dir ≠ (d.1, num) := by
    rintro rfl
    have hnot := not_isLnk (Disks.isDir_of_searchable hsearch)
    exact Bool.false_ne_true (hnot.symm.trans (hl.isLnk_filled h name))
  have hlisted : s.Listed dir := by
    obtain ⟨size, -, hnode⟩ := hl.node h name hdirne
    have hlisted := listed_of_searchable hsearch
    rw [Listed, hnode] at hlisted
    exact hlisted
  exact hl.dotted hs h hd hdir hname hread hlisted hunmounted hdirne

end

theorem mem_components {path : List Char} {c : Char} (hname : name ∈ components path)
    (hc : c ∈ name) : c ∈ path := by
  induction path generalizing name with
  | nil =>
    obtain rfl := List.mem_singleton.mp hname
    exact hc
  | cons a path ih =>
    rw [components, List.splitOn_cons_eq_if_modifyHead] at hname
    split at hname
    · rcases List.mem_cons.mp hname with rfl | hname
      · exact absurd hc List.not_mem_nil
      · exact List.mem_cons_of_mem a (ih hname hc)
    · obtain ⟨first, rest, hsplit⟩ :=
        List.exists_cons_of_ne_nil (Disks.components_ne_nil path)
      rw [show path.splitOn '/' = first :: rest from hsplit, List.modifyHead_cons] at hname
      rcases List.mem_cons.mp hname with rfl | hname
      · rcases List.mem_cons.mp hc with rfl | hc
        · exact List.mem_cons_self
        · exact List.mem_cons_of_mem a (ih (hsplit ▸ List.mem_cons_self) hc)
      · exact List.mem_cons_of_mem a (ih (hsplit ▸ List.mem_cons_of_mem first hname) hc)

theorem isName_basename {path : List Char} (h : IsName path) : IsName (basename path) := by
  intro c hc
  obtain ⟨names, name, hnames⟩ :=
    (List.eq_nil_or_concat' (components path)).resolve_left (Disks.components_ne_nil path)
  have hmem : name ∈ components path := by
    rw [hnames]
    simp
  refine h c (mem_components hmem ?_)
  rw [basename, hnames] at hc
  simpa using hc

theorem succeeds_eq {ids : List InodeId} (h : ∀ id ∈ ids, s.held id ≠ 0 ∨ (s.node id).nlinks ≠ 0) :
    s.succeeds o ids = .ok (.ok none, s) := by
  induction ids with
  | nil => rfl
  | cons id ids ih =>
    rw [succeeds, iput_held (h id List.mem_cons_self)]
    exact ih fun x hx => h x (List.mem_cons_of_mem id hx)

/-- A call that makes a link: the directory, and what it comes to. -/
theorem sysSymlink_ok (hs : s.Rooted cur) (hr : s.Reads o) (htext : IsName text)
    (h : s.sysSymlink cur o text path = .ok (.ok none, s')) :
    ∃ d num t t₁ i z, Linking s t (d.1, num) (text.take 1023) ∧ Slot t t₁ d i z ∧
      s' = t.filled t₁ d i num (basename path) ∧ s.Used d ∧ s.Listed d ∧
      (s.entries d).find? (nameMatches ((basename path).take nameLen)) = none ∧
      s.tree.walkFrom cur (s.tree.follow cur) path none = .ok (some d) ∧ basename path ≠ [] ∧
      basename path ≠ ['.', '.'] := by
  rw [sysSymlink] at h
  obtain ⟨dir, hdirNamei, h⟩ := Except.ok_of_bind h
  cases dir with
  | none => cases h
  | some d =>
    have hused := hs.inOrder.dirNamei hdirNamei
    obtain ⟨-, hsearch⟩ := hs.inOrder.dirNamei_searchable hdirNamei
    have hlisted := listed_of_searchable hsearch
    have hwalk := ok_of_mapError hdirNamei
    rw [hr.disks s 0] at hwalk
    dsimp only at h
    split_ifs at h with hname hperm
    · exact absurd h fails_ne
    · exact absurd h fails_ne
    · obtain ⟨num, t, t', d', hl, hfind, hadd, hsucceeds⟩ := makeLink_ok hs.inOrder htext h
      obtain ⟨found, hf, hfound⟩ := find_of_findEntry hfind
      obtain rfl : found = none := Option.map_eq_none_iff.mp hfound.symm
      rw [hr.disks t 2] at hf
      -- `.` and `..` are there, so that the directory is not exchanged
      obtain ⟨key, hex⟩ : ∃ key, t.tree.exchange cur d (basename path) = (d', key) :=
        ⟨(t.tree.exchange cur d (basename path)).2, Prod.ext (Files.dir_of_find hf).symm rfl⟩
      have hd' : s.Used d' ∧ s.Listed d' := by
        rcases Files.exchange_cases t.tree cur d (basename path) with heq | ⟨m, hm, heq⟩
        · rw [hex] at heq
          have heq' : d' = d := heq
          exact heq' ▸ ⟨hused, hlisted⟩
        · rw [hex] at heq
          cases heq
          have himount : s.imount d.1 = some d' := by
            rw [← hl.took.imount]
            exact hm
          exact hs.inOrder.imount _ _ himount
      have hkey : ¬ (key = ['.'] ∨ key = ['.', '.']) := by
        intro hkey
        obtain ⟨b, de, hfound⟩ := hl.found_dots hs hused hlisted hd'.1 hd'.2 hex hkey
        rw [hf] at hfound
        cases hfound
      rw [not_or] at hkey
      obtain ⟨rfl, hup, rfl⟩ := exchange_plain hex hkey.1 hkey.2
      have htdir := hl.took.directory (hl.ne hused) (hs.directory d hlisted).1
      have hnone : (s.entries d).find? (nameMatches ((basename path).take nameLen)) = none := by
        have heq := find_eq htdir (fun _ _ _ => rfl) hex
        rw [hf, hl.entries hs hused hlisted] at heq
        exact (Prod.mk.inj (Except.ok.inj heq)).2.symm
      have hadd' : t.addName o d num (basename path) = .ok (true, t') := by
        rw [addName, if_neg hname]
        exact hadd
      obtain ⟨i, t₁, z, hslot, rfl⟩ := addName_slot htdir hadd'
      refine ⟨d, num, t, t₁, i, z, hl, hslot, ?_, hused, hlisted, hnone, hwalk, hname, hup⟩
      have hheld : ∀ x ∈ [d, (d.1, num)],
          (t.filled t₁ d i num (basename path)).held x ≠ 0 ∨
            ((t.filled t₁ d i num (basename path)).node x).nlinks ≠ 0 := by
        intro x hx
        refine .inr ?_
        obtain ⟨size, -, hnode⟩ := node_filled hslot num (basename path) x
        rw [hnode]
        rcases List.mem_pair.mp hx with rfl | rfl
        · change (t.node x).nlinks ≠ 0
          rw [hl.took.node x (hl.ne hused)]
          exact fun hcon => hlisted.2 ⟨hl.took.dev, hcon⟩
        · exact hl.nlinks
      rw [succeeds_eq hheld] at hsucceeds
      cases hsucceeds
      rfl

theorem Linking.num_ne_zero (hs : s.Rooted cur) (hl : Linking s t (d.1, num) text) : num ≠ 0 := by
  rintro rfl
  exact hs.zero d.1 hl.took.clear

/-- What `sys_readlink` reads of a link. -/
theorem sysReadlink_link {path : List Char} {x : InodeId} {block : ℕ}
    (hlnk : (s.node x).isLnk = true) (hthrough : s.tree.Through cur path none d x)
    (hbuf : s.tree.dirBuf x (s.tree.bmap x 0) = some (x.1, block)) {bufsiz : ℤ}
    (hpos : 0 < bufsiz) : s.sysReadlink cur (fun _ _ => true) path bufsiz =
      .ok (.ok (s.string x.1 block 0 (min bufsiz.toNat 1023))) := by
  rw [sysReadlink, if_neg (by omega)]
  change (((s.tree.resolve cur (s.tree.follow cur) path none false).mapError Crash.halt) >>= _) = _
  rw [hthrough.resolve]
  change (if s.firstZone x = 0 ∨ _ then _ else _) = _
  have hbmap : s.tree.bmap x 0 = (s.zones x.1).zone x.2 0 := by
    rw [bmap_eq, if_pos (by decide)]
    rfl
  obtain ⟨-, hblock, heq⟩ := dirBuf_some (j := 0) hbuf
  have hzone : s.firstZone x = block := by
    rw [DInode.isLnk, beq_iff_eq] at hlnk
    rw [firstZone, hlnk, if_neg (by decide), (Prod.mk.inj heq).2]
    rfl
  rw [← (Prod.mk.inj heq).2] at hblock
  rw [hzone, if_neg (not_or.mpr ⟨hblock, Bool.noConfusion⟩)]

/-- The text that is read back. -/
theorem sysReadlink_symlink {path : List Char} (hs : s.Rooted cur) (hr : s.Reads o)
    (htext : IsName text) (hpath : IsName path)
    (h : s.sysSymlink cur o text path = .ok (.ok none, s')) {bufsiz : ℤ} (hpos : 0 < bufsiz) :
    s'.sysReadlink cur (fun _ _ => true) path bufsiz =
      .ok (.ok ((text.take 1023).take bufsiz.toNat)) := by
  obtain ⟨d, num, t, t₁, i, z, hl, hslot, rfl, hd, hdir, hnone, hwalk, hne, hup⟩ :=
    sysSymlink_ok hs hr htext h
  have hthrough := hl.through hs hslot hd hdir (isName_basename hpath) hnone hr.inode
    (hl.num_ne_zero hs) hwalk rfl hne hup
  obtain ⟨hbuf, hstring⟩ := hl.string hslot hd (basename path) (min bufsiz.toNat 1023)
  rw [sysReadlink_link (hl.isLnk_filled hslot _) hthrough hbuf hpos, hstring, List.take_take,
    List.take_take, Nat.min_assoc, Nat.min_self]

end Volumes

open Volumes in
/-- **Symbolic links mean their text**: once `sys_symlink` has made a link, `sys_readlink` returns
the first 1023 bytes of the text, cut to the size of the buffer.  A path that goes on behind the
link leads to what the path with the text in the place of the link leads to, and so does a path
that ends with the link, if the text names anything. -/
theorem symbolic_link {s s' : Volumes} {cur : Current} {o : Outside} {text path : List Char}
    (hs : s.Rooted cur) (hr : s.Reads o) (htext : IsName text) (hpath : IsName path)
    (h : s.sysSymlink cur o text path = .ok (.ok none, s')) :
    (∀ bufsiz : ℤ, 0 < bufsiz → s'.sysReadlink cur (fun _ _ => true) path bufsiz =
      .ok (.ok ((text.take 1023).take bufsiz.toNat))) ∧
    ∃ d x, s'.tree.Through cur path none d x ∧ (text ≠ [] →
      ∀ (path' : List Char) (base : Option InodeId) (d' : InodeId),
        s'.tree.Through cur path' base d' x →
        s'.tree.Plain cur (Disks.startOf cur (text.take 1023) (some d')).2
          (Disks.startOf cur (text.take 1023) (some d')).1 →
        (∀ rest followLinks,
          s'.tree.resolve cur (s'.tree.follow cur) (path' ++ '/' :: rest) base followLinks =
            s'.tree.resolve cur (s'.tree.follow cur) (text.take 1023 ++ '/' :: rest) (some d')
              followLinks) ∧
        (s'.tree.resolve cur (s'.tree.follow cur) (text.take 1023) (some d') true ≠ .ok none →
          s'.tree.resolve cur (s'.tree.follow cur) path' base true =
            s'.tree.resolve cur (s'.tree.follow cur) (text.take 1023) (some d') true)) := by
  obtain ⟨d, num, t, t₁, i, z, hl, hslot, rfl, hd, hdir, hnone, hwalk, hne, hup⟩ :=
    sysSymlink_ok hs hr htext h
  have hname := isName_basename hpath
  have hthrough := hl.through hs hslot hd hdir hname hnone hr.inode (hl.num_ne_zero hs) hwalk rfl
    hne hup
  have hlen : (text.take 1023).length ≤ 1024 := (List.length_take_le _ _).trans (by decide)
  refine ⟨fun bufsiz hpos => sysReadlink_symlink hs hr htext hpath h hpos, d, (d.1, num), hthrough,
    fun hempty path' base d' hpath' hplain =>
    have hnil : text.take 1023 ≠ [] := fun hnil =>
      hempty ((List.take_eq_nil_iff.mp hnil).resolve_left (by decide))
    ⟨fun rest followLinks => ?_, fun hsome => ?_⟩⟩
  · exact Disks.resolve_through hpath' (hl.hasText hslot hd hlen) hnil hplain
      (fun hslash dir hwalk' => hl.slash hs hslot hd hdir hname hr.inode hnil hslash hwalk')
      followLinks
  · exact Disks.resolve_link hpath' (hl.hasText hslot hd hlen) hplain hsome

/-! ### A link in a root directory -/

namespace Volumes

/-- All blocks can be read. -/
def allRead : Outside := ⟨fun _ _ _ => true, true, fun _ => Truncation.quiet, 1, 0⟩

theorem rootOnly_reads : rootOnly.Reads allRead := ⟨fun _ _ _ => rfl, fun _ => rfl⟩

theorem rootOnly_isDir (h : (rootOnly.node d).isDir = true) : d = (1, 1) := by
  by_contra hne
  have hnode : rootOnly.node d = ⟨0, 0, 0, 0, 0⟩ := if_neg hne
  rw [hnode] at h
  cases h

theorem rootOnly_dirBuf {b : ℕ × ℕ} {j : ℕ} (hj : j < 2)
    (hb : rootOnly.tree.dirBuf (1, 1) (rootOnly.tree.bmap (1, 1) (j / dirEntriesPerBlock)) =
      some b) : b = (1, 5) := by
  obtain ⟨-, -, rfl⟩ := dirBuf_some hb
  obtain rfl | rfl : j = 0 ∨ j = 1 := by omega
  · rfl
  · rfl

theorem rootOnly_entries : rootOnly.dirEntry 1 5 0 = ⟨1, ['.']⟩ ∧
    rootOnly.dirEntry 1 5 1 = ⟨1, ['.', '.']⟩ := by decide +kernel

/-- There are no names but `.` and `..`. -/
theorem rootOnly_hasEntry {de : DirEntry} : ¬ rootOnly.tree.HasEntry d de := by
  rintro ⟨hdir, -, hdot, hup, j, hj, b, hb, rfl⟩
  obtain rfl := rootOnly_isDir hdir
  have hlt : j < 2 := hj
  obtain rfl := rootOnly_dirBuf hlt hb
  obtain rfl | rfl : j = 0 ∨ j = 1 := by omega
  · exact hdot (congrArg DirEntry.name rootOnly_entries.1)
  · exact hup (congrArg DirEntry.name rootOnly_entries.2)

theorem rootOnly_rooted : rootOnly.Rooted user where
  inOrder := rootOnly_inOrder
  tree := by
    constructor
    · intro d b hdir hb
      obtain rfl := rootOnly_isDir hdir
      obtain rfl := rootOnly_dirBuf (j := 0) (by decide) hb
      refine ⟨by decide, rootOnly_entries.1, ?_, congrArg DirEntry.name rootOnly_entries.2⟩
      change (rootOnly.dirEntry 1 5 1).inode ≠ 0
      rw [rootOnly_entries.2]
      decide
    · exact fun d de b he => absurd he rootOnly_hasEntry
    · exact fun d de he => absurd he rootOnly_hasEntry
    · nofun
  directory d hd := by
    obtain rfl := rootOnly_isDir hd.1
    exact ⟨rootOnly_directory, by decide⟩
  mounts := nofun
  root := by decide
  zero dev := by
    rintro ⟨bits, hbits, hclear⟩
    cases hbits
    cases hclear

/-- The call makes a link, and `p` holds afterwards. -/
def linksAnd (text : List Char) (p : Volumes → Bool) : Bool :=
  (rootOnly.sysSymlink user allRead text ['a']).toOption.any fun r =>
    match r with
    | (.ok none, s') => p s'
    | _ => false

theorem linksAnd_iff {text : List Char} {p : Volumes → Bool} (h : linksAnd text p = true) :
    ∃ s', rootOnly.sysSymlink user allRead text ['a'] = .ok (.ok none, s') ∧ p s' = true := by
  rw [linksAnd] at h
  cases hr : rootOnly.sysSymlink user allRead text ['a'] with
  | error c =>
    rw [hr] at h
    cases h
  | ok r =>
    rw [hr] at h
    obtain ⟨result, s'⟩ := r
    match result, h with
    | .ok none, hp => exact ⟨s', rfl, hp⟩

end Volumes

open Volumes in
theorem symbolic_link_root : ∃ s',
    rootOnly.sysSymlink user allRead ['b'] ['a'] = .ok (.ok none, s') ∧
      s'.sysReadlink user (fun _ _ => true) ['a'] 100 = .ok (.ok ['b']) := by
  obtain ⟨s', h, -⟩ := linksAnd_iff (show linksAnd ['b'] (fun _ => true) = true by decide +kernel)
  have hb : IsName ['b'] := isName_replicate (n := 1) (by decide)
  have ha : IsName ['a'] := isName_replicate (n := 1) (by decide)
  obtain ⟨hread, -⟩ := symbolic_link rootOnly_rooted rootOnly_reads hb ha h
  exact ⟨s', h, hread 100 (by decide)⟩

open Volumes in
/-- A text of 1024 bytes is not refused, and is read back without its last one.  A path that ends
with a link to a name that is not there runs into a null pointer (`_namei` uses what `follow_link`
returns), where the name alone is not found; and a link whose block cannot be read is read back
empty. -/
theorem symbolic_link_not :
    (∃ s', rootOnly.sysSymlink user allRead (List.replicate 1024 'b') ['a'] = .ok (.ok none, s') ∧
      s'.sysReadlink user (fun _ _ => true) ['a'] 2000 = .ok (.ok (List.replicate 1023 'b'))) ∧
    ∃ s', rootOnly.sysSymlink user allRead ['b'] ['a'] = .ok (.ok none, s') ∧
      s'.tree.resolve user (s'.tree.follow user) ['b'] none true = .ok none ∧
      s'.tree.resolve user (s'.tree.follow user) ['a'] none true = .error .null ∧
      s'.sysReadlink user (fun _ b => b == 5) ['a'] 100 = .ok (.ok []) := by
  have ha : IsName ['a'] := isName_replicate (n := 1) (by decide)
  constructor
  · obtain ⟨s', h, -⟩ := linksAnd_iff
      (show linksAnd (List.replicate 1024 'b') (fun _ => true) = true by decide +kernel)
    refine ⟨s', h, ?_⟩
    have hread := sysReadlink_symlink rootOnly_rooted rootOnly_reads
      (isName_replicate (by decide)) ha h (show 0 < (2000 : ℤ) by decide)
    rw [hread, List.take_replicate, List.take_replicate]
    rfl
  · obtain ⟨s', h, hp⟩ := linksAnd_iff (show linksAnd ['b'] (fun s' =>
        s'.tree.resolve user (s'.tree.follow user) ['b'] none true == .ok none &&
        s'.tree.resolve user (s'.tree.follow user) ['a'] none true == .error .null &&
        s'.sysReadlink user (fun _ b => b == 5) ['a'] 100 == .ok (.ok [])) = true by decide +kernel)
    rw [Bool.and_eq_true, Bool.and_eq_true, beq_iff_eq, beq_iff_eq, beq_iff_eq, and_assoc] at hp
    exact ⟨s', h, hp⟩

end Fs
