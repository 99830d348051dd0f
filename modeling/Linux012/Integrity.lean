/-
What a process that is not the superuser can change (fs/open.c, fs/namei.c).

* `Files.Names` — the directory entries that name an inode;
* `Files.WellFormed` — a file system in order, with no more names of a file than links;
* `file_integrity` — in runs in which a process sets no times but of files that it owns or may
  write, and makes no 256th link, a file that keeps a name keeps its data, size, owner,
  permissions and time, where the process neither owns it nor may write it;
* `utime_changes` — `sys_utime` makes no check.
-/
import Linux012.Files
import Mathlib.Data.Set.Card

namespace Fs

open Function (update)

namespace Files

/-- The entries that name an inode: a directory, and a place in it. -/
def Names (s : Files) (f : InodeId) : Set (InodeId × ℕ) :=
  {p | p.1.1 = f.1 ∧ (s.node p.1).isDir = true ∧ p.2 < (s.node p.1).size / 16 ∧
    (s.dirEntry p.1 p.2).inode = f.2 ∧ f.2 ≠ 0}

/-- A file system in order. An inode that is not in use counts as no directory. -/
structure WellFormed (s : Files) : Prop where
  links : ∀ f, (s.node f).isDir = false → (s.Names f).encard ≤ (s.node f).nlinks
  used : ∀ f, (s.Names f).Nonempty → s.imap f.1 f.2 = true
  free : ∀ f, s.imap f.1 f.2 = false → (s.node f).isDir = false
  size : ∀ d, (s.node d).isDir = true → 16 ∣ (s.node d).size
  /-- the second entry of a directory is `..`, and names a directory -/
  dotdot : ∀ d, (s.node d).isDir = true → 2 ≤ (s.node d).size / 16 ∧
    (s.mapped d 0 = true → (s.dirEntry d 1).inode ≠ 0 ∧ (s.dirEntry d 1).name = ['.', '.'] ∧
      (s.node (d.1, (s.dirEntry d 1).inode)).isDir = true)
  mounted : ∀ id dev, s.mountedDev id = some dev → (s.node (dev, rootIno)).isDir = true
  imount : ∀ dev m, s.imount dev = some m → (s.node m).isDir = true

/-- The file keeps its data, and what is guarded of its inode. -/
structure Guards (s s' : Files) (f : InodeId) : Prop where
  mode : (s'.node f).mode = (s.node f).mode
  uid : (s'.node f).uid = (s.node f).uid
  gid : (s'.node f).gid = (s.node f).gid
  size : (s'.node f).size = (s.node f).size
  mtime : (s'.node f).mtime = (s.node f).mtime
  mapped : s'.mapped f = s.mapped f
  data : s'.data f = s.data f

/-- The directories stay as they are, but for the entries of `P`. -/
structure Edits (s s' : Files) (P : Set (InodeId × ℕ)) : Prop where
  isDir : ∀ d, (s'.node d).isDir = (s.node d).isDir
  size : ∀ d, (s.node d).isDir = true → 16 ∣ (s.node d).size → 16 ∣ (s'.node d).size
  slot : ∀ d i, (s.node d).isDir = true → 16 ∣ (s.node d).size → (d, i) ∉ P →
    (i < (s'.node d).size / 16 ↔ i < (s.node d).size / 16)
  entry : ∀ d i, (s.node d).isDir = true → (d, i) ∉ P → s'.dirEntry d i = s.dirEntry d i
  first : ∀ d, (s.node d).isDir = true → s'.mapped d 0 = s.mapped d 0
  mountedDev : s'.mountedDev = s.mountedDev
  imount : s'.imount = s.imount

variable {s s' s'' : Files} {d f id : InodeId} {i j k num : ℕ} {name : Name}
  {P : Set (InodeId × ℕ)}

/-! ### Directory entries -/

theorem byte_congr (hm : s'.mapped d = s.mapped d) (hd : s'.data d = s.data d) (pos : ℕ) :
    s'.byte d pos = s.byte d pos := by
  rw [byte, byte, hm, hd]

theorem dirEntry_congr (h : ∀ pos, 16 * i ≤ pos → pos < 16 * i + 16 →
    s'.byte d pos = s.byte d pos) : s'.dirEntry d i = s.dirEntry d i := by
  rw [dirEntry, dirEntry, h _ (by omega) (by omega), h _ (by omega) (by omega), string, string]
  congr 3
  refine List.map_congr_left fun pos hpos => ?_
  rw [List.mem_range'_1] at hpos
  exact h pos (by omega) (by simp only [nameLen] at hpos; omega)

/-- A new block is zero, as the hole was. -/
theorem byte_grow (pos : ℕ) : (s.grow id k).byte d pos = s.byte d pos := by
  rw [grow]
  split
  case isTrue => rfl
  case isFalse hnew =>
    rw [byte, byte]
    dsimp only
    rcases eq_or_ne d id with rfl | hne
    · simp only [Function.update_self]
      by_cases hk : pos / 1024 = k
      · rw [if_pos hk, ite_self, hk, if_neg hnew]
      · simp only [Function.update_of_ne hk]
        rw [if_neg hk]
    · simp only [Function.update_of_ne hne]

theorem mapped_grow_self : (s.grow id k).mapped id k = true := by
  rw [grow]
  split
  case isTrue h => exact h
  case isFalse =>
    dsimp only
    rw [Function.update_self, Function.update_self]

theorem byte_writeEntry (hm : s.mapped d (i / 64) = true) (pos : ℕ) :
    (s.writeEntry d i num name).byte d pos =
      if pos / 16 = i then (entryBytes num name).getD (pos % 16) 0 else s.byte d pos := by
  rw [byte, byte, writeEntry]
  dsimp only
  simp only [Function.update_self]
  by_cases hi : pos / 16 = i
  · rw [if_pos hi, if_pos hi, if_pos]
    rwa [show pos / 1024 = i / 64 by omega]
  · rw [if_neg hi, if_neg hi]

theorem dirEntry_writeEntry_of_ne (hm : s.mapped d (i / 64) = true) (hj : j ≠ i) :
    (s.writeEntry d i num name).dirEntry d j = s.dirEntry d j := by
  refine dirEntry_congr fun pos hlo hhi => ?_
  rw [byte_writeEntry hm, if_neg (by omega)]

theorem inode_writeEntry (hm : s.mapped d (i / 64) = true) (hnum : num < 65536) :
    ((s.writeEntry d i num name).dirEntry d i).inode = num := by
  have hlo : (16 * i) / 16 = i ∧ 16 * i % 16 = 0 := by omega
  have hhi : (16 * i + 1) / 16 = i ∧ (16 * i + 1) % 16 = 1 := by omega
  rw [dirEntry]
  dsimp only
  rw [byte_writeEntry hm, byte_writeEntry hm, if_pos hlo.1, if_pos hhi.1, hlo.2, hhi.2]
  simp only [entryBytes, List.getD_cons_zero, List.getD_cons_succ, UInt8.toNat_ofNat']
  omega

theorem byte_clearEntry_of_ne (pos : ℕ) (hlo : pos ≠ 16 * i) (hhi : pos ≠ 16 * i + 1) :
    (s.clearEntry d i).byte d pos = s.byte d pos := by
  have hdata : (s.clearEntry d i).data d pos = s.data d pos := by
    rw [clearEntry]
    dsimp only
    rw [Function.update_self, if_neg (not_or.mpr ⟨hlo, hhi⟩)]
  rw [byte, byte, hdata]
  rfl

theorem dirEntry_clearEntry_of_ne (hj : j ≠ i) :
    (s.clearEntry d i).dirEntry d j = s.dirEntry d j := by
  refine dirEntry_congr fun pos hlo hhi => byte_clearEntry_of_ne pos ?_ ?_
  · omega
  · omega

theorem inode_clearEntry : ((s.clearEntry d i).dirEntry d i).inode = 0 := by
  have hzero : ∀ pos, pos = 16 * i ∨ pos = 16 * i + 1 → (s.clearEntry d i).byte d pos = 0 := by
    intro pos hpos
    rw [byte, clearEntry]
    dsimp only
    rw [Function.update_self, if_pos hpos, ite_self]
  rw [dirEntry]
  dsimp only
  rw [hzero _ (.inl rfl), hzero _ (.inr rfl)]
  rfl

/-! ### Edits of directories -/

theorem Edits.refl (s : Files) (P : Set (InodeId × ℕ)) : Edits s s P where
  isDir _ := rfl
  size _ _ h := h
  slot _ _ _ _ _ := Iff.rfl
  entry _ _ _ _ := rfl
  first _ _ := rfl
  mountedDev := rfl
  imount := rfl

theorem Edits.trans (h : Edits s s' P) (h' : Edits s' s'' P) : Edits s s'' P where
  isDir d := (h'.isDir d).trans (h.isDir d)
  size d hd hs := h'.size d ((h.isDir d).trans hd) (h.size d hd hs)
  slot d i hd hs hi :=
    (h'.slot d i ((h.isDir d).trans hd) (h.size d hd hs) hi).trans (h.slot d i hd hs hi)
  entry d i hd hi := (h'.entry d i ((h.isDir d).trans hd) hi).trans (h.entry d i hd hi)
  first d hd := (h'.first d ((h.isDir d).trans hd)).trans (h.first d hd)
  mountedDev := h'.mountedDev.trans h.mountedDev
  imount := h'.imount.trans h.imount

/-- What is left of the names of a file. -/
theorem Edits.mem_names (h : Edits s s' P) (hs : s.WellFormed) {p : InodeId × ℕ} (hp : p ∉ P) :
    p ∈ s'.Names f ↔ p ∈ s.Names f := by
  rw [Names, Names, Set.mem_ofPred_eq, Set.mem_ofPred_eq, h.isDir]
  refine and_congr_right fun _ => and_congr_right fun hdir => ?_
  rw [h.slot p.1 p.2 hdir (hs.size _ hdir) hp, h.entry p.1 p.2 hdir hp]

theorem Edits.names_eq (h : Edits s s' ∅) (hs : s.WellFormed) (f : InodeId) :
    s'.Names f = s.Names f :=
  Set.ext fun _ => h.mem_names hs (Set.notMem_empty _)

/-- A file system stays in order, where the links are counted and `..` is left alone. -/
theorem WellFormed.edits (hs : s.WellFormed) (h : Edits s s' P) (hdots : ∀ d, (d, 1) ∉ P)
    (hlinks : ∀ f, (s.node f).isDir = false → (s'.Names f).encard ≤ (s'.node f).nlinks)
    (hused : ∀ f, (s'.Names f).Nonempty → s'.imap f.1 f.2 = true)
    (hfree : ∀ f, s'.imap f.1 f.2 = false → (s.node f).isDir = false) : s'.WellFormed where
  links f hf := hlinks f ((h.isDir f).symm.trans hf)
  used := hused
  free f hf := (h.isDir f).trans (hfree f hf)
  size d hd := by
    rw [h.isDir] at hd
    exact h.size d hd (hs.size d hd)
  dotdot d hd := by
    rw [h.isDir] at hd
    obtain ⟨hsize, hentry⟩ := hs.dotdot d hd
    refine ⟨(h.slot d 1 hd (hs.size d hd) (hdots d)).mpr hsize, fun hm => ?_⟩
    rw [h.entry d 1 hd (hdots d), h.isDir]
    exact hentry ((h.first d hd).symm.trans hm)
  mounted id dev hm := by
    rw [h.mountedDev] at hm
    exact (h.isDir _).trans (hs.mounted id dev hm)
  imount dev m hm := by
    rw [h.imount] at hm
    exact (h.isDir _).trans (hs.imount dev m hm)

/-! ### What the writes change -/

/-- A store to an inode that is neither made nor unmade a directory. -/
theorem edits_setNode {g : Node → Node} (hdir : (g (s.node id)).isDir = (s.node id).isDir)
    (hsize : (s.node id).isDir = true → (g (s.node id)).size = (s.node id).size) :
    Edits s (s.setNode id g) P where
  isDir d := by
    rcases eq_or_ne d id with rfl | hne
    · rw [node_setNode_self, hdir]
    · rw [node_setNode_of_ne hne]
  size d hd h := by
    rcases eq_or_ne d id with rfl | hne
    · rwa [node_setNode_self, hsize hd]
    · rwa [node_setNode_of_ne hne]
  slot d i hd _ _ := by
    rcases eq_or_ne d id with rfl | hne
    · rw [node_setNode_self, hsize hd]
    · rw [node_setNode_of_ne hne]
  entry _ _ _ _ := rfl
  first _ _ := rfl
  mountedDev := rfl
  imount := rfl

theorem Guards.refl (s : Files) (f : InodeId) : Guards s s f := ⟨rfl, rfl, rfl, rfl, rfl, rfl, rfl⟩

theorem Guards.trans (h : Guards s s' f) (h' : Guards s' s'' f) : Guards s s'' f where
  mode := h'.mode.trans h.mode
  uid := h'.uid.trans h.uid
  gid := h'.gid.trans h.gid
  size := h'.size.trans h.size
  mtime := h'.mtime.trans h.mtime
  mapped := h'.mapped.trans h.mapped
  data := h'.data.trans h.data

/-- A file whose inode, blocks and data are the same. -/
theorem Guards.of_eq (hnode : s'.node f = s.node f) (hmapped : s'.mapped f = s.mapped f)
    (hdata : s'.data f = s.data f) : Guards s s' f where
  mode := by rw [hnode]
  uid := by rw [hnode]
  gid := by rw [hnode]
  size := by rw [hnode]
  mtime := by rw [hnode]
  mapped := hmapped
  data := hdata

theorem guards_setNode_of_ne {g : Node → Node} (hne : f ≠ id) : Guards s (s.setNode id g) f :=
  .of_eq (node_setNode_of_ne hne) rfl rfl

/-- A store to other fields of the inode. -/
theorem guards_setNode {g : Node → Node} (hmode : ∀ n, (g n).mode = n.mode)
    (huid : ∀ n, (g n).uid = n.uid) (hgid : ∀ n, (g n).gid = n.gid)
    (hsize : ∀ n, (g n).size = n.size) (hmtime : ∀ n, (g n).mtime = n.mtime) (f : InodeId) :
    Guards s (s.setNode id g) f := by
  rcases eq_or_ne f id with rfl | hne
  · have hnode := s.node_setNode_self f g
    exact ⟨by rw [hnode, hmode], by rw [hnode, huid], by rw [hnode, hgid], by rw [hnode, hsize],
      by rw [hnode, hmtime], rfl, rfl⟩
  · exact guards_setNode_of_ne hne

/-- The blocks of other files than directories are let go. -/
theorem Edits.unmap (h : Edits s s' P) {m : InodeId → ℕ → Bool}
    (hm : ∀ d, (s.node d).isDir = true → m d = s'.mapped d) :
    Edits s { s' with mapped := m } P where
  isDir := h.isDir
  size := h.size
  slot := h.slot
  entry d i hd hi := by
    have hbyte : ∀ pos, byte { s' with mapped := m } d pos = s'.byte d pos := by
      intro pos
      simp only [byte, hm d hd]
    exact (dirEntry_congr fun pos _ _ => hbyte pos).trans (h.entry d i hd hi)
  first d hd := (congrFun (hm d hd) 0).trans (h.first d hd)
  mountedDev := h.mountedDev
  imount := h.imount

/-- Another file than a directory is emptied. -/
theorem edits_truncate (hdir : (s.node id).isDir = false) : Edits s (s.truncate id) P := by
  rw [truncate]
  split
  case isFalse => exact .refl s P
  case isTrue =>
    refine Edits.unmap (edits_setNode rfl fun h => ?_) fun d hd => ?_
    · rw [hdir] at h
      cases h
    · refine Function.update_of_ne ?_ _ _
      rintro rfl
      rw [hdir] at hd
      cases hd

theorem guards_truncate (hne : f ≠ id) : Guards s (s.truncate id) f := by
  rw [truncate]
  split
  case isFalse => exact .refl s f
  case isTrue =>
    exact .of_eq (Function.update_of_ne hne _ _) (Function.update_of_ne hne _ _) rfl

theorem node_truncate_of_ne (hne : d ≠ id) : (s.truncate id).node d = s.node d := by
  rw [truncate]
  split
  case isTrue => exact Function.update_of_ne hne _ _
  case isFalse => rfl

theorem imap_truncate : (s.truncate id).imap = s.imap := by
  rw [truncate]
  split <;> rfl

theorem node_freeInode_of_ne (hne : d ≠ id) : (s.freeInode id).node d = s.node d :=
  Function.update_of_ne hne _ _

/-- A bit of the inode bitmap is set, or cleared. -/
theorem update_imap {m : ℕ → ℕ → Bool} {b : Bool} (id f : InodeId) :
    update m id.1 (update (m id.1) id.2 b) f.1 f.2 = if f = id then b else m f.1 f.2 := by
  by_cases hdev : f.1 = id.1
  · rw [hdev, Function.update_self]
    by_cases hnum : f.2 = id.2
    · rw [hnum, Function.update_self, if_pos (Prod.ext hdev hnum)]
    · rw [Function.update_of_ne hnum, if_neg fun h => hnum (congrArg Prod.snd h)]
  · rw [Function.update_of_ne hdev, if_neg fun h => hdev (congrArg Prod.fst h)]

theorem imap_freeInode : (s.freeInode id).imap f.1 f.2 = if f = id then false else s.imap f.1 f.2 :=
  update_imap id f

theorem edits_freeInode (hdir : (s.node id).isDir = false) : Edits s (s.freeInode id) P := by
  have hnode : Edits s (s.setNode id fun _ => ⟨⟨0, 0, 0, 0, 0⟩, 0, 0, 0, 0⟩) P :=
    edits_setNode (by rw [hdir]; rfl) fun h => absurd h (by rw [hdir]; exact Bool.false_ne_true)
  exact { hnode with }

theorem guards_freeInode (hne : f ≠ id) : Guards s (s.freeInode id) f :=
  .of_eq (Function.update_of_ne hne _ _) rfl rfl

/-! ### Entries that are added and removed -/

theorem edits_grow (hm : s.mapped d 0 = true) : Edits s (s.grow d k) P := by
  have hbyte : ∀ x pos, (s.grow d k).byte x pos = s.byte x pos := fun x pos => byte_grow pos
  have hfields : (s.grow d k).node = s.node ∧ (s.grow d k).mountedDev = s.mountedDev ∧
      (s.grow d k).imount = s.imount := by
    rw [grow]
    split <;> exact ⟨rfl, rfl, rfl⟩
  obtain ⟨hnode, hmounted, himount⟩ := hfields
  refine ⟨fun x => by rw [hnode], fun x _ h => by rwa [hnode], fun x i _ _ _ => by rw [hnode],
    fun x i _ _ => dirEntry_congr fun pos _ _ => hbyte x pos, fun x _ => ?_, hmounted, himount⟩
  rw [grow]
  split
  case isTrue => rfl
  case isFalse hnew =>
    dsimp only
    rcases eq_or_ne x d with rfl | hne
    · rw [Function.update_self, Function.update_of_ne]
      rintro rfl
      exact hnew hm
    · rw [Function.update_of_ne hne]

theorem edits_extend (hsize : i ≤ (s.node d).size / 16) : Edits s (s.extend d i) {(d, i)} := by
  rw [extend]
  split
  case isFalse => exact .refl s _
  case isTrue hend =>
    refine ⟨fun x => ?_, fun x hx h => ?_, fun x j hx h hj => ?_, fun _ _ _ _ => rfl,
      fun _ _ => rfl, rfl, rfl⟩
    · rcases eq_or_ne x d with rfl | hne
      · rw [node_setNode_self]
        rfl
      · rw [node_setNode_of_ne hne]
    · rcases eq_or_ne x d with rfl | hne
      · rw [node_setNode_self]
        exact Nat.dvd_mul_left 16 (i + 1)
      · rwa [node_setNode_of_ne hne]
    · rcases eq_or_ne x d with rfl | hne
      · have hji : j ≠ i := fun heq => hj (Set.mem_singleton_iff.mpr (by rw [heq]))
        rw [node_setNode_self]
        dsimp only
        omega
      · rw [node_setNode_of_ne hne]

theorem edits_writeEntry (hm : s.mapped d (i / 64) = true) :
    Edits s (s.writeEntry d i num name) {(d, i)} := by
  refine ⟨fun _ => rfl, fun _ _ h => h, fun _ _ _ _ _ => Iff.rfl, fun x j _ hj => ?_,
    fun _ _ => rfl, rfl, rfl⟩
  rcases eq_or_ne x d with rfl | hne
  · refine dirEntry_writeEntry_of_ne hm fun heq => hj (Set.mem_singleton_iff.mpr (by rw [heq]))
  · have hdata : (s.writeEntry d i num name).data x = s.data x := Function.update_of_ne hne _ _
    exact dirEntry_congr fun pos _ _ => byte_congr (by rfl) hdata pos

theorem edits_clearEntry : Edits s (s.clearEntry d i) {(d, i)} := by
  refine ⟨fun _ => rfl, fun _ _ h => h, fun _ _ _ _ _ => Iff.rfl, fun x j _ hj => ?_,
    fun _ _ => rfl, rfl, rfl⟩
  rcases eq_or_ne x d with rfl | hne
  · exact dirEntry_clearEntry_of_ne fun heq => hj (Set.mem_singleton_iff.mpr (by rw [heq]))
  · have hdata : (s.clearEntry d i).data x = s.data x := Function.update_of_ne hne _ _
    exact dirEntry_congr fun pos _ _ => byte_congr (by rfl) hdata pos

/-- The file system but for a directory and its data. -/
structure SameBut (s s' : Files) (d : InodeId) : Prop where
  node : ∀ x, x ≠ d → s'.node x = s.node x
  mapped : ∀ x, x ≠ d → s'.mapped x = s.mapped x
  data : ∀ x, x ≠ d → s'.data x = s.data x
  imap : s'.imap = s.imap

theorem sameBut_putEntry : SameBut s (s.putEntry d i num name) d := by
  rw [putEntry, extend, grow]
  constructor
  · intro x hx
    split_ifs <;> simp [writeEntry, setNode, Function.update_of_ne hx]
  · intro x hx
    split_ifs <;> simp [writeEntry, setNode, Function.update_of_ne hx]
  · intro x hx
    split_ifs <;> simp [writeEntry, setNode, Function.update_of_ne hx]
  · split_ifs <;> rfl

/-- `add_entry` writes one entry. -/
theorem edits_putEntry (hm : s.mapped d 0 = true) (hsize : i ≤ (s.node d).size / 16) :
    Edits s (s.putEntry d i num name) {(d, i)} := by
  have hgrow : Edits s (s.grow d (i / 64)) {(d, i)} := edits_grow hm
  have hext : Edits (s.grow d (i / 64)) ((s.grow d (i / 64)).extend d i) {(d, i)} := by
    refine edits_extend ?_
    rw [grow]
    split <;> exact hsize
  have hmapped : ((s.grow d (i / 64)).extend d i).mapped d (i / 64) = true := by
    rw [extend]
    split <;> exact mapped_grow_self
  exact ((hgrow.trans hext).trans (edits_setNode rfl fun _ => rfl)).trans (edits_writeEntry hmapped)

theorem inode_putEntry (hnum : num < 65536) :
    ((s.putEntry d i num name).dirEntry d i).inode = num := by
  refine inode_writeEntry ?_ hnum
  rw [extend]
  split <;> exact mapped_grow_self

/-- The names of the inode that a new entry names, and of the others. -/
theorem names_subset (hs : s.WellFormed) (he : Edits s s' {(d, i)})
    (hinode : (d.1, (s'.dirEntry d i).inode) = id) (f : InodeId) :
    s'.Names f ⊆ if f = id then insert (d, i) (s.Names id) else s.Names f := by
  intro p hp
  by_cases hpi : p = (d, i)
  · obtain ⟨hdev, -, -, hnum, -⟩ := hp
    subst hpi
    have hf : f = id := by
      rw [← hinode]
      exact Prod.ext hdev.symm hnum.symm
    rw [if_pos hf]
    exact Set.mem_insert _ _
  · have hold := (he.mem_names hs fun h => hpi (Set.mem_singleton_iff.mp h)).mp hp
    split
    case isTrue heq =>
      rw [heq] at hold
      exact Set.mem_insert_of_mem _ hold
    case isFalse => exact hold

/-- An entry is added that names an inode in use with a link to spare. -/
theorem WellFormed.named (hs : s.WellFormed) (he : Edits s s' {(d, i)}) (hi : i ≠ 1)
    (hinode : (d.1, (s'.dirEntry d i).inode) = id)
    (hid : (s.node id).isDir = false → (s.Names id).encard + 1 ≤ (s'.node id).nlinks)
    (hlinks : ∀ f, f ≠ id → (s.node f).isDir = false → (s'.node f).nlinks = (s.node f).nlinks)
    (hused : ∀ f, f = id ∨ s.imap f.1 f.2 = true → s'.imap f.1 f.2 = true) : s'.WellFormed := by
  refine hs.edits he (fun d' h => ?_) (fun f hf => ?_) (fun f hf => ?_) fun f hf => ?_
  · exact hi (congrArg Prod.snd (Set.mem_singleton_iff.mp h)).symm
  · have hsub := names_subset hs he hinode f
    split at hsub
    case isTrue heq =>
      subst heq
      exact ((Set.encard_le_encard hsub).trans (Set.encard_insert_le _ _)).trans (hid hf)
    case isFalse hne =>
      rw [hlinks f hne hf]
      exact (Set.encard_le_encard hsub).trans (hs.links f hf)
  · have hsub := names_subset hs he hinode f
    split at hsub
    case isTrue heq => exact hused f (.inl heq)
    case isFalse => exact hused f (.inr (hs.used f (hf.mono hsub)))
  · refine hs.free f (Bool.eq_false_iff.mpr fun h => ?_)
    rw [hused f (.inr h)] at hf
    cases hf

/-- An entry is cleared, and its link is no longer counted. -/
theorem WellFormed.unnamed (hs : s.WellFormed) (he : Edits s s' {(d, i)}) (hi : i ≠ 1)
    (hmem : (d, i) ∈ s.Names id) (hinode : (s'.dirEntry d i).inode = 0)
    (hid : (s'.node id).nlinks + 1 = (s.node id).nlinks)
    (hlinks : ∀ f, f ≠ id → (s'.node f).nlinks = (s.node f).nlinks) (himap : s'.imap = s.imap) :
    s'.WellFormed := by
  have hsub : ∀ f, s'.Names f ⊆ s.Names f \ {(d, i)} := by
    intro f p hp
    have hpi : p ∉ ({(d, i)} : Set _) := by
      intro h
      rw [Set.mem_singleton_iff] at h
      subst h
      obtain ⟨-, -, -, hnum, hne⟩ := hp
      exact hne (hnum.symm.trans hinode)
    exact ⟨(he.mem_names hs hpi).mp hp, hpi⟩
  refine hs.edits he (fun d' h => ?_) (fun f hf => ?_) (fun f hf => ?_) fun f hf => ?_
  · exact hi (congrArg Prod.snd (Set.mem_singleton_iff.mp h)).symm
  · rcases eq_or_ne f id with rfl | hne
    · have hcard := hs.links f hf
      rw [← Set.encard_sdiff_singleton_add_one hmem, ← hid, Nat.cast_add, Nat.cast_one] at hcard
      exact (Set.encard_le_encard (hsub f)).trans
        ((ENat.add_le_add_iff_right ENat.one_ne_top).mp hcard)
    · rw [hlinks f hne]
      exact (Set.encard_le_encard ((hsub f).trans Set.sdiff_subset)).trans (hs.links f hf)
  · rw [himap]
    exact hs.used f (hf.mono ((hsub f).trans Set.sdiff_subset))
  · rw [himap] at hf
    exact hs.free f hf

/-! ### What keeps a file system in order -/

/-- A file system where nothing is named that was not, and the links of an inode are as many as
before, if it has names. -/
theorem WellFormed.unnamed_edits (hs : s.WellFormed) (he : Edits s s' ∅)
    (hlinks : ∀ f, (s.Names f).Nonempty → (s'.node f).nlinks = (s.node f).nlinks)
    (hused : ∀ f, (s.Names f).Nonempty → s'.imap f.1 f.2 = true)
    (hfree : ∀ f, (s.node f).isDir = true → s'.imap f.1 f.2 = true) : s'.WellFormed := by
  refine hs.edits he (fun _ => Set.notMem_empty _) (fun f hf => ?_) (fun f hf => ?_) fun f hf => ?_
  · rw [he.names_eq hs]
    rcases (s.Names f).eq_empty_or_nonempty with hnone | hsome
    · rw [hnone, Set.encard_empty]
      exact zero_le
    · rw [hlinks f hsome]
      exact hs.links f hf
  · rw [he.names_eq hs] at hf
    exact hused f hf
  · refine Bool.eq_false_iff.mpr fun hdir => ?_
    rw [hfree f hdir] at hf
    cases hf

theorem WellFormed.imap_of_isDir (hs : s.WellFormed) (hdir : (s.node f).isDir = true) :
    s.imap f.1 f.2 = true := by
  by_contra himap
  rw [hs.free f (Bool.eq_false_iff.mpr himap)] at hdir
  cases hdir

/-- The file system stays in order, and the files that keep a name are guarded, but for those
of `C`. -/
structure Keeps (s s' : Files) (C : Set InodeId) : Prop where
  wellFormed : s'.WellFormed
  guards : ∀ f, (s.Names f).Nonempty → (s'.Names f).Nonempty → (s.node f).isDir = false →
    f ∈ C ∨ Guards s s' f

variable {C : Set InodeId}

theorem Keeps.refl (hs : s.WellFormed) : Keeps s s C := ⟨hs, fun f _ _ _ => .inr (.refl s f)⟩

theorem Keeps.mono {C' : Set InodeId} (h : Keeps s s' C) (hC : C ⊆ C') : Keeps s s' C' :=
  ⟨h.wellFormed, fun f hf hf' hdir => (h.guards f hf hf' hdir).imp_left fun hc => hC hc⟩

/-- The references of open files and of `pwd` are counted apart. -/
theorem Keeps.held (h : Keeps s s' C) (held : InodeId → ℕ) :
    Keeps s { s' with held := held } C := by
  obtain ⟨hw, hg⟩ := h
  refine ⟨⟨hw.links, hw.used, hw.free, hw.size, hw.dotdot, hw.mounted, hw.imount⟩, ?_⟩
  exact fun f hf hf' hdir => (hg f hf hf' hdir).imp_right fun g =>
    ⟨g.mode, g.uid, g.gid, g.size, g.mtime, g.mapped, g.data⟩

/-- A file that keeps a name has it in between, if one of two steps edits no entries. -/
theorem Keeps.comp (h : Keeps s s' C) (h' : Keeps s' s'' C)
    (hdir : ∀ f, (s'.node f).isDir = (s.node f).isDir)
    (hnames : ∀ f, (s.Names f).Nonempty → (s''.Names f).Nonempty → (s'.Names f).Nonempty) :
    Keeps s s'' C where
  wellFormed := h'.wellFormed
  guards f hf hf' hf'' := by
    have hmid := hnames f hf hf'
    rcases h.guards f hf hmid hf'' with hC | hg
    · exact .inl hC
    · exact (h'.guards f hmid hf' ((hdir f).trans hf'')).imp_right hg.trans

theorem Keeps.trans (h : Keeps s s' C) (he : Edits s s' ∅) (hs : s.WellFormed)
    (h' : Keeps s' s'' C) : Keeps s s'' C :=
  h.comp h' he.isDir fun f hf _ => by rwa [he.names_eq hs]

theorem keeps_setNode (hs : s.WellFormed) {g : Node → Node}
    (hdir : (g (s.node id)).isDir = (s.node id).isDir)
    (hsize : (s.node id).isDir = true → (g (s.node id)).size = (s.node id).size)
    (hlinks : (g (s.node id)).nlinks = (s.node id).nlinks)
    (hC : id ∈ C ∨ Guards s (s.setNode id g) id) : Keeps s (s.setNode id g) C where
  wellFormed := by
    refine hs.unnamed_edits (edits_setNode hdir hsize) (fun f _ => ?_) hs.used
      fun f => hs.imap_of_isDir
    rcases eq_or_ne f id with rfl | hne
    · rw [node_setNode_self, hlinks]
    · rw [node_setNode_of_ne hne]
  guards f _ _ _ := by
    rcases eq_or_ne f id with rfl | hne
    · exact hC
    · exact .inr (guards_setNode_of_ne hne)

theorem guards_touch (id f : InodeId) : Guards s (s.touch id) f := by
  refine guards_setNode ?_ ?_ ?_ ?_ ?_ f <;> exact fun _ => rfl

theorem keeps_touch (hs : s.WellFormed) (id : InodeId) : Keeps s (s.touch id) C :=
  keeps_setNode hs rfl (fun _ => rfl) rfl (.inr (guards_touch id id))

theorem edits_touch (id : InodeId) : Edits s (s.touch id) ∅ := edits_setNode rfl fun _ => rfl

theorem nlinks_truncate : ((s.truncate id).node f).nlinks = (s.node f).nlinks := by
  rcases eq_or_ne f id with rfl | hne
  · rw [truncate]
    split
    case isTrue => simp [setNode]
    case isFalse => rfl
  · rw [node_truncate_of_ne hne]

theorem keeps_truncate (hs : s.WellFormed) (hdir : (s.node id).isDir = false) (hC : id ∈ C) :
    Keeps s (s.truncate id) C where
  wellFormed := by
    refine hs.unnamed_edits (edits_truncate hdir) (fun f _ => nlinks_truncate) ?_ ?_
    · rw [imap_truncate]
      exact hs.used
    · rw [imap_truncate]
      exact fun f => hs.imap_of_isDir
  guards f _ _ _ := by
    rcases eq_or_ne f id with rfl | hne
    · exact .inl hC
    · exact .inr (guards_truncate hne)

/-- An inode without names is freed. -/
theorem keeps_freeInode (hs : s.WellFormed) (hdir : (s.node id).isDir = false)
    (hnone : s.Names id = ∅) : Keeps s (s.freeInode id) C := by
  have hne : ∀ f, (s.Names f).Nonempty → f ≠ id := by
    rintro f hf rfl
    rw [hnone] at hf
    exact Set.not_nonempty_empty hf
  refine ⟨hs.unnamed_edits (edits_freeInode hdir) (fun f hf => ?_) (fun f hf => ?_) fun f hf => ?_,
    fun f hf _ _ => .inr (guards_freeInode (hne f hf))⟩
  · rw [node_freeInode_of_ne (hne f hf)]
  · rw [imap_freeInode, if_neg (hne f hf)]
    exact hs.used f hf
  · rw [imap_freeInode, if_neg]
    · exact hs.imap_of_isDir hf
    · rintro rfl
      rw [hdir] at hf
      cases hf

theorem newInode_spec {dev : ℕ} (h : s.newInode dev = some num) :
    s.imap dev num = false ∧ num < 65536 := by
  rw [newInode] at h
  split at h
  case isTrue hlt =>
    cases h
    exact ⟨(Zones.findFirstZero_spec (s.imap dev) (8 * bitsPerBlock) 0).2
      (hlt.1.trans_eq (Nat.zero_add _).symm), hlt.1⟩
  case isFalse => cases h

theorem addEntry_spec (h : s.addEntry d name num = .ok (some s')) :
    ∃ i, s.addIndex d = .ok (some i) ∧ s' = s.putEntry d i num name := by
  rw [addEntry] at h
  cases hadd : s.addIndex d with
  | error c =>
    rw [hadd] at h
    cases h
  | ok r =>
    rw [hadd] at h
    cases r with
    | none => cases h
    | some i =>
      cases h
      exact ⟨i, rfl, rfl⟩

/-- The entry that `add_entry` takes is not `..`. -/
theorem addIndex_ne (hs : s.WellFormed) (hdir : (s.node d).isDir = true)
    (hadd : s.addIndex d = .ok (some i)) : i ≠ 1 := by
  obtain ⟨⟨hm, -⟩, -, hfree⟩ := addIndex_spec (hs.size d hdir) hadd
  obtain ⟨hsize, hdots⟩ := hs.dotdot d hdir
  rintro rfl
  exact (hdots hm).1 (hfree hsize)

theorem edits_add (hs : s.WellFormed) (hdir : (s.node d).isDir = true)
    (hadd : s.addIndex d = .ok (some i)) : Edits s (s.putEntry d i num name) {(d, i)} := by
  obtain ⟨⟨hm, -⟩, hsize, -⟩ := addIndex_spec (hs.size d hdir) hadd
  exact edits_putEntry hm hsize

theorem SameBut.guards (h : SameBut s s' d) (hne : f ≠ d) : Guards s s' f :=
  .of_eq (h.node f hne) (h.mapped f hne) (h.data f hne)

theorem ne_of_isDir (hdir : (s.node d).isDir = true) (hf : (s.node f).isDir = false) : f ≠ d := by
  rintro rfl
  rw [hdir] at hf
  cases hf

/-- The last reference to another inode than that of a directory is put: if it is freed, it
had no names. -/
theorem keeps_put (hs : s.WellFormed) (hdir : (s.node id).isDir = false) :
    Keeps s (s.put id) C := by
  rw [put]
  split
  case isFalse => exact .refl hs
  case isTrue hlast =>
    have hnone : s.Names id = ∅ := by
      have hlinks := hs.links id hdir
      rwa [hlast.2, Nat.cast_zero, nonpos_iff_eq_zero, Set.encard_eq_zero] at hlinks
    have htrunc : Edits s (s.truncate id) ∅ := edits_truncate hdir
    have hkeeps : Keeps s (s.truncate id) {id} := keeps_truncate hs hdir rfl
    have hfree : Keeps (s.truncate id) ((s.truncate id).freeInode id) {id} :=
      keeps_freeInode hkeeps.wellFormed ((htrunc.isDir id).trans hdir) (by rwa [htrunc.names_eq hs])
    refine ⟨hfree.wellFormed, fun f hf hf' hf'' => ?_⟩
    refine .inr (((hkeeps.trans htrunc hs hfree).guards f hf hf' hf'').resolve_left ?_)
    rintro rfl
    rw [hnone] at hf
    exact Set.not_nonempty_empty hf

theorem edits_put (hdir : (s.node id).isDir = false) : Edits s (s.put id) ∅ := by
  rw [put]
  split
  case isFalse => exact .refl s ∅
  case isTrue =>
    have htrunc : Edits s (s.truncate id) ∅ := edits_truncate hdir
    exact htrunc.trans (edits_freeInode ((htrunc.isDir id).trans hdir))

/-- A step after which an inode is put. -/
theorem Keeps.put (h : Keeps s s' C) (hdirs : ∀ f, (s'.node f).isDir = (s.node f).isDir)
    (hdir : (s'.node id).isDir = false) : Keeps s (s'.put id) C := by
  refine h.comp (keeps_put h.wellFormed hdir) hdirs fun f _ hf => ?_
  rwa [(edits_put hdir).names_eq h.wellFormed] at hf

theorem dirEntry_inode_lt (s : Files) (d : InodeId) (i : ℕ) : (s.dirEntry d i).inode < 65536 := by
  have hlo := (s.byte d (16 * i)).toNat_lt
  have hhi := (s.byte d (16 * i + 1)).toNat_lt
  rw [dirEntry]
  dsimp only
  omega

/-- A file gets another name, and `i_nlinks` does not wrap. -/
theorem keeps_link (hs : s.WellFormed) (hd : (s.node d).isDir = true)
    (hadd : s.addIndex d = .ok (some i)) (hid : (s.node id).isDir = false) (hdev : d.1 = id.1)
    (hname : (s.Names id).Nonempty) (hlinks : (s.node id).nlinks < 255) (now : ℕ) :
    Keeps s (((s.putEntry d i id.2 name).setNode id fun n =>
      { n with nlinks := (n.nlinks + 1) % 256, ctime := now }).put id) C := by
  have hsame : SameBut s (s.putEntry d i id.2 name) d := sameBut_putEntry
  have he : Edits s ((s.putEntry d i id.2 name).setNode id fun n =>
      { n with nlinks := (n.nlinks + 1) % 256, ctime := now }) {(d, i)} :=
    (edits_add hs hd hadd).trans (edits_setNode rfl fun _ => rfl)
  have hnum : id.2 < 65536 := by
    obtain ⟨p, -, -, -, hp, -⟩ := hname
    rw [← hp]
    exact dirEntry_inode_lt s p.1 p.2
  refine Keeps.put ⟨?_, fun f _ _ hf => .inr ?_⟩ he.isDir ((he.isDir id).trans hid)
  · have hinode : (d.1, ((s.putEntry d i id.2 name).dirEntry d i).inode) = id := by
      rw [inode_putEntry hnum, hdev]
    refine hs.named he (addIndex_ne hs hd hadd) hinode (fun _ => ?_) (fun f hne hf => ?_)
      fun f hf => ?_
    · rw [node_setNode_self, hsame.node id (ne_of_isDir hd hid)]
      dsimp only
      rw [Nat.mod_eq_of_lt (by omega), Nat.cast_add, Nat.cast_one]
      exact add_le_add_left (hs.links id hid) 1
    · rw [node_setNode_of_ne hne, hsame.node f (ne_of_isDir hd hf)]
    · refine (congrFun (congrFun hsame.imap f.1) f.2).trans ?_
      rcases hf with rfl | hf
      · exact hs.used f hname
      · exact hf
  · refine (hsame.guards (ne_of_isDir hd hf)).trans (guards_setNode ?_ ?_ ?_ ?_ ?_ f) <;>
      exact fun _ => rfl

/-- A file loses the name of an entry. -/
theorem keeps_unlink (hs : s.WellFormed) (hid : (s.node id).isDir = false)
    (hmem : (d, i) ∈ s.Names id) (hm : s.mapped d (i / 64) = true) (now : ℕ) :
    Keeps s (((s.clearEntry d i).setNode id fun n =>
      { n with nlinks := (if n.nlinks = 0 then 1 else n.nlinks) - 1, ctime := now }).put id) C := by
  have he : Edits s ((s.clearEntry d i).setNode id fun n =>
      { n with nlinks := (if n.nlinks = 0 then 1 else n.nlinks) - 1, ctime := now }) {(d, i)} :=
    edits_clearEntry.trans (edits_setNode rfl fun _ => rfl)
  have hd : (s.node d).isDir = true := hmem.2.1
  have hi : i ≠ 1 := by
    rintro rfl
    obtain ⟨hdev, -, -, hnum, -⟩ := hmem
    have hdots := ((hs.dotdot d hd).2 hm).2.2
    rw [show (d.1, (s.dirEntry d 1).inode) = id from Prod.ext hdev hnum, hid] at hdots
    cases hdots
  have hpos : (s.node id).nlinks ≠ 0 := by
    intro hzero
    have hlinks := hs.links id hid
    rw [hzero, Nat.cast_zero, nonpos_iff_eq_zero, Set.encard_eq_zero] at hlinks
    rw [hlinks] at hmem
    exact Set.notMem_empty _ hmem
  refine Keeps.put ⟨?_, fun f _ _ hf => .inr ?_⟩ he.isDir ((he.isDir id).trans hid)
  · refine hs.unnamed he hi hmem ?_ ?_ (fun f hne => ?_) rfl
    · exact (inode_clearEntry : ((s.clearEntry d i).dirEntry d i).inode = 0)
    · rw [node_setNode_self]
      dsimp only
      rw [show (s.clearEntry d i).node id = s.node id from rfl, if_neg hpos]
      omega
    · rw [node_setNode_of_ne hne]
      rfl
  · have hclear : Guards s (s.clearEntry d i) f :=
      .of_eq rfl rfl (Function.update_of_ne (ne_of_isDir hd hf) _ _)
    refine hclear.trans (guards_setNode ?_ ?_ ?_ ?_ ?_ f) <;> exact fun _ => rfl

/-! ### What a path leads to -/

variable {cur : Current}

/-- In the first block of a directory, `..` is found. -/
theorem scan_dots (hs : s.WellFormed) (hdir : (s.node d).isDir = true)
    (hm : s.mapped d 0 = true) (hr : s.readable d 0 = true) {entries : ℕ} (he : 2 ≤ entries) :
    ∃ j, j ≤ 1 ∧ (List.range' 0 entries).find? (s.disks.stops d ['.', '.']) = some j := by
  have hstop : s.disks.stops d ['.', '.'] 1 = true := by
    obtain ⟨hne, hname, -⟩ := (hs.dotdot d hdir).2 hm
    rw [Disks.stops, show 1 / dirEntriesPerBlock = 0 from rfl, dirBuf_eq, if_pos ⟨hm, hr⟩]
    dsimp only
    rw [entry_eq, nameMatches]
    simpa using ⟨hne, hname.symm⟩
  cases hj : (List.range' 0 entries).find? (s.disks.stops d ['.', '.']) with
  | none =>
    have h1 := List.find?_eq_none.mp hj 1 (by rw [List.mem_range'_1]; omega)
    exact absurd hstop h1
  | some j =>
    obtain ⟨-, -, hbefore⟩ := List.find?_range'_eq_some.mp hj
    refine ⟨j, ?_, rfl⟩
    by_contra hlt
    have h1 := hbefore 1 (Nat.zero_le _) (by omega)
    rw [hstop] at h1
    cases h1

/-- `find_entry` looks through the directory, or through the one that its device is mounted
on. -/
theorem exchange_cases (fs : Disks) (cur : Current) (d : InodeId) (name : Name) :
    (fs.exchange cur d name).1 = d ∨
    ∃ m, fs.imount d.1 = some m ∧ fs.exchange cur d name = (m, ['.', '.']) := by
  rw [Disks.exchange]
  split_ifs with hname hroot hnum
  · exact .inl rfl
  · split
    case h_1 => exact .inl rfl
    case h_2 m hm => exact .inr ⟨m, hm, by rw [hname]⟩
  · exact .inl rfl
  · exact .inl rfl

/-- `find_entry` reads the first block first. -/
theorem first_of_find {r : InodeId × Option ((ℕ × ℕ) × DirEntry)}
    (h : s.disks.find cur d name = .ok r) : r.2 = none ∨
      (s.mapped (s.disks.exchange cur d name).1 0 = true ∧
        s.readable (s.disks.exchange cur d name).1 0 = true) := by
  rw [Disks.find] at h
  split at h
  case h_1 => exact .inl (by cases h; rfl)
  case h_2 hb =>
    rw [dirBuf_eq] at hb
    split at hb
    case isTrue hm => exact .inr hm
    case isFalse => cases hb

/-- What `find_entry` finds is a name. -/
theorem find_named (hs : s.WellFormed) (hdir : (s.node d).isDir = true) {d' : InodeId} {b : ℕ × ℕ}
    {de : DirEntry} (h : s.disks.find cur d name = .ok (d', some (b, de))) :
    (s.node d').isDir = true ∧ ∃ i, FileTask.findIndex s.disks cur d name = some i ∧
      (d', i) ∈ s.Names (d'.1, de.inode) ∧ s.mapped d' (i / 64) = true := by
  obtain ⟨hd', i, hi, hindex, hde, hm, hmatch⟩ := find_spec h
  have hne : de.inode ≠ 0 := by
    rw [nameMatches, Bool.and_eq_true, bne_iff_ne] at hmatch
    exact hmatch.1
  rcases exchange_cases s.disks cur d name with hex | ⟨m, hmount, hex⟩
  · rw [hex] at hd'
    subst hd'
    exact ⟨hdir, i, hindex, ⟨rfl, hdir, hi, congrArg DirEntry.inode hde.symm, hne⟩, hm⟩
  · rw [hex] at hd'
    subst hd'
    have hmdir := hs.imount _ _ hmount
    refine ⟨hmdir, i, hindex, ⟨rfl, hmdir, ?_, congrArg DirEntry.inode hde.symm, hne⟩, hm⟩
    -- the entries are counted in the other directory, but `..` is one of the first two
    obtain ⟨hm₀, hr₀⟩ := (first_of_find h).resolve_left (Option.some_ne_none _)
    rw [hex] at hm₀ hr₀
    obtain ⟨j, hj, hfirst⟩ := scan_dots hs hmdir hm₀ hr₀ (hs.dotdot d hdir).1
    rw [FileTask.findIndex, hex] at hindex
    obtain rfl := Option.some.inj (hfirst.symm.trans hindex)
    exact lt_of_le_of_lt hj (hs.dotdot _ hmdir).1

/-- The directory that `find_entry` looks through. -/
theorem dir_of_find {fs : Disks} {r : InodeId × Option ((ℕ × ℕ) × DirEntry)}
    (h : fs.find cur d name = .ok r) : r.1 = (fs.exchange cur d name).1 := by
  rw [Disks.find] at h
  split at h
  case h_1 => exact (congrArg Prod.fst (Except.ok.inj h)).symm
  case h_2 =>
    cases hscan : fs.scanFrom (fs.exchange cur d name).1 (fs.exchange cur d name).2
        (fs.entries d) 0 with
    | error c =>
      rw [hscan] at h
      cases h
    | ok found =>
      rw [hscan] at h
      exact (congrArg Prod.fst (Except.ok.inj h)).symm

theorem exchange_isDir (hs : s.WellFormed) (hdir : (s.node d).isDir = true) (cur : Current)
    (name : Name) : (s.node (s.disks.exchange cur d name).1).isDir = true := by
  rcases exchange_cases s.disks cur d name with hex | ⟨m, hmount, hex⟩
  · rwa [hex]
  · rw [hex]
    exact hs.imount _ _ hmount

theorem find_isDir (hs : s.WellFormed) (hdir : (s.node d).isDir = true)
    {r : InodeId × Option ((ℕ × ℕ) × DirEntry)} (h : s.disks.find cur d name = .ok r) :
    (s.node r.1).isDir = true := by
  rw [dir_of_find h]
  exact exchange_isDir hs hdir cur name

/-- `add_entry` adds no entry to a directory that `find_entry` has exchanged for another. -/
theorem find_none (hs : s.WellFormed) (hdir : (s.node d).isDir = true) {d' : InodeId}
    (h : s.disks.find cur d name = .ok (d', none))
    (hfirst : s.mapped d' 0 = true ∧ s.readable d' 0 = true) : d' = d := by
  have hd' := dir_of_find h
  rcases exchange_cases s.disks cur d name with hex | ⟨m, hmount, hex⟩
  · exact hd'.trans hex
  · -- `..` is in the other directory
    rw [hex] at hd'
    subst hd'
    obtain ⟨j, hj, hscan⟩ := scan_dots hs (hs.imount _ _ hmount) hfirst.1 hfirst.2
      (hs.dotdot d hdir).1
    have hblock : j / dirEntriesPerBlock = 0 := by
      simp only [dirEntriesPerBlock]
      omega
    rw [Disks.find, hex] at h
    dsimp only at h
    rw [dirBuf_eq, if_pos hfirst] at h
    dsimp only at h
    rw [Disks.scanFrom, Nat.sub_zero, show s.disks.entries d = (s.node d).size / 16 from rfl,
      hscan] at h
    dsimp only at h
    rw [hblock, dirBuf_eq, if_pos hfirst] at h
    cases h

/-- A directory, or what an entry names. -/
def Found (s : Files) (x : InodeId) : Prop := (s.node x).isDir = true ∨ (s.Names x).Nonempty

/-- What `iget` makes of a name: a directory that is mounted on, or what it names. -/
theorem igets_cases (hs : s.WellFormed) {x : InodeId} (h : s.disks.igets id = .ok x) :
    (s.node x).isDir = true ∨ x = id := by
  rw [Disks.igets] at h
  split at h
  case isTrue => cases h
  case isFalse =>
    cases h
    rw [Disks.mounted]
    split
    case h_1 => exact .inr rfl
    case h_2 dev hm => exact .inl (hs.mounted id dev hm)

theorem found_igets (hs : s.WellFormed) {x : InodeId} (hn : (s.Names id).Nonempty)
    (h : s.disks.igets id = .ok x) : s.Found x := by
  rcases igets_cases hs h with hdir | rfl
  · exact .inl hdir
  · exact .inr hn

variable {follow : InodeId → InodeId → Except Crash (Option InodeId)}

/-- A path ends in a directory before its last name. -/
theorem walk_isDir {fs : Disks} {names : List Name} (hne : names ≠ []) {x : InodeId}
    (h : fs.walk cur follow names d = .ok (some x)) : (fs.inode x).isDir = true := by
  induction names generalizing d with
  | nil => exact absurd rfl hne
  | cons name names ih =>
    rw [Disks.walk] at h
    split at h
    case isFalse => cases h
    case isTrue hsearch =>
      split at h
      case isTrue =>
        cases h
        exact Disks.isDir_of_searchable hsearch
      case isFalse hnames =>
        obtain ⟨⟨d', found⟩, -, h⟩ := Except.ok_of_bind h
        cases found with
        | none => cases h
        | some found =>
          obtain ⟨y, -, h⟩ := Except.ok_of_bind h
          obtain ⟨z, -, h⟩ := Except.ok_of_bind h
          cases z with
          | none => cases h
          | some z => exact ih hnames h

theorem walkFrom_isDir {fs : Disks} {path : List Char} {base : Option InodeId} {x : InodeId}
    (h : fs.walkFrom cur follow path base = .ok (some x)) : (fs.inode x).isDir = true := by
  refine walk_isDir ?_ h
  rw [Disks.startOf]
  split
  case isTrue => exact Disks.components_ne_nil _
  case isFalse => exact Disks.components_ne_nil _

/-- What a path leads to, if links lead to nothing else. -/
theorem resolve_found (hs : s.WellFormed) {path : List Char} {base : Option InodeId}
    {followLinks : Bool} {x : InodeId} (hfollow : ∀ d y z, (s.node d).isDir = true → s.Found y →
      follow d y = .ok (some z) → s.Found z)
    (h : s.disks.resolve cur follow path base followLinks = .ok (some x)) : s.Found x := by
  rw [Disks.resolve] at h
  obtain ⟨dir, hw, h⟩ := Except.ok_of_bind h
  cases dir with
  | none => cases h
  | some dir =>
    have hdir : (s.node dir).isDir = true := walkFrom_isDir hw
    dsimp only at h
    split at h
    case isTrue =>
      cases h
      exact .inl hdir
    case isFalse =>
      obtain ⟨⟨d', found⟩, hf, h⟩ := Except.ok_of_bind h
      cases found with
      | none => cases h
      | some found =>
        obtain ⟨b, de⟩ := found
        obtain ⟨hd', i, -, hmem, -⟩ := find_named hs hdir hf
        obtain ⟨y, hget, h⟩ := Except.ok_of_bind h
        have hy := found_igets hs ⟨_, hmem⟩ hget
        obtain ⟨z, hz, h⟩ := Except.ok_of_bind h
        cases z with
        | none => cases h
        | some z =>
          cases h
          cases followLinks with
          | false =>
            cases hz
            exact hy
          | true => exact hfollow d' y x hd' hy hz

theorem follow_found (hs : s.WellFormed) {y z : InodeId} (hy : s.Found y)
    (h : s.disks.follow cur d y = .ok (some z)) : s.Found z := by
  rw [Disks.follow] at h
  split at h
  case isTrue =>
    split at h
    case h_1 => cases h
    case h_2 b hb =>
      refine resolve_found hs (fun d' y' z' _ hy' hz' => ?_) h
      rw [Disks.followKernel] at hz'
      split at hz'
      case isTrue => cases hz'
      case isFalse =>
        cases hz'
        exact hy'
  case isFalse =>
    cases h
    exact hy

end Files

namespace FileTask

open Files

variable {s s' : FileTask} {id f : InodeId}

/-- The process owns the file, or may write it. -/
def MayChange (s : FileTask) (f : InodeId) : Prop :=
  s.cur.euid = (s.fs.node f).uid ∨ s.permission f MAY_WRITE = true

/-- What the process may do anything to: regular files that it owns or may write. -/
def Changeable (s : FileTask) : Set InodeId := {f | isReg (s.fs.node f) = true → s.MayChange f}

/-- A process that may do all of `mask` may do a part of it. -/
theorem permission_bit {mask j : ℕ} (hsuser : s.cur.suser = false)
    (h : s.permission f mask = true) (hmask : mask.testBit j = true) :
    s.permission f (2 ^ j) = true := by
  rw [permission, Current.permission] at h ⊢
  split at h
  case isTrue => cases h
  case isFalse hlinks =>
    rw [if_neg hlinks]
    dsimp only at h ⊢
    rw [hsuser, Bool.or_false, beq_iff_eq] at h ⊢
    rw [← h, Nat.testBit_and, Nat.testBit_and, Bool.and_eq_true, Bool.and_eq_true] at hmask
    refine Nat.eq_of_testBit_eq fun i => ?_
    rw [Nat.testBit_and, Nat.testBit_and]
    rcases eq_or_ne i j with rfl | hij
    · rw [hmask.1.1, hmask.2, Nat.testBit_two_pow_self]
      rfl
    · rw [Nat.testBit_two_pow_of_ne hij.symm, Bool.and_false, Bool.false_and]

/-- `O_TRUNC` asks for the permission to write. -/
theorem accMode_of_trunc {flag : ℕ} (h : wantsTrunc (openFlag flag) = true) :
    accMode (openFlag flag) ≠ 0 := by
  rw [openFlag] at h ⊢
  split
  case isTrue =>
    rw [accMode, Nat.and_or_distrib_right]
    exact fun h => absurd (Nat.or_eq_zero_iff.mp h).2 (by decide)
  case isFalse hacc =>
    rw [if_neg hacc] at h
    exact fun h' => hacc ⟨h, h'⟩

theorem testBit_permissionMask {flag : ℕ} (h : accMode flag ≠ 0) :
    (permissionMask flag).testBit 1 = true := by
  have hlt : accMode flag < 4 := Nat.and_lt_two_pow flag (show 3 < 2 ^ 2 by decide)
  rw [permissionMask]
  split
  case h_1 h0 => exact absurd h0 h
  case h_2 => rfl
  case h_3 => rfl
  case h_4 => rfl

/-! ### Opening -/

theorem isDir_createMode (mode : ℕ) :
    DInode.isDir ⟨s.createMode mode, s.cur.euid, s.cur.egid, 1, 0⟩ = false := by
  rw [DInode.isDir, beq_eq_false_iff_ne]
  intro h
  have hbit := congrArg (fun n => n.testBit 15) h
  rw [createMode, Nat.testBit_and, Nat.testBit_or, show Nat.testBit 0o100000 15 = true from rfl,
    Bool.true_or] at hbit
  exact absurd hbit (by decide)

/-- A new inode has no names yet. -/
theorem freshNode_spec (hs : s.fs.WellFormed) {num dev : ℕ} (hnew : s.fs.imap dev num = false)
    (mode : ℕ) : Keeps s.fs (s.freshNode num dev mode) ∅ ∧
      Edits s.fs (s.freshNode num dev mode) ∅ ∧ s.fs.Names (dev, num) = ∅ := by
  have hdir : (s.fs.node (dev, num)).isDir = false := hs.free (dev, num) hnew
  have hnone : s.fs.Names (dev, num) = ∅ := by
    by_contra hsome
    rw [hs.used (dev, num) (Set.nonempty_iff_ne_empty.mpr hsome)] at hnew
    cases hnew
  have hunmap : Edits s.fs
      { s.fs.setNode (dev, num) fun _ =>
          ⟨⟨s.createMode mode, s.cur.euid, s.cur.egid, 1, 0⟩, 0, s.fs.now, s.fs.now, s.fs.now⟩ with
        mapped := update s.fs.mapped (dev, num) fun _ => false } ∅ := by
    refine Edits.unmap (edits_setNode ?_ fun h => ?_) fun d hd => ?_
    · rw [hdir]
      exact isDir_createMode mode
    · rw [hdir] at h
      cases h
    · refine Function.update_of_ne ?_ _ _
      rintro rfl
      rw [hdir] at hd
      cases hd
  have hedits : Edits s.fs (s.freshNode num dev mode) ∅ := { hunmap with }
  have hne : ∀ f, (s.fs.Names f).Nonempty → f ≠ (dev, num) := by
    rintro f hf rfl
    rw [hnone] at hf
    exact Set.not_nonempty_empty hf
  have hnode : ∀ f, (s.fs.Names f).Nonempty →
      (s.freshNode num dev mode).node f = s.fs.node f := fun f hf =>
    Function.update_of_ne (hne f hf) _ _
  have himap : ∀ f : InodeId, s.fs.imap f.1 f.2 = true →
      (s.freshNode num dev mode).imap f.1 f.2 = true := by
    intro f hf
    refine (update_imap (dev, num) f).trans ?_
    split
    case isTrue => rfl
    case isFalse => exact hf
  refine ⟨⟨hs.unnamed_edits hedits (fun f hf => ?_) (fun f hf => himap f (hs.used f hf))
    fun f hf => himap f (hs.imap_of_isDir hf), fun f hf _ _ => .inr ?_⟩, hedits, hnone⟩
  · rw [hnode f hf]
  · exact .of_eq (hnode f hf) (Function.update_of_ne (hne f hf) _ _) rfl

/-- A file is created. -/
theorem keeps_openCreate (hs : s.fs.WellFormed) {dir : InodeId}
    (hdir : (s.fs.node dir).isDir = true) (name : Name) (flag mode : ℕ) :
    Keeps s.fs (s.openCreate dir name flag mode).1 ∅ := by
  rw [openCreate]
  split_ifs
  case pos => exact .refl hs
  case pos => exact .refl hs
  split
  case h_1 => exact .refl hs
  case h_2 num hnew =>
    have hfree := newInode_spec hnew
    obtain ⟨hfresh, hedits, hnone⟩ := freshNode_spec hs hfree.1 mode
    have hfreshDir : ((s.freshNode num dir.1 mode).node (dir.1, num)).isDir = false := by
      rw [hedits.isDir]
      exact hs.free (dir.1, num) hfree.1
    have hdir' := (hedits.isDir dir).trans hdir
    split
    case h_1 => exact .refl hs
    case h_2 =>
      refine hfresh.trans hedits hs (keeps_freeInode hfresh.wellFormed hfreshDir ?_)
      rwa [hedits.names_eq hs]
    case h_3 fs hadd =>
      obtain ⟨i, hi, rfl⟩ : ∃ i, (s.freshNode num dir.1 mode).addIndex dir = .ok (some i) ∧
          fs = (s.freshNode num dir.1 mode).putEntry dir i num name := addEntry_spec hadd
      have hsame : SameBut (s.freshNode num dir.1 mode)
          ((s.freshNode num dir.1 mode).putEntry dir i num name) dir := sameBut_putEntry
      refine hfresh.trans hedits hs
        ⟨?_, fun f _ _ hf => .inr (hsame.guards (ne_of_isDir hdir' hf))⟩
      have hinode : (dir.1, (((s.freshNode num dir.1 mode).putEntry dir i num name).dirEntry
          dir i).inode) = (dir.1, num) := by
        rw [inode_putEntry hfree.2]
      refine hfresh.wellFormed.named (edits_add hfresh.wellFormed hdir' hi)
        (addIndex_ne hfresh.wellFormed hdir' hi) hinode (fun _ => ?_) (fun f _ hf => ?_)
        fun f hf => ?_
      · have hlinks : ((s.freshNode num dir.1 mode).node (dir.1, num)).nlinks = 1 := by
          rw [freshNode]
          simp [setNode]
        rw [hedits.names_eq hs, hnone, Set.encard_empty, zero_add,
          hsame.node _ (ne_of_isDir hdir' hfreshDir), hlinks, Nat.cast_one]
      · rw [hsame.node f (ne_of_isDir hdir' hf)]
      · rw [hsame.imap]
        rcases hf with rfl | hf
        · exact (update_imap (dir.1, num) (dir.1, num)).trans (if_pos rfl)
        · exact hf

/-- A file is opened, and emptied for `O_TRUNC`. -/
theorem keeps_openFound (hs : s.fs.WellFormed) (hsuser : s.cur.suser = false) (dir : InodeId)
    (de : DirEntry) {flag : ℕ} (htrunc : wantsTrunc flag = true → accMode flag ≠ 0) :
    Keeps s.fs (s.openFound dir de flag).1 s.Changeable := by
  rw [openFound]
  split
  case isTrue => exact .refl hs
  split
  case h_1 => exact .refl hs
  case h_2 => exact .refl hs
  case h_3 id hid =>
    have htouch : Keeps s.fs (s.fs.touch id) s.Changeable := keeps_touch hs id
    split
    case isTrue => exact .refl hs
    case isFalse hallowed =>
      obtain ⟨hdir, hperm⟩ := not_or.mp hallowed
      dsimp only
      split
      case isFalse => exact htouch
      case isTrue ht =>
        have hnotdir : (s.fs.node id).isDir = false :=
          Bool.eq_false_iff.mpr fun hd => hdir ⟨hd, htrunc ht⟩
        have hwrite : id ∈ s.Changeable := fun _ => .inr (permission_bit hsuser (by simpa using hperm)
          (testBit_permissionMask (htrunc ht)))
        refine htouch.trans (edits_touch id) hs (keeps_truncate htouch.wellFormed ?_ hwrite)
        exact ((edits_touch id).isDir id).trans hnotdir

theorem keeps_openNamei (hs : s.fs.WellFormed) (hsuser : s.cur.suser = false) (path : List Char)
    (flag mode : ℕ) : Keeps s.fs (s.openNamei path flag mode).1 s.Changeable := by
  rw [openNamei]
  split
  case h_1 => exact .refl hs
  case h_2 => exact .refl hs
  case h_3 dir hwalk =>
    split
    case isTrue => split <;> exact .refl hs
    have hdir : (s.fs.node dir).isDir = true := walkFrom_isDir hwalk
    split
    case h_1 => exact .refl hs
    case h_2 dir' hfind =>
      exact (keeps_openCreate hs (find_isDir hs hdir hfind) _ _ mode).mono (Set.empty_subset _)
    case h_3 dir' b de hfind => exact keeps_openFound hs hsuser dir' de accMode_of_trunc

/-! ### The calls -/

/-- A step that changes the data of no file that the process may not change. -/
structure Lawful (s s' : FileTask) : Prop where
  suser : s'.cur.suser = s.cur.suser
  keeps : Keeps s.fs s'.fs s.Changeable

theorem Lawful.refl (hs : s.fs.WellFormed) : Lawful s s := ⟨rfl, .refl hs⟩

/-- A file system but for the times of inodes. -/
structure Touched (s s' : FileTask) : Prop where
  cur : s'.cur = s.cur
  inode : ∀ f, (s'.fs.node f).toDInode = (s.fs.node f).toDInode
  keeps : Keeps s.fs s'.fs ∅
  edits : Edits s.fs s'.fs ∅

theorem Touched.refl (hs : s.fs.WellFormed) : Touched s s :=
  ⟨rfl, fun _ => rfl, .refl hs, .refl s.fs ∅⟩

theorem touched_touch (hs : s.fs.WellFormed) (id : InodeId) :
    Touched s { s with fs := s.fs.touch id } := by
  refine ⟨rfl, fun f => ?_, keeps_touch hs id, edits_touch id⟩
  dsimp only
  rw [Files.touch]
  rcases eq_or_ne f id with rfl | hne
  · rw [node_setNode_self]
  · rw [node_setNode_of_ne hne]

theorem Touched.mayChange (h : Touched s s') : s'.MayChange f ↔ s.MayChange f := by
  rw [MayChange, MayChange, permission, permission, h.cur, h.inode]

theorem Touched.lawful {s'' : FileTask} (h : Touched s s') (hs : s.fs.WellFormed)
    (h' : Lawful s' s'') : Lawful s s'' where
  suser := h'.suser.trans (by rw [h.cur])
  keeps := by
    refine (h.keeps.mono (Set.empty_subset _)).trans h.edits hs (h'.keeps.mono fun f hf hreg => ?_)
    refine h.mayChange.mp (hf ?_)
    rw [isReg, h.inode]
    exact hreg

/-- A call that looks up a path sets the time of the inode that it finds. -/
theorem lawful_withInode (hs : s.fs.WellFormed) {path : List Char} {follow : Bool} {e : ℕ}
    {k : FileTask → InodeId → FileTask × Answer}
    (hk : ∀ id s₁, s.lookup path follow = .ok (some id) → Touched s s₁ →
      Lawful s₁ (k s₁ id).1) : Lawful s (s.withInode path follow e k).1 := by
  rw [withInode]
  split
  case h_1 => exact .refl hs
  case h_2 => exact .refl hs
  case h_3 id hid =>
    split
    case isTrue => exact hk id s hid (.refl hs)
    case isFalse =>
      have htouch := touched_touch hs id
      exact htouch.lawful hs (hk id _ hid htouch)

theorem lookup_found (hs : s.fs.WellFormed) {path : List Char} {follow : Bool}
    (h : s.lookup path follow = .ok (some id)) : s.fs.Found id :=
  resolve_found hs (fun _ _ _ _ hy hz => follow_found hs hy hz) h

theorem lawful_sysOpen (hs : s.fs.WellFormed) (hsuser : s.cur.suser = false) (path : List Char)
    (flag mode : ℕ) : Lawful s (s.sysOpen path flag mode).1 := by
  have hopen := keeps_openNamei hs hsuser path flag mode
  rw [sysOpen]
  split
  case h_1 => exact .refl hs
  case h_2 fd _ =>
    split
    case isTrue => exact .refl hs
    case isFalse =>
      split
      case h_1 fs c heq =>
        rw [heq] at hopen
        exact ⟨rfl, hopen⟩
      case h_2 fs e heq =>
        rw [heq] at hopen
        exact ⟨rfl, hopen⟩
      case h_3 fs id heq =>
        rw [heq] at hopen
        exact ⟨rfl, hopen.held _⟩

theorem lawful_sysRead (hs : s.fs.WellFormed) (devices : Devices) (fd : ℕ)
    (count : ℤ) : Lawful s (s.sysRead devices fd count).1 := by
  rw [sysRead]
  split
  case isTrue => exact .refl hs
  split
  case h_1 => exact .refl hs
  case h_2 file _ =>
    split
    case isTrue => exact .refl hs
    split
    case isTrue => exact .refl hs
    split
    case isFalse => exact .refl hs
    case isTrue =>
      dsimp only
      split
      case isTrue => exact .refl hs
      case isFalse => exact ⟨rfl, keeps_touch hs file.inode⟩

theorem lawful_sysReadlink (hs : s.fs.WellFormed) (devices : Devices) (path : List Char)
    (bufsiz : ℤ) : Lawful s (s.sysReadlink devices path bufsiz).1 := by
  rw [sysReadlink]
  split
  case isTrue => exact .refl hs
  case isFalse => exact lawful_withInode hs fun _ _ _ h => .refl h.keeps.wellFormed

theorem lawful_sysStat (hs : s.fs.WellFormed) (path : List Char) (follow : Bool) :
    Lawful s (s.sysStat path follow).1 :=
  lawful_withInode hs fun _ _ _ h => .refl h.keeps.wellFormed

theorem lawful_sysAccess (hs : s.fs.WellFormed) (path : List Char) (mode : ℕ) :
    Lawful s (s.sysAccess path mode).1 :=
  lawful_withInode hs fun _ _ _ h => .refl h.keeps.wellFormed

theorem lawful_sysChdir (hs : s.fs.WellFormed) (path : List Char) :
    Lawful s (s.sysChdir path).1 := by
  refine lawful_withInode hs fun id s₁ _ h => ?_
  have hs₁ := h.keeps.wellFormed
  split
  case isTrue => exact ⟨rfl, (Keeps.refl hs₁).held _⟩
  case isFalse => exact .refl hs₁

/-- Only the owner sets the permissions. -/
theorem lawful_sysChmod (hs : s.fs.WellFormed) (hsuser : s.cur.suser = false) (path : List Char)
    (mode : ℕ) : Lawful s (s.sysChmod path mode).1 := by
  refine lawful_withInode hs fun id s₁ _ h => ?_
  have hs₁ := h.keeps.wellFormed
  split
  case isTrue => exact .refl hs₁
  case isFalse howner =>
    have huid : s₁.cur.euid = (s₁.fs.node id).uid := by
      by_contra hne
      exact howner ⟨hne, by rw [h.cur, hsuser]⟩
    have hopen : id ∈ s₁.Changeable := fun _ => .inl huid
    refine ⟨rfl, ?_⟩
    dsimp only
    refine keeps_setNode hs₁ ?_ (fun _ => rfl) rfl (.inl hopen)
    -- the type of the file stays
    rw [DInode.isDir, DInode.isDir, Nat.and_or_distrib_right, Nat.and_assoc,
      show 0o7777 &&& 0o170000 = 0 from rfl, Nat.and_zero, Nat.zero_or, Nat.and_assoc, Nat.and_self]

/-- Only the superuser sets the owner. -/
theorem lawful_sysChown (hs : s.fs.WellFormed) (hsuser : s.cur.suser = false) (path : List Char)
    (uid gid : ℕ) : Lawful s (s.sysChown path uid gid).1 := by
  refine lawful_withInode hs fun _ _ _ h => ?_
  rw [h.cur, hsuser, if_pos rfl]
  exact .refl h.keeps.wellFormed

/-- `sys_utime` sets the times of any file. -/
theorem lawful_sysUtime (hs : s.fs.WellFormed) {path : List Char}
    (hpath : ∀ id, s.lookup path true = .ok (some id) → id ∈ s.Changeable)
    (times : Option (ℕ × ℕ)) : Lawful s (s.sysUtime path times).1 := by
  refine lawful_withInode hs fun id s₁ hid h => ⟨rfl, ?_⟩
  have hopen : id ∈ s₁.Changeable := by
    intro hreg
    rw [isReg, h.inode] at hreg
    exact h.mayChange.mpr (hpath id hid hreg)
  dsimp only
  exact keeps_setNode h.keeps.wellFormed rfl (fun _ => rfl) rfl (.inl hopen)

/-! ### Links -/

/-- Another name for a file. -/
theorem lawful_linkTo (hs : s.fs.WellFormed) {old : InodeId} (hfound : s.fs.Found old)
    (hlinks : (s.fs.node old).isDir = false → (s.fs.node old).nlinks < 255) (path : List Char) :
    Lawful s (s.linkTo old path).1 := by
  rw [linkTo]
  split
  case isTrue => exact .refl hs
  case isFalse hdir =>
    have hold : (s.fs.node old).isDir = false := by simpa using hdir
    have hname := hfound.resolve_left hdir
    split
    case h_1 => exact .refl hs
    case h_2 => exact .refl hs
    case h_3 dir hwalk =>
      have hdir : (s.fs.node dir).isDir = true := walkFrom_isDir hwalk
      split
      case isTrue => exact .refl hs
      split
      case isTrue => exact .refl hs
      case isFalse hdev =>
        split
        case isTrue => exact .refl hs
        split
        case h_1 => exact .refl hs
        case h_2 => exact .refl hs
        case h_3 dir' hfind =>
          split
          case h_1 => exact .refl hs
          case h_2 => exact .refl hs
          case h_3 fs hadd =>
            obtain ⟨i, hi, rfl⟩ := addEntry_spec hadd
            have hdir' := find_isDir hs hdir hfind
            obtain rfl := find_none hs hdir hfind (addIndex_spec (hs.size _ hdir') hi).1
            exact ⟨rfl, keeps_link hs hdir hi hold (of_not_not hdev) hname (hlinks hold) _⟩

theorem lawful_sysLink (hs : s.fs.WellFormed) {old : List Char}
    (hold : ∀ id, s.lookup old true = .ok (some id) → (s.fs.node id).isDir = false →
      (s.fs.node id).nlinks < 255) (new : List Char) : Lawful s (s.sysLink old new).1 := by
  refine lawful_withInode hs fun id s₁ hid h => lawful_linkTo h.keeps.wellFormed ?_ ?_ new
  · rw [Found, h.edits.isDir, h.edits.names_eq hs]
    exact lookup_found hs hid
  · rw [h.inode]
    exact hold id hid

theorem lawful_unlinkEntry (hs : s.fs.WellFormed) {dir : InodeId} {i : ℕ} {de : ℕ}
    (hmem : (dir, i) ∈ s.fs.Names (dir.1, de)) (hm : s.fs.mapped dir (i / 64) = true)
    (hid : (s.fs.node id).isDir = true ∨ id = (dir.1, de)) :
    Lawful s (s.unlinkEntry dir i id).1 := by
  rw [unlinkEntry]
  split
  case isTrue => exact .refl hs
  split
  case isTrue => exact .refl hs
  case isFalse hdir =>
    obtain rfl := hid.resolve_left hdir
    exact ⟨rfl, keeps_unlink hs (by simpa using hdir) hmem hm _⟩

theorem lawful_sysUnlink (hs : s.fs.WellFormed) (path : List Char) :
    Lawful s (s.sysUnlink path).1 := by
  rw [sysUnlink]
  split
  case h_1 => exact .refl hs
  case h_2 => exact .refl hs
  case h_3 dir hwalk =>
    have hdir : (s.fs.node dir).isDir = true := walkFrom_isDir hwalk
    split
    case isTrue => exact .refl hs
    split
    case isTrue => exact .refl hs
    split
    case h_2 => exact .refl hs
    case h_3 => exact .refl hs
    case h_1 dir' b de i hfind hindex =>
      obtain ⟨-, j, hj, hmem, hm⟩ := find_named hs hdir hfind
      obtain rfl := Option.some.inj (hj.symm.trans hindex)
      split
      case h_1 => exact .refl hs
      case h_2 id hget => exact lawful_unlinkEntry hs hmem hm (igets_cases hs hget)

/-! ### Runs -/

variable (devices : Devices)

/-- The calls that a process without the rights of the superuser makes. -/
def system : System FileTask FileCall where
  init s := s.fs.WellFormed ∧ s.cur.suser = false
  step s c s' := (s.call devices c).1 = s'

/-- `sys_utime` is called for regular files that the process owns or may write only, and no
file gets 256 links. -/
def Careful (s : FileTask) : FileCall → Prop
  | .utime path _ => ∀ id, s.lookup path true = .ok (some id) → id ∈ s.Changeable
  | .link old _ => ∀ id, s.lookup old true = .ok (some id) → (s.fs.node id).isDir = false →
      (s.fs.node id).nlinks < 255
  | _ => True

theorem lawful_call (hs : s.fs.WellFormed) (hsuser : s.cur.suser = false) {c : FileCall}
    (hc : s.Careful c) : Lawful s (s.call devices c).1 := by
  cases c with
  | «open» path flag mode => exact lawful_sysOpen hs hsuser path flag mode
  | read fd count => exact lawful_sysRead hs devices fd count
  | readlink path bufsiz => exact lawful_sysReadlink hs devices path bufsiz
  | stat path follow => exact lawful_sysStat hs path follow
  | access path mode => exact lawful_sysAccess hs path mode
  | chdir path => exact lawful_sysChdir hs path
  | chmod path mode => exact lawful_sysChmod hs hsuser path mode
  | chown path uid gid => exact lawful_sysChown hs hsuser path uid gid
  | utime path times => exact lawful_sysUtime hs hc times
  | link old new => exact lawful_sysLink hs hc new
  | unlink path => exact lawful_sysUnlink hs path

theorem run_wellFormed (h : (system devices).Reach Careful s) :
    s.fs.WellFormed ∧ s.cur.suser = false := by
  refine System.Reach.invariant (fun s h => h) (fun s c s' hi hc hs => ?_) h
  have hlawful := lawful_call devices hi.1 hi.2 hc
  rw [show (s.call devices c).1 = s' from hs] at hlawful
  exact ⟨hlawful.keeps.wellFormed, hlawful.suser.trans hi.2⟩

/-- In every run, a call changes a regular file that keeps a name only if the process owns the
file or may write it. -/
theorem file_integrity (s : FileTask) (h : (system devices).Reach Careful s) (c : FileCall)
    (hc : s.Careful c) (f : InodeId) (hreg : isReg (s.fs.node f) = true)
    (hname : (s.fs.Names f).Nonempty) (hname' : ((s.call devices c).1.fs.Names f).Nonempty) :
    s.MayChange f ∨ Guards s.fs (s.call devices c).1.fs f := by
  obtain ⟨hs, hsuser⟩ := run_wellFormed devices h
  have hdir : (s.fs.node f).isDir = false := by
    rw [isReg, beq_iff_eq] at hreg
    rw [DInode.isDir, hreg]
    rfl
  exact ((lawful_call devices hs hsuser hc).keeps.guards f hname hname' hdir).imp_left
    fun hf => hf hreg

theorem oneFile_isDir {mode : ℕ} {content : UInt8}
    (hfile : ((oneFile mode content).node (1, 2)).isDir = false)
    (h : ((oneFile mode content).node f).isDir = true) : f = (1, 1) := by
  by_contra h1
  rcases eq_or_ne f (1, 2) with rfl | h2
  · rw [hfile] at h
    cases h
  · rw [oneFile] at h
    dsimp only at h
    rw [if_neg h1, if_neg h2] at h
    cases h

theorem oneFile_root {mode : ℕ} {content : UInt8} :
    (oneFile mode content).node (1, 1) = ⟨⟨0o040755, 0, 0, 2, 48⟩, 10, 0, 0, 0⟩ := rfl

theorem oneFile_entry (mode : ℕ) (content : UInt8) :
    (oneFile mode content).dirEntry (1, 1) 0 = ⟨1, ['.']⟩ ∧
      (oneFile mode content).dirEntry (1, 1) 1 = ⟨1, ['.', '.']⟩ ∧
      (oneFile mode content).dirEntry (1, 1) 2 = ⟨2, ['a']⟩ := ⟨rfl, rfl, rfl⟩

theorem oneFile_names {mode : ℕ} {content : UInt8} {p : InodeId × ℕ}
    (hfile : ((oneFile mode content).node (1, 2)).isDir = false)
    (h : p ∈ (oneFile mode content).Names f) :
    f = (1, 1) ∨ (f = (1, 2) ∧ p = ((1, 1), 2)) := by
  obtain ⟨hdev, hd, hlt, hnum, -⟩ := h
  obtain ⟨d, i⟩ := p
  obtain rfl : d = (1, 1) := oneFile_isDir hfile hd
  obtain ⟨h0, h1, h2⟩ := oneFile_entry mode content
  dsimp only at hdev hlt hnum
  rw [oneFile_root] at hlt
  match i, hlt with
  | 0, _ => exact .inl (Prod.ext hdev.symm (by rw [← hnum, h0]))
  | 1, _ => exact .inl (Prod.ext hdev.symm (by rw [← hnum, h1]))
  | 2, _ => exact .inr ⟨Prod.ext hdev.symm (by rw [← hnum, h2]), rfl⟩
  | i + 3, hlt => exact absurd hlt (by simp)

theorem oneFile_wellFormed {mode : ℕ} (content : UInt8)
    (hfile : ((oneFile mode content).node (1, 2)).isDir = false) :
    (oneFile mode content).WellFormed where
  links f hf := by
    have hroot : f ≠ (1, 1) := by
      rintro rfl
      rw [oneFile_root] at hf
      exact absurd hf (by decide)
    rcases eq_or_ne f (1, 2) with rfl | hne
    · have hsub : (oneFile mode content).Names (1, 2) ⊆ {((1, 1), 2)} := fun p hp =>
        ((oneFile_names hfile hp).resolve_left hroot).2
      exact (Set.encard_le_encard hsub).trans_eq (Set.encard_singleton _)
    · have hnone : (oneFile mode content).Names f = ∅ := Set.eq_empty_of_forall_notMem fun p hp =>
        hne ((oneFile_names hfile hp).resolve_left hroot).1
      rw [hnone, Set.encard_empty]
      exact zero_le
  used f hf := by
    obtain ⟨p, hp⟩ := hf
    rcases oneFile_names hfile hp with rfl | ⟨rfl, -⟩ <;> rfl
  free f hf := by
    refine Bool.eq_false_iff.mpr fun hd => ?_
    rw [oneFile_isDir hfile hd] at hf
    cases hf
  size d hd := by
    rw [oneFile_isDir hfile hd, oneFile_root]
    exact ⟨3, rfl⟩
  dotdot d hd := by
    obtain rfl := oneFile_isDir hfile hd
    rw [(oneFile_entry mode content).2.1, oneFile_root]
    exact ⟨by decide, fun _ => ⟨by decide, rfl, hd⟩⟩
  mounted _ _ h := by cases h
  imount _ _ h := by cases h

def noDevices : Devices := ⟨fun _ _ _ => .crash, fun _ _ _ => []⟩

theorem oneTask_lookup : (oneTask 0o644 65).lookup ['a'] true = .ok (some (1, 2)) := by
  decide +kernel

/-- The file may be read by all, and written by the superuser. -/
theorem oneTask_mayChange : ¬ (oneTask 0o644 65).MayChange (1, 2) := by
  refine not_or.mpr ⟨?_, ?_⟩
  · decide +kernel
  · decide +kernel

/-- A process makes another name for a file of the superuser. -/
theorem file_integrity_link :
    Guards (oneTask 0o644 65).fs
      ((oneTask 0o644 65).call noDevices (.link ['a'] ['b'])).1.fs (1, 2) := by
  refine (file_integrity noDevices (oneTask 0o644 65)
    (.init ⟨oneFile_wellFormed 65 (by decide +kernel), by decide +kernel⟩) (.link ['a'] ['b']) ?_
    (1, 2) (by decide +kernel) ⟨((1, 1), 2), ?_⟩ ⟨((1, 1), 2), ?_⟩).resolve_left oneTask_mayChange
  · intro id hid _
    obtain rfl := Option.some.inj (Except.ok.inj (oneTask_lookup.symm.trans hid))
    decide +kernel
  · refine ⟨rfl, ?_, ?_, ?_, ?_⟩ <;> decide +kernel
  · refine ⟨rfl, ?_, ?_, ?_, ?_⟩ <;> decide +kernel

/-- `sys_utime` makes no check. -/
theorem utime_changes : ¬ ∀ (devices : Devices) (s : FileTask),
    (system devices).Reachable s → ∀ (c : FileCall) (f : InodeId), isReg (s.fs.node f) = true →
      (s.fs.Names f).Nonempty → ((s.call devices c).1.fs.Names f).Nonempty →
        s.MayChange f ∨ Guards s.fs (s.call devices c).1.fs f := by
  intro h
  have hname : ∀ s' : Files, (s'.node (1, 1)).isDir = true → 2 < (s'.node (1, 1)).size / 16 →
      (s'.dirEntry (1, 1) 2).inode = 2 → (s'.Names (1, 2)).Nonempty :=
    fun s' hd hlt hnum => ⟨((1, 1), 2), rfl, hd, hlt, hnum, by decide⟩
  have hguards := (h noDevices (oneTask 0o644 65)
    (.init ⟨oneFile_wellFormed 65 (by decide +kernel), by decide +kernel⟩)
    (.utime ['a'] (some (3, 4))) (1, 2) (by decide +kernel)
    (hname _ (by decide +kernel) (by decide +kernel) (by decide +kernel))
    (hname _ (by decide +kernel) (by decide +kernel) (by decide +kernel))).resolve_left
    oneTask_mayChange
  have hmtime : (((oneTask 0o644 65).call noDevices
      (.utime ['a'] (some (3, 4)))).1.fs.node (1, 2)).mtime = 4 := by
    decide +kernel
  rw [hguards.mtime] at hmtime
  exact absurd hmtime (by decide +kernel)

end FileTask

end Fs
