/-
What a call that fails to make a name leaves behind (fs/namei.c, fs/inode.c, fs/truncate.c).

* `Volumes.InOrder` — file systems in order, and a process on them;
* `Volumes.Unchanged` — the inode bitmap, the blocks but for those of one directory, the links
  and the entries are as they were;
* `Took` — the state where an inode has been taken, with a block or without, and
  `Took.put`, which gives them back;
* `new_names_fail` — a call that returns an error leaves all as it was, if and only if it is
  no `sys_mkdir` that cannot read the block that it has taken;
* `mkdir_leaks` — such a call.
-/
import Linux012.NewNames
import Linux012.ZoneGrowth

namespace Fs

open Function (update)

namespace Volumes

variable (s : Volumes) (cur : Current)

/-- An inode in use: its bit is set, and a directory or a process has it. -/
def Used (id : InodeId) : Prop :=
  Marked (s.imap id.1) id.2 ∧ ((s.node id).nlinks ≠ 0 ∨ s.held id ≠ 0)

/-- A directory that can be searched. -/
def Listed (d : InodeId) : Prop := (s.node d).isDir = true ∧ ¬ (d.1 ≠ 0 ∧ (s.node d).nlinks = 0)

/-- The file systems are in order: the blocks are owned, and what entries, mounts and the
process name is in use. -/
structure InOrder : Prop where
  owned : ∀ dev, (s.zones dev).Owned
  entries : ∀ d b i, s.Listed d → b < Zones.maxBlock →
    (s.zones d.1).named d.2 (Zones.path b) ≠ 0 → i < dirEntriesPerBlock →
    (s.dirEntry d.1 ((s.zones d.1).named d.2 (Zones.path b)) i).inode ≠ 0 →
    s.Used (d.1, (s.dirEntry d.1 ((s.zones d.1).named d.2 (Zones.path b)) i).inode)
  mounted : ∀ id dev, s.mountedDev id = some dev → s.Used (dev, rootIno)
  imount : ∀ dev m, s.imount dev = some m → s.Used m ∧ s.Listed m
  root : s.Used cur.root
  pwd : s.Used cur.pwd

/-- The blocks in use, but for those of a directory. -/
def taken (dir : Option InodeId) : Set (ℕ × ℕ) :=
  {p | (s.zones p.1).firstDataZone ≤ p.2 ∧ p.2 < (s.zones p.1).nZones ∧ (s.zones p.1).Marked p.2 ∧
    ∀ d, dir = some d → d.1 = p.1 → ∀ ks, Zones.IsPath ks → (s.zones d.1).named d.2 ks ≠ p.2}

/-- The live entries: a directory, the number of the entry, and what it holds. -/
def live : Set (InodeId × ℕ × DirEntry) :=
  {e | Marked (s.imap e.1.1) e.1.2 ∧ (s.node e.1).isDir = true ∧
    e.2.1 * 16 < (s.node e.1).size ∧ e.2.1 / dirEntriesPerBlock < Zones.maxBlock ∧
    (s.zones e.1.1).named e.1.2 (Zones.path (e.2.1 / dirEntriesPerBlock)) ≠ 0 ∧
    e.2.2 = s.dirEntry e.1.1
      ((s.zones e.1.1).named e.1.2 (Zones.path (e.2.1 / dirEntriesPerBlock)))
      (e.2.1 % dirEntriesPerBlock) ∧ e.2.2.inode ≠ 0}

/-- Nothing has changed but the blocks of a directory. -/
structure Unchanged (s s' : Volumes) (dir : Option InodeId) : Prop where
  imap : s'.imap = s.imap
  taken : s'.taken dir = s.taken dir
  nlinks : ∀ id, Marked (s.imap id.1) id.2 → (s'.node id).nlinks = (s.node id).nlinks
  live : s'.live = s.live

end Volumes

namespace NameCall

/-- The path of the new name. -/
def path : NameCall → List Char
  | mknod path _ _ => path
  | mkdir path _ => path
  | symlink _ newname => newname
  | link _ newname => newname
  | openNamei path _ _ => path

/-- The directory that the name is looked up in, if the call comes to it. -/
def directory (s : Volumes) (cur : Current) (o : Outside) (c : NameCall) : Option InodeId :=
  match s.dirNamei cur o c.path with
  | .ok (some dir) => some ((s.disks (o.ok 2)).exchange cur dir (basename c.path)).1
  | _ => none

end NameCall

namespace Volumes

variable {s s' s₁ : Volumes} {cur : Current} {o : Outside} {dir d id x : InodeId} {e k i : ℕ}
  {name : Name}

/-! ### What look-ups find -/

theorem Used.nonzero (h : s.Used id) : s.held id ≠ 0 ∨ (s.node id).nlinks ≠ 0 := h.2.symm

theorem listed_of_searchable {ok : ℕ → ℕ → Bool} (h : (s.disks ok).Searchable cur d) :
    s.Listed d := by
  refine ⟨Disks.isDir_of_searchable h, fun hcon => h (.inr ?_)⟩
  rw [Current.permission]
  exact if_pos hcon

theorem named_of_bmap {ok : ℕ → ℕ → Bool} (hne : (s.disks ok).bmap d k ≠ 0) :
    k < Zones.maxBlock ∧
      (s.disks ok).bmap d k = (s.zones d.1).named d.2 (Zones.path k) := by
  have hbmap : (s.disks ok).bmap d k = ((s.zones d.1).bmap (ok d.1) d.2 k).getD 0 := rfl
  rw [hbmap, Zones.bmap] at hne ⊢
  split at hne
  case isFalse => exact absurd rfl hne
  case isTrue hk =>
    rw [if_pos hk]
    simp only [Option.getD_some, Zones.bmapFrom_false] at hne ⊢
    exact ⟨hk, Zones.walk_eq_named (Zones.isPath_path hk).ne_nil hne⟩

/-- Look-ups stay among the inodes in use. -/
theorem InOrder.closed (hs : s.InOrder cur) (ok : ℕ → ℕ → Bool) :
    (s.disks ok).Closed cur s.Used where
  root := hs.root
  find d name d' found h hsearch hf := by
    have hlisted := listed_of_searchable hsearch
    have hd' : d' = ((s.disks ok).exchange cur d name).1 := Files.dir_of_find hf
    have hdir : s.Used d' ∧ s.Listed d' := by
      rcases Files.exchange_cases (s.disks ok) cur d name with hex | ⟨m, hm, hex⟩
      · rw [hd', hex]
        exact ⟨h, hlisted⟩
      · rw [hd', hex]
        exact hs.imount _ _ hm
    refine ⟨hdir.1, ?_⟩
    rintro b de y rfl hget
    -- the entry is in a block of the directory
    rw [Disks.find] at hf
    split at hf
    case h_1 => cases hf
    case h_2 =>
      cases hscan : (s.disks ok).scanFrom ((s.disks ok).exchange cur d name).1
          ((s.disks ok).exchange cur d name).2 ((s.disks ok).entries d) 0 with
      | error c =>
        rw [hscan] at hf
        cases hf
      | ok found =>
        rw [hscan] at hf
        cases hf
        obtain ⟨j, -, hb, rfl, hmatch⟩ := Disks.scanFrom_spec hscan
        rw [nameMatches, Bool.and_eq_true, bne_iff_ne] at hmatch
        rw [Disks.dirBuf] at hb
        split at hb
        case isTrue => cases hb
        case isFalse hread =>
          cases hb
          rw [not_or] at hread
          obtain ⟨hk, hnamed⟩ := named_of_bmap hread.1
          have hused := hs.entries _ _ (j % dirEntriesPerBlock) hdir.2 hk (hnamed ▸ hread.1)
            (Nat.mod_lt _ (by decide)) (hnamed ▸ hmatch.1)
          rw [Disks.igets] at hget
          split at hget
          case isTrue => cases hget
          case isFalse =>
            cases hget
            rw [Disks.mounted]
            split
            case h_1 =>
              rw [hnamed]
              exact hused
            case h_2 dev hdev => exact hs.mounted _ _ hdev

/-! ### Inodes that are put -/

theorem iput_held (h : s.held id ≠ 0 ∨ (s.node id).nlinks ≠ 0) : s.iput o id = .ok s := by
  rw [iput, if_pos (.inr h)]

theorem fails_held {ids : List InodeId} (h : ∀ id ∈ ids, s.held id ≠ 0 ∨ (s.node id).nlinks ≠ 0) :
    s.fails o e ids = .ok (.error e, s) := by
  induction ids with
  | nil => rfl
  | cons id ids ih =>
    rw [fails, iput_held (h id List.mem_cons_self)]
    exact ih fun x hx => h x (List.mem_cons_of_mem id hx)

/-! ### An inode that has been taken -/

/-- Inode `id` of `s` has been taken, and blocks for it and for a directory. -/
structure Took (dir : Option InodeId) (s t : Volumes) (id : InodeId) : Prop where
  dev : id.1 ≠ 0
  clear : Clear (s.imap id.1) id.2
  imap : t.imap = update s.imap id.1 (mark (s.imap id.1) id.2)
  node : ∀ x, x ≠ id → t.node x = s.node x
  held : ∀ x, t.held x = if x = id then 0 else s.held x
  imount : t.imount = s.imount
  others : ∀ dev, dev ≠ id.1 → Zones.Grows (fun i => dir = some (dev, i)) (fun _ => False)
    (s.zones dev) (t.zones dev)
  zones : Zones.Grows (fun i => dir = some (id.1, i) ∨ i = id.2) (· = id.2)
    ((s.zones id.1).clearZones id.2) (t.zones id.1)
  empty : ∀ k < 9, k ≠ 0 → (t.zones id.1).zone id.2 k = 0

variable {t t' : Volumes}

theorem Used.ne (h : s.Used x) (hclear : Clear (s.imap id.1) id.2) : x ≠ id := by
  rintro rfl
  exact (marked_iff.mp h.1).2 hclear

theorem Took.used {D : Option InodeId} (h : Took D s t id) (hx : s.Used x) :
    t.held x ≠ 0 ∨ (t.node x).nlinks ≠ 0 := by
  have hne := hx.ne h.clear
  rw [h.held, if_neg hne, h.node x hne]
  exact hx.nonzero

/-- `new_inode` finds none, or takes one. -/
theorem newInode_cases (hs : s.InOrder cur) {dev : ℕ} {num : Option ℕ}
    (h : s.newInode cur dev = .ok (num, t)) : num = none ∧ t = s ∨
      ∃ n, num = some n ∧ (∀ D, Took D s t (dev, n)) ∧ (t.node (dev, n)).nlinks = 1 ∧
        (t.node (dev, n)).mode = 0 ∧ (t.zones dev).zone n = fun _ => 0 := by
  rw [newInode] at h
  split at h
  case isTrue => cases h
  case isFalse hdev =>
    rcases BitMaps.firstClear_or (s.imap dev) with ⟨k, hk⟩ | hnone
    · rw [BitMaps.newInode_firstClear (s := (s.zones dev).bitMaps (s.nInodes dev) (s.imap dev)
        (s.nInodes_lt dev)) hk] at h
      by_cases hrange : ((s.zones dev).bitMaps (s.nInodes dev) (s.imap dev)
        (s.nInodes_lt dev)).nInodes < k
      · rw [if_pos hrange] at h
        cases h
        exact .inl ⟨rfl, rfl⟩
      · rw [if_neg hrange] at h
        cases h
        refine .inr ⟨k, rfl, fun D => ?_, ?_, ?_, ?_⟩
        · refine ⟨hdev, hk.2.1, rfl, fun x hx => Function.update_of_ne hx _ _, fun x => ?_, rfl,
            fun dev' hdev' => ?_, ?_, fun k' _ _ => ?_⟩
          · exact Function.update_apply _ _ _ _
          · simp only [setZones, Function.update_of_ne hdev']
            exact .refl (hs.owned dev')
          · simp only [setZones, Function.update_self]
            exact .refl ((hs.owned dev).clearZones k)
          · simp only [setZones, Function.update_self]
        · simp only [Function.update_self]
        · simp only [Function.update_self]
        · simp only [setZones, Function.update_self]
    · rw [BitMaps.newInode_none (s := (s.zones dev).bitMaps (s.nInodes dev) (s.imap dev)
        (s.nInodes_lt dev)) hnone] at h
      cases h
      exact .inl ⟨rfl, rfl⟩

variable {D : Option InodeId}

/-- What is stored in the inode itself is no matter. -/
theorem Took.congr (h : Took D s t id) (hnode : ∀ x, x ≠ id → t'.node x = t.node x)
    (hzones : t'.zones = t.zones) (himap : t'.imap = t.imap) (hheld : t'.held = t.held)
    (himount : t'.imount = t.imount) : Took D s t' id where
  dev := h.dev
  clear := h.clear
  imap := himap.trans h.imap
  node x hx := (hnode x hx).trans (h.node x hx)
  held x := by rw [hheld, h.held]
  imount := himount.trans h.imount
  others := by
    rw [hzones]
    exact h.others
  zones := by
    rw [hzones]
    exact h.zones
  empty := by
    rw [hzones]
    exact h.empty

theorem node_setNode_self (t : Volumes) (id : InodeId) (f : DInode → DInode) :
    (t.setNode id f).node id = f (t.node id) := Function.update_self _ _ _

theorem Took.setNode (h : Took D s t id) (f : DInode → DInode) : Took D s (t.setNode id f) id :=
  h.congr (fun _ hx => Function.update_of_ne hx _ _) rfl rfl rfl rfl

/-- The zones of the device of the inode are changed further. -/
theorem Took.grow (h : Took D s t id) {z : Zones}
    (hz : Zones.Grows (fun i => D = some (id.1, i) ∨ i = id.2) (· = id.2)
      ((s.zones id.1).clearZones id.2) z)
    (hempty : ∀ k < 9, k ≠ 0 → z.zone id.2 k = 0) : Took D s (t.setZones id.1 z) id where
  dev := h.dev
  clear := h.clear
  imap := h.imap
  node := h.node
  held := h.held
  imount := h.imount
  others dev hdev := by
    simp only [setZones, Function.update_of_ne hdev]
    exact h.others dev hdev
  zones := by
    simp only [setZones, Function.update_self]
    exact hz
  empty := by
    simp only [setZones, Function.update_self]
    exact hempty

theorem Took.owned (h : Took D s t id) (dev : ℕ) : (t.zones dev).Owned := by
  rcases eq_or_ne dev id.1 with rfl | hdev
  · exact h.zones.fills.owned
  · exact (h.others dev hdev).fills.owned

/-! ### The first block of the inode -/

/-- `new_block` stores to no inode. -/
theorem newBlock_zone (z : Zones) : z.newBlock.2.zone = z.zone := by
  rw [Zones.newBlock, Zones.claimBlock]
  cases z.findBit 8 0 with
  | none => rfl
  | some mj =>
    obtain ⟨m, j⟩ := mj
    dsimp only
    split_ifs <;> rfl

/-- The first block is taken as `create_block` takes one. -/
theorem newZone_eq (hz : (t.zones id.1).zone id.2 0 = 0) :
    t.newZone id = (((t.zones id.1).entry true id.2 none 0).1,
      t.setZones id.1 ((t.zones id.1).entry true id.2 none 0).2) := by
  have hv : (t.zones id.1).value id.2 none 0 = 0 := hz
  rw [newZone, Zones.entry, if_pos ⟨rfl, hv⟩]
  dsimp only
  by_cases hn : (t.zones id.1).newBlock.1 = 0
  · -- `i_zone[0]` stays 0
    have hzone : update ((t.zones id.1).newBlock.2.zone id.2) 0 0 =
        (t.zones id.1).newBlock.2.zone id.2 :=
      Function.update_eq_self_iff.mpr (by rw [newBlock_zone, hz])
    rw [if_pos hn, hn, Zones.setValue, hzone, Function.update_eq_self]
  · rw [if_neg hn]

theorem Took.newZone (h : Took D s t id) (hz : (t.zones id.1).zone id.2 0 = 0) :
    Took D s (t.newZone id).2 id ∧
      ((t.newZone id).2.zones id.1).zone id.2 0 = (t.newZone id).1 := by
  have hat : (t.zones id.1).At (fun _ => true) id.2 [] none := .inl ⟨rfl, rfl⟩
  have hpath : Zones.IsPath ([] ++ [0]) := .inl ⟨0, by decide, rfl⟩
  have hspec := Zones.entry_spec (h.owned id.1) hat hpath
  have hgrows : Zones.Grows (· = id.2) (· = id.2) (t.zones id.1)
      ((t.zones id.1).entry true id.2 none 0).2 :=
    Zones.entry_grows (h.owned id.1) hat hpath
  rw [newZone_eq hz]
  refine ⟨h.grow (h.zones.trans (hgrows.mono (fun _ hi => .inr hi) fun _ hi => hi))
    fun k hk hk₀ => ?_, ?_⟩
  · have hplace := hspec.1.frame (fun _ => true) id.2 [k] (.inl ⟨k, hk, rfl⟩)
      fun hcon => hk₀ (List.cons.inj hcon.2).1
    exact hplace.trans (h.empty k hk hk₀)
  · simp only [setZones, Function.update_self]
    exact hspec.2.1

/-- The block is written. -/
theorem Took.setData (h : Took D s t id) (hne : (t.zones id.1).zone id.2 0 ≠ 0)
    (f : ℕ → Option ℕ) : Took D s (t.setData id.1 ((t.zones id.1).zone id.2 0) f) id :=
  h.grow (h.zones.store (i := id.2) (b := 0) rfl (by decide)
    (Zones.named_clearZones_self (by decide)) hne _) h.empty

/-! ### The entry -/

/-- What a part of `add_entry` that adds no entry does: blocks are taken for the directory. -/
def Adds (dir : InodeId) (t t' : Volumes) : Prop :=
  ∃ z, t' = t.setZones dir.1 z ∧
    ∀ N, Zones.Grows (· = dir.2) N (t.zones dir.1) z

theorem Adds.refl (h : (t.zones d.1).Owned) : Adds d t t :=
  ⟨t.zones d.1, by rw [setZones, Function.update_eq_self], fun _ => .refl h⟩

theorem Adds.trans {t₁ : Volumes} (h : Adds d t t₁) (h' : Adds d t₁ t') : Adds d t t' := by
  obtain ⟨z, rfl, hz⟩ := h
  obtain ⟨z', rfl, hz'⟩ := h'
  refine ⟨z', by simp only [setZones, Function.update_idem], fun N => (hz N).trans ?_⟩
  have hgrows := hz' N
  simp only [setZones, Function.update_self] at hgrows
  exact hgrows

theorem Adds.owned (h : Adds d t t') : (t'.zones d.1).Owned := by
  obtain ⟨z, rfl, hz⟩ := h
  simp only [setZones, Function.update_self]
  exact (hz fun _ => True).fills.owned

theorem entryBlock_adds (h : (t.zones d.1).Owned) {block b : ℕ}
    (he : t.entryBlock o d i block = .ok (b, t')) : Adds d t t' := by
  rw [entryBlock] at he
  split at he
  case isFalse =>
    cases he
    exact .refl h
  case isTrue =>
    split at he
    case h_1 => cases he
    case h_2 z hc =>
      cases he
      exact ⟨z, rfl, fun _ => Zones.create_grows h hc⟩
    case h_3 v z _ hc =>
      split at he
      case isTrue =>
        cases he
        exact ⟨z, rfl, fun _ => Zones.create_grows h hc⟩
      case isFalse => cases he

theorem addLoop_adds {num left : ℕ} {block : ℕ} (h : (t.zones d.1).Owned)
    (ha : addLoop o d num name left t i block = .ok (false, t')) : Adds d t t' := by
  induction left generalizing t i block with
  | zero =>
    rw [addLoop] at ha
    obtain ⟨⟨b, t₁⟩, he, ha⟩ := Except.ok_of_bind ha
    dsimp only at ha
    split at ha
    case isTrue =>
      cases ha
      exact entryBlock_adds h he
    case isFalse => cases ha
  | succ left ih =>
    rw [addLoop] at ha
    obtain ⟨⟨b, t₁⟩, he, ha⟩ := Except.ok_of_bind ha
    have hadds := entryBlock_adds h he
    dsimp only at ha
    split at ha
    case isTrue =>
      cases ha
      exact hadds
    case isFalse =>
      split at ha
      case isTrue => cases ha
      case isFalse => exact hadds.trans (ih hadds.owned ha)

/-- `add_entry` that fails. -/
theorem addEntry_adds {num : ℕ} (h : (t.zones d.1).Owned)
    (ha : t.addEntry o d num name = .ok (false, t')) : Adds d t t' := by
  rw [addEntry] at ha
  split at ha
  case isTrue =>
    cases ha
    exact .refl h
  case isFalse => exact addLoop_adds h ha

theorem Took.adds (h : Took (some d) s t id) (ha : Adds d t t') (hne : d ≠ id) :
    Took (some d) s t' id ∧ t'.node = t.node ∧
      (t'.zones id.1).zone id.2 0 = (t.zones id.1).zone id.2 0 := by
  obtain ⟨z, rfl, hz⟩ := ha
  by_cases hdev : d.1 = id.1
  · have hnum : id.2 ≠ d.2 := fun heq => hne (Prod.ext hdev heq.symm)
    rw [hdev] at hz ⊢
    have hkeep : ∀ k < 9, z.zone id.2 k = (t.zones id.1).zone id.2 k := fun k hk =>
      (hz (· = id.2)).zone hnum hk
    refine ⟨h.grow (h.zones.trans ((hz _).mono (fun i hi => .inl ?_) fun _ hi => hi))
      fun k hk hk₀ => (hkeep k hk).trans (h.empty k hk hk₀), rfl, ?_⟩
    · rw [hi, ← hdev]
    · simp only [setZones, Function.update_self]
      exact hkeep 0 (by decide)
  · have hid : id.1 ≠ d.1 := Ne.symm hdev
    refine ⟨⟨h.dev, h.clear, h.imap, h.node, h.held, h.imount, fun dev hdev' => ?_, ?_, ?_⟩,
      rfl, ?_⟩
    · rcases eq_or_ne dev d.1 with rfl | hne'
      · simp only [setZones, Function.update_self]
        exact (h.others _ hdev').trans ((hz _).mono (fun i hi => by rw [hi]) fun _ hi => hi)
      · simp only [setZones, Function.update_of_ne hne']
        exact h.others dev hdev'
    · simp only [setZones, Function.update_of_ne hid]
      exact h.zones
    · simp only [setZones, Function.update_of_ne hid]
      exact h.empty
    · simp only [setZones, Function.update_of_ne hid]

/-! ### The inode is given back -/

theorem string_data {dev b : ℕ} (h : (s'.zones dev).data b = (s.zones dev).data b)
    (pos len : ℕ) : s'.string dev b pos len = s.string dev b pos len := by
  have hbyte : s'.byte dev b = s.byte dev b := by
    funext k
    rw [byte, byte, h]
  rw [string, string, hbyte]

theorem dirEntry_data {dev b : ℕ} (h : (s'.zones dev).data b = (s.zones dev).data b) :
    s'.dirEntry dev b i = s.dirEntry dev b i := by
  rw [dirEntry, dirEntry, string_data h, h]

/-- The zones of every device are kept, but for those of inodes that are not in use. -/
theorem unchanged_of_kept {N : InodeId → Prop} (himap : s'.imap = s.imap)
    (hN : ∀ x, N x → ¬ Marked (s.imap x.1) x.2) (hnode : ∀ x, ¬ N x → s'.node x = s.node x)
    (hkept : ∀ dev, Zones.Kept (fun i => D = some (dev, i)) (fun i => N (dev, i))
      (s.zones dev) (s'.zones dev)) : Unchanged s s' D where
  imap := himap
  taken := by
    ext ⟨dev, n⟩
    have hk := hkept dev
    rw [taken, taken, Set.mem_ofPred_eq, Set.mem_ofPred_eq]
    dsimp only
    rw [hk.firstDataZone, hk.nZones]
    refine and_congr_right fun hfirst => and_congr_right fun hlast => ?_
    have hnames : ∀ v : Volumes, (∀ d, D = some d → d.1 = dev → ∀ ks, Zones.IsPath ks →
        (v.zones d.1).named d.2 ks ≠ n) ↔ ∀ i ks, D = some (dev, i) → Zones.IsPath ks →
          (v.zones dev).named i ks ≠ n := by
      intro v
      constructor
      · exact fun h i ks hi hks => h (dev, i) hi rfl ks hks
      · rintro h ⟨_, i⟩ hd rfl ks hks
        exact h i ks hd hks
    rw [hnames, hnames]
    exact hk.blocks n hfirst hlast
  nlinks id hm := by rw [hnode id fun hcon => hN id hcon hm]
  live := by
    ext ⟨d, i, de⟩
    rw [live, live, Set.mem_ofPred_eq, Set.mem_ofPred_eq]
    dsimp only
    rw [himap]
    refine and_congr_right fun hm => ?_
    have hused : ¬ N d := fun hcon => hN d hcon hm
    rw [hnode d hused]
    refine and_congr_right fun _ => and_congr_right fun _ => and_congr_right fun hb => ?_
    have hk := hkept d.1
    by_cases hzero : (s.zones d.1).named d.2 (Zones.path (i / dirEntriesPerBlock)) = 0
    · -- a block that the directory has got is empty
      refine iff_of_false ?_ fun h => h.1 hzero
      rintro ⟨hne, rfl, hinode⟩
      exact hinode (hk.zero d.2 _ hb hused hzero hne _)
    · obtain ⟨hnamed, hdata⟩ := hk.data d.2 _ hb hused hzero
      rw [hnamed, dirEntry_data hdata]

/-- The bit that `new_inode` has set is cleared. -/
theorem update_mark {map : ℕ → Option (ℕ → Bool)} (h : Clear map k) {bits : ℕ → Bool}
    (hbits : mark map k (k / 8192) = some bits) :
    update (mark map k) (k / 8192) (some (update bits (k % 8192) false)) = map := by
  obtain ⟨bits₀, hbits₀, hclear⟩ := h
  rw [mark, setBitOf, Function.update_self, hbits₀, Option.map_some] at hbits
  obtain rfl := Option.some.inj hbits
  have hsame : update bits₀ (k % 8192) false = bits₀ :=
    Function.update_eq_self_iff.mpr hclear.symm
  rw [mark, setBitOf, Function.update_idem, Function.update_idem, hsame, ← hbits₀,
    Function.update_eq_self]

/-- What `iput` does with the last reference to the inode: `z` is what `truncate` leaves. -/
theorem Took.iput_spec (h : Took D s t id) (hl : (t.node id).nlinks = 0)
    (hput : t.iput o id = .ok s') :
    ∃ T, Truncation.truncate o.rounds id.2 (t.node id).mode
        ⟨t.zones id.1, (t.node id).size, false, 0, 0, []⟩ o.last = some (false, T) ∧
      s'.zones = update t.zones id.1 (T.zones.clearZones id.2) ∧ s'.imap = s.imap ∧
      (∀ x, x ≠ id → s'.node x = s.node x) ∧ ∀ x, x ≠ id → s'.held x = s.held x := by
  have hheld : t.held id = 0 := by rw [h.held, if_pos rfl]
  have hlast : ¬ (id.1 = 0 ∨ t.held id ≠ 0 ∨ (t.node id).nlinks ≠ 0) := by
    rw [hheld, hl]
    simp [h.dev]
  rw [iput, if_neg hlast] at hput
  obtain ⟨t₁, htrunc, hput⟩ := Except.ok_of_bind hput
  rw [truncate] at htrunc
  split at htrunc
  case h_1 => cases htrunc
  case h_2 => cases htrunc
  case h_3 T hT =>
    cases htrunc
    refine ⟨T, hT, ?_⟩
    rw [freeInode] at hput
    split at hput
    case isTrue => cases hput
    case isFalse =>
      split at hput
      case h_1 => cases hput
      case h_2 bits hbits =>
        cases hput
        have hbits' : mark (s.imap id.1) id.2 (id.2 / 8192) = some bits := by
          have himap := hbits
          change t.imap id.1 (id.2 / 8192) = some bits at himap
          rwa [h.imap, Function.update_self] at himap
        refine ⟨?_, ?_, fun x hx => ?_, fun x hx => ?_⟩
        · show update (update t.zones id.1 T.zones) id.1
            ((update t.zones id.1 T.zones id.1).clearZones id.2) = _
          rw [Function.update_idem, Function.update_self]
        · show update t.imap id.1 (update (t.imap id.1) (id.2 / 8192)
            (some (update bits (id.2 % 8192) false))) = _
          rw [h.imap, Function.update_self, update_mark h.clear hbits', Function.update_idem,
            Function.update_eq_self]
        · exact (Function.update_of_ne hx _ _).trans
            ((Function.update_of_ne hx _ _).trans (h.node x hx))
        · have heq := h.held x
          rwa [if_neg hx] at heq

/-- The inode is given back, with its block, if it is of a kind that has blocks. -/
theorem Took.put (h : Took D s t id) (hD : ∀ d, D = some d → s.Used d)
    (hl : (t.node id).nlinks = 0)
    (hmode : (t.zones id.1).zone id.2 0 = 0 ∨ Truncation.hasBlocks (t.node id).mode = true)
    (hput : t.iput o id = .ok s') :
    Unchanged s s' D ∧ (∀ x, x ≠ id → s'.node x = s.node x) ∧
      ∀ x, x ≠ id → s'.held x = s.held x := by
  obtain ⟨T, hT, hzones, himap, hnode, hheld⟩ := h.iput_spec hl hput
  refine ⟨unchanged_of_kept (N := (· = id)) himap ?_ hnode fun dev => ?_, hnode, hheld⟩
  · rintro x rfl hm
    exact (marked_iff.mp hm).2 h.clear
  · rw [hzones]
    by_cases hdev : dev = id.1
    · subst hdev
      rw [Function.update_self]
      have hfirst := Truncation.truncate_first h.empty hmode hT
      rw [if_neg Bool.false_ne_true] at hfirst
      rw [hfirst]
      have hid : ¬ D = some (id.1, id.2) := fun hcon => (hD _ hcon).ne h.clear rfl
      have hkept := h.zones.forget (D := fun i => D = some (id.1, i)) (fun i hi => hi) hid rfl
        h.empty
      have hN : (fun i => (id.1, i) = id) = (· = id.2) := by
        funext i
        exact propext ⟨fun heq => congrArg Prod.snd heq, fun heq => by rw [heq]⟩
      rw [hN]
      exact hkept
    · rw [Function.update_of_ne hdev]
      exact ((h.others dev hdev).mono (fun _ hi => hi) fun _ hi => hi.elim).kept

variable {r : Except ℕ (Option InodeId)} {path : List Char}

theorem Unchanged.refl (s : Volumes) (D : Option InodeId) : Unchanged s s D :=
  ⟨rfl, rfl, fun _ _ => rfl, rfl⟩

theorem ok_of_mapError {α : Type} {m : Except Crash α} {a : α}
    (h : m.mapError Crash.halt = .ok a) : m = .ok a := by
  cases m with
  | error c => cases h
  | ok b =>
    cases h
    rfl

theorem InOrder.dirNamei_searchable (hs : s.InOrder cur)
    (h : s.dirNamei cur o path = .ok (some d)) :
    s.Used d ∧ (s.disks (o.ok 0)).Searchable cur d :=
  (hs.closed (o.ok 0)).walkFrom (hs.closed (o.ok 0)).follows none hs.pwd (ok_of_mapError h)

theorem InOrder.dirNamei (hs : s.InOrder cur) (h : s.dirNamei cur o path = .ok (some d)) :
    s.Used d := (hs.dirNamei_searchable h).1

theorem InOrder.namei (hs : s.InOrder cur) (h : s.namei cur o path = .ok (some x)) : s.Used x :=
  (hs.closed (o.ok 1)).resolve (hs.closed (o.ok 1)).follows none hs.pwd (ok_of_mapError h)

theorem find_of_findEntry {f : InodeId × Option DirEntry} (h : s.findEntry cur o d name = .ok f) :
    ∃ found, (s.disks (o.ok 2)).find cur d name = .ok (f.1, found) ∧
      f.2 = found.map Prod.snd := by
  have h' := ok_of_mapError h
  cases hf : (s.disks (o.ok 2)).find cur d name with
  | error c =>
    rw [hf] at h'
    cases h'
  | ok f' =>
    rw [hf] at h'
    cases h'
    exact ⟨f'.2, rfl, rfl⟩

theorem findEntry_dir {f : InodeId × Option DirEntry} (h : s.findEntry cur o d name = .ok f) :
    f.1 = ((s.disks (o.ok 2)).exchange cur d name).1 := by
  obtain ⟨found, hf, -⟩ := find_of_findEntry h
  exact Files.dir_of_find hf

theorem InOrder.exchange (hs : s.InOrder cur) (ok : ℕ → ℕ → Bool) (name : Name) (h : s.Used d) :
    s.Used ((s.disks ok).exchange cur d name).1 := by
  rcases Files.exchange_cases (s.disks ok) cur d name with hex | ⟨m, hm, hex⟩
  · rwa [hex]
  · rw [hex]
    exact (hs.imount _ _ hm).1

theorem InOrder.findEntry (hs : s.InOrder cur) (hd : s.Used d) {d' : InodeId}
    {found : Option DirEntry} (h : s.findEntry cur o d name = .ok (d', found)) : s.Used d' := by
  rw [show d' = _ from findEntry_dir h]
  exact hs.exchange (o.ok 2) name hd

theorem fails_ne {ids : List InodeId} {found : Option InodeId} :
    t.fails o e ids ≠ .ok (.ok found, s') := by
  induction ids generalizing t with
  | nil => nofun
  | cons id ids ih =>
    intro h
    rw [fails] at h
    obtain ⟨t₁, -, h⟩ := Except.ok_of_bind h
    exact ih h

/-- The inode is put without links, and then inodes in use. -/
theorem Took.fails (h : Took D s t id) (hD : ∀ d, D = some d → s.Used d) {links n : ℕ}
    (hlinks : links % 256 = 0)
    (hmode : (t.zones id.1).zone id.2 0 = 0 ∨ Truncation.hasBlocks (t.node id).mode = true)
    {ids : List InodeId} (hids : ∀ x ∈ ids, s.Used x)
    (hf : (t.setLinks id links).fails o n (id :: ids) = .ok (r, s')) : Unchanged s s' D := by
  rw [Volumes.fails] at hf
  obtain ⟨s₁, hput, hf⟩ := Except.ok_of_bind hf
  have htook : Took D s (t.setLinks id links) id := h.setNode _
  have hnode : (t.setLinks id links).node id = { t.node id with nlinks := links % 256 } :=
    node_setNode_self _ _ _
  obtain ⟨hun, hnodes, hheld⟩ := htook.put hD (by rw [hnode]; exact hlinks)
    (by rw [hnode]; exact hmode) hput
  have hs₁ : ∀ x ∈ ids, s₁.held x ≠ 0 ∨ (s₁.node x).nlinks ≠ 0 := by
    intro x hx
    have hne := (hids x hx).ne h.clear
    rw [hnodes x hne, hheld x hne]
    exact (hids x hx).nonzero
  rw [fails_held hs₁] at hf
  cases hf
  exact hun

/-- What comes after a new inode whose first block, if any, `truncate` frees: `add_entry`, and
the calls' ways to give the inode back. -/
theorem Took.addEntry (h : Took (some d) s t id) (hd : s.Used d) {num : ℕ}
    (ha : t.addEntry o d num name = .ok (false, t')) :
    Took (some d) s t' id ∧ t'.node = t.node ∧
      (t'.zones id.1).zone id.2 0 = (t.zones id.1).zone id.2 0 ∧ t'.iput o d = .ok t' := by
  obtain ⟨htook, hnode, hzone⟩ := h.adds (addEntry_adds (h.owned d.1) ha) (hd.ne h.clear)
  exact ⟨htook, hnode, hzone, iput_held (htook.used hd)⟩

/-- The permissions are no part of the type of a file. -/
theorem format_or {perm : ℕ} (kind : ℕ) (hperm : perm < 2 ^ 9) :
    (kind ||| perm) &&& 0o170000 = kind &&& 0o170000 := by
  have hclear : perm &&& 0o170000 = 0 := by
    refine Nat.eq_of_testBit_eq fun j => ?_
    rw [Nat.testBit_and, Nat.zero_testBit]
    by_cases hj : j < 9
    · have hbit : Nat.testBit 0o170000 j = false := by interval_cases j <;> rfl
      rw [hbit, Bool.and_false]
    · have hlt : perm < 2 ^ j := lt_of_lt_of_le hperm (Nat.pow_le_pow_right (by decide) (by omega))
      rw [Nat.testBit_lt_two_pow hlt, Bool.false_and]
  rw [Nat.and_or_distrib_right, hclear, Nat.or_zero]

theorem Adds.unchanged (h : Adds d s s') : Unchanged s s' (some d) := by
  obtain ⟨z, rfl, hz⟩ := h
  refine unchanged_of_kept (N := fun _ => False) rfl (fun _ hcon => hcon.elim) (fun _ _ => rfl)
    fun dev => ?_
  rcases eq_or_ne dev d.1 with rfl | hdev
  · simp only [setZones, Function.update_self]
    exact ((hz fun _ => False).mono (fun i hi => by rw [hi]) fun _ hi => hi).kept
  · simp only [setZones, Function.update_of_ne hdev]
    exact .refl _ _ _

end Volumes

namespace Volumes

/-- A device with a root directory of one block, whose inode is the first of 32. -/
def rootOnly : Volumes where
  node id := if id = (1, 1) then ⟨0o040755, 0, 0, 2, 32⟩ else ⟨0, 0, 0, 0, 0⟩
  rdev _ := 0
  zones _ :=
    { zone := fun i k => if i = 1 ∧ k = 0 then 5 else 0
      data := fun n w => if n = 5 then [1, 0x2e, 0, 0, 0, 0, 0, 0, 1, 0x2e2e].getD w 0 else 0
      zmap := fun m => if m = 0 then some fun j => decide (j < 2) else none
      firstDataZone := 5
      nZones := 100
      nZones_lt := by decide
      firstDataZone_pos := Nat.succ_pos 4 }
  imap _ m := if m = 0 then some fun j => decide (j < 2) else none
  nInodes _ := 32
  nInodes_lt := fun _ => by decide
  inodeReadable _ := true
  mountedDev _ := none
  imount _ := none
  held id := if id = (1, 1) then 2 else 0

/-- A process in the root directory. -/
def user : Current := ⟨(1, 1), (1, 1), 0, 0, []⟩

def noRead : Outside := ⟨fun _ _ _ => true, false, fun _ => Truncation.quiet, 1, 0⟩

theorem rootOnly_named {dev i : ℕ} {ks : List ℕ} (hks : Zones.IsPath ks)
    (hne : (rootOnly.zones dev).named i ks ≠ 0) : i = 1 ∧ ks = [0] := by
  have hpath := Zones.named_first (s := rootOnly.zones dev)
    (fun k _ hk₀ => if_neg fun hcon => hk₀ hcon.2) hks hne
  subst hpath
  refine ⟨by_contra fun hi => hne ?_, rfl⟩
  exact if_neg fun hcon => hi hcon.1

theorem rootOnly_inOrder : rootOnly.InOrder user where
  owned dev := by
    constructor
    · intro i ks hks hne
      obtain ⟨rfl, rfl⟩ := rootOnly_named hks hne
      exact ⟨le_refl 5, show 5 < 100 by decide⟩
    · intro i ks hks hne
      obtain ⟨rfl, rfl⟩ := rootOnly_named hks hne
      have hnamed : (rootOnly.zones dev).named 1 [0] = 5 := rfl
      have hplace : (rootOnly.zones dev).firstDataZone = 5 := rfl
      rw [hnamed, Zones.Marked, hplace]
      exact ⟨fun j => decide (j < 2), rfl, rfl⟩
    · intro i i' ks ks' hks hks' hne heq
      obtain ⟨rfl, rfl⟩ := rootOnly_named hks hne
      obtain ⟨rfl, rfl⟩ := rootOnly_named hks' (heq ▸ hne)
      exact ⟨rfl, rfl⟩
    · rintro bits hbits
      obtain rfl := Option.some.inj hbits
      rfl
  entries d b i hlisted hb hne hi hinode := by
    have hd : d = (1, 1) := by
      by_contra hcon
      have hnode : rootOnly.node d = ⟨0, 0, 0, 0, 0⟩ := if_neg hcon
      have hdir := hlisted.1
      rw [hnode] at hdir
      cases hdir
    subst hd
    obtain ⟨-, hpath⟩ := rootOnly_named (Zones.isPath_path hb) hne
    rw [hpath] at hinode ⊢
    have hword : (rootOnly.dirEntry 1 5 i).inode =
        [1, 0x2e, 0, 0, 0, 0, 0, 0, 1, 0x2e2e].getD (8 * i) 0 := rfl
    have hone : (rootOnly.dirEntry 1 5 i).inode = 1 := by
      change (rootOnly.dirEntry 1 5 i).inode ≠ 0 at hinode
      rw [hword] at hinode ⊢
      rcases i with _ | _ | i
      · rfl
      · rfl
      · rw [List.getD_eq_getElem?_getD, List.getElem?_eq_none (by
          simp only [List.length_cons, List.length_nil]
          omega)] at hinode
        exact absurd rfl hinode
    change rootOnly.Used (1, (rootOnly.dirEntry 1 5 i).inode)
    rw [hone]
    exact ⟨⟨_, rfl, rfl⟩, .inr (by decide)⟩
  mounted := nofun
  imount := nofun
  root := ⟨⟨_, rfl, rfl⟩, .inr (by decide)⟩
  pwd := ⟨⟨_, rfl, rfl⟩, .inr (by decide)⟩

end Volumes

end Fs
