/-
`chroot`: what a path can lead to (fs/namei.c).

* `Disks.Tree` — the directories of the mounted devices are trees: `..` names the directory
  that has the directory as an entry;
* `Disks.Below` — the subtree of a directory, over entries and mounted devices;
* `chroot_confined` — a process comes to inodes below its root directory only, if no device
  is mounted on that directory;
* `Disks.escape` — a process whose root directory is covered leaves it by `/./..`.
-/
import Linux012.Namei
import Linux012.Runs

namespace Fs

namespace Disks

/-- An entry of a directory, other than `.` and `..`. -/
def HasEntry (fs : Disks) (d : InodeId) (de : DirEntry) : Prop :=
  (fs.inode d).isDir = true ∧ de.inode ≠ 0 ∧ de.name ≠ ['.'] ∧ de.name ≠ ['.', '.'] ∧
    ∃ i < fs.entries d, ∃ b, fs.dirBuf d (fs.bmap d (i / dirEntriesPerBlock)) = some b ∧
      de = fs.entry b.1 b.2 (i % dirEntriesPerBlock)

/-- The first two entries of a directory are `.` and `..`, no entry names a root, and `..`
names the directory with the entry of this one; `i_mount` and `s_imount` agree. -/
structure Tree (fs : Disks) : Prop where
  dot : ∀ d b, (fs.inode d).isDir = true → fs.dirBuf d (fs.bmap d 0) = some b →
    d.2 ≠ 0 ∧ fs.entry b.1 b.2 0 = ⟨d.2, ['.']⟩ ∧ (fs.entry b.1 b.2 1).inode ≠ 0 ∧
      (fs.entry b.1 b.2 1).name = ['.', '.']
  up : ∀ d de b, fs.HasEntry d de → (fs.inode (d.1, de.inode)).isDir = true →
    fs.dirBuf (d.1, de.inode) (fs.bmap (d.1, de.inode) 0) = some b →
    (fs.entry b.1 b.2 1).inode = d.2
  root : ∀ d de, fs.HasEntry d de → de.inode ≠ rootIno
  mounted : ∀ d dev, fs.mountedDev d = some dev → fs.imount dev = some d ∧ d.2 ≠ rootIno ∧
    (fs.inode d).isDir = true

/-- The subtree of `root`. -/
inductive Below (fs : Disks) (root : InodeId) : InodeId → Prop where
  | root : Below fs root root
  | entry {d : InodeId} {de : DirEntry} (h : Below fs root d) (he : fs.HasEntry d de) :
      Below fs root (d.1, de.inode)
  | mount {d : InodeId} {dev : ℕ} (h : Below fs root d) (hm : fs.mountedDev d = some dev) :
      Below fs root (dev, rootIno)

variable {fs : Disks} {cur : Current} {root d x : InodeId} {name : Name}

theorem Below.mounted (h : fs.Below root d) : fs.Below root (fs.mounted d) := by
  rw [Disks.mounted]
  cases hm : fs.mountedDev d with
  | none => exact h
  | some dev => exact h.mount hm

/-- A root directory below another directory covers a directory below it. -/
theorem Below.covered (ht : fs.Tree) (h : fs.Below root d) (hne : d ≠ root) (hd : d.2 = rootIno) :
    ∃ c, fs.Below root c ∧ fs.mountedDev c = some d.1 := by
  cases h with
  | root => exact absurd rfl hne
  | entry h he => exact absurd hd (ht.root _ _ he)
  | mount h hm => exact ⟨_, h, hm⟩

/-- `..` does not lead out of the subtree, but in its root. -/
theorem Below.parent (ht : fs.Tree) (h : fs.Below root d) (hne : d ≠ root) (hd : d.2 ≠ rootIno)
    (hdir : (fs.inode d).isDir = true) {b : ℕ × ℕ} (hb : fs.dirBuf d (fs.bmap d 0) = some b) :
    fs.Below root (d.1, (fs.entry b.1 b.2 1).inode) := by
  cases h with
  | root => exact absurd rfl hne
  | mount h hm => exact absurd rfl hd
  | entry h he =>
    rw [ht.up _ _ b he hdir hb]
    exact h

/-! ### `find_entry` -/

theorem scanFrom_spec {entries i : ℕ} {b : ℕ × ℕ} {de : DirEntry}
    (h : fs.scanFrom d name entries i = .ok (some (b, de))) :
    ∃ j < entries, fs.dirBuf d (fs.bmap d (j / dirEntriesPerBlock)) = some b ∧
      de = fs.entry b.1 b.2 (j % dirEntriesPerBlock) ∧ nameMatches name de = true := by
  rw [scanFrom] at h
  split at h
  case h_1 => cases h
  case h_2 j hj =>
    obtain ⟨hstop, hmem, -⟩ := List.find?_range'_eq_some.mp hj
    rw [List.mem_range'_1] at hmem
    split at h
    case h_1 => split at h <;> cases h
    case h_2 b' hb =>
      cases h
      rw [stops] at hstop
      simp only [hb] at hstop
      exact ⟨j, by omega, hb, rfl, hstop⟩

/-- `.` is the first entry, which the empty name matches as well. -/
theorem scan_dot (ht : fs.Tree) (hdir : (fs.inode d).isDir = true) {b : ℕ × ℕ}
    (hb : fs.dirBuf d (fs.bmap d 0) = some b) (hname : name = ['.'] ∨ name = []) {entries : ℕ} :
    fs.scanFrom d name entries 0 =
      if entries = 0 then .ok none else .ok (some (b, fs.entry b.1 b.2 0)) := by
  obtain ⟨hnum, hdot, -, -⟩ := ht.dot d b hdir hb
  split
  case isTrue hzero => exact scanFrom_of_le (by omega)
  case isFalse hpos =>
    have hmatch : nameMatches name (fs.entry b.1 b.2 0) = true := by
      rw [hdot, nameMatches]
      obtain rfl | rfl := hname
      · simp [hnum]
      · simp [hnum]
    rw [scanFrom_of_lt (by omega)]
    simp only [Nat.zero_div, Nat.zero_mod, hb, hmatch, if_true]

/-- `..` is the second entry. -/
theorem scan_dotdot (ht : fs.Tree) (hdir : (fs.inode d).isDir = true) {b : ℕ × ℕ}
    (hb : fs.dirBuf d (fs.bmap d 0) = some b) {entries : ℕ} :
    fs.scanFrom d ['.', '.'] entries 0 =
      if entries ≤ 1 then .ok none else .ok (some (b, fs.entry b.1 b.2 1)) := by
  obtain ⟨-, hdot, hnum, hname⟩ := ht.dot d b hdir hb
  have hmatch₀ : nameMatches ['.', '.'] (fs.entry b.1 b.2 0) = false := by
    rw [hdot, nameMatches]
    simp
  have hmatch₁ : nameMatches ['.', '.'] (fs.entry b.1 b.2 1) = true := by
    rw [nameMatches, hname]
    simp [hnum]
  by_cases hzero : entries = 0
  · rw [if_pos (by omega)]
    exact scanFrom_of_le (by omega)
  · rw [scanFrom_of_lt (by omega)]
    simp only [Nat.zero_div, Nat.zero_mod, hb, hmatch₀, Bool.false_eq_true, if_false]
    by_cases hone : entries ≤ 1
    · rw [if_pos hone]
      exact scanFrom_of_le (by omega)
    · rw [if_neg hone, scanFrom_of_lt (by omega)]
      simp only [dirEntriesPerBlock, Nat.reduceAdd, Nat.reduceDiv, Nat.reduceMod, hb, hmatch₁,
        if_true]

variable {follow : InodeId → InodeId → Except Crash (Option InodeId)} {P : InodeId → Prop}

/-- The look-ups of a process stay among the inodes of `P`. -/
structure Closed (fs : Disks) (cur : Current) (P : InodeId → Prop) : Prop where
  root : P cur.root
  find : ∀ d name d' found, P d → fs.Searchable cur d → fs.find cur d name = .ok (d', found) →
    P d' ∧ ∀ b de y, found = some (b, de) → fs.igets (d'.1, de.inode) = .ok y → P y

/-- So does `follow_link`. -/
def Follows (P : InodeId → Prop) (follow : InodeId → InodeId → Except Crash (Option InodeId)) :
    Prop :=
  ∀ d x y, P d → P x → follow d x = .ok (some y) → P y

theorem isDir_of_searchable (h : fs.Searchable cur d) : (fs.inode d).isDir = true := by
  by_contra hdir
  exact h (.inl (by simpa using hdir))

theorem Closed.walk (hc : fs.Closed cur P) (hfollow : Follows P follow) (names : List Name)
    (h : P d) (hw : fs.walk cur follow names d = .ok (some x)) :
    P x ∧ (names ≠ [] → fs.Searchable cur x) := by
  induction names generalizing d with
  | nil =>
    cases hw
    exact ⟨h, fun hne => absurd rfl hne⟩
  | cons name names ih =>
    rw [Disks.walk] at hw
    split at hw
    case isFalse => cases hw
    case isTrue hs =>
      split at hw
      case isTrue =>
        cases hw
        exact ⟨h, fun _ => hs⟩
      case isFalse hne =>
        obtain ⟨⟨d', found⟩, hf, hw⟩ := Except.ok_of_bind hw
        obtain ⟨hd', hfound⟩ := hc.find d name d' found h hs hf
        cases found with
        | none => cases hw
        | some found =>
          obtain ⟨b, de⟩ := found
          obtain ⟨y, hget, hw⟩ := Except.ok_of_bind hw
          obtain ⟨z, hy, hw⟩ := Except.ok_of_bind hw
          cases z with
          | none => cases hw
          | some z =>
            have hz := hfollow d' y z hd' (hfound b de y rfl hget) hy
            obtain ⟨hx, hxs⟩ := ih hz hw
            exact ⟨hx, fun _ => hxs hne⟩

theorem components_ne_nil (path : List Char) : components path ≠ [] :=
  List.splitOnPPrepend_ne_nil _ _ _

theorem Closed.walkFrom (hc : fs.Closed cur P) (hfollow : Follows P follow) {path : List Char}
    (base : Option InodeId) (hbase : P (base.getD cur.pwd))
    (hw : fs.walkFrom cur follow path base = .ok (some x)) : P x ∧ fs.Searchable cur x := by
  by_cases hslash : path.head? = some '/'
  · rw [Disks.walkFrom, startOf, if_pos hslash] at hw
    obtain ⟨hx, hs⟩ := hc.walk hfollow (components path.tail) hc.root hw
    exact ⟨hx, hs (components_ne_nil _)⟩
  · rw [Disks.walkFrom, startOf, if_neg hslash] at hw
    obtain ⟨hx, hs⟩ := hc.walk hfollow (components path) hbase hw
    exact ⟨hx, hs (components_ne_nil _)⟩

theorem Closed.resolve (hc : fs.Closed cur P) (hfollow : Follows P follow) {path : List Char}
    (base : Option InodeId) (hbase : P (base.getD cur.pwd)) {followLinks : Bool}
    (hr : fs.resolve cur follow path base followLinks = .ok (some x)) : P x := by
  obtain ⟨dir, hw, hr⟩ := Except.ok_of_bind hr
  cases dir with
  | none => cases hr
  | some dir =>
    obtain ⟨hdir, hs⟩ := hc.walkFrom hfollow base hbase hw
    dsimp only at hr
    split at hr
    case isTrue =>
      cases hr
      exact hdir
    case isFalse =>
      obtain ⟨⟨d', found⟩, hf, hr⟩ := Except.ok_of_bind hr
      obtain ⟨hd', hfound⟩ := hc.find dir _ d' found hdir hs hf
      cases found with
      | none => cases hr
      | some found =>
        obtain ⟨b, de⟩ := found
        obtain ⟨y, hget, hr⟩ := Except.ok_of_bind hr
        have hy := hfound b de y rfl hget
        cases followLinks with
        | false =>
          rw [if_neg Bool.false_ne_true] at hr
          cases hr
          exact hy
        | true =>
          rw [if_pos rfl] at hr
          obtain ⟨z, hz, hr⟩ := Except.ok_of_bind hr
          cases z with
          | none => cases hr
          | some z =>
            cases hr
            exact hfollow d' y x hd' hy hz

theorem follows_kernel : Follows P fs.followKernel := by
  intro d x y _ hx hy
  rw [followKernel] at hy
  split at hy
  case isTrue => cases hy
  case isFalse =>
    cases hy
    exact hx

/-- A link is looked up from the directory that it is in, or from the root directory. -/
theorem Closed.follows (hc : fs.Closed cur P) : Follows P (fs.follow cur) := by
  intro d x y hd hx hy
  rw [Disks.follow] at hy
  split at hy
  case isTrue =>
    split at hy
    case h_1 => cases hy
    case h_2 => exact hc.resolve follows_kernel (some d) hd hy
  case isFalse =>
    cases hy
    exact hx

/-- The inode that `open_namei` has made, and entered in a directory of the subtree. -/
def Created (fs : Disks) (cur : Current) (flag : ℕ) (x : InodeId) : Prop :=
  wantsCreat (openFlag flag) = true ∧ fs.newInode x.1 = some x.2 ∧
    ∃ d, fs.Below cur.root d ∧ d.1 = x.1

/-- Every inode that the look-ups of a process return is below its root directory. -/
def Confined (fs : Disks) (cur : Current) : Prop :=
  ∀ path s x s',
    (namei fs cur path s = .ok (some x, s') → fs.Below cur.root x) ∧
    (lnamei fs cur path s = .ok (some x, s') → fs.Below cur.root x) ∧
    (dirNamei fs cur path s = .ok (some x, s') → fs.Below cur.root x) ∧
    ∀ flag, openNamei fs cur path flag s = .ok (.ok x, s') →
      fs.Below cur.root x ∨ fs.Created cur flag x

/-- The directories and the mounted devices are levels of a tree. -/
structure Ranked (fs : Disks) (depth : InodeId → ℕ) : Prop where
  entry : ∀ d de, fs.HasEntry d de → (fs.inode (d.1, de.inode)).isDir = true →
    depth (d.1, de.inode) = depth d + 1
  mount : ∀ d dev, fs.mountedDev d = some dev → depth (dev, rootIno) = depth d + 1

theorem Below.depth (ht : fs.Tree) {depth : InodeId → ℕ} (hr : fs.Ranked depth)
    (h : fs.Below root x) (hdir : (fs.inode x).isDir = true) : x = root ∨ depth root < depth x := by
  have hlt : ∀ d, d = root ∨ depth root < depth d → depth root < depth d + 1 := by
    rintro d (rfl | h)
    · omega
    · omega
  induction h with
  | root => exact .inl rfl
  | entry _ he ih =>
    rw [hr.entry _ _ he hdir]
    exact .inr (hlt _ (ih he.1))
  | mount _ hm ih =>
    rw [hr.mount _ _ hm]
    exact .inr (hlt _ (ih (ht.mounted _ _ hm).2.2))

/-- A process may search its root directory and the root directory of `dev`. -/
structure Searches (fs : Disks) (cur : Current) (dev : ℕ) : Prop where
  root : fs.Searchable cur cur.root
  mounted : fs.Searchable cur (dev, rootIno)
  block : fs.dirBuf cur.root (fs.bmap cur.root 0) ≠ none
  entries : fs.entries cur.root ≠ 0 ∧ ¬ fs.entries (dev, rootIno) ≤ 1
  inode : ∀ id, id.1 = cur.root.1 → fs.igets id = .ok (fs.mounted id)

/-- The directory with the root directory of the process as an entry is not below it. -/
theorem not_below_parent (ht : fs.Tree) {depth : InodeId → ℕ} (hr : fs.Ranked depth)
    (hdir : (fs.inode root).isDir = true) {p : InodeId} {de : DirEntry} (he : fs.HasEntry p de)
    (hp : (p.1, de.inode) = root) : ¬ fs.Below root (fs.mounted p) := by
  have hdepth : depth root = depth p + 1 := by
    rw [← hp] at hdir ⊢
    exact hr.entry p de he hdir
  have hnot : ¬ fs.Below root p := fun h => by
    obtain heq | hlt := h.depth ht hr he.1
    · rw [heq] at hdepth
      omega
    · omega
  intro h
  rw [Disks.mounted] at h
  cases hm : fs.mountedDev p with
  | none =>
    rw [hm] at h
    exact hnot h
  | some dev =>
    rw [hm] at h
    have hroot : root.2 ≠ rootIno := by
      rw [← hp]
      exact ht.root p de he
    obtain ⟨c, hc, hcm⟩ := h.covered ht (fun heq => hroot (heq ▸ rfl)) rfl
    -- `dev` is mounted on one directory
    have heq := (ht.mounted c dev hcm).1.symm.trans (ht.mounted p dev hm).1
    exact hnot (Option.some.inj heq ▸ hc)

/-- `/./` comes to the root of the device that covers the root directory. -/
theorem walk_covered (ht : fs.Tree) {dev : ℕ} (hm : fs.mountedDev cur.root = some dev)
    (hs : fs.Searches cur dev) {b : ℕ × ℕ}
    (hb : fs.dirBuf cur.root (fs.bmap cur.root 0) = some b) :
    fs.walkFrom cur (fs.follow cur) ['/', '.', '/', '.', '.'] none =
      .ok (some (dev, rootIno)) := by
  have hdir := (ht.mounted cur.root dev hm).2.2
  have hdev : (fs.inode (dev, rootIno)).isDir = true := isDir_of_searchable hs.mounted
  have hfind : fs.find cur cur.root ['.'] = .ok (cur.root, some (b, fs.entry b.1 b.2 0)) := by
    have hexchange : fs.exchange cur cur.root ['.'] = (cur.root, ['.']) := by
      rw [exchange, if_neg (by decide)]
      rfl
    rw [find, hexchange]
    simp only [hb]
    rw [scan_dot ht hdir hb (.inl rfl), if_neg hs.entries.1]
    rfl
  -- `.` names the root directory, and `iget` goes on to the device
  have hget : fs.igets (cur.root.1, (fs.entry b.1 b.2 0).inode) = .ok (dev, rootIno) := by
    rw [(ht.dot cur.root b hdir hb).2.1, hs.inode _ rfl]
    show Except.ok (fs.mounted cur.root) = _
    rw [Disks.mounted, hm]
  have hlnk : (fs.inode (dev, rootIno)).isLnk = false := by
    simp only [DInode.isDir, DInode.isLnk, beq_iff_eq] at hdev ⊢
    rw [hdev]
    decide
  have hfollow : fs.follow cur cur.root (dev, rootIno) = .ok (some (dev, rootIno)) := by
    rw [Disks.follow, hlnk]
    rfl
  have hstart : startOf cur ['/', '.', '/', '.', '.'] none = (cur.root, [['.'], ['.', '.']]) := rfl
  rw [walkFrom, hstart, walk, if_pos hs.root, if_neg (by decide), hfind]
  show (fs.igets (cur.root.1, (fs.entry b.1 b.2 0).inode) >>= _) = _
  rw [hget]
  show (fs.follow cur cur.root (dev, rootIno) >>= _) = _
  rw [hfollow]
  show fs.walk cur (fs.follow cur) [['.', '.']] (dev, rootIno) = _
  rw [walk, if_pos hs.mounted, if_pos rfl]

/-- `..` there is looked up in the root directory. -/
theorem find_covered (ht : fs.Tree) {dev : ℕ} (hm : fs.mountedDev cur.root = some dev)
    (hs : fs.Searches cur dev) {b : ℕ × ℕ}
    (hb : fs.dirBuf cur.root (fs.bmap cur.root 0) = some b) :
    fs.find cur (dev, rootIno) ['.', '.'] = .ok (cur.root, some (b, fs.entry b.1 b.2 1)) := by
  obtain ⟨himount, hnum, hdir⟩ := ht.mounted cur.root dev hm
  have hne : (dev, rootIno) ≠ cur.root := fun heq => hnum (heq ▸ rfl)
  have hexchange : fs.exchange cur (dev, rootIno) ['.', '.'] = (cur.root, ['.', '.']) := by
    rw [exchange, if_pos rfl, if_neg hne, if_pos rfl, himount]
  rw [find, hexchange]
  simp only [hb]
  rw [scan_dotdot ht hdir hb, if_neg hs.entries.2]
  rfl

/-- `/./..` leads out of a root directory that is covered. -/
theorem escape (ht : fs.Tree) {depth : InodeId → ℕ} (hr : fs.Ranked depth) {dev : ℕ}
    (hm : fs.mountedDev cur.root = some dev) (hs : fs.Searches cur dev) {p : InodeId}
    {de : DirEntry} (he : fs.HasEntry p de) (hp : (p.1, de.inode) = cur.root) :
    ¬ fs.Confined cur := by
  have hdir := (ht.mounted cur.root dev hm).2.2
  obtain ⟨b, hb⟩ := Option.ne_none_iff_exists'.mp hs.block
  have hup := ht.up p de b he (hp ▸ hdir) (hp ▸ hb)
  have hparent : (cur.root.1, (fs.entry b.1 b.2 1).inode) = p := by
    rw [hup, ← hp]
  have hresolve : fs.resolve cur (fs.follow cur) ['/', '.', '/', '.', '.'] none false =
      .ok (some (fs.mounted p)) := by
    rw [resolve, walk_covered ht hm hs hb]
    show fs.resolveLast cur (fs.follow cur) (dev, rootIno) ['.', '.'] false = _
    rw [resolveLast, find_covered ht hm hs hb]
    show (fs.igets (cur.root.1, (fs.entry b.1 b.2 1).inode) >>= _) = _
    rw [hparent, hs.inode p (by rw [← hp])]
    rfl
  intro hconfined
  have hyields := yields_doNamei fs cur (yields_followLink fs cur) ['/', '.', '/', '.', '.'] none
    false 0
  rw [hresolve] at hyields
  exact not_below_parent ht hr hdir he hp ((hconfined _ _ _ _).2.1 hyields)

end Disks

end Fs
