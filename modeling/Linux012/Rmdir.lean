/-
Removing a directory (`empty_dir` and `sys_rmdir` of fs/namei.c).

* `emptyDir`, `sysRmdir` — the calls, over the reference counts of inodes and buffers;
* `Disks.Empty` — a directory that may be removed;
* `rmdir_restores` — `empty_dir` and `sys_rmdir` come to what they should and leave every count
  as it was just if the directory that is looked through neither has a wrong header
  (`Disks.Leaks`) nor a hole that is come to (`Disks.MeetsHole`);
* `rmdir_leak_hole` — a directory with each.

Design notes: what is written, and the blocks and the inode that the last `iput` frees, are left
out.  A buffer that is released twice takes a reference of someone else, or is a panic.
-/
import Linux012.Files

namespace Fs

def ENOTEMPTY : ℕ := 39

/-- `S_ISVTX`. -/
def DInode.isVtx (inode : DInode) : Bool := inode.mode &&& 0o1000 != 0

/-! ### The calls -/

/-- The loop of `empty_dir`: entry `nr` is number `k` of buffer `bh`. -/
def emptyLoop (fs : Disks) (dir : InodeId) (len : ℕ) : ℕ → ℕ → ℕ × ℕ → ℕ → Namei Bool
  | 0, _, bh, _ => do
    brelse (some bh)
    pure true
  | fuel + 1, nr, bh, k =>
    if len ≤ nr then do
      brelse (some bh)
      pure true
    else if dirEntriesPerBlock ≤ k then do
      brelse (some bh)
      -- the buffer is still `bh` if there is no block
      if fs.bmap dir (nr / dirEntriesPerBlock) = 0 then
        emptyLoop fs dir len fuel (nr + dirEntriesPerBlock) bh k
      else do
        let bh ← bread fs dir.1 (fs.bmap dir (nr / dirEntriesPerBlock))
        match bh with
        | none => pure false
        | some bh =>
          if (fs.entry bh.1 bh.2 0).inode ≠ 0 then do
            brelse (some bh)
            pure false
          else emptyLoop fs dir len fuel (nr + 1) bh 1
    else if (fs.entry bh.1 bh.2 k).inode ≠ 0 then do
      brelse (some bh)
      pure false
    else emptyLoop fs dir len fuel (nr + 1) bh (k + 1)

/-- The first two entries are `.` and `..`. -/
def Disks.GoodHeader (fs : Disks) (dir : InodeId) (b : ℕ × ℕ) : Prop :=
  (fs.entry b.1 b.2 0).inode = dir.2 ∧ (fs.entry b.1 b.2 1).inode ≠ 0 ∧
    (fs.entry b.1 b.2 0).name = ['.'] ∧ (fs.entry b.1 b.2 1).name = ['.', '.']

instance (fs : Disks) (dir : InodeId) (b : ℕ × ℕ) : Decidable (fs.GoodHeader dir b) :=
  inferInstanceAs (Decidable (_ ∧ _))

/-- `empty_dir`. -/
def emptyDir (fs : Disks) (dir : InodeId) : Namei Bool :=
  if fs.entries dir < 2 ∨ fs.bmap dir 0 = 0 then pure false
  else do
    let bh ← bread fs dir.1 (fs.bmap dir 0)
    match bh with
    | none => pure false
    | some bh =>
      if fs.GoodHeader dir bh then emptyLoop fs dir (fs.entries dir) (fs.entries dir) 2 bh 2
      else pure false

/-- `sys_rmdir`, up to `iget`: an error, or the directory, the buffer of the entry and the
inode. -/
def rmdirTarget (fs : Disks) (cur : Current) (path : List Char) :
    Namei (Except ℕ (InodeId × (ℕ × ℕ) × InodeId)) := do
  let dir ← dirNamei fs cur path
  match dir with
  | none => pure (.error ENOENT)
  | some dir =>
    if basename path = [] then do
      iput dir
      pure (.error ENOENT)
    else if cur.permission dir (fs.inode dir) MAY_WRITE = false then do
      iput dir
      pure (.error EPERM)
    else do
      let (dir, found) ← findEntry fs cur dir (basename path)
      match found with
      | none => do
        iput dir
        pure (.error ENOENT)
      | some (b, de) => do
        let inode ← iget fs (dir.1, de.inode)
        pure (.ok (dir, b, inode))

/-- `sys_rmdir`, after `iget`. -/
def rmdirInode (fs : Disks) (cur : Current) (dir : InodeId) (b : ℕ × ℕ) (inode : InodeId) :
    Namei (Except ℕ InodeId) := do
  let count ← (get : Namei (Ref → ℕ))
  if (fs.inode dir).isVtx ∧ cur.euid ≠ 0 ∧ (fs.inode inode).uid ≠ cur.euid then do
    iput dir
    iput inode
    brelse (some b)
    pure (.error EPERM)
  else if inode.1 ≠ dir.1 ∨ 1 < count (.inode inode) then do
    iput dir
    iput inode
    brelse (some b)
    pure (.error EPERM)
  else if inode = dir then do
    iput inode
    iput dir
    brelse (some b)
    pure (.error EPERM)
  else if (fs.inode inode).isDir = false then do
    iput inode
    iput dir
    brelse (some b)
    pure (.error ENOTDIR)
  else do
    let empty ← emptyDir fs inode
    if empty = false then do
      iput inode
      iput dir
      brelse (some b)
      pure (.error ENOTEMPTY)
    else do
      brelse (some b)
      iput dir
      iput inode
      pure (.ok inode)

/-- `sys_rmdir`: an error, or the inode that is removed. -/
def sysRmdir (fs : Disks) (cur : Current) (path : List Char) : Namei (Except ℕ InodeId) := do
  let target ← rmdirTarget fs cur path
  match target with
  | .error errno => pure (.error errno)
  | .ok (dir, b, inode) => rmdirInode fs cur dir b inode

/-! ### What they are to come to -/

namespace Disks

variable (fs : Disks) (cur : Current)

/-- Entry `i` is in a block that can be read, and not in use. -/
def isFree (dir : InodeId) (i : ℕ) : Bool :=
  match fs.dirBuf dir (fs.bmap dir (i / dirEntriesPerBlock)) with
  | none => false
  | some b => (fs.entry b.1 b.2 (i % dirEntriesPerBlock)).inode == 0

/-- The entries from `i` on are free, where there are blocks. -/
def EmptyFrom (dir : InodeId) (i : ℕ) : Prop :=
  ∀ j < fs.entries dir, i ≤ j → fs.bmap dir (j / dirEntriesPerBlock) ≠ 0 → fs.isFree dir j = true

instance (dir : InodeId) (i : ℕ) : Decidable (fs.EmptyFrom dir i) :=
  inferInstanceAs (Decidable (∀ j < fs.entries dir, _))

/-- The first block has the entries `.` and `..`. -/
def HasHeader (dir : InodeId) : Prop :=
  2 ≤ fs.entries dir ∧ ∃ b ∈ fs.dirBuf dir (fs.bmap dir 0), fs.GoodHeader dir b

instance (dir : InodeId) : Decidable (fs.HasHeader dir) := inferInstanceAs (Decidable (_ ∧ _))

/-- The directory is well formed, and no entry after the first two is in use. -/
def Empty (dir : InodeId) : Prop := fs.HasHeader dir ∧ fs.EmptyFrom dir 2

instance (dir : InodeId) : Decidable (fs.Empty dir) := inferInstanceAs (Decidable (_ ∧ _))

/-- The first block can be read, and does not begin with `.` and `..`. -/
def Leaks (dir : InodeId) : Prop :=
  2 ≤ fs.entries dir ∧ ∃ b ∈ fs.dirBuf dir (fs.bmap dir 0), ¬ fs.GoodHeader dir b

/-- There is no block for entry `64 * k`, and the entries from `i` up to there are free. -/
def HoleFrom (dir : InodeId) (i : ℕ) : Prop :=
  ∃ k, i ≤ dirEntriesPerBlock * k ∧ dirEntriesPerBlock * k < fs.entries dir ∧
    fs.bmap dir k = 0 ∧ ∀ j, i ≤ j → j < dirEntriesPerBlock * k → fs.isFree dir j = true

/-- The loop comes to a hole. -/
def MeetsHole (dir : InodeId) : Prop := fs.HasHeader dir ∧ fs.HoleFrom dir 2

/-- `rmdirTarget`. -/
def target (path : List Char) : Except Crash (Except ℕ (InodeId × (ℕ × ℕ) × InodeId)) := do
  let dir ← fs.walkFrom cur (fs.follow cur) path none
  match dir with
  | none => .ok (.error ENOENT)
  | some dir =>
    if basename path = [] then .ok (.error ENOENT)
    else if cur.permission dir (fs.inode dir) MAY_WRITE = false then .ok (.error EPERM)
    else do
      let r ← fs.find cur dir (basename path)
      match r.2 with
      | none => .ok (.error ENOENT)
      | some (b, de) => do
        let inode ← fs.igets (r.1.1, de.inode)
        .ok (.ok (r.1, b, inode))

/-- An inode that the caller may remove, where `count` are the references of others. -/
def MayRemove (count : Ref → ℕ) (dir inode : InodeId) : Prop :=
  ¬ ((fs.inode dir).isVtx ∧ cur.euid ≠ 0 ∧ (fs.inode inode).uid ≠ cur.euid) ∧
    inode.1 = dir.1 ∧ count (.inode inode) = 0 ∧ inode ≠ dir

instance (count : Ref → ℕ) (dir inode : InodeId) :
    Decidable (fs.MayRemove cur count dir inode) := inferInstanceAs (Decidable (_ ∧ _))

/-- `rmdirInode`. -/
def removes (count : Ref → ℕ) (dir inode : InodeId) : Except ℕ InodeId :=
  if ¬ fs.MayRemove cur count dir inode then .error EPERM
  else if (fs.inode inode).isDir = false then .error ENOTDIR
  else if ¬ fs.Empty inode then .error ENOTEMPTY
  else .ok inode

/-- `sys_rmdir`. -/
def rmdirs (path : List Char) (count : Ref → ℕ) : Except Crash (Except ℕ InodeId) :=
  (fs.target cur path).map fun target =>
    target.bind fun t => fs.removes cur count t.1 t.2.2

/-- `sys_rmdir` calls `empty_dir`. -/
def Checks (path : List Char) (count : Ref → ℕ) (inode : InodeId) : Prop :=
  ∃ dir b, fs.target cur path = .ok (.ok (dir, b, inode)) ∧
    fs.MayRemove cur count dir inode ∧ (fs.inode inode).isDir = true

end Disks

section

open Owning (Yields)

variable {fs : Disks} {cur : Current} {dir : InodeId} {len i k : ℕ} {b : ℕ × ℕ} {s s' : Ref → ℕ}
  {v : Bool}

/-! ### The loop of `empty_dir` -/

theorem yields_brelse {α : Type} (b : ℕ × ℕ) (a : α) :
    Yields (do
      brelse (some b)
      pure a) (bref b) (.ok a) fun _ => 0 :=
  Yields.of_eq (Yields.bind_drop (.pure rfl)) (add_zero _).symm

theorem block_ne_zero {block : ℕ} (h : fs.dirBuf dir block = some b) : block ≠ 0 := fun hzero => by
  rw [hzero, Disks.dirBuf, if_pos (.inl rfl)] at h
  cases h

theorem emptyFrom_of_le (h : fs.entries dir ≤ i) : fs.EmptyFrom dir i := fun j hj hij => by omega

theorem emptyFrom_of_lt (h : i < fs.entries dir)
    (hb : fs.dirBuf dir (fs.bmap dir (i / dirEntriesPerBlock)) = some b) :
    fs.EmptyFrom dir i ↔ (fs.entry b.1 b.2 (i % dirEntriesPerBlock)).inode = 0 ∧
      fs.EmptyFrom dir (i + 1) := by
  have hfree : fs.isFree dir i = true ↔ (fs.entry b.1 b.2 (i % dirEntriesPerBlock)).inode = 0 := by
    rw [Disks.isFree, hb]
    exact beq_iff_eq
  rw [← hfree]
  constructor
  · intro hempty
    exact ⟨hempty i h (Nat.le_refl i) (block_ne_zero hb), fun j hj hij => hempty j hj (by omega)⟩
  · rintro ⟨hi, hempty⟩ j hj hij hne
    rcases Nat.eq_or_lt_of_le hij with rfl | hlt
    · exact hi
    · exact hempty j hj hlt hne

/-- A block that cannot be read is not empty. -/
theorem not_emptyFrom (h : i < fs.entries dir)
    (hmap : fs.bmap dir (i / dirEntriesPerBlock) ≠ 0)
    (hb : fs.dirBuf dir (fs.bmap dir (i / dirEntriesPerBlock)) = none) : ¬ fs.EmptyFrom dir i :=
  fun hempty => by
    have hi := hempty i h (Nat.le_refl i) hmap
    rw [Disks.isFree, hb] at hi
    cases hi

/-- Without a hole on its way the loop looks through the entries. -/
theorem yields_emptyLoop (fuel : ℕ) (hfuel : fs.entries dir ≤ fuel + i) (hb : AtEntry fs dir i b k)
    (hhole : ¬ fs.HoleFrom dir i) :
    Yields (emptyLoop fs dir (fs.entries dir) fuel i b k) (bref b)
      (.ok (decide (fs.EmptyFrom dir i))) fun _ => 0 := by
  induction fuel generalizing i b k with
  | zero =>
    rw [emptyLoop, decide_eq_true (emptyFrom_of_le (by omega))]
    exact yields_brelse b true
  | succ fuel ih =>
    rw [emptyLoop]
    by_cases hle : fs.entries dir ≤ i
    · rw [if_pos hle, decide_eq_true (emptyFrom_of_le hle)]
      exact yields_brelse b true
    · rw [if_neg hle]
      have hlt : i < fs.entries dir := by omega
      -- an entry of a buffer
      have hcheck : ∀ b k, k < dirEntriesPerBlock → k = i % dirEntriesPerBlock →
          fs.dirBuf dir (fs.bmap dir (i / dirEntriesPerBlock)) = some b →
          Yields (if (fs.entry b.1 b.2 k).inode ≠ 0 then do
              brelse (some b)
              pure false
            else emptyLoop fs dir (fs.entries dir) fuel (i + 1) b (k + 1)) (bref b)
            (.ok (decide (fs.EmptyFrom dir i))) fun _ => 0 := fun b k hk hki hbuf => by
        rw [hki]
        by_cases hfree : (fs.entry b.1 b.2 (i % dirEntriesPerBlock)).inode = 0
        · rw [if_neg (not_not.mpr hfree)]
          have hnext : ¬ fs.HoleFrom dir (i + 1) := by
            rintro ⟨m, him, hm, hmap, hall⟩
            refine hhole ⟨m, by omega, hm, hmap, fun j hij hj => ?_⟩
            rcases Nat.eq_or_lt_of_le hij with rfl | hij
            · rw [Disks.isFree, hbuf]
              exact beq_iff_eq.mpr hfree
            · exact hall j hij hj
          have hrest := ih (by omega) (.next hk hki hbuf) hnext
          rw [hki] at hrest
          have heq : decide (fs.EmptyFrom dir i) = decide (fs.EmptyFrom dir (i + 1)) := by
            rw [decide_eq_decide, emptyFrom_of_lt hlt hbuf, and_iff_right hfree]
          rw [heq]
          exact hrest
        · rw [if_pos hfree, decide_eq_false fun h => hfree ((emptyFrom_of_lt hlt hbuf).mp h).1]
          exact yields_brelse b false
      obtain ⟨hk, hki, hbuf⟩ | ⟨hk, hi⟩ := hb
      · rw [if_neg (Nat.not_le.mpr hk)]
        exact hcheck b k hk hki hbuf
      · -- the next block
        rw [hk, if_pos (Nat.le_refl _)]
        refine Yields.of_eq (Yields.bind_drop ?_) (add_zero _).symm
        have hmap : fs.bmap dir (i / dirEntriesPerBlock) ≠ 0 := fun hzero => by
          refine hhole ⟨i / dirEntriesPerBlock, ?_, ?_, hzero, fun j hij hj => ?_⟩
          · exact (Nat.mul_div_cancel' (Nat.dvd_of_mod_eq_zero hi)).ge
          · exact (Nat.mul_div_le i _).trans_lt hlt
          · have := Nat.mul_div_le i dirEntriesPerBlock
            omega
        rw [if_neg hmap]
        have hread := yields_dirBlock fs dir (fs.bmap dir (i / dirEntriesPerBlock))
        rw [dirBlock, if_neg hmap] at hread
        refine hread.bind_ok ?_
        cases hbuf : fs.dirBuf dir (fs.bmap dir (i / dirEntriesPerBlock)) with
        | none =>
          rw [decide_eq_false (not_emptyFrom hlt hmap hbuf)]
          exact .pure rfl
        | some b' => exact hcheck b' 0 (by decide) hi.symm hbuf

variable {α : Type} {m : Namei α} {r : α × (Ref → ℕ)}

theorem brelse_bind (s : Ref → ℕ) : (brelse (some b) >>= fun _ => m) (s + bref b) = m s :=
  Owning.drop_bind s

theorem of_brelse (h : (brelse (some b) >>= fun _ => m) s = .ok r) :
    ∃ s₁, s = s₁ + bref b ∧ m s₁ = .ok r :=
  Owning.of_drop h

theorem bread_bind {block : ℕ} (hblock : block ≠ 0) (k : Option (ℕ × ℕ) → Namei α)
    (s : Ref → ℕ) : (bread fs dir.1 block >>= k) s =
      k (fs.dirBuf dir block) (s + brefs (fs.dirBuf dir block)) := by
  have hread := yields_dirBlock fs dir block s
  rw [dirBlock, if_neg hblock, add_zero] at hread
  rw [Owning.bind_apply, hread]
  rfl

/-- The loop releases the buffer once at least, and all others that it reads. -/
theorem emptyLoop_le (fuel : ℕ) (h : emptyLoop fs dir len fuel i b k s = .ok (v, s')) :
    s' + bref b ≤ s := by
  have hend : ∀ {v' : Bool} {b : ℕ × ℕ} {s : Ref → ℕ},
      (brelse (some b) >>= fun _ => (pure v' : Namei Bool)) s = .ok (v, s') → s' + bref b ≤ s := by
    intro v' b s h
    obtain ⟨s₁, hs, h⟩ := of_brelse h
    cases h
    exact hs.ge
  induction fuel generalizing i b k s with
  | zero => exact hend h
  | succ fuel ih =>
    rw [emptyLoop] at h
    split at h
    case isTrue => exact hend h
    case isFalse =>
      split at h
      case isTrue =>
        obtain ⟨s₁, hs, h⟩ := of_brelse h
        have hle : s' ≤ s₁ := by
          split at h
          case isTrue => exact fun x => Nat.le_of_add_right_le (ih h x)
          case isFalse hmap =>
            rw [bread_bind hmap] at h
            cases hbuf : fs.dirBuf dir (fs.bmap dir (i / dirEntriesPerBlock)) with
            | none =>
              rw [hbuf] at h
              cases h
              exact le_refl _
            | some b' =>
              rw [hbuf] at h
              have hb' : s' + bref b' ≤ s₁ + bref b' := by
                dsimp only at h
                split at h
                case isTrue => exact hend h
                case isFalse => exact ih h
              exact fun x => Nat.le_of_add_le_add_right (hb' x)
        rw [hs]
        exact fun x => Nat.add_le_add_right (hle x) _
      case isFalse =>
        split at h
        case isTrue => exact hend h
        case isFalse => exact ih h

/-- At a hole a buffer is released that the loop does not have. -/
theorem emptyLoop_hole (fuel : ℕ) (hfuel : fs.entries dir ≤ fuel + i) (hb : AtEntry fs dir i b k)
    (hhole : fs.HoleFrom dir i)
    (h : emptyLoop fs dir (fs.entries dir) fuel i b k (s + bref b) = .ok (v, s')) :
    ∃ x, s' + bref x ≤ s := by
  obtain ⟨m, him, hm, hmap, hfree⟩ := hhole
  induction fuel generalizing i b k s with
  | zero => omega
  | succ fuel ih =>
    rw [emptyLoop, if_neg (by omega)] at h
    -- an entry of a buffer is free, and before the hole
    have hcheck : ∀ b k, ∀ s : Ref → ℕ, k < dirEntriesPerBlock → k = i % dirEntriesPerBlock →
        fs.dirBuf dir (fs.bmap dir (i / dirEntriesPerBlock)) = some b →
        (if (fs.entry b.1 b.2 k).inode ≠ 0 then do
            brelse (some b)
            pure false
          else emptyLoop fs dir (fs.entries dir) fuel (i + 1) b (k + 1)) (s + bref b) =
          .ok (v, s') → ∃ x, s' + bref x ≤ s := fun b k s hk hki hbuf h => by
      have hlt : i < dirEntriesPerBlock * m := by
        refine Nat.lt_of_le_of_ne him fun heq => block_ne_zero hbuf ?_
        rw [heq, Nat.mul_div_cancel_left m (by decide), hmap]
      have hi := hfree i (Nat.le_refl i) hlt
      rw [Disks.isFree, hbuf] at hi
      have hzero : (fs.entry b.1 b.2 k).inode = 0 := by
        rw [hki]
        exact beq_iff_eq.mp hi
      rw [if_neg (not_not.mpr hzero)] at h
      exact ih (by omega) (.next hk hki hbuf) h (by omega) fun j hij hj => hfree j (by omega) hj
    obtain ⟨hk, hki, hbuf⟩ | ⟨hk, hi⟩ := hb
    · rw [if_neg (Nat.not_le.mpr hk)] at h
      exact hcheck b k s hk hki hbuf h
    · rw [hk, if_pos (Nat.le_refl _), brelse_bind] at h
      split at h
      case isTrue => exact ⟨b, emptyLoop_le fuel h⟩
      case isFalse hne =>
        rw [bread_bind hne] at h
        cases hbuf : fs.dirBuf dir (fs.bmap dir (i / dirEntriesPerBlock)) with
        | none =>
          -- it would be free
          have hlt : i < dirEntriesPerBlock * m := by
            refine Nat.lt_of_le_of_ne him fun heq => hne ?_
            rw [heq, Nat.mul_div_cancel_left m (by decide), hmap]
          have hi := hfree i (Nat.le_refl i) hlt
          rw [Disks.isFree, hbuf] at hi
          cases hi
        | some b' =>
          rw [hbuf] at h
          exact hcheck b' 0 s (by decide) hi.symm hbuf h

/-! ### `empty_dir` -/

/-- `empty_dir` reads the first block. -/
theorem emptyDir_apply (s : Ref → ℕ) : emptyDir fs dir s =
    if fs.entries dir < 2 then .ok (false, s)
    else match fs.dirBuf dir (fs.bmap dir 0) with
      | none => .ok (false, s)
      | some b =>
        if fs.GoodHeader dir b then
          emptyLoop fs dir (fs.entries dir) (fs.entries dir) 2 b 2 (s + bref b)
        else .ok (false, s + bref b) := by
  rw [emptyDir]
  by_cases hlen : fs.entries dir < 2
  · rw [if_pos (.inl hlen), if_pos hlen]
    rfl
  · rw [if_neg hlen]
    by_cases hmap : fs.bmap dir 0 = 0
    · rw [if_pos (.inr hmap), hmap, Disks.dirBuf, if_pos (.inl rfl)]
      rfl
    · rw [if_neg (by tauto), bread_bind hmap]
      cases hbuf : fs.dirBuf dir (fs.bmap dir 0) with
      | none => rfl
      | some b =>
        dsimp only
        split
        case isTrue => rfl
        case isFalse => rfl

/-- `empty_dir` says whether the directory is empty, and leaves the counts as they were, just
if its header is not wrong and it comes to no hole. -/
theorem emptyDir_iff (fs : Disks) (dir : InodeId) (s : Ref → ℕ) :
    emptyDir fs dir s = .ok (decide (fs.Empty dir), s) ↔ ¬ fs.Leaks dir ∧ ¬ fs.MeetsHole dir := by
  rw [emptyDir_apply]
  by_cases hlen : fs.entries dir < 2
  · rw [if_pos hlen, decide_eq_false fun h => absurd h.1.1 (by omega)]
    exact iff_of_true rfl ⟨fun h => absurd h.1 (by omega), fun h => absurd h.1.1 (by omega)⟩
  · rw [if_neg hlen]
    cases hbuf : fs.dirBuf dir (fs.bmap dir 0) with
    | none =>
      have hhead : ¬ fs.HasHeader dir := by
        rintro ⟨-, b, hb, -⟩
        rw [hbuf] at hb
        cases hb
      rw [decide_eq_false fun h => hhead h.1]
      refine iff_of_true rfl ⟨?_, fun h => hhead h.1⟩
      rintro ⟨-, b, hb, -⟩
      rw [hbuf] at hb
      cases hb
    | some b =>
      have hat : AtEntry fs dir 2 b 2 := .inl ⟨by decide, rfl, hbuf⟩
      dsimp only
      by_cases hgood : fs.GoodHeader dir b
      · have hhead : fs.HasHeader dir := ⟨by omega, b, hbuf, hgood⟩
        have hleak : ¬ fs.Leaks dir := by
          rintro ⟨-, b', hb', hbad⟩
          obtain rfl : b = b' := Option.some.inj (hbuf.symm.trans hb')
          exact hbad hgood
        rw [if_pos hgood, and_iff_right hleak]
        by_cases hhole : fs.HoleFrom dir 2
        · refine iff_of_false (fun h => ?_) fun h => h ⟨hhead, hhole⟩
          obtain ⟨x, hx⟩ := emptyLoop_hole (fs.entries dir) (by omega) hat hhole h
          have hlt : (s + bref x) (.buffer x.1 x.2) ≤ s (.buffer x.1 x.2) := hx _
          rw [Pi.add_apply, bref, Pi.single_eq_same] at hlt
          omega
        · refine iff_of_true ?_ fun h => hhole h.2
          have hloop := yields_emptyLoop (fs.entries dir) (by omega) hat hhole s
          have heq : decide (fs.Empty dir) = decide (fs.EmptyFrom dir 2) := by
            rw [decide_eq_decide, Disks.Empty, and_iff_right hhead]
          rw [hloop, heq]
          rfl
      · rw [if_neg hgood]
        refine iff_of_false (fun h => ?_) fun h => h.1 ⟨by omega, b, hbuf, hgood⟩
        have hs : s + bref b = s := congrArg Prod.snd (Except.ok.inj h)
        have hb : (s + bref b) (.buffer b.1 b.2) = s (.buffer b.1 b.2) := by rw [hs]
        rw [Pi.add_apply, bref, Pi.single_eq_same] at hb
        omega

/-! ### `sys_rmdir` -/

/-- The references of a call that is to remove an inode. -/
def targetRefs : Except ℕ (InodeId × (ℕ × ℕ) × InodeId) → Ref → ℕ
  | .error _ => 0
  | .ok (dir, b, inode) => iref inode + (iref dir + bref b)

theorem yields_rmdirTarget (fs : Disks) (cur : Current) (path : List Char) :
    Yields (rmdirTarget fs cur path) 0 (fs.target cur path) targetRefs := by
  have hput : ∀ (d : InodeId) (errno : ℕ), Yields (do
      iput d
      pure (.error errno : Except ℕ (InodeId × (ℕ × ℕ) × InodeId))) (iref d)
      (.ok (.error errno)) targetRefs := fun d errno =>
    Yields.of_eq (Yields.bind_drop (.pure rfl)) (add_zero _).symm
  refine Yields.bind (yields_getDir (yields_followLink fs cur) path none) fun dir _ => ?_
  cases dir with
  | none => exact .pure rfl
  | some dir =>
    refine Yields.ite (fun _ => hput dir ENOENT) fun _ => ?_
    refine Yields.ite (fun _ => hput dir EPERM) fun _ => ?_
    refine Yields.bind (yields_findEntry fs cur dir (basename path)) fun r _ => ?_
    obtain ⟨d, found⟩ := r
    cases found with
    | none => exact Yields.of_eq (hput d ENOENT) (add_zero _)
    | some found =>
      obtain ⟨b, de⟩ := found
      have hget := (yields_iget fs (d.1, de.inode)).frame (iref d + bref b)
      rw [zero_add] at hget
      exact Yields.bind hget fun x _ => .pure rfl

/-- Three references are given back. -/
theorem puts {α : Type} (x y z : Ref) (a : α) (s : Ref → ℕ) :
    (do
      Owning.drop Crash.panic x
      Owning.drop .panic y
      Owning.drop .panic z
      pure a : Namei α) (s + (Pi.single x 1 + Pi.single y 1 + Pi.single z 1)) = .ok (a, s) := by
  rw [show s + (Pi.single x 1 + Pi.single y 1 + Pi.single z 1) =
    s + Pi.single z 1 + Pi.single y 1 + Pi.single x 1 by abel]
  exact (Owning.drop_bind _).trans ((Owning.drop_bind _).trans (Owning.drop_bind s))

theorem of_puts {α : Type} {x y z : Ref} {a a' : α} {s s' : Ref → ℕ}
    (h : (do
      Owning.drop Crash.panic x
      Owning.drop .panic y
      Owning.drop .panic z
      pure a : Namei α) s = .ok (a', s')) :
    a' = a ∧ s = s' + (Pi.single x 1 + Pi.single y 1 + Pi.single z 1) := by
  obtain ⟨s₁, hs₁, h₁⟩ := Owning.of_drop h
  obtain ⟨s₂, hs₂, h₂⟩ := Owning.of_drop h₁
  obtain ⟨s₃, hs₃, h₃⟩ := Owning.of_drop h₂
  cases h₃
  refine ⟨rfl, ?_⟩
  rw [hs₁, hs₂, hs₃]
  abel

/-- `sys_rmdir` from `iget` on. -/
theorem rmdirInode_iff (b : ℕ × ℕ) (inode : InodeId) (s : Ref → ℕ) :
    rmdirInode fs cur dir b inode (s + (iref inode + (iref dir + bref b))) =
        .ok (fs.removes cur s dir inode, s) ↔
      (fs.MayRemove cur s dir inode ∧ (fs.inode inode).isDir = true →
        ¬ fs.Leaks inode ∧ ¬ fs.MeetsHole inode) := by
  set S : Ref → ℕ := s + (iref inode + (iref dir + bref b)) with hS
  have hcount : S (.inode inode) = s (.inode inode) + 1 + if inode = dir then 1 else 0 := by
    by_cases hdir : inode = dir
    · simp [hS, iref, bref, hdir, Nat.add_assoc]
    · simp [hS, iref, bref, hdir]
  -- the three exits before `empty_dir`, and those after it
  have hfirst : ∀ errno : ℕ, (do
      iput dir
      iput inode
      brelse (some b)
      pure (.error errno) : Namei (Except ℕ InodeId)) S = .ok (.error errno, s) := fun errno => by
    rw [hS, show s + (iref inode + (iref dir + bref b)) =
      s + (iref dir + iref inode + bref b) by abel]
    exact puts _ _ _ _ s
  have hthen : ∀ errno : ℕ, (do
      iput inode
      iput dir
      brelse (some b)
      pure (.error errno) : Namei (Except ℕ InodeId)) S = .ok (.error errno, s) := fun errno => by
    rw [hS, ← add_assoc (iref inode)]
    exact puts _ _ _ _ s
  have hlast : (do
      brelse (some b)
      iput dir
      iput inode
      pure (.ok inode) : Namei (Except ℕ InodeId)) S = .ok (.ok inode, s) := by
    rw [hS, show s + (iref inode + (iref dir + bref b)) =
      s + (bref b + iref dir + iref inode) by abel]
    exact puts _ _ _ _ s
  change (if _ then _ else _ : Namei (Except ℕ InodeId)) S = _ ↔ _
  rw [Disks.removes]
  by_cases hmay : fs.MayRemove cur s dir inode
  · have ⟨hvtx, hdev, hzero, hne⟩ := hmay
    rw [if_neg hvtx, if_neg (by rw [hcount, hzero, if_neg hne]; simp [hdev]), if_neg hne,
      if_neg (not_not.mpr hmay)]
    by_cases hdir : (fs.inode inode).isDir = false
    · rw [if_pos hdir, if_pos hdir, hthen]
      exact iff_of_true rfl fun h => by simp [hdir] at h
    · have hisdir : (fs.inode inode).isDir = true := by simpa using hdir
      rw [if_neg hdir, if_neg hdir, ← emptyDir_iff fs inode S]
      simp only [hmay, hisdir, and_self, true_implies]
      change (emptyDir fs inode >>= _) S = _ ↔ _
      rw [Owning.bind_apply]
      constructor
      · intro h
        cases hrun : emptyDir fs inode S with
        | error c =>
          rw [hrun] at h
          cases h
        | ok r =>
          obtain ⟨v, S'⟩ := r
          rw [hrun] at h
          -- what is put afterwards had to be there
          cases v with
          | false =>
            obtain ⟨hres, hS'⟩ := of_puts h
            have hempty : ¬ fs.Empty inode := fun hempty => by
              rw [if_neg (not_not.mpr hempty)] at hres
              cases hres
            have heq : S' = S := by
              rw [hS, ← add_assoc (iref inode)]
              exact hS'
            rw [decide_eq_false hempty, heq]
          | true =>
            obtain ⟨hres, hS'⟩ := of_puts h
            have hempty : fs.Empty inode := by
              by_contra hempty
              rw [if_pos hempty] at hres
              cases hres
            have heq : S' = S := by
              rw [hS, show iref inode + (iref dir + bref b) =
                bref b + iref dir + iref inode by abel]
              exact hS'
            rw [decide_eq_true hempty, heq]
      · intro h
        rw [h]
        by_cases hempty : fs.Empty inode
        · rw [decide_eq_true hempty, if_neg (not_not.mpr hempty)]
          exact hlast
        · rw [decide_eq_false hempty, if_pos hempty]
          exact hthen ENOTEMPTY
  · refine iff_of_true ?_ fun h => absurd h.1 hmay
    rw [if_pos hmay]
    by_cases hvtx : (fs.inode dir).isVtx ∧ cur.euid ≠ 0 ∧ (fs.inode inode).uid ≠ cur.euid
    · rw [if_pos hvtx]
      exact hfirst EPERM
    · rw [if_neg hvtx]
      by_cases hother : inode.1 ≠ dir.1 ∨ 1 < S (.inode inode)
      · rw [if_pos hother]
        exact hfirst EPERM
      · rw [if_neg hother]
        have hdir : inode = dir := by
          by_contra hne
          rw [hcount, if_neg hne] at hother
          exact hmay ⟨hvtx, by tauto, by omega, hne⟩
        rw [if_pos hdir]
        exact hthen EPERM

end

/-- `empty_dir` says whether a directory may be removed, `sys_rmdir` returns what it should, and
both leave every count as it was, exactly if the directory that is looked through does not have
a wrong header in a block that can be read, nor a hole before an entry in use. -/
theorem rmdir_restores (fs : Disks) (cur : Current) (path : List Char) (s : Ref → ℕ) :
    (∀ dir, emptyDir fs dir s = .ok (decide (fs.Empty dir), s) ↔
      ¬ fs.Leaks dir ∧ ¬ fs.MeetsHole dir) ∧
    (sysRmdir fs cur path s = (fs.rmdirs cur path s).map (fun r => (r, s)) ↔
      ∀ dir, fs.Checks cur path s dir → ¬ fs.Leaks dir ∧ ¬ fs.MeetsHole dir) := by
  refine ⟨fun dir => emptyDir_iff fs dir s, ?_⟩
  have htarget := yields_rmdirTarget fs cur path s
  rw [add_zero] at htarget
  rw [sysRmdir, Owning.bind_apply, htarget, Disks.rmdirs]
  cases ht : fs.target cur path with
  | error c =>
    refine iff_of_true rfl fun dir hdir => ?_
    obtain ⟨d, b, hd, -⟩ := hdir
    rw [ht] at hd
    cases hd
  | ok t =>
    cases t with
    | error errno =>
      refine iff_of_true ?_ fun dir hdir => ?_
      · show Except.ok (Except.error errno, s + 0) = _
        rw [add_zero]
        rfl
      · obtain ⟨d, b, hd, -⟩ := hdir
        rw [ht] at hd
        cases hd
    | ok t =>
      obtain ⟨d, b, inode⟩ := t
      refine (rmdirInode_iff b inode s).trans ⟨?_, fun h hmay => h inode ⟨d, b, ht, hmay⟩⟩
      rintro h dir ⟨d', b', hd, hmay⟩
      rw [ht] at hd
      cases hd
      exact h hmay

/-! ### A wrong header, and a hole -/

/-- `tripDisks` with the entries `d`, which is inode 3 and a directory of three blocks the second
of which is missing, and `h`, which is inode 4, with `x` for `..`. -/
def rmdirDisks : Disks :=
  { tripDisks with
    inode := fun id => if id.2 = 1 then ⟨0o040755, 0, 0, 3, 4 * 16⟩
      else if id.2 = 3 then ⟨0o040755, 0, 0, 2, 129 * 16⟩
      else ⟨0o040755, 0, 0, 2, 2 * 16⟩
    entry := fun _ block k =>
      if block = 10 then
        match k with
        | 0 => ⟨1, ['.']⟩
        | 1 => ⟨1, ['.', '.']⟩
        | 2 => ⟨3, ['d']⟩
        | _ => ⟨4, ['h']⟩
      else match k with
        | 0 => if block = 30 then ⟨3, ['.']⟩ else if block = 40 then ⟨4, ['.']⟩ else ⟨0, []⟩
        | 1 => if block = 30 then ⟨1, ['.', '.']⟩ else if block = 40 then ⟨1, ['x']⟩ else ⟨0, []⟩
        | _ => ⟨0, []⟩ }

/-- A count after a call that returns. -/
def countAfter (path : List Char) (count : Ref → ℕ) (x : Ref) : Option ℕ :=
  match sysRmdir rmdirDisks tripCurrent path count with
  | .ok r => some (r.2 x)
  | .error _ => none

theorem of_countAfter {path : List Char} {count : Ref → ℕ} {x : Ref} {n : ℕ}
    (h : countAfter path count x = some n) :
    ∃ r s, sysRmdir rmdirDisks tripCurrent path count = .ok (r, s) ∧ s x = n := by
  rw [countAfter] at h
  split at h
  case h_1 r hr => exact ⟨r.1, r.2, hr, Option.some.inj h⟩
  case h_2 => cases h

/-- `rmdir("h")` keeps the first block of the directory; `rmdir("d")` releases a block of someone
else, or is a panic where there is no one. -/
theorem rmdir_leak_hole :
    (∃ r s, sysRmdir rmdirDisks tripCurrent ['h'] 0 = .ok (r, s) ∧ s (.buffer 1 40) = 1) ∧
    (∀ r, sysRmdir rmdirDisks tripCurrent ['d'] 0 ≠ .ok r) ∧
    ∃ r s, sysRmdir rmdirDisks tripCurrent ['d'] (Pi.single (.buffer 1 30) 1) = .ok (r, s) ∧
      s (.buffer 1 30) = 0 := by
  refine ⟨of_countAfter (by decide +kernel), fun r hr => ?_, of_countAfter (by decide +kernel)⟩
  have hnone : countAfter ['d'] 0 (.buffer 1 30) = none := by
    decide +kernel
  rw [countAfter, hr] at hnone
  cases hnone

end Fs
