/-
The mount table (fs/super.c, and `iput` of fs/inode.c), with processes that sleep in
`read_super`, `put_super` and `iput`.

* `Mounts` — the super blocks, the inodes in memory, and where each process sleeps;
* `Mounts.next` — a process goes on with `sys_mount` or `sys_umount`;
* `mount_table` — `i_mount` and `s_imount` agree, each mount holds one reference, and no
  device is mounted twice, as long as `sys_umount` does not sleep in `iput`, and
  `read_super` does not find its entry locked;
* `mount_table_put_twice` — two `sys_umount`s of one device put one reference twice.

Design notes: `namei` is over when a call begins.  Other processes get and put references
to inodes, which are counted in `users`, and write inodes, which locks them and cleans
them.  An inode has fewer than 2^16 references, so that only `i_count--` can wrap around.
-/
import Linux012.Runs
import Linux012.Counting

namespace Fs

open Function (update)

universe u

/-- `NR_SUPER`. -/
abbrev nrSuper : ℕ := 8

/-- `NR_INODE`. -/
abbrev nrInode : ℕ := 64

/-- `ROOT_INO`. -/
abbrev rootIno : ℕ := 1

/-- What `S_ISDIR` and `S_ISBLK` find in `i_mode`. -/
inductive FileKind where
  | dir
  | blk
  | other
  deriving DecidableEq

/-- An inode in memory. -/
structure MInode where
  dev : ℕ
  num : ℕ
  kind : FileKind
  nlinks : ℕ
  count : ℕ
  mount : Bool
  dirt : Bool
  lock : Bool

/-- What `memset` leaves. -/
def MInode.zero : MInode := ⟨0, 0, .other, 0, 0, false, false, false⟩

/-- `i_count--`. -/
def MInode.decCount (inode : MInode) : MInode :=
  { inode with count := if inode.count = 0 then 65535 else inode.count - 1 }

theorem MInode.decCount_of_ne {inode : MInode} (h : inode.count ≠ 0) :
    inode.decCount = { inode with count := inode.count - 1 } := by
  rw [decCount, if_neg h]

/-- A super block in memory. -/
structure Super where
  dev : ℕ
  imount : Option ℕ
  lock : Bool

/-- Where a process sleeps. -/
inductive MountPhase where
  | idle
  /-- `sys_mount` in `get_super`, in `lock_super` and in the `bread`s of `read_super`, and
  in the `iput` of a mount that has failed -/
  | looks (dev dir : ℕ)
  | locks (e dir : ℕ)
  | reads (e dir : ℕ)
  | puts (dir : ℕ)
  /-- `sys_umount` in `get_super`, in the `iput` of the covered inode (`first`: in its
  first `wait_on_inode`), and in `get_super` and the `brelse`s of `put_super` -/
  | finds (dev : ℕ)
  | iputs (e dev i : ℕ) (first : Bool)
  | putSuper (dev : ℕ)
  | releases (e : ℕ)
  deriving DecidableEq

/-- The inode that a call of `sys_mount` holds. -/
def MountPhase.dir : MountPhase → Option ℕ
  | .looks _ dir | .locks _ dir | .reads _ dir | .puts dir => some dir
  | _ => none

@[simp] theorem MountPhase.dir_idle : MountPhase.idle.dir = none := rfl

@[simp] theorem MountPhase.dir_puts (dir : ℕ) : (MountPhase.puts dir).dir = some dir := rfl

/-- The super block that it has locked. -/
def MountPhase.locked : MountPhase → Option ℕ
  | .reads e _ | .releases e => some e
  | _ => none

/-- The tables and the processes. -/
structure Mounts (P : Type u) where
  rootDev : ℕ
  super : ℕ → Super
  inode : ℕ → MInode
  /-- the references that other processes hold -/
  users : ℕ → ℕ
  phase : P → MountPhase

/-- What happens next. -/
inductive MountEvent (P : Type u) where
  /-- `sys_mount` has got the device, and inode `i` from `namei` -/
  | mount (p : P) (dev i : ℕ)
  | look (p : P)
  | lock (p : P)
  | read (p : P) (ok : Bool)
  | put (p : P)
  /-- `sys_umount` has got the device -/
  | umount (p : P) (dev : ℕ)
  | find (p : P)
  | iput (p : P)
  /-- `put_super`, also of `check_disk_change` -/
  | changed (p : P) (dev : ℕ)
  | putSuper (p : P)
  | release (p : P)
  /-- other processes get and put a reference, read an inode into a free entry, and
  write, change, lock and unlock it -/
  | use (i : ℕ)
  | unuse (i : ℕ)
  | load (i dev num nlinks : ℕ) (kind : FileKind)
  | touch (i nlinks : ℕ) (dirt lock : Bool)

namespace Mounts

variable {P : Type u} [DecidableEq P]

def setPhase (s : Mounts P) (p : P) (ph : MountPhase) : Mounts P :=
  { s with phase := update s.phase p ph }

def setSuper (s : Mounts P) (e : ℕ) (sb : Super) : Mounts P :=
  { s with super := update s.super e sb }

def setInode (s : Mounts P) (i : ℕ) (inode : MInode) : Mounts P :=
  { s with inode := update s.inode i inode }

def decCount (s : Mounts P) (i : ℕ) : Mounts P := s.setInode i (s.inode i).decCount

/-- The entry that `get_super` comes to. -/
def getSuper (s : Mounts P) (dev : ℕ) : Option ℕ :=
  if dev = 0 then none else (List.range nrSuper).find? fun e => (s.super e).dev == dev

/-- The free entry of `read_super`. -/
def freeSuper (s : Mounts P) : Option ℕ :=
  (List.range nrSuper).find? fun e => (s.super e).dev == 0

/-- `sys_mount`, after `read_super`. -/
def finishMount (s : Mounts P) (p : P) (e dir : ℕ) : Mounts P :=
  if (s.super e).imount ≠ none then s.setPhase p (.puts dir)
  else if (s.inode dir).mount then s.setPhase p (.puts dir)
  else
    ((s.setSuper e { s.super e with imount := some dir }).setInode dir
      { s.inode dir with mount := true, dirt := true }).setPhase p .idle

/-- `put_super`, from `get_super` on. -/
def putSuperStep (s : Mounts P) (p : P) (dev : ℕ) : Mounts P :=
  match s.getSuper dev with
  | none => s.setPhase p .idle
  | some e =>
    if (s.super e).lock then s.setPhase p (.putSuper dev)
    else if (s.super e).imount ≠ none then s.setPhase p .idle
    else (s.setSuper e { s.super e with dev := 0, lock := true }).setPhase p (.releases e)

/-- `sys_umount`, after `iput`. -/
def afterIput (s : Mounts P) (p : P) (e dev : ℕ) : Mounts P :=
  (s.setSuper e { s.super e with imount := none }).putSuperStep p dev

/-- `iput` of the covered inode, where it does not sleep. -/
def Awake (s : Mounts P) (i : ℕ) : Prop :=
  (s.inode i).lock = false ∧ ((s.inode i).dev = 0 ∨ 1 < (s.inode i).count ∨
    (s.inode i).nlinks ≠ 0 ∧ (s.inode i).dirt = false)

instance (s : Mounts P) (i : ℕ) : Decidable (s.Awake i) := inferInstanceAs (Decidable (_ ∧ _))

/-- The check of `sys_umount` for inodes in use. -/
def Busy (s : Mounts P) (dev : ℕ) : Prop :=
  ∃ k < nrInode, (s.inode k).dev = dev ∧ (s.inode k).count ≠ 0

instance (s : Mounts P) (dev : ℕ) : Decidable (s.Busy dev) :=
  inferInstanceAs (Decidable (∃ k < nrInode, _))

/-- `sys_umount`, from `get_super` on. -/
def findStep (s : Mounts P) (p : P) (dev : ℕ) : Option (Mounts P) :=
  match s.getSuper dev with
  | none => some (s.setPhase p .idle)
  | some e =>
    if (s.super e).lock then none
    else match (s.super e).imount with
      | none => some (s.setPhase p .idle)
      | some i =>
        if s.Busy dev then some (s.setPhase p .idle)
        else
          let s := s.setInode i { s.inode i with mount := false }
          if (s.inode i).lock then some (s.setPhase p (.iputs e dev i true))
          else if (s.inode i).count = 0 then none
          else if s.Awake i then some ((s.decCount i).afterIput p e dev)
          else some (s.setPhase p (.iputs e dev i false))

/-- `iput` when it wakes up: `write_inode` and `truncate` are over. -/
def iputStep (s : Mounts P) (p : P) (e dev i : ℕ) (first : Bool) : Option (Mounts P) :=
  if (s.inode i).lock then none
  else if first ∧ (s.inode i).count = 0 then none
  else if first ∧ (s.inode i).dev = 0 then some ((s.decCount i).afterIput p e dev)
  else if 1 < (s.inode i).count then some ((s.decCount i).afterIput p e dev)
  else if (s.inode i).nlinks = 0 then
    -- `free_inode`
    some ((s.setInode i .zero).afterIput p e dev)
  else if (s.inode i).dirt then
    some ((s.setInode i { s.inode i with dirt := false }).setPhase p (.iputs e dev i false))
  else some ((s.decCount i).afterIput p e dev)

/-- `read_super`, from `get_super` on. -/
def lookStep (s : Mounts P) (p : P) (dev dir : ℕ) : Option (Mounts P) :=
  if dev = 0 then some (s.setPhase p (.puts dir))
  else match s.getSuper dev with
    | some e => if (s.super e).lock then none else some (s.finishMount p e dir)
    | none =>
      match s.freeSuper with
      | none => some (s.setPhase p (.puts dir))
      | some e =>
        if (s.super e).lock then some ((s.setSuper e ⟨dev, none, true⟩).setPhase p (.locks e dir))
        else some ((s.setSuper e ⟨dev, none, true⟩).setPhase p (.reads e dir))

/-- What an event leads to. -/
def next (s : Mounts P) : MountEvent P → Option (Mounts P)
  | .mount p dev i =>
    if s.phase p = .idle then
      let s := s.setInode i { s.inode i with count := (s.inode i).count + 1 }
      if (s.inode i).count ≠ 1 ∨ (s.inode i).num = rootIno then some (s.setPhase p (.puts i))
      else if (s.inode i).kind ≠ .dir then some (s.setPhase p (.puts i))
      else some (s.setPhase p (.looks dev i))
    else none
  | .look p =>
    match s.phase p with
    | .looks dev dir => s.lookStep p dev dir
    | _ => none
  | .lock p =>
    match s.phase p with
    | .locks e dir =>
      if (s.super e).lock then none
      else some ((s.setSuper e { s.super e with lock := true }).setPhase p (.reads e dir))
    | _ => none
  | .read p ok =>
    match s.phase p with
    | .reads e dir =>
      if ok then some ((s.setSuper e { s.super e with lock := false }).finishMount p e dir)
      else some ((s.setSuper e { s.super e with dev := 0, lock := false }).setPhase p (.puts dir))
    | _ => none
  | .put p =>
    match s.phase p with
    | .puts dir => some ((s.decCount dir).setPhase p .idle)
    | _ => none
  | .umount p dev =>
    if s.phase p = .idle ∧ dev ≠ s.rootDev then some (s.setPhase p (.finds dev)) else none
  | .find p =>
    match s.phase p with
    | .finds dev => s.findStep p dev
    | _ => none
  | .iput p =>
    match s.phase p with
    | .iputs e dev i first => s.iputStep p e dev i first
    | _ => none
  | .changed p dev =>
    if s.phase p = .idle ∧ dev ≠ s.rootDev then some (s.putSuperStep p dev) else none
  | .putSuper p =>
    match s.phase p with
    | .putSuper dev => some (s.putSuperStep p dev)
    | _ => none
  | .release p =>
    match s.phase p with
    | .releases e =>
      some ((s.setSuper e { s.super e with lock := false }).setPhase p .idle)
    | _ => none
  | .use i =>
    some { s.setInode i { s.inode i with count := (s.inode i).count + 1 } with
      users := update s.users i (s.users i + 1) }
  | .unuse i =>
    if s.users i = 0 then none
    else some { s.decCount i with users := update s.users i (s.users i - 1) }
  | .load i dev num nlinks kind =>
    if (s.inode i).count ≠ 0 ∨ (s.inode i).dirt ∨ (s.inode i).lock then none
    else some { s.setInode i ⟨dev, num, kind, nlinks, 1, false, false, false⟩ with
      users := update s.users i (s.users i + 1) }
  | .touch i nlinks dirt lock =>
    some (s.setInode i { s.inode i with nlinks := nlinks, dirt := dirt, lock := lock })

/-- The covered inode that `sys_umount` comes to put. -/
def toPut (s : Mounts P) (p : P) : Option ℕ :=
  match s.phase p with
  | .finds dev => (s.getSuper dev).bind fun e =>
    if (s.super e).lock ∨ s.Busy dev then none else (s.super e).imount
  | _ => none

/-- The free entry that `read_super` comes to take. -/
def toTake (s : Mounts P) (p : P) : Option ℕ :=
  match s.phase p with
  | .looks dev _ => if dev = 0 ∨ (s.getSuper dev).isSome then none else s.freeSuper
  | _ => none

/-- `sys_umount` does not sleep in `iput`, and `read_super` does not find its entry
locked. -/
def Prompt (s : Mounts P) : MountEvent P → Prop
  | .find p => ∀ i ∈ s.toPut p, s.Awake i
  | .look p => ∀ e ∈ s.toTake p, (s.super e).lock = false
  | _ => True

instance (s : Mounts P) : (a : MountEvent P) → Decidable (s.Prompt a)
  | .find p => inferInstanceAs (Decidable (∀ i ∈ s.toPut p, s.Awake i))
  | .look p => inferInstanceAs (Decidable (∀ e ∈ s.toTake p, (s.super e).lock = false))
  | .mount .. | .lock _ | .read .. | .put _ | .umount .. | .iput _ | .changed .. | .putSuper _
  | .release _ | .use _ | .unuse _ | .load .. | .touch .. => isTrue trivial

end Mounts

/-- The runs of `sys_mount` and `sys_umount`, when `mount_root` is over. -/
def mounting (P : Type u) [DecidableEq P] : System (Mounts P) (MountEvent P) where
  init s := s.rootDev ≠ 0 ∧
    (∃ e₀ < nrSuper, (s.super e₀).dev = s.rootDev ∧ (s.super e₀).imount ≠ none ∧
      ∀ e, e ≠ e₀ → (s.super e).dev = 0 ∧ (s.super e).imount = none) ∧
    (∀ e, (s.super e).lock = false) ∧
    (∀ i, (s.inode i).mount = false ∧ (s.inode i).count = s.users i) ∧ ∀ p, s.phase p = .idle
  step s a s' := s.next a = some s'

/-! ### Devices and covered inodes -/

/-- `s_dev`, `s_imount` and `i_mount` of a mount table in order. -/
structure MountsAgree (root : ℕ) (dev : ℕ → ℕ) (imount : ℕ → Option ℕ) (mount : ℕ → Bool) :
    Prop where
  rooted : root ≠ 0 ∧ ∃ e < nrSuper, dev e = root ∧ imount e ≠ none
  above : ∀ e, nrSuper ≤ e → dev e = 0
  once : ∀ e e', dev e ≠ 0 → dev e = dev e' → e = e'
  named : ∀ e, imount e ≠ none → dev e ≠ 0
  mounted : ∀ e i, imount e = some i → dev e ≠ root → mount i = true
  covers : ∀ i, mount i = true → ∃ e, imount e = some i ∧ dev e ≠ root
  alone : ∀ e e' i, imount e = some i → imount e' = some i → dev e ≠ root → dev e' ≠ root → e = e'

namespace MountsAgree

variable {root d e i : ℕ} {dev : ℕ → ℕ} {imount : ℕ → Option ℕ} {mount : ℕ → Bool}

/-- `read_super` takes a free entry. -/
theorem claim (h : MountsAgree root dev imount mount) (he : e < nrSuper) (hfree : dev e = 0)
    (hd : d ≠ 0) (hnew : ∀ e < nrSuper, dev e ≠ d) :
    MountsAgree root (update dev e d) (update imount e none) mount := by
  have hnone : imount e = none := by
    by_contra hcon
    exact h.named e hcon hfree
  rw [← hnone, Function.update_eq_self]
  obtain ⟨hroot, e₀, he₀, hdev₀, himount₀⟩ := h.rooted
  -- entries with a covered inode are other entries
  have hother : ∀ e', imount e' ≠ none → update dev e d e' = dev e' := fun e' he' => by
    have hne : e' ≠ e := by
      rintro rfl
      exact he' hnone
    exact Function.update_of_ne hne _ _
  have hnew' : ∀ e', dev e' ≠ d := fun e' => by
    by_cases hlt : e' < nrSuper
    · exact hnew e' hlt
    · rw [h.above e' (by omega)]
      exact hd.symm
  constructor
  · exact ⟨hroot, e₀, he₀, by rw [hother e₀ himount₀, hdev₀], himount₀⟩
  · intro e' he'
    have hne : e' ≠ e := by
      rintro rfl
      omega
    rw [Function.update_of_ne hne]
    exact h.above e' he'
  · intro e' e'' hne heq
    by_cases h₁ : e' = e <;> by_cases h₂ : e'' = e
    · rw [h₁, h₂]
    · rw [h₁, Function.update_self, Function.update_of_ne h₂] at heq
      exact absurd heq.symm (hnew' e'')
    · rw [h₂, Function.update_self, Function.update_of_ne h₁] at heq
      exact absurd heq (hnew' e')
    · rw [Function.update_of_ne h₁] at hne heq
      rw [Function.update_of_ne h₂] at heq
      exact h.once e' e'' hne heq
  · intro e' he'
    rw [hother e' he']
    exact h.named e' he'
  · intro e' i he' hdev
    rw [hother e' (by simp [he'])] at hdev
    exact h.mounted e' i he' hdev
  · intro i hi
    obtain ⟨e', he', hdev⟩ := h.covers i hi
    exact ⟨e', he', by rwa [hother e' (by simp [he'])]⟩
  · intro e' e'' i he' he'' hdev hdev'
    rw [hother e' (by simp [he'])] at hdev
    rw [hother e'' (by simp [he''])] at hdev'
    exact h.alone e' e'' i he' he'' hdev hdev'

/-- An entry without a covered inode is given up. -/
theorem release (h : MountsAgree root dev imount mount) (hnone : imount e = none) :
    MountsAgree root (update dev e 0) imount mount := by
  obtain ⟨hroot, e₀, he₀, hdev₀, himount₀⟩ := h.rooted
  have hother : ∀ e', imount e' ≠ none → update dev e 0 e' = dev e' := fun e' he' => by
    have hne : e' ≠ e := by
      rintro rfl
      exact he' hnone
    exact Function.update_of_ne hne _ _
  have hzero : ∀ e', update dev e 0 e' ≠ 0 → update dev e 0 e' = dev e' := fun e' he' => by
    have hne : e' ≠ e := by
      rintro rfl
      exact he' (Function.update_self _ _ _)
    exact Function.update_of_ne hne _ _
  constructor
  · exact ⟨hroot, e₀, he₀, by rw [hother e₀ himount₀, hdev₀], himount₀⟩
  · intro e' he'
    by_contra hcon
    exact hcon ((hzero e' hcon).trans (h.above e' he'))
  · intro e' e'' hne heq
    have hne' := hne
    rw [hzero e' hne] at hne'
    rw [hzero e'' (heq ▸ hne), hzero e' hne] at heq
    exact h.once e' e'' hne' heq
  · intro e' he'
    rw [hother e' he']
    exact h.named e' he'
  · intro e' i he' hdev
    rw [hother e' (by simp [he'])] at hdev
    exact h.mounted e' i he' hdev
  · intro i hi
    obtain ⟨e', he', hdev⟩ := h.covers i hi
    exact ⟨e', he', by rwa [hother e' (by simp [he'])]⟩
  · intro e' e'' i he' he'' hdev hdev'
    rw [hother e' (by simp [he'])] at hdev
    rw [hother e'' (by simp [he''])] at hdev'
    exact h.alone e' e'' i he' he'' hdev hdev'

/-- The root device has its inode. -/
theorem ne_root (h : MountsAgree root dev imount mount) (hnone : imount e = none) :
    dev e ≠ root := by
  obtain ⟨hroot, e₀, -, hdev₀, himount₀⟩ := h.rooted
  intro hdev
  have heq := h.once e₀ e (hdev₀ ▸ hroot) (hdev₀.trans hdev.symm)
  exact himount₀ (heq ▸ hnone)

/-- `sys_mount` sets both sides. -/
theorem cover (h : MountsAgree root dev imount mount) (hdev : dev e ≠ 0)
    (hnone : imount e = none) (hi : mount i = false) :
    MountsAgree root dev (update imount e (some i)) (update mount i true) := by
  have hne := h.ne_root hnone
  obtain ⟨hroot, e₀, he₀, hdev₀, himount₀⟩ := h.rooted
  -- no entry has the inode yet
  have hfree : ∀ e', imount e' = some i → dev e' = root := fun e' he' => by
    by_contra hcon
    rw [h.mounted e' i he' hcon] at hi
    cases hi
  constructor
  · refine ⟨hroot, e₀, he₀, hdev₀, ?_⟩
    by_cases heq : e₀ = e
    · rw [heq, Function.update_self]
      simp
    · rwa [Function.update_of_ne heq]
  · exact h.above
  · exact h.once
  · intro e' he'
    by_cases heq : e' = e
    · rwa [heq]
    · rw [Function.update_of_ne heq] at he'
      exact h.named e' he'
  · intro e' j he' hdev'
    by_cases heq : e' = e
    · rw [heq, Function.update_self] at he'
      obtain rfl := Option.some.inj he'
      exact Function.update_self _ _ _
    · rw [Function.update_of_ne heq] at he'
      have hmount := h.mounted e' j he' hdev'
      by_cases hj : j = i
      · rw [hj, Function.update_self]
      · rwa [Function.update_of_ne hj]
  · intro j hj
    by_cases hji : j = i
    · exact ⟨e, by rw [hji, Function.update_self], hne⟩
    · rw [Function.update_of_ne hji] at hj
      obtain ⟨e', he', hdev'⟩ := h.covers j hj
      have heq : e' ≠ e := by
        rintro rfl
        rw [hnone] at he'
        cases he'
      exact ⟨e', by rwa [Function.update_of_ne heq], hdev'⟩
  · intro e' e'' j he' he'' hdev' hdev''
    by_cases h₁ : e' = e <;> by_cases h₂ : e'' = e
    · rw [h₁, h₂]
    · rw [h₁, Function.update_self] at he'
      rw [Function.update_of_ne h₂, ← Option.some.inj he'] at he''
      exact absurd (hfree e'' he'') hdev''
    · rw [h₂, Function.update_self] at he''
      rw [Function.update_of_ne h₁, ← Option.some.inj he''] at he'
      exact absurd (hfree e' he') hdev'
    · rw [Function.update_of_ne h₁] at he'
      rw [Function.update_of_ne h₂] at he''
      exact h.alone e' e'' j he' he'' hdev' hdev''

/-- `sys_umount` clears both sides. -/
theorem uncover (h : MountsAgree root dev imount mount) (hi : imount e = some i)
    (hne : dev e ≠ root) :
    MountsAgree root dev (update imount e none) (update mount i false) := by
  obtain ⟨hroot, e₀, he₀, hdev₀, himount₀⟩ := h.rooted
  have hback : ∀ e' j, update imount e none e' = some j → e' ≠ e ∧ imount e' = some j := by
    intro e' j he'
    by_cases heq : e' = e
    · rw [heq, Function.update_self] at he'
      cases he'
    · rw [Function.update_of_ne heq] at he'
      exact ⟨heq, he'⟩
  constructor
  · refine ⟨hroot, e₀, he₀, hdev₀, ?_⟩
    have heq : e₀ ≠ e := by
      rintro rfl
      exact hne hdev₀
    rwa [Function.update_of_ne heq]
  · exact h.above
  · exact h.once
  · intro e' he'
    obtain ⟨j, hj⟩ := Option.ne_none_iff_exists'.mp he'
    exact h.named e' (by simp [(hback e' j hj).2])
  · intro e' j he' hdev'
    obtain ⟨heq, hj⟩ := hback e' j he'
    have hji : j ≠ i := by
      rintro rfl
      exact heq (h.alone e' e j hj hi hdev' hne)
    rw [Function.update_of_ne hji]
    exact h.mounted e' j hj hdev'
  · intro j hj
    by_cases hji : j = i
    · rw [hji, Function.update_self] at hj
      cases hj
    · rw [Function.update_of_ne hji] at hj
      obtain ⟨e', he', hdev'⟩ := h.covers j hj
      have heq : e' ≠ e := by
        rintro rfl
        exact hji (Option.some.inj (he'.symm.trans hi))
      exact ⟨e', by rwa [Function.update_of_ne heq], hdev'⟩
  · intro e' e'' j he' he'' hdev' hdev''
    exact h.alone e' e'' j (hback e' j he').2 (hback e'' j he'').2 hdev' hdev''

end MountsAgree

/-! ### What a call changes -/

/-- No call is where `Prompt` does not let it go. -/
def MountPhase.Awake (root : ℕ) : MountPhase → Prop
  | .locks _ _ | .iputs _ _ _ _ => False
  | .finds dev => dev ≠ root
  | _ => True

namespace Mounts

variable {P : Type u} {s s' : Mounts P} {p : P} {ph : MountPhase} {e i dev dir : ℕ}

theorem setSuper_apply (s : Mounts P) (e k : ℕ) (sb : Super) :
    (s.setSuper e sb).super k = if k = e then sb else s.super k := by
  by_cases h : k = e
  · simp [setSuper, h]
  · simp [setSuper, h]

theorem setInode_apply (s : Mounts P) (i k : ℕ) (inode : MInode) :
    (s.setInode i inode).inode k = if k = i then inode else s.inode k := by
  by_cases h : k = i
  · simp [setInode, h]
  · simp [setInode, h]

theorem setSuper_dev (s : Mounts P) (e : ℕ) (sb : Super) :
    (fun k => ((s.setSuper e sb).super k).dev) = update (fun k => (s.super k).dev) e sb.dev :=
  funext fun k => by rw [setSuper_apply, Function.update_apply, apply_ite Super.dev]

theorem setSuper_imount (s : Mounts P) (e : ℕ) (sb : Super) :
    (fun k => ((s.setSuper e sb).super k).imount) =
      update (fun k => (s.super k).imount) e sb.imount :=
  funext fun k => by rw [setSuper_apply, Function.update_apply, apply_ite Super.imount]

theorem setInode_mount (s : Mounts P) (i : ℕ) (inode : MInode) :
    (fun k => ((s.setInode i inode).inode k).mount) =
      update (fun k => (s.inode k).mount) i inode.mount :=
  funext fun k => by rw [setInode_apply, Function.update_apply, apply_ite MInode.mount]

theorem lt_of_getSuper (h : s.getSuper dev = some e) :
    e < nrSuper ∧ (s.super e).dev = dev ∧ dev ≠ 0 := by
  rw [getSuper] at h
  split at h
  case isTrue => cases h
  case isFalse hdev =>
    have hmem := List.mem_of_find?_eq_some h
    have hfind := List.find?_some h
    exact ⟨List.mem_range.mp hmem, by simpa using hfind, hdev⟩

theorem ne_of_getSuper (h : s.getSuper dev = none) (hdev : dev ≠ 0) :
    ∀ e < nrSuper, (s.super e).dev ≠ dev := by
  intro e he
  rw [getSuper, if_neg hdev] at h
  have := List.find?_eq_none.mp h e (List.mem_range.mpr he)
  simpa using this

theorem lt_of_freeSuper (h : s.freeSuper = some e) : e < nrSuper ∧ (s.super e).dev = 0 := by
  have hmem := List.mem_of_find?_eq_some h
  have hfind := List.find?_some h
  exact ⟨List.mem_range.mp hmem, by simpa using hfind⟩

/-- The calls of `sys_mount` that hold inode `i`. -/
noncomputable def flights (s : Mounts P) (i : ℕ) : ℕ :=
  Counting.count fun p => (s.phase p).dir = some i

/-- The reference of the super block that covers inode `i`. -/
def mountRef (s : Mounts P) (i : ℕ) : ℕ := if (s.inode i).mount then 1 else 0

/-- The `s_dev`s, the `s_imount`s and the `i_mount`s. -/
def Agree (s : Mounts P) : Prop :=
  MountsAgree s.rootDev (fun e => (s.super e).dev) (fun e => (s.super e).imount)
    fun i => (s.inode i).mount

/-- Each reference is one of `users`, of a call, or of a super block. -/
def Counted (s : Mounts P) : Prop :=
  ∀ i, (s.inode i).count = s.users i + s.flights i + s.mountRef i

/-- A super block that is locked is in the hands of one call, and covers no inode. -/
structure Locked (s : Mounts P) : Prop where
  held : ∀ p e, (s.phase p).locked = some e → (s.super e).lock = true ∧ (s.super e).imount = none
  holder : ∀ p p' e, (s.phase p).locked = some e → (s.phase p').locked = some e → p = p'
  reads : ∀ p e dir, s.phase p = .reads e dir → (s.super e).dev ≠ 0

/-- What holds as long as `Prompt` does. -/
structure InOrder (s : Mounts P) : Prop where
  agree : s.Agree
  counted : s.Counted
  locked : s.Locked
  awake : ∀ p, (s.phase p).Awake s.rootDev

/-- Nobody has locked a super block with `s_lock` clear. -/
theorem Locked.free (h : s.Locked) (he : (s.super e).lock = false) (p : P) :
    (s.phase p).locked ≠ some e := by
  intro hp
  rw [(h.held p e hp).1] at he
  cases he

variable [DecidableEq P]

theorem setPhase_apply (s : Mounts P) (p p' : P) (ph : MountPhase) :
    (s.setPhase p ph).phase p' = if p' = p then ph else s.phase p' := by
  by_cases h : p' = p
  · simp [setPhase, h]
  · simp [setPhase, h]

@[simp] theorem setPhase_setPhase (s : Mounts P) (p : P) (ph ph' : MountPhase) :
    (s.setPhase p ph).setPhase p ph' = s.setPhase p ph' := by
  simp [setPhase]

theorem finishMount_setPhase (s : Mounts P) (p : P) (ph : MountPhase) (e dir : ℕ) :
    (s.setPhase p ph).finishMount p e dir = s.finishMount p e dir := by
  simp [finishMount, setPhase, setSuper, setInode]

/-- How the references move when one call goes on. -/
theorem Counted.move [Fintype P] (h : s.Counted) (hph : s'.phase = update s.phase p ph)
    (heq : ∀ i, (s'.inode i).count + (if (s.phase p).dir = some i then 1 else 0) + s.users i +
        s.mountRef i =
      (s.inode i).count + (if ph.dir = some i then 1 else 0) + s'.users i + s'.mountRef i) :
    s'.Counted := by
  intro i
  have hoff : ∀ p', p' ≠ p →
      ((s'.phase p').dir = some i ↔ (s.phase p').dir = some i) := fun p' hp' => by
    rw [hph, Function.update_of_ne hp']
  have hflights := Counting.count_add_of_iff_off p hoff
  rw [hph, Function.update_self, ← hph] at hflights
  change s'.flights i + _ = s.flights i + _ at hflights
  have hi := h i
  have := heq i
  omega

/-- One call goes on, and changes no super block that another has locked. -/
theorem Locked.move (h : s.Locked) (hph : s'.phase = update s.phase p ph)
    (hsuper : ∀ p' e, p' ≠ p → (s.phase p').locked = some e → s'.super e = s.super e)
    (hnew : ∀ e, ph.locked = some e → (s'.super e).lock = true ∧ (s'.super e).imount = none ∧
      ∀ p', p' ≠ p → (s.phase p').locked ≠ some e)
    (hreads : ∀ e dir, ph = .reads e dir → (s'.super e).dev ≠ 0) : s'.Locked := by
  have hp : s'.phase p = ph := by rw [hph, Function.update_self]
  have hoff : ∀ p', p' ≠ p → s'.phase p' = s.phase p' := fun p' hp' => by
    rw [hph, Function.update_of_ne hp']
  constructor
  · intro p' e he
    by_cases hp' : p' = p
    · rw [hp', hp] at he
      exact ⟨(hnew e he).1, (hnew e he).2.1⟩
    · rw [hoff p' hp'] at he
      rw [hsuper p' e hp' he]
      exact h.held p' e he
  · intro p' p'' e he he'
    by_cases h₁ : p' = p <;> by_cases h₂ : p'' = p
    · rw [h₁, h₂]
    · rw [h₁, hp] at he
      rw [hoff p'' h₂] at he'
      exact absurd he' ((hnew e he).2.2 p'' h₂)
    · rw [h₂, hp] at he'
      rw [hoff p' h₁] at he
      exact absurd he ((hnew e he').2.2 p' h₁)
    · rw [hoff p' h₁] at he
      rw [hoff p'' h₂] at he'
      exact h.holder p' p'' e he he'
  · intro p' e dir he
    by_cases hp' : p' = p
    · rw [hp', hp] at he
      exact hreads e dir he
    · rw [hoff p' hp'] at he
      rw [hsuper p' e hp' (by rw [he]; rfl)]
      exact h.reads p' e dir he

theorem awake_move {root : ℕ} (h : ∀ p, (s.phase p).Awake root)
    (hph : s'.phase = update s.phase p ph) (hnew : ph.Awake root) (p' : P) :
    (s'.phase p').Awake root := by
  rw [hph]
  by_cases hp' : p' = p
  · rwa [hp', Function.update_self]
  · rw [Function.update_of_ne hp']
    exact h p'

namespace InOrder

variable [Fintype P]

/-- A call that changes no table and holds the same inode. -/
theorem setPhase (h : s.InOrder) (hdir : ph.dir = (s.phase p).dir) (hlocked : ph.locked = none)
    (hawake : ph.Awake s.rootDev) : (s.setPhase p ph).InOrder := by
  refine ⟨h.agree, h.counted.move rfl fun i => ?_, h.locked.move rfl ?_ ?_ ?_,
    awake_move h.awake rfl hawake⟩
  · rw [hdir]
    rfl
  · exact fun _ _ _ _ => rfl
  · intro e he
    rw [hlocked] at he
    cases he
  · rintro e dir rfl
    cases hlocked

omit [DecidableEq P] [Fintype P] in
/-- Other processes write, change, lock and unlock an inode. -/
theorem touch (h : s.InOrder) {inode : MInode} (hcount : inode.count = (s.inode i).count)
    (hmount : inode.mount = (s.inode i).mount) : (s.setInode i inode).InOrder := by
  have hcounts : ∀ k, ((s.setInode i inode).inode k).count = (s.inode k).count := fun k => by
    rw [setInode_apply]
    split
    case isTrue hk => rw [hcount, hk]
    case isFalse => rfl
  have hmounts : ∀ k, ((s.setInode i inode).inode k).mount = (s.inode k).mount := fun k => by
    rw [setInode_apply]
    split
    case isTrue hk => rw [hmount, hk]
    case isFalse => rfl
  refine ⟨?_, fun k => ?_, ⟨h.locked.held, h.locked.holder, h.locked.reads⟩, h.awake⟩
  · rw [Agree, funext hmounts]
    exact h.agree
  · have hk := h.counted k
    rw [hcounts, hk, mountRef, mountRef, hmounts]
    rfl

omit [DecidableEq P] [Fintype P] in
/-- A reference comes or goes with the process that holds it. -/
theorem user (h : s.InOrder) {inode : MInode} {n : ℕ}
    (hcount : inode.count + s.users i = (s.inode i).count + n)
    (hmount : inode.mount = (s.inode i).mount) :
    InOrder { s.setInode i inode with users := update s.users i n } := by
  have hmounts : ∀ k, ((s.setInode i inode).inode k).mount = (s.inode k).mount := fun k => by
    rw [setInode_apply]
    split
    case isTrue hk => rw [hmount, hk]
    case isFalse => rfl
  refine ⟨?_, fun k => ?_, ⟨h.locked.held, h.locked.holder, h.locked.reads⟩, h.awake⟩
  · have hagree := h.agree
    rw [Agree, ← funext hmounts] at hagree
    exact hagree
  · have hk := h.counted k
    show ((s.setInode i inode).inode k).count = update s.users i n k + s.flights k +
      if ((s.setInode i inode).inode k).mount then 1 else 0
    rw [mountRef] at hk
    rw [hmounts, setInode_apply, Function.update_apply]
    split
    case isTrue hki =>
      subst hki
      omega
    case isFalse => exact hk

/-- A super block that no call has locked is locked for `read_super`. -/
theorem claim (h : s.InOrder) (he : s.freeSuper = some e) (hlock : (s.super e).lock = false)
    (hdev : dev ≠ 0) (hnew : s.getSuper dev = none) (hp : s.phase p = .looks dev dir) :
    ((s.setSuper e ⟨dev, none, true⟩).setPhase p (.reads e dir)).InOrder := by
  obtain ⟨hlt, hfree⟩ := lt_of_freeSuper he
  refine ⟨?_, h.counted.move rfl fun i => ?_, h.locked.move rfl ?_ ?_ ?_,
    awake_move h.awake rfl trivial⟩
  · have hagree := h.agree.claim hlt hfree hdev (ne_of_getSuper hnew hdev)
    rw [← setSuper_dev s e ⟨dev, none, true⟩, ← setSuper_imount s e ⟨dev, none, true⟩] at hagree
    exact hagree
  · rw [hp]
    rfl
  · intro p' e' _ he'
    refine (setSuper_apply ..).trans (if_neg ?_)
    rintro rfl
    exact h.locked.free hlock p' he'
  · intro e' he'
    cases he'
    refine ⟨?_, ?_, fun p' _ => h.locked.free hlock p'⟩
    · exact congrArg Super.lock ((setSuper_apply ..).trans (if_pos rfl))
    · exact congrArg Super.imount ((setSuper_apply ..).trans (if_pos rfl))
  · intro e' dir' heq
    cases heq
    have hsuper : (s.setSuper e ⟨dev, none, true⟩).super e = ⟨dev, none, true⟩ :=
      (setSuper_apply ..).trans (if_pos rfl)
    show ((s.setSuper e ⟨dev, none, true⟩).super e).dev ≠ 0
    rw [hsuper]
    exact hdev

/-- The process that has locked a super block unlocks it. -/
theorem unlock (h : s.InOrder) (hlocked : (s.phase p).locked = some e)
    (hdir : ph.dir = (s.phase p).dir) (hnone : ph.locked = none) (hawake : ph.Awake s.rootDev) :
    ((s.setSuper e { s.super e with lock := false }).setPhase p ph).InOrder := by
  refine ⟨?_, h.counted.move rfl fun i => ?_, h.locked.move rfl ?_ ?_ ?_,
    awake_move h.awake rfl hawake⟩
  · have hagree := h.agree
    have hdev := setSuper_dev s e { s.super e with lock := false }
    have himount := setSuper_imount s e { s.super e with lock := false }
    rw [Function.update_eq_self] at hdev himount
    rw [Agree, ← hdev, ← himount] at hagree
    exact hagree
  · rw [hdir]
    rfl
  · intro p' e' hp' he'
    refine (setSuper_apply ..).trans (if_neg ?_)
    rintro rfl
    exact hp' (h.locked.holder p' p e' he' hlocked)
  · intro e' he'
    rw [hnone] at he'
    cases he'
  · rintro e' dir rfl
    cases hnone

/-- `read_super` has failed. -/
theorem fail (h : s.InOrder) (hp : s.phase p = .reads e dir) :
    ((s.setSuper e { s.super e with dev := 0, lock := false }).setPhase p (.puts dir)).InOrder := by
  have hlocked : (s.phase p).locked = some e := by rw [hp]; rfl
  have hnone := (h.locked.held p e hlocked).2
  refine ⟨?_, h.counted.move rfl fun i => ?_, h.locked.move rfl ?_ ?_ ?_,
    awake_move h.awake rfl trivial⟩
  · have hagree := h.agree.release hnone
    have hdev := setSuper_dev s e { s.super e with dev := 0, lock := false }
    have himount := setSuper_imount s e { s.super e with dev := 0, lock := false }
    rw [Function.update_eq_self] at himount
    rw [← hdev, ← himount] at hagree
    exact hagree
  · rw [hp]
    rfl
  · intro p' e' hp' he'
    refine (setSuper_apply ..).trans (if_neg ?_)
    rintro rfl
    exact hp' (h.locked.holder p' p e' he' hlocked)
  · intro e' he'
    cases he'
  · intro e' dir' heq
    cases heq

/-- `sys_mount` has read the super block. -/
theorem finishMount (h : s.InOrder) (hdev : (s.super e).dev ≠ 0)
    (hlock : (s.super e).lock = false) (hp : (s.phase p).dir = some dir) :
    (s.finishMount p e dir).InOrder := by
  rw [Mounts.finishMount]
  split
  case isTrue => exact h.setPhase hp.symm rfl trivial
  case isFalse hnone =>
    split
    case isTrue => exact h.setPhase hp.symm rfl trivial
    case isFalse hmount =>
      have hnone : (s.super e).imount = none := by simpa using hnone
      have hmount : (s.inode dir).mount = false := by simpa using hmount
      refine ⟨?_, h.counted.move rfl fun i => ?_, h.locked.move rfl ?_ ?_ ?_,
        awake_move h.awake rfl trivial⟩
      · have hagree := h.agree.cover hdev hnone hmount
        have hdevs := setSuper_dev s e { s.super e with imount := some dir }
        rw [Function.update_eq_self] at hdevs
        rw [← hdevs, ← setSuper_imount s e { s.super e with imount := some dir },
          ← setInode_mount s dir { s.inode dir with mount := true, dirt := true }] at hagree
        exact hagree
      · -- the reference of the call is now the reference of the super block
        have hinode := setInode_apply s dir i { s.inode dir with mount := true, dirt := true }
        change ((s.setInode dir { s.inode dir with mount := true, dirt := true }).inode i).count +
            _ + _ + _ = _ + _ + _ +
          if ((s.setInode dir { s.inode dir with mount := true, dirt := true }).inode i).mount
          then 1 else 0
        rw [hinode, hp, mountRef]
        by_cases hi : i = dir
        · subst hi
          simp [hmount, MountPhase.dir, Mounts.setPhase, setInode, setSuper]
          omega
        · have hne : ¬ (some dir = some i) := fun heq => hi (Option.some.inj heq).symm
          simp [hi, hne, MountPhase.dir, Mounts.setPhase, setInode, setSuper]
      · intro p' e' _ he'
        refine (setSuper_apply ..).trans (if_neg ?_)
        rintro rfl
        exact h.locked.free hlock p' he'
      · intro e' he'
        cases he'
      · intro e' dir' heq
        cases heq

/-- `put_super` goes on. -/
theorem putSuperStep (h : s.InOrder) (hdir : (s.phase p).dir = none) (dev : ℕ) :
    (s.putSuperStep p dev).InOrder := by
  rw [Mounts.putSuperStep]
  split
  case h_1 => exact h.setPhase hdir.symm rfl trivial
  case h_2 e he =>
    split
    case isTrue => exact h.setPhase hdir.symm rfl trivial
    case isFalse hlock =>
      split
      case isTrue => exact h.setPhase hdir.symm rfl trivial
      case isFalse hnone =>
        have hlock : (s.super e).lock = false := by simpa using hlock
        have hnone : (s.super e).imount = none := by simpa using hnone
        have hsuper : (s.setSuper e { s.super e with dev := 0, lock := true }).super e =
            { s.super e with dev := 0, lock := true } := (setSuper_apply ..).trans (if_pos rfl)
        refine ⟨?_, h.counted.move rfl fun i => ?_, h.locked.move rfl ?_ ?_ ?_,
          awake_move h.awake rfl trivial⟩
        · have hagree := h.agree.release hnone
          have himount := setSuper_imount s e { s.super e with dev := 0, lock := true }
          rw [Function.update_eq_self] at himount
          rw [← setSuper_dev s e { s.super e with dev := 0, lock := true }, ← himount] at hagree
          exact hagree
        · rw [hdir]
          rfl
        · intro p' e' _ he'
          refine (setSuper_apply ..).trans (if_neg ?_)
          rintro rfl
          exact h.locked.free hlock p' he'
        · intro e' he'
          cases he'
          refine ⟨congrArg Super.lock hsuper, ?_, fun p' _ => h.locked.free hlock p'⟩
          exact (congrArg Super.imount hsuper).trans hnone
        · intro e' dir' heq
          cases heq

omit [Fintype P] in
/-- `sys_umount` puts the covered inode without sleeping. -/
theorem uncover (h : s.InOrder) (hp : s.phase p = .finds dev) (he : s.getSuper dev = some e)
    (hlock : (s.super e).lock = false) (hi : (s.super e).imount = some i) :
    InOrder (((s.setInode i { s.inode i with mount := false }).decCount i).setSuper e
      { s.super e with imount := none }) := by
  obtain ⟨-, hdev, -⟩ := lt_of_getSuper he
  have hroot : (s.super e).dev ≠ s.rootDev := by
    have hawake := h.awake p
    rw [hp] at hawake
    rwa [hdev]
  have hmount := h.agree.mounted e i hi hroot
  change (s.inode i).mount = true at hmount
  -- the inode that is left behind
  have hinode : ∀ k, (((s.setInode i { s.inode i with mount := false }).decCount i).inode k) =
      if k = i then { s.inode i with mount := false, count := (s.inode i).count - 1 }
      else s.inode k := by
    intro k
    have hcount := h.counted i
    rw [mountRef, hmount, if_pos rfl] at hcount
    rw [decCount, setInode_apply, setInode_apply, if_pos rfl]
    split
    case isTrue => exact MInode.decCount_of_ne (by show (s.inode i).count ≠ 0; omega)
    case isFalse hk => rw [setInode_apply, if_neg hk]
  refine ⟨?_, fun k => ?_, h.locked.move (Function.update_eq_self p s.phase).symm ?_ ?_ ?_,
    h.awake⟩
  · have hagree := h.agree.uncover hi hroot
    have hdevs := setSuper_dev s e { s.super e with imount := none }
    rw [Function.update_eq_self] at hdevs
    have hmounts : (fun k => (((s.setInode i { s.inode i with mount := false }).decCount
        i).inode k).mount) = update (fun k => (s.inode k).mount) i false := funext fun k => by
      rw [hinode, Function.update_apply, apply_ite MInode.mount]
    rw [← hdevs, ← setSuper_imount s e { s.super e with imount := none }, ← hmounts] at hagree
    exact hagree
  · have hk := h.counted k
    show (((s.setInode i { s.inode i with mount := false }).decCount i).inode k).count =
      s.users k + s.flights k + if (((s.setInode i { s.inode i with mount := false }).decCount
        i).inode k).mount then 1 else 0
    rw [mountRef] at hk
    rw [hinode]
    split
    case isTrue hki =>
      subst hki
      rw [hmount, if_pos rfl] at hk
      simp only [Bool.false_eq_true, if_false]
      omega
    case isFalse => exact hk
  · intro p' e' _ he'
    refine (setSuper_apply ..).trans (if_neg ?_)
    rintro rfl
    exact h.locked.free hlock p' he'
  · intro e' he'
    rw [hp] at he'
    cases he'
  · intro e' dir' heq
    rw [hp] at heq
    cases heq

/-- `sys_umount` looks for the super block. -/
theorem findStep (h : s.InOrder) (hp : s.phase p = .finds dev)
    (hg : ∀ i ∈ s.toPut p, s.Awake i) (hs : s.findStep p dev = some s') : s'.InOrder := by
  have hdir : (s.phase p).dir = none := by rw [hp]; rfl
  rw [Mounts.findStep] at hs
  split at hs
  case h_1 =>
    cases hs
    exact h.setPhase hdir.symm rfl trivial
  case h_2 e he =>
    split at hs
    case isTrue => cases hs
    case isFalse hlock =>
      have hlock : (s.super e).lock = false := by simpa using hlock
      split at hs
      case h_1 =>
        cases hs
        exact h.setPhase hdir.symm rfl trivial
      case h_2 i hi =>
        split at hs
        case isTrue =>
          cases hs
          exact h.setPhase hdir.symm rfl trivial
        case isFalse hbusy =>
          -- the inode is not locked, and `iput` does not sleep
          have hawake := hg i (by simp [toPut, hp, he, hlock, hbusy, hi])
          have hinode := (setInode_apply s i i { s.inode i with mount := false }).trans (if_pos rfl)
          have hawake' : (s.setInode i { s.inode i with mount := false }).Awake i := by
            rw [Mounts.Awake, hinode]
            exact hawake
          dsimp only at hs hawake'
          split at hs
          case isTrue hlocki =>
            rw [hawake'.1] at hlocki
            cases hlocki
          case isFalse =>
            split at hs
            case isTrue => cases hs
            case isFalse =>
              cases hs
              exact (h.uncover hp he hlock hi).putSuperStep hdir dev

/-- `read_super` looks for the super block. -/
theorem lookStep (h : s.InOrder) (hp : s.phase p = .looks dev dir)
    (hg : ∀ e ∈ s.toTake p, (s.super e).lock = false)
    (hs : s.lookStep p dev dir = some s') : s'.InOrder := by
  have hdir : (s.phase p).dir = some dir := by rw [hp]; rfl
  rw [Mounts.lookStep] at hs
  split at hs
  case isTrue =>
    cases hs
    exact h.setPhase hdir.symm rfl trivial
  case isFalse hdev =>
    split at hs
    case h_1 e he =>
      split at hs
      case isTrue => cases hs
      case isFalse hlock =>
        cases hs
        refine h.finishMount ?_ (by simpa using hlock) hdir
        rw [(lt_of_getSuper he).2.1]
        exact hdev
    case h_2 hnone =>
      split at hs
      case h_1 =>
        cases hs
        exact h.setPhase hdir.symm rfl trivial
      case h_2 e he =>
        have hlock := hg e (by simp [toTake, hp, hdev, hnone, he])
        rw [if_neg (by simp [hlock])] at hs
        cases hs
        exact h.claim he hlock hdev hnone hp

/-- A call gets a reference, or puts the one it has. -/
theorem refer (h : s.InOrder) {inode : MInode}
    (hcount : inode.count + (if (s.phase p).dir = some i then 1 else 0) =
      (s.inode i).count + if ph.dir = some i then 1 else 0)
    (hmount : inode.mount = (s.inode i).mount)
    (hdir : ∀ k, k ≠ i → ((s.phase p).dir = some k ↔ ph.dir = some k))
    (hlocked : ph.locked = none) (hawake : ph.Awake s.rootDev) :
    ((s.setInode i inode).setPhase p ph).InOrder := by
  have hinode : ∀ k, ((s.setInode i inode).inode k).mount = (s.inode k).mount := fun k => by
    rw [setInode_apply]
    split
    case isTrue hk => rw [hmount, hk]
    case isFalse => rfl
  refine ⟨?_, h.counted.move rfl fun k => ?_, h.locked.move rfl ?_ ?_ ?_,
    awake_move h.awake rfl hawake⟩
  · have hagree := h.agree
    rw [Agree, ← funext hinode] at hagree
    exact hagree
  · show ((s.setInode i inode).inode k).count + _ + s.users k + s.mountRef k =
      (s.inode k).count + _ + s.users k + if ((s.setInode i inode).inode k).mount then 1 else 0
    rw [hinode, setInode_apply, mountRef]
    by_cases hk : k = i
    · subst hk
      rw [if_pos rfl]
      omega
    · rw [if_neg hk]
      simp only [hdir k hk]
  · exact fun _ _ _ _ => rfl
  · intro e he
    rw [hlocked] at he
    cases he
  · rintro e dir rfl
    cases hlocked

theorem step {a : MountEvent P} (h : s.InOrder) (hg : s.Prompt a) (hs : s.next a = some s') :
    s'.InOrder := by
  cases a with
  | mount p dev i =>
    simp only [next] at hs
    split at hs
    case isFalse => cases hs
    case isTrue hp =>
      have hrefer : ∀ ph : MountPhase, ph.dir = some i → ph.locked = none → ph.Awake s.rootDev →
          ((s.setInode i { s.inode i with count := (s.inode i).count + 1 }).setPhase p ph).InOrder :=
        fun ph hdir hlocked hawake => by
          refine h.refer ?_ rfl (fun k hk => ?_) hlocked hawake
          · simp [hp, hdir]
          · simp [hp, hdir, Ne.symm hk]
      split at hs
      case isTrue =>
        cases hs
        exact hrefer _ rfl rfl trivial
      case isFalse =>
        split at hs
        case isTrue =>
          cases hs
          exact hrefer _ rfl rfl trivial
        case isFalse =>
          cases hs
          exact hrefer _ rfl rfl trivial
  | look p =>
    simp only [next] at hs
    split at hs
    case h_1 dev dir hp => exact h.lookStep hp hg hs
    case h_2 => cases hs
  | lock p =>
    simp only [next] at hs
    split at hs
    case h_1 e dir hp =>
      -- nobody waits for the lock
      have hawake := h.awake p
      rw [hp] at hawake
      exact hawake.elim
    case h_2 => cases hs
  | read p ok =>
    simp only [next] at hs
    split at hs
    case h_2 => cases hs
    case h_1 e dir hp =>
      split at hs
      case isFalse =>
        cases hs
        exact h.fail hp
      case isTrue =>
        cases hs
        -- the call has unlocked the super block, and is where `looks` is
        have hun : ((s.setSuper e { s.super e with lock := false }).setPhase p
            (.looks 0 dir)).InOrder := by
          refine h.unlock ?_ ?_ rfl trivial
          · rw [hp]
            rfl
          · rw [hp]
            rfl
        have hsuper : (s.setSuper e { s.super e with lock := false }).super e =
            { s.super e with lock := false } := (setSuper_apply ..).trans (if_pos rfl)
        have hdev : ((s.setSuper e { s.super e with lock := false }).super e).dev ≠ 0 := by
          rw [hsuper]
          exact h.locked.reads p e dir hp
        have hdir : (((s.setSuper e { s.super e with lock := false }).setPhase p
            (.looks 0 dir)).phase p).dir = some dir := by
          rw [setPhase_apply, if_pos rfl]
          rfl
        have hfin := hun.finishMount hdev (congrArg Super.lock hsuper) hdir
        rwa [finishMount_setPhase] at hfin
  | put p =>
    simp only [next] at hs
    split at hs
    case h_2 => cases hs
    case h_1 dir hp =>
      cases hs
      have hcount := h.counted dir
      have hpos : 1 ≤ s.flights dir := by
        refine Counting.count_pos_of (a := p) ?_
        rw [hp]
        rfl
      refine h.refer ?_ rfl (fun k hk => ?_) rfl trivial
      · rw [MInode.decCount_of_ne (by omega)]
        simp [hp]
        omega
      · simp [hp, Ne.symm hk]
  | umount p dev =>
    simp only [next] at hs
    split at hs
    case isFalse => cases hs
    case isTrue hp =>
      cases hs
      exact h.setPhase (by rw [hp.1]; rfl) rfl hp.2
  | find p =>
    simp only [next] at hs
    split at hs
    case h_1 dev hp => exact h.findStep hp hg hs
    case h_2 => cases hs
  | iput p =>
    simp only [next] at hs
    split at hs
    case h_1 e dev i first hp =>
      have hawake := h.awake p
      rw [hp] at hawake
      exact hawake.elim
    case h_2 => cases hs
  | changed p dev =>
    simp only [next] at hs
    split at hs
    case isFalse => cases hs
    case isTrue hp =>
      cases hs
      exact h.putSuperStep (by rw [hp.1]; rfl) dev
  | putSuper p =>
    simp only [next] at hs
    split at hs
    case h_1 dev hp =>
      cases hs
      exact h.putSuperStep (by rw [hp]; rfl) dev
    case h_2 => cases hs
  | release p =>
    simp only [next] at hs
    split at hs
    case h_1 e hp =>
      cases hs
      exact h.unlock (by rw [hp]; rfl) (by rw [hp]; rfl) rfl trivial
    case h_2 => cases hs
  | use i =>
    cases hs
    refine h.user ?_ rfl
    show (s.inode i).count + 1 + s.users i = (s.inode i).count + (s.users i + 1)
    omega
  | unuse i =>
    simp only [next] at hs
    split at hs
    case isTrue => cases hs
    case isFalse husers =>
      cases hs
      refine h.user ?_ rfl
      have hcount := h.counted i
      rw [MInode.decCount_of_ne (by omega)]
      show (s.inode i).count - 1 + s.users i = (s.inode i).count + (s.users i - 1)
      omega
  | load i dev num nlinks kind =>
    simp only [next] at hs
    split at hs
    case isTrue => cases hs
    case isFalse hfree =>
      cases hs
      have hcount := h.counted i
      have hmount : (s.inode i).mount = false := by
        by_contra hcon
        rw [mountRef, if_pos (by simpa using hcon)] at hcount
        exact hfree (.inl (by omega))
      refine h.user ?_ hmount.symm
      have hzero : (s.inode i).count = 0 := by
        by_contra hcon
        exact hfree (.inl hcon)
      show 1 + s.users i = (s.inode i).count + (s.users i + 1)
      omega
  | touch i nlinks dirt lock =>
    cases hs
    exact h.touch rfl rfl

theorem start (h : (mounting P).init s) : s.InOrder := by
  obtain ⟨hroot, ⟨e₀, hlt, hdev₀, himount₀, hother⟩, hlock, hinode, hphase⟩ := h
  have hentry : ∀ e, (s.super e).dev ≠ 0 ∨ (s.super e).imount ≠ none → e = e₀ := fun e he => by
    by_contra hne
    obtain ⟨hdev, himount⟩ := hother e hne
    exact he.elim (· hdev) (· himount)
  refine ⟨⟨⟨hroot, e₀, hlt, hdev₀, himount₀⟩, ?_, ?_, ?_, ?_, ?_, ?_⟩, ?_, ⟨?_, ?_, ?_⟩, ?_⟩
  · intro e he
    refine (hother e ?_).1
    rintro rfl
    omega
  · intro e e' he heq
    rw [hentry e (.inl he), hentry e' (.inl fun hcon => he (heq.trans hcon))]
  · intro e he
    rw [hentry e (.inr he)]
    show (s.super e₀).dev ≠ 0
    rwa [hdev₀]
  · intro e i he hdev
    rw [hentry e (.inr (by simp [he]))] at hdev
    exact absurd hdev₀ hdev
  · intro i hi
    change (s.inode i).mount = true at hi
    rw [(hinode i).1] at hi
    cases hi
  · intro e e' i he _ hdev
    rw [hentry e (.inr (by simp [he]))] at hdev
    exact absurd hdev₀ hdev
  · intro i
    have hflights : s.flights i = 0 := by
      refine Counting.count_eq_zero_iff.mpr fun p => ?_
      rw [hphase p]
      exact nofun
    simp [hflights, mountRef, hinode i]
  · intro p e he
    rw [hphase p] at he
    cases he
  · intro p p' e he
    rw [hphase p] at he
    cases he
  · intro p e dir hp
    rw [hphase p] at hp
    cases hp
  · intro p
    rw [hphase p]
    trivial

theorem reach (hr : (mounting P).Reach Mounts.Prompt s) : s.InOrder :=
  hr.invariant (fun _ => start) fun _ _ _ h hg hs => h.step hg hs

end InOrder

end Mounts

/-- In every run in which no `sys_umount` sleeps in the `iput` of the covered inode and no
`read_super` takes an entry that `put_super` has still locked, an inode has `i_mount` set if
and only if exactly one super block of a device other than the root device has it as
`s_imount`, that super block holds one of its references, the other references are held by
calls and processes, and no device is in two entries. -/
theorem mount_table {P : Type u} [Fintype P] [DecidableEq P] {s : Mounts P}
    (hr : (mounting P).Reach Mounts.Prompt s) :
    (∀ i, (s.inode i).mount = true ↔ ∃! e, (s.super e).dev ≠ 0 ∧ (s.super e).dev ≠ s.rootDev ∧
      (s.super e).imount = some i) ∧
    (∀ i, (s.inode i).count = s.users i + s.flights i + s.mountRef i) ∧
    ∀ e e', (s.super e).dev ≠ 0 → (s.super e).dev = (s.super e').dev → e = e' := by
  have h := Mounts.InOrder.reach hr
  refine ⟨fun i => ⟨fun hi => ?_, fun ⟨e, ⟨_, hdev, he⟩, _⟩ => h.agree.mounted e i he hdev⟩,
    h.counted, h.agree.once⟩
  obtain ⟨e, he, hdev⟩ := h.agree.covers i hi
  refine ⟨e, ⟨h.agree.named e ?_, hdev, he⟩, fun e' ⟨_, hdev', he'⟩ =>
    h.agree.alone e' e i he' he hdev' hdev⟩
  rw [he]
  exact Option.some_ne_none i

/-! ### Runs from a list of events -/

/-- Only the root device, in the first entry, is mounted; inode 1 is a directory in memory
that nobody uses. -/
def Mounts.booted : Mounts Bool where
  rootDev := 1
  super e := if e = 0 then ⟨1, some 0, false⟩ else ⟨0, none, false⟩
  inode i := if i = 1 then ⟨1, 7, .dir, 2, 0, false, false, false⟩ else .zero
  users _ := 0
  phase _ := .idle

theorem Mounts.reach_booted {G : Mounts Bool → MountEvent Bool → Prop} :
    (mounting Bool).Reach G .booted := by
  refine .init ⟨by decide, ⟨0, by decide, rfl, by simp [booted], fun e he => ?_⟩, fun e => ?_,
    fun i => ?_, fun _ => rfl⟩
  · simp [booted, he]
  · by_cases he : e = 0 <;> simp [booted, he]
  · by_cases hi : i = 1 <;> simp [booted, hi, MInode.zero]

/-- Device 2 is mounted on inode 1. -/
def mountRun : List (MountEvent Bool) := [.mount false 2 1, .look false, .read false true]

theorem mount_table_mounted : ∃ s : Mounts Bool,
    System.runOf (System.guarded Mounts.Prompt Mounts.next) mountRun .booted = some s ∧
    (s.inode 1).mount = true ∧ (∃! e, (s.super e).dev ≠ 0 ∧ (s.super e).dev ≠ s.rootDev ∧
      (s.super e).imount = some 1) ∧
    (s.inode 1).count = s.users 1 + s.flights 1 + s.mountRef 1 := by
  have hrun : (System.runOf (System.guarded Mounts.Prompt Mounts.next) mountRun .booted).any
      (fun s => (s.inode 1).mount) = true := by
    decide +kernel
  obtain ⟨s, hs, hmount⟩ := (Option.any_eq_true _ _).mp hrun
  have hreach : (mounting Bool).Reach Mounts.Prompt s :=
    .of_guarded (fun _ _ _ h => h) Mounts.reach_booted hs
  have htable := mount_table hreach
  exact ⟨s, hs, hmount, (htable.1 1).mp hmount, htable.2.1 1⟩

/-- Two processes unmount device 2: one sleeps in `write_inode`, where it has locked the
inode, and the other in `wait_on_inode`. -/
def umountRun : List (MountEvent Bool) := mountRun ++
  [.umount false 2, .umount true 2, .find false, .touch 1 2 false true, .find true,
    .touch 1 2 false false, .iput true, .iput false]

/-- The second of them puts a reference that is not there. -/
theorem mount_table_put_twice : ¬ ∀ s : Mounts Bool, (mounting Bool).Reachable s →
    ∀ i, (s.inode i).count = s.users i + s.flights i + s.mountRef i := by
  have hrun : (System.runOf Mounts.next umountRun .booted).any (fun s => decide
      ((s.inode 1).count = 65535 ∧ s.users 1 = 0 ∧ s.mountRef 1 = 0 ∧
        ∀ p, (s.phase p).dir = none)) = true := by
    decide +kernel
  obtain ⟨s, hs, hrun⟩ := (Option.any_eq_true _ _).mp hrun
  obtain ⟨hcount, husers, hmount, hdir⟩ := of_decide_eq_true hrun
  have hflights : s.flights 1 = 0 := by
    refine Counting.count_eq_zero_iff.mpr fun p => ?_
    rw [hdir p]
    exact nofun
  intro h
  have hreach : (mounting Bool).Reachable s :=
    .of_runOf (fun _ _ _ h => h) (fun _ _ _ => trivial) Mounts.reach_booted hs
  have hone := h s hreach 1
  rw [hcount, husers, hflights, hmount] at hone
  cases hone

end Fs
