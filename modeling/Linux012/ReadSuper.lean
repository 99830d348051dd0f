/-
Loading the super block of a device (`read_super`, `get_super` and `put_super` of fs/super.c,
`check_disk_change` of fs/buffer.c).

* `SuperBlock`, `Supers` — the super block table, and what is in the buffers of the bit maps;
* `Disk` — what the device has, and which of its blocks can be read;
* `readSuper` — the call, over the reference counts of the buffers;
* `Intact` — no bit map is stored past the end of its array or read through a null pointer, and
  a call that fails has changed no `b_count` and no entry that is in use;
* `read_super_intact` — this holds exactly for the disks whose bit maps `Fit`, unless the call
  does not come so far, and if no super block of a disk that was taken out is dropped first;
* `readSuper_sound` — the references of all maps stay counted, and no device is there twice;
* `read_super_null`, `read_super_past` — a disk with no bit map, and one with nine blocks of it.

Design notes: the call runs alone, so that the locks are free.  What the first fault does to the
kernel is left out.  `invalidate_inodes` and `invalidate_buffers` change no count.
-/
import Linux012.Owning
import Linux012.Counting
import Mathlib.Algebra.BigOperators.Pi
import Mathlib.Data.Fintype.Prod

namespace Fs

open Function (update)

/-- `MAJOR`, and the number of the floppy drives. -/
def major (dev : ℕ) : ℕ := dev / 256

def floppyMajor : ℕ := 2

def superMagic : ℕ := 0x137F

namespace Load

/-- The device and the number of the block that is in a buffer. -/
abbrev Buffer := ℕ × ℕ

/-- The arrays of bit map buffers in a super block. -/
inductive Map where
  | imap
  | zmap
  deriving DecidableEq

instance : Fintype Map := ⟨{.imap, .zmap}, fun m => by cases m <;> decide⟩

/-- `s_imap[i]` and `s_zmap[i]`. -/
abbrev Maps := Map × Fin 8 → Option Buffer

/-- What goes wrong: a store past the end of a map, a null pointer, `brelse` of a free buffer. -/
inductive Fault where
  | past (m : Map) (i : ℕ)
  | null
  | panic
  deriving DecidableEq

/-- `struct d_super_block`. -/
structure DSuper where
  ninodes : BitVec 16
  nzones : BitVec 16
  imapBlocks : BitVec 16
  zmapBlocks : BitVec 16
  firstdatazone : BitVec 16
  logZoneSize : BitVec 16
  maxSize : BitVec 32
  magic : BitVec 16

/-- `struct super_block`, where inodes are entries of the inode table. -/
structure SuperBlock where
  disk : DSuper
  maps : Maps
  dev : ℕ
  isup : Option ℕ
  imount : Option ℕ
  time : ℕ
  rdOnly : Bool
  dirt : Bool

/-- The super block table, and the first byte of each buffer of a bit map. -/
structure Supers where
  sb : Fin 8 → SuperBlock
  byte : Buffer → BitVec 8

/-- What a call finds on the device: block 1, and which blocks can be read at which turn. -/
structure Disk where
  super : DSuper
  superReadable : Bool
  mapReadable : Map → ℕ → Bool

abbrev Loading (α : Type) : Type := Owning Buffer Fault α

def DSuper.blocks (d : DSuper) : Map → ℕ
  | .imap => d.imapBlocks.toNat
  | .zmap => d.zmapBlocks.toNat

namespace Supers

def setSb (s : Supers) (e : Fin 8) (sb : SuperBlock) : Supers := { s with sb := update s.sb e sb }

/-- `get_super`. -/
def getSuper (s : Supers) (dev : ℕ) : Option (Fin 8) :=
  if dev = 0 then none else (List.finRange 8).find? fun e => (s.sb e).dev == dev

end Supers

/-! ### Buffers -/

def bread (readable : Bool) (dev block : ℕ) : Loading (Option Buffer) :=
  if readable then do
    Owning.take (dev, block)
    pure (some (dev, block))
  else pure none

def brelse : Option Buffer → Loading Unit
  | none => pure ()
  | some b => Owning.drop .panic b

/-- The slots of the two maps, in the order in which they are released. -/
def mapSlots : List (Map × Fin 8) :=
  (List.finRange 8).map (Map.imap, ·) ++ (List.finRange 8).map (Map.zmap, ·)

/-- The loops that release the buffers of both maps. -/
def releaseMaps (maps : Maps) : List (Map × Fin 8) → Loading Unit
  | [] => pure ()
  | p :: ps => do
    brelse (maps p)
    releaseMaps maps ps

/-! ### The calls -/

/-- `put_super`. -/
def putSuper (root : ℕ) (s : Supers) (dev : ℕ) : Loading Supers :=
  if dev = root then pure s
  else
    match s.getSuper dev with
    | none => pure s
    | some e =>
      if (s.sb e).imount.isSome then pure s
      else do
        releaseMaps (s.sb e).maps mapSlots
        pure (s.setSb e { s.sb e with dev := 0 })

/-- The loop of `check_disk_change`. -/
def dropSupers (root dev : ℕ) : List (Fin 8) → Supers → Loading Supers
  | [], s => pure s
  | e :: es, s =>
    if (s.sb e).dev = dev then do
      let s ← putSuper root s dev
      dropSupers root dev es s
    else dropSupers root dev es s

/-- `check_disk_change`; `changed` is what `floppy_change` says. -/
def checkDiskChange (root : ℕ) (changed : Bool) (s : Supers) (dev : ℕ) : Loading Supers :=
  if major dev ≠ floppyMajor then pure s
  else if changed = false then pure s
  else dropSupers root dev (List.finRange 8) s

/-- `s->s_imap[i] = bh` and `s->s_zmap[i] = bh`. -/
def setMap (maps : Maps) (m : Map) (i : ℕ) (bh : Option Buffer) : Loading Maps :=
  if h : i < 8 then pure (update maps (m, ⟨i, h⟩) bh) else throw (.past m i)

/-- The loop that reads a bit map, with `n` blocks to go: the map, and `block`. -/
def mapLoop (disk : Disk) (dev : ℕ) (m : Map) : ℕ → ℕ → ℕ → Maps → Loading (Maps × ℕ)
  | 0, _, block, maps => pure (maps, block)
  | n + 1, i, block, maps => do
    let bh ← bread (disk.mapReadable m i) dev block
    let maps ← setMap maps m i bh
    match bh with
    | some _ => mapLoop disk dev m n (i + 1) (block + 1) maps
    | none => pure (maps, block)

/-- The loops that read both bit maps. -/
def readBitMaps (disk : Disk) (dev : ℕ) : Loading (Maps × ℕ) := do
  let (maps, block) ← mapLoop disk dev .imap (disk.super.blocks .imap) 0 2 fun _ => none
  mapLoop disk dev .zmap (disk.super.blocks .zmap) 0 block maps

/-- `s->s_imap[0]->b_data[0] |= 1` and `s->s_zmap[0]->b_data[0] |= 1`. -/
def markFirst (maps : Maps) (m : Map) (byte : Buffer → BitVec 8) :
    Loading (Buffer → BitVec 8) :=
  match maps (m, 0) with
  | none => throw .null
  | some b => pure (update byte b (byte b ||| 1))

/-- `read_super` from the two bit maps on, for entry `e`. -/
def readMaps (disk : Disk) (s : Supers) (dev : ℕ) (e : Fin 8) :
    Loading (Option (Fin 8) × Supers) := do
  let (maps, block) ← readBitMaps disk dev
  let sb := { s.sb e with disk := disk.super, maps := maps }
  if block ≠ 2 + disk.super.blocks .imap + disk.super.blocks .zmap then do
    releaseMaps maps mapSlots
    pure (none, s.setSb e { sb with dev := 0 })
  else do
    let byte ← markFirst maps .imap s.byte
    let byte ← markFirst maps .zmap byte
    pure (some e, { s.setSb e sb with byte := byte })

/-- `read_super` for an entry that it has taken. -/
def loadSuper (disk : Disk) (s : Supers) (dev : ℕ) (e : Fin 8) :
    Loading (Option (Fin 8) × Supers) := do
  let bh ← bread disk.superReadable dev 1
  match bh with
  | none => pure (none, s.setSb e { s.sb e with dev := 0 })
  | some b => do
    brelse (some b)
    if disk.super.magic.toNat ≠ superMagic then
      pure (none, s.setSb e { s.sb e with disk := disk.super, dev := 0 })
    else readMaps disk s dev e

/-- `read_super` from `get_super` on. -/
def findSuper (disk : Disk) (s : Supers) (dev : ℕ) : Loading (Option (Fin 8) × Supers) :=
  match s.getSuper dev with
  | some e => pure (some e, s)
  | none =>
    match (List.finRange 8).find? fun e => (s.sb e).dev == 0 with
    | none => pure (none, s)
    | some e =>
      let sb := { s.sb e with
        dev := dev
        isup := none
        imount := none
        time := 0
        rdOnly := false
        dirt := false }
      loadSuper disk (s.setSb e sb) dev e

/-- `read_super`. -/
def readSuper (root : ℕ) (changed : Bool) (disk : Disk) (s : Supers) (dev : ℕ) :
    Loading (Option (Fin 8) × Supers) :=
  if dev = 0 then pure (none, s)
  else do
    let s ← checkDiskChange root changed s dev
    findSuper disk s dev

/-! ### What is to hold, and for which disks -/

/-- A call stays within the maps, reads through no null pointer, and leaves the reference counts
and the entries in use as they are if it returns NULL. -/
def Intact (root : ℕ) (changed : Bool) (disk : Disk) (s : Supers) (dev : ℕ)
    (count : Buffer → ℕ) : Prop :=
  ∃ r s' count', readSuper root changed disk s dev count = .ok ((r, s'), count') ∧
    (r = none → count' = count ∧ ∀ e, (s'.sb e).dev ≠ 0 ↔ (s.sb e).dev ≠ 0)

namespace Disk

/-- All blocks of both maps are read. -/
def AllRead (disk : Disk) : Prop :=
  ∀ m, ∀ i < disk.super.blocks m, disk.mapReadable m i = true

/-- The bit maps fit in their arrays, unless a block that cannot be read ends them before, and
have a block if all are read. -/
def Fits (disk : Disk) : Prop :=
  (∀ m, disk.super.blocks m ≤ 8 ∨ ∃ i < 8, disk.mapReadable m i = false) ∧
    (disk.AllRead → ∀ m, 0 < disk.super.blocks m)

/-- Block 1 can be read and holds a super block. -/
def HasSuper (disk : Disk) : Prop :=
  disk.superReadable = true ∧ disk.super.magic.toNat = superMagic

end Disk

namespace Supers

/-- The super block of the device is dropped, since its disk was taken out. -/
def Drops (s : Supers) (root : ℕ) (changed : Bool) (dev : ℕ) : Prop :=
  changed = true ∧ major dev = floppyMajor ∧ dev ≠ root ∧
    ∃ e, (s.sb e).dev = dev ∧ (s.sb e).imount = none

open Classical in
/-- The calls that leave everything intact. -/
def Proper (s : Supers) (root : ℕ) (changed : Bool) (disk : Disk) (dev : ℕ) : Prop :=
  dev = 0 ∨
    if s.Drops root changed dev then disk.HasSuper ∧ disk.AllRead ∧ disk.Fits
    else (∃ e, (s.sb e).dev = dev) ∨ (∀ e, (s.sb e).dev ≠ 0) ∨ (disk.HasSuper → disk.Fits)

end Supers

/-- The references that the maps hold. -/
def held (maps : Maps) : Buffer → ℕ := ∑ p, (maps p).elim 0 (Pi.single · 1)

/-- The references of an entry of the table. -/
def SuperBlock.refs (sb : SuperBlock) : Buffer → ℕ := if sb.dev = 0 then 0 else held sb.maps

/-- No device has two super blocks, and the references of all maps are counted. -/
structure Sound (s : Supers) (count : Buffer → ℕ) : Prop where
  distinct : ∀ e e', (s.sb e).dev = (s.sb e').dev → (s.sb e).dev ≠ 0 → e = e'
  counted : ∀ b, ∑ e, (s.sb e).refs b ≤ count b

/-! ### The maps -/

section

variable {disk : Disk} {dev i n block : ℕ} {m : Map} {maps : Maps} {H : Buffer → ℕ}

/-- What a buffer counts for. -/
theorem brelse_yields {bh : Option Buffer} :
    Owning.Yields (brelse bh) (bh.elim 0 (Pi.single · 1) + H) (.ok ()) fun _ => H := by
  cases bh with
  | none => exact Owning.Yields.pure (zero_add H).symm
  | some b =>
    have hpure : Owning.Yields (pure ⟨⟩ : Loading PUnit) H (.ok ⟨⟩) fun _ => H :=
      Owning.Yields.pure rfl
    have hdrop := Owning.Yields.bind_drop (e := Fault.panic) (x := b) hpure
    rw [bind_pure_unit] at hdrop
    exact hdrop

theorem releaseMaps_yields (ps : List (Map × Fin 8)) :
    Owning.Yields (releaseMaps maps ps) ((ps.map fun p => (maps p).elim 0 (Pi.single · 1)).sum + H)
      (.ok ()) fun _ => H := by
  induction ps with
  | nil => exact Owning.Yields.pure (zero_add H).symm
  | cons p ps ih =>
    rw [List.map_cons, List.sum_cons, add_assoc]
    exact brelse_yields.bind_ok ih

theorem held_eq_sum : held maps =
    (mapSlots.map fun p => (maps p).elim (0 : Buffer → ℕ) (Pi.single · 1)).sum := by
  have hall : mapSlots.toFinset = Finset.univ := by decide
  rw [held, ← hall, List.sum_toFinset _ (by decide)]

/-- The loops that release the maps give back what these hold. -/
theorem release_yields :
    Owning.Yields (releaseMaps maps mapSlots) (held maps + H) (.ok ()) fun _ => H := by
  rw [held_eq_sum]
  exact releaseMaps_yields mapSlots

theorem held_update {p : Map × Fin 8} {b : Buffer} (hp : maps p = none) :
    held (update maps p (some b)) = Pi.single b 1 + held maps := by
  have hother : ∀ q ∈ Finset.univ.erase p,
      (update maps p (some b) q).elim (0 : Buffer → ℕ) (Pi.single · 1) =
        (maps q).elim 0 (Pi.single · 1) := by
    intro q hq
    rw [Function.update_of_ne (Finset.ne_of_mem_erase hq)]
  rw [held, held, ← Finset.add_sum_erase _ _ (Finset.mem_univ p),
    ← Finset.add_sum_erase _ (fun q => (maps q).elim _ _) (Finset.mem_univ p),
    Finset.sum_congr rfl hother, Function.update_self, hp]
  exact congrArg (_ + ·) (zero_add _).symm

/-- A map that is read until a block is missing keeps what it had before, and holds what was
read; `block` tells whether all was. -/
theorem mapLoop_yields (disk : Disk) (dev n i block : ℕ) (maps : Maps)
    (hnone : ∀ j : Fin 8, i ≤ j → maps (m, j) = none)
    (hfit : i + n ≤ 8 ∨ ∃ j, i ≤ j ∧ j < 8 ∧ disk.mapReadable m j = false) :
    ∃ maps' block', Owning.Yields (mapLoop disk dev m n i block maps) (held maps)
        (.ok (maps', block')) (fun r => held r.1) ∧
      (∀ p, (p.1 = m → p.2 < i) → maps' p = maps p) ∧
      (∀ j : Fin 8, j = i → (maps' (m, j) ≠ none ↔ 0 < n ∧ disk.mapReadable m i = true)) ∧
      block' ≤ block + n ∧
      (block' = block + n ↔ ∀ j, i ≤ j → j < i + n → disk.mapReadable m j = true) := by
  induction n generalizing i block maps with
  | zero =>
    refine ⟨maps, block, Owning.Yields.pure rfl, fun p _ => rfl, ?_, Nat.le_refl _, ?_⟩
    · intro j hj
      exact iff_of_false (fun h => h (hnone j (by omega))) fun h => Nat.lt_irrefl 0 h.1
    · exact iff_of_true rfl fun j hij hj => by omega
  | succ n ih =>
    have hi : i < 8 := by
      rcases hfit with hfit | ⟨j, hij, hj, -⟩ <;> omega
    have hset : ∀ bh, setMap maps m i bh = pure (update maps (m, ⟨i, hi⟩) bh) :=
      fun bh => dif_pos hi
    by_cases hread : disk.mapReadable m i = true
    · -- the block is read, and the loop goes on
      have hfit' : i + 1 + n ≤ 8 ∨ ∃ j, i + 1 ≤ j ∧ j < 8 ∧ disk.mapReadable m j = false := by
        rcases hfit with hfit | ⟨j, hij, hj, hbad⟩
        · exact .inl (by omega)
        · have hne : i ≠ j := by
            rintro rfl
            rw [hread] at hbad
            cases hbad
          exact .inr ⟨j, by omega, hj, hbad⟩
      have hnone' : ∀ j : Fin 8, i + 1 ≤ j →
          update maps (m, ⟨i, hi⟩) (some (dev, block)) (m, j) = none := by
        intro j hj
        rw [Function.update_of_ne]
        · exact hnone j (by omega)
        · rintro ⟨⟩
          exact Nat.not_succ_le_self i hj
      obtain ⟨maps', block', hyields, hkeep, -, hle, hall⟩ := ih (i + 1) (block + 1) _ hnone' hfit'
      refine ⟨maps', block', ?_, ?_, ?_, by omega, ?_⟩
      · rw [held_update (hnone ⟨i, hi⟩ (Nat.le_refl i))] at hyields
        rw [mapLoop, hread, bread, if_pos rfl]
        simp only [bind_assoc, pure_bind, hset]
        exact Owning.Yields.bind_take hyields
      · intro p hp
        rw [hkeep p fun hm => Nat.lt_succ_of_lt (hp hm), Function.update_of_ne]
        rintro rfl
        exact Nat.lt_irrefl i (hp rfl)
      · intro j hj
        obtain rfl : j = ⟨i, hi⟩ := Fin.ext hj
        rw [hkeep (m, ⟨i, hi⟩) fun _ => Nat.lt_succ_self i, Function.update_self]
        exact iff_of_true (Option.some_ne_none _) ⟨Nat.succ_pos n, hread⟩
      · rw [show block + (n + 1) = block + 1 + n by omega, hall]
        constructor
        · intro h j hij hj
          rcases Nat.eq_or_lt_of_le hij with rfl | hij
          · exact hread
          · exact h j hij (by omega)
        · exact fun h j hij hj => h j (by omega) (by omega)
    · -- the block is missing, and the loop ends
      refine ⟨update maps (m, ⟨i, hi⟩) none, block, ?_, ?_, ?_, by omega, ?_⟩
      · have hsame : update maps (m, ⟨i, hi⟩) none = maps := by
          rw [← hnone ⟨i, hi⟩ (Nat.le_refl i), Function.update_eq_self]
        rw [mapLoop, bread, if_neg hread]
        simp only [pure_bind, hset, hsame]
        exact Owning.Yields.pure rfl
      · intro p hp
        rw [Function.update_of_ne]
        rintro rfl
        exact Nat.lt_irrefl i (hp rfl)
      · intro j hj
        obtain rfl : j = ⟨i, hi⟩ := Fin.ext hj
        rw [Function.update_self]
        exact iff_of_false (fun h => h rfl) fun h => hread h.2
      · refine iff_of_false (by omega) fun h => hread (h i (Nat.le_refl i) (by omega))

/-- A map with more than 8 blocks, of which the first 8 can be read, runs over. -/
theorem mapLoop_past (n i block : ℕ) (maps : Maps) (hi : i ≤ 8) (hn : 8 < i + n)
    (hread : ∀ j, i ≤ j → j < 8 → disk.mapReadable m j = true) (count : Buffer → ℕ) :
    mapLoop disk dev m n i block maps count = .error (.past m 8) := by
  induction n generalizing i block maps count with
  | zero => omega
  | succ n ih =>
    by_cases hlt : i < 8
    · have hset : ∀ bh, setMap maps m i bh = pure (update maps (m, ⟨i, hlt⟩) bh) :=
        fun bh => dif_pos hlt
      rw [mapLoop, hread i (Nat.le_refl i) hlt, bread, if_pos rfl]
      simp only [bind_assoc, pure_bind, hset]
      exact ih (i + 1) _ _ (by omega) (by omega) (fun j hj => hread j (by omega)) _
    · obtain rfl : i = 8 := by omega
      have hset : ∀ bh, setMap maps m 8 bh = throw (.past m 8) := fun bh => dif_neg hlt
      rw [mapLoop, bread]
      by_cases hlast : disk.mapReadable m 8 = true
      · rw [if_pos hlast]
        simp only [bind_assoc, pure_bind, hset]
        rfl
      · rw [if_neg hlast]
        simp only [pure_bind, hset]
        rfl

/-- Both maps, where they fit. -/
theorem readBitMaps_yields (dev : ℕ)
    (hfit : ∀ m, disk.super.blocks m ≤ 8 ∨ ∃ i < 8, disk.mapReadable m i = false) :
    ∃ maps block, Owning.Yields (readBitMaps disk dev) 0 (.ok (maps, block))
        (fun r => held r.1) ∧
      (∀ m, maps (m, 0) ≠ none ↔ 0 < disk.super.blocks m ∧ disk.mapReadable m 0 = true) ∧
      (block = 2 + disk.super.blocks .imap + disk.super.blocks .zmap ↔ disk.AllRead) := by
  have hfits : ∀ m, 0 + disk.super.blocks m ≤ 8 ∨
      ∃ j, 0 ≤ j ∧ j < 8 ∧ disk.mapReadable m j = false := by
    intro m
    rcases hfit m with h | ⟨i, hi, hbad⟩
    · exact .inl (by omega)
    · exact .inr ⟨i, Nat.zero_le i, hi, hbad⟩
  obtain ⟨maps₁, block₁, hyields₁, hkeep₁, hfirst₁, hle₁, hall₁⟩ :=
    mapLoop_yields disk dev (disk.super.blocks .imap) 0 2 (fun _ => none)
      (fun _ _ => rfl) (hfits .imap)
  have hnone : ∀ j : Fin 8, 0 ≤ (j : ℕ) → maps₁ (.zmap, j) = none :=
    fun j _ => hkeep₁ (.zmap, j) nofun
  obtain ⟨maps₂, block₂, hyields₂, hkeep₂, hfirst₂, hle₂, hall₂⟩ :=
    mapLoop_yields disk dev (disk.super.blocks .zmap) 0 block₁ maps₁ hnone
      (hfits .zmap)
  refine ⟨maps₂, block₂, ?_, ?_, ?_⟩
  · have hzero : held (fun _ => none) = 0 := Finset.sum_const_zero
    rw [hzero] at hyields₁
    exact hyields₁.bind_ok hyields₂
  · intro m
    cases m with
    | imap =>
      rw [hkeep₂ (.imap, 0) nofun]
      exact hfirst₁ 0 rfl
    | zmap => exact hfirst₂ 0 rfl
  · -- one counter runs over both maps, so it ends at the sum only if neither loop was left
    constructor
    · intro hblock m i hi
      cases m with
      | imap => exact hall₁.mp (by omega) i (Nat.zero_le i) (by omega)
      | zmap => exact hall₂.mp (by omega) i (Nat.zero_le i) (by omega)
    · intro hread
      have h₁ := hall₁.mpr fun j _ hj => hread .imap j (by omega)
      have h₂ := hall₂.mpr fun j _ hj => hread .zmap j (by omega)
      omega

/-- What has become of the entry that was taken. -/
structure Loaded (s s' : Supers) (e : Fin 8) (r : Option (Fin 8)) (R : Buffer → ℕ) : Prop where
  others : ∀ e', e' ≠ e → s'.sb e' = s.sb e'
  null : r = none → R = 0 ∧ (s'.sb e).dev = 0
  loaded : ∀ e', r = some e' → R = held (s'.sb e).maps ∧ (s'.sb e).dev = (s.sb e).dev

theorem Supers.setSb_self (s : Supers) (e : Fin 8) (sb : SuperBlock) :
    (s.setSb e sb).sb e = sb := Function.update_self _ _ _

theorem Supers.setSb_of_ne (s : Supers) {e e' : Fin 8} (sb : SuperBlock) (h : e' ≠ e) :
    (s.setSb e sb).sb e' = s.sb e' := Function.update_of_ne h _ _

/-- `read_super` with maps that fit: it succeeds if all blocks can be read. -/
theorem readMaps_fits (dev : ℕ) (hfits : disk.Fits) (s : Supers) (e : Fin 8) :
    ∃ r s' R, Owning.Yields (readMaps disk s dev e) 0 (.ok (r, s')) (fun _ => R) ∧
      Loaded s s' e r R ∧ (r = none ↔ ¬ disk.AllRead) := by
  obtain ⟨maps, block, hyields, hfirst, hblock⟩ := readBitMaps_yields dev hfits.1
  by_cases hall : disk.AllRead
  · have hmark : ∀ m byte, ∃ byte', markFirst maps m byte = pure byte' := by
      intro m byte
      have hpos := hfits.2 hall m
      obtain ⟨b, hb⟩ := Option.ne_none_iff_exists'.mp ((hfirst m).mpr ⟨hpos, hall m 0 hpos⟩)
      exact ⟨_, by rw [markFirst, hb]⟩
    obtain ⟨byte, hbyte⟩ := hmark .imap s.byte
    obtain ⟨byte', hbyte'⟩ := hmark .zmap byte
    let sb := { s.sb e with disk := disk.super, maps := maps }
    refine ⟨some e, { s.setSb e sb with byte := byte' }, held maps, ?_, ?_, ?_⟩
    · refine hyields.bind_ok ?_
      dsimp only
      rw [if_neg (not_not.mpr (hblock.mpr hall)), hbyte, pure_bind, hbyte', pure_bind]
      exact Owning.Yields.pure rfl
    · refine ⟨fun e' he => s.setSb_of_ne sb he, nofun, fun e' _ => ?_⟩
      rw [show ({ s.setSb e sb with byte := byte' } : Supers).sb e = sb from s.setSb_self e sb]
      exact ⟨rfl, rfl⟩
    · exact iff_of_false nofun fun h => h hall
  · let sb := { s.sb e with disk := disk.super, maps := maps, dev := 0 }
    refine ⟨none, s.setSb e sb, 0, ?_, ?_, iff_of_true rfl hall⟩
    · refine hyields.bind_ok ?_
      dsimp only
      rw [if_pos fun heq => hall (hblock.mp heq), ← add_zero (held maps)]
      exact release_yields.bind_ok (Owning.Yields.pure rfl)
    · refine ⟨fun e' he => s.setSb_of_ne sb he, fun _ => ⟨rfl, ?_⟩, nofun⟩
      rw [s.setSb_self e sb]

/-- A map that does not fit runs over, the first one before the second one is read. -/
theorem readBitMaps_past (dev : ℕ)
    (hfit : ¬ ∀ m, disk.super.blocks m ≤ 8 ∨ ∃ i < 8, disk.mapReadable m i = false)
    (count : Buffer → ℕ) : ∃ f, readBitMaps disk dev count = .error f := by
  have hpast : ∀ m, ¬ (disk.super.blocks m ≤ 8 ∨ ∃ i < 8, disk.mapReadable m i = false) →
      ∀ block maps count, mapLoop disk dev m (disk.super.blocks m) 0 block maps count =
        .error (.past m 8) := by
    intro m hm block maps count
    rw [not_or, not_exists] at hm
    refine mapLoop_past _ 0 block maps (by omega) (by omega) (fun j _ hj => ?_) count
    by_contra hbad
    exact hm.2 j ⟨hj, Bool.eq_false_iff.mpr hbad⟩
  rw [readBitMaps, Owning.bind_apply]
  by_cases himap : disk.super.blocks .imap ≤ 8 ∨ ∃ i < 8, disk.mapReadable .imap i = false
  · have hzmap : ¬ (disk.super.blocks .zmap ≤ 8 ∨ ∃ i < 8, disk.mapReadable .zmap i = false) := by
      intro hzmap
      refine hfit fun m => ?_
      cases m with
      | imap => exact himap
      | zmap => exact hzmap
    cases mapLoop disk dev .imap (disk.super.blocks .imap) 0 2 (fun _ => none) count with
    | error f => exact ⟨f, rfl⟩
    | ok x => exact ⟨_, hpast .zmap hzmap x.1.2 x.1.1 x.2⟩
  · rw [hpast .imap himap]
    exact ⟨_, rfl⟩

/-- With maps that do not fit, `read_super` comes to a fault. -/
theorem readMaps_fault (dev : ℕ) (hfits : ¬ disk.Fits) (s : Supers) (e : Fin 8)
    (count : Buffer → ℕ) :
    ∃ f, readMaps disk s dev e count = .error f := by
  rw [readMaps, Owning.bind_apply]
  by_cases hfit : ∀ m, disk.super.blocks m ≤ 8 ∨ ∃ i < 8, disk.mapReadable m i = false
  · -- a map without blocks has no first buffer
    obtain ⟨maps, block, hyields, hfirst, hblock⟩ := readBitMaps_yields dev hfit
    have hrest : ¬ (disk.AllRead → ∀ m, 0 < disk.super.blocks m) := fun h => hfits ⟨hfit, h⟩
    rw [Classical.not_imp, not_forall] at hrest
    obtain ⟨hall, m, hm⟩ := hrest
    have hnull : ∀ byte, markFirst maps m byte = throw .null := by
      intro byte
      have hnone : maps (m, 0) = none := by
        by_contra hne
        exact hm ((hfirst m).mp hne).1
      rw [markFirst, hnone]
    have hstart : readBitMaps disk dev count = .ok ((maps, block), count + held maps) :=
      hyields count
    rw [hstart]
    show ∃ f, (if block ≠ _ then _ else _ : Loading _) _ = _
    rw [if_neg (not_not.mpr (hblock.mpr hall))]
    cases m with
    | imap =>
      rw [hnull]
      exact ⟨_, rfl⟩
    | zmap =>
      rw [Owning.bind_apply]
      cases markFirst maps .imap s.byte (count + held maps) with
      | error f => exact ⟨f, rfl⟩
      | ok x =>
        simp only [hnull]
        exact ⟨_, rfl⟩
  · obtain ⟨f, hf⟩ := readBitMaps_past dev hfit count
    rw [hf]
    exact ⟨f, rfl⟩

/-- `read_super` for an entry that it has taken, on a disk whose maps fit if it has any. -/
theorem loadSuper_fits (dev : ℕ) (hfits : disk.HasSuper → disk.Fits) (s : Supers) (e : Fin 8) :
    ∃ r s' R, Owning.Yields (loadSuper disk s dev e) 0 (.ok (r, s')) (fun _ => R) ∧
      Loaded s s' e r R ∧ (r = none ↔ ¬ (disk.HasSuper ∧ disk.AllRead)) := by
  by_cases hread : disk.superReadable = true
  · by_cases hmagic : disk.super.magic.toNat = superMagic
    · obtain ⟨r, s', R, hyields, hloaded, hnull⟩ := readMaps_fits dev (hfits ⟨hread, hmagic⟩) s e
      refine ⟨r, s', R, ?_, hloaded, ?_⟩
      · rw [loadSuper, bread, if_pos hread, bind_assoc]
        refine Owning.Yields.bind_take ?_
        rw [pure_bind]
        refine brelse_yields.bind_ok ?_
        rw [if_neg (not_not.mpr hmagic)]
        exact hyields
      · rw [hnull]
        exact not_congr ⟨fun hall => ⟨⟨hread, hmagic⟩, hall⟩, fun h => h.2⟩
    · let sb := { s.sb e with disk := disk.super, dev := 0 }
      refine ⟨none, s.setSb e sb, 0, ?_, ?_, iff_of_true rfl fun h => hmagic h.1.2⟩
      · rw [loadSuper, bread, if_pos hread, bind_assoc]
        refine Owning.Yields.bind_take ?_
        rw [pure_bind]
        refine brelse_yields.bind_ok ?_
        rw [if_pos hmagic]
        exact Owning.Yields.pure rfl
      · refine ⟨fun e' he => s.setSb_of_ne sb he, fun _ => ⟨rfl, ?_⟩, nofun⟩
        rw [s.setSb_self e sb]
  · let sb := { s.sb e with dev := 0 }
    refine ⟨none, s.setSb e sb, 0, ?_, ?_, iff_of_true rfl fun h => hread h.1.1⟩
    · rw [loadSuper, bread, if_neg hread, pure_bind]
      exact Owning.Yields.pure rfl
    · refine ⟨fun e' he => s.setSb_of_ne sb he, fun _ => ⟨rfl, ?_⟩, nofun⟩
      rw [s.setSb_self e sb]

theorem loadSuper_fault (dev : ℕ) (hsuper : disk.HasSuper) (hfits : ¬ disk.Fits) (s : Supers)
    (e : Fin 8) (count : Buffer → ℕ) : ∃ f, loadSuper disk s dev e count = .error f := by
  obtain ⟨f, hf⟩ := readMaps_fault dev hfits s e count
  refine ⟨f, ?_⟩
  rw [loadSuper, bread, if_pos hsuper.1, bind_assoc, Owning.bind_apply]
  show (brelse _ >>= fun _ => _ : Loading _) _ = _
  have hrel : Owning.Yields (brelse (some (dev, 1))) (Pi.single (dev, 1) 1 + 0) (.ok ())
      fun _ => 0 := brelse_yields
  replace hrel := hrel count
  rw [add_zero] at hrel
  rw [Owning.bind_apply]
  show (brelse (some (dev, 1)) (count + Pi.single (dev, 1) 1) >>= _) = _
  rw [show brelse (some (dev, 1)) (count + Pi.single (dev, 1) 1) = .ok ((), count) from hrel]
  show (if disk.super.magic.toNat ≠ superMagic then _ else _ : Loading _) _ = _
  rw [if_neg (not_not.mpr hsuper.2)]
  exact hf

end

/-! ### The table -/

section

variable {s : Supers} {root dev : ℕ} {changed : Bool} {count : Buffer → ℕ}

theorem Supers.getSuper_eq_none (hdev : dev ≠ 0) :
    s.getSuper dev = none ↔ ∀ e, (s.sb e).dev ≠ dev := by
  rw [getSuper, if_neg hdev, List.find?_eq_none]
  simp

theorem Supers.getSuper_eq_some {e : Fin 8} (h : s.getSuper dev = some e) :
    dev ≠ 0 ∧ (s.sb e).dev = dev := by
  rw [getSuper] at h
  split at h
  case isTrue => cases h
  case isFalse hdev =>
    have hfound := List.find?_some h
    exact ⟨hdev, beq_iff_eq.mp hfound⟩

theorem SuperBlock.refs_of_used {sb : SuperBlock} (h : sb.dev ≠ 0) : sb.refs = held sb.maps :=
  if_neg h

theorem SuperBlock.refs_of_free {sb : SuperBlock} (h : sb.dev = 0) : sb.refs = 0 := if_pos h

theorem Sound.held_le (hsound : Sound s count) {e : Fin 8} (he : (s.sb e).dev ≠ 0) :
    held (s.sb e).maps ≤ count := by
  intro b
  have hle : (s.sb e).refs b ≤ ∑ e, (s.sb e).refs b :=
    Finset.single_le_sum (f := fun e => (s.sb e).refs b) (fun _ _ => Nat.zero_le _)
      (Finset.mem_univ e)
  rw [SuperBlock.refs_of_used he] at hle
  exact hle.trans (hsound.counted b)

/-- A super block that is not dropped. -/
theorem putSuper_keep (hkeep : dev = root ∨
    ∀ e, (s.sb e).dev = dev → (s.sb e).imount ≠ none) : putSuper root s dev = pure s := by
  rw [putSuper]
  by_cases hroot : dev = root
  · rw [if_pos hroot]
  · rw [if_neg hroot]
    cases hget : s.getSuper dev with
    | none => rfl
    | some e =>
      dsimp only
      have hne := (hkeep.resolve_left hroot) e (Supers.getSuper_eq_some hget).2
      rw [if_pos (Option.isSome_iff_ne_none.mpr hne)]

theorem dropSupers_keep (hkeep : dev = root ∨
    ∀ e, (s.sb e).dev = dev → (s.sb e).imount ≠ none) (es : List (Fin 8)) :
    dropSupers root dev es s = pure s := by
  induction es with
  | nil => rfl
  | cons e es ih =>
    rw [dropSupers, putSuper_keep hkeep, pure_bind, ih, ite_self]

/-- Once no entry has the device, none is dropped. -/
theorem dropSupers_absent (habsent : ∀ e, (s.sb e).dev ≠ dev) (es : List (Fin 8)) :
    dropSupers root dev es s = pure s := by
  induction es with
  | nil => rfl
  | cons e es ih => rw [dropSupers, if_neg (habsent e), ih]

/-- The entry of the device, once it is dropped. -/
def Supers.dropped (s : Supers) (e : Fin 8) : Supers := s.setSb e { s.sb e with dev := 0 }

theorem dropped_absent (hsound : Sound s count) {e : Fin 8} (he : (s.sb e).dev = dev)
    (hdev : dev ≠ 0) (e' : Fin 8) : ((s.dropped e).sb e').dev ≠ dev := by
  by_cases heq : e' = e
  · rw [heq, Supers.dropped, s.setSb_self]
    exact hdev.symm
  · rw [Supers.dropped, s.setSb_of_ne _ heq]
    intro hsame
    exact heq (hsound.distinct e' e (hsame.trans he.symm) (hsame ▸ hdev))

theorem putSuper_drops (hsound : Sound s count) {e : Fin 8} (he : (s.sb e).dev = dev)
    (hdev : dev ≠ 0) (hroot : dev ≠ root) (hmount : (s.sb e).imount = none) :
    Owning.Yields (putSuper root s dev) (held (s.sb e).maps) (.ok (s.dropped e)) fun _ => 0 := by
  have hget : s.getSuper dev = some e := by
    cases hget : s.getSuper dev with
    | none => exact absurd he ((Supers.getSuper_eq_none hdev).mp hget e)
    | some e' =>
      have he' := (Supers.getSuper_eq_some hget).2
      rw [hsound.distinct e' e (he'.trans he.symm) (he' ▸ hdev)]
  rw [putSuper, if_neg hroot, hget]
  dsimp only
  rw [if_neg (by rw [hmount]; exact Bool.false_ne_true), ← add_zero (held _)]
  exact release_yields.bind_ok (Owning.Yields.pure rfl)

theorem dropSupers_drops (hsound : Sound s count) {e : Fin 8} (he : (s.sb e).dev = dev)
    (hdev : dev ≠ 0) (hroot : dev ≠ root) (hmount : (s.sb e).imount = none) (es : List (Fin 8))
    (hmem : e ∈ es) : Owning.Yields (dropSupers root dev es s) (held (s.sb e).maps)
      (.ok (s.dropped e)) fun _ => 0 := by
  induction es with
  | nil => cases hmem
  | cons e' es ih =>
    rw [dropSupers]
    by_cases heq : (s.sb e').dev = dev
    · rw [if_pos heq]
      refine (putSuper_drops hsound he hdev hroot hmount).bind_ok ?_
      rw [dropSupers_absent (dropped_absent hsound he hdev)]
      exact Owning.Yields.pure rfl
    · rw [if_neg heq]
      rcases List.mem_cons.mp hmem with rfl | hmem
      · exact absurd he heq
      · exact ih hmem

/-- What `check_disk_change` does. -/
theorem checkDiskChange_spec (root : ℕ) (changed : Bool) (hsound : Sound s count) (hdev : dev ≠ 0) :
    (¬ s.Drops root changed dev ∧ checkDiskChange root changed s dev = pure s) ∨
    s.Drops root changed dev ∧ ∃ e, (s.sb e).dev = dev ∧
      Owning.Yields (checkDiskChange root changed s dev) (held (s.sb e).maps)
        (.ok (s.dropped e)) fun _ => 0 := by
  rw [checkDiskChange]
  by_cases hmajor : major dev = floppyMajor
  swap
  · exact .inl ⟨fun h => hmajor h.2.1, if_pos hmajor⟩
  rw [if_neg (not_not.mpr hmajor)]
  by_cases hchanged : changed = true
  swap
  · exact .inl ⟨fun h => hchanged h.1, if_pos (Bool.eq_false_iff.mpr hchanged)⟩
  rw [if_neg (by simp [hchanged])]
  by_cases hdrops : s.Drops root changed dev
  · obtain ⟨-, -, hroot, e, he, hmount⟩ := hdrops
    exact .inr ⟨⟨hchanged, hmajor, hroot, e, he, hmount⟩, e, he,
      dropSupers_drops hsound he hdev hroot hmount _ (List.mem_finRange e)⟩
  · refine .inl ⟨hdrops, dropSupers_keep ?_ _⟩
    by_cases hroot : dev = root
    · exact .inl hroot
    · exact .inr fun e he hmount => hdrops ⟨hchanged, hmajor, hroot, e, he, hmount⟩

/-- `read_super` finds the super block of the device, no free entry, or takes one. -/
theorem findSuper_spec (s : Supers) (disk : Disk) (hdev : dev ≠ 0) :
    (∃ e, (s.sb e).dev = dev ∧ findSuper disk s dev = pure (some e, s)) ∨
    ((∀ e, (s.sb e).dev ≠ dev) ∧ (∀ e, (s.sb e).dev ≠ 0) ∧
      findSuper disk s dev = pure (none, s)) ∨
    (∀ e, (s.sb e).dev ≠ dev) ∧ ∃ e sb, (s.sb e).dev = 0 ∧ sb.dev = dev ∧
      findSuper disk s dev = loadSuper disk (s.setSb e sb) dev e := by
  rw [findSuper]
  cases hget : s.getSuper dev with
  | some e => exact .inl ⟨e, (Supers.getSuper_eq_some hget).2, rfl⟩
  | none =>
    have habsent := (Supers.getSuper_eq_none hdev).mp hget
    cases hfree : (List.finRange 8).find? fun e => (s.sb e).dev == 0 with
    | none =>
      refine .inr (.inl ⟨habsent, fun e he => ?_, rfl⟩)
      have hnot := List.find?_eq_none.mp hfree e (List.mem_finRange e)
      exact hnot (beq_iff_eq.mpr he)
    | some e =>
      have hfound := List.find?_some hfree
      exact .inr (.inr ⟨habsent, e, _, beq_iff_eq.mp hfound, rfl, rfl⟩)

/-- A call that fails leaves the entries in use that were in use. -/
theorem Loaded.used {s' : Supers} {e : Fin 8} {sb : SuperBlock} {R : Buffer → ℕ}
    (hloaded : Loaded (s.setSb e sb) s' e none R) (hfree : (s.sb e).dev = 0) (e' : Fin 8) :
    (s'.sb e').dev = (s.sb e').dev := by
  by_cases heq : e' = e
  · rw [heq, (hloaded.null rfl).2, hfree]
  · rw [hloaded.others e' heq, s.setSb_of_ne _ heq]

end

/-- `read_super` leaves everything intact in the calls that are `Proper`. -/
theorem read_super_intact (root : ℕ) (changed : Bool) (disk : Disk) (s : Supers) (dev : ℕ)
    (count : Buffer → ℕ) (hsound : Sound s count) :
    Intact root changed disk s dev count ↔ s.Proper root changed disk dev := by
  by_cases hdev : dev = 0
  · refine iff_of_true ⟨none, s, count, ?_, fun _ => ⟨rfl, fun e => Iff.rfl⟩⟩ (.inl hdev)
    rw [readSuper, if_pos hdev]
    rfl
  rw [Supers.Proper, or_iff_right hdev, Intact, readSuper, if_neg hdev]
  rcases checkDiskChange_spec root changed hsound hdev with
    ⟨hdrops, hcheck⟩ | ⟨hdrops, e, he, hcheck⟩
  · rw [if_neg hdrops, hcheck, pure_bind]
    obtain ⟨e, he, hfind⟩ | ⟨-, hused, hfind⟩ | ⟨habsent, e, sb, hfree, -, hfind⟩ :=
      findSuper_spec s disk hdev
    · exact iff_of_true ⟨some e, s, count, by rw [hfind]; rfl, nofun⟩ (.inl ⟨e, he⟩)
    · refine iff_of_true ⟨none, s, count, by rw [hfind]; rfl, fun _ => ?_⟩ (.inr (.inl hused))
      exact ⟨rfl, fun e => Iff.rfl⟩
    · rw [hfind]
      by_cases hfits : disk.HasSuper → disk.Fits
      · obtain ⟨r, s', R, hyields, hloaded, -⟩ := loadSuper_fits dev hfits (s.setSb e sb) e
        refine iff_of_true ⟨r, s', count + R, hyields count, ?_⟩ (.inr (.inr hfits))
        rintro rfl
        rw [(hloaded.null rfl).1, add_zero]
        exact ⟨rfl, fun e' => by rw [hloaded.used hfree]⟩
      · rw [Classical.not_imp] at hfits
        obtain ⟨f, hf⟩ := loadSuper_fault dev hfits.1 hfits.2 (s.setSb e sb) e count
        refine iff_of_false ?_ ?_
        · rintro ⟨r, s', count', hrun, -⟩
          cases hf.symm.trans hrun
        · rintro (⟨e', he'⟩ | hused | h)
          · exact habsent e' he'
          · exact hused e hfree
          · exact hfits.2 (h hfits.1)
  · rw [if_pos hdrops, Owning.bind_apply]
    have hle := hsound.held_le (he ▸ hdev)
    have hrun := hcheck (count - held (s.sb e).maps)
    rw [show count - held (s.sb e).maps + held (s.sb e).maps = count from
      funext fun b => Nat.sub_add_cancel (hle b)] at hrun
    have hzero : ((s.dropped e).sb e).dev = 0 := by
      rw [Supers.dropped, s.setSb_self]
    obtain ⟨e', he', -⟩ | ⟨-, hused, -⟩ | ⟨-, e', sb, hfree, -, hfind⟩ :=
      findSuper_spec (s.dropped e) disk hdev
    · exact absurd he' (dropped_absent hsound he hdev e')
    · exact absurd hzero (hused e)
    · rw [hrun]
      show (∃ r s' count', findSuper disk (s.dropped e) dev _ = _ ∧ _) ↔ _
      rw [hfind]
      by_cases hfits : disk.HasSuper → disk.Fits
      · obtain ⟨r, s', R, hyields, hloaded, hnull⟩ :=
          loadSuper_fits dev hfits ((s.dropped e).setSb e' sb) e'
        constructor
        · rintro ⟨r', s'', count', hrun', hkept⟩
          cases (hyields _).symm.trans hrun'
          -- if the call fails, the entry that was dropped is not in use any more
          have hloads : r ≠ none := by
            rintro rfl
            have hsame := (hkept rfl).2 e
            rw [hloaded.used hfree, hzero, he] at hsame
            exact hsame.mpr hdev rfl
          have hall := not_not.mp fun h => hloads (hnull.mpr h)
          exact ⟨hall.1, hall.2, hfits hall.1⟩
        · rintro ⟨hsuper, hall, -⟩
          exact ⟨r, s', _, hyields _, fun hr => absurd ⟨hsuper, hall⟩ (hnull.mp hr)⟩
      · rw [Classical.not_imp] at hfits
        obtain ⟨f, hf⟩ := loadSuper_fault dev hfits.1 hfits.2
          ((s.dropped e).setSb e' sb) e' (count - held (s.sb e).maps + 0)
        refine iff_of_false ?_ fun h => hfits.2 h.2.2
        rintro ⟨r, s', count', hrun', -⟩
        cases hf.symm.trans hrun'

/-- The super block table after the start of the system. -/
def noSupers : Supers where
  sb := fun _ => ⟨⟨0, 0, 0, 0, 0, 0, 0, 0⟩, fun _ => none, 0, none, none, 0, false, false⟩
  byte := fun _ => 0

/-- A disk that can be read, with as many blocks in each of the bit maps. -/
def diskOf (imapBlocks zmapBlocks : BitVec 16) : Disk where
  super := ⟨64, 360, imapBlocks, zmapBlocks, 19, 0, 0, 0x137F⟩
  superReadable := true
  mapReadable := fun _ _ => true

theorem noSupers_sound : Sound noSupers 0 := by
  constructor
  · exact fun _ _ _ h => absurd rfl h
  · intro b
    exact (Finset.sum_const_zero (s := Finset.univ)).le

/-- The disk of a hard disk partition with one block in each map is loaded. -/
theorem read_super_intact_one : Intact 0x306 false (diskOf 1 1) noSupers 0x301 0 := by
  refine (read_super_intact 0x306 false (diskOf 1 1) noSupers 0x301 0 noSupers_sound).mpr ?_
  refine .inr ?_
  rw [if_neg fun h => absurd h.1 Bool.false_ne_true]
  refine .inr (.inr fun _ => ⟨fun m => .inl ?_, fun _ m => ?_⟩)
  · cases m <;> decide
  · cases m <;> decide

/-- A disk whose super block says that it has no inode bit map: a null pointer is read. -/
theorem read_super_null : ¬ Intact 0x306 false (diskOf 0 1) noSupers 0x301 0 := by
  rintro ⟨r, s', count', hrun, -⟩
  have hnull : readSuper 0x306 false (diskOf 0 1) noSupers 0x301 0 = .error .null := rfl
  cases hnull.symm.trans hrun

/-- A disk whose inode bit map has nine blocks: `s_imap[8]` is stored to. -/
theorem read_super_past : ¬ Intact 0x306 false (diskOf 9 1) noSupers 0x301 0 := by
  rintro ⟨r, s', count', hrun, -⟩
  have hpast : readSuper 0x306 false (diskOf 9 1) noSupers 0x301 0 = .error (.past .imap 8) := rfl
  cases hpast.symm.trans hrun

section

variable {s s' : Supers} {root dev : ℕ} {changed : Bool} {disk : Disk} {count R : Buffer → ℕ}
  {e : Fin 8}

/-- One entry is changed, and the counts with it. -/
theorem Sound.change (hsound : Sound s count) (hothers : ∀ e', e' ≠ e → s'.sb e' = s.sb e')
    (hdev : (s'.sb e).dev ≠ 0 → ∀ e', e' ≠ e → (s.sb e').dev ≠ (s'.sb e).dev)
    (hcount : ∀ b, count b + (s'.sb e).refs b ≤ R b + (s.sb e).refs b) : Sound s' R := by
  constructor
  · intro e₁ e₂ hsame hused
    by_cases h₁ : e₁ = e
    · by_cases h₂ : e₂ = e
      · rw [h₁, h₂]
      · rw [h₁, hothers e₂ h₂] at hsame
        exact absurd hsame.symm (hdev (h₁ ▸ hused) e₂ h₂)
    · rw [hothers e₁ h₁] at hsame hused
      by_cases h₂ : e₂ = e
      · rw [h₂] at hsame
        exact absurd hsame (hdev (hsame ▸ hused) e₁ h₁)
      · rw [hothers e₂ h₂] at hsame
        exact hsound.distinct e₁ e₂ hsame hused
  · intro b
    have hsum := Counting.sum_add_of_eq_off (fun e => (s.sb e).refs b)
      (fun e => (s'.sb e).refs b) e fun e' he' => by rw [hothers e' he']
    have hle := hsound.counted b
    have hc := hcount b
    omega

theorem findSuper_sound (hsound : Sound s count) (hdev : dev ≠ 0) {r : Option (Fin 8)}
    {count' : Buffer → ℕ} (hrun : findSuper disk s dev count = .ok ((r, s'), count')) :
    Sound s' count' := by
  obtain ⟨e, -, hfind⟩ | ⟨-, -, hfind⟩ | ⟨habsent, e, sb, hfree, hsb, hfind⟩ :=
    findSuper_spec s disk hdev
  · rw [hfind] at hrun
    cases hrun
    exact hsound
  · rw [hfind] at hrun
    cases hrun
    exact hsound
  · rw [hfind] at hrun
    by_cases hfits : disk.HasSuper → disk.Fits
    · obtain ⟨r', s'', R, hyields, hloaded, -⟩ := loadSuper_fits dev hfits (s.setSb e sb) e
      cases (hyields count).symm.trans hrun
      have hzero := SuperBlock.refs_of_free hfree
      have hothers : ∀ e', e' ≠ e → s'.sb e' = s.sb e' := fun e' he =>
        (hloaded.others e' he).trans (s.setSb_of_ne sb he)
      cases r with
      | none =>
        obtain ⟨rfl, hdev'⟩ := hloaded.null rfl
        refine hsound.change hothers (fun h => absurd hdev' h) fun b => ?_
        rw [hzero, SuperBlock.refs_of_free hdev', add_zero]
      | some e' =>
        obtain ⟨rfl, hdev'⟩ := hloaded.loaded e' rfl
        rw [s.setSb_self, hsb] at hdev'
        refine hsound.change hothers (fun _ e' _ => hdev' ▸ habsent e') fun b => ?_
        rw [hzero, SuperBlock.refs_of_used (hdev' ▸ hdev), Pi.add_apply, Pi.zero_apply, add_zero]
    · rw [Classical.not_imp] at hfits
      obtain ⟨f, hf⟩ := loadSuper_fault dev hfits.1 hfits.2 (s.setSb e sb) e count
      cases hf.symm.trans hrun

/-- The table stays sound in every call. -/
theorem readSuper_sound (root : ℕ) (changed : Bool) (disk : Disk) (dev : ℕ)
    (hsound : Sound s count) {r : Option (Fin 8)} {count' : Buffer → ℕ}
    (hrun : readSuper root changed disk s dev count = .ok ((r, s'), count')) :
    Sound s' count' := by
  rw [readSuper] at hrun
  by_cases hdev : dev = 0
  · rw [if_pos hdev] at hrun
    cases hrun
    exact hsound
  rw [if_neg hdev] at hrun
  rcases checkDiskChange_spec root changed hsound hdev with
    ⟨-, hcheck⟩ | ⟨-, e, he, hcheck⟩
  · rw [hcheck, pure_bind] at hrun
    exact findSuper_sound hsound hdev hrun
  · have hle := hsound.held_le (he ▸ hdev)
    have hdrop : checkDiskChange root changed s dev count =
        .ok (s.dropped e, count - held (s.sb e).maps + 0) := by
      have hrun := hcheck (count - held (s.sb e).maps)
      rwa [show count - held (s.sb e).maps + held (s.sb e).maps = count from
        funext fun b => Nat.sub_add_cancel (hle b)] at hrun
    rw [Owning.bind_apply, hdrop] at hrun
    refine findSuper_sound (hsound.change (e := e) ?_ ?_ fun b => ?_) hdev hrun
    · exact fun e' hne => s.setSb_of_ne _ hne
    · rw [Supers.dropped, s.setSb_self]
      exact fun h => absurd rfl h
    · have hfree : ((s.dropped e).sb e).dev = 0 := by rw [Supers.dropped, s.setSb_self]
      have hused : (s.sb e).dev ≠ 0 := he ▸ hdev
      rw [SuperBlock.refs_of_free hfree, SuperBlock.refs_of_used hused, Pi.zero_apply, add_zero,
        add_zero]
      show count b ≤ count b - held (s.sb e).maps b + held (s.sb e).maps b
      rw [Nat.sub_add_cancel (hle b)]

theorem readSuper_sound_one : ∃ r s' count',
    readSuper 0x306 false (diskOf 1 1) noSupers 0x301 0 = .ok ((r, s'), count') ∧
      Sound s' count' :=
  ⟨_, _, _, rfl, readSuper_sound 0x306 false (diskOf 1 1) 0x301 noSupers_sound rfl⟩

end

end Load

end Fs
