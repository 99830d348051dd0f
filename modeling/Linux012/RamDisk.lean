/-
Loading the RAM disk from the floppy (`rd_load` of kernel/blk_drv/ramdisk.c, with `bread`,
`breada` and `brelse` of fs/buffer.c).

* `breada`, `bread`, `copyLoop`, `rdLoad` — the code, over the reference counts of the buffers;
* `Area.loaded` — what `rdLoad` comes to, without the buffers;
* `rd_load_fits` — the load is right exactly if `s_nzones * 2^s_log_zone_size` is an `int`, or
  nothing is loaded, or a block cannot be read before it is too late;
* `rd_load_shift` — 2 zones of 2^31 blocks.

Design notes: a shift count is taken modulo 32, as the processor does.  `nblocks` counts down
modulo 2^32, so that a negative number of blocks comes to 0 in the end.  A block is known by its
number.
-/
import Linux012.Owning
import Mathlib.Data.Nat.Notation

namespace RamDisk

/-- "Trying to free free buffer". -/
inductive Panic where
  | freeBuffer

/-- Computations over the `b_count` of the blocks of the floppy. -/
abbrev Buffers (α : Type) : Type := Owning (BitVec 32) Panic α

/-- What is read of a super block. -/
structure Super where
  nzones : BitVec 16
  logZoneSize : BitVec 16
  magic : BitVec 16

/-- What the floppy has at block 257, and at block `256 + i` when it is copied; `none` where the
block cannot be read. -/
structure Image (α : Type) where
  super : Option Super
  block : ℕ → Option α

/-- `rd_start` and `rd_length`. -/
structure Area where
  start : ℕ
  length : ℕ
  length_lt : length < 2147483648
  fits : start + length ≤ 4294967296

def SUPER_MAGIC : BitVec 16 := 0x137F

/-- The blocks of the file system, and what `rd_load` makes of them. -/
def Super.blocks (s : Super) : ℕ := s.nzones.toNat * 2 ^ s.logZoneSize.toNat
def Super.nblocks (s : Super) : BitVec 32 :=
  s.nzones.setWidth 32 <<< (s.logZoneSize.toNat % 32)

variable {α : Type}

/-! ### The buffers -/

def brelse (block : BitVec 32) : Buffers Unit := Owning.drop .freeBuffer block

/-- The end of `bread` and `breada`, with the buffer held. -/
def ifUptodate (block : BitVec 32) : Option α → Buffers (Option α)
  | none => do
    brelse block
    pure none
  | some data => pure (some data)

def bread (data : Option α) (block : BitVec 32) : Buffers (Option α) := do
  Owning.take block
  ifUptodate block data

/-- The loop of `breada`, up to a negative argument. -/
def readAhead : List (BitVec 32) → Buffers Unit
  | [] => pure ()
  | first :: rest =>
    if first.toInt < 0 then pure ()
    else do
      Owning.take first
      brelse first
      readAhead rest

def breada (data : Option α) (block : BitVec 32) (ahead : List (BitVec 32)) :
    Buffers (Option α) := do
  Owning.take block
  readAhead ahead
  ifUptodate block data

/-- The read of the copy loop: ahead, but for the last two blocks. -/
def readBlock (nblocks : BitVec 32) (data : Option α) (block : BitVec 32) : Buffers (Option α) :=
  if 2 < nblocks.toInt then breada data block [block + 1, block + 2, -1] else bread data block

/-! ### The load -/

namespace Area

variable (a : Area) (f : Image α)

/-- `cp` at block `i`. -/
def cp (i : ℕ) : BitVec 32 := BitVec.ofNat 32 (a.start + 1024 * i)

/-- The copy loop, with `nblocks` modulo 2^32: the blocks that are copied, and whether all are. -/
def copyLoop : ℕ → ℕ → Buffers (List (BitVec 32 × α) × Bool)
  | 0, _ => pure ([], true)
  | left + 1, i => do
    let block := BitVec.ofNat 32 (256 + i)
    let bh ← readBlock (BitVec.ofNat 32 (left + 1)) (f.block i) block
    match bh with
    | none => pure ([], false)
    | some data => do
      brelse block
      let r ← copyLoop left (i + 1)
      pure ((a.cp i, data) :: r.1, r.2)

/-- `rd_load`: what is copied where, and `ROOT_DEV`. -/
def rdLoad (rootDev : ℕ) : Buffers (List (BitVec 32 × α) × ℕ) :=
  if a.length = 0 then pure ([], rootDev)
  else if rootDev / 256 ≠ 2 then pure ([], rootDev)
  else do
    let bh ← breada f.super 257 [256, 258, -1]
    match bh with
    | none => pure ([], rootDev)
    | some s => do
      brelse 257
      if s.magic ≠ SUPER_MAGIC then pure ([], rootDev)
      else if (a.length / 1024 : ℕ) < s.nblocks.toInt then pure ([], rootDev)
      else do
        let r ← a.copyLoop f s.nblocks.toNat 0
        pure (r.1, if r.2 then 0x0101 else rootDev)

/-! ### What is loaded -/

/-- The copy loop. -/
def copied : ℕ → ℕ → List (BitVec 32 × α) × Bool
  | 0, _ => ([], true)
  | left + 1, i =>
    match f.block i with
    | none => ([], false)
    | some data => ((a.cp i, data) :: (copied left (i + 1)).1, (copied left (i + 1)).2)

/-- `rd_load`. -/
def loaded (rootDev : ℕ) : List (BitVec 32 × α) × ℕ :=
  if a.length = 0 then ([], rootDev)
  else if rootDev / 256 ≠ 2 then ([], rootDev)
  else
    match f.super with
    | none => ([], rootDev)
    | some s =>
      if s.magic ≠ SUPER_MAGIC then ([], rootDev)
      else if (a.length / 1024 : ℕ) < s.nblocks.toInt then ([], rootDev)
      else
        ((a.copied f s.nblocks.toNat 0).1,
          if (a.copied f s.nblocks.toNat 0).2 then 0x0101 else rootDev)

end Area

open Owning (Yields)

/-- The buffer that is returned. -/
def held (block : BitVec 32) : Option α → BitVec 32 → ℕ
  | none => 0
  | some _ => Pi.single block 1

theorem yields_ifUptodate (block : BitVec 32) (data : Option α) :
    Yields (ifUptodate block data) (Pi.single block 1) (.ok data) (held block) := by
  cases data with
  | none =>
    have hdrop : Yields (ifUptodate block (none : Option α)) (Pi.single block 1 + 0) (.ok none)
      (held block) := Yields.bind_drop (.pure rfl)
    rwa [add_zero] at hdrop
  | some data => exact .pure rfl

theorem yields_bread (data : Option α) (block : BitVec 32) :
    Yields (bread data block) 0 (.ok data) (held block) :=
  Yields.bind_take (Yields.of_eq (yields_ifUptodate block data) (add_zero _))

/-- A block that is read ahead is put at once. -/
theorem yields_readAhead (ahead : List (BitVec 32)) (H : BitVec 32 → ℕ) :
    Yields (readAhead ahead) H (.ok ()) fun _ => H := by
  induction ahead with
  | nil => exact .pure rfl
  | cons first rest ih =>
    rw [readAhead]
    split
    · exact .pure rfl
    · exact Yields.bind_take (Yields.bind_drop ih)

theorem yields_breada (data : Option α) (block : BitVec 32) (ahead : List (BitVec 32)) :
    Yields (breada data block ahead) 0 (.ok data) (held block) := by
  refine Yields.bind_take ?_
  rw [add_zero]
  exact Yields.bind_ok (yields_readAhead ahead _) (yields_ifUptodate block data)

theorem yields_readBlock (nblocks : BitVec 32) (data : Option α) (block : BitVec 32) :
    Yields (readBlock nblocks data block) 0 (.ok data) (held block) := by
  rw [readBlock]
  split
  · exact yields_breada _ _ _
  · exact yields_bread _ _

namespace Area

variable {a : Area} {f : Image α}

theorem yields_copyLoop (a : Area) (f : Image α) (left i : ℕ) :
    Yields (a.copyLoop f left i) 0 (.ok (a.copied f left i)) fun _ => 0 := by
  induction left generalizing i with
  | zero => exact .pure rfl
  | succ left ih =>
    rw [copyLoop, copied]
    refine Yields.bind_ok (yields_readBlock _ _ _) ?_
    cases f.block i with
    | none => exact .pure rfl
    | some data =>
      change Yields _ (Pi.single _ 1) _ _
      rw [← add_zero (Pi.single _ 1)]
      exact Yields.bind_drop (Yields.bind_ok (ih (i + 1)) (.pure rfl))

/-- `rd_load` puts every buffer that it gets. -/
theorem yields_rdLoad (a : Area) (f : Image α) (rootDev : ℕ) :
    Yields (a.rdLoad f rootDev) 0 (.ok (a.loaded f rootDev)) fun _ => 0 := by
  rw [rdLoad, loaded]
  split
  · exact .pure rfl
  split
  · exact .pure rfl
  refine Yields.bind_ok (yields_breada f.super 257 _) ?_
  cases f.super with
  | none => exact .pure rfl
  | some s =>
    change Yields _ (Pi.single _ 1) _ _
    rw [← add_zero (Pi.single _ 1)]
    refine Yields.bind_drop ?_
    dsimp only
    split
    · exact .pure rfl
    split
    · exact .pure rfl
    · exact Yields.bind_ok (yields_copyLoop a f s.nblocks.toNat 0) (.pure rfl)

/-! ### What is copied -/

/-- The blocks are copied one after another. -/
theorem copied_at (a : Area) (f : Image α) (left i : ℕ) :
    (a.copied f left i).1.map some =
      (List.range' i (a.copied f left i).1.length).map fun k =>
        (f.block k).map (Prod.mk (a.cp k)) := by
  induction left generalizing i with
  | zero => rfl
  | succ left ih =>
    rw [copied]
    cases hblock : f.block i with
    | none => rfl
    | some data =>
      simp only [List.map_cons, List.length_cons, List.range'_succ, hblock, ih]
      rfl

/-- All blocks are copied if all can be read. -/
theorem copied_of_all {left i : ℕ} (h : ∀ k, i ≤ k → k < i + left → f.block k ≠ none) :
    (a.copied f left i).2 = true ∧ (a.copied f left i).1.length = left := by
  induction left generalizing i with
  | zero => exact ⟨rfl, rfl⟩
  | succ left ih =>
    obtain ⟨hdone, hlen⟩ := ih (i := i + 1) fun k hk hlt => h k (by omega) (by omega)
    rw [copied]
    cases hblock : f.block i with
    | none => exact absurd hblock (h i (Nat.le_refl i) (by omega))
    | some data => exact ⟨hdone, congrArg (· + 1) hlen⟩

/-- A block that cannot be read ends the load. -/
theorem copied_of_none {left i k : ℕ} (hk : i ≤ k) (hlt : k < i + left) (h : f.block k = none) :
    (a.copied f left i).2 = false ∧ (a.copied f left i).1.length ≤ k - i := by
  induction left generalizing i with
  | zero => omega
  | succ left ih =>
    rw [copied]
    cases hblock : f.block i with
    | none => exact ⟨rfl, Nat.zero_le _⟩
    | some data =>
      have hne : i ≠ k := by
        rintro rfl
        rw [h] at hblock
        cases hblock
      obtain ⟨hdone, hlen⟩ := ih (i := i + 1) (by omega) (by omega)
      refine ⟨hdone, ?_⟩
      rw [List.length_cons]
      omega

/-- As many blocks are copied as can be read at first. -/
theorem le_copied_length {left i m : ℕ} (h : ∀ k, i ≤ k → k < i + m → f.block k ≠ none)
    (hm : m ≤ left) : m ≤ (a.copied f left i).1.length := by
  induction left generalizing i m with
  | zero => exact hm
  | succ left ih =>
    cases m with
    | zero => exact Nat.zero_le _
    | succ m =>
      rw [copied]
      cases hblock : f.block i with
      | none => exact absurd hblock (h i (Nat.le_refl i) (by omega))
      | some data =>
        exact Nat.succ_le_succ (ih (fun k hk hlt => h k (by omega) (by omega)) (by omega))

theorem copied_length_of_done {left i : ℕ} (h : (a.copied f left i).2 = true) :
    (a.copied f left i).1.length = left := by
  induction left generalizing i with
  | zero => rfl
  | succ left ih =>
    rw [copied] at h ⊢
    cases hblock : f.block i with
    | none =>
      rw [hblock] at h
      cases h
    | some data =>
      rw [hblock] at h
      exact congrArg (· + 1) (ih h)

theorem copied_length_le (a : Area) (f : Image α) (left i : ℕ) :
    (a.copied f left i).1.length ≤ left := by
  induction left generalizing i with
  | zero => exact Nat.le_refl 0
  | succ left ih =>
    rw [copied]
    cases f.block i with
    | none => exact Nat.zero_le _
    | some data => exact Nat.succ_le_succ (ih (i + 1))

/-- What is copied, and that it is in the area. -/
def InArea (a : Area) (copies : List (BitVec 32 × α)) : Prop :=
  ∀ c ∈ copies, a.start ≤ c.1.toNat ∧ c.1.toNat + 1024 ≤ a.start + a.length

theorem inArea_iff (a : Area) (f : Image α) (left : ℕ) :
    a.InArea (a.copied f left 0).1 ↔ (a.copied f left 0).1.length ≤ a.length / 1024 := by
  have hat := copied_at a f left 0
  have hlt := a.length_lt
  have hfits := a.fits
  -- block `k` of the list, and where it is
  have hget : ∀ k (hk : k < (a.copied f left 0).1.length),
      ((a.copied f left 0).1[k]).1 = a.cp k := by
    intro k hk
    have hsome := congrArg (fun l => l[k]?) hat
    simp only [List.getElem?_map, List.getElem?_eq_getElem hk, Option.map_some,
      List.getElem?_range' hk, Nat.zero_add, Nat.one_mul] at hsome
    cases hblock : f.block k with
    | none =>
      rw [hblock] at hsome
      cases Option.some.inj hsome
    | some data =>
      rw [hblock] at hsome
      rw [Option.some.inj (Option.some.inj hsome)]
  constructor
  · intro h
    by_contra hlong
    have hk : a.length / 1024 < (a.copied f left 0).1.length := by omega
    obtain ⟨hlow, hhigh⟩ := h _ (List.getElem_mem hk)
    rw [hget _ hk, cp, BitVec.toNat_ofNat] at hlow hhigh
    omega
  · intro hshort c hc
    obtain ⟨k, hk, rfl⟩ := List.getElem_of_mem hc
    rw [hget k hk, cp, BitVec.toNat_ofNat]
    omega

/-! ### When the load is right -/

/-- Every write is in the area, `ROOT_DEV` is changed only after all the blocks of the file system
have been copied, and the buffers are as before. -/
def Right (a : Area) (f : Image α) (rootDev : ℕ) (count : BitVec 32 → ℕ) : Prop :=
  ∃ copies rootDev', a.rdLoad f rootDev count = .ok ((copies, rootDev'), count) ∧
    a.InArea copies ∧
    (rootDev' ≠ rootDev → ∃ s, f.super = some s ∧
      copies.map some = (List.range s.blocks).map fun k => (f.block k).map (Prod.mk (a.cp k)))

/-- The number of blocks is an `int`, or it is refused, or a block cannot be read in time. -/
def Fits (a : Area) (f : Image α) (s : Super) : Prop :=
  s.blocks < 2147483648 ∨ (a.length / 1024 : ℕ) < s.nblocks.toInt ∨
    ∃ k, k < s.nblocks.toNat ∧ k ≤ a.length / 1024 ∧ f.block k = none

theorem right_iff_loaded (rootDev : ℕ) (count : BitVec 32 → ℕ) :
    a.Right f rootDev count ↔ a.InArea (a.loaded f rootDev).1 ∧
      ((a.loaded f rootDev).2 ≠ rootDev → ∃ s, f.super = some s ∧
        (a.loaded f rootDev).1.map some =
          (List.range s.blocks).map fun k => (f.block k).map (Prod.mk (a.cp k))) := by
  have hrun := yields_rdLoad a f rootDev count
  rw [add_zero] at hrun
  constructor
  · rintro ⟨copies, rootDev', hload, hin, hdone⟩
    rw [hrun] at hload
    have hloaded : a.loaded f rootDev = (copies, rootDev') :=
      (Prod.mk.inj (Except.ok.inj hload)).1
    rw [hloaded]
    exact ⟨hin, hdone⟩
  · rintro ⟨hin, hdone⟩
    exact ⟨_, _, hrun, hin, hdone⟩

theorem right_of_nothing {rootDev : ℕ} (h : a.loaded f rootDev = ([], rootDev))
    (count : BitVec 32 → ℕ) : a.Right f rootDev count := by
  rw [right_iff_loaded, h]
  exact ⟨fun _ hc => (nomatch hc), fun hne => absurd rfl hne⟩

theorem nblocks_toNat (s : Super) :
    s.nblocks.toNat = s.nzones.toNat * 2 ^ (s.logZoneSize.toNat % 32) % 4294967296 := by
  have hzones : s.nzones.toNat % 2 ^ 32 = s.nzones.toNat :=
    Nat.mod_eq_of_lt (Nat.lt_trans s.nzones.isLt (by decide))
  rw [Super.nblocks, BitVec.toNat_shiftLeft, BitVec.toNat_setWidth, Nat.shiftLeft_eq, hzones]

/-- An `int` is not cut. -/
theorem nblocks_eq {s : Super} (h : s.blocks < 2147483648) :
    s.nblocks.toNat = s.blocks ∧ s.nblocks.toInt = s.blocks := by
  have hnat : s.nblocks.toNat = s.blocks := by
    rw [nblocks_toNat]
    by_cases hzero : s.nzones.toNat = 0
    · rw [Super.blocks, hzero, Nat.zero_mul, Nat.zero_mul]
    · have hlog : s.logZoneSize.toNat < 31 := by
        by_contra hbig
        have hpow : 2 ^ 31 ≤ 2 ^ s.logZoneSize.toNat :=
          Nat.pow_le_pow_right (by decide) (Nat.not_lt.mp hbig)
        have hmul := Nat.mul_le_mul (Nat.pos_of_ne_zero hzero) hpow
        rw [Super.blocks] at h
        omega
      rw [Nat.mod_eq_of_lt (b := 32) (by omega)]
      exact Nat.mod_eq_of_lt (Nat.lt_trans h (by decide))
  refine ⟨hnat, ?_⟩
  rw [BitVec.toInt_eq_toNat_of_lt (by omega), hnat]

/-- With a file system, the load is right exactly if its number of blocks fits. -/
theorem right_iff_fits {s : Super} {rootDev : ℕ} (hlen : a.length ≠ 0) (hdev : rootDev / 256 = 2)
    (hsuper : f.super = some s) (hmagic : s.magic = SUPER_MAGIC) (count : BitVec 32 → ℕ) :
    a.Right f rootDev count ↔ a.Fits f s := by
  have hne : 0x0101 ≠ rootDev := by
    rintro rfl
    exact absurd hdev (by decide)
  by_cases hbig : (a.length / 1024 : ℕ) < s.nblocks.toInt
  · refine iff_of_true (right_of_nothing ?_ count) (.inr (.inl hbig))
    rw [loaded, if_neg hlen, if_neg (not_not_intro hdev), hsuper]
    dsimp only
    rw [if_neg (not_not_intro hmagic), if_pos hbig]
  · have hloaded : a.loaded f rootDev = ((a.copied f s.nblocks.toNat 0).1,
        if (a.copied f s.nblocks.toNat 0).2 then 0x0101 else rootDev) := by
      rw [loaded, if_neg hlen, if_neg (not_not_intro hdev), hsuper]
      dsimp only
      rw [if_neg (not_not_intro hmagic), if_neg hbig]
    rw [right_iff_loaded, hloaded, inArea_iff]
    constructor
    · rintro ⟨hin, hdone⟩
      by_contra hfit
      obtain ⟨hint, hrest⟩ := not_or.mp hfit
      obtain ⟨-, hread⟩ := not_or.mp hrest
      -- every block that is read in time can be read
      have hgood : ∀ k, k < s.nblocks.toNat → k ≤ a.length / 1024 → f.block k ≠ none :=
        fun k hk hle hnone => hread ⟨k, hk, hle, hnone⟩
      have hlong : min s.nblocks.toNat (a.length / 1024 + 1) ≤
          (a.copied f s.nblocks.toNat 0).1.length :=
        le_copied_length (fun k _ hk => hgood k (by omega) (by omega)) (Nat.min_le_left _ _)
      have hfew : s.nblocks.toNat ≤ a.length / 1024 := by omega
      obtain ⟨hall, hlength⟩ : (a.copied f s.nblocks.toNat 0).2 = true ∧ _ :=
        copied_of_all fun k _ hk => hgood k (by omega) (by omega)
      rw [hall] at hdone
      obtain ⟨s', hs', hcopies⟩ := hdone hne
      rw [hsuper] at hs'
      cases hs'
      have hcount := congrArg List.length hcopies
      rw [List.length_map, List.length_map, List.length_range, hlength] at hcount
      have hlt := a.length_lt
      omega
    · rintro (hint | hrefused | ⟨k, hk, hle, hnone⟩)
      · obtain ⟨hnat, hInt⟩ := nblocks_eq hint
        have hshort := copied_length_le a f s.nblocks.toNat 0
        refine ⟨by omega, fun hchanged => ⟨s, hsuper, ?_⟩⟩
        have hall : (a.copied f s.nblocks.toNat 0).2 = true := by
          by_contra hfalse
          rw [if_neg hfalse] at hchanged
          exact hchanged rfl
        have hat := copied_at a f s.nblocks.toNat 0
        rw [copied_length_of_done hall, hnat] at hat
        rw [hnat, hat, List.range_eq_range']
      · exact absurd hrefused hbig
      · obtain ⟨hstop, hlength⟩ := copied_of_none (a := a) (i := 0) (Nat.zero_le k)
          (by omega : k < 0 + s.nblocks.toNat) hnone
        rw [hstop]
        exact ⟨by omega, fun hchanged => absurd rfl hchanged⟩

end Area

/-- `rd_load` does what it should exactly if nothing is loaded or the number of blocks fits. -/
theorem rd_load_fits (a : Area) (f : Image α) (rootDev : ℕ) (count : BitVec 32 → ℕ) :
    a.Right f rootDev count ↔
      a.length = 0 ∨ rootDev / 256 ≠ 2 ∨
        ∀ s, f.super = some s → s.magic = SUPER_MAGIC → a.Fits f s := by
  by_cases hlen : a.length = 0
  · refine iff_of_true (Area.right_of_nothing ?_ count) (.inl hlen)
    rw [Area.loaded, if_pos hlen]
  by_cases hdev : rootDev / 256 = 2
  · cases hsuper : f.super with
    | none =>
      refine iff_of_true (Area.right_of_nothing ?_ count) (.inr (.inr nofun))
      rw [Area.loaded, if_neg hlen, if_neg (not_not_intro hdev), hsuper]
    | some s =>
      by_cases hmagic : s.magic = SUPER_MAGIC
      · rw [Area.right_iff_fits hlen hdev hsuper hmagic count]
        constructor
        · intro hfits
          refine .inr (.inr fun s' hs' _ => ?_)
          cases hs'
          exact hfits
        · rintro (h | h | h)
          · exact absurd h hlen
          · exact absurd hdev h
          · exact h s rfl hmagic
      · refine iff_of_true (Area.right_of_nothing ?_ count) (.inr (.inr fun s' hs' h => ?_))
        · rw [Area.loaded, if_neg hlen, if_neg (not_not_intro hdev), hsuper]
          dsimp only
          rw [if_pos hmagic]
        · cases hs'
          exact absurd h hmagic
  · refine iff_of_true (Area.right_of_nothing ?_ count) (.inr (.inl hdev))
    rw [Area.loaded, if_neg hlen, if_pos hdev]

/-- 512 KB at 4 MB. -/
def smallArea : Area := ⟨4194304, 524288, by decide, by decide⟩

/-- A floppy that can be read everywhere. -/
def readableImage (nzones logZoneSize : BitVec 16) : Image Unit :=
  ⟨some ⟨nzones, logZoneSize, SUPER_MAGIC⟩, fun _ => some ()⟩

/-- 2 zones of 2^31 blocks are 0 blocks, and `ROOT_DEV` is changed; 32768 zones of 2^16 blocks are
-2^31 blocks, which are copied over all the memory. -/
theorem rd_load_shift : ¬ smallArea.Right (readableImage 2 31) 0x021c 0 ∧
    ¬ smallArea.Right (readableImage 32768 16) 0x021c 0 := by
  have hwrong : ∀ nzones logZoneSize : BitVec 16,
      ¬ smallArea.Fits (readableImage nzones logZoneSize) ⟨nzones, logZoneSize, SUPER_MAGIC⟩ →
      ¬ smallArea.Right (readableImage nzones logZoneSize) 0x021c 0 := fun nzones logZoneSize h =>
    mt (Area.right_iff_fits (by decide) (by decide) rfl rfl 0).mp h
  constructor
  · refine hwrong 2 31 (not_or.mpr ⟨by decide, not_or.mpr ⟨by decide, ?_⟩⟩)
    rintro ⟨k, -, -, hnone⟩
    cases hnone
  · refine hwrong 32768 16 (not_or.mpr ⟨by decide, not_or.mpr ⟨by decide, ?_⟩⟩)
    rintro ⟨k, -, -, hnone⟩
    cases hnone

end RamDisk
