/-
The positions in regular files (`sys_lseek`, `sys_read` and `sys_write` of fs/read_write.c,
`file_read` and `file_write` of fs/file_dev.c), and the blocks that these ask for.

* `FileTable` — the descriptors of a regular file, with the positions, and its size;
* `blockLoop` — the loop of `file_read` and `file_write`, with the block numbers that it passes;
* `FileTable.passes` — the block numbers that a sequence of calls passes to `bmap` and
  `create_block`;
* `Overshoots` — a transfer that goes past the last block that an inode can name;
* `positions_in_range` — all of these block numbers are in range if and only if no call of the
  sequence overshoots;
* `write_past_end` — `lseek` and one byte.

Design notes: a file that is open is an entry of the file table, which descriptors of several
processes may share.  What is read and written is left out, and so is where the blocks are:
`ok` tells for which blocks `create_block` and `bread` succeed in a call.
-/
import Linux012.Zones
import Mathlib.Algebra.Ring.Int.Defs
import Mathlib.Data.Int.Notation

namespace Fs

open Function (update)

/-- `long` and `int`, and `unsigned long`. -/
abbrev Long := BitVec 32

namespace Position

open Zones (maxBlock)

/-- An entry of the file table. -/
structure File where
  pos : Long
  /-- `O_APPEND` in `f_flags` -/
  append : Bool
  deriving DecidableEq

/-- The descriptors that name a regular file. -/
structure FileTable where
  /-- the entry of the file table, for a process and a descriptor -/
  filp : ℕ → ℕ → Option ℕ
  file : ℕ → File
  /-- `i_size`, an unsigned long -/
  size : Long
  /-- `IS_SEEKABLE(MAJOR(i_dev))` -/
  seekable : Bool

/-- `NR_OPEN` and `BLOCK_SIZE`. -/
def nrOpen : ℕ := 20

abbrev blockSize : ℤ := 1024

def EBADF : ℤ := 9
def EINVAL : ℤ := 22
def ERROR : ℤ := 99

inductive FileCall where
  | lseek (p fd : ℕ) (offset origin : Long)
  | read (p fd : ℕ) (count : Long) (ok : ℕ → Bool)
  | write (p fd : ℕ) (count : Long) (ok : ℕ → Bool)

/-- A block number at which `_bmap` does not panic. -/
def InRange (block : ℤ) : Prop := 0 ≤ block ∧ block < maxBlock

instance (block : ℤ) : Decidable (InRange block) := by
  unfold InRange
  infer_instance

/-- What a transfer has come to: the position, what is left, `i_size`, the block numbers that it
has passed, and whether `_bmap` has panicked. -/
structure Transfer where
  pos : Long
  left : ℕ
  size : Long
  passed : List ℤ
  panics : Bool

/-- The loop of `file_read`, and of `file_write` if `grows`. -/
def blockLoop (grows : Bool) (ok : ℕ → Bool) : ℕ → Long → ℕ → Long → Transfer
  | 0, pos, left, size => ⟨pos, left, size, [], false⟩
  | fuel + 1, pos, left, size =>
    if left = 0 then ⟨pos, left, size, [], false⟩
    else
      let block := pos.toInt.tdiv blockSize
      if ¬ InRange block then ⟨pos, left, size, [block], true⟩
      else if ok block.toNat = false then ⟨pos, left, size, [block], false⟩
      else
        let c := min (blockSize - pos.toInt.tmod blockSize).toNat left
        let pos := pos + BitVec.ofNat 32 c
        let rest := blockLoop grows ok fuel pos (left - c)
          (if grows ∧ size.toNat < pos.toNat then pos else size)
        { rest with passed := block :: rest.passed }

/-- `count`, as `sys_read` cuts it. -/
def readCount (f : File) (size count : Long) : Long :=
  if size.toNat < (count + f.pos).toNat then size - f.pos else count

/-- The position that `lseek` comes to. -/
def seekTo (f : File) (size offset origin : Long) : Option Long :=
  if origin = 0 then if offset.toInt < 0 then none else some offset
  else if origin = 1 then if (f.pos + offset).toInt < 0 then none else some (f.pos + offset)
  else if origin = 2 then if (size + offset).toInt < 0 then none else some (size + offset)
  else none

/-- The position that `file_write` starts from. -/
def writeFrom (f : File) (size : Long) : Long := if f.append then size else f.pos

namespace FileTable

/-- The file that a descriptor names. -/
def fileOf (s : FileTable) (p fd : ℕ) : Option ℕ := if nrOpen ≤ fd then none else s.filp p fd

def setPos (s : FileTable) (f : ℕ) (pos : Long) : FileTable :=
  { s with file := update s.file f { s.file f with pos := pos } }

/-- `sys_lseek`. -/
def lseek (s : FileTable) (p fd : ℕ) (offset origin : Long) : FileTable × ℤ :=
  match s.fileOf p fd with
  | none => (s, -EBADF)
  | some f =>
    if s.seekable = false then (s, -EBADF)
    else
      match seekTo (s.file f) s.size offset origin with
      | none => (s, -EINVAL)
      | some pos => (s.setPos f pos, pos.toInt)

/-- `file_read`. -/
def fileRead (s : FileTable) (f : ℕ) (count : Long) (ok : ℕ → Bool) : Transfer :=
  blockLoop false ok count.toInt.toNat (s.file f).pos count.toInt.toNat s.size

/-- `file_write`. -/
def fileWrite (s : FileTable) (f : ℕ) (count : Long) (ok : ℕ → Bool) : Transfer :=
  blockLoop true ok count.toInt.toNat (writeFrom (s.file f) s.size) count.toInt.toNat s.size

/-- A call: the block numbers that it passes, and what it comes to unless it panics. -/
def call (s : FileTable) : FileCall → List ℤ × Option (FileTable × ℤ)
  | .lseek p fd offset origin => ([], some (s.lseek p fd offset origin))
  | .read p fd count ok =>
    if count.toInt < 0 then ([], some (s, -EINVAL))
    else
      match s.fileOf p fd with
      | none => ([], some (s, -EINVAL))
      | some f =>
        if count = 0 then ([], some (s, 0))
        else
          let count := readCount (s.file f) s.size count
          if count.toInt ≤ 0 then ([], some (s, 0))
          else
            let t := s.fileRead f count ok
            let done := count.toInt - t.left
            (t.passed, if t.panics then none
              else some (s.setPos f t.pos, if done ≠ 0 then done else -ERROR))
  | .write p fd count ok =>
    if count.toInt < 0 then ([], some (s, -EINVAL))
    else
      match s.fileOf p fd with
      | none => ([], some (s, -EINVAL))
      | some f =>
        if count = 0 then ([], some (s, 0))
        else
          let t := s.fileWrite f count ok
          let done := count.toInt - t.left
          let s' := if (s.file f).append then s else s.setPos f t.pos
          (t.passed, if t.panics then none
            else some ({ s' with size := t.size }, if done ≠ 0 then done else -1))

/-- The block numbers that a sequence of calls passes, up to a panic. -/
def passes (s : FileTable) : List FileCall → List ℤ
  | [] => []
  | c :: cs =>
    (s.call c).1 ++
      match (s.call c).2 with
      | none => []
      | some (s', _) => s'.passes cs

end FileTable

/-! ### Which calls go too far -/

/-- A transfer starts at a block before the file, or goes past the last block that an inode can
name, all blocks up to there being found. -/
def Overshoots (ok : ℕ → Bool) (pos : ℤ) (left : ℕ) : Prop :=
  0 < left ∧ (pos ≤ -blockSize ∨ maxBlock * blockSize < pos + left ∧
    ∀ k : ℕ, pos.tdiv blockSize ≤ k → k < maxBlock → ok k = true)

namespace FileTable

/-- A call does not overshoot. -/
def Stays (s : FileTable) : FileCall → Prop
  | .lseek .. => True
  | .read p fd count ok => 0 ≤ count.toInt → count ≠ 0 → ∀ f, s.fileOf p fd = some f →
    ¬ Overshoots ok (s.file f).pos.toInt (readCount (s.file f) s.size count).toInt.toNat
  | .write p fd count ok => 0 ≤ count.toInt → ∀ f, s.fileOf p fd = some f →
    ¬ Overshoots ok (writeFrom (s.file f) s.size).toInt count.toInt.toNat

/-- Every call of a sequence meets `P` where it is made. -/
def Along (P : FileTable → FileCall → Prop) (s : FileTable) : List FileCall → Prop
  | [] => True
  | c :: cs => P s c ∧ ∀ s' r, (s.call c).2 = some (s', r) → s'.Along P cs

/-- No call of a sequence overshoots. -/
abbrev AllStay (s : FileTable) (cs : List FileCall) : Prop := s.Along Stays cs

/-- The file is not too large, and no position is negative. -/
structure Fits (s : FileTable) : Prop where
  size : s.size.toNat ≤ maxBlock * blockSize
  pos : ∀ f, 0 ≤ (s.file f).pos.toInt

end FileTable

/-! ### One transfer -/

section

variable {ok : ℕ → Bool} {pos size : Long} {left fuel : ℕ} {grows : Bool}

/-- Division of a position, which C cuts towards zero. -/
theorem tdiv_facts (p : ℤ) :
    p = blockSize * p.tdiv blockSize + p.tmod blockSize ∧
      -blockSize < p.tmod blockSize ∧ p.tmod blockSize < blockSize ∧
      (0 ≤ p → 0 ≤ p.tmod blockSize) ∧ (p < 0 → p.tmod blockSize ≤ 0) := by
  refine ⟨(Int.mul_tdiv_add_tmod p blockSize).symm, Int.lt_tmod_of_pos p (by decide),
    Int.tmod_lt_of_pos p (by decide), Int.tmod_nonneg blockSize, fun hneg => ?_⟩
  have hpos := Int.tmod_nonneg blockSize (show 0 ≤ -p by omega)
  rw [Int.neg_tmod] at hpos
  omega

/-- The block of a position is in range. -/
theorem inRange_tdiv {p : ℤ} :
    InRange (p.tdiv blockSize) ↔ -blockSize < p ∧ p < maxBlock * blockSize := by
  obtain ⟨heq, hlow, hhigh, hnonneg, hneg⟩ := tdiv_facts p
  unfold blockSize at *
  rw [InRange, maxBlock]
  omega

theorem toInt_add_ofNat {c : ℕ} (h : pos.toInt + c < 2 ^ 31) :
    (pos + BitVec.ofNat 32 c).toInt = pos.toInt + c := by
  have hle := BitVec.le_toInt pos
  rw [BitVec.toInt_add, BitVec.toInt_ofNat', Int.add_bmod_bmod]
  exact Int.bmod_eq_of_le (by omega) (by omega)

theorem toNat_of_nonneg (h : 0 ≤ pos.toInt) : (pos.toNat : ℤ) = pos.toInt := by
  have hlt := pos.isLt
  rw [BitVec.toInt_eq_toNat_cond] at h ⊢
  split_ifs at h ⊢ <;> omega

/-- One turn of the loop does not change whether it overshoots. -/
theorem overshoots_next {p : ℤ} {c : ℕ} (hrange : InRange (p.tdiv blockSize))
    (hok : ok (p.tdiv blockSize).toNat = true)
    (hc : c = min (blockSize - p.tmod blockSize).toNat left) (hleft : left ≠ 0) :
    Overshoots ok (p + c) (left - c) ↔ Overshoots ok p left := by
  obtain ⟨heq, hlow, hhigh, hnonneg, hneg⟩ := tdiv_facts p
  obtain ⟨heq', hlow', hhigh', hnonneg', hneg'⟩ := tdiv_facts (p + c)
  obtain ⟨hgt, hlt⟩ := inRange_tdiv.mp hrange
  rw [Overshoots, Overshoots]
  unfold blockSize at *
  rw [maxBlock] at *
  by_cases hlast : left ≤ (1024 - p.tmod 1024).toNat
  · -- the transfer ends in this block
    refine iff_of_false (fun h => by omega) fun h => ?_
    rcases h.2 with h | ⟨h, -⟩
    · omega
    · have hlt' := hrange.2
      rw [maxBlock] at hlt'
      omega
  · -- the next turn starts at the next block
    have hnext : (p + c).tdiv 1024 = p.tdiv 1024 + 1 := by omega
    have hblock : ((p.tdiv 1024).toNat : ℤ) = p.tdiv 1024 := Int.toNat_of_nonneg hrange.1
    rw [hnext]
    refine and_congr (by omega) (or_congr (by omega) (and_congr (by omega) ?_))
    constructor
    · intro h k hk hmax
      by_cases hfirst : (k : ℤ) = p.tdiv 1024
      · rw [← hfirst, Int.toNat_natCast] at hok
        exact hok
      · exact h k (by omega) hmax
    · exact fun h k hk hmax => h k (by omega) hmax

/-- A transfer passes a block number out of range exactly if it overshoots. -/
theorem blockLoop_overshoots (hfuel : left ≤ fuel) :
    (∃ b ∈ (blockLoop grows ok fuel pos left size).passed, ¬ InRange b) ↔
      Overshoots ok pos.toInt left := by
  induction fuel generalizing pos left size with
  | zero =>
    have hzero : left = 0 := by omega
    refine iff_of_false ?_ fun h => absurd h.1 (by omega)
    rintro ⟨b, hb, -⟩
    cases hb
  | succ fuel ih =>
    rw [blockLoop]
    by_cases hleft : left = 0
    · rw [if_pos hleft]
      refine iff_of_false ?_ fun h => absurd h.1 (by omega)
      rintro ⟨b, hb, -⟩
      cases hb
    rw [if_neg hleft]
    dsimp only
    by_cases hrange : InRange (pos.toInt.tdiv blockSize)
    · rw [if_neg (not_not.mpr hrange)]
      by_cases hok : ok (pos.toInt.tdiv blockSize).toNat = true
      · rw [if_neg (by rw [hok]; decide)]
        obtain ⟨heq, hlow, hhigh, -, -⟩ := tdiv_facts pos.toInt
        obtain ⟨hgt, hlt⟩ := inRange_tdiv.mp hrange
        have hc : pos.toInt + (min (blockSize - pos.toInt.tmod blockSize).toNat left : ℕ) <
            2 ^ 31 := by
          unfold blockSize at *
          rw [maxBlock] at hlt
          omega
        rw [← overshoots_next hrange hok rfl hleft, ← toInt_add_ofNat hc, List.exists_mem_cons_iff,
          or_iff_right (not_not.mpr hrange)]
        exact ih (by unfold blockSize at *; omega)
      · -- `create_block` or `bread` fails
        rw [if_pos (Bool.eq_false_iff.mpr hok)]
        have hblock := Int.toNat_of_nonneg hrange.1
        refine iff_of_false ?_ ?_
        · rintro ⟨b, hb, hbad⟩
          rw [List.mem_singleton.mp hb] at hbad
          exact hbad hrange
        · rintro ⟨-, hlow | ⟨-, hall⟩⟩
          · have hgt := (inRange_tdiv.mp hrange).1
            omega
          · have hlt := hrange.2
            exact hok (hall _ (by omega) (by omega))
    · rw [if_pos hrange]
      refine iff_of_true ⟨_, List.mem_singleton_self _, hrange⟩ ⟨by omega, ?_⟩
      rw [inRange_tdiv, not_and_or] at hrange
      rcases hrange with h | h
      · exact .inl (by omega)
      · obtain ⟨heq, hlow, hhigh, -, -⟩ := tdiv_facts pos.toInt
        refine .inr ⟨by omega, fun k hk hmax => ?_⟩
        unfold blockSize at *
        omega

end

/-! ### The calls -/

namespace FileTable

variable {s s' : FileTable} {c : FileCall} {r : ℤ}

/-- A call passes only block numbers in range exactly if it does not overshoot. -/
theorem call_passes : (∀ b ∈ (s.call c).1, InRange b) ↔ s.Stays c := by
  have hnone : ∀ b ∈ ([] : List ℤ), InRange b := List.forall_mem_nil _
  have hloop : ∀ grows ok (pos : Long) left size,
      (∀ b ∈ (blockLoop grows ok left pos left size).passed, InRange b) ↔
        ¬ Overshoots ok pos.toInt left := by
    intro grows ok pos left size
    have hiff := @blockLoop_overshoots ok pos size left left grows (Nat.le_refl left)
    rw [← hiff]
    push Not
    exact Iff.rfl
  cases c with
  | lseek p fd offset origin => exact iff_of_true hnone trivial
  | read p fd count ok =>
    rw [call, Stays]
    by_cases hneg : count.toInt < 0
    · rw [if_pos hneg]
      exact iff_of_true hnone fun h => by omega
    rw [if_neg hneg, imp_iff_right (by omega)]
    cases hf : s.fileOf p fd with
    | none => exact iff_of_true hnone fun _ => nofun
    | some f =>
      dsimp only
      by_cases hzero : count = 0
      · rw [if_pos hzero]
        exact iff_of_true hnone fun h => absurd hzero h
      rw [if_neg hzero, imp_iff_right hzero]
      by_cases hcount : (readCount (s.file f) s.size count).toInt ≤ 0
      · rw [if_pos hcount]
        refine iff_of_true hnone fun f' hf' hover => ?_
        cases hf'
        exact absurd hover.1 (by omega)
      · rw [if_neg hcount, fileRead, hloop]
        exact ⟨fun h f' hf' => by cases hf'; exact h, fun h => h f rfl⟩
  | write p fd count ok =>
    rw [call, Stays]
    by_cases hneg : count.toInt < 0
    · rw [if_pos hneg]
      exact iff_of_true hnone fun h => by omega
    rw [if_neg hneg, imp_iff_right (by omega)]
    cases hf : s.fileOf p fd with
    | none => exact iff_of_true hnone nofun
    | some f =>
      dsimp only
      by_cases hzero : count = 0
      · rw [if_pos hzero]
        refine iff_of_true hnone fun f' hf' hover => ?_
        rw [hzero] at hover
        exact absurd hover.1 (by decide)
      · rw [if_neg hzero, fileWrite, hloop]
        exact ⟨fun h f' hf' => by cases hf'; exact h, fun h => h f rfl⟩

theorem seekTo_nonneg {f : File} {size offset origin pos : Long}
    (h : seekTo f size offset origin = some pos) : 0 ≤ pos.toInt := by
  rw [seekTo] at h
  split_ifs at h <;> cases h <;> omega

end FileTable

/-- The block numbers that a sequence of calls passes to `bmap` and `create_block` are all in
range exactly if none of its calls overshoots. -/
theorem positions_in_range (s : FileTable) (cs : List FileCall) :
    (∀ b ∈ s.passes cs, InRange b) ↔ s.AllStay cs := by
  induction cs generalizing s with
  | nil => exact iff_of_true (List.forall_mem_nil _) trivial
  | cons c cs ih =>
    rw [FileTable.passes, FileTable.AllStay, FileTable.Along, List.forall_mem_append,
      FileTable.call_passes]
    refine and_congr_right fun _ => ?_
    cases (s.call c).2 with
    | none => exact iff_of_true (List.forall_mem_nil _) nofun
    | some x =>
      obtain ⟨s', r⟩ := x
      dsimp only
      rw [ih s']
      constructor
      · rintro h s'' r' ⟨⟩
        exact h
      · exact fun h => h s' r rfl

/-- An empty file, just opened. -/
def empty : FileTable where
  filp := fun _ fd => if fd = 0 then some 0 else none
  file := fun _ => ⟨0, false⟩
  size := 0
  seekable := true

/-- Half a gigabyte from the start, one byte is written. -/
def writePastEnd : List FileCall :=
  [.lseek 0 0 0x20000000 0, .write 0 0 1 fun _ => true]

/-- The block of this byte is too big. -/
theorem write_past_end : empty.Fits ∧ ∃ b ∈ empty.passes writePastEnd, ¬ InRange b :=
  ⟨⟨by decide, fun _ => Int.le_refl 0⟩, 0x80000, by decide, by decide⟩

end Position

end Fs
