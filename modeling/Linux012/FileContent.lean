/-
The content of a regular file (`sys_lseek`, `sys_read` and `sys_write` of fs/read_write.c,
`file_read` and `file_write` of fs/file_dev.c, over `_bmap` of fs/inode.c).

* `Descriptor` — a regular file that is open, with the device that it is on;
* `readLoop`, `writeLoop` — the loops of `file_read` and `file_write`;
* `Descriptor.call` — the three calls;
* `View`, `View.Allows` — a file as its user sees it: a byte array with holes, and a position;
* `Descriptor.Regular` — a file in order: what its blocks hold behind its end is zero;
* `file_content` — sequences of calls answer as such an array does;
* `append_stays`, `write_short` — a write that does not move the position, and one for which the
  device has no zone left.

Design notes: the descriptor is one that is open, and its entry of the file table is `file`.
A block has the content that it has in the cache, as words of two bytes; `ok` tells for which
blocks `bread` succeeds in a call.  Times are left out.
-/
import Linux012.FilePosition
import Linux012.SparseArrays
import Linux012.ZoneGrowth
import Mathlib.Data.UInt

namespace Fs

open Function (update)

namespace Content

open Position (blockSize InRange seekTo readCount writeFrom)
open Zones (maxBlock path IsPath)

/-! ### Bytes of blocks -/

/-- Byte `k` of a block. -/
def byteOf (words : ℕ → ℕ) (k : ℕ) : UInt8 := .ofNat (words (k / 2) / 256 ^ (k % 2))

/-- The store of a byte. -/
def putByte (words : ℕ → ℕ) (k : ℕ) (b : UInt8) : ℕ → ℕ :=
  update words (k / 2) (if k % 2 = 0 then words (k / 2) / 256 * 256 + b.toNat
    else words (k / 2) % 256 + 256 * b.toNat)

/-- `while (c-- > 0) *(p++) = get_fs_byte(buf++);`, from byte `k` on. -/
def putBytes (words : ℕ → ℕ) (k : ℕ) (buf : ℕ → UInt8) : ℕ → ℕ → ℕ
  | 0 => words
  | c + 1 => putByte (putBytes words k buf c) (k + c) (buf c)

/-- Byte `k` of a file, where there is a block for it. -/
def fileByte (z : Zones) (i k : ℕ) : UInt8 :=
  if k / 1024 < maxBlock ∧ z.named i (path (k / 1024)) ≠ 0 then
    byteOf (z.data (z.named i (path (k / 1024)))) (k % 1024)
  else 0

/-! ### `file_read` and `file_write` -/

/-- What a read has come to: the position, what is left, and the bytes that it has copied. -/
structure Reading where
  pos : Long
  left : ℕ
  bytes : List UInt8

/-- The loop of `file_read`; it has no result if `_bmap` panics. -/
def readLoop (z : Zones) (ok : ℕ → Bool) (i : ℕ) : ℕ → Long → ℕ → Option Reading
  | 0, pos, left => some ⟨pos, left, []⟩
  | fuel + 1, pos, left =>
    if left = 0 then some ⟨pos, left, []⟩
    else if pos.toInt.tdiv blockSize < 0 then none
    else
      (z.bmap ok i (pos.toInt.tdiv blockSize).toNat).bind fun block =>
        if block ≠ 0 ∧ ok block = false then some ⟨pos, left, []⟩
        else
          let nr := (pos.toInt.tmod blockSize).toNat
          let chars := min (1024 - nr) left
          let bytes := (List.range chars).map fun k =>
            if block = 0 then 0 else byteOf (z.data block) (nr + k)
          (readLoop z ok i fuel (pos + BitVec.ofNat 32 chars) (left - chars)).map fun r =>
            { r with bytes := bytes ++ r.bytes }

/-- What a write has come to: the zones, `i_size`, the position, and the bytes that it has
taken. -/
structure Writing where
  zones : Zones
  size : Long
  pos : Long
  done : ℕ

/-- The loop of `file_write`; it has no result if `_bmap` panics. -/
def writeLoop (ok : ℕ → Bool) (i : ℕ) (buf : ℕ → UInt8) (count : ℕ) : ℕ → Writing → Option Writing
  | 0, w => some w
  | fuel + 1, w =>
    if count ≤ w.done then some w
    else if w.pos.toInt.tdiv blockSize < 0 then none
    else
      (w.zones.createBlock ok i (w.pos.toInt.tdiv blockSize).toNat).bind fun (block, z) =>
        if block = 0 ∨ ok block = false then some { w with zones := z }
        else
          let off := (w.pos.toInt.tmod blockSize).toNat
          let c := min (1024 - off) (count - w.done)
          let pos := w.pos + BitVec.ofNat 32 c
          writeLoop ok i buf count fuel
            { zones := z.store block (putBytes (z.data block) off (fun k => buf (w.done + k)) c)
              size := if w.size.toNat < pos.toNat then pos else w.size
              pos := pos
              done := w.done + c }

/-! ### The calls -/

/-- A regular file that is open, and the zones of its device. -/
structure Descriptor where
  file : Position.File
  /-- `i_size` -/
  size : Long
  /-- `i_num` -/
  inum : ℕ
  zones : Zones
  /-- `IS_SEEKABLE(MAJOR(i_dev))` -/
  seekable : Bool

inductive Call where
  | lseek (offset origin : Long)
  | read (count : Long)
  | write (count : Long) (buf : ℕ → UInt8)

/-- What a call returns, and what it copies to the buffer of its caller. -/
structure Answer where
  result : ℤ
  bytes : List UInt8
  deriving DecidableEq

namespace Descriptor

def setPos (s : Descriptor) (pos : Long) : Descriptor :=
  { s with file := { s.file with pos := pos } }

/-- `sys_lseek`. -/
def lseek (s : Descriptor) (offset origin : Long) : Answer × Descriptor :=
  if s.seekable = false then (⟨-Position.EBADF, []⟩, s)
  else
    match seekTo s.file s.size offset origin with
    | none => (⟨-Position.EINVAL, []⟩, s)
    | some pos => (⟨pos.toInt, []⟩, s.setPos pos)

/-- `file_read`. -/
def fileRead (s : Descriptor) (ok : ℕ → Bool) (count : ℕ) : Option (Answer × Descriptor) :=
  (readLoop s.zones ok s.inum count s.file.pos count).map fun r =>
    (⟨if count - r.left ≠ 0 then (count - r.left : ℕ) else -Position.ERROR, r.bytes⟩,
      s.setPos r.pos)

/-- `sys_read`. -/
def read (s : Descriptor) (ok : ℕ → Bool) (count : Long) : Option (Answer × Descriptor) :=
  if count.toInt < 0 then some (⟨-Position.EINVAL, []⟩, s)
  else if count = 0 then some (⟨0, []⟩, s)
  else
    let count := readCount s.file s.size count
    if count.toInt ≤ 0 then some (⟨0, []⟩, s) else s.fileRead ok count.toInt.toNat

/-- `file_write`. -/
def fileWrite (s : Descriptor) (ok : ℕ → Bool) (count : ℕ) (buf : ℕ → UInt8) :
    Option (Answer × Descriptor) :=
  (writeLoop ok s.inum buf count count ⟨s.zones, s.size, writeFrom s.file s.size, 0⟩).map fun w =>
    let s' := { s with zones := w.zones, size := w.size }
    (⟨if w.done ≠ 0 then w.done else -1, []⟩, if s.file.append then s' else s'.setPos w.pos)

/-- `sys_write`. -/
def write (s : Descriptor) (ok : ℕ → Bool) (count : Long) (buf : ℕ → UInt8) :
    Option (Answer × Descriptor) :=
  if count.toInt < 0 then some (⟨-Position.EINVAL, []⟩, s)
  else if count = 0 then some (⟨0, []⟩, s)
  else s.fileWrite ok count.toInt.toNat buf

def call (s : Descriptor) (ok : ℕ → Bool) : Call → Option (Answer × Descriptor)
  | .lseek offset origin => some (s.lseek offset origin)
  | .read count => s.read ok count
  | .write count buf => s.write ok count buf

end Descriptor

/-! ### What is stored in a block -/

section

variable {words : ℕ → ℕ} {buf : ℕ → UInt8} {k j c : ℕ} {b : UInt8}

theorem byteOf_putByte_self : byteOf (putByte words k b) k = b := by
  have hb := b.toNat_lt
  rw [byteOf, putByte, Function.update_self, UInt8.ofNat_eq_iff_mod_eq_toNat]
  obtain hk | hk : k % 2 = 0 ∨ k % 2 = 1 := by omega
  · rw [if_pos hk, hk]
    omega
  · rw [if_neg (by omega), hk]
    omega

theorem byteOf_putByte_ne (h : j ≠ k) : byteOf (putByte words k b) j = byteOf words j := by
  rw [byteOf, byteOf, putByte, Function.update_apply]
  split
  case isFalse => rfl
  case isTrue heq =>
    have hb := b.toNat_lt
    rw [UInt8.ofNat_eq_iff_mod_eq_toNat, UInt8.toNat_ofNat', heq]
    -- the other byte of the word
    obtain hk | hk : k % 2 = 0 ∨ k % 2 = 1 := by omega
    · rw [if_pos hk, show j % 2 = 1 by omega]
      omega
    · rw [if_neg (by omega), show j % 2 = 0 by omega]
      omega

theorem byteOf_putBytes : byteOf (putBytes words k buf c) j =
    if k ≤ j ∧ j < k + c then buf (j - k) else byteOf words j := by
  induction c with
  | zero =>
    rw [if_neg (by omega)]
    rfl
  | succ c ih =>
    rw [putBytes]
    by_cases hj : j = k + c
    · rw [hj, byteOf_putByte_self, if_pos ⟨Nat.le_add_right k c, by omega⟩, Nat.add_sub_cancel_left]
    · rw [byteOf_putByte_ne hj, ih]
      by_cases hin : k ≤ j ∧ j < k + c
      · rw [if_pos hin, if_pos ⟨hin.1, by omega⟩]
      · rw [if_neg hin, if_neg (by omega)]

end

/-! ### Blocks of the file -/

section

variable {z z' : Zones} {i i' b k : ℕ} {ok : ℕ → Bool}

theorem fileByte_hole (h : z.named i (path (k / 1024)) = 0) : fileByte z i k = 0 :=
  if_neg fun hcon => hcon.2 h

theorem fileByte_behind (h : ¬ k / 1024 < maxBlock) : fileByte z i k = 0 :=
  if_neg fun hcon => h hcon.1

theorem fileByte_block (hk : k / 1024 < maxBlock) (h : z.named i (path (k / 1024)) ≠ 0) :
    fileByte z i k = byteOf (z.data (z.named i (path (k / 1024)))) (k % 1024) :=
  if_pos ⟨hk, h⟩

/-- `create_block` changes no byte of any file. -/
theorem fileByte_create {r : ℕ} (h : z.Owned) (hc : z.createBlock ok i b = some (r, z')) :
    fileByte z' i' k = fileByte z i' k := by
  have hgrows : Zones.Grows (· = i) (fun _ => False) z z' := Zones.create_grows h hc
  by_cases hk : k / 1024 < maxBlock
  swap
  · rw [fileByte_behind hk, fileByte_behind hk]
  by_cases hold : z.named i' (path (k / 1024)) = 0
  · rw [fileByte_hole hold]
    by_cases hnew : z'.named i' (path (k / 1024)) = 0
    · exact fileByte_hole hnew
    · -- a new block is empty
      rw [fileByte_block hk hnew, byteOf, hgrows.zero i' _ hk (fun hcon => hcon) hold hnew,
        Nat.zero_div]
      rfl
  · have hkeeps := hgrows.fills.keeps i' _ (Zones.isPath_path hk) hold
    have hnew : z'.named i' (path (k / 1024)) ≠ 0 := by rwa [hkeeps]
    rw [fileByte_block hk hnew, fileByte_block hk hold, hkeeps, hgrows.data i' _ hk hold]

/-- What the file holds when a block of it has been written. -/
theorem fileByte_store (h : z.Owned) (hb : b < maxBlock) (hne : z.named i (path b) ≠ 0)
    (words : ℕ → ℕ) : fileByte (z.store (z.named i (path b)) words) i k =
      if k / 1024 = b then byteOf words (k % 1024) else fileByte z i k := by
  have hnamed : ∀ {ks}, IsPath ks →
      (z.store (z.named i (path b)) words).named i ks = z.named i ks :=
    fun hks => Zones.named_store h hb hks
  by_cases heq : k / 1024 = b
  · have hk : k / 1024 < maxBlock := by rwa [heq]
    rw [if_pos heq, fileByte_block hk (by rwa [hnamed (Zones.isPath_path hk), heq]),
      hnamed (Zones.isPath_path hk), heq, Zones.store_data_self]
  rw [if_neg heq]
  by_cases hk : k / 1024 < maxBlock
  swap
  · rw [fileByte_behind hk, fileByte_behind hk]
  by_cases hzero : z.named i (path (k / 1024)) = 0
  · rw [fileByte_hole hzero, fileByte_hole (by rwa [hnamed (Zones.isPath_path hk)])]
  · -- two blocks of the file are different
    have hdiff : z.named i (path (k / 1024)) ≠ z.named i (path b) := by
      intro hsame
      have hpath := (h.distinct i i _ _ (Zones.isPath_path hk) (Zones.isPath_path hb) hzero hsame).2
      have happ : path (k / 1024) = path b ++ [] := hpath.trans (List.append_nil _).symm
      exact heq (Zones.path_injective happ)
    rw [fileByte_block hk hzero, fileByte_block hk (by rwa [hnamed (Zones.isPath_path hk)]),
      hnamed (Zones.isPath_path hk), Zones.store_data_ne _ _ hdiff]

end

/-! ### The two loops -/

section

variable {z : Zones} {i fuel p left : ℕ} {pos : Long}

/-- The block of a position, and the byte in it. -/
theorem place_eq (h : pos.toInt = p) : pos.toInt.tdiv blockSize = (p / 1024 : ℕ) ∧
    pos.toInt.tmod blockSize = (p % 1024 : ℕ) := by
  rw [h]
  exact ⟨(Int.ofNat_tdiv p 1024).symm, (Int.ofNat_tmod p 1024).symm⟩

/-- A position moves. -/
theorem toInt_add {c : ℕ} (h : pos.toInt = p) (hend : p + c ≤ 1024 * maxBlock) :
    (pos + BitVec.ofNat 32 c).toInt = (p + c : ℕ) := by
  rw [Position.toInt_add_ofNat, h, Nat.cast_add]
  rw [h]
  rw [maxBlock] at hend
  omega

/-- The loop of `file_read` copies what the file holds. -/
theorem readLoop_spec (hp : pos.toInt = p) (hend : p + left ≤ 1024 * maxBlock)
    (hfuel : left ≤ fuel) :
    ∃ pos' : Long, pos'.toInt = (p + left : ℕ) ∧ readLoop z (fun _ => true) i fuel pos left =
      some ⟨pos', 0, (List.range left).map fun k => fileByte z i (p + k)⟩ := by
  induction fuel generalizing pos p left with
  | zero =>
    obtain rfl : left = 0 := Nat.le_zero.mp hfuel
    exact ⟨pos, hp, rfl⟩
  | succ fuel ih =>
    rw [readLoop]
    by_cases hleft : left = 0
    · subst hleft
      exact ⟨pos, hp, rfl⟩
    obtain ⟨hdiv, hmod⟩ := place_eq hp
    have hb : p / 1024 < maxBlock := by omega
    rw [if_neg hleft, hdiv, hmod, if_neg (by omega), Int.toNat_natCast, Int.toNat_natCast,
      Zones.bmap, if_pos hb, Option.bind_some, Zones.bmapFrom_false, if_neg (by simp)]
    dsimp only
    -- the rest starts at the next block, or there is none
    set c := min (1024 - p % 1024) left with hc
    have hend' : p + c + (left - c) ≤ 1024 * maxBlock := by omega
    obtain ⟨pos', hpos', hrest⟩ := ih (toInt_add hp (show p + c ≤ _ by omega)) hend' (by omega)
    refine ⟨pos', by rw [hpos']; congr 1; omega, ?_⟩
    rw [hrest, Option.map_some]
    have hsplit : left = c + (left - c) := by omega
    have hbytes : (List.range left).map (fun k => fileByte z i (p + k)) =
        (List.range c).map (fun k => fileByte z i (p + k)) ++
          (List.range (left - c)).map fun k => fileByte z i (p + c + k) := by
      conv_lhs => rw [hsplit, List.range_add, List.map_append, List.map_map]
      simp only [Function.comp_def, Nat.add_assoc]
    rw [hbytes]
    refine congrArg (fun l => some (Reading.mk pos' 0 (l ++ _)))
      (List.map_congr_left fun k hk => ?_)
    have hkc := List.mem_range.mp hk
    have hdiv' : (p + k) / 1024 = p / 1024 := by omega
    have hmod' : (p + k) % 1024 = p % 1024 + k := by omega
    by_cases hzero : z.named i (path (p / 1024)) = 0
    · rw [fileByte_hole (by rwa [hdiv'])]
      exact if_pos hzero
    · rw [fileByte_block (by rwa [hdiv']) (by rwa [hdiv']), hdiv', hmod']
      exact if_neg hzero

/-- The loop of `file_write` has come from `w`, at position `p`, `k` bytes further. -/
structure Wrote (i : ℕ) (buf : ℕ → UInt8) (w w' : Writing) (p k : ℕ) : Prop where
  owned : w'.zones.Owned
  done : w'.done = w.done + k
  pos : w'.pos.toInt = (p + k : ℕ)
  size : w'.size.toNat = if k = 0 then w.size.toNat else max w.size.toNat (p + k)
  byte : ∀ j, fileByte w'.zones i j =
    if p ≤ j ∧ j < p + k then buf (w.done + (j - p)) else fileByte w.zones i j

variable {buf : ℕ → UInt8} {w w₁ w' : Writing} {k m count : ℕ}

/-- Blocks may have been taken, though nothing is written. -/
theorem Wrote.stay {z' : Zones} (h : z'.Owned) (hp : w.pos.toInt = p)
    (hbyte : ∀ j, fileByte z' i j = fileByte w.zones i j) :
    Wrote i buf w { w with zones := z' } p 0 where
  owned := h
  done := rfl
  pos := hp
  size := (if_pos rfl).symm
  byte j := by
    rw [if_neg (by omega)]
    exact hbyte j

theorem Wrote.trans (h : Wrote i buf w w₁ p k) (h' : Wrote i buf w₁ w' (p + k) m) :
    Wrote i buf w w' p (k + m) where
  owned := h'.owned
  done := by rw [h'.done, h.done, Nat.add_assoc]
  pos := by rw [h'.pos, Nat.add_assoc]
  size := by
    rw [h'.size, h.size]
    split_ifs <;> omega
  byte j := by
    rw [h'.byte, h.byte, h.done]
    by_cases hj : p + k ≤ j ∧ j < p + k + m
    · rw [if_pos hj, if_pos ⟨by omega, by omega⟩]
      exact congrArg buf (by omega)
    · rw [if_neg hj]
      by_cases hj' : p ≤ j ∧ j < p + k
      · rw [if_pos hj', if_pos ⟨hj'.1, by omega⟩]
      · rw [if_neg hj', if_neg (by omega)]

/-- One turn of the loop writes the part of a block. -/
theorem Wrote.turn {z' : Zones} {block c : ℕ} (buf : ℕ → UInt8) (h : w.zones.Owned) (hp : w.pos.toInt = p)
    (hc : w.zones.createBlock (fun _ => true) i (p / 1024) = some (block, z')) (hne : block ≠ 0)
    (hb : p / 1024 < maxBlock) (hfits : p % 1024 + c ≤ 1024) (hpos : c ≠ 0) :
    Wrote i buf w
      { zones := z'.store block (putBytes (z'.data block) (p % 1024) (fun k => buf (w.done + k)) c)
        size := if w.size.toNat < (w.pos + BitVec.ofNat 32 c).toNat then w.pos + BitVec.ofNat 32 c
          else w.size
        pos := w.pos + BitVec.ofNat 32 c
        done := w.done + c } p c := by
  have howned : z'.Owned := (Zones.createBlock_spec h hc).1.owned
  obtain rfl : z'.named i (path (p / 1024)) = block := (Zones.createBlock_spec h hc).2.1
  have hmoved : (w.pos + BitVec.ofNat 32 c).toInt = (p + c : ℕ) := toInt_add hp (by omega)
  have hnat : (w.pos + BitVec.ofNat 32 c).toNat = p + c := by
    have := Position.toNat_of_nonneg (show 0 ≤ (w.pos + BitVec.ofNat 32 c).toInt by omega)
    omega
  refine ⟨howned.store hb _, rfl, hmoved, ?_, fun j => ?_⟩
  · dsimp only
    rw [if_neg hpos, apply_ite BitVec.toNat, hnat]
    split_ifs <;> omega
  · rw [fileByte_store howned hb hne, byteOf_putBytes]
    by_cases hj : j / 1024 = p / 1024
    · rw [if_pos hj]
      by_cases hin : p ≤ j ∧ j < p + c
      · rw [if_pos (by omega), if_pos hin]
        exact congrArg buf (by omega)
      · rw [if_neg (by omega), if_neg hin, ← fileByte_create h hc, ← hj,
          fileByte_block (by rwa [hj]) (by rwa [hj])]
    · rw [if_neg hj, if_neg (by omega), fileByte_create h hc]

/-- The loop of `file_write` takes bytes up to `count`, unless the device runs full. -/
theorem writeLoop_spec (i : ℕ) (buf : ℕ → UInt8) (h : w.zones.Owned) (hp : w.pos.toInt = p) (hdone : w.done ≤ count)
    (hend : p + (count - w.done) ≤ 1024 * maxBlock) (hfuel : count - w.done ≤ fuel) :
    ∃ w' k, writeLoop (fun _ => true) i buf count fuel w = some w' ∧ Wrote i buf w w' p k ∧
      w'.done ≤ count ∧ (w'.done < count → w'.zones.Full) := by
  induction fuel generalizing w p with
  | zero =>
    exact ⟨w, 0, rfl, .stay h hp fun _ => rfl, hdone, fun hlt => by omega⟩
  | succ fuel ih =>
    rw [writeLoop]
    by_cases hleft : count ≤ w.done
    · rw [if_pos hleft]
      exact ⟨w, 0, rfl, .stay h hp fun _ => rfl, hdone, fun hlt => by omega⟩
    obtain ⟨hdiv, hmod⟩ := place_eq hp
    have hb : p / 1024 < maxBlock := by omega
    rw [if_neg hleft, hdiv, hmod, if_neg (by omega), Int.toNat_natCast, Int.toNat_natCast]
    cases hc : w.zones.createBlock (fun _ => true) i (p / 1024) with
    | none =>
      rw [Zones.createBlock, if_pos hb] at hc
      cases hc
    | some r =>
      obtain ⟨block, z'⟩ := r
      rw [Option.bind_some]
      dsimp only
      by_cases hzero : block = 0
      · -- there is no zone left
        subst hzero
        rw [if_pos (.inl rfl)]
        exact ⟨_, 0, rfl, .stay (Zones.createBlock_spec h hc).1.owned hp
          fun _ => fileByte_create h hc, hdone, fun _ => Zones.createBlock_full h hc⟩
      · rw [if_neg (by simp [hzero])]
        set c := min (1024 - p % 1024) (count - w.done) with hc₀
        have hturn := Wrote.turn buf h hp hc hzero hb (show p % 1024 + c ≤ 1024 by omega)
          (by omega)
        obtain ⟨w', k, hrun, hwrote, hle, hfull⟩ := ih hturn.owned hturn.pos
          (by rw [hturn.done]; omega) (by rw [hturn.done]; omega) (by rw [hturn.done]; omega)
        exact ⟨w', c + k, hrun, hturn.trans hwrote, hle, hfull⟩

end

/-! ### What the user sees -/

/-- A file that is open, as its user sees it. -/
structure View where
  bytes : Sparse UInt8
  pos : ℕ
  /-- `O_APPEND` -/
  append : Bool
  /-- no zone is left on the device -/
  full : Prop

namespace View

/-- Where `lseek` goes, from the start, the position or the end. -/
def target (v : View) (offset origin : Long) : Option ℕ :=
  let base := if origin = 0 then some 0 else if origin = 1 then some v.pos
    else if origin = 2 then some v.bytes.size else none
  base.bind fun b =>
    if 0 ≤ b + offset.toInt ∧ b + offset.toInt < 2 ^ 31 then some (b + offset.toInt).toNat else none

/-- Where a write starts. -/
def start (v : View) : ℕ := if v.append then v.bytes.size else v.pos

/-- What a call may answer, and leave. -/
inductive Allows (v : View) : Call → Answer → View → Prop where
  | seek {offset origin : Long} {p : ℕ} (h : v.target offset origin = some p) :
      Allows v (.lseek offset origin) ⟨p, []⟩ { v with pos := p }
  | noSeek {offset origin : Long} (h : v.target offset origin = none) :
      Allows v (.lseek offset origin) ⟨-Position.EINVAL, []⟩ v
  | read {count : Long} {bs : List UInt8} (h : 0 ≤ count.toInt)
      (hbs : bs = v.bytes.read v.pos count.toInt.toNat) :
      Allows v (.read count) ⟨bs.length, bs⟩ { v with pos := v.pos + bs.length }
  | noRead {count : Long} (h : count.toInt < 0) :
      Allows v (.read count) ⟨-Position.EINVAL, []⟩ v
  /-- `k` bytes are written, all of them if the device is not full then -/
  | write {count : Long} {buf : ℕ → UInt8} {k : ℕ} {full : Prop} (h : 0 ≤ count.toInt)
      (hk : k ≤ count.toInt.toNat) (hfull : k < count.toInt.toNat → full) :
      Allows v (.write count buf) ⟨if 0 < count.toInt ∧ k = 0 then -1 else k, []⟩
        { v with
          bytes := v.bytes.write v.start k buf
          pos := if v.append then v.pos else v.pos + k
          full := full }
  | noWrite {count : Long} {buf : ℕ → UInt8} (h : count.toInt < 0) :
      Allows v (.write count buf) ⟨-Position.EINVAL, []⟩ v

end View

namespace Descriptor

/-- A regular file in order, on a device that can be read. -/
structure Regular (s : Descriptor) : Prop where
  owned : s.zones.Owned
  size : s.size.toNat ≤ 1024 * maxBlock
  pos : 0 ≤ s.file.pos.toInt
  zero : ∀ k, s.size.toNat ≤ k → fileByte s.zones s.inum k = 0
  seekable : s.seekable = true

variable {s s' : Descriptor} {c : Call} {offset origin count : Long} {buf : ℕ → UInt8}

/-- What its user sees of it. -/
def Regular.view (h : s.Regular) : View where
  bytes := ⟨s.size.toNat, fileByte s.zones s.inum, h.zero⟩
  pos := s.file.pos.toNat
  append := s.file.append
  full := s.zones.Full

/-- A write ends before the first byte that no inode can name. -/
def Within (s : Descriptor) : Call → Prop
  | .write count _ =>
    0 < count.toInt → (writeFrom s.file s.size).toInt + count.toInt ≤ 1024 * maxBlock
  | _ => True

/-- A call where all blocks can be read. -/
def next (s : Descriptor) (c : Call) : Option (Answer × Descriptor) := s.call (fun _ => true) c

/-! ### `sys_lseek` -/

/-- A sum of a position and an offset, as `long`. -/
theorem toInt_offset {x y : Long} (hx : 0 ≤ x.toInt) :
    (0 ≤ (x + y).toInt ↔ 0 ≤ x.toInt + y.toInt ∧ x.toInt + y.toInt < 2 ^ 31) ∧
      (0 ≤ (x + y).toInt → (x + y).toInt = x.toInt + y.toInt) := by
  have hx' := BitVec.toInt_lt (x := x)
  have hy := BitVec.le_toInt y
  have hy' := BitVec.toInt_lt (x := y)
  rw [BitVec.toInt_add, Int.bmod_def]
  omega

theorem Regular.size_toInt (h : s.Regular) : s.size.toInt = s.size.toNat := by
  have hsize := h.size
  rw [maxBlock] at hsize
  rw [BitVec.toInt_eq_toNat_cond, if_pos (by omega)]

theorem Regular.pos_toInt (h : s.Regular) : s.file.pos.toInt = s.file.pos.toNat :=
  (Position.toNat_of_nonneg h.pos).symm

/-- Where `sys_lseek` goes from `base`. -/
theorem offset_target {base : Long} {b : ℕ} (offset : Long) (hb : base.toInt = b) :
    (if (base + offset).toInt < 0 then none else some (base + offset)).map BitVec.toNat =
        (if 0 ≤ b + offset.toInt ∧ b + offset.toInt < 2 ^ 31 then
          some (b + offset.toInt).toNat else none) := by
  obtain ⟨hiff, heq⟩ := toInt_offset (x := base) (y := offset) (by omega)
  rw [hb] at hiff heq
  by_cases hneg : (base + offset).toInt < 0
  · rw [if_pos hneg, if_neg fun hcon => by omega]
    rfl
  · have hnat := Position.toNat_of_nonneg (Int.not_lt.mp hneg)
    rw [if_neg hneg, if_pos (hiff.mp (by omega)), Option.map_some]
    exact congrArg some (by omega)

theorem Regular.seekTo_eq (h : s.Regular) (offset origin : Long) :
    (seekTo s.file s.size offset origin).map BitVec.toNat = h.view.target offset origin := by
  rw [seekTo, View.target]
  by_cases h₀ : origin = 0
  · have hzero : (0 : Long).toInt = (0 : ℕ) := rfl
    have hadd : (0 : Long) + offset = offset := BitVec.zero_add offset
    rw [if_pos h₀, if_pos h₀]
    have htarget := offset_target offset hzero
    rwa [hadd] at htarget
  by_cases h₁ : origin = 1
  · rw [if_neg h₀, if_neg h₀, if_pos h₁, if_pos h₁]
    exact offset_target offset h.pos_toInt
  by_cases h₂ : origin = 2
  · rw [if_neg h₀, if_neg h₀, if_neg h₁, if_neg h₁, if_pos h₂, if_pos h₂]
    exact offset_target offset h.size_toInt
  · rw [if_neg h₀, if_neg h₀, if_neg h₁, if_neg h₁, if_neg h₂, if_neg h₂]
    rfl

/-- A descriptor with another position. -/
theorem Regular.setPos (h : s.Regular) {pos : Long} (hpos : 0 ≤ pos.toInt) :
    (s.setPos pos).Regular :=
  ⟨h.owned, h.size, hpos, h.zero, h.seekable⟩

theorem lseek_allowed (h : s.Regular) : ∃ b s', ∃ h' : Regular s',
    some (s.lseek offset origin) = some (b, s') ∧
      h.view.Allows (.lseek offset origin) b h'.view := by
  have htarget := h.seekTo_eq offset origin
  rw [lseek, h.seekable, if_neg (by decide)]
  cases hseek : seekTo s.file s.size offset origin with
  | none =>
    rw [hseek] at htarget
    exact ⟨_, s, h, rfl, .noSeek htarget.symm⟩
  | some pos =>
    rw [hseek] at htarget
    have hpos := Position.FileTable.seekTo_nonneg hseek
    have hallowed := View.Allows.seek htarget.symm
    rw [Position.toNat_of_nonneg hpos] at hallowed
    exact ⟨_, s.setPos pos, h.setPos hpos, rfl, hallowed⟩

/-! ### `sys_read` -/

/-- `count`, cut at the end of the file. -/
theorem Regular.readCount_eq (h : s.Regular) (hcount : 0 ≤ count.toInt) :
    (readCount s.file s.size count).toInt.toNat =
      min count.toInt.toNat (s.size.toNat - s.file.pos.toNat) := by
  have hp := h.pos_toInt
  have hn := Position.toNat_of_nonneg hcount
  have hplt := BitVec.toInt_lt (x := s.file.pos)
  have hnlt := BitVec.toInt_lt (x := count)
  have hsize := h.size
  rw [maxBlock] at hsize
  have hsum : (count + s.file.pos).toNat = count.toNat + s.file.pos.toNat := by
    rw [BitVec.toNat_add]
    omega
  rw [readCount, hsum]
  split_ifs with hcut
  · -- a position behind the end leaves a negative count
    rw [BitVec.toInt_sub, h.size_toInt, Int.bmod_def]
    omega
  · omega

theorem read_allowed (h : s.Regular) : ∃ b s', ∃ h' : Regular s',
    s.read (fun _ => true) count = some (b, s') ∧ h.view.Allows (.read count) b h'.view := by
  rw [read]
  by_cases hneg : count.toInt < 0
  · rw [if_pos hneg]
    exact ⟨_, s, h, rfl, .noRead hneg⟩
  rw [if_neg hneg]
  have hcount : 0 ≤ count.toInt := Int.not_lt.mp hneg
  have hleft := h.readCount_eq hcount
  -- nothing is read behind the end, or if nothing is wanted
  have hnothing : (readCount s.file s.size count).toInt.toNat = 0 →
      h.view.Allows (.read count) ⟨0, []⟩ h.view := by
    intro hzero
    have hbs : ([] : List UInt8) = h.view.bytes.read h.view.pos count.toInt.toNat := by
      rw [eq_comm, ← List.length_eq_zero_iff, Sparse.length_read]
      exact hleft.symm.trans hzero
    exact .read hcount hbs
  by_cases hzero : count = 0
  · rw [if_pos hzero]
    refine ⟨_, s, h, rfl, hnothing ?_⟩
    rw [hleft, hzero]
    exact Nat.zero_min _
  rw [if_neg hzero]
  dsimp only
  by_cases hle : (readCount s.file s.size count).toInt ≤ 0
  · rw [if_pos hle]
    exact ⟨_, s, h, rfl, hnothing (Int.toNat_of_nonpos hle)⟩
  rw [if_neg hle, fileRead]
  set left := (readCount s.file s.size count).toInt.toNat with hleft₀
  have hsize := h.size
  obtain ⟨pos', hpos', hloop⟩ := readLoop_spec (z := s.zones) (i := s.inum)
    h.pos_toInt (show s.file.pos.toNat + left ≤ 1024 * maxBlock by omega) (Nat.le_refl left)
  rw [hloop, Option.map_some]
  have h' : (s.setPos pos').Regular := h.setPos (by omega)
  have hbs : ((List.range left).map fun k => fileByte s.zones s.inum (s.file.pos.toNat + k)) =
      h.view.bytes.read h.view.pos count.toInt.toNat := by
    rw [hleft]
    rfl
  have hpos : pos'.toNat = s.file.pos.toNat + left := by
    have hnat : pos'.toInt = pos'.toNat := h'.pos_toInt
    omega
  have hview : h'.view = { h.view with pos := h.view.pos + left } :=
    congrArg (fun p => { h.view with pos := p }) hpos
  have hresult : (if left - 0 ≠ 0 then ((left - 0 : ℕ) : ℤ) else -Position.ERROR) = left :=
    if_pos (by omega)
  have hallowed := View.Allows.read (v := h.view) hcount hbs
  rw [List.length_map, List.length_range, ← hview] at hallowed
  refine ⟨_, s.setPos pos', h', rfl, ?_⟩
  dsimp only
  rw [hresult]
  exact hallowed

/-! ### `sys_write` -/

theorem Regular.start_eq (h : s.Regular) :
    (writeFrom s.file s.size).toInt = h.view.start := by
  have hview : h.view.append = s.file.append := rfl
  rw [writeFrom, View.start, hview]
  by_cases happend : s.file.append = true
  · rw [if_pos happend, if_pos happend]
    exact h.size_toInt
  · rw [if_neg happend, if_neg happend]
    exact h.pos_toInt

/-- What a write of `k` bytes leaves, but for the position. -/
theorem Regular.wrote {w' : Writing} {k : ℕ} (h : s.Regular)
    (hw : Wrote s.inum buf ⟨s.zones, s.size, writeFrom s.file s.size, 0⟩ w' h.view.start k)
    (hend : h.view.start + k ≤ 1024 * maxBlock) :
    ∃ h' : Regular { s with zones := w'.zones, size := w'.size },
      h'.view.bytes = h.view.bytes.write h.view.start k buf := by
  have hsize : w'.size.toNat =
      if k = 0 then s.size.toNat else max s.size.toNat (h.view.start + k) := hw.size
  have hold := h.size
  have hzero : ∀ j, w'.size.toNat ≤ j → fileByte w'.zones s.inum j = 0 := by
    intro j hj
    rw [hsize] at hj
    rw [hw.byte, if_neg (by split at hj <;> omega)]
    exact h.zero j (by split at hj <;> omega)
  refine ⟨⟨hw.owned, ?_, h.pos, hzero, h.seekable⟩, Sparse.ext hsize (funext fun j => ?_)⟩
  · dsimp only
    rw [hsize]
    split <;> omega
  · refine (hw.byte j).trans ?_
    rw [Nat.zero_add]
    rfl

theorem write_allowed (h : s.Regular) (hw : s.Within (.write count buf)) :
    ∃ b s', ∃ h' : Regular s', s.write (fun _ => true) count buf = some (b, s') ∧
      h.view.Allows (.write count buf) b h'.view := by
  rw [write]
  by_cases hneg : count.toInt < 0
  · rw [if_pos hneg]
    exact ⟨_, s, h, rfl, .noWrite hneg⟩
  rw [if_neg hneg]
  have hcount : 0 ≤ count.toInt := Int.not_lt.mp hneg
  by_cases hzero : count = 0
  · -- nothing is to be written
    rw [if_pos hzero]
    have hfull : 0 < count.toInt.toNat → h.view.full := by
      rw [hzero]
      exact fun hlt => absurd hlt (by decide)
    have hallowed := @View.Allows.write h.view count buf 0 _ hcount (Nat.zero_le _) hfull
    rw [if_neg (by rw [hzero]; decide), Sparse.write_zero, Nat.add_zero, ite_self] at hallowed
    exact ⟨_, s, h, rfl, hallowed⟩
  rw [if_neg hzero, fileWrite]
  have hpos : 0 < count.toInt := by
    have hne : count.toInt ≠ 0 := fun hcon => hzero (BitVec.eq_of_toInt_eq hcon)
    omega
  have hstart := h.start_eq
  have hend := hw hpos
  rw [hstart] at hend
  set n := count.toInt.toNat with hn
  obtain ⟨w', k, hloop, hwrote, hle, hfull⟩ := writeLoop_spec s.inum buf
    (w := ⟨s.zones, s.size, writeFrom s.file s.size, 0⟩) h.owned hstart (Nat.zero_le n)
    (by omega) (show n - 0 ≤ n by omega)
  have hdone : w'.done = k := hwrote.done.trans (Nat.zero_add k)
  rw [hdone] at hle hfull
  rw [hloop, Option.map_some, hdone]
  obtain ⟨h₁, hbytes⟩ := h.wrote hwrote (by omega)
  have hmoved := hwrote.pos
  have hallowed : h.view.Allows (.write count buf)
      ⟨if 0 < count.toInt ∧ k = 0 then -1 else k, []⟩
      ⟨h.view.bytes.write h.view.start k buf,
        if h.view.append then h.view.pos else h.view.pos + k, h.view.append, w'.zones.Full⟩ :=
    .write hcount hle hfull
  have hresult : (if k ≠ 0 then (k : ℤ) else -1) =
      if 0 < count.toInt ∧ k = 0 then -1 else (k : ℤ) := by
    by_cases hk : k = 0
    · rw [if_neg (not_not.mpr hk), if_pos ⟨hpos, hk⟩]
    · rw [if_pos hk, if_neg fun hcon => hk hcon.2]
  rw [← hbytes, ← hresult] at hallowed
  by_cases happend : s.file.append = true
  · rw [if_pos (show h.view.append = true from happend)] at hallowed
    dsimp only
    rw [if_pos happend]
    exact ⟨_, _, h₁, rfl, hallowed⟩
  · have hpos' : 0 ≤ w'.pos.toInt := by omega
    have hfrom : h.view.start = h.view.pos := if_neg happend
    have hnat : h.view.pos + k = w'.pos.toNat := by
      have := Position.toNat_of_nonneg hpos'
      omega
    rw [if_neg (show ¬ h.view.append = true from happend), hnat] at hallowed
    dsimp only
    rw [if_neg happend]
    exact ⟨_, _, h₁.setPos hpos', rfl, hallowed⟩

/-- One call on a regular file. -/
theorem next_allowed (h : s.Regular) (hc : s.Within c) : ∃ b s', ∃ h' : Regular s',
    s.next c = some (b, s') ∧ h.view.Allows c b h'.view := by
  cases c with
  | lseek offset origin => exact lseek_allowed h
  | read count => exact read_allowed h
  | write count buf => exact write_allowed h hc

end Descriptor

open Descriptor in
/-- **The content of a file**: whatever the sequence of calls through a descriptor of a regular
file, if no write goes past the last byte that an inode can name, and all blocks can be read, they
answer as a byte array with holes does.  A read returns the bytes from the position up to the end,
and moves the position by their number; a write replaces the bytes that it returns the number of,
from the position, or with `O_APPEND` from the end, and only without `O_APPEND` moves the position.
These are all that it is given, unless no zone is left on the device. -/
theorem file_content {s : Descriptor} {cs : List Call} (h : s.Regular)
    (hcs : Along Within next cs s) : ∃ as s', ∃ h' : Regular s',
      answers next cs s = some (as, s') ∧ Answers View.Allows h.view cs as h'.view := by
  have hstep : ∀ (s : Descriptor) (v : View) (c : Call), (∃ h : s.Regular, h.view = v) →
      s.Within c → ∃ b s' v', s.next c = some (b, s') ∧ (∃ h' : Regular s', h'.view = v') ∧
        v.Allows c b v' := by
    rintro s v c ⟨h, rfl⟩ hc
    obtain ⟨b, s', h', hs', hallowed⟩ := next_allowed h hc
    exact ⟨b, s', h'.view, hs', ⟨h', rfl⟩, hallowed⟩
  obtain ⟨as, s', v', hrun, ⟨h', rfl⟩, hallowed⟩ := answers_allowed hstep ⟨h, rfl⟩ hcs
  exact ⟨as, s', h', hrun, hallowed⟩

/-- An empty file that is open, on a device with bit `c` of the bitmap clear. -/
def emptyFile (c : ℕ) (append : Bool) : Descriptor where
  file := ⟨0, append⟩
  size := 0
  inum := 1
  zones := Zones.device c
  seekable := true

theorem regular_emptyFile {c : ℕ} (hc : c ≠ 0) (append : Bool) : (emptyFile c append).Regular where
  owned := Zones.owned_device hc
  size := Nat.zero_le _
  pos := Int.le_refl 0
  zero k _ := by
    refine if_neg fun hcon => hcon.2 (Zones.named_empty (fun _ _ => rfl) ?_)
    exact (Zones.isPath_path hcon.1).ne_nil
  seekable := rfl

/-- Three bytes behind a hole of ten. -/
theorem file_content_hole : ∃ as s', ∃ h' : Descriptor.Regular s',
    answers Descriptor.next [.lseek 10 0, .write 3 fun _ => 65] (emptyFile 1 false) =
      some (as, s') ∧
    Answers View.Allows (regular_emptyFile Nat.one_ne_zero false).view
      [.lseek 10 0, .write 3 fun _ => 65] as h'.view := by
  refine file_content (regular_emptyFile Nat.one_ne_zero false) ⟨trivial, fun b s' hs' => ?_⟩
  have hseek : (emptyFile 1 false).next (.lseek 10 0) =
      some (⟨10, []⟩, (emptyFile 1 false).setPos 10) := rfl
  obtain ⟨-, rfl⟩ := Prod.mk.inj (Option.some.inj (hseek.symm.trans hs'))
  exact ⟨fun _ => by decide, fun _ _ _ => trivial⟩

/-- No zone is left on a device with no clear bit in its bitmap. -/
theorem createBlock_full_device : (Zones.device 8192).createBlock (fun _ => true) 1 0 =
    some (0, Zones.device 8192) := by
  have hfind : (Zones.device 8192).findBit 8 0 = none := by
    cases hf : (Zones.device 8192).findBit 8 0 with
    | none => rfl
    | some mj =>
      obtain ⟨hj, bits, hbits, hclear⟩ := Zones.findBit_spec hf
      rw [show (Zones.device 8192).zmap mj.1 =
        if mj.1 = 0 then some fun j => decide (j ≠ 8192) else none from rfl] at hbits
      split at hbits <;> cases hbits
      exact absurd (of_decide_eq_false hclear) (not_not.mpr (Nat.ne_of_lt hj))
  have hclaim : (Zones.device 8192).claimBlock = (none, Zones.device 8192) := by
    rw [Zones.claimBlock, hfind]
  have hpath : path 0 = [0] := rfl
  have hvalue : (Zones.device 8192).value 1 none 0 = 0 := rfl
  rw [Zones.createBlock, if_pos (by decide), hpath, Zones.bmapFrom, Zones.entry,
    if_pos ⟨rfl, hvalue⟩, Zones.newBlock, hclaim]
  rfl

/-- A byte is appended, and the position stays; and a byte is not written, for want of a zone. -/
theorem file_content_not :
    (∃ s s' : Descriptor, s.Regular ∧ s.next (.write 1 fun _ => 65) = some (⟨1, []⟩, s') ∧
      s.file.pos = 0 ∧ s'.file.pos = 0) ∧
    ∃ s : Descriptor, s.Regular ∧ s.next (.write 1 fun _ => 65) = some (⟨-1, []⟩, s) := by
  have hnext : ∀ c append, (emptyFile c append).next (.write 1 fun _ => 65) =
      (writeLoop (fun _ => true) 1 (fun _ => 65) 1 1 ⟨Zones.device c, 0, 0, 0⟩).map fun w =>
        (⟨if w.done ≠ 0 then w.done else -1, []⟩,
          { emptyFile c append with
            zones := w.zones, size := w.size, file := ⟨if append then 0 else w.pos, append⟩ }) := by
    rintro c (- | -) <;> rfl
  constructor
  · obtain ⟨z, hloop⟩ : ∃ z, writeLoop (fun _ => true) 1 (fun _ => 65) 1 1
        ⟨Zones.device 1, 0, 0, 0⟩ = some ⟨z, 1, 1, 1⟩ := by
      rw [writeLoop, if_neg (by decide), if_neg (by decide),
        show ((0 : Long).toInt.tdiv blockSize).toNat = 0 from rfl, Zones.createBlock_device.1]
      exact ⟨_, rfl⟩
    refine ⟨emptyFile 1 true, _, regular_emptyFile Nat.one_ne_zero true, ?_, rfl,
      show ({ emptyFile 1 true with zones := z, size := 1 } : Descriptor).file.pos = 0 from rfl⟩
    rw [hnext, hloop]
    rfl
  · have hloop : writeLoop (fun _ => true) 1 (fun _ => 65) 1 1 ⟨Zones.device 8192, 0, 0, 0⟩ =
        some ⟨Zones.device 8192, 0, 0, 0⟩ := by
      rw [writeLoop, if_neg (by decide), if_neg (by decide),
        show ((0 : Long).toInt.tdiv blockSize).toNat = 0 from rfl, createBlock_full_device]
      rfl
    refine ⟨emptyFile 8192 false, regular_emptyFile (by decide) false, ?_⟩
    rw [hnext, hloop]
    rfl

end Content

end Fs
