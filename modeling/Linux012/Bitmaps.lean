/-
The allocation of blocks and inodes in the bit-maps (`new_block` and `new_inode` of
fs/bitmap.c).

* `BitMaps` — a super block with the buffers of its bit-maps;
* `search` — the loop of both functions, with what it leaves in its variables;
* `search_firstClear` — it finds the first clear bit of the buffers that are there;
* `bitmap_allocation` — when both functions hand out a number that was free, or none and
  leave the bit-maps as they were;
* `newBlock_past_end` — a block past the last one is marked and not handed out;
* `newBlock_claimBlock` — the zones of files are allocated so.

Design notes: a bit is counted over all buffers of a bit-map, so that its buffer is that of
the quotient by 8192.
-/
import Linux012.Zones
import Mathlib.Data.Int.Order.Basic
import Mathlib.Tactic.IntervalCases

namespace Fs

open Function (update)

/-- What a function that may end in `panic` comes to. -/
inductive Outcome (α : Type) where
  | returns (a : α)
  | panics
  deriving DecidableEq

/-- A super block in memory. -/
structure BitMaps where
  nInodes : ℕ
  nZones : ℕ
  firstDataZone : ℕ
  /-- `s_imap` and `s_zmap`, where there is a buffer -/
  imap : ℕ → Option (ℕ → Bool)
  zmap : ℕ → Option (ℕ → Bool)
  /-- `s_ninodes` and `s_nzones` are unsigned shorts -/
  nInodes_lt : nInodes < 2 ^ 16
  nZones_lt : nZones < 2 ^ 16

/-- The loop of `new_block` and `new_inode`, with `i`, `bh` and `j`. -/
def search (map : ℕ → Option (ℕ → Bool)) :
    ℕ → ℕ → Option (ℕ → Bool) → ℕ → ℕ × Option (ℕ → Bool) × ℕ
  | 0, i, bh, j => (i, bh, j)
  | n + 1, i, _, j =>
    match map i with
    | none => search map n (i + 1) none j
    | some bits =>
      let j := findFirstZero bits 8192 0
      if j < 8192 then (i, some bits, j) else search map n (i + 1) (some bits) j

/-- `set_bit`, of buffer `i`. -/
def setBitOf (map : ℕ → Option (ℕ → Bool)) (i j : ℕ) : ℕ → Option (ℕ → Bool) :=
  update map i ((map i).map fun bits => update bits j true)

namespace BitMaps

/-- `new_block`: the number that it returns.  `getblk` is the `b_count` of the buffer that
`getblk` gives for a block, if it gives one. -/
def newBlock (s : BitMaps) (getblk : ℤ → Option ℕ) : Outcome ℤ × BitMaps :=
  let (i, bh, j) := search s.zmap 8 0 none 8192
  match bh with
  | none => (.returns 0, s)
  | some bits =>
    if 8 ≤ i ∨ 8192 ≤ j then (.returns 0, s)
    else if bits j then (.panics, s)
    else
      let s := { s with zmap := setBitOf s.zmap i j }
      let n : ℤ := j + i * 8192 + s.firstDataZone - 1
      if s.nZones ≤ n then (.returns 0, s)
      else if getblk n ≠ some 1 then (.panics, s)
      else (.returns n, s)

/-- `new_inode`: the number of the inode that it returns.  `get_empty_inode` ends in `panic`
if there is no `room` in the inode table. -/
def newInode (s : BitMaps) (room : Bool) : Outcome (Option ℕ) × BitMaps :=
  if ¬ room then (.panics, s)
  else
    let (i, bh, j) := search s.imap 8 0 none 8192
    match bh with
    | none => (.returns none, s)
    | some bits =>
      if 8192 ≤ j ∨ s.nInodes < j + i * 8192 then (.returns none, s)
      else if bits j then (.panics, s)
      else
        (.returns (some (j + i * 8192)), { s with imap := setBitOf s.imap i j })

end BitMaps

/-! ### What they are for -/

/-- The buffer of bit `k` is there. -/
def Loaded (map : ℕ → Option (ℕ → Bool)) (k : ℕ) : Prop := (map (k / 8192)).isSome

/-- Bit `k` is clear. -/
def Clear (map : ℕ → Option (ℕ → Bool)) (k : ℕ) : Prop :=
  ∃ bits, map (k / 8192) = some bits ∧ bits (k % 8192) = false

/-- Bit `k` is set. -/
def Marked (map : ℕ → Option (ℕ → Bool)) (k : ℕ) : Prop :=
  ∃ bits, map (k / 8192) = some bits ∧ bits (k % 8192) = true

/-- Bit `k` is the first of the eight buffers that is clear. -/
def FirstClear (map : ℕ → Option (ℕ → Bool)) (k : ℕ) : Prop :=
  k < 8 * 8192 ∧ Clear map k ∧ ∀ k' < k, ¬ Clear map k'

/-- The bit-map with bit `k` set. -/
def mark (map : ℕ → Option (ℕ → Bool)) (k : ℕ) : ℕ → Option (ℕ → Bool) :=
  setBitOf map (k / 8192) (k % 8192)

namespace BitMaps

/-- The block of a bit. -/
def blockOf (s : BitMaps) (k : ℕ) : ℤ := k + s.firstDataZone - 1

/-- A number of a data block; 0 is returned for none. -/
def DataBlock (s : BitMaps) (n : ℤ) : Prop := n ≠ 0 ∧ s.firstDataZone ≤ n ∧ n < s.nZones

/-- A block that was free is handed out and is now marked; or none is free, and nothing has
changed. -/
def BlockTaken (s : BitMaps) : Outcome ℤ × BitMaps → Prop
  | (.returns n, s') =>
    (∃ k, n = s.blockOf k ∧ s.DataBlock n ∧ Clear s.zmap k ∧
      s' = { s with zmap := mark s.zmap k }) ∨
    n = 0 ∧ s' = s ∧ ∀ k, s.DataBlock (s.blockOf k) → Marked s.zmap k
  | (.panics, _) => False

/-- The same of an inode. -/
def InodeTaken (s : BitMaps) : Outcome (Option ℕ) × BitMaps → Prop
  | (.returns (some k), s') =>
    k ≤ s.nInodes ∧ Clear s.imap k ∧ s' = { s with imap := mark s.imap k }
  | (.returns none, s') => s' = s ∧ ∀ k ≤ s.nInodes, Marked s.imap k
  | (.panics, _) => False

/-- The first clear bit, if there is one, is that of a data block that nobody uses the buffer
of; and if there is none, the bit-map covers the data blocks. -/
def BlockReady (s : BitMaps) (getblk : ℤ → Option ℕ) : Prop :=
  (∀ k, FirstClear s.zmap k → s.DataBlock (s.blockOf k) ∧ getblk (s.blockOf k) = some 1) ∧
  ((∀ k < 8 * 8192, ¬ Clear s.zmap k) →
    ∀ k, s.DataBlock (s.blockOf k) → Loaded s.zmap k)

/-- There is room in the inode table; and if no bit of an inode is clear, the bit-map covers
the inodes. -/
def InodeReady (s : BitMaps) (room : Bool) : Prop :=
  room = true ∧
    ((∀ k ≤ s.nInodes, ¬ Clear s.imap k) → ∀ k ≤ s.nInodes, Loaded s.imap k)

end BitMaps

/-! ### The search -/

variable {map : ℕ → Option (ℕ → Bool)} {bits : ℕ → Bool} {i j k n : ℕ}

theorem marked_iff : Marked map k ↔ Loaded map k ∧ ¬ Clear map k := by
  rw [Marked, Loaded, Clear]
  rcases map (k / 8192) with _ | bits <;> simp

theorem findFirstZero_before (h : j ≤ k) (hk : k < findFirstZero bits n j) : bits k = true := by
  induction n generalizing j with
  | zero =>
    rw [findFirstZero] at hk
    omega
  | succ n ih =>
    rw [findFirstZero] at hk
    split at hk
    case isTrue hset =>
      rcases Nat.eq_or_lt_of_le h with rfl | hlt
      · exact hset
      · exact ih hlt hk
    case isFalse => omega

/-- A buffer without a clear bit. -/
theorem findFirstZero_full (h : 8192 ≤ findFirstZero bits 8192 0) (hk : k < 8192) :
    bits k = true :=
  findFirstZero_before (Nat.zero_le k) (Nat.lt_of_lt_of_le hk h)

/-- The bits of one buffer. -/
theorem clear_buffer (h : j < 8192) :
    Clear map (8192 * i + j) ↔ ∃ bits, map i = some bits ∧ bits j = false := by
  have hdiv : (8192 * i + j) / 8192 = i := by omega
  have hmod : (8192 * i + j) % 8192 = j := by omega
  rw [Clear, hdiv, hmod]

/-- The loop stops at the first clear bit from buffer `i` on, or runs out. -/
theorem search_spec (map : ℕ → Option (ℕ → Bool)) (n i : ℕ) (bh : Option (ℕ → Bool)) :
    (∃ k, 8192 * i ≤ k ∧ k < 8192 * (i + n) ∧ Clear map k ∧
      (∀ k', 8192 * i ≤ k' → k' < k → ¬ Clear map k') ∧
      search map n i bh 8192 = (k / 8192, map (k / 8192), k % 8192)) ∨
    (∀ k, 8192 * i ≤ k → k < 8192 * (i + n) → ¬ Clear map k) ∧
      ∃ bh', search map n i bh 8192 = (i + n, bh', 8192) := by
  induction n generalizing i bh with
  | zero => exact .inr ⟨fun k hle hlt => absurd hlt (by omega), bh, rfl⟩
  | succ n ih =>
    -- a buffer that is passed over has no clear bit
    have hpass : ∀ bh', (∀ j < 8192, ¬ ∃ bits, map i = some bits ∧ bits j = false) →
        search map (n + 1) i bh 8192 = search map n (i + 1) bh' 8192 →
        (∃ k, 8192 * i ≤ k ∧ k < 8192 * (i + (n + 1)) ∧ Clear map k ∧
          (∀ k', 8192 * i ≤ k' → k' < k → ¬ Clear map k') ∧
          search map (n + 1) i bh 8192 = (k / 8192, map (k / 8192), k % 8192)) ∨
        (∀ k, 8192 * i ≤ k → k < 8192 * (i + (n + 1)) → ¬ Clear map k) ∧
          ∃ bh', search map (n + 1) i bh 8192 = (i + (n + 1), bh', 8192) := by
      intro bh' hfull heq
      have hhere : ∀ k, 8192 * i ≤ k → k < 8192 * (i + 1) → ¬ Clear map k := by
        intro k hle hlt hclear
        obtain ⟨j, rfl⟩ := Nat.exists_eq_add_of_le hle
        have hj : j < 8192 := by omega
        exact hfull j hj ((clear_buffer hj).mp hclear)
      rw [heq]
      rcases ih (i + 1) bh' with ⟨k, hle, hlt, hclear, hfirst, hk⟩ | ⟨hnone, bh'', hend⟩
      · refine .inl ⟨k, by omega, by omega, hclear, fun k' hle' hlt' => ?_, hk⟩
        rcases Nat.lt_or_ge k' (8192 * (i + 1)) with hin | hout
        · exact hhere k' hle' hin
        · exact hfirst k' hout hlt'
      · refine .inr ⟨fun k hle' hlt' => ?_, bh'', by rw [hend]; congr 1; omega⟩
        rcases Nat.lt_or_ge k (8192 * (i + 1)) with hin | hout
        · exact hhere k hle' hin
        · exact hnone k hout (by omega)
    rcases hmap : map i with _ | bits
    · refine hpass none (fun j _ => ?_) (by rw [search, hmap])
      rw [hmap]
      simp
    · by_cases hj : findFirstZero bits 8192 0 < 8192
      · obtain ⟨-, hzero⟩ := Zones.findFirstZero_spec bits 8192 0
        refine .inl ⟨8192 * i + findFirstZero bits 8192 0, by omega, by omega,
          (clear_buffer hj).mpr ⟨bits, hmap, hzero (by omega)⟩, fun k' hle' hlt' => ?_, ?_⟩
        · obtain ⟨j, rfl⟩ := Nat.exists_eq_add_of_le hle'
          have hj' : j < findFirstZero bits 8192 0 := by omega
          rw [clear_buffer (by omega), hmap]
          rintro ⟨bits', hbits', hclear⟩
          obtain rfl := Option.some.inj hbits'
          rw [findFirstZero_before (Nat.zero_le j) hj'] at hclear
          cases hclear
        · have hdiv : (8192 * i + findFirstZero bits 8192 0) / 8192 = i := by
            omega
          have hmod : (8192 * i + findFirstZero bits 8192 0) % 8192 =
              findFirstZero bits 8192 0 := by omega
          rw [hdiv, hmod, hmap, search, hmap]
          exact if_pos hj
      · have hge := Nat.le_of_not_lt hj
        have heq : findFirstZero bits 8192 0 = 8192 := by
          have := (Zones.findFirstZero_spec bits 8192 0).1
          omega
        refine hpass (some bits) (fun j hlt => ?_) ?_
        · rw [hmap]
          rintro ⟨bits', hbits', hclear⟩
          obtain rfl := Option.some.inj hbits'
          rw [findFirstZero_full hge hlt] at hclear
          cases hclear
        · rw [search, hmap]
          dsimp only
          rw [if_neg hj, heq]

/-- The search over the eight buffers. -/
theorem search_firstClear (map : ℕ → Option (ℕ → Bool)) :
    (∃ k, FirstClear map k ∧ search map 8 0 none 8192 =
      (k / 8192, map (k / 8192), k % 8192)) ∨
    (∀ k < 8 * 8192, ¬ Clear map k) ∧
      ∃ bh, search map 8 0 none 8192 = (8, bh, 8192) := by
  rcases search_spec map 8 0 none with ⟨k, -, hlt, hclear, hfirst, hk⟩ | ⟨hnone, hend⟩
  · refine .inl ⟨k, ⟨by omega, hclear, fun k' hk' => hfirst k' (by omega) hk'⟩, hk⟩
  · exact .inr ⟨fun k hlt => hnone k (by omega) (by omega), by simpa using hend⟩

theorem FirstClear.unique {k' : ℕ} (h : FirstClear map k) (h' : FirstClear map k') : k' = k := by
  rcases Nat.lt_trichotomy k k' with hlt | heq | hlt
  · exact absurd h.2.1 (h'.2.2 k hlt)
  · exact heq.symm
  · exact absurd h'.2.1 (h.2.2 k' hlt)

/-! ### The allocations -/

theorem mark_ne (h : Clear map k) : mark map k ≠ map := by
  obtain ⟨bits, hbits, hclear⟩ := h
  intro heq
  have hsame : mark map k (k / 8192) = map (k / 8192) := by rw [heq]
  rw [mark, setBitOf, Function.update_self, hbits] at hsame
  have hbit : update bits (k % 8192) true (k % 8192) = bits (k % 8192) :=
    congrFun (Option.some.inj hsame) (k % 8192)
  rw [Function.update_self, hclear] at hbit
  cases hbit

namespace BitMaps

variable {s : BitMaps} {getblk : ℤ → Option ℕ}

theorem newBlock_firstClear (h : FirstClear s.zmap k) :
    s.newBlock getblk =
      if s.nZones ≤ s.blockOf k then (.returns 0, { s with zmap := mark s.zmap k })
      else if getblk (s.blockOf k) ≠ some 1 then (.panics, { s with zmap := mark s.zmap k })
      else (.returns (s.blockOf k), { s with zmap := mark s.zmap k }) := by
  rcases search_firstClear s.zmap with ⟨k', hk', hsearch⟩ | ⟨hnone, -⟩
  · obtain rfl := h.unique hk'
    obtain ⟨hlt, ⟨bits, hbits, hclear⟩, -⟩ := h
    have hblock : ((k' % 8192 : ℕ) : ℤ) + ((k' / 8192 : ℕ) : ℤ) * 8192 + s.firstDataZone - 1 =
        s.blockOf k' := by
      rw [blockOf]
      omega
    rw [newBlock, hsearch, hbits]
    dsimp only
    rw [if_neg (by omega), hclear, if_neg (by decide), hblock]
    rfl
  · exact absurd h.2.1 (hnone k h.1)

theorem newBlock_none (h : ∀ k < 8 * 8192, ¬ Clear s.zmap k) :
    s.newBlock getblk = (.returns 0, s) := by
  rcases search_firstClear s.zmap with ⟨k, hk, -⟩ | ⟨-, bh, hsearch⟩
  · exact absurd hk.2.1 (h k hk.1)
  · rw [newBlock, hsearch]
    rcases bh with _ | bits
    · rfl
    · dsimp only
      rw [if_pos (by omega)]

theorem newInode_firstClear (h : FirstClear s.imap k) :
    s.newInode true =
      if s.nInodes < k then (.returns none, s)
      else (.returns (some k), { s with imap := mark s.imap k }) := by
  rcases search_firstClear s.imap with ⟨k', hk', hsearch⟩ | ⟨hnone, -⟩
  · obtain rfl := h.unique hk'
    obtain ⟨hlt, ⟨bits, hbits, hclear⟩, -⟩ := h
    have hnum : k' % 8192 + k' / 8192 * 8192 = k' := by omega
    rw [newInode, if_neg (by decide), hsearch, hbits]
    dsimp only
    rw [hnum, hclear]
    by_cases hrange : s.nInodes < k'
    · rw [if_pos (.inr hrange), if_pos hrange]
    · rw [if_neg (by omega), if_neg (by decide), if_neg hrange]
      rfl
  · exact absurd h.2.1 (hnone k h.1)

theorem newInode_none (h : ∀ k < 8 * 8192, ¬ Clear s.imap k) :
    s.newInode true = (.returns none, s) := by
  rcases search_firstClear s.imap with ⟨k, hk, -⟩ | ⟨-, bh, hsearch⟩
  · exact absurd hk.2.1 (h k hk.1)
  · rw [newInode, if_neg (by decide), hsearch]
    rcases bh with _ | bits
    · rfl
    · dsimp only
      rw [if_pos (.inl (Nat.le_refl 8192))]

/-- The bits of data blocks are among those that are searched. -/
theorem bit_lt (h : s.DataBlock (s.blockOf k)) : k < 8 * 8192 := by
  obtain ⟨-, -, hlt⟩ := h
  have := s.nZones_lt
  rw [blockOf] at hlt
  omega

/-- Clear bits have a first one. -/
theorem firstClear_or (map : ℕ → Option (ℕ → Bool)) :
    (∃ k, FirstClear map k) ∨ ∀ k < 8 * 8192, ¬ Clear map k := by
  rcases search_firstClear map with ⟨k, hk, -⟩ | ⟨hnone, -⟩
  · exact .inl ⟨k, hk⟩
  · exact .inr hnone

theorem newBlock_taken (s : BitMaps) (getblk : ℤ → Option ℕ) :
    s.BlockTaken (s.newBlock getblk) ↔ s.BlockReady getblk := by
  rcases firstClear_or s.zmap with ⟨k, hk⟩ | hnone
  · -- the first clear bit decides
    have hready : s.BlockReady getblk ↔
        s.DataBlock (s.blockOf k) ∧ getblk (s.blockOf k) = some 1 := by
      constructor
      · exact fun h => h.1 k hk
      · refine fun h => ⟨fun k' hk' => hk.unique hk' ▸ h, fun hnone => ?_⟩
        exact absurd hk.2.1 (hnone k hk.1)
    have hmark : ¬ ({ s with zmap := mark s.zmap k } : BitMaps) = s := fun heq =>
      mark_ne hk.2.1 (congrArg BitMaps.zmap heq)
    rw [hready, newBlock_firstClear hk]
    split
    case isTrue hpast =>
      refine iff_of_false ?_ fun h => absurd h.1.2.2 (by omega)
      rintro (⟨k', hzero, hblock, -⟩ | ⟨-, heq, -⟩)
      · exact hblock.1 rfl
      · exact hmark heq
    case isFalse hin =>
      split
      case isTrue hused => exact iff_of_false id fun h => hused h.2
      case isFalse hfree =>
        constructor
        · rintro (⟨k', hk', hblock, -⟩ | ⟨-, heq, -⟩)
          · exact ⟨hblock, not_not.mp hfree⟩
          · exact absurd heq hmark
        · exact fun h => .inl ⟨k, rfl, h.1, hk.2.1, rfl⟩
  · rw [newBlock_none hnone]
    constructor
    · rintro (⟨k, hzero, hblock, -⟩ | ⟨-, -, hall⟩)
      · exact absurd rfl hblock.1
      · exact ⟨fun k hk => absurd hk.2.1 (hnone k hk.1),
          fun _ k hk => (marked_iff.mp (hall k hk)).1⟩
    · intro h
      exact .inr ⟨rfl, rfl, fun k hk => marked_iff.mpr ⟨h.2 hnone k hk, hnone k (bit_lt hk)⟩⟩

theorem newInode_taken (s : BitMaps) (room : Bool) :
    s.InodeTaken (s.newInode room) ↔ s.InodeReady room := by
  have hlt : ∀ k ≤ s.nInodes, k < 8 * 8192 := fun k hk => by
    have := s.nInodes_lt
    omega
  cases room with
  | false => exact iff_of_false id fun h => Bool.noConfusion h.1
  | true =>
    rcases firstClear_or s.imap with ⟨k, hk⟩ | hnone
    · rw [newInode_firstClear hk]
      split
      case isTrue hpast =>
        -- the bits of inodes lie before the first clear bit
        have hclear : ∀ k' ≤ s.nInodes, ¬ Clear s.imap k' := fun k' hk' => hk.2.2 k' (by omega)
        constructor
        · exact fun h => ⟨rfl, fun _ k' hk' => (marked_iff.mp (h.2 k' hk')).1⟩
        · exact fun h => ⟨rfl, fun k' hk' => marked_iff.mpr ⟨h.2 hclear k' hk', hclear k' hk'⟩⟩
      case isFalse hin =>
        refine iff_of_true ⟨by omega, hk.2.1, rfl⟩ ⟨rfl, fun hnone => ?_⟩
        exact absurd hk.2.1 (hnone k (by omega))
    · have hclear : ∀ k ≤ s.nInodes, ¬ Clear s.imap k := fun k hk => hnone k (hlt k hk)
      rw [newInode_none hnone]
      constructor
      · exact fun h => ⟨rfl, fun _ k hk => (marked_iff.mp (h.2 k hk)).1⟩
      · exact fun h => ⟨rfl, fun k hk => marked_iff.mpr ⟨h.2 hclear k hk, hclear k hk⟩⟩

end BitMaps

/-- Both functions hand out what was free, or nothing, if and only if the bit that `new_block`
comes to is that of a data block whose buffer nobody uses, there is room in the inode table,
and a bit-map without a clear bit covers what it is for. -/
theorem bitmap_allocation (s : BitMaps) (getblk : ℤ → Option ℕ) (room : Bool) :
    (s.BlockTaken (s.newBlock getblk) ∧ s.InodeTaken (s.newInode room)) ↔
      s.BlockReady getblk ∧ s.InodeReady room :=
  and_congr (s.newBlock_taken getblk) (s.newInode_taken room)

/-- Two data blocks, both of them in use, and clear bits behind them. -/
def fullDevice : BitMaps where
  nInodes := 32
  nZones := 12
  firstDataZone := 10
  imap := fun i => if i = 0 then some fun j => decide (j < 33) else none
  zmap := fun i => if i = 0 then some fun j => decide (j < 3) else none
  nInodes_lt := by decide
  nZones_lt := by decide

/-- The bit of block 12 is set, and no block is handed out. -/
theorem newBlock_past_end :
    (fullDevice.newBlock fun _ => some 1).1 = .returns 0 ∧
      (fullDevice.newBlock fun _ => some 1).2.zmap ≠ fullDevice.zmap ∧
      ¬ fullDevice.BlockTaken (fullDevice.newBlock fun _ => some 1) := by
  have hfirst : FirstClear fullDevice.zmap 3 := by
    refine ⟨by decide, ⟨_, rfl, rfl⟩, fun k hk => ?_⟩
    interval_cases k <;> exact fun ⟨_, hbits, hclear⟩ =>
      Bool.noConfusion (congrFun (Option.some.inj hbits) _ ▸ hclear)
  have hpast : (fullDevice.nZones : ℤ) ≤ fullDevice.blockOf 3 := by decide
  refine ⟨?_, ?_, fun h => ?_⟩
  · rw [BitMaps.newBlock_firstClear hfirst, if_pos hpast]
  · rw [BitMaps.newBlock_firstClear hfirst, if_pos hpast]
    exact mark_ne hfirst.2.1
  · have hready := (BitMaps.newBlock_taken _ _).mp h
    exact absurd (hready.1 3 hfirst).1.2.2 (by omega)

/-! ### The zones of files -/

namespace Zones

variable {s : Zones}

/-- The super block of a device. -/
def bitMaps (s : Zones) (nInodes : ℕ) (imap : ℕ → Option (ℕ → Bool)) (h : nInodes < 2 ^ 16) :
    BitMaps where
  nInodes := nInodes
  nZones := s.nZones
  firstDataZone := s.firstDataZone
  imap := imap
  zmap := s.zmap
  nInodes_lt := h
  nZones_lt := s.nZones_lt

theorem search_findBit (n i : ℕ) (bh : Option (ℕ → Bool)) :
    (s.findBit n i = none ∧ ∃ bh', search s.zmap n i bh 8192 = (i + n, bh', 8192)) ∨
      ∃ m j, m < i + n ∧ s.findBit n i = some (m, j) ∧
        search s.zmap n i bh 8192 = (m, s.zmap m, j) := by
  induction n generalizing i bh with
  | zero => exact .inl ⟨rfl, bh, rfl⟩
  | succ n ih =>
    rw [findBit, search]
    rcases hmap : s.zmap i with _ | bits
    · rcases ih (i + 1) none with ⟨hnone, bh', hend⟩ | ⟨m, j, hlt, hfind, hsearch⟩
      · exact .inl ⟨hnone, bh', by rw [hend, Nat.add_right_comm]; rfl⟩
      · exact .inr ⟨m, j, by omega, hfind, hsearch⟩
    · dsimp only
      by_cases hj : findFirstZero bits 8192 0 < 8192
      · rw [if_pos hj, if_pos hj]
        exact .inr ⟨i, _, by omega, rfl, by rw [hmap]⟩
      · rw [if_neg hj, if_neg hj]
        have heq : findFirstZero bits 8192 0 = 8192 := by
          have := (findFirstZero_spec bits 8192 0).1
          omega
        rw [heq]
        rcases ih (i + 1) (some bits) with ⟨hnone, bh', hend⟩ | ⟨m, j, hlt, hfind, hsearch⟩
        · exact .inl ⟨hnone, bh', by rw [hend, Nat.add_right_comm]; rfl⟩
        · exact .inr ⟨m, j, by omega, hfind, hsearch⟩

/-- What `create_block` allocates is what `new_block` hands out when nobody uses its buffer. -/
theorem newBlock_claimBlock (s : Zones) (nInodes : ℕ) (imap : ℕ → Option (ℕ → Bool))
    (h : nInodes < 2 ^ 16) :
    (s.bitMaps nInodes imap h).newBlock (fun _ => some 1) =
      (.returns ((s.claimBlock.1.getD 0 : ℕ) : ℤ), s.claimBlock.2.bitMaps nInodes imap h) := by
  have hpos := s.firstDataZone_pos
  rcases search_findBit (s := s) 8 0 none with ⟨hnone, bh, hend⟩ | ⟨m, j, hlt, hfind, hsearch⟩
  · rw [BitMaps.newBlock, show search (s.bitMaps nInodes imap h).zmap 8 0 none 8192 = _ from hend]
    rw [claimBlock, hnone]
    rcases bh with _ | bits
    · rfl
    · dsimp only
      rw [if_pos (by omega)]
      rfl
  · obtain ⟨hj, bits, hbits, hclear⟩ := findBit_spec hfind
    have hj : j < 8192 := hj
    have hblock : (j : ℤ) + m * 8192 + s.firstDataZone - 1 = ((s.zoneOf m j : ℕ) : ℤ) := by
      have hzone : s.zoneOf m j = j + m * 8192 + s.firstDataZone - 1 := rfl
      omega
    rw [BitMaps.newBlock, show search (s.bitMaps nInodes imap h).zmap 8 0 none 8192 = _ from hsearch]
    rw [claimBlock, hfind, hbits]
    dsimp only
    rw [if_neg (by omega), hclear, if_neg (by decide)]
    rw [show ((s.bitMaps nInodes imap h).firstDataZone : ℤ) = s.firstDataZone from rfl, hblock]
    by_cases hpast : s.nZones ≤ s.zoneOf m j
    · rw [if_pos hpast, if_pos]
      · rfl
      · exact Int.ofNat_le.mpr hpast
    · rw [if_neg hpast, if_neg, if_neg (by decide)]
      · rfl
      · exact fun hle => hpast (Int.ofNat_le.mp hle)

theorem newBlock_claimBlock_device :
    (((device 1).bitMaps 1 (fun _ => none) (by decide)).newBlock fun _ => some 1).1 = .returns 5 :=
  congrArg Prod.fst (newBlock_claimBlock (device 1) 1 (fun _ => none) (by decide))

end Zones

end Fs
