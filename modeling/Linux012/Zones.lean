/-
The zones of files (`_bmap` of fs/inode.c and `new_block` of fs/bitmap.c).

* `Zones` — the zone tables of the inodes of a device, the indirect blocks, and the
  zone bitmap;
* `newBlock`, `bmapFrom` — the allocation of a block, and the walk that reads, or
  fills, one place of the inode or of an indirect block after the other;
* `walk_setValue` — a store to a place changes what this place names and nothing else;
* `create_block_owns` — the blocks that trees name stay distinct, marked and in the
  data zone, and a call allocates what it names, as long as the bitmap has no clear bit
  past the last zone that is found first;
* `create_block_leaks` — such a bit is set and names nothing.

Design notes: the inodes of special files, which have no zones, are left out.  Buffers
are not modelled: a block has the content it has in the cache, and `bread` fails for
the blocks that a call cannot read.  Zone numbers fit the 16 bits of their places.
-/
import Linux012.Runs
import Mathlib.Algebra.Ring.Nat
import Mathlib.Data.List.Basic
import Mathlib.Data.List.Induction
import Mathlib.Logic.Function.Basic
import Mathlib.Tactic.Push

namespace Fs

open Function (update)

/-- The bits of a block of the bitmap. -/
abbrev bitsPerBlock : ℕ := 8192

/-- The zones of a mounted device. -/
structure Zones where
  /-- `i_zone` -/
  zone : ℕ → ℕ → ℕ
  /-- the words of the indirect blocks -/
  data : ℕ → ℕ → ℕ
  /-- `s_zmap`, where there is a buffer -/
  zmap : ℕ → Option (ℕ → Bool)
  firstDataZone : ℕ
  nZones : ℕ
  /-- `s_nzones` is an unsigned short -/
  nZones_lt : nZones < 2 ^ 16
  firstDataZone_pos : 0 < firstDataZone

/-- `find_first_zero`, from bit `j` on. -/
def findFirstZero (bits : ℕ → Bool) : ℕ → ℕ → ℕ
  | 0, j => j
  | n + 1, j => if bits j then findFirstZero bits n (j + 1) else j

namespace Zones

/-- The loop of `new_block`: the buffer, from `i` on, and the bit. -/
def findBit (s : Zones) : ℕ → ℕ → Option (ℕ × ℕ)
  | 0, _ => none
  | n + 1, i =>
    match s.zmap i with
    | none => s.findBit n (i + 1)
    | some bits =>
      let j := findFirstZero bits bitsPerBlock 0
      if j < bitsPerBlock then some (i, j) else s.findBit n (i + 1)

/-- The zone of bit `j` of buffer `i`. -/
def zoneOf (s : Zones) (i j : ℕ) : ℕ := j + i * bitsPerBlock + s.firstDataZone - 1

/-- `set_bit`. -/
def setBit (s : Zones) (i j : ℕ) : Zones :=
  { s with zmap := update s.zmap i ((s.zmap i).map fun bits => update bits j true) }

/-- `new_block` up to `getblk`: the bit is set, and the zone is there, or it is past the
last one. -/
def claimBlock (s : Zones) : Option ℕ × Zones :=
  match s.findBit 8 0 with
  | none => (none, s)
  | some (i, j) =>
    if s.nZones ≤ s.zoneOf i j then (none, s.setBit i j)
    else (some (s.zoneOf i j), s.setBit i j)

/-- `clear_block`. -/
def clearBlock (s : Zones) (n : ℕ) : Zones := { s with data := update s.data n fun _ => 0 }

/-- `new_block`. -/
def newBlock (s : Zones) : ℕ × Zones :=
  match s.claimBlock with
  | (none, s) => (0, s)
  | (some n, s) => (n, s.clearBlock n)

/-- Place `k` of the inode `i`, or of the indirect block `here`. -/
def value (s : Zones) (i : ℕ) : Option ℕ → ℕ → ℕ
  | none, k => s.zone i k
  | some z, k => s.data z k

/-- The store to place `k`. -/
def setValue (s : Zones) (i : ℕ) (here : Option ℕ) (k n : ℕ) : Zones :=
  match here with
  | none => { s with zone := update s.zone i (update (s.zone i) k n) }
  | some z => { s with data := update s.data z (update (s.data z) k n) }

/-- `if (create && !v) if (v = new_block(dev))` with the store, for one place. -/
def entry (s : Zones) (create : Bool) (i : ℕ) (here : Option ℕ) (k : ℕ) : ℕ × Zones :=
  if create ∧ s.value i here k = 0 then
    let (n, s) := s.newBlock
    if n = 0 then (0, s) else (n, s.setValue i here k n)
  else (s.value i here k, s)

/-- The levels of `_bmap`, for the places `ks` from `here` on. -/
def bmapFrom (s : Zones) (create : Bool) (ok : ℕ → Bool) (i : ℕ) :
    Option ℕ → List ℕ → ℕ × Zones
  | _, [] => (0, s)
  | here, [k] => s.entry create i here k
  | here, k :: k' :: ks =>
    let (v, s) := s.entry create i here k
    if v = 0 ∨ ok v = false then (0, s) else s.bmapFrom create ok i (some v) (k' :: ks)

/-- The places that lead to a block of the file. -/
def path (block : ℕ) : List ℕ :=
  if block < 7 then [block]
  else if block - 7 < 512 then [7, block - 7]
  else [8, (block - 7 - 512) / 512, (block - 7 - 512) % 512]

/-- The first block that is too big. -/
def maxBlock : ℕ := 7 + 512 + 512 * 512

/-- `bmap`; `ok` tells which blocks can be read. -/
def bmap (s : Zones) (ok : ℕ → Bool) (i block : ℕ) : Option ℕ :=
  if block < maxBlock then some (s.bmapFrom false ok i none (path block)).1 else none

/-- `create_block`. -/
def createBlock (s : Zones) (ok : ℕ → Bool) (i block : ℕ) : Option (ℕ × Zones) :=
  if block < maxBlock then some (s.bmapFrom true ok i none (path block)) else none

/-! ### What names a block -/

/-- The block that the places `ks` from `here` on lead to. -/
def walk (s : Zones) (ok : ℕ → Bool) (i : ℕ) : Option ℕ → List ℕ → ℕ
  | _, [] => 0
  | here, [k] => s.value i here k
  | here, k :: k' :: ks =>
    if s.value i here k = 0 ∨ ok (s.value i here k) = false then 0
    else s.walk ok i (some (s.value i here k)) (k' :: ks)

/-- A list of places of a zone tree. -/
def IsPath (ks : List ℕ) : Prop :=
  (∃ k, k < 9 ∧ ks = [k]) ∨ (∃ k, k < 512 ∧ (ks = [7, k] ∨ ks = [8, k])) ∨
    ∃ k l, k < 512 ∧ l < 512 ∧ ks = [8, k, l]

/-- The block named by a place of the tree of inode `i`. -/
def named (s : Zones) (i : ℕ) (ks : List ℕ) : ℕ := s.walk (fun _ => true) i none ks

/-- Bit `j` of buffer `m` of the bitmap is set. -/
def Bit (s : Zones) (m j : ℕ) : Prop := ∃ bits, s.zmap m = some bits ∧ bits j = true

/-- The bit of zone `n` is set. -/
def Marked (s : Zones) (n : ℕ) : Prop :=
  s.Bit ((n + 1 - s.firstDataZone) / bitsPerBlock) ((n + 1 - s.firstDataZone) % bitsPerBlock)

/-- The blocks of all zone trees are in the data zone, marked, and distinct; the bit
before the first zone is set, as `read_super` does. -/
structure Owned (s : Zones) : Prop where
  inZone : ∀ i ks, IsPath ks → s.named i ks ≠ 0 →
    s.firstDataZone ≤ s.named i ks ∧ s.named i ks < s.nZones
  marked : ∀ i ks, IsPath ks → s.named i ks ≠ 0 → s.Marked (s.named i ks)
  distinct : ∀ i i' ks ks', IsPath ks → IsPath ks' → s.named i ks ≠ 0 →
    s.named i ks = s.named i' ks' → i = i' ∧ ks = ks'
  first : ∀ bits, s.zmap 0 = some bits → bits 0 = true

/-- The first clear bit is past the last zone. -/
def PastEnd (s : Zones) : Prop := ∃ i j, s.findBit 8 0 = some (i, j) ∧ s.nZones ≤ s.zoneOf i j

/-- In no `new_block` of a call is the first clear bit past the last zone. -/
def InRange (s : Zones) (ok : ℕ → Bool) (i : ℕ) : Option ℕ → List ℕ → Prop
  | _, [] => True
  | here, [k] => s.value i here k = 0 → ¬ s.PastEnd
  | here, k :: k' :: ks =>
    (s.value i here k = 0 → ¬ s.PastEnd) ∧
      ((s.entry true i here k).1 ≠ 0 → ok (s.entry true i here k).1 = true →
        (s.entry true i here k).2.InRange ok i (some (s.entry true i here k).1) (k' :: ks))

/-- Every bit that is set in `s'` and not in `s` belongs to a block that exactly one
place names. -/
def NewNamed (s s' : Zones) : Prop :=
  ∀ m j, ¬ s.Bit m j → s'.Bit m j → ∃ i ks, IsPath ks ∧
    s'.named i ks = s'.zoneOf m j ∧ ∀ i' ks', IsPath ks' → s'.named i' ks' = s'.zoneOf m j → i' = i ∧ ks' = ks

end Zones

/-- The runs of `create_block` calls from `s₀`, a file system in order. -/
def creating (s₀ : Zones) : System Zones (ℕ × ℕ × (ℕ → Bool)) where
  init s := s = s₀ ∧ s₀.Owned
  step s c s' := ∃ r, s.createBlock c.2.2 c.1 c.2.1 = some (r, s')

namespace Zones

variable {s s' : Zones} {ok : ℕ → Bool} {i i' k n m j v : ℕ} {ks ks' π : List ℕ}
  {here : Option ℕ}

/-! ### The bitmap -/

theorem findFirstZero_spec (bits : ℕ → Bool) (n j : ℕ) :
    findFirstZero bits n j ≤ j + n ∧
      (findFirstZero bits n j < j + n → bits (findFirstZero bits n j) = false) := by
  induction n generalizing j with
  | zero => simp [findFirstZero]
  | succ n ih =>
    rw [findFirstZero]
    split
    case isTrue =>
      obtain ⟨hle, hfree⟩ := ih (j + 1)
      exact ⟨by omega, fun hlt => hfree (by omega)⟩
    case isFalse hb => exact ⟨by omega, fun _ => by simpa using hb⟩

theorem findBit_spec {n i : ℕ} (h : s.findBit n i = some (m, j)) :
    j < bitsPerBlock ∧ ∃ bits, s.zmap m = some bits ∧ bits j = false := by
  induction n generalizing i with
  | zero => cases h
  | succ n ih =>
    rw [findBit] at h
    split at h
    case h_1 => exact ih h
    case h_2 bits hbits =>
      simp only at h
      split at h
      case isTrue hlt =>
        cases h
        obtain ⟨-, hfree⟩ := findFirstZero_spec bits bitsPerBlock 0
        exact ⟨hlt, bits, hbits, hfree (by omega)⟩
      case isFalse => exact ih h

theorem bit_setBit {m₀ j₀ : ℕ} (h : (s.zmap m₀).isSome) :
    (s.setBit m₀ j₀).Bit m j ↔ s.Bit m j ∨ m = m₀ ∧ j = j₀ := by
  obtain ⟨bits₀, h₀⟩ := Option.isSome_iff_exists.mp h
  rw [Bit, Bit, setBit]
  by_cases hm : m = m₀
  · subst hm
    simp only [Function.update_self, h₀, Option.map_some, Option.some.injEq, exists_eq_left',
      Function.update_apply]
    by_cases hj : j = j₀ <;> simp [hj]
  · simp [hm]

/-- What `new_block` finds: nothing, a bit past the last zone, or a zone. -/
theorem claimBlock_cases (h : s.Owned) :
    s.claimBlock = (none, s) ∧ ¬ s.PastEnd ∨
    ∃ m j, (s.zmap m).isSome ∧ ¬ s.Bit m j ∧ j < bitsPerBlock ∧ s.firstDataZone ≤ s.zoneOf m j ∧
      (s.claimBlock = (none, s.setBit m j) ∧ s.PastEnd ∧ s.nZones ≤ s.zoneOf m j ∨
        s.claimBlock = (some (s.zoneOf m j), s.setBit m j) ∧ ¬ s.PastEnd ∧
          s.zoneOf m j < s.nZones) := by
  rw [claimBlock]
  cases hfind : s.findBit 8 0 with
  | none =>
    refine .inl ⟨rfl, ?_⟩
    rintro ⟨m, j, hsome, -⟩
    rw [hfind] at hsome
    cases hsome
  | some mj =>
    obtain ⟨m, j⟩ := mj
    obtain ⟨hj, bits, hbits, hfree⟩ := findBit_spec hfind
    -- bit 0 is set, so it is another one
    have hdata : s.firstDataZone ≤ s.zoneOf m j := by
      have hpos : 0 < j + m * bitsPerBlock := by
        by_contra hcon
        have hj₀ : j = 0 := by omega
        have hm₀ : m = 0 := by
          have hmul : m * bitsPerBlock = 0 := by omega
          exact (Nat.mul_eq_zero.mp hmul).resolve_right (by decide)
        subst hj₀ hm₀
        rw [h.first bits hbits] at hfree
        cases hfree
      rw [zoneOf]
      omega
    refine .inr ⟨m, j, by simp [hbits], ?_, hj, hdata, ?_⟩
    · rintro ⟨bits', hbits', htrue⟩
      rw [hbits] at hbits'
      obtain rfl := Option.some.inj hbits'
      rw [hfree] at htrue
      cases htrue
    · simp only
      by_cases hpast : s.nZones ≤ s.zoneOf m j
      · rw [if_pos hpast]
        exact .inl ⟨rfl, ⟨m, j, hfind, hpast⟩, hpast⟩
      · rw [if_neg hpast]
        refine .inr ⟨rfl, ?_, by omega⟩
        rintro ⟨m', j', hfind', hpast'⟩
        rw [hfind] at hfind'
        cases hfind'
        exact hpast hpast'

/-- The zone of a bit has this bit. -/
theorem marked_zoneOf (hj : j < bitsPerBlock) :
    s.Marked (s.zoneOf m j) ↔ s.Bit m j := by
  have hsub : s.zoneOf m j + 1 - s.firstDataZone = j + m * bitsPerBlock := by
    have hpos := s.firstDataZone_pos
    rw [zoneOf]
    omega
  rw [Marked, hsub, Nat.add_mul_div_right _ _ (by decide), Nat.div_eq_of_lt hj, Nat.zero_add,
    Nat.add_mul_mod_self_right, Nat.mod_eq_of_lt hj]

/-! ### The walk -/

theorem IsPath.ne_nil (h : IsPath ks) : ks ≠ [] := by
  rintro rfl
  rcases h with ⟨k, -, h⟩ | ⟨k, -, h | h⟩ | ⟨k, l, -, -, h⟩ <;> cases h

/-- The places before a place of a tree are places of the tree. -/
theorem IsPath.init (h : IsPath (π ++ [k])) (hπ : π ≠ []) : IsPath π := by
  rcases h with ⟨a, ha, h⟩ | ⟨a, ha, h | h⟩ | ⟨a, b, ha, hb, h⟩
  · have hlen := congrArg List.length h
    simp only [List.length_append, List.length_singleton] at hlen
    exact absurd (List.length_eq_zero_iff.mp (by omega)) hπ
  · obtain ⟨rfl, -⟩ := List.append_inj' (h.trans (show [7, a] = [7] ++ [a] from rfl)) rfl
    exact .inl ⟨7, by decide, rfl⟩
  · obtain ⟨rfl, -⟩ := List.append_inj' (h.trans (show [8, a] = [8] ++ [a] from rfl)) rfl
    exact .inl ⟨8, by decide, rfl⟩
  · obtain ⟨rfl, -⟩ := List.append_inj' (h.trans (show [8, a, b] = [8, a] ++ [b] from rfl)) rfl
    exact .inr (.inl ⟨a, ha, .inr rfl⟩)

theorem walk_cons (hks : ks ≠ []) : s.walk ok i here (k :: ks) =
    if s.value i here k = 0 ∨ ok (s.value i here k) = false then 0
    else s.walk ok i (some (s.value i here k)) ks := by
  cases ks with
  | nil => exact absurd rfl hks
  | cons k' ks => rw [walk]

/-- The walk over two lists of places. -/
theorem walk_append (hπ : π ≠ []) (hks : ks ≠ []) : s.walk ok i here (π ++ ks) =
    if s.walk ok i here π = 0 ∨ ok (s.walk ok i here π) = false then 0
    else s.walk ok i (some (s.walk ok i here π)) ks := by
  induction π generalizing here with
  | nil => exact absurd rfl hπ
  | cons a π ih =>
    cases π with
    | nil =>
      rw [List.singleton_append, walk_cons hks]
      rfl
    | cons b π =>
      rw [List.cons_append, walk_cons (by simp), walk_cons (by simp)]
      split
      case isTrue => simp
      case isFalse => exact ih (by simp)

theorem walk_snoc (hπ : π ≠ []) : s.walk ok i here (π ++ [k]) =
    if s.walk ok i here π = 0 ∨ ok (s.walk ok i here π) = false then 0
    else s.data (s.walk ok i here π) k :=
  walk_append hπ (by simp)

theorem named_snoc (hπ : π ≠ []) :
    s.named i (π ++ [k]) = if s.named i π = 0 then 0 else s.data (s.named i π) k := by
  rw [named, named, walk_snoc hπ]
  simp

/-- A walk with blocks that cannot be read ends early, or where the tree leads. -/
theorem walk_eq_named (hks : ks ≠ []) (h : s.walk ok i none ks ≠ 0) :
    s.walk ok i none ks = s.named i ks := by
  induction ks using List.reverseRecOn with
  | nil => exact absurd rfl hks
  | append_singleton π k ih =>
    by_cases hπ : π = []
    · subst hπ
      rfl
    · rw [walk_snoc hπ] at h ⊢
      split at h
      case isTrue => exact absurd rfl h
      case isFalse hv =>
        rw [not_or] at hv
        rw [if_neg (not_or.mpr hv), named_snoc hπ, ← ih hπ hv.1, if_neg hv.1]

/-- A walk reads what the tree names, as far as blocks can be read. -/
theorem walk_snoc_named (hπ : π ≠ []) : s.walk ok i none (π ++ [k]) =
    if s.walk ok i none π = 0 ∨ ok (s.walk ok i none π) = false then 0
    else s.named i (π ++ [k]) := by
  rw [walk_snoc hπ]
  split
  case isTrue => rfl
  case isFalse hv =>
    rw [not_or] at hv
    rw [named_snoc hπ, ← walk_eq_named hπ hv.1, if_neg hv.1]

/-- Walks read the zones and the indirect blocks. -/
theorem walk_congr (hz : s'.zone i = s.zone i) (hd : s'.data = s.data) :
    s'.walk ok i here ks = s.walk ok i here ks := by
  have hv : ∀ here k, s'.value i here k = s.value i here k := fun here k => by
    cases here with
    | none => exact congrFun hz k
    | some z => exact congrFun (congrFun hd z) k
  induction ks generalizing here with
  | nil => rfl
  | cons k ks ih =>
    by_cases hks : ks = []
    · subst hks
      exact hv here k
    · rw [walk_cons hks, walk_cons hks, hv, ih]

/-- The walk over `π` has led to the indirect block `here`. -/
def At (s : Zones) (ok : ℕ → Bool) (i : ℕ) (π : List ℕ) (here : Option ℕ) : Prop :=
  π = [] ∧ here = none ∨ IsPath π ∧ s.walk ok i none π ≠ 0 ∧
    ok (s.walk ok i none π) = true ∧ here = some (s.walk ok i none π)

theorem At.walk_append (h : s.At ok i π here) (hks : ks ≠ []) :
    s.walk ok i none (π ++ ks) = s.walk ok i here ks := by
  rcases h with ⟨rfl, rfl⟩ | ⟨hπ, hne, hok, rfl⟩
  · rfl
  · rw [Zones.walk_append hπ.ne_nil hks, if_neg (by simp [hne, hok])]

/-- The place that a walk has come to is named by the tree. -/
theorem At.named (h : s.At ok i π here) : s.named i (π ++ [k]) = s.value i here k := by
  rcases h with ⟨rfl, rfl⟩ | ⟨hπ, hne, -, rfl⟩
  · rfl
  · have heq := walk_eq_named hπ.ne_nil hne
    rw [named_snoc hπ.ne_nil, ← heq, if_neg hne]
    rfl

/-- The store of a new block to a place that names none: the place names it, and every
other place what it named. -/
theorem named_setValue (h : s.Owned) (hat : s.At ok i π here) (hzero : s.value i here k = 0)
    (hn : ∀ i' ks', IsPath ks' → s.named i' ks' ≠ n) (hks' : IsPath ks') :
    ((s.clearBlock n).setValue i here k n).named i' ks' =
      if i' = i ∧ ks' = π ++ [k] then n else s.named i' ks' := by
  set s₁ := (s.clearBlock n).setValue i here k n with hs₁
  induction ks' using List.reverseRecOn with
  | nil => exact absurd rfl hks'.ne_nil
  | append_singleton ρ l ih =>
    by_cases hρ : ρ = []
    · -- a place of the inode
      subst hρ
      show s₁.zone i' l = if i' = i ∧ [l] = π ++ [k] then n else s.zone i' l
      rcases hat with ⟨rfl, rfl⟩ | ⟨hπ, -, -, rfl⟩
      · simp only [hs₁, setValue, clearBlock, Function.update_apply, List.nil_append,
          List.cons.injEq, and_true]
        by_cases hi : i' = i <;> by_cases hl : l = k <;> simp [hi, hl]
      · rw [if_neg]
        · rfl
        · rintro ⟨-, heq⟩
          have hlen := congrArg List.length heq
          have hpos := List.length_pos_iff.mpr hπ.ne_nil
          simp only [List.length_append, List.length_singleton] at hlen
          omega
    · have hρp := hks'.init hρ
      rw [named_snoc hρ, named_snoc hρ, ih hρp]
      by_cases hext : i' = i ∧ ρ = π ++ [k]
      · -- below the new block there is nothing
        rw [if_pos hext]
        obtain ⟨rfl, rfl⟩ := hext
        have hlong : π ++ [k] ++ [l] ≠ π ++ [k] := fun heq => by
          have hlen := congrArg List.length heq
          simp only [List.length_append, List.length_singleton] at hlen
          omega
        have hempty : s₁.data n l = 0 := by
          rcases hat with ⟨rfl, rfl⟩ | ⟨hπ, hne, -, rfl⟩
          · simp [hs₁, setValue, clearBlock]
          · have hnz : n ≠ s.walk ok i' none π := by
              rw [walk_eq_named hπ.ne_nil hne]
              exact (hn i' π hπ).symm
            simp [hs₁, setValue, clearBlock, hnz]
        rw [hat.named, hzero, if_pos rfl, hempty, ite_self, if_neg fun hcon => hlong hcon.2]
      · rw [if_neg hext]
        by_cases hv : s.named i' ρ = 0
        · rw [if_pos hv, if_pos hv, if_neg]
          rintro ⟨rfl, heq⟩
          obtain ⟨rfl, -⟩ := List.append_inj' heq rfl
          rcases hat with ⟨rfl, -⟩ | ⟨-, hne, -, -⟩
          · exact hρ rfl
          · exact hne ((walk_eq_named hρ hne).trans hv)
        · -- an old block, which is the one stored to only below `π`
          rw [if_neg hv, if_neg hv]
          have hvn : s.named i' ρ ≠ n := hn i' ρ hρp
          rcases hat with ⟨rfl, rfl⟩ | ⟨hπ, hne, -, rfl⟩
          · rw [if_neg]
            · simp [hs₁, setValue, clearBlock, hvn]
            · rintro ⟨-, heq⟩
              have hlen := congrArg List.length heq
              have hpos := List.length_pos_iff.mpr hρ
              simp only [List.length_append, List.length_singleton, List.length_nil] at hlen
              omega
          · have hz := walk_eq_named hπ.ne_nil hne
            have hzn : s.named i π ≠ n := hn i π hπ
            simp only [hs₁, setValue, clearBlock, hz]
            by_cases heq : s.named i' ρ = s.named i π
            · obtain ⟨rfl, rfl⟩ := h.distinct i' i ρ π hρp hπ hv heq
              rw [Function.update_self, Function.update_apply]
              by_cases hl : l = k
              · subst hl
                simp
              · simp [hl, hzn]
            · rw [Function.update_of_ne heq, Function.update_of_ne hvn, if_neg]
              rintro ⟨rfl, happ⟩
              obtain ⟨rfl, -⟩ := List.append_inj' happ rfl
              exact heq rfl

/-- The same for walks that meet blocks that cannot be read. -/
theorem walk_setValue (h : s.Owned) (hat : s.At ok i π here) (hzero : s.value i here k = 0)
    (hn : ∀ i' ks', IsPath ks' → s.named i' ks' ≠ n) {ok' : ℕ → Bool} (hks' : IsPath ks')
    (hne : ¬ (i' = i ∧ ks' = π ++ [k])) :
    ((s.clearBlock n).setValue i here k n).walk ok' i' none ks' = s.walk ok' i' none ks' := by
  have hsame : ∀ {l}, IsPath l → ¬ (i' = i ∧ l = π ++ [k]) →
      ((s.clearBlock n).setValue i here k n).named i' l = s.named i' l := fun hl hl' => by
    rw [named_setValue h hat hzero hn hl, if_neg hl']
  induction ks' using List.reverseRecOn with
  | nil => exact absurd rfl hks'.ne_nil
  | append_singleton ρ l ih =>
    by_cases hρ : ρ = []
    · subst hρ
      exact hsame hks' hne
    · rw [walk_snoc_named hρ, walk_snoc_named hρ, hsame hks' hne]
      by_cases hext : i' = i ∧ ρ = π ++ [k]
      · -- the tree ended here, and still does
        have hzero' : s.named i' (ρ ++ [l]) = 0 := by
          rw [named_snoc hρ, hext.1, hext.2, hat.named, hzero, if_pos rfl]
        rw [hzero', ite_self, ite_self]
      · rw [ih (hks'.init hρ) hext]

/-! ### What a call does -/

/-- `s'` comes from `s` by filling places among `P`. -/
structure Fills (s s' : Zones) (P : ℕ → List ℕ → Prop) : Prop where
  owned : s'.Owned
  firstDataZone : s'.firstDataZone = s.firstDataZone
  nZones : s'.nZones = s.nZones
  bits : ∀ m j, s.Bit m j → s'.Bit m j
  fresh : ∀ m j, ¬ s.Bit m j → s'.Bit m j → s.firstDataZone ≤ s.zoneOf m j
  keeps : ∀ i' ks', IsPath ks' → s.named i' ks' ≠ 0 → s'.named i' ks' = s.named i' ks'
  frame : ∀ ok' i' ks', IsPath ks' → ¬ P i' ks' →
    s'.walk ok' i' none ks' = s.walk ok' i' none ks'

variable {P Q : ℕ → List ℕ → Prop} {s₁ : Zones}

theorem Fills.refl (h : s.Owned) : Fills s s P :=
  ⟨h, rfl, rfl, fun _ _ h => h, fun _ _ h h' => absurd h' h, fun _ _ _ _ => rfl,
    fun _ _ _ _ _ => rfl⟩

theorem Fills.zoneOf (h : Fills s s' P) (m j : ℕ) : s'.zoneOf m j = s.zoneOf m j := by
  rw [Zones.zoneOf, Zones.zoneOf, h.firstDataZone]

theorem Fills.trans (h : Fills s s₁ P) (h' : Fills s₁ s' P) : Fills s s' P where
  owned := h'.owned
  firstDataZone := h'.firstDataZone.trans h.firstDataZone
  nZones := h'.nZones.trans h.nZones
  bits m j hb := h'.bits m j (h.bits m j hb)
  fresh m j hclear hset := by
    by_cases hmid : s₁.Bit m j
    · exact h.fresh m j hclear hmid
    · have hfresh := h'.fresh m j hmid hset
      rwa [h.firstDataZone, h.zoneOf] at hfresh
  keeps i' ks' hks' hne := by
    have heq := h.keeps i' ks' hks' hne
    rw [h'.keeps i' ks' hks' (by rwa [heq]), heq]
  frame ok' i' ks' hks' hP := by rw [h'.frame ok' i' ks' hks' hP, h.frame ok' i' ks' hks' hP]

theorem Fills.weaken (h : Fills s s' P) (hPQ : ∀ i ks, P i ks → Q i ks) : Fills s s' Q :=
  { h with frame := fun ok' i' ks' hks' hQ =>
      h.frame ok' i' ks' hks' fun hcon => hQ (hPQ _ _ hcon) }

theorem Owned.unique (h : s.Owned) (hks : IsPath ks) (hv : s.named i ks = v) (hne : v ≠ 0) :
    ∀ i' ks', IsPath ks' → s.named i' ks' = v → i' = i ∧ ks' = ks := fun i' ks' hks' hv' =>
  h.distinct i' i ks' ks hks' hks (hv' ▸ hne) (hv'.trans hv.symm)

/-- Blocks that a part of a call names stay named. -/
theorem Fills.newNamed (h : Fills s s₁ P) (h' : Fills s₁ s' P) (hn : NewNamed s s₁)
    (hn' : NewNamed s₁ s') : NewNamed s s' := by
  intro m j hclear hset
  by_cases hmid : s₁.Bit m j
  · obtain ⟨i₀, ks, hks, hnamed, -⟩ := hn m j hclear hmid
    have hpos : s₁.zoneOf m j ≠ 0 := by
      have hdata := h.fresh m j hclear hmid
      have hfirst := s.firstDataZone_pos
      rw [h.zoneOf]
      omega
    have hkept : s'.named i₀ ks = s'.zoneOf m j := by
      rw [h'.keeps i₀ ks hks (hnamed ▸ hpos), hnamed, h'.zoneOf]
    exact ⟨i₀, ks, hks, hkept, h'.owned.unique hks hkept (by rwa [h'.zoneOf])⟩
  · exact hn' m j hmid hset

theorem newNamed_of_bits (h : ∀ m j, s'.Bit m j → s.Bit m j) : NewNamed s s' :=
  fun m j hclear hset => absurd (h m j hset) hclear

/-- A bit that is set past the last zone names nothing. -/
theorem not_newNamed (h : s'.Owned) (hclear : ¬ s.Bit m j) (hset : s'.Bit m j)
    (hpos : s'.firstDataZone ≤ s'.zoneOf m j) (hpast : s'.nZones ≤ s'.zoneOf m j) :
    ¬ NewNamed s s' := by
  intro hn
  obtain ⟨i, ks, hks, hnamed, -⟩ := hn m j hclear hset
  have hfirst := s'.firstDataZone_pos
  have hzone := (h.inZone i ks hks (by omega)).2
  omega

theorem named_setBit : (s.setBit m j).named i ks = s.named i ks := walk_congr rfl rfl

theorem Owned.setBit (h : s.Owned) (hsome : (s.zmap m).isSome) : (s.setBit m j).Owned := by
  constructor
  · intro i ks hks hne
    rw [named_setBit] at hne ⊢
    exact h.inZone i ks hks hne
  · intro i ks hks hne
    rw [named_setBit] at hne ⊢
    exact (bit_setBit hsome).mpr (.inl (h.marked i ks hks hne))
  · intro i i' ks ks' hks hks' hne heq
    rw [named_setBit] at hne
    rw [named_setBit, named_setBit] at heq
    exact h.distinct i i' ks ks' hks hks' hne heq
  · intro bits hbits
    simp only [Zones.setBit, Function.update_apply] at hbits
    split at hbits
    case isTrue h₀ =>
      subst h₀
      obtain ⟨bits₀, h₀, rfl⟩ := Option.map_eq_some_iff.mp hbits
      have hfirst := h.first bits₀ h₀
      by_cases hj : j = 0 <;> simp [Function.update_apply, hfirst]
    case isFalse => exact h.first bits hbits

theorem At.congr (h : s.At ok i π here)
    (heq : IsPath π → s'.walk ok i none π = s.walk ok i none π) : s'.At ok i π here := by
  rcases h with h | ⟨hπ, hne, hok, rfl⟩
  · exact .inl h
  · rw [← heq hπ] at hne hok ⊢
    exact .inr ⟨hπ, hne, hok, rfl⟩

/-- A place is filled with a marked block that nothing names. -/
theorem Owned.fill (h : s.Owned) (hat : s.At ok i π here) (hzero : s.value i here k = 0)
    (hn : ∀ i' ks', IsPath ks' → s.named i' ks' ≠ n) (hmark : s.Marked n)
    (hzone : s.firstDataZone ≤ n ∧ n < s.nZones) :
    Fills s ((s.clearBlock n).setValue i here k n) (fun i' ks' => i' = i ∧ ks' = π ++ [k]) := by
  set s₁ := (s.clearBlock n).setValue i here k n with hs₁
  have hnamed : ∀ i' ks', IsPath ks' →
      s₁.named i' ks' = if i' = i ∧ ks' = π ++ [k] then n else s.named i' ks' :=
    fun i' ks' hks' => named_setValue h hat hzero hn hks'
  have hmap : s₁.zmap = s.zmap := by rw [hs₁]; cases here <;> rfl
  have hfirst : s₁.firstDataZone = s.firstDataZone := by rw [hs₁]; cases here <;> rfl
  have hlast : s₁.nZones = s.nZones := by rw [hs₁]; cases here <;> rfl
  have hbit : ∀ m j, s₁.Bit m j ↔ s.Bit m j := fun m j => by rw [Bit, Bit, hmap]
  have hmarked : ∀ v, s₁.Marked v ↔ s.Marked v := fun v => by rw [Marked, Marked, hfirst, hbit]
  have howned : s₁.Owned := by
    constructor
    · intro i' ks' hks' hne
      rw [hnamed i' ks' hks'] at hne ⊢
      rw [hfirst, hlast]
      split at hne
      case isTrue hp => rwa [if_pos hp]
      case isFalse hp =>
        rw [if_neg hp]
        exact h.inZone i' ks' hks' hne
    · intro i' ks' hks' hne
      rw [hnamed i' ks' hks'] at hne ⊢
      rw [hmarked]
      split at hne
      case isTrue hp => rwa [if_pos hp]
      case isFalse hp =>
        rw [if_neg hp]
        exact h.marked i' ks' hks' hne
    · intro i' i'' ks' ks'' hks' hks'' hne heq
      rw [hnamed i' ks' hks'] at hne heq
      rw [hnamed i'' ks'' hks''] at heq
      by_cases hp : i' = i ∧ ks' = π ++ [k]
      · rw [if_pos hp] at heq
        by_cases hp' : i'' = i ∧ ks'' = π ++ [k]
        · exact ⟨hp.1.trans hp'.1.symm, hp.2.trans hp'.2.symm⟩
        · rw [if_neg hp'] at heq
          exact absurd heq.symm (hn i'' ks'' hks'')
      · rw [if_neg hp] at hne heq
        by_cases hp' : i'' = i ∧ ks'' = π ++ [k]
        · rw [if_pos hp'] at heq
          exact absurd heq (hn i' ks' hks')
        · rw [if_neg hp'] at heq
          exact h.distinct i' i'' ks' ks'' hks' hks'' hne heq
    · rw [hmap]
      exact h.first
  refine ⟨howned, hfirst, hlast, fun m j => (hbit m j).mpr, ?_, ?_, ?_⟩
  · exact fun m j hclear hset => absurd ((hbit m j).mp hset) hclear
  · intro i' ks' hks' hne
    rw [hnamed i' ks' hks', if_neg]
    rintro ⟨rfl, rfl⟩
    exact hne (hat.named.trans hzero)
  · exact fun ok' i' ks' hks' hp => walk_setValue h hat hzero hn hks' hp

theorem Owned.fills_setBit (h : s.Owned) (hsome : (s.zmap m).isSome)
    (hpos : s.firstDataZone ≤ s.zoneOf m j) : Fills s (s.setBit m j) P where
  owned := h.setBit hsome
  firstDataZone := rfl
  nZones := rfl
  bits m' j' hb := (bit_setBit hsome).mpr (.inl hb)
  fresh m' j' hclear hset := by
    obtain ⟨rfl, rfl⟩ := ((bit_setBit hsome).mp hset).resolve_left hclear
    exact hpos
  keeps i' ks' _ _ := walk_congr rfl rfl
  frame ok' i' ks' _ _ := walk_congr rfl rfl

@[simp] theorem value_setValue : (s.setValue i here k n).value i here k = n := by
  cases here <;> simp [value, setValue]

theorem entry_of_ne (h : s.value i here k ≠ 0) : s.entry true i here k = (s.value i here k, s) := by
  rw [entry, if_neg fun hcon => h hcon.2]

/-- One level of a call: the place is filled, unless there is no zone. -/
theorem entry_spec (h : s.Owned) (hat : s.At ok i π here) (hpath : IsPath (π ++ [k])) :
    Fills s (s.entry true i here k).2 (fun i' ks' => i' = i ∧ ks' = π ++ [k]) ∧
    (s.entry true i here k).2.value i here k = (s.entry true i here k).1 ∧
    (NewNamed s (s.entry true i here k).2 ↔ (s.value i here k = 0 → ¬ s.PastEnd)) ∧
    (s.value i here k = 0 → s.PastEnd → (s.entry true i here k).1 = 0) := by
  by_cases hzero : s.value i here k = 0
  swap
  · rw [entry_of_ne hzero]
    exact ⟨.refl h, rfl, by simp [hzero, newNamed_of_bits], fun hcon => absurd hcon hzero⟩
  rw [entry, if_pos ⟨rfl, hzero⟩, newBlock]
  rcases claimBlock_cases h with ⟨hclaim, hpast⟩ |
    ⟨m, j, hsome, hclear, hj, hpos, ⟨hclaim, hpast, hlast⟩ | ⟨hclaim, hpast, hlast⟩⟩
  · -- the bitmap is full
    rw [hclaim]
    exact ⟨.refl h, hzero, by simp [hpast, newNamed_of_bits], fun _ hcon => absurd hcon hpast⟩
  · -- the bit is past the last zone
    rw [hclaim]
    have hfills : Fills s (s.setBit m j) (fun i' ks' => i' = i ∧ ks' = π ++ [k]) := h.fills_setBit hsome hpos
    have hv : (s.setBit m j).value i here k = 0 := by rw [← hzero]; cases here <;> rfl
    have hnot : ¬ NewNamed s (s.setBit m j) :=
      not_newNamed hfills.owned hclear ((bit_setBit hsome).mpr (.inr ⟨rfl, rfl⟩)) hpos hlast
    exact ⟨hfills, hv, by simp [hnot, hzero, hpast], fun _ _ => rfl⟩
  · -- a zone
    rw [hclaim]
    have hn₀ : s.zoneOf m j ≠ 0 := by
      have hfirst := s.firstDataZone_pos
      omega
    have hfills : Fills s (s.setBit m j) (fun i' ks' => i' = i ∧ ks' = π ++ [k]) := h.fills_setBit hsome hpos
    have hv : (s.setBit m j).value i here k = 0 := by rw [← hzero]; cases here <;> rfl
    have hat' : (s.setBit m j).At ok i π here := hat.congr fun _ => walk_congr rfl rfl
    have hset : (s.setBit m j).Bit m j := (bit_setBit hsome).mpr (.inr ⟨rfl, rfl⟩)
    -- the bit was clear, so nothing named the zone
    have hn : ∀ i' ks', IsPath ks' → (s.setBit m j).named i' ks' ≠ s.zoneOf m j := by
      intro i' ks' hks' heq
      rw [named_setBit] at heq
      have hmark := h.marked i' ks' hks' (heq ▸ hn₀)
      rw [heq, marked_zoneOf hj] at hmark
      exact hclear hmark
    have hfills' := hfills.owned.fill hat' hv hn ((marked_zoneOf (s := s.setBit m j) hj).mpr hset)
      ⟨hpos, hlast⟩
    simp only [hn₀, if_false]
    refine ⟨hfills.trans hfills', value_setValue, ?_, fun _ hcon => absurd hcon hpast⟩
    refine iff_of_true ?_ fun _ => hpast
    intro m' j' hclear' hset'
    have hold : (s.setBit m j).Bit m' j' := by
      by_contra hcon
      have hbits : ∀ m' j', (((s.setBit m j).clearBlock (s.zoneOf m j)).setValue i here k
          (s.zoneOf m j)).Bit m' j' ↔ (s.setBit m j).Bit m' j' := fun m' j' => by
        cases here <;> rfl
      exact hcon ((hbits m' j').mp hset')
    obtain ⟨rfl, rfl⟩ := ((bit_setBit hsome).mp hold).resolve_left hclear'
    have hnamed : (((s.setBit m' j').clearBlock (s.zoneOf m' j')).setValue i here k
        (s.zoneOf m' j')).named i (π ++ [k]) = s.zoneOf m' j' := by
      rw [named_setValue hfills.owned hat' hv hn hpath, if_pos ⟨rfl, rfl⟩]
    have hz : (((s.setBit m' j').clearBlock (s.zoneOf m' j')).setValue i here k
        (s.zoneOf m' j')).zoneOf m' j' = s.zoneOf m' j' := (hfills.trans hfills').zoneOf m' j'
    rw [hz]
    exact ⟨i, π ++ [k], hpath, hnamed, hfills'.owned.unique hpath hnamed hn₀⟩

/-- The walk goes on to the block that an entry names, or is given. -/
theorem At.next (hat : s.At ok i π here) (h : s.Owned) (hpath : IsPath (π ++ [k]))
    (hne : (s.entry true i here k).1 ≠ 0) (hok : ok (s.entry true i here k).1 = true) :
    (s.entry true i here k).2.At ok i (π ++ [k]) (some (s.entry true i here k).1) := by
  obtain ⟨hfills, hval, -, -⟩ := entry_spec h hat hpath
  have hat' : (s.entry true i here k).2.At ok i π here :=
    hat.congr fun hπ => hfills.frame ok i π hπ fun hcon => by simpa using hcon.2
  have hwalk : (s.entry true i here k).2.walk ok i none (π ++ [k]) =
      (s.entry true i here k).1 := by
    rw [hat'.walk_append (List.cons_ne_nil _ _)]
    exact hval
  refine .inr ⟨hpath, ?_, ?_, ?_⟩
  · rw [hwalk]
    exact hne
  · rw [hwalk]
    exact hok
  · rw [hwalk]

theorem bmapFrom_cons {create : Bool} (hks : ks ≠ []) :
    s.bmapFrom create ok i here (k :: ks) =
      if (s.entry create i here k).1 = 0 ∨ ok (s.entry create i here k).1 = false then
        (0, (s.entry create i here k).2)
      else (s.entry create i here k).2.bmapFrom create ok i (some (s.entry create i here k).1) ks := by
  cases ks with
  | nil => exact absurd rfl hks
  | cons k' ks => rfl

theorem inRange_cons (hks : ks ≠ []) : s.InRange ok i here (k :: ks) ↔
    (s.value i here k = 0 → ¬ s.PastEnd) ∧
      ((s.entry true i here k).1 ≠ 0 → ok (s.entry true i here k).1 = true →
        (s.entry true i here k).2.InRange ok i (some (s.entry true i here k).1) ks) := by
  cases ks with
  | nil => exact absurd rfl hks
  | cons k' ks => rw [InRange]

/-- `bmap` reads where the places lead. -/
theorem bmapFrom_false : s.bmapFrom false ok i here ks = (s.walk ok i here ks, s) := by
  induction ks generalizing here with
  | nil => rfl
  | cons k ks ih =>
    have hentry : s.entry false i here k = (s.value i here k, s) := by simp [entry]
    by_cases hks : ks = []
    · subst hks
      exact hentry
    · rw [bmapFrom_cons hks, hentry, walk_cons hks]
      split
      case isTrue => rfl
      case isFalse => exact ih

/-- The places from `π` on, of which a call fills some, or none. -/
theorem create_spec (h : s.Owned) (hat : s.At ok i π here) (hks : ks ≠ [])
    (hpath : ∀ l l', ks = l ++ l' → l ≠ [] → IsPath (π ++ l)) :
    Fills s (s.bmapFrom true ok i here ks).2
      (fun i' ks' => i' = i ∧ ∃ l l', ks = l ++ l' ∧ l ≠ [] ∧ ks' = π ++ l) ∧
    (s.bmapFrom true ok i here ks).2.walk ok i none (π ++ ks) =
      (s.bmapFrom true ok i here ks).1 ∧
    (NewNamed s (s.bmapFrom true ok i here ks).2 ↔ s.InRange ok i here ks) := by
  induction ks generalizing s π here with
  | nil => exact absurd rfl hks
  | cons k ks ih =>
    have hplace : IsPath (π ++ [k]) := hpath [k] ks rfl (by simp)
    obtain ⟨hfills, hval, hnew, hpast⟩ := entry_spec h hat hplace
    have hat' : (s.entry true i here k).2.At ok i π here :=
      hat.congr fun hπ => hfills.frame ok i π hπ fun hcon => by simpa using hcon.2
    have hweak : Fills s (s.entry true i here k).2
        (fun i' ks' => i' = i ∧ ∃ l l', k :: ks = l ++ l' ∧ l ≠ [] ∧ ks' = π ++ l) :=
      hfills.weaken fun i' ks' heq => ⟨heq.1, [k], ks, rfl, by simp, heq.2⟩
    by_cases hlast : ks = []
    · subst hlast
      refine ⟨hweak, ?_, hnew⟩
      exact (hat'.walk_append (List.cons_ne_nil k [])).trans hval
    rw [bmapFrom_cons hlast, inRange_cons hlast]
    by_cases hv : (s.entry true i here k).1 = 0 ∨ ok (s.entry true i here k).1 = false
    · -- the call ends here
      rw [if_pos hv]
      refine ⟨hweak, ?_, hnew.trans (iff_self_and.mpr fun _ hne hok => ?_)⟩
      · rw [hat'.walk_append (List.cons_ne_nil _ _), walk_cons hlast, hval, if_pos hv]
      · rcases hv with hv | hv
        · exact absurd hv hne
        · rw [hok] at hv
          cases hv
    · rw [if_neg hv]
      rw [not_or] at hv
      have hr : s.value i here k = 0 → ¬ s.PastEnd := fun hzero hend => hv.1 (hpast hzero hend)
      have hat'' := hat.next h hplace hv.1 (by simpa using hv.2)
      obtain ⟨hfills', hwalk', hnew'⟩ := ih hfills.owned hat'' hlast fun l l' heq hl => by
        rw [List.append_assoc]
        exact hpath (k :: l) l' (by rw [heq]; rfl) (by simp)
      have hweak' := hfills'.weaken fun i' ks' ⟨hi, l, l', heq, hl, happ⟩ =>
        (⟨hi, k :: l, l', by rw [heq]; rfl, by simp, by rw [happ, List.append_assoc]; rfl⟩ :
          i' = i ∧ ∃ l l', k :: ks = l ++ l' ∧ l ≠ [] ∧ ks' = π ++ l)
      rw [List.append_assoc] at hwalk'
      refine ⟨hweak.trans hweak', hwalk', ?_⟩
      constructor
      · intro hn
        refine ⟨hr, fun _ _ => hnew'.mp fun m j hclear hset => ?_⟩
        exact hn m j (fun hold => hclear (hfills.bits m j hold)) hset
      · intro hn
        exact hweak.newNamed hweak' (hnew.mpr hr)
          (hnew'.mpr (hn.2 hv.1 (by simpa using hv.2)))

/-! ### The places of a block -/

variable {b b' : ℕ}

theorem path_cases (b : ℕ) : b < 7 ∧ path b = [b] ∨ 7 ≤ b ∧ b - 7 < 512 ∧ path b = [7, b - 7] ∨
    519 ≤ b ∧ path b = [8, (b - 7 - 512) / 512, (b - 7 - 512) % 512] := by
  rw [path]
  split
  case isTrue h₇ => exact .inl ⟨h₇, rfl⟩
  case isFalse =>
    split
    case isTrue h₅ => exact .inr (.inl ⟨by omega, h₅, rfl⟩)
    case isFalse => exact .inr (.inr ⟨by omega, rfl⟩)

theorem isPath_path (h : b < maxBlock) : IsPath (path b) := by
  rw [maxBlock] at h
  rcases path_cases b with ⟨hb, hp⟩ | ⟨hb, hb', hp⟩ | ⟨hb, hp⟩ <;> rw [hp]
  · exact .inl ⟨b, by omega, rfl⟩
  · exact .inr (.inl ⟨b - 7, hb', .inl rfl⟩)
  · exact .inr (.inr ⟨_, _, by omega, by omega, rfl⟩)

/-- The places before the last one of a block are places too. -/
theorem IsPath.left (h : IsPath (ks ++ ks')) (hks : ks ≠ []) : IsPath ks := by
  induction ks' using List.reverseRecOn with
  | nil => rwa [List.append_nil] at h
  | append_singleton ks' k ih =>
    rw [← List.append_assoc] at h
    exact ih (h.init (by simp [hks]))

/-- No block's places lead over the place of another. -/
theorem path_injective (h : path b = path b' ++ ks) : b = b' := by
  rcases path_cases b with ⟨hb, hp⟩ | ⟨hb, hb₁, hp⟩ | ⟨hb, hp⟩ <;>
  rcases path_cases b' with ⟨hb', hp'⟩ | ⟨hb', hb'₁, hp'⟩ | ⟨hb', hp'⟩ <;>
  · rw [hp, hp'] at h
    simp only [List.cons_append, List.nil_append, List.cons.injEq] at h
    omega

/-- Empty trees name nothing. -/
theorem named_empty (h : ∀ i k, s.zone i k = 0) (hks : ks ≠ []) : s.named i ks = 0 := by
  induction ks using List.reverseRecOn with
  | nil => exact absurd rfl hks
  | append_singleton ρ k ih =>
    by_cases hρ : ρ = []
    · subst hρ
      exact h i k
    · rw [named_snoc hρ, ih hρ, if_pos rfl]

theorem Owned.empty (h : ∀ i k, s.zone i k = 0)
    (hfirst : ∀ bits, s.zmap 0 = some bits → bits 0 = true) : s.Owned where
  inZone _ _ hks hne := absurd (named_empty h hks.ne_nil) hne
  marked _ _ hks hne := absurd (named_empty h hks.ne_nil) hne
  distinct _ _ _ _ hks _ hne _ := absurd (named_empty h hks.ne_nil) hne
  first := hfirst

/-- One call, on a file system in order. -/
theorem createBlock_spec (h : s.Owned) {r : ℕ} (hc : s.createBlock ok i b = some (r, s')) :
    Fills s s' (fun i' ks' => i' = i ∧ ∃ l l', path b = l ++ l' ∧ l ≠ [] ∧ ks' = l) ∧
    s'.walk ok i none (path b) = r ∧ (NewNamed s s' ↔ s.InRange ok i none (path b)) := by
  rw [createBlock] at hc
  split at hc
  case isFalse => cases hc
  case isTrue hb =>
    have heq := Option.some.inj hc
    have hpath := isPath_path hb
    have hspec := create_spec h (.inl ⟨rfl, rfl⟩ : s.At ok i [] none) hpath.ne_nil
      fun l l' happ hl => IsPath.left (happ ▸ hpath) hl
    rw [heq] at hspec
    exact hspec

/-- The bits of a run, of calls from `s₀` on. -/
theorem Fills.step {s₀ : Zones} {r : ℕ} (h : Fills s₀ s fun _ _ => True)
    (hc : s.createBlock ok i b = some (r, s')) : Fills s₀ s' fun _ _ => True :=
  h.trans ((createBlock_spec h.owned hc).1.weaken fun _ _ _ => trivial)

end Zones

/-- On a file system in order, in every run of `create_block` calls, the blocks that zone
trees name stay distinct, marked and in the data zone.  A call leaves all other blocks
alone, and the block that it returns is what `bmap` then finds.  The bits that it sets
belong to blocks named once if and only if none of its `new_block`s meets a clear bit past
the last zone first; and so do all bits set in a run of such calls. -/
theorem create_block_owns {s₀ s : Zones} (hr : (creating s₀).Reachable s) :
    s.Owned ∧
    (∀ ok i b r s', s.createBlock ok i b = some (r, s') →
      (∀ ok' i' b', (i', b') ≠ (i, b) → s'.bmap ok' i' b' = s.bmap ok' i' b') ∧
      s'.bmap ok i b = some r ∧ (r ≠ 0 → s'.named i (Zones.path b) = r) ∧
      (s.NewNamed s' ↔ s.InRange ok i none (Zones.path b))) ∧
    ((creating s₀).Reach (fun s c => s.InRange c.2.2 c.1 none (Zones.path c.2.1)) s →
      s₀.NewNamed s) := by
  have hinv : s₀.Fills s fun _ _ => True := by
    refine hr.invariant (I := fun s => s₀.Fills s fun _ _ => True) ?_ ?_
    · rintro _ ⟨rfl, h⟩
      exact .refl h
    · rintro s c s' h - ⟨r, hc⟩
      exact h.step hc
  refine ⟨hinv.owned, ?_, ?_⟩
  · intro ok i b r s' hc
    obtain ⟨hfills, hwalk, hnew⟩ := Zones.createBlock_spec hinv.owned hc
    have hb : b < Zones.maxBlock := by
      by_contra hcon
      rw [Zones.createBlock, if_neg hcon] at hc
      cases hc
    refine ⟨?_, ?_, ?_, hnew⟩
    · intro ok' i' b' hne
      rw [Zones.bmap, Zones.bmap]
      split
      case isFalse => rfl
      case isTrue hb' =>
        rw [Zones.bmapFrom_false, Zones.bmapFrom_false]
        refine congrArg some (hfills.frame ok' i' _ (Zones.isPath_path hb') ?_)
        rintro ⟨rfl, l, l', heq, -, rfl⟩
        exact hne (by rw [Zones.path_injective heq])
    · rw [Zones.bmap, if_pos hb, Zones.bmapFrom_false, hwalk]
    · rintro hne
      rw [← hwalk] at hne ⊢
      exact (Zones.walk_eq_named (Zones.isPath_path hb).ne_nil hne).symm
  · intro hg
    have hboth : (s₀.Fills s fun _ _ => True) ∧ s₀.NewNamed s := by
      refine hg.invariant (I := fun s => (s₀.Fills s fun _ _ => True) ∧ s₀.NewNamed s) ?_ ?_
      · rintro _ ⟨rfl, h⟩
        exact ⟨.refl h, Zones.newNamed_of_bits fun _ _ h => h⟩
      · rintro s c s' ⟨h, hnew⟩ hrange ⟨r, hc⟩
        obtain ⟨hfills, -, hiff⟩ := Zones.createBlock_spec h.owned hc
        exact ⟨h.step hc, h.newNamed (hfills.weaken fun _ _ _ => trivial) hnew (hiff.mpr hrange)⟩
    exact hboth.2

namespace Zones

/-- A device with zone 5 only, of bit 1, and bit `c` of the bitmap clear. -/
def device (c : ℕ) : Zones where
  zone _ _ := 0
  data _ _ := 0
  zmap m := if m = 0 then some fun j => j ≠ c else none
  firstDataZone := 5
  nZones := 6
  nZones_lt := by decide
  firstDataZone_pos := by decide

theorem owned_device {c : ℕ} (hc : c ≠ 0) : (device c).Owned := by
  refine .empty (fun _ _ => rfl) fun bits hbits => ?_
  rw [← Option.some.inj hbits]
  exact decide_eq_true hc.symm

theorem findBit_device : (device 1).findBit 8 0 = some (0, 1) ∧
    (device 2).findBit 8 0 = some (0, 2) := by decide

theorem createBlock_device : (device 1).createBlock (fun _ => true) 1 0 =
      some (5, (((device 1).setBit 0 1).clearBlock 5).setValue 1 none 0 5) ∧
    (device 2).createBlock (fun _ => true) 1 0 = some (0, (device 2).setBit 0 2) := by
  have hpath : path 0 = [0] := rfl
  have hvalue : ∀ c, (device c).value 1 none 0 = 0 := fun _ => rfl
  have hclaim : (device 1).claimBlock = (some 5, (device 1).setBit 0 1) := by
    rw [claimBlock, findBit_device.1]
    exact if_neg (by decide)
  have hclaim' : (device 2).claimBlock = (none, (device 2).setBit 0 2) := by
    rw [claimBlock, findBit_device.2]
    exact if_pos (by decide)
  constructor
  · rw [createBlock, if_pos (by decide), hpath, bmapFrom, entry, if_pos ⟨rfl, hvalue 1⟩, newBlock,
      hclaim]
    rfl
  · rw [createBlock, if_pos (by decide), hpath, bmapFrom, entry, if_pos ⟨rfl, hvalue 2⟩, newBlock,
      hclaim']
    rfl

end Zones

/-- The zone is allocated, and found. -/
theorem create_block_owns_device : ∃ s', (Zones.device 1).createBlock (fun _ => true) 1 0 =
    some (5, s') ∧ s'.bmap (fun _ => true) 1 0 = some 5 := by
  have hr : (creating (Zones.device 1)).Reachable (Zones.device 1) :=
    .init ⟨rfl, Zones.owned_device (by decide)⟩
  exact ⟨_, Zones.createBlock_device.1,
    ((create_block_owns hr).2.1 _ _ _ _ _ Zones.createBlock_device.1).2.1⟩

/-- The first clear bit is past the last zone: it is set, and no place names it. -/
theorem create_block_leaks : ∃ (s s' : Zones) (ok : ℕ → Bool) (i b r m j : ℕ), s.Owned ∧
    s.createBlock ok i b = some (r, s') ∧ ¬ s.Bit m j ∧ s'.Bit m j ∧
    ∀ i ks, Zones.IsPath ks → s'.named i ks ≠ s'.zoneOf m j := by
  refine ⟨Zones.device 2, (Zones.device 2).setBit 0 2, fun _ => true, 1, 0, 0, 0, 2,
    Zones.owned_device (by decide), Zones.createBlock_device.2, ?_,
    (Zones.bit_setBit rfl).mpr (.inr ⟨rfl, rfl⟩), ?_⟩
  · rintro ⟨bits, hbits, htrue⟩
    rw [← Option.some.inj hbits] at htrue
    cases htrue
  · intro i ks hks
    rw [Zones.named_setBit, Zones.named_empty (fun _ _ => rfl) hks.ne_nil]
    decide

end Fs
