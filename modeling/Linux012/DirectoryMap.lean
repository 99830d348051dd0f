/-
A directory as a map (`match`, `find_entry` and `add_entry` of fs/namei.c).

* `matchBytes`, `nameMatches_eq` — `match`, byte by byte, is the comparison of names;
* `fill` — an entry takes the first free place of a list of entries, or a new one at the end;
* `find?_fill` — what a look-up by name finds then;
* `Volumes.entries` — the entries of a directory, up to `i_size`, over all levels of zones;
* `findEntry_eq`, `addName_fill` — `find_entry` looks this list up, and `add_entry` fills it;
* `directory_map` — the entry is found under its name, and the other names are as before;
* `directory_map_not` — the name is in the directory already, or is that of the directory
  itself, or of the one above, or `i_size` is no multiple of an entry's size.

Design notes: names are without zeros, as `get_fs_byte` reads them.  `add_entry` and the store
of the inode number are one step.  All blocks of the directory can be read when it is searched.
-/
import Linux012.Following
import Linux012.NameFailure
import Mathlib.Data.List.Find
import Mathlib.Data.List.GetD

namespace Fs

open Function (update)

/-! ### Names -/

/-- `match`: the name has `len` bytes, and the entry has number `inode`. -/
def matchBytes (len : ℕ) (name : ℕ → ℕ) (inode : ℕ) (bytes : ℕ → ℕ) : Bool :=
  if inode = 0 ∨ nameLen < len then false
  else if len = 0 ∧ bytes 0 = '.'.toNat ∧ bytes 1 = 0 then true
  else if len < nameLen ∧ bytes len ≠ 0 then false
  -- with no byte to compare, the flag is that of the last comparison
  else (List.range len).all fun i => name i == bytes i

/-- A name is bytes, none of them zero. -/
def IsName (name : Name) : Prop := ∀ c ∈ name, c.toNat ≠ 0 ∧ c.toNat < 256

theorem isName_replicate {n : ℕ} {c : Char} (hc : c.toNat ≠ 0 ∧ c.toNat < 256) :
    IsName (List.replicate n c) := fun _ hx => (List.mem_replicate.mp hx).2 ▸ hc

theorem IsName.take {name : Name} (h : IsName name) (n : ℕ) : IsName (name.take n) :=
  fun c hc => h c (List.mem_of_mem_take hc)

theorem IsName.getD_mod {name : Name} (h : IsName name) {k : ℕ}
    (hk : k < name.length) :
    (name.map Char.toNat).getD k 0 % 256 = name[k].toNat := by
  rw [List.getD_eq_getElem _ _ (by rwa [List.length_map]), List.getElem_map]
  exact Nat.mod_eq_of_lt (h _ (List.getElem_mem _)).2

/-- What stands before the first zero of `len` bytes. -/
def stringOf (bytes : ℕ → ℕ) (len : ℕ) : Name :=
  (((List.range len).map bytes).takeWhile (· ≠ 0)).map Char.ofNat

theorem stringOf_succ (bytes : ℕ → ℕ) (n : ℕ) : stringOf bytes (n + 1) =
    if bytes 0 = 0 then [] else Char.ofNat (bytes 0) :: stringOf (fun k => bytes (k + 1)) n := by
  rw [stringOf, List.range_succ_eq_map, List.map_cons, List.takeWhile_cons]
  by_cases h : bytes 0 = 0
  · rw [if_pos h, if_neg (by simpa using h)]
    rfl
  · rw [if_neg h, if_pos (by simpa using h), List.map_map]
    rfl

theorem ofNat_eq_iff {n : ℕ} {c : Char} (h : n < 256) : Char.ofNat n = c ↔ c.toNat = n := by
  constructor
  · rintro rfl
    rw [Char.ofNat, dif_pos (.inl (by omega))]
    rfl
  · rintro rfl
    exact Char.ofNat_toNat c

/-- When the bytes hold a name. -/
theorem stringOf_eq_iff {bytes : ℕ → ℕ} {name : Name} {n : ℕ} (hb : ∀ k, bytes k < 256)
    (hname : IsName name) (hn : name.length ≤ n) : stringOf bytes n = name ↔
      (∀ i < name.length, (name.map Char.toNat).getD i 0 = bytes i) ∧
        (name.length < n → bytes name.length = 0) := by
  induction name generalizing bytes n with
  | nil =>
    cases n with
    | zero => exact ⟨fun _ => ⟨nofun, nofun⟩, fun _ => rfl⟩
    | succ n =>
      rw [stringOf_succ]
      by_cases h : bytes 0 = 0
      · rw [if_pos h]
        exact ⟨fun _ => ⟨nofun, fun _ => h⟩, fun _ => rfl⟩
      · rw [if_neg h]
        exact ⟨nofun, fun hz => absurd (hz.2 (Nat.succ_pos n)) h⟩
  | cons c name ih =>
    obtain ⟨hc, hname'⟩ := List.forall_mem_cons.mp hname
    cases n with
    | zero => cases hn
    | succ n =>
      have hrest : stringOf (fun k => bytes (k + 1)) n = name ↔
          (∀ i < name.length, (name.map Char.toNat).getD i 0 = bytes (i + 1)) ∧
            (name.length < n → bytes (name.length + 1) = 0) :=
        ih (fun k => hb (k + 1)) hname' (Nat.le_of_succ_le_succ hn)
      rw [stringOf_succ]
      by_cases h : bytes 0 = 0
      · rw [if_pos h]
        refine ⟨nofun, fun hz => absurd ?_ hc.1⟩
        exact (hz.1 0 (Nat.succ_pos _)).trans h
      · rw [if_neg h, List.cons.injEq, ofNat_eq_iff (hb 0), hrest]
        constructor
        · rintro ⟨h₀, hi, hlast⟩
          refine ⟨fun i hlt => ?_, fun hlt => hlast (Nat.lt_of_succ_lt_succ hlt)⟩
          cases i with
          | zero => exact h₀
          | succ i => exact hi i (Nat.lt_of_succ_lt_succ hlt)
        · rintro ⟨hi, hlast⟩
          exact ⟨hi 0 (Nat.succ_pos _), fun i hlt => hi (i + 1) (Nat.succ_lt_succ hlt),
            fun hlt => hlast (Nat.succ_lt_succ hlt)⟩

/-- `match` compares the name with what stands before the first zero of the entry. -/
theorem nameMatches_eq {bytes : ℕ → ℕ} {name : Name} {inode : ℕ} (hb : ∀ k, bytes k < 256)
    (hname : IsName name) (hn : name.length ≤ nameLen) :
    matchBytes name.length (fun i => (name.map Char.toNat).getD i 0) inode bytes =
      nameMatches name ⟨inode, stringOf bytes nameLen⟩ := by
  have hdot : stringOf bytes nameLen = ['.'] ↔ bytes 0 = '.'.toNat ∧ bytes 1 = 0 := by
    have hdotName : IsName ['.'] := isName_replicate (n := 1) (by decide)
    rw [stringOf_eq_iff hb hdotName (by decide)]
    constructor
    · rintro ⟨h₀, h₁⟩
      exact ⟨(h₀ 0 Nat.one_pos).symm, h₁ (by decide)⟩
    · rintro ⟨h₀, h₁⟩
      refine ⟨fun i hi => ?_, fun _ => h₁⟩
      rw [show i = 0 from Nat.lt_one_iff.mp hi]
      exact h₀.symm
  have heq := stringOf_eq_iff hb hname hn
  rw [matchBytes, nameMatches]
  by_cases hinode : inode = 0
  · rw [if_pos (.inl hinode), hinode]
    rfl
  rw [if_neg (by omega), bne_iff_ne.mpr hinode, Bool.true_and]
  by_cases hempty : name.length = 0 ∧ bytes 0 = '.'.toNat ∧ bytes 1 = 0
  · rw [if_pos hempty, List.length_eq_zero_iff.mp hempty.1, hdot.mpr hempty.2]
    rfl
  have hspecial : (name == [] && stringOf bytes nameLen == ['.']) = false := by
    rw [Bool.and_eq_false_iff]
    by_contra hc
    rw [not_or, Bool.not_eq_false, Bool.not_eq_false, beq_iff_eq, beq_iff_eq] at hc
    exact hempty ⟨List.length_eq_zero_iff.mpr hc.1, hdot.mp hc.2⟩
  dsimp only
  rw [if_neg hempty, hspecial, Bool.false_or, Bool.eq_iff_iff, beq_iff_eq, eq_comm (a := name),
    heq]
  by_cases hlast : name.length < nameLen ∧ bytes name.length ≠ 0
  · rw [if_pos hlast]
    exact ⟨fun h => absurd h Bool.false_ne_true, fun h => absurd (h.2 hlast.1) hlast.2⟩
  · rw [if_neg hlast, List.all_eq_true]
    constructor
    · intro h
      refine ⟨fun i hi => ?_, fun hlt => ?_⟩
      · exact beq_iff_eq.mp (h i (List.mem_range.mpr hi))
      · by_contra hne
        exact hlast ⟨hlt, hne⟩
    · exact fun h i hi => beq_iff_eq.mpr (h.1 i (List.mem_range.mp hi))

theorem nameMatches_eq_letter :
    matchBytes 1 (fun i => [97].getD i 0) 7 (fun i => [97].getD i 0) =
      nameMatches ['a'] ⟨7, stringOf (fun i => [97].getD i 0) nameLen⟩ := by
  refine nameMatches_eq (fun k => ?_) (isName_replicate (n := 1) (c := 'a') (by decide)) (by decide)
  cases k with
  | zero => decide
  | succ k => exact Nat.zero_lt_succ _

/-! ### A list of entries -/

/-- The entry takes the first free place, or a new one at the end. -/
def fill (new : DirEntry) : List DirEntry → List DirEntry
  | [] => [new]
  | de :: l => if de.inode = 0 then new :: l else de :: fill new l

variable {new de : DirEntry} {name : Name} {l : List DirEntry}

theorem nameMatches_free (h : de.inode = 0) : nameMatches name de = false := by
  rw [nameMatches, h]
  rfl

/-- Names that do not match the new entry find what they found before. -/
theorem find?_fill_of_not (h : nameMatches name new = false) :
    (fill new l).find? (nameMatches name) = l.find? (nameMatches name) := by
  induction l with
  | nil => rw [fill, List.find?_cons, h]
  | cons de l ih =>
    rw [fill]
    split
    case isTrue hfree => rw [List.find?_cons, h, List.find?_cons, nameMatches_free hfree]
    case isFalse => rw [List.find?_cons, List.find?_cons, ih]

/-- A name that was not there finds the new entry, if it matches it. -/
theorem find?_fill (h : l.find? (nameMatches name) = none) (hnew : nameMatches name new = true) :
    (fill new l).find? (nameMatches name) = some new := by
  induction l with
  | nil => rw [fill, List.find?_cons, hnew]
  | cons de l ih =>
    rw [List.find?_cons] at h
    rw [fill]
    split
    case isTrue => rw [List.find?_cons, hnew]
    case isFalse =>
      cases hde : nameMatches name de with
      | true =>
        rw [hde] at h
        cases h
      | false =>
        rw [hde] at h
        rw [List.find?_cons, hde]
        exact ih h

/-- The list as `add_entry` makes it, with the place that it finds. -/
theorem fill_eq {i : ℕ} (hi : i ≤ l.length) (hbefore : ∀ j (h : j < l.length), j < i →
    l[j].inode ≠ 0) (hfree : ∀ h : i < l.length, l[i].inode = 0) :
    fill new l = l.take i ++ new :: l.drop (i + 1) := by
  induction l generalizing i with
  | nil =>
    rw [show i = 0 from Nat.le_zero.mp hi]
    rfl
  | cons de l ih =>
    rw [fill]
    cases i with
    | zero =>
      have hde : de.inode = 0 := hfree (Nat.succ_pos _)
      rw [if_pos hde]
      rfl
    | succ i =>
      have hde : de.inode ≠ 0 := hbefore 0 (Nat.succ_pos _) (Nat.succ_pos _)
      rw [if_neg hde, ih (Nat.le_of_succ_le_succ hi)
        (fun j h hj => hbefore (j + 1) (Nat.succ_lt_succ h) (Nat.succ_lt_succ hj))
        fun h => hfree (Nat.succ_lt_succ h)]
      rfl

/-! ### The blocks of a directory -/

namespace Volumes

variable {s s' t : Volumes} {o : Outside} {dir : InodeId} {num : ℕ} {cur : Current}

/-- `add_entry`, with the store of the inode number; no entry has the empty name. -/
def addName (s : Volumes) (o : Outside) (dir : InodeId) (num : ℕ) (name : Name) :
    Except Halt (Bool × Volumes) :=
  if name = [] then .ok (false, s) else s.addEntry o dir num name

/-- The block of entry `j` of a directory. -/
def blockOf (s : Volumes) (dir : InodeId) (j : ℕ) : ℕ :=
  (s.zones dir.1).named dir.2 (Zones.path (j / dirEntriesPerBlock))

/-- Entry `j` of a directory. -/
def entryAt (s : Volumes) (dir : InodeId) (j : ℕ) : DirEntry :=
  s.dirEntry dir.1 (s.blockOf dir j) (j % dirEntriesPerBlock)

/-- The entries of a directory. -/
def entries (s : Volumes) (dir : InodeId) : List DirEntry :=
  (List.range ((s.node dir).size / 16)).map (s.entryAt dir)

/-- A directory: it has all its blocks, and they are whole entries. -/
structure Directory (s : Volumes) (dir : InodeId) : Prop where
  owned : (s.zones dir.1).Owned
  size : 16 ∣ (s.node dir).size
  small : ∀ j < (s.node dir).size / 16, j / dirEntriesPerBlock < Zones.maxBlock
  blocks : ∀ j < (s.node dir).size / 16, s.blockOf dir j ≠ 0

/-- The blocks of the directory, and its indirect blocks, can be read. -/
def Readable (s : Volumes) (ok : ℕ → ℕ → Bool) (dir : InodeId) : Prop :=
  ∀ ks, Zones.IsPath ks → (s.zones dir.1).named dir.2 ks ≠ 0 →
    ok dir.1 ((s.zones dir.1).named dir.2 ks) = true

/-! ### `find_entry` -/

variable {ok : ℕ → ℕ → Bool}

theorem dirBuf_block (hr : s.Readable ok dir) {j : ℕ}
    (hj : j / dirEntriesPerBlock < Zones.maxBlock) (hne : s.blockOf dir j ≠ 0) :
    (s.disks ok).dirBuf dir ((s.disks ok).bmap dir (j / dirEntriesPerBlock)) =
      some (dir.1, s.blockOf dir j) := by
  have hbmap : (s.disks ok).bmap dir (j / dirEntriesPerBlock) = s.blockOf dir j :=
    Zones.bmap_readable hr hj
  have hread : (s.disks ok).readable dir.1 (s.blockOf dir j) = true :=
    hr _ (Zones.isPath_path hj) hne
  rw [Disks.dirBuf, hbmap, hread, if_neg]
  exact not_or.mpr ⟨hne, Bool.noConfusion⟩

/-- `find_entry` looks the name up in the list of the entries. -/
theorem find_eq (hd : s.Directory dir) (hr : s.Readable ok dir) {name key : Name}
    (hex : (s.disks ok).exchange cur dir name = (dir, key)) :
    ((s.disks ok).find cur dir name).map (fun r => (r.1, r.2.map Prod.snd)) =
      .ok (dir, (s.entries dir).find? (nameMatches key)) := by
  have hstops : ∀ j < (s.node dir).size / 16,
      (s.disks ok).stops dir key j = nameMatches key (s.entryAt dir j) := by
    intro j hj
    rw [Disks.stops, dirBuf_block hr (hd.small j hj) (hd.blocks j hj)]
    rfl
  have hscan : ∀ n ≤ (s.node dir).size / 16, ((s.disks ok).scanFrom dir key n 0).map
      (fun found => found.map Prod.snd) =
        .ok (((List.range n).map (s.entryAt dir)).find? (nameMatches key)) := by
    intro n hn
    have hfind : (List.range' 0 n).find? ((s.disks ok).stops dir key) =
        (List.range n).find? fun j => nameMatches key (s.entryAt dir j) := by
      rw [← List.range_eq_range']
      refine List.find?_congr fun j hj => hstops j ?_
      have := List.mem_range.mp hj
      omega
    rw [Disks.scanFrom, Nat.sub_zero, hfind, List.find?_map]
    cases hf : (List.range n).find? fun j => nameMatches key (s.entryAt dir j) with
    | none =>
      rw [show (nameMatches key ∘ s.entryAt dir) = fun j => nameMatches key (s.entryAt dir j)
        from rfl, hf]
      rfl
    | some j =>
      have hj : j < (s.node dir).size / 16 := by
        have := List.mem_range.mp (List.mem_of_find?_eq_some hf)
        omega
      rw [show (nameMatches key ∘ s.entryAt dir) = fun j => nameMatches key (s.entryAt dir j)
        from rfl, hf]
      dsimp only
      rw [dirBuf_block hr (hd.small j hj) (hd.blocks j hj)]
      rfl
  rw [Disks.find, hex]
  dsimp only
  have hn : (s.disks ok).entries dir = (s.node dir).size / 16 := rfl
  by_cases hzero : (s.node dir).size / 16 = 0
  · -- the first block may be missing
    have hnone : (s.entries dir).find? (nameMatches key) = none := by
      rw [entries, hzero]
      rfl
    rw [hnone]
    split
    · rfl
    · rw [hn, hzero]
      rfl
  · have h₀ := dirBuf_block hr (hd.small 0 (Nat.pos_of_ne_zero hzero))
      (hd.blocks 0 (Nat.pos_of_ne_zero hzero))
    rw [show (0 : ℕ) / dirEntriesPerBlock = 0 from rfl] at h₀
    rw [h₀, hn]
    dsimp only
    have h := hscan _ (Nat.le_refl _)
    cases hr' : (s.disks ok).scanFrom dir key ((s.node dir).size / 16) 0 with
    | error c =>
      rw [hr'] at h
      cases h
    | ok found =>
      rw [hr'] at h
      have hfound := Except.ok.inj h
      show Except.ok (dir, found.map Prod.snd) = _
      rw [entries, ← hfound]

theorem findEntry_eq (hd : s.Directory dir) (hr : s.Readable (o.ok 2) dir) {name key : Name}
    (hex : (s.disks (o.ok 2)).exchange cur dir name = (dir, key)) :
    s.findEntry cur o dir name = .ok (dir, (s.entries dir).find? (nameMatches key)) := by
  rw [findEntry, find_eq hd hr hex]
  rfl

/-! ### The words of an entry -/

/-- Byte `k` of a block. -/
def byteOf (words : ℕ → ℕ) (k : ℕ) : ℕ := words (k / 2) / 256 ^ (k % 2) % 256

/-- Entry `i` of a block. -/
def entryOf (words : ℕ → ℕ) (i : ℕ) : DirEntry :=
  ⟨words (8 * i), stringOf (fun k => byteOf words (16 * i + 2 + k)) nameLen⟩

theorem dirEntry_eq (s : Volumes) (dev b i : ℕ) :
    s.dirEntry dev b i = entryOf ((s.zones dev).data b) i := by
  rw [dirEntry, string, List.range'_eq_map_range, List.map_map]
  rfl

/-- A block with entry `i` written. -/
def withEntry (words : ℕ → ℕ) (i num : ℕ) (name : Name) (w : ℕ) : ℕ :=
  if w / 8 = i then if w % 8 = 0 then num else wordOf (name.take nameLen) (w % 8 - 1)
  else words w

theorem setEntry_eq (s : Volumes) (dev b i num : ℕ) (name : Name) :
    s.setEntry dev b i num name =
      s.setZones dev ((s.zones dev).store b (withEntry ((s.zones dev).data b) i num name)) := by
  have hwords : (fun w => (if w / 8 = i then
      some (if w % 8 = 0 then num else wordOf (name.take nameLen) (w % 8 - 1)) else none).getD
        ((s.zones dev).data b w)) = withEntry ((s.zones dev).data b) i num name := by
    funext w
    rw [withEntry]
    split <;> rfl
  rw [setEntry, setData, hwords]
  rfl

variable {words : ℕ → ℕ} {i i' : ℕ} {name : Name}

theorem entryOf_withEntry_ne (h : i' ≠ i) :
    entryOf (withEntry words i num name) i' = entryOf words i' := by
  have hbyte : ∀ k, k < nameLen → byteOf (withEntry words i num name) (16 * i' + 2 + k) =
      byteOf words (16 * i' + 2 + k) := by
    intro k hk
    simp only [nameLen] at hk
    rw [byteOf, withEntry, if_neg (by omega), byteOf]
  have hinode : withEntry words i num name (8 * i') = words (8 * i') := by
    rw [withEntry, if_neg (by omega)]
  rw [entryOf, entryOf, hinode, stringOf, stringOf]
  have hmap : (List.range nameLen).map
      (fun k => byteOf (withEntry words i num name) (16 * i' + 2 + k)) =
        (List.range nameLen).map fun k => byteOf words (16 * i' + 2 + k) :=
    List.map_congr_left fun k hk => hbyte k (List.mem_range.mp hk)
  rw [hmap]

/-- A byte of a text, in its word. -/
theorem wordOf_byte (text : Name) (k : ℕ) : wordOf text (k / 2) / 256 ^ (k % 2) % 256 =
    (text.map Char.toNat).getD k 0 % 256 := by
  rw [wordOf]
  obtain hpar | hpar : k % 2 = 0 ∨ k % 2 = 1 := by omega
  · rw [hpar, show 2 * (k / 2) = k by omega]
    omega
  · rw [hpar, show 2 * (k / 2) + 1 = k by omega]
    omega

/-- A byte of the name of the entry that is written. -/
theorem byteOf_withEntry {k : ℕ} (hk : k < nameLen) :
    byteOf (withEntry words i num name) (16 * i + 2 + k) =
      ((name.take nameLen).map Char.toNat).getD k 0 % 256 := by
  simp only [nameLen] at hk
  rw [byteOf, withEntry, if_pos (by omega), if_neg (by omega),
    show (16 * i + 2 + k) / 2 % 8 - 1 = k / 2 by omega, show (16 * i + 2 + k) % 2 = k % 2 by omega]
  exact wordOf_byte _ k

/-- What is written is read back. -/
theorem entryOf_withEntry (h : IsName name) :
    entryOf (withEntry words i num name) i = ⟨num, name.take nameLen⟩ := by
  have hinode : withEntry words i num name (8 * i) = num := by
    rw [withEntry, if_pos (by omega), if_pos (by omega)]
  have hlen : (name.take nameLen).length ≤ nameLen := List.length_take_le _ _
  have hname : stringOf (fun k => byteOf (withEntry words i num name) (16 * i + 2 + k)) nameLen =
      name.take nameLen := by
    have hb : ∀ k, byteOf (withEntry words i num name) (16 * i + 2 + k) < 256 :=
      fun k => Nat.mod_lt _ (by decide)
    rw [stringOf_eq_iff hb (h.take _) hlen]
    refine ⟨fun k hk => ?_, fun hlt => ?_⟩
    · rw [byteOf_withEntry (hk.trans_le hlen), Nat.mod_eq_of_lt]
      have hk' : k < ((name.take nameLen).map Char.toNat).length := by rwa [List.length_map]
      rw [List.getD_eq_getElem _ _ hk', List.getElem_map]
      exact (h.take _ _ (List.getElem_mem _)).2
    · rw [byteOf_withEntry hlt, List.getD_eq_default _ _ (by rw [List.length_map])]
  rw [entryOf, hinode, hname]

/-! ### `add_entry` -/

/-- The directory with the blocks that `add_entry` has taken for it. -/
structure Grown (s t : Volumes) (dir : InodeId) (z : Zones) : Prop where
  eq : t = s.setZones dir.1 z
  grows : Zones.Grows (· = dir.2) (fun _ => False) (s.zones dir.1) z

theorem Grown.zones {z : Zones} (h : Grown s t dir z) : t.zones dir.1 = z := by
  rw [h.eq]
  exact Function.update_self _ _ _

/-- The blocks that a directory has are not changed. -/
theorem Grown.entryAt {z : Zones} (h : Grown s t dir z) {j : ℕ}
    (hj : j / dirEntriesPerBlock < Zones.maxBlock) (hne : s.blockOf dir j ≠ 0) :
    t.blockOf dir j = s.blockOf dir j ∧ t.entryAt dir j = s.entryAt dir j := by
  have hblock : t.blockOf dir j = s.blockOf dir j := by
    rw [blockOf, h.zones]
    exact h.grows.fills.keeps _ _ (Zones.isPath_path hj) hne
  refine ⟨hblock, ?_⟩
  rw [Volumes.entryAt, Volumes.entryAt, hblock, dirEntry_eq, dirEntry_eq, h.zones]
  exact congrArg (entryOf · _) (h.grows.data _ _ hj hne)

/-- The loop of `add_entry` is at entry `i`. -/
structure AtSlot (s t : Volumes) (dir : InodeId) (i block : ℕ) (z : Zones) : Prop where
  grown : Grown s t dir z
  le : i ≤ (s.node dir).size / 16
  before : ∀ j < i, (s.entryAt dir j).inode ≠ 0
  block : i = 0 ∨ i % dirEntriesPerBlock ≠ 0 → block = t.blockOf dir i

/-- The entry that `add_entry` has found. -/
structure Slot (s t : Volumes) (dir : InodeId) (i : ℕ) (z : Zones) : Prop where
  grown : Grown s t dir z
  le : i ≤ (s.node dir).size / 16
  before : ∀ j < i, (s.entryAt dir j).inode ≠ 0
  free : i < (s.node dir).size / 16 → (s.entryAt dir i).inode = 0
  small : i / dirEntriesPerBlock < Zones.maxBlock
  block : t.blockOf dir i ≠ 0

/-- The block of the entry is the one that the directory has there. -/
theorem AtSlot.entryBlock {z : Zones} {block b : ℕ} {t' : Volumes} (h : AtSlot s t dir i block z)
    (hd : s.Directory dir) (he : t.entryBlock o dir i block = .ok (b, t')) (hb : b ≠ 0) :
    ∃ z', Grown s t' dir z' ∧ b = t'.blockOf dir i ∧ i / dirEntriesPerBlock < Zones.maxBlock := by
  have howned := h.grown.grows.fills.owned
  rw [Volumes.entryBlock] at he
  split at he
  case isFalse hc =>
    cases he
    have hi : i = 0 ∨ i % dirEntriesPerBlock ≠ 0 := by
      by_contra hcon
      rw [not_or, not_not] at hcon
      exact hc ⟨hcon.2, hcon.1⟩
    refine ⟨z, h.grown, h.block hi, ?_⟩
    rcases hi with rfl | hi
    · decide
    · -- entry `i - 1` is in the same block
      have hle := h.le
      have hsmall := hd.small (i - 1) (by simp only [dirEntriesPerBlock] at hi; omega)
      simp only [dirEntriesPerBlock] at hi hsmall ⊢
      rwa [show i / 64 = (i - 1) / 64 by omega]
  case isTrue =>
    rw [h.grown.zones] at he
    have hdone : ∀ z', z.createBlock (o.ok (4 + i) dir.1) dir.2 (i / dirEntriesPerBlock) =
        some (b, z') → t' = t.setZones dir.1 z' →
        ∃ z', Grown s t' dir z' ∧ b = t'.blockOf dir i ∧
          i / dirEntriesPerBlock < Zones.maxBlock := by
      intro z' hcreate ht
      have hsmall : i / dirEntriesPerBlock < Zones.maxBlock := by
        rw [Zones.createBlock] at hcreate
        split at hcreate
        case isTrue hlt => exact hlt
        case isFalse => cases hcreate
      have hgrown : Grown s t' dir z' := by
        refine ⟨?_, h.grown.grows.trans (Zones.create_grows howned hcreate)⟩
        rw [ht, h.grown.eq, setZones, setZones, setZones]
        simp only [Function.update_idem]
      have hwalk := (Zones.createBlock_spec howned hcreate).2.1
      refine ⟨z', hgrown, ?_, hsmall⟩
      rw [blockOf, hgrown.zones, ← hwalk]
      exact Zones.walk_eq_named (Zones.isPath_path hsmall).ne_nil (hwalk ▸ hb)
    split at he
    case h_1 => cases he
    case h_2 => exact absurd (Prod.mk.inj (Except.ok.inj he)).1.symm hb
    case h_3 v z' _ hcreate =>
      split at he
      case isTrue =>
        obtain ⟨rfl, rfl⟩ := Prod.mk.inj (Except.ok.inj he)
        exact hdone z' hcreate rfl
      case isFalse => cases he

/-- The directory after `add_entry` has found entry `i`. -/
def filled (s t : Volumes) (dir : InodeId) (i num : ℕ) (name : Name) : Volumes :=
  (if i < (s.node dir).size / 16 then t
    else t.setNode dir fun n => { n with size := (i + 1) * 16 }).setEntry dir.1
      (t.blockOf dir i) (i % dirEntriesPerBlock) num name

/-- The loop of `add_entry` finds the first free entry, or the one after the last. -/
theorem addLoop_slot (hd : s.Directory dir) {z : Zones} {block left : ℕ}
    (h : AtSlot s t dir i block z) (hleft : i + left = (s.node dir).size / 16)
    (ha : addLoop o dir num name left t i block = .ok (true, s')) :
    ∃ i t' z', Slot s t' dir i z' ∧ s' = s.filled t' dir i num name := by
  induction left generalizing t i block z with
  | zero =>
    rw [addLoop] at ha
    obtain ⟨⟨b, t₁⟩, he, ha⟩ := Except.ok_of_bind ha
    dsimp only at ha
    split at ha
    case isTrue => cases ha
    case isFalse hb =>
      obtain ⟨z₁, hgrown, rfl, hsmall⟩ := h.entryBlock hd he hb
      refine ⟨i, t₁, z₁, ⟨hgrown, h.le, h.before, fun hlt => ?_, hsmall, hb⟩, ?_⟩
      · omega
      · rw [filled, if_neg (by omega)]
        exact (Prod.mk.inj (Except.ok.inj ha)).2.symm
  | succ left ih =>
    rw [addLoop] at ha
    obtain ⟨⟨b, t₁⟩, he, ha⟩ := Except.ok_of_bind ha
    dsimp only at ha
    split at ha
    case isTrue => cases ha
    case isFalse hb =>
      obtain ⟨z₁, hgrown, rfl, hsmall⟩ := h.entryBlock hd he hb
      have hlt : i < (s.node dir).size / 16 := by omega
      have hentry : t₁.entryAt dir i = s.entryAt dir i :=
        (hgrown.entryAt hsmall (hd.blocks i hlt)).2
      split at ha
      case isTrue hfree =>
        refine ⟨i, t₁, z₁, ⟨hgrown, h.le, h.before, fun _ => ?_, hsmall, hb⟩, ?_⟩
        · rw [← hentry]
          exact hfree
        · rw [filled, if_pos hlt]
          exact (Prod.mk.inj (Except.ok.inj ha)).2.symm
      case isFalse hused =>
        refine ih ⟨hgrown, hlt, fun j hj => ?_, fun hi => ?_⟩ (by omega) ha
        · rcases Nat.lt_succ_iff_lt_or_eq.mp hj with hj | rfl
          · exact h.before j hj
          · rw [← hentry]
            exact hused
        · rw [blockOf, blockOf]
          simp only [dirEntriesPerBlock] at hi ⊢
          rw [show (i + 1) / 64 = i / 64 by omega]

/-- The size of the directory then. -/
theorem size_filled : ((s.filled t dir i num name).node dir).size =
    if i < (s.node dir).size / 16 then (t.node dir).size else (i + 1) * 16 := by
  rw [filled, setEntry_eq]
  split
  · rfl
  · show (update t.node dir _ dir).size = _
    rw [Function.update_self]

theorem zones_filled : (s.filled t dir i num name).zones dir.1 =
    (t.zones dir.1).store (t.blockOf dir i)
      (withEntry ((t.zones dir.1).data (t.blockOf dir i)) (i % dirEntriesPerBlock) num name) := by
  rw [filled, setEntry_eq]
  split
  · exact Function.update_self _ _ _
  · exact Function.update_self _ _ _

theorem blockOf_filled {z : Zones} (h : Slot s t dir i z) {j : ℕ}
    (hj : j / dirEntriesPerBlock < Zones.maxBlock) :
    (s.filled t dir i num name).blockOf dir j = t.blockOf dir j := by
  rw [blockOf, zones_filled]
  refine Zones.named_store ?_ h.small (Zones.isPath_path hj)
  rw [h.grown.zones]
  exact h.grown.grows.fills.owned

/-- The entry is written, and the others are as before. -/
theorem entryAt_filled {z : Zones} (h : Slot s t dir i z) (hname : IsName name) {j : ℕ}
    (hj : j / dirEntriesPerBlock < Zones.maxBlock) :
    (s.filled t dir i num name).entryAt dir j =
      if j = i then ⟨num, name.take nameLen⟩ else t.entryAt dir j := by
  rw [entryAt, dirEntry_eq, blockOf_filled h hj, zones_filled]
  by_cases hji : j = i
  · rw [if_pos hji, hji]
    rw [Zones.store_data_self]
    exact entryOf_withEntry hname
  rw [if_neg hji, entryAt, dirEntry_eq]
  by_cases hb : t.blockOf dir j = t.blockOf dir i
  · -- another entry of the same block
    have howned : (t.zones dir.1).Owned := by
      rw [h.grown.zones]
      exact h.grown.grows.fills.owned
    obtain ⟨-, hpath⟩ := howned.distinct _ _ _ _ (Zones.isPath_path hj)
      (Zones.isPath_path h.small) (fun hz => h.block (hb.symm.trans hz)) hb
    have hdiv : j / dirEntriesPerBlock = i / dirEntriesPerBlock :=
      Zones.path_injective (hpath.trans (List.append_nil _).symm)
    have hmod : j % dirEntriesPerBlock ≠ i % dirEntriesPerBlock := by
      simp only [dirEntriesPerBlock] at hdiv ⊢
      omega
    rw [hb]
    rw [Zones.store_data_self]
    exact entryOf_withEntry_ne hmod
  · rw [Zones.store_data_ne _ _ hb]

/-- `add_entry` finds a free entry, or makes one, and writes it. -/
theorem addName_slot (hd : s.Directory dir) (ha : s.addName o dir num name = .ok (true, s')) :
    ∃ i t z, Slot s t dir i z ∧ s' = s.filled t dir i num name := by
  rw [addName] at ha
  split at ha
  case isTrue => cases ha
  rw [addEntry] at ha
  split at ha
  case isTrue => cases ha
  have hleft : ((s.node dir).size + 15) / 16 = (s.node dir).size / 16 := by
    have := hd.size
    omega
  rw [hleft] at ha
  have hgrown : Grown s s dir (s.zones dir.1) :=
    ⟨by rw [setZones, Function.update_eq_self], .refl hd.owned⟩
  refine addLoop_slot hd ⟨hgrown, Nat.zero_le _, fun _ hj => absurd hj (Nat.not_lt_zero _),
    fun _ => rfl⟩ (Nat.zero_add _) ha

theorem node_grown {z : Zones} (h : Grown s t dir z) : t.node = s.node := by
  rw [h.eq]
  rfl

/-- The entries of the directory then, in places. -/
theorem Slot.entryAt {z : Zones} (h : Slot s t dir i z) (hd : s.Directory dir)
    (hname : IsName name) {j : ℕ} (hj : j < (s.node dir).size / 16 ∨ j = i) :
    (s.filled t dir i num name).entryAt dir j =
      if j = i then ⟨num, name.take nameLen⟩ else s.entryAt dir j := by
  have hsmall : j / dirEntriesPerBlock < Zones.maxBlock := hj.elim (hd.small j) (· ▸ h.small)
  rw [entryAt_filled h hname hsmall]
  by_cases hji : j = i
  · rw [if_pos hji, if_pos hji]
  · rw [if_neg hji, if_neg hji]
    exact (h.grown.entryAt hsmall (hd.blocks j (hj.resolve_right hji))).2

theorem Slot.size {z : Zones} (h : Slot s t dir i z) :
    ((s.filled t dir i num name).node dir).size =
      if i < (s.node dir).size / 16 then (s.node dir).size else (i + 1) * 16 := by
  rw [size_filled, node_grown h.grown]

/-- The size grows by one entry if there is a new one. -/
theorem Slot.entries_length {z : Zones} (h : Slot s t dir i z) :
    ((s.filled t dir i num name).node dir).size / 16 =
      if i < (s.node dir).size / 16 then (s.node dir).size / 16 else i + 1 := by
  rw [h.size]
  split
  · rfl
  · omega

/-- The directory stays one. -/
theorem Slot.directory {z : Zones} (h : Slot s t dir i z) (hd : s.Directory dir) :
    (s.filled t dir i num name).Directory dir := by
  have hold : ∀ j < ((s.filled t dir i num name).node dir).size / 16,
      j < (s.node dir).size / 16 ∨ j = i := by
    intro j hj
    have hle := h.le
    rw [h.entries_length] at hj
    split at hj
    · exact .inl hj
    · omega
  have hsmall : ∀ j < ((s.filled t dir i num name).node dir).size / 16,
      j / dirEntriesPerBlock < Zones.maxBlock := fun j hj =>
    (hold j hj).elim (hd.small j) (· ▸ h.small)
  refine ⟨?_, ?_, hsmall, fun j hj => ?_⟩
  · rw [zones_filled, blockOf]
    refine Zones.Owned.store ?_ h.small _
    rw [h.grown.zones]
    exact h.grown.grows.fills.owned
  · rw [h.size]
    split
    · exact hd.size
    · exact Nat.dvd_mul_left 16 (i + 1)
  · rw [blockOf_filled h (hsmall j hj)]
    rcases hold j hj with hj | rfl
    · rw [(h.grown.entryAt (hd.small j hj) (hd.blocks j hj)).1]
      exact hd.blocks j hj
    · exact h.block

/-- The entries then are the list with the new one filled in. -/
theorem Slot.entries {z : Zones} (h : Slot s t dir i z) (hd : s.Directory dir)
    (hname : IsName name) : (s.filled t dir i num name).entries dir =
      fill ⟨num, name.take nameLen⟩ (s.entries dir) := by
  have hle := h.le
  have hlen : (s.entries dir).length = (s.node dir).size / 16 := by
    rw [Volumes.entries, List.length_map, List.length_range]
  have hget : ∀ j (hj : j < (s.entries dir).length), (s.entries dir)[j] = s.entryAt dir j := by
    intro j hj
    simp only [Volumes.entries, List.getElem_map, List.getElem_range]
  rw [fill_eq (i := i) (by rw [hlen]; exact h.le)
    (fun j hj hji => by rw [hget]; exact h.before j hji)
    fun hi => by rw [hget]; exact h.free (hlen ▸ hi)]
  rw [Volumes.entries, h.entries_length]
  refine List.ext_getElem ?_ fun j hj hj' => ?_
  · rw [List.length_map, List.length_range, List.length_append, List.length_cons,
      List.length_take, List.length_drop, hlen]
    split <;> omega
  · have hj₁ : j < (s.node dir).size / 16 ∨ j = i := by
      rw [List.length_map, List.length_range] at hj
      split at hj
      · exact .inl hj
      · omega
    have hlenTake : ((s.entries dir).take i).length = i := by
      rw [List.length_take, hlen, Nat.min_eq_left h.le]
    rw [List.getElem_map, List.getElem_range, h.entryAt hd hname hj₁, List.getElem_append]
    by_cases hji : j < i
    · rw [if_neg (by omega), dif_pos (by rwa [hlenTake]), List.getElem_take, hget]
    · rw [dif_neg (by rwa [hlenTake])]
      by_cases heq : j = i
      · simp only [heq, if_pos, hlenTake, Nat.sub_self, List.getElem_cons_zero]
      · have hsub : j - ((s.entries dir).take i).length = j - i - 1 + 1 := by
          rw [hlenTake]
          omega
        simp only [if_neg heq, hsub, List.getElem_cons_succ, List.getElem_drop]
        rw [hget, show i + 1 + (j - i - 1) = j by omega]

/-! ### Other directories -/

theorem zones_filled_ne {z : Zones} (h : Slot s t dir i z) {dev : ℕ} (hdev : dev ≠ dir.1) :
    (s.filled t dir i num name).zones dev = s.zones dev := by
  have ht : t.zones dev = s.zones dev := by
    rw [h.grown.eq]
    exact Function.update_of_ne hdev _ _
  rw [filled, setEntry_eq, ← ht]
  split
  · exact Function.update_of_ne hdev _ _
  · exact Function.update_of_ne hdev _ _

/-- The blocks that the directory had can be read if those can that it has now. -/
theorem Slot.readable {z : Zones} (h : Slot s t dir i z)
    (hr : (s.filled t dir i num name).Readable ok dir) : s.Readable ok dir := by
  intro ks hks hne
  have howned : z.Owned := h.grown.grows.fills.owned
  have hsame : ((s.filled t dir i num name).zones dir.1).named dir.2 ks =
      (s.zones dir.1).named dir.2 ks := by
    rw [zones_filled, blockOf, h.grown.zones, Zones.named_store howned h.small hks]
    exact h.grown.grows.fills.keeps _ _ hks hne
  rw [← hsame] at hne ⊢
  exact hr ks hks hne

theorem bmap_eq (s : Volumes) (d : InodeId) (k : ℕ) : (s.disks ok).bmap d k =
    if k < Zones.maxBlock then (s.zones d.1).walk (ok d.1) d.2 none (Zones.path k) else 0 := by
  show ((s.zones d.1).bmap (ok d.1) d.2 k).getD 0 = _
  rw [Zones.bmap]
  split
  · rw [Zones.bmapFrom_false, Option.getD_some]
  · rfl

/-- The blocks of a file are where they were, and as they were. -/
def Same (s s' : Volumes) (ok : ℕ → ℕ → Bool) (d : InodeId) : Prop :=
  ∀ k, (s'.disks ok).bmap d k = (s.disks ok).bmap d k ∧
    ((s.disks ok).bmap d k ≠ 0 →
      (s'.zones d.1).data ((s.disks ok).bmap d k) = (s.zones d.1).data ((s.disks ok).bmap d k))

theorem Same.trans {s₁ : Volumes} {d : InodeId} (h : Same s s₁ ok d) (h₁ : Same s₁ s' ok d) :
    Same s s' ok d := by
  intro k
  obtain ⟨hbmap, hdata⟩ := h k
  obtain ⟨hbmap₁, hdata₁⟩ := h₁ k
  rw [hbmap] at hbmap₁ hdata₁
  exact ⟨hbmap₁, fun hne => (hdata₁ hne).trans (hdata hne)⟩

theorem Same.entry {d : InodeId} (h : Same s s' ok d) {k : ℕ} {b : ℕ × ℕ}
    (hb : (s.disks ok).dirBuf d ((s.disks ok).bmap d k) = some b) :
    (s'.disks ok).dirBuf d ((s'.disks ok).bmap d k) = some b ∧
      (s'.zones b.1).data b.2 = (s.zones b.1).data b.2 := by
  rw [Disks.dirBuf] at hb
  split at hb
  case isTrue => cases hb
  case isFalse hne =>
    obtain rfl := Option.some.inj hb
    refine ⟨?_, (h k).2 fun hz => hne (.inl hz)⟩
    rw [(h k).1, Disks.dirBuf]
    exact if_neg hne

/-- Another directory than the one that has grown. -/
theorem Slot.same {z : Zones} (h : Slot s t dir i z) {d : InodeId} (hd : d ≠ dir) :
    Same s (s.filled t dir i num name) ok d := by
  intro k
  rw [bmap_eq, bmap_eq]
  by_cases hk : k < Zones.maxBlock
  swap
  · rw [if_neg hk, if_neg hk]
    exact ⟨rfl, fun hne => absurd rfl hne⟩
  rw [if_pos hk, if_pos hk]
  by_cases hdev : d.1 = dir.1
  swap
  · rw [zones_filled_ne h hdev]
    exact ⟨rfl, fun _ => rfl⟩
  have hnum : d.2 ≠ dir.2 := fun heq => hd (Prod.ext hdev heq)
  have howned : z.Owned := h.grown.grows.fills.owned
  have hpath := Zones.isPath_path hk
  have hz : (s.filled t dir i num name).zones d.1 = z.store (t.blockOf dir i)
      (withEntry (z.data (t.blockOf dir i)) (i % dirEntriesPerBlock) num name) := by
    rw [hdev, zones_filled, h.grown.zones]
  have hblock : t.blockOf dir i = z.named dir.2 (Zones.path (i / dirEntriesPerBlock)) := by
    rw [blockOf, h.grown.zones]
  have hwalk : ((s.filled t dir i num name).zones d.1).walk (ok d.1) d.2 none (Zones.path k) =
      (s.zones d.1).walk (ok d.1) d.2 none (Zones.path k) := by
    rw [hz, hblock, Zones.store, Zones.walk_leaf howned h.small hpath, hdev]
    exact h.grown.grows.fills.frame _ _ _ hpath hnum
  refine ⟨hwalk, fun hne => ?_⟩
  have hnamed := Zones.walk_eq_named hpath.ne_nil hne
  rw [hnamed] at hne ⊢
  rw [hdev] at hne
  have hkeep := h.grown.grows.fills.keeps _ _ hpath hne
  have hdata := h.grown.grows.data _ _ hk hne
  -- the blocks of two directories are different
  have hdiff : (s.zones dir.1).named d.2 (Zones.path k) ≠ t.blockOf dir i := by
    rw [hblock, ← hkeep]
    intro heq
    exact hnum (howned.distinct _ _ _ _ hpath (Zones.isPath_path h.small) (hkeep ▸ hne) heq).1
  rw [hz, hdev, Zones.store_data_ne _ _ hdiff, hdata]

theorem disks_filled {z : Zones} (h : Slot s t dir i z) :
    ((s.filled t dir i num name).disks ok).imount = s.imount ∧
      ((s.filled t dir i num name).disks ok).readable = ok := by
  have ht : t.imount = s.imount := by
    rw [h.grown.eq]
    rfl
  rw [filled, setEntry_eq]
  split
  · exact ⟨ht, rfl⟩
  · exact ⟨ht, rfl⟩

theorem exchange_filled {z : Zones} (h : Slot s t dir i z) (cur : Current) (d : InodeId)
    (other : Name) : ((s.filled t dir i num name).disks ok).exchange cur d other =
      (s.disks ok).exchange cur d other := by
  rw [Disks.exchange, Disks.exchange, (disks_filled h).1]
  rfl

theorem entries_le {z : Zones} (h : Slot s t dir i z) :
    (s.disks ok).entries dir ≤ ((s.filled t dir i num name).disks ok).entries dir := by
  show (s.node dir).size / 16 ≤ ((s.filled t dir i num name).node dir).size / 16
  have := h.le
  rw [h.entries_length]
  split <;> omega

/-- What is found in the directory that `..` leads to is found still. -/
theorem find_other {z : Zones} (h : Slot s t dir i z) {other key : Name} {d : InodeId}
    (hex : (s.disks ok).exchange cur dir other = (d, key)) (hd : d ≠ dir) {b : ℕ × ℕ}
    {de : DirEntry} (hf : (s.disks ok).find cur dir other = .ok (d, some (b, de))) :
    ∃ b', ((s.filled t dir i num name).disks ok).find cur dir other = .ok (d, some (b', de)) := by
  refine Disks.find_mono hex ((exchange_filled h cur dir other).trans hex) (entries_le h)
    (fun j b _ _ hb => ?_) hf
  obtain ⟨hb', hdata⟩ := (h.same hd).entry hb
  exact ⟨b, hb', .inl (dirEntry_data hdata)⟩

end Volumes

open Volumes in
/-- **A directory is a map**: `add_entry` fills in the first free entry, or a new one at the end,
where `i_size` grows by 16, so that nothing behind `i_size` becomes an entry.  A name that was
not found is then found with the new number; what is looked up under another name in the
directory is as before, but that the empty name stands for `.`; and what `..` has found in
another directory it finds there. -/
theorem directory_map {s s' : Volumes} {o : Outside} {dir : InodeId} {num : ℕ} {name : Name}
    (hd : s.Directory dir) (hname : IsName name) (hnum : num ≠ 0)
    (ha : s.addName o dir num name = .ok (true, s')) :
    s'.Directory dir ∧ s'.entries dir = fill ⟨num, name.take nameLen⟩ (s.entries dir) ∧
    (s'.node dir).size = (s.node dir).size +
      (if (s.entries dir).any (fun de => de.inode == 0) then 0 else 16) ∧
    ∀ (cur : Current) (o' : Outside), s'.Readable (o'.ok 2) dir →
      ((s.disks (o'.ok 2)).exchange cur dir name = (dir, name.take nameLen) →
        s.findEntry cur o' dir name = .ok (dir, none) →
        s'.findEntry cur o' dir name = .ok (dir, some ⟨num, name.take nameLen⟩)) ∧
      ∀ other d key, (s.disks (o'.ok 2)).exchange cur dir other = (d, key) →
        (d = dir → key ≠ name.take nameLen → ¬ (key = [] ∧ name.take nameLen = ['.']) →
          s'.findEntry cur o' dir other = s.findEntry cur o' dir other) ∧
        (d ≠ dir → ∀ de, s.findEntry cur o' dir other = .ok (d, some de) →
          s'.findEntry cur o' dir other = .ok (d, some de)) := by
  obtain ⟨i, t, z, h, rfl⟩ := addName_slot hd ha
  have hd' : (s.filled t dir i num name).Directory dir := h.directory hd
  have hentries : (s.filled t dir i num name).entries dir =
      fill ⟨num, name.take nameLen⟩ (s.entries dir) := h.entries hd hname
  refine ⟨hd', hentries, ?_, fun cur o' hr => ⟨fun hex hf => ?_, fun other d key hex =>
    ⟨?_, fun hne de hf => ?_⟩⟩⟩
  · rw [h.size]
    by_cases hi : i < (s.node dir).size / 16
    · have hany : (s.entries dir).any (fun de => de.inode == 0) = true := by
        rw [List.any_eq_true]
        exact ⟨s.entryAt dir i, List.mem_map.mpr ⟨i, List.mem_range.mpr hi, rfl⟩,
          beq_iff_eq.mpr (h.free hi)⟩
      rw [if_pos hi, if_pos hany]
      rfl
    · have hany : ¬ (s.entries dir).any (fun de => de.inode == 0) = true := by
        rw [List.any_eq_true]
        rintro ⟨de, hde, hzero⟩
        obtain ⟨j, hj, rfl⟩ := List.mem_map.mp hde
        have hlt := List.mem_range.mp hj
        exact h.before j (by omega) (beq_iff_eq.mp hzero)
      rw [if_neg hi, if_neg hany]
      have hle := h.le
      have hdvd := hd.size
      omega
  · rw [findEntry_eq hd (h.readable hr) hex] at hf
    have hnone := (Prod.mk.inj (Except.ok.inj hf)).2
    rw [findEntry_eq hd' hr ((exchange_filled h cur dir name).trans hex), hentries,
      find?_fill hnone]
    rw [nameMatches, bne_iff_ne.mpr hnum, beq_self_eq_true, Bool.or_true]
    rfl
  · rintro rfl hkey hdot
    have hnot : nameMatches key ⟨num, name.take nameLen⟩ = false := by
      rw [nameMatches, beq_eq_false_iff_ne.mpr hkey, Bool.or_false, Bool.and_eq_false_iff]
      refine .inr ?_
      rw [Bool.and_eq_false_iff]
      by_contra hcon
      rw [not_or, Bool.not_eq_false, Bool.not_eq_false, beq_iff_eq, beq_iff_eq] at hcon
      exact hdot hcon
    rw [findEntry_eq hd (h.readable hr) hex,
      findEntry_eq hd' hr ((exchange_filled h cur d other).trans hex), hentries,
      find?_fill_of_not hnot]
  · rw [Volumes.findEntry] at hf ⊢
    cases hfind : (s.disks (o'.ok 2)).find cur dir other with
    | error c =>
      rw [hfind] at hf
      cases hf
    | ok r =>
      obtain ⟨d', found⟩ := r
      rw [hfind] at hf
      obtain ⟨rfl, hfound⟩ := Prod.mk.inj (Except.ok.inj hf)
      obtain ⟨⟨b, de⟩, rfl, rfl⟩ := Option.map_eq_some_iff.mp hfound
      obtain ⟨b', hf'⟩ := find_other h hex hne hfind
      rw [hf']
      rfl

/-! ### Small directories -/

namespace Volumes

theorem rootOnly_directory : rootOnly.Directory (1, 1) where
  owned := rootOnly_inOrder.owned 1
  size := by decide
  small j hj := by
    have hlt : j < 2 := hj
    simp only [dirEntriesPerBlock, Zones.maxBlock]
    omega
  blocks j hj := by
    have hlt : j < 2 := hj
    have hpath : j / dirEntriesPerBlock = 0 := by
      simp only [dirEntriesPerBlock]
      omega
    rw [blockOf, hpath]
    decide

/-- The root directory with a size that is no multiple of 16, and without the entry `.`. -/
def oddSize : Volumes := rootOnly.setNode (1, 1) fun n => { n with size := 24 }
def noDot : Volumes := rootOnly.setEntry 1 5 0 0 []

/-- The name has been added, and `find_entry` answers `found` for `other`. -/
def addsAndFinds (s : Volumes) (name other : Name) (found : Option DirEntry) (size : ℕ) : Bool :=
  (s.addName noRead (1, 1) 7 name).toOption.any fun r =>
    r.1 && (r.2.findEntry user noRead (1, 1) other).toOption == some ((1, 1), found) &&
      (r.2.node (1, 1)).size == size

theorem addsAndFinds_iff {s : Volumes} {name other : Name} {found : Option DirEntry} {size : ℕ}
    (h : s.addsAndFinds name other found size = true) :
    ∃ s', s.addName noRead (1, 1) 7 name = .ok (true, s') ∧
      s'.findEntry user noRead (1, 1) other = .ok ((1, 1), found) ∧
      (s'.node (1, 1)).size = size := by
  obtain ⟨⟨added, s'⟩, hr, hp⟩ := (Option.any_eq_true _ _).mp h
  rw [Bool.and_eq_true, Bool.and_eq_true, beq_iff_eq, beq_iff_eq] at hp
  obtain ⟨⟨rfl, hfind⟩, hsize⟩ := hp
  refine ⟨s', ?_, ?_, hsize⟩
  · cases ha : s.addName noRead (1, 1) 7 name with
    | error c =>
      rw [ha] at hr
      cases hr
    | ok r =>
      rw [ha] at hr
      rw [Option.some.inj hr]
  · cases hf : s'.findEntry user noRead (1, 1) other with
    | error c =>
      rw [hf] at hfind
      cases hfind
    | ok r =>
      rw [hf] at hfind
      rw [Option.some.inj hfind]

end Volumes

open Volumes in
/-- A file is found under its name. -/
theorem directory_map_root : ∃ s', rootOnly.addName noRead (1, 1) 7 ['a'] = .ok (true, s') ∧
    s'.findEntry user noRead (1, 1) ['a'] = .ok ((1, 1), some ⟨7, ['a']⟩) ∧
    (s'.node (1, 1)).size = 48 := by
  obtain ⟨s', ha, -, -⟩ := addsAndFinds_iff
    (show rootOnly.addsAndFinds ['a'] ['.', '.'] (some ⟨1, ['.']⟩) 48 = true by decide +kernel)
  have hname : IsName ['a'] := isName_replicate (n := 1) (by decide)
  obtain ⟨-, -, hsize, hmap⟩ := directory_map rootOnly_directory hname (by decide) ha
  have hfree : (rootOnly.entries (1, 1)).any (fun de => de.inode == 0) = false := by
    decide +kernel
  rw [hfree] at hsize
  have hnone : (rootOnly.findEntry user noRead (1, 1) ['a']).toOption = some ((1, 1), none) := by
    decide +kernel
  refine ⟨s', ha, (hmap user noRead fun _ _ _ => rfl).1 rfl ?_, hsize⟩
  cases hf : rootOnly.findEntry user noRead (1, 1) ['a'] with
  | error c =>
    rw [hf] at hnone
    cases hnone
  | ok r =>
    rw [hf] at hnone
    rw [Option.some.inj hnone]

open Volumes in
/-- A name that is in the directory finds the old entry; a directory of 24 bytes grows by 24;
and `.` is found under the empty name. -/
theorem directory_map_not :
    (∃ s', rootOnly.addName noRead (1, 1) 7 ['.'] = .ok (true, s') ∧
      s'.findEntry user noRead (1, 1) ['.'] = .ok ((1, 1), some ⟨1, ['.']⟩)) ∧
    (∃ s', oddSize.addName noRead (1, 1) 7 ['a'] = .ok (true, s') ∧
      (s'.node (1, 1)).size = 48) ∧
    (noDot.findEntry user noRead (1, 1) []).toOption = some ((1, 1), none) ∧
    ∃ s', noDot.addName noRead (1, 1) 7 ['.'] = .ok (true, s') ∧
      s'.findEntry user noRead (1, 1) [] = .ok ((1, 1), some ⟨7, ['.']⟩) := by
  refine ⟨?_, ?_, by decide +kernel, ?_⟩
  · obtain ⟨s', ha, hf, -⟩ := addsAndFinds_iff (show
      rootOnly.addsAndFinds ['.'] ['.'] (some ⟨1, ['.']⟩) 48 = true by decide +kernel)
    exact ⟨s', ha, hf⟩
  · obtain ⟨s', ha, -, hsize⟩ := addsAndFinds_iff (show
      oddSize.addsAndFinds ['a'] ['a'] (some ⟨7, ['a']⟩) 48 = true by decide +kernel)
    exact ⟨s', ha, hsize⟩
  · obtain ⟨s', ha, hf, -⟩ := addsAndFinds_iff (show
      noDot.addsAndFinds ['.'] [] (some ⟨7, ['.']⟩) 32 = true by decide +kernel)
    exact ⟨s', ha, hf⟩

end Fs
