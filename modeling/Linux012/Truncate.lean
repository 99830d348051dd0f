/-
Freeing the blocks of a file (fs/truncate.c, with `free_block` of fs/bitmap.c).

* `Truncation` — the zones, the fields of the inode, and which blocks have been freed;
* `freeBlock`, `freeTable`, `freeRound`, `truncate` — the functions, with blocks that are in
  use or cannot be read for a while;
* `Zones.tree` — the blocks that an inode names, each as often as it is named;
* `Frees` — what a function that frees a block does to the blocks below it, and
  `freePlaces_spec`, `freeTable_frees`, which lead from one level to the next;
* `truncate_frees` — a truncation that ends has freed each block of the tree once if and only
  if no indirect block with entries was freed without being read;
* `truncate_leaks` — a file for which it was.

Design notes: in a round no block is read or freed twice, so that a round has one answer for
each block.  `none` is a panic, or a buffer of the bitmap that is not there; a result with
`true` is a truncation that has not come to its end.
-/
import Linux012.Zones
import Mathlib.Algebra.BigOperators.Group.List.Basic
import Mathlib.Data.Multiset.OrderedMonoid
import Mathlib.Tactic.Abel
import Mathlib.Tactic.Tauto

namespace Fs

open Function (update)

/-- A truncation of an inode. -/
structure Truncation where
  zones : Zones
  size : ℕ
  dirt : Bool
  mtime : ℕ
  ctime : ℕ
  /-- the blocks whose bits have been cleared -/
  freed : List ℕ

/-- What is found in one round. -/
structure Round where
  /-- `b_count` is more than 1 -/
  busy : ℕ → Bool
  /-- `bread` gives a buffer -/
  readable : ℕ → Bool
  /-- `CURRENT_TIME` -/
  time : ℕ

namespace Zones

/-- The buffer of the bitmap and the bit of a block. -/
def place (s : Zones) (n : ℕ) : ℕ × ℕ :=
  ((n + 1 - s.firstDataZone) / bitsPerBlock, (n + 1 - s.firstDataZone) % bitsPerBlock)

/-- `clear_bit`. -/
def clearBit (s : Zones) (m j : ℕ) : Zones :=
  { s with zmap := update s.zmap m ((s.zmap m).map fun bits => update bits j false) }

end Zones

namespace Truncation

/-- The bit of a block is cleared. -/
def release (t : Truncation) (n : ℕ) : Truncation :=
  { t with
    zones := t.zones.clearBit (t.zones.place n).1 (t.zones.place n).2
    freed := n :: t.freed }

/-- `free_block`. -/
def freeBlock (p : Round) (n : ℕ) (t : Truncation) : Option (Bool × Truncation) :=
  if n < t.zones.firstDataZone ∨ t.zones.nZones ≤ n then none
  else if p.busy n then some (false, t)
  else if (t.zones.zmap (t.zones.place n).1).isSome then some (true, t.release n)
  else none

/-- The store of 0 to a place. -/
def clearPlace (t : Truncation) (i : ℕ) (here : Option ℕ) (k : ℕ) : Truncation :=
  { t with zones := t.zones.setValue i here k 0 }

/-- A loop over places from `k` on, each of which is freed if it is not 0; `busy` is
`block_busy`. -/
def freePlaces (free : ℕ → Truncation → Option (Bool × Truncation)) (i : ℕ) (here : Option ℕ) :
    ℕ → ℕ → Bool → Truncation → Option (Bool × Truncation)
  | 0, _, busy, t => some (busy, t)
  | m + 1, k, busy, t =>
    if t.zones.value i here k = 0 then freePlaces free i here m (k + 1) busy t
    else match free (t.zones.value i here k) t with
      | none => none
      | some (true, t) => freePlaces free i here m (k + 1) busy (t.clearPlace i here k)
      | some (false, t) => freePlaces free i here m (k + 1) true t

/-- `free_ind` and `free_dind`; `free` is what they free the entries with. -/
def freeTable (p : Round) (i : ℕ) (free : ℕ → Truncation → Option (Bool × Truncation))
    (block : ℕ) (t : Truncation) : Option (Bool × Truncation) :=
  if block = 0 then some (true, t)
  else
    match if p.readable block then freePlaces free i (some block) 512 0 false t
      else some (false, t) with
    | none => none
    | some (true, t) => some (false, t)
    | some (false, t) => t.freeBlock p block

/-- `free_ind`. -/
def freeInd (p : Round) (i : ℕ) : ℕ → Truncation → Option (Bool × Truncation) :=
  freeTable p i (freeBlock p)

/-- `free_dind`. -/
def freeDind (p : Round) (i : ℕ) : ℕ → Truncation → Option (Bool × Truncation) :=
  freeTable p i (freeInd p i)

/-- `i_zone[7]` and `i_zone[8]`. -/
def freeZone (free : ℕ → Truncation → Option (Bool × Truncation)) (i k : ℕ) (busy : Bool)
    (t : Truncation) : Option (Bool × Truncation) :=
  match free (t.zones.zone i k) t with
  | none => none
  | some (true, t) => some (busy, t.clearPlace i none k)
  | some (false, t) => some (true, t)

/-- `truncate` from `repeat` to the test of `block_busy`. -/
def freeRound (p : Round) (i : ℕ) (t : Truncation) : Option (Bool × Truncation) :=
  match freePlaces (freeBlock p) i none 7 0 false t with
  | none => none
  | some (busy, t) =>
    match freeZone (freeInd p i) i 7 busy t with
    | none => none
    | some (busy, t) =>
      (freeZone (freeDind p i) i 8 busy t).map fun (busy, t) => (busy, { t with dirt := true })

/-- `S_ISREG`, `S_ISDIR` or `S_ISLNK`. -/
def hasBlocks (mode : ℕ) : Bool :=
  mode &&& 0o170000 == 0o100000 || mode &&& 0o170000 == 0o040000 || mode &&& 0o170000 == 0o120000

/-- `truncate` after `n` rounds: whether it goes on, and the state. -/
def truncate (p : ℕ → Round) (i mode : ℕ) (t : Truncation) : ℕ → Option (Bool × Truncation)
  | 0 => some (hasBlocks mode, t)
  | n + 1 =>
    match truncate p i mode t n with
    | none => none
    | some (false, t) => some (false, t)
    | some (true, t) =>
      match freeRound (p n) i t with
      | none => none
      | some (true, t) => some (true, t)
      | some (false, t) =>
        some (false, { t with size := 0, mtime := (p n).time, ctime := (p n).time })

end Truncation

/-! ### The tree of an inode -/

/-- The sum over the places from `k` on. -/
def span (f : ℕ → Multiset ℕ) (k m : ℕ) : Multiset ℕ := ((List.range' k m).map f).sum

namespace Zones

/-- The blocks at and below block `v`, where `d` is the number of levels below. -/
def blocks (s : Zones) : ℕ → ℕ → Multiset ℕ
  | 0, v => if v = 0 then 0 else {v}
  | d + 1, v => if v = 0 then 0 else {v} + span (fun k => s.blocks d (s.data v k)) 0 512

/-- The blocks that inode `i` names. -/
@[irreducible] def tree (s : Zones) (i : ℕ) : Multiset ℕ :=
  span (fun k => s.blocks 0 (s.zone i k)) 0 7 + s.blocks 1 (s.zone i 7) + s.blocks 2 (s.zone i 8)

/-- The blocks of the tree are distinct, in the data zone, and marked. -/
structure WellFormed (s : Zones) (i : ℕ) : Prop where
  distinct : (s.tree i).Nodup
  inZone : ∀ n ∈ s.tree i, s.firstDataZone ≤ n ∧ n < s.nZones
  marked : ∀ n ∈ s.tree i, s.Marked n

/-- An indirect block that is come to and cannot be read is not freed, or has no entries. -/
def Careful (s : Zones) (p : Round) : ℕ → ℕ → Prop
  | 0, _ => True
  | d + 1, v => v ≠ 0 →
    if p.readable v then ∀ k < 512, s.Careful p d (s.data v k)
    else p.busy v = true ∨ ∀ k < 512, s.data v k = 0

/-- The same of a round for inode `i`. -/
def CarefulRound (s : Zones) (p : Round) (i : ℕ) : Prop :=
  s.Careful p 1 (s.zone i 7) ∧ s.Careful p 2 (s.zone i 8)

end Zones

namespace Truncation

/-- The size and all zones are 0, each block that the inode named has been freed once, and no
bit has changed but that of these blocks. -/
structure Truncated (s : Zones) (i : ℕ) (t : Truncation) : Prop where
  size : t.size = 0
  zones : ∀ k < 9, t.zones.zone i k = 0
  once : (t.freed : Multiset ℕ) = s.tree i
  bits : ∀ m j, t.zones.Bit m j ↔ s.Bit m j ∧ ∀ n ∈ s.tree i, s.place n ≠ (m, j)

end Truncation

/-! ### Sums over places -/

section span

variable {f g : ℕ → Multiset ℕ} {k m j n : ℕ}

@[simp] theorem span_zero : span f k 0 = 0 := rfl

theorem span_succ : span f k (m + 1) = f k + span f (k + 1) m := by
  rw [span, List.range'_succ, List.map_cons, List.sum_cons, span]

theorem span_one : span f k 1 = f k := by rw [span_succ, span_zero, add_zero]

theorem mem_span : n ∈ span f k m ↔ ∃ j, k ≤ j ∧ j < k + m ∧ n ∈ f j := by
  induction m generalizing k with
  | zero => exact ⟨fun h => absurd h (Multiset.notMem_zero n), fun ⟨j, hle, hlt, _⟩ => by omega⟩
  | succ m ih =>
    rw [span_succ, Multiset.mem_add, ih]
    constructor
    · rintro (hn | ⟨j, hle, hlt, hn⟩)
      · exact ⟨k, le_rfl, by omega, hn⟩
      · exact ⟨j, by omega, by omega, hn⟩
    · rintro ⟨j, hle, hlt, hn⟩
      rcases Nat.eq_or_lt_of_le hle with rfl | hlt'
      · exact .inl hn
      · exact .inr ⟨j, hlt', by omega, hn⟩

theorem span_congr (h : ∀ j, k ≤ j → j < k + m → f j = g j) : span f k m = span g k m := by
  induction m generalizing k with
  | zero => rfl
  | succ m ih =>
    rw [span_succ, span_succ, h k le_rfl (by omega)]
    rw [ih fun j hle hlt => h j (by omega) (by omega)]

theorem span_eq_zero : span f k m = 0 ↔ ∀ j, k ≤ j → j < k + m → f j = 0 := by
  simp only [Multiset.eq_zero_iff_forall_notMem, mem_span]
  constructor
  · exact fun h j hle hlt n hn => h n ⟨j, hle, hlt, hn⟩
  · exact fun h n ⟨j, hle, hlt, hn⟩ => h j hle hlt n hn

end span

/-! ### Blocks and what they rest on -/

namespace Zones

variable {s s' : Zones} {p : Round} {d v n m j : ℕ}

@[simp] theorem blocks_zero : s.blocks d 0 = 0 := by
  cases d <;> rw [blocks, if_pos rfl]

theorem blocks_succ (hv : v ≠ 0) :
    s.blocks (d + 1) v = {v} + span (fun k => s.blocks d (s.data v k)) 0 512 := by
  rw [blocks, if_neg hv]

theorem mem_blocks (hv : v ≠ 0) : v ∈ s.blocks d v := by
  cases d with
  | zero =>
    rw [blocks, if_neg hv]
    exact Multiset.mem_singleton_self v
  | succ d =>
    rw [blocks_succ hv]
    exact Multiset.mem_add.mpr (.inl (Multiset.mem_singleton_self v))

theorem blocks_eq_zero : s.blocks d v = 0 ↔ v = 0 := by
  constructor
  · intro h
    by_contra hv
    have hmem := mem_blocks (s := s) (d := d) hv
    rw [h] at hmem
    exact Multiset.notMem_zero v hmem
  · rintro rfl
    exact blocks_zero

/-- The blocks below a block depend on what is in them only. -/
theorem blocks_congr (h : ∀ n ∈ s.blocks d v, s'.data n = s.data n) :
    s'.blocks d v = s.blocks d v := by
  induction d generalizing v with
  | zero => rfl
  | succ d ih =>
    by_cases hv : v = 0
    · rw [hv, blocks_zero, blocks_zero]
    · have hhere : s'.data v = s.data v := h v (mem_blocks hv)
      rw [blocks_succ hv, blocks_succ hv, hhere]
      refine congrArg (fun b => {v} + b) (span_congr fun k hle hlt => ih fun n hn => h n ?_)
      rw [blocks_succ hv]
      exact Multiset.mem_add.mpr (.inr (mem_span.mpr ⟨k, hle, hlt, hn⟩))

theorem careful_congr (h : ∀ n ∈ s.blocks d v, s'.data n = s.data n) :
    s'.Careful p d v ↔ s.Careful p d v := by
  induction d generalizing v with
  | zero => exact Iff.rfl
  | succ d ih =>
    rw [Careful, Careful]
    refine imp_congr_right fun hv => ?_
    have hhere : s'.data v = s.data v := h v (mem_blocks hv)
    rw [hhere]
    split
    case isTrue =>
      refine forall_congr' fun k => imp_congr_right fun hk => ih fun n hn => h n ?_
      rw [blocks_succ hv]
      exact Multiset.mem_add.mpr (.inr (mem_span.mpr ⟨k, Nat.zero_le k, by omega, hn⟩))
    case isFalse => exact Iff.rfl

theorem careful_zero : s.Careful p d 0 := by
  cases d with
  | zero => trivial
  | succ d => exact fun h => absurd rfl h

/-- Block `n` can be freed. -/
def Freeable (s : Zones) (n : ℕ) : Prop :=
  s.firstDataZone ≤ n ∧ n < s.nZones ∧ (s.zmap (s.place n).1).isSome

theorem clearBit_bit {m₀ j₀ : ℕ} :
    (s.clearBit m₀ j₀).Bit m j ↔ s.Bit m j ∧ (m₀, j₀) ≠ (m, j) := by
  rw [Bit, Bit, clearBit]
  by_cases hm : m = m₀
  · subst hm
    simp only [Function.update_self, Option.map_eq_some_iff, ne_eq, Prod.mk.injEq, true_and]
    constructor
    · rintro ⟨bits', ⟨bits, hbits, rfl⟩, hset⟩
      by_cases hj : j = j₀
      · rw [hj, Function.update_self] at hset
        cases hset
      · rw [Function.update_of_ne hj] at hset
        exact ⟨⟨bits, hbits, hset⟩, fun heq => hj heq.symm⟩
    · rintro ⟨⟨bits, hbits, hset⟩, hj⟩
      refine ⟨_, ⟨bits, hbits, rfl⟩, ?_⟩
      rw [Function.update_of_ne fun heq => hj heq.symm]
      exact hset
  · simp only [Function.update_of_ne hm]
    refine (and_iff_left ?_).symm
    intro heq
    exact hm (Prod.mk.inj heq).1.symm

theorem clearBit_buffer {m₀ j₀ : ℕ} :
    ((s.clearBit m₀ j₀).zmap m).isSome = (s.zmap m).isSome := by
  by_cases hm : m = m₀
  · simp only [clearBit, hm, Function.update_self, Option.isSome_map]
  · simp only [clearBit, Function.update_of_ne hm]

end Zones

namespace Truncation

open Zones

variable {p : Round} {t t' t₁ : Truncation} {B B₁ f f₁ : Multiset ℕ} {i k m j n d v : ℕ}
  {here : Option ℕ} {free : ℕ → Truncation → Option (Bool × Truncation)} {busy : Bool}

/-- From `t` to `t'` the blocks of `f` have been freed, and nothing but the blocks of `B` has
been stored to. -/
structure Effect (B f : Multiset ℕ) (t t' : Truncation) : Prop where
  freed : (t'.freed : Multiset ℕ) = t.freed + f
  data : ∀ n, n ∉ B → t'.zones.data n = t.zones.data n
  bits : ∀ m j, t'.zones.Bit m j ↔ t.zones.Bit m j ∧ ∀ n ∈ f, t.zones.place n ≠ (m, j)
  buffers : ∀ m, (t'.zones.zmap m).isSome = (t.zones.zmap m).isSome
  first : t'.zones.firstDataZone = t.zones.firstDataZone
  last : t'.zones.nZones = t.zones.nZones

theorem Effect.refl (B : Multiset ℕ) (t : Truncation) : Effect B 0 t t where
  freed := (add_zero _).symm
  data := fun _ _ => rfl
  bits := fun _ _ => (and_iff_left fun n hn => absurd hn (Multiset.notMem_zero n)).symm
  buffers := fun _ => rfl
  first := rfl
  last := rfl

theorem Effect.place (h : Effect B f t t') (n : ℕ) : t'.zones.place n = t.zones.place n := by
  rw [Zones.place, Zones.place, h.first]

theorem Effect.freeable (h : Effect B f t t') (hn : t.zones.Freeable n) :
    t'.zones.Freeable n := by
  obtain ⟨hfirst, hlast, hbuffer⟩ := hn
  refine ⟨h.first ▸ hfirst, h.last ▸ hlast, ?_⟩
  rw [h.place, h.buffers]
  exact hbuffer

theorem Effect.trans (h : Effect B f t t₁) (h' : Effect B₁ f₁ t₁ t') :
    Effect (B + B₁) (f + f₁) t t' where
  freed := by rw [h'.freed, h.freed, add_assoc]
  data := by
    intro n hn
    rw [Multiset.mem_add, not_or] at hn
    exact (h'.data n hn.2).trans (h.data n hn.1)
  bits := by
    intro m j
    rw [h'.bits, h.bits, and_assoc]
    refine and_congr_right fun _ => ?_
    simp only [h.place, Multiset.mem_add]
    constructor
    · rintro ⟨hf, hf₁⟩ n (hn | hn)
      · exact hf n hn
      · exact hf₁ n hn
    · exact fun hall => ⟨fun n hn => hall n (.inl hn), fun n hn => hall n (.inr hn)⟩
  buffers := fun m => (h'.buffers m).trans (h.buffers m)
  first := h'.first.trans h.first
  last := h'.last.trans h.last

theorem Effect.mono (h : Effect B f t t') (hB : ∀ n ∈ B, n ∈ B₁) : Effect B₁ f t t' :=
  { h with data := fun n hn => h.data n fun hmem => hn (hB n hmem) }

/-! ### One block -/

/-- The blocks at and below `v` are those that have been freed, those that are still there, and
those that are lost; none is lost if the round is careful. -/
structure Freed (p : Round) (d v : ℕ) (t : Truncation) (r : Bool) (t' : Truncation)
    (f lost : Multiset ℕ) : Prop where
  effect : Effect (t.zones.blocks d v) f t t'
  zone : t'.zones.zone = t.zones.zone
  split : t.zones.blocks d v = f + (if r then 0 else t'.zones.blocks d v) + lost
  careful : lost = 0 ↔ t.zones.Careful p d v

/-- A function that frees the blocks at and below a block. -/
def Frees (p : Round) (d : ℕ) (free : ℕ → Truncation → Option (Bool × Truncation)) : Prop :=
  ∀ v t, v ≠ 0 → (t.zones.blocks d v).Nodup → (∀ n ∈ t.zones.blocks d v, t.zones.Freeable n) →
    ∃ r t' f lost, free v t = some (r, t') ∧ Freed p d v t r t' f lost

theorem release_effect (t : Truncation) (n : ℕ) : Effect 0 {n} t (t.release n) where
  freed := by
    rw [add_comm]
    rfl
  data := fun _ _ => rfl
  bits := by
    intro m j
    rw [release, clearBit_bit]
    simp
  buffers := fun _ => clearBit_buffer
  first := rfl
  last := rfl

/-- A block that is in use stays, and another one is freed. -/
theorem freeBlock_eq (hn : t.zones.Freeable n) :
    t.freeBlock p n = if p.busy n then some (false, t) else some (true, t.release n) := by
  obtain ⟨hfirst, hlast, hbuffer⟩ := hn
  rw [freeBlock, if_neg (by omega), if_pos hbuffer]

theorem freeBlock_frees (p : Round) : Frees p 0 (freeBlock p) := by
  intro v t hv _ hfreeable
  have hblocks : ∀ s : Zones, s.blocks 0 v = {v} := fun s => by rw [blocks, if_neg hv]
  rw [freeBlock_eq (hfreeable v (mem_blocks hv))]
  split
  case isTrue =>
    refine ⟨false, t, 0, 0, rfl, .refl _ t, rfl, ?_, iff_of_true rfl trivial⟩
    rw [if_neg (by decide), add_zero, zero_add]
  case isFalse =>
    refine ⟨true, t.release v, {v}, 0, rfl, ?_, rfl, ?_, iff_of_true rfl trivial⟩
    · exact (release_effect t v).mono (by simp)
    · rw [hblocks, if_pos rfl, add_zero, add_zero]

/-! ### A loop -/

/-- The blocks at and below place `k`. -/
def below (t : Truncation) (d i : ℕ) (here : Option ℕ) (k : ℕ) : Multiset ℕ :=
  t.zones.blocks d (t.zones.value i here k)

/-- What a loop over the `m` places from `k` on leads to. -/
structure Looped (p : Round) (d i : ℕ) (here : Option ℕ) (m k : ℕ) (busy : Bool)
    (t : Truncation) (busy' : Bool) (t' : Truncation) (f lost : Multiset ℕ) : Prop where
  effect : Effect (span (t.below d i here) k m + here.elim 0 fun h => {h}) f t t'
  zone : here.isSome → t'.zones.zone = t.zones.zone
  value : ∀ j, j < k ∨ k + m ≤ j → t'.zones.value i here j = t.zones.value i here j
  split : span (t.below d i here) k m = f + span (t'.below d i here) k m + lost
  done : busy' = false →
    busy = false ∧ ∀ j, k ≤ j → j < k + m → t'.zones.value i here j = 0
  careful : lost = 0 ↔ ∀ j, k ≤ j → j < k + m → t.zones.Careful p d (t.zones.value i here j)

theorem value_clearPlace :
    (t.clearPlace i here k).zones.value i here j = if j = k then 0 else t.zones.value i here j := by
  rcases here with _ | h
  all_goals
    simp only [clearPlace, setValue, Zones.value, Function.update_self, Function.update_apply]

theorem clearPlace_effect (t : Truncation) (i : ℕ) (here : Option ℕ) (k : ℕ) :
    Effect (here.elim 0 fun h => {h}) 0 t (t.clearPlace i here k) := by
  obtain ⟨hfreed, hdata, hbits, hbuffers, hfirst, hlast⟩ := Effect.refl 0 t
  rcases here with _ | h
  · exact ⟨hfreed, fun _ _ => rfl, hbits, hbuffers, hfirst, hlast⟩
  · refine ⟨hfreed, fun n hn => ?_, hbits, hbuffers, hfirst, hlast⟩
    exact Function.update_of_ne (fun heq => hn (by simp [heq])) _ _

/-- The blocks that a loop over the places of `here` may store to, besides those below. -/
abbrev table (here : Option ℕ) : Multiset ℕ := here.elim 0 fun h => {h}

/-- What one turn of a loop leads to: a place that is 0 is passed over. -/
structure Turned (p : Round) (d i : ℕ) (here : Option ℕ) (k : ℕ) (t : Truncation) (r : Bool)
    (t' : Truncation) (f lost : Multiset ℕ) : Prop where
  effect : Effect (t.below d i here k + table here) f t t'
  zone : here.isSome → t'.zones.zone = t.zones.zone
  value : ∀ j, j ≠ k → t'.zones.value i here j = t.zones.value i here j
  split : t.below d i here k = f + t'.below d i here k + lost
  done : r = true → t'.zones.value i here k = 0
  careful : lost = 0 ↔ t.zones.Careful p d (t.zones.value i here k)

theorem value_congr (hzone : t'.zones.zone = t.zones.zone)
    (hdata : ∀ h, here = some h → t'.zones.data h = t.zones.data h) :
    t'.zones.value i here j = t.zones.value i here j := by
  rcases here with _ | h
  · rw [Zones.value, Zones.value, hzone]
  · rw [Zones.value, Zones.value, hdata h rfl]

theorem freePlaces_turn (hfree : Frees p d free) (hnodup : (t.below d i here k).Nodup)
    (hfreeable : ∀ n ∈ t.below d i here k, t.zones.Freeable n)
    (hhere : ∀ h, here = some h → h ∉ t.below d i here k) (m : ℕ) (busy : Bool) :
    ∃ r t' f lost, Turned p d i here k t r t' f lost ∧
      freePlaces free i here (m + 1) k busy t =
        freePlaces free i here m (k + 1) (if r then busy else true) t' := by
  by_cases hv : t.zones.value i here k = 0
  · have hbelow : t.below d i here k = 0 := blocks_eq_zero.mpr hv
    refine ⟨true, t, 0, 0, ⟨.refl _ t, fun _ => rfl, fun _ _ => rfl, ?_, fun _ => hv, ?_⟩, ?_⟩
    · rw [hbelow]
      rfl
    · exact iff_of_true rfl (hv ▸ careful_zero)
    · rw [freePlaces, if_pos hv, if_pos rfl]
  · obtain ⟨r, t₁, f, lost, heq, hfreed⟩ := hfree _ t hv hnodup hfreeable
    have hdata : ∀ h, here = some h → t₁.zones.data h = t.zones.data h := fun h hh =>
      hfreed.effect.data h (hhere h hh)
    have hvalue : ∀ j, t₁.zones.value i here j = t.zones.value i here j := fun j =>
      value_congr hfreed.zone hdata
    cases r with
    | false =>
      refine ⟨false, t₁, f, lost, ⟨?_, fun _ => hfreed.zone, fun j _ => hvalue j, ?_, nofun,
        hfreed.careful⟩, ?_⟩
      · exact hfreed.effect.mono fun n hn => Multiset.mem_add.mpr (.inl hn)
      · have hsplit := hfreed.split
        rw [if_neg (by decide)] at hsplit
        rw [below, below, hvalue]
        exact hsplit
      · rw [freePlaces, if_neg hv, heq, if_neg (by decide)]
    | true =>
      refine ⟨true, t₁.clearPlace i here k, f, lost, ⟨?_, fun hsome => ?_, fun j hj => ?_, ?_,
        fun _ => ?_, hfreed.careful⟩, ?_⟩
      · have htrans := hfreed.effect.trans (clearPlace_effect t₁ i here k)
        rw [add_zero] at htrans
        exact htrans
      · obtain ⟨h, rfl⟩ := Option.isSome_iff_exists.mp hsome
        exact hfreed.zone
      · rw [value_clearPlace, if_neg hj, hvalue]
      · have hsplit := hfreed.split
        rw [if_pos rfl] at hsplit
        rw [below, below, value_clearPlace, if_pos rfl, blocks_zero]
        exact hsplit
      · rw [value_clearPlace, if_pos rfl]
      · rw [freePlaces, if_neg hv, heq, if_pos rfl]

theorem freePlaces_spec (hfree : Frees p d free) (here : Option ℕ) (busy : Bool)
    (hnodup : (span (t.below d i here) k m).Nodup)
    (hfreeable : ∀ n ∈ span (t.below d i here) k m, t.zones.Freeable n)
    (hhere : ∀ h, here = some h → h ∉ span (t.below d i here) k m) :
    ∃ busy' t' f lost, freePlaces free i here m k busy t = some (busy', t') ∧
      Looped p d i here m k busy t busy' t' f lost := by
  induction m generalizing k t busy with
  | zero =>
    refine ⟨busy, t, 0, 0, rfl, .refl _ t, fun _ => rfl, fun _ _ => rfl, rfl, ?_, ?_⟩
    · exact fun hbusy => ⟨hbusy, fun j hle hlt => by omega⟩
    · exact iff_of_true rfl fun j hle hlt => by omega
  | succ m ih =>
    rw [span_succ] at hnodup hfreeable hhere
    obtain ⟨hnodup₁, hnodup₂, hdisjoint⟩ := Multiset.nodup_add.mp hnodup
    obtain ⟨r, t₁, f, lost, hturn, heq⟩ := freePlaces_turn hfree hnodup₁
      (fun n hn => hfreeable n (Multiset.mem_add.mpr (.inl hn)))
      (fun h hh hn => hhere h hh (Multiset.mem_add.mpr (.inl hn))) m busy
    -- the blocks below the places behind are as they were
    have hdata : ∀ j n, k + 1 ≤ j → j < k + 1 + m → n ∈ t.below d i here j →
        t₁.zones.data n = t.zones.data n := by
      intro j n hle hlt hn
      have hmem : n ∈ span (t.below d i here) (k + 1) m := mem_span.mpr ⟨j, hle, hlt, hn⟩
      refine hturn.effect.data n fun hcon => ?_
      rcases Multiset.mem_add.mp hcon with hcon | hcon
      · exact Multiset.disjoint_left.mp hdisjoint hcon hmem
      · rcases here with _ | h
        · exact Multiset.notMem_zero n hcon
        · rw [Multiset.mem_singleton.mp hcon] at hmem
          exact hhere h rfl (Multiset.mem_add.mpr (.inr hmem))
    have hbelow : span (t₁.below d i here) (k + 1) m = span (t.below d i here) (k + 1) m := by
      refine span_congr fun j hle hlt => ?_
      rw [below, hturn.value j (by omega)]
      exact blocks_congr fun n hn => hdata j n hle hlt hn
    obtain ⟨busy', t', f', lost', heq', hloop⟩ := ih (t := t₁) (if r then busy else true)
      (hbelow ▸ hnodup₂)
      (fun n hn => hturn.effect.freeable (hfreeable n (Multiset.mem_add.mpr (.inr (hbelow ▸ hn)))))
      (fun h hh hn => hhere h hh (Multiset.mem_add.mpr (.inr (hbelow ▸ hn))))
    refine ⟨busy', t', f + f', lost + lost', heq.trans heq', ?_, ?_, ?_, ?_, ?_, ?_⟩
    · refine (hturn.effect.trans hloop.effect).mono fun n hn => ?_
      rw [hbelow] at hn
      rw [span_succ]
      simp only [Multiset.mem_add] at hn ⊢
      tauto
    · exact fun hsome => (hloop.zone hsome).trans (hturn.zone hsome)
    · intro j hj
      rw [hloop.value j (by omega), hturn.value j (by omega)]
    · -- the loop over the places behind leaves alone what is below this one
      have hhere' : t'.below d i here k = t₁.below d i here k := by
        rw [below, hloop.value k (.inl (Nat.lt_succ_self k))]
        refine blocks_congr fun n hn => hloop.effect.data n fun hcon => ?_
        have hmem : n ∈ t.below d i here k := by
          rw [hturn.split]
          exact Multiset.mem_add.mpr (.inl (Multiset.mem_add.mpr (.inr hn)))
        rw [hbelow] at hcon
        rcases Multiset.mem_add.mp hcon with hcon | hcon
        · exact Multiset.disjoint_left.mp hdisjoint hmem hcon
        · rcases here with _ | h
          · exact Multiset.notMem_zero n hcon
          · rw [Multiset.mem_singleton.mp hcon] at hmem
            exact hhere h rfl (Multiset.mem_add.mpr (.inl hmem))
      rw [span_succ, span_succ, hturn.split, ← hbelow, hloop.split, hhere']
      abel
    · intro hdone
      obtain ⟨hbusy, hzero⟩ := hloop.done hdone
      cases r with
      | false => cases hbusy
      | true =>
        refine ⟨hbusy, fun j hle hlt => ?_⟩
        rcases Nat.eq_or_lt_of_le hle with rfl | hlt'
        · rw [hloop.value k (.inl (Nat.lt_succ_self k))]
          exact hturn.done rfl
        · exact hzero j hlt' (by omega)
    · rw [add_eq_zero, hturn.careful, hloop.careful]
      have hsame : ∀ j, k + 1 ≤ j → j < k + 1 + m →
          (t₁.zones.Careful p d (t₁.zones.value i here j) ↔
            t.zones.Careful p d (t.zones.value i here j)) := by
        intro j hle hlt
        rw [hturn.value j (by omega)]
        exact careful_congr fun n hn => hdata j n hle hlt hn
      constructor
      · rintro ⟨hfirst, hrest⟩ j hle hlt
        rcases Nat.eq_or_lt_of_le hle with rfl | hlt'
        · exact hfirst
        · exact (hsame j hlt' (by omega)).mp (hrest j hlt' (by omega))
      · intro hall
        refine ⟨hall k le_rfl (by omega), fun j hle hlt => ?_⟩
        exact (hsame j hle hlt).mpr (hall j (by omega) (by omega))

/-! ### Indirect blocks -/

theorem below_table (i : ℕ) (hv : v ≠ 0) :
    t.zones.blocks (d + 1) v = {v} + span (t.below d i (some v)) 0 512 := blocks_succ hv

/-- The entries of an indirect block that can be read are freed. -/
theorem freeTable_readable (hfree : Frees p d free) (i : ℕ) (hv : v ≠ 0)
    (hread : p.readable v = true) (hnodup : (t.zones.blocks (d + 1) v).Nodup)
    (hfreeable : ∀ n ∈ t.zones.blocks (d + 1) v, t.zones.Freeable n) :
    ∃ r t' f lost, freeTable p i free v t = some (r, t') ∧
      Freed p (d + 1) v t r t' f lost := by
  rw [below_table i hv] at hnodup hfreeable
  obtain ⟨-, hnodup, hdisjoint⟩ := Multiset.nodup_add.mp hnodup
  obtain ⟨busy', t₁, f, lost, heq, hloop⟩ := freePlaces_spec hfree (some v) false hnodup
    (fun n hn => hfreeable n (Multiset.mem_add.mpr (.inr hn)))
    (fun h hh => Option.some.inj hh ▸
      Multiset.disjoint_left.mp hdisjoint (Multiset.mem_singleton_self v))
  have heffect : Effect (t.zones.blocks (d + 1) v) f t t₁ := by
    refine hloop.effect.mono fun n hn => ?_
    rw [below_table i hv, add_comm]
    exact hn
  have hsplit : t.zones.blocks (d + 1) v = f + t₁.zones.blocks (d + 1) v + lost := by
    rw [below_table i hv, below_table i hv, hloop.split]
    abel
  have hcareful : lost = 0 ↔ t.zones.Careful p (d + 1) v := by
    rw [hloop.careful, Careful, if_pos hread]
    constructor
    · exact fun hall _ k hk => hall k (Nat.zero_le k) (by omega)
    · exact fun hall k _ hk => hall hv k (by omega)
  rw [freeTable, if_neg hv, if_pos hread, heq]
  cases busy' with
  | true => exact ⟨false, t₁, f, lost, rfl, heffect, hloop.zone rfl, hsplit, hcareful⟩
  | false =>
    have hv₁ : t₁.zones.Freeable v := heffect.freeable
      (hfreeable v (Multiset.mem_add.mpr (.inl (Multiset.mem_singleton_self v))))
    dsimp only
    rw [freeBlock_eq hv₁]
    split
    case isTrue => exact ⟨false, t₁, f, lost, rfl, heffect, hloop.zone rfl, hsplit, hcareful⟩
    case isFalse =>
      -- no entry is left, so that the block is all there is to free
      have hnone : span (t₁.below d i (some v)) 0 512 = 0 :=
        span_eq_zero.mpr fun j hle hlt => blocks_eq_zero.mpr ((hloop.done rfl).2 j hle hlt)
      have hlast : t₁.zones.blocks (d + 1) v = {v} := by
        rw [below_table i hv, hnone, add_zero]
      have htrans := heffect.trans (release_effect t₁ v)
      rw [add_zero] at htrans
      refine ⟨true, t₁.release v, f + {v}, lost, rfl, htrans, hloop.zone rfl, ?_, hcareful⟩
      rw [if_pos rfl, add_zero, ← hlast]
      exact hsplit

/-- An indirect block that cannot be read is freed without its entries. -/
theorem freeTable_unreadable (i : ℕ) (hv : v ≠ 0) (hread : ¬ p.readable v = true)
    (hv' : t.zones.Freeable v) :
    ∃ r t' f lost, freeTable p i free v t = some (r, t') ∧
      Freed p (d + 1) v t r t' f lost := by
  have hcareful : t.zones.Careful p (d + 1) v ↔
      p.busy v = true ∨ ∀ k < 512, t.zones.data v k = 0 := by
    rw [Careful, if_neg hread]
    exact ⟨fun h => h hv, fun h _ => h⟩
  rw [freeTable, if_neg hv, if_neg hread]
  dsimp only
  rw [freeBlock_eq hv']
  split
  case isTrue hbusy =>
    refine ⟨false, t, 0, 0, rfl, .refl _ t, rfl, ?_, iff_of_true rfl (hcareful.mpr (.inl hbusy))⟩
    rw [if_neg (by decide), add_zero, zero_add]
  case isFalse hbusy =>
    refine ⟨true, t.release v, {v}, span (t.below d i (some v)) 0 512, rfl, ?_, rfl, ?_, ?_⟩
    · exact (release_effect t v).mono (by simp)
    · rw [if_pos rfl, add_zero]
      exact below_table i hv
    · rw [hcareful, span_eq_zero, or_iff_right hbusy]
      constructor
      · exact fun hall k hk => blocks_eq_zero.mp (hall k (Nat.zero_le k) (by omega))
      · exact fun hall k _ hk => blocks_eq_zero.mpr (hall k (by omega))

/-- What frees the entries of an indirect block frees it with all that is below it. -/
theorem freeTable_frees (i : ℕ) (hfree : Frees p d free) :
    Frees p (d + 1) (freeTable p i free) := by
  intro v t hv hnodup hfreeable
  by_cases hread : p.readable v = true
  · exact freeTable_readable hfree i hv hread hnodup hfreeable
  · exact freeTable_unreadable i hv hread (hfreeable v (mem_blocks hv))

theorem freeInd_frees (p : Round) (i : ℕ) : Frees p 1 (freeInd p i) :=
  freeTable_frees i (freeBlock_frees p)

theorem freeDind_frees (p : Round) (i : ℕ) : Frees p 2 (freeDind p i) :=
  freeTable_frees i (freeInd_frees p i)

/-! ### A round -/

/-- The last two places are loops over one place. -/
theorem freeZone_eq (hzero : ∀ t, free 0 t = some (true, t)) (busy : Bool) :
    freeZone free i k busy t = freePlaces free i none 1 k busy t := by
  rw [freeZone, freePlaces, show t.zones.value i none k = t.zones.zone i k from rfl]
  by_cases hv : t.zones.zone i k = 0
  · have hstay : t.clearPlace i none k = t := by
      rw [clearPlace, setValue, ← hv, Function.update_eq_self, Function.update_eq_self]
    rw [hv, hzero, if_pos rfl, freePlaces, ← hstay]
    simp only [hstay]
  · rw [if_neg hv]
    rfl

theorem freeInd_zero (p : Round) (i : ℕ) (t : Truncation) :
    freeInd p i 0 t = some (true, t) := by
  rw [freeInd, freeTable, if_pos rfl]

theorem freeDind_zero (p : Round) (i : ℕ) (t : Truncation) :
    freeDind p i 0 t = some (true, t) := by
  rw [freeDind, freeTable, if_pos rfl]

theorem tree_eq (t : Truncation) (i : ℕ) :
    t.zones.tree i = span (t.below 0 i none) 0 7 + span (t.below 1 i none) 7 1 +
      span (t.below 2 i none) 8 1 := by
  rw [tree, span_one, span_one]
  rfl

/-- A loop over some places leaves alone what is below another place. -/
theorem Looped.same {busy' : Bool} {lost : Multiset ℕ}
    (h : Looped p d i none m k busy t busy' t' f lost) (d₁ : ℕ) (hj : j < k ∨ k + m ≤ j)
    (hdisjoint : Disjoint (t.below d₁ i none j) (span (t.below d i none) k m)) :
    t'.below d₁ i none j = t.below d₁ i none j ∧
      (t'.zones.Careful p d₁ (t'.zones.value i none j) ↔
        t.zones.Careful p d₁ (t.zones.value i none j)) := by
  have hdata : ∀ n ∈ t.below d₁ i none j, t'.zones.data n = t.zones.data n := by
    refine fun n hn => h.effect.data n fun hcon => ?_
    rw [Option.elim_none, add_zero] at hcon
    exact Multiset.disjoint_left.mp hdisjoint hn hcon
  rw [below, h.value j hj]
  exact ⟨blocks_congr hdata, careful_congr hdata⟩

theorem Looped.same_direct {busy' : Bool} {lost : Multiset ℕ}
    (h : Looped p d i none m k busy t busy' t' f lost) {k' m' : ℕ} (hk : k' + m' ≤ k) :
    span (t'.below 0 i none) k' m' = span (t.below 0 i none) k' m' := by
  refine span_congr fun j hle hlt => ?_
  rw [below, h.value j (.inl (by omega))]
  rfl

/-- A round frees blocks of the tree, and the others stay in the tree or are lost. -/
structure Rounded (p : Round) (i : ℕ) (t : Truncation) (busy : Bool) (t' : Truncation)
    (f lost : Multiset ℕ) : Prop where
  effect : Effect (t.zones.tree i) f t t'
  split : t.zones.tree i = f + t'.zones.tree i + lost
  done : busy = false → ∀ k < 9, t'.zones.zone i k = 0
  careful : lost = 0 ↔ t.zones.CarefulRound p i

theorem freeRound_spec (p : Round) (hnodup : (t.zones.tree i).Nodup)
    (hfreeable : ∀ n ∈ t.zones.tree i, t.zones.Freeable n) :
    ∃ busy t' f lost, freeRound p i t = some (busy, t') ∧ Rounded p i t busy t' f lost := by
  have htree := tree_eq t i
  rw [htree] at hnodup hfreeable
  obtain ⟨hnodup₁₂, hnodup₃, hdisjoint₃⟩ := Multiset.nodup_add.mp hnodup
  obtain ⟨hnodup₁, hnodup₂, hdisjoint₂⟩ := Multiset.nodup_add.mp hnodup₁₂
  simp only [span_one] at hnodup₂ hnodup₃ hdisjoint₂ hdisjoint₃
  rw [Multiset.disjoint_left] at hdisjoint₃
  -- the direct blocks
  obtain ⟨b₁, t₁, f₁, l₁, heq₁, h₁⟩ := freePlaces_spec (freeBlock_frees p) none false hnodup₁
    (fun n hn => hfreeable n (by simp [hn])) nofun
  obtain ⟨hbelow₂, hcareful₂⟩ := h₁.same 1 (.inr (le_refl 7)) hdisjoint₂.symm
  obtain ⟨hbelow₃, hcareful₃⟩ := h₁.same 2 (j := 8) (.inr (by omega))
    (Multiset.disjoint_left.mpr fun hn hcon => hdisjoint₃ (Multiset.mem_add.mpr (.inl hcon)) hn)
  -- the indirect block
  have hspan₂ : span (t₁.below 1 i none) 7 1 = t.below 1 i none 7 := by rw [span_one, hbelow₂]
  obtain ⟨b₂, t₂, f₂, l₂, heq₂, h₂⟩ := freePlaces_spec (freeInd_frees p i) none b₁
    (hspan₂ ▸ hnodup₂) (fun n hn => h₁.effect.freeable (hfreeable n (by
      rw [hspan₂] at hn
      simp [span_one, hn]))) nofun
  obtain ⟨hbelow₃', hcareful₃'⟩ := h₂.same 2 (j := 8) (.inr (le_refl 8)) (by
    rw [hspan₂, hbelow₃, Multiset.disjoint_left]
    exact fun hn hcon => hdisjoint₃ (Multiset.mem_add.mpr (.inr hcon)) hn)
  -- the double indirect block
  have hspan₃ : span (t₂.below 2 i none) 8 1 = t.below 2 i none 8 := by
    rw [span_one, hbelow₃', hbelow₃]
  obtain ⟨b₃, t₃, f₃, l₃, heq₃, h₃⟩ := freePlaces_spec (freeDind_frees p i) none b₂
    (hspan₃ ▸ hnodup₃) (fun n hn => h₂.effect.freeable (h₁.effect.freeable (hfreeable n (by
      rw [hspan₃] at hn
      simp [span_one, hn])))) nofun
  have hbelow₂' : t₃.below 1 i none 7 = t₂.below 1 i none 7 := by
    refine (h₃.same 1 (j := 7) (.inl (by omega)) ?_).1
    rw [hspan₃, Multiset.disjoint_left]
    intro n hn hcon
    have hsplit := h₂.split
    rw [hspan₂, span_one] at hsplit
    refine hdisjoint₃ (Multiset.mem_add.mpr (.inr ?_)) hcon
    rw [hsplit]
    exact Multiset.mem_add.mpr (.inl (Multiset.mem_add.mpr (.inr hn)))
  have heffect : Effect (t.zones.tree i) (f₁ + f₂ + f₃) t t₃ := by
    refine ((h₁.effect.trans h₂.effect).trans h₃.effect).mono fun n hn => ?_
    rw [hspan₂, hspan₃] at hn
    rw [htree, span_one, span_one]
    simpa using hn
  refine ⟨b₃, { t₃ with dirt := true }, f₁ + f₂ + f₃, l₁ + l₂ + l₃, ?_, ?_, ?_, ?_, ?_⟩
  · rw [freeRound, heq₁]
    dsimp only
    rw [freeZone_eq (freeInd_zero p i), heq₂]
    dsimp only
    rw [freeZone_eq (freeDind_zero p i), heq₃]
    rfl
  · exact ⟨heffect.freed, heffect.data, heffect.bits, heffect.buffers, heffect.first,
      heffect.last⟩
  · -- the direct blocks are left alone by the loops behind
    have hdirect : span (t₃.below 0 i none) 0 7 = span (t₁.below 0 i none) 0 7 :=
      (h₃.same_direct (by omega)).trans (h₂.same_direct (by omega))
    have hsplit₁ := h₁.split
    have hsplit₂ := h₂.split
    have hsplit₃ := h₃.split
    rw [hspan₂, span_one, ← hbelow₂'] at hsplit₂
    rw [hspan₃, span_one] at hsplit₃
    have htree' : ({ t₃ with dirt := true } : Truncation).zones.tree i =
        span (t₁.below 0 i none) 0 7 + t₃.below 1 i none 7 + t₃.below 2 i none 8 := by
      rw [← hdirect, ← span_one (f := t₃.below 1 i none), ← span_one (f := t₃.below 2 i none)]
      exact tree_eq t₃ i
    rw [htree', htree, span_one, span_one, hsplit₁, hsplit₂, hsplit₃]
    abel
  · intro hdone k hk
    obtain ⟨hb₂, hzero₃⟩ := h₃.done hdone
    obtain ⟨hb₁, hzero₂⟩ := h₂.done hb₂
    obtain ⟨-, hzero₁⟩ := h₁.done hb₁
    show t₃.zones.value i none k = 0
    rcases Nat.lt_trichotomy k 7 with hlt | rfl | hgt
    · rw [h₃.value k (.inl (by omega)), h₂.value k (.inl hlt)]
      exact hzero₁ k (Nat.zero_le k) (by omega)
    · rw [h₃.value 7 (.inl (by omega))]
      exact hzero₂ 7 le_rfl (by omega)
    · exact hzero₃ k hgt (by omega)
  · have hl₁ : l₁ = 0 := h₁.careful.mpr fun _ _ _ => trivial
    rw [hl₁, zero_add, add_eq_zero, h₂.careful, h₃.careful, CarefulRound]
    refine and_congr ?_ ?_
    · constructor
      · exact fun hall => hcareful₂.mp (hall 7 le_rfl (by omega))
      · intro hcareful j hle hlt
        obtain rfl : j = 7 := by omega
        exact hcareful₂.mpr hcareful
    · constructor
      · exact fun hall => hcareful₃.mp (hcareful₃'.mp (hall 8 le_rfl (by omega)))
      · intro hcareful j hle hlt
        obtain rfl : j = 8 := by omega
        exact hcareful₃'.mpr (hcareful₃.mpr hcareful)

/-! ### The rounds -/

variable {q : ℕ → Round} {mode : ℕ}

/-- What `n` rounds lead to from `t`. -/
structure Ran (q : ℕ → Round) (i mode : ℕ) (t : Truncation) (n : ℕ) (goesOn : Bool)
    (t' : Truncation) (lost : Multiset ℕ) : Prop where
  effect : Effect (t.zones.tree i) t'.freed t t'
  split : t.zones.tree i = t'.freed + (if goesOn then t'.zones.tree i else 0) + lost
  done : goesOn = false → t'.size = 0 ∧ ∀ k < 9, t'.zones.zone i k = 0
  careful : lost = 0 ↔ ∀ r < n, ∀ t₁, truncate q i mode t r = some (true, t₁) →
    t₁.zones.CarefulRound (q r) i

theorem tree_eq_zero (h : ∀ k < 9, t.zones.zone i k = 0) : t.zones.tree i = 0 := by
  rw [tree, h 7 (by omega), h 8 (by omega), blocks_zero, blocks_zero]
  rw [span_eq_zero.mpr fun j _ hj => blocks_eq_zero.mpr (h j (by omega))]
  rfl

/-- The rounds go on without a panic; what they have done so far is accounted for. -/
theorem truncate_runs (hmode : hasBlocks mode = true) (hwf : t.zones.WellFormed i)
    (hfreed : t.freed = []) (n : ℕ) :
    ∃ goesOn t' lost, truncate q i mode t n = some (goesOn, t') ∧
      Ran q i mode t n goesOn t' lost := by
  induction n with
  | zero =>
    refine ⟨true, t, 0, by rw [truncate, hmode], ?_, ?_, nofun, ?_⟩
    · rw [hfreed]
      exact .refl _ t
    · rw [hfreed, if_pos rfl, add_zero]
      exact (zero_add _).symm
    · exact iff_of_true rfl fun r hr => absurd hr (Nat.not_lt_zero r)
  | succ n ih =>
    obtain ⟨goesOn, t₁, lost, heq, hran⟩ := ih
    rw [truncate, heq]
    cases goesOn with
    | false =>
      refine ⟨false, t₁, lost, rfl, hran.effect, hran.split, hran.done, ?_⟩
      rw [hran.careful]
      constructor
      · intro hall r hr t₂ ht₂
        rcases Nat.lt_succ_iff_lt_or_eq.mp hr with hlt | rfl
        · exact hall r hlt t₂ ht₂
        · cases heq.symm.trans ht₂
      · exact fun hall r hr => hall r (by omega)
    | true =>
      have hsplit := hran.split
      rw [if_pos rfl] at hsplit
      have hle : t₁.zones.tree i ≤ t.zones.tree i := by
        rw [hsplit]
        exact (Multiset.le_add_left _ _).trans (Multiset.le_add_right _ _)
      have hfreeable : ∀ n ∈ t₁.zones.tree i, t₁.zones.Freeable n := by
        intro n hn
        have hmem := Multiset.mem_of_le hle hn
        refine hran.effect.freeable ⟨(hwf.inZone n hmem).1, (hwf.inZone n hmem).2, ?_⟩
        obtain ⟨bits, hbits, -⟩ := hwf.marked n hmem
        exact Option.isSome_iff_exists.mpr ⟨bits, hbits⟩
      obtain ⟨busy, t₂, f, lost', heq', hround⟩ := freeRound_spec (q n)
        (Multiset.nodup_of_le hle hwf.distinct) hfreeable
      have heffect : Effect (t.zones.tree i) t₂.freed t t₂ := by
        rw [hround.effect.freed]
        refine (hran.effect.trans hround.effect).mono fun n hn => ?_
        rcases Multiset.mem_add.mp hn with hn | hn
        · exact hn
        · exact Multiset.mem_of_le hle hn
      have hsplit' : t.zones.tree i = t₂.freed + t₂.zones.tree i + (lost + lost') := by
        rw [hsplit, hround.split, hround.effect.freed]
        abel
      have hcareful : lost + lost' = 0 ↔ ∀ r < n + 1, ∀ t₃,
          truncate q i mode t r = some (true, t₃) → t₃.zones.CarefulRound (q r) i := by
        rw [add_eq_zero, hran.careful, hround.careful]
        constructor
        · rintro ⟨hall, hlast⟩ r hr t₃ ht₃
          rcases Nat.lt_succ_iff_lt_or_eq.mp hr with hlt | rfl
          · exact hall r hlt t₃ ht₃
          · obtain ⟨-, rfl⟩ := Prod.mk.inj (Option.some.inj (heq.symm.trans ht₃))
            exact hlast
        · exact fun hall => ⟨fun r hr => hall r (by omega), hall n (by omega) t₁ heq⟩
      dsimp only
      rw [heq']
      cases busy with
      | true => exact ⟨true, t₂, lost + lost', rfl, heffect, hsplit', nofun, hcareful⟩
      | false =>
        have hzero := hround.done rfl
        refine ⟨false, _, lost + lost', rfl, ?_, ?_, fun _ => ⟨rfl, hzero⟩, hcareful⟩
        · exact ⟨heffect.freed, heffect.data, heffect.bits, heffect.buffers, heffect.first,
            heffect.last⟩
        · rw [hsplit', tree_eq_zero hzero]
          rfl

/-- A truncation that ends has freed each block of the tree once, and has changed no other bit,
if and only if no round frees an indirect block with entries that it cannot read. -/
theorem truncate_frees (hmode : hasBlocks mode = true) (hwf : t.zones.WellFormed i)
    (hfreed : t.freed = []) {n : ℕ} (h : truncate q i mode t n = some (false, t')) :
    Truncated t.zones i t' ↔
      ∀ r < n, ∀ t₁, truncate q i mode t r = some (true, t₁) →
        t₁.zones.CarefulRound (q r) i := by
  obtain ⟨goesOn, t₁, lost, heq, hran⟩ := truncate_runs (q := q) hmode hwf hfreed n
  obtain ⟨rfl, rfl⟩ := Prod.mk.inj (Option.some.inj (heq.symm.trans h))
  obtain ⟨hsize, hzones⟩ := hran.done rfl
  have hsplit := hran.split
  rw [if_neg (by decide), add_zero] at hsplit
  rw [← hran.careful]
  constructor
  · intro htruncated
    rw [htruncated.once] at hsplit
    exact left_eq_add.mp hsplit
  · intro hlost
    rw [hlost, add_zero] at hsplit
    refine ⟨hsize, hzones, hsplit.symm, fun m j => ?_⟩
    rw [hran.effect.bits, hsplit]

/-! ### A file with an indirect block -/

/-- A file of one block, which only an indirect block names. -/
def oneBlock : Truncation where
  zones :=
    { zone := fun _ k => if k = 7 then 10 else 0
      data := fun n k => if n = 10 ∧ k = 0 then 11 else 0
      zmap := fun m => if m = 0 then some fun _ => true else none
      firstDataZone := 10
      nZones := 20
      nZones_lt := by decide
      firstDataZone_pos := by decide }
  size := 7168
  dirt := false
  mtime := 0
  ctime := 0
  freed := []

theorem oneBlock_tree : oneBlock.zones.tree 0 = {10} + {11} := by
  have hzone : ∀ k, k ≠ 7 → oneBlock.zones.zone 0 k = 0 := fun _ hk => if_neg hk
  have hword : ∀ k, k ≠ 0 → oneBlock.zones.data 10 k = 0 := fun _ hk => if_neg fun h => hk h.2
  have hdirect : span (fun k => oneBlock.zones.blocks 0 (oneBlock.zones.zone 0 k)) 0 7 = 0 :=
    span_eq_zero.mpr fun j _ hj => blocks_eq_zero.mpr (hzone j (by omega))
  have hentries : span (fun k => oneBlock.zones.blocks 0 (oneBlock.zones.data 10 k)) 0 (511 + 1) =
      {11} := by
    rw [span_succ, span_eq_zero.mpr fun j hj _ => blocks_eq_zero.mpr (hword j (by omega))]
    rfl
  rw [tree, hdirect, hzone 8 (by decide), blocks_zero, zero_add, add_zero]
  rw [show oneBlock.zones.zone 0 7 = 10 from rfl, blocks_succ (by decide)]
  exact congrArg (fun b => {10} + b) hentries

theorem mem_oneBlock {n : ℕ} (h : n ∈ oneBlock.zones.tree 0) : n = 10 ∨ n = 11 := by
  rw [oneBlock_tree, Multiset.mem_add, Multiset.mem_singleton, Multiset.mem_singleton] at h
  exact h

theorem oneBlock_wellFormed : oneBlock.zones.WellFormed 0 where
  distinct := by
    rw [oneBlock_tree]
    decide
  inZone := by
    intro n hn
    rcases mem_oneBlock hn with rfl | rfl
    · decide
    · decide
  marked := by
    intro n hn
    rcases mem_oneBlock hn with rfl | rfl
    · exact ⟨_, rfl, rfl⟩
    · exact ⟨_, rfl, rfl⟩

/-- All blocks can be read and freed. -/
def quiet : Round := ⟨fun _ => false, fun _ => true, 1⟩

/-- No block can be read. -/
def failing : Round := ⟨fun _ => false, fun _ => false, 1⟩

theorem truncate_frees_oneBlock :
    ∃ t', truncate (fun _ => quiet) 0 0o100000 oneBlock 1 = some (false, t') ∧
      (Truncated oneBlock.zones 0 t' ↔ ∀ r < 1, ∀ t₁,
        truncate (fun _ => quiet) 0 0o100000 oneBlock r = some (true, t₁) →
          t₁.zones.CarefulRound quiet 0) := by
  have hends : (truncate (fun _ => quiet) 0 0o100000 oneBlock 1).any (fun r => !r.1) = true := by
    decide +kernel
  obtain ⟨⟨goesOn, t'⟩, heq, hgoesOn⟩ := (Option.any_eq_true _ _).mp hends
  obtain rfl : goesOn = false := by simpa using hgoesOn
  exact ⟨t', heq, truncate_frees (by decide) oneBlock_wellFormed rfl heq⟩

/-- An indirect block that cannot be read is freed, and the block that it names is not. -/
theorem truncate_leaks :
    ∃ t', truncate (fun _ => failing) 0 0o100000 oneBlock 1 = some (false, t') ∧
      oneBlock.zones.WellFormed 0 ∧ t'.freed = [10] ∧ ¬ Truncated oneBlock.zones 0 t' := by
  have hends : (truncate (fun _ => failing) 0 0o100000 oneBlock 1).any
      (fun r => !r.1 && r.2.freed == [10]) = true := by decide +kernel
  obtain ⟨⟨goesOn, t'⟩, heq, hend⟩ := (Option.any_eq_true _ _).mp hends
  simp only [Bool.and_eq_true, Bool.not_eq_true', beq_iff_eq] at hend
  obtain ⟨rfl, hfreed⟩ := hend
  refine ⟨t', heq, oneBlock_wellFormed, hfreed, fun h => ?_⟩
  have hcard := congrArg Multiset.card h.once
  rw [hfreed, oneBlock_tree] at hcard
  cases hcard

end Truncation

end Fs
