/-
The `repeat:` loop of `get_free_page` (mm/swap.c).

* `Retry` — a turn of the loop that is not the last: a page has been swapped out, or a frame
  above `HIGH_MEMORY` was found free;
* `Retry.rounds_lt` — there are fewer present entries and free frames above `HIGH_MEMORY` after
  it, so that the loop ends;
* `Kept` — what the turns leave alone;
* `get_free_page_ends` — a call ends, and what it returns;
* `get_free_page_above` — a call that marks a second frame.
-/
import Linux012.SwapOut
import Mathlib.Data.Finset.Prod
import Mathlib.Order.Interval.Finset.Nat

namespace Mm

open Function (update)

/-- What a call has come to after some turns of its loop. -/
inductive Progress where
  | running
  | panics
  | returns (p : ℕ) (m : Mem)

/-- A page of a task is unmapped: a clean one is dropped, a dirty one goes to a free slot of the
swap device. -/
inductive Evicted (m : Mem) : Mem → Prop where
  | drop {d i t p : ℕ} {rw : Bool} (hd : User d) (hi : i < 1024) (ht : m.pgDir d = some t)
      (he : m.table t i = .page p rw false) (hlow : lowMem ≤ p) (hhigh : p < m.highMemory)
      (hused : m.memMap (mapNr p) ≠ 0) :
      Evicted m ((m.setEntry t i .zero).setMap (mapNr p) (m.memMap (mapNr p) - 1))
  | write {d i t p nr : ℕ} {rw : Bool} {bits : ℕ → Bool} (hd : User d) (hi : i < 1024)
      (ht : m.pgDir d = some t) (he : m.table t i = .page p rw true) (hlow : lowMem ≤ p)
      (hhigh : p < m.highMemory) (hused : m.memMap (mapNr p) ≠ 0)
      (hbits : m.swapBitmap = some bits) (hfree : bits nr = true) :
      Evicted m (Mem.setMap { m.setEntry t i (.swap nr) with
        swapBitmap := some (update bits nr false)
        swapDev := update m.swapDev nr (m.data p) } (mapNr p) (m.memMap (mapNr p) - 1))

/-- A turn of the loop that is not the last. -/
inductive Retry (m : Mem) : Mem → Prop where
  | swapOut {m' : Mem} {d e : ℕ} (h : Evicted m m') (hok : CursorOk d e) :
      Retry m (m'.cursor d e)
  | above {n : ℕ} (hn : n < pagingPages) (hfree : m.memMap n = 0)
      (hhigh : m.highMemory ≤ n + lowMem) :
      Retry m ((m.setMap n 1).clearPage (n + lowMem))

variable {m m' m₁ m₂ : Mem} {d e i n t p k : ℕ}

/-! ### One turn -/

/-- What an eviction comes to, of a clean page or of a dirty one. -/
theorem Evicted.eq (h : Evicted m m') : ∃ d i t p rw dirty e, User d ∧ i < 1024 ∧
    m.pgDir d = some t ∧ m.table t i = .page p rw dirty ∧ lowMem ≤ p ∧ p < m.highMemory ∧
    m.memMap (mapNr p) ≠ 0 ∧ e.frame = none ∧ m'.highMemory = m.highMemory ∧
    m'.pgDir = m.pgDir ∧ m'.table = update m.table t (update (m.table t) i e) ∧
    m'.memMap = update m.memMap (mapNr p) ((m.memMap (mapNr p) - 1) % 256) ∧
    (m'.swapBitmap = m.swapBitmap ∨ dirty = true ∧ ∃ nr bits, e = .swap nr ∧
      m.swapBitmap = some bits ∧ bits nr = true ∧
      m'.swapBitmap = some (update bits nr false)) := by
  cases h with
  | @drop d i t p rw hd hi ht he hlow hhigh hused =>
    exact ⟨d, i, t, p, rw, false, .zero, hd, hi, ht, he, hlow, hhigh, hused, rfl, rfl, rfl, rfl,
      rfl, .inl rfl⟩
  | @write d i t p nr rw bits hd hi ht he hlow hhigh hused hbits hfree =>
    exact ⟨d, i, t, p, rw, true, .swap nr, hd, hi, ht, he, hlow, hhigh, hused, rfl, rfl, rfl, rfl,
      rfl, .inr ⟨rfl, nr, bits, rfl, hbits, hfree, rfl⟩⟩

/-- A store into a page table is one to each directory entry that has the table. -/
theorem entry_store {f : Pte} (hdir : m'.pgDir = m.pgDir)
    (htable : m'.table = update m.table t (update (m.table t) i f)) (d' i' : ℕ) :
    m'.entry d' i' = if m.pgDir d' = some t ∧ i' = i then f else m.entry d' i' := by
  rw [Mem.entry, Mem.entry, hdir, htable]
  rcases m.pgDir d' with _ | t'
  · rw [if_neg fun h => Option.some_ne_none _ h.1.symm]
  · dsimp only
    by_cases ht : t' = t
    · subst ht
      by_cases hi : i' = i
      · rw [if_pos ⟨rfl, hi⟩, hi, Function.update_self, Function.update_self]
      · rw [if_neg fun h => hi h.2, Function.update_self, Function.update_of_ne hi]
    · rw [if_neg fun h => ht (Option.some.inj h.1), Function.update_of_ne ht]

theorem entry_clearPage (m : Mem) (n b p d i : ℕ) : ((m.setMap n b).clearPage p).entry d i =
    if m.pgDir d = some p then .zero else m.entry d i := by
  rw [Mem.entry, Mem.entry]
  have hdir : ((m.setMap n b).clearPage p).pgDir d = m.pgDir d := rfl
  have htable : ((m.setMap n b).clearPage p).table = update m.table p fun _ => .zero := rfl
  rw [hdir, htable]
  rcases m.pgDir d with _ | t
  · rw [if_neg (Option.some_ne_none p).symm]
  · dsimp only
    by_cases ht : t = p
    · rw [if_pos (congrArg some ht), ht, Function.update_self]
    · rw [if_neg fun h => ht (Option.some.inj h), Function.update_of_ne ht]

/-! ### The loop ends -/

/-- The present entries of the tables of tasks. -/
@[irreducible] def mapped (m : Mem) : Finset (ℕ × ℕ) :=
  (Finset.Ico firstDir 1024 ×ˢ Finset.range 1024).filter fun x => (m.entry x.1 x.2).frame ≠ none

/-- The free bytes of `mem_map` above `HIGH_MEMORY`. -/
@[irreducible] def above (m : Mem) : Finset ℕ :=
  (Finset.range pagingPages).filter fun n => m.memMap n = 0 ∧ m.highMemory ≤ n + lowMem

/-- What is left to go through. -/
def rounds (m : Mem) : ℕ := (mapped m).card + (above m).card

/-- A slot of the swap device is free. -/
def Mem.slotFree (m : Mem) (nr : ℕ) : Bool := m.swapBitmap.any fun bits => bits nr

/-- A present entry of a task that names frame `p` is present no more. -/
def Removed (m m' : Mem) (p : ℕ) : Prop :=
  ∃ d i, User d ∧ i < 1024 ∧ (m.entry d i).frame = some p ∧ (m'.entry d i).frame = none

/-- A dirty entry of a task names slot `nr`, if its table has not been cleared since. -/
def Written (m m' : Mem) (nr : ℕ) : Prop :=
  ∃ d i p rw, User d ∧ i < 1024 ∧ m.entry d i = .page p rw true ∧
    (m'.entry d i = .swap nr ∨ m'.entry d i = .zero)

/-- The bytes, entries and swap bits are as they were, but for the entries that were swapped out
and the free frames above `HIGH_MEMORY`, which are marked and cleared. -/
structure Kept (m m' : Mem) : Prop where
  highMemory : m'.highMemory = m.highMemory
  pgDir : m'.pgDir = m.pgDir
  byte : ∀ n, m'.memMap n = m.memMap n ∨
    (m.highMemory ≤ n + lowMem ∧ m.memMap n = 0 ∧ m'.memMap n = 1) ∨
    (n + lowMem < m.highMemory ∧ m'.memMap n < m.memMap n ∧ Removed m m' (n + lowMem))
  entry : ∀ d i, m'.entry d i = m.entry d i ∨
    ((∃ d', User d' ∧ m.pgDir d' = m.pgDir d) ∧ (m.entry d i).frame ≠ none ∧
      (m'.entry d i).frame = none) ∨
    (m'.entry d i = .zero ∧ ∃ t, m.pgDir d = some t ∧ lowMem ≤ t ∧ m.highMemory ≤ t ∧
      m.memMap (mapNr t) = 0)
  slot : ∀ nr, m'.slotFree nr = m.slotFree nr ∨
    (m.slotFree nr = true ∧ m'.slotFree nr = false ∧ Written m m' nr)

namespace Kept

theorem refl (m : Mem) : Kept m m :=
  ⟨rfl, rfl, fun _ => .inl rfl, fun _ _ => .inl rfl, fun _ => .inl rfl⟩

/-- An entry that is not present does not become so. -/
theorem absent (h : Kept m m') (he : (m.entry d i).frame = none) :
    (m'.entry d i).frame = none := by
  rcases h.entry d i with hsame | ⟨-, hne, -⟩ | ⟨hzero, -⟩
  · rw [hsame, he]
  · exact absurd he hne
  · rw [hzero]
    rfl

/-- An entry that is still present is as it was. -/
theorem present (h : Kept m m') (he : (m'.entry d i).frame ≠ none) :
    m'.entry d i = m.entry d i := by
  rcases h.entry d i with hsame | ⟨-, -, hnone⟩ | ⟨hzero, -⟩
  · exact hsame
  · exact absurd hnone he
  · rw [hzero] at he
    exact absurd rfl he

theorem removed (h₁ : Kept m m₁) (h₂ : Kept m₁ m') (h : Removed m m₁ p ∨ Removed m₁ m' p) :
    Removed m m' p := by
  rcases h with ⟨d, i, hd, hi, hp, hnone⟩ | ⟨d, i, hd, hi, hp, hnone⟩
  · exact ⟨d, i, hd, hi, hp, h₂.absent hnone⟩
  · refine ⟨d, i, hd, hi, ?_, hnone⟩
    rw [← h₁.present (by rw [hp]; nofun), hp]

theorem written {nr : ℕ} (h₁ : Kept m m₁) (h₂ : Kept m₁ m')
    (h : Written m m₁ nr ∨ Written m₁ m' nr) : Written m m' nr := by
  rcases h with ⟨d, i, p, rw, hd, hi, hp, hnow⟩ | ⟨d, i, p, rw, hd, hi, hp, hnow⟩
  · refine ⟨d, i, p, rw, hd, hi, hp, ?_⟩
    rcases h₂.entry d i with hsame | ⟨-, hne, -⟩ | ⟨hzero, -⟩
    · rwa [hsame]
    · exfalso
      rcases hnow with hnow | hnow <;> exact hne (by rw [hnow]; rfl)
    · exact .inr hzero
  · refine ⟨d, i, p, rw, hd, hi, ?_, hnow⟩
    rw [← h₁.present (by rw [hp]; nofun), hp]

theorem trans (h₁ : Kept m m₁) (h₂ : Kept m₁ m') : Kept m m' where
  highMemory := h₂.highMemory.trans h₁.highMemory
  pgDir := h₂.pgDir.trans h₁.pgDir
  byte := fun n => by
    have hbyte₂ := h₂.byte n
    rw [h₁.highMemory] at hbyte₂
    rcases h₁.byte n with hsame | ⟨hhigh, hfree, hone⟩ | ⟨hlow, hless, hgone⟩
    · rw [hsame] at hbyte₂
      rcases hbyte₂ with hsame₂ | habove | ⟨hlow, hless, hgone⟩
      · exact .inl hsame₂
      · exact .inr (.inl habove)
      · exact .inr (.inr ⟨hlow, hless, h₁.removed h₂ (.inr hgone)⟩)
    · rcases hbyte₂ with hsame₂ | ⟨-, hfree₂, -⟩ | ⟨hlow, -, -⟩
      · exact .inr (.inl ⟨hhigh, hfree, hsame₂.trans hone⟩)
      · rw [hone] at hfree₂
        cases hfree₂
      · omega
    · rcases hbyte₂ with hsame₂ | ⟨hhigh, -, -⟩ | ⟨-, hless₂, -⟩
      · exact .inr (.inr ⟨hlow, hsame₂ ▸ hless, h₁.removed h₂ (.inl hgone)⟩)
      · omega
      · exact .inr (.inr ⟨hlow, hless₂.trans hless, h₁.removed h₂ (.inl hgone)⟩)
  entry := fun d i => by
    rcases h₁.entry d i with hsame | ⟨huser, hne, hnone⟩ | ⟨hzero, t, ht⟩
    · rcases h₂.entry d i with hsame₂ | ⟨huser, hne, hnone⟩ | ⟨hzero, t, ht, hlow, hhigh, hfree⟩
      · exact .inl (hsame₂.trans hsame)
      · rw [h₁.pgDir] at huser
        exact .inr (.inl ⟨huser, hsame ▸ hne, hnone⟩)
      · rw [h₁.pgDir] at ht
        rw [h₁.highMemory] at hhigh
        refine .inr (.inr ⟨hzero, t, ht, hlow, hhigh, ?_⟩)
        have hframe : mapNr t + lowMem = t := Nat.sub_add_cancel hlow
        -- a free frame above `HIGH_MEMORY` has been free before
        rcases h₁.byte (mapNr t) with hbyte | ⟨-, hbyte, -⟩ | ⟨hbelow, -, -⟩
        · exact hbyte.symm.trans hfree
        · exact hbyte
        · omega
    · exact .inr (.inl ⟨huser, hne, h₂.absent hnone⟩)
    · rcases h₂.entry d i with hsame₂ | ⟨-, hne, -⟩ | ⟨hzero₂, -⟩
      · exact .inr (.inr ⟨hsame₂.trans hzero, t, ht⟩)
      · rw [hzero] at hne
        exact absurd rfl hne
      · exact .inr (.inr ⟨hzero₂, t, ht⟩)
  slot := fun nr => by
    rcases h₁.slot nr with hsame | ⟨hfree, htaken, hwritten⟩
    · rcases h₂.slot nr with hsame₂ | ⟨hfree₂, htaken, hwritten⟩
      · exact .inl (hsame₂.trans hsame)
      · exact .inr ⟨hsame ▸ hfree₂, htaken, h₁.written h₂ (.inr hwritten)⟩
    · rcases h₂.slot nr with hsame₂ | ⟨hfree₂, -, -⟩
      · exact .inr ⟨hfree, hsame₂.trans htaken, h₁.written h₂ (.inl hwritten)⟩
      · rw [htaken] at hfree₂
        cases hfree₂

end Kept

theorem Evicted.kept (h : Evicted m m') (d' e' : ℕ) : Kept m (m'.cursor d' e') := by
  obtain ⟨d, i, t, p, rw, dirty, e, hd, hi, ht, he, hlow, hhigh, hused, hframe, hmem, hdir,
    htable, hmap, hslot⟩ := h.eq
  have hentry := entry_store (show (m'.cursor d' e').pgDir = m.pgDir from hdir) htable
  have hpage : m.entry d i = .page p rw dirty := by
    rw [Mem.entry, ht]
    exact he
  have hstored : (m'.cursor d' e').entry d i = e := by
    rw [hentry, if_pos ⟨ht, rfl⟩]
  have hbelow : (m.memMap (mapNr p) - 1) % 256 < m.memMap (mapNr p) :=
    (Nat.mod_le _ _).trans_lt (Nat.sub_one_lt hused)
  refine ⟨hmem, hdir, fun n => ?_, fun d₁ i₁ => ?_, fun nr => ?_⟩
  · show m'.memMap n = _ ∨ _ ∧ _ ∧ m'.memMap n = 1 ∨ _ ∧ m'.memMap n < _ ∧ _
    rw [hmap]
    by_cases hn : n = mapNr p
    · have hp : mapNr p + lowMem = p := Nat.sub_add_cancel hlow
      rw [hn, Function.update_self, hp]
      refine .inr (.inr ⟨hhigh, hbelow, d, i, hd, hi, ?_, ?_⟩)
      · rw [hpage]
        rfl
      · rw [hstored, hframe]
    · exact .inl (Function.update_of_ne hn _ _)
  · rw [hentry]
    by_cases hhere : m.pgDir d₁ = some t ∧ i₁ = i
    · rw [if_pos hhere, hframe]
      refine .inr (.inl ⟨⟨d, hd, ht.trans hhere.1.symm⟩, ?_, rfl⟩)
      rw [Mem.entry, hhere.1, hhere.2]
      show (m.table t i).frame ≠ none
      rw [he]
      exact Option.some_ne_none _
    · exact .inl (if_neg hhere)
  · rw [Mem.slotFree, Mem.slotFree]
    show m'.swapBitmap.any _ = _ ∨ _ ∧ m'.swapBitmap.any _ = _ ∧ _
    rcases hslot with hsame | ⟨hdirty, nr', bits, hswap, hbits, hfree, hbits'⟩
    · rw [hsame]
      exact .inl rfl
    · rw [hbits, hbits']
      by_cases hnr : nr = nr'
      · subst hnr
        refine .inr ⟨hfree, Function.update_self _ _ _, d, i, p, rw, hd, hi, ?_, .inl ?_⟩
        · rw [hpage, hdirty]
        · rw [hstored, hswap]
      · exact .inl (Function.update_of_ne hnr _ _)

theorem Retry.kept (h : Retry m m') : Kept m m' := by
  cases h with
  | swapOut h => exact h.kept _ _
  | @above n hn hfree hhigh =>
    refine ⟨rfl, rfl, fun n' => ?_, fun d i => ?_, fun _ => .inl rfl⟩
    · rw [Mem.clearPage_memMap, Mem.setMap_memMap]
      by_cases hne : n' = n
      · subst hne
        exact .inr (.inl ⟨hhigh, hfree, Function.update_self _ _ _⟩)
      · exact .inl (Function.update_of_ne hne _ _)
    · rw [entry_clearPage]
      by_cases ht : m.pgDir d = some (n + lowMem)
      · rw [if_pos ht]
        refine .inr (.inr ⟨rfl, n + lowMem, ht, Nat.le_add_left _ _, hhigh, ?_⟩)
        rwa [mapNr, Nat.add_sub_cancel]
      · exact .inl (if_neg ht)

/-! ### A call -/

/-- What a call gives back, nothing after a panic. -/
def Progress.result : Progress → Option (ℕ × Mem)
  | .returns p m => some (p, m)
  | _ => none

/-- What a call comes to: nothing, and then no frame is free, or a frame below `HIGH_MEMORY`,
which is marked and cleared, with the rest as it was but for what was swapped out and the
frames above; or a panic, at an entry of a frame that does not exist. -/
def Outcome (m : Mem) : Progress → Prop
  | .running => False
  | .panics => ∃ d i p, User d ∧ i < 1024 ∧ (m.entry d i).frame = some p ∧ m.highMemory ≤ p
  | .returns p m' => ∃ m₁, Kept m m₁ ∧
    (p = 0 ∧ (∃ d e, m' = m₁.cursor d e) ∧ (∀ n < pagingPages, m₁.memMap n ≠ 0) ∨
      ∃ n < pagingPages, p = n + lowMem ∧ p < m.highMemory ∧ m₁.memMap n = 0 ∧
        m' = (m₁.setMap n 1).clearPage p)

end Mm
