/-
The slots of the swap device and the words of the page tables (mm/swap.c, mm/memory.c),
with processes that sleep in `get_free_page` and `read_swap_page`.

* `Swapper` — the words of the page tables, the swap bit-map and what each task does;
* `Swapper.next` — a task goes on to where it may sleep next;
* `Slots` — a slot in use is named by one word, and a word names a slot in use;
* `swap_slots` — this holds throughout, and no slot number changes, as long as the word
  that `try_to_share` edits is not that of a page swapped out while it slept;
* `swap_slots_edited` — a run in which it is.

Design notes: here an entry is the word itself, as its bits are what the claim of the
device rests on: bit 0 is `PAGE_PRESENT`, bit 1 `PAGE_RW`, bit 6 `PAGE_DIRTY`, and a page
that is swapped out is `swap_nr << 1`.  A table is reached by its directory entry; that a
frame is one table at a time is a matter of the frame counts.  A task sleeps at each of
the places in which the source may sleep, and between two entries of `copy_page_tables`;
which entry `swap_out` tries next, and whether `get_free_page` gives up, is left open.
-/
import Linux012.Memory
import Linux012.Runs

namespace Mm

open Function (update)

/-! ### Words -/

namespace Word

/-- `PAGE_PRESENT & w`. -/
def Present (w : ℕ) : Prop := w % 2 = 1

/-- `PAGE_DIRTY & w`. -/
def Dirty (w : ℕ) : Prop := w / 64 % 2 = 1

instance (w : ℕ) : Decidable (Present w) := inferInstanceAs (Decidable (_ = _))
instance (w : ℕ) : Decidable (Dirty w) := inferInstanceAs (Decidable (_ = _))

/-- The page of a present word. -/
def page (w : ℕ) : ℕ := w / 4096

/-- `w &= ~2`. -/
def clearRw (w : ℕ) : ℕ := if w / 2 % 2 = 1 then w - 2 else w

end Word

/-- What a task wants a frame for: `j` and `i` are the directory entry, in its own space,
and the entry, `c` is the task that `fork` makes, with `k` directory entries. -/
inductive FrameUse where
  | swapIn (j i nr : ℕ)
  | share (fromDir fromTable i page : ℕ)
  | copyTable (c k j : ℕ)
  | copyPage (c k j i word : ℕ)
  /-- the page of `do_no_page`, and a table for it in `put_page` -/
  | page (j i : ℕ)
  | put (j i q : ℕ)
  deriving DecidableEq

/-- What a task does. -/
inductive SwapPhase where
  /-- there is no such task -/
  | absent
  | runs
  /-- its tables are being copied -/
  | born
  /-- in `get_free_page` -/
  | frees (u : FrameUse)
  /-- in `write_swap_page` of `get_free_page`, with page `p` -/
  | writes (p : ℕ) (u : FrameUse)
  /-- in `read_swap_page` of `swap_in` and of `copy_page_tables`, to page `q` -/
  | readsIn (j i nr q : ℕ)
  | readsCopy (c k j i word q : ℕ)
  /-- in the loops of `copy_page_tables` -/
  | copiesDir (c k j : ℕ)
  | copies (c k j i : ℕ)
  deriving DecidableEq

/-- The task that a task is making. -/
def SwapPhase.child : SwapPhase → Option ℕ
  | .frees (.copyTable c _ _) | .writes _ (.copyTable c _ _) => some c
  | .frees (.copyPage c _ _ _ _) | .writes _ (.copyPage c _ _ _ _) => some c
  | .readsCopy c _ _ _ _ _ | .copiesDir c _ _ | .copies c _ _ _ => some c
  | _ => none

/-- The page tables, `mem_map`, the swap bit-map and the tasks. -/
structure Swapper where
  highMemory : ℕ
  memMap : ℕ → ℕ
  /-- a present directory entry is the page of its table -/
  dir : ℕ → Option ℕ
  /-- entry `i` of the table of directory entry `d` -/
  word : ℕ → ℕ → ℕ
  /-- a set bit is a free slot -/
  bitmap : ℕ → Bool
  tasks : ℕ → SwapPhase

/-- What happens next. -/
inductive SwapEvent where
  /-- `do_no_page` of task `n` for entry `i` of its directory entry `j` -/
  | fault (n j i : ℕ)
  /-- `try_to_share` for this entry, with task `n'` -/
  | share (n n' j i : ℕ)
  /-- a store of the task -/
  | write (n j i : ℕ)
  /-- `copy_page_tables` for task `c`, over `k` directory entries -/
  | fork (n c k : ℕ)
  /-- the next step of its loops -/
  | copy (n : ℕ)
  /-- `free_page_tables` from directory entry `j` of the own space -/
  | free (n j k : ℕ)
  | exit (n : ℕ)
  /-- `swap_out` of task `n` comes to this entry -/
  | tryOut (n d i : ℕ)
  /-- `write_swap_page`, `read_swap_page`, `get_free_page` return -/
  | wrote (n : ℕ)
  | read (n : ℕ)
  | got (n : ℕ)
  | fails (n : ℕ)

namespace Swapper

def setWord (s : Swapper) (d i w : ℕ) : Swapper :=
  { s with word := update s.word d (update (s.word d) i w) }

/-- A zeroed page becomes a table. -/
def setDir (s : Swapper) (d t : ℕ) : Swapper :=
  { s with dir := update s.dir d (some t), word := update s.word d fun _ => 0 }

def setTask (s : Swapper) (n : ℕ) (c : SwapPhase) : Swapper :=
  { s with tasks := update s.tasks n c }

/-- A byte of `mem_map`. -/
def setMap (s : Swapper) (p b : ℕ) : Swapper :=
  { s with memMap := update s.memMap (mapNr p) (b % 256) }

/-- `free_page`. -/
def freePage (s : Swapper) (p : ℕ) : Option Swapper :=
  if p < lowMem then some s
  else if s.highMemory ≤ p then none
  else if s.memMap (mapNr p) ≠ 0 then some (s.setMap p (s.memMap (mapNr p) - 1))
  else none

/-- `get_swap_page`. -/
def getSwapPage (s : Swapper) : Option ℕ := (List.range' 1 32767).find? s.bitmap

/-- `swap_free`. -/
def swapFree (s : Swapper) (nr : ℕ) : Swapper :=
  if nr = 0 then s
  else if nr < swapBits then { s with bitmap := update s.bitmap nr true }
  else s

/-- `try_to_swap_out`, up to `write_swap_page`: the page to write, if any. -/
def tryToSwapOut (s : Swapper) (d i : ℕ) : Option (Option ℕ × Swapper) :=
  if ¬ Word.Present (s.word d i) then some (none, s)
  else if Word.page (s.word d i) < lowMem ∨ pagingPages ≤ Word.page (s.word d i) - lowMem then
    some (none, s)
  else if Word.Dirty (s.word d i) then
    if s.memMap (mapNr (Word.page (s.word d i))) ≠ 1 then some (none, s)
    else match s.getSwapPage with
      | none => some (none, s)
      | some nr =>
        some (some (Word.page (s.word d i)),
          { s.setWord d i (nr * 2) with bitmap := update s.bitmap nr false })
  else ((s.setWord d i 0).freePage (Word.page (s.word d i))).map fun s => (none, s)

/-- The end of `try_to_share` for task `n`, from directory entry `d`. -/
def shareEnd (s : Swapper) (n d i page : ℕ) : Option Swapper :=
  if Word.Present (s.word (16 * n + d % 16) i) then none
  else
    let s := s.setWord d i (Word.clearRw (s.word d i))
    let s := s.setWord (16 * n + d % 16) i (s.word d i)
    some ((s.setMap page (s.memMap (mapNr page) + 1)).setTask n .runs)

/-- The inner loop of `free_page_tables`. -/
def freeEntries (d : ℕ) : ℕ → ℕ → Swapper → Option Swapper
  | 0, _, s => some s
  | nr + 1, i, s =>
    if s.word d i = 0 then freeEntries d nr (i + 1) s
    else if Word.Present (s.word d i) then
      match s.freePage (Word.page (s.word d i)) with
      | none => none
      | some s => freeEntries d nr (i + 1) (s.setWord d i 0)
    else freeEntries d nr (i + 1) ((s.swapFree (s.word d i / 2)).setWord d i 0)

/-- The outer loop of `free_page_tables`. -/
def freeTables : ℕ → ℕ → Swapper → Option Swapper
  | 0, _, s => some s
  | size + 1, d, s =>
    match s.dir d with
    | none => freeTables size (d + 1) s
    | some t =>
      match freeEntries d 1024 0 s with
      | none => none
      | some s =>
        match s.freePage t with
        | none => none
        | some s => freeTables size (d + 1) { s with dir := update s.dir d none }

/-- `get_free_page` returns page `q`.  A table that has been freed while `try_to_share`
slept is written to all the same; what this does is left out. -/
def use (s : Swapper) (n q : ℕ) : FrameUse → Option Swapper
  | .swapIn j i nr => some (s.setTask n (.readsIn j i nr q))
  | .share d t i page =>
    if s.dir d = some t then (s.setDir (16 * n + d % 16) q).shareEnd n d i page else none
  | .copyTable c k j => some ((s.setDir (16 * c + j) q).setTask n (.copies c k j 0))
  | .copyPage c k j i w => some (s.setTask n (.readsCopy c k j i w q))
  | .page j i =>
    if s.dir (16 * n + j) = none then some (s.setTask n (.frees (.put j i q)))
    else some ((s.setWord (16 * n + j) i (q * 4096 + 7)).setTask n .runs)
  | .put j i p =>
    some (((s.setDir (16 * n + j) q).setWord (16 * n + j) i (p * 4096 + 7)).setTask n .runs)

/-- `get_free_page` returns 0: `oom`, or -1 of `copy_page_tables`, for which `copy_mem`
frees what has been copied. -/
def fail (s : Swapper) (n : ℕ) : FrameUse → Option Swapper
  | .copyTable c k _ | .copyPage c k _ _ _ =>
    (freeTables k (16 * c) s).map fun s => (s.setTask c .absent).setTask n .runs
  | .put _ _ p => (s.freePage p).map fun s => s.setTask n .runs
  | _ => some (s.setTask n .runs)

/-- The loops of `copy_page_tables`: the next directory entry. -/
def copyDir (s : Swapper) (n c k j : ℕ) : Option Swapper :=
  if j = k then some ((s.setTask c .runs).setTask n .runs)
  else if (s.dir (16 * c + j)).isSome then none
  else if (s.dir (16 * n + j)).isSome then some (s.setTask n (.frees (.copyTable c k j)))
  else some (s.setTask n (.copiesDir c k (j + 1)))

/-- The entries of a table to copy, fewer from the kernel. -/
def copyCount (n : ℕ) : ℕ := if n = 0 then 160 else 1024

/-- The next entry. -/
def copyEntry (s : Swapper) (n c k j i : ℕ) : Swapper :=
  let w := s.word (16 * n + j) i
  if i = copyCount n then s.setTask n (.copiesDir c k (j + 1))
  else if w = 0 then s.setTask n (.copies c k j (i + 1))
  else if ¬ Word.Present w then s.setTask n (.frees (.copyPage c k j i w))
  else
    let s := s.setWord (16 * c + j) i (Word.clearRw w)
    if lowMem ≤ Word.page w then
      let s := s.setWord (16 * n + j) i (Word.clearRw w)
      (s.setMap (Word.page w) (s.memMap (mapNr (Word.page w)) + 1)).setTask n
        (.copies c k j (i + 1))
    else s.setTask n (.copies c k j (i + 1))

/-- What an event leads to. -/
def next (s : Swapper) : SwapEvent → Option Swapper
  | .fault n j i =>
    if s.tasks n = .runs ∧ j < 16 ∧ i < 1024 ∧ ¬ Word.Present (s.word (16 * n + j) i) then
      if s.word (16 * n + j) i ≠ 0 then
        some (s.setTask n (.frees (.swapIn j i (s.word (16 * n + j) i / 2))))
      else some (s.setTask n (.frees (.page j i)))
    else none
  | .share n n' j i =>
    if s.tasks n = .runs ∧ n ≠ n' ∧ j < 16 ∧ i < 1024 ∧ s.word (16 * n + j) i = 0 then
      match s.dir (16 * n' + j) with
      | none => some s
      | some t =>
        let w := s.word (16 * n' + j) i
        if ¬ Word.Present w ∨ Word.Dirty w ∨ s.highMemory ≤ Word.page w ∨ Word.page w < lowMem then
          some s
        else if s.dir (16 * n + j) = none then
          some (s.setTask n (.frees (.share (16 * n' + j) t i (Word.page w))))
        else s.shareEnd n (16 * n' + j) i (Word.page w)
    else none
  | .write n j i =>
    if s.tasks n = .runs ∧ j < 16 ∧ i < 1024 ∧ Word.Present (s.word (16 * n + j) i) ∧
        ¬ Word.Dirty (s.word (16 * n + j) i) then
      some (s.setWord (16 * n + j) i (s.word (16 * n + j) i + 64))
    else none
  | .fork n c k =>
    if s.tasks n = .runs ∧ s.tasks c = .absent ∧ c < 64 ∧ k ≤ 16 then
      some ((s.setTask c .born).setTask n (.copiesDir c k 0))
    else none
  | .copy n =>
    match s.tasks n with
    | .copiesDir c k j => s.copyDir n c k j
    | .copies c k j i => some (s.copyEntry n c k j i)
    | _ => none
  | .free n j k =>
    if s.tasks n = .runs ∧ j + k ≤ 16 then freeTables k (16 * n + j) s else none
  | .exit n =>
    if s.tasks n = .runs then some (s.setTask n .absent) else none
  | .tryOut n d i =>
    match s.tasks n with
    | .frees u =>
      if firstDir ≤ d ∧ i < 1024 ∧ (s.dir d).isSome then
        (s.tryToSwapOut d i).map fun (p, s) =>
          match p with
          | none => s
          | some p => s.setTask n (.writes p u)
      else none
    | _ => none
  | .wrote n =>
    match s.tasks n with
    | .writes p u => (s.freePage p).map fun s => s.setTask n (.frees u)
    | _ => none
  | .read n =>
    match s.tasks n with
    | .readsIn j i nr q =>
      some (({ s with bitmap := update s.bitmap nr true }.setWord (16 * n + j) i
        (q * 4096 + 71)).setTask n .runs)
    | .readsCopy c k j i w q =>
      some (((s.setWord (16 * c + j) i w).setWord (16 * n + j) i (q * 4096 + 71)).setTask n
        (.copies c k j (i + 1)))
    | _ => none
  | .got n =>
    match s.tasks n with
    | .frees u =>
      match findFree s.memMap pagingPages with
      | none => none
      | some m =>
        let s := { s with memMap := update s.memMap m 1 }
        if s.highMemory ≤ m + lowMem then some s else s.use n (m + lowMem) u
    | _ => none
  | .fails n =>
    match s.tasks n with
    | .frees u => s.fail n u
    | _ => none

/-- A word that names slot `nr`. -/
def Names (s : Swapper) (d i nr : ℕ) : Prop := nr ≠ 0 ∧ s.word d i = nr * 2

/-- `init_swapping`: what it makes of the bit-map it has read, if it is in order; `size`
is that of the device in blocks. -/
def initSwapping (size : ℕ) (bits : ℕ → Bool) : Option (ℕ → Bool) :=
  if size < 100 then none
  else
    let size := min (size / 4) swapBits
    -- the place of the signature is zeroed
    let bits := fun n => bits n && decide (n < 4086 * 8 ∨ 4096 * 8 ≤ n)
    if bits 0 ∨ bits size ∨ ∃ n < swapBits, size ≤ n ∧ bits n then none
    else if ∃ n < size, 1 ≤ n ∧ bits n then some fun n => bits n && decide (n < swapBits)
    else none

end Swapper

/-- The runs after `init_swapping` has accepted a device. -/
def swapping (size : ℕ) (bits : ℕ → Bool) : System Swapper SwapEvent where
  init s := Swapper.initSwapping size bits = some s.bitmap ∧
    (∀ d i, s.word d i = 0 ∨ Word.Present (s.word d i)) ∧
    (∀ d i, s.dir d = none ∨ 1024 ≤ i → s.word d i = 0) ∧
    ∀ n, s.tasks n = .absent ∨ s.tasks n = .runs
  step s e s' := s.next e = some s'

namespace Swapper

/-- The word that `try_to_share` edits after its `get_free_page` is not that of a page
that has been swapped out, and its table is still there. -/
def Kept (s : Swapper) : SwapEvent → Prop
  | .got n => ∀ d t i page, s.tasks n = .frees (.share d t i page) →
      s.dir d = some t ∧ ∀ nr, ¬ s.Names d i nr
  | _ => True

/-! ### Slots and words -/

variable {s s' s₁ : Swapper} {b₀ : ℕ → Bool} {n c d i j k nr p w : ℕ}

/-- A slot that was free at first is in use if and only if a word names it, and then one
word does; no word names another slot. -/
structure Slots (b₀ : ℕ → Bool) (s : Swapper) : Prop where
  used : ∀ d i nr, s.Names d i nr → s.bitmap nr = false ∧ b₀ nr = true
  alone : ∀ d i d' i' nr, s.Names d i nr → s.Names d' i' nr → d' = d ∧ i' = i
  named : ∀ nr, b₀ nr = true → s.bitmap nr = false → ∃ d i, s.Names d i nr
  free : ∀ nr, s.bitmap nr = true → b₀ nr = true

/-- A word that names a slot names no other afterwards. -/
def Keeps (s s' : Swapper) : Prop := ∀ d i nr nr', s.Names d i nr → s'.Names d i nr' → nr' = nr

theorem Names.inj {nr' : ℕ} (h : s.Names d i nr) (h' : s.Names d i nr') : nr' = nr := by
  have heq := h.2.symm.trans h'.2
  omega

theorem names_congr (h : s'.word d i = s.word d i) : s'.Names d i nr ↔ s.Names d i nr := by
  rw [Names, Names, h]

theorem not_names (h : s.word d i = 0 ∨ Word.Present (s.word d i)) : ¬ s.Names d i nr := by
  rintro ⟨hne, heq⟩
  rw [Word.Present] at h
  omega

theorem Keeps.refl (s : Swapper) : s.Keeps s := fun _ _ _ _ h h' => h.inj h'

theorem word_setWord {d' i' : ℕ} :
    (s.setWord d i w).word d' i' = if d' = d ∧ i' = i then w else s.word d' i' := by
  simp only [setWord, Function.update_apply]
  by_cases hd : d' = d
  · subst hd
    by_cases hi : i' = i <;> simp [hi]
  · simp [hd]

/-- The words keep what they name. -/
theorem Slots.keep (h : Slots b₀ s) (hn : ∀ d i nr, s'.Names d i nr ↔ s.Names d i nr)
    (hb : s'.bitmap = s.bitmap) : Slots b₀ s' ∧ s.Keeps s' := by
  refine ⟨⟨?_, ?_, ?_, ?_⟩, fun d i nr nr' hnr hnr' => hnr.inj ((hn d i nr').mp hnr')⟩
  · intro d i nr hnr
    rw [hb]
    exact h.used d i nr ((hn d i nr).mp hnr)
  · intro d i d' i' nr hnr hnr'
    exact h.alone d i d' i' nr ((hn d i nr).mp hnr) ((hn d' i' nr).mp hnr')
  · intro nr hfree hused
    rw [hb] at hused
    obtain ⟨d, i, hnr⟩ := h.named nr hfree hused
    exact ⟨d, i, (hn d i nr).mpr hnr⟩
  · rw [hb]
    exact h.free

/-- A free slot is taken for a word. -/
theorem Slots.evict (h : Slots b₀ s) (hfree : s.bitmap nr = true) (hnr : nr ≠ 0)
    (hold : ∀ nr, ¬ s.Names d i nr) (hnew : s'.word d i = nr * 2)
    (hn : ∀ d' i', ¬ (d' = d ∧ i' = i) → s'.word d' i' = s.word d' i')
    (hb : s'.bitmap = update s.bitmap nr false) : Slots b₀ s' ∧ s.Keeps s' := by
  have hnames : ∀ d' i' nr', s'.Names d' i' nr' ↔
      d' = d ∧ i' = i ∧ nr' = nr ∨ s.Names d' i' nr' := by
    intro d' i' nr'
    by_cases hdi : d' = d ∧ i' = i
    · obtain ⟨rfl, rfl⟩ := hdi
      simp only [Names, hnew, true_and]
      have hno : ¬ (nr' ≠ 0 ∧ s.word d' i' = nr' * 2) := hold nr'
      constructor
      · rintro ⟨-, heq⟩
        exact .inl (by omega)
      · rintro (rfl | hcon)
        · exact ⟨hnr, rfl⟩
        · exact absurd hcon hno
    · rw [names_congr (hn d' i' hdi)]
      constructor
      · exact .inr
      · rintro (⟨rfl, rfl, -⟩ | hname)
        · exact absurd ⟨rfl, rfl⟩ hdi
        · exact hname
  -- no word names the slot yet
  have hnone : ∀ d' i', ¬ s.Names d' i' nr := fun d' i' hname => by
    rw [(h.used d' i' nr hname).1] at hfree
    cases hfree
  refine ⟨⟨?_, ?_, ?_, ?_⟩, ?_⟩
  · intro d' i' nr' hname
    rw [hb]
    rcases (hnames d' i' nr').mp hname with ⟨-, -, rfl⟩ | hname
    · exact ⟨Function.update_self _ _ _, h.free _ hfree⟩
    · obtain ⟨hused, hgood⟩ := h.used d' i' nr' hname
      by_cases hnr' : nr' = nr
      · exact absurd (hnr' ▸ hname) (hnone d' i')
      · exact ⟨by rw [Function.update_of_ne hnr', hused], hgood⟩
  · intro d' i' d'' i'' nr' hname hname'
    rcases (hnames d' i' nr').mp hname with ⟨rfl, rfl, rfl⟩ | hname
    · rcases (hnames d'' i'' nr').mp hname' with ⟨rfl, rfl, -⟩ | hname'
      · exact ⟨rfl, rfl⟩
      · exact absurd hname' (hnone d'' i'')
    · rcases (hnames d'' i'' nr').mp hname' with ⟨rfl, rfl, rfl⟩ | hname'
      · exact absurd hname (hnone d' i')
      · exact h.alone d' i' d'' i'' nr' hname hname'
  · intro nr' hgood hused
    rw [hb] at hused
    by_cases hnr' : nr' = nr
    · exact ⟨d, i, (hnames d i nr').mpr (.inl ⟨rfl, rfl, hnr'⟩)⟩
    · rw [Function.update_of_ne hnr'] at hused
      obtain ⟨d', i', hname⟩ := h.named nr' hgood hused
      exact ⟨d', i', (hnames d' i' nr').mpr (.inr hname)⟩
  · intro nr' hset
    rw [hb] at hset
    by_cases hnr' : nr' = nr
    · rw [hnr', Function.update_self] at hset
      cases hset
    · rw [Function.update_of_ne hnr'] at hset
      exact h.free nr' hset
  · intro d' i' nr₁ nr₂ hname hname'
    rcases (hnames d' i' nr₂).mp hname' with ⟨rfl, rfl, -⟩ | hname'
    · exact absurd hname (hold nr₁)
    · exact hname.inj hname'

/-- The slot of a word is freed, and the word names none. -/
theorem Slots.release (h : Slots b₀ s) (hname : s.Names d i nr) (hnew : ∀ nr, ¬ s'.Names d i nr)
    (hn : ∀ d' i', ¬ (d' = d ∧ i' = i) → s'.word d' i' = s.word d' i')
    (hb : s'.bitmap = update s.bitmap nr true) : Slots b₀ s' ∧ s.Keeps s' := by
  have hnames : ∀ d' i' nr', s'.Names d' i' nr' ↔ ¬ (d' = d ∧ i' = i) ∧ s.Names d' i' nr' := by
    intro d' i' nr'
    by_cases hdi : d' = d ∧ i' = i
    · obtain ⟨rfl, rfl⟩ := hdi
      simp [hnew nr']
    · rw [names_congr (hn d' i' hdi)]
      simp [hdi]
  refine ⟨⟨?_, ?_, ?_, ?_⟩, ?_⟩
  · intro d' i' nr' hname'
    obtain ⟨hne, hname'⟩ := (hnames d' i' nr').mp hname'
    obtain ⟨hused, hgood⟩ := h.used d' i' nr' hname'
    have hnr : nr' ≠ nr := by
      rintro rfl
      exact hne (h.alone d i d' i' nr' hname hname')
    rw [hb, Function.update_of_ne hnr]
    exact ⟨hused, hgood⟩
  · intro d' i' d'' i'' nr' hname' hname''
    exact h.alone d' i' d'' i'' nr' ((hnames d' i' nr').mp hname').2
      ((hnames d'' i'' nr').mp hname'').2
  · intro nr' hgood hused
    rw [hb] at hused
    by_cases hnr : nr' = nr
    · rw [hnr, Function.update_self] at hused
      cases hused
    · rw [Function.update_of_ne hnr] at hused
      obtain ⟨d', i', hname'⟩ := h.named nr' hgood hused
      refine ⟨d', i', (hnames d' i' nr').mpr ⟨?_, hname'⟩⟩
      rintro ⟨rfl, rfl⟩
      exact hnr (hname.inj hname')
  · intro nr' hset
    rw [hb] at hset
    by_cases hnr : nr' = nr
    · rw [hnr]
      exact (h.used d i nr hname).2
    · rw [Function.update_of_ne hnr] at hset
      exact h.free nr' hset
  · intro d' i' nr₁ nr₂ hname' hname''
    exact hname'.inj ((hnames d' i' nr₂).mp hname'').2

/-- The slot of a word goes to another word. -/
theorem Slots.move (h : Slots b₀ s) (d' i' : ℕ) (hname : s.Names d i nr)
    (hold : ∀ nr, ¬ s.Names d' i' nr) (hnew : ∀ nr, ¬ s'.Names d i nr)
    (hmoved : s'.word d' i' = s.word d i)
    (hn : ∀ d₁ i₁, ¬ (d₁ = d ∧ i₁ = i) → ¬ (d₁ = d' ∧ i₁ = i') → s'.word d₁ i₁ = s.word d₁ i₁)
    (hb : s'.bitmap = s.bitmap) : Slots b₀ s' ∧ s.Keeps s' := by
  -- what a word names afterwards, it or the first named before
  have hnames : ∀ d₁ i₁ nr₁, s'.Names d₁ i₁ nr₁ →
      d₁ = d' ∧ i₁ = i' ∧ nr₁ = nr ∨ ¬ (d₁ = d ∧ i₁ = i) ∧ s.Names d₁ i₁ nr₁ := by
    intro d₁ i₁ nr₁ hname₁
    have hne : ¬ (d₁ = d ∧ i₁ = i) := by
      rintro ⟨rfl, rfl⟩
      exact hnew nr₁ hname₁
    by_cases hdi : d₁ = d' ∧ i₁ = i'
    · obtain ⟨rfl, rfl⟩ := hdi
      refine .inl ⟨rfl, rfl, ?_⟩
      have hsame : s.Names d i nr₁ := ⟨hname₁.1, hmoved.symm.trans hname₁.2⟩
      exact hname.inj hsame
    · exact .inr ⟨hne, (names_congr (hn d₁ i₁ hne hdi)).mp hname₁⟩
  refine ⟨⟨?_, ?_, ?_, ?_⟩, ?_⟩
  · intro d₁ i₁ nr₁ hname₁
    rw [hb]
    rcases hnames d₁ i₁ nr₁ hname₁ with ⟨-, -, rfl⟩ | ⟨-, hname₁⟩
    · exact h.used d i _ hname
    · exact h.used d₁ i₁ nr₁ hname₁
  · intro d₁ i₁ d₂ i₂ nr₁ hname₁ hname₂
    rcases hnames d₁ i₁ nr₁ hname₁ with ⟨rfl, rfl, rfl⟩ | ⟨hne₁, hname₁⟩
    · rcases hnames d₂ i₂ nr₁ hname₂ with ⟨rfl, rfl, -⟩ | ⟨hne₂, hname₂⟩
      · exact ⟨rfl, rfl⟩
      · exact absurd (h.alone d i d₂ i₂ nr₁ hname hname₂) hne₂
    · rcases hnames d₂ i₂ nr₁ hname₂ with ⟨rfl, rfl, rfl⟩ | ⟨hne₂, hname₂⟩
      · exact absurd (h.alone d i d₁ i₁ _ hname hname₁) hne₁
      · exact h.alone d₁ i₁ d₂ i₂ nr₁ hname₁ hname₂
  · intro nr₁ hgood hused
    rw [hb] at hused
    obtain ⟨d₁, i₁, hname₁⟩ := h.named nr₁ hgood hused
    by_cases hdi : d₁ = d ∧ i₁ = i
    · obtain ⟨rfl, rfl⟩ := hdi
      exact ⟨d', i', hname₁.1, hmoved.trans hname₁.2⟩
    · have hdi' : ¬ (d₁ = d' ∧ i₁ = i') := by
        rintro ⟨rfl, rfl⟩
        exact hold nr₁ hname₁
      exact ⟨d₁, i₁, (names_congr (hn d₁ i₁ hdi hdi')).mpr hname₁⟩
  · rw [hb]
    exact h.free
  · intro d₁ i₁ nr₁ nr₂ hname₁ hname₂
    rcases hnames d₁ i₁ nr₂ hname₂ with ⟨rfl, rfl, -⟩ | ⟨-, hname₂⟩
    · exact absurd hname₁ (hold nr₁)
    · exact hname₁.inj hname₂

/-! ### Tasks -/

/-- The tasks that are made: nobody makes two tasks of one, and they do not run yet. -/
structure Family (tasks : ℕ → SwapPhase) : Prop where
  born : ∀ n c, (tasks n).child = some c → tasks c = .born
  one : ∀ n n' c, (tasks n).child = some c → (tasks n').child = some c → n = n'

theorem Family.ne {tasks : ℕ → SwapPhase} (h : Family tasks) (hc : (tasks n).child = some c) :
    c ≠ n := by
  rintro rfl
  rw [h.born c c hc] at hc
  cases hc

/-- Where a copy is: at entry `i` of directory entry `j`, the rest of which is empty. -/
structure CopyAt (s : Swapper) (c k j i : ℕ) : Prop where
  lt : j < k
  le : k ≤ 16
  here : (s.dir (16 * c + j)).isSome
  rest : ∀ i', i ≤ i' → s.word (16 * c + j) i' = 0

/-- What a task that sleeps in `get_free_page` relies on. -/
def UseOk (s : Swapper) (n : ℕ) : FrameUse → Prop
  | .swapIn j i nr => j < 16 ∧ i < 1024 ∧ s.Names (16 * n + j) i nr
  | .share d _ i _ => d / 16 ≠ n ∧ i < 1024 ∧ s.dir (16 * n + d % 16) = none
  | .copyTable c k j => j < k ∧ k ≤ 16 ∧ s.dir (16 * c + j) = none
  | .copyPage c k j i w =>
    s.CopyAt c k j i ∧ i < copyCount n ∧ ∃ nr, s.Names (16 * n + j) i nr ∧ w = nr * 2
  | .page j i => j < 16 ∧ i < 1024 ∧ s.word (16 * n + j) i = 0
  | .put j i _ => j < 16 ∧ i < 1024 ∧ s.dir (16 * n + j) = none

/-- What a task relies on. -/
def TaskOk (s : Swapper) (n : ℕ) : SwapPhase → Prop
  | .frees u | .writes _ u => s.UseOk n u
  | .readsIn j i nr _ => j < 16 ∧ i < 1024 ∧ s.Names (16 * n + j) i nr
  | .readsCopy c k j i w _ =>
    s.CopyAt c k j i ∧ i < copyCount n ∧ ∃ nr, s.Names (16 * n + j) i nr ∧ w = nr * 2
  | .copiesDir _ k j => j ≤ k ∧ k ≤ 16
  | .copies c k j i => s.CopyAt c k j i ∧ i ≤ copyCount n
  | _ => True

/-- Where no table is, no word is. -/
def Empty (s : Swapper) : Prop := ∀ d i, s.dir d = none ∨ 1024 ≤ i → s.word d i = 0

/-- The state between the steps. -/
structure Inv (b₀ : ℕ → Bool) (s : Swapper) : Prop where
  slots : Slots b₀ s
  empty : s.Empty
  family : Family s.tasks
  tasks : ∀ n, s.TaskOk n (s.tasks n)

/-- The directory entries that `s'` leaves alone, but for words of pages that are there. -/
def SameDir (s s' : Swapper) (d : ℕ) : Prop :=
  s'.dir d = s.dir d ∧ ∀ i, ¬ Word.Present (s.word d i) → s'.word d i = s.word d i

theorem SameDir.names (h : s.SameDir s' d) (hn : s.Names d i nr) : s'.Names d i nr := by
  refine (names_congr (h.2 i fun hp => ?_)).mpr hn
  have heq := hn.2
  rw [Word.Present] at hp
  omega

theorem SameDir.zero (h : s.SameDir s' d) (hz : s.word d i = 0) : s'.word d i = 0 := by
  rw [h.2 i, hz]
  rw [hz]
  decide

theorem CopyAt.keep (h : s.CopyAt c k j i) (hc : s.SameDir s' (16 * c + j)) : s'.CopyAt c k j i :=
  ⟨h.lt, h.le, hc.1 ▸ h.here, fun i' hi' => hc.zero (h.rest i' hi')⟩

theorem UseOk.keep {u : FrameUse} (h : s.UseOk n u)
    (hs : ∀ d, d / 16 = n ∨ (SwapPhase.frees u).child = some (d / 16) → s.SameDir s' d) :
    s'.UseOk n u := by
  cases u with
  | swapIn j i nr => exact ⟨h.1, h.2.1, (hs _ (.inl (by have := h.1; omega))).names h.2.2⟩
  | share d t i page =>
    have hd := (hs (16 * n + d % 16) (.inl (by omega))).1
    exact ⟨h.1, h.2.1, hd.trans h.2.2⟩
  | copyTable c k j =>
    obtain ⟨hj, hk, hnone⟩ := h
    have hc : (16 * c + j) / 16 = c := by omega
    exact ⟨hj, hk, (hs _ (.inr (by rw [hc]; rfl))).1.trans hnone⟩
  | copyPage c k j i w =>
    obtain ⟨hat, hi, nr, hnr, hw⟩ := h
    have hj := hat.lt
    have hk := hat.le
    have hc : (16 * c + j) / 16 = c := by omega
    exact ⟨hat.keep (hs _ (.inr (by rw [hc]; rfl))), hi, nr,
      (hs _ (.inl (by omega))).names hnr, hw⟩
  | page j i => exact ⟨h.1, h.2.1, (hs _ (.inl (by have := h.1; omega))).zero h.2.2⟩
  | put j i q => exact ⟨h.1, h.2.1, (hs _ (.inl (by have := h.1; omega))).1.trans h.2.2⟩

theorem TaskOk.keep {ph : SwapPhase} (h : s.TaskOk n ph)
    (hs : ∀ d, d / 16 = n ∨ ph.child = some (d / 16) → s.SameDir s' d) : s'.TaskOk n ph := by
  cases ph with
  | absent | runs | born => trivial
  | frees u => exact UseOk.keep h hs
  | writes p u => exact UseOk.keep h (by cases u <;> exact hs)
  | readsIn j i nr q => exact ⟨h.1, h.2.1, (hs _ (.inl (by have := h.1; omega))).names h.2.2⟩
  | readsCopy c k j i w q =>
    obtain ⟨hat, hi, nr, hnr, hw⟩ := h
    have hj := hat.lt
    have hk := hat.le
    have hc : (16 * c + j) / 16 = c := by omega
    exact ⟨hat.keep (hs _ (.inr (by rw [hc]; rfl))), hi, nr,
      (hs _ (.inl (by omega))).names hnr, hw⟩
  | copiesDir c k j => exact h
  | copies c k j i =>
    have hj := h.1.lt
    have hk := h.1.le
    have hc : (16 * c + j) / 16 = c := by omega
    exact ⟨h.1.keep (hs _ (.inr (by rw [hc]; rfl))), h.2⟩

/-- A task goes on: the words and directory entries that are not its own, or those of the
task it makes, keep what others rely on. -/
theorem Inv.go (h : Inv b₀ s) (hborn : s.tasks n ≠ .born) (hslots : Slots b₀ s')
    (hempty : s'.Empty) (hfamily : Family s'.tasks)
    (htasks : ∀ n', n' ≠ n → s'.tasks n' = s.tasks n' ∨ ∀ s : Swapper, s.TaskOk n' (s'.tasks n'))
    (hsame : ∀ d, d / 16 ≠ n → (s.tasks n).child ≠ some (d / 16) → s.SameDir s' d)
    (hown : s'.TaskOk n (s'.tasks n)) : Inv b₀ s' := by
  refine ⟨hslots, hempty, hfamily, fun n' => ?_⟩
  by_cases hn : n' = n
  · rw [hn]
    exact hown
  · rcases htasks n' hn with heq | hany
    · rw [heq]
      by_cases hmade : s.tasks n' = .born
      · rw [hmade]
        trivial
      · refine (h.tasks n').keep fun d hd => hsame d ?_ ?_
        · rintro rfl
          rcases hd with hd | hd
          · exact hn hd.symm
          · exact hborn (h.family.born n' _ hd)
        · intro hchild
          rcases hd with hd | hd
          · exact hmade (hd ▸ h.family.born n _ hchild)
          · exact hn (h.family.one n' n _ hd hchild)
    · exact hany s'

/-! ### One step -/

variable {ph : SwapPhase} {t q : ℕ}

/-- The step to `s'` keeps the invariant, and no slot number changes. -/
def Step (b₀ : ℕ → Bool) (s s' : Swapper) : Prop := Inv b₀ s' ∧ s.Keeps s'

theorem Family.set {tasks : ℕ → SwapPhase} (h : Family tasks) (hborn : tasks n ≠ .born)
    (hchild : ph.child = (tasks n).child) : Family (update tasks n ph) := by
  have hsame : ∀ n', (update tasks n ph n').child = (tasks n').child := by
    intro n'
    by_cases hn : n' = n
    · rw [hn, Function.update_self, hchild]
    · rw [Function.update_of_ne hn]
  constructor
  · intro n' c hc
    rw [hsame] at hc
    have hb := h.born n' c hc
    have hne : c ≠ n := by
      rintro rfl
      exact hborn hb
    rw [Function.update_of_ne hne, hb]
  · intro n' n'' c hc hc'
    rw [hsame] at hc hc'
    exact h.one n' n'' c hc hc'

/-- A task goes on, and makes the same task as before, or none. -/
theorem Inv.step (h : Inv b₀ s) (hborn : s.tasks n ≠ .born) (hk : Slots b₀ s₁ ∧ s.Keeps s₁)
    (hempty : s₁.Empty) (htasks : s₁.tasks = s.tasks) (hchild : ph.child = (s.tasks n).child)
    (hsame : ∀ d, d / 16 ≠ n → (s.tasks n).child ≠ some (d / 16) → s.SameDir s₁ d)
    (hok : s₁.TaskOk n ph) : Step b₀ s (s₁.setTask n ph) := by
  have hupdate : (s₁.setTask n ph).tasks = update s.tasks n ph := by
    rw [← htasks]
    rfl
  have hslots : Slots b₀ (s₁.setTask n ph) ∧ s₁.Keeps (s₁.setTask n ph) :=
    hk.1.keep (fun _ _ _ => Iff.rfl) rfl
  refine ⟨h.go hborn hslots.1 hempty ?_ ?_ hsame ?_, hk.2⟩
  · rw [hupdate]
    exact h.family.set hborn hchild
  · intro n' hn
    refine .inl ?_
    rw [hupdate, Function.update_of_ne hn]
  · rw [hupdate, Function.update_self]
    exact hok.keep fun _ _ => ⟨rfl, fun _ _ => rfl⟩

/-- The tasks stay. -/
theorem Inv.stay (h : Inv b₀ s) (hborn : s.tasks n ≠ .born) (hk : Slots b₀ s₁ ∧ s.Keeps s₁)
    (hempty : s₁.Empty) (htasks : s₁.tasks = s.tasks)
    (hsame : ∀ d, d / 16 ≠ n → (s.tasks n).child ≠ some (d / 16) → s.SameDir s₁ d)
    (hok : s₁.TaskOk n (s.tasks n)) : Step b₀ s s₁ := by
  have hsteps := h.step hborn hk hempty htasks rfl hsame hok
  rwa [setTask, ← htasks, Function.update_eq_self] at hsteps

/-- Nothing but the task changes. -/
theorem Inv.setTask (h : Inv b₀ s) (hborn : s.tasks n ≠ .born)
    (hchild : ph.child = (s.tasks n).child) (hok : s.TaskOk n ph) :
    Step b₀ s (s.setTask n ph) :=
  h.step hborn ⟨h.slots, .refl s⟩ h.empty rfl hchild (fun _ _ _ => ⟨rfl, fun _ _ => rfl⟩) hok

theorem Slots.same (h : Slots b₀ s) (hw : s'.word = s.word) (hb : s'.bitmap = s.bitmap) :
    Slots b₀ s' ∧ s.Keeps s' :=
  h.keep (fun d i _ => names_congr (by rw [hw])) hb

theorem Slots.setMap {b : ℕ} (h : Slots b₀ s₁ ∧ s.Keeps s₁) :
    Slots b₀ (s₁.setMap p b) ∧ s.Keeps (s₁.setMap p b) := by
  have hslots : Slots b₀ (s₁.setMap p b) ∧ s₁.Keeps (s₁.setMap p b) := h.1.same rfl rfl
  exact ⟨hslots.1, h.2⟩

/-- A word that names no slot is stored over another. -/
theorem Slots.setWord (h : Slots b₀ s) (hold : ∀ nr, ¬ s.Names d i nr)
    (hnew : w = 0 ∨ Word.Present w) : Slots b₀ (s.setWord d i w) ∧ s.Keeps (s.setWord d i w) := by
  refine h.keep (fun d' i' nr => ?_) rfl
  by_cases hdi : d' = d ∧ i' = i
  · obtain ⟨rfl, rfl⟩ := hdi
    refine iff_of_false (not_names ?_) (hold nr)
    rwa [word_setWord, if_pos ⟨rfl, rfl⟩]
  · exact names_congr (by rw [word_setWord, if_neg hdi])

theorem Empty.setWord (h : s.Empty) (hd : (s.dir d).isSome) (hi : i < 1024) :
    (s.setWord d i w).Empty := by
  intro d' i' hcase
  rw [word_setWord, if_neg]
  · exact h d' i' hcase
  · rintro ⟨rfl, rfl⟩
    rcases hcase with hnone | hle
    · rw [show s.dir d' = none from hnone] at hd
      cases hd
    · omega

theorem sameDir_setWord {d' : ℕ} (h : d' ≠ d) : s.SameDir (s.setWord d i w) d' := by
  refine ⟨rfl, fun i' _ => ?_⟩
  rw [word_setWord, if_neg fun hcon => h hcon.1]

theorem sameDir_of_present {d' : ℕ} (h : Word.Present (s.word d i)) :
    s.SameDir (s.setWord d i w) d' := by
  refine ⟨rfl, fun i' hi' => ?_⟩
  rw [word_setWord, if_neg]
  rintro ⟨rfl, rfl⟩
  exact hi' h

theorem word_setDir {d' : ℕ} (h : s.Empty) (hd : s.dir d = none) :
    (s.setDir d t).word d' i = s.word d' i := by
  simp only [setDir, Function.update_apply]
  split
  case isTrue hd' => rw [hd', h d i (.inl hd)]
  case isFalse => rfl

theorem Slots.setDir (h : Slots b₀ s) (he : s.Empty) (hd : s.dir d = none) :
    Slots b₀ (s.setDir d t) ∧ s.Keeps (s.setDir d t) :=
  h.same (funext fun _ => funext fun _ => word_setDir he hd) rfl

theorem Empty.setDir (h : s.Empty) (hd : s.dir d = none) : (s.setDir d t).Empty := by
  intro d' i hcase
  rw [word_setDir h hd]
  by_cases hd' : d' = d
  · exact h d' i (.inl (hd' ▸ hd))
  · rcases hcase with hnone | hle
    · rw [show (s.setDir d t).dir d' = s.dir d' from Function.update_of_ne hd' _ _] at hnone
      exact h d' i (.inl hnone)
    · exact h d' i (.inr hle)

theorem sameDir_setDir {d' : ℕ} (h : s.Empty) (hd : s.dir d = none) (hne : d' ≠ d) :
    s.SameDir (s.setDir d t) d' :=
  ⟨Function.update_of_ne hne _ _, fun _ _ => word_setDir h hd⟩

theorem SameDir.trans (h : s.SameDir s₁ d) (h' : s₁.SameDir s' d) : s.SameDir s' d := by
  refine ⟨h'.1.trans h.1, fun i hi => ?_⟩
  have hi₁ := h.2 i hi
  rw [h'.2 i (by rwa [hi₁]), hi₁]

theorem freePage_eq (h : s.freePage p = some s') : s' = { s with memMap := s'.memMap } := by
  rw [freePage] at h
  split at h
  case isTrue => cases h; rfl
  case isFalse =>
    split at h
    case isTrue => cases h
    case isFalse =>
      split at h
      case isTrue => cases h; rfl
      case isFalse => cases h

/-! ### The steps of the tasks -/

theorem Inv.fault (h : Inv b₀ s) (hs : s.next (.fault n j i) = some s') : Step b₀ s s' := by
  rw [next] at hs
  split at hs
  case isFalse => cases hs
  case isTrue hcond =>
    obtain ⟨hruns, hj, hi, habsent⟩ := hcond
    have hborn : s.tasks n ≠ .born := by rw [hruns]; simp
    have hchild : (s.tasks n).child = none := by rw [hruns]; rfl
    split at hs
    case isTrue hword =>
      cases hs
      refine h.setTask hborn hchild.symm ⟨hj, hi, ?_⟩
      rw [Word.Present] at habsent
      exact ⟨by omega, by omega⟩
    case isFalse hword =>
      cases hs
      exact h.setTask hborn hchild.symm ⟨hj, hi, not_not.mp hword⟩

theorem clearRw_present (h : w = 0 ∨ Word.Present w) :
    Word.clearRw w = 0 ∨ Word.Present (Word.clearRw w) := by
  rw [Word.Present] at *
  rw [Word.clearRw]
  split <;> omega

/-- `try_to_share` edits a word that names no slot. -/
theorem Inv.shareEnd {page : ℕ} (h : Inv b₀ s) (hborn : s.tasks n ≠ .born)
    (hchild : (s.tasks n).child = none) (hd : d / 16 ≠ n) (hi : i < 1024)
    (hdir : (s.dir d).isSome) (hdir' : (s.dir (16 * n + d % 16)).isSome)
    (hfrom : ∀ nr, ¬ s.Names d i nr) (hto : s.word (16 * n + d % 16) i = 0)
    (hs : s.shareEnd n d i page = some s') : Step b₀ s s' := by
  rw [Swapper.shareEnd, if_neg] at hs
  swap
  · rw [hto]
    decide
  obtain rfl := Option.some.inj hs
  have hne : 16 * n + d % 16 ≠ d := by omega
  have hword : s.word d i = 0 ∨ Word.Present (s.word d i) := by
    by_contra hcon
    rw [Word.Present] at hcon
    exact hfrom (s.word d i / 2) ⟨by omega, by omega⟩
  -- the word of the other task
  set s₁ := s.setWord d i (Word.clearRw (s.word d i)) with hs₁
  have hk₁ : Slots b₀ s₁ ∧ s.Keeps s₁ := h.slots.setWord hfrom (clearRw_present hword)
  have hto₁ : s₁.word (16 * n + d % 16) i = 0 := by
    rw [hs₁, word_setWord, if_neg fun hcon => hne hcon.1, hto]
  have hfrom₁ : s₁.word d i = Word.clearRw (s.word d i) := by
    rw [hs₁, word_setWord, if_pos ⟨rfl, rfl⟩]
  have hempty₁ : s₁.Empty := h.empty.setWord hdir hi
  -- and the own one
  set s₂ := s₁.setWord (16 * n + d % 16) i (s₁.word d i) with hs₂
  have hk₂ : Slots b₀ s₂ ∧ s₁.Keeps s₂ :=
    hk₁.1.setWord (fun nr => not_names (.inl hto₁)) (hfrom₁ ▸ clearRw_present hword)
  have hempty₂ : s₂.Empty := hempty₁.setWord hdir' hi
  have hkeeps : s.Keeps s₂ := by
    intro d' i' nr nr' hn hn'
    by_cases hd' : d' = d ∧ i' = i
    · obtain ⟨rfl, rfl⟩ := hd'
      exact absurd hn (hfrom nr)
    · refine hk₂.2 d' i' nr nr' ((names_congr ?_).mpr hn) hn'
      rw [hs₁, word_setWord, if_neg hd']
  refine h.step hborn (Slots.setMap ⟨hk₂.1, hkeeps⟩) hempty₂ rfl hchild.symm ?_ trivial
  intro d' hd' _
  have hsame₁ : s.SameDir s₁ d' := by
    refine ⟨rfl, fun i' hi' => ?_⟩
    rw [hs₁, word_setWord]
    split
    case isTrue heq =>
      obtain ⟨rfl, rfl⟩ := heq
      rcases hword with hz | hp
      · rw [hz]
        rfl
      · exact absurd hp hi'
    case isFalse => rfl
  have hne' : d' ≠ 16 * n + d % 16 := by omega
  have hsame₂ : s.SameDir s₂ d' := hsame₁.trans (sameDir_setWord hne')
  exact ⟨hsame₂.1, hsame₂.2⟩

theorem Inv.share {n' : ℕ} (h : Inv b₀ s) (hs : s.next (.share n n' j i) = some s') :
    Step b₀ s s' := by
  rw [next] at hs
  split at hs
  case isFalse => cases hs
  case isTrue hcond =>
    obtain ⟨hruns, hne, hj, hi, hzero⟩ := hcond
    have hborn : s.tasks n ≠ .born := by rw [hruns]; simp
    have hchild : (s.tasks n).child = none := by rw [hruns]; rfl
    have hstay : Step b₀ s s := ⟨h, .refl s⟩
    have hj' : (16 * n' + j) % 16 = j := by omega
    split at hs
    case h_1 =>
      cases hs
      exact hstay
    case h_2 t hdir =>
      simp only at hs
      split at hs
      case isTrue =>
        cases hs
        exact hstay
      case isFalse hpage =>
        rw [not_or, not_not] at hpage
        split at hs
        case isTrue hown =>
          cases hs
          refine h.setTask hborn hchild.symm ⟨by omega, hi, ?_⟩
          rw [hj', hown]
        case isFalse hown =>
          refine h.shareEnd hborn hchild (by omega) hi (by simp [hdir]) ?_ ?_ ?_ hs
          · rw [hj']
            exact Option.isSome_iff_ne_none.mpr hown
          · exact fun nr => not_names (.inr hpage.1)
          · rw [hj', hzero]

theorem Inv.write (h : Inv b₀ s) (hs : s.next (.write n j i) = some s') : Step b₀ s s' := by
  rw [next] at hs
  split at hs
  case isFalse => cases hs
  case isTrue hcond =>
    obtain ⟨hruns, hj, hi, hpresent, -⟩ := hcond
    obtain rfl := Option.some.inj hs
    have hdir : (s.dir (16 * n + j)).isSome := by
      by_contra hcon
      rw [Option.not_isSome_iff_eq_none] at hcon
      rw [h.empty _ i (.inl hcon)] at hpresent
      cases hpresent
    refine h.stay (n := n) (by rw [hruns]; simp) ?_ (h.empty.setWord hdir hi) rfl ?_ ?_
    · refine h.slots.setWord (fun nr => not_names (.inr hpresent)) (.inr ?_)
      rw [Word.Present] at *
      omega
    · exact fun _ _ _ => sameDir_of_present hpresent
    · rw [hruns]
      trivial

theorem Inv.fork (h : Inv b₀ s) (hs : s.next (.fork n c k) = some s') : Step b₀ s s' := by
  rw [next] at hs
  split at hs
  case isFalse => cases hs
  case isTrue hcond =>
    obtain ⟨hruns, habsent, -, hk⟩ := hcond
    obtain rfl := Option.some.inj hs
    have hne : c ≠ n := by
      rintro rfl
      rw [hruns] at habsent
      cases habsent
    have htask : ∀ n', ((s.setTask c .born).setTask n (.copiesDir c k 0)).tasks n' =
        if n' = n then .copiesDir c k 0 else if n' = c then .born else s.tasks n' := by
      intro n'
      simp only [Swapper.setTask, Function.update_apply]
    -- nobody makes a task that is not there
    have hfree : ∀ n', (s.tasks n').child ≠ some c := fun n' hcon => by
      rw [h.family.born n' c hcon] at habsent
      cases habsent
    have hslots : Slots b₀ ((s.setTask c .born).setTask n (.copiesDir c k 0)) ∧
        s.Keeps ((s.setTask c .born).setTask n (.copiesDir c k 0)) := h.slots.same rfl rfl
    refine ⟨h.go (n := n) (by rw [hruns]; simp) hslots.1 h.empty ?_ ?_ ?_ ?_, hslots.2⟩
    · constructor
      · intro n' c' hc'
        rw [htask] at hc' ⊢
        by_cases hn' : n' = n
        · rw [if_pos hn'] at hc'
          obtain rfl := Option.some.inj hc'
          rw [if_neg hne, if_pos rfl]
        · rw [if_neg hn'] at hc'
          split at hc'
          case isTrue => cases hc'
          case isFalse =>
            have hb := h.family.born n' c' hc'
            have hnc : c' ≠ c := by
              rintro rfl
              exact hfree n' hc'
            have hnn : c' ≠ n := by
              rintro rfl
              rw [hruns] at hb
              cases hb
            rw [if_neg hnn, if_neg hnc, hb]
      · intro n' n'' c' hc' hc''
        rw [htask] at hc' hc''
        split at hc'
        case isTrue hn' =>
          obtain rfl := Option.some.inj hc'
          split at hc''
          case isTrue hn'' => rw [hn', hn'']
          case isFalse =>
            split at hc''
            case isTrue => cases hc''
            case isFalse => exact absurd hc'' (hfree n'')
        case isFalse =>
          split at hc'
          case isTrue => cases hc'
          case isFalse =>
            split at hc''
            case isTrue =>
              obtain rfl := Option.some.inj hc''
              exact absurd hc' (hfree n')
            case isFalse =>
              split at hc''
              case isTrue => cases hc''
              case isFalse => exact h.family.one n' n'' c' hc' hc''
    · intro n' hn'
      rw [htask, if_neg hn']
      split
      case isTrue => exact .inr fun _ => trivial
      case isFalse => exact .inl rfl
    · exact fun _ _ _ => ⟨rfl, fun _ _ => rfl⟩
    · rw [htask, if_pos rfl]
      exact ⟨Nat.zero_le k, hk⟩

/-- A task ends, or the one that it has made runs. -/
theorem Inv.finish (h : Inv b₀ s) {ph' : SwapPhase} (hc : (s.tasks n).child = some c)
    (hph : ph'.child = none) (hany : ∀ s : Swapper, s.TaskOk c ph') (hk : Slots b₀ s₁ ∧ s.Keeps s₁)
    (hempty : s₁.Empty) (htasks : s₁.tasks = s.tasks)
    (hsame : ∀ d, d / 16 ≠ n → d / 16 ≠ c → s.SameDir s₁ d) :
    Step b₀ s ((s₁.setTask c ph').setTask n .runs) := by
  have hne := h.family.ne hc
  have hborn : s.tasks n ≠ .born := fun hcon => by
    rw [hcon] at hc
    cases hc
  have htask : ∀ n', ((s₁.setTask c ph').setTask n .runs).tasks n' =
      if n' = n then .runs else if n' = c then ph' else s.tasks n' := by
    intro n'
    simp only [Swapper.setTask, Function.update_apply, htasks]
  have hslots : Slots b₀ ((s₁.setTask c ph').setTask n .runs) ∧
      s₁.Keeps ((s₁.setTask c ph').setTask n .runs) := hk.1.same rfl rfl
  refine ⟨h.go (n := n) hborn hslots.1 hempty ?_ ?_ ?_ ?_, hk.2⟩
  · -- the tasks that others make are not `c`
    have hother : ∀ n' c', (((s₁.setTask c ph').setTask n .runs).tasks n').child = some c' →
        n' ≠ n ∧ (s.tasks n').child = some c' := by
      intro n' c' hc'
      rw [htask] at hc'
      split at hc'
      case isTrue => cases hc'
      case isFalse hn' =>
        split at hc'
        case isTrue =>
          rw [hph] at hc'
          cases hc'
        case isFalse => exact ⟨hn', hc'⟩
    constructor
    · intro n' c' hc'
      obtain ⟨hn', hmakes⟩ := hother n' c' hc'
      have hb := h.family.born n' c' hmakes
      have hnc : c' ≠ c := by
        rintro rfl
        exact hn' (h.family.one n' n c' hmakes hc)
      have hnn : c' ≠ n := by
        rintro rfl
        exact hborn hb
      rw [htask, if_neg hnn, if_neg hnc, hb]
    · intro n' n'' c' hc' hc''
      exact h.family.one n' n'' c' (hother n' c' hc').2 (hother n'' c' hc'').2
  · intro n' hn'
    rw [htask, if_neg hn']
    split
    case isTrue hn'c =>
      subst hn'c
      exact .inr hany
    case isFalse => exact .inl rfl
  · intro d hd hd'
    have hsame' := hsame d hd fun heq => hd' (heq ▸ hc)
    exact ⟨hsame'.1, hsame'.2⟩
  · rw [htask, if_pos rfl]
    trivial

theorem copyCount_le : copyCount n ≤ 1024 := by
  rw [copyCount]
  split <;> omega

theorem isSome_dir (h : s.Empty) (hw : s.word d i ≠ 0) : (s.dir d).isSome := by
  by_contra hcon
  rw [Option.not_isSome_iff_eq_none] at hcon
  exact hw (h d i (.inl hcon))

theorem CopyAt.next (h : s.CopyAt c k j i) : s.CopyAt c k j (i + 1) :=
  ⟨h.lt, h.le, h.here, fun i' hi' => h.rest i' (by omega)⟩

/-- The next round of `copy_page_tables`. -/
theorem Inv.copyDir (h : Inv b₀ s) (ht : s.tasks n = .copiesDir c k j)
    (hs : s.copyDir n c k j = some s') : Step b₀ s s' := by
  have hborn : s.tasks n ≠ .born := by rw [ht]; simp
  have hchild : (s.tasks n).child = some c := by rw [ht]; rfl
  obtain ⟨hj, hk⟩ : j ≤ k ∧ k ≤ 16 := by
    have hok := h.tasks n
    rwa [ht] at hok
  rw [Swapper.copyDir] at hs
  split at hs
  case isTrue =>
    obtain rfl := Option.some.inj hs
    exact h.finish hchild rfl (fun _ => trivial) ⟨h.slots, .refl s⟩ h.empty rfl
      fun _ _ _ => ⟨rfl, fun _ _ => rfl⟩
  case isFalse hjk =>
    split at hs
    case isTrue => cases hs
    case isFalse hnone =>
      rw [Option.not_isSome_iff_eq_none] at hnone
      split at hs
      case isTrue =>
        obtain rfl := Option.some.inj hs
        exact h.setTask hborn hchild.symm ⟨by omega, hk, hnone⟩
      case isFalse =>
        obtain rfl := Option.some.inj hs
        exact h.setTask hborn hchild.symm ⟨by omega, hk⟩

theorem Inv.copyEntry (h : Inv b₀ s) (ht : s.tasks n = .copies c k j i) :
    Step b₀ s (s.copyEntry n c k j i) := by
  have hborn : s.tasks n ≠ .born := by rw [ht]; simp
  have hchild : (s.tasks n).child = some c := by rw [ht]; rfl
  have hne := h.family.ne hchild
  obtain ⟨hat, hi⟩ : s.CopyAt c k j i ∧ i ≤ copyCount n := by
    have hok := h.tasks n
    rwa [ht] at hok
  have hj := hat.lt
  have hk := hat.le
  have hcount : copyCount n ≤ 1024 := copyCount_le
  rw [Swapper.copyEntry]
  simp only
  split
  case isTrue => exact h.setTask hborn hchild.symm ⟨hj, hk⟩
  case isFalse hlast =>
    split
    case isTrue => exact h.setTask hborn hchild.symm ⟨hat.next, by omega⟩
    case isFalse hword =>
      have hfrom := isSome_dir h.empty hword
      split
      case isTrue habsent =>
        rw [Word.Present] at habsent
        exact h.setTask hborn hchild.symm
          ⟨hat, by omega, s.word (16 * n + j) i / 2, ⟨by omega, by omega⟩, by omega⟩
      case isFalse hpresent =>
        rw [not_not] at hpresent
        have hclear : Word.clearRw (s.word (16 * n + j) i) = 0 ∨
            Word.Present (Word.clearRw (s.word (16 * n + j) i)) := clearRw_present (.inr hpresent)
        have hdirs : 16 * n + j ≠ 16 * c + j := by omega
        -- the entry of the new task
        set s₁ := s.setWord (16 * c + j) i (Word.clearRw (s.word (16 * n + j) i)) with hs₁
        have hk₁ : Slots b₀ s₁ ∧ s.Keeps s₁ :=
          h.slots.setWord (fun nr => not_names (.inl (hat.rest i (Nat.le_refl i)))) hclear
        have hempty₁ : s₁.Empty := h.empty.setWord hat.here (by omega)
        have hsame₁ : ∀ d, d / 16 ≠ c → s.SameDir s₁ d := fun d hd =>
          sameDir_setWord (by omega)
        have hat₁ : s₁.CopyAt c k j (i + 1) := by
          refine ⟨hj, hk, hat.here, fun i' hi' => ?_⟩
          rw [hs₁, word_setWord, if_neg (by omega)]
          exact hat.rest i' (by omega)
        split
        case isTrue =>
          -- and that of the old one
          have hpresent₁ : Word.Present (s₁.word (16 * n + j) i) := by
            rw [hs₁, word_setWord, if_neg fun hcon => hdirs hcon.1]
            exact hpresent
          set s₂ := s₁.setWord (16 * n + j) i (Word.clearRw (s.word (16 * n + j) i)) with hs₂
          have hk₂ : Slots b₀ s₂ ∧ s₁.Keeps s₂ :=
            hk₁.1.setWord (fun nr => not_names (.inr hpresent₁)) hclear
          have hempty₂ : s₂.Empty := hempty₁.setWord hfrom (by omega)
          have hat₂ : s₂.CopyAt c k j (i + 1) := hat₁.keep (sameDir_of_present hpresent₁)
          have hkeeps : s.Keeps s₂ := by
            intro d' i' nr nr' hn hn'
            by_cases hd' : d' = 16 * c + j ∧ i' = i
            · obtain ⟨rfl, rfl⟩ := hd'
              exact absurd hn (not_names (.inl (hat.rest _ (Nat.le_refl _))))
            · refine hk₂.2 d' i' nr nr' ((names_congr ?_).mpr hn) hn'
              rw [hs₁, word_setWord, if_neg hd']
          refine h.step hborn (Slots.setMap ⟨hk₂.1, hkeeps⟩) hempty₂ rfl hchild.symm ?_
            ⟨⟨hat₂.lt, hat₂.le, hat₂.here, hat₂.rest⟩, by omega⟩
          intro d hd hd'
          have hdc : d / 16 ≠ c := fun heq => hd' (heq ▸ hchild)
          have hsame₂ : s.SameDir s₂ d := (hsame₁ d hdc).trans (sameDir_of_present hpresent₁)
          exact ⟨hsame₂.1, hsame₂.2⟩
        case isFalse =>
          refine h.step hborn hk₁ hempty₁ rfl hchild.symm ?_ ⟨hat₁, by omega⟩
          exact fun d _ hd' => hsame₁ d fun heq => hd' (heq ▸ hchild)

/-- The words that `free_page_tables` zeroes, with their slots. -/
theorem freeEntries_spec (hbits : ∀ nr, b₀ nr = true → nr < swapBits) (h : Slots b₀ s)
    (hs : freeEntries d k i s = some s') :
    Slots b₀ s' ∧ (∀ d' i', s'.word d' i' =
      if d' = d ∧ i ≤ i' ∧ i' < i + k then 0 else s.word d' i') ∧
    s'.dir = s.dir ∧ s'.tasks = s.tasks := by
  induction k generalizing i s with
  | zero =>
    cases hs
    exact ⟨h, fun d' i' => by rw [if_neg (by omega)], rfl, rfl⟩
  | succ k ih =>
    -- what is left to do once entry `i` is zero
    have hgo : ∀ s₁ : Swapper, Slots b₀ s₁ →
        (∀ d' i', s₁.word d' i' = if d' = d ∧ i' = i then 0 else s.word d' i') →
        s₁.dir = s.dir → s₁.tasks = s.tasks → freeEntries d k (i + 1) s₁ = some s' →
        Slots b₀ s' ∧ (∀ d' i', s'.word d' i' =
          if d' = d ∧ i ≤ i' ∧ i' < i + (k + 1) then 0 else s.word d' i') ∧
        s'.dir = s.dir ∧ s'.tasks = s.tasks := by
      intro s₁ h₁ hword hdir htasks hs₁
      obtain ⟨h', hword', hdir', htasks'⟩ := ih h₁ hs₁
      refine ⟨h', fun d' i' => ?_, hdir'.trans hdir, htasks'.trans htasks⟩
      rw [hword', hword]
      by_cases hd : d' = d
      · by_cases hi : i' = i
        · rw [if_neg (by omega), if_pos ⟨hd, hi⟩, if_pos ⟨hd, by omega, by omega⟩]
        · simp only [hd, hi, and_false, if_false, true_and]
          exact if_congr (by omega) rfl rfl
      · simp only [hd, false_and, if_false]
    rw [freeEntries] at hs
    split at hs
    case isTrue hzero =>
      refine hgo s h (fun d' i' => ?_) rfl rfl hs
      split
      case isTrue heq => rw [heq.1, heq.2, hzero]
      case isFalse => rfl
    case isFalse hzero =>
      split at hs
      case isTrue hpresent =>
        split at hs
        case h_1 => cases hs
        case h_2 s₁ hfree =>
          have heq := freePage_eq hfree
          have h₁ : Slots b₀ s₁ ∧ s.Keeps s₁ := h.same (by rw [heq]) (by rw [heq])
          have hpresent₁ : Word.Present (s₁.word d i) := by rwa [heq]
          have h₂ : Slots b₀ (s₁.setWord d i 0) ∧ s₁.Keeps (s₁.setWord d i 0) :=
            h₁.1.setWord (fun nr => not_names (.inr hpresent₁)) (.inl rfl)
          refine hgo _ h₂.1 (fun d' i' => ?_) (by rw [heq]; rfl) (by rw [heq]; rfl) hs
          rw [word_setWord, heq]
      case isFalse habsent =>
        -- the slot is freed
        rw [Word.Present] at habsent
        have hname : s.Names d i (s.word d i / 2) := ⟨by omega, by omega⟩
        have hlt := hbits _ (h.used d i _ hname).2
        rw [swapFree, if_neg hname.1, if_pos hlt] at hs
        have h₁ : Slots b₀ ({ s with bitmap := update s.bitmap (s.word d i / 2) true }.setWord d i 0) ∧
            s.Keeps ({ s with bitmap := update s.bitmap (s.word d i / 2) true }.setWord d i 0) := by
          refine h.release hname (fun nr => not_names (.inl ?_)) (fun d' i' hne => ?_) rfl
          · rw [word_setWord, if_pos ⟨rfl, rfl⟩]
          · rw [word_setWord, if_neg hne]
        exact hgo _ h₁.1 (fun d' i' => word_setWord) rfl rfl hs

/-- What `free_page_tables` leaves: the tables from `d` on are gone. -/
theorem freeTables_spec (hbits : ∀ nr, b₀ nr = true → nr < swapBits) (h : Slots b₀ s)
    (he : s.Empty) (hs : freeTables k d s = some s') :
    Slots b₀ s' ∧ s'.Empty ∧ (∀ d' i', s'.word d' i' = s.word d' i' ∨ s'.word d' i' = 0) ∧
    (∀ d', ¬ (d ≤ d' ∧ d' < d + k) → s'.dir d' = s.dir d' ∧ s'.word d' = s.word d') ∧
    s'.tasks = s.tasks := by
  induction k generalizing d s with
  | zero =>
    cases hs
    exact ⟨h, he, fun _ _ => .inl rfl, fun _ _ => ⟨rfl, rfl⟩, rfl⟩
  | succ k ih =>
    rw [freeTables] at hs
    split at hs
    case h_1 =>
      obtain ⟨h', he', hword, hout, htasks⟩ := ih h he hs
      exact ⟨h', he', hword, fun d' hd' => hout d' (by omega), htasks⟩
    case h_2 t hdir =>
      split at hs
      case h_1 => cases hs
      case h_2 s₁ hs₁ =>
        split at hs
        case h_1 => cases hs
        case h_2 s₂ hs₂ =>
          obtain ⟨h₁, hword₁, hdir₁, htasks₁⟩ := freeEntries_spec hbits h hs₁
          have heq := freePage_eq hs₂
          -- the table is empty now
          have hword₂ : ∀ d' i', s₂.word d' i' = if d' = d then 0 else s.word d' i' := by
            intro d' i'
            rw [heq]
            show s₁.word d' i' = _
            rw [hword₁]
            by_cases hd : d' = d
            · by_cases hi : i' < 1024
              · rw [if_pos ⟨hd, by omega, by omega⟩, if_pos hd]
              · rw [if_neg (by omega), if_pos hd, he d' i' (.inr (by omega))]
            · rw [if_neg fun hcon => hd hcon.1, if_neg hd]
          have hdir₂ : s₂.dir = s.dir := by rw [heq]; exact hdir₁
          have htasks₂ : s₂.tasks = s.tasks := by rw [heq]; exact htasks₁
          have h₂ : Slots b₀ s₂ ∧ s₁.Keeps s₂ := h₁.same (by rw [heq]) (by rw [heq])
          have h₃ : Slots b₀ { s₂ with dir := update s₂.dir d none } ∧
              s₂.Keeps { s₂ with dir := update s₂.dir d none } := h₂.1.same rfl rfl
          have he₃ : Swapper.Empty { s₂ with dir := update s₂.dir d none } := by
            intro d' i' hcase
            show s₂.word d' i' = 0
            rw [hword₂]
            split
            case isTrue => rfl
            case isFalse hd =>
              refine he d' i' ?_
              rcases hcase with hnone | hle
              · have hnone' : update s₂.dir d none d' = none := hnone
                rw [Function.update_of_ne hd, hdir₂] at hnone'
                exact .inl hnone'
              · exact .inr hle
          obtain ⟨h', he', hword, hout, htasks⟩ := ih h₃.1 he₃ hs
          refine ⟨h', he', fun d' i' => ?_, fun d' hd' => ?_, htasks.trans htasks₂⟩
          · rcases hword d' i' with hsame | hzero
            · rw [hsame]
              show s₂.word d' i' = _ ∨ s₂.word d' i' = 0
              rw [hword₂]
              split
              case isTrue => exact .inr rfl
              case isFalse => exact .inl rfl
            · exact .inr hzero
          · obtain ⟨hd₁, hw₁⟩ := hout d' (by omega)
            have hne : d' ≠ d := by omega
            refine ⟨hd₁.trans ?_, hw₁.trans ?_⟩
            · exact (Function.update_of_ne hne _ _).trans (congrFun hdir₂ d')
            · funext i'
              exact (hword₂ d' i').trans (if_neg hne)

theorem keeps_of_zero (h : ∀ d i, s'.word d i = s.word d i ∨ s'.word d i = 0) : s.Keeps s' := by
  intro d i nr nr' hn hn'
  rcases h d i with heq | hzero
  · exact hn.inj ((names_congr heq).mp hn')
  · exact absurd hn' (not_names (.inl hzero))

/-- `free_page_tables` by task `n`, of its own tables or of those it has copied. -/
theorem freeTables_keeps (hbits : ∀ nr, b₀ nr = true → nr < swapBits) (h : Inv b₀ s)
    (hlt : j + k ≤ 16) (hs : freeTables k (16 * c + j) s = some s') :
    (Slots b₀ s' ∧ s.Keeps s') ∧ s'.Empty ∧ s'.tasks = s.tasks ∧
      ∀ d, d / 16 ≠ c → s.SameDir s' d := by
  obtain ⟨h', he', hword, hout, htasks⟩ := freeTables_spec hbits h.slots h.empty hs
  refine ⟨⟨h', keeps_of_zero hword⟩, he', htasks, fun d hd => ?_⟩
  obtain ⟨hdir, hw⟩ := hout d (by omega)
  exact ⟨hdir, fun i _ => by rw [hw]⟩

theorem Inv.free (hbits : ∀ nr, b₀ nr = true → nr < swapBits) (h : Inv b₀ s)
    (hs : s.next (.free n j k) = some s') : Step b₀ s s' := by
  rw [next] at hs
  split at hs
  case isFalse => cases hs
  case isTrue hcond =>
    obtain ⟨hruns, hlt⟩ := hcond
    obtain ⟨hk, he, htasks, hsame⟩ := freeTables_keeps hbits h hlt hs
    refine h.stay (n := n) (by rw [hruns]; simp) hk he htasks (fun d hd _ => hsame d hd) ?_
    rw [hruns]
    trivial

theorem Inv.exit (h : Inv b₀ s) (hs : s.next (.exit n) = some s') : Step b₀ s s' := by
  rw [next] at hs
  split at hs
  case isFalse => cases hs
  case isTrue hruns =>
    obtain rfl := Option.some.inj hs
    exact h.setTask (by rw [hruns]; simp) (by rw [hruns]; rfl) trivial

/-- What `try_to_swap_out` does to the entry. -/
theorem tryToSwapOut_cases {r : Option ℕ} (hs : s.tryToSwapOut d i = some (r, s')) :
    s' = s ∧ r = none ∨ Word.Present (s.word d i) ∧
      (r = none ∧ s' = { s.setWord d i 0 with memMap := s'.memMap } ∨
        ∃ nr, s.bitmap nr = true ∧ nr ≠ 0 ∧
          s' = { s.setWord d i (nr * 2) with bitmap := update s.bitmap nr false }) := by
  rw [tryToSwapOut] at hs
  split at hs
  case isTrue => cases hs; exact .inl ⟨rfl, rfl⟩
  case isFalse hpresent =>
    rw [not_not] at hpresent
    split at hs
    case isTrue => cases hs; exact .inl ⟨rfl, rfl⟩
    case isFalse =>
      split at hs
      case isTrue =>
        split at hs
        case isTrue => cases hs; exact .inl ⟨rfl, rfl⟩
        case isFalse =>
          split at hs
          case h_1 => cases hs; exact .inl ⟨rfl, rfl⟩
          case h_2 nr hnr =>
            cases hs
            have hmem := List.mem_of_find?_eq_some hnr
            rw [List.mem_range'_1] at hmem
            exact .inr ⟨hpresent, .inr ⟨nr, List.find?_some hnr, by omega, rfl⟩⟩
      case isFalse =>
        obtain ⟨s₁, hfree, heq⟩ := Option.map_eq_some_iff.mp hs
        cases heq
        exact .inr ⟨hpresent, .inl ⟨rfl, freePage_eq hfree⟩⟩

theorem Inv.tryOut (h : Inv b₀ s) (hs : s.next (.tryOut n d i) = some s') : Step b₀ s s' := by
  rw [next] at hs
  split at hs
  case h_2 => cases hs
  case h_1 u hfrees =>
    have hborn : s.tasks n ≠ .born := by rw [hfrees]; simp
    have hok : s.UseOk n u := by
      have hok := h.tasks n
      rwa [hfrees] at hok
    split at hs
    case isFalse => cases hs
    case isTrue hcond =>
      obtain ⟨-, hi, hdir⟩ := hcond
      obtain ⟨⟨r, s₁⟩, htry, rfl⟩ := Option.map_eq_some_iff.mp hs
      rcases tryToSwapOut_cases htry with ⟨rfl, rfl⟩ | ⟨hpresent, ⟨rfl, heq⟩ | ⟨nr, hfree, hnr, heq⟩⟩
      · exact ⟨h, .refl s₁⟩
      · -- the page is clean
        have hk : Slots b₀ (s.setWord d i 0) ∧ s.Keeps (s.setWord d i 0) :=
          h.slots.setWord (fun nr => not_names (.inr hpresent)) (.inl rfl)
        have hk₁ : Slots b₀ s₁ ∧ (s.setWord d i 0).Keeps s₁ := hk.1.same (by rw [heq]) (by rw [heq])
        have hsame : ∀ d', s.SameDir s₁ d' := fun d' => by
          rw [heq]
          have hsame' : s.SameDir (s.setWord d i 0) d' := sameDir_of_present hpresent
          exact ⟨hsame'.1, hsame'.2⟩
        refine h.stay hborn ⟨hk₁.1, ?_⟩ ?_ (by rw [heq]; rfl) (fun d' _ _ => hsame d') ?_
        · rw [heq]
          exact hk.2
        · rw [heq]
          exact h.empty.setWord hdir hi
        · exact (h.tasks n).keep fun d' _ => hsame d'
      · -- the page goes to the slot
        have hk : Slots b₀ s₁ ∧ s.Keeps s₁ := by
          rw [heq]
          refine h.slots.evict hfree hnr (fun nr => not_names (.inr hpresent)) ?_ ?_ rfl
          · exact word_setWord.trans (if_pos ⟨rfl, rfl⟩)
          · exact fun d' i' hne => word_setWord.trans (if_neg hne)
        have hsame : ∀ d', s.SameDir s₁ d' := fun d' => by
          rw [heq]
          have hsame' : s.SameDir (s.setWord d i (nr * 2)) d' := sameDir_of_present hpresent
          exact ⟨hsame'.1, hsame'.2⟩
        have hempty : s₁.Empty := by
          rw [heq]
          exact h.empty.setWord hdir hi
        cases r with
        | none =>
          exact h.stay hborn hk hempty (by rw [heq]; rfl) (fun d' _ _ => hsame d')
            ((h.tasks n).keep fun d' _ => hsame d')
        | some p =>
          refine h.step hborn hk hempty (by rw [heq]; rfl) ?_ (fun d' _ _ => hsame d')
            (hok.keep fun d' _ => hsame d')
          rw [hfrees]
          cases u <;> rfl

theorem Inv.wrote (h : Inv b₀ s) (hs : s.next (.wrote n) = some s') : Step b₀ s s' := by
  rw [next] at hs
  split at hs
  case h_2 => cases hs
  case h_1 p u hwrites =>
    obtain ⟨s₁, hfree, rfl⟩ := Option.map_eq_some_iff.mp hs
    have heq := freePage_eq hfree
    have hsame : ∀ d, s.SameDir s₁ d := fun d => by
      rw [heq]
      exact ⟨rfl, fun _ _ => rfl⟩
    have hok : s.UseOk n u := by
      have hok := h.tasks n
      rwa [hwrites] at hok
    refine h.step (by rw [hwrites]; simp) (h.slots.same (by rw [heq]) (by rw [heq])) ?_
      (by rw [heq]) ?_ (fun d _ _ => hsame d) (hok.keep fun d _ => hsame d)
    · rw [heq]
      exact h.empty
    · rw [hwrites]
      cases u <;> rfl

theorem present_page {e : ℕ} (he : e % 2 = 1) : Word.Present (q * 4096 + e) := by
  rw [Word.Present]
  omega

theorem Inv.read (h : Inv b₀ s) (hs : s.next (.read n) = some s') : Step b₀ s s' := by
  rw [next] at hs
  split at hs
  case h_3 => cases hs
  case h_1 j i nr q hreads =>
    -- `swap_in`: the slot is freed
    obtain rfl := Option.some.inj hs
    obtain ⟨hj, hi, hname⟩ : j < 16 ∧ i < 1024 ∧ s.Names (16 * n + j) i nr := by
      have hok := h.tasks n
      rwa [hreads] at hok
    have hdir : (s.dir (16 * n + j)).isSome := isSome_dir h.empty (by
      rw [hname.2]
      have hne := hname.1
      omega)
    refine h.step (by rw [hreads]; simp) ?_ (Empty.setWord (s := { s with
      bitmap := update s.bitmap nr true }) h.empty hdir hi) rfl (by rw [hreads]; rfl) ?_ trivial
    · refine h.slots.release hname (fun nr' => not_names (.inr ?_)) (fun d' i' hne => ?_) rfl
      · rw [word_setWord, if_pos ⟨rfl, rfl⟩]
        exact present_page rfl
      · rw [word_setWord, if_neg hne]
    · intro d hd _
      have hne : d ≠ 16 * n + j := by omega
      refine ⟨rfl, fun i' _ => ?_⟩
      rw [word_setWord, if_neg fun hcon => hne hcon.1]
  case h_2 c k j i w q hreads =>
    -- `copy_page_tables`: the slot goes to the new task
    obtain rfl := Option.some.inj hs
    obtain ⟨hat, hcount, nr, hname, rfl⟩ : s.CopyAt c k j i ∧ i < copyCount n ∧
        ∃ nr, s.Names (16 * n + j) i nr ∧ w = nr * 2 := by
      have hok := h.tasks n
      rwa [hreads] at hok
    have hchild : (s.tasks n).child = some c := by rw [hreads]; rfl
    have hne := h.family.ne hchild
    have hj := hat.lt
    have hk := hat.le
    have hdirs : 16 * n + j ≠ 16 * c + j := by omega
    have hdir : (s.dir (16 * n + j)).isSome := isSome_dir h.empty (by
      rw [hname.2]
      have hne := hname.1
      omega)
    have hzero := hat.rest i (Nat.le_refl i)
    have hi : i < 1024 := by
      have hle : copyCount n ≤ 1024 := copyCount_le
      omega
    refine h.step (by rw [hreads]; simp) ?_ ((h.empty.setWord hat.here hi).setWord hdir hi) rfl
      (by rw [hreads]; rfl) ?_ ⟨⟨hj, hk, hat.here, fun i' hi' => ?_⟩, hcount⟩
    · refine h.slots.move (16 * c + j) i hname (fun nr => not_names (.inl hzero))
        (fun nr' => not_names (.inr ?_)) ?_ (fun d₁ i₁ hd₁ hd₂ => ?_) rfl
      · rw [word_setWord, if_pos ⟨rfl, rfl⟩]
        exact present_page rfl
      · rw [word_setWord, if_neg fun hcon => hdirs hcon.1.symm, word_setWord, if_pos ⟨rfl, rfl⟩,
          hname.2]
      · rw [word_setWord, if_neg hd₁, word_setWord, if_neg hd₂]
    · intro d hd hd'
      have hdc : d / 16 ≠ c := fun heq => hd' (heq ▸ hchild)
      refine ⟨rfl, fun i' _ => ?_⟩
      rw [word_setWord, if_neg (by omega), word_setWord, if_neg (by omega)]
    · rw [word_setWord, if_neg (by omega), word_setWord, if_neg (by omega)]
      exact hat.rest i' (by omega)

/-- A byte of `mem_map` changes. -/
theorem Inv.memMap (h : Inv b₀ s) (f : ℕ → ℕ) : Step b₀ s { s with memMap := f } := by
  have hk : Slots b₀ { s with memMap := f } ∧ s.Keeps { s with memMap := f } :=
    h.slots.same rfl rfl
  refine ⟨⟨hk.1, h.empty, h.family, fun n => ?_⟩, hk.2⟩
  exact (h.tasks n).keep fun _ _ => ⟨rfl, fun _ _ => rfl⟩

theorem Keeps.congr (h : s₁.Keeps s') (hw : s₁.word = s.word) : s.Keeps s' := by
  intro d i nr nr' hn hn'
  exact h d i nr nr' ((names_congr (by rw [hw])).mpr hn) hn'

theorem shareEnd_setTask {page : ℕ} :
    (s.setTask n ph).shareEnd n d i page = s.shareEnd n d i page := by
  simp only [Swapper.shareEnd, Swapper.setTask, Swapper.setWord, Swapper.setMap,
    Function.update_idem]

/-- `get_free_page` returns a page. -/
theorem Inv.use {u : FrameUse} (h : Inv b₀ s) (ht : s.tasks n = .frees u)
    (hg : ∀ d t i page, u = .share d t i page → ∀ nr, ¬ s.Names d i nr)
    (hs : s.use n q u = some s') : Step b₀ s s' := by
  have hborn : s.tasks n ≠ .born := by rw [ht]; simp
  have hok : s.UseOk n u := by
    have hok := h.tasks n
    rwa [ht] at hok
  cases u with
  | swapIn j i nr =>
    obtain rfl := Option.some.inj hs
    exact h.setTask hborn (by rw [ht]; rfl) hok
  | share d t i page =>
    obtain ⟨hd, hi, hnone⟩ := hok
    rw [Swapper.use] at hs
    split at hs
    case isFalse => cases hs
    case isTrue hdir =>
      have hne : 16 * n + d % 16 ≠ d := by omega
      have hfrom := hg d t i page rfl
      have h₁ : Step b₀ s (s.setTask n .runs) := h.setTask hborn (by rw [ht]; rfl) trivial
      have hruns : (s.setTask n .runs).tasks n = .runs := Function.update_self _ _ _
      -- the own table is there
      set s₂ := (s.setTask n .runs).setDir (16 * n + d % 16) q with hs₂
      have h₂ : Step b₀ (s.setTask n .runs) s₂ := by
        refine h₁.1.stay (n := n) (by rw [hruns]; simp) (h₁.1.slots.setDir h₁.1.empty hnone)
          (h₁.1.empty.setDir hnone) rfl ?_ ?_
        · exact fun d' hd' _ => sameDir_setDir h₁.1.empty hnone (by omega)
        · rw [hruns]
          trivial
      have hword₂ : ∀ d' i', s₂.word d' i' = s.word d' i' := fun d' i' =>
        word_setDir h₁.1.empty hnone
      have hruns₂ : s₂.tasks n = .runs := hruns
      have hs₃ : s₂.shareEnd n d i page = some s' := shareEnd_setTask.trans hs
      have h₃ : Step b₀ s₂ s' := by
        refine h₂.1.shareEnd (by rw [hruns₂]; simp) (by rw [hruns₂]; rfl) hd hi ?_ ?_ ?_ ?_ hs₃
        · rw [show s₂.dir d = s.dir d from Function.update_of_ne hne.symm _ _, hdir]
          rfl
        · simp [hs₂, Swapper.setDir]
        · intro nr hn
          exact hfrom nr ((names_congr (hword₂ d i)).mp hn)
        · rw [hword₂, h.empty _ _ (.inl hnone)]
      exact ⟨h₃.1, h₃.2.congr (funext fun d' => funext fun i' => hword₂ d' i')⟩
  | copyTable c k j =>
    obtain rfl := Option.some.inj hs
    obtain ⟨hj, hk, hnone⟩ := hok
    refine h.step hborn (h.slots.setDir h.empty hnone) (h.empty.setDir hnone) rfl
      (by rw [ht]; rfl) ?_ ⟨⟨hj, hk, ?_, fun i' _ => ?_⟩, Nat.zero_le _⟩
    · intro d hd hd'
      have hdc : d / 16 ≠ c := fun heq => hd' (by rw [ht, heq]; rfl)
      exact sameDir_setDir h.empty hnone (by omega)
    · simp [Swapper.setDir]
    · rw [word_setDir h.empty hnone]
      exact h.empty _ _ (.inl hnone)
  | copyPage c k j i w =>
    obtain rfl := Option.some.inj hs
    exact h.setTask hborn (by rw [ht]; rfl) hok
  | page j i =>
    obtain ⟨hj, hi, hzero⟩ := hok
    rw [Swapper.use] at hs
    split at hs
    case isTrue hnone =>
      obtain rfl := Option.some.inj hs
      exact h.setTask hborn (by rw [ht]; rfl) ⟨hj, hi, hnone⟩
    case isFalse hdir =>
      obtain rfl := Option.some.inj hs
      refine h.step hborn (h.slots.setWord (fun nr => not_names (.inl hzero))
        (.inr (present_page rfl))) (h.empty.setWord (Option.isSome_iff_ne_none.mpr hdir) hi) rfl
        (by rw [ht]; rfl) ?_ trivial
      exact fun d hd _ => sameDir_setWord (by omega)
  | put j i p =>
    obtain rfl := Option.some.inj hs
    obtain ⟨hj, hi, hnone⟩ := hok
    have hk := h.slots.setDir (t := q) h.empty hnone
    have hempty : (s.setDir (16 * n + j) q).Empty := h.empty.setDir hnone
    have hzero : (s.setDir (16 * n + j) q).word (16 * n + j) i = 0 := by
      rw [word_setDir h.empty hnone, h.empty _ _ (.inl hnone)]
    have hk' := hk.1.setWord (w := p * 4096 + 7) (fun nr => not_names (.inl hzero))
      (.inr (present_page rfl))
    refine h.step hborn ⟨hk'.1, ?_⟩ (hempty.setWord (by simp [Swapper.setDir]) hi) rfl
      (by rw [ht]; rfl) ?_ trivial
    · exact hk'.2.congr (funext fun _ => funext fun _ => word_setDir h.empty hnone)
    · intro d hd _
      have hne : d ≠ 16 * n + j := by omega
      exact (sameDir_setDir h.empty hnone hne).trans (sameDir_setWord hne)

theorem Inv.got (h : Inv b₀ s) (hg : s.Kept (.got n)) (hs : s.next (.got n) = some s') :
    Step b₀ s s' := by
  rw [next] at hs
  split at hs
  case h_2 => cases hs
  case h_1 u ht =>
    split at hs
    case h_1 => cases hs
    case h_2 m _ =>
      have hmap := h.memMap (update s.memMap m 1)
      simp only at hs
      split at hs
      case isTrue =>
        obtain rfl := Option.some.inj hs
        exact hmap
      case isFalse =>
        have hstep := hmap.1.use ht (fun d t i page hu => (hg d t i page (hu ▸ ht)).2) hs
        exact ⟨hstep.1, hstep.2.congr rfl⟩

theorem Inv.fails (hbits : ∀ nr, b₀ nr = true → nr < swapBits) (h : Inv b₀ s)
    (hs : s.next (.fails n) = some s') : Step b₀ s s' := by
  rw [next] at hs
  split at hs
  case h_2 => cases hs
  case h_1 u ht =>
    have hborn : s.tasks n ≠ .born := by rw [ht]; simp
    have hok : s.UseOk n u := by
      have hok := h.tasks n
      rwa [ht] at hok
    -- what has been copied is freed
    have hfail : ∀ c k, k ≤ 16 → (s.tasks n).child = some c →
        (freeTables k (16 * c) s).map (fun s => (s.setTask c .absent).setTask n .runs) = some s' →
        Step b₀ s s' := by
      intro c k hk hchild hs
      obtain ⟨s₁, hfree, rfl⟩ := Option.map_eq_some_iff.mp hs
      obtain ⟨hk₁, he, htasks, hsame⟩ := freeTables_keeps (j := 0) hbits h (by omega) hfree
      exact h.finish hchild rfl (fun _ => trivial) hk₁ he htasks fun d _ hd => hsame d hd
    cases u with
    | copyTable c k j => exact hfail c k hok.2.1 (by rw [ht]; rfl) hs
    | copyPage c k j i w => exact hfail c k hok.1.le (by rw [ht]; rfl) hs
    | put j i p =>
      obtain ⟨s₁, hfree, rfl⟩ := Option.map_eq_some_iff.mp hs
      have heq := freePage_eq hfree
      refine h.step hborn (h.slots.same (by rw [heq]) (by rw [heq])) ?_ (by rw [heq])
        (by rw [ht]; rfl) (fun d _ _ => ?_) trivial
      · rw [heq]
        exact h.empty
      · rw [heq]
        exact ⟨rfl, fun _ _ => rfl⟩
    | swapIn | share | page =>
      obtain rfl := Option.some.inj hs
      exact h.setTask hborn (by rw [ht]; rfl) trivial

theorem Inv.next (hbits : ∀ nr, b₀ nr = true → nr < swapBits) {e : SwapEvent} (h : Inv b₀ s)
    (hg : s.Kept e) (hs : s.next e = some s') : Step b₀ s s' := by
  cases e with
  | fault => exact h.fault hs
  | share => exact h.share hs
  | write => exact h.write hs
  | fork => exact h.fork hs
  | copy n =>
    rw [Swapper.next] at hs
    split at hs
    case h_1 c k j ht => exact h.copyDir ht hs
    case h_2 c k j i ht =>
      obtain rfl := Option.some.inj hs
      exact h.copyEntry ht
    case h_3 => cases hs
  | free => exact h.free hbits hs
  | exit => exact h.exit hs
  | tryOut => exact h.tryOut hs
  | wrote => exact h.wrote hs
  | read => exact h.read hs
  | got => exact h.got hg hs
  | fails => exact h.fails hbits hs

/-! ### The device -/

variable {size : ℕ} {bits : ℕ → Bool}

/-- A slot that is free at first is on the device. -/
theorem initSwapping_spec (h : initSwapping size bits = some b₀) (hnr : b₀ nr = true) :
    1 ≤ nr ∧ nr < min (size / 4) swapBits := by
  rw [initSwapping] at h
  split at h
  case isTrue => cases h
  case isFalse =>
    simp only at h
    split at h
    case isTrue => cases h
    case isFalse hclear =>
      split at h
      case isFalse => cases h
      case isTrue =>
        obtain rfl := Option.some.inj h
        rw [Bool.and_eq_true, decide_eq_true_eq] at hnr
        rw [not_or, not_or] at hclear
        refine ⟨?_, ?_⟩
        · rcases Nat.eq_zero_or_pos nr with rfl | hpos
          · exact absurd hnr.1 hclear.1
          · exact hpos
        · by_contra hle
          exact hclear.2.2 ⟨nr, hnr.2, by omega, hnr.1⟩

theorem Inv.init (h : (swapping size bits).init s) : Inv s.bitmap s := by
  obtain ⟨-, hword, hempty, htasks⟩ := h
  refine ⟨⟨?_, ?_, ?_, fun _ hset => hset⟩, hempty, ⟨?_, ?_⟩, fun n => ?_⟩
  · intro d i nr hn
    exact absurd hn (not_names (hword d i))
  · intro d i d' i' nr hn
    exact absurd hn (not_names (hword d i))
  · intro nr hset hused
    rw [hset] at hused
    cases hused
  · intro n c hc
    rcases htasks n with ht | ht <;> rw [ht] at hc <;> cases hc
  · intro n n' c hc
    rcases htasks n with ht | ht <;> rw [ht] at hc <;> cases hc
  · rcases htasks n with ht | ht <;> rw [ht] <;> trivial

theorem Inv.reach (hb : initSwapping size bits = some b₀) (h : (swapping size bits).Reach Kept s) :
    Inv b₀ s := by
  refine h.invariant (I := Inv b₀) ?_ ?_
  · intro s hs
    obtain rfl : b₀ = s.bitmap := Option.some.inj (hb.symm.trans hs.1)
    exact .init hs
  · intro s e s' hinv hg hs
    exact (hinv.next (fun nr hnr => by have := (initSwapping_spec hb hnr).2; omega) hg hs).1

end Swapper

/-- In every run, from the time when `init_swapping` accepts a device, in which no word
that `try_to_share` edits after it slept is that of a page swapped out: an entry names a
slot of the device that is in use, a slot that has been taken into use is named by exactly
one entry, and no entry comes to name another slot. -/
theorem swap_slots {size : ℕ} {bits b₀ : ℕ → Bool} {s : Swapper}
    (hb : Swapper.initSwapping size bits = some b₀) (hr : (swapping size bits).Reach Swapper.Kept s) :
    (∀ d i nr, s.Names d i nr →
      s.bitmap nr = false ∧ 1 ≤ nr ∧ nr < min (size / 4) swapBits) ∧
    (∀ nr, b₀ nr = true → (s.bitmap nr = false ↔ ∃! x : ℕ × ℕ, s.Names x.1 x.2 nr)) ∧
    ∀ e s', s.Kept e → s.next e = some s' →
      ∀ d i nr nr', s.Names d i nr → s'.Names d i nr' → nr' = nr := by
  have hinv : Swapper.Inv b₀ s := .reach hb hr
  have hbits : ∀ nr, b₀ nr = true → nr < swapBits := fun nr hnr => by
    have hlt := (Swapper.initSwapping_spec hb hnr).2
    omega
  refine ⟨fun d i nr hn => ?_, fun nr hnr => ⟨fun hused => ?_, ?_⟩, fun e s' hg hs => ?_⟩
  · obtain ⟨hused, hgood⟩ := hinv.slots.used d i nr hn
    exact ⟨hused, Swapper.initSwapping_spec hb hgood⟩
  · obtain ⟨d, i, hn⟩ := hinv.slots.named nr hnr hused
    refine ⟨(d, i), hn, fun x hx => ?_⟩
    obtain ⟨hd, hi⟩ := hinv.slots.alone d i x.1 x.2 nr hn hx
    exact Prod.ext hd hi
  · rintro ⟨x, hn, -⟩
    exact (hinv.slots.used x.1 x.2 nr hn).1
  · exact (hinv.next hbits hg hs).2

namespace Swapper

/-- A device of 100 slots, of which two are in order. -/
def twoSlots : ℕ → Bool := fun n => n == 2 || n == 3

/-- Memory is full.  Task 1 has a clean page at its first address, task 3 a dirty one, and
task 2 has no table yet. -/
def crowded : Swapper where
  highMemory := 4096
  memMap n := if n = 3838 ∨ n = 3839 then 1 else used
  dir d := if d = 16 then some 4000 else if d = 48 then some 4001 else none
  word d i :=
    if d = 16 ∧ i = 0 then 4094 * 4096 + 7 else if d = 48 ∧ i = 0 then 4095 * 4096 + 71 else 0
  bitmap n := (twoSlots n && decide (n < 4086 * 8 ∨ 4096 * 8 ≤ n)) && decide (n < swapBits)
  tasks n := if n = 1 ∨ n = 2 ∨ n = 3 then .runs else .absent

theorem initSwapping_twoSlots : initSwapping 400 twoSlots = some crowded.bitmap := by
  rw [initSwapping, if_neg (by decide)]
  simp only
  rw [if_neg, if_pos]
  · rfl
  · exact ⟨2, by decide, by decide, by decide⟩
  · rintro (h | h | ⟨n, -, hle, h⟩)
    · cases h
    · revert h
      decide
    · have hn : n ≠ 2 ∧ n ≠ 3 := by
        have h100 : min (400 / 4) swapBits = 100 := by decide
        rw [h100] at hle
        omega
      simp [twoSlots, hn.1, hn.2] at h

theorem init_crowded : (swapping 400 twoSlots).init crowded := by
  refine ⟨initSwapping_twoSlots, fun d i => ?_, fun d i hcase => ?_, fun n => ?_⟩
  · simp only [crowded]
    split
    case isTrue => exact .inr (by decide)
    case isFalse =>
      split
      case isTrue => exact .inr (by decide)
      case isFalse => exact .inl rfl
  · simp only [crowded] at hcase ⊢
    have hneg : ∀ m, m = 16 ∨ m = 48 → ¬ (d = m ∧ i = 0) := by
      rintro m hm ⟨rfl, rfl⟩
      rcases hcase with hnone | hle
      · rcases hm with rfl | rfl <;> cases hnone
      · omega
    rw [if_neg (hneg 16 (.inl rfl)), if_neg (hneg 48 (.inr rfl))]
  · simp only [crowded]
    split
    case isTrue => exact .inr rfl
    case isFalse => exact .inl rfl

/-- Task 3 needs a page, and the one that it has goes to slot 2. -/
def evicted : List SwapEvent := [.fault 3 0 1, .tryOut 3 48 0]

theorem run_evicted : (System.runOf next evicted crowded).any
    (fun s => decide (s.bitmap 2 = false)) = true := by
  decide +kernel

/-- Task 2 shares the page of task 1.  For the table of task 2 the page of task 3 goes to
slot 2, and while this is written, task 1 writes to its page, which goes to slot 3. -/
def edited : List SwapEvent :=
  [.share 2 1 0 0, .tryOut 2 48 0, .write 1 0 0, .fault 3 0 1, .tryOut 3 16 0, .wrote 2]

theorem run_edited : (System.runOf next edited crowded).any (fun s =>
    decide (s.word 16 0 = 3 * 2) && (s.next (.got 2)).any fun s' =>
      decide (s'.word 16 0 = 2 * 2 ∧ s'.word 32 0 = 2 * 2 ∧ s'.word 48 0 = 2 * 2 ∧
        s'.bitmap 3 = false)) = true := by
  decide +kernel

end Swapper

theorem swap_slots_evicted : ∃ s, (swapping 400 Swapper.twoSlots).Reach Swapper.Kept s ∧
    ∃! x : ℕ × ℕ, s.Names x.1 x.2 2 := by
  obtain ⟨s, hrun, hused⟩ := (Option.any_eq_true _ _).mp Swapper.run_evicted
  have hr : (swapping 400 Swapper.twoSlots).Reach Swapper.Kept s := by
    refine System.Reach.of_runOf (fun _ _ _ h => h) ?_ (.init Swapper.init_crowded) hrun
    simp [Swapper.evicted, Swapper.Kept]
  exact ⟨s, hr, ((swap_slots Swapper.initSwapping_twoSlots hr).2.1 2 (by decide)).mp
    (of_decide_eq_true hused)⟩

/-- The word of task 1 named slot 3.  With its bit 1 taken away it names slot 2, as do
those of tasks 2 and 3. -/
theorem swap_slots_edited : ∃ s s', (swapping 400 Swapper.twoSlots).Reachable s ∧
    s.next (.got 2) = some s' ∧ s.Names 16 0 3 ∧ s'.Names 16 0 2 ∧ s'.Names 32 0 2 ∧
    s'.Names 48 0 2 := by
  obtain ⟨s, hrun, hs⟩ := (Option.any_eq_true _ _).mp Swapper.run_edited
  rw [Bool.and_eq_true] at hs
  obtain ⟨s', hnext, hs'⟩ := (Option.any_eq_true _ _).mp hs.2
  obtain ⟨h₁, h₂, h₃, -⟩ := of_decide_eq_true hs'
  have hr : (swapping 400 Swapper.twoSlots).Reachable s :=
    System.Reach.of_runOf (fun _ _ _ h => h) (fun _ _ _ => trivial) (.init Swapper.init_crowded)
      hrun
  exact ⟨s, s', hr, hnext, ⟨by decide, of_decide_eq_true hs.1⟩, ⟨by decide, h₁⟩, ⟨by decide, h₂⟩,
    ⟨by decide, h₃⟩⟩

end Mm
