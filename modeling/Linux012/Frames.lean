/-
References to frames, and the elementary steps every operation of the memory
manager is made of.

* `Mem.entries`, `Mem.tables` — how many page-table entries and page-directory
  entries name a frame;
* `Effect` — the elementary steps, with the condition each is made under and the
  state it leaves;
* `Trace` — elementary steps one after the other.

Design notes: references count from the tables of tasks 1 to 63 only; the kernel
tables map all of memory to itself and hold no reference.  `held` is the ghost
count of the references kept outside page tables: frames that `get_free_page`
returned and that no table names yet, task structures, pipe buffers.
-/
import Linux012.PageTables
import Linux012.Counting
import Linux012.Runs

namespace Mm

open Function (update)

/-- The memory manager and the references held outside page tables. -/
structure State where
  mem : Mem
  held : ℕ → ℕ

/-- The directory entries of the address spaces of tasks 1 to 63. -/
def User (d : ℕ) : Prop := firstDir ≤ d ∧ d < 1024

instance (d : ℕ) : Decidable (User d) := inferInstanceAs (Decidable (_ ∧ _))

namespace Pte

/-- The frame a present entry names. -/
def frame : Pte → Option ℕ
  | .page p _ _ => some p
  | _ => none

/-- One if the entry names frame `p`. -/
def ind (e : Pte) (p : ℕ) : ℕ := if e.frame = some p then 1 else 0

@[simp] theorem frame_zero : frame .zero = none := rfl
@[simp] theorem frame_swap (nr : ℕ) : frame (.swap nr) = none := rfl
@[simp] theorem frame_page (p : ℕ) (rw dirty : Bool) : frame (.page p rw dirty) = some p := rfl

theorem ind_of_eq {e : Pte} {p : ℕ} (h : e.frame = some p) : e.ind p = 1 := if_pos h

theorem ind_of_ne {e : Pte} {p : ℕ} (h : e.frame ≠ some p) : e.ind p = 0 := if_neg h

end Pte

namespace Mem

/-! ### Entries by directory entry -/

/-- Store into entry `i` of the page table of directory entry `d`. -/
def setEnt (m : Mem) (d i : ℕ) (e : Pte) : Mem :=
  match m.pgDir d with
  | none => m
  | some t => m.setEntry t i e

variable {m m' : Mem} {d i p t : ℕ}

theorem setEnt_of_pgDir (h : m.pgDir d = some t) (i : ℕ) (e : Pte) :
    m.setEnt d i e = m.setEntry t i e := by
  simp only [setEnt, h]

theorem entry_of_pgDir (h : m.pgDir d = some t) (i : ℕ) : m.entry d i = m.table t i := by
  simp only [entry, h]

theorem entry_of_pgDir_none (h : m.pgDir d = none) (i : ℕ) : m.entry d i = .zero := by
  simp only [entry, h]

theorem pgDir_of_entry {e : Pte} (h : m.entry d i = e) (he : e ≠ .zero) :
    ∃ t, m.pgDir d = some t := by
  rcases hd : m.pgDir d with _ | t
  · exact absurd (h.symm.trans (entry_of_pgDir_none hd i)) he
  · exact ⟨t, rfl⟩

theorem entry_congr (hd : m'.pgDir = m.pgDir) (ht : m'.table = m.table) (d i : ℕ) :
    m'.entry d i = m.entry d i := by
  simp only [entry, hd, ht]

section setEnt

variable (m : Mem) (d i : ℕ) (e : Pte)

/-- Only the page table changes. -/
theorem setEnt_eq : m.setEnt d i e = { m with table := (m.setEnt d i e).table } := by
  rcases h : m.pgDir d with _ | t <;> simp only [setEnt, h, setEntry]

@[simp] theorem setEnt_pgDir : (m.setEnt d i e).pgDir = m.pgDir := by rw [setEnt_eq]

@[simp] theorem setEnt_memMap : (m.setEnt d i e).memMap = m.memMap := by rw [setEnt_eq]

@[simp] theorem setEnt_highMemory : (m.setEnt d i e).highMemory = m.highMemory := by
  rw [setEnt_eq]

@[simp] theorem setEnt_data : (m.setEnt d i e).data = m.data := by rw [setEnt_eq]

@[simp] theorem setEnt_swapDev : (m.setEnt d i e).swapDev = m.swapDev := by rw [setEnt_eq]

@[simp] theorem setEnt_swapBitmap : (m.setEnt d i e).swapBitmap = m.swapBitmap := by
  rw [setEnt_eq]

@[simp] theorem setEnt_dirEntry : (m.setEnt d i e).dirEntry = m.dirEntry := by rw [setEnt_eq]

/-- The tables after a store depend on the tables before it only. -/
theorem setEnt_table_congr {m' : Mem} (hd : m'.pgDir = m.pgDir) (ht : m'.table = m.table) :
    (m'.setEnt d i e).table = (m.setEnt d i e).table := by
  simp only [setEnt, hd]
  rcases m.pgDir d with _ | t
  · exact ht
  · simp only [setEntry_table, ht]

end setEnt

/-! ### Counting references -/

/-- Present entry `x` of a task names frame `p`. -/
def Names (m : Mem) (p : ℕ) (x : Fin 1024 × Fin 1024) : Prop :=
  firstDir ≤ x.1.val ∧ (m.entry x.1 x.2).frame = some p

instance (m : Mem) (p : ℕ) : DecidablePred (m.Names p) :=
  fun _ => inferInstanceAs (Decidable (_ ∧ _))

/-- The number of present page-table entries that name frame `p`. -/
noncomputable def entries (m : Mem) (p : ℕ) : ℕ := Counting.count (m.Names p)

/-- Directory entry `d` names frame `p` as a page table. -/
def NamesTable (m : Mem) (p : ℕ) (d : Fin 1024) : Prop :=
  firstDir ≤ d.val ∧ m.pgDir d = some p

instance (m : Mem) (p : ℕ) : DecidablePred (m.NamesTable p) :=
  fun _ => inferInstanceAs (Decidable (_ ∧ _))

/-- The number of page-directory entries that name frame `p`. -/
noncomputable def tables (m : Mem) (p : ℕ) : ℕ := Counting.count (m.NamesTable p)

theorem entries_pos (hd : User d) (hi : i < 1024) (h : (m.entry d i).frame = some p) :
    1 ≤ m.entries p :=
  Counting.count_pos_of (a := (⟨d, hd.2⟩, ⟨i, hi⟩)) ⟨hd.1, h⟩

theorem tables_pos (hd : User d) (h : m.pgDir d = some p) : 1 ≤ m.tables p :=
  Counting.count_pos_of (a := ⟨d, hd.2⟩) ⟨hd.1, h⟩

theorem tables_congr (h : m'.pgDir = m.pgDir) (p : ℕ) : m'.tables p = m.tables p :=
  Counting.count_congr fun d => by simp only [NamesTable, h]

theorem entries_congr (h : ∀ d i, User d → i < 1024 → m'.entry d i = m.entry d i) (p : ℕ) :
    m'.entries p = m.entries p := by
  refine Counting.count_congr fun x => ?_
  by_cases hx : firstDir ≤ x.1.val
  · simp only [Names, h _ _ ⟨hx, x.1.isLt⟩ x.2.isLt]
  · simp only [Names, hx, false_and]

/-- How `entries` changes with one entry. -/
theorem entries_of_off (hd : User d) (hi : i < 1024)
    (h : ∀ d' i', User d' → i' < 1024 → d' ≠ d ∨ i' ≠ i → m'.entry d' i' = m.entry d' i')
    (p : ℕ) :
    m'.entries p + (m.entry d i).ind p = m.entries p + (m'.entry d i).ind p := by
  have hcount := Counting.count_add_of_iff_off (P := m.Names p) (Q := m'.Names p)
    (⟨d, hd.2⟩, ⟨i, hi⟩) fun x hx => by
      by_cases hx1 : firstDir ≤ x.1.val
      · have hne : x.1.val ≠ d ∨ x.2.val ≠ i := by
          by_contra hc
          push Not at hc
          exact hx (Prod.ext (Fin.ext hc.1) (Fin.ext hc.2))
        simp only [Names, h _ _ ⟨hx1, x.1.isLt⟩ x.2.isLt hne]
      · simp only [Names, hx1, false_and]
  simpa only [Names, hd.1, true_and, entries, Pte.ind] using hcount

/-- How `tables` changes with one directory entry. -/
theorem tables_of_off (hd : User d) (h : ∀ d', User d' → d' ≠ d → m'.pgDir d' = m.pgDir d')
    (p : ℕ) :
    m'.tables p + (if m.pgDir d = some p then 1 else 0)
      = m.tables p + (if m'.pgDir d = some p then 1 else 0) := by
  have hcount := Counting.count_add_of_iff_off (P := m.NamesTable p) (Q := m'.NamesTable p)
    ⟨d, hd.2⟩ fun x hx => by
      by_cases hx1 : firstDir ≤ x.val
      · simp only [NamesTable, h _ ⟨hx1, x.isLt⟩ fun hc => hx (Fin.ext hc)]
      · simp only [NamesTable, hx1, false_and]
  simpa only [NamesTable, hd.1, true_and, tables] using hcount

end Mem

/-! ### The elementary steps -/

/-- An elementary step of the memory manager.  `d` and `i` are the directory
entry and the table entry of a linear page, `p` the frame its entry names. -/
inductive Effect where
  /-- `swap_out` moves its static cursors -/
  | cursor (d next : ℕ)
  /-- `get_free_page` hands out a frame -/
  | take (p : ℕ)
  /-- a frame held outside page tables is freed -/
  | drop (p : ℕ)
  /-- a frame becomes a page table -/
  | newTable (d t : ℕ)
  /-- a page table without entries is freed -/
  | freeTable (d t : ℕ)
  /-- a held frame is mapped -/
  | map (d i p : ℕ) (dirty : Bool)
  /-- a mapped frame is unmapped and freed -/
  | unmap (d i p : ℕ) (rw dirty : Bool)
  /-- `fork` or `try_to_share` maps a mapped frame a second time, read-only -/
  | copy (d₁ d₂ i p : ℕ) (rw dirty : Bool)
  /-- `fork` brings a page in for the parent and leaves the slot to the child -/
  | copySwap (d₁ d₂ i nr q : ℕ)
  /-- `fork` passes over an unused entry -/
  | copyZero (d₁ d₂ i : ℕ)
  /-- a swap slot is freed with the entry that names it -/
  | unswap (d i nr : ℕ)
  /-- `try_to_swap_out` drops a clean page -/
  | discard (d i p : ℕ) (rw : Bool)
  /-- `try_to_swap_out` writes a dirty page to a swap slot -/
  | evict (d i p : ℕ) (rw : Bool) (nr : ℕ)
  /-- `swap_in` -/
  | swapIn (d i nr q : ℕ)
  /-- `un_wp_page` with a single reference -/
  | setRw (d i p : ℕ) (rw dirty : Bool)
  /-- `un_wp_page` copies a frame -/
  | cow (d i old new : ℕ) (rw dirty : Bool)
  /-- a held frame is filled -/
  | fill (p : ℕ) (c : Page)
  /-- a store through an entry leaves content `c` in its frame -/
  | store (d i p : ℕ) (rw dirty : Bool) (c : Page)
  /-- `init_swapping` -/
  | swapOn (bits : ℕ → Bool)

/-- The condition under which an elementary step is made. -/
def Effect.Pre (s : State) : Effect → Prop
  | .cursor d _ => User d
  | .take p => lowMem ≤ p ∧ p < s.mem.highMemory ∧ p < lowMem + pagingPages ∧
      s.mem.memMap (mapNr p) = 0
  | .drop p => s.held p ≠ 0
  | .newTable d t => User d ∧ s.mem.pgDir d = none ∧ s.held t ≠ 0 ∧ ∀ i, s.mem.table t i = .zero
  | .freeTable d t => User d ∧ s.mem.pgDir d = some t ∧ ∀ i, i < 1024 → s.mem.table t i = .zero
  | .map d i p _ => User d ∧ i < 1024 ∧ (s.mem.pgDir d).isSome ∧
      (s.mem.entry d i).frame = none ∧ s.held p ≠ 0
  | .unmap d i p rw dirty => User d ∧ i < 1024 ∧ s.mem.entry d i = .page p rw dirty
  | .copy d₁ d₂ i p rw dirty => (User d₁ ∧ i < 1024 ∨ d₁ = 0 ∧ i < 160) ∧ User d₂ ∧
      d₁ ≠ d₂ ∧ d₁ % 16 = d₂ % 16 ∧ s.mem.entry d₁ i = .page p rw dirty ∧
      (s.mem.pgDir d₂).isSome ∧ (s.mem.entry d₂ i).frame = none
  | .copySwap d₁ d₂ i nr q => User d₁ ∧ User d₂ ∧ d₁ ≠ d₂ ∧ d₁ % 16 = d₂ % 16 ∧ i < 1024 ∧
      s.mem.entry d₁ i = .swap nr ∧ (s.mem.pgDir d₂).isSome ∧ s.mem.entry d₂ i = .zero ∧
      s.held q ≠ 0
  | .copyZero d₁ d₂ i => User d₂ ∧ i < 1024 ∧ s.mem.entry d₁ i = .zero ∧
      s.mem.entry d₂ i = .zero ∧ d₁ % 16 = d₂ % 16
  | .unswap d i nr => User d ∧ i < 1024 ∧ s.mem.entry d i = .swap nr
  | .discard d i p rw => User d ∧ i < 1024 ∧ lowMem ≤ p ∧ s.mem.entry d i = .page p rw false
  | .evict d i p rw nr => User d ∧ i < 1024 ∧ lowMem ≤ p ∧ s.mem.entry d i = .page p rw true ∧
      s.mem.memMap (mapNr p) = 1 ∧ 1 ≤ nr ∧ nr < swapBits ∧
      ∃ bits, s.mem.swapBitmap = some bits ∧ bits nr = true
  | .swapIn d i nr q => User d ∧ i < 1024 ∧ s.mem.entry d i = .swap nr ∧ s.held q ≠ 0
  | .setRw d i p rw dirty => User d ∧ i < 1024 ∧ s.mem.entry d i = .page p rw dirty ∧
      lowMem ≤ p ∧ s.mem.memMap (mapNr p) = 1
  | .cow d i old new rw dirty => User d ∧ i < 1024 ∧ s.mem.entry d i = .page old rw dirty ∧
      s.held new ≠ 0
  | .fill p _ => s.held p ≠ 0
  | .store d i p rw dirty _ => User d ∧ i < 1024 ∧ s.mem.entry d i = .page p rw dirty
  | .swapOn _ => s.mem.swapBitmap = none

/-- The state an elementary step leaves. -/
def State.apply (s : State) : Effect → State
  | .cursor d next => ⟨{ s.mem with dirEntry := d, pageNext := next }, s.held⟩
  | .take p => ⟨(s.mem.setMap (mapNr p) 1).clearPage p, update s.held p (s.held p + 1)⟩
  | .drop p =>
    ⟨s.mem.setMap (mapNr p) (s.mem.memMap (mapNr p) - 1), update s.held p (s.held p - 1)⟩
  | .newTable d t => ⟨s.mem.setDir d (some t), update s.held t (s.held t - 1)⟩
  | .freeTable d t =>
    ⟨(s.mem.setMap (mapNr t) (s.mem.memMap (mapNr t) - 1)).setDir d none, s.held⟩
  | .map d i p dirty => ⟨s.mem.setEnt d i (.page p true dirty), update s.held p (s.held p - 1)⟩
  | .unmap d i p _ _ =>
    ⟨(if lowMem ≤ p then s.mem.setMap (mapNr p) (s.mem.memMap (mapNr p) - 1)
      else s.mem).setEnt d i .zero, s.held⟩
  | .copy d₁ d₂ i p _ dirty =>
    let m := s.mem.setEnt d₂ i (.page p false dirty)
    ⟨if lowMem ≤ p then
        (m.setEnt d₁ i (.page p false dirty)).setMap (mapNr p) (s.mem.memMap (mapNr p) + 1)
      else m, s.held⟩
  | .copySwap d₁ d₂ i nr q =>
    ⟨((s.mem.setData q (s.mem.swapDev nr)).setEnt d₂ i (.swap nr)).setEnt d₁ i
      (.page q true true), update s.held q (s.held q - 1)⟩
  | .copyZero _ _ _ => s
  | .unswap d i nr => ⟨(swapFree s.mem nr).setEnt d i .zero, s.held⟩
  | .discard d i p _ =>
    ⟨(s.mem.setEnt d i .zero).setMap (mapNr p) (s.mem.memMap (mapNr p) - 1), s.held⟩
  | .evict d i p _ nr =>
    ⟨{ (s.mem.setEnt d i (.swap nr)).setMap (mapNr p) (s.mem.memMap (mapNr p) - 1) with
        swapBitmap := s.mem.swapBitmap.map fun bits => update bits nr false
        swapDev := update s.mem.swapDev nr (s.mem.data p) }, s.held⟩
  | .swapIn d i nr q =>
    ⟨{ s.mem.setData q (s.mem.swapDev nr) with
        swapBitmap := s.mem.swapBitmap.map fun bits => update bits nr true }.setEnt d i
          (.page q true true), update s.held q (s.held q - 1)⟩
  | .setRw d i p _ dirty => ⟨s.mem.setEnt d i (.page p true dirty), s.held⟩
  | .cow d i old new _ _ =>
    ⟨((if lowMem ≤ old then s.mem.setMap (mapNr old) (s.mem.memMap (mapNr old) + 255)
      else s.mem).setData new (s.mem.data old)).setEnt d i (.page new true false),
      update s.held new (s.held new - 1)⟩
  | .fill p c => ⟨s.mem.setData p c, s.held⟩
  | .store d i p rw _ c => ⟨(s.mem.setData p c).setEnt d i (.page p rw true), s.held⟩
  | .swapOn bits => ⟨{ s.mem with swapBitmap := some bits }, s.held⟩

/-- The steps of a list are made one after the other, each under its condition. -/
inductive Trace : State → List Effect → State → Prop where
  | nil (s : State) : Trace s [] s
  | cons {s s' : State} {e : Effect} {es : List Effect} (h : e.Pre s)
      (hs : Trace (s.apply e) es s') : Trace s (e :: es) s'

namespace Trace

variable {s s' s'' : State} {e : Effect} {es es' : List Effect}

theorem append (h : Trace s es s') (h' : Trace s' es' s'') : Trace s (es ++ es') s'' := by
  induction h with
  | nil => exact h'
  | cons hp _ ih => exact .cons hp (ih h')

theorem one (h : e.Pre s) : Trace s [e] (s.apply e) := .cons h (.nil _)

/-- What every elementary step keeps, a trace keeps. -/
theorem invariant {I : State → Prop} (hI : ∀ s e, I s → e.Pre s → I (s.apply e))
    (h : Trace s es s') (hs : I s) : I s' := by
  induction h with
  | nil => exact hs
  | cons hp _ ih => exact ih (hI _ _ hs hp)

end Trace

end Mm
