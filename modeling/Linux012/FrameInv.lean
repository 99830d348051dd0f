/-
The invariant of the memory manager: the byte of a main-memory frame in
`mem_map` is the number of references to the frame.

* `Inv` — the invariant, with what it needs to be kept: a page table and a frame
  held outside page tables have one reference, and a frame is mapped at one
  offset of the address spaces only, which keeps the byte below 256;
* `Inv.apply` — every elementary step keeps it.
-/
import Linux012.Frames

namespace Mm

open Function (update)

/-- Main memory: the frames that `mem_init(start_mem, end_mem)` gives out. -/
def Main (startMem endMem p : ℕ) : Prop := startMem ≤ p ∧ p < endMem

/-- The invariant of the memory manager. -/
structure Inv (startMem endMem : ℕ) (s : State) : Prop where
  low : lowMem ≤ startMem
  top : endMem ≤ lowMem + pagingPages
  high : s.mem.highMemory = endMem
  reserved : ∀ n, n < pagingPages → ¬ Main startMem endMem (n + lowMem) → s.mem.memMap n ≠ 0
  /-- the byte of a frame is the number of references to it -/
  count : ∀ p, Main startMem endMem p →
    s.mem.memMap (mapNr p) = s.mem.entries p + s.mem.tables p + s.held p
  heldOne : ∀ p, s.held p ≠ 0 → Main startMem endMem p ∧ s.mem.memMap (mapNr p) = 1
  tableOne : ∀ d t, User d → s.mem.pgDir d = some t →
    Main startMem endMem t ∧ s.mem.memMap (mapNr t) = 1
  mapped : ∀ d i p, User d → i < 1024 → (s.mem.entry d i).frame = some p →
    p < lowMem ∨ Main startMem endMem p
  /-- a frame is mapped at the same place of all the address spaces that map it -/
  aligned : ∀ d i d' i' p, User d → i < 1024 → User d' → i' < 1024 → lowMem ≤ p →
    (s.mem.entry d i).frame = some p → (s.mem.entry d' i').frame = some p →
    d % 16 = d' % 16 ∧ i = i'
  /-- the kernel's page tables lie in the kernel -/
  kernel : ∀ d t, d < firstDir → s.mem.pgDir d = some t → t < lowMem
  kernelRw : ∀ d i p dirty, d < firstDir → i < 1024 → s.mem.entry d i ≠ .page p false dirty
  /-- the part of the kernel that `copy_page_tables` copies for task 1 -/
  kernelLow : ∀ i, i < 160 → (∀ p, (s.mem.entry 0 i).frame = some p → p < lowMem) ∧
    ∀ nr, s.mem.entry 0 i ≠ .swap nr
  cursor : User s.mem.dirEntry

theorem mapNr_inj {p q : ℕ} (hp : lowMem ≤ p) (hq : lowMem ≤ q) (h : mapNr p = mapNr q) :
    p = q := by
  simp only [mapNr] at h
  omega

/-- `s'` comes from `s` by a step that changes one entry of a page table, and
what the memory manager holds on the side. -/
structure EntryStep (s s' : State) (d i : ℕ) : Prop where
  user : User d
  lt : i < 1024
  high : s'.mem.highMemory = s.mem.highMemory
  pgDir : s'.mem.pgDir = s.mem.pgDir
  off : ∀ d' i', d' < 1024 → d' ≠ d ∨ i' ≠ i → s'.mem.entry d' i' = s.mem.entry d' i'
  cursor : s'.mem.dirEntry = s.mem.dirEntry

namespace Inv

variable {startMem endMem : ℕ} {s s' : State} {d i p t : ℕ}

/-! ### What the counts exclude -/

theorem lowMem_le (h : Inv startMem endMem s) (hp : Main startMem endMem p) : lowMem ≤ p :=
  h.low.trans hp.1

theorem held_eq_one (h : Inv startMem endMem s) (hp : s.held p ≠ 0) :
    s.held p = 1 ∧ s.mem.entries p = 0 ∧ s.mem.tables p = 0 := by
  obtain ⟨hmain, hone⟩ := h.heldOne p hp
  have hcount := h.count p hmain
  omega

theorem not_entry_of_held (h : Inv startMem endMem s) (hp : s.held p ≠ 0) (hd : User d)
    (hi : i < 1024) : (s.mem.entry d i).frame ≠ some p := by
  intro he
  have := Mem.entries_pos hd hi he
  have := (h.held_eq_one hp).2.1
  omega

theorem not_table_of_held (h : Inv startMem endMem s) (hp : s.held p ≠ 0) (hd : User d) :
    s.mem.pgDir d ≠ some p := by
  intro he
  have := Mem.tables_pos hd he
  have := (h.held_eq_one hp).2.2
  omega

theorem table_eq_one (h : Inv startMem endMem s) (hd : User d) (ht : s.mem.pgDir d = some t) :
    s.mem.tables t = 1 ∧ s.mem.entries t = 0 ∧ s.held t = 0 := by
  obtain ⟨hmain, hone⟩ := h.tableOne d t hd ht
  have hcount := h.count t hmain
  have hpos := Mem.tables_pos hd ht
  omega

theorem not_entry_of_table {d' : ℕ} (h : Inv startMem endMem s) (hd : User d)
    (ht : s.mem.pgDir d = some t) (hd' : User d') (hi : i < 1024) :
    (s.mem.entry d' i).frame ≠ some t := by
  intro he
  have := Mem.entries_pos hd' hi he
  have := (h.table_eq_one hd ht).2.1
  omega

theorem lowMem_le_table (h : Inv startMem endMem s) (hd : User d)
    (ht : s.mem.pgDir d = some t) : lowMem ≤ t :=
  h.lowMem_le (h.tableOne d t hd ht).1

/-- A page table belongs to one directory entry. -/
theorem table_inj {d' : ℕ} (h : Inv startMem endMem s) (hd : User d) (hd' : User d')
    (ht : s.mem.pgDir d = some t) (ht' : s.mem.pgDir d' = some t) : d = d' := by
  by_contra hne
  have htwo := Counting.two_le_count_of (P := s.mem.NamesTable t)
    (a := (⟨d, hd.2⟩ : Fin 1024)) (b := ⟨d', hd'.2⟩) (fun hc => hne (Fin.ext_iff.mp hc))
    ⟨hd.1, ht⟩ ⟨hd'.1, ht'⟩
  have hone := (h.table_eq_one hd ht).1
  simp only [Mem.tables] at hone
  omega

/-- A frame is mapped by at most 63 tasks. -/
theorem entries_le (h : Inv startMem endMem s) (hp : lowMem ≤ p) : s.mem.entries p ≤ 64 := by
  refine Counting.count_le_of_injective (fun x => x.1.val / 16) ?_ ?_
  · intro x _
    have := x.1.isLt
    omega
  · intro x y hx hy hxy
    have hal := h.aligned _ _ _ _ p ⟨hx.1, x.1.isLt⟩ x.2.isLt ⟨hy.1, y.1.isLt⟩ y.2.isLt hp
      hx.2 hy.2
    refine Prod.ext (Fin.ext ?_) (Fin.ext hal.2)
    have : x.1.val / 16 = y.1.val / 16 := hxy
    omega

theorem main_of_mapped (h : Inv startMem endMem s) (hd : User d) (hi : i < 1024)
    (he : (s.mem.entry d i).frame = some p) (hp : lowMem ≤ p) : Main startMem endMem p := by
  rcases h.mapped d i p hd hi he with hlow | hmain
  · omega
  · exact hmain

theorem held_eq_zero_of_entry (h : Inv startMem endMem s) (hd : User d) (hi : i < 1024)
    (he : (s.mem.entry d i).frame = some p) : s.held p = 0 := by
  by_contra hc
  exact h.not_entry_of_held hc hd hi he

theorem tables_eq_zero_of_entry (h : Inv startMem endMem s) (hd : User d) (hi : i < 1024)
    (he : (s.mem.entry d i).frame = some p) : s.mem.tables p = 0 := by
  refine Counting.count_eq_zero_iff.mpr fun x hx => ?_
  exact h.not_entry_of_table ⟨hx.1, x.isLt⟩ hx.2 hd hi he

/-- The byte of a mapped frame is the number of entries that name it. -/
theorem memMap_of_entry (h : Inv startMem endMem s) (hd : User d) (hi : i < 1024)
    (he : (s.mem.entry d i).frame = some p) (hp : lowMem ≤ p) :
    s.mem.memMap (mapNr p) = s.mem.entries p := by
  have hcount := h.count p (h.main_of_mapped hd hi he hp)
  rw [h.tables_eq_zero_of_entry hd hi he, h.held_eq_zero_of_entry hd hi he] at hcount
  omega

/-! ### Entries after a store into a page table -/

/-- A store into a page table changes one entry, in any memory with the same
page directory. -/
theorem entry_setEnt_of {m : Mem} {d' : ℕ} (h : Inv startMem endMem s)
    (hm : m.pgDir = s.mem.pgDir) (hd : User d) (ht : (s.mem.pgDir d).isSome) (i : ℕ) (e : Pte)
    (hd' : d' < 1024) (i' : ℕ) :
    (m.setEnt d i e).entry d' i' = if d' = d ∧ i' = i then e else m.entry d' i' := by
  obtain ⟨t, ht⟩ := Option.isSome_iff_exists.mp ht
  have hmt : m.pgDir d = some t := by rw [hm, ht]
  rw [Mem.setEnt_of_pgDir hmt]
  rcases ht' : m.pgDir d' with _ | t'
  · have hne : d' ≠ d := by
      rintro rfl
      simp [hmt] at ht'
    rw [if_neg (by tauto), Mem.entry_of_pgDir_none ht',
      Mem.entry_of_pgDir_none (m := m.setEntry t i e) ht']
  · rw [Mem.entry_of_pgDir ht', Mem.entry_of_pgDir (m := m.setEntry t i e) ht']
    by_cases hdd : d' = d
    · subst hdd
      obtain rfl : t = t' := by simpa [hmt] using ht'
      by_cases hii : i' = i <;> simp [hii]
    · rw [hm] at ht'
      have hne : t' ≠ t := by
        rintro rfl
        by_cases hk : d' < firstDir
        · have := h.kernel _ _ hk ht'
          have := h.lowMem_le_table hd ht
          omega
        · exact hdd (h.table_inj ⟨by omega, hd'⟩ hd ht' ht)
      simp [hdd, Function.update_of_ne hne]

theorem entry_setEnt {d' : ℕ} (h : Inv startMem endMem s) (hd : User d)
    (ht : (s.mem.pgDir d).isSome) (i : ℕ) (e : Pte) (hd' : d' < 1024) (i' : ℕ) :
    (s.mem.setEnt d i e).entry d' i' = if d' = d ∧ i' = i then e else s.mem.entry d' i' :=
  h.entry_setEnt_of rfl hd ht i e hd' i'

/-! ### Steps that change one entry -/

/-- The invariant is kept if the bytes and `held` change with the entry. -/
theorem of_entryStep (h : Inv startMem endMem s) (hs : EntryStep s s' d i)
    (hcount : ∀ p, Main startMem endMem p →
      s'.mem.memMap (mapNr p) + (s.mem.entry d i).ind p + s.held p
        = s.mem.memMap (mapNr p) + (s'.mem.entry d i).ind p + s'.held p)
    (hreserved : ∀ n, ¬ Main startMem endMem (n + lowMem) → s'.mem.memMap n = s.mem.memMap n)
    (hheld : ∀ p, s'.held p ≠ 0 →
      s'.held p = s.held p ∧ (s'.mem.entry d i).frame ≠ some p)
    (hnew : ∀ p, (s'.mem.entry d i).frame = some p → (∀ d', User d' → s.mem.pgDir d' ≠ some p) ∧
      (p < lowMem ∨ Main startMem endMem p ∧ ∀ d' i', User d' → i' < 1024 → d' ≠ d ∨ i' ≠ i →
        (s.mem.entry d' i').frame = some p → d' % 16 = d % 16 ∧ i' = i)) :
    Inv startMem endMem s' where
  low := h.low
  top := h.top
  high := by rw [hs.high, h.high]
  reserved n hn hm := by rw [hreserved n hm]; exact h.reserved n hn hm
  count p hp := by
    have h1 := h.count p hp
    have h2 := hcount p hp
    have h3 := Mem.entries_of_off hs.user hs.lt (fun d' i' hd' _ => hs.off d' i' hd'.2) p
    have h4 := Mem.tables_congr hs.pgDir p
    omega
  heldOne p hp := by
    obtain ⟨heq, hne⟩ := hheld p hp
    have hp' : s.held p ≠ 0 := by omega
    obtain ⟨hmain, hone⟩ := h.heldOne p hp'
    have h2 := hcount p hmain
    have h3 := h.not_entry_of_held hp' hs.user hs.lt
    rw [Pte.ind_of_ne h3, Pte.ind_of_ne hne] at h2
    exact ⟨hmain, by omega⟩
  tableOne d' t hd' ht := by
    rw [hs.pgDir] at ht
    obtain ⟨hmain, hone⟩ := h.tableOne d' t hd' ht
    obtain ⟨-, -, hz⟩ := h.table_eq_one hd' ht
    have hz' : s'.held t = 0 := by
      by_contra hc
      have := (hheld t hc).1
      omega
    have h2 := hcount t hmain
    have h3 := h.not_entry_of_table hd' ht hs.user hs.lt
    have h4 : (s'.mem.entry d i).frame ≠ some t := fun hc => (hnew t hc).1 d' hd' ht
    rw [Pte.ind_of_ne h3, Pte.ind_of_ne h4] at h2
    exact ⟨hmain, by omega⟩
  mapped d' i' p hd' hi' he := by
    by_cases hoff : d' ≠ d ∨ i' ≠ i
    · exact h.mapped d' i' p hd' hi' (hs.off d' i' hd'.2 hoff ▸ he)
    · push Not at hoff
      rw [hoff.1, hoff.2] at he
      exact (hnew p he).2.imp id And.left
  aligned d1 i1 d2 i2 p hd1 hi1 hd2 hi2 hp he1 he2 := by
    have hcase : ∀ d' i', User d' → i' < 1024 → (s'.mem.entry d' i').frame = some p →
        d' ≠ d ∨ i' ≠ i → (s'.mem.entry d i).frame = some p → d' % 16 = d % 16 ∧ i' = i := by
      intro d' i' hd' hi' he hoff hde
      rw [hs.off d' i' hd'.2 hoff] at he
      rcases (hnew p hde).2 with hlow | ⟨-, hal⟩
      · omega
      · exact hal d' i' hd' hi' hoff he
    by_cases hoff1 : d1 ≠ d ∨ i1 ≠ i
    · by_cases hoff2 : d2 ≠ d ∨ i2 ≠ i
      · rw [hs.off d1 i1 hd1.2 hoff1] at he1
        rw [hs.off d2 i2 hd2.2 hoff2] at he2
        exact h.aligned d1 i1 d2 i2 p hd1 hi1 hd2 hi2 hp he1 he2
      · push Not at hoff2
        rw [hoff2.1, hoff2.2] at he2 ⊢
        exact hcase d1 i1 hd1 hi1 he1 hoff1 he2
    · push Not at hoff1
      rw [hoff1.1, hoff1.2] at he1 ⊢
      by_cases hoff2 : d2 ≠ d ∨ i2 ≠ i
      · obtain ⟨ha, hb⟩ := hcase d2 i2 hd2 hi2 he2 hoff2 he1
        exact ⟨ha.symm, hb.symm⟩
      · push Not at hoff2
        rw [hoff2.1, hoff2.2]
        exact ⟨rfl, rfl⟩
  kernel d' t hk ht := h.kernel d' t hk (hs.pgDir ▸ ht)
  kernelRw d' i' p dirty hk hi' := by
    have hne : d' ≠ d := by
      have := hs.user.1
      omega
    rw [hs.off d' i' (hk.trans (by decide)) (Or.inl hne)]
    exact h.kernelRw d' i' p dirty hk hi'
  kernelLow i' hi' := by
    have hne : (0 : ℕ) ≠ d := by
      have := hs.user.1
      simp only [firstDir] at this
      omega
    rw [hs.off 0 i' (by decide) (Or.inl hne)]
    exact h.kernelLow i' hi'
  cursor := by rw [hs.cursor]; exact h.cursor

theorem entryStep (h : Inv startMem endMem s) (hd : User d) (hi : i < 1024)
    (ht : (s.mem.pgDir d).isSome) {e : Pte} (hdir : s'.mem.pgDir = s.mem.pgDir)
    (htable : s'.mem.table = (s.mem.setEnt d i e).table)
    (hhigh : s'.mem.highMemory = s.mem.highMemory)
    (hcursor : s'.mem.dirEntry = s.mem.dirEntry) :
    EntryStep s s' d i ∧ s'.mem.entry d i = e := by
  have hent : ∀ d' i', s'.mem.entry d' i' = (s.mem.setEnt d i e).entry d' i' := by
    refine Mem.entry_congr ?_ htable
    rw [hdir, Mem.setEnt_pgDir]
  refine ⟨⟨hd, hi, hhigh, hdir, ?_, hcursor⟩, ?_⟩
  · intro d' i' hd' hoff
    rw [hent, h.entry_setEnt hd ht i e hd' i', if_neg (by tauto)]
  · rw [hent, h.entry_setEnt hd ht i e hd.2 i, if_pos ⟨rfl, rfl⟩]

/-! ### The elementary steps keep the invariant -/

private theorem update_mapNr {f : ℕ → ℕ} {q v : ℕ} (hp : lowMem ≤ p) (hq : lowMem ≤ q) :
    update f (mapNr q) v (mapNr p) = if p = q then v else f (mapNr p) := by
  by_cases hpq : p = q
  · rw [hpq, if_pos rfl, Function.update_self]
  · rw [if_neg hpq, Function.update_of_ne fun hc => hpq (mapNr_inj hp hq hc)]

private theorem update_of_not_main {f : ℕ → ℕ} {q v n : ℕ} (hq : lowMem ≤ q)
    (hmain : Main startMem endMem q) (hn : ¬ Main startMem endMem (n + lowMem)) :
    update f (mapNr q) v n = f n := by
  refine Function.update_of_ne ?_ _ _
  intro hc
  have hback : n + lowMem = q := by
    rw [hc, mapNr]
    omega
  exact hn (hback ▸ hmain)

theorem isSome_of_entry (hne : s.mem.entry d i ≠ .zero) : (s.mem.pgDir d).isSome := by
  obtain ⟨t, ht⟩ := Mem.pgDir_of_entry rfl hne
  rw [ht]
  rfl

/-- An entry is changed and no frame gets or loses a reference. -/
theorem setEnt_same (h : Inv startMem endMem s) (hd : User d) (hi : i < 1024) {e : Pte}
    (ht : (s.mem.pgDir d).isSome) (hframe : e.frame = (s.mem.entry d i).frame)
    (hdir : s'.mem.pgDir = s.mem.pgDir)
    (htable : s'.mem.table = (s.mem.setEnt d i e).table)
    (hmap : s'.mem.memMap = s.mem.memMap) (hheld : s'.held = s.held)
    (hhigh : s'.mem.highMemory = s.mem.highMemory)
    (hcursor : s'.mem.dirEntry = s.mem.dirEntry) : Inv startMem endMem s' := by
  obtain ⟨hstep, he⟩ := h.entryStep hd hi ht hdir htable hhigh hcursor
  refine h.of_entryStep hstep ?_ ?_ ?_ ?_
  · intro p _
    rw [he, hmap, hheld, Pte.ind, Pte.ind, hframe]
  · intro n _
    rw [hmap]
  · intro p hp
    rw [hheld] at hp ⊢
    rw [he, hframe]
    exact ⟨rfl, h.not_entry_of_held hp hd hi⟩
  · intro p hp
    rw [he, hframe] at hp
    refine ⟨fun d' hd' hc => h.not_entry_of_table hd' hc hd hi hp, ?_⟩
    refine (h.mapped d i p hd hi hp).imp_right fun hmain => ⟨hmain, ?_⟩
    intro d' i' hd' hi' _ he'
    exact h.aligned d' i' d i p hd' hi' hd hi (h.lowMem_le hmain) he' hp

/-- The reference of an entry to frame `p` is dropped. -/
theorem setEnt_drop (h : Inv startMem endMem s) (hd : User d) (hi : i < 1024) {e : Pte}
    (hp : (s.mem.entry d i).frame = some p) (hlow : lowMem ≤ p) (hframe : e.frame = none)
    (hdir : s'.mem.pgDir = s.mem.pgDir)
    (htable : s'.mem.table = (s.mem.setEnt d i e).table)
    (hmap : s'.mem.memMap = update s.mem.memMap (mapNr p) ((s.mem.memMap (mapNr p) - 1) % 256))
    (hheld : s'.held = s.held) (hhigh : s'.mem.highMemory = s.mem.highMemory)
    (hcursor : s'.mem.dirEntry = s.mem.dirEntry) : Inv startMem endMem s' := by
  have ht : (s.mem.pgDir d).isSome := by
    refine isSome_of_entry (i := i) fun hc => ?_
    rw [hc] at hp
    cases hp
  obtain ⟨hstep, he⟩ := h.entryStep hd hi ht hdir htable hhigh hcursor
  have hmain := h.main_of_mapped hd hi hp hlow
  have hbyte := h.memMap_of_entry hd hi hp hlow
  have hle := h.entries_le hlow
  have hpos := Mem.entries_pos hd hi hp
  refine h.of_entryStep hstep ?_ ?_ ?_ ?_
  · intro q hq
    rw [he, hmap, hheld, update_mapNr (h.lowMem_le hq) hlow,
      Pte.ind_of_ne (e := e) (by simp [hframe])]
    by_cases hqp : q = p
    · rw [if_pos hqp, hqp, Pte.ind_of_eq hp]
      omega
    · rw [if_neg hqp, Pte.ind_of_ne (e := s.mem.entry d i) (by simpa [hp] using Ne.symm hqp)]
  · intro n hn
    rw [hmap, update_of_not_main hlow hmain hn]
  · intro q hq
    rw [he, hframe, hheld]
    exact ⟨rfl, by simp⟩
  · intro q hq
    rw [he, hframe] at hq
    cases hq

/-- Neither the old entry nor the new one names a frame in main memory. -/
theorem setEnt_low (h : Inv startMem endMem s) (hd : User d) (hi : i < 1024) {e : Pte}
    (ht : (s.mem.pgDir d).isSome) (hold : ∀ p, (s.mem.entry d i).frame = some p → p < lowMem)
    (hnew : ∀ p, e.frame = some p → p < lowMem) (hdir : s'.mem.pgDir = s.mem.pgDir)
    (htable : s'.mem.table = (s.mem.setEnt d i e).table)
    (hmap : s'.mem.memMap = s.mem.memMap) (hheld : s'.held = s.held)
    (hhigh : s'.mem.highMemory = s.mem.highMemory)
    (hcursor : s'.mem.dirEntry = s.mem.dirEntry) : Inv startMem endMem s' := by
  obtain ⟨hstep, he⟩ := h.entryStep hd hi ht hdir htable hhigh hcursor
  have hout : ∀ e' : Pte, (∀ p, e'.frame = some p → p < lowMem) →
      ∀ p, Main startMem endMem p → e'.frame ≠ some p := by
    intro e' he' p hp hc
    have := he' p hc
    have := h.lowMem_le hp
    omega
  refine h.of_entryStep hstep ?_ ?_ ?_ ?_
  · intro p hp
    rw [he, hmap, hheld, Pte.ind_of_ne (hout _ hnew p hp), Pte.ind_of_ne (hout _ hold p hp)]
  · intro n _
    rw [hmap]
  · intro p hp
    rw [hheld] at hp ⊢
    rw [he]
    exact ⟨rfl, hout _ hnew p (h.heldOne p hp).1⟩
  · intro p hp
    rw [he] at hp
    refine ⟨fun d' hd' hc => hout _ hnew p (h.tableOne d' p hd' hc).1 hp, Or.inl (hnew p hp)⟩

/-- A mapped frame is mapped once more, at the same place of another address
space. -/
theorem setEnt_add {d₁ : ℕ} (h : Inv startMem endMem s) (hd₁ : User d₁) (hd : User d)
    (hi : i < 1024) (hal : d₁ % 16 = d % 16) {e : Pte}
    (hp : (s.mem.entry d₁ i).frame = some p) (hlow : lowMem ≤ p) (ht : (s.mem.pgDir d).isSome)
    (hold : (s.mem.entry d i).frame = none) (hframe : e.frame = some p)
    (hdir : s'.mem.pgDir = s.mem.pgDir)
    (htable : s'.mem.table = (s.mem.setEnt d i e).table)
    (hmap : s'.mem.memMap = update s.mem.memMap (mapNr p) ((s.mem.memMap (mapNr p) + 1) % 256))
    (hheld : s'.held = s.held) (hhigh : s'.mem.highMemory = s.mem.highMemory)
    (hcursor : s'.mem.dirEntry = s.mem.dirEntry) : Inv startMem endMem s' := by
  obtain ⟨hstep, he⟩ := h.entryStep hd hi ht hdir htable hhigh hcursor
  have hmain := h.main_of_mapped hd₁ hi hp hlow
  have hbyte := h.memMap_of_entry hd₁ hi hp hlow
  have hle := h.entries_le hlow
  refine h.of_entryStep hstep ?_ ?_ ?_ ?_
  · intro q hq
    rw [he, hmap, hheld, update_mapNr (h.lowMem_le hq) hlow,
      Pte.ind_of_ne (e := s.mem.entry d i) (by simp [hold])]
    by_cases hqp : q = p
    · rw [if_pos hqp, hqp, Pte.ind_of_eq hframe]
      omega
    · rw [if_neg hqp, Pte.ind_of_ne (e := e) (by simpa [hframe] using Ne.symm hqp)]
  · intro n hn
    rw [hmap, update_of_not_main hlow hmain hn]
  · intro q hq
    rw [hheld] at hq ⊢
    refine ⟨rfl, ?_⟩
    rw [he, hframe]
    rintro ⟨⟩
    exact h.not_entry_of_held hq hd₁ hi hp
  · intro q hq
    rw [he, hframe] at hq
    obtain rfl : p = q := by simpa using hq
    refine ⟨fun d' hd' hc => h.not_entry_of_table hd' hc hd₁ hi hp, Or.inr ⟨hmain, ?_⟩⟩
    intro d' i' hd' hi' _ he'
    obtain ⟨ha, hb⟩ := h.aligned d' i' d₁ i p hd' hi' hd₁ hi hlow he' hp
    exact ⟨by omega, hb⟩

/-- The reference of an entry moves to a held frame `q`; `old` is the frame that
loses it, if there is one in main memory. -/
theorem setEnt_held (h : Inv startMem endMem s) (hd : User d) (hi : i < 1024) {e : Pte} {q : ℕ}
    (ht : (s.mem.pgDir d).isSome) (hq : s.held q ≠ 0) (hframe : e.frame = some q)
    (hdir : s'.mem.pgDir = s.mem.pgDir)
    (htable : s'.mem.table = (s.mem.setEnt d i e).table)
    (hmap : ∀ p, Main startMem endMem p → s'.mem.memMap (mapNr p) + (s.mem.entry d i).ind p
      = s.mem.memMap (mapNr p))
    (hreserved : ∀ n, ¬ Main startMem endMem (n + lowMem) → s'.mem.memMap n = s.mem.memMap n)
    (hheld : s'.held = update s.held q (s.held q - 1))
    (hhigh : s'.mem.highMemory = s.mem.highMemory)
    (hcursor : s'.mem.dirEntry = s.mem.dirEntry) : Inv startMem endMem s' := by
  obtain ⟨hstep, he⟩ := h.entryStep hd hi ht hdir htable hhigh hcursor
  obtain ⟨hone, -, -⟩ := h.held_eq_one hq
  obtain ⟨hmain, -⟩ := h.heldOne q hq
  refine h.of_entryStep hstep ?_ hreserved ?_ ?_
  · intro p hp
    have hmap' := hmap p hp
    rw [he, hheld]
    by_cases hpq : p = q
    · rw [hpq, Function.update_self, Pte.ind_of_eq hframe]
      rw [hpq] at hmap'
      omega
    · rw [Function.update_of_ne hpq, Pte.ind_of_ne (e := e) (by simpa [hframe] using Ne.symm hpq)]
      omega
  · intro p hp
    rw [hheld] at hp ⊢
    by_cases hpq : p = q
    · rw [hpq, Function.update_self] at hp
      omega
    · rw [Function.update_of_ne hpq, he, hframe]
      exact ⟨rfl, by simpa using Ne.symm hpq⟩
  · intro p hp
    rw [he, hframe] at hp
    obtain rfl : q = p := by simpa using hp
    refine ⟨fun d' hd' => h.not_table_of_held hq hd', Or.inr ⟨hmain, ?_⟩⟩
    intro d' i' hd' hi' _ he'
    exact absurd he' (h.not_entry_of_held hq hd' hi')

/-- Nothing the invariant speaks of changes. -/
theorem congr (h : Inv startMem endMem s)
    (hent : ∀ d i, d < 1024 → s'.mem.entry d i = s.mem.entry d i)
    (hdir : s'.mem.pgDir = s.mem.pgDir) (hmap : s'.mem.memMap = s.mem.memMap)
    (hheld : s'.held = s.held) (hhigh : s'.mem.highMemory = s.mem.highMemory)
    (hcursor : User s'.mem.dirEntry) : Inv startMem endMem s' where
  low := h.low
  top := h.top
  high := by rw [hhigh, h.high]
  reserved n hn hm := by rw [hmap]; exact h.reserved n hn hm
  count p hp := by
    rw [hmap, hheld, Mem.tables_congr hdir,
      Mem.entries_congr fun d i hd _ => hent d i hd.2]
    exact h.count p hp
  heldOne p hp := by rw [hheld] at hp; rw [hmap]; exact h.heldOne p hp
  tableOne d t hd ht := by rw [hdir] at ht; rw [hmap]; exact h.tableOne d t hd ht
  mapped d i p hd hi he := h.mapped d i p hd hi (hent d i hd.2 ▸ he)
  aligned d i d' i' p hd hi hd' hi' hp he he' :=
    h.aligned d i d' i' p hd hi hd' hi' hp (hent d i hd.2 ▸ he)
      (hent d' i' hd'.2 ▸ he')
  kernel d t hk ht := h.kernel d t hk (hdir ▸ ht)
  kernelRw d i p dirty hk hi := by
    rw [hent d i (hk.trans (by decide))]
    exact h.kernelRw d i p dirty hk hi
  kernelLow i hi := by rw [hent 0 i (by decide)]; exact h.kernelLow i hi
  cursor := hcursor

/-- The byte of a frame changes with the references held outside page tables. -/
theorem of_held (h : Inv startMem endMem s) {n v : ℕ} (hp : Main startMem endMem p)
    (hent : ∀ d i, d < 1024 → s'.mem.entry d i = s.mem.entry d i)
    (hdir : s'.mem.pgDir = s.mem.pgDir) (hfree : s.mem.entries p = 0 ∧ s.mem.tables p = 0)
    (hmap : s'.mem.memMap = update s.mem.memMap (mapNr p) v)
    (hheld : s'.held = update s.held p n) (hv : v = n) (hn : n ≤ 1)
    (hhigh : s'.mem.highMemory = s.mem.highMemory)
    (hcursor : s'.mem.dirEntry = s.mem.dirEntry) : Inv startMem endMem s' where
  low := h.low
  top := h.top
  high := by rw [hhigh, h.high]
  reserved m hm hmain := by
    rw [hmap, update_of_not_main (h.lowMem_le hp) hp hmain]
    exact h.reserved m hm hmain
  count q hq := by
    have hcount := h.count q hq
    rw [hmap, hheld, Mem.tables_congr hdir,
      Mem.entries_congr (fun d i hd _ => hent d i hd.2),
      update_mapNr (h.lowMem_le hq) (h.lowMem_le hp)]
    by_cases hqp : q = p
    · rw [if_pos hqp, hqp, Function.update_self]
      omega
    · rw [if_neg hqp, Function.update_of_ne hqp, hcount]
  heldOne q hq := by
    rw [hheld] at hq
    by_cases hqp : q = p
    · rw [hqp, Function.update_self] at hq
      rw [hqp, hmap, Function.update_self]
      exact ⟨hp, by omega⟩
    · rw [Function.update_of_ne hqp] at hq
      obtain ⟨hmain, hone⟩ := h.heldOne q hq
      rw [hmap, update_mapNr (h.lowMem_le hmain) (h.lowMem_le hp), if_neg hqp]
      exact ⟨hmain, hone⟩
  tableOne d t hd ht := by
    rw [hdir] at ht
    obtain ⟨hmain, hone⟩ := h.tableOne d t hd ht
    have htp : t ≠ p := by
      rintro rfl
      have := Mem.tables_pos hd ht
      omega
    rw [hmap, update_mapNr (h.lowMem_le hmain) (h.lowMem_le hp), if_neg htp]
    exact ⟨hmain, hone⟩
  mapped d i q hd hi he := h.mapped d i q hd hi (hent d i hd.2 ▸ he)
  aligned d i d' i' q hd hi hd' hi' hq he he' :=
    h.aligned d i d' i' q hd hi hd' hi' hq (hent d i hd.2 ▸ he)
      (hent d' i' hd'.2 ▸ he')
  kernel d t hk ht := h.kernel d t hk (hdir ▸ ht)
  kernelRw d i p dirty hk hi := by
    rw [hent d i (hk.trans (by decide))]
    exact h.kernelRw d i p dirty hk hi
  kernelLow i hi := by rw [hent 0 i (by decide)]; exact h.kernelLow i hi
  cursor := by rw [hcursor]; exact h.cursor

theorem main_of_take (h : Inv startMem endMem s) (hp : (Effect.take p).Pre s) :
    Main startMem endMem p := by
  obtain ⟨hlow, -, htop, hzero⟩ := hp
  by_contra hc
  have hback : mapNr p + lowMem = p := by
    rw [mapNr]
    omega
  refine h.reserved (mapNr p) ?_ (hback.symm ▸ hc) hzero
  omega

/-- A free frame is no page table, so clearing it changes no entry. -/
theorem entry_take (h : Inv startMem endMem s) (hp : (Effect.take p).Pre s)
    (hd : d < 1024) : (s.apply (.take p)).mem.entry d i = s.mem.entry d i := by
  obtain ⟨hlow, -, -, hzero⟩ := hp
  have hdir : (s.apply (.take p)).mem.pgDir = s.mem.pgDir := rfl
  rcases ht : s.mem.pgDir d with _ | t
  · rw [Mem.entry_of_pgDir_none ht, Mem.entry_of_pgDir_none (hdir ▸ ht)]
  · have htp : t ≠ p := by
      rintro rfl
      by_cases hk : d < firstDir
      · have := h.kernel _ _ hk ht
        omega
      · have := (h.tableOne d _ ⟨by omega, hd⟩ ht).2
        omega
    rw [Mem.entry_of_pgDir ht, Mem.entry_of_pgDir (hdir ▸ ht)]
    simp [State.apply, Function.update_of_ne htp]

theorem apply_take (h : Inv startMem endMem s) (hp : (Effect.take p).Pre s) :
    Inv startMem endMem (s.apply (.take p)) := by
  have hmain := h.main_of_take hp
  have hcount := h.count p hmain
  have hzero := hp.2.2.2
  exact h.of_held (n := s.held p + 1) (v := 1 % 256) hmain (fun d i hd => h.entry_take hp hd) rfl
    ⟨by omega, by omega⟩ (by rfl) (by rfl) (by omega) (by omega) rfl rfl

theorem apply_drop (h : Inv startMem endMem s) (hp : (Effect.drop p).Pre s) :
    Inv startMem endMem (s.apply (.drop p)) := by
  obtain ⟨hone, hentries, htables⟩ := h.held_eq_one hp
  obtain ⟨hmain, hbyte⟩ := h.heldOne p hp
  exact h.of_held (n := s.held p - 1) (v := (s.mem.memMap (mapNr p) - 1) % 256) hmain
    (fun _ _ _ => rfl) rfl ⟨hentries, htables⟩ (by rfl) (by rfl) (by omega) (by omega) rfl rfl

/-- One directory entry changes and no page-table entry does. -/
theorem of_dirStep (h : Inv startMem endMem s) (hd : User d)
    (hent : ∀ d' i', d' < 1024 → i' < 1024 → s'.mem.entry d' i' = s.mem.entry d' i')
    (hoff : ∀ d', d' ≠ d → s'.mem.pgDir d' = s.mem.pgDir d')
    (hcount : ∀ p, Main startMem endMem p →
      s'.mem.memMap (mapNr p) + (if s.mem.pgDir d = some p then 1 else 0) + s.held p
        = s.mem.memMap (mapNr p) + (if s'.mem.pgDir d = some p then 1 else 0) + s'.held p)
    (hreserved : ∀ n, ¬ Main startMem endMem (n + lowMem) → s'.mem.memMap n = s.mem.memMap n)
    (hheld : ∀ p, s'.held p ≠ 0 → s'.held p = s.held p ∧ s'.mem.pgDir d ≠ some p)
    (hnew : ∀ p, s'.mem.pgDir d = some p → s.held p ≠ 0)
    (hhigh : s'.mem.highMemory = s.mem.highMemory)
    (hcursor : s'.mem.dirEntry = s.mem.dirEntry) : Inv startMem endMem s' where
  low := h.low
  top := h.top
  high := by rw [hhigh, h.high]
  reserved n hn hm := by rw [hreserved n hm]; exact h.reserved n hn hm
  count p hp := by
    have h1 := h.count p hp
    have h2 := hcount p hp
    have h3 := Mem.tables_of_off hd (fun d' _ hne => hoff d' hne) p
    rw [Mem.entries_congr fun d' i' hd' hi' => hent d' i' hd'.2 hi']
    omega
  heldOne p hp := by
    obtain ⟨heq, hne⟩ := hheld p hp
    have hp' : s.held p ≠ 0 := by omega
    obtain ⟨hmain, hone⟩ := h.heldOne p hp'
    have h2 := hcount p hmain
    rw [if_neg (h.not_table_of_held hp' hd), if_neg hne] at h2
    exact ⟨hmain, by omega⟩
  tableOne d' t hd' ht := by
    by_cases hdd : d' = d
    · rw [hdd] at ht
      obtain ⟨hmain, hone⟩ := h.heldOne t (hnew t ht)
      have h1 := (h.held_eq_one (hnew t ht)).1
      have h2 := hcount t hmain
      have h3 : s'.held t = 0 := by
        by_contra hc
        exact (hheld t hc).2 ht
      rw [if_neg (h.not_table_of_held (hnew t ht) hd), if_pos ht] at h2
      exact ⟨hmain, by omega⟩
    · rw [hoff d' hdd] at ht
      obtain ⟨hmain, hone⟩ := h.tableOne d' t hd' ht
      obtain ⟨-, -, hz⟩ := h.table_eq_one hd' ht
      have hz' : s'.held t = 0 := by
        by_contra hc
        have := (hheld t hc).1
        omega
      have h2 := hcount t hmain
      rw [if_neg fun hc => hdd (h.table_inj hd' hd ht hc),
        if_neg fun hc => hnew t hc hz] at h2
      exact ⟨hmain, by omega⟩
  mapped d' i' p hd' hi' he := h.mapped d' i' p hd' hi' (hent d' i' hd'.2 hi' ▸ he)
  aligned d1 i1 d2 i2 p hd1 hi1 hd2 hi2 hp he1 he2 :=
    h.aligned d1 i1 d2 i2 p hd1 hi1 hd2 hi2 hp (hent d1 i1 hd1.2 hi1 ▸ he1)
      (hent d2 i2 hd2.2 hi2 ▸ he2)
  kernel d' t hk ht := by
    have hne : d' ≠ d := by
      have := hd.1
      omega
    exact h.kernel d' t hk (hoff d' hne ▸ ht)
  kernelRw d' i p dirty hk hi := by
    rw [hent d' i (hk.trans (by decide)) hi]
    exact h.kernelRw d' i p dirty hk hi
  kernelLow i' hi' := by
    rw [hent 0 i' (by decide) (by omega)]
    exact h.kernelLow i' hi'
  cursor := by rw [hcursor]; exact h.cursor

theorem apply_newTable (h : Inv startMem endMem s) (hp : (Effect.newTable d t).Pre s) :
    Inv startMem endMem (s.apply (.newTable d t)) := by
  obtain ⟨hd, hnone, hheld, hzero⟩ := hp
  obtain ⟨hone, -, -⟩ := h.held_eq_one hheld
  have hdir : ∀ d', (s.apply (.newTable d t)).mem.pgDir d'
      = if d' = d then some t else s.mem.pgDir d' := fun d' => Function.update_apply _ _ _ _
  refine h.of_dirStep hd ?_ ?_ ?_ (fun _ _ => rfl) ?_ ?_ rfl rfl
  · intro d' i' _ _
    by_cases hdd : d' = d
    · rw [hdd, Mem.entry_of_pgDir_none hnone, Mem.entry_of_pgDir ((hdir d).trans (if_pos rfl))]
      exact hzero i'
    · simp only [Mem.entry, hdir, if_neg hdd]
      rfl
  · intro d' hne
    rw [hdir, if_neg hne]
  · intro p _
    rw [hdir, if_pos rfl, hnone]
    by_cases hpt : p = t
    · simp [State.apply, hpt, hone]
    · simp [State.apply, hpt, Ne.symm hpt]
  · intro p hp
    rw [hdir, if_pos rfl]
    by_cases hpt : p = t
    · simp [State.apply, hpt, hone] at hp
    · simp [State.apply, hpt, Ne.symm hpt]
  · intro p hp
    rw [hdir, if_pos rfl] at hp
    obtain rfl : t = p := by simpa using hp
    exact hheld

theorem apply_freeTable (h : Inv startMem endMem s) (hp : (Effect.freeTable d t).Pre s) :
    Inv startMem endMem (s.apply (.freeTable d t)) := by
  obtain ⟨hd, ht, hzero⟩ := hp
  obtain ⟨hmain, hone⟩ := h.tableOne d t hd ht
  have hdir : ∀ d', (s.apply (.freeTable d t)).mem.pgDir d'
      = if d' = d then none else s.mem.pgDir d' := fun d' => Function.update_apply _ _ _ _
  refine h.of_dirStep hd ?_ ?_ ?_ ?_ ?_ ?_ rfl rfl
  · intro d' i' _ hi'
    by_cases hdd : d' = d
    · rw [hdd, Mem.entry_of_pgDir ht, hzero i' hi']
      exact Mem.entry_of_pgDir_none ((hdir d).trans (if_pos rfl)) i'
    · simp only [Mem.entry, hdir, if_neg hdd]
      rfl
  · intro d' hne
    rw [hdir, if_neg hne]
  · intro p hp
    rw [hdir, if_pos rfl, ht]
    simp only [State.apply, Mem.setDir_memMap, Mem.setMap_memMap,
      update_mapNr (h.lowMem_le hp) (h.lowMem_le hmain), hone]
    by_cases hpt : p = t
    · simp [hpt, hone]
    · simp [hpt, Ne.symm hpt]
  · intro n hn
    simp only [State.apply, Mem.setDir_memMap, Mem.setMap_memMap]
    rw [update_of_not_main (h.lowMem_le hmain) hmain hn]
  · intro p _
    rw [hdir, if_pos rfl]
    exact ⟨rfl, by simp⟩
  · intro p hp
    rw [hdir, if_pos rfl] at hp
    cases hp

theorem apply_map {dirty : Bool} (h : Inv startMem endMem s)
    (hp : (Effect.map d i p dirty).Pre s) : Inv startMem endMem (s.apply (.map d i p dirty)) := by
  obtain ⟨hd, hi, ht, hframe, hheld⟩ := hp
  refine h.setEnt_held hd hi ht hheld rfl (by simp [State.apply]) rfl ?_ (by simp [State.apply])
    rfl (by simp [State.apply]) (by simp [State.apply])
  intro q _
  simp [State.apply, Pte.ind, hframe]

theorem apply_unmap {rw dirty : Bool} (h : Inv startMem endMem s)
    (hp : (Effect.unmap d i p rw dirty).Pre s) :
    Inv startMem endMem (s.apply (.unmap d i p rw dirty)) := by
  obtain ⟨hd, hi, he⟩ := hp
  have hframe : (s.mem.entry d i).frame = some p := by rw [he]; rfl
  by_cases hlow : lowMem ≤ p
  · refine h.setEnt_drop hd hi hframe hlow (e := .zero) rfl ?_ ?_ ?_ rfl ?_ ?_ <;>
      simp only [State.apply, if_pos hlow, Mem.setEnt_pgDir, Mem.setEnt_memMap,
        Mem.setEnt_highMemory, Mem.setEnt_dirEntry, Mem.setMap_pgDir, Mem.setMap_memMap,
        Mem.setMap_highMemory, Mem.setMap_dirEntry]
    exact Mem.setEnt_table_congr _ _ _ _ rfl rfl
  · have ht : (s.mem.pgDir d).isSome := isSome_of_entry (i := i) (by simp [he])
    refine h.setEnt_low hd hi (e := .zero) ht ?_ (by simp) ?_ ?_ ?_ rfl ?_ ?_
    · intro q hq
      obtain rfl : p = q := by simpa [hframe] using hq
      omega
    all_goals simp [State.apply, hlow]

theorem apply_copy {d₁ d₂ : ℕ} {rw dirty : Bool} (h : Inv startMem endMem s)
    (hp : (Effect.copy d₁ d₂ i p rw dirty).Pre s) :
    Inv startMem endMem (s.apply (.copy d₁ d₂ i p rw dirty)) := by
  obtain ⟨hd1, hd2, hne, hal, he1, ht2, hframe⟩ := hp
  have hi : i < 1024 := by omega
  have ht1 : (s.mem.pgDir d₁).isSome := isSome_of_entry (i := i) (by simp [he1])
  by_cases hlow : lowMem ≤ p
  · -- the frame is not in the kernel, so task 1 at least maps it
    have hd1 : User d₁ := by
      rcases hd1 with ⟨hd1, -⟩ | ⟨rfl, hi'⟩
      · exact hd1
      · have := (h.kernelLow i hi').1 p (by simp [he1])
        omega
    have h1 : Inv startMem endMem
        ⟨(s.mem.setEnt d₂ i (.page p false dirty)).setMap (mapNr p)
          (s.mem.memMap (mapNr p) + 1), s.held⟩ :=
      h.setEnt_add hd1 hd2 hi hal (by simp [he1]) hlow ht2 hframe
        (e := .page p false dirty) rfl (by simp) rfl (by simp) rfl (by simp) (by simp)
    refine h1.setEnt_same (e := .page p false dirty) hd1 hi (by simpa using ht1) ?_ ?_ ?_ ?_ rfl
      ?_ ?_
    · have hent := h.entry_setEnt hd2 ht2 i (.page p false dirty) hd1.2 i
      rw [if_neg (by tauto)] at hent
      refine Eq.symm ((congrArg Pte.frame hent).trans ?_)
      rw [he1]
      rfl
    · simp [State.apply, hlow]
    · simp only [State.apply, if_pos hlow, Mem.setMap_table]
      exact Mem.setEnt_table_congr _ _ _ _ rfl rfl
    · simp [State.apply, hlow]
    · simp [State.apply, hlow]
    · simp [State.apply, hlow]
  · refine h.setEnt_low hd2 hi (e := .page p false dirty) ht2 (by simp [hframe]) ?_ ?_ ?_ ?_ rfl
      ?_ ?_
    · intro q hq
      obtain rfl : p = q := by simpa using hq
      omega
    all_goals simp [State.apply, hlow]

theorem apply_copySwap {d₁ d₂ nr q : ℕ} (h : Inv startMem endMem s)
    (hp : (Effect.copySwap d₁ d₂ i nr q).Pre s) :
    Inv startMem endMem (s.apply (.copySwap d₁ d₂ i nr q)) := by
  obtain ⟨hd1, hd2, hne, -, hi, he1, ht2, he2, hheld⟩ := hp
  have ht1 : (s.mem.pgDir d₁).isSome := isSome_of_entry (i := i) (by simp [he1])
  have h1 : Inv startMem endMem
      ⟨(s.mem.setData q (s.mem.swapDev nr)).setEnt d₂ i (.swap nr), s.held⟩ :=
    h.setEnt_same (e := .swap nr) hd2 hi ht2 (by rw [he2]; rfl) (by simp)
      (Mem.setEnt_table_congr _ _ _ _ rfl rfl) (by simp) rfl (by simp) (by simp)
  have hent : ((s.mem.setData q (s.mem.swapDev nr)).setEnt d₂ i (.swap nr)).entry d₁ i
      = .swap nr := by
    have hent := h.entry_setEnt hd2 ht2 i (.swap nr) hd1.2 i
    rw [if_neg (by tauto), he1] at hent
    refine Eq.trans (Mem.entry_congr (by simp) ?_ d₁ i) hent
    exact Mem.setEnt_table_congr _ _ _ _ rfl rfl
  refine h1.setEnt_held (e := .page q true true) (q := q) hd1 hi (by simpa using ht1) hheld rfl
    (by simp [State.apply]) rfl ?_ (by simp [State.apply]) rfl (by simp [State.apply])
    (by simp [State.apply])
  intro p _
  rw [hent]
  simp [State.apply, Pte.ind]

theorem apply_discard {rw : Bool} (h : Inv startMem endMem s)
    (hp : (Effect.discard d i p rw).Pre s) :
    Inv startMem endMem (s.apply (.discard d i p rw)) := by
  obtain ⟨hd, hi, hlow, he⟩ := hp
  exact h.setEnt_drop hd hi (by rw [he]; rfl) hlow (e := .zero) rfl (by simp [State.apply]) rfl
    (by simp [State.apply]) rfl (by simp [State.apply]) (by simp [State.apply])

theorem apply_evict {rw : Bool} {nr : ℕ} (h : Inv startMem endMem s)
    (hp : (Effect.evict d i p rw nr).Pre s) :
    Inv startMem endMem (s.apply (.evict d i p rw nr)) := by
  obtain ⟨hd, hi, hlow, he, -⟩ := hp
  exact h.setEnt_drop hd hi (by rw [he]; rfl) hlow (e := .swap nr) rfl (by simp [State.apply]) rfl
    (by simp [State.apply]) rfl (by simp [State.apply]) (by simp [State.apply])

theorem apply_unswap {nr : ℕ} (h : Inv startMem endMem s) (hp : (Effect.unswap d i nr).Pre s) :
    Inv startMem endMem (s.apply (.unswap d i nr)) := by
  obtain ⟨hd, hi, he⟩ := hp
  have hfree := swapFree_eq s.mem nr
  refine h.setEnt_same (e := .zero) hd hi (isSome_of_entry (i := i) (by simp [he]))
    (by rw [he]; rfl) ?_ ?_ ?_ rfl ?_ ?_
  · rw [State.apply, hfree]
    simp
  · rw [State.apply, hfree]
    exact Mem.setEnt_table_congr _ _ _ _ rfl rfl
  all_goals
    rw [State.apply, hfree]
    simp

theorem apply_swapIn {nr q : ℕ} (h : Inv startMem endMem s)
    (hp : (Effect.swapIn d i nr q).Pre s) :
    Inv startMem endMem (s.apply (.swapIn d i nr q)) := by
  obtain ⟨hd, hi, he, hheld⟩ := hp
  refine h.setEnt_held (e := .page q true true) hd hi
    (isSome_of_entry (i := i) (by simp [he])) hheld rfl (by simp [State.apply])
    (Mem.setEnt_table_congr _ _ _ _ rfl rfl) ?_ (by simp [State.apply]) rfl
    (by simp [State.apply]) (by simp [State.apply])
  intro p _
  simp [State.apply, Pte.ind, he]

theorem apply_setRw {rw dirty : Bool} (h : Inv startMem endMem s)
    (hp : (Effect.setRw d i p rw dirty).Pre s) :
    Inv startMem endMem (s.apply (.setRw d i p rw dirty)) := by
  obtain ⟨hd, hi, he, -⟩ := hp
  exact h.setEnt_same (e := .page p true dirty) hd hi
    (isSome_of_entry (i := i) (by simp [he])) (by rw [he]; rfl) (by simp [State.apply]) rfl
    (by simp [State.apply]) rfl (by simp [State.apply]) (by simp [State.apply])

theorem apply_store {rw dirty : Bool} {c : Page} (h : Inv startMem endMem s)
    (hp : (Effect.store d i p rw dirty c).Pre s) :
    Inv startMem endMem (s.apply (.store d i p rw dirty c)) := by
  obtain ⟨hd, hi, he⟩ := hp
  exact h.setEnt_same (e := .page p rw true) hd hi
    (isSome_of_entry (i := i) (by simp [he])) (by rw [he]; rfl) (by simp [State.apply])
    (Mem.setEnt_table_congr _ _ _ _ rfl rfl) (by simp [State.apply]) rfl (by simp [State.apply])
    (by simp [State.apply])

theorem apply_cow {old new : ℕ} {rw dirty : Bool} (h : Inv startMem endMem s)
    (hp : (Effect.cow d i old new rw dirty).Pre s) :
    Inv startMem endMem (s.apply (.cow d i old new rw dirty)) := by
  obtain ⟨hd, hi, he, hheld⟩ := hp
  have hframe : (s.mem.entry d i).frame = some old := by rw [he]; rfl
  have ht := isSome_of_entry (s := s) (d := d) (i := i) (by simp [he])
  by_cases hlow : lowMem ≤ old
  · have hmain := h.main_of_mapped hd hi hframe hlow
    have hbyte := h.memMap_of_entry hd hi hframe hlow
    have hle := h.entries_le hlow
    have hpos := Mem.entries_pos hd hi hframe
    have hmap : (s.apply (.cow d i old new rw dirty)).mem.memMap
        = update s.mem.memMap (mapNr old) ((s.mem.memMap (mapNr old) + 255) % 256) := by
      simp [State.apply, hlow]
    refine h.setEnt_held (e := .page new true false) hd hi ht hheld rfl
      (by simp [State.apply, hlow]) ?_ ?_ ?_ rfl (by simp [State.apply, hlow])
      (by simp [State.apply, hlow])
    · simp only [State.apply, if_pos hlow]
      exact Mem.setEnt_table_congr _ _ _ _ rfl rfl
    · intro q hq
      rw [hmap, update_mapNr (h.lowMem_le hq) hlow]
      by_cases hqp : q = old
      · rw [if_pos hqp, hqp, Pte.ind_of_eq hframe]
        omega
      · rw [if_neg hqp,
          Pte.ind_of_ne (e := s.mem.entry d i) (by simpa [hframe] using Ne.symm hqp),
          Nat.add_zero]
    · intro n hn
      rw [hmap, update_of_not_main hlow hmain hn]
  · refine h.setEnt_held (e := .page new true false) hd hi ht hheld rfl
      (by simp [State.apply, hlow]) ?_ ?_ (by simp [State.apply, hlow]) rfl
      (by simp [State.apply, hlow]) (by simp [State.apply, hlow])
    · simp only [State.apply, if_neg hlow]
      exact Mem.setEnt_table_congr _ _ _ _ rfl rfl
    · intro q hq
      have hqp : q ≠ old := by
        rintro rfl
        exact hlow (h.lowMem_le hq)
      rw [Pte.ind_of_ne (e := s.mem.entry d i) (by simpa [hframe] using Ne.symm hqp)]
      simp [State.apply, hlow]

/-- Every elementary step keeps the invariant. -/
theorem apply {e : Effect} (h : Inv startMem endMem s) (hp : e.Pre s) :
    Inv startMem endMem (s.apply e) := by
  cases e with
  | cursor => exact h.congr (fun _ _ _ => rfl) rfl rfl rfl rfl hp
  | take => exact h.apply_take hp
  | drop => exact h.apply_drop hp
  | newTable => exact h.apply_newTable hp
  | freeTable => exact h.apply_freeTable hp
  | map => exact h.apply_map hp
  | unmap => exact h.apply_unmap hp
  | copy => exact h.apply_copy hp
  | copySwap => exact h.apply_copySwap hp
  | copyZero => exact h
  | unswap => exact h.apply_unswap hp
  | discard => exact h.apply_discard hp
  | evict => exact h.apply_evict hp
  | swapIn => exact h.apply_swapIn hp
  | setRw => exact h.apply_setRw hp
  | cow => exact h.apply_cow hp
  | fill => exact h.congr (fun _ _ _ => rfl) rfl rfl rfl rfl h.cursor
  | store => exact h.apply_store hp
  | swapOn => exact h.congr (fun _ _ _ => rfl) rfl rfl rfl rfl h.cursor

theorem trace {es : List Effect} (h : Inv startMem endMem s) (ht : Trace s es s') :
    Inv startMem endMem s' :=
  ht.invariant (fun _ _ hi hp => hi.apply hp) h

end Inv

end Mm
