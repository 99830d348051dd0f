/-
Page faults and the check of a page before the kernel writes to it (`do_no_page`,
`share_page`, `do_wp_page`, `write_verify` of mm/memory.c).

* `demandPage` — the page demand loading gives;
* `doNoPage`, `writeVerify` — the functions, on page tables;
* `doNoPage_trace`, `writeVerify_trace` — the elementary steps they make.

Design notes: `tmp` counts the pages of an address space from its start, which
is directory entry `16 * n` for task `n`.  The blocks of a file are what
`bread_page` finds under `bmap`; a block that is not there is left zero.
-/
import Linux012.FrameOps

namespace Mm

open Function (update)

/-- What the memory manager reads of a `task_struct`. -/
structure Task where
  executable : Option ℕ
  library : Option ℕ
  /-- `end_data`, in bytes -/
  endData : ℕ
  /-- the limit of the data segment, in pages -/
  limit : ℕ
  deriving DecidableEq

/-- The block of a file, 1024 bytes. -/
abbrev Block := Fin 1024 → UInt8

/-- The blocks of the files, by inode and number. -/
abbrev Files := ℕ → ℕ → Option Block

/-- `LIBRARY_OFFSET`, in pages. -/
def libraryOffset : ℕ := 15360

/-- `TASK_SIZE`, in pages. -/
def taskSize : ℕ := 16384

/-- The directory entry of page `tmp` of task `n`. -/
def pageDir (n tmp : ℕ) : ℕ := 16 * n + tmp / 1024

/-- The linear page of page `tmp` of task `n`. -/
def pageAddress (n tmp : ℕ) : ℕ := taskSize * n + tmp

/-! ### Demand loading -/

/-- The inode and the first block that `do_no_page` reads page `tmp` from. -/
def Task.source (t : Task) (tmp : ℕ) : Option (ℕ × ℕ) :=
  if libraryOffset ≤ tmp then t.library.map fun inode => (inode, 1 + (tmp - libraryOffset) * 4)
  else if tmp * 4096 < t.endData then t.executable.map fun inode => (inode, 1 + tmp * 4)
  else none

/-- `bread_page` into a cleared page, from block `block` of a file on. -/
def breadPage (files : Files) (inode block : ℕ) : Page := fun k =>
  match files inode (block + k / 1024) with
  | none => 0
  | some b => b ⟨k % 1024, Nat.mod_lt _ (by decide)⟩

/-- The number of bytes at the end of page `tmp` that `do_no_page` clears. -/
def Task.tail (t : Task) (tmp : ℕ) : ℕ :=
  let i := tmp * 4096 + 4096 - t.endData
  if 4095 < i then 0 else i

/-- The page `do_no_page` reads. -/
def Task.readPage (files : Files) (t : Task) (inode block tmp : ℕ) : Page := fun k =>
  if 4096 ≤ k + t.tail tmp then 0 else breadPage files inode block k

/-- What a page of a process holds before it is written. -/
def demandPage (files : Files) (t : Task) (tmp : ℕ) : Page :=
  match t.source tmp with
  | none => zeroPage
  | some (inode, block) => t.readPage files inode block tmp

/-- The file a task has at page `tmp` as far as `share_page` looks. -/
def Task.fileAt (t : Task) (tmp : ℕ) : Option ℕ :=
  if tmp < libraryOffset then t.executable else t.library

/-- The loop of `share_page` over the tasks from `n` down to 1. -/
def sharePageLoop (tasks : ℕ → Option Task) (current inode tmp : ℕ) :
    ℕ → Mem → Option (Shared × Mem)
  | 0, m => some (.no, m)
  | n + 1, m =>
    match tasks (n + 1) with
    | none => sharePageLoop tasks current inode tmp n m
    | some t =>
      if n + 1 = current then sharePageLoop tasks current inode tmp n m
      else if t.fileAt tmp ≠ some inode then sharePageLoop tasks current inode tmp n m
      else match tryToShare m (pageDir (n + 1) tmp) (pageDir current tmp) (tmp % 1024) with
        | none => none
        | some (.no, m) => sharePageLoop tasks current inode tmp n m
        | some (r, m) => some (r, m)

/-- `share_page`; `iCount` is `inode->i_count`. -/
def sharePage (tasks : ℕ → Option Task) (iCount : ℕ) (m : Mem) (current inode tmp : ℕ) :
    Option (Shared × Mem) :=
  if iCount < 2 then some (.no, m) else sharePageLoop tasks current inode tmp 63 m

/-- The part of `do_no_page` that loads a page. -/
def loadPage (files : Files) (tasks : ℕ → Option Task) (iCount : ℕ) (m : Mem) (current : ℕ)
    (t : Task) (tmp : ℕ) : Option (Ended × Mem) :=
  match t.source tmp with
  | none => getEmptyPage m (pageAddress current tmp)
  | some (inode, block) =>
    match sharePage tasks iCount m current inode tmp with
    | none => none
    | some (.yes, m) => some (.returned, m)
    | some (.oom, m) => some (.oom, m)
    | some (.no, m) =>
      match getFreePage m with
      | none => none
      | some (0, m) => some (.oom, m)
      | some (page, m) =>
        match putPage (m.setData page (t.readPage files inode block tmp)) page
            (pageAddress current tmp) with
        | none => none
        | some (0, m) => (freePage m page).map fun m => (.oom, m)
        | some (_, m) => some (.returned, m)

/-- `do_no_page` for page `tmp` of the running task. -/
def doNoPage (files : Files) (tasks : ℕ → Option Task) (iCount : ℕ) (m : Mem) (current : ℕ)
    (t : Task) (tmp : ℕ) : Option (Ended × Mem) :=
  match m.pgDir (pageDir current tmp) with
  | none => loadPage files tasks iCount m current t tmp
  | some table =>
    match m.table table (tmp % 1024) with
    | .swap _ => swapIn m table (tmp % 1024)
    | _ => loadPage files tasks iCount m current t tmp

/-! ### Write protection -/

/-- `do_wp_page` at a linear page; the processor found its entry. -/
def doWpPage (m : Mem) (address : ℕ) : Option (Ended × Mem) :=
  match m.pgDir (dirOf address) with
  | none => none
  | some table => unWpPage m table (entOf address)

/-- `write_verify` at a linear page. -/
def writeVerify (m : Mem) (address : ℕ) : Option (Ended × Mem) :=
  match m.pgDir (dirOf address) with
  | none => some (.returned, m)
  | some table =>
    match m.table table (entOf address) with
    | .page _ false _ => unWpPage m table (entOf address)
    | _ => some (.returned, m)

variable {startMem endMem : ℕ} {s : State} {m' : Mem} {files : Files}
  {tasks : ℕ → Option Task}

/-! ### The steps they make -/

theorem dirOf_pageAddress (n tmp : ℕ) : dirOf (pageAddress n tmp) = pageDir n tmp := by
  simp only [dirOf, pageAddress, taskSize, pageDir]
  omega

theorem entOf_pageAddress (n tmp : ℕ) : entOf (pageAddress n tmp) = tmp % 1024 := by
  simp only [entOf, pageAddress, taskSize]
  omega

theorem pageDir_user {n tmp : ℕ} (hn : 1 ≤ n) (hn' : n < 64) (htmp : tmp < taskSize) :
    User (pageDir n tmp) := by
  simp only [taskSize] at htmp
  simp only [pageDir]
  exact ⟨by simp only [firstDir]; omega, by omega⟩

/-- What `share_page` did: nothing, `oom()`, or a page is shared with a task
that has the same file. -/
def ShareEnd (tasks : ℕ → Option Task) (current inode tmp : ℕ) (s : State) (r : Shared)
    (m' : Mem) : Prop :=
  (r = .no ∧ m' = s.mem) ∨ (r = .oom ∧ TraceOf Effect.Silent s ⟨m', s.held⟩) ∨
    (r = .yes ∧ ∃ n t s₁ p rw, 1 ≤ n ∧ n < 64 ∧ n ≠ current ∧ tasks n = some t ∧
      t.fileAt tmp = some inode ∧ TraceOf Effect.Silent s s₁ ∧ lowMem ≤ p ∧
      s.mem.entry (pageDir n tmp) (tmp % 1024) = .page p rw false ∧
      (Effect.copy (pageDir n tmp) (pageDir current tmp) (tmp % 1024) p rw false).Pre s₁ ∧
      (⟨m', s.held⟩ : State) = s₁.apply
        (.copy (pageDir n tmp) (pageDir current tmp) (tmp % 1024) p rw false))

/-- Sharing page `tmp` does not swap out the entry it has read. -/
def ShareKeeps (m : Mem) (current tmp : ℕ) : Prop :=
  m.pgDir (pageDir current tmp) = none → ∀ n t, n ≠ current →
    m.pgDir (pageDir n tmp) = some t → KeepsEntry m t (tmp % 1024)

theorem sharePageLoop_trace {current inode tmp k : ℕ} {r : Shared}
    (h : Inv startMem endMem s) (hc : 1 ≤ current) (hc' : current < 64) (htmp : tmp < taskSize)
    (hkeep : ShareKeeps s.mem current tmp) (hk : k < 64)
    (hr : sharePageLoop tasks current inode tmp k s.mem = some (r, m')) :
    ShareEnd tasks current inode tmp s r m' := by
  induction k with
  | zero =>
    obtain ⟨rfl, rfl⟩ : Shared.no = r ∧ s.mem = m' := by simpa [sharePageLoop] using hr
    exact Or.inl ⟨rfl, rfl⟩
  | succ n ih =>
    have ih' := ih (by omega)
    rw [sharePageLoop] at hr
    rcases ht : tasks (n + 1) with _ | t
    · simp only [ht] at hr
      exact ih' hr
    simp only [ht] at hr
    by_cases hcur : n + 1 = current
    · rw [if_pos hcur] at hr
      exact ih' hr
    rw [if_neg hcur] at hr
    by_cases hfile : t.fileAt tmp = some inode
    · rw [if_neg (by simpa using hfile)] at hr
      have hfd := pageDir_user (by omega : 1 ≤ n + 1) hk htmp
      have htd := pageDir_user hc hc' htmp
      have hne : pageDir (n + 1) tmp ≠ pageDir current tmp := by
        simp only [pageDir]
        omega
      have hal : pageDir (n + 1) tmp % 16 = pageDir current tmp % 16 := by
        simp only [pageDir]
        omega
      rcases hs : tryToShare s.mem (pageDir (n + 1) tmp) (pageDir current tmp) (tmp % 1024) with
        _ | ⟨r', m⟩
      · simp [hs] at hr
      rcases tryToShare_trace h hfd htd hne hal (Nat.mod_lt _ (by decide))
        (fun hnone t ht => hkeep hnone (n + 1) t hcur ht) hs with
        ⟨rfl, rfl⟩ | ⟨rfl, htrace⟩ | ⟨rfl, s₁, p, rw, htrace, hlow, he, hp, heq⟩
      · simp only [hs] at hr
        exact ih' hr
      · obtain ⟨rfl, rfl⟩ : Shared.oom = r ∧ m = m' := by simpa [hs] using hr
        exact Or.inr (Or.inl ⟨rfl, htrace⟩)
      · obtain ⟨rfl, rfl⟩ : Shared.yes = r ∧ m = m' := by simpa [hs] using hr
        exact Or.inr (Or.inr ⟨rfl, n + 1, t, s₁, p, rw, by omega, hk, hcur, ht, hfile, htrace,
          hlow, he, hp, heq⟩)
    · rw [if_pos (by simpa using hfile)] at hr
      exact ih' hr

theorem fileAt_of_source {t : Task} {tmp inode block : ℕ}
    (h : t.source tmp = some (inode, block)) : t.fileAt tmp = some inode := by
  rw [Task.source] at h
  rw [Task.fileAt]
  by_cases hlib : libraryOffset ≤ tmp
  · rw [if_pos hlib, Option.map_eq_some_iff] at h
    obtain ⟨x, hx, heq⟩ := h
    obtain ⟨rfl, -⟩ : x = inode ∧ _ = block := by simpa using heq
    rw [if_neg (by omega), hx]
  · rw [if_neg hlib] at h
    split at h
    · rw [Option.map_eq_some_iff] at h
      obtain ⟨x, hx, heq⟩ := h
      obtain ⟨rfl, -⟩ : x = inode ∧ _ = block := by simpa using heq
      rw [if_pos (by omega), hx]
    · cases h

/-- What a page fault did: nothing to any address space; the page was loaded,
shared or swapped in. -/
def FaultEnd (files : Files) (tasks : ℕ → Option Task) (iCount current : ℕ) (t : Task)
    (tmp : ℕ) (s : State) (m' : Mem) : Prop :=
  TraceOf Effect.Silent s ⟨m', s.held⟩ ∨
    (∃ s₁ p, s.mem.entry (pageDir current tmp) (tmp % 1024) = .zero ∧
      TraceOf Effect.Silent s s₁ ∧ s₁.mem.data p = demandPage files t tmp ∧
      (Effect.map (pageDir current tmp) (tmp % 1024) p false).Pre s₁ ∧
      (⟨m', s.held⟩ : State) = s₁.apply (.map (pageDir current tmp) (tmp % 1024) p false)) ∨
    (∃ n t' s₁ p rw, 2 ≤ iCount ∧ 1 ≤ n ∧ n < 64 ∧ n ≠ current ∧ tasks n = some t' ∧
      t'.fileAt tmp = t.fileAt tmp ∧ (t.source tmp).isSome ∧
      s.mem.entry (pageDir current tmp) (tmp % 1024) = .zero ∧ lowMem ≤ p ∧
      s.mem.entry (pageDir n tmp) (tmp % 1024) = .page p rw false ∧
      TraceOf Effect.Silent s s₁ ∧
      (Effect.copy (pageDir n tmp) (pageDir current tmp) (tmp % 1024) p rw false).Pre s₁ ∧
      (⟨m', s.held⟩ : State) = s₁.apply
        (.copy (pageDir n tmp) (pageDir current tmp) (tmp % 1024) p rw false)) ∨
    ∃ s₁ nr q, TraceOf Effect.Silent s s₁ ∧
      (Effect.swapIn (pageDir current tmp) (tmp % 1024) nr q).Pre s₁ ∧
      (⟨m', s.held⟩ : State) = s₁.apply (.swapIn (pageDir current tmp) (tmp % 1024) nr q)

theorem loadPage_trace {iCount current tmp : ℕ} {t : Task} {r : Ended}
    (h : Inv startMem endMem s) (hc : 1 ≤ current) (hc' : current < 64) (htmp : tmp < taskSize)
    (hzero : s.mem.entry (pageDir current tmp) (tmp % 1024) = .zero)
    (hkeep : ShareKeeps s.mem current tmp)
    (hr : loadPage files tasks iCount s.mem current t tmp = some (r, m')) :
    FaultEnd files tasks iCount current t tmp s m' := by
  have hnone : (s.mem.entry (pageDir current tmp) (tmp % 1024)).frame = none := by rw [hzero]; rfl
  have htd := pageDir_user hc hc' htmp
  have hdir := dirOf_pageAddress current tmp
  have hent := entOf_pageAddress current tmp
  rw [loadPage] at hr
  rcases hsrc : t.source tmp with _ | ⟨inode, block⟩
  · simp only [hsrc] at hr
    rcases getEmptyPage_trace h (by rw [hdir]; exact htd) (by rw [hdir, hent]; exact hnone) hr with
      ⟨-, htrace⟩ | ⟨-, s₁, p, htrace, hdata, hp, heq⟩
    · exact Or.inl htrace
    · rw [hdir, hent] at hp heq
      refine Or.inr (Or.inl ⟨s₁, p, hzero, htrace, ?_, hp, heq⟩)
      rw [hdata, demandPage, hsrc]
  · simp only [hsrc] at hr
    rcases hs : sharePage tasks iCount s.mem current inode tmp with _ | ⟨r', m⟩
    · simp [hs] at hr
    have hend : ShareEnd tasks current inode tmp s r' m ∧ (r' = .yes → 2 ≤ iCount) := by
      rw [sharePage] at hs
      split at hs
      · obtain ⟨rfl, rfl⟩ : Shared.no = r' ∧ s.mem = m := by simpa using hs
        exact ⟨Or.inl ⟨rfl, rfl⟩, fun hyes => by cases hyes⟩
      · exact ⟨sharePageLoop_trace h hc hc' htmp hkeep (by omega) hs, fun _ => by omega⟩
    obtain ⟨hend, hcount⟩ := hend
    rcases hend with ⟨rfl, rfl⟩ | ⟨rfl, htrace⟩ |
      ⟨rfl, n, t', s₁, p, rw, hn, hn', hne, ht', hfile, htrace, hlow, he, hp, heq⟩
    · -- nothing to share: the page is read
      simp only [hs] at hr
      rcases hg : getFreePage s.mem with _ | ⟨page, m⟩
      · simp [hg] at hr
      rcases getFreePage_trace h hg with ⟨rfl, htrace, -⟩ | ⟨hpage, hgot⟩
      · obtain ⟨rfl, rfl⟩ : Ended.oom = r ∧ m = m' := by simpa [hg] using hr
        exact Or.inl htrace
      · obtain ⟨page, rfl⟩ := Nat.exists_eq_add_one_of_ne_zero hpage
        simp only [hg] at hr
        set c := t.readPage files inode block tmp with hcdef
        set s₂ : State := ⟨m, update s.held (page + 1) (s.held (page + 1) + 1)⟩ with hs₂
        have hfill : (Effect.fill (page + 1) c).Pre s₂ := hgot.held_ne_zero
        have htrace₂ : TraceOf Effect.Silent s (s₂.apply (.fill (page + 1) c)) :=
          hgot.trace.trans (.one hfill trivial rfl)
        have hnone₂ : ((s₂.apply (.fill (page + 1) c)).mem.entry (pageDir current tmp)
            (tmp % 1024)).frame = none := by
          have hkept := hgot.reclaimed.entry_of_none htd.2 hnone
          exact (congrArg Pte.frame hkept).trans hnone
        have hlow : lowMem ≤ page + 1 :=
          hgot.inv.lowMem_le (hgot.inv.heldOne _ hgot.held_ne_zero).1
        rcases hput : putPage (m.setData (page + 1) c) (page + 1) (pageAddress current tmp) with
          _ | ⟨r'', m₁⟩
        · simp [hput] at hr
        rcases putPageWith_trace (s := s₂.apply (.fill (page + 1) c)) (htrace₂.inv h)
          (by rw [hdir]; exact htd) (by rw [hdir, hent]; exact hnone₂) hgot.held_ne_zero hput with
          ⟨rfl, htrace₃⟩ | ⟨rfl, s₃, htrace₃, hdata, hp, heq⟩
        · simp only [hput, Option.map_eq_some_iff] at hr
          obtain ⟨m₂, hfree, hr⟩ := hr
          obtain ⟨rfl, rfl⟩ : Ended.oom = r ∧ m₂ = m' := by simpa using hr
          obtain ⟨-, -, rfl⟩ := freePage_eq hlow hfree
          refine Or.inl ((htrace₂.trans htrace₃).trans
            (.one (e := .drop (page + 1)) hgot.held_ne_zero trivial ?_))
          simp [State.apply, hs₂]
        · simp only [hput] at hr
          obtain ⟨rfl, rfl⟩ : Ended.returned = r ∧ m₁ = m' := by simpa using hr
          rw [hdir, hent] at hp heq
          refine Or.inr (Or.inl ⟨s₃, page + 1, hzero, htrace₂.trans htrace₃, ?_, hp, ?_⟩)
          · rw [hdata, demandPage, hsrc]
            simp [State.apply, hcdef]
          · rw [← heq]
            simp [State.apply, hs₂]
    · obtain ⟨rfl, rfl⟩ : Ended.oom = r ∧ m = m' := by simpa [hs] using hr
      exact Or.inl htrace
    · obtain ⟨rfl, rfl⟩ : Ended.returned = r ∧ m = m' := by simpa [hs] using hr
      refine Or.inr (Or.inr (Or.inl ⟨n, t', s₁, p, rw, hcount rfl, hn, hn', hne, ht', ?_,
        by rw [hsrc]; rfl, hzero, hlow, he, htrace, hp, heq⟩))
      rw [hfile, fileAt_of_source hsrc]

/-- `do_no_page`, where nothing is mapped. -/
theorem doNoPage_trace {iCount current tmp : ℕ} {t : Task} {r : Ended}
    (h : Inv startMem endMem s) (hc : 1 ≤ current) (hc' : current < 64) (htmp : tmp < taskSize)
    (hnone : (s.mem.entry (pageDir current tmp) (tmp % 1024)).frame = none)
    (hkeep : ShareKeeps s.mem current tmp)
    (hr : doNoPage files tasks iCount s.mem current t tmp = some (r, m')) :
    FaultEnd files tasks iCount current t tmp s m' := by
  rw [doNoPage] at hr
  split at hr
  · rename_i ht
    exact loadPage_trace h hc hc' htmp (Mem.entry_of_pgDir_none ht _) hkeep hr
  · rename_i table ht
    have hent := Mem.entry_of_pgDir ht (tmp % 1024)
    split at hr
    · rcases swapIn_trace h (pageDir_user hc hc' htmp) (Nat.mod_lt _ (by decide)) ht hr with
        ⟨-, rfl⟩ | ⟨-, htrace⟩ | ⟨-, s₁, nr, q, htrace, hp, heq⟩
      · exact Or.inl (.refl s)
      · exact Or.inl htrace
      · exact Or.inr (Or.inr (Or.inr ⟨s₁, nr, q, htrace, hp, heq⟩))
    · rename_i hswap
      refine loadPage_trace h hc hc' htmp ?_ hkeep hr
      rcases he : s.mem.table table (tmp % 1024) with _ | nr | ⟨p, rw, dirty⟩
      · exact hent.trans he
      · exact absurd he (hswap nr)
      · rw [hent, he] at hnone
        cases hnone

/-- What `un_wp_page` on entry `(d, i)` did. -/
def UnWpEnd (d i : ℕ) (s : State) (r : Ended) (m' : Mem) : Prop :=
  (r = .oom ∧ TraceOf Effect.Silent s ⟨m', s.held⟩) ∨
    (r = .returned ∧ ∃ p rw dirty, (Effect.setRw d i p rw dirty).Pre s ∧
      (⟨m', s.held⟩ : State) = s.apply (.setRw d i p rw dirty)) ∨
    r = .returned ∧ ∃ s₁ old new rw dirty, UnWpCopies s.mem old ∧ s.mem.entry d i = .page old rw dirty ∧
      TraceOf Effect.Silent s s₁ ∧ (Effect.cow d i old new rw dirty).Pre s₁ ∧
      (⟨m', s.held⟩ : State) = s₁.apply (.cow d i old new rw dirty)

/-- The copy that `un_wp_page` makes at a linear page does not swap out its
entry first. -/
def UnWpKeeps (m : Mem) (address : ℕ) : Prop :=
  ∀ t old rw dirty, m.pgDir (dirOf address) = some t →
    m.table t (entOf address) = .page old rw dirty → UnWpCopies m old →
    KeepsEntry m t (entOf address)

/-- `do_wp_page`, for a read-only page. -/
theorem doWpPage_trace {address p : ℕ} {dirty : Bool} {r : Ended} (h : Inv startMem endMem s)
    (hd : User (dirOf address))
    (he : s.mem.entry (dirOf address) (entOf address) = .page p false dirty)
    (hkeep : UnWpKeeps s.mem address) (hr : doWpPage s.mem address = some (r, m')) :
    UnWpEnd (dirOf address) (entOf address) s r m' := by
  have hi : entOf address < 1024 := Nat.mod_lt _ (by decide)
  rw [doWpPage] at hr
  rcases ht : s.mem.pgDir (dirOf address) with _ | t
  · simp [ht] at hr
  · simp only [ht] at hr
    have he' : s.mem.table t (entOf address) = .page p false dirty :=
      (Mem.entry_of_pgDir ht _).symm.trans he
    rcases unWpPage_trace h hd hi ht he (hkeep t p false dirty ht he') hr with
      ⟨hr, htrace⟩ | ⟨hr, hp, heq⟩ | ⟨hr, hcopies, s₁, new, htrace, hp, heq⟩
    · exact Or.inl ⟨hr, htrace⟩
    · exact Or.inr (Or.inl ⟨hr, p, false, dirty, hp, heq⟩)
    · exact Or.inr (Or.inr ⟨hr, s₁, p, new, false, dirty, hcopies, he, htrace, hp, heq⟩)

/-- `write_verify`; the tables of the kernel have no read-only entry. -/
theorem writeVerify_trace {address : ℕ} {r : Ended} (h : Inv startMem endMem s)
    (ha : address < 2 ^ 20) (hkeep : UnWpKeeps s.mem address)
    (hr : writeVerify s.mem address = some (r, m')) :
    (r = .returned ∧ m' = s.mem ∧
      ∀ p dirty, s.mem.entry (dirOf address) (entOf address) ≠ .page p false dirty) ∨
      User (dirOf address) ∧
        (∃ p dirty, s.mem.entry (dirOf address) (entOf address) = .page p false dirty) ∧
        UnWpEnd (dirOf address) (entOf address) s r m' := by
  have hdlt : dirOf address < 1024 := by
    simp only [dirOf]
    omega
  have hi : entOf address < 1024 := Nat.mod_lt _ (by decide)
  rw [writeVerify] at hr
  rcases ht : s.mem.pgDir (dirOf address) with _ | t
  · simp only [ht] at hr
    obtain ⟨rfl, rfl⟩ : Ended.returned = r ∧ s.mem = m' := by simpa using hr
    refine Or.inl ⟨rfl, rfl, fun p dirty hc => ?_⟩
    rw [Mem.entry_of_pgDir_none ht] at hc
    cases hc
  · simp only [ht] at hr
    have hent : s.mem.entry (dirOf address) (entOf address) = s.mem.table t (entOf address) :=
      Mem.entry_of_pgDir ht _
    split at hr
    · rename_i old dirty he
      have hd : User (dirOf address) := by
        refine ⟨?_, hdlt⟩
        by_contra hc
        exact h.kernelRw _ _ old dirty (by omega) hi (hent.trans he)
      refine Or.inr ⟨hd, ⟨old, dirty, hent.trans he⟩, ?_⟩
      -- what is left is what `do_wp_page` does
      refine doWpPage_trace h hd (hent.trans he) hkeep ?_
      simp only [doWpPage, ht]
      exact hr
    · rename_i hno
      obtain ⟨rfl, rfl⟩ : Ended.returned = r ∧ s.mem = m' := by simpa using hr
      refine Or.inl ⟨rfl, rfl, fun p dirty hc => ?_⟩
      exact hno p dirty (hent.symm.trans hc)

end Mm
