/-
Reference counts of frames over all runs of the memory manager.

* `Op` — the calls into the memory manager, `Op.Called` — what their callers see
  to, `State.step` — what they do;
* `system` — the runs from `mem_init`;
* `frame_count` — in every run in which the `get_free_page` inside `un_wp_page`
  and `try_to_share` leaves the entry they read alone, the byte of a frame is
  the number of references to it;
* `frame_count_lost` — a run in which `un_wp_page` drops the reference that
  `swap_out` has dropped already, so that a mapped frame counts as free.
-/
import Linux012.PageFaults

namespace Mm

open Function (update)

/-- A call into the memory manager, or a store of a process. -/
inductive Op where
  | getFreePage
  | freePage (p : ℕ)
  | putPage (p address : ℕ)
  | putDirtyPage (p address : ℕ)
  | getEmptyPage (address : ℕ)
  | copyPageTables (fromDir toDir size : ℕ)
  | freePageTables (dir size : ℕ)
  | unWpPage (d i : ℕ)
  | tryToShare (fromDir toDir i : ℕ)
  | swapIn (d i : ℕ)
  | tryToSwapOut (d i : ℕ)
  /-- `init_swapping` has read the bit-map -/
  | initSwapping (bits : ℕ → Bool)
  /-- a store of a process, which sets `PAGE_DIRTY` -/
  | store (d i : ℕ) (c : Page)

/-- What the callers see to: they free and map frames they hold, they map where
nothing is mapped, and they work on the address spaces of tasks 1 to 63, which
start at multiples of `TASK_SIZE`.  Task 0 is only copied, up to its limit. -/
def Op.Called (s : State) : Op → Prop
  | .getFreePage => True
  | .freePage p => s.held p ≠ 0 ∨ p < lowMem
  | .putPage p a | .putDirtyPage p a =>
    s.held p ≠ 0 ∧ User (dirOf a) ∧ (s.mem.entry (dirOf a) (entOf a)).frame = none
  | .getEmptyPage a => User (dirOf a) ∧ (s.mem.entry (dirOf a) (entOf a)).frame = none
  | .copyPageTables f t size => f ≠ t ∧ f % 16 = 0 ∧ t % 16 = 0 ∧ User t ∧
      (User f ∧ size ≤ taskSize ∨ f = 0 ∧ size ≤ 1024)
  | .freePageTables dir size => User dir ∧ dir % 16 + (size + 1023) / 1024 ≤ 16
  | .unWpPage d i => User d ∧ i < 1024 ∧ (s.mem.entry d i).frame ≠ none
  | .tryToShare f t i => User f ∧ User t ∧ f ≠ t ∧ f % 16 = t % 16 ∧ i < 1024
  | .swapIn d i | .tryToSwapOut d i => User d ∧ i < 1024
  | .initSwapping _ => s.mem.swapBitmap = none
  | .store d i _ => User d ∧ i < 1024 ∧ (s.mem.entry d i).frame ≠ none

/-- The state after a call; there is none after a panic, and none where the call
would work on a page table that is not there. -/
def State.step (s : State) : Op → Option State
  | .getFreePage => (getFreePage s.mem).map fun (p, m) =>
      ⟨m, if p = 0 then s.held else update s.held p (s.held p + 1)⟩
  | .freePage p => (freePage s.mem p).map fun m =>
      ⟨m, if p < lowMem then s.held else update s.held p (s.held p - 1)⟩
  | .putPage p a => (putPage s.mem p a).map fun (r, m) =>
      ⟨m, if r = 0 then s.held else update s.held p (s.held p - 1)⟩
  | .putDirtyPage p a => (putDirtyPage s.mem p a).map fun (r, m) =>
      ⟨m, if r = 0 then s.held else update s.held p (s.held p - 1)⟩
  | .getEmptyPage a => (getEmptyPage s.mem a).map fun (_, m) => ⟨m, s.held⟩
  | .copyPageTables f t size => (copyPageTables s.mem f t size).map fun (_, m) => ⟨m, s.held⟩
  | .freePageTables dir size => (freePageTables s.mem dir size).map fun m => ⟨m, s.held⟩
  | .unWpPage d i => (s.mem.pgDir d).bind fun t =>
      (unWpPage s.mem t i).map fun (_, m) => ⟨m, s.held⟩
  | .tryToShare f t i => (tryToShare s.mem f t i).map fun (_, m) => ⟨m, s.held⟩
  | .swapIn d i => (s.mem.pgDir d).bind fun t =>
      (swapIn s.mem t i).map fun (_, m) => ⟨m, s.held⟩
  | .tryToSwapOut d i => (s.mem.pgDir d).bind fun t =>
      (tryToSwapOut s.mem t i).map fun (_, m) => ⟨m, s.held⟩
  | .initSwapping bits => some ⟨{ s.mem with swapBitmap := some bits }, s.held⟩
  | .store d i c => match s.mem.entry d i with
    | .page p rw _ => some ⟨(s.mem.setData p c).setEnt d i (.page p rw true), s.held⟩
    | _ => none

/-- The entry that `un_wp_page` or `try_to_share` has read is the same after the
`get_free_page` they call. -/
def Op.KeepsEntry (s : State) : Op → Prop
  | .unWpPage d i => ∀ t old rw dirty, s.mem.pgDir d = some t →
      s.mem.table t i = .page old rw dirty → UnWpCopies s.mem old → Mm.KeepsEntry s.mem t i
  | .tryToShare f t i => s.mem.pgDir t = none → ∀ ft, s.mem.pgDir f = some ft →
      Mm.KeepsEntry s.mem ft i
  | _ => True

/-- The runs of the memory manager. -/
def system (startMem endMem : ℕ) : System State Op where
  init s := s = ⟨memInit startMem endMem, fun _ => 0⟩
  step s op s' := op.Called s ∧ s.step op = some s'

variable {startMem endMem : ℕ} {s s' : State}

/-! ### The invariant along a run -/

theorem inv_memInit (hlow : lowMem ≤ startMem) (htop : endMem ≤ lowMem + pagingPages) :
    Inv startMem endMem ⟨memInit startMem endMem, fun _ => 0⟩ := by
  have hdir : ∀ d, User d → (memInit startMem endMem).pgDir d = none := by
    intro d hd
    have hge : 16 ≤ d := hd.1
    exact if_neg (by omega)
  have hent : ∀ d i, User d → (memInit startMem endMem).entry d i = .zero :=
    fun d i hd => Mem.entry_of_pgDir_none (hdir d hd) i
  have hmap : ∀ n, (memInit startMem endMem).memMap n =
      if mapNr startMem ≤ n ∧ n < mapNr startMem + (endMem - startMem) then 0 else used := by
    simp only [memInit, implies_true]
  have hcursor : User firstDir := by decide
  have hkdir : ∀ d t, (memInit startMem endMem).pgDir d = some t → d < 4 ∧ t = d + 1 := by
    intro d t ht
    have hd : (if d < 4 then some (d + 1) else none) = some t := ht
    by_cases hd4 : d < 4
    · rw [if_pos hd4] at hd
      exact ⟨hd4, (Option.some.inj hd).symm⟩
    · rw [if_neg hd4] at hd
      cases hd
  refine ⟨hlow, htop, rfl, ?_, ?_, by simp, ?_, ?_, ?_, ?_, ?_, ?_, hcursor⟩
  · intro n _ hmain
    have hout : ¬ (mapNr startMem ≤ n ∧ n < mapNr startMem + (endMem - startMem)) := by
      rw [Main] at hmain
      simp only [mapNr]
      omega
    rw [hmap, if_neg hout]
    decide
  · intro p hp
    have hin : mapNr startMem ≤ mapNr p ∧ mapNr p < mapNr startMem + (endMem - startMem) := by
      rw [Main] at hp
      simp only [mapNr]
      omega
    have hfree : (memInit startMem endMem).memMap (mapNr p) = 0 := by
      rw [hmap, if_pos hin]
    have hentries : (memInit startMem endMem).entries p = 0 := by
      refine Counting.count_eq_zero_iff.mpr fun x hx => ?_
      have := hx.2
      rw [hent _ _ ⟨hx.1, x.1.isLt⟩] at this
      cases this
    have htables : (memInit startMem endMem).tables p = 0 := by
      refine Counting.count_eq_zero_iff.mpr fun x hx => ?_
      have := hx.2
      rw [hdir _ ⟨hx.1, x.isLt⟩] at this
      cases this
    show (memInit startMem endMem).memMap (mapNr p) = _ + _ + 0
    rw [hfree, hentries, htables]
  · intro d t hd ht
    rw [hdir d hd] at ht
    cases ht
  · intro d i p hd _ he
    rw [hent d i hd] at he
    cases he
  · intro d i d' i' p hd _ _ _ _ he
    rw [hent d i hd] at he
    cases he
  · intro d t _ ht
    obtain ⟨hd, rfl⟩ := hkdir d t ht
    exact (show d + 1 < 5 by omega).trans (by decide)
  · intro d i p dirty _ hi
    rcases ht : (memInit startMem endMem).pgDir d with _ | t
    · rw [Mem.entry_of_pgDir_none ht]
      simp
    · rw [Mem.entry_of_pgDir ht]
      show (if _ then _ else _) ≠ _
      split <;> simp
  · intro i hi
    have he : (memInit startMem endMem).entry 0 i = .page i true false := by
      have htable : (memInit startMem endMem).entry 0 i
          = if 1 ≤ 1 ∧ 1 ≤ 4 ∧ i < 1024 then .page (1024 * (1 - 1) + i) true false else .zero :=
        rfl
      rw [htable, if_pos (by omega)]
      simp
    simp only [he, Pte.frame_page]
    refine ⟨?_, by simp⟩
    rintro p ⟨⟩
    exact hi.trans (by decide)

theorem user_add {d k : ℕ} (hd : User d) (hk : d % 16 + k < 16) : User (d + k) := by
  obtain ⟨h1, h2⟩ := hd
  exact ⟨by omega, by omega⟩

private theorem inv_putPageWith {dirty : Bool} {p a r : ℕ} {m : Mem}
    (h : Inv startMem endMem s)
    (hc : s.held p ≠ 0 ∧ User (dirOf a) ∧ (s.mem.entry (dirOf a) (entOf a)).frame = none)
    (hr : putPageWith dirty s.mem p a = some (r, m)) :
    Inv startMem endMem ⟨m, if r = 0 then s.held else update s.held p (s.held p - 1)⟩ := by
  obtain ⟨hheld, hd, hnone⟩ := hc
  rcases putPageWith_trace h hd hnone hheld hr with ⟨rfl, ht⟩ | ⟨rfl, s₁, ht, -, hp, heq⟩
  · exact ht.inv h
  · have hlow := h.lowMem_le (h.heldOne r hheld).1
    have hpos : 0 < lowMem := by decide
    rw [if_neg (by omega)]
    exact heq ▸ (ht.inv h).apply hp

/-- One call keeps the invariant. -/
theorem inv_step {op : Op} (h : Inv startMem endMem s) (hc : op.Called s)
    (hk : op.KeepsEntry s) (hs : s.step op = some s') : Inv startMem endMem s' := by
  cases op with
  | getFreePage =>
    obtain ⟨⟨p, m⟩, hg, rfl⟩ := Option.map_eq_some_iff.mp hs
    rcases getFreePage_trace h hg with ⟨rfl, -, hi⟩ | ⟨hne, hgot⟩
    · exact hi
    · show Inv startMem endMem ⟨m, if p = 0 then s.held else _⟩
      rw [if_neg hne]
      exact hgot.inv
  | freePage p =>
    obtain ⟨m, hf, rfl⟩ := Option.map_eq_some_iff.mp hs
    by_cases hlow : p < lowMem
    · rw [freePage_low hlow] at hf
      obtain rfl := Option.some.inj hf
      rw [if_pos hlow]
      exact h
    · rw [if_neg hlow]
      obtain ⟨-, -, rfl⟩ := freePage_eq (by omega) hf
      exact h.apply_drop (hc.resolve_right hlow)
  | putPage p a =>
    obtain ⟨⟨r, m⟩, hr, rfl⟩ := Option.map_eq_some_iff.mp hs
    exact inv_putPageWith h hc hr
  | putDirtyPage p a =>
    obtain ⟨⟨r, m⟩, hr, rfl⟩ := Option.map_eq_some_iff.mp hs
    exact inv_putPageWith h hc hr
  | getEmptyPage a =>
    obtain ⟨⟨r, m⟩, hr, rfl⟩ := Option.map_eq_some_iff.mp hs
    rcases getEmptyPage_trace h hc.1 hc.2 hr with ⟨-, ht⟩ | ⟨-, s₁, p, ht, -, hp, heq⟩
    · exact ht.inv h
    · show Inv startMem endMem ⟨m, s.held⟩
      exact heq ▸ (ht.inv h).apply hp
  | copyPageTables f t size =>
    obtain ⟨⟨b, m⟩, hr, rfl⟩ := Option.map_eq_some_iff.mp hs
    obtain ⟨hne, hf, ht, htu, hfrom⟩ := hc
    have hto : ∀ k, k < (size + 1023) / 1024 → User (t + k) := by
      intro k hk
      refine user_add htu ?_
      simp only [taskSize] at hfrom
      omega
    have hend := copyTables_trace _ h (by
      rcases hfrom with ⟨hfu, hsize⟩ | ⟨rfl, hsize⟩
      · refine Or.inl ⟨fun k hk => user_add hfu ?_, if_neg ?_⟩
        · simp only [taskSize] at hsize
          omega
        · have := hfu.1
          simp only [firstDir] at this
          omega
      · exact Or.inr ⟨rfl, by omega, rfl⟩) hto hne (by omega) hr
    rcases hend with ⟨-, hcopied⟩ | ⟨-, htrace⟩
    · exact hcopied.traceOf.inv h
    · exact htrace.inv h
  | freePageTables dir size =>
    obtain ⟨m, hr, rfl⟩ := Option.map_eq_some_iff.mp hs
    obtain ⟨hd, hsize⟩ := hc
    have hne : dir ≠ 0 := by
      have := hd.1
      simp only [firstDir] at this
      omega
    rw [freePageTables, if_neg hne] at hr
    exact (freeTables_trace _ h (fun k hk => user_add hd (by omega)) hr).1.inv h
  | unWpPage d i =>
    obtain ⟨t, ht, hs⟩ := Option.bind_eq_some_iff.mp hs
    obtain ⟨⟨r, m⟩, hr, rfl⟩ := Option.map_eq_some_iff.mp hs
    obtain ⟨hd, hi, hframe⟩ := hc
    rcases he : s.mem.entry d i with _ | _ | ⟨old, rw, dirty⟩
    · simp [he] at hframe
    · simp [he] at hframe
    · rcases unWpPage_trace h hd hi ht he
        (hk t old rw dirty ht ((Mem.entry_of_pgDir ht i).symm.trans he)) hr with
        ⟨-, htrace⟩ | ⟨-, hp, heq⟩ | ⟨-, -, s₁, new, htrace, hp, heq⟩
      · exact htrace.inv h
      · show Inv startMem endMem ⟨m, s.held⟩
        exact heq ▸ h.apply hp
      · show Inv startMem endMem ⟨m, s.held⟩
        exact heq ▸ (htrace.inv h).apply hp
  | tryToShare f t i =>
    obtain ⟨⟨r, m⟩, hr, rfl⟩ := Option.map_eq_some_iff.mp hs
    obtain ⟨hf, ht, hne, hal, hi⟩ := hc
    rcases tryToShare_trace h hf ht hne hal hi hk hr with
      ⟨-, rfl⟩ | ⟨-, htrace⟩ | ⟨-, s₁, p, rw, htrace, -, -, hp, heq⟩
    · exact h
    · exact htrace.inv h
    · show Inv startMem endMem ⟨m, s.held⟩
      exact heq ▸ (htrace.inv h).apply hp
  | swapIn d i =>
    obtain ⟨t, ht, hs⟩ := Option.bind_eq_some_iff.mp hs
    obtain ⟨⟨r, m⟩, hr, rfl⟩ := Option.map_eq_some_iff.mp hs
    rcases swapIn_trace h hc.1 hc.2 ht hr with
      ⟨-, rfl⟩ | ⟨-, htrace⟩ | ⟨-, s₁, nr, q, htrace, hp, heq⟩
    · exact h
    · exact htrace.inv h
    · show Inv startMem endMem ⟨m, s.held⟩
      exact heq ▸ (htrace.inv h).apply hp
  | tryToSwapOut d i =>
    obtain ⟨t, ht, hs⟩ := Option.bind_eq_some_iff.mp hs
    obtain ⟨⟨b, m⟩, hr, rfl⟩ := Option.map_eq_some_iff.mp hs
    exact (tryToSwapOut_trace hc.1 hc.2 ht hr).1.inv h
  | initSwapping bits =>
    obtain rfl := Option.some.inj hs
    exact h.apply (e := .swapOn bits) hc
  | store d i c =>
    obtain ⟨hd, hi, -⟩ := hc
    rw [State.step] at hs
    rcases he : s.mem.entry d i with _ | _ | ⟨p, rw, dirty⟩
    · simp [he] at hs
    · simp [he] at hs
    · rw [he] at hs
      obtain rfl := Option.some.inj hs
      exact h.apply (e := .store d i p rw dirty c) ⟨hd, hi, he⟩

/-- Along a run in which `un_wp_page` and `try_to_share` find the entry they have
read unchanged, the byte of a main-memory frame is the number of page-table
entries and page-directory entries that name it and of the references held
outside page tables. -/
theorem frame_count (hlow : lowMem ≤ startMem) (htop : endMem ≤ lowMem + pagingPages)
    (hr : (system startMem endMem).Reach (fun s op => op.KeepsEntry s) s) {p : ℕ}
    (hp : Main startMem endMem p) :
    s.mem.memMap (mapNr p) = s.mem.entries p + s.mem.tables p + s.held p := by
  have hinv : Inv startMem endMem s := by
    refine hr.invariant ?_ ?_
    · rintro _ rfl
      exact inv_memInit hlow htop
    · rintro s op s' h hk ⟨hc, hs⟩
      exact inv_step h hc hk hs
  exact hinv.count p hp

/-! ### Runs from a list of calls -/

instance (s : State) : (op : Op) → Decidable (op.Called s)
  | .getFreePage => inferInstanceAs (Decidable True)
  | .freePage _ => inferInstanceAs (Decidable (_ ∨ _))
  | .putPage _ _ => inferInstanceAs (Decidable (_ ∧ _ ∧ _))
  | .putDirtyPage _ _ => inferInstanceAs (Decidable (_ ∧ _ ∧ _))
  | .getEmptyPage _ => inferInstanceAs (Decidable (_ ∧ _))
  | .copyPageTables _ _ _ => inferInstanceAs (Decidable (_ ∧ _ ∧ _ ∧ _ ∧ (_ ∧ _ ∨ _ ∧ _)))
  | .freePageTables _ _ => inferInstanceAs (Decidable (_ ∧ _))
  | .unWpPage _ _ => inferInstanceAs (Decidable (_ ∧ _ ∧ _))
  | .tryToShare _ _ _ => inferInstanceAs (Decidable (_ ∧ _ ∧ _ ∧ _ ∧ _))
  | .swapIn _ _ => inferInstanceAs (Decidable (_ ∧ _))
  | .tryToSwapOut _ _ => inferInstanceAs (Decidable (_ ∧ _))
  | .initSwapping _ => decidable_of_iff (s.mem.swapBitmap.isNone) Option.isNone_iff_eq_none
  | .store _ _ _ => inferInstanceAs (Decidable (_ ∧ _ ∧ _))

/-- The state after a call made as its callers make it. -/
def State.next (s : State) (op : Op) : Option State := if op.Called s then s.step op else none

theorem step_of_next (s : State) (op : Op) (s' : State) (h : s.next op = some s') :
    (system startMem endMem).step s op s' := by
  rw [State.next] at h
  by_cases hc : op.Called s
  · rw [if_pos hc] at h
    exact ⟨hc, h⟩
  · rw [if_neg hc] at h
    cases h

theorem frame_count_mapped : ∃ s : State,
    System.runOf State.next [.getFreePage, .putPage 4095 16384]
        ⟨memInit 4092 4096, fun _ => 0⟩ = some s ∧
      s.mem.memMap (mapNr 4095) = s.mem.entries 4095 + s.mem.tables 4095 + s.held 4095 := by
  have hrun : (System.runOf State.next [.getFreePage, .putPage 4095 16384]
      ⟨memInit 4092 4096, fun _ => 0⟩).isSome := by decide +kernel
  obtain ⟨s, hs⟩ := Option.isSome_iff_exists.mp hrun
  have hreach : (system 4092 4096).Reach (fun s op => op.KeepsEntry s) s :=
    .of_runOf step_of_next (by simp [Op.KeepsEntry]) (.init rfl) hs
  have hmain : Main 4092 4096 4095 := ⟨by decide, by decide⟩
  exact ⟨s, hs, frame_count (by decide) (by decide) hreach hmain⟩

/-- A page is mapped by two tasks and `un_wp_page` is called for the first;
memory is full, so its `get_free_page` swaps pages out, this page first. -/
def lostRun : List Op :=
  [.getFreePage, .putPage 4095 16384, .copyPageTables 16 32 1024, .getFreePage,
    .putPage 4092 16385, .unWpPage 16 0]

/-- After `lostRun` the frame that the second task maps counts as free. -/
theorem frame_count_lost : ¬ ∀ s : State, (system 4092 4096).Reachable s →
    ∀ p, Main 4092 4096 p →
      s.mem.memMap (mapNr p) = s.mem.entries p + s.mem.tables p + s.held p := by
  have hrun : (System.runOf State.next lostRun ⟨memInit 4092 4096, fun _ => 0⟩).any (fun s =>
      decide (s.mem.memMap (mapNr 4095) = 0 ∧ s.mem.entry 32 0 = .page 4095 false false))
        = true := by
    decide +kernel
  intro h
  rcases hs : System.runOf State.next lostRun ⟨memInit 4092 4096, fun _ => 0⟩ with _ | s
  · rw [hs] at hrun
    cases hrun
  · rw [hs, Option.any_some, decide_eq_true_iff] at hrun
    have hreach : (system 4092 4096).Reachable s :=
      .of_runOf step_of_next (fun _ _ _ => trivial) (.init rfl) hs
    have hcount := h s hreach 4095 ⟨by decide, by decide⟩
    have hpos : 1 ≤ s.mem.entries 4095 :=
      Mem.entries_pos (d := 32) (i := 0) (by decide) (by decide) (by rw [hrun.2]; rfl)
    omega

end Mm
