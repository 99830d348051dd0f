/-
Every operation of the memory manager is a sequence of elementary steps.

* `swapOut_trace`, `getFreePage_trace` — swapping out changes entries only by
  discarding and evicting pages, and `get_free_page` takes a frame after that;
* `putPageWith_trace`, `getEmptyPage_trace`, `unWpPage_trace`,
  `tryToShare_trace`, `swapIn_trace` — one step on the page table in question,
  after the steps of `get_free_page`;
* `copyPageTables_trace`, `freePageTables_trace` — one step for each entry.

Design notes: a step that leaves the content of every address space alone is
`Silent`.  `un_wp_page` and `try_to_share` use what they read from an entry
before they call `get_free_page`, so for them the entry is assumed to be the
same afterwards.
-/
import Linux012.FrameInv

namespace Mm

open Function (update)

namespace Effect

/-- The steps of `swap_out`. -/
def Reclaims : Effect → Prop
  | .cursor _ _ | .discard _ _ _ _ | .evict _ _ _ _ _ => True
  | _ => False

/-- The steps that leave the content of every address space alone. -/
def Silent : Effect → Prop
  | .cursor _ _ | .discard _ _ _ _ | .evict _ _ _ _ _ | .take _ | .drop _ | .newTable _ _
  | .fill _ _ => True
  | _ => False

theorem Reclaims.silent {e : Effect} (h : e.Reclaims) : e.Silent := by
  cases e <;> trivial

end Effect

/-- A sequence of steps all of which satisfy `P`. -/
def TraceOf (P : Effect → Prop) (s s' : State) : Prop :=
  ∃ es, Trace s es s' ∧ ∀ e ∈ es, P e

namespace TraceOf

variable {P Q : Effect → Prop} {s s' s'' : State} {e : Effect}

theorem refl (s : State) : TraceOf P s s := ⟨[], .nil s, by simp⟩

theorem trans (h : TraceOf P s s') (h' : TraceOf P s' s'') : TraceOf P s s'' := by
  obtain ⟨es, ht, hes⟩ := h
  obtain ⟨es', ht', hes'⟩ := h'
  refine ⟨es ++ es', ht.append ht', fun e he => ?_⟩
  rcases List.mem_append.mp he with he | he
  · exact hes e he
  · exact hes' e he

theorem one (hp : e.Pre s) (he : P e) (hs : s' = s.apply e) : TraceOf P s s' :=
  ⟨[e], hs ▸ .one hp, by simpa using he⟩

theorem mono (hPQ : ∀ e, P e → Q e) (h : TraceOf P s s') : TraceOf Q s s' := by
  obtain ⟨es, ht, hes⟩ := h
  exact ⟨es, ht, fun e he => hPQ e (hes e he)⟩

/-- What every step satisfying `P` keeps, a sequence of them keeps. -/
theorem invariant {I : State → Prop} (hI : ∀ s e, I s → e.Pre s → P e → I (s.apply e))
    (h : TraceOf P s s') (hs : I s) : I s' := by
  obtain ⟨es, ht, hes⟩ := h
  induction ht with
  | nil => exact hs
  | cons hp _ ih =>
    exact ih (hI _ _ hs hp (hes _ List.mem_cons_self))
      fun e he => hes e (List.mem_cons_of_mem _ he)

theorem inv {startMem endMem : ℕ} (h : TraceOf P s s') (hi : Inv startMem endMem s) :
    Inv startMem endMem s' := by
  obtain ⟨es, ht, -⟩ := h
  exact hi.trace ht

end TraceOf

variable {startMem endMem : ℕ} {s s' : State} {m' : Mem} {d i p t : ℕ}

/-! ### Swapping out -/

theorem freePage_eq {m : Mem} (hp : lowMem ≤ p) (h : freePage m p = some m') :
    p < m.highMemory ∧ m.memMap (mapNr p) ≠ 0 ∧
      m' = m.setMap (mapNr p) (m.memMap (mapNr p) - 1) := by
  rw [freePage, if_neg (by omega)] at h
  by_cases hhigh : m.highMemory ≤ p
  · rw [if_pos hhigh] at h
    cases h
  · rw [if_neg hhigh] at h
    by_cases hzero : m.memMap (mapNr p) ≠ 0
    · rw [if_pos hzero] at h
      exact ⟨by omega, hzero, (Option.some.inj h).symm⟩
    · rw [if_neg hzero] at h
      cases h

theorem freePage_low {m : Mem} (hp : p < lowMem) : freePage m p = some m := if_pos hp

theorem getSwapPage_eq {m : Mem} {nr : ℕ} (h : getSwapPage m = some (nr, m')) :
    ∃ bits, m.swapBitmap = some bits ∧ bits nr = true ∧ 1 ≤ nr ∧ nr < swapBits ∧
      m' = { m with swapBitmap := some (update bits nr false) } := by
  rw [getSwapPage] at h
  rcases hb : m.swapBitmap with _ | bits
  · rw [hb] at h
    cases h
  · simp only [hb] at h
    rcases hf : (List.range' 1 32767).find? bits with _ | n
    · rw [hf] at h
      cases h
    · rw [hf] at h
      obtain ⟨rfl, rfl⟩ : n = nr ∧ _ = m' := by simpa using h
      have hmem := List.mem_of_find?_eq_some hf
      have hbit : bits n = true := List.find?_some hf
      rw [List.mem_range'_1] at hmem
      exact ⟨bits, rfl, hbit, hmem.1, by simp only [swapBits]; omega, rfl⟩

theorem tryToSwapOut_trace {b : Bool} (hd : User d) (hi : i < 1024)
    (ht : s.mem.pgDir d = some t) (h : tryToSwapOut s.mem t i = some (b, m')) :
    TraceOf Effect.Reclaims s ⟨m', s.held⟩ ∧ (b = false → m' = s.mem) := by
  have hsame : ∀ {m}, some (false, s.mem) = some (b, m) →
      TraceOf Effect.Reclaims s ⟨m, s.held⟩ ∧ (b = false → m = s.mem) := by
    intro m hm
    obtain ⟨-, rfl⟩ : false = b ∧ s.mem = m := by simpa using hm
    exact ⟨.refl s, fun _ => rfl⟩
  have hent : s.mem.entry d i = s.mem.table t i := Mem.entry_of_pgDir ht i
  rw [tryToSwapOut] at h
  split at h
  case h_2 => exact hsame h
  case h_1 p rw dirty he =>
    split at h
    · exact hsame h
    · rename_i hlow
      have hp : lowMem ≤ p := by omega
      split at h
      · -- dirty: to the swap device, if nothing else refers to the frame
        rename_i hdirty
        subst hdirty
        split at h
        · exact hsame h
        · rename_i hone
          push Not at hone
          split at h
          · exact hsame h
          · rename_i nr m₁ hswap
            obtain ⟨bits, hbits, hbit, hnr, hnr', rfl⟩ := getSwapPage_eq hswap
            simp only [Option.map_eq_some_iff] at h
            obtain ⟨m₂, hfree, hm⟩ := h
            obtain ⟨rfl, rfl⟩ : true = b ∧ m₂ = m' := by simpa using hm
            obtain ⟨-, -, rfl⟩ := freePage_eq hp hfree
            refine ⟨?_, by simp⟩
            have hpre : (Effect.evict d i p rw nr).Pre s :=
              ⟨hd, hi, hp, hent.trans he, hone, hnr, hnr', bits, hbits, hbit⟩
            refine .one hpre trivial ?_
            simp only [State.apply, Mem.setEnt_of_pgDir ht, hbits, Option.map_some,
              Mem.setEntry, Mem.setMap]
      · -- clean: dropped
        rename_i hclean
        rw [Bool.not_eq_true] at hclean
        subst hclean
        simp only [Option.map_eq_some_iff] at h
        obtain ⟨m₂, hfree, hm⟩ := h
        obtain ⟨rfl, rfl⟩ : true = b ∧ m₂ = m' := by simpa using hm
        obtain ⟨-, -, rfl⟩ := freePage_eq hp hfree
        refine ⟨?_, by simp⟩
        have hpre : (Effect.discard d i p rw).Pre s := ⟨hd, hi, hp, hent.trans he⟩
        refine .one hpre trivial ?_
        simp only [State.apply, Mem.setEnt_of_pgDir ht]
        rfl

theorem nextDir_user (hd : User d) : User (nextDir d) := by
  obtain ⟨hd1, hd2⟩ := hd
  rw [nextDir]
  split
  · exact ⟨le_rfl, by decide⟩
  · exact ⟨by omega, by omega⟩

theorem skipDirs_user (pgDir : ℕ → Option ℕ) :
    ∀ (k d : ℕ), User d → User (skipDirs pgDir k d).2
  | 0, _, hd => hd
  | k + 1, d, hd => by
    rw [skipDirs]
    split
    · exact hd
    · exact skipDirs_user pgDir k _ (nextDir_user hd)

theorem nextTable_user (pgDir : ℕ → Option ℕ) :
    ∀ (k counter d : ℕ), User d → User (nextTable pgDir k counter d).1 ∧
      ∀ c t, (nextTable pgDir k counter d).2 = some (c, t) →
        pgDir (nextTable pgDir k counter d).1 = some t
  | 0, _, _, hd => ⟨hd, by simp [nextTable]⟩
  | k + 1, counter, d, hd => by
    rcases ht : pgDir (nextDir d) with _ | t
    · by_cases hc : 1024 < counter
      · simp only [nextTable, ht, if_pos hc]
        exact nextTable_user pgDir k _ _ (nextDir_user hd)
      · simp only [nextTable, ht, if_neg hc]
        exact ⟨nextDir_user hd, by simp⟩
    · simp only [nextTable, ht]
      exact ⟨nextDir_user hd, by simp⟩

/-- What the loop does with the answer of `try_to_swap_out`. -/
def afterTry (rest : Mem → Option (Bool × Mem)) : Option (Bool × Mem) → Option (Bool × Mem)
  | none => none
  | some (true, m) => some (true, m)
  | some (false, m) => rest m

theorem swapOutLoop_trace {b : Bool} (k counter : ℕ) (hd : User s.mem.dirEntry)
    (ht : s.mem.pgDir s.mem.dirEntry = some t)
    (h : swapOutLoop k counter t s.mem = some (b, m')) :
    TraceOf Effect.Reclaims s ⟨m', s.held⟩ := by
  induction k generalizing counter t s with
  | zero =>
    obtain ⟨-, rfl⟩ : false = b ∧ s.mem = m' := by simpa [swapOutLoop] using h
    exact .refl s
  | succ k ih =>
    rcases counter with _ | counter
    · obtain ⟨-, rfl⟩ : false = b ∧ s.mem = m' := by simpa [swapOutLoop] using h
      exact .refl s
    rw [swapOutLoop] at h
    -- one entry is tried after the cursors have moved to it
    have hround : ∀ (s₁ : State) {t' i' c : ℕ}, TraceOf Effect.Reclaims s s₁ →
        s₁.held = s.held → User s₁.mem.dirEntry → i' < 1024 →
        s₁.mem.pgDir s₁.mem.dirEntry = some t' →
        afterTry (swapOutLoop k c t') (tryToSwapOut s₁.mem t' i') = some (b, m') →
        TraceOf Effect.Reclaims s ⟨m', s.held⟩ := by
      intro s₁ t' i' c hcursor hheld hd' hi' ht' hr
      rw [← hheld]
      rcases htry : tryToSwapOut s₁.mem t' i' with _ | ⟨_ | _, m⟩
      · rw [htry] at hr
        cases hr
      · rw [htry] at hr
        obtain rfl := (tryToSwapOut_trace hd' hi' ht' htry).2 rfl
        exact hcursor.trans (ih c hd' ht' hr)
      · rw [htry] at hr
        obtain ⟨rfl, rfl⟩ : true = b ∧ m = m' := by simpa [afterTry] using hr
        exact hcursor.trans (tryToSwapOut_trace hd' hi' ht' htry).1
    by_cases hwrap : 1024 ≤ s.mem.pageNext
    · rw [if_pos hwrap] at h
      obtain ⟨huser, hnext⟩ := nextTable_user s.mem.pgDir vmDirs counter _ hd
      rcases hn : nextTable s.mem.pgDir vmDirs counter s.mem.dirEntry with ⟨d', _ | ⟨c, t'⟩⟩
      · rw [hn] at h huser
        obtain ⟨-, rfl⟩ : false = b ∧ _ = m' := by simpa using h
        exact .one (e := .cursor d' 1) huser trivial rfl
      · rw [hn] at h huser hnext
        exact hround ⟨{ s.mem with dirEntry := d', pageNext := 1 }, s.held⟩
          (.one (e := .cursor d' 1) huser trivial rfl) rfl huser (by omega) (hnext c t' rfl) h
    · rw [if_neg hwrap] at h
      exact hround ⟨{ s.mem with pageNext := s.mem.pageNext + 1 }, s.held⟩
        (.one (e := .cursor s.mem.dirEntry (s.mem.pageNext + 1)) hd trivial rfl) rfl hd
        (by omega) ht h

theorem swapOut_trace {b : Bool} (hd : User s.mem.dirEntry)
    (h : swapOut s.mem = some (b, m')) : TraceOf Effect.Reclaims s ⟨m', s.held⟩ := by
  have huser := skipDirs_user s.mem.pgDir vmDirs _ hd
  rcases hk : skipDirs s.mem.pgDir vmDirs s.mem.dirEntry with ⟨k, d'⟩
  rw [hk] at huser
  simp only [swapOut, hk] at h
  have hcursor : TraceOf Effect.Reclaims s ⟨{ s.mem with dirEntry := d' }, s.held⟩ :=
    .one (e := .cursor d' s.mem.pageNext) huser trivial rfl
  rcases ht : s.mem.pgDir d' with _ | t
  · rw [ht] at h
    obtain ⟨-, rfl⟩ : false = b ∧ _ = m' := by simpa using h
    exact hcursor
  · rw [ht] at h
    exact hcursor.trans (swapOutLoop_trace (s := ⟨_, s.held⟩) _ _ huser ht h)

/-! ### Getting a frame -/

/-- What a `get_free_page` that goes through `swap_out` leaves alone: an entry
is the same or was present and is present no more. -/
structure Reclaimed (s s' : State) : Prop where
  pgDir : s'.mem.pgDir = s.mem.pgDir
  entry : ∀ d i, d < 1024 → s'.mem.entry d i = s.mem.entry d i ∨
    ((s.mem.entry d i).frame ≠ none ∧ (s'.mem.entry d i).frame = none)

namespace Reclaimed

theorem refl (s : State) : Reclaimed s s := ⟨rfl, fun _ _ _ => Or.inl rfl⟩

theorem trans {s'' : State} (h : Reclaimed s s') (h' : Reclaimed s' s'') :
    Reclaimed s s'' := by
  refine ⟨h'.pgDir.trans h.pgDir, fun d i hd => ?_⟩
  rcases h.entry d i hd with h1 | ⟨h1, h2⟩
  · rcases h'.entry d i hd with h3 | ⟨h3, h4⟩
    · exact Or.inl (h3.trans h1)
    · exact Or.inr ⟨h1 ▸ h3, h4⟩
  · rcases h'.entry d i hd with h3 | ⟨-, h4⟩
    · exact Or.inr ⟨h1, h3 ▸ h2⟩
    · exact Or.inr ⟨h1, h4⟩

/-- An entry that names no frame is the same afterwards. -/
theorem entry_of_none (h : Reclaimed s s') (hd : d < 1024)
    (he : (s.mem.entry d i).frame = none) : s'.mem.entry d i = s.mem.entry d i := by
  rcases h.entry d i hd with h1 | ⟨h1, -⟩
  · exact h1
  · exact absurd he h1

end Reclaimed

private theorem reclaimed_setEnt (h : Inv startMem endMem s) (hd : User d) {e : Pte}
    (hp : (s.mem.entry d i).frame = some p) (he : e.frame = none)
    (hdir : s'.mem.pgDir = s.mem.pgDir)
    (htable : s'.mem.table = (s.mem.setEnt d i e).table) : Reclaimed s s' := by
  have ht : (s.mem.pgDir d).isSome := by
    refine Inv.isSome_of_entry (i := i) fun hc => ?_
    rw [hc] at hp
    cases hp
  refine ⟨hdir, fun d' i' hd' => ?_⟩
  have hent : s'.mem.entry d' i' = (s.mem.setEnt d i e).entry d' i' :=
    Mem.entry_congr (by rw [hdir, Mem.setEnt_pgDir]) htable d' i'
  rw [hent, h.entry_setEnt hd ht i e hd' i']
  by_cases heq : d' = d ∧ i' = i
  · rw [if_pos heq, heq.1, heq.2, hp]
    exact Or.inr ⟨by simp, he⟩
  · rw [if_neg heq]
    exact Or.inl rfl

theorem Reclaimed.of_apply {e : Effect} (h : Inv startMem endMem s) (hp : e.Pre s)
    (he : e.Reclaims) :
    Reclaimed s (s.apply e) ∧ (s.apply e).held = s.held ∧
      (s.apply e).mem.data = s.mem.data := by
  cases e with
  | cursor => exact ⟨⟨rfl, fun _ _ _ => Or.inl rfl⟩, rfl, rfl⟩
  | discard d i p rw =>
    obtain ⟨hd, -, -, he⟩ := hp
    exact ⟨reclaimed_setEnt h hd (e := .zero) (by rw [he]; rfl) rfl (by simp [State.apply])
      (by simp [State.apply]), rfl, by simp [State.apply]⟩
  | evict d i p rw nr =>
    obtain ⟨hd, -, -, he, -⟩ := hp
    exact ⟨reclaimed_setEnt h hd (e := .swap nr) (by rw [he]; rfl) rfl (by simp [State.apply])
      (by simp [State.apply]), rfl, by simp [State.apply]⟩
  | _ => exact he.elim

theorem TraceOf.reclaimed (h : TraceOf Effect.Reclaims s s') (hi : Inv startMem endMem s) :
    Inv startMem endMem s' ∧ Reclaimed s s' ∧ s'.held = s.held ∧
      s'.mem.data = s.mem.data := by
  refine h.invariant (I := fun s' => Inv startMem endMem s' ∧ Reclaimed s s' ∧
    s'.held = s.held ∧ s'.mem.data = s.mem.data) ?_ ⟨hi, .refl s, rfl, rfl⟩
  rintro s₁ e ⟨h1, h2, h3, h4⟩ hp he
  obtain ⟨h5, h6, h7⟩ := Reclaimed.of_apply h1 hp he
  exact ⟨h1.apply hp, h2.trans h5, h6.trans h3, h7.trans h4⟩

theorem findFree_eq {memMap : ℕ → ℕ} :
    ∀ {k n : ℕ}, findFree memMap k = some n → n < k ∧ memMap n = 0
  | k + 1, n, h => by
    rw [findFree] at h
    by_cases hz : memMap k = 0
    · rw [if_pos hz] at h
      obtain rfl := Option.some.inj h
      exact ⟨by omega, hz⟩
    · rw [if_neg hz] at h
      obtain ⟨h1, h2⟩ := findFree_eq h
      exact ⟨by omega, h2⟩

/-- `get_free_page` reclaims frames and then takes one, if there is one. -/
theorem getFreePageLoop_trace (k : ℕ) (h : Inv startMem endMem s)
    (hg : getFreePageLoop k s.mem = some (p, m')) :
    ∃ s₁, TraceOf Effect.Reclaims s s₁ ∧
      (p = 0 ∧ m' = s₁.mem ∨
        p ≠ 0 ∧ (Effect.take p).Pre s₁ ∧ m' = (s₁.apply (.take p)).mem) := by
  induction k generalizing s with
  | zero =>
    obtain ⟨rfl, rfl⟩ : 0 = p ∧ s.mem = m' := by simpa [getFreePageLoop] using hg
    exact ⟨s, .refl s, Or.inl ⟨rfl, rfl⟩⟩
  | succ k ih =>
    rw [getFreePageLoop] at hg
    rcases hf : findFree s.mem.memMap pagingPages with _ | n
    · rcases hs : swapOut s.mem with _ | ⟨_ | _, m⟩
      · simp only [hf, hs] at hg
        cases hg
      · obtain ⟨rfl, rfl⟩ : 0 = p ∧ m = m' := by simpa [hf, hs] using hg
        exact ⟨⟨m, s.held⟩, swapOut_trace h.cursor hs, Or.inl ⟨rfl, rfl⟩⟩
      · simp only [hf, hs] at hg
        have ht := swapOut_trace h.cursor hs
        obtain ⟨s₁, ht₁, hcase⟩ := ih (s := ⟨m, s.held⟩) (ht.inv h) hg
        exact ⟨s₁, ht.trans ht₁, hcase⟩
    · obtain ⟨hn, hzero⟩ := findFree_eq hf
      have hmain : Main startMem endMem (n + lowMem) := by
        by_contra hc
        exact h.reserved n hn hc hzero
      have hhigh : ¬ s.mem.highMemory ≤ n + lowMem := by
        rw [h.high]
        exact not_le.mpr hmain.2
      have hmap : mapNr (n + lowMem) = n := Nat.add_sub_cancel _ _
      have hg' : some (n + lowMem, (s.mem.setMap n 1).clearPage (n + lowMem)) = some (p, m') := by
        simpa only [hf, Mem.clearPage_highMemory, Mem.setMap_highMemory, if_neg hhigh] using hg
      obtain ⟨rfl, rfl⟩ : n + lowMem = p ∧ _ = m' := by simpa using hg'
      have hpos : 0 < lowMem := by decide
      refine ⟨s, .refl s, Or.inr ⟨by omega, ⟨by omega, by omega, by omega, ?_⟩, ?_⟩⟩
      · rw [hmap, hzero]
      · rw [State.apply, hmap]

/-- What a `get_free_page` that returned frame `p` leaves. -/
structure Got (startMem endMem p : ℕ) (s s' : State) : Prop where
  trace : TraceOf Effect.Silent s s'
  inv : Inv startMem endMem s'
  reclaimed : Reclaimed s s'
  held : s'.held = update s.held p (s.held p + 1)
  zero : ∀ i, s'.mem.table p i = .zero
  cleared : s'.mem.data p = zeroPage
  data : ∀ q, q ≠ p → s'.mem.data q = s.mem.data q

theorem Got.held_ne_zero (h : Got startMem endMem p s s') : s'.held p ≠ 0 := by
  rw [h.held, Function.update_self]
  omega

/-- `get_free_page`: no frame, or a frame nothing else refers to. -/
theorem getFreePage_trace (h : Inv startMem endMem s)
    (hg : getFreePage s.mem = some (p, m')) :
    (p = 0 ∧ TraceOf Effect.Silent s ⟨m', s.held⟩ ∧ Inv startMem endMem ⟨m', s.held⟩) ∨
      (p ≠ 0 ∧ Got startMem endMem p s ⟨m', update s.held p (s.held p + 1)⟩) := by
  obtain ⟨s₁, ht, hcase⟩ := getFreePageLoop_trace maxRounds h hg
  obtain ⟨hi, hr, hheld, hdata⟩ := ht.reclaimed h
  have hs : TraceOf Effect.Silent s s₁ := ht.mono fun _ he => he.silent
  rcases hcase with ⟨rfl, rfl⟩ | ⟨hne, hp, rfl⟩
  · rw [← hheld]
    exact Or.inl ⟨rfl, hs, hi⟩
  · rw [← hheld]
    have hi' := hi.apply_take hp
    have hentry : Reclaimed s₁ (s₁.apply (.take p)) := by
      refine ⟨rfl, fun d i hd => Or.inl (hi.entry_take hp hd)⟩
    refine Or.inr ⟨hne, hs.trans (.one hp trivial rfl), hi', hr.trans hentry, ?_, ?_, ?_, ?_⟩
    · rw [hheld]
    · intro i
      simp [State.apply]
    · simp [State.apply]
    · intro q hq
      rw [← hdata]
      simp [State.apply, hq]

theorem getFreePage_pgDir (h : Inv startMem endMem s) (hg : getFreePage s.mem = some (p, m')) :
    m'.pgDir = s.mem.pgDir := by
  obtain ⟨s₁, ht, hcase⟩ := getFreePageLoop_trace maxRounds h hg
  have hdir := (ht.reclaimed h).2.1.pgDir
  rcases hcase with ⟨-, rfl⟩ | ⟨-, -, rfl⟩
  · exact hdir
  · exact hdir

/-! ### Mapping a frame -/

private theorem update_sub_add {f : ℕ → ℕ} (p : ℕ) :
    update (update f p (f p + 1)) p (update f p (f p + 1) p - 1) = f := by
  simp

/-- `put_page` and `put_dirty_page`: out of memory, or the frame is mapped after
the steps that get a page table. -/
theorem putPageWith_trace {dirty : Bool} {a r : ℕ} (h : Inv startMem endMem s)
    (hd : User (dirOf a)) (hnone : (s.mem.entry (dirOf a) (entOf a)).frame = none)
    (hheld : s.held p ≠ 0) (hr : putPageWith dirty s.mem p a = some (r, m')) :
    (r = 0 ∧ TraceOf Effect.Silent s ⟨m', s.held⟩) ∨
      (r = p ∧ ∃ s₁, TraceOf Effect.Silent s s₁ ∧ s₁.mem.data p = s.mem.data p ∧
        (Effect.map (dirOf a) (entOf a) p dirty).Pre s₁ ∧
        (⟨m', update s.held p (s.held p - 1)⟩ : State)
          = s₁.apply (.map (dirOf a) (entOf a) p dirty)) := by
  have hi : entOf a < 1024 := Nat.mod_lt _ (by decide)
  rw [putPageWith] at hr
  rcases ht : s.mem.pgDir (dirOf a) with _ | t
  · rw [ht] at hr
    rcases hg : getFreePage s.mem with _ | ⟨q, m⟩
    · rw [hg] at hr
      cases hr
    rcases getFreePage_trace h hg with ⟨rfl, htrace, -⟩ | ⟨hq, hgot⟩
    · rw [hg] at hr
      obtain ⟨rfl, rfl⟩ : 0 = r ∧ m = m' := by simpa using hr
      exact Or.inl ⟨rfl, htrace⟩
    · obtain ⟨q, rfl⟩ := Nat.exists_eq_add_one_of_ne_zero hq
      rw [hg] at hr
      obtain ⟨rfl, rfl⟩ : p = r ∧ _ = m' := by simpa using hr
      have hdir : m.pgDir (dirOf a) = none := by
        have hsame := congrFun hgot.reclaimed.pgDir (dirOf a)
        exact hsame.trans ht
      have hqp : p ≠ q + 1 := by
        rintro rfl
        have h1 := (hgot.inv.held_eq_one hgot.held_ne_zero).1
        rw [hgot.held, Function.update_self] at h1
        omega
      have hpre : (Effect.newTable (dirOf a) (q + 1)).Pre
          ⟨m, update s.held (q + 1) (s.held (q + 1) + 1)⟩ :=
        ⟨hd, hdir, hgot.held_ne_zero, hgot.zero⟩
      refine Or.inr ⟨rfl, ⟨m.setDir (dirOf a) (some (q + 1)), s.held⟩,
        hgot.trace.trans (.one hpre trivial ?_), hgot.data p hqp, ⟨hd, hi, ?_, ?_, hheld⟩, ?_⟩
      · rw [State.apply, update_sub_add]
      · simp
      · rw [Mem.entry_of_pgDir (t := q + 1) (by simp)]
        exact congrArg Pte.frame (hgot.zero _)
      · rw [State.apply, Mem.setEnt_of_pgDir (t := q + 1) (by simp)]
  · rw [ht] at hr
    obtain ⟨rfl, rfl⟩ : p = r ∧ _ = m' := by simpa using hr
    refine Or.inr ⟨rfl, s, .refl s, rfl, ⟨hd, hi, by simp [ht], hnone, hheld⟩, ?_⟩
    rw [State.apply, Mem.setEnt_of_pgDir ht]

/-- `get_empty_page`: `oom()`, or a cleared frame is mapped. -/
theorem getEmptyPage_trace {a : ℕ} {r : Ended} (h : Inv startMem endMem s)
    (hd : User (dirOf a)) (hnone : (s.mem.entry (dirOf a) (entOf a)).frame = none)
    (hr : getEmptyPage s.mem a = some (r, m')) :
    (r = .oom ∧ TraceOf Effect.Silent s ⟨m', s.held⟩) ∨
      (r = .returned ∧ ∃ s₁ p, TraceOf Effect.Silent s s₁ ∧ s₁.mem.data p = zeroPage ∧
        (Effect.map (dirOf a) (entOf a) p false).Pre s₁ ∧
        (⟨m', s.held⟩ : State) = s₁.apply (.map (dirOf a) (entOf a) p false)) := by
  rw [getEmptyPage] at hr
  rcases hg : getFreePage s.mem with _ | ⟨p, m⟩
  · rw [hg] at hr
    cases hr
  rcases getFreePage_trace h hg with ⟨rfl, htrace, -⟩ | ⟨hp, hgot⟩
  · rw [hg] at hr
    obtain ⟨rfl, rfl⟩ : .oom = r ∧ m = m' := by
      simpa [freePage_low (show 0 < lowMem by decide)] using hr
    exact Or.inl ⟨rfl, htrace⟩
  · obtain ⟨p, rfl⟩ := Nat.exists_eq_add_one_of_ne_zero hp
    rw [hg] at hr
    have hlow : lowMem ≤ p + 1 :=
      hgot.inv.lowMem_le (hgot.inv.heldOne _ hgot.held_ne_zero).1
    rcases hput : putPage m (p + 1) a with _ | ⟨r', m₁⟩
    · simp only [hput] at hr
      cases hr
    have hnone' : (m.entry (dirOf a) (entOf a)).frame = none := by
      rw [hgot.reclaimed.entry_of_none hd.2 hnone]
      exact hnone
    rcases putPageWith_trace hgot.inv hd hnone' hgot.held_ne_zero hput with
      ⟨rfl, htrace⟩ | ⟨rfl, s₁, htrace, hdata, hpre, heq⟩
    · simp only [hput, Option.map_eq_some_iff] at hr
      obtain ⟨m₂, hfree, hr⟩ := hr
      obtain ⟨rfl, rfl⟩ : .oom = r ∧ m₂ = m' := by simpa using hr
      obtain ⟨-, -, rfl⟩ := freePage_eq hlow hfree
      refine Or.inl ⟨rfl, (hgot.trace.trans htrace).trans (.one (e := .drop (p + 1)) ?_ trivial ?_)⟩
      · exact hgot.held_ne_zero
      · rw [State.apply, update_sub_add]
    · simp only [hput] at hr
      obtain ⟨rfl, rfl⟩ : .returned = r ∧ m₁ = m' := by simpa using hr
      refine Or.inr ⟨rfl, s₁, p + 1, hgot.trace.trans htrace, hdata.trans hgot.cleared, hpre, ?_⟩
      rw [← heq, update_sub_add]

/-! ### Copy on write, sharing and swapping in -/

/-- The `get_free_page` that is called next does not swap out entry `i` of the
table in page `t`. -/
def KeepsEntry (m : Mem) (t i : ℕ) : Prop :=
  ∀ p m', getFreePage m = some (p, m') → p ≠ 0 → m'.table t i = m.table t i

/-- `un_wp_page` copies frame `old` instead of making its entry writable. -/
def UnWpCopies (m : Mem) (old : ℕ) : Prop := ¬ (lowMem ≤ old ∧ m.memMap (mapNr old) = 1)

/-- `un_wp_page`: `oom()`, or the entry is made writable, or the frame is
copied. -/
theorem unWpPage_trace {r : Ended} {old : ℕ} {rw dirty : Bool} (h : Inv startMem endMem s)
    (hd : User d) (hi : i < 1024) (ht : s.mem.pgDir d = some t)
    (he : s.mem.entry d i = .page old rw dirty)
    (hkeep : UnWpCopies s.mem old → KeepsEntry s.mem t i)
    (hr : unWpPage s.mem t i = some (r, m')) :
    (r = .oom ∧ TraceOf Effect.Silent s ⟨m', s.held⟩) ∨
      (r = .returned ∧ (Effect.setRw d i old rw dirty).Pre s ∧
        (⟨m', s.held⟩ : State) = s.apply (.setRw d i old rw dirty)) ∨
      (r = .returned ∧ UnWpCopies s.mem old ∧ ∃ s₁ new, TraceOf Effect.Silent s s₁ ∧
        (Effect.cow d i old new rw dirty).Pre s₁ ∧
        (⟨m', s.held⟩ : State) = s₁.apply (.cow d i old new rw dirty)) := by
  have he' : s.mem.table t i = .page old rw dirty := by rw [← Mem.entry_of_pgDir ht, he]
  rw [unWpPage, he'] at hr
  by_cases hone : lowMem ≤ old ∧ s.mem.memMap (mapNr old) = 1
  · simp only [if_pos hone] at hr
    obtain ⟨rfl, rfl⟩ : .returned = r ∧ _ = m' := by simpa using hr
    refine Or.inr (Or.inl ⟨rfl, ⟨hd, hi, he, hone⟩, ?_⟩)
    rw [State.apply, Mem.setEnt_of_pgDir ht]
  · simp only [if_neg hone] at hr
    rcases hg : getFreePage s.mem with _ | ⟨q, m⟩
    · simp [hg] at hr
    rcases getFreePage_trace h hg with ⟨rfl, htrace, -⟩ | ⟨hq, hgot⟩
    · rw [hg] at hr
      obtain ⟨rfl, rfl⟩ : .oom = r ∧ m = m' := by simpa using hr
      exact Or.inl ⟨rfl, htrace⟩
    · have hkept : m.table t i = .page old rw dirty := by rw [hkeep hone q m hg hq, he']
      obtain ⟨q, rfl⟩ := Nat.exists_eq_add_one_of_ne_zero hq
      rw [hg] at hr
      obtain ⟨rfl, rfl⟩ : .returned = r ∧ _ = m' := by simpa using hr
      have hdir : m.pgDir d = some t := (congrFun hgot.reclaimed.pgDir d).trans ht
      refine Or.inr (Or.inr ⟨rfl, hone, _, q + 1, hgot.trace,
        ⟨hd, hi, (Mem.entry_of_pgDir hdir i).trans hkept, hgot.held_ne_zero⟩, ?_⟩)
      rw [State.apply, update_sub_add]
      refine congrArg (fun m => State.mk m s.held) ?_
      split
      · refine (Mem.setEnt_of_pgDir ?_ i _).symm
        exact hdir
      · refine (Mem.setEnt_of_pgDir ?_ i _).symm
        exact hdir

/-- How `try_to_share` ends once the running process has a page table. -/
private theorem shareEntry_copy {fromDir toDir fromTable toTable : ℕ} {r : Shared} (rw : Bool)
    (h : Inv startMem endMem s) (hfd : User fromDir) (htd : User toDir) (hne : fromDir ≠ toDir)
    (hal : fromDir % 16 = toDir % 16) (hi : i < 1024) (hf : s.mem.pgDir fromDir = some fromTable)
    (ht : s.mem.pgDir toDir = some toTable) (hlow : lowMem ≤ p)
    (he : s.mem.table fromTable i = .page p rw false)
    (hr : shareEntry s.mem fromTable toTable i p = some (r, m')) :
    r = .yes ∧ (Effect.copy fromDir toDir i p rw false).Pre s ∧
      (⟨m', s.held⟩ : State) = s.apply (.copy fromDir toDir i p rw false) := by
  have hnt : fromTable ≠ toTable := by
    rintro rfl
    exact hne (h.table_inj hfd htd hf ht)
  have hent : s.mem.entry toDir i = s.mem.table toTable i := Mem.entry_of_pgDir ht i
  rw [shareEntry] at hr
  split at hr
  · cases hr
  · rename_i hpage
    simp only [he] at hr
    obtain ⟨rfl, rfl⟩ : .yes = r ∧ _ = m' := by simpa using hr
    have hnone : (s.mem.entry toDir i).frame = none := by
      rw [hent]
      rcases hto : s.mem.table toTable i with _ | _ | ⟨p', rw', dirty'⟩
      · rfl
      · rfl
      · exact absurd hto (hpage p' rw' dirty')
    refine ⟨rfl, ⟨Or.inl ⟨hfd, hi⟩, htd, hne, hal, (Mem.entry_of_pgDir hf i).trans he,
      by simp [ht], hnone⟩, ?_⟩
    have hf' : ((s.mem.setEnt toDir i (.page p false false)).setEnt fromDir i
        (.page p false false)) = (s.mem.setEntry toTable i (.page p false false)).setEntry
          fromTable i (.page p false false) := by
      rw [Mem.setEnt_of_pgDir ht]
      exact Mem.setEnt_of_pgDir (m := s.mem.setEntry toTable i _) hf i _
    simp only [State.apply, if_pos hlow, hf']
    simp only [Mem.setEntry, Mem.setMap, Function.update_of_ne hnt,
      Function.update_of_ne hnt.symm, Function.update_comm hnt]

/-- `try_to_share`: nothing, `oom()`, or the clean frame is mapped in the running
process as well. -/
theorem tryToShare_trace {fromDir toDir : ℕ} {r : Shared} (h : Inv startMem endMem s)
    (hfd : User fromDir) (htd : User toDir) (hne : fromDir ≠ toDir)
    (hal : fromDir % 16 = toDir % 16) (hi : i < 1024)
    (hkeep : s.mem.pgDir toDir = none → ∀ t, s.mem.pgDir fromDir = some t →
      KeepsEntry s.mem t i)
    (hr : tryToShare s.mem fromDir toDir i = some (r, m')) :
    (r = .no ∧ m' = s.mem) ∨ (r = .oom ∧ TraceOf Effect.Silent s ⟨m', s.held⟩) ∨
      (r = .yes ∧ ∃ s₁ p rw, TraceOf Effect.Silent s s₁ ∧ lowMem ≤ p ∧
        s.mem.entry fromDir i = .page p rw false ∧
        (Effect.copy fromDir toDir i p rw false).Pre s₁ ∧
        (⟨m', s.held⟩ : State) = s₁.apply (.copy fromDir toDir i p rw false)) := by
  have hno : ∀ {x}, some (Shared.no, s.mem) = some (r, x) → r = .no ∧ x = s.mem := by
    intro x hx
    obtain ⟨rfl, rfl⟩ : Shared.no = r ∧ s.mem = x := by simpa using hx
    exact ⟨rfl, rfl⟩
  rw [tryToShare] at hr
  rcases hf : s.mem.pgDir fromDir with _ | fromTable
  · rw [hf] at hr
    exact Or.inl (hno hr)
  · simp only [hf] at hr
    split at hr
    case h_2 => exact Or.inl (hno hr)
    case h_1 p rw he =>
      split at hr
      · exact Or.inl (hno hr)
      · rename_i hrange
        have hlow : lowMem ≤ p := by omega
        have hent : s.mem.entry fromDir i = .page p rw false :=
          (Mem.entry_of_pgDir hf i).trans he
        rcases ht : s.mem.pgDir toDir with _ | toTable
        · rcases hg : getFreePage s.mem with _ | ⟨q, m⟩
          · simp [ht, hg] at hr
          rcases getFreePage_trace h hg with ⟨rfl, htrace, -⟩ | ⟨hq, hgot⟩
          · obtain ⟨rfl, rfl⟩ : Shared.oom = r ∧ m = m' := by simpa [ht, hg] using hr
            exact Or.inr (Or.inl ⟨rfl, htrace⟩)
          · have hkept := hkeep ht fromTable hf q m hg hq
            obtain ⟨q, rfl⟩ := Nat.exists_eq_add_one_of_ne_zero hq
            simp only [ht, hg] at hr
            have hdir := hgot.reclaimed.pgDir
            have hpre : (Effect.newTable toDir (q + 1)).Pre
                ⟨m, update s.held (q + 1) (s.held (q + 1) + 1)⟩ :=
              ⟨htd, (congrFun hdir toDir).trans ht, hgot.held_ne_zero, hgot.zero⟩
            have htrace : TraceOf Effect.Silent s ⟨m.setDir toDir (some (q + 1)), s.held⟩ := by
              refine hgot.trace.trans (.one hpre trivial ?_)
              rw [State.apply, update_sub_add]
            obtain ⟨rfl, hpre', heq⟩ := shareEntry_copy (s := ⟨_, s.held⟩) rw
              (htrace.inv h) hfd htd hne hal hi
              (by simpa [hne] using (congrFun hdir fromDir).trans hf) (by simp) hlow
              (hkept.trans he) hr
            exact Or.inr (Or.inr ⟨rfl, _, p, rw, htrace, hlow, hent, hpre', heq⟩)
        · simp only [ht] at hr
          obtain ⟨rfl, hpre, heq⟩ := shareEntry_copy rw h hfd htd hne hal hi hf ht hlow he hr
          exact Or.inr (Or.inr ⟨rfl, s, p, rw, .refl s, hlow, hent, hpre, heq⟩)

/-- `swap_in`: nothing, `oom()`, or the page is read into a new frame. -/
theorem swapIn_trace {r : Ended} (h : Inv startMem endMem s) (hd : User d) (hi : i < 1024)
    (ht : s.mem.pgDir d = some t) (hr : swapIn s.mem t i = some (r, m')) :
    (r = .returned ∧ m' = s.mem) ∨ (r = .oom ∧ TraceOf Effect.Silent s ⟨m', s.held⟩) ∨
      (r = .returned ∧ ∃ s₁ nr q, TraceOf Effect.Silent s s₁ ∧
        (Effect.swapIn d i nr q).Pre s₁ ∧
        (⟨m', s.held⟩ : State) = s₁.apply (.swapIn d i nr q)) := by
  have hsame : ∀ {x}, some (Ended.returned, s.mem) = some (r, x) → r = .returned ∧ x = s.mem := by
    intro x hx
    obtain ⟨rfl, rfl⟩ : Ended.returned = r ∧ s.mem = x := by simpa using hx
    exact ⟨rfl, rfl⟩
  rw [swapIn] at hr
  split at hr
  · exact Or.inl (hsame hr)
  split at hr
  · exact Or.inl (hsame hr)
  · exact Or.inl (hsame hr)
  · exact Or.inl (hsame hr)
  · rename_i nr _ he
    rcases hg : getFreePage s.mem with _ | ⟨q, m⟩
    · simp [hg] at hr
    rcases getFreePage_trace h hg with ⟨rfl, htrace, -⟩ | ⟨hq, hgot⟩
    · rw [hg] at hr
      obtain ⟨rfl, rfl⟩ : .oom = r ∧ m = m' := by simpa using hr
      exact Or.inr (Or.inl ⟨rfl, htrace⟩)
    · obtain ⟨q, rfl⟩ := Nat.exists_eq_add_one_of_ne_zero hq
      rw [hg] at hr
      obtain ⟨rfl, rfl⟩ : .returned = r ∧ _ = m' := by simpa using hr
      have hdir : m.pgDir d = some t := (congrFun hgot.reclaimed.pgDir d).trans ht
      have hent : s.mem.entry d i = .swap nr := (Mem.entry_of_pgDir ht i).trans he
      have hent' : m.entry d i = .swap nr :=
        (hgot.reclaimed.entry_of_none hd.2 (by rw [hent]; rfl)).trans hent
      refine Or.inr (Or.inr ⟨rfl, _, nr, q + 1, hgot.trace,
        ⟨hd, hi, hent', hgot.held_ne_zero⟩, ?_⟩)
      rw [State.apply, update_sub_add]
      refine congrArg (fun m => State.mk m s.held) ?_
      refine (Mem.setEnt_of_pgDir ?_ i _).symm
      exact hdir

/-! ### Copying page tables -/

/-- The step copies entry `i` of directory entry `d₁` to `d₂`. -/
def Effect.Copies (d₁ d₂ i : ℕ) : Effect → Prop
  | .copy a b c _ _ _ | .copySwap a b c _ _ | .copyZero a b c => a = d₁ ∧ b = d₂ ∧ c = i
  | _ => False

/-- A step that copies one of the entries in `R`, or a silent one. -/
def CopyStep (R : ℕ → ℕ → ℕ → Prop) (e : Effect) : Prop :=
  e.Silent ∨ ∃ d₁ d₂ i, R d₁ d₂ i ∧ e.Copies d₁ d₂ i

/-- The entries in `R` are copied, and nothing else is. -/
def Copied (R : ℕ → ℕ → ℕ → Prop) (s s' : State) : Prop :=
  ∃ es, Trace s es s' ∧ (∀ e ∈ es, CopyStep R e) ∧
    ∀ d₁ d₂ i, R d₁ d₂ i → ∃ e ∈ es, e.Copies d₁ d₂ i

theorem CopyStep.mono {R R' : ℕ → ℕ → ℕ → Prop} (hR : ∀ d₁ d₂ i, R d₁ d₂ i → R' d₁ d₂ i)
    {e : Effect} (h : CopyStep R e) : CopyStep R' e := by
  rcases h with h | ⟨d₁, d₂, i, hr, hc⟩
  · exact Or.inl h
  · exact Or.inr ⟨d₁, d₂, i, hR _ _ _ hr, hc⟩

namespace Copied

variable {R R₁ R₂ : ℕ → ℕ → ℕ → Prop}

theorem traceOf (h : Copied R s s') : TraceOf (CopyStep R) s s' := by
  obtain ⟨es, ht, hes, -⟩ := h
  exact ⟨es, ht, hes⟩

theorem refl (hR : ∀ d₁ d₂ i, ¬ R d₁ d₂ i) (s : State) : Copied R s s :=
  ⟨[], .nil s, by simp, fun d₁ d₂ i h => absurd h (hR d₁ d₂ i)⟩

theorem of_silent (h : TraceOf Effect.Silent s s') (hR : ∀ d₁ d₂ i, ¬ R d₁ d₂ i) :
    Copied R s s' := by
  obtain ⟨es, ht, hes⟩ := h
  exact ⟨es, ht, fun e he => Or.inl (hes e he), fun d₁ d₂ i h => absurd h (hR d₁ d₂ i)⟩

theorem one {e : Effect} {d₁ d₂ : ℕ} (hp : e.Pre s) (he : e.Copies d₁ d₂ i)
    (hs : s' = s.apply e) : Copied (fun a b j => a = d₁ ∧ b = d₂ ∧ j = i) s s' := by
  refine ⟨[e], hs ▸ .one hp, ?_, ?_⟩
  · intro e' he'
    rw [List.mem_singleton] at he'
    rw [he']
    exact Or.inr ⟨d₁, d₂, i, ⟨rfl, rfl, rfl⟩, he⟩
  · rintro _ _ _ ⟨rfl, rfl, rfl⟩
    exact ⟨e, List.mem_singleton_self e, he⟩

theorem trans {s'' : State} (h₁ : Copied R₁ s s') (h₂ : Copied R₂ s' s'')
    (hR : ∀ d₁ d₂ i, R d₁ d₂ i ↔ R₁ d₁ d₂ i ∨ R₂ d₁ d₂ i) : Copied R s s'' := by
  obtain ⟨es₁, ht₁, hes₁, hc₁⟩ := h₁
  obtain ⟨es₂, ht₂, hes₂, hc₂⟩ := h₂
  refine ⟨es₁ ++ es₂, ht₁.append ht₂, fun e he => ?_, fun d₁ d₂ i hr => ?_⟩
  · rcases List.mem_append.mp he with he | he
    · exact (hes₁ e he).mono fun a b c h => (hR a b c).mpr (Or.inl h)
    · exact (hes₂ e he).mono fun a b c h => (hR a b c).mpr (Or.inr h)
  · rcases (hR d₁ d₂ i).mp hr with hr | hr
    · obtain ⟨e, he, hc⟩ := hc₁ d₁ d₂ i hr
      exact ⟨e, List.mem_append_left _ he, hc⟩
    · obtain ⟨e, he, hc⟩ := hc₂ d₁ d₂ i hr
      exact ⟨e, List.mem_append_right _ he, hc⟩

end Copied

/-- How a copy ends: the entries in `R` are copied, or there was no frame. -/
def CopyEnd (R : ℕ → ℕ → ℕ → Prop) (s : State) (b : Bool) (m' : Mem) : Prop :=
  (b = true ∧ Copied R s ⟨m', s.held⟩) ∨
    (b = false ∧ TraceOf (CopyStep R) s ⟨m', s.held⟩)

theorem CopyEnd.of_copied {R R₁ R₂ : ℕ → ℕ → ℕ → Prop} {s₁ : State} {b : Bool}
    (h : Copied R₁ s s₁) (hheld : s₁.held = s.held) (h' : CopyEnd R₂ s₁ b m')
    (hR : ∀ d₁ d₂ i, R d₁ d₂ i ↔ R₁ d₁ d₂ i ∨ R₂ d₁ d₂ i) : CopyEnd R s b m' := by
  rw [CopyEnd, hheld] at h'
  rcases h' with ⟨rfl, h'⟩ | ⟨rfl, h'⟩
  · exact Or.inl ⟨rfl, h.trans h' hR⟩
  · refine Or.inr ⟨rfl, (h.traceOf.mono ?_).trans (h'.mono ?_)⟩
    · exact fun e he => he.mono fun a b c hr => (hR a b c).mpr (Or.inl hr)
    · exact fun e he => he.mono fun a b c hr => (hR a b c).mpr (Or.inr hr)

section copy

variable {fromDir toDir ft tt : ℕ}

private theorem tables_ne (h : Inv startMem endMem s) (hfrom : User fromDir ∨ fromDir = 0)
    (hto : User toDir) (hne : fromDir ≠ toDir) (hf : s.mem.pgDir fromDir = some ft)
    (ht : s.mem.pgDir toDir = some tt) : ft ≠ tt := by
  rintro rfl
  rcases hfrom with hfrom | rfl
  · exact hne (h.table_inj hfrom hto hf ht)
  · have := h.kernel _ _ (by decide) hf
    have := h.lowMem_le_table hto ht
    omega

/-- One turn of the inner loop of `copy_page_tables`, to a table that is unused from entry `i`
on: there is no frame, or the entry is copied. -/
theorem copyEntries_succ {nr : ℕ} {b : Bool} (h : Inv startMem endMem s)
    (hfrom : User fromDir ∧ i < 1024 ∨ fromDir = 0 ∧ i < 160) (hto : User toDir)
    (hne : fromDir ≠ toDir) (hal : fromDir % 16 = toDir % 16)
    (hf : s.mem.pgDir fromDir = some ft) (ht : s.mem.pgDir toDir = some tt)
    (hzero : ∀ j, i ≤ j → s.mem.table tt j = .zero)
    (hr : copyEntries ft tt (nr + 1) i s.mem = some (b, m')) :
    (b = false ∧ TraceOf Effect.Silent s ⟨m', s.held⟩ ∧ m'.pgDir = s.mem.pgDir) ∨
      ∃ s₁ e, TraceOf Effect.Silent s s₁ ∧ e.Pre s₁ ∧ e.Copies fromDir toDir i ∧
        s₁.mem.entry toDir i = .zero ∧ (s₁.apply e).held = s.held ∧
        (s₁.apply e).mem.pgDir = s.mem.pgDir ∧
        (∀ j, i + 1 ≤ j → (s₁.apply e).mem.table tt j = .zero) ∧
        copyEntries ft tt nr (i + 1) (s₁.apply e).mem = some (b, m') := by
  have hi : i < 1024 := by omega
  have hent : s.mem.entry fromDir i = s.mem.table ft i := Mem.entry_of_pgDir hf i
  have hent' : s.mem.entry toDir i = .zero :=
    (Mem.entry_of_pgDir ht i).trans (hzero i le_rfl)
  have hnt := tables_ne h (hfrom.imp And.left And.left) hto hne hf ht
  rw [copyEntries] at hr
  rcases he : s.mem.table ft i with _ | n | ⟨p, rw, dirty⟩
  · -- an unused entry
    rw [he] at hr
    exact Or.inr ⟨s, .copyZero fromDir toDir i, .refl s, ⟨hto, hi, hent.trans he, hent', hal⟩,
      ⟨rfl, rfl, rfl⟩, hent', rfl, rfl, fun j hj => hzero j (by omega), hr⟩
  · -- a page on the swap device, which is read for the parent
    rw [he] at hr
    rcases hg : getFreePage s.mem with _ | ⟨q, m⟩
    · simp [hg] at hr
    rcases getFreePage_trace h hg with ⟨rfl, htrace, -⟩ | ⟨hq, hgot⟩
    · obtain ⟨rfl, rfl⟩ : false = b ∧ m = m' := by simpa [hg] using hr
      exact Or.inl ⟨rfl, htrace, getFreePage_pgDir h hg⟩
    · obtain ⟨q, rfl⟩ := Nat.exists_eq_add_one_of_ne_zero hq
      simp only [hg] at hr
      have hdir := hgot.reclaimed.pgDir
      have hf' : m.pgDir fromDir = some ft := (congrFun hdir fromDir).trans hf
      have ht' : m.pgDir toDir = some tt := (congrFun hdir toDir).trans ht
      have hzero' : ∀ j, i ≤ j → m.table tt j = .zero := by
        intro j hj
        have hz : s.mem.entry toDir j = .zero := (Mem.entry_of_pgDir ht j).trans (hzero j hj)
        have hz' := hgot.reclaimed.entry_of_none hto.2 (by rw [hz]; rfl)
        rw [← Mem.entry_of_pgDir ht' j]
        exact hz'.trans hz
      have hfu' : User fromDir := by
        rcases hfrom with ⟨hfrom, -⟩ | ⟨rfl, hle⟩
        · exact hfrom
        · exact absurd (hent.trans he) ((h.kernelLow i hle).2 n)
      have hkept : m.entry fromDir i = .swap n :=
        (hgot.reclaimed.entry_of_none hfu'.2 (by rw [hent, he]; rfl)).trans (hent.trans he)
      have hz' : m.entry toDir i = .zero := (Mem.entry_of_pgDir ht' i).trans (hzero' i le_rfl)
      have hpre : (Effect.copySwap fromDir toDir i n (q + 1)).Pre
          ⟨m, update s.held (q + 1) (s.held (q + 1) + 1)⟩ :=
        ⟨hfu', hto, hne, hal, hi, hkept, by simp [ht'], hz', hgot.held_ne_zero⟩
      set m₁ := ((m.setData (q + 1) (m.swapDev n)).setEntry tt i (.swap n)).setEntry ft i
        (.page (q + 1) true true) with hm₁
      have heq : (⟨m₁, s.held⟩ : State) = State.apply
          ⟨m, update s.held (q + 1) (s.held (q + 1) + 1)⟩
          (.copySwap fromDir toDir i n (q + 1)) := by
        rw [State.apply, update_sub_add]
        refine congrArg (fun m => State.mk m s.held) ?_
        have h1 := Mem.setEnt_of_pgDir (m := m.setData (q + 1) (m.swapDev n)) ht' i (.swap n)
        have h2 := Mem.setEnt_of_pgDir
          (m := (m.setData (q + 1) (m.swapDev n)).setEntry tt i (.swap n)) hf' i
          (.page (q + 1) true true)
        rw [hm₁, h1, h2]
      refine Or.inr ⟨_, _, hgot.trace, hpre, ⟨rfl, rfl, rfl⟩, hz', ?_⟩
      rw [← heq]
      refine ⟨rfl, hdir, fun j hj => ?_, hr⟩
      rw [hm₁]
      simp only [Mem.setEntry_table, Mem.setData_table, Function.update_of_ne hnt.symm,
        Function.update_self]
      rw [Function.update_of_ne (by omega)]
      exact hzero' j (by omega)
  · -- a present page, shared read-only
    rw [he] at hr
    have hpre : (Effect.copy fromDir toDir i p rw dirty).Pre s :=
      ⟨hfrom, hto, hne, hal, hent.trans he, by simp [ht], by rw [hent']; rfl⟩
    have hf₁ : (s.mem.setEntry tt i (.page p false dirty)).pgDir fromDir = some ft := hf
    refine Or.inr ⟨s, _, .refl s, hpre, ⟨rfl, rfl, rfl⟩, hent', ?_⟩
    by_cases hlow : lowMem ≤ p
    · simp only [if_pos hlow] at hr
      simp only [State.apply, if_pos hlow, Mem.setEnt_of_pgDir ht, Mem.setEnt_of_pgDir hf₁]
      refine ⟨trivial, rfl, fun j hj => ?_, hr⟩
      have hji : j ≠ i := by omega
      simp [Function.update_of_ne hnt.symm, hji, hzero j (by omega)]
    · simp only [if_neg hlow] at hr
      simp only [State.apply, if_neg hlow, Mem.setEnt_of_pgDir ht]
      refine ⟨trivial, rfl, fun j hj => ?_, hr⟩
      have hji : j ≠ i := by omega
      simp [hji, hzero j (by omega)]

/-- The inner loop of `copy_page_tables`, to a table that is unused from entry
`i` on. -/
theorem copyEntries_trace (nr : ℕ) {b : Bool} (h : Inv startMem endMem s)
    (hfrom : User fromDir ∧ i + nr ≤ 1024 ∨ fromDir = 0 ∧ i + nr ≤ 160) (hto : User toDir)
    (hne : fromDir ≠ toDir) (hal : fromDir % 16 = toDir % 16)
    (hf : s.mem.pgDir fromDir = some ft) (ht : s.mem.pgDir toDir = some tt)
    (hzero : ∀ j, i ≤ j → s.mem.table tt j = .zero)
    (hr : copyEntries ft tt nr i s.mem = some (b, m')) :
    CopyEnd (fun d₁ d₂ j => d₁ = fromDir ∧ d₂ = toDir ∧ i ≤ j ∧ j < i + nr) s b m' := by
  induction nr generalizing i s with
  | zero =>
    obtain ⟨rfl, rfl⟩ : true = b ∧ s.mem = m' := by simpa [copyEntries] using hr
    exact Or.inl ⟨rfl, .refl (by omega) s⟩
  | succ nr ih =>
    have hR : ∀ d₁ d₂ j, (d₁ = fromDir ∧ d₂ = toDir ∧ i ≤ j ∧ j < i + (nr + 1)) ↔
        (d₁ = fromDir ∧ d₂ = toDir ∧ j = i) ∨
          (d₁ = fromDir ∧ d₂ = toDir ∧ i + 1 ≤ j ∧ j < i + 1 + nr) := by
      intro d₁ d₂ j
      omega
    rcases copyEntries_succ h
        (hfrom.imp (And.imp_right (by omega)) (And.imp_right (by omega))) hto hne hal hf ht hzero
        hr with
      ⟨rfl, htrace, -⟩ | ⟨s₁, e, htrace, hpre, hcopies, -, hheld, hdir, hzero', hr'⟩
    · exact Or.inr ⟨rfl, htrace.mono fun e he => Or.inl he⟩
    · have hcopied := (Copied.of_silent (R := fun _ _ _ => False) htrace fun _ _ _ h => h).trans
        (.one hpre hcopies rfl) (R := fun a b j => a = fromDir ∧ b = toDir ∧ j = i) (by simp)
      exact .of_copied hcopied hheld (ih (hcopied.traceOf.inv h)
        (hfrom.imp (And.imp_right (by omega)) (And.imp_right (by omega)))
        (by rw [hdir, hf]) (by rw [hdir, ht]) hzero' hr') hR

/-- Where there is no page table, there is nothing to copy. -/
private theorem copyZeros (nr : ℕ) (hnr : nr ≤ 1024) (hto : User toDir)
    (hal : fromDir % 16 = toDir % 16) (hf : s.mem.pgDir fromDir = none)
    (ht : s.mem.pgDir toDir = none) :
    Copied (fun d₁ d₂ j => d₁ = fromDir ∧ d₂ = toDir ∧ j < nr) s s := by
  induction nr with
  | zero => exact .refl (by omega) s
  | succ nr ih =>
    refine (ih (by omega)).trans
      (.one (e := .copyZero fromDir toDir nr) ?_ ⟨rfl, rfl, rfl⟩ rfl) ?_
    · exact ⟨hto, by omega, Mem.entry_of_pgDir_none hf nr, Mem.entry_of_pgDir_none ht nr, hal⟩
    · intro d₁ d₂ j
      omega

/-- The directory entries behind the first of a range. -/
theorem range_succ {size dir : ℕ} (h : ∀ k, k < size + 1 → User (dir + k)) :
    ∀ k, k < size → User (dir + 1 + k) := by
  intro k hk
  rw [Nat.add_assoc, Nat.add_comm 1 k]
  exact h (k + 1) (by omega)

/-- The entries of the first table of a range that is copied. -/
theorem copyRange_zero {size nr : ℕ} (h : (∀ k, k < size + 1 → User (fromDir + k)) ∧
    nr = 1024 ∨ fromDir = 0 ∧ size + 1 ≤ 1 ∧ nr = 160) :
    User fromDir ∧ 0 + nr ≤ 1024 ∨ fromDir = 0 ∧ 0 + nr ≤ 160 := by
  rcases h with ⟨hu, rfl⟩ | ⟨h0, -, rfl⟩
  · exact Or.inl ⟨hu 0 (by omega), by omega⟩
  · exact Or.inr ⟨h0, by omega⟩

/-- The tables behind the first: task 0 has no other. -/
theorem copyRange_succ {size nr : ℕ} (h : (∀ k, k < size + 1 → User (fromDir + k)) ∧
    nr = 1024 ∨ fromDir = 0 ∧ size + 1 ≤ 1 ∧ nr = 160) :
    ((∀ k, k < size → User (fromDir + 1 + k)) ∧ nr = 1024) ∨ size = 0 := by
  rcases h with ⟨hu, hn⟩ | ⟨h0, hs, -⟩
  · exact Or.inl ⟨range_succ hu, hn⟩
  · exact Or.inr (by omega)

/-- One turn of the outer loop of `copy_page_tables`: there is nothing to copy, or no frame for
the table, or the table is copied. -/
theorem copyTables_succ {nr size : ℕ} {b : Bool} (h : Inv startMem endMem s) (hto : User toDir)
    (hne : fromDir ≠ toDir)
    (hr : copyTables nr (size + 1) fromDir toDir s.mem = some (b, m')) :
    s.mem.pgDir toDir = none ∧
      ((s.mem.pgDir fromDir = none ∧
          copyTables nr size (fromDir + 1) (toDir + 1) s.mem = some (b, m')) ∨
        (b = false ∧ TraceOf Effect.Silent s ⟨m', s.held⟩ ∧ m'.pgDir = s.mem.pgDir) ∨
        ∃ ft tt m b' m₁, TraceOf Effect.Silent s ⟨m, s.held⟩ ∧ m.pgDir fromDir = some ft ∧
          m.pgDir = update s.mem.pgDir toDir (some tt) ∧ (∀ j, m.table tt j = .zero) ∧
          copyEntries ft tt nr 0 m = some (b', m₁) ∧ (b' = false ∧ b = false ∧ m₁ = m' ∨
            b' = true ∧ copyTables nr size (fromDir + 1) (toDir + 1) m₁ = some (b, m'))) := by
  rw [copyTables] at hr
  rcases ht : s.mem.pgDir toDir with _ | t
  · rw [ht] at hr
    refine ⟨rfl, ?_⟩
    rcases hf : s.mem.pgDir fromDir with _ | ft
    · simp only [hf] at hr
      exact Or.inl ⟨rfl, hr⟩
    · simp only [hf] at hr
      rcases hg : getFreePage s.mem with _ | ⟨q, m⟩
      · simp [hg] at hr
      rcases getFreePage_trace h hg with ⟨rfl, htrace, -⟩ | ⟨hq, hgot⟩
      · obtain ⟨rfl, rfl⟩ : false = b ∧ m = m' := by simpa [hg] using hr
        exact Or.inr (Or.inl ⟨rfl, htrace, getFreePage_pgDir h hg⟩)
      · obtain ⟨q, rfl⟩ := Nat.exists_eq_add_one_of_ne_zero hq
        simp only [hg] at hr
        have hdir := hgot.reclaimed.pgDir
        have hpre : (Effect.newTable toDir (q + 1)).Pre
            ⟨m, update s.held (q + 1) (s.held (q + 1) + 1)⟩ :=
          ⟨hto, (congrFun hdir toDir).trans ht, hgot.held_ne_zero, hgot.zero⟩
        have htrace : TraceOf Effect.Silent s ⟨m.setDir toDir (some (q + 1)), s.held⟩ := by
          refine hgot.trace.trans (.one hpre trivial ?_)
          rw [State.apply, update_sub_add]
        have hf₁ : (m.setDir toDir (some (q + 1))).pgDir fromDir = some ft := by
          simpa [hne] using (congrFun hdir fromDir).trans hf
        rcases hc : copyEntries ft (q + 1) nr 0 (m.setDir toDir (some (q + 1))) with
          _ | ⟨b', m₁⟩
        · simp [hc] at hr
        refine Or.inr (Or.inr ⟨ft, q + 1, _, b', m₁, htrace, hf₁, ?_, fun j => hgot.zero j, hc,
          ?_⟩)
        · rw [Mem.setDir_pgDir, ← hdir]
        cases b' with
        | false =>
          obtain ⟨rfl, rfl⟩ : false = b ∧ m₁ = m' := by simpa [hc] using hr
          exact Or.inl ⟨rfl, rfl, rfl⟩
        | true =>
          simp only [hc] at hr
          exact Or.inr ⟨rfl, hr⟩
  · simp [ht] at hr

/-- The outer loop of `copy_page_tables`. -/
theorem copyTables_trace {nr : ℕ} (size : ℕ) {b : Bool} (h : Inv startMem endMem s)
    (hfrom : (∀ k, k < size → User (fromDir + k)) ∧ nr = 1024 ∨
      fromDir = 0 ∧ size ≤ 1 ∧ nr = 160)
    (hto : ∀ k, k < size → User (toDir + k)) (hne : fromDir ≠ toDir)
    (hal : fromDir % 16 = toDir % 16)
    (hr : copyTables nr size fromDir toDir s.mem = some (b, m')) :
    CopyEnd (fun d₁ d₂ i => ∃ k, k < size ∧ d₁ = fromDir + k ∧ d₂ = toDir + k ∧ i < nr)
      s b m' := by
  induction size generalizing fromDir toDir s with
  | zero =>
    obtain ⟨rfl, rfl⟩ : true = b ∧ s.mem = m' := by simpa [copyTables] using hr
    exact Or.inl ⟨rfl, .refl (by simp) s⟩
  | succ size ih =>
    have hR : ∀ d₁ d₂ i,
        (∃ k, k < size + 1 ∧ d₁ = fromDir + k ∧ d₂ = toDir + k ∧ i < nr) ↔
          (d₁ = fromDir ∧ d₂ = toDir ∧ i < nr) ∨
            ∃ k, k < size ∧ d₁ = fromDir + 1 + k ∧ d₂ = toDir + 1 + k ∧ i < nr := by
      intro d₁ d₂ i
      constructor
      · rintro ⟨_ | k, hk, h1, h2, hi⟩
        · exact Or.inl ⟨h1, h2, hi⟩
        · exact Or.inr ⟨k, by omega, by omega, by omega, hi⟩
      · rintro (⟨h1, h2, hi⟩ | ⟨k, hk, h1, h2, hi⟩)
        · exact ⟨0, by omega, h1, h2, hi⟩
        · exact ⟨k + 1, by omega, by omega, by omega, hi⟩
    -- the remaining directory entries
    have hrest : ∀ {s₁ : State}, Inv startMem endMem s₁ →
        copyTables nr size (fromDir + 1) (toDir + 1) s₁.mem = some (b, m') →
        CopyEnd (fun d₁ d₂ i => ∃ k, k < size ∧ d₁ = fromDir + 1 + k ∧ d₂ = toDir + 1 + k ∧
          i < nr) s₁ b m' := by
      intro s₁ h₁ hr₁
      rcases copyRange_succ hfrom with hu | rfl
      · exact ih h₁ (Or.inl hu) (range_succ hto) (by omega) (by omega) hr₁
      · obtain ⟨rfl, rfl⟩ : true = b ∧ s₁.mem = m' := by simpa [copyTables] using hr₁
        exact Or.inl ⟨rfl, .refl (by simp) s₁⟩
    have hto₀ : User toDir := hto 0 (by omega)
    obtain ⟨ht, ⟨hf, hr'⟩ | ⟨rfl, htrace, -⟩ |
      ⟨ft, tt, m, b', m₁, htrace, hf, hdir, hzero, hc, hend⟩⟩ := copyTables_succ h hto₀ hne hr
    · exact .of_copied (copyZeros nr (by omega) hto₀ hal hf ht) rfl (hrest h hr') hR
    · exact Or.inr ⟨rfl, htrace.mono fun e he => Or.inl he⟩
    · rcases copyEntries_trace (s := ⟨m, s.held⟩) nr (htrace.inv h) (copyRange_zero hfrom) hto₀ hne
        hal hf (by rw [hdir, Function.update_self]) (fun j _ => hzero j) hc with
        ⟨rfl, hcopied⟩ | ⟨rfl, htrace'⟩
      · rcases hend with ⟨hcon, -⟩ | ⟨-, hr'⟩
        · cases hcon
        · have hcopied' := (Copied.of_silent (R := fun _ _ _ => False) htrace
            fun _ _ _ h => h).trans hcopied (R := fun d₁ d₂ i => d₁ = fromDir ∧ d₂ = toDir ∧
              i < nr) (by simp)
          exact .of_copied hcopied' rfl (hrest (hcopied'.traceOf.inv h) hr') hR
      · rcases hend with ⟨-, rfl, rfl⟩ | ⟨hcon, -⟩
        · refine Or.inr ⟨rfl, (htrace.mono fun e he => Or.inl he).trans (htrace'.mono ?_)⟩
          intro e he
          refine he.mono fun d₁ d₂ i hi => (hR d₁ d₂ i).mpr (Or.inl ?_)
          exact ⟨hi.1, hi.2.1, by omega⟩
        · cases hcon

end copy

/-! ### Freeing page tables -/

/-- The step frees an entry or a table of a directory entry in `R`. -/
def Effect.Frees (R : ℕ → Prop) : Effect → Prop
  | .unmap d _ _ _ _ | .unswap d _ _ | .freeTable d _ => R d
  | _ => False

theorem Effect.Frees.mono {R R' : ℕ → Prop} (hR : ∀ d, R d → R' d) {e : Effect}
    (h : e.Frees R) : e.Frees R' := by
  cases e <;> first | exact hR _ h | exact h

/-- A frame that an entry names can be freed. -/
theorem freePage_mapped (h : Inv startMem endMem s) (hd : User d) (hi : i < 1024)
    (he : (s.mem.entry d i).frame = some p) : freePage s.mem p = some (if lowMem ≤ p then
      s.mem.setMap (mapNr p) (s.mem.memMap (mapNr p) - 1) else s.mem) := by
  by_cases hlow : lowMem ≤ p
  · have hmain := h.main_of_mapped hd hi he hlow
    have hcount := h.memMap_of_entry hd hi he hlow
    have hpos := Mem.entries_pos hd hi he
    have hhigh : ¬ s.mem.highMemory ≤ p := by
      rw [h.high]
      exact not_le.mpr hmain.2
    have hused : s.mem.memMap (mapNr p) ≠ 0 := by omega
    rw [freePage, if_neg (by omega), if_neg hhigh, if_pos hused, if_pos hlow]
  · rw [freePage_low (by omega), if_neg hlow]

/-- One turn of the inner loop of `free_page_tables`. -/
theorem freeEntries_succ (nr : ℕ) (h : Inv startMem endMem s) (hd : User d) (hi : i < 1024)
    (ht : s.mem.pgDir d = some t) : ∃ s₁, TraceOf (Effect.Frees (· = d)) s s₁ ∧
      s₁.held = s.held ∧ s₁.mem.pgDir = s.mem.pgDir ∧ s₁.mem.table t i = .zero ∧
      (∀ j, s.mem.table t j = .zero → s₁.mem.table t j = .zero) ∧
      freeEntries t (nr + 1) i s.mem = freeEntries t nr (i + 1) s₁.mem := by
  have hent : s.mem.entry d i = s.mem.table t i := Mem.entry_of_pgDir ht i
  have hstore : ∀ m₁ : Mem, m₁.table = s.mem.table →
      (m₁.setEntry t i .zero).table t i = .zero ∧
      ∀ j, s.mem.table t j = .zero → (m₁.setEntry t i .zero).table t j = .zero := by
    intro m₁ hm₁
    refine ⟨by simp, fun j hj => ?_⟩
    by_cases hji : j = i
    · simp [hji]
    · simpa [hji, hm₁] using hj
  rw [freeEntries]
  rcases he : s.mem.table t i with _ | n | ⟨p, rw, dirty⟩
  · exact ⟨s, .refl s, rfl, rfl, he, fun _ hj => hj, rfl⟩
  · have hfree := swapFree_eq s.mem n
    have hset : (swapFree s.mem n).setEnt d i .zero = (swapFree s.mem n).setEntry t i .zero :=
      Mem.setEnt_of_pgDir (by rw [hfree]; exact ht) i _
    obtain ⟨hz, hkeep⟩ := hstore (swapFree s.mem n) (by rw [hfree])
    refine ⟨_, .one (e := .unswap d i n) ⟨hd, hi, hent.trans he⟩ rfl rfl, rfl, ?_, ?_, ?_, ?_⟩
    · simp only [State.apply, Mem.setEnt_pgDir]
      rw [hfree]
    · rw [State.apply, hset]
      exact hz
    · rw [State.apply, hset]
      exact hkeep
    · rw [State.apply, hset]
  · have hfp := freePage_mapped h hd hi (p := p) (by rw [hent, he]; rfl)
    simp only [hfp]
    set m₁ := if lowMem ≤ p then s.mem.setMap (mapNr p) (s.mem.memMap (mapNr p) - 1) else s.mem
      with hm₁
    have hdir : m₁.pgDir = s.mem.pgDir := by
      rw [hm₁]
      split <;> rfl
    obtain ⟨hz, hkeep⟩ := hstore m₁ (by rw [hm₁]; split <;> rfl)
    have hset : m₁.setEnt d i .zero = m₁.setEntry t i .zero :=
      Mem.setEnt_of_pgDir (by rw [hdir, ht]) i _
    refine ⟨_, .one (e := .unmap d i p rw dirty) ⟨hd, hi, hent.trans he⟩ rfl rfl, rfl, ?_⟩
    simp only [State.apply, ← hm₁, hset]
    exact ⟨hdir, hz, hkeep, trivial⟩

/-- The inner loop of `free_page_tables` does not panic. -/
theorem freeEntries_some (nr : ℕ) (h : Inv startMem endMem s) (hd : User d)
    (hi : i + nr = 1024) (ht : s.mem.pgDir d = some t) :
    (freeEntries t nr i s.mem).isSome := by
  induction nr generalizing i s with
  | zero => rfl
  | succ nr ih =>
    have hi' : i < 1024 := by omega
    obtain ⟨s₁, htrace, -, hdir, -, -, heq⟩ := freeEntries_succ nr h hd hi' ht
    rw [heq]
    exact ih (htrace.inv h) (by omega) (by rw [hdir, ht])

/-- The inner loop of `free_page_tables`. -/
theorem freeEntries_trace (nr : ℕ) (h : Inv startMem endMem s) (hd : User d)
    (hi : i + nr = 1024) (ht : s.mem.pgDir d = some t)
    (hzero : ∀ j, j < i → s.mem.table t j = .zero) (hr : freeEntries t nr i s.mem = some m') :
    TraceOf (Effect.Frees (· = d)) s ⟨m', s.held⟩ ∧ m'.pgDir = s.mem.pgDir ∧
      ∀ j, j < 1024 → m'.table t j = .zero := by
  induction nr generalizing i s with
  | zero =>
    obtain rfl : s.mem = m' := by simpa [freeEntries] using hr
    exact ⟨.refl s, rfl, fun j hj => hzero j (by omega)⟩
  | succ nr ih =>
    have hi' : i < 1024 := by omega
    obtain ⟨s₁, htrace, hheld, hdir, hz, hkeep, heq⟩ := freeEntries_succ nr h hd hi' ht
    rw [heq] at hr
    have hzero' : ∀ j, j < i + 1 → s₁.mem.table t j = .zero := by
      intro j hj
      by_cases hji : j = i
      · rw [hji, hz]
      · exact hkeep j (hzero j (by omega))
    obtain ⟨h1, h2, h3⟩ := ih (htrace.inv h) (by omega) (by rw [hdir, ht]) hzero' hr
    rw [hheld] at h1
    exact ⟨htrace.trans h1, h2.trans hdir, h3⟩

/-- What is left of a page table is freed with it. -/
theorem freeTables_succ (size : ℕ) {dir : ℕ} (h : Inv startMem endMem s) (hd : User dir) :
    ∃ s₁, TraceOf (Effect.Frees (· = dir)) s s₁ ∧ s₁.held = s.held ∧
      s₁.mem.pgDir = update s.mem.pgDir dir none ∧
      freeTables (size + 1) dir s.mem = freeTables size (dir + 1) s₁.mem := by
  rw [freeTables]
  rcases ht : s.mem.pgDir dir with _ | t
  · exact ⟨s, .refl s, rfl, (Function.update_eq_self_iff.mpr ht.symm).symm, rfl⟩
  · obtain ⟨m₁, hfe⟩ :=
      Option.isSome_iff_exists.mp (freeEntries_some 1024 h hd (Nat.zero_add _) ht)
    obtain ⟨h1, h2, h3⟩ := freeEntries_trace 1024 h hd (Nat.zero_add _) ht (by omega) hfe
    have hlow : lowMem ≤ t := h.lowMem_le_table hd ht
    have hinv := h1.inv h
    have ht₁ : m₁.pgDir dir = some t := (congrFun h2 dir).trans ht
    obtain ⟨hmain, hone⟩ := hinv.tableOne dir t hd ht₁
    have hhigh : ¬ m₁.highMemory ≤ t := by
      rw [show m₁.highMemory = endMem from hinv.high]
      exact not_le.mpr hmain.2
    have hused : m₁.memMap (mapNr t) ≠ 0 := by
      rw [show m₁.memMap (mapNr t) = 1 from hone]
      decide
    have hfp : freePage m₁ t = some (m₁.setMap (mapNr t) (m₁.memMap (mapNr t) - 1)) := by
      rw [freePage, if_neg (by omega), if_neg hhigh, if_pos hused]
    refine ⟨_, h1.trans (.one (e := .freeTable dir t) ⟨hd, ht₁, h3⟩ rfl rfl), rfl, ?_, ?_⟩
    · simp only [State.apply, Mem.setDir_pgDir, Mem.setMap_pgDir, h2]
    · simp only [hfe, hfp]
      rfl

/-- The outer loop of `free_page_tables`: every page table it reaches is gone. -/
theorem freeTables_trace (size : ℕ) {dir : ℕ} (h : Inv startMem endMem s)
    (hd : ∀ k, k < size → User (dir + k)) (hr : freeTables size dir s.mem = some m') :
    TraceOf (Effect.Frees fun d => ∃ k, k < size ∧ d = dir + k) s ⟨m', s.held⟩ ∧
      (∀ d, m'.pgDir d = if dir ≤ d ∧ d < dir + size then none else s.mem.pgDir d) := by
  induction size generalizing dir s with
  | zero =>
    obtain rfl : s.mem = m' := by simpa [freeTables] using hr
    exact ⟨.refl s, fun d => (if_neg (by omega)).symm⟩
  | succ size ih =>
    have hd₀ : User dir := hd 0 (by omega)
    obtain ⟨s₁, htrace, hheld, hdir, heq⟩ := freeTables_succ size h hd₀
    rw [heq] at hr
    obtain ⟨h1, h2⟩ := ih (htrace.inv h) (range_succ hd) hr
    rw [hheld] at h1
    have hfirst : ∀ d, d = dir → ∃ k, k < size + 1 ∧ d = dir + k := fun d hd =>
      ⟨0, by omega, hd⟩
    have hrest : ∀ d, (∃ k, k < size ∧ d = dir + 1 + k) → ∃ k, k < size + 1 ∧ d = dir + k :=
      fun d ⟨k, hk, hd⟩ => ⟨k + 1, by omega, by omega⟩
    refine ⟨(htrace.mono fun e he => he.mono hfirst).trans
      (h1.mono fun e he => he.mono hrest), fun d => ?_⟩
    · rw [h2, hdir]
      by_cases hdd : d = dir
      · rw [hdd, if_neg (by omega), if_pos (by omega), Function.update_self]
      · rw [Function.update_of_ne hdd]
        exact if_congr (by omega) rfl rfl

end Mm
