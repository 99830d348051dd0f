/-
What the entries and the frames of the address spaces hold.

* `Effect.entryAfter`, `entry_apply` — every entry after an elementary step;
* `Exclusive` — a writable page is mapped once, and never in the kernel;
* `Coherent` — what an address space is meant to hold is in the frames and on
  the swap device, and a clean page is what demand loading would load again.

Design notes: `Ghost` says what the address spaces are meant to hold.  A page
that `un_wp_page` has copied from a dirty page is clean without being what
demand loading would load; `Ghost.copied` marks it until the next store.
-/
import Linux012.FrameOps

namespace Mm

open Function (update)

/-- The entries after an elementary step. -/
def Effect.entryAfter (ent : ℕ → ℕ → Pte) (d i : ℕ) : Effect → Pte
  | .map d₁ i₁ p dirty => if d = d₁ ∧ i = i₁ then .page p true dirty else ent d i
  | .unmap d₁ i₁ _ _ _ | .unswap d₁ i₁ _ | .discard d₁ i₁ _ _ =>
    if d = d₁ ∧ i = i₁ then .zero else ent d i
  | .evict d₁ i₁ _ _ nr => if d = d₁ ∧ i = i₁ then .swap nr else ent d i
  | .copy d₁ d₂ i₁ p _ dirty =>
    if d = d₂ ∧ i = i₁ ∨ d = d₁ ∧ i = i₁ ∧ lowMem ≤ p then .page p false dirty else ent d i
  | .copySwap d₁ d₂ i₁ nr q =>
    if d = d₁ ∧ i = i₁ then .page q true true
    else if d = d₂ ∧ i = i₁ then .swap nr else ent d i
  | .swapIn d₁ i₁ _ q => if d = d₁ ∧ i = i₁ then .page q true true else ent d i
  | .setRw d₁ i₁ p _ dirty => if d = d₁ ∧ i = i₁ then .page p true dirty else ent d i
  | .cow d₁ i₁ _ new _ _ => if d = d₁ ∧ i = i₁ then .page new true false else ent d i
  | .store d₁ i₁ p rw _ _ => if d = d₁ ∧ i = i₁ then .page p rw true else ent d i
  | _ => ent d i

variable {startMem endMem : ℕ} {s s' : State} {e : Effect} {d i p : ℕ}

theorem Inv.isSome_of_ne (_ : Inv startMem endMem s) {e : Pte} (he : s.mem.entry d i = e)
    (hne : e ≠ .zero) : (s.mem.pgDir d).isSome :=
  Inv.isSome_of_entry (i := i) (he ▸ hne)

theorem entry_apply (h : Inv startMem endMem s) (hp : e.Pre s) (hd : d < 1024)
    (hi : i < 1024) : (s.apply e).mem.entry d i = e.entryAfter s.mem.entry d i := by
  have hstore : ∀ {m : Mem} {d₁ i₁ : ℕ} {e₁ : Pte}, m.pgDir = s.mem.pgDir →
      m.table = s.mem.table → User d₁ → (s.mem.pgDir d₁).isSome →
      (m.setEnt d₁ i₁ e₁).entry d i = if d = d₁ ∧ i = i₁ then e₁ else s.mem.entry d i := by
    intro m d₁ i₁ e₁ hdir htable hd₁ ht
    rw [h.entry_setEnt_of hdir hd₁ ht i₁ e₁ hd i, Mem.entry_congr hdir htable d i]
  cases e with
  | cursor | drop | fill | swapOn | copyZero => rfl
  | take => exact h.entry_take hp hd
  | newTable d₁ t =>
    obtain ⟨-, hnone, -, hzero⟩ := hp
    have hdir : (s.apply (.newTable d₁ t)).mem.pgDir d
        = if d = d₁ then some t else s.mem.pgDir d := Function.update_apply _ _ _ _
    show _ = s.mem.entry d i
    by_cases hdd : d = d₁
    · rw [Mem.entry_of_pgDir (hdir.trans (if_pos hdd)), hdd, Mem.entry_of_pgDir_none hnone]
      exact hzero i
    · simp only [Mem.entry, hdir, if_neg hdd]
      rfl
  | freeTable d₁ t =>
    obtain ⟨-, ht, hzero⟩ := hp
    have hdir : (s.apply (.freeTable d₁ t)).mem.pgDir d
        = if d = d₁ then none else s.mem.pgDir d := Function.update_apply _ _ _ _
    show _ = s.mem.entry d i
    by_cases hdd : d = d₁
    · rw [Mem.entry_of_pgDir_none (hdir.trans (if_pos hdd)), hdd, Mem.entry_of_pgDir ht,
        hzero i hi]
    · simp only [Mem.entry, hdir, if_neg hdd]
      rfl
  | map =>
    obtain ⟨hd₁, -, ht, -⟩ := hp
    exact hstore rfl rfl hd₁ ht
  | unmap d₁ i₁ p rw dirty =>
    obtain ⟨hd₁, -, he⟩ := hp
    have ht := h.isSome_of_ne he (by simp)
    simp only [State.apply, Effect.entryAfter]
    split
    · exact hstore rfl rfl hd₁ ht
    · exact hstore rfl rfl hd₁ ht
  | copy d₁ d₂ i₁ p rw dirty =>
    obtain ⟨hfrom, hd₂, hne, -, he, ht₂, -⟩ := hp
    have hi₁ : i₁ < 1024 := by omega
    by_cases hlow : lowMem ≤ p
    · have hd₁ : User d₁ := by
        rcases hfrom with ⟨hd₁, -⟩ | ⟨rfl, hi'⟩
        · exact hd₁
        · have := (h.kernelLow i₁ hi').1 p (by rw [he]; rfl)
          omega
      simp only [State.apply, Effect.entryAfter, if_pos hlow]
      have hent := h.entry_setEnt_of (m := s.mem.setEnt d₂ i₁ (.page p false dirty)) (by simp)
        hd₁ (h.isSome_of_ne he (by simp)) i₁ (.page p false dirty) hd i
      refine (Mem.entry_congr rfl rfl d i).trans (hent.trans ?_)
      rw [h.entry_setEnt hd₂ ht₂ i₁ _ hd i]
      by_cases h1 : d = d₁ ∧ i = i₁
      · rw [if_pos h1, if_pos (Or.inr ⟨h1.1, h1.2, hlow⟩)]
      · rw [if_neg h1]
        exact if_congr (by tauto) rfl rfl
    · simp only [State.apply, Effect.entryAfter, if_neg hlow]
      refine (hstore rfl rfl hd₂ ht₂).trans (if_congr ?_ rfl rfl)
      tauto
  | copySwap d₁ d₂ i₁ nr q =>
    obtain ⟨hd₁, hd₂, hne, -, -, he, ht₂, -⟩ := hp
    simp only [State.apply, Effect.entryAfter]
    rw [h.entry_setEnt_of (by simp) hd₁ (h.isSome_of_ne he (by simp)) i₁ _ hd i,
      hstore (m := s.mem.setData q (s.mem.swapDev nr)) rfl rfl hd₂ ht₂]
  | unswap d₁ i₁ nr =>
    obtain ⟨hd₁, -, he⟩ := hp
    refine hstore ?_ ?_ hd₁ (h.isSome_of_ne he (by simp))
    · rw [swapFree_eq]
    · rw [swapFree_eq]
  | discard =>
    obtain ⟨hd₁, -, -, he⟩ := hp
    exact hstore rfl rfl hd₁ (h.isSome_of_ne he (by simp))
  | evict =>
    obtain ⟨hd₁, -, -, he, -⟩ := hp
    exact hstore rfl rfl hd₁ (h.isSome_of_ne he (by simp))
  | swapIn =>
    obtain ⟨hd₁, -, he, -⟩ := hp
    exact hstore rfl rfl hd₁ (h.isSome_of_ne he (by simp))
  | setRw =>
    obtain ⟨hd₁, -, he, -⟩ := hp
    exact hstore rfl rfl hd₁ (h.isSome_of_ne he (by simp))
  | cow d₁ i₁ old new rw dirty =>
    obtain ⟨hd₁, -, he, -⟩ := hp
    have ht := h.isSome_of_ne he (by simp)
    simp only [State.apply, Effect.entryAfter]
    split
    · exact hstore rfl rfl hd₁ ht
    · exact hstore rfl rfl hd₁ ht
  | store =>
    obtain ⟨hd₁, -, he⟩ := hp
    exact hstore rfl rfl hd₁ (h.isSome_of_ne he (by simp))

/-! ### Writable pages -/

/-- A writable page of a task is in main memory and is mapped once. -/
structure Exclusive (s : State) : Prop where
  low : ∀ d i p dirty, User d → i < 1024 → s.mem.entry d i = .page p true dirty → lowMem ≤ p
  alone : ∀ d i d' i' p dirty, User d → i < 1024 → User d' → i' < 1024 →
    s.mem.entry d i = .page p true dirty → (s.mem.entry d' i').frame = some p →
    d' = d ∧ i' = i

/-- A frame with a single reference is mapped by one entry. -/
theorem Inv.alone_of_memMap {d' i' : ℕ} (h : Inv startMem endMem s) (hd : User d)
    (hi : i < 1024) (he : (s.mem.entry d i).frame = some p) (hlow : lowMem ≤ p)
    (hone : s.mem.memMap (mapNr p) = 1) (hd' : User d') (hi' : i' < 1024)
    (he' : (s.mem.entry d' i').frame = some p) : d' = d ∧ i' = i := by
  by_contra hne
  have hcount := h.memMap_of_entry hd hi he hlow
  have htwo := Counting.two_le_count_of (P := s.mem.Names p)
    (a := ((⟨d, hd.2⟩, ⟨i, hi⟩) : Fin 1024 × Fin 1024)) (b := (⟨d', hd'.2⟩, ⟨i', hi'⟩))
    (by
      intro hc
      simp only [Prod.mk.injEq, Fin.mk.injEq] at hc
      exact hne ⟨hc.1.symm, hc.2.symm⟩) ⟨hd.1, he⟩ ⟨hd'.1, he'⟩
  have hentries : s.mem.entries p = Counting.count (s.mem.Names p) := rfl
  omega

namespace Exclusive

/-- One entry changes, and the frame it names is mapped elsewhere only if all
the entries that name it are read-only. -/
theorem of_entry {d₁ i₁ : ℕ} {e₁ : Pte} (h : Exclusive s)
    (hent : ∀ d i, User d → i < 1024 →
      s'.mem.entry d i = if d = d₁ ∧ i = i₁ then e₁ else s.mem.entry d i)
    (hnew : ∀ p dirty, e₁ = .page p true dirty → lowMem ≤ p ∧ ∀ d i, User d → i < 1024 →
      ¬ (d = d₁ ∧ i = i₁) → (s.mem.entry d i).frame ≠ some p)
    (hold : ∀ p, e₁.frame = some p → ∀ d i dirty, User d → i < 1024 → ¬ (d = d₁ ∧ i = i₁) →
      s.mem.entry d i ≠ .page p true dirty) : Exclusive s' := by
  refine ⟨?_, ?_⟩
  · intro d i p dirty hd hi he
    rw [hent d i hd hi] at he
    by_cases h1 : d = d₁ ∧ i = i₁
    · rw [if_pos h1] at he
      exact (hnew p dirty he).1
    · rw [if_neg h1] at he
      exact h.low d i p dirty hd hi he
  · intro d i d' i' p dirty hd hi hd' hi' he he'
    rw [hent d i hd hi] at he
    rw [hent d' i' hd' hi'] at he'
    by_cases h1 : d = d₁ ∧ i = i₁
    · rw [if_pos h1] at he
      by_cases h2 : d' = d₁ ∧ i' = i₁
      · exact ⟨h2.1.trans h1.1.symm, h2.2.trans h1.2.symm⟩
      · rw [if_neg h2] at he'
        exact absurd he' ((hnew p dirty he).2 d' i' hd' hi' h2)
    · rw [if_neg h1] at he
      by_cases h2 : d' = d₁ ∧ i' = i₁
      · rw [if_pos h2] at he'
        exact absurd he (hold p he' d i dirty hd hi h1)
      · rw [if_neg h2] at he'
        exact h.alone d i d' i' p dirty hd hi hd' hi' he he'

/-- One entry gets to name a frame that no entry named. -/
theorem of_fresh {d₁ i₁ q : ℕ} {rw dirty : Bool} (h : Exclusive s) (hlow : lowMem ≤ q)
    (hq : ∀ d i, User d → i < 1024 → (s.mem.entry d i).frame ≠ some q)
    (hent : ∀ d i, User d → i < 1024 →
      s'.mem.entry d i = if d = d₁ ∧ i = i₁ then .page q rw dirty else s.mem.entry d i) :
    Exclusive s' := by
  refine h.of_entry hent ?_ ?_
  · rintro p dirty' ⟨⟩
    exact ⟨hlow, fun d i hd hi _ => hq d i hd hi⟩
  · rintro p ⟨⟩ d i dirty' hd hi _ he
    exact hq d i hd hi (by rw [he]; rfl)

theorem of_held {d₁ i₁ q : ℕ} {rw dirty : Bool} (h : Exclusive s) (hi : Inv startMem endMem s)
    (hq : s.held q ≠ 0) (hent : ∀ d i, User d → i < 1024 →
      s'.mem.entry d i = if d = d₁ ∧ i = i₁ then .page q rw dirty else s.mem.entry d i) :
    Exclusive s' :=
  h.of_fresh (hi.lowMem_le (hi.heldOne q hq).1)
    (fun _ _ hd hi' => hi.not_entry_of_held hq hd hi') hent

theorem of_none {d₁ i₁ : ℕ} {e : Pte} (h : Exclusive s) (hframe : e.frame = none)
    (hent : ∀ d i, User d → i < 1024 →
      s'.mem.entry d i = if d = d₁ ∧ i = i₁ then e else s.mem.entry d i) : Exclusive s' := by
  refine h.of_entry hent ?_ ?_
  · rintro p dirty rfl
    cases hframe
  · intro p hp
    rw [hframe] at hp
    cases hp

theorem congr (h : Exclusive s)
    (hent : ∀ d i, User d → i < 1024 → s'.mem.entry d i = s.mem.entry d i) : Exclusive s' := by
  refine ⟨fun d i p dirty hd hi he => ?_, fun d i d' i' p dirty hd hi hd' hi' he he' => ?_⟩
  · exact h.low d i p dirty hd hi (hent d i hd hi ▸ he)
  · exact h.alone d i d' i' p dirty hd hi hd' hi' (hent d i hd hi ▸ he)
      (hent d' i' hd' hi' ▸ he')

/-- Every elementary step keeps writable pages unshared. -/
theorem apply (h : Exclusive s) (hi : Inv startMem endMem s) (hp : e.Pre s) :
    Exclusive (s.apply e) := by
  have hent : ∀ d i, User d → i < 1024 →
      (s.apply e).mem.entry d i = e.entryAfter s.mem.entry d i :=
    fun d i hd hi' => entry_apply hi hp hd.2 hi'
  cases e with
  | cursor | take | drop | newTable | freeTable | copyZero | fill | swapOn => exact h.congr hent
  | map => exact h.of_held hi hp.2.2.2.2 hent
  | unmap | unswap | discard | evict => exact h.of_none rfl hent
  | swapIn => exact h.of_held hi hp.2.2.2 hent
  | cow => exact h.of_held hi hp.2.2.2 hent
  | setRw d₁ i₁ p rw dirty =>
    obtain ⟨hd₁, hi₁, he, hlow, hone⟩ := hp
    have hother : ∀ d i, User d → i < 1024 → ¬ (d = d₁ ∧ i = i₁) →
        (s.mem.entry d i).frame ≠ some p := fun d i hd hi' hne he' =>
      hne (hi.alone_of_memMap hd₁ hi₁ (by rw [he]; rfl) hlow hone hd hi' he')
    refine h.of_entry hent ?_ ?_
    · rintro q dirty' ⟨⟩
      exact ⟨hlow, hother⟩
    · rintro q ⟨⟩ d i dirty' hd hi' hne he'
      exact hother d i hd hi' hne (by rw [he']; rfl)
  | store d₁ i₁ p rw dirty c =>
    obtain ⟨hd₁, hi₁, he⟩ := hp
    refine h.of_entry hent ?_ ?_
    · rintro q dirty' ⟨⟩
      refine ⟨h.low d₁ i₁ p dirty hd₁ hi₁ he, fun d i hd hi' hne he' => ?_⟩
      exact hne (h.alone d₁ i₁ d i p dirty hd₁ hi₁ hd hi' he he')
    · rintro q ⟨⟩ d i dirty' hd hi' hne he'
      obtain ⟨h1, h2⟩ := h.alone d i d₁ i₁ p dirty' hd hi' hd₁ hi₁ he' (by rw [he]; rfl)
      exact hne ⟨h1.symm, h2.symm⟩
  | copy d₁ d₂ i₁ p rw dirty =>
    obtain ⟨hfrom, hd₂, hne, -, he, -⟩ := hp
    -- a writable entry that is left is not one of the two
    have hkeep : ∀ d i q dirty', User d → i < 1024 →
        (s.apply (.copy d₁ d₂ i₁ p rw dirty)).mem.entry d i = .page q true dirty' →
        s.mem.entry d i = .page q true dirty' ∧ q ≠ p := by
      intro d i q dirty' hd hi' hrw
      rw [hent d i hd hi', Effect.entryAfter] at hrw
      split at hrw
      · cases hrw
      · rename_i hout
        refine ⟨hrw, ?_⟩
        rintro rfl
        have hlow := h.low d i q dirty' hd hi' hrw
        rcases hfrom with ⟨hd₁, hi₁⟩ | ⟨rfl, hi₁⟩
        · obtain ⟨h1, h2⟩ := h.alone d i d₁ i₁ q dirty' hd hi' hd₁ hi₁ hrw (by rw [he]; rfl)
          exact hout (Or.inr ⟨h1.symm, h2.symm, hlow⟩)
        · have := (hi.kernelLow i₁ hi₁).1 q (by rw [he]; rfl)
          omega
    refine ⟨?_, ?_⟩
    · intro d i q dirty' hd hi' hrw
      exact h.low d i q dirty' hd hi' (hkeep d i q dirty' hd hi' hrw).1
    · intro d i d' i' q dirty' hd hi' hd' hi'' hrw hq
      obtain ⟨hrw', hqp⟩ := hkeep d i q dirty' hd hi' hrw
      rw [hent d' i' hd' hi'', Effect.entryAfter] at hq
      split at hq
      · exact absurd (Option.some.inj hq).symm hqp
      · exact h.alone d i d' i' q dirty' hd hi' hd' hi'' hrw' hq
  | copySwap d₁ d₂ i₁ nr q =>
    obtain ⟨hd₁, hd₂, hne, -, hi₁, he, ht₂, he₂, hq⟩ := hp
    have h2 : ∀ d i, User d → i < 1024 → (s.mem.setEnt d₂ i₁ (.swap nr)).entry d i
        = if d = d₂ ∧ i = i₁ then .swap nr else s.mem.entry d i :=
      fun d i hd _ => hi.entry_setEnt hd₂ ht₂ i₁ _ hd.2 i
    have h1 : Exclusive ⟨s.mem.setEnt d₂ i₁ (.swap nr), s.held⟩ :=
      h.of_none (e := .swap nr) rfl h2
    have h3 : ∀ d i, User d → i < 1024 → (s.apply (.copySwap d₁ d₂ i₁ nr q)).mem.entry d i
        = if d = d₁ ∧ i = i₁ then .page q true true
          else (s.mem.setEnt d₂ i₁ (.swap nr)).entry d i := by
      intro d i hd hi'
      rw [hent d i hd hi', h2 d i hd hi']
      rfl
    refine h1.of_fresh (hi.lowMem_le (hi.heldOne q hq).1) ?_ h3
    intro d i hd hi'
    rw [h2 d i hd hi']
    split
    · simp
    · exact hi.not_entry_of_held hq hd hi'

theorem traceOf {P : Effect → Prop} (h : Exclusive s) (hi : Inv startMem endMem s)
    (ht : TraceOf P s s') : Exclusive s' :=
  (ht.invariant (I := fun s => Inv startMem endMem s ∧ Exclusive s)
    (fun _ _ h hp _ => ⟨h.1.apply hp, h.2.apply h.1 hp⟩) ⟨hi, h⟩).2

end Exclusive

/-! ### Swap slots -/

/-- A swap slot that an entry names is in use, and by this entry only. -/
structure Slots (s : State) : Prop where
  used : ∀ d i n, User d → i < 1024 → s.mem.entry d i = .swap n →
    ∃ bits, s.mem.swapBitmap = some bits ∧ bits n = false
  alone : ∀ d i d' i' n, User d → i < 1024 → User d' → i' < 1024 →
    s.mem.entry d i = .swap n → s.mem.entry d' i' = .swap n → d' = d ∧ i' = i

namespace Slots

/-- No entry names another slot than before, and the slots named are not freed. -/
theorem mono (h : Slots s)
    (hent : ∀ d i n, User d → i < 1024 → s'.mem.entry d i = .swap n → s.mem.entry d i = .swap n)
    (hbits : ∀ d i n bits, User d → i < 1024 → s'.mem.entry d i = .swap n →
      s.mem.swapBitmap = some bits → bits n = false →
      ∃ bits', s'.mem.swapBitmap = some bits' ∧ bits' n = false) : Slots s' := by
  refine ⟨fun d i n hd hi he => ?_, fun d i d' i' n hd hi hd' hi' he he' => ?_⟩
  · obtain ⟨bits, h1, h2⟩ := h.used d i n hd hi (hent d i n hd hi he)
    exact hbits d i n bits hd hi he h1 h2
  · exact h.alone d i d' i' n hd hi hd' hi' (hent d i n hd hi he) (hent d' i' n hd' hi' he')

theorem mono_same (h : Slots s)
    (hent : ∀ d i n, User d → i < 1024 → s'.mem.entry d i = .swap n → s.mem.entry d i = .swap n)
    (hbits : s'.mem.swapBitmap = s.mem.swapBitmap) : Slots s' :=
  h.mono hent fun _ _ _ bits _ _ _ h1 h2 => ⟨bits, hbits.trans h1, h2⟩

/-- Every elementary step keeps the swap slots apart. -/
theorem apply (h : Slots s) (hi : Inv startMem endMem s) (hp : e.Pre s) : Slots (s.apply e) := by
  have hent : ∀ d i, User d → i < 1024 →
      (s.apply e).mem.entry d i = e.entryAfter s.mem.entry d i :=
    fun d i hd hi' => entry_apply hi hp hd.2 hi'
  -- a step that stores no slot into an entry
  have hnone : ∀ {d₁ i₁ e₁}, (∀ n, e₁ ≠ Pte.swap n) →
      (∀ d i, User d → i < 1024 → (s.apply e).mem.entry d i
        = if d = d₁ ∧ i = i₁ then e₁ else s.mem.entry d i) →
      ∀ d i n, User d → i < 1024 → (s.apply e).mem.entry d i = .swap n →
        ¬ (d = d₁ ∧ i = i₁) ∧ s.mem.entry d i = .swap n := by
    intro d₁ i₁ e₁ hne hent' d i n hd hi' he
    rw [hent' d i hd hi'] at he
    split at he
    · exact absurd he (hne n)
    · exact ⟨‹_›, he⟩
  cases e with
  | cursor | take | drop | newTable | freeTable | copyZero | fill =>
    exact h.mono_same (fun d i n hd hi' he => (hent d i hd hi').symm.trans he) rfl
  | map | setRw | store | discard =>
    exact h.mono_same (fun d i n hd hi' he => (hnone (by simp) hent d i n hd hi' he).2)
      (by simp [State.apply])
  | unmap | cow =>
    refine h.mono_same (fun d i n hd hi' he => (hnone (by simp) hent d i n hd hi' he).2) ?_
    simp only [State.apply]
    split <;> simp
  | swapOn bits =>
    refine h.mono (fun d i n hd hi' he => (hent d i hd hi').symm.trans he) ?_
    intro d i n bits' _ _ _ hsome
    rw [hp] at hsome
    cases hsome
  | copy d₁ d₂ i₁ p rw dirty =>
    refine h.mono_same ?_ ?_
    · intro d i n hd hi' he
      rw [hent d i hd hi', Effect.entryAfter] at he
      split at he
      · cases he
      · exact he
    · simp only [State.apply]
      split <;> simp
  | unswap d₁ i₁ nr =>
    obtain ⟨hd₁, hi₁, he₁⟩ := hp
    refine h.mono (fun d i n hd hi' he => (hnone (by simp) hent d i n hd hi' he).2) ?_
    intro d i n bits hd hi' he hsome hbit
    obtain ⟨hne, he'⟩ := hnone (by simp) hent d i n hd hi' he
    have hnr : n ≠ nr := by
      rintro rfl
      obtain ⟨h1, h2⟩ := h.alone d₁ i₁ d i n hd₁ hi₁ hd hi' he₁ he'
      exact hne ⟨h1, h2⟩
    simp only [State.apply, Mem.setEnt_swapBitmap, swapFree, hsome]
    split
    · exact ⟨bits, hsome, hbit⟩
    · split
      · exact ⟨_, rfl, by rw [Function.update_of_ne hnr, hbit]⟩
      · exact ⟨bits, hsome, hbit⟩
  | swapIn d₁ i₁ nr q =>
    obtain ⟨hd₁, hi₁, he₁, -⟩ := hp
    refine h.mono (fun d i n hd hi' he => (hnone (by simp) hent d i n hd hi' he).2) ?_
    intro d i n bits hd hi' he hsome hbit
    obtain ⟨hne, he'⟩ := hnone (by simp) hent d i n hd hi' he
    have hnr : n ≠ nr := by
      rintro rfl
      obtain ⟨h1, h2⟩ := h.alone d₁ i₁ d i n hd₁ hi₁ hd hi' he₁ he'
      exact hne ⟨h1, h2⟩
    refine ⟨update bits nr true, ?_, by rw [Function.update_of_ne hnr, hbit]⟩
    simp [State.apply, hsome]
  | evict d₁ i₁ p rw nr =>
    obtain ⟨hd₁, hi₁, -, he₁, -, -, -, bits, hsome, hbit⟩ := hp
    have hbits' : (s.apply (.evict d₁ i₁ p rw nr)).mem.swapBitmap
        = some (update bits nr false) := by
      simp [State.apply, hsome]
    -- the slot was free, so no other entry names it
    have hfree : ∀ d i, User d → i < 1024 → s.mem.entry d i ≠ .swap nr := by
      intro d i hd hi' he
      obtain ⟨bits', h1, h2⟩ := h.used d i nr hd hi' he
      obtain rfl : bits = bits' := by simpa [hsome] using h1
      rw [hbit] at h2
      cases h2
    refine ⟨fun d i n hd hi' he => ?_, fun d i d' i' n hd hi' hd' hi'' he he' => ?_⟩
    · rw [hent d i hd hi', Effect.entryAfter] at he
      refine ⟨_, hbits', ?_⟩
      split at he
      · obtain rfl : nr = n := by simpa using he
        simp
      · obtain ⟨bits', h1, h2⟩ := h.used d i n hd hi' he
        obtain rfl : bits = bits' := by simpa [hsome] using h1
        by_cases hn : n = nr
        · simp [hn]
        · rw [Function.update_of_ne hn, h2]
    · rw [hent d i hd hi', Effect.entryAfter] at he
      rw [hent d' i' hd' hi'', Effect.entryAfter] at he'
      split at he
      · rename_i h1
        obtain rfl : nr = n := by simpa using he
        split at he'
        · rename_i h2
          exact ⟨h2.1.trans h1.1.symm, h2.2.trans h1.2.symm⟩
        · exact absurd he' (hfree d' i' hd' hi'')
      · split at he'
        · obtain rfl : nr = n := by simpa using he'
          exact absurd he (hfree d i hd hi')
        · exact h.alone d i d' i' n hd hi' hd' hi'' he he'
  | copySwap d₁ d₂ i₁ nr q =>
    obtain ⟨hd₁, hd₂, hne, -, hi₁, he₁, -, he₂, -⟩ := hp
    have hbits' : (s.apply (.copySwap d₁ d₂ i₁ nr q)).mem.swapBitmap = s.mem.swapBitmap := by
      simp [State.apply]
    -- the slot goes from the parent's entry to the child's
    have hback : ∀ d i n, User d → i < 1024 →
        (s.apply (.copySwap d₁ d₂ i₁ nr q)).mem.entry d i = .swap n →
        (d = d₂ ∧ i = i₁ ∧ n = nr) ∨ (¬ (d = d₁ ∧ i = i₁) ∧ s.mem.entry d i = .swap n) := by
      intro d i n hd hi' he
      rw [hent d i hd hi', Effect.entryAfter] at he
      split at he
      · cases he
      · split at he
        · rename_i h2
          exact Or.inl ⟨h2.1, h2.2, by simpa using he.symm⟩
        · exact Or.inr ⟨‹_›, he⟩
    have hnot : ∀ d i, User d → i < 1024 → ¬ (d = d₁ ∧ i = i₁) → s.mem.entry d i ≠ .swap nr := by
      intro d i hd hi' hout he
      exact hout (h.alone d₁ i₁ d i nr hd₁ hi₁ hd hi' he₁ he)
    refine ⟨fun d i n hd hi' he => ?_, fun d i d' i' n hd hi' hd' hi'' he he' => ?_⟩
    · rw [hbits']
      rcases hback d i n hd hi' he with ⟨-, -, rfl⟩ | ⟨-, he⟩
      · exact h.used d₁ i₁ n hd₁ hi₁ he₁
      · exact h.used d i n hd hi' he
    · rcases hback d i n hd hi' he with ⟨rfl, rfl, rfl⟩ | ⟨hout, he₀⟩
      · rcases hback d' i' n hd' hi'' he' with ⟨h1, h2, -⟩ | ⟨hout, he'⟩
        · exact ⟨h1, h2⟩
        · exact absurd he' (hnot d' i' hd' hi'' hout)
      · rcases hback d' i' n hd' hi'' he' with ⟨rfl, rfl, rfl⟩ | ⟨-, he'⟩
        · exact absurd he₀ (hnot d i hd hi' hout)
        · exact h.alone d i d' i' n hd hi' hd' hi'' he₀ he'

end Slots

/-! ### The content of the address spaces -/

/-- What the pages of the address spaces are meant to hold. -/
structure Ghost where
  /-- pages of a living process -/
  live : ℕ → ℕ → Prop
  /-- what was stored last, or inherited, or is there from the start -/
  content : ℕ → ℕ → Page
  /-- what `do_no_page` would load -/
  demand : ℕ → ℕ → Page
  /-- copied by `un_wp_page` from a dirty page and not stored to since -/
  copied : ℕ → ℕ → Prop

/-- An entry stands for content `c` where demand loading gives `dem`. -/
def Pte.Holds (m : Mem) (c dem : Page) (copied : Prop) : Pte → Prop
  | .zero => ¬ copied → c = dem
  | .swap n => m.swapDev n = c
  | .page p _ dirty => m.data p = c ∧ (dirty = false → lowMem ≤ p → ¬ copied → c = dem)

theorem Pte.Holds.congr {m m' : Mem} {c dem : Page} {copied : Prop} {e : Pte}
    (h : e.Holds m c dem copied) (hdata : ∀ p, e.frame = some p → m'.data p = m.data p)
    (hswap : ∀ n, e = .swap n → m'.swapDev n = m.swapDev n) : e.Holds m' c dem copied := by
  cases e with
  | zero => exact h
  | swap n => exact (hswap n rfl).trans h
  | page p rw dirty => exact ⟨(hdata p rfl).trans h.1, h.2⟩

/-- The page can belong to a process: the tasks from 1 on, and what task 0 has
of the kernel. -/
def InSpace (d i : ℕ) : Prop := (User d ∨ d = 0 ∧ i < 160) ∧ i < 1024

theorem InSpace.lt (h : InSpace d i) : d < 1024 := by
  rcases h.1 with hd | ⟨rfl, -⟩
  · exact hd.2
  · decide

/-- The address spaces hold what they are meant to. -/
structure Coherent (s : State) (g : Ghost) : Prop where
  inSpace : ∀ d i, g.live d i → InSpace d i
  holds : ∀ d i, g.live d i →
    (s.mem.entry d i).Holds s.mem (g.content d i) (g.demand d i) (g.copied d i)

/-- What a step does to what the address spaces are meant to hold. -/
def Ghost.apply (g : Ghost) : Effect → Ghost
  | .copy d₁ d₂ i _ _ _ | .copySwap d₁ d₂ i _ _ | .copyZero d₁ d₂ i =>
    { g with live := fun d j => g.live d j ∨ d = d₂ ∧ j = i ∧ g.live d₁ i }
  | .cow d i old _ _ dirty =>
    { g with copied := fun d' i' => g.copied d' i' ∨
        d' = d ∧ i' = i ∧ (dirty = true ∨ old < lowMem) }
  | .store d i _ _ _ c =>
    { g with
      content := fun d' i' => if d' = d ∧ i' = i then c else g.content d' i'
      copied := fun d' i' => g.copied d' i' ∧ ¬ (d' = d ∧ i' = i) }
  | _ => g

/-- What a step must respect. -/
def Effect.Sound (s : State) (g : Ghost) : Effect → Prop
  | .map d i p dirty => g.live d i → s.mem.data p = g.content d i ∧
      (dirty = false → ¬ g.copied d i → g.content d i = g.demand d i)
  | .unmap d i _ _ _ | .unswap d i _ => ¬ g.live d i
  | .copy d₁ d₂ i _ _ _ | .copySwap d₁ d₂ i _ _ | .copyZero d₁ d₂ i => g.live d₁ i ∧
      g.content d₂ i = g.content d₁ i ∧ g.demand d₂ i = g.demand d₁ i ∧
      (g.copied d₂ i ↔ g.copied d₁ i)
  | .store _ _ _ rw _ _ => rw = true
  | _ => True

/-- A frame that is free or held outside page tables is not in an address
space. -/
theorem Inv.frame_ne_of_inSpace {q : ℕ} (h : Inv startMem endMem s) (hs : InSpace d i)
    (he : (s.mem.entry d i).frame = some p) (hlow : lowMem ≤ q)
    (hq : ∀ d i, User d → i < 1024 → (s.mem.entry d i).frame ≠ some q) : p ≠ q := by
  rintro rfl
  rcases hs with ⟨hd | ⟨rfl, hi⟩, hi'⟩
  · exact hq d i hd hi' he
  · have := (h.kernelLow i hi).1 p he
    omega

namespace Coherent

variable {g : Ghost}

/-- The entry and what it stands for are the same. -/
private theorem holds_same (h : Coherent s g) (hl : g.live d i)
    (he : s'.mem.entry d i = s.mem.entry d i)
    (hdata : ∀ p, (s.mem.entry d i).frame = some p → s'.mem.data p = s.mem.data p)
    (hswap : ∀ n, s.mem.entry d i = .swap n → s'.mem.swapDev n = s.mem.swapDev n) :
    (s'.mem.entry d i).Holds s'.mem (g.content d i) (g.demand d i) (g.copied d i) := by
  rw [he]
  exact (h.holds d i hl).congr hdata hswap

/-- No frame in an address space changes with frame `q`. -/
private theorem data_update (h : Coherent s g) (hi : Inv startMem endMem s) {q : ℕ} {c : Page}
    (hl : g.live d i) (hlow : lowMem ≤ q)
    (hq : ∀ d i, User d → i < 1024 → (s.mem.entry d i).frame ≠ some q)
    (he : (s.mem.entry d i).frame = some p) : update s.mem.data q c p = s.mem.data p :=
  Function.update_of_ne (hi.frame_ne_of_inSpace (h.inSpace d i hl) he hlow hq) _ _

/-- One entry changes, with what is meant to be there. -/
private theorem of_entry {g' : Ghost} {d₁ i₁ : ℕ} {e₁ : Pte} (h : Coherent s g)
    (hent : ∀ d i, d < 1024 → i < 1024 →
      s'.mem.entry d i = if d = d₁ ∧ i = i₁ then e₁ else s.mem.entry d i)
    (hlive : ∀ d i, g'.live d i → g.live d i)
    (hg : ∀ d i, ¬ (d = d₁ ∧ i = i₁) → g'.content d i = g.content d i ∧
      g'.demand d i = g.demand d i ∧ (g'.copied d i ↔ g.copied d i))
    (hdata : ∀ d i p, g.live d i → ¬ (d = d₁ ∧ i = i₁) → (s.mem.entry d i).frame = some p →
      s'.mem.data p = s.mem.data p)
    (hswap : ∀ d i n, g.live d i → s.mem.entry d i = .swap n →
      s'.mem.swapDev n = s.mem.swapDev n)
    (hnew : g.live d₁ i₁ →
      e₁.Holds s'.mem (g'.content d₁ i₁) (g'.demand d₁ i₁) (g'.copied d₁ i₁)) :
    Coherent s' g' := by
  refine ⟨fun d i hl => h.inSpace d i (hlive d i hl), fun d i hl => ?_⟩
  have hl' := hlive d i hl
  have hs := h.inSpace d i hl'
  rw [hent d i hs.lt hs.2]
  by_cases h1 : d = d₁ ∧ i = i₁
  · rw [if_pos h1, h1.1, h1.2]
    exact hnew (h1.1 ▸ h1.2 ▸ hl')
  · obtain ⟨h2, h3, h4⟩ := hg d i h1
    rw [if_neg h1, h2, h3, show g'.copied d i = g.copied d i from propext h4]
    exact (h.holds d i hl').congr (fun p hp => hdata d i p hl' h1 hp)
      fun n hn => hswap d i n hl' hn

/-- Every elementary step keeps the address spaces as they are meant to be. -/
theorem apply (h : Coherent s g) (hi : Inv startMem endMem s) (hx : Exclusive s)
    (hslots : Slots s) (hp : e.Pre s) (hs : e.Sound s g) : Coherent (s.apply e) (g.apply e) := by
  have hent : ∀ d i, d < 1024 → i < 1024 →
      (s.apply e).mem.entry d i = e.entryAfter s.mem.entry d i :=
    fun d i hd hi' => entry_apply hi hp hd hi'
  -- nothing an address space holds changes
  have hsame : g.apply e = g → (∀ d i, d < 1024 → i < 1024 →
        (s.apply e).mem.entry d i = s.mem.entry d i) →
      (∀ d i p, g.live d i → (s.mem.entry d i).frame = some p →
        (s.apply e).mem.data p = s.mem.data p) →
      (s.apply e).mem.swapDev = s.mem.swapDev → Coherent (s.apply e) (g.apply e) := by
    intro hg he hdata hswap
    rw [hg]
    refine ⟨h.inSpace, fun d i hl => ?_⟩
    have hin := h.inSpace d i hl
    exact h.holds_same hl (he d i hin.lt hin.2) (fun p => hdata d i p hl)
      fun n _ => congrFun hswap n
  have hheld : ∀ {q : ℕ} {c : Page}, s.held q ≠ 0 → ∀ d i p, g.live d i →
      (s.mem.entry d i).frame = some p → update s.mem.data q c p = s.mem.data p :=
    fun hq d i p hl he => h.data_update hi hl (hi.lowMem_le (hi.heldOne _ hq).1)
      (fun d i hd hi' => hi.not_entry_of_held hq hd hi') he
  cases e with
  | cursor | drop | swapOn | newTable | freeTable =>
    exact hsame rfl hent (fun _ _ _ _ _ => rfl) rfl
  | take q =>
    refine hsame rfl hent (fun d i p hl he => h.data_update hi hl hp.1 ?_ he) rfl
    intro d i hd hi' he
    have hmain := hi.main_of_take hp
    have hcount := hi.memMap_of_entry hd hi' he hp.1
    have hpos := Mem.entries_pos hd hi' he
    have := hp.2.2.2
    omega
  | fill q c => exact hsame rfl hent (fun d i p hl he => hheld hp d i p hl he) rfl
  | map d₁ i₁ p dirty =>
    refine h.of_entry hent (fun _ _ hl => hl) (fun _ _ _ => ⟨rfl, rfl, Iff.rfl⟩) ?_ ?_ ?_
    · intro d i q _ _ _
      simp [State.apply]
    · intro d i n _ _
      simp [State.apply]
    · intro hl
      obtain ⟨h1, h2⟩ := hs hl
      refine ⟨?_, fun hd _ => h2 hd⟩
      simpa [State.apply, Ghost.apply] using h1
  | unmap d₁ i₁ p rw dirty =>
    refine h.of_entry hent (fun _ _ hl => hl) (fun _ _ _ => ⟨rfl, rfl, Iff.rfl⟩) ?_ ?_ ?_
    · intro d i q _ _ _
      simp only [State.apply]
      split <;> simp
    · intro d i n _ _
      simp only [State.apply]
      split <;> simp
    · exact fun hl => absurd hl hs
  | unswap d₁ i₁ nr =>
    refine h.of_entry hent (fun _ _ hl => hl) (fun _ _ _ => ⟨rfl, rfl, Iff.rfl⟩) ?_ ?_ ?_
    · intro d i q _ _ _
      simp only [State.apply, Mem.setEnt_data]
      rw [swapFree_eq]
    · intro d i n _ _
      simp only [State.apply, Mem.setEnt_swapDev]
      rw [swapFree_eq]
    · exact fun hl => absurd hl hs
  | discard d₁ i₁ p rw =>
    obtain ⟨-, -, hlow, he⟩ := hp
    refine h.of_entry hent (fun _ _ hl => hl) (fun _ _ _ => ⟨rfl, rfl, Iff.rfl⟩) ?_ ?_ ?_
    · intro d i q _ _ _
      simp [State.apply]
    · intro d i n _ _
      simp [State.apply]
    · intro hl
      have hold := h.holds d₁ i₁ hl
      rw [he] at hold
      exact hold.2 rfl hlow
  | evict d₁ i₁ p rw nr =>
    obtain ⟨-, -, -, he, -, -, -, bits, hsome, hbit⟩ := hp
    refine h.of_entry hent (fun _ _ hl => hl) (fun _ _ _ => ⟨rfl, rfl, Iff.rfl⟩) ?_ ?_ ?_
    · intro d i q _ _ _
      simp [State.apply]
    · intro d i n hl hn
      -- the slot was free
      have hne : n ≠ nr := by
        rintro rfl
        rcases h.inSpace d i hl with ⟨hd | ⟨rfl, hi'⟩, hi''⟩
        · obtain ⟨bits', h1, h2⟩ := hslots.used d i n hd hi'' hn
          obtain rfl : bits = bits' := by simpa [hsome] using h1
          rw [hbit] at h2
          cases h2
        · exact (hi.kernelLow i hi').2 n hn
      simp [State.apply, hne]
    · intro hl
      have hold := h.holds d₁ i₁ hl
      rw [he] at hold
      show (s.apply _).mem.swapDev nr = _
      simpa [State.apply, Ghost.apply] using hold.1
  | swapIn d₁ i₁ nr q =>
    obtain ⟨-, -, he, hq⟩ := hp
    refine h.of_entry hent (fun _ _ hl => hl) (fun _ _ _ => ⟨rfl, rfl, Iff.rfl⟩) ?_ ?_ ?_
    · intro d i p hl _ hframe
      simpa [State.apply] using hheld hq d i p hl hframe
    · intro d i n _ _
      simp [State.apply]
    · intro hl
      have hold := h.holds d₁ i₁ hl
      rw [he] at hold
      have hcontent : s.mem.swapDev nr = g.content d₁ i₁ := hold
      refine ⟨?_, by simp⟩
      simpa [State.apply, Ghost.apply] using hcontent
  | setRw d₁ i₁ p rw dirty =>
    obtain ⟨-, -, he, -⟩ := hp
    refine h.of_entry hent (fun _ _ hl => hl) (fun _ _ _ => ⟨rfl, rfl, Iff.rfl⟩) ?_ ?_ ?_
    · intro d i q _ _ _
      simp [State.apply]
    · intro d i n _ _
      simp [State.apply]
    · intro hl
      have hold := h.holds d₁ i₁ hl
      rw [he] at hold
      refine ⟨?_, hold.2⟩
      simpa [State.apply, Ghost.apply] using hold.1
  | cow d₁ i₁ old new rw dirty =>
    obtain ⟨-, -, he, hq⟩ := hp
    refine h.of_entry hent (fun _ _ hl => hl) ?_ ?_ ?_ ?_
    · intro d i hne
      refine ⟨rfl, rfl, ?_⟩
      simp only [Ghost.apply]
      tauto
    · intro d i p hl _ hframe
      have hkeep := hheld (c := s.mem.data old) hq d i p hl hframe
      simp only [State.apply]
      split <;> simpa using hkeep
    · intro d i n _ _
      simp only [State.apply]
      split <;> simp
    · intro hl
      have hold := h.holds d₁ i₁ hl
      rw [he] at hold
      refine ⟨?_, fun _ _ hc => ?_⟩
      · simp only [State.apply]
        split <;> simpa [Ghost.apply] using hold.1
      · simp only [Ghost.apply, true_and, not_or, not_lt, Bool.not_eq_true] at hc
        exact hold.2 hc.2.1 hc.2.2 hc.1
  | store d₁ i₁ p rw dirty c =>
    obtain ⟨hd₁, hi₁, he⟩ := hp
    rw [show rw = true from hs] at he
    refine h.of_entry hent (fun _ _ hl => hl) ?_ ?_ ?_ ?_
    · intro d i hne
      refine ⟨if_neg hne, rfl, ?_⟩
      simp only [Ghost.apply]
      tauto
    · intro d i q hl hne hframe
      have hqp : q ≠ p := by
        rintro rfl
        rcases h.inSpace d i hl with ⟨hd | ⟨rfl, hi'⟩, hi''⟩
        · exact hne (hx.alone d₁ i₁ d i q dirty hd₁ hi₁ hd hi'' he hframe)
        · have := (hi.kernelLow i hi').1 q hframe
          have := hx.low d₁ i₁ q dirty hd₁ hi₁ he
          omega
      simp [State.apply, hqp]
    · intro d i n _ _
      simp [State.apply]
    · intro _
      refine ⟨?_, by simp⟩
      simp [State.apply, Ghost.apply]
  | copyZero d₁ d₂ i₁ =>
    obtain ⟨hd₂, hi₁, he₁, he₂, -⟩ := hp
    obtain ⟨hl₁, hc, hd, hcopied⟩ := hs
    refine ⟨?_, ?_⟩
    · rintro d i (hl | ⟨rfl, rfl, -⟩)
      · exact h.inSpace d i hl
      · exact ⟨Or.inl hd₂, hi₁⟩
    · rintro d i (hl | ⟨rfl, rfl, -⟩)
      · exact h.holds d i hl
      · have hold := h.holds d₁ i hl₁
        rw [he₁] at hold
        show (s.mem.entry d i).Holds s.mem (g.content d i) (g.demand d i) (g.copied d i)
        rw [he₂, hc, hd, show g.copied d i = g.copied d₁ i from propext hcopied]
        exact hold
  | copy d₁ d₂ i₁ p rw dirty =>
    obtain ⟨hfrom, hd₂, hne, -, he₁, -⟩ := hp
    obtain ⟨hl₁, hc, hd, hcopied⟩ := hs
    have hi₁ : i₁ < 1024 := by omega
    have hdata : (s.apply (.copy d₁ d₂ i₁ p rw dirty)).mem.data = s.mem.data := by
      simp only [State.apply]
      split <;> simp
    have hswap : (s.apply (.copy d₁ d₂ i₁ p rw dirty)).mem.swapDev = s.mem.swapDev := by
      simp only [State.apply]
      split <;> simp
    have hold := h.holds d₁ i₁ hl₁
    rw [he₁] at hold
    have hnew : (Pte.page p false dirty).Holds (s.apply (.copy d₁ d₂ i₁ p rw dirty)).mem
        (g.content d₁ i₁) (g.demand d₁ i₁) (g.copied d₁ i₁) := by
      refine ⟨?_, hold.2⟩
      rw [hdata]
      exact hold.1
    have htarget : (Pte.page p false dirty).Holds (s.apply (.copy d₁ d₂ i₁ p rw dirty)).mem
        (g.content d₂ i₁) (g.demand d₂ i₁) (g.copied d₂ i₁) := by
      rw [hc, hd, show g.copied d₂ i₁ = g.copied d₁ i₁ from propext hcopied]
      exact hnew
    refine ⟨?_, ?_⟩
    · rintro d i (hl | ⟨rfl, rfl, -⟩)
      · exact h.inSpace d i hl
      · exact ⟨Or.inl hd₂, hi₁⟩
    · rintro d i hl
      show ((s.apply _).mem.entry d i).Holds _ (g.content d i) (g.demand d i) (g.copied d i)
      have hin : InSpace d i := by
        rcases hl with hl | ⟨rfl, rfl, -⟩
        · exact h.inSpace d i hl
        · exact ⟨Or.inl hd₂, hi₁⟩
      rw [hent d i hin.lt hin.2, Effect.entryAfter]
      by_cases h2 : d = d₂ ∧ i = i₁
      · rw [if_pos (Or.inl h2), h2.1, h2.2]
        exact htarget
      · rcases hl with hl | ⟨h3, h4, -⟩
        · by_cases h1 : d = d₁ ∧ i = i₁ ∧ lowMem ≤ p
          · rw [if_pos (Or.inr h1), h1.1, h1.2.1]
            exact hnew
          · rw [if_neg (by tauto)]
            exact (h.holds d i hl).congr (fun q _ => congrFun hdata q)
              fun n _ => congrFun hswap n
        · exact absurd ⟨h3, h4⟩ h2
  | copySwap d₁ d₂ i₁ nr q =>
    obtain ⟨hd₁, hd₂, hne, -, hi₁, he₁, -, he₂, hq⟩ := hp
    obtain ⟨hl₁, hc, hd, hcopied⟩ := hs
    have hdata : (s.apply (.copySwap d₁ d₂ i₁ nr q)).mem.data
        = update s.mem.data q (s.mem.swapDev nr) := by
      simp [State.apply]
    have hswap : (s.apply (.copySwap d₁ d₂ i₁ nr q)).mem.swapDev = s.mem.swapDev := by
      simp [State.apply]
    have hold : s.mem.swapDev nr = g.content d₁ i₁ := by
      have hold := h.holds d₁ i₁ hl₁
      rw [he₁] at hold
      exact hold
    refine ⟨?_, ?_⟩
    · rintro d i (hl | ⟨rfl, rfl, -⟩)
      · exact h.inSpace d i hl
      · exact ⟨Or.inl hd₂, hi₁⟩
    · rintro d i hl
      show ((s.apply _).mem.entry d i).Holds _ (g.content d i) (g.demand d i) (g.copied d i)
      have hin : InSpace d i := by
        rcases hl with hl | ⟨rfl, rfl, -⟩
        · exact h.inSpace d i hl
        · exact ⟨Or.inl hd₂, hi₁⟩
      rw [hent d i hin.lt hin.2, Effect.entryAfter]
      by_cases h1 : d = d₁ ∧ i = i₁
      · rw [if_pos h1, h1.1, h1.2]
        refine ⟨?_, by simp⟩
        rw [hdata, Function.update_self, hold]
      · by_cases h2 : d = d₂ ∧ i = i₁
        · rw [if_neg h1, if_pos h2, h2.1, h2.2]
          show (s.apply _).mem.swapDev nr = _
          rw [hswap, hold, hc]
        · rcases hl with hl | ⟨h3, h4, -⟩
          · rw [if_neg h1, if_neg h2]
            refine (h.holds d i hl).congr (fun p hframe => ?_) fun n _ => congrFun hswap n
            rw [hdata]
            exact hheld hq d i p hl hframe
          · exact absurd ⟨h3, h4⟩ h2

end Coherent

/-! ### Sequences of steps -/

/-- The invariants of the memory manager and of the content of the address
spaces together. -/
structure Healthy (startMem endMem : ℕ) (s : State) (g : Ghost) : Prop where
  inv : Inv startMem endMem s
  exclusive : Exclusive s
  slots : Slots s
  coherent : Coherent s g

namespace Healthy

variable {g g' : Ghost}

theorem apply (h : Healthy startMem endMem s g) (hp : e.Pre s) (hs : e.Sound s g) :
    Healthy startMem endMem (s.apply e) (g.apply e) :=
  ⟨h.inv.apply hp, h.exclusive.apply h.inv hp, h.slots.apply h.inv hp,
    h.coherent.apply h.inv h.exclusive h.slots hp hs⟩

/-- The same for fewer pages, or with another meaning where nothing is live. -/
theorem restrict (h : Healthy startMem endMem s g) (hlive : ∀ d i, g'.live d i → g.live d i)
    (hg : ∀ d i, g'.live d i → g'.content d i = g.content d i ∧
      g'.demand d i = g.demand d i ∧ (g'.copied d i ↔ g.copied d i)) :
    Healthy startMem endMem s g' := by
  refine ⟨h.inv, h.exclusive, h.slots, fun d i hl => h.coherent.inSpace d i (hlive d i hl), ?_⟩
  intro d i hl
  obtain ⟨h1, h2, h3⟩ := hg d i hl
  rw [h1, h2, show g'.copied d i = g.copied d i from propext h3]
  exact h.coherent.holds d i (hlive d i hl)

/-- More pages are live, and they hold what they are meant to. -/
theorem extend (h : Healthy startMem endMem s g)
    (hnew : ∀ d i, g'.live d i → (g.live d i ∧ g'.content d i = g.content d i ∧
        g'.demand d i = g.demand d i ∧ (g'.copied d i ↔ g.copied d i)) ∨
      InSpace d i ∧
        (s.mem.entry d i).Holds s.mem (g'.content d i) (g'.demand d i) (g'.copied d i)) :
    Healthy startMem endMem s g' := by
  refine ⟨h.inv, h.exclusive, h.slots, fun d i hl => ?_, fun d i hl => ?_⟩
  · rcases hnew d i hl with ⟨hl', -⟩ | ⟨hin, -⟩
    · exact h.coherent.inSpace d i hl'
    · exact hin
  · rcases hnew d i hl with ⟨hl', h1, h2, h3⟩ | ⟨-, hh⟩
    · rw [h1, h2, show g'.copied d i = g.copied d i from propext h3]
      exact h.coherent.holds d i hl'
    · exact hh

theorem of_steps {P : Effect → Prop} (h : Healthy startMem endMem s g)
    (ht : TraceOf P s s')
    (hP : ∀ s e, P e → Healthy startMem endMem s g → e.Pre s → e.Sound s g ∧ g.apply e = g) :
    Healthy startMem endMem s' g := by
  refine ht.invariant (I := fun s => Healthy startMem endMem s g) (fun s e h hp he => ?_) h
  obtain ⟨hs, hg⟩ := hP s e he h hp
  exact hg ▸ h.apply hp hs

theorem silent (h : Healthy startMem endMem s g) (ht : TraceOf Effect.Silent s s') :
    Healthy startMem endMem s' g := by
  refine h.of_steps ht fun s e he _ _ => ?_
  cases e <;> first | exact ⟨trivial, rfl⟩ | exact he.elim

/-- Pages of no living process are freed. -/
theorem frees {R : ℕ → Prop} (h : Healthy startMem endMem s g)
    (ht : TraceOf (Effect.Frees R) s s') (hR : ∀ d i, R d → ¬ g.live d i) :
    Healthy startMem endMem s' g := by
  refine h.of_steps ht fun s e he _ _ => ?_
  cases e <;> first | exact ⟨hR _ _ he, rfl⟩ | exact ⟨trivial, rfl⟩ | exact he.elim

/-- Steps that copy entries of living processes, to pages that are meant to hold
the same. -/
theorem copies {R : ℕ → ℕ → ℕ → Prop} {es : List Effect} (h : Healthy startMem endMem s g)
    (ht : Trace s es s') (hes : ∀ e ∈ es, CopyStep R e)
    (hR : ∀ d₁ d₂ i, R d₁ d₂ i → g.live d₁ i ∧ g.content d₂ i = g.content d₁ i ∧
      g.demand d₂ i = g.demand d₁ i ∧ (g.copied d₂ i ↔ g.copied d₁ i)) :
    Healthy startMem endMem s' { g with
      live := fun d i => g.live d i ∨ ∃ d₁, R d₁ d i ∧ ∃ e ∈ es, e.Copies d₁ d i } := by
  induction ht generalizing g with
  | nil => exact h.restrict (by simp) fun _ _ _ => ⟨rfl, rfl, Iff.rfl⟩
  | @cons s s' e es hp _ ih =>
    have hes' : ∀ e' ∈ es, CopyStep R e' := fun e' he' => hes e' (List.mem_cons_of_mem _ he')
    rcases hes e List.mem_cons_self with he | ⟨d₁, d₂, i, hr, he⟩
    · have h1 := h.silent (.one hp he rfl)
      refine (ih h1 hes' hR).restrict ?_ fun _ _ _ => ⟨rfl, rfl, Iff.rfl⟩
      rintro d i (hl | ⟨d₁, hr, e', he', hc⟩)
      · exact Or.inl hl
      · rcases List.mem_cons.mp he' with rfl | he'
        · cases e' <;> first | exact hc.elim | exact he.elim
        · exact Or.inr ⟨d₁, hr, e', he', hc⟩
    · have hs : e.Sound s g := by
        have hsound := hR d₁ d₂ i hr
        cases e <;> first
          | (obtain ⟨rfl, rfl, rfl⟩ := he; exact hsound)
          | exact he.elim
      have hg : g.apply e = { g with
          live := fun d j => g.live d j ∨ d = d₂ ∧ j = i ∧ g.live d₁ i } := by
        cases e <;> first
          | (obtain ⟨rfl, rfl, rfl⟩ := he; rfl)
          | exact he.elim
      have h1 := h.apply hp hs
      rw [hg] at h1
      refine (ih h1 hes' fun a b j hab => ?_).restrict ?_ fun _ _ _ => ⟨rfl, rfl, Iff.rfl⟩
      · obtain ⟨h2, h3⟩ := hR a b j hab
        exact ⟨Or.inl h2, h3⟩
      · rintro d j (hl | ⟨a, hab, e', he', hc⟩)
        · exact Or.inl (Or.inl hl)
        · rcases List.mem_cons.mp he' with rfl | he'
          · have htarget : d = d₂ ∧ j = i := by
              cases e' <;> first
                | (obtain ⟨rfl, rfl, rfl⟩ := he; obtain ⟨-, rfl, rfl⟩ := hc; exact ⟨rfl, rfl⟩)
                | exact he.elim
            exact Or.inl (Or.inr ⟨htarget.1, htarget.2, (hR d₁ d₂ i hr).1⟩)
          · exact Or.inr ⟨a, hab, e', he', hc⟩

end Healthy

/-- The step stores into an entry that was not present. -/
def Effect.Fills (d i : ℕ) : Effect → Prop
  | .map d₁ i₁ _ _ => d₁ = d ∧ i₁ = i
  | .copy _ d₂ i₁ _ _ _ | .copySwap _ d₂ i₁ _ _ => d₂ = d ∧ i₁ = i
  | _ => False

/-- An unused entry stays unused until a step fills it. -/
theorem zero_apply (h : Inv startMem endMem s) (hp : e.Pre s) (hd : d < 1024) (hi : i < 1024)
    (hz : s.mem.entry d i = .zero) (he : ¬ e.Fills d i) :
    (s.apply e).mem.entry d i = .zero := by
  rw [entry_apply h hp hd hi]
  have hne : ∀ {d₁ i₁ : ℕ} {e₁ : Pte}, s.mem.entry d₁ i₁ = e₁ → e₁ ≠ .zero →
      ¬ (d = d₁ ∧ i = i₁) := by
    rintro d₁ i₁ e₁ h1 h2 ⟨rfl, rfl⟩
    exact h2 (h1.symm.trans hz)
  cases e with
  | map =>
    rw [Effect.entryAfter, if_neg (fun hc => he ⟨hc.1.symm, hc.2.symm⟩), hz]
  | unmap => rw [Effect.entryAfter, if_neg (hne hp.2.2 (by simp)), hz]
  | unswap => rw [Effect.entryAfter, if_neg (hne hp.2.2 (by simp)), hz]
  | discard => rw [Effect.entryAfter, if_neg (hne hp.2.2.2 (by simp)), hz]
  | evict => rw [Effect.entryAfter, if_neg (hne hp.2.2.2.1 (by simp)), hz]
  | swapIn => rw [Effect.entryAfter, if_neg (hne hp.2.2.1 (by simp)), hz]
  | setRw => rw [Effect.entryAfter, if_neg (hne hp.2.2.1 (by simp)), hz]
  | cow => rw [Effect.entryAfter, if_neg (hne hp.2.2.1 (by simp)), hz]
  | store => rw [Effect.entryAfter, if_neg (hne hp.2.2 (by simp)), hz]
  | copy d₁ d₂ i₁ p rw dirty =>
    have h1 := hne hp.2.2.2.2.1 (by simp)
    have h2 : ¬ (d = d₂ ∧ i = i₁) := fun hc => he ⟨hc.1.symm, hc.2.symm⟩
    rw [Effect.entryAfter, if_neg (by tauto), hz]
  | copySwap d₁ d₂ i₁ nr q =>
    have h1 := hne hp.2.2.2.2.2.1 (by simp)
    have h2 : ¬ (d = d₂ ∧ i = i₁) := fun hc => he ⟨hc.1.symm, hc.2.symm⟩
    rw [Effect.entryAfter, if_neg h1, if_neg h2, hz]
  | _ => exact hz

theorem zero_of_steps {P : Effect → Prop} (h : Inv startMem endMem s) (ht : TraceOf P s s')
    (hd : d < 1024) (hi : i < 1024) (hz : s.mem.entry d i = .zero)
    (hP : ∀ e, P e → ¬ e.Fills d i) : s'.mem.entry d i = .zero :=
  (ht.invariant (I := fun s => Inv startMem endMem s ∧ s.mem.entry d i = .zero)
    (fun _ _ h hp he => ⟨h.1.apply hp, zero_apply h.1 hp hd hi h.2 (hP _ he)⟩) ⟨h, hz⟩).2

theorem Effect.Silent.not_fills (h : e.Silent) : ¬ e.Fills d i := by
  cases e <;> first | exact h.elim | exact fun hf => hf

theorem Effect.Frees.not_fills {R : ℕ → Prop} (h : e.Frees R) : ¬ e.Fills d i := by
  cases e <;> first | exact h.elim | exact fun hf => hf

theorem CopyStep.not_fills {R : ℕ → ℕ → ℕ → Prop} (h : CopyStep R e)
    (hR : ∀ d₁, ¬ R d₁ d i) : ¬ e.Fills d i := by
  rcases h with h | ⟨d₁, d₂, j, hr, h⟩
  · exact h.not_fills
  · cases e <;> first
      | exact h.elim
      | (obtain ⟨rfl, rfl, rfl⟩ := h; rintro ⟨rfl, rfl⟩; exact hR _ hr)
      | exact fun hf => hf

end Mm
