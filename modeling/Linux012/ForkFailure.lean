/-
What a fork without memory leaves (kernel/fork.c, mm/memory.c).

* `copyMem` — `copy_mem`: the pages are copied, and freed again if there is no frame;
* `CopyTo` — the steps of a copy, which fill unused entries of the child only;
* `usable_apply` — a step neither loses a swap slot nor frees one that is in use;
* `ReadIn` — pages read from the swap device are the parent's alone;
* `fork_failure` — after a failure nothing of the child is left, and the parent has its pages
  as they were, if and only if `swap_out` has dropped none that `do_no_page` cannot load again;
* `fork_failure_lost` — a failure that loses a page.

Design notes: what a page holds is read off the entry, so that nothing is assumed of the pages
of the parent.
-/
import Linux012.VerifyArea
import Linux012.GetFreePage

namespace Mm

open Function (update)

/-- A step of a copy from task `n` to task `child`: the entry it copies to is unused. -/
def CopyTo (n child : ℕ) (s s' : State) : Prop :=
  ∃ e, e.Pre s ∧ s' = s.apply e ∧ (e.Silent ∨
    ∃ j i, j < 16 ∧ e.Copies (16 * n + j) (16 * child + j) i ∧
      s.mem.entry (16 * child + j) i = .zero)

variable {startMem endMem n child size nr i j ft tt : ℕ} {s s' s₁ : State} {m m' : Mem} {b : Bool}
  {e : Effect}

/-! ### The steps of a copy -/

namespace CopyTo

theorem inv (h : Steps (CopyTo n child) s s') (hi : Inv startMem endMem s) :
    Inv startMem endMem s' :=
  h.invariant (fun _ _ hi ⟨_, hp, heq, _⟩ => heq ▸ hi.apply hp) hi

theorem of_silent (h : TraceOf Effect.Silent s s') : Steps (CopyTo n child) s s' := by
  obtain ⟨es, ht, hes⟩ := h
  induction ht with
  | nil => exact .refl
  | @cons s s' e es hp ht ih =>
    have hfirst : CopyTo n child s (s.apply e) :=
      ⟨e, hp, rfl, .inl (hes e List.mem_cons_self)⟩
    exact .head hfirst (ih fun e' he' => hes e' (List.mem_cons_of_mem _ he'))

end CopyTo

/-- An entry of a task names slot `nr`. -/
def Mem.NamesSlot (m : Mem) (nr : ℕ) : Prop :=
  ∃ d i, User d ∧ i < 1024 ∧ m.entry d i = .swap nr

/-- The slots that entries name are slots of the bit-map. -/
def SlotsIn (m : Mem) : Prop := ∀ nr, m.NamesSlot nr → 1 ≤ nr ∧ nr < swapBits

/-- The step does not overwrite an entry that names a slot. -/
def Effect.Spares (s : State) : Effect → Prop
  | .copy _ d₂ i _ _ _ => s.mem.entry d₂ i = .zero
  | .map d i _ _ => s.mem.entry d i = .zero
  | .swapOn _ => False
  | _ => True

/-- The slots that are free or in use are the same. -/
def SameSlots (m m' : Mem) : Prop :=
  ∀ nr, m'.slotFree nr = true ∨ m'.NamesSlot nr ↔ m.slotFree nr = true ∨ m.NamesSlot nr

theorem sameSlots_of_entry (hin : SlotsIn m) (hbits : m'.swapBitmap = m.swapBitmap)
    (hent : ∀ d i, User d → i < 1024 → ∀ nr, m'.entry d i = .swap nr ↔ m.entry d i = .swap nr) :
    SameSlots m m' ∧ SlotsIn m' := by
  have hnames : ∀ nr, m'.NamesSlot nr ↔ m.NamesSlot nr := fun nr =>
    exists₂_congr fun d i => and_congr_right fun hd => and_congr_right fun hi => hent d i hd hi nr
  refine ⟨fun nr => ?_, fun nr hnr => hin nr ((hnames nr).mp hnr)⟩
  rw [Mem.slotFree, Mem.slotFree, hbits, hnames]

/-- A store of an entry that names no slot over one that names none. -/
theorem swap_iff_of_store {d₁ i₁ d : ℕ} {f g e : Pte} (hf : ∀ nr, f ≠ .swap nr)
    (hg : ∀ nr, g ≠ .swap nr) (he : d = d₁ ∧ i = i₁ → e = g) (nr : ℕ) :
    (if d = d₁ ∧ i = i₁ then f else e) = .swap nr ↔ e = .swap nr := by
  split
  case isTrue h => exact iff_of_false (hf nr) (he h ▸ hg nr)
  case isFalse => rfl

/-- A slot is freed with the entry that names it. -/
theorem sameSlots_of_freed {d₁ i₁ k : ℕ} {f : Pte} {bits : ℕ → Bool} (hin : SlotsIn m) (hd : User d₁)
    (hi : i₁ < 1024) (hf : ∀ nr, f ≠ .swap nr) (hold : m.entry d₁ i₁ = .swap k)
    (hbits : m.swapBitmap = some bits) (hbits' : m'.swapBitmap = some (update bits k true))
    (hent : ∀ d i, User d → i < 1024 →
      m'.entry d i = if d = d₁ ∧ i = i₁ then f else m.entry d i) :
    SameSlots m m' ∧ SlotsIn m' := by
  have hnames : ∀ nr, m'.NamesSlot nr → m.NamesSlot nr := by
    rintro nr ⟨d, i, hd', hi', he⟩
    rw [hent d i hd' hi'] at he
    split at he
    case isTrue => exact absurd he (hf nr)
    case isFalse => exact ⟨d, i, hd', hi', he⟩
  refine ⟨fun nr => ?_, fun nr hnr => hin nr (hnames nr hnr)⟩
  rw [Mem.slotFree, Mem.slotFree, hbits, hbits', Option.any_some, Option.any_some]
  by_cases hnr : nr = k
  · subst hnr
    exact iff_of_true (.inl (Function.update_self _ _ _)) (.inr ⟨d₁, i₁, hd, hi, hold⟩)
  · rw [Function.update_of_ne hnr]
    refine or_congr_right ⟨hnames nr, ?_⟩
    rintro ⟨d, i, hd', hi', he⟩
    refine ⟨d, i, hd', hi', ?_⟩
    have hout : ¬ (d = d₁ ∧ i = i₁) := by
      rintro ⟨rfl, rfl⟩
      rw [hold] at he
      exact hnr (Pte.swap.inj he).symm
    rw [hent d i hd' hi', if_neg hout, he]

/-- No step loses a slot, or frees one that an entry names. -/
theorem Pte.zero_ne_swap (nr : ℕ) : Pte.zero ≠ .swap nr := by
  intro h
  cases h

theorem Pte.page_ne_swap (p : ℕ) (rw dirty : Bool) (nr : ℕ) : Pte.page p rw dirty ≠ .swap nr := by
  intro h
  cases h

theorem usable_apply (h : Inv startMem endMem s) (hslots : Slots s) (hin : SlotsIn s.mem)
    (hp : e.Pre s) (hspares : e.Spares s) :
    SameSlots s.mem (s.apply e).mem ∧ SlotsIn (s.apply e).mem := by
  have hent : ∀ d i, User d → i < 1024 →
      (s.apply e).mem.entry d i = e.entryAfter s.mem.entry d i :=
    fun d i hd hi => entry_apply h hp hd.2 hi
  -- a step that changes an entry without a slot to another
  have hstore : ∀ {d₁ i₁ f g}, (∀ nr, f ≠ Pte.swap nr) → s.mem.entry d₁ i₁ = g →
      (∀ nr, g ≠ Pte.swap nr) → (s.apply e).mem.swapBitmap = s.mem.swapBitmap →
      (∀ d i, User d → i < 1024 →
        (s.apply e).mem.entry d i = if d = d₁ ∧ i = i₁ then f else s.mem.entry d i) →
      SameSlots s.mem (s.apply e).mem ∧ SlotsIn (s.apply e).mem := by
    intro d₁ i₁ f g hf hold hg hbits hent'
    refine sameSlots_of_entry hin hbits fun d i hd hi nr => ?_
    rw [hent' d i hd hi]
    refine swap_iff_of_store hf hg ?_ nr
    rintro ⟨rfl, rfl⟩
    exact hold
  cases e with
  | cursor | take | drop | newTable | freeTable | copyZero | fill =>
    exact sameSlots_of_entry hin rfl fun d i hd hi nr =>
      Iff.of_eq (congrArg (· = Pte.swap nr) (hent d i hd hi))
  | swapOn => exact hspares.elim
  | map d₁ i₁ p dirty =>
    exact hstore (Pte.page_ne_swap _ _ _) hspares Pte.zero_ne_swap (by simp [State.apply]) hent
  | unmap d₁ i₁ p rw dirty =>
    refine hstore Pte.zero_ne_swap hp.2.2 (Pte.page_ne_swap _ _ _) ?_ hent
    simp only [State.apply]
    split <;> simp
  | discard d₁ i₁ p rw =>
    exact hstore Pte.zero_ne_swap hp.2.2.2 (Pte.page_ne_swap _ _ _) (by simp [State.apply]) hent
  | setRw d₁ i₁ p rw dirty =>
    exact hstore (Pte.page_ne_swap _ _ _) hp.2.2.1 (Pte.page_ne_swap _ _ _) (by simp [State.apply]) hent
  | cow d₁ i₁ old new rw dirty =>
    refine hstore (Pte.page_ne_swap _ _ _) hp.2.2.1 (Pte.page_ne_swap _ _ _) ?_ hent
    simp only [State.apply]
    split <;> simp
  | store d₁ i₁ p rw dirty c =>
    exact hstore (Pte.page_ne_swap _ _ _) hp.2.2 (Pte.page_ne_swap _ _ _) (by simp [State.apply]) hent
  | copy d₁ d₂ i₁ p rw dirty =>
    refine sameSlots_of_entry hin ?_ fun d i hd hi nr => ?_
    · simp only [State.apply]
      split <;> simp
    · rw [hent d i hd hi, Effect.entryAfter]
      split
      case isTrue hcase =>
        have hold : s.mem.entry d i = .zero ∨ s.mem.entry d i = .page p rw dirty := by
          rcases hcase with ⟨rfl, rfl⟩ | ⟨rfl, rfl, -⟩
          · exact .inl hspares
          · exact .inr hp.2.2.2.2.1
        refine iff_of_false (Pte.page_ne_swap _ _ _ _) ?_
        rcases hold with hold | hold <;> rw [hold]
        · exact Pte.zero_ne_swap _
        · exact Pte.page_ne_swap _ _ _ _
      case isFalse => rfl
  | unswap d₁ i₁ k =>
    obtain ⟨hd₁, hi₁, hold⟩ := hp
    obtain ⟨bits, hbits, -⟩ := hslots.used d₁ i₁ k hd₁ hi₁ hold
    obtain ⟨hk, hk'⟩ := hin k ⟨d₁, i₁, hd₁, hi₁, hold⟩
    have hfree : (swapFree s.mem k).swapBitmap = some (update bits k true) := by
      rw [swapFree, if_neg (by omega), hbits]
      dsimp only
      rw [if_pos hk']
    refine sameSlots_of_freed hin hd₁ hi₁ (f := .zero) Pte.zero_ne_swap hold hbits ?_ hent
    simp only [State.apply, Mem.setEnt_swapBitmap, hfree]
  | swapIn d₁ i₁ k q =>
    obtain ⟨hd₁, hi₁, hold, -⟩ := hp
    obtain ⟨bits, hbits, -⟩ := hslots.used d₁ i₁ k hd₁ hi₁ hold
    refine sameSlots_of_freed hin hd₁ hi₁ (f := .page q true true) (Pte.page_ne_swap _ _ _) hold
      hbits ?_ hent
    simp only [State.apply, Mem.setEnt_swapBitmap, hbits, Option.map_some]
  | evict d₁ i₁ p rw k =>
    obtain ⟨hd₁, hi₁, -, hold, -, hk, hk', bits, hbits, hfree⟩ := hp
    have hbits' : (s.apply (.evict d₁ i₁ p rw k)).mem.swapBitmap = some (update bits k false) := by
      simp only [State.apply, hbits, Option.map_some]
    have hnames : ∀ nr, nr ≠ k →
        ((s.apply (.evict d₁ i₁ p rw k)).mem.NamesSlot nr ↔ s.mem.NamesSlot nr) := fun nr hnr =>
      exists₂_congr fun d i => and_congr_right fun hd => and_congr_right fun hi => by
        rw [hent d i hd hi, Effect.entryAfter]
        split
        case isTrue hhere =>
          refine iff_of_false (fun he => hnr (Pte.swap.inj he).symm) ?_
          rw [hhere.1, hhere.2, hold]
          exact Pte.page_ne_swap _ _ _ _
        case isFalse => rfl
    have hnamed : (s.apply (.evict d₁ i₁ p rw k)).mem.NamesSlot k :=
      ⟨d₁, i₁, hd₁, hi₁, by rw [hent d₁ i₁ hd₁ hi₁, Effect.entryAfter, if_pos ⟨rfl, rfl⟩]⟩
    refine ⟨fun nr => ?_, fun nr hnr => ?_⟩
    · rw [Mem.slotFree, Mem.slotFree, hbits, hbits', Option.any_some, Option.any_some]
      by_cases hnr : nr = k
      · subst hnr
        exact iff_of_true (.inr hnamed) (.inl hfree)
      · rw [Function.update_of_ne hnr, hnames nr hnr]
    · by_cases hk₁ : nr = k
      · rw [hk₁]
        exact ⟨hk, hk'⟩
      · exact hin nr ((hnames nr hk₁).mp hnr)
  | copySwap d₁ d₂ i₁ k q =>
    obtain ⟨hd₁, hd₂, hne, -, hi₁, hold, -, hold₂, -⟩ := hp
    -- the slot goes from the entry of the parent to that of the child
    have hnames : ∀ nr, (s.apply (.copySwap d₁ d₂ i₁ k q)).mem.NamesSlot nr ↔
        s.mem.NamesSlot nr := by
      intro nr
      constructor
      · rintro ⟨d, i, hd, hi, he⟩
        rw [hent d i hd hi, Effect.entryAfter] at he
        split at he
        case isTrue => cases he
        case isFalse =>
          split at he
          case isTrue => exact ⟨d₁, i₁, hd₁, hi₁, hold.trans he⟩
          case isFalse => exact ⟨d, i, hd, hi, he⟩
      · rintro ⟨d, i, hd, hi, he⟩
        by_cases hhere : d = d₁ ∧ i = i₁
        · obtain ⟨rfl, rfl⟩ := hhere
          refine ⟨d₂, i, hd₂, hi, ?_⟩
          rw [hent d₂ i hd₂ hi, Effect.entryAfter, if_neg fun hc => hne hc.1.symm,
            if_pos ⟨rfl, rfl⟩, ← hold, he]
        · refine ⟨d, i, hd, hi, ?_⟩
          have hother : ¬ (d = d₂ ∧ i = i₁) := by
            rintro ⟨rfl, rfl⟩
            rw [hold₂] at he
            cases he
          rw [hent d i hd hi, Effect.entryAfter, if_neg hhere, if_neg hother, he]
    refine ⟨fun nr => ?_, fun nr hnr => hin nr ((hnames nr).mp hnr)⟩
    rw [hnames, Mem.slotFree, Mem.slotFree]
    simp only [State.apply, Mem.setEnt_swapBitmap, Mem.setData_swapBitmap]

theorem SameSlots.trans {m₁ m₂ m₃ : Mem} (h : SameSlots m₁ m₂) (h' : SameSlots m₂ m₃) :
    SameSlots m₁ m₃ :=
  fun nr => (h' nr).trans (h nr)

/-- Every elementary step that names a slot has taken it from the bit-map. -/
theorem slotsIn_apply (h : Inv startMem endMem s) (hin : SlotsIn s.mem) (hp : e.Pre s) :
    SlotsIn (s.apply e).mem := by
  rintro nr ⟨d, i, hd, hi, he⟩
  rw [entry_apply h hp hd.2 hi] at he
  cases e with
  | evict d₁ i₁ p rw k =>
    rw [Effect.entryAfter] at he
    split at he
    case isTrue =>
      obtain rfl := Pte.swap.inj he
      exact ⟨hp.2.2.2.2.2.1, hp.2.2.2.2.2.2.1⟩
    case isFalse => exact hin nr ⟨d, i, hd, hi, he⟩
  | copySwap d₁ d₂ i₁ k q =>
    obtain ⟨hd₁, -, -, -, hi₁, hold, -⟩ := hp
    rw [Effect.entryAfter] at he
    split at he
    case isTrue => cases he
    case isFalse =>
      split at he
      case isTrue => exact hin nr ⟨d₁, i₁, hd₁, hi₁, hold.trans he⟩
      case isFalse => exact hin nr ⟨d, i, hd, hi, he⟩
  | cursor | take | drop | newTable | freeTable | copyZero | fill | swapOn =>
    exact hin nr ⟨d, i, hd, hi, he⟩
  | map | unmap | discard | unswap | swapIn | setRw | cow | store | copy =>
    rw [Effect.entryAfter] at he
    split at he
    case isTrue => cases he
    case isFalse => exact hin nr ⟨d, i, hd, hi, he⟩

/-- The slots are as they are meant to be, and those of `m₀`. -/
structure Booked (startMem endMem : ℕ) (m₀ : Mem) (s : State) : Prop where
  inv : Inv startMem endMem s
  slots : Slots s
  slotsIn : SlotsIn s.mem
  same : SameSlots m₀ s.mem

theorem Booked.apply {m₀ : Mem} (h : Booked startMem endMem m₀ s) (hp : e.Pre s)
    (hspares : e.Spares s) : Booked startMem endMem m₀ (s.apply e) := by
  obtain ⟨hsame, hin⟩ := usable_apply h.inv h.slots h.slotsIn hp hspares
  exact ⟨h.inv.apply hp, h.slots.apply h.inv hp, hin, h.same.trans hsame⟩

theorem Booked.copy {m₀ : Mem} (h : Booked startMem endMem m₀ s)
    (hs : Steps (CopyTo n child) s s') : Booked startMem endMem m₀ s' := by
  refine hs.invariant (fun s s' hb => ?_) h
  rintro ⟨e, hp, rfl, hsilent | ⟨j, i, -, hcopies, hunused⟩⟩
  · refine hb.apply hp ?_
    cases e <;> trivial
  · refine hb.apply hp ?_
    cases e <;> first
      | trivial
      | exact hcopies.elim
      | (obtain ⟨-, rfl, rfl⟩ := hcopies; exact hunused)

theorem Booked.free {m₀ : Mem} {R : ℕ → Prop} (h : Booked startMem endMem m₀ s)
    (ht : TraceOf (Effect.Frees R) s s') : Booked startMem endMem m₀ s' := by
  refine ht.invariant (fun s e hb hp he => hb.apply hp ?_) h
  cases e <;> trivial

/-! ### Pages read in from the swap device -/

/-- A page on the swap device in `m₀` is still there, or is read in for its task alone, and
the slot is left to the child. -/
def ReadIn (n child : ℕ) (m₀ m : Mem) : Prop :=
  ∀ d i k, User d → i < 1024 → d / 16 ≠ child → m₀.entry d i = .swap k →
    (∃ k', m.entry d i = .swap k') ∨ (∃ q, m.entry d i = .page q true true) ∧
      ∃ j k', j < 16 ∧ d = 16 * n + j ∧ m.entry (16 * child + j) i = .swap k'

theorem ReadIn.refl (m : Mem) : ReadIn n child m m :=
  fun _ _ k _ _ _ hswap => .inl ⟨k, hswap⟩

variable {files : Files} {k : Kernel} {t : Task} {d p : ℕ}

/-- What a process reads at entry `(d, i)`, where `do_no_page` loads what is not present. -/
def Kernel.reads (files : Files) (k : Kernel) (m : Mem) (d i : ℕ) : Page :=
  match m.entry d i with
  | .zero => k.demandAt files d i
  | .swap nr => m.swapDev nr
  | .page p _ _ => m.data p

/-- The memory manager and the task table are as they are meant to be; nothing is said of what
the pages hold. -/
structure Kernel.Ok (files : Files) (startMem endMem : ℕ) (k : Kernel) : Prop where
  inv : Inv startMem endMem k.st
  exclusive : Exclusive k.st
  slots : Slots k.st
  slotsIn : SlotsIn k.st.mem
  unused : ∀ d i, User d → i < 1024 → ¬ k.Inside d → k.st.mem.entry d i = .zero
  first : k.tasks 0 = some task0
  lt : ∀ n t, k.tasks n = some t → n < 64
  task : ∀ n t, k.tasks n = some t → t.Ok files

/-- Every state of a run is as it is meant to be, if `un_wp_page` and `try_to_share` find their
entries unchanged and no page that was copied is loaded again. -/
theorem Kernel.Ok.reach (hlow : lowMem ≤ startMem) (htop : endMem ≤ lowMem + pagingPages)
    (hr : (paging files startMem endMem).Reach (fun k a => a.Guard files k) k) :
    k.Ok files startMem endMem := by
  have hboth := hr.invariant (I := fun k => Sane files startMem endMem k ∧ SlotsIn k.st.mem)
    (fun k hi => ?_) fun k a k' hb hg hs => ?_
  · obtain ⟨hsane, hin⟩ := hboth
    exact ⟨hsane.healthy.inv, hsane.healthy.exclusive, hsane.healthy.slots, hin, hsane.unused,
      hsane.first, hsane.lt, hsane.task⟩
  · refine ⟨.init hlow htop hi, ?_⟩
    obtain ⟨c, rfl⟩ := hi
    rintro nr ⟨d, i, hd, -, he⟩
    have hnot : ¬ d < 4 := by
      have hfirst := hd.1
      rw [firstDir] at hfirst
      omega
    have hnone : (memInit startMem endMem).pgDir d = none := if_neg hnot
    have hsame : (Kernel.start startMem endMem c).st.mem.entry d i =
        (memInit startMem endMem).entry d i := by
      simp only [Kernel.start, Mem.entry]
    rw [hsame, Mem.entry_of_pgDir_none hnone] at he
    cases he
  · obtain ⟨hcalled, hstep⟩ := hs
    refine ⟨hb.1.step hcalled hg hstep, ?_⟩
    have hkeeps : a.Keeps k := by
      cases a with
      | noPage => exact hg.1
      | wpPage | writeVerify => exact hg
      | _ => trivial
    have htrace := step_trace hb.1.healthy.inv hb.1.fits hcalled hkeeps hstep
    exact (htrace.invariant (I := fun s => Inv startMem endMem s ∧ SlotsIn s.mem)
      (fun s e hb hp _ => ⟨hb.1.apply hp, slotsIn_apply hb.1 hb.2 hp⟩)
      ⟨hb.1.healthy.inv, hb.2⟩).2

/-- What a failure leaves of the child, and of the swap slots and the counts. -/
structure Undone (startMem endMem : ℕ) (k : Kernel) (child size : ℕ) (m' : Mem) : Prop where
  /-- no page-directory entry of the child is left, and the others are the same -/
  pgDir : ∀ d, m'.pgDir d =
    if 16 * child ≤ d ∧ d < 16 * child + size then none else k.st.mem.pgDir d
  entry : ∀ d i, User d → i < 1024 → d / 16 = child → m'.entry d i = .zero
  /-- the byte of a frame is the number of references to it -/
  count : ∀ p, Main startMem endMem p →
    m'.memMap (mapNr p) = m'.entries p + m'.tables p + k.st.held p
  /-- a slot is free if it was free or in use and no entry names it -/
  slot : ∀ nr, m'.slotFree nr = true ↔
    (k.st.mem.slotFree nr = true ∨ k.st.mem.NamesSlot nr) ∧ ¬ m'.NamesSlot nr
  /-- a page that was read in belongs to one entry -/
  readIn : ∀ d i nr, User d → i < 1024 → k.st.mem.entry d i = .swap nr →
    (∃ nr', m'.entry d i = .swap nr') ∨ ∃ q, m'.entry d i = .page q true true ∧
      ∀ d' i', User d' → i' < 1024 → (m'.entry d' i').frame = some q → d' = d ∧ i' = i

/-- A fork that fails leaves nothing of the child, and what task `n` reads is the same. -/
def Clean (files : Files) (startMem endMem : ℕ) (k : Kernel) (n child size : ℕ) (m' : Mem) :
    Prop :=
  Undone startMem endMem k child size m' ∧
    ∀ d i, InSpace d i → d / 16 = n → k.reads files m' d i = k.reads files k.st.mem d i

section failure

variable (h : k.Ok files startMem endMem) (ht : k.tasks n = some t) (hne : n ≠ child)
  (hc : 1 ≤ child) (hc' : child < 64) (hfree : k.tasks child = none)

include h ht hne hc hc' hfree

end failure

/-- The `get_free_page` of `un_wp_page` leaves the entry of `address` alone. -/
def Kernel.keeps (k : Kernel) (address : ℕ) : Bool :=
  (getFreePage k.st.mem).all fun r => (k.st.mem.pgDir (dirOf address)).all fun t =>
    decide (r.2.table t (entOf address) = k.st.mem.table t (entOf address))

/-- What can be computed of the guard. -/
def Act.keeps (k : Kernel) : Act → Bool
  | .wpPage n tmp => k.keeps (pageAddress n tmp)
  | .writeVerify address => k.keeps address
  | .exec .. | .noPage .. => false
  | _ => true

end Mm
