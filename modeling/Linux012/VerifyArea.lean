/-
The stores of the kernel to user memory (`verify_area` of kernel/fork.c, and the
`put_fs` of the calls that use it).

* `Call`, `Machine`, `Event` — system calls between their `verify_area` and their
  last store, among the steps of all other processes;
* `Private` — a page that a call has checked is not read-only when it is present;
* `putFs_private` — in every run in which the size does not overflow and no page
  of a buffer in use is shared, the kernel stores to pages that nothing else maps;
* `putFs_shared` — a run in which the size overflows, nothing is checked, and the
  store goes to a page of the kernel that the process has read-only.

Design notes: `verify_area` is taken round by round, since `un_wp_page` can sleep
in the `get_free_page` of any round.  A call can end at any time.
-/
import Linux012.Paging

namespace Mm

open Function (update)

/-- A system call between its `verify_area(addr, size)` and its last store. -/
structure Call where
  addr : ℕ
  size : ℕ
  /-- `start`, in pages -/
  start : ℕ
  /-- what the loop has left of its `size`, a signed int -/
  left : ℤ

namespace Call

/-- `verify_area(addr, size)` for task `n`, before its loop. -/
def enter (n addr size : ℕ) : Call where
  addr := addr
  size := size
  start := (taskSize * n + addr / 4096) % 2 ^ 20
  left := Int.bmod (size + addr % 4096) (2 ^ 32)

/-- One round of the loop, after its `write_verify`. -/
def next (c : Call) : Call := { c with start := (c.start + 1) % 2 ^ 20, left := c.left - 4096 }

/-- The loop has ended, and byte `a` is in the buffer. -/
def Stores (c : Call) (a : ℕ) : Prop := c.left ≤ 0 ∧ c.addr ≤ a ∧ a < c.addr + c.size

/-- Page `tmp` has a part of the buffer, and the loop is past it. -/
def Checked (c : Call) (tmp : ℕ) : Prop :=
  c.addr / 4096 ≤ tmp ∧ tmp * 4096 < c.addr + c.size ∧ c.left ≤ c.addr + c.size - 4096 * (tmp + 1)

end Call

/-- The kernel with the calls in progress, one for each task at most. -/
structure Machine where
  k : Kernel
  call : ℕ → Option Call

/-- A step of the machine. -/
inductive Event where
  | act (a : Act)
  /-- task `n` calls `verify_area(addr, size)` -/
  | enter (n addr size : ℕ)
  /-- a round of the loop -/
  | verify (n : ℕ)
  /-- `put_fs` finds no page at byte `a` -/
  | fault (n a iCount : ℕ)
  /-- `put_fs` stores byte `a` -/
  | putFs (n a : ℕ) (byte : UInt8)
  | leave (n : ℕ)

/-- The task that makes a step. -/
def Act.task : Act → Option ℕ
  | .fork n _ | .exit n | .exec n _ | .uselib n _ | .argPage n _ _ | .noPage n _ _ | .wpPage n _
  | .store n _ _ _ => some n
  | _ => none

/-- A task in a system call does nothing else; the processor checks the limit of
the segment also for the kernel. -/
def Event.Called (files : Files) (s : Machine) : Event → Prop
  | .act a => a.Called files s.k ∧ ∀ n, a.task = some n → s.call n = none
  | .enter n addr size => 1 ≤ n ∧ (s.k.tasks n).isSome ∧ s.call n = none ∧ addr < 2 ^ 32 ∧
      size < 2 ^ 31
  | .verify n => ∃ c, s.call n = some c ∧ 0 < c.left
  | .fault n a _ => ∃ c, s.call n = some c ∧ c.Stores a ∧ s.k.Within n (a / 4096) ∧
      (s.k.pte n (a / 4096)).frame = none
  | .putFs n a _ => ∃ c, s.call n = some c ∧ c.Stores a ∧ s.k.Within n (a / 4096)
  | .leave _ => True

/-- The machine after a step.  At privilege level 0 the processor stores through a
read-only entry as well, and sets `PAGE_DIRTY`. -/
def Machine.step (files : Files) (s : Machine) : Event → Option Machine
  | .act a => (s.k.step files a).map fun k => { s with k := k }
  | .enter n addr size => some { s with call := update s.call n (some (.enter n addr size)) }
  | .verify n => (s.call n).bind fun c => (writeVerify s.k.st.mem c.start).map fun (r, m) =>
      { k := s.k.withMem m
        call := update s.call n (if r = .returned then some c.next else none) }
  | .fault n a iCount => (s.k.step files (.noPage n (a / 4096) iCount)).map fun k =>
      { s with k := k }
  | .putFs n a byte => match s.k.pte n (a / 4096) with
    | .page p rw _ => some { s with
        k := s.k.withMem ((s.k.st.mem.setData p (update (s.k.st.mem.data p)
          ⟨a % 4096, Nat.mod_lt _ (by decide)⟩ byte)).setEnt (pageDir n (a / 4096))
            (a / 4096 % 1024) (.page p rw true)) }
    | _ => none
  | .leave n => some { s with call := update s.call n none }

/-- The runs from `mem_init` on, with no call in progress. -/
def calls (files : Files) (startMem endMem : ℕ) : System Machine Event where
  init s := (paging files startMem endMem).init s.k ∧ s.call = fun _ => none
  step s e s' := e.Called files s ∧ s.step files e = some s'

/-- `un_wp_page` and `try_to_share` find the entry they have read unchanged. -/
def Act.Keeps (k : Kernel) : Act → Prop
  | .noPage n tmp _ => ShareKeeps k.st.mem n tmp
  | .wpPage n tmp => UnWpKeeps k.st.mem (pageAddress n tmp)
  | .writeVerify address => UnWpKeeps k.st.mem address
  | _ => True

/-- The size of a buffer does not overflow when the offset is added, and no page
of a buffer that has been checked is shared. -/
def Event.Guard (s : Machine) : Event → Prop
  | .act a => a.Keeps s.k ∧ match a with
    | .noPage n tmp iCount => ∀ n' c, s.k.Shareable n tmp iCount n' → s.call n' = some c →
        ¬ c.Checked tmp
    | _ => True
  | .enter _ addr size => size + addr % 4096 < 2 ^ 31
  | .verify n => ∀ c, s.call n = some c → UnWpKeeps s.k.st.mem c.start
  | .fault n a iCount => ShareKeeps s.k.st.mem n (a / 4096) ∧
      ∀ n', ¬ s.k.Shareable n (a / 4096) iCount n'
  | _ => True

variable {files : Files} {startMem endMem : ℕ} {k k' : Kernel} {st st' : State} {e : Effect}
  {m' : Mem} {t : Task} {n tmp d i : ℕ}

/-! ### Pages that are not read-only -/

/-- The step may make entry `(d, i)` read-only. -/
def Effect.Protects (d i : ℕ) : Effect → Prop
  | .copy d₁ d₂ i₁ _ _ _ => i = i₁ ∧ (d = d₁ ∨ d = d₂)
  | _ => False

/-- The entry is not present and read-only. -/
def Pte.Open (e : Pte) : Prop := ∀ p dirty, e ≠ .page p false dirty

theorem open_apply (h : Inv startMem endMem st) (hp : e.Pre st) (hd : d < 1024) (hi : i < 1024)
    (ho : (st.mem.entry d i).Open) (hn : ¬ e.Protects d i) :
    ((st.apply e).mem.entry d i).Open := by
  rw [entry_apply h hp hd hi]
  cases e with
  | copy d₁ d₂ i₁ p rw dirty =>
    have hne : ¬ (d = d₂ ∧ i = i₁ ∨ d = d₁ ∧ i = i₁ ∧ lowMem ≤ p) := by
      simp only [Effect.Protects] at hn
      tauto
    rw [Effect.entryAfter, if_neg hne]
    exact ho
  | store d₁ i₁ p rw dirty c =>
    rw [Effect.entryAfter]
    by_cases h1 : d = d₁ ∧ i = i₁
    · -- the entry keeps its PAGE_RW
      rw [if_pos h1]
      rintro q dirty' ⟨⟩
      obtain ⟨rfl, rfl⟩ := h1
      exact ho p dirty hp.2.2
    · rw [if_neg h1]
      exact ho
  | copySwap d₁ d₂ i₁ nr q =>
    rw [Effect.entryAfter]
    split
    · rintro _ _ ⟨⟩
    · split
      · rintro _ _ ⟨⟩
      · exact ho
  | map | unmap | unswap | discard | evict | swapIn | setRw | cow =>
    rw [Effect.entryAfter]
    split
    · rintro _ _ ⟨⟩
    · exact ho
  | _ => exact ho

theorem open_of_steps {P : Effect → Prop} (h : Inv startMem endMem st) (ht : TraceOf P st st')
    (hd : d < 1024) (hi : i < 1024) (ho : (st.mem.entry d i).Open)
    (hP : ∀ e, P e → ¬ e.Protects d i) : (st'.mem.entry d i).Open :=
  (ht.invariant (I := fun s => Inv startMem endMem s ∧ (s.mem.entry d i).Open)
    (fun _ _ h hp he => ⟨h.1.apply hp, open_apply h.1 hp hd hi h.2 (hP _ he)⟩) ⟨h, ho⟩).2

theorem Effect.Silent.not_protects (h : e.Silent) : ¬ e.Protects d i := by
  cases e <;> first | exact h.elim | exact fun hp => hp

theorem Effect.Frees.not_protects {R : ℕ → Prop} (h : e.Frees R) : ¬ e.Protects d i := by
  cases e <;> first | exact h.elim | exact fun hp => hp

/-! ### What each step can make read-only -/

/-- The entries that a step can make read-only: fork those of the parent and the
child, a page fault those of a page that is shared. -/
def Act.Protects (k : Kernel) (d i : ℕ) : Act → Prop
  | .fork n child => d / 16 = n ∨ d / 16 = child
  | .noPage n tmp iCount => i = tmp % 1024 ∧
      ∃ n', k.Shareable n tmp iCount n' ∧ (d = pageDir n' tmp ∨ d = pageDir n tmp)
  | _ => False

/-- The elementary steps of a step protect nothing else. -/
def Act.Makes (k : Kernel) (a : Act) (e : Effect) : Prop := ∀ d i, e.Protects d i → a.Protects k d i

namespace Act.Makes

variable {a : Act}

theorem of_silent (h : TraceOf Effect.Silent st st') : TraceOf (a.Makes k) st st' :=
  h.mono fun _ he _ _ hp => (he.not_protects hp).elim

theorem of_frees {R : ℕ → Prop} (h : TraceOf (Effect.Frees R) st st') :
    TraceOf (a.Makes k) st st' :=
  h.mono fun _ he _ _ hp => (he.not_protects hp).elim

/-- One elementary step after silent ones. -/
theorem of_last {st₁ : State} (h : TraceOf Effect.Silent st st₁) (hp : e.Pre st₁)
    (he : a.Makes k e) (heq : st' = st₁.apply e) : TraceOf (a.Makes k) st st' :=
  (of_silent h).trans (.one hp he heq)

/-- `un_wp_page` protects nothing. -/
theorem of_unWp {r : Ended} (h : UnWpEnd d i st r m') :
    TraceOf (a.Makes k) st ⟨m', st.held⟩ := by
  rcases h with ⟨-, htrace⟩ | ⟨-, p, rw, dirty, hp, heq⟩ |
    ⟨-, st₁, old, new, rw, dirty, -, -, htrace, hp, heq⟩
  · exact of_silent htrace
  · exact .one hp (fun _ _ hp => hp.elim) heq
  · exact of_last htrace hp (fun _ _ hp => hp.elim) heq

end Act.Makes

/-- `free_page_tables` frees entries and tables. -/
theorem freePageTables_trace {dir size : ℕ} (h : Inv startMem endMem st) (hne : dir ≠ 0)
    (hd : ∀ j, j < (size + 1023) / 1024 → User (dir + j))
    (hr : freePageTables st.mem dir size = some m') :
    ∃ R, TraceOf (Effect.Frees R) st ⟨m', st.held⟩ := by
  rw [freePageTables, if_neg hne] at hr
  exact ⟨_, (freeTables_trace _ h hd hr).1⟩

/-- The elementary steps of `free_page_tables` on the space of a task, twice. -/
theorem freeTwice_trace {m₁ m₂ : Mem} (h : Inv startMem endMem k.st) (hf : Fits k) (hn : 1 ≤ n)
    (ht : k.tasks n = some t) (h₁ : freePageTables k.st.mem (16 * n) t.limit = some m₁)
    (h₂ : freePageTables m₁ (16 * n) t.limit = some m₂) (a : Act) :
    TraceOf (a.Makes k) k.st ⟨m₂, k.st.held⟩ := by
  have hd : ∀ j, j < (t.limit + 1023) / 1024 → User (16 * n + j) :=
    fun j hj => hf.user_of_lt ht hn (hf.lt n t ht) hj
  obtain ⟨R, hR⟩ := freePageTables_trace h (by omega) hd h₁
  have hinv : Inv startMem endMem ⟨m₁, k.st.held⟩ := hR.inv h
  obtain ⟨R', hR'⟩ := freePageTables_trace hinv (by omega) hd h₂
  exact (Act.Makes.of_frees hR).trans (Act.Makes.of_frees hR')

/-- Every step is made of elementary steps that protect only what it can. -/
theorem step_trace {a : Act} (h : Inv startMem endMem k.st) (hf : Fits k)
    (hc : a.Called files k) (hk : a.Keeps k) (hs : k.step files a = some k') :
    TraceOf (a.Makes k) k.st k'.st := by
  cases a with
  | fork n child =>
    obtain ⟨hne, -, hc₁, hc₂, -⟩ := hc
    obtain ⟨t, ht, hs⟩ := Option.bind_eq_some_iff.mp hs
    obtain ⟨⟨b, m⟩, hr, hs⟩ := Option.bind_eq_some_iff.mp hs
    -- what is copied belongs to the parent or to the child
    have hcopies : ∀ e, CopyStep (Copying n child t.limit) e →
        (Act.fork n child).Makes k e := by
      rintro e (he | ⟨d₁, d₂, j, ⟨x, hx, rfl, rfl, -⟩, he⟩) d i hp
      · exact (he.not_protects hp).elim
      · have hlim := hf.limit n t ht
        simp only [taskSize] at hlim
        cases e with
        | copy =>
          obtain ⟨rfl, rfl, rfl⟩ := he
          rcases hp with ⟨-, rfl | rfl⟩
          · exact Or.inl (by omega)
          · exact Or.inr (by omega)
        | _ => exact hp.elim
    have hend := hf.copyEnd h ht hne hc₁ hc₂ hr
    cases b with
    | true =>
      obtain rfl := Option.some.inj hs
      rcases hend with ⟨-, hend⟩ | ⟨hfalse, -⟩
      · exact hend.traceOf.mono hcopies
      · cases hfalse
    | false =>
      obtain ⟨m', hr', rfl⟩ := Option.map_eq_some_iff.mp hs
      rcases hend with ⟨htrue, -⟩ | ⟨-, hend⟩
      · cases htrue
      · have hinv : Inv startMem endMem ⟨m, k.st.held⟩ := hend.inv h
        obtain ⟨R, hR⟩ := freePageTables_trace hinv (by omega)
          (fun j hj => hf.user_of_lt ht hc₁ hc₂ hj) hr'
        exact (hend.mono hcopies).trans (Act.Makes.of_frees hR)
  | exit n =>
    obtain ⟨t, ht, hs⟩ := Option.bind_eq_some_iff.mp hs
    obtain ⟨m₁, h₁, hs⟩ := Option.bind_eq_some_iff.mp hs
    obtain ⟨m₂, h₂, rfl⟩ := Option.map_eq_some_iff.mp hs
    exact freeTwice_trace h hf hc.1 ht h₁ h₂ _
  | exec n inode =>
    obtain ⟨t, ht, hs⟩ := Option.bind_eq_some_iff.mp hs
    obtain ⟨x, -, hs⟩ := Option.bind_eq_some_iff.mp hs
    obtain ⟨m₁, h₁, hs⟩ := Option.bind_eq_some_iff.mp hs
    obtain ⟨m₂, h₂, rfl⟩ := Option.map_eq_some_iff.mp hs
    exact freeTwice_trace h hf hc.1 ht h₁ h₂ _
  | uselib n library =>
    obtain ⟨hn, t, ht, -⟩ := hc
    obtain ⟨t', -, hs⟩ := Option.bind_eq_some_iff.mp hs
    obtain ⟨m, hr, rfl⟩ := Option.map_eq_some_iff.mp hs
    have hlt := hf.lt n t ht
    obtain ⟨R, hR⟩ := freePageTables_trace h (by omega)
      (fun j hj => ⟨by simp only [firstDir]; omega, by omega⟩) hr
    exact Act.Makes.of_frees hR
  | argPage n tmp p =>
    obtain ⟨hw, hheld, hnone⟩ := hc
    obtain ⟨⟨r, m⟩, hr, rfl⟩ := Option.map_eq_some_iff.mp hs
    obtain ⟨-, -, -, huser, -⟩ := hf.page_of_within hw
    have hlow := h.lowMem_le (h.heldOne p hheld).1
    rcases putPageWith_trace h (by rw [dirOf_pageAddress]; exact huser)
      (by rw [dirOf_pageAddress, entOf_pageAddress]; exact hnone) hheld hr with
      ⟨rfl, htrace⟩ | ⟨rfl, st₁, htrace, -, hp, heq⟩
    · exact Act.Makes.of_silent htrace
    · have hne : r ≠ 0 := fun hc => absurd hlow (by rw [hc]; decide)
      show TraceOf _ _ (Kernel.st (if r = 0 then _ else _))
      rw [if_neg hne]
      exact Act.Makes.of_last htrace hp (fun _ _ hp => hp.elim) heq
  | noPage n tmp iCount =>
    obtain ⟨hw, hnone⟩ := hc
    obtain ⟨t, ht, hs⟩ := Option.bind_eq_some_iff.mp hs
    obtain ⟨⟨r, m⟩, hr, rfl⟩ := Option.map_eq_some_iff.mp hs
    obtain ⟨hn, hn', htmp, -, -⟩ := hf.page_of_within hw
    rcases doNoPage_trace h hn hn' htmp hnone hk hr with
      htrace | ⟨st₁, p, -, htrace, -, hp, heq⟩ |
      ⟨n', t', st₁, p, rw, hcount, -, -, hne, ht', hfile, hsrc, hzero, hlow, hpage, htrace, hp,
        heq⟩ |
      ⟨st₁, nr, q, htrace, hp, heq⟩
    · exact Act.Makes.of_silent htrace
    · exact Act.Makes.of_last htrace hp (fun _ _ hp => hp.elim) heq
    · refine Act.Makes.of_last htrace hp ?_ heq
      rintro d i ⟨rfl, hd⟩
      exact ⟨rfl, n', ⟨hcount, hne, hzero, t, t', p, rw, ht, hsrc, ht', hfile, hlow, hpage⟩, hd⟩
    · exact Act.Makes.of_last htrace hp (fun _ _ hp => hp.elim) heq
  | wpPage n tmp =>
    obtain ⟨hw, p, dirty, he⟩ := hc
    obtain ⟨⟨r, m⟩, hr, rfl⟩ := Option.map_eq_some_iff.mp hs
    obtain ⟨-, -, -, huser, -⟩ := hf.page_of_within hw
    exact Act.Makes.of_unWp (doWpPage_trace h (by rw [dirOf_pageAddress]; exact huser)
      (by rw [dirOf_pageAddress, entOf_pageAddress]; exact he) hk hr)
  | writeVerify address =>
    obtain ⟨⟨r, m⟩, hr, rfl⟩ := Option.map_eq_some_iff.mp hs
    rcases writeVerify_trace h hc hk hr with ⟨-, rfl, -⟩ | ⟨-, -, hend⟩
    · exact .refl _
    · exact Act.Makes.of_unWp hend
  | store n tmp b byte =>
    obtain ⟨-, -, -, huser, hi⟩ := hf.page_of_within hc
    rcases he : k.pte n tmp with _ | nr | ⟨p, _ | _, dirty⟩
    case page.true =>
      simp only [Kernel.step, he] at hs
      obtain rfl := Option.some.inj hs
      exact .one (e := .store (pageDir n tmp) (tmp % 1024) p true dirty _) ⟨huser, hi, he⟩
        (fun _ _ hp => hp.elim) rfl
    all_goals simp [Kernel.step, he] at hs
  | swapOut =>
    obtain ⟨⟨b, m⟩, hr, rfl⟩ := Option.map_eq_some_iff.mp hs
    exact Act.Makes.of_silent ((swapOut_trace h.cursor hr).mono fun _ he => he.silent)
  | getFreePage =>
    obtain ⟨⟨p, m⟩, hr, rfl⟩ := Option.map_eq_some_iff.mp hs
    rcases getFreePage_trace h hr with ⟨rfl, htrace, -⟩ | ⟨hne, hgot⟩
    · exact Act.Makes.of_silent htrace
    · show TraceOf _ _ ⟨m, if p = 0 then _ else _⟩
      rw [if_neg hne]
      exact Act.Makes.of_silent hgot.trace
  | freePage p =>
    obtain ⟨m, hr, rfl⟩ := Option.map_eq_some_iff.mp hs
    by_cases hlow : p < lowMem
    · rw [freePage_low hlow] at hr
      obtain rfl := Option.some.inj hr
      show TraceOf _ _ ⟨_, if p < lowMem then _ else _⟩
      rw [if_pos hlow]
      exact .refl _
    · show TraceOf _ _ ⟨_, if p < lowMem then _ else _⟩
      rw [if_neg hlow]
      obtain ⟨-, -, rfl⟩ := freePage_eq (by omega) hr
      exact .one (e := .drop p) (hc.resolve_right hlow) (fun _ _ hp => hp.elim) rfl
  | fill p c =>
    obtain rfl := Option.some.inj hs
    exact .one (e := .fill p c) hc (fun _ _ hp => hp.elim) rfl
  | initSwapping bits =>
    obtain rfl := Option.some.inj hs
    exact .one (e := .swapOn bits) hc (fun _ _ hp => hp.elim) rfl

/-- What a step does to the task table: it starts, replaces or ends one task. -/
theorem tasks_of_step {a : Act} (hf : Fits k) (hc : a.Called files k)
    (hs : k.step files a = some k') : k'.tasks = k.tasks ∨
      ∃ n o, 1 ≤ n ∧ n < 64 ∧ k'.tasks = update k.tasks n o ∧
        (∀ t, o = some t → t.limit ≤ taskSize) ∧ (o = none → a.task = some n) := by
  have hsome : ∀ {t t' : Task}, t.limit ≤ taskSize → some t = some t' → t'.limit ≤ taskSize := by
    rintro t t' h ⟨⟩
    exact h
  cases a with
  | fork n child =>
    obtain ⟨-, -, hc₁, hc₂, -⟩ := hc
    obtain ⟨t, ht, hs⟩ := Option.bind_eq_some_iff.mp hs
    obtain ⟨⟨b, m⟩, -, hs⟩ := Option.bind_eq_some_iff.mp hs
    cases b with
    | true =>
      obtain rfl := Option.some.inj hs
      exact Or.inr ⟨child, some t, hc₁, hc₂, rfl, fun _ => hsome (hf.limit n t ht),
        fun hnone => nomatch hnone⟩
    | false =>
      obtain ⟨m', -, rfl⟩ := Option.map_eq_some_iff.mp hs
      exact Or.inl rfl
  | exit n =>
    obtain ⟨t, ht, hs⟩ := Option.bind_eq_some_iff.mp hs
    obtain ⟨m₁, -, hs⟩ := Option.bind_eq_some_iff.mp hs
    obtain ⟨m₂, -, rfl⟩ := Option.map_eq_some_iff.mp hs
    exact Or.inr ⟨n, none, hc.1, hf.lt n t ht, rfl, fun _ hc => (nomatch hc), fun _ => rfl⟩
  | exec n inode =>
    obtain ⟨t, ht, hs⟩ := Option.bind_eq_some_iff.mp hs
    obtain ⟨x, -, hs⟩ := Option.bind_eq_some_iff.mp hs
    obtain ⟨m₁, -, hs⟩ := Option.bind_eq_some_iff.mp hs
    obtain ⟨m₂, -, rfl⟩ := Option.map_eq_some_iff.mp hs
    exact Or.inr ⟨n, _, hc.1, hf.lt n t ht, rfl, fun _ => hsome (le_refl _),
      fun hnone => nomatch hnone⟩
  | uselib n library =>
    obtain ⟨t, ht, hs⟩ := Option.bind_eq_some_iff.mp hs
    obtain ⟨m, -, rfl⟩ := Option.map_eq_some_iff.mp hs
    have hlim : ({ t with library := library } : Task).limit ≤ taskSize := hf.limit n t ht
    exact Or.inr ⟨n, _, hc.1, hf.lt n t ht, rfl, fun _ => hsome hlim, fun hnone => nomatch hnone⟩
  | argPage n tmp p =>
    obtain ⟨⟨r, m⟩, -, rfl⟩ := Option.map_eq_some_iff.mp hs
    refine Or.inl ?_
    show (if r = 0 then _ else _ : Kernel).tasks = _
    split <;> rfl
  | noPage n tmp iCount =>
    obtain ⟨t, -, hs⟩ := Option.bind_eq_some_iff.mp hs
    obtain ⟨⟨r, m⟩, -, rfl⟩ := Option.map_eq_some_iff.mp hs
    exact Or.inl rfl
  | store n tmp b byte =>
    simp only [Kernel.step] at hs
    split at hs
    · obtain rfl := Option.some.inj hs
      exact Or.inl rfl
    · cases hs
  | wpPage n tmp | writeVerify n | swapOut | getFreePage =>
    obtain ⟨⟨r, m⟩, -, rfl⟩ := Option.map_eq_some_iff.mp hs
    exact Or.inl rfl
  | freePage p =>
    obtain ⟨m, -, rfl⟩ := Option.map_eq_some_iff.mp hs
    exact Or.inl rfl
  | fill p c | initSwapping bits =>
    obtain rfl := Option.some.inj hs
    exact Or.inl rfl

theorem Fits.withMem (h : Fits k) : Fits (k.withMem m') := ⟨h.first, h.lt, h.limit⟩

theorem Fits.step {a : Act} (hf : Fits k) (hc : a.Called files k)
    (hs : k.step files a = some k') : Fits k' := by
  rcases tasks_of_step hf hc hs with heq | ⟨n, o, hn, hn', heq, hlim, -⟩
  · refine ⟨?_, ?_, ?_⟩
    · rw [heq]
      exact hf.first
    · rw [heq]
      exact hf.lt
    · rw [heq]
      exact hf.limit
  · have hother : ∀ m, m ≠ n → k'.tasks m = k.tasks m := by
      intro m hm
      rw [heq, Function.update_of_ne hm]
    have hself : k'.tasks n = o := by rw [heq, Function.update_self]
    refine ⟨(hother 0 (by omega)).trans hf.first, fun m t ht => ?_, fun m t ht => ?_⟩
    · by_cases hm : m = n
      · omega
      · exact hf.lt m t ((hother m hm).symm.trans ht)
    · by_cases hm : m = n
      · rw [hm, hself] at ht
        exact hlim t ht
      · exact hf.limit m t ((hother m hm).symm.trans ht)

/-- A step of another task ends no task. -/
theorem alive_of_step {a : Act} (hf : Fits k) (hc : a.Called files k)
    (hs : k.step files a = some k') (hn : (k.tasks n).isSome) (ha : a.task ≠ some n) :
    (k'.tasks n).isSome := by
  rcases tasks_of_step hf hc hs with heq | ⟨m, o, -, -, heq, -, hnone⟩
  · rw [heq]
    exact hn
  · by_cases hm : n = m
    · rw [heq, hm, Function.update_self]
      rcases o with _ | t
      · exact absurd (hm ▸ hnone rfl) ha
      · rfl
    · rw [heq, Function.update_of_ne hm]
      exact hn

/-! ### The invariant -/

/-- After `r` rounds of the loop: its variables have not overflowed. -/
def Call.Loop (c : Call) (n : ℕ) : Prop :=
  ∃ r : ℕ, c.start = (taskSize * n + c.addr / 4096 + r) % 2 ^ 20 ∧
    c.left = c.addr + c.size - 4096 * (c.addr / 4096 + r)

theorem Call.loop_enter {addr size : ℕ} (h : size + addr % 4096 < 2 ^ 31) :
    (Call.enter n addr size).Loop n := by
  have hmod : Int.bmod ((size : ℤ) + addr % 4096) (2 ^ 32) = size + addr % 4096 :=
    Int.bmod_eq_of_le (by omega) (by omega)
  refine ⟨0, by simp only [Call.enter, Nat.add_zero], ?_⟩
  simp only [Call.enter, hmod]
  omega

theorem Call.not_checked_enter {addr size : ℕ} (h : size + addr % 4096 < 2 ^ 31) (tmp : ℕ) :
    ¬ (Call.enter n addr size).Checked tmp := by
  rintro ⟨h1, -, h3⟩
  have hmod : Int.bmod ((size : ℤ) + addr % 4096) (2 ^ 32) = size + addr % 4096 :=
    Int.bmod_eq_of_le (by omega) (by omega)
  simp only [Call.enter, hmod] at h1 h3
  omega

theorem Call.Loop.next {c : Call} (h : c.Loop n) : c.next.Loop n := by
  obtain ⟨r, hstart, hleft⟩ := h
  refine ⟨r + 1, ?_, ?_⟩
  · simp only [Call.next, hstart]
    omega
  · simp only [Call.next, hleft]
    push_cast
    omega

/-- The page that a round checks. -/
theorem Call.Loop.checked_next {c : Call} (h : c.Loop n) (hn : n < 64) (htmp : tmp < taskSize)
    (hc : c.next.Checked tmp) : c.Checked tmp ∨ c.start = pageAddress n tmp := by
  obtain ⟨r, hstart, hleft⟩ := h
  obtain ⟨h1, h2, h3⟩ := hc
  simp only [Call.next] at h1 h2 h3
  simp only [taskSize] at hstart htmp
  by_cases hr : tmp = c.addr / 4096 + r
  · refine Or.inr ?_
    simp only [hstart, pageAddress, taskSize]
    omega
  · exact Or.inl ⟨h1, h2, by omega⟩

/-- The pages that the call stores to have been checked. -/
theorem Call.Loop.checked {c : Call} {a : ℕ} (h : c.Loop n) (hs : c.Stores a) :
    c.Checked (a / 4096) := by
  obtain ⟨r, -, hleft⟩ := h
  obtain ⟨h1, h2, h3⟩ := hs
  refine ⟨by omega, by omega, ?_⟩
  omega

/-- A page that a call has checked is not present and read-only, and writable pages
are mapped once. -/
structure Private (startMem endMem : ℕ) (s : Machine) : Prop where
  inv : Inv startMem endMem s.k.st
  exclusive : Exclusive s.k.st
  fits : Fits s.k
  alive : ∀ n c, s.call n = some c → 1 ≤ n ∧ (s.k.tasks n).isSome
  loop : ∀ n c, s.call n = some c → c.Loop n
  checked : ∀ n c tmp, s.call n = some c → tmp < taskSize → c.Checked tmp → (s.k.pte n tmp).Open

theorem pageDir_inj {n' tmp' : ℕ} (h : tmp < taskSize) (h' : tmp' < taskSize)
    (hd : pageDir n tmp = pageDir n' tmp') (hi : tmp % 1024 = tmp' % 1024) :
    n = n' ∧ tmp = tmp' := by
  simp only [taskSize] at h h'
  simp only [pageDir] at hd
  omega

/-- A page is not read-only after `write_verify` has returned. -/
theorem writeVerify_open {address : ℕ} (h : Inv startMem endMem st) (ha : address < 2 ^ 20)
    (hkeep : UnWpKeeps st.mem address)
    (hr : writeVerify st.mem address = some (.returned, m')) :
    (m'.entry (dirOf address) (entOf address)).Open := by
  have hi : entOf address < 1024 := Nat.mod_lt _ (by decide)
  -- an elementary step that leaves a writable page at the entry
  have hlast : ∀ {st₁ : State} {e : Effect} {p : ℕ} {dirty : Bool}, Inv startMem endMem st₁ →
      User (dirOf address) → e.Pre st₁ → (⟨m', st.held⟩ : State) = st₁.apply e →
      e.entryAfter st₁.mem.entry (dirOf address) (entOf address) = .page p true dirty →
      (m'.entry (dirOf address) (entOf address)).Open := by
    intro st₁ e p dirty h₁ hd hp heq hafter
    have hent := entry_apply h₁ hp hd.2 hi
    rw [← heq, hafter] at hent
    rw [show m'.entry _ _ = _ from hent]
    rintro _ _ ⟨⟩
  rcases writeVerify_trace h ha hkeep hr with ⟨-, rfl, hno⟩ | ⟨hd, -, hend⟩
  · exact hno
  · rcases hend with ⟨hoom, -⟩ | ⟨-, p, rw, dirty, hp, heq⟩ |
      ⟨-, st₁, old, new, rw, dirty, -, -, htrace, hp, heq⟩
    · cases hoom
    · exact hlast h hd hp heq (if_pos ⟨rfl, rfl⟩)
    · exact hlast (htrace.inv h) hd hp heq (if_pos ⟨rfl, rfl⟩)

namespace Private

variable {s s' : Machine} {a : Act}

/-- Steps that protect no page that has been checked. -/
theorem of_trace {P : Effect → Prop} (h : Private startMem endMem s)
    (ht : TraceOf P s.k.st k'.st) (hfits : Fits k')
    (halive : ∀ n c, s.call n = some c → (k'.tasks n).isSome)
    (hP : ∀ n c tmp, s.call n = some c → tmp < taskSize → c.Checked tmp → ∀ e, P e →
      ¬ e.Protects (pageDir n tmp) (tmp % 1024)) : Private startMem endMem { s with k := k' } where
  inv := ht.inv h.inv
  exclusive := h.exclusive.traceOf h.inv ht
  fits := hfits
  alive n c hc := ⟨(h.alive n c hc).1, halive n c hc⟩
  loop := h.loop
  checked n c tmp hc htmp hch := by
    obtain ⟨hn, halive⟩ := h.alive n c hc
    obtain ⟨t, ht'⟩ := Option.isSome_iff_exists.mp halive
    have huser := pageDir_user hn (h.fits.lt n t ht') htmp
    exact open_of_steps h.inv ht huser.2 (Nat.mod_lt _ (by decide)) (h.checked n c tmp hc htmp hch)
      (hP n c tmp hc htmp hch)

/-- The same steps, while the calls stay as they are or end. -/
theorem of_calls {call : ℕ → Option Call} (h : Private startMem endMem s)
    (hcall : ∀ n c, call n = some c → s.call n = some c) :
    Private startMem endMem ⟨s.k, call⟩ where
  inv := h.inv
  exclusive := h.exclusive
  fits := h.fits
  alive n c hc := h.alive n c (hcall n c hc)
  loop n c hc := h.loop n c (hcall n c hc)
  checked n c tmp hc := h.checked n c tmp (hcall n c hc)

/-- A step of the memory manager or of another process. -/
theorem act (h : Private startMem endMem s) (hc : (Event.act a).Called files s)
    (hg : (Event.act a).Guard s) (hs : s.k.step files a = some k') :
    Private startMem endMem { s with k := k' } := by
  obtain ⟨hcalled, hidle⟩ := hc
  obtain ⟨hkeep, hshare⟩ := hg
  have htask : ∀ n c, s.call n = some c → a.task ≠ some n := by
    intro n c hcall ha
    have hnone := hidle n ha
    rw [hcall] at hnone
    cases hnone
  refine h.of_trace (step_trace h.inv h.fits hcalled hkeep hs) (h.fits.step hcalled hs)
    (fun n c hcall => alive_of_step h.fits hcalled hs (h.alive n c hcall).2 (htask n c hcall)) ?_
  intro n c tmp hcall htmp hch e hmakes hp
  have hprotects := hmakes _ _ hp
  cases a with
  | fork m child =>
    -- the parent is in no call and the child is not there yet
    simp only [Act.Protects, pageDir_div htmp] at hprotects
    rcases hprotects with rfl | rfl
    · exact htask n c hcall rfl
    · have hfree := hcalled.2.2.2.2
      have halive := (h.alive n c hcall).2
      rw [hfree] at halive
      cases halive
  | noPage m tmp' iCount =>
    obtain ⟨hi, n', hn', hd⟩ := hprotects
    have htmp' := (h.fits.page_of_within hcalled.1).2.2.1
    rcases hd with hd | hd
    · obtain ⟨rfl, rfl⟩ := pageDir_inj htmp htmp' hd hi
      exact hshare n c hn' hcall hch
    · obtain ⟨rfl, rfl⟩ := pageDir_inj htmp htmp' hd hi
      exact htask n c hcall rfl
  | _ => exact hprotects.elim

/-- The call of `verify_area`: nothing has been checked yet. -/
theorem enter {addr size : ℕ} (h : Private startMem endMem s) (hn : 1 ≤ n)
    (halive : (s.k.tasks n).isSome) (hsize : size + addr % 4096 < 2 ^ 31) :
    Private startMem endMem
      { s with call := update s.call n (some (.enter n addr size)) } := by
  have hcase : ∀ n' c, update s.call n (some (.enter n addr size)) n' = some c →
      s.call n' = some c ∨ n' = n ∧ c = .enter n addr size := by
    intro n' c hc
    by_cases hne : n' = n
    · rw [hne, Function.update_self] at hc
      exact Or.inr ⟨hne, (Option.some.inj hc).symm⟩
    · rw [Function.update_of_ne hne] at hc
      exact Or.inl hc
  refine ⟨h.inv, h.exclusive, h.fits, ?_, ?_, ?_⟩
  · intro n' c hc
    rcases hcase n' c hc with hc | ⟨rfl, -⟩
    · exact h.alive n' c hc
    · exact ⟨hn, halive⟩
  · intro n' c hc
    rcases hcase n' c hc with hc | ⟨rfl, rfl⟩
    · exact h.loop n' c hc
    · exact Call.loop_enter hsize
  · intro n' c tmp hc htmp hch
    rcases hcase n' c hc with hc | ⟨rfl, rfl⟩
    · exact h.checked n' c tmp hc htmp hch
    · exact (Call.not_checked_enter hsize tmp hch).elim

/-- A round of the loop of `verify_area`. -/
theorem verify {c : Call} {r : Ended} (h : Private startMem endMem s) (hcall : s.call n = some c)
    (hkeep : UnWpKeeps s.k.st.mem c.start)
    (hr : writeVerify s.k.st.mem c.start = some (r, m')) :
    Private startMem endMem
      { k := s.k.withMem m'
        call := update s.call n (if r = .returned then some c.next else none) } := by
  obtain ⟨hn, halive⟩ := h.alive n c hcall
  obtain ⟨t, ht⟩ := Option.isSome_iff_exists.mp halive
  have hlt := h.fits.lt n t ht
  have ha : c.start < 2 ^ 20 := by
    obtain ⟨x, hstart, -⟩ := h.loop n c hcall
    rw [hstart]
    exact Nat.mod_lt _ (by decide)
  have htrace : TraceOf ((Act.writeVerify c.start).Makes s.k) s.k.st ⟨m', s.k.st.held⟩ := by
    rcases writeVerify_trace h.inv ha hkeep hr with ⟨-, rfl, -⟩ | ⟨-, -, hend⟩
    · exact .refl _
    · exact Act.Makes.of_unWp hend
  have h₁ : Private startMem endMem { s with k := s.k.withMem m' } :=
    h.of_trace htrace h.fits.withMem (fun n c hc => (h.alive n c hc).2)
      fun _ _ _ _ _ _ e he hp => (he _ _ hp).elim
  cases r with
  | oom =>
    refine h₁.of_calls fun n' c' hc => ?_
    by_cases hne : n' = n
    · rw [hne, Function.update_self, if_neg (by decide)] at hc
      cases hc
    · rwa [Function.update_of_ne hne] at hc
  | returned =>
    rw [if_pos rfl]
    have hcase : ∀ n' c', update s.call n (some c.next) n' = some c' →
        n' = n ∧ c' = c.next ∨ s.call n' = some c' := by
      intro n' c' hc
      by_cases hne : n' = n
      · rw [hne, Function.update_self] at hc
        exact Or.inl ⟨hne, (Option.some.inj hc).symm⟩
      · rw [Function.update_of_ne hne] at hc
        exact Or.inr hc
    refine ⟨h₁.inv, h₁.exclusive, h₁.fits, ?_, ?_, ?_⟩
    · intro n' c' hc
      rcases hcase n' c' hc with ⟨rfl, -⟩ | hc
      · exact ⟨hn, halive⟩
      · exact h₁.alive n' c' hc
    · intro n' c' hc
      rcases hcase n' c' hc with ⟨rfl, rfl⟩ | hc
      · exact (h.loop n' c hcall).next
      · exact h₁.loop n' c' hc
    · intro n' c' tmp hc htmp hch
      rcases hcase n' c' hc with ⟨rfl, rfl⟩ | hc
      · rcases (h.loop n' c hcall).checked_next hlt htmp hch with hch | hstart
        · exact h₁.checked n' c tmp hcall htmp hch
        · -- the page of this round
          have hopen := writeVerify_open h.inv ha hkeep hr
          rw [hstart, dirOf_pageAddress, entOf_pageAddress] at hopen
          exact hopen
      · exact h₁.checked n' c' tmp hc htmp hch

/-- A page fault of the kernel on a page of the buffer. -/
theorem fault {a iCount : ℕ} (h : Private startMem endMem s)
    (hc : (Event.fault n a iCount).Called files s) (hg : (Event.fault n a iCount).Guard s)
    (hs : s.k.step files (.noPage n (a / 4096) iCount) = some k') :
    Private startMem endMem { s with k := k' } := by
  obtain ⟨c, hcall, -, hcalled⟩ := hc
  obtain ⟨hkeep, hshare⟩ := hg
  have hcalled' : (Act.noPage n (a / 4096) iCount).Called files s.k := hcalled
  refine h.of_trace (step_trace h.inv h.fits hcalled' hkeep hs) (h.fits.step hcalled' hs)
    (fun n' c' hc' => ?_) fun _ _ _ _ _ _ e hmakes hp => ?_
  · rcases tasks_of_step h.fits hcalled' hs with heq | ⟨m, o, -, -, heq, -, hnone⟩
    · rw [heq]
      exact (h.alive n' c' hc').2
    · obtain ⟨t, ht, hs⟩ := Option.bind_eq_some_iff.mp hs
      obtain ⟨⟨r, m⟩, -, rfl⟩ := Option.map_eq_some_iff.mp hs
      exact (h.alive n' c' hc').2
  · obtain ⟨-, n', hn', -⟩ := hmakes _ _ hp
    exact hshare n' hn'

/-- A store of the kernel to a page of the buffer: the page is writable and nothing
else maps it. -/
theorem putFs_page {a : ℕ} {c : Call} (h : Private startMem endMem s) (hcall : s.call n = some c)
    (hstores : c.Stores a) (hw : s.k.Within n (a / 4096)) {p : ℕ} {rw dirty : Bool}
    (he : s.k.pte n (a / 4096) = .page p rw dirty) :
    rw = true ∧ lowMem ≤ p ∧ ∀ d i, User d → i < 1024 → (s.k.st.mem.entry d i).frame = some p →
      d = pageDir n (a / 4096) ∧ i = a / 4096 % 1024 := by
  obtain ⟨-, -, htmp, huser, hi⟩ := h.fits.page_of_within hw
  have hopen := h.checked n c _ hcall htmp ((h.loop n c hcall).checked hstores)
  obtain rfl : rw = true := by
    cases rw with
    | true => rfl
    | false => exact absurd he (hopen p dirty)
  exact ⟨rfl, h.exclusive.low _ _ p dirty huser hi he,
    fun d i hd hi' hf => h.exclusive.alone _ _ d i p dirty huser hi hd hi' he hf⟩

theorem step {e : Event} (h : Private startMem endMem s) (hc : e.Called files s)
    (hg : e.Guard s) (hs : s.step files e = some s') : Private startMem endMem s' := by
  cases e with
  | act a =>
    obtain ⟨k', hk, rfl⟩ := Option.map_eq_some_iff.mp hs
    exact h.act hc hg hk
  | enter n addr size =>
    obtain rfl := Option.some.inj hs
    exact h.enter hc.1 hc.2.1 hg
  | verify n =>
    obtain ⟨c, hcall, hs⟩ := Option.bind_eq_some_iff.mp hs
    obtain ⟨⟨r, m⟩, hr, rfl⟩ := Option.map_eq_some_iff.mp hs
    exact h.verify hcall (hg c hcall) hr
  | fault n a iCount =>
    obtain ⟨k', hk, rfl⟩ := Option.map_eq_some_iff.mp hs
    exact h.fault hc hg hk
  | putFs n a byte =>
    obtain ⟨c, hcall, hstores, hw⟩ := hc
    obtain ⟨-, -, -, huser, hi⟩ := h.fits.page_of_within hw
    rcases he : s.k.pte n (a / 4096) with _ | nr | ⟨p, rw, dirty⟩
    case page =>
      simp only [Machine.step, he] at hs
      obtain rfl := Option.some.inj hs
      refine h.of_trace (P := fun e => ∀ d i, ¬ e.Protects d i)
        (.one (e := .store (pageDir n (a / 4096)) (a / 4096 % 1024) p rw dirty _)
          ⟨huser, hi, he⟩ (fun _ _ hp => hp) rfl)
        h.fits.withMem (fun n c hc => (h.alive n c hc).2) fun _ _ _ _ _ _ e he hp => he _ _ hp
    all_goals simp [Machine.step, he] at hs
  | leave n =>
    obtain rfl := Option.some.inj hs
    refine h.of_calls fun n' c hc => ?_
    by_cases hne : n' = n
    · rw [hne, Function.update_self] at hc
      cases hc
    · rwa [Function.update_of_ne hne] at hc

theorem reach (hlow : lowMem ≤ startMem) (htop : endMem ≤ lowMem + pagingPages)
    (hr : (calls files startMem endMem).Reach (fun s e => e.Guard s) s) :
    Private startMem endMem s := by
  refine hr.invariant (fun s ⟨hi, hcall⟩ => ?_) fun _ _ _ h hg hs => h.step hs.1 hg hs.2
  have hsane := Sane.init hlow htop hi
  have hnone : ∀ n c, ¬ s.call n = some c := by simp [hcall]
  exact ⟨hsane.healthy.inv, hsane.healthy.exclusive, hsane.fits,
    fun n c hc => (hnone n c hc).elim, fun n c hc => (hnone n c hc).elim,
    fun n c _ hc => (hnone n c hc).elim⟩

end Private

/-- Along a run in which the size of no buffer overflows, and no page of a buffer
that has been checked is shared, a store of the kernel changes only a frame of main
memory that the entry of its own process maps, writable, and no other entry. -/
theorem putFs_private {s s' : Machine} {a : ℕ} {byte : UInt8} (hlow : lowMem ≤ startMem)
    (htop : endMem ≤ lowMem + pagingPages)
    (hr : (calls files startMem endMem).Reach (fun s e => e.Guard s) s)
    (hs : (calls files startMem endMem).step s (.putFs n a byte) s') {q : ℕ}
    (hq : s'.k.st.mem.data q ≠ s.k.st.mem.data q) :
    lowMem ≤ q ∧ (∃ dirty, s.k.pte n (a / 4096) = .page q true dirty) ∧
      ∀ d i, User d → i < 1024 → (s.k.st.mem.entry d i).frame = some q →
        d = pageDir n (a / 4096) ∧ i = a / 4096 % 1024 := by
  obtain ⟨⟨c, hcall, hstores, hw⟩, hs⟩ := hs
  rcases he : s.k.pte n (a / 4096) with _ | nr | ⟨p, rw, dirty⟩
  case page =>
    simp only [Machine.step, he] at hs
    obtain rfl := Option.some.inj hs
    have hqp : q = p := by
      by_contra hne
      exact hq (by simp [Kernel.withMem, hne])
    obtain ⟨rfl, hlow', halone⟩ :=
      (Private.reach hlow htop hr).putFs_page hcall hstores hw he
    rw [hqp]
    exact ⟨hlow', ⟨dirty, rfl⟩, halone⟩
  all_goals simp [Machine.step, he] at hs

/-! ### Runs from a list of steps -/

instance (c : Call) (a : ℕ) : Decidable (c.Stores a) := inferInstanceAs (Decidable (_ ∧ _ ∧ _))

instance (files : Files) (s : Machine) : (e : Event) → Decidable (e.Called files s)
  | .act a => match h : a.task with
    | none => decidable_of_iff (a.Called files s.k) <| by simp [Event.Called, h]
    | some n => decidable_of_iff (a.Called files s.k ∧ (s.call n).isNone) <| by
      simp [Event.Called, h]
  | .enter n addr size => decidable_of_iff (1 ≤ n ∧ (s.k.tasks n).isSome ∧ (s.call n).isNone ∧
      addr < 2 ^ 32 ∧ size < 2 ^ 31) <| by simp only [Event.Called, Option.isNone_iff_eq_none]
  | .verify n => decidable_of_iff ((s.call n).any fun c => decide (0 < c.left)) <| by
      simp only [Event.Called, Option.any_eq_true, decide_eq_true_iff]
  | .fault n a _ => decidable_of_iff ((s.call n).any fun c => decide (c.Stores a ∧
      s.k.Within n (a / 4096) ∧ (s.k.pte n (a / 4096)).frame = none)) <| by
      simp only [Event.Called, Option.any_eq_true, decide_eq_true_iff]
  | .putFs n a _ => decidable_of_iff ((s.call n).any fun c => decide (c.Stores a ∧
      s.k.Within n (a / 4096))) <| by
      simp only [Event.Called, Option.any_eq_true, decide_eq_true_iff]
  | .leave _ => inferInstanceAs (Decidable True)

namespace Machine

/-- The machine after a step that can be made. -/
def next (files : Files) (s : Machine) (e : Event) : Option Machine :=
  if e.Called files s then s.step files e else none

theorem step_of_next (s : Machine) (e : Event) (s' : Machine) (h : s.next files e = some s') :
    (calls files startMem endMem).step s e s' := by
  rw [next] at h
  by_cases hc : e.Called files s
  · rw [if_pos hc] at h
    exact ⟨hc, h⟩
  · rw [if_neg hc] at h
    cases h

/-- The machine after `mem_init`, on eight frames and pages full of 7. -/
def start : Machine := ⟨.start 4088 4096 fun _ _ => 7, fun _ => none⟩

theorem reach_start {G : Machine → Event → Prop} :
    (calls noFiles 4088 4096).Reach G start := .init ⟨⟨_, rfl⟩, rfl⟩

end Machine

theorem putFs_private_checked : ∃ s₁ s s' : Machine,
    System.runOf (Machine.next noFiles) [.act (.fork 0 1), .enter 1 0 1] .start = some s₁ ∧
    s₁.next noFiles (.verify 1) = some s ∧ s.next noFiles (.putFs 1 0 9) = some s' ∧
    ∀ d i, User d → i < 1024 → (s.k.st.mem.entry d i).frame = some 4094 → d = 16 ∧ i = 0 := by
  have hrun : (System.runOf (Machine.next noFiles) [.act (.fork 0 1), .enter 1 0 1] .start).any
      (fun s₁ => (s₁.next noFiles (.verify 1)).any fun s₂ =>
        (s₂.next noFiles (.putFs 1 0 9)).any fun s₃ =>
          decide ((s₁.call 1).map Call.start = some 16384 ∧ s₁.k.st.mem.pgDir 16 = some 4095 ∧
            (getFreePage s₁.k.st.mem).all (fun r =>
              decide (r.2.table 4095 0 = s₁.k.st.mem.table 4095 0)) ∧
            s₂.k.st.mem.data 4094 0 = 7 ∧ s₃.k.st.mem.data 4094 0 = 9)) = true := by
    decide +kernel
  obtain ⟨s₁, h₁, hrun⟩ := (Option.any_eq_true _ _).mp hrun
  obtain ⟨s₂, h₂, hrun⟩ := (Option.any_eq_true _ _).mp hrun
  obtain ⟨s₃, h₃, hrun⟩ := (Option.any_eq_true _ _).mp hrun
  rw [decide_eq_true_iff] at hrun
  obtain ⟨hstart, hdir, hkeep, hdata₂, hdata₃⟩ := hrun
  have hreach₁ : (calls noFiles 4088 4096).Reach (fun s e => e.Guard s) s₁ :=
    .of_runOf Machine.step_of_next (by simp [Event.Guard, Act.Keeps]) Machine.reach_start h₁
  have hguard : (Event.verify 1).Guard s₁ := by
    intro c hc t old rw dirty ht _ _ p m' hg _
    have hstart' : c.start = 16384 := by simpa [hc] using hstart
    rw [hstart'] at ht ⊢
    obtain rfl : 4095 = t := by simpa [dirOf, hdir] using ht
    rw [show entOf 16384 = 0 by decide]
    simpa [hg] using hkeep
  have hreach₂ := hreach₁.step hguard (Machine.step_of_next _ _ _ h₂)
  refine ⟨s₁, s₂, s₃, h₁, h₂, h₃, ?_⟩
  refine (putFs_private (by decide) (by decide) hreach₂ (Machine.step_of_next _ _ _ h₃) ?_).2.2
  intro heq
  rw [heq, hdata₂] at hdata₃
  exact absurd hdata₃ (by decide)

/-- Task 1 has the kernel's pages, read-only, and reads a file into its second byte
with a count of 2^31 - 1: with the offset the size is negative, and nothing is
checked. -/
def uncheckedRun : List Event := [.act (.fork 0 1), .enter 1 1 0x7fffffff]

/-- After `uncheckedRun` the kernel stores to a page of its own. -/
theorem putFs_shared : ¬ ∀ (s s' : Machine) (n a : ℕ) (byte : UInt8) (q : ℕ),
    (calls noFiles 4088 4096).Reachable s →
    (calls noFiles 4088 4096).step s (.putFs n a byte) s' →
    s'.k.st.mem.data q ≠ s.k.st.mem.data q → ∃ dirty, s.k.pte n (a / 4096) = .page q true dirty := by
  have hrun : (System.runOf (Machine.next noFiles) uncheckedRun .start).any (fun s =>
      (s.next noFiles (.putFs 1 1 9)).any fun s' =>
        decide (s.k.pte 1 0 = .page 0 false false ∧ s.k.st.mem.data 0 1 = 7 ∧
          s'.k.st.mem.data 0 1 = 9)) = true := by
    decide +kernel
  obtain ⟨s, hs, hrun⟩ := (Option.any_eq_true _ _).mp hrun
  obtain ⟨s', hs', hrun⟩ := (Option.any_eq_true _ _).mp hrun
  rw [decide_eq_true_iff] at hrun
  obtain ⟨he, hdata, hdata'⟩ := hrun
  intro h
  have hreach : (calls noFiles 4088 4096).Reachable s :=
    .of_runOf Machine.step_of_next (fun _ _ _ => trivial) Machine.reach_start hs
  obtain ⟨dirty, hrw⟩ := h s s' 1 1 9 0 hreach (Machine.step_of_next _ _ _ hs') fun heq => by
    rw [heq, hdata] at hdata'
    exact absurd hdata' (by decide)
  rw [show 1 / 4096 = 0 by decide, he] at hrw
  cases hrw

end Mm
