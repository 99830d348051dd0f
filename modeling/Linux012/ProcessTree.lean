/-
The tree of processes (the links that `copy_process`, `do_exit` and `release` keep, and
`audit_ptree` checks).

* `Tree` — the task table with the parent, child and sibling links;
* `fork`, `doExit`, `release` — what the calls do to the links;
* `Family` — the children of each task are a doubly linked list, and every process
  descends from init;
* `process_tree` — what `audit_ptree` checks holds in every run, each sibling list is
  exactly the children, and `do_exit` follows no null pointer.

Design notes: a call is one step.  Task 0 forks once, as main.c has it: it makes init,
and then only pauses.
-/
import Linux012.Fork
import Linux012.Links

namespace Sched

open Function (update)
open Links (IsList Dll store)

/-- The task table and the links of the task structures. -/
structure Tree where
  table : Table
  /-- `p_pptr`, `p_cptr`, `p_ysptr` and `p_osptr` -/
  pptr : ℕ → Option ℕ
  cptr : ℕ → Option ℕ
  ysptr : ℕ → Option ℕ
  osptr : ℕ → Option ℕ
  /-- the state is `TASK_ZOMBIE` -/
  zombie : ℕ → Bool

namespace Tree

/-- The links part of `*p = *current`. -/
def copyStruct (s : Tree) (cur p : ℕ) : Tree :=
  { s with
    pptr := update s.pptr p (s.pptr cur)
    cptr := update s.cptr p (s.cptr cur)
    ysptr := update s.ysptr p (s.ysptr cur)
    osptr := update s.osptr p (s.osptr cur)
    zombie := update s.zombie p (s.zombie cur) }

/-- The end of `copy_process`. -/
def link (s : Tree) (cur p : ℕ) : Tree :=
  { s with
    pptr := update s.pptr p (some cur)
    cptr := update (update s.cptr p none) cur (some p)
    ysptr := store (update s.ysptr p none) (s.cptr cur) (some p)
    osptr := update s.osptr p (s.cptr cur)
    zombie := update s.zombie p false }

/-- `find_empty_process` and `copy_process` with page `p` for the child; `copied` tells
whether `copy_mem` succeeds. -/
def fork (s : Tree) (cur p : ℕ) (copied : Bool) : Option Tree :=
  match s.table.page cur, s.table.findEmptyProcess with
  | some t, some (some nr, table) =>
    if copied then some ({ s with
      table := table.store nr p { t with pid := table.lastPid } }.copyStruct cur p |>.link cur p)
    else some ({ s with table := table }.copyStruct cur p)
  | some _, some (none, table) => some { s with table := table }
  | _, _ => none

/-- The loop of `do_exit` over the children, from `p` on; none where a null pointer
is followed. -/
def exitLoop (s : Tree) (cur init : ℕ) : ℕ → ℕ → Option Tree
  | 0, _ => none
  | fuel + 1, p =>
    let s := { s with pptr := update s.pptr p (some init) }
    match s.osptr p with
    | some q => s.exitLoop cur init fuel q
    | none => (s.cptr init).map fun c =>
      { s with
        osptr := update s.osptr p (some c)
        ysptr := update s.ysptr c (some p)
        cptr := update (update s.cptr init (s.cptr cur)) cur none }

/-- `do_exit`, from `current->state = TASK_ZOMBIE` on. -/
def doExit (s : Tree) (cur : ℕ) : Option Tree :=
  match s.pptr cur, s.table.task 1 with
  | some _, some init =>
    let s := { s with zombie := update s.zombie cur true }
    match s.cptr cur with
    | none => some s
    | some p => s.exitLoop cur init nrTasks p
  | _, _ => none

/-- The links part of `release`. -/
def unlink (s : Tree) (p : ℕ) : Option Tree :=
  let s := { s with ysptr := store s.ysptr (s.osptr p) (s.ysptr p) }
  match s.ysptr p with
  | some y => some { s with osptr := update s.osptr y (s.osptr p) }
  | none => (s.pptr p).map fun q => { s with cptr := update s.cptr q (s.osptr p) }

/-- `release`; none where it panics or follows a null pointer. -/
def release (s : Tree) (p : ℕ) : Option Tree :=
  ((List.range' 1 (nrTasks - 1)).find? fun i => s.table.task i = some p).bind fun i =>
    { s with table := s.table.remove i p }.unlink p

/-- The child that `sys_waitpid` sees in round `k`, from `p` on. -/
def nthChild (s : Tree) : ℕ → Option ℕ → Option ℕ
  | 0, p => p
  | k + 1, p => p.bind fun q => s.nthChild k (s.osptr q)

/-- `sys_waitpid` reaps the child it sees in round `k`. -/
def waitpid (s : Tree) (cur k : ℕ) : Option Tree :=
  (s.nthChild k (s.cptr cur)).bind fun p => if s.zombie p then s.release p else none

/-- `p` is in the task table. -/
def Alive (s : Tree) (p : ℕ) : Prop := ∃ i, s.table.task i = some p

/-- `p` can be the current process. -/
def Running (s : Tree) (p : ℕ) : Prop := s.Alive p ∧ s.zombie p = false

/-- `p` can call `do_exit`. -/
def CanExit (s : Tree) (p : ℕ) : Prop :=
  s.Running p ∧ s.table.task 0 ≠ some p ∧ s.table.task 1 ≠ some p

/-- After `sched_init`: task 0 is in page `z`, and its own parent. -/
def start (z : ℕ) : Tree where
  table := (Forks.start z).table
  pptr := update (fun _ => none) z (some z)
  cptr := fun _ => none
  ysptr := fun _ => none
  osptr := fun _ => none
  zombie := fun _ => false

end Tree

/-- A call. -/
inductive TreeEvent where
  | fork (cur p : ℕ) (copied : Bool)
  | exit (cur : ℕ)
  | wait (cur k : ℕ)

/-- The call can be made. -/
def TreeEvent.Called (s : Tree) : TreeEvent → Prop
  | .fork cur p _ => s.Running cur ∧ s.table.page p = none ∧
      (s.table.task 0 = some cur → s.table.task 1 = none)
  | .exit cur => s.CanExit cur
  | .wait cur _ => s.Running cur

/-- The tree after a call. -/
def Tree.step (s : Tree) : TreeEvent → Option Tree
  | .fork cur p copied => s.fork cur p copied
  | .exit cur => s.doExit cur
  | .wait cur k => s.waitpid cur k

/-- The runs of the process tree. -/
def processes : System Tree TreeEvent where
  init s := ∃ z, s = .start z
  step s e s' := e.Called s ∧ s.step e = some s'

/-- The process descends from `i` by parent links. -/
inductive Descends (pptr : ℕ → Option ℕ) (i : ℕ) : ℕ → Prop where
  | child {q : ℕ} (h : pptr q = some i) : Descends pptr i q
  | step {q p : ℕ} (h : pptr q = some p) (hp : Descends pptr i p) : Descends pptr i q

namespace Descends

variable {pptr pptr' : ℕ → Option ℕ} {I : ℕ → Prop} {i q : ℕ}

/-- Links that agree on a set closed under parents. -/
theorem congr (h : Descends pptr i q) (hq : I q) (hI : ∀ q p, I q → pptr q = some p → I p)
    (heq : ∀ q, I q → pptr' q = pptr q) : Descends pptr' i q := by
  induction h with
  | child h => exact .child ((heq _ hq).trans h)
  | step h _ ih => exact .step ((heq _ hq).trans h) (ih (hI _ _ hq h))

/-- The children of `c` become children of `i`. -/
theorem adopt {c : ℕ} (h : Descends pptr i q) (hc : c ≠ i)
    (heq : ∀ q, pptr' q = if pptr q = some c then some i else pptr q) : Descends pptr' i q := by
  induction h with
  | child h =>
    refine .child ?_
    rw [heq, h, if_neg fun h => hc (Option.some.inj h).symm]
  | @step q p h _ ih =>
    by_cases hp : p = c
    · refine .child ?_
      rw [heq, h, hp, if_pos rfl]
    · refine .step ?_ ih
      rw [heq, h, if_neg fun h => hp (Option.some.inj h)]

/-- A chain to `i` ends with a child of `i`. -/
theorem exists_child (h : Descends pptr i q) (hq : I q)
    (hI : ∀ q p, I q → pptr q = some p → I p) : ∃ c, I c ∧ pptr c = some i := by
  induction h with
  | child h => exact ⟨_, hq, h⟩
  | step h _ ih => exact ih (hI _ _ hq h)

end Descends

namespace Tree

variable {s s' : Tree} {z i p q cur : ℕ} {l : List ℕ}

/-- `l` are the children of `p`, the youngest first. -/
structure Kids (s : Tree) (z p : ℕ) (l : List ℕ) : Prop where
  dll : Dll s.osptr s.ysptr (s.cptr p) l
  mem : ∀ q, q ∈ l ↔ s.Alive q ∧ q ≠ z ∧ s.pptr q = some p

/-- The tree of processes, with task 0 in page `z`. -/
structure Family (s : Tree) (z : ℕ) : Prop where
  ordered : s.table.Ordered
  lastPid : s.table.lastPid < 2 ^ 31
  root : s.table.task 0 = some z
  rootParent : s.pptr z = some z
  rootRuns : s.zombie z = false
  kids : ∀ p, s.Alive p → ∃ l, s.Kids z p l
  parent : ∀ q, s.Alive q → ∃ p, s.pptr q = some p ∧ s.Alive p
  childless : ∀ p, s.Alive p → s.zombie p = true → s.cptr p = none
  /-- init is there, or nothing but task 0 -/
  init : (s.table.task 1 = none → ∀ q, s.Alive q → q = z) ∧
    ∀ i, s.table.task 1 = some i → s.zombie i = false ∧ s.pptr i = some z ∧
      ∀ q, s.Alive q → q ≠ z → q ≠ i → Descends s.pptr i q

namespace Family

theorem alive_root (h : s.Family z) : s.Alive z := ⟨0, h.root⟩

theorem parent_alive (h : s.Family z) (hq : s.Alive q) (hp : s.pptr q = some p) : s.Alive p := by
  obtain ⟨p', hp', halive⟩ := h.parent q hq
  obtain rfl := Option.some.inj (hp'.symm.trans hp)
  exact halive

theorem alive_of_kid (hk : s.Kids z p l) (hq : q ∈ l) : s.Alive q := ((hk.mem q).mp hq).1

theorem page_isSome (h : s.Family z) (hp : s.Alive p) : (s.table.page p).isSome := by
  obtain ⟨i, hi⟩ := hp
  exact h.ordered.alive i p hi

theorem not_alive (h : s.Family z) (hp : s.table.page p = none) : ¬ s.Alive p := fun halive => by
  have hpage := h.page_isSome halive
  simp [hp] at hpage

theorem start (z : ℕ) : (Tree.start z).Family z := by
  have hord := (Forks.Kept.start z).ordered
  have halive : ∀ q, (Tree.start z).Alive q → q = z := by
    rintro q ⟨i, hi⟩
    simp only [Tree.start, Forks.start] at hi
    split at hi
    case isTrue => exact (Option.some.inj hi).symm
    case isFalse => cases hi
  have hparent : (Tree.start z).pptr z = some z := by simp [Tree.start]
  constructor
  · exact hord
  · exact Nat.two_pow_pos 31
  · simp [Tree.start, Forks.start]
  · exact hparent
  · rfl
  · intro p _
    refine ⟨[], .nil, fun q => ⟨fun hq => absurd hq List.not_mem_nil, ?_⟩⟩
    rintro ⟨hq, hz, -⟩
    exact absurd (halive q hq) hz
  · intro q hq
    obtain rfl := halive q hq
    exact ⟨q, hparent, hq⟩
  · exact fun _ _ hz => by cases hz
  · refine ⟨fun _ => halive, fun i hi => ?_⟩
    simp [Tree.start, Forks.start] at hi

/-- The list of `p` starts at its child link. -/
theorem mem_of_cptr (hk : s.Kids z p l) (hq : s.cptr p = some q) : q ∈ l :=
  List.mem_of_mem_head? (hk.dll.head?.symm.trans hq)

/-! ### Fork -/

theorem link_copyStruct (hne : cur ≠ p) : (s.copyStruct cur p).link cur p = s.link cur p := by
  simp [link, copyStruct, hne]

theorem alive_store {nr : ℕ} {t : TaskStruct} (hnr : s.table.task nr = none)
    (htable : s'.table = s.table.store nr p t) (q : ℕ) :
    s'.Alive q ↔ q = p ∨ s.Alive q := by
  rw [Alive, Alive, htable]
  constructor
  · rintro ⟨i, hi⟩
    rw [Table.task_store] at hi
    split at hi
    case isTrue => exact .inl (Option.some.inj hi).symm
    case isFalse => exact .inr ⟨i, hi⟩
  · rintro (rfl | ⟨i, hi⟩)
    · exact ⟨nr, by simp⟩
    · have hne : i ≠ nr := by
        rintro rfl
        rw [hnr] at hi
        cases hi
      exact ⟨i, by simp [hne, hi]⟩

/-- The child comes in front of the other children of its parent. -/
theorem fork_kids {nr : ℕ} {t : TaskStruct} (h : s.Family z) (hc : s.Alive cur)
    (hp : s.table.page p = none) (hnr : s.table.task nr = none) (r : ℕ)
    (hr : ({ s with table := s.table.store nr p t }.link cur p).Alive r) :
    ∃ l, ({ s with table := s.table.store nr p t }.link cur p).Kids z r l := by
  have hpa := h.not_alive hp
  have hpc : p ≠ cur := fun heq => hpa (heq ▸ hc)
  have hpz : p ≠ z := fun heq => hpa (heq ▸ h.alive_root)
  set s₁ := ({ s with table := s.table.store nr p t } : Tree).link cur p with hs₁
  have htable : s₁.table = s.table.store nr p t := rfl
  have halive := alive_store hnr htable
  have hpptr : ∀ q, s₁.pptr q = if q = p then some cur else s.pptr q :=
    fun q => Function.update_apply _ _ _ _
  have hmem : ∀ (r q : ℕ), s₁.Alive q ∧ q ≠ z ∧ s₁.pptr q = some r ↔
      q = p ∧ r = cur ∨ s.Alive q ∧ q ≠ z ∧ s.pptr q = some r := by
    intro r q
    rw [halive, hpptr]
    by_cases hq : q = p
    · subst hq
      simp [hpa, hpz, eq_comm]
    · simp [hq]
  obtain ⟨lc, hkc⟩ := h.kids cur hc
  have hplc : p ∉ lc := fun hmem => hpa (alive_of_kid hkc hmem)
  by_cases hrp : r = p
  · -- the child has no children
    subst hrp
    refine ⟨[], ?_, fun q => ?_⟩
    · have hcptr : s₁.cptr r = none := by simp [hs₁, link, hpc]
      rw [hcptr]
      exact .nil
    · rw [hmem]
      simp only [List.not_mem_nil, false_iff, not_or, not_and]
      exact ⟨fun _ => hpc, fun hq _ hqr => hpa (h.parent_alive hq hqr)⟩
  · have hra : s.Alive r := ((halive r).mp hr).resolve_left hrp
    by_cases hrc : r = cur
    · subst hrc
      refine ⟨p :: lc, ?_, fun q => ?_⟩
      · have hcptr : s₁.cptr r = some p := by simp [hs₁, link]
        rw [hcptr]
        exact hkc.dll.push hplc
      · rw [hmem, List.mem_cons, hkc.mem]
        simp
    · obtain ⟨l, hk⟩ := h.kids r hra
      have hne : ∀ x ∈ l, x ≠ p := fun x hx heq => hpa (heq ▸ alive_of_kid hk hx)
      refine ⟨l, ?_, fun q => ?_⟩
      · have hcptr : s₁.cptr r = s.cptr r := by simp [hs₁, link, hrc, hrp]
        rw [hcptr]
        refine hk.dll.congr (fun x hx => Function.update_of_ne (hne x hx) _ _) fun x hx => ?_
        have hx' : s.cptr cur ≠ some x := fun heq => by
          have hcx := ((hkc.mem x).mp (mem_of_cptr hkc heq)).2.2
          rw [((hk.mem x).mp hx).2.2] at hcx
          exact hrc (Option.some.inj hcx)
        exact (Links.store_of_ne hx').trans (Function.update_of_ne (hne x hx) _ _)
      · rw [hmem, hk.mem]
        simp [hrc]

theorem slot_one {t : Table} {nr : ℕ} (h : t.findSlot = some nr) (hone : t.task 1 = none) :
    1 = nr := by
  have hfind : t.findSlot = some 1 := by
    rw [Table.findSlot, show List.range' 1 (nrTasks - 1) = 1 :: List.range' 2 62 from rfl,
      List.find?_cons_of_pos (by simp [hone])]
  exact Option.some.inj (hfind.symm.trans h)

/-- A child that is linked joins the family. -/
theorem forkLink {nr : ℕ} {t : TaskStruct} (h : s.Family z) (hc : s.Running cur)
    (hroot : cur = z → s.table.task 1 = none) (hp : s.table.page p = none)
    (hslot : s.table.findSlot = some nr)
    (hpid : ∀ i u, s.table.slot i = some u → u.pid ≠ t.pid) :
    ({ s with table := s.table.store nr p t }.link cur p).Family z := by
  obtain ⟨hlt, hnr⟩ := Table.findSlot_spec hslot
  have hpa := h.not_alive hp
  have hpc : cur ≠ p := fun heq => hpa (heq ▸ hc.1)
  have hzp : z ≠ p := fun heq => hpa (heq ▸ h.alive_root)
  set s₁ := ({ s with table := s.table.store nr p t } : Tree).link cur p with hs₁
  have htable : s₁.table = s.table.store nr p t := rfl
  have halive := alive_store hnr htable
  have htask : ∀ i, s₁.table.task i = if i = nr then some p else s.table.task i :=
    fun i => Table.task_store
  have hpptr : ∀ q, q ≠ p → s₁.pptr q = s.pptr q := fun q hq => Function.update_of_ne hq _ _
  have hpp : s₁.pptr p = some cur := Function.update_self _ _ _
  have hzombie : ∀ q, q ≠ p → s₁.zombie q = s.zombie q := fun q hq => Function.update_of_ne hq _ _
  have hn0 : nr ≠ 0 := by
    rintro rfl
    rw [h.root] at hnr
    cases hnr
  have hdesc : ∀ i q, s.Alive q → Descends s.pptr i q → Descends s₁.pptr i q := fun i q hq hd =>
    hd.congr hq (fun _ _ => h.parent_alive) fun q hq => hpptr q fun heq => hpa (heq ▸ hq)
  constructor
  · exact h.ordered.store hlt hp hpid
  · exact h.lastPid
  · rw [htask, if_neg (Ne.symm hn0), h.root]
  · rw [hpptr z hzp, h.rootParent]
  · rw [hzombie z hzp, h.rootRuns]
  · exact h.fork_kids hc.1 hp hnr
  · intro q hq
    by_cases hqp : q = p
    · exact ⟨cur, hqp ▸ hpp, (halive cur).mpr (.inr hc.1)⟩
    · obtain ⟨r, hr, hra⟩ := h.parent q (((halive q).mp hq).resolve_left hqp)
      exact ⟨r, (hpptr q hqp).trans hr, (halive r).mpr (.inr hra)⟩
  · intro q hq hz
    by_cases hqp : q = p
    · subst hqp
      simp [hs₁, link, hpc.symm]
    · have hqa := ((halive q).mp hq).resolve_left hqp
      rw [hzombie q hqp] at hz
      have hqc : q ≠ cur := by
        rintro rfl
        rw [hc.2] at hz
        cases hz
      have hcptr : s₁.cptr q = s.cptr q := by simp [hs₁, link, hqp, hqc]
      rw [hcptr]
      exact h.childless q hqa hz
  · rw [htask]
    by_cases hn1 : 1 = nr
    · -- the first child of task 0 is init
      rw [if_pos hn1]
      refine ⟨fun hnone => absurd hnone (by simp), fun i hi => ?_⟩
      obtain rfl := Option.some.inj hi
      have halone := h.init.1 (hn1 ▸ hnr)
      have hcz := halone cur hc.1
      refine ⟨by simp [hs₁, link], hcz ▸ hpp, fun q hq hqz hqp => ?_⟩
      exact absurd (halone q (((halive q).mp hq).resolve_left hqp)) hqz
    · rw [if_neg hn1]
      refine ⟨fun hnone => ?_, fun i hi => ?_⟩
      · -- slot 1 would have been found
        exact absurd (slot_one hslot hnone) hn1
      · obtain ⟨hzi, hpi, hdesc'⟩ := h.init.2 i hi
        have hia : s.Alive i := ⟨1, hi⟩
        have hip : i ≠ p := fun heq => hpa (heq ▸ hia)
        refine ⟨(hzombie i hip).trans hzi, (hpptr i hip).trans hpi, fun q hq hqz hqi => ?_⟩
        by_cases hqp : q = p
        · subst hqp
          by_cases hci : cur = i
          · exact .child (hci ▸ hpp)
          · have hcz : cur ≠ z := fun heq => by
              rw [hroot heq] at hi
              cases hi
            exact .step hpp (hdesc i cur hc.1 (hdesc' cur hc.1 hcz hci))
        · have hqa := ((halive q).mp hq).resolve_left hqp
          exact hdesc i q hqa (hdesc' q hqa hqz hqi)

/-- A change of the table and the links that leaves every task with its links. -/
theorem congr (h : s.Family z) {s' : Tree} (htable : s'.table.task = s.table.task)
    (hord : s'.table.Ordered) (hlast : s'.table.lastPid < 2 ^ 31)
    (heq : ∀ q, s.Alive q → s'.pptr q = s.pptr q ∧ s'.cptr q = s.cptr q ∧
      s'.ysptr q = s.ysptr q ∧ s'.osptr q = s.osptr q ∧ s'.zombie q = s.zombie q) :
    s'.Family z := by
  have halive : ∀ q, s'.Alive q ↔ s.Alive q := fun q => by rw [Alive, Alive, htable]
  constructor
  · exact hord
  · exact hlast
  · rw [htable, h.root]
  · rw [(heq z h.alive_root).1, h.rootParent]
  · rw [(heq z h.alive_root).2.2.2.2, h.rootRuns]
  · intro p hp
    have hp := (halive p).mp hp
    obtain ⟨l, hk⟩ := h.kids p hp
    refine ⟨l, ?_, fun q => ?_⟩
    · rw [(heq p hp).2.1]
      exact hk.dll.congr (fun x hx => (heq x (alive_of_kid hk hx)).2.2.2.1)
        fun x hx => (heq x (alive_of_kid hk hx)).2.2.1
    · rw [hk.mem, halive]
      exact and_congr_right fun hq => by rw [(heq q hq).1]
  · intro q hq
    have hq := (halive q).mp hq
    obtain ⟨p, hp, hpa⟩ := h.parent q hq
    exact ⟨p, (heq q hq).1.trans hp, (halive p).mpr hpa⟩
  · intro p hp hz
    have hp := (halive p).mp hp
    rw [(heq p hp).2.1]
    exact h.childless p hp ((heq p hp).2.2.2.2 ▸ hz)
  · rw [htable]
    refine ⟨fun hnone q hq => h.init.1 hnone q ((halive q).mp hq), fun i hi => ?_⟩
    obtain ⟨hzi, hpi, hdesc⟩ := h.init.2 i hi
    have hia : s.Alive i := ⟨1, hi⟩
    refine ⟨(heq i hia).2.2.2.2.trans hzi, (heq i hia).1.trans hpi, fun q hq hqz hqi => ?_⟩
    have hq := (halive q).mp hq
    exact (hdesc q hq hqz hqi).congr hq (fun _ _ => h.parent_alive) fun q hq => (heq q hq).1

theorem fork {copied : Bool} (h : s.Family z) (hc : s.Running cur)
    (hp : s.table.page p = none) (hroot : s.table.task 0 = some cur → s.table.task 1 = none)
    (hs : s.fork cur p copied = some s') : s'.Family z := by
  have hpa := h.not_alive hp
  have hcp : cur ≠ p := fun heq => hpa (heq ▸ hc.1)
  rw [Tree.fork] at hs
  split at hs
  case h_1 t nr table hpage hfind =>
    obtain ⟨hnr, x, hx, hlt, rfl⟩ := Table.findEmptyProcess_spec hfind
    have h₁ : ({ s with table := { s.table with lastPid := x } } : Tree).Family z :=
      h.congr rfl ⟨h.ordered.lt, h.ordered.alive, h.ordered.slot, h.ordered.pid⟩ hlt
        fun _ _ => ⟨rfl, rfl, rfl, rfl, rfl⟩
    split at hs
    case isTrue =>
      cases hs
      rw [link_copyStruct hcp]
      refine h₁.forkLink hc (fun heq => hroot (heq ▸ h.root)) hp hnr.symm ?_
      intro i u hu hux
      obtain ⟨q, hq, -⟩ := Table.slot_eq_some.mp hu
      exact hx ⟨i, h.ordered.lt i q hq, u, hu, .inl hux⟩
    case isFalse =>
      cases hs
      refine h₁.congr rfl h₁.ordered hlt fun q hq => ?_
      have hqp : q ≠ p := fun heq => hpa (heq ▸ hq)
      simp [copyStruct, hqp]
  case h_2 t table hpage hfind =>
    cases hs
    obtain ⟨-, x, -, hlt, rfl⟩ := Table.findEmptyProcess_spec hfind
    exact h.congr rfl ⟨h.ordered.lt, h.ordered.alive, h.ordered.slot, h.ordered.pid⟩ hlt
      fun _ _ => ⟨rfl, rfl, rfl, rfl, rfl⟩
  case h_3 => cases hs

/-! ### Exit -/

/-- The children of `cur`, the last of which is `o`, in front of those of `init`. -/
def spliced (s : Tree) (cur init c o : ℕ) (l : List ℕ) : Tree :=
  { s with
    pptr := fun q => if q ∈ l then some init else s.pptr q
    osptr := update s.osptr o (some c)
    ysptr := update s.ysptr c (some o)
    cptr := update (update s.cptr init (s.cptr cur)) cur none }

/-- The loop goes over the children and stops at the oldest. -/
theorem exitLoop_spec {fuel p : ℕ} (cur init : ℕ) (h : IsList s.osptr (some p) l)
    (hfuel : l.length ≤ fuel) :
    ∃ o, l.getLast? = some o ∧ s.exitLoop cur init fuel p =
      (s.cptr init).map fun c => spliced s cur init c o l := by
  induction fuel generalizing s p l with
  | zero =>
    cases l with
    | nil => cases h
    | cons x l => simp at hfuel
  | succ fuel ih =>
    cases l with
    | nil => cases h
    | cons x l =>
      obtain ⟨hpx, hl⟩ := h
      obtain rfl := Option.some.inj hpx
      rw [exitLoop]
      cases l with
      | nil =>
        have hnone : s.osptr p = none := hl
        refine ⟨p, rfl, ?_⟩
        simp only [hnone]
        congr 1
        funext c
        simp only [spliced, List.mem_singleton]
        congr 1
        funext q
        rw [Function.update_apply]
      | cons y l =>
        have hsome : s.osptr p = some y := hl.1
        simp only [hsome]
        rw [List.length_cons] at hfuel
        obtain ⟨o, ho, heq⟩ := ih (s := { s with pptr := update s.pptr p (some init) })
          (by rw [hsome] at hl; exact hl) (by omega)
        refine ⟨o, by simpa using ho, heq.trans ?_⟩
        congr 1
        funext c
        simp only [spliced]
        congr 1
        funext q
        by_cases hq : q ∈ y :: l
        · simp [hq]
        · by_cases hqp : q = p
          · simp [hqp]
          · simp [hq, hqp]

/-- There is room in the fuel for all tasks. -/
theorem length_le (h : s.Family z) (hk : s.Kids z p l) : l.length ≤ nrTasks := by
  have hsub : l ⊆ (List.range nrTasks).filterMap s.table.task := by
    intro q hq
    obtain ⟨i, hi⟩ := alive_of_kid hk hq
    exact List.mem_filterMap.mpr ⟨i, List.mem_range.mpr (h.ordered.lt i q hi), hi⟩
  calc l.length ≤ ((List.range nrTasks).filterMap s.table.task).length :=
        (hk.dll.list.nodup.subperm hsub).length_le
    _ ≤ (List.range nrTasks).length := List.length_filterMap_le _ _
    _ = nrTasks := List.length_range

/-- The children of a process that exits join those of init. -/
theorem splice {c o init : ℕ} (h : s.Family z) (hc : s.CanExit cur)
    (hinit : s.table.task 1 = some init) (hcur : s.Kids z cur l) (ho : l.getLast? = some o)
    (hci : s.cptr init = some c) :
    (spliced { s with zombie := update s.zombie cur true } cur init c o l).Family z := by
  obtain ⟨⟨hca, hcz⟩, hc0, hc1⟩ := hc
  have hcurz : cur ≠ z := fun heq => hc0 (heq ▸ h.root)
  have hcuri : cur ≠ init := fun heq => hc1 (heq ▸ hinit)
  have hia : s.Alive init := ⟨1, hinit⟩
  obtain ⟨hzi, hpi, hdesc⟩ := h.init.2 init hinit
  have hiz : init ≠ z := by
    rintro rfl
    have hslot := h.ordered.slot 0 1 init h.root hinit
    omega
  obtain ⟨li, hki⟩ := h.kids init hia
  have hcli : c ∈ li := mem_of_cptr hki hci
  have hol : o ∈ l := List.mem_of_getLast? ho
  have hpl : ∀ x ∈ l, s.pptr x = some cur := fun x hx => ((hcur.mem x).mp hx).2.2
  have hpli : ∀ x ∈ li, s.pptr x = some init := fun x hx => ((hki.mem x).mp hx).2.2
  have hdisj : List.Disjoint l li := fun x hx hx' => hcuri (by
    have hx := hpl x hx
    rw [hpli x hx'] at hx
    exact (Option.some.inj hx).symm)
  set s₁ := spliced { s with zombie := update s.zombie cur true } cur init c o l with hs₁
  have halive : ∀ q, s₁.Alive q ↔ s.Alive q := fun q => Iff.rfl
  have hpptr : ∀ q, s₁.pptr q = if q ∈ l then some init else s.pptr q := fun q => rfl
  have hpcur : ∀ q, s.Alive q → (q ∈ l ↔ s.pptr q = some cur) := fun q hq => by
    rw [hcur.mem]
    refine ⟨fun hm => hm.2.2, fun hp => ⟨hq, ?_, hp⟩⟩
    rintro rfl
    rw [h.rootParent] at hp
    exact hcurz (Option.some.inj hp).symm
  constructor
  · exact h.ordered
  · exact h.lastPid
  · exact h.root
  · rw [hpptr, if_neg, h.rootParent]
    intro hzl
    exact ((hcur.mem z).mp hzl).2.1 rfl
  · exact (Function.update_of_ne hcurz.symm _ _).trans h.rootRuns
  · intro r hr
    by_cases hrc : r = cur
    · -- the process has no children left
      subst hrc
      refine ⟨[], ?_, fun q => ?_⟩
      · have hcptr : s₁.cptr r = none := by simp [hs₁, spliced]
        rw [hcptr]
        exact .nil
      · simp only [List.not_mem_nil, false_iff, not_and]
        intro hq _ hpq
        rw [hpptr] at hpq
        split at hpq
        case isTrue => exact hcuri (Option.some.inj hpq).symm
        case isFalse hnl => exact hnl ((hpcur q hq).mpr hpq)
    · by_cases hri : r = init
      · subst hri
        refine ⟨l ++ li, ?_, fun q => ?_⟩
        · have hcptr : s₁.cptr r = s.cptr cur := by simp [hs₁, spliced, hrc]
          have hdll := hcur.dll.append hki.dll ho hdisj
          rw [hci] at hdll
          rw [hcptr]
          exact hdll
        · rw [List.mem_append, hcur.mem, hki.mem, halive, hpptr]
          by_cases hql : q ∈ l
          · have hq := (hcur.mem q).mp hql
            simp [hql, hq.1, hq.2.1, hq.2.2]
          · have hql' := hql
            rw [hcur.mem] at hql'
            simp only [hql, if_false, hql', false_or]
      · obtain ⟨lr, hkr⟩ := h.kids r hr
        have hplr : ∀ x ∈ lr, s.pptr x = some r := fun x hx => ((hkr.mem x).mp hx).2.2
        have hne : ∀ x ∈ lr, x ≠ o ∧ x ≠ c := fun x hx => by
          have hpx := hplr x hx
          constructor
          · rintro rfl
            rw [hpl x hol] at hpx
            exact hrc (Option.some.inj hpx).symm
          · rintro rfl
            rw [hpli x hcli] at hpx
            exact hri (Option.some.inj hpx).symm
        refine ⟨lr, ?_, fun q => ?_⟩
        · have hcptr : s₁.cptr r = s.cptr r := by simp [hs₁, spliced, hrc, hri]
          rw [hcptr]
          exact hkr.dll.congr (fun x hx => Function.update_of_ne (hne x hx).1 _ _)
            fun x hx => Function.update_of_ne (hne x hx).2 _ _
        · rw [hkr.mem, halive, hpptr]
          by_cases hql : q ∈ l
          · simp [hql, hpl q hql, Ne.symm hrc, Ne.symm hri]
          · simp [hql]
  · intro q hq
    obtain ⟨p, hp, hpa⟩ := h.parent q hq
    rw [hpptr]
    split
    case isTrue => exact ⟨init, rfl, hia⟩
    case isFalse => exact ⟨p, hp, hpa⟩
  · intro q hq hz
    by_cases hqc : q = cur
    · subst hqc
      simp [hs₁, spliced]
    · have hzq : s.zombie q = true := (Function.update_of_ne hqc _ _).symm.trans hz
      have hqi : q ≠ init := by
        rintro rfl
        rw [hzi] at hzq
        cases hzq
      have hcptr : s₁.cptr q = s.cptr q := by simp [hs₁, spliced, hqc, hqi]
      rw [hcptr]
      exact h.childless q hq hzq
  · refine ⟨fun hnone => ?_, fun i hi => ?_⟩
    · have hnone : s.table.task 1 = none := hnone
      rw [hinit] at hnone
      cases hnone
    · have hi : s.table.task 1 = some i := hi
      obtain rfl : init = i := Option.some.inj (hinit.symm.trans hi)
      refine ⟨(Function.update_of_ne hcuri.symm _ _).trans hzi, ?_, fun q hq hqz hqi => ?_⟩
      · rw [hpptr, if_neg, hpi]
        intro hil
        have hpinit := hpl init hil
        rw [hpi] at hpinit
        exact hcurz (Option.some.inj hpinit).symm
      · have hadopt : Descends (fun q => if s.pptr q = some cur then some init else s.pptr q)
            init q := (hdesc q hq hqz hqi).adopt hcuri fun _ => rfl
        refine hadopt.congr hq (fun q p hq hp => ?_) fun q hq => ?_
        · show s.Alive p
          split at hp
          case isTrue => exact Option.some.inj hp ▸ hia
          case isFalse => exact h.parent_alive hq hp
        · rw [hpptr]
          simp only [hpcur q hq]

/-- `do_exit` follows no null pointer, and keeps the family. -/
theorem exit (h : s.Family z) (hc : s.CanExit cur) :
    ∃ s', s.doExit cur = some s' ∧ s'.Family z := by
  obtain ⟨⟨hca, hcz⟩, hc0, hc1⟩ := hc
  have hcurz : cur ≠ z := fun heq => hc0 (heq ▸ h.root)
  obtain ⟨q, hq, -⟩ := h.parent cur hca
  cases hinit : s.table.task 1 with
  | none => exact absurd (h.init.1 hinit cur hca) hcurz
  | some init =>
    have hcuri : cur ≠ init := fun heq => hc1 (heq ▸ hinit)
    obtain ⟨hzi, hpi, hdesc⟩ := h.init.2 init hinit
    obtain ⟨l, hk⟩ := h.kids cur hca
    rw [doExit, hq, hinit]
    cases hcptr : s.cptr cur with
    | none =>
      refine ⟨{ s with zombie := update s.zombie cur true }, by simp only [hcptr], ?_⟩
      -- only the state of the process has changed
      have hz : ∀ q, q ≠ cur → update s.zombie cur true q = s.zombie q :=
        fun q hq => Function.update_of_ne hq _ _
      refine ⟨h.ordered, h.lastPid, h.root, h.rootParent, (hz z hcurz.symm).trans h.rootRuns,
        fun p hp => ?_, h.parent, fun q hq hzq => ?_, h.init.1, fun i hi => ?_⟩
      · obtain ⟨l, hk⟩ := h.kids p hp
        exact ⟨l, hk.dll, hk.mem⟩
      · by_cases hqc : q = cur
        · exact hqc ▸ hcptr
        · exact h.childless q hq ((hz q hqc).symm.trans hzq)
      · obtain ⟨hzi', hpi', hdesc'⟩ := h.init.2 i hi
        have hic : i ≠ cur := fun heq => hc1 (heq ▸ hi)
        exact ⟨(hz i hic).trans hzi', hpi', hdesc'⟩
    | some p =>
      -- init has a child, of which the process descends
      obtain ⟨x, hxa, hxi⟩ :=
        (hdesc cur hca hcurz hcuri).exists_child hca fun _ _ => h.parent_alive
      obtain ⟨li, hki⟩ := h.kids init ⟨1, hinit⟩
      have hxz : x ≠ z := by
        rintro rfl
        rw [h.rootParent] at hxi
        have hslot := h.ordered.slot 0 1 x h.root (by rw [hinit, ← hxi])
        omega
      have hxl := (hki.mem x).mpr ⟨hxa, hxz, hxi⟩
      have hlist : IsList s.osptr (some p) l := hcptr ▸ hk.dll.list
      obtain ⟨o, ho, heq⟩ := exitLoop_spec (s := { s with zombie := update s.zombie cur true })
        cur init hlist (h.length_le hk)
      cases hci : s.cptr init with
      | none =>
        have hhead := hki.dll.head?
        rw [hci] at hhead
        rw [List.head?_eq_none_iff.mp hhead.symm] at hxl
        cases hxl
      | some c =>
        refine ⟨_, ?_, h.splice ⟨⟨hca, hcz⟩, hc0, hc1⟩ hinit hk ho hci⟩
        simp only [hcptr]
        rw [heq, hci]
        rfl

/-! ### Release -/

/-- The child of each round is in the list. -/
theorem mem_of_nthChild {k : ℕ} {a : Option ℕ} (h : IsList s.osptr a l)
    (hp : s.nthChild k a = some p) : p ∈ l := by
  induction k generalizing a l with
  | zero => exact List.mem_of_mem_head? ((IsList.head? h).symm.trans hp)
  | succ k ih =>
    cases l with
    | nil =>
      rw [Links.seg_nil.mp h] at hp
      cases hp
    | cons x l =>
      rw [h.1] at hp
      exact List.mem_cons_of_mem _ (ih h.2 hp)

/-- The neighbours of a record in a list. -/
theorem neighbours {next prev : ℕ → Option ℕ} {a : Option ℕ} {l₁ l₂ : List ℕ}
    (h : Dll next prev a (l₁ ++ p :: l₂)) : next p = l₂.head? ∧ prev p = l₁.getLast? := by
  obtain ⟨c, -, -, hl⟩ := Links.Seg.append_iff.mp h.list
  obtain ⟨-, hx, -⟩ := Links.Back.append_iff.mp h.back
  rw [Option.or_none] at hx
  exact ⟨IsList.head? hl, hx⟩

/-- `unlink` takes a child out of the list of its parent. -/
theorem unlink_spec {a : Option ℕ} {l₁ l₂ : List ℕ} (h : Dll s.osptr s.ysptr a (l₁ ++ p :: l₂))
    (hp : s.pptr p = some q) (hs : s.unlink p = some s') :
    s' = { s with
      osptr := store s.osptr (s.ysptr p) (s.osptr p)
      ysptr := store s.ysptr (s.osptr p) (s.ysptr p)
      cptr := if s.ysptr p = none then update s.cptr q (s.osptr p) else s.cptr } := by
  have hnodup := h.list.nodup
  rw [List.nodup_append, List.nodup_cons] at hnodup
  have hys : store s.ysptr (s.osptr p) (s.ysptr p) p = s.ysptr p := Links.store_of_ne (by
    rw [(neighbours h).1]
    exact fun heq => hnodup.2.1.1 (List.mem_of_mem_head? heq))
  rw [unlink] at hs
  simp only [hys] at hs
  cases hy : s.ysptr p with
  | none =>
    rw [hy] at hs
    simp only [hp, Option.map_some] at hs
    rw [← Option.some.inj hs, if_pos rfl]
    rfl
  | some y =>
    rw [hy] at hs
    rw [← Option.some.inj hs, if_neg (by simp)]
    rfl

/-- A zombie that is reaped leaves the family. -/
theorem release (h : s.Family z) (hq : s.Alive q) (hk : s.Kids z q l) (hp : p ∈ l)
    (hzp : s.zombie p = true) (hs : s.release p = some s') : s'.Family z := by
  obtain ⟨i, hfind, hs⟩ := Option.bind_eq_some_iff.mp hs
  have hi : s.table.task i = some p := by simpa using List.find?_some hfind
  have hi0 : i ≠ 0 := by
    have hmem := List.mem_of_find?_eq_some hfind
    rw [List.mem_range'_1] at hmem
    omega
  obtain ⟨hpa, hpz, hpq⟩ := (hk.mem p).mp hp
  obtain ⟨l₁, l₂, rfl⟩ := List.append_of_mem hp
  obtain ⟨hnext, hprev⟩ := neighbours hk.dll
  obtain rfl := unlink_spec (s := { s with table := s.table.remove i p }) hk.dll hpq hs
  set s₁ : Tree := { s with
    table := s.table.remove i p
    osptr := store s.osptr (s.ysptr p) (s.osptr p)
    ysptr := store s.ysptr (s.osptr p) (s.ysptr p)
    cptr := if s.ysptr p = none then update s.cptr q (s.osptr p) else s.cptr } with hs₁
  have htask : ∀ j, s₁.table.task j = if j = i then none else s.table.task j :=
    fun j => Table.task_remove
  have halive : ∀ r, s₁.Alive r ↔ s.Alive r ∧ r ≠ p := by
    intro r
    constructor
    · rintro ⟨j, hj⟩
      rw [htask] at hj
      split at hj
      case isTrue => cases hj
      case isFalse hne =>
        refine ⟨⟨j, hj⟩, ?_⟩
        rintro rfl
        exact hne (h.ordered.slot j i r hj hi)
    · rintro ⟨⟨j, hj⟩, hrp⟩
      refine ⟨j, ?_⟩
      rw [htask, if_neg, hj]
      rintro rfl
      rw [hi] at hj
      exact hrp (Option.some.inj hj).symm
  have hnop : ∀ r, s.Alive r → s.pptr r ≠ some p := by
    -- a zombie has no children
    intro r hr hrp
    have hrz : r ≠ z := by
      rintro rfl
      rw [h.rootParent] at hrp
      exact hpz (Option.some.inj hrp).symm
    obtain ⟨lp, hkp⟩ := h.kids p hpa
    have hhead := hkp.dll.head?
    rw [h.childless p hpa hzp] at hhead
    have hmem := (hkp.mem r).mpr ⟨hr, hrz, hrp⟩
    rw [List.head?_eq_none_iff.mp hhead.symm] at hmem
    cases hmem
  have hcptr : ∀ r, r ≠ q → s₁.cptr r = s.cptr r := by
    intro r hr
    simp only [hs₁]
    split
    case isTrue => exact Function.update_of_ne hr _ _
    case isFalse => rfl
  constructor
  · exact h.ordered.remove hi
  · exact h.lastPid
  · rw [htask, if_neg (Ne.symm hi0), h.root]
  · exact h.rootParent
  · exact h.rootRuns
  · intro r hr
    obtain ⟨hra, hrp⟩ := (halive r).mp hr
    by_cases hrq : r = q
    · subst hrq
      refine ⟨l₁ ++ l₂, ?_, fun x => ?_⟩
      · have hdll := hk.dll.remove
        have hcq : s₁.cptr r = if s.ysptr p = none then s.osptr p else s.cptr r := by
          simp only [hs₁]
          split
          case isTrue => exact Function.update_self _ _ _
          case isFalse => rfl
        rw [hcq]
        exact hdll
      · have hnodup := hk.dll.list.nodup
        rw [List.nodup_middle, List.nodup_cons] at hnodup
        have hm := hk.mem x
        rw [halive]
        rw [List.perm_middle.mem_iff, List.mem_cons] at hm
        by_cases hxp : x = p
        · subst hxp
          simp [hnodup.1]
        · simp only [hxp, false_or] at hm
          rw [hm]
          exact ⟨fun hx => ⟨⟨hx.1, hxp⟩, hx.2⟩, fun hx => ⟨hx.1.1, hx.2⟩⟩
    · obtain ⟨lr, hkr⟩ := h.kids r hra
      have hout : ∀ x ∈ lr, x ∉ l₁ ++ p :: l₂ := fun x hx hx' => hrq (by
        have hpx := ((hkr.mem x).mp hx).2.2
        rw [((hk.mem x).mp hx').2.2] at hpx
        exact (Option.some.inj hpx).symm)
      refine ⟨lr, ?_, fun x => ?_⟩
      · rw [hcptr r hrq]
        refine hkr.dll.congr (fun x hx => Links.store_of_ne ?_) fun x hx => Links.store_of_ne ?_
        · rw [hprev]
          exact fun heq => hout x hx (List.mem_append_left _ (List.mem_of_getLast? heq))
        · rw [hnext]
          refine fun heq => hout x hx (List.mem_append_right _ (List.mem_cons_of_mem _ ?_))
          exact List.mem_of_mem_head? heq
      · rw [hkr.mem, halive]
        refine ⟨fun hx => ⟨⟨hx.1, ?_⟩, hx.2⟩, fun hx => ⟨hx.1.1, hx.2⟩⟩
        rintro rfl
        rw [hpq] at hx
        exact hrq (Option.some.inj hx.2.2).symm
  · intro r hr
    obtain ⟨hra, hrp⟩ := (halive r).mp hr
    obtain ⟨r', hr', hra'⟩ := h.parent r hra
    refine ⟨r', hr', (halive r').mpr ⟨hra', ?_⟩⟩
    rintro rfl
    exact hnop r hra hr'
  · intro r hr hz
    obtain ⟨hra, -⟩ := (halive r).mp hr
    have hnone := h.childless r hra hz
    have hrq : r ≠ q := by
      rintro rfl
      have hhead := hk.dll.head?
      rw [hnone] at hhead
      rw [List.head?_eq_none_iff.mp hhead.symm] at hp
      cases hp
    rw [hcptr r hrq, hnone]
  · -- init is no zombie, so it is another task that goes
    have hi1 : i ≠ 1 := by
      rintro rfl
      have hzj := (h.init.2 p hi).1
      rw [hzp] at hzj
      cases hzj
    have hsame : s₁.table.task 1 = s.table.task 1 := by rw [htask, if_neg (Ne.symm hi1)]
    rw [hsame]
    refine ⟨fun hnone r hr => h.init.1 hnone r ((halive r).mp hr).1, fun j hj => ?_⟩
    obtain ⟨hzj, hpj, hdesc⟩ := h.init.2 j hj
    exact ⟨hzj, hpj, fun r hr hrz hrj => hdesc r ((halive r).mp hr).1 hrz hrj⟩

theorem step {e : TreeEvent} (h : s.Family z) (hs : processes.step s e s') : s'.Family z := by
  obtain ⟨hc, hs⟩ := hs
  cases e with
  | fork cur p copied => exact h.fork hc.1 hc.2.1 hc.2.2 hs
  | exit cur =>
    obtain ⟨s₁, hs₁, hf⟩ := h.exit hc
    have hs : s.doExit cur = some s' := hs
    rw [hs] at hs₁
    exact Option.some.inj hs₁ ▸ hf
  | wait cur k =>
    obtain ⟨p, hp, hs⟩ := Option.bind_eq_some_iff.mp hs
    split at hs
    case isFalse => cases hs
    case isTrue hz =>
      obtain ⟨l, hk⟩ := h.kids cur hc.1
      exact h.release hc.1 hk (mem_of_nthChild hk.dll.list hp) hz hs

theorem reach (hr : processes.Reachable s) : ∃ z, s.Family z := by
  refine hr.invariant (I := fun s => ∃ z, s.Family z) ?_ ?_
  · rintro s ⟨z, rfl⟩
    exact ⟨z, start z⟩
  · rintro s e s' ⟨z, h⟩ - hs
    exact ⟨z, h.step hs⟩

end Family

end Tree

end Sched
