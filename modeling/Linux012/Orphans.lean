/-
The process groups that an exit leaves orphaned (`do_exit`, `is_orphaned_pgrp`, `has_stopped_jobs`
and `kill_pg` of kernel/exit.c).

* `exitSent` — the signals that `do_exit` sends to process groups, in order;
* `Linked`, `GroupOrphaned` — a process whose parent links its group to its session, and a group
  without such a process;
* `Told` — every process of a group that has become orphaned, and has stopped jobs, gets SIGHUP and
  then SIGCONT, and no other process does;
* `orphaned_groups` — this holds if and only if no group that had been orphaned before, and has
  stopped jobs, is that of a child in another group, or of the process itself with a parent in
  another group; and group 0 does not become an orphan with stopped jobs;
* `orphan_signalled_again` — the child of init that leads a group, and exits.

Design notes: an empty slot, through which `has_stopped_jobs` and `kill_pg` read the page directory,
has no stopped process and gets no signal.
-/
import Linux012.ExitCode

namespace Sched

open Function (update)
open Links (IsList)
open Signals (SIGCONT SIGKILL)

namespace Exits

/-! ### The signals -/

/-- The signals that `tellGroup` sends: to whom, and which. -/
def tellSent (s : Exits) (p q : ℕ) : List (ℕ × ℤ) :=
  if s.Orphaned p q then
    (s.groupTasks (s.pgrp p) SIGHUP).map (·, (SIGHUP : ℤ)) ++
      (s.groupTasks (s.pgrp p) SIGCONT).map (·, (SIGCONT : ℤ))
  else []

/-- Those of the loop over the children. -/
def loopSent (s : Exits) (cur init : ℕ) : ℕ → ℕ → List (ℕ × ℤ)
  | 0, _ => []
  | fuel + 1, p =>
    let s := s.setParent p init
    s.tellSent p cur ++
      match s.tree.osptr p with
      | some q => (s.tellGroup cur p cur).loopSent cur init fuel q
      | none => []

/-- Those of `do_exit`. -/
def exitSent (s : Exits) (cur : ℕ) (code : BitVec 32) : List (ℕ × ℤ) :=
  match s.tree.pptr cur, s.tree.table.task 1 with
  | some q, some init =>
    let s := s.setZombie cur code
    s.tellSent cur q ++
      match s.tree.cptr cur with
      | some p => (s.tellGroup cur cur q).loopSent cur init nrTasks p
      | none => []
  | _, _ => []

/-- The signals for one process. -/
def sentTo (x : ℕ) (sent : List (ℕ × ℤ)) : List ℤ := (sent.filter fun e => e.1 = x).map Prod.snd

/-- `SIGHUP` and then `SIGCONT` are sent if `A` holds, and else none. -/
def Sends (l : List ℤ) (A : Prop) : Prop :=
  (A → l = [(SIGHUP : ℤ), (SIGCONT : ℤ)]) ∧ (¬ A → l = [])

/-! ### Orphaned groups -/

/-- A process that is no zombie, with a parent in another group of its session that is not init. -/
def Linked (s : Exits) (p : ℕ) : Prop := p ∈ s.tasks ∧ s.tree.zombie p = false ∧
  ∃ q, s.tree.pptr p = some q ∧ s.pid q ≠ 1 ∧ s.pgrp q ≠ s.pgrp p ∧ s.session q = s.session p

/-- No process links the group to its session. -/
def GroupOrphaned (s : Exits) (g : ℕ) : Prop := ∀ p, s.Linked p → s.pgrp p ≠ g

/-- The group has a stopped process, other than the one that runs. -/
def StoppedJob (s : Exits) (cur g : ℕ) : Prop :=
  ∃ p ∈ s.tasks, p ≠ cur ∧ s.pgrp p = g ∧ s.stopped p = true

/-- The groups that the exit of `cur` has orphaned, from the state `s` to `s'`, are told if they have
stopped jobs, and no others are. -/
def Told (s s' : Exits) (cur : ℕ) (code : BitVec 32) : Prop :=
  ∀ x ∈ s.tasks, Sends (sentTo x (s.exitSent cur code))
    (¬ s.GroupOrphaned (s.pgrp x) ∧ s'.GroupOrphaned (s.pgrp x) ∧ s.StoppedJob cur (s.pgrp x))

/-- No group with stopped jobs has been an orphan before though it has a child of `cur`, or that
process itself, whose parent is in another group of the session; and group 0, which `kill_pg` does not
take, does not become an orphan with stopped jobs. -/
structure OnlyNew (s : Exits) (cur : ℕ) : Prop where
  old : ∀ p q, p ∈ s.tasks → s.tree.pptr p = some q → p = cur ∨ q = cur →
    s.pgrp q ≠ s.pgrp p → s.session q = s.session p → s.GroupOrphaned (s.pgrp p) →
      s.StoppedJob cur (s.pgrp p) → s.pgrp p = 0
  zero : ¬ s.GroupOrphaned 0 →
    (∀ p, s.Linked p → s.pgrp p = 0 → p = cur ∨ s.tree.pptr p = some cur) → ¬ s.StoppedJob cur 0

section Signals

variable {s t : Exits} {cur init p q x g r : ℕ} {sig pgrp : ℤ} {l : List ℕ} {A B : Prop}

theorem sentTo_append (x : ℕ) (l l' : List (ℕ × ℤ)) :
    sentTo x (l ++ l') = sentTo x l ++ sentTo x l' := by
  rw [sentTo, List.filter_append, List.map_append, sentTo, sentTo]

/-- A signal to each process of a list. -/
theorem sentTo_map (hl : l.Nodup) (sig : ℤ) :
    sentTo x (l.map (·, sig)) = if x ∈ l then [sig] else [] := by
  induction l with
  | nil => rfl
  | cons y l ih =>
    obtain ⟨hy, hl⟩ := List.nodup_cons.mp hl
    have hcons : sentTo x ((y :: l).map (·, sig)) =
        sentTo x [(y, sig)] ++ sentTo x (l.map (·, sig)) := sentTo_append x [_] _
    rw [hcons, ih hl]
    by_cases hxy : y = x
    · subst hxy
      rw [if_neg hy, if_pos List.mem_cons_self]
      simp [sentTo]
    · have hmem : (x ∈ y :: l) = (x ∈ l) := by simp [Ne.symm hxy]
      simp [sentTo, hxy, hmem]

theorem Sends.iff {l : List ℤ} (h : Sends l A) : Sends l B ↔ (A ↔ B) := by
  constructor
  · intro h'
    constructor
    · intro ha
      by_contra hb
      have heq := (h.1 ha).symm.trans (h'.2 hb)
      cases heq
    · intro hb
      by_contra ha
      have heq := (h'.1 hb).symm.trans (h.2 ha)
      cases heq
  · intro hab
    exact ⟨fun hb => h.1 (hab.mpr hb), fun hb => h.2 fun ha => hb (hab.mp ha)⟩

theorem mem_groupTasks (hsig : 1 ≤ sig ∧ sig ≤ 32) :
    x ∈ s.groupTasks pgrp sig ↔ x ∈ s.tasks ∧ (s.pgrp x : ℤ) = pgrp ∧ 0 < s.pgrp x := by
  rw [groupTasks]
  split
  case isTrue hbad =>
    constructor
    · exact fun hx => absurd hx List.not_mem_nil
    · rintro ⟨-, heq, hpos⟩
      omega
  case isFalse hok =>
    rw [List.mem_filter, decide_eq_true_iff]
    constructor
    · rintro ⟨hx, heq⟩
      exact ⟨hx, heq, by omega⟩
    · rintro ⟨hx, heq, -⟩
      exact ⟨hx, heq⟩

theorem nodup_groupTasks (hnd : s.tasks.Nodup) : (s.groupTasks pgrp sig).Nodup := by
  rw [groupTasks]
  split
  · exact List.nodup_nil
  · exact hnd.filter _

/-- What `tellGroup` sends to one process. -/
theorem sends_tellSent (hnd : s.tasks.Nodup) (hx : x ∈ s.tasks) :
    Sends (sentTo x (s.tellSent p q)) (s.Orphaned p q ∧ s.pgrp p = s.pgrp x ∧ 0 < s.pgrp x) := by
  have hmem : ∀ sig : ℤ, 1 ≤ sig ∧ sig ≤ 32 →
      (x ∈ s.groupTasks (s.pgrp p) sig ↔ s.pgrp p = s.pgrp x ∧ 0 < s.pgrp x) := by
    intro sig hsig
    rw [mem_groupTasks hsig]
    constructor
    · rintro ⟨-, heq, hpos⟩
      exact ⟨by omega, hpos⟩
    · rintro ⟨heq, hpos⟩
      exact ⟨hx, by omega, hpos⟩
  have hhup := hmem SIGHUP (by decide)
  have hcont := hmem SIGCONT (by decide)
  rw [tellSent]
  by_cases ho : s.Orphaned p q
  · rw [if_pos ho, sentTo_append, sentTo_map (nodup_groupTasks hnd),
      sentTo_map (nodup_groupTasks hnd)]
    constructor
    · rintro ⟨-, hg⟩
      rw [if_pos (hhup.mpr hg), if_pos (hcont.mpr hg)]
      rfl
    · intro hno
      have hg : ¬ (s.pgrp p = s.pgrp x ∧ 0 < s.pgrp x) := fun hg => hno ⟨ho, hg⟩
      rw [if_neg fun h => hg (hhup.mp h), if_neg fun h => hg (hcont.mp h)]
      rfl
  · rw [if_neg ho]
    exact ⟨fun h => absurd h.1 ho, fun _ => rfl⟩

/-! What the signals do to stopped processes. -/

theorem foldl_stopped (hsig : sig = SIGKILL ∨ sig = SIGCONT) (l : List ℕ) :
    (l.foldl (sendSig cur sig true) s).stopped r = if r ∈ l then false else s.stopped r := by
  induction l generalizing s with
  | nil => rfl
  | cons p l ih =>
    have hsent : (sendSig cur sig true s p).stopped = update s.stopped p false := by
      rw [sendSig, if_pos ⟨.inl rfl, hsig⟩]
    rw [List.foldl_cons, ih, hsent]
    by_cases hrp : r = p
    · subst hrp
      simp
    · simp [hrp]

theorem foldl_hup (l : List ℕ) : l.foldl (sendSig cur SIGHUP true) s = s := by
  have hsig : ¬ ((SIGHUP : ℤ) = SIGKILL ∨ (SIGHUP : ℤ) = SIGCONT) := by decide
  induction l with
  | nil => rfl
  | cons p l ih =>
    rw [List.foldl_cons, sendSig, if_neg fun h => hsig h.2]
    exact ih

theorem tellGroup_stopped (s : Exits) (cur p q r : ℕ) : (s.tellGroup cur p q).stopped r =
    if s.Orphaned p q ∧ r ∈ s.groupTasks (s.pgrp p) SIGCONT then false else s.stopped r := by
  rw [tellGroup]
  by_cases ho : s.Orphaned p q
  · rw [if_pos ho, killPg, killPg, foldl_hup, foldl_stopped (.inr rfl)]
    simp [ho]
  · rw [if_neg ho, if_neg fun h => ho h.1]

/-- A group that is told has no stopped jobs any more. -/
theorem tellGroup_hasStopped (cur : ℕ) (ho : s.Orphaned p q) (hpos : 0 < s.pgrp p)
    (htable : (s.tellGroup cur p q).tree.table = s.tree.table) :
    (s.tellGroup cur p q).hasStoppedJobs (s.pgrp p) = false := by
  rw [hasStoppedJobs, List.any_eq_false]
  intro r hr
  have htasks : (s.tellGroup cur p q).tasks = s.tasks := by rw [tasks, tasks, htable]
  have hpgrp : (s.tellGroup cur p q).pgrp r = s.pgrp r := by rw [Exits.pgrp, Exits.pgrp, htable]
  rw [htasks] at hr
  rw [hpgrp, tellGroup_stopped]
  by_cases hg : s.pgrp r = s.pgrp p
  · rw [if_pos ⟨ho, (mem_groupTasks (by decide)).mpr ⟨hr, by omega, by omega⟩⟩]
    simp
  · simp [hg]

/-- The others keep theirs. -/
theorem tellGroup_hasStopped_of_ne (hne : s.Orphaned p q → s.pgrp p ≠ g) :
    (s.tellGroup cur p q).hasStoppedJobs g = s.hasStoppedJobs g := by
  have htable : (s.tellGroup cur p q).tree.table = s.tree.table := by rw [tree_tellGroup]
  have htasks : (s.tellGroup cur p q).tasks = s.tasks := by rw [tasks, tasks, htable]
  rw [hasStoppedJobs, hasStoppedJobs, htasks]
  refine congrArg s.tasks.any (funext fun r => ?_)
  have hpgrp : (s.tellGroup cur p q).pgrp r = s.pgrp r := by rw [Exits.pgrp, Exits.pgrp, htable]
  rw [hpgrp, tellGroup_stopped]
  by_cases hg : s.pgrp r = g
  · rw [if_neg]
    rintro ⟨ho, hmem⟩
    have hgroup := ((mem_groupTasks (by decide)).mp hmem).2.1
    exact hne ho (by omega)
  · simp [hg]

end Signals

/-! ### The loop over the children -/

section Loop

variable {s t t' : Exits} {cur init p q x g r fuel : ℕ} {D l : List ℕ} {code : BitVec 32} {z : ℕ}

/-- `t` is `s` in the course of `do_exit`: the process is a zombie, and the children in `D` have been
given to init. -/
structure Moved (s t : Exits) (cur init : ℕ) (D : List ℕ) : Prop where
  table : t.tree.table = s.tree.table
  session : t.session = s.session
  zombie : t.tree.zombie = update s.tree.zombie cur true
  pptr : ∀ p, t.tree.pptr p = if p ∈ D then some init else s.tree.pptr p

namespace Moved

theorem tasks (h : Moved s t cur init D) : t.tasks = s.tasks := by
  rw [Exits.tasks, Exits.tasks, h.table]

theorem pgrp (h : Moved s t cur init D) (p : ℕ) : t.pgrp p = s.pgrp p := by
  rw [Exits.pgrp, Exits.pgrp, h.table]

theorem pid (h : Moved s t cur init D) (p : ℕ) : t.pid p = s.pid p := by
  rw [Exits.pid, Exits.pid, h.table]

theorem setZombie (s : Exits) (cur init : ℕ) (code : BitVec 32) :
    Moved s (s.setZombie cur code) cur init [] :=
  ⟨rfl, rfl, rfl, fun p => by rw [if_neg List.not_mem_nil]; rfl⟩

theorem setParent (h : Moved s t cur init D) (p : ℕ) :
    Moved s (t.setParent p init) cur init (p :: D) := by
  refine ⟨h.table, h.session, h.zombie, fun r => ?_⟩
  change update t.tree.pptr p (some init) r = _
  by_cases hr : r = p
  · subst hr
    rw [Function.update_self, if_pos List.mem_cons_self]
  · rw [Function.update_of_ne hr, h.pptr]
    simp [hr]

theorem tellGroup (h : Moved s t cur init D) (p q : ℕ) :
    Moved s (t.tellGroup cur p q) cur init D := by
  have hsession : (t.tellGroup cur p q).session = t.session := by
    have hfold : ∀ (sig : ℤ) (l : List ℕ) (u : Exits),
        (l.foldl (sendSig cur sig true) u).session = u.session := by
      intro sig l
      induction l with
      | nil => exact fun _ => rfl
      | cons y l ih =>
        intro u
        rw [List.foldl_cons, ih, sendSig]
        split <;> rfl
    rw [Exits.tellGroup]
    split
    · rw [killPg, killPg, hfold, hfold]
    · rfl
  refine ⟨?_, hsession.trans h.session, ?_, ?_⟩
  · rw [tree_tellGroup]
    exact h.table
  · rw [tree_tellGroup]
    exact h.zombie
  · rw [tree_tellGroup]
    exact h.pptr

/-- What links a group is then neither the process nor one of these children. -/
theorem linked (h : Moved s t cur init D) (hinit : s.pid init = 1) :
    t.Linked r ↔ s.Linked r ∧ r ≠ cur ∧ r ∉ D := by
  rw [Linked, Linked, h.tasks, h.zombie, h.pptr]
  by_cases hcur : r = cur
  · subst hcur
    simp
  rw [Function.update_of_ne hcur]
  by_cases hD : r ∈ D
  · -- its parent is init
    rw [if_pos hD]
    constructor
    · rintro ⟨-, -, q, hq, hpid, -⟩
      obtain rfl := Option.some.inj hq
      rw [h.pid] at hpid
      exact absurd hinit hpid
    · exact fun hlink => absurd hD hlink.2.2
  · rw [if_neg hD, h.session]
    simp only [h.pid, h.pgrp]
    exact ⟨fun hlink => ⟨hlink, hcur, hD⟩, fun hlink => hlink.1⟩

theorem groupOrphaned (h : Moved s t cur init D) (hinit : s.pid init = 1) :
    t.GroupOrphaned g ↔ ∀ r, s.Linked r → s.pgrp r = g → r = cur ∨ r ∈ D := by
  constructor
  · intro ho r hr hg
    by_contra hno
    rw [not_or] at hno
    exact ho r ((h.linked hinit).mpr ⟨hr, hno⟩) ((h.pgrp r).trans hg)
  · intro hall r hr hg
    obtain ⟨hs, hcur, hD⟩ := (h.linked hinit).mp hr
    rw [h.pgrp] at hg
    exact (hall r hs hg).elim hcur hD

end Moved

theorem isOrphanedPgrp_iff : s.isOrphanedPgrp g = true ↔ s.GroupOrphaned g := by
  rw [isOrphanedPgrp, List.all_eq_true]
  constructor
  · rintro hall p ⟨hp, hz, q, hq, hpid, hout, hsession⟩ hg
    have hcase := hall p hp
    rw [hq, hz] at hcase
    simp [hg, hpid, hsession] at hcase
    exact hout (hcase.trans hg.symm)
  · intro ho p hp
    by_contra hno
    have hcase : s.pgrp p = g ∧ s.tree.zombie p = false ∧
        ∃ q, s.tree.pptr p = some q ∧ s.pid q ≠ 1 ∧ s.pgrp q ≠ g ∧ s.session q = s.session p := by
      cases hq : s.tree.pptr p with
      | none =>
        rw [hq] at hno
        simp at hno
      | some q =>
        rw [hq] at hno
        simpa [and_assoc] using hno
    obtain ⟨hg, hz, q, hq, hpid, hout, hsession⟩ := hcase
    exact ho p ⟨hp, hz, q, hq, hpid, hg ▸ hout, hsession⟩ hg

/-- The test of `do_exit` for the child `p`, when those in `D` are given to init: it is the last link of
the group `g` to the session. -/
def Cut (s : Exits) (cur g : ℕ) (D : List ℕ) (p : ℕ) : Prop :=
  s.pgrp p = g ∧ s.pgrp cur ≠ g ∧ s.session cur = s.session p ∧
    ∀ r, s.Linked r → s.pgrp r = g → r = cur ∨ r ∈ D

/-- That test for one of the children in `l`. -/
def Hit (s : Exits) (cur g : ℕ) : List ℕ → List ℕ → Prop
  | _, [] => False
  | D, p :: l => s.Cut cur g (p :: D) p ∨ s.Hit cur g (p :: D) l

/-- A child passes the test if and only if one is tested for the group, and the group is an orphan at
the end. -/
theorem hit_iff (hl : ∀ r ∈ l, s.tree.pptr r = some cur) : s.Hit cur g D l ↔
    (∀ r, s.Linked r → s.pgrp r = g → r = cur ∨ r ∈ D ∨ r ∈ l) ∧
      ∃ p ∈ l, s.pgrp p = g ∧ s.pgrp cur ≠ g ∧ s.session cur = s.session p := by
  induction l generalizing D with
  | nil =>
    constructor
    · exact False.elim
    · rintro ⟨-, p, hp, -⟩
      cases hp
  | cons p l ih =>
    have hl' : ∀ r ∈ l, s.tree.pptr r = some cur := fun r hr => hl r (List.mem_cons_of_mem p hr)
    rw [Hit, ih hl']
    constructor
    · rintro (⟨hg, hout, hsession, hall⟩ | ⟨hall, r, hr, hlink⟩)
      · refine ⟨fun r hr hrg => ?_, p, List.mem_cons_self, hg, hout, hsession⟩
        simp only [List.mem_cons] at hall ⊢
        have hcase := hall r hr hrg
        tauto
      · refine ⟨fun r' hr' hrg => ?_, r, List.mem_cons_of_mem p hr, hlink⟩
        simp only [List.mem_cons] at hall ⊢
        have hcase := hall r' hr' hrg
        tauto
    · rintro ⟨hall, r, hr, hlink⟩
      by_cases hrest : ∃ r ∈ l, s.pgrp r = g ∧ s.pgrp cur ≠ g ∧ s.session cur = s.session r
      · refine .inr ⟨fun r' hr' hrg => ?_, hrest⟩
        simp only [List.mem_cons] at hall ⊢
        have hcase := hall r' hr' hrg
        tauto
      · -- no child behind `p` links the group
        have hrp : r = p := by
          rcases List.mem_cons.mp hr with hrp | hr
          · exact hrp
          · exact absurd ⟨r, hr, hlink⟩ hrest
        subst hrp
        refine .inl ⟨hlink.1, hlink.2.1, hlink.2.2, fun r' hr' hrg => ?_⟩
        rcases hall r' hr' hrg with hcur | hD | hmem
        · exact .inl hcur
        · exact .inr (List.mem_cons_of_mem r hD)
        · rcases List.mem_cons.mp hmem with rfl | hmem
          · exact .inr List.mem_cons_self
          · obtain ⟨-, -, q, hq, -, hout, hsession⟩ := hr'
            rw [hl' r' hmem] at hq
            obtain rfl := Option.some.inj hq
            rw [hrg] at hout
            exact absurd ⟨r', hmem, hrg, hout, hsession⟩ hrest

/-- The test for the child `p`. -/
theorem Moved.orphaned (h : Moved s t cur init D) (hinit : s.pid init = 1) :
    t.Orphaned p q ↔ s.pgrp q ≠ s.pgrp p ∧ s.session q = s.session p ∧
      (∀ r, s.Linked r → s.pgrp r = s.pgrp p → r = cur ∨ r ∈ D) ∧
        t.hasStoppedJobs (s.pgrp p) = true := by
  rw [Orphaned, isOrphanedPgrp_iff, h.groupOrphaned hinit, h.pgrp, h.pgrp, h.session]

/-- What one process gets from the loop. -/
theorem sends_loopSent (hinit : s.pid init = 1) (hnd : s.tasks.Nodup) (hx : x ∈ s.tasks)
    (h : Moved s t cur init D) (hosptr : t.tree.osptr = s.tree.osptr)
    (hl : IsList s.tree.osptr (some p) l) (hfuel : l.length ≤ fuel) :
    Sends (sentTo x (t.loopSent cur init fuel p))
      (0 < s.pgrp x ∧ t.hasStoppedJobs (s.pgrp x) = true ∧ s.Hit cur (s.pgrp x) D l) := by
  induction fuel generalizing t p l D with
  | zero =>
    rw [List.length_eq_zero_iff.mp (Nat.le_zero.mp hfuel)] at hl
    cases hl
  | succ fuel ih =>
    cases l with
    | nil => cases hl
    | cons y l =>
      obtain ⟨hy, hl⟩ := hl
      obtain rfl := Option.some.inj hy
      have h₁ := h.setParent p
      set t₁ := t.setParent p init with ht₁
      have hstop : t₁.hasStoppedJobs = t.hasStoppedJobs := rfl
      have hsent := sends_tellSent (p := p) (q := cur) (h₁.tasks.symm ▸ hnd) (h₁.tasks.symm ▸ hx)
      rw [h₁.orphaned hinit, h₁.pgrp, h₁.pgrp, hstop] at hsent
      -- what is left to do for the children behind `p`
      have hrest : ∀ b : Bool, (t₁.tellGroup cur p cur).hasStoppedJobs (s.pgrp x) = b →
          Sends (sentTo x (match t₁.tree.osptr p with
            | some q => (t₁.tellGroup cur p cur).loopSent cur init fuel q
            | none => [])) (0 < s.pgrp x ∧ b = true ∧ s.Hit cur (s.pgrp x) (p :: D) l) := by
        rintro b rfl
        have hnext : t₁.tree.osptr p = s.tree.osptr p := congrFun hosptr p
        rw [hnext]
        cases hq : s.tree.osptr p with
        | none =>
          rw [hq] at hl
          cases l with
          | nil => exact ⟨fun hno => hno.2.2.elim, fun _ => rfl⟩
          | cons y l => cases hl.1
        | some q =>
          rw [hq] at hl
          refine ih (h₁.tellGroup p cur) ?_ hl (Nat.le_of_succ_le_succ hfuel)
          rw [tree_tellGroup]
          exact hosptr
      have hexpand : t.loopSent cur init (fuel + 1) p = t₁.tellSent p cur ++
          match t₁.tree.osptr p with
          | some q => (t₁.tellGroup cur p cur).loopSent cur init fuel q
          | none => [] := rfl
      rw [hexpand, sentTo_append]
      by_cases htold : s.pgrp p = s.pgrp x ∧ t₁.Orphaned p cur ∧ 0 < s.pgrp x
      · obtain ⟨hg, ho, hpos⟩ := htold
        have ho' := (h₁.orphaned hinit).mp ho
        -- the group is told now, and not again
        have hgone : (t₁.tellGroup cur p cur).hasStoppedJobs (s.pgrp x) = false := by
          have hnone := tellGroup_hasStopped cur ho (by rw [h₁.pgrp]; omega)
            (by rw [tree_tellGroup])
          rwa [h₁.pgrp, hg] at hnone
        rw [(hrest false hgone).2 (fun hno => Bool.false_ne_true hno.2.1), List.append_nil]
        rw [hg] at ho'
        refine ⟨fun _ => hsent.1 ⟨?_, hg, hpos⟩, fun hno => absurd ⟨hpos, ho'.2.2.2, .inl ?_⟩ hno⟩
        · rw [hg]
          exact ho'
        · exact ⟨hg, ho'.1, ho'.2.1, ho'.2.2.1⟩
      · have hsame : 0 < s.pgrp x → (t₁.tellGroup cur p cur).hasStoppedJobs (s.pgrp x) =
            t.hasStoppedJobs (s.pgrp x) := by
          intro hpos
          refine (tellGroup_hasStopped_of_ne fun ho hg => ?_).trans rfl
          rw [h₁.pgrp] at hg
          exact htold ⟨hg, ho, hpos⟩
        have hnone : sentTo x (t₁.tellSent p cur) = [] := by
          refine hsent.2 fun hno => htold ⟨hno.2.1, ?_, hno.2.2⟩
          exact (h₁.orphaned hinit).mpr hno.1
        rw [hnone, List.nil_append]
        refine (hrest _ rfl).iff.mpr ⟨?_, ?_⟩
        · rintro ⟨hpos, hstopped, hhit⟩
          rw [hsame hpos] at hstopped
          exact ⟨hpos, hstopped, .inr hhit⟩
        · rintro ⟨hpos, hstopped, hcut | hhit⟩
          · refine absurd ⟨hcut.1, (h₁.orphaned hinit).mpr ?_, hpos⟩ htold
            obtain ⟨hg, hout, hsession, hall⟩ := hcut
            rw [hg]
            exact ⟨hout, hsession, hall, hstopped⟩
          · refine ⟨hpos, ?_, hhit⟩
            rw [hsame hpos]
            exact hstopped

/-- The state after the loop. -/
theorem exitLoop_moved (h : Moved s t cur init D) (hosptr : t.tree.osptr = s.tree.osptr)
    (hcptr : t.tree.cptr init ≠ none) (hl : IsList s.tree.osptr (some p) l)
    (hfuel : l.length ≤ fuel) : ∃ t' D', t.exitLoop cur init fuel p = some t' ∧
      Moved s t' cur init D' ∧ ∀ r, r ∈ D' ↔ r ∈ D ∨ r ∈ l := by
  induction fuel generalizing t p l D with
  | zero =>
    rw [List.length_eq_zero_iff.mp (Nat.le_zero.mp hfuel)] at hl
    cases hl
  | succ fuel ih =>
    cases l with
    | nil => cases hl
    | cons y l =>
      obtain ⟨hy, hl⟩ := hl
      obtain rfl := Option.some.inj hy
      have h₁ := (h.setParent p).tellGroup p cur
      have htree : ((t.setParent p init).tellGroup cur p cur).tree = (t.setParent p init).tree :=
        tree_tellGroup _ _ _ _
      rw [exitLoop]
      have hnext : ((t.setParent p init).tellGroup cur p cur).tree.osptr p = s.tree.osptr p := by
        rw [htree]
        exact congrFun hosptr p
      rw [hnext]
      cases hq : s.tree.osptr p with
      | some q =>
        rw [hq] at hl
        obtain ⟨t', D', hs', hm', hD'⟩ := ih h₁ (by rw [htree]; exact hosptr)
          (by rw [htree]; exact hcptr) hl (Nat.le_of_succ_le_succ hfuel)
        refine ⟨t', D', hs', hm', fun r => ?_⟩
        rw [hD' r, List.mem_cons, List.mem_cons]
        tauto
      | none =>
        rw [hq] at hl
        cases l with
        | cons y l => cases hl.1
        | nil =>
          obtain ⟨c, hc⟩ := Option.ne_none_iff_exists'.mp hcptr
          have hc' : ((t.setParent p init).tellGroup cur p cur).tree.cptr init = some c := by
            rw [htree]
            exact hc
          dsimp only
          rw [hc']
          refine ⟨_, p :: D, rfl, ⟨h₁.table, h₁.session, h₁.zombie, h₁.pptr⟩, fun r => ?_⟩
          rw [List.mem_cons, List.mem_singleton]
          tauto

end Loop

/-! ### `do_exit` -/

section Exit

variable {s s' : Exits} {cur init q x g z : ℕ} {l : List ℕ} {code : BitVec 32}

theorem mem_tasks (hf : s.tree.Family z) : x ∈ s.tasks ↔ s.tree.Alive x ∧ x ≠ z := by
  rw [Exits.tasks, List.mem_filterMap]
  simp only [List.mem_reverse, List.mem_range'_1]
  constructor
  · rintro ⟨i, ⟨hi, -⟩, hx⟩
    refine ⟨⟨i, hx⟩, ?_⟩
    rintro rfl
    have hslot := hf.ordered.slot 0 i x hf.root hx
    omega
  · rintro ⟨⟨i, hx⟩, hne⟩
    have hlt := hf.ordered.lt i x hx
    have hpos : i ≠ 0 := by
      rintro rfl
      exact hne (Option.some.inj (hx.symm.trans hf.root))
    rw [nrTasks] at hlt ⊢
    exact ⟨i, by omega, hx⟩

theorem nodup_tasks (hf : s.tree.Family z) : s.tasks.Nodup := by
  refine List.Nodup.filterMap ?_ (List.nodup_reverse.mpr List.nodup_range')
  intro i j p hi hj
  exact hf.ordered.slot i j p hi hj

theorem setZombie_hasStopped :
    (s.setZombie cur code).hasStoppedJobs g = true ↔ s.StoppedJob cur g := by
  rw [hasStoppedJobs, List.any_eq_true]
  have hpgrp : (s.setZombie cur code).pgrp = s.pgrp := rfl
  have hstop : (s.setZombie cur code).stopped = update s.stopped cur false := rfl
  rw [hpgrp, hstop]
  constructor
  · rintro ⟨p, hp, hcase⟩
    simp only [Bool.and_eq_true, decide_eq_true_eq] at hcase
    obtain ⟨hg, hs⟩ := hcase
    have hne : p ≠ cur := by
      rintro rfl
      rw [Function.update_self] at hs
      cases hs
    rw [Function.update_of_ne hne] at hs
    exact ⟨p, hp, hne, hg, hs⟩
  · rintro ⟨p, hp, hne, hg, hs⟩
    refine ⟨p, hp, ?_⟩
    rw [Function.update_of_ne hne, hs]
    simpa using hg

/-- A process whose parent is outside of its group and in its session is among the exiting process and
its children. -/
def LinkOut (s : Exits) (cur g : ℕ) : Prop := ∃ p q, p ∈ s.tasks ∧ s.tree.pptr p = some q ∧
  (p = cur ∨ q = cur) ∧ s.pgrp p = g ∧ s.pgrp q ≠ g ∧ s.session q = s.session p

/-- What `do_exit` does to one process: it is told if one of those has been tested for its group, and
the group is an orphan at the end. -/
theorem sends_exitSent (hf : s.tree.Family z) (hinit : s.tree.table.task 1 = some init)
    (hpid : s.pid init = 1) (hcur : cur ∈ s.tasks) (hcptr : s.tree.cptr init ≠ none ∨
      s.tree.cptr cur = none) (code : BitVec 32) :
    ∃ s', s.doExit cur code = some s' ∧
      (∀ g, s'.GroupOrphaned g ↔
        ∀ r, s.Linked r → s.pgrp r = g → r = cur ∨ s.tree.pptr r = some cur) ∧
      ∀ x ∈ s.tasks, Sends (sentTo x (s.exitSent cur code)) (0 < s.pgrp x ∧
        s.StoppedJob cur (s.pgrp x) ∧ s'.GroupOrphaned (s.pgrp x) ∧
          s.LinkOut cur (s.pgrp x)) := by
  obtain ⟨halive, hcurz⟩ := (mem_tasks hf).mp hcur
  obtain ⟨q, hq, -⟩ := hf.parent cur halive
  obtain ⟨l, hk⟩ := hf.kids cur halive
  have hl : ∀ r ∈ l, s.tree.pptr r = some cur := fun r hr => ((hk.mem r).mp hr).2.2
  have hnd := nodup_tasks hf
  -- a process that links a group has a parent, and is in the list if that is the process
  have hmem : ∀ r, s.Linked r → (r ∈ l ↔ s.tree.pptr r = some cur) := by
    intro r hr
    rw [hk.mem]
    obtain ⟨hra, hrz⟩ := (mem_tasks hf).mp hr.1
    exact ⟨fun h => h.2.2, fun h => ⟨hra, hrz, h⟩⟩
  set s₀ := s.setZombie cur code with hs₀
  have hm₀ : Moved s s₀ cur init [] := .setZombie s cur init code
  set s₁ := s₀.tellGroup cur cur q with hs₁
  have hm₁ : Moved s s₁ cur init [] := hm₀.tellGroup cur q
  have htree : s₁.tree = s₀.tree := tree_tellGroup _ _ _ _
  have hdo : s.doExit cur code =
      (s.tree.cptr cur).elim (some s₁) fun p => s₁.exitLoop cur init nrTasks p := by
    have hkid : s₁.tree.cptr cur = s.tree.cptr cur := by
      rw [htree]
      rfl
    rw [doExit, hq, hinit]
    dsimp only
    rw [← hs₀, ← hs₁]
    cases hc : s.tree.cptr cur with
    | none =>
      rw [hkid, hc]
      rfl
    | some p =>
      rw [hkid, hc]
      rfl
  have hsent : s.exitSent cur code = s₀.tellSent cur q ++
      (s.tree.cptr cur).elim [] fun p => s₁.loopSent cur init nrTasks p := by
    have hkid : (s.setZombie cur code).tree.cptr cur = s.tree.cptr cur := rfl
    rw [exitSent, hq, hinit]
    dsimp only
    rw [hkid]
    cases s.tree.cptr cur with
    | none => rfl
    | some p => rfl
  -- the state afterwards
  obtain ⟨s', hs', D', hm', hD'⟩ : ∃ s', s.doExit cur code = some s' ∧ ∃ D',
      Moved s s' cur init D' ∧ ∀ r, r ∈ D' ↔ r ∈ l := by
    rw [hdo]
    cases hc : s.tree.cptr cur with
    | none =>
      have hnil : l = [] := List.head?_eq_none_iff.mp ((hk.dll.head?).symm.trans hc)
      subst hnil
      exact ⟨s₁, rfl, [], hm₁, fun _ => Iff.rfl⟩
    | some p =>
      have hci : s₁.tree.cptr init ≠ none := by
        rw [htree]
        refine hcptr.resolve_right ?_
        rw [hc]
        exact Option.some_ne_none _
      obtain ⟨t', D', ht', hm', hD'⟩ := exitLoop_moved hm₁ (by rw [htree]; rfl) hci
        (hc ▸ hk.dll.list) (hf.length_le hk)
      exact ⟨t', ht', D', hm', fun r => by rw [hD']; simp⟩
  have horph : ∀ g, s'.GroupOrphaned g ↔
      ∀ r, s.Linked r → s.pgrp r = g → r = cur ∨ s.tree.pptr r = some cur := by
    intro g
    rw [hm'.groupOrphaned hpid]
    refine forall_congr' fun r => forall_congr' fun hr => ?_
    rw [hD', hmem r hr]
  refine ⟨s', hs', horph, fun x hx => ?_⟩
  -- the two tests of a group
  have htop := sends_tellSent (p := cur) (q := q) (hm₀.tasks.symm ▸ hnd) (hm₀.tasks.symm ▸ hx)
  rw [hm₀.orphaned hpid, hm₀.pgrp, hm₀.pgrp] at htop
  have hloop : Sends (sentTo x ((s.tree.cptr cur).elim [] fun p =>
      s₁.loopSent cur init nrTasks p)) (0 < s.pgrp x ∧ s₁.hasStoppedJobs (s.pgrp x) = true ∧
        s.Hit cur (s.pgrp x) [] l) := by
    cases hc : s.tree.cptr cur with
    | none =>
      have hnil : l = [] := List.head?_eq_none_iff.mp ((hk.dll.head?).symm.trans hc)
      subst hnil
      exact ⟨fun hno => hno.2.2.elim, fun _ => rfl⟩
    | some p =>
      exact sends_loopSent hpid hnd hx hm₁ (by rw [htree]; rfl) (hc ▸ hk.dll.list)
        (hf.length_le hk)
  rw [hit_iff hl] at hloop
  have hstop : s₀.hasStoppedJobs (s.pgrp x) = true ↔ s.StoppedJob cur (s.pgrp x) :=
    setZombie_hasStopped
  rw [hsent, sentTo_append]
  by_cases hgroup : s.pgrp cur = s.pgrp x
  · -- the group of the process itself: no child is tested for it
    have hnil := hloop.2 fun hno => by
      obtain ⟨-, -, -, p, -, -, hout, -⟩ := hno
      exact hout hgroup
    rw [hnil, List.append_nil]
    refine htop.iff.mpr ⟨?_, ?_⟩
    · rintro ⟨⟨hout, hsession, hall, hstopped⟩, hg, hpos⟩
      rw [hgroup] at hout hall hstopped
      refine ⟨hpos, hstop.mp hstopped, (horph _).mpr fun r hr hrg => ?_, cur, q, hcur, hq,
        .inl rfl, hgroup, hout, hsession⟩
      exact (hall r hr hrg).elim .inl fun hno => absurd hno List.not_mem_nil
    · rintro ⟨hpos, hstopped, ho, p, q', hp, hpq, hlink, hpg, hout, hsession⟩
      rcases hlink with rfl | rfl
      · obtain rfl := Option.some.inj (hq.symm.trans hpq)
        refine ⟨⟨hgroup ▸ hout, hsession, fun r hr hrg => .inl ?_, hgroup ▸ hstop.mpr hstopped⟩,
          hgroup, hpos⟩
        rw [hgroup] at hrg
        refine ((horph _).mp ho r hr hrg).resolve_right fun hpr => ?_
        -- a child in the group of the process does not link it
        obtain ⟨-, -, q', hq', -, hout', -⟩ := hr
        obtain rfl := Option.some.inj (hpr.symm.trans hq')
        exact hout' (hgroup.trans hrg.symm)
      · exact absurd hgroup hout
  · have hnil := htop.2 fun hno => hgroup hno.2.1
    have hsame : s₁.hasStoppedJobs (s.pgrp x) = s₀.hasStoppedJobs (s.pgrp x) :=
      tellGroup_hasStopped_of_ne fun _ => hgroup
    rw [hnil, List.nil_append]
    refine hloop.iff.mpr ?_
    rw [hsame, hstop]
    have horph' : (∀ r, s.Linked r → s.pgrp r = s.pgrp x → r = cur ∨ r ∈ ([] : List ℕ) ∨ r ∈ l) ↔
        s'.GroupOrphaned (s.pgrp x) := by
      rw [horph]
      refine forall_congr' fun r => forall_congr' fun hr => ?_
      rw [← hmem r hr]
      simp
    rw [horph']
    refine and_congr_right fun _ => and_congr_right fun _ => and_congr_right fun _ => ?_
    constructor
    · rintro ⟨p, hp, hg, hout, hsession⟩
      have hkid := (hk.mem p).mp hp
      exact ⟨p, cur, (mem_tasks hf).mpr ⟨hkid.1, hkid.2.1⟩, hkid.2.2, .inr rfl, hg, hout, hsession⟩
    · rintro ⟨p, q', hp, hpq, rfl | rfl, hg, hout, hsession⟩
      · exact absurd hg hgroup
      · obtain ⟨hpa, hpz⟩ := (mem_tasks hf).mp hp
        exact ⟨p, (hk.mem p).mpr ⟨hpa, hpz, hpq⟩, hg, hout, hsession⟩

end Exit

end Exits

/-- **Orphaned groups**: an exit sends SIGHUP and then SIGCONT to the processes of the groups that it
has orphaned, if they have stopped jobs, and to no others, if and only if no such group has been an
orphan before, and is not group 0. -/
theorem orphaned_groups {s : Exits} {cur init z : ℕ} (hf : s.tree.Family z)
    (hinit : s.tree.table.task 1 = some init) (hpid : s.pid init = 1)
    (hrun : s.tree.Running cur) (hroot : s.tree.table.task 0 ≠ some cur) (code : BitVec 32) :
    ∃ s', s.doExit cur code = some s' ∧ (s.Told s' cur code ↔ s.OnlyNew cur) := by
  have hcurz : cur ≠ z := fun heq => hroot (heq ▸ hf.root)
  have hcur : cur ∈ s.tasks := (Exits.mem_tasks hf).mpr ⟨hrun.1, hcurz⟩
  have hcptr : s.tree.cptr init ≠ none ∨ s.tree.cptr cur = none := by
    by_cases hci : cur = init
    · rw [hci]
      exact (ne_or_eq (s.tree.cptr init) none)
    · -- init has a child, of which the process descends
      left
      intro hnone
      obtain ⟨x, hxa, hxi⟩ := ((hf.init.2 init hinit).2.2 cur hrun.1 hcurz hci).exists_child
        hrun.1 fun _ _ => hf.parent_alive
      obtain ⟨l, hk⟩ := hf.kids init ⟨1, hinit⟩
      have hnil : l = [] := List.head?_eq_none_iff.mp ((hk.dll.head?).symm.trans hnone)
      have hxz : x ≠ z := by
        rintro rfl
        rw [hf.rootParent] at hxi
        have hslot := hf.ordered.slot 0 1 x hf.root (by rw [hinit, ← hxi])
        omega
      have hmem := (hk.mem x).mpr ⟨hxa, hxz, hxi⟩
      rw [hnil] at hmem
      cases hmem
  obtain ⟨s', hs', horph, hsends⟩ := Exits.sends_exitSent hf hinit hpid hcur hcptr code
  refine ⟨s', hs', ?_⟩
  -- a group that becomes an orphan has been linked by the process or its children
  have hlink : ∀ g, ¬ s.GroupOrphaned g → s'.GroupOrphaned g → s.LinkOut cur g := by
    intro g hno ho
    simp only [Exits.GroupOrphaned, not_forall, not_not] at hno
    obtain ⟨p, hp, hg⟩ := hno
    obtain ⟨hpt, -, q, hq, -, hout, hsession⟩ := id hp
    refine ⟨p, q, hpt, hq, ?_, hg, hg ▸ hout, hsession⟩
    refine ((horph g).mp ho p hp hg).imp_right fun hpq => ?_
    exact Option.some.inj (hq.symm.trans hpq)
  have hmono : ∀ g, s.GroupOrphaned g → s'.GroupOrphaned g := fun g ho =>
    (horph g).mpr fun r hr hg => absurd hg (ho r hr)
  constructor
  · intro htold
    refine ⟨fun p q hp hq hpc hout hsession ho hstopped => ?_, fun hno hall hstopped => ?_⟩
    · by_contra hzero
      have hiff := (hsends p hp).iff.mp (htold p hp)
      exact (hiff.mp ⟨Nat.pos_of_ne_zero hzero, hstopped, hmono _ ho, p, q, hp, hq, hpc, rfl, hout,
        hsession⟩).1 ho
    · obtain ⟨x, hx, hne, hg, hs⟩ := hstopped
      have hiff := (hsends x hx).iff.mp (htold x hx)
      rw [hg] at hiff
      exact absurd (hiff.mpr ⟨hno, (horph 0).mpr hall, x, hx, hne, hg, hs⟩).1 (lt_irrefl 0)
  · intro hnew x hx
    refine (hsends x hx).iff.mpr ⟨?_, ?_⟩
    · rintro ⟨hpos, hstopped, ho, p, q, hp, hq, hpc, hg, hout, hsession⟩
      refine ⟨fun hbefore => ?_, ho, hstopped⟩
      have hzero := hnew.old p q hp hq hpc (hg ▸ hout) hsession (hg ▸ hbefore) (hg ▸ hstopped)
      omega
    · rintro ⟨hno, ho, hstopped⟩
      refine ⟨Nat.pos_of_ne_zero fun hzero => ?_, hstopped, ho, hlink _ hno ho⟩
      rw [hzero] at hno ho hstopped
      exact hnew.zero hno ((horph 0).mp ho) hstopped

namespace Exits

/-- Init, in page 9, has a child that leads a group and has one in it, which has stopped. -/
def jobs : List ExitEvent :=
  [.fork 8 9 true, .fork 9 10 true, .setIds 10 2 0 0, .fork 10 11 true, .stop 11 18]

end Exits

/-- The group of a child of init has been an orphan before it exits, and is told all the same. -/
theorem orphan_signalled_again : ∃ s s', exiting.Reachable s ∧ s.tree.Running 10 ∧
    s.GroupOrphaned 2 ∧ s.doExit 10 0 = some s' ∧ ¬ s.Told s' 10 0 := by
  have hrun : (System.runOf Exits.next Exits.jobs (.start 8)).any (fun s =>
      s.isOrphanedPgrp 2 && decide (11 ∈ s.tasks ∧ s.pgrp 11 = 2 ∧
        Exits.sentTo 11 (s.exitSent 10 0) ≠ []) && s.inSlot 10 && !s.tree.zombie 10 &&
          (s.doExit 10 0).isSome) = true := by decide +kernel
  obtain ⟨s, hs, hall⟩ := (Option.any_eq_true _ _).mp hrun
  simp only [Bool.and_eq_true, decide_eq_true_eq, Bool.not_eq_true'] at hall
  obtain ⟨⟨⟨⟨horph, hmem, hgroup, hsent⟩, hslot⟩, hz⟩, hdo⟩ := hall
  obtain ⟨s', hs'⟩ := Option.isSome_iff_exists.mp hdo
  have hold := Exits.isOrphanedPgrp_iff.mp horph
  refine ⟨s, s', .of_runOf (fun _ _ _ => Exits.step_of_next) (fun _ _ _ => trivial)
    (.init ⟨8, rfl⟩) hs, ⟨Exits.alive_of_inSlot hslot, hz⟩, hold, hs', fun htold => ?_⟩
  refine hsent ((htold 11 hmem).2 fun hno => hno.1 ?_)
  rw [hgroup]
  exact hold

/-- The child exits instead. -/
theorem orphaned_groups_child : ∃ s s' : Exits, s.doExit 11 0 = some s' ∧
    (s.Told s' 11 0 ↔ s.OnlyNew 11) := by
  have hrun : (System.runOf Exits.next (Exits.jobs.take 4) (.start 8)).any (fun s =>
      decide (s.tree.table.task 1 = some 9 ∧ s.pid 9 = 1 ∧ s.inSlot 11 = true ∧
        s.tree.zombie 11 = false ∧ s.tree.table.task 0 = some 8)) = true := by decide +kernel
  obtain ⟨s, hs, hall⟩ := (Option.any_eq_true _ _).mp hrun
  obtain ⟨hinit, hpid, hslot, hz, hroot⟩ := of_decide_eq_true hall
  have hreach : exiting.Reach Exits.Spares s := System.Reach.of_runOf
    (fun _ _ _ => Exits.step_of_next) (fun e he s => by
      simp only [Exits.jobs, List.take_succ_cons, List.take_zero, List.mem_cons, List.not_mem_nil,
        or_false] at he
      obtain rfl | rfl | rfl | rfl := he <;> trivial) (.init ⟨8, rfl⟩) hs
  obtain ⟨-, z, hf⟩ := Exits.codes_of_reach hreach
  have hne : s.tree.table.task 0 ≠ some 11 := by
    rw [hroot]
    decide
  obtain ⟨s', hs', hiff⟩ := orphaned_groups hf hinit hpid ⟨Exits.alive_of_inSlot hslot, hz⟩ hne 0
  exact ⟨s, s', hs', hiff⟩

end Sched
