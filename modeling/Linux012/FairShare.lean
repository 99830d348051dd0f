/-
The share of a task that stays runnable (`schedule` and `do_timer` of kernel/sched.c).

* `charges`, `recharging` — a tick that the task pays for, and a step in which `schedule`
  recharges the counters;
* `Waits` — a run in which the task stays runnable, with both counted;
* `next_counter` — what a step does to the counter of the task;
* `fair_share` — the task gets as many ticks as its priority is for each recharge, up to what
  its counter holds.
-/
import Linux012.Scheduler

namespace Sched

open Sessions (slots)

namespace ProcTable

/-- A tick is taken off the counter of a task. -/
def charges (s : ProcTable) (k : ℕ) : SchedEvent → Bool
  | .tick _ => decide (s.cur = k) && (s.task k).any fun t => decide (0 < t.counter.toInt)
  | _ => false

/-- `schedule` is called in a step and recharges the counters. -/
def recharging (s : ProcTable) (e : SchedEvent) : Bool :=
  (s.calls e).any fun s₁ => decide (s₁.checked.best.1 = 0)

/-- The task in a slot is runnable, with a priority and a counter. -/
def RunsAt (s : ProcTable) (k : ℕ) (p c : ℤ) : Prop :=
  ∃ t, s.task k = some t ∧ t.state = .running ∧ t.priority.toInt = p ∧ t.counter.toInt = c

/-- Runs in which a task stays runnable with its priority: its counter at the end, how often it
was recharged, and the ticks it was charged. -/
inductive Waits (k : ℕ) (p c₀ : ℤ) (s : ProcTable) : ProcTable → ℤ → ℕ → ℕ → Prop where
  | start (h : s.RunsAt k p c₀) : Waits k p c₀ s s c₀ 0 0
  | step {s₁ s₂ : ProcTable} {c₁ c₂ : ℤ} {e : SchedEvent} {n r m : ℕ}
      (h : Waits k p c₀ s s₁ c₁ r m) (hnice : NiceTo (2 ^ 30) s₁ e) (hs : s₁.next n e = some s₂)
      (hruns : s₂.RunsAt k p c₂) :
      Waits k p c₀ s s₂ c₂ (r + (s₁.recharging e).toNat) (m + (s₁.charges k e).toNat)

variable {s s' : ProcTable} {k n : ℕ} {p c c' : ℤ} {e : SchedEvent}

theorem RunsAt.unique (h : s.RunsAt k p c) (h' : s.RunsAt k p c') : c = c' := by
  obtain ⟨t, ht, -, -, rfl⟩ := h
  obtain ⟨t', ht', -, -, rfl⟩ := h'
  rw [Option.some.inj (ht.symm.trans ht')]

/-- A runnable task stays so in the loop over alarms and signals. -/
theorem RunsAt.checked (hk : k ∈ slots) (h : s.RunsAt k p c) : s.checked.RunsAt k p c := by
  obtain ⟨t, ht, hrun, hp, hc⟩ := h
  obtain ⟨hcounter, hpriority⟩ := check_counter s.jiffies t
  refine ⟨t.check s.jiffies, ?_, ?_, ?_, ?_⟩
  · rw [ProcTable.checked, onSlots_task hk, ht]
    rfl
  · rw [Proc.check]
    split_ifs <;> first | rfl | exact hrun
  · rw [hpriority]
    exact hp
  · rw [hcounter]
    exact hc

/-- No counter is recharged while a runnable task has time left. -/
theorem RunsAt.spent (hk : k ∈ slots) (hsound : s.Sound (2 ^ 30)) (h : s.RunsAt k p c)
    (hbest : s.best.1 = 0) : c = 0 := by
  obtain ⟨t, ht, hrun, -, rfl⟩ := h
  have hlow := (hsound k t ht).1
  have hhigh : t.counter.toInt ≤ s.best.1.toInt := by
    -- it is one of the tasks that the loop compares
    obtain ⟨heq, hle⟩ | ⟨t₁, -, -, -, hc, -, hle⟩ :=
      choose_spec s.task slots slots_descending (-1) 0
    · have hneg : s.best.1 = -1 := congrArg Prod.fst heq
      rw [hneg]
      exact hle k hk t ht hrun
    · have hbest' : s.best.1 = t₁.counter := hc.symm
      rw [hbest']
      rcases hle k hk t ht hrun with hlt | ⟨heq, -⟩
      · exact Int.le_of_lt hlt
      · exact Int.le_of_eq (congrArg BitVec.toInt heq)
  rw [hbest] at hhigh
  exact Int.le_antisymm hhigh hlow

/-- A recharge leaves the priority. -/
theorem RunsAt.recharged (hk : k ∈ slots) (hsound : s.Sound (2 ^ 30)) (h : s.RunsAt k p 0) :
    s.recharged.RunsAt k p p := by
  obtain ⟨t, ht, hrun, hp, hc⟩ := h
  obtain ⟨hlow, hpos, hle⟩ := hsound k t ht
  refine ⟨t.recharge, ?_, hrun, hp, ?_⟩
  · rw [ProcTable.recharged, onSlots_task hk, ht]
    rfl
  · rcases recharge_toInt hlow hpos with ⟨-, heq⟩ | ⟨hover, -⟩
    · rw [heq, hc, hp]
      exact Int.zero_add p
    · refine absurd ?_ hover
      rw [Proc.Fits, hc]
      omega

/-- What `schedule` does to the counter of a runnable task. -/
theorem RunsAt.schedule (hk : k ∈ slots) (hsound : s.Sound (2 ^ 30)) (h : s.RunsAt k p c)
    (hs' : s.schedule n = some s') :
    s.checked.best.1 ≠ 0 ∧ s'.RunsAt k p c ∨ s.checked.best.1 = 0 ∧ c = 0 ∧ s'.RunsAt k p p := by
  have hchecked := h.checked hk
  obtain ⟨hre, rfl⟩ | ⟨hre, -, rfl⟩ := schedule_cases hsound hs'
  · exact .inl ⟨hre, hchecked⟩
  · have hzero := hchecked.spent hk hsound.checked hre
    rw [hzero] at hchecked
    exact .inr ⟨hre, hzero, hchecked.recharged hk hsound.checked⟩

/-- A tick. -/
theorem RunsAt.doTimer (hsound : s.Sound (2 ^ 30)) (h : s.RunsAt k p c) (cpl : Bool) :
    (s.doTimer cpl).1.RunsAt k p (c - (s.charges k (.tick cpl)).toNat) := by
  obtain ⟨t, ht, hrun, hp, rfl⟩ := h
  have hlow := (hsound k t ht).1
  have hlt := BitVec.toInt_lt (x := t.counter)
  by_cases hcur : s.cur = k
  · have hcharges : s.charges k (.tick cpl) = decide (0 < t.counter.toInt) := by
      rw [charges, decide_eq_true hcur, ht]
      rfl
    rw [hcharges, ProcTable.doTimer, hcur, ht]
    dsimp only
    by_cases hpos : 0 < t.counter.toInt
    · have hsub : (t.counter - 1).toInt = t.counter.toInt - 1 := by
        have hone : (1 : BitVec 32).toInt = 1 := by decide
        rw [BitVec.toInt_sub, hone]
        exact Int.bmod_eq_of_le (by omega) (by omega)
      rw [decide_eq_true hpos, hsub]
      split_ifs with hleft
      · exact ⟨_, Function.update_self _ _ _, hrun, hp, hsub⟩
      · refine ⟨_, Function.update_self _ _ _, hrun, hp, ?_⟩
        show (0 : ℤ) = t.counter.toInt - 1
        omega
    · have hzero : t.counter = 0 := BitVec.toInt_inj.mp (show t.counter.toInt = 0 by omega)
      rw [decide_eq_false hpos, hzero, if_neg (by decide)]
      exact ⟨_, Function.update_self _ _ _, hrun, hp, rfl⟩
  · have hcharges : s.charges k (.tick cpl) = false := by
      rw [charges, decide_eq_false hcur]
      rfl
    have htask : (s.doTimer cpl).1.task k = s.task k := by
      rw [ProcTable.doTimer]
      dsimp only
      cases s.task s.cur with
      | none => rfl
      | some u =>
        dsimp only
        split_ifs <;> exact Function.update_of_ne (Ne.symm hcur) _ _
    rw [hcharges]
    exact ⟨t, htask.trans ht, hrun, hp, (Int.sub_zero _).symm⟩

theorem RunsAt.counter (h : s.RunsAt k p c) {t : Proc} (ht : s.task k = some t) :
    t.counter.toInt = c := by
  obtain ⟨t', ht', -, -, hc⟩ := h
  rw [Option.some.inj (ht.symm.trans ht')]
  exact hc

/-- The steps in which `schedule` is not called leave the counter. -/
theorem RunsAt.kept (h : s.RunsAt k p c) (h' : s'.RunsAt k p c') (hs : s.next n e = some s')
    (he : ∀ cpl, e ≠ .tick cpl) (he' : e ≠ .schedule) : c' = c := by
  obtain ⟨t, ht, -, -, rfl⟩ := h
  have hset : ∀ (j : ℕ) (u : Option Proc), s' = s.setTask j u →
      (j = k → ∀ v ∈ u, v.counter = t.counter) → c' = t.counter.toInt := by
    rintro j u rfl hu
    by_cases hj : j = k
    · obtain ⟨v, hv, -, -, rfl⟩ := h'
      have hself : (s.setTask j u).task k = u := by
        rw [hj]
        exact Function.update_self _ _ _
      rw [hu hj v (hself.symm.trans hv)]
    · exact (h'.counter ((Function.update_of_ne (Ne.symm hj) _ _).trans ht)).symm
  -- a step stores one task at most, with the counter that it had
  cases e with
  | schedule => exact absurd rfl he'
  | tick cpl => exact absurd rfl (he cpl)
  | nice increment =>
    have heq : s.sysNice increment = s' := Option.some.inj hs
    rw [sysNice] at heq
    cases hcur : s.task s.cur with
    | none =>
      rw [hcur] at heq
      exact (h'.counter (heq ▸ ht)).symm
    | some u =>
      rw [hcur] at heq
      dsimp only at heq
      split_ifs at heq
      · refine hset _ _ heq.symm fun hj v hv => ?_
        obtain rfl := Option.some.inj hv
        have hsame : u = t := Option.some.inj (hcur.symm.trans (hj ▸ ht))
        show u.counter = t.counter
        rw [hsame]
      · exact (h'.counter (heq ▸ ht)).symm
  | fork j =>
    rw [ProcTable.next] at hs
    cases hcur : s.task s.cur with
    | none =>
      rw [hcur] at hs
      cases hs
    | some u =>
      rw [hcur] at hs
      dsimp only at hs
      split_ifs at hs with hfree
      refine hset _ _ (Option.some.inj hs).symm fun hj => ?_
      rw [hj, ht] at hfree
      exact absurd hfree.2 (Option.some_ne_none _)
  | other j u =>
    rw [ProcTable.next] at hs
    split_ifs at hs with hkeep
    refine hset _ _ (Option.some.inj hs).symm fun hj v hv => ?_
    obtain ⟨t₀, ht₀, hc, -⟩ := hkeep v hv
    rw [hc, Option.some.inj (ht.symm.trans (hj ▸ ht₀))]

/-- A step charges the task a tick, or recharges it when its time is spent. -/
theorem next_counter (hk : k ∈ slots) (hsound : s.Sound (2 ^ 30)) (h : s.RunsAt k p c)
    (hs : s.next n e = some s') (h' : s'.RunsAt k p c') :
    s.recharging e = false ∧ c' + (s.charges k e).toNat = c ∨
      s.recharging e = true ∧ c = (s.charges k e).toNat ∧ c' = p := by
  have hcall : ∀ {s₁ : ProcTable} {c₁ : ℤ}, s.calls e = some s₁ → s₁.Sound (2 ^ 30) →
      s₁.RunsAt k p c₁ → s₁.schedule n = some s' → c₁ + (s.charges k e).toNat = c →
      s.recharging e = false ∧ c' + (s.charges k e).toNat = c ∨
        s.recharging e = true ∧ c = (s.charges k e).toNat ∧ c' = p := by
    intro s₁ c₁ hcalls hsound₁ h₁ hs₁ hc
    have hre : s.recharging e = decide (s₁.checked.best.1 = 0) := by
      rw [recharging, hcalls]
      rfl
    rcases h₁.schedule hk hsound₁ hs₁ with ⟨hne, hsame⟩ | ⟨hzero, hspent, hfull⟩
    · rw [hre, decide_eq_false hne, h'.unique hsame]
      exact .inl ⟨rfl, hc⟩
    · rw [hre, decide_eq_true hzero, h'.unique hfull]
      exact .inr ⟨rfl, by omega, rfl⟩
  -- a tick is charged before `schedule` is called
  cases e with
  | schedule => exact hcall rfl hsound h hs (Int.add_zero c)
  | tick cpl =>
    have htick := h.doTimer hsound cpl
    rw [ProcTable.next] at hs
    by_cases hcpl : (s.doTimer cpl).2 = true
    · rw [if_pos hcpl] at hs
      exact hcall (if_pos hcpl) (hsound.doTimer cpl) htick hs (by omega)
    · rw [if_neg hcpl] at hs
      have hre : s.recharging (.tick cpl) = false := by
        rw [recharging, calls, if_neg hcpl]
        rfl
      rw [← Option.some.inj hs] at h'
      rw [h'.unique htick]
      exact .inl ⟨hre, by omega⟩
  | nice increment => exact .inl ⟨rfl, (Int.add_zero c').trans (h.kept h' hs (by simp) (by simp))⟩
  | fork j => exact .inl ⟨rfl, (Int.add_zero c').trans (h.kept h' hs (by simp) (by simp))⟩
  | other j u => exact .inl ⟨rfl, (Int.add_zero c').trans (h.kept h' hs (by simp) (by simp))⟩

end ProcTable

/-- While a task stays runnable, its counter is recharged only when it has used it up: it is
charged its priority of ticks for each recharge, up to what is left in its counter. -/
theorem fair_share (s : ProcTable) (hs : System.Reach scheduling (NiceTo (2 ^ 30)) s) (k : ℕ)
    (hk : k ∈ slots) (p c₀ c : ℤ) (r m : ℕ) (s' : ProcTable) (h : s.Waits k p c₀ s' c r m) :
    m + c = c₀ + r * p ∧ (r - 1) * p ≤ m := by
  have hrun : s.RunsAt k p c₀ ∧ System.Reach scheduling (NiceTo (2 ^ 30)) s' ∧
      s'.RunsAt k p c ∧ m + c = c₀ + r * p ∧ (r = 0 ∨ c ≤ p) := by
    induction h with
    | start hruns => exact ⟨hruns, hs, hruns, by simp, .inl rfl⟩
    | @step s₁ s₂ c₁ c₂ e n r₁ m₁ _ hnice hnext hruns ih =>
      obtain ⟨hstart, hreach, hbefore, heq, hle⟩ := ih
      refine ⟨hstart, .step hreach hnice ⟨_, hnext⟩, hruns, ?_⟩
      rcases ProcTable.next_counter hk (reach_sound hreach) hbefore hnext hruns with
        ⟨hre, hc⟩ | ⟨hre, hspent, hfull⟩
      · rw [hre]
        rw [Bool.toNat_false, Nat.add_zero]
        exact ⟨by push_cast; omega, hle.imp id fun hle => by omega⟩
      · -- the counter was used up, and is the priority now
        have hround : ((r₁ + 1 : ℕ) : ℤ) * p = r₁ * p + p := by
          rw [Nat.cast_succ, Int.add_mul, Int.one_mul]
        rw [hre, Bool.toNat_true, hround]
        exact ⟨by push_cast; omega, .inr (Int.le_of_eq hfull)⟩
  obtain ⟨⟨t, ht, -, rfl, rfl⟩, -, -, heq, hle⟩ := hrun
  obtain ⟨hlow, hpos, -⟩ := reach_sound hs k t ht
  refine ⟨heq, ?_⟩
  rw [Int.sub_mul, Int.one_mul]
  rcases hle with rfl | hle
  · rw [Nat.cast_zero, Int.zero_mul]
    omega
  · omega

/-- The second task is made and switched to, and runs for a tick. -/
theorem fair_share_tick : ∃ s s' : ProcTable, s.Waits 1 15 15 s' 14 0 1 ∧
    ((1 : ℕ) : ℤ) + 14 = 15 + (0 : ℕ) * 15 ∧ (((0 : ℕ) : ℤ) - 1) * 15 ≤ (1 : ℕ) := by
  let s₁ := (ProcTable.start 0).setTask 1 (some (ProcTable.copyOf ProcTable.initTask))
  let s := s₁.checked.switchTo 1
  have hfork : System.Reach scheduling (NiceTo (2 ^ 30)) s₁ :=
    .step (.init ⟨0, rfl⟩) (fun _ h => by cases h) (a := .fork 1) ⟨0, rfl⟩
  have hreach : System.Reach scheduling (NiceTo (2 ^ 30)) s := by
    refine .step hfork (fun _ h => by cases h) (a := .schedule) ⟨1, ?_⟩
    have hbest : s₁.checked.best = (15, 1) := by decide +kernel
    show (if s₁.checked.best.1 ≠ 0 then _ else _) = _
    rw [hbest, if_pos (by decide)]
  have hruns : s₁.RunsAt 1 15 15 := ⟨_, rfl, rfl, by decide, by decide⟩
  have hruns' : s.RunsAt 1 15 15 := hruns.checked (by decide)
  have hcharges : s.charges 1 (.tick false) = true := by decide +kernel
  have hcall : (s.doTimer false).2 = false := by decide +kernel
  have hnext : s.next 1 (.tick false) = some (s.doTimer false).1 := by
    rw [ProcTable.next, hcall]
    rfl
  have htick := ProcTable.Waits.step (.start hruns') (fun _ h => by cases h) hnext
    (hruns'.doTimer (reach_sound hreach) false)
  have hre : s.recharging (.tick false) = false := by
    rw [ProcTable.recharging, ProcTable.calls, hcall]
    rfl
  rw [hre, hcharges] at htick
  exact ⟨s, _, htick, fair_share s hreach 1 (by decide) 15 15 14 0 1 _ htick⟩

end Sched
