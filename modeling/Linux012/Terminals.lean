/-
Controlling terminals: `TTY_TABLE(n)` and the session that has it.

* `Controlling` — the terminal of a process carries its session, and the leader of the session
  of a terminal is alive and has this terminal;
* `controlling_terminal` — this holds in the runs in which no leader starts its session again
  while it has a terminal, and the foreground console stays while it is the terminal of a
  process; the last loop of `do_exit` uses no null pointer just where no slot is free;
* `exit_uses_null`, `setsid_keeps_terminal`, `console_changes_terminal` — other runs.
-/
import Linux012.Sessions

namespace Sessions

open Function (update)

/-- Processes and terminals agree. -/
structure Controlling (s : Table) : Prop where
  session : ∀ i t n, s.task i = some t → t.tty = some n →
    (s.tty (s.ttyTable n)).session = t.session
  leader : ∀ k, (s.tty k).session ≠ 0 → ∃ i t n, s.task i = some t ∧ t.leader = true ∧
    t.state ≠ .zombie ∧ t.session = (s.tty k).session ∧ t.tty = some n ∧ s.ttyTable n = k

/-- What has to hold for processes and terminals to agree. -/
def TtyCareful (s : Table) : Event → Prop
  | .store i => ∀ nr, s.call i = .getting nr → s.task nr = none ∧ ¬ s.sched.Taken s.lastPid
  -- a leader that starts its session again has no terminal
  | .setsid i suser => ∀ t ∈ s.task i, t.leader = true → suser = true → t.tty = none
  -- minor number 0 is the terminal of no process
  | .changeConsole console => console ≠ s.fgConsole → console < s.nrConsoles →
      ∀ i, i < Sched.nrTasks → ∀ t ∈ s.task i, t.tty ≠ some 0
  | _ => True

/-- What holds in all states. -/
structure Attached (s : Table) : Prop extends Controlling s where
  pid : ∀ i j t u, s.task i = some t → s.task j = some u → t.pid = u.pid → i = j
  named : ∀ i t, s.task i = some t → t.leader = true → t.session = t.pid
  tty : ∀ i t, s.task i = some t → t.tty ≠ none → t.session ≠ 0
  root : ∃ t, s.task 0 = some t ∧ t.pid = 0 ∧ t.leader = false ∧ t.state = .running ∧
    t.tty = none
  /-- the child of a fork that copies the memory -/
  child : ∀ i nr, s.call i = .copying nr → ∃ t, s.task nr = some t ∧ t.leader = false ∧
    t.state = .uninterruptible
  one : ∀ i j nr, s.call i = .copying nr → s.call j = .copying nr → i = j

/-- `t'` stands for `t` in all that concerns terminals. -/
structure Stands (t t' : Task) : Prop where
  pid : t'.pid = t.pid
  session : t'.session = t.session
  leader : t'.leader = t.leader
  tty : t'.tty = t.tty
  zombie : t'.state = .zombie → t.leader = false ∨ t.state = .zombie

theorem Stands.refl (t : Task) : Stands t t := ⟨rfl, rfl, rfl, rfl, .inr⟩

namespace Attached

variable {s s' : Table} {i k nr : ℕ} {cur t : Task}

/-- Nothing changes that concerns terminals, but for processes that go. -/
theorem stands (h : Attached s)
    (hback : ∀ i t', s'.task i = some t' → ∃ t, s.task i = some t ∧ Stands t t')
    (hforth : ∀ i t, s.task i = some t → t.leader = true → t.state ≠ .zombie → s'.task i ≠ none)
    (hroot : ∃ t, s'.task 0 = some t ∧ t.state = .running)
    (hchild : ∀ i nr, s'.call i = .copying nr → s.call i = .copying nr ∧
      ∃ t, s'.task nr = some t ∧ t.state = .uninterruptible)
    (htty : ∀ k, (s'.tty k).session = (s.tty k).session) (hfg : s'.fgConsole = s.fgConsole) :
    Attached s' := by
  have htable : ∀ n, s'.ttyTable n = s.ttyTable n := by
    intro n
    rw [Table.ttyTable, Table.ttyTable, hfg]
  refine ⟨⟨fun i t' n ht' hn => ?_, fun k hk => ?_⟩, fun i j t' u' ht' hu' heq => ?_,
    fun i t' ht' hl => ?_, fun i t' ht' hn => ?_, ?_, fun i nr hc => ?_, fun i j nr hi hj => ?_⟩
  · obtain ⟨t, ht, hst⟩ := hback i t' ht'
    rw [htty, htable, hst.session]
    exact h.session i t n ht (hst.tty ▸ hn)
  · rw [htty] at hk
    obtain ⟨i, t, n, ht, hl, hz, hs, hn, hkn⟩ := h.leader k hk
    obtain ⟨t', ht'⟩ := Option.ne_none_iff_exists'.mp (hforth i t ht hl hz)
    obtain ⟨t₀, ht₀, hst⟩ := hback i t' ht'
    rw [ht] at ht₀
    obtain rfl := Option.some.inj ht₀
    refine ⟨i, t', n, ht', hst.leader.trans hl, fun hz' => ?_, ?_, hst.tty.trans hn, ?_⟩
    · rcases hst.zombie hz' with hl' | hz'
      · rw [hl] at hl'
        cases hl'
      · exact hz hz'
    · rw [htty, hst.session, hs]
    · rw [htable, hkn]
  · obtain ⟨t, ht, hst⟩ := hback i t' ht'
    obtain ⟨u, hu, hsu⟩ := hback j u' hu'
    exact h.pid i j t u ht hu (by rw [← hst.pid, heq, hsu.pid])
  · obtain ⟨t, ht, hst⟩ := hback i t' ht'
    rw [hst.session, hst.pid]
    exact h.named i t ht (hst.leader ▸ hl)
  · obtain ⟨t, ht, hst⟩ := hback i t' ht'
    rw [hst.session]
    exact h.tty i t ht (hst.tty ▸ hn)
  · obtain ⟨t', ht', hrun⟩ := hroot
    obtain ⟨t, ht, hst⟩ := hback 0 t' ht'
    obtain ⟨t₀, ht₀, hpid, hl, -, hn⟩ := h.root
    rw [ht] at ht₀
    obtain rfl := Option.some.inj ht₀
    exact ⟨t', ht', hst.pid.trans hpid, hst.leader.trans hl, hrun, hst.tty.trans hn⟩
  · obtain ⟨hc, t', ht', hu⟩ := hchild i nr hc
    obtain ⟨t, ht, hst⟩ := hback nr t' ht'
    obtain ⟨t₀, ht₀, hl, -⟩ := h.child i nr hc
    rw [ht] at ht₀
    obtain rfl := Option.some.inj ht₀
    exact ⟨t', ht', hst.leader.trans hl, hu⟩
  · exact h.one i j nr (hchild i nr hi).1 (hchild j nr hj).1

/-- The processes and terminals stay as they are. -/
theorem same (h : Attached s) (htask : s'.task = s.task)
    (hcall : ∀ i nr, s'.call i = .copying nr → s.call i = .copying nr)
    (htty : ∀ k, (s'.tty k).session = (s.tty k).session) (hfg : s'.fgConsole = s.fgConsole) :
    Attached s' := by
  refine h.stands (fun i t ht => ⟨t, htask ▸ ht, .refl t⟩) (fun i t ht _ _ => ?_) ?_
    (fun i nr hc => ?_) htty hfg
  · rw [htask, ht]
    exact Option.some_ne_none t
  · obtain ⟨t, ht, -, -, hrun, -⟩ := h.root
    exact ⟨t, htask ▸ ht, hrun⟩
  · obtain ⟨t, ht, -, hu⟩ := h.child i nr (hcall i nr hc)
    exact ⟨hcall i nr hc, t, htask ▸ ht, hu⟩

theorem root_ne (h : Attached s) (ht : s.task k = some t) (hs : t.state ≠ .running) : k ≠ 0 := by
  rintro rfl
  obtain ⟨t₀, ht₀, -, -, hrun, -⟩ := h.root
  rw [ht] at ht₀
  exact hs (Option.some.inj ht₀ ▸ hrun)

/-- A process stands for itself, with other fields. -/
theorem modify (h : Attached s) (f : Task → Task)
    (hf : ∀ t, s.task k = some t → Stands t (f t) ∧ (f t).state = t.state) :
    Attached (s.modify k f) := by
  have htask : ∀ j t, s.task j = some t → ∃ t', (s.modify k f).task j = some t' ∧
      Stands t t' ∧ t'.state = t.state := by
    intro j t ht
    rcases eq_or_ne j k with rfl | hne
    · refine ⟨f t, ?_, hf t ht⟩
      rw [modify_task ht, Function.update_self]
    · exact ⟨t, (Function.update_of_ne hne ..).trans ht, .refl t, rfl⟩
  refine h.stands (fun j t' ht' => ?_) (fun j t ht _ _ => ?_) ?_ (fun i nr hc => ?_)
    (fun _ => rfl) rfl
  · rw [Table.modify] at ht'
    dsimp only at ht'
    rw [Function.update_apply] at ht'
    split at ht'
    case isTrue heq =>
      obtain ⟨t, ht, rfl⟩ := Option.map_eq_some_iff.mp ht'
      exact ⟨t, heq ▸ ht, (hf t ht).1⟩
    case isFalse => exact ⟨t', ht', .refl t'⟩
  · obtain ⟨t', ht', -⟩ := htask j t ht
    rw [ht']
    exact Option.some_ne_none t'
  · obtain ⟨t, ht, -, -, hrun, -⟩ := h.root
    obtain ⟨t', ht', -, hstate⟩ := htask 0 t ht
    exact ⟨t', ht', hstate.trans hrun⟩
  · obtain ⟨t, ht, -, hu⟩ := h.child i nr hc
    obtain ⟨t', ht', -, hstate⟩ := htask nr t ht
    exact ⟨hc, t', ht', hstate.trans hu⟩

theorem remove (h : Attached s) (ht : s.task k = some t) (hstate : t.state ≠ .running)
    (hl : t.leader = false ∨ t.state = .zombie)
    (hcall : ∀ i nr, s'.call i = .copying nr → s.call i = .copying nr ∧ nr ≠ k)
    (hs : s' = { s.remove k with call := s'.call }) : Attached s' := by
  have htask : ∀ j, j ≠ k → s'.task j = s.task j := by
    intro j hj
    rw [hs]
    exact Function.update_of_ne hj ..
  have hnone : s'.task k = none := by
    rw [hs]
    exact Function.update_self ..
  refine h.stands (fun j t' ht' => ?_) (fun j u hu hul hz => ?_) ?_ (fun i nr hc => ?_)
    (fun m => by rw [hs]; rfl) (by rw [hs]; rfl)
  · rcases eq_or_ne j k with rfl | hj
    · rw [hnone] at ht'
      cases ht'
    · exact ⟨t', htask j hj ▸ ht', .refl t'⟩
  · have hj : j ≠ k := by
      rintro rfl
      rw [hu] at ht
      obtain rfl := Option.some.inj ht
      rcases hl with hl | hl
      · rw [hul] at hl
        cases hl
      · exact hz hl
    rw [htask j hj, hu]
    exact Option.some_ne_none u
  · obtain ⟨t₀, ht₀, -, -, hrun, -⟩ := h.root
    exact ⟨t₀, (htask 0 (h.root_ne ht hstate).symm).trans ht₀, hrun⟩
  · obtain ⟨hc, hne⟩ := hcall i nr hc
    obtain ⟨u, hu, -, hstate⟩ := h.child i nr hc
    exact ⟨hc, u, (htask nr hne).trans hu, hstate⟩

/-- The child of a fork has the terminal of its parent. -/
theorem store (h : Attached s) (hplaced : Placed s) (ht : s.task i = some t)
    (hc : s.call i = .getting nr) (hfree : s.task nr = none)
    (hnew : ¬ s.sched.Taken s.lastPid) : Attached (s.store i nr t) := by
  have hcases : ∀ j u, (s.store i nr t).task j = some u → j = nr ∧
      u = { t with pid := s.lastPid, leader := false, state := .uninterruptible } ∨
      j ≠ nr ∧ s.task j = some u := by
    intro j u hu
    rw [Table.store, Table.setCall] at hu
    dsimp only at hu
    rw [Function.update_apply] at hu
    split at hu
    case isTrue heq => exact .inl ⟨heq, (Option.some.inj hu).symm⟩
    case isFalse hne => exact .inr ⟨hne, hu⟩
  have hself : (s.store i nr t).task nr =
      some { t with pid := s.lastPid, leader := false, state := .uninterruptible } :=
    Function.update_self ..
  have hother : ∀ j u, s.task j = some u → (s.store i nr t).task j = some u := by
    intro j u hu
    refine (Function.update_of_ne ?_ ..).trans hu
    rintro rfl
    rw [hfree] at hu
    cases hu
  have hcopying : ∀ j m, (s.store i nr t).call j = .copying m →
      j = i ∧ m = nr ∨ j ≠ i ∧ s.call j = .copying m := by
    intro j m hm
    rw [Table.store, Table.setCall] at hm
    dsimp only at hm
    rw [Function.update_apply] at hm
    split at hm
    case isTrue heq =>
      cases hm
      exact .inl ⟨heq, rfl⟩
    case isFalse hne => exact .inr ⟨hne, hm⟩
  -- no other fork has its child in the slot
  have hslot : ∀ j, s.call j ≠ .copying nr := by
    intro j hj
    obtain ⟨u, hu, -⟩ := h.child j nr hj
    rw [hfree] at hu
    cases hu
  have hpid : ∀ j u, s.task j = some u → u.pid ≠ s.lastPid := fun j u hu =>
    (Numbered.ne_of_not_taken hnew (hplaced.task j u hu) hu).1
  refine ⟨⟨fun j u n hu hn => ?_, fun k hk => ?_⟩, fun j m u v hu hv heq => ?_,
    fun j u hu hl => ?_, fun j u hu hn => ?_, ?_, fun j m hm => ?_, fun j l m hj hl => ?_⟩
  · rcases hcases j u hu with ⟨-, rfl⟩ | ⟨-, hu⟩
    · exact h.session i t n ht hn
    · exact h.session j u n hu hn
  · obtain ⟨j, u, n, hu, hl⟩ := h.leader k hk
    exact ⟨j, u, n, hother j u hu, hl⟩
  · rcases hcases j u hu with ⟨rfl, rfl⟩ | ⟨-, hu'⟩
    · rcases hcases m v hv with ⟨rfl, rfl⟩ | ⟨-, hv'⟩
      · rfl
      · exact absurd heq.symm (hpid m v hv')
    · rcases hcases m v hv with ⟨rfl, rfl⟩ | ⟨-, hv'⟩
      · exact absurd heq (hpid j u hu')
      · exact h.pid j m u v hu' hv' heq
  · rcases hcases j u hu with ⟨-, rfl⟩ | ⟨-, hu⟩
    · cases hl
    · exact h.named j u hu hl
  · rcases hcases j u hu with ⟨-, rfl⟩ | ⟨-, hu⟩
    · exact h.tty i t ht hn
    · exact h.tty j u hu hn
  · obtain ⟨u, hu, hroot⟩ := h.root
    exact ⟨u, hother 0 u hu, hroot⟩
  · rcases hcopying j m hm with ⟨-, rfl⟩ | ⟨-, hm⟩
    · exact ⟨_, hself, rfl, rfl⟩
    · obtain ⟨u, hu, hrest⟩ := h.child j m hm
      exact ⟨u, hother m u hu, hrest⟩
  · rcases hcopying j m hj with ⟨rfl, rfl⟩ | ⟨-, hj'⟩
    · rcases hcopying l m hl with ⟨rfl, -⟩ | ⟨-, hl⟩
      · rfl
      · exact absurd hl (hslot l)
    · rcases hcopying l m hl with ⟨-, rfl⟩ | ⟨-, hl'⟩
      · exact absurd hj' (hslot j)
      · exact h.one j l m hj' hl'

theorem setTty_session (f : Tty → Tty) (j : ℕ) : ((s.setTty k f).tty j).session =
    if j = k then (f (s.tty k)).session else (s.tty j).session := by
  rw [Table.setTty]
  dsimp only
  rw [Function.update_apply]
  split <;> rfl

/-- The calls of fork that go on, after one of them is done. -/
theorem copying_of_setCall (h : Attached s) (hc : s.call i = .copying nr) {j m : ℕ}
    (hm : (s.setCall i .idle).call j = .copying m) : s.call j = .copying m ∧ m ≠ nr := by
  rw [Table.setCall] at hm
  dsimp only at hm
  rw [Function.update_apply] at hm
  split at hm
  case isTrue => cases hm
  case isFalse hne =>
    refine ⟨hm, ?_⟩
    rintro rfl
    exact hne (h.one j i m hm hc)

theorem finish (h : Attached s) (hc : s.call i = .copying nr) : Attached (s.finish i nr) := by
  obtain ⟨t, ht, hl, hstate⟩ := h.child i nr hc
  have htask : (s.finish i nr).task =
      update s.task nr (some { t with pptr := i, state := .running }) :=
    modify_task ht fun t => { t with pptr := i, state := .running }
  have hother : ∀ j, j ≠ nr → (s.finish i nr).task j = s.task j := fun j hj => by
    rw [htask, Function.update_of_ne hj]
  have hself : (s.finish i nr).task nr = some { t with pptr := i, state := .running } := by
    rw [htask, Function.update_self]
  refine h.stands (fun j u hu => ?_) (fun j u hu _ _ => ?_) ?_ (fun j m hm => ?_)
    (fun _ => rfl) rfl
  · rcases eq_or_ne j nr with rfl | hj
    · rw [hself] at hu
      obtain rfl := Option.some.inj hu
      exact ⟨t, ht, rfl, rfl, rfl, rfl, nofun⟩
    · exact ⟨u, hother j hj ▸ hu, .refl u⟩
  · rcases eq_or_ne j nr with rfl | hj
    · rw [hself]
      exact Option.some_ne_none _
    · rw [hother j hj, hu]
      exact Option.some_ne_none _
  · obtain ⟨u, hu, -, -, hrun, -⟩ := h.root
    have hne : nr ≠ 0 := h.root_ne ht (by rw [hstate]; decide)
    exact ⟨u, (hother 0 hne.symm).trans hu, hrun⟩
  · obtain ⟨hm, hne⟩ := h.copying_of_setCall hc hm
    obtain ⟨u, hu, -, hustate⟩ := h.child j m hm
    exact ⟨hm, u, (hother m hne).trans hu, hustate⟩

/-- A process starts a session. It is no leader, or has no terminal. -/
theorem setsid (h : Attached s) (ht : s.task i = some cur) (hi : i ≠ 0) {suser : Bool}
    (hrun : cur.state = .running)
    (hcareful : cur.leader = true → suser = true → cur.tty = none) :
    Attached (s.setsid i cur suser).1 := by
  rw [Table.setsid]
  split
  case isTrue => exact h
  case isFalse hsuser =>
    have htty : cur.leader = true → cur.tty = none := fun hl =>
      hcareful hl (by simpa using fun hs => hsuser ⟨hl, hs⟩)
    set s' := s.modify i fun t =>
      { t with leader := true, session := t.pid, pgrp := t.pid, tty := none } with hs'
    have htask : s'.task = update s.task i (some { cur with
        leader := true, session := cur.pid, pgrp := cur.pid, tty := none }) := modify_task ht _
    have hcases : ∀ j u, s'.task j = some u → j = i ∧ u = { cur with
        leader := true, session := cur.pid, pgrp := cur.pid, tty := none } ∨
        j ≠ i ∧ s.task j = some u := by
      intro j u hu
      rw [htask, Function.update_apply] at hu
      split at hu
      case isTrue heq => exact .inl ⟨heq, (Option.some.inj hu).symm⟩
      case isFalse hne => exact .inr ⟨hne, hu⟩
    have hother : ∀ j, j ≠ i → s'.task j = s.task j := fun j hj => by
      rw [htask, Function.update_of_ne hj]
    refine ⟨⟨fun j u n hu hn => ?_, fun k hk => ?_⟩, fun j m u v hu hv heq => ?_,
      fun j u hu hl => ?_, fun j u hu hn => ?_, ?_, fun j m hm => ?_, h.one⟩
    · rcases hcases j u hu with ⟨-, rfl⟩ | ⟨-, hu⟩
      · cases hn
      · exact h.session j u n hu hn
    · obtain ⟨j, u, n, hu, hl, hz, hs, hn, hkn⟩ := h.leader k hk
      refine ⟨j, u, n, ?_, hl, hz, hs, hn, hkn⟩
      rw [hother j, hu]
      rintro rfl
      rw [ht] at hu
      obtain rfl := Option.some.inj hu
      rw [htty hl] at hn
      cases hn
    · rcases hcases j u hu with ⟨rfl, rfl⟩ | ⟨-, hu'⟩
      · rcases hcases m v hv with ⟨rfl, rfl⟩ | ⟨-, hv'⟩
        · rfl
        · exact h.pid j m cur v ht hv' heq
      · rcases hcases m v hv with ⟨rfl, rfl⟩ | ⟨-, hv'⟩
        · exact h.pid j m u cur hu' ht heq
        · exact h.pid j m u v hu' hv' heq
    · rcases hcases j u hu with ⟨-, rfl⟩ | ⟨-, hu⟩
      · rfl
      · exact h.named j u hu hl
    · rcases hcases j u hu with ⟨-, rfl⟩ | ⟨-, hu⟩
      · exact absurd rfl hn
      · exact h.tty j u hu hn
    · obtain ⟨u, hu, hroot⟩ := h.root
      exact ⟨u, (hother 0 hi.symm).trans hu, hroot⟩
    · obtain ⟨u, hu, hl, hstate⟩ := h.child j m hm
      refine ⟨u, ?_, hl, hstate⟩
      rw [hother m, hu]
      rintro rfl
      rw [ht] at hu
      obtain rfl := Option.some.inj hu
      rw [hrun] at hstate
      cases hstate

/-- A leader gets a terminal that no session has. -/
theorem acquire (h : Attached s) (ht : s.task i = some cur) (hi : i ≠ 0)
    (hrun : cur.state = .running) (min : ℕ) (noctty : Bool) : Attached (s.acquire i cur min noctty) := by
  rw [Table.acquire]
  split
  case isFalse => exact h
  case isTrue hfree =>
    obtain ⟨-, hl, htty, hnone⟩ := hfree
    set s' := (s.modify i fun t => { t with tty := some min }).setTty (s.ttyTable min)
      fun tty => { tty with session := cur.session, pgrp := cur.pgrp } with hs'
    have htask : s'.task = update s.task i (some { cur with tty := some min }) :=
      modify_task ht fun t => { t with tty := some min }
    have hcases : ∀ j u, s'.task j = some u → j = i ∧ u = { cur with tty := some min } ∨
        j ≠ i ∧ s.task j = some u := by
      intro j u hu
      rw [htask, Function.update_apply] at hu
      split at hu
      case isTrue heq => exact .inl ⟨heq, (Option.some.inj hu).symm⟩
      case isFalse hne => exact .inr ⟨hne, hu⟩
    have hself : s'.task i = some { cur with tty := some min } := by
      rw [htask, Function.update_self]
    have hother : ∀ j, j ≠ i → s'.task j = s.task j := fun j hj => by
      rw [htask, Function.update_of_ne hj]
    have hterminal : ∀ k, (s'.tty k).session =
        if k = s.ttyTable min then cur.session else (s.tty k).session := by
      intro k
      rw [hs', setTty_session]
      rfl
    -- the number of the leader is not that of task 0
    have hsession : cur.session ≠ 0 := by
      rw [h.named i cur ht hl]
      obtain ⟨u, hu, hpid, -⟩ := h.root
      exact fun heq => hi (h.pid i 0 cur u ht hu (heq.trans hpid.symm))
    refine ⟨⟨fun j u n hu hn => ?_, fun k hk => ?_⟩, fun j m u v hu hv heq => ?_,
      fun j u hu hl => ?_, fun j u hu hn => ?_, ?_, fun j m hm => ?_, h.one⟩
    · rw [hterminal]
      rcases hcases j u hu with ⟨-, rfl⟩ | ⟨-, hu⟩
      · obtain rfl := Option.some.inj hn
        exact if_pos rfl
      · have hold := h.session j u n hu hn
        refine (if_neg fun heq => ?_).trans hold
        have hindex : s.ttyTable n = s.ttyTable min := heq
        rw [hindex, hnone] at hold
        exact h.tty j u hu (by rw [hn]; exact Option.some_ne_none n) hold.symm
    · rw [hterminal] at hk ⊢
      split at hk
      case isTrue heq =>
        rw [if_pos heq]
        exact ⟨i, _, min, hself, hl, by simp [hrun], rfl, rfl, heq.symm⟩
      case isFalse hne =>
        rw [if_neg hne]
        obtain ⟨j, u, n, hu, hul, hz, hs, hn, hkn⟩ := h.leader k hk
        refine ⟨j, u, n, ?_, hul, hz, hs, hn, hkn⟩
        rw [hother j, hu]
        rintro rfl
        rw [ht] at hu
        obtain rfl := Option.some.inj hu
        rw [htty] at hn
        cases hn
    · rcases hcases j u hu with ⟨rfl, rfl⟩ | ⟨-, hu'⟩
      · rcases hcases m v hv with ⟨rfl, rfl⟩ | ⟨-, hv'⟩
        · rfl
        · exact h.pid j m cur v ht hv' heq
      · rcases hcases m v hv with ⟨rfl, rfl⟩ | ⟨-, hv'⟩
        · exact h.pid j m u cur hu' ht heq
        · exact h.pid j m u v hu' hv' heq
    · rcases hcases j u hu with ⟨rfl, rfl⟩ | ⟨-, hu'⟩
      · exact h.named j cur ht hl
      · exact h.named j u hu' hl
    · rcases hcases j u hu with ⟨-, rfl⟩ | ⟨-, hu'⟩
      · exact hsession
      · exact h.tty j u hu' hn
    · obtain ⟨u, hu, hroot⟩ := h.root
      exact ⟨u, (hother 0 hi.symm).trans hu, hroot⟩
    · obtain ⟨u, hu, hul, hstate⟩ := h.child j m hm
      refine ⟨u, ?_, hul, hstate⟩
      rw [hother m, hu]
      rintro rfl
      rw [ht] at hu
      obtain rfl := Option.some.inj hu
      rw [hl] at hul
      cases hul

theorem checkCharDev (h : Attached s) (ht : s.task i = some cur) (hi : i ≠ 0)
    (hrun : cur.state = .running) {dev count : ℕ} {noctty nonblock : Bool} :
    Attached (s.checkCharDev i cur dev count noctty nonblock).1 := by
  rw [Table.checkCharDev]
  split
  case isFalse => exact h
  case isTrue =>
    split
    case h_1 => exact h
    case h_2 min hmin =>
      split
      case isTrue => exact h
      case isFalse =>
        have hacquire := h.acquire ht hi hrun min noctty
        dsimp only
        split
        case isTrue =>
          refine hacquire.same rfl (fun _ _ hc => hc) (fun k => ?_) rfl
          rw [setTty_session]
          split
          case isTrue heq => rw [heq]
          case isFalse => rfl
        case isFalse => exact hacquire

/-- Another console comes to the front, which is not the terminal of a process. -/
theorem changeConsole (h : Attached s) (hplaced : Placed s) {console : ℕ}
    (hcareful : TtyCareful s (.changeConsole console)) : Attached (s.changeConsole console) := by
  rw [Table.changeConsole]
  split
  case isTrue => exact h
  case isFalse hnew =>
    obtain ⟨hne, hlt⟩ := not_or.mp hnew
    have hzero : ∀ i t n, s.task i = some t → t.tty = some n → n ≠ 0 := by
      rintro i t n ht hn rfl
      exact hcareful hne (by omega) i (hplaced.task i t ht) t ht hn
    have htable : ∀ n, n ≠ 0 →
        Table.ttyTable { s with fgConsole := console } n = s.ttyTable n := fun n hn => by
      rw [Table.ttyTable, Table.ttyTable, if_neg hn, if_neg hn]
    refine ⟨⟨fun i t n ht hn => ?_, fun k hk => ?_⟩, h.pid, h.named, h.tty, h.root, h.child,
      h.one⟩
    · rw [htable n (hzero i t n ht hn)]
      exact h.session i t n ht hn
    · obtain ⟨i, t, n, ht, hl, hz, hs, hn, hkn⟩ := h.leader k hk
      refine ⟨i, t, n, ht, hl, hz, hs, hn, ?_⟩
      rw [htable n (hzero i t n ht hn)]
      exact hkn

end Attached

/-! ### Exit -/

section Exit

variable {s s' : Table} {i k : ℕ} {cur t : Task} {session : ℕ}

/-- A process of the session has no terminal any more. -/
def Task.detach (session : ℕ) (t : Task) : Task :=
  if t.session = session then { t with tty := none } else t

theorem Task.detach_fields (session : ℕ) (t : Task) : (t.detach session).pid = t.pid ∧
    (t.detach session).session = t.session ∧ (t.detach session).leader = t.leader ∧
    (t.detach session).state = t.state ∧
    (t.detach session).tty = if t.session = session then none else t.tty := by
  rw [Task.detach]
  split <;> exact ⟨rfl, rfl, rfl, rfl, rfl⟩

theorem Task.detach_idem : (t.detach session).detach session = t.detach session := by
  by_cases hs : t.session = session <;> simp [Task.detach, hs]

theorem detach_task (j : ℕ) : (s.detach session k).task j =
    if j = k then (s.task j).map (Task.detach session) else s.task j := by
  rw [Table.detach]
  split
  case h_1 t ht =>
    split
    case isTrue hs =>
      rw [modify_task ht, Function.update_apply]
      split
      case isTrue heq => rw [heq, ht, Option.map_some, Task.detach, if_pos hs]
      case isFalse => rfl
    case isFalse hs =>
      split
      case isTrue heq => rw [heq, ht, Option.map_some, Task.detach, if_neg hs]
      case isFalse => rfl
  case h_2 hnone =>
    have hsame : s.task j = if j = k then (s.task j).map (Task.detach session) else s.task j := by
      split
      case isTrue heq => rw [heq, hnone, Option.map_none]
      case isFalse => rfl
    split
    case isTrue => exact hsame
    case isFalse => exact hsame

/-- The loop takes the terminal from the processes of the session. -/
theorem detachAll_task (ks : List ℕ) (j : ℕ) : (Table.detachAll session ks s).1.task j =
    if j ∈ ks then (s.task j).map (Task.detach session) else s.task j := by
  induction ks generalizing s with
  | nil => rfl
  | cons k ks ih =>
    rw [Table.detachAll, ih, detach_task]
    by_cases hj : j ∈ ks
    · rw [if_pos hj, if_pos (List.mem_cons_of_mem _ hj)]
      split
      case isTrue =>
        rw [Option.map_map]
        congr 1
        funext t
        exact Task.detach_idem
      case isFalse => rfl
    · rw [if_neg hj]
      simp only [List.mem_cons, hj, or_false]

/-- The loop leaves the terminals alone. -/
theorem detachAll_tty (ks : List ℕ) : (Table.detachAll session ks s).1.tty = s.tty ∧
    (Table.detachAll session ks s).1.fgConsole = s.fgConsole := by
  induction ks generalizing s with
  | nil => exact ⟨rfl, rfl⟩
  | cons k ks ih =>
    have hdetach : (s.detach session k).tty = s.tty ∧
        (s.detach session k).fgConsole = s.fgConsole := by
      rw [Table.detach]
      split <;> split <;> exact ⟨rfl, rfl⟩
    exact ⟨ih.1.trans hdetach.1, ih.2.trans hdetach.2⟩

/-- The pointers that the loop uses are those of the table. -/
theorem none_mem_detachAll (ks : List ℕ) :
    none ∈ (Table.detachAll session ks s).2 ↔ ∃ k ∈ ks, s.task k = none := by
  induction ks generalizing s with
  | nil => simp [Table.detachAll]
  | cons k ks ih =>
    have hnone : ∀ j, (s.detach session k).task j = none ↔ s.task j = none := by
      intro j
      rw [detach_task]
      split <;> simp
    rw [Table.detachAll, List.mem_cons, ih]
    simp only [hnone, List.exists_mem_cons_iff, eq_comm (a := none)]

/-- The processes once the caller of exit is a zombie. -/
theorem exit_task (s : Table) (i : ℕ) : ∃ g : ℕ → Task → Task,
    (∀ j, ((s.modify i fun t => { t with state := .zombie }).forget i).task j =
      (s.task j).map (g j)) ∧
    ∀ j t, (g j t).pid = t.pid ∧ (g j t).session = t.session ∧ (g j t).leader = t.leader ∧
      (g j t).tty = t.tty ∧ (j ≠ i → (g j t).state = t.state) := by
  refine ⟨fun j t => if (if j = i then { t with state := State.zombie } else t).pptr = i ∧
      (if j = i then { t with state := State.zombie } else t).state ≠ .uninterruptible then
      { (if j = i then { t with state := State.zombie } else t) with pptr := 1 }
    else if j = i then { t with state := State.zombie } else t, fun j => ?_, fun j t => ?_⟩
  · rw [Table.forget, Table.modify]
    dsimp only
    rw [Function.update_apply]
    split
    case isTrue heq =>
      rw [heq, Option.map_map]
      rfl
    case isFalse => rfl
  · by_cases hj : j = i
    · simp only [hj, if_true]
      split <;> simp
    · simp only [hj, if_false]
      split <;> simp

/-- The processes after a leader has exited: they are the same, and those of its session have
no terminal. -/
theorem exit_leader_task (h : Attached s) (hplaced : Placed s) (cur : Task) (i : ℕ) {j : ℕ}
    (ht : s.task j = some t) : ∃ t', (Table.detachAll cur.session slots
        (((s.modify i fun t => { t with state := .zombie }).forget i).release cur)).1.task j =
      some t' ∧ t'.pid = t.pid ∧ t'.session = t.session ∧ t'.leader = t.leader ∧
      (j ≠ i → t'.state = t.state) ∧
      t'.tty = if t.session = cur.session then none else t.tty := by
  obtain ⟨g, hg, hfields⟩ := exit_task s i
  obtain ⟨hpid, hsession, hleader, htty, hstate⟩ := hfields j t
  have hrelease : ((((s.modify i fun t => { t with state := .zombie }).forget i).release cur)).task
      = ((s.modify i fun t => { t with state := .zombie }).forget i).task := by
    rw [Table.release]
    cases cur.tty <;> rfl
  rw [detachAll_task, hrelease, hg, ht, Option.map_some]
  split
  case isTrue =>
    obtain ⟨hpid', hsession', hleader', hstate', htty'⟩ :=
      Task.detach_fields cur.session (g j t)
    refine ⟨_, rfl, hpid'.trans hpid, hsession'.trans hsession, hleader'.trans hleader,
      fun hj => hstate'.trans (hstate hj), ?_⟩
    rw [htty', hsession, htty]
  case isFalse hslot =>
    refine ⟨_, rfl, hpid, hsession, hleader, hstate, ?_⟩
    have hlt := hplaced.task j t ht
    rw [Sched.nrTasks] at hlt
    have hzero : j = 0 := by
      simp only [slots, List.mem_reverse, List.mem_range'_1] at hslot
      omega
    -- task 0 has no terminal anyway
    obtain ⟨t₀, ht₀, -, -, -, hn⟩ := h.root
    rw [← hzero, ht] at ht₀
    obtain rfl := Option.some.inj ht₀
    rw [htty, hn, ite_self]

/-- A process exits. The terminal of a leader is free again, and no process of its session has
a terminal. -/
theorem Attached.doExit (h : Attached s) (hplaced : Placed s) (ht : s.task i = some cur)
    (hi : i ≠ 0) (hrun : cur.state = .running) : Attached (s.doExit i cur).1 := by
  have hidle : ∀ j nr, s.call j = .copying nr → nr ≠ i := by
    rintro j nr hc rfl
    obtain ⟨u, hu, -, hstate⟩ := h.child j nr hc
    rw [ht] at hu
    obtain rfl := Option.some.inj hu
    rw [hrun] at hstate
    cases hstate
  rw [Table.doExit]
  split
  case isFalse hl =>
    obtain ⟨g, hg, hfields⟩ := exit_task s i
    refine h.stands (fun j t' ht' => ?_) (fun j t ht _ _ => ?_) ?_ (fun j nr hc => ?_)
      (fun _ => rfl) rfl
    · rw [hg] at ht'
      obtain ⟨t, htj, rfl⟩ := Option.map_eq_some_iff.mp ht'
      obtain ⟨hpid, hsession, hleader, htty, hstate⟩ := hfields j t
      refine ⟨t, htj, hpid, hsession, hleader, htty, fun hz => ?_⟩
      rcases eq_or_ne j i with rfl | hne
      · rw [ht] at htj
        obtain rfl := Option.some.inj htj
        exact .inl (by simpa using hl)
      · exact .inr (hstate hne ▸ hz)
    · rw [hg, ht]
      exact Option.some_ne_none _
    · obtain ⟨t, ht, -, -, hrun, -⟩ := h.root
      exact ⟨g 0 t, by rw [hg, ht, Option.map_some], ((hfields 0 t).2.2.2.2 hi.symm).trans hrun⟩
    · obtain ⟨t, ht, -, hstate⟩ := h.child j nr hc
      exact ⟨hc, g nr t, by rw [hg, ht, Option.map_some],
        ((hfields nr t).2.2.2.2 (hidle j nr hc)).trans hstate⟩
  case isTrue hl =>
    set s₁ := ((s.modify i fun t => { t with state := .zombie }).forget i).release cur with hs₁
    set s' := (Table.detachAll cur.session slots s₁).1 with hs'
    have hforth : ∀ {j t}, s.task j = some t → ∃ t', s'.task j = some t' ∧ t'.pid = t.pid ∧
        t'.session = t.session ∧ t'.leader = t.leader ∧ (j ≠ i → t'.state = t.state) ∧
        t'.tty = if t.session = cur.session then none else t.tty := fun ht =>
      exit_leader_task h hplaced cur i ht
    have hback : ∀ {j t'}, s'.task j = some t' → ∃ t, s.task j = some t ∧ t'.pid = t.pid ∧
        t'.session = t.session ∧ t'.leader = t.leader ∧ (j ≠ i → t'.state = t.state) ∧
        t'.tty = if t.session = cur.session then none else t.tty := by
      intro j t' ht'
      have hkeeps : Keeps s s' :=
        (((Keeps.modify (fun t => { t with state := .zombie }) fun t _ => rfl).trans
          Keeps.forget).trans Keeps.release).trans (Keeps.detachAll slots)
      obtain ⟨t, ht, -⟩ := hkeeps j t' ht'
      obtain ⟨t'', ht'', hrest⟩ := hforth ht
      rw [ht'] at ht''
      obtain rfl := Option.some.inj ht''
      exact ⟨t, ht, hrest⟩
    -- the terminal of the leader, and no other, loses its session
    have hterminal : ∀ k, (s'.tty k).session =
        if (∃ n, cur.tty = some n ∧ s.ttyTable n = k) then 0 else (s.tty k).session := by
      intro k
      rw [hs', (detachAll_tty slots).1, hs₁, Table.release]
      cases cur.tty with
      | none => simp [Table.forget, Table.modify]
      | some n =>
        rw [Option.elim_some, Attached.setTty_session]
        change (if k = s.ttyTable n then 0 else (s.tty k).session) = _
        by_cases hk : k = s.ttyTable n
        · rw [if_pos hk, if_pos ⟨n, rfl, hk.symm⟩]
        · rw [if_neg hk, if_neg]
          rintro ⟨m, hm, hmk⟩
          cases hm
          exact hk hmk.symm
    have hrelease : s₁.fgConsole = s.fgConsole ∧ s₁.call = s.call := by
      rw [hs₁, Table.release]
      cases cur.tty <;> exact ⟨rfl, rfl⟩
    have htable : ∀ n, s'.ttyTable n = s.ttyTable n := fun n => by
      rw [Table.ttyTable, Table.ttyTable, (detachAll_tty slots).2, hrelease.1]
    have hcall : s'.call = s.call := (call_detachAll slots).trans hrelease.2
    have hsession : ∀ j t, s.task j = some t → t.leader = true → t.session = cur.session → j = i :=
      fun j t htj htl heq => h.pid j i t cur htj ht
        ((h.named j t htj htl).symm.trans (heq.trans (h.named i cur ht hl)))
    refine ⟨⟨fun j t' n ht' hn => ?_, fun k hk => ?_⟩, fun j m t' u' ht' hu' heq => ?_,
      fun j t' ht' hl => ?_, fun j t' ht' hn => ?_, ?_, fun j m hm => ?_, by rw [hcall]; exact h.one⟩
    · obtain ⟨t, htj, -, hts, -, -, htty⟩ := hback ht'
      rw [hn] at htty
      split at htty
      case isTrue => cases htty
      case isFalse hne =>
        rw [hterminal, htable, hts, h.session j t n htj htty.symm]
        refine if_neg ?_
        rintro ⟨m, hm, hmk⟩
        have hcur := h.session i cur m ht hm
        rw [hmk, h.session j t n htj htty.symm] at hcur
        exact hne hcur
    · rw [hterminal] at hk
      split at hk
      case isTrue => exact absurd rfl hk
      case isFalse hne =>
        obtain ⟨j, t, n, htj, htl, hz, hs, hn, hkn⟩ := h.leader k hk
        have hji : j ≠ i := by
          rintro rfl
          rw [ht] at htj
          obtain rfl := Option.some.inj htj
          exact hne ⟨n, hn, hkn⟩
        obtain ⟨t', ht', -, hts, htl', hstate, htty⟩ := hforth htj
        rw [if_neg fun heq => hji (hsession j t htj htl heq)] at htty
        refine ⟨j, t', n, ht', htl'.trans htl, (hstate hji).symm ▸ hz, ?_, htty.trans hn, ?_⟩
        · rw [hterminal, if_neg hne, hts, hs]
        · rw [htable, hkn]
    · obtain ⟨t, htj, hpid, -⟩ := hback ht'
      obtain ⟨u, hu, hpid', -⟩ := hback hu'
      exact h.pid j m t u htj hu (by rw [← hpid, heq, hpid'])
    · obtain ⟨t, htj, hpid, hts, htl, -⟩ := hback ht'
      rw [hts, hpid]
      exact h.named j t htj (htl ▸ hl)
    · obtain ⟨t, htj, -, hts, -, -, htty⟩ := hback ht'
      rw [hts]
      refine h.tty j t htj fun hnone => hn ?_
      rw [htty, hnone, ite_self]
    · obtain ⟨t, ht₀, hpid, htl, hrun, hn⟩ := h.root
      obtain ⟨t', ht', hpid', -, htl', hstate, htty⟩ := hforth ht₀
      refine ⟨t', ht', hpid'.trans hpid, htl'.trans htl, (hstate hi.symm).trans hrun, ?_⟩
      rw [htty, hn, ite_self]
    · rw [hcall] at hm
      obtain ⟨t, htm, htl, hstate⟩ := h.child j m hm
      obtain ⟨t', ht', -, -, htl', hstate', -⟩ := hforth htm
      exact ⟨t', ht', htl'.trans htl, (hstate' (hidle j m hm)).trans hstate⟩

end Exit

theorem Attached.start {s : Table} (h : s.Start) : Attached s := by
  have hone : ∀ i t, s.task i = some t → i = 0 ∧ t = Table.initTask := by
    intro i t ht
    rw [h.task, Function.update_apply] at ht
    split at ht
    case isTrue heq => exact ⟨heq, (Option.some.inj ht).symm⟩
    case isFalse => cases ht
  refine ⟨⟨fun i t n ht hn => ?_, fun k hk => absurd (h.tty k) hk⟩, fun i j t u ht hu _ => ?_,
    fun i t ht hl => ?_, fun i t ht hn => ?_, ⟨Table.initTask, ?_, rfl, rfl, rfl, rfl⟩,
    fun i nr hc => ?_, fun i j nr hc _ => ?_⟩
  · rw [(hone i t ht).2] at hn
    cases hn
  · rw [(hone i t ht).1, (hone j u hu).1]
  · rw [(hone i t ht).2] at hl
    cases hl
  · rw [(hone i t ht).2] at hn
    exact absurd rfl hn
  · rw [h.task, Function.update_self]
  · rw [h.call] at hc
    cases hc
  · rw [h.call] at hc
    cases hc

theorem setCall_copying {s : Table} {i j nr : ℕ} {c : Call}
    (h : (s.setCall i c).call j = .copying nr) (hc : c ≠ .copying nr) :
    s.call j = .copying nr := by
  rw [Table.setCall] at h
  dsimp only at h
  rw [Function.update_apply] at h
  split at h
  case isTrue => exact absurd h hc
  case isFalse => exact h

theorem Attached.step {s s' : Table} {e : Event} (h : Attached s) (hplaced : Placed s)
    (hg : TtyCareful s e) (hs : s.step e = some s') : Attached s' := by
  cases e with
  | fork i =>
    rw [Table.step] at hs
    split at hs
    case isFalse => cases hs
    case isTrue =>
      obtain ⟨c, x, rfl, hc, -⟩ := findEmptyProcess_cases hs
      exact h.same rfl (fun j nr hj => setCall_copying hj (hc nr)) (fun _ => rfl) rfl
  | store i =>
    rw [Table.step] at hs
    split at hs
    case h_1 nr hnr =>
      obtain ⟨t, ht, rfl⟩ := Option.map_eq_some_iff.mp hs
      obtain ⟨hfree, hnew⟩ := hg nr hnr
      exact h.store hplaced ht hnr hfree hnew
    case h_2 => cases hs
  | noPage i =>
    rw [Table.step] at hs
    split at hs
    case h_1 nr hnr =>
      cases hs
      exact h.same rfl (fun j nr hj => setCall_copying hj fun hc => by cases hc) (fun _ => rfl) rfl
    case h_2 => cases hs
  | finish i =>
    rw [Table.step] at hs
    split at hs
    case h_1 nr hnr =>
      cases hs
      exact h.finish hnr
    case h_2 => cases hs
  | noMem i =>
    rw [Table.step] at hs
    split at hs
    case h_1 nr hnr =>
      cases hs
      obtain ⟨t, ht, hl, hstate⟩ := h.child i nr hnr
      exact h.remove ht (by rw [hstate]; decide) (.inl hl)
        (fun j m hm => h.copying_of_setCall hnr hm) rfl
    case h_2 => cases hs
  | setpgid i pid pgid =>
    obtain ⟨cur, hcur, rfl⟩ := Option.map_eq_some_iff.mp hs
    rcases setpgid_cases s i cur pid pgid with
      heq | ⟨k, t, g, -, -, -, -, -, heq⟩
    · rwa [heq]
    · rw [heq]
      exact h.modify _ fun t _ => ⟨⟨rfl, rfl, rfl, rfl, .inr⟩, rfl⟩
  | setsid i suser =>
    obtain ⟨cur, hcur, rfl⟩ := Option.map_eq_some_iff.mp hs
    obtain ⟨ht, hrun, -, hi⟩ := caller_eq hcur
    exact h.setsid ht hi hrun (hg cur ht)
  | checkCharDev i dev count noctty nonblock =>
    obtain ⟨cur, hcur, rfl⟩ := Option.map_eq_some_iff.mp hs
    obtain ⟨ht, hrun, -, hi⟩ := caller_eq hcur
    exact h.checkCharDev ht hi hrun
  | changeConsole console =>
    cases hs
    exact h.changeConsole hplaced hg
  | exit i =>
    obtain ⟨cur, hcur, rfl⟩ := Option.map_eq_some_iff.mp hs
    obtain ⟨ht, hrun, -, hi⟩ := caller_eq hcur
    exact h.doExit hplaced ht hi hrun
  | release i =>
    rw [Table.step] at hs
    split at hs
    case isTrue hz =>
      cases hs
      obtain ⟨t, ht, hstate⟩ := (Option.any_eq_true _ _).mp hz
      have hstate := of_decide_eq_true hstate
      refine h.remove ht (by rw [hstate]; decide) (.inr hstate) (fun j m hm => ⟨hm, ?_⟩) rfl
      rintro rfl
      obtain ⟨u, hu, -, hchild⟩ := h.child j m hm
      rw [ht] at hu
      obtain rfl := Option.some.inj hu
      rw [hstate] at hchild
      cases hchild
    case isFalse => cases hs
  | pageDir low =>
    cases hs
    exact h.same rfl (fun _ _ hc => hc) (fun _ => rfl) rfl

theorem attached {s : Table} (hr : jobs.Reach TtyCareful s) : Attached s := by
  induction hr with
  | init h => exact .start h
  | step hr hg hs ih => exact ih.step (placed hr) hg hs

/-- The last loop of exit uses no null pointer just where no slot is free. -/
theorem none_mem_doExit {s : Table} {i : ℕ} {cur : Task} : none ∉ (s.doExit i cur).2 ↔
    cur.leader = false ∨ ∀ k ∈ slots, s.task k ≠ none := by
  rw [Table.doExit]
  by_cases hl : cur.leader = true
  · obtain ⟨g, hg, -⟩ := exit_task s i
    have htask : ∀ k, (((s.modify i fun t => { t with state := .zombie }).forget i).release
        cur).task k = (s.task k).map (g k) := by
      intro k
      rw [← hg, Table.release]
      cases cur.tty <;> rfl
    rw [if_pos hl, none_mem_detachAll]
    simp only [htask, Option.map_eq_none_iff, hl, not_exists, not_and, reduceCtorEq, false_or, ne_eq]
  · rw [if_neg hl]
    simp [hl]

/-- The terminal of a process carries its session and the leader of the session of a terminal
keeps it, in the runs in which leaders do not leave their terminals by setsid and minor number 0
stands for one console; the loop of exit uses no null pointer just where the table is full. -/
theorem controlling_terminal (s : Table) : (jobs.Reach TtyCareful s → Controlling s) ∧
    ∀ (i : ℕ) (cur : Task), s.caller i = some cur → (none ∉ (s.doExit i cur).2 ↔
      cur.leader = false ∨ ∀ k ∈ slots, s.task k ≠ none) :=
  ⟨fun hr => (attached hr).toControlling, fun _ _ _ => none_mem_doExit⟩

/-! ### Runs -/

instance (s : Table) (e : Event) : Decidable (TtyCareful s e) :=
  match e with
  | .store i => inferInstanceAs (Decidable (GroupCareful s (.store i)))
  | .setsid i suser => inferInstanceAs (Decidable (∀ t ∈ s.task i, t.leader = true →
      suser = true → t.tty = none))
  | .changeConsole console => inferInstanceAs (Decidable (console ≠ s.fgConsole →
      console < s.nrConsoles → ∀ i, i < Sched.nrTasks → ∀ t ∈ s.task i, t.tty ≠ some 0))
  | .fork _ | .noPage _ | .finish _ | .noMem _ | .checkCharDev .. | .setpgid .. | .exit _
  | .release _ | .pageDir _ => isTrue trivial

/-- Task 1 starts a session and opens terminal `min`. -/
def login (min : ℕ) : List Event :=
  forks 0 ++ [.setsid 1 true, .checkCharDev 1 (4 * 256 + min) 1 false false]

/-- A child of task 1 keeps its terminal while another console is in front. -/
theorem controlling_terminal_child : ∃ s, System.runOf (System.guarded TtyCareful Table.step)
    (login 1 ++ forks 1 ++ [.changeConsole 3]) boot = some s ∧ Controlling s ∧
    (s.task 2).map (fun t => (t.session, t.tty)) = some (1, some 1) := by
  have hrun : (System.runOf (System.guarded TtyCareful Table.step)
      (login 1 ++ forks 1 ++ [.changeConsole 3]) boot).any
      (fun s => (s.task 2).map (fun t => (t.session, t.tty)) = some (1, some 1)) = true := by
    decide +kernel
  obtain ⟨s, hs, htask⟩ := (Option.any_eq_true _ _).mp hrun
  have hr : jobs.Reach TtyCareful s :=
    (System.Reach.init boot_start).of_guarded (fun _ _ _ h => h) hs
  exact ⟨s, hs, (controlling_terminal s).1 hr, of_decide_eq_true htask⟩

/-- Three runs: a leader starts its session again, and its terminal is lost; the terminal of
minor number 0 is left for another console; and a leader exits where slots are free. -/
theorem terminal_lost :
    (∃ s, System.runOf Table.step (login 1 ++ [.setsid 1 true]) boot = some s ∧
      jobs.Reachable s ∧ ¬ Controlling s) ∧
    (∃ s, System.runOf Table.step (login 0 ++ [.changeConsole 1]) boot = some s ∧
      jobs.Reachable s ∧ ¬ Controlling s) ∧
    ∃ s cur, System.runOf Table.step (login 1) boot = some s ∧ jobs.Reachable s ∧
      s.caller 1 = some cur ∧ none ∈ (s.doExit 1 cur).2 := by
  have hreach : ∀ es s, System.runOf Table.step es boot = some s → jobs.Reachable s :=
    fun es s hs => (System.Reach.init boot_start).of_runOf (fun _ _ _ h => h)
      (fun _ _ _ => trivial) hs
  refine ⟨?_, ?_, ?_⟩
  · have hrun : (System.runOf Table.step (login 1 ++ [.setsid 1 true]) boot).any (fun s =>
        (s.tty 0).session = 1 ∧ ∀ i, i < Sched.nrTasks → ∀ t ∈ s.task i, t.tty = none) = true := by
      decide +kernel
    obtain ⟨s, hs, hlost⟩ := (Option.any_eq_true _ _).mp hrun
    obtain ⟨hsession, hnone⟩ := of_decide_eq_true hlost
    have hr := hreach _ s hs
    refine ⟨s, hs, hr, fun h => ?_⟩
    obtain ⟨i, t, n, ht, -, -, -, hn, -⟩ := h.leader 0 (by rw [hsession]; decide)
    rw [hnone i ((placed hr).task i t ht) t ht] at hn
    cases hn
  · have hrun : (System.runOf Table.step (login 0 ++ [.changeConsole 1]) boot).any (fun s =>
        (s.tty (s.ttyTable 0)).session = 0 ∧
        (s.task 1).map (fun t => (t.session, t.tty)) = some (1, some 0)) = true := by
      decide +kernel
    obtain ⟨s, hs, hlost⟩ := (Option.any_eq_true _ _).mp hrun
    obtain ⟨hsession, htask⟩ := of_decide_eq_true hlost
    refine ⟨s, hs, hreach _ s hs, fun h => ?_⟩
    obtain ⟨t, ht, hfields⟩ := Option.map_eq_some_iff.mp htask
    simp only [Prod.mk.injEq] at hfields
    have heq := h.session 1 t 0 ht hfields.2
    omega
  · have hrun : (System.runOf Table.step (login 1) boot).any (fun s =>
        (s.caller 1).any fun cur => none ∈ (s.doExit 1 cur).2) = true := by
      decide +kernel
    obtain ⟨s, hs, hexit⟩ := (Option.any_eq_true _ _).mp hrun
    obtain ⟨cur, hcur, hmem⟩ := (Option.any_eq_true _ _).mp hexit
    exact ⟨s, cur, hs, hreach _ s hs, hcur, of_decide_eq_true hmem⟩

end Sessions
