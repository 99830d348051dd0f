/-
The requests of the floppy driver end.

* `rank` — the interrupts and timers that are left for the current request, at most;
* `uncounted` — a failure that raises it again: of a reset, of a recalibration, of a command that
  the controller does not take, and an interrupt that nobody waits for;
* `Careful` — no request fails for the ninth time as the last of the queue, and none comes to an
  empty queue while an interrupt is waited for;
* `backlog` — what is left of all requests of the queue: `rank`, and 56 for each one behind;
* `floppy_ends` — in careful runs the current request ends within 56 interrupts and timers, and
  five more for each uncounted failure, and so do all; `CURRENT` is not read when there is none;
* `floppy_resets_on` — a reset that fails again and again, and a ninth error.
-/
import Linux012.Floppy

namespace Blk

namespace Fd

/-! ### The rank -/

/-- How far the driver is from the end of a transfer. -/
def phase (s : Fd) : ℕ :=
  match s.doFloppy with
  | some .resetInterrupt => 6
  | some .recalInterrupt => 5
  | some .seekInterrupt => 2
  | some .rwInterrupt => 1
  | none =>
    match s.timers with
    | [] => 0
    | .floppyOnInterrupt :: _ => if s.reset then 8 else 4
    | .transfer :: _ => if s.reset then 7 else 3

/-- The errors that are left for the current request. -/
def chances : List Job → ℕ
  | [] => 0
  | job :: _ => 8 - job.now.errors

def rank (s : Fd) : ℕ := s.phase + 6 * chances s.queue

/-- A failure that no request counts as an error. -/
def uncounted (s : Fd) : Event → Bool
  | .add .. => false
  | .interrupt o =>
    match s.doFloppy with
    | none => true
    | some .resetInterrupt => o.hung || !o.sent
    | some .recalInterrupt => !o.ok
    | some .seekInterrupt => o.ok && !o.sent
    | some .rwInterrupt => false
  | .timer _ _ specified sent => !(specified && sent)

/-- The uncounted failures of a run. -/
def failures (m : FloppyMemory) : Fd → List Event → ℕ
  | _, [] => 0
  | s, e :: es =>
    (if s.uncounted e then 1 else 0) +
      match s.step m e with
      | some s' => failures m s' es
      | none => 0

/-- An interrupt, or a timer. -/
def Event.isWait : Event → Bool
  | .add .. => false
  | .interrupt _ => true
  | .timer .. => true

/-- The interrupts and timers of a run. -/
def waits (es : List Event) : ℕ := es.countP Event.isWait

/-! ### The condition -/

variable (m : FloppyMemory)

/-- `do_fd_request` finds the request beyond the end of its disk, or can divide. -/
def Known (r : DriverRequest) : Prop :=
  Refused m r ∨ (m.entry (r.minor / 4)).sect ≠ 0 ∧ (m.entry (r.minor / 4)).head ≠ 0

/-- The last request fails for the ninth time. -/
def LastError (s : Fd) (o : Outcome) : Prop :=
  ∃ j, s.queue = [j] ∧ 8 ≤ j.now.errors ∧ o.ok = false ∧
    (s.doFloppy = some .seekInterrupt ∨ s.doFloppy = some .rwInterrupt ∧ o.readOnly = false)

def Careful (s : Fd) (e : Event) : Prop :=
  Orderly s e ∧
    match e with
    | .add minor write page nr buffer _ _ => Known m (.make minor write page nr buffer)
    | .interrupt o => ¬ LastError s o
    | .timer .. => True

/-- Every event of a run is careful where it comes. -/
def CarefulRun : Fd → List Event → Prop
  | _, [] => True
  | s, e :: es => Careful m s e ∧ ∀ s', s.step m e = some s' → CarefulRun s' es

/-! ### `do_fd_request` -/

/-- What holds between two interrupts. -/
structure Sound (s : Fd) : Prop where
  known : ∀ j ∈ s.queue, Known m j.now
  fault : s.fault = false
  alive : s.queue ≠ [] → s.timers ≠ [] ∨ s.doFloppy ≠ none
  /-- while an interrupt is waited for, no reset is asked for -/
  calm : s.doFloppy ≠ none → s.reset = false
  recalibrates : s.doFloppy = some .resetInterrupt → s.recalibrate = true

/-- What is left of the current request: it has ended, or is there with at most `n` to go. -/
def Left (s s' : Fd) (n : ℕ) : Prop :=
  s.ended.length < s'.ended.length ∨
    s'.ended.length = s.ended.length ∧ (s.queue ≠ [] → s'.queue ≠ []) ∧ s'.rank ≤ n

variable {m} {s s' : Fd} {n : ℕ}

theorem Known.withErrors {r : DriverRequest} (h : Known m r) (e : ℕ) :
    Known m { r with errors := e } := h

theorem left_of_queue (hq : s'.queue = s.queue) (he : s'.ended = s.ended)
    (hr : s'.phase + 6 * chances s.queue ≤ n) : Left s s' n :=
  .inr ⟨by rw [he], by rw [hq]; exact id, by rw [rank, hq]; exact hr⟩

theorem sound_resetFloppy (hknown : ∀ j ∈ s.queue, Known m j.now) (hfault : s.fault = false) :
    Sound m s.resetFloppy :=
  ⟨hknown, hfault, fun _ => .inr nofun, fun _ => rfl, fun _ => rfl⟩

/-- The queue is gone through up to a request that a command is made out for. -/
theorem takeOn_sound (queue : List Job) (s : Fd) (hknown : ∀ j ∈ queue, Known m j.now)
    (hfault : s.fault = false) (ht : s.timers = []) (hd : s.doFloppy = none)
    (hreset : s.reset = false) :
    Sound m (s.takeOn m queue) ∧ (s.takeOn m queue).phase ≤ 4 ∧
      ((s.takeOn m queue).queue = queue ∧ (s.takeOn m queue).ended = s.ended ∨
        s.ended.length < (s.takeOn m queue).ended.length) := by
  induction queue generalizing s with
  | nil =>
    rw [takeOn]
    refine ⟨⟨fun _ hj => absurd hj List.not_mem_nil, hfault, fun h => absurd rfl h,
      fun h => absurd rfl h, fun h => absurd h.symm (Option.some_ne_none _)⟩, ?_, .inl ⟨rfl, rfl⟩⟩
    simp [phase, ht]
  | cons j queue ih =>
    rw [takeOn]
    dsimp only
    split
    case isTrue =>
      obtain ⟨hsound, hphase, hended⟩ := ih
        { s with
          queue := j :: queue
          looked := s.looked ++ [(j.asked, j.now.minor / 4)]
          floppy := j.now.minor / 4
          seek := s.seek || decide (s.currentDrive ≠ j.now.minor % 4)
          currentDrive := j.now.minor % 4
          ended := s.ended ++ [(j, false)] }
        (fun i hi => hknown i (List.mem_cons_of_mem _ hi)) hfault ht hd hreset
      refine ⟨hsound, hphase, .inr ?_⟩
      have hlen : (s.ended ++ [(j, false)]).length = s.ended.length + 1 := by simp
      dsimp only at hended
      rcases hended with ⟨-, he⟩ | hlt
      · rw [he, hlen]
        exact Nat.lt_succ_self _
      · omega
    case isFalse hr =>
      have hj := hknown j List.mem_cons_self
      split
      case isTrue hzero =>
        rcases hj with hj | hj
        · exact absurd hj hr
        · exact absurd hzero (not_or.mpr hj)
      case isFalse =>
        refine ⟨⟨hknown, hfault, fun _ => .inl ?_, fun h => absurd hd h, ?_⟩, ?_, .inl ⟨rfl, rfl⟩⟩
        · simp [aim]
        · simp [aim, hd]
        · simp [phase, aim, hd, ht, hreset]

theorem recalibrateFloppy_sound (hknown : ∀ j ∈ s.queue, Known m j.now) (hfault : s.fault = false)
    (hreset : s.reset = false) (sent : Bool) :
    Sound m (s.recalibrateFloppy sent) ∧
      (s.recalibrateFloppy sent).phase = (if sent then 5 else 6) ∧
      (s.recalibrateFloppy sent).queue = s.queue ∧ (s.recalibrateFloppy sent).ended = s.ended := by
  rw [recalibrateFloppy]
  cases sent with
  | true =>
    exact ⟨⟨hknown, hfault, fun _ => .inr (Option.some_ne_none _), fun _ => hreset,
      fun h => (by cases h)⟩, rfl, rfl, rfl⟩
  | false => exact ⟨sound_resetFloppy hknown hfault, rfl, rfl, rfl⟩

/-- `do_fd_request`, with nothing else that is waited for. -/
theorem doFdRequest_sound (hknown : ∀ j ∈ s.queue, Known m j.now) (hfault : s.fault = false)
    (ht : s.timers = []) (hd : s.reset = true ∨ s.recalibrate = true ∨ s.doFloppy = none)
    (sent : Bool) :
    Sound m (s.doFdRequest m sent) ∧ (s.doFdRequest m sent).phase ≤ 6 ∧
      ((s.doFdRequest m sent).queue = s.queue ∧ (s.doFdRequest m sent).ended = s.ended ∨
        s.ended.length < (s.doFdRequest m sent).ended.length) := by
  rw [doFdRequest]
  dsimp only
  split
  case isTrue => exact ⟨sound_resetFloppy hknown hfault, Nat.le_refl 6, .inl ⟨rfl, rfl⟩⟩
  case isFalse hreset =>
    split
    case isTrue =>
      obtain ⟨hsound, hphase, hq, he⟩ := recalibrateFloppy_sound (s := { s with seek := false })
        (m := m) hknown hfault (by simpa using hreset) sent
      refine ⟨hsound, ?_, .inl ⟨hq, he⟩⟩
      rw [hphase]
      split <;> decide
    case isFalse hrecal =>
      have hnone : s.doFloppy = none := (hd.resolve_left hreset).resolve_left hrecal
      obtain ⟨hsound, hphase, hended⟩ := takeOn_sound (m := m) s.queue { s with seek := false }
        hknown hfault ht hnone (by simpa using hreset)
      exact ⟨hsound, by omega, hended⟩

theorem left_doFdRequest (s t : Fd) (sent : Bool) (hq : t.queue = s.queue)
    (he : t.ended = s.ended) (hknown : ∀ j ∈ s.queue, Known m j.now) (hfault : t.fault = false)
    (ht : t.timers = []) (hd : t.reset = true ∨ t.recalibrate = true ∨ t.doFloppy = none)
    (hn : 6 + 6 * chances s.queue ≤ n) :
    Sound m (t.doFdRequest m sent) ∧ Left s (t.doFdRequest m sent) n := by
  rw [← hq] at hknown
  obtain ⟨hsound, hphase, ⟨hq', he'⟩ | hlt⟩ := doFdRequest_sound hknown hfault ht hd sent
  · exact ⟨hsound, left_of_queue (hq'.trans hq) (he'.trans he) (by omega)⟩
  · rw [he] at hlt
    exact ⟨hsound, .inl hlt⟩

/-! ### The commands -/

/-- A command goes out, or the controller is to be reset. -/
theorem setupRwFloppy_left (hknown : ∀ j ∈ s.queue, Known m j.now) (hfault : s.fault = false)
    (hq : s.queue ≠ []) (ht : s.timers = []) (hreset : s.reset = false) (sent : Bool)
    (hn : (if sent then 1 else 6) + 6 * chances s.queue ≤ n) :
    Sound m (s.setupRwFloppy m sent) ∧ Left s (s.setupRwFloppy m sent) n := by
  rw [setupRwFloppy, setupDMA_eq hq]
  cases sent with
  | true =>
    refine ⟨⟨hknown, hfault, fun _ => .inr (Option.some_ne_none _), fun _ => hreset,
      fun h => (by cases h)⟩, ?_⟩
    exact left_of_queue rfl rfl hn
  | false =>
    exact left_doFdRequest s
      { s with
        addr := (s.setupDMA m).addr
        copied := (s.setupDMA m).copied
        doFloppy := some .rwInterrupt
        reset := true } false rfl rfl hknown hfault ht (.inl rfl) hn

/-- `transfer` without a failure goes on, and with one comes to a reset. -/
theorem transfer_left (hknown : ∀ j ∈ s.queue, Known m j.now) (hfault : s.fault = false)
    (hq : s.queue ≠ []) (ht : s.timers = []) (specified sent : Bool)
    (hn : (if s.reset = false ∧ specified = true ∧ sent = true then 2 else 6) +
      6 * chances s.queue ≤ n) :
    Sound m (s.transfer m specified sent) ∧ Left s (s.transfer m specified sent) n := by
  rw [Fd.transfer]
  dsimp only
  cases hspec : specified with
  | false =>
    exact left_doFdRequest s { s with reset := true } sent rfl rfl hknown hfault ht (.inl rfl)
      (by simpa [hspec] using hn)
  | true =>
    rw [if_pos rfl]
    cases hreset : s.reset with
    | true =>
      rw [if_pos rfl]
      exact left_doFdRequest s s sent rfl rfl hknown hfault ht (.inl hreset)
        (by simpa [hreset] using hn)
    | false =>
      rw [if_neg Bool.false_ne_true]
      split
      · cases hsent : sent with
        | true =>
          rw [if_pos rfl]
          refine ⟨⟨hknown, hfault, fun _ => .inr (Option.some_ne_none _), fun _ => rfl,
            fun h => (by cases h)⟩, ?_⟩
          have hn' : 2 + 6 * chances s.queue ≤ n := by simpa [hreset, hspec, hsent] using hn
          exact left_of_queue rfl rfl hn'
        | false =>
          exact left_doFdRequest s { s with doFloppy := some .seekInterrupt, reset := true } false
            rfl rfl hknown hfault ht (.inl rfl) (by simpa [hsent] using hn)
      · refine setupRwFloppy_left hknown hfault hq ht hreset sent ?_
        cases hsent : sent with
        | true =>
          simp only [hreset, hspec, hsent, and_self, if_true] at hn
          simp only [if_true]
          omega
        | false => simpa [hsent] using hn

/-! ### The interrupts -/

/-- A request that ends is followed by the next one. -/
theorem left_of_ended (s t : Fd) (sent : Bool) (hlt : s.ended.length < t.ended.length)
    (hknown : ∀ j ∈ t.queue, Known m j.now) (hfault : t.fault = false) (ht : t.timers = [])
    (hd : t.reset = true ∨ t.recalibrate = true ∨ t.doFloppy = none) (n : ℕ) :
    Sound m (t.doFdRequest m sent) ∧ Left s (t.doFdRequest m sent) n := by
  obtain ⟨hsound, -, ⟨-, he⟩ | hmore⟩ := doFdRequest_sound hknown hfault ht hd sent
  · exact ⟨hsound, .inl (by rw [he]; exact hlt)⟩
  · exact ⟨hsound, .inl (Nat.lt_trans hlt hmore)⟩

/-- An error is counted, and the request has one chance less, or has ended. -/
theorem badFlpIntr_left {j : Job} {queue : List Job} (hq : s.queue = j :: queue)
    (hknown : ∀ j ∈ s.queue, Known m j.now) (hfault : s.fault = false) (ht : s.timers = [])
    (hlast : queue ≠ [] ∨ j.now.errors < 8) (sent : Bool) (hn : 6 * chances s.queue ≤ n) :
    Sound m (s.badFlpIntr.doFdRequest m sent) ∧ Left s (s.badFlpIntr.doFdRequest m sent) n := by
  rw [hq] at hknown hn
  by_cases hmany : 8 < j.now.errors + 1
  · have hcount : s.countError =
        { s with queue := queue, ended := s.ended ++ [(j.failed, false)] } := by
      rw [countError, hq]
      dsimp only
      rw [if_pos hmany]
    have hlt : s.ended.length < s.countError.ended.length := by
      rw [hcount, List.length_append]
      exact Nat.lt_succ_self _
    have hrest : ∀ i ∈ s.countError.queue, Known m i.now := by
      rw [hcount]
      exact fun i hi => hknown i (List.mem_cons_of_mem _ hi)
    rw [badFlpIntr]
    split
    case h_1 hnil =>
      rw [hcount] at hnil
      exact absurd hnil (hlast.resolve_right (by omega))
    case h_2 =>
      split
      · exact left_of_ended s { s.countError with reset := true } sent hlt hrest
          (by rw [hcount]; exact hfault) (by rw [hcount]; exact ht) (.inl rfl) n
      · exact left_of_ended s { s.countError with recalibrate := true } sent hlt hrest
          (by rw [hcount]; exact hfault) (by rw [hcount]; exact ht) (.inr (.inl rfl)) n
  · have hcount : s.countError = { s with queue := j.failed :: queue } := by
      rw [countError, hq]
      dsimp only
      rw [if_neg hmany]
    have hfailed : ∀ i ∈ j.failed :: queue, Known m i.now := by
      intro i hi
      rcases List.mem_cons.mp hi with rfl | hi
      · exact (hknown j List.mem_cons_self).withErrors _
      · exact hknown i (List.mem_cons_of_mem _ hi)
    have hless : 6 + 6 * chances (j.failed :: queue) ≤ n := by
      have hold : 6 * (8 - j.now.errors) ≤ n := hn
      change 6 + 6 * (8 - (j.now.errors + 1)) ≤ n
      omega
    -- the flag that is set depends on the errors
    have hgo : ∀ t : Fd, t.queue = j.failed :: queue → t.ended = s.ended → t.fault = false →
        t.timers = [] → t.reset = true ∨ t.recalibrate = true ∨ t.doFloppy = none →
        Sound m (t.doFdRequest m sent) ∧ Left s (t.doFdRequest m sent) n := by
      intro t htq hte htf htt htd
      have hchances : 6 + 6 * chances t.queue ≤ n := by
        rw [htq]
        exact hless
      have hqueue : ∀ i ∈ t.queue, Known m i.now := by
        rw [htq]
        exact hfailed
      obtain ⟨hsound, hleft⟩ := left_doFdRequest t t sent rfl rfl hqueue htf htt htd hchances
      refine ⟨hsound, ?_⟩
      rcases hleft with hlt | ⟨he, hne, hr⟩
      · exact .inl (by rw [← hte]; exact hlt)
      · exact .inr ⟨by rw [he, hte], fun _ => hne (by rw [htq]; exact List.cons_ne_nil _ _), hr⟩
    rw [badFlpIntr, hcount]
    dsimp only
    split
    · exact hgo { s with queue := j.failed :: queue, reset := true } rfl rfl hfault ht (.inl rfl)
    · exact hgo { s with queue := j.failed :: queue, recalibrate := true } rfl rfl hfault ht
        (.inr (.inl rfl))

theorem rwInterrupt_left {j : Job} {queue : List Job} (hq : s.queue = j :: queue)
    (hknown : ∀ j ∈ s.queue, Known m j.now) (hfault : s.fault = false) (ht : s.timers = [])
    (hd : s.doFloppy = none) (o : Outcome)
    (hlast : o.ok = false → o.readOnly = false → queue ≠ [] ∨ j.now.errors < 8)
    (hn : 6 * chances s.queue ≤ n) :
    Sound m (s.rwInterrupt m o) ∧ Left s (s.rwInterrupt m o) n := by
  have hrest : ∀ i ∈ queue, Known m i.now := fun i hi =>
    hknown i (by rw [hq]; exact List.mem_cons_of_mem _ hi)
  have hlen : ∀ p : Job × Bool, s.ended.length < (s.ended ++ [p]).length := by simp
  rw [Fd.rwInterrupt]
  cases hok : o.ok with
  | true =>
    rw [if_pos rfl, hq]
    exact left_of_ended s
      { s with
        queue := queue
        ended := s.ended ++ [({ j with done := s.moves m j }, true)] } o.sent (hlen _) hrest hfault
      ht
      (.inr (.inr hd)) n
  | false =>
    rw [if_neg Bool.false_ne_true]
    dsimp only
    cases hread : o.readOnly with
    | true =>
      have hend : (s.answer o).endRequest false =
          { s.answer o with queue := queue, ended := s.ended ++ [(j, false)] } := by
        rw [endRequest, show (s.answer o).queue = j :: queue from hq]
        rfl
      rw [if_pos rfl, hend]
      exact left_of_ended s
        { s.answer o with queue := queue, ended := s.ended ++ [(j, false)] } o.sent (hlen _) hrest
        hfault ht (.inr (.inr hd)) n
    | false =>
      rw [if_neg Bool.false_ne_true]
      exact badFlpIntr_left (s := s.answer o) hq hknown hfault ht (hlast hok hread) o.sent hn

/-- The cost of an event. -/
def cost (s : Fd) (e : Event) : ℕ := if s.uncounted e then 5 else 0

/-- After `e` the current request has ended, or is one step nearer to its end. -/
def Nearer (s s' : Fd) (e : Event) : Prop := ∃ n, Left s s' n ∧ n + 1 ≤ s.rank + s.cost e

theorem nearer_of_le {e : Event} (hq : s'.queue = s.queue) (he : s'.ended = s.ended)
    (hr : s'.phase + 1 ≤ s.phase + s.cost e) : Nearer s s' e :=
  ⟨s'.phase + 6 * chances s.queue, left_of_queue hq he (Nat.le_refl _), by rw [rank]; omega⟩

theorem cost_of_uncounted {e : Event} (h : s.uncounted e = true) : s.cost e = 5 := by
  rw [cost, if_pos h]

/-- Nobody waits for the interrupt: it may ask for a reset. -/
theorem unexpectedInterrupt_left (h : Sound m s) (hd : s.doFloppy = none) (o : Outcome) :
    Sound m (s.unexpectedInterrupt o) ∧ Nearer s (s.unexpectedInterrupt o) (.interrupt o) := by
  have hcost : s.cost (.interrupt o) = 5 := cost_of_uncounted (by rw [uncounted, hd])
  have hphase : ∀ t : Fd, t.doFloppy = none → t.timers = s.timers → t.phase + 1 ≤ s.phase + 5 := by
    intro t htd htt
    rw [phase, phase, htd, hd, htt]
    cases s.timers with
    | nil => exact Nat.le_add_left 1 4
    | cons timer rest => cases timer <;> dsimp only <;> split <;> split <;> decide
  have hidle : ∀ {p : Prop}, s.doFloppy = some .resetInterrupt → p := by
    intro p hr
    cases hd.symm.trans hr
  rw [unexpectedInterrupt]
  split
  · exact ⟨⟨h.known, h.fault, h.alive, fun hne => absurd hd hne, hidle⟩, nearer_of_le rfl rfl (by rw [hcost]; exact hphase _ hd rfl)⟩
  · exact ⟨⟨h.known, h.fault, h.alive, fun hne => absurd hd hne, hidle⟩, nearer_of_le rfl rfl (by rw [hcost]; exact hphase _ hd rfl)⟩

theorem resetInterrupt_left (h : Sound m s) (hd : s.doFloppy = some .resetInterrupt)
    (ht : s.timers = []) (o : Outcome) :
    Sound m ({ s with doFloppy := none }.resetInterrupt m o) ∧
      Nearer s ({ s with doFloppy := none }.resetInterrupt m o) (.interrupt o) := by
  have hreset := h.calm (by rw [hd]; exact Option.some_ne_none _)
  have hrecal := h.recalibrates hd
  have hphase : s.phase = 6 := by rw [phase, hd]
  cases hgood : o.hung || !o.sent with
  | true =>
    have hcost : s.cost (.interrupt o) = 5 := cost_of_uncounted (by rw [uncounted, hd]; exact hgood)
    obtain ⟨hsound, hleft⟩ := left_doFdRequest s ({ s with doFloppy := none }.answer o) o.sent
      rfl rfl h.known h.fault ht (.inr (.inl hrecal)) (Nat.le_refl (6 + 6 * chances s.queue))
    exact ⟨hsound, _, hleft, by rw [rank, hphase, hcost]; omega⟩
  | false =>
    have hhung : o.hung = false := (Bool.or_eq_false_iff.mp hgood).1
    have hsent : o.sent = true := by simpa using (Bool.or_eq_false_iff.mp hgood).2
    have hgo : { s with doFloppy := none }.resetInterrupt m o =
        { s with doFloppy := none, seek := false }.recalibrateFloppy true := by
      simp [Fd.resetInterrupt, answer, doFdRequest, hhung, hsent, hreset, hrecal]
    obtain ⟨hsound, hp, hq, he⟩ := recalibrateFloppy_sound (m := m)
      (s := { s with doFloppy := none, seek := false }) h.known h.fault hreset true
    rw [hgo]
    exact ⟨hsound, nearer_of_le hq he (by rw [hp, hphase]; simp)⟩

theorem recalInterrupt_left (h : Sound m s) (hd : s.doFloppy = some .recalInterrupt)
    (ht : s.timers = []) (o : Outcome) :
    Sound m ({ s with doFloppy := none }.recalInterrupt m o) ∧
      Nearer s ({ s with doFloppy := none }.recalInterrupt m o) (.interrupt o) := by
  have hreset := h.calm (by rw [hd]; exact Option.some_ne_none _)
  have hphase : s.phase = 5 := by rw [phase, hd]
  rw [Fd.recalInterrupt]
  cases hok : o.ok with
  | true =>
    rw [if_pos rfl]
    have hgo : { s with doFloppy := none, recalibrate := false }.doFdRequest m o.sent =
        { s with doFloppy := none, recalibrate := false, seek := false }.takeOn m s.queue := by
      simp [doFdRequest, hreset]
    obtain ⟨hsound, hp, ⟨hq, he⟩ | hlt⟩ := takeOn_sound (m := m) s.queue
      { s with doFloppy := none, recalibrate := false, seek := false } h.known h.fault ht rfl hreset
    · rw [hgo]
      exact ⟨hsound, nearer_of_le hq he (by omega)⟩
    · rw [hgo]
      exact ⟨hsound, 0, .inl hlt, by rw [rank]; omega⟩
  | false =>
    rw [if_neg Bool.false_ne_true]
    have hcost : s.cost (.interrupt o) = 5 := cost_of_uncounted (by rw [uncounted, hd]; simp [hok])
    obtain ⟨hsound, hleft⟩ := left_doFdRequest s { s with doFloppy := none, reset := true } o.sent
      rfl rfl h.known h.fault ht (.inl rfl) (Nat.le_refl (6 + 6 * chances s.queue))
    exact ⟨hsound, _, hleft, by rw [rank, hphase, hcost]; omega⟩

theorem seekInterrupt_left {j : Job} {queue : List Job} (h : Sound m s) (hq : s.queue = j :: queue)
    (hd : s.doFloppy = some .seekInterrupt) (ht : s.timers = []) (o : Outcome)
    (hlast : o.ok = false → queue ≠ [] ∨ j.now.errors < 8) :
    Sound m ({ s with doFloppy := none }.seekInterrupt m o) ∧
      Nearer s ({ s with doFloppy := none }.seekInterrupt m o) (.interrupt o) := by
  have hreset := h.calm (by rw [hd]; exact Option.some_ne_none _)
  have hphase : s.phase = 2 := by rw [phase, hd]
  rw [Fd.seekInterrupt]
  cases hok : o.ok with
  | true =>
    rw [if_pos rfl]
    have hne : s.queue ≠ [] := by rw [hq]; exact List.cons_ne_nil _ _
    obtain ⟨hsound, hleft⟩ := setupRwFloppy_left
      (s := { s with doFloppy := none, currentTrack := s.seekTrack }) h.known h.fault hne ht hreset
      o.sent (Nat.le_refl _)
    refine ⟨hsound, _, hleft, ?_⟩
    have hchances : chances { s with doFloppy := none, currentTrack := s.seekTrack }.queue =
        chances s.queue := rfl
    have hcost : s.cost (.interrupt o) = if o.sent then 0 else 5 := by
      rw [cost, uncounted, hd]
      cases hsent : o.sent <;> simp [hok]
    rw [rank, hphase, hcost, hchances]
    split <;> omega
  | false =>
    rw [if_neg Bool.false_ne_true]
    obtain ⟨hsound, hleft⟩ := badFlpIntr_left (s := { s with doFloppy := none }.answer o) hq h.known
      h.fault ht (hlast hok) o.sent (Nat.le_refl _)
    refine ⟨hsound, 6 * chances s.queue, hleft, ?_⟩
    rw [rank, hphase]
    omega

theorem interrupt_left (h : Sound m s) (hgood : Good m s) (o : Outcome) (hlast : ¬ LastError s o) :
    Sound m (s.interrupt m o) ∧ Nearer s (s.interrupt m o) (.interrupt o) := by
  -- an interrupt that is waited for comes when no timer runs
  have ht : s.doFloppy ≠ none → s.timers = [] := fun hd =>
    hgood.chain.resolve_right fun hc => hd hc.1
  -- and a command is for the current request
  have hcurrent : s.doFloppy = some .seekInterrupt ∨ s.doFloppy = some .rwInterrupt →
      ∃ j queue, s.queue = j :: queue := by
    intro hw
    obtain ⟨j, hj, -⟩ := hgood.aimed h.fault (.inr hw)
    obtain ⟨queue, hq⟩ := List.head?_eq_some_iff.mp hj
    exact ⟨j, queue, hq⟩
  have hmore : ∀ {j : Job} {queue : List Job}, s.queue = j :: queue → o.ok = false →
      (s.doFloppy = some .seekInterrupt ∨ s.doFloppy = some .rwInterrupt ∧ o.readOnly = false) →
      queue ≠ [] ∨ j.now.errors < 8 := by
    intro j queue hq hok hd
    by_contra hbad
    obtain ⟨hnil, hmany⟩ := not_or.mp hbad
    refine hlast ⟨j, ?_, Nat.not_lt.mp hmany, hok, hd⟩
    rw [hq, not_not.mp hnil]
  have hwaits : ∀ {i : FdHandler}, s.doFloppy = some i → s.doFloppy ≠ none := by
    intro i hd
    rw [hd]
    exact Option.some_ne_none _
  rw [Fd.interrupt]
  split
  case h_1 hd => exact unexpectedInterrupt_left h hd o
  case h_2 hd =>
    obtain ⟨j, queue, hq⟩ := hcurrent (.inl hd)
    exact seekInterrupt_left h hq hd (ht (hwaits hd)) o fun hok => hmore hq hok (.inl hd)
  case h_3 hd =>
    obtain ⟨j, queue, hq⟩ := hcurrent (.inr hd)
    obtain ⟨hsound, hleft⟩ := rwInterrupt_left (s := { s with doFloppy := none }) hq h.known h.fault
      (ht (hwaits hd)) rfl o (fun hok hr => hmore hq hok (.inr ⟨hd, hr⟩)) (Nat.le_refl _)
    refine ⟨hsound, 6 * chances s.queue, hleft, ?_⟩
    have hphase : s.phase = 1 := by rw [phase, hd]
    rw [rank, hphase]
    omega
  case h_4 hd => exact recalInterrupt_left h hd (ht (hwaits hd)) o
  case h_5 hd => exact resetInterrupt_left h hd (ht (hwaits hd)) o

/-! ### The timers, and new requests -/

theorem timer_left (h : Sound m s) (hgood : Good m s) {i : ℕ} {timer : FdTimer}
    (hi : s.timers[i]? = some timer) (other specified sent : Bool) :
    Sound m ({ s with timers := s.timers.eraseIdx i }.expire m other specified sent timer) ∧
      Nearer s ({ s with timers := s.timers.eraseIdx i }.expire m other specified sent timer)
        (.timer i other specified sent) := by
  obtain ⟨-, hnil, hd, j, hj, -⟩ := good_timer hgood h.fault hi
  have hq : s.queue ≠ [] := by
    intro hempty
    rw [hempty] at hj
    cases hj
  -- the timer is the only one
  have htimers : s.timers = [timer] := by
    have hne : s.timers ≠ [] := by
      intro hempty
      rw [hempty] at hi
      cases hi
    obtain ⟨one, hone⟩ := List.length_eq_one_iff.mp (hgood.chain.resolve_left hne).2
    rw [hone] at hi ⊢
    rw [List.mem_singleton.mp (List.mem_of_getElem? hi)]
  rw [hnil]
  obtain ⟨e, he⟩ : ∃ e, e = Event.timer i other specified sent := ⟨_, rfl⟩
  rw [← he]
  -- a transfer that goes wrong is paid for
  have hpay : (if s.reset = false ∧ specified = true ∧ sent = true then 2 else 6) + 1 ≤
      (if s.reset then 7 else 3) + s.cost e := by
    rw [he, cost, uncounted]
    cases s.reset <;> cases specified <;> cases sent <;> decide
  have hgo := transfer_left (s := { s with timers := [] }) h.known h.fault hq rfl specified sent
    (Nat.le_refl _)
  have htransfer : ∀ p, (if s.reset then 7 else 3) ≤ p → s.phase = p →
      Sound m ({ s with timers := [] }.transfer m specified sent) ∧
        Nearer s ({ s with timers := [] }.transfer m specified sent) e := by
    intro p hp hphase
    refine ⟨hgo.1, _, hgo.2, ?_⟩
    change (if s.reset = false ∧ specified = true ∧ sent = true then 2 else 6) +
      6 * chances s.queue + 1 ≤ _
    rw [rank, hphase]
    omega
  cases timer with
  | transfer =>
    exact htransfer _ (Nat.le_refl _) (by rw [phase, hd, htimers])
  | floppyOnInterrupt =>
    have hphase : s.phase = if s.reset then 8 else 4 := by rw [phase, hd, htimers]
    rw [expire, floppyOnInterrupt]
    cases other with
    | true =>
      rw [if_pos rfl]
      refine ⟨⟨h.known, h.fault, fun _ => .inl (List.cons_ne_nil _ _), fun hne => absurd hd hne,
        fun hr => (by cases hd.symm.trans hr)⟩, nearer_of_le rfl rfl ?_⟩
      have hthen : ({ s with timers := [.transfer] } : Fd).phase = if s.reset then 7 else 3 := by
        have hnone : ({ s with timers := [.transfer] } : Fd).doFloppy = none := hd
        rw [phase, hnone]
      change ({ s with timers := [.transfer] } : Fd).phase + 1 ≤ _
      rw [hphase, hthen]
      cases s.reset <;> simp
    | false =>
      rw [if_neg Bool.false_ne_true]
      refine htransfer _ ?_ hphase
      cases s.reset <;> decide

/-- A request is queued behind the current one. -/
theorem addRequest_left {r : DriverRequest} (h : Sound m s) (hr : Known m r)
    (hc : s.queue = [] → s.timers = [] ∧ s.doFloppy = none) (k : ℕ) (sent : Bool) :
    Sound m (s.addRequest m r k sent) ∧
      s.ended.length ≤ (s.addRequest m r k sent).ended.length ∧
      (s.queue ≠ [] → Left s (s.addRequest m r k sent) s.rank) := by
  rw [addRequest]
  split
  case h_1 hq =>
    obtain ⟨ht, hd⟩ := hc hq
    have hone : ∀ j ∈ [(⟨r, r, []⟩ : Job)], Known m j.now := by
      intro j hj
      rw [List.mem_singleton.mp hj]
      exact hr
    obtain ⟨hsound, -, hended⟩ := doFdRequest_sound (s := { s with queue := [⟨r, r, []⟩] }) hone
      h.fault ht (.inr (.inr hd)) sent
    refine ⟨hsound, ?_, fun hne => absurd hq hne⟩
    rcases hended with ⟨-, he⟩ | hlt
    · exact Nat.le_of_eq (congrArg List.length he).symm
    · exact Nat.le_of_lt hlt
  case h_2 job queue hq =>
    have hold : ∀ i ∈ job :: queue, Known m i.now := fun i hi => h.known i (by rw [hq]; exact hi)
    refine ⟨⟨fun i hi => ?_, h.fault, fun _ => h.alive (by rw [hq]; exact List.cons_ne_nil _ _), h.calm,
      h.recalibrates⟩, Nat.le_refl _, fun _ => .inr ⟨rfl, fun _ => List.cons_ne_nil _ _, ?_⟩⟩
    · rcases List.mem_cons.mp hi with rfl | hi
      · exact hold _ List.mem_cons_self
      · rcases List.mem_append.mp hi with hi | hi
        · exact hold i (List.mem_cons_of_mem _ (List.mem_of_mem_take hi))
        · rcases List.mem_cons.mp hi with rfl | hi
          · exact hr
          · exact hold i (List.mem_cons_of_mem _ (List.mem_of_mem_drop hi))
    · rw [rank, rank, hq]
      exact Nat.le_refl _

/-! ### Runs -/

theorem Left.ended_le (h : Left s s' n) : s.ended.length ≤ s'.ended.length := by
  rcases h with hlt | ⟨he, -, -⟩
  · exact Nat.le_of_lt hlt
  · exact Nat.le_of_eq he.symm

/-- What a step leaves. -/
theorem step_left (h : Sound m s) (hgood : Good m s) {e : Event} (hc : Careful m s e)
    (hs : s.step m e = some s') :
    Sound m s' ∧ s.ended.length ≤ s'.ended.length ∧
      (s.queue ≠ [] → ∃ n, Left s s' n ∧
        n + (if e.isWait then 1 else 0) ≤ s.rank + s.cost e) := by
  obtain ⟨horder, hc⟩ := hc
  have hgo : ¬ s.fault = true := by
    rw [h.fault]
    exact Bool.false_ne_true
  unfold Fd.step at hs
  rw [if_neg hgo] at hs
  cases e with
  | add minor write page nr buffer k sent =>
    cases hs
    obtain ⟨hsound, hended, hleft⟩ := addRequest_left h hc horder k sent
    exact ⟨hsound, hended, fun hq => ⟨s.rank, hleft hq, Nat.le_add_right _ _⟩⟩
  | interrupt o =>
    cases hs
    obtain ⟨hsound, n, hleft, hn⟩ := interrupt_left h hgood o hc
    exact ⟨hsound, hleft.ended_le, fun _ => ⟨n, hleft, hn⟩⟩
  | timer i other specified sent =>
    obtain ⟨timer, htimer, rfl⟩ := Option.map_eq_some_iff.mp hs
    obtain ⟨hsound, n, hleft, hn⟩ := timer_left h hgood htimer other specified sent
    exact ⟨hsound, hleft.ended_le, fun _ => ⟨n, hleft, hn⟩⟩

theorem waits_cons (e : Event) (es : List Event) :
    waits (e :: es) = (if e.isWait then 1 else 0) + waits es := by
  rw [waits, waits, List.countP_cons, Nat.add_comm]

theorem failures_cons {e : Event} (es : List Event) (hs : s.step m e = some s') :
    5 * failures m s (e :: es) = s.cost e + 5 * failures m s' es := by
  have hcost : s.cost e = 5 * if s.uncounted e then 1 else 0 := by
    rw [cost]
    split <;> rfl
  rw [failures, hs, hcost, Nat.mul_add]

/-- No request that has ended comes back. -/
theorem run_ended_le (es : List Event) (h : Sound m s) (hgood : Good m s)
    (hrun : System.runOf (step m) es s = some s') (hc : CarefulRun m s es) :
    s.ended.length ≤ s'.ended.length := by
  induction es generalizing s with
  | nil =>
    cases Option.some.inj hrun
    exact Nat.le_refl _
  | cons e es ih =>
    obtain ⟨s₁, hs₁, hrest⟩ := Option.bind_eq_some_iff.mp hrun
    obtain ⟨hsound, hended, -⟩ := step_left h hgood hc.1 hs₁
    have hgood₁ : Good m s₁ := good_step hgood hc.1.1 hs₁
    exact Nat.le_trans hended (ih hsound hgood₁ hrest (hc.2 s₁ hs₁))

/-- As long as the current request has not ended, every interrupt and timer is paid for. -/
theorem run_left (es : List Event) (h : Sound m s) (hgood : Good m s) (hq : s.queue ≠ [])
    (hrun : System.runOf (step m) es s = some s') (hc : CarefulRun m s es) :
    s.ended.length < s'.ended.length ∨
      s'.queue ≠ [] ∧ waits es + s'.rank ≤ s.rank + 5 * failures m s es ∧ Sound m s' ∧
        Good m s' := by
  induction es generalizing s with
  | nil =>
    cases Option.some.inj hrun
    exact .inr ⟨hq, by rw [waits, List.countP_nil]; omega, h, hgood⟩
  | cons e es ih =>
    obtain ⟨s₁, hs₁, hrest⟩ := Option.bind_eq_some_iff.mp hrun
    obtain ⟨hsound, -, hstep⟩ := step_left h hgood hc.1 hs₁
    have hgood₁ : Good m s₁ := good_step hgood hc.1.1 hs₁
    have hcrest := hc.2 s₁ hs₁
    obtain ⟨n, hleft, hn⟩ := hstep hq
    rcases hleft with hlt | ⟨he, hne, hr⟩
    · exact .inl (Nat.lt_of_lt_of_le hlt (run_ended_le es hsound hgood₁ hrest hcrest))
    · rcases ih hsound hgood₁ (hne hq) hrest hcrest with hlt | ⟨hq', hpaid, hsound', hgood'⟩
      · exact .inl (by rw [← he]; exact hlt)
      · refine .inr ⟨hq', ?_, hsound', hgood'⟩
        have hfail := failures_cons es hs₁
        rw [waits_cons]
        omega

/-- A current request waits for something. -/
theorem rank_bounds (h : Sound m s) (hq : s.queue ≠ []) : 1 ≤ s.rank ∧ s.rank ≤ 56 := by
  have hphase : 1 ≤ s.phase ∧ s.phase ≤ 8 := by
    rw [phase]
    rcases hd : s.doFloppy with _ | (_ | _ | _ | _)
    · rcases ht : s.timers with _ | ⟨_ | _, rest⟩
      · exact absurd (h.alive hq) (not_or.mpr ⟨not_not_intro ht, not_not_intro hd⟩)
      · dsimp only
        split <;> decide
      · dsimp only
        split <;> decide
    · exact ⟨Nat.le_add_left 1 1, Nat.le_add_right 2 6⟩
    · exact ⟨Nat.le_refl 1, Nat.le_add_right 1 7⟩
    · exact ⟨Nat.le_add_left 1 4, Nat.le_add_right 5 3⟩
    · exact ⟨Nat.le_add_left 1 5, Nat.le_add_right 6 2⟩
  have hchances : chances s.queue ≤ 8 := by
    cases s.queue with
    | nil => exact Nat.zero_le _
    | cons j queue => exact Nat.sub_le _ _
  rw [rank]
  omega

theorem sound_of_reach (h : (system m).Reach (Careful m) s) : Good m s ∧ Sound m s := by
  have hgood : ∀ {s}, (system m).Reach (Careful m) s → Good m s := fun h =>
    driven (h.mono fun _ _ hc => hc.1)
  induction h with
  | init h =>
    have hfresh := hgood (.init h)
    obtain ⟨hq, -, -, hd, ht, hfault⟩ := h
    refine ⟨hfresh, ?_, hfault,
      fun hne => absurd hq hne, fun hne => absurd hd hne, fun hr => ?_⟩
    · rw [hq]
      exact nofun
    · rw [hd] at hr
      cases hr
  | step hreach hg hs ih =>
    exact ⟨hgood (.step hreach hg hs), (step_left ih.2 ih.1 hg hs).1⟩

/-! ### The whole queue -/

/-- The requests that were asked for. -/
def asked (s : Fd) : ℕ := s.queue.length + s.ended.length

theorem asked_countError (s : Fd) : s.countError.asked = s.asked := by
  rw [countError]
  split
  case h_1 => rfl
  case h_2 job queue hq =>
    split
    case isTrue =>
      simp [asked, hq]
      omega
    case isFalse => simp [asked, hq]

theorem asked_badFlpIntr (s : Fd) : s.badFlpIntr.asked = s.asked := by
  rw [badFlpIntr]
  split
  case h_1 => exact asked_countError s
  case h_2 => split <;> exact asked_countError s

theorem asked_takeOn (queue : List Job) (s : Fd) :
    (s.takeOn m queue).asked = queue.length + s.ended.length := by
  induction queue generalizing s with
  | nil => rfl
  | cons j queue ih =>
    rw [takeOn]
    dsimp only
    split
    case isTrue =>
      rw [ih]
      simp only [List.length_append, List.length_cons, List.length_nil]
      omega
    case isFalse => split <;> rfl

theorem asked_doFdRequest (s : Fd) (sent : Bool) : (s.doFdRequest m sent).asked = s.asked := by
  rw [doFdRequest]
  dsimp only
  split
  case isTrue => rfl
  case isFalse =>
    split
    case isTrue =>
      rw [recalibrateFloppy]
      split <;> rfl
    case isFalse => exact asked_takeOn _ _

theorem asked_setupRwFloppy (s : Fd) (sent : Bool) : (s.setupRwFloppy m sent).asked = s.asked := by
  have hdma : (s.setupDMA m).asked = s.asked := by
    rw [setupDMA]
    split <;> rfl
  rw [setupRwFloppy]
  split
  case isTrue => exact hdma
  case isFalse => exact (asked_doFdRequest _ _).trans hdma

theorem asked_transfer (s : Fd) (specified sent : Bool) :
    (s.transfer m specified sent).asked = s.asked := by
  rw [Fd.transfer]
  cases specified with
  | false => exact asked_doFdRequest (m := m) { s with reset := true } sent
  | true =>
    dsimp only
    rw [if_pos rfl]
    split
    case isTrue => exact asked_doFdRequest s sent
    case isFalse =>
      split
      case isTrue =>
        split
        case isTrue => rfl
        case isFalse => exact asked_doFdRequest _ _
      case isFalse => exact asked_setupRwFloppy _ _

theorem asked_interrupt (s : Fd) (o : Outcome) : (s.interrupt m o).asked = s.asked := by
  rw [Fd.interrupt]
  split
  case h_1 =>
    rw [unexpectedInterrupt]
    split <;> rfl
  case h_2 =>
    rw [Fd.seekInterrupt]
    split
    case isTrue => exact asked_setupRwFloppy _ _
    case isFalse => exact (asked_doFdRequest _ _).trans (asked_badFlpIntr _)
  case h_3 =>
    rw [Fd.rwInterrupt]
    split
    case isTrue =>
      split
      case h_1 => rfl
      case h_2 job queue hq =>
        rw [asked_doFdRequest]
        have hq' : s.queue = job :: queue := hq
        simp only [asked, hq', List.length_append, List.length_cons, List.length_nil]
        omega
    case isFalse =>
      rw [asked_doFdRequest]
      split
      case isTrue =>
        rw [endRequest]
        split
        case h_1 => rfl
        case h_2 job queue hq =>
          have hq' : s.queue = job :: queue := hq
          simp only [asked, answer, hq', List.length_append, List.length_cons, List.length_nil]
          omega
      case isFalse => exact asked_badFlpIntr _
  case h_4 =>
    rw [Fd.recalInterrupt, asked_doFdRequest]
    split <;> rfl
  case h_5 => exact asked_doFdRequest _ _

/-- Requests are not lost, and a new one is queued. -/
theorem asked_step {e : Event} (hs : s.step m e = some s') :
    s'.asked = s.asked + if e.isWait then 0 else 1 := by
  unfold Fd.step at hs
  split at hs
  case isTrue => cases hs
  case isFalse =>
    cases e with
    | add minor write page nr buffer k sent =>
      cases hs
      rw [addRequest]
      split
      case h_1 hq =>
        rw [asked_doFdRequest]
        simp [asked, hq, Event.isWait]
        omega
      case h_2 job queue hq =>
        simp [asked, hq, Event.isWait]
        omega
    | interrupt o =>
      cases hs
      exact asked_interrupt s o
    | timer i other specified sent =>
      obtain ⟨timer, -, rfl⟩ := Option.map_eq_some_iff.mp hs
      cases timer with
      | floppyOnInterrupt =>
        rw [expire, floppyOnInterrupt]
        split
        case isTrue => rfl
        case isFalse => exact asked_transfer _ _ _
      | transfer => exact asked_transfer _ _ _

/-- The requests that come in a run. -/
def adds (es : List Event) : ℕ := es.countP fun e => !e.isWait

theorem adds_cons (e : Event) (es : List Event) :
    adds (e :: es) = (if e.isWait then 0 else 1) + adds es := by
  rw [adds, adds, List.countP_cons, Nat.add_comm]
  cases e.isWait <;> rfl

/-- What is left of all requests. -/
def backlog (s : Fd) : ℕ := s.rank + 56 * (s.queue.length - 1)

theorem backlog_step (h : Sound m s) (hgood : Good m s) {e : Event} (hc : Careful m s e)
    (hs : s.step m e = some s') (hq : s.queue ≠ []) (hq' : s'.queue ≠ []) :
    s'.backlog + (if e.isWait then 1 else 0) ≤
      s.backlog + s.cost e + 56 * if e.isWait then 0 else 1 := by
  obtain ⟨hsound, -, hstep⟩ := step_left h hgood hc hs
  obtain ⟨n, hleft, hn⟩ := hstep hq
  have hasked := asked_step hs
  rw [asked, asked] at hasked
  have hlen := List.length_pos_iff.mpr hq
  have hlen' := List.length_pos_iff.mpr hq'
  have hbefore := rank_bounds h hq
  have hafter := rank_bounds hsound hq'
  rw [backlog, backlog]
  cases hw : e.isWait with
  | true =>
    simp only [hw, if_true] at hasked hn ⊢
    -- the rank of the next request is paid for by the one that has ended
    rcases hleft with hlt | ⟨he, -, hr⟩ <;> omega
  | false =>
    simp only [hw, Bool.false_eq_true, if_false] at hasked hn ⊢
    rcases hleft with hlt | ⟨he, -, hr⟩ <;> omega

/-- Until the queue is empty, every interrupt and timer is paid for. -/
theorem run_backlog (es : List Event) (h : Sound m s) (hgood : Good m s) (hq : s.queue ≠ [])
    (hrun : System.runOf (step m) es s = some s') (hc : CarefulRun m s es) :
    (∃ es₁ es₂ s₁, es = es₁ ++ es₂ ∧ System.runOf (step m) es₁ s = some s₁ ∧ s₁.queue = []) ∨
      waits es < s.backlog + 5 * failures m s es + 56 * adds es := by
  induction es generalizing s with
  | nil =>
    have hbefore := rank_bounds h hq
    refine .inr ?_
    rw [waits, List.countP_nil, backlog]
    omega
  | cons e es ih =>
    obtain ⟨s₁, hs₁, hrest⟩ := Option.bind_eq_some_iff.mp hrun
    by_cases hempty : s₁.queue = []
    · refine .inl ⟨[e], es, s₁, rfl, ?_, hempty⟩
      exact Option.bind_eq_some_iff.mpr ⟨s₁, hs₁, rfl⟩
    · have hsound := (step_left h hgood hc.1 hs₁).1
      have hstep := backlog_step h hgood hc.1 hs₁ hq hempty
      rcases ih hsound (good_step hgood hc.1.1 hs₁) hempty hrest (hc.2 s₁ hs₁) with
        ⟨es₁, es₂, s₂, hes, hs₂, hend⟩ | hlt
      · refine .inl ⟨e :: es₁, es₂, s₂, by rw [hes]; rfl, ?_, hend⟩
        exact Option.bind_eq_some_iff.mpr ⟨s₁, hs₁, hs₂⟩
      · refine .inr ?_
        rw [waits_cons, adds_cons, failures_cons es hs₁]
        omega

/-- In careful runs `CURRENT` is not read when there is none; and from any state on the current
request ends within 56 interrupts and timers, and five for every uncounted failure, and so do all
requests of the queue, with 56 for each and for each that comes. -/
theorem floppy_ends (m : FloppyMemory) {s : Fd} (h : (system m).Reach (Careful m) s) :
    s.fault = false ∧ (s.queue ≠ [] → s.timers ≠ [] ∨ s.doFloppy ≠ none) ∧
      ∀ es s', System.runOf (step m) es s = some s' → CarefulRun m s es →
        (s.queue ≠ [] → 56 + 5 * failures m s es ≤ waits es →
          s.ended.length < s'.ended.length) ∧
        (56 * (s.queue.length + adds es) + 5 * failures m s es ≤ waits es →
          ∃ es₁ es₂ s₁, es = es₁ ++ es₂ ∧ System.runOf (step m) es₁ s = some s₁ ∧
            s₁.queue = []) := by
  obtain ⟨hgood, hsound⟩ := sound_of_reach h
  refine ⟨hsound.fault, hsound.alive, fun es s' hrun hc => ⟨fun hq hmany => ?_, fun hmany => ?_⟩⟩
  · refine (run_left es hsound hgood hq hrun hc).resolve_right ?_
    rintro ⟨hq', hpaid, hsound', -⟩
    have hbefore := rank_bounds hsound hq
    have hafter := rank_bounds hsound' hq'
    omega
  · by_cases hq : s.queue = []
    · exact ⟨[], es, s, rfl, rfl, hq⟩
    · refine (run_backlog es hsound hgood hq hrun hc).resolve_right ?_
      have hlen := List.length_pos_iff.mpr hq
      have hbefore := rank_bounds hsound hq
      rw [backlog]
      omega

/-! ### A drive of 1.44 MB -/

/-- Nothing is known of what lies behind the table. -/
def blank : FloppyMemory := ⟨fun _ => ⟨0, 0, 0, 0⟩, 0⟩

/-- The first block is read. -/
def readFirst : Event := .add 28 false false 0 0 0 true

/-- The driver, before the block is asked for. -/
def idle : Fd := start blank (.make 28 false false 0 0)

theorem floppy_ends_first : ∃ s, idle.step blank readFirst = some s ∧ s.queue ≠ [] ∧
    ∀ es s', System.runOf (step blank) es s = some s' → CarefulRun blank s es →
      56 + 5 * failures blank s es ≤ waits es → 0 < s'.ended.length := by
  refine ⟨_, rfl, nofun, fun es s' hrun hc hmany => ?_⟩
  have hreach : (system blank).Reach (Careful blank) idle :=
    .init ⟨rfl, rfl, rfl, rfl, rfl, rfl⟩
  have hends := floppy_ends blank (hreach.step (a := readFirst)
    ⟨fun _ => ⟨rfl, rfl⟩, .inr ⟨by decide, by decide⟩⟩ rfl)
  exact ((hends.2.2 es s' hrun hc).1 nofun hmany)

/-- The reset fails: the controller has not answered. -/
def hungReset : Event := .interrupt ⟨false, true, false, true⟩

/-- A reset that fails is followed by the same reset. -/
theorem runOf_hungReset (n : ℕ) (hfault : s.fault = false) (hd : s.doFloppy = some .resetInterrupt)
    (hrecal : s.recalibrate = true) (hreset : s.reset = false) (hseek : s.seek = false) :
    System.runOf (step m) (List.replicate n hungReset) s = some s := by
  have hstep : s.step m hungReset = some s := by
    cases s
    simp_all [Fd.step, hungReset, Fd.interrupt, Fd.resetInterrupt, answer, doFdRequest, resetFloppy]
  induction n with
  | zero => rfl
  | succ n ih => exact Option.bind_eq_some_iff.mpr ⟨s, hstep, ih⟩

/-- The reads of a track that fails, and what follows them: a recalibration. -/
def failsOnce : List Event :=
  [.interrupt ⟨false, false, false, true⟩, .interrupt ⟨true, false, false, true⟩,
    .timer 0 false true true]

/-- The same after the fourth error: a reset comes first. -/
def failsLater : List Event :=
  [.interrupt ⟨false, false, false, true⟩, .interrupt ⟨true, false, false, true⟩,
    .interrupt ⟨true, false, false, true⟩, .timer 0 false true true]

/-- No number of interrupts and timers is enough for a request when the controller does not come
back from its reset, and the ninth error of the last request reads through `NULL`. -/
theorem floppy_resets_on :
    (¬ ∃ n, ∀ es s, System.runOf (step blank) es idle = some s → readFirst ∈ es → n ≤ waits es →
      s.ended ≠ []) ∧
    ∃ es s, System.runOf (step blank) es idle = some s ∧ s.queue = [] ∧ s.fault = true := by
  constructor
  · rintro ⟨n, h⟩
    -- the parameters are not taken, so that the controller is reset
    obtain ⟨s, hs, hended, hfault, hd, hrecal, hreset, hseek⟩ : ∃ s,
        (∀ es, System.runOf (step blank) (readFirst :: .timer 0 false false true :: es) idle =
          System.runOf (step blank) es s) ∧
          s.ended = [] ∧ s.fault = false ∧ s.doFloppy = some .resetInterrupt ∧
          s.recalibrate = true ∧ s.reset = false ∧ s.seek = false :=
      ⟨_, fun _ => rfl, rfl, rfl, rfl, rfl, rfl, rfl⟩
    refine h (readFirst :: .timer 0 false false true :: List.replicate n hungReset) s ?_ ?_ ?_
      hended
    · rw [hs]
      exact runOf_hungReset n hfault hd hrecal hreset hseek
    · exact List.mem_cons_self
    · rw [waits, List.countP_cons, List.countP_cons, List.countP_replicate]
      simp only [hungReset, Event.isWait, if_true]
      omega
  · exact ⟨[readFirst, .timer 0 false true true] ++ failsOnce ++ failsOnce ++ failsOnce ++
      failsOnce ++ failsLater ++ failsLater ++ failsLater ++ failsLater ++
      [.interrupt ⟨false, false, false, true⟩], _, rfl, rfl, rfl⟩

end Fd

end Blk
